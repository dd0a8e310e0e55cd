/-!
Bindings of names: a list of pairs with each name once, in the order the names first came.
-/

namespace Lox

abbrev Bindings (α : Type) := List (String × α)

namespace Bindings

variable {α : Type}

def get? : Bindings α → String → Option α
  | [], _ => none
  | (n, v) :: rest, name => if n = name then some v else get? rest name

def has (b : Bindings α) (name : String) : Bool :=
  (b.get? name).isSome

def put : Bindings α → String → α → Bindings α
  | [], name, v => [(name, v)]
  | (n, w) :: rest, name, v =>
    if n = name then (n, v) :: rest else (n, w) :: put rest name v

def names (b : Bindings α) : List String :=
  b.map (·.1)

@[simp] theorem get?_nil (name : String) : get? ([] : Bindings α) name = none := rfl

theorem get?_cons (n : String) (w : α) (rest : Bindings α) (name : String) :
    get? ((n, w) :: rest) name = if n = name then some w else get? rest name := rfl

@[simp] theorem get?_put_self (b : Bindings α) (name : String) (v : α) :
    (b.put name v).get? name = some v := by
  induction b with
  | nil => simp [put, get?_cons]
  | cons p rest ih =>
    obtain ⟨n, w⟩ := p
    by_cases h : n = name <;> simp [put, get?_cons, h, ih]

theorem get?_put_of_ne (b : Bindings α) {name other : String} (v : α) (h : other ≠ name) :
    (b.put name v).get? other = b.get? other := by
  induction b with
  | nil => simp [put, get?_cons, h.symm]
  | cons p rest ih =>
    obtain ⟨n, w⟩ := p
    by_cases hn : n = name
    · subst hn; simp [put, get?_cons, h.symm]
    · simp [put, get?_cons, hn, ih]

end Bindings
end Lox
