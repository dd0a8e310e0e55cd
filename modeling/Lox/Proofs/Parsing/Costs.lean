import Lox.Proofs.Parsing.Openings

/-!
What parsing costs. A run over tokens and the end behind them reads some of the tokens and makes
some reports; every rule has enough steps for it, and its reports are paid for by the tokens that it
reads. More steps change nothing, and neither does another limit that the reports do not fill.
-/

namespace Lox

namespace Cursor

def errors (c : Cursor) : Nat := c.log.parse.length

def limited (c : Cursor) (limit : Nat) : Cursor := { c with limit }

def reported (c : Cursor) (e : ParseError) : Cursor := { c with log := c.log ++ [.parse e] }

theorem limitedSelf {c : Cursor} {limit : Nat} (same : c.limit = limit) : c.limited limit = c := by
  rw [← same]
  rfl

def Room (c : Cursor) (limit e : Nat) : Prop := e = 0 ∨ c.errors + e < limit

def Blocked (c : Cursor) : Prop :=
  ∃ t ts, c.At (t :: ts) ∧ ts ≠ [] ∧ t.kind.blocks = true

structure Spent (c : Cursor) (k e : Nat) (c' : Cursor) : Prop where
  onward : c.Onward k c'
  errors : c'.errors = c.errors + e

theorem Spent.stay (c : Cursor) : c.Spent 0 0 c := ⟨.stay c, rfl⟩

theorem Spent.trans {c c₁ c₂ : Cursor} {j k d e : Nat} (first : c.Spent j d c₁)
    (next : c₁.Spent k e c₂) : c.Spent (j + k) (d + e) c₂ := by
  refine ⟨first.onward.trans next.onward, ?_⟩
  rw [next.errors, first.errors, Nat.add_assoc]

theorem Spent.limit {c c' : Cursor} {k e : Nat} (h : c.Spent k e c') : c'.limit = c.limit := by
  rw [h.onward.rest]

theorem Spent.reported (c : Cursor) (e : ParseError) : c.Spent 0 1 (c.reported e) := by
  refine ⟨⟨by simp [Cursor.reported], ⟨[e], rfl⟩, id⟩, ?_⟩
  simp [Cursor.errors, Cursor.reported, Log.parse]

theorem Room.first {c c₁ : Cursor} {limit k d e : Nat} (h : c.Room limit (d + e))
    (_ : c.Spent k d c₁) : c.Room limit d := by
  unfold Room at h ⊢
  omega

theorem Room.next {c c₁ : Cursor} {limit k d e : Nat} (h : c.Room limit (d + e))
    (first : c.Spent k d c₁) : c₁.Room limit e := by
  unfold Room at h ⊢
  rw [first.errors]
  omega

theorem Room.both {c c₁ : Cursor} {limit k d e : Nat} (h : c.Room limit d)
    (first : c.Spent k d c₁) (next : c₁.Room limit e) : c.Room limit (d + e) := by
  unfold Room at h next ⊢
  rw [first.errors] at next
  omega

end Cursor

namespace Parse

variable {α β : Type}

/- How a run over the tokens `todo` and the end may end: with a result, or with the report that
fills the limit. `C` and `D` relate the number of tokens read to that of the reports made; `q` is
the same parser, with as many steps or more. -/
def Paid (C D : Nat → Nat → Prop) (q : Parse α) (c : Cursor) (todo : List Token) :
    EStateM.Result Stop Cursor α → Prop
  | .ok a c' => ∃ read left e, todo = read ++ left ∧ c.Spent read.length e c' ∧
      c.Room c.limit e ∧ C read.length e ∧
      ∀ limit, c.Room limit e → q (c.limited limit) = .ok a (c'.limited limit)
  | .error s c' => ∃ read left e, todo = read ++ left ∧ c.Spent read.length e c' ∧ 0 < e ∧
      (D read.length e ∨ c'.Blocked) ∧ s = .errorLimit ∧ c.limit ≤ c'.errors ∧ q c = .error s c'

def Pays (w : Nat) (C D : Nat → Nat → Prop) (p q : Parse α) : Prop :=
  ∀ c todo last, c.At (todo ++ [last]) → last.kind = .eof →
    todo.length + (c.limit - c.errors) ≤ w → Paid C D q c todo (p c)

variable {w : Nat} {C C₁ C₂ D D₁ D₂ : Nat → Nat → Prop} {p q : Parse α} {f g : α → Parse β}
  {c : Cursor} {t last : Token} {todo : List Token}

theorem Paid.mono {result : EStateM.Result Stop Cursor α} (h : Paid C₁ D₁ q c todo result)
    (done : ∀ k e, C₁ k e → C k e) (stopped : ∀ k e, D₁ k e → D k e) :
    Paid C D q c todo result := by
  cases result with
  | ok a c₁ =>
    obtain ⟨read, left, e, split, spent, room, cost, same⟩ := h
    exact ⟨read, left, e, split, spent, room, done _ _ cost, same⟩
  | error s c₁ =>
    obtain ⟨read, left, e, split, spent, some, cost, rest⟩ := h
    exact ⟨read, left, e, split, spent, some, cost.imp_left (stopped _ _), rest⟩

theorem Pays.mono (h : Pays w C₁ D₁ p q) (done : ∀ k e, C₁ k e → C k e)
    (stopped : ∀ k e, D₁ k e → D k e) : Pays w C D p q :=
  fun c todo last at' eof enough => (h c todo last at' eof enough).mono done stopped

theorem Pays.less {v : Nat} (h : Pays w C D p q) (le : v ≤ w) : Pays v C D p q :=
  fun c todo last at' eof enough => h c todo last at' eof (Nat.le_trans enough le)

theorem paidStay {a : α} (cost : C 0 0)
    (same : ∀ limit, q (c.limited limit) = .ok a (c.limited limit)) :
    Paid C D q c todo (.ok a c) :=
  ⟨[], todo, 0, rfl, .stay c, .inl rfl, cost, fun limit _ => same limit⟩

theorem paysPure {a : α} (cost : C 0 0) : Pays w C D (pure a) (pure a) :=
  fun _ _ _ _ _ _ => paidStay cost fun _ => rfl

theorem Paid.bind (first : Paid C₁ D₁ q c todo (p c))
    (next : ∀ a c₁ read left e, p c = .ok a c₁ → todo = read ++ left → c.Spent read.length e c₁ →
      c.Room c.limit e → C₁ read.length e →
      Paid (fun k d => C (read.length + k) (e + d)) (fun k d => D (read.length + k) (e + d))
        (g a) c₁ left (f a c₁))
    (early : ∀ k e, D₁ k e → D k e) : Paid C D (q >>= g) c todo ((p >>= f) c) := by
  rw [bindRun]
  cases run : p c with
  | error s c₁ =>
    rw [run] at first
    obtain ⟨read, left, e, split, spent, some, cost, rfl, full, same⟩ := first
    refine ⟨read, left, e, split, spent, some, cost.imp_left (early _ _), rfl, full, ?_⟩
    rw [bindRun, same]
  | ok a c₁ =>
    rw [run] at first
    obtain ⟨read₁, left₁, e₁, rfl, spent₁, room₁, cost₁, same₁⟩ := first
    have second := next a c₁ read₁ left₁ e₁ run rfl spent₁ room₁ cost₁
    dsimp only
    cases run₂ : f a c₁ with
    | error s c₂ =>
      rw [run₂] at second
      obtain ⟨read₂, left₂, e₂, rfl, spent₂, some, cost₂, rfl, full, same₂⟩ := second
      refine ⟨read₁ ++ read₂, left₂, e₁ + e₂, (List.append_assoc ..).symm, ?_, by omega, ?_, rfl,
        spent₁.limit ▸ full, ?_⟩
      · rw [List.length_append]
        exact spent₁.trans spent₂
      · rw [List.length_append]
        exact cost₂
      · have whole : q c = .ok a c₁ := by
          have whole := same₁ c.limit room₁
          rwa [Cursor.limitedSelf rfl, Cursor.limitedSelf spent₁.limit] at whole
        rw [bindRun, whole]
        exact same₂
    | ok b c₂ =>
      rw [run₂] at second
      obtain ⟨read₂, left₂, e₂, rfl, spent₂, room₂, cost₂, same₂⟩ := second
      rw [spent₁.limit] at room₂
      refine ⟨read₁ ++ read₂, left₂, e₁ + e₂, (List.append_assoc ..).symm, ?_,
        room₁.both spent₁ room₂, ?_, fun limit room => ?_⟩
      · rw [List.length_append]
        exact spent₁.trans spent₂
      · rw [List.length_append]
        exact cost₂
      · rw [bindRun, same₁ limit (room.first spent₁)]
        exact same₂ limit (room.next spent₁)

theorem Paid.then (first : Paid C₁ D₁ q c todo (p c)) (at' : c.At (todo ++ [last]))
    (eof : last.kind = .eof) (enough : todo.length + (c.limit - c.errors) ≤ w)
    (next : ∀ a, Pays w C₂ D₂ (f a) (g a)) (early : ∀ k e, D₁ k e → D k e)
    (total : ∀ {k d j e}, C₁ k d → C₂ j e → C (k + j) (d + e))
    (late : ∀ {k d j e}, C₁ k d → D₂ j e → D (k + j) (d + e)) :
    Paid C D (q >>= g) c todo ((p >>= f) c) := by
  refine first.bind ?_ early
  rintro a c₁ read left e - rfl spent - cost
  rw [List.append_assoc] at at'
  refine (next a c₁ left last (spent.onward.at at') eof ?_).mono (fun _ _ => total cost)
    fun _ _ => late cost
  rw [spent.limit, spent.errors]
  rw [List.length_append] at enough
  omega

theorem Pays.bind (first : Pays w C₁ D₁ p q) (next : ∀ a, Pays w C₂ D₂ (f a) (g a))
    (early : ∀ k e, D₁ k e → D k e) (total : ∀ {k d j e}, C₁ k d → C₂ j e → C (k + j) (d + e))
    (late : ∀ {k d j e}, C₁ k d → D₂ j e → D (k + j) (d + e)) :
    Pays w C D (p >>= f) (q >>= g) :=
  fun c todo last at' eof enough =>
    (first c todo last at' eof enough).then at' eof enough next early total late

def credit (rate g h k e : Nat) : Prop := e + h ≤ rate * k + g

def Spends (w rate g h : Nat) (p q : Parse α) : Prop :=
  Pays w (credit rate g h) (credit rate g 0) p q

variable {rate g₀ g₁ g₂ : Nat}

theorem spendsPure {a : α} (less : g₁ ≤ g₀) : Spends w rate g₀ g₁ (pure a) (pure a) :=
  paysPure (by unfold credit; omega)

theorem Spends.bind (first : Spends w rate g₀ g₁ p q)
    (next : ∀ a, Spends w rate g₁ g₂ (f a) (g a)) : Spends w rate g₀ g₂ (p >>= f) (q >>= g) := by
  refine Pays.bind first next (fun _ _ => id) ?_ ?_ <;>
  · unfold credit
    intro k d j e one two
    rw [Nat.mul_add]
    omega

theorem Spends.lift {rate' h₀ h₁ : Nat} (h : Spends w rate g₀ g₁ p q) (faster : rate ≤ rate')
    (more : g₀ ≤ h₀) (left : g₀ + h₁ ≤ g₁ + h₀) : Spends w rate' h₀ h₁ p q := by
  have grows : ∀ k, rate * k ≤ rate' * k := fun k => Nat.mul_le_mul_right k faster
  refine Pays.mono h ?_ ?_ <;>
  · unfold credit
    intro k e cost
    have := grows k
    omega

theorem reportLimit (e : ParseError) (c : Cursor) :
    report e c = if c.limit ≤ c.errors + 1 then .error .errorLimit (c.reported e)
      else .ok () (c.reported e) := by
  have run : report e c = (if c.limit ≤ (c.reported e).errors then throw Stop.errorLimit
      else pure () : Parse Unit) (c.reported e) := rfl
  rw [run, (Cursor.Spent.reported c e).errors]
  by_cases full : c.limit ≤ c.errors + 1
  · rw [if_pos full, if_pos full]
    rfl
  · rw [if_neg full, if_neg full]
    rfl

theorem paidReport {e : ParseError} {a : α} (done : C 0 1) (stopped : D 0 1)
    (run : ∀ limit, q (c.limited limit) =
      if limit ≤ c.errors + 1 then .error .errorLimit ((c.reported e).limited limit)
      else .ok a ((c.reported e).limited limit)) : Paid C D q c todo (q c) := by
  have spent := Cursor.Spent.reported c e
  have here : q c = if c.limit ≤ c.errors + 1 then .error .errorLimit (c.reported e)
      else .ok a (c.reported e) := run c.limit
  rw [here]
  split
  · next full =>
    refine ⟨[], todo, 1, rfl, spent, Nat.one_pos, .inl stopped, rfl, ?_, ?_⟩
    · rw [spent.errors]
      exact full
    · rw [here, if_pos full]
  · next free =>
    refine ⟨[], todo, 1, rfl, spent, .inr (by omega), done, fun limit room => ?_⟩
    rw [run limit, if_neg]
    unfold Cursor.Room at room
    omega

theorem expectReports {k : Kind} (message : String) {u : Token} {us : List Token}
    (at' : c.At (u :: us)) (other : u.kind ≠ k) (limit : Nat) :
    expect k message (c.limited limit) =
      if limit ≤ c.errors + 1 then
        .error .errorLimit ((c.reported ⟨u, message⟩).limited limit)
      else .ok none ((c.reported ⟨u, message⟩).limited limit) := by
  have here : (c.limited limit).here = some (some u) := at'.here
  rw [expectRun, Cursor.look, here]
  dsimp only
  rw [if_neg other, reportLimit]
  by_cases full : limit ≤ c.errors + 1
  · rw [if_pos (show (c.limited limit).limit ≤ (c.limited limit).errors + 1 from full), if_pos full]
    rfl
  · rw [if_neg (show ¬(c.limited limit).limit ≤ (c.limited limit).errors + 1 from full),
      if_neg full]
    rfl

theorem paidNext {a : α} (cost : C 1 0)
    (same : ∀ limit, q (c.limited limit) = .ok a ((c.moved 1).limited limit)) :
    Paid C D q c (t :: todo) (.ok a (c.moved 1)) :=
  ⟨[t], todo, 0, rfl, ⟨.moved c 1, rfl⟩, .inl rfl, cost, fun limit _ => same limit⟩

theorem paysExpect {k : Kind} (other : k ≠ .eof) (message : String) :
    Pays w (fun k e => k + e = 1) (fun k e => k = 0 ∧ e = 1) (expect k message)
      (expect k message) := by
  intro c todo last at' eof enough
  have reported : ∀ u us, c.At (u :: us) → u.kind ≠ k →
      Paid (fun k e => k + e = 1) (fun k e => k = 0 ∧ e = 1) (expect k message) c todo
        (expect k message c) :=
    fun u us here apart => paidReport rfl ⟨rfl, rfl⟩ (expectReports message here apart)
  cases todo with
  | nil => exact reported last [] at' (by rw [eof]; exact other.symm)
  | cons t todo =>
    by_cases same : t.kind = k
    · have reads : Reads (expect k message) [t] (pure (some t)) (todo ++ [last]) :=
        readsExpect same (by simp) message
      have read : ∀ limit, expect k message (c.limited limit) =
          .ok (some t) ((c.moved 1).limited limit) := fun limit => reads (c.limited limit) at'
      have here : expect k message c = .ok (some t) (c.moved 1) := read c.limit
      rw [here]
      exact paidNext rfl read
    · exact reported t _ at' same

theorem spendsExpect {k : Kind} (other : k ≠ .eof) (message : String) :
    Spends w rate (g₀ + 1) g₀ (expect k message) (expect k message) := by
  refine (paysExpect other message).mono ?_ ?_ <;>
  · unfold credit
    intro k e cost
    omega

theorem Spends.expect {f g : Option Token → Parse β} {k : Kind} {message : String}
    (other : k ≠ .eof) (next : ∀ a, Spends w rate g₀ g₁ (f a) (g a)) :
    Spends w rate (g₀ + 1) g₁ (Parse.expect k message >>= f) (Parse.expect k message >>= g) :=
  (spendsExpect other message).bind next

theorem Pays.behind {q' : Parse α} (at' : c.At (t :: todo ++ [last])) (eof : last.kind = .eof)
    (enough : (t :: todo).length + (c.limit - c.errors) ≤ w)
    (h : 1 ≤ w → Pays (w - 1) (fun k e => C (k + 1) e) (fun k e => D (k + 1) e) p q)
    (same : ∀ limit, q' (c.limited limit) = q (c.next.limited limit)) :
    Paid C D q' c (t :: todo) (p c.next) := by
  rw [List.length_cons] at enough
  have passed : c.Spent 1 0 c.next := by
    rw [Cursor.At.next at' (by simp)]
    exact ⟨.moved c 1, rfl⟩
  have rest := h (by omega) c.next todo last (Cursor.At.behind at' (by simp)) eof (by
    rw [passed.limit, passed.errors]
    omega)
  cases run : p c.next with
  | ok a c₁ =>
    rw [run] at rest
    obtain ⟨read, left, e, rfl, spent, room, cost, ready⟩ := rest
    have whole := passed.trans spent
    rw [passed.limit] at room
    rw [Nat.zero_add, Nat.add_comm] at whole
    refine ⟨t :: read, left, e, rfl, whole, ?_, cost, fun limit free => ?_⟩
    · exact Nat.zero_add e ▸ Cursor.Room.both (.inl rfl) passed room
    · rw [same limit]
      exact ready limit (Cursor.Room.next ((Nat.zero_add e).symm ▸ free) passed)
  | error s c₁ =>
    rw [run] at rest
    obtain ⟨read, left, e, rfl, spent, some, cost, stop, full, ready⟩ := rest
    have whole := passed.trans spent
    rw [Nat.zero_add, Nat.add_comm] at whole
    refine ⟨t :: read, left, e, rfl, whole, some, cost, stop, passed.limit ▸ full, ?_⟩
    rw [← ready]
    have here := same c.limit
    rwa [Cursor.limitedSelf passed.limit] at here

theorem Spends.behind {q' : Parse α} (at' : c.At (t :: todo ++ [last])) (eof : last.kind = .eof)
    (enough : (t :: todo).length + (c.limit - c.errors) ≤ w)
    (h : 1 ≤ w → Spends (w - 1) rate (g₀ + rate) g₁ p q)
    (same : ∀ limit, q' (c.limited limit) = q (c.next.limited limit)) :
    Paid (credit rate g₀ g₁) (credit rate g₀ 0) q' c (t :: todo) (p c.next) := by
  refine Pays.behind at' eof enough (fun some => Pays.mono (h some) ?_ ?_) same <;>
  · unfold credit
    intro k e cost
    rw [Nat.mul_add]
    omega

theorem nextLimited (c : Cursor) (limit : Nat) : (c.limited limit).next = c.next.limited limit := by
  show (if c.index + 1 == (c.tokens.size : Int) then _ else _) = _
  unfold Cursor.next
  cases c.index + 1 == (c.tokens.size : Int) <;> rfl

theorem Paid.same {q' : Parse α} {result : EStateM.Result Stop Cursor α}
    (h : Paid C D q' c todo result)
    (same : ∀ limit, q (c.limited limit) = q' (c.limited limit)) : Paid C D q c todo result := by
  cases result with
  | ok a c₁ =>
    obtain ⟨read, left, e, split, spent, room, cost, ready⟩ := h
    exact ⟨read, left, e, split, spent, room, cost, fun limit free =>
      (same limit).trans (ready limit free)⟩
  | error s c₁ =>
    obtain ⟨read, left, e, split, spent, some, cost, stop, full, ready⟩ := h
    exact ⟨read, left, e, split, spent, some, cost, stop, full, (same c.limit).trans ready⟩

def Branches (test : Kind → Bool) (yes : Token → Parse α) (no p : Parse α) : Prop :=
  ∀ c t ts, c.At (t :: ts) → p c = if test t.kind then yes t c.next else no c

theorem Pays.branch {test : Kind → Bool} {yes yes' : Token → Parse α} {no no' : Parse α}
    (left : Branches test yes no p) (right : Branches test yes' no' q) (other : test .eof = false)
    (taken : ∀ t, 1 ≤ w →
      Pays (w - 1) (fun k e => C (k + 1) e) (fun k e => D (k + 1) e) (yes t) (yes' t))
    (stays : Pays w C D no no') : Pays w C D p q := by
  intro c todo last at' eof enough
  cases todo with
  | nil =>
    have apart : test last.kind = false := eof ▸ other
    rw [left c last [] at', apart]
    refine (stays c [] last at' eof enough).same fun limit => ?_
    rw [right (c.limited limit) last [] at', apart]
    rfl
  | cons t todo =>
    have run : ∀ limit, q (c.limited limit) =
        if test t.kind then yes' t (c.next.limited limit) else no' (c.limited limit) := by
      intro limit
      rw [right (c.limited limit) t _ at', nextLimited]
    rw [left c t _ at']
    cases inside : test t.kind with
    | true => exact Pays.behind at' eof enough (taken t) fun limit => by rw [run, inside]; rfl
    | false =>
      exact (stays c (t :: todo) last at' eof enough).same fun limit => by rw [run, inside]; rfl

theorem branchesSkip (k : Kind) (f : Bool → Parse β) :
    Branches (fun k' => k' == k) (fun _ => f true) (f false) (skip k >>= f) := by
  intro c t ts at'
  rw [bindRun, skipRun, Cursor.look, at'.here]
  by_cases same : t.kind = k <;> simp [same]

theorem branchesOperator (ops : List Kind) (f : Option Token → Parse β) (no : Parse β) :
    Branches ops.contains (fun t => f (some t)) no
      (do if ← checkAny ops then (do let t ← take; f t) else no) := by
  intro c t ts at'
  rw [bindRun, checkAnyRun, Cursor.look, at'.here]
  dsimp only
  cases ops.contains t.kind with
  | false => rfl
  | true =>
    rw [if_pos rfl, if_pos rfl, bindRun, takeRun, at'.here]

theorem Pays.skip {f g : Bool → Parse β} {k : Kind} (other : k ≠ .eof)
    (yes : 1 ≤ w →
      Pays (w - 1) (fun k e => C (k + 1) e) (fun k e => D (k + 1) e) (f true) (g true))
    (no : Pays w C D (f false) (g false)) : Pays w C D (Parse.skip k >>= f) (Parse.skip k >>= g) :=
  Pays.branch (branchesSkip k f) (branchesSkip k g) (beq_eq_false_iff_ne.mpr other.symm)
    (fun _ => yes) no

theorem Spends.branch {test : Kind → Bool} {yes yes' : Token → Parse α} {no no' : Parse α}
    (left : Branches test yes no p) (right : Branches test yes' no' q) (other : test .eof = false)
    (taken : ∀ t, 1 ≤ w → Spends (w - 1) rate (g₀ + rate) g₁ (yes t) (yes' t))
    (stays : Spends w rate g₀ g₁ no no') : Spends w rate g₀ g₁ p q := by
  refine Pays.branch left right other (fun t some => Pays.mono (taken t some) ?_ ?_) stays <;>
  · unfold credit
    intro k e cost
    rw [Nat.mul_add]
    omega

theorem Spends.skip {f g : Bool → Parse β} {k : Kind} (other : k ≠ .eof)
    (yes : 1 ≤ w → Spends (w - 1) rate (g₀ + rate) g₁ (f true) (g true))
    (no : Spends w rate g₀ g₁ (f false) (g false)) :
    Spends w rate g₀ g₁ (Parse.skip k >>= f) (Parse.skip k >>= g) :=
  Spends.branch (branchesSkip k f) (branchesSkip k g) (beq_eq_false_iff_ne.mpr other.symm)
    (fun _ => yes) no

def Looks (p : Parse α) (see : Token → List Token → α) : Prop :=
  ∀ c t ts, c.At (t :: ts) → p c = .ok (see t ts) c

theorem Pays.idle {see : Token → List Token → α} (looks : Looks p see)
    (next : ∀ a, Pays w C D (f a) (g a)) : Pays w C D (p >>= f) (p >>= g) := by
  intro c todo last at' eof enough
  obtain ⟨t, ts, same⟩ := List.exists_cons_of_ne_nil (l := todo ++ [last]) (by simp)
  rw [bindRun, looks c t ts (same ▸ at')]
  refine (next _ c todo last at' eof enough).same fun limit => ?_
  rw [bindRun, looks (c.limited limit) t ts (same ▸ at')]

theorem looksCheck (k : Kind) : Looks (check k) fun t _ => t.kind == k := by
  intro c t ts at'
  rw [checkRun, Cursor.look, at'.here]

theorem looksCheckAny (ks : List Kind) : Looks (checkAny ks) fun t _ => ks.contains t.kind := by
  intro c t ts at'
  rw [checkAnyRun, Cursor.look, at'.here]

theorem looksCurrent : Looks current fun t _ => some t := by
  intro c t ts at'
  rw [currentRun, at'.here]

/- Every rule is entered with sixteen steps for each token and each report to come, and some more,
by its place among the rules that do not read a token in between. -/
structure ExprsSpend (n m : Nat) : Prop where
  rule : ∀ {w} r, 1 ≤ r → r ≤ 10 → 16 * w + (11 - r) ≤ n → Spends w 2 0 0 (rule r n) (rule r m)
  callTail : ∀ {w} callee, 16 * w + 1 ≤ n → Spends w 2 0 0 (callTail n callee) (callTail m callee)
  arguments : ∀ {w}, 16 * w + 11 ≤ n → Spends w 2 0 0 (arguments n) (arguments m)

theorem Spends.whole (h : Spends w 2 0 0 p q) (faster : 2 ≤ rate) : Spends w rate g₀ g₀ p q :=
  h.lift faster (Nat.zero_le _) (Nat.le_refl _)

theorem spendsMore (one : Spends w rate (g₀ + rate) g₀ p q) {n m : Nat} (le : n ≤ m)
    (fuel : w + 1 ≤ n) :
    Spends w rate g₀ g₀ (whileM n (Parse.skip .comma) p) (whileM m (Parse.skip .comma) q) := by
  induction n generalizing m w with
  | zero => omega
  | succ n ih =>
    obtain ⟨m, rfl⟩ : ∃ j, m = j + 1 := ⟨m - 1, by omega⟩
    refine Spends.skip (by decide) (fun some => ?_) (spendsPure (Nat.le_refl _))
    have shorter := Pays.less one (Nat.sub_le w 1)
    refine Spends.bind shorter fun x => ?_
    exact (ih shorter (by omega) (by omega)).bind fun xs => spendsPure (Nat.le_refl _)

theorem spendsChain {ops : List Kind} {operand operand' : Parse Expr}
    {build : Expr → Option Token → Expr → Expr} (other : ops.contains .eof = false)
    (one : 1 ≤ w → Spends (w - 1) 2 0 0 operand operand') {n m : Nat} (le : n ≤ m)
    (fuel : w + 1 ≤ n) (left : Expr) :
    Spends w 2 0 0 (chain ops operand build n left) (chain ops operand' build m left) := by
  induction n generalizing m w left with
  | zero => omega
  | succ n ih =>
    obtain ⟨m, rfl⟩ : ∃ j, m = j + 1 := ⟨m - 1, by omega⟩
    refine Spends.branch (branchesOperator ops _ _) (branchesOperator ops _ _) other
      (fun t some => ?_) (spendsPure (Nat.le_refl _))
    have right := one some
    refine (right.whole (Nat.le_refl 2)).bind fun e => ?_
    have rest := ih (fun _ => Pays.less right (Nat.sub_le ..)) (m := m) (by omega) (by omega)
      (build left (.some t) e)
    exact rest.lift (Nat.le_refl 2) (by decide) (by decide)

section

variable {n m : Nat} (ih : ExprsSpend n m)

include ih

theorem ExprsSpend.whole (enough : 16 * w + 10 ≤ n) (faster : 2 ≤ rate) :
    Spends w rate g₀ g₀ (assignment n) (assignment m) :=
  (ih.rule 1 (Nat.le_refl 1) (by decide) enough).whole faster

theorem spendsAssignment (enough : 16 * w + 10 ≤ n + 1) :
    Spends w 2 0 0 (assignment (n + 1)) (assignment (m + 1)) := by
  refine (ih.rule 2 (by decide) (by decide) (by omega)).bind fun target => ?_
  refine Spends.skip (by decide) (fun some => ?_) (spendsPure (Nat.le_refl _))
  refine (ih.whole (by omega) (Nat.le_refl 2)).bind fun value => ?_
  cases target with
  | _ => exact spendsPure (Nat.zero_le _)

theorem spendsUnary (enough : 16 * w + 3 ≤ n + 1) :
    Spends w 2 0 0 (unary (n + 1)) (unary (m + 1)) := by
  refine Spends.branch (branchesOperator _ _ _) (branchesOperator _ _ _) (by decide)
    (fun op some => ?_) (ih.rule 9 (by decide) (by decide) (by omega))
  have right := ih.rule (w := w - 1) 8 (by decide) (by decide) (by omega)
  exact (right.whole (Nat.le_refl 2)).bind fun e => spendsPure (Nat.zero_le _)

theorem spendsCallTail (callee : Expr) (enough : 16 * w + 1 ≤ n + 1) :
    Spends w 2 0 0 (callTail (n + 1) callee) (callTail (m + 1) callee) := by
  refine Spends.skip (by decide) (fun some => ?_) (Spends.skip (by decide) (fun some => ?_)
    (spendsPure (Nat.le_refl _)))
  · refine ((ih.arguments (by omega)).whole (Nat.le_refl 2)).bind fun args => ?_
    refine Spends.expect (by decide) fun paren => ?_
    exact (ih.callTail (w := w - 1) _ (by omega)).lift (Nat.le_refl 2) (by decide) (by decide)
  · refine Spends.expect (by decide) fun name => ?_
    exact (ih.callTail (w := w - 1) _ (by omega)).lift (Nat.le_refl 2) (by decide) (by decide)

theorem spendsArguments (le : n ≤ m) (enough : 16 * w + 11 ≤ n + 1) :
    Spends w 2 0 0 (arguments (n + 1)) (arguments (m + 1)) := by
  refine Pays.idle (looksCheck _) fun none => ?_
  cases none with
  | true => exact spendsPure (Nat.le_refl _)
  | false =>
    refine (ih.whole (by omega) (Nat.le_refl 2)).bind fun e => ?_
    have one : Spends w 2 2 0 (assignment n) (assignment m) :=
      (ih.rule 1 (by decide) (by decide) (by omega)).lift (Nat.le_refl 2) (by decide)
        (by decide)
    exact (spendsMore one le (by omega)).bind fun es => spendsPure (Nat.le_refl _)

end

def SpendsFrom (t : Token) (w rate g h : Nat) (p q : Parse α) : Prop :=
  ∀ c todo last, c.At (t :: todo ++ [last]) → last.kind = .eof →
    (t :: todo).length + (c.limit - c.errors) ≤ w →
    Paid (credit rate g h) (credit rate g 0) q c (t :: todo) (p c)

theorem Spends.from (h : Spends w rate g₀ g₁ p q) (t : Token) : SpendsFrom t w rate g₀ g₁ p q :=
  fun c todo last at' eof enough => h c (t :: todo) last at' eof enough

theorem Spends.taken {f g : Option Token → Parse β}
    (h : 1 ≤ w → Spends (w - 1) rate (g₀ + rate) g₁ (f (some t)) (g (some t))) :
    SpendsFrom t w rate g₀ g₁ (take >>= f) (take >>= g) := by
  intro c todo last at' eof enough
  rw [bindRun, takeRun, at'.here]
  refine Spends.behind at' eof enough h fun limit => ?_
  rw [bindRun, takeRun, show (c.limited limit).here = _ from at'.here, nextLimited]

theorem Spends.advanced {f g : Unit → Parse β}
    (h : 1 ≤ w → Spends (w - 1) rate (g₀ + rate) g₁ (f ()) (g ())) :
    SpendsFrom t w rate g₀ g₁ (advance >>= f) (advance >>= g) := by
  intro c todo last at' eof enough
  rw [bindRun, advanceRun]
  refine Spends.behind at' eof enough h fun limit => ?_
  rw [bindRun, advanceRun, nextLimited]

theorem Spends.kind {f g : Kind → Parse β}
    (some : ∀ t, SpendsFrom t w rate g₀ g₁ (f t.kind) (g t.kind))
    (none : Spends w rate g₀ g₁ (f .eof) (g .eof)) :
    Spends w rate g₀ g₁ (Parse.kind >>= f) (Parse.kind >>= g) := by
  intro c todo last at' eof enough
  have look : ∀ {t ts}, c.At (t :: ts) → ∀ limit,
      Parse.kind (c.limited limit) = .ok t.kind (c.limited limit) := by
    intro t ts at' limit
    rw [kindRun, Cursor.look, show (c.limited limit).here = _ from at'.here]
  cases todo with
  | nil =>
    have here : Parse.kind c = .ok last.kind c := look at' c.limit
    rw [bindRun, here]
    dsimp only
    rw [eof]
    refine (none c [] last at' eof enough).same fun limit => ?_
    rw [bindRun, look at' limit, eof]
  | cons t todo =>
    have here : Parse.kind c = .ok t.kind c := look at' c.limit
    rw [bindRun, here]
    refine (some t c todo last at' eof enough).same fun limit => ?_
    rw [bindRun, look at' limit]

theorem spendsPrimary {n m : Nat} (ih : ExprsSpend n m) (enough : 16 * w + 1 ≤ n + 1) :
    Spends w 2 0 0 (primary (n + 1)) (primary (m + 1)) := by
  unfold primary
  refine Spends.kind (fun t => ?_) (spendsPure (Nat.le_refl _))
  split
  · exact Spends.taken fun _ => spendsPure (Nat.zero_le _)
  · exact Spends.taken fun _ => spendsPure (Nat.zero_le _)
  · exact Spends.advanced fun _ => spendsPure (Nat.zero_le _)
  · exact Spends.advanced fun _ => spendsPure (Nat.zero_le _)
  · exact Spends.advanced fun _ => spendsPure (Nat.zero_le _)
  · exact Spends.taken fun _ => spendsPure (Nat.zero_le _)
  · exact Spends.taken fun _ => spendsPure (Nat.zero_le _)
  · refine Spends.advanced fun some => (ih.whole (by omega) (Nat.le_refl 2)).bind fun inner => ?_
    exact Spends.expect (by decide) fun _ => spendsPure (Nat.zero_le _)
  · refine Spends.taken fun _ => Spends.expect (by decide) fun _ => ?_
    exact Spends.expect (by decide) fun _ => spendsPure (Nat.le_refl _)
  · exact (spendsPure (Nat.le_refl _)).from t

theorem exprsSpend {n m : Nat} (le : n ≤ m) : ExprsSpend n m := by
  induction n generalizing m with
  | zero => exact ⟨fun r _ _ enough => by omega, fun _ enough => by omega, fun enough => by omega⟩
  | succ n ih =>
    obtain ⟨m, rfl⟩ : ∃ j, m = j + 1 := ⟨m - 1, by omega⟩
    have ih := ih (Nat.le_of_succ_le_succ le)
    refine ⟨fun {w} r lo hi enough => ?_, spendsCallTail ih,
      spendsArguments ih (Nat.le_of_succ_le_succ le)⟩
    by_cases chained : 2 ≤ r ∧ r ≤ 7
    · rw [ruleChain chained.1 chained.2, ruleChain chained.1 chained.2]
      have right : r ≤ rightRank r ∧ rightRank r ≤ 10 := by
        unfold rightRank
        split <;> omega
      have ends : (operators r).contains .eof = false := by
        rw [containsOperators chained.1 chained.2]
        exact beq_eq_false_iff_ne.mpr (show 0 ≠ r by omega)
      refine (ih.rule (r + 1) (by omega) (by omega) (by omega)).bind fun left => ?_
      refine spendsChain ends (fun some => ?_) (Nat.le_of_succ_le_succ le) (by omega) left
      exact ih.rule (rightRank r) (by omega) right.2 (by omega)
    · match r with
      | 1 => exact spendsAssignment ih enough
      | 8 => exact spendsUnary ih enough
      | 9 =>
        refine (ih.rule 10 (by decide) (by decide) (by omega)).bind fun callee => ?_
        exact ih.callTail callee (by omega)
      | 10 => exact spendsPrimary ih enough

def Stuck : EStateM.Result Stop Cursor α → Prop
  | .ok _ _ => False
  | .error _ c => c.Blocked

theorem Paid.stuck {result : EStateM.Result Stop Cursor α} (h : Paid C₁ D₁ q c todo result)
    (stuck : Stuck result) : Paid C D q c todo result := by
  cases result with
  | ok a c₁ => exact stuck.elim
  | error s c₁ =>
    obtain ⟨read, left, e, split, spent, some, -, rest⟩ := h
    exact ⟨read, left, e, split, spent, some, .inr stuck, rest⟩

def moving (spare k e : Nat) : Prop := 1 ≤ k ∧ e + spare ≤ 16 * k

structure Repeats (w spare owed : Nat) (test : Parse Bool) (see : Token → List Token → Bool)
    (p q : Parse α) : Prop where
  looks : Looks test see
  ends : ∀ t, see t [] = false
  one : ∀ c t todo last, c.At (t :: todo ++ [last]) → last.kind = .eof →
    (t :: todo).length + (c.limit - c.errors) ≤ w → see t (todo ++ [last]) = true →
    Paid (fun k e => k = 0 ∧ e = 1 ∨ moving spare k e) (credit 16 owed 0) q c (t :: todo) (p c)
  idle : ∀ c t todo last a c₁ j, c.At (t :: todo ++ [last]) → last.kind = .eof →
    (t :: todo).length + (c.limit - c.errors) ≤ w → see t (todo ++ [last]) = true →
    p c = .ok a c₁ → c₁.index = c.index → Stuck (whileM j test p c₁)

theorem Looks.loop {test : Parse Bool} {see : Token → List Token → Bool} (looks : Looks test see)
    {ts : List Token} (at' : c.At (t :: ts)) (p : Parse α) (n : Nat) : whileM (n + 1) test p c =
      (if see t ts then (do let x ← p; return x :: (← whileM n test p)) else pure [] :
        Parse (List α)) c := by
  rw [whileM, bindRun, looks c t ts at']

theorem Repeats.loop {test : Parse Bool} {see : Token → List Token → Bool} {spare owed n m : Nat}
    (h : Repeats w spare owed test see p q) (le : n ≤ m) {c : Cursor} {t last : Token}
    {ts todo : List Token} (list : todo ++ [last] = t :: ts) (at' : c.At (t :: ts))
    (eof : last.kind = .eof) (enough : todo.length + (c.limit - c.errors) ≤ w)
    (fuel : todo.length + (c.limit - c.errors) < n) :
    Paid (fun k e => if see t ts then moving spare k e else k = 0 ∧ e = 0) (credit 16 owed 0)
      (whileM m test q) c todo (whileM n test p c) := by
  induction n generalizing m c t ts todo with
  | zero => omega
  | succ n ih =>
    obtain ⟨m, rfl⟩ : ∃ j, m = j + 1 := ⟨m - 1, by omega⟩
    have same : ∀ limit, whileM (m + 1) test q (c.limited limit) = _ := fun limit =>
      h.looks.loop (c := c.limited limit) at' q m
    rw [h.looks.loop at' p n]
    cases go : see t ts with
    | false =>
      refine paidStay ⟨rfl, rfl⟩ fun limit => ?_
      rw [same limit, go]
      rfl
    | true =>
      rw [go, if_pos rfl] at same
      refine Paid.same ?_ same
      rw [if_pos rfl]
      obtain ⟨u, todo, rfl⟩ : ∃ u us, todo = u :: us := by
        cases todo with
        | nil =>
          cases list
          rw [h.ends] at go
          cases go
        | cons u us => exact ⟨u, us, rfl⟩
      cases list
      refine (h.one c t todo last at' eof enough go).bind ?_ fun _ _ cost => cost
      intro x c₁ read left e run split spent room cost
      have there : c₁.At (left ++ [last]) := by
        refine spent.onward.at ?_
        rw [← List.append_assoc, ← split]
        exact at'
      obtain ⟨v, vs, next⟩ := List.exists_cons_of_ne_nil (l := left ++ [last]) (by simp)
      have length : (t :: todo).length = read.length + left.length := by
        rw [split, List.length_append]
      have limit := spent.limit
      have errors := spent.errors
      unfold Cursor.Room at room
      have rest := ih (Nat.le_of_succ_le_succ le) next (next ▸ there)
        (by rw [limit, errors]; omega) (by
          rw [limit, errors]
          rcases cost with ⟨none, one⟩ | ⟨some, -⟩ <;> omega)
      have later : Paid (fun k d => moving spare (read.length + k) (e + d))
          (fun k d => credit 16 owed 0 (read.length + k) (e + d)) (whileM m test q) c₁ left
          (whileM n test p c₁) := by
        rcases cost with ⟨none, one⟩ | ⟨some, paid⟩
        · refine rest.stuck (h.idle c t todo last x c₁ n at' eof enough go run ?_)
          rw [spent.onward.rest, none]
          simp
        · refine rest.mono ?_ ?_
          · intro k d cost
            unfold moving at cost ⊢
            split at cost <;> omega
          · intro k d cost
            unfold credit at cost ⊢
            omega
      refine later.bind (C := fun k d => moving spare (read.length + k) (e + d)) ?_ fun _ _ => id
      intro xs c₂ read₂ left₂ e₂ _ _ _ _ cost₂
      exact paidStay cost₂ fun _ => rfl

end Parse
end Lox
