import Lox.Proofs.Lineages

/-!
Objects of a run. A class is put together by class statements, so each of its methods stands under
its own name and is an initializer only by the name `this`; an instance has its own fields in the
store from the moment it is made. Nothing else is ever held, whatever a session is made to do.
-/

namespace Lox

open Eval

def Layer.Declared (l : Layer) : Prop :=
  ∃ env methods, methodTable env methods [] = .ok l.methods

def Class.Declared (c : Class) : Prop := ∀ l ∈ c.layers, l.Declared

structure Routine.Under (r : Routine) (name : String) : Prop where
  named : ∃ t, r.decl.name = some t ∧ t.lexeme = name
  flag : r.isInitializer = (name == "this")

theorem Routine.Under.isNamed {r : Routine} {name : String} (h : r.Under name) :
    r.decl.name.isSome = true := by
  obtain ⟨t, given, -⟩ := h.named
  rw [given]
  rfl

theorem methodsUnder {env : Env} {methods : List FunDecl} {b table : Bindings Routine}
    (run : methodTable env methods b = .ok table)
    (old : ∀ name r, b.get? name = some r → r.Under name) {name : String} {r : Routine}
    (found : table.get? name = some r) : r.Under name := by
  induction methods generalizing b with
  | nil =>
    cases run
    exact old name r found
  | cons f fs ih =>
    have start : (do
        let name ← Lox.lexeme f.name
        methodTable env fs (b.put name ⟨f, env, name == "this"⟩)) = .ok table := run
    cases named : f.name with
    | none =>
      rw [named] at start
      cases start
    | some u =>
      rw [named] at start
      refine ih start fun other r' found' => ?_
      by_cases same : other = u.lexeme
      · subst same
        rw [Bindings.get?_put_self] at found'
        cases found'
        exact ⟨⟨u, named, rfl⟩, rfl⟩
      · rw [Bindings.get?_put_of_ne _ _ same] at found'
        exact old other r' found'

theorem Class.Declared.found {c : Class} (h : c.Declared) {name : String} {r : Routine}
    (found : c.findMethod? name = some r) : r.Under name := by
  obtain ⟨l, mem, get⟩ := List.exists_of_findSome?_eq_some found
  obtain ⟨env, methods, run⟩ := h l mem
  exact methodsUnder run (by simp) get

def objectPermit (n : Nat) : Permit False where
  env _ := True
  klass c := c.Declared
  object id := id < n
  array _ := True

theorem objectPermitLe {n k : Nat} (le : n ≤ k) : (objectPermit n).Le (objectPermit k) where
  env _ _ := trivial
  klass _ h := h
  object _ h := Nat.lt_of_lt_of_le h le
  array _ _ := trivial

structure Store.Objects (n : Nat) (s : Store) : Prop where
  count : s.fields.size = n
  values : s.All (objectPermit n).ValueOk

namespace Store.Objects

variable {n : Nat} {s s' : Store}

theorem same (h : s.Objects n) (fields : s'.fields.size = s.fields.size)
    (values : s'.All (objectPermit n).ValueOk) : ∃ k, n ≤ k ∧ s'.Objects k :=
  ⟨n, Nat.le_refl n, fields.trans h.count, values⟩

theorem newInstance (h : s.Objects n) (c : Class) : (s.newInstance c).2.Objects (n + 1) where
  count := by simp [Store.newInstance, h.count]
  values := (h.values.mono fun _ ok => (objectPermitLe (Nat.le_succ n)).value ok).newInstance c

end Store.Objects

theorem Class.declaredOver {id : Nat} {name : String} {table : Bindings Routine}
    {base : Option Class} (own : ∃ env methods, methodTable env methods [] = .ok table)
    (inherited : ∀ c, base = some c → c.Declared) :
    Class.Declared ⟨⟨id, name, table⟩, (base.map Class.layers).getD []⟩ := by
  intro l mem
  rcases List.mem_cons.mp mem with rfl | above
  · exact own
  · cases base with
    | none => cases above
    | some c => exact inherited c rfl l above

def objectDiscipline : Discipline False where
  World := Nat
  le n k := n ≤ k
  permit := objectPermit
  store := Store.Objects
  frame _ _ _ := True
  refl := Nat.le_refl
  trans := Nat.le_trans
  grows := objectPermitLe
  globals _ := trivial
  frameOk h _ _ := h.values.frames _
  fieldsOk h _ := h.values.fields _
  elementsOk h _ := h.values.arrays _
  define h _ _ _ value := h.same rfl (h.values.define value _ _)
  enter {n s env b} h _ values := by
    have moved : (s.enter env b).2.Objects n := ⟨h.count, h.values.enter values env⟩
    exact ⟨n, Nat.le_refl n, moved, trivial, trivial⟩
  newInstance {n s c} h _ :=
    ⟨n + 1, Nat.le_succ n, h.newInstance c, Nat.lt_succ_of_le (Nat.le_of_eq h.count)⟩
  setField h _ value := h.same (by simp [Store.setField]) (h.values.setField value _ _)
  newArray {n s vs} h values := by
    have moved : (s.newArray vs).2.Objects n := ⟨h.count, h.values.newArray values⟩
    exact ⟨n, Nat.le_refl n, moved, trivial⟩
  setElement h _ value := h.same rfl (h.values.setElement value _ _)
  freshId h := h.same rfl h.values.freshId
  newClass {n s} name table base h own _ inherited := by
    have moved : s.freshId.2.Objects n := ⟨h.count, h.values.freshId⟩
    exact ⟨n, Nat.le_refl n, moved, Class.declaredOver own fun c same => (inherited c same).1⟩

namespace Session

variable {s : Session}

theorem actKept {D : Discipline False} {w : D.World} (kept : D.Kept w s.machine) (a : Act) :
    ∃ w', D.Kept w' (s.act a).machine := by
  by_cases run : a = .interpret
  · subst run
    obtain ⟨-, w', -, kept', -⟩ := treeGoes kept
    exact ⟨w', kept'⟩
  · exact ⟨w, keptStill kept run⟩

theorem actsKept {D : Discipline False} {w : D.World} (kept : D.Kept w s.machine)
    (acts : List Act) : ∃ w', D.Kept w' (s.after acts).machine := by
  induction acts generalizing s w with
  | nil => exact ⟨w, kept⟩
  | cons a acts ih =>
    obtain ⟨w', kept'⟩ := actKept kept a
    exact ih kept'

theorem objectsFresh (setting : Setting) :
    objectDiscipline.Kept (0 : Nat) (fresh setting).machine :=
  ⟨⟨rfl, .initial trivial trivial⟩, trivial⟩

theorem objectsKept (setting : Setting) (acts : List Act) :
    ∃ n, objectDiscipline.Kept n ((fresh setting).after acts).machine :=
  actsKept (objectsFresh setting) acts

end Session
end Lox
