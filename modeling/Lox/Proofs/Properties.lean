import Lox.Proofs.Dispatch
import Lox.Proofs.Runs.Writes

/-!
Properties of instances. Whatever was run before, a property of an instance is the value that was
written to it last, on that instance and under that name; without a write, it is the nearest method
of the instance's class and those above it, bound to the instance; and without either, the lookup
fails. A write to one instance makes no difference to any other lookup.
-/

namespace Lox

open Eval

structure LookedUp (ws : List Write) (id : Nat) (c : Class) (t : Token) (m : Machine)
    (result : EStateM.Result Signal Machine Value) : Prop where
  written : ∀ v, lastWritten ws id t.lexeme = some v → result = .ok v m
  inherited : lastWritten ws id t.lexeme = none → ∀ r, Nearest c.layers t.lexeme r →
    ∃ v m', result = .ok v m' ∧ BoundTo r (.instance_ id c) v m'
  undefined : ∀ e m', result = .error e m' ↔ lastWritten ws id t.lexeme = none ∧
    (∀ l ∈ c.layers, l.methods.get? t.lexeme = none) ∧ e = .fault (.undefinedProperty t) ∧ m' = m
  message : (Fault.undefinedProperty t).message =
    Fault.about t ("Undefined Property '" ++ t.lexeme ++ "'")

theorem getPropertyRun (id : Nat) (c : Class) (t : Token) (m : Machine) :
    getProperty (.instance_ id c) (some t) m =
      ((m.store.fieldsOf id).get? t.lexeme).elim
        ((c.findMethod? t.lexeme).elim (.error (.fault (.undefinedProperty t)) m)
          fun r => Eval.bind r (.instance_ id c) m)
        fun v => .ok v m := by
  show property (.instance_ id c) id c t m = _
  unfold property
  rw [getBind]
  cases (m.store.fieldsOf id).get? t.lexeme with
  | some v => rfl
  | none => cases c.findMethod? t.lexeme <;> rfl

theorem evaluateGet {k : Nat} {object : Expr} {m m₁ : Machine} {o : Value}
    (found : evaluate k object m = .ok o m₁) (t : Option Token) :
    evaluate (k + 1) (.get object t) m = getProperty o t m₁ := by
  rw [evaluate, bindRun, found]

theorem lookedUp {ws : List Write} {id : Nat} {c : Class} {t : Token} {m : Machine}
    (fields : (m.store.fieldsOf id).get? t.lexeme = lastWritten ws id t.lexeme)
    (named : ∀ r, c.findMethod? t.lexeme = some r → r.decl.name.isSome = true) :
    LookedUp ws id c t m (getProperty (.instance_ id c) (some t) m) := by
  have run := getPropertyRun id c t m
  rw [fields] at run
  cases last : lastWritten ws id t.lexeme with
  | some v =>
    rw [last, Option.elim_some] at run
    refine ⟨fun u same => ?_, fun none => ?_, fun e m' => ⟨fun same => ?_, fun same => ?_⟩, rfl⟩
    · cases last.symm.trans same
      exact run
    · cases last.symm.trans none
    · cases run.symm.trans same
    · cases last.symm.trans same.1
  | none =>
    rw [last, Option.elim_none] at run
    obtain ⟨found, missing⟩ := nearestBound named (.undefinedProperty t) (.instance_ id c) m run
    refine ⟨fun v same => ?_, fun _ => found, fun e m' => ?_, rfl⟩
    · cases last.symm.trans same
    · rw [missing e m']
      exact ⟨fun h => ⟨last, h⟩, fun h => h.2⟩

/- What an expression for a property asks for: the instance and the name, whether a field of that
name is set, and whether the class has a method of that name. -/
def asks? (k : Nat) (m : Machine) : Expr → Option (Nat × String × Bool × Bool)
  | .get object (some t) =>
    match evaluate k object m with
    | .ok (.instance_ id c) m₁ =>
      some (id, t.lexeme, ((m₁.store.fieldsOf id).get? t.lexeme).isSome,
        (c.findMethod? t.lexeme).isSome)
    | _ => none
  | _ => none

theorem asksFor {k : Nat} {m : Machine} {e : Expr} {id : Nat} {name : String} {set method : Bool}
    (h : asks? k m e = some (id, name, set, method)) :
    ∃ object t c m₁, e = .get object (some t) ∧ t.lexeme = name ∧
      evaluate k object m = .ok (.instance_ id c) m₁ ∧
      ((m₁.store.fieldsOf id).get? t.lexeme).isSome = set ∧
      (c.findMethod? t.lexeme).isSome = method := by
  unfold asks? at h
  split at h
  · next object t =>
    split at h
    · next id' c m₁ run =>
      cases h
      exact ⟨object, t, c, m₁, rfl, rfl, run, rfl, rfl⟩
    · cases h
  · cases h

def Machine.wrote (w : Write) (m : Machine) : Machine :=
  { m with store := m.store.setField w.id w.name w.value }

theorem setPropertyRun (id : Nat) (c : Class) (t : Token) (v : Value) (m : Machine) :
    setProperty (.instance_ id c) (some t) v m = .ok () (m.wrote ⟨id, t.lexeme, v⟩) := rfl

section

variable (w : Write)

theorem fieldApart (s : Store) {id : Nat} {name : String} (apart : id = w.id → name ≠ w.name) :
    ((s.setField w.id w.name w.value).fieldsOf id).get? name = (s.fieldsOf id).get? name := by
  by_cases same : id = w.id
  · subst same
    by_cases live : w.id < s.fields.size
    · rw [s.fieldsSetSelf live, Bindings.get?_put_of_ne _ _ (apart rfl)]
    · rw [s.fieldsSetNone live]
  · rw [s.fieldsSetOther same]

theorem wroteLift {α : Type} (x : Except Fault α) : Commutes (Machine.wrote w) (lift x) := by
  cases x with
  | ok a => exact commutesPure a
  | error f => exact commutesThrow _

theorem wroteOnStore {α : Type} {x : Stored α}
    (same : Commutes (fun s : Store => s.setField w.id w.name w.value) x) :
    Commutes (Machine.wrote w) (onStore x) := by
  intro m
  have same := same m.store
  unfold onStore Machine.wrote
  dsimp only at same ⊢
  rw [same]
  cases x m.store <;> rfl

theorem wroteReadAt (env : Env) (d : Int) (name : String) :
    Commutes (Machine.wrote w) (ask fun s => s.readAt env d name) :=
  commutesGet (fun _ => rfl) fun _ => wroteLift w _

theorem wroteBind (r : Routine) (this : Value) : Commutes (Machine.wrote w) (Eval.bind r this) := by
  have entered : Commutes (Machine.wrote w) (bindRoutine r this) := fun _ => rfl
  have numbered : Commutes (Machine.wrote w) (change Store.freshId) := fun _ => rfl
  refine entered.bind fun r => ?_
  exact (wroteLift w _).bind fun name => numbered.bind fun _ => commutesPure _

theorem wroteProperty (this : Value) {id : Nat} (c : Class) {t : Token}
    (apart : id = w.id → t.lexeme ≠ w.name) :
    Commutes (Machine.wrote w) (property this id c t) := by
  unfold property
  refine commutesGet (fun m => ?_) fun m => ?_
  · rw [show ((m.wrote w).store.fieldsOf id).get? t.lexeme = (m.store.fieldsOf id).get? t.lexeme from
      fieldApart w m.store apart]
  · split
    · exact commutesPure _
    · split
      · exact wroteBind w _ this
      · exact commutesThrow _

theorem wroteGetProperty (o : Value) (u : Option Token)
    (apart : ∀ c t, o = .instance_ w.id c → u = some t → t.lexeme ≠ w.name) :
    Commutes (Machine.wrote w) (getProperty o u) := by
  cases o with
  | instance_ id c =>
    cases u with
    | none => exact commutesThrow _
    | some t => exact wroteProperty w _ c fun same => apart c t (by rw [same]) rfl
  | array id =>
    refine (wroteLift w _).bind fun t => wroteOnStore w fun s => ?_
    unfold Store.arrayMember
    split <;> rfl
  | _ => exact commutesThrow _

theorem wroteSuperMethod (node : Nat) (u : Option Token) :
    Commutes (Machine.wrote w) (superMethod node u) := by
  refine commutesGet (fun _ => rfl) fun m => commutesGet (fun _ => rfl) fun m' => ?_
  split
  · exact commutesThrow _
  · refine (wroteReadAt w _ _ _).bind fun base => (wroteReadAt w _ _ _).bind fun this => ?_
    split
    · refine (wroteLift w _).bind fun name => ?_
      split
      · exact wroteBind w _ _
      · exact commutesThrow _
    · exact commutesThrow _

end

namespace Session

theorem declaredInstance {s : Session} {w : objectDiscipline.World}
    (kept : objectDiscipline.Kept w s.machine) {k : Nat} {object : Expr} {m : Machine}
    (reach : Reaches fuel s.task s.running k (.expr object) m) {id : Nat} {c : Class} {m₁ : Machine}
    (found : evaluate k object m = .ok (.instance_ id c) m₁) : c.Declared := by
  obtain ⟨v, sits⟩ := taskSits kept reach
  obtain ⟨_, v', -, ends, -⟩ := (Discipline.follows k).expr object v m sits
  rw [found] at ends
  exact ends.2.2.1

theorem lookupsFollowWrites (setting : Setting) (acts : List Act) :
    (∀ k t m, ((fresh setting).after acts).ComesBy k t m ↔
      ∃ ws, ((fresh setting).after acts).ComesAfter .writes ws k t m) ∧
    (∀ ws k object t m id c m₁,
      ((fresh setting).after acts).ComesAfter .writes ws (k + 1) (.expr (.get object (some t))) m →
      evaluate k object m = .ok (.instance_ id c) m₁ →
      LookedUp ((fresh setting).notedAll .writes acts ++ ws ++
          (Task.expr object).noted .writes k m) id c t m₁
        (evaluate (k + 1) (.get object (some t)) m)) ∧
    ∀ id c t v m, setProperty (.instance_ id c) (some t) v m = .ok () (m.wrote ⟨id, t.lexeme, v⟩) ∧
      (∀ o u, (∀ c' t', o = .instance_ id c' → u = some t' → t'.lexeme ≠ t.lexeme) →
        Commutes (Machine.wrote ⟨id, t.lexeme, v⟩) (getProperty o u)) ∧
      ∀ node u, Commutes (Machine.wrote ⟨id, t.lexeme, v⟩) (superMethod node u) := by
  obtain ⟨w, kept⟩ := objectsKept setting acts
  refine ⟨fun k t m => comesAfter _, fun ws k object t m id c m₁ comes found => ?_,
    fun id c t v m => ?_⟩
  · have reach := comes.reaches.step .getObject
    have before := freshDone writeTally setting acts comes
    have written := writeTally.whole (fun k t m reach => taskSits kept reach) reach
    have ending : (Task.expr object).ending k m = m₁ := congrArg final found
    rw [ending] at written
    rw [evaluateGet found]
    refine lookedUp ?_ fun r method => ?_
    · have none : ((fresh setting).machine.store.fieldsOf id).get? t.lexeme = none := rfl
      have last := (before.trans written) id t.lexeme
      rwa [none, Option.or_none] at last
    · exact ((declaredInstance kept reach found).found method).isNamed
  · exact ⟨setPropertyRun id c t v m, fun o u apart => wroteGetProperty _ o u apart,
      fun node u => wroteSuperMethod _ node u⟩

def typed? (s : Session) : Option Expr :=
  match s.tree with
  | .expression e => some e
  | .program _ => none

theorem taskTyped {s : Session} {e : Expr} (h : s.typed? = some e) : s.task = .expr e := by
  unfold typed? at h
  unfold task
  cases tree : s.tree with
  | expression e' =>
    rw [tree] at h
    cases h
    rfl
  | program body =>
    rw [tree] at h
    cases h

def rewrittenField : List Act :=
  [.scan 1 "class A\x7b\x7dclass B<A\x7b\x7d".toList,
   .scan 2 "var a=B();var b=B();".toList,
   .scan 3 "a.x= \"p\";b.x= \"q\";a.x= \"r\";".toList,
   .parse, .resolve, .interpret, .scan 4 "a.x".toList, .parseTyped, .resolve]

theorem lookupsFollowWrites_rewritten :
    ((fresh {}).notedAll .writes rewrittenField).map (fun w => (w.id, w.name)) =
      [(0, "x"), (1, "x"), (0, "x")] ∧
    ∃ object t c m₁, t.lexeme = "x" ∧
      ((fresh {}).after rewrittenField).ComesAfter .writes [] fuel (.expr (.get object (some t)))
        ((fresh {}).after rewrittenField).running ∧
      evaluate (fuel - 1) object ((fresh {}).after rewrittenField).running =
        .ok (.instance_ 0 c) m₁ ∧
      LookedUp ((fresh {}).notedAll .writes rewrittenField ++ [] ++
          (Task.expr object).noted .writes (fuel - 1) ((fresh {}).after rewrittenField).running) 0 c t m₁
        (evaluate fuel (.get object (some t)) ((fresh {}).after rewrittenField).running) := by
  have typed : ((fresh {}).after rewrittenField).typed?.bind
      (asks? (fuel - 1) ((fresh {}).after rewrittenField).running) =
        some (0, "x", true, false) := by
    decide +kernel
  obtain ⟨e, first, asks⟩ := Option.bind_eq_some_iff.mp typed
  obtain ⟨object, t, c, m₁, rfl, name, run, -, -⟩ := asksFor asks
  have comes : ((fresh {}).after rewrittenField).ComesAfter .writes [] fuel
      (.expr (.get object (some t))) ((fresh {}).after rewrittenField).running := by
    rw [← taskTyped first]
    exact .start
  refine ⟨by decide +kernel, object, t, c, m₁, name, comes, run, ?_⟩
  exact (lookupsFollowWrites {} rewrittenField).2.1 [] (fuel - 1) object t _ 0 c m₁ comes run

end Session
end Lox
