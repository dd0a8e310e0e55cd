import Lox.Proofs.Properties
import Lox.Proofs.Runs.Returns

/-!
Initializers that are called by name. The resolver knows an initializer by the name `init`, a class
statement by the name `this`, so a method `init` of an instance is called like any other: it gives
nil where its body ends or comes to a `return` without a value, and never the instance by itself.
Only the call of a class gives the instance that it makes.
-/

namespace Lox

open Eval

inductive CallEnds (n : Nat) (r : Routine) (args : List Value) (m : Machine) :
    Value → Machine → Prop where
  | atEnd {b m'} (bound : bindParameters r.decl.params args [] = .ok b)
      (ends : executeAll n r.decl.body (m.entering r.closure b) = .ok () m') :
      CallEnds n r args m .nil { m' with env := m.env }
  | atReturn {b k keyword value m'} (bound : bindParameters r.decl.params args [] = .ok b)
      (path : Activation n (.stmts r.decl.body) (m.entering r.closure b)
        (k + 1) (.stmt (.return_ keyword value)) m')
      (empty : value.isMissing = true) : CallEnds n r args m .nil { m' with env := m.env }
  | atValue {b k keyword value m₁ v m'} (bound : bindParameters r.decl.params args [] = .ok b)
      (path : Activation n (.stmts r.decl.body) (m.entering r.closure b)
        (k + 1) (.stmt (.return_ keyword value)) m₁)
      (given : value.isMissing = false) (result : evaluate k value m₁ = .ok v m') :
      CallEnds n r args m v { m' with env := m.env }

section

variable {n : Nat} {r : Routine} {args : List Value} {m m' : Machine} {v : Value}
  {b : Bindings Value}

theorem callEndsReturned (bound : bindParameters r.decl.params args [] = .ok b)
    (ends : executeAll n r.decl.body (m.entering r.closure b) = .error (.returned v) m') :
    CallEnds n r args m v { m' with env := m.env } := by
  obtain ⟨k, keyword, value, m₁, m₂, path, given⟩ := Activation.start.returned (t := .stmts _) ends
  -- the `return` is the one that the body ended with
  obtain ⟨env, whole⟩ := path.unwinds rfl (executeReturn.mpr given)
  cases ends.symm.trans whole
  unfold Returned at given
  split at given
  · next empty =>
    obtain ⟨rfl, rfl⟩ := given
    have ended : CallEnds n r args m .nil { m₂ with env := m.env } := .atReturn bound path empty
    exact ended
  · next full =>
    have ended : CallEnds n r args m v { m₂ with env := m.env } :=
      .atValue bound path (by simpa using full) given
    exact ended

theorem withinOk {α : Type} {x : Eval α} {env : Env} {a : α} (ends : x { m with env := env } = .ok a m') :
    within env x m = .ok a { m' with env := m.env } := by
  unfold within
  rw [ends]

theorem callRoutineAtEnd (bound : bindParameters r.decl.params args [] = .ok b)
    (ends : executeAll n r.decl.body (m.entering r.closure b) = .ok () m') :
    callRoutine (n + 1) r args m = .ok .nil { m' with env := m.env } := by
  have body : returnedBy (within (m.store.enter r.closure b).1 (executeAll n r.decl.body))
      { m with store := (m.store.enter r.closure b).2 } = .ok none { m' with env := m.env } := by
    unfold returnedBy
    rw [withinOk ends]
  unfold callRoutine
  rw [bound]
  exact bindOk.mpr ⟨b, m, rfl, bindOk.mpr ⟨_, _, rfl, bindOk.mpr ⟨_, _, body, rfl⟩⟩⟩

theorem callRoutineStopped (bound : bindParameters r.decl.params args [] = .ok b) {e : Signal}
    (ends : executeAll n r.decl.body (m.entering r.closure b) = .error e m')
    (other : ∀ v, e ≠ .returned v) :
    callRoutine (n + 1) r args m = .error e { m' with env := m.env } := by
  have body : returnedBy (within (m.store.enter r.closure b).1 (executeAll n r.decl.body))
      { m with store := (m.store.enter r.closure b).2 } = .error e { m' with env := m.env } := by
    unfold returnedBy
    rw [withinError ends]
    cases e with
    | returned v => exact absurd rfl (other v)
    | _ => rfl
  unfold callRoutine
  rw [bound]
  exact bindError.mpr (.inr ⟨b, m, rfl, bindError.mpr (.inr ⟨_, _, rfl, bindError.mpr (.inl body)⟩)⟩)

theorem callRoutineEnds (plain : r.isInitializer = false) :
    callRoutine (n + 1) r args m = .ok v m' ↔ CallEnds n r args m v m' := by
  constructor
  · intro run
    cases bound : bindParameters r.decl.params args [] with
    | error f =>
      unfold callRoutine at run
      rw [bound] at run
      cases run
    | ok b =>
      cases ends : executeAll n r.decl.body (m.entering r.closure b) with
      | ok _ m₁ =>
        cases run.symm.trans (callRoutineAtEnd bound ends)
        exact .atEnd bound ends
      | error e m₁ =>
        cases e with
        | returned u =>
          have ends : executeAll n r.decl.body (m.entering r.closure b) =
              .error (.returned u) { m₁ with env := m₁.env } := ends
          cases run.symm.trans (callRoutineReturned bound plain ends)
          exact callEndsReturned bound ends
        | fault f => cases run.symm.trans (callRoutineStopped bound ends (by simp))
        | outOfFuel => cases run.symm.trans (callRoutineStopped bound ends (by simp))
  · intro ends
    cases ends with
    | atEnd bound ends => exact callRoutineAtEnd bound ends
    | @atReturn _ k _ value m₁ bound path empty =>
      have given : Returned k value m₁ .nil m₁ := by simp [Returned, empty]
      obtain ⟨env, whole⟩ := path.unwinds rfl (executeReturn.mpr given)
      exact callRoutineReturned bound plain whole
    | @atValue _ k _ value m₁ v m₂ bound path full result =>
      have given : Returned k value m₁ v m₂ := by simpa [Returned, full] using result
      obtain ⟨env, whole⟩ := path.unwinds rfl (executeReturn.mpr given)
      exact callRoutineReturned bound plain whole

theorem evaluateCall {k i : Nat} {callee : Expr} {name : String} {paren : Option Token}
    {args : List Expr} {vs : List Value} {m₁ m₂ : Machine}
    (given : evaluate (k + 1) callee m = .ok (.function i name r) m₁)
    (values : evaluateAll (k + 1) args m₁ = .ok vs m₂) (fits : vs.length = r.decl.params.length) :
    evaluate (k + 2) (.call callee paren args) m = callRoutine k r vs m₂ := by
  rw [evaluate, bindRun, given]
  dsimp only
  rw [bindRun, values]
  dsimp only [Value.arity?]
  rw [if_pos fits]
  rfl

theorem callClassGives {k : Nat} {c : Class} (run : Eval.call k (.class_ c) args m = .ok v m') :
    v = .instance_ m.store.fields.size c := by
  cases k with
  | zero => cases run
  | succ k =>
    obtain ⟨this, m₁, made, run⟩ := bindOk.mp run
    cases made
    dsimp only at run
    cases found : c.findMethod? Class.initializer with
    | none =>
      rw [found] at run
      cases run
      rfl
    | some r =>
      rw [found] at run
      obtain ⟨_, _, _, run⟩ := bindOk.mp run
      obtain ⟨_, _, _, run⟩ := bindOk.mp run
      cases run
      rfl

end

def Expr.callee? : Expr → Option Expr
  | .call callee _ _ => some callee
  | _ => none

theorem calleeOf {e callee : Expr} (h : e.callee? = some callee) :
    ∃ paren args, e = .call callee paren args := by
  cases e with
  | call f paren args =>
    cases h
    exact ⟨paren, args, rfl⟩
  | _ => cases h

namespace Session

theorem directInitializersGiveNoInstance (setting : Setting) (acts : List Act) :
    (∀ env methods table name r, methodTable env methods [] = .ok table →
      table.get? name = some r → (r.isInitializer = true ↔ name = "this") ∧
        (Resolve.methodKind name = .initializer ↔ name = Class.initializer)) ∧
    (∀ k object t paren args m id c m₁ r,
      ((fresh setting).after acts).ComesBy (k + 3)
        (.expr (.call (.get object (some t)) paren args)) m →
      t.lexeme = Class.initializer → evaluate (k + 1) object m = .ok (.instance_ id c) m₁ →
      (m₁.store.fieldsOf id).get? t.lexeme = none → Nearest c.layers t.lexeme r →
      ∃ i name r' m₂, evaluate (k + 2) (.get object (some t)) m = .ok (.function i name r') m₂ ∧
        BoundTo r (.instance_ id c) (.function i name r') m₂ ∧
        ∀ vs m₃, evaluateAll (k + 2) args m₂ = .ok vs m₃ → vs.length = r.decl.params.length →
          ∀ v m', evaluate (k + 3) (.call (.get object (some t)) paren args) m = .ok v m' ↔
            CallEnds k r' vs m₃ v m') ∧
    ∀ k c vs m v m', Eval.call k (.class_ c) vs m = .ok v m' →
      v = .instance_ m.store.fields.size c := by
  obtain ⟨w, kept⟩ := objectsKept setting acts
  refine ⟨fun env methods table name r made found => ?_, ?_, fun k c vs m v m' run => ?_⟩
  · have under : r.Under name := methodsUnder made (by simp) found
    rw [under.flag]
    constructor
    · simp
    · unfold Resolve.methodKind
      split <;> simp_all [Class.initializer]
  · intro k object t paren args m id c m₁ r comes name receiver unset nearest
    have found : c.findMethod? t.lexeme = some r := nearestFound.mp nearest
    have reach := ((comesBy.mp comes).step .callee).step .getObject
    have under := (declaredInstance kept reach receiver).found found
    obtain ⟨f, m₂, bind, bound⟩ := bindRuns under.isNamed (.instance_ id c) m₁
    have given : evaluate (k + 2) (.get object (some t)) m = .ok f m₂ := by
      rw [evaluateGet receiver, getPropertyRun, unset, found]
      exact bind
    have plain : r.isInitializer = false := by
      rw [under.flag, name]
      rfl
    obtain ⟨i, called, h, rfl, frame⟩ := bound
    refine ⟨i, called, _, m₂, given, ⟨i, called, h, rfl, frame⟩, fun vs m₃ values fits v m' => ?_⟩
    rw [evaluateCall given values fits]
    exact callRoutineEnds plain
  · exact callClassGives run

def initializedAgain : List Act :=
  [.scan 1 "class A\x7binit()\x7b\x7d\x7dclass B<A\x7b\x7d".toList,
   .scan 2 "var b=B();".toList, .parse, .resolve, .interpret,
   .scan 3 "b.init()".toList, .parseTyped, .resolve]

theorem directInitializersGiveNoInstance_inherited :
    ∃ k object t paren args c m₁ r, t.lexeme = Class.initializer ∧
      ((fresh {}).after initializedAgain).ComesBy (k + 3)
        (.expr (.call (.get object (some t)) paren args))
        ((fresh {}).after initializedAgain).running ∧
      evaluate (k + 1) object ((fresh {}).after initializedAgain).running =
        .ok (.instance_ 0 c) m₁ ∧
      (m₁.store.fieldsOf 0).get? t.lexeme = none ∧ Nearest c.layers t.lexeme r ∧
      ∃ i name r' m₂, evaluate (k + 2) (.get object (some t))
          ((fresh {}).after initializedAgain).running = .ok (.function i name r') m₂ ∧
        BoundTo r (.instance_ 0 c) (.function i name r') m₂ ∧
        ∀ vs m₃, evaluateAll (k + 2) args m₂ = .ok vs m₃ → vs.length = r.decl.params.length →
          ∀ v m', evaluate (k + 3) (.call (.get object (some t)) paren args)
              ((fresh {}).after initializedAgain).running = .ok v m' ↔
            CallEnds k r' vs m₃ v m' := by
  have law := (directInitializersGiveNoInstance {} initializedAgain).2.1
  have typed : (((fresh {}).after initializedAgain).typed?.bind Expr.callee?).bind
      (asks? (fuel - 2) ((fresh {}).after initializedAgain).running) =
        some (0, Class.initializer, false, true) := by
    decide +kernel
  generalize (fresh {}).after initializedAgain = s at law typed ⊢
  obtain ⟨k, left⟩ : ∃ k, fuel = k + 3 := ⟨fuel - 3, rfl⟩
  rw [show fuel - 2 = k + 1 by omega] at typed
  obtain ⟨callee, first, asks⟩ := Option.bind_eq_some_iff.mp typed
  obtain ⟨e, first, called⟩ := Option.bind_eq_some_iff.mp first
  obtain ⟨paren, args, rfl⟩ := calleeOf called
  obtain ⟨object, t, c, m₁, rfl, name, run, unset, found⟩ := asksFor asks
  obtain ⟨r, found⟩ := Option.isSome_iff_exists.mp found
  have unset : (m₁.store.fieldsOf 0).get? t.lexeme = none := by simpa using unset
  have comes : s.ComesBy (k + 3) (.expr (.call (.get object (some t)) paren args)) s.running := by
    rw [comesBy, ← taskTyped first, ← left]
    exact .start
  have nearest : Nearest c.layers t.lexeme r := nearestFound.mpr found
  refine ⟨k, object, t, paren, args, c, m₁, r, name, comes, run, unset, nearest, ?_⟩
  exact law k object t paren args s.running 0 c m₁ r comes name run unset nearest

def comparedInitializer : List (List Char) :=
  ["class A\x7binit()\x7b\x7d\x7d".toList,
   "class B<A\x7b\x7d".toList,
   "var b=B();".toList,
   "if(b.init()==b)print \"same\";else print \"other\";".toList]

theorem initializerGivesOther : prints? comparedInitializer = some ["other"] := by
  decide +kernel

end Session
end Lox
