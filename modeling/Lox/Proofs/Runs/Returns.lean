import Lox.Proofs.Runs.Operations
import Lox.Proofs.Runs.Reach

/-!
How a returned value leaves a run. Expressions never return; a statement does exactly if there is a
`return` in the same activation that comes to its value, and then every statement around it ends
there, up to the call of the routine whose body it is in.
-/

namespace Lox

open Eval

def Eval.Inert {α : Type} (x : Eval α) : Prop :=
  ∀ m v m', x m ≠ .error (.returned v) m'

namespace Eval

variable {α β : Type}

theorem inertPure (a : α) : Inert (pure a) := fun _ _ _ same => by cases same

theorem inertFail (f : Fault) : Inert (fail f : Eval α) := fun _ _ _ same => by cases same

theorem inertOutOfFuel : Inert (throw .outOfFuel : Eval α) := fun _ _ _ same => by cases same

theorem inertGet : Inert (get : Eval Machine) := fun _ _ _ same => by cases same

theorem inertModify (f : Machine → Machine) : Inert (modify f) := fun _ _ _ same => by cases same

theorem inertReadClock : Inert readClock := fun _ _ _ same => by cases same

theorem Inert.bind {x : Eval α} {f : α → Eval β} (first : Inert x) (rest : ∀ a, Inert (f a)) :
    Inert (x >>= f) := by
  intro m v m' run
  rcases bindError.mp run with here | ⟨a, t, -, later⟩
  · exact first m v m' here
  · exact rest a t v m' later

theorem inertLift (x : Except Fault α) : Inert (lift x) := by
  cases x with
  | ok a => exact inertPure a
  | error f => exact inertFail f

theorem inertAsk (f : Store → Except Fault α) : Inert (ask f) := inertGet.bind fun _ => inertLift _

theorem inertChange (f : Store → α × Store) : Inert (change f) := fun _ _ _ same => by cases same

theorem inertOnStore (x : Stored α) : Inert (onStore x) := by
  intro m v m' run
  unfold onStore at run
  dsimp only at run
  split at run
  · cases run
  · cases run

theorem Modest.inert {x : Eval α} (h : Modest false x) : Inert x := by
  generalize false = home at h
  induction h with
  | pure a => exact inertPure a
  | fail f => exact inertFail f
  | bind _ _ first rest => exact first.bind rest
  | look _ _ rest => exact inertGet.bind rest
  | change => exact inertChange _
  | onStore => exact inertOnStore _
  | define | write | keep | setEnv => exact inertModify _
  | tick => exact inertReadClock

theorem inertSetProperty (object : Value) (t : Option Token) (v : Value) :
    Inert (setProperty object t v) := by
  unfold setProperty
  split
  · exact (inertLift _).bind fun name => inertChange _
  · exact inertFail _
  · exact inertFail _

theorem inertReturnedBy (x : Eval Unit) : Inert (returnedBy x) := by
  intro m v m' run
  unfold returnedBy at run
  split at run
  · cases run
  · cases run
  · next other _ =>
    cases run
    exact other v rfl

structure Inerts (n : Nat) : Prop where
  expr : ∀ e, Inert (evaluate n e)
  exprs : ∀ es, Inert (evaluateAll n es)
  call : ∀ f args, Inert (Eval.call n f args)
  routine : ∀ r args, Inert (callRoutine n r args)
  superclass : ∀ e, Inert (Eval.superclass n e)

section

variable {n : Nat} (ih : Inerts n)

include ih

theorem inertEvaluate (e : Expr) : Inert (evaluate (n + 1) e) := by
  cases e with
  | missing => exact inertFail _
  | literal d => exact inertPure _
  | reference node name => exact (modestReadVariable node name).inert
  | this node keyword => exact (modestReadVariable node keyword).inert
  | assign node name value =>
    refine (ih.expr value).bind fun v => ?_
    exact (modestWriteVariable node name v).inert.bind fun _ => inertPure v
  | super node keyword method => exact (modestSuperMethod node method).inert
  | unary op right => exact (ih.expr right).bind fun v => (modestUnary op v).inert
  | binary left op right =>
    exact (ih.expr left).bind fun l => (ih.expr right).bind fun r => (modestBinary op l r).inert
  | logical left op right =>
    refine (ih.expr left).bind fun l => (modestDecides op l).inert.bind fun decided => ?_
    split
    · exact inertPure l
    · exact ih.expr right
  | grouping inner => exact ih.expr inner
  | call callee paren args =>
    refine (ih.expr callee).bind fun f => (ih.exprs args).bind fun vs => ?_
    split
    · exact inertFail _
    · split
      · exact ih.call f vs
      · exact inertFail _
  | get object name => exact (ih.expr object).bind fun o => (modestGetProperty o name).inert
  | set object name value =>
    refine (ih.expr object).bind fun o => (modestCheckSettable o name).inert.bind fun _ => ?_
    exact (ih.expr value).bind fun v => (inertSetProperty o name v).bind fun _ => inertPure v

theorem inertEvaluateAll (es : List Expr) : Inert (evaluateAll (n + 1) es) := by
  cases es with
  | nil => exact inertPure []
  | cons e es => exact (ih.expr e).bind fun v => (ih.exprs es).bind fun vs => inertPure (v :: vs)

theorem inertCall (f : Value) (args : List Value) : Inert (Eval.call (n + 1) f args) := by
  unfold Eval.call
  split
  · exact ih.routine _ _
  · refine (inertChange _).bind fun this => ?_
    split
    · refine (modestBindRoutine _ this).inert.bind fun r => ?_
      exact (ih.routine r _).bind fun _ => inertPure this
    · exact inertPure this
  · exact inertAsk _
  · exact (inertOnStore _).bind fun _ => inertPure _
  · exact inertReadClock.bind fun x => (modestStamp _).inert
  · exact inertOnStore _
  · exact inertFail _

theorem inertSuperclass (e : Expr) : Inert (Eval.superclass (n + 1) e) := by
  refine (ih.expr e).bind fun v => ?_
  split
  · exact inertPure _
  · exact inertFail _

end

theorem inertCallRoutine (n : Nat) (r : Routine) (args : List Value) :
    Inert (callRoutine (n + 1) r args) := by
  refine (inertLift _).bind fun b => (inertChange _).bind fun env => ?_
  refine (inertReturnedBy _).bind fun result => ?_
  split
  · exact inertPure _
  · split
    · exact inertAsk _
    · exact inertPure _

theorem inerts (n : Nat) : Inerts n := by
  induction n with
  | zero =>
    exact ⟨fun _ => inertOutOfFuel, fun _ => inertOutOfFuel, fun _ _ => inertOutOfFuel,
      fun _ _ => inertOutOfFuel, fun _ => inertOutOfFuel⟩
  | succ n ih =>
    exact ⟨inertEvaluate ih, inertEvaluateAll ih, inertCall ih, inertCallRoutine n,
      inertSuperclass ih⟩

theorem inertVar (n : Nat) (name : Option Token) (init : Expr) :
    Inert (execute (n + 1) (.var name init)) := by
  have last : ∀ v, Inert (do defineHere (← lexeme name) v) :=
    fun v => (inertLift _).bind fun _ => inertModify _
  unfold execute
  dsimp only
  split
  · exact (inertPure _).bind last
  · exact ((inerts n).expr init).bind last

theorem inertFunction (n : Nat) (f : FunDecl) : Inert (execute (n + 1) (.function f)) :=
  inertGet.bind fun _ => (modestFunctionValue _).inert.bind fun _ => (inertLift _).bind fun _ =>
    inertModify _

theorem inertClass (n : Nat) (name : Option Token) (methods : List FunDecl) (base : Expr) :
    Inert (execute (n + 1) (.class_ name methods base)) := by
  unfold execute
  dsimp only
  split
  · exact (inertPure _).bind fun base => (modestDeclareClass name methods base).inert
  · rw [map_eq_pure_bind]
    refine Inert.bind (((inerts n).superclass base).bind fun _ => inertPure _) fun base => ?_
    exact (modestDeclareClass name methods base).inert

end Eval

namespace Task

def isStmt : Task → Bool
  | .stmt _ | .stmts _ | .loop .. => true
  | _ => false

def Returns (n : Nat) (m : Machine) (v : Value) (m' : Machine) : Task → Prop
  | .stmt s => execute n s m = .error (.returned v) m'
  | .stmts ss => executeAll n ss m = .error (.returned v) m'
  | .loop cond s => Eval.loop n cond s m = .error (.returned v) m'
  | _ => False

end Task

inductive Activation (n₀ : Nat) (t₀ : Task) (m₀ : Machine) : Nat → Task → Machine → Prop where
  | start : Activation n₀ t₀ m₀ n₀ t₀ m₀
  | step {n t m t' m'} (before : Activation n₀ t₀ m₀ (n + 1) t m) (next : Calls n t m t' m')
      (inside : t'.isStmt = true) : Activation n₀ t₀ m₀ n t' m'
  | later {n s ss m m'} (before : Activation n₀ t₀ m₀ (n + 1) (.stmts (s :: ss)) m)
      (first : execute n s m = .ok () m') : Activation n₀ t₀ m₀ (n + 1) (.stmts ss) m'

def Returned (n : Nat) (value : Expr) (m : Machine) (v : Value) (m' : Machine) : Prop :=
  if value.isMissing then v = .nil ∧ m' = m else evaluate n value m = .ok v m'

section

variable {n n₀ : Nat} {t t' t₀ : Task} {m m₁ m' m₀ : Machine} {v : Value}

theorem executeReturn {keyword : Option Token} {value : Expr} :
    execute (n + 1) (.return_ keyword value) m = .error (.returned v) m' ↔
      Returned n value m v m' := by
  unfold Returned execute
  dsimp only
  cases given : value.isMissing with
  | true =>
    constructor
    · rintro ⟨⟩
      exact ⟨rfl, rfl⟩
    · rintro ⟨rfl, rfl⟩
      rfl
  | false =>
    constructor
    · intro ends
      rcases bindError.mp ends with here | ⟨w, t, run, last⟩
      · exact absurd here ((inerts n).expr value m v m')
      · cases last
        exact run
    · intro run
      exact bindError.mpr (.inr ⟨v, m', run, rfl⟩)

theorem conditionRun {cond : Expr} {w : Value} {b : Bool} {x : Bool → Eval Unit}
    (first : evaluate n cond m = .ok w m₁) (truth : w.truth = .ok b) :
    (do x (← lift (← evaluate n cond).truth)) m = x b m₁ := by
  rw [bindRun, first]
  dsimp only
  rw [bindRun, truth]
  rfl

theorem conditionReturned {cond : Expr} {x : Bool → Eval Unit}
    (ends : (do x (← lift (← evaluate n cond).truth)) m = .error (.returned v) m') :
    ∃ w b m₁, evaluate n cond m = .ok w m₁ ∧ w.truth = .ok b ∧
      x b m₁ = .error (.returned v) m' := by
  rcases bindError.mp ends with here | ⟨w, m₁, run, rest⟩
  · exact absurd here ((inerts n).expr cond m v m')
  · rcases bindError.mp rest with here | ⟨b, m₂, known, last⟩
    · exact absurd here (inertLift _ m₁ v m')
    · cases truth : w.truth with
      | error f =>
        rw [truth] at known
        cases known
      | ok c =>
        rw [truth] at known
        cases known
        exact ⟨w, _, _, run, truth, last⟩

theorem withinError {α : Type} {x : Eval α} {env : Env} {e : Signal}
    (ends : x { m with env := env } = .error e m') :
    within env x m = .error e { m' with env := m.env } := by
  unfold within
  rw [ends]

theorem withinErrorInside {α : Type} {x : Eval α} {env : Env} {e : Signal}
    (ends : within env x m = .error e m') : ∃ m₁, x { m with env := env } = .error e m₁ := by
  unfold within at ends
  split at ends
  · cases ends
  · next m₁ inner =>
    cases ends
    exact ⟨m₁, inner⟩

/- What a task of the activation returns, the task that made it returns as well. -/
theorem Calls.unwinds (next : Calls n t m t' m₁) (inside : t.isStmt = true)
    (ends : t'.Returns n m₁ v m') : ∃ env, t.Returns (n + 1) m v { m' with env := env } := by
  cases next with
  | block => exact ⟨m.env, withinError ends⟩
  | yes first holds => exact ⟨m'.env, (conditionRun first holds).trans ends⟩
  | no first fails given =>
    refine ⟨m'.env, (conditionRun first fails).trans ?_⟩
    rw [given]
    exact ends
  | loop => exact ⟨m'.env, ends⟩
  | firstStmt => exact ⟨m'.env, bindError.mpr (.inl ends)⟩
  | loopBody first holds =>
    exact ⟨m'.env, (conditionRun first holds).trans (bindError.mpr (.inl ends))⟩
  | loopAgain first holds second =>
    exact ⟨m'.env, (conditionRun first holds).trans (bindError.mpr (.inr ⟨_, _, second, ends⟩))⟩
  | body => cases inside
  | _ => cases ends

theorem Activation.isStmt (path : Activation n₀ t₀ m₀ n t m) (inside : t₀.isStmt = true) :
    t.isStmt = true := by
  cases path with
  | start => exact inside
  | step _ _ inside => exact inside
  | later => rfl

theorem Activation.unwinds (path : Activation n₀ t₀ m₀ n t m) (inside : t₀.isStmt = true)
    (ends : t.Returns n m v m') : ∃ env, t₀.Returns n₀ m₀ v { m' with env := env } := by
  induction path generalizing m' with
  | start => exact ⟨m'.env, ends⟩
  | step before next _ ih =>
    obtain ⟨_, outer⟩ := next.unwinds (before.isStmt inside) ends
    obtain ⟨env, whole⟩ := ih outer
    exact ⟨env, whole⟩
  | later before first ih => exact ih (bindError.mpr (.inr ⟨_, _, first, ends⟩))

theorem Activation.returned (path : Activation n₀ t₀ m₀ n t m) (ends : t.Returns n m v m') :
    ∃ k keyword value m₁ m₂,
      Activation n₀ t₀ m₀ (k + 1) (.stmt (.return_ keyword value)) m₁ ∧
        Returned k value m₁ v m₂ := by
  induction n generalizing t m m' with
  | zero =>
    cases t with
    | stmt | stmts | loop => cases ends
    | _ => cases ends
  | succ n ih =>
    cases t with
    | stmt s =>
      cases s with
      | missing => cases ends
      | expression e => exact absurd ends (((inerts n).expr e).bind (fun _ => inertPure _) m v m')
      | print e =>
        exact absurd ends (((inerts n).expr e).bind (fun v => (modestEmit v).inert) m v m')
      | var name init => exact absurd ends (inertVar n name init m v m')
      | block ss =>
        obtain ⟨m₁, inner⟩ := withinErrorInside ends
        exact ih (path.step .block rfl) inner
      | if_ cond yes no =>
        obtain ⟨w, b, m₁, first, truth, go⟩ := conditionReturned ends
        cases b with
        | true => exact ih (path.step (.yes first truth) rfl) go
        | false =>
          cases given : no.isMissing with
          | true =>
            rw [given] at go
            cases go
          | false =>
            rw [given] at go
            exact ih (path.step (.no first truth given) rfl) go
      | while_ cond s => exact ih (path.step .loop rfl) ends
      | function f => exact absurd ends (inertFunction n f m v m')
      | return_ keyword value => exact ⟨n, keyword, value, m, m', path, executeReturn.mp ends⟩
      | class_ name methods base => exact absurd ends (inertClass n name methods base m v m')
    | stmts ss =>
      induction ss generalizing m with
      | nil => cases ends
      | cons s ss later =>
        rcases bindError.mp ends with here | ⟨_, m₁, first, rest⟩
        · exact ih (path.step .firstStmt rfl) here
        · exact later (path.later first) rest
    | loop cond s =>
      obtain ⟨w, b, m₁, first, truth, go⟩ := conditionReturned ends
      cases b with
      | false => cases go
      | true =>
        rcases bindError.mp go with here | ⟨_, m₂, second, rest⟩
        · exact ih (path.step (.loopBody first truth) rfl) here
        · exact ih (path.step (.loopAgain first truth second) rfl) rest
    | _ => cases ends

end

theorem callRoutineReturned {n : Nat} {r : Routine} {args : List Value} {b : Bindings Value}
    {m m' : Machine} {v : Value} {env : Env} (bound : bindParameters r.decl.params args [] = .ok b)
    (plain : r.isInitializer = false)
    (ends : executeAll n r.decl.body (m.entering r.closure b) =
      .error (.returned v) { m' with env := env }) :
    callRoutine (n + 1) r args m = .ok v { m' with env := m.env } := by
  have body : returnedBy (within (m.store.enter r.closure b).1 (executeAll n r.decl.body))
      { m with store := (m.store.enter r.closure b).2 } =
        .ok (some v) { m' with env := m.env } := by
    unfold returnedBy
    rw [withinError ends]
  unfold callRoutine
  rw [bound]
  refine bindOk.mpr ⟨b, m, rfl, bindOk.mpr ⟨_, _, rfl, bindOk.mpr ⟨_, _, body, ?_⟩⟩⟩
  rw [plain]
  rfl

section

variable {n n₀ : Nat} {t t' t₀ : Task} {m m' m₀ : Machine}

structure Enters (n₀ : Nat) (t₀ : Task) (m₀ : Machine) (n : Nat) (r : Routine) (args : List Value)
    (m : Machine) (b : Bindings Value) : Prop where
  called : Reaches n₀ t₀ m₀ (n + 1) (.routine r args) m
  bound : bindParameters r.decl.params args [] = .ok b

/- Only a routine makes statements outside of its own activation. -/
theorem Calls.maker (next : Calls n t m t' m') (inside : t'.isStmt = true) :
    t.isStmt = true ∨ ∃ r args b, t = .routine r args ∧
      bindParameters r.decl.params args [] = .ok b ∧ t' = .stmts r.decl.body ∧
      m' = m.entering r.closure b := by
  cases next with
  | body bound => exact .inr ⟨_, _, _, rfl, bound, rfl, rfl⟩
  | block | yes | no | loop | firstStmt | loopBody | loopAgain => exact .inl rfl
  | _ => cases inside

theorem Reaches.activation (reach : Reaches n₀ t₀ m₀ n t m) (inside : t.isStmt = true) :
    Activation n₀ t₀ m₀ n t m ∨ ∃ j r args m₁ b, Enters n₀ t₀ m₀ j r args m₁ b ∧
      Activation j (.stmts r.decl.body) (m₁.entering r.closure b) n t m := by
  induction reach with
  | start => exact .inl .start
  | step before next ih =>
    rcases next.maker inside with outer | ⟨r, args, b, rfl, bound, rfl, rfl⟩
    · rcases ih outer with top | ⟨j, r, args, m₁, b, enters, path⟩
      · exact .inl (top.step next inside)
      · exact .inr ⟨j, r, args, m₁, b, enters, path.step next inside⟩
    · exact .inr ⟨_, r, args, _, b, ⟨before, bound⟩, .start⟩
  | later before first ih =>
    rcases ih rfl with top | ⟨j, r, args, m₁, b, enters, path⟩
    · exact .inl (top.later first)
    · exact .inr ⟨j, r, args, m₁, b, enters, path.later first⟩

def Task.StandsIn (body : List Stmt) (kind : Option FunctionKind) : Task → Prop
  | .stmt s => ∃ c, Stands body c (.stmt s) ∧ c.function = kind
  | .stmts ss => ∃ c, Stands body c (.stmts ss) ∧ c.function = kind
  | .loop cond s => ∃ c, Stands body c (.stmt (.while_ cond s)) ∧ c.function = kind
  | _ => False

variable {body : List Stmt} {kind : Option FunctionKind}

theorem Calls.standsIn (next : Calls n t m t' m') (inside : t'.isStmt = true)
    (stands : t.StandsIn body kind) : t'.StandsIn body kind := by
  cases next with
  | block =>
    obtain ⟨c, stands, same⟩ := stands
    exact ⟨_, stands.block, same⟩
  | yes =>
    obtain ⟨c, stands, same⟩ := stands
    exact ⟨c, stands.yes, same⟩
  | no _ _ given =>
    obtain ⟨c, stands, same⟩ := stands
    exact ⟨c, stands.no given, same⟩
  | firstStmt =>
    obtain ⟨c, stands, same⟩ := stands
    exact ⟨c, stands.first, same⟩
  | loopBody =>
    obtain ⟨c, stands, same⟩ := stands
    exact ⟨c, stands.whileBody, same⟩
  | loop | loopAgain => exact stands
  | body => cases stands
  | _ => cases inside

theorem Activation.standsIn (path : Activation n₀ t₀ m₀ n t m) (stands : t₀.StandsIn body kind) :
    t.StandsIn body kind := by
  induction path with
  | start => exact stands
  | step _ next inside ih => exact next.standsIn inside ih
  | later _ _ ih =>
    obtain ⟨c, stands, same⟩ := ih
    exact ⟨_, stands.later, (c.functionDeclare _ _).trans same⟩

end

end Lox
