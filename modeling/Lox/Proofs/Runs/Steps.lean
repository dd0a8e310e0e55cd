import Lox.Evaluation.Run
import Lox.Proofs.Runs.Operations

/-!
What runs are made of. Every computation of the evaluator is put together from a few steps. None of
them asks what was printed before, and only the declaration of a class changes the environment other
than for the time of a body.
-/

namespace Lox

def Stmt.classless : Stmt → Bool
  | .class_ .. => false
  | .if_ _ yes no => yes.classless && no.classless
  | .while_ _ body => body.classless
  | _ => true

namespace Eval

/- With `home`, the environment is changed only to run a body in another one. -/
inductive Built : (home : Bool) → {α : Type} → Eval α → Prop where
  | pure {home : Bool} {α : Type} (a : α) : Built home (pure a)
  | throw {home : Bool} {α : Type} (e : Signal) : Built home (throw e : Eval α)
  | bind {home : Bool} {α β : Type} {x : Eval α} {f : α → Eval β} (first : Built home x)
      (rest : ∀ a, Built home (f a)) : Built home (x >>= f)
  | look {home : Bool} {α : Type} {f : Machine → Eval α}
      (same : ∀ m printed console, f { m with printed := printed, console := console } = f m)
      (rest : ∀ m, Built home (f m)) : Built home (get >>= f)
  | change {home : Bool} {α : Type} (f : Store → α × Store) : Built home (change f)
  | onStore {home : Bool} {α : Type} (x : Stored α) : Built home (onStore x)
  | define {home : Bool} (name : String) (v : Value) : Built home (defineHere name v)
  | write {home : Bool} (text : String) :
      Built home (modify fun m => { m with console := m.console.push (text ++ "\n") })
  | keep {home : Bool} (v : Value) :
      Built home (modify fun m => { m with printed := m.printed.push v })
  | tick {home : Bool} : Built home readClock
  | within {home : Bool} {α : Type} (env : Env) {x : Eval α} (inner : Built false x) :
      Built home (within env x)
  | returnedBy {home : Bool} {x : Eval Unit} (inner : Built home x) : Built home (returnedBy x)
  | setEnv (env : Env) : Built false (setEnv env)

variable {home : Bool} {α : Type}

theorem Modest.built {x : Eval α} (h : Modest home x) : Built home x := by
  induction h with
  | pure a => exact .pure a
  | fail f => exact .throw _
  | bind _ _ first rest => exact .bind first rest
  | look same _ rest => exact .look same rest
  | change => exact .change _
  | onStore => exact .onStore _
  | define name v => exact .define name v
  | write text => exact .write text
  | keep v => exact .keep v
  | tick => exact .tick
  | setEnv env => exact .setEnv env

theorem builtSetProperty (object : Value) (t : Option Token) (v : Value) :
    Built home (setProperty object t v) := by
  cases object with
  | instance_ id c => exact .bind (modestLift _).built fun name => .change _
  | _ => exact .throw _

structure AllBuilt (n : Nat) : Prop where
  evaluate : ∀ {home} e, Built home (evaluate n e)
  evaluateAll : ∀ {home} es, Built home (evaluateAll n es)
  call : ∀ {home} f args, Built home (call n f args)
  callRoutine : ∀ {home} r args, Built home (callRoutine n r args)
  execute : ∀ {home} s, (home = true → s.classless = true) → Built home (execute n s)
  executeAll : ∀ ss, Built false (executeAll n ss)
  loop : ∀ {home} cond body, (home = true → body.classless = true) → Built home (loop n cond body)
  superclass : ∀ {home} e, Built home (superclass n e)

theorem allBuiltZero : AllBuilt 0 where
  evaluate _ := .throw _
  evaluateAll _ := .throw _
  call _ _ := .throw _
  callRoutine _ _ := .throw _
  execute _ _ := .throw _
  executeAll _ := .throw _
  loop _ _ _ := .throw _
  superclass _ := .throw _

section

variable {n : Nat} (all : AllBuilt n)

include all

theorem builtEvaluate (e : Expr) : Built home (evaluate (n + 1) e) := by
  cases e with
  | missing => exact .throw _
  | literal d => exact .pure _
  | reference node name => exact (modestReadVariable node name).built
  | this node keyword => exact (modestReadVariable node keyword).built
  | super node keyword method => exact (modestSuperMethod node method).built
  | assign node name value =>
    refine .bind (all.evaluate value) fun v => ?_
    exact .bind (modestWriteVariable node name v).built fun _ => .pure _
  | unary op right => exact .bind (all.evaluate right) fun v => (modestUnary op v).built
  | binary left op right =>
    refine .bind (all.evaluate left) fun l => ?_
    exact .bind (all.evaluate right) fun r => (modestBinary op l r).built
  | logical left op right =>
    refine .bind (all.evaluate left) fun l => .bind (modestDecides op l).built fun decided => ?_
    split
    · exact .pure _
    · exact all.evaluate right
  | grouping inner => exact all.evaluate inner
  | call callee paren args =>
    refine .bind (all.evaluate callee) fun f => .bind (all.evaluateAll args) fun vs => ?_
    split
    · exact .throw _
    · split
      · exact all.call f vs
      · exact .throw _
  | get object name => exact .bind (all.evaluate object) fun o => (modestGetProperty o name).built
  | set object name value =>
    refine .bind (all.evaluate object) fun o => .bind (modestCheckSettable o name).built fun _ => ?_
    refine .bind (all.evaluate value) fun v => ?_
    exact .bind (builtSetProperty o name v) fun _ => .pure _

theorem builtEvaluateAll (es : List Expr) : Built home (evaluateAll (n + 1) es) := by
  cases es with
  | nil => exact .pure _
  | cons e es =>
    exact .bind (all.evaluate e) fun v => .bind (all.evaluateAll es) fun vs => .pure _

theorem builtCall (f : Value) (args : List Value) : Built home (call (n + 1) f args) := by
  unfold Eval.call
  split
  · exact all.callRoutine _ _
  · refine .bind (.change _) fun this => ?_
    split
    · refine .bind (modestBindRoutine _ this).built fun r => ?_
      exact .bind (all.callRoutine r _) fun _ => .pure _
    · exact .pure _
  · exact (modestAsk _).built
  · exact .bind (.onStore _) fun _ => .pure _
  · exact .bind .tick fun x => (modestStamp _).built
  · exact .onStore _
  · exact .throw _

theorem builtCallRoutine (r : Routine) (args : List Value) :
    Built home (callRoutine (n + 1) r args) := by
  refine .bind (modestLift _).built fun b => .bind (.change _) fun env => ?_
  refine .bind (.returnedBy (.within env (all.executeAll r.decl.body))) fun returned => ?_
  split
  · exact .pure _
  · split
    · exact (modestAsk _).built
    · exact .pure _

theorem builtExecute (s : Stmt) (calm : home = true → s.classless = true) :
    Built home (execute (n + 1) s) := by
  cases s with
  | missing => exact .throw _
  | expression e => exact .bind (all.evaluate e) fun _ => .pure _
  | print e => exact .bind (all.evaluate e) fun v => (modestEmit v).built
  | var name init =>
    have body : ∀ v, Built home (do defineHere (← Eval.lexeme name) v) :=
      fun v => .bind (modestLift _).built fun x => .define x v
    unfold Eval.execute
    dsimp only
    split
    · exact body .nil
    · exact .bind (all.evaluate init) body
  | block body =>
    refine .look (fun _ _ _ => rfl) fun m => .bind (.change _) fun env => ?_
    exact .within env (all.executeAll body)
  | if_ cond yes no =>
    have both : home = true → yes.classless = true ∧ no.classless = true :=
      fun same => Bool.and_eq_true_iff.mp (calm same)
    refine .bind (all.evaluate cond) fun v => .bind (modestLift _).built fun holds => ?_
    split
    · exact all.execute yes fun same => (both same).1
    · split
      · exact all.execute no fun same => (both same).2
      · exact .pure _
  | while_ cond body => exact all.loop cond body calm
  | function f =>
    refine .look (fun _ _ _ => rfl) fun m => .bind (modestFunctionValue _).built fun v => ?_
    exact .bind (modestLift _).built fun x => .define x v
  | return_ keyword value =>
    unfold Eval.execute
    dsimp only
    split
    · exact .throw _
    · exact .bind (all.evaluate value) fun v => .throw _
  | class_ name methods base =>
    cases home with
    | true => exact absurd (calm rfl) Bool.false_ne_true
    | false =>
      unfold Eval.execute
      dsimp only
      split
      · exact (modestDeclareClass name methods none).built
      · have given : Built false (some <$> superclass n base) :=
          .bind (all.superclass base) fun c => .pure _
        exact .bind given fun o => (modestDeclareClass name methods o).built

theorem builtInOrder (ss : List Stmt) : Built false (inOrder (execute n) ss) := by
  induction ss with
  | nil => exact .pure _
  | cons s ss ih => exact .bind (all.execute s nofun) fun _ => ih

theorem builtLoop (cond : Expr) (body : Stmt) (calm : home = true → body.classless = true) :
    Built home (loop (n + 1) cond body) := by
  refine .bind (all.evaluate cond) fun v => .bind (modestLift _).built fun again => ?_
  split
  · exact .bind (all.execute body calm) fun _ => all.loop cond body calm
  · exact .pure _

theorem builtSuperclass (e : Expr) : Built home (superclass (n + 1) e) := by
  refine .bind (all.evaluate e) fun v => ?_
  split
  · exact .pure _
  · exact .throw _

end

theorem allBuilt (n : Nat) : AllBuilt n := by
  induction n with
  | zero => exact allBuiltZero
  | succ n ih =>
    exact {
      evaluate := builtEvaluate ih
      evaluateAll := builtEvaluateAll ih
      call := builtCall ih
      callRoutine := builtCallRoutine ih
      execute := builtExecute ih
      executeAll := builtInOrder ih
      loop := builtLoop ih
      superclass := builtSuperclass ih }

def ComesHome (x : Eval α) : Prop := ∀ m, (final (x m)).env = m.env

theorem Built.comesHome {x : Eval α} (h : Built true x) : ComesHome x := by
  generalize same : true = home at h
  induction h with
  | setEnv env => cases same
  | pure a => exact fun _ => rfl
  | throw e => exact fun _ => rfl
  | bind _ _ first rest =>
    intro m
    have here := first same m
    rw [bindRun]
    split
    · next a t run =>
      rw [run] at here
      exact (rest a same t).trans here
    · next e t run =>
      rw [run] at here
      exact here
  | look _ _ rest => exact fun m => rest m same m
  | change f => exact fun _ => rfl
  | onStore x =>
    intro m
    unfold Eval.onStore
    dsimp only
    split <;> rfl
  | define name v => exact fun _ => rfl
  | write text => exact fun _ => rfl
  | keep v => exact fun _ => rfl
  | tick => exact fun _ => rfl
  | within env _ _ =>
    intro m
    unfold Eval.within
    split <;> rfl
  | returnedBy _ ih =>
    intro m
    have here := ih same m
    unfold Eval.returnedBy
    split <;> simp_all [final]

theorem Built.locals {home : Bool} {x : Eval α} (h : Built home x) (ls : Locals) :
    Keeps (fun m : Machine => m.locals = ls) x := by
  induction h with
  | pure a => exact keepsPure a
  | throw e => exact keepsThrow e
  | bind _ _ first rest => exact first.bind rest
  | look _ _ rest => exact keepsGet.bind rest
  | change f => exact fun _ h => h
  | onStore x =>
    intro m h
    unfold Eval.onStore
    dsimp only
    split <;> exact h
  | define name v => exact fun _ h => h
  | write text => exact fun _ h => h
  | keep v => exact fun _ h => h
  | tick => exact fun _ h => h
  | within env _ inner =>
    intro m h
    have here := inner { m with env := env } h
    unfold Eval.within
    split <;> simp_all [final]
  | returnedBy _ inner =>
    intro m h
    have here := inner m h
    unfold Eval.returnedBy
    split <;> simp_all [final]
  | setEnv env => exact fun _ h => h

end Eval
end Lox
