import Lox.Evaluation.Run
import Lox.Proofs.Sequence

/-!
Runs and their fuel. A run that does not use up its fuel ends in the same way with more of it, so
what a tree does can be told without a number: it ends in a result, or it does not end.
-/

namespace Lox.Eval

variable {α β : Type}

def Spent : EStateM.Result Signal Machine α → Prop
  | .error .outOfFuel _ => True
  | _ => False

theorem spentError {e : Signal} {m : Machine} :
    Spent (.error e m : EStateM.Result Signal Machine α) ↔ e = .outOfFuel := by
  cases e <;> simp [Spent]

def Extends (x y : Eval α) : Prop := ∀ m, ¬Spent (x m) → y m = x m

theorem extendsRefl (x : Eval α) : Extends x x := fun _ _ => rfl

theorem extendsNone (y : Eval α) : Extends (throw .outOfFuel) y := fun _ ends => absurd trivial ends

theorem Extends.bind {x y : Eval α} {f g : α → Eval β} (first : Extends x y)
    (rest : ∀ a, Extends (f a) (g a)) : Extends (x >>= f) (y >>= g) := by
  intro m ends
  rw [bindRun] at ends
  rw [bindRun, bindRun]
  cases run : x m with
  | ok a m' =>
    rw [run] at ends
    rw [first m (by rw [run]; exact id), run]
    exact rest a m' ends
  | error e m' =>
    rw [run] at ends
    have same : ¬Spent (x m) := by
      rw [run]
      exact fun spent => ends (spentError.mpr (spentError.mp spent))
    rw [first m same, run]

theorem extendsAfter (x : Eval α) {f g : α → Eval β} (rest : ∀ a, Extends (f a) (g a)) :
    Extends (x >>= f) (x >>= g) :=
  (extendsRefl x).bind rest

theorem Extends.before {x y : Eval α} (first : Extends x y) (f : α → Eval β) :
    Extends (x >>= f) (y >>= f) :=
  first.bind fun a => extendsRefl (f a)

theorem extendsGiven {c : Bool} {x y z w : Eval α} (yes : Extends x y) (no : Extends z w) :
    Extends (if c then x else z) (if c then y else w) := by
  cases c
  · exact no
  · exact yes

theorem Extends.within {x y : Eval α} (h : Extends x y) (env : Env) :
    Extends (within env x) (within env y) := by
  intro m ends
  unfold Eval.within at ends ⊢
  cases run : x { m with env := env } with
  | ok a m' => rw [h _ (by rw [run]; exact id), run]
  | error e m' =>
    rw [run] at ends
    have same : ¬Spent (x { m with env := env }) := by
      rw [run]
      exact fun spent => ends (spentError.mpr (spentError.mp spent))
    rw [h _ same, run]

theorem Extends.returnedBy {x y : Eval Unit} (h : Extends x y) :
    Extends (returnedBy x) (returnedBy y) := by
  intro m ends
  unfold Eval.returnedBy at ends ⊢
  cases run : x m with
  | ok a m' => rw [h _ (by rw [run]; exact id), run]
  | error e m' =>
    rw [run] at ends
    have same : ¬Spent (x m) := by
      rw [run]
      cases e with
      | outOfFuel => exact ends
      | _ => exact id
    rw [h _ same, run]

theorem extendsInOrder {run run' : Stmt → Eval Unit} (h : ∀ s, Extends (run s) (run' s))
    (ss : List Stmt) : Extends (inOrder run ss) (inOrder run' ss) := by
  induction ss with
  | nil => exact extendsRefl _
  | cons s _ ih => exact (h s).bind fun _ => ih

structure Grows (n k : Nat) : Prop where
  evaluate : ∀ e, Extends (evaluate n e) (evaluate k e)
  evaluateAll : ∀ es, Extends (evaluateAll n es) (evaluateAll k es)
  call : ∀ f args, Extends (call n f args) (call k f args)
  callRoutine : ∀ r args, Extends (callRoutine n r args) (callRoutine k r args)
  execute : ∀ s, Extends (execute n s) (execute k s)
  executeAll : ∀ ss, Extends (executeAll n ss) (executeAll k ss)
  loop : ∀ cond body, Extends (loop n cond body) (loop k cond body)
  superclass : ∀ e, Extends (superclass n e) (superclass k e)

section

variable {n k : Nat} (grows : Grows n k)

include grows

theorem growsEvaluate (e : Expr) : Extends (evaluate (n + 1) e) (evaluate (k + 1) e) := by
  cases e with
  | missing => exact extendsRefl _
  | literal d => exact extendsRefl _
  | reference node name => exact extendsRefl _
  | this node keyword => exact extendsRefl _
  | super node keyword method => exact extendsRefl _
  | assign node name value => exact (grows.evaluate value).before _
  | unary op right => exact (grows.evaluate right).before _
  | binary left op right =>
    exact (grows.evaluate left).bind fun _ => (grows.evaluate right).before _
  | logical left op right =>
    refine (grows.evaluate left).bind fun v => extendsAfter _ fun decided => ?_
    exact extendsGiven (extendsRefl _) (grows.evaluate right)
  | grouping inner => exact grows.evaluate inner
  | call callee paren args =>
    refine (grows.evaluate callee).bind fun f => (grows.evaluateAll args).bind fun vs => ?_
    split
    · exact extendsRefl _
    · split
      · exact grows.call f vs
      · exact extendsRefl _
  | get object name => exact (grows.evaluate object).before _
  | set object name value =>
    refine (grows.evaluate object).bind fun o => extendsAfter _ fun _ => ?_
    exact (grows.evaluate value).before _

theorem growsEvaluateAll (es : List Expr) :
    Extends (evaluateAll (n + 1) es) (evaluateAll (k + 1) es) := by
  cases es with
  | nil => exact extendsRefl _
  | cons e es => exact (grows.evaluate e).bind fun _ => (grows.evaluateAll es).before _

theorem growsCall (f : Value) (args : List Value) :
    Extends (call (n + 1) f args) (call (k + 1) f args) := by
  unfold Eval.call
  split
  · exact grows.callRoutine _ _
  · next c =>
    refine extendsAfter _ fun this => ?_
    split
    · exact extendsAfter _ fun r => (grows.callRoutine r _).before _
    · exact extendsRefl _
  · exact extendsRefl _
  · exact extendsRefl _
  · exact extendsRefl _
  · exact extendsRefl _
  · exact extendsRefl _

theorem growsCallRoutine (r : Routine) (args : List Value) :
    Extends (callRoutine (n + 1) r args) (callRoutine (k + 1) r args) := by
  refine extendsAfter _ fun b => extendsAfter _ fun env => ?_
  exact ((grows.executeAll r.decl.body).within env).returnedBy.before _

theorem growsExecute (s : Stmt) : Extends (execute (n + 1) s) (execute (k + 1) s) := by
  cases s with
  | missing => exact extendsRefl _
  | expression e => exact (grows.evaluate e).before _
  | print e => exact (grows.evaluate e).before _
  | var name init =>
    unfold Eval.execute
    dsimp only
    split
    · exact extendsRefl _
    · exact (grows.evaluate init).before _
  | block body =>
    refine extendsAfter _ fun m => extendsAfter _ fun env => ?_
    exact (grows.executeAll body).within env
  | if_ cond yes no =>
    refine (grows.evaluate cond).bind fun v => extendsAfter _ fun b => ?_
    exact extendsGiven (grows.execute yes) (extendsGiven (grows.execute no) (extendsRefl _))
  | while_ cond body => exact grows.loop cond body
  | function f => exact extendsRefl _
  | return_ keyword value =>
    unfold Eval.execute
    dsimp only
    split
    · exact extendsRefl _
    · exact (grows.evaluate value).before _
  | class_ name methods base =>
    unfold Eval.execute
    dsimp only
    split
    · exact extendsRefl _
    · exact Extends.before ((grows.superclass base).before _) _

theorem growsLoop (cond : Expr) (body : Stmt) :
    Extends (loop (n + 1) cond body) (loop (k + 1) cond body) := by
  refine (grows.evaluate cond).bind fun v => extendsAfter _ fun again => ?_
  exact extendsGiven ((grows.execute body).bind fun _ => grows.loop cond body) (extendsRefl _)

theorem growsSuperclass (e : Expr) : Extends (superclass (n + 1) e) (superclass (k + 1) e) :=
  (grows.evaluate e).before _

end

theorem grows {n k : Nat} (less : n ≤ k) : Grows n k := by
  induction n generalizing k with
  | zero =>
    exact {
      evaluate := fun _ => extendsNone _
      evaluateAll := fun _ => extendsNone _
      call := fun _ _ => extendsNone _
      callRoutine := fun _ _ => extendsNone _
      execute := fun _ => extendsNone _
      executeAll := fun _ => extendsNone _
      loop := fun _ _ => extendsNone _
      superclass := fun _ => extendsNone _ }
  | succ n ih =>
    obtain ⟨k, rfl⟩ : ∃ j, k = j + 1 := ⟨k - 1, by omega⟩
    have below : Grows n k := ih (Nat.le_of_succ_le_succ less)
    exact {
      evaluate := growsEvaluate below
      evaluateAll := growsEvaluateAll below
      call := growsCall below
      callRoutine := growsCallRoutine below
      execute := growsExecute below
      executeAll := extendsInOrder below.execute
      loop := growsLoop below
      superclass := growsSuperclass below }

structure EndsIn (x : Nat → Eval α) (m : Machine) (r : EStateM.Result Signal Machine α) : Prop where
  reached : ∃ n, x n m = r
  ended : ¬Spent r

def Monotone (x : Nat → Eval α) : Prop := ∀ n k, n ≤ k → Extends (x n) (x k)

theorem monotoneEvaluate (e : Expr) : Monotone (evaluate · e) :=
  fun _ _ less => (grows less).evaluate e

theorem monotoneExecute (s : Stmt) : Monotone (execute · s) :=
  fun _ _ less => (grows less).execute s

theorem monotoneConst (x : Eval α) : Monotone fun _ => x := fun _ _ _ => extendsRefl x

theorem Monotone.bind {x : Nat → Eval α} {f : Nat → α → Eval β} (first : Monotone x)
    (rest : ∀ a, Monotone (f · a)) : Monotone fun n => x n >>= f n :=
  fun n k less => (first n k less).bind fun a => rest a n k less

variable {x y : Nat → Eval α} {m m' : Machine} {r r' : EStateM.Result Signal Machine α}

theorem EndsIn.later (h : EndsIn x m r) (mono : Monotone x) :
    ∃ n, ∀ k, n ≤ k → x k m = r := by
  obtain ⟨⟨n, rfl⟩, ended⟩ := h
  exact ⟨n, fun k less => mono n k less m ended⟩

theorem EndsIn.unique (h : EndsIn x m r) (h' : EndsIn x m r') (mono : Monotone x) : r = r' := by
  obtain ⟨n, later⟩ := h.later mono
  obtain ⟨k, later'⟩ := h'.later mono
  rw [← later (max n k) (Nat.le_max_left n k), later' (max n k) (Nat.le_max_right n k)]

theorem endsStep (none : x 0 = throw .outOfFuel) (step : ∀ n, x (n + 1) = y n) :
    EndsIn x m r ↔ EndsIn y m r := by
  constructor
  · rintro ⟨⟨n, run⟩, ended⟩
    cases n with
    | zero =>
      rw [none] at run
      rw [← run] at ended
      exact absurd trivial ended
    | succ n => exact ⟨⟨n, by rw [← step, run]⟩, ended⟩
  · rintro ⟨⟨n, run⟩, ended⟩
    exact ⟨⟨n + 1, by rw [step, run]⟩, ended⟩

/- A sequence ends early in a signal, or its rest ends from where the first part ended well. -/
theorem endsBind {f : Nat → α → Eval β} {r : EStateM.Result Signal Machine β} (mono : Monotone x)
    (monoRest : ∀ a, Monotone (f · a)) : EndsIn (fun n => x n >>= f n) m r ↔
      (∃ e m', EndsIn x m (.error e m') ∧ r = .error e m') ∨
        ∃ a m', EndsIn x m (.ok a m') ∧ EndsIn (f · a) m' r := by
  constructor
  · rintro ⟨⟨n, run⟩, ended⟩
    rw [bindRun] at run
    cases first : x n m with
    | ok a m' =>
      rw [first] at run
      exact .inr ⟨a, m', ⟨⟨n, first⟩, id⟩, ⟨n, run⟩, ended⟩
    | error e m' =>
      rw [first] at run
      subst run
      exact .inl ⟨e, m', ⟨⟨n, first⟩, fun spent => ended (spentError.mpr (spentError.mp spent))⟩, rfl⟩
  · rintro (⟨e, m', ⟨⟨n, first⟩, ended⟩, rfl⟩ | ⟨a, m', first, rest⟩)
    · refine ⟨⟨n, by rw [bindRun, first]⟩, ?_⟩
      exact fun spent => ended (spentError.mpr (spentError.mp spent))
    · obtain ⟨n, later⟩ := first.later mono
      obtain ⟨k, later'⟩ := rest.later (monoRest a)
      refine ⟨⟨max n k, ?_⟩, rest.ended⟩
      rw [bindRun, later _ (Nat.le_max_left n k)]
      exact later' _ (Nat.le_max_right n k)

end Lox.Eval
