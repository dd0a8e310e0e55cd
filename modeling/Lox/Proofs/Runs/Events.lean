import Lox.Proofs.Runs.Reach

/-!
Events of a run. A task begins its parts one after the other, and the setting of a property ends
with a write to a field. Whatever is noted of a run is noted in the order of these events.
-/

namespace Lox

open Eval

structure Write where
  id : Nat
  name : String
  value : Value

inductive Event where
  | part (t : Task) (m : Machine)
  | write (w : Write)

def Eval.following {α β : Type} (x : Eval α) (m : Machine) (next : α → Machine → List β) : List β :=
  match x m with
  | .ok a m' => next a m'
  | .error .. => []

theorem Eval.followingOk {α β : Type} {x : Eval α} {m m' : Machine} {a : α} (run : x m = .ok a m')
    (next : α → Machine → List β) : following x m next = next a m' := by
  unfold following
  rw [run]

theorem Eval.followingLift {α β : Type} {x : Except Fault α} {a : α} (given : x = .ok a)
    (m : Machine) (next : α → Machine → List β) : following (lift x) m next = next a m := by
  subst given
  rfl

theorem Eval.memFollowing {α β : Type} {x : Eval α} {m : Machine} {next : α → Machine → List β}
    {b : β} : b ∈ following x m next ↔ ∃ a m', x m = .ok a m' ∧ b ∈ next a m' := by
  unfold following
  cases x m with
  | ok a m' =>
    constructor
    · intro mem
      exact ⟨a, m', rfl, mem⟩
    · rintro ⟨_, _, same, mem⟩
      cases same
      exact mem
  | error e m' => simp

theorem Eval.liftOk {α : Type} {x : Except Fault α} {a : α} {m m' : Machine}
    (run : lift x m = .ok a m') : x = .ok a ∧ m' = m := by
  cases x with
  | ok b =>
    cases run
    exact ⟨rfl, rfl⟩
  | error f => cases run

def Value.setting : Value → Option Token → Value → List Event
  | .instance_ id _, some t, v => [.write ⟨id, t.lexeme, v⟩]
  | _, _, _ => []

def Expr.events (n : Nat) : Expr → Machine → List Event
  | .assign _ _ value, m => [.part (.expr value) m]
  | .unary _ right, m => [.part (.expr right) m]
  | .binary left _ right, m =>
    .part (.expr left) m :: following (evaluate n left) m fun _ m => [.part (.expr right) m]
  | .logical left op right, m =>
    .part (.expr left) m :: following (evaluate n left) m fun l m =>
      following (decides op l) m fun decided m => if decided then [] else [.part (.expr right) m]
  | .grouping inner, m => [.part (.expr inner) m]
  | .call callee _ args, m =>
    .part (.expr callee) m :: following (evaluate n callee) m fun f m =>
      .part (.exprs args) m :: following (evaluateAll n args) m fun vs m =>
        if f.arity? = some vs.length then [.part (.call f vs) m] else []
  | .get object _, m => [.part (.expr object) m]
  | .set object name value, m =>
    .part (.expr object) m :: following (evaluate n object) m fun o m =>
      following (checkSettable o name) m fun _ m =>
        .part (.expr value) m :: following (evaluate n value) m fun v _ => o.setting name v
  | _, _ => []

def Value.callEvents : Value → List Value → Machine → List Event
  | .function _ _ r, args, m => [.part (.routine r args) m]
  | .class_ c, args, m =>
    match c.findMethod? Class.initializer with
    | some r => following (boundInitializer c r) m fun r m => [.part (.routine r args) m]
    | none => []
  | _, _, _ => []

def testEvents (n : Nat) (cond : Expr) (m : Machine) (next : Bool → Machine → List Event) :
    List Event :=
  .part (.expr cond) m :: following (evaluate n cond) m fun v m => following (lift v.truth) m next

def Stmt.events (n : Nat) : Stmt → Machine → List Event
  | .expression e, m => [.part (.expr e) m]
  | .print e, m => [.part (.expr e) m]
  | .var _ init, m => if init.isMissing then [] else [.part (.expr init) m]
  | .block ss, m => [.part (.stmts ss) (m.entering m.env [])]
  | .if_ cond yes no, m => testEvents n cond m fun holds m =>
    if holds then [.part (.stmt yes) m] else if no.isMissing then [] else [.part (.stmt no) m]
  | .while_ cond body, m => [.part (.loop cond body) m]
  | .return_ _ value, m => if value.isMissing then [] else [.part (.expr value) m]
  | .class_ _ _ base, m => if base.isMissing then [] else [.part (.superclass base) m]
  | _, _ => []

def Stmt.inTurn (n : Nat) : List Stmt → Machine → List Event
  | [], _ => []
  | s :: ss, m => .part (.stmt s) m :: following (execute n s) m fun _ m => inTurn n ss m

def Task.events (n : Nat) : Task → Machine → List Event
  | .expr e, m => e.events n m
  | .exprs [], _ => []
  | .exprs (e :: es), m =>
    .part (.expr e) m :: following (evaluate n e) m fun _ m => [.part (.exprs es) m]
  | .call f args, m => f.callEvents args m
  | .routine r args, m =>
    following (lift (bindParameters r.decl.params args [])) m fun b m =>
      [.part (.stmts r.decl.body) (m.entering r.closure b)]
  | .stmt s, m => s.events n m
  | .stmts ss, m => Stmt.inTurn n ss m
  | .loop cond body, m => testEvents n cond m fun again m =>
    if again then
      .part (.stmt body) m :: following (execute n body) m fun _ m => [.part (.loop cond body) m]
    else []
  | .superclass e, m => [.part (.expr e) m]

structure Notes (β : Type) where
  own : (fuel : Nat) → Task → Machine → List β
  write : Write → List β

section

variable {β : Type} (N : Notes β)

def Task.noted : (fuel : Nat) → Task → Machine → List β
  | 0, _, _ => []
  | n + 1, t, m => N.own n t m ++ (t.events n m).flatMap fun
    | .part t m => t.noted n m
    | .write w => N.write w

def Event.noted (n : Nat) : Event → List β
  | .part t m => t.noted N n m
  | .write w => N.write w

theorem Task.notedSucc (n : Nat) (t : Task) (m : Machine) :
    t.noted N (n + 1) m = N.own n t m ++ (t.events n m).flatMap (Event.noted N n) := rfl

inductive Arrives (n₀ : Nat) (t₀ : Task) (m₀ : Machine) :
    List β → Nat → Task → Machine → Prop where
  | start : Arrives n₀ t₀ m₀ [] n₀ t₀ m₀
  | part {xs n t m earlier t' m' later} (before : Arrives n₀ t₀ m₀ xs (n + 1) t m)
      (events : t.events n m = earlier ++ .part t' m' :: later) :
      Arrives n₀ t₀ m₀ (xs ++ earlier.flatMap (Event.noted N n)) n t' m'
  | later {xs n s ss m m'} (before : Arrives n₀ t₀ m₀ xs (n + 1) (.stmts (s :: ss)) m)
      (first : execute n s m = .ok () m') :
      Arrives n₀ t₀ m₀ (xs ++ (Task.stmt s).noted N n m) (n + 1) (.stmts ss) m'

end

def Notes.writes : Notes Write where
  own _ _ _ := []
  write w := [w]

theorem Calls.event {n : Nat} {t t' : Task} {m m' : Machine} (next : Calls n t m t' m') :
    .part t' m' ∈ t.events n m := by
  cases next with
  | assigned | operand | inner | getObject | function | expression | printed | block | loop
  | superclass => exact List.mem_cons_self
  | binaryLeft | logicalLeft | callee | setObject | firstExpr | ifCond | loopCond | firstStmt =>
    exact List.mem_cons_self
  | binaryRight first => simp [Task.events, Expr.events, followingOk first]
  | logicalRight first undecided =>
    simp [Task.events, Expr.events, followingOk first, followingOk undecided]
  | arguments first => simp [Task.events, Expr.events, followingOk first]
  | called first second fits =>
    simp [Task.events, Expr.events, followingOk first, followingOk second, fits]
  | setValue first settable =>
    simp [Task.events, Expr.events, followingOk first, followingOk settable]
  | laterExprs first => simp [Task.events, followingOk first]
  | construct found bound => simp [Task.events, Value.callEvents, found, followingOk bound]
  | body bound => simp [Task.events, followingLift bound]
  | initializer given => simp [Task.events, Stmt.events, given]
  | yes first holds =>
    simp [Task.events, Stmt.events, testEvents, followingOk first, followingLift holds]
  | no first fails given =>
    simp [Task.events, Stmt.events, testEvents, followingOk first, followingLift fails, given]
  | returned given => simp [Task.events, Stmt.events, given]
  | base given => simp [Task.events, Stmt.events, given]
  | loopBody first holds =>
    simp [Task.events, testEvents, followingOk first, followingLift holds]
  | loopAgain first holds second =>
    simp [Task.events, testEvents, followingOk first, followingLift holds, followingOk second]

theorem Expr.eventCalled {n : Nat} {e : Expr} {m : Machine} {t' : Task} {m' : Machine}
    (mem : .part t' m' ∈ e.events n m) : Calls n (.expr e) m t' m' := by
  cases e with
  | missing | literal | reference | this | super => cases mem
  | assign | unary | grouping | get =>
    obtain ⟨rfl, rfl⟩ := Event.part.inj (List.mem_singleton.mp mem)
    constructor
  | binary left op right =>
    rcases List.mem_cons.mp mem with same | mem
    · cases same
      exact .binaryLeft
    · obtain ⟨l, m₁, first, mem⟩ := memFollowing.mp mem
      cases List.mem_singleton.mp mem
      exact .binaryRight first
  | logical left op right =>
    rcases List.mem_cons.mp mem with same | mem
    · cases same
      exact .logicalLeft
    · obtain ⟨l, m₁, first, mem⟩ := memFollowing.mp mem
      obtain ⟨decided, m₂, second, mem⟩ := memFollowing.mp mem
      cases decided with
      | true => cases mem
      | false =>
        cases List.mem_singleton.mp mem
        exact .logicalRight first second
  | call callee paren args =>
    rcases List.mem_cons.mp mem with same | mem
    · cases same
      exact .callee
    · obtain ⟨f, m₁, first, mem⟩ := memFollowing.mp mem
      rcases List.mem_cons.mp mem with same | mem
      · cases same
        exact .arguments first
      · obtain ⟨vs, m₂, second, mem⟩ := memFollowing.mp mem
        split at mem
        · next fits =>
          cases List.mem_singleton.mp mem
          exact .called first second fits
        · cases mem
  | set object name value =>
    rcases List.mem_cons.mp mem with same | mem
    · cases same
      exact .setObject
    · obtain ⟨o, m₁, first, mem⟩ := memFollowing.mp mem
      obtain ⟨_, m₂, settable, mem⟩ := memFollowing.mp mem
      rcases List.mem_cons.mp mem with same | mem
      · cases same
        exact .setValue first settable
      · obtain ⟨v, m₃, -, mem⟩ := memFollowing.mp mem
        unfold Value.setting at mem
        split at mem
        · cases List.mem_singleton.mp mem
        · cases mem

theorem Stmt.eventCalled {n : Nat} {s : Stmt} {m : Machine} {t' : Task} {m' : Machine}
    (mem : .part t' m' ∈ s.events n m) : Calls n (.stmt s) m t' m' := by
  cases s with
  | missing | function => cases mem
  | expression | print | block | while_ =>
    cases List.mem_singleton.mp mem
    constructor
  | var _ value | return_ _ value | class_ _ _ value =>
    cases given : value.isMissing with
    | true => simp [Stmt.events, given] at mem
    | false =>
      simp only [Stmt.events, given, Bool.false_eq_true, if_false, List.mem_singleton] at mem
      cases mem
      constructor
      exact given
  | if_ cond yes no =>
    rcases List.mem_cons.mp mem with same | mem
    · cases same
      exact .ifCond
    · obtain ⟨v, m₁, first, mem⟩ := memFollowing.mp mem
      obtain ⟨holds, m₂, second, mem⟩ := memFollowing.mp mem
      obtain ⟨truth, rfl⟩ := liftOk second
      cases holds with
      | true =>
        cases List.mem_singleton.mp mem
        exact .yes first truth
      | false =>
        cases given : no.isMissing with
        | true => simp [given] at mem
        | false =>
          simp only [given, Bool.false_eq_true, if_false, List.mem_singleton] at mem
          cases mem
          exact .no first truth given

theorem Reaches.inTurn {n₀ n : Nat} {t₀ t' : Task} {m₀ m m' : Machine} {ss : List Stmt}
    (reach : Reaches n₀ t₀ m₀ (n + 1) (.stmts ss) m) (mem : .part t' m' ∈ Stmt.inTurn n ss m) :
    Reaches n₀ t₀ m₀ n t' m' := by
  induction ss generalizing m with
  | nil => cases mem
  | cons s ss ih =>
    rcases List.mem_cons.mp mem with same | mem
    · cases same
      exact reach.step .firstStmt
    · obtain ⟨_, m₁, first, mem⟩ := memFollowing.mp mem
      exact ih (reach.later first) mem

theorem Reaches.event {n₀ n : Nat} {t₀ t t' : Task} {m₀ m m' : Machine}
    (reach : Reaches n₀ t₀ m₀ (n + 1) t m) (mem : .part t' m' ∈ t.events n m) :
    Reaches n₀ t₀ m₀ n t' m' := by
  cases t with
  | expr e => exact reach.step (Expr.eventCalled mem)
  | stmt s => exact reach.step (Stmt.eventCalled mem)
  | stmts ss => exact reach.inTurn mem
  | superclass e =>
    cases List.mem_singleton.mp mem
    exact reach.step .superclass
  | exprs es =>
    cases es with
    | nil => cases mem
    | cons e es =>
      rcases List.mem_cons.mp mem with same | mem
      · cases same
        exact reach.step .firstExpr
      · obtain ⟨v, m₁, first, mem⟩ := memFollowing.mp mem
        cases List.mem_singleton.mp mem
        exact reach.step (.laterExprs first)
  | call f args =>
    cases f with
    | function =>
      cases List.mem_singleton.mp mem
      exact reach.step .function
    | class_ c =>
      have mem : .part t' m' ∈ Value.callEvents (.class_ c) args m := mem
      unfold Value.callEvents at mem
      cases found : c.findMethod? Class.initializer with
      | none => simp [found] at mem
      | some r =>
        simp only [found] at mem
        obtain ⟨r', m₁, bound, mem⟩ := memFollowing.mp mem
        cases List.mem_singleton.mp mem
        exact reach.step (.construct found bound)
    | _ => cases mem
  | routine r args =>
    obtain ⟨b, m₁, run, begun⟩ := memFollowing.mp mem
    obtain ⟨bound, rfl⟩ := liftOk run
    cases List.mem_singleton.mp begun
    exact reach.step (.body bound)
  | loop cond body =>
    rcases List.mem_cons.mp mem with same | mem
    · cases same
      exact reach.step .loopCond
    · obtain ⟨v, m₁, first, mem⟩ := memFollowing.mp mem
      obtain ⟨again, m₂, second, mem⟩ := memFollowing.mp mem
      obtain ⟨truth, rfl⟩ := liftOk second
      cases again with
      | false => cases mem
      | true =>
        rcases List.mem_cons.mp mem with same | mem
        · cases same
          exact reach.step (.loopBody first truth)
        · obtain ⟨_, m₃, third, mem⟩ := memFollowing.mp mem
          cases List.mem_singleton.mp mem
          exact reach.step (.loopAgain first truth third)

section

variable {β : Type} {N : Notes β} {n₀ n : Nat} {t₀ t : Task} {m₀ m : Machine}

theorem Arrives.reaches {xs : List β} (h : Arrives N n₀ t₀ m₀ xs n t m) :
    Reaches n₀ t₀ m₀ n t m := by
  induction h with
  | start => exact .start
  | part _ events ih =>
    refine ih.event ?_
    rw [events]
    simp
  | later _ first ih => exact ih.later first

variable (N) in
theorem Reaches.arrives (h : Reaches n₀ t₀ m₀ n t m) : ∃ xs, Arrives N n₀ t₀ m₀ xs n t m := by
  induction h with
  | start => exact ⟨[], .start⟩
  | step _ next ih =>
    obtain ⟨xs, before⟩ := ih
    obtain ⟨earlier, later, events⟩ := List.append_of_mem next.event
    exact ⟨_, before.part events⟩
  | later _ first ih =>
    obtain ⟨xs, before⟩ := ih
    exact ⟨_, before.later first⟩

end

end Lox
