import Lox.Evaluation.Machine
import Lox.Proofs.Sequence

/-!
What the operations of the machine are made of. All but the making of objects and the setting of
properties and cells are put together from steps that leave the fields of instances and the cells of
arrays alone. They end early only with a fault, ask for nothing that was printed, and change the
environment only to declare a class.
-/

namespace Lox

structure Store.Rests (s s' : Store) : Prop where
  arrays : s'.arrays = s.arrays
  memory : s'.memory = s.memory

theorem Store.Rests.refl (s : Store) : s.Rests s := ⟨rfl, rfl⟩

theorem Store.Rests.trans {a b c : Store} (first : a.Rests b) (rest : b.Rests c) : a.Rests c :=
  ⟨rest.arrays.trans first.arrays, rest.memory.trans first.memory⟩

structure Store.Spares (s s' : Store) : Prop extends s.Rests s' where
  fields : s'.fields = s.fields

theorem Store.Spares.refl (s : Store) : s.Spares s := ⟨.refl s, rfl⟩

theorem Store.Spares.trans {a b c : Store} (first : a.Spares b) (rest : b.Spares c) : a.Spares c :=
  ⟨first.toRests.trans rest.toRests, rest.fields.trans first.fields⟩

namespace Eval

/- With `home`, the environment is not changed. -/
inductive Modest : (home : Bool) → {α : Type} → Eval α → Prop where
  | pure {home : Bool} {α : Type} (a : α) : Modest home (pure a)
  | fail {home : Bool} {α : Type} (f : Fault) : Modest home (fail f : Eval α)
  | bind {home : Bool} {α β : Type} {x : Eval α} {f : α → Eval β} (first : Modest home x)
      (rest : ∀ a, Modest home (f a)) : Modest home (x >>= f)
  | look {home : Bool} {α : Type} {f : Machine → Eval α}
      (same : ∀ m printed console, f { m with printed := printed, console := console } = f m)
      (rest : ∀ m, Modest home (f m)) : Modest home (get >>= f)
  | change {home : Bool} {α : Type} {f : Store → α × Store}
      (kept : ∀ s : Store, s.Spares (f s).2) : Modest home (change f)
  | onStore {home : Bool} {α : Type} {x : Stored α}
      (kept : ∀ s : Store, s.Spares (final (x s))) : Modest home (onStore x)
  | define {home : Bool} (name : String) (v : Value) : Modest home (defineHere name v)
  | write {home : Bool} (text : String) :
      Modest home (modify fun m => { m with console := m.console.push (text ++ "\n") })
  | keep {home : Bool} (v : Value) :
      Modest home (modify fun m => { m with printed := m.printed.push v })
  | tick {home : Bool} : Modest home readClock
  | setEnv (env : Env) : Modest false (setEnv env)

variable {home : Bool} {α : Type}

theorem modestLift (x : Except Fault α) : Modest home (lift x) := by
  cases x with
  | ok a => exact .pure a
  | error f => exact .fail f

theorem modestAsk (f : Store → Except Fault α) : Modest home (ask f) :=
  .look (fun _ _ _ => rfl) fun _ => modestLift _

theorem modestFresh : Modest home (change Store.freshId) := .change fun _ => ⟨⟨rfl, rfl⟩, rfl⟩

theorem modestEnter (env : Env) (b : Bindings Value) :
    Modest home (change fun s => s.enter env b) := .change fun _ => ⟨⟨rfl, rfl⟩, rfl⟩

theorem modestStamp (d : Datum) : Modest home (stamp d) := by
  unfold stamp
  split
  · split
    · exact .bind modestFresh fun _ => .pure _
    · exact .pure _
  · exact .pure _

theorem modestOpKind (op : Option Token) : Modest home (opKind op) := by
  cases op with
  | none => exact .fail _
  | some t => exact .pure _

theorem modestEmit (v : Value) : Modest home (emit v) := by
  refine .look (fun _ _ _ => rfl) fun m => ?_
  split
  · exact .bind (modestAsk _) fun text => .write text
  · exact .keep v

theorem modestAssign (env : Env) (t : Token) (v : Value) :
    Modest home (onStore (Store.assign env t v)) := by
  refine .onStore fun s => ?_
  unfold Store.assign
  cases s.holder? env t.lexeme <;> exact ⟨⟨rfl, rfl⟩, rfl⟩

theorem modestReadVariable (node : Nat) (t : Option Token) : Modest home (readVariable node t) := by
  refine .look (fun _ _ _ => rfl) fun m => ?_
  split
  · exact .bind (modestLift _) fun name => .look (fun _ _ _ => rfl) fun m => modestAsk _
  · exact .bind (modestLift _) fun name => modestAsk _

theorem modestWriteVariable (node : Nat) (t : Option Token) (v : Value) :
    Modest home (writeVariable node t v) := by
  refine .look (fun _ _ _ => rfl) fun m => .look (fun _ _ _ => rfl) fun m' => ?_
  split
  · exact .bind (modestLift _) fun f => .bind (modestLift _) fun name => .change fun _ => ⟨⟨rfl, rfl⟩, rfl⟩
  · exact .bind (modestLift _) fun name => modestAssign _ name v

theorem modestStamped {x : Eval Datum} (h : Modest home x) : Modest home (do stamp (← x)) :=
  .bind h modestStamp

theorem modestTold {x : Eval Bool} (h : Modest home x) (f : Bool → Bool) :
    Modest home (do return Value.bool (f (← x))) :=
  .bind h fun _ => .pure _

theorem modestBinary (op : Option Token) (l r : Value) : Modest home (binary op l r) := by
  refine .bind (modestOpKind op) fun k => ?_
  split
  · exact modestStamped (modestAsk _)
  · exact modestStamped (modestAsk _)
  · exact modestStamped (modestAsk _)
  · exact modestStamped (modestAsk _)
  · exact modestTold (modestLift _) fun b => b
  · exact modestTold (modestLift _) fun b => b
  · exact modestTold (modestLift _) fun b => b
  · exact modestTold (modestLift _) fun b => b
  · exact modestTold (modestAsk _) fun b => b
  · exact modestTold (modestAsk _) fun b => !b
  · exact .pure _

theorem modestUnary (op : Option Token) (v : Value) : Modest home (unary op v) := by
  refine .bind (modestOpKind op) fun k => ?_
  split
  · exact modestStamped (modestLift _)
  · exact modestStamped (modestLift _)
  · exact .pure _

theorem modestDecides (op : Option Token) (v : Value) : Modest home (decides op v) := by
  refine .bind (modestOpKind op) fun k => ?_
  split
  · exact modestLift _
  · exact .bind (modestLift _) fun _ => .pure _
  · exact .pure _

theorem modestArrayMember (id : Nat) (t : Token) :
    Modest home (onStore (Store.arrayMember id t)) := by
  refine .onStore fun s => ?_
  unfold Store.arrayMember
  split <;> exact ⟨⟨rfl, rfl⟩, rfl⟩

theorem modestFunctionValue (r : Routine) : Modest home (functionValue r) :=
  .bind (modestLift _) fun _ => .bind modestFresh fun _ => .pure _

theorem modestBindRoutine (r : Routine) (this : Value) : Modest home (bindRoutine r this) :=
  .bind (modestEnter _ _) fun _ => .pure _

theorem modestBind (r : Routine) (this : Value) : Modest home (Eval.bind r this) :=
  .bind (modestBindRoutine r this) modestFunctionValue

theorem modestProperty (this : Value) (id : Nat) (c : Class) (name : Token) :
    Modest home (property this id c name) := by
  refine .look (fun _ _ _ => rfl) fun m => ?_
  split
  · exact .pure _
  · split
    · exact modestBind _ _
    · exact .fail _

theorem modestGetProperty (object : Value) (t : Option Token) :
    Modest home (getProperty object t) := by
  cases object with
  | instance_ id c => exact .bind (modestLift _) fun name => modestProperty _ id c name
  | array id => exact .bind (modestLift _) fun name => modestArrayMember id name
  | _ => exact .fail _

theorem modestCheckSettable (object : Value) (t : Option Token) :
    Modest home (checkSettable object t) := by
  cases object with
  | instance_ => exact .pure _
  | array => exact .pure _
  | _ => exact .fail _

theorem modestSuperMethod (node : Nat) (t : Option Token) : Modest home (superMethod node t) := by
  refine .look (fun _ _ _ => rfl) fun m => .look (fun _ _ _ => rfl) fun m' => ?_
  split
  · exact .fail _
  · refine .bind (modestAsk _) fun base => .bind (modestAsk _) fun this => ?_
    split
    · refine .bind (modestLift _) fun name => ?_
      split
      · exact modestBind _ _
      · exact .fail _
    · exact .fail _

theorem modestDeclareClass (t : Option Token) (methods : List FunDecl) (base : Option Class) :
    Modest false (declareClass t methods base) := by
  -- what follows when the frame of the superclass is there
  have body : ∀ outer (name : Token), Modest false (do
      let table ← lift (methodTable (← get).env methods [])
      let v ← classValue name.lexeme table base
      setEnv outer
      onStore (Store.assign outer name v)) := by
    intro outer name
    have value : ∀ table, Modest false (classValue name.lexeme table base) :=
      fun table => .bind modestFresh fun _ => .pure _
    refine .look (fun _ _ _ => rfl) fun m => .bind (modestLift _) fun table => ?_
    exact .bind (value table) fun v => .bind (.setEnv outer) fun _ => modestAssign _ _ _
  refine .bind (modestLift _) fun name => .bind (.define _ _) fun _ => ?_
  refine .look (fun _ _ _ => rfl) fun m => ?_
  cases base with
  | none => exact body m.env name
  | some c => exact .bind (modestEnter _ _) fun env => .bind (.setEnv env) fun _ => body m.env name

end Eval
end Lox
