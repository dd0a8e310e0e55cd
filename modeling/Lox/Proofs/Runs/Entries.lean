import Lox.Evaluation.Run
import Lox.Proofs.Runs.Contents
import Lox.Proofs.Sequence
import Lox.Proofs.Trees

/-!
A run asks only for the entries of the nodes in its own code and in the routines that the store
holds. With other entries for other nodes it does the same.
-/

namespace Lox

structure Agreement where
  node : Nat → Prop
  entries : Locals
  others : Locals
  agree : ∀ n, node n → others.distance? n = entries.distance? n

namespace Agreement

variable (A : Agreement)

def Covers (nodes : List Nat) : Prop := ∀ n ∈ nodes, A.node n

def RoutineOk (r : Routine) : Prop := A.Covers r.decl.nodes

def ValueOk (v : Value) : Prop := v.Holds A.RoutineOk A.RoutineOk

structure MachineOk (m : Machine) : Prop where
  locals : m.locals = A.entries
  store : m.store.All A.ValueOk

def swap (m : Machine) : Machine := { m with locals := A.others }

def Ends {α : Type} (Q : α → Prop) : EStateM.Result Signal Machine α → Prop
  | .ok a m => A.MachineOk m ∧ Q a
  | .error e m => A.MachineOk m ∧ ∀ v, e = .returned v → A.ValueOk v

def Same {α : Type} (x : Eval α) (Q : α → Prop) : Prop :=
  ∀ m, A.MachineOk m → x (A.swap m) = onState A.swap (x m) ∧ A.Ends Q (x m)

end Agreement

open Eval

namespace Agreement

variable {A : Agreement} {α β : Type} {Q : α → Prop} {R : β → Prop}

theorem coversAppend {a b : List Nat} (h : A.Covers (a ++ b)) : A.Covers a ∧ A.Covers b :=
  List.forall_mem_append.mp h

theorem samePure {a : α} (h : Q a) : A.Same (pure a) Q := fun _ ok => ⟨rfl, ok, h⟩

theorem sameFail (f : Fault) : A.Same (fail f : Eval α) Q :=
  fun _ ok => ⟨rfl, ok, fun _ same => by cases same⟩

theorem sameOutOfFuel : A.Same (throw .outOfFuel : Eval α) Q :=
  fun _ ok => ⟨rfl, ok, fun _ same => by cases same⟩

theorem sameReturn {v : Value} (h : A.ValueOk v) : A.Same (throw (.returned v) : Eval α) Q :=
  fun _ ok => ⟨rfl, ok, fun _ same => by cases same; exact h⟩

theorem Same.bind {x : Eval α} {f : α → Eval β} (first : A.Same x Q)
    (rest : ∀ a, Q a → A.Same (f a) R) : A.Same (x >>= f) R := by
  intro m ok
  obtain ⟨same, ends⟩ := first m ok
  rw [bindRun, bindRun, same]
  cases run : x m with
  | ok a m' =>
    rw [run] at ends
    exact rest a ends.2 m' ends.1
  | error e m' =>
    rw [run] at ends
    exact ⟨rfl, ends⟩

theorem sameGet {f : Machine → Eval α} (same : ∀ m, A.MachineOk m → f (A.swap m) = f m)
    (rest : ∀ m, A.MachineOk m → A.Same (f m) Q) : A.Same (get >>= f) Q := by
  intro m ok
  rw [getBind, getBind, same m ok]
  exact rest m ok m ok

theorem sameModify {f : Machine → Machine} (same : ∀ m, f (A.swap m) = A.swap (f m))
    (keeps : ∀ m, A.MachineOk m → A.MachineOk (f m)) : A.Same (modify f) fun _ => True := by
  intro m ok
  refine ⟨?_, keeps m ok, trivial⟩
  rw [modifyRun, modifyRun, same m]
  rfl

theorem sameReadClock : A.Same readClock fun _ => True :=
  fun _ ok => ⟨rfl, ⟨ok.locals, ok.store⟩, trivial⟩

theorem sameLift {x : Except Fault α} (post : ∀ a, x = .ok a → Q a) : A.Same (lift x) Q := by
  cases x with
  | ok a => exact samePure (post a rfl)
  | error f => exact sameFail f

theorem sameAsk {f : Store → Except Fault α} (post : ∀ s a, s.All A.ValueOk → f s = .ok a → Q a) :
    A.Same (ask f) Q :=
  sameGet (fun _ _ => rfl) fun m ok => sameLift fun a given => post m.store a ok.store given

theorem sameChange {f : Store → α × Store} (keeps : ∀ s, s.All A.ValueOk → (f s).2.All A.ValueOk)
    (post : ∀ s, Q (f s).1) : A.Same (change f) Q :=
  fun m ok => ⟨rfl, ⟨ok.locals, keeps m.store ok.store⟩, post m.store⟩

theorem sameOnStore {x : Stored α}
    (ends : ∀ s, s.All A.ValueOk → (final (x s)).All A.ValueOk ∧ ∀ a s', x s = .ok a s' → Q a) :
    A.Same (onStore x) Q := by
  intro m ok
  obtain ⟨kept, post⟩ := ends m.store ok.store
  unfold onStore swap
  dsimp only
  cases run : x m.store with
  | ok a s' =>
    rw [run] at kept
    exact ⟨rfl, ⟨ok.locals, kept⟩, post a s' run⟩
  | error f s' =>
    rw [run] at kept
    exact ⟨rfl, ⟨ok.locals, kept⟩, fun _ same => by cases same⟩

theorem sameWithin {x : Eval α} (h : A.Same x Q) (env : Env) : A.Same (within env x) Q := by
  intro m ok
  have inner : A.MachineOk { m with env := env } := ⟨ok.locals, ok.store⟩
  obtain ⟨same, ends⟩ := h _ inner
  unfold within
  rw [show x { A.swap m with env := env } = onState A.swap (x { m with env := env }) from same]
  cases run : x { m with env := env } with
  | ok a m' =>
    rw [run] at ends
    exact ⟨rfl, ⟨ends.1.locals, ends.1.store⟩, ends.2⟩
  | error e m' =>
    rw [run] at ends
    exact ⟨rfl, ⟨ends.1.locals, ends.1.store⟩, ends.2⟩

theorem sameReturnedBy {x : Eval Unit} {Q : Unit → Prop} (h : A.Same x Q) :
    A.Same (returnedBy x) fun v => ∀ w, v = some w → A.ValueOk w := by
  intro m ok
  obtain ⟨same, ends⟩ := h m ok
  unfold returnedBy
  rw [same]
  cases run : x m with
  | ok a m' =>
    rw [run] at ends
    exact ⟨rfl, ends.1, fun w none => by cases none⟩
  | error e m' =>
    rw [run] at ends
    cases e with
    | fault f => exact ⟨rfl, ends⟩
    | returned v =>
      refine ⟨rfl, ends.1, ?_⟩
      rintro w ⟨⟩
      exact ends.2 v rfl
    | outOfFuel => exact ⟨rfl, ends⟩

theorem sameNamed (t : Option Token) : A.Same (Eval.named t) fun _ => True :=
  sameLift fun _ _ => trivial

theorem sameLexeme (t : Option Token) : A.Same (Eval.lexeme t) fun _ => True :=
  sameLift fun _ _ => trivial

theorem swapDistance {m : Machine} (h : A.MachineOk m) {node : Nat} (known : A.node node) :
    (A.swap m).locals.distance? node = m.locals.distance? node := by
  rw [h.locals]
  exact A.agree node known

theorem sameReadVariable {node : Nat} (known : A.node node) (t : Option Token) :
    A.Same (readVariable node t) A.ValueOk := by
  refine sameGet (fun m ok => ?_) fun m ok => ?_
  · dsimp only
    rw [swapDistance ok known]
  · split
    · refine (sameLexeme t).bind fun name _ => ?_
      refine sameGet (fun _ _ => rfl) fun m' _ => ?_
      exact sameAsk fun s v all read => all.readAt read
    · refine (sameNamed t).bind fun name _ => ?_
      exact sameAsk fun s v all read => all.read read

theorem sameAssign (env : Env) (t : Token) {v : Value} (value : A.ValueOk v) :
    A.Same (onStore (Store.assign env t v)) fun _ => True := by
  refine sameOnStore fun s all => ⟨?_, fun _ _ _ => trivial⟩
  unfold Store.assign
  split
  · exact all.define value _ _
  · exact all

theorem sameWriteVariable {node : Nat} (known : A.node node) (t : Option Token) {v : Value}
    (value : A.ValueOk v) : A.Same (writeVariable node t v) fun _ => True := by
  refine sameGet (fun _ _ => rfl) fun m _ => ?_
  refine sameGet (fun m' ok => ?_) fun m' ok => ?_
  · rw [swapDistance ok known]
  · split
    · refine (sameLift fun _ _ => trivial).bind fun f (_ : True) => ?_
      refine (sameLexeme t).bind fun name _ => ?_
      exact sameChange (fun s all => all.define value f name) fun _ => trivial
    · exact (sameNamed t).bind fun name _ => sameAssign _ name value

theorem sameStamp (d : Datum) : A.Same (stamp d) A.ValueOk := by
  unfold stamp
  split
  · split
    · exact (sameChange (fun _ all => all.freshId) fun _ => trivial).bind fun _ (_ : True) =>
        samePure trivial
    · exact samePure trivial
  · exact samePure trivial

theorem sameOpKind (op : Option Token) : A.Same (opKind op) fun _ => True := by
  cases op with
  | none => exact sameFail _
  | some t => exact samePure trivial

theorem sameStamped {x : Eval Datum} (h : A.Same x fun _ => True) :
    A.Same (do stamp (← x)) A.ValueOk :=
  h.bind fun d _ => sameStamp d

theorem sameTold {x : Eval Bool} (h : A.Same x fun _ => True) (f : Bool → Bool) :
    A.Same (do return .bool (f (← x))) A.ValueOk :=
  h.bind fun _ _ => samePure trivial

theorem sameBinary (op : Option Token) (l r : Value) : A.Same (binary op l r) A.ValueOk := by
  have compared : ∀ c, A.Same (lift (l.compare c r)) fun _ => True :=
    fun _ => sameLift fun _ _ => trivial
  have equal : A.Same (ask fun s => l.equal s r) fun _ => True := sameAsk fun _ _ _ _ => trivial
  have result : ∀ op, A.Same (ask fun s => l.arithmetic s.memory op r) fun _ => True :=
    fun _ => sameAsk fun _ _ _ _ => trivial
  refine (sameOpKind op).bind fun k _ => ?_
  split
  · exact sameStamped (result .add)
  · exact sameStamped (result .sub)
  · exact sameStamped (result .mul)
  · exact sameStamped (result .div)
  · exact sameTold (compared .greater) fun b => b
  · exact sameTold (compared .greaterEqual) fun b => b
  · exact sameTold (compared .less) fun b => b
  · exact sameTold (compared .lessEqual) fun b => b
  · exact sameTold equal fun b => b
  · exact sameTold equal fun b => !b
  · exact samePure trivial

theorem sameUnary (op : Option Token) (v : Value) : A.Same (unary op v) A.ValueOk := by
  refine (sameOpKind op).bind fun k _ => ?_
  split
  · exact sameStamped (sameLift fun _ _ => trivial)
  · exact sameStamped (sameLift fun _ _ => trivial)
  · exact samePure trivial

theorem sameTruth (v : Value) : A.Same (lift v.truth) fun _ => True := sameLift fun _ _ => trivial

theorem sameDecides (op : Option Token) (v : Value) : A.Same (decides op v) fun _ => True := by
  refine (sameOpKind op).bind fun k _ => ?_
  split
  · exact sameTruth v
  · exact (sameTruth v).bind fun _ _ => samePure trivial
  · exact samePure trivial

theorem sameEmit (v : Value) : A.Same (emit v) fun _ => True := by
  refine sameGet (fun _ _ => rfl) fun m _ => ?_
  split
  · refine (sameAsk fun _ _ _ _ => trivial).bind fun text (_ : True) => ?_
    exact sameModify (fun _ => rfl) fun _ ok => ⟨ok.locals, ok.store⟩
  · exact sameModify (fun _ => rfl) fun _ ok => ⟨ok.locals, ok.store⟩

theorem sameDefineHere (name : String) {v : Value} (value : A.ValueOk v) :
    A.Same (defineHere name v) fun _ => True :=
  sameModify (fun _ => rfl) fun m ok => ⟨ok.locals, ok.store.defineIn value m.env name⟩

theorem sameFunctionValue {r : Routine} (h : A.RoutineOk r) :
    A.Same (functionValue r) A.ValueOk := by
  refine (sameLexeme r.decl.name).bind fun name _ => ?_
  exact (sameChange (fun _ all => all.freshId) fun _ => trivial).bind fun _ (_ : True) =>
    samePure h

theorem sameBindRoutine {r : Routine} (h : A.RoutineOk r) {this : Value} (value : A.ValueOk this) :
    A.Same (bindRoutine r this) A.RoutineOk :=
  (sameChange (fun _ all => all.enter (Bindings.allOne value) r.closure) fun _ => trivial).bind
    fun _ (_ : True) => samePure h

theorem sameBind {r : Routine} (h : A.RoutineOk r) {this : Value} (value : A.ValueOk this) :
    A.Same (Eval.bind r this) A.ValueOk :=
  (sameBindRoutine h value).bind fun _ bound => sameFunctionValue bound

theorem sameProperty {id : Nat} {c : Class} (object : A.ValueOk (.instance_ id c)) (name : Token) :
    A.Same (property (.instance_ id c) id c name) A.ValueOk := by
  refine sameGet (fun _ _ => rfl) fun m ok => ?_
  split
  · next v field => exact samePure (ok.store.fields id _ v field)
  · split
    · next r found => exact sameBind (Class.Holds.found object found) object
    · exact sameFail _

theorem sameGetProperty {object : Value} (value : A.ValueOk object) (t : Option Token) :
    A.Same (getProperty object t) A.ValueOk := by
  cases object with
  | instance_ id c => exact (sameNamed t).bind fun name _ => sameProperty value name
  | array id =>
    refine (sameNamed t).bind fun name _ => sameOnStore fun s all => ?_
    unfold Store.arrayMember
    split
    · exact ⟨all.freshId, by rintro _ _ ⟨⟩; trivial⟩
    · exact ⟨all.freshId, by rintro _ _ ⟨⟩; trivial⟩
    · exact ⟨all, by rintro _ _ ⟨⟩; trivial⟩
    · exact ⟨all, by rintro _ _ ⟨⟩⟩
  | _ => exact sameFail _

theorem sameCheckSettable (object : Value) (t : Option Token) :
    A.Same (checkSettable object t) fun _ => True := by
  cases object with
  | instance_ => exact samePure trivial
  | array => exact samePure trivial
  | _ => exact sameFail _

theorem sameSetProperty (object : Value) (t : Option Token) {v : Value} (value : A.ValueOk v) :
    A.Same (setProperty object t v) fun _ => True := by
  cases object with
  | instance_ id c =>
    refine (sameLexeme t).bind fun name _ => ?_
    exact sameChange (fun s all => all.setField value id name) fun _ => trivial
  | array => exact sameFail _
  | _ => exact sameFail _

theorem sameSuperMethod {node : Nat} (known : A.node node) (t : Option Token) :
    A.Same (superMethod node t) A.ValueOk := by
  refine sameGet (fun _ _ => rfl) fun m _ => ?_
  refine sameGet (fun m' ok => ?_) fun m' _ => ?_
  · rw [swapDistance ok known]
  · split
    · exact sameFail _
    · refine (sameAsk fun _ _ all read => all.readAt read).bind fun base class' => ?_
      refine (sameAsk fun _ _ all read => all.readAt read).bind fun this value => ?_
      split
      · refine (sameNamed t).bind fun name _ => ?_
        split
        · next r found => exact sameBind (Class.Holds.found class' found) value
        · exact sameFail _
      · exact sameFail _

theorem coversMethod {fs : List FunDecl} (h : A.Covers (FunDecl.nodesOf fs)) {f : FunDecl}
    (mem : f ∈ fs) : A.Covers f.nodes := by
  induction fs with
  | nil => cases mem
  | cons g gs ih =>
    obtain ⟨head, tail⟩ := coversAppend h
    rcases List.mem_cons.mp mem with rfl | later
    · exact head
    · exact ih tail later

theorem sameMethodTable (env : Env) {methods : List FunDecl}
    (h : A.Covers (FunDecl.nodesOf methods)) :
    A.Same (lift (methodTable env methods [])) (Bindings.All A.RoutineOk) :=
  sameLift fun _ run => methodsAll run Bindings.allNil fun _ mem _ _ => coversMethod h mem

theorem sameClassValue (name : String) {table : Bindings Routine} (own : table.All A.RoutineOk)
    {base : Option Class} (inherited : ∀ c, base = some c → A.ValueOk (.class_ c)) :
    A.Same (classValue name table base) A.ValueOk := by
  refine (sameChange (fun _ all => all.freshId) fun _ => trivial).bind fun id (_ : True) => ?_
  refine samePure fun l mem => ?_
  rcases List.mem_cons.mp mem with rfl | later
  · exact own
  · cases base with
    | none => cases later
    | some c => exact inherited c rfl l later

theorem sameSetEnv (env : Env) : A.Same (setEnv env) fun _ => True :=
  sameModify (fun _ => rfl) fun _ ok => ⟨ok.locals, ok.store⟩

theorem sameDeclareClass (t : Option Token) {methods : List FunDecl}
    (h : A.Covers (FunDecl.nodesOf methods)) {base : Option Class}
    (inherited : ∀ c, base = some c → A.ValueOk (.class_ c)) :
    A.Same (declareClass t methods base) fun _ => True := by
  -- what follows when the frame of the superclass is there
  have body : ∀ outer (name : Token), A.Same (do
      let table ← lift (methodTable (← get).env methods [])
      let v ← classValue name.lexeme table base
      setEnv outer
      onStore (Store.assign outer name v)) fun _ => True := by
    intro outer name
    refine sameGet (fun _ _ => rfl) fun m _ => ?_
    refine (sameMethodTable m.env h).bind fun table own => ?_
    refine (sameClassValue name.lexeme own inherited).bind fun v value => ?_
    exact (sameSetEnv outer).bind fun _ _ => sameAssign outer name value
  refine (sameNamed t).bind fun name _ => ?_
  refine (sameDefineHere name.lexeme (v := .nil) trivial).bind fun _ _ => ?_
  refine sameGet (fun _ _ => rfl) fun m _ => ?_
  cases base with
  | none => exact body m.env name
  | some c =>
    refine (sameChange (fun s all => all.enter (Bindings.allOne (inherited c rfl)) m.env)
      fun _ => trivial).bind fun env (_ : True) => ?_
    exact (sameSetEnv env).bind fun _ _ => body m.env name

structure Runs (A : Agreement) (n : Nat) : Prop where
  evaluate : ∀ e, A.Covers e.nodes → A.Same (evaluate n e) A.ValueOk
  evaluateAll : ∀ es, A.Covers (Expr.nodesOf es) →
    A.Same (evaluateAll n es) fun vs => ∀ v ∈ vs, A.ValueOk v
  call : ∀ f args, A.ValueOk f → (∀ v ∈ args, A.ValueOk v) → A.Same (call n f args) A.ValueOk
  callRoutine : ∀ r args, A.RoutineOk r → (∀ v ∈ args, A.ValueOk v) →
    A.Same (callRoutine n r args) A.ValueOk
  execute : ∀ s, A.Covers s.nodes → A.Same (execute n s) fun _ => True
  executeAll : ∀ ss, A.Covers (Stmt.nodesOf ss) → A.Same (executeAll n ss) fun _ => True
  loop : ∀ cond body, A.Covers cond.nodes → A.Covers body.nodes →
    A.Same (loop n cond body) fun _ => True
  superclass : ∀ e, A.Covers e.nodes → A.Same (superclass n e) fun c => A.ValueOk (.class_ c)

theorem runsZero : Runs A 0 where
  evaluate _ _ := sameOutOfFuel
  evaluateAll _ _ := sameOutOfFuel
  call _ _ _ _ := sameOutOfFuel
  callRoutine _ _ _ _ := sameOutOfFuel
  execute _ _ := sameOutOfFuel
  executeAll _ _ := sameOutOfFuel
  loop _ _ _ _ := sameOutOfFuel
  superclass _ _ := sameOutOfFuel

section

variable {n : Nat} (runs : Runs A n)

include runs

theorem sameEvaluate {e : Expr} (h : A.Covers e.nodes) : A.Same (evaluate (n + 1) e) A.ValueOk := by
  cases e with
  | missing => exact sameFail _
  | literal d => exact samePure trivial
  | reference node name => exact sameReadVariable (h node (by simp [Expr.nodes])) name
  | this node keyword => exact sameReadVariable (h node (by simp [Expr.nodes])) keyword
  | super node keyword method => exact sameSuperMethod (h node (by simp [Expr.nodes])) method
  | assign node name value =>
    obtain ⟨inner, own⟩ := coversAppend h
    refine (runs.evaluate value inner).bind fun v ok => ?_
    exact (sameWriteVariable (own node (by simp)) name ok).bind fun _ _ => samePure ok
  | unary op right => exact (runs.evaluate right h).bind fun v _ => sameUnary op v
  | binary left op right =>
    obtain ⟨l, r⟩ := coversAppend h
    refine (runs.evaluate left l).bind fun v _ => ?_
    exact (runs.evaluate right r).bind fun w _ => sameBinary op v w
  | logical left op right =>
    obtain ⟨l, r⟩ := coversAppend h
    refine (runs.evaluate left l).bind fun v ok => ?_
    refine (sameDecides op v).bind fun b _ => ?_
    split
    · exact samePure ok
    · exact runs.evaluate right r
  | grouping inner => exact runs.evaluate inner h
  | call callee paren args =>
    obtain ⟨l, r⟩ := coversAppend h
    refine (runs.evaluate callee l).bind fun f ok => ?_
    refine (runs.evaluateAll args r).bind fun vs values => ?_
    split
    · exact sameFail _
    · split
      · exact runs.call f vs ok values
      · exact sameFail _
  | get object name => exact (runs.evaluate object h).bind fun o ok => sameGetProperty ok name
  | set object name value =>
    obtain ⟨l, r⟩ := coversAppend h
    refine (runs.evaluate object l).bind fun o _ => ?_
    refine (sameCheckSettable o name).bind fun _ _ => ?_
    refine (runs.evaluate value r).bind fun v ok => ?_
    exact (sameSetProperty o name ok).bind fun _ _ => samePure ok

theorem sameEvaluateAll {es : List Expr} (h : A.Covers (Expr.nodesOf es)) :
    A.Same (evaluateAll (n + 1) es) fun vs => ∀ v ∈ vs, A.ValueOk v := by
  cases es with
  | nil => exact samePure (by simp)
  | cons e es =>
    obtain ⟨l, r⟩ := coversAppend h
    refine (runs.evaluate e l).bind fun v ok => ?_
    exact (runs.evaluateAll es r).bind fun vs values =>
      samePure (List.forall_mem_cons.mpr ⟨ok, values⟩)

theorem sameCall {f : Value} {args : List Value} (function : A.ValueOk f)
    (values : ∀ v ∈ args, A.ValueOk v) : A.Same (call (n + 1) f args) A.ValueOk := by
  unfold Eval.call
  split
  · exact runs.callRoutine _ _ function values
  · next c =>
    refine Same.bind (Q := A.ValueOk) (sameChange (fun _ all => all.newInstance c) fun _ => function)
      fun this ok => ?_
    split
    · next r found =>
      refine (sameBindRoutine (Class.Holds.found function found) ok).bind fun r' bound => ?_
      exact (runs.callRoutine r' args bound values).bind fun _ _ => samePure ok
    · exact samePure ok
  · exact sameAsk fun _ _ all read => all.readCell trivial read
  · next id index v rest =>
    have value : A.ValueOk v := values v (by simp)
    refine Same.bind (Q := fun _ => True) (sameOnStore fun s all => ⟨?_, fun _ _ _ => trivial⟩)
      fun _ _ => samePure value
    unfold Store.writeCell
    split
    · exact all.setElement value id _
    · exact all
  · exact sameReadClock.bind fun x _ => sameStamp _
  · refine sameOnStore fun s all => ?_
    unfold Store.makeArray
    split
    · refine ⟨all.newArray fun w mem => ?_, by rintro _ _ ⟨⟩; trivial⟩
      rw [(Array.mem_replicate.mp mem).2]
      trivial
    · exact ⟨all, by rintro _ _ ⟨⟩⟩
  · exact sameFail _

theorem sameCallRoutine {r : Routine} {args : List Value} (routine : A.RoutineOk r)
    (values : ∀ v ∈ args, A.ValueOk v) : A.Same (callRoutine (n + 1) r args) A.ValueOk := by
  have inner : A.Covers (Stmt.nodesOf r.decl.body) := by
    unfold RoutineOk at routine
    cases decl : r.decl with
    | mk name params body =>
      rw [decl] at routine
      exact routine
  refine (sameLift fun b run => parametersAll run Bindings.allNil values).bind fun b bound => ?_
  refine (sameChange (fun s all => all.enter bound r.closure) fun _ => trivial).bind
    fun env (_ : True) => ?_
  refine (sameReturnedBy (sameWithin (runs.executeAll _ inner) env)).bind fun o returned => ?_
  split
  · exact samePure trivial
  · next v =>
    split
    · exact sameAsk fun _ _ all read => all.readAt read
    · exact samePure (returned v rfl)

theorem sameExecute {s : Stmt} (h : A.Covers s.nodes) :
    A.Same (execute (n + 1) s) fun _ => True := by
  cases s with
  | missing => exact sameFail _
  | expression e => exact (runs.evaluate e h).bind fun _ _ => samePure trivial
  | print e => exact (runs.evaluate e h).bind fun v _ => sameEmit v
  | var name init =>
    have body : ∀ v, A.ValueOk v → A.Same (do defineHere (← Eval.lexeme name) v) fun _ => True :=
      fun v ok => (sameLexeme name).bind fun x _ => sameDefineHere x ok
    unfold Eval.execute
    dsimp only
    split
    · exact body .nil trivial
    · exact (runs.evaluate init h).bind body
  | block body =>
    refine sameGet (fun _ _ => rfl) fun m _ => ?_
    refine (sameChange (fun s all => all.enter Bindings.allNil m.env) fun _ => trivial).bind
      fun env (_ : True) => ?_
    exact sameWithin (runs.executeAll body h) env
  | if_ cond yes no =>
    obtain ⟨c, branches⟩ := coversAppend h
    obtain ⟨y, o⟩ := coversAppend branches
    refine (runs.evaluate cond c).bind fun v _ => (sameTruth v).bind fun b _ => ?_
    split
    · exact runs.execute yes y
    · split
      · exact runs.execute no o
      · exact samePure trivial
  | while_ cond body =>
    obtain ⟨c, b⟩ := coversAppend h
    exact runs.loop cond body c b
  | function f =>
    refine sameGet (fun _ _ => rfl) fun m _ => ?_
    refine (sameFunctionValue (r := ⟨f, m.env, false⟩) h).bind fun v ok => ?_
    exact (sameLexeme f.name).bind fun x _ => sameDefineHere x ok
  | return_ keyword value =>
    unfold Eval.execute
    dsimp only
    split
    · exact sameReturn (v := .nil) trivial
    · exact (runs.evaluate value h).bind fun v ok => sameReturn ok
  | class_ name methods base =>
    obtain ⟨m, b⟩ := coversAppend h
    unfold Eval.execute
    dsimp only
    split
    · have none : ∀ c, Option.none = some c → A.ValueOk (.class_ c) := by rintro _ ⟨⟩
      exact sameDeclareClass name m none
    · have given : A.Same (some <$> superclass n base)
          fun o => ∀ c, o = some c → A.ValueOk (.class_ c) :=
        (runs.superclass base b).bind fun c ok => samePure (by rintro _ ⟨⟩; exact ok)
      exact given.bind fun o ok => sameDeclareClass name m ok

theorem sameInOrder {ss : List Stmt} (h : A.Covers (Stmt.nodesOf ss)) :
    A.Same (inOrder (execute n) ss) fun _ => True := by
  induction ss with
  | nil => exact samePure trivial
  | cons s ss ih =>
    obtain ⟨l, r⟩ := coversAppend h
    exact (runs.execute s l).bind fun _ _ => ih r

theorem sameLoop {cond : Expr} {body : Stmt} (c : A.Covers cond.nodes) (b : A.Covers body.nodes) :
    A.Same (loop (n + 1) cond body) fun _ => True := by
  refine (runs.evaluate cond c).bind fun v _ => (sameTruth v).bind fun again _ => ?_
  split
  · exact (runs.execute body b).bind fun _ _ => runs.loop cond body c b
  · exact samePure trivial

theorem sameSuperclass {e : Expr} (h : A.Covers e.nodes) :
    A.Same (superclass (n + 1) e) fun c => A.ValueOk (.class_ c) := by
  refine (runs.evaluate e h).bind fun v ok => ?_
  split
  · exact samePure ok
  · exact sameFail _

end

theorem runs (A : Agreement) (n : Nat) : Runs A n := by
  induction n with
  | zero => exact runsZero
  | succ n ih =>
    exact {
      evaluate := fun _ h => sameEvaluate ih h
      evaluateAll := fun _ h => sameEvaluateAll ih h
      call := fun _ _ function values => sameCall ih function values
      callRoutine := fun _ _ routine values => sameCallRoutine ih routine values
      execute := fun _ h => sameExecute ih h
      executeAll := fun _ h => sameInOrder ih h
      loop := fun _ _ c b => sameLoop ih c b
      superclass := fun _ h => sameSuperclass ih h }

end Agreement
end Lox
