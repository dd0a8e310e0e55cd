import Lox.Proofs.Runs.Faults
import Lox.Proofs.Runs.Frames
import Lox.Proofs.Runs.Reach

/-!
Every machine that a run comes to fits the part of the program it is at: the environment has a frame
for each scope around the part, opened for that scope, and every routine in the store has such an
environment for its own place. So no run ends in a fault of the scopes.
-/

namespace Lox

structure Start where
  body : List Stmt
  fuel : Nat
  machine : Machine

namespace Start

variable (S : Start)

def Reaches (n : Nat) (t : Task) (m : Machine) : Prop :=
  Lox.Reaches S.fuel (.stmts S.body) S.machine n t m

def Opened (σ : Site) (env : Env) : Prop :=
  Lox.Opened S.fuel (.stmts S.body) S.machine σ env

def Placed (s : Store) (env : Env) (p : Part) : Prop :=
  ∃ c, Stands S.body c p ∧ Fits S.Opened s env c.scopes

def FunctionOk (s : Store) (r : Routine) : Prop :=
  r.isInitializer = false ∧ ∃ kind, S.Placed s r.closure (.function r.decl kind)

/- A method waits for the frame of its receiver. -/
def MethodOk (s : Store) (r : Routine) : Prop :=
  r.isInitializer = false ∧ ∃ c kind outer, Stands S.body c (.function r.decl kind) ∧
    c.scopes = (.this r.decl, [("this", true)]) :: outer ∧ Fits S.Opened s r.closure outer

def ValueOk (s : Store) (v : Value) : Prop :=
  v.Holds (S.FunctionOk s) (S.MethodOk s)

structure MachineOk (m : Machine) : Prop where
  locals : m.locals = S.machine.locals
  store : m.store.All (S.ValueOk m.store)

def Sits (t : Task) (m : Machine) : Prop :=
  S.MachineOk m ∧ match t with
    | .expr e => S.Placed m.store m.env (.expr e)
    | .exprs es => S.Placed m.store m.env (.exprs es)
    | .call f args => S.ValueOk m.store f ∧ ∀ a ∈ args, S.ValueOk m.store a
    | .routine r args => S.FunctionOk m.store r ∧ ∀ a ∈ args, S.ValueOk m.store a
    | .stmt s => S.Placed m.store m.env (.stmt s)
    | .stmts ss => S.Placed m.store m.env (.stmts ss)
    | .loop cond s => S.Placed m.store m.env (.stmt (.while_ cond s))
    | .superclass e => S.Placed m.store m.env (.expr e)

structure Done (m m' : Machine) : Prop where
  env : m'.env = m.env
  grows : m.store.Grows m'.store
  ok : S.MachineOk m'

def Stopped (m : Machine) : Signal → Machine → Prop
  | .returned v, m' => S.Done m m' ∧ S.ValueOk m'.store v
  | .fault f, _ => f.ofScope = false
  | .outOfFuel, _ => True

def Good {α : Type} (x : Eval α) (m : Machine) (Q : α → Machine → Prop) : Prop :=
  match x m with
  | .ok a m' => S.Done m m' ∧ Q a m'
  | .error e m' => S.Stopped m e m'

def Valued (v : Value) (m : Machine) : Prop := S.ValueOk m.store v

end Start

variable {S : Start} {s s' : Store} {m m' m'' : Machine} {α β : Type}

theorem placedGrow {env : Env} {p : Part} (h : S.Placed s env p) (grows : s.Grows s') :
    S.Placed s' env p := by
  obtain ⟨c, stands, fits⟩ := h
  exact ⟨c, stands, fits.grow grows⟩

theorem functionGrow {r : Routine} (h : S.FunctionOk s r) (grows : s.Grows s') :
    S.FunctionOk s' r := by
  obtain ⟨plain, kind, placed⟩ := h
  exact ⟨plain, kind, placedGrow placed grows⟩

theorem methodGrow {r : Routine} (h : S.MethodOk s r) (grows : s.Grows s') : S.MethodOk s' r := by
  obtain ⟨plain, c, kind, outer, stands, scopes, fits⟩ := h
  exact ⟨plain, c, kind, outer, stands, scopes, fits.grow grows⟩

theorem valueGrow {v : Value} (h : S.ValueOk s v) (grows : s.Grows s') : S.ValueOk s' v :=
  h.mono (fun _ h => functionGrow h grows) fun _ h => methodGrow h grows

theorem valueDatum (s : Store) (d : Datum) : S.ValueOk s (.datum d) := trivial

namespace Start

theorem Done.refl (h : S.MachineOk m) : S.Done m m := ⟨rfl, .refl _, h⟩

theorem Done.trans (first : S.Done m m') (rest : S.Done m' m'') : S.Done m m'' :=
  ⟨rest.env.trans first.env, first.grows.trans rest.grows, rest.ok⟩

theorem Done.placed (h : S.Done m m') {p : Part} (placed : S.Placed m.store m.env p) :
    S.Placed m'.store m'.env p := by
  rw [h.env]
  exact placedGrow placed h.grows

theorem Done.value (h : S.Done m m') {v : Value} (ok : S.ValueOk m.store v) :
    S.ValueOk m'.store v := valueGrow ok h.grows

theorem doneStore (h : S.MachineOk m) (grows : m.store.Grows s')
    (change : m.store.All (S.ValueOk s') → s'.All (S.ValueOk s')) :
    S.Done m { m with store := s' } :=
  ⟨rfl, grows, h.locals, change (h.store.mono fun _ ok => valueGrow ok grows)⟩

section

variable {x : Eval α} {f : α → Eval β} {Q Q' : α → Machine → Prop} {P : β → Machine → Prop}

theorem Done.stopped (first : S.Done m m') {e : Signal} (rest : S.Stopped m' e m'') :
    S.Stopped m e m'' := by
  cases e with
  | fault f => exact rest
  | returned v => exact ⟨first.trans rest.1, rest.2⟩
  | outOfFuel => trivial

theorem Good.bind (first : S.Good x m Q)
    (rest : ∀ a m', x m = .ok a m' → S.Done m m' → Q a m' → S.Good (f a) m' P) :
    S.Good (x >>= f) m P := by
  unfold Good at first ⊢
  rw [bindRun]
  cases run : x m with
  | ok a m' =>
    rw [run] at first
    obtain ⟨done, post⟩ := first
    have next := rest a m' run done post
    unfold Good at next
    dsimp only
    cases last : f a m' with
    | ok b m'' =>
      rw [last] at next
      exact ⟨done.trans next.1, next.2⟩
    | error e m'' =>
      rw [last] at next
      exact done.stopped next
  | error e m' =>
    rw [run] at first
    exact first

theorem Good.after {a : α} (run : x m = .ok a m) (rest : S.Good (f a) m P) :
    S.Good (x >>= f) m P := by
  unfold Good at rest ⊢
  rw [bindRun, run]
  exact rest

theorem Good.from {y : Eval α} (done : S.Done m m') (same : x m = y m') (rest : S.Good y m' Q) :
    S.Good x m Q := by
  unfold Good at rest ⊢
  rw [same]
  cases run : y m' with
  | ok a m'' =>
    rw [run] at rest
    exact ⟨done.trans rest.1, rest.2⟩
  | error e m'' =>
    rw [run] at rest
    exact done.stopped rest

theorem Good.mono (h : S.Good x m Q) (weaker : ∀ a m', S.Done m m' → Q a m' → Q' a m') :
    S.Good x m Q' := by
  unfold Good at h ⊢
  cases run : x m with
  | ok a m' =>
    rw [run] at h
    exact ⟨h.1, weaker a m' h.1 h.2⟩
  | error e m' =>
    rw [run] at h
    exact h

theorem goodPure (h : S.MachineOk m) {a : α} (post : Q a m) : S.Good (pure a) m Q :=
  ⟨.refl h, post⟩

theorem goodFail {f : Fault} (h : f.ofScope = false) : S.Good (Eval.fail f : Eval α) m Q := h

theorem goodLift (h : S.MachineOk m) {x : Except Fault α} (mild : Mild x)
    (post : ∀ a, x = .ok a → Q a m) : S.Good (Eval.lift x) m Q := by
  cases x with
  | ok a => exact goodPure h (post a rfl)
  | error f => exact goodFail (mild f rfl)

theorem goodAsk (h : S.MachineOk m) {x : Store → Except Fault α} (mild : Mild (x m.store))
    (post : ∀ a, x m.store = .ok a → Q a m) : S.Good (Eval.ask x) m Q :=
  goodLift h mild post

theorem askRun {x : Store → Except Fault α} {a : α} (h : x m.store = .ok a) :
    Eval.ask x m = .ok a m := by
  show Eval.lift (x m.store) m = .ok a m
  rw [h]
  rfl

theorem goodChange {x : Store → α × Store} (h : S.MachineOk m)
    (grows : m.store.Grows (x m.store).2)
    (change : m.store.All (S.ValueOk (x m.store).2) → (x m.store).2.All (S.ValueOk (x m.store).2))
    (post : Q (x m.store).1 { m with store := (x m.store).2 }) : S.Good (Eval.change x) m Q :=
  ⟨doneStore h grows change, post⟩

end

theorem goodStamp (h : S.MachineOk m) (d : Datum) : S.Good (Eval.stamp d) m S.Valued := by
  unfold Eval.stamp
  split
  · split
    · exact Good.bind (Q := fun _ _ => True)
        (goodChange h (.sameFrames rfl) Store.All.freshId trivial)
        fun _ _ _ done _ => goodPure done.ok (valueDatum _ _)
    · exact goodPure h (valueDatum _ _)
  · exact goodPure h (valueDatum _ _)

theorem goodOpKind (h : S.MachineOk m) (op : Option Token) :
    S.Good (Eval.opKind op) m fun _ _ => True := by
  cases op with
  | none => exact goodFail rfl
  | some t => exact goodPure h trivial

theorem goodStamped {x : Eval Datum} (h : S.Good x m fun _ _ => True) :
    S.Good (do Eval.stamp (← x)) m S.Valued :=
  h.bind fun _ _ _ done (_ : True) => goodStamp done.ok _

theorem goodArithmetic (h : S.MachineOk m) (op : Arithmetic) (l r : Value) :
    S.Good (do Eval.stamp (← Eval.ask fun s => l.arithmetic s.memory op r)) m S.Valued :=
  goodStamped (goodAsk h (mildArithmetic m.store.memory op l r) fun _ _ => trivial)

theorem goodCompared (h : S.MachineOk m) (op : Comparison) (l r : Value) :
    S.Good (do return .bool (← Eval.lift (l.compare op r))) m S.Valued :=
  (goodLift h (mildCompare op l r) fun _ _ => trivial).bind fun _ _ _ done (_ : True) =>
    goodPure done.ok (valueDatum _ _)

theorem goodEqual (h : S.MachineOk m) (l r : Value) (f : Bool → Bool) :
    S.Good (do return .bool (f (← Eval.ask fun s => l.equal s r))) m S.Valued :=
  (goodAsk h (mildEqual m.store l r) fun _ _ => trivial).bind fun _ _ _ done (_ : True) =>
    goodPure done.ok (valueDatum _ _)

theorem goodBinary (h : S.MachineOk m) (op : Option Token) (l r : Value) :
    S.Good (Eval.binary op l r) m S.Valued := by
  refine (goodOpKind h op).bind fun k m' _ done _ => ?_
  have h := done.ok
  split
  · exact goodArithmetic h .add l r
  · exact goodArithmetic h .sub l r
  · exact goodArithmetic h .mul l r
  · exact goodArithmetic h .div l r
  · exact goodCompared h .greater l r
  · exact goodCompared h .greaterEqual l r
  · exact goodCompared h .less l r
  · exact goodCompared h .lessEqual l r
  · exact goodEqual h l r fun same => same
  · exact goodEqual h l r fun same => !same
  · exact goodPure h (valueDatum _ _)

theorem goodUnary (h : S.MachineOk m) (op : Option Token) (v : Value) :
    S.Good (Eval.unary op v) m S.Valued := by
  refine (goodOpKind h op).bind fun k m' _ done _ => ?_
  have h := done.ok
  split
  · exact goodStamped (goodLift h (mildNegate v) fun _ _ => trivial)
  · exact goodStamped (goodLift h (mildComplement v) fun _ _ => trivial)
  · exact goodPure h (valueDatum _ _)

theorem goodDecides (h : S.MachineOk m) (op : Option Token) (v : Value) :
    S.Good (Eval.decides op v) m fun _ _ => True := by
  refine (goodOpKind h op).bind fun k m' _ done _ => ?_
  have h := done.ok
  split
  · exact goodLift h (mildTruth v) fun _ _ => trivial
  · exact (goodLift h (mildTruth v) fun _ _ => trivial).bind fun _ _ _ done (_ : True) =>
      goodPure done.ok trivial
  · exact goodPure h trivial

theorem doneStill {m m' : Machine} (h : S.MachineOk m) (store : m'.store = m.store)
    (env : m'.env = m.env) (locals : m'.locals = m.locals) : S.Done m m' := by
  refine ⟨env, .sameFrames (by rw [store]), locals.trans h.locals, ?_⟩
  rw [store]
  exact h.store

theorem goodReadClock (h : S.MachineOk m) : S.Good Eval.readClock m fun _ _ => True :=
  ⟨doneStill h rfl rfl rfl, trivial⟩

theorem goodEmit (h : S.MachineOk m) (v : Value) : S.Good (Eval.emit v) m fun _ _ => True := by
  refine Good.after (getRun m) ?_
  split
  · refine (goodAsk h (mildShown m.store v) fun _ _ => trivial).bind
      fun text m'' _ done (_ : True) => ?_
    exact ⟨doneStill done.ok rfl rfl rfl, trivial⟩
  · exact ⟨doneStill h rfl rfl rfl, trivial⟩

theorem goodOnStore {x : Stored α} {Q : α → Machine → Prop} (h : S.MachineOk m)
    (ends : ∀ a s', x m.store = .ok a s' → m.store.Grows s' ∧
      (m.store.All (S.ValueOk s') → s'.All (S.ValueOk s')) ∧ Q a { m with store := s' })
    (mild : ∀ f s', x m.store = .error f s' → f.ofScope = false) :
    S.Good (Eval.onStore x) m Q := by
  unfold Good Eval.onStore
  dsimp only
  cases last : x m.store with
  | ok a s' =>
    obtain ⟨grows, change, post⟩ := ends a s' last
    exact ⟨doneStore h grows change, post⟩
  | error f s' => exact mild f s' last

theorem goodNamed (h : S.MachineOk m) (t : Option Token) :
    S.Good (Eval.named t) m fun u _ => t = some u := by
  cases t with
  | none => exact goodFail rfl
  | some u => exact goodPure h rfl

theorem goodLexeme (h : S.MachineOk m) (t : Option Token) :
    S.Good (Eval.lexeme t) m fun name _ => ∃ u, t = some u ∧ u.lexeme = name := by
  cases t with
  | none => exact goodFail rfl
  | some u => exact goodPure h ⟨u, rfl, rfl⟩

end Start

structure Located (c : Context) (t : Option Token) (d : Nat) (u : Token) (σ : Site)
    (names : Scope) : Prop where
  token : t = some u
  depth : c.depth? u.lexeme = some d
  scope : c.scopes[d]? = some (σ, names)
  has : names.has u.lexeme = true

theorem Charted.located {L : Locals} {body : List Stmt} (chart : Charted L body) {c : Context}
    {e : Expr} {node d : Nat} {t : Option Token} (stands : Stands body c (.expr e))
    (use : e.use? = some (node, t)) (entry : L.distance? node = some d) :
    ∃ u σ names, Located c t d u σ names := by
  rw [chart.distance stands use] at entry
  obtain ⟨u, rfl, depth⟩ := Option.bind_eq_some_iff.mp entry
  obtain ⟨σ, names, scope, has⟩ := depthFound depth
  exact ⟨u, σ, names, rfl, depth, scope, has⟩

def Expr.isAssign : Expr → Bool
  | .assign .. => true
  | _ => false

theorem wordLexeme {k : Keyword} {t : Option Token} (h : IsWord k t) {u : Token}
    (given : t = some u) : u.lexeme = k.word := by
  obtain ⟨v, rfl, lexeme⟩ := h
  cases given
  exact lexeme

theorem Charted.ready' {L : Locals} {body : List Stmt} (chart : Charted L body) {c : Context}
    {e : Expr} {node d : Nat} {t : Option Token} {u : Token} {σ : Site} {names : Scope}
    (stands : Stands body c (.expr e)) (use : e.use? = some (node, t)) (reads : e.isAssign = false)
    (place : Located c t d u σ names) : names.get? u.lexeme = some true := by
  have shaped := stands.shaped chart.shaped
  have classed := (stands.classed chart.shaped).1
  have outer := stands.ready.1
  cases e with
  | reference =>
    cases use
    obtain ⟨rfl, depth, scope, has⟩ := place
    exact outer.at scope has (chart.ready stands)
  | this =>
    cases use
    have word : u.lexeme = "this" := wordLexeme shaped place.token
    obtain ⟨k, inside⟩ := Option.isSome_iff_exists.mp (chart.inClass stands)
    rw [inside] at classed
    obtain ⟨d', f, depth, scope⟩ := depthThis classed
    have same : some d = some d' := by
      rw [← place.depth, word]
      exact depth
    cases same
    cases place.scope.symm.trans scope
    rw [word]
    rfl
  | super =>
    cases use
    have word : u.lexeme = "super" := wordLexeme shaped place.token
    rw [chart.inSubclass stands] at classed
    obtain ⟨d', f, name, methods, depth, -, scope⟩ := depthSuper classed
    have same : some d = some (d' + 1) := by
      rw [← place.depth, word]
      exact depth
    cases same
    cases place.scope.symm.trans scope
    rw [word]
    rfl
  | assign => cases reads
  | _ => cases use

namespace Start

theorem readsHere (chart : Charted S.machine.locals S.body) {e : Expr} {node d : Nat}
    {t : Option Token} (placed : S.Placed m.store m.env (.expr e))
    (use : e.use? = some (node, t)) (reads : e.isAssign = false)
    (entry : S.machine.locals.distance? node = some d) :
    ∃ u v, t = some u ∧ m.store.readAt m.env d u.lexeme = .ok v := by
  obtain ⟨c, stands, fits⟩ := placed
  obtain ⟨u, σ, names, place⟩ := chart.located stands use entry
  obtain ⟨v, read⟩ := fits.readAt place.scope (chart.ready' stands use reads place)
  exact ⟨u, v, place.token, read⟩

theorem goodReadVariable (chart : Charted S.machine.locals S.body) (h : S.MachineOk m) {e : Expr}
    {node : Nat} {t : Option Token} (placed : S.Placed m.store m.env (.expr e))
    (use : e.use? = some (node, t)) (reads : e.isAssign = false) :
    S.Good (Eval.readVariable node t) m S.Valued := by
  refine Good.after (getRun m) ?_
  rw [h.locals]
  cases entry : S.machine.locals.distance? node with
  | some d =>
    obtain ⟨u, v, rfl, read⟩ := readsHere chart placed use reads entry
    refine Good.after (x := Eval.lexeme (some u)) rfl ?_
    refine Good.after (getRun m) ?_
    refine goodAsk h ?_ fun w read' => h.store.readAt read'
    rw [read]
    exact mildOk v
  | none =>
    refine (goodNamed h t).bind fun u _ _ done _ => ?_
    exact goodAsk done.ok (mildRead _ _ _) fun v read => done.ok.store.read read

theorem goodWriteVariable (chart : Charted S.machine.locals S.body) (h : S.MachineOk m) {e : Expr}
    {node : Nat} {t : Option Token} (placed : S.Placed m.store m.env (.expr e))
    (use : e.use? = some (node, t)) (free : Free t) {v : Value} (value : S.ValueOk m.store v) :
    S.Good (Eval.writeVariable node t v) m fun _ _ => True := by
  obtain ⟨c, stands, fits⟩ := placed
  have defines : ∀ (u : Token) (f : FrameId), t = some u →
      m.store.Grows (m.store.define f u.lexeme v) ∧
        (m.store.All (S.ValueOk (m.store.define f u.lexeme v)) →
          (m.store.define f u.lexeme v).All (S.ValueOk (m.store.define f u.lexeme v))) := by
    intro u f given
    have grows := Store.Grows.define m.store f (free u given) v
    exact ⟨grows, fun all => all.define (valueGrow value grows) f _⟩
  refine Good.after (getRun m) ?_
  refine Good.after (getRun m) ?_
  rw [h.locals]
  cases entry : S.machine.locals.distance? node with
  | some d =>
    obtain ⟨u, σ, names, place⟩ := chart.located stands use entry
    obtain ⟨f, outer, frame⟩ := fits.framed place.scope
    dsimp only
    rw [frameAtDrop frame.here]
    refine Good.after (x := Eval.lift (.ok f)) rfl ?_
    cases place.token
    refine Good.after (x := Eval.lexeme (some u)) rfl ?_
    exact goodChange h (defines u f rfl).1 (defines u f rfl).2 trivial
  | none =>
    refine (goodNamed h t).bind fun u _ run done given => ?_
    cases given
    cases run
    refine goodOnStore h (fun _ s' run => ?_) fun f s' run => ?_
    · unfold Store.assign at run
      split at run
      · cases run
        exact ⟨(defines u _ rfl).1, (defines u _ rfl).2, trivial⟩
      · cases run
    · unfold Store.assign at run
      split at run
      · cases run
      · cases run
        rfl

theorem goodFunctionValue (h : S.MachineOk m) (r : Routine) :
    S.Good (Eval.functionValue r) m fun v _ =>
      ∃ id u, v = .function id u.lexeme r ∧ r.decl.name = some u := by
  refine (goodLexeme h r.decl.name).bind fun name _ _ done given => ?_
  obtain ⟨u, given, rfl⟩ := given
  refine Good.bind (Q := fun _ _ => True)
    (goodChange done.ok (.sameFrames rfl) Store.All.freshId trivial) fun id _ _ done _ => ?_
  exact goodPure done.ok ⟨id, u, rfl, given⟩

theorem goodBindRoutine (h : S.MachineOk m) {r : Routine} (method : S.MethodOk m.store r)
    {this : Value} (receiver : S.ValueOk m.store this)
    (origin : ∀ r' m', Eval.bindRoutine r this m = .ok r' m' → S.Opened (.this r.decl) r'.closure) :
    S.Good (Eval.bindRoutine r this) m fun r' m' =>
      r'.decl = r.decl ∧ S.FunctionOk m'.store r' := by
  obtain ⟨plain, c, kind, outer, stands, scopes, fits⟩ := method
  have grows := Store.Grows.enter m.store r.closure [("this", this)]
  have entered : Fits S.Opened (m.store.enter r.closure [("this", this)]).2
      (m.store.enter r.closure [("this", this)]).1 c.scopes := by
    rw [scopes]
    refine fits.enter (origin _ _ rfl) (fun name ready => ?_) fun ready => ?_
    · rw [Bindings.get?_cons] at ready
      split at ready
      · next same =>
        subst same
        simp [Bindings.has, Bindings.get?_cons]
      · cases ready
    · have never : Bindings.get? [("this", true)] "super" = none := by decide
      rw [never] at ready
      cases ready
  have done := doneStore h grows fun all =>
    all.enter (Bindings.allOne (valueGrow receiver grows)) r.closure
  exact ⟨done, rfl, plain, kind, c, stands, entered⟩

theorem goodBind (h : S.MachineOk m) {r : Routine} (method : S.MethodOk m.store r)
    {this : Value} (receiver : S.ValueOk m.store this)
    (origin : ∀ r' m', Eval.bindRoutine r this m = .ok r' m' → S.Opened (.this r.decl) r'.closure) :
    S.Good (Eval.bind r this) m S.Valued := by
  refine (goodBindRoutine h method receiver origin).bind fun r' _ _ done post => ?_
  refine (goodFunctionValue done.ok r').mono fun v m'' later given => ?_
  obtain ⟨id, u, rfl, -⟩ := given
  exact functionGrow post.2 later.grows

theorem goodProperty (h : S.MachineOk m) {id : Nat} {c : Class}
    (object : S.ValueOk m.store (.instance_ id c)) (t : Token)
    (origin : ∀ r r' m', c.findMethod? t.lexeme = some r →
      Eval.bindRoutine r (.instance_ id c) m = .ok r' m' → S.Opened (.this r.decl) r'.closure) :
    S.Good (Eval.property (.instance_ id c) id c t) m S.Valued := by
  refine Good.after (getRun m) ?_
  cases field : (m.store.fieldsOf id).get? t.lexeme with
  | some v => exact goodPure h (h.store.fields id _ v field)
  | none =>
    cases found : c.findMethod? t.lexeme with
    | some r =>
      have method : S.MethodOk m.store r := Class.Holds.found object found
      exact goodBind h method object fun r' m' run => origin r r' m' found run
    | none => exact goodFail rfl

theorem goodArrayMember (h : S.MachineOk m) (id : Nat) (t : Token) :
    S.Good (Eval.onStore (Store.arrayMember id t)) m S.Valued := by
  refine goodOnStore h (fun v s' run => ?_) fun f s' run => ?_
  · unfold Store.arrayMember at run
    split at run
    · cases run
      exact ⟨.sameFrames rfl, Store.All.freshId, trivial⟩
    · cases run
      exact ⟨.sameFrames rfl, Store.All.freshId, trivial⟩
    · cases run
      exact ⟨.refl _, fun all => all, trivial⟩
    · cases run
  · unfold Store.arrayMember at run
    split at run
    · cases run
    · cases run
    · cases run
    · cases run
      rfl

theorem goodGetProperty (h : S.MachineOk m) {object : Value} (value : S.ValueOk m.store object)
    (t : Option Token)
    (origin : ∀ id c u r r' m', object = .instance_ id c → t = some u →
      c.findMethod? u.lexeme = some r → Eval.bindRoutine r object m = .ok r' m' →
      S.Opened (.this r.decl) r'.closure) :
    S.Good (Eval.getProperty object t) m S.Valued := by
  cases object with
  | instance_ id c =>
    refine (goodNamed h t).bind fun u _ run done given => ?_
    cases given
    cases run
    exact goodProperty h value u fun r r' m' found run => origin id c u r r' m' rfl rfl found run
  | array id =>
    refine (goodNamed h t).bind fun u _ _ done _ => ?_
    exact goodArrayMember done.ok id u
  | _ => exact goodFail rfl

theorem goodCheckSettable (h : S.MachineOk m) (object : Value) (t : Option Token) :
    S.Good (Eval.checkSettable object t) m fun _ _ => True := by
  cases object with
  | instance_ => exact goodPure h trivial
  | array => exact goodPure h trivial
  | _ => exact goodFail rfl

theorem goodSetProperty (h : S.MachineOk m) (object : Value) (t : Option Token) {v : Value}
    (value : S.ValueOk m.store v) :
    S.Good (Eval.setProperty object t v) m fun _ _ => True := by
  cases object with
  | instance_ id c =>
    refine (goodLexeme h t).bind fun name _ run done _ => ?_
    have value := done.value value
    exact goodChange done.ok (.sameFrames rfl)
      (fun all => all.setField (valueGrow value (.sameFrames rfl)) id name) trivial
  | array => exact goodFail rfl
  | _ => exact goodFail rfl

theorem superHere (chart : Charted S.machine.locals S.body) {node : Nat}
    {keyword method : Option Token}
    (placed : S.Placed m.store m.env (.expr (.super node keyword method))) :
    ∃ d base this, S.machine.locals.distance? node = some (d + 1) ∧
      m.store.readAt m.env ((d + 1 : Nat) : Int) "super" = .ok (.class_ base) ∧
      m.store.readAt m.env (d : Nat) "this" = .ok this := by
  obtain ⟨c, stands, fits⟩ := placed
  obtain ⟨u, rfl, word⟩ := stands.shaped chart.shaped
  have classed := (stands.classed chart.shaped).1
  rw [chart.inSubclass stands] at classed
  obtain ⟨d, f, name, methods, depth, thisScope, superScope⟩ := depthSuper classed
  have entry := chart.distance stands rfl
  rw [Option.bind_some, word] at entry
  obtain ⟨f, outer, frame⟩ := fits.framed superScope
  obtain ⟨base, found⟩ := frame.base rfl
  have ready : Bindings.get? [("this", true)] "this" = some true := rfl
  obtain ⟨this, read⟩ := fits.readAt thisScope ready
  exact ⟨d, base, this, entry.trans depth, readAtDrop frame.here found, read⟩

theorem goodSuperMethod (chart : Charted S.machine.locals S.body) (h : S.MachineOk m) {node : Nat}
    {keyword t : Option Token} (placed : S.Placed m.store m.env (.expr (.super node keyword t)))
    (origin : ∀ d c this u r r' m', m.locals.distance? node = some d →
      m.store.readAt m.env d "super" = .ok (.class_ c) →
      m.store.readAt m.env ((d : Int) - 1) "this" = .ok this → t = some u →
      c.findMethod? u.lexeme = some r → Eval.bindRoutine r this m = .ok r' m' →
      S.Opened (.this r.decl) r'.closure) :
    S.Good (Eval.superMethod node t) m S.Valued := by
  obtain ⟨d, c, this, entry, base, receiver⟩ := superHere chart placed
  have here : m.locals.distance? node = some (d + 1) := by rw [h.locals, entry]
  have receiver : m.store.readAt m.env (((d + 1 : Nat) : Int) - 1) "this" = .ok this := by
    rw [show ((d + 1 : Nat) : Int) - 1 = (d : Nat) by omega]
    exact receiver
  refine Good.after (getRun m) ?_
  refine Good.after (getRun m) ?_
  rw [here]
  refine Good.after (askRun base) (Good.after (askRun receiver) ?_)
  dsimp only
  refine (goodNamed h t).bind fun u _ run _ given => ?_
  cases given
  cases run
  cases found : c.findMethod? u.lexeme with
  | some r =>
    have method : S.MethodOk m.store r := Class.Holds.found (h.store.readAt base) found
    exact goodBind h method (h.store.readAt receiver) fun r' m' run =>
      origin _ c this u r r' m' here base receiver rfl found run
  | none => exact goodFail rfl

end Start

theorem declaredHere {env : Env} (name : String) (v : Value)
    (live : ∀ f ∈ env.head?, f < s.frames.size) :
    ∀ f ∈ env.head?, ((s.defineIn env name v).frame f).has name = true := by
  intro f head
  cases env with
  | nil => cases head
  | cons g outer =>
    cases head
    show ((s.define f name v).frame f).has name = true
    rw [s.frameDefineSelf (live f rfl), Bindings.hasPut]
    simp

theorem growsDefineIn (s : Store) (env : Env) {name : String} (free : Keyword.ofWord? name = none)
    (v : Value) : s.Grows (s.defineIn env name v) := by
  cases env with
  | nil => exact .refl s
  | cons f outer => exact .define s f free v

theorem Fits.headLive {opened : Site → Env → Prop} {env : Env} {scopes : List (Site × Scope)}
    (h : Fits opened s env scopes) : ∀ f ∈ env.head?, f < s.frames.size := by
  intro f head
  cases h with
  | globals live =>
    cases head
    exact live
  | frame _ _ _ live =>
    cases head
    exact live

theorem parametersBound {ps : List (Option Token)} {args : List Value} {b b' : Bindings Value}
    (run : Eval.bindParameters ps args b = .ok b') {names : Scope}
    (bound : ∀ name, names.get? name = some true → b.has name = true) :
    ∀ name, (Context.parameterScope ps names).get? name = some true → b'.has name = true := by
  induction ps generalizing args b names with
  | nil =>
    cases run
    exact bound
  | cons p ps ih =>
    cases p with
    | none => cases run
    | some u =>
      cases args with
      | nil => cases run
      | cons v rest =>
        refine ih (b := b.put u.lexeme v) run fun name ready => ?_
        rw [Bindings.hasPut]
        by_cases same : u.lexeme = name
        · simp [same]
        · rw [Bindings.get?_put_of_ne _ _ (Ne.symm same)] at ready
          simp [bound name ready]

end Lox
