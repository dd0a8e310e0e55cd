import Lox.Proofs.Runs.Safety

/-!
The run of a whole program, by induction on the nested calls left: each task keeps to its place, and
so does each task it makes.
-/

namespace Lox.Start

variable {S : Start} {m m' : Machine}

theorem goodDefineHere (h : S.MachineOk m) {name : String} (free : Keyword.ofWord? name = none)
    {v : Value} (value : S.ValueOk (m.store.defineIn m.env name v) v)
    (live : ∀ f ∈ m.env.head?, f < m.store.frames.size) :
    S.Good (Eval.defineHere name v) m fun _ m' =>
      ∀ f ∈ m'.env.head?, (m'.store.frame f).has name = true :=
  ⟨doneStore h (growsDefineIn m.store m.env free v) fun all => all.defineIn value m.env name,
    declaredHere name v live⟩

theorem fitsClass {s : Store} {env : Env} {c : Context} {t : Option Token} {methods : List FunDecl}
    {expr : Expr} {base : Option Class} (fits : Fits S.Opened s env c.scopes)
    (given : base.isSome = !expr.isMissing)
    (origin : ∀ k, base = some k →
      S.Opened (.super t methods) (s.enter env [("super", .class_ k)]).1) :
    Fits S.Opened (classEnv s env base).2 (classEnv s env base).1
      (c.inClass t methods expr).scopes := by
  unfold Context.inClass
  cases base with
  | none =>
    have missing : expr.isMissing = true := by simpa using given
    rw [if_pos missing]
    exact fits
  | some k =>
    have present : ¬expr.isMissing = true := by simpa using given
    rw [if_neg present]
    refine fits.enter (origin k rfl) (fun name ready => ?_) fun _ => ⟨k, rfl⟩
    rw [Bindings.get?_cons] at ready
    split at ready
    · next same =>
      subst same
      simp [Bindings.has, Bindings.get?_cons]
    · cases ready

theorem growsClassEnv (s : Store) (env : Env) (base : Option Class) :
    s.Grows (classEnv s env base).2 := by
  cases base with
  | none => exact .refl s
  | some k => exact .enter s env _

theorem goodAssign (h : S.MachineOk m) {t : Token} (free : Keyword.ofWord? t.lexeme = none) {v : Value}
    (value : S.ValueOk m.store v)
    (has : ∀ f ∈ m.env.head?, (m.store.frame f).has t.lexeme = true) (env : Env) :
    S.Good (Eval.onStore (Store.assign env t v)) m fun _ m' =>
      ∀ f ∈ m'.env.head?, (m'.store.frame f).has t.lexeme = true := by
  refine goodOnStore h (fun _ s' assigned => ?_) fun f s' failed => ?_
  · unfold Store.assign at assigned
    split at assigned
    · next f held =>
      cases assigned
      have grows := Store.Grows.define m.store f free v
      exact ⟨grows, fun all => all.define (valueGrow value grows) f _,
        fun g head => grows.has g _ (has g head)⟩
    · cases assigned
  · unfold Store.assign at failed
    split at failed
    · cases failed
    · cases failed
      rfl

theorem methodsPlaced {s : Store} {env : Env} {c : Context} {u : Token} {methods : List FunDecl}
    {expr : Expr} {table : Bindings Routine} (whole : Stmt.AllShaped S.body)
    (stands : Stands S.body c (.stmt (.class_ (some u) methods expr)))
    (fits : Fits S.Opened s env ((c.declare (some u) true).inClass (some u) methods expr).scopes)
    (made : Eval.methodTable env methods [] = .ok table) :
    Bindings.All (S.MethodOk s) table := by
  obtain ⟨-, shaped, -⟩ := stands.shaped whole
  refine methodsAll made Bindings.allNil fun f mem v named => ?_
  have freeName : Keyword.ofWord? v.lexeme = none := by
    cases f with
    | mk => exact (shapedOfMem shaped mem).1 v named
  refine ⟨?_, _, _, _, stands.method mem named, rfl, fits⟩
  exact beq_false_of_ne fun same => thisReserved (same ▸ freeName)

theorem goodDeclareClass (whole : Stmt.AllShaped S.body) (h : S.MachineOk m) {c : Context}
    {t : Option Token} {methods : List FunDecl} {expr : Expr} {base : Option Class}
    (stands : Stands S.body c (.stmt (.class_ t methods expr)))
    (fits : Fits S.Opened m.store m.env c.scopes) (given : base.isSome = !expr.isMissing)
    (value : ∀ k, base = some k → S.ValueOk m.store (.class_ k))
    (origin : ∀ u k, t = some u → base = some k → S.Opened (.super t methods)
      ((m.store.defineIn m.env u.lexeme .nil).enter m.env [("super", .class_ k)]).1) :
    S.Good (Eval.declareClass t methods base) m fun _ m' =>
      ∀ u ∈ t, ∀ f ∈ m'.env.head?, (m'.store.frame f).has u.lexeme = true := by
  cases t with
  | none => exact goodFail (f := .absent "lexeme") rfl
  | some u =>
    have free := (stands.shaped whole).1 u rfl
    -- the name of the class, then the frame of its superclass, then its identity
    let s₁ := m.store.defineIn m.env u.lexeme .nil
    let inner := classEnv s₁ m.env base
    have grows₁ : m.store.Grows s₁ := growsDefineIn m.store m.env free .nil
    have grows₂ : s₁.Grows inner.2 := growsClassEnv s₁ m.env base
    have fresh : inner.2.Grows inner.2.freshId.2 := .sameFrames rfl
    have grows₃ : m.store.Grows inner.2.freshId.2 := grows₁.trans (grows₂.trans fresh)
    have has₁ := declaredHere u.lexeme .nil fits.headLive
    have fits₁ : Fits S.Opened s₁ m.env (c.declare (some u) true).scopes :=
      (fits.grow grows₁).declare (by rintro _ ⟨⟩; exact free) (by rintro _ ⟨⟩; exact has₁)
    have fits₂ : Fits S.Opened inner.2 inner.1
        ((c.declare (some u) true).inClass (some u) methods expr).scopes :=
      fitsClass fits₁ given fun k same => origin u k rfl same
    have done : S.Done m { m with store := inner.2.freshId.2 } :=
      doneStore h grows₃ fun all => ((all.defineIn (valueDatum _ _) m.env _).classEnv m.env
        fun k same => valueGrow (value k same) grows₃).freshId
    have run := declareClassRun u methods base m
    dsimp only at run
    cases table : Eval.methodTable inner.1 methods [] with
    | error f =>
      rw [show Eval.methodTable (classEnv (m.store.defineIn m.env u.lexeme .nil) m.env base).1
        methods [] = .error f from table] at run
      unfold Good
      rw [run]
      exact mildMethods _ _ _ f table
    | ok b =>
      rw [show Eval.methodTable (classEnv (m.store.defineIn m.env u.lexeme .nil) m.env base).1
        methods [] = .ok b from table] at run
      have made : S.ValueOk inner.2.freshId.2 (.class_
          ⟨⟨inner.2.nextId, u.lexeme, b⟩, (base.map Class.layers).getD []⟩) := by
        intro l mem
        rcases List.mem_cons.mp mem with rfl | inherited
        · exact (methodsPlaced whole stands fits₂ table).mono fun r ok => methodGrow ok fresh
        · cases base with
          | none => cases inherited
          | some k => exact valueGrow (value k rfl) grows₃ l inherited
      refine Good.from done run ((goodAssign done.ok free made ?_ m.env).mono fun _ _ _ has => ?_)
      · exact fun g head => grows₂.has g _ (has₁ g head)
      · rintro _ ⟨⟩
        exact has

theorem goodWithin {x : Eval Unit} {env : Env}
    (h : S.Good x { m with env := env } fun _ _ => True) :
    S.Good (Eval.within env x) m fun _ _ => True := by
  have back : ∀ {m' : Machine}, S.Done { m with env := env } m' →
      S.Done m { m' with env := m.env } :=
    fun done => ⟨rfl, done.grows, done.ok.locals, done.ok.store⟩
  unfold Good Eval.within at *
  cases last : x { m with env := env } with
  | ok a m' =>
    rw [last] at h
    exact ⟨back h.1, trivial⟩
  | error e m' =>
    rw [last] at h
    cases e with
    | fault f => exact h
    | returned v => exact ⟨back h.1, h.2⟩
    | outOfFuel => trivial

theorem goodReturnedBy {x : Eval Unit} (h : S.Good x m fun _ _ => True) :
    S.Good (Eval.returnedBy x) m fun o m' => ∀ v ∈ o, S.ValueOk m'.store v := by
  unfold Good Eval.returnedBy at *
  cases last : x m with
  | ok a m' =>
    rw [last] at h
    exact ⟨h.1, by rintro v ⟨⟩⟩
  | error e m' =>
    rw [last] at h
    cases e with
    | fault f => exact h
    | returned v => exact ⟨h.1, by rintro _ ⟨⟩; exact h.2⟩
    | outOfFuel => trivial

theorem Good.ok {α : Type} {x : Eval α} {Q : α → Machine → Prop} (h : S.Good x m Q) {a : α}
    (run : x m = .ok a m') : S.Done m m' ∧ Q a m' := by
  unfold Good at h
  rw [run] at h
  exact h

theorem Good.fault {α : Type} {x : Eval α} {Q : α → Machine → Prop} (h : S.Good x m Q) {f : Fault}
    (run : x m = .error (.fault f) m') : f.ofScope = false := by
  unfold Good at h
  rw [run] at h
  exact h

theorem goodConstruct (h : S.MachineOk m) {c : Class} (value : S.ValueOk m.store (.class_ c))
    {r : Routine} (found : c.findMethod? Class.initializer = some r)
    (origin : ∀ r' m', Eval.boundInitializer c r m = .ok r' m' →
      S.Opened (.this r.decl) r'.closure) :
    S.Good (Eval.boundInitializer c r) m fun r' m' => S.FunctionOk m'.store r' := by
  have grows : m.store.Grows (m.store.newInstance c).2 := .sameFrames rfl
  refine Good.bind (Q := fun v m' => v = .instance_ m.store.fields.size c)
    (goodChange h grows (fun all => all.newInstance c) rfl) fun v m' run done given => ?_
  cases given
  have method : S.MethodOk m'.store r :=
    methodGrow (Class.Holds.found value found) done.grows
  have receiver : S.ValueOk m'.store (.instance_ m.store.fields.size c) :=
    done.value (v := .instance_ m.store.fields.size c) value
  refine (goodBindRoutine done.ok method receiver fun r' m'' bound => ?_).mono
    fun _ _ _ post => post.2
  refine origin r' m'' ?_
  unfold Eval.boundInitializer
  rw [bindRun, run]
  exact bound

structure Sound (S : Start) (n : Nat) : Prop where
  expr : ∀ e m, S.Reaches n (.expr e) m → S.Sits (.expr e) m →
    S.Good (Eval.evaluate n e) m S.Valued
  exprs : ∀ es m, S.Reaches n (.exprs es) m → S.Sits (.exprs es) m →
    S.Good (Eval.evaluateAll n es) m fun vs m' => ∀ v ∈ vs, S.ValueOk m'.store v
  call : ∀ f args m, S.Reaches n (.call f args) m → S.Sits (.call f args) m →
    S.Good (Eval.call n f args) m S.Valued
  routine : ∀ r args m, S.Reaches n (.routine r args) m → S.Sits (.routine r args) m →
    S.Good (Eval.callRoutine n r args) m S.Valued
  stmt : ∀ s m, S.Reaches n (.stmt s) m → S.Sits (.stmt s) m →
    S.Good (Eval.execute n s) m fun _ m' =>
      ∀ t ∈ s.declared, ∀ f ∈ m'.env.head?, (m'.store.frame f).has t.lexeme = true
  stmts : ∀ ss m, S.Reaches n (.stmts ss) m → S.Sits (.stmts ss) m →
    S.Good (Eval.executeAll n ss) m fun _ _ => True
  loop : ∀ cond s m, S.Reaches n (.loop cond s) m → S.Sits (.loop cond s) m →
    S.Good (Eval.loop n cond s) m fun _ _ => True
  superclass : ∀ e m, S.Reaches n (.superclass e) m → S.Sits (.superclass e) m →
    S.Good (Eval.superclass n e) m fun c m' => S.ValueOk m'.store (.class_ c)

theorem Placed.step {s : Store} {env : Env} {p q : Part} (h : S.Placed s env p)
    (into : ∀ {c}, Stands S.body c p → Stands S.body c q) : S.Placed s env q := by
  obtain ⟨c, stands, fits⟩ := h
  exact ⟨c, into stands, fits⟩

theorem placedInitializer {s : Store} {env : Env} {name : Option Token} {init : Expr}
    (h : S.Placed s env (.stmt (.var name init))) (given : init.isMissing = false) :
    S.Placed s env (.expr init) := by
  obtain ⟨c, stands, fits⟩ := h
  exact ⟨_, stands.initializer given, fits.pending name⟩

theorem placedLater (whole : Stmt.AllShaped S.body) {s : Store} {env : Env} {x : Stmt}
    {xs : List Stmt} (h : S.Placed s env (.stmts (x :: xs)))
    (declared : ∀ t ∈ x.declared, ∀ f ∈ env.head?, (s.frame f).has t.lexeme = true) :
    S.Placed s env (.stmts xs) := by
  obtain ⟨c, stands, fits⟩ := h
  exact ⟨_, stands.later, fits.declare (freeDeclared (stands.first.shaped whole)) declared⟩

theorem okEntering (h : S.MachineOk m) {env : Env} {b : Bindings Value}
    (values : b.All (S.ValueOk m.store)) : S.MachineOk (m.entering env b) := by
  have grows := Store.Grows.enter m.store env b
  exact ⟨h.locals, (h.store.mono fun _ ok => valueGrow ok grows).enter
    (values.mono fun _ ok => valueGrow ok grows) env⟩

theorem placedBlock {ss : List Stmt} (h : S.Placed m.store m.env (.stmt (.block ss)))
    (origin : S.Opened (.block ss) (m.store.enter m.env []).1) :
    S.Placed (m.entering m.env []).store (m.entering m.env []).env (.stmts ss) := by
  obtain ⟨c, stands, fits⟩ := h
  refine ⟨_, stands.block, fits.enter origin ?_ ?_⟩
  · rintro name ⟨⟩
  · rintro ⟨⟩

theorem placedBody (whole : Stmt.AllShaped S.body) {r : Routine} {args : List Value}
    {b : Bindings Value} (h : S.FunctionOk m.store r)
    (bound : Eval.bindParameters r.decl.params args [] = .ok b)
    (origin : S.Opened (.call r.decl) (m.store.enter r.closure b).1) :
    S.Placed (m.entering r.closure b).store (m.entering r.closure b).env (.stmts r.decl.body) := by
  obtain ⟨-, kind, c, stands, fits⟩ := h
  have free : ∀ p ∈ r.decl.params, Free p := by
    have shaped := stands.shaped whole
    cases decl : r.decl with
    | mk name params body =>
      rw [decl] at shaped
      exact shaped.2.1
  refine ⟨_, stands.body, fits.enter origin (parametersBound bound ?_) fun ready => ?_⟩
  · rintro name ⟨⟩
  · have none := plainReserved (plainParameters plainNil free) superReserved
    unfold Bindings.has at none
    rw [ready] at none
    cases none

theorem openedBy {n : Nat} {t : Task} {σ : Site} {env : Env} (reach : S.Reaches (n + 1) t m)
    (opens : Opens n t m σ env) : S.Opened σ env := ⟨n, t, m, reach, opens⟩

theorem sitsNext (whole : Stmt.AllShaped S.body) {n : Nat} (sound : Sound S n) {t t' : Task}
    (reach : S.Reaches (n + 1) t m) (sits : S.Sits t m) (next : Calls n t m t' m') :
    S.Sits t' m' := by
  obtain ⟨ok, place⟩ := sits
  -- an expression of the task that is evaluated first
  have evaluated : ∀ {e v m₁}, Calls n t m (.expr e) m → S.Placed m.store m.env (.expr e) →
      Eval.evaluate n e m = .ok v m₁ → S.Done m m₁ ∧ S.ValueOk m₁.store v :=
    fun call placed run => (sound.expr _ m (.step reach call) ⟨ok, placed⟩).ok run
  cases next with
  | assigned => exact ⟨ok, place.step .assigned⟩
  | operand => exact ⟨ok, place.step .operand⟩
  | binaryLeft => exact ⟨ok, place.step .binaryLeft⟩
  | binaryRight first =>
    have done := (evaluated .binaryLeft (place.step .binaryLeft) first).1
    exact ⟨done.ok, done.placed (place.step .binaryRight)⟩
  | logicalLeft => exact ⟨ok, place.step .logicalLeft⟩
  | logicalRight first undecided =>
    have done := (evaluated .logicalLeft (place.step .logicalLeft) first).1
    have done := done.trans ((goodDecides done.ok _ _).ok undecided).1
    exact ⟨done.ok, done.placed (place.step .logicalRight)⟩
  | inner => exact ⟨ok, place.step .inner⟩
  | callee => exact ⟨ok, place.step .callee⟩
  | arguments first =>
    have done := (evaluated .callee (place.step .callee) first).1
    exact ⟨done.ok, done.placed (place.step .arguments)⟩
  | called first second fits =>
    obtain ⟨done, value⟩ := evaluated .callee (place.step .callee) first
    obtain ⟨later, values⟩ := (sound.exprs _ _ (.step reach (.arguments first))
      ⟨done.ok, done.placed (place.step .arguments)⟩).ok second
    exact ⟨later.ok, later.value value, values⟩
  | getObject => exact ⟨ok, place.step .getObject⟩
  | setObject => exact ⟨ok, place.step .setObject⟩
  | setValue first settable =>
    have done := (evaluated .setObject (place.step .setObject) first).1
    have done := done.trans ((goodCheckSettable done.ok _ _).ok settable).1
    exact ⟨done.ok, done.placed (place.step .setValue)⟩
  | firstExpr => exact ⟨ok, place.step .firstExpr⟩
  | laterExprs first =>
    have done := (evaluated .firstExpr (place.step .firstExpr) first).1
    exact ⟨done.ok, done.placed (place.step .laterExprs)⟩
  | function => exact ⟨ok, place⟩
  | construct found bound =>
    obtain ⟨done, function⟩ := (goodConstruct ok place.1 found fun r' m' run =>
      openedBy reach (.construct found run)).ok bound
    exact ⟨done.ok, function, fun a mem => done.value (place.2 a mem)⟩
  | body bound =>
    exact ⟨okEntering ok (parametersAll bound Bindings.allNil place.2),
      placedBody whole place.1 bound (openedBy reach (.call bound))⟩
  | expression => exact ⟨ok, place.step .expression⟩
  | printed => exact ⟨ok, place.step .printed⟩
  | initializer given => exact ⟨ok, placedInitializer place given⟩
  | block => exact ⟨okEntering ok Bindings.allNil, placedBlock place (openedBy reach .block)⟩
  | ifCond => exact ⟨ok, place.step .ifCond⟩
  | yes first holds =>
    have done := (evaluated .ifCond (place.step .ifCond) first).1
    exact ⟨done.ok, done.placed (place.step .yes)⟩
  | no first fails given =>
    have done := (evaluated .ifCond (place.step .ifCond) first).1
    exact ⟨done.ok, done.placed (place.step fun stands => .no stands given)⟩
  | loop => exact ⟨ok, place⟩
  | returned given => exact ⟨ok, place.step fun stands => .returned stands given⟩
  | base given => exact ⟨ok, place.step fun stands => .superclass stands given⟩
  | firstStmt => exact ⟨ok, place.step .first⟩
  | loopCond => exact ⟨ok, place.step .whileCond⟩
  | loopBody first holds =>
    have done := (evaluated .loopCond (place.step .whileCond) first).1
    exact ⟨done.ok, done.placed (place.step .whileBody)⟩
  | loopAgain first holds second =>
    have done := (evaluated .loopCond (place.step .whileCond) first).1
    have later := ((sound.stmt _ _ (.step reach (.loopBody first holds))
      ⟨done.ok, done.placed (place.step .whileBody)⟩).ok second).1
    exact ⟨later.ok, (done.trans later).placed place⟩
  | superclass => exact ⟨ok, place⟩

theorem sitsLater (whole : Stmt.AllShaped S.body) {n : Nat} (sound : Sound S n) {s : Stmt}
    {ss : List Stmt} (reach : S.Reaches (n + 1) (.stmts (s :: ss)) m)
    (sits : S.Sits (.stmts (s :: ss)) m) (first : Eval.execute n s m = .ok () m') :
    S.Sits (.stmts ss) m' := by
  obtain ⟨done, declared⟩ := (sound.stmt _ m (.step reach .firstStmt)
    (sitsNext whole sound reach sits .firstStmt)).ok first
  exact ⟨done.ok, placedLater whole (done.placed sits.2) declared⟩

theorem goodWriteCell (h : S.MachineOk m) (id : Nat) (index : Value) {v : Value}
    (value : S.ValueOk m.store v) :
    S.Good (Eval.onStore (Store.writeCell id index v)) m fun _ _ => True := by
  refine goodOnStore h (fun _ s' run => ?_) fun f s' run => ?_
  · unfold Store.writeCell at run
    split at run
    · cases run
      exact ⟨.sameFrames rfl,
        fun all => all.setElement (valueGrow value (.sameFrames rfl)) id _, trivial⟩
    · cases run
  · unfold Store.writeCell at run
    split at run
    · cases run
    · next e failed =>
      cases run
      exact mildCellOf _ index rfl _ failed

theorem goodMakeArray (h : S.MachineOk m) (size : Value) :
    S.Good (Eval.onStore (Store.makeArray size)) m S.Valued := by
  refine goodOnStore h (fun v s' run => ?_) fun f s' run => ?_
  · unfold Store.makeArray at run
    split at run
    · cases run
      refine ⟨.sameFrames rfl, fun all => all.newArray fun w mem => ?_, trivial⟩
      rw [(Array.mem_replicate.mp mem).2]
      exact valueDatum _ _
    · cases run
  · unfold Store.makeArray at run
    split at run
    · cases run
    · next e failed =>
      cases run
      exact ((mildToInteger size).bind (mildCellCount _)) _ failed

theorem Good.lifted {α β : Type} {x : Except Fault α} {f : α → Eval β} {P : β → Machine → Prop}
    (mild : Mild x) (rest : ∀ a, x = .ok a → S.Good (f a) m P) :
    S.Good (Eval.lift x >>= f) m P := by
  cases x with
  | ok a => exact Good.after rfl (rest a rfl)
  | error e => exact mild e rfl

theorem goodReturned {α : Type} {Q : α → Machine → Prop} (h : S.MachineOk m) {v : Value}
    (value : S.ValueOk m.store v) : S.Good (throw (.returned v) : Eval α) m Q :=
  ⟨.refl h, value⟩

theorem Good.branch {α β : Type} {b : Bool} {x y : Eval α} {f : α → Eval β}
    {Q : α → Machine → Prop} {P : β → Machine → Prop} (first : S.Good (if b then x else y) m Q)
    (rest : ∀ a m', (if b then x else y) m = .ok a m' → S.Done m m' → Q a m' → S.Good (f a) m' P) :
    S.Good (if b then x >>= f else y >>= f) m P := by
  cases b with
  | true => exact first.bind rest
  | false => exact first.bind rest

theorem goodGiven {n : Nat} {e : Expr} (h : S.MachineOk m)
    (given : e.isMissing = false → S.Good (Eval.evaluate n e) m S.Valued) :
    S.Good (if e.isMissing then pure .nil else Eval.evaluate n e) m S.Valued := by
  cases there : e.isMissing with
  | true => exact goodPure h (valueDatum _ _)
  | false => exact given there

theorem goodBase {n : Nat} {e : Expr} (h : S.MachineOk m)
    (given : e.isMissing = false →
      S.Good (Eval.superclass n e) m fun c m' => S.ValueOk m'.store (.class_ c)) :
    S.Good (if e.isMissing then pure none else some <$> Eval.superclass n e) m fun k m' =>
      k.isSome = !e.isMissing ∧
        ∀ c, k = some c → S.ValueOk m'.store (.class_ c) ∧ Eval.superclass n e m = .ok c m' := by
  cases there : e.isMissing with
  | true => exact goodPure h ⟨rfl, by rintro _ ⟨⟩⟩
  | false =>
    rw [if_neg (by simp), map_eq_pure_bind]
    refine (given there).bind fun c m' run done ok => goodPure done.ok ⟨rfl, ?_⟩
    rintro _ ⟨⟩
    exact ⟨ok, run⟩

theorem goodFunction {f : FunDecl} (whole : Stmt.AllShaped S.body)
    (sits : S.Sits (.stmt (.function f)) m) :
    S.Good (do
      let v ← Eval.functionValue ⟨f, (← get).env, false⟩
      Eval.defineHere (← Eval.lexeme f.name) v) m fun _ m' =>
        ∀ t ∈ f.name, ∀ g ∈ m'.env.head?, (m'.store.frame g).has t.lexeme = true := by
  obtain ⟨c, stands, fits⟩ := sits.2
  refine Good.after (getRun m) ?_
  refine (goodFunctionValue sits.1 ⟨f, m.env, false⟩).bind fun v m' _ done given => ?_
  obtain ⟨id, u, rfl, named⟩ := given
  refine (goodLexeme done.ok f.name).bind fun _ m'' _ later given => ?_
  obtain ⟨w, named', rfl⟩ := given
  cases named'.symm.trans named
  have free := freeDeclared (stands.shaped whole) u named
  have same : m''.env = m.env := later.env.trans done.env
  have fits : Fits S.Opened m''.store m.env c.scopes := fits.grow (done.grows.trans later.grows)
  have live : ∀ f ∈ m''.env.head?, f < m''.store.frames.size := by
    rw [same]
    exact fits.headLive
  -- the function knows its own name once it is bound
  have value : S.ValueOk (m''.store.defineIn m''.env u.lexeme (.function id u.lexeme ⟨f, m.env, false⟩))
      (.function id u.lexeme ⟨f, m.env, false⟩) := by
    refine ⟨rfl, .function, _, stands.function, ?_⟩
    refine (fits.grow (growsDefineIn m''.store m''.env free _)).declare ?_ ?_
    · rw [named]
      rintro _ ⟨⟩
      exact free
    · rw [named]
      rintro _ ⟨⟩
      rw [← same]
      exact declaredHere _ _ live
  refine (goodDefineHere later.ok free value live).mono fun _ _ _ has => ?_
  intro t given
  cases (show f.name = some t from given).symm.trans named
  exact has

section

variable {n : Nat} (chart : Charted S.machine.locals S.body) (sound : Sound S n)

include chart sound

theorem soundExpr (e : Expr) (reach : S.Reaches (n + 1) (.expr e) m) (sits : S.Sits (.expr e) m) :
    S.Good (Eval.evaluate (n + 1) e) m S.Valued := by
  have next : ∀ {t' m'}, Calls n (.expr e) m t' m' → S.Sits t' m' :=
    fun call => sitsNext chart.shaped sound reach sits call
  have part : ∀ {e' m'}, Calls n (.expr e) m (.expr e') m' →
      S.Good (Eval.evaluate n e') m' S.Valued :=
    fun call => sound.expr _ _ (.step reach call) (next call)
  rw [Eval.evaluate.eq_def]
  cases e with
  | missing => exact goodFail rfl
  | literal d => exact goodPure sits.1 (valueDatum _ d)
  | reference node name => exact goodReadVariable chart sits.1 sits.2 rfl rfl
  | this node keyword => exact goodReadVariable chart sits.1 sits.2 rfl rfl
  | assign node name value =>
    refine (part .assigned).bind fun v m' run done ok => ?_
    have free : Free name := by
      obtain ⟨c, stands, -⟩ := sits.2
      exact (stands.shaped chart.shaped).1
    refine (goodWriteVariable chart done.ok (done.placed sits.2) rfl free ok).bind
      fun _ m'' _ later _ => ?_
    exact goodPure later.ok (later.value ok)
  | super node keyword method =>
    refine goodSuperMethod chart sits.1 sits.2 fun d c this u r r' m' entry base receiver given
      found bound => ?_
    cases given
    exact openedBy reach (.super entry base receiver found bound)
  | unary op right =>
    exact (part .operand).bind fun v m' _ done _ => goodUnary done.ok op v
  | binary left op right =>
    refine (part .binaryLeft).bind fun l m' first _ _ => ?_
    exact (part (.binaryRight first)).bind fun r m'' _ done _ => goodBinary done.ok op l r
  | logical left op right =>
    refine (part .logicalLeft).bind fun l m' first done ok => ?_
    refine (goodDecides done.ok op l).bind fun b m'' undecided later _ => ?_
    cases b with
    | true => exact goodPure later.ok (later.value ok)
    | false => exact part (.logicalRight first undecided)
  | grouping inner => exact part .inner
  | call callee paren args =>
    refine (part .callee).bind fun f m' first done ok => ?_
    refine (sound.exprs _ _ (.step reach (.arguments first)) (next (.arguments first))).bind
      fun vs m'' second later values => ?_
    cases arity : f.arity? with
    | none => exact goodFail rfl
    | some k =>
      dsimp only
      split
      · next same =>
        have fits : f.arity? = some vs.length := by rw [arity, same]
        exact sound.call _ _ _ (.step reach (.called first second fits))
          (next (.called first second fits))
      · exact goodFail rfl
  | get object name =>
    refine (part .getObject).bind fun o m' first done ok => ?_
    refine goodGetProperty done.ok ok name fun id c u r r' m'' same given found bound => ?_
    cases same
    cases given
    exact openedBy reach (.property first found bound)
  | set object name value =>
    refine (part .setObject).bind fun o m₁ first done _ => ?_
    refine (goodCheckSettable done.ok o name).bind fun _ m₂ settable _ _ => ?_
    refine (part (.setValue first settable)).bind fun v m₃ _ done ok => ?_
    refine (goodSetProperty done.ok o name ok).bind fun _ m₄ _ later _ => ?_
    exact goodPure later.ok (later.value ok)

theorem soundExprs (es : List Expr) (reach : S.Reaches (n + 1) (.exprs es) m)
    (sits : S.Sits (.exprs es) m) :
    S.Good (Eval.evaluateAll (n + 1) es) m fun vs m' => ∀ v ∈ vs, S.ValueOk m'.store v := by
  have next : ∀ {t' m'}, Calls n (.exprs es) m t' m' → S.Sits t' m' :=
    fun call => sitsNext chart.shaped sound reach sits call
  cases es with
  | nil =>
    rw [Eval.evaluateAll]
    exact goodPure sits.1 (by simp)
  | cons e es =>
    rw [Eval.evaluateAll]
    refine (sound.expr _ _ (.step reach .firstExpr) (next .firstExpr)).bind
      fun v m' first done ok => ?_
    refine (sound.exprs _ _ (.step reach (.laterExprs first)) (next (.laterExprs first))).bind
      fun vs m'' _ later values => ?_
    refine goodPure later.ok fun w mem => ?_
    rcases List.mem_cons.mp mem with rfl | mem
    · exact later.value ok
    · exact values w mem

theorem soundRoutine (r : Routine) (args : List Value)
    (reach : S.Reaches (n + 1) (.routine r args) m) (sits : S.Sits (.routine r args) m) :
    S.Good (Eval.callRoutine (n + 1) r args) m S.Valued := by
  have next : ∀ {t' m'}, Calls n (.routine r args) m t' m' → S.Sits t' m' :=
    fun call => sitsNext chart.shaped sound reach sits call
  rw [Eval.callRoutine]
  refine Good.lifted (mildParameters _ _ _) fun b bound => ?_
  have body := sound.stmts _ _ (.step reach (.body bound)) (next (.body bound))
  have values := parametersAll bound Bindings.allNil sits.2.2
  have grows := Store.Grows.enter m.store r.closure b
  refine Good.bind (Q := fun env m' => env = (m.store.enter r.closure b).1 ∧
      m' = { m with store := (m.store.enter r.closure b).2 })
    (goodChange sits.1 grows (fun all => all.enter (values.mono fun _ ok => valueGrow ok grows) _)
      ⟨rfl, rfl⟩) fun env m' _ done given => ?_
  obtain ⟨rfl, rfl⟩ := given
  refine (goodReturnedBy (goodWithin body)).bind fun o m'' _ later values => ?_
  cases o with
  | none => exact goodPure later.ok (valueDatum _ _)
  | some v =>
    dsimp only
    rw [if_neg (by simp [sits.2.1.1])]
    exact goodPure later.ok (values v rfl)

theorem soundStmts (ss : List Stmt) (reach : S.Reaches (n + 1) (.stmts ss) m)
    (sits : S.Sits (.stmts ss) m) : S.Good (Eval.executeAll (n + 1) ss) m fun _ _ => True := by
  rw [Eval.executeAll]
  induction ss generalizing m with
  | nil => exact goodPure sits.1 trivial
  | cons s ss ih =>
    have next := sitsNext chart.shaped sound reach sits .firstStmt
    refine (sound.stmt _ _ (.step reach .firstStmt) next).bind fun _ m' first _ _ => ?_
    exact ih (.later reach first) (sitsLater chart.shaped sound reach sits first)

theorem soundLoop (cond : Expr) (s : Stmt) (reach : S.Reaches (n + 1) (.loop cond s) m)
    (sits : S.Sits (.loop cond s) m) : S.Good (Eval.loop (n + 1) cond s) m fun _ _ => True := by
  have next : ∀ {t' m'}, Calls n (.loop cond s) m t' m' → S.Sits t' m' :=
    fun call => sitsNext chart.shaped sound reach sits call
  rw [Eval.loop]
  refine (sound.expr _ _ (.step reach .loopCond) (next .loopCond)).bind fun v m' first done _ => ?_
  refine Good.lifted (mildTruth v) fun b truth => ?_
  cases b with
  | false => exact goodPure done.ok trivial
  | true =>
    refine (sound.stmt _ _ (.step reach (.loopBody first truth)) (next (.loopBody first truth))).bind
      fun _ m'' second _ _ => ?_
    exact sound.loop _ _ _ (.step reach (.loopAgain first truth second))
      (next (.loopAgain first truth second))

theorem soundSuperclass (e : Expr) (reach : S.Reaches (n + 1) (.superclass e) m)
    (sits : S.Sits (.superclass e) m) :
    S.Good (Eval.superclass (n + 1) e) m fun c m' => S.ValueOk m'.store (.class_ c) := by
  rw [Eval.superclass]
  refine (sound.expr _ _ (.step reach .superclass)
    (sitsNext chart.shaped sound reach sits .superclass)).bind fun v m' _ done ok => ?_
  cases v with
  | class_ c => exact goodPure done.ok ok
  | _ => exact goodFail rfl

theorem soundCall (f : Value) (args : List Value) (reach : S.Reaches (n + 1) (.call f args) m)
    (sits : S.Sits (.call f args) m) : S.Good (Eval.call (n + 1) f args) m S.Valued := by
  have next : ∀ {t' m'}, Calls n (.call f args) m t' m' → S.Sits t' m' :=
    fun call => sitsNext chart.shaped sound reach sits call
  obtain ⟨h, value, values⟩ := id sits
  rw [Eval.call.eq_def]
  cases f with
  | function id name r => exact sound.routine _ _ _ (.step reach .function) (next .function)
  | class_ c =>
    have grows : m.store.Grows (m.store.newInstance c).2 := .sameFrames rfl
    refine Good.bind (Q := fun v m' => v = .instance_ m.store.fields.size c)
      (goodChange h grows (fun all => all.newInstance c) rfl) fun v m' made done given => ?_
    cases given
    have this : S.ValueOk m'.store (.instance_ m.store.fields.size c) :=
      done.value (v := .instance_ m.store.fields.size c) value
    cases found : c.findMethod? Class.initializer with
    | none => exact goodPure done.ok this
    | some r =>
      dsimp only
      have method : S.MethodOk m'.store r := methodGrow (Class.Holds.found value found) done.grows
      have both : ∀ {r' m''}, Eval.bindRoutine r (.instance_ m.store.fields.size c) m' = .ok r' m'' →
          Eval.boundInitializer c r m = .ok r' m'' := by
        intro r' m'' bound
        unfold Eval.boundInitializer
        rw [bindRun, made]
        exact bound
      refine (goodBindRoutine done.ok method this fun r' m'' bound =>
        openedBy reach (.construct found (both bound))).bind fun r' m'' bound later _ => ?_
      refine (sound.routine _ _ _ (.step reach (.construct found (both bound)))
        (next (.construct found (both bound)))).bind fun _ _ _ last _ => ?_
      exact goodPure last.ok (last.value (later.value this))
  | clock => exact (goodReadClock h).bind fun x m' _ done _ => goodStamp done.ok _
  | accessor id which array =>
    cases which with
    | read =>
      cases args with
      | nil => exact goodFail rfl
      | cons index rest =>
        exact goodAsk h (mildReadCell _ _ _) fun v read => h.store.readCell (valueDatum _ _) read
    | write =>
      cases args with
      | nil => exact goodFail rfl
      | cons index rest =>
        cases rest with
        | nil => exact goodFail rfl
        | cons v rest =>
          refine (goodWriteCell h array index (values v (by simp))).bind fun _ m' _ done _ => ?_
          exact goodPure done.ok (done.value (values v (by simp)))
  | arrayMaker =>
    cases args with
    | nil => exact goodFail rfl
    | cons size rest => exact goodMakeArray h size
  | datum d => exact goodFail rfl
  | instance_ id c => exact goodFail rfl
  | array id => exact goodFail rfl

theorem soundStmt (s : Stmt) (reach : S.Reaches (n + 1) (.stmt s) m) (sits : S.Sits (.stmt s) m) :
    S.Good (Eval.execute (n + 1) s) m fun _ m' =>
      ∀ t ∈ s.declared, ∀ f ∈ m'.env.head?, (m'.store.frame f).has t.lexeme = true := by
  have next : ∀ {t' m'}, Calls n (.stmt s) m t' m' → S.Sits t' m' :=
    fun call => sitsNext chart.shaped sound reach sits call
  have part : ∀ {e' m'}, Calls n (.stmt s) m (.expr e') m' →
      S.Good (Eval.evaluate n e') m' S.Valued :=
    fun call => sound.expr _ _ (.step reach call) (next call)
  rw [Eval.execute.eq_def]
  cases s with
  | missing => exact goodFail rfl
  | expression e =>
    refine (part .expression).bind fun _ m' _ done _ => goodPure done.ok ?_
    rintro _ ⟨⟩
  | print e =>
    refine (part .printed).bind fun v m' _ done _ => (goodEmit done.ok v).mono fun _ _ _ _ => ?_
    rintro _ ⟨⟩
  | var name init =>
    have first := goodGiven sits.1 fun given => part (.initializer given)
    refine first.branch fun v m' _ done ok => ?_
    obtain ⟨c, stands, fits⟩ := done.placed sits.2
    refine (goodLexeme done.ok name).bind fun _ m'' _ later given => ?_
    obtain ⟨u, rfl, rfl⟩ := given
    have free := (stands.shaped chart.shaped).1 u rfl
    have value := valueGrow (later.value ok) (growsDefineIn m''.store m''.env free v)
    have live : ∀ f ∈ m''.env.head?, f < m''.store.frames.size := by
      rw [later.env]
      exact (fits.grow later.grows).headLive
    refine (goodDefineHere later.ok free value live).mono fun _ _ _ has => ?_
    rintro _ ⟨⟩
    exact has
  | block ss =>
    have body := sound.stmts _ _ (.step reach .block) (next .block)
    have grows := Store.Grows.enter m.store m.env []
    refine Good.after (getRun m) (Good.bind (Q := fun env m' => env = (m.store.enter m.env []).1 ∧
        m' = { m with store := (m.store.enter m.env []).2 })
      (goodChange sits.1 grows (fun all => all.enter Bindings.allNil _) ⟨rfl, rfl⟩)
      fun env m' _ done given => ?_)
    obtain ⟨rfl, rfl⟩ := given
    refine (goodWithin body).mono fun _ _ _ _ => ?_
    rintro _ ⟨⟩
  | if_ cond yes no =>
    refine (part .ifCond).bind fun v m' first done _ => ?_
    refine Good.lifted (mildTruth v) fun b truth => ?_
    cases b with
    | true =>
      refine (sound.stmt _ _ (.step reach (.yes first truth)) (next (.yes first truth))).mono
        fun _ _ _ _ => ?_
      rintro _ ⟨⟩
    | false =>
      cases given : no.isMissing with
      | true =>
        refine goodPure done.ok ?_
        rintro _ ⟨⟩
      | false =>
        refine (sound.stmt _ _ (.step reach (.no first truth given))
          (next (.no first truth given))).mono fun _ _ _ _ => ?_
        rintro _ ⟨⟩
  | while_ cond s =>
    refine (sound.loop _ _ _ (.step reach .loop) (next .loop)).mono fun _ _ _ _ => ?_
    rintro _ ⟨⟩
  | function f => exact goodFunction chart.shaped sits
  | return_ keyword value =>
    have first := goodGiven sits.1 fun given => part (.returned given)
    exact first.branch fun v m' _ done ok => goodReturned done.ok ok
  | class_ name methods base =>
    have first := goodBase sits.1 fun given =>
      sound.superclass _ _ (.step reach (.base given)) (next (.base given))
    refine first.branch fun k m' _ done post => ?_
    obtain ⟨c, stands, fits⟩ := done.placed sits.2
    refine goodDeclareClass chart.shaped done.ok stands fits post.1
      (fun c same => (post.2 c same).1) fun u c given same => ?_
    cases given
    exact openedBy reach (.superclass (post.2 c same).2)

end

theorem goodOutOfFuel {α : Type} {Q : α → Machine → Prop} :
    S.Good (throw .outOfFuel : Eval α) m Q := trivial

section

variable (chart : Charted S.machine.locals S.body)

include chart

theorem sound (n : Nat) : Sound S n := by
  induction n with
  | zero =>
    exact {
      expr _ _ _ _ := goodOutOfFuel
      exprs _ _ _ _ := goodOutOfFuel
      call _ _ _ _ _ := goodOutOfFuel
      routine _ _ _ _ _ := goodOutOfFuel
      stmt _ _ _ _ := goodOutOfFuel
      stmts _ _ _ _ := goodOutOfFuel
      loop _ _ _ _ _ := goodOutOfFuel
      superclass _ _ _ _ := goodOutOfFuel }
  | succ n ih =>
    exact {
      expr e _ reach sits := soundExpr chart ih e reach sits
      exprs es _ reach sits := soundExprs chart ih es reach sits
      call f args _ reach sits := soundCall chart ih f args reach sits
      routine r args _ reach sits := soundRoutine chart ih r args reach sits
      stmt s _ reach sits := soundStmt chart ih s reach sits
      stmts ss _ reach sits := soundStmts chart ih ss reach sits
      loop cond s _ reach sits := soundLoop chart ih cond s reach sits
      superclass e _ reach sits := soundSuperclass chart ih e reach sits }

theorem sits (first : S.Sits (.stmts S.body) S.machine) {n : Nat} {t : Task}
    (reach : S.Reaches n t m) : S.Sits t m := by
  induction reach with
  | start => exact first
  | step before next ih => exact sitsNext chart.shaped (sound chart _) before ih next
  | later before first ih => exact sitsLater chart.shaped (sound chart _) before ih first

theorem runGood (first : S.Sits (.stmts S.body) S.machine) :
    S.Good (Eval.executeAll S.fuel S.body) S.machine fun _ _ => True :=
  (sound chart S.fuel).stmts S.body S.machine .start first

end

theorem sitsFirst {memory : Nat} (env : S.machine.env = Store.globalEnv)
    (store : S.machine.store = .initial memory) : S.Sits (.stmts S.body) S.machine := by
  refine ⟨⟨rfl, ?_⟩, {}, .program, ?_⟩
  · rw [store]
    exact .initial trivial trivial
  · rw [env, store]
    exact .globals Nat.one_pos

end Lox.Start
