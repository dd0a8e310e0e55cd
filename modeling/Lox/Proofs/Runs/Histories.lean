import Lox.Proofs.Runs.Disciplines

/-!
Whole runs keep to a discipline. The worlds that a run comes through are one list in order. In it is
a world for each task of the run, as the task begins, and for each frame that a task lays.
-/

namespace Lox

open Eval

inductive Binds (n : Nat) : Task → Machine → Routine → Value → Routine → Prop where
  | construct {c args m r r' m'} (found : c.findMethod? Class.initializer = some r)
      (bound : boundInitializer c r m = .ok r' m') :
      Binds n (.call (.class_ c) args) m r (.instance_ m.store.fields.size c) r'
  | property {object t m id c m' r r' m''} (first : evaluate n object m = .ok (.instance_ id c) m')
      (unset : (m'.store.fieldsOf id).get? t.lexeme = none)
      (found : c.findMethod? t.lexeme = some r)
      (bound : bindRoutine r (.instance_ id c) m' = .ok r' m'') :
      Binds n (.expr (.get object (some t))) m r (.instance_ id c) r'
  | super {node keyword t m d c this r r' m'} (entry : m.locals.distance? node = some d)
      (base : m.store.readAt m.env d "super" = .ok (.class_ c))
      (receiver : m.store.readAt m.env ((d : Int) - 1) "this" = .ok this)
      (found : c.findMethod? t.lexeme = some r) (bound : bindRoutine r this m = .ok r' m') :
      Binds n (.expr (.super node keyword (some t))) m r this r'

inductive Lays (n : Nat) : Task → Machine → Env → Bindings Value → Prop where
  | block {ss m} : Lays n (.stmt (.block ss)) m (m.store.enter m.env []).1 []
  | call {r args m b} (bound : bindParameters r.decl.params args [] = .ok b) :
      Lays n (.routine r args) m (m.store.enter r.closure b).1 b
  | receiver {t m r this r'} (binds : Binds n t m r this r') :
      Lays n t m r'.closure [("this", this)]
  | superclass {t methods base m c m'} (given : base.isMissing = false)
      (first : superclass n base m = .ok c m') :
      Lays n (.stmt (.class_ (some t) methods base)) m
        ((m'.store.defineIn m'.env t.lexeme .nil).enter m'.env [("super", .class_ c)]).1
        [("super", .class_ c)]

def Task.isBare : Task → Bool
  | .expr (.get _ _) | .expr (.super _ _ _) | .call (.class_ _) _ | .routine _ _
  | .stmt (.block _) | .stmt (.class_ _ _ _) => false
  | _ => true

theorem Lays.notBare {n : Nat} {t : Task} {m : Machine} {env : Env} {b : Bindings Value}
    (h : Lays n t m env b) : t.isBare = false := by
  cases h with
  | receiver binds => cases binds <;> rfl
  | _ => rfl

def Task.Shaped : Task → Prop
  | .expr e => e.Shaped
  | .exprs es => Expr.AllShaped es
  | .stmt s => s.Shaped
  | .stmts ss => Stmt.AllShaped ss
  | .loop cond body => cond.Shaped ∧ body.Shaped
  | .superclass e => e.Shaped
  | .call _ _ | .routine _ _ => True

theorem Calls.shaped {n : Nat} {t t' : Task} {m m' : Machine} (next : Calls n t m t' m')
    (h : t.Shaped) (routine : ∀ r args, t = .routine r args → r.decl.Shaped) : t'.Shaped := by
  cases next with
  | assigned => exact h.2
  | operand => exact h
  | binaryLeft => exact h.1
  | binaryRight => exact h.2
  | logicalLeft => exact h.1
  | logicalRight => exact h.2
  | inner => exact h
  | callee => exact h.1
  | arguments => exact h.2
  | called => trivial
  | getObject => exact h
  | setObject => exact h.1
  | setValue => exact h.2
  | firstExpr => exact h.1
  | laterExprs => exact h.2
  | function => trivial
  | construct => trivial
  | body => exact FunDecl.shapedBody (routine _ _ rfl)
  | expression => exact h
  | printed => exact h
  | initializer => exact h.2
  | block => exact h
  | ifCond => exact h.1
  | yes => exact h.2.1
  | no => exact h.2.2.1
  | loop => exact ⟨h.1, h.2.1⟩
  | returned => exact h
  | base => exact shapedSuperclass h.2.2
  | firstStmt => exact h.1
  | loopCond => exact h.1
  | loopBody => exact h.2
  | loopAgain => exact h
  | superclass => exact h

theorem Reaches.first {n k : Nat} {t t' : Task} {m m' : Machine} (h : Reaches n t m k t' m') :
    (k = n ∧ t' = t ∧ m' = m) ∨
      ∃ j, n = j + 1 ∧ ((∃ t₁ m₁, Calls j t m t₁ m₁ ∧ Reaches j t₁ m₁ k t' m') ∨
        ∃ s ss m₁, t = .stmts (s :: ss) ∧ execute j s m = .ok () m₁ ∧
          Reaches (j + 1) (.stmts ss) m₁ k t' m') := by
  induction h with
  | start => exact .inl ⟨rfl, rfl, rfl⟩
  | @step n' t₁ m₁ t₂ m₂ _ next ih =>
    rcases ih with ⟨rfl, rfl, rfl⟩ | ⟨j, rfl, ⟨t₀, m₀, call, reach⟩ | ⟨s, ss, m₀, same, run, reach⟩⟩
    · exact .inr ⟨n', rfl, .inl ⟨t₂, m₂, next, .start⟩⟩
    · exact .inr ⟨j, rfl, .inl ⟨t₀, m₀, call, reach.step next⟩⟩
    · exact .inr ⟨j, rfl, .inr ⟨s, ss, m₀, same, run, reach.step next⟩⟩
  | @later n' s' ss' m₁ m₂ _ first ih =>
    rcases ih with ⟨rfl, rfl, rfl⟩ | ⟨j, rfl, ⟨t₀, m₀, call, reach⟩ | ⟨s, ss, m₀, same, run, reach⟩⟩
    · exact .inr ⟨n', rfl, .inr ⟨s', ss', m₂, rfl, first, .start⟩⟩
    · exact .inr ⟨j, rfl, .inl ⟨t₀, m₀, call, reach.later first⟩⟩
    · exact .inr ⟨j, rfl, .inr ⟨s, ss, m₀, same, run, reach.later first⟩⟩

namespace Discipline

variable {strict : Prop} (D : Discipline strict) {α β : Type}

structure Sits (w : D.World) (t : Task) (m : Machine) : Prop where
  kept : D.Kept w m
  code : strict → t.Shaped
  held : (D.permit w).TaskOk t

def Covered (n : Nat) (t : Task) (m : Machine) (all : List D.World) : Prop :=
  ∀ k t' m', Reaches n t m k t' m' → (∃ w ∈ all, D.Sits w t' m') ∧
    ∀ j env b, k = j + 1 → Lays j t' m' env b → D.Noted all env b

structure Parts (n : Nat) (t : Task) (m : Machine) (all : List D.World) : Prop where
  calls : ∀ t' m', Calls n t m t' m' → D.Covered n t' m' all
  lays : ∀ env b, Lays n t m env b → D.Noted all env b

variable {D} {w : D.World} {m : Machine} {n : Nat} {t : Task} {x : Eval α}
  {Q : D.World → α → Prop} {C : List D.World → Prop}

theorem Goes.begin (h : D.Goes w x m Q C) :
    D.Goes w x m Q fun all => w ∈ all ∧ C all := by
  obtain ⟨ws, w', passes, ends, cover⟩ := h
  refine ⟨w :: ws, w', ⟨passes.le, ?_, ?_, ?_⟩, ends, fun all inside => ⟨inside (by simp), ?_⟩⟩
  · simpa [D.refl] using passes.after
  · simpa [passes.le] using passes.before
  · exact List.pairwise_cons.mpr ⟨passes.after, passes.order⟩
  · exact cover all fun v mem => inside (by simp [mem])

theorem Goes.task (sits : D.Sits w t m) (h : D.Goes w x m Q C)
    (parts : ∀ all, C all → D.Parts n t m all)
    (later : ∀ all, C all → ∀ s ss m', t = .stmts (s :: ss) → execute n s m = .ok () m' →
      D.Covered (n + 1) (.stmts ss) m' all) :
    D.Goes w x m Q (D.Covered (n + 1) t m) := by
  refine h.begin.cover fun all found k t' m' reach => ?_
  have parts := parts all found.2
  rcases reach.first with
    ⟨rfl, rfl, rfl⟩ | ⟨j, same, ⟨t₁, m₁, call, rest⟩ | ⟨s, ss, m₁, list, first, rest⟩⟩
  · refine ⟨⟨w, found.1, sits⟩, fun j env b same lays => ?_⟩
    cases same
    exact parts.lays env b lays
  · cases same
    exact parts.calls t₁ m₁ call k t' m' rest
  · cases same
    exact later all found.2 s ss m₁ list first k t' m' rest

theorem goesOutOfFuel (sits : D.Sits w t m) :
    D.Goes w (throw .outOfFuel : Eval α) m Q (D.Covered 0 t m) := by
  refine (goesStop sits.kept (by simp)).begin.cover fun all found k t' m' reach => ?_
  rcases reach.first with ⟨rfl, rfl, rfl⟩ | ⟨j, same, _⟩
  · exact ⟨⟨w, found.1, sits⟩, fun j env b same => by cases same⟩
  · cases same

theorem Goes.branch {E : α → Machine → List D.World → Prop} {R : D.World → β → Prop} {b : Bool}
    {x y : Eval α} {f : α → Eval β} (first : D.Goes w (if b then x else y) m Q C)
    (rest : ∀ a m' w', (if b then x else y) m = .ok a m' → D.le w w' → D.Kept w' m' → Q w' a →
      D.Goes w' (f a) m' R (E a m')) :
    D.Goes w (if b then x >>= f else y >>= f) m R fun all =>
      C all ∧ ∀ a m', (if b then x else y) m = .ok a m' → E a m' all := by
  cases b with
  | true => exact first.bind rest
  | false => exact first.bind rest

structure Follows (D : Discipline strict) (n : Nat) : Prop where
  expr : ∀ e w m, D.Sits w (.expr e) m →
    D.Goes w (evaluate n e) m D.Valued (D.Covered n (.expr e) m)
  exprs : ∀ es w m, D.Sits w (.exprs es) m →
    D.Goes w (evaluateAll n es) m (fun w' vs => ∀ v ∈ vs, D.Valued w' v)
      (D.Covered n (.exprs es) m)
  call : ∀ f args w m, D.Sits w (.call f args) m →
    D.Goes w (call n f args) m D.Valued (D.Covered n (.call f args) m)
  routine : ∀ r args w m, D.Sits w (.routine r args) m →
    D.Goes w (callRoutine n r args) m D.Valued (D.Covered n (.routine r args) m)
  stmt : ∀ s w m, D.Sits w (.stmt s) m →
    D.Goes w (execute n s) m (fun _ _ => True) (D.Covered n (.stmt s) m)
  stmts : ∀ ss w m, D.Sits w (.stmts ss) m →
    D.Goes w (executeAll n ss) m (fun _ _ => True) (D.Covered n (.stmts ss) m)
  loop : ∀ cond s w m, D.Sits w (.loop cond s) m →
    D.Goes w (loop n cond s) m (fun _ _ => True) (D.Covered n (.loop cond s) m)
  superclass : ∀ e w m, D.Sits w (.superclass e) m →
    D.Goes w (superclass n e) m (fun w' c => (D.permit w').ClassOk c)
      (D.Covered n (.superclass e) m)

theorem followsZero : D.Follows 0 where
  expr _ _ _ sits := goesOutOfFuel sits
  exprs _ _ _ sits := goesOutOfFuel sits
  call _ _ _ _ sits := goesOutOfFuel sits
  routine _ _ _ _ sits := goesOutOfFuel sits
  stmt _ _ _ sits := goesOutOfFuel sits
  stmts _ _ _ sits := goesOutOfFuel sits
  loop _ _ _ _ sits := goesOutOfFuel sits
  superclass _ _ _ sits := goesOutOfFuel sits

theorem partsBare {all : List D.World} (bare : t.isBare = true)
    (calls : ∀ t' m', Calls n t m t' m' → D.Covered n t' m' all) : D.Parts n t m all := by
  refine ⟨calls, fun env b lays => ?_⟩
  rw [lays.notBare] at bare
  cases bare

theorem Goes.leaf (sits : D.Sits w t m) (h : D.Quiet w x m Q) (bare : t.isBare = true)
    (last : ∀ t' m', ¬Calls n t m t' m') : D.Goes w x m Q (D.Covered (n + 1) t m) := by
  refine Goes.task sits h (fun all _ => partsBare bare fun t' m' next => ?_) ?_
  · exact absurd next (last t' m')
  · rintro all _ s ss m' rfl
    exact absurd .firstStmt (last _ _)

theorem Goes.only {t₁ : Task} (sits : D.Sits w t m) (h : D.Goes w x m Q (D.Covered n t₁ m))
    (bare : t.isBare = true) (single : ∀ s ss, t ≠ .stmts (s :: ss))
    (next : ∀ t' m', Calls n t m t' m' → t' = t₁ ∧ m' = m) :
    D.Goes w x m Q (D.Covered (n + 1) t m) := by
  refine Goes.task sits h (fun all found => partsBare bare fun t' m' call => ?_)
    fun _ _ s ss _ same => absurd same (single s ss)
  obtain ⟨rfl, rfl⟩ := next t' m' call
  exact found

theorem Sits.shaped (sits : D.Sits w t m) {t' : Task} {m' : Machine} (next : Calls n t m t' m')
    (h : strict) : t'.Shaped := by
  refine next.shaped (sits.code h) ?_
  rintro r args rfl
  exact (sits.held.1.2 h).1

section

variable (follows : D.Follows n)

include follows

theorem goesPart (sits : D.Sits w t m) {e : Expr} {m' : Machine} {w' : D.World}
    (next : Calls n t m (.expr e) m') (kept : D.Kept w' m') :
    D.Goes w' (evaluate n e) m' D.Valued (D.Covered n (.expr e) m') :=
  follows.expr e w' m' ⟨kept, sits.shaped next, trivial⟩

theorem goesOptional (sits : D.Sits w t m) {e : Expr}
    (next : e.isMissing = false → Calls n t m (.expr e) m) :
    D.Goes w (if e.isMissing then pure .nil else evaluate n e) m D.Valued
      fun all => e.isMissing = false → D.Covered n (.expr e) m all := by
  cases given : e.isMissing with
  | true => exact (goesPure sits.kept trivial).cover (by simp)
  | false => exact (goesPart follows sits (next given) sits.kept).cover fun _ h _ => h

theorem goesLogical (left right : Expr) (op : Option Token)
    (sits : D.Sits w (.expr (.logical left op right)) m) :
    D.Goes w (evaluate (n + 1) (.logical left op right)) m D.Valued
      (D.Covered (n + 1) (.expr (.logical left op right)) m) := by
  rw [Eval.evaluate.eq_def]
  refine Goes.task sits ((goesPart follows sits .logicalLeft sits.kept).bind
    (E := fun l m₁ all => ∀ m₂, decides op l m₁ = .ok false m₂ → D.Covered n (.expr right) m₂ all)
    fun l m₁ w₁ first _ kept₁ ok => ?_) (fun all found => partsBare rfl ?_) (by simp)
  · refine Goes.cover ((goesDecides kept₁ op l).bind (E := fun b m₂ all => b = false →
      D.Covered n (.expr right) m₂ all) fun b m₂ w₂ undecided le kept₂ _ => ?_)
      fun all found m₂ undecided => found.2 _ _ undecided rfl
    cases b with
    | true => exact (goesPure kept₂ ((D.grows le).value ok)).cover (by simp)
    | false =>
      exact (goesPart follows sits (.logicalRight first undecided) kept₂).cover fun _ h _ => h
  · intro t' m' next
    cases next with
    | logicalLeft => exact found.1
    | logicalRight first undecided => exact found.2 _ _ first _ undecided

theorem goesApply (callee : Expr) (paren : Option Token) (args : List Expr)
    (sits : D.Sits w (.expr (.call callee paren args)) m) :
    D.Goes w (evaluate (n + 1) (.call callee paren args)) m D.Valued
      (D.Covered (n + 1) (.expr (.call callee paren args)) m) := by
  rw [Eval.evaluate.eq_def]
  refine Goes.task sits ((goesPart follows sits .callee sits.kept).bind (E := fun f m₁ all =>
    D.Covered n (.exprs args) m₁ all ∧ ∀ vs m₂, evaluateAll n args m₁ = .ok vs m₂ →
      f.arity? = some vs.length → D.Covered n (.call f vs) m₂ all)
    fun f m₁ w₁ first _ kept₁ ok => ?_) (fun all found => partsBare rfl ?_) (by simp)
  · have rest := follows.exprs args w₁ m₁ ⟨kept₁, sits.shaped (.arguments first), trivial⟩
    refine rest.bind (E := fun vs m₂ all => f.arity? = some vs.length →
      D.Covered n (.call f vs) m₂ all) fun vs m₂ w₂ second le kept₂ values => ?_
    cases arity : f.arity? with
    | none => exact (goesFail kept₂ _).cover (by simp)
    | some k =>
      dsimp only
      split
      · next same =>
        exact (follows.call f vs w₂ m₂ ⟨kept₂, fun _ => trivial, (D.grows le).value ok,
          values⟩).cover fun _ h _ => h
      · next differs =>
        refine (goesFail kept₂ _).cover ?_
        rintro _ _ ⟨⟩
        exact absurd rfl differs
  · intro t' m' next
    cases next with
    | callee => exact found.1
    | arguments first => exact (found.2 _ _ first).1
    | called first second fits => exact (found.2 _ _ first).2 _ _ second fits

theorem goesSet (object value : Expr) (name : Option Token)
    (sits : D.Sits w (.expr (.set object name value)) m) :
    D.Goes w (evaluate (n + 1) (.set object name value)) m D.Valued
      (D.Covered (n + 1) (.expr (.set object name value)) m) := by
  rw [Eval.evaluate.eq_def]
  refine Goes.task sits ((goesPart follows sits .setObject sits.kept).bind (E := fun o m₁ all =>
    ∀ m₂, checkSettable o name m₁ = .ok () m₂ → D.Covered n (.expr value) m₂ all)
    fun o m₁ w₁ first _ kept₁ ok => ?_) (fun all found => partsBare rfl ?_) (by simp)
  · refine Goes.cover ((goesCheckSettable kept₁ o name).bind fun _ m₂ w₂ settable le₂ kept₂ _ =>
      (goesPart follows sits (.setValue first settable) kept₂).then
        fun v m₃ w₃ _ le₃ kept₃ value => ?_) fun all found m₂ settable => found.2 _ _ settable
    refine (goesSetProperty kept₃ ((D.grows (D.trans le₂ le₃)).value ok) name value).then
      fun _ m₄ w₄ _ le₄ kept₄ _ => ?_
    exact goesPure kept₄ ((D.grows le₄).value value)
  · intro t' m' next
    cases next with
    | setObject => exact found.1
    | setValue first settable => exact found.2 _ _ first _ settable

theorem goesExpr (e : Expr) (sits : D.Sits w (.expr e) m) :
    D.Goes w (evaluate (n + 1) e) m D.Valued (D.Covered (n + 1) (.expr e) m) := by
  have kept := sits.kept
  cases e with
  | missing => exact Goes.leaf sits (goesFail kept _) rfl (by rintro t' m' ⟨⟩)
  | literal d => exact Goes.leaf sits (goesPure kept trivial) rfl (by rintro t' m' ⟨⟩)
  | reference node name =>
    exact Goes.leaf sits (goesReadVariable kept node name) rfl (by rintro t' m' ⟨⟩)
  | this node keyword =>
    exact Goes.leaf sits (goesReadVariable kept node keyword) rfl (by rintro t' m' ⟨⟩)
  | assign node name value =>
    have free : strict → Free name := fun h => (sits.code h).1
    refine Goes.only sits ((goesPart follows sits .assigned kept).then
      fun v m₁ w₁ _ _ kept₁ ok => ?_) rfl (by simp) (by rintro t' m' ⟨⟩; exact ⟨rfl, rfl⟩)
    refine (goesWriteVariable kept₁ node free ok).then fun _ m₂ w₂ _ le kept₂ _ => ?_
    exact goesPure kept₂ ((D.grows le).value ok)
  | super node keyword method =>
    refine Goes.task sits (goesSuperMethod kept node method) (fun all found => ⟨?_, ?_⟩) (by simp)
    · rintro t' m' ⟨⟩
    · rintro env b (_ | _ | binds)
      cases binds with
      | super entry base receiver look bound =>
        exact found _ _ _ _ _ _ _ rfl entry base receiver look bound
  | unary op right =>
    exact Goes.only sits ((goesPart follows sits .operand kept).then fun v m₁ w₁ _ _ kept₁ _ =>
      goesUnary kept₁ op v) rfl (by simp) (by rintro t' m' ⟨⟩; exact ⟨rfl, rfl⟩)
  | binary left op right =>
    refine Goes.task sits ((goesPart follows sits .binaryLeft kept).bind
      fun l m₁ w₁ first _ kept₁ _ => (goesPart follows sits (.binaryRight first) kept₁).then
        fun r m₂ w₂ _ _ kept₂ _ => goesBinary kept₂ op l r)
      (fun all found => partsBare rfl ?_) (by simp)
    intro t' m' next
    cases next with
    | binaryLeft => exact found.1
    | binaryRight first => exact found.2 _ _ first
  | logical left op right => exact goesLogical follows left right op sits
  | grouping inner =>
    exact Goes.only sits (goesPart follows sits .inner kept) rfl (by simp)
      (by rintro t' m' ⟨⟩; exact ⟨rfl, rfl⟩)
  | call callee paren args => exact goesApply follows callee paren args sits
  | get object name =>
    refine Goes.task sits ((goesPart follows sits .getObject kept).bind
      fun o m₁ w₁ _ _ kept₁ ok => goesGetProperty kept₁ ok name) (fun all found => ⟨?_, ?_⟩) (by simp)
    · rintro t' m' ⟨⟩
      exact found.1
    · rintro env b (_ | _ | binds)
      cases binds with
      | property first unset look bound =>
        exact found.2 _ _ first _ _ _ _ _ _ rfl rfl unset look bound
  | set object name value => exact goesSet follows object value name sits

theorem goesExprs (es : List Expr) (sits : D.Sits w (.exprs es) m) :
    D.Goes w (evaluateAll (n + 1) es) m (fun w' vs => ∀ v ∈ vs, D.Valued w' v)
      (D.Covered (n + 1) (.exprs es) m) := by
  cases es with
  | nil =>
    rw [Eval.evaluateAll]
    exact Goes.leaf sits (goesPure sits.kept (by simp)) rfl (by rintro t' m' ⟨⟩)
  | cons e es =>
    rw [Eval.evaluateAll]
    refine Goes.task sits ((goesPart follows sits .firstExpr sits.kept).bind
      fun v m₁ w₁ first _ kept₁ ok =>
        (follows.exprs es w₁ m₁ ⟨kept₁, sits.shaped (.laterExprs first), trivial⟩).then
      fun vs m₂ w₂ _ le kept₂ values => goesPure kept₂ ?_) (fun all found => partsBare rfl ?_)
      (by simp)
    · intro u mem
      rcases List.mem_cons.mp mem with rfl | mem
      · exact (D.grows le).value ok
      · exact values u mem
    · intro t' m' next
      cases next with
      | firstExpr => exact found.1
      | laterExprs first => exact found.2 _ _ first

theorem goesRoutine (r : Routine) (args : List Value) (sits : D.Sits w (.routine r args) m) :
    D.Goes w (callRoutine (n + 1) r args) m D.Valued (D.Covered (n + 1) (.routine r args) m) := by
  obtain ⟨kept, -, ok, values⟩ := id sits
  have body : strict → Stmt.AllShaped r.decl.body := fun h => FunDecl.shapedBody (ok.2 h).1
  rw [Eval.callRoutine]
  refine Goes.task sits (Goes.lifted kept (E := fun b all =>
    D.Noted all (m.store.enter r.closure b).1 b ∧
      D.Covered n (.stmts r.decl.body) (m.entering r.closure b) all) fun b bound => ?_)
    (fun all found => ⟨?_, ?_⟩) (by simp)
  · have arguments := parametersAll bound Bindings.allNil values
    refine Goes.cover ((goesEnter kept ok.1 arguments).bind (E := fun env m₁ all =>
      D.Covered n (.stmts r.decl.body) { m₁ with env := env } all)
      fun env m₁ w₁ run le₁ kept₁ known => ?_) fun all found => ⟨found.1, found.2 _ _ rfl⟩
    have inner := follows.stmts r.decl.body w₁ { m₁ with env := env }
      ⟨⟨kept₁.store, known⟩, body, trivial⟩
    refine (goesReturnedBy (goesWithin kept₁ inner)).then fun o m₂ w₂ _ le₂ kept₂ returned => ?_
    cases o with
    | none => exact goesPure kept₂ trivial
    | some v =>
      dsimp only
      split
      · have closure := (D.grows (D.trans le₁ le₂)).env _ ok.1
        exact goesAsk kept₂ fun u read => readAtOk kept₂.store closure read
      · exact goesPure kept₂ (returned v rfl)
  · intro t' m' next
    cases next with
    | body bound => exact (found _ bound).2
  · intro env b lays
    cases lays with
    | call bound => exact (found _ bound).1
    | receiver binds => cases binds

theorem goesStmts (ss : List Stmt) (sits : D.Sits w (.stmts ss) m) :
    D.Goes w (executeAll (n + 1) ss) m (fun _ _ => True) (D.Covered (n + 1) (.stmts ss) m) := by
  rw [Eval.executeAll]
  induction ss generalizing w m with
  | nil => exact Goes.leaf sits (goesPure sits.kept trivial) rfl (by rintro t' m' ⟨⟩)
  | cons s ss ih =>
    refine Goes.task sits ((follows.stmt s w m ⟨sits.kept, fun h => (sits.code h).1, trivial⟩).bind
      fun _ m₁ w₁ _ _ kept₁ _ => ih ⟨kept₁, fun h => (sits.code h).2, trivial⟩)
      (fun all found => partsBare rfl ?_) ?_
    · rintro t' m' ⟨⟩
      exact found.1
    · rintro all found _ _ m' ⟨⟩ first
      exact found.2 _ _ first

theorem goesLoop (cond : Expr) (s : Stmt) (sits : D.Sits w (.loop cond s) m) :
    D.Goes w (loop (n + 1) cond s) m (fun _ _ => True) (D.Covered (n + 1) (.loop cond s) m) := by
  rw [Eval.loop]
  refine Goes.task sits ((goesPart follows sits .loopCond sits.kept).bind
    (E := fun v m₁ all => v.truth = .ok true → D.Covered n (.stmt s) m₁ all ∧
      ∀ m₂, execute n s m₁ = .ok () m₂ → D.Covered n (.loop cond s) m₂ all)
    fun v m₁ w₁ first _ kept₁ _ => ?_) (fun all found => partsBare rfl ?_) (by simp)
  · refine Goes.cover (Goes.lifted kept₁ (E := fun b all => b = true →
      D.Covered n (.stmt s) m₁ all ∧
        ∀ m₂, execute n s m₁ = .ok () m₂ → D.Covered n (.loop cond s) m₂ all) fun b truth => ?_)
      fun all found holds => found true holds rfl
    cases b with
    | false =>
      refine (goesPure kept₁ trivial).cover ?_
      rintro _ _ ⟨⟩
    | true =>
      refine Goes.cover ((follows.stmt s w₁ m₁ ⟨kept₁, sits.shaped (.loopBody first truth), trivial⟩).bind
        fun _ m₂ w₂ second _ kept₂ _ => follows.loop cond s w₂ m₂
          ⟨kept₂, sits.shaped (.loopAgain first truth second), trivial⟩) fun all found _ => ?_
      exact ⟨found.1, fun m₂ second => found.2 _ _ second⟩
  · intro t' m' next
    cases next with
    | loopCond => exact found.1
    | loopBody first holds => exact (found.2 _ _ first holds).1
    | loopAgain first holds second => exact (found.2 _ _ first holds).2 _ second

theorem goesSuperclass (e : Expr) (sits : D.Sits w (.superclass e) m) :
    D.Goes w (superclass (n + 1) e) m (fun w' c => (D.permit w').ClassOk c)
      (D.Covered (n + 1) (.superclass e) m) := by
  rw [Eval.superclass]
  refine Goes.only sits ((goesPart follows sits .superclass sits.kept).then
    fun v m₁ w₁ _ _ kept₁ ok => ?_) rfl (by simp) (by rintro t' m' ⟨⟩; exact ⟨rfl, rfl⟩)
  cases v with
  | class_ c => exact goesPure kept₁ ok
  | _ => exact goesFail kept₁ _

theorem goesConstruct (c : Class) (args : List Value) (sits : D.Sits w (.call (.class_ c) args) m) :
    D.Goes w (call (n + 1) (.class_ c) args) m D.Valued
      (D.Covered (n + 1) (.call (.class_ c) args) m) := by
  obtain ⟨kept, -, value, values⟩ := id sits
  obtain ⟨w₁, le₁, store₁, known⟩ := D.newInstance kept.store value
  rw [Eval.call.eq_def]
  have made : D.Quiet w (change fun s => s.newInstance c) m fun w' v =>
      v = .instance_ m.store.fields.size c ∧ D.Valued w' v :=
    goesChange kept ⟨w₁, le₁, store₁, rfl, known, (D.grows le₁).class_ value⟩
  refine Goes.task sits (made.bind (E := fun this m₁ all => ∀ r r' m₂,
    c.findMethod? Class.initializer = some r → bindRoutine r this m₁ = .ok r' m₂ →
    D.Noted all r'.closure [("this", this)] ∧ D.Covered n (.routine r' args) m₂ all)
    fun this m₁ w₁ run le₁ kept₁ ok => ?_) (fun all found => ⟨?_, ?_⟩) (by simp)
  · obtain ⟨rfl, this⟩ := ok
    cases look : c.findMethod? Class.initializer with
    | none =>
      refine (goesPure kept₁ this).cover ?_
      rintro _ _ r r' m₂ ⟨⟩
    | some r =>
      have method := Permit.found ((D.grows le₁).class_ value) look
      refine Goes.cover ((goesBindRoutine kept₁ method this).bind
        (E := fun r' m₂ all => D.Covered n (.routine r' args) m₂ all)
        fun r' m₂ w₂ bound le₂ kept₂ ok => ?_) ?_
      · have given : ∀ a ∈ args, D.Valued w₂ a :=
          fun a mem => (D.grows (D.trans le₁ le₂)).value (values a mem)
        refine (follows.routine r' args w₂ m₂ ⟨kept₂, fun _ => trivial, ok, given⟩).then
          fun _ m₃ w₃ _ le₃ kept₃ _ => goesPure kept₃ ?_
        exact (D.grows (D.trans le₂ le₃)).value this
      · rintro all found r₁ r' m₂ ⟨⟩ bound
        exact ⟨found.1 _ _ bound, found.2 _ _ bound⟩
  · intro t' m' next
    cases next with
    | construct look bound => exact (found.2 _ _ rfl _ _ _ look bound).2
  · rintro env b (_ | _ | binds)
    cases binds with
    | construct look bound => exact (found.2 _ _ rfl _ _ _ look bound).1

theorem goesCall (f : Value) (args : List Value) (sits : D.Sits w (.call f args) m) :
    D.Goes w (call (n + 1) f args) m D.Valued (D.Covered (n + 1) (.call f args) m) := by
  obtain ⟨kept, -, value, values⟩ := id sits
  cases f with
  | function id name r =>
    exact Goes.only sits (follows.routine r args w m ⟨kept, fun _ => trivial, value, values⟩) rfl
      (by simp) (by rintro t' m' ⟨⟩; exact ⟨rfl, rfl⟩)
  | class_ c => exact goesConstruct follows c args sits
  | clock =>
    refine Goes.leaf sits ?_ rfl (by rintro t' m' ⟨⟩)
    exact (goesReadClock kept).then fun x m₁ w₁ _ _ kept₁ _ => goesStamp kept₁ _
  | accessor id which array =>
    rw [Eval.call.eq_def]
    refine Goes.leaf sits ?_ rfl (by rintro t' m' ⟨⟩)
    cases which with
    | read =>
      cases args with
      | nil => exact goesFail kept _
      | cons index rest => exact goesReadCell kept value index
    | write =>
      cases args with
      | nil => exact goesFail kept _
      | cons index rest =>
        cases rest with
        | nil => exact goesFail kept _
        | cons v rest =>
          have given : D.Valued w v := values v (by simp)
          refine (goesWriteCell kept value index given).then fun _ m₁ w₁ _ le kept₁ _ => ?_
          exact goesPure kept₁ ((D.grows le).value given)
  | arrayMaker =>
    rw [Eval.call.eq_def]
    refine Goes.leaf sits ?_ rfl (by rintro t' m' ⟨⟩)
    cases args with
    | nil => exact goesFail kept _
    | cons size rest => exact goesMakeArray kept size
  | datum d => exact Goes.leaf sits (goesFail kept _) rfl (by rintro t' m' ⟨⟩)
  | instance_ id c => exact Goes.leaf sits (goesFail kept _) rfl (by rintro t' m' ⟨⟩)
  | array id => exact Goes.leaf sits (goesFail kept _) rfl (by rintro t' m' ⟨⟩)

theorem goesBlock (ss : List Stmt) (sits : D.Sits w (.stmt (.block ss)) m) :
    D.Goes w (execute (n + 1) (.block ss)) m (fun _ _ => True)
      (D.Covered (n + 1) (.stmt (.block ss)) m) := by
  rw [Eval.execute.eq_def]
  refine Goes.task sits (Goes.after (getRun m)
    ((goesEnter sits.kept sits.kept.env Bindings.allNil).bind
      (E := fun env m₁ all => D.Covered n (.stmts ss) { m₁ with env := env } all)
      fun env m₁ w₁ run le₁ kept₁ known => ?_)) (fun all found => ⟨?_, ?_⟩) (by simp)
  · exact goesWithin kept₁ (follows.stmts ss w₁ { m₁ with env := env }
      ⟨⟨kept₁.store, known⟩, sits.code, trivial⟩)
  · rintro t' m' ⟨⟩
    exact found.2 _ _ rfl
  · intro env b lays
    cases lays with
    | block => exact found.1
    | receiver binds => cases binds

theorem goesIf (cond : Expr) (yes no : Stmt) (sits : D.Sits w (.stmt (.if_ cond yes no)) m) :
    D.Goes w (execute (n + 1) (.if_ cond yes no)) m (fun _ _ => True)
      (D.Covered (n + 1) (.stmt (.if_ cond yes no)) m) := by
  rw [Eval.execute.eq_def]
  refine Goes.task sits ((goesPart follows sits .ifCond sits.kept).bind (E := fun v m₁ all =>
    (v.truth = .ok true → D.Covered n (.stmt yes) m₁ all) ∧
      (v.truth = .ok false → no.isMissing = false → D.Covered n (.stmt no) m₁ all))
    fun v m₁ w₁ first _ kept₁ _ => ?_) (fun all found => partsBare rfl ?_) (by simp)
  · refine Goes.cover (Goes.lifted kept₁ (E := fun b all =>
      (b = true → D.Covered n (.stmt yes) m₁ all) ∧
        (b = false → no.isMissing = false → D.Covered n (.stmt no) m₁ all)) fun b truth => ?_)
      fun all found => ⟨fun h => (found _ h).1 rfl, fun h => (found _ h).2 rfl⟩
    cases b with
    | true =>
      exact (follows.stmt yes w₁ m₁ ⟨kept₁, sits.shaped (.yes first truth), trivial⟩).cover
        fun _ h => ⟨fun _ => h, by simp⟩
    | false =>
      cases given : no.isMissing with
      | true => exact (goesPure kept₁ trivial).cover (by simp)
      | false =>
        exact (follows.stmt no w₁ m₁ ⟨kept₁, sits.shaped (.no first truth given), trivial⟩).cover
          fun _ h => ⟨by simp, fun _ _ => h⟩
  · intro t' m' next
    cases next with
    | ifCond => exact found.1
    | yes first holds => exact (found.2 _ _ first).1 holds
    | no first fails given => exact (found.2 _ _ first).2 fails given

theorem goesClass (name : Option Token) (methods : List FunDecl) (base : Expr)
    (sits : D.Sits w (.stmt (.class_ name methods base)) m) :
    D.Goes w (execute (n + 1) (.class_ name methods base)) m (fun _ _ => True)
      (D.Covered (n + 1) (.stmt (.class_ name methods base)) m) := by
  rw [Eval.execute.eq_def]
  have first : D.Goes w (if base.isMissing then pure none else some <$> superclass n base) m
      (fun w' k => ∀ c, k = some c → (D.permit w').ClassOk c)
      fun all => base.isMissing = false → D.Covered n (.superclass base) m all := by
    cases given : base.isMissing with
    | true => exact (goesPure sits.kept (by simp)).cover (by simp)
    | false =>
      rw [if_neg (by simp), map_eq_pure_bind]
      have above := follows.superclass base w m
        ⟨sits.kept, sits.shaped (n := n) (.base given), trivial⟩
      refine Goes.cover (above.then fun c m₁ w₁ _ _ kept₁ ok => goesPure kept₁ ?_) fun _ h _ => h
      rintro _ ⟨⟩
      exact ok
  refine Goes.task sits (first.branch fun k m₁ w₁ _ _ kept₁ inherited =>
    goesDeclareClass kept₁ (fun h => (sits.code h).1) (fun h => (sits.code h).2.1) inherited)
    (fun all found => ⟨?_, ?_⟩) (by simp)
  · rintro t' m' ⟨⟩
    next given => exact found.1 given
  · intro env b lays
    cases lays with
    | superclass given run =>
      refine found.2 (some _) _ ?_ _ _ rfl rfl
      rw [given, if_neg (by simp), map_eq_pure_bind, bindRun, run]
      rfl
    | receiver binds => cases binds

theorem goesStmt (s : Stmt) (sits : D.Sits w (.stmt s) m) :
    D.Goes w (execute (n + 1) s) m (fun _ _ => True) (D.Covered (n + 1) (.stmt s) m) := by
  have kept := sits.kept
  cases s with
  | missing => exact Goes.leaf sits (goesFail kept _) rfl (by rintro t' m' ⟨⟩)
  | expression e =>
    exact Goes.only sits ((goesPart follows sits .expression kept).then
      fun _ m₁ w₁ _ _ kept₁ _ => goesPure kept₁ trivial) rfl (by simp)
      (by rintro t' m' ⟨⟩; exact ⟨rfl, rfl⟩)
  | print e =>
    exact Goes.only sits ((goesPart follows sits .printed kept).then
      fun v m₁ w₁ _ _ kept₁ _ => goesEmit kept₁ v) rfl (by simp)
      (by rintro t' m' ⟨⟩; exact ⟨rfl, rfl⟩)
  | var name init =>
    have free : strict → Free name := fun h => (sits.code h).1
    rw [Eval.execute.eq_def]
    refine Goes.task sits ((goesOptional follows sits .initializer).branch
      fun v m₁ w₁ _ _ kept₁ ok => (goesLexeme kept₁ name).then fun _ m₂ w₂ _ le kept₂ given => ?_)
      (fun all found => partsBare rfl ?_) (by simp)
    · obtain ⟨u, rfl, rfl⟩ := given
      exact goesDefineHere kept₂ (fun h => free h u rfl) ((D.grows le).value ok)
    · rintro t' m' ⟨⟩
      next given => exact found.1 given
  | block ss => exact goesBlock follows ss sits
  | if_ cond yes no => exact goesIf follows cond yes no sits
  | while_ cond s =>
    exact Goes.only sits (follows.loop cond s w m ⟨kept, sits.shaped (n := n) .loop, trivial⟩) rfl
      (by simp) (by rintro t' m' ⟨⟩; exact ⟨rfl, rfl⟩)
  | function f =>
    have free : strict → Free f.name := fun h => freeDeclared (s := .function f) (sits.code h)
    rw [Eval.execute.eq_def]
    refine Goes.leaf sits (Goes.after (getRun m) ((goesFunctionValue (r := ⟨f, m.env, false⟩) kept
      kept.env sits.code).then fun v m₁ w₁ _ _ kept₁ ok => (goesLexeme kept₁ f.name).then
      fun _ m₂ w₂ _ le kept₂ given => ?_)) rfl (by rintro t' m' ⟨⟩)
    obtain ⟨u, named, rfl⟩ := given
    exact goesDefineHere kept₂ (fun h => free h u named) ((D.grows le).value ok)
  | return_ keyword value =>
    rw [Eval.execute.eq_def]
    refine Goes.task sits ((goesOptional follows sits .returned).branch
      fun v m₁ w₁ _ _ kept₁ ok => goesReturned kept₁ ok) (fun all found => partsBare rfl ?_) (by simp)
    rintro t' m' ⟨⟩
    next given => exact found.1 given
  | class_ name methods base => exact goesClass follows name methods base sits

end

theorem follows (n : Nat) : D.Follows n := by
  induction n with
  | zero => exact followsZero
  | succ n ih =>
    exact {
      expr e _ _ sits := goesExpr ih e sits
      exprs es _ _ sits := goesExprs ih es sits
      call f args _ _ sits := goesCall ih f args sits
      routine r args _ _ sits := goesRoutine ih r args sits
      stmt s _ _ sits := goesStmt ih s sits
      stmts ss _ _ sits := goesStmts ih ss sits
      loop cond s _ _ sits := goesLoop ih cond s sits
      superclass e _ _ sits := goesSuperclass ih e sits }

end Discipline
end Lox
