import Lox.Proofs.Loops.Following
import Lox.Proofs.Loops.Iteration
import Lox.Proofs.Loops.Twins
import Lox.Proofs.Parsing.Shape

/-!
The clauses of a loop through all stages. The parser reads them before it makes a tree of them, and
they are numbered in the order in which they are run. The meaning of the loop has one scope for all
of them; where the tree is resolved without a report, so are the clauses in that scope, and then
they are twins.
-/

namespace Lox

namespace Parse

def forParts (fuel : Nat) : Parse For := do
  let _ ← expect .leftParen "Expect ( after 'for'"
  let init ← initializer fuel
  let cond ← clause fuel .semicolon
  let _ ← expect .semicolon "Expect ';' after loop condition."
  let step ← clause fuel .rightParen
  let _ ← expect .rightParen "Expect ')' after for clauses."
  let body ← statement fuel
  return ⟨init, cond, step, body⟩

theorem forStatementParts (n : Nat) : forStatement (n + 1) = For.tree <$> forParts n := by
  unfold forStatement forParts
  simp only [map_bind, map_pure]
  rfl

end Parse

namespace For

structure Parsed (p : For) : Prop where
  init : ∀ s ∈ p.init, s.Shaped
  cond : Parse.IsExpression p.cond
  step : Parse.IsExpression p.step
  body : Parse.IsStatement p.body

theorem yieldsParts (n : Nat) : Parse.Yields (Parse.forParts n) Parsed :=
  (Parse.yieldsExpect _ _).bind fun _ _ => (Parse.yieldsInitializer n).bind fun _ hi =>
    (Parse.yieldsClause n _).bind fun _ hc => (Parse.yieldsExpect _ _).bind fun _ _ =>
      (Parse.yieldsClause n _).bind fun _ hs => (Parse.yieldsExpect _ _).bind fun _ _ =>
        (Parse.stmtRules n).statement.bind fun _ hb => Parse.yieldsPure ⟨hi, hc, hs, hb⟩

def number (p : For) : Numbering For := do
  let init ← p.init.mapM Stmt.number
  let cond ← p.cond.number
  let body ← p.body.number
  return ⟨init, cond, ← p.step.number, body⟩

def given (e : Expr) (rest : List Stmt) : List Stmt :=
  if e.isMissing then rest else .expression e :: rest

def scope (p : For) : Stmt := .block (p.init.toList ++ given p.cond (p.body :: given p.step []))

theorem numberTreeCond (p : For) (n : Nat) : p.treeCond.number n =
    (treeCond { p with cond := (p.cond.number n).1 }, (p.cond.number n).2) := by
  obtain ⟨init, cond, step, body⟩ := p
  cases cond <;> rfl

theorem numberTreeBody (p : For) (n : Nat) : p.treeBody.number n =
    (treeBody { p with
      body := (p.body.number n).1
      step := (p.step.number (p.body.number n).2).1 }, (p.step.number (p.body.number n).2).2) := by
  obtain ⟨init, cond, step, body⟩ := p
  cases step <;> rfl

theorem numberLoop (p : For) (n : Nat) : p.treeLoop.number n =
    (treeLoop { p with
      cond := (p.cond.number n).1
      body := (p.body.number (p.cond.number n).2).1
      step := (p.step.number (p.body.number (p.cond.number n).2).2).1 },
      (p.step.number (p.body.number (p.cond.number n).2).2).2) := by
  have parts : p.treeLoop.number n = (.while_ (p.treeCond.number n).1
      (p.treeBody.number (p.treeCond.number n).2).1,
      (p.treeBody.number (p.treeCond.number n).2).2) := rfl
  rw [parts, numberTreeCond, numberTreeBody]
  rfl

theorem numberTree (p : For) (k : Nat) :
    p.tree.number k = ((p.number k).1.tree, (p.number k).2) := by
  obtain ⟨init, cond, step, body⟩ := p
  cases init with
  | none => exact numberLoop ⟨none, cond, step, body⟩ k
  | some s =>
    have parts : ∀ b : Stmt, (Stmt.block [s, b]).number k =
        (.block [(s.number k).1, (b.number (s.number k).2).1], (b.number (s.number k).2).2) :=
      fun _ => rfl
    show (Stmt.block [s, treeLoop ⟨some s, cond, step, body⟩]).number k = _
    rw [parts, numberLoop]
    rfl

theorem numberGiven (e : Expr) (ss : List Stmt) (n : Nat) : Stmt.numberAll (given e ss) n =
    (given (e.number n).1 (Stmt.numberAll ss (e.number n).2).1,
      (Stmt.numberAll ss (e.number n).2).2) := by
  cases e <;> rfl

theorem numberScope (p : For) (k : Nat) :
    p.scope.number k = ((p.number k).1.scope, (p.number k).2) := by
  obtain ⟨init, cond, step, body⟩ := p
  have rest : ∀ n, Stmt.numberAll (body :: given step []) n =
      ((body.number n).1 :: (Stmt.numberAll (given step []) (body.number n).2).1,
        (Stmt.numberAll (given step []) (body.number n).2).2) := fun _ => rfl
  have parts : ∀ n, Stmt.numberAll (given cond (body :: given step [])) n =
      (given (cond.number n).1 ((body.number (cond.number n).2).1 ::
        given (step.number (body.number (cond.number n).2).2).1 []),
        (step.number (body.number (cond.number n).2).2).2) := by
    intro n
    rw [numberGiven, rest, numberGiven]
    rfl
  cases init with
  | none => exact congrArg (fun body => (Stmt.block body.1, body.2)) (parts k)
  | some s =>
    exact congrArg (fun body => (Stmt.block ((s.number k).1 :: body.1), body.2)) (parts (s.number k).2)

theorem Parsed.number {p : For} (h : p.Parsed) (k : Nat) : (p.number k).1.Parsed := by
  have expression : ∀ {e : Expr} (n : Nat), Parse.IsExpression e →
      Parse.IsExpression (e.number n).1 :=
    fun n he => ⟨(numberExpr _ n).2 he.1, namedNumber _ n he.2⟩
  have statement : ∀ {s : Stmt} (n : Nat), Parse.IsStatement s →
      Parse.IsStatement (s.number n).1 :=
    fun n hs => ⟨(numberStmt _ n).2 hs.1, (numberDeclaration _ n).trans hs.2.1,
      namedNumberStmt _ n hs.2.2⟩
  obtain ⟨init, cond, step, body⟩ := p
  cases init with
  | none => exact ⟨nofun, expression _ h.cond, expression _ h.step, statement _ h.body⟩
  | some s =>
    refine ⟨?_, expression _ h.cond, expression _ h.step, statement _ h.body⟩
    rintro _ ⟨⟩
    exact (numberStmt s k).2 (h.init s rfl)

end For

def Reached (L : Locals) (c : Context) (S : List Scope) (part : Part) : Prop :=
  ∃ c', c'.names = S ∧ c'.function = c.function ∧ c'.klass = c.klass ∧ Walked L c' part

namespace Reached

variable {L : Locals} {c : Context} {S : List Scope}

theorem block {ss : List Stmt} (h : Reached L c S (.stmt (.block ss)))
    (shaped : Stmt.AllShaped ss) : Reached L c ([] :: S) (.stmts ss) := by
  obtain ⟨c', names, function, klass, _, _, w⟩ := h
  exact ⟨c'.inBlock ss, congrArg ([] :: ·) names, function, klass, walkBlock w shaped⟩

theorem cons {s : Stmt} {ss : List Stmt} (h : Reached L c S (.stmts (s :: ss)))
    (shaped : Stmt.AllShaped (s :: ss)) :
    Reached L c S (.stmt s) ∧ Reached L c (putName S s.declared true) (.stmts ss) := by
  obtain ⟨c', names, function, klass, _, _, w⟩ := h
  obtain ⟨first, rest⟩ := walkFirst w shaped
  refine ⟨⟨c', names, function, klass, first⟩, c'.after s, ?_, ?_, ?_, rest⟩
  · exact (namesDeclare c' s.declared true).trans (by rw [names])
  · exact (c'.functionDeclare s.declared true).trans function
  · exact (c'.klassDeclare s.declared true).trans klass

theorem expression {e : Expr} (h : Reached L c S (.stmt (.expression e))) :
    Reached L c S (.expr e) := by
  obtain ⟨c', names, function, klass, _, _, w⟩ := h
  exact ⟨c', names, function, klass, w.whole w.run rfl⟩

theorem while_ {cond : Expr} {body : Stmt} (h : Reached L c S (.stmt (.while_ cond body)))
    (shaped : (Stmt.while_ cond body).Shaped) :
    Reached L c S (.expr cond) ∧ Reached L c S (.stmt body) := by
  obtain ⟨c', names, function, klass, _, _, w⟩ := h
  obtain ⟨test, inner⟩ := w.pair cond (.stmt body) w.run rfl ⟨shaped.1, shaped.2.1⟩
  exact ⟨⟨c', names, function, klass, test⟩, c', names, function, klass, inner⟩

end Reached

namespace Resolve

variable {L : Locals} {c : Context} {S S' : List Scope} {π : Layout}

def Quiet (c : Context) (x : Resolve Unit) (S S' : List Scope) : Prop :=
  ∀ r : Resolver, r.scopes = S → r.function = c.function → r.klass = c.klass →
    ∃ r', x r = .ok () r' ∧ r'.log = r.log ∧ r'.scopes = S' ∧ r'.function = c.function ∧
      r'.klass = c.klass

theorem Quiet.bind {x y : Resolve Unit} {S S' S'' : List Scope} (first : Quiet c x S S')
    (rest : Quiet c y S' S'') : Quiet c (do x; y) S S'' := by
  intro r scopes function klass
  obtain ⟨s, run, log, scopes, function, klass⟩ := first r scopes function klass
  obtain ⟨t, run', log', last⟩ := rest s scopes function klass
  exact ⟨t, bindOk.mpr ⟨(), s, run, run'⟩, log'.trans log, last⟩

theorem reachedFit {part : Part} (h : Reached L c S part) (fit : ScopesFit π S S')
    {r' : Resolver} (scopes : r'.scopes = S') (function : r'.function = c.function)
    (klass : r'.klass = c.klass) (follows : Follows π π part.walk part.walk) :
    ∃ s', part.walk r' = .ok () s' ∧ s'.log = r'.log := by
  obtain ⟨c', names, function', klass', r, s, w⟩ := h
  have fits : Fit π r r' := by
    refine ⟨?_, ?_, ?_⟩
    · rw [w.scopes, names, scopes]
      exact fit
    · rw [w.function, function', function]
    · rw [w.klass, klass', klass]
  obtain ⟨s', run, silent, -⟩ := follows.follows fits w.run w.silent
  exact ⟨s', run, silent⟩

theorem quietExpr {e : Expr} (parsed : Parse.IsExpression e) (fit : ScopesFit π S S')
    (h : Reached L c S (.expr e)) : Quiet c (expr e) S' S' := by
  intro r scopes function klass
  obtain ⟨s, run, silent⟩ :=
    reachedFit h fit scopes function klass (followsExpr e parsed.1 (.inr parsed.2))
  have kept := staysExpr e run
  exact ⟨s, run, silent, kept.scopes.trans scopes, kept.function.trans function,
    kept.klass.trans klass⟩

theorem quietStmt {s : Stmt} (shaped : s.Shaped) (place : π.Open ∨ s.isDeclaration = false)
    (named : π.Inside ∨ s.Named) (fit : ScopesFit π S S') (h : Reached L c S (.stmt s)) :
    Quiet c (stmt s) S' (putName S' s.declared true) := by
  intro r scopes function klass
  obtain ⟨t, run, silent⟩ :=
    reachedFit h fit scopes function klass (followsStmt s shaped place named)
  obtain ⟨kept, after⟩ := steadyStmt s shaped run
  exact ⟨t, run, silent, after.trans (by rw [scopes]), kept.function.trans function,
    kept.klass.trans klass⟩

theorem quietCons {s : Stmt} {ss : List Stmt} {S'' : List Scope} (there : s.isMissing = false)
    (first : Quiet c (stmt s) S S') (rest : Quiet c (stmts ss) S' S'') :
    Quiet c (stmts (s :: ss)) S S'' := by
  intro r scopes function klass
  obtain ⟨r', run, ends⟩ := first.bind rest r scopes function klass
  refine ⟨r', ?_, ends⟩
  unfold stmts
  dsimp only
  rw [if_neg (by simp [there])]
  exact run

end Resolve

namespace For

structure Walks (L : Locals) (c : Context) (start outer inner : List Scope) (q : For) : Prop where
  init : ∀ s ∈ q.init, Reached L c start (.stmt s)
  cond : q.cond.isMissing = false → Reached L c outer (.expr q.cond)
  body : Reached L c inner (.stmt q.body)
  step : q.step.isMissing = false → Reached L c inner (.expr q.step)

def names (q : For) (S : List Scope) : List Scope :=
  putName ([] :: S) (q.init.bind Stmt.declared) true

def outerNames (q : For) (S : List Scope) : List Scope := if q.init.isSome then q.names S else S

def innerNames (q : For) (S : List Scope) : List Scope :=
  if q.step.isMissing then q.outerNames S else [] :: q.outerNames S

variable {L : Locals} {c : Context} {S : List Scope} {q : For}

theorem Parsed.loop (parsed : q.Parsed) : q.treeLoop.Shaped := by
  have whole : Parse.IsStatement (Parse.desugarFor none q.cond q.step q.body) :=
    Parse.statementFor nofun parsed.cond parsed.step.1 parsed.body
  exact whole.1

theorem putStatement {s : Stmt} (plain : s.isDeclaration = false) :
    putName S s.declared true = S := by
  rw [Resolve.undeclared plain, putNameNone]

theorem walksLoop (parsed : q.Parsed) (init : ∀ s ∈ q.init, Reached L c ([] :: S) (.stmt s))
    (walk : Reached L c (q.outerNames S) (.stmt q.treeLoop)) :
    q.Walks L c ([] :: S) (q.outerNames S) (q.innerNames S) := by
  obtain ⟨test, round⟩ := walk.while_ parsed.loop
  obtain ⟨shaped, plain, -⟩ := parsed.body
  unfold treeCond at test
  unfold treeBody at round
  unfold innerNames
  have cond : q.cond.isMissing = false → Reached L c (q.outerNames S) (.expr q.cond) := by
    intro given
    rwa [if_neg (by simp [given])] at test
  cases missing : q.step.isMissing with
  | true =>
    rw [if_pos missing] at round
    exact ⟨init, cond, round, fun given => absurd (missing.symm.trans given) nofun⟩
  | false =>
    rw [if_neg (by simp [missing])] at round
    have pair : Stmt.AllShaped [q.body, .expression q.step] := ⟨shaped, parsed.step.1, trivial⟩
    obtain ⟨body, rest⟩ := (round.block pair).cons pair
    rw [putStatement plain] at rest
    exact ⟨init, cond, body, fun _ => (rest.cons pair.2).1.expression⟩

theorem walksTree (parsed : q.Parsed) (walk : Reached L c S (.stmt q.tree)) :
    q.Walks L c ([] :: S) (q.outerNames S) (q.innerNames S) := by
  obtain ⟨init, cond, step, body⟩ := q
  cases init with
  | none => exact walksLoop parsed nofun walk
  | some s =>
    have pair : Stmt.AllShaped [s, treeLoop ⟨some s, cond, step, body⟩] :=
      ⟨parsed.init s rfl, parsed.loop, trivial⟩
    obtain ⟨first, rest⟩ := (Reached.block walk pair).cons pair
    refine walksLoop parsed ?_ (rest.cons pair.2).1
    rintro _ ⟨⟩
    exact first

theorem shapedGiven {e : Expr} {ss : List Stmt} (shaped : e.Shaped) (rest : Stmt.AllShaped ss) :
    Stmt.AllShaped (given e ss) := by
  unfold given
  split
  · exact rest
  · exact ⟨shaped, rest⟩

theorem shapedScope (parsed : q.Parsed) : q.scope.Shaped := by
  have last : Stmt.AllShaped (q.body :: given q.step []) :=
    ⟨parsed.body.1, shapedGiven parsed.step.1 trivial⟩
  have clauses := shapedGiven parsed.cond.1 last
  obtain ⟨init, cond, step, body⟩ := q
  cases init with
  | none => exact clauses
  | some s => exact ⟨parsed.init s rfl, clauses⟩

theorem walksGiven {e : Expr} {ss : List Stmt} (h : Reached L c S (.stmts (given e ss)))
    (shaped : e.Shaped) (rest : Stmt.AllShaped ss) :
    (e.isMissing = false → Reached L c S (.expr e)) ∧ Reached L c S (.stmts ss) := by
  unfold given at h
  cases missing : e.isMissing with
  | true =>
    rw [if_pos missing] at h
    exact ⟨nofun, h⟩
  | false =>
    rw [if_neg (by simp [missing])] at h
    obtain ⟨first, later⟩ := h.cons ⟨shaped, rest⟩
    exact ⟨fun _ => first.expression, later⟩

theorem walksScope (parsed : q.Parsed) (walk : Reached L c S (.stmt q.scope)) :
    q.Walks L c ([] :: S) (q.names S) (q.names S) := by
  obtain ⟨init, rest⟩ : (∀ s ∈ q.init, Reached L c ([] :: S) (.stmt s)) ∧
      Reached L c (q.names S) (.stmts (given q.cond (q.body :: given q.step []))) := by
    have all := shapedScope parsed
    obtain ⟨init, cond, step, body⟩ := q
    cases init with
    | none => exact ⟨nofun, Reached.block walk all⟩
    | some s =>
      obtain ⟨first, rest⟩ := (Reached.block walk all).cons all
      refine ⟨?_, rest⟩
      rintro _ ⟨⟩
      exact first
  have last : Stmt.AllShaped (q.body :: given q.step []) :=
    ⟨parsed.body.1, shapedGiven parsed.step.1 trivial⟩
  obtain ⟨cond, rest⟩ := walksGiven rest parsed.cond.1 last
  obtain ⟨body, rest⟩ := rest.cons last
  rw [putStatement parsed.body.2.1] at rest
  exact ⟨init, cond, body, (walksGiven rest parsed.step.1 trivial).1⟩

variable {T : Tables} {π : Layout} {S' : List Scope}

theorem reachedExpr {e : Expr} (shaped : e.Shaped) {k j : Nat} (parallel : Parallel π S S')
    (left : (e.number k).1.isMissing = false → Reached T.left c S (.expr (e.number k).1))
    (right : (e.number j).1.isMissing = false → Reached T.right c S' (.expr (e.number j).1)) :
    (e.number k).1.Twin T π (e.number j).1 := by
  rw [numberMissing] at left right
  cases missing : e.isMissing with
  | true =>
    cases e with
    | missing => exact .missing
    | _ => cases missing
  | false =>
    obtain ⟨_, rfl, -, -, walk⟩ := left missing
    obtain ⟨_, rfl, -, -, walk'⟩ := right missing
    exact twinExpr e shaped parallel walk walk'

theorem reachedStmt {s : Stmt} (shaped : s.Shaped) {k j : Nat} (parallel : Parallel π S S')
    (place : π.Open ∨ s.isDeclaration = false)
    (left : Reached T.left c S (.stmt (s.number k).1))
    (right : Reached T.right c S' (.stmt (s.number j).1)) :
    (s.number k).1.Twin T π (s.number j).1 := by
  obtain ⟨_, rfl, -, -, walk⟩ := left
  obtain ⟨_, rfl, -, -, walk'⟩ := right
  exact twinStmt s shaped place parallel walk walk'

theorem readyNames (q : For) (S : List Scope) : ∀ names ∈ (q.names S).head?, Scope.Ready names := by
  unfold names
  cases q.init.bind Stmt.declared with
  | none =>
    rintro _ ⟨⟩
    exact Context.readyNil
  | some t =>
    rintro _ ⟨⟩
    exact Context.readyNil.put t.lexeme

theorem parallelOuter (parsed : q.Parsed) (plain : ∀ names ∈ S.head?, names.has "super" = false) :
    Parallel q.outer (q.outerNames S) (q.names S) := by
  unfold outer outerNames names
  cases given : q.init with
  | none =>
    show Parallel [.right] S (putName ([] :: S) none true)
    rw [putNameNone]
    exact (Parallel.same plain).right
  | some s =>
    exact ((Parallel.same plain).both rfl).put trivial (freeDeclared (parsed.init s given)) true

theorem parallelInner (parsed : q.Parsed) (plain : ∀ names ∈ S.head?, names.has "super" = false) :
    Parallel q.inner (q.innerNames S) (q.names S) := by
  unfold inner innerNames
  split
  · exact parallelOuter parsed plain
  · exact (parallelOuter parsed plain).left (readyNames q S)

theorem numberNames (p : For) (k : Nat) (S : List Scope) : (p.number k).1.names S = p.names S := by
  obtain ⟨init, cond, step, body⟩ := p
  cases init with
  | none => rfl
  | some s => exact congrArg (putName ([] :: S) · true) (numberDeclared s k)

theorem twinWalks {p : For} (parsed : p.Parsed) {k j : Nat}
    (plain : ∀ names ∈ S.head?, names.has "super" = false)
    (left : Reached T.left c S (.stmt (p.number k).1.tree))
    (right : Reached T.right c S (.stmt (p.number j).1.scope)) :
    (p.number k).1.Twin T (p.number j).1 := by
  have outer := parallelOuter (parsed.number k) plain
  have inner := parallelInner (parsed.number k) plain
  have walk := walksTree (parsed.number k) left
  have walk' := walksScope (parsed.number j) right
  rw [numberNames, ← numberNames p k] at walk'
  obtain ⟨init, cond, step, body⟩ := p
  refine ⟨?_, reachedExpr parsed.cond.1 outer walk.cond walk'.cond,
    reachedStmt parsed.body.1 inner (.inr parsed.body.2.1) walk.body walk'.body,
    reachedExpr parsed.step.1 inner walk.step walk'.step⟩
  cases init with
  | none => exact .none
  | some s =>
    exact .some (reachedStmt (parsed.init s rfl) ((Parallel.same plain).both rfl) (.inl trivial)
      (walk.init _ rfl) (walk'.init _ rfl))

theorem quietGiven {e : Expr} {ss : List Stmt}
    (first : e.isMissing = false → Resolve.Quiet c (Resolve.expr e) S S)
    (rest : Resolve.Quiet c (Resolve.stmts ss) S S') :
    Resolve.Quiet c (Resolve.stmts (given e ss)) S S' := by
  unfold given
  cases missing : e.isMissing with
  | true => exact rest
  | false => exact Resolve.quietCons rfl (first missing) rest

theorem reachedThere {s : Stmt} (h : Reached L c S (.stmt s)) : s.isMissing = false := by
  obtain ⟨_, _, _, _, _, _, w⟩ := h
  cases s with
  | missing => exact absurd w.run nofun
  | _ => rfl

theorem quietScope (parsed : q.Parsed) (plain : ∀ names ∈ S.head?, names.has "super" = false)
    (walk : Reached L c S (.stmt q.tree)) : Resolve.Quiet c (Resolve.stmt q.scope) S S := by
  have outer := (parallelOuter parsed plain).fit
  have inner := (parallelInner parsed plain).fit
  have walks := walksTree parsed walk
  obtain ⟨shaped, isStatement, named⟩ := parsed.body
  have done : Resolve.Quiet c (Resolve.stmts []) (q.names S) (q.names S) :=
    fun r scopes function klass => ⟨r, rfl, rfl, scopes, function, klass⟩
  have step := quietGiven (fun there => Resolve.quietExpr parsed.step inner (walks.step there)) done
  have body := Resolve.quietStmt shaped (.inr isStatement) (.inr named) inner walks.body
  rw [putStatement isStatement] at body
  have loop := quietGiven (fun there => Resolve.quietExpr parsed.cond outer (walks.cond there))
    (Resolve.quietCons (reachedThere walks.body) body step)
  have all : Resolve.Quiet c (Resolve.stmts
      (q.init.toList ++ given q.cond (q.body :: given q.step []))) ([] :: S) (q.names S) := by
    unfold names at loop ⊢
    cases first : q.init with
    | none =>
      rw [first] at loop
      exact loop
    | some s =>
      rw [first] at loop
      have init := walks.init s first
      refine Resolve.quietCons (reachedThere init) ?_ loop
      exact Resolve.quietStmt (parsed.init s first) (.inl (Resolve.openBoth []))
        (.inl (Resolve.insideBoth []))
        (.both [] (.beyond S)) init
  have push : Resolve.Quiet c (Resolve.pushScope []) S ([] :: S) :=
    fun r scopes function klass => ⟨_, rfl, rfl, congrArg ([] :: ·) scopes, function, klass⟩
  have pop : Resolve.Quiet c Resolve.popScope (q.names S) S := by
    intro r scopes function klass
    refine ⟨_, rfl, rfl, ?_, function, klass⟩
    exact (congrArg List.tail scopes).trans (tailPutName _ _ _)
  exact push.bind (all.bind pop)

end For
end Lox
