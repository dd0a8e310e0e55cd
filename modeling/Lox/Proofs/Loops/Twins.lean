import Lox.Proofs.Loops.Scopes
import Lox.Proofs.Scopes.Renumbering

/-!
Twins from resolution. One tree, numbered and resolved twice among scopes that stand beside each
other, without a report on either side, gives two twins.
-/

namespace Lox

variable {T : Tables} {π : Layout} {c c' : Context}

theorem usesOf {a b : Nat} {t : Option Token} (fit : ScopesFit π c.names c'.names)
    (left : T.left.distance? a = t.bind fun u => c.depth? u.lexeme)
    (right : T.right.distance? b = t.bind fun u => c'.depth? u.lexeme) : T.Uses π a b := by
  unfold Tables.Uses
  rw [left, right]
  cases t with
  | none => exact .none
  | some u => exact fit.depth u.lexeme

theorem usesSuperOf {a b : Nat} {t : Option Token} (word : IsWord .super_ t)
    (parallel : Parallel π c.names c'.names)
    (left : T.left.distance? a = t.bind fun u => c.depth? u.lexeme)
    (right : T.right.distance? b = t.bind fun u => c'.depth? u.lexeme) : T.UsesSuper π a b := by
  obtain ⟨u, rfl, spelt⟩ := word
  rw [Option.bind_some, spelt] at left right
  unfold Tables.UsesSuper
  rw [left, right]
  have behind := parallel.behind
  rcases relCases (parallel.fit.depth "super") with ⟨l, r⟩ | ⟨d, e, l, r, meets⟩
  · rw [show c.depth? Keyword.super_.word = none from l,
      show c'.depth? Keyword.super_.word = none from r]
    exact .none
  · rw [show c.depth? Keyword.super_.word = some d from l,
      show c'.depth? Keyword.super_.word = some e from r]
    exact .some ⟨meets, (behind d e l r).2.2⟩

theorem walkedPair {L : Locals} {p : Part} {e : Expr} {q : Part} (h : Walked L c p)
    (walk : p.walk = (do Resolve.expr e; q.walk)) (nodes : p.nodes = e.nodes ++ q.nodes)
    (shaped : e.Shaped ∧ q.Shaped) : Walked L c (.expr e) ∧ Walked L c q := by
  obtain ⟨r, s, w⟩ := h
  exact w.pair e q (walk ▸ w.run) nodes shaped

theorem walkedWhole {L : Locals} {p q : Part} (h : Walked L c p) (walk : p.walk = q.walk)
    (nodes : q.nodes = p.nodes) : Walked L c q := by
  obtain ⟨r, s, w⟩ := h
  exact w.whole (walk ▸ w.run) nodes

mutual

theorem twinExpr (e : Expr) (shaped : e.Shaped) {k j : Nat} (parallel : Parallel π c.names c'.names)
    (walk : Walked T.left c (.expr (e.number k).1))
    (walk' : Walked T.right c' (.expr (e.number j).1)) :
    (e.number k).1.Twin T π (e.number j).1 := by
  -- two operands in a row: their shapes under a numbering, and their walks
  have pair : ∀ {L : Locals} {d : Context} {p : Part} (a b : Expr) (n : Nat), Walked L d p →
      p.walk = (do Resolve.expr (a.number n).1; Resolve.expr (b.number (a.number n).2).1) →
      p.nodes = (a.number n).1.nodes ++ (b.number (a.number n).2).1.nodes → a.Shaped ∧ b.Shaped →
      Walked L d (.expr (a.number n).1) ∧ Walked L d (.expr (b.number (a.number n).2).1) :=
    fun a b n h run nodes shaped => walkedPair (q := .expr _) h run nodes
      ⟨(numberExpr a n).2 shaped.1, (numberExpr b _).2 shaped.2⟩
  cases e with
  | missing => exact .missing
  | literal d => exact .literal d
  | reference node name =>
    obtain ⟨r, s, w⟩ := walk
    obtain ⟨r', s', w'⟩ := walk'
    exact .reference (usesOf parallel.fit (w.distance rfl) (w'.distance rfl)) name
  | this node keyword =>
    obtain ⟨r, s, w⟩ := walk
    obtain ⟨r', s', w'⟩ := walk'
    exact .this (usesOf parallel.fit (w.distance rfl) (w'.distance rfl)) keyword
  | super node keyword method =>
    obtain ⟨r, s, w⟩ := walk
    obtain ⟨r', s', w'⟩ := walk'
    exact .super (usesSuperOf shaped parallel (w.distance rfl) (w'.distance rfl)) keyword method
  | assign node name value =>
    obtain ⟨r, s, w⟩ := walk
    obtain ⟨r', s', w'⟩ := walk'
    exact .assign (usesOf parallel.fit (w.distance rfl) (w'.distance rfl)) name
      (twinExpr value shaped.2 parallel (walkAssigned w ((numberExpr value k).2 shaped.2))
        (walkAssigned w' ((numberExpr value j).2 shaped.2)))
  | unary op right =>
    exact .unary op (twinExpr right shaped parallel (walkedWhole walk rfl rfl)
      (walkedWhole walk' rfl rfl))
  | binary left op right =>
    obtain ⟨l, r⟩ := pair left right k walk rfl rfl shaped
    obtain ⟨l', r'⟩ := pair left right j walk' rfl rfl shaped
    exact .binary op (twinExpr left shaped.1 parallel l l') (twinExpr right shaped.2 parallel r r')
  | logical left op right =>
    obtain ⟨l, r⟩ := pair left right k walk rfl rfl shaped
    obtain ⟨l', r'⟩ := pair left right j walk' rfl rfl shaped
    exact .logical op (twinExpr left shaped.1 parallel l l') (twinExpr right shaped.2 parallel r r')
  | grouping inner =>
    exact .grouping (twinExpr inner shaped parallel (walkedWhole walk rfl rfl)
      (walkedWhole walk' rfl rfl))
  | call callee paren args =>
    obtain ⟨l, r⟩ := walkedPair (e := (callee.number k).1)
      (q := .exprs (Expr.numberAll args (callee.number k).2).1) walk rfl rfl
      ⟨(numberExpr callee k).2 shaped.1, (numberExprs args _).2 shaped.2⟩
    obtain ⟨l', r'⟩ := walkedPair (e := (callee.number j).1)
      (q := .exprs (Expr.numberAll args (callee.number j).2).1) walk' rfl rfl
      ⟨(numberExpr callee j).2 shaped.1, (numberExprs args _).2 shaped.2⟩
    exact .call paren (twinExpr callee shaped.1 parallel l l') (twinExprs args shaped.2 parallel r r')
  | get object name =>
    exact .get name (twinExpr object shaped parallel (walkedWhole walk rfl rfl)
      (walkedWhole walk' rfl rfl))
  | set object name value =>
    obtain ⟨l, r⟩ := pair object value k walk rfl rfl shaped
    obtain ⟨l', r'⟩ := pair object value j walk' rfl rfl shaped
    exact .set name (twinExpr object shaped.1 parallel l l') (twinExpr value shaped.2 parallel r r')

theorem twinExprs (es : List Expr) (shaped : Expr.AllShaped es) {k j : Nat}
    (parallel : Parallel π c.names c'.names)
    (walk : Walked T.left c (.exprs (Expr.numberAll es k).1))
    (walk' : Walked T.right c' (.exprs (Expr.numberAll es j).1)) :
    Expr.Twins T π (Expr.numberAll es k).1 (Expr.numberAll es j).1 := by
  match es with
  | [] => exact .nil
  | e :: es =>
    obtain ⟨l, r⟩ := walkedPair (e := (e.number k).1)
      (q := .exprs (Expr.numberAll es (e.number k).2).1) walk rfl rfl
      ⟨(numberExpr e k).2 shaped.1, (numberExprs es _).2 shaped.2⟩
    obtain ⟨l', r'⟩ := walkedPair (e := (e.number j).1)
      (q := .exprs (Expr.numberAll es (e.number j).2).1) walk' rfl rfl
      ⟨(numberExpr e j).2 shaped.1, (numberExprs es _).2 shaped.2⟩
    exact .cons (twinExpr e shaped.1 parallel l l') (twinExprs es shaped.2 parallel r r')

end

theorem twinOptional (e : Expr) (shaped : e.Shaped) {k j : Nat} (parallel : Parallel π c.names c'.names)
    (walk : (e.number k).1.isMissing = false → Walked T.left c (.expr (e.number k).1))
    (walk' : (e.number j).1.isMissing = false → Walked T.right c' (.expr (e.number j).1)) :
    (e.number k).1.Twin T π (e.number j).1 := by
  cases e with
  | missing => exact .missing
  | _ => exact twinExpr _ shaped parallel (walk rfl) (walk' rfl)

theorem numberDeclared (s : Stmt) (n : Nat) : (s.number n).1.declared = s.declared := by
  cases s with
  | function f => exact numberName f n
  | _ => rfl

theorem namesMethod (c : Context) (name : Option Token) (methods : List FunDecl) (base : Expr)
    (f : FunDecl) : (((c.declare name true).inClass name methods base).inMethod f).names =
      [("this", true)] :: if base.isMissing then putName c.names name true
        else [("super", true)] :: putName c.names name true := by
  rw [← namesDeclare]
  unfold Context.inClass
  split <;> rfl

theorem methodsNamed {fs : List FunDecl} {r r' : Resolver}
    (run : Resolve.funDecls fs r = .ok () r') {f : FunDecl} (mem : f ∈ fs) :
    ∃ t, f.name = some t := by
  induction fs generalizing r with
  | nil => cases mem
  | cons g gs ih =>
    obtain ⟨_, s, called, walk⟩ := bindOk.mp run
    obtain ⟨rfl, u, isName, rfl⟩ := Resolve.lexemeOk called
    obtain ⟨_, s', first, rest⟩ := bindOk.mp walk
    rcases List.mem_cons.mp mem with rfl | later
    · exact ⟨u, isName⟩
    · exact ih rest later

theorem walkedMethods {L : Locals} {name : Option Token} {methods : List FunDecl} {base : Expr}
    (h : Walked L c (.stmt (.class_ name methods base)))
    (shaped : (Stmt.class_ name methods base).Shaped) {f : FunDecl} (mem : f ∈ methods) :
    ∃ kind, Walked L (((c.declare name true).inClass name methods base).inMethod f)
      (.function f kind) := by
  obtain ⟨r, r', w⟩ := h
  obtain ⟨declared, done, based, walked, -, -, -, methods, -⟩ := (Resolve.classOk w.run).steps
  obtain ⟨t, named⟩ := methodsNamed methods mem
  exact ⟨_, walkMethod w shaped mem named⟩

mutual

theorem twinStmt (s : Stmt) (shaped : s.Shaped) {π : Layout} {c c' : Context} {k j : Nat}
    (place : π.Open ∨ s.isDeclaration = false) (parallel : Parallel π c.names c'.names)
    (walk : Walked T.left c (.stmt (s.number k).1))
    (walk' : Walked T.right c' (.stmt (s.number j).1)) :
    (s.number k).1.Twin T π (s.number j).1 := by
  have numbered : ∀ n, (s.number n).1.Shaped := fun n => (numberStmt s n).2 shaped
  obtain ⟨r, t, w⟩ := walk
  obtain ⟨r', t', w'⟩ := walk'
  cases s with
  | missing => exact .missing
  | expression e =>
    exact .expression (twinExpr e shaped parallel (w.whole w.run rfl) (w'.whole w'.run rfl))
  | print e =>
    exact .print (twinExpr e shaped parallel (w.whole w.run rfl) (w'.whole w'.run rfl))
  | var name init =>
    have isOpen : π.Open := place.resolve_right nofun
    have inner : Parallel π (c.declare name false).names (c'.declare name false).names := by
      rw [namesDeclare, namesDeclare]
      exact parallel.put isOpen shaped.1 false
    exact .var isOpen name (twinOptional init shaped.2 inner (walkInitializer w (numbered k).2)
      (walkInitializer w' (numbered j).2))
  | block body =>
    have inner : Parallel (.both :: π) (c.inBlock (Stmt.numberAll body k).1).names
        (c'.inBlock (Stmt.numberAll body j).1).names := parallel.both rfl
    exact .block (twinStmts body shaped trivial inner (walkBlock w (numbered k))
      (walkBlock w' (numbered j)))
  | if_ cond yes no =>
    obtain ⟨test, first, second⟩ := walkIf w (numbered k)
    obtain ⟨test', first', second'⟩ := walkIf w' (numbered j)
    obtain ⟨sc, sy, sn, yesPlain, noPlain⟩ := shaped
    refine .if_ (twinExpr cond sc parallel test test')
      (twinStmt yes sy (.inr yesPlain) parallel first first') ?_
    cases no with
    | missing => exact .missing
    | _ => exact twinStmt _ sn (.inr noPlain) parallel (second rfl) (second' rfl)
  | while_ cond body =>
    obtain ⟨sc, sb, plain⟩ := shaped
    obtain ⟨test, inner⟩ := w.pair (cond.number k).1 (.stmt (body.number (cond.number k).2).1)
      w.run rfl ⟨(numbered k).1, (numbered k).2.1⟩
    obtain ⟨test', inner'⟩ := w'.pair (cond.number j).1 (.stmt (body.number (cond.number j).2).1)
      w'.run rfl ⟨(numbered j).1, (numbered j).2.1⟩
    exact .while_ (twinExpr cond sc parallel test test')
      (twinStmt body sb (.inr plain) parallel inner inner')
  | function f =>
    have isOpen : π.Open := place.resolve_right nofun
    have free : Free f.name := freeDeclared (s := .function f) shaped
    have inner : Parallel π (c.declare (f.number k).1.name true).names
        (c'.declare (f.number j).1.name true).names := by
      rw [namesDeclare, namesDeclare]
      cases f
      exact parallel.put isOpen free true
    exact .function isOpen (twinFunDecl f shaped inner (walkFunction w (numbered k))
      (walkFunction w' (numbered j)))
  | return_ keyword value =>
    exact .return_ keyword (twinOptional value shaped parallel (walkReturn w (numbered k))
      (walkReturn w' (numbered j)))
  | class_ name methods base =>
    have isOpen : π.Open := place.resolve_right nofun
    refine .class_ isOpen name ?_ (twinOptional base (shapedSuperclass shaped.2.2) parallel
      (walkSuperclass w (numbered k)) (walkSuperclass w' (numbered j)))
    have inner := (parallel.put isOpen shaped.1 true).method
      (base.number (FunDecl.numberAll methods k).2).1
    refine twinMethods methods shaped.2.1 inner (fun f mem => ?_) fun f mem => ?_
    · obtain ⟨kind, found⟩ := walkedMethods ⟨r, t, w⟩ (numbered k) mem
      exact ⟨_, kind, namesMethod .., found⟩
    · obtain ⟨kind, found⟩ := walkedMethods ⟨r', t', w'⟩ (numbered j) mem
      refine ⟨_, kind, (namesMethod ..).trans ?_, found⟩
      rw [numberMissing, numberMissing]

theorem twinStmts (ss : List Stmt) (shaped : Stmt.AllShaped ss) {π : Layout} {c c' : Context}
    {k j : Nat} (isOpen : π.Open) (parallel : Parallel π c.names c'.names)
    (walk : Walked T.left c (.stmts (Stmt.numberAll ss k).1))
    (walk' : Walked T.right c' (.stmts (Stmt.numberAll ss j).1)) :
    Stmt.Twins T π (Stmt.numberAll ss k).1 (Stmt.numberAll ss j).1 := by
  have numbered : ∀ n, Stmt.AllShaped (Stmt.numberAll ss n).1 := fun n => (numberStmts ss n).2 shaped
  obtain ⟨r, t, w⟩ := walk
  obtain ⟨r', t', w'⟩ := walk'
  match ss with
  | [] => exact .nil
  | s :: ss =>
    obtain ⟨first, rest⟩ := walkFirst w (numbered k)
    obtain ⟨first', rest'⟩ := walkFirst w' (numbered j)
    refine .cons (twinStmt s shaped.1 (.inl isOpen) parallel first first')
      (twinStmts ss shaped.2 isOpen ?_ rest rest')
    rw [Context.after, Context.after, namesDeclare, namesDeclare, numberDeclared, numberDeclared]
    exact parallel.put isOpen (freeDeclared shaped.1) true

theorem twinFunDecl (f : FunDecl) (shaped : f.Shaped) {π : Layout} {c c' : Context} {k j : Nat}
    {kind kind' : FunctionKind} (parallel : Parallel π c.names c'.names)
    (walk : Walked T.left c (.function (f.number k).1 kind))
    (walk' : Walked T.right c' (.function (f.number j).1 kind')) :
    (f.number k).1.Twin T π (f.number j).1 := by
  have numbered : ∀ n, (f.number n).1.Shaped := fun n => (numberFunDecl f n).2 shaped
  obtain ⟨r, t, w⟩ := walk
  obtain ⟨r', t', w'⟩ := walk'
  have body := walkBody w (numbered k)
  have body' := walkBody w' (numbered j)
  cases f with
  | mk name params ss =>
    have plain := plainReserved (plainParameters plainNil shaped.2.1) superReserved
    have inner : Parallel (.both :: π) (c.inCall ((FunDecl.mk name params ss).number k).1 kind).names
        (c'.inCall ((FunDecl.mk name params ss).number j).1 kind').names := parallel.both plain
    exact .mk name params (twinStmts ss shaped.2.2 trivial inner body body')

theorem twinMethods (fs : List FunDecl) (shaped : FunDecl.AllShaped fs) {π : Layout}
    {S S' : List Scope} {k j : Nat} (parallel : Parallel π S S')
    (walk : ∀ f ∈ (FunDecl.numberAll fs k).1,
      ∃ c kind, Context.names c = S ∧ Walked T.left c (.function f kind))
    (walk' : ∀ f ∈ (FunDecl.numberAll fs j).1,
      ∃ c kind, Context.names c = S' ∧ Walked T.right c (.function f kind)) :
    FunDecl.Twins T π (FunDecl.numberAll fs k).1 (FunDecl.numberAll fs j).1 := by
  match fs with
  | [] => exact .nil
  | f :: fs =>
    obtain ⟨c, kind, rfl, first⟩ := walk _ List.mem_cons_self
    obtain ⟨c', kind', rfl, first'⟩ := walk' _ List.mem_cons_self
    exact .cons (twinFunDecl f shaped.1 parallel first first')
      (twinMethods fs shaped.2 parallel (fun g mem => walk g (List.mem_cons_of_mem _ mem))
        fun g mem => walk' g (List.mem_cons_of_mem _ mem))

end

end Lox
