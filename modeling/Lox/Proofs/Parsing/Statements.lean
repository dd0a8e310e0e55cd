import Lox.Proofs.Parsing.Expressions

/-!
Written statements and declarations are read back.
-/

namespace Lox

def Kind.beginsStatement (k : Kind) : Bool :=
  k.opens || [.keyword .print_, .keyword .return_, .keyword .while_, .keyword .if_,
    .leftBrace].contains k

def Kind.beginsDeclaration (k : Kind) : Bool :=
  k.beginsStatement || [.keyword .var_, .keyword .fun_, .keyword .class_].contains k

theorem startsWord (k : Keyword) (ts : List Token) : Starts (.keyword k :: ts) (.keyword k) :=
  ⟨_, ts, rfl, Token.keywordKind k⟩

theorem startsStatement (s : Stmt) (w : Writing) (ok : s.grammatical = true)
    (inner : s.isDeclaration = false) :
    ∃ k, Starts (s.spell w) k ∧ k.beginsStatement = true := by
  cases s with
  | missing => cases ok
  | expression e =>
    obtain ⟨k, starts, opens, -⟩ := opensExpr e ok
    exact ⟨k, (starts _).append _, by simp [Kind.beginsStatement, opens]⟩
  | print e => exact ⟨_, startsWord _ _, rfl⟩
  | var name init => cases inner
  | block body => exact ⟨_, startsCons _ _, rfl⟩
  | if_ cond yes no => exact ⟨_, startsWord _ _, rfl⟩
  | while_ cond body => exact ⟨_, startsWord _ _, rfl⟩
  | function f => cases inner
  | return_ keyword value => exact ⟨_, startsWord _ _, rfl⟩
  | class_ name methods base => cases inner

theorem startsDeclaration (s : Stmt) (w : Writing) (ok : s.grammatical = true) :
    ∃ k, Starts (s.spell w) k ∧ k.beginsDeclaration = true := by
  cases inner : s.isDeclaration with
  | false =>
    obtain ⟨k, starts, begins⟩ := startsStatement s w ok inner
    exact ⟨k, starts, by simp [Kind.beginsDeclaration, begins]⟩
  | true =>
    cases s with
    | var name init => exact ⟨_, startsWord _ _, rfl⟩
    | function f => exact ⟨_, startsWord _ _, rfl⟩
    | class_ name methods base => exact ⟨_, startsWord _ _, rfl⟩
    | _ => cases inner

namespace Parse

variable {k : Kind} {ts us rest : List Token} {w : Writing} {n : Nat}

theorem Reads.get {α : Type} {f : Cursor → Parse α} {q : Parse α} (h : ∀ c, Reads (f c) ts q rest) :
    Reads (get >>= f) ts q rest := fun c at' => h c c at'

theorem readsRecovering {p : Parse Stmt} {s : Stmt} (h : Reads p ts (pure s) rest) :
    Reads (recovering n p) ts (pure s) rest := by
  intro c at'
  unfold recovering
  rw [tryCatchRun, h c at']
  rfl

theorem semicolonStarts (rest : List Token) :
    Starts ([Token.mark .semicolon] ++ rest) .semicolon := startsCons _ _

theorem readsExpressionStatement {e : Expr} (ok : e.grammatical = true) (more : rest ≠ [])
    (enough : 16 * (e.spell w).length + 10 ≤ n) :
    Reads (expressionStatement n) (e.spell w ++ [.mark .semicolon]) (pure (.expression e.asRead))
      rest := by
  refine (readsExpression ok enough (semicolonStarts rest) rfl).bind (Reads.get fun c => ?_)
  refine (readsIsAtEnd (by simp)).look ?_
  have inside : (([Token.mark .semicolon] ++ rest).length == 1) = false := by simpa using more
  rw [inside, Bool.and_false]
  exact (readsMark _ more _).last (readsSelf _)

theorem readsPrint {e : Expr} (ok : e.grammatical = true) (more : rest ≠ [])
    (enough : 16 * (e.spell w).length + 10 ≤ n) :
    Reads (printStatement n) (e.spell w ++ [.mark .semicolon]) (pure (.print e.asRead)) rest :=
  (readsExpression ok enough (semicolonStarts rest) rfl).bind
    ((readsMark _ more _).last (readsSelf _))

theorem missingOf {e : Expr} (h : e.isMissing = true) : e = .missing := by
  cases e <;> first | rfl | cases h

theorem missingStmtOf {s : Stmt} (h : s.isMissing = true) : s = .missing := by
  cases s <;> first | rfl | cases h

theorem readsVar {t : Token} {init : Expr} (kind : t.kind = .identifier)
    (ok : (init.isMissing || init.grammatical) = true) (more : rest ≠ [])
    (enough : 16 * (init.spellAfter (.sign .equal) w).length + 10 ≤ n) :
    Reads (varDeclaration n) (t :: (init.spellAfter (.sign .equal) w ++ [.mark .semicolon]))
      (pure (.var (some t) init.asRead)) rest := by
  refine (readsExpect kind (by simp) _).token ?_
  cases given : init.isMissing with
  | true =>
    rw [missingOf given]
    refine (readsSkipNot (semicolonStarts rest) (by decide)).look ?_
    exact (readsMark _ more _).last (readsSelf _)
  | false =>
    rw [given, Bool.false_or] at ok
    rw [Expr.spellAfter, given] at enough ⊢
    change 16 * ((init.spell w).length + 1) + 10 ≤ n at enough
    refine (readsSkip rfl (by simp)).token ?_
    refine (readsExpression ok (by omega) (semicolonStarts rest) rfl).bind ?_
    exact (readsMark _ more _).last (readsSelf _)

theorem readsReturn {value : Expr} (ok : (value.isMissing || value.grammatical) = true)
    (more : rest ≠ []) (enough : 16 * (value.spell w).length + 10 ≤ n) :
    Reads (returnStatement n) (value.spell w ++ [.mark .semicolon])
      (pure (.return_ (value.spell w ++ [Token.mark .semicolon]).head? value.asRead)) rest := by
  have head : ((value.spell w ++ [Token.mark .semicolon]) ++ rest).head? =
      (value.spell w ++ [Token.mark .semicolon]).head? := by
    cases value.spell w <;> rfl
  refine (readsCurrent (by simp)).look ?_
  rw [head]
  cases given : value.isMissing with
  | true =>
    rw [missingOf given]
    refine (readsCheck (semicolonStarts rest) _).look ?_
    exact (readsMark _ more _).last (readsSelf _)
  | false =>
    rw [given, Bool.false_or] at ok
    obtain ⟨k, starts, opens, -⟩ := opensExpr value ok
    refine (readsCheck (((starts w).append _).append _) _).look ?_
    have other : (k == Kind.semicolon) = false := by
      rw [beq_eq_false_iff_ne]
      rintro rfl
      cases opens
    rw [other]
    refine (readsExpression ok enough (semicolonStarts rest) rfl).bind ?_
    exact (readsMark _ more _).last (readsSelf _)

theorem readsMoreNames {ps : List (Option Token)} {t : Token} (message : String)
    (ok : ps.all (isOf .identifier) = true) (closing : t.kind = .rightParen)
    (steps : (spellMoreNames ps).length < n) (rest : List Token) :
    Reads (whileM n (skip .comma) (expect .identifier message)) (spellMoreNames ps) (pure ps)
      (t :: rest) := by
  induction ps generalizing n with
  | nil =>
    obtain ⟨n, rfl⟩ : ∃ n', n = n' + 1 := ⟨n - 1, by omega⟩
    exact readsWhileNone (readsSkipNot ⟨t, rest, rfl, closing⟩ (by decide))
  | cons p ps ih =>
    obtain ⟨n, rfl⟩ : ∃ n', n = n' + 1 := ⟨n - 1, by omega⟩
    rw [List.all_cons, Bool.and_eq_true] at ok
    obtain ⟨u, rfl, kind⟩ := isOfSome ok.1
    have later := ih ok.2 (n := n) (by simp [spellMoreNames] at steps; omega)
    exact readsWhileSkip rfl (readsExpect kind (by simp) _) (by simp) later

theorem readsParameters {p : Option Token} {ps : List (Option Token)} {t : Token}
    (ok : (p :: ps).all (isOf .identifier) = true) (closing : t.kind = .rightParen)
    (steps : (spellNames (p :: ps)).length ≤ n) (rest : List Token) :
    Reads (parameters n) (spellNames (p :: ps)) (pure (p :: ps)) (t :: rest) := by
  rw [List.all_cons, Bool.and_eq_true] at ok
  obtain ⟨u, rfl, kind⟩ := isOfSome ok.1
  refine (readsExpect kind (by simp) _).token ?_
  have later := readsMoreNames (n := n) "Expect an identifier as paramater" ok.2 closing
    (by simp [spellNames] at steps; omega) rest
  exact later.last (readsSelf _)

def ReadsStatement (s : Stmt) : Prop :=
  ∀ (w : Writing) n k rest, 16 * (s.spell w).length + 16 ≤ n → Starts rest k →
    (s.endsOpen = true → k ≠ .keyword .else_) →
    Reads (statement n) (s.spell w) (pure (s.asRead w)) rest

def ReadsDeclaration (s : Stmt) : Prop :=
  ∀ (w : Writing) n k rest, 16 * (s.spell w).length + 17 ≤ n → Starts rest k →
    k ≠ .keyword .else_ → Reads (declaration n) (s.spell w) (pure (s.asRead w)) rest

def ReadsFunction (f : FunDecl) : Prop :=
  ∀ (w : Writing) n what rest, 16 * (f.spell w).length + 16 ≤ n → rest ≠ [] →
    Reads (function n what) (f.spell w) (pure (f.asRead w)) rest

theorem notElse {k : Kind} (h : k.beginsDeclaration = true) : k ≠ .keyword .else_ := by
  rintro rfl
  cases h

theorem readsDeclarations {inside : Parse Bool} {ss : List Stmt} (starts : Starts rest k)
    (other : k ≠ .keyword .else_)
    (go : ∀ ts k, Starts ts k → k.beginsDeclaration = true → Reads inside [] (pure true) (ts ++ rest))
    (stop : Reads inside [] (pure false) rest)
    (all : ∀ s ∈ ss, s.grammatical = true ∧ ReadsDeclaration s)
    (enough : 16 * (Stmt.spellAll ss w).length + 17 ≤ n) {m : Nat}
    (steps : (Stmt.spellAll ss w).length < m) :
    Reads (whileM m inside (declaration n)) (Stmt.spellAll ss w) (pure (Stmt.asReadAll ss w))
      rest := by
  induction ss generalizing m w with
  | nil =>
    obtain ⟨m, rfl⟩ : ∃ m', m = m' + 1 := ⟨m - 1, by omega⟩
    exact readsWhileNone stop
  | cons s ss ih =>
    obtain ⟨ok, reads⟩ := all s List.mem_cons_self
    obtain ⟨k', first, begins⟩ := startsDeclaration s (w.part 0) ok
    have positive : 0 < (s.spell (w.part 0)).length := List.length_pos_iff.mpr first.some
    rw [Stmt.spellAll, List.length_append] at enough steps
    obtain ⟨m, rfl⟩ : ∃ m', m = m' + 1 := ⟨m - 1, by omega⟩
    have later := ih (fun x mem => all x (List.mem_cons_of_mem _ mem)) (w := w.part 1) (by omega)
      (m := m) (by omega)
    -- what follows is the next declaration or, after the last one, what comes after all of them
    have next : ∃ k'', Starts (Stmt.spellAll ss (w.part 1) ++ rest) k'' ∧
        k'' ≠ .keyword .else_ := by
      cases ss with
      | nil => exact ⟨k, starts, other⟩
      | cons s' ss' =>
        obtain ⟨k'', second, begins'⟩ := startsDeclaration s' ((w.part 1).part 0) (all s' (by simp)).1
        exact ⟨k'', (second.append _).append _, notElse begins'⟩
    obtain ⟨k'', starts'', other''⟩ := next
    have one := reads (w.part 0) n k'' _ (by omega) starts'' other''
    have test := go (s.spell (w.part 0) ++ Stmt.spellAll ss (w.part 1)) k' (first.append _) begins
    rw [List.append_assoc] at test
    exact readsWhileSome test one later

theorem readsBlock {ss : List Stmt} (all : ∀ s ∈ ss, s.grammatical = true ∧ ReadsDeclaration s)
    (enough : 16 * (Stmt.spellAll ss w).length + 18 ≤ n) (more : rest ≠ []) :
    Reads (block n) (Stmt.spellAll ss w ++ [.mark .rightBrace]) (pure (Stmt.asReadAll ss w))
      rest := by
  obtain ⟨n, rfl⟩ : ∃ n', n = n' + 1 := ⟨n - 1, by omega⟩
  have closing : Starts ([Token.mark .rightBrace] ++ rest) .rightBrace := startsCons _ _
  refine (readsDeclarations closing (by decide) ?_ ?_ all (by omega) (by omega)).bind ?_
  · intro ts k starts begins
    have other : (k == Kind.rightBrace) = false := by
      rw [beq_eq_false_iff_ne]
      rintro rfl
      cases begins
    have inside : ((ts ++ ([Token.mark .rightBrace] ++ rest)).length == 1) = false := by
      have positive := List.length_pos_iff.mpr starts.some
      rw [beq_eq_false_iff_ne]
      simp only [List.length_append, List.length_cons]
      omega
    refine (readsCheck (starts.append _) _).last ((readsIsAtEnd (starts.append _).some).last ?_)
    rw [other, inside]
    exact readsSelf _
  · exact (readsCheck closing _).last ((readsIsAtEnd closing.some).last (readsSelf _))
  · exact (readsMark _ more _).last (readsSelf _)

theorem readsHeader {t : Token} {params : List (Option Token)} (kind : t.kind = .identifier)
    (names : params.all (isOf .identifier) = true) (what : String)
    (steps : (spellNames params).length ≤ n) (more : rest ≠ []) :
    Reads (header n what) (t :: .mark .leftParen :: (spellNames params ++
      [.mark .rightParen, .mark .leftBrace])) (pure (some t, params)) rest := by
  refine (readsExpect kind (by simp) _).token ((readsMark _ (by simp) _).token ?_)
  cases params with
  | nil =>
    refine (readsCheck (startsCons _ _) _).look ?_
    exact (readsMark _ (by simp) _).token ((readsMark _ more _).last (readsSelf _))
  | cons p ps =>
    have first : Starts (spellNames (p :: ps)) .identifier := by
      rw [List.all_cons, Bool.and_eq_true] at names
      obtain ⟨u, rfl, same⟩ := isOfSome names.1
      exact ⟨u, _, rfl, same⟩
    refine (readsCheck ((first.append _).append _) _).look ?_
    have params := readsParameters (t := .mark .rightParen) names rfl steps
      (.mark .leftBrace :: rest)
    refine params.bind ?_
    exact (readsMark _ (by simp) _).token ((readsMark _ more _).last (readsSelf _))

theorem readsFunction {t : Token} {params : List (Option Token)} {body : List Stmt}
    (kind : t.kind = .identifier) (names : params.all (isOf .identifier) = true)
    (all : ∀ s ∈ body, s.grammatical = true ∧ ReadsDeclaration s) :
    ReadsFunction (.mk (some t) params body) := by
  intro w n what rest enough more
  simp only [FunDecl.spell, Option.toList_some, List.length_append, List.length_cons,
    List.length_nil] at enough
  obtain ⟨n, rfl⟩ : ∃ n', n = n' + 1 := ⟨n - 1, by omega⟩
  have inner := readsBlock (w := w.part 0) (n := n) all (by omega) more
  have more' : (Stmt.spellAll body (w.part 0) ++ [.mark .rightBrace]) ++ rest ≠ [] := by simp
  have header := readsHeader (n := n) kind names what (by omega) more'
  have spelled : FunDecl.spell (.mk (some t) params body) w =
      (t :: .mark .leftParen :: (spellNames params ++ [.mark .rightParen, .mark .leftBrace])) ++
        (Stmt.spellAll body (w.part 0) ++ [.mark .rightBrace]) := by
    simp [FunDecl.spell]
  rw [spelled]
  exact header.bind (inner.last (readsSelf _))

theorem startsFunction {f : FunDecl} (ok : f.grammatical = true) :
    Starts (f.spell w) .identifier := by
  obtain ⟨name, params, body⟩ := f
  simp only [FunDecl.grammatical, Bool.and_eq_true] at ok
  obtain ⟨t, rfl, kind⟩ := isOfSome ok.1.1
  exact ⟨t, _, rfl, kind⟩

theorem readsMethods {inside : Parse Bool} {fs : List FunDecl} (more : rest ≠ [])
    (go : ∀ ts, Starts ts .identifier → Reads inside [] (pure true) (ts ++ rest))
    (stop : Reads inside [] (pure false) rest)
    (all : ∀ f ∈ fs, f.grammatical = true ∧ ReadsFunction f)
    (enough : 16 * (FunDecl.spellAll fs w).length + 16 ≤ n) {m : Nat}
    (steps : (FunDecl.spellAll fs w).length < m) :
    Reads (whileM m inside (function n "method")) (FunDecl.spellAll fs w)
      (pure (FunDecl.asReadAll fs w)) rest := by
  induction fs generalizing m w with
  | nil =>
    obtain ⟨m, rfl⟩ : ∃ m', m = m' + 1 := ⟨m - 1, by omega⟩
    exact readsWhileNone stop
  | cons f fs ih =>
    obtain ⟨ok, reads⟩ := all f List.mem_cons_self
    have first := startsFunction (w := w.part 0) ok
    have positive : 0 < (f.spell (w.part 0)).length := List.length_pos_iff.mpr first.some
    rw [FunDecl.spellAll, List.length_append] at enough steps
    obtain ⟨m, rfl⟩ : ∃ m', m = m' + 1 := ⟨m - 1, by omega⟩
    have later := ih (fun x mem => all x (List.mem_cons_of_mem _ mem)) (w := w.part 1) (by omega)
      (m := m) (by omega)
    have one := reads (w.part 0) n "method" (FunDecl.spellAll fs (w.part 1) ++ rest) (by omega)
      (by simp [more])
    have test := go (f.spell (w.part 0) ++ FunDecl.spellAll fs (w.part 1)) (first.append _)
    rw [List.append_assoc] at test
    exact readsWhileSome test one later

theorem readsClassBody {fs : List FunDecl} {name : Option Token} {base : Expr}
    (all : ∀ f ∈ fs, f.grammatical = true ∧ ReadsFunction f) (more : rest ≠ [])
    (enough : 16 * (FunDecl.spellAll fs w).length + 16 ≤ n) :
    Reads (do
      let _ ← expect .leftBrace "Expect '\x7b' for a class"
      let methods ← whileM n inClass (function n "method")
      let _ ← expect .rightBrace "Expect '\x7d' at the end of a class"
      return Stmt.class_ name methods base)
      (.mark .leftBrace :: (FunDecl.spellAll fs w ++ [.mark .rightBrace]))
      (pure (Stmt.class_ name (FunDecl.asReadAll fs w) base)) rest := by
  have closing : Starts ([Token.mark .rightBrace] ++ rest) .rightBrace := startsCons _ _
  have inside : ∀ ts, ts ≠ [] → ((ts ++ ([Token.mark .rightBrace] ++ rest)).length == 1) = false := by
    intro ts some
    have positive := List.length_pos_iff.mpr some
    rw [beq_eq_false_iff_ne]
    simp only [List.length_append, List.length_cons]
    omega
  have last : (([Token.mark .rightBrace] ++ rest).length == 1) = false := by simpa using more
  refine (readsMark _ (by simp) _).token ?_
  refine (readsMethods closing.some ?_ ?_ all enough (by omega)).bind ?_
  · intro ts starts
    refine (readsIsAtEnd (starts.append _).some).last ?_
    rw [inside ts starts.some]
    exact (readsCheck (starts.append _) _).last (readsSelf _)
  · refine (readsIsAtEnd closing.some).last ?_
    rw [last]
    exact (readsCheck closing _).last (readsSelf _)
  · exact (readsMark _ more _).last (readsSelf _)

theorem readsClass {t : Token} {fs : List FunDecl} {base : Expr} (kind : t.kind = .identifier)
    (named : (base.isMissing || base.isName) = true)
    (all : ∀ f ∈ fs, f.grammatical = true ∧ ReadsFunction f) (more : rest ≠ [])
    (enough : 16 * (FunDecl.spellAll fs (w.part 1)).length + 17 ≤ n) :
    Reads (classDeclaration n) (t :: (base.spellAfter (.sign .less) (w.part 0) ++
      .mark .leftBrace :: (FunDecl.spellAll fs (w.part 1) ++ [.mark .rightBrace])))
      (pure (.class_ (some t) (FunDecl.asReadAll fs (w.part 1)) base.asRead)) rest := by
  obtain ⟨n, rfl⟩ : ∃ n', n = n' + 1 := ⟨n - 1, by omega⟩
  refine (readsExpect kind (by simp) _).token ?_
  cases given : base.isMissing with
  | true =>
    rw [missingOf given]
    refine (readsSkipNot (startsCons _ _) (by decide)).look ?_
    exact readsClassBody all more (by omega)
  | false =>
    rw [given, Bool.false_or] at named
    cases base with
    | reference node name =>
      obtain ⟨u, rfl, kind'⟩ := isOfSome named
      refine (readsSkip rfl (by simp)).token ((readsExpect kind' (by simp) _).token ?_)
      exact readsClassBody all more (by omega)
    | _ => cases named

theorem readsWhileStatement {cond : Expr} {body : Stmt} (ok : cond.grammatical = true)
    (ih : ReadsStatement body)
    (enough : 16 * ((cond.spell (w.part 0)).length + (body.spell (w.part 1)).length) + 17 ≤ n)
    (starts : Starts rest k) (closed : body.endsOpen = true → k ≠ .keyword .else_) :
    Reads (whileStatement n)
      (.mark .leftParen :: (cond.spell (w.part 0) ++ .mark .rightParen :: body.spell (w.part 1)))
      (pure (.while_ cond.asRead (body.asRead (w.part 1)))) rest := by
  obtain ⟨n, rfl⟩ : ∃ n', n = n' + 1 := ⟨n - 1, by omega⟩
  refine (readsMark _ (by simp) _).token ?_
  refine (readsExpression ok (by omega) (startsCons _ _) rfl).bind ?_
  refine (readsMark _ (by simp [starts.some]) _).token ?_
  exact (ih _ n k rest (by omega) starts closed).last (readsSelf _)

theorem readsIf {cond : Expr} {yes no : Stmt} (ok : cond.grammatical = true)
    (ihy : ReadsStatement yes)
    (branch : no.isMissing = true ∨ ReadsStatement no ∧ yes.endsOpen = false)
    (enough : 16 * ((cond.spell (w.part 0)).length + (yes.spell (w.part 1)).length +
      (no.spell (w.part 2)).length) + 17 ≤ n)
    (starts : Starts rest k)
    (closed : (Stmt.if_ cond yes no).endsOpen = true → k ≠ .keyword .else_) :
    Reads (ifStatement n) (.mark .leftParen :: (cond.spell (w.part 0) ++ .mark .rightParen ::
      (yes.spell (w.part 1) ++
        if no.isMissing then [] else .keyword .else_ :: no.spell (w.part 2))))
      (pure (.if_ cond.asRead (yes.asRead (w.part 1)) (no.asRead (w.part 2)))) rest := by
  obtain ⟨n, rfl⟩ : ∃ n', n = n' + 1 := ⟨n - 1, by omega⟩
  refine (readsMark _ (by simp) _).token ?_
  refine (readsExpression ok (by omega) (startsCons _ _) rfl).bind ?_
  refine (readsMark _ (by simp [starts.some]) _).token ?_
  cases given : no.isMissing with
  | true =>
    have other := closed (by rw [Stmt.endsOpen, given]; rfl)
    rw [missingStmtOf given]
    refine (ihy _ n k _ (by omega) starts fun _ => other).bind ?_
    exact (readsSkipNot starts other).last (readsSelf _)
  | false =>
    obtain ⟨ihn, first⟩ := branch.resolve_left (by rw [given]; decide)
    rw [Stmt.endsOpen, given, Bool.false_or] at closed
    have word := startsWord .else_ (no.spell (w.part 2) ++ rest)
    refine (ihy _ n _ _ (by omega) word fun opened => ?_).bind ?_
    · rw [first] at opened
      cases opened
    · refine (readsSkip (Token.keywordKind _) (by simp [starts.some])).token ?_
      exact (ihn _ n k rest (by omega) starts closed).last (readsSelf _)

theorem readsStatementOf {s : Stmt} (ok : s.grammatical = true) (inner : s.isDeclaration = false)
    (h : ReadsStatement s) : ReadsDeclaration s := by
  intro w n k rest enough starts other
  obtain ⟨n, rfl⟩ : ∃ n', n = n' + 1 := ⟨n - 1, by omega⟩
  obtain ⟨k', first, begins⟩ := startsStatement s w ok inner
  have here := first.append rest
  refine readsRecovering (Reads.otherwise here ?_ (Reads.otherwise here ?_ (Reads.otherwise here ?_
    (h w n k rest (by omega) starts fun _ => other))))
  all_goals
    rintro rfl
    cases begins

theorem expressionReads {e : Expr} (ok : e.grammatical = true) : ReadsStatement (.expression e) := by
  intro w n k rest enough starts _
  obtain ⟨n, rfl⟩ : ∃ n', n = n' + 1 := ⟨n - 1, by omega⟩
  rw [Stmt.spell, List.length_append] at enough
  obtain ⟨k', first, opens, -⟩ := opensExpr e ok
  have here := ((first (w.part 0)).append [Token.mark .semicolon]).append rest
  refine Reads.otherwise here ?_ (Reads.otherwise here ?_ (Reads.otherwise here ?_
    (Reads.otherwise here ?_ (Reads.otherwise here ?_ (Reads.otherwise here ?_
      (readsExpressionStatement ok starts.some (by omega)))))))
  all_goals
    rintro rfl
    cases opens

theorem printReads {e : Expr} (ok : e.grammatical = true) : ReadsStatement (.print e) := by
  intro w n k rest enough starts _
  obtain ⟨n, rfl⟩ : ∃ n', n = n' + 1 := ⟨n - 1, by omega⟩
  rw [Stmt.spell, List.length_cons, List.length_append] at enough
  have here := startsWord .print_ (e.spell (w.part 0) ++ [.mark .semicolon] ++ rest)
  exact Reads.otherwise here (by decide) (Reads.otherwise here (by decide)
    (Reads.given (Token.keywordKind _) (by simp) (readsPrint ok starts.some (by omega))))

theorem returnReads {t : Option Token} {value : Expr}
    (ok : (value.isMissing || value.grammatical) = true) : ReadsStatement (.return_ t value) := by
  intro w n k rest enough starts _
  obtain ⟨n, rfl⟩ : ∃ n', n = n' + 1 := ⟨n - 1, by omega⟩
  rw [Stmt.spell, List.length_cons, List.length_append] at enough
  have here := startsWord .return_ (value.spell (w.part 0) ++ [.mark .semicolon] ++ rest)
  exact Reads.otherwise here (by decide) (Reads.otherwise here (by decide)
    (Reads.otherwise here (by decide)
      (Reads.given (Token.keywordKind _) (by simp) (readsReturn ok starts.some (by omega)))))

theorem blockReads {body : List Stmt}
    (all : ∀ s ∈ body, s.grammatical = true ∧ ReadsDeclaration s) : ReadsStatement (.block body) := by
  intro w n k rest enough starts _
  obtain ⟨n, rfl⟩ : ∃ n', n = n' + 1 := ⟨n - 1, by omega⟩
  rw [Stmt.spell, List.length_cons, List.length_append] at enough
  have here : Starts ((.mark .leftBrace :: (Stmt.spellAll body (w.part 0) ++
    [Token.mark .rightBrace])) ++ rest) .leftBrace := startsCons _ _
  have read := readsBlock (w := w.part 0) (n := n) all (by omega) starts.some
  exact Reads.otherwise here (by decide) (Reads.otherwise here (by decide)
    (Reads.otherwise here (by decide) (Reads.otherwise here (by decide)
      (Reads.otherwise here (by decide) (Reads.given rfl (by simp) (read.last (readsSelf _)))))))

theorem whileReads {cond : Expr} {body : Stmt} (ok : cond.grammatical = true)
    (ih : ReadsStatement body) : ReadsStatement (.while_ cond body) := by
  intro w n k rest enough starts closed
  obtain ⟨n, rfl⟩ : ∃ n', n = n' + 1 := ⟨n - 1, by omega⟩
  simp only [Stmt.spell, List.length_cons, List.length_append] at enough
  have here := startsWord .while_
    (.mark .leftParen :: (cond.spell (w.part 0) ++ .mark .rightParen :: body.spell (w.part 1)) ++
      rest)
  exact Reads.otherwise here (by decide) (Reads.otherwise here (by decide)
    (Reads.otherwise here (by decide) (Reads.otherwise here (by decide)
      (Reads.given (Token.keywordKind _) (by simp)
        (readsWhileStatement ok ih (by omega) starts closed)))))

theorem ifReads {cond : Expr} {yes no : Stmt} (ok : cond.grammatical = true)
    (ihy : ReadsStatement yes)
    (branch : no.isMissing = true ∨ ReadsStatement no ∧ yes.endsOpen = false) :
    ReadsStatement (.if_ cond yes no) := by
  intro w n k rest enough starts closed
  obtain ⟨n, rfl⟩ : ∃ n', n = n' + 1 := ⟨n - 1, by omega⟩
  have room : (no.spell (w.part 2)).length ≤
      (if no.isMissing then [] else .keyword .else_ :: no.spell (w.part 2)).length := by
    cases given : no.isMissing with
    | true =>
      rw [missingStmtOf given]
      exact Nat.le_refl 0
    | false => exact Nat.le_succ _
  simp only [Stmt.spell, List.length_cons, List.length_append] at enough
  have here := startsWord .if_ (.mark .leftParen :: (cond.spell (w.part 0) ++ .mark .rightParen ::
    (yes.spell (w.part 1) ++
      if no.isMissing then [] else .keyword .else_ :: no.spell (w.part 2))) ++ rest)
  exact Reads.otherwise here (by decide) (Reads.given (Token.keywordKind _) (by simp)
    (readsIf ok ihy branch (by omega) starts closed))

theorem varReads {t : Token} {init : Expr} (kind : t.kind = .identifier)
    (ok : (init.isMissing || init.grammatical) = true) : ReadsDeclaration (.var (some t) init) := by
  intro w n k rest enough starts _
  obtain ⟨n, rfl⟩ : ∃ n', n = n' + 1 := ⟨n - 1, by omega⟩
  simp only [Stmt.spell, Option.toList_some, List.length_cons, List.length_append] at enough
  have here := startsWord .var_
    (t :: (init.spellAfter (.sign .equal) (w.part 0) ++ [.mark .semicolon]) ++ rest)
  exact readsRecovering (Reads.otherwise here (by decide) (Reads.otherwise here (by decide)
    (Reads.given (Token.keywordKind _) (by simp) (readsVar kind ok starts.some (by omega)))))

theorem functionReads {f : FunDecl} (ih : ReadsFunction f) : ReadsDeclaration (.function f) := by
  intro w n k rest enough starts _
  obtain ⟨n, rfl⟩ : ∃ n', n = n' + 1 := ⟨n - 1, by omega⟩
  rw [Stmt.spell, List.length_cons] at enough
  have read := ih (w.part 0) n "function" rest (by omega) starts.some
  have here := startsWord .fun_ (f.spell (w.part 0) ++ rest)
  exact readsRecovering (Reads.otherwise here (by decide)
    (Reads.given (Token.keywordKind _) (by simp [starts.some]) (read.last (readsSelf _))))

theorem classReads {t : Token} {fs : List FunDecl} {base : Expr} (kind : t.kind = .identifier)
    (named : (base.isMissing || base.isName) = true)
    (all : ∀ f ∈ fs, f.grammatical = true ∧ ReadsFunction f) :
    ReadsDeclaration (.class_ (some t) fs base) := by
  intro w n k rest enough starts _
  obtain ⟨n, rfl⟩ : ∃ n', n = n' + 1 := ⟨n - 1, by omega⟩
  simp only [Stmt.spell, Option.toList_some, List.length_cons, List.length_append] at enough
  exact readsRecovering (Reads.given (Token.keywordKind _) (by simp)
    (readsClass kind named all starts.some (by omega)))

def ReadsBack (s : Stmt) : Prop :=
  if s.isDeclaration then ReadsDeclaration s else ReadsStatement s

theorem ReadsBack.declaration {s : Stmt} (h : ReadsBack s) (ok : s.grammatical = true) :
    ReadsDeclaration s := by
  unfold ReadsBack at h
  split at h
  · exact h
  · next inner => exact readsStatementOf ok (by simpa using inner) h

theorem ReadsBack.statement {s : Stmt} (h : ReadsBack s) (inner : s.isDeclaration = false) :
    ReadsStatement s := by
  rw [ReadsBack, inner] at h
  exact h

mutual

theorem readsStmt (s : Stmt) (ok : s.grammatical = true) : ReadsBack s := by
  cases s with
  | missing => cases ok
  | expression e => exact expressionReads ok
  | print e => exact printReads ok
  | var name init =>
    simp only [Stmt.grammatical, Bool.and_eq_true] at ok
    obtain ⟨t, rfl, kind⟩ := isOfSome ok.1
    exact varReads kind ok.2
  | block body => exact blockReads (readsStmts body ok)
  | if_ cond yes no =>
    simp only [Stmt.grammatical, Bool.and_eq_true, Bool.or_eq_true, Bool.not_eq_true'] at ok
    obtain ⟨⟨okc, oky, plain⟩, okn⟩ := ok
    refine ifReads okc ((readsStmt yes oky).statement plain) ?_
    rcases okn with none | ⟨⟨okn, plain'⟩, closed⟩
    · exact .inl none
    · exact .inr ⟨(readsStmt no okn).statement plain', closed⟩
  | while_ cond body =>
    simp only [Stmt.grammatical, Bool.and_eq_true, Bool.not_eq_true'] at ok
    exact whileReads ok.1 ((readsStmt body ok.2.1).statement ok.2.2)
  | function f => exact functionReads (readsFunDecl f ok)
  | return_ keyword value => exact returnReads ok
  | class_ name methods base =>
    simp only [Stmt.grammatical, Bool.and_eq_true] at ok
    obtain ⟨t, rfl, kind⟩ := isOfSome ok.1.1
    exact classReads kind ok.1.2 (readsFunDecls methods ok.2)

theorem readsStmts (ss : List Stmt) (ok : Stmt.grammaticalAll ss = true) :
    ∀ s ∈ ss, s.grammatical = true ∧ ReadsDeclaration s := by
  match ss with
  | [] => simp
  | s :: ss =>
    rw [Stmt.grammaticalAll, Bool.and_eq_true] at ok
    have first := (readsStmt s ok.1).declaration ok.1
    have later := readsStmts ss ok.2
    intro x mem
    rcases List.mem_cons.mp mem with rfl | other
    · exact ⟨ok.1, first⟩
    · exact later x other

theorem readsFunDecl (f : FunDecl) (ok : f.grammatical = true) : ReadsFunction f := by
  obtain ⟨name, params, body⟩ := f
  simp only [FunDecl.grammatical, Bool.and_eq_true] at ok
  obtain ⟨t, rfl, kind⟩ := isOfSome ok.1.1
  exact readsFunction kind ok.1.2 (readsStmts body ok.2)

theorem readsFunDecls (fs : List FunDecl) (ok : FunDecl.grammaticalAll fs = true) :
    ∀ f ∈ fs, f.grammatical = true ∧ ReadsFunction f := by
  match fs with
  | [] => simp
  | f :: fs =>
    rw [FunDecl.grammaticalAll, Bool.and_eq_true] at ok
    have first := readsFunDecl f ok.1
    have later := readsFunDecls fs ok.2
    intro x mem
    rcases List.mem_cons.mp mem with rfl | other
    · exact ⟨ok.1, first⟩
    · exact later x other

end

end Parse
end Lox
