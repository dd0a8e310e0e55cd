import Lox.Parsing.Statement
import Lox.Proofs.Parsing.Cursors
import Lox.Proofs.Scanning
import Lox.Proofs.Trees

/-!
The shape of parsed trees. Whatever the tokens are, as long as each is one that a scanner makes, a
parser that yields a tree yields one of the shape that the later stages rely on.
-/

namespace Lox

theorem freeOfLexical {t : Option Token} (h : ∀ u, t = some u → u.kind = .identifier ∧ u.Lexical) :
    Free t :=
  fun u same => (h u same).2.free (h u same).1

theorem allShapedExprs {es : List Expr} (h : ∀ e ∈ es, e.Shaped) : Expr.AllShaped es :=
  (allParts (A := Expr.AllShaped) trivial fun _ _ => .rfl).mpr h

theorem allNamedExprs {es : List Expr} (h : ∀ e ∈ es, e.Named) : Expr.AllNamed es :=
  (allParts (A := Expr.AllNamed) trivial fun _ _ => .rfl).mpr h

theorem allShapedStmts {ss : List Stmt} (h : ∀ s ∈ ss, s.Shaped) : Stmt.AllShaped ss :=
  (allParts (A := Stmt.AllShaped) trivial fun _ _ => .rfl).mpr h

theorem allShapedFunDecls {fs : List FunDecl} (h : ∀ f ∈ fs, f.Shaped) : FunDecl.AllShaped fs :=
  (allParts (A := FunDecl.AllShaped) trivial fun _ _ => .rfl).mpr h

namespace Parse

variable {α β : Type}

def Sourced (c : Cursor) : Prop :=
  ∀ t ∈ c.tokens, ∀ u, t = some u → u.Lexical

def Gives (Q : α → Prop) : EStateM.Result Stop Cursor α → Prop
  | .ok a c => Sourced c ∧ Q a
  | .error _ c => Sourced c

def Yields (p : Parse α) (Q : α → Prop) : Prop :=
  ∀ c, Sourced c → Gives Q (p c)

variable {Q : α → Prop} {R : β → Prop}

theorem yieldsPure {a : α} (h : Q a) : Yields (pure a) Q := fun _ sourced => ⟨sourced, h⟩

theorem yieldsThrow (e : Stop) : Yields (throw e : Parse α) Q := fun _ sourced => sourced

theorem yieldsModify {f : Cursor → Cursor} (h : ∀ c, (f c).tokens = c.tokens) :
    Yields (modify f) fun _ => True := by
  intro c sourced
  refine ⟨?_, trivial⟩
  unfold Sourced
  rw [h]
  exact sourced

theorem Yields.bind {p : Parse α} {f : α → Parse β} (first : Yields p Q)
    (rest : ∀ a, Q a → Yields (f a) R) : Yields (p >>= f) R := by
  intro c sourced
  have given := first c sourced
  rw [bindRun]
  cases run : p c with
  | ok a c' =>
    rw [run] at given
    exact rest a given.2 c' given.1
  | error e c' =>
    rw [run] at given
    exact given

theorem Yields.mono {p : Parse α} {Q' : α → Prop} (h : Yields p Q) (imp : ∀ a, Q a → Q' a) :
    Yields p Q' := by
  intro c sourced
  have given := h c sourced
  cases run : p c with
  | ok a c' =>
    rw [run] at given
    exact ⟨given.1, imp a given.2⟩
  | error e c' =>
    rw [run] at given
    exact given

theorem Yields.and {p : Parse α} {Q' : α → Prop} (h : Yields p Q) (h' : Yields p Q') :
    Yields p fun a => Q a ∧ Q' a := by
  intro c sourced
  have given := h c sourced
  have given' := h' c sourced
  cases run : p c with
  | ok a c' =>
    rw [run] at given given'
    exact ⟨given.1, given.2, given'.2⟩
  | error e c' =>
    rw [run] at given
    exact given

theorem sourcedNext {c : Cursor} (h : Sourced c) : Sourced c.next := by
  unfold Sourced
  rw [c.nextTokens]
  exact h

theorem givesLook {c : Cursor} {f : Token → EStateM.Result Stop Cursor α} (sourced : Sourced c)
    (h : ∀ t, t.Lexical → Gives Q (f t)) : Gives Q (c.look f) := by
  unfold Cursor.look
  cases here : c.here with
  | none => exact sourced
  | some t =>
    cases t with
    | none => exact sourced
    | some t => exact h t (sourced _ (Cursor.mem_of_here here) t rfl)

theorem yieldsIsAtEnd : Yields isAtEnd fun _ => True := fun _ sourced => ⟨sourced, True.intro⟩

theorem yieldsCurrent : Yields current fun _ => True := by
  intro c sourced
  rw [currentRun]
  cases c.here with
  | none => exact sourced
  | some t => exact ⟨sourced, True.intro⟩

theorem yieldsAdvance : Yields advance fun _ => True := by
  intro c sourced
  rw [advanceRun]
  exact ⟨sourcedNext sourced, True.intro⟩

theorem yieldsTake : Yields take fun _ => True := by
  intro c sourced
  rw [takeRun]
  cases c.here with
  | none => exact sourced
  | some t => exact ⟨sourcedNext sourced, True.intro⟩

theorem yieldsCheck (k : Kind) : Yields (check k) fun _ => True := by
  intro c sourced
  rw [checkRun]
  exact givesLook sourced fun _ _ => ⟨sourced, True.intro⟩

theorem yieldsCheckAny (ks : List Kind) : Yields (checkAny ks) fun _ => True := by
  intro c sourced
  rw [checkAnyRun]
  exact givesLook sourced fun _ _ => ⟨sourced, True.intro⟩

theorem yieldsSkip (k : Kind) : Yields (skip k) fun _ => True := by
  intro c sourced
  rw [skipRun]
  refine givesLook sourced fun t _ => ?_
  split
  · exact ⟨sourcedNext sourced, True.intro⟩
  · exact ⟨sourced, True.intro⟩

theorem yieldsExpect (k : Kind) (message : String) :
    Yields (expect k message) fun t => ∀ u, t = some u → u.kind = k ∧ u.Lexical := by
  intro c sourced
  rw [expectRun]
  refine givesLook sourced fun t lexical => ?_
  split
  · next same =>
    refine ⟨sourcedNext sourced, ?_⟩
    intro u eq
    cases eq
    exact ⟨same, lexical⟩
  · rcases reportRun ⟨t, message⟩ c with run | run
    · rw [run]
      exact sourced
    · rw [run]
      exact ⟨sourced, fun u none => by cases none⟩

theorem yieldsName (message : String) : Yields (expect .identifier message) Free :=
  (yieldsExpect _ _).mono fun _ h => freeOfLexical h

theorem yieldsWhile {cond : Parse Bool} {p : Parse α} (test : Yields cond fun _ => True)
    (one : Yields p Q) (n : Nat) : Yields (whileM n cond p) fun xs => ∀ x ∈ xs, Q x := by
  induction n with
  | zero => exact yieldsThrow _
  | succ n ih =>
    refine test.bind fun b _ => ?_
    split
    · refine one.bind fun x hx => ih.bind fun xs hxs => yieldsPure ?_
      intro y mem
      rcases List.mem_cons.mp mem with rfl | rest
      · exact hx
      · exact hxs y rest
    · exact yieldsPure fun x mem => by cases mem

/-- What holds of every expression a parser makes, since it goes over from the parts to the
whole. -/
structure Compositional (Q : Expr → Prop) : Prop where
  missing : Q .missing
  literal : ∀ d, Q (.literal d)
  reference : ∀ t : Token, Keyword.ofWord? t.lexeme = none → Q (.reference 0 (some t))
  this : ∀ t : Token, t.lexeme = Keyword.this_.word → Q (.this 0 (some t))
  super : ∀ (t : Token) (method : Option Token), t.lexeme = Keyword.super_.word →
    Q (.super 0 (some t) method)
  assign : ∀ {node name value}, Q (.reference node name) → Q value → Q (.assign 0 name value)
  unary : ∀ {op right}, Q right → Q (.unary op right)
  binary : ∀ {left op right}, Q left → Q right → Q (.binary left op right)
  logical : ∀ {left op right}, Q left → Q right → Q (.logical left op right)
  grouping : ∀ {inner}, Q inner → Q (.grouping inner)
  call : ∀ {callee paren args}, Q callee → (∀ e ∈ args, Q e) → Q (.call callee paren args)
  get : ∀ {object name}, Q object → Q (.get object name)
  set : ∀ {object name value}, Q (.get object name) → Q value → Q (.set object name value)

section

variable {Q : Expr → Prop}

theorem yieldsChain {ops : List Kind} {operand : Parse Expr}
    {build : Expr → Option Token → Expr → Expr} (one : Yields operand Q)
    (whole : ∀ {l op r}, Q l → Q r → Q (build l op r)) (n : Nat) {left : Expr} (h : Q left) :
    Yields (chain ops operand build n left) Q := by
  induction n generalizing left with
  | zero => exact yieldsThrow _
  | succ n ih =>
    refine (yieldsCheckAny ops).bind fun more _ => ?_
    split
    · exact yieldsTake.bind fun op _ => one.bind fun r hr => ih (whole h hr)
    · exact yieldsPure h

structure ExprRules (Q : Expr → Prop) (n : Nat) : Prop where
  assignment : Yields (assignment n) Q
  disjunction : Yields (disjunction n) Q
  conjunction : Yields (conjunction n) Q
  equality : Yields (equality n) Q
  comparison : Yields (comparison n) Q
  term : Yields (term n) Q
  factor : Yields (factor n) Q
  unary : Yields (unary n) Q
  call : Yields (call n) Q
  callTail : ∀ e, Q e → Yields (callTail n e) Q
  arguments : Yields (arguments n) fun es => ∀ e ∈ es, Q e
  primary : Yields (primary n) Q

variable (whole : Compositional Q) {n : Nat} (ih : ExprRules Q n)
include whole ih

theorem yieldsAssignment : Yields (assignment (n + 1)) Q := by
  unfold assignment
  refine ih.disjunction.bind fun target ht => (yieldsSkip _).bind fun more _ => ?_
  split
  · refine ih.assignment.bind fun value hv => yieldsPure ?_
    cases target with
    | reference => exact whole.assign ht hv
    | get => exact whole.set ht hv
    | _ => exact ht
  · exact yieldsPure ht

theorem yieldsCallTail {callee : Expr} (h : Q callee) : Yields (callTail (n + 1) callee) Q := by
  unfold callTail
  refine (yieldsSkip _).bind fun paren _ => ?_
  split
  · refine ih.arguments.bind fun args ha => (yieldsExpect _ _).bind fun paren _ => ?_
    exact ih.callTail _ (whole.call h ha)
  · refine (yieldsSkip _).bind fun dot _ => ?_
    split
    · exact (yieldsExpect _ _).bind fun name _ => ih.callTail _ (whole.get h)
    · exact yieldsPure h

omit whole in
theorem yieldsArguments : Yields (arguments (n + 1)) fun es => ∀ e ∈ es, Q e := by
  unfold arguments
  refine (yieldsCheck _).bind fun none _ => ?_
  split
  · exact yieldsPure fun e mem => by cases mem
  · refine ih.assignment.bind fun first hf => ?_
    refine (yieldsWhile (yieldsSkip _) ih.assignment n).bind fun rest hr => ?_
    exact yieldsPure (List.forall_mem_cons.mpr ⟨hf, hr⟩)

theorem yieldsPrimary : Yields (primary (n + 1)) Q := by
  intro c sourced
  unfold primary
  rw [bindRun, kindRun]
  unfold Cursor.look
  cases here : c.here with
  | none => exact sourced
  | some t =>
    cases t with
    | none => exact sourced
    | some t =>
      have lexical := sourced _ (Cursor.mem_of_here here) t rfl
      have taken : take c = .ok (some t) c.next := by rw [takeRun, here]
      have literal : ∀ d, Gives Q ((advance >>= fun _ => pure (.literal d) : Parse Expr) c) :=
        fun d => (yieldsAdvance.bind fun _ _ => yieldsPure (whole.literal d)) c sourced
      dsimp only
      generalize looked : t.kind = k
      split
      · exact (yieldsTake.bind fun u _ => by
          cases u with
          | none => exact yieldsPure whole.missing
          | some u => exact yieldsPure (whole.literal _)) c sourced
      · exact (yieldsTake.bind fun u _ => by
          cases u with
          | none => exact yieldsPure whole.missing
          | some u => exact yieldsPure (whole.literal _)) c sourced
      · exact literal _
      · exact literal _
      · exact literal _
      · rw [bindRun, taken]
        exact ⟨sourcedNext sourced, whole.this t (lexical.2 _ looked)⟩
      · rw [bindRun, taken]
        exact ⟨sourcedNext sourced, whole.reference t (lexical.1 looked)⟩
      · exact (yieldsAdvance.bind fun _ _ => ih.assignment.bind fun inner hi =>
          (yieldsExpect _ _).bind fun _ _ => yieldsPure (whole.grouping hi)) c sourced
      · rw [bindRun, taken]
        exact ((yieldsExpect _ _).bind fun _ _ => (yieldsExpect _ _).bind fun method _ =>
          yieldsPure (whole.super t method (lexical.2 _ looked))) _ (sourcedNext sourced)
      · exact ⟨sourced, whole.missing⟩

omit ih in
theorem exprRules (n : Nat) : ExprRules Q n := by
  induction n with
  | zero =>
    constructor <;> intros <;> exact yieldsThrow _
  | succ n ih =>
    exact {
      assignment := yieldsAssignment whole ih
      disjunction := ih.conjunction.bind fun _ h => yieldsChain ih.term whole.logical n h
      conjunction := ih.equality.bind fun _ h => yieldsChain ih.term whole.logical n h
      equality := ih.comparison.bind fun _ h => yieldsChain ih.equality whole.binary n h
      comparison := ih.term.bind fun _ h => yieldsChain ih.term whole.binary n h
      term := ih.factor.bind fun _ h => yieldsChain ih.factor whole.binary n h
      factor := ih.unary.bind fun _ h => yieldsChain ih.unary whole.binary n h
      unary := (yieldsCheckAny _).bind fun prefixed _ => by
        split
        · exact yieldsTake.bind fun _ _ => ih.unary.bind fun _ h => yieldsPure (whole.unary h)
        · exact ih.call
      call := ih.primary.bind fun _ h => ih.callTail _ h
      callTail := fun _ h => yieldsCallTail whole ih h
      arguments := yieldsArguments ih
      primary := yieldsPrimary whole ih }

end

theorem shapedComposes : Compositional Expr.Shaped where
  missing := trivial
  literal _ := trivial
  reference t free u same := by
    cases same
    exact free
  this t word := ⟨t, rfl, word⟩
  super t _ word := ⟨t, rfl, word⟩
  assign free hv := ⟨free, hv⟩
  unary h := h
  binary hl hr := ⟨hl, hr⟩
  logical hl hr := ⟨hl, hr⟩
  grouping h := h
  call h ha := ⟨h, allShapedExprs ha⟩
  get h := h
  set h hv := ⟨h, hv⟩

theorem namedComposes : Compositional Expr.Named where
  missing := trivial
  literal _ := trivial
  reference t _ := Option.some_ne_none t
  this _ _ := trivial
  super _ _ _ := trivial
  assign given hv := ⟨given, hv⟩
  unary h := h
  binary hl hr := ⟨hl, hr⟩
  logical hl hr := ⟨hl, hr⟩
  grouping h := h
  call h ha := ⟨h, allNamedExprs ha⟩
  get h := h
  set h hv := ⟨h, hv⟩

def IsExpression (e : Expr) : Prop := e.Shaped ∧ e.Named

theorem missingIsExpression : IsExpression .missing := ⟨trivial, trivial⟩

theorem yieldsExpression (n : Nat) : Yields (expression n) IsExpression :=
  (exprRules shapedComposes n).assignment.and (exprRules namedComposes n).assignment

theorem yieldsParameters (n : Nat) : Yields (parameters n) fun ps => ∀ p ∈ ps, Free p := by
  refine (yieldsName _).bind fun first hf => ?_
  refine (yieldsWhile (yieldsSkip _) (yieldsName _) n).bind fun rest hr => yieldsPure ?_
  intro p mem
  rcases List.mem_cons.mp mem with rfl | later
  · exact hf
  · exact hr p later

theorem yieldsHeader (n : Nat) (what : String) :
    Yields (header n what) fun h => Free h.1 ∧ ∀ p ∈ h.2, Free p := by
  refine (yieldsName _).bind fun name hn => (yieldsExpect _ _).bind fun _ _ => ?_
  have rest : ∀ params : List (Option Token), (∀ p ∈ params, Free p) →
      Yields (do
        let _ ← expect .rightParen "Expect an ')' after the parameters"
        let _ ← expect .leftBrace ("Expect an '\x7b' before  " ++ what ++ " ")
        return (name, params)) fun h => Free h.1 ∧ ∀ p ∈ h.2, Free p :=
    fun params hp => (yieldsExpect _ _).bind fun _ _ => (yieldsExpect _ _).bind fun _ _ =>
      yieldsPure ⟨hn, hp⟩
  refine (yieldsCheck _).bind fun none _ => ?_
  split
  · exact (yieldsPure (show ∀ p ∈ [], Free p from fun _ mem => by cases mem)).bind rest
  · exact (yieldsParameters n).bind rest

theorem yieldsVar (n : Nat) : Yields (varDeclaration n) Stmt.Shaped := by
  refine (yieldsName _).bind fun name hn => (yieldsSkip _).bind fun given _ => ?_
  split
  · exact (yieldsExpression n).bind fun init hi => (yieldsExpect _ _).bind fun _ _ =>
      yieldsPure ⟨hn, hi.1⟩
  · exact (yieldsPure missingIsExpression).bind fun init hi => (yieldsExpect _ _).bind fun _ _ =>
      yieldsPure ⟨hn, hi.1⟩

def IsStatement (s : Stmt) : Prop := s.Shaped ∧ s.isDeclaration = false ∧ s.Named

theorem yieldsExpressionStatement (n : Nat) : Yields (expressionStatement n) IsStatement := by
  refine (yieldsExpression n).bind fun e he => ?_
  have done : Yields (pure (.expression e) : Parse Stmt) IsStatement := yieldsPure ⟨he.1, rfl, he.2⟩
  intro c sourced
  show Gives _ ((if c.allowLone && (c.index + 1 == c.tokens.size) then _ else _ : Parse Stmt) c)
  split
  · exact ((yieldsModify fun _ => rfl).bind fun _ _ => done) c sourced
  · exact ((yieldsExpect _ _).bind fun _ _ => done) c sourced

theorem yieldsPrint (n : Nat) : Yields (printStatement n) IsStatement :=
  (yieldsExpression n).bind fun e he => (yieldsExpect _ _).bind fun _ _ =>
    yieldsPure (show IsStatement (.print e) from ⟨he.1, rfl, he.2⟩)

theorem yieldsReturn (n : Nat) : Yields (returnStatement n) IsStatement := by
  refine yieldsCurrent.bind fun keyword _ => (yieldsCheck _).bind fun none _ => ?_
  have close : ∀ value : Expr, IsExpression value →
      Yields (do let _ ← expect .semicolon "Excpect ';' after return statement"
                 return .return_ keyword value) IsStatement :=
    fun value hv => (yieldsExpect _ _).bind fun _ _ =>
      yieldsPure (show IsStatement (.return_ keyword value) from ⟨hv.1, rfl, hv.2⟩)
  split
  · exact (yieldsPure missingIsExpression).bind close
  · exact (yieldsExpression n).bind close

theorem statementFor {init : Option Stmt} {cond step : Expr} {body : Stmt}
    (hi : ∀ s, init = some s → s.Shaped) (hc : IsExpression cond) (hs : step.Shaped)
    (hb : IsStatement body) : IsStatement (desugarFor init cond step body) := by
  obtain ⟨shaped, plain, named⟩ : IsStatement
      (if step.isMissing then body else .block [body, .expression step]) := by
    split
    · exact hb
    · exact ⟨⟨hb.1, hs, trivial⟩, rfl, trivial⟩
  have test : IsExpression (if cond.isMissing then .literal (.bool true) else cond) := by
    split
    · exact ⟨trivial, trivial⟩
    · exact hc
  unfold desugarFor
  cases init with
  | none => exact ⟨⟨test.1, shaped, plain⟩, rfl, test.2, named⟩
  | some s => exact ⟨⟨hi s rfl, ⟨test.1, shaped, plain⟩, trivial⟩, rfl, trivial⟩

theorem yieldsClause (n : Nat) (k : Kind) : Yields (clause n k) IsExpression := by
  refine (yieldsCheck k).bind fun none _ => ?_
  split
  · exact yieldsPure missingIsExpression
  · exact yieldsExpression n

theorem yieldsPassOver (n : Nat) : Yields (passOver n) fun _ => True := by
  induction n with
  | zero => exact yieldsThrow _
  | succ n ih =>
    refine yieldsIsAtEnd.bind fun done _ => ?_
    split
    · exact yieldsPure trivial
    · refine (yieldsCheckAny _).bind fun stop _ => ?_
      split
      · exact yieldsPure trivial
      · exact yieldsAdvance.bind fun _ _ => ih

theorem yieldsRecovering (n : Nat) {p : Parse Stmt} (h : Yields p Stmt.Shaped) :
    Yields (recovering n p) Stmt.Shaped := by
  intro c sourced
  have given := h c sourced
  unfold recovering
  rw [tryCatchRun]
  cases out : p c with
  | ok s c' =>
    rw [out] at given
    exact given
  | error e c' =>
    rw [out] at given
    cases e with
    | fault f =>
      refine (Yields.bind (yieldsModify (by intro; rfl)) fun _ _ => ?_) c' given
      exact (yieldsAdvance.bind fun _ _ => yieldsPassOver n).bind fun _ _ =>
        yieldsPure (show Stmt.missing.Shaped from trivial)
    | errorLimit => exact given
    | outOfFuel => exact given

structure StmtRules (n : Nat) : Prop where
  declaration : Yields (declaration n) Stmt.Shaped
  classDeclaration : Yields (classDeclaration n) Stmt.Shaped
  function : ∀ what, Yields (function n what) FunDecl.Shaped
  statement : Yields (statement n) IsStatement
  forStatement : Yields (forStatement n) IsStatement
  ifStatement : Yields (ifStatement n) IsStatement
  whileStatement : Yields (whileStatement n) IsStatement
  block : Yields (block n) Stmt.AllShaped

theorem yieldsDeclaration {n : Nat} (ih : StmtRules n) :
    Yields (declaration (n + 1)) Stmt.Shaped := by
  refine yieldsRecovering n ?_
  refine (yieldsSkip _).bind fun isClass _ => ?_
  split
  · exact ih.classDeclaration
  · refine (yieldsSkip _).bind fun isFunction _ => ?_
    split
    · exact (ih.function _).bind fun f hf => yieldsPure (show (Stmt.function f).Shaped from hf)
    · refine (yieldsSkip _).bind fun isVar _ => ?_
      split
      · exact yieldsVar n
      · exact ih.statement.mono fun _ h => h.1

theorem yieldsClass {n : Nat} (ih : StmtRules n) :
    Yields (classDeclaration (n + 1)) Stmt.Shaped := by
  refine (yieldsName _).bind fun name hn => ?_
  have body : ∀ base : Expr, base.IsSuperclass →
      Yields (do
        let _ ← expect .leftBrace "Expect '\x7b' for a class"
        let methods ← whileM n inClass (function n "method")
        let _ ← expect .rightBrace "Expect '\x7d' at the end of a class"
        return .class_ name methods base) Stmt.Shaped := by
    intro base hb
    refine (yieldsExpect _ _).bind fun _ _ => ?_
    have inside : Yields inClass fun _ => True := by
      refine yieldsIsAtEnd.bind fun done _ => ?_
      split
      · exact yieldsPure trivial
      · exact (yieldsCheck _).bind fun _ _ => yieldsPure trivial
    refine (yieldsWhile inside (ih.function _) n).bind fun methods hm => ?_
    exact (yieldsExpect _ _).bind fun _ _ => yieldsPure ⟨hn, allShapedFunDecls hm, hb⟩
  refine (yieldsSkip _).bind fun derived _ => ?_
  split
  · refine (yieldsName _).bind fun base hb => ?_
    refine (yieldsPure (Q := Expr.IsSuperclass) ?_).bind body
    exact .inr ⟨0, base, rfl, hb⟩
  · refine (yieldsPure (Q := Expr.IsSuperclass) ?_).bind body
    exact .inl rfl

theorem yieldsFunction {n : Nat} (ih : StmtRules n) (what : String) :
    Yields (function (n + 1) what) FunDecl.Shaped := by
  refine (yieldsHeader n what).bind fun (name, params) ⟨hn, hp⟩ => ?_
  exact ih.block.bind fun body hb => yieldsPure ⟨hn, hp, hb⟩

theorem yieldsStatement {n : Nat} (ih : StmtRules n) :
    Yields (statement (n + 1)) IsStatement := by
  refine (yieldsSkip _).bind fun isFor _ => ?_
  split
  · exact ih.forStatement
  refine (yieldsSkip _).bind fun isIf _ => ?_
  split
  · exact ih.ifStatement
  refine (yieldsSkip _).bind fun isPrint _ => ?_
  split
  · exact yieldsPrint n
  refine (yieldsSkip _).bind fun isReturn _ => ?_
  split
  · exact yieldsReturn n
  refine (yieldsSkip _).bind fun isWhile _ => ?_
  split
  · exact ih.whileStatement
  refine (yieldsSkip _).bind fun isBlock _ => ?_
  split
  · exact ih.block.bind fun body hb =>
      yieldsPure (show IsStatement (.block body) from ⟨hb, rfl, trivial⟩)
  · exact yieldsExpressionStatement n

theorem yieldsInitializer (n : Nat) :
    Yields (initializer n) fun init => ∀ s, init = some s → s.Shaped := by
  have given : ∀ s : Stmt, s.Shaped → ∀ u, some s = some u → u.Shaped :=
    fun s hs u same => by cases same; exact hs
  refine (yieldsSkip _).bind fun bare _ => ?_
  split
  · exact yieldsPure fun u same => by cases same
  · refine (yieldsSkip _).bind fun isVar _ => ?_
    split
    · exact (yieldsVar n).bind fun s hs => yieldsPure (given s hs)
    · exact (yieldsExpressionStatement n).bind fun s hs => yieldsPure (given s hs.1)

theorem yieldsFor {n : Nat} (ih : StmtRules n) : Yields (forStatement (n + 1)) IsStatement :=
  (yieldsExpect _ _).bind fun _ _ => (yieldsInitializer n).bind fun _ hi =>
    (yieldsClause n _).bind fun _ hc => (yieldsExpect _ _).bind fun _ _ =>
      (yieldsClause n _).bind fun _ hs => (yieldsExpect _ _).bind fun _ _ =>
        ih.statement.bind fun _ hb => yieldsPure (statementFor hi hc hs.1 hb)

theorem yieldsIf {n : Nat} (ih : StmtRules n) : Yields (ifStatement (n + 1)) IsStatement := by
  refine (yieldsExpect _ _).bind fun _ _ => (yieldsExpression n).bind fun cond hc => ?_
  refine (yieldsExpect _ _).bind fun _ _ => ih.statement.bind fun yes hy => ?_
  have close : ∀ no : Stmt, IsStatement no →
      Yields (pure (.if_ cond yes no) : Parse Stmt) IsStatement :=
    fun no ho => yieldsPure
      ⟨⟨hc.1, hy.1, ho.1, hy.2.1, ho.2.1⟩, rfl, hc.2, hy.2.2, ho.2.2⟩
  refine (yieldsSkip _).bind fun more _ => ?_
  split
  · exact ih.statement.bind close
  · exact (yieldsPure (show IsStatement .missing from ⟨trivial, rfl, trivial⟩)).bind close

theorem yieldsWhileStatement {n : Nat} (ih : StmtRules n) :
    Yields (whileStatement (n + 1)) IsStatement :=
  (yieldsExpect _ _).bind fun _ _ => (yieldsExpression n).bind fun _ hc =>
    (yieldsExpect _ _).bind fun _ _ => ih.statement.bind fun _ hb =>
      yieldsPure ⟨⟨hc.1, hb.1, hb.2.1⟩, rfl, hc.2, hb.2.2⟩

theorem yieldsBlock {n : Nat} (ih : StmtRules n) : Yields (block (n + 1)) Stmt.AllShaped := by
  have inside : Yields (do return !(← check .rightBrace) && !(← isAtEnd)) fun _ => True :=
    (yieldsCheck _).bind fun _ _ => yieldsIsAtEnd.bind fun _ _ => yieldsPure trivial
  exact (yieldsWhile inside ih.declaration n).bind fun body hb =>
    (yieldsExpect _ _).bind fun _ _ => yieldsPure (allShapedStmts hb)

theorem stmtRules (n : Nat) : StmtRules n := by
  induction n with
  | zero =>
    constructor <;> intros <;> exact yieldsThrow _
  | succ n ih =>
    exact {
      declaration := yieldsDeclaration ih
      classDeclaration := yieldsClass ih
      function := yieldsFunction ih
      statement := yieldsStatement ih
      forStatement := yieldsFor ih
      ifStatement := yieldsIf ih
      whileStatement := yieldsWhileStatement ih
      block := yieldsBlock ih }

theorem yieldsProgram (n : Nat) : Yields (program n) Stmt.AllShaped := by
  have inside : Yields (do return !(← isAtEnd)) fun _ => True :=
    yieldsIsAtEnd.bind fun _ _ => yieldsPure trivial
  exact (yieldsWhile inside (stmtRules n).declaration n).mono fun _ h => allShapedStmts h

end Parse
end Lox
