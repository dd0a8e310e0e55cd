import Lox.Proofs.Parsing.Completion
import Lox.Proofs.Parsing.Spelling
import Lox.Proofs.Sessions
import Lox.Proofs.Turns
import Lox.Tree.Text

/-!
Trees that can be printed. A statement without holes has a text, and a parse that reports nothing
gives one text for each of its statements.
-/

namespace Lox

variable {T : Token → Prop}

mutual

theorem numberWholeExpr (e : Expr) (n : Nat) (h : e.Whole T) : (e.number n).1.Whole T := by
  cases e with
  | missing | literal d | reference node name | this node keyword | super node keyword method =>
    exact h
  | assign node name value => exact ⟨h.1, numberWholeExpr value n h.2⟩
  | unary op right => exact ⟨h.1, numberWholeExpr right n h.2⟩
  | binary left op right =>
    exact ⟨numberWholeExpr left n h.1, h.2.1, numberWholeExpr right _ h.2.2⟩
  | logical left op right =>
    exact ⟨numberWholeExpr left n h.1, h.2.1, numberWholeExpr right _ h.2.2⟩
  | grouping inner => exact numberWholeExpr inner n h
  | call callee paren args =>
    exact ⟨numberWholeExpr callee n h.1, h.2.1, numberWholeExprs args _ h.2.2⟩
  | get object name => exact ⟨numberWholeExpr object n h.1, h.2⟩
  | set object name value =>
    exact ⟨numberWholeExpr object n h.1, h.2.1, numberWholeExpr value _ h.2.2⟩

theorem numberWholeExprs (es : List Expr) (n : Nat) (h : Expr.AllWhole T es) :
    Expr.AllWhole T (Expr.numberAll es n).1 := by
  cases es with
  | nil => exact h
  | cons e es => exact ⟨numberWholeExpr e n h.1, numberWholeExprs es _ h.2⟩

end

mutual

theorem numberWholeStmt (s : Stmt) (n : Nat) (h : s.Whole T) : (s.number n).1.Whole T := by
  cases s with
  | missing => exact h
  | expression e => exact numberWholeExpr e n h
  | print e => exact numberWholeExpr e n h
  | var name init => exact ⟨h.1, numberWholeExpr init n h.2⟩
  | block body => exact numberWholeStmts body n h
  | if_ cond yes no =>
    refine ⟨numberWholeExpr cond n h.1, numberWholeStmt yes _ h.2.1, ?_⟩
    rcases h.2.2 with rfl | whole
    · exact .inl rfl
    · exact .inr (numberWholeStmt no _ whole)
  | while_ cond body => exact ⟨numberWholeExpr cond n h.1, numberWholeStmt body _ h.2⟩
  | function f => exact numberWholeFunDecl f n h
  | return_ keyword value => exact ⟨h.1, numberWholeExpr value n h.2⟩
  | class_ name methods base =>
    exact ⟨h.1, numberWholeFunDecls methods n h.2.1, numberWholeExpr base _ h.2.2⟩

theorem numberWholeStmts (ss : List Stmt) (n : Nat) (h : Stmt.AllWhole T ss) :
    Stmt.AllWhole T (Stmt.numberAll ss n).1 := by
  cases ss with
  | nil => exact h
  | cons s ss => exact ⟨numberWholeStmt s n h.1, numberWholeStmts ss _ h.2⟩

theorem numberWholeFunDecl (f : FunDecl) (n : Nat) (h : f.Whole T) : (f.number n).1.Whole T := by
  cases f with
  | mk name params body => exact ⟨h.1, h.2.1, numberWholeStmts body n h.2.2⟩

theorem numberWholeFunDecls (fs : List FunDecl) (n : Nat) (h : FunDecl.AllWhole T fs) :
    FunDecl.AllWhole T (FunDecl.numberAll fs n).1 := by
  cases fs with
  | nil => exact h
  | cons f fs => exact ⟨numberWholeFunDecl f n h.1, numberWholeFunDecls fs _ h.2⟩

end

def Prints {α : Type} (x : Except Fault α) : Prop := ∃ a, x = .ok a

theorem Prints.bind {α β : Type} {x : Except Fault α} {f : α → Except Fault β} (first : Prints x)
    (rest : ∀ a, Prints (f a)) : Prints (x >>= f) := by
  obtain ⟨a, rfl⟩ := first
  exact rest a

theorem printsPure {α : Type} (a : α) : Prints (pure a) := ⟨a, rfl⟩

theorem printsLexeme {t : Option Token} (h : Held T t) : Prints (lexeme t) := by
  obtain ⟨u, rfl, -⟩ := h
  exact ⟨u.lexeme, rfl⟩

mutual

theorem printsExpr (e : Expr) (h : e.Whole T) : Prints e.text := by
  cases e with
  | missing => exact printsPure _
  | literal d => exact printsPure _
  | this node keyword => exact printsPure _
  | super node keyword method => exact printsPure _
  | reference node name => exact (printsLexeme h).bind fun _ => printsPure _
  | assign node name value =>
    exact (printsLexeme h.1).bind fun _ => (printsExpr value h.2).bind fun _ => printsPure _
  | unary op right =>
    exact (printsLexeme h.1).bind fun _ => (printsExpr right h.2).bind fun _ => printsPure _
  | binary left op right =>
    exact (printsLexeme h.2.1).bind fun _ => (printsExpr left h.1).bind fun _ =>
      (printsExpr right h.2.2).bind fun _ => printsPure _
  | logical left op right =>
    exact (printsLexeme h.2.1).bind fun _ => (printsExpr left h.1).bind fun _ =>
      (printsExpr right h.2.2).bind fun _ => printsPure _
  | grouping inner => exact (printsExpr inner h).bind fun _ => printsPure _
  | call callee paren args =>
    exact (printsExpr callee h.1).bind fun _ => (printsExprs args h.2.2).bind fun _ => printsPure _
  | get object name => exact (printsExpr object h.1).bind fun _ => printsPure _
  | set object name value =>
    exact (printsExpr object h.1).bind fun _ => (printsExpr value h.2.2).bind fun _ => printsPure _

theorem printsExprs (es : List Expr) (h : Expr.AllWhole T es) : Prints (Expr.quotedAll es) := by
  cases es with
  | nil => exact printsPure _
  | cons e es =>
    exact (printsExpr e h.1).bind fun _ => (printsExprs es h.2).bind fun _ => printsPure _

end

mutual

theorem printsStmt (s : Stmt) (h : s.Whole T) : Prints s.text := by
  cases s with
  | missing => exact printsPure _
  | expression e => exact (printsExpr e h).bind fun _ => printsPure _
  | print e => exact (printsExpr e h).bind fun _ => printsPure _
  | var name init =>
    exact (printsLexeme h.1).bind fun _ => (printsExpr init h.2).bind fun _ => printsPure _
  | block body => exact (printsStmts body h).bind fun _ => printsPure _
  | if_ cond yes no =>
    have branch : Prints no.text := by
      rcases h.2.2 with rfl | whole
      · exact printsPure _
      · exact printsStmt no whole
    exact (printsExpr cond h.1).bind fun _ => (printsStmt yes h.2.1).bind fun _ =>
      branch.bind fun _ => printsPure _
  | while_ cond body =>
    exact (printsExpr cond h.1).bind fun _ => (printsStmt body h.2).bind fun _ => printsPure _
  | function f => exact printsFunDecl f h
  | return_ keyword value => exact (printsExpr value h.2).bind fun _ => printsPure _
  | class_ name methods base =>
    exact (printsExpr base h.2.2).bind fun _ => (printsFunDecls methods h.2.1).bind fun _ =>
      printsPure _

theorem printsStmts (ss : List Stmt) (h : Stmt.AllWhole T ss) : Prints (Stmt.quotedAll ss) := by
  cases ss with
  | nil => exact printsPure _
  | cons s ss =>
    exact (printsStmt s h.1).bind fun _ => (printsStmts ss h.2).bind fun _ => printsPure _

theorem printsFunDecl (f : FunDecl) (h : f.Whole T) : Prints f.text := by
  cases f with
  | mk name params body =>
    exact (printsLexeme h.1).bind fun _ => (printsStmts body h.2.2).bind fun _ => printsPure _

theorem printsFunDecls (fs : List FunDecl) (h : FunDecl.AllWhole T fs) :
    Prints (FunDecl.quotedAll fs) := by
  cases fs with
  | nil => exact printsPure _
  | cons f fs =>
    exact (printsFunDecl f h.1).bind fun _ => (printsFunDecls fs h.2).bind fun _ => printsPure _

end

theorem textsOfWhole {body : List Stmt} (h : Stmt.AllWhole T body) :
    ∃ texts : List String, body.mapM Stmt.text = .ok texts ∧ texts.length = body.length ∧
      Stmt.texts body = .ok (texts.map some) := by
  induction body with
  | nil => exact ⟨[], rfl, rfl, rfl⟩
  | cons s ss ih =>
    obtain ⟨texts, each, length, all⟩ := ih h.2
    obtain ⟨text, first⟩ := printsStmt s h.1
    have there : s.isMissing = false := by
      cases s with
      | missing => exact absurd h.1 id
      | _ => rfl
    unfold Stmt.texts at all ⊢
    refine ⟨text :: texts, ?_, by simp [length], ?_⟩
    · rw [List.mapM_cons, first, each]
      rfl
    · rw [List.mapM_cons, first, all, there]
      rfl

namespace Parse

theorem hereBehind {c : Cursor} (behind : c.tokens.size ≤ c.index) : c.here = none := by
  have outside : cell? c.tokens.size c.index = none := by
    unfold cell?
    rw [if_neg (by simp; omega), if_neg (by simp; omega)]
  rw [Cursor.here, outside, Option.bind_none]

theorem lookBehind {α : Type} {c : Cursor} (behind : c.tokens.size ≤ c.index)
    (f : Token → EStateM.Result Stop Cursor α) : c.look f = .error (.fault .outOfRange) c := by
  rw [Cursor.look, hereBehind behind]

theorem passOverBehind {c : Cursor} (behind : c.tokens.size ≤ c.index) (n : Nat) (u : Unit)
    (c' : Cursor) : passOver n c ≠ .ok u c' := by
  intro run
  cases n with
  | zero => cases run
  | succ n =>
    obtain ⟨ended, _, test, run⟩ := bindOk.mp run
    cases test
    rw [if_neg (by simp; omega)] at run
    obtain ⟨_, _, looked, _⟩ := bindOk.mp run
    rw [checkAnyRun, lookBehind behind] at looked
    cases looked

/- Behind the last token nothing is parsed: the fault is met again while the rest is passed over. -/
theorem declarationBehind {c : Cursor} (behind : c.tokens.size ≤ c.index) (n : Nat) (s : Stmt)
    (c' : Cursor) : declaration n c ≠ .ok s c' := by
  intro run
  cases n with
  | zero => cases run
  | succ n =>
    unfold declaration recovering announced at run
    rw [tryCatchRun, bindRun, skipRun, lookBehind behind] at run
    obtain ⟨_, _, written, run⟩ := bindOk.mp run
    cases written
    obtain ⟨_, _, passed, _⟩ := bindOk.mp run
    obtain ⟨_, _, advanced, passed⟩ := bindOk.mp passed
    rw [advanceRun] at advanced
    cases advanced
    refine passOverBehind ?_ n _ _ passed
    unfold Cursor.next
    split <;> dsimp only <;> omega

theorem programBehind {c : Cursor} (behind : c.tokens.size ≤ c.index) (n : Nat) (body : List Stmt)
    (c' : Cursor) : program n c ≠ .ok body c' := by
  intro run
  cases n with
  | zero => cases run
  | succ n =>
    obtain ⟨_, _, test, run⟩ := bindOk.mp run
    cases test
    rw [if_pos (by simp; omega)] at run
    obtain ⟨_, _, first, _⟩ := bindOk.mp run
    exact declarationBehind behind _ _ _ first

end Parse

namespace Session

/-- A parse from the first token on, or from a later one, that reports nothing: no statement is
missing at any depth, every token of the trees is one of the tokens at hand, and every statement of
the program has a text. -/
theorem silentParsesPrint {s s' : Session} (start : 0 ≤ s.index) (parsed : parse s = .ok () s')
    (silent : s'.log.parse = s.log.parse) :
    ∃ body, s'.tree = .program body ∧ Stmt.AllWhole (· ∈ s.tokens) body ∧
      ∃ texts : List String, body.mapM Stmt.text = .ok texts ∧ texts.length = body.length ∧
        Stmt.texts body = .ok (texts.map some) := by
  obtain ⟨body, c, run, rfl⟩ := parseOk parsed
  have whole : Stmt.AllWhole (· ∈ s.tokens) body := by
    by_cases inside : s.index < s.tokens.size
    · have ending := Parse.completesProgram s.cursor.budget s.cursor ⟨rfl, start, inside⟩
      rw [show Parse.program s.cursor.budget s.cursor = .ok body c from run] at ending
      obtain ⟨-, es, log, complete⟩ := ending
      refine complete ?_
      have silent : c.log.parse = s.log.parse := silent
      rw [log, Log.parseAppend, Log.parseErrors] at silent
      exact List.append_right_eq_self.mp silent
    · refine absurd run (Parse.programBehind ?_ _ body c)
      simpa [Session.cursor] using inside
  have numbered := numberWholeStmts body s.nextNode whole
  exact ⟨_, rfl, numbered, textsOfWhole numbered⟩

def subclassSample : Session where
  tokens := #[.keyword .class_, .identifier "A", .sign .less, .identifier "B", .mark .leftBrace,
    .identifier "m", .mark .leftParen, .identifier "a", .mark .comma, .identifier "b",
    .mark .rightParen, .mark .leftBrace, .keyword .if_, .mark .leftParen, .identifier "a",
    .mark .rightParen, .keyword .return_, .keyword .super_, .mark .dot, .identifier "m",
    .mark .leftParen, .identifier "b", .mark .rightParen, .mark .semicolon, .keyword .else_,
    .keyword .this_, .mark .dot, .identifier "x", .sign .equal, .mark .minus, .identifier "b",
    .mark .semicolon, .mark .rightBrace, .mark .rightBrace, .eof]

def parsesSilently (s : Session) : Bool :=
  match parse s with
  | .ok _ s' => s'.log.parse.isEmpty
  | .error .. => false

theorem silentlyParsed {s : Session} (h : s.parsesSilently = true) :
    ∃ s', parse s = .ok () s' ∧ s'.log.parse = [] := by
  unfold parsesSilently at h
  split at h
  · next s' run => exact ⟨s', run, List.isEmpty_iff.mp h⟩
  · cases h

theorem silentParsesPrint_subclass : ∃ s', parse subclassSample = .ok () s' ∧
    s'.log.parse = subclassSample.log.parse ∧
    ∃ body, s'.tree = .program body ∧ Stmt.AllWhole (· ∈ subclassSample.tokens) body ∧
      ∃ texts : List String, body.mapM Stmt.text = .ok texts ∧ texts.length = body.length ∧
        Stmt.texts body = .ok (texts.map some) := by
  have silently : subclassSample.parsesSilently = true := by decide +kernel
  obtain ⟨s', parsed, silent⟩ := silentlyParsed silently
  exact ⟨s', parsed, silent, silentParsesPrint (Int.le_refl 0) parsed silent⟩

end Session

end Lox
