import Lox.Parsing.Statement
import Lox.Proofs.Parsing.Cursors
import Lox.Proofs.Trees

/-!
Complete trees. A parser leaves a hole in a tree where it looked for a token in vain, and reports
that; with nothing reported there is no such hole. The list of tokens may be any list, with or
without an end token: as long as the cursor is on one of the tokens, no parser runs into a fault.
-/

namespace Lox

def Held (T : Token → Prop) (t : Option Token) : Prop := ∃ u, t = some u ∧ T u

mutual

/-- Every token is there. An expression that the grammar leaves out, or for which there was nothing
to read, may be missing. -/
def Expr.Whole (T : Token → Prop) : Expr → Prop
  | .missing | .literal _ => True
  | .reference _ name => Held T name
  | .assign _ name value => Held T name ∧ value.Whole T
  | .this _ keyword => Held T keyword
  | .super _ keyword method => Held T keyword ∧ Held T method
  | .unary op right => Held T op ∧ right.Whole T
  | .binary left op right => left.Whole T ∧ Held T op ∧ right.Whole T
  | .logical left op right => left.Whole T ∧ Held T op ∧ right.Whole T
  | .grouping inner => inner.Whole T
  | .call callee paren args => callee.Whole T ∧ Held T paren ∧ Expr.AllWhole T args
  | .get object name => object.Whole T ∧ Held T name
  | .set object name value => object.Whole T ∧ Held T name ∧ value.Whole T

def Expr.AllWhole (T : Token → Prop) : List Expr → Prop
  | [] => True
  | e :: es => e.Whole T ∧ Expr.AllWhole T es

end

mutual

def Stmt.Whole (T : Token → Prop) : Stmt → Prop
  | .missing => False
  | .expression e => e.Whole T
  | .print e => e.Whole T
  | .var name init => Held T name ∧ init.Whole T
  | .block body => Stmt.AllWhole T body
  | .if_ cond yes no => cond.Whole T ∧ yes.Whole T ∧ (no = .missing ∨ no.Whole T)
  | .while_ cond body => cond.Whole T ∧ body.Whole T
  | .function f => f.Whole T
  | .return_ keyword value => Held T keyword ∧ value.Whole T
  | .class_ name methods base => Held T name ∧ FunDecl.AllWhole T methods ∧ base.Whole T

def Stmt.AllWhole (T : Token → Prop) : List Stmt → Prop
  | [] => True
  | s :: ss => s.Whole T ∧ Stmt.AllWhole T ss

def FunDecl.Whole (T : Token → Prop) : FunDecl → Prop
  | .mk name params body => Held T name ∧ (∀ p ∈ params, Held T p) ∧ Stmt.AllWhole T body

def FunDecl.AllWhole (T : Token → Prop) : List FunDecl → Prop
  | [] => True
  | f :: fs => f.Whole T ∧ FunDecl.AllWhole T fs

end

variable {T : Token → Prop}

theorem allWholeExprs {es : List Expr} (h : ∀ e ∈ es, e.Whole T) : Expr.AllWhole T es :=
  (allParts (A := Expr.AllWhole T) trivial fun _ _ => .rfl).mpr h

theorem allWholeStmts {ss : List Stmt} (h : ∀ s ∈ ss, s.Whole T) : Stmt.AllWhole T ss :=
  (allParts (A := Stmt.AllWhole T) trivial fun _ _ => .rfl).mpr h

theorem allWholeFunDecls {fs : List FunDecl} (h : ∀ f ∈ fs, f.Whole T) : FunDecl.AllWhole T fs :=
  (allParts (A := FunDecl.AllWhole T) trivial fun _ _ => .rfl).mpr h

theorem wholeBinary {left right : Expr} {op : Option Token} (l : left.Whole T) (held : Held T op)
    (r : right.Whole T) : (Expr.binary left op right).Whole T := ⟨l, held, r⟩

theorem wholeLogical {left right : Expr} {op : Option Token} (l : left.Whole T) (held : Held T op)
    (r : right.Whole T) : (Expr.logical left op right).Whole T := ⟨l, held, r⟩

structure Cursor.On (ts : Array Token) (c : Cursor) : Prop where
  tokens : c.tokens = ts.map some
  low : 0 ≤ c.index
  high : c.index < ts.size

variable {ts : Array Token} {c : Cursor}

theorem Cursor.On.here (h : c.On ts) : ∃ t, t ∈ ts ∧ c.here = some (some t) := by
  obtain ⟨i, index⟩ := Int.eq_ofNat_of_zero_le h.low
  have inside : i < ts.size := by
    have := h.high
    omega
  have cell : cell? c.tokens.size c.index = some i := by
    simp [cell?, h.tokens, index, inside]
  refine ⟨ts[i], Array.getElem_mem inside, ?_⟩
  rw [Cursor.here, cell, Option.bind_some, h.tokens]
  simp [inside]

theorem Cursor.On.next (h : c.On ts) : c.next.On ts := by
  unfold Cursor.next
  split
  · exact h
  · next more =>
    have size : c.tokens.size = ts.size := by simp [h.tokens]
    have low := h.low
    have high := h.high
    rw [size] at more
    refine ⟨h.tokens, ?_, ?_⟩
    · show 0 ≤ c.index + 1
      omega
    · show c.index + 1 < ts.size
      simp at more
      omega

theorem Cursor.nextLog (c : Cursor) : c.next.log = c.log := by
  unfold Cursor.next
  split <;> rfl

namespace Parse

variable {α β : Type} {p : Parse α} {Q : α → Prop} {R : β → Prop}

/- How a parser ends on the tokens. It adds its reports to the log, and without any of them the
result is as it should be. -/
def Ending (ts : Array Token) (Q : α → Prop) (c : Cursor) : EStateM.Result Stop Cursor α → Prop
  | .ok a c' => c'.On ts ∧ ∃ es : List ParseError, c'.log = c.log ++ es.map .parse ∧ (es = [] → Q a)
  | .error e _ => ∀ f, e ≠ .fault f

def Completes (ts : Array Token) (p : Parse α) (Q : α → Prop) : Prop :=
  ∀ c, c.On ts → Ending ts Q c (p c)

theorem endingStay {a : α} {c' : Cursor} (on : c'.On ts) (log : c'.log = c.log) (h : Q a) :
    Ending ts Q c (.ok a c') :=
  ⟨on, [], by simp [log], fun _ => h⟩

theorem completesPure {a : α} (h : Q a) : Completes ts (pure a) Q := fun _ on => endingStay on rfl h

theorem completesOutOfFuel : Completes ts (throw .outOfFuel) Q := fun _ _ _ same => by cases same

theorem Completes.bind {f : α → Parse β} (first : Completes ts p Q)
    (rest : ∀ a, Completes ts (f a) fun b => Q a → R b) : Completes ts (p >>= f) R := by
  intro c on
  have ending := first c on
  rw [bindRun]
  cases run : p c with
  | error e c₁ =>
    rw [run] at ending
    exact ending
  | ok a c₁ =>
    rw [run] at ending
    obtain ⟨on₁, es, log₁, given⟩ := ending
    have later := rest a c₁ on₁
    dsimp only
    cases run' : f a c₁ with
    | error e c₂ =>
      rw [run'] at later
      exact later
    | ok b c₂ =>
      rw [run'] at later
      obtain ⟨on₂, es', log₂, whole⟩ := later
      refine ⟨on₂, es ++ es', by rw [log₂, log₁]; simp, fun none => ?_⟩
      rw [List.append_eq_nil_iff] at none
      exact whole none.2 (given none.1)

theorem Completes.mono {Q' : α → Prop} (h : Completes ts p Q) (imp : ∀ a, Q a → Q' a) :
    Completes ts p Q' := by
  intro c on
  have ending := h c on
  cases run : p c with
  | error e c₁ =>
    rw [run] at ending
    exact ending
  | ok a c₁ =>
    rw [run] at ending
    obtain ⟨on₁, es, log₁, given⟩ := ending
    exact ⟨on₁, es, log₁, fun none => imp a (given none)⟩

theorem Completes.then {f : α → Parse β} (first : Completes ts p Q)
    (rest : ∀ a, Completes ts (f a) R) : Completes ts (p >>= f) R :=
  first.bind fun a => (rest a).mono fun _ whole _ => whole

theorem endingLook {f : Token → EStateM.Result Stop Cursor α} (on : c.On ts)
    (h : ∀ t, t ∈ ts → Ending ts Q c (f t)) : Ending ts Q c (c.look f) := by
  obtain ⟨t, mem, here⟩ := on.here
  unfold Cursor.look
  rw [here]
  exact h t mem

theorem completesIsAtEnd : Completes ts isAtEnd fun _ => True := fun _ on => endingStay on rfl trivial

theorem completesCurrent : Completes ts current (Held (· ∈ ts)) := by
  intro c on
  obtain ⟨t, mem, here⟩ := on.here
  rw [currentRun, here]
  exact endingStay on rfl ⟨t, rfl, mem⟩

theorem completesAdvance : Completes ts advance fun _ => True := by
  intro c on
  rw [advanceRun]
  exact endingStay on.next c.nextLog trivial

theorem completesTake : Completes ts take (Held (· ∈ ts)) := by
  intro c on
  obtain ⟨t, mem, here⟩ := on.here
  rw [takeRun, here]
  exact endingStay on.next c.nextLog ⟨t, rfl, mem⟩

theorem completesKind : Completes ts kind fun _ => True := by
  intro c on
  rw [kindRun]
  exact endingLook on fun _ _ => endingStay on rfl trivial

theorem completesCheck (k : Kind) : Completes ts (check k) fun _ => True := by
  intro c on
  rw [checkRun]
  exact endingLook on fun _ _ => endingStay on rfl trivial

theorem completesCheckAny (ks : List Kind) : Completes ts (checkAny ks) fun _ => True := by
  intro c on
  rw [checkAnyRun]
  exact endingLook on fun _ _ => endingStay on rfl trivial

theorem completesSkip (k : Kind) : Completes ts (skip k) fun _ => True := by
  intro c on
  rw [skipRun]
  refine endingLook on fun t _ => ?_
  split
  · exact endingStay on.next c.nextLog trivial
  · exact endingStay on rfl trivial

theorem completesExpect (k : Kind) (message : String) :
    Completes ts (expect k message) (Held (· ∈ ts)) := by
  intro c on
  rw [expectRun]
  refine endingLook on fun t mem => ?_
  split
  · exact endingStay on.next c.nextLog ⟨t, rfl, mem⟩
  · rcases reportRun ⟨t, message⟩ c with run | run
    · rw [run]
      intro f same
      cases same
    · rw [run]
      exact ⟨⟨on.tokens, on.low, on.high⟩, [⟨t, message⟩], rfl, nofun⟩

theorem completesWhile {cond : Parse Bool} (test : Completes ts cond fun _ => True)
    (one : Completes ts p Q) (n : Nat) : Completes ts (whileM n cond p) fun xs => ∀ x ∈ xs, Q x := by
  induction n with
  | zero => exact completesOutOfFuel
  | succ n ih =>
    refine test.then fun more => ?_
    split
    · refine one.bind fun x => ih.bind fun xs => completesPure fun all here => ?_
      exact List.forall_mem_cons.mpr ⟨here, all⟩
    · exact completesPure (by simp)

theorem completesChain {ops : List Kind} {operand : Parse Expr}
    {build : Expr → Option Token → Expr → Expr} (one : Completes ts operand (Expr.Whole (· ∈ ts)))
    (whole : ∀ {l op r}, l.Whole (· ∈ ts) → Held (· ∈ ts) op → r.Whole (· ∈ ts) →
      (build l op r).Whole (· ∈ ts)) (n : Nat) (left : Expr) :
    Completes ts (chain ops operand build n left)
      fun e => left.Whole (· ∈ ts) → e.Whole (· ∈ ts) := by
  induction n generalizing left with
  | zero => exact completesOutOfFuel
  | succ n ih =>
    refine (completesCheckAny ops).then fun more => ?_
    split
    · refine completesTake.bind fun op => one.bind fun right => (ih _).mono ?_
      exact fun e grown whole' held whole₀ => grown (whole whole₀ held whole')
    · exact completesPure id

structure CompleteExprs (ts : Array Token) (n : Nat) : Prop where
  assignment : Completes ts (assignment n) (Expr.Whole (· ∈ ts))
  disjunction : Completes ts (disjunction n) (Expr.Whole (· ∈ ts))
  conjunction : Completes ts (conjunction n) (Expr.Whole (· ∈ ts))
  equality : Completes ts (equality n) (Expr.Whole (· ∈ ts))
  comparison : Completes ts (comparison n) (Expr.Whole (· ∈ ts))
  term : Completes ts (term n) (Expr.Whole (· ∈ ts))
  factor : Completes ts (factor n) (Expr.Whole (· ∈ ts))
  unary : Completes ts (unary n) (Expr.Whole (· ∈ ts))
  call : Completes ts (call n) (Expr.Whole (· ∈ ts))
  callTail : ∀ callee, Completes ts (callTail n callee)
    fun e => callee.Whole (· ∈ ts) → e.Whole (· ∈ ts)
  arguments : Completes ts (arguments n) (Expr.AllWhole (· ∈ ts))
  primary : Completes ts (primary n) (Expr.Whole (· ∈ ts))

section

variable {n : Nat} (ih : CompleteExprs ts n)

include ih

theorem completesAssignment : Completes ts (assignment (n + 1)) (Expr.Whole (· ∈ ts)) := by
  refine ih.disjunction.bind fun target => (completesSkip _).then fun more => ?_
  split
  · refine ih.assignment.bind fun value => completesPure fun given whole => ?_
    cases target with
    | reference => exact ⟨whole, given⟩
    | get => exact ⟨whole.1, whole.2, given⟩
    | _ => exact whole
  · exact completesPure id

theorem completesUnary : Completes ts (unary (n + 1)) (Expr.Whole (· ∈ ts)) := by
  refine (completesCheckAny _).then fun prefixed => ?_
  split
  · refine completesTake.bind fun op => ih.unary.bind fun right => ?_
    exact completesPure fun whole held => ⟨held, whole⟩
  · exact ih.call

theorem completesCallTail (callee : Expr) : Completes ts (callTail (n + 1) callee)
    fun e => callee.Whole (· ∈ ts) → e.Whole (· ∈ ts) := by
  refine (completesSkip _).then fun paren => ?_
  split
  · refine ih.arguments.bind fun args => (completesExpect _ _).bind fun paren => ?_
    refine (ih.callTail _).mono fun e grown held all whole => grown ⟨whole, held, all⟩
  · refine (completesSkip _).then fun dot => ?_
    split
    · refine (completesExpect _ _).bind fun name => ?_
      exact (ih.callTail _).mono fun e grown held whole => grown ⟨whole, held⟩
    · exact completesPure id

theorem completesArguments : Completes ts (arguments (n + 1)) (Expr.AllWhole (· ∈ ts)) := by
  refine (completesCheck _).then fun none => ?_
  split
  · exact completesPure trivial
  · refine ih.assignment.bind fun first => ?_
    refine (completesWhile (completesSkip _) ih.assignment n).bind fun rest => ?_
    exact completesPure fun all whole => ⟨whole, allWholeExprs all⟩

theorem completesPrimary : Completes ts (primary (n + 1)) (Expr.Whole (· ∈ ts)) := by
  have literal : ∀ d, Completes ts (do advance; return .literal d) (Expr.Whole (· ∈ ts)) :=
    fun d => completesAdvance.then fun _ => completesPure trivial
  refine completesKind.then fun k => ?_
  split
  · refine completesTake.then fun t => ?_
    cases t <;> exact completesPure trivial
  · refine completesTake.then fun t => ?_
    cases t <;> exact completesPure trivial
  · exact literal _
  · exact literal _
  · exact literal _
  · exact completesTake.bind fun keyword => completesPure id
  · exact completesTake.bind fun name => completesPure id
  · refine completesAdvance.then fun _ => ih.assignment.bind fun inner => ?_
    exact (completesExpect _ _).then fun _ => completesPure id
  · refine completesTake.bind fun keyword => (completesExpect _ _).then fun _ => ?_
    exact (completesExpect _ _).bind fun method => completesPure fun held word => ⟨word, held⟩
  · exact completesPure trivial

end

theorem completeExprs (n : Nat) : CompleteExprs ts n := by
  induction n with
  | zero => constructor <;> intros <;> exact completesOutOfFuel
  | succ n ih =>
    exact {
      assignment := completesAssignment ih
      disjunction := ih.conjunction.bind (completesChain ih.term wholeLogical n)
      conjunction := ih.equality.bind (completesChain ih.term wholeLogical n)
      equality := ih.comparison.bind (completesChain ih.equality wholeBinary n)
      comparison := ih.term.bind (completesChain ih.term wholeBinary n)
      term := ih.factor.bind (completesChain ih.factor wholeBinary n)
      factor := ih.unary.bind (completesChain ih.unary wholeBinary n)
      unary := completesUnary ih
      call := ih.primary.bind ih.callTail
      callTail := completesCallTail ih
      arguments := completesArguments ih
      primary := completesPrimary ih }

theorem completesExpression (n : Nat) : Completes ts (expression n) (Expr.Whole (· ∈ ts)) :=
  (completeExprs n).assignment

theorem completesParameters (n : Nat) :
    Completes ts (parameters n) fun ps => ∀ p ∈ ps, Held (· ∈ ts) p := by
  refine (completesExpect _ _).bind fun first => ?_
  refine (completesWhile (completesSkip _) (completesExpect _ _) n).bind fun rest => ?_
  exact completesPure fun all held => List.forall_mem_cons.mpr ⟨held, all⟩

theorem completesHeader (n : Nat) (what : String) :
    Completes ts (header n what) fun h => Held (· ∈ ts) h.1 ∧ ∀ p ∈ h.2, Held (· ∈ ts) p := by
  have rest : ∀ (name : Option Token) (params : List (Option Token)), Completes ts (do
      let _ ← expect .rightParen "Expect an ')' after the parameters"
      let _ ← expect .leftBrace ("Expect an '\x7b' before  " ++ what ++ " ")
      return (name, params))
      fun h => (∀ p ∈ params, Held (· ∈ ts) p) → Held (· ∈ ts) name →
        Held (· ∈ ts) h.1 ∧ ∀ p ∈ h.2, Held (· ∈ ts) p := by
    intro name params
    refine (completesExpect _ _).then fun _ => (completesExpect _ _).then fun _ => ?_
    exact completesPure fun given held => ⟨held, given⟩
  refine (completesExpect _ _).bind fun name => (completesExpect _ _).then fun _ => ?_
  refine (completesCheck _).then fun none => ?_
  split
  · exact Completes.bind (completesPure (by simp)) (rest name)
  · exact (completesParameters n).bind (rest name)

theorem completesVar (n : Nat) : Completes ts (varDeclaration n) (Stmt.Whole (· ∈ ts)) := by
  have close : ∀ (name : Option Token) (init : Expr), Completes ts (do
      let _ ← expect .semicolon "Expect ';' after variable declaration."
      return Stmt.var name init)
      fun s => init.Whole (· ∈ ts) → Held (· ∈ ts) name → s.Whole (· ∈ ts) := by
    intro name init
    exact (completesExpect _ _).then fun _ => completesPure fun whole held => ⟨held, whole⟩
  refine (completesExpect _ _).bind fun name => (completesSkip _).then fun given => ?_
  split
  · exact (completesExpression n).bind (close name)
  · exact Completes.bind (completesPure trivial) (close name)

theorem completesExpressionStatement (n : Nat) :
    Completes ts (expressionStatement n) (Stmt.Whole (· ∈ ts)) := by
  refine (completesExpression n).bind fun e c on => ?_
  show Ending ts _ c ((if c.allowLone && (c.index + 1 == c.tokens.size) then _ else _ : Parse Stmt) c)
  split
  · exact endingStay ⟨on.tokens, on.low, on.high⟩ rfl id
  · exact ((completesExpect _ _).then fun _ => completesPure id) c on

theorem completesPrint (n : Nat) : Completes ts (printStatement n) (Stmt.Whole (· ∈ ts)) :=
  (completesExpression n).bind fun _ => (completesExpect _ _).then fun _ => completesPure id

theorem completesReturn (n : Nat) : Completes ts (returnStatement n) (Stmt.Whole (· ∈ ts)) := by
  have close : ∀ (keyword : Option Token) (value : Expr), Completes ts (do
      let _ ← expect .semicolon "Excpect ';' after return statement"
      return Stmt.return_ keyword value)
      fun s => value.Whole (· ∈ ts) → Held (· ∈ ts) keyword → s.Whole (· ∈ ts) := by
    intro keyword value
    exact (completesExpect _ _).then fun _ => completesPure fun whole held => ⟨held, whole⟩
  refine completesCurrent.bind fun keyword => (completesCheck _).then fun none => ?_
  split
  · exact Completes.bind (completesPure trivial) (close keyword)
  · exact (completesExpression n).bind (close keyword)

theorem completesClause (n : Nat) (k : Kind) :
    Completes ts (clause n k) (Expr.Whole (· ∈ ts)) := by
  refine (completesCheck k).then fun none => ?_
  split
  · exact completesPure trivial
  · exact completesExpression n

theorem completesInitializer (n : Nat) :
    Completes ts (initializer n) fun init => ∀ s, init = some s → s.Whole (· ∈ ts) := by
  have given : ∀ s : Stmt, s.Whole (· ∈ ts) → ∀ u, some s = some u → u.Whole (· ∈ ts) :=
    fun s whole u same => Option.some.inj same ▸ whole
  refine (completesSkip _).then fun bare => ?_
  split
  · exact completesPure (by simp)
  · refine (completesSkip _).then fun isVar => ?_
    split
    · exact (completesVar n).bind fun s => completesPure (given s)
    · exact (completesExpressionStatement n).bind fun s => completesPure (given s)

theorem wholeFor {init : Option Stmt} {cond step : Expr} {body : Stmt}
    (hi : ∀ s, init = some s → s.Whole T) (hc : cond.Whole T) (hs : step.Whole T)
    (hb : body.Whole T) : (desugarFor init cond step body).Whole T := by
  have inner : (if step.isMissing then body else .block [body, .expression step]).Whole T := by
    split
    · exact hb
    · exact ⟨hb, hs, trivial⟩
  have test : (if cond.isMissing then .literal (.bool true) else cond).Whole T := by
    split
    · trivial
    · exact hc
  unfold desugarFor
  cases init with
  | none => exact ⟨test, inner⟩
  | some s => exact ⟨hi s rfl, ⟨test, inner⟩, trivial⟩

theorem completesRecovering (n : Nat) {p : Parse Stmt} {Q : Stmt → Prop} (h : Completes ts p Q) :
    Completes ts (recovering n p) Q := by
  intro c on
  have ending := h c on
  unfold recovering
  rw [tryCatchRun]
  cases run : p c with
  | ok s c' =>
    rw [run] at ending
    exact ending
  | error e c' =>
    rw [run] at ending
    cases e with
    | fault f => exact absurd rfl (ending f)
    | errorLimit => exact ending
    | outOfFuel => exact ending

structure CompleteStmts (ts : Array Token) (n : Nat) : Prop where
  declaration : Completes ts (declaration n) (Stmt.Whole (· ∈ ts))
  classDeclaration : Completes ts (classDeclaration n) (Stmt.Whole (· ∈ ts))
  function : ∀ what, Completes ts (function n what) (FunDecl.Whole (· ∈ ts))
  statement : Completes ts (statement n) (Stmt.Whole (· ∈ ts))
  forStatement : Completes ts (forStatement n) (Stmt.Whole (· ∈ ts))
  ifStatement : Completes ts (ifStatement n) (Stmt.Whole (· ∈ ts))
  whileStatement : Completes ts (whileStatement n) (Stmt.Whole (· ∈ ts))
  block : Completes ts (block n) (Stmt.AllWhole (· ∈ ts))

section

variable {n : Nat} (ih : CompleteStmts ts n)

include ih

theorem completesDeclaration : Completes ts (declaration (n + 1)) (Stmt.Whole (· ∈ ts)) := by
  refine completesRecovering n ?_
  refine (completesSkip _).then fun isClass => ?_
  split
  · exact ih.classDeclaration
  refine (completesSkip _).then fun isFunction => ?_
  split
  · exact (ih.function _).bind fun f => completesPure id
  refine (completesSkip _).then fun isVar => ?_
  split
  · exact completesVar n
  · exact ih.statement

theorem completesClass : Completes ts (classDeclaration (n + 1)) (Stmt.Whole (· ∈ ts)) := by
  have inside : Completes ts inClass fun _ => True := by
    refine completesIsAtEnd.then fun done => ?_
    split
    · exact completesPure trivial
    · exact (completesCheck _).then fun _ => completesPure trivial
  have body : ∀ (name : Option Token) (base : Expr), Completes ts (do
      let _ ← expect .leftBrace "Expect '\x7b' for a class"
      let methods ← whileM n inClass (function n "method")
      let _ ← expect .rightBrace "Expect '\x7d' at the end of a class"
      return Stmt.class_ name methods base)
      fun s => base.Whole (· ∈ ts) → Held (· ∈ ts) name → s.Whole (· ∈ ts) := by
    intro name base
    refine (completesExpect _ _).then fun _ => ?_
    refine (completesWhile inside (ih.function _) n).bind fun methods => ?_
    refine (completesExpect _ _).then fun _ => completesPure fun all whole held => ?_
    exact ⟨held, allWholeFunDecls all, whole⟩
  refine (completesExpect _ _).bind fun name => (completesSkip _).then fun derived => ?_
  split
  · refine (completesExpect _ _).bind fun base => ?_
    exact body name (.reference 0 base)
  · exact Completes.bind (completesPure trivial) (body name)

theorem completesFunction (what : String) :
    Completes ts (function (n + 1) what) (FunDecl.Whole (· ∈ ts)) := by
  refine (completesHeader n what).bind fun (name, params) => ?_
  exact ih.block.bind fun body => completesPure fun all ⟨held, given⟩ => ⟨held, given, all⟩

theorem completesStatement : Completes ts (statement (n + 1)) (Stmt.Whole (· ∈ ts)) := by
  refine (completesSkip _).then fun isFor => ?_
  split
  · exact ih.forStatement
  refine (completesSkip _).then fun isIf => ?_
  split
  · exact ih.ifStatement
  refine (completesSkip _).then fun isPrint => ?_
  split
  · exact completesPrint n
  refine (completesSkip _).then fun isReturn => ?_
  split
  · exact completesReturn n
  refine (completesSkip _).then fun isWhile => ?_
  split
  · exact ih.whileStatement
  refine (completesSkip _).then fun isBlock => ?_
  split
  · exact ih.block.bind fun body => completesPure id
  · exact completesExpressionStatement n

theorem completesFor : Completes ts (forStatement (n + 1)) (Stmt.Whole (· ∈ ts)) := by
  refine (completesExpect _ _).then fun _ => (completesInitializer n).bind fun init => ?_
  refine (completesClause n _).bind fun cond => (completesExpect _ _).then fun _ => ?_
  refine (completesClause n _).bind fun step => (completesExpect _ _).then fun _ => ?_
  refine ih.statement.bind fun body => completesPure ?_
  exact fun hb hs hc hi => wholeFor hi hc hs hb

theorem completesIf : Completes ts (ifStatement (n + 1)) (Stmt.Whole (· ∈ ts)) := by
  have close : ∀ (cond : Expr) (yes no : Stmt), Completes ts (pure (Stmt.if_ cond yes no))
      fun s => (no = .missing ∨ no.Whole (· ∈ ts)) → yes.Whole (· ∈ ts) → cond.Whole (· ∈ ts) →
        s.Whole (· ∈ ts) :=
    fun cond yes no => completesPure fun hn hy hc => ⟨hc, hy, hn⟩
  refine (completesExpect _ _).then fun _ => (completesExpression n).bind fun cond => ?_
  refine (completesExpect _ _).then fun _ => ih.statement.bind fun yes => ?_
  refine (completesSkip _).then fun more => ?_
  split
  · exact (ih.statement.mono fun _ => .inr).bind (close cond yes)
  · exact Completes.bind (completesPure (.inl rfl)) (close cond yes)

theorem completesWhileStatement :
    Completes ts (whileStatement (n + 1)) (Stmt.Whole (· ∈ ts)) := by
  refine (completesExpect _ _).then fun _ => (completesExpression n).bind fun cond => ?_
  refine (completesExpect _ _).then fun _ => ih.statement.bind fun body => ?_
  exact completesPure fun hb hc => ⟨hc, hb⟩

theorem completesBlock : Completes ts (block (n + 1)) (Stmt.AllWhole (· ∈ ts)) := by
  have inside : Completes ts inBlock fun _ => True :=
    (completesCheck _).then fun _ => completesIsAtEnd.then fun _ => completesPure trivial
  refine (completesWhile inside ih.declaration n).bind fun body => ?_
  exact (completesExpect _ _).then fun _ => completesPure allWholeStmts

end

theorem completeStmts (n : Nat) : CompleteStmts ts n := by
  induction n with
  | zero => constructor <;> intros <;> exact completesOutOfFuel
  | succ n ih =>
    exact {
      declaration := completesDeclaration ih
      classDeclaration := completesClass ih
      function := completesFunction ih
      statement := completesStatement ih
      forStatement := completesFor ih
      ifStatement := completesIf ih
      whileStatement := completesWhileStatement ih
      block := completesBlock ih }

theorem completesProgram (n : Nat) : Completes ts (program n) (Stmt.AllWhole (· ∈ ts)) := by
  have more : Completes ts unfinished fun _ => True :=
    completesIsAtEnd.then fun _ => completesPure trivial
  exact (completesWhile more (completeStmts n).declaration n).mono fun _ => allWholeStmts

end Parse
end Lox
