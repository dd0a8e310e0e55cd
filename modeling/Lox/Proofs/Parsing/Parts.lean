import Lox.Proofs.Parsing.Accounts

/-!
What parsers are made of. Every rule is put together from a few steps, none of which asks for the
tokens behind the cursor or for what was told before. So a rule does the same wherever its tokens
stand.
-/

namespace Lox

def Cursor.after (d c : Cursor) : Cursor where
  tokens := d.tokens ++ c.tokens
  index := d.tokens.size + c.index
  limit := d.errors + c.limit
  log := d.log ++ c.log
  console := d.console ++ c.console
  allowLone := c.allowLone
  foundLone := d.foundLone || c.foundLone

namespace Cursor

theorem hereAt {c : Cursor} {i : Nat} (index : c.index = i) : c.here = c.tokens[i]? := by
  unfold here cell?
  rw [index]
  by_cases inside : i < c.tokens.size
  · simp [inside]
  · have positive : ¬(i : Int) < 0 := by omega
    simp [inside, positive]

section

variable (d c : Cursor)

theorem afterHere {c : Cursor} (low : 0 ≤ c.index) : (d.after c).here = c.here := by
  obtain ⟨i, index⟩ := Int.eq_ofNat_of_zero_le low
  have moved : (d.after c).index = (d.tokens.size + i : Nat) := by
    show (d.tokens.size : Int) + c.index = _
    rw [index, Int.natCast_add]
  rw [hereAt moved, hereAt index]
  show (d.tokens ++ c.tokens)[d.tokens.size + i]? = _
  rw [Array.getElem?_append_right (Nat.le_add_right _ _), Nat.add_sub_cancel_left]

theorem afterEnd : ((d.after c).index + 1 == ((d.after c).tokens.size : Int)) =
    (c.index + 1 == (c.tokens.size : Int)) := by
  show ((d.tokens.size : Int) + c.index + 1 == ((d.tokens ++ c.tokens).size : Int)) = _
  rw [Array.size_append, Bool.eq_iff_iff, beq_iff_eq, beq_iff_eq]
  omega

theorem afterNext : (d.after c).next = d.after c.next := by
  unfold next
  rw [afterEnd]
  split
  · rfl
  · simp [after, Int.add_assoc]

theorem afterErrors : (d.after c).errors = d.errors + c.errors := by
  simp [errors, after, Log.parse]

theorem afterReported (e : ParseError) : (d.after c).reported e = d.after (c.reported e) := by
  simp [reported, after]

end

end Cursor

namespace Parse

inductive Built : {α : Type} → Parse α → Prop where
  | pure {α : Type} (a : α) : Built (pure a)
  | throw {α : Type} (e : Stop) : Built (throw e : Parse α)
  | bind {α β : Type} {p : Parse α} {f : α → Parse β} (first : Built p) (rest : ∀ a, Built (f a)) :
      Built (p >>= f)
  | isAtEnd : Built isAtEnd
  | current : Built current
  | advance : Built advance
  | report (e : ParseError) : Built (report e)
  | write (text : String) :
      Built (modify fun c => { c with console := c.console.push text })
  | unlessLone {α : Type} (a : α) {p : Parse α} (other : Built p) : Built (unlessLone a p)
  | recover {α : Type} {p : Parse α} {handle : Stop → Parse α} (inner : Built p)
      (caught : ∀ e, Built (handle e)) : Built (tryCatch p handle)

variable {α β : Type} {p : Parse α} {f : α → Parse β}

theorem builtEither {q : Parse α} {b : Bool} (yes : Built p) (no : Built q) :
    Built (if b then p else q) := by
  cases b with
  | true => exact yes
  | false => exact no

theorem builtKind : Built kind := by
  refine .bind .current fun t => ?_
  cases t with
  | none => exact .throw _
  | some t => exact .pure _

theorem builtCheck (k : Kind) : Built (check k) := .bind builtKind fun _ => .pure _

theorem builtCheckAny (ks : List Kind) : Built (checkAny ks) := .bind builtKind fun _ => .pure _

theorem builtTake : Built take := .bind .current fun _ => .bind .advance fun _ => .pure _

theorem builtExpect (k : Kind) (message : String) : Built (expect k message) := by
  refine .bind (builtCheck k) fun _ => builtEither builtTake (.bind .current fun t => ?_)
  cases t with
  | none => exact .throw _
  | some t => exact .bind (.report _) fun _ => .pure _

theorem builtSkip (k : Kind) : Built (skip k) :=
  .bind (builtCheck k) fun _ => builtEither (.bind .advance fun _ => .pure _) (.pure _)

theorem builtWhile {test : Parse Bool} (asked : Built test) (one : Built p) (n : Nat) :
    Built (whileM n test p) := by
  induction n with
  | zero => exact .throw _
  | succ n ih =>
    exact .bind asked fun _ => builtEither (.bind one fun _ => .bind ih fun _ => .pure _) (.pure _)

theorem builtIf {k : Kind} {q : Parse α} (yes : Built p) (no : Built q) :
    Built (do if ← skip k then p else q) :=
  .bind (builtSkip k) fun _ => builtEither yes no

theorem builtEnd (k : Kind) (message : String) (a : α) :
    Built (do let _ ← expect k message; return a) :=
  .bind (builtExpect k message) fun _ => .pure a

theorem builtChain {operand : Parse Expr} (h : Built operand) (ops : List Kind)
    (build : Expr → Option Token → Expr → Expr) (n : Nat) (left : Expr) :
    Built (chain ops operand build n left) := by
  induction n generalizing left with
  | zero => exact .throw _
  | succ n ih =>
    refine .bind (builtCheckAny ops) fun _ => builtEither ?_ (.pure _)
    exact .bind builtTake fun _ => .bind h fun _ => ih _

structure ExprsBuilt (n : Nat) : Prop where
  assignment : Built (assignment n)
  disjunction : Built (disjunction n)
  conjunction : Built (conjunction n)
  equality : Built (equality n)
  comparison : Built (comparison n)
  term : Built (term n)
  factor : Built (factor n)
  unary : Built (unary n)
  call : Built (call n)
  callTail : ∀ callee, Built (callTail n callee)
  arguments : Built (arguments n)
  primary : Built (primary n)

section

variable {n : Nat} (ih : ExprsBuilt n)

include ih

theorem builtAssignment : Built (assignment (n + 1)) := by
  refine .bind ih.disjunction fun target => builtIf ?_ (.pure _)
  exact .bind ih.assignment fun value => .pure _

theorem builtUnary : Built (unary (n + 1)) := by
  refine .bind (builtCheckAny _) fun _ => builtEither ?_ ih.call
  exact .bind builtTake fun _ => .bind ih.unary fun _ => .pure _

theorem builtCallTail (callee : Expr) : Built (callTail (n + 1) callee) := by
  unfold callTail
  refine builtIf ?_ (builtIf ?_ (.pure _))
  · exact .bind ih.arguments fun _ => .bind (builtExpect _ _) fun _ => ih.callTail _
  · exact .bind (builtExpect _ _) fun _ => ih.callTail _

theorem builtArguments : Built (arguments (n + 1)) := by
  refine .bind (builtCheck _) fun _ => builtEither (.pure _) (.bind ih.assignment fun first => ?_)
  exact .bind (builtWhile (builtSkip _) ih.assignment n) fun _ => .pure _

theorem builtPrimary : Built (primary (n + 1)) := by
  have word : ∀ d : Datum, Built (do advance; return Expr.literal d) :=
    fun _ => .bind .advance fun _ => .pure _
  refine .bind builtKind fun k => ?_
  split
  · refine .bind builtTake fun t => ?_
    cases t <;> exact .pure _
  · refine .bind builtTake fun t => ?_
    cases t <;> exact .pure _
  · exact word _
  · exact word _
  · exact word _
  · exact .bind builtTake fun _ => .pure _
  · exact .bind builtTake fun _ => .pure _
  · exact .bind .advance fun _ => .bind ih.assignment fun _ => builtEnd _ _ _
  · exact .bind builtTake fun _ => .bind (builtExpect _ _) fun _ => .bind (builtExpect _ _) fun _ =>
      .pure _
  · exact .pure _

end

theorem exprsBuilt (n : Nat) : ExprsBuilt n := by
  induction n with
  | zero =>
    constructor
    case callTail => exact fun _ => .throw _
    all_goals exact .throw _
  | succ n ih =>
    constructor
    case assignment => exact builtAssignment ih
    case disjunction => exact .bind ih.conjunction fun _ => builtChain ih.term _ _ _ _
    case conjunction => exact .bind ih.equality fun _ => builtChain ih.term _ _ _ _
    case equality => exact .bind ih.comparison fun _ => builtChain ih.equality _ _ _ _
    case comparison => exact .bind ih.term fun _ => builtChain ih.term _ _ _ _
    case term => exact .bind ih.factor fun _ => builtChain ih.factor _ _ _ _
    case factor => exact .bind ih.unary fun _ => builtChain ih.unary _ _ _ _
    case unary => exact builtUnary ih
    case call => exact .bind ih.primary ih.callTail
    case callTail => exact builtCallTail ih
    case arguments => exact builtArguments ih
    case primary => exact builtPrimary ih

theorem builtExpression (n : Nat) : Built (expression n) := (exprsBuilt n).assignment

theorem builtParameters (n : Nat) : Built (parameters n) :=
  .bind (builtExpect _ _) fun _ => .bind (builtWhile (builtSkip _) (builtExpect _ _) n) fun _ =>
    .pure _

theorem builtVarDeclaration (n : Nat) : Built (varDeclaration n) := by
  refine .bind (builtExpect _ _) fun name => builtIf ?_ ?_
  · exact .bind (builtExpression n) fun _ => builtEnd _ _ _
  · exact .bind (.pure _) fun _ => builtEnd _ _ _

theorem builtHeader (n : Nat) (what : String) : Built (header n what) := by
  have close : ∀ (name : Option Token) (params : List (Option Token)), Built (do
      let _ ← expect .rightParen "Expect an ')' after the parameters"
      let _ ← expect .leftBrace ("Expect an '\x7b' before  " ++ what ++ " ")
      return (name, params)) := fun _ _ => .bind (builtExpect _ _) fun _ => builtEnd _ _ _
  refine .bind (builtExpect _ _) fun name => .bind (builtExpect _ _) fun _ => ?_
  refine .bind (builtCheck _) fun _ => builtEither ?_ ?_
  · exact .bind (.pure _) (close name)
  · exact .bind (builtParameters n) (close name)

theorem builtExpressionStatement (n : Nat) : Built (expressionStatement n) :=
  .bind (builtExpression n) fun _ => .unlessLone _ (builtEnd _ _ _)

theorem builtPrintStatement (n : Nat) : Built (printStatement n) :=
  .bind (builtExpression n) fun _ => builtEnd _ _ _

theorem builtReturnStatement (n : Nat) : Built (returnStatement n) := by
  refine .bind .current fun keyword => .bind (builtCheck _) fun _ => builtEither ?_ ?_
  · exact .bind (.pure _) fun _ => builtEnd _ _ _
  · exact .bind (builtExpression n) fun _ => builtEnd _ _ _

theorem builtClause (n : Nat) (k : Kind) : Built (clause n k) :=
  .bind (builtCheck k) fun _ => builtEither (.pure _) (builtExpression n)

theorem builtInitializer (n : Nat) : Built (initializer n) := by
  refine builtIf (.pure _) (builtIf ?_ ?_)
  · exact .bind (builtVarDeclaration n) fun _ => .pure _
  · exact .bind (builtExpressionStatement n) fun _ => .pure _

theorem builtPassOver (n : Nat) : Built (passOver n) := by
  induction n with
  | zero => exact .throw _
  | succ n ih =>
    refine .bind .isAtEnd fun _ => builtEither (.pure _) ?_
    exact .bind (builtCheckAny _) fun _ => builtEither (.pure _) (.bind .advance fun _ => ih)

theorem builtRecovering (n : Nat) {p : Parse Stmt} (h : Built p) : Built (recovering n p) := by
  refine .recover h fun stop => ?_
  cases stop with
  | fault f =>
    refine .bind (.write _) fun _ => .bind ?_ fun _ => .pure _
    exact .bind .advance fun _ => builtPassOver n
  | _ => exact .throw _

structure StmtsBuilt (n : Nat) : Prop where
  declaration : Built (declaration n)
  classDeclaration : Built (classDeclaration n)
  function : ∀ what, Built (function n what)
  statement : Built (statement n)
  forStatement : Built (forStatement n)
  ifStatement : Built (ifStatement n)
  whileStatement : Built (whileStatement n)
  block : Built (block n)

section

variable {n : Nat} (ih : StmtsBuilt n)

include ih

theorem builtDeclared : Built (declared n) := by
  refine builtIf ih.classDeclaration (builtIf ?_ (builtIf (builtVarDeclaration n) ih.statement))
  exact .bind (ih.function _) fun _ => .pure _

theorem builtStatement : Built (statement (n + 1)) := by
  refine builtIf ih.forStatement (builtIf ih.ifStatement (builtIf (builtPrintStatement n) ?_))
  refine builtIf (builtReturnStatement n) (builtIf ih.whileStatement (builtIf ?_ ?_))
  · exact .bind ih.block fun _ => .pure _
  · exact builtExpressionStatement n

theorem builtForStatement : Built (forStatement (n + 1)) := by
  refine .bind (builtExpect _ _) fun _ => .bind (builtInitializer n) fun init => ?_
  refine .bind (builtClause n _) fun cond => .bind (builtExpect _ _) fun _ => ?_
  refine .bind (builtClause n _) fun step => .bind (builtExpect _ _) fun _ => ?_
  exact .bind ih.statement fun body => .pure _

theorem builtIfStatement : Built (ifStatement (n + 1)) := by
  refine .bind (builtExpect _ _) fun _ => .bind (builtExpression n) fun cond => ?_
  refine .bind (builtExpect _ _) fun _ => .bind ih.statement fun yes => builtIf ?_ ?_
  · exact .bind ih.statement fun _ => .pure _
  · exact .bind (.pure _) fun _ => .pure _

theorem builtWhileStatement : Built (whileStatement (n + 1)) := by
  refine .bind (builtExpect _ _) fun _ => .bind (builtExpression n) fun cond => ?_
  exact .bind (builtExpect _ _) fun _ => .bind ih.statement fun _ => .pure _

theorem builtBlock : Built (block (n + 1)) := by
  have inside : Built inBlock :=
    .bind (builtCheck _) fun _ => .bind .isAtEnd fun _ => .pure _
  exact .bind (builtWhile inside ih.declaration n) fun _ => builtEnd _ _ _

theorem builtFunction (what : String) : Built (function (n + 1) what) :=
  .bind (builtHeader n what) fun _ => .bind ih.block fun _ => .pure _

theorem builtClassDeclaration : Built (classDeclaration (n + 1)) := by
  have inside : Built inClass :=
    .bind .isAtEnd fun _ => builtEither (.pure _) (.bind (builtCheck _) fun _ => .pure _)
  have body : ∀ (name : Option Token) (superclass : Expr), Built (do
      let _ ← expect .leftBrace "Expect '\x7b' for a class"
      let methods ← whileM n inClass (function n "method")
      let _ ← expect .rightBrace "Expect '\x7d' at the end of a class"
      return Stmt.class_ name methods superclass) := fun _ _ =>
    .bind (builtExpect _ _) fun _ => .bind (builtWhile inside (ih.function _) n) fun _ =>
      builtEnd _ _ _
  refine .bind (builtExpect _ _) fun name => builtIf ?_ ?_
  · exact .bind (builtExpect _ _) fun _ => .bind (.pure _) (body name)
  · exact .bind (.pure _) (body name)

end

theorem stmtsBuilt (n : Nat) : StmtsBuilt n := by
  induction n with
  | zero =>
    constructor
    case function => exact fun _ => .throw _
    all_goals exact .throw _
  | succ n ih =>
    constructor
    case declaration => exact builtRecovering n (builtDeclared ih)
    case classDeclaration => exact builtClassDeclaration ih
    case function => exact builtFunction ih
    case statement => exact builtStatement ih
    case forStatement => exact builtForStatement ih
    case ifStatement => exact builtIfStatement ih
    case whileStatement => exact builtWhileStatement ih
    case block => exact builtBlock ih

section

variable {P : Cursor → Prop}

theorem Built.keeps (h : Built p) (moves : ∀ c, P c → P c.next)
    (reports : ∀ c e, P c → P (c.reported e))
    (writes : ∀ c text, P c → P { c with console := c.console.push text })
    (notes : ∀ c : Cursor, c.allowLone = true → c.index + 1 = c.tokens.size → P c →
      P { c with foundLone := true }) : Keeps P p := by
  induction h with
  | pure a => exact keepsPure a
  | throw e => exact keepsThrow e
  | bind _ _ first rest => exact first.bind rest
  | isAtEnd => exact fun _ kept => kept
  | current =>
    intro c kept
    rw [currentRun]
    cases c.here <;> exact kept
  | advance =>
    intro c kept
    rw [advanceRun]
    exact moves c kept
  | report e =>
    intro c kept
    rw [reportLimit]
    split <;> exact reports c e kept
  | write text => exact fun c => writes c text
  | unlessLone a _ other =>
    intro c kept
    rw [unlessLoneRun]
    split
    · next lone =>
      rw [Bool.and_eq_true, beq_iff_eq] at lone
      exact notes c lone.1 lone.2 kept
    · exact other c kept
  | @recover _ p handle _ _ inner caught =>
    intro c kept
    have first := inner c kept
    rw [tryCatchRun]
    cases run : p c with
    | ok a c₁ =>
      rw [run] at first
      exact first
    | error e c₁ =>
      rw [run] at first
      exact caught e c₁ first

end

namespace Built

theorem ahead (h : Built p) : Keeps (fun c => 0 ≤ c.index) p := by
  refine h.keeps (fun c low => ?_) (fun _ _ => id) (fun _ _ => id) fun _ _ _ => id
  unfold Cursor.next
  split
  · exact low
  · show 0 ≤ c.index + 1
    omega

theorem findsNone (h : Built p) : Keeps (fun c => c.allowLone = false ∧ c.foundLone = false) p := by
  refine h.keeps (fun c none => ?_) (fun _ _ => id) (fun _ _ => id) fun c may _ none => ?_
  · unfold Cursor.next
    split <;> exact none
  · rw [none.1] at may
    cases may

theorem findsLast (h : Built p) :
    Keeps (fun c : Cursor => c.foundLone = true → c.index + 1 = c.tokens.size) p := by
  refine h.keeps (fun c last => ?_) (fun _ _ => id) (fun _ _ => id) fun _ _ ends _ _ => ends
  unfold Cursor.next
  split
  · exact last
  · next more =>
    rw [beq_iff_eq] at more
    exact fun lone => absurd (last lone) more

end Built

theorem Built.shifts (h : Built p) (d : Cursor) {c : Cursor} (low : 0 ≤ c.index) :
    p (d.after c) = onState d.after (p c) := by
  induction h generalizing c with
  | pure a => rfl
  | throw e => rfl
  | @bind _ _ p f one _ first rest =>
    have kept := one.ahead c low
    rw [bindRun, bindRun, first low]
    cases run : p c with
    | error e c₁ => rfl
    | ok a c₁ =>
      rw [run] at kept
      exact rest a kept
  | isAtEnd =>
    rw [isAtEndRun, isAtEndRun, d.afterEnd c]
    rfl
  | current =>
    rw [currentRun, currentRun, d.afterHere low]
    cases c.here <;> rfl
  | advance =>
    rw [advanceRun, advanceRun, d.afterNext c]
    rfl
  | report e =>
    have full : (d.after c).limit ≤ (d.after c).errors + 1 ↔ c.limit ≤ c.errors + 1 := by
      rw [d.afterErrors c]
      show d.errors + c.limit ≤ _ ↔ _
      omega
    rw [reportLimit, reportLimit, d.afterReported c e]
    simp only [full]
    split <;> rfl
  | write text =>
    show EStateM.Result.ok _ _ = EStateM.Result.ok _ _
    simp [Cursor.after]
  | unlessLone a _ other =>
    rw [unlessLoneRun, unlessLoneRun, d.afterEnd c, show (d.after c).allowLone = c.allowLone from rfl]
    split
    · show EStateM.Result.ok _ _ = EStateM.Result.ok _ _
      simp [Cursor.after]
    · exact other low
  | @recover _ p handle first _ inner caught =>
    have kept := first.ahead c low
    rw [tryCatchRun, tryCatchRun, inner low]
    cases run : p c with
    | ok a c₁ => rfl
    | error e c₁ =>
      rw [run] at kept
      exact caught e kept

end Parse
end Lox
