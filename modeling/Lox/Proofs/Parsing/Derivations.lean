import Lox.Proofs.Parsing.Silence

/-!
Derivations behind rules. What a rule reads without a report is derived from the grammar, slips
included, and the tree that the rule gives is the tree of the derivation.
-/

namespace Lox.Parse

def Extends (r : Nat) (first : Expr) : Expr → List Token → List Slip → Prop :=
  After (fun e => Derives (.expr r e)) first fun e => Derives (.expr r e)

structure ExprsDerive (n : Nat) : Prop where
  rule : ∀ r, 1 ≤ r → r ≤ 10 → Parses 0 0 (rule r n) fun e => Derives (.expr r e)
  callTail : ∀ callee, Parses 0 0 (callTail n callee) (Extends 9 callee)
  arguments : Parses 0 0 (arguments n) fun es => Derives (.arguments es)

theorem ExprsDerive.whole {n : Nat} (h : ExprsDerive n) :
    Parses 0 0 (assignment n) fun e => Derives (.expr 1 e) :=
  h.rule 1 (Nat.le_refl 1) (by decide)

theorem extendsSelf (r : Nat) (e : Expr) : Extends r e e [] [] := by
  intro ts slips derived
  simpa using derived

theorem parsesChain {r : Nat} (lo : 2 ≤ r) (hi : r ≤ 7) {operand : Parse Expr}
    (one : Parses 0 0 operand fun e => Derives (.expr r e)) (n : Nat) (left : Expr) :
    Parses 0 0 (chain (operators r) operand (join r) n left) (Extends r left) := by
  induction n generalizing left with
  | zero => exact parsesOutOfFuel
  | succ n ih =>
    have ends : (operators r).contains .eof = false := by
      rw [containsOperators lo hi]
      exact beq_eq_false_iff_ne.mpr (show 0 ≠ r by omega)
    refine Parses.operator ends (fun op contained => ?_) (parsesPure [] (extendsSelf r left))
    rw [containsOperators lo hi, beq_iff_eq] at contained
    refine one.then fun right => (ih (join r left (some op) right)).post ?_
    intro e vs slips₂ whole us slips₁ second ts slips first
    simpa using whole _ _ (.join lo hi first contained second)

def assignedSlips (target : Expr) : List Slip := if target.isTarget then [] else [.dropped]

theorem assignedOther {target : Expr} (other : target.isTarget = false) (value : Expr) :
    assigned target value = target := by
  cases target with
  | reference | get => cases other
  | _ => rfl

theorem assignedDerives {target value : Expr} {equal : Token} {ts us : List Token}
    {slips slips' : List Slip} (left : Derives (.expr 2 target) ts slips)
    (sign : equal.kind = .equal) (right : Derives (.expr 1 value) us slips') :
    Derives (.expr 1 (assigned target value)) (ts ++ equal :: us)
      (slips ++ (slips' ++ assignedSlips target)) := by
  cases goal : target.isTarget with
  | true =>
    rw [assignedSlips, if_pos goal]
    rcases left.target goal with
      ⟨t, rfl, kind, rfl, rfl⟩ | ⟨object, dot, t, vs, rfl, point, kind, rfl, inner⟩
    · simpa [assigned] using Derives.assign kind sign right
    · simpa [assigned] using Derives.set inner point kind sign right
  | false =>
    rw [assignedSlips, if_neg (by simp [goal]), assignedOther goal]
    exact .dropped left goal sign right

section

variable {n : Nat} (ih : ExprsDerive n)

include ih

theorem parsesAssignment : Parses 0 0 (assignment (n + 1)) fun e => Derives (.expr 1 e) := by
  refine (ih.rule 2 (by decide) (by decide)).then fun target => ?_
  refine Parses.skip (by decide) ?_ (parsesPure [] ?_)
  · refine ih.whole.then fun value => ?_
    have given : Parses 0 0 (pure (assigned target value))
        (After (fun e => Derives (.expr 1 e)) value
          (Behind .equal
            (After (fun e => Derives (.expr 2 e)) target fun e => Derives (.expr 1 e)))) := by
      refine parsesPure (assignedSlips target) ?_
      intro us slips' right equal sign ts slips left
      simpa using assignedDerives left sign right
    cases target with
    | _ => exact given
  · intro ts slips derived
    simpa using derived.tighter (Nat.le_refl 1)

theorem parsesUnary : Parses 0 0 (unary (n + 1)) fun e => Derives (.expr 8 e) := by
  refine Parses.operator (by decide) (fun op contained => ?_) ?_
  · refine (ih.rule 8 (by decide) (by decide)).then fun right => parsesPure [] ?_
    intro ts slips derived
    have sign : op.kind.isUnary = true := by simpa [Kind.isUnary] using contained
    simpa using Derives.unary sign derived
  · exact (ih.rule 9 (by decide) (by decide)).post fun _ _ _ derived => derived.tighter (by decide)

theorem parsesCallTail (callee : Expr) :
    Parses 0 0 (callTail (n + 1) callee) (Extends 9 callee) := by
  have done : Parses 0 0 (pure callee) (Extends 9 callee) := parsesPure [] (extendsSelf 9 callee)
  refine Parses.skip (by decide) ?_ (Parses.skip (by decide) ?_ done)
  · refine ih.arguments.then fun args => (Parses.expect (by decide) fun paren => ?_).within
    refine (ih.callTail _).post ?_
    rintro e vs slips₂ whole _ _ ⟨r, rfl, right, rfl, rfl⟩ us slips' given l left ts slips first
    simpa using whole _ _ (.call first left given right)
  · refine (Parses.expect (by decide) fun name => ?_).within
    refine (ih.callTail _).post ?_
    rintro e vs slips₂ whole _ _ ⟨t, rfl, kind, rfl, rfl⟩ dot point ts slips first
    simpa using whole _ _ (.get first point kind)

theorem parsesArguments : Parses 0 0 (arguments (n + 1)) fun es => Derives (.arguments es) := by
  refine Parses.idle (checkStays _) fun none => ?_
  cases none with
  | true => exact parsesPure [] .noArguments
  | false =>
    have one := ih.whole
    have more := parsesMore (R := fun es => Derives (.moreArguments es)) one .noMoreArguments
      (fun _ _ _ _ _ _ _ kind first more => .moreArguments kind first more) n
    refine one.then fun e => more.then fun es => parsesPure [] ?_
    intro us slips' others ts slips first
    simpa using Derives.arguments first others

theorem parsesPrimary : Parses 0 0 (primary (n + 1)) fun e => Derives (.expr 10 e) := by
  unfold primary
  refine Parses.kind (fun t => ?_) (parsesPure [.hole] .hole)
  split
  · next kind => exact Parses.take (parsesPure [] (.value (.inl kind)))
  · next kind => exact Parses.take (parsesPure [] (.value (.inr kind)))
  · next kind => exact Parses.advance (parsesPure [] (.isTrue kind))
  · next kind => exact Parses.advance (parsesPure [] (.isFalse kind))
  · next kind => exact Parses.advance (parsesPure [] (.nothing kind))
  · next kind => exact Parses.take (parsesPure [] (.this kind))
  · next kind => exact Parses.take (parsesPure [] (.reference kind))
  · next left =>
    refine Parses.advance (ih.whole.then fun inner => ?_)
    refine (Parses.expect (by decide) fun paren => parsesPure [] ?_).within
    rintro _ _ ⟨r, rfl, right, rfl, rfl⟩ ts slips derived
    simpa using Derives.grouping left derived right
  · next kind =>
    refine Parses.take ((Parses.expect (by decide) fun dot => ?_).within)
    refine (Parses.expect (by decide) fun method => parsesPure [] ?_).within
    rintro _ _ ⟨m, rfl, name, rfl, rfl⟩ _ _ ⟨d, rfl, point, rfl, rfl⟩
    exact .super kind point name
  · exact (parsesPure [.hole] .hole).from t

end

theorem exprsDerive (n : Nat) : ExprsDerive n := by
  induction n with
  | zero =>
    refine ⟨fun r _ _ => ?_, fun _ => parsesOutOfFuel, parsesOutOfFuel⟩
    have none : rule r 0 = throw .outOfFuel := by
      unfold rule
      split <;> rfl
    rw [none]
    exact parsesOutOfFuel
  | succ n ih =>
    refine ⟨fun r lo hi => ?_, parsesCallTail ih, parsesArguments ih⟩
    by_cases chained : 2 ≤ r ∧ r ≤ 7
    · rw [ruleChain chained.1 chained.2]
      have right : r ≤ rightRank r ∧ rightRank r ≤ 10 := by
        unfold rightRank
        split <;> omega
      have one := (ih.rule (rightRank r) (by omega) right.2).post fun _ _ _ derived =>
        derived.looser lo right.1
      have first := (ih.rule (r + 1) (by omega) (by omega)).post fun _ _ _ derived =>
        derived.tighter lo
      exact first.then fun left => parsesChain chained.1 chained.2 one n left
    · match r with
      | 1 => exact parsesAssignment ih
      | 8 => exact parsesUnary ih
      | 9 =>
        have first := (ih.rule 10 (by decide) (by decide)).post fun _ _ _ derived =>
          derived.tighter (by decide)
        exact first.then ih.callTail
      | 10 => exact parsesPrimary ih

theorem parsesExpression (n : Nat) : Parses 0 0 (expression n) fun e => Derives (.expr 1 e) :=
  (exprsDerive n).whole

/- At the end of a rule the parts are taken up from the last one read to the first. -/

section

variable {α : Type} {P : α → List Token → List Slip → Prop}

theorem parsesEnd {k : Kind} (other : k ≠ .eof) (message : String) (a : α)
    (h : ∀ t, t.kind = k → P a [t] []) :
    Parses 1 0 (do let _ ← expect k message; return a) P := by
  refine Parses.expect other fun _ => parsesPure [] ?_
  rintro _ _ ⟨t, -, kind, rfl, rfl⟩
  exact h t kind

theorem parsesRecovering {p : Parse Stmt} {few lone : Nat}
    {P : Stmt → List Token → List Slip → Prop} (h : Parses few lone p P) (n : Nat) :
    Parses few lone (recovering n p) P := by
  intro c todo last at' eof
  have one := h c todo last at' eof
  unfold recovering
  rw [tryCatchRun]
  cases run : p c with
  | ok a c₁ =>
    rw [run] at one
    exact one
  | error e c₁ =>
    rw [run] at one
    cases e with
    | fault f => exact absurd rfl (one f)
    | _ => exact fun f same => by cases same

end

theorem simpleDerives {e : Expr} {t : Token} (closing : t.kind = .semicolon ∨ t.kind = .eof) :
    After (fun e => Derives (.expr 1 e)) e (fun s => Derives (.simple s))
      (.expression e) [t] [] := by
  intro ts slips derived
  simpa using Derives.simple derived closing

theorem parsesEnded (e : Expr) :
    Parses 0 2 (ended e) (After (fun e => Derives (.expr 1 e)) e fun s => Derives (.simple s)) := by
  intro c todo last at' eof
  rw [endedRun]
  split
  · next lone =>
    rw [at'.atEnd (by simp), Bool.and_eq_true] at lone
    have none : todo = [] := by simpa using lone.2
    refine ⟨[], todo, rfl, ⟨by simp, ⟨[], by simp⟩, fun _ => rfl⟩, fun _ => ⟨Nat.le_refl 0, ?_⟩⟩
    exact ⟨_, [], .atEnd lone.1 none (by decide) (by decide), simpleDerives (.inr eof)⟩
  · have one := parsesEnd (by decide) "Expect ';' after expression." (Stmt.expression e)
      fun _ closing => simpleDerives (.inl closing)
    exact one.within.at (Nat.zero_le 2) c todo last at' eof

section

variable (n : Nat)

theorem parsesExpressionStatement :
    Parses 0 2 (expressionStatement n) fun s => Derives (.simple s) :=
  (parsesExpression n).then parsesEnded

theorem parsesParameters : Parses 0 0 (parameters n) fun ps => Derives (.names ps) := by
  have one : Parses 0 0 (expect .identifier "Expect an identifier as paramater") _ :=
    (parsesExpect (by decide) _).within
  have more := parsesMore (R := fun ps => Derives (.moreNames ps)) one .noMoreNames (by
    rintro comma _ ps _ us _ slips' kind ⟨t, rfl, ident, rfl, rfl⟩ others
    exact .moreNames kind ident others) n
  refine one.then fun name => more.then fun ps => parsesPure [] ?_
  rintro us slips others _ _ ⟨t, rfl, kind, rfl, rfl⟩
  simpa using Derives.names kind others

theorem parsesVarDeclaration :
    Parses 0 0 (varDeclaration n) (Behind (.keyword .var_) fun s => Derives (.varDecl s)) := by
  refine (Parses.expect (by decide) fun name => Parses.skip (by decide) ?_ ?_).within
  · refine (parsesExpression n).then fun e => (parsesEnd (by decide) _ _ ?_).within
    rintro semi closing ts slips value equal sign _ _ ⟨t, rfl, ident, rfl, rfl⟩ word kind
    simpa using Derives.varInit kind ident sign value closing
  · refine (parsesEnd (by decide) _ _ ?_).within
    rintro semi closing _ _ ⟨t, rfl, ident, rfl, rfl⟩ word kind
    exact .varBare kind ident closing

theorem parsesPrintStatement :
    Parses 0 0 (printStatement n) (Behind (.keyword .print_) fun s => Derives (.statement s)) := by
  refine (parsesExpression n).then fun e => (parsesEnd (by decide) _ _ ?_).within
  intro semi closing ts slips value word kind
  simpa using Derives.print kind value closing

theorem parsesClause (k : Kind) : Parses 0 0 (clause n k) fun e => Derives (.clause e) := by
  refine Parses.idle (checkStays k) fun none => ?_
  cases none with
  | true => exact parsesPure [] .noClause
  | false => exact (parsesExpression n).post fun _ _ _ derived => .clause derived

theorem parsesReturnStatement :
    Parses 0 0 (returnStatement n)
      (Behind (.keyword .return_) fun s => Derives (.statement s)) := by
  refine Parses.idle currentStays fun keyword => Parses.idle (checkStays _) fun none => ?_
  cases none with
  | true =>
    refine (parsesEnd (by decide) _ _ ?_).within
    intro semi closing word kind
    exact .return_ kind .noClause closing
  | false =>
    refine (parsesExpression n).then fun e => (parsesEnd (by decide) _ _ ?_).within
    intro semi closing ts slips value word kind
    simpa using Derives.return_ kind (.clause value) closing

theorem parsesInitializer : Parses 0 2 (initializer n) fun s => Derives (.initial s) := by
  refine Parses.skip (by decide) (parsesPure [] fun _ closing => .noInitial closing) ?_
  refine Parses.skip (by decide) ?_ ?_
  · refine ((parsesVarDeclaration n).then fun s => parsesPure [] ?_)
    intro ts slips derived word kind
    simpa using Derives.varInitial (derived word kind)
  · refine (parsesExpressionStatement n).also (fun s => parsesPure [] ?_) (by decide)
    intro ts slips derived
    simpa using Derives.simpleInitial derived

end

def Enclosed (ss : List Stmt) (us : List Token) (slips : List Slip) : Prop :=
  ∃ ts close, close.kind = .rightBrace ∧ us = ts ++ [close] ∧ Derives (.declarations ss) ts slips

structure StmtsDerive (n : Nat) : Prop where
  declaration : Parses 0 2 (declaration n) fun s => Derives (.declaration s)
  classDeclaration : Parses 0 0 (classDeclaration n)
    (Behind (.keyword .class_) fun s => Derives (.declaration s))
  function : ∀ what, Parses 0 0 (function n what) fun f => Derives (.function f)
  statement : Parses 0 2 (statement n) fun s => Derives (.statement s)
  forStatement : Parses 0 2 (forStatement n)
    (Behind (.keyword .for_) fun s => Derives (.statement s))
  ifStatement : Parses 0 2 (ifStatement n)
    (Behind (.keyword .if_) fun s => Derives (.statement s))
  whileStatement : Parses 0 2 (whileStatement n)
    (Behind (.keyword .while_) fun s => Derives (.statement s))
  block : Parses 0 0 (block n) Enclosed

def Headed (h : Option Token × List (Option Token)) (us : List Token) (slips : List Slip) : Prop :=
  ∃ t l r brace ts, h.1 = some t ∧ t.kind = .identifier ∧ l.kind = .leftParen ∧
    r.kind = .rightParen ∧ brace.kind = .leftBrace ∧ us = t :: l :: (ts ++ [r, brace]) ∧
    Derives (.names h.2) ts slips

theorem parsesHeader (n : Nat) (what : String) : Parses 0 0 (header n what) Headed := by
  have close : ∀ (name paren : Option Token) (params : List (Option Token)), Parses 0 0 (do
        let _ ← expect .rightParen "Expect an ')' after the parameters"
        let _ ← expect .leftBrace ("Expect an '\x7b' before  " ++ what ++ " ")
        return (name, params))
      (After (fun ps => Derives (.names ps)) params
        (After (Taken .leftParen) paren (After (Taken .identifier) name Headed))) := by
    intro name paren params
    refine (Parses.expect (by decide) fun _ => (parsesEnd (by decide) _ _ ?_).within).within
    rintro brace opening _ _ ⟨r, -, right, rfl, rfl⟩ ts slips names _ _ ⟨l, -, left, rfl, rfl⟩
      _ _ ⟨t, rfl, kind, rfl, rfl⟩
    exact ⟨t, l, r, brace, ts, rfl, kind, left, right, opening, by simp, by simpa using names⟩
  unfold header
  refine (Parses.expect (by decide) fun name => ?_).within
  refine (Parses.expect (by decide) fun paren => Parses.idle (checkStays _) fun none => ?_).within
  cases none with
  | true => exact (close name paren []).post fun _ _ _ whole => whole _ _ .noNames
  | false => exact (parsesParameters n).then fun params => close name paren params

theorem blockTestStays (c : Cursor) (t : Token) (ts : List Token) (at' : c.At (t :: ts)) :
    ∃ b, inBlock c = .ok b c ∧ (b = true → ts ≠ []) := by
  rw [inBlock, bindRun, checkRun, Cursor.look, at'.here]
  refine ⟨_, rfl, fun more => ?_⟩
  rw [at'.atEnd (by simp), Bool.and_eq_true] at more
  rintro rfl
  cases more.2

theorem classTestStays (c : Cursor) (t : Token) (ts : List Token) (at' : c.At (t :: ts)) :
    ∃ b, inClass c = .ok b c ∧ (b = true → ts ≠ []) := by
  rw [inClass, bindRun, isAtEndRun, at'.atEnd (by simp)]
  cases ts with
  | nil => exact ⟨false, rfl, fun more => by cases more⟩
  | cons u us =>
    have more : ((t :: u :: us).length == 1) = false := by simp
    rw [more]
    dsimp only
    rw [if_neg (by decide), bindRun, checkRun, Cursor.look, at'.here]
    exact ⟨_, rfl, fun _ => by simp⟩

section

variable {n : Nat} (ih : StmtsDerive n)

include ih

theorem parsesDeclared : Parses 0 2 (declared n) fun s => Derives (.declaration s) := by
  refine Parses.skip (by decide) (ih.classDeclaration.at (by decide)) ?_
  refine Parses.skip (by decide) ?_ ?_
  · refine (ih.function _).then fun f => parsesPure [] ?_
    intro ts slips derived word kind
    simpa using Derives.fun_ kind derived
  refine Parses.skip (by decide) ?_ ?_
  · exact (parsesVarDeclaration n).mono (Nat.le_refl 0) (by decide)
      fun _ _ _ derived word kind => .var_ (derived word kind)
  · exact ih.statement.post fun _ _ _ derived => .statement derived

theorem parsesClassBody (name : Option Token) (opening closing : String) (e : Expr) :
    Parses 0 0 (do
        let _ ← expect .leftBrace opening
        let methods ← whileM n inClass (function n "method")
        let _ ← expect .rightBrace closing
        return Stmt.class_ name methods e)
      (After (fun e => Derives (.base e)) e
        (After (Taken .identifier) name
          (Behind (.keyword .class_) fun s => Derives (.declaration s)))) := by
  have loop := parsesLoop (R := fun fs => Derives (.functions fs)) classTestStays
    ((ih.function "method").at (by decide)) .noFunctions
    (fun _ _ _ _ _ _ first more => .functions first more) n
  refine (Parses.expect (by decide) fun _ => ?_).within
  refine (loop.before fun fs => parsesEnd (by decide) _ _ ?_).within
  rintro close closing us slips' methods _ _ ⟨brace, -, opening, rfl, rfl⟩ ts slips base
    _ _ ⟨t, rfl, ident, rfl, rfl⟩ word kind
  simpa using Derives.class_ kind ident base opening methods closing

theorem parsesClassDeclaration : Parses 0 0 (classDeclaration (n + 1))
    (Behind (.keyword .class_) fun s => Derives (.declaration s)) := by
  unfold classDeclaration
  refine (Parses.expect (by decide) fun name => Parses.skip (by decide) ?_ ?_).within
  · refine (Parses.expect (by decide) fun base => ?_).within
    refine (parsesClassBody ih name _ _ (.reference 0 base)).post ?_
    rintro s us slips whole _ _ ⟨t, rfl, kind, rfl, rfl⟩ less sign
    exact whole _ _ (.base sign kind)
  · exact (parsesClassBody ih name _ _ .missing).post fun _ _ _ whole => whole _ _ .noBase

theorem parsesFunction (what : String) :
    Parses 0 0 (function (n + 1) what) fun f => Derives (.function f) := by
  unfold function
  refine (parsesHeader n what).then fun head => ?_
  obtain ⟨name, params⟩ := head
  refine ih.block.then fun ss => parsesPure [] ?_
  rintro _ slips' ⟨us, close, closing, rfl, inner⟩ _ slips
    ⟨t, l, r, brace, ts, rfl, kind, left, right, opening, rfl, names⟩
  simpa using Derives.function kind left names right opening inner closing

theorem parsesStatement : Parses 0 2 (statement (n + 1)) fun s => Derives (.statement s) := by
  unfold statement
  refine Parses.skip (by decide) ih.forStatement ?_
  refine Parses.skip (by decide) ih.ifStatement ?_
  refine Parses.skip (by decide) ((parsesPrintStatement n).at (by decide)) ?_
  refine Parses.skip (by decide) ((parsesReturnStatement n).at (by decide)) ?_
  refine Parses.skip (by decide) ih.whileStatement ?_
  refine Parses.skip (by decide) ?_ ?_
  · refine ih.block.then fun ss => parsesPure [] ?_
    rintro _ slips ⟨ts, close, closing, rfl, body⟩ brace opening
    simpa using Derives.block opening body closing
  · exact (parsesExpressionStatement n).post fun _ _ _ derived => .expression derived

theorem parsesForStatement : Parses 0 2 (forStatement (n + 1))
    (Behind (.keyword .for_) fun s => Derives (.statement s)) := by
  unfold forStatement
  refine (Parses.expect (by decide) fun _ => ?_).within
  refine ((parsesInitializer n).before fun init => ?_).within
  refine (parsesClause n _).before fun cond => Parses.expect (by decide) fun _ => ?_
  refine (parsesClause n _).then fun step => (Parses.expect (by decide) fun _ => ?_).within
  refine ih.statement.also (fun body => parsesPure [] ?_) (by decide)
  rintro ws slips₃ inner _ _ ⟨r, -, right, rfl, rfl⟩ vs slips₂ last _ _ ⟨semi, -, closing, rfl, rfl⟩
    us slips₁ test ts slips first _ _ ⟨l, -, left, rfl, rfl⟩ word kind
  simpa using Derives.for_ kind left first test closing last right inner

theorem parsesIfStatement : Parses 0 2 (ifStatement (n + 1))
    (Behind (.keyword .if_) fun s => Derives (.statement s)) := by
  unfold ifStatement
  refine (Parses.expect (by decide) fun _ => (parsesExpression n).then fun cond => ?_).within
  refine (Parses.expect (by decide) fun _ => ?_).within
  refine ih.statement.also (fun yes => ?_) (by decide)
  refine Parses.branch (by decide) (fun _ : 0 < 2 => Nat.one_pos) ?_ ?_
  · refine ih.statement.also (fun no => parsesPure [] ?_) (by decide)
    rintro vs slips₂ no other otherwise us slips₁ yes _ _ ⟨r, -, right, rfl, rfl⟩ ts slips cond
      _ _ ⟨l, -, left, rfl, rfl⟩ word kind
    simpa using Derives.ifElse kind left cond right yes otherwise no
  · refine parsesPure [] ?_
    rintro us slips' yes _ _ ⟨r, -, right, rfl, rfl⟩ ts slips cond
      _ _ ⟨l, -, left, rfl, rfl⟩ word kind
    simpa using Derives.if_ kind left cond right yes

theorem parsesWhileStatement : Parses 0 2 (whileStatement (n + 1))
    (Behind (.keyword .while_) fun s => Derives (.statement s)) := by
  unfold whileStatement
  refine (Parses.expect (by decide) fun _ => (parsesExpression n).then fun cond => ?_).within
  refine (Parses.expect (by decide) fun _ => ?_).within
  refine ih.statement.also (fun body => parsesPure [] ?_) (by decide)
  rintro us slips' body _ _ ⟨r, -, right, rfl, rfl⟩ ts slips cond
    _ _ ⟨l, -, left, rfl, rfl⟩ word kind
  simpa using Derives.while_ kind left cond right body

theorem parsesBlock : Parses 0 0 (block (n + 1)) Enclosed := by
  unfold block
  have loop := parsesLoop (R := fun ss => Derives (.declarations ss)) blockTestStays ih.declaration
    .noDeclarations (fun _ _ _ _ _ _ first more => .declarations first more) n
  refine (loop.before fun ss => parsesEnd (by decide) _ _ ?_).within
  intro close closing ts slips body
  exact ⟨ts, close, closing, rfl, by simpa using body⟩

end

theorem stmtsDerive (n : Nat) : StmtsDerive n := by
  induction n with
  | zero =>
    constructor
    case function => exact fun what => parsesOutOfFuel
    all_goals exact parsesOutOfFuel
  | succ n ih =>
    constructor
    case declaration => exact parsesRecovering (parsesDeclared ih) n
    case classDeclaration => exact parsesClassDeclaration ih
    case function => exact parsesFunction ih
    case statement => exact parsesStatement ih
    case forStatement => exact parsesForStatement ih
    case ifStatement => exact parsesIfStatement ih
    case whileStatement => exact parsesWhileStatement ih
    case block => exact parsesBlock ih

theorem unfinishedStays (c : Cursor) (t : Token) (ts : List Token) (at' : c.At (t :: ts)) :
    ∃ b, unfinished c = .ok b c ∧ (b = true → ts ≠ []) := by
  refine ⟨_, rfl, fun more => ?_⟩
  rw [at'.atEnd (by simp)] at more
  rintro rfl
  cases more

theorem unfinishedEnds {α : Type} {p : Parse α} {n : Nat} {c c' : Cursor} {xs : List α}
    (run : whileM n unfinished p c = .ok xs c') :
    (c'.index + 1 == (c'.tokens.size : Int)) = true := by
  induction n generalizing c xs with
  | zero => cases run
  | succ n ih =>
    obtain ⟨b, _, test, go⟩ := bindOk.mp run
    cases test
    cases atEnd : c.index + 1 == (c.tokens.size : Int) with
    | true =>
      rw [atEnd] at go
      cases go
      exact atEnd
    | false =>
      rw [atEnd] at go
      obtain ⟨x, c₁, -, others⟩ := bindOk.mp go
      obtain ⟨ys, c₂, loop, done⟩ := bindOk.mp others
      cases done
      exact ih loop

theorem parsesProgram (n : Nat) : Parses 0 1 (program n) fun ss => Derives (.declarations ss) :=
  parsesLoop unfinishedStays (stmtsDerive n).declaration .noDeclarations
    (fun _ _ _ _ _ _ first more => .declarations first more) n

end Lox.Parse
