import Lox.Proofs.Parsing.Derivations

/-!
Where a rule begins to read. Before other tokens, the kind of the next one decides whether a rule
moves at all; a declaration that does not move has reported the token that it stays at.
-/

namespace Lox

def Kind.isPrimary : Kind → Bool
  | .number | .string | .nothing | .identifier | .mark .leftParen => true
  | .keyword .true_ | .keyword .false_ | .keyword .this_ | .keyword .super_ => true
  | _ => false

/-- The kinds at which a rule of a rank moves. An operator is one of them even where its left
operand is missing. -/
def Kind.moves (r : Nat) (k : Kind) : Bool :=
  k.isPrimary || (decide (r ≤ 8) && k.isUnary) || decide (r ≤ k.pull)

def Kind.blocks : Kind → Bool
  | .mark .rightParen | .mark .rightBrace | .mark .comma => true
  | .keyword .else_ | .keyword .none_ | .eof | .other _ => true
  | _ => false

namespace Parse

variable {α β : Type}

def Forward (p : Parse α) : Prop :=
  ∀ c todo last a c', c.At (todo ++ [last]) → last.kind = .eof → p c = .ok a c' →
    ∃ read left, todo = read ++ left ∧ c.Onward read.length c'

theorem Parses.forward {few lone : Nat} {p : Parse α} {P : α → List Token → List Slip → Prop}
    (h : Parses few lone p P) : Forward p := by
  intro c todo last a c' at' eof run
  have ends := h c todo last at' eof
  rw [run] at ends
  obtain ⟨read, left, split, onward, -⟩ := ends
  exact ⟨read, left, split, onward⟩

theorem forwardPure (a : α) : Forward (pure a) := by
  rintro c todo last _ _ _ _ ⟨⟩
  exact ⟨[], todo, rfl, .stay c⟩

theorem Forward.bind {p : Parse α} {f : α → Parse β} (first : Forward p)
    (next : ∀ a, Forward (f a)) : Forward (p >>= f) := by
  intro c todo last b c' at' eof run
  obtain ⟨a, c₁, one, two⟩ := bindOk.mp run
  obtain ⟨read₁, left₁, rfl, onward₁⟩ := first c todo last a c₁ at' eof one
  rw [List.append_assoc] at at'
  obtain ⟨read₂, left₂, rfl, onward₂⟩ := next a c₁ left₁ last b c' (onward₁.at at') eof two
  refine ⟨read₁ ++ read₂, left₂, (List.append_assoc ..).symm, ?_⟩
  rw [List.length_append]
  exact onward₁.trans onward₂

theorem Forward.le {p : Parse α} (h : Forward p) {c c' : Cursor} {todo : List Token} {last : Token}
    {a : α} (at' : c.At (todo ++ [last])) (eof : last.kind = .eof) (run : p c = .ok a c') :
    c.index ≤ c'.index := by
  obtain ⟨read, left, -, onward⟩ := h c todo last a c' at' eof run
  rw [onward.rest]
  dsimp only
  omega

def LeadsFrom (t : Token) (moved : Bool) (S : Cursor → EStateM.Result Stop Cursor α → Prop)
    (p : Parse α) : Prop :=
  ∀ c todo last, c.At (t :: todo ++ [last]) → last.kind = .eof →
    (moved = true → ∀ a c', p c = .ok a c' → c.index < c'.index) ∧ (moved = false → S c (p c))

def Leads (f : Kind → Bool) (S : Cursor → EStateM.Result Stop Cursor α → Prop) (p : Parse α) :
    Prop :=
  ∀ t, LeadsFrom t (f t.kind) S p

def Rests (c : Cursor) (result : EStateM.Result Stop Cursor α) : Prop := final result = c

def Refuses (c : Cursor) : EStateM.Result Stop Cursor α → Prop
  | .ok _ c' => ∃ e : ParseError, c' = { c with log := c.log ++ [.parse e] }
  | .error _ c' => c'.tokens = c.tokens ∧ c'.index = c.index

section

variable {f g : Kind → Bool} {S : Cursor → EStateM.Result Stop Cursor α → Prop} {p q : Parse α}
  {c : Cursor} {t last : Token} {todo : List Token}

theorem Leads.congr (h : Leads f S p) (same : ∀ k, f k = g k) : Leads g S p := by
  have functions : f = g := funext same
  exact functions ▸ h

theorem leadsThrow (broken : ∀ c e, S c (.error e c)) (e : Stop) :
    Leads f S (throw e : Parse α) := by
  refine fun _ c _ _ _ _ => ⟨?_, fun _ => broken c e⟩
  rintro _ _ _ ⟨⟩

theorem leadsPure (a : α) : Leads (fun _ => false) Rests (pure a) := by
  refine fun _ _ _ _ _ _ => ⟨?_, fun _ => rfl⟩
  rintro ⟨⟩

theorem Forward.behind (h : Forward p) (at' : c.At (t :: todo ++ [last])) (eof : last.kind = .eof)
    {a : α} {c' : Cursor} (run : p c.next = .ok a c') : c.index < c'.index := by
  have le := h.le (Cursor.At.behind at' (by simp)) eof run
  rw [Cursor.At.next at' (by simp)] at le
  have step : (c.moved 1).index = c.index + 1 := rfl
  omega

theorem Leads.skip {k : Kind} (yes : Forward p) (no : Leads f S q) :
    Leads (fun k' => k' == k || f k') S (do if ← Parse.skip k then p else q) := by
  intro t c todo last at' eof
  have test : Parse.skip k c = if t.kind = k then .ok true c.next else .ok false c := by
    rw [skipRun, Cursor.look, at'.here]
  rw [bindRun, test]
  by_cases same : t.kind = k
  · rw [if_pos same]
    refine ⟨fun _ a c' done => yes.behind at' eof done, fun other => ?_⟩
    simp [same] at other
  · rw [if_neg same]
    simpa [same] using no t c todo last at' eof

theorem Leads.operator {ops : List Kind} {next : Option Token → Parse α}
    (yes : ∀ t, Forward (next t)) (no : Leads f S q) :
    Leads (fun k => ops.contains k || f k) S
      (do if ← checkAny ops then (do next (← Parse.take)) else q) := by
  intro t c todo last at' eof
  have test : checkAny ops c = .ok (ops.contains t.kind) c := by
    rw [checkAnyRun, Cursor.look, at'.here]
  rw [bindRun, test]
  dsimp only
  cases inside : ops.contains t.kind with
  | false => simpa using no t c todo last at' eof
  | true =>
    refine ⟨fun _ a c' run => ?_, fun none => (by cases none)⟩
    rw [if_pos rfl, bindRun, takeRun, at'.here] at run
    exact (yes (some t)).behind at' eof run

theorem Leads.bind {p : Parse α} {next : α → Parse β}
    {S : Cursor → EStateM.Result Stop Cursor β → Prop} (first : Leads f Rests p)
    (reads : Forward p) (second : ∀ a, Leads g S (next a)) (later : ∀ a, Forward (next a))
    (broken : ∀ c e, S c (.error e c)) : Leads (fun k => f k || g k) S (p >>= next) := by
  intro t c todo last at' eof
  obtain ⟨moves, rests⟩ := first t c todo last at' eof
  rw [bindRun]
  cases run : p c with
  | error e c₁ =>
    refine ⟨fun _ _ _ done => (by cases done), fun none => ?_⟩
    have stays := rests (Bool.or_eq_false_iff.mp none).1
    rw [run] at stays
    rw [show c₁ = c from stays]
    exact broken c e
  | ok a c₁ =>
    dsimp only
    cases moved : f t.kind with
    | true =>
      refine ⟨fun _ b c' done => ?_, fun none => (by cases none)⟩
      obtain ⟨read, left, split, onward⟩ := reads c _ last a c₁ at' eof run
      rw [split, List.append_assoc] at at'
      exact Int.lt_of_lt_of_le (moves moved a c₁ run) ((later a).le (onward.at at') eof done)
    | false =>
      have stays := rests moved
      rw [run] at stays
      have same : c₁ = c := stays
      subst same
      simpa using second a t c₁ todo last at' eof

end

theorem forwardRule {r : Nat} (lo : 1 ≤ r) (hi : r ≤ 10) (n : Nat) : Forward (rule r n) :=
  ((exprsDerive n).rule r lo hi).forward

theorem forwardTail {r : Nat} (lo : 2 ≤ r) (hi : r ≤ 7) (n m : Nat) (left : Expr) :
    Forward (chain (operators r) (rule (rightRank r) n) (join r) m left) := by
  have right : r ≤ rightRank r ∧ rightRank r ≤ 10 := by
    unfold rightRank
    split <;> omega
  have one := ((exprsDerive n).rule (rightRank r) (by omega) right.2).post
    fun _ _ _ derived => derived.looser (by omega) right.1
  exact (parsesChain lo hi one m left).forward

theorem leadsChain {r : Nat} (lo : 2 ≤ r) (hi : r ≤ 7) (n m : Nat) (left : Expr) :
    Leads (fun k => k.pull == r) Rests
      (chain (operators r) (rule (rightRank r) n) (join r) m left) := by
  cases m with
  | zero => exact leadsThrow (fun _ _ => rfl) _
  | succ m =>
    have right : Forward (rule (rightRank r) n) := by
      refine forwardRule ?_ ?_ n <;> unfold rightRank <;> split <;> omega
    have more : Leads (fun k => (operators r).contains k || false) Rests
        (chain (operators r) (rule (rightRank r) n) (join r) (m + 1) left) :=
      Leads.operator (fun op => right.bind fun e => forwardTail lo hi n m _) (leadsPure left)
    refine more.congr fun k => ?_
    rw [containsOperators lo hi, Bool.or_false]

theorem Forward.taken {t : Token} {moved : Bool} {S : Cursor → EStateM.Result Stop Cursor α → Prop}
    {next : Option Token → Parse α} (kind : moved = true) (h : Forward (next (some t))) :
    LeadsFrom t moved S (do next (← take)) := by
  refine fun c todo last at' eof => ⟨fun _ a c' run => ?_, fun none => (by simp [kind] at none)⟩
  rw [bindRun, takeRun, at'.here] at run
  exact h.behind at' eof run

theorem Forward.advanced {t : Token} {moved : Bool}
    {S : Cursor → EStateM.Result Stop Cursor α → Prop} {next : Parse α} (kind : moved = true)
    (h : Forward next) : LeadsFrom t moved S (do advance; next) := by
  refine fun c todo last at' eof => ⟨fun _ a c' run => ?_, fun none => (by simp [kind] at none)⟩
  rw [bindRun, advanceRun] at run
  exact h.behind at' eof run

theorem Leads.kind {f : Kind → Bool} {S : Cursor → EStateM.Result Stop Cursor α → Prop}
    {next : Kind → Parse α} (h : ∀ t, LeadsFrom t (f t.kind) S (next t.kind)) :
    Leads f S (do next (← Parse.kind)) := by
  intro t c todo last at' eof
  rw [bindRun, kindRun, Cursor.look, at'.here]
  exact h t c todo last at' eof

theorem forwardExpect {k : Kind} (other : k ≠ .eof) (message : String) :
    Forward (expect k message) :=
  (parsesExpect other message).forward

theorem movesPrimary (k : Kind) : k.moves 10 = k.isPrimary := by
  have low : k.pull < 10 := by
    unfold Kind.pull
    split <;> decide
  have none : decide (10 ≤ k.pull) = false := decide_eq_false (by omega)
  simp [Kind.moves, none]

theorem leadsPrimary (n : Nat) : Leads (Kind.moves 10) Rests (primary n) := by
  refine Leads.congr (f := Kind.isPrimary) ?_ fun k => (movesPrimary k).symm
  cases n with
  | zero => exact leadsThrow (fun _ _ => rfl) _
  | succ n =>
    unfold primary
    refine Leads.kind fun t => ?_
    split
    · next kind => exact Forward.taken (by rw [kind]; rfl) (forwardPure _)
    · next kind => exact Forward.taken (by rw [kind]; rfl) (forwardPure _)
    · next kind => exact Forward.advanced (by rw [kind]; rfl) (forwardPure _)
    · next kind => exact Forward.advanced (by rw [kind]; rfl) (forwardPure _)
    · next kind => exact Forward.advanced (by rw [kind]; rfl) (forwardPure _)
    · next kind => exact Forward.taken (by rw [kind]; rfl) (forwardPure _)
    · next kind => exact Forward.taken (by rw [kind]; rfl) (forwardPure _)
    · next kind =>
      refine Forward.advanced (by rw [kind]; rfl) ?_
      refine (forwardRule (r := 1) (by decide) (by decide) n).bind fun e => ?_
      exact (forwardExpect (by decide) _).bind fun _ => forwardPure _
    · next kind =>
      refine Forward.taken (by rw [kind]; rfl) ((forwardExpect (by decide) _).bind fun _ => ?_)
      exact (forwardExpect (by decide) _).bind fun _ => forwardPure _
    · have none : t.kind.isPrimary = false := by
        unfold Kind.isPrimary
        split <;> simp_all
      rw [none]
      exact leadsPure _ t

theorem leadsCallTail (n : Nat) (callee : Expr) :
    Leads (fun k => k.pull == 9) Rests (callTail n callee) := by
  cases n with
  | zero => exact leadsThrow (fun _ _ => rfl) _
  | succ n =>
    have tail : ∀ e, Forward (callTail n e) := fun e => ((exprsDerive n).callTail e).forward
    have more : Leads (fun k => k == .leftParen || (k == .dot || false)) Rests
        (callTail (n + 1) callee) := by
      refine Leads.skip ?_ (Leads.skip ?_ (leadsPure _))
      · refine (exprsDerive n).arguments.forward.bind fun args => ?_
        exact (forwardExpect (by decide) _).bind fun paren => tail _
      · exact (forwardExpect (by decide) _).bind fun name => tail _
    refine more.congr fun k => ?_
    unfold Kind.pull
    split <;> simp_all

theorem forwardSkip {k : Kind} (other : k ≠ .eof) : Forward (skip k) := by
  intro c todo last a c' at' eof run
  rw [skipRun] at run
  cases todo with
  | nil =>
    rw [Cursor.look, at'.here] at run
    dsimp only at run
    rw [if_neg (by rw [eof]; exact other.symm)] at run
    cases run
    exact ⟨[], [], rfl, .stay c⟩
  | cons t todo =>
    rw [Cursor.look, at'.here] at run
    dsimp only at run
    split at run
    · cases run
      refine ⟨[t], todo, rfl, ?_⟩
      rw [Cursor.At.next at' (by simp)]
      exact .moved c 1
    · cases run
      exact ⟨[], t :: todo, rfl, .stay c⟩

theorem movesChain {r : Nat} (lo : 2 ≤ r) (hi : r ≤ 7) (k : Kind) :
    k.moves r = (k.moves (r + 1) || k.pull == r) := by
  have step : decide (r ≤ k.pull) = (decide (r + 1 ≤ k.pull) || k.pull == r) := by
    rw [Bool.eq_iff_iff, Bool.or_eq_true, decide_eq_true_iff, decide_eq_true_iff, beq_iff_eq]
    omega
  have low : decide (r ≤ 8) = true := decide_eq_true (by omega)
  have low' : decide (r + 1 ≤ 8) = true := decide_eq_true (by omega)
  simp only [Kind.moves, step, low, low', Bool.or_assoc]

theorem movesOther (k : Kind) :
    k.moves 1 = (k.moves 2 || (k == .equal || false)) ∧
      k.moves 8 = ([Kind.mark .minus, .sign .bang].contains k || k.moves 9) ∧
      k.moves 9 = (k.moves 10 || k.pull == 9) := by
  cases k with
  | mark m => cases m <;> decide
  | sign s => cases s <;> decide
  | keyword w => cases w <;> decide
  | other name => exact ⟨rfl, rfl, rfl⟩
  | _ => decide

theorem leadsRule (n : Nat) : ∀ r, 1 ≤ r → r ≤ 10 → Leads (Kind.moves r) Rests (rule r n) := by
  induction n with
  | zero =>
    intro r _ _
    have none : rule r 0 = throw .outOfFuel := by
      unfold rule
      split <;> rfl
    rw [none]
    exact leadsThrow (fun _ _ => rfl) _
  | succ n ih =>
    intro r lo hi
    by_cases chained : 2 ≤ r ∧ r ≤ 7
    · rw [ruleChain chained.1 chained.2]
      have both := (ih (r + 1) (by omega) (by omega)).bind (forwardRule (by omega) (by omega) n)
        (fun e => leadsChain chained.1 chained.2 n n e)
        (fun e => forwardTail chained.1 chained.2 n n e) (fun _ _ => rfl)
      exact both.congr fun k => (movesChain chained.1 chained.2 k).symm
    · match r with
      | 1 =>
        have value : Forward (assignment n) := forwardRule (r := 1) (by decide) (by decide) n
        show Leads (Kind.moves 1) Rests (assignment (n + 1))
        refine Leads.congr ((ih 2 (by decide) (by decide)).bind
          (forwardRule (by decide) (by decide) n)
          (fun target => Leads.skip (k := .equal) ?_ (leadsPure target))
          (fun target => (forwardSkip (by decide)).bind fun more => ?_) (fun _ _ => rfl))
          fun k => (movesOther k).1.symm
        · exact value.bind fun e => by cases target <;> exact forwardPure _
        · cases more with
          | true => exact value.bind fun e => by cases target <;> exact forwardPure _
          | false => exact forwardPure target
      | 8 =>
        have right : Forward (unary n) := forwardRule (r := 8) (by decide) (by decide) n
        have both : Leads _ Rests (unary (n + 1)) :=
          Leads.operator (fun op => right.bind fun e => forwardPure _)
            (ih 9 (by decide) (by decide))
        exact both.congr fun k => (movesOther k).2.1.symm
      | 9 =>
        have both := (ih 10 (by decide) (by decide)).bind (forwardRule (by decide) (by decide) n)
          (leadsCallTail n) (fun e => ((exprsDerive n).callTail e).forward) (fun _ _ => rfl)
        exact both.congr fun k => (movesOther k).2.2.symm
      | 10 => exact leadsPrimary (n + 1)

theorem refusesError (c : Cursor) (e : Stop) :
    Refuses c (.error e c : EStateM.Result Stop Cursor α) := ⟨rfl, rfl⟩

theorem leadsEnded (e : Expr) : Leads (fun k => k == .semicolon) Refuses (ended e) := by
  intro t c todo last at' eof
  rw [endedBefore e at' (by simp)]
  unfold closed
  rw [bindRun, expectRun, Cursor.look, at'.here]
  dsimp only
  by_cases same : t.kind = .semicolon
  · rw [if_pos same]
    refine ⟨fun _ a c' run => ?_, fun other => (by simp [same] at other)⟩
    exact (forwardPure (Stmt.expression e)).behind at' eof run
  · rw [if_neg same]
    refine ⟨fun moved => absurd (beq_iff_eq.mp moved) same, fun _ => ?_⟩
    rcases reportRun ⟨t, "Expect ';' after expression."⟩ c with run | run
    · rw [run]
      exact ⟨rfl, rfl⟩
    · rw [run]
      exact ⟨_, rfl⟩

theorem leadsExpressionStatement (n : Nat) :
    Leads (fun k => k.moves 1 || k == .semicolon) Refuses (expressionStatement n) :=
  (leadsRule n 1 (by decide) (by decide)).bind (parsesExpression n).forward leadsEnded
    (fun e => (parsesEnded e).forward) refusesError

section

variable (n : Nat)

theorem leadsStatement : Leads (fun k =>
      k == .keyword .for_ || (k == .keyword .if_ || (k == .keyword .print_ ||
        (k == .keyword .return_ || (k == .keyword .while_ || (k == .leftBrace ||
          (k.moves 1 || k == .semicolon))))))) Refuses (statement n) := by
  cases n with
  | zero => exact leadsThrow refusesError _
  | succ n =>
    have rules := stmtsDerive n
    refine Leads.skip rules.forStatement.forward ?_
    refine Leads.skip rules.ifStatement.forward ?_
    refine Leads.skip (parsesPrintStatement n).forward ?_
    refine Leads.skip (parsesReturnStatement n).forward ?_
    refine Leads.skip rules.whileStatement.forward ?_
    refine Leads.skip (rules.block.forward.bind fun ss => forwardPure _) ?_
    exact leadsExpressionStatement n

theorem leadsDeclared : Leads (fun k => !k.blocks) Refuses (declared n) := by
  have rules := stmtsDerive n
  have declared := Leads.skip (k := .keyword .var_) (parsesVarDeclaration n).forward
    (leadsStatement n)
  have declared := Leads.skip (k := .keyword .fun_)
    ((rules.function "function").forward.bind fun f => forwardPure (.function f)) declared
  have declared := Leads.skip (k := .keyword .class_) rules.classDeclaration.forward declared
  refine declared.congr fun k => ?_
  cases k with
  | mark m => cases m <;> decide
  | sign s => cases s <;> decide
  | keyword w => cases w <;> decide
  | other name => rfl
  | _ => decide

end

theorem recoveringRun {p : Parse Stmt} {c : Cursor} (n : Nat)
    (safe : ∀ f c', p c ≠ .error (.fault f) c') : recovering n p c = p c := by
  unfold recovering
  rw [tryCatchRun]
  cases run : p c with
  | ok a c₁ => rfl
  | error e c₁ =>
    cases e with
    | fault f => exact absurd run (safe f c₁)
    | _ => rfl

theorem leadsDeclaration (n : Nat) : Leads (fun k => !k.blocks) Refuses (declaration n) := by
  cases n with
  | zero => exact leadsThrow refusesError _
  | succ n =>
    intro t c todo last at' eof
    have safe : ∀ f c', declared n c ≠ .error (.fault f) c' := by
      intro f c' run
      have ends := parsesDeclared (stmtsDerive n) c (t :: todo) last at' eof
      rw [run] at ends
      exact ends f rfl
    rw [declarationSucc, recoveringRun n safe]
    exact leadsDeclared n t c todo last at' eof

end Parse
end Lox
