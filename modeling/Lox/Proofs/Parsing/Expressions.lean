import Lox.Proofs.Parsing.Spelling

/-!
Written expressions are read back. Every rule reads an expression of its own rank or a higher one
and stops where no operator of that rank follows; a rule whose operators group to the left reads up
to any such operator and goes on with what it has.
-/

namespace Lox

theorem isOfSome {k : Kind} {t : Option Token} (h : isOf k t = true) :
    ∃ u, t = some u ∧ u.kind = k := by
  cases t with
  | none => cases h
  | some u => exact ⟨u, rfl, by simpa [isOf] using h⟩

theorem Token.keywordKind (k : Keyword) : (Token.keyword k).kind = .keyword k := by
  cases k <;> decide +kernel

def Kind.opens : Kind → Bool
  | .number | .string | .identifier | .mark .leftParen | .mark .minus | .sign .bang => true
  | .keyword k => k == .true_ || k == .false_ || k == .this_ || k == .super_
  | _ => false

def Kind.isUnary (k : Kind) : Bool := k == .mark .minus || k == .sign .bang

theorem Datum.tokenOpens {d : Datum} (h : (Expr.literal d).grammatical = true) :
    ∃ k : Kind, (∀ lexeme, (d.token lexeme).kind = k) ∧ k.opens = true ∧ k.isUnary = false := by
  cases d with
  | nil => cases h
  | bool b =>
    cases b with
    | true => exact ⟨.keyword .true_, fun _ => Token.keywordKind _, rfl, rfl⟩
    | false => exact ⟨.keyword .false_, fun _ => Token.keywordKind _, rfl, rfl⟩
  | int i => exact ⟨.number, fun _ => rfl, rfl, rfl⟩
  | float x n => exact ⟨.number, fun _ => rfl, rfl, rfl⟩
  | text s => exact ⟨.string, fun _ => rfl, rfl, rfl⟩

theorem joinsSome {R : Ranks} {lo hi : Nat} {left right : Expr} {op : Option Token}
    (h : joins lo hi left op right R = true) :
    ∃ t, op = some t ∧ (lo ≤ t.kind.pull ∧ t.kind.pull ≤ hi) ∧
      R.left t.kind.pull ≤ left.rank ∧ R.right t.kind.pull ≤ right.rank := by
  cases op with
  | none => cases h
  | some t => exact ⟨t, rfl, by simpa [joins, and_assoc] using h⟩

def Expr.Opens (e : Expr) : Prop :=
  ∃ k, (∀ w, Starts (e.spell w) k) ∧ k.opens = true ∧ (9 ≤ e.rank → k.isUnary = false)

theorem Expr.Opens.extend {first e : Expr} (h : first.Opens)
    (spell : ∀ w : Writing, ∃ ts, e.spell w = first.spell (w.part 0) ++ ts)
    (rank : 9 ≤ e.rank → 9 ≤ first.rank) : e.Opens := by
  obtain ⟨k, starts, opens, tight⟩ := h
  refine ⟨k, fun w => ?_, opens, fun high => tight (rank high)⟩
  obtain ⟨ts, same⟩ := spell w
  rw [same]
  exact (starts _).append ts

theorem opensToken {e : Expr} {k : Kind} (starts : ∀ w, Starts (e.spell w) k)
    (opens : k.opens = true) (tight : k.isUnary = false) : e.Opens :=
  ⟨k, starts, opens, fun _ => tight⟩

theorem Expr.Opens.length {e : Expr} (h : e.Opens) (w : Writing) : 0 < (e.spell w).length := by
  obtain ⟨k, starts, -⟩ := h
  exact List.length_pos_iff.mpr (starts w).some

theorem Expr.Opens.some {e : Expr} (h : e.Opens) (w : Writing) : e.spell w ≠ [] :=
  List.length_pos_iff.mp (h.length w)

theorem opensExpr (e : Expr) (ok : e.grammatical = true) : e.Opens := by
  cases e with
  | missing => cases ok
  | literal d =>
    obtain ⟨k, kind, opens, tight⟩ := Datum.tokenOpens ok
    exact opensToken (fun w => ⟨_, [], rfl, kind _⟩) opens tight
  | reference _ name =>
    obtain ⟨t, rfl, kind⟩ := isOfSome ok
    exact opensToken (fun _ => ⟨t, _, rfl, kind⟩) rfl rfl
  | assign _ name value =>
    obtain ⟨t, rfl, kind⟩ := isOfSome (Bool.and_eq_true_iff.mp ok).1
    exact opensToken (fun _ => ⟨t, _, rfl, kind⟩) rfl rfl
  | this _ keyword =>
    obtain ⟨t, rfl, kind⟩ := isOfSome ok
    exact opensToken (fun _ => ⟨t, _, rfl, kind⟩) rfl rfl
  | super _ keyword method =>
    obtain ⟨t, rfl, kind⟩ := isOfSome (Bool.and_eq_true_iff.mp ok).1
    exact opensToken (fun _ => ⟨t, _, rfl, kind⟩) rfl rfl
  | unary op right =>
    simp only [Expr.grammatical, Bool.and_eq_true, Bool.or_eq_true] at ok
    rcases ok.1.1 with minus | bang
    · obtain ⟨t, rfl, kind⟩ := isOfSome minus
      exact ⟨_, fun _ => ⟨t, _, rfl, kind⟩, rfl, fun high => absurd high (show ¬9 ≤ 8 by decide)⟩
    · obtain ⟨t, rfl, kind⟩ := isOfSome bang
      exact ⟨_, fun _ => ⟨t, _, rfl, kind⟩, rfl, fun high => absurd high (show ¬9 ≤ 8 by decide)⟩
  | binary left op right =>
    simp only [Expr.grammatical, Bool.and_eq_true] at ok
    obtain ⟨t, rfl, ⟨-, hi⟩, -⟩ := joinsSome ok.1.1
    refine (opensExpr left ok.1.2).extend (fun _ => ⟨_, rfl⟩) fun high => ?_
    change 9 ≤ t.kind.pull at high
    omega
  | logical left op right =>
    simp only [Expr.grammatical, Bool.and_eq_true] at ok
    obtain ⟨t, rfl, ⟨-, hi⟩, -⟩ := joinsSome ok.1.1
    refine (opensExpr left ok.1.2).extend (fun _ => ⟨_, rfl⟩) fun high => ?_
    change 9 ≤ t.kind.pull at high
    omega
  | grouping inner => exact opensToken (fun _ => startsCons _ _) rfl rfl
  | call callee paren args =>
    simp only [Expr.grammatical, Bool.and_eq_true, decide_eq_true_eq] at ok
    exact (opensExpr callee ok.1.1.2).extend (fun _ => ⟨_, rfl⟩) fun _ => ok.1.1.1
  | get object name =>
    simp only [Expr.grammatical, Bool.and_eq_true, decide_eq_true_eq] at ok
    exact (opensExpr object ok.1.2).extend (fun _ => ⟨_, rfl⟩) fun _ => ok.1.1
  | set object name value =>
    simp only [Expr.grammatical, Bool.and_eq_true, decide_eq_true_eq] at ok
    exact (opensExpr object ok.1.1.2).extend (fun _ => ⟨_, rfl⟩) fun _ => ok.1.1.1

namespace Parse

def rule : (rank n : Nat) → Parse Expr
  | 1 => assignment
  | 2 => disjunction
  | 3 => conjunction
  | 4 => equality
  | 5 => comparison
  | 6 => term
  | 7 => factor
  | 8 => unary
  | 9 => call
  | _ => primary

def operators : (rank : Nat) → List Kind
  | 2 => [.keyword .or_]
  | 3 => [.keyword .and_]
  | 4 => [.sign .bangEqual, .sign .equalEqual]
  | 5 => [.sign .greater, .sign .greaterEqual, .sign .less, .sign .lessEqual]
  | 6 => [.mark .minus, .mark .plus]
  | 7 => [.sign .slash, .mark .star]
  | _ => []

def join (rank : Nat) : Expr → Option Token → Expr → Expr :=
  if rank ≤ 3 then .logical else .binary

theorem ruleChain {r : Nat} (lo : 2 ≤ r) (hi : r ≤ 7) (n : Nat) :
    rule r (n + 1) = (do
      chain (operators r) (rule (rightRank r) n) (join r) n (← rule (r + 1) n)) := by
  match r with
  | 2 | 3 | 4 | 5 | 6 | 7 => rfl

theorem containsOperators {r : Nat} (lo : 2 ≤ r) (hi : r ≤ 7) (k : Kind) :
    (operators r).contains k = (k.pull == r) := by
  match r with
  | 2 | 3 | 4 | 5 | 6 | 7 =>
    cases k with
    | mark m => cases m <;> rfl
    | sign s => cases s <;> rfl
    | keyword w => cases w <;> rfl
    | _ => rfl

def onward (r n m : Nat) (e : Expr) : Parse Expr :=
  match r with
  | 2 | 3 | 5 | 6 | 7 => chain (operators r) (rule (rightRank r) n) (join r) m e
  | 9 => callTail m e
  | _ => pure e

def limit (r : Nat) : Nat :=
  match r with
  | 2 | 3 | 5 | 6 | 7 | 9 => r
  | _ => r - 1

theorem onwardChain {r : Nat} (lo : 2 ≤ r) (hi : r ≤ 7) (left : r ≠ 4) (n m : Nat) (e : Expr) :
    onward r n m e = chain (operators r) (rule (rightRank r) n) (join r) m e := by
  match r with
  | 2 | 3 | 5 | 6 | 7 => rfl
  | 4 => exact absurd rfl left

theorem limitChain {r : Nat} (lo : 2 ≤ r) (hi : r ≤ 7) (left : r ≠ 4) : limit r = r := by
  match r with
  | 2 | 3 | 5 | 6 | 7 => rfl
  | 4 => exact absurd rfl left

variable {ops : List Kind} {operand : Parse Expr} {build : Expr → Option Token → Expr → Expr}
  {rest : List Token} {k : Kind}

theorem readsChainNone (starts : Starts rest k) (out : ops.contains k = false) (m : Nat) (e : Expr) :
    Reads (chain ops operand build (m + 1) e) [] (pure e) rest := by
  refine (readsCheckAny starts ops).look ?_
  rw [out]
  exact readsSelf _

theorem readsChainSome {op : Token} {us : List Token} {right : Expr} (m : Nat) (left : Expr)
    (inside : ops.contains op.kind = true) (more : us ++ rest ≠ [])
    (one : Reads operand us (pure right) rest) :
    Reads (chain ops operand build (m + 1) left) (op :: us)
      (chain ops operand build m (build left (some op) right)) rest := by
  refine (readsCheckAny (startsCons op (us ++ rest)) ops).look ?_
  rw [inside]
  exact (readsTake more).token (one.last (readsSelf _))

theorem readsOnwardNone {r n m : Nat} {e : Expr} (starts : Starts rest k) (low : k.pull < r) :
    Reads (onward r n (m + 1) e) [] (pure e) rest := by
  by_cases chained : 2 ≤ r ∧ r ≤ 7 ∧ r ≠ 4
  · obtain ⟨lo, hi, left⟩ := chained
    rw [onwardChain lo hi left]
    refine readsChainNone starts ?_ m e
    rw [containsOperators lo hi, beq_eq_false_iff_ne]
    exact Nat.ne_of_lt low
  · match r with
    | 9 =>
      have paren : k ≠ .leftParen := by
        rintro rfl
        exact absurd low (by decide)
      have dot : k ≠ .dot := by
        rintro rfl
        exact absurd low (by decide)
      exact (readsSkipNot starts paren).look ((readsSkipNot starts dot).look (readsSelf _))
    | 0 | 1 | 4 | 8 | r + 10 => exact readsSelf _
    | 2 | 3 | 5 | 6 | 7 => exact absurd ⟨by decide, by decide, by decide⟩ chained

/- A rule needs some sixteen steps for a token: it may pass through all the rules below it. -/
def ReadsUpTo (r : Nat) (e : Expr) : Prop :=
  ∀ (w : Writing) n k rest, 16 * (e.spell w).length + 11 ≤ n + 1 + r → Starts rest k →
    k.pull ≤ limit r → ∃ m, n ≤ m + (e.spell w).length ∧
      Reads (rule r (n + 1)) (e.spell w) (onward r n m e.asRead) rest

def ReadsWhole (r : Nat) (e : Expr) : Prop :=
  ∀ (w : Writing) n k rest, 16 * (e.spell w).length + 11 ≤ n + r → Starts rest k →
    k.pull < r → Reads (rule r n) (e.spell w) (pure e.asRead) rest

theorem ReadsUpTo.whole {r : Nat} {e : Expr} (h : ReadsUpTo r e) (top : r ≤ 10) (opens : e.Opens) :
    ReadsWhole r e := by
  intro w n k rest enough starts low
  have length := opens.length w
  obtain ⟨n, rfl⟩ : ∃ n', n = n' + 1 := ⟨n - 1, by omega⟩
  have low' : k.pull ≤ limit r := by
    unfold limit
    split <;> omega
  obtain ⟨m, left, reads⟩ := h w n k rest enough starts low'
  obtain ⟨m, rfl⟩ : ∃ m', m = m' + 1 := ⟨m - 1, by omega⟩
  exact reads.ends (readsOnwardNone starts low)

theorem ReadsWhole.before {r : Nat} {e : Expr} (h : ReadsWhole (r + 1) e) (lo : 1 ≤ r) (hi : r ≤ 9)
    (length : ∀ w, 0 < (e.spell w).length)
    (tight : r = 8 → ∃ k, (∀ w, Starts (e.spell w) k) ∧ k.isUnary = false) : ReadsUpTo r e := by
  intro w n k rest enough starts low
  have length := length w
  have low' : k.pull < r + 1 := by
    unfold limit at low
    split at low <;> omega
  have reads := h w n k rest (by omega) starts low'
  refine ⟨n, by omega, ?_⟩
  by_cases chained : 2 ≤ r ∧ r ≤ 7
  · obtain ⟨two, seven⟩ := chained
    rw [ruleChain two seven]
    by_cases left : r = 4
    · subst left
      obtain ⟨n, rfl⟩ : ∃ n', n = n' + 1 := ⟨n - 1, by omega⟩
      refine reads.last (readsChainNone starts ?_ n e.asRead)
      rw [containsOperators two seven, beq_eq_false_iff_ne]
      exact Nat.ne_of_lt (Nat.lt_succ_of_le low)
    · rw [onwardChain two seven left]
      exact reads.last (readsSelf _)
  · match r with
    | 1 =>
      have equal : k ≠ .equal := by
        rintro rfl
        exact absurd low (by decide)
      exact reads.last ((readsSkipNot starts equal).look (readsSelf _))
    | 8 =>
      obtain ⟨k', starts', plain⟩ := tight rfl
      refine (readsCheckAny ((starts' w).append rest) _).look ?_
      have out : [Kind.mark .minus, .sign .bang].contains k' = false := by
        simpa [Kind.isUnary] using plain
      rw [out]
      exact reads
    | 9 => exact reads.last (readsSelf _)
    | 2 | 3 | 4 | 5 | 6 | 7 => exact absurd ⟨by decide, by decide⟩ chained

def Readable (e : Expr) : Prop := ∀ r, 1 ≤ r → r ≤ e.rank → ReadsUpTo r e

theorem rankLe (e : Expr) (ok : e.grammatical = true) : 1 ≤ e.rank ∧ e.rank ≤ 10 := by
  cases e with
  | binary left op right =>
    simp only [Expr.grammatical, Bool.and_eq_true] at ok
    obtain ⟨t, rfl, bounds, -⟩ := joinsSome ok.1.1
    change 1 ≤ t.kind.pull ∧ t.kind.pull ≤ 10
    omega
  | logical left op right =>
    simp only [Expr.grammatical, Bool.and_eq_true] at ok
    obtain ⟨t, rfl, bounds, -⟩ := joinsSome ok.1.1
    change 1 ≤ t.kind.pull ∧ t.kind.pull ≤ 10
    omega
  | _ => exact ⟨by simp [Expr.rank], by simp [Expr.rank]⟩

theorem readableOfRank {e : Expr} (ok : e.grammatical = true) (h : ReadsUpTo e.rank e) :
    Readable e := by
  have opens := opensExpr e ok
  have below : ∀ j r, r + j = e.rank → 1 ≤ r → ReadsUpTo r e := by
    intro j
    induction j with
    | zero =>
      rintro r rfl _
      exact h
    | succ j ih =>
      intro r sum lo
      have top := (rankLe e ok).2
      refine ((ih (r + 1) (by omega) (by omega)).whole (by omega) opens).before lo (by omega)
        opens.length ?_
      intro same
      obtain ⟨k, starts, -, tight⟩ := opens
      exact ⟨k, starts, tight (by omega)⟩
  intro r lo hi
  exact below (e.rank - r) r (by omega) lo

theorem Readable.whole {e : Expr} (h : Readable e) (ok : e.grammatical = true) {r : Nat} (lo : 1 ≤ r)
    (hi : r ≤ e.rank) : ReadsWhole r e :=
  (h r lo hi).whole (Nat.le_trans hi (rankLe e ok).2) (opensExpr e ok)

theorem readsLiteral (d : Datum) (ok : (Expr.literal d).grammatical = true) :
    ReadsUpTo 10 (.literal d) := by
  intro w n k rest enough starts _
  refine ⟨n, by omega, ?_⟩
  cases d with
  | nil => cases ok
  | bool b =>
    cases b with
    | true =>
      have first : Starts ([Token.keyword .true_] ++ rest) (.keyword .true_) :=
        ⟨_, _, rfl, Token.keywordKind _⟩
      exact (readsKind first).look ((readsAdvance starts.some).last (readsSelf _))
    | false =>
      have first : Starts ([Token.keyword .false_] ++ rest) (.keyword .false_) :=
        ⟨_, _, rfl, Token.keywordKind _⟩
      exact (readsKind first).look ((readsAdvance starts.some).last (readsSelf _))
  | int i => exact (readsKind (startsCons _ _)).look ((readsTake starts.some).last (readsSelf _))
  | float x stamp =>
    exact (readsKind (startsCons _ _)).look ((readsTake starts.some).last (readsSelf _))
  | text s => exact (readsKind (startsCons _ _)).look ((readsTake starts.some).last (readsSelf _))

theorem readsReference (node : Nat) {t : Token} (kind : t.kind = .identifier) :
    ReadsUpTo 10 (.reference node (some t)) := by
  intro w n k rest enough starts _
  refine ⟨n, by omega, ?_⟩
  exact (readsKind ⟨t, rest, rfl, kind⟩).look ((readsTake starts.some).last (readsSelf _))

theorem readsThis (node : Nat) {t : Token} (kind : t.kind = .keyword .this_) :
    ReadsUpTo 10 (.this node (some t)) := by
  intro w n k rest enough starts _
  refine ⟨n, by omega, ?_⟩
  exact (readsKind ⟨t, rest, rfl, kind⟩).look ((readsTake starts.some).last (readsSelf _))

theorem readsSuper (node : Nat) {t u : Token} (keyword : t.kind = .keyword .super_)
    (method : u.kind = .identifier) : ReadsUpTo 10 (.super node (some t) (some u)) := by
  intro w n k rest enough starts _
  refine ⟨n, by omega, ?_⟩
  have first : Starts (t :: .mark .dot :: [u] ++ rest) (.keyword .super_) := ⟨t, _, rfl, keyword⟩
  refine (readsKind first).look ?_
  refine (readsTake (by simp)).token ((readsMark _ (by simp) _).token ?_)
  exact (readsExpect method starts.some _).last (readsSelf _)

theorem readsGrouping {inner : Expr} (ih : ReadsWhole 1 inner) : ReadsUpTo 10 (.grouping inner) := by
  intro w n k rest enough starts _
  refine ⟨n, by omega, ?_⟩
  have closing : Starts ([Token.mark .rightParen] ++ rest) .rightParen := startsCons _ _
  simp only [Expr.spell, List.length_cons, List.length_append, List.length_nil] at enough
  refine (readsKind (startsCons _ _)).look ((readsAdvance (by simp)).token ?_)
  refine (ih (w.part 0) n _ _ (by omega) closing (by decide)).bind ?_
  exact (readsMark _ starts.some _).last (readsSelf _)

theorem readsUnary {op : Token} {right : Expr} (ih : ReadsWhole 8 right)
    (kind : op.kind.isUnary = true) (more : ∀ w, right.spell w ≠ []) :
    ReadsUpTo 8 (.unary (some op) right) := by
  intro w n k rest enough starts low
  refine ⟨n, by omega, ?_⟩
  change 16 * ((right.spell (w.part 0)).length + 1) + 11 ≤ n + 1 + 8 at enough
  have inside : [Kind.mark .minus, .sign .bang].contains op.kind = true := by
    simpa [Kind.isUnary] using kind
  refine (readsCheckAny (startsCons op _) _).look ?_
  rw [inside]
  refine (readsTake (by simp [more])).token ?_
  exact (ih (w.part 0) n k rest (by omega) starts (by exact Nat.lt_succ_of_le low)).last
    (readsSelf _)

theorem spellJoin (r : Nat) (left : Expr) (op : Token) (right : Expr) (w : Writing) :
    (join r left (some op) right).spell w = left.spell (w.part 0) ++ op :: right.spell (w.part 1) := by
  unfold join
  split <;> simp [Expr.spell]

theorem asReadJoin (r : Nat) (left : Expr) (op : Option Token) (right : Expr) :
    (join r left op right).asRead = join r left.asRead op right.asRead := by
  unfold join
  split <;> simp [Expr.asRead]

theorem readsJoin {left right : Expr} {op : Token} (hl : left.grammatical = true)
    (hr : right.grammatical = true) (lo : 2 ≤ op.kind.pull) (hi : op.kind.pull ≤ 7)
    (leftHigh : leftRank op.kind.pull ≤ left.rank) (rightHigh : rightRank op.kind.pull ≤ right.rank)
    (ihl : Readable left) (ihr : Readable right) :
    ReadsUpTo op.kind.pull (join op.kind.pull left (some op) right) := by
  intro w n k rest enough starts low
  rw [spellJoin, List.length_append, List.length_cons] at enough
  rw [spellJoin, asReadJoin, List.length_append, List.length_cons]
  have inside := containsOperators lo hi op.kind
  rw [beq_self_eq_true] at inside
  have length := (opensExpr left hl).length (w.part 0)
  have more : right.spell (w.part 1) ++ rest ≠ [] := by simp [starts.some]
  by_cases grouped : op.kind.pull = 4
  · have high : 5 ≤ left.rank := by simpa [leftRank, grouped] using leftHigh
    have high' : 4 ≤ right.rank := by simpa [rightRank, grouped] using rightHigh
    obtain ⟨n, rfl⟩ : ∃ n', n = n' + 2 := ⟨n - 2, by omega⟩
    have below : k.pull < 4 := by
      rw [grouped] at low
      exact Nat.lt_succ_of_le low
    refine ⟨n + 2, by omega, ?_⟩
    have first := ihl.whole hl (by decide) high (w.part 0) (n + 2) op.kind
      (op :: right.spell (w.part 1) ++ rest) (by omega) (startsCons _ _) (by omega)
    have second := ihr.whole hr (by decide) high' (w.part 1) (n + 2) k rest (by omega) starts below
    rw [grouped] at inside ⊢
    rw [ruleChain (by decide) (by decide)]
    refine first.bind ((readsChainSome (n + 1) left.asRead inside more second).ends ?_)
    refine readsChainNone starts ?_ n _
    rw [containsOperators (by decide) (by decide), beq_eq_false_iff_ne]
    omega
  · have high : op.kind.pull ≤ left.rank := by simpa [leftRank, grouped] using leftHigh
    have bound : rightRank op.kind.pull = max 6 (op.kind.pull + 1) := if_neg grouped
    have reach := limitChain lo hi grouped
    rw [reach] at low
    obtain ⟨m, spent, first⟩ := ihl _ (by omega) high (w.part 0) n op.kind
      (op :: right.spell (w.part 1) ++ rest) (by omega) (startsCons _ _) (Nat.le_of_eq reach.symm)
    obtain ⟨m, rfl⟩ : ∃ m', m = m' + 1 := ⟨m - 1, by omega⟩
    refine ⟨m, by omega, ?_⟩
    rw [onwardChain lo hi grouped] at first ⊢
    have second := ihr.whole hr (by omega) rightHigh (w.part 1) n k rest (by omega) starts (by omega)
    exact first.trans (readsChainSome m left.asRead inside more second)

theorem startsMore (es : List Expr) (w : Writing) {t : Token} (closing : t.kind = .rightParen)
    (rest : List Token) : ∃ k, Starts (Expr.spellMore es w ++ t :: rest) k ∧ k.pull < 1 := by
  cases es with
  | nil => exact ⟨_, ⟨t, rest, rfl, closing⟩, by decide⟩
  | cons e es => exact ⟨_, startsCons _ _, by decide⟩

theorem readsMore {es : List Expr} {w : Writing} {n : Nat} {t : Token}
    (all : ∀ e ∈ es, ReadsWhole 1 e) (closing : t.kind = .rightParen)
    (enough : 16 * (Expr.spellMore es w).length + 11 ≤ n + 1) {m : Nat}
    (steps : (Expr.spellMore es w).length < m) (rest : List Token) :
    Reads (whileM m (skip .comma) (assignment n)) (Expr.spellMore es w) (pure (Expr.asReadAll es))
      (t :: rest) := by
  induction es generalizing m w with
  | nil =>
    obtain ⟨m, rfl⟩ : ∃ m', m = m' + 1 := ⟨m - 1, by omega⟩
    exact readsWhileNone (readsSkipNot ⟨t, rest, rfl, closing⟩ (by decide))
  | cons e es ih =>
    obtain ⟨m, rfl⟩ : ∃ m', m = m' + 1 := ⟨m - 1, by omega⟩
    simp only [Expr.spellMore, List.length_cons, List.length_append] at enough steps
    obtain ⟨k, starts, low⟩ := startsMore es (w.part 1) closing rest
    have later := ih (fun x mem => all x (List.mem_cons_of_mem _ mem)) (w := w.part 1) (by omega)
      (m := m) (by omega)
    have one := all e List.mem_cons_self (w.part 0) n k _ (by omega) starts low
    exact readsWhileSkip rfl one (by simp) later

theorem readsArguments {es : List Expr} {w : Writing} {n : Nat} {t : Token}
    (all : ∀ e ∈ es, e.Opens ∧ ReadsWhole 1 e) (closing : t.kind = .rightParen)
    (enough : 16 * (Expr.spellAll es w).length + 12 ≤ n) (rest : List Token) :
    Reads (arguments n) (Expr.spellAll es w) (pure (Expr.asReadAll es)) (t :: rest) := by
  obtain ⟨n, rfl⟩ : ∃ n', n = n' + 1 := ⟨n - 1, by omega⟩
  cases es with
  | nil => exact (readsCheck ⟨t, rest, rfl, closing⟩ _).look (readsSelf _)
  | cons e es =>
    obtain ⟨opens, first⟩ := all e List.mem_cons_self
    obtain ⟨k, starts, open', -⟩ := opens
    simp only [Expr.spellAll, List.length_append] at enough
    obtain ⟨k', starts', low⟩ := startsMore es (w.part 1) closing rest
    have here : Starts ((e.spell (w.part 0) ++ Expr.spellMore es (w.part 1)) ++ t :: rest) k :=
      ((starts _).append _).append _
    refine (readsCheck here _).look ?_
    have other : (k == Kind.rightParen) = false := by
      rw [beq_eq_false_iff_ne]
      rintro rfl
      cases open'
    rw [other]
    refine (first (w.part 0) n k' _ (by omega) starts' low).bind ?_
    have later := readsMore (w := w.part 1) (n := n) (m := n)
      (fun x mem => (all x (List.mem_cons_of_mem _ mem)).2) closing (by omega) (by omega) rest
    exact later.last (readsSelf _)

theorem readsCall {callee : Expr} {paren : Token} {args : List Expr} (ih : ReadsUpTo 9 callee)
    (all : ∀ e ∈ args, e.Opens ∧ ReadsWhole 1 e) (closing : paren.kind = .rightParen) :
    ReadsUpTo 9 (.call callee (some paren) args) := by
  intro w n k rest enough starts low
  simp only [Expr.spell, Option.toList_some, List.length_append, List.length_cons,
    List.length_nil] at enough ⊢
  obtain ⟨m, spent, first⟩ := ih (w.part 0) n .leftParen
    (.mark .leftParen :: (Expr.spellAll args (w.part 1) ++ [paren]) ++ rest) (by omega)
    (startsCons _ _) (by decide)
  obtain ⟨m, rfl⟩ : ∃ m', m = m' + 1 := ⟨m - 1, by omega⟩
  refine ⟨m, by omega, first.trans ?_⟩
  have inner := readsArguments (w := w.part 1) (n := m) all closing (by omega) rest
  refine Reads.given rfl (by simp) (inner.bind ?_)
  exact (readsExpect closing starts.some _).last (readsSelf _)

theorem readsGet {object : Expr} {name : Token} (ih : ReadsUpTo 9 object)
    (kind : name.kind = .identifier) : ReadsUpTo 9 (.get object (some name)) := by
  intro w n k rest enough starts low
  simp only [Expr.spell, Option.toList_some, List.length_append, List.length_cons,
    List.length_nil] at enough ⊢
  obtain ⟨m, spent, first⟩ := ih (w.part 0) n .dot (.mark .dot :: [name] ++ rest) (by omega)
    (startsCons _ _) (by decide)
  obtain ⟨m, rfl⟩ : ∃ m', m = m' + 1 := ⟨m - 1, by omega⟩
  refine ⟨m, by omega, first.trans ?_⟩
  refine Reads.otherwise (startsCons _ _) (by decide) (Reads.given rfl (by simp) ?_)
  exact (readsExpect kind starts.some _).last (readsSelf _)

theorem readsAssign (node : Nat) {name : Token} {value : Expr} (kind : name.kind = .identifier)
    (ih : ReadsWhole 1 value) (more : ∀ w, value.spell w ≠ []) :
    ReadsUpTo 1 (.assign node (some name) value) := by
  intro w n k rest enough starts low
  have target : ReadsWhole 2 (.reference node (some name)) :=
    (readableOfRank (by simp [Expr.grammatical, isOf, kind]) (readsReference node kind)).whole
      (by simp [Expr.grammatical, isOf, kind]) (by decide) (by simp [Expr.rank])
  simp only [Expr.spell, Option.toList_some, List.length_append, List.length_cons,
    List.length_nil] at enough ⊢
  refine ⟨n, by omega, ?_⟩
  refine (target w n .equal (.sign .equal :: value.spell (w.part 0) ++ rest) ?_ (startsCons _ _)
    (by decide)).bind ?_
  · simp only [Expr.spell, Option.toList_some, List.length_cons, List.length_nil]
    omega
  · refine Reads.given rfl (by simp [more]) ?_
    exact (ih (w.part 0) n k rest (by omega) starts (Nat.lt_succ_of_le low)).last (readsSelf _)

theorem readsSet {object value : Expr} {name : Token} (whole : ReadsWhole 2 (.get object (some name)))
    (ih : ReadsWhole 1 value) (more : ∀ w, value.spell w ≠ []) :
    ReadsUpTo 1 (.set object (some name) value) := by
  intro w n k rest enough starts low
  have spell : (Expr.set object (some name) value).spell w =
      (Expr.get object (some name)).spell w ++ Token.sign .equal :: value.spell (w.part 1) := by
    simp [Expr.spell]
  rw [spell, List.length_append, List.length_cons] at enough
  rw [spell, List.length_append, List.length_cons]
  refine ⟨n, by omega, ?_⟩
  refine (whole w n .equal (.sign .equal :: value.spell (w.part 1) ++ rest) (by omega)
    (startsCons _ _) (by decide)).bind ?_
  refine Reads.given rfl (by simp [more]) ?_
  exact (ih (w.part 1) n k rest (by omega) starts (Nat.lt_succ_of_le low)).last (readsSelf _)

mutual

theorem readable (e : Expr) (ok : e.grammatical = true) : Readable e := by
  refine readableOfRank ok ?_
  cases e with
  | missing => cases ok
  | literal d => exact readsLiteral d ok
  | reference node name =>
    obtain ⟨t, rfl, kind⟩ := isOfSome ok
    exact readsReference node kind
  | assign node name value =>
    simp only [Expr.grammatical, Bool.and_eq_true] at ok
    obtain ⟨t, rfl, kind⟩ := isOfSome ok.1
    have whole := (readable value ok.2).whole ok.2 (Nat.le_refl 1) (rankLe value ok.2).1
    exact readsAssign node kind whole (opensExpr value ok.2).some
  | this node keyword =>
    obtain ⟨t, rfl, kind⟩ := isOfSome ok
    exact readsThis node kind
  | super node keyword method =>
    simp only [Expr.grammatical, Bool.and_eq_true] at ok
    obtain ⟨t, rfl, kind⟩ := isOfSome ok.1
    obtain ⟨u, rfl, kind'⟩ := isOfSome ok.2
    exact readsSuper node kind kind'
  | unary op right =>
    simp only [Expr.grammatical, Bool.and_eq_true, Bool.or_eq_true, decide_eq_true_eq] at ok
    obtain ⟨⟨sign, high⟩, ok⟩ := ok
    have whole := (readable right ok).whole ok (by decide) high
    rcases sign with minus | bang
    · obtain ⟨t, rfl, kind⟩ := isOfSome minus
      exact readsUnary whole (by rw [kind]; rfl) (opensExpr right ok).some
    · obtain ⟨t, rfl, kind⟩ := isOfSome bang
      exact readsUnary whole (by rw [kind]; rfl) (opensExpr right ok).some
  | binary left op right =>
    simp only [Expr.grammatical, Bool.and_eq_true] at ok
    obtain ⟨t, rfl, ⟨lo, hi⟩, leftHigh, rightHigh⟩ := joinsSome ok.1.1
    have reads := readsJoin ok.1.2 ok.2 (by omega) (by omega) leftHigh rightHigh
      (readable left ok.1.2) (readable right ok.2)
    rwa [join, if_neg (by omega)] at reads
  | logical left op right =>
    simp only [Expr.grammatical, Bool.and_eq_true] at ok
    obtain ⟨t, rfl, ⟨lo, hi⟩, leftHigh, rightHigh⟩ := joinsSome ok.1.1
    have reads := readsJoin ok.1.2 ok.2 (by omega) (by omega) leftHigh rightHigh
      (readable left ok.1.2) (readable right ok.2)
    rwa [join, if_pos (by omega)] at reads
  | grouping inner =>
    exact readsGrouping ((readable inner ok).whole ok (Nat.le_refl 1) (rankLe inner ok).1)
  | call callee paren args =>
    simp only [Expr.grammatical, Bool.and_eq_true, decide_eq_true_eq] at ok
    obtain ⟨⟨⟨high, ok⟩, closing⟩, all⟩ := ok
    obtain ⟨t, rfl, kind⟩ := isOfSome closing
    exact readsCall (readable callee ok 9 (by decide) high) (readableAll args all) kind
  | get object name =>
    simp only [Expr.grammatical, Bool.and_eq_true, decide_eq_true_eq] at ok
    obtain ⟨t, rfl, kind⟩ := isOfSome ok.2
    exact readsGet (readable object ok.1.2 9 (by decide) ok.1.1) kind
  | set object name value =>
    simp only [Expr.grammatical, Bool.and_eq_true, decide_eq_true_eq] at ok
    obtain ⟨t, rfl, kind⟩ := isOfSome ok.1.2
    have target : (Expr.get object (some t)).grammatical = true := by
      simp [Expr.grammatical, ok]
    have whole := (readableOfRank target
      (readsGet (readable object ok.1.1.2 9 (by decide) ok.1.1.1) kind)).whole target
      (r := 2) (by decide) (by simp [Expr.rank])
    have whole' := (readable value ok.2).whole ok.2 (Nat.le_refl 1) (rankLe value ok.2).1
    exact readsSet whole whole' (opensExpr value ok.2).some

theorem readableAll (es : List Expr) (ok : Expr.grammaticalAll es = true) :
    ∀ e ∈ es, e.Opens ∧ ReadsWhole 1 e := by
  match es with
  | [] => simp
  | e :: es =>
    simp only [Expr.grammaticalAll, Bool.and_eq_true] at ok
    have whole := (readable e ok.1).whole ok.1 (Nat.le_refl 1) (rankLe e ok.1).1
    have later := readableAll es ok.2
    intro x mem
    rcases List.mem_cons.mp mem with rfl | other
    · exact ⟨opensExpr x ok.1, whole⟩
    · exact later x other

end

theorem readsExpression {e : Expr} (ok : e.grammatical = true) {w : Writing} {n : Nat}
    (enough : 16 * (e.spell w).length + 10 ≤ n) {k : Kind} {rest : List Token}
    (starts : Starts rest k) (low : k.pull = 0) :
    Reads (expression n) (e.spell w) (pure e.asRead) rest :=
  (readable e ok).whole ok (Nat.le_refl 1) (rankLe e ok).1 w n k rest (by omega) starts (by omega)

end Parse
end Lox
