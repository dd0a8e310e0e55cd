import Lox.Proofs.Parsing.Expressions

/-!
What is read binds as the rules say. Whatever the tokens are, every operand in an expression that a
rule gives has at least the rank that the rules ask for, and a hole binds most of all. So a tree of
the grammar as it is meant can be read only if it is one of the grammar as it is read, too.
-/

namespace Lox

def Tightly (left : Expr) (op : Option Token) (right : Expr) : Prop :=
  ∀ t, op = some t → leftRank t.kind.pull ≤ left.rank ∧ rightRank t.kind.pull ≤ right.rank

namespace Expr

mutual

def Tight : Expr → Prop
  | .assign _ _ value => value.Tight
  | .unary _ right => right.Tight
  | .binary left op right => left.Tight ∧ right.Tight ∧ Tightly left op right
  | .logical left op right => left.Tight ∧ right.Tight ∧ Tightly left op right
  | .grouping inner => inner.Tight
  | .call callee _ args => callee.Tight ∧ AllTight args
  | .get object _ => object.Tight
  | .set object _ value => object.Tight ∧ value.Tight
  | _ => True

def AllTight : List Expr → Prop
  | [] => True
  | e :: es => e.Tight ∧ AllTight es

end

theorem allTight {es : List Expr} : AllTight es ↔ ∀ e ∈ es, e.Tight :=
  allParts trivial fun _ _ => .rfl

theorem rankAsRead (e : Expr) : e.asRead.rank = e.rank := by
  cases e <;> simp [asRead, rank]

mutual

theorem tightAsRead (e : Expr) : e.asRead.Tight ↔ e.Tight := by
  cases e with
  | missing | literal | reference | this | super => exact .rfl
  | assign node name value => exact tightAsRead value
  | unary op right => exact tightAsRead right
  | binary left op right =>
    refine and_congr (tightAsRead left) (and_congr (tightAsRead right) ?_)
    unfold Tightly
    rw [rankAsRead, rankAsRead]
  | logical left op right =>
    refine and_congr (tightAsRead left) (and_congr (tightAsRead right) ?_)
    unfold Tightly
    rw [rankAsRead, rankAsRead]
  | grouping inner => exact tightAsRead inner
  | call callee paren args => exact and_congr (tightAsRead callee) (allTightAsRead args)
  | get object name => exact tightAsRead object
  | set object name value => exact and_congr (tightAsRead object) (tightAsRead value)

theorem allTightAsRead (es : List Expr) : AllTight (asReadAll es) ↔ AllTight es := by
  match es with
  | [] => exact .rfl
  | e :: es => exact and_congr (tightAsRead e) (allTightAsRead es)

end

theorem joinsOfTightly {lo hi : Nat} {left right : Expr} {op : Option Token}
    (meant : joins lo hi left op right .meant = true) (bound : Tightly left op right) :
    joins lo hi left op right = true := by
  obtain ⟨t, rfl, bounds, -⟩ := joinsSome meant
  simp [joins, bounds, bound t rfl]

mutual

theorem Tight.grammatical (e : Expr) (tight : e.Tight) (meant : e.grammatical .meant = true) :
    e.grammatical = true := by
  cases e with
  | missing => cases meant
  | literal d => cases d <;> exact meant
  | reference | this | super => exact meant
  | assign node name value =>
    simp only [Expr.grammatical, Bool.and_eq_true] at meant ⊢
    exact ⟨meant.1, Tight.grammatical value tight meant.2⟩
  | unary op right =>
    simp only [Expr.grammatical, Bool.and_eq_true] at meant ⊢
    exact ⟨meant.1, Tight.grammatical right tight meant.2⟩
  | binary left op right =>
    simp only [Expr.grammatical, Bool.and_eq_true] at meant ⊢
    exact ⟨⟨joinsOfTightly meant.1.1 tight.2.2, Tight.grammatical left tight.1 meant.1.2⟩,
      Tight.grammatical right tight.2.1 meant.2⟩
  | logical left op right =>
    simp only [Expr.grammatical, Bool.and_eq_true] at meant ⊢
    exact ⟨⟨joinsOfTightly meant.1.1 tight.2.2, Tight.grammatical left tight.1 meant.1.2⟩,
      Tight.grammatical right tight.2.1 meant.2⟩
  | grouping inner => exact Tight.grammatical inner tight meant
  | call callee paren args =>
    simp only [Expr.grammatical, Bool.and_eq_true] at meant ⊢
    exact ⟨⟨⟨meant.1.1.1, Tight.grammatical callee tight.1 meant.1.1.2⟩, meant.1.2⟩,
      AllTight.grammatical args tight.2 meant.2⟩
  | get object name =>
    simp only [Expr.grammatical, Bool.and_eq_true] at meant ⊢
    exact ⟨⟨meant.1.1, Tight.grammatical object tight meant.1.2⟩, meant.2⟩
  | set object name value =>
    simp only [Expr.grammatical, Bool.and_eq_true] at meant ⊢
    exact ⟨⟨⟨meant.1.1.1, Tight.grammatical object tight.1 meant.1.1.2⟩, meant.1.2⟩,
      Tight.grammatical value tight.2 meant.2⟩

theorem AllTight.grammatical (es : List Expr) (tight : AllTight es)
    (meant : grammaticalAll es .meant = true) : grammaticalAll es = true := by
  match es with
  | [] => rfl
  | e :: es =>
    simp only [grammaticalAll, Bool.and_eq_true] at meant ⊢
    exact ⟨Tight.grammatical e tight.1 meant.1, AllTight.grammatical es tight.2 meant.2⟩

end

end Expr

namespace Parse

variable {ops : List Kind} {operand : Parse Expr} {build : Expr → Option Token → Expr → Expr}
  {c c' : Cursor} {left e : Expr} {r n : Nat}

theorem checkAnyOk {b : Bool} (run : checkAny ops c = .ok b c') :
    c' = c ∧ ∃ t, c.here = some (some t) ∧ b = ops.contains t.kind := by
  rw [checkAnyRun, Cursor.look] at run
  split at run
  · next t here =>
    cases run
    exact ⟨rfl, t, here, rfl⟩
  · cases run
  · cases run

theorem chainCases (run : chain ops operand build n left c = .ok e c') :
    checkAny ops c = .ok false c ∧ e = left ∧ c' = c ∨
      ∃ m t right d, n = m + 1 ∧ checkAny ops c = .ok true c ∧ ops.contains t.kind = true ∧
        operand c.next = .ok right d ∧
        chain ops operand build m (build left (some t) right) d = .ok e c' := by
  cases n with
  | zero => cases run
  | succ n =>
    obtain ⟨more, c₁, look, rest⟩ := bindOk.mp run
    obtain ⟨rfl, t, here, inside⟩ := checkAnyOk look
    cases more with
    | false =>
      cases rest
      exact .inl ⟨look, rfl, rfl⟩
    | true =>
      obtain ⟨op, c₂, taken, rest⟩ := bindOk.mp rest
      rw [takeRun, here] at taken
      cases taken
      obtain ⟨right, d, one, rest⟩ := bindOk.mp rest
      exact .inr ⟨n, t, right, d, rfl, look, inside.symm, one, rest⟩

theorem chainStops (run : chain ops operand build n left c = .ok e c') :
    checkAny ops c' = .ok false c' := by
  induction n generalizing left c with
  | zero => cases run
  | succ n ih =>
    rcases chainCases run with ⟨stop, -, rfl⟩ | ⟨_, _, _, _, ⟨⟩, -, -, -, rest⟩
    · exact stop
    · exact ih rest

theorem pullOf {t : Token} (lo : 2 ≤ r) (hi : r ≤ 7)
    (inside : (operators r).contains t.kind = true) : t.kind.pull = r := by
  rw [containsOperators lo hi, beq_iff_eq] at inside
  exact inside

def MakesTight (r : Nat) (p : Parse Expr) : Prop := Makes p fun e => e.Tight ∧ r ≤ e.rank

theorem joinRank (left : Expr) (t : Token) (right : Expr) :
    (join r left (some t) right).rank = t.kind.pull := by
  unfold join
  split
  · rfl
  · rfl

theorem joinTight {right : Expr} {t : Token} (pull : t.kind.pull = r) (tight : left.Tight)
    (tight' : right.Tight) (high : leftRank r ≤ left.rank) (high' : rightRank r ≤ right.rank) :
    (join r left (some t) right).Tight ∧ (join r left (some t) right).rank = r := by
  have bound : Tightly left (some t) right := by
    rintro _ ⟨⟩
    rw [pull]
    exact ⟨high, high'⟩
  refine ⟨?_, (joinRank left t right).trans pull⟩
  unfold join
  split
  · exact ⟨tight, tight', bound⟩
  · exact ⟨tight, tight', bound⟩

theorem joinParts {right : Expr} {op : Option Token} (h : (join r left op right).Tight) :
    left.Tight ∧ right.Tight ∧ Tightly left op right := by
  unfold join at h
  split at h
  · exact h
  · exact h

theorem makesChain (lo : 2 ≤ r) (hi : r ≤ 7) (grouped : r ≠ 4)
    (one : MakesTight (rightRank r) operand) (tight : left.Tight) (high : r ≤ left.rank) (n : Nat) :
    MakesTight r (chain (operators r) operand (join r) n left) := by
  induction n generalizing left with
  | zero => exact makesThrow _
  | succ n ih =>
    intro c e c' run
    rcases chainCases run with ⟨-, rfl, -⟩ | ⟨_, t, right, d, ⟨⟩, -, inside, second, rest⟩
    · exact ⟨tight, high⟩
    · obtain ⟨tight', high'⟩ := one _ _ _ second
      have high : leftRank r ≤ left.rank := by rwa [leftRank, if_neg grouped]
      obtain ⟨joined, rank⟩ := joinTight (pullOf lo hi inside) tight tight' high high'
      exact ih joined (Nat.le_of_eq rank.symm) d e c' rest

/- An equality takes in all that follow it, so a chain of them goes on once at most. -/
theorem makesEqualities (one : MakesTight 4 operand)
    (stops : ∀ {c e c'}, operand c = .ok e c' → checkAny (operators 4) c' = .ok false c')
    (tight : left.Tight) (high : 5 ≤ left.rank) (n : Nat) :
    MakesTight 4 (chain (operators 4) operand (join 4) n left) := by
  intro c e c' run
  rcases chainCases run with ⟨-, rfl, -⟩ | ⟨_, t, right, d, rfl, -, inside, second, rest⟩
  · exact ⟨tight, Nat.le_of_succ_le high⟩
  · obtain ⟨tight', high'⟩ := one _ _ _ second
    obtain ⟨joined, rank⟩ := joinTight (pullOf (by decide) (by decide) inside) tight tight' high high'
    rcases chainCases rest with ⟨-, rfl, -⟩ | ⟨_, _, _, _, -, more, -⟩
    · exact ⟨joined, Nat.le_of_eq rank.symm⟩
    · rw [stops second] at more
      cases more

structure MakesAllTight (n : Nat) : Prop where
  rule : ∀ r, 1 ≤ r → r ≤ 10 → MakesTight r (rule r n)
  callTail : ∀ e : Expr, e.Tight → 9 ≤ e.rank → MakesTight 9 (callTail n e)
  arguments : Makes (arguments n) Expr.AllTight

theorem equalityStops {n : Nat} (run : rule 4 n c = .ok e c') :
    checkAny (operators 4) c' = .ok false c' := by
  cases n with
  | zero => cases run
  | succ n =>
    rw [ruleChain (by decide) (by decide)] at run
    obtain ⟨_, _, -, rest⟩ := bindOk.mp run
    exact chainStops rest

theorem assignedTight {target value : Expr} (tight : target.Tight) (rank : 2 ≤ target.rank)
    (tight' : value.Tight) : (assigned target value).Tight ∧ 1 ≤ (assigned target value).rank := by
  unfold assigned
  split
  · exact ⟨tight', Nat.le_refl 1⟩
  · exact ⟨⟨tight, tight'⟩, Nat.le_refl 1⟩
  · exact ⟨tight, Nat.le_of_succ_le rank⟩

theorem makesPrimary (ih : MakesAllTight n) : MakesTight 10 (primary (n + 1)) := by
  unfold primary
  refine makesLast fun k => ?_
  split
  · refine makesLast fun t => ?_
    cases t with
    | some t => exact makesPure ⟨trivial, Nat.le_refl 10⟩
    | none => exact makesPure ⟨trivial, Nat.le_refl 10⟩
  · refine makesLast fun t => ?_
    cases t with
    | some t => exact makesPure ⟨trivial, Nat.le_refl 10⟩
    | none => exact makesPure ⟨trivial, Nat.le_refl 10⟩
  · exact makesLast fun _ => makesPure ⟨trivial, Nat.le_refl 10⟩
  · exact makesLast fun _ => makesPure ⟨trivial, Nat.le_refl 10⟩
  · exact makesLast fun _ => makesPure ⟨trivial, Nat.le_refl 10⟩
  · exact makesLast fun _ => makesPure ⟨trivial, Nat.le_refl 10⟩
  · exact makesLast fun _ => makesPure ⟨trivial, Nat.le_refl 10⟩
  · refine makesLast fun _ => (ih.rule 1 (by decide) (by decide)).bind fun inner made => ?_
    exact makesLast fun _ => makesPure ⟨made.1, Nat.le_refl 10⟩
  · exact makesLast fun _ => makesLast fun _ => makesLast fun _ =>
      makesPure ⟨trivial, Nat.le_refl 10⟩
  · exact makesPure ⟨trivial, Nat.le_refl 10⟩

theorem makesRule (ih : MakesAllTight n) (lo : 1 ≤ r) (hi : r ≤ 10) :
    MakesTight r (rule r (n + 1)) := by
  by_cases chained : 2 ≤ r ∧ r ≤ 7
  · obtain ⟨two, seven⟩ := chained
    rw [ruleChain two seven]
    refine (ih.rule (r + 1) (by omega) (by omega)).bind fun left made => ?_
    obtain ⟨tight, high⟩ := made
    by_cases grouped : r = 4
    · subst grouped
      exact makesEqualities (ih.rule 4 (by decide) (by decide)) equalityStops tight high n
    · have bounds : 1 ≤ rightRank r ∧ rightRank r ≤ 10 := by
        rw [rightRank, if_neg grouped]
        omega
      exact makesChain two seven grouped (ih.rule _ bounds.1 bounds.2) tight
        (Nat.le_of_succ_le high) n
  · have others : r = 1 ∨ r = 8 ∨ r = 9 ∨ r = 10 := by omega
    rcases others with rfl | rfl | rfl | rfl
    · refine (ih.rule 2 (by decide) (by decide)).bind fun target made => ?_
      refine makesLast fun _ => makesEither ?_ (makesPure ⟨made.1, Nat.le_of_succ_le made.2⟩)
      refine (ih.rule 1 (by decide) (by decide)).bind fun value made' => ?_
      exact makesPure (assignedTight made.1 made.2 made'.1)
    · refine makesLast fun _ => makesEither ?_ ?_
      · refine makesLast fun op => (ih.rule 8 (by decide) (by decide)).bind fun right made => ?_
        exact makesPure ⟨made.1, Nat.le_refl 8⟩
      · intro c e c' run
        have made := ih.rule 9 (by decide) (by decide) c e c' run
        exact ⟨made.1, Nat.le_of_succ_le made.2⟩
    · refine (ih.rule 10 (by decide) (by decide)).bind fun callee made => ?_
      exact ih.callTail callee made.1 (Nat.le_of_succ_le made.2)
    · exact makesPrimary ih

theorem makesAllTight (n : Nat) : MakesAllTight n := by
  induction n with
  | zero =>
    refine ⟨fun r lo hi => ?_, fun _ _ _ => makesThrow _, makesThrow _⟩
    match r with
    | 1 | 2 | 3 | 4 | 5 | 6 | 7 | 8 | 9 | 10 => exact makesThrow _
  | succ n ih =>
    refine ⟨fun r lo hi => makesRule ih lo hi, fun e tight high => ?_, ?_⟩
    · refine makesLast fun _ => makesEither ?_ ?_
      · refine ih.arguments.bind fun args all => makesLast fun paren => ?_
        exact ih.callTail _ ⟨tight, all⟩ (Nat.le_refl 9)
      · refine makesLast fun _ => makesEither ?_ (makesPure ⟨tight, high⟩)
        exact makesLast fun name => ih.callTail _ tight (Nat.le_refl 9)
    · have one := ih.rule 1 (by decide) (by decide)
      refine makesLast fun _ => makesEither (makesPure trivial) ?_
      refine one.bind fun first made => (makesWhile one n).bind fun more all => makesPure ?_
      exact ⟨made.1, Expr.allTight.mpr fun e mem => (all e mem).1⟩

theorem expressionTight (n : Nat) : Makes (expression n) Expr.Tight :=
  fun c e c' run => ((makesAllTight n).rule 1 (by decide) (by decide) c e c' run).1

end Parse
end Lox
