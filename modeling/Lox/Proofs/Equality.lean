import Mathlib.Data.Finset.Lattice.Fold
import Mathlib.Data.Fintype.Prod
import Lox.Proofs.Sequence
import Lox.Command

/-!
Equality and truth of values. A comparison is the same from both sides. It fails exactly where it
comes to an array beside a value without elements, and it ends unless both sides hold arrays that
are inside themselves. Of all values only an array has no truth.
-/

namespace Lox

/-- What a comparison can come to: the last is an array beside a value of another kind. -/
inductive Verdict where
  | same
  | other
  | clash (kind : String)

namespace Verdict

def of (b : Bool) : Verdict := if b then .same else .other

def outcome : Verdict → Except Fault Bool
  | .same => .ok true
  | .other => .ok false
  | .clash kind => .error (.noMember kind "elements")

theorem ofOutcome (b : Bool) : (of b).outcome = .ok b := by
  cases b <;> rfl

theorem outcomeInjective {v w : Verdict} (h : v.outcome = w.outcome) : v = w := by
  cases v <;> cases w <;> cases h <;> rfl

theorem outcomeEnds (w : Verdict) : w.outcome ≠ .error .recursion := by
  cases w <;> simp [outcome]

theorem sameOutcome {w : Verdict} : w.outcome = .ok true ↔ w = .same := by
  cases w <;> simp [outcome]

end Verdict

namespace Value

def plainEqual : Value → Value → Bool
  | .datum d, .datum e => d.equal e
  | a, b => a.identical b

structure Beside (a b : Value) (i j : Nat) : Prop where
  array : (a.isArray || b.isArray) = true
  left : a.elementsOf? = some i
  right : b.elementsOf? = some j

inductive Lone : Value → Value → String → Prop where
  | right {i : Nat} {b : Value} (none : b.elementsOf? = none) : Lone (.array i) b b.typeName
  | left {a : Value} {j : Nat} (none : a.elementsOf? = none) : Lone a (.array j) a.typeName

end Value

open Value

/-- The verdict on two values: arrays go by their sizes first, then by the first two elements that
are neither one object nor the same. -/
inductive Judged (s : Store) : Value → Value → Verdict → Prop where
  | plain {a b : Value} (plain : (a.isArray || b.isArray) = false) :
      Judged s a b (.of (a.plainEqual b))
  | lone {a b : Value} {kind : String} (lone : Lone a b kind) : Judged s a b (.clash kind)
  | sizes {a b : Value} {i j : Nat} (beside : Beside a b i j)
      (differ : (s.elements i).size ≠ (s.elements j).size) : Judged s a b .other
  | all {a b : Value} {i j : Nat} (beside : Beside a b i j)
      (sizes : (s.elements i).size = (s.elements j).size)
      (cells : ∀ (k : Nat) x y, (s.elements i)[k]? = some x → (s.elements j)[k]? = some y →
        x.identical y = false → Judged s x y .same) : Judged s a b .same
  | first {a b x y : Value} {i j k : Nat} {w : Verdict} (beside : Beside a b i j)
      (sizes : (s.elements i).size = (s.elements j).size)
      (before : ∀ (l : Nat) x y, l < k → (s.elements i)[l]? = some x → (s.elements j)[l]? = some y →
        x.identical y = false → Judged s x y .same)
      (left : (s.elements i)[k]? = some x) (right : (s.elements j)[k]? = some y)
      (apart : x.identical y = false) (cell : Judged s x y w) (differ : w ≠ .same) :
      Judged s a b w

inductive Store.Finite (s : Store) : Value → Prop where
  | leaf {v : Value} (none : v.elementsOf? = none) : Finite s v
  | held {v : Value} {i : Nat} (has : v.elementsOf? = some i)
      (parts : ∀ x ∈ s.elements i, Finite s x) : Finite s v

section

open Float.Model

theorem unpackedSwap (x y : UnpackedFloat) : (x.compare y).map Ordering.swap = y.compare x := by
  have signs : ∀ s t : UnpackedFloat.Sign, (compare s t).swap = compare t s := by
    intro s t
    cases s <;> cases t <;> rfl
  have sizes : ∀ (e e' : Int) (m m' : Nat),
      ((compare e e').then (compare m m')).swap = (compare e' e).then (compare m' m) := by
    intro e e' m m'
    rw [Ordering.swap_then, Int.compare_swap, Nat.compare_swap]
  cases x with
  | notANumber => cases y <;> rfl
  | infinity s =>
    cases y with
    | infinity t => exact congrArg some (signs s t)
    | _ => cases s <;> rfl
  | zero s =>
    cases y with
    | notANumber => rfl
    | zero t => rfl
    | _ t => cases t <;> rfl
  | finite s m e _ =>
    cases y with
    | notANumber => rfl
    | infinity t => cases t <;> cases s <;> rfl
    | zero t => cases s <;> rfl
    | finite t m' e' _ =>
      cases s <;> cases t
      · exact congrArg (fun o => some o.swap) (sizes e e' m m')
      · rfl
      · rfl
      · exact congrArg some (sizes e e' m m')

end

theorem swapEq (o : Option Ordering) : (o.map Ordering.swap == some .eq) = (o == some .eq) := by
  cases o with
  | none => rfl
  | some o => cases o <;> rfl

theorem floatComm (x y : Float) : (x == y) = (y == x) := by
  show (x.toModel.unpack.compare y.toModel.unpack == some .eq) =
    (y.toModel.unpack.compare x.toModel.unpack == some .eq)
  rw [← unpackedSwap x.toModel.unpack, swapEq]

theorem quantityComm (x y : Quantity) : (x.order y == some .eq) = (y.order x == some .eq) := by
  cases x with
  | int i =>
    cases y with
    | int j =>
      show (some (compare i j) == some .eq) = (some (compare j i) == some .eq)
      rw [← Int.compare_swap]
      exact swapEq (some (compare j i))
    | float y => exact (swapEq _).symm
  | float x =>
    cases y with
    | int j => exact swapEq _
    | float y =>
      simp only [Quantity.order, orderFloat]
      rw [floatComm y x]
      by_cases less : x < y <;> by_cases greater : y < x <;> simp [less, greater]

theorem datumComm (d e : Datum) : d.equal e = e.equal d := by
  cases d <;> cases e <;> first
    | rfl
    | exact BEq.comm
    | exact quantityComm ..

namespace Value

theorem identicalComm (a b : Value) : a.identical b = b.identical a := by
  have numbers : ∀ (x y : Float) (m n : Nat),
      (x.isNaN && y.isNaN && m == n) = (y.isNaN && x.isNaN && n == m) := by
    intro x y m n
    rw [Bool.and_comm x.isNaN, BEq.comm]
  have ids : ∀ m n : Nat, (m == n) = (n == m) := fun _ _ => BEq.comm
  cases a with
  | datum d =>
    cases b with
    | datum e => cases d <;> cases e <;> first | rfl | exact numbers ..
    | _ => cases d <;> rfl
  | _ =>
    cases b with
    | datum e => cases e <;> rfl
    | _ => first | rfl | exact ids ..

theorem plainComm (a b : Value) : a.plainEqual b = b.plainEqual a := by
  cases a <;> cases b <;> simp only [plainEqual]
  case datum.datum => exact datumComm ..
  all_goals exact identicalComm ..

theorem Beside.swap {a b : Value} {i j : Nat} (h : Beside a b i j) : Beside b a j i :=
  ⟨by rw [Bool.or_comm]; exact h.array, h.right, h.left⟩

theorem Lone.swap {a b : Value} {kind : String} (h : Lone a b kind) : Lone b a kind := by
  cases h with
  | right none => exact .left none
  | left none => exact .right none

end Value

theorem Judged.swap {s : Store} {a b : Value} {w : Verdict} (h : Judged s a b w) :
    Judged s b a w := by
  induction h with
  | plain plain =>
    rw [plainComm]
    exact .plain (by rw [Bool.or_comm]; exact plain)
  | lone lone => exact .lone lone.swap
  | sizes beside differ => exact .sizes beside.swap differ.symm
  | all beside sizes _ cells =>
    refine .all beside.swap sizes.symm fun k x y left right apart => ?_
    exact cells k y x right left (by rw [identicalComm]; exact apart)
  | first beside sizes _ left right apart _ differ before cell =>
    refine .first beside.swap sizes.symm (fun l x y less left right apart => ?_) right left ?_ cell
      differ
    · exact before l y x less right left (by rw [identicalComm]; exact apart)
    · rw [identicalComm]
      exact apart

namespace Value

variable {s : Store} {n m : Nat} {a b : Value} {i j : Nat}

inductive Pairing (a b : Value) : Prop where
  | plain (h : (a.isArray || b.isArray) = false)
  | lone (kind : String) (h : Lone a b kind)
  | beside (i j : Nat) (h : Beside a b i j)

theorem arrayIs (h : a.isArray = true) : ∃ i, a = .array i := by
  cases a with
  | array i => exact ⟨i, rfl⟩
  | _ => cases h

theorem pairing (a b : Value) : Pairing a b := by
  cases array : (a.isArray || b.isArray) with
  | false => exact .plain array
  | true =>
    rcases Bool.or_eq_true_iff.mp array with left | right
    · obtain ⟨i, rfl⟩ := arrayIs left
      cases right : b.elementsOf? with
      | none => exact .lone _ (.right right)
      | some j => exact .beside i j ⟨array, rfl, right⟩
    · obtain ⟨j, rfl⟩ := arrayIs right
      cases left : a.elementsOf? with
      | none => exact .lone _ (.left left)
      | some i => exact .beside i j ⟨array, left, rfl⟩

def equalCells (s : Store) (n i j : Nat) : Except Fault Bool :=
  if (s.elements i).size = (s.elements j).size then
    equalAll (equalWith s n) (s.elements i).toList (s.elements j).toList
  else .ok false

theorem equalPlain (h : (a.isArray || b.isArray) = false) :
    equalWith s (n + 1) a b = (Verdict.of (a.plainEqual b)).outcome := by
  unfold equalWith
  rw [Verdict.ofOutcome, if_neg (by simp [h])]
  cases a <;> cases b <;> rfl

theorem equalLone {kind : String} (h : Lone a b kind) :
    equalWith s (n + 1) a b = (Verdict.clash kind).outcome := by
  cases h with
  | right none =>
    unfold equalWith
    rw [if_pos (by rfl), arraysOf, none]
    rfl
  | left none =>
    unfold equalWith
    rw [if_pos (by simp [isArray]), arraysOf, none]
    rfl

theorem equalBeside (h : Beside a b i j) : equalWith s (n + 1) a b = equalCells s n i j := by
  unfold equalWith equalCells
  rw [if_pos h.array, arraysOf, h.left, h.right]
  simp only [beq_iff_eq]
  rfl

def SameUpTo (eq : Value → Value → Except Fault Bool) (as bs : List Value) (k : Nat) : Prop :=
  ∀ l x y, l < k → as[l]? = some x → bs[l]? = some y → x.identical y = false → eq x y = .ok true

inductive First (eq : Value → Value → Except Fault Bool) (as bs : List Value) :
    Except Fault Bool → Prop where
  | none (all : SameUpTo eq as bs as.length) : First eq as bs (.ok true)
  | found {k : Nat} {x y : Value} (before : SameUpTo eq as bs k) (left : as[k]? = some x)
      (right : bs[k]? = some y) (apart : x.identical y = false) (differ : eq x y ≠ .ok true) :
      First eq as bs (eq x y)

variable {eq eq' : Value → Value → Except Fault Bool} {as bs : List Value}

theorem SameUpTo.cons {k : Nat} (head : a.identical b = false → eq a b = .ok true)
    (tail : SameUpTo eq as bs k) : SameUpTo eq (a :: as) (b :: bs) (k + 1) := by
  intro l x y less left right
  cases l with
  | zero =>
    cases left
    cases right
    exact head
  | succ l => exact tail l x y (Nat.lt_of_succ_lt_succ less) left right

theorem First.cons {r : Except Fault Bool} (head : a.identical b = false → eq a b = .ok true)
    (tail : First eq as bs r) : First eq (a :: as) (b :: bs) r := by
  cases tail with
  | none all => exact .none (all.cons head)
  | found before left right apart differ => exact .found (before.cons head) left right apart differ

theorem firstOf : ∀ {as bs : List Value}, as.length = bs.length →
    First eq as bs (equalAll eq as bs)
  | [], [], _ => .none fun _ _ _ less => absurd less (Nat.not_lt_zero _)
  | a :: as, b :: bs, sizes => by
    have tail : First eq as bs (equalAll eq as bs) := firstOf (Nat.succ.inj sizes)
    rw [equalAll]
    cases apart : a.identical b with
    | true => exact tail.cons fun same => by rw [apart] at same; cases same
    | false =>
      have before : SameUpTo eq (a :: as) (b :: bs) 0 := fun _ _ _ less => absurd less (Nat.not_lt_zero _)
      cases cell : eq a b with
      | ok same =>
        cases same with
        | true => exact tail.cons fun _ => cell
        | false =>
          have differ : eq a b ≠ .ok true := by rw [cell]; simp
          have found := First.found before rfl rfl apart differ
          rw [cell] at found
          exact found
      | error f =>
        have differ : eq a b ≠ .ok true := by rw [cell]; simp
        have found := First.found before rfl rfl apart differ
        rw [cell] at found
        exact found

theorem First.place {k : Nat} {x y : Value} {r : Except Fault Bool} (h : First eq as bs r)
    (before : SameUpTo eq as bs k) (left : as[k]? = some x) (right : bs[k]? = some y)
    (apart : x.identical y = false) (differ : eq x y ≠ .ok true) : r = eq x y := by
  cases h with
  | none all =>
    have inside : k < as.length := (List.getElem?_eq_some_iff.mp left).1
    exact absurd (all k x y inside left right apart) differ
  | @found l x' y' before' left' right' apart' differ' =>
    rcases Nat.lt_trichotomy k l with less | rfl | less
    · exact absurd (before' k x y less left right apart) differ
    · cases left.symm.trans left'
      cases right.symm.trans right'
      rfl
    · exact absurd (before l x' y' less left' right' apart') differ'

theorem First.none_iff {r : Except Fault Bool} (h : First eq as bs r) :
    r = .ok true ↔ SameUpTo eq as bs as.length := by
  cases h with
  | none all => exact iff_of_true rfl all
  | found before left right apart differ =>
    refine iff_of_false differ fun all => differ ?_
    exact all _ _ _ (List.getElem?_eq_some_iff.mp left).1 left right apart

def Extends (eq eq' : Value → Value → Except Fault Bool) : Prop :=
  ∀ x y, eq x y ≠ .error .recursion → eq' x y = eq x y

theorem SameUpTo.extend {k : Nat} (more : Extends eq eq') (h : SameUpTo eq as bs k) :
    SameUpTo eq' as bs k := by
  intro l x y less left right apart
  have same := h l x y less left right apart
  rw [more x y (by rw [same]; simp), same]

theorem First.extend {r r' : Except Fault Bool} (more : Extends eq eq') (h : First eq as bs r)
    (h' : First eq' as bs r') (ends : r ≠ .error .recursion) : r' = r := by
  cases h with
  | none all => exact h'.none_iff.mpr (all.extend more)
  | @found k x y before left right apart differ =>
    have same := more x y ends
    rw [← same] at differ ⊢
    exact h'.place (before.extend more) left right apart differ

theorem cellsExtend (more : Extends (equalWith s n) (equalWith s m))
    (ends : equalCells s n i j ≠ .error .recursion) : equalCells s m i j = equalCells s n i j := by
  unfold equalCells at ends ⊢
  split
  · next sizes =>
    rw [if_pos sizes] at ends
    have lengths : (s.elements i).toList.length = (s.elements j).toList.length := by simpa using sizes
    exact (firstOf lengths).extend more (firstOf lengths) ends
  · rfl

theorem equalExtends (less : n ≤ m) : Extends (equalWith s n) (equalWith s m) := by
  induction n generalizing m with
  | zero => exact fun _ _ ends => absurd rfl ends
  | succ n ih =>
    obtain ⟨m, rfl⟩ : ∃ k, m = k + 1 := ⟨m - 1, by omega⟩
    intro a b ends
    cases pairing a b with
    | plain h => rw [equalPlain h, equalPlain h]
    | lone kind h => rw [equalLone h, equalLone h]
    | beside i j h =>
      rw [equalBeside h] at ends ⊢
      rw [equalBeside h]
      exact cellsExtend (ih (Nat.le_of_succ_le_succ less)) ends

theorem cellsLengths (sizes : (s.elements i).size = (s.elements j).size) :
    (s.elements i).toList.length = (s.elements j).toList.length := by
  simpa using sizes

theorem judgedOf (ends : equalWith s n a b ≠ .error .recursion) :
    ∃ w, Judged s a b w ∧ equalWith s n a b = w.outcome := by
  induction n generalizing a b with
  | zero => exact absurd rfl ends
  | succ n ih =>
    cases pairing a b with
    | plain h => exact ⟨_, .plain h, equalPlain h⟩
    | lone kind h => exact ⟨_, .lone h, equalLone h⟩
    | beside i j h =>
      rw [equalBeside h] at ends ⊢
      unfold equalCells at ends ⊢
      by_cases sizes : (s.elements i).size = (s.elements j).size
      · rw [if_pos sizes] at ends ⊢
        have cell : ∀ {x y}, equalWith s n x y = .ok true → Judged s x y .same := by
          intro x y same
          obtain ⟨w, judged, outcome⟩ := ih (a := x) (b := y) (by rw [same]; simp)
          rw [same] at outcome
          rwa [← Verdict.sameOutcome.mp outcome.symm]
        generalize result : equalAll (equalWith s n) _ _ = r at ends ⊢
        have first : First (equalWith s n) _ _ r := result ▸ firstOf (cellsLengths sizes)
        cases first with
        | none all =>
          refine ⟨.same, .all h sizes fun k x y left right apart => ?_, rfl⟩
          rw [← Array.getElem?_toList] at left right
          exact cell (all k x y (List.getElem?_eq_some_iff.mp left).1 left right apart)
        | found before left right apart differ =>
          obtain ⟨w, judged, outcome⟩ := ih ends
          rw [Array.getElem?_toList] at left right
          refine ⟨w, .first h sizes (fun l x y less left right apart => ?_) left right apart judged
            fun same => differ (by rw [outcome, same]; rfl), outcome⟩
          rw [← Array.getElem?_toList] at left right
          exact cell (before l x y less left right apart)
      · rw [if_neg sizes]
        exact ⟨.other, .sizes h sizes, rfl⟩

theorem sameUpToOf {k : Nat} (cells : ∀ l x y, l < k → as[l]? = some x → bs[l]? = some y →
    x.identical y = false → ∃ n, equalWith s n x y = .ok true) :
    ∃ n, SameUpTo (equalWith s n) as bs k := by
  have each : ∀ l, ∃ n, ∀ x y, l < k → as[l]? = some x → bs[l]? = some y →
      x.identical y = false → equalWith s n x y = .ok true := by
    intro l
    by_cases found : ∃ x y, l < k ∧ as[l]? = some x ∧ bs[l]? = some y ∧ x.identical y = false
    · obtain ⟨x, y, less, left, right, apart⟩ := found
      obtain ⟨n, same⟩ := cells l x y less left right apart
      refine ⟨n, fun x' y' _ left' right' _ => ?_⟩
      cases left.symm.trans left'
      cases right.symm.trans right'
      exact same
    · exact ⟨0, fun x y less left right apart => absurd ⟨x, y, less, left, right, apart⟩ found⟩
  choose fuel enough using each
  refine ⟨(Finset.range k).sup fuel, fun l x y less left right apart => ?_⟩
  have same := enough l x y less left right apart
  have within : fuel l ≤ (Finset.range k).sup fuel := Finset.le_sup (Finset.mem_range.mpr less)
  rw [equalExtends within x y (by rw [same]; simp), same]

theorem judgedReached {w : Verdict} (h : Judged s a b w) : ∃ n, equalWith s n a b = w.outcome := by
  induction h with
  | plain plain => exact ⟨1, equalPlain plain⟩
  | lone lone => exact ⟨1, equalLone lone⟩
  | sizes beside differ =>
    refine ⟨1, ?_⟩
    rw [equalBeside beside, equalCells, if_neg differ]
    rfl
  | @all _ _ i j beside sizes _ cells =>
    obtain ⟨n, same⟩ : ∃ n, SameUpTo (equalWith s n) (s.elements i).toList (s.elements j).toList
        (s.elements i).toList.length := by
      refine sameUpToOf fun k x y _ left right apart => ?_
      rw [Array.getElem?_toList] at left right
      exact cells k x y left right apart
    refine ⟨n + 1, ?_⟩
    rw [equalBeside beside, equalCells, if_pos sizes]
    exact (firstOf (cellsLengths sizes)).none_iff.mpr same
  | @first _ _ x y i j k w beside sizes _ left right apart _ differ before cell =>
    obtain ⟨n, same⟩ :
        ∃ n, SameUpTo (equalWith s n) (s.elements i).toList (s.elements j).toList k := by
      refine sameUpToOf fun l x y less left right apart => ?_
      rw [Array.getElem?_toList] at left right
      exact before l x y less left right apart
    obtain ⟨m, outcome⟩ := cell
    have ends : equalWith s m x y ≠ .error .recursion := by
      rw [outcome]
      exact w.outcomeEnds
    have outcome : equalWith s (max n m) x y = w.outcome := by
      rw [equalExtends (Nat.le_max_right n m) x y ends, outcome]
    have other : equalWith s (max n m) x y ≠ .ok true := by
      rw [outcome]
      exact fun same => differ (Verdict.sameOutcome.mp same)
    rw [← Array.getElem?_toList] at left right
    refine ⟨max n m + 1, ?_⟩
    rw [equalBeside beside, equalCells, if_pos sizes, ← outcome]
    exact (firstOf (cellsLengths sizes)).place (same.extend (equalExtends (Nat.le_max_left n m)))
      left right apart other

theorem equalAgree (ends : equalWith s n a b ≠ .error .recursion)
    (ends' : equalWith s m a b ≠ .error .recursion) : equalWith s n a b = equalWith s m a b := by
  rcases Nat.le_total n m with less | less
  · exact (equalExtends less a b ends).symm
  · exact equalExtends less a b ends'

structure Level (s : Store) (n i j : Nat) : Prop where
  soon : equalCells s n i j = .error .recursion
  late : equalCells s (n + 1) i j ≠ .error .recursion

theorem Level.inside (h : Level s n i j) : i < s.arrays.size ∧ j < s.arrays.size := by
  have soon := h.soon
  unfold equalCells at soon
  split at soon
  · next sizes =>
    have full : (s.elements i).size ≠ 0 := by
      intro empty
      have left : (s.elements i).toList = [] := by simpa using empty
      have right : (s.elements j).toList = [] := by simpa using sizes.symm.trans empty
      rw [left, right] at soon
      cases soon
    have bound : ∀ {k}, (s.elements k).size ≠ 0 → k < s.arrays.size := by
      intro k full
      refine Classical.byContradiction fun out => full ?_
      simp [Store.elements, out]
    exact ⟨bound full, bound (sizes ▸ full)⟩
  · cases soon

theorem Level.below (h : Level s (n + 1) i j) : ∃ i' j', Level s n i' j' := by
  obtain ⟨soon, late⟩ := h
  unfold equalCells at soon late
  by_cases sizes : (s.elements i).size = (s.elements j).size
  · rw [if_pos sizes] at soon late
    generalize result : equalAll (equalWith s (n + 1)) _ _ = r at soon
    have first : First (equalWith s (n + 1)) _ _ r := result ▸ firstOf (cellsLengths sizes)
    cases first with
    | none all => cases soon
    | @found k x y before left right apart differ =>
      have late : equalWith s (n + 2) x y ≠ .error .recursion := by
        intro same
        have other : equalWith s (n + 2) x y ≠ .ok true := by rw [same]; simp
        refine late (((firstOf (cellsLengths sizes)).place ?_ left right apart other).trans same)
        exact before.extend (equalExtends (Nat.le_succ _))
      cases pairing x y with
      | plain h =>
        rw [equalPlain h] at soon
        exact absurd soon (Verdict.outcomeEnds _)
      | lone kind h =>
        rw [equalLone h] at soon
        exact absurd soon (Verdict.outcomeEnds _)
      | beside i' j' h =>
        rw [equalBeside h] at soon late
        exact ⟨i', j', soon, late⟩
  · rw [if_neg sizes] at soon
    cases soon

theorem Level.downTo (h : Level s n i j) {k : Nat} (less : k ≤ n) : ∃ i' j', Level s k i' j' := by
  induction n generalizing i j with
  | zero => exact ⟨i, j, Nat.le_zero.mp less ▸ h⟩
  | succ n ih =>
    rcases Nat.le_succ_iff.mp less with smaller | rfl
    · obtain ⟨i', j', lower⟩ := h.below
      exact ih lower smaller
    · exact ⟨i, j, h⟩

theorem Level.unique {k : Nat} (h : Level s n i j) (h' : Level s k i j) : n = k := by
  have apart : ∀ {n k}, Level s n i j → Level s k i j → ¬n < k := by
    intro n k h h' less
    have same := cellsExtend (equalExtends (Nat.succ_le_of_lt less)) h.late
    exact h.late (same.symm.trans h'.soon)
  have := apart h h'
  have := apart h' h
  omega

/- All fuels up to the needed one are needed by two arrays each, and for each by others. -/
theorem Level.bound (h : Level s n i j) : n < s.arrays.size * s.arrays.size := by
  have each : ∀ k : Fin (n + 1), ∃ i' j', Level s k i' j' :=
    fun k => h.downTo (Nat.le_of_lt_succ k.isLt)
  choose left right level using each
  let place (k : Fin (n + 1)) : Fin s.arrays.size × Fin s.arrays.size :=
    (⟨left k, (level k).inside.1⟩, ⟨right k, (level k).inside.2⟩)
  have injective : Function.Injective place := by
    intro k k' same
    obtain ⟨same, same'⟩ := Prod.mk.inj same
    have level' := level k'
    rw [← Fin.mk.inj same, ← Fin.mk.inj same'] at level'
    exact Fin.ext ((level k).unique level')
  have count := Fintype.card_le_of_injective place injective
  rw [Fintype.card_prod, Fintype.card_fin, Fintype.card_fin] at count
  exact count

theorem equalEnds (h : equalWith s n a b ≠ .error .recursion) : a.equal s b ≠ .error .recursion := by
  unfold equal
  cases pairing a b with
  | plain h =>
    rw [equalPlain h]
    exact Verdict.outcomeEnds _
  | lone kind h =>
    rw [equalLone h]
    exact Verdict.outcomeEnds _
  | beside i j beside =>
    rw [equalBeside beside]
    intro soon
    have some : ∃ k, equalCells s (s.arrays.size * s.arrays.size + 1 + k) i j ≠ .error .recursion := by
      refine ⟨n, fun never => ?_⟩
      have longer := equalExtends (s := s) (show n ≤ s.arrays.size * s.arrays.size + 1 + n + 1 by omega)
        a b h
      rw [equalBeside beside, never] at longer
      exact h longer.symm
    classical
    cases least : Nat.find some with
    | zero => exact (least ▸ Nat.find_spec some) soon
    | succ k =>
      have late := Nat.find_spec some
      rw [least] at late
      have level : Level s (s.arrays.size * s.arrays.size + 1 + k) i j :=
        ⟨Classical.not_not.mp (Nat.find_min some (by omega)), late⟩
      have := level.bound
      omega

theorem equalIff (s : Store) (a b : Value) (w : Verdict) :
    a.equal s b = w.outcome ↔ Judged s a b w := by
  constructor
  · intro outcome
    obtain ⟨v, judged, same⟩ := judgedOf (n := s.arrays.size * s.arrays.size + 2)
      (by rw [show equalWith s _ a b = w.outcome from outcome]; exact w.outcomeEnds)
    rwa [Verdict.outcomeInjective (outcome.symm.trans same)]
  · intro judged
    obtain ⟨n, outcome⟩ := judgedReached judged
    have ends : equalWith s n a b ≠ .error .recursion := by
      rw [outcome]
      exact w.outcomeEnds
    exact (equalAgree (equalEnds ends) ends).trans outcome

theorem endlessIff (s : Store) (a b : Value) :
    a.equal s b = .error .recursion ↔ ¬∃ w, Judged s a b w := by
  constructor
  · rintro endless ⟨w, judged⟩
    exact w.outcomeEnds (((equalIff s a b w).mpr judged).symm.trans endless)
  · intro none
    refine Classical.byContradiction fun ends => none ?_
    obtain ⟨w, judged, -⟩ := judgedOf ends
    exact ⟨w, judged⟩

theorem equalComm (s : Store) (a b : Value) : a.equal s b = b.equal s a := by
  by_cases ends : ∃ w, Judged s a b w
  · obtain ⟨w, judged⟩ := ends
    rw [(equalIff s a b w).mpr judged, (equalIff s b a w).mpr judged.swap]
  · have back : ¬∃ w, Judged s b a w := fun ⟨w, judged⟩ => ends ⟨w, judged.swap⟩
    rw [(endlessIff s a b).mpr ends, (endlessIff s b a).mpr back]

end Value

theorem Store.Finite.judged {s : Store} {a : Value} (h : s.Finite a) (b : Value) :
    ∃ w, Judged s a b w := by
  induction h generalizing b with
  | @leaf a none =>
    cases pairing a b with
    | plain h => exact ⟨_, .plain h⟩
    | lone kind h => exact ⟨_, .lone h⟩
    | beside i j h => cases none.symm.trans h.left
  | @held a i has parts ih =>
    cases pairing a b with
    | plain h => exact ⟨_, .plain h⟩
    | lone kind h => exact ⟨_, .lone h⟩
    | beside i' j h =>
      cases has.symm.trans h.left
      by_cases sizes : (s.elements i).size = (s.elements j).size
      · by_cases apart : ∃ (k : Nat) (x y : Value), (s.elements i)[k]? = some x ∧
          (s.elements j)[k]? = some y ∧ x.identical y = false ∧ ¬Judged s x y .same
        · classical
          obtain ⟨x, y, left, right, apart', differ⟩ := Nat.find_spec apart
          obtain ⟨w, judged⟩ := ih x (Array.mem_of_getElem? left) y
          refine ⟨w, .first h sizes (fun l x y less left right apart' => ?_) left right apart' judged
            fun same => differ (same ▸ judged)⟩
          exact Classical.byContradiction fun differ =>
            Nat.find_min apart less ⟨x, y, left, right, apart', differ⟩
        · refine ⟨.same, .all h sizes fun k x y left right apart' => ?_⟩
          exact Classical.byContradiction fun differ => apart ⟨k, x, y, left, right, apart', differ⟩
      · exact ⟨.other, .sizes h sizes⟩

namespace Value

def leads {α : Type} (v : Value) (yes no : Eval α) : Eval α :=
  match v with
  | .array _ => Eval.fail (.absent "elements")
  | .nil => no
  | .bool false => no
  | _ => yes

theorem truthLeads {α : Type} (v : Value) (yes no : Eval α) :
    (do if ← Eval.lift v.truth then yes else no) = v.leads yes no := by
  cases v with
  | datum d =>
    cases d with
    | bool b => cases b <;> rfl
    | _ => rfl
  | _ => rfl

theorem truthFails (v : Value) (f : Fault) :
    v.truth = .error f ↔ v.isArray = true ∧ f = .absent "elements" := by
  cases v with
  | datum d => cases d <;> simp [truth, isArray]
  | array i => simp [truth, isArray, eq_comm]
  | _ => simp [truth, isArray]

theorem truthFalse (v : Value) : v.truth = .ok false ↔ v = .nil ∨ v = .bool false := by
  cases v with
  | datum d => cases d <;> simp [truth]
  | _ => simp [truth]

end Value

namespace Eval

def answer (x : Except Fault Bool) : Eval Value := do
  return .bool (← lift x)

structure Compares (m : Machine) (a b : Value) : Prop where
  verdict : ∀ w : Verdict, a.equal m.store b = w.outcome ↔ Judged m.store a b w
  ends : m.store.Finite a ∨ m.store.Finite b → ∃ w, Judged m.store a b w
  endless : (¬∃ w, Judged m.store a b w) → a.equal m.store b = .error .recursion
  sides : a.equal m.store b = b.equal m.store a
  equals : ∀ op : Token, op.kind = .sign .equalEqual →
    binary (some op) a b m = answer (a.equal m.store b) m
  differs : ∀ op : Token, op.kind = .sign .bangEqual →
    binary (some op) a b m = answer (Bool.not <$> a.equal m.store b) m

structure Tests (n : Nat) (e : Expr) : Prop where
  if_ : ∀ yes no : Stmt, execute (n + 1) (.if_ e yes no) = do
    (← evaluate n e).leads (execute n yes) (if no.isMissing then pure () else execute n no)
  while_ : ∀ body : Stmt, execute (n + 2) (.while_ e body) = do
    (← evaluate n e).leads (do execute n body; loop n e body) (pure ())
  and_ : ∀ (op : Token) (r : Expr), op.kind = .keyword .and_ →
    evaluate (n + 1) (.logical e (some op) r) = do
      let v ← evaluate n e
      v.leads (evaluate n r) (pure v)
  or_ : ∀ (op : Token) (r : Expr), op.kind = .keyword .or_ →
    evaluate (n + 1) (.logical e (some op) r) = do
      let v ← evaluate n e
      v.leads (pure v) (evaluate n r)
  not_ : ∀ op : Token, op.kind = .sign .bang →
    evaluate (n + 1) (.unary (some op) e) = do
      (← evaluate n e).leads (pure (.int (-1))) (pure (.int 0))

theorem comparesAll (m : Machine) (a b : Value) : Compares m a b where
  verdict := equalIff m.store a b
  ends := by
    rintro (left | right)
    · exact left.judged b
    · obtain ⟨w, judged⟩ := right.judged a
      exact ⟨w, judged.swap⟩
  endless := (endlessIff m.store a b).mpr
  sides := equalComm m.store a b
  equals := by
    intro op kind
    simp only [binary, opKind, kind, bindRun, pureRun, answer, ask, getRun]
  differs := by
    intro op kind
    simp only [binary, opKind, kind, bindRun, pureRun, answer, ask, getRun]
    cases a.equal m.store b <;> rfl

theorem testsAll (n : Nat) (e : Expr) : Tests n e where
  if_ := by
    intro yes no
    have other : (if (!no.isMissing) = true then execute n no else pure ()) =
        if no.isMissing = true then pure () else execute n no := by
      cases no.isMissing <;> rfl
    rw [execute]
    simp only [other, truthLeads]
  while_ := by
    intro body
    rw [execute, loop]
    simp only [truthLeads]
  and_ := by
    intro op r kind
    rw [evaluate]
    congr 1
    funext v
    rw [← truthLeads]
    simp only [decides, opKind, kind, pure_bind, bind_assoc]
    congr 1
    funext b
    cases b <;> rfl
  or_ := by
    intro op r kind
    rw [evaluate]
    congr 1
    funext v
    rw [← truthLeads]
    simp only [decides, opKind, kind, pure_bind]
  not_ := by
    intro op kind
    rw [evaluate]
    congr 1
    funext v
    rw [← truthLeads]
    simp only [unary, opKind, kind, pure_bind, complement]
    cases v.truth with
    | error f => rfl
    | ok b => cases b <;> rfl

/-- Equality and truth are defined for all values, except that an array cannot be compared with a
value that has no elements, and has no truth. -/
theorem arraysAloneFailComparisons (m : Machine) (a b : Value) (n : Nat) (e : Expr) :
    Compares m a b ∧
      (∀ f, a.truth = .error f ↔ a.isArray = true ∧ f = .absent "elements") ∧
      (a.truth = .ok false ↔ a = .nil ∨ a = .bool false) ∧
      Tests n e :=
  ⟨comparesAll m a b, truthFails a, truthFalse a, testsAll n e⟩

def reportsOn (source : String) : Log :=
  (final (Session.script source.toList (Session.live (.still 0)))).log

theorem arraysFailComparisons :
    reportsOn "var a = Array(true); if (a) print \"yes\"; else print \"no\";" =
        [.runtime (.fault (.absent "elements"))] ∧
      reportsOn "var a = Array(true); print a == \"x\";" =
        [.runtime (.fault (.noMember "str" "elements"))] := by
  decide +kernel

end Eval
end Lox
