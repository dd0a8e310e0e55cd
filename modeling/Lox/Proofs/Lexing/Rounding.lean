import Mathlib.Algebra.Order.Field.Power
import Mathlib.Algebra.Order.Field.Rat
import Mathlib.Tactic.FieldSimp
import Mathlib.Tactic.Linarith
import Mathlib.Tactic.Positivity
import Mathlib.Tactic.Ring
import Lox.Proofs.Lexing.Numerals

/-!
The double that a decimal is read as is the nearest one, and of two nearest the even one. Doubles
past the finite ones count as two to the 1024, and the first of them is infinity.
-/

namespace Lox.Number

def Decimal.rational (d : Decimal) : ℚ := d.digits * 10 ^ d.exponent

def Binary.rational (b : Binary) : ℚ := b.mantissa * 2 ^ b.exponent

def bitsValue (bits : Nat) : ℚ := (Binary.ofBits bits).rational

structure Nearest (q : ℚ) (bits : Nat) : Prop where
  inside : bits ≤ infinityBits
  least : ∀ b ≤ infinityBits, |bitsValue bits - q| ≤ |bitsValue b - q|
  even : ∀ b ≤ infinityBits, |bitsValue bits - q| = |bitsValue b - q| →
    bitsValue b = bitsValue bits ∨ bits % 2 = 0

namespace Binary

/- A mantissa may be one too large: the next double then has it. -/
structure Canonical (b : Binary) : Prop where
  least : -1074 ≤ b.exponent
  below : b.mantissa ≤ 2 ^ 53
  above : b.exponent = -1074 ∨ 2 ^ 52 ≤ b.mantissa

theorem ofBitsEq (bits : Nat) : ofBits bits = if bits / 2 ^ 52 = 0 then ⟨bits % 2 ^ 52, -1074⟩
    else ⟨2 ^ 52 + bits % 2 ^ 52, (bits / 2 ^ 52 : Nat) - 1075⟩ := rfl

theorem bitsEq (m : Nat) (e : Int) : bits ⟨m, e⟩ = (e + 1074).toNat * 2 ^ 52 + m := rfl

theorem ofBitsCanonical (n : Nat) :
    (ofBits n).Canonical ∧ (ofBits n).mantissa < 2 ^ 53 ∧ (ofBits n).bits = n := by
  have low := Nat.mod_lt n (Nat.two_pow_pos 52)
  rw [ofBitsEq]
  split
  · refine ⟨⟨Int.le_refl _, ?_, .inl rfl⟩, ?_, ?_⟩
    · show n % 2 ^ 52 ≤ 2 ^ 53
      omega
    · show n % 2 ^ 52 < 2 ^ 53
      omega
    · have none : ((-1074 : Int) + 1074).toNat = 0 := rfl
      rw [bitsEq, none]
      omega
  · refine ⟨⟨?_, ?_, .inr (Nat.le_add_right _ _)⟩, ?_, ?_⟩
    · show (-1074 : Int) ≤ (n / 2 ^ 52 : Nat) - 1075
      omega
    · show 2 ^ 52 + n % 2 ^ 52 ≤ 2 ^ 53
      omega
    · show 2 ^ 52 + n % 2 ^ 52 < 2 ^ 53
      omega
    · rw [bitsEq]
      omega

theorem Canonical.value {b : Binary} (h : b.Canonical) : bitsValue b.bits = b.rational := by
  obtain ⟨m, e⟩ := b
  obtain ⟨least, below, above⟩ := h
  dsimp only at least below above
  unfold bitsValue
  rw [bitsEq, ofBitsEq]
  by_cases small : m < 2 ^ 52
  · obtain rfl : e = -1074 := by omega
    have none : ((-1074 : Int) + 1074).toNat = 0 := rfl
    rw [none, if_pos (by omega)]
    congr 2
    omega
  rw [if_neg (by omega)]
  by_cases carried : m = 2 ^ 53
  · subst carried
    have low : ((e + 1074).toNat * 2 ^ 52 + 2 ^ 53) % 2 ^ 52 = 0 := by omega
    have field : (((e + 1074).toNat * 2 ^ 52 + 2 ^ 53) / 2 ^ 52 : Nat) - 1075 = e + 1 := by omega
    rw [low, field, rational, rational, zpow_add_one₀ two_ne_zero]
    norm_num
    ring
  · congr 2
    · omega
    · omega

theorem Canonical.next {b : Binary} (h : b.Canonical) (small : b.mantissa < 2 ^ 53) :
    Canonical ⟨b.mantissa + 1, b.exponent⟩ := by
  refine ⟨h.least, small, ?_⟩
  exact h.above.imp_right fun le => Nat.le_succ_of_le le

end Binary

theorem valueMono : Monotone bitsValue := by
  refine monotone_nat_of_le_succ fun n => ?_
  obtain ⟨canonical, small, same⟩ := Binary.ofBitsCanonical n
  unfold bitsValue
  generalize Binary.ofBits n = b at canonical small same ⊢
  have next := (canonical.next small).value
  rw [Binary.bitsEq, ← Nat.add_assoc, ← Binary.bitsEq, same] at next
  show b.rational ≤ bitsValue (n + 1)
  rw [next]
  refine mul_le_mul_of_nonneg_right ?_ (by positivity)
  exact_mod_cast Nat.le_succ _

theorem valueInfinity : bitsValue infinityBits = 2 ^ 1024 := by
  have bits : infinityBits = Binary.bits ⟨2 ^ 52, 972⟩ := rfl
  rw [bits, Binary.Canonical.value ⟨by decide, by decide, .inr (Nat.le_refl _)⟩, Binary.rational,
    Nat.cast_pow, Nat.cast_ofNat, zpow_ofNat, ← pow_add]

theorem infinityEven : infinityBits % 2 = 0 := by decide

variable {num den n d k : Nat} {u : Int}

theorem roundEvenBounds (n d : Nat) : n / d ≤ roundEven n d ∧ roundEven n d ≤ n / d + 1 := by
  unfold roundEven
  dsimp only
  split
  · omega
  split
  · omega
  · omega

theorem roundEvenNearest (positive : 0 < d) (k : Nat) :
    ((roundEven n d * d : Nat) - n : Int).natAbs ≤ ((k * d : Nat) - n : Int).natAbs ∧
    (((roundEven n d * d : Nat) - n : Int).natAbs = ((k * d : Nat) - n : Int).natAbs →
      k = roundEven n d ∨ roundEven n d % 2 = 0) := by
  have parts := Nat.div_add_mod' n d
  have small := Nat.mod_lt n positive
  have next : (n / d + 1) * d = n / d * d + d := Nat.succ_mul _ _
  have sides : k * d ≤ n / d * d ∧ (k ≠ n / d → k * d + d ≤ n / d * d) ∨
      n / d * d + d ≤ k * d ∧ (k ≠ n / d + 1 → n / d * d + d < k * d) := by
    rcases Nat.lt_trichotomy k (n / d) with less | same | more
    · have le := Nat.mul_le_mul_right d (Nat.succ_le_of_lt less)
      rw [Nat.succ_mul] at le
      exact .inl ⟨by omega, fun _ => le⟩
    · exact .inl ⟨by rw [same], fun other => absurd same other⟩
    · have le : (n / d + 1) * d ≤ k * d := Nat.mul_le_mul_right d more
      refine .inr ⟨by omega, fun other => ?_⟩
      have lt : (n / d + 1) * d < k * d :=
        Nat.mul_lt_mul_of_pos_right (Nat.lt_of_le_of_ne more (Ne.symm other)) positive
      omega
  unfold roundEven
  dsimp only
  split
  · omega
  split
  · rw [next]
    omega
  · rcases Nat.mod_two_eq_zero_or_one (n / d) with even | odd
    · rw [even, Nat.add_zero]
      omega
    · rw [odd, next]
      omega

theorem inUnitsPositive (num : Nat) (hd : 0 < den) (u : Int) : 0 < (inUnits num den u).2 := by
  rw [inUnitsEq]
  exact Nat.mul_pos hd (Nat.two_pow_pos _)

theorem inUnitsValue (hd : 0 < den) (u : Int) :
    (num / den : ℚ) = (inUnits num den u).1 / (inUnits num den u).2 * 2 ^ u := by
  have positive : (den : ℚ) ≠ 0 := by exact_mod_cast Nat.ne_of_gt hd
  have power : (2 : ℚ) ^ u.toNat = 2 ^ (-u).toNat * 2 ^ u := by
    rw [← zpow_natCast, ← zpow_natCast, ← zpow_add₀ two_ne_zero]
    congr 1
    omega
  rw [inUnitsEq]
  push_cast
  rw [power]
  field_simp

theorem inUnitsDistance (hd : 0 < den) (u : Int) (k : Nat) :
    |(k * 2 ^ u - num / den : ℚ)| =
      ((k * (inUnits num den u).2 : Nat) - (inUnits num den u).1 : Int).natAbs *
        (2 ^ u / (inUnits num den u).2) := by
  have positive : (0 : ℚ) < (inUnits num den u).2 := by exact_mod_cast inUnitsPositive num hd u
  have unit : (0 : ℚ) < 2 ^ u / (inUnits num den u).2 := by positivity
  have apart : (k * 2 ^ u - num / den : ℚ) =
      (k * (inUnits num den u).2 - (inUnits num den u).1) * (2 ^ u / (inUnits num den u).2) := by
    rw [inUnitsValue hd u]
    field_simp
  rw [apart, abs_mul, abs_of_pos unit, Nat.cast_natAbs]
  push_cast
  rfl

theorem unitsNearest (num : Nat) (hd : 0 < den) (u : Int) (k : Nat) :
    |(roundedTo num den u).rational - num / den| ≤ |(k * 2 ^ u - num / den : ℚ)| ∧
    (|(roundedTo num den u).rational - num / den| = |(k * 2 ^ u - num / den : ℚ)| →
      k = (roundedTo num den u).mantissa ∨ (roundedTo num den u).mantissa % 2 = 0) := by
  have positive := inUnitsPositive num hd u
  have scaled : (0 : ℚ) < (inUnits num den u).2 := by exact_mod_cast positive
  have unit : (0 : ℚ) < 2 ^ u / (inUnits num den u).2 := by positivity
  obtain ⟨le, tie⟩ := roundEvenNearest (n := (inUnits num den u).1) positive k
  have rounded : (roundedTo num den u).rational =
      roundEven (inUnits num den u).1 (inUnits num den u).2 * 2 ^ u := rfl
  rw [rounded, inUnitsDistance hd, inUnitsDistance hd]
  constructor
  · refine mul_le_mul_of_nonneg_right ?_ unit.le
    exact_mod_cast le
  · intro same
    have equal := mul_right_cancel₀ unit.ne' same
    exact tie (by exact_mod_cast equal)

theorem FitsUnit.full (fits : FitsUnit num den u) (normal : u ≠ -1074) :
    (inUnits num den u).2 * 2 ^ 52 ≤ (inUnits num den u).1 :=
  Nat.le_of_not_lt fun less =>
    fits.above.resolve_left normal ((belowUnits num den u 52).mp less)

theorem roundedCanonical (hd : 0 < den) (fits : FitsUnit num den u) :
    (roundedTo num den u).Canonical := by
  have bounds := roundEvenBounds (inUnits num den u).1 (inUnits num den u).2
  have below := (belowUnits num den u 53).mpr fits.below
  refine ⟨fits.least, Nat.le_trans bounds.2 (Nat.div_lt_of_lt_mul below), ?_⟩
  refine Classical.or_iff_not_imp_left.mpr fun normal => Nat.le_trans ?_ bounds.1
  rw [Nat.le_div_iff_mul_le (inUnitsPositive num hd u), Nat.mul_comm]
  exact fits.full normal

/- Every double is so many units, or less than all fractions that have this unit. -/
theorem roundedNearest (hd : 0 < den) (fits : FitsUnit num den u) (bits : Nat) :
    |(roundedTo num den u).rational - num / den| ≤ |bitsValue bits - num / den| ∧
    (|(roundedTo num den u).rational - num / den| = |bitsValue bits - num / den| →
      bitsValue bits = (roundedTo num den u).rational ∨ (roundedTo num den u).mantissa % 2 = 0) := by
  obtain ⟨canonical, small, -⟩ := Binary.ofBitsCanonical bits
  unfold bitsValue
  generalize Binary.ofBits bits = b at canonical small ⊢
  by_cases coarse : u ≤ b.exponent
  · have units : b.rational = (b.mantissa * 2 ^ (b.exponent - u).toNat : Nat) * 2 ^ u := by
      have power : (2 : ℚ) ^ b.exponent = 2 ^ (b.exponent - u).toNat * 2 ^ u := by
        rw [← zpow_natCast, ← zpow_add₀ two_ne_zero]
        congr 1
        omega
      rw [Binary.rational, power]
      push_cast
      ring
    obtain ⟨le, tie⟩ := unitsNearest num hd u (b.mantissa * 2 ^ (b.exponent - u).toNat)
    rw [units]
    refine ⟨le, fun same => (tie same).imp_left fun equal => ?_⟩
    rw [equal]
    rfl
  · have full := fits.full fun lowest => coarse (lowest ▸ canonical.least)
    have reached : ((2 ^ 52 : Nat) * 2 ^ u : ℚ) ≤ num / den := by
      have positive : (0 : ℚ) < (inUnits num den u).2 := by exact_mod_cast inUnitsPositive num hd u
      rw [inUnitsValue hd u]
      refine mul_le_mul_of_nonneg_right ?_ (by positivity)
      rw [le_div_iff₀ positive, mul_comm]
      exact_mod_cast full
    have finer : b.rational < (2 ^ 52 : Nat) * 2 ^ u := by
      calc b.rational < (2 ^ 53 : Nat) * 2 ^ b.exponent :=
            mul_lt_mul_of_pos_right (by exact_mod_cast small) (by positivity)
        _ ≤ (2 ^ 53 : Nat) * 2 ^ (u - 1) :=
            mul_le_mul_of_nonneg_left (zpow_le_zpow_right₀ one_le_two (by omega)) (by positivity)
        _ = (2 ^ 52 : Nat) * 2 ^ u := by
            rw [zpow_sub_one₀ two_ne_zero]
            norm_num
            ring
    have near := (unitsNearest num hd u (2 ^ 52)).1
    rw [abs_of_nonpos (sub_nonpos.mpr reached)] at near
    generalize ((2 ^ 52 : Nat) * 2 ^ u : ℚ) = edge at reached finer near
    have less : |(roundedTo num den u).rational - num / den| < |b.rational - num / den| := by
      rw [abs_of_nonpos (sub_nonpos.mpr (finer.le.trans reached))]
      linarith
    exact ⟨less.le, fun same => absurd same less.ne⟩

theorem valueBelow {b : Nat} (le : b ≤ infinityBits) : bitsValue b ≤ 2 ^ 1024 := by
  rw [← valueInfinity]
  exact valueMono le

theorem nearestInfinity {q : ℚ} (h : 2 ^ 1024 ≤ q) : Nearest q infinityBits := by
  refine ⟨Nat.le_refl _, fun b le => ?_, fun _ _ _ => .inr infinityEven⟩
  rw [valueInfinity, abs_of_nonpos (sub_nonpos.mpr h),
    abs_of_nonpos (sub_nonpos.mpr ((valueBelow le).trans h))]
  exact neg_le_neg (sub_le_sub_right (valueBelow le) q)

theorem valueZero : bitsValue 0 = 0 := by
  simp [bitsValue, Binary.ofBits, Binary.rational]

theorem valueOne : bitsValue 1 = 2 ^ (-1074 : Int) := by
  simp [bitsValue, Binary.ofBits, Binary.rational]

theorem nearestZero {q : ℚ} (h : 0 ≤ q) (small : 2 * q ≤ 2 ^ (-1074 : Int)) : Nearest q 0 := by
  refine ⟨Nat.zero_le _, fun b le => ?_, fun _ _ _ => .inr rfl⟩
  rw [valueZero, zero_sub, abs_neg, abs_of_nonneg h]
  cases b with
  | zero => rw [valueZero, zero_sub, abs_neg, abs_of_nonneg h]
  | succ b =>
    have reached : bitsValue 1 ≤ bitsValue (b + 1) := valueMono (Nat.le_add_left 1 b)
    rw [valueOne] at reached
    refine le_trans ?_ (le_abs_self _)
    linarith

theorem nearestFraction (hn : 0 < num) (hd : 0 < den) :
    Nearest (num / den) ((nearestBits? num den).getD infinityBits) := by
  have fits := unitOfFits hn hd
  have canonical := roundedCanonical hd fits
  have nearest := roundedNearest hd fits
  unfold nearestBits?
  rw [if_neg (Nat.ne_of_gt hn)]
  generalize roundedTo num den (unitOf num den) = r at canonical nearest ⊢
  generalize (num / den : ℚ) = q at nearest ⊢
  unfold Binary.finiteBits?
  rw [← canonical.value] at nearest
  split
  · next finite =>
    rw [Option.getD_some]
    refine ⟨Nat.le_of_lt finite, fun b _ => (nearest b).1, fun b _ same => ?_⟩
    have bits : r.bits = (r.exponent + 1074).toNat * 2 ^ 52 + r.mantissa := rfl
    refine ((nearest b).2 same).imp_right fun even => ?_
    omega
  · next past =>
    rw [Option.getD_none]
    have beyond : 2 ^ 1024 ≤ bitsValue r.bits := by
      rw [← valueInfinity]
      exact valueMono (Nat.le_of_not_lt past)
    cases le_or_gt (2 ^ 1024) q with
    | inl reached => exact nearestInfinity reached
    | inr less =>
      -- A fraction below infinity is rounded up to it, and no further.
      have near := (nearest infinityBits).1
      rw [valueInfinity, abs_of_pos (sub_pos.mpr less),
        abs_of_pos (sub_pos.mpr (less.trans_le beyond))] at near
      have same : bitsValue infinityBits = bitsValue r.bits :=
        valueInfinity.trans (le_antisymm beyond ((sub_le_sub_iff_right q).mp near))
      refine ⟨Nat.le_refl _, fun b _ => ?_, fun _ _ _ => .inr infinityEven⟩
      rw [same]
      exact (nearest b).1

theorem digitCountBounds (n : Nat) (positive : 0 < n) :
    10 ^ digitCount n ≤ 10 * n ∧ n < 10 ^ digitCount n := by
  induction n using Nat.strongRecOn with
  | _ n ih =>
    by_cases small : n < 10
    · have one : digitCount n = 1 := congrArg List.length (Nat.toDigits_of_lt_base small)
      rw [one]
      omega
    · have rest : 0 < n / 10 := by omega
      have digits := Nat.toDigits_append_toDigits (b := 10) (d := n % 10) (by decide) rest (by omega)
      have length := congrArg List.length digits
      have last : (Nat.toDigits 10 (n % 10)).length = 1 :=
        congrArg List.length (Nat.toDigits_of_lt_base (by omega))
      rw [List.length_append, last, Nat.div_add_mod] at length
      have count : digitCount n = digitCount (n / 10) + 1 := length.symm
      obtain ⟨low, high⟩ := ih (n / 10) (by omega) rest
      rw [count, Nat.pow_succ]
      omega

theorem Decimal.bounds (d : Decimal) (positive : 0 < d.digits) :
    (10 : ℚ) ^ (digitCount d.digits + d.exponent) ≤ 10 * d.rational ∧
      d.rational < 10 ^ (digitCount d.digits + d.exponent) := by
  obtain ⟨low, high⟩ := digitCountBounds d.digits positive
  have tens : (0 : ℚ) < 10 ^ d.exponent := by positivity
  rw [zpow_add₀ (by norm_num), zpow_natCast, rational, ← mul_assoc]
  exact ⟨mul_le_mul_of_nonneg_right (by exact_mod_cast low) tens.le,
    mul_lt_mul_of_pos_right (by exact_mod_cast high) tens⟩

theorem Decimal.fraction (d : Decimal) : d.rational =
    ((d.digits * 10 ^ d.exponent.toNat : Nat) / (10 ^ (-d.exponent).toNat : Nat) : ℚ) := by
  have power : (10 : ℚ) ^ d.exponent.toNat = 10 ^ (-d.exponent).toNat * 10 ^ d.exponent := by
    rw [← zpow_natCast, ← zpow_natCast, ← zpow_add₀ (by norm_num)]
    congr 1
    omega
  unfold rational
  push_cast
  rw [power]
  field_simp

theorem powersOfTwo : (2 : ℚ) ^ (1075 : Int) ≤ 10 ^ (400 : Int) := by
  calc (2 : ℚ) ^ (1075 : Int) ≤ 2 ^ (3 * 400 : Int) := zpow_le_zpow_right₀ one_le_two (by decide)
    _ = (2 ^ (3 : Int)) ^ (400 : Int) := zpow_mul 2 3 400
    _ ≤ 10 ^ (400 : Int) := zpow_le_zpow_left₀ (by decide) (by positivity) (by norm_num)

/-- A decimal is read as the double nearest to it. -/
theorem Decimal.nearest (d : Decimal) : Nearest d.rational d.bits := by
  have nonneg : 0 ≤ d.rational := by
    unfold rational
    positivity
  unfold bits
  dsimp only
  cases Nat.eq_zero_or_pos d.digits with
  | inl zero =>
    have none : d.rational = 0 := by simp [rational, zero]
    rw [if_pos (by simp [zero]), none]
    exact nearestZero (le_refl 0) (by simp)
  | inr positive =>
    obtain ⟨low, high⟩ := d.bounds positive
    generalize (digitCount d.digits + d.exponent : Int) = size at low high ⊢
    simp only [Nat.ne_of_gt positive, decide_false, Bool.false_or, decide_eq_true_eq]
    split
    · next small =>
      refine nearestZero nonneg ?_
      have tiny : (10 : ℚ) ^ size ≤ (2 ^ (1075 : Int))⁻¹ := by
        calc (10 : ℚ) ^ size ≤ 10 ^ (-400 : Int) := zpow_le_zpow_right₀ (by norm_num) (by omega)
          _ = (10 ^ (400 : Int))⁻¹ := zpow_neg 10 400
          _ ≤ (2 ^ (1075 : Int))⁻¹ := inv_anti₀ (by positivity) powersOfTwo
      calc 2 * d.rational ≤ 2 * (2 ^ (1075 : Int))⁻¹ := by linarith
        _ = 2 ^ (1 : Int) * 2 ^ (-1075 : Int) := by rw [zpow_one, zpow_neg]
        _ = 2 ^ (-1074 : Int) := by rw [← zpow_add₀ two_ne_zero]; rfl
    split
    · next large =>
      refine nearestInfinity ?_
      have huge : (10 : ℚ) * 10 ^ (400 : Int) ≤ 10 * d.rational := by
        calc (10 : ℚ) * 10 ^ (400 : Int) = 10 ^ (401 : Int) := by
              rw [mul_comm, ← zpow_add_one₀ (by norm_num)]
              rfl
          _ ≤ 10 ^ size := zpow_le_zpow_right₀ (by norm_num) (by omega)
          _ ≤ 10 * d.rational := low
      calc (2 : ℚ) ^ 1024 = 2 ^ (1024 : Int) := (zpow_natCast 2 1024).symm
        _ ≤ 2 ^ (1075 : Int) := zpow_le_zpow_right₀ one_le_two (by decide)
        _ ≤ 10 ^ (400 : Int) := powersOfTwo
        _ ≤ d.rational := le_of_mul_le_mul_left huge (by norm_num)
    · rw [d.fraction]
      exact nearestFraction (Nat.mul_pos positive (Nat.pow_pos (by decide)))
        (Nat.pow_pos (by decide))

end Lox.Number
