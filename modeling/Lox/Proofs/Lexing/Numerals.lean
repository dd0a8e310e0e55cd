import Mathlib.Algebra.Group.Nat.Defs
import Mathlib.Data.List.Induction
import Lox.Scan

/-!
Numerals and their doubles. The double nearest to a fraction depends on the value of the fraction
alone, so a numeral with zeros trimmed from its end, or with a fraction added, has the double of its
own digits.
-/

namespace Lox.Number

variable {num den k : Nat} {e u v : Int}

def Below (num den : Nat) (e : Int) : Prop :=
  num * 2 ^ (-e).toNat < den * 2 ^ e.toNat

theorem belowIff (a b : Nat) : num * 2 ^ b < den * 2 ^ a ↔ Below num den (a - b) := by
  unfold Below
  obtain le | le := Nat.le_total b a
  · obtain ⟨c, rfl⟩ := Nat.exists_eq_add_of_le le
    have up : ((b + c : Nat) - b : Int).toNat = c := by omega
    have down : (-((b + c : Nat) - b : Int)).toNat = 0 := by omega
    rw [up, down, Nat.add_comm b c, Nat.pow_add, ← Nat.mul_assoc,
      Nat.mul_lt_mul_right (Nat.two_pow_pos b), Nat.pow_zero, Nat.mul_one]
  · obtain ⟨c, rfl⟩ := Nat.exists_eq_add_of_le le
    have up : ((a : Nat) - (a + c : Nat) : Int).toNat = 0 := by omega
    have down : (-((a : Nat) - (a + c : Nat) : Int)).toNat = c := by omega
    rw [up, down, Nat.add_comm a c, Nat.pow_add, ← Nat.mul_assoc,
      Nat.mul_lt_mul_right (Nat.two_pow_pos a), Nat.pow_zero, Nat.mul_one]

theorem Below.mono (h : Below num den u) (le : u ≤ v) : Below num den v := by
  have wider : num * 2 ^ (-u).toNat < den * 2 ^ (u.toNat + (v - u).toNat) := by
    have power := Nat.pow_le_pow_right (Nat.succ_pos 1) (Nat.le_add_right u.toNat (v - u).toNat)
    exact Nat.lt_of_lt_of_le h (Nat.mul_le_mul_left den power)
  have same : ((u.toNat + (v - u).toNat : Nat) : Int) - (-u).toNat = v := by omega
  have below := (belowIff _ _).mp wider
  rwa [same] at below

theorem belowScale (positive : 0 < k) : Below (k * num) (k * den) e ↔ Below num den e := by
  unfold Below
  rw [Nat.mul_assoc, Nat.mul_assoc, Nat.mul_lt_mul_left positive]

theorem belowLog (positive : 0 < den) : Below num den (num.log2 - den.log2 + 1) := by
  have high : num * 2 ^ den.log2 < den * 2 ^ (num.log2 + 1) := by
    calc num * 2 ^ den.log2 ≤ num * den :=
          Nat.mul_le_mul_left num (Nat.log2_self_le (Nat.ne_of_gt positive))
      _ < 2 ^ (num.log2 + 1) * den := Nat.mul_lt_mul_of_pos_right Nat.lt_log2_self positive
      _ = den * 2 ^ (num.log2 + 1) := Nat.mul_comm _ _
  have below := (belowIff _ _).mp high
  have same : ((num.log2 + 1 : Nat) : Int) - den.log2 = num.log2 - den.log2 + 1 := by omega
  rwa [same] at below

theorem notBelowLog (positive : 0 < num) : ¬Below num den (num.log2 - den.log2 - 1) := by
  have low : den * 2 ^ num.log2 ≤ num * 2 ^ (den.log2 + 1) := by
    calc den * 2 ^ num.log2 ≤ den * num :=
          Nat.mul_le_mul_left den (Nat.log2_self_le (Nat.ne_of_gt positive))
      _ ≤ 2 ^ (den.log2 + 1) * num := Nat.mul_le_mul_right num (Nat.le_of_lt Nat.lt_log2_self)
      _ = num * 2 ^ (den.log2 + 1) := Nat.mul_comm _ _
  have same : (num.log2 : Int) - (den.log2 + 1 : Nat) = num.log2 - den.log2 - 1 := by omega
  rw [← same, ← belowIff]
  omega

structure FitsUnit (num den : Nat) (u : Int) : Prop where
  least : -1074 ≤ u
  below : Below num den (u + 53)
  above : u = -1074 ∨ ¬Below num den (u + 52)

theorem FitsUnit.unique (hu : FitsUnit num den u) (hv : FitsUnit num den v) : u = v := by
  have order : ∀ {u v}, FitsUnit num den u → FitsUnit num den v → ¬u < v := by
    intro u v hu hv lt
    cases hv.above with
    | inl lowest =>
      have := hu.least
      omega
    | inr high => exact high (hu.below.mono (by omega))
  have left := order hu hv
  have right := order hv hu
  omega

theorem FitsUnit.scale (positive : 0 < k) (h : FitsUnit (k * num) (k * den) u) :
    FitsUnit num den u := by
  constructor
  · exact h.least
  · exact (belowScale positive).mp h.below
  · cases h.above with
    | inl lowest => exact .inl lowest
    | inr high => exact .inr fun below => high ((belowScale positive).mpr below)

theorem inUnitsEq (num den : Nat) (u : Int) :
    inUnits num den u = (num * 2 ^ (-u).toNat, den * 2 ^ u.toNat) := by
  unfold inUnits
  split
  · next nonnegative =>
    have none : (-u).toNat = 0 := by omega
    simp [none]
  · next negative =>
    have none : u.toNat = 0 := by omega
    simp [none]

theorem belowUnits (num den : Nat) (u : Int) (k : Nat) :
    (inUnits num den u).1 < (inUnits num den u).2 * 2 ^ k ↔ Below num den (u + k) := by
  rw [inUnitsEq]
  show num * 2 ^ (-u).toNat < den * 2 ^ u.toNat * 2 ^ k ↔ _
  rw [Nat.mul_assoc, ← Nat.pow_add, belowIff]
  have same : ((u.toNat + k : Nat) : Int) - (-u).toNat = u + k := by omega
  rw [same]

theorem unitOfFits (hn : 0 < num) (hd : 0 < den) : FitsUnit num den (unitOf num den) := by
  unfold unitOf
  generalize lowest : max ((num.log2 : Int) - den.log2 - 53) (-1074) = low
  dsimp only
  split
  · next fits =>
    have below := (belowUnits num den low 53).mp fits
    constructor
    · omega
    · exact below
    · cases Int.lt_or_le (-1074) ((num.log2 : Int) - den.log2 - 53) with
      | inl fine =>
        have same : low + 52 = num.log2 - den.log2 - 1 := by omega
        rw [same]
        exact .inr (notBelowLog hn)
      | inr coarse => exact .inl (by omega)
  · next fails =>
    constructor
    · omega
    · exact (belowLog hd).mono (by omega)
    · have same : low + 1 + 52 = low + 53 := by omega
      rw [same]
      exact .inr fun below => fails ((belowUnits num den low 53).mpr below)

theorem unitOfScale (hn : 0 < num) (hd : 0 < den) (positive : 0 < k) :
    unitOf (k * num) (k * den) = unitOf num den :=
  ((unitOfFits (Nat.mul_pos positive hn) (Nat.mul_pos positive hd)).scale positive).unique
    (unitOfFits hn hd)

theorem roundEvenScale (n d : Nat) (positive : 0 < k) :
    roundEven (k * n) (k * d) = roundEven n d := by
  have half : 2 * (k * (n % d)) < k * d ↔ 2 * (n % d) < d := by
    rw [Nat.mul_left_comm, Nat.mul_lt_mul_left positive]
  have beyond : k * d < 2 * (k * (n % d)) ↔ d < 2 * (n % d) := by
    rw [Nat.mul_left_comm 2 k, Nat.mul_lt_mul_left positive]
  unfold roundEven
  dsimp only
  rw [Nat.mul_div_mul_left n d positive, Nat.mul_mod_mul_left]
  simp only [half, beyond]

theorem roundedToScale (num den : Nat) (u : Int) (positive : 0 < k) :
    roundedTo (k * num) (k * den) u = roundedTo num den u := by
  simp only [roundedTo, inUnitsEq, Nat.mul_assoc, roundEvenScale _ _ positive]

theorem nearestBitsScale (hd : 0 < den) (positive : 0 < k) :
    nearestBits? (k * num) (k * den) = nearestBits? num den := by
  unfold nearestBits?
  cases Nat.eq_zero_or_pos num with
  | inl zero => rw [if_pos zero, if_pos (by rw [zero, Nat.mul_zero])]
  | inr hn =>
    rw [if_neg (Nat.ne_of_gt hn), if_neg (Nat.ne_of_gt (Nat.mul_pos positive hn)),
      unitOfScale hn hd positive, roundedToScale _ _ _ positive]

theorem digitCountScale {n : Nat} (positive : 0 < n) (k : Nat) :
    digitCount (n * 10 ^ k) = digitCount n + k := by
  induction k with
  | zero => simp
  | succ k ih =>
    have grown : 0 < n * 10 ^ k := Nat.mul_pos positive (Nat.pow_pos (by decide))
    have digits := Nat.toDigits_append_toDigits (b := 10) (d := 0) (by decide) grown (by decide)
    have length := congrArg List.length digits
    have scaled : 10 * (n * 10 ^ k) + 0 = n * 10 ^ (k + 1) := by
      rw [Nat.pow_succ, Nat.add_zero, Nat.mul_comm 10, Nat.mul_assoc]
    rw [scaled, List.length_append] at length
    unfold digitCount at ih ⊢
    rw [← length, ih]
    rfl

theorem bitsScale (n f k : Nat) :
    Decimal.bits ⟨n * 10 ^ k, -((f + k : Nat) : Int)⟩ = Decimal.bits ⟨n, -(f : Int)⟩ := by
  cases Nat.eq_zero_or_pos n with
  | inl zero => simp [Decimal.bits, zero]
  | inr positive =>
    have tens : 0 < 10 ^ k := Nat.pow_pos (by decide)
    have count := digitCountScale positive k
    have size : ((digitCount n + k : Nat) : Int) + -((f + k : Nat) : Int) =
        (digitCount n : Int) + -(f : Int) := by omega
    have shrinks : ∀ j : Nat, (-(j : Int)).toNat = 0 := fun j => by omega
    have grows : ∀ j : Nat, (- -(j : Int)).toNat = j := fun j => by omega
    have nonzero : ¬n * 10 ^ k = 0 := Nat.ne_of_gt (Nat.mul_pos positive tens)
    have nearest := @nearestBitsScale n (10 ^ f) (10 ^ k) (Nat.pow_pos (by decide)) tens
    unfold Decimal.bits
    dsimp only
    rw [count, size]
    simp only [nonzero, Nat.ne_of_gt positive, decide_false, Bool.false_or, shrinks, grows]
    show (if _ then _ else if _ then _ else
      (nearestBits? (n * 10 ^ k * 10 ^ 0) (10 ^ (f + k))).getD _) =
      if _ then _ else if _ then _ else (nearestBits? (n * 10 ^ 0) (10 ^ f)).getD _
    rw [Nat.pow_zero, Nat.mul_one, Nat.mul_one, Nat.mul_comm n, Nat.add_comm f k, Nat.pow_add,
      nearest]

theorem toDoubleScale (negative : Bool) (n f k : Nat) :
    Decimal.toDouble negative ⟨n * 10 ^ k, -((f + k : Nat) : Int)⟩ =
      Decimal.toDouble negative ⟨n, -(f : Int)⟩ := by
  unfold Decimal.toDouble
  rw [bitsScale]

theorem digitsValueZeros (ds : List Char) (k : Nat) :
    digitsValue (ds ++ List.replicate k '0') = digitsValue ds * 10 ^ k := by
  induction k with
  | zero => simp
  | succ k ih =>
    unfold digitsValue at ih ⊢
    rw [List.replicate_succ', ← List.append_assoc, List.foldl_append, ih, Nat.pow_succ,
      ← Nat.mul_assoc, List.foldl_cons, List.foldl_nil, Nat.mul_comm _ 10]
    rfl

theorem digitRange {c : Char} (h : c.isDigit = true) : 48 ≤ c.toNat ∧ c.toNat ≤ 57 := by
  simpa [Char.isDigit, UInt32.le_iff_toNat_le] using h

def InNumeral (c : Char) : Prop := c.isDigit = true ∨ c = '.'

theorem InNumeral.range {c : Char} (h : InNumeral c) : 46 ≤ c.toNat ∧ c.toNat ≤ 57 := by
  cases h with
  | inl digit =>
    have := digitRange digit
    omega
  | inr point => subst point; decide

theorem prepareNumeral {cs : List Char} (h : ∀ c ∈ cs, InNumeral c) : prepare cs = cs := by
  have ascii : cs.map toAscii = cs := by
    have same : ∀ c ∈ cs, toAscii c = c := by
      intro c mem
      have low : c.toNat < 0x7f := by
        have := (h c mem).range
        omega
      simp [toAscii, low]
    rw [List.map_congr_left same, List.map_id']
  have kept : ∀ ds : List Char, (∀ c ∈ ds, InNumeral c) → ds.dropWhile Text.isAsciiBlank = ds := by
    intro ds inside
    cases ds with
    | nil => rfl
    | cons d ds =>
      have range := (inside d (List.mem_cons_self ..)).range
      have apart : Text.isAsciiBlank d = false := by
        have : d ≠ ' ' := by
          intro same
          subst same
          simp at range
        simp [Text.isAsciiBlank, this]
        omega
      simp [apart]
  have back := kept cs.reverse fun c mem => h c (List.mem_reverse.mp mem)
  simp [prepare, strip, ascii, kept cs h, back]

theorem dropUnderscoresNone {cs : List Char} (h : ∀ c ∈ cs, InNumeral c) (p : Bool) :
    dropUnderscores? p cs = some cs := by
  induction cs generalizing p with
  | nil => rfl
  | cons c cs ih =>
    have plain : c ≠ '_' := by
      intro same
      subst same
      simpa using (h '_' (List.mem_cons_self ..)).range
    have rest := ih (fun d mem => h d (List.mem_cons_of_mem _ mem))
    simp [dropUnderscores?, plain, rest]

def Digits (ds : List Char) : Prop := ds ≠ [] ∧ ∀ c ∈ ds, c.isDigit = true

instance (ds : List Char) : Decidable (Digits ds) :=
  decidable_of_iff ((!ds.isEmpty && ds.all Char.isDigit) = true) (by simp [Digits])

variable {ds fs : List Char}

theorem takeSignDigits (h : Digits ds) (rest : List Char) :
    takeSign (ds ++ rest) = (false, ds ++ rest) := by
  cases ds with
  | nil => exact absurd rfl h.1
  | cons d ds =>
    have range := digitRange (h.2 d (List.mem_cons_self ..))
    unfold takeSign
    split
    · next same =>
      rw [(List.cons.inj same).1] at range
      simp at range
    · next same =>
      rw [(List.cons.inj same).1] at range
      simp at range
    · rfl

theorem Digits.noPoint (h : Digits ds) : '.' ∉ ds :=
  fun mem => absurd (h.2 _ mem) (by decide)

theorem takeDigits (whole : Digits ds) (rest : List Char) :
    (ds ++ '.' :: rest).takeWhile Char.isDigit = ds := by
  rw [List.takeWhile_append_of_pos whole.2]
  simp

theorem dropDigits (whole : Digits ds) (rest : List Char) :
    (ds ++ '.' :: rest).dropWhile Char.isDigit = '.' :: rest := by
  rw [List.dropWhile_append_of_pos whole.2]
  simp

theorem readDecimalPoint (whole : Digits ds) (fraction : ∀ c ∈ fs, c.isDigit = true) :
    readDecimal? (ds ++ '.' :: fs) = some ⟨digitsValue (ds ++ fs), -(fs.length : Int)⟩ := by
  have after : fs.takeWhile Char.isDigit = fs := by
    have all : (fs ++ []).takeWhile Char.isDigit = fs ++ [].takeWhile Char.isDigit :=
      List.takeWhile_append_of_pos fraction
    simpa using all
  have ended : fs.dropWhile Char.isDigit = [] := by
    have all : (fs ++ []).dropWhile Char.isDigit = [].dropWhile Char.isDigit :=
      List.dropWhile_append_of_pos fraction
    simpa using all
  unfold readDecimal?
  rw [takeDigits whole, dropDigits whole]
  simp [after, ended, whole.1, readExponent?]

theorem readDoublePoint (whole : Digits ds) (fraction : ∀ c ∈ fs, c.isDigit = true) :
    readDouble? (ds ++ '.' :: fs) =
      some (Decimal.toDouble false ⟨digitsValue (ds ++ fs), -(fs.length : Int)⟩) := by
  have inside : ∀ c ∈ ds ++ '.' :: fs, InNumeral c := by
    intro c mem
    cases List.mem_append.mp mem with
    | inl mem => exact .inl (whole.2 c mem)
    | inr mem =>
      cases mem with
      | head => exact .inr rfl
      | tail _ mem => exact .inl (fraction c mem)
  unfold readDouble?
  rw [prepareNumeral inside, dropUnderscoresNone inside]
  simp [takeSignDigits whole, readDecimalPoint whole fraction]

end Lox.Number

namespace Lox.Scan

open Number

theorem trailingZerosLe (cs : List Char) : trailingZeros cs ≤ cs.length := by
  have le := (List.takeWhile_prefix (l := cs.reverse) (· == '0')).length_le
  simpa [trailingZeros] using le

theorem trailingZerosOther (cs : List Char) {c : Char} (h : c ≠ '0') :
    trailingZeros (cs ++ [c]) = 0 := by
  simp [trailingZeros, h]

theorem trailingZerosZero (cs : List Char) : trailingZeros (cs ++ ['0']) = trailingZeros cs + 1 := by
  simp [trailingZeros]

theorem cutZerosOther (cs rest : List Char) {c : Char} (h : c ≠ '0') :
    cutZeros? (cs ++ [c]).length (cs ++ c :: rest) = some (cs ++ c :: rest) := by
  simp [cutZeros?, h]

theorem cutZerosZero (cs rest : List Char) :
    cutZeros? (cs ++ ['0']).length (cs ++ '0' :: rest) = cutZeros? cs.length (cs ++ ['0']) := by
  have cut : (cs ++ '0' :: rest).take (cs.length + 1) = cs ++ ['0'] := by
    rw [List.take_length_add_append, List.take_succ_cons, List.take_zero]
  simp [cutZeros?, cut]

/- Of the zeros passed so far one is left, behind the place. -/
theorem cutZerosPassed (cs : List Char) : ∃ text,
    cutZeros? cs.length (cs ++ ['0']) = some text ∧
      text ++ List.replicate (trailingZeros cs) '0' = cs ++ ['0'] := by
  induction cs using List.reverseRecOn with
  | nil => exact ⟨['0'], rfl, rfl⟩
  | append_singleton cs c ih =>
    rw [List.append_assoc]
    by_cases zero : c = '0'
    · subst zero
      obtain ⟨text, cut, all⟩ := ih
      refine ⟨text, (cutZerosZero cs ['0']).trans cut, ?_⟩
      rw [trailingZerosZero, List.replicate_succ', ← List.append_assoc, all, List.append_assoc]
    · refine ⟨cs ++ [c] ++ ['0'], by simpa using cutZerosOther cs ['0'] zero, ?_⟩
      simp [trailingZerosOther cs zero]

theorem cutZerosAll (cs : List Char) : ∃ text,
    cutZeros? cs.length cs = some text ∧
      text ++ List.replicate (trailingZeros cs - 1) '0' = cs := by
  induction cs using List.reverseRecOn with
  | nil => exact ⟨[], rfl, rfl⟩
  | append_singleton cs c _ =>
    by_cases zero : c = '0'
    · subst zero
      obtain ⟨text, cut, all⟩ := cutZerosPassed cs
      refine ⟨text, (cutZerosZero cs []).trans cut, ?_⟩
      rw [trailingZerosZero, Nat.add_sub_cancel, all]
    · refine ⟨cs ++ [c], cutZerosOther cs [] zero, ?_⟩
      simp [trailingZerosOther cs zero]

theorem cutZerosTrims (cs : List Char) : cutZeros? cs.length cs = some (trimZeros cs) := by
  obtain ⟨text, cut, _⟩ := cutZerosAll cs
  unfold trimZeros
  rw [cut, Option.getD_some]

theorem trimZerosAppend (cs : List Char) :
    trimZeros cs ++ List.replicate (trailingZeros cs - 1) '0' = cs := by
  obtain ⟨text, cut, all⟩ := cutZerosAll cs
  unfold trimZeros
  rw [cut, Option.getD_some, all]

theorem trimZerosSubset (cs : List Char) : trimZeros cs ⊆ cs := by
  intro c mem
  rw [← trimZerosAppend cs]
  exact List.mem_append_left _ mem

theorem trailingZerosPoint (ds fs : List Char) :
    trailingZeros (ds ++ '.' :: fs) = trailingZeros fs := by
  have stops : ∀ cs : List Char,
      (cs ++ '.' :: ds.reverse).takeWhile (· == '0') = cs.takeWhile (· == '0') := by
    intro cs
    induction cs with
    | nil => rfl
    | cons c cs ih => simp [List.takeWhile_cons, ih]
  simp [trailingZeros, stops]

theorem trimZerosPoint (ds fs : List Char) :
    trimZeros (ds ++ '.' :: fs) = ds ++ '.' :: trimZeros fs := by
  have whole := trimZerosAppend (ds ++ '.' :: fs)
  have fraction := trimZerosAppend fs
  rw [trailingZerosPoint] at whole
  have same : trimZeros (ds ++ '.' :: fs) ++ List.replicate (trailingZeros fs - 1) '0' =
      ds ++ '.' :: trimZeros fs ++ List.replicate (trailingZeros fs - 1) '0' := by
    rw [whole, List.append_assoc, List.cons_append, fraction]
  exact List.append_cancel_right same

variable {ds fs : List Char}

theorem toDoubleZeros (ds : List Char) (f k : Nat) :
    Decimal.toDouble false ⟨digitsValue (ds ++ List.replicate k '0'), -((f + k : Nat) : Int)⟩ =
      Decimal.toDouble false ⟨digitsValue ds, -(f : Int)⟩ := by
  rw [digitsValueZeros, toDoubleScale]

theorem trimZerosDigits (h : Digits fs) : Digits (trimZeros fs) := by
  refine ⟨?_, fun c mem => h.2 c (trimZerosSubset fs mem)⟩
  intro empty
  have short := trailingZerosLe fs
  have length := congrArg List.length (trimZerosAppend fs)
  have positive := List.length_pos_iff.mpr h.1
  simp only [empty, List.length_append, List.length_nil, List.length_replicate] at length
  omega

theorem numeralOfDigits (h : Digits ds) : numeral ds = ds ++ '.' :: ['0'] := by
  simp [numeral, h.noPoint]

theorem numeralOfPoint (ds fs : List Char) :
    numeral (ds ++ '.' :: fs) = ds ++ '.' :: trimZeros fs := by
  simp [numeral, trimZerosPoint]

theorem numeralWhole (whole : Digits ds) :
    readDouble? (numeral ds) = some (Decimal.toDouble false ⟨digitsValue ds, 0⟩) := by
  have zero : ∀ c ∈ ['0'], c.isDigit = true := by simp
  have scaled := toDoubleZeros ds 0 1
  rw [numeralOfDigits whole]
  exact (readDoublePoint whole zero).trans (congrArg some scaled)

theorem numeralFraction (whole : Digits ds) (fraction : Digits fs) :
    readDouble? (numeral (ds ++ '.' :: fs)) =
      some (Decimal.toDouble false ⟨digitsValue (ds ++ fs), -(fs.length : Int)⟩) := by
  have kept := trimZerosAppend fs
  have scaled := toDoubleZeros (ds ++ trimZeros fs) (trimZeros fs).length (trailingZeros fs - 1)
  have length := congrArg List.length kept
  simp only [List.length_append, List.length_replicate] at length
  rw [List.append_assoc, kept, length] at scaled
  rw [numeralOfPoint, scaled]
  exact readDoublePoint whole (trimZerosDigits fraction).2

end Lox.Scan
