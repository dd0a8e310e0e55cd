import Mathlib.Data.Nat.Digits.Defs
import Lox.Proofs.Lexing.Literals
import Lox.Proofs.Lexing.Rounding
import Lox.Proofs.Scanning

/-!
The value of a number token. Digits, with or without a point among them, denote a rational number by
the places they stand in. The numeral that a token's text is made into denotes the same number, has
digits on both sides of its point, and the loop that trims its zeros stays within the text.
-/

namespace Lox.Number

variable {ds fs : List Char}

def digitOf (c : Char) : Nat := c.toNat - '0'.toNat

def positional (ds fs : List Char) : ℚ :=
  Nat.ofDigits 10 (ds.reverse.map digitOf) + Nat.ofDigits (1 / 10) (0 :: fs.map digitOf)

def rational (cs : List Char) : ℚ :=
  positional (cs.takeWhile (· != '.')) ((cs.dropWhile (· != '.')).drop 1)

theorem Digits.beforePoint (h : Digits ds) : ∀ c ∈ ds, (c != '.') = true := by
  intro c mem
  have apart : c ≠ '.' := fun same => h.noPoint (same ▸ mem)
  simpa using apart

theorem rationalWhole (h : Digits ds) : rational ds = positional ds [] := by
  have taken : (ds ++ []).takeWhile (· != '.') = ds ++ [].takeWhile (· != '.') :=
    List.takeWhile_append_of_pos h.beforePoint
  have dropped : (ds ++ []).dropWhile (· != '.') = [].dropWhile (· != '.') :=
    List.dropWhile_append_of_pos h.beforePoint
  rw [List.append_nil] at taken dropped
  simp [rational, taken, dropped]

theorem rationalPoint (h : Digits ds) (fs : List Char) :
    rational (ds ++ '.' :: fs) = positional ds fs := by
  unfold rational
  rw [List.takeWhile_append_of_pos h.beforePoint, List.dropWhile_append_of_pos h.beforePoint]
  simp

theorem ofDigitsZeros (b : ℚ) (ns : List Nat) (k : Nat) :
    Nat.ofDigits b (ns ++ List.replicate k 0) = Nat.ofDigits b ns := by
  induction ns with
  | nil =>
    induction k with
    | zero => rfl
    | succ k ih => simpa [List.replicate_succ, Nat.ofDigits] using .inr ih
  | cons n ns ih => simp [Nat.ofDigits, ih]

theorem positionalZeros (ds fs : List Char) (k : Nat) :
    positional ds (fs ++ List.replicate k '0') = positional ds fs := by
  have zeros : (0 :: (fs ++ List.replicate k '0').map digitOf) =
      0 :: fs.map digitOf ++ List.replicate k 0 := by
    simp [digitOf]
  unfold positional
  rw [zeros, ofDigitsZeros]

theorem digitsValueEq (ds : List Char) :
    digitsValue ds = Nat.ofDigits 10 (ds.reverse.map digitOf) := by
  unfold digitsValue
  rw [Nat.ofDigits_eq_foldr, List.foldr_map, List.foldr_reverse]
  congr 1
  funext n c
  simp [digitOf, Nat.add_comm]

theorem digitsValueAppend (ds fs : List Char) :
    digitsValue (ds ++ fs) = digitsValue ds * 10 ^ fs.length + digitsValue fs := by
  simp only [digitsValueEq, List.reverse_append, List.map_append, Nat.ofDigits_append,
    List.length_map, List.length_reverse]
  rw [Nat.add_comm, Nat.mul_comm]

theorem fractionEq (fs : List Char) :
    Nat.ofDigits (1 / 10 : ℚ) (0 :: fs.map digitOf) = digitsValue fs / 10 ^ fs.length := by
  induction fs with
  | nil => simp [Nat.ofDigits, digitsValue]
  | cons c fs ih =>
    have first : digitsValue [c] = digitOf c := by simp [digitsValue, digitOf]
    have value := digitsValueAppend [c] fs
    rw [List.singleton_append, first] at value
    simp only [Nat.ofDigits, List.map_cons, Nat.cast_zero, zero_add] at ih ⊢
    rw [ih, value]
    push_cast
    rw [List.length_cons, pow_succ]
    field_simp

theorem positionalEq (ds fs : List Char) :
    Decimal.rational ⟨digitsValue (ds ++ fs), -(fs.length : Int)⟩ = positional ds fs := by
  have whole : (Nat.ofDigits (10 : ℚ) (ds.reverse.map digitOf)) = digitsValue ds := by
    rw [digitsValueEq]
    exact (Nat.coe_ofDigits ℚ 10 _).symm
  unfold positional Decimal.rational
  rw [whole, fractionEq, digitsValueAppend]
  push_cast
  rw [zpow_neg, zpow_natCast]
  field_simp

def Pointed (cs : List Char) : Prop :=
  ∃ ds fs, cs = ds ++ '.' :: fs ∧ Digits ds ∧ Digits fs

end Lox.Number

namespace Lox.Scan

open Number

variable {ds fs cs : List Char}

theorem numeralPointed (h : Digits cs ∨ Pointed cs) : Pointed (numeral cs) := by
  rcases h with whole | ⟨ds, fs, rfl, whole, fraction⟩
  · exact ⟨cs, ['0'], numeralOfDigits whole, whole, by simp [Digits]⟩
  · exact ⟨ds, trimZeros fs, numeralOfPoint ds fs, whole, trimZerosDigits fraction⟩

theorem rationalNumeral (h : Digits cs ∨ Pointed cs) : rational (numeral cs) = rational cs := by
  rcases h with whole | ⟨ds, fs, rfl, whole, fraction⟩
  · rw [numeralOfDigits whole, rationalPoint whole, rationalWhole whole]
    exact positionalZeros cs [] 1
  · rw [numeralOfPoint, rationalPoint whole, rationalPoint whole]
    have trimmed := positionalZeros ds (trimZeros fs) (trailingZeros fs - 1)
    rwa [trimZerosAppend, eq_comm] at trimmed

theorem numeralCut (h : '.' ∈ cs) : cutZeros? cs.length cs = some (numeral cs) := by
  have point : cs.contains '.' = true := by simpa using h
  unfold numeral
  rw [if_pos point, cutZerosTrims]

end Lox.Scan

namespace Lox.Number

theorem Pointed.read {cs : List Char} (h : Pointed cs) :
    ∃ d, readDecimal? cs = some d ∧ d.rational = rational cs ∧
      readDouble? cs = some (d.toDouble false) := by
  obtain ⟨ds, fs, rfl, whole, fraction⟩ := h
  refine ⟨_, readDecimalPoint whole fraction.2, ?_, readDoublePoint whole fraction.2⟩
  rw [positionalEq, rationalPoint whole]

end Lox.Number

namespace Lox.Scan

open Number

theorem lineTokens {text : List Char} {s : State} {t : Token}
    (mem : t ∈ (final (line text s)).tokens) : t ∈ s.tokens ∨ t.Lexical := by
  have scanned := (plainToEnd text).lexed ⟨s.line, #[], [], .none⟩ (by simp [Lexed])
  rw [lineRun, finalOnState] at mem
  rcases Array.mem_append.mp mem with old | new
  · exact .inl (dropEndSubset old)
  · exact .inr (scanned t new)

/-- Of a number token that is made of digits, with or without a point between them: its numeral has
digits on both sides of the point and denotes the number that the token's text denotes, the loop that
trims zeros stays within the text, and the token's value is the double nearest to that number. -/
theorem numeralsKeepTheirValue {cs : List Char} (h : Digits cs ∨ Pointed cs) :
    Pointed (numeral cs) ∧ rational (numeral cs) = rational cs ∧
      ('.' ∈ cs → cutZeros? cs.length cs = some (numeral cs)) ∧
      ∃ d, readDecimal? (numeral cs) = some d ∧ d.rational = rational cs ∧
        Nearest (rational cs) d.bits ∧ readDouble? (numeral cs) = some (d.toDouble false) ∧
        (∀ text kind s, (Numeric.of text).lexeme = cs →
          pushNumber kind text s = .ok () { s with
            line := (Numeric.of text).line s.line
            tokens := s.tokens ++ ((Numeric.of text).given kind (d.toDouble false)).toArray
            pending := .none }) ∧
        ∀ text s t, t ∈ (final (line text s)).tokens → t ∈ s.tokens ∨
          (t.kind = .number → t.lexeme = String.ofList cs → t.literal = .double (d.toDouble false)) := by
  obtain ⟨d, decimal, value, double⟩ := (numeralPointed h).read
  rw [rationalNumeral h] at value
  have nearest := d.nearest
  rw [value] at nearest
  refine ⟨numeralPointed h, rationalNumeral h, numeralCut, d, decimal, value, nearest, double,
    ?_, ?_⟩
  · intro text kind s same
    exact pushNumberOk (by rw [same, double]) s
  · intro text s t mem
    refine (lineTokens mem).imp_right fun lexical number same => ?_
    obtain ⟨x, read, literal⟩ := lexical.valued number
    rw [same, String.toList_ofList, double] at read
    rw [literal, Option.some.inj read]

theorem zerosTrimmed : Pointed "00120.00500".toList ∧
    numeral "00120.00500".toList = "00120.0050".toList ∧
    rational (numeral "00120.00500".toList) = rational "00120.00500".toList ∧
    cutZeros? 11 "00120.00500".toList = some (numeral "00120.00500".toList) := by
  have pointed : Pointed "00120.00500".toList :=
    ⟨"00120".toList, "00500".toList, by decide, by decide, by decide⟩
  have kept := numeralsKeepTheirValue (.inr pointed)
  exact ⟨pointed, by decide, kept.2.1, kept.2.2.1 (by decide)⟩

end Lox.Scan
