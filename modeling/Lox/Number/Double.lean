/-!
Doubles as exact fractions: the parts of a double, and the double nearest to a fraction.
-/

namespace Lox.Number

structure Binary where
  mantissa : Nat
  exponent : Int
  deriving DecidableEq, Repr

inductive Parts where
  | nan
  | infinite (negative : Bool)
  | finite (negative : Bool) (magnitude : Binary)
  deriving DecidableEq, Repr

def Binary.ofBits (bits : Nat) : Binary :=
  let field : Nat := bits / Nat.pow 2 52
  let low : Nat := bits % Nat.pow 2 52
  if field = 0 then ⟨low, -1074⟩ else ⟨Nat.pow 2 52 + low, (field : Int) - 1075⟩

/-- The leading one of the mantissa carries into the exponent field by itself. -/
def Binary.bits (b : Binary) : Nat :=
  (b.exponent + 1074).toNat * Nat.pow 2 52 + b.mantissa

def infinityBits : Nat := 0x7ff * Nat.pow 2 52

def Binary.finiteBits? (b : Binary) : Option Nat :=
  if b.bits < infinityBits then some b.bits else none

def parts (x : Float) : Parts :=
  let bits := x.toBits.toNat
  let negative := decide (Nat.pow 2 63 ≤ bits)
  let low := bits % Nat.pow 2 63
  if low = infinityBits then .infinite negative
  else if infinityBits < low then .nan
  else .finite negative (.ofBits low)

def ofMagnitude (negative : Bool) (bits : Nat) : Float :=
  Float.ofBits (bits + if negative then Nat.pow 2 63 else 0).toUInt64

def infinity (negative : Bool) : Float :=
  ofMagnitude negative infinityBits

def roundEven (num den : Nat) : Nat :=
  let q := num / den
  let r := num % den
  if 2 * r < den then q else if den < 2 * r then q + 1 else q + q % 2

def inUnits (num den : Nat) (unit : Int) : Nat × Nat :=
  if 0 ≤ unit then (num, den * Nat.pow 2 unit.toNat) else (num * Nat.pow 2 (-unit).toNat, den)

def roundedTo (num den : Nat) (unit : Int) : Binary :=
  let (n, d) := inUnits num den unit
  ⟨roundEven n d, unit⟩

/-- The unit in which the double nearest to `num / den` is counted: 53 bits of the quotient, but no
finer than the smallest double. -/
def unitOf (num den : Nat) : Int :=
  let low := max ((num.log2 : Int) - den.log2 - 53) (-1074)
  let (n, d) := inUnits num den low
  if n < d * Nat.pow 2 53 then low else low + 1

def nearestBits? (num den : Nat) : Option Nat :=
  if num = 0 then some 0 else (roundedTo num den (unitOf num den)).finiteBits?

def nearest? (negative : Bool) (num den : Nat) : Option Float :=
  (nearestBits? num den).map (ofMagnitude negative)

def ofInt? (i : Int) : Option Float :=
  nearest? (decide (i < 0)) i.natAbs 1

def ratio? (a b : Int) : Option Float :=
  nearest? (decide (a < 0) != decide (b < 0)) a.natAbs b.natAbs

def Binary.floor (b : Binary) : Nat :=
  if 0 ≤ b.exponent then b.mantissa * Nat.pow 2 b.exponent.toNat
  else b.mantissa / Nat.pow 2 (-b.exponent).toNat

def Binary.isWhole (b : Binary) : Bool :=
  0 ≤ b.exponent || b.mantissa % Nat.pow 2 (-b.exponent).toNat == 0

def signed (negative : Bool) (n : Nat) : Int :=
  if negative then -(n : Int) else n

def compareInt (i : Int) (x : Float) : Option Ordering :=
  match parts x with
  | .nan => none
  | .infinite negative => some (if negative then .gt else .lt)
  | .finite negative b =>
    let whole := signed negative b.floor
    if i ≠ whole || b.isWhole then some (compare i whole)
    else some (if negative then .gt else .lt)

end Lox.Number
