import Lox.Number.Double

/-!
The text of a double: the fewest digits that read back to it, of those the nearest, laid out with a
point where the exponent is small and with an exponent elsewhere.
-/

namespace Lox.Number

structure Decimal where
  digits : Nat
  exponent : Int
  deriving DecidableEq, Repr

structure Interval where
  low : Nat
  value : Nat
  high : Nat
  den : Nat
  closed : Bool

/-- Half way to both neighbours; below a power of two the lower neighbour is twice as near. -/
def Binary.interval (b : Binary) : Interval :=
  let below := if b.mantissa = Nat.pow 2 52 && decide (-1074 < b.exponent) then 1 else 2
  let up := Nat.pow 2 b.exponent.toNat
  { low := (4 * b.mantissa - below) * up
    value := 4 * b.mantissa * up
    high := (4 * b.mantissa + 2) * up
    den := 4 * Nat.pow 2 (-b.exponent).toNat
    closed := b.mantissa % 2 == 0 }

def Interval.onGrid (i : Interval) (grid : Int) : Interval :=
  let up := Nat.pow 10 (-grid).toNat
  { i with low := i.low * up, value := i.value * up, high := i.high * up,
           den := i.den * Nat.pow 10 grid.toNat }

def Interval.holds (i : Interval) (n : Nat) : Bool :=
  let x := n * i.den
  if i.closed then decide (i.low ≤ x) && decide (x ≤ i.high)
  else decide (i.low < x) && decide (x < i.high)

def Interval.pick? (i : Interval) : Option Nat :=
  let c := i.value / i.den
  match i.holds c, i.holds (c + 1) with
  | true, true => some (roundEven i.value i.den)
  | true, false => some c
  | false, true => some (c + 1)
  | false, false => none

def digitCount (n : Nat) : Nat :=
  (Nat.toDigits 10 n).length

def decimalPoint (num den : Nat) : Int :=
  let t : Int := (digitCount num : Int) - digitCount den
  if den * Nat.pow 10 t.toNat ≤ num * Nat.pow 10 (-t).toNat then t + 1 else t

/-- Tries ever finer grids; seventeen digits always suffice for a double. -/
def shortestFrom (i : Interval) (point : Int) : (tries digits : Nat) → Decimal
  | 0, _ => ⟨0, 0⟩
  | n + 1, k =>
    let grid := point - k
    match (i.onGrid grid).pick? with
    | some c => ⟨c, grid⟩
    | none => shortestFrom i point n (k + 1)

def Binary.shortest (b : Binary) : Decimal :=
  let i := b.interval
  shortestFrom i (decimalPoint i.value i.den) 17 1

structure Layout where
  least : Int
  past : Int
  width : Nat

/-- `0.0001` and `1000000000000000.0` are the last ones with a point alone. -/
def Layout.plain : Layout := ⟨-4, 16, 2⟩

def dropZeros (ds : List Char) : List Char :=
  (ds.reverse.dropWhile (· == '0')).reverse

def zerosText (n : Nat) : List Char :=
  List.replicate n '0'

def exponentText (width : Nat) (e : Int) : List Char :=
  let ds := Nat.toDigits 10 e.natAbs
  (if e < 0 then '-' else '+') :: (zerosText (width - ds.length) ++ ds)

def Layout.write (l : Layout) (ds : List Char) (point : Int) : List Char :=
  if l.least < point && decide (point ≤ l.past) then
    if point ≤ 0 then '0' :: '.' :: (zerosText (-point).toNat ++ ds)
    else
      let n := point.toNat
      if ds.length ≤ n then ds ++ zerosText (n - ds.length) ++ ['.', '0']
      else ds.take n ++ '.' :: ds.drop n
  else
    let tail := if ds.length ≤ 1 then [] else '.' :: ds.drop 1
    ds.take 1 ++ tail ++ 'e' :: exponentText l.width (point - 1)

def Binary.text (b : Binary) : List Char :=
  if b.mantissa = 0 then ['0', '.', '0']
  else
    let d := b.shortest
    let ds := Nat.toDigits 10 d.digits
    Layout.plain.write (dropZeros ds) (ds.length + d.exponent)

def text (x : Float) : String :=
  match parts x with
  | .nan => "nan"
  | .infinite negative => if negative then "-inf" else "inf"
  | .finite negative b => String.ofList ((if negative then ['-'] else []) ++ b.text)

end Lox.Number
