import Lox.Number.Shortest
import Lox.Text.Digit

/-!
Numbers read from text. Digits of any decimal system count, single underscores may part digits, and
blanks may surround the number.
-/

namespace Lox.Number

def toAscii (c : Char) : Char :=
  if c.toNat < 0x7f then c
  else if Text.isBlank c then ' '
  else match Text.digitValue? c with
    | some d => Char.ofNat (0x30 + d)
    | none => '?'

def strip (cs : List Char) : List Char :=
  ((cs.dropWhile Text.isAsciiBlank).reverse.dropWhile Text.isAsciiBlank).reverse

def prepare (cs : List Char) : List Char :=
  strip (cs.map toAscii)

def dropUnderscores? : (previousDigit : Bool) → List Char → Option (List Char)
  | _, [] => some []
  | p, '_' :: c :: rest =>
    if p && c.isDigit then (dropUnderscores? true rest).map (c :: ·) else none
  | _, c :: rest =>
    if c == '_' then none else (dropUnderscores? c.isDigit rest).map (c :: ·)

def digitsValue (ds : List Char) : Nat :=
  ds.foldl (fun n c => 10 * n + (c.toNat - 0x30)) 0

def takeSign : List Char → Bool × List Char
  | '-' :: rest => (true, rest)
  | '+' :: rest => (false, rest)
  | cs => (false, cs)

def readExponent? : List Char → Option Int
  | [] => some 0
  | e :: rest =>
    if e == 'e' || e == 'E' then
      let (negative, ds) := takeSign rest
      if ds ≠ [] && ds.all Char.isDigit then some (signed negative (digitsValue ds)) else none
    else none

def readDecimal? (cs : List Char) : Option Decimal :=
  let whole := cs.takeWhile Char.isDigit
  let rest := cs.dropWhile Char.isDigit
  let (fraction, rest) := match rest with
    | '.' :: r => (r.takeWhile Char.isDigit, r.dropWhile Char.isDigit)
    | r => ([], r)
  if whole = [] && fraction = [] then none
  else (readExponent? rest).map fun e => ⟨digitsValue (whole ++ fraction), e - fraction.length⟩

/-- The bits of the double nearest to a decimal. Far beyond the range of doubles the powers are not
formed. -/
def Decimal.bits (d : Decimal) : Nat :=
  let size : Int := digitCount d.digits + d.exponent
  if d.digits = 0 || decide (size < -400) then 0
  else if 400 < size then infinityBits
  else
    let num := d.digits * Nat.pow 10 d.exponent.toNat
    (nearestBits? num (Nat.pow 10 (-d.exponent).toNat)).getD infinityBits

def Decimal.toDouble (negative : Bool) (d : Decimal) : Float :=
  ofMagnitude negative d.bits

def readSpecial? (negative : Bool) (cs : List Char) : Option Float :=
  let word := String.ofList (cs.map Char.toLower)
  if word = "inf" || word = "infinity" then some (infinity negative)
  else if word = "nan" then some (Float.ofBits 0x7ff8000000000000)
  else none

def readDouble? (cs : List Char) : Option Float := do
  let plain ← dropUnderscores? false (prepare cs)
  let (negative, body) := takeSign plain
  match readDecimal? body with
  | some d => some (d.toDouble negative)
  | none => readSpecial? negative body

inductive IntegerError where
  | malformed
  | tooLong (digits : Nat)
  deriving DecidableEq, Repr

def digitLimit : Nat := 4300

/-- The longest run of digits and underscores is judged before what follows it. -/
def readInteger (cs : List Char) : Except IntegerError Int :=
  let (negative, body) := takeSign (prepare cs)
  let run := body.takeWhile fun c => c.isDigit || c == '_'
  match dropUnderscores? false run with
  | none => .error .malformed
  | some ds =>
    if digitLimit < ds.length then .error (.tooLong ds.length)
    else if ds = [] || run.length < body.length then .error .malformed
    else .ok (signed negative (digitsValue ds))

end Lox.Number
