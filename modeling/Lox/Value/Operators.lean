import Lox.Index
import Lox.Store.Environment
import Lox.Value.Equality

/-!
Operators on values, and values as sizes and indices.
-/

namespace Lox

namespace Quantity

def toFloat : Quantity → Except Fault Float
  | .float x => .ok x
  | .int i =>
    match Number.ofInt? i with
    | some x => .ok x
    | none => .error .doubleOverflow

def combine (ints : Int → Int → Int) (floats : Float → Float → Float) :
    Quantity → Quantity → Except Fault Datum
  | .int i, .int j => .ok (.int (ints i j))
  | a, b => do
    let x ← a.toFloat
    let y ← b.toFloat
    return .double (floats x y)

def divide : Quantity → Quantity → Except Fault Datum
  | .int i, .int j =>
    if j = 0 then .error .divisionByZero
    else match Number.ratio? i j with
      | some x => .ok (.double x)
      | none => .error .quotientOverflow
  | a, b => do
    let x ← a.toFloat
    let y ← b.toFloat
    if y == 0.0 then .error .doubleDivisionByZero else return .double (x / y)

def apply : Arithmetic → Quantity → Quantity → Except Fault Datum
  | .add => combine (· + ·) (· + ·)
  | .sub => combine (· - ·) (· - ·)
  | .mul => combine (· * ·) (· * ·)
  | .div => divide

end Quantity

def repeatText (memory : Nat) (s : String) (count : Int) : Except Fault Datum :=
  if !isIndexSized count then .error .countTooWide
  else
    let n := count.toNat
    let size := s.length * n
    if 0x8000000000000000 ≤ size then .error .repetitionTooLong
    else if memory < size then .error .outOfMemory
    else if size = 0 then .ok (.text "")
    else .ok (.text (String.join (List.replicate n s)))

def Datum.integer? : Datum → Option Int
  | .bool b => some b.toInt
  | .int i => some i
  | _ => none

namespace Value

def quantity? : Value → Option Quantity
  | .datum d => d.quantity?
  | _ => none

def integer? : Value → Option Int
  | .datum d => d.integer?
  | _ => none

def mixed (memory : Nat) : Arithmetic → Value → Value → Except Fault Datum
  | .add, .text s, .text t => .ok (.text (s ++ t))
  | .add, .text _, r => .error (.concatenation r.typeName)
  | .mul, .text s, r =>
    match r.integer? with
    | some n => repeatText memory s n
    | none => .error (.repetition r.typeName)
  | .mul, l, .text s =>
    match l.integer? with
    | some n => repeatText memory s n
    | none => .error (.repetition l.typeName)
  | op, l, r => .error (.operands op l.typeName r.typeName)

def arithmetic (memory : Nat) (op : Arithmetic) (l r : Value) : Except Fault Datum :=
  match l.quantity?, r.quantity? with
  | some x, some y => x.apply op y
  | _, _ => mixed memory op l r

end Value

def Comparison.holds : Comparison → Ordering → Bool
  | .less, o => o == .lt
  | .lessEqual, o => o != .gt
  | .greater, o => o == .gt
  | .greaterEqual, o => o != .lt

def orderText (s t : String) : Ordering :=
  compareOfLessAndEq s t

namespace Value

def compare (op : Comparison) (l r : Value) : Except Fault Bool :=
  match l.quantity?, r.quantity? with
  | some x, some y =>
    match x.order y with
    | some o => .ok (op.holds o)
    | none => .ok false
  | _, _ =>
    match l, r with
    | .text s, .text t => .ok (op.holds (orderText s t))
    | _, _ => .error (.comparison op l.typeName r.typeName)

def negate (v : Value) : Except Fault Datum :=
  match v.quantity? with
  | some (.int i) => .ok (.int (-i))
  | some (.float x) => .ok (.double (-x))
  | none => .error (.negation v.typeName)

/-- The negation of a truth value as a number: minus one or zero. -/
def complement (v : Value) : Except Fault Datum := do
  return .int (if ← v.truth then -1 else 0)

end Value

def integerOfFloat (x : Float) : Except Fault Int :=
  match Number.parts x with
  | .nan => .error .integerOfNaN
  | .infinite _ => .error .integerOfInfinity
  | .finite negative b => .ok (Number.signed negative b.floor)

def integerOfText (s : String) : Except Fault Int :=
  match Number.readInteger s.toList with
  | .ok i => .ok i
  | .error .malformed => .error (.integerText s)
  | .error (.tooLong n) => .error (.integerTextLong n)

def Value.toInteger : Value → Except Fault Int
  | .bool b => .ok b.toInt
  | .int i => .ok i
  | .datum (.float x _) => integerOfFloat x
  | .text s => integerOfText s
  | v => .error (.notInteger v.typeName)

def cellCount (memory : Nat) (size : Int) : Except Fault Nat :=
  if !isIndexSized size then .error .countTooWide
  else if memory < size.toNat then .error .outOfMemory
  else .ok size.toNat

def cellOf (size : Nat) (index : Value) (outside : Fault) : Except Fault Nat := do
  let i ← index.toInteger
  if !isIndexSized i then .error .indexTooWide
  else match cell? size i with
    | some c => .ok c
    | none => .error outside

namespace Store

def readCell (s : Store) (id : Nat) (index : Value) : Except Fault Value := do
  let elements := s.elements id
  let c ← cellOf elements.size index .outOfRange
  return elements.getD c .nil

def writeCell (id : Nat) (index v : Value) : Stored Unit := fun s =>
  match cellOf (s.elements id).size index .outOfRangeWrite with
  | .ok c => .ok () (s.setElement id c v)
  | .error e => .error e s

def makeArray (size : Value) : Stored Value := fun s =>
  match size.toInteger >>= cellCount s.memory with
  | .ok n => let (v, s) := s.newArray (Array.replicate n .nil); .ok v s
  | .error e => .error e s

def arrayMember (id : Nat) (name : Token) : Stored Value := fun s =>
  match name.lexeme with
  | "get" => let (n, s) := s.freshId; .ok (.accessor n .read id) s
  | "set" => let (n, s) := s.freshId; .ok (.accessor n .write id) s
  | "length" => .ok (.int (s.elements id).size) s
  | _ => .error (.undefinedMember name) s

end Store
end Lox
