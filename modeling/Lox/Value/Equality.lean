import Lox.Store
import Lox.Fault

/-!
Equality of values. Data are equal by value and objects by identity, except that an array compares
its elements with those of the other side, which must then have elements too.
-/

namespace Lox

inductive Quantity where
  | int (i : Int)
  | float (x : Float)

def Datum.quantity? : Datum → Option Quantity
  | .bool b => some (.int b.toInt)
  | .int i => some (.int i)
  | .float x _ => some (.float x)
  | _ => none

def orderFloat (x y : Float) : Option Ordering :=
  if x < y then some .lt else if y < x then some .gt else if x == y then some .eq else none

def Quantity.order : Quantity → Quantity → Option Ordering
  | .int i, .int j => some (compare i j)
  | .int i, .float x => Number.compareInt i x
  | .float x, .int i => (Number.compareInt i x).map Ordering.swap
  | .float x, .float y => orderFloat x y

def Datum.equal : Datum → Datum → Bool
  | .nil, .nil => true
  | .text s, .text t => s == t
  | a, b =>
    match a.quantity?, b.quantity? with
    | some x, some y => x.order y == some .eq
    | _, _ => false

namespace Value

def identical : Value → Value → Bool
  | .datum (.float x m), .datum (.float y n) => x.isNaN && y.isNaN && m == n
  | .function i _ _, .function j _ _ => i == j
  | .class_ c, .class_ d => c.own.id == d.own.id
  | .instance_ i _, .instance_ j _ => i == j
  | .array i, .array j => i == j
  | .accessor i _ _, .accessor j _ _ => i == j
  | .clock, .clock => true
  | .arrayMaker, .arrayMaker => true
  | _, _ => false

def elementsOf? : Value → Option Nat
  | .array i => some i
  | .accessor _ _ i => some i
  | _ => none

def isArray : Value → Bool
  | .array _ => true
  | _ => false

def arraysOf (a b : Value) : Except Fault (Nat × Nat) :=
  match a.elementsOf?, b.elementsOf? with
  | some i, some j => .ok (i, j)
  | none, _ => .error (.noMember a.typeName "elements")
  | _, none => .error (.noMember b.typeName "elements")

def equalAll (eq : Value → Value → Except Fault Bool) : List Value → List Value → Except Fault Bool
  | a :: as, b :: bs =>
    if a.identical b then equalAll eq as bs
    else do if ← eq a b then equalAll eq as bs else return false
  | [], [] => .ok true
  | _, _ => .ok false

def equalWith (s : Store) : (fuel : Nat) → Value → Value → Except Fault Bool
  | 0, _, _ => .error .recursion
  | n + 1, a, b =>
    if a.isArray || b.isArray then do
      let (i, j) ← arraysOf a b
      let as := s.elements i
      let bs := s.elements j
      if as.size == bs.size then equalAll (equalWith s n) as.toList bs.toList else return false
    else match a, b with
      | .datum d, .datum e => .ok (d.equal e)
      | _, _ => .ok (a.identical b)

/-- A comparison that meets more pairs of arrays than there are never ends. -/
def equal (s : Store) (a b : Value) : Except Fault Bool :=
  equalWith s (s.arrays.size * s.arrays.size + 2) a b

/-- All values but `None` and `false` count as true; an array cannot be compared with `None`. -/
def truth : Value → Except Fault Bool
  | .nil => .ok false
  | .bool b => .ok b
  | .array _ => .error (.absent "elements")
  | _ => .ok true

end Value
end Lox
