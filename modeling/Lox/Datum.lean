import Lox.Number.Shortest

/-!
Plain data: what a literal can denote, and what a token can carry.
-/

namespace Lox

/-- A NaN differs from every number, itself included, yet a stored one stays the same object: the
stamp tells such objects apart. Other doubles carry the stamp zero. -/
inductive Datum where
  | nil
  | bool (b : Bool)
  | int (i : Int)
  | float (x : Float) (stamp : Nat)
  | text (s : String)
  deriving DecidableEq

namespace Datum

def double (x : Float) : Datum := .float x 0

def typeName : Datum → String
  | .nil => "NoneType"
  | .bool _ => "bool"
  | .int _ => "int"
  | .float .. => "float"
  | .text _ => "str"

def boolText (b : Bool) : String :=
  if b then "True" else "False"

def render : Datum → String
  | .nil => "None"
  | .bool b => boolText b
  | .int i => toString i
  | .float x _ => Number.text x
  | .text s => s

end Datum
end Lox
