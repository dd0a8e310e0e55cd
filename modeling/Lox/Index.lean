/-!
Indices into lists and arrays; a negative one counts from the end.
-/

namespace Lox

def isIndexSized (i : Int) : Bool :=
  decide (-0x8000000000000000 ≤ i) && decide (i < 0x8000000000000000)

def cell? (size : Nat) (index : Int) : Option Nat :=
  if 0 ≤ index && decide (index < size) then some index.toNat
  else if decide (index < 0) && decide (0 ≤ index + size) then some (index + size).toNat
  else none

end Lox
