import Lox.Store
import Lox.Fault

/-!
The text of values. Inside an array texts are quoted, and an array that is being written already
stands as dots.
-/

namespace Lox

def Datum.shown : Datum → Except Fault String
  | .int i => if Nat.pow 10 Number.digitLimit ≤ i.natAbs then .error .integerLong else .ok (toString i)
  | d => .ok d.render

def Datum.quoted : Datum → Except Fault String
  | .text s => .ok (Text.quote s)
  | d => d.shown

namespace Value

def plainObject (name : String) : String :=
  "<Plox.Natives." ++ name ++ " object at 0x>"

/-- Nesting is bounded by the number of arrays, since an open one is not entered again. -/
def quotedWith (s : Store) : (fuel : Nat) → (opened : List Nat) → Value → Except Fault String
  | _, _, .datum d => d.quoted
  | _, _, .function _ name _ => .ok ("<fun " ++ name ++ " >")
  | _, _, .class_ c => .ok c.text
  | _, _, .instance_ _ c => .ok (instanceText c)
  | 0, _, .array _ => .ok "[...]"
  | n + 1, opened, .array id =>
    if opened.contains id then .ok "[...]"
    else do
      let items ← (s.elements id).toList.mapM (quotedWith s n (id :: opened))
      return Text.bracketed items
  | _, _, v@(.accessor ..) => .ok (plainObject v.typeName)
  | _, _, .clock => .ok (plainObject "clock")
  | _, _, .arrayMaker => .ok (plainObject "LoxArrayFactory")

def quoted (s : Store) (v : Value) : Except Fault String :=
  quotedWith s (s.arrays.size + 1) [] v

def shown (s : Store) : Value → Except Fault String
  | .datum d => d.shown
  | v => v.quoted s

end Value
end Lox
