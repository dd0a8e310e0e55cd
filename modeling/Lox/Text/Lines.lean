/-!
Lines of a text. A break is a line feed, a carriage return, or the two together, and is kept as a
line feed at the end of its line.
-/

namespace Lox.Text

def unifyBreaks : List Char → List Char
  | [] => []
  | '\r' :: '\n' :: cs => '\n' :: unifyBreaks cs
  | '\r' :: cs => '\n' :: unifyBreaks cs
  | c :: cs => c :: unifyBreaks cs

def addFront (c : Char) : List (List Char) → List (List Char)
  | [] => [[c]]
  | l :: ls => if c = '\n' then [c] :: l :: ls else (c :: l) :: ls

/-- The text after each line feed starts a new line; no text has no line. -/
def cutLines (cs : List Char) : List (List Char) :=
  cs.foldr addFront []

def lines (cs : List Char) : List (List Char) :=
  cutLines (unifyBreaks cs)

@[simp] theorem cutLines_nil : cutLines [] = [] := rfl

@[simp] theorem cutLines_cons (c : Char) (cs : List Char) :
    cutLines (c :: cs) = addFront c (cutLines cs) := rfl

end Lox.Text
