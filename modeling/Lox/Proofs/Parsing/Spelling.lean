import Lox.Proofs.Parsing.Reading
import Lox.Proofs.Trees

/-!
Writing a tree out as tokens, and the trees that the grammar has. Names, operators and the closing
parenthesis of a call are the tree's own tokens, and literals may have any lexeme; all other signs
and words are as they are scanned.
-/

namespace Lox

def Token.keyword (k : Keyword) : Token := .word k.word.toList

/-- The lexemes of the literals of a tree, by the way to each of them. The parts of a node are
counted from zero; a list is its head and the list behind it. -/
def Writing : Type := List Nat → Datum → String

namespace Writing

def plain : Writing := fun _ d => d.render

def part (w : Writing) (i : Nat) : Writing := fun way => w (i :: way)

end Writing

def Datum.token (d : Datum) (lexeme : String) : Token :=
  match d with
  | .bool true => .keyword .true_
  | .bool false => .keyword .false_
  | .text s => ⟨.string, lexeme, .text s, .text ""⟩
  | d => ⟨.number, lexeme, d, .text ""⟩

mutual

def Expr.spell (e : Expr) (w : Writing := .plain) : List Token :=
  match e with
  | .missing => []
  | .literal d => [d.token (w [] d)]
  | .reference _ name => name.toList
  | .assign _ name value => name.toList ++ .sign .equal :: value.spell (w.part 0)
  | .this _ keyword => keyword.toList
  | .super _ keyword method => keyword.toList ++ .mark .dot :: method.toList
  | .unary op right => op.toList ++ right.spell (w.part 0)
  | .binary left op right => left.spell (w.part 0) ++ (op.toList ++ right.spell (w.part 1))
  | .logical left op right => left.spell (w.part 0) ++ (op.toList ++ right.spell (w.part 1))
  | .grouping inner => .mark .leftParen :: (inner.spell (w.part 0) ++ [.mark .rightParen])
  | .call callee paren args =>
    callee.spell (w.part 0) ++ .mark .leftParen :: (Expr.spellAll args (w.part 1) ++ paren.toList)
  | .get object name => object.spell (w.part 0) ++ .mark .dot :: name.toList
  | .set object name value =>
    object.spell (w.part 0) ++
      .mark .dot :: (name.toList ++ .sign .equal :: value.spell (w.part 1))

def Expr.spellAll (es : List Expr) (w : Writing := .plain) : List Token :=
  match es with
  | [] => []
  | e :: es => e.spell (w.part 0) ++ Expr.spellMore es (w.part 1)

def Expr.spellMore (es : List Expr) (w : Writing := .plain) : List Token :=
  match es with
  | [] => []
  | e :: es => .mark .comma :: (e.spell (w.part 0) ++ Expr.spellMore es (w.part 1))

end

def spellMoreNames : List (Option Token) → List Token
  | [] => []
  | p :: ps => .mark .comma :: (p.toList ++ spellMoreNames ps)

def spellNames : List (Option Token) → List Token
  | [] => []
  | p :: ps => p.toList ++ spellMoreNames ps

def Expr.spellAfter (t : Token) (e : Expr) (w : Writing := .plain) : List Token :=
  if e.isMissing then [] else t :: e.spell w

mutual

def Stmt.spell (s : Stmt) (w : Writing := .plain) : List Token :=
  match s with
  | .missing => []
  | .expression e => e.spell (w.part 0) ++ [.mark .semicolon]
  | .print e => .keyword .print_ :: (e.spell (w.part 0) ++ [.mark .semicolon])
  | .var name init =>
    .keyword .var_ ::
      (name.toList ++ (init.spellAfter (.sign .equal) (w.part 0) ++ [.mark .semicolon]))
  | .block body => .mark .leftBrace :: (Stmt.spellAll body (w.part 0) ++ [.mark .rightBrace])
  | .if_ cond yes no =>
    .keyword .if_ :: .mark .leftParen :: (cond.spell (w.part 0) ++ .mark .rightParen ::
      (yes.spell (w.part 1) ++
        if no.isMissing then [] else .keyword .else_ :: no.spell (w.part 2)))
  | .while_ cond body =>
    .keyword .while_ :: .mark .leftParen ::
      (cond.spell (w.part 0) ++ .mark .rightParen :: body.spell (w.part 1))
  | .function f => .keyword .fun_ :: f.spell (w.part 0)
  | .return_ _ value => .keyword .return_ :: (value.spell (w.part 0) ++ [.mark .semicolon])
  | .class_ name methods superclass =>
    .keyword .class_ :: (name.toList ++ (superclass.spellAfter (.sign .less) (w.part 0) ++
      .mark .leftBrace :: (FunDecl.spellAll methods (w.part 1) ++ [.mark .rightBrace])))

def Stmt.spellAll (ss : List Stmt) (w : Writing := .plain) : List Token :=
  match ss with
  | [] => []
  | s :: ss => s.spell (w.part 0) ++ Stmt.spellAll ss (w.part 1)

def FunDecl.spell (f : FunDecl) (w : Writing := .plain) : List Token :=
  match f with
  | .mk name params body =>
    name.toList ++ .mark .leftParen :: (spellNames params ++ .mark .rightParen ::
      .mark .leftBrace :: (Stmt.spellAll body (w.part 0) ++ [.mark .rightBrace]))

def FunDecl.spellAll (fs : List FunDecl) (w : Writing := .plain) : List Token :=
  match fs with
  | [] => []
  | f :: fs => f.spell (w.part 0) ++ FunDecl.spellAll fs (w.part 1)

end

/-- How tightly an operator binds what stands before it, from an assignment on; zero if the token is
no operator. -/
def Kind.pull : Kind → Nat
  | .sign .equal => 1
  | .keyword .or_ => 2
  | .keyword .and_ => 3
  | .sign .bangEqual | .sign .equalEqual => 4
  | .sign .greater | .sign .greaterEqual | .sign .less | .sign .lessEqual => 5
  | .mark .minus | .mark .plus => 6
  | .sign .slash | .mark .star => 7
  | .mark .leftParen | .mark .dot => 9
  | _ => 0

def Expr.rank : Expr → Nat
  | .assign .. | .set .. => 1
  | .logical _ op _ | .binary _ op _ => (op.map fun t => t.kind.pull).getD 0
  | .unary .. => 8
  | .call .. | .get .. => 9
  | _ => 10

/-- The least rank of a left operand. Operators group to the left, but for `==` and `!=`. -/
def leftRank (r : Nat) : Nat := if r = 4 then 5 else r

/-- The least rank of a right operand. That of `and` and `or` is a term. -/
def rightRank (r : Nat) : Nat := if r = 4 then 4 else max 6 (r + 1)

structure Ranks where
  left : Nat → Nat
  right : Nat → Nat

namespace Ranks

def read : Ranks := ⟨leftRank, rightRank⟩

/-- As the grammar is written down: all operators group to the left. -/
def meant : Ranks := ⟨id, Nat.succ⟩

@[simp] theorem readLeft (r : Nat) : read.left r = leftRank r := rfl

@[simp] theorem readRight (r : Nat) : read.right r = rightRank r := rfl

end Ranks

def isOf (k : Kind) (t : Option Token) : Bool := t.any fun t => t.kind == k

def joins (lo hi : Nat) (left : Expr) (op : Option Token) (right : Expr)
    (R : Ranks := .read) : Bool :=
  op.any fun t => lo ≤ t.kind.pull && t.kind.pull ≤ hi && R.left t.kind.pull ≤ left.rank &&
    R.right t.kind.pull ≤ right.rank

mutual

def Expr.grammatical (e : Expr) (R : Ranks := .read) : Bool :=
  match e with
  | .missing => false
  | .literal .nil => false
  | .literal _ => true
  | .reference _ name => isOf .identifier name
  | .assign _ name value => isOf .identifier name && value.grammatical R
  | .this _ keyword => isOf (.keyword .this_) keyword
  | .super _ keyword method => isOf (.keyword .super_) keyword && isOf .identifier method
  | .unary op right =>
    (isOf (.mark .minus) op || isOf (.sign .bang) op) && 8 ≤ right.rank && right.grammatical R
  | .binary left op right =>
    joins 4 7 left op right R && left.grammatical R && right.grammatical R
  | .logical left op right =>
    joins 2 3 left op right R && left.grammatical R && right.grammatical R
  | .grouping inner => inner.grammatical R
  | .call callee paren args =>
    9 ≤ callee.rank && callee.grammatical R && isOf .rightParen paren &&
      Expr.grammaticalAll args R
  | .get object name => 9 ≤ object.rank && object.grammatical R && isOf .identifier name
  | .set object name value =>
    9 ≤ object.rank && object.grammatical R && isOf .identifier name && value.grammatical R

def Expr.grammaticalAll (es : List Expr) (R : Ranks := .read) : Bool :=
  match es with
  | [] => true
  | e :: es => e.grammatical R && Expr.grammaticalAll es R

end

def Stmt.endsOpen : Stmt → Bool
  | .if_ _ _ no => no.isMissing || no.endsOpen
  | .while_ _ body => body.endsOpen
  | _ => false

def Expr.isName : Expr → Bool
  | .reference _ name => isOf .identifier name
  | _ => false

mutual

def Stmt.grammatical : Stmt → Bool
  | .missing => false
  | .expression e => e.grammatical
  | .print e => e.grammatical
  | .var name init => isOf .identifier name && (init.isMissing || init.grammatical)
  | .block body => Stmt.grammaticalAll body
  | .if_ cond yes no =>
    cond.grammatical && (yes.grammatical && !yes.isDeclaration) &&
      (no.isMissing || (no.grammatical && !no.isDeclaration && !yes.endsOpen))
  | .while_ cond body => cond.grammatical && (body.grammatical && !body.isDeclaration)
  | .function f => f.grammatical
  | .return_ _ value => value.isMissing || value.grammatical
  | .class_ name methods superclass =>
    isOf .identifier name && (superclass.isMissing || superclass.isName) &&
      FunDecl.grammaticalAll methods

def Stmt.grammaticalAll : List Stmt → Bool
  | [] => true
  | s :: ss => s.grammatical && Stmt.grammaticalAll ss

def FunDecl.grammatical : FunDecl → Bool
  | .mk name params body =>
    isOf .identifier name && params.all (isOf .identifier) && Stmt.grammaticalAll body

def FunDecl.grammaticalAll : List FunDecl → Bool
  | [] => true
  | f :: fs => f.grammatical && FunDecl.grammaticalAll fs

end

mutual

def Expr.asRead : Expr → Expr
  | .missing => .missing
  | .literal d => .literal d
  | .reference _ name => .reference 0 name
  | .assign _ name value => .assign 0 name value.asRead
  | .this _ keyword => .this 0 keyword
  | .super _ keyword method => .super 0 keyword method
  | .unary op right => .unary op right.asRead
  | .binary left op right => .binary left.asRead op right.asRead
  | .logical left op right => .logical left.asRead op right.asRead
  | .grouping inner => .grouping inner.asRead
  | .call callee paren args => .call callee.asRead paren (Expr.asReadAll args)
  | .get object name => .get object.asRead name
  | .set object name value => .set object.asRead name value.asRead

def Expr.asReadAll : List Expr → List Expr
  | [] => []
  | e :: es => e.asRead :: Expr.asReadAll es

end

mutual

def Stmt.asRead (s : Stmt) (w : Writing := .plain) : Stmt :=
  match s with
  | .missing => .missing
  | .expression e => .expression e.asRead
  | .print e => .print e.asRead
  | .var name init => .var name init.asRead
  | .block body => .block (Stmt.asReadAll body (w.part 0))
  | .if_ cond yes no => .if_ cond.asRead (yes.asRead (w.part 1)) (no.asRead (w.part 2))
  | .while_ cond body => .while_ cond.asRead (body.asRead (w.part 1))
  | .function f => .function (f.asRead (w.part 0))
  | .return_ _ value =>
    .return_ (value.spell (w.part 0) ++ [Token.mark .semicolon]).head? value.asRead
  | .class_ name methods superclass =>
    .class_ name (FunDecl.asReadAll methods (w.part 1)) superclass.asRead

def Stmt.asReadAll (ss : List Stmt) (w : Writing := .plain) : List Stmt :=
  match ss with
  | [] => []
  | s :: ss => s.asRead (w.part 0) :: Stmt.asReadAll ss (w.part 1)

def FunDecl.asRead (f : FunDecl) (w : Writing := .plain) : FunDecl :=
  match f with
  | .mk name params body => .mk name params (Stmt.asReadAll body (w.part 0))

def FunDecl.asReadAll (fs : List FunDecl) (w : Writing := .plain) : List FunDecl :=
  match fs with
  | [] => []
  | f :: fs => f.asRead (w.part 0) :: FunDecl.asReadAll fs (w.part 1)

end

end Lox
