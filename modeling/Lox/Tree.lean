import Lox.Token

/-!
Syntax trees. A tree may have holes: an expression or a statement is `missing`, a token is `none`,
where the parser looked for one in vain or where the grammar leaves it out.
-/

namespace Lox

/-- The four expressions that name a variable carry a node number, which tells every use of a name
apart from every other. -/
inductive Expr where
  | missing
  | literal (value : Datum)
  | reference (node : Nat) (name : Option Token)
  | assign (node : Nat) (name : Option Token) (value : Expr)
  | this (node : Nat) (keyword : Option Token)
  | super (node : Nat) (keyword method : Option Token)
  | unary (op : Option Token) (right : Expr)
  | binary (left : Expr) (op : Option Token) (right : Expr)
  | logical (left : Expr) (op : Option Token) (right : Expr)
  | grouping (inner : Expr)
  | call (callee : Expr) (paren : Option Token) (args : List Expr)
  | get (object : Expr) (name : Option Token)
  | set (object : Expr) (name : Option Token) (value : Expr)

mutual

inductive Stmt where
  | missing
  | expression (e : Expr)
  | print (e : Expr)
  | var (name : Option Token) (init : Expr)
  | block (body : List Stmt)
  | if_ (cond : Expr) (yes no : Stmt)
  | while_ (cond : Expr) (body : Stmt)
  | function (f : FunDecl)
  | return_ (keyword : Option Token) (value : Expr)
  | class_ (name : Option Token) (methods : List FunDecl) (superclass : Expr)

inductive FunDecl where
  | mk (name : Option Token) (params : List (Option Token)) (body : List Stmt)

end

namespace FunDecl

def name : FunDecl → Option Token
  | .mk n _ _ => n

def params : FunDecl → List (Option Token)
  | .mk _ ps _ => ps

def body : FunDecl → List Stmt
  | .mk _ _ b => b

end FunDecl

instance : Inhabited Expr := ⟨.missing⟩
instance : Inhabited Stmt := ⟨.missing⟩

def Expr.isMissing : Expr → Bool
  | .missing => true
  | _ => false

def Stmt.isMissing : Stmt → Bool
  | .missing => true
  | _ => false

/-- What a parse yields: a program, or a lone expression; a missing one if there is nothing. -/
inductive Tree where
  | program (body : List Stmt)
  | expression (e : Expr)

def Tree.nothing : Tree := .expression .missing

end Lox
