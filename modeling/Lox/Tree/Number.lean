import Lox.Tree

/-!
Node numbers. Trees are numbered when they are made, from a counter that is never set back.
-/

namespace Lox

abbrev Numbering := StateM Nat

def freshNode : Numbering Nat :=
  modifyGet fun n => (n, n + 1)

mutual

def Expr.number : Expr → Numbering Expr
  | .missing => return .missing
  | .literal d => return .literal d
  | .reference _ name => return .reference (← freshNode) name
  | .assign _ name value => do
    let value ← value.number
    return .assign (← freshNode) name value
  | .this _ keyword => return .this (← freshNode) keyword
  | .super _ keyword method => return .super (← freshNode) keyword method
  | .unary op right => return .unary op (← right.number)
  | .binary left op right => do
    let left ← left.number
    return .binary left op (← right.number)
  | .logical left op right => do
    let left ← left.number
    return .logical left op (← right.number)
  | .grouping inner => return .grouping (← inner.number)
  | .call callee paren args => do
    let callee ← callee.number
    return .call callee paren (← Expr.numberAll args)
  | .get object name => return .get (← object.number) name
  | .set object name value => do
    let object ← object.number
    return .set object name (← value.number)

def Expr.numberAll : List Expr → Numbering (List Expr)
  | [] => return []
  | e :: es => do
    let e ← e.number
    return e :: (← Expr.numberAll es)

end

mutual

def Stmt.number : Stmt → Numbering Stmt
  | .missing => return .missing
  | .expression e => return .expression (← e.number)
  | .print e => return .print (← e.number)
  | .var name init => return .var name (← init.number)
  | .block body => return .block (← Stmt.numberAll body)
  | .if_ cond yes no => do
    let cond ← cond.number
    let yes ← yes.number
    return .if_ cond yes (← no.number)
  | .while_ cond body => do
    let cond ← cond.number
    return .while_ cond (← body.number)
  | .function f => return .function (← f.number)
  | .return_ keyword value => return .return_ keyword (← value.number)
  | .class_ name methods superclass => do
    let methods ← FunDecl.numberAll methods
    return .class_ name methods (← superclass.number)

def Stmt.numberAll : List Stmt → Numbering (List Stmt)
  | [] => return []
  | s :: ss => do
    let s ← s.number
    return s :: (← Stmt.numberAll ss)

def FunDecl.number : FunDecl → Numbering FunDecl
  | .mk name params body => return .mk name params (← Stmt.numberAll body)

def FunDecl.numberAll : List FunDecl → Numbering (List FunDecl)
  | [] => return []
  | f :: fs => do
    let f ← f.number
    return f :: (← FunDecl.numberAll fs)

end

def Tree.number : Tree → Numbering Tree
  | .program body => return .program (← Stmt.numberAll body)
  | .expression e => return .expression (← e.number)

end Lox
