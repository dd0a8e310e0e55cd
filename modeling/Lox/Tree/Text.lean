import Lox.Tree
import Lox.Fault

/-!
The text of a tree. A list inside a tree is written in brackets, its items quoted once more at each
level; a hole is written `None`.
-/

namespace Lox

def named : Option Token → Except Fault Token
  | some t => .ok t
  | none => .error (.absent "lexeme")

def lexeme (t : Option Token) : Except Fault String :=
  (·.lexeme) <$> named t

mutual

def Expr.text : Expr → Except Fault String
  | .missing => return "None"
  | .literal d => return "literal " ++ d.render
  | .reference _ name => return "(varexpr " ++ (← lexeme name) ++ ")"
  | .assign _ name value => return "(assign " ++ (← lexeme name) ++ " to " ++ (← value.text) ++ " )"
  | .this _ keyword => return "(keyword: " ++ Token.renderOption keyword ++ ")"
  | .super _ keyword method =>
    return "(keyword: " ++ Token.renderOption keyword ++ " method: " ++ Token.renderOption method ++
      ")"
  | .unary op right => return "(Unary " ++ (← lexeme op) ++ " " ++ (← right.text) ++ ")"
  | .binary left op right =>
    return "(binary " ++ (← lexeme op) ++ " " ++ (← left.text) ++ " " ++ (← right.text) ++ ")"
  | .logical left op right =>
    return "(Logical " ++ (← lexeme op) ++ " " ++ (← left.text) ++ " " ++ (← right.text) ++ ")"
  | .grouping inner => return "(group " ++ (← inner.text) ++ ")"
  | .call callee _ args =>
    return "(call " ++ (← callee.text) ++ " " ++ Text.bracketed (← Expr.quotedAll args) ++ ")"
  | .get object name =>
    return "(get " ++ (← object.text) ++ " token: " ++ Token.renderOption name ++ ")"
  | .set object name value =>
    return "(set " ++ (← object.text) ++ " token: " ++ Token.renderOption name ++ " value: " ++
      (← value.text) ++ ")"

/-- The items of a bracketed list; holes stand unquoted. -/
def Expr.quotedAll : List Expr → Except Fault (List String)
  | [] => return []
  | e :: es => do
    let item ← e.text
    return (if e.isMissing then item else Text.quote item) :: (← Expr.quotedAll es)

end

mutual

def Stmt.text : Stmt → Except Fault String
  | .missing => return "None"
  | .expression e => return "(statement " ++ (← e.text) ++ ")"
  | .print e => return "(print " ++ (← e.text) ++ ")"
  | .var name init =>
    return "(Var => lexeme:" ++ (← lexeme name) ++ " initializer:" ++ (← init.text) ++ ")"
  | .block body => return "(block " ++ Text.bracketed (← Stmt.quotedAll body) ++ ")"
  | .if_ cond yes no =>
    return "(If " ++ (← cond.text) ++ " then " ++ (← yes.text) ++ " else " ++ (← no.text) ++ ")"
  | .while_ cond body => return "(while (" ++ (← cond.text) ++ ") body :" ++ (← body.text) ++ ")"
  | .function f => f.text
  | .return_ keyword value =>
    return "return keyword: " ++ Token.renderOption keyword ++ " value:" ++ (← value.text)
  | .class_ name methods superclass =>
    return "(class " ++ Token.renderOption name ++ " superclass: " ++ (← superclass.text) ++
      " methods: " ++ Text.bracketed (← FunDecl.quotedAll methods) ++ ")"

def Stmt.quotedAll : List Stmt → Except Fault (List String)
  | [] => return []
  | s :: ss => do
    let item ← s.text
    return (if s.isMissing then item else Text.quote item) :: (← Stmt.quotedAll ss)

def FunDecl.text : FunDecl → Except Fault String
  | .mk name params body =>
    return "(function " ++ (← lexeme name) ++ " " ++
      Text.bracketed (params.map Token.renderOption) ++ " " ++
      Text.bracketed (← Stmt.quotedAll body) ++ " )"

def FunDecl.quotedAll : List FunDecl → Except Fault (List String)
  | [] => return []
  | f :: fs => do
    let item ← f.text
    return Text.quote item :: (← FunDecl.quotedAll fs)

end

def Stmt.texts (body : List Stmt) : Except Fault (List (Option String)) :=
  body.mapM fun s => do
    let t ← s.text
    return if s.isMissing then none else some t

end Lox
