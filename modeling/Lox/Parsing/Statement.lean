import Lox.Parsing.Expression

/-!
Statements and declarations. A fault inside a declaration is written out, the rest of the
declaration is passed over, and a hole stands in its place.
-/

namespace Lox.Parse

def parameters (fuel : Nat) : Parse (List (Option Token)) := do
  let one := expect .identifier "Expect an identifier as paramater"
  let first ← one
  return first :: (← whileM fuel (skip .comma) one)

def varDeclaration (fuel : Nat) : Parse Stmt := do
  let name ← expect .identifier "Expect variable name."
  let init ← if ← skip .equal then expression fuel else pure .missing
  let _ ← expect .semicolon "Expect ';' after variable declaration."
  return .var name init

def unlessLone {α : Type} (a : α) (p : Parse α) : Parse α := do
  if (← get).allowLone && (← isAtEnd) then
    modify fun c => { c with foundLone := true }
    return a
  else p

def closed (e : Expr) : Parse Stmt := do
  let _ ← expect .semicolon "Expect ';' after expression."
  return .expression e

def ended (e : Expr) : Parse Stmt :=
  unlessLone (.expression e) (closed e)

def expressionStatement (fuel : Nat) : Parse Stmt := do
  ended (← expression fuel)

def printStatement (fuel : Nat) : Parse Stmt := do
  let value ← expression fuel
  let _ ← expect .semicolon "Expect ';' after value."
  return .print value

/-- The keyword kept is the token after the word `return`. -/
def returnStatement (fuel : Nat) : Parse Stmt := do
  let keyword ← current
  let value ← if ← check .semicolon then pure .missing else expression fuel
  let _ ← expect .semicolon "Excpect ';' after return statement"
  return .return_ keyword value

def desugarFor (init : Option Stmt) (cond step : Expr) (body : Stmt) : Stmt :=
  let body := if step.isMissing then body else .block [body, .expression step]
  let cond := if cond.isMissing then .literal (.bool true) else cond
  let loop := Stmt.while_ cond body
  match init with
  | none => loop
  | some s => .block [s, loop]

def clause (fuel : Nat) (closing : Kind) : Parse Expr := do
  if ← check closing then return .missing else expression fuel

def initializer (fuel : Nat) : Parse (Option Stmt) := do
  if ← skip .semicolon then return none
  else if ← skip (.keyword .var_) then return some (← varDeclaration fuel)
  else return some (← expressionStatement fuel)

def anchors : List Kind :=
  [.keyword .class_, .keyword .fun_, .keyword .var_, .keyword .for_, .keyword .if_,
   .keyword .while_, .keyword .print_, .keyword .return_]

def passOver : (fuel : Nat) → Parse Unit
  | 0 => throw .outOfFuel
  | n + 1 => do
    if ← isAtEnd then return
    if ← checkAny (.semicolon :: anchors) then return
    advance
    passOver n

def synchronize (fuel : Nat) : Parse Unit := do
  advance
  passOver fuel

def recovering (fuel : Nat) (p : Parse Stmt) : Parse Stmt :=
  tryCatch p fun stop =>
    match stop with
    | .fault f => do
      modify fun c => { c with console := c.console.push ("EXCEPTION " ++ f.message ++ "\n") }
      synchronize fuel
      return .missing
    | stop => throw stop

def header (fuel : Nat) (what : String) : Parse (Option Token × List (Option Token)) := do
  let name ← expect .identifier ("Expect " ++ what ++ " name.")
  let _ ← expect .leftParen ("Expect an '(' after " ++ what ++ " name")
  let params ← if ← check .rightParen then pure [] else parameters fuel
  let _ ← expect .rightParen "Expect an ')' after the parameters"
  let _ ← expect .leftBrace ("Expect an '\x7b' before  " ++ what ++ " ")
  return (name, params)

def announced (class_ : Parse Stmt) (fun_ : Parse FunDecl) (var_ other : Parse Stmt) :
    Parse Stmt := do
  if ← skip (.keyword .class_) then class_
  else if ← skip (.keyword .fun_) then return .function (← fun_)
  else if ← skip (.keyword .var_) then var_
  else other

def inClass : Parse Bool := do
  if ← isAtEnd then return false else return !(← check .rightBrace)

def inBlock : Parse Bool := do
  return !(← check .rightBrace) && !(← isAtEnd)

def unfinished : Parse Bool := do
  return !(← isAtEnd)

mutual

def declaration : (fuel : Nat) → Parse Stmt
  | 0 => throw .outOfFuel
  | n + 1 => recovering n
    (announced (classDeclaration n) (function n "function") (varDeclaration n) (statement n))

def classDeclaration : (fuel : Nat) → Parse Stmt
  | 0 => throw .outOfFuel
  | n + 1 => do
    let name ← expect .identifier "Expect a identifier after 'class'"
    let superclass ←
      if ← skip (.sign .less) then
        pure (Expr.reference 0 (← expect .identifier "Expect superclass name after '<'"))
      else pure .missing
    let _ ← expect .leftBrace "Expect '\x7b' for a class"
    let methods ← whileM n inClass (function n "method")
    let _ ← expect .rightBrace "Expect '\x7d' at the end of a class"
    return .class_ name methods superclass

def function : (fuel : Nat) → (what : String) → Parse FunDecl
  | 0, _ => throw .outOfFuel
  | n + 1, what => do
    let (name, params) ← header n what
    return .mk name params (← block n)

def statement : (fuel : Nat) → Parse Stmt
  | 0 => throw .outOfFuel
  | n + 1 => do
    if ← skip (.keyword .for_) then forStatement n
    else if ← skip (.keyword .if_) then ifStatement n
    else if ← skip (.keyword .print_) then printStatement n
    else if ← skip (.keyword .return_) then returnStatement n
    else if ← skip (.keyword .while_) then whileStatement n
    else if ← skip .leftBrace then return .block (← block n)
    else expressionStatement n

def forStatement : (fuel : Nat) → Parse Stmt
  | 0 => throw .outOfFuel
  | n + 1 => do
    let _ ← expect .leftParen "Expect ( after 'for'"
    let init ← initializer n
    let cond ← clause n .semicolon
    let _ ← expect .semicolon "Expect ';' after loop condition."
    let step ← clause n .rightParen
    let _ ← expect .rightParen "Expect ')' after for clauses."
    return desugarFor init cond step (← statement n)

def ifStatement : (fuel : Nat) → Parse Stmt
  | 0 => throw .outOfFuel
  | n + 1 => do
    let _ ← expect .leftParen "Expect '(' after 'if'."
    let cond ← expression n
    let _ ← expect .rightParen "Expect ')' after if condition."
    let yes ← statement n
    let no ← if ← skip (.keyword .else_) then statement n else pure .missing
    return .if_ cond yes no

def whileStatement : (fuel : Nat) → Parse Stmt
  | 0 => throw .outOfFuel
  | n + 1 => do
    let _ ← expect .leftParen "Expect '(' after value."
    let cond ← expression n
    let _ ← expect .rightParen "Expect ')' after value."
    return .while_ cond (← statement n)

def block : (fuel : Nat) → Parse (List Stmt)
  | 0 => throw .outOfFuel
  | n + 1 => do
    let body ← whileM n inBlock (declaration n)
    let _ ← expect .rightBrace "Expect '\x7d' after value."
    return body

end

def program (fuel : Nat) : Parse (List Stmt) :=
  whileM fuel unfinished (declaration fuel)

def loneTree : Stmt → Tree
  | .expression e => .expression e
  | _ => .nothing

/-- Only the first declaration may be a lone expression. One found before, on whatever line, counts
for good. -/
def lineLoop (p : Parse Stmt) : (fuel : Nat) → List Stmt → Parse Tree
  | 0, _ => throw .outOfFuel
  | n + 1, done => do
    if ← isAtEnd then return .program done
    let s ← p
    if (← get).foundLone then return loneTree s
    modify fun c => { c with allowLone := false }
    lineLoop p n (done ++ [s])

def typedLine (fuel : Nat) : Parse Tree := do
  modify fun c => { c with allowLone := true }
  lineLoop (declaration fuel) fuel []

def run {α : Type} (rule : (fuel : Nat) → Parse α) : Parse α := do
  rule (← get).budget

end Lox.Parse
