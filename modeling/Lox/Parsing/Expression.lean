import Lox.Parsing.Cursor

/-!
Expressions. The right side of `and` and `or` is a term, and that of `==` and `!=` an equality
again. Where no expression starts there is a hole, and no report; an assignment to something else
than a variable or a property is the left side alone, and no report either.
-/

namespace Lox.Parse

def chain (ops : List Kind) (operand : Parse Expr) (build : Expr → Option Token → Expr → Expr) :
    (fuel : Nat) → Expr → Parse Expr
  | 0, _ => throw .outOfFuel
  | n + 1, left => do
    if ← checkAny ops then
      let op ← take
      let right ← operand
      chain ops operand build n (build left op right)
    else return left

def assigned (target value : Expr) : Expr :=
  match target with
  | .reference _ name => .assign 0 name value
  | .get object name => .set object name value
  | e => e

mutual

def assignment : (fuel : Nat) → Parse Expr
  | 0 => throw .outOfFuel
  | n + 1 => do
    let target ← disjunction n
    if ← skip .equal then
      return assigned target (← assignment n)
    else return target

def disjunction : (fuel : Nat) → Parse Expr
  | 0 => throw .outOfFuel
  | n + 1 => do chain [.keyword .or_] (term n) .logical n (← conjunction n)

def conjunction : (fuel : Nat) → Parse Expr
  | 0 => throw .outOfFuel
  | n + 1 => do chain [.keyword .and_] (term n) .logical n (← equality n)

def equality : (fuel : Nat) → Parse Expr
  | 0 => throw .outOfFuel
  | n + 1 => do
    chain [.sign .bangEqual, .sign .equalEqual] (equality n) .binary n (← comparison n)

def comparison : (fuel : Nat) → Parse Expr
  | 0 => throw .outOfFuel
  | n + 1 => do
    chain [.sign .greater, .sign .greaterEqual, .sign .less, .sign .lessEqual] (term n) .binary n
      (← term n)

def term : (fuel : Nat) → Parse Expr
  | 0 => throw .outOfFuel
  | n + 1 => do chain [.mark .minus, .mark .plus] (factor n) .binary n (← factor n)

def factor : (fuel : Nat) → Parse Expr
  | 0 => throw .outOfFuel
  | n + 1 => do chain [.sign .slash, .mark .star] (unary n) .binary n (← unary n)

def unary : (fuel : Nat) → Parse Expr
  | 0 => throw .outOfFuel
  | n + 1 => do
    if ← checkAny [.mark .minus, .sign .bang] then
      let op ← take
      return .unary op (← unary n)
    else call n

def call : (fuel : Nat) → Parse Expr
  | 0 => throw .outOfFuel
  | n + 1 => do callTail n (← primary n)

def callTail : (fuel : Nat) → Expr → Parse Expr
  | 0, _ => throw .outOfFuel
  | n + 1, callee => do
    if ← skip .leftParen then
      let args ← arguments n
      let paren ← expect .rightParen "Expect ')' after arguments"
      callTail n (.call callee paren args)
    else if ← skip .dot then
      let name ← expect .identifier "expect property name after '.'"
      callTail n (.get callee name)
    else return callee

def arguments : (fuel : Nat) → Parse (List Expr)
  | 0 => throw .outOfFuel
  | n + 1 => do
    if ← check .rightParen then return []
    else
      let first ← assignment n
      return first :: (← whileM n (skip .comma) (assignment n))

def primary : (fuel : Nat) → Parse Expr
  | 0 => throw .outOfFuel
  | n + 1 => do
    match ← kind with
    | .number | .string =>
      match ← take with
      | some t => return .literal t.literal
      | none => return .missing
    | .keyword .true_ =>
      advance
      return .literal (.bool true)
    | .keyword .false_ =>
      advance
      return .literal (.bool false)
    | .nothing =>
      advance
      return .literal .nil
    | .keyword .this_ => return .this 0 (← take)
    | .identifier => return .reference 0 (← take)
    | .mark .leftParen =>
      advance
      let inner ← assignment n
      let _ ← expect .rightParen "Expect ')' after expression."
      return .grouping inner
    | .keyword .super_ =>
      let keyword ← take
      let _ ← expect .dot "Expect '.' after super."
      let method ← expect .identifier "Expect '.' after super."
      return .super 0 keyword method
    | _ => return .missing

end

def expression (fuel : Nat) : Parse Expr := assignment fuel

end Lox.Parse
