import Lox.Index
import Lox.Report
import Lox.Tree

/-!
The cursor: a place in a list of tokens, with the reports and the lines written so far. A parser
that gives up keeps the cursor where it was. Tokens may nest to any depth: running out of stack is
not modelled.
-/

namespace Lox

/-- Parsing stops for good at the error that fills `limit`, and at every later one. `allowLone` says
whether an expression may stand at the end without a semicolon, and `foundLone` that one did. -/
structure Cursor where
  tokens : Array (Option Token)
  index : Int := 0
  limit : Nat := 25
  log : Log := []
  console : Array String := #[]
  allowLone : Bool := true
  foundLone : Bool := false

abbrev Parse := EStateM Stop Cursor

/-- Enough steps for every list of tokens that can be parsed: a dozen rules may be entered between
two tokens or two errors. -/
def Cursor.budget (c : Cursor) : Nat :=
  64 * (max c.tokens.size c.index.natAbs + c.limit + 4)

namespace Parse

def isAtEnd : Parse Bool := do
  let c ← get
  return c.index + 1 == c.tokens.size

def current : Parse (Option Token) := do
  let c ← get
  match (cell? c.tokens.size c.index).bind fun i => c.tokens[i]? with
  | some t => return t
  | none => throw (.fault .outOfRange)

def peek : Parse (Option (Option Token)) := do
  let c ← get
  if c.index = c.tokens.size then return none
  else return some (← current)

def advance : Parse Unit := do
  if !(← isAtEnd) then modify fun c => { c with index := c.index + 1 }

def take : Parse (Option Token) := do
  let t ← current
  advance
  return t

def kind : Parse Kind := do
  match ← current with
  | some t => return t.kind
  | none => throw (.fault (.absent "type"))

def check (k : Kind) : Parse Bool := do
  return (← kind) == k

def checkAny (ks : List Kind) : Parse Bool := do
  return ks.contains (← kind)

def report (e : ParseError) : Parse Unit := do
  modify fun c => { c with log := c.log ++ [.parse e] }
  let c ← get
  if c.limit ≤ c.log.parse.length then throw .errorLimit

def expect (k : Kind) (message : String) : Parse (Option Token) := do
  if ← check k then take
  else
    match ← current with
    | some t =>
      report ⟨t, message⟩
      return none
    | none => throw (.fault (.absent "type"))

def skip (k : Kind) : Parse Bool := do
  if ← check k then
    advance
    return true
  else return false

def whileM {α : Type} : (fuel : Nat) → Parse Bool → Parse α → Parse (List α)
  | 0, _, _ => throw .outOfFuel
  | n + 1, c, p => do
    if ← c then
      let x ← p
      return x :: (← whileM n c p)
    else return []

end Parse

abbrev Kind.leftParen : Kind := .mark .leftParen
abbrev Kind.rightParen : Kind := .mark .rightParen
abbrev Kind.leftBrace : Kind := .mark .leftBrace
abbrev Kind.rightBrace : Kind := .mark .rightBrace
abbrev Kind.comma : Kind := .mark .comma
abbrev Kind.dot : Kind := .mark .dot
abbrev Kind.semicolon : Kind := .mark .semicolon
abbrev Kind.equal : Kind := .sign .equal

end Lox
