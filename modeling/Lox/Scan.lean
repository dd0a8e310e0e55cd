import Lox.Report

/-!
Scanning, one line at a time. A line is read character by character with at most one token pending;
the tokens of all lines form one list that ends in a single end token.

Two rules are worth knowing. A quote that follows a pending sign takes the sign's text into the
string's lexeme. A second point closes a pending string as it closes a number.
-/

namespace Lox.Scan

inductive Pending where
  | none
  | word (taken : List Char)
  | number (taken : List Char)
  | string (lead taken : List Char)
  | sign (s : Sign)
  deriving DecidableEq, Repr

def Pending.lexeme : Pending → List Char
  | .none => []
  | .word w => w.reverse
  | .number n => n.reverse
  | .string lead body => lead ++ body.reverse
  | .sign s => s.lexeme

structure State where
  line : Int
  tokens : Array Token
  log : Log
  pending : Pending

abbrev M := EStateM Fault State

def push (t : Token) : M Unit :=
  modify fun s => { s with tokens := s.tokens.push t }

def setPending (p : Pending) : M Unit :=
  modify fun s => { s with pending := p }

def report (e : LexicalError) : M Unit :=
  modify fun s => { s with log := s.log ++ [.lexical e] }

def trailingZeros (cs : List Char) : Nat :=
  (cs.reverse.takeWhile (· == '0')).length

/-- Goes back over the zeros before a place and cuts the text behind each of them. There is no result
if a place is reached that the text, as cut so far, does not have. -/
def cutZeros? : (place : Nat) → (text : List Char) → Option (List Char)
  | 0, text => some text
  | i + 1, text => do
    let c ← text[i]?
    if c == '.' || c != '0' then return text else cutZeros? i (text.take (i + 1))

def trimZeros (cs : List Char) : List Char :=
  (cutZeros? cs.length cs).getD cs

def numeral (cs : List Char) : List Char :=
  if cs.contains '.' then trimZeros cs else cs ++ ['.', '0']

structure Numeric where
  lexeme : List Char
  endPoint : Bool

def Numeric.of (cs : List Char) : Numeric :=
  if cs.getLast? = some '.' then ⟨cs.dropLast, true⟩ else ⟨cs, false⟩

/-- Later reports on the line count from the last character that is not a zero, once a fraction has
been trimmed. -/
def Numeric.line (n : Numeric) (line : Int) : Int :=
  if n.lexeme.contains '.' then (n.lexeme.length - trailingZeros n.lexeme : Nat) - 1 else line

def pushNumber (kind : Kind) (cs : List Char) : M Unit := do
  let n := Numeric.of cs
  let text := numeral n.lexeme
  match Number.readDouble? text with
  | none => throw (.doubleText (String.ofList text))
  | some x =>
    push ⟨kind, String.ofList n.lexeme, .double x, .text ""⟩
    if n.endPoint then push (.mark .dot)
    modify fun s => { s with line := n.line s.line, pending := .none }

def isNameChar (c : Char) : Bool :=
  Text.isLetter c || Text.isDigit c || c == '_'

def isBlank (c : Char) : Bool :=
  c == ' ' || c == '\t' || c == '\n'

def settle (c : Char) : M Unit := do
  match (← get).pending with
  | .word w =>
    if Text.isSplitCapital c then throw .splitCapital
    if !isNameChar c then
      push (.word w.reverse)
      setPending .none
  | .number n =>
    if (!Text.isDigit c && c != '.') || (c == '.' && n.contains '.') then
      pushNumber .number n.reverse
  | .string lead body =>
    if c == '.' && body.contains '.' then pushNumber .string (lead ++ body.reverse)
  | _ => pure ()

def flushSign : M Unit := do
  match (← get).pending with
  | .sign s =>
    push (.sign s)
    setPending .none
  | _ => pure ()

def feedQuote : M Unit := do
  match (← get).pending with
  | .string lead body =>
    let body := body.reverse
    push ⟨.string, String.ofList (lead ++ body), .text (String.ofList body), .text ""⟩
    setPending .none
  | p => setPending (.string p.lexeme [])

def feedDigit (c : Char) : M Unit := do
  flushSign
  match (← get).pending with
  | .number n => setPending (.number (c :: n))
  | _ => setPending (.number [c])

def feedSign (t : Sign) : M Unit := do
  match (← get).pending with
  | .sign s =>
    match s.join? t with
    | some joined => setPending (.sign joined)
    | none =>
      push (.sign s)
      setPending (.sign t)
  | _ => setPending (.sign t)

def feedOther (c : Char) : M Unit := do
  match Sign.ofChar? c, Mark.ofChar? c with
  | some t, _ => feedSign t
  | none, some m =>
    flushSign
    push (.mark m)
  | none, none =>
    if Text.isSplitCapital c then throw .splitCapital
    if Text.isLetter c || c == '_' then
      flushSign
      setPending (.word [c])
    else
      report (.unexpected (← get).line (String.singleton c))
      flushSign

def feedBehind (c : Char) : Pending → M Bool
  | .word w => do
    setPending (.word (c :: w))
    return true
  | .string lead body => do
    if c == '"' then feedQuote else setPending (.string lead (c :: body))
    return true
  | .number _ => do
    feedDigit c
    return true
  | p => do
    if c == '"' then feedQuote
    else if Text.isDigit c then feedDigit c
    else if isBlank c then flushSign
    else if c == '/' && p == .sign .slash then
      setPending .none
      return false
    else feedOther c
    return true

def feed (c : Char) : M Bool := do
  settle c
  feedBehind c (← get).pending

def feedAll : List Char → M Unit
  | [] => pure ()
  | c :: cs => do if ← feed c then feedAll cs

/-- Ends what is pending at the end of the line. A string that is still open is lost. -/
def leave : M Unit := do
  let s ← get
  match s.pending with
  | .none => pure ()
  | .word w => push (.word w.reverse)
  | .number n => pushNumber .number n.reverse
  | .string .. => report (.unterminated s.line)
  | .sign t => push (.sign t)
  setPending .none

def finish : M Unit := do
  leave
  push .eof

def dropEnd (tokens : Array Token) : Array Token :=
  if tokens.back?.any (fun t => t.kind == .eof) then tokens.pop else tokens

/-- Scans one more line. A fault keeps the tokens found before it, without an end token. -/
def line (text : List Char) : M Unit := do
  modify fun s => { s with tokens := dropEnd s.tokens, pending := .none }
  feedAll text
  finish

end Lox.Scan
