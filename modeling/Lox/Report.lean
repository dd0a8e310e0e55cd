import Lox.Fault

/-!
Reports: what the stages tell the user. A log keeps all of them in the order they were made; each
stage's own list is a view of it.
-/

namespace Lox

/-- Line numbers start at zero and are shown from one. -/
inductive LexicalError where
  | unterminated (line : Int)
  | unexpected (line : Int) (text : String)
  deriving DecidableEq, Repr

namespace LexicalError

def line : LexicalError → Int
  | .unterminated i => i
  | .unexpected i _ => i

def message : LexicalError → String
  | .unterminated i => "[line " ++ toString (i + 1) ++ "] Error: Unterminated string."
  | .unexpected i c => "[line " ++ toString (i + 1) ++ "] Error: Unexpected character: " ++ c

def during (line : Int) (pending : Token) (text : String) : LexicalError :=
  if pending.kind = .string then .unterminated line else .unexpected line text

end LexicalError

structure ParseError where
  token : Token
  expected : String
  deriving DecidableEq

def ParseError.message (e : ParseError) : String :=
  if e.token.kind = .eof then e.token.line.render ++ " at end, " ++ e.expected
  else e.token.line.render ++ ", at " ++ e.token.lexeme ++ " , " ++ e.expected

inductive RunError where
  | fault (f : Fault)
  | returned (shown : String)
  deriving DecidableEq

def RunError.message : RunError → String
  | .fault f => f.message
  | .returned s => s

inductive Report where
  | lexical (e : LexicalError)
  | parse (e : ParseError)
  | resolution (message : String)
  | runtime (e : RunError)
  deriving DecidableEq

def Report.message : Report → String
  | .lexical e => e.message
  | .parse e => e.message
  | .resolution m => m
  | .runtime e => e.message

abbrev Log := List Report

namespace Log

def lexical (log : Log) : List LexicalError :=
  log.filterMap fun | .lexical e => some e | _ => none

def parse (log : Log) : List ParseError :=
  log.filterMap fun | .parse e => some e | _ => none

def resolution (log : Log) : List String :=
  log.filterMap fun | .resolution m => some m | _ => none

def runtime (log : Log) : List RunError :=
  log.filterMap fun | .runtime e => some e | _ => none

def hasLexical (log : Log) : Bool :=
  !log.lexical.isEmpty

def text (log : Log) : String :=
  String.join (log.map fun r => r.message ++ "\n")

end Log
end Lox
