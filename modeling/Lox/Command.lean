import Lox.Session
import Lox.Text.Lines
import Lox.Text.Quoted

/-!
The command: a script from a file, or lines typed at a prompt.
-/

namespace Lox

inductive Request where
  | usage
  | script (path : String)
  | prompt
  deriving DecidableEq, Repr

def Request.ofArguments : List String → Request
  | [] => .prompt
  | [path] => .script path
  | _ => .usage

def usageText : String := "Usage: plox.py <filename>\n"

inductive Crash where
  | stopped (s : Stop)
  | endOfInput
  | loneExpression
  | noSuchFile (path : String)

def Crash.message : Crash → String
  | .stopped s => s.message
  | .endOfInput => "EOF when reading a line"
  | .loneExpression => "Can't instantiate abstract class Expr with abstract method accept"
  | .noSuchFile path =>
    "[Errno 2] No such file or directory: " ++ Text.quote path

structure Outcome where
  exit : Option Nat := none
  crash : Option Crash := none
  output : String := ""
  errors : String := ""

namespace Session

def output (s : Session) : String :=
  String.join s.machine.console.toList

def outcome (s : Session) (exit : Option Nat) (crash : Option Crash) : Outcome :=
  ⟨exit, crash, s.output, s.log.text⟩

/-- All stages on the lines of a script. Errors that a stage reports do not keep the next from
running. -/
def script (text : List Char) : Interact Unit := do
  scanLines 0 (Text.lines text)
  parse
  resolve
  let _ ← interpret

def malformedExit : Nat := 65

def runScript (text : List Char) (s : Session) : Outcome :=
  match script text s with
  | .ok _ s => s.outcome (if s.log.hasLexical then some malformedExit else none) none
  | .error e s => s.outcome none (some (.stopped e))

def read (line : Int) (text : List Char) : Interact Unit := do
  scanLine line text
  parseTyped

/-- Once there has been a lexical error nothing runs any more. Gives the crash that ends the
dialogue, if it does. -/
def answer : Interact (Option Crash) := do
  let s ← get
  if s.log.hasLexical then return none
  match s.tree with
  | .program _ =>
    let _ ← interpret
    return none
  | .expression _ => return some .loneExpression

def typed (line : Int) (text : List Char) : Interact (Option Crash) := do
  read line text
  answer

def promptText : String := ">"

def dialogue : (line : Int) → List (List Char) → Interact Crash
  | _, [] => do
    write promptText
    return .endOfInput
  | i, l :: ls => do
    write promptText
    match ← typed i l with
    | some c => return c
    | none => dialogue (i + 1) ls

def runPrompt (lines : List (List Char)) (s : Session) : Outcome :=
  match dialogue 1 lines s with
  | .ok c s => s.outcome none (some c)
  | .error e s => s.outcome none (some (.stopped e))

end Session

def command (arguments : List String) (file : Option (List Char)) (input : List (List Char))
    (s : Session) : Outcome :=
  match Request.ofArguments arguments with
  | .usage => { exit := some 1, errors := usageText }
  | .script path =>
    match file with
    | some text => s.runScript text
    | none => { crash := some (.noSuchFile path) }
  | .prompt => s.runPrompt input

end Lox
