import Mathlib.Init
import Lox.Command

/-!
The command line.
-/

namespace Lox

def finish (o : Outcome) : IO UInt32 := do
  IO.print o.output
  IO.eprint o.errors
  match o.crash, o.exit with
  | some c, _ =>
    IO.eprintln c.message
    return 1
  | none, some n => return n.toUInt32
  | none, none => return 0

def now : IO Float := do
  let time ← Std.Time.Timestamp.now
  return Float.ofInt time.toNanosecondsSinceUnixEpoch.val / 1000000000.0

/-- Reads and runs lines until one ends the dialogue. `shown` counts the texts and the reports that
were written before. -/
partial def prompt (line : Int) (shown : Nat × Nat) (s : Session) : IO UInt32 := do
  let fresh (s : Session) : IO (Nat × Nat) := do
    IO.print (String.join (s.machine.console.toList.drop shown.1))
    IO.eprint (Log.text (s.log.drop shown.2))
    return (s.machine.console.size, s.log.length)
  IO.print Session.promptText
  (← IO.getStdout).flush
  let text ← (← IO.getStdin).getLine
  if text.isEmpty then finish { crash := some .endOfInput }
  else
    let text := if text.endsWith "\n" then text.toList.dropLast else text.toList
    match Session.typed line text { s with machine := { s.machine with now := ← now } } with
    | .ok none s => prompt (line + 1) (← fresh s) s
    | .ok (some c) s =>
      let _ ← fresh s
      finish { crash := some c }
    | .error e s =>
      let _ ← fresh s
      finish { crash := some (.stopped e) }

def readScript (path : String) : IO (Option (List Char)) := do
  try return some (← IO.FS.readFile path).toList
  catch _ => return none

end Lox

open Lox in
def main (arguments : List String) : IO UInt32 := do
  match Request.ofArguments arguments with
  | .prompt => prompt 1 (0, 0) (.live (← now))
  | .usage => finish (command arguments none [] {})
  | .script path => finish (command arguments (← readScript path) [] (.live (← now)))
