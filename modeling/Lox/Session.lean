import Lox.Evaluation.Run
import Lox.Parsing.Statement
import Lox.Scan
import Lox.Tree.Number

/-!
A session: an interpreter that is given lines, parses what it has, resolves and runs. Everything
that a step changes stays for the next one, also when the step fails.
-/

namespace Lox

/-- `limit` is the number of errors at which a parser is stopped. `tree` is what was parsed last.
Nodes are numbered across sessions on one store. -/
structure Session where
  limit : Nat := 25
  tokens : Array Token := #[]
  index : Int := 0
  allowLone : Bool := true
  foundLone : Bool := false
  resolver : Resolver := {}
  machine : Machine := { store := .initial }
  log : Log := []
  nextNode : Nat := 0
  tree : Tree := .nothing

abbrev Interact := EStateM Stop Session

namespace Session

/-- Deeper than any program can go. -/
def fuel : Nat := 0x4000000000000000

structure Setting where
  live : Bool := false
  now : Clock := .still 0.0
  limit : Nat := 25
  memory : Nat := 0x80000000

def fresh (setting : Setting) : Session where
  limit := setting.limit
  machine := {
    store := .initial setting.memory
    live := setting.live
    now := setting.now }

def live (now : Clock) : Session :=
  fresh { live := true, now := now }

def renew (s : Session) : Session where
  limit := s.limit
  machine := { store := s.machine.store, live := s.machine.live, now := s.machine.now }
  nextNode := s.nextNode

def write (text : String) : Interact Unit :=
  modify fun s => { s with machine := { s.machine with console := s.machine.console.push text } }

def report (r : Report) : Interact Unit :=
  modify fun s => { s with log := s.log ++ [r] }

def scanLine (line : Int) (text : List Char) : Interact Unit := fun s =>
  let back (t : Scan.State) : Session := { s with tokens := t.tokens, log := t.log }
  match Scan.line text ⟨line, s.tokens, s.log, .none⟩ with
  | .ok _ t => .ok () (back t)
  | .error f t => .error (.fault f) (back t)

def scanLines : (first : Int) → List (List Char) → Interact Unit
  | _, [] => return
  | i, l :: ls => do
    scanLine i l
    scanLines (i + 1) ls

def cursor (s : Session) : Cursor where
  tokens := s.tokens.map some
  index := s.index
  limit := s.limit
  log := s.log
  console := s.machine.console
  allowLone := s.allowLone
  foundLone := s.foundLone

def parsing {α : Type} (p : Parse α) : Interact α := fun s =>
  let back (c : Cursor) : Session :=
    { s with
      index := c.index, allowLone := c.allowLone, foundLone := c.foundLone, log := c.log,
      machine := { s.machine with console := c.console } }
  match p s.cursor with
  | .ok a c => .ok a (back c)
  | .error e c => .error e (back c)

def load (t : Tree) : Interact Unit :=
  modify fun s =>
    let (t, n) := t.number.run s.nextNode
    { s with tree := t, nextNode := n }

def parse : Interact Unit := do
  load (.program (← parsing (Parse.run Parse.program)))

def parseTyped : Interact Unit := do
  load (← parsing (Parse.run Parse.typedLine))

def resolve : Interact Unit := fun s =>
  let back (r : Resolver) : Session := { s with resolver := { r with log := [] }, log := r.log }
  match Resolve.tree s.tree { s.resolver with log := s.log } with
  | .ok _ r => .ok () (back r)
  | .error f r => .error (.fault f) (back r)

def evaluating {α : Type} (x : Eval α) : Interact (Except Signal α) := fun s =>
  match x { s.machine with locals := s.resolver.locals } with
  | .ok a m => .ok (.ok a) { s with machine := m }
  | .error e m => .ok (.error e) { s with machine := m }

/-- Runs the tree at hand. A fault is reported and ends the run; so does a value returned outside of
any function. -/
def interpret : Interact Value := do
  match ← evaluating (Eval.tree fuel (← get).tree) with
  | .ok v => return v
  | .error (.fault f) =>
    report (.runtime (.fault f))
    return .nil
  | .error (.returned v) =>
    match v.shown (← get).machine.store with
    | .ok text =>
      report (.runtime (.returned text))
      return .nil
    | .error f => throw (.fault f)
  | .error .outOfFuel => throw .outOfFuel

def callInitializer (className method : String) (args : List Value) : Interact Value := do
  let s := (← get).machine.store
  match (s.frame Store.globals).get? className with
  | none => throw (.fault (.noKey className))
  | some (.class_ c) =>
    match c.findMethod? method with
    | none => throw (.fault (.absent "declaration"))
    | some r =>
      let run : Eval Value := do
        let this ← Eval.change fun s => s.newInstance c
        Eval.callRoutine fuel (← Eval.bindRoutine { r with isInitializer := true } this) args
      match ← evaluating run with
      | .ok v => return v
      | .error (.fault f) => throw (.fault f)
      | .error (.returned _) => return .nil
      | .error .outOfFuel => throw .outOfFuel
  | some v => throw (.fault (.noMember v.typeName "findMethod"))

end Session
end Lox
