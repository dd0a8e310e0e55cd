import Lox.Proofs.Parsing.Shape
import Lox.Proofs.Scopes.Charts
import Lox.Session

/-!
What each stage of a session changes, and what a session that was prepared without a report from the
resolver knows about the program at hand.
-/

namespace Lox.Session

variable {s s' : Session}

theorem scanLineOk {line : Int} {text : List Char} (h : scanLine line text s = .ok () s') :
    ∃ t, Scan.line text ⟨line, s.tokens, s.log, .none⟩ = .ok () t ∧
      s' = { s with tokens := t.tokens, log := t.log } := by
  unfold scanLine at h
  dsimp only at h
  split at h
  · next t run =>
    cases h
    exact ⟨t, run, rfl⟩
  · cases h

theorem scanLinesOk {line : Int} {ls : List (List Char)} (h : scanLines line ls s = .ok () s') :
    ∃ tokens log, s' = { s with tokens := tokens, log := log } ∧
      ((∀ t ∈ s.tokens, t.Lexical) → ∀ t ∈ tokens, t.Lexical) := by
  induction ls generalizing line s with
  | nil =>
    cases h
    exact ⟨_, _, rfl, id⟩
  | cons l ls ih =>
    obtain ⟨_, s₁, first, rest⟩ := bindOk.mp h
    obtain ⟨t, run, rfl⟩ := scanLineOk first
    obtain ⟨tokens, log, rfl, lexed⟩ := ih rest
    refine ⟨tokens, log, rfl, fun old => lexed ?_⟩
    have kept := Scan.lexedLine l ⟨line, s.tokens, s.log, .none⟩ old
    rw [run] at kept
    exact kept

theorem parsingRun {α : Type} {p : Parse α} {a : α} {c : Cursor} (h : p s.cursor = .ok a c) :
    parsing p s = .ok a { s with
      index := c.index, allowLone := c.allowLone, foundLone := c.foundLone, log := c.log
      machine := { s.machine with console := c.console } } := by
  unfold parsing
  rw [h]

theorem parseOk (h : parse s = .ok () s') :
    ∃ body c, Parse.run Parse.program s.cursor = .ok body c ∧
      s' = { s with
        index := c.index, allowLone := c.allowLone, foundLone := c.foundLone, log := c.log
        machine := { s.machine with console := c.console }
        tree := .program (Stmt.numberAll body s.nextNode).1
        nextNode := (Stmt.numberAll body s.nextNode).2 } := by
  obtain ⟨body, t, parsed, loaded⟩ := bindOk.mp h
  unfold parsing at parsed
  dsimp only at parsed
  split at parsed
  · next body c run =>
    cases parsed
    cases loaded
    exact ⟨body, c, run, rfl⟩
  · cases parsed

theorem resolveOk (h : resolve s = .ok () s') :
    ∃ r, Resolve.tree s.tree { s.resolver with log := s.log } = .ok () r ∧
      s' = { s with resolver := { r with log := [] }, log := r.log } := by
  unfold resolve at h
  dsimp only at h
  split at h
  · next r run =>
    cases h
    exact ⟨r, run, rfl⟩
  · cases h

def concluded (s : Session) :
    EStateM.Result Signal Machine Value → EStateM.Result Stop Session Value
  | .ok v m => .ok v { s with machine := m }
  | .error (.fault f) m => .ok .nil { s with machine := m, log := s.log ++ [.runtime (.fault f)] }
  | .error (.returned v) m =>
    match v.shown m.store with
    | .ok text => .ok .nil { s with machine := m, log := s.log ++ [.runtime (.returned text)] }
    | .error f => .error (.fault f) { s with machine := m }
  | .error .outOfFuel m => .error .outOfFuel { s with machine := m }

theorem interpretIs (s : Session) :
    interpret s =
      s.concluded (Eval.tree fuel s.tree { s.machine with locals := s.resolver.locals }) := by
  unfold interpret
  rw [getBind, bindRun, evaluating]
  cases Eval.tree fuel s.tree { s.machine with locals := s.resolver.locals } with
  | ok v m => rfl
  | error e m =>
    cases e with
    | fault f => rfl
    | outOfFuel => rfl
    | returned v =>
      dsimp only [concluded]
      rw [getBind]
      cases v.shown m.store <;> rfl

theorem concludedFinal (s : Session) (result : EStateM.Result Signal Machine Value) :
    ∃ es : List RunError, final (s.concluded result) =
      { s with machine := final result, log := s.log ++ es.map .runtime } := by
  have silent : ∀ m, { s with machine := m } =
      { s with machine := m, log := s.log ++ ([] : List RunError).map .runtime } := by simp
  cases result with
  | ok v m => exact ⟨[], silent m⟩
  | error e m =>
    cases e with
    | fault f => exact ⟨[.fault f], rfl⟩
    | outOfFuel => exact ⟨[], silent m⟩
    | returned v =>
      dsimp only [concluded]
      cases v.shown m.store with
      | ok text => exact ⟨[.returned text], rfl⟩
      | error f => exact ⟨[], silent m⟩

theorem concludedMachine (s : Session) (result : EStateM.Result Signal Machine Value) :
    (final (s.concluded result)).machine = final result := by
  obtain ⟨es, ends⟩ := s.concludedFinal result
  rw [ends]

theorem concludedTokens (s : Session) (result : EStateM.Result Signal Machine Value) :
    (final (s.concluded result)).tokens = s.tokens := by
  obtain ⟨es, ends⟩ := s.concludedFinal result
  rw [ends]

theorem concludedLog (s : Session) (result : EStateM.Result Signal Machine Value) :
    s.log <+: (final (s.concluded result)).log := by
  obtain ⟨es, ends⟩ := s.concludedFinal result
  rw [ends]
  exact List.prefix_append ..

def prepare (lines : List (List Char)) : Interact Unit := do
  scanLines 0 lines
  parse
  resolve

theorem sourcedCursor (h : ∀ t ∈ s.tokens, t.Lexical) : Parse.Sourced s.cursor := by
  intro t mem u same
  obtain ⟨v, inside, rfl⟩ := Array.mem_map.mp mem
  cases same
  exact h u inside

theorem shapedProgram {c c' : Cursor} {body : List Stmt} (sourced : Parse.Sourced c)
    (run : Parse.run Parse.program c = .ok body c') : Stmt.AllShaped body := by
  have gives := Parse.yieldsProgram c.budget c sourced
  rw [show Parse.program c.budget c = .ok body c' from run] at gives
  exact gives.2

structure AtHand (memory : Nat) (s : Session) (body : List Stmt) : Prop where
  tree : s.tree = .program body
  shaped : Stmt.AllShaped body
  walked : Walked s.resolver.locals {} (.stmts body)
  numbered : ∀ node ∈ Stmt.nodesOf body, node < s.nextNode
  entries : ∀ node, s.nextNode ≤ node → s.resolver.locals.distance? node = none
  store : s.machine.store = .initial memory
  env : s.machine.env = Store.globalEnv

theorem atHand {setting : Setting} {lines : List (List Char)}
    (ready : prepare lines (fresh setting) = .ok () s) (silent : s.log.resolution = []) :
    ∃ body, s.AtHand setting.memory body := by
  obtain ⟨_, s₁, scanned, rest⟩ := bindOk.mp ready
  obtain ⟨_, s₂, parsed, resolved⟩ := bindOk.mp rest
  obtain ⟨tokens, log, rfl, lexed⟩ := scanLinesOk scanned
  obtain ⟨body, c, run, rfl⟩ := parseOk parsed
  obtain ⟨r, walk, rfl⟩ := resolveOk resolved
  have shaped := (numberStmts body 0).2 (shapedProgram (sourcedCursor (lexed (by simp [fresh]))) run)
  have numbers := (numberStmts body 0).1
  have walk : Resolve.stmts (Stmt.numberAll body 0).1 { log := c.log } = .ok () r := walk
  have kept := (Resolve.steadyStmts _ shaped walk).1
  refine ⟨(Stmt.numberAll body 0).1, rfl, shaped, ?_, fun node mem => (numbers.bounds mem).2,
    fun node late => ?_, rfl, rfl⟩
  · exact ⟨_, r, walk, kept.log.silent silent, rfl, rfl, rfl, fun _ _ => rfl, fun _ _ => rfl,
      numbers.nodup⟩
  · exact kept.locals node fun mem => Nat.not_lt.mpr late (numbers.bounds mem).2

theorem charted {setting : Setting} {lines : List (List Char)}
    (ready : prepare lines (fresh setting) = .ok () s) (silent : s.log.resolution = []) :
    ∃ body, s.tree = .program body ∧ Charted s.resolver.locals body ∧
      s.machine.store = .initial setting.memory ∧ s.machine.env = Store.globalEnv := by
  obtain ⟨body, program⟩ := atHand ready silent
  exact ⟨body, program.tree, chartedOf program.shaped program.walked, program.store, program.env⟩

end Lox.Session
