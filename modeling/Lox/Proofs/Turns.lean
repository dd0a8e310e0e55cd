import Lox.Proofs.Parsing.Programs
import Lox.Proofs.Scopes.Logs
import Lox.Proofs.Sessions

/-!
A turn of a session: some more lines are scanned, parsed, resolved and run. What each of the four
steps does, and that no turn takes back a report or a lone expression.
-/

namespace Lox

theorem viewSame {α : Type} {f : Report → Option α} {g : α → Report} (h : ∀ a, f (g a) = some a)
    (as : List α) : (as.map g).filterMap f = as := by
  induction as with
  | nil => rfl
  | cons a as ih => simp [h, ih]

theorem viewNone {α β : Type} {f : Report → Option β} {g : α → Report} (h : ∀ a, f (g a) = none)
    (as : List α) : (as.map g).filterMap f = [] := by
  induction as with
  | nil => rfl
  | cons a as ih => simp [h, ih]

namespace Log

theorem lexicalAppend (log more : Log) : (log ++ more : Log).lexical = log.lexical ++ more.lexical :=
  List.filterMap_append

theorem parseAppend (log more : Log) : (log ++ more : Log).parse = log.parse ++ more.parse :=
  List.filterMap_append

theorem resolutionAppend (log more : Log) :
    (log ++ more : Log).resolution = log.resolution ++ more.resolution :=
  List.filterMap_append

theorem runtimeAppend (log more : Log) : (log ++ more : Log).runtime = log.runtime ++ more.runtime :=
  List.filterMap_append

theorem parseErrors (es : List ParseError) : Log.parse (es.map .parse) = es :=
  viewSame (by intro _; rfl) es

def extended (log : Log) (es : List LexicalError) (messages : List String) : Log :=
  log ++ es.map .lexical ++ messages.map .resolution

variable (log : Log) (es : List LexicalError) (messages : List String)

theorem lexicalExtended : (log.extended es messages).lexical = log.lexical ++ es := by
  have scanner : Log.lexical (es.map .lexical) = es := viewSame (by intro _; rfl) es
  have resolver : Log.lexical (messages.map .resolution) = [] := viewNone (by intro _; rfl) messages
  rw [extended, lexicalAppend, lexicalAppend, scanner, resolver, List.append_nil]

theorem resolutionExtended : (log.extended es messages).resolution = log.resolution ++ messages := by
  have scanner : Log.resolution (es.map .lexical) = [] := viewNone (by intro _; rfl) es
  have resolver : Log.resolution (messages.map .resolution) = messages :=
    viewSame (by intro _; rfl) messages
  rw [extended, resolutionAppend, resolutionAppend, scanner, resolver, List.append_nil]

theorem parseExtended : (log.extended es messages).parse = log.parse := by
  have scanner : Log.parse (es.map .lexical) = [] := viewNone (by intro _; rfl) es
  have resolver : Log.parse (messages.map .resolution) = [] := viewNone (by intro _; rfl) messages
  rw [extended, parseAppend, parseAppend, scanner, resolver, List.append_nil, List.append_nil]

theorem runtimeExtended : (log.extended es messages).runtime = log.runtime := by
  have scanner : Log.runtime (es.map .lexical) = [] := viewNone (by intro _; rfl) es
  have resolver : Log.runtime (messages.map .resolution) = [] := viewNone (by intro _; rfl) messages
  rw [extended, runtimeAppend, runtimeAppend, scanner, resolver, List.append_nil, List.append_nil]

end Log

namespace Session

def turn (first : Int) (lines : List (List Char)) : Interact Unit := do
  scanLines first lines
  parse
  resolve
  let _ ← interpret

def inTurn : (first : Int) → List (List (List Char)) → Interact Unit
  | _, [] => return
  | i, part :: parts => do
    turn i part
    inTurn (i + part.length) parts

def front (s : Session) : List Token := (Scan.dropEnd s.tokens).toList

structure Ready (s : Session) : Prop where
  tokens : s.tokens = #[] ∨ s.tokens.toList = s.front ++ [.eof]
  index : s.index = s.front.length

variable {s s' : Session} {i : Int} {ls : List (List Char)}

theorem scanLineAdds {l : List Char} (h : scanLine i l s = .ok () s') :
    ∃ (new : List Token) (es : List LexicalError),
      s'.tokens.toList = s.front ++ (new ++ [.eof]) ∧
      ∀ b : Session, b.tokens = s.tokens → scanLine i l b =
        .ok () { b with tokens := s'.tokens, log := b.log ++ es.map .lexical } := by
  obtain ⟨t, run, rfl⟩ := scanLineOk h
  obtain ⟨new, es, tokens, same⟩ := Scan.lineAdds run
  refine ⟨new, es, tokens, fun b begun => ?_⟩
  obtain ⟨p, j, again⟩ := same b.log
  unfold scanLine
  rw [begun, again]

theorem scanLinesAdds (h : scanLines i ls s = .ok () s') :
    ∃ es : List LexicalError,
      (s'.tokens = s.tokens ∨ ∃ new, s'.tokens.toList = s.front ++ (new ++ [.eof])) ∧
      ∀ b : Session, b.tokens = s.tokens → scanLines i ls b =
        .ok () { b with tokens := s'.tokens, log := b.log ++ es.map .lexical } := by
  induction ls generalizing i s with
  | nil =>
    cases h
    refine ⟨[], .inl rfl, fun b begun => ?_⟩
    rw [← begun]
    simp [scanLines]
  | cons l ls ih =>
    obtain ⟨_, s₁, first, rest⟩ := bindOk.mp h
    obtain ⟨new₁, es₁, tokens₁, same₁⟩ := scanLineAdds first
    obtain ⟨es₂, tokens₂, same₂⟩ := ih rest
    refine ⟨es₁ ++ es₂, .inr ?_, fun b begun => ?_⟩
    · rcases tokens₂ with same | ⟨new₂, tokens₂⟩
      · exact ⟨new₁, same ▸ tokens₁⟩
      · have front₁ : s₁.front = s.front ++ new₁ :=
          Scan.dropEndClosed (tokens₁.trans (List.append_assoc ..).symm)
        exact ⟨new₁ ++ new₂, by rw [tokens₂, front₁]; simp⟩
    · refine bindOk.mpr ⟨(), _, same₁ b begun, ?_⟩
      rw [List.map_append, ← List.append_assoc]
      exact same₂ _ rfl

theorem interpretOk {v : Value} (h : interpret s = .ok v s') :
    ∃ m log, s' = { s with machine := m, log := s.log ++ log } ∧
      (log = [] ∧ Eval.tree fuel s.tree { s.machine with locals := s.resolver.locals } = .ok v m ∨
        ∃ e, log = [.runtime e]) := by
  obtain ⟨t, s₁, got, rest⟩ := bindOk.mp h
  cases got
  obtain ⟨o, s₂, ran, last⟩ := bindOk.mp rest
  unfold evaluating at ran
  split at ran
  · next v m run =>
    cases ran
    cases last
    exact ⟨m, [], by simp, .inl ⟨rfl, run⟩⟩
  · next e m run =>
    cases ran
    cases e with
    | fault f =>
      cases last
      exact ⟨m, _, rfl, .inr ⟨_, rfl⟩⟩
    | returned v =>
      dsimp only at last
      rw [getBind] at last
      cases shown : v.shown m.store with
      | ok text =>
        simp only [shown] at last
        cases last
        exact ⟨m, _, rfl, .inr ⟨_, rfl⟩⟩
      | error f =>
        simp only [shown] at last
        cases last
    | outOfFuel => cases last

def prepared (s s' : Session) (body : List Stmt) (c : Cursor) (r : Resolver) : Session :=
  { s with
    tokens := s'.tokens, index := c.index, allowLone := c.allowLone, foundLone := c.foundLone
    machine := { s.machine with console := c.console }
    resolver := { r with log := [] }, log := r.log
    nextNode := (Stmt.numberAll body s.nextNode).2
    tree := .program (Stmt.numberAll body s.nextNode).1 }

def ahead (s s' : Session) (es : List LexicalError) : Cursor :=
  cursor { s with tokens := s'.tokens, log := s.log ++ es.map .lexical }

structure Turned (s : Session) (i : Int) (ls : List (List Char)) (s' : Session) (read : List Token)
    (es : List LexicalError) (body : List Stmt) (c : Cursor) (r : Resolver) : Prop where
  scanned : ∀ b : Session, b.tokens = s.tokens → scanLines i ls b =
    .ok () { b with tokens := s'.tokens, log := b.log ++ es.map .lexical }
  tokens : s'.tokens.toList = s.front ++ (read ++ [.eof])
  lexical : (∀ t ∈ s.tokens, t.Lexical) → ∀ t ∈ s'.tokens, t.Lexical
  parsed : Parse.program (s.ahead s' es).budget (s.ahead s' es) = .ok body c
  resolved : Resolve.stmts (Stmt.numberAll body s.nextNode).1 { s.resolver with log := c.log } =
    .ok () r
  ran : ∃ v, interpret (s.prepared s' body c r) = .ok v s'

theorem Ready.turned (ready : s.Ready) (h : turn i ls s = .ok () s') :
    ∃ read es body c r, Turned s i ls s' read es body c r := by
  obtain ⟨_, s₁, scanned, rest⟩ := bindOk.mp h
  obtain ⟨_, s₂, parsed, rest⟩ := bindOk.mp rest
  obtain ⟨_, s₃, resolved, rest⟩ := bindOk.mp rest
  obtain ⟨v, s₄, ran, last⟩ := bindOk.mp rest
  cases last
  obtain ⟨es, tokens, same⟩ := scanLinesAdds scanned
  obtain ⟨found, log, rfl, lexical⟩ := scanLinesOk scanned
  have told : log = s.log ++ es.map .lexical := by simpa using scanned.symm.trans (same s rfl)
  subst told
  obtain ⟨body, c, program, rfl⟩ := parseOk parsed
  obtain ⟨r, walk, rfl⟩ := resolveOk resolved
  obtain ⟨m, log, after, -⟩ := interpretOk ran
  have kept : s'.tokens = found := by rw [after]
  subst kept
  have closed : ∃ read, s'.tokens.toList = s.front ++ (read ++ [.eof]) := by
    rcases tokens with same | ⟨read, tokens⟩
    · rcases ready.tokens with none | closed
      · have empty : s'.tokens = #[] := same.trans none
        refine absurd program (Parse.Nowhere.program ⟨?_, ?_⟩ _)
        · simp [cursor, empty]
        · simp [cursor, ready.index]
      · exact ⟨[], same ▸ closed⟩
    · exact ⟨read, tokens⟩
  obtain ⟨read, closed⟩ := closed
  exact ⟨read, es, body, c, r, same, closed, lexical, program, walk, v, ran⟩

section

variable {read : List Token} (ready : s.Ready) (closed : s'.tokens.toList = s'.front ++ [.eof])
  (front : s'.front = s.front ++ read) (es : List LexicalError)

include ready closed front

theorem Ready.cursorAt : (s.ahead s' es).At (read ++ [.eof]) := by
  refine ⟨s.front.length, ready.index, ?_⟩
  simp [ahead, cursor, closed, front]

theorem Ready.budget : (s.ahead s' es).budget = 64 * (s'.front.length + s.limit + 5) := by
  have size : s'.tokens.size = s'.front.length + 1 := by
    rw [← Array.length_toList, closed]
    simp
  have index : (s.ahead s' es).index.natAbs ≤ s'.tokens.size := by
    rw [size, front, List.length_append]
    show s.index.natAbs ≤ _
    rw [ready.index]
    omega
  show 64 * (max (s'.tokens.map some).size (s.ahead s' es).index.natAbs + s.limit + 4) = _
  rw [Array.size_map, Nat.max_eq_left index, size]
  omega

end

structure Grows (s s' : Session) : Prop where
  log : s.log <+: s'.log
  lone : s.foundLone = true → s'.foundLone = true

structure Clean (s : Session) : Prop where
  parse : s.log.parse = []
  runtime : s.log.runtime = []
  lone : s.foundLone = false

theorem Grows.clean (h : s.Grows s') (clean : s'.Clean) : s.Clean := by
  obtain ⟨more, log⟩ := h.log
  have parse := clean.parse
  have runtime := clean.runtime
  rw [← log] at parse runtime
  simp only [Log.parseAppend, Log.runtimeAppend, List.append_eq_nil_iff] at parse runtime
  refine ⟨parse.1, runtime.1, Bool.eq_false_iff.mpr fun lone => ?_⟩
  exact Bool.eq_false_iff.mp clean.lone (h.lone lone)

namespace Turned

variable {read : List Token} {es : List LexicalError} {body : List Stmt} {c : Cursor} {r : Resolver}
  (h : Turned s i ls s' read es body c r)

include h

theorem front : s'.front = s.front ++ read :=
  Scan.dropEndClosed (h.tokens.trans (List.append_assoc ..).symm)

theorem closed : s'.tokens.toList = s'.front ++ [.eof] := by
  rw [h.front, h.tokens, List.append_assoc]

theorem cursorAt (ready : s.Ready) : (s.ahead s' es).At (read ++ [.eof]) :=
  ready.cursorAt h.closed h.front es

theorem onward (ready : s.Ready) : (s.ahead s' es).Onward read.length c :=
  Parse.programOnward (h.cursorAt ready) h.parsed

theorem resolvedFrom (log : Log) :
    ∃ messages, r.log = c.log ++ messages ∧
      Resolve.stmts (Stmt.numberAll body s.nextNode).1 { s.resolver with log := log } =
        .ok () { r with log := log ++ messages } := by
  have walk : ∀ log, Resolve.stmts (Stmt.numberAll body s.nextNode).1 { s.resolver with log := log } =
      onState (Resolve.afterLog log)
        (Resolve.stmts (Stmt.numberAll body s.nextNode).1 { s.resolver with log := [] }) := by
    intro log
    rw [← Resolve.logStmts]
    simp [Resolve.afterLog]
  have here := h.resolved
  rw [walk] at here
  cases start : Resolve.stmts (Stmt.numberAll body s.nextNode).1 { s.resolver with log := [] } with
  | error f t =>
    rw [start] at here
    cases here
  | ok _ t =>
    rw [start] at here
    cases here
    refine ⟨t.log, rfl, ?_⟩
    rw [walk, start]
    rfl

theorem ready (ready : s.Ready) : s'.Ready := by
  obtain ⟨v, ran⟩ := h.ran
  obtain ⟨m, log, after, -⟩ := interpretOk ran
  have moved : s'.index = s.index + read.length := by
    rw [after]
    show c.index = _
    rw [(h.onward ready).rest]
    rfl
  refine ⟨.inr h.closed, ?_⟩
  rw [moved, ready.index, h.front, List.length_append, Int.natCast_add]

theorem grows (ready : s.Ready) : s.Grows s' := by
  obtain ⟨v, ran⟩ := h.ran
  obtain ⟨m, log, after, -⟩ := interpretOk ran
  obtain ⟨errors, parsed⟩ := (h.onward ready).log
  obtain ⟨messages, resolved, -⟩ := h.resolvedFrom []
  rw [after]
  refine ⟨?_, fun lone => (h.onward ready).lone lone⟩
  show s.log <+: r.log ++ log
  rw [resolved, parsed]
  simp [ahead, cursor, List.append_assoc]

theorem quiet (ready : s.Ready) (clean : s'.Clean) : (s.ahead s' es).Quiet c := by
  obtain ⟨v, ran⟩ := h.ran
  obtain ⟨m, log, after, -⟩ := interpretOk ran
  obtain ⟨errors, parsed⟩ := (h.onward ready).log
  obtain ⟨messages, resolved, -⟩ := h.resolvedFrom []
  have none := clean.parse
  have lone := clean.lone
  rw [after] at none lone
  have none : (r.log ++ log : Log).parse = [] := none
  rw [resolved, parsed] at none
  simp only [Log.parseAppend, Log.parseErrors, List.append_eq_nil_iff] at none
  rw [none.1.1.2] at parsed
  exact ⟨by simpa using parsed, lone⟩

theorem executed (ready : s.Ready) (clean : s'.Clean) :
    s' = { s.prepared s' body c r with machine := s'.machine } ∧
      Eval.executeAll fuel (Stmt.numberAll body s.nextNode).1
        { s.machine with locals := r.locals } = .ok () s'.machine := by
  obtain ⟨v, ran⟩ := h.ran
  obtain ⟨m, log, after, ends⟩ := interpretOk ran
  rcases ends with ⟨rfl, run⟩ | ⟨e, rfl⟩
  · have machine : s'.machine = m := by rw [after]
    rw [List.append_nil, ← machine] at after
    refine ⟨after, ?_⟩
    obtain ⟨_, m', run, last⟩ := bindOk.mp run
    cases last
    have console : c.console = s.machine.console := by rw [(h.onward ready).rest]; rfl
    rw [machine, ← run]
    simp [prepared, console]
  · have none := clean.runtime
    rw [after, Log.runtimeAppend, List.append_eq_nil_iff] at none
    cases none.2

end Turned

theorem inTurnGrows {parts : List (List (List Char))} (ready : s.Ready)
    (h : inTurn i parts s = .ok () s') : s.Grows s' := by
  induction parts generalizing i s with
  | nil =>
    cases h
    exact ⟨List.prefix_rfl, id⟩
  | cons part parts ih =>
    obtain ⟨_, s₁, first, rest⟩ := bindOk.mp h
    obtain ⟨read, es, body, c, r, turned⟩ := ready.turned first
    have before := turned.grows ready
    have after := ih (turned.ready ready) rest
    exact ⟨before.log.trans after.log, fun lone => after.lone (before.lone lone)⟩

end Session
end Lox
