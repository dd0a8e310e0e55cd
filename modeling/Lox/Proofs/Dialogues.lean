import Lox.Command
import Lox.Proofs.Increments
import Lox.Proofs.Lexing.Breaks
import Lox.Proofs.Runs.Steps
import Lox.Proofs.Scopes.Renumbering

/-!
Lines typed at the prompt and lines of a file. Complete lines that are typed one after the other do
what a file of them does, up to the first fault; but what is typed is never resolved, so it is the
run of the file without its distances. Where there are none, it is the run of the file.
-/

namespace Lox

def Machine.unprompted (m : Machine) : Machine :=
  { m with console := m.console.filter (· != Session.promptText) }

theorem lineNotPrompt (text : String) : (text ++ "\n" != Session.promptText) = true := by
  rw [bne_iff_ne]
  intro same
  have last := congrArg (fun s => s.toList.getLast?) same
  simp [Session.promptText] at last

theorem Eval.Built.unprompted {home : Bool} {α : Type} {x : Eval α} (h : Built home x) :
    Commutes Machine.unprompted x := by
  induction h with
  | pure a => exact commutesPure a
  | throw e => exact commutesThrow e
  | bind _ _ first rest => exact first.bind rest
  | look same _ rest => exact commutesGet (fun m => same m _ _) rest
  | change f => exact fun _ => rfl
  | onStore x =>
    intro m
    unfold Eval.onStore Machine.unprompted
    dsimp only
    cases x m.store <;> rfl
  | define name v => exact fun _ => rfl
  | write text =>
    refine commutesModify fun m => ?_
    simp [Machine.unprompted, lineNotPrompt text]
  | keep v => exact fun _ => rfl
  | tick => exact fun _ => rfl
  | @within _ _ env x _ inner =>
    intro m
    have same := inner { m with env := env }
    unfold Eval.within
    rw [show ({ m.unprompted with env := env } : Machine) =
      Machine.unprompted { m with env := env } from rfl, same]
    cases x { m with env := env } <;> rfl
  | @returnedBy _ x _ inner =>
    intro m
    unfold Eval.returnedBy
    rw [inner m]
    cases x m with
    | ok _ m' => rfl
    | error e m' => cases e <;> rfl
  | setEnv env => exact fun _ => rfl

theorem Resolve.namesOutside (ss : List Stmt) : namesAfter [] ss = [] := by
  induction ss with
  | nil => rfl
  | cons s ss ih =>
    rw [namesAfter, show putName [] s.declared true = [] by cases s.declared <;> rfl, ih]

namespace Session

def isComplete (limit : Nat) (l : List Char) : Bool :=
  match prepare [l] { limit := limit } with
  | .ok _ s => s.log.isEmpty && !s.foundLone
  | .error .. => false

def isFlat (limit : Nat) (l : List Char) : Bool :=
  match prepare [l] { limit := limit } with
  | .ok _ s => s.resolver.locals.isEmpty
  | .error .. => false

def extendedBy (s : Session) (read : List Token) : Array Token :=
  Scan.dropEnd s.tokens ++ (read ++ [Token.eof]).toArray

structure Line (limit : Nat) (l : List Char) (read : List Token) (body : List Stmt) : Prop where
  scanned : ∀ i s, scanLine i l s = .ok () { s with tokens := s.extendedBy read }
  broken : ∀ i s, scanLine i (l ++ ['\n']) s = .ok () { s with tokens := s.extendedBy read }
  declared : ∀ m, 64 * (read.length + limit + 5) ≤ m → Parse.Declares m read body
  resolved : isFlat limit l = true → Resolve.stmts (Stmt.numberAll body 0).1 {} = .ok () {}

theorem scanLineIs {i k : Int} {l : List Char} {s : Session} {ts : Array Token} {p : Scan.Pending}
    (run : Scan.line l ⟨i, s.tokens, s.log, .none⟩ = .ok () ⟨k, ts, s.log, p⟩) :
    scanLine i l s = .ok () { s with tokens := ts } := by
  unfold scanLine
  rw [run]

theorem resolvedLog {ss : List Stmt} {r r' : Resolver} (run : Resolve.stmts ss r = .ok () r') :
    r.log <+: r'.log := by
  have start : Resolve.stmts ss (Resolve.afterLog r.log { r with log := [] }) =
      onState (Resolve.afterLog r.log) (Resolve.stmts ss { r with log := [] }) :=
    Resolve.logStmts ss _
  rw [show Resolve.afterLog r.log { r with log := [] } = r by simp [Resolve.afterLog], run] at start
  cases bare : Resolve.stmts ss { r with log := [] } with
  | error f t =>
    rw [bare] at start
    cases start
  | ok _ t =>
    rw [bare] at start
    cases start
    exact List.prefix_append _ _

theorem cursorBudget (s : Session) :
    s.cursor.budget = 64 * (max s.tokens.size s.index.natAbs + s.limit + 4) := by
  simp [cursor, Cursor.budget]

theorem resolvedFlat {body : List Stmt} {r : Resolver} (shaped : Stmt.AllShaped body)
    (walk : Resolve.stmts body {} = .ok () r) (log : r.log = []) (flat : r.locals = []) :
    r = {} := by
  obtain ⟨steady, scopes⟩ := Resolve.steadyStmts body shaped walk
  rw [Resolve.namesOutside] at scopes
  have function := steady.function
  have klass := steady.klass
  cases r
  simp_all

structure Staged (limit : Nat) (l : List Char) (t : Scan.State) (body : List Stmt) (c : Cursor)
    (r : Resolver) : Prop where
  scanned : Scan.line l ⟨0, #[], [], .none⟩ = .ok () t
  lexical : t.log = []
  parsed : Parse.run Parse.program (cursor { limit := limit, tokens := t.tokens }) = .ok body c
  quiet : Cursor.Quiet (cursor { limit := limit, tokens := t.tokens }) c
  shaped : Stmt.AllShaped body
  resolved : Resolve.stmts (Stmt.numberAll body 0).1 {} = .ok () r
  silent : r.log = []
  flat : isFlat limit l = true → r.locals = []

theorem stagesOf {limit : Nat} {l : List Char} (complete : isComplete limit l = true) :
    ∃ t body c r, Staged limit l t body c r := by
  unfold isComplete at complete
  split at complete
  · next s ready =>
    simp only [Bool.and_eq_true, List.isEmpty_iff, Bool.not_eq_true'] at complete
    have whole := ready
    obtain ⟨_, s₁, scanned, rest⟩ := bindOk.mp ready
    obtain ⟨_, s₂, parsed, resolved⟩ := bindOk.mp rest
    obtain ⟨_, _, first, last⟩ := bindOk.mp scanned
    cases last
    obtain ⟨_, _, same, lexed⟩ := scanLinesOk scanned
    obtain ⟨t, run, rfl⟩ := scanLineOk first
    cases same
    obtain ⟨body, c, program, rfl⟩ := parseOk parsed
    obtain ⟨r, walk, rfl⟩ := resolveOk resolved
    obtain ⟨log, lone⟩ : r.log = [] ∧ c.foundLone = false := complete
    have walk : Resolve.stmts (Stmt.numberAll body 0).1 { log := c.log } = .ok () r := walk
    have words : ∀ u ∈ t.tokens, u.Lexical := 
      lexed fun _ mem => absurd mem (Array.not_mem_empty _)
    have shaped := shapedProgram (sourcedCursor words) program
    -- the log only grows, and in the end it is empty
    have parse : c.log = [] := List.prefix_nil.mp (log ▸ resolvedLog walk)
    have lexical : t.log = [] := by
      obtain ⟨read, es, tokens, -⟩ := Scan.lineAdds run
      have closed : t.tokens.toList = read ++ [.eof] := tokens
      have ahead : Cursor.At (cursor { limit := limit, tokens := t.tokens, log := t.log }) (read ++ [.eof]) :=
        ⟨0, rfl, by simp [cursor, closed]⟩
      have loop := program
      rw [Parse.runAt, Parse.program] at loop
      obtain ⟨errors, told⟩ := (Parse.programOnward ahead loop).log
      have both : t.log ++ errors.map .parse = [] := told.symm.trans parse
      exact (List.append_eq_nil_iff.mp both).1
    have flat : isFlat limit l = true → r.locals = [] := by
      intro flat
      unfold isFlat at flat
      rw [whole] at flat
      exact List.isEmpty_iff.mp flat
    rw [lexical] at program
    rw [parse] at walk
    exact ⟨t, body, c, r, run, lexical, program, ⟨parse, lone⟩, shaped, walk, log, flat⟩
  · cases complete

theorem lineOf {limit : Nat} {l : List Char} (complete : isComplete limit l = true) :
    ∃ read body, Line limit l read body := by
  obtain ⟨t, body, c, r, stages⟩ := stagesOf complete
  obtain ⟨read, es, tokens, -⟩ := Scan.lineAdds stages.scanned
  have closed : t.tokens.toList = read ++ [.eof] := tokens
  have scanned := Scan.silentLine stages.scanned stages.lexical closed
  have declared : ∀ m, 64 * (read.length + limit + 5) ≤ m → Parse.Declares m read body := by
    intro m enough
    have loop := stages.parsed
    rw [Parse.runAt, Parse.program] at loop
    have ahead : Cursor.At (cursor { limit := limit, tokens := t.tokens }) (read ++ [.eof]) :=
      ⟨0, rfl, by simp [cursor, closed]⟩
    refine Parse.programDeclares (Nat.le_trans ?_ enough) ahead loop stages.quiet
    have size : t.tokens.size = read.length + 1 := by
      rw [← Array.length_toList, closed, List.length_append, List.length_singleton]
    rw [cursorBudget]
    show 64 * (max t.tokens.size 0 + limit + 4) ≤ _
    omega
  have resolved : isFlat limit l = true → Resolve.stmts (Stmt.numberAll body 0).1 {} = .ok () {} := by
    intro flat
    have same := resolvedFlat ((numberStmts body 0).2 stages.shaped) stages.resolved stages.silent
      (stages.flat flat)
    exact same ▸ stages.resolved
  refine ⟨read, body, fun i s => ?_, fun i s => ?_, declared, resolved⟩
  · obtain ⟨k, p, one, -⟩ := scanned i s.tokens s.log
    exact scanLineIs one
  · obtain ⟨k, p, -, one⟩ := scanned i s.tokens s.log
    exact scanLineIs one

inductive Lines (limit : Nat) : List (List Char) → List Token → List Stmt → Prop where
  | nil : Lines limit [] [] []
  | cons {l : List Char} {ls : List (List Char)} {read reads : List Token} {body bodies : List Stmt}
      (one : Line limit l read body) (more : Lines limit ls reads bodies) :
      Lines limit (l :: ls) (read ++ reads) (body ++ bodies)

theorem linesOf {limit : Nat} {ls : List (List Char)}
    (complete : ∀ l ∈ ls, isComplete limit l = true) :
    ∃ reads bodies, Lines limit ls reads bodies := by
  induction ls with
  | nil => exact ⟨[], [], .nil⟩
  | cons l ls ih =>
    obtain ⟨reads, bodies, more⟩ := ih fun k mem => complete k (List.mem_cons_of_mem l mem)
    obtain ⟨read, body, one⟩ := lineOf (complete l List.mem_cons_self)
    exact ⟨_, _, .cons one more⟩

variable {limit : Nat} {s : Session} {ls : List (List Char)} {l : List Char} {read reads : List Token}
  {body bodies : List Stmt}

theorem extendedClosed (s : Session) (read : List Token) :
    (s.extendedBy read).toList = s.front ++ (read ++ [.eof]) := by
  simp [extendedBy, front]

theorem extendedFront (s : Session) (read : List Token) :
    front { s with tokens := s.extendedBy read } = s.front ++ read :=
  Scan.dropEndClosed ((s.extendedClosed read).trans (List.append_assoc ..).symm)

theorem extendedTwice (s : Session) (read reads : List Token) :
    extendedBy { s with tokens := s.extendedBy read } reads = s.extendedBy (read ++ reads) := by
  refine Array.ext' ?_
  rw [extendedClosed, extendedClosed, extendedFront]
  simp

theorem Lines.scanned (h : Lines limit ls reads bodies) (some : ls ≠ []) (i : Int) (s : Session) :
    scanLines i (ls.map (· ++ ['\n'])) s = .ok () { s with tokens := s.extendedBy reads } := by
  induction h generalizing i s with
  | nil => exact absurd rfl some
  | cons one more ih =>
    refine bindOk.mpr ⟨(), _, one.broken i s, ?_⟩
    cases more with
    | nil =>
      rw [List.append_nil]
      rfl
    | cons _ _ =>
      rw [← extendedTwice]
      exact ih (by simp) _ _

theorem Lines.declared {m : Nat} (h : Lines limit ls reads bodies)
    (enough : 64 * (reads.length + limit + 5) ≤ m) : Parse.Declares m reads bodies := by
  induction h with
  | nil => exact .nil
  | cons one _ ih =>
    rw [List.length_append] at enough
    exact (one.declared m (by omega)).append (ih (by omega))

theorem Lines.resolved (h : Lines limit ls reads bodies) (flat : ∀ l ∈ ls, isFlat limit l = true) (n : Nat) :
    Resolve.stmts (Stmt.numberAll bodies n).1 {} = .ok () {} := by
  induction h generalizing n with
  | nil => rfl
  | cons one _ ih =>
    rw [numberAppend, Resolve.stmtsAppend]
    refine bindOk.mpr ⟨(), _, Resolve.renumbered (one.resolved (flat _ List.mem_cons_self)) n, ?_⟩
    exact ih (fun l mem => flat l (List.mem_cons_of_mem _ mem)) _

theorem typedLineRun {c : Cursor} :
    Parse.run Parse.typedLine c =
      Parse.lineLoop (Parse.declaration c.budget) c.budget [] { c with allowLone := true } := rfl

theorem parseTypedRun {s : Session} {t : Tree} {c : Cursor}
    (h : Parse.run Parse.typedLine s.cursor = .ok t c) :
    parseTyped s = .ok () { s with
      index := c.index, allowLone := c.allowLone, foundLone := c.foundLone, log := c.log
      machine := { s.machine with console := c.console }
      tree := (t.number s.nextNode).1, nextNode := (t.number s.nextNode).2 } :=
  bindOk.mpr ⟨t, _, parsingRun h, rfl⟩

def parsedBy (s : Session) (read : List Token) (body : List Stmt) (lone : Bool) : Session :=
  { s with
    tokens := s.extendedBy read, index := s.index + read.length, allowLone := lone
    tree := .program (Stmt.numberAll body s.nextNode).1
    nextNode := (Stmt.numberAll body s.nextNode).2 }

theorem extendedBudget (s : Session) (read : List Token) :
    64 * (read.length + s.limit + 5) ≤ (cursor { s with tokens := s.extendedBy read }).budget := by
  rw [cursorBudget]
  have size : (s.extendedBy read).size = s.front.length + (read.length + 1) := by
    rw [← Array.length_toList, extendedClosed]
    simp
  dsimp only
  omega

section

variable (ready : s.Ready)

include ready

theorem Ready.extendedAt (read : List Token) :
    (cursor { s with tokens := s.extendedBy read }).At (read ++ [.eof]) := by
  refine ⟨s.front.length, ready.index, ?_⟩
  simp [cursor, extendedClosed]

theorem Ready.parsedBy (read : List Token) (body : List Stmt) (lone : Bool) :
    (s.parsedBy read body lone).Ready := by
  have front := s.extendedFront read
  refine ⟨.inr ?_, ?_⟩
  · show (s.extendedBy read).toList = Session.front { s with tokens := s.extendedBy read } ++ _
    rw [front, extendedClosed, List.append_assoc]
  · show s.index + read.length = (Session.front { s with tokens := s.extendedBy read }).length
    rw [front, ready.index, List.length_append, Int.natCast_add]

theorem Ready.parsed
    (declared : ∀ m, 64 * (read.length + s.limit + 5) ≤ m → Parse.Declares m read body) :
    parse { s with tokens := s.extendedBy read } = .ok () (s.parsedBy read body s.allowLone) := by
  have at' := ready.extendedAt read
  have enough := s.extendedBudget read
  have declares := declared _ enough
  have count := declares.count
  generalize budget : (cursor { s with tokens := s.extendedBy read }).budget = m at *
  obtain ⟨j, rfl⟩ : ∃ j, m = body.length + (j + 1) := ⟨m - body.length - 1, by omega⟩
  have reads := declares.loop ⟨.eof, [], rfl, by decide⟩ (Parse.readsNoMore j)
  have run := reads _ (by simpa using at')
  rw [List.append_nil, List.append_nil, ← Parse.program, ← budget] at run
  refine parseRun (c := (cursor { s with tokens := s.extendedBy read }).moved read.length) ?_
  rw [Parse.runAt]
  exact run

theorem Ready.parsedTyped (lone : s.foundLone = false)
    (declared : ∀ m, 64 * (read.length + s.limit + 5) ≤ m → Parse.Declares m read body) :
    ∃ lone, parseTyped { s with tokens := s.extendedBy read } =
      .ok () (s.parsedBy read body lone) := by
  have at' := ready.extendedAt read
  have enough := s.extendedBudget read
  have declares := declared _ enough
  have count := declares.count
  have begun : Cursor.At { cursor { s with tokens := s.extendedBy read } with allowLone := true }
    (read ++ [.eof]) := at'
  have fits : body.length < (cursor { s with tokens := s.extendedBy read }).budget := by omega
  obtain ⟨still, run⟩ := declares.typed fits begun lone []
  have parsed := parseTypedRun (s := { s with tokens := s.extendedBy read })
    (typedLineRun.trans run)
  exact ⟨still, parsed⟩

end

structure Waiting (limit : Nat) (s : Session) : Prop extends Ready s where
  limit : s.limit = limit
  lone : s.foundLone = false
  log : s.log = []
  entries : s.resolver.locals = []
  locals : s.machine.locals = []

def prompted (s : Session) : Session :=
  { s with machine := { s.machine with console := s.machine.console.push promptText } }

theorem Waiting.prompted (h : s.Waiting limit) : s.prompted.Waiting limit :=
  ⟨⟨h.tokens, h.index⟩, h.limit, h.lone, h.log, h.entries, h.locals⟩

theorem promptedMachine (s : Session) : s.prompted.machine.unprompted = s.machine.unprompted := by
  simp [Session.prompted, Machine.unprompted]

theorem Waiting.typed (waiting : s.Waiting limit) (line : Line limit l read body) (i : Int) :
    ∃ lone, typed i l s = (do let _ ← interpret; return none) (s.parsedBy read body lone) := by
  obtain ⟨lone, parsed⟩ := waiting.parsedTyped waiting.lone (waiting.limit ▸ line.declared)
  refine ⟨lone, ?_⟩
  have silent : (s.parsedBy read body lone).log.hasLexical = false := by
    show s.log.hasLexical = false
    rw [waiting.log]
    rfl
  unfold Session.typed Session.read answer
  rw [bind_assoc, bindRun, line.scanned i s]
  dsimp only
  rw [bindRun, parsed]
  dsimp only
  rw [getBind, silent]
  rfl

structure Agrees (s s' : Session) : Prop where
  machine : s.machine.unprompted = s'.machine
  log : s.log = s'.log

def EndAlike {α : Type} :
    EStateM.Result Stop Session Crash → EStateM.Result Stop Session α → Prop
  | .ok c s, .ok _ s' => c = .endOfInput ∧ Agrees s s'
  | .error e s, .error e' s' => e = e' ∧ Agrees s s'
  | _, _ => False

/- The lines up to the first one with a fault, if there is one, do together what the file does. -/
def Follows {α : Type} (i : Int) (ls : List (List Char)) (s : Session)
    (file : EStateM.Result Stop Session α) : Prop :=
  ∃ k, k ≤ ls.length ∧
    (∀ j, j < k → ∃ t, dialogue i (ls.take j) s = .ok .endOfInput t ∧ t.log = []) ∧
    (k = ls.length ∨ ∀ c t, dialogue i (ls.take k) s = .ok c t → t.log.runtime ≠ []) ∧
    EndAlike (dialogue i (ls.take k) s) file

def answered (i : Int) (ls : List (List Char)) : Option Crash → Interact Crash
  | some c => return c
  | none => dialogue (i + 1) ls

theorem Waiting.dialogue (waiting : s.Waiting limit) (line : Line limit l read body) (i : Int) :
    ∃ lone, ∀ ls, dialogue i (l :: ls) s =
      (do let _ ← interpret; dialogue (i + 1) ls) (s.prompted.parsedBy read body lone) := by
  obtain ⟨lone, run⟩ := waiting.prompted.typed line i
  refine ⟨lone, fun ls => ?_⟩
  have first : Session.dialogue i (l :: ls) s =
      (Session.typed i l >>= answered i ls) s.prompted := rfl
  rw [first, bindRun, run, bindRun, bindRun]
  cases interpret (s.prompted.parsedBy read body lone) <;> rfl

def closing {α : Type} : EStateM.Result Stop Session α → EStateM.Result Stop Session Crash
  | .ok _ s => .ok .endOfInput s.prompted
  | .error e s => .error e s

theorem closingRun (i : Int) (s : Session) :
    (do let _ ← interpret; dialogue i []) s = closing (interpret s) := by
  rw [bindRun]
  cases interpret s <;> rfl

theorem faultAlike {s₀ : Session} (log : s.log = s₀.log) (e : Signal) (m : Machine) :
    EndAlike (closing (s.concluded (.error e m))) (s₀.concluded (.error e m.unprompted)) ∧
      ∀ c t, closing (s.concluded (.error e m)) = .ok c t → t.log.runtime ≠ [] := by
  -- a report ends the run in both sessions
  have told : ∀ error : RunError,
      EndAlike (closing (.ok Value.nil { s with machine := m, log := s.log ++ [.runtime error] }))
        (.ok Value.nil { s₀ with machine := m.unprompted, log := s₀.log ++ [.runtime error] }) ∧
      ∀ c t, closing (.ok Value.nil { s with machine := m, log := s.log ++ [.runtime error] }) =
        .ok c t → t.log.runtime ≠ [] := by
    intro error
    have both : s.log ++ [.runtime error] = s₀.log ++ [.runtime error] := by rw [log]
    refine ⟨⟨rfl, promptedMachine _, both⟩, ?_⟩
    rintro c t ⟨⟩
    show (s.log ++ [.runtime error] : Log).runtime ≠ []
    rw [Log.runtimeAppend]
    exact List.append_ne_nil_of_right_ne_nil _ (List.cons_ne_nil _ _)
  cases e with
  | fault f => exact told (.fault f)
  | outOfFuel => exact ⟨⟨rfl, rfl, log⟩, by rintro c t ⟨⟩⟩
  | returned v =>
    dsimp only [concluded]
    rw [show m.unprompted.store = m.store from rfl]
    cases v.shown m.store with
    | ok text => exact told (.returned text)
    | error f => exact ⟨⟨rfl, rfl, log⟩, by rintro c t ⟨⟩⟩

theorem Follows.behind {α : Type} {file : EStateM.Result Stop Session α} {s₁ : Session} {i : Int}
    (h : Follows (i + 1) ls s₁ file) (log : s.log = [])
    (next : ∀ ls, dialogue i (l :: ls) s = dialogue (i + 1) ls s₁) :
    Follows i (l :: ls) s file := by
  obtain ⟨k, le, before, last, ends⟩ := h
  refine ⟨k + 1, Nat.succ_le_succ le, fun j less => ?_, ?_, ?_⟩
  · cases j with
    | zero => exact ⟨s.prompted, rfl, log⟩
    | succ j =>
      rw [List.take_succ_cons, next]
      exact before j (Nat.lt_of_succ_lt_succ less)
  · rw [List.take_succ_cons, next, List.length_cons, Nat.add_right_cancel_iff]
    exact last
  · rw [List.take_succ_cons, next]
    exact ends

theorem followsFault {α : Type} {file : EStateM.Result Stop Session α} {i : Int} (log : s.log = [])
    (told : ∀ c t, dialogue i [l] s = .ok c t → t.log.runtime ≠ [])
    (alike : EndAlike (dialogue i [l] s) file) : Follows i (l :: ls) s file := by
  refine ⟨1, Nat.succ_le_succ (Nat.zero_le _), fun j less => ?_, .inr ?_, ?_⟩
  · rw [Nat.lt_one_iff.mp less]
    exact ⟨s.prompted, rfl, log⟩
  · rw [List.take_succ_cons, List.take_zero]
    exact told
  · rw [List.take_succ_cons, List.take_zero]
    exact alike

theorem treeAppend (n : Nat) (ss ts : List Stmt) :
    Eval.tree n (.program (ss ++ ts)) = (do
      Eval.executeAll n ss
      Eval.tree n (.program ts)) := by
  show (do
    Eval.executeAll n (ss ++ ts)
    return Value.nil : Eval Value) = _
  rw [Eval.executeAllAppend, bind_assoc]
  rfl

theorem Waiting.ran (waiting : s.Waiting limit) (read : List Token) (body : List Stmt) (lone : Bool) :
    interpret (s.prompted.parsedBy read body lone) =
      (s.prompted.parsedBy read body lone).concluded
        (Eval.tree fuel (.program (Stmt.numberAll body s.nextNode).1) s.prompted.machine) := by
  have begun : { s.prompted.machine with locals := s.resolver.locals } = s.prompted.machine := by
    rw [waiting.entries, ← waiting.locals]
    rfl
  rw [interpretIs, ← begun]
  rfl

theorem Waiting.after (waiting : s.Waiting limit) {body : List Stmt} {m : Machine} (read : List Token)
    (lone : Bool) (run : Eval.executeAll fuel (Stmt.numberAll body s.nextNode).1 s.prompted.machine =
      .ok () m) : Waiting limit { s.prompted.parsedBy read body lone with machine := m } := by
  have ready := waiting.prompted.toReady.parsedBy read body lone
  have locals := ((Eval.allBuilt fuel).executeAll (Stmt.numberAll body s.nextNode).1).locals
    [] s.prompted.machine waiting.locals
  rw [run] at locals
  exact ⟨⟨ready.tokens, ready.index⟩, waiting.limit, waiting.lone, waiting.log, waiting.entries, locals⟩

theorem Lines.follows {s₀ : Session} (h : Lines limit ls reads bodies) (waiting : s.Waiting limit) (i : Int)
    (log : s₀.log = []) :
    Follows i ls s (s₀.concluded
      (Eval.tree fuel (.program (Stmt.numberAll bodies s.nextNode).1) s.machine.unprompted)) := by
  obtain ⟨n, enough⟩ : ∃ n, fuel = n + 1 := ⟨fuel - 1, by decide⟩
  induction h generalizing s i with
  | nil =>
    refine ⟨0, Nat.le_refl 0, fun j none => absurd none (Nat.not_lt_zero j), .inl rfl, ?_⟩
    rw [enough]
    exact ⟨rfl, s.promptedMachine, waiting.log.trans log.symm⟩
  | @cons l ls read reads body bodies line more ih =>
    obtain ⟨lone, step⟩ := waiting.dialogue line i
    have run := waiting.ran read body lone
    -- the file runs the line as the prompt does, but for the prompts on the console
    have same : Eval.executeAll fuel (Stmt.numberAll body s.nextNode).1 s.machine.unprompted =
        onState Machine.unprompted
          (Eval.executeAll fuel (Stmt.numberAll body s.nextNode).1 s.prompted.machine) := by
      rw [← s.promptedMachine]
      exact ((Eval.allBuilt fuel).executeAll _).unprompted s.prompted.machine
    rw [numberAppend, treeAppend, bindRun, same]
    cases ran : Eval.executeAll fuel (Stmt.numberAll body s.nextNode).1 s.prompted.machine with
    | ok _ m₁ =>
      have after : interpret (s.prompted.parsedBy read body lone) =
          .ok .nil { s.prompted.parsedBy read body lone with machine := m₁ } := by
        rw [run, show Eval.tree fuel (.program (Stmt.numberAll body s.nextNode).1)
          s.prompted.machine = .ok .nil m₁ from bindOk.mpr ⟨(), m₁, ran, rfl⟩]
        rfl
      refine (ih (waiting.after read lone ran) (i + 1)).behind waiting.log fun ls => ?_
      rw [step, bindRun, after]
    | error e m₁ =>
      have after : dialogue i [l] s =
          closing ((s.prompted.parsedBy read body lone).concluded (.error e m₁)) := by
        rw [step, closingRun, run]
        exact congrArg (fun result => closing (concluded _ result)) (bindError.mpr (.inl ran))
      have log' : (s.prompted.parsedBy read body lone).log = s₀.log := waiting.log.trans log.symm
      obtain ⟨alike, told⟩ := faultAlike log' e m₁
      rw [← after] at alike told
      exact followsFault waiting.log told alike

theorem waitingFresh (setting : Setting) : (fresh setting).Waiting setting.limit :=
  ⟨⟨.inl rfl, rfl⟩, rfl, rfl, rfl, rfl, rfl⟩

def unresolved (text : List Char) : Interact Unit := do
  scanLines 0 (Text.lines text)
  parse
  let _ ← interpret

theorem Follows.done {s₀ : Session} {i : Int} (h : Follows i ls s (interpret s₀)) :
    Follows i ls s ((do let _ ← interpret : Interact Unit) s₀) := by
  obtain ⟨k, le, before, last, ends⟩ := h
  refine ⟨k, le, before, last, ?_⟩
  have final : (do let _ ← interpret : Interact Unit) s₀ =
      (interpret >>= fun _ => pure ()) s₀ := rfl
  rw [final, bindRun]
  generalize dialogue i (ls.take k) s = typed, interpret s₀ = file at ends ⊢
  cases typed <;> cases file <;> exact ends

/-- Of the lines that are typed after one with a fault, the file knows nothing. -/
theorem dialoguesFollowFiles (setting : Setting) {ls : List (List Char)} (some : ls ≠ [])
    (complete : ∀ l ∈ ls, isComplete setting.limit l = true)
    (whole : ∀ l ∈ ls, '\n' ∉ l ∧ '\r' ∉ l) :
    Follows 1 ls (fresh setting) (unresolved (Text.ofLines ls) (fresh setting)) ∧
      ((∀ l ∈ ls, isFlat setting.limit l = true) →
        Follows 1 ls (fresh setting) (script (Text.ofLines ls) (fresh setting))) := by
  obtain ⟨reads, bodies, lines⟩ := linesOf complete
  have waiting := waitingFresh setting
  have scanned := lines.scanned some 0 (fresh setting)
  have parsed := waiting.toReady.parsed fun m enough => lines.declared enough
  let s₀ := (fresh setting).parsedBy reads bodies (fresh setting).allowLone
  have follows : Follows 1 ls (fresh setting) (interpret s₀) := by
    rw [interpretIs]
    exact lines.follows waiting 1 rfl
  refine ⟨?_, fun flat => ?_⟩
  · unfold unresolved
    rw [Text.linesOfLines whole, bindRun, scanned]
    dsimp only
    rw [bindRun, parsed]
    exact follows.done
  · have resolved : resolve s₀ = .ok () s₀ := resolveRun (s := s₀) (lines.resolved flat 0)
    unfold script
    rw [Text.linesOfLines whole, bindRun, scanned]
    dsimp only
    rw [bindRun, parsed]
    dsimp only
    rw [bindRun, resolved]
    exact follows.done

def flatSample : List (List Char) :=
  ["var a = \"x\";".toList, "fun f() \x7b return a; \x7d print f();".toList, "print b;".toList,
   "print a;".toList]

theorem dialoguesFollowFiles_flat :
    (∀ l ∈ flatSample, isComplete 25 l = true ∧ isFlat 25 l = true) ∧
      Follows 1 flatSample (live (.still 0)) (script (Text.ofLines flatSample) (live (.still 0))) := by
  have complete : flatSample.all (isComplete 25) = true := by decide +kernel
  have flat : flatSample.all (isFlat 25) = true := by decide +kernel
  have whole : (flatSample.all fun l => !l.contains '\n' && !l.contains '\r') = true := by
    decide +kernel
  rw [List.all_eq_true] at complete flat whole
  refine ⟨fun l mem => ⟨complete l mem, flat l mem⟩, ?_⟩
  exact (dialoguesFollowFiles { live := true, now := .still 0 } (by simp [flatSample]) complete
    fun l mem => by simpa using whole l mem).2 flat

/-- A variable of a block is found from a file and not from the prompt. A file without a line cannot
be run at all. -/
theorem typedBlocksAreNotResolved :
    let l := "\x7b var x = \"a\"; print x; \x7d".toList
    let typed := final (dialogue 1 [l] (live (.still 0)))
    let file := final (script (Text.ofLines [l]) (live (.still 0)))
    isComplete 25 l = true ∧ typed.machine.console = #[">", ">"] ∧ typed.log.runtime.length = 1 ∧
      file.machine.console = #["a\n"] ∧ file.log.isEmpty = true ∧
      (match script (Text.ofLines []) (live (.still 0)) with
        | .ok .. => false
        | .error .. => true) = true := by
  decide +kernel

end Session
end Lox
