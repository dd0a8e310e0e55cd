import Lox.Proofs.Runs.Entries
import Lox.Proofs.Turns

/-!
A program given in parts. Scanning, parsing, resolving and running one part after the other does
what the same four steps do with the whole program, as long as no part leads to a report of the
parser or of a run, or ends in a lone expression.
-/

namespace Lox

def Value.Below (n : Nat) (v : Value) : Prop :=
  v.Holds (fun r => ∀ k ∈ r.decl.nodes, k < n) fun r => ∀ k ∈ r.decl.nodes, k < n

theorem numberAppend (ss ts : List Stmt) (n : Nat) :
    Stmt.numberAll (ss ++ ts) n =
      ((Stmt.numberAll ss n).1 ++ (Stmt.numberAll ts (Stmt.numberAll ss n).2).1,
        (Stmt.numberAll ts (Stmt.numberAll ss n).2).2) := by
  induction ss generalizing n with
  | nil => rfl
  | cons s ss ih =>
    show ((s.number n).1 :: (Stmt.numberAll (ss ++ ts) (s.number n).2).1,
      (Stmt.numberAll (ss ++ ts) (s.number n).2).2) = _
    rw [ih]
    rfl

theorem Resolve.stmtsAppend (ss ts : List Stmt) :
    Resolve.stmts (ss ++ ts) = (do Resolve.stmts ss; Resolve.stmts ts) := by
  induction ss with
  | nil => simp [stmts]
  | cons s ss ih =>
    simp only [List.cons_append, stmts, ih]
    split <;> simp

theorem Eval.inOrderAppend (run : Stmt → Eval Unit) (ss ts : List Stmt) :
    inOrder run (ss ++ ts) = (do inOrder run ss; inOrder run ts) := by
  induction ss with
  | nil => simp [inOrder]
  | cons s ss ih => simp [inOrder, ih]

theorem Eval.executeAllAppend (n : Nat) (ss ts : List Stmt) :
    executeAll n (ss ++ ts) = (do executeAll n ss; executeAll n ts) := by
  cases n with
  | zero => rfl
  | succ n => exact inOrderAppend (execute n) ss ts

namespace Session

theorem scanLinesAppend (i : Int) (ls ms : List (List Char)) :
    scanLines i (ls ++ ms) = (do scanLines i ls; scanLines (i + ls.length) ms) := by
  induction ls generalizing i with
  | nil => simp [scanLines]
  | cons l ls ih => simp [scanLines, ih, Int.add_assoc, Int.add_comm 1]

variable {s s' : Session} {i : Int} {ls : List (List Char)}

structure Resting (s : Session) : Prop extends Ready s where
  lone : s.foundLone = false
  log : s.resolver.log = []
  locals : s.machine.locals = s.resolver.locals
  lexical : ∀ t ∈ s.tokens, t.Lexical
  store : s.machine.store.All (Value.Below s.nextNode)

/- What turns that read the tokens `read` have done, as far as the same steps for a longer program
depend on it. -/
structure Piece (s : Session) (i : Int) (ls : List (List Char)) (s' : Session) (read : List Token)
    (body : List Stmt) (es : List LexicalError) (messages : List String) : Prop where
  scanned : ∀ b : Session, b.tokens = s.tokens → scanLines i ls b =
    .ok () { b with tokens := s'.tokens, log := b.log ++ es.map .lexical }
  limit : s'.limit = s.limit
  front : s'.front = s.front ++ read
  count : body.length ≤ read.length
  follow : ∀ rest, Follow rest → Follow (read ++ rest)
  parsed : ∀ {m j us rest as}, 64 * (s'.front.length + s.limit + 5) ≤ m → Follow (us ++ rest) →
    Parse.Reads (Parse.whileM j Parse.unfinished (Parse.declaration m)) us (pure as) rest →
    Parse.Reads (Parse.whileM (body.length + j) Parse.unfinished (Parse.declaration m))
      (read ++ us) (pure (body ++ as)) rest
  numbered : (Stmt.numberAll body s.nextNode).2 = s'.nextNode
  resolved : ∀ log, Resolve.stmts (Stmt.numberAll body s.nextNode).1 { s.resolver with log := log } =
    .ok () { s'.resolver with log := log ++ messages.map .resolution }
  entries : ∀ n, n < s.nextNode →
    s'.resolver.locals.distance? n = s.resolver.locals.distance? n
  ran : ∀ L : Locals, (∀ n, n < s'.nextNode → L.distance? n = s'.resolver.locals.distance? n) →
    Eval.executeAll fuel (Stmt.numberAll body s.nextNode).1 { s.machine with locals := L } =
      .ok () { s'.machine with locals := L }
  lexical : s'.log.lexical = s.log.lexical ++ es
  resolution : s'.log.resolution = s.log.resolution ++ messages
  allowLone : s'.allowLone = s.allowLone

namespace Turned

variable {read : List Token} {es : List LexicalError} {body : List Stmt} {c : Cursor} {r : Resolver}
  (h : Turned s i ls s' read es body c r)

include h

theorem steady (resting : s.Resting) :
    Steady (Stmt.nodesOf (Stmt.numberAll body s.nextNode).1) { s.resolver with log := c.log } r := by
  have shaped := shapedProgram (sourcedCursor (s := { s with
    tokens := s'.tokens, log := s.log ++ es.map .lexical }) (h.lexical resting.lexical)) h.parsed
  exact (Resolve.steadyStmts _ ((numberStmts body s.nextNode).2 shaped) h.resolved).1

theorem executedWith (resting : s.Resting) (clean : s'.Clean) {L : Locals}
    (known : ∀ n, n < s'.nextNode → L.distance? n = s'.resolver.locals.distance? n) :
    Eval.executeAll fuel (Stmt.numberAll body s.nextNode).1 { s.machine with locals := L } =
        .ok () { s'.machine with locals := L } ∧
      s'.machine.locals = s'.resolver.locals ∧ s'.machine.store.All (Value.Below s'.nextNode) := by
  obtain ⟨after, run⟩ := h.executed resting.toReady clean
  have numbers := (numberStmts body s.nextNode).1
  have next : s'.nextNode = (Stmt.numberAll body s.nextNode).2 := by rw [after]; rfl
  have resolver : s'.resolver = { r with log := [] } := by rw [after]; rfl
  rw [resolver] at known ⊢
  let A : Agreement := ⟨fun n => n < s'.nextNode, r.locals, L, known⟩
  have start : A.MachineOk { s.machine with locals := r.locals } := by
    refine ⟨rfl, resting.store.mono fun v below => ?_⟩
    have wider : ∀ r : Routine, (∀ k ∈ r.decl.nodes, k < s.nextNode) → A.RoutineOk r :=
      fun r below k mem => Nat.lt_of_lt_of_le (below k mem) (next ▸ numbers.1)
    exact below.mono wider wider
  have covers : A.Covers (Stmt.nodesOf (Stmt.numberAll body s.nextNode).1) := by
    intro k mem
    show k < s'.nextNode
    rw [next]
    exact (numbers.bounds mem).2
  obtain ⟨same, ends⟩ := (Agreement.runs A fuel).executeAll _ covers _ start
  rw [run] at same ends
  exact ⟨same, ends.1.locals, ends.1.store⟩

theorem resting (before : s.Resting) (clean : s'.Clean) : s'.Resting := by
  obtain ⟨after, -⟩ := h.executed before.toReady clean
  obtain ⟨-, locals, store⟩ := h.executedWith before clean fun _ _ => rfl
  refine ⟨h.ready before.toReady, clean.lone, ?_, locals, h.lexical before.lexical, store⟩
  rw [after]
  rfl

theorem piece (resting : s.Resting) (clean : s'.Clean) :
    ∃ messages, Piece s i ls s' read body es messages := by
  have ready := resting.toReady
  have quiet := h.quiet ready clean
  have onward := h.onward ready
  have steady := h.steady resting
  have numbers := (numberStmts body s.nextNode).1
  obtain ⟨after, -⟩ := h.executed ready clean
  obtain ⟨messages, told⟩ := steady.log
  have told : r.log = c.log ++ messages.map .resolution := told
  have resolver : s'.resolver = { r with log := [] } := by rw [after]; rfl
  have log : s'.log = s.log.extended es messages := by
    rw [after]
    show r.log = _
    rw [told, quiet.log]
    rfl
  have ahead := fun {m : Nat} (enough : (s.ahead s' es).budget ≤ m) =>
    Parse.programAhead enough (h.cursorAt ready) h.parsed quiet
  obtain ⟨count, follow, -⟩ := ahead (Nat.le_refl _)
  exact ⟨messages, {
    scanned := h.scanned
    limit := by rw [after]; rfl
    front := h.front
    count := count
    follow := follow
    parsed := fun enough after reads => (ahead (ready.budget h.closed h.front es ▸ enough)).2.2 after reads
    numbered := by rw [after]; rfl
    resolved := fun log => by
      obtain ⟨more, same, walk⟩ := h.resolvedFrom log
      rw [List.append_cancel_left (same.symm.trans told)] at walk
      rw [resolver]
      exact walk
    entries := fun n below => by
      rw [resolver]
      exact steady.locals n fun mem => Nat.not_lt.mpr (numbers.bounds mem).1 below
    ran := fun L known => (h.executedWith resting clean known).1
    lexical := by rw [log, Log.lexicalExtended]
    resolution := by rw [log, Log.resolutionExtended]
    allowLone := by
      rw [after]
      show c.allowLone = s.allowLone
      rw [onward.rest]
      rfl }⟩

end Turned

theorem Piece.append {s₁ : Session} {ms : List (List Char)} {read₁ read₂ : List Token}
    {body₁ body₂ : List Stmt} {es₁ es₂ : List LexicalError} {messages₁ messages₂ : List String}
    (first : Piece s i ls s₁ read₁ body₁ es₁ messages₁)
    (next : Piece s₁ (i + ls.length) ms s' read₂ body₂ es₂ messages₂) :
    Piece s i (ls ++ ms) s' (read₁ ++ read₂) (body₁ ++ body₂) (es₁ ++ es₂)
      (messages₁ ++ messages₂) where
  scanned b begun := by
    rw [scanLinesAppend]
    refine bindOk.mpr ⟨(), _, first.scanned b begun, ?_⟩
    rw [List.map_append, ← List.append_assoc]
    exact next.scanned _ rfl
  limit := next.limit.trans first.limit
  front := by rw [next.front, first.front, List.append_assoc]
  count := by
    have := first.count
    have := next.count
    simp only [List.length_append]
    omega
  follow rest h := by
    rw [List.append_assoc]
    exact first.follow _ (next.follow rest h)
  parsed {m j us rest as} enough after reads := by
    have shorter : s₁.front.length ≤ s'.front.length := by
      rw [next.front, List.length_append]
      exact Nat.le_add_right _ _
    have later := next.parsed (first.limit ▸ enough) after reads
    have follow : Follow ((read₂ ++ us) ++ rest) := by
      rw [List.append_assoc]
      exact next.follow _ after
    have both := first.parsed (by omega) follow later
    rw [List.length_append, Nat.add_assoc, List.append_assoc, List.append_assoc]
    exact both
  numbered := by
    rw [numberAppend, first.numbered]
    exact next.numbered
  resolved log := by
    rw [numberAppend, Resolve.stmtsAppend]
    refine bindOk.mpr ⟨(), _, first.resolved log, ?_⟩
    rw [first.numbered, List.map_append, ← List.append_assoc]
    exact next.resolved _
  entries n below := by
    have wider : s.nextNode ≤ s₁.nextNode := by
      rw [← first.numbered]
      exact (numberStmts body₁ s.nextNode).1.1
    rw [next.entries n (Nat.lt_of_lt_of_le below wider), first.entries n below]
  ran L known := by
    have wider : s₁.nextNode ≤ s'.nextNode := by
      rw [← next.numbered]
      exact (numberStmts body₂ s₁.nextNode).1.1
    have early : ∀ n, n < s₁.nextNode → L.distance? n = s₁.resolver.locals.distance? n := by
      intro n below
      rw [known n (Nat.lt_of_lt_of_le below wider), next.entries n below]
    rw [numberAppend, Eval.executeAllAppend]
    refine bindOk.mpr ⟨(), _, first.ran L early, ?_⟩
    rw [first.numbered]
    exact next.ran L known
  lexical := by rw [next.lexical, first.lexical, List.append_assoc]
  resolution := by rw [next.resolution, first.resolution, List.append_assoc]
  allowLone := next.allowLone.trans first.allowLone

theorem Resting.pieces {part : List (List Char)} {parts : List (List (List Char))}
    (resting : s.Resting) (h : inTurn i (part :: parts) s = .ok () s') (clean : s'.Clean) :
    s'.Resting ∧ s'.tokens.toList = s'.front ++ [.eof] ∧
      ∃ read body es messages, Piece s i (part :: parts).flatten s' read body es messages := by
  induction parts generalizing i s part with
  | nil =>
    obtain ⟨_, s₁, first, last⟩ := bindOk.mp h
    cases last
    obtain ⟨read, es, body, c, r, turned⟩ := resting.toReady.turned first
    obtain ⟨messages, piece⟩ := turned.piece resting clean
    refine ⟨turned.resting resting clean, turned.closed, read, body, es, messages, ?_⟩
    simpa using piece
  | cons part' parts ih =>
    obtain ⟨_, s₁, first, rest⟩ := bindOk.mp h
    obtain ⟨read, es, body, c, r, turned⟩ := resting.toReady.turned first
    have clean₁ := (inTurnGrows (turned.ready resting.toReady) rest).clean clean
    obtain ⟨messages, piece⟩ := turned.piece resting clean₁
    obtain ⟨after, closed, read', body', es', messages', later⟩ :=
      ih (turned.resting resting clean₁) rest
    exact ⟨after, closed, _, _, _, _, piece.append later⟩

theorem parseRun {body : List Stmt} {c : Cursor}
    (h : Parse.run Parse.program s.cursor = .ok body c) :
    parse s = .ok () { s with
      index := c.index, allowLone := c.allowLone, foundLone := c.foundLone, log := c.log
      machine := { s.machine with console := c.console }
      tree := .program (Stmt.numberAll body s.nextNode).1
      nextNode := (Stmt.numberAll body s.nextNode).2 } :=
  bindOk.mpr ⟨body, _, parsingRun h, rfl⟩

theorem resolveRun {r : Resolver}
    (h : Resolve.tree s.tree { s.resolver with log := s.log } = .ok () r) :
    resolve s = .ok () { s with resolver := { r with log := [] }, log := r.log } := by
  unfold resolve
  rw [h]

theorem interpretRun {v : Value} {m : Machine}
    (h : Eval.tree fuel s.tree { s.machine with locals := s.resolver.locals } = .ok v m) :
    interpret s = .ok v { s with machine := m } := by
  refine bindOk.mpr ⟨s, s, rfl, bindOk.mpr ⟨.ok v, { s with machine := m }, ?_, rfl⟩⟩
  unfold evaluating
  rw [h]

section

variable {read : List Token} {body : List Stmt} {es : List LexicalError} {messages : List String}

theorem Piece.program (piece : Piece s i ls s' read body es messages) (ready : s.Ready)
    (closed : s'.tokens.toList = s'.front ++ [.eof]) :
    Parse.run Parse.program (s.ahead s' es) = .ok body ((s.ahead s' es).moved read.length) := by
  have budget := ready.budget closed piece.front es
  have count := piece.count
  have size : read.length ≤ s'.front.length := by
    rw [piece.front, List.length_append]
    omega
  obtain ⟨j, enough⟩ : ∃ j, (s.ahead s' es).budget = body.length + (j + 1) :=
    ⟨(s.ahead s' es).budget - body.length - 1, by omega⟩
  have reads := piece.parsed (Nat.le_of_eq budget.symm) ⟨.eof, [], rfl, by decide⟩
    (Parse.readsNoMore j)
  have run := reads _ (by simpa using ready.cursorAt closed piece.front es)
  rw [← enough, List.append_nil, List.append_nil, ← Parse.program] at run
  rw [Parse.runAt]
  exact run

theorem Piece.atOnce (piece : Piece s i ls s' read body es messages) (before : s.Resting)
    (after : s'.Resting) (closed : s'.tokens.toList = s'.front ++ [.eof]) :
    turn i ls s = .ok () { s' with
      log := s.log.extended es messages
      tree := .program (Stmt.numberAll body s.nextNode).1 } := by
  -- the session after each of the steps
  let s₁ : Session := { s with tokens := s'.tokens, log := s.log ++ es.map .lexical }
  let s₂ : Session := { s₁ with
    index := s'.index
    tree := .program (Stmt.numberAll body s.nextNode).1, nextNode := s'.nextNode }
  let s₃ : Session := { s₂ with
    resolver := { s'.resolver with log := [] }, log := s₁.log ++ messages.map .resolution }
  let s₄ : Session := { s₃ with machine := { s'.machine with locals := s'.resolver.locals } }
  have index : s.index + read.length = s'.index := by
    rw [before.index, after.index, piece.front, List.length_append, Int.natCast_add]
  have parsed : parse s₁ = .ok () s₂ := by
    rw [parseRun (piece.program before.toReady closed)]
    show EStateM.Result.ok () { s₁ with
      index := s.index + read.length
      tree := .program (Stmt.numberAll body s.nextNode).1
      nextNode := (Stmt.numberAll body s.nextNode).2 } = _
    rw [index, piece.numbered]
  have resolved : resolve s₂ = .ok () s₃ := resolveRun (s := s₂) (piece.resolved s₁.log)
  have ran : interpret s₃ = .ok .nil s₄ :=
    interpretRun (s := s₃) (bindOk.mpr ⟨(), _, piece.ran s'.resolver.locals fun _ _ => rfl, rfl⟩)
  have whole : turn i ls s = .ok () s₄ :=
    bindOk.mpr ⟨(), s₁, piece.scanned s rfl, bindOk.mpr ⟨(), s₂, parsed,
      bindOk.mpr ⟨(), s₃, resolved, bindOk.mpr ⟨.nil, s₄, ran, rfl⟩⟩⟩⟩
  have resolver : { s'.resolver with log := [] } = s'.resolver := by
    rw [← after.log]
  have machine : { s'.machine with locals := s'.resolver.locals } = s'.machine := by
    rw [← after.locals]
  rw [whole]
  simp only [s₄, s₃, s₂, s₁, Log.extended, resolver, machine, piece.allowLone, piece.limit,
    before.lone, after.lone]

end

theorem restingFresh (setting : Setting) : (fresh setting).Resting :=
  ⟨⟨.inl rfl, rfl⟩, rfl, rfl, rfl, by simp [fresh], .initial trivial trivial⟩

/-- The machine holds what was printed and all variables. -/
theorem partsRunAsOne {setting : Setting} {part : List (List Char)}
    {parts : List (List (List Char))} {s : Session}
    (ran : inTurn 0 (part :: parts) (fresh setting) = .ok () s) (clean : s.Clean) :
    ∃ s', turn 0 (part :: parts).flatten (fresh setting) = .ok () s' ∧
      s'.machine = s.machine ∧ s'.resolver = s.resolver ∧
      s'.log.resolution = s.log.resolution ∧ s'.log.lexical = s.log.lexical ∧ s'.Clean := by
  have before := restingFresh setting
  obtain ⟨after, closed, read, body, es, messages, piece⟩ := before.pieces ran clean
  refine ⟨_, piece.atOnce before after closed, rfl, rfl, ?_, ?_, ?_, ?_, clean.lone⟩
  · exact (Log.resolutionExtended ..).trans piece.resolution.symm
  · exact (Log.lexicalExtended ..).trans piece.lexical.symm
  · exact Log.parseExtended ..
  · exact Log.runtimeExtended ..

def partedProgram : List (List (List Char)) :=
  [["class A \x7b m() \x7b return \"a\"; \x7d \x7d".toList],
   ["fun f(o) \x7b".toList, "  return o.m(); \x7d".toList, "var b = A();".toList],
   [],
   ["if (true) print f(b); else print b;".toList, "\x7b var b = \"c\"; print b; \x7d".toList]]

def runsInTurn (parts : List (List (List Char))) : Bool :=
  match inTurn 0 parts (fresh {}) with
  | .ok _ s => s.log.parse.isEmpty && s.log.runtime.isEmpty && !s.foundLone
  | .error .. => false

theorem cleanOfRuns {parts : List (List (List Char))} (h : runsInTurn parts = true) :
    ∃ s, inTurn 0 parts (fresh {}) = .ok () s ∧ s.Clean := by
  unfold runsInTurn at h
  split at h
  · next s run =>
    simp only [Bool.and_eq_true, List.isEmpty_iff, Bool.not_eq_true'] at h
    exact ⟨s, run, h.1.1, h.1.2, h.2⟩
  · cases h

theorem partsRunAsOne_parted :
    ∃ s s', inTurn 0 partedProgram (fresh {}) = .ok () s ∧ s.Clean ∧
      turn 0 partedProgram.flatten (fresh {}) = .ok () s' ∧ s'.machine = s.machine := by
  have runs : runsInTurn partedProgram = true := by decide +kernel
  obtain ⟨s, ran, clean⟩ := cleanOfRuns runs
  obtain ⟨s', whole, machine, -⟩ := partsRunAsOne ran clean
  exact ⟨s, s', ran, clean, whole, machine⟩

end Session
end Lox
