import Lox.Proofs.Dialogues
import Lox.Proofs.Parsing.Lines

/-!
What a line that is typed leaves to the lines behind it. Two flags are set and never taken back: one
by a lexical error, after which nothing runs any more, and one by a lone expression, after which the
parser takes the first declaration of every line for another.
-/

namespace Lox.Session

variable {s s₁ s' : Session} {i : Int} {l : List Char} {ls : List (List Char)}

structure Placed (s : Session) : Prop where
  low : 0 ≤ s.index
  high : s.index ≤ s.front.length

theorem scanLineMachine (i : Int) (l : List Char) (s : Session) :
    (final (scanLine i l s)).machine = s.machine := by
  unfold scanLine
  dsimp only
  split <;> rfl

structure Later (s s' : Session) : Prop where
  machine : s'.machine = s.machine
  log : s.log <+: s'.log
  placed : s'.Placed

theorem Placed.scanned (placed : s.Placed) (run : scanLine i l s = .ok () s₁) :
    s.Later s₁ ∧ ∃ todo, s₁.cursor.At (todo ++ [.eof]) ∧
      s₁.index + todo.length = s₁.front.length := by
  obtain ⟨new, es, tokens, same⟩ := scanLineAdds run
  have whole : s₁ = { s with tokens := s₁.tokens, log := s.log ++ es.map .lexical } := by
    simpa using run.symm.trans (same s rfl)
  have index : s₁.index = s.index := by rw [whole]
  have machine : s₁.machine = s.machine := by rw [whole]
  have log : s₁.log = s.log ++ es.map .lexical := by rw [whole]
  have front : s₁.front = s.front ++ new :=
    Scan.dropEndClosed (tokens.trans (List.append_assoc ..).symm)
  have closed : s₁.tokens.toList = s₁.front ++ [.eof] := by
    rw [tokens, front, List.append_assoc]
  have length : s₁.front.length = s.front.length + new.length := by
    rw [front, List.length_append]
  have low := placed.low
  have high := placed.high
  refine ⟨⟨machine, ⟨_, log.symm⟩, ⟨?_, ?_⟩⟩, s₁.front.drop s.index.toNat,
    ⟨s.index.toNat, ?_, ?_⟩, ?_⟩
  · omega
  · omega
  · exact index.trans (Int.toNat_of_nonneg low).symm
  · have inside : s.index.toNat ≤ s₁.front.length := by omega
    rw [← List.drop_append_of_le_length inside, ← closed]
    simp [cursor]
  · rw [List.length_drop]
    omega

theorem parsedLater {todo : List Token} (placed : s.Placed) (at' : s.cursor.At (todo ++ [.eof]))
    (there : s.index + todo.length = s.front.length) : s.Later (final (parseTyped s)) := by
  have enough := Parse.budgetWeight at'
  have within : s.cursor.Within todo.length (final (Parse.run Parse.typedLine s.cursor)) :=
    (Parse.soundTypedLine (Nat.le_refl _) (by omega) _ _ _ at' rfl (Nat.le_refl _)).within
  have later : ∀ c' n t, s.cursor.Within todo.length c' → s.Later { s with
      index := c'.index, allowLone := c'.allowLone, foundLone := c'.foundLone, log := c'.log
      machine := { s.machine with console := c'.console }, nextNode := n, tree := t } := by
    intro c' n t within
    obtain ⟨es, log⟩ := within.log
    refine ⟨?_, ⟨_, log.symm⟩, ?_, ?_⟩
    · rw [within.rest]
      rfl
    · exact Int.le_trans placed.low within.after
    · exact Int.le_trans within.before (Int.le_of_eq there)
  cases run : Parse.run Parse.typedLine s.cursor with
  | ok t c =>
    rw [run] at within
    rw [parseTypedRun run]
    exact later c _ _ within
  | error e c =>
    have stopped : parseTyped s = .error e { s with
        index := c.index, allowLone := c.allowLone, foundLone := c.foundLone, log := c.log
        machine := { s.machine with console := c.console } } := by
      refine bindError.mpr (.inl ?_)
      unfold parsing
      rw [run]
    rw [run] at within
    rw [stopped]
    exact later c _ _ within

theorem Placed.read (placed : s.Placed) (i : Int) (l : List Char) :
    (final (read i l s)).machine = s.machine ∧
      ∀ s', Session.read i l s = .ok () s' → ∃ s₁, scanLine i l s = .ok () s₁ ∧ s₁.Later s' := by
  unfold Session.read
  rw [bindRun]
  have scanned := scanLineMachine i l s
  cases run : scanLine i l s with
  | error e s₁ =>
    rw [run] at scanned
    exact ⟨scanned, fun _ done => nomatch done⟩
  | ok _ s₁ =>
    rw [run] at scanned
    obtain ⟨later, todo, at', there⟩ := placed.scanned run
    have parsed := parsedLater later.placed at' there
    refine ⟨parsed.machine.trans scanned, fun s' done => ⟨s₁, rfl, ?_⟩⟩
    have done : parseTyped s₁ = .ok () s' := done
    rw [done] at parsed
    exact parsed

theorem hasLexicalLater {log more : Log} (later : log <+: more) (lexical : log.hasLexical = true) :
    more.hasLexical = true := by
  obtain ⟨rest, rfl⟩ := later
  simp only [Log.hasLexical, Log.lexicalAppend] at lexical ⊢
  simp_all

theorem Placed.silenced (placed : s.Placed)
    (lexical : ∀ s₁, scanLine i l s = .ok () s₁ → s₁.log.hasLexical = true) :
    (final (typed i l s)).machine = s.machine ∧
      ∀ r s', typed i l s = .ok r s' → r = none ∧ s'.Placed ∧ s'.log.hasLexical = true := by
  obtain ⟨machine, reads⟩ := placed.read i l
  rw [Session.typed, bindRun]
  cases run : Session.read i l s with
  | error e s₂ =>
    rw [run] at machine
    exact ⟨machine, fun _ _ done => nomatch done⟩
  | ok _ s₂ =>
    rw [run] at machine
    obtain ⟨s₁, scanned, later⟩ := reads s₂ run
    have lexical := hasLexicalLater later.log (lexical s₁ scanned)
    have idle : answer s₂ = .ok none s₂ := by
      unfold answer
      rw [getBind, if_pos lexical]
      rfl
    dsimp only
    rw [idle]
    refine ⟨machine, ?_⟩
    rintro r s' ⟨⟩
    exact ⟨rfl, later.placed, lexical⟩

theorem Placed.prompted (placed : s.Placed) : s.prompted.Placed := ⟨placed.low, placed.high⟩

theorem dialogueCons (i : Int) (l : List Char) (ls : List (List Char)) (s : Session) :
    dialogue i (l :: ls) s = (typed i l >>= answered i ls) s.prompted := rfl

theorem Placed.silencedThen (placed : s.Placed)
    (lexical : ∀ s₁, scanLine i l s.prompted = .ok () s₁ → s₁.log.hasLexical = true)
    (rest : ∀ s' : Session, s'.Placed → s'.log.hasLexical = true →
      (final (dialogue (i + 1) ls s')).machine.unprompted = s'.machine.unprompted) :
    (final (dialogue i (l :: ls) s)).machine.unprompted = s.machine.unprompted := by
  obtain ⟨machine, next⟩ := placed.prompted.silenced lexical
  have same := (congrArg Machine.unprompted machine).trans s.promptedMachine
  rw [dialogueCons, bindRun]
  cases run : typed i l s.prompted with
  | error e s₁ =>
    rw [run] at same
    exact same
  | ok r s₁ =>
    rw [run] at same
    obtain ⟨rfl, placed₁, lexical₁⟩ := next r s₁ run
    exact (rest s₁ placed₁ lexical₁).trans same

theorem Placed.staysSilenced (placed : s.Placed) (lexical : s.log.hasLexical = true) :
    (final (dialogue i ls s)).machine.unprompted = s.machine.unprompted := by
  induction ls generalizing i s with
  | nil => exact s.promptedMachine
  | cons l ls ih =>
    refine placed.silencedThen (fun s₁ scanned => ?_) fun s' => ih
    exact hasLexicalLater (placed.prompted.scanned scanned).1.log lexical

theorem Placed.answer {r : Option Crash} (placed : s.Placed) (run : answer s = .ok r s') :
    s'.Placed ∧ r ≠ some .endOfInput := by
  unfold Session.answer at run
  rw [getBind] at run
  split at run
  · cases run
    exact ⟨placed, nofun⟩
  · cases tree : s.tree with
    | program body =>
      simp only [tree] at run
      obtain ⟨v, s₁, ran, last⟩ := bindOk.mp run
      cases last
      obtain ⟨m, log, rfl, -⟩ := interpretOk ran
      exact ⟨⟨placed.low, placed.high⟩, nofun⟩
    | expression e =>
      simp only [tree] at run
      cases run
      exact ⟨placed, nofun⟩

theorem Placed.typed {r : Option Crash} (placed : s.Placed) (run : typed i l s = .ok r s') :
    s'.Placed ∧ r ≠ some .endOfInput := by
  rw [Session.typed] at run
  obtain ⟨_, s₂, reads, answers⟩ := bindOk.mp run
  obtain ⟨s₁, -, later⟩ := (placed.read i l).2 s₂ reads
  exact later.placed.answer answers

theorem Placed.goesOn {before : List (List Char)} (placed : s.Placed)
    (done : dialogue i before s = .ok .endOfInput s') :
    ∃ s₁ : Session, s₁.Placed ∧ s' = s₁.prompted ∧
      ∀ rest, dialogue i (before ++ rest) s = dialogue (i + before.length) rest s₁ := by
  induction before generalizing i s with
  | nil =>
    cases done
    exact ⟨s, placed, rfl, fun rest => by simp⟩
  | cons l ls ih =>
    rw [dialogueCons] at done
    obtain ⟨r, s₂, first, next⟩ := bindOk.mp done
    obtain ⟨placed₂, alive⟩ := placed.prompted.typed first
    cases r with
    | some c =>
      cases next
      exact absurd rfl alive
    | none =>
      obtain ⟨s₁, placed₁, last, again⟩ := ih placed₂ next
      refine ⟨s₁, placed₁, last, fun rest => ?_⟩
      rw [List.cons_append, dialogueCons, bindRun, first]
      refine (again rest).trans ?_
      rw [List.length_cons, Int.natCast_succ, Int.add_assoc, Int.add_comm 1]

theorem placedFresh (setting : Setting) : (fresh setting).Placed := by
  have ready := (waitingFresh setting).toReady
  exact ⟨Int.le_refl 0, Int.le_of_eq ready.index⟩

/-- A lexical error is the end of all runs: the session comes out as it would without its line only
where the lines behind it do nothing. Behind a line in which a lone expression was found, a parser
reads as they would be read alone only empty lines and those in which it finds one again. -/
theorem flagsOutlastTheirLines (setting : Setting) (c : Cursor) :
    (∀ (before after : List (List Char)) (bad : List Char) (s s₁ : Session),
      dialogue 1 before (fresh setting) = .ok .endOfInput s →
      scanLine (1 + before.length) bad s = .ok () s₁ → s₁.log.hasLexical = true →
      let whole := final (dialogue 1 (before ++ bad :: after) (fresh setting))
      let without := final (dialogue 1 (before ++ after) (fresh setting))
      whole.machine.unprompted = s.machine.unprompted ∧
        (whole.machine.unprompted = without.machine.unprompted ↔
          without.machine.unprompted = s.machine.unprompted)) ∧
    ∀ lines : List (Parse.Alone c.limit), c.Done → c.errors + Parse.reports lines < c.limit →
      ((∃ c', Parse.typedLines (lines.map (·.tokens)) c = .ok (lines.map (·.tree)) c') ↔
        (c.foundLone = true → ∀ line ∈ lines, line.Stays) ∧
          lines.Pairwise fun a b => a.lone = true → b.Stays) := by
  refine ⟨?_, fun lines done room => Parse.typedLinesAlone lines rfl done room⟩
  intro before after bad s s₁ done scanned lexical
  obtain ⟨s₂, placed, rfl, goesOn⟩ := (placedFresh setting).goesOn done
  have spoiled : ∀ s', scanLine (1 + before.length) bad s₂.prompted = .ok () s' →
      s'.log.hasLexical = true := by
    intro s' again
    cases scanned.symm.trans again
    exact lexical
  have whole : (final (dialogue _ (bad :: after) s₂)).machine.unprompted = _ :=
    placed.silencedThen spoiled fun s' placed => placed.staysSilenced
  rw [← goesOn, ← s₂.promptedMachine] at whole
  exact ⟨whole, by rw [whole, eq_comm]⟩

def spoils (before : List (List Char)) (bad : List Char) : Bool :=
  match dialogue 1 before (live (.still 0)) with
  | .ok .endOfInput s =>
    match scanLine (1 + before.length) bad s with
    | .ok _ s₁ => s₁.log.hasLexical
    | .error .. => false
  | _ => false

theorem spoilsOk {before : List (List Char)} {bad : List Char} (h : spoils before bad = true) :
    ∃ s s₁, dialogue 1 before (live (.still 0)) = .ok .endOfInput s ∧
      scanLine (1 + before.length) bad s = .ok () s₁ ∧ s₁.log.hasLexical = true := by
  unfold spoils at h
  split at h
  · next s done =>
    split at h
    · next s₁ scanned => exact ⟨s, s₁, done, scanned, h⟩
    · cases h
  · cases h

def sampleLines : List (Parse.Alone 25) :=
  [[.keyword .var_, .identifier "a", .mark .semicolon], [], [.identifier "a"]].filterMap
    (Parse.Alone.of? 25)

theorem flagsOutlastTheirLines_samples :
    (∃ s s₁, dialogue 1 ["var a = \"x\";".toList] (live (.still 0)) = .ok .endOfInput s ∧
      scanLine 2 "print $ a;".toList s = .ok () s₁ ∧ s₁.log.hasLexical = true ∧
      (final (dialogue 1 ["var a = \"x\";".toList, "print $ a;".toList, "print a;".toList]
        (live (.still 0)))).machine.unprompted = s.machine.unprompted) ∧
    sampleLines.length = 3 ∧
    (∃ c', Parse.typedLines (sampleLines.map (·.tokens)) { tokens := #[] } =
      .ok (sampleLines.map (·.tree)) c') ∧
    ¬∃ c', Parse.typedLines (sampleLines.reverse.map (·.tokens)) { tokens := #[] } =
      .ok (sampleLines.reverse.map (·.tree)) c' := by
  have spoils : spoils ["var a = \"x\";".toList] "print $ a;".toList = true := by decide +kernel
  obtain ⟨s, s₁, done, scanned, lexical⟩ := spoilsOk spoils
  obtain ⟨session, parser⟩ := flagsOutlastTheirLines { live := true, now := .still 0 } { tokens := #[] }
  have silent := (session _ ["print a;".toList] _ s s₁ done scanned lexical).1
  have length : sampleLines.length = 3 := by decide +kernel
  have forward : 0 + Parse.reports sampleLines < 25 := by decide +kernel
  have backward : 0 + Parse.reports sampleLines.reverse < 25 := by decide +kernel
  have pairs : sampleLines.Pairwise fun a b => a.lone = true → b.Stays := by decide +kernel
  have other : ¬sampleLines.reverse.Pairwise fun a b => a.lone = true → b.Stays := by decide +kernel
  refine ⟨⟨s, s₁, done, scanned, lexical, silent⟩, length, ?_, fun reads => ?_⟩
  · exact (parser sampleLines rfl forward).mpr ⟨nofun, pairs⟩
  · exact other ((parser sampleLines.reverse rfl backward).mp reads).2

def programs (lines : List (List Token)) : List Bool :=
  match Parse.typedLines lines { tokens := #[] } with
  | .ok trees _ => trees.map fun
    | .program _ => true
    | .expression _ => false
  | .error .. => []

theorem flagsSpoilGoodLines :
    let line := "print \"a\";".toList
    let declaration : List Token := [.keyword .var_, .identifier "a", .mark .semicolon]
    (final (dialogue 1 [line, ['$']] (live (.still 0)))).machine.console = #[">", "a\n", ">", ">"] ∧
      (final (dialogue 1 [['$'], line] (live (.still 0)))).machine.console = #[">", ">", ">"] ∧
      programs [declaration, [.identifier "a"]] = [true, false] ∧
      programs [[.identifier "a"], declaration] = [false, false] := by
  decide +kernel

end Lox.Session
