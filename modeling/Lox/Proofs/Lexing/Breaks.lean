import Lox.Proofs.Scanning
import Lox.Session
import Lox.Text.Lines

/-!
Lines of a file and lines that are typed in. The break at the end of a line makes no difference to
the scanner, and the number of a line is only told in reports. A file that is written line by line
is cut into these lines again.
-/

namespace Lox

namespace Scan

theorem pushNumberPending {kind : Kind} {cs : List Char} {s s' : State}
    (run : pushNumber kind cs s = .ok () s') : s'.pending = .none := by
  unfold pushNumber at run
  dsimp only at run
  cases value : Number.readDouble? (numeral (Numeric.of cs).lexeme) with
  | none =>
    rw [value] at run
    cases run
  | some x =>
    rw [value] at run
    obtain ⟨_, s₁, -, rest⟩ := bindOk.mp run
    split at rest
    · obtain ⟨_, s₂, -, last⟩ := bindOk.mp rest
      cases last
      rfl
    · cases rest
      rfl

theorem toEndBlank (s : State) : toEnd ['\n'] s = toEnd [] s := by
  obtain ⟨line, tokens, log, pending⟩ := s
  cases pending with
  | none => rfl
  | sign t => rfl
  | word w => rfl
  | string lead body => rfl
  | number n =>
    have digit : Text.isDigit '\n' = false := by decide
    have blank : isBlank '\n' = true := by decide
    have settled : settle '\n' ⟨line, tokens, log, .number n⟩ =
        pushNumber .number n.reverse ⟨line, tokens, log, .number n⟩ := by
      simp [settle, bindRun, digit]
    have left : leave ⟨line, tokens, log, .number n⟩ =
        (pushNumber .number n.reverse >>= fun _ => setPending .none) ⟨line, tokens, log, .number n⟩ :=
      rfl
    rw [toEndCons, feed, bindRun, settled]
    show _ = finish ⟨line, tokens, log, .number n⟩
    rw [finish, bindRun, left, bindRun]
    cases run : pushNumber .number n.reverse ⟨line, tokens, log, .number n⟩ with
    | error e s' => rfl
    | ok _ s' =>
      have none := pushNumberPending run
      obtain ⟨line', tokens', log', pending'⟩ := s'
      cases none
      rfl

theorem toEndBreak (cs : List Char) : toEnd (cs ++ ['\n']) = toEnd cs := by
  induction cs with
  | nil => exact funext toEndBlank
  | cons c cs ih =>
    funext s
    rw [List.cons_append, toEndCons, toEndCons, ih]

def State.face (s : State) : Array Token × Pending × Nat := (s.tokens, s.pending, s.log.length)

section

variable {s s' : State}

theorem facePending (same : s.face = s'.face) : s.pending = s'.pending :=
  congrArg (fun face => face.2.1) same

theorem alikePush (t : Token) : Alike State.face (push t) (push t) := by
  refine alikeModify fun s s' same => ?_
  simp only [State.face, Prod.mk.injEq] at same ⊢
  exact ⟨by rw [same.1], same.2⟩

theorem alikeSetPending (p : Pending) : Alike State.face (setPending p) (setPending p) := by
  refine alikeModify fun s s' same => ?_
  simp only [State.face, Prod.mk.injEq] at same ⊢
  exact ⟨same.1, trivial, same.2.2⟩

theorem alikeReport (e e' : LexicalError) : Alike State.face (report e) (report e') := by
  refine alikeModify fun s s' same => ?_
  simp only [State.face, Prod.mk.injEq, List.length_append, List.length_singleton] at same ⊢
  exact ⟨same.1, same.2.1, by rw [same.2.2]⟩

theorem alikePushNumber (kind : Kind) (cs : List Char) :
    Alike State.face (pushNumber kind cs) (pushNumber kind cs) := by
  have last : Alike State.face
      (modify fun s => { s with line := (Numeric.of cs).line s.line, pending := .none } : M PUnit)
      (modify fun s => { s with line := (Numeric.of cs).line s.line, pending := .none }) := by
    refine alikeModify fun s s' same => ?_
    simp only [State.face, Prod.mk.injEq] at same ⊢
    exact ⟨same.1, trivial, same.2.2⟩
  unfold pushNumber
  dsimp only
  split
  · exact alikeThrow _
  · refine (alikePush _).bind fun _ => ?_
    split
    · exact (alikePush _).bind fun _ => last
    · exact last

theorem alikeSettle (c : Char) : Alike State.face (settle c) (settle c) := by
  refine alikeGet fun s s' same => ?_
  rw [facePending same]
  cases s'.pending with
  | none => exact alikePure _
  | sign t => exact alikePure _
  | word w =>
    have rest : Alike State.face
        (if (!isNameChar c) = true then do push (Token.word w.reverse); setPending .none
          else pure ())
        (if (!isNameChar c) = true then do push (Token.word w.reverse); setPending .none
          else pure ()) := by
      split
      · exact (alikePush _).bind fun _ => alikeSetPending _
      · exact alikePure _
    dsimp only
    split
    · exact (alikeThrow _).bind fun _ => rest
    · exact rest
  | number n =>
    dsimp only
    split
    · exact alikePushNumber _ _
    · exact alikePure _
  | string lead body =>
    dsimp only
    split
    · exact alikePushNumber _ _
    · exact alikePure _

theorem alikeFlush : Alike State.face flushSign flushSign := by
  refine alikeGet fun s s' same => ?_
  rw [facePending same]
  cases s'.pending with
  | sign t => exact (alikePush _).bind fun _ => alikeSetPending _
  | _ => exact alikePure _

theorem alikeQuote : Alike State.face feedQuote feedQuote := by
  refine alikeGet fun s s' same => ?_
  rw [facePending same]
  cases s'.pending with
  | string lead body => exact (alikePush _).bind fun _ => alikeSetPending _
  | _ => exact alikeSetPending _

theorem alikeDigit (c : Char) : Alike State.face (feedDigit c) (feedDigit c) := by
  refine alikeFlush.bind fun _ => alikeGet fun s s' same => ?_
  rw [facePending same]
  cases s'.pending <;> exact alikeSetPending _

theorem alikeSign (t : Sign) : Alike State.face (feedSign t) (feedSign t) := by
  refine alikeGet fun s s' same => ?_
  rw [facePending same]
  cases s'.pending with
  | sign u =>
    dsimp only
    split
    · exact alikeSetPending _
    · exact (alikePush _).bind fun _ => alikeSetPending _
  | _ => exact alikeSetPending _

theorem alikeOther (c : Char) : Alike State.face (feedOther c) (feedOther c) := by
  have name : Alike State.face (do flushSign; setPending (.word [c]))
      (do flushSign; setPending (.word [c])) := alikeFlush.bind fun _ => alikeSetPending _
  have stray : Alike State.face
      (do report (.unexpected (← get).line (String.singleton c)); flushSign)
      (do report (.unexpected (← get).line (String.singleton c)); flushSign) :=
    alikeGet fun s s' _ => (alikeReport _ _).bind fun _ => alikeFlush
  unfold feedOther
  split
  · exact alikeSign _
  · exact alikeFlush.bind fun _ => alikePush _
  · split <;> dsimp only <;> split
    · exact (alikeThrow _).bind fun _ => name
    · exact name
    · exact (alikeThrow _).bind fun _ => stray
    · exact stray

theorem alikeFeed (c : Char) : Alike State.face (feed c) (feed c) := by
  have go : ∀ {x : M Unit}, Alike State.face x x →
      Alike State.face (do x; return true) (do x; return true) :=
    fun h => h.bind fun _ => alikePure _
  refine (alikeSettle c).bind fun _ => alikeGet fun s s' same => ?_
  rw [facePending same]
  unfold feedBehind
  cases s'.pending with
  | word w => exact go (alikeSetPending _)
  | number n => exact go (alikeDigit c)
  | string lead body =>
    dsimp only
    split
    · exact go alikeQuote
    · exact go (alikeSetPending _)
  | none | sign t =>
    dsimp only
    split
    · exact go alikeQuote
    · split
      · exact go (alikeDigit c)
      · split
        · exact go alikeFlush
        · split
          · exact (alikeSetPending _).bind fun _ => alikePure _
          · exact go (alikeOther c)

theorem alikeLeave : Alike State.face leave leave := by
  have close : Alike State.face (setPending .none) (setPending .none) := alikeSetPending _
  refine alikeGet fun s s' same => ?_
  rw [facePending same]
  cases s'.pending with
  | none => exact close
  | word w => exact (alikePush _).bind fun _ => close
  | number n => exact (alikePushNumber _ _).bind fun _ => close
  | string lead body => exact (alikeReport _ _).bind fun _ => close
  | sign t => exact (alikePush _).bind fun _ => close

theorem alikeFinish : Alike State.face finish finish :=
  alikeLeave.bind fun _ => alikePush _

theorem alikeToEnd (cs : List Char) : Alike State.face (toEnd cs) (toEnd cs) := by
  have all : Alike State.face (feedAll cs) (feedAll cs) := by
    induction cs with
    | nil => exact alikePure _
    | cons c cs ih =>
      refine (alikeFeed c).bind fun more => ?_
      split
      · exact ih
      · exact alikePure _
  exact all.bind fun _ => alikeFinish

end

theorem silentLine {cs : List Char} {i : Int} {s : State} {new : List Token}
    (h : line cs ⟨i, #[], [], .none⟩ = .ok () s) (silent : s.log = [])
    (closed : s.tokens.toList = new ++ [.eof]) (j : Int) (tokens : Array Token) (log : Log) :
    ∃ k p,
      line cs ⟨j, tokens, log, .none⟩ =
        .ok () ⟨k, dropEnd tokens ++ (new ++ [Token.eof]).toArray, log, p⟩ ∧
      line (cs ++ ['\n']) ⟨j, tokens, log, .none⟩ =
        .ok () ⟨k, dropEnd tokens ++ (new ++ [Token.eof]).toArray, log, p⟩ := by
  have start : toEnd cs ⟨i, #[], [], .none⟩ = .ok () s := h
  have same := alikeToEnd cs ⟨i, #[], [], .none⟩ ⟨j, #[], [], .none⟩ rfl
  rw [start] at same
  cases run : toEnd cs ⟨j, #[], [], .none⟩ with
  | error e t =>
    rw [run] at same
    cases same
  | ok _ t =>
    rw [run] at same
    obtain ⟨-, face⟩ := EStateM.Result.ok.inj same
    simp only [State.face, Prod.mk.injEq, silent, List.length_nil] at face
    have quiet : t.log = [] := List.length_eq_zero_iff.mp face.2.2.symm
    have added : t.tokens = (new ++ [Token.eof]).toArray := by
      rw [← face.1, ← closed]
    have ended : onState (State.after (dropEnd tokens) log) (.ok () t) =
        (.ok () ⟨t.line, dropEnd tokens ++ (new ++ [Token.eof]).toArray, log, t.pending⟩ :
          EStateM.Result Fault State Unit) := by
      simp [onState, State.after, added, quiet]
    refine ⟨t.line, t.pending, ?_, ?_⟩
    · rw [lineRun, run, ended]
    · rw [lineRun, toEndBreak, run, ended]

end Scan

namespace Text

def ofLines (ls : List (List Char)) : List Char :=
  (ls.map (· ++ ['\n'])).flatten

theorem unifyNone {cs : List Char} (plain : '\r' ∉ cs) : unifyBreaks cs = cs := by
  fun_induction unifyBreaks cs with
  | case1 => rfl
  | case2 cs ih => simp at plain
  | case3 cs _ ih => simp at plain
  | case4 c cs _ _ ih =>
    rw [ih fun mem => plain (List.mem_cons_of_mem c mem)]

theorem cutLine {l : List Char} (whole : '\n' ∉ l) (rest : List Char) :
    cutLines (l ++ '\n' :: rest) = (l ++ ['\n']) :: cutLines rest := by
  induction l with
  | nil =>
    show addFront '\n' (cutLines rest) = _
    cases cutLines rest <;> rfl
  | cons c l ih =>
    have other : c ≠ '\n' := fun same => whole (by simp [same])
    rw [List.cons_append, cutLines_cons, ih fun mem => whole (List.mem_cons_of_mem c mem), addFront,
      if_neg other]
    rfl

theorem linesOfLines {ls : List (List Char)} (plain : ∀ l ∈ ls, '\n' ∉ l ∧ '\r' ∉ l) :
    lines (ofLines ls) = ls.map (· ++ ['\n']) := by
  have unified : unifyBreaks (ofLines ls) = ofLines ls := by
    refine unifyNone fun mem => ?_
    obtain ⟨l', mem', inside⟩ := List.mem_flatten.mp mem
    obtain ⟨l, old, rfl⟩ := List.mem_map.mp mem'
    rcases List.mem_append.mp inside with early | late
    · exact (plain l old).2 early
    · simp at late
  unfold lines
  rw [unified]
  clear unified
  induction ls with
  | nil => rfl
  | cons l ls ih =>
    have rest := ih fun k mem => plain k (List.mem_cons_of_mem l mem)
    show cutLines ((l ++ ['\n']) ++ ofLines ls) = _
    rw [List.append_assoc, List.singleton_append, cutLine (plain l (by simp)).1, rest]
    rfl

def unbroken (l : List Char) : List Char :=
  if l.getLast? = some '\n' then l.dropLast else l

end Text

theorem Scan.lineUnbroken (l : List Char) : line (Text.unbroken l) = line l := by
  funext s
  show toEnd _ _ = toEnd _ _
  unfold Text.unbroken
  split
  · next last =>
    obtain ⟨front, rfl⟩ := List.getLast?_eq_some_iff.mp last
    rw [List.dropLast_concat, toEndBreak]
  · rfl

theorem Session.scanLinesUnbroken (ls : List (List Char)) (first : Int) :
    scanLines first (ls.map Text.unbroken) = scanLines first ls := by
  induction ls generalizing first with
  | nil => rfl
  | cons l ls ih =>
    have one : scanLine first (Text.unbroken l) = scanLine first l := by
      unfold scanLine
      rw [Scan.lineUnbroken]
    rw [List.map_cons, scanLines, one, ih, scanLines]

/-- Scanning a line with its break and without it is the same step of the scanner, also where it
reports or fails; so a file is scanned as its lines are when they are typed. -/
theorem Scan.breaksMakeNoDifference :
    (∀ (text : List Char) (s : State), line (text ++ ['\n']) s = line text s) ∧
      ∀ (file : List Char) (first : Int) (s : Session),
        Session.scanLines first (Text.lines file) s =
          Session.scanLines first ((Text.lines file).map Text.unbroken) s := by
  refine ⟨fun text s => ?_, fun file first s => ?_⟩
  · show toEnd (text ++ ['\n']) _ = toEnd text _
    rw [toEndBreak]
  · rw [Session.scanLinesUnbroken]

end Lox
