import Lox.Proofs.Lexing.Breaks
import Lox.Proofs.Lexing.Munch

/-!
Text between quotes. A literal is kept as it stands up to its second point; there the scanner takes
what it has for a number.
-/

namespace Lox.Scan

open Number

variable {c : Char} {i : Int} {tokens : Array Token} {log : Log} {lead body text : List Char}

def Numeric.given (n : Numeric) (kind : Kind) (x : Float) : List Token :=
  ⟨kind, String.ofList n.lexeme, .double x, .text ""⟩ ::
    if n.endPoint then [Token.mark .dot] else []

theorem pushNumberFails {kind : Kind} (value : readDouble? (numeral (Numeric.of text).lexeme) = none)
    (s : State) : pushNumber kind text s =
      .error (.doubleText (String.ofList (numeral (Numeric.of text).lexeme))) s := by
  unfold pushNumber
  dsimp only
  rw [value]
  rfl

theorem pushNumberOk {kind : Kind} {x : Float}
    (value : readDouble? (numeral (Numeric.of text).lexeme) = some x) (s : State) :
    pushNumber kind text s = .ok () { s with
      line := (Numeric.of text).line s.line
      tokens := s.tokens ++ ((Numeric.of text).given kind x).toArray, pending := .none } := by
  unfold pushNumber Numeric.given
  dsimp only
  rw [value]
  cases (Numeric.of text).endPoint <;>
    simp [bindRun, push, Array.push_eq_append, -Array.append_singleton]

theorem feedInside (inside : c ≠ '"') (first : c = '.' → '.' ∉ body) :
    feed c ⟨i, tokens, log, .string lead body⟩ =
      .ok true ⟨i, tokens, log, .string lead (c :: body)⟩ := by
  have settled : settle c ⟨i, tokens, log, .string lead body⟩ =
      .ok () ⟨i, tokens, log, .string lead body⟩ := by
    have goes : ¬(c == '.' && body.contains '.') = true := by simpa using first
    unfold settle
    rw [getBind]
    dsimp only
    rw [if_neg goes]
    rfl
  unfold feed feedBehind
  rw [bindRun, settled]
  simp [bindRun, setPending, inside, -bind_pure_comp]

theorem feedClosing : feed '"' ⟨i, tokens, log, .string lead body⟩ =
    .ok true ⟨i, tokens.push ⟨.string, String.ofList (lead ++ body.reverse),
      .text (String.ofList body.reverse), .text ""⟩, log, .none⟩ := rfl

theorem feedPoint (second : '.' ∈ body) :
    feed '.' ⟨i, tokens, log, .string lead body⟩ =
      match pushNumber .string (lead ++ body.reverse) ⟨i, tokens, log, .string lead body⟩ with
      | .ok _ s => .ok true { s with tokens := s.tokens.push (.mark .dot) }
      | .error e s => .error e s := by
  have settled : settle '.' ⟨i, tokens, log, .string lead body⟩ =
      pushNumber .string (lead ++ body.reverse) ⟨i, tokens, log, .string lead body⟩ := by
    unfold settle
    rw [getBind]
    dsimp only
    rw [if_pos (by simpa using second)]
  unfold feed
  rw [bindRun, settled]
  cases run : pushNumber .string (lead ++ body.reverse) ⟨i, tokens, log, .string lead body⟩ with
  | error e s => rfl
  | ok _ s =>
    have none := pushNumberPending run
    obtain ⟨j, tokens', log', p⟩ := s
    cases none
    rfl

theorem toEndInside (inside : '"' ∉ text) (few : text.count '.' + body.count '.' ≤ 1)
    (rest : List Char) : toEnd (text ++ rest) ⟨i, tokens, log, .string lead body⟩ =
      toEnd rest ⟨i, tokens, log, .string lead (text.reverse ++ body)⟩ := by
  induction text generalizing body with
  | nil => rfl
  | cons c text ih =>
    have plain : c ≠ '"' := fun same => inside (by simp [same])
    have first : c = '.' → '.' ∉ body := by
      intro same mem
      have some := List.count_pos_iff.mpr mem
      rw [same, List.count_cons_self] at few
      omega
    rw [List.cons_append, toEndCons, feedInside plain first]
    dsimp only
    rw [ih (fun mem => inside (List.mem_cons_of_mem c mem)), List.reverse_cons, List.append_assoc]
    · rfl
    · rw [List.count_cons] at few ⊢
      omega

def quoted (text : List Char) : List Char := '"' :: (text ++ ['"'])

def literal (text : List Char) : Token :=
  ⟨.string, String.ofList text, .text (String.ofList text), .text ""⟩

theorem lineQuoted {front rest : List Char} (inside : '"' ∉ front) (few : front.count '.' ≤ 1)
    (s : State) : line ('"' :: (front ++ rest)) s =
      toEnd rest ⟨s.line, dropEnd s.tokens, s.log, .string [] front.reverse⟩ := by
  show toEnd ('"' :: (front ++ rest)) ⟨s.line, dropEnd s.tokens, s.log, .none⟩ = _
  have opening : feed '"' ⟨s.line, dropEnd s.tokens, s.log, .none⟩ =
      .ok true ⟨s.line, dropEnd s.tokens, s.log, .string [] []⟩ := rfl
  rw [toEndCons, opening]
  dsimp only
  rw [toEndInside inside (by simpa using few), List.append_nil]

theorem lineLiteral (inside : '"' ∉ text) (few : text.count '.' ≤ 1) (s : State) :
    line (quoted text) s = .ok () { s with
      tokens := dropEnd s.tokens ++ #[literal text, .eof], pending := .none } := by
  rw [quoted, lineQuoted inside few, toEndCons, feedClosing]
  simp [toEnd, feedAll, finish, leave, bindRun, push, setPending, literal, Array.push_eq_append,
    -Array.append_singleton]

theorem secondPoint (many : 2 ≤ text.count '.') :
    ∃ front rest, text = front ++ '.' :: rest ∧ front.count '.' = 1 := by
  obtain ⟨before, after, rfl, none⟩ := List.eq_append_cons_of_mem
    (List.count_pos_iff.mp (Nat.lt_of_lt_of_le Nat.zero_lt_two many))
  rw [List.count_append, List.count_cons_self, List.count_eq_zero.mpr none] at many
  obtain ⟨between, rest, rfl, none'⟩ := List.eq_append_cons_of_mem
    (List.count_pos_iff.mp (show 0 < after.count '.' by omega))
  refine ⟨before ++ '.' :: between, rest, by simp, ?_⟩
  rw [List.count_append, List.count_cons_self, List.count_eq_zero.mpr none,
    List.count_eq_zero.mpr none']

/- What becomes of a literal whose text up to the second point is `front`: that text is read as a
number, which either fails or is the value of the token. -/
def GivenUp (front : List Char) (s : State) (result : EStateM.Result Fault State Unit) : Prop :=
  let n := Numeric.of front
  (readDouble? (numeral n.lexeme) = none ∧
    result = .error (.doubleText (String.ofList (numeral n.lexeme)))
      { s with tokens := dropEnd s.tokens, pending := .string [] front.reverse }) ∨
  ∃ x more, readDouble? (numeral n.lexeme) = some x ∧
    (final result).tokens.toList = (dropEnd s.tokens).toList ++
      ⟨.string, String.ofList n.lexeme, .double x, .text ""⟩ :: more

theorem tokensGrow (cs : List Char) (s : State) :
    s.tokens.toList <+: (final (toEnd cs s)).tokens.toList := by
  have same := (plainToEnd cs).commutes s.tokens s.log ⟨s.line, #[], [], s.pending⟩
  have start : State.after s.tokens s.log ⟨s.line, #[], [], s.pending⟩ = s := by simp [State.after]
  rw [start] at same
  rw [same]
  cases toEnd cs ⟨s.line, #[], [], s.pending⟩ <;> simp [onState, final, State.after]

theorem givenUp {front rest : List Char} (inside : '"' ∉ front) (one : front.count '.' = 1)
    (s : State) : GivenUp front s (line ('"' :: (front ++ '.' :: rest)) s) := by
  have second : '.' ∈ front.reverse := by
    rw [List.mem_reverse, ← List.count_pos_iff]
    omega
  rw [lineQuoted inside (Nat.le_of_eq one), toEndCons, feedPoint second, List.nil_append,
    List.reverse_reverse]
  unfold GivenUp
  cases value : readDouble? (numeral (Numeric.of front).lexeme) with
  | none =>
    rw [pushNumberFails value]
    exact .inl ⟨value, rfl⟩
  | some x =>
    rw [pushNumberOk value]
    dsimp only
    obtain ⟨more, grown⟩ := tokensGrow rest ⟨(Numeric.of front).line s.line,
      (dropEnd s.tokens ++ ((Numeric.of front).given .string x).toArray).push (.mark .dot), s.log,
      .none⟩
    refine .inr ⟨x, (if (Numeric.of front).endPoint then [Token.mark .dot] else []) ++
      .mark .dot :: more, value, ?_⟩
    rw [← grown]
    simp [Numeric.given]

/-- The text of a token is the text between the quotes exactly if that has one point at most. -/
theorem literalsAreKeptUpToASecondPoint {text : List Char} (inside : '"' ∉ text) (s : State) :
    (line (quoted text) s = .ok () { s with
      tokens := dropEnd s.tokens ++ #[literal text, .eof], pending := .none } ↔
        text.count '.' ≤ 1) ∧
    (2 ≤ text.count '.' → ∃ front rest, text = front ++ '.' :: rest ∧ front.count '.' = 1 ∧
      GivenUp front s (line (quoted text) s)) := by
  have cut : 2 ≤ text.count '.' → ∃ front rest, text = front ++ '.' :: rest ∧
      front.count '.' = 1 ∧ GivenUp front s (line (quoted text) s) := by
    intro many
    obtain ⟨front, rest, rfl, one⟩ := secondPoint many
    have early : '"' ∉ front := fun mem => inside (List.mem_append_left _ mem)
    have whole : quoted (front ++ '.' :: rest) = '"' :: (front ++ '.' :: (rest ++ ['"'])) := by
      simp [quoted]
    refine ⟨front, rest, rfl, one, ?_⟩
    rw [whole]
    exact givenUp early one s
  refine ⟨⟨fun kept => ?_, fun few => lineLiteral inside few s⟩, cut⟩
  refine Nat.le_of_not_lt fun many => ?_
  obtain ⟨front, rest, -, -, given⟩ := cut many
  rw [kept] at given
  rcases given with ⟨-, fails⟩ | ⟨x, more, -, tokens⟩
  · cases fails
  · obtain ⟨⟨-, value⟩, -⟩ : (_ ∧ Datum.text _ = Datum.double x) ∧ _ := by
      simpa [final, literal] using tokens
    cases value

def pointedText : List Char := "// 1.5 \t= a".toList

def twicePointedText : List Char := "a.b.c".toList

theorem literalsAreKeptUpToASecondPoint_pointed :
    '"' ∉ pointedText ∧ '"' ∉ twicePointedText ∧
      line (quoted pointedText) ⟨0, #[.eof], [], .none⟩ =
        .ok () ⟨0, #[literal pointedText, .eof], [], .none⟩ ∧
      ∃ front rest, twicePointedText = front ++ '.' :: rest ∧ front.count '.' = 1 ∧
        GivenUp front ⟨0, #[.eof], [], .none⟩
          (line (quoted twicePointedText) ⟨0, #[.eof], [], .none⟩) := by
  have plain : '"' ∉ pointedText := by decide
  have plain' : '"' ∉ twicePointedText := by decide
  refine ⟨plain, plain', ?_, ?_⟩
  · exact (literalsAreKeptUpToASecondPoint plain ⟨0, #[.eof], [], .none⟩).1.mpr (by decide)
  · exact (literalsAreKeptUpToASecondPoint plain' ⟨0, #[.eof], [], .none⟩).2 (by decide)

theorem twicePointedLiteralFails :
    '"' ∉ twicePointedText ∧ '\n' ∉ twicePointedText ∧
      line (quoted twicePointedText) ⟨0, #[.eof], [], .none⟩ =
        .error (.doubleText "a.b") ⟨0, #[], [], .string [] ['b', '.', 'a']⟩ := by
  refine ⟨by decide, by decide, ?_⟩
  rfl

end Lox.Scan
