import Lox.Proofs.Lexing.Sources

/-!
The line that a report names. A report shows the number of its line, unless a number with a fraction
has been read before it on the line: from then on the length of that number's text is shown, without
the zeros at its end.
-/

namespace Lox

def Token.renumbers? (t : Token) : Option Nat :=
  match t.literal with
  | .float .. =>
    let text := t.lexeme.toList
    if text.contains '.' then some (text.length - Scan.trailingZeros text) else none
  | _ => none

def LexicalError.Shows (e : LexicalError) (n : Int) : Prop :=
  ("[line " ++ toString n ++ "]").toList <+: e.message.toList

namespace Scan

def shownNumber (i : Int) (ts : List Token) : Int :=
  match (ts.filterMap Token.renumbers?).getLast? with
  | some n => n
  | none => i + 1

def tokensOf (text : List Char) : List Token :=
  (final (line text ⟨0, #[], [], .none⟩)).tokens.toList

def MadeBehind (text front : List Char) : LexicalError → Prop
  | .unexpected _ shown => ∃ c rest, text = front ++ c :: rest ∧ shown = String.singleton c
  | .unterminated _ => front = text

theorem digitsInjective {m n : Nat} (h : Nat.toDigits 10 m = Nat.toDigits 10 n) : m = n := by
  rw [← Nat.ofDigitChars_ten_toDigits (n := m), h, Nat.ofDigitChars_ten_toDigits]

theorem digitsPlain {n : Nat} {c : Char} (h : c ∈ Nat.toDigits 10 n) : c.isDigit = true :=
  Nat.isDigit_of_mem_toDigits (by decide) (by decide) h

def digitsOf : Int → List Char
  | .ofNat n => Nat.toDigits 10 n
  | .negSucc n => '-' :: Nat.toDigits 10 (n + 1)

theorem reprDigits (i : Int) : i.repr.toList = digitsOf i := by
  cases i with
  | ofNat n => exact Nat.toList_repr
  | negSucc n =>
    show ("-" ++ Nat.repr (n + 1)).toList = _
    rw [String.toList_append, Nat.toList_repr]
    rfl

theorem digitsOfInjective {i j : Int} (h : digitsOf i = digitsOf j) : i = j := by
  have signed : ∀ m n : Nat, Nat.toDigits 10 m ≠ '-' :: Nat.toDigits 10 n := by
    intro m n same
    have digit : '-'.isDigit = true := digitsPlain (n := m) (by rw [same]; exact List.mem_cons_self)
    cases digit
  cases i with
  | ofNat m =>
    cases j with
    | ofNat n => rw [digitsInjective h]
    | negSucc n => exact absurd h (signed m (n + 1))
  | negSucc m =>
    cases j with
    | ofNat n => exact absurd h.symm (signed n (m + 1))
    | negSucc n =>
      have same := digitsInjective (List.cons.inj h).2
      rw [show m = n by omega]

theorem bracketFree (i : Int) : ']' ∉ digitsOf i := by
  intro mem
  cases i with
  | ofNat n => cases digitsPlain mem
  | negSucc n =>
    rcases List.mem_cons.mp mem with same | digit
    · cases same
    · cases digitsPlain digit

theorem prefixClosed {c : Char} : ∀ {a b more : List Char}, c ∉ a → c ∉ b →
    a ++ [c] <+: b ++ c :: more → a = b
  | [], [], _, _, _, _ => rfl
  | [], y :: ys, _, _, out, h => by
    obtain ⟨same, -⟩ := List.cons_prefix_cons.mp h
    exact absurd (same ▸ List.mem_cons_self) out
  | x :: xs, [], _, out, _, h => by
    obtain ⟨same, -⟩ := List.cons_prefix_cons.mp h
    exact absurd (same ▸ List.mem_cons_self) out
  | x :: xs, y :: ys, _, out, out', h => by
    obtain ⟨rfl, rest⟩ := List.cons_prefix_cons.mp h
    rw [prefixClosed (fun mem => out (List.mem_cons_of_mem _ mem))
      (fun mem => out' (List.mem_cons_of_mem _ mem)) rest]

theorem messageText (e : LexicalError) :
    ∃ more, e.message.toList = "[line ".toList ++ (digitsOf (e.line + 1) ++ ']' :: more) := by
  cases e with
  | unterminated i =>
    refine ⟨" Error: Unterminated string.".toList, ?_⟩
    simp [LexicalError.message, LexicalError.line, String.toList_append, reprDigits]
  | unexpected i c =>
    refine ⟨" Error: Unexpected character: ".toList ++ c.toList, ?_⟩
    simp [LexicalError.message, LexicalError.line, String.toList_append, reprDigits]

theorem showsIff (e : LexicalError) (n : Int) : e.Shows n ↔ n = e.line + 1 := by
  obtain ⟨more, text⟩ := messageText e
  unfold LexicalError.Shows
  rw [text, String.toList_append, String.toList_append, show toString n = n.repr from rfl,
    reprDigits, List.append_assoc, List.prefix_append_right_inj]
  constructor
  · intro h
    exact digitsOfInjective (prefixClosed (bracketFree _) (bracketFree _) h)
  · rintro rfl
    exact (List.prefix_append_right_inj _).mpr (List.prefix_append _ more)

theorem shownSnoc (i : Int) (ts : List Token) (t : Token) :
    shownNumber i (ts ++ [t]) = match t.renumbers? with
      | some n => (n : Int)
      | none => shownNumber i ts := by
  unfold shownNumber
  cases left : t.renumbers? with
  | none => simp [List.filterMap_append, left]
  | some n => simp [List.filterMap_append, left]

def Counted (i : Int) (s : State) : Prop :=
  s.line + 1 = shownNumber i s.tokens.toList

/- What the scanner is made of; only a loud part of it reports. -/
inductive Made : (loud : Bool) → {α : Type} → M α → Prop where
  | pure {loud : Bool} {α : Type} (a : α) : Made loud (pure a)
  | throw {loud : Bool} {α : Type} (f : Fault) : Made loud (throw f : M α)
  | push {loud : Bool} {t : Token} (plain : t.renumbers? = none) : Made loud (push t)
  | pending {loud : Bool} (p : Pending) : Made loud (setPending p)
  | number {loud : Bool} (kind : Kind) (text : List Char) : Made loud (pushNumber kind text)
  | report (e : LexicalError) : Made true (report e)
  | look {loud : Bool} {α : Type} {f : State → M α} (rest : ∀ s, Made loud (f s)) :
      Made loud (get >>= f)
  | bind {loud : Bool} {α β : Type} {x : M α} {f : α → M β} (first : Made loud x)
      (rest : ∀ a, Made loud (f a)) : Made loud (x >>= f)

variable {loud : Bool} {α : Type} {x : M α}

theorem renumbersGiven (n : Numeric) (kind : Kind) (y : Float) :
    Token.renumbers? ⟨kind, String.ofList n.lexeme, .double y, .text ""⟩ =
      if n.lexeme.contains '.' then some (n.lexeme.length - trailingZeros n.lexeme) else none := by
  simp [Token.renumbers?, Datum.double]

theorem countedNumber (i : Int) (kind : Kind) (text : List Char) :
    Keeps (Counted i) (pushNumber kind text) := by
  intro s counted
  cases value : Number.readDouble? (numeral (Numeric.of text).lexeme) with
  | none =>
    rw [pushNumberFails value]
    exact counted
  | some y =>
    have counted : s.line + 1 = shownNumber i s.tokens.toList := counted
    have dot : (Token.mark .dot).renumbers? = none := rfl
    have shown : shownNumber i (s.tokens.toList ++ (Numeric.of text).given kind y) =
        (Numeric.of text).line s.line + 1 := by
      have behind : shownNumber i (s.tokens.toList ++ (Numeric.of text).given kind y) =
          shownNumber i (s.tokens.toList ++
            [⟨kind, String.ofList (Numeric.of text).lexeme, .double y, .text ""⟩]) := by
        unfold Numeric.given
        split
        · rw [← List.singleton_append, ← List.append_assoc, shownSnoc, dot]
        · rfl
      rw [behind, shownSnoc, renumbersGiven, Numeric.line]
      split <;> simp_all
    rw [pushNumberOk value]
    show (Numeric.of text).line s.line + 1 = shownNumber i (s.tokens ++ _).toList
    rw [← shown]
    simp

theorem Made.counted (h : Made loud x) (i : Int) : Keeps (Counted i) x := by
  induction h with
  | pure a => exact keepsPure a
  | throw f => exact keepsThrow f
  | push plain =>
    intro s counted
    show s.line + 1 = shownNumber i (s.tokens.push _).toList
    rw [Array.toList_push, shownSnoc, plain]
    exact counted
  | pending p => exact fun _ counted => counted
  | number kind text => exact countedNumber i kind text
  | report e => exact fun _ counted => counted
  | look _ ih => exact keepsGet.bind ih
  | bind _ _ first rest => exact first.bind rest

theorem Made.silent (h : Made loud x) (quiet : loud = false) (log : Log) :
    Keeps (fun s => s.log = log) x := by
  induction h with
  | pure a => exact keepsPure a
  | throw f => exact keepsThrow f
  | push _ => exact fun _ same => same
  | pending p => exact fun _ same => same
  | number kind text =>
    intro s same
    cases value : Number.readDouble? (numeral (Numeric.of text).lexeme) with
    | none =>
      rw [pushNumberFails value]
      exact same
    | some y =>
      rw [pushNumberOk value]
      exact same
  | report e => cases quiet
  | look _ ih => exact keepsGet.bind fun s => ih s quiet
  | bind _ _ first rest => exact (first quiet).bind fun a => rest a quiet

theorem renumbersWord (w : List Char) : (Token.word w).renumbers? = none := by
  unfold Token.word
  dsimp only
  split <;> rfl

theorem madeSettle (c : Char) : Made loud (settle c) := by
  refine .look fun s => ?_
  cases s.pending with
  | none => exact .pure _
  | sign t => exact .pure _
  | word w =>
    have rest : Made loud (if (!isNameChar c) = true then do
        push (Token.word w.reverse); setPending .none else pure ()) := by
      split
      · exact .bind (.push (renumbersWord _)) fun _ => .pending _
      · exact .pure _
    dsimp only
    split
    · exact .bind (.throw _) fun _ => rest
    · exact rest
  | number n =>
    dsimp only
    split
    · exact .number _ _
    · exact .pure _
  | string lead body =>
    dsimp only
    split
    · exact .number _ _
    · exact .pure _

theorem madeFlush : Made loud flushSign := by
  refine .look fun s => ?_
  cases s.pending with
  | sign t => exact .bind (.push rfl) fun _ => .pending _
  | _ => exact .pure _

theorem madeQuote : Made loud feedQuote := by
  refine .look fun s => ?_
  cases s.pending with
  | string lead body => exact .bind (.push rfl) fun _ => .pending _
  | _ => exact .pending _

theorem madeDigit (c : Char) : Made loud (feedDigit c) := by
  refine .bind madeFlush fun _ => .look fun s => ?_
  cases s.pending with
  | _ => exact .pending _

theorem madeSign (t : Sign) : Made loud (feedSign t) := by
  refine .look fun s => ?_
  cases s.pending with
  | sign u =>
    dsimp only
    split
    · exact .pending _
    · exact .bind (.push rfl) fun _ => .pending _
  | _ => exact .pending _

def isStray (c : Char) : Bool :=
  !(c == '"' || isBlank c || isNameChar c || Text.isSplitCapital c) &&
    (Sign.ofChar? c).isNone && (Mark.ofChar? c).isNone

theorem otherStray {c : Char} (stray : isStray c = true) :
    feedOther c = (do report (.unexpected (← get).line (String.singleton c)); flushSign) := by
  simp only [isStray, isNameChar, Bool.and_eq_true, Bool.not_eq_true', Bool.or_eq_false_iff,
    Option.isNone_iff_eq_none] at stray
  obtain ⟨⟨⟨⟨-, ⟨letter, -⟩, line⟩, whole⟩, sign⟩, mark⟩ := stray
  unfold feedOther
  rw [sign, mark]
  simp [whole, letter, line]

theorem madeOther {c : Char} (quote : (c == '"') = false) (blank : isBlank c = false)
    (digit : Text.isDigit c = false) (plain : isStray c = false) : Made loud (feedOther c) := by
  unfold feedOther
  split
  · exact madeSign _
  · exact .bind madeFlush fun _ => .push rfl
  · next sign mark =>
    by_cases split : Text.isSplitCapital c = true
    · rw [if_pos split]
      exact (.throw .splitCapital : Made loud (throw .splitCapital : M Unit))
    · have letter : (Text.isLetter c || c == '_') = true := by
        simp [isStray, isNameChar, quote, blank, digit, sign, mark, split] at plain
        cases known : Text.isLetter c with
        | false => simp [plain known]
        | true => rfl
      rw [if_neg split]
      dsimp only
      rw [if_pos letter]
      exact .bind madeFlush fun _ => .pending _

theorem feedParts (c : Char) : feed c = (do settle c; feedBehind c (← get).pending) := rfl

theorem madeBehind {c : Char} {p : Pending} (plain : p.isFree = true → isStray c = false) :
    Made loud (feedBehind c p) := by
  cases p with
  | word w => exact .bind (.pending _) fun _ => .pure _
  | number n => exact .bind (madeDigit c) fun _ => .pure _
  | string lead body =>
    unfold feedBehind
    dsimp only
    split
    · exact .bind madeQuote fun _ => .pure _
    · exact .bind (.pending _) fun _ => .pure _
  | none | sign t =>
    unfold feedBehind
    dsimp only
    split
    · exact .bind madeQuote fun _ => .pure _
    · next quote =>
      split
      · exact .bind (madeDigit c) fun _ => .pure _
      · next digit =>
        split
        · exact .bind madeFlush fun _ => .pure _
        · next blank =>
          split
          · exact .bind (.pending _) fun _ => .pure _
          · refine .bind (madeOther ?_ ?_ ?_ (plain rfl)) fun _ => .pure _
            · exact Bool.of_not_eq_true quote
            · exact Bool.of_not_eq_true blank
            · exact Bool.of_not_eq_true digit

theorem behindStray {c : Char} {p : Pending} (stray : isStray c = true) (free : p.isFree = true) :
    feedBehind c p = (do
      report (.unexpected (← get).line (String.singleton c))
      flushSign
      return true) := by
  have other := otherStray stray
  have slash : (c == '/') = false := by
    refine Bool.of_not_eq_true fun same => ?_
    rw [beq_iff_eq.mp same] at stray
    cases stray
  simp only [isStray, isNameChar, Bool.and_eq_true, Bool.not_eq_true', Bool.or_eq_false_iff] at stray
  obtain ⟨⟨⟨⟨⟨quote, blank⟩, ⟨-, digit⟩, -⟩, -⟩, -⟩, -⟩ := stray
  cases p with
  | none => simp [feedBehind, quote, blank, digit, slash, other]
  | sign t => simp [feedBehind, quote, blank, digit, slash, other]
  | _ => cases free

theorem madeFeed (c : Char) : Made true (feed c) := by
  rw [feedParts]
  refine .bind (madeSettle c) fun _ => .look fun s => ?_
  by_cases told : s.pending.isFree = true ∧ isStray c = true
  · rw [behindStray told.2 told.1]
    exact .look fun _ => .bind (.report _) fun _ => .bind madeFlush fun _ => .pure _
  · exact madeBehind fun free => Bool.of_not_eq_true fun stray => told ⟨free, stray⟩

theorem madeFeedAll (cs : List Char) : Made true (feedAll cs) := by
  induction cs with
  | nil => exact .pure _
  | cons c cs ih =>
    refine .bind (madeFeed c) fun more => ?_
    split
    · exact ih
    · exact .pure _

theorem madeFinish : Made true finish := by
  have close : Made true (setPending .none) := .pending _
  refine .bind (.look fun s => ?_) fun _ => .push rfl
  cases s.pending with
  | none => exact close
  | word w => exact .bind (.push (renumbersWord _)) fun _ => close
  | number n => exact .bind (.number _ _) fun _ => close
  | string lead body => exact .bind (.report _) fun _ => close
  | sign t => exact .bind (.push rfl) fun _ => close

theorem finishNumber (n : List Char) (i : Int) (tokens : Array Token) (log : Log) :
    finish ⟨i, tokens, log, .number n⟩ = (do
      pushNumber .number n.reverse
      setPending .none
      push .eof : M Unit) ⟨i, tokens, log, .number n⟩ := by
  rw [← bind_assoc]
  rfl

theorem settleStray {c : Char} (stray : isStray c = true) {s t : State}
    (run : settle c s = .ok () t) (free : t.pending.isFree = true) :
    t.line = (final (finish s)).line := by
  have point : c ≠ '.' := by
    rintro rfl
    cases stray
  obtain ⟨i, tokens, log, p⟩ := s
  cases p with
  | none =>
    cases run
    rfl
  | sign u =>
    cases run
    rfl
  | word w =>
    have still : (final (finish ⟨i, tokens, log, .word w⟩)).line = i := rfl
    rw [still]
    unfold settle at run
    rw [getBind] at run
    dsimp only at run
    split at run
    · cases run
    · split at run
      · cases run
        rfl
      · cases run
        cases free
  | number n =>
    have ends : ((!Text.isDigit c && c != '.') || (c == '.' && n.contains '.')) = true := by
      simp only [isStray, isNameChar, Bool.and_eq_true, Bool.not_eq_true', Bool.or_eq_false_iff]
        at stray
      simp [stray.1.1.1.2.1.2, point]
    have run : pushNumber .number n.reverse ⟨i, tokens, log, .number n⟩ = .ok () t := by
      unfold settle at run
      rw [getBind] at run
      dsimp only at run
      rwa [if_pos ends] at run
    rw [finishNumber, bindRun, run]
    rfl
  | string lead body =>
    have inside : ¬(c == '.' && body.contains '.') = true := by simp [point]
    unfold settle at run
    rw [getBind] at run
    dsimp only at run
    rw [if_neg inside] at run
    cases run
    cases free

theorem Made.log (h : Made false x) (s : State) : (final (x s)).log = s.log :=
  h.silent rfl s.log s rfl

theorem feedReports (c : Char) (s : State) : (final (feed c s)).log = s.log ∨
    (final (feed c s)).log =
      s.log ++ [.lexical (.unexpected (final (finish s)).line (String.singleton c))] := by
  have settled : Made false (settle c) := madeSettle c
  have flushed : Made false flushSign := madeFlush
  have kept := settled.log s
  rw [feedParts, bindRun]
  cases run : settle c s with
  | error e t =>
    rw [run] at kept
    exact .inl kept
  | ok _ t =>
    rw [run] at kept
    have kept : t.log = s.log := kept
    show (final (feedBehind c t.pending t)).log = s.log ∨ (final (feedBehind c t.pending t)).log = _
    rw [← kept]
    by_cases told : t.pending.isFree = true ∧ isStray c = true
    · obtain ⟨free, stray⟩ := told
      rw [← settleStray stray run free, behindStray stray free]
      exact .inr ((flushed.bind fun _ => .pure true).log
        { t with log := t.log ++ [.lexical (.unexpected t.line (String.singleton c))] })
    · refine .inl ((madeBehind fun free => ?_).log t)
      exact Bool.of_not_eq_true fun stray => told ⟨free, stray⟩

theorem feedComment {c : Char} {s t : State} (run : feed c s = .ok false t) : t.pending = .none := by
  have goes : ∀ {x : M Unit} {u : State}, (do x; return true) u ≠ .ok false t := by
    intro x u run
    obtain ⟨_, _, _, last⟩ := bindOk.mp run
    cases last
  rw [feedParts] at run
  obtain ⟨_, u, _, run⟩ := bindOk.mp run
  rw [getBind] at run
  cases p : u.pending with
  | word w =>
    rw [p] at run
    exact absurd run goes
  | number n =>
    rw [p] at run
    exact absurd run goes
  | string lead body =>
    rw [p] at run
    unfold feedBehind at run
    dsimp only at run
    split at run
    · exact absurd run goes
    · exact absurd run goes
  | none | sign _ =>
    rw [p] at run
    unfold feedBehind at run
    dsimp only at run
    split at run
    · exact absurd run goes
    · split at run
      · exact absurd run goes
      · split at run
        · exact absurd run goes
        · split at run
          · cases run
            rfl
          · exact absurd run goes

theorem finishReports (s : State) : (final (finish s)).log = s.log ∨
    s.pending ≠ .none ∧ (final (finish s)).line = s.line ∧
      (final (finish s)).log = s.log ++ [.lexical (.unterminated s.line)] := by
  have close : Made false (do setPending .none; push .eof) := .bind (.pending _) fun _ => .push rfl
  obtain ⟨i, tokens, log, p⟩ := s
  cases p with
  | string lead body => exact .inr ⟨by simp, rfl, rfl⟩
  | none => exact .inl rfl
  | word w => exact .inl rfl
  | sign t => exact .inl rfl
  | number n =>
    rw [finishNumber]
    exact .inl ((Made.bind (.number .number n.reverse) fun _ => close).log _)

structure Told (i : Int) (front cs : List Char) (told : List (List Char × LexicalError)) : Prop where
  ordered : told.Pairwise fun r r' => r.1.length < r'.1.length
  later : ∀ r ∈ told, front.length ≤ r.1.length
  made : ∀ r ∈ told, MadeBehind (front ++ cs) r.1 r.2
  line : ∀ r ∈ told, r.2.line = (final (toEnd r.1 ⟨i, #[], [], .none⟩)).line

variable {i : Int} {front cs : List Char}

theorem toldNone : Told i front cs [] := by
  refine ⟨.nil, ?_, ?_, ?_⟩ <;> simp

theorem toldOne {e : LexicalError} (made : MadeBehind (front ++ cs) front e)
    (line : e.line = (final (toEnd front ⟨i, #[], [], .none⟩)).line) :
    Told i front cs [(front, e)] := by
  refine ⟨List.pairwise_singleton _ _, ?_, ?_, ?_⟩ <;> simp [made, line]

theorem Told.append {c : Char} {told told' : List (List Char × LexicalError)}
    (first : Told i front (c :: cs) told) (here : ∀ r ∈ told, r.1 = front)
    (rest : Told i (front ++ [c]) cs told') : Told i front (c :: cs) (told ++ told') := by
  have far : ∀ r ∈ told', front.length < r.1.length := by
    intro r mem
    have := rest.later r mem
    rw [List.length_append, List.length_singleton] at this
    omega
  refine ⟨List.pairwise_append.mpr ⟨first.ordered, rest.ordered, fun r mem r' mem' => ?_⟩, ?_, ?_, ?_⟩
  · rw [here r mem]
    exact far r' mem'
  · intro r mem
    rcases List.mem_append.mp mem with old | new
    · exact first.later r old
    · exact Nat.le_of_lt (far r new)
  · intro r mem
    rcases List.mem_append.mp mem with old | new
    · exact first.made r old
    · have made := rest.made r new
      rwa [List.append_assoc] at made
  · intro r mem
    rcases List.mem_append.mp mem with old | new
    · exact first.line r old
    · exact rest.line r new

/- By induction on the text that is left: to scan the whole line is to scan the rest of it from the
state `s`, and the text before is the front of every report to come. -/
theorem toldFrom (cs : List Char) : ∀ (front : List Char) (s : State),
    (∀ more, toEnd (front ++ more) ⟨i, #[], [], .none⟩ = toEnd more s) →
    ∃ told, (final (toEnd cs s)).log = s.log ++ told.map (fun r => .lexical r.2) ∧
      Told i front cs told := by
  induction cs with
  | nil =>
    intro front s reached
    have here : toEnd front ⟨i, #[], [], .none⟩ = finish s := by
      have := reached []
      rwa [List.append_nil] at this
    show ∃ told, (final (finish s)).log = _ ∧ _
    rcases finishReports s with quiet | ⟨-, line, report⟩
    · exact ⟨[], by simpa using quiet, toldNone⟩
    · refine ⟨[(front, .unterminated s.line)], report, toldOne ?_ ?_⟩
      · exact (List.append_nil _).symm
      · rw [here, line]
        rfl
  | cons c cs ih =>
    intro front s reached
    have here : (final (finish s)).line = (final (toEnd front ⟨i, #[], [], .none⟩)).line := by
      have := reached []
      rw [List.append_nil] at this
      rw [this]
      rfl
    -- the reports of this character
    obtain ⟨first, now, toldNow, front'⟩ : ∃ first,
        (final (feed c s)).log = s.log ++ first.map (fun r => .lexical r.2) ∧
          Told i front (c :: cs) first ∧ ∀ r ∈ first, r.1 = front := by
      rcases feedReports c s with quiet | report
      · exact ⟨[], by simpa using quiet, toldNone, by simp⟩
      · exact ⟨[(front, _)], report, toldOne ⟨c, cs, rfl, rfl⟩ here, by simp⟩
    rw [toEndCons]
    cases run : feed c s with
    | error e t =>
      rw [run] at now
      exact ⟨first, now, toldNow⟩
    | ok more t =>
      rw [run] at now
      have added : t.log = s.log ++ first.map (fun r => .lexical r.2) := now
      cases more with
      | false =>
        refine ⟨first, ?_, toldNow⟩
        rw [← added]
        rcases finishReports t with quiet | ⟨open_, -, -⟩
        · exact quiet
        · exact absurd (feedComment run) open_
      | true =>
        have next : ∀ more, toEnd ((front ++ [c]) ++ more) ⟨i, #[], [], .none⟩ = toEnd more t := by
          intro more
          rw [List.append_assoc, reached]
          show toEnd (c :: more) s = _
          rw [toEndCons, run]
        obtain ⟨rest, later, toldLater⟩ := ih (front ++ [c]) t next
        refine ⟨first ++ rest, ?_, toldNow.append front' toldLater⟩
        show (final (toEnd cs t)).log = _
        rw [later, added, List.map_append, List.append_assoc]

theorem tokensAnywhere (i : Int) (text : List Char) :
    (final (toEnd text ⟨i, #[], [], .none⟩)).tokens.toList = tokensOf text := by
  have same := alikeToEnd text ⟨i, #[], [], .none⟩ ⟨0, #[], [], .none⟩ rfl
  show _ = (final (toEnd text ⟨0, #[], [], .none⟩)).tokens.toList
  cases run : toEnd text ⟨i, #[], [], .none⟩ <;> cases run' : toEnd text ⟨0, #[], [], .none⟩ <;>
    rw [run, run'] at same
  · obtain ⟨-, face⟩ := EStateM.Result.ok.inj same
    exact congrArg (fun face => face.1.toList) face
  · cases same
  · cases same
  · obtain ⟨-, face⟩ := EStateM.Result.error.inj same
    exact congrArg (fun face => face.1.toList) face

theorem lineAfter (i : Int) (text : List Char) : (final (toEnd text ⟨i, #[], [], .none⟩)).line + 1 =
    shownNumber i (tokensOf text) := by
  have made : Made true (toEnd text) := .bind (madeFeedAll text) fun _ => madeFinish
  have counted : Counted i (final (toEnd text ⟨i, #[], [], .none⟩)) := made.counted i _ rfl
  rw [← tokensAnywhere i text]
  exact counted

/-- The reports of a line in their order, each with the text of the line before it. A report shows
the number that the tokens of that text leave, and so the number of its line exactly if they leave
that. -/
theorem reportsCountFromTheLastFraction (text : List Char) (s : State) :
    ∃ told : List (List Char × LexicalError),
      (final (line text s)).log = s.log ++ told.map (fun r => .lexical r.2) ∧
      told.Pairwise (fun r r' => r.1.length < r'.1.length) ∧
      ∀ r ∈ told, MadeBehind text r.1 r.2 ∧
        r.2.Shows (shownNumber s.line (tokensOf r.1)) ∧
        (r.2.Shows (s.line + 1) ↔ shownNumber s.line (tokensOf r.1) = s.line + 1) := by
  obtain ⟨i, tokens, log, p⟩ := s
  obtain ⟨told, reports, holds⟩ := toldFrom (i := i) text [] ⟨i, #[], [], .none⟩ fun _ => rfl
  refine ⟨told, ?_, holds.ordered, fun r mem => ?_⟩
  · rw [lineRun]
    cases run : toEnd text ⟨i, #[], [], .none⟩ <;> rw [run] at reports <;>
      exact congrArg (log ++ ·) (reports.trans (List.nil_append _))
  · have shown := lineAfter i r.1
    rw [← holds.line r mem] at shown
    refine ⟨holds.made r mem, (showsIff _ _).mpr shown.symm, ?_⟩
    rw [showsIff, shown]
    exact eq_comm

theorem reportsMissTheirLine :
    let s : State := ⟨0, #[], [], .none⟩
    (final (line "1.5$".toList s)).log = [.lexical (.unexpected 2 "$")] ∧
      ¬(LexicalError.unexpected 2 "$").Shows (s.line + 1) := by
  refine ⟨by decide +kernel, ?_⟩
  rw [showsIff]
  decide

end Scan
end Lox
