import Lox.Proofs.Lexing.Lexemes
import Lox.Proofs.Scanning

/-!
The scanner cuts a line into its longest lexemes. The pending token is a lexeme in the making: a
character either goes on with it or leaves what is settled of it behind.
-/

namespace Lox.Scan

open Number

def PlainChar (c : Char) : Prop := c.toNat < 128 ∧ c ≠ '"'

theorem asciiAll {p : Char → Bool} (h : ∀ n : Fin 128, p (Char.ofNat n) = true) {c : Char}
    (low : c.toNat < 128) : p c = true := by
  have same := h ⟨c.toNat, low⟩
  rwa [Char.ofNat_toNat] at same

theorem asciiDigit {c : Char} (h : PlainChar c) : Text.isDigit c = c.isDigit := by
  have all := asciiAll (p := fun c => Text.isDigit c == c.isDigit) (by decide +kernel) h.1
  simpa using all

theorem asciiLetter {c : Char} (h : PlainChar c) : Text.isLetter c = c.isAlpha := by
  have all := asciiAll (p := fun c => Text.isLetter c == c.isAlpha) (by decide +kernel) h.1
  simpa using all

theorem asciiCapital {c : Char} (h : PlainChar c) : Text.isSplitCapital c = false := by
  have all := asciiAll (p := fun c => !Text.isSplitCapital c) (by decide +kernel) h.1
  simpa using all

theorem asciiName {c : Char} (h : PlainChar c) : isNameChar c = inName c := by
  simp [isNameChar, inName, asciiLetter h, asciiDigit h, Char.isAlphanum]

theorem blankIff {c : Char} : isBlank c = true ↔ Blank c := by
  simp [isBlank, Blank, or_assoc]

def sorted (c : Char) : Bool :=
  match start c with
  | .name =>
    !c.isDigit && !isBlank c && c != '/' && Sign.ofChar? c == none && Mark.ofChar? c == none &&
      (c.isAlpha || c == '_')
  | .digit => c.isDigit
  | .sign s => !c.isDigit && !isBlank c && Sign.ofChar? c == some s
  | .mark m =>
    !c.isDigit && !isBlank c && c != '/' && Sign.ofChar? c == none && Mark.ofChar? c == some m
  | .other =>
    !c.isDigit && c != '/' && Sign.ofChar? c == none && Mark.ofChar? c == none &&
      !(c.isAlpha || c == '_')

theorem sortedAscii {c : Char} (h : PlainChar c) : sorted c = true :=
  asciiAll (by decide +kernel) h.1

inductive Extends : Pending → Char → Pending → Prop where
  | word {w : List Char} {c : Char} (inside : inName c = true) :
      Extends (.word w) c (.word (c :: w))
  | digit {n : List Char} {c : Char} (digit : c.isDigit = true) :
      Extends (.number n) c (.number (c :: n))
  | point {n : List Char} (first : '.' ∉ n) : Extends (.number n) '.' (.number ('.' :: n))
  | sign {s u : Sign} (joined : s.join? .equal = some u) : Extends (.sign s) '=' (.sign u)

inductive Settles : Pending → List Token → Prop where
  | none : Settles .none []
  | word {w : List Char} (name : isName w.reverse = true) : Settles (.word w) [.word w.reverse]
  | whole {n : List Char} (digits : Digits n.reverse) :
      Settles (.number n) [numberToken n.reverse ⟨digitsValue n.reverse, 0⟩]
  | point {n ds : List Char} (split : n.reverse = ds ++ ['.']) (digits : Digits ds) :
      Settles (.number n) [numberToken ds ⟨digitsValue ds, 0⟩, .mark .dot]
  | fraction {n ds fs : List Char} (split : n.reverse = ds ++ '.' :: fs) (whole : Digits ds)
      (fraction : Digits fs) :
      Settles (.number n)
        [numberToken (ds ++ '.' :: fs) ⟨digitsValue (ds ++ fs), -(fs.length : Int)⟩]
  | sign (s : Sign) : Settles (.sign s) [.sign s]

variable {p p' : Pending} {c : Char} {new : List Token}

theorem Extends.lexeme (h : Extends p c p') : p'.lexeme = p.lexeme ++ [c] := by
  cases h with
  | word _ => simp [Pending.lexeme]
  | digit _ => simp [Pending.lexeme]
  | point _ => simp [Pending.lexeme]
  | @sign s u joined => cases s <;> cases joined <;> rfl

theorem nameSnoc {w : List Char} (h : isName w = true) (inside : inName c = true) :
    isName (w ++ [c]) = true := by
  cases w with
  | nil => cases h
  | cons d w => simp_all [isName]

theorem digitsSnoc {ds : List Char} (h : Digits ds) (digit : c.isDigit = true) :
    Digits (ds ++ [c]) := by
  refine ⟨by simp, ?_⟩
  intro d mem
  cases List.mem_append.mp mem with
  | inl mem => exact h.2 d mem
  | inr mem =>
    cases List.mem_singleton.mp mem
    exact digit

theorem Settles.extend (h : Settles p new) (more : Extends p c p') : ∃ new', Settles p' new' := by
  cases more with
  | word inside =>
    cases h with
    | word name => exact ⟨_, .word (by simpa using nameSnoc name inside)⟩
  | digit digit =>
    cases h with
    | whole digits => exact ⟨_, .whole (by simpa using digitsSnoc digits digit)⟩
    | point split digits =>
      exact ⟨_, .fraction (by simp [split]) digits ⟨List.cons_ne_nil c [], by simp [digit]⟩⟩
    | fraction split whole fraction =>
      exact ⟨_, .fraction (by simp [split]) whole (digitsSnoc fraction digit)⟩
  | point first =>
    cases h with
    | whole digits => exact ⟨_, .point (by simp) digits⟩
    | point split _ => exact absurd (by simp [split]) (mt List.mem_reverse.mp first)
    | fraction split _ _ => exact absurd (by simp [split]) (mt List.mem_reverse.mp first)
  | sign _ => exact ⟨_, .sign _⟩

section
variable (plain : PlainChar c) (i : Int) (tokens : Array Token) (log : Log)
include plain

theorem feedExtend (more : Extends p c p') :
    feed c ⟨i, tokens, log, p⟩ = .ok true ⟨i, tokens, log, p'⟩ := by
  have isDigit := asciiDigit plain
  unfold feed settle feedBehind
  cases more with
  | word inside =>
    simp [bindRun, setPending, asciiCapital plain, asciiName plain, inside, -bind_pure_comp]
  | digit digit =>
    have apart : c ≠ '.' := by
      intro same
      subst same
      cases digit
    simp [bindRun, feedDigit, flushSign, setPending, isDigit, digit, apart, -bind_pure_comp]
  | point first =>
    simp [bindRun, feedDigit, flushSign, setPending, isDigit, first, -bind_pure_comp]
  | sign joined =>
    simp [bindRun, feedOther, feedSign, setPending, isDigit, Sign.ofChar?, isBlank, joined,
      -bind_pure_comp]

end

theorem pushNumberRun {cs text : List Char} {point : Bool} {d : Decimal}
    (of : Numeric.of cs = ⟨text, point⟩) (read : readDouble? (numeral text) = some (d.toDouble false))
    (i : Int) (tokens : Array Token) (log : Log) (p : Pending) :
    ∃ j, pushNumber .number cs ⟨i, tokens, log, p⟩ = .ok () ⟨j, tokens ++
      (numberToken text d :: if point then [Token.mark .dot] else []).toArray, log, .none⟩ := by
  unfold pushNumber
  rw [of]
  refine ⟨Numeric.line ⟨text, point⟩ i, ?_⟩
  cases point <;>
    simp [bindRun, read, push, numberToken, Array.push_eq_append, -Array.append_singleton]

theorem lastDigit {ds : List Char} (h : Digits ds) (before : List Char) :
    (before ++ ds).getLast? ≠ some '.' := by
  intro last
  have mem : '.' ∈ ds := by
    rw [List.getLast?_append] at last
    cases more : ds.getLast? with
    | none => exact absurd (List.getLast?_eq_none_iff.mp more) h.1
    | some d =>
      rw [more] at last
      cases last
      exact List.mem_of_getLast? more
  exact h.noPoint mem

theorem Settles.pushed {n : List Char} (h : Settles (.number n) new) (i : Int)
    (tokens : Array Token) (log : Log) (p : Pending) :
    ∃ j, pushNumber .number n.reverse ⟨i, tokens, log, p⟩ =
      .ok () ⟨j, tokens ++ new.toArray, log, .none⟩ := by
  cases h with
  | whole digits =>
    have of : Numeric.of n.reverse = ⟨n.reverse, false⟩ := if_neg (lastDigit digits [])
    exact pushNumberRun of (numeralWhole digits) i tokens log p
  | @point _ ds split digits =>
    have of : Numeric.of n.reverse = ⟨ds, true⟩ := by simp [Numeric.of, split]
    exact pushNumberRun of (numeralWhole digits) i tokens log p
  | @fraction _ ds fs split whole fraction =>
    have last : n.reverse.getLast? ≠ some '.' := by
      have after := lastDigit fraction (ds ++ ['.'])
      simpa [split] using after
    have of : Numeric.of n.reverse = ⟨ds ++ '.' :: fs, false⟩ := by
      rw [Numeric.of, if_neg last, split]
    exact pushNumberRun of (numeralFraction whole fraction) i tokens log p

inductive Waiting (c : Char) : Pending → List Token → Prop where
  | none : Waiting c .none []
  | sign {s : Sign} (stop : ∀ p, ¬Extends (.sign s) c p) (code : ¬(c = '/' ∧ s = .slash)) :
      Waiting c (.sign s) [.sign s]

theorem ofCharEqual (h : Sign.ofChar? c = some .equal) : c = '=' := by
  unfold Sign.ofChar? at h
  split at h <;> first | rfl | cases h

theorem joinNone {s u : Sign} (stop : ∀ p, ¬Extends (.sign s) c p) (h : Sign.ofChar? c = some u) :
    s.join? u = none := by
  cases u with
  | equal =>
    cases ofCharEqual h
    cases joined : s.join? .equal with
    | none => rfl
    | some u => exact absurd (.sign joined) (stop _)
  | _ => cases s <;> rfl

theorem feedWaiting (plain : PlainChar c) (h : Waiting c p new) (i : Int) (tokens : Array Token)
    (log : Log) : feed c ⟨i, tokens, log, p⟩ = match start c with
      | .name => .ok true ⟨i, tokens ++ new.toArray, log, .word [c]⟩
      | .digit => .ok true ⟨i, tokens ++ new.toArray, log, .number [c]⟩
      | .sign s => .ok true ⟨i, tokens ++ new.toArray, log, .sign s⟩
      | .mark m => .ok true ⟨i, (tokens ++ new.toArray).push (.mark m), log, .none⟩
      | .other =>
        if isBlank c then .ok true ⟨i, tokens ++ new.toArray, log, .none⟩
        else .ok true ⟨i, tokens ++ new.toArray,
          log ++ [.lexical (.unexpected i (String.singleton c))], .none⟩ := by
  have sorts := sortedAscii plain
  have digit := asciiDigit plain
  have letter := asciiLetter plain
  have capital := asciiCapital plain
  have quote := plain.2
  unfold sorted at sorts
  unfold feed settle feedBehind
  cases starts : start c with
  | name =>
    simp [starts] at sorts
    cases h <;> simp [bindRun, feedOther, flushSign, setPending, push, sorts, quote, digit, letter,
      capital, -bind_pure_comp]
  | digit =>
    simp [starts] at sorts
    cases h <;> simp [bindRun, feedDigit, flushSign, setPending, push, sorts, quote, digit,
      -bind_pure_comp]
  | sign u =>
    simp [starts] at sorts
    cases h with
    | none => simp [bindRun, feedOther, feedSign, setPending, sorts, quote, digit, -bind_pure_comp]
    | sign stop code =>
      have apart := joinNone stop sorts.2
      simp [bindRun, feedOther, feedSign, setPending, push, sorts, quote, digit, code, apart,
        -bind_pure_comp]
  | mark m =>
    simp [starts] at sorts
    cases h <;> simp [bindRun, feedOther, flushSign, setPending, push, sorts, quote, digit,
      -bind_pure_comp]
  | other =>
    simp [starts] at sorts
    cases blank : isBlank c with
    | true =>
      cases h <;> simp [bindRun, flushSign, setPending, push, sorts, quote, digit, -bind_pure_comp]
    | false =>
      cases h <;> simp [bindRun, feedOther, flushSign, setPending, push, report, sorts, quote,
        digit, letter, capital, -bind_pure_comp]

theorem feedSettled {s s' : State} (h : settle c s = .ok () s') (none : s'.pending = .none) :
    feed c s = feed c s' := by
  have still : settle c s' = .ok () s' := by
    unfold settle
    rw [getBind, none]
    rfl
  unfold feed
  rw [bindRun, bindRun, h, still]

theorem numberEnds {n : List Char} (plain : PlainChar c) (stop : ∀ p', ¬Extends (.number n) c p') :
    ((!Text.isDigit c && c != '.') || (c == '.' && n.contains '.')) = true := by
  have digit : c.isDigit = false := Bool.eq_false_iff.mpr fun digit => stop _ (.digit digit)
  by_cases point : c = '.'
  · subst point
    have second : '.' ∈ n := Decidable.byContradiction fun first => stop _ (.point first)
    simp [second]
  · simp [asciiDigit plain, digit, point]

theorem feedStop (plain : PlainChar c) (h : Settles p new) (stop : ∀ p', ¬Extends p c p')
    (code : ¬(c = '/' ∧ p = .sign .slash)) (i : Int) (tokens : Array Token) (log : Log) :
    ∃ j, feed c ⟨i, tokens, log, p⟩ = feed c ⟨j, tokens ++ new.toArray, log, .none⟩ := by
  cases p with
  | none =>
    cases h
    exact ⟨i, by simp⟩
  | word w =>
    cases h
    have outside : inName c = false := Bool.eq_false_iff.mpr fun inside => stop _ (.word inside)
    refine ⟨i, feedSettled ?_ rfl⟩
    simp [settle, bindRun, asciiCapital plain, asciiName plain, outside, push, setPending]
  | number n =>
    obtain ⟨j, run⟩ := h.pushed i tokens log (.number n)
    refine ⟨j, feedSettled ?_ rfl⟩
    unfold settle
    rw [getBind]
    simp only [numberEnds plain stop, if_true]
    exact run
  | string lead body => cases h
  | sign s =>
    cases h
    have waiting : Waiting c (.sign s) [.sign s] := .sign stop (by simpa using code)
    refine ⟨i, ?_⟩
    rw [feedWaiting plain waiting, feedWaiting plain .none]
    simp

theorem finishSettled (h : Settles p new) (i : Int) (tokens : Array Token) (log : Log) :
    ∃ j, finish ⟨i, tokens, log, p⟩ =
      .ok () ⟨j, tokens ++ (new ++ [Token.eof]).toArray, log, .none⟩ := by
  unfold finish leave
  cases p with
  | none =>
    cases h
    exact ⟨i, by simp [bindRun, setPending, push]⟩
  | word w =>
    cases h
    exact ⟨i, by simp [bindRun, setPending, push, Array.push_eq_append, -Array.append_singleton]⟩
  | number n =>
    obtain ⟨j, run⟩ := h.pushed i tokens log (.number n)
    exact ⟨j, by simp [bindRun, run, setPending, push]⟩
  | string lead body => cases h
  | sign s =>
    cases h
    exact ⟨i, by simp [bindRun, setPending, push, Array.push_eq_append, -Array.append_singleton]⟩

theorem noComment {cs : List Char} (h : start c ≠ .sign .slash) : ¬Comment (c :: cs) := by
  intro slashes
  obtain ⟨_, same⟩ := slashes.slash
  cases same
  exact h rfl

section
variable {rest : List Char} {ts : List Token} {strays : List Char}

theorem lexesWord {w : List Char} (name : isName w = true)
    (stop : ∀ c ∈ rest.head?, inName c = false) (next : Lexes rest ts strays) :
    Lexes (w ++ rest) (.word w :: ts) strays := by
  refine .token rfl (lexemeWord name) (longestName name stop) ?_ next
  cases w with
  | nil => cases name
  | cons c w =>
    have starts := startName (Bool.and_eq_true_iff.mp name).1
    exact noComment (by simp [starts])

theorem digitsNoComment {ds : List Char} (h : Digits ds) (cs : List Char) :
    ¬Comment (ds ++ cs) := by
  cases ds with
  | nil => exact absurd rfl h.1
  | cons c ds =>
    have starts := startDigit (h.2 c (List.mem_cons_self ..))
    exact noComment (by simp [starts])

theorem lexesMark (m : Mark) (next : Lexes rest ts strays) :
    Lexes (m.char :: rest) (.mark m :: ts) strays :=
  .token rfl (.mark m) (longestMark m) (noComment (by simp [startMark])) next

theorem lexesSign {s : Sign} (stop : rest.head? = some '=' → s.join? .equal = none)
    (code : ¬(rest.head? = some '/' ∧ s = .slash)) (next : Lexes rest ts strays) :
    Lexes (s.lexeme ++ rest) (.sign s :: ts) strays := by
  refine .token rfl (.sign s) (longestSign stop) ?_ next
  intro slashes
  obtain ⟨more, same⟩ := slashes
  cases s with
  | slash =>
    cases same
    exact code ⟨rfl, rfl⟩
  | _ => cases same

theorem lexesSettled (h : Settles p new) (stop : ∀ c ∈ rest.head?, ∀ p', ¬Extends p c p')
    (code : ¬(rest.head? = some '/' ∧ p = .sign .slash)) (next : Lexes rest ts strays) :
    Lexes (p.lexeme ++ rest) (new ++ ts) strays := by
  have noDigit : ∀ {n : List Char}, p = .number n → ∀ c ∈ rest.head?, c.isDigit = false := by
    intro n same c mem
    subst same
    exact Bool.eq_false_iff.mpr fun digit => stop c mem _ (.digit digit)
  cases h with
  | none => exact next
  | word name =>
    refine lexesWord name ?_ next
    intro c mem
    exact Bool.eq_false_iff.mpr fun inside => stop c mem _ (.word inside)
  | @whole n digits =>
    have longest : Longest n.reverse (n.reverse ++ rest) := by
      refine longestWhole digits (noDigit rfl) ?_
      intro c cs same
      have first : '.' ∉ n := fun mem => digits.noPoint (List.mem_reverse.mpr mem)
      exact absurd (.point first) (stop '.' (by simp [same]) _)
    exact .token rfl (.whole digits) longest (digitsNoComment digits _) next
  | @point n ds split digits =>
    have text : Pending.lexeme (.number n) ++ rest = ds ++ '.' :: rest := by
      simp [Pending.lexeme, split]
    have longest : Longest ds (ds ++ '.' :: rest) := by
      refine longestWhole digits (by simp) ?_
      intro c cs same
      exact noDigit rfl c (by simp [(List.cons.inj same).2])
    rw [text]
    exact .token rfl (.whole digits) longest (digitsNoComment digits _) (lexesMark .dot next)
  | @fraction n ds fs split whole fraction =>
    have text : Pending.lexeme (.number n) = ds ++ '.' :: fs := split
    rw [text]
    refine .token rfl (.fraction whole fraction) (longestFraction whole (noDigit rfl)) ?_ next
    rw [List.append_assoc]
    exact digitsNoComment whole _
  | sign s =>
    refine lexesSign ?_ (by simpa using code) next
    intro same
    cases joined : s.join? .equal with
    | none => rfl
    | some u => exact absurd (.sign joined) (stop '=' same _)

end

def strayReports (strays : List (Int × Char)) : Log :=
  strays.map fun (i, c) => .lexical (.unexpected i (String.singleton c))

def Cuts (text cs : List Char) (s : State) : Prop :=
  ∃ j found strays,
    toEnd cs s = .ok () ⟨j, s.tokens ++ (found ++ [Token.eof]).toArray,
      s.log ++ strayReports strays, .none⟩ ∧
    Lexes text found (strays.map Prod.snd)

variable {text rest cs : List Char} {s s' : State}

theorem Cuts.quiet (new : List Token) (step : feed c s = .ok true s')
    (tokens : s'.tokens = s.tokens ++ new.toArray) (log : s'.log = s.log)
    (lexes : ∀ {ts strays}, Lexes rest ts strays → Lexes text (new ++ ts) strays)
    (next : Cuts rest cs s') : Cuts text (c :: cs) s := by
  obtain ⟨j, found, strays, run, cut⟩ := next
  refine ⟨j, new ++ found, strays, ?_, lexes cut⟩
  rw [toEndCons, step]
  simp [run, tokens, log]

theorem Cuts.stray {i : Int} (step : feed c s = .ok true s') (tokens : s'.tokens = s.tokens)
    (log : s'.log = s.log ++ [.lexical (.unexpected i (String.singleton c))])
    (lexes : ∀ {ts strays}, Lexes rest ts strays → Lexes text ts (c :: strays))
    (next : Cuts rest cs s') : Cuts text (c :: cs) s := by
  obtain ⟨j, found, strays, run, cut⟩ := next
  refine ⟨j, found, (i, c) :: strays, ?_, lexes cut⟩
  rw [toEndCons, step]
  simp [run, tokens, log, strayReports]

theorem ofCharLexeme {s : Sign} (h : Sign.ofChar? c = some s) : s.lexeme = [c] := by
  unfold Sign.ofChar? at h
  split at h <;> cases h <;> rfl

theorem ofCharMark {m : Mark} (h : Mark.ofChar? c = some m) : m.char = c := by
  simpa using List.find?_some h

theorem cutsFresh (plain : PlainChar c) (i : Int) (tokens : Array Token) (log : Log)
    (next : ∀ {p new}, Settles p new → ∀ i tokens log,
      Cuts (p.lexeme ++ cs) cs ⟨i, tokens, log, p⟩) :
    Cuts (c :: cs) (c :: cs) ⟨i, tokens, log, .none⟩ := by
  have step := feedWaiting plain .none i tokens log
  have sorts := sortedAscii plain
  unfold sorted at sorts
  cases starts : start c with
  | name =>
    simp only [starts, Bool.and_eq_true] at step sorts
    have name : isName [c].reverse = true := by simpa [isName, opensName] using sorts.2
    exact .quiet [] step rfl rfl id (next (.word name) i _ log)
  | digit =>
    simp only [starts] at step sorts
    have digits : Digits [c].reverse := ⟨by simp, by simpa using sorts⟩
    exact .quiet [] step rfl rfl id (next (.whole digits) i _ log)
  | sign s =>
    simp only [starts, Bool.and_eq_true, beq_iff_eq] at step sorts
    have more := next (.sign s) i tokens log
    rw [Pending.lexeme, ofCharLexeme sorts.2] at more
    exact .quiet [] step (by simp) rfl id more
  | mark m =>
    simp only [starts, Bool.and_eq_true, beq_iff_eq] at step sorts
    cases ofCharMark sorts.2
    exact .quiet [.mark m] step (by simp) rfl (lexesMark m) (next .none i _ log)
  | other =>
    simp only [starts] at step
    cases blank : isBlank c with
    | true =>
      simp only [blank, if_true] at step
      exact .quiet [] step rfl rfl (.blank (blankIff.mp blank)) (next .none i _ log)
    | false =>
      simp only [blank] at step
      have solid : ¬Blank c := by simp [← blankIff, blank]
      have lost : ∀ {ts strays}, Lexes cs ts strays → Lexes (c :: cs) ts (c :: strays) :=
        fun cut => .stray solid (fun _ _ lexeme => noLexeme starts lexeme) cut
      exact .stray step (by simp) rfl lost (next .none i _ _)

theorem cutsComment (cs : List Char) (i : Int) (tokens : Array Token) (log : Log) :
    Cuts ('/' :: '/' :: cs) ('/' :: cs) ⟨i, tokens, log, .sign .slash⟩ := by
  have step : feed '/' ⟨i, tokens, log, .sign .slash⟩ = .ok false ⟨i, tokens, log, .none⟩ := by
    have digit : Text.isDigit '/' = false := by decide
    simp [feed, feedBehind, settle, bindRun, setPending, digit, isBlank, -bind_pure_comp]
  obtain ⟨j, run⟩ := finishSettled .none i tokens log
  refine ⟨j, [], [], ?_, .comment ⟨cs, rfl⟩⟩
  rw [toEndCons, step]
  simp [run, strayReports]

/- The induction is on the rest of the line; what is pending stands before it as text. -/
theorem cuts (plain : ∀ c ∈ cs, PlainChar c) (h : Settles p new) (i : Int) (tokens : Array Token)
    (log : Log) : Cuts (p.lexeme ++ cs) cs ⟨i, tokens, log, p⟩ := by
  induction cs generalizing p new i tokens log with
  | nil =>
    obtain ⟨j, run⟩ := finishSettled h i tokens log
    have lexes := lexesSettled h (by simp) (by simp) .done
    refine ⟨j, new, [], ?_, by simpa using lexes⟩
    simpa [toEnd, feedAll, bindRun, strayReports] using run
  | cons c cs ih =>
    have first := plain c (List.mem_cons_self ..)
    have next := fun {p new} (h : Settles p new) =>
      ih (fun d mem => plain d (List.mem_cons_of_mem _ mem)) h
    by_cases more : ∃ p', Extends p c p'
    · obtain ⟨p', more⟩ := more
      obtain ⟨_, longer⟩ := h.extend more
      have text : p.lexeme ++ c :: cs = p'.lexeme ++ cs := by simp [more.lexeme]
      rw [text]
      have step := feedExtend first i tokens log more
      exact .quiet [] step (by simp) rfl id (next longer i tokens log)
    · have stop : ∀ p', ¬Extends p c p' := fun p' extended => more ⟨p', extended⟩
      by_cases comment : c = '/' ∧ p = .sign .slash
      · obtain ⟨rfl, rfl⟩ := comment
        exact cutsComment cs i tokens log
      · obtain ⟨j, same⟩ := feedStop first h stop comment i tokens log
        obtain ⟨k, found, strays, run, cut⟩ := cutsFresh first j (tokens ++ new.toArray) log next
        rw [toEndCons, ← same, ← toEndCons] at run
        refine ⟨k, new ++ found, strays, by simpa using run, ?_⟩
        exact lexesSettled h (by simpa using stop) (by simpa using comment) cut

/-- On a line of ASCII characters other than the quote, scanning ends well. It adds the tokens of the
only cut of the line into longest lexemes, then one end token, and a report for each character that
belongs to no token. The kind of a reserved word is named like the word in capitals. -/
theorem linesAreCutIntoLongestLexemes {text : List Char}
    (ascii : ∀ c ∈ text, c.toNat < 128 ∧ c ≠ '"') (s : State) :
    ∃ j tokens strays,
      line text s = .ok () ⟨j, dropEnd s.tokens ++ (tokens ++ [Token.eof]).toArray,
        s.log ++ strayReports strays, .none⟩ ∧
      (∀ tokens' strays', Lexes text tokens' strays' ↔
        tokens' = tokens ∧ strays' = strays.map Prod.snd) ∧
      ∀ t ∈ tokens, ∀ k, t.kind = .keyword k → t.kind.name = t.lexeme.toUpper := by
  obtain ⟨i, tokens, log, p⟩ := s
  obtain ⟨j, found, strays, run, cut⟩ := cuts ascii .none i (dropEnd tokens) log
  refine ⟨j, found, strays, run, ?_, cut.upper⟩
  intro tokens' strays'
  constructor
  · exact cut.unique
  · intro same
    rw [same.1, same.2]
    exact cut

theorem linesAreCutIntoLongestLexemes_sample :
    (∀ c ∈ "or1=12.!==3.500@x/y.2 and// = \x7b".toList, c.toNat < 128 ∧ c ≠ '"') ∧
    ∃ j tokens strays,
      line "or1=12.!==3.500@x/y.2 and// = \x7b".toList ⟨0, #[.eof], [], .none⟩ =
        .ok () ⟨j, dropEnd #[.eof] ++ (tokens ++ [Token.eof]).toArray, strayReports strays, .none⟩ ∧
      (∀ tokens' strays', Lexes "or1=12.!==3.500@x/y.2 and// = \x7b".toList tokens' strays' ↔
        tokens' = tokens ∧ strays' = strays.map Prod.snd) ∧
      ∀ t ∈ tokens, ∀ k, t.kind = .keyword k → t.kind.name = t.lexeme.toUpper := by
  have ascii : ∀ c ∈ "or1=12.!==3.500@x/y.2 and// = \x7b".toList, c.toNat < 128 ∧ c ≠ '"' := by
    have each : "or1=12.!==3.500@x/y.2 and// = \x7b".toList.all
        (fun c => decide (c.toNat < 128) && c != '"') = true := by decide +kernel
    simpa only [List.all_eq_true, Bool.and_eq_true, decide_eq_true_eq, bne_iff_ne] using each
  exact ⟨ascii, linesAreCutIntoLongestLexemes ascii ⟨0, #[.eof], [], .none⟩⟩

end Lox.Scan
