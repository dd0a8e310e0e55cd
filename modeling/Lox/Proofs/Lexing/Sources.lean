import Lox.Proofs.Lexing.Literals

/-!
The source text of tokens. Written one after the other, the tokens of a line give the line without
its blanks and its comment, as long as no literal stands right behind a sign and none has two
points. The first such literal is where the two texts part.
-/

namespace Lox

def Token.source (t : Token) : List Char :=
  if t.kind = .string then '"' :: (t.lexeme.toList ++ ['"']) else t.lexeme.toList

def Token.sources (ts : List Token) : List Char := ts.flatMap Token.source

namespace Scan

open Number Token

def bare : (inside : Bool) → List Char → List Char
  | _, [] => []
  | true, c :: cs => c :: bare (c != '"') cs
  | false, '/' :: '/' :: _ => []
  | false, c :: cs => if isBlank c then bare false cs else c :: bare (c == '"') cs

inductive Place where
  | code (sign : Bool)
  | text (point : Bool)

def regular : Place → List Char → Bool
  | _, [] => true
  | .text point, c :: cs =>
    if c = '"' then regular (.code false) cs
    else !(point && c == '.') && regular (.text (point || c == '.')) cs
  | .code _, '/' :: '/' :: _ => true
  | .code sign, c :: cs =>
    if c = '"' then !sign && regular (.text false) cs
    else regular (.code (Sign.ofChar? c).isSome) cs

variable {c : Char} {cs : List Char} {p p' : Pending} {i : Int} {tokens : Array Token} {log : Log}
  {new : List Token}

def keptOf (c : Char) : List Char := if isBlank c then [] else [c]

def Pending.isSign : Pending → Bool
  | .sign _ => true
  | _ => false

def Pending.isOpen : Pending → Bool
  | .string .. => true
  | _ => false

structure Takes (p : Pending) (c : Char) (new : List Token) (p' : Pending) : Prop where
  text : sources new ++ p'.lexeme = p.lexeme ++ keptOf c
  code : p'.isOpen = false
  sign : p'.isSign = (Sign.ofChar? c).isSome
  slash : p' = .sign .slash ↔ c = '/'

theorem sourcesAppend (ts us : List Token) : sources (ts ++ us) = sources ts ++ sources us :=
  List.flatMap_append

theorem sourceEof : Token.eof.source = [] := rfl

theorem sourceWord (w : List Char) : (Token.word w).source = w := by
  have kind : (Token.word w).kind ≠ .string := by
    unfold Token.word
    dsimp only
    split <;> simp
  rw [source, if_neg kind]
  simp [Token.word]

theorem sourceMark (m : Mark) : (Token.mark m).source = [m.char] := by simp [source, Token.mark]

theorem sourceSign (t : Sign) : (Token.sign t).source = t.lexeme := by simp [source, Token.sign]

theorem numericWhole (text : List Char) :
    (Numeric.of text).lexeme ++ (if (Numeric.of text).endPoint then ['.'] else []) = text := by
  unfold Numeric.of
  split
  · next last =>
    obtain ⟨front, rfl⟩ := List.getLast?_eq_some_iff.mp last
    simp
  · simp

theorem sourcesNumber (text : List Char) (x : Float) :
    sources ((Numeric.of text).given .number x) = text := by
  have whole := numericWhole text
  unfold Numeric.given sources
  cases point : (Numeric.of text).endPoint <;>
    simpa [point, source, Token.mark, Mark.char] using whole

theorem nameSolid (h : isNameChar c = true) : isBlank c = false ∧ Sign.ofChar? c = none := by
  have outside : ([' ', '\t', '\n', '=', '!', '>', '<', '/'].all fun d => !isNameChar d) = true := by
    decide +kernel
  have apart : c ∉ [' ', '\t', '\n', '=', '!', '>', '<', '/'] := by
    intro mem
    have other := List.all_eq_true.mp outside c mem
    rw [h] at other
    cases other
  simp only [List.mem_cons, List.not_mem_nil, or_false, not_or] at apart
  refine ⟨by simp [isBlank, apart], ?_⟩
  unfold Sign.ofChar?
  split <;> simp_all

theorem digitSolid (h : Text.isDigit c = true) : isBlank c = false ∧ Sign.ofChar? c = none :=
  nameSolid (by simp [isNameChar, h])

theorem takesPlain (text : sources new ++ p'.lexeme = p.lexeme ++ keptOf c)
    (code : p'.isOpen = false) (plain : p'.isSign = false) (none : Sign.ofChar? c = none) :
    Takes p c new p' := by
  refine ⟨text, code, by rw [plain, none]; rfl, fun same => ?_, fun same => ?_⟩
  · rw [same] at plain
    cases plain
  · rw [same] at none
    cases none

theorem Takes.settled {first : List Token} (h : Takes .none c new p')
    (text : sources first = p.lexeme) : Takes p c (first ++ new) p' := by
  refine ⟨?_, h.code, h.sign, h.slash⟩
  rw [sourcesAppend, List.append_assoc, h.text, text]
  rfl

def Pending.held : Pending → List Token
  | .sign t => [.sign t]
  | _ => []

def Pending.isFree : Pending → Bool
  | .none | .sign _ => true
  | _ => false

theorem sourcesHeld (free : p.isFree = true) : sources p.held = p.lexeme := by
  cases p with
  | none => rfl
  | sign t => simp [Pending.held, sources, sourceSign, Pending.lexeme]
  | _ => cases free

theorem flushRun (free : p.isFree = true) :
    flushSign ⟨i, tokens, log, p⟩ = .ok () ⟨i, tokens ++ p.held.toArray, log, .none⟩ := by
  cases p with
  | none => simp [flushSign, bindRun, Pending.held]
  | sign t => simp [flushSign, bindRun, Pending.held, push, setPending]
  | _ => cases free

theorem blankSolid (h : isBlank c = true) : Sign.ofChar? c = none := by
  rcases blankIff.mp h with rfl | rfl | rfl <;> rfl

theorem signSolid {t : Sign} (h : Sign.ofChar? c = some t) : isBlank c = false := by
  refine Bool.eq_false_iff.mpr fun blank => ?_
  rw [blankSolid blank] at h
  cases h

inductive Fresh (p : Pending) (c : Char) : List Token → Pending → Prop where
  | digit (digit : Text.isDigit c = true) : Fresh p c p.held (.number [c])
  | blank (blank : isBlank c = true) : Fresh p c p.held .none
  | joined {s t u : Sign} (same : p = .sign s) (next : Sign.ofChar? c = some t)
      (joined : s.join? t = some u) : Fresh p c [] (.sign u)
  | sign {t : Sign} (next : Sign.ofChar? c = some t) : Fresh p c p.held (.sign t)
  | mark {m : Mark} (solid : isBlank c = false) (sign : Sign.ofChar? c = none)
      (next : Mark.ofChar? c = some m) : Fresh p c (p.held ++ [.mark m]) .none
  | name (next : isNameChar c = true) : Fresh p c p.held (.word [c])

theorem joinLexeme {s t u : Sign} (h : s.join? t = some u) : u.lexeme = s.lexeme ++ t.lexeme := by
  cases s <;> cases t <;> cases h <;> rfl

theorem joinSlash {s t u : Sign} (h : s.join? t = some u) : u ≠ .slash ∧ t ≠ .slash := by
  cases s <;> cases t <;> cases h <;> decide

theorem ofCharSlash : Sign.ofChar? c = some .slash ↔ c = '/' := by
  refine ⟨fun h => ?_, fun same => by rw [same]; rfl⟩
  have lexeme := ofCharLexeme h
  simpa [Sign.lexeme] using lexeme.symm

theorem Fresh.takes (h : Fresh p c new p') (free : p.isFree = true) : Takes p c new p' := by
  have held := sourcesHeld free
  cases h with
  | digit digit =>
    obtain ⟨solid, none⟩ := digitSolid digit
    exact takesPlain (by simp [held, Pending.lexeme, keptOf, solid]) rfl rfl none
  | blank blank =>
    exact takesPlain (by simp [held, Pending.lexeme, keptOf, blank]) rfl rfl (blankSolid blank)
  | @joined s t u same next joined =>
    obtain ⟨notSlash, other⟩ := joinSlash joined
    refine ⟨?_, rfl, by rw [next]; rfl, fun slash => ?_, fun slash => ?_⟩
    · simp [same, sources, Pending.lexeme, keptOf, signSolid next, joinLexeme joined,
        ofCharLexeme next]
    · cases slash
      exact absurd rfl notSlash
    · rw [ofCharSlash.mpr slash] at next
      cases next
      exact absurd rfl other
  | @sign t next =>
    refine ⟨?_, rfl, by rw [next]; rfl, fun slash => ?_, fun slash => ?_⟩
    · simp [held, Pending.lexeme, keptOf, signSolid next, ofCharLexeme next]
    · cases slash
      exact ofCharSlash.mp next
    · rw [ofCharSlash.mpr slash] at next
      cases next
      rfl
  | @mark m solid sign next =>
    refine takesPlain ?_ rfl rfl sign
    rw [sourcesAppend, held]
    simp [sources, sourceMark, ofCharMark next, Pending.lexeme, keptOf, solid]
  | name next =>
    obtain ⟨solid, none⟩ := nameSolid next
    exact takesPlain (by simp [held, Pending.lexeme, keptOf, solid]) rfl rfl none

inductive Feeds (p : Pending) (c : Char) (tokens : Array Token) : Bool → State → Prop where
  | comment {s : State} (slash : p = .sign .slash) (again : c = '/') (same : s.tokens = tokens)
      (none : s.pending = .none) : Feeds p c tokens false s
  | read {s : State} (new : List Token) (code : ¬(p = .sign .slash ∧ c = '/'))
      (added : s.tokens = tokens ++ new.toArray) (takes : Takes p c new s.pending) :
      Feeds p c tokens true s

variable {more : Bool} {s : State}

theorem otherFresh (free : p.isFree = true) (solid : isBlank c = false)
    (run : feedOther c ⟨i, tokens, log, p⟩ = .ok () s) (silent : s.log = log) :
    ∃ new, s.tokens = tokens ++ new.toArray ∧ Fresh p c new s.pending := by
  unfold feedOther at run
  cases sign : Sign.ofChar? c with
  | some t =>
    rw [sign] at run
    have run : feedSign t ⟨i, tokens, log, p⟩ = .ok () s := run
    unfold feedSign at run
    rw [getBind] at run
    cases p with
    | none =>
      cases run
      exact ⟨[], by simp, .sign sign⟩
    | sign u =>
      cases joined : u.join? t with
      | some v =>
        simp only [joined] at run
        cases run
        exact ⟨[], by simp, .joined rfl sign joined⟩
      | none =>
        simp only [joined] at run
        cases run
        exact ⟨[.sign u], by simp, .sign sign⟩
    | _ => cases free
  | none =>
    cases mark : Mark.ofChar? c with
    | some m =>
      simp only [sign, mark] at run
      rw [bindRun, flushRun free] at run
      cases run
      exact ⟨p.held ++ [.mark m], by simp, .mark solid sign mark⟩
    | none =>
      simp only [sign, mark] at run
      by_cases capital : Text.isSplitCapital c = true
      · simp only [capital, if_true] at run
        cases run
      · simp only [capital] at run
        by_cases name : (Text.isLetter c || c == '_') = true
        · simp only [name, if_true] at run
          have flushed : (do flushSign; setPending (.word [c])) ⟨i, tokens, log, p⟩ =
              .ok () s := run
          rw [bindRun, flushRun free] at flushed
          cases flushed
          refine ⟨p.held, rfl, .name ?_⟩
          simp only [isNameChar, Bool.or_eq_true] at name ⊢
          exact name.imp_left .inl
        · simp only [name] at run
          have told : (do report (.unexpected i (String.singleton c)); flushSign)
              ⟨i, tokens, log, p⟩ = .ok () s := run
          rw [bindRun] at told
          have flushed : flushSign ⟨i, tokens,
              log ++ [.lexical (.unexpected i (String.singleton c))], p⟩ = .ok () s := told
          rw [flushRun free] at flushed
          cases flushed
          simp at silent

theorem feedFresh (free : p.isFree = true) (plain : c ≠ '"')
    (run : feed c ⟨i, tokens, log, p⟩ = .ok more s) (silent : s.log = log) :
    Feeds p c tokens more s := by
  have settled : settle c ⟨i, tokens, log, p⟩ = .ok () ⟨i, tokens, log, p⟩ := by
    cases p with
    | none => rfl
    | sign t => rfl
    | _ => cases free
  have go : (if Text.isDigit c then do feedDigit c; return true
      else if isBlank c then do flushSign; return true
      else if c == '/' && p == .sign .slash then do setPending .none; return false
      else do feedOther c; return true : M Bool) ⟨i, tokens, log, p⟩ = .ok more s := by
    rw [← run]
    unfold feed feedBehind
    rw [bindRun, settled]
    cases p with
    | none => simp [getBind, plain]
    | sign t => simp [getBind, plain]
    | _ => cases free
  by_cases digit : Text.isDigit c = true
  · have code : ¬(p = .sign .slash ∧ c = '/') := by
      rintro ⟨-, rfl⟩
      exact absurd digit (by decide)
    rw [if_pos digit] at go
    obtain ⟨_, t, fed, ended⟩ := bindOk.mp go
    cases ended
    unfold feedDigit at fed
    rw [bindRun, flushRun free] at fed
    cases fed
    exact .read p.held code rfl ((Fresh.digit digit).takes free)
  rw [if_neg digit] at go
  by_cases blank : isBlank c = true
  · have code : ¬(p = .sign .slash ∧ c = '/') := by
      rintro ⟨-, rfl⟩
      cases blank
    rw [if_pos blank, bindRun, flushRun free] at go
    cases go
    exact .read p.held code rfl ((Fresh.blank blank).takes free)
  rw [if_neg blank] at go
  by_cases comment : (c == '/' && p == .sign .slash) = true
  · rw [if_pos comment] at go
    cases go
    simp only [Bool.and_eq_true, beq_iff_eq] at comment
    exact .comment comment.2 comment.1 rfl rfl
  · rw [if_neg comment] at go
    obtain ⟨_, t, fed, ended⟩ := bindOk.mp go
    cases ended
    obtain ⟨new, added, fresh⟩ := otherFresh free (Bool.eq_false_iff.mpr blank) fed silent
    refine .read new ?_ added (fresh.takes free)
    rintro ⟨rfl, rfl⟩
    exact comment rfl

theorem Feeds.settled {first : List Token} (text : sources first = p.lexeme)
    (word : p.isSign = false) (h : Feeds .none c (tokens ++ first.toArray) more s) :
    Feeds p c tokens more s := by
  cases h with
  | comment slash _ _ _ => cases slash
  | read new _ added takes =>
    refine .read (first ++ new) ?_ (by simp [added]) (takes.settled text)
    rintro ⟨rfl, -⟩
    cases word

theorem feedTakes (code : p.isOpen = false) (plain : c ≠ '"')
    (run : feed c ⟨i, tokens, log, p⟩ = .ok more s) (silent : s.log = log) :
    Feeds p c tokens more s := by
  cases p with
  | none => exact feedFresh rfl plain run silent
  | sign t => exact feedFresh rfl plain run silent
  | string lead body => cases code
  | word w =>
    by_cases capital : Text.isSplitCapital c = true
    · simp [feed, settle, bindRun, capital] at run
      cases run
    by_cases name : isNameChar c = true
    · have step : feed c ⟨i, tokens, log, .word w⟩ = .ok true ⟨i, tokens, log, .word (c :: w)⟩ := by
        simp [feed, feedBehind, settle, bindRun, setPending, capital, name, -bind_pure_comp]
      rw [step] at run
      cases run
      obtain ⟨solid, none⟩ := nameSolid name
      refine .read [] (by simp) (by simp) (takesPlain ?_ rfl rfl none)
      simp [sources, Pending.lexeme, keptOf, solid]
    · have settled : settle c ⟨i, tokens, log, .word w⟩ =
          .ok () ⟨i, tokens.push (.word w.reverse), log, .none⟩ := by
        simp [settle, bindRun, capital, name, push, setPending]
      rw [feedSettled settled rfl] at run
      have text : sources [Token.word w.reverse] = (Pending.word w).lexeme := by
        simp [sources, sourceWord, Pending.lexeme]
      exact .settled text rfl (feedFresh rfl plain (by simpa using run) silent)
  | number n =>
    by_cases ends : ((!Text.isDigit c && c != '.') || (c == '.' && n.contains '.')) = true
    · have settled : settle c ⟨i, tokens, log, .number n⟩ =
          pushNumber .number n.reverse ⟨i, tokens, log, .number n⟩ := by
        unfold settle
        rw [getBind]
        simp only [ends, if_true]
      cases value : readDouble? (numeral (Numeric.of n.reverse).lexeme) with
      | none =>
        rw [pushNumberFails value] at settled
        unfold feed at run
        rw [bindRun, settled] at run
        cases run
      | some x =>
        rw [pushNumberOk value] at settled
        rw [feedSettled settled rfl] at run
        exact .settled (sourcesNumber n.reverse x) rfl (feedFresh rfl plain run silent)
    · have settled : settle c ⟨i, tokens, log, .number n⟩ = .ok () ⟨i, tokens, log, .number n⟩ := by
        unfold settle
        rw [getBind]
        simp only [ends]
        rfl
      have step : feed c ⟨i, tokens, log, .number n⟩ =
          .ok true ⟨i, tokens, log, .number (c :: n)⟩ := by
        unfold feed
        rw [bindRun, settled]
        rfl
      rw [step] at run
      cases run
      have solid : isBlank c = false ∧ Sign.ofChar? c = none := by
        by_cases digit : Text.isDigit c = true
        · exact digitSolid digit
        · have point : c = '.' := by simp_all
          subst point
          exact ⟨rfl, rfl⟩
      refine .read [] (by simp) (by simp) (takesPlain ?_ rfl rfl solid.2)
      simp [sources, Pending.lexeme, keptOf, solid.1]

theorem openTakes (code : p.isOpen = false)
    (run : feed '"' ⟨i, tokens, log, p⟩ = .ok more s) : more = true ∧ s.log = log ∧
      ∃ new, s.tokens = tokens ++ new.toArray ∧
        ((p.isSign = true ∧ new = [] ∧ s.pending = .string p.lexeme []) ∨
          (p.isSign = false ∧ sources new = p.lexeme ∧ s.pending = .string [] [])) := by
  cases p with
  | none =>
    cases run
    exact ⟨rfl, rfl, [], by simp, .inr ⟨rfl, rfl, rfl⟩⟩
  | sign t =>
    cases run
    exact ⟨rfl, rfl, [], by simp, .inl ⟨rfl, rfl, rfl⟩⟩
  | string lead body => cases code
  | word w =>
    cases run
    refine ⟨rfl, rfl, [.word w.reverse], by simp, .inr ⟨rfl, ?_, rfl⟩⟩
    simp [sources, sourceWord, Pending.lexeme]
  | number n =>
    have settled : settle '"' ⟨i, tokens, log, .number n⟩ =
        pushNumber .number n.reverse ⟨i, tokens, log, .number n⟩ := by
      have digit : Text.isDigit '"' = false := by decide
      simp [settle, bindRun, digit]
    unfold feed at run
    rw [bindRun, settled] at run
    cases value : readDouble? (numeral (Numeric.of n.reverse).lexeme) with
    | none =>
      rw [pushNumberFails value] at run
      cases run
    | some x =>
      rw [pushNumberOk value] at run
      cases run
      exact ⟨rfl, rfl, _, rfl, .inr ⟨rfl, sourcesNumber n.reverse x, rfl⟩⟩

def Leaves (i : Int) (p : Pending) (cs : List Char) (ts : List Token) : Prop :=
  ∃ s, toEnd cs ⟨i, #[], [], p⟩ = .ok () s ∧ s.log = [] ∧ s.tokens.toList = ts

variable {ts : List Token}

theorem toEndAfter (cs : List Char) (s : State) : toEnd cs s =
    onState (State.after s.tokens s.log) (toEnd cs ⟨s.line, #[], [], s.pending⟩) := by
  rw [← (plainToEnd cs).commutes]
  simp [State.after]

theorem leavesCons (h : Leaves i p (c :: cs) ts) :
    ∃ more s rest, feed c ⟨i, #[], [], p⟩ = .ok more s ∧ s.log = [] ∧
      Leaves s.line s.pending (if more then cs else []) rest ∧ ts = s.tokens.toList ++ rest := by
  obtain ⟨t, run, silent, rfl⟩ := h
  rw [toEndCons] at run
  cases fed : feed c ⟨i, #[], [], p⟩ with
  | error e s =>
    rw [fed] at run
    cases run
  | ok more s =>
    rw [fed] at run
    have run : toEnd (if more then cs else []) s = .ok () t := by
      cases more
      · exact run
      · exact run
    rw [toEndAfter] at run
    cases last : toEnd (if more then cs else []) ⟨s.line, #[], [], s.pending⟩ with
    | error e u =>
      rw [last] at run
      cases run
    | ok _ u =>
      rw [last] at run
      cases run
      obtain ⟨before, after⟩ : s.log = [] ∧ u.log = [] := List.append_eq_nil_iff.mp silent
      exact ⟨more, s, u.tokens.toList, rfl, before, ⟨u, last, after, rfl⟩, by simp [State.after]⟩

theorem leavesNil (h : Leaves i p [] ts) : p.isOpen = false ∧ sources ts = p.lexeme := by
  obtain ⟨s, run, silent, rfl⟩ := h
  have run : finish ⟨i, #[], [], p⟩ = .ok () s := run
  unfold finish leave at run
  cases p with
  | none =>
    cases run
    exact ⟨rfl, by simp [sources, sourceEof, Pending.lexeme]⟩
  | word w =>
    cases run
    exact ⟨rfl, by simp [sources, sourceEof, sourceWord, Pending.lexeme]⟩
  | sign t =>
    cases run
    exact ⟨rfl, by simp [sources, sourceEof, sourceSign, Pending.lexeme]⟩
  | string lead body =>
    cases run
    cases silent
  | number n =>
    rw [bind_assoc, getBind] at run
    dsimp only at run
    cases value : readDouble? (numeral (Numeric.of n.reverse).lexeme) with
    | none =>
      rw [bind_assoc, bindRun, pushNumberFails value] at run
      cases run
    | some x =>
      rw [bind_assoc, bindRun, pushNumberOk value] at run
      cases run
      have number := sourcesNumber n.reverse x
      unfold sources at number
      exact ⟨rfl, by simp [sources, sourceEof, number, Pending.lexeme]⟩

theorem leavesPoint {lead body : List Char} (second : '.' ∈ body)
    (h : Leaves i (.string lead body) ('.' :: cs) ts) :
    ∃ more, sources ts = '"' :: ((Numeric.of (lead ++ body.reverse)).lexeme ++ '"' :: more) := by
  obtain ⟨more, s, rest, fed, -, -, rfl⟩ := leavesCons h
  rw [feedPoint second] at fed
  cases value : readDouble? (numeral (Numeric.of (lead ++ body.reverse)).lexeme) with
  | none =>
    rw [pushNumberFails value] at fed
    cases fed
  | some x =>
    rw [pushNumberOk value] at fed
    cases fed
    refine ⟨sources (((if (Numeric.of (lead ++ body.reverse)).endPoint then [.mark .dot] else []) ++
      [.mark .dot]) ++ rest), ?_⟩
    simp [Numeric.given, sources, source]

theorem leavesOpen {lead body : List Char} (h : Leaves i (.string lead body) cs ts) :
    ∃ more, sources ts = '"' :: more := by
  induction cs generalizing i body ts with
  | nil => cases (leavesNil h).1
  | cons c cs ih =>
    by_cases second : c = '.' ∧ '.' ∈ body
    · obtain ⟨rfl, mem⟩ := second
      obtain ⟨more, starts⟩ := leavesPoint mem h
      exact ⟨_, starts⟩
    obtain ⟨more, s, rest, fed, silent, next, rfl⟩ := leavesCons h
    by_cases quote : c = '"'
    · subst quote
      rw [feedClosing] at fed
      cases fed
      exact ⟨_, rfl⟩
    · rw [feedInside quote fun same mem => second ⟨same, mem⟩] at fed
      cases fed
      exact ih next

/- A slash that is pending may still open a comment, so it counts as not yet read. -/
def Pending.read (p : Pending) : List Char := if p = .sign .slash then [] else p.lexeme

def Pending.unread (p : Pending) (cs : List Char) : List Char :=
  if p = .sign .slash then '/' :: cs else cs

def Pending.place (p : Pending) : Place := .code (p.isSign && p != .sign .slash)

theorem bareCode (code : c ≠ '/') : bare false (c :: cs) = keptOf c ++ bare (c == '"') cs := by
  have step : bare false (c :: cs) = if isBlank c then bare false cs else c :: bare (c == '"') cs :=
    bare.eq_4 c cs fun _ same _ => code same
  rw [step, keptOf]
  by_cases blank : isBlank c = true
  · have plain : (c == '"') = false := by
      rcases blankIff.mp blank with rfl | rfl | rfl <;> rfl
    simp [blank, plain]
  · simp [blank]

theorem bareSlash (code : cs.head? ≠ some '/') : bare false ('/' :: cs) = '/' :: bare false cs := by
  refine bare.eq_4 '/' cs fun _ _ same => ?_
  rw [same] at code
  exact code rfl

theorem regularCode (sign : Bool) (plain : c ≠ '"') (code : ¬(c = '/' ∧ cs.head? = some '/')) :
    regular (.code sign) (c :: cs) = regular (.code (Sign.ofChar? c).isSome) cs := by
  have step := regular.eq_4 sign c cs fun _ slash again => code ⟨slash, by rw [again]; rfl⟩
  rw [step, if_neg plain]

theorem regularSign (sign sign' : Bool) (plain : c ≠ '"') :
    regular (.code sign) (c :: cs) = regular (.code sign') (c :: cs) := by
  by_cases comment : c = '/' ∧ cs.head? = some '/'
  · obtain ⟨rfl, slash⟩ := comment
    obtain ⟨rest, rfl⟩ := List.head?_eq_some_iff.mp slash
    rfl
  · rw [regularCode sign plain comment, regularCode sign' plain comment]

section

variable (code : ¬(p = .sign .slash ∧ c = '/'))

include code

theorem unreadText :
    p.read ++ bare false (p.unread (c :: cs)) = p.lexeme ++ bare false (c :: cs) := by
  unfold Pending.read Pending.unread
  by_cases slash : p = .sign .slash
  · have other : (c :: cs).head? ≠ some '/' := fun same => code ⟨slash, Option.some.inj same⟩
    rw [if_pos slash, if_pos slash, bareSlash other, slash]
    rfl
  · rw [if_neg slash, if_neg slash]

theorem unreadRegular :
    regular p.place (p.unread (c :: cs)) = regular (.code p.isSign) (c :: cs) := by
  unfold Pending.place Pending.unread
  by_cases slash : p = .sign .slash
  · have other : ¬('/' = '/' ∧ (c :: cs).head? = some '/') :=
      fun same => code ⟨slash, Option.some.inj same.2⟩
    rw [if_pos slash, regularCode _ (by decide) other, slash]
    rfl
  · rw [if_neg slash, bne_iff_ne.mpr slash, Bool.and_true]

theorem Takes.sides (h : Takes p c new p') (plain : c ≠ '"') (cs : List Char) :
    p.read ++ bare false (p.unread (c :: cs)) =
        sources new ++ (p'.read ++ bare false (p'.unread cs)) ∧
      regular p.place (p.unread (c :: cs)) = regular p'.place (p'.unread cs) := by
  rw [unreadText code, unreadRegular code]
  have text := h.text
  by_cases slash : c = '/'
  · have pending := h.slash.mpr slash
    subst slash pending
    have same : sources new = p.lexeme := List.append_cancel_right text
    exact ⟨by rw [same]; rfl, regularSign _ _ plain⟩
  · have other : p' ≠ .sign .slash := fun same => slash (h.slash.mp same)
    have quote : (c == '"') = false := by simp [plain]
    refine ⟨?_, ?_⟩
    · unfold Pending.read Pending.unread
      rw [if_neg other, if_neg other, bareCode slash, quote, ← List.append_assoc, ← text,
        List.append_assoc]
    · unfold Pending.place Pending.unread
      rw [if_neg other, bne_iff_ne.mpr other, Bool.and_true, h.sign]
      exact regularCode _ plain fun both => slash both.1

end

def Agrees (p : Pending) (cs : List Char) (ts : List Token) : Prop :=
  sources ts = p.read ++ bare false (p.unread cs) ↔ regular p.place (p.unread cs) = true

def AgreesInside (body cs : List Char) (ts : List Token) : Prop :=
  sources ts = '"' :: (body.reverse ++ bare true cs) ↔
    regular (.text (body.contains '.')) cs = true

theorem agreesEnd (h : Leaves i p [] ts) : Agrees p [] ts := by
  have text := (leavesNil h).2
  have whole : p.read ++ bare false (p.unread []) = p.lexeme := by
    unfold Pending.read Pending.unread
    by_cases slash : p = .sign .slash
    · rw [if_pos slash, if_pos slash, slash]
      rfl
    · rw [if_neg slash, if_neg slash]
      exact List.append_nil _
  have plain : regular p.place (p.unread []) = true := by
    unfold Pending.unread
    split <;> rfl
  exact iff_of_true (text.trans whole.symm) plain

theorem agreesCode (code : p.isOpen = false) (plain : c ≠ '"') (h : Leaves i p (c :: cs) ts)
    (next : ∀ {i p ts}, p.isOpen = false → Leaves i p cs ts → Agrees p cs ts) :
    Agrees p (c :: cs) ts := by
  obtain ⟨more, s, rest, fed, silent, left, rfl⟩ := leavesCons h
  cases feedTakes code plain fed silent with
  | comment slash again same none =>
    subst slash again
    have text := (leavesNil left).2
    rw [none] at text
    refine iff_of_true ?_ rfl
    rw [same, sourcesAppend, text]
    rfl
  | read new notComment added takes =>
    obtain ⟨text, regular⟩ := takes.sides notComment plain cs
    have tokens : s.tokens.toList = new := by simp [added]
    unfold Agrees
    rw [text, regular, tokens, sourcesAppend, List.append_cancel_left_eq]
    exact next takes.code left

theorem agreesQuote (code : p.isOpen = false) (h : Leaves i p ('"' :: cs) ts)
    (next : ∀ {i ts}, Leaves i (.string [] []) cs ts → AgreesInside [] cs ts) :
    Agrees p ('"' :: cs) ts := by
  obtain ⟨more, s, rest, fed, -, left, rfl⟩ := leavesCons h
  have notComment : ¬(p = .sign .slash ∧ '"' = '/') := fun both => absurd both.2 (by decide)
  have line : bare false ('"' :: cs) = '"' :: bare true cs := rfl
  have asks : regular (.code p.isSign) ('"' :: cs) = (!p.isSign && regular (.text false) cs) := rfl
  unfold Agrees
  rw [unreadText notComment, unreadRegular notComment, line, asks]
  obtain ⟨rfl, -, new, added, ⟨sign, rfl, pending⟩ | ⟨sign, text, pending⟩⟩ := openTakes code fed
  · rw [pending] at left
    obtain ⟨more, begins⟩ := leavesOpen left
    have tokens : s.tokens.toList = [] := by simp [added]
    rw [tokens, List.nil_append, begins, sign]
    refine iff_of_false (fun same => ?_) (by simp)
    cases p with
    | sign t => cases t <;> cases same
    | _ => cases sign
  · rw [pending] at left
    have tokens : s.tokens.toList = new := by simp [added]
    rw [tokens, sourcesAppend, text, List.append_cancel_left_eq, sign]
    exact next left

theorem agreesInside {body : List Char} (h : Leaves i (.string [] body) (c :: cs) ts)
    (code : ∀ {i ts}, Leaves i .none cs ts → Agrees .none cs ts)
    (next : ∀ {i body ts}, Leaves i (.string [] body) cs ts → AgreesInside body cs ts) :
    AgreesInside body (c :: cs) ts := by
  by_cases second : c = '.' ∧ '.' ∈ body
  · obtain ⟨rfl, mem⟩ := second
    obtain ⟨more, begins⟩ := leavesPoint mem h
    have line : bare true ('.' :: cs) = '.' :: bare true cs := rfl
    have whole := numericWhole body.reverse
    unfold AgreesInside
    rw [begins, line, List.nil_append]
    refine iff_of_false (fun same => ?_) (by simp [regular, mem])
    -- behind the number stands a quote in one text and a point in the other
    have behind : (Numeric.of body.reverse).lexeme ++ '"' :: more =
        (Numeric.of body.reverse).lexeme ++
          ((if (Numeric.of body.reverse).endPoint then ['.'] else []) ++ '.' :: bare true cs) := by
      rw [← List.append_assoc, whole]
      exact (List.cons.inj same).2
    rw [List.append_cancel_left_eq] at behind
    cases point : (Numeric.of body.reverse).endPoint <;> simp [point] at behind
  obtain ⟨more, s, rest, fed, -, left, rfl⟩ := leavesCons h
  by_cases quote : c = '"'
  · subst quote
    rw [feedClosing] at fed
    cases fed
    have line : bare true ('"' :: cs) = '"' :: bare false cs := rfl
    have goes : regular (.text (body.contains '.')) ('"' :: cs) = regular (.code false) cs := rfl
    have written : sources (#[].push ⟨.string, String.ofList ([] ++ body.reverse),
        .text (String.ofList body.reverse), .text ""⟩).toList = '"' :: (body.reverse ++ ['"']) := by
      simp [sources, source]
    have after : sources rest = bare false cs ↔ regular (.code false) cs = true := code left
    unfold AgreesInside
    rw [sourcesAppend, written, line, goes, ← after]
    simp
  · rw [feedInside quote fun same mem => second ⟨same, mem⟩] at fed
    cases fed
    have longer := next left
    have goes : regular (.text (body.contains '.')) (c :: cs) =
        regular (.text ((c :: body).contains '.')) cs := by
      have once : (body.contains '.' && c == '.') = false := by
        simpa using fun mem same => second ⟨same, mem⟩
      have points : (body.contains '.' || c == '.') = (c :: body).contains '.' := by
        rw [List.contains_cons, Bool.or_comm, BEq.comm]
      rw [regular, if_neg quote, once, points]
      rfl
    have line : bare true (c :: cs) = c :: bare true cs := by
      rw [bare, bne_iff_ne.mpr quote]
    unfold AgreesInside at longer ⊢
    rw [goes, ← longer, line]
    simp

/- The first literal with two points, or behind a sign, parts the two texts for good. -/
theorem leavesAgree (h : Leaves i p cs ts) : (p.isOpen = false → Agrees p cs ts) ∧
    ∀ body, p = .string [] body → AgreesInside body cs ts := by
  induction cs generalizing i p ts with
  | nil =>
    refine ⟨fun _ => agreesEnd h, fun body same => ?_⟩
    rw [same] at h
    cases (leavesNil h).1
  | cons c cs ih =>
    refine ⟨fun code => ?_, fun body same => ?_⟩
    · by_cases quote : c = '"'
      · subst quote
        exact agreesQuote code h fun left => (ih left).2 [] rfl
      · exact agreesCode code quote h fun code left => (ih left).1 code
    · subst same
      exact agreesInside h (fun left => (ih left).1 rfl) fun left => (ih left).2 _ rfl

/-- The tokens of a line that is scanned without a report are the line without its blanks and its
comment exactly if the line is regular. -/
theorem sourceIsKeptIfRegular {text : List Char} {s s' : State} (run : line text s = .ok () s')
    (silent : s'.log = s.log) :
    ∃ added, s'.tokens.toList = (dropEnd s.tokens).toList ++ (added ++ [.eof]) ∧
      (sources added = bare false text ↔ regular (.code false) text = true) := by
  obtain ⟨i, tokens, log, p⟩ := s
  rw [lineRun] at run
  cases ended : toEnd text ⟨i, #[], [], .none⟩ with
  | error e t =>
    rw [ended] at run
    cases run
  | ok _ t =>
    rw [ended] at run
    cases run
    have quiet : t.log = [] := List.append_right_eq_self.mp silent
    obtain ⟨added, closed⟩ := toEndLast ended
    have agrees : Agrees .none text (added.push .eof).toList :=
      (leavesAgree ⟨t, ended, quiet, by rw [closed]⟩).1 rfl
    refine ⟨added.toList, by simp [State.after, closed], ?_⟩
    simpa [Agrees, sources, sourceEof, Pending.read, Pending.unread, Pending.place, Pending.lexeme,
      Pending.isSign] using agrees

def silentTokens? (text : List Char) : Option (Array Token) :=
  match line text ⟨0, #[], [], .none⟩ with
  | .ok _ s => if s.log = [] then some s.tokens else none
  | .error .. => none

theorem silentRun {text : List Char} {ts : Array Token} (h : silentTokens? text = some ts) :
    ∃ s, line text ⟨0, #[], [], .none⟩ = .ok () s ∧ s.log = [] ∧ s.tokens = ts := by
  unfold silentTokens? at h
  split at h
  · next s run =>
    split at h
    · next quiet => exact ⟨s, run, quiet, Option.some.inj h⟩
    · cases h
  · cases h

def literalLine : List Char := "f(\"a.b\", \"// =\") != g.c; // \"x".toList

theorem sourceIsKeptIfRegular_literals :
    ∃ s, line literalLine ⟨0, #[], [], .none⟩ = .ok () s ∧ s.log = [] ∧
      regular (.code false) literalLine = true ∧
      ∃ added, s.tokens.toList = added ++ [.eof] ∧
        sources added = "f(\"a.b\",\"// =\")!=g.c;".toList := by
  have silent : (silentTokens? literalLine).isSome = true := by decide +kernel
  have plain : regular (.code false) literalLine = true := by decide +kernel
  have text : bare false literalLine = "f(\"a.b\",\"// =\")!=g.c;".toList := by decide +kernel
  obtain ⟨ts, found⟩ := Option.isSome_iff_exists.mp silent
  obtain ⟨s, run, quiet, -⟩ := silentRun found
  obtain ⟨added, closed, agrees⟩ := sourceIsKeptIfRegular run quiet
  exact ⟨s, run, quiet, plain, added, closed, (agrees.mpr plain).trans text⟩

theorem signsMoveIntoLiterals :
    let text := "=\"a\"".toList
    silentTokens? text = some #[⟨.string, "=a", .text "a", .text ""⟩, .eof] ∧
      sources [⟨.string, "=a", .text "a", .text ""⟩, .eof] = "\"=a\"".toList ∧
      bare false text = text ∧ "\"=a\"".toList ≠ text := by
  decide +kernel

end Scan
end Lox
