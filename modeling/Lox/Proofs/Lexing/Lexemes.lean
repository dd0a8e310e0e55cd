import Lox.Proofs.Lexing.Numerals

/-!
The lexical grammar: what a lexeme is, and how a line is cut into its longest lexemes. A line has
one cut at most.
-/

namespace Lox.Scan

open Number

def opensName (c : Char) : Bool := c.isAlpha || c == '_'

def inName (c : Char) : Bool := c.isAlphanum || c == '_'

def isName : List Char → Bool
  | [] => false
  | c :: cs => opensName c && cs.all inName

def numberToken (cs : List Char) (d : Decimal) : Token :=
  ⟨.number, String.ofList cs, .double (d.toDouble false), .text ""⟩

inductive Lexeme : List Char → Token → Prop where
  | reserved (k : Keyword) : Lexeme k.word.toList ⟨.keyword k, k.word, .nil, .text ""⟩
  | name {cs : List Char} (name : isName cs = true) (free : ∀ k : Keyword, k.word.toList ≠ cs) :
      Lexeme cs (.identifier (String.ofList cs))
  | whole {ds : List Char} (digits : Digits ds) :
      Lexeme ds (numberToken ds ⟨digitsValue ds, 0⟩)
  | fraction {ds fs : List Char} (whole : Digits ds) (fraction : Digits fs) :
      Lexeme (ds ++ '.' :: fs)
        (numberToken (ds ++ '.' :: fs) ⟨digitsValue (ds ++ fs), -(fs.length : Int)⟩)
  | sign (s : Sign) : Lexeme s.lexeme (.sign s)
  | mark (m : Mark) : Lexeme [m.char] (.mark m)

def Blank (c : Char) : Prop := c = ' ' ∨ c = '\t' ∨ c = '\n'

def Longest (w text : List Char) : Prop :=
  ∀ v u, Lexeme v u → v <+: text → v.length ≤ w.length

def Comment (text : List Char) : Prop := ['/', '/'] <+: text

/-- A line, its tokens, and the characters that belong to none. -/
inductive Lexes : List Char → List Token → List Char → Prop where
  | done : Lexes [] [] []
  | blank {c : Char} {cs : List Char} {ts : List Token} {strays : List Char}
      (blank : Blank c) (next : Lexes cs ts strays) : Lexes (c :: cs) ts strays
  | comment {text : List Char} (h : Comment text) : Lexes text [] []
  | token {text w rest : List Char} {t : Token} {ts : List Token} {strays : List Char}
      (split : text = w ++ rest) (lexeme : Lexeme w t) (longest : Longest w text)
      (code : ¬Comment text) (next : Lexes rest ts strays) : Lexes text (t :: ts) strays
  | stray {c : Char} {cs : List Char} {ts : List Token} {strays : List Char}
      (solid : ¬Blank c) (none : ∀ v u, Lexeme v u → ¬v <+: c :: cs)
      (next : Lexes cs ts strays) : Lexes (c :: cs) ts (c :: strays)

inductive Start where
  | name
  | digit
  | sign (s : Sign)
  | mark (m : Mark)
  | other
  deriving DecidableEq

def start (c : Char) : Start :=
  if opensName c then .name
  else if c.isDigit then .digit
  else match Sign.ofChar? c, Mark.ofChar? c with
    | some s, _ => .sign s
    | none, some m => .mark m
    | none, none => .other

theorem digitNoName {c : Char} (h : c.isDigit = true) : opensName c = false := by
  have range := digitRange h
  have letter : c.isAlpha = false := by
    refine Bool.eq_false_iff.mpr fun alpha => ?_
    have high : 65 ≤ c.toNat ∧ c.toNat ≤ 90 ∨ 97 ≤ c.toNat ∧ c.toNat ≤ 122 := by
      have ranges : (decide (65 ≤ c.val ∧ c.val ≤ 90) ||
          (decide (97 ≤ c.val) && decide (c.val ≤ 122))) = true := alpha
      simpa [UInt32.le_iff_toNat_le] using ranges
    omega
  have line : c ≠ '_' := by
    intro same
    subst same
    simp at range
  simp [opensName, letter, line]

theorem startName {c : Char} (h : opensName c = true) : start c = .name := by
  simp [start, h]

theorem startDigit {c : Char} (h : c.isDigit = true) : start c = .digit := by
  simp [start, digitNoName h, h]

theorem startMark (m : Mark) : start m.char = .mark m := by
  cases m <;> rfl

theorem nameReserved (k : Keyword) : isName k.word.toList = true := by
  cases k <;> decide +kernel

theorem ofWordReserved (k : Keyword) : Keyword.ofWord? k.word = some k := by
  cases k <;> decide +kernel

theorem tokenReserved (k : Keyword) :
    Token.word k.word.toList = ⟨.keyword k, k.word, .nil, .text ""⟩ := by
  simp [Token.word, ofWordReserved]

theorem tokenName {cs : List Char} (free : ∀ k : Keyword, k.word.toList ≠ cs) :
    Token.word cs = .identifier (String.ofList cs) := by
  have none : Keyword.ofWord? (String.ofList cs) = none := by
    refine List.find?_eq_none.mpr fun k _ same => ?_
    have spelled : k.word = String.ofList cs := by simpa using same
    exact free k (by rw [spelled, String.toList_ofList])
  simp [Token.word, Token.identifier, none]

theorem lexemeWord {cs : List Char} (name : isName cs = true) : Lexeme cs (.word cs) := by
  cases found : Keyword.ofWord? (String.ofList cs) with
  | some k =>
    have spelled : k.word = String.ofList cs := by simpa using List.find?_some found
    have same : cs = k.word.toList := by rw [spelled, String.toList_ofList]
    rw [same, tokenReserved]
    exact .reserved k
  | none =>
    have free : ∀ k : Keyword, k.word.toList ≠ cs := by
      intro k same
      rw [← same, String.ofList_toList, ofWordReserved] at found
      cases found
    rw [tokenName free]
    exact .name name free

inductive Opened (w : List Char) (t : Token) : Start → Prop where
  | name (name : isName w = true) (token : t = .word w) : Opened w t .name
  | whole (digits : Digits w) (token : t = numberToken w ⟨digitsValue w, 0⟩) : Opened w t .digit
  | fraction {ds fs : List Char} (split : w = ds ++ '.' :: fs) (whole : Digits ds)
      (fraction : Digits fs)
      (token : t = numberToken w ⟨digitsValue (ds ++ fs), -(fs.length : Int)⟩) : Opened w t .digit
  | sign {s : Sign} (u : Sign) (split : w = u.lexeme) (token : t = .sign u) : Opened w t (.sign s)
  | mark {m : Mark} (split : w = [m.char]) (token : t = .mark m) : Opened w t (.mark m)

theorem openedName {w : List Char} {t : Token} (name : isName w = true) (token : t = .word w) :
    ∃ c v, w = c :: v ∧ Opened w t (start c) := by
  cases w with
  | nil => cases name
  | cons c v =>
    have opens : opensName c = true := (Bool.and_eq_true_iff.mp name).1
    exact ⟨c, v, rfl, startName opens ▸ .name name token⟩

theorem Lexeme.opened {w : List Char} {t : Token} (h : Lexeme w t) :
    ∃ c v, w = c :: v ∧ Opened w t (start c) := by
  cases h with
  | reserved k => exact openedName (nameReserved k) (tokenReserved k).symm
  | name name free => exact openedName name (tokenName free).symm
  | whole digits =>
    cases w with
    | nil => exact absurd rfl digits.1
    | cons c v =>
      exact ⟨c, v, rfl, startDigit (digits.2 c (List.mem_cons_self ..)) ▸ .whole digits rfl⟩
  | @fraction ds fs whole fraction =>
    cases ds with
    | nil => exact absurd rfl whole.1
    | cons c v =>
      have digit := startDigit (whole.2 c (List.mem_cons_self ..))
      exact ⟨c, _, rfl, digit ▸ .fraction rfl whole fraction rfl⟩
  | sign s => cases s <;> exact ⟨_, _, rfl, .sign _ rfl rfl⟩
  | mark m => exact ⟨m.char, [], rfl, startMark m ▸ .mark rfl rfl⟩

theorem lexemeInjective {s u : Sign} (h : s.lexeme = u.lexeme) : s = u := by
  cases s <;> cases u <;> first | rfl | cases h

theorem pointUnique {ds fs ds' fs' : List Char} (h : Digits ds) (h' : Digits ds')
    (same : ds ++ '.' :: fs = ds' ++ '.' :: fs') : ds = ds' ∧ fs = fs' := by
  have whole := congrArg (List.takeWhile Char.isDigit) same
  have rest := congrArg (List.dropWhile Char.isDigit) same
  rw [takeDigits h, takeDigits h'] at whole
  rw [dropDigits h, dropDigits h'] at rest
  exact ⟨whole, (List.cons.inj rest).2⟩

theorem Opened.unique {w : List Char} {t u : Token} {first : Start} (h : Opened w t first)
    (h' : Opened w u first) : t = u := by
  cases h with
  | name _ token =>
    cases h' with
    | name _ token' => rw [token, token']
  | whole digits token =>
    cases h' with
    | whole _ token' => rw [token, token']
    | fraction split _ _ _ => exact absurd (by simp [split]) digits.noPoint
  | fraction split whole fraction token =>
    cases h' with
    | whole digits _ => exact absurd (by simp [split]) digits.noPoint
    | fraction split' whole' _ token' =>
      obtain ⟨rfl, rfl⟩ := pointUnique whole whole' (split.symm.trans split')
      rw [token, token']
  | sign _ split token =>
    cases h' with
    | sign _ split' token' =>
      cases lexemeInjective (split.symm.trans split')
      rw [token, token']
  | mark _ token =>
    cases h' with
    | mark _ token' => rw [token, token']

theorem Lexeme.unique {w : List Char} {t u : Token} (h : Lexeme w t) (h' : Lexeme w u) : t = u := by
  obtain ⟨_, _, rfl, opened⟩ := h.opened
  obtain ⟨_, _, same, opened'⟩ := h'.opened
  cases same
  exact opened.unique opened'

theorem Lexeme.openedAt {v text : List Char} {c : Char} {t : Token} (h : Lexeme v t)
    (fits : v <+: c :: text) : Opened v t (start c) := by
  obtain ⟨d, w, rfl, opened⟩ := h.opened
  obtain ⟨rfl, _⟩ := List.cons_prefix_cons.mp fits
  exact opened

theorem prefixWithin {p : Char → Bool} {v w rest : List Char} (all : ∀ c ∈ v, p c = true)
    (fits : v <+: w ++ rest) (stop : ∀ c ∈ rest.head?, p c = false) : v.length ≤ w.length := by
  induction w generalizing v with
  | nil =>
    cases v with
    | nil => exact Nat.le_refl _
    | cons c v =>
      cases rest with
      | nil => simp at fits
      | cons d rest =>
        obtain ⟨rfl, _⟩ := List.cons_prefix_cons.mp fits
        have yes := all c (List.mem_cons_self ..)
        rw [stop c rfl] at yes
        cases yes
  | cons d w ih =>
    cases v with
    | nil => exact Nat.zero_le _
    | cons c v =>
      have tail := (List.cons_prefix_cons.mp fits).2
      exact Nat.succ_le_succ (ih (fun x mem => all x (List.mem_cons_of_mem _ mem)) tail)

theorem isNameAll {w : List Char} (h : isName w = true) : ∀ c ∈ w, inName c = true := by
  cases w with
  | nil => simp
  | cons c w =>
    obtain ⟨opens, tail⟩ := Bool.and_eq_true_iff.mp h
    intro d mem
    cases mem with
    | head =>
      simp only [opensName, inName, Char.isAlphanum, Bool.or_eq_true] at opens ⊢
      exact opens.imp_left .inl
    | tail _ mem => exact List.all_eq_true.mp tail d mem

variable {w rest : List Char}

theorem longestName (name : isName w = true) (stop : ∀ c ∈ rest.head?, inName c = false) :
    Longest w (w ++ rest) := by
  intro v u lexeme fits
  cases w with
  | nil => cases name
  | cons c w =>
    have opened := lexeme.openedAt fits
    rw [startName (Bool.and_eq_true_iff.mp name).1] at opened
    cases opened with
    | name name' _ => exact prefixWithin (isNameAll name') fits stop

theorem digitsUpTo {ds more : List Char} (whole : Digits ds) (digits : Digits w)
    (stop : ∀ c ∈ rest.head?, c.isDigit = false) (same : ds ++ '.' :: more = w ++ rest) :
    rest = '.' :: more := by
  have le := prefixWithin whole.2 ⟨_, same⟩ stop
  have ge := prefixWithin digits.2 ⟨_, same.symm⟩ (by simp)
  exact (List.append_inj same (Nat.le_antisymm le ge)).2.symm

theorem longestWhole (digits : Digits w) (stop : ∀ c ∈ rest.head?, c.isDigit = false)
    (point : ∀ c cs, rest = '.' :: c :: cs → c.isDigit = false) : Longest w (w ++ rest) := by
  intro v u lexeme fits
  cases w with
  | nil => exact absurd rfl digits.1
  | cons c w =>
    have opened := lexeme.openedAt fits
    rw [startDigit (digits.2 c (List.mem_cons_self ..))] at opened
    cases opened with
    | whole digits' _ => exact prefixWithin digits'.2 fits stop
    | @fraction ds fs split whole fraction _ =>
      obtain ⟨more, text⟩ := fits
      rw [split, List.append_assoc] at text
      cases fs with
      | nil => exact absurd rfl fraction.1
      | cons d fs =>
        have digit := fraction.2 d (List.mem_cons_self ..)
        rw [point d _ (digitsUpTo whole digits stop text)] at digit
        cases digit

theorem longestFraction {ds fs : List Char} (whole : Digits ds)
    (stop : ∀ c ∈ rest.head?, c.isDigit = false) :
    Longest (ds ++ '.' :: fs) (ds ++ '.' :: fs ++ rest) := by
  intro v u lexeme fits
  rw [List.append_assoc] at fits
  cases ds with
  | nil => exact absurd rfl whole.1
  | cons c ds =>
    have opened := lexeme.openedAt fits
    rw [startDigit (whole.2 c (List.mem_cons_self ..))] at opened
    cases opened with
    | whole digits _ =>
      have le := prefixWithin digits.2 fits (by simp)
      rw [List.length_append]
      omega
    | fraction split whole' fraction' _ =>
      obtain ⟨more, text⟩ := fits
      rw [split, List.append_assoc] at text
      obtain ⟨rfl, after⟩ := pointUnique whole' whole text
      have le := prefixWithin fraction'.2 ⟨more, after⟩ stop
      simp only [split, List.length_append, List.length_cons]
      omega

theorem startSign (s : Sign) : ∃ c cs u, s.lexeme = c :: cs ∧ start c = .sign u := by
  cases s <;> exact ⟨_, _, _, rfl, rfl⟩

theorem joinOfPrefix {s u : Sign} (fits : u.lexeme <+: s.lexeme ++ rest) :
    u.lexeme.length ≤ s.lexeme.length ∨ rest.head? = some '=' ∧ s.join? .equal = some u := by
  cases rest with
  | nil => exact .inl (by simpa using fits.length_le)
  | cons c rest => cases s <;> cases u <;> simp_all [Sign.lexeme, Sign.join?, eq_comm (a := '=')]

theorem longestSign {s : Sign} (stop : rest.head? = some '=' → s.join? .equal = none) :
    Longest s.lexeme (s.lexeme ++ rest) := by
  intro v t lexeme fits
  obtain ⟨c, cs, first, head, starts⟩ := startSign s
  have opened : Opened v t (start c) := by
    rw [head] at fits
    exact lexeme.openedAt fits
  rw [starts] at opened
  cases opened with
  | sign u split _ =>
    rw [split] at fits ⊢
    cases joinOfPrefix fits with
    | inl le => exact le
    | inr joined =>
      have apart := stop joined.1
      rw [joined.2] at apart
      cases apart

theorem longestMark (m : Mark) : Longest [m.char] (m.char :: rest) := by
  intro v u lexeme fits
  have opened := lexeme.openedAt fits
  rw [startMark] at opened
  cases opened with
  | mark split _ => exact Nat.le_of_eq (congrArg List.length split)

theorem noLexeme {c : Char} (h : start c = .other) {v : List Char} {u : Token}
    (lexeme : Lexeme v u) : ¬v <+: c :: rest := by
  intro fits
  have opened := lexeme.openedAt fits
  rw [h] at opened
  cases opened

theorem startBlank {c : Char} (h : Blank c) : start c = .other := by
  rcases h with rfl | rfl | rfl <;> rfl

theorem Comment.slash {text : List Char} (h : Comment text) : ∃ cs, text = '/' :: cs := by
  obtain ⟨more, same⟩ := h
  exact ⟨'/' :: more, same.symm⟩

theorem Lexeme.noBlank {w rest cs : List Char} {c : Char} {t : Token} (h : Lexeme w t)
    (same : c :: cs = w ++ rest) : start c ≠ .other := by
  intro other
  exact noLexeme other h ⟨rest, same.symm⟩

variable {c : Char} {cs text : List Char} {t : Token} {ts : List Token} {strays : List Char}

theorem Lexes.afterBlank (h : Lexes (c :: cs) ts strays) (blank : Blank c) :
    Lexes cs ts strays := by
  cases h with
  | blank _ next => exact next
  | comment slashes =>
    obtain ⟨_, same⟩ := slashes.slash
    cases same
    simp [Blank] at blank
  | token split lexeme _ _ _ => exact absurd (startBlank blank) (lexeme.noBlank split)
  | stray solid _ _ => exact absurd blank solid

theorem Lexes.afterComment (h : Lexes text ts strays) (slashes : Comment text) :
    ts = [] ∧ strays = [] := by
  cases h with
  | done => exact ⟨rfl, rfl⟩
  | blank blank _ =>
    obtain ⟨_, same⟩ := slashes.slash
    cases same
    simp [Blank] at blank
  | comment _ => exact ⟨rfl, rfl⟩
  | token _ _ _ code _ => exact absurd slashes code
  | stray _ none _ =>
    obtain ⟨_, same⟩ := slashes.slash
    cases same
    exact absurd ⟨_, rfl⟩ (none ['/'] _ (.sign .slash))

theorem Lexes.afterToken (h : Lexes text ts strays) (split : text = w ++ rest) (lexeme : Lexeme w t)
    (longest : Longest w text) (code : ¬Comment text) :
    ∃ more, ts = t :: more ∧ Lexes rest more strays := by
  cases h with
  | done =>
    obtain ⟨_, _, rfl, _⟩ := lexeme.opened
    cases split
  | blank blank _ => exact absurd (startBlank blank) (lexeme.noBlank split)
  | comment slashes => exact absurd slashes code
  | @token _ w' rest' t' _ _ split' lexeme' longest' _ next =>
    have le := longest' w t lexeme ⟨rest, split.symm⟩
    have ge := longest w' t' lexeme' ⟨rest', split'.symm⟩
    obtain ⟨rfl, rfl⟩ := List.append_inj (split.symm.trans split') (Nat.le_antisymm le ge)
    cases lexeme.unique lexeme'
    exact ⟨_, rfl, next⟩
  | stray _ none _ => exact absurd ⟨rest, split.symm⟩ (none w t lexeme)

theorem Lexes.afterStray (h : Lexes (c :: cs) ts strays) (solid : ¬Blank c)
    (none : ∀ v u, Lexeme v u → ¬v <+: c :: cs) :
    ∃ more, strays = c :: more ∧ Lexes cs ts more := by
  cases h with
  | blank blank _ => exact absurd blank solid
  | comment slashes =>
    obtain ⟨_, same⟩ := slashes.slash
    cases same
    exact absurd ⟨_, rfl⟩ (none ['/'] _ (.sign .slash))
  | token split lexeme _ _ _ => exact absurd ⟨_, split.symm⟩ (none _ _ lexeme)
  | stray _ _ next => exact ⟨_, rfl, next⟩

theorem Lexes.unique {ts' : List Token} {strays' : List Char} (h : Lexes text ts strays)
    (h' : Lexes text ts' strays') : ts' = ts ∧ strays' = strays := by
  induction h generalizing ts' strays' with
  | done =>
    cases h' with
    | done => exact ⟨rfl, rfl⟩
    | comment _ => exact ⟨rfl, rfl⟩
    | token split lexeme _ _ _ =>
      obtain ⟨_, _, rfl, _⟩ := lexeme.opened
      cases split
  | blank blank _ ih => exact ih (h'.afterBlank blank)
  | comment slashes => exact h'.afterComment slashes
  | token split lexeme longest code _ ih =>
    obtain ⟨more, rfl, next⟩ := h'.afterToken split lexeme longest code
    obtain ⟨rfl, rfl⟩ := ih next
    exact ⟨rfl, rfl⟩
  | stray solid none _ ih =>
    obtain ⟨more, rfl, next⟩ := h'.afterStray solid none
    obtain ⟨rfl, rfl⟩ := ih next
    exact ⟨rfl, rfl⟩

theorem nameUpper (k : Keyword) : k.name = k.word.toUpper := by
  cases k <;> decide +kernel

theorem Lexes.upper (h : Lexes text ts strays) :
    ∀ t ∈ ts, ∀ k, t.kind = .keyword k → t.kind.name = t.lexeme.toUpper := by
  induction h with
  | done => simp
  | blank _ _ ih => exact ih
  | comment _ => simp
  | token _ lexeme _ _ _ ih =>
    intro u mem k kind
    cases mem with
    | tail _ mem => exact ih u mem k kind
    | head =>
      cases lexeme with
      | reserved k => exact nameUpper k
      | _ => cases kind
  | stray _ _ _ ih => exact ih

end Lox.Scan
