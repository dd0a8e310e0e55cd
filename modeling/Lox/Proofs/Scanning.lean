import Lox.Proofs.Sequence
import Lox.Scan

/-!
Scanned tokens. A reserved word is never an identifier, a token with the kind of a reserved word is
spelled as that word, and a number has the double that its numeral reads as. What a line adds to the
tokens and to the log depends on neither, and its end comes last.
-/

namespace Lox

structure Token.Lexical (t : Token) : Prop where
  free : t.kind = .identifier → Keyword.ofWord? t.lexeme = none
  spelled : ∀ k, t.kind = .keyword k → t.lexeme = k.word
  valued : t.kind = .number →
    ∃ x, Number.readDouble? (Scan.numeral t.lexeme.toList) = some x ∧ t.literal = .double x

structure Token.Inner (t : Token) : Prop where
  lexical : t.Lexical
  inside : t.kind ≠ .eof
  known : ∀ name, t.kind ≠ .other name

namespace Scan

theorem innerWord (cs : List Char) : (Token.word cs).Inner := by
  cases found : Keyword.ofWord? (String.ofList cs) with
  | none =>
    refine ⟨⟨fun _ => found, ?_, ?_⟩, ?_, ?_⟩
    all_goals simp [Token.word, found]
  | some k =>
    have spelled := List.find?_some found
    refine ⟨⟨by simp [Token.word, found], ?_, by simp [Token.word, found]⟩,
      by simp [Token.word, found], by simp [Token.word, found]⟩
    intro k' same
    have : k = k' := by simpa [Token.word, found] using same
    subst this
    exact (beq_iff_eq.mp spelled).symm

theorem lexicalOther {t : Token} (plain : t.kind ≠ .identifier) (word : ∀ k, t.kind ≠ .keyword k)
    (number : t.kind ≠ .number) : t.Lexical :=
  ⟨fun same => absurd same plain, fun k same => absurd same (word k), fun same => absurd same number⟩

theorem innerMark (m : Mark) : (Token.mark m).Inner :=
  ⟨lexicalOther (by simp [Token.mark]) (by simp [Token.mark]) (by simp [Token.mark]),
    by simp [Token.mark], by simp [Token.mark]⟩

theorem innerSign (t : Sign) : (Token.sign t).Inner :=
  ⟨lexicalOther (by simp [Token.sign]) (by simp [Token.sign]) (by simp [Token.sign]),
    by simp [Token.sign], by simp [Token.sign]⟩

theorem lexicalEnd : Token.eof.Lexical :=
  lexicalOther (by simp [Token.eof]) (by simp [Token.eof]) (by simp [Token.eof])

/- What the scanner is made of: it adds tokens of some sort and reports, and asks for nothing but the
pending token and the line. -/
inductive Plain (P : Token → Prop) : {α : Type} → M α → Prop where
  | pure {α : Type} (a : α) : Plain P (pure a)
  | throw {α : Type} (f : Fault) : Plain P (throw f : M α)
  | push {t : Token} (h : P t) : Plain P (push t)
  | report (e : LexicalError) : Plain P (report e)
  | pending (p : Pending) : Plain P (setPending p)
  | renumber (f : Int → Int) :
      Plain P (modify fun s => { s with line := f s.line, pending := .none })
  | look {α : Type} {f : State → M α}
      (same : ∀ s tokens log, f { s with tokens := tokens, log := log } = f s)
      (rest : ∀ s, Plain P (f s)) : Plain P (get >>= f)
  | bind {α β : Type} {x : M α} {f : α → M β} (first : Plain P x) (rest : ∀ a, Plain P (f a)) :
      Plain P (x >>= f)

theorem Plain.mono {P Q : Token → Prop} {α : Type} {x : M α} (h : Plain P x)
    (wider : ∀ t, P t → Q t) : Plain Q x := by
  induction h with
  | pure a => exact .pure a
  | throw f => exact .throw f
  | push h => exact .push (wider _ h)
  | report e => exact .report e
  | pending p => exact .pending p
  | renumber f => exact .renumber f
  | look same _ ih => exact .look same ih
  | bind _ _ first rest => exact .bind first rest

theorem plainNumber {kind : Kind} (sort : kind = .number ∨ kind = .string) (cs : List Char) :
    Plain Token.Inner (pushNumber kind cs) := by
  unfold pushNumber
  dsimp only
  split
  · exact .throw _
  · next x value =>
    have valued : Number.readDouble? (numeral (String.ofList (Numeric.of cs).lexeme).toList) = some x := by
      rw [String.toList_ofList, value]
    have inner : Token.Inner ⟨kind, String.ofList (Numeric.of cs).lexeme, .double x, .text ""⟩ := by
      rcases sort with rfl | rfl
      · exact ⟨⟨by simp, by simp, fun _ => ⟨x, valued, rfl⟩⟩, by simp, by simp⟩
      · exact ⟨lexicalOther (by simp) (by simp) (by simp), by simp, by simp⟩
    refine .bind (.push inner) ?_
    intro _
    split
    · exact .bind (.push (innerMark _)) fun _ => .renumber _
    · exact .renumber _

theorem plainSettle (c : Char) : Plain Token.Inner (settle c) := by
  refine .look (fun _ _ _ => rfl) fun s => ?_
  cases s.pending with
  | none => exact .pure _
  | sign t => exact .pure _
  | word w =>
    have rest : Plain Token.Inner (if (!isNameChar c) = true then do
        push (Token.word w.reverse); setPending .none else pure ()) := by
      split
      · exact .bind (.push (innerWord _)) fun _ => .pending _
      · exact .pure _
    dsimp only
    split
    · exact .bind (.throw _) fun _ => rest
    · exact rest
  | number n =>
    dsimp only
    split
    · exact plainNumber (by simp) _
    · exact .pure _
  | string lead body =>
    dsimp only
    split
    · exact plainNumber (by simp) _
    · exact .pure _

theorem plainFlush : Plain Token.Inner flushSign := by
  refine .look (fun _ _ _ => rfl) fun s => ?_
  cases s.pending with
  | sign t => exact .bind (.push (innerSign t)) fun _ => .pending _
  | _ => exact .pure _

theorem plainQuote : Plain Token.Inner feedQuote := by
  refine .look (fun _ _ _ => rfl) fun s => ?_
  cases s.pending with
  | string lead body =>
    exact .bind (.push ⟨lexicalOther (by simp) (by simp) (by simp), by simp, by simp⟩) fun _ => .pending _
  | _ => exact .pending _

theorem plainDigit (c : Char) : Plain Token.Inner (feedDigit c) := by
  refine .bind plainFlush fun _ => .look (fun _ _ _ => rfl) fun s => ?_
  cases s.pending with
  | _ => exact .pending _

theorem plainSign (t : Sign) : Plain Token.Inner (feedSign t) := by
  refine .look (fun _ _ _ => rfl) fun s => ?_
  cases s.pending with
  | sign u =>
    dsimp only
    split
    · exact .pending _
    · exact .bind (.push (innerSign u)) fun _ => .pending _
  | _ => exact .pending _

theorem plainOther (c : Char) : Plain Token.Inner (feedOther c) := by
  unfold feedOther
  split
  · exact plainSign _
  · exact .bind plainFlush fun _ => .push (innerMark _)
  · have name : Plain Token.Inner (do flushSign; setPending (.word [c])) :=
      .bind plainFlush fun _ => .pending _
    have stray : Plain Token.Inner
        (do report (.unexpected (← get).line (String.singleton c)); flushSign) :=
      .look (fun _ _ _ => rfl) fun _ => .bind (.report _) fun _ => plainFlush
    split <;> dsimp only <;> split
    · exact .bind (.throw _) fun _ => name
    · exact name
    · exact .bind (.throw _) fun _ => stray
    · exact stray

theorem plainFeed (c : Char) : Plain Token.Inner (feed c) := by
  refine .bind (plainSettle c) fun _ => .look (fun _ _ _ => rfl) fun s => ?_
  cases s.pending with
  | word w => exact .bind (.pending _) fun _ => .pure _
  | number n => exact .bind (plainDigit c) fun _ => .pure _
  | string lead body =>
    unfold feedBehind
    dsimp only
    split
    · exact .bind plainQuote fun _ => .pure _
    · exact .bind (.pending _) fun _ => .pure _
  | none | sign t =>
    unfold feedBehind
    dsimp only
    split
    · exact .bind plainQuote fun _ => .pure _
    · split
      · exact .bind (plainDigit c) fun _ => .pure _
      · split
        · exact .bind plainFlush fun _ => .pure _
        · split
          · exact .bind (.pending _) fun _ => .pure _
          · exact .bind (plainOther c) fun _ => .pure _

theorem plainFeedAll (cs : List Char) : Plain Token.Inner (feedAll cs) := by
  induction cs with
  | nil => exact .pure _
  | cons c cs ih =>
    refine .bind (plainFeed c) fun more => ?_
    split
    · exact ih
    · exact .pure _

theorem plainLeave : Plain Token.Inner leave := by
  refine .look (fun _ _ _ => rfl) fun s => ?_
  cases s.pending with
  | none => exact .pending _
  | word w => exact .bind (.push (innerWord _)) fun _ => .pending _
  | number n => exact .bind (plainNumber (by simp) _) fun _ => .pending _
  | string lead body => exact .bind (.report _) fun _ => .pending _
  | sign t => exact .bind (.push (innerSign t)) fun _ => .pending _

def toEnd (text : List Char) : M Unit := do
  feedAll text
  finish

theorem toEndCons (c : Char) (cs : List Char) (s : State) : toEnd (c :: cs) s = match feed c s with
    | .ok true s' => toEnd cs s'
    | .ok false s' => finish s'
    | .error e s' => .error e s' := by
  unfold toEnd
  rw [bindRun, feedAll, bindRun]
  cases feed c s with
  | error e s' => rfl
  | ok more s' => cases more <;> rfl

def inside (text : List Char) : M Unit := do
  feedAll text
  leave

theorem toEndParts (text : List Char) : toEnd text = (do inside text; push .eof) := by
  unfold toEnd inside
  rw [bind_assoc]
  rfl

theorem plainInside (cs : List Char) : Plain Token.Inner (inside cs) :=
  .bind (plainFeedAll cs) fun _ => plainLeave

theorem plainToEnd (cs : List Char) : Plain Token.Lexical (toEnd cs) := by
  rw [toEndParts]
  exact .bind ((plainInside cs).mono fun _ inner => inner.lexical) fun _ => .push lexicalEnd

variable {P : Token → Prop}

theorem Plain.all {α : Type} {x : M α} (h : Plain P x) : Keeps (fun s => ∀ t ∈ s.tokens, P t) x := by
  induction h with
  | pure a => exact keepsPure a
  | throw f => exact keepsThrow f
  | push sort =>
    intro s all u mem
    rcases Array.mem_push.mp mem with old | rfl
    · exact all u old
    · exact sort
  | report e => exact fun _ all => all
  | pending p => exact fun _ all => all
  | renumber f => exact fun _ all => all
  | look _ _ ih => exact keepsGet.bind ih
  | bind _ _ first rest => exact first.bind rest

def Lexed (s : State) : Prop := ∀ t ∈ s.tokens, t.Lexical

theorem Plain.lexed {α : Type} {x : M α} (h : Plain Token.Lexical x) : Keeps Lexed x := h.all

def Logged (s : State) : Prop := ∃ es : List LexicalError, s.log = es.map .lexical

theorem Plain.logged {α : Type} {x : M α} (h : Plain P x) : Keeps Logged x := by
  induction h with
  | pure a => exact keepsPure a
  | throw f => exact keepsThrow f
  | push _ => exact fun _ logged => logged
  | report e =>
    rintro s ⟨es, same⟩
    refine ⟨es ++ [e], ?_⟩
    show s.log ++ [.lexical e] = _
    simp [same]
  | pending p => exact fun _ logged => logged
  | renumber f => exact fun _ logged => logged
  | look _ _ ih => exact keepsGet.bind ih
  | bind _ _ first rest => exact first.bind rest

def State.after (tokens : Array Token) (log : Log) (s : State) : State :=
  { s with tokens := tokens ++ s.tokens, log := log ++ s.log }

theorem Plain.commutes {α : Type} {x : M α} (h : Plain P x) (tokens : Array Token) (log : Log) :
    Commutes (State.after tokens log) x := by
  induction h with
  | pure a => exact commutesPure a
  | throw f => exact commutesThrow f
  | push _ => exact commutesModify fun s => by simp [State.after]
  | report e => exact commutesModify fun s => by simp [State.after]
  | pending p => exact commutesModify fun _ => rfl
  | renumber f => exact commutesModify fun _ => rfl
  | look same _ ih => exact commutesGet (fun s => same s _ _) ih
  | bind _ _ first rest => exact first.bind rest

theorem dropEndSubset {tokens : Array Token} {t : Token} (mem : t ∈ dropEnd tokens) : t ∈ tokens := by
  unfold dropEnd at mem
  split at mem
  · have kept : t ∈ tokens.toList.dropLast := by simpa [Array.mem_def] using mem
    exact Array.mem_def.mpr (List.dropLast_subset _ kept)
  · exact mem

theorem lineRun (cs : List Char) (i : Int) (tokens : Array Token) (log : Log) (p : Pending) :
    line cs ⟨i, tokens, log, p⟩ =
      onState (State.after (dropEnd tokens) log) (toEnd cs ⟨i, #[], [], .none⟩) := by
  rw [← (plainToEnd cs).commutes]
  show toEnd cs ⟨i, dropEnd tokens, log, .none⟩ = _
  simp [State.after]

theorem lexedLine (cs : List Char) : Keeps Lexed (line cs) := by
  intro s lexed
  have kept : ∀ t ∈ dropEnd s.tokens, t.Lexical := fun t mem => lexed t (dropEndSubset mem)
  exact (plainToEnd cs).lexed ⟨s.line, dropEnd s.tokens, s.log, .none⟩ kept

theorem toEndLast {cs : List Char} {s s' : State} (h : toEnd cs s = .ok () s') :
    ∃ tokens : Array Token, s'.tokens = tokens.push .eof := by
  rw [toEndParts] at h
  obtain ⟨_, t, -, last⟩ := bindOk.mp h
  cases last
  exact ⟨t.tokens, rfl⟩

theorem dropEndClosed {tokens : Array Token} {ts : List Token} (h : tokens.toList = ts ++ [.eof]) :
    (dropEnd tokens).toList = ts := by
  obtain ⟨list⟩ := tokens
  cases h
  simp [dropEnd, Token.eof]

theorem lineAdds {cs : List Char} {i : Int} {tokens : Array Token} {log : Log} {s : State}
    (h : line cs ⟨i, tokens, log, .none⟩ = .ok () s) :
    ∃ (new : List Token) (es : List LexicalError),
      s.tokens.toList = (dropEnd tokens).toList ++ (new ++ [.eof]) ∧
      ∀ log', ∃ p j, line cs ⟨i, tokens, log', .none⟩ = .ok () ⟨j, s.tokens, log' ++ es.map .lexical, p⟩ := by
  rw [lineRun] at h
  cases run : toEnd cs ⟨i, #[], [], .none⟩ with
  | error e t =>
    rw [run] at h
    cases h
  | ok _ t =>
    rw [run] at h
    cases h
    obtain ⟨new, closed⟩ := toEndLast run
    have logged := (plainToEnd cs).logged ⟨i, #[], [], .none⟩ ⟨[], rfl⟩
    rw [run] at logged
    obtain ⟨es, same⟩ := logged
    refine ⟨new.toList, es, by simp [State.after, closed], fun log' => ⟨t.pending, t.line, ?_⟩⟩
    rw [lineRun, run]
    have same : t.log = es.map .lexical := same
    simp [onState, State.after, same]

end Scan
end Lox
