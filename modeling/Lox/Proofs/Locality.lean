import Lox.Proofs.Lexing.Reports
import Lox.Proofs.Lineages
import Lox.Proofs.Turns

/-!
Lines are scanned one by one. Whatever lines a scanner is given, and however each call ends, its
tokens are those of each line alone, one line after the other, with the end in the last place or
nowhere. What a session does between the calls makes no difference.
-/

namespace Lox

namespace Scan

variable {ts : List Token}

def withoutEnd (ts : List Token) : List Token := ts.filter fun t => t.kind != .eof

def endCount (ts : List Token) : Nat := ts.countP fun t => t.kind == .eof

theorem withoutEndInner (inner : ∀ t ∈ ts, t.Inner) : withoutEnd ts = ts := by
  refine List.filter_eq_self.mpr fun t mem => ?_
  simpa using (inner t mem).inside

theorem withoutEndClosed (inner : ∀ t ∈ ts, t.Inner) : withoutEnd (ts ++ [.eof]) = ts := by
  unfold withoutEnd
  rw [List.filter_append]
  exact (List.append_nil _).trans (withoutEndInner inner)

theorem endCountAppend (ts us : List Token) : endCount (ts ++ us) = endCount ts + endCount us :=
  List.countP_append

theorem endCountInner (inner : ∀ t ∈ ts, t.Inner) : endCount ts = 0 := by
  refine List.countP_eq_zero.mpr fun t mem => ?_
  simpa using (inner t mem).inside

theorem dropEndInner {tokens : Array Token} (inner : ∀ t ∈ tokens, t.Inner) :
    dropEnd tokens = tokens := by
  refine if_neg fun last => ?_
  obtain ⟨t, back, eof⟩ := (Option.any_eq_true ..).mp last
  exact (inner t (Array.mem_of_back? back)).inside (beq_iff_eq.mp eof)

def innerOf (text : List Char) : List Token := withoutEnd (tokensOf text)

theorem insideInner (text : List Char) (i : Int) :
    ∀ t ∈ (final (inside text ⟨i, #[], [], .none⟩)).tokens.toList, t.Inner := by
  intro t mem
  exact (plainInside text).all ⟨i, #[], [], .none⟩ (by simp) t (Array.mem_def.mpr mem)

theorem insideTokens (text : List Char) (i : Int) :
    (final (inside text ⟨i, #[], [], .none⟩)).tokens.toList = innerOf text := by
  have inner := insideInner text i
  have tokens := tokensAnywhere i text
  rw [toEndParts, bindRun] at tokens
  unfold innerOf
  rw [← tokens]
  cases run : inside text ⟨i, #[], [], .none⟩ with
  | ok _ s =>
    rw [run] at inner
    show s.tokens.toList = withoutEnd (s.tokens.push .eof).toList
    rw [Array.toList_push]
    exact (withoutEndClosed inner).symm
  | error f s =>
    rw [run] at inner
    exact (withoutEndInner inner).symm

theorem innerOfInner (text : List Char) : ∀ t ∈ innerOf text, t.Inner := by
  rw [← insideTokens text 0]
  exact insideInner text 0

end Scan

namespace Session

open Scan (tokensOf innerOf withoutEnd endCount)

variable {s s' : Session} {ts : List Token} {acts : List Act}

theorem scanLineTokens (number : Int) (text : List Char) (s : Session) :
    (final (scanLine number text s)).tokens.toList = s.front ++ tokensOf text := by
  have own := Scan.tokensAnywhere number text
  unfold scanLine
  rw [Scan.lineRun]
  cases run : Scan.toEnd text ⟨number, #[], [], .none⟩ <;> rw [run] at own <;> rw [← own]
  all_goals exact Array.toList_append

theorem scanLineCases (number : Int) (text : List Char) (s : Session) :
    (∃ s', scanLine number text s = .ok () s' ∧
      s'.tokens.toList = s.front ++ innerOf text ++ [.eof]) ∨
    ∃ f s', scanLine number text s = .error f s' ∧ s'.tokens.toList = s.front ++ innerOf text := by
  have own := Scan.insideTokens text number
  unfold scanLine
  rw [Scan.lineRun, Scan.toEndParts, bindRun]
  cases run : Scan.inside text ⟨number, #[], [], .none⟩ with
  | ok _ t =>
    rw [run] at own
    refine .inl ⟨_, rfl, ?_⟩
    show (Scan.dropEnd s.tokens ++ t.tokens.push .eof).toList = _
    rw [Array.toList_append, Array.toList_push, ← List.append_assoc, ← own]
    rfl
  | error f t =>
    rw [run] at own
    refine .inr ⟨.fault f, _, rfl, ?_⟩
    show (Scan.dropEnd s.tokens ++ t.tokens).toList = _
    rw [Array.toList_append, ← own]
    rfl

theorem scanLineClosed {number : Int} {text : List Char}
    (run : scanLine number text s = .ok () s') :
    s'.tokens.toList = s.front ++ innerOf text ++ [.eof] := by
  rcases scanLineCases number text s with ⟨t, same, closed⟩ | ⟨f, t, same, -⟩
  · cases run.symm.trans same
    exact closed
  · cases run.symm.trans same

structure Holds (ts : List Token) (s : Session) : Prop where
  inner : ∀ t ∈ ts, t.Inner
  tokens : s.tokens.toList = ts ∨ s.tokens.toList = ts ++ [.eof]

theorem holdsNew (new : s.tokens = #[]) : Holds [] s := ⟨by simp, .inl (by rw [new])⟩

theorem Holds.front (h : Holds ts s) : s.front = ts := by
  rcases h.tokens with same | closed
  · have inner : ∀ t ∈ s.tokens, t.Inner := fun t mem => h.inner t (same ▸ Array.mem_def.mp mem)
    unfold Session.front
    rw [Scan.dropEndInner inner, same]
  · exact Scan.dropEndClosed closed

theorem Holds.scan (h : Holds ts s) (number : Int) (text : List Char) :
    Holds (ts ++ innerOf text) (final (scanLine number text s)) := by
  refine ⟨fun t mem => ?_, ?_⟩
  · exact (List.mem_append.mp mem).elim (h.inner t) (Scan.innerOfInner text t)
  · rw [← h.front]
    rcases scanLineCases number text s with ⟨s', run, closed⟩ | ⟨f, s', run, broken⟩
    · rw [run]
      exact .inr closed
    · rw [run]
      exact .inl broken

def Act.text? : Act → Option (List Char)
  | .scan _ text => some text
  | _ => none

def ScansAll (s : Session) (acts : List Act) : Prop :=
  ∀ before number text later, acts = before ++ .scan number text :: later →
    ∃ s', scanLine number text (s.after before) = .ok () s'

theorem afterSnoc (s : Session) (acts : List Act) (a : Act) :
    s.after (acts ++ [a]) = (s.after acts).act a :=
  List.foldl_append ..

theorem actTokens {a : Act} (none : a.text? = none) (same : a ≠ .renew) :
    (s.act a).tokens = s.tokens := by
  have parsed : ∀ {α : Type} (p : Parse α) (f : α → Tree),
      (final ((parsing p >>= fun t => load (f t)) s)).tokens = s.tokens := by
    intro α p f
    rw [bindRun]
    unfold parsing
    dsimp only
    cases p s.cursor <;> rfl
  cases a with
  | scan number text => cases none
  | parse => exact parsed _ .program
  | parseTyped => exact parsed _ id
  | resolve =>
    show (final (Session.resolve s)).tokens = _
    unfold Session.resolve
    dsimp only
    cases Resolve.tree s.tree { s.resolver with log := s.log } <;> rfl
  | interpret =>
    show (final (Session.interpret s)).tokens = _
    rw [interpretIs, concludedTokens]
  | renew => exact absurd rfl same

theorem Holds.after (h : Holds ts s) (one : .renew ∉ acts) :
    Holds (ts ++ (acts.filterMap Act.text?).flatMap innerOf) (s.after acts) := by
  -- from the end: the last act is a call, or it leaves the tokens alone
  induction acts using List.reverseRecOn with
  | nil => exact (List.append_nil ts).symm ▸ h
  | append_singleton acts a ih =>
    rw [List.mem_append, not_or, List.mem_singleton] at one
    have before := ih one.1
    rw [afterSnoc, List.filterMap_append, List.flatMap_append, ← List.append_assoc]
    cases given : a.text? with
    | none =>
      have tokens := actTokens (s := s.after acts) given (Ne.symm one.2)
      refine ⟨by simpa [given] using before.inner, ?_⟩
      rw [tokens]
      simpa [given] using before.tokens
    | some text =>
      cases a with
      | scan number text =>
        have step : Holds _ ((s.after acts).act (.scan number text)) := before.scan number text
        simpa [Act.text?] using step
      | _ => cases given

theorem ScansAll.closed (all : s.ScansAll acts) (one : .renew ∉ acts)
    (some : acts.filterMap Act.text? ≠ []) : .eof ∈ (s.after acts).tokens.toList := by
  induction acts using List.reverseRecOn with
  | nil => exact absurd rfl some
  | append_singleton acts a ih =>
    rw [List.mem_append, not_or, List.mem_singleton] at one
    rw [afterSnoc]
    cases given : a.text? with
    | none =>
      have earlier : s.ScansAll acts := fun before number text later same =>
        all before number text (later ++ [a]) (by simp [same])
      rw [actTokens given (Ne.symm one.2)]
      exact ih earlier one.1 (by simpa [given] using some)
    | some text =>
      cases a with
      | scan number text =>
        obtain ⟨s', run⟩ := all acts number text [] rfl
        show .eof ∈ (final (scanLine number text (s.after acts))).tokens.toList
        rw [run]
        show .eof ∈ s'.tokens.toList
        rw [scanLineClosed run]
        simp
      | _ => cases given

theorem Holds.last (h : Holds ts s) {i : Nat} {t : Token} (at' : s.tokens[i]? = some t)
    (eof : t.kind = .eof) : i + 1 = s.tokens.size := by
  rw [← Array.getElem?_toList] at at'
  rw [← Array.length_toList]
  rcases h.tokens with same | closed
  · rw [same] at at'
    exact absurd eof (h.inner t (List.mem_of_getElem? at')).inside
  · rw [closed] at at' ⊢
    by_cases early : i < ts.length
    · rw [List.getElem?_append_left early] at at'
      exact absurd eof (h.inner t (List.mem_of_getElem? at')).inside
    · obtain ⟨bound, -⟩ := List.getElem?_eq_some_iff.mp at'
      simp only [List.length_append, List.length_singleton] at bound ⊢
      omega

theorem Holds.free (h : Holds ts s) {t : Token} (mem : t ∈ s.tokens) (name : t.kind = .identifier)
    (k : Keyword) : t.lexeme ≠ k.word := by
  have listed := Array.mem_def.mp mem
  have lexical : t.Lexical := by
    rcases h.tokens with same | closed
    · exact (h.inner t (same ▸ listed)).lexical
    · rw [closed] at listed
      rcases List.mem_append.mp listed with early | last
      · exact (h.inner t early).lexical
      · exact List.mem_singleton.mp last ▸ Scan.lexicalEnd
  intro same
  have free := lexical.free name
  rw [same, Scan.ofWordReserved] at free
  cases free

theorem Holds.joined (h : Holds ts s) : withoutEnd s.tokens.toList = ts := by
  rcases h.tokens with same | closed
  · rw [same, Scan.withoutEndInner h.inner]
  · rw [closed, Scan.withoutEndClosed h.inner]

theorem Holds.closed (h : Holds ts s) (mem : .eof ∈ s.tokens.toList) :
    s.tokens.toList = ts ++ [.eof] := by
  rcases h.tokens with same | closed
  · rw [same] at mem
    exact absurd rfl (h.inner _ mem).inside
  · exact closed

theorem Holds.counts (h : Holds ts s) (number : Int) (text : List Char) :
    endCount (final (scanLine number text s)).tokens.toList = 1 ↔
      ∃ s', scanLine number text s = .ok () s' := by
  have none : endCount (s.front ++ innerOf text) = 0 := by
    rw [h.front]
    exact Scan.endCountInner (h.scan number text).inner
  rcases scanLineCases number text s with ⟨s', run, closed⟩ | ⟨f, s', run, broken⟩
  · rw [run]
    refine ⟨fun _ => ⟨s', rfl⟩, fun _ => ?_⟩
    show endCount s'.tokens.toList = 1
    rw [closed, Scan.endCountAppend, none]
    rfl
  · rw [run]
    refine ⟨fun one => ?_, fun ⟨_, same⟩ => by cases same⟩
    have one : endCount s'.tokens.toList = 1 := one
    rw [broken, none] at one
    cases one

theorem Holds.outcome (h : Holds ts s) (number : Int) (text : List Char) :
    (∃ s', scanLine number text s = .ok () s') ↔ endCount (tokensOf text) = 1 := by
  rw [← h.counts, scanLineTokens, Scan.endCountAppend, h.front, Scan.endCountInner h.inner,
    Nat.zero_add]

theorem Holds.scansAll (h : Holds ts s) (one : .renew ∉ acts)
    (each : ∀ text ∈ acts.filterMap Act.text?, endCount (tokensOf text) = 1) : s.ScansAll acts := by
  rintro before number text later rfl
  have before := h.after fun mem => one (List.mem_append_left _ mem)
  exact (before.outcome number text).mpr (each text (by simp [Act.text?]))

/-- One scanner, whose calls may be made among other acts and may fail. The end is the last of its
tokens or none of them, and it is there exactly if the last call has ended normally; a reserved word
is never an identifier; and the tokens are those of each line alone, one line after the other. -/
theorem scanningIsLineLocal {s₀ : Session} (new : s₀.tokens = #[]) {acts : List Act}
    (one : .renew ∉ acts) :
    let s := s₀.after acts
    let texts := acts.filterMap Act.text?
    (∀ i t, s.tokens[i]? = some t → t.kind = .eof → i + 1 = s.tokens.size) ∧
      (∀ number text, endCount (final (scanLine number text s)).tokens.toList = 1 ↔
        ∃ s', scanLine number text s = .ok () s') ∧
      (∀ t ∈ s.tokens, t.kind = .identifier → ∀ k : Keyword, t.lexeme ≠ k.word) ∧
      withoutEnd s.tokens.toList = texts.flatMap innerOf ∧
      (texts ≠ [] → s₀.ScansAll acts → s.tokens.toList = texts.flatMap innerOf ++ [.eof]) ∧
      ∀ number text (s₁ : Session), s₁.tokens = #[] →
        (final (scanLine number text s₁)).tokens.toList = tokensOf text ∧
        ∀ number', (∃ s', scanLine number text s₁ = .ok () s') ↔
          ∃ s', scanLine number' text s = .ok () s' := by
  have holds := (holdsNew new).after one
  refine ⟨fun i t => holds.last, holds.counts, fun t => holds.free, holds.joined, ?_, ?_⟩
  · intro some all
    exact holds.closed (all.closed one some)
  · intro number text s₁ none
    have alone := holdsNew none
    refine ⟨?_, fun number' => (alone.outcome ..).trans (holds.outcome ..).symm⟩
    rw [scanLineTokens, alone.front, List.nil_append]

def partedLines : List Act := [.scan 0 "print a".toList, .scan 1 "or b;".toList, .parse]

def brokenText : List Char := "var c \"d.e.f\"".toList

theorem scanningIsLineLocal_broken :
    let s := (fresh {}).after partedLines
    let s' := (fresh {}).after (partedLines ++ [.scan 2 brokenText, .scan 3 "or".toList])
    let words (ws : List String) : List Token := ws.map fun w => .word w.toList
    (fresh {}).ScansAll partedLines ∧
      s.tokens.toList = words ["print", "a", "or", "b"] ++ [.mark .semicolon, .eof] ∧
      (¬∃ t, scanLine 2 brokenText s = .ok () t) ∧
      withoutEnd s'.tokens.toList =
        words ["print", "a", "or", "b"] ++ .mark .semicolon :: words ["var", "c", "or"] := by
  have new : (fresh {}).tokens = #[] := rfl
  have one : .renew ∉ partedLines := by simp [partedLines]
  have all : (fresh {}).ScansAll partedLines := by
    have each : (partedLines.filterMap Act.text?).all (fun text => endCount (tokensOf text) == 1) :=
      by decide +kernel
    refine (holdsNew new).scansAll one fun text mem => ?_
    exact beq_iff_eq.mp (List.all_eq_true.mp each text mem)
  have parted := scanningIsLineLocal new one
  have broken := scanningIsLineLocal new
    (show .renew ∉ partedLines ++ [.scan 2 brokenText, .scan 3 "or".toList] by simp [one])
  refine ⟨all, ?_, ?_, ?_⟩
  · exact (parted.2.2.2.2.1 (by simp [partedLines, Act.text?]) all).trans (by decide +kernel)
  · rw [← parted.2.1]
    decide +kernel
  · exact broken.2.2.2.1.trans (by decide +kernel)

end Session
end Lox
