import Lox.Proofs.Locality
import Lox.Proofs.Positions

/-!
Whether parsing ends. Over scanned tokens there are two cases: the parser comes to the end, with a
number of reports that the number of tokens bounds; or it reports without end, at one token that no
declaration can begin with.
-/

namespace Lox

def Kind.blocking : List Kind :=
  [.rightParen, .rightBrace, .comma, .keyword .else_, .keyword .none_]

theorem Token.Inner.blocking {t : Token} (inner : t.Inner) (blocks : t.kind.blocks = true) :
    t.kind ∈ Kind.blocking := by
  have inside := inner.inside
  have known := inner.known
  unfold Kind.blocks at blocks
  split at blocks <;> simp_all [Kind.blocking]

theorem Cursor.At.inside {c : Cursor} {todo ts : List Token} {t last : Token}
    (tokens : c.tokens.toList = (todo ++ [last]).map some) (at' : c.At (t :: ts)) (more : ts ≠ []) :
    t ∈ todo := by
  obtain ⟨i, -, drop⟩ := at'
  rw [tokens, ← List.map_drop] at drop
  have rest := (List.map_inj_right fun _ _ => Option.some.inj).mp drop
  have short : i ≤ todo.length := by
    have length := congrArg List.length rest
    simp only [List.length_drop, List.length_append, List.length_cons, List.length_nil] at length
    omega
  rw [List.drop_append_of_le_length short] at rest
  cases found : todo.drop i with
  | nil =>
    rw [found] at rest
    cases rest
    exact absurd rfl more
  | cons u us =>
    rw [found] at rest
    cases rest
    exact List.mem_of_mem_drop (found ▸ List.mem_cons_self)

namespace Parse

variable {c c' : Cursor} {todo : List Token} {last : Token} {body : List Stmt} {limit : Nat}

theorem programSteady (at' : c.At (todo ++ [last])) (eof : last.kind = .eof) :
    Steady program c todo.length :=
  steadyOf at' eof fun le enough => (paysProgram le (by omega)).sound

theorem paidProgram (limit : Nat) (at' : c.At (todo ++ [last])) (eof : last.kind = .eof) :
    Paid (credit 16 0 0) (credit 16 1 0) (program (c.limited limit).budget) (c.limited limit) todo
      (run program (c.limited limit)) := by
  have enough := budgetWeight (c := c.limited limit) at'
  rw [runAt]
  exact paysProgram (Nat.le_refl _) (by omega) (c.limited limit) todo last at' eof (Nat.le_refl _)

theorem programEnds (at' : c.At (todo ++ [last])) (eof : last.kind = .eof)
    (ran : run program (c.limited limit) = .ok body c') :
    c'.errors ≤ c.errors + 16 * todo.length ∧ c'.index + 1 = c.tokens.size := by
  have paid := paidProgram limit at' eof
  rw [ran] at paid
  obtain ⟨read, left, e, split, spent, -, cost, -⟩ := paid
  have length : todo.length = read.length + left.length := by rw [split, List.length_append]
  have errors : c'.errors = c.errors + e := spent.errors
  have tokens : c'.tokens = c.tokens := by rw [spent.onward.rest]; rfl
  refine ⟨?_, ?_⟩
  · unfold credit at cost
    omega
  · have atEnd := unfinishedEnds ran
    rw [tokens] at atEnd
    exact beq_iff_eq.mp atEnd

theorem programStops (at' : c.At (todo ++ [last])) (eof : last.kind = .eof)
    (never : ∀ body c', run program (c.limited limit) ≠ .ok body c') :
    ∃ c', run program (c.limited limit) = .error .errorLimit c' ∧ limit ≤ c'.errors ∧
      c'.tokens = c.tokens ∧ (c.errors + 16 * todo.length + 1 < limit → c'.Blocked) := by
  have paid := paidProgram limit at' eof
  cases ran : run program (c.limited limit) with
  | ok b d => exact absurd ran (never b d)
  | error s c' =>
    rw [ran] at paid
    obtain ⟨read, left, e, split, spent, -, cost, rfl, full, -⟩ := paid
    have tokens : c'.tokens = c.tokens := by rw [spent.onward.rest]; rfl
    refine ⟨c', rfl, full, tokens, fun many => cost.resolve_left fun cost => ?_⟩
    have length : todo.length = read.length + left.length := by rw [split, List.length_append]
    have errors : c'.errors = c.errors + e := spent.errors
    have full : limit ≤ c'.errors := full
    unfold credit at cost
    omega

theorem blockedNeverEnds {t : Token} (at' : c.At (t :: todo ++ [last])) (eof : last.kind = .eof)
    (blocks : t.kind.blocks = true) : run program (c.limited limit) ≠ .ok body c' := by
  have go : unended t (todo ++ [last]) = true := by simp [unended]
  have stuck := stuckDeclarations (c := c.limited limit) looksUnfinished
    (n := (c.limited limit).budget) (j := (c.limited limit).budget) at' eof blocks go
  intro ran
  rw [runAt, program] at ran
  rw [ran] at stuck
  exact stuck

end Parse

namespace Session

variable {s s' : Session} {i : Int} {l : List Char} {ls : List (List Char)}

theorem scanLinesClosed (h : scanLines i (l :: ls) s = .ok () s') :
    ∃ new, s'.tokens.toList = s.front ++ (new ++ [.eof]) := by
  obtain ⟨_, s₁, first, rest⟩ := bindOk.mp h
  obtain ⟨new₁, -, tokens₁, -⟩ := scanLineAdds first
  obtain ⟨-, tokens₂, -⟩ := scanLinesAdds rest
  rcases tokens₂ with same | ⟨new₂, tokens₂⟩
  · exact ⟨new₁, same ▸ tokens₁⟩
  · have front₁ : s₁.front = s.front ++ new₁ :=
      Scan.dropEndClosed (tokens₁.trans (List.append_assoc ..).symm)
    exact ⟨new₁ ++ new₂, by rw [tokens₂, front₁]; simp⟩

theorem Holds.scanLines {ts : List Token} (h : Holds ts s)
    (run : Session.scanLines i ls s = .ok () s') : ∃ ts', Holds ts' s' := by
  induction ls generalizing i s ts with
  | nil =>
    cases run
    exact ⟨ts, h⟩
  | cons l ls ih =>
    obtain ⟨_, s₁, first, rest⟩ := bindOk.mp run
    have next := h.scan i l
    rw [first] at next
    exact ih next rest

theorem scannedCursor {setting : Setting}
    (scanned : scanLines 0 (l :: ls) (fresh setting) = .ok () s) :
    ∃ todo, s.cursor.tokens.toList = (todo ++ [.eof]).map some ∧ (∀ t ∈ todo, t.Inner) ∧
      s.cursor.At (todo ++ [.eof]) ∧ s.cursor.errors = 0 := by
  obtain ⟨todo, tokens⟩ := scanLinesClosed scanned
  obtain ⟨es, -, same⟩ := scanLinesAdds scanned
  have whole : s = { fresh setting with tokens := s.tokens, log := es.map .lexical } := by
    have both := scanned.symm.trans (same (fresh setting) rfl)
    simpa [fresh] using both
  have list : s.tokens.toList = todo ++ [.eof] := tokens
  have inner : ∀ t ∈ todo, t.Inner := by
    obtain ⟨ts, holds⟩ := (holdsNew (s := fresh setting) rfl).scanLines scanned
    rw [← Scan.dropEndClosed list, show (Scan.dropEnd s.tokens).toList = ts from holds.front]
    exact holds.inner
  refine ⟨todo, by simp [cursor, list], inner, ⟨0, by rw [whole]; rfl, ?_⟩, ?_⟩
  · simp [cursor, list]
  · have none : Log.parse (es.map .lexical) = [] := viewNone (by intro _; rfl) es
    rw [whole]
    show (Log.parse (es.map .lexical)).length = 0
    rw [none]
    rfl

/-- The limit stops a parser that would report for ever. Where parsing ends the result does not
depend on it; where it does not, every limit is filled. -/
theorem parsingEndsUnlessBlocked {setting : Setting}
    (scanned : scanLines 0 (l :: ls) (fresh setting) = .ok () s) :
    (∃ body, ∃ c : Cursor, c.errors ≤ 16 * s.tokens.size ∧ c.index + 1 = s.tokens.size ∧
      ∀ limit, c.errors < limit →
        Parse.run Parse.program (s.cursor.limited limit) = .ok body (c.limited limit)) ∨
    ∀ limit, ∃ c, Parse.run Parse.program (s.cursor.limited limit) = .error .errorLimit c ∧
      limit ≤ c.errors ∧ c.tokens = s.cursor.tokens ∧
      (16 * s.tokens.size < limit →
        ∃ t ts, c.At (t :: ts) ∧ ts ≠ [] ∧ t.kind ∈ Kind.blocking) := by
  obtain ⟨todo, list, inner, at', none⟩ := scannedCursor scanned
  have width : s.cursor.tokens.size = s.tokens.size := Array.size_map ..
  have size : s.tokens.size = todo.length + 1 := by
    rw [← width, ← Array.length_toList, list]
    simp
  by_cases ends : ∃ limit body c, Parse.run Parse.program (s.cursor.limited limit) = .ok body c
  · obtain ⟨limit, body, c, ran⟩ := ends
    obtain ⟨bound, index⟩ := Parse.programEnds at' rfl ran
    refine .inl ⟨body, c, by omega, by rw [index, width], fun limit' free => ?_⟩
    exact (Parse.programSteady at' rfl).agrees ran (.inr free)
  · refine .inr fun limit => ?_
    obtain ⟨c, ran, full, tokens, blocked⟩ := Parse.programStops at' rfl
      fun body c ran => ends ⟨limit, body, c, ran⟩
    refine ⟨c, ran, full, tokens, fun many => ?_⟩
    obtain ⟨t, ts, there, more, blocks⟩ := blocked (by omega)
    have mem : t ∈ todo := there.inside (tokens ▸ list) more
    exact ⟨t, ts, there, more, (inner t mem).blocking blocks⟩

def brokenLines : List (List Char) := [['v', 'a', 'r', ' ', '=', '('], ['f', 'u', 'n', ';']]

theorem parsingEndsUnlessBlocked_broken :
    ∃ s, scanLines 0 brokenLines (fresh {}) = .ok () s ∧
      ((∃ body, ∃ c : Cursor, c.errors ≤ 16 * s.tokens.size ∧ c.index + 1 = s.tokens.size ∧
        ∀ limit, c.errors < limit →
          Parse.run Parse.program (s.cursor.limited limit) = .ok body (c.limited limit)) ∨
      ∀ limit, ∃ c, Parse.run Parse.program (s.cursor.limited limit) = .error .errorLimit c ∧
        limit ≤ c.errors ∧ c.tokens = s.cursor.tokens ∧
        (16 * s.tokens.size < limit →
          ∃ t ts, c.At (t :: ts) ∧ ts ≠ [] ∧ t.kind ∈ Kind.blocking)) := by
  have scanned : scanLines 0 brokenLines (fresh {}) = .ok () { fresh {} with
      tokens := #[.keyword .var_, .sign .equal, .mark .leftParen, .keyword .fun_, .mark .semicolon,
        .eof] } := rfl
  exact ⟨_, scanned, parsingEndsUnlessBlocked scanned⟩

/-- A closing parenthesis alone is reported without end. -/
theorem loneParenReportsForEver :
    ∃ s, scanLines 0 [[')']] (fresh {}) = .ok () s ∧
      ∀ limit, ∃ c, Parse.run Parse.program (s.cursor.limited limit) = .error .errorLimit c ∧
        limit ≤ c.errors := by
  have scanned : scanLines 0 [[')']] (fresh {}) = .ok () { fresh {} with
      tokens := #[.mark .rightParen, .eof] } := rfl
  have at' : Cursor.At (cursor { fresh {} with tokens := #[.mark .rightParen, .eof] })
      (.mark .rightParen :: [] ++ [.eof]) := ⟨0, rfl, by simp [cursor]⟩
  refine ⟨_, scanned, fun limit => ?_⟩
  have never : ∀ body c, Parse.run Parse.program (Cursor.limited _ limit) ≠ .ok body c :=
    fun _ _ => Parse.blockedNeverEnds at' rfl rfl
  obtain ⟨c, ran, full, -⟩ := Parse.programStops at' rfl never
  exact ⟨c, ran, full⟩

end Session
end Lox
