import Lox.Proofs.Parsing.Parts
import Lox.Proofs.Positions

/-!
Lines that one parser is given one after the other. A line is read as it would be by a parser that
is given nothing else, until an expression has stood alone: from then on only the first declaration of
a line is read, and it is taken for an expression.
-/

namespace Lox

namespace Cursor

def fresh (limit : Nat) (ts : List Token) : Cursor where
  tokens := ((ts ++ [Token.eof]).map some).toArray
  limit := limit

def given (c : Cursor) (ts : List Token) : Cursor :=
  { c with tokens := c.tokens.pop ++ ((ts ++ [Token.eof]).map some).toArray }

def Done (c : Cursor) : Prop := c.index = c.tokens.pop.size

def past (c : Cursor) : Cursor := { c with tokens := c.tokens.pop }

theorem givenAfter {c : Cursor} (done : c.Done) (room : c.errors ≤ c.limit) (ts : List Token) :
    { c.given ts with allowLone := true } =
      c.past.after ((fresh c.limit ts).limited (c.limit - c.errors)) := by
  have limit : c.past.errors + (c.limit - c.errors) = c.limit := Nat.add_sub_of_le room
  have index : c.index = c.tokens.pop.size := done
  unfold after
  show _ = Cursor.mk _ _ (c.past.errors + (c.limit - c.errors)) _ _ _ _
  rw [limit]
  simp [given, past, limited, fresh, index]

theorem doneAfter (d : Cursor) {c : Cursor} (low : 0 ≤ c.index)
    (ends : c.index + 1 = c.tokens.size) : (d.after c).Done := by
  show (d.tokens.size : Int) + c.index = (d.tokens ++ c.tokens).pop.size
  rw [Array.size_pop, Array.size_append]
  omega

theorem freshAt (limit : Nat) (ts : List Token) : (fresh limit ts).At (ts ++ [.eof]) :=
  ⟨0, rfl, by simp [fresh]⟩

end Cursor

namespace Parse

section

variable {p : Parse Stmt} {c c' x x' d : Cursor} {n : Nat} {done : List Stmt} {t : Tree}

theorem lineLoopEnd (ends : (c.index + 1 == (c.tokens.size : Int)) = true) :
    lineLoop p (n + 1) done c = .ok (.program done) c := by
  rw [lineLoop.eq_def]
  dsimp only
  rw [bindRun, isAtEndRun, ends]
  rfl

theorem lineLoopOk (more : (c.index + 1 == (c.tokens.size : Int)) = false) :
    lineLoop p (n + 1) done c = .ok t c' ↔ ∃ s c₁, p c = .ok s c₁ ∧
      (c₁.foundLone = true ∧ t = loneTree s ∧ c' = c₁ ∨
        c₁.foundLone = false ∧
          lineLoop p n (done ++ [s]) { c₁ with allowLone := false } = .ok t c') := by
  rw [lineLoop.eq_def]
  dsimp only
  rw [bindRun, isAtEndRun, more]
  simp only [Bool.false_eq_true, ↓reduceIte]
  rw [bindOk]
  refine exists_congr fun s => exists_congr fun c₁ => and_congr_right fun _ => ?_
  rw [getBind]
  cases lone : c₁.foundLone with
  | true => cases s <;> simp [loneTree, eq_comm]
  | false =>
    simp only [Bool.false_eq_true, ↓reduceIte, false_and, false_or, true_and]
    rw [bindRun, modifyRun, lone]

theorem lineLoopCases (run : lineLoop p n done c = .ok t c') :
    ∃ m, n = m + 1 ∧
      ((c.index + 1 == (c.tokens.size : Int)) = true ∧ t = .program done ∧ c' = c ∨
        (c.index + 1 == (c.tokens.size : Int)) = false ∧ ∃ s c₁, p c = .ok s c₁ ∧
          (c₁.foundLone = true ∧ t = loneTree s ∧ c' = c₁ ∨
            c₁.foundLone = false ∧
              lineLoop p m (done ++ [s]) { c₁ with allowLone := false } = .ok t c')) := by
  cases n with
  | zero => cases run
  | succ n =>
    refine ⟨n, rfl, ?_⟩
    cases ends : c.index + 1 == (c.tokens.size : Int) with
    | true =>
      rw [lineLoopEnd ends] at run
      cases run
      exact .inl ⟨rfl, rfl, rfl⟩
    | false => exact .inr ⟨rfl, (lineLoopOk ends).mp run⟩

section

variable (built : Built p)

include built

theorem lineLoopShifts (none : d.foundLone = false) (low : 0 ≤ x.index)
    (run : lineLoop p n done x = .ok t x') :
    lineLoop p n done (d.after x) = .ok t (d.after x') := by
  have same := d.afterEnd x
  induction n generalizing x done with
  | zero => cases run
  | succ n ih =>
    obtain ⟨_, ⟨⟩, ⟨ends, rfl, rfl⟩ | ⟨more, s, x₁, first, rest⟩⟩ := lineLoopCases run
    · exact lineLoopEnd (same.trans ends)
    · have kept := built.ahead x low
      have shifted := built.shifts d low
      rw [first] at kept shifted
      refine (lineLoopOk (same.trans more)).mpr ⟨s, d.after x₁, shifted, ?_⟩
      have lone : (d.after x₁).foundLone = x₁.foundLone := by simp [Cursor.after, none]
      rcases rest with ⟨found, rfl, rfl⟩ | ⟨not, rest⟩
      · exact .inl ⟨lone.trans found, rfl, rfl⟩
      · refine .inr ⟨lone.trans not, ?_⟩
        exact ih (x := { x₁ with allowLone := false }) kept rest (d.afterEnd _)

theorem lineLoopPlain (none : x.allowLone = false ∧ x.foundLone = false)
    (run : lineLoop p n done x = .ok t x') :
    x'.foundLone = false ∧ (∃ body, t = .program body) ∧ x'.index + 1 = x'.tokens.size := by
  induction n generalizing x done with
  | zero => cases run
  | succ n ih =>
    obtain ⟨_, ⟨⟩, ⟨ends, rfl, rfl⟩ | ⟨more, s, x₁, first, rest⟩⟩ := lineLoopCases run
    · exact ⟨none.2, ⟨done, rfl⟩, beq_iff_eq.mp ends⟩
    · have kept := built.findsNone x none
      rw [first] at kept
      rcases rest with ⟨found, -⟩ | ⟨not, rest⟩
      · exact absurd (kept.2.symm.trans found) Bool.false_ne_true
      · exact ih (x := { x₁ with allowLone := false }) ⟨rfl, not⟩ rest

theorem lineLoopLast (none : x.foundLone = false) (run : lineLoop p n done x = .ok t x') :
    x'.index + 1 = x'.tokens.size := by
  obtain ⟨m, -, ⟨ends, -, rfl⟩ | ⟨more, s, x₁, first, rest⟩⟩ := lineLoopCases run
  · exact beq_iff_eq.mp ends
  · rcases rest with ⟨found, -, rfl⟩ | ⟨not, rest⟩
    · have last := built.findsLast x fun lone => absurd (none.symm.trans lone) Bool.false_ne_true
      rw [first] at last
      exact last found
    · exact (lineLoopPlain built (x := { x₁ with allowLone := false }) ⟨rfl, not⟩ rest).2.2

theorem lineLoopStays (low : 0 ≤ x.index) (run : lineLoop p n done x = .ok t x')
    (stays : x.index + 1 = x.tokens.size ∨ x'.foundLone = true) :
    lineLoop p n done (d.after x) = .ok t (d.after x') := by
  have same := d.afterEnd x
  obtain ⟨m, rfl, ⟨ends, rfl, rfl⟩ | ⟨more, s, x₁, first, rest⟩⟩ := lineLoopCases run
  · exact lineLoopEnd (same.trans ends)
  · have shifted := built.shifts d low
    rw [first] at shifted
    refine (lineLoopOk (same.trans more)).mpr ⟨s, d.after x₁, shifted, .inl ?_⟩
    rcases rest with ⟨found, rfl, rfl⟩ | ⟨not, rest⟩
    · exact ⟨by simp [Cursor.after, found], rfl, rfl⟩
    · have plain := lineLoopPlain built (x := { x₁ with allowLone := false }) ⟨rfl, not⟩ rest
      rcases stays with last | lone
      · exact absurd (beq_iff_eq.mpr last) (Bool.eq_false_iff.mp more)
      · exact absurd (plain.1.symm.trans lone) Bool.false_ne_true

theorem lineLoopStrays (low : 0 ≤ x.index) (run : lineLoop p n done x = .ok t x')
    (found : d.foundLone = true) (some : x.index + 1 ≠ x.tokens.size) (not : x'.foundLone = false) :
    lineLoop p n done (d.after x) ≠ .ok t c := by
  obtain ⟨m, rfl, ⟨ends, -⟩ | ⟨more, s, x₁, first, rest⟩⟩ := lineLoopCases run
  · exact absurd (beq_iff_eq.mp ends) some
  · have shifted := built.shifts d low
    rw [first] at shifted
    intro other
    obtain ⟨s', c₁, first', rest'⟩ := (lineLoopOk ((d.afterEnd x).trans more)).mp other
    cases shifted.symm.trans first'
    have lone : (d.after x₁).foundLone = true := by simp [Cursor.after, found]
    rcases rest with ⟨here, -, rfl⟩ | ⟨none, rest⟩
    · exact absurd (not.symm.trans here) Bool.false_ne_true
    · obtain ⟨-, ⟨body, rfl⟩, -⟩ :=
        lineLoopPlain built (x := { x₁ with allowLone := false }) ⟨rfl, none⟩ rest
      rcases rest' with ⟨-, tree, -⟩ | ⟨none, -⟩
      · cases s <;> cases tree
      · exact absurd (none.symm.trans lone) Bool.false_ne_true

end

end

structure Alone (limit : Nat) where
  tokens : List Token
  tree : Tree
  last : Cursor
  parsed : run typedLine (.fresh limit tokens) = .ok tree last

def Alone.of? (limit : Nat) (ts : List Token) : Option (Alone limit) :=
  match parsed : run typedLine (.fresh limit ts) with
  | .ok tree last => some ⟨ts, tree, last, parsed⟩
  | .error .. => none

def typedLines : List (List Token) → Parse (List Tree)
  | [] => return []
  | ts :: lines => do
    modify (·.given ts)
    let t ← run typedLine
    return t :: (← typedLines lines)

namespace Alone

variable {limit : Nat} (line : Alone limit)

/-- Whether a lone expression was found, be it the whole line or the end of a statement in it. -/
def lone : Bool := line.last.foundLone

def errors : Nat := line.last.errors

def Stays : Prop := line.tokens = [] ∨ line.lone = true

instance : Decidable line.Stays := inferInstanceAs (Decidable (_ ∨ _))

theorem parsedIn {n free : Nat} (enough : (Cursor.fresh limit line.tokens).budget ≤ n)
    (room : line.errors < free) :
    lineLoop (declaration n) n [] ((Cursor.fresh limit line.tokens).limited free) =
      .ok line.tree (line.last.limited free) := by
  have at' := Cursor.freshAt limit line.tokens
  have weight := budgetWeight at'
  have sound := soundLineLoop enough (by omega) enough (by omega) [] _ _ _ at' rfl (Nat.le_refl _)
  have parsed : lineLoop _ _ [] (Cursor.fresh limit line.tokens) = _ := line.parsed
  rw [parsed] at sound
  exact sound.2.2 free (.inr room)

theorem ends : line.last.index + 1 = line.last.tokens.size :=
  lineLoopLast (stmtsBuilt _).declaration rfl line.parsed

theorem ahead : 0 ≤ line.last.index := by
  have at' := Cursor.freshAt limit line.tokens
  have weight := budgetWeight at'
  have sound := soundTypedLine (n := (Cursor.fresh limit line.tokens).budget) (Nat.le_refl _)
    (by omega) _ _ _ at' rfl (Nat.le_refl _)
  rw [show typedLine _ _ = _ from line.parsed] at sound
  exact sound.1.after

theorem freshEnds : (Cursor.fresh limit line.tokens).index + 1 =
    (Cursor.fresh limit line.tokens).tokens.size ↔ line.tokens = [] := by
  have size := (Cursor.freshAt limit line.tokens).size (by simp)
  rw [List.length_append, List.length_singleton] at size
  rw [← List.length_eq_zero_iff]
  omega

section

variable {c : Cursor} (line : Alone c.limit) (done : c.Done) (room : c.errors + line.errors < c.limit)

include done room

theorem givenRun :
    run typedLine (c.given line.tokens) =
        lineLoop (declaration (c.given line.tokens).budget) (c.given line.tokens).budget []
          (c.past.after ((Cursor.fresh c.limit line.tokens).limited (c.limit - c.errors))) ∧
      lineLoop (declaration (c.given line.tokens).budget) (c.given line.tokens).budget []
          ((Cursor.fresh c.limit line.tokens).limited (c.limit - c.errors)) =
        .ok line.tree (line.last.limited (c.limit - c.errors)) := by
  have steps : (Cursor.fresh c.limit line.tokens).budget ≤ (c.given line.tokens).budget := by
    simp only [Cursor.budget, Cursor.fresh, Cursor.given, Array.size_append, List.size_toArray]
    omega
  refine ⟨?_, line.parsedIn steps (by omega)⟩
  rw [← Cursor.givenAfter done (by omega)]
  rfl

theorem reads (stays : c.foundLone = true → line.Stays) :
    ∃ c', run typedLine (c.given line.tokens) = .ok line.tree c' ∧ c'.Done ∧ c'.limit = c.limit ∧
      c'.errors = c.errors + line.errors ∧ c'.foundLone = (c.foundLone || line.lone) := by
  obtain ⟨behind, own⟩ := line.givenRun done room
  have built := (stmtsBuilt (c.given line.tokens).budget).declaration
  refine ⟨c.past.after (line.last.limited (c.limit - c.errors)), ?_, ?_, ?_, c.past.afterErrors _, rfl⟩
  · rw [behind]
    cases found : c.foundLone with
    | false => exact lineLoopShifts built (d := c.past) found (Int.le_refl 0) own
    | true =>
      refine lineLoopStays built (Int.le_refl 0) own ((stays found).imp_left fun none => ?_)
      exact (line.freshEnds).mpr none
  · exact c.past.doneAfter line.ahead line.ends
  · show c.errors + (c.limit - c.errors) = c.limit
    omega

theorem strays (found : c.foundLone = true) (other : ¬line.Stays) (c' : Cursor) :
    run typedLine (c.given line.tokens) ≠ .ok line.tree c' := by
  obtain ⟨behind, own⟩ := line.givenRun done room
  have built := (stmtsBuilt (c.given line.tokens).budget).declaration
  obtain ⟨some, not⟩ := not_or.mp other
  rw [behind]
  exact lineLoopStrays built (Int.le_refl 0) own (d := c.past) found
    (fun ends => some (line.freshEnds.mp ends)) (Bool.eq_false_iff.mpr not)

end

end Alone

def reports {limit : Nat} : List (Alone limit) → Nat
  | [] => 0
  | line :: lines => line.errors + reports lines

theorem typedLinesCons {ts : List Token} {lines : List (List Token)} {t : Tree} {trees : List Tree}
    {c c' : Cursor} :
    typedLines (ts :: lines) c = .ok (t :: trees) c' ↔
      ∃ c₁, run typedLine (c.given ts) = .ok t c₁ ∧ typedLines lines c₁ = .ok trees c' := by
  constructor
  · intro all
    obtain ⟨_, _, given, rest⟩ := bindOk.mp all
    cases given
    obtain ⟨_, c₁, first, rest⟩ := bindOk.mp rest
    obtain ⟨_, _, others, last⟩ := bindOk.mp rest
    cases last
    exact ⟨c₁, first, others⟩
  · rintro ⟨c₁, first, others⟩
    refine bindOk.mpr ⟨⟨⟩, _, rfl, bindOk.mpr ⟨t, c₁, first, ?_⟩⟩
    exact bindOk.mpr ⟨trees, c', others, rfl⟩

/- The trees of lines in turn are those of the lines alone exactly if every line behind one with a
lone expression is empty or has one, too. -/
theorem typedLinesAlone {limit : Nat} (lines : List (Alone limit)) {c : Cursor}
    (same : c.limit = limit) (done : c.Done)
    (room : c.errors + reports lines < limit) :
    (∃ c', typedLines (lines.map (·.tokens)) c = .ok (lines.map (·.tree)) c') ↔
      (c.foundLone = true → ∀ line ∈ lines, line.Stays) ∧
        lines.Pairwise fun a b => a.lone = true → b.Stays := by
  induction lines generalizing c with
  | nil => simp [typedLines]
  | cons line lines ih =>
    subst same
    have room : c.errors + (line.errors + reports lines) < c.limit := room
    simp only [List.map_cons, typedLinesCons]
    rw [List.pairwise_cons]
    by_cases stays : c.foundLone = true → line.Stays
    · obtain ⟨c₁, first, done₁, limit₁, errors₁, lone₁⟩ := line.reads done (by omega) stays
      have rest := ih limit₁ done₁ (by omega)
      rw [lone₁, Bool.or_eq_true] at rest
      constructor
      · rintro ⟨c', c₂, again, others⟩
        cases first.symm.trans again
        obtain ⟨all, pairs⟩ := rest.mp ⟨c', others⟩
        refine ⟨fun found l mem => ?_, fun l mem lone => all (.inr lone) l mem, pairs⟩
        rcases List.mem_cons.mp mem with rfl | mem
        · exact stays found
        · exact all (.inl found) l mem
      · rintro ⟨all, next, pairs⟩
        have others : c.foundLone = true ∨ line.lone = true → ∀ l ∈ lines, l.Stays := by
          rintro (found | lone) l mem
          · exact all found l (List.mem_cons_of_mem _ mem)
          · exact next l mem lone
        obtain ⟨c', others⟩ := rest.mpr ⟨others, pairs⟩
        exact ⟨c', c₁, first, others⟩
    · obtain ⟨found, other⟩ := Classical.not_imp.mp stays
      refine ⟨?_, fun both => absurd (both.1 · line List.mem_cons_self) stays⟩
      rintro ⟨c', c₁, first, -⟩
      exact absurd first (line.strays done (by omega) found other c₁)

end Parse
end Lox
