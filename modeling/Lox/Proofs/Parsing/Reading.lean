import Lox.Parsing.Statement
import Lox.Proofs.Parsing.Cursors

/-!
Parsers over a list of tokens to come: which of them a parser reads, and how it goes on before the
others.
-/

namespace Lox

namespace Cursor

def At (c : Cursor) (ts : List Token) : Prop :=
  ∃ i : Nat, c.index = i ∧ c.tokens.toList.drop i = ts.map some

def moved (c : Cursor) (k : Nat) : Cursor := { c with index := c.index + k }

@[simp] theorem movedZero (c : Cursor) : c.moved 0 = c := by
  simp [moved]

theorem movedMoved (c : Cursor) (j k : Nat) : (c.moved j).moved k = c.moved (j + k) := by
  simp [moved, Int.add_assoc]

namespace At

variable {c : Cursor} {t u : Token} {ts us : List Token}

theorem size (h : c.At ts) (some : ts ≠ []) : (c.tokens.size : Int) = c.index + ts.length := by
  obtain ⟨i, index, drop⟩ := h
  have length := congrArg List.length drop
  have positive : 0 < ts.length := List.length_pos_iff.mpr some
  simp only [List.length_drop, Array.length_toList, List.length_map] at length
  omega

theorem here (h : c.At (t :: ts)) : c.here = some (some t) := by
  have size := h.size (by simp)
  obtain ⟨i, index, drop⟩ := h
  have inside : cell? c.tokens.size c.index = some i := by
    unfold cell?
    rw [if_pos]
    · simp [index]
    · simp only [List.length_cons] at size
      simp only [Bool.and_eq_true, decide_eq_true_eq]
      omega
  have found : c.tokens.toList[i]? = some (some t) := by
    rw [← List.head?_drop, drop]
    rfl
  unfold Cursor.here
  rw [inside, Option.bind_some, ← Array.getElem?_toList, found]

theorem next (h : c.At (t :: ts)) (more : ts ≠ []) : c.next = c.moved 1 := by
  have size := h.size (by simp)
  have positive : 0 < ts.length := List.length_pos_iff.mpr more
  unfold Cursor.next moved
  rw [if_neg]
  · rfl
  · simp only [List.length_cons] at size
    simp only [beq_iff_eq]
    omega

theorem moved (h : c.At (ts ++ us)) : (c.moved ts.length).At us := by
  obtain ⟨i, index, drop⟩ := h
  refine ⟨i + ts.length, by simp [Cursor.moved, index], ?_⟩
  show c.tokens.toList.drop (i + ts.length) = us.map some
  rw [← List.drop_drop, drop, List.map_append, List.drop_left' (List.length_map _)]

theorem atEnd (h : c.At ts) (some : ts ≠ []) :
    (c.index + 1 == (c.tokens.size : Int)) = (ts.length == 1) := by
  rw [h.size some, Bool.eq_iff_iff, beq_iff_eq, beq_iff_eq]
  omega

end At
end Cursor

def Starts (ts : List Token) (k : Kind) : Prop :=
  ∃ t us, ts = t :: us ∧ t.kind = k

theorem Starts.append {ts : List Token} {k : Kind} (h : Starts ts k) (us : List Token) :
    Starts (ts ++ us) k := by
  obtain ⟨t, rest, rfl, same⟩ := h
  exact ⟨t, rest ++ us, rfl, same⟩

theorem Starts.some {ts : List Token} {k : Kind} (h : Starts ts k) : ts ≠ [] := by
  obtain ⟨t, us, rfl, -⟩ := h
  simp

theorem startsCons (t : Token) (ts : List Token) : Starts (t :: ts) t.kind := ⟨t, ts, rfl, rfl⟩

namespace Parse

variable {α β : Type}

/-- With the tokens `ts ++ rest` to come, `p` reads `ts` and goes on as `q` does. -/
def Reads (p : Parse α) (ts : List Token) (q : Parse α) (rest : List Token) : Prop :=
  ∀ c, c.At (ts ++ rest) → p c = q (c.moved ts.length)

variable {p q : Parse α} {f : α → Parse β} {r : Parse β} {a : α} {t : Token}
  {ts us rest : List Token} {k : Kind}

theorem readsSelf (p : Parse α) : Reads p [] p rest := by
  intro c _
  simp

theorem Reads.trans {q' : Parse α} (first : Reads p ts q (us ++ rest)) (second : Reads q us q' rest) :
    Reads p (ts ++ us) q' rest := by
  intro c at'
  rw [List.append_assoc] at at'
  rw [first c at', second _ at'.moved, Cursor.movedMoved, List.length_append]

theorem Reads.bind (first : Reads p ts (pure a) (us ++ rest)) (second : Reads (f a) us r rest) :
    Reads (p >>= f) (ts ++ us) r rest := by
  intro c at'
  rw [List.append_assoc] at at'
  rw [bindRun, first c at', pureRun]
  dsimp only
  rw [second _ at'.moved, Cursor.movedMoved, List.length_append]

theorem Reads.within (first : Reads p ts q rest) (f : α → Parse β) :
    Reads (p >>= f) ts (q >>= f) rest := by
  intro c at'
  rw [bindRun, bindRun, first c at']

theorem Reads.token (first : Reads p [t] (pure a) (us ++ rest)) (second : Reads (f a) us r rest) :
    Reads (p >>= f) (t :: us) r rest := first.bind second

theorem Reads.look (first : Reads p [] (pure a) (us ++ rest)) (second : Reads (f a) us r rest) :
    Reads (p >>= f) us r rest := first.bind second

theorem Reads.last (first : Reads p ts (pure a) rest) (second : Reads (f a) [] r rest) :
    Reads (p >>= f) ts r rest := by
  rw [← List.append_nil ts]
  exact first.bind second

theorem Reads.ends {q' : Parse α} (first : Reads p ts q rest) (second : Reads q [] q' rest) :
    Reads p ts q' rest := by
  rw [← List.append_nil ts]
  exact first.trans second

theorem readsAdvance (more : rest ≠ []) : Reads advance [t] (pure ()) rest := by
  intro c at'
  rw [advanceRun, Cursor.At.next at' more]
  rfl

theorem readsTake (more : rest ≠ []) : Reads take [t] (pure (some t)) rest := by
  intro c at'
  rw [takeRun, Cursor.At.here at', Cursor.At.next at' more]
  rfl

theorem readsCurrent (some : rest ≠ []) : Reads current [] (pure rest.head?) rest := by
  obtain ⟨t, us, rfl⟩ := List.exists_cons_of_ne_nil some
  intro c at'
  rw [currentRun, Cursor.At.here at']
  simp

theorem readsKind (h : Starts rest k) : Reads kind [] (pure k) rest := by
  obtain ⟨t, us, rfl, rfl⟩ := h
  intro c at'
  rw [kindRun, Cursor.look, Cursor.At.here at']
  simp

theorem readsCheck (h : Starts rest k) (k' : Kind) : Reads (check k') [] (pure (k == k')) rest := by
  obtain ⟨t, us, rfl, rfl⟩ := h
  intro c at'
  rw [checkRun, Cursor.look, Cursor.At.here at']
  simp

theorem readsCheckAny (h : Starts rest k) (ks : List Kind) :
    Reads (checkAny ks) [] (pure (ks.contains k)) rest := by
  obtain ⟨t, us, rfl, rfl⟩ := h
  intro c at'
  rw [checkAnyRun, Cursor.look, Cursor.At.here at']
  simp

theorem readsSkip (same : t.kind = k) (more : rest ≠ []) : Reads (skip k) [t] (pure true) rest := by
  intro c at'
  rw [skipRun, Cursor.look, Cursor.At.here at', Cursor.At.next at' more]
  dsimp only
  rw [if_pos same]
  rfl

theorem readsSkipNot {k' : Kind} (h : Starts rest k) (other : k ≠ k') :
    Reads (skip k') [] (pure false) rest := by
  obtain ⟨t, us, rfl, rfl⟩ := h
  intro c at'
  rw [skipRun, Cursor.look, Cursor.At.here at']
  dsimp only
  rw [if_neg other]
  simp

theorem readsExpect (same : t.kind = k) (more : rest ≠ []) (message : String) :
    Reads (expect k message) [t] (pure (some t)) rest := by
  intro c at'
  rw [expectRun, Cursor.look, Cursor.At.here at', Cursor.At.next at' more]
  dsimp only
  rw [if_pos same]
  rfl

theorem readsMark (m : Mark) (more : rest ≠ []) (message : String) :
    Reads (expect (.mark m) message) [.mark m] (pure (some (.mark m))) rest :=
  readsExpect rfl more message

theorem readsIsAtEnd (some : rest ≠ []) : Reads isAtEnd [] (pure (rest.length == 1)) rest := by
  intro c at'
  rw [isAtEndRun, Cursor.At.atEnd at' some]
  simp

theorem Reads.given {no : Parse α} (same : t.kind = k) (more : us ++ rest ≠ [])
    (h : Reads p us q rest) : Reads (do if ← skip k then p else no) (t :: us) q rest :=
  (readsSkip same more).token h

theorem Reads.otherwise {yes : Parse α} {k' : Kind} (h : Starts (ts ++ rest) k) (other : k ≠ k')
    (given : Reads p ts q rest) : Reads (do if ← skip k' then yes else p) ts q rest :=
  (readsSkipNot h other).look given

theorem readsWhileNone {cond : Parse Bool} {n : Nat} (stop : Reads cond [] (pure false) rest) :
    Reads (whileM (n + 1) cond p) [] (pure []) rest :=
  stop.look (readsSelf _)

theorem readsWhileSome {cond : Parse Bool} {n : Nat} {as : List α}
    (go : Reads cond [] (pure true) (ts ++ (us ++ rest))) (one : Reads p ts (pure a) (us ++ rest))
    (later : Reads (whileM n cond p) us (pure as) rest) :
    Reads (whileM (n + 1) cond p) (ts ++ us) (pure (a :: as)) rest := by
  rw [← List.append_assoc] at go
  exact go.look (one.bind (later.last (readsSelf _)))

theorem readsWhileSkip {n : Nat} {as : List α} (same : t.kind = k) (one : Reads p ts (pure a) (us ++ rest))
    (more : rest ≠ []) (later : Reads (whileM n (skip k) p) us (pure as) rest) :
    Reads (whileM (n + 1) (skip k) p) (t :: (ts ++ us)) (pure (a :: as)) rest :=
  (readsSkip same (by simp [more])).token (one.bind (later.last (readsSelf _)))

theorem runAt {α : Type} {rule : Nat → Parse α} (c : Cursor) : run rule c = rule c.budget c := rfl

end Parse
end Lox
