import Lox.Parsing.Cursor
import Lox.Proofs.Sequence

/-!
What the primitive parsers do at a cursor, in terms of the token under it and the cursor behind it.
-/

namespace Lox

namespace Cursor

def here (c : Cursor) : Option (Option Token) :=
  (cell? c.tokens.size c.index).bind fun i => c.tokens[i]?

def next (c : Cursor) : Cursor :=
  if c.index + 1 == c.tokens.size then c else { c with index := c.index + 1 }

theorem nextTokens (c : Cursor) : c.next.tokens = c.tokens := by
  unfold next
  split <;> rfl

theorem mem_of_here {c : Cursor} {t : Option Token} (h : c.here = some t) : t ∈ c.tokens := by
  obtain ⟨i, -, found⟩ := Option.bind_eq_some_iff.mp h
  exact Array.mem_of_getElem? found

def look {α : Type} (c : Cursor) (f : Token → EStateM.Result Stop Cursor α) :
    EStateM.Result Stop Cursor α :=
  match c.here with
  | some (some t) => f t
  | some none => .error (.fault (.absent "type")) c
  | none => .error (.fault .outOfRange) c

end Cursor

namespace Parse

theorem isAtEndRun (c : Cursor) : isAtEnd c = .ok (c.index + 1 == c.tokens.size) c := rfl

theorem currentRun (c : Cursor) :
    current c = match c.here with
      | some t => .ok t c
      | none => .error (.fault .outOfRange) c := by
  show (match c.here with
    | some t => (pure t : Parse (Option Token))
    | none => throw (Stop.fault .outOfRange)) c = _
  cases c.here <;> rfl

theorem advanceRun (c : Cursor) : advance c = .ok () c.next := by
  unfold advance Cursor.next
  rw [bindRun, isAtEndRun]
  cases c.index + 1 == (c.tokens.size : Int) <;> rfl

theorem takeRun (c : Cursor) :
    take c = match c.here with
      | some t => .ok t c.next
      | none => .error (.fault .outOfRange) c := by
  unfold take
  rw [bindRun, currentRun]
  cases c.here with
  | none => rfl
  | some t =>
    show (advance >>= fun _ => pure t) c = _
    rw [bindRun, advanceRun]
    rfl

theorem kindRun (c : Cursor) : kind c = c.look fun t => .ok t.kind c := by
  unfold kind Cursor.look
  rw [bindRun, currentRun]
  cases c.here with
  | none => rfl
  | some t => cases t <;> rfl

theorem checkRun (k : Kind) (c : Cursor) : check k c = c.look fun t => .ok (t.kind == k) c := by
  unfold check
  rw [bindRun, kindRun]
  unfold Cursor.look
  cases c.here with
  | none => rfl
  | some t => cases t <;> rfl

theorem checkAnyRun (ks : List Kind) (c : Cursor) :
    checkAny ks c = c.look fun t => .ok (ks.contains t.kind) c := by
  unfold checkAny
  rw [bindRun, kindRun]
  unfold Cursor.look
  cases c.here with
  | none => rfl
  | some t => cases t <;> rfl

theorem skipRun (k : Kind) (c : Cursor) :
    skip k c = c.look fun t => if t.kind = k then .ok true c.next else .ok false c := by
  unfold skip
  rw [bindRun, checkRun]
  unfold Cursor.look
  cases c.here with
  | none => rfl
  | some t =>
    cases t with
    | none => rfl
    | some t =>
      by_cases same : t.kind = k
      · simp only [same, beq_self_eq_true, ↓reduceIte]
        rw [bindRun, advanceRun]
        rfl
      · simp [same]

theorem reportRun (e : ParseError) (c : Cursor) :
    report e c = .error .errorLimit { c with log := c.log ++ [.parse e] } ∨
      report e c = .ok () { c with log := c.log ++ [.parse e] } := by
  by_cases full : c.limit ≤ (Log.parse (c.log ++ [.parse e])).length
  · refine .inl ?_
    show (if _ then throw Stop.errorLimit else pure () : Parse Unit) _ = _
    rw [if_pos full]
    rfl
  · refine .inr ?_
    show (if _ then throw Stop.errorLimit else pure () : Parse Unit) _ = _
    rw [if_neg full]
    rfl

theorem expectRun (k : Kind) (message : String) (c : Cursor) :
    expect k message c = c.look fun t =>
      if t.kind = k then .ok (some t) c.next
      else match report ⟨t, message⟩ c with
        | .ok _ c' => .ok none c'
        | .error e c' => .error e c' := by
  unfold expect
  rw [bindRun, checkRun]
  cases here : c.here with
  | none => simp only [Cursor.look, here]
  | some t =>
    cases t with
    | none => simp only [Cursor.look, here]
    | some t =>
      by_cases same : t.kind = k
      · simp [Cursor.look, here, same, takeRun]
      · simp only [Cursor.look, here, beq_eq_false_iff_ne.mpr same, same, Bool.false_eq_true,
          ↓reduceIte]
        rw [bindRun, currentRun, here]
        dsimp only
        rw [bindRun]
        cases report ⟨t, message⟩ c <;> rfl

def Makes {α : Type} (p : Parse α) (Q : α → Prop) : Prop :=
  ∀ c a c', p c = .ok a c' → Q a

section

variable {α β : Type} {p : Parse α} {f : α → Parse β} {P : α → Prop} {Q : β → Prop}

theorem makesPure {a : α} (h : P a) : Makes (pure a) P := by
  intro c a c' run
  cases run
  exact h

theorem makesThrow (e : Stop) : Makes (throw e) P :=
  fun _ _ _ run => by cases run

theorem Makes.bind (first : Makes p P) (rest : ∀ a, P a → Makes (f a) Q) : Makes (p >>= f) Q := by
  intro c b c' run
  obtain ⟨a, c₁, one, run⟩ := bindOk.mp run
  exact rest a (first c a c₁ one) c₁ b c' run

theorem makesLast (rest : ∀ a, Makes (f a) Q) : Makes (p >>= f) Q :=
  Makes.bind (P := fun _ => True) (fun _ _ _ _ => trivial) fun a _ => rest a

theorem makesEither {q : Parse α} {b : Bool} (yes : Makes p P) (no : Makes q P) :
    Makes (if b then p else q) P := by
  cases b with
  | true => exact yes
  | false => exact no

theorem makesWhile {test : Parse Bool} (one : Makes p P) (n : Nat) :
    Makes (whileM n test p) fun xs => ∀ x ∈ xs, P x := by
  induction n with
  | zero => exact makesThrow _
  | succ n ih =>
    refine makesLast fun _ => makesEither ?_ (makesPure fun _ mem => by cases mem)
    refine one.bind fun x holds => ih.bind fun xs all => makesPure ?_
    exact List.forall_mem_cons.mpr ⟨holds, all⟩

end

end Parse
end Lox
