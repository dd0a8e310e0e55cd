import Lox.Proofs.Parsing.Grammar
import Lox.Proofs.Parsing.Programs

/-!
Runs without a report, over tokens and the end behind them: how what a parser reads derives what it
gives. Each part of a rule is asked only for what is left to derive behind the parts before it.
-/

namespace Lox

theorem Cursor.Onward.silent {c c₁ c₂ : Cursor} {j k : Nat} (first : c.Onward j c₁)
    (next : c₁.Onward k c₂) (same : c₂.log = c.log) : c₁.log = c.log := by
  obtain ⟨es, log₁⟩ := first.log
  obtain ⟨es', log₂⟩ := next.log
  have none : es = [] ∧ es' = [] := by simpa [log₂, log₁] using same
  simp [log₁, none.1]

theorem Cursor.At.behind {c : Cursor} {t : Token} {ts : List Token} (h : c.At (t :: ts))
    (more : ts ≠ []) : c.next.At ts := by
  have passed : (c.moved [t].length).At ts := Cursor.At.moved h
  rw [h.next more]
  exact passed

namespace Parse

variable {α β : Type}

/- The end of the tokens is read too where it closes a lone expression. At `lone` 1 there are tokens
before it, and at 0 there is no such expression. -/
inductive Closes (c : Cursor) (last : Token) (lone : Nat) (read left : List Token) :
    List Token → Prop where
  | no : Closes c last lone read left []
  | atEnd (allowed : c.allowLone = true) (none : left = []) (some : 0 < lone)
      (enough : 2 ≤ lone + read.length) : Closes c last lone read left [last]

/- How a run over the tokens `todo` and the end may end. Without a report it has read at least `few`
of them, and these derive what it gives. -/
def Ends (few lone : Nat) (R : α → List Token → List Slip → Prop) (c : Cursor)
    (todo : List Token) (last : Token) : EStateM.Result Stop Cursor α → Prop
  | .error e _ => ∀ f, e ≠ .fault f
  | .ok a c' => ∃ read left, todo = read ++ left ∧ c.Onward read.length c' ∧
      (c'.log = c.log → few ≤ read.length ∧
        ∃ ending slips, Closes c last lone read left ending ∧ R a (read ++ ending) slips)

def Parses (few lone : Nat) (p : Parse α) (R : α → List Token → List Slip → Prop) : Prop :=
  ∀ c todo last, c.At (todo ++ [last]) → last.kind = .eof → Ends few lone R c todo last (p c)

def ParsesFrom (t : Token) (few lone : Nat) (p : Parse α)
    (R : α → List Token → List Slip → Prop) : Prop :=
  ∀ c todo last, c.At (t :: todo ++ [last]) → last.kind = .eof →
    Ends few lone R c (t :: todo) last (p c)

def After (P : α → List Token → List Slip → Prop) (a : α) (R : β → List Token → List Slip → Prop)
    (b : β) (us : List Token) (slips' : List Slip) : Prop :=
  ∀ ts slips, P a ts slips → R b (ts ++ us) (slips ++ slips')

def Behind (k : Kind) (R : β → List Token → List Slip → Prop) (b : β) (us : List Token)
    (slips : List Slip) : Prop :=
  ∀ t, t.kind = k → R b (t :: us) slips

def Taken (k : Kind) (a : Option Token) (ts : List Token) (slips : List Slip) : Prop :=
  ∃ t, a = some t ∧ t.kind = k ∧ ts = [t] ∧ slips = []

variable {few lone few' lone' more : Nat} {c : Cursor} {t last : Token} {todo : List Token}
  {p : Parse α} {f : α → Parse β} {P Q : α → List Token → List Slip → Prop}
  {R : β → List Token → List Slip → Prop}

theorem Closes.mono {read left ending : List Token}
    (h : Closes c last lone read left ending) (le : lone ≤ lone') :
    Closes c last lone' read left ending := by
  cases h with
  | no => exact .no
  | atEnd allowed none some enough =>
    exact .atEnd allowed none (Nat.lt_of_lt_of_le some le) (by omega)

theorem Ends.mono {result : EStateM.Result Stop Cursor α} (h : Ends few lone P c todo last result)
    (fewer : few' ≤ few) (le : lone ≤ lone')
    (post : ∀ a ts slips, P a ts slips → Q a ts slips) : Ends few' lone' Q c todo last result := by
  cases result with
  | error e c₁ => exact h
  | ok a c₁ =>
    obtain ⟨read, left, split, onward, quiet⟩ := h
    refine ⟨read, left, split, onward, fun silent => ?_⟩
    obtain ⟨some, ending, slips, closes, derived⟩ := quiet silent
    exact ⟨Nat.le_trans fewer some, ending, slips, closes.mono le, post _ _ _ derived⟩

theorem Parses.mono (h : Parses few lone p P) (fewer : few' ≤ few) (le : lone ≤ lone')
    (post : ∀ a ts slips, P a ts slips → Q a ts slips) : Parses few' lone' p Q :=
  fun c todo last at' eof => (h c todo last at' eof).mono fewer le post

theorem Parses.within (h : Parses few lone p P) : Parses 0 lone p P :=
  h.mono (Nat.zero_le few) (Nat.le_refl lone) fun _ _ _ derived => derived

theorem Parses.at (h : Parses few lone p P) (le : lone ≤ lone') : Parses few lone' p P :=
  h.mono (Nat.le_refl few) le fun _ _ _ derived => derived

theorem Parses.post (h : Parses few lone p P)
    (post : ∀ a ts slips, P a ts slips → Q a ts slips) : Parses few lone p Q :=
  h.mono (Nat.le_refl few) (Nat.le_refl lone) post

theorem endsStay {a : α} (slips : List Slip) (h : P a [] slips) :
    Ends 0 lone P c todo last (.ok a c) :=
  ⟨[], todo, rfl, .stay c, fun _ => ⟨Nat.le_refl 0, [], slips, .no, h⟩⟩

theorem parsesPure {a : α} (slips : List Slip) (h : P a [] slips) : Parses 0 lone (pure a) P :=
  fun _ _ _ _ _ => endsStay slips h

theorem parsesOutOfFuel : Parses few lone (throw .outOfFuel) P :=
  fun _ _ _ _ _ _ same => by cases same

theorem Ends.next {result : EStateM.Result Stop Cursor β} (at' : c.At (t :: todo ++ [last]))
    (le : 0 < lone → 0 < lone')
    (h : Ends few lone (fun b us slips => R b (t :: us) slips) c.next todo last result) :
    Ends (few + 1) lone' R c (t :: todo) last result := by
  rw [Cursor.At.next at' (by simp)] at h
  cases result with
  | error e c₁ => exact h
  | ok b c₁ =>
    obtain ⟨read, left, split, onward, quiet⟩ := h
    refine ⟨t :: read, left, by rw [split]; rfl, ?_, fun silent => ?_⟩
    · rw [List.length_cons, Nat.add_comm]
      exact (Cursor.Onward.moved c 1).trans onward
    · obtain ⟨some, ending, slips, closes, derived⟩ := quiet silent
      refine ⟨Nat.succ_le_succ some, ending, slips, ?_, derived⟩
      cases closes with
      | no => exact .no
      | atEnd allowed none some enough =>
        exact .atEnd allowed none (le some) (by have := le some; rw [List.length_cons]; omega)

theorem Ends.passed {result : EStateM.Result Stop Cursor β} (at' : c.At (t :: todo ++ [last]))
    (le : 0 < lone → 0 < lone')
    (h : Ends 0 lone (fun b us slips => R b (t :: us) slips) c.next todo last result) :
    Ends 0 lone' R c (t :: todo) last result :=
  (h.next at' le).mono (Nat.zero_le 1) (Nat.le_refl lone') fun _ _ _ derived => derived

theorem Ends.started {result : EStateM.Result Stop Cursor α} (h : Ends few 2 P c todo last result)
    (some : todo ≠ []) : Ends few 1 P c todo last result := by
  cases result with
  | error e c₁ => exact h
  | ok a c₁ =>
    obtain ⟨read, left, split, onward, quiet⟩ := h
    refine ⟨read, left, split, onward, fun silent => ?_⟩
    obtain ⟨enough, ending, slips, closes, derived⟩ := quiet silent
    refine ⟨enough, ending, slips, ?_, derived⟩
    cases closes with
    | no => exact .no
    | atEnd allowed none =>
      have whole : todo = read := by rw [split, none, List.append_nil]
      have := List.length_pos_iff.mpr (whole ▸ some)
      exact .atEnd allowed none Nat.one_pos (by omega)

/- A lone expression before the second part is an end of tokens; then the second part reads none,
and finds no other lone expression there. -/
theorem Parses.bind (first : Parses few lone p P)
    (next : ∀ a, Parses more lone' (f a) (After P a R)) {count level : Nat}
    (counted : count ≤ few + more) (later : lone' ≤ level)
    (early : more = 0 → lone ≤ level ∧ (lone = 0 ∨ lone' ≤ 1)) :
    Parses count level (p >>= f) R := by
  intro c todo last at' eof
  have one := first c todo last at' eof
  rw [bindRun]
  cases run : p c with
  | error e c₁ =>
    rw [run] at one
    exact one
  | ok a c₁ =>
    rw [run] at one
    obtain ⟨read₁, left₁, rfl, onward₁, quiet₁⟩ := one
    rw [List.append_assoc] at at'
    have two := next a c₁ left₁ last (onward₁.at at') eof
    dsimp only
    cases run₂ : f a c₁ with
    | error e c₂ =>
      rw [run₂] at two
      exact two
    | ok b c₂ =>
      rw [run₂] at two
      obtain ⟨read₂, left₂, rfl, onward₂, quiet₂⟩ := two
      refine ⟨read₁ ++ read₂, left₂, (List.append_assoc ..).symm, ?_, fun silent => ?_⟩
      · rw [List.length_append]
        exact onward₁.trans onward₂
      · have silent₁ := onward₁.silent onward₂ silent
        have allow : c₁.allowLone = c.allowLone := by rw [onward₁.rest]
        obtain ⟨some₁, ending₁, slips₁, closes₁, derived₁⟩ := quiet₁ silent₁
        obtain ⟨some₂, ending₂, slips₂, closes₂, derived₂⟩ := quiet₂ (silent.trans silent₁.symm)
        have both := derived₂ _ _ derived₁
        refine ⟨by rw [List.length_append]; omega, ?_⟩
        cases closes₁ with
        | no =>
          refine ⟨ending₂, slips₁ ++ slips₂, ?_, by simpa using both⟩
          cases closes₂ with
          | no => exact .no
          | atEnd allowed none some enough =>
            refine .atEnd (allow.symm.trans allowed) none (by omega) ?_
            rw [List.length_append]
            omega
        | atEnd allowed none some enough =>
          obtain ⟨rfl, rfl⟩ := List.append_eq_nil_iff.mp none
          obtain ⟨le, apart⟩ := early (Nat.le_zero.mp some₂)
          cases closes₂ with
          | no =>
            refine ⟨_, slips₁ ++ slips₂, .atEnd allowed rfl (by omega) ?_, by simpa using both⟩
            simp only [List.append_nil]
            omega
          | atEnd _ _ some' enough' =>
            simp only [List.length_nil] at enough'
            omega

theorem Parses.then (first : Parses few 0 p P) (next : ∀ a, Parses 0 lone (f a) (After P a R)) :
    Parses few lone (p >>= f) R :=
  first.bind next (Nat.le_refl _) (Nat.le_refl _) fun _ => ⟨Nat.zero_le _, .inl rfl⟩

theorem Parses.before (first : Parses few lone p P)
    (next : ∀ a, Parses 1 lone' (f a) (After P a R)) : Parses 1 lone' (p >>= f) R :=
  first.bind next (Nat.le_add_left _ _) (Nat.le_refl _) fun none => by cases none

theorem Parses.also (first : Parses few lone p P) (next : ∀ a, Parses 0 1 (f a) (After P a R))
    (some : 1 ≤ lone) : Parses few lone (p >>= f) R :=
  first.bind next (Nat.le_refl _) some fun _ => ⟨Nat.le_refl _, .inr (Nat.le_refl 1)⟩

theorem parsesExpect {k : Kind} (other : k ≠ .eof) (message : String) :
    Parses 1 0 (expect k message) (Taken k) := by
  intro c todo last at' eof
  have stopped : ∀ c', Ends 1 0 (Taken k) c todo last (.error .errorLimit c') :=
    fun c' f same => by cases same
  have reported : ∀ e, Ends 1 0 (Taken k) c todo last
      (.ok none { c with log := c.log ++ [.parse e] }) := by
    intro e
    refine ⟨[], todo, rfl, ⟨by simp, ⟨[_], rfl⟩, id⟩, fun silent => ?_⟩
    simp at silent
  rw [expectRun]
  cases todo with
  | nil =>
    rw [Cursor.look, at'.here]
    dsimp only
    rw [if_neg (by rw [eof]; exact other.symm)]
    rcases reportRun ⟨last, message⟩ c with run | run
    · rw [run]
      exact stopped _
    · rw [run]
      exact reported _
  | cons t todo =>
    rw [Cursor.look, at'.here]
    dsimp only
    split
    · next same => exact Ends.next at' id (endsStay [] ⟨t, rfl, same, rfl, rfl⟩)
    · rcases reportRun ⟨t, message⟩ c with run | run
      · rw [run]
        exact stopped _
      · rw [run]
        exact reported _

theorem Parses.expect {f : Option Token → Parse β} {k : Kind} {message : String} (other : k ≠ .eof)
    (next : ∀ a, Parses 0 lone (f a) (After (Taken k) a R)) :
    Parses 1 lone (Parse.expect k message >>= f) R :=
  (parsesExpect other message).then next

theorem Parses.branch {f : Bool → Parse β} {k : Kind} (other : k ≠ .eof)
    (le : 0 < lone → 0 < lone') (yes : Parses 0 lone (f true) (Behind k R))
    (no : Parses 0 lone' (f false) R) : Parses 0 lone' (Parse.skip k >>= f) R := by
  intro c todo last at' eof
  rw [bindRun, skipRun]
  cases todo with
  | nil =>
    rw [Cursor.look, at'.here]
    dsimp only
    rw [if_neg (by rw [eof]; exact other.symm)]
    exact no c [] last at' eof
  | cons t todo =>
    rw [Cursor.look, at'.here]
    dsimp only
    by_cases same : t.kind = k
    · rw [if_pos same]
      have behind := yes c.next todo last (Cursor.At.behind at' (by simp)) eof
      have rest := behind.mono (Q := fun b us slips => R b (t :: us) slips) (Nat.le_refl 0)
        (Nat.le_refl lone) fun _ _ _ derived => derived t same
      exact rest.passed at' le
    · rw [if_neg same]
      exact no c (t :: todo) last at' eof

theorem Parses.skip {f : Bool → Parse β} {k : Kind} (other : k ≠ .eof)
    (yes : Parses 0 lone (f true) (Behind k R)) (no : Parses 0 lone (f false) R) :
    Parses 0 lone (Parse.skip k >>= f) R :=
  Parses.branch other id yes no

theorem Parses.idle {f : α → Parse β} (stays : ∀ c t ts, c.At (t :: ts) → ∃ a, p c = .ok a c)
    (next : ∀ a, Parses few lone (f a) R) : Parses few lone (p >>= f) R := by
  intro c todo last at' eof
  obtain ⟨t, ts, same⟩ := List.exists_cons_of_ne_nil (l := todo ++ [last]) (by simp)
  obtain ⟨a, run⟩ := stays c t ts (same ▸ at')
  rw [bindRun, run]
  exact next a c todo last at' eof

theorem currentStays (c : Cursor) (t : Token) (ts : List Token) (at' : c.At (t :: ts)) :
    ∃ a, current c = .ok a c := by
  rw [currentRun, at'.here]
  exact ⟨some t, rfl⟩

theorem checkStays (k : Kind) (c : Cursor) (t : Token) (ts : List Token) (at' : c.At (t :: ts)) :
    ∃ a, check k c = .ok a c := by
  rw [checkRun, Cursor.look, at'.here]
  exact ⟨_, rfl⟩

theorem Parses.from (h : Parses few lone p P) (t : Token) : ParsesFrom t few lone p P :=
  fun c todo last at' eof => h c (t :: todo) last at' eof

theorem Parses.take {f : Option Token → Parse β}
    (h : Parses 0 lone (f (some t)) fun b us slips => R b (t :: us) slips) :
    ParsesFrom t 0 lone (Parse.take >>= f) R := by
  intro c todo last at' eof
  rw [bindRun, takeRun, Cursor.At.here at']
  exact (h c.next todo last (Cursor.At.behind at' (by simp)) eof).passed at' id

theorem Parses.advance {f : Unit → Parse β}
    (h : Parses 0 lone (f ()) fun b us slips => R b (t :: us) slips) :
    ParsesFrom t 0 lone (Parse.advance >>= f) R := by
  intro c todo last at' eof
  rw [bindRun, advanceRun]
  exact (h c.next todo last (Cursor.At.behind at' (by simp)) eof).passed at' id

theorem Parses.kind {f : Kind → Parse β} (some : ∀ t, ParsesFrom t few lone (f t.kind) R)
    (none : Parses few lone (f .eof) R) : Parses few lone (Parse.kind >>= f) R := by
  intro c todo last at' eof
  rw [bindRun, kindRun]
  cases todo with
  | nil =>
    rw [Cursor.look, at'.here]
    dsimp only
    rw [eof]
    exact none c [] last at' eof
  | cons t todo =>
    rw [Cursor.look, at'.here]
    exact some t c todo last at' eof

theorem Parses.operator {ops : List Kind} {f : Option Token → Parse β} {q : Parse β}
    (other : ops.contains .eof = false)
    (yes : ∀ t, ops.contains t.kind = true →
      Parses 0 lone (f (some t)) fun b us slips => R b (t :: us) slips)
    (no : Parses 0 lone q R) :
    Parses 0 lone (do if ← checkAny ops then (do let t ← Parse.take; f t) else q) R := by
  intro c todo last at' eof
  rw [bindRun, checkAnyRun]
  cases todo with
  | nil =>
    rw [Cursor.look, at'.here]
    dsimp only
    rw [eof, other]
    exact no c [] last at' eof
  | cons t todo =>
    rw [Cursor.look, at'.here]
    dsimp only
    cases contained : ops.contains t.kind with
    | true => exact (yes t contained).take c todo last at' eof
    | false => exact no c (t :: todo) last at' eof

section

variable {R : List α → List Token → List Slip → Prop}

theorem parsesMore (one : Parses 0 0 p P) (none : R [] [] [])
    (some : ∀ comma x xs ts us slips slips', comma.kind = .comma → P x ts slips → R xs us slips' →
      R (x :: xs) (comma :: (ts ++ us)) (slips ++ slips')) (n : Nat) :
    Parses 0 0 (whileM n (Parse.skip .comma) p) R := by
  induction n with
  | zero => exact parsesOutOfFuel
  | succ n ih =>
    refine Parses.skip (by decide) ?_ (parsesPure [] none)
    refine one.then fun x => ih.then fun xs => parsesPure [] ?_
    intro us slips' others ts slips first comma kind
    simpa using some comma x xs ts us slips slips' kind first others

theorem parsesLoop {test : Parse Bool}
    (stays : ∀ c t ts, c.At (t :: ts) → ∃ b, test c = .ok b c ∧ (b = true → ts ≠ []))
    (one : Parses 0 2 p P) (none : R [] [] [])
    (some : ∀ x xs ts us slips slips', P x ts slips → R xs us slips' →
      R (x :: xs) (ts ++ us) (slips ++ slips')) (n : Nat) :
    Parses 0 1 (whileM n test p) R := by
  induction n with
  | zero => exact parsesOutOfFuel
  | succ n ih =>
    have again : Parses 0 2 (do let x ← p; return x :: (← whileM n test p)) R := by
      refine one.also (fun x => ih.also (fun xs => parsesPure [] ?_) (Nat.le_refl 1)) (by decide)
      intro us slips' others ts slips first
      simpa using some x xs ts us slips slips' first others
    intro c todo last at' eof
    obtain ⟨t, ts, same⟩ := List.exists_cons_of_ne_nil (l := todo ++ [last]) (by simp)
    obtain ⟨b, run, before⟩ := stays c t ts (same ▸ at')
    have go : whileM (n + 1) test p c =
        (if b then (do let x ← p; return x :: (← whileM n test p)) else pure [] : Parse _) c := by
      rw [whileM, bindRun, run]
    rw [go]
    cases b with
    | false => exact endsStay [] none
    | true =>
      exact (again c todo last at' eof).started (by rintro rfl; simp_all)

end

end Parse
end Lox
