import Lox.Proofs.Assigned
import Lox.Proofs.Runs.Fuel

/-!
Negation in conditions. The negation of a value is a number, minus one or zero, and both count as
true: a negated condition never leads to the other branch.
-/

namespace Lox.Eval

def negated (b : Bool) : Value := .int (if b then -1 else 0)

def tested (e : Expr) (next : Nat → Bool → Eval Unit) (n : Nat) : Eval Unit := do
  next n (← lift (← evaluate n e).truth)

def SameEnds (s t : Stmt) (m : Machine) : Prop :=
  ∀ r, EndsIn (execute · s) m r ↔ EndsIn (execute · t) m r

variable {bang : Token} {e : Expr} {s t : Stmt} {m m' : Machine} {v : Value} {b : Bool}
  {next : Nat → Bool → Eval Unit} {r : EStateM.Result Signal Machine Unit}

theorem negatedTruth (b : Bool) : (negated b).truth = .ok true := rfl

theorem negationRun (kind : bang.kind = .sign .bang) (n : Nat) :
    evaluate (n + 1) (.unary (some bang) e) = (do
      return negated (← lift (← evaluate n e).truth)) := by
  rw [evaluate]
  congr 1
  funext v
  simp only [unary, opKind, kind, pure_bind, Value.complement]
  cases v.truth <;> rfl

inductive Tested (e : Expr) (m : Machine) (next : Nat → Bool → Eval Unit) :
    EStateM.Result Signal Machine Unit → Prop where
  | operand {x : Signal} {m' : Machine} (ends : EndsIn (evaluate · e) m (.error x m')) :
      Tested e m next (.error x m')
  | test {v : Value} {m' : Machine} {f : Fault} (ends : EndsIn (evaluate · e) m (.ok v m'))
      (none : v.truth = .error f) : Tested e m next (.error (.fault f) m')
  | taken {v : Value} {m' : Machine} {b : Bool} {r : EStateM.Result Signal Machine Unit}
      (ends : EndsIn (evaluate · e) m (.ok v m')) (truth : v.truth = .ok b)
      (rest : EndsIn (next · b) m' r) : Tested e m next r

theorem testedIff (mono : ∀ b, Monotone (next · b)) :
    EndsIn (tested e next) m r ↔ Tested e m next r := by
  have rest : ∀ v : Value, Monotone fun n => lift v.truth >>= next n :=
    fun v => (monotoneConst _).bind mono
  refine (endsBind (monotoneEvaluate e) rest).trans ⟨?_, ?_⟩
  · rintro (⟨x, m', ends, rfl⟩ | ⟨v, m', ends, later⟩)
    · exact .operand ends
    · cases truth : v.truth with
      | error f =>
        rw [truth] at later
        obtain ⟨⟨_, run⟩, _⟩ := later
        cases run
        exact .test ends truth
      | ok b =>
        rw [truth] at later
        exact .taken ends truth later
  · rintro (⟨ends⟩ | ⟨ends, truth⟩ | ⟨ends, truth, later⟩)
    · exact .inl ⟨_, _, ends, rfl⟩
    · refine .inr ⟨_, _, ends, ⟨0, ?_⟩, id⟩
      rw [truth]
      rfl
    · refine .inr ⟨_, _, ends, ?_⟩
      rw [truth]
      exact later

theorem testedTaken (mono : ∀ b, Monotone (next · b)) (ends : EndsIn (evaluate · e) m (.ok v m'))
    (truth : v.truth = .ok b) : EndsIn (tested e next) m r ↔ EndsIn (next · b) m' r := by
  rw [testedIff mono]
  constructor
  · intro h
    cases h with
    | operand other => cases other.unique ends (monotoneEvaluate e)
    | test other none =>
      cases other.unique ends (monotoneEvaluate e)
      cases none.symm.trans truth
    | taken other truth' rest =>
      cases other.unique ends (monotoneEvaluate e)
      cases truth'.symm.trans truth
      exact rest
  · exact .taken ends truth

theorem endsIf (given : s.isMissing = false) : EndsIn (execute · (.if_ e t s)) m r ↔
    EndsIn (tested e fun n b => if b then execute n t else execute n s) m r := by
  refine endsStep rfl fun n => ?_
  rw [execute]
  simp only [given]
  rfl

theorem endsNegated (kind : bang.kind = .sign .bang) :
    EndsIn (execute · (.if_ (.unary (some bang) e) s t)) m r ↔
      EndsIn (tested e fun n _ => execute n s) m r := by
  have late : EndsIn (execute · (.if_ (.unary (some bang) e) s t)) m r ↔
      EndsIn (tested e fun n _ => execute (n + 1) s) m r := by
    refine (endsStep (y := fun n => execute (n + 1) (.if_ (.unary (some bang) e) s t)) rfl
      fun _ => rfl).trans (endsStep rfl fun n => ?_)
    rw [execute, negationRun kind]
    simp only [bind_assoc, pure_bind, negatedTruth]
    rfl
  have mono : Monotone fun n => execute (n + 1) s :=
    fun n k less => monotoneExecute s _ _ (Nat.succ_le_succ less)
  have shift : ∀ {m r}, EndsIn (fun n => execute (n + 1) s) m r ↔ EndsIn (execute · s) m r :=
    (endsStep (x := fun n => execute n s) rfl fun _ => rfl).symm
  rw [late, testedIff fun _ => mono, testedIff fun _ => monotoneExecute s]
  constructor
  · rintro (⟨ends⟩ | ⟨ends, none⟩ | ⟨ends, truth, rest⟩)
    · exact .operand ends
    · exact .test ends none
    · exact .taken ends truth (shift.mp rest)
  · rintro (⟨ends⟩ | ⟨ends, none⟩ | ⟨ends, truth, rest⟩)
    · exact .operand ends
    · exact .test ends none
    · exact .taken ends truth (shift.mpr rest)

theorem monotoneBranches (s t : Stmt) (b : Bool) :
    Monotone fun n => if b then execute n t else execute n s := by
  cases b
  · exact monotoneExecute s
  · exact monotoneExecute t

/-- A negation gives a number that counts as true, whatever it negates. So a statement with a
negated condition does what its first branch does, and it is the statement with the branches
exchanged exactly if, wherever the condition holds, both branches end in the same ways. -/
theorem negationsAlwaysHold (bang : Token) (kind : bang.kind = .sign .bang) (e : Expr) (s : Stmt)
    (given : s.isMissing = false) (t : Stmt) (m : Machine) :
    (∀ v m' b, EndsIn (evaluate · e) m (.ok v m') → v.truth = .ok b →
      EndsIn (evaluate · (.unary (some bang) e)) m (.ok (negated b) m') ∧
        (negated b).truth = .ok true) ∧
    (∀ r, EndsIn (execute · (.if_ (.unary (some bang) e) s t)) m r ↔
      EndsIn (tested e fun n _ => execute n s) m r) ∧
    (SameEnds (.if_ (.unary (some bang) e) s t) (.if_ e t s) m ↔
      ∀ v m', EndsIn (evaluate · e) m (.ok v m') → v.truth = .ok true → SameEnds s t m') := by
  refine ⟨fun v m' b ends truth => ⟨?_, negatedTruth b⟩, fun r => endsNegated kind, ?_, ?_⟩
  · obtain ⟨n, run⟩ := ends.reached
    refine ⟨⟨n + 1, ?_⟩, id⟩
    rw [negationRun kind, bindRun, run]
    dsimp only
    rw [truth]
    rfl
  · intro same v m' ends truth r
    have first := testedTaken (r := r) (fun _ => monotoneExecute s) ends truth
    have second := testedTaken (r := r) (monotoneBranches s t) ends truth
    rw [← endsNegated (t := t) kind] at first
    rw [← endsIf given] at second
    exact first.symm.trans ((same r).trans second)
  · intro agree r
    rw [endsNegated kind, endsIf given, testedIff fun _ => monotoneExecute s,
      testedIff (monotoneBranches s t)]
    constructor
    · rintro (⟨ends⟩ | ⟨ends, none⟩ | ⟨ends, truth, rest⟩)
      · exact .operand ends
      · exact .test ends none
      · next v m' b =>
        cases b
        · exact .taken ends truth rest
        · exact .taken ends truth ((agree v m' ends truth r).mp rest)
    · rintro (⟨ends⟩ | ⟨ends, none⟩ | ⟨ends, truth, rest⟩)
      · exact .operand ends
      · exact .test ends none
      · next v m' b =>
        cases b
        · exact .taken ends truth rest
        · exact .taken ends truth ((agree v m' ends truth r).mpr rest)

def printText (text : String) : Stmt := .print (.literal (.text text))

theorem endsPrintText (text : String) (m : Machine) (dead : m.live = false) :
    EndsIn (execute · (printText text)) m
      (.ok () { m with printed := m.printed.push (.text text) }) := by
  refine ⟨⟨2, ?_⟩, id⟩
  show emit (.text text) m = _
  unfold emit
  rw [getBind, if_neg (by simp [dead])]
  rfl

theorem negationsAlwaysHold_constant :
    (Token.sign .bang).kind = .sign .bang ∧ (printText "a").isMissing = false ∧
      ¬SameEnds
        (.if_ (.unary (some (.sign .bang)) (.literal (.bool true))) (printText "a") (printText "b"))
        (.if_ (.literal (.bool true)) (printText "b") (printText "a")) { store := .initial } := by
  refine ⟨rfl, rfl, fun same => ?_⟩
  obtain ⟨-, -, exactly⟩ := negationsAlwaysHold (.sign .bang) rfl (.literal (.bool true))
    (printText "a") rfl (printText "b") { store := .initial }
  have branches := exactly.mp same (.bool true) { store := .initial } ⟨⟨1, rfl⟩, id⟩ rfl
  have first := endsPrintText "a" { store := .initial } rfl
  have second := (branches _).mp first
  have printed := second.unique (endsPrintText "b" { store := .initial } rfl) (monotoneExecute _)
  simp at printed

theorem negatedTruthsHold :
    Session.prints? ["if (!true) print \"a\"; else print \"b\";".toList] = some ["a"] ∧
      Session.prints? ["if (true) print \"b\"; else print \"a\";".toList] = some ["b"] := by
  decide +kernel

end Lox.Eval
