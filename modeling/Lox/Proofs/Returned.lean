import Lox.Proofs.Resolved
import Lox.Proofs.Runs.Returns

/-!
Values returned. After a program was resolved without a report, every `return` that a run comes to
ends the call of the routine whose body it stands in, and no value is returned outside of all calls.
-/

namespace Lox

/-- How a `return` leaves the call it is in: `path` stays within the activation of the call, every
statement `around` it ends there, and its value is the result. -/
structure LeavesCall (S : Start) (k : Nat) (keyword : Option Token) (value : Expr) (m : Machine)
    (j : Nat) (r : Routine) (args : List Value) (m₁ : Machine) (b : Bindings Value) : Prop where
  enters : Enters S.fuel (.stmts S.body) S.machine j r args m₁ b
  path : Activation j (.stmts r.decl.body) (m₁.entering r.closure b)
    (k + 1) (.stmt (.return_ keyword value)) m
  around : ∀ v m', Returned k value m v m' → ∀ i t m₂,
    Activation j (.stmts r.decl.body) (m₁.entering r.closure b) i t m₂ →
    Activation i t m₂ (k + 1) (.stmt (.return_ keyword value)) m →
    ∃ env, t.Returns i m₂ v { m' with env := env }
  result : ∀ v m', Returned k value m v m' →
    Eval.callRoutine (j + 1) r args m₁ = .ok v { m' with env := m₁.env }

namespace Start

variable {S : Start} {m : Machine}

section

variable (chart : Charted S.machine.locals S.body) (first : S.Sits (.stmts S.body) S.machine)

include chart

theorem notOutside {n k : Nat} {keyword : Option Token} {value : Expr} {m' : Machine} :
    ¬Activation n (.stmts S.body) m (k + 1) (.stmt (.return_ keyword value)) m' := by
  intro path
  have program : (Task.stmts S.body).StandsIn S.body none := ⟨{}, .program, rfl⟩
  obtain ⟨c, stands, outside⟩ := path.standsIn program
  obtain ⟨kind, inside, -⟩ := chart.inFunction stands
  rw [outside] at inside
  cases inside

theorem neverReturns {n : Nat} {v : Value} {m' : Machine} :
    Eval.executeAll n S.body m ≠ .error (.returned v) m' := by
  intro ends
  have whole : Activation n (.stmts S.body) m n (.stmts S.body) m := .start
  obtain ⟨k, keyword, value, m₁, m₂, path, -⟩ := whole.returned ends
  exact notOutside chart path

include first

theorem leavesCall {k : Nat} {keyword : Option Token} {value : Expr}
    (reach : S.Reaches (k + 1) (.stmt (.return_ keyword value)) m) :
    ∃ j r args m₁ b, LeavesCall S k keyword value m j r args m₁ b := by
  rcases Lox.Reaches.activation reach rfl with top | ⟨j, r, args, m₁, b, enters, path⟩
  · exact absurd top (notOutside chart)
  · refine ⟨j, r, args, m₁, b, enters, path, ?_, ?_⟩
    · intro v m' given i t m₂ before after
      exact after.unwinds (before.isStmt rfl) (executeReturn.mpr given)
    · intro v m' given
      obtain ⟨env, ends⟩ := path.unwinds rfl (executeReturn.mpr given)
      exact callRoutineReturned enters.bound (sits chart first enters.called).2.1.1 ends

end

end Start

namespace Session

theorem treeNeverReturns {n : Nat} {body : List Stmt} {v : Value} {m m' : Machine}
    (never : ∀ m', Eval.executeAll n body m ≠ .error (.returned v) m') :
    Eval.tree n (.program body) m ≠ .error (.returned v) m' := by
  intro ends
  rcases bindError.mp ends with here | ⟨_, _, _, last⟩
  · exact never m' here
  · cases last

theorem interpretFaults {s : Session} (never : ∀ v m,
      Eval.tree fuel s.tree { s.machine with locals := s.resolver.locals } ≠
        .error (.returned v) m) :
    match interpret s with
    | .ok _ s' => s'.log = s.log ∨ ∃ f, s'.log = s.log ++ [.runtime (.fault f)]
    | .error e _ => e = .outOfFuel := by
  unfold interpret
  rw [getBind, bindRun]
  unfold evaluating
  cases run : Eval.tree fuel s.tree { s.machine with locals := s.resolver.locals } with
  | ok v m => exact .inl rfl
  | error e m =>
    cases e with
    | fault f => exact .inr ⟨f, rfl⟩
    | returned v => exact absurd run (never v m)
    | outOfFuel => rfl

/-- The last part is about the run as a session makes it: a fault is all that it reports. -/
theorem returnsLeaveTheirCalls {setting : Setting} {lines : List (List Char)} {s : Session}
    (ready : prepare lines (fresh setting) = .ok () s) (silent : s.log.resolution = []) :
    ∃ body, s.tree = .program body ∧
      (∀ n k keyword value m,
        (s.start body n).Reaches (k + 1) (.stmt (.return_ keyword value)) m →
        ∃ j r args m₁ b, LeavesCall (s.start body n) k keyword value m j r args m₁ b) ∧
      (∀ n v m, Eval.tree n s.tree { s.machine with locals := s.resolver.locals } ≠
        .error (.returned v) m) ∧
      match interpret s with
      | .ok _ s' => s'.log = s.log ∨ ∃ f, s'.log = s.log ++ [.runtime (.fault f)]
      | .error e _ => e = .outOfFuel := by
  obtain ⟨body, tree, chart, store, env⟩ := charted ready silent
  have never : ∀ n v m, Eval.tree n s.tree { s.machine with locals := s.resolver.locals } ≠
      .error (.returned v) m := by
    intro n v m
    rw [tree]
    exact treeNeverReturns fun _ => Start.neverReturns (S := s.start body n) chart
  refine ⟨body, tree, ?_, never, interpretFaults (never fuel)⟩
  intro n k keyword value m reach
  exact Start.leavesCall (S := s.start body n) chart (Start.sitsFirst env store) reach

def returningProgram : List (List Char) :=
  ["class A \x7b \x7d".toList,
   "fun make(x) \x7b".toList,
   "  fun f(y) \x7b while (true) \x7b if (y) \x7b return x; \x7d y = true; \x7d \x7d".toList,
   "  return f; \x7d".toList,
   "var a = A(); a.g = make(\"v\"); print a.g(false);".toList]

theorem returnsLeaveTheirCalls_nested :
    ∃ s, prepare returningProgram (fresh {}) = .ok () s ∧ s.log.resolution = [] ∧
      ∃ body, s.tree = .program body ∧
        (∀ k keyword value m,
          (s.start body fuel).Reaches (k + 1) (.stmt (.return_ keyword value)) m →
          ∃ j r args m₁ b, LeavesCall (s.start body fuel) k keyword value m j r args m₁ b) ∧
        ∀ v m, Eval.tree fuel s.tree { s.machine with locals := s.resolver.locals } ≠
          .error (.returned v) m := by
  have accepted : accepts returningProgram = true := by decide +kernel
  obtain ⟨s, ready, -, silent⟩ := preparedOfAccepts accepted
  obtain ⟨body, tree, leaves, never, -⟩ := returnsLeaveTheirCalls ready silent
  exact ⟨s, ready, silent, body, tree, leaves fuel, never fuel⟩

end Session
end Lox
