import Lox.Proofs.Runs.Soundness
import Lox.Proofs.Sessions

/-!
Resolved names. After a program was resolved without a report, every use of a name that has an entry
is evaluated in an environment whose frame at that distance was opened for the very scope in which
resolution found the name; so no run of any length ends for want of a frame, a name or an entry.
-/

namespace Lox

def Session.start (s : Session) (body : List Stmt) (n : Nat) : Start :=
  ⟨body, n, { s.machine with locals := s.resolver.locals }⟩

/-- Where the name of a use is found: `c` is where the use stands in the program, `σ` the scope that
has the name, `d` scopes out, and `f` the frame at that distance, opened for `σ` inside `outer`. -/
structure FoundAt (S : Start) (e : Expr) (m : Machine) (d : Nat) (u : Token) (c : Context)
    (σ : Site) (f : FrameId) (outer : Env) : Prop where
  stands : Stands S.body c (.expr e)
  depth : c.depth? u.lexeme = some d
  scope : ∃ names, c.scopes[d]? = some (σ, names) ∧ names.has u.lexeme = true
  frame : m.env.drop d = f :: outer
  opened : S.Opened σ (f :: outer)

namespace Start

variable {S : Start} {m : Machine}

theorem foundAt (chart : Charted S.machine.locals S.body) {e : Expr} {node d : Nat}
    {t : Option Token} (placed : S.Placed m.store m.env (.expr e)) (use : e.use? = some (node, t))
    (entry : S.machine.locals.distance? node = some d) :
    ∃ u c σ f outer, t = some u ∧ FoundAt S e m d u c σ f outer := by
  obtain ⟨c, stands, fits⟩ := placed
  obtain ⟨u, σ, names, place⟩ := chart.located stands use entry
  obtain ⟨f, outer, frame⟩ := fits.framed place.scope
  exact ⟨u, c, σ, f, outer, place.token, stands, place.depth, ⟨names, place.scope, place.has⟩,
    frame.here, frame.origin⟩

theorem treeFault {n : Nat} {body : List Stmt} {f : Fault} {m m' : Machine}
    (h : Eval.tree n (.program body) m = .error (.fault f) m') :
    Eval.executeAll n body m = .error (.fault f) m' := by
  rcases bindError.mp h with first | ⟨_, t, _, rest⟩
  · exact first
  · cases rest

end Start

namespace Session

/- The use of a name may be read, assigned or both; only a use that reads asks for a value. -/
theorem resolvedNamesAreFound {setting : Setting} {lines : List (List Char)} {s : Session}
    (ready : prepare lines (fresh setting) = .ok () s) (silent : s.log.resolution = []) (n : Nat) :
    ∃ body, s.tree = .program body ∧
      (∀ k e m node t d, (s.start body n).Reaches (k + 1) (.expr e) m →
        e.use? = some (node, t) → s.resolver.locals.distance? node = some d →
        ∃ u c σ f outer, t = some u ∧ FoundAt (s.start body n) e m d u c σ f outer ∧
          (e.isAssign = false → ∃ v, m.store.readAt m.env d u.lexeme = .ok v)) ∧
      (∀ k node keyword method m,
        (s.start body n).Reaches (k + 1) (.expr (.super node keyword method)) m →
        ∃ d base this, s.resolver.locals.distance? node = some (d + 1) ∧
          m.store.readAt m.env ((d + 1 : Nat) : Int) "super" = .ok (.class_ base) ∧
          m.store.readAt m.env (d : Nat) "this" = .ok this) ∧
      (∀ f m, Eval.tree n s.tree { s.machine with locals := s.resolver.locals } =
        .error (.fault f) m → f.ofScope = false) := by
  obtain ⟨body, tree, chart, store, env⟩ := charted ready silent
  have first : (s.start body n).Sits (.stmts body) (s.start body n).machine :=
    Start.sitsFirst (S := s.start body n) env store
  refine ⟨body, tree, ?_, ?_, ?_⟩
  · intro k e m node t d reach use entry
    have placed := (Start.sits (S := s.start body n) chart first reach).2
    obtain ⟨u, c, σ, f, outer, given, found⟩ := Start.foundAt chart placed use entry
    refine ⟨u, c, σ, f, outer, given, found, fun reads => ?_⟩
    obtain ⟨u', v, given', read⟩ := Start.readsHere chart placed use reads entry
    cases given.symm.trans given'
    exact ⟨v, read⟩
  · intro k node keyword method m reach
    exact Start.superHere chart (Start.sits (S := s.start body n) chart first reach).2
  · intro f m run
    rw [tree] at run
    exact (Start.runGood (S := s.start body n) chart first).fault (Start.treeFault run)

def accepts (lines : List (List Char)) : Bool :=
  match prepare lines (fresh {}) with
  | .ok _ s => s.log.parse.isEmpty && s.log.resolution.isEmpty
  | .error .. => false

theorem preparedOfAccepts {lines : List (List Char)} (h : accepts lines = true) :
    ∃ s, prepare lines (fresh {}) = .ok () s ∧ s.log.parse = [] ∧ s.log.resolution = [] := by
  unfold accepts at h
  split at h
  · next s run =>
    rw [Bool.and_eq_true, List.isEmpty_iff, List.isEmpty_iff] at h
    exact ⟨s, run, h⟩
  · cases h

def inheritedProgram : List (List Char) :=
  ["class A \x7b m() \x7b return this; \x7d \x7d".toList,
   "class B < A \x7b m() \x7b return super.m(); \x7d \x7d".toList,
   "\x7b var b = B(); fun f() \x7b b = b.m(); \x7d f(); \x7d".toList]

theorem resolvedNamesAreFound_inherited :
    ∃ s, prepare inheritedProgram (fresh {}) = .ok () s ∧ s.log.resolution = [] ∧
      ∃ body, s.tree = .program body ∧ ∀ f m,
        Eval.tree 100 s.tree { s.machine with locals := s.resolver.locals } = .error (.fault f) m →
        f.ofScope = false := by
  have accepted : accepts inheritedProgram = true := by decide +kernel
  obtain ⟨s, ready, -, silent⟩ := preparedOfAccepts accepted
  obtain ⟨body, tree, -, -, safe⟩ := resolvedNamesAreFound ready silent 100
  exact ⟨s, ready, silent, body, tree, safe⟩

end Session
end Lox
