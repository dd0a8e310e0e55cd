import Lox.Parsing.Statement
import Lox.Proofs.Loops.Abreast
import Lox.Proofs.Runs.Fuel

/-!
The loop with clauses. Its meaning is told without the tree that is made of it: the first clause is
run once in a new frame, and as long as the condition holds, the body and then the last clause are
run in that same frame. The tree ends as a loop does that enters the frames of the tree, and that
one runs abreast with the meaning.
-/

namespace Lox

open Eval

structure For where
  init : Option Stmt
  cond : Expr
  step : Expr
  body : Stmt

def Eval.inFrame {α : Type} (x : Eval α) : Eval α := do
  let env := (← get).env
  let env ← change fun s => s.enter env []
  within env x

namespace For

variable (p : For)

def holds (n : Nat) : Eval Bool :=
  if p.cond.isMissing then return true else do lift (← evaluate n p.cond).truth

def start (n : Nat) : Eval Unit :=
  match p.init with
  | none => return
  | some s => execute n s

def advance (n : Nat) : Eval Unit :=
  if p.step.isMissing then return else do let _ ← evaluate n p.step

/-- The body and then the last clause, which is left out only if the body ends early. -/
def round (n : Nat) : Eval Unit := do
  execute n p.body
  p.advance n

def rounds : (fuel : Nat) → Eval Unit
  | 0 => throw .outOfFuel
  | n + 1 => do
    if ← p.holds n then
      p.round n
      rounds n

def run (n : Nat) : Eval Unit :=
  inFrame do
    p.start n
    p.rounds n

def tree : Stmt :=
  Parse.desugarFor p.init p.cond p.step p.body

def treeCond : Expr := if p.cond.isMissing then .literal (.bool true) else p.cond

def treeBody : Stmt := if p.step.isMissing then p.body else .block [p.body, .expression p.step]

def treeLoop : Stmt := .while_ p.treeCond p.treeBody

/- The tree has a frame for each round if there is a last clause, and one around the loop if there is
a first. -/
def treeRound (n : Nat) : Eval Unit :=
  if p.step.isMissing then p.round n else inFrame (p.round n)

def treeRounds : (fuel : Nat) → Eval Unit
  | 0 => throw .outOfFuel
  | n + 1 => do
    if ← p.holds n then
      p.treeRound n
      treeRounds n

def treeRun (n : Nat) : Eval Unit :=
  match p.init with
  | none => p.treeRounds n
  | some s => inFrame do
    execute n s
    p.treeRounds n

end For

theorem Eval.Extends.inFrame {α : Type} {x y : Eval α} (h : Extends x y) :
    Extends (inFrame x) (inFrame y) :=
  extendsAfter _ fun _ => extendsAfter _ fun env => h.within env

namespace For

variable {p : For} {n k : Nat}

theorem extendsCond (less : n ≤ k) :
    Extends (do lift (← evaluate n p.treeCond).truth) (p.holds k) := by
  unfold treeCond holds
  split
  · cases n with
    | zero => exact extendsNone _
    | succ n => exact extendsRefl _
  · exact ((grows less).evaluate p.cond).before _

theorem extendsHolds (less : n < k) :
    Extends (p.holds n) (do lift (← evaluate k p.treeCond).truth) := by
  unfold treeCond holds
  split
  · obtain ⟨k, rfl⟩ : ∃ j, k = j + 1 := ⟨k - 1, by omega⟩
    exact extendsRefl _
  · exact ((grows (Nat.le_of_lt less)).evaluate p.cond).before _

theorem roundAlone (absent : p.step.isMissing = true) : p.round n = execute n p.body := by
  unfold round advance
  rw [if_pos absent]
  exact bind_pure_unit

theorem roundBoth (given : p.step.isMissing = false) :
    p.round n = (do execute n p.body; let _ ← evaluate n p.step) := by
  unfold round advance
  rw [if_neg (by simp [given])]

theorem executePair (a b : Stmt) :
    execute (n + 2) (.block [a, b]) = inFrame (do execute n a; execute n b) := by
  have pair : inOrder (execute n) [a, b] = (do execute n a; execute n b) :=
    congrArg (execute n a >>= ·) (funext fun _ => bind_pure_unit)
  show inFrame (inOrder (execute n) _) = _
  rw [pair]

theorem extendsBody (less : n ≤ k) : Extends (execute n p.treeBody) (p.treeRound k) := by
  unfold treeBody treeRound
  cases missing : p.step.isMissing with
  | true =>
    rw [if_pos rfl, if_pos rfl, roundAlone missing]
    exact (grows less).execute p.body
  | false =>
    rw [if_neg nofun, if_neg nofun, roundBoth missing]
    match n with
    | 0 => exact extendsNone _
    | 1 => exact Extends.inFrame (extendsNone _)
    | 2 => exact Extends.inFrame fun _ ends => absurd trivial ends
    | n + 3 =>
      rw [executePair]
      refine Extends.inFrame (((grows (by omega)).execute p.body).bind fun _ => ?_)
      exact ((grows (by omega)).evaluate p.step).before _

theorem extendsRound (less : n + 3 ≤ k) : Extends (p.treeRound n) (execute k p.treeBody) := by
  unfold treeBody treeRound
  cases missing : p.step.isMissing with
  | true =>
    rw [if_pos rfl, if_pos rfl, roundAlone missing]
    exact (grows (by omega)).execute p.body
  | false =>
    obtain ⟨k, rfl⟩ : ∃ j, k = j + 3 := ⟨k - 3, by omega⟩
    rw [if_neg nofun, if_neg nofun, roundBoth missing, executePair]
    refine Extends.inFrame (((grows (by omega)).execute p.body).bind fun _ => ?_)
    exact ((grows (by omega)).evaluate p.step).before _

theorem loopRun (cond : Expr) (body : Stmt) :
    loop (n + 1) cond body = (do lift (← evaluate n cond).truth) >>= fun again =>
      if again then do execute n body; loop n cond body else pure () := by
  rw [bind_assoc]
  rfl

theorem extendsLoop (less : n ≤ k) : Extends (loop n p.treeCond p.treeBody) (p.treeRounds k) := by
  induction n generalizing k with
  | zero => exact extendsNone _
  | succ n ih =>
    obtain ⟨k, rfl⟩ : ∃ j, k = j + 1 := ⟨k - 1, by omega⟩
    have less : n ≤ k := Nat.le_of_succ_le_succ less
    rw [loopRun]
    refine (extendsCond less).bind fun again => extendsGiven ?_ (extendsRefl _)
    exact (extendsBody less).bind fun _ => ih less

theorem extendsRounds (less : n + 3 ≤ k) :
    Extends (p.treeRounds n) (loop k p.treeCond p.treeBody) := by
  induction n generalizing k with
  | zero => exact extendsNone _
  | succ n ih =>
    obtain ⟨k, rfl⟩ : ∃ j, k = j + 1 := ⟨k - 1, by omega⟩
    have less : n + 3 ≤ k := Nat.le_of_succ_le_succ less
    rw [loopRun]
    refine (extendsHolds (by omega)).bind fun again => extendsGiven ?_ (extendsRefl _)
    exact (extendsRound less).bind fun _ => ih less

theorem extendsTree : Extends (execute n p.tree) (p.treeRun n) := by
  obtain ⟨init, cond, step, body⟩ := p
  cases init with
  | none =>
    cases n with
    | zero => exact extendsNone _
    | succ n => exact extendsLoop (Nat.le_succ n)
  | some s =>
    match n with
    | 0 => exact extendsNone _
    | 1 => exact Extends.inFrame (extendsNone _)
    | 2 => exact Extends.inFrame fun _ ends => absurd trivial ends
    | n + 3 =>
      show Extends (execute (n + 3) (.block [s, treeLoop ⟨some s, cond, step, body⟩])) _
      rw [executePair]
      refine Extends.inFrame (((grows (by omega)).execute s).bind fun _ => ?_)
      exact extendsLoop (p := ⟨some s, cond, step, body⟩) (by omega)

theorem extendsTreeRun : Extends (p.treeRun n) (execute (n + 6) p.tree) := by
  obtain ⟨init, cond, step, body⟩ := p
  cases init with
  | none => exact extendsRounds (p := ⟨none, cond, step, body⟩) (by omega)
  | some s =>
    show Extends _ (execute (n + 4 + 2) (.block [s, treeLoop ⟨some s, cond, step, body⟩]))
    rw [executePair]
    refine Extends.inFrame (((grows (by omega)).execute s).bind fun _ => ?_)
    exact extendsRounds (p := ⟨some s, cond, step, body⟩) (by omega)

theorem endsTree {m : Machine} {r : EStateM.Result Signal Machine Unit} :
    EndsIn (execute · p.tree) m r ↔ EndsIn p.treeRun m r := by
  constructor
  · rintro ⟨⟨n, rfl⟩, ended⟩
    exact ⟨⟨n, extendsTree m ended⟩, ended⟩
  · rintro ⟨⟨n, rfl⟩, ended⟩
    exact ⟨⟨n + 6, extendsTreeRun m ended⟩, ended⟩

end For

namespace Tables

variable {T : Tables} {w : World} {E F : Env} {π : Layout} {x y : Eval Unit}

theorem abreastFrame (fits : w.Fits π E F)
    (h : ∀ v E' F', w ≤ v → v.Fits (.both :: π) E' F' → T.Abreast v E' F' x y Done) :
    T.Abreast w E F (inFrame x) (inFrame y) Done := by
  intro v le m m' related home home'
  subst home home'
  have next := v.leJoin m.store.frames.size m'.store.frames.size
  have store := related.store.enterBoth m.env m'.env .none
  have inner := h _ _ _ (le.trans next) (.both (.inr ⟨rfl, rfl⟩) (fits.mono (le.trans next)))
  exact (abreastWithin inner _ le_rfl _ _ (related.mono next store) rfl rfl).sooner next

theorem abreastFrameLeft (fits : w.Fits π E F)
    (h : ∀ v E', w ≤ v → v.Fits (.left :: π) E' F → T.Abreast v E' F x y Done) :
    T.Abreast w E F (inFrame x) y Done := by
  intro v le m m' related home home'
  subst home
  have next := v.leBlankLeft m.store.frames.size
  have store := related.store.enterLeft m.env
  have inner := h _ _ (le.trans next) (.left (.inr rfl) (fits.mono (le.trans next)))
  exact (abreastWithinLeft inner _ le_rfl _ m' (related.mono next store) rfl home').sooner next

theorem abreastFrameRight (fits : w.Fits π E F)
    (h : ∀ v F', w ≤ v → v.Fits (.right :: π) E F' → T.Abreast v E F' x y Done) :
    T.Abreast w E F x (inFrame y) Done := by
  intro v le m m' related home home'
  subst home'
  have next := v.leBlankRight m'.store.frames.size
  have store := related.store.enterRight m'.env
  have inner := h _ _ (le.trans next) (.right (.inr rfl) (fits.mono (le.trans next)))
  exact (abreastWithinRight inner _ le_rfl m _ (related.mono next store) home rfl).sooner next

end Tables

namespace For

def outer (p : For) : Layout := if p.init.isSome then [.both] else [.right]

def inner (p : For) : Layout := if p.step.isMissing then p.outer else .left :: p.outer

structure Twin (T : Tables) (p p' : For) : Prop where
  init : Option.Rel (Stmt.Twin T [.both]) p.init p'.init
  cond : p.cond.Twin T p.outer p'.cond
  body : p.body.Twin T p.inner p'.body
  step : p.step.Twin T p.inner p'.step

variable {T : Tables} {w : World} {E F : Env} {p p' : For} (twin : p.Twin T p') {n : Nat}

include twin

theorem abreastHolds (fits : w.Fits p.outer E F) :
    T.Abreast w E F (p.holds n) (p'.holds n) fun _ a b => a = b := by
  unfold holds
  rw [twin.cond.missingSame]
  split
  · exact Tables.abreastPure fun _ _ => rfl
  · exact ((Tables.runsAbreast T n).evaluate fits twin.cond).bind fun _ _ _ _ alike =>
      Tables.abreastTruth alike

theorem abreastAdvance (fits : w.Fits p.inner E F) :
    T.Abreast w E F (p.advance n) (p'.advance n) Tables.Done := by
  unfold advance
  rw [twin.step.missingSame]
  split
  · exact Tables.abreastPure fun _ _ => trivial
  · exact ((Tables.runsAbreast T n).evaluate fits twin.step).bind fun _ _ _ _ _ =>
      Tables.abreastPure fun _ _ => trivial

theorem abreastRound (fits : w.Fits p.inner E F) :
    T.Abreast w E F (p.round n) (p'.round n) Tables.Done :=
  ((Tables.runsAbreast T n).execute fits twin.body).bind fun _ le _ _ _ =>
    abreastAdvance twin (fits.mono le)

theorem abreastTreeRound (fits : w.Fits p.outer E F) :
    T.Abreast w E F (p.treeRound n) (p'.round n) Tables.Done := by
  have inside := fun v E' => abreastRound (w := v) (E := E') (F := F) twin (n := n)
  unfold inner at inside
  unfold treeRound
  split
  · next absent =>
    rw [if_pos absent] at inside
    exact inside w E fits
  · next given =>
    rw [if_neg given] at inside
    exact Tables.abreastFrameLeft fits fun v E' _ => inside v E'

theorem abreastRounds (fits : w.Fits p.outer E F) :
    T.Abreast w E F (p.treeRounds n) (p'.rounds n) Tables.Done := by
  induction n generalizing w with
  | zero => exact Tables.abreastOutOfFuel
  | succ n ih =>
    refine (abreastHolds twin fits).bind fun v le again again' same => ?_
    subst same
    have fits := fits.mono le
    split
    · exact (abreastTreeRound twin fits).bind fun _ next _ _ _ => ih (fits.mono next)
    · exact Tables.abreastPure fun _ _ => trivial

theorem abreastRun (fits : w.Fits [] E F) :
    T.Abreast w E F (p.treeRun n) (p'.run n) Tables.Done := by
  have loops := fun v E' F' => abreastRounds (w := v) (E := E') (F := F') twin (n := n)
  unfold outer at loops
  unfold treeRun run start
  rcases relCases twin.init with ⟨absent, absent'⟩ | ⟨s, s', given, given', first⟩
  · rw [absent] at loops ⊢
    rw [absent']
    exact Tables.abreastFrameRight fits fun v F' _ => loops v E F'
  · rw [given] at loops ⊢
    rw [given']
    refine Tables.abreastFrame fits fun v E' F' _ fits => ?_
    exact ((Tables.runsAbreast T n).execute fits first).bind fun u le _ _ _ =>
      loops u E' F' (fits.mono le)

end For
end Lox
