import Lox.Proofs.Runs.Moments
import Lox.Proofs.Sessions

/-!
Frames lie inside frames, and classes below classes, in chains that end. Whatever a session is made
to do, and however it ends, the frame around a frame is never another one, the way out from any
frame leads to the globals, no frame loses a name, and the way up from any class ends.
-/

namespace Lox

inductive Trail (around : FrameId → Option FrameId) : FrameId → Env → Prop where
  | globals (last : around Store.globals = none) : Trail around Store.globals Store.globalEnv
  | step {f g env} (link : around f = some g) (older : g < f) (rest : Trail around g env) :
      Trail around f (f :: env)

theorem Trail.length {around : FrameId → Option FrameId} {f : FrameId} {env : Env}
    (h : Trail around f env) : env.length ≤ f + 1 := by
  induction h with
  | globals => simp [Store.globalEnv]
  | step _ older _ ih => exact Nat.succ_le_succ (Nat.le_trans ih older)

def Class.superclass? (c : Class) : Option Class :=
  match c.bases with
  | [] => none
  | own :: bases => some ⟨own, bases⟩

theorem Class.superclassOf {c k : Class} (h : c.bases = k.layers) : c.superclass? = some k := by
  unfold superclass?
  rw [h]
  rfl

inductive Ancestry (made : List Class) : Class → List Class → Prop where
  | root {c} (last : c.superclass? = none) : Ancestry made c [c]
  | step {c k ks} (link : c.superclass? = some k) (mem : k ∈ made) (older : k.own.id < c.own.id)
      (rest : Ancestry made k ks) : Ancestry made c (c :: ks)

theorem Ancestry.length {made : List Class} {c : Class} {ks : List Class} (h : Ancestry made c ks) :
    ks.length ≤ c.own.id + 1 := by
  induction h with
  | root => simp
  | step _ _ older _ ih => exact Nat.succ_le_succ (Nat.le_trans ih older)

theorem Ancestry.layers {made : List Class} {c : Class} {ks : List Class} (h : Ancestry made c ks) :
    c.layers = ks.map Class.own := by
  induction h with
  | @root c last =>
    unfold Class.superclass? at last
    cases bases : c.bases with
    | nil => simp [Class.layers, bases]
    | cons own rest => simp [bases] at last
  | @step c k ks link _ _ _ ih =>
    unfold Class.superclass? at link
    cases bases : c.bases with
    | nil => simp [bases] at link
    | cons own rest =>
      rw [bases] at link
      cases link
      rw [List.map_cons, ← ih, Class.layers, bases]
      rfl

namespace Moment

variable {μ μ' : Moment}

def around? (μ : Moment) (f : FrameId) : Option FrameId :=
  match μ.frames[f]? with
  | some l => l.env[1]?
  | none => none

theorem Sound.headed (h : μ.Sound) {f : FrameId} {l : Laid} (at' : μ.frames[f]? = some l) :
    ∃ outer, l.env = f :: outer := by
  by_cases first : f = 0
  · subst first
    obtain ⟨b, globals⟩ := h.first
    rw [globals] at at'
    cases at'
    exact ⟨[], rfl⟩
  · obtain ⟨g, o, -, -, env⟩ := h.inner f l at' first
    exact ⟨o.env, env⟩

theorem Sound.trail (h : μ.Sound) {f : FrameId} {l : Laid} (at' : μ.frames[f]? = some l) :
    Trail μ.around? f l.env := by
  induction f using Nat.strongRecOn generalizing l with
  | ind f ih =>
    by_cases first : f = 0
    · subst first
      obtain ⟨b, globals⟩ := h.first
      have last : μ.around? Store.globals = none := by
        unfold around?
        rw [show μ.frames[Store.globals]? = _ from globals]
        rfl
      rw [globals] at at'
      cases at'
      exact .globals last
    · obtain ⟨g, o, older, there, env⟩ := h.inner f l at' first
      obtain ⟨rest, outer⟩ := h.headed there
      rw [env]
      refine .step ?_ older (ih g older there)
      unfold around?
      rw [at']
      simp [env, outer]

theorem Sound.ancestry (h : μ.Sound) {c : Class} (mem : c ∈ μ.classes) :
    ∃ ks, Ancestry μ.classes c ks := by
  induction id : c.own.id using Nat.strongRecOn generalizing c with
  | ind n ih =>
    rcases h.bases c mem with none | ⟨k, mem', older, same⟩
    · exact ⟨[c], .root (by simp [Class.superclass?, none])⟩
    · obtain ⟨ks, rest⟩ := ih k.own.id (id ▸ older) mem' rfl
      exact ⟨c :: ks, .step (Class.superclassOf same) mem' older rest⟩

/- Every frame and every class is at the beginning of such a way, no longer than what was made up to
then, and the store knows no others. -/
structure Rooted (μ : Moment) : Prop where
  count : μ.frames.length = μ.store.frames.size
  frames : ∀ f < μ.store.frames.size, ∃ l, μ.frames[f]? = some l ∧ Trail μ.around? f l.env ∧
    l.env.length ≤ f + 1
  classes : ∀ c ∈ μ.classes, ∃ ks, Ancestry μ.classes c ks ∧ c.layers = ks.map Class.own ∧
    ks.length ≤ c.own.id + 1
  apart : μ.classes.Pairwise fun k c => k.own.id < c.own.id
  values : μ.store.All (μ.permit False).ValueOk

structure Shows (μ : Moment) (m : Machine) : Prop where
  store : μ.store = m.store
  env : (μ.permit False).env m.env
  rooted : μ.Rooted

theorem Held.rooted {s : Store} (h : μ.Held False s) : μ.Rooted where
  count := h.sound.count
  frames f live := by
    obtain ⟨l, at'⟩ : ∃ l, μ.frames[f]? = some l :=
      ⟨_, List.getElem?_eq_getElem (h.sound.count ▸ live)⟩
    have trail := h.sound.trail at'
    exact ⟨l, at', trail, trail.length⟩
  classes c mem := by
    obtain ⟨ks, ancestry⟩ := h.sound.ancestry mem
    exact ⟨ks, ancestry, ancestry.layers, ancestry.length⟩
  apart := h.sound.ids
  values := h.now ▸ h.values

abbrev Keeps (μ : Moment) (m : Machine) : Prop := (discipline False).Kept μ m

theorem shows {m : Machine} (h : μ.Keeps m) : μ.Shows m :=
  ⟨h.store.now, h.env, h.store.rooted⟩

end Moment

namespace Session

inductive Act where
  | scan (line : Int) (text : List Char)
  | parse
  | parseTyped
  | resolve
  | interpret
  | renew

def act (s : Session) : Act → Session
  | .scan line text => final (scanLine line text s)
  | .parse => final (Session.parse s)
  | .parseTyped => final (Session.parseTyped s)
  | .resolve => final (Session.resolve s)
  | .interpret => final (Session.interpret s)
  | .renew => s.renew

def after (s : Session) (acts : List Act) : Session := acts.foldl act s

def ComesBy (s : Session) (k : Nat) (t : Task) (m : Machine) : Prop :=
  match s.tree with
  | .program body =>
    Reaches fuel (.stmts body) { s.machine with locals := s.resolver.locals } k t m
  | .expression e => Reaches fuel (.expr e) { s.machine with locals := s.resolver.locals } k t m

def Still (store : Store) (env : Env) (s : Session) : Prop :=
  s.machine.store = store ∧ s.machine.env = env

variable {s : Session} {store : Store} {env : Env}

theorem keepsParsing {α : Type} (p : Parse α) : Keeps (Still store env) (parsing p) := by
  intro s still
  unfold parsing
  dsimp only
  cases p s.cursor <;> exact still

theorem keepsLoad (t : Tree) : Keeps (Still store env) (load t) := fun _ still => still

theorem keepsScanLine (line : Int) (text : List Char) :
    Keeps (Still store env) (scanLine line text) := by
  intro s still
  unfold scanLine
  dsimp only
  cases Scan.line text ⟨line, s.tokens, s.log, .none⟩ <;> exact still

theorem keepsResolve : Keeps (Still store env) resolve := by
  intro s still
  unfold resolve
  dsimp only
  cases Resolve.tree s.tree { s.resolver with log := s.log } <;> exact still

theorem actStill (s : Session) {a : Act} (other : a ≠ .interpret) :
    (s.act a).machine.store = s.machine.store ∧
      ((s.act a).machine.env = s.machine.env ∨ (s.act a).machine.env = Store.globalEnv) := by
  have still : ∀ {α : Type} {x : Interact α}, Keeps (Still s.machine.store s.machine.env) x →
      (final (x s)).machine.store = s.machine.store ∧
        ((final (x s)).machine.env = s.machine.env ∨
          (final (x s)).machine.env = Store.globalEnv) :=
    fun keeps => ⟨(keeps s ⟨rfl, rfl⟩).1, .inl (keeps s ⟨rfl, rfl⟩).2⟩
  cases a with
  | scan line text => exact still (keepsScanLine line text)
  | parse => exact still ((keepsParsing _).bind fun _ => keepsLoad _)
  | parseTyped => exact still ((keepsParsing _).bind fun _ => keepsLoad _)
  | resolve => exact still keepsResolve
  | renew => exact ⟨rfl, .inr rfl⟩
  | interpret => exact absurd rfl other

theorem keptStill {D : Discipline False} {w : D.World} (kept : D.Kept w s.machine) {a : Act}
    (other : a ≠ .interpret) : D.Kept w (s.act a).machine := by
  obtain ⟨store, env⟩ := s.actStill other
  refine ⟨store ▸ kept.store, ?_⟩
  rcases env with same | globals
  · rw [same]
    exact kept.env
  · rw [globals]
    exact D.globals kept.store

theorem interpretMachine (s : Session) : (final (interpret s)).machine =
    final (Eval.tree fuel s.tree { s.machine with locals := s.resolver.locals }) := by
  rw [interpretIs, concludedMachine]

theorem treeGoes {D : Discipline False} {w : D.World} (kept : D.Kept w s.machine) :
    ∃ ws w', D.Passes w ws w' ∧ D.Kept w' (final (interpret s)).machine ∧
      ∀ k t m, s.ComesBy k t m → ∃ v ∈ ws, D.Sits v t m := by
  let m : Machine := { s.machine with locals := s.resolver.locals }
  have kept : D.Kept w m := ⟨kept.store, kept.env⟩
  rw [interpretMachine]
  unfold ComesBy
  cases s.tree with
  | program body =>
    obtain ⟨ws, w', passes, ends, cover⟩ :=
      ((Discipline.follows (D := D) fuel).stmts body w m ⟨kept, False.elim, trivial⟩).then
        fun _ _ _ _ _ kept' _ => Discipline.goesPure (a := Value.nil) (Q := D.Valued) kept' trivial
    exact ⟨ws, w', passes, ends.kept, fun k t m' reach => (cover ws (fun _ h => h) k t m' reach).1⟩
  | expression e =>
    obtain ⟨ws, w', passes, ends, cover⟩ :=
      (Discipline.follows (D := D) fuel).expr e w m ⟨kept, False.elim, trivial⟩
    exact ⟨ws, w', passes, ends.kept, fun k t m' reach => (cover ws (fun _ h => h) k t m' reach).1⟩

structure Moves (s : Session) (a : Act) (μ μ' : Moment) : Prop where
  before : μ.Before μ'
  run : a = .interpret → ∃ passed : List Moment, passed.Pairwise Moment.Before ∧
    (∀ v ∈ passed, μ.Before v ∧ v.Before μ') ∧
    ∀ k t m, s.ComesBy k t m → ∃ v ∈ passed, v.Shows m ∧ (v.permit False).TaskOk t

theorem actMoves {μ : Moment} (kept : μ.Keeps s.machine) (a : Act) :
    ∃ μ', s.Moves a μ μ' ∧ μ'.Keeps (s.act a).machine := by
  by_cases run : a = .interpret
  · subst run
    obtain ⟨ws, μ', passes, kept', found⟩ := treeGoes kept
    refine ⟨μ', ⟨passes.le, fun _ => ⟨ws, passes.order, ?_, ?_⟩⟩, kept'⟩
    · exact fun v mem => ⟨passes.after v mem, passes.before v mem⟩
    · intro k t m comes
      obtain ⟨v, mem, sits⟩ := found k t m comes
      exact ⟨v, mem, Moment.shows sits.kept, sits.held⟩
  · exact ⟨μ, ⟨Moment.beforeRefl μ, fun same => absurd same run⟩, keptStill kept run⟩

theorem actsMove {μ : Moment} (kept : μ.Keeps s.machine) (acts : List Act) :
    ∃ moment : Nat → Moment, moment 0 = μ ∧ (∀ i, (moment i).Before (moment (i + 1))) ∧
      (∀ i, (moment i).Keeps (s.after (acts.take i)).machine) ∧
      ∀ i a, acts[i]? = some a → (s.after (acts.take i)).Moves a (moment i) (moment (i + 1)) := by
  induction acts generalizing s μ with
  | nil =>
    refine ⟨fun _ => μ, rfl, fun _ => Moment.beforeRefl μ, fun i => ?_, by simp⟩
    simpa [after] using kept
  | cons a acts ih =>
    obtain ⟨μ', moves, kept'⟩ := actMoves kept a
    obtain ⟨moment, first, order, keeps, steps⟩ := ih kept'
    subst first
    refine ⟨fun i => Nat.casesOn i μ moment, rfl, fun i => ?_, fun i => ?_, fun i b at' => ?_⟩
    · cases i with
      | zero => exact moves.before
      | succ i => exact order i
    · cases i with
      | zero => exact kept
      | succ i => exact keeps i
    · cases i with
      | zero =>
        cases at'
        exact moves
      | succ i => exact steps i b at'

theorem keepsFresh (setting : Setting) :
    (Moment.initial setting.memory).Keeps (fresh setting).machine :=
  have held := Moment.heldInitial False setting.memory
  ⟨held, (Moment.discipline False).globals held⟩

theorem chainsNeverChangeAndEnd (setting : Setting) (acts : List Act) :
    ∃ moment : Nat → Moment, (∀ i j, i ≤ j → (moment i).Before (moment j)) ∧
      (∀ i, (moment i).Shows ((fresh setting).after (acts.take i)).machine) ∧
      ∀ i, acts[i]? = some .interpret → ∃ passed : List Moment, passed.Pairwise Moment.Before ∧
        (∀ μ ∈ passed, (moment i).Before μ ∧ μ.Before (moment (i + 1))) ∧
        ∀ k t m, ((fresh setting).after (acts.take i)).ComesBy k t m →
          ∃ μ ∈ passed, μ.Shows m ∧ (μ.permit False).TaskOk t := by
  obtain ⟨moment, -, order, keeps, steps⟩ := actsMove (keepsFresh setting) acts
  refine ⟨moment, fun i j le => ?_, fun i => Moment.shows (keeps i), fun i at' => ?_⟩
  · induction le with
    | refl => exact Moment.beforeRefl _
    | step _ ih => exact ih.trans (order _)
  · exact (steps i _ at').run rfl

end Session
end Lox
