import Lox.Proofs.Runs.Contents
import Lox.Proofs.Runs.Reach

/-!
What a run keeps to. A discipline says which environments, classes, instances and arrays a
computation may hold and how the store has to look. It may say so by what was made so far, of which
nothing is ever lost. Each single operation of the evaluator keeps to it.
-/

namespace Lox

open Eval

structure Permit (strict : Prop) where
  env : Env → Prop
  klass : Class → Prop
  object : Nat → Prop
  array : Nat → Prop

namespace Permit

variable {strict : Prop} (P : Permit strict)

def RoutineOk (r : Routine) : Prop :=
  P.env r.closure ∧ (strict → r.decl.Shaped ∧ r.decl.name.isSome = true)

def ClassOk (c : Class) : Prop := P.klass c ∧ c.Holds P.RoutineOk

def ValueOk : Value → Prop
  | .function _ _ r => P.RoutineOk r
  | .class_ c => P.ClassOk c
  | .instance_ id c => P.object id ∧ P.ClassOk c
  | .array id => P.array id
  | .accessor _ _ id => P.array id
  | _ => True

def TaskOk : Task → Prop
  | .call f args => P.ValueOk f ∧ ∀ a ∈ args, P.ValueOk a
  | .routine r args => P.RoutineOk r ∧ ∀ a ∈ args, P.ValueOk a
  | _ => True

structure Le (P P' : Permit strict) : Prop where
  env : ∀ env, P.env env → P'.env env
  klass : ∀ c, P.klass c → P'.klass c
  object : ∀ id, P.object id → P'.object id
  array : ∀ id, P.array id → P'.array id

section

variable {P} {P' : Permit strict} (le : P.Le P')

include le

theorem Le.routine {r : Routine} (h : P.RoutineOk r) : P'.RoutineOk r :=
  ⟨le.env _ h.1, h.2⟩

theorem Le.class_ {c : Class} (h : P.ClassOk c) : P'.ClassOk c :=
  ⟨le.klass c h.1, fun l mem => (h.2 l mem).mono fun _ ok => le.routine ok⟩

theorem Le.value {v : Value} (h : P.ValueOk v) : P'.ValueOk v := by
  cases v with
  | function id name r => exact le.routine h
  | class_ c => exact le.class_ h
  | instance_ id c => exact ⟨le.object id h.1, le.class_ h.2⟩
  | array id => exact le.array id h
  | accessor id which array => exact le.array array h
  | _ => trivial

end

theorem found {P : Permit strict} {c : Class} (h : P.ClassOk c) {name : String} {r : Routine}
    (found : c.findMethod? name = some r) : P.RoutineOk r := Class.Holds.found h.2 found

end Permit

/-- A discipline with the proofs that the operations on a store keep to it. `frame` is what is
known about a frame since it was made: its environment and its first bindings. -/
structure Discipline (strict : Prop) where
  World : Type
  le : World → World → Prop
  permit : World → Permit strict
  store : World → Store → Prop
  frame : World → Env → Bindings Value → Prop
  refl : ∀ w, le w w
  trans : ∀ {w w' w''}, le w w' → le w' w'' → le w w''
  grows : ∀ {w w'}, le w w' → (permit w).Le (permit w')
  globals : ∀ {w s}, store w s → (permit w).env Store.globalEnv
  frameOk : ∀ {w s env f}, store w s → (permit w).env env → f ∈ env →
    (s.frame f).All (permit w).ValueOk
  fieldsOk : ∀ {w s id}, store w s → (permit w).object id → (s.fieldsOf id).All (permit w).ValueOk
  elementsOk : ∀ {w s id}, store w s → (permit w).array id →
    ∀ v ∈ s.elements id, (permit w).ValueOk v
  define : ∀ {w s env f name v}, store w s → (permit w).env env → f ∈ env →
    (strict → Keyword.ofWord? name = none) → (permit w).ValueOk v →
    ∃ w', le w w' ∧ store w' (s.define f name v)
  enter : ∀ {w s env b}, store w s → (permit w).env env → b.All (permit w).ValueOk →
    ∃ w', le w w' ∧ store w' (s.enter env b).2 ∧ (permit w').env (s.enter env b).1 ∧
      frame w' (s.enter env b).1 b
  newInstance : ∀ {w s c}, store w s → (permit w).ClassOk c →
    ∃ w', le w w' ∧ store w' (s.newInstance c).2 ∧ (permit w').object s.fields.size
  setField : ∀ {w s id name v}, store w s → (permit w).object id → (permit w).ValueOk v →
    ∃ w', le w w' ∧ store w' (s.setField id name v)
  newArray : ∀ {w s vs}, store w s → (∀ v ∈ vs, (permit w).ValueOk v) →
    ∃ w', le w w' ∧ store w' (s.newArray vs).2 ∧ (permit w').array s.arrays.size
  setElement : ∀ {w s id cell v}, store w s → (permit w).array id → (permit w).ValueOk v →
    ∃ w', le w w' ∧ store w' (s.setElement id cell v)
  freshId : ∀ {w s}, store w s → ∃ w', le w w' ∧ store w' s.freshId.2
  newClass : ∀ {w s} (name : String) {table base}, store w s →
    (∃ env methods, methodTable env methods [] = .ok table) →
    table.All (permit w).RoutineOk → (∀ c, base = some c → (permit w).ClassOk c) →
    ∃ w', le w w' ∧ store w' s.freshId.2 ∧
      (permit w').klass ⟨⟨s.nextId, name, table⟩, (base.map Class.layers).getD []⟩

namespace Discipline

variable {strict : Prop} (D : Discipline strict) {α β : Type}

structure Kept (w : D.World) (m : Machine) : Prop where
  store : D.store w m.store
  env : (D.permit w).env m.env

def Ends (Q : D.World → α → Prop) (w : D.World) : EStateM.Result Signal Machine α → Prop
  | .ok a m => D.Kept w m ∧ Q w a
  | .error e m => D.Kept w m ∧ ∀ v, e = .returned v → (D.permit w).ValueOk v

structure Passes (w : D.World) (ws : List D.World) (w' : D.World) : Prop where
  le : D.le w w'
  after : ∀ v ∈ ws, D.le w v
  before : ∀ v ∈ ws, D.le v w'
  order : ws.Pairwise D.le

/- A computation that keeps to the discipline. The worlds it comes through cover what `C` asks for,
and so do all lists with these worlds among them. -/
def Goes (w : D.World) (x : Eval α) (m : Machine) (Q : D.World → α → Prop)
    (C : List D.World → Prop) : Prop :=
  ∃ ws w', D.Passes w ws w' ∧ D.Ends Q w' (x m) ∧ ∀ all, ws ⊆ all → C all

abbrev Quiet (w : D.World) (x : Eval α) (m : Machine) (Q : D.World → α → Prop) : Prop :=
  D.Goes w x m Q fun _ => True

def Valued (w : D.World) (v : Value) : Prop := (D.permit w).ValueOk v

def Noted (all : List D.World) (env : Env) (b : Bindings Value) : Prop :=
  ∃ w ∈ all, D.frame w env b

variable {D} {w w' w'' : D.World} {m m' : Machine} {x : Eval α} {f : α → Eval β}
  {Q Q' : D.World → α → Prop} {R : D.World → β → Prop} {C C' : List D.World → Prop}

theorem Ends.kept {r : EStateM.Result Signal Machine α} (h : D.Ends Q w r) : D.Kept w (final r) := by
  cases r with
  | ok a m => exact h.1
  | error e m => exact h.1

theorem passesNone (le : D.le w w') : D.Passes w [] w' :=
  ⟨le, by simp, by simp, .nil⟩

theorem Passes.append {ws ws' : List D.World} (first : D.Passes w ws w')
    (rest : D.Passes w' ws' w'') : D.Passes w (ws ++ ws') w'' := by
  refine ⟨D.trans first.le rest.le, ?_, ?_, ?_⟩
  · intro v mem
    rcases List.mem_append.mp mem with early | late
    · exact first.after v early
    · exact D.trans first.le (rest.after v late)
  · intro v mem
    rcases List.mem_append.mp mem with early | late
    · exact D.trans (first.before v early) rest.le
    · exact rest.before v late
  · exact List.pairwise_append.mpr ⟨first.order, rest.order, fun v early u late =>
      D.trans (first.before v early) (rest.after u late)⟩

theorem Goes.bind {E : α → Machine → List D.World → Prop} (first : D.Goes w x m Q C)
    (rest : ∀ a m' w', x m = .ok a m' → D.le w w' → D.Kept w' m' → Q w' a →
      D.Goes w' (f a) m' R (E a m')) :
    D.Goes w (x >>= f) m R fun all => C all ∧ ∀ a m', x m = .ok a m' → E a m' all := by
  obtain ⟨ws, w', passes, ends, cover⟩ := first
  cases run : x m with
  | ok a m' =>
    rw [run] at ends
    obtain ⟨ws', w'', passes', ends', cover'⟩ := rest a m' w' run passes.le ends.1 ends.2
    refine ⟨ws ++ ws', w'', passes.append passes', ?_, fun all inside => ⟨cover all ?_, ?_⟩⟩
    · rw [bindRun, run]
      exact ends'
    · exact fun v mem => inside (by simp [mem])
    · intro b m₁ same
      cases same
      exact cover' all fun v mem => inside (by simp [mem])
  | error e m' =>
    rw [run] at ends
    refine ⟨ws, w', passes, ?_, fun all inside => ⟨cover all inside, ?_⟩⟩
    · rw [bindRun, run]
      exact ends
    · intro b m₁ same
      cases same

theorem Goes.cover (h : D.Goes w x m Q C) (enough : ∀ all, C all → C' all) :
    D.Goes w x m Q C' := by
  obtain ⟨ws, w', passes, ends, cover⟩ := h
  exact ⟨ws, w', passes, ends, fun all inside => enough all (cover all inside)⟩

theorem Goes.then (first : D.Goes w x m Q C)
    (rest : ∀ a m' w', x m = .ok a m' → D.le w w' → D.Kept w' m' → Q w' a →
      D.Quiet w' (f a) m' R) : D.Goes w (x >>= f) m R C :=
  (first.bind rest).cover fun _ both => both.1

theorem Goes.after {a : α} (run : x m = .ok a m) (rest : D.Goes w (f a) m R C) :
    D.Goes w (x >>= f) m R C := by
  unfold Goes at rest ⊢
  rw [bindRun, run]
  exact rest

theorem goesPure (kept : D.Kept w m) {a : α} (post : Q w a) : D.Quiet w (pure a) m Q :=
  ⟨[], w, passesNone (D.refl w), ⟨kept, post⟩, fun _ _ => trivial⟩

theorem goesStop (kept : D.Kept w m) {e : Signal} (plain : ∀ v, e ≠ .returned v) :
    D.Quiet w (throw e : Eval α) m Q :=
  ⟨[], w, passesNone (D.refl w), ⟨kept, fun v same => absurd same (plain v)⟩, fun _ _ => trivial⟩

theorem goesFail (kept : D.Kept w m) (f : Fault) : D.Quiet w (fail f : Eval α) m Q :=
  goesStop kept (by simp)

theorem goesReturned (kept : D.Kept w m) {v : Value} (value : D.Valued w v) :
    D.Quiet w (throw (.returned v) : Eval α) m Q :=
  ⟨[], w, passesNone (D.refl w), ⟨kept, fun u same => by cases same; exact value⟩,
    fun _ _ => trivial⟩

theorem goesLift (kept : D.Kept w m) {x : Except Fault α} (post : ∀ a, x = .ok a → Q w a) :
    D.Quiet w (lift x) m Q := by
  cases x with
  | ok a => exact goesPure kept (post a rfl)
  | error f => exact goesFail kept f

theorem goesAsk (kept : D.Kept w m) {x : Store → Except Fault α}
    (post : ∀ a, x m.store = .ok a → Q w a) : D.Quiet w (ask x) m Q :=
  Goes.after (getRun m) (goesLift kept post)

theorem Goes.lifted {E : α → List D.World → Prop} (kept : D.Kept w m) {x : Except Fault α}
    (rest : ∀ a, x = .ok a → D.Goes w (f a) m R (E a)) :
    D.Goes w (lift x >>= f) m R fun all => ∀ a, x = .ok a → E a all := by
  cases x with
  | ok a =>
    refine (Goes.after rfl (rest a rfl)).cover ?_
    rintro all cover b ⟨⟩
    exact cover
  | error e =>
    refine (goesFail kept e).cover ?_
    rintro _ _ a ⟨⟩

theorem Goes.asked {E : α → List D.World → Prop} (kept : D.Kept w m)
    {x : Store → Except Fault α} (rest : ∀ a, x m.store = .ok a → D.Goes w (f a) m R (E a)) :
    D.Goes w (ask x >>= f) m R fun all => ∀ a, x m.store = .ok a → E a all :=
  Goes.lifted kept rest

theorem Kept.move (kept : D.Kept w m) {s : Store} (le : D.le w w') (store : D.store w' s) :
    D.Kept w' { m with store := s } :=
  ⟨store, (D.grows le).env _ kept.env⟩

theorem goesChange (kept : D.Kept w m) {x : Store → α × Store}
    (moves : ∃ w', D.le w w' ∧ D.store w' (x m.store).2 ∧ Q w' (x m.store).1) :
    D.Quiet w (change x) m Q := by
  obtain ⟨w', le, store, post⟩ := moves
  exact ⟨[], w', passesNone le, ⟨kept.move le store, post⟩, fun _ _ => trivial⟩

theorem goesOnStore (kept : D.Kept w m) {x : Stored α}
    (ok : ∀ a s, x m.store = .ok a s → ∃ w', D.le w w' ∧ D.store w' s ∧ Q w' a)
    (error : ∀ f s, x m.store = .error f s → s = m.store) : D.Quiet w (onStore x) m Q := by
  cases run : x m.store with
  | ok a s =>
    obtain ⟨w', le, store, post⟩ := ok a s run
    refine ⟨[], w', passesNone le, ?_, fun _ _ => trivial⟩
    unfold onStore
    dsimp only
    rw [run]
    exact ⟨kept.move le store, post⟩
  | error f s =>
    cases error f s run
    refine ⟨[], w, passesNone (D.refl w), ?_, fun _ _ => trivial⟩
    unfold onStore
    dsimp only
    rw [run]
    exact ⟨⟨kept.store, kept.env⟩, fun v same => by cases same⟩

theorem goesNamed (kept : D.Kept w m) (t : Option Token) :
    D.Quiet w (Eval.named t) m fun _ u => t = some u := by
  cases t with
  | none => exact goesFail kept _
  | some u => exact goesPure kept rfl

theorem goesLexeme (kept : D.Kept w m) (t : Option Token) :
    D.Quiet w (Eval.lexeme t) m fun _ name => ∃ u, t = some u ∧ u.lexeme = name := by
  cases t with
  | none => exact goesFail kept _
  | some u => exact goesPure kept ⟨u, rfl, rfl⟩

theorem goesEnter (kept : D.Kept w m) {env : Env} {b : Bindings Value}
    (known : (D.permit w).env env) (values : b.All (D.permit w).ValueOk) :
    D.Goes w (change fun s => s.enter env b) m (fun w' env' => (D.permit w').env env')
      fun all => D.Noted all (m.store.enter env b).1 b := by
  obtain ⟨w', le, store, inner, noted⟩ := D.enter kept.store known values
  refine ⟨[w'], w', ⟨le, ?_, ?_, by simp⟩, ⟨kept.move le store, inner⟩, ?_⟩
  · simp [le]
  · simp [D.refl]
  · exact fun all inside => ⟨w', inside (by simp), noted⟩

theorem goesWithin {env : Env} (kept : D.Kept w m) (h : D.Goes w x { m with env := env } Q C) :
    D.Goes w (within env x) m Q C := by
  obtain ⟨ws, w', passes, ends, cover⟩ := h
  refine ⟨ws, w', passes, ?_, cover⟩
  have back : ∀ {m' : Machine}, D.Kept w' m' → D.Kept w' { m' with env := m.env } :=
    fun later => ⟨later.store, (D.grows passes.le).env _ kept.env⟩
  unfold within
  cases run : x { m with env := env } with
  | ok a m' =>
    rw [run] at ends
    exact ⟨back ends.1, ends.2⟩
  | error e m' =>
    rw [run] at ends
    exact ⟨back ends.1, ends.2⟩

theorem goesReturnedBy {x : Eval Unit} (h : D.Goes w x m (fun _ _ => True) C) :
    D.Goes w (returnedBy x) m (fun w' o => ∀ v ∈ o, D.Valued w' v) C := by
  obtain ⟨ws, w', passes, ends, cover⟩ := h
  refine ⟨ws, w', passes, ?_, cover⟩
  unfold returnedBy
  cases run : x m with
  | ok a m' =>
    rw [run] at ends
    exact ⟨ends.1, by simp⟩
  | error e m' =>
    rw [run] at ends
    cases e with
    | returned v =>
      refine ⟨ends.1, ?_⟩
      rintro u ⟨⟩
      exact ends.2 v rfl
    | fault f => exact ends
    | outOfFuel => exact ends

theorem frameAtMem {env : Env} {d : Int} {f : FrameId} (h : Store.frameAt env d = .ok f) :
    f ∈ env := by
  rw [Store.frameAtEq] at h
  split at h
  · next g found =>
    cases h
    exact List.mem_of_getElem? found
  · cases h

theorem readAtMem {s : Store} {env : Env} {d : Int} {name : String} {v : Value}
    (h : s.readAt env d name = .ok v) : ∃ f ∈ env, (s.frame f).get? name = some v := by
  unfold Store.readAt at h
  cases at' : Store.frameAt env d with
  | error e => simp [at', Bind.bind, Except.bind] at h
  | ok f =>
    cases found : (s.frame f).get? name with
    | none => simp [at', found, Bind.bind, Except.bind] at h
    | some u =>
      simp only [at', found, Bind.bind, Except.bind, Except.ok.injEq] at h
      exact ⟨f, frameAtMem at', by rw [found, h]⟩

theorem readAtOk {s : Store} (store : D.store w s) {env : Env} (known : (D.permit w).env env)
    {d : Int} {name : String} {v : Value} (read : s.readAt env d name = .ok v) : D.Valued w v := by
  obtain ⟨f, mem, found⟩ := readAtMem read
  exact D.frameOk store known mem name v found

theorem readOk {s : Store} (store : D.store w s) {t : Token} {v : Value}
    (read : s.read Store.globalEnv t = .ok v) : D.Valued w v := by
  unfold Store.read at read
  split at read
  · next u found =>
    cases read
    obtain ⟨f, mem, get⟩ := List.exists_of_findSome?_eq_some found
    exact D.frameOk store (D.globals store) mem _ _ get
  · cases read

theorem goesReadVariable (kept : D.Kept w m) (node : Nat) (t : Option Token) :
    D.Quiet w (readVariable node t) m D.Valued := by
  refine Goes.after (getRun m) ?_
  cases m.locals.distance? node with
  | some d =>
    refine (goesLexeme kept t).then fun name m' w' _ _ kept' _ => ?_
    refine Goes.after (getRun m') ?_
    exact goesAsk kept' fun v read => readAtOk kept'.store kept'.env read
  | none =>
    refine (goesNamed kept t).then fun u m' w' _ _ kept' _ => ?_
    exact goesAsk kept' fun v read => readOk kept'.store read

theorem goesDefine (kept : D.Kept w m) {env : Env} {f : FrameId} (known : (D.permit w).env env)
    (mem : f ∈ env) {name : String} (free : strict → Keyword.ofWord? name = none) {v : Value}
    (value : D.Valued w v) :
    D.Quiet w (change fun s => ((), s.define f name v)) m fun _ _ => True := by
  obtain ⟨w', le, store⟩ := D.define kept.store known mem free value
  exact goesChange kept ⟨w', le, store, trivial⟩

theorem goesAssign (kept : D.Kept w m) {env : Env} (known : (D.permit w).env env) {t : Token}
    (free : strict → Keyword.ofWord? t.lexeme = none) {v : Value} (value : D.Valued w v) :
    D.Quiet w (onStore (Store.assign env t v)) m fun _ _ => True := by
  refine goesOnStore kept (fun _ s run => ?_) fun f s run => ?_
  · unfold Store.assign at run
    split at run
    · next f held =>
      cases run
      obtain ⟨w', le, store⟩ := D.define kept.store known (List.mem_of_find?_eq_some held) free value
      exact ⟨w', le, store, trivial⟩
    · cases run
  · unfold Store.assign at run
    split at run
    · cases run
    · cases run
      rfl

theorem goesWriteVariable (kept : D.Kept w m) (node : Nat) {t : Option Token}
    (free : strict → Free t) {v : Value} (value : D.Valued w v) :
    D.Quiet w (writeVariable node t v) m fun _ _ => True := by
  refine Goes.after (getRun m) (Goes.after (getRun m) ?_)
  cases m.locals.distance? node with
  | some d =>
    refine (goesLift (Q := fun _ f => f ∈ m.env) kept fun f at' => frameAtMem at').then
      fun f m' w' run le kept' mem => ?_
    have known := (D.grows le).env _ kept.env
    have value := (D.grows le).value value
    refine (goesLexeme kept' t).then fun name m'' w'' _ le' kept'' given => ?_
    obtain ⟨u, rfl, rfl⟩ := given
    exact goesDefine kept'' ((D.grows le').env _ known) mem (fun h => free h u rfl)
      ((D.grows le').value value)
  | none =>
    refine (goesNamed kept t).then fun u m' w' _ le kept' given => ?_
    cases given
    exact goesAssign kept' ((D.grows le).env _ kept.env) (fun h => free h u rfl)
      ((D.grows le).value value)

theorem goesDefineHere (kept : D.Kept w m) {name : String}
    (free : strict → Keyword.ofWord? name = none) {v : Value} (value : D.Valued w v) :
    D.Quiet w (defineHere name v) m fun _ _ => True := by
  have moves : ∃ w', D.le w w' ∧ D.store w' (m.store.defineIn m.env name v) := by
    have known := kept.env
    cases env : m.env with
    | nil => exact ⟨w, D.refl w, kept.store⟩
    | cons f outer =>
      rw [env] at known
      exact D.define kept.store known List.mem_cons_self free value
  obtain ⟨w', le, store⟩ := moves
  exact ⟨[], w', passesNone le, ⟨kept.move le store, trivial⟩, fun _ _ => trivial⟩

theorem goesFresh (kept : D.Kept w m) : D.Quiet w (change Store.freshId) m fun _ _ => True := by
  obtain ⟨w', le, store⟩ := D.freshId kept.store
  exact goesChange kept ⟨w', le, store, trivial⟩

theorem goesReadClock (kept : D.Kept w m) : D.Quiet w readClock m fun _ _ => True :=
  ⟨[], w, passesNone (D.refl w), ⟨⟨kept.store, kept.env⟩, trivial⟩, fun _ _ => trivial⟩

theorem goesStamp (kept : D.Kept w m) (d : Datum) : D.Quiet w (stamp d) m D.Valued := by
  unfold stamp
  split
  · split
    · exact (goesFresh kept).then fun _ _ _ _ _ kept' _ => goesPure kept' trivial
    · exact goesPure kept trivial
  · exact goesPure kept trivial

theorem goesStamped {x : Eval Datum} (h : D.Quiet w x m fun _ _ => True) :
    D.Quiet w (do stamp (← x)) m D.Valued :=
  h.then fun d _ _ _ _ kept _ => goesStamp kept d

theorem goesArithmetic (kept : D.Kept w m) (op : Arithmetic) (l r : Value) :
    D.Quiet w (do stamp (← ask fun s => l.arithmetic s.memory op r)) m D.Valued :=
  goesStamped (goesAsk kept fun _ _ => trivial)

theorem goesTold (kept : D.Kept w m) (x : Store → Except Fault Bool) (f : Bool → Bool) :
    D.Quiet w (do return .bool (f (← ask x))) m D.Valued :=
  (goesAsk (Q := fun _ _ => True) kept fun _ _ => trivial).then
    fun _ _ _ _ _ kept' _ => goesPure kept' trivial

theorem goesOpKind (kept : D.Kept w m) (op : Option Token) :
    D.Quiet w (opKind op) m fun _ _ => True := by
  cases op with
  | none => exact goesFail kept _
  | some t => exact goesPure kept trivial

theorem goesBinary (kept : D.Kept w m) (op : Option Token) (l r : Value) :
    D.Quiet w (binary op l r) m D.Valued := by
  refine (goesOpKind kept op).then fun k m' w' _ _ kept _ => ?_
  split
  · exact goesArithmetic kept .add l r
  · exact goesArithmetic kept .sub l r
  · exact goesArithmetic kept .mul l r
  · exact goesArithmetic kept .div l r
  · exact goesTold kept (fun _ => l.compare .greater r) id
  · exact goesTold kept (fun _ => l.compare .greaterEqual r) id
  · exact goesTold kept (fun _ => l.compare .less r) id
  · exact goesTold kept (fun _ => l.compare .lessEqual r) id
  · exact goesTold kept (fun s => l.equal s r) id
  · exact goesTold kept (fun s => l.equal s r) not
  · exact goesPure kept trivial

theorem goesUnary (kept : D.Kept w m) (op : Option Token) (v : Value) :
    D.Quiet w (unary op v) m D.Valued := by
  refine (goesOpKind kept op).then fun k m' w' _ _ kept _ => ?_
  split
  · exact goesStamped (goesLift kept fun _ _ => trivial)
  · exact goesStamped (goesLift kept fun _ _ => trivial)
  · exact goesPure kept trivial

theorem goesTruth (kept : D.Kept w m) (v : Value) :
    D.Quiet w (lift v.truth) m fun _ _ => True := goesLift kept fun _ _ => trivial

theorem goesDecides (kept : D.Kept w m) (op : Option Token) (v : Value) :
    D.Quiet w (decides op v) m fun _ _ => True := by
  refine (goesOpKind kept op).then fun k m' w' _ _ kept _ => ?_
  split
  · exact goesTruth kept v
  · exact (goesTruth kept v).then fun _ _ _ _ _ kept' _ => goesPure kept' trivial
  · exact goesPure kept trivial

theorem goesEmit (kept : D.Kept w m) (v : Value) : D.Quiet w (emit v) m fun _ _ => True := by
  have still : ∀ {w : D.World} {m : Machine} {f : Machine → Machine}, D.Kept w m →
      (f m).store = m.store → (f m).env = m.env → D.Quiet w (modify f) m fun _ _ => True := by
    intro w m f kept store env
    refine ⟨[], w, passesNone (D.refl w), ⟨⟨?_, ?_⟩, trivial⟩, fun _ _ => trivial⟩
    · rw [store]
      exact kept.store
    · rw [env]
      exact kept.env
  refine Goes.after (getRun m) ?_
  split
  · refine (goesAsk (Q := fun _ _ => True) kept fun _ _ => trivial).then
      fun text m' w' _ _ kept' _ => ?_
    exact still kept' rfl rfl
  · exact still kept rfl rfl

theorem goesFunctionValue (kept : D.Kept w m) {r : Routine} (known : (D.permit w).env r.closure)
    (shaped : strict → r.decl.Shaped) : D.Quiet w (functionValue r) m D.Valued := by
  refine (goesLexeme kept r.decl.name).then fun name m' w' _ le kept' given => ?_
  obtain ⟨u, named, -⟩ := given
  refine (goesFresh kept').then fun id m'' w'' _ le' kept'' _ => ?_
  exact goesPure kept'' ⟨(D.grows (D.trans le le')).env _ known, fun h => ⟨shaped h, by simp [named]⟩⟩

theorem goesBindRoutine (kept : D.Kept w m) {r : Routine} (ok : (D.permit w).RoutineOk r)
    {this : Value} (value : D.Valued w this) :
    D.Goes w (bindRoutine r this) m (fun w' r' => (D.permit w').RoutineOk r') fun all =>
      ∀ r' m', bindRoutine r this m = .ok r' m' → D.Noted all r'.closure [("this", this)] := by
  refine Goes.cover ((goesEnter kept ok.1 (Bindings.allOne value)).then
    fun env m' w' _ _ kept' known => goesPure kept' ⟨known, ok.2⟩) fun all noted r' m' run => ?_
  cases run
  exact noted

theorem goesBind (kept : D.Kept w m) {r : Routine} (ok : (D.permit w).RoutineOk r)
    {this : Value} (value : D.Valued w this) :
    D.Goes w (Eval.bind r this) m D.Valued fun all =>
      ∀ r' m', bindRoutine r this m = .ok r' m' → D.Noted all r'.closure [("this", this)] :=
  (goesBindRoutine kept ok value).then fun _ _ _ _ _ kept' ok' =>
    goesFunctionValue kept' ok'.1 fun h => (ok'.2 h).1

theorem goesProperty (kept : D.Kept w m) {id : Nat} {c : Class}
    (object : D.Valued w (.instance_ id c)) (t : Token) :
    D.Goes w (property (.instance_ id c) id c t) m D.Valued fun all =>
      ∀ r r' m', (m.store.fieldsOf id).get? t.lexeme = none → c.findMethod? t.lexeme = some r →
        bindRoutine r (.instance_ id c) m = .ok r' m' →
        D.Noted all r'.closure [("this", .instance_ id c)] := by
  refine Goes.after (getRun m) ?_
  cases field : (m.store.fieldsOf id).get? t.lexeme with
  | some v =>
    refine (goesPure kept (D.fieldsOk kept.store object.1 _ v field)).cover ?_
    intro _ _ r r' m' unset
    cases unset
  | none =>
    cases found : c.findMethod? t.lexeme with
    | some r =>
      refine (goesBind kept (Permit.found object.2 found) object).cover ?_
      intro all noted r₁ r' m' _ same run
      cases same
      exact noted r' m' run
    | none =>
      refine (goesFail kept _).cover ?_
      intro _ _ r r' m' _ same
      cases same

theorem goesArrayMember (kept : D.Kept w m) {id : Nat} (known : (D.permit w).array id) (t : Token) :
    D.Quiet w (onStore (Store.arrayMember id t)) m D.Valued := by
  obtain ⟨w', le, store⟩ := D.freshId kept.store
  refine goesOnStore kept (fun v s run => ?_) fun f s run => ?_
  · unfold Store.arrayMember at run
    split at run
    · cases run
      exact ⟨w', le, store, (D.grows le).array id known⟩
    · cases run
      exact ⟨w', le, store, (D.grows le).array id known⟩
    · cases run
      exact ⟨w, D.refl w, kept.store, trivial⟩
    · cases run
  · unfold Store.arrayMember at run
    split at run
    · cases run
    · cases run
    · cases run
    · cases run
      rfl

theorem goesGetProperty (kept : D.Kept w m) {object : Value} (value : D.Valued w object)
    (t : Option Token) :
    D.Goes w (getProperty object t) m D.Valued fun all =>
      ∀ u id c r r' m', t = some u → object = .instance_ id c →
        (m.store.fieldsOf id).get? u.lexeme = none → c.findMethod? u.lexeme = some r →
        bindRoutine r object m = .ok r' m' → D.Noted all r'.closure [("this", object)] := by
  cases object with
  | instance_ id c =>
    cases t with
    | none =>
      refine (goesFail kept _).cover ?_
      intro _ _ u id c r r' m' same
      cases same
    | some u =>
      refine (Goes.after rfl (goesProperty kept value u)).cover ?_
      intro all noted u' id' c' r r' m' same same' unset found run
      cases same
      cases same'
      exact noted r r' m' unset found run
  | array id =>
    refine ((goesNamed kept t).then fun u m' w' _ le kept' _ =>
      goesArrayMember kept' ((D.grows le).array id value) u).cover ?_
    intro _ _ u id' c r r' m' _ same
    cases same
  | _ =>
    refine (goesFail kept _).cover ?_
    intro _ _ u id' c r r' m' _ same
    cases same

theorem goesCheckSettable (kept : D.Kept w m) (object : Value) (t : Option Token) :
    D.Quiet w (checkSettable object t) m fun _ _ => True := by
  cases object with
  | instance_ id c => exact goesPure kept trivial
  | array id => exact goesPure kept trivial
  | _ => exact goesFail kept _

theorem goesSetProperty (kept : D.Kept w m) {object : Value} (known : D.Valued w object)
    (t : Option Token) {v : Value} (value : D.Valued w v) :
    D.Quiet w (setProperty object t v) m fun _ _ => True := by
  cases object with
  | instance_ id c =>
    refine (goesLexeme kept t).then fun name m' w' _ le kept' _ => ?_
    obtain ⟨w'', le', store⟩ :=
      D.setField kept'.store ((D.grows le).object id known.1) ((D.grows le).value value)
    exact goesChange kept' ⟨w'', le', store, trivial⟩
  | array id => exact goesFail kept _
  | _ => exact goesFail kept _

theorem readCellMem {s : Store} {id : Nat} {index v : Value} (h : s.readCell id index = .ok v) :
    v = .nil ∨ v ∈ s.elements id := by
  unfold Store.readCell at h
  cases cell : cellOf (s.elements id).size index .outOfRange with
  | error f => simp [cell, Bind.bind, Except.bind] at h
  | ok c =>
    simp only [cell, Bind.bind, Except.bind, pure, Except.pure, Except.ok.injEq] at h
    rw [← h, Array.getD_eq_getD_getElem?]
    by_cases inside : c < (s.elements id).size
    · right
      simp [inside]
    · left
      simp [inside]

theorem goesReadCell (kept : D.Kept w m) {id : Nat} (known : (D.permit w).array id)
    (index : Value) : D.Quiet w (ask fun s => s.readCell id index) m D.Valued := by
  refine goesAsk kept fun v read => ?_
  rcases readCellMem read with rfl | mem
  · trivial
  · exact D.elementsOk kept.store known v mem

theorem goesWriteCell (kept : D.Kept w m) {id : Nat} (known : (D.permit w).array id)
    (index : Value) {v : Value} (value : D.Valued w v) :
    D.Quiet w (onStore (Store.writeCell id index v)) m fun _ _ => True := by
  refine goesOnStore kept (fun _ s run => ?_) fun f s run => ?_
  · unfold Store.writeCell at run
    split at run
    · cases run
      obtain ⟨w', le, store⟩ := D.setElement kept.store known value
      exact ⟨w', le, store, trivial⟩
    · cases run
  · unfold Store.writeCell at run
    split at run
    · cases run
    · cases run
      rfl

theorem goesMakeArray (kept : D.Kept w m) (size : Value) :
    D.Quiet w (onStore (Store.makeArray size)) m D.Valued := by
  refine goesOnStore kept (fun v s run => ?_) fun f s run => ?_
  · unfold Store.makeArray at run
    split at run
    · next k _ =>
      cases run
      have empty : ∀ v ∈ Array.replicate k Value.nil, D.Valued w v := by
        intro v mem
        rw [(Array.mem_replicate.mp mem).2]
        trivial
      exact D.newArray kept.store empty
    · cases run
  · unfold Store.makeArray at run
    split at run
    · cases run
    · cases run
      rfl

theorem goesSuperMethod (kept : D.Kept w m) (node : Nat) (t : Option Token) :
    D.Goes w (superMethod node t) m D.Valued fun all =>
      ∀ u d c this r r' m', t = some u → m.locals.distance? node = some d →
        m.store.readAt m.env d "super" = .ok (.class_ c) →
        m.store.readAt m.env ((d : Int) - 1) "this" = .ok this →
        c.findMethod? u.lexeme = some r → bindRoutine r this m = .ok r' m' →
        D.Noted all r'.closure [("this", this)] := by
  refine Goes.after (getRun m) (Goes.after (getRun m) ?_)
  cases entry : m.locals.distance? node with
  | none =>
    refine (goesFail kept _).cover ?_
    rintro _ _ u d c this r r' m' _ ⟨⟩
  | some d =>
    refine Goes.cover (Goes.asked kept fun base read =>
      Goes.asked (E := fun this all => ∀ u c r r' m', t = some u → base = .class_ c →
        c.findMethod? u.lexeme = some r → bindRoutine r this m = .ok r' m' →
        D.Noted all r'.closure [("this", this)]) kept fun this read' => ?_) ?_
    · have value := readAtOk kept.store kept.env read
      cases base with
      | class_ c =>
        cases t with
        | none =>
          refine (goesFail kept _).cover ?_
          rintro _ _ u c r r' m' ⟨⟩
        | some u =>
          refine Goes.after (x := Eval.named (some u)) rfl ?_
          cases found : c.findMethod? u.lexeme with
          | none =>
            refine (goesFail kept _).cover ?_
            rintro _ _ u' c' r r' m' ⟨⟩ ⟨⟩ found'
            cases found.symm.trans found'
          | some r =>
            have receiver := readAtOk kept.store kept.env read'
            refine (goesBind kept (Permit.found value found) receiver).cover ?_
            rintro all noted u' c' r₁ r' m' ⟨⟩ ⟨⟩ found' run
            cases found.symm.trans found'
            exact noted r' m' run
      | _ =>
        refine (goesFail kept _).cover ?_
        rintro _ _ u c r r' m' _ ⟨⟩
    · rintro all noted u d' c this r r' m' same ⟨⟩ read read' found run
      exact noted _ read _ read' u c r r' m' same rfl found run

theorem goesMethodTable (kept : D.Kept w m) {env : Env} (known : (D.permit w).env env)
    {methods : List FunDecl} (shaped : strict → FunDecl.AllShaped methods) :
    D.Quiet w (lift (methodTable env methods [])) m fun w' table =>
      methodTable env methods [] = .ok table ∧ Bindings.All (D.permit w').RoutineOk table := by
  refine goesLift kept fun table run =>
    ⟨run, methodsAll run Bindings.allNil fun f mem u named => ?_⟩
  refine ⟨known, fun h => ⟨shapedOfMem (shaped h) mem, ?_⟩⟩
  simp [named]

theorem goesClassValue (kept : D.Kept w m) (name : String) {table : Bindings Routine}
    (made : ∃ env methods, methodTable env methods [] = .ok table)
    (own : table.All (D.permit w).RoutineOk) {base : Option Class}
    (inherited : ∀ c, base = some c → (D.permit w).ClassOk c) :
    D.Quiet w (classValue name table base) m D.Valued := by
  obtain ⟨w', le, store, known⟩ := D.newClass name kept.store made own inherited
  refine ⟨[], w', passesNone le, ⟨kept.move le store, known, ?_⟩, fun _ _ => trivial⟩
  intro l mem
  rcases List.mem_cons.mp mem with rfl | later
  · exact own.mono fun r ok => (D.grows le).routine ok
  · cases base with
    | none => cases later
    | some c => exact ((inherited c rfl).2 l later).mono fun r ok => (D.grows le).routine ok

theorem goesSetEnv (kept : D.Kept w m) {env : Env} (known : (D.permit w).env env) :
    D.Quiet w (setEnv env) m fun _ _ => True :=
  ⟨[], w, passesNone (D.refl w), ⟨⟨kept.store, known⟩, trivial⟩, fun _ _ => trivial⟩

theorem goesClassBody (kept : D.Kept w m) {env : Env} (known : (D.permit w).env env) {u : Token}
    (free : strict → Keyword.ofWord? u.lexeme = none) {methods : List FunDecl}
    (shaped : strict → FunDecl.AllShaped methods) {base : Option Class}
    (inherited : ∀ c, base = some c → (D.permit w).ClassOk c) :
    D.Quiet w (do
      let table ← lift (methodTable (← get).env methods [])
      let v ← classValue u.lexeme table base
      setEnv env
      onStore (Store.assign env u v)) m fun _ _ => True := by
  refine Goes.after (getRun m) ?_
  refine (goesMethodTable kept kept.env shaped).then fun table m₁ w₁ _ le₁ kept₁ own => ?_
  refine (goesClassValue kept₁ u.lexeme ⟨_, _, own.1⟩ own.2 fun c same =>
    (D.grows le₁).class_ (inherited c same)).then fun v m₂ w₂ _ le₂ kept₂ value => ?_
  have known := (D.grows (D.trans le₁ le₂)).env _ known
  refine (goesSetEnv kept₂ known).then fun _ m₃ w₃ _ le₃ kept₃ _ => ?_
  exact goesAssign kept₃ ((D.grows le₃).env _ known) free ((D.grows le₃).value value)

theorem goesDeclareClass (kept : D.Kept w m) {t : Option Token} {methods : List FunDecl}
    (free : strict → Free t) (shaped : strict → FunDecl.AllShaped methods) {base : Option Class}
    (inherited : ∀ c, base = some c → (D.permit w).ClassOk c) :
    D.Goes w (declareClass t methods base) m (fun _ _ => True) fun all =>
      ∀ u c, t = some u → base = some c →
        D.Noted all ((m.store.defineIn m.env u.lexeme .nil).enter m.env [("super", .class_ c)]).1
          [("super", .class_ c)] := by
  cases t with
  | none =>
    refine (goesFail kept _).cover ?_
    rintro _ _ u c ⟨⟩
  | some u =>
    have free : strict → Keyword.ofWord? u.lexeme = none := fun h => free h u rfl
    refine Goes.after (x := Eval.named (some u)) rfl ?_
    refine Goes.cover ((goesDefineHere (v := .nil) kept free trivial).bind
      (E := fun _ m₁ all => ∀ c, base = some c → D.Noted all (m₁.store.enter m.env
        [("super", .class_ c)]).1 [("super", .class_ c)]) fun _ m₁ w₁ run le₁ kept₁ _ => ?_) ?_
    · cases run
      have inherited : ∀ c, base = some c → (D.permit w₁).ClassOk c :=
        fun c same => (D.grows le₁).class_ (inherited c same)
      refine Goes.after (getRun _) ?_
      cases base with
      | none =>
        refine (goesClassBody kept₁ kept₁.env free shaped inherited).cover ?_
        rintro _ _ c ⟨⟩
      | some c =>
        have value : Bindings.All (D.permit w₁).ValueOk [("super", .class_ c)] :=
          Bindings.allOne (inherited c rfl)
        refine ((goesEnter kept₁ kept₁.env value).then fun env m₂ w₂ _ le₂ kept₂ known => ?_).cover ?_
        · refine (goesSetEnv kept₂ known).then fun _ m₃ w₃ _ le₃ kept₃ _ => ?_
          have le₃ := D.trans le₂ le₃
          exact goesClassBody kept₃ ((D.grows le₃).env _ kept₁.env) free shaped fun c same =>
            (D.grows le₃).class_ (inherited c same)
        · rintro all noted _ ⟨⟩
          exact noted
    · rintro all ⟨-, noted⟩ u' c ⟨⟩ same
      exact noted () _ rfl c same

end Discipline
end Lox
