import Lox.Proofs.Runs.Frames
import Mathlib.Data.List.Forall2

/-!
Variables in nested scopes. A name belongs to the innermost frame of an environment that has it: this
is the one that is read and changed by the name, and nothing else changes. Going out by the number of
steps to that frame comes to the same, and this number is what resolution records for a use of the
name, wherever the scopes around the use have the names of the local frames.
-/

namespace Lox

namespace Bindings

variable {α : Type}

theorem hasIffMem {b : Bindings α} {name : String} : b.has name = true ↔ name ∈ b.names := by
  induction b with
  | nil => simp [has, names]
  | cons p rest ih =>
    obtain ⟨n, w⟩ := p
    by_cases same : n = name
    · simp [has, names, get?_cons, same]
    · have ih : (get? rest name).isSome = true ↔ name ∈ names rest := ih
      simp [has, names, get?_cons, same, ih, Ne.symm same]

theorem getOfHasNot {b : Bindings α} {name : String} (h : b.has name = false) :
    b.get? name = none := by
  simpa [has] using h

theorem namesPut {b : Bindings α} {name : String} (h : b.has name = true) (v : α) :
    (b.put name v).names = b.names := by
  induction b with
  | nil => simp [has] at h
  | cons p rest ih =>
    obtain ⟨n, w⟩ := p
    by_cases same : n = name
    · simp [put, names, same]
    · have later : has rest name = true := by simpa [has, get?_cons, same] using h
      have ih : (put rest name v).map (·.1) = rest.map (·.1) := ih later
      simp [put, names, same, ih]

end Bindings

namespace Store

structure BoundAt (s : Store) (env : Env) (name : String) (d : Nat) (f : FrameId) : Prop where
  there : env[d]? = some f
  has : (s.frame f).has name = true
  first : ∀ g ∈ env.take d, (s.frame g).has name = false

def Unbound (s : Store) (env : Env) (name : String) : Prop :=
  ∀ f ∈ env, (s.frame f).has name = false

variable {s s' : Store} {env : Env} {name : String} {d : Nat} {f : FrameId} {t : Token} {v : Value}

theorem BoundAt.outside {g : FrameId} (h : s.BoundAt env name d f)
    (hasNot : (s.frame g).has name = false) : s.BoundAt (g :: env) name (d + 1) f where
  there := h.there
  has := h.has
  first := List.forall_mem_cons.mpr ⟨hasNot, h.first⟩

theorem boundOrUnbound (s : Store) (env : Env) (name : String) :
    (∃ d f, s.BoundAt env name d f) ∨ s.Unbound env name := by
  induction env with
  | nil => exact .inr (by simp [Unbound])
  | cons g outer ih =>
    cases has : (s.frame g).has name with
    | true => exact .inl ⟨0, g, rfl, has, by simp⟩
    | false =>
      rcases ih with ⟨d, f, bound⟩ | unbound
      · exact .inl ⟨d + 1, f, bound.outside has⟩
      · exact .inr (List.forall_mem_cons.mpr ⟨has, unbound⟩)

theorem BoundAt.drop (h : s.BoundAt env name d f) : env.drop d = f :: env.drop (d + 1) := by
  obtain ⟨lt, rfl⟩ := List.getElem?_eq_some_iff.mp h.there
  exact List.drop_eq_getElem_cons lt

theorem BoundAt.split (h : s.BoundAt env name d f) :
    env = env.take d ++ f :: env.drop (d + 1) := by
  rw [← h.drop, List.take_append_drop]

theorem BoundAt.holder (h : s.BoundAt env name d f) : s.holder? env name = some f := by
  unfold holder?
  rw [List.find?_eq_some_iff_append]
  exact ⟨h.has, env.take d, env.drop (d + 1), h.split, fun g mem => by simp [h.first g mem]⟩

theorem BoundAt.lookup (h : s.BoundAt env name d f) :
    s.lookup? env name = (s.frame f).get? name := by
  obtain ⟨w, bound⟩ := getOfHas h.has
  rw [bound]
  unfold lookup?
  rw [List.findSome?_eq_some_iff]
  exact ⟨env.take d, f, env.drop (d + 1), h.split, bound,
    fun g mem => Bindings.getOfHasNot (h.first g mem)⟩

theorem BoundAt.read (h : s.BoundAt env t.lexeme d f)
    (bound : (s.frame f).get? t.lexeme = some v) : s.read env t = .ok v := by
  unfold Store.read
  rw [h.lookup, bound]

theorem BoundAt.assign (h : s.BoundAt env t.lexeme d f) (v : Value) :
    Store.assign env t v s = .ok () (s.define f t.lexeme v) := by
  unfold Store.assign
  rw [h.holder]

theorem Unbound.read (h : s.Unbound env t.lexeme) :
    s.read env t = .error (.undefinedVariable t) := by
  have none : s.lookup? env t.lexeme = none :=
    List.findSome?_eq_none_iff.mpr fun g mem => Bindings.getOfHasNot (h g mem)
  unfold Store.read
  rw [none]

theorem Unbound.assign (h : s.Unbound env t.lexeme) (v : Value) :
    Store.assign env t v s = .error (.undefinedVariable t) s := by
  have none : s.holder? env t.lexeme = none :=
    List.find?_eq_none.mpr fun g mem => by simp [h g mem]
  unfold Store.assign
  rw [none]

structure Rebound (s : Store) (f : FrameId) (name : String) (v : Value) (s' : Store) : Prop where
  value : (s'.frame f).get? name = some v
  others : ∀ other, other ≠ name → (s'.frame f).get? other = (s.frame f).get? other
  names : ∀ g, (s'.frame g).names = (s.frame g).names
  frames : ∀ g, g ≠ f → s'.frame g = s.frame g
  rest : s' = { s with frames := s'.frames } ∧ s'.frames.size = s.frames.size

theorem rebound (has : (s.frame f).has name = true) (v : Value) :
    s.Rebound f name v (s.define f name v) := by
  have self := s.frameDefineSelf (s.liveOfHas has) name v
  refine ⟨?_, fun other apart => ?_, fun g => ?_, fun g apart => s.frameDefineOther apart name v,
    rfl, s.sizeDefine f name v⟩
  · rw [self, Bindings.get?_put_self]
  · rw [self, Bindings.get?_put_of_ne _ _ apart]
  · by_cases same : g = f
    · subst same
      rw [self, Bindings.namesPut has]
    · rw [s.frameDefineOther same]

namespace Rebound

variable (h : s.Rebound f name v s')

include h

theorem get {other : String} (apart : other ≠ name) (g : FrameId) :
    (s'.frame g).get? other = (s.frame g).get? other := by
  by_cases same : g = f
  · subst same
    exact h.others other apart
  · rw [h.frames g same]

theorem has (g : FrameId) (other : String) : (s'.frame g).has other = (s.frame g).has other := by
  rw [Bool.eq_iff_iff, Bindings.hasIffMem, Bindings.hasIffMem, h.names]

theorem boundAt {other : String} (bound : s.BoundAt env other d f) : s'.BoundAt env other d f where
  there := bound.there
  has := (h.has f other).trans bound.has
  first g mem := (h.has g other).trans (bound.first g mem)

theorem readOther {u : Token} (apart : u.lexeme ≠ name) (env : Env) :
    s'.read env u = s.read env u := by
  unfold Store.read lookup?
  rw [show (fun g => (s'.frame g).get? u.lexeme) = fun g => (s.frame g).get? u.lexeme from
    funext fun g => h.get apart g]

end Rebound

/-- Assigning to a name succeeds wherever reading it does. It then changes the binding in the
innermost frame that has the name and nothing else, so the name is read with the new value and every
other name as before, from any environment; where it fails, it fails as reading does and leaves the
store alone. -/
theorem assigningFollowsReading (s : Store) (env : Env) (t : Token) (v : Value) :
    ((∃ s', Store.assign env t v s = .ok () s') ↔ ∃ w, s.read env t = .ok w) ∧
    (∀ s', Store.assign env t v s = .ok () s' → ∃ d f, s.BoundAt env t.lexeme d f ∧
      s.Rebound f t.lexeme v s' ∧ (∀ u : Token, u.lexeme = t.lexeme → s'.read env u = .ok v) ∧
      ∀ (u : Token) env', u.lexeme ≠ t.lexeme → s'.read env' u = s.read env' u) ∧
    ∀ e s', Store.assign env t v s = .error e s' ↔
      s.read env t = .error e ∧ e = .undefinedVariable t ∧ s' = s := by
  rcases s.boundOrUnbound env t.lexeme with ⟨d, f, bound⟩ | unbound
  · obtain ⟨w, held⟩ := getOfHas bound.has
    have read := bound.read held
    have changed := rebound bound.has v
    rw [bound.assign v, read]
    refine ⟨⟨fun _ => ⟨w, rfl⟩, fun _ => ⟨_, rfl⟩⟩, ?_, by simp⟩
    rintro _ ⟨⟩
    refine ⟨d, f, bound, changed, fun u same => ?_, fun u env' apart => changed.readOther apart env'⟩
    have bound' : s.BoundAt env u.lexeme d f := same ▸ bound
    exact (changed.boundAt bound').read (same ▸ changed.value)
  · rw [unbound.assign v, unbound.read]
    refine ⟨by simp, by simp, fun e s' => ⟨?_, ?_⟩⟩
    · rintro ⟨⟩
      exact ⟨rfl, rfl, rfl⟩
    · rintro ⟨-, rfl, rfl⟩
      rfl

theorem BoundAt.readAt (h : s.BoundAt env name d f) (bound : (s.frame f).get? name = some v) :
    s.readAt env d name = .ok v :=
  readAtDrop h.drop bound

theorem BoundAt.assignAt (h : s.BoundAt env t.lexeme d f) (v : Value) :
    Store.assignAt env d t.lexeme v s = Store.assign env t v s := by
  unfold Store.assignAt
  rw [frameAtDrop h.drop, h.assign v]

theorem frameAtFails (f : FrameId) (outer : Env) (d : Int) (e : Fault) :
    frameAt (f :: outer) d = .error e ↔ (outer.length : Int) < d ∧ e = .noEnclosing := by
  have far : (f :: outer)[d.toNat]? = none ↔ (outer.length : Int) < d := by
    rw [List.getElem?_eq_none_iff, List.length_cons]
    omega
  rw [frameAtEq]
  cases found : (f :: outer)[d.toNat]? with
  | none => simp [far.mp found, eq_comm]
  | some g =>
    have near : ¬(outer.length : Int) < d := fun less => by
      rw [far.mpr less] at found
      cases found
    simp [near]

end Store

def SameNames (s : Store) (scopes : List Scope) (frames : Env) : Prop :=
  List.Forall₂ (fun scope f => ∀ name, scope.has name = (s.frame f).has name) scopes frames

section

variable {s : Store} {scopes : List Scope} {frames : Env} {name : String} {d : Nat} {f : FrameId}

theorem SameNames.depth (same : SameNames s scopes frames) (bound : s.BoundAt frames name d f) :
    Resolve.depth? scopes name = some d := by
  induction same generalizing d with
  | nil => cases bound.there
  | @cons scope g scopes frames names _ ih =>
    have here : scope.has name = (s.frame g).has name := names name
    rw [Resolve.depthEq] at ih ⊢
    rw [List.findIdx?_cons, here]
    cases d with
    | zero =>
      cases bound.there
      rw [bound.has, if_pos rfl]
    | succ d =>
      rw [bound.first g (by simp), if_neg (by simp), ih ⟨bound.there, bound.has, fun g mem =>
        bound.first g (by simp [mem])⟩]
      rfl

theorem SameNames.noDepth (same : SameNames s scopes frames) (unbound : s.Unbound frames name) :
    Resolve.depth? scopes name = none := by
  induction same with
  | nil => rfl
  | @cons scope g scopes frames names _ ih =>
    have here : scope.has name = (s.frame g).has name := names name
    rw [Resolve.depthEq] at ih ⊢
    rw [List.findIdx?_cons, here, unbound g (by simp), if_neg (by simp),
      ih fun f mem => unbound f (by simp [mem])]
    rfl

end

structure Recorded (r : Resolver) (node d : Nat) (r' : Resolver) : Prop where
  entry : r'.locals.distance? node = some d
  others : ∀ other, other ≠ node → r'.locals.distance? other = r.locals.distance? other
  rest : r' = { r with locals := r'.locals }

theorem recorded (r : Resolver) (l : Local) :
    Recorded r l.node l.distance { r with locals := r.locals.record l } where
  entry := by rw [distanceRecord, if_pos rfl]
  others other apart := by rw [distanceRecord, if_neg (Ne.symm apart)]
  rest := rfl

section

open Eval

variable {m : Machine} {node d : Nat} {t : Token}

theorem readEntered (entry : m.locals.distance? node = some d) :
    readVariable node (some t) m = lift (m.store.readAt m.env d t.lexeme) m := by
  unfold readVariable
  rw [getBind, entry]
  rfl

theorem readUnentered (entry : m.locals.distance? node = none) :
    readVariable node (some t) m = lift (m.store.read Store.globalEnv t) m := by
  unfold readVariable
  rw [getBind, entry]
  rfl

theorem writeEntered (entry : m.locals.distance? node = some d) (v : Value) :
    writeVariable node (some t) v m = onStore (Store.assignAt m.env d t.lexeme v) m := by
  unfold writeVariable onStore Store.assignAt
  rw [getBind, getBind, entry]
  dsimp only
  cases Store.frameAt m.env d <;> rfl

theorem writeUnentered (entry : m.locals.distance? node = none) (v : Value) :
    writeVariable node (some t) v m = onStore (Store.assign m.env t v) m := by
  unfold writeVariable
  rw [getBind, getBind, entry]
  rfl

structure ByName (node : Nat) (t : Token) (m : Machine) : Prop where
  read : readVariable node (some t) m = lift (m.store.read m.env t) m
  write : ∀ v, writeVariable node (some t) v m = onStore (Store.assign m.env t v) m

theorem byNameEntered {f : FrameId} (entry : m.locals.distance? node = some d)
    (bound : m.store.BoundAt m.env t.lexeme d f) : ByName node t m := by
  obtain ⟨w, held⟩ := getOfHas bound.has
  refine ⟨?_, fun v => ?_⟩
  · rw [readEntered entry, bound.readAt held, bound.read held]
  · rw [writeEntered entry]
    unfold onStore
    dsimp only
    rw [bound.assignAt]

theorem byNameUnentered {frames : Env} (entry : m.locals.distance? node = none)
    (env : m.env = frames ++ Store.globalEnv) (unbound : m.store.Unbound frames t.lexeme) :
    ByName node t m := by
  have lookup : m.store.lookup? m.env t.lexeme = m.store.lookup? Store.globalEnv t.lexeme := by
    have none : m.store.lookup? frames t.lexeme = none :=
      List.findSome?_eq_none_iff.mpr fun g mem => Bindings.getOfHasNot (unbound g mem)
    unfold Store.lookup? at none ⊢
    rw [env, List.findSome?_append, none, Option.none_or]
  refine ⟨?_, writeUnentered entry⟩
  rw [readUnentered entry]
  unfold Store.read
  rw [lookup]

end

namespace Store

variable {s : Store} {frames outer : Env} {name : String} {d : Nat} {f : FrameId}

theorem BoundAt.inner (h : s.BoundAt (frames ++ outer) name d f) (near : d < frames.length) :
    s.BoundAt frames name d f where
  there := by rw [← h.there, List.getElem?_append_left near]
  has := h.has
  first g mem := h.first g (by rwa [List.take_append_of_le_length (Nat.le_of_lt near)])

theorem BoundAt.extended (h : s.BoundAt frames name d f) (outer : Env) :
    s.BoundAt (frames ++ outer) name d f := by
  have near : d < frames.length := (List.getElem?_eq_some_iff.mp h.there).1
  refine ⟨?_, h.has, fun g mem => h.first g ?_⟩
  · rw [List.getElem?_append_left near, h.there]
  · rwa [List.take_append_of_le_length (Nat.le_of_lt near)] at mem

end Store

/-- Access by distance is access by name if the distance is the number of steps to the innermost
frame that has the name; a distance is too long exactly if fewer frames lie around the innermost one.
Resolution records just that distance where the scopes have the names of the local frames, and
nothing where none of them has the name; a machine that goes by what was recorded reads and writes
by name. -/
theorem distancesFollowNames (s : Store) (t : Token) :
    (∀ env d f, s.BoundAt env t.lexeme d f →
      (∃ w, s.readAt env d t.lexeme = .ok w ∧ s.read env t = .ok w) ∧
        ∀ v, Store.assignAt env d t.lexeme v s = Store.assign env t v s) ∧
    (∀ f outer (d : Int) e, Store.frameAt (f :: outer) d = .error e ↔
      (outer.length : Int) < d ∧ e = .noEnclosing) ∧
    ∀ frames r node use, SameNames s r.scopes frames → ∃ r',
      Resolve.resolveLocal node use (some t) r = .ok () r' ∧
      (∀ d f, s.BoundAt (frames ++ Store.globalEnv) t.lexeme d f → d < frames.length →
        Recorded r node d r') ∧
      (s.Unbound frames t.lexeme → r' = r) ∧
      ∀ m : Machine, r.locals.distance? node = none → m.store = s →
        m.env = frames ++ Store.globalEnv → m.locals = r'.locals → ByName node t m := by
  refine ⟨fun env d f bound => ?_, Store.frameAtFails, fun frames r node use same => ?_⟩
  · obtain ⟨w, held⟩ := getOfHas bound.has
    exact ⟨⟨w, bound.readAt held, bound.read held⟩, bound.assignAt⟩
  refine ⟨_, Resolve.resolveLocalRun node use t r, fun d f bound near => ?_, fun unbound => ?_,
    fun m unentered store env entries => ?_⟩
  · rw [same.depth (bound.inner near)]
    exact recorded r ⟨node, use, t.lexeme, d⟩
  · rw [same.noDepth unbound]
    rfl
  · subst store
    rcases m.store.boundOrUnbound frames t.lexeme with ⟨d, f, bound⟩ | unbound
    · rw [same.depth bound] at entries
      refine byNameEntered (d := d) (f := f) ?_ ?_
      · rw [entries]
        exact (recorded r ⟨node, use, t.lexeme, d⟩).entry
      · rw [env]
        exact bound.extended _
    · rw [same.noDepth unbound] at entries
      exact byNameUnentered (entries ▸ unentered) env unbound

def shadowingStore : Store :=
  { Store.initial with frames := #[[("x", .clock)], [("x", .arrayMaker)], [("y", .nil)]] }

theorem distancesFollowNames_shadowing :
    shadowingStore.BoundAt [2, 1, Store.globals] "x" 1 1 ∧
      (∀ v, Store.assignAt [2, 1, Store.globals] 1 "x" v shadowingStore =
        Store.assign [2, 1, Store.globals] ⟨.identifier, "x", .nil, .text ""⟩ v shadowingStore) ∧
    SameNames shadowingStore [[("y", true)], [("x", true)]] [2, 1] ∧
      ∃ r', Resolve.resolveLocal 7 .reference (some ⟨.identifier, "x", .nil, .text ""⟩)
          { scopes := [[("y", true)], [("x", true)]] } = .ok () r' ∧
        Recorded { scopes := [[("y", true)], [("x", true)]] } 7 1 r' := by
  have bound : shadowingStore.BoundAt [2, 1, Store.globals] "x" 1 1 := ⟨rfl, rfl, by decide⟩
  have alike : ∀ other name (v : Value),
      Bindings.has [(other, true)] name = Bindings.has [(other, v)] name := fun other name v =>
    (Bindings.hasPut [] other name true).trans (Bindings.hasPut [] other name v).symm
  have same : SameNames shadowingStore [[("y", true)], [("x", true)]] [2, 1] :=
    .cons (fun name => alike "y" name .nil) (.cons (fun name => alike "x" name .arrayMaker) .nil)
  obtain ⟨named, -, resolved⟩ :=
    distancesFollowNames shadowingStore ⟨.identifier, "x", .nil, .text ""⟩
  obtain ⟨r', run, recorded, -⟩ :=
    resolved [2, 1] { scopes := [[("y", true)], [("x", true)]] } 7 .reference same
  exact ⟨bound, (named _ 1 1 bound).2, same, r', run, recorded 1 1 bound (by decide)⟩

end Lox
