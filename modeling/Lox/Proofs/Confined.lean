import Lox.Proofs.Runs.Histories

/-!
A call changes only what it can get at. From the function, its arguments and the globals some cells
of the store can be reached; all other cells that are there before a call are the same after it,
however it ends.
-/

namespace Lox

open Eval

inductive Cell where
  | frame (f : FrameId)
  | fields (id : Nat)
  | elements (id : Nat)
  deriving DecidableEq

inductive Class.Leads (c : Class) : Cell → Prop where
  | method {l name r f} (layer : l ∈ c.layers) (found : l.methods.get? name = some r)
      (mem : f ∈ r.closure) : c.Leads (.frame f)

inductive Value.Leads : Value → Cell → Prop where
  | closure {id name r f} (mem : f ∈ r.closure) : Leads (.function id name r) (.frame f)
  | class_ {c cell} (leads : c.Leads cell) : Leads (.class_ c) cell
  | instance_ {id c cell} (leads : c.Leads cell) : Leads (.instance_ id c) cell
  | fields {id c} : Leads (.instance_ id c) (.fields id)
  | elements {id} : Leads (.array id) (.elements id)
  | accessor {id which array} : Leads (.accessor id which array) (.elements array)

namespace Store

inductive Holds (s : Store) : Cell → Value → Prop where
  | frame {f name v} (bound : (s.frame f).get? name = some v) : s.Holds (.frame f) v
  | field {id name v} (bound : (s.fieldsOf id).get? name = some v) : s.Holds (.fields id) v
  | element {id v} (mem : v ∈ s.elements id) : s.Holds (.elements id) v

inductive Reachable (s : Store) (roots : List Value) : Cell → Prop where
  | globals : s.Reachable roots (.frame Store.globals)
  | root {v cell} (mem : v ∈ roots) (leads : v.Leads cell) : s.Reachable roots cell
  | step {cell v cell'} (before : s.Reachable roots cell) (holds : s.Holds cell v)
      (leads : v.Leads cell') : s.Reachable roots cell'

def Has (s : Store) : Cell → Prop
  | .frame f => f < s.frames.size
  | .fields id => id < s.fields.size
  | .elements id => id < s.arrays.size

def SameAt (s s' : Store) : Cell → Prop
  | .frame f => s'.frame f = s.frame f
  | .fields id => s'.fieldsOf id = s.fieldsOf id
  | .elements id => s'.elements id = s.elements id

variable {s s' : Store} {cell : Cell}

theorem SameAt.trans {s'' : Store} (first : s.SameAt s' cell) (rest : s'.SameAt s'' cell) :
    s.SameAt s'' cell := by
  cases cell with
  | frame f => exact Eq.trans rest first
  | fields id => exact Eq.trans rest first
  | elements id => exact Eq.trans rest first

theorem SameAt.holds (same : s.SameAt s' cell) {v : Value} (h : s'.Holds cell v) :
    s.Holds cell v := by
  cases h with
  | @frame f name _ bound =>
    have same : s'.frame f = s.frame f := same
    exact .frame (by rwa [same] at bound)
  | @field id name _ bound =>
    have same : s'.fieldsOf id = s.fieldsOf id := same
    exact .field (by rwa [same] at bound)
  | @element id _ mem =>
    have same : s'.elements id = s.elements id := same
    exact .element (by rwa [same] at mem)

theorem sameDefine (s : Store) {f : FrameId} (apart : cell ≠ .frame f) (name : String) (v : Value) :
    s.SameAt (s.define f name v) cell := by
  cases cell with
  | frame g => exact s.frameDefineOther (by simpa using apart) name v
  | fields id => rfl
  | elements id => rfl

theorem sameEnter (s : Store) (apart : cell ≠ .frame s.frames.size) (env : Env)
    (b : Bindings Value) : s.SameAt (s.enter env b).2 cell := by
  cases cell with
  | frame g => exact s.frameEnterOther env b (by simpa using apart)
  | fields id => rfl
  | elements id => rfl

theorem sameNewInstance (s : Store) (apart : cell ≠ .fields s.fields.size) (c : Class) :
    s.SameAt (s.newInstance c).2 cell := by
  cases cell with
  | frame f => rfl
  | fields id =>
    have apart : id ≠ s.fields.size := by simpa using apart
    show (s.newInstance c).2.fieldsOf id = s.fieldsOf id
    rw [s.fieldsNew c id, if_neg apart]
  | elements id => rfl

theorem sameSetField (s : Store) {id : Nat} (apart : cell ≠ .fields id) (name : String)
    (v : Value) : s.SameAt (s.setField id name v) cell := by
  cases cell with
  | frame f => rfl
  | fields other =>
    have apart : other ≠ id := by simpa using apart
    exact s.fieldsSetOther apart name v
  | elements other => rfl

theorem sameNewArray (s : Store) (apart : cell ≠ .elements s.arrays.size) (vs : Array Value) :
    s.SameAt (s.newArray vs).2 cell := by
  cases cell with
  | frame f => rfl
  | fields id => rfl
  | elements id =>
    have apart : id ≠ s.arrays.size := by simpa using apart
    simp [SameAt, newArray, elements, Array.getElem?_push, apart]

theorem sameSetElement (s : Store) {id : Nat} (apart : cell ≠ .elements id) (c : Nat) (v : Value) :
    s.SameAt (s.setElement id c v) cell := by
  cases cell with
  | frame f => rfl
  | fields other => rfl
  | elements other =>
    have apart : other ≠ id := by simpa using apart
    simp [SameAt, setElement, elements, Array.getElem?_modify, apart.symm]

theorem holdsDefine (s : Store) {f : FrameId} {name : String} {v u : Value}
    (h : (s.define f name v).Holds (.frame f) u) : u = v ∨ s.Holds (.frame f) u := by
  have old : (s.frame f).All fun w => w = v ∨ s.Holds (.frame f) w :=
    fun _ _ bound => .inr (.frame bound)
  cases h with
  | frame bound =>
    by_cases live : f < s.frames.size
    · rw [s.frameDefineSelf live] at bound
      exact old.put (.inl rfl) name _ u bound
    · rw [s.frameDefineNone live] at bound
      exact old _ u bound

theorem holdsSetField (s : Store) {id : Nat} {name : String} {v u : Value}
    (h : (s.setField id name v).Holds (.fields id) u) : u = v ∨ s.Holds (.fields id) u := by
  have old : (s.fieldsOf id).All fun w => w = v ∨ s.Holds (.fields id) w :=
    fun _ _ bound => .inr (.field bound)
  cases h with
  | field bound =>
    by_cases live : id < s.fields.size
    · rw [s.fieldsSetSelf live] at bound
      exact old.put (.inl rfl) name _ u bound
    · rw [s.fieldsSetNone live] at bound
      exact old _ u bound

theorem holdsSetElement (s : Store) {id c : Nat} {v u : Value}
    (h : (s.setElement id c v).Holds (.elements id) u) : u = v ∨ s.Holds (.elements id) u := by
  cases h with
  | element mem =>
    by_cases live : id < s.arrays.size
    · have content : (s.setElement id c v).elements id = (s.elements id).setIfInBounds c v := by
        simp [setElement, elements, Array.getElem_modify, live]
      rw [content] at mem
      rcases Array.mem_or_eq_of_mem_setIfInBounds mem with inside | same
      · exact .inr (.element inside)
      · exact .inl same
    · simp [setElement, elements, live] at mem

end Store

/-- Some cells of a store that hold nothing which leads out of them. -/
structure Region (s : Store) where
  inside : Cell → Prop
  globals : inside (.frame Store.globals)
  closed : ∀ {cell v cell'}, inside cell → s.Holds cell v → v.Leads cell' → inside cell'

namespace Region

variable {s₀ : Store} (G : Region s₀)

def Mine (cell : Cell) : Prop := G.inside cell ∨ ¬s₀.Has cell

def permit : Permit False where
  env env := ∀ f ∈ env, G.Mine (.frame f)
  klass _ := True
  object id := G.Mine (.fields id)
  array id := G.Mine (.elements id)

variable {G}

theorem routineOk {r : Routine} : G.permit.RoutineOk r ↔ ∀ f ∈ r.closure, G.Mine (.frame f) :=
  ⟨fun h => h.1, fun h => ⟨h, False.elim⟩⟩

theorem classOk {c : Class} : G.permit.ClassOk c ↔ ∀ cell, c.Leads cell → G.Mine cell := by
  constructor
  · rintro ⟨-, holds⟩ cell ⟨layer, found, mem⟩
    exact routineOk.mp (holds _ layer _ _ found) _ mem
  · intro h
    refine ⟨trivial, fun l layer name r found => routineOk.mpr fun f mem => ?_⟩
    exact h _ (.method layer found mem)

theorem valueOk {v : Value} : G.permit.ValueOk v ↔ ∀ cell, v.Leads cell → G.Mine cell := by
  constructor
  · rintro h cell leads
    cases leads with
    | closure mem => exact routineOk.mp h _ mem
    | class_ leads => exact classOk.mp h cell leads
    | instance_ leads => exact classOk.mp h.2 cell leads
    | fields => exact h.1
    | elements => exact h
    | accessor => exact h
  · intro h
    cases v with
    | function id name r => exact routineOk.mpr fun f mem => h _ (.closure mem)
    | class_ c => exact classOk.mpr fun cell leads => h cell (.class_ leads)
    | instance_ id c => exact ⟨h _ .fields, classOk.mpr fun cell leads => h cell (.instance_ leads)⟩
    | array id => exact h _ .elements
    | accessor id which array => exact h _ .accessor
    | _ => trivial

variable (G)

structure Kept (s : Store) : Prop where
  has : ∀ cell, s₀.Has cell → s.Has cell
  contents : ∀ cell v, G.Mine cell → s.Holds cell v → G.permit.ValueOk v
  outside : ∀ cell, ¬G.Mine cell → s₀.SameAt s cell

variable {G} {s s' : Store}

theorem Kept.touch (kept : G.Kept s) {touched : Cell} (mine : G.Mine touched)
    (has : ∀ cell, s.Has cell → s'.Has cell) (same : ∀ cell, cell ≠ touched → s.SameAt s' cell)
    (values : ∀ v, s'.Holds touched v → G.permit.ValueOk v) : G.Kept s' where
  has cell old := has cell (kept.has cell old)
  contents cell v inside holds := by
    by_cases here : cell = touched
    · subst here
      exact values v holds
    · exact kept.contents cell v inside ((same cell here).holds holds)
  outside cell out :=
    (kept.outside cell out).trans (same cell fun here => out (here ▸ mine))

theorem Kept.write (kept : G.Kept s) {touched : Cell} (mine : G.Mine touched)
    (has : ∀ cell, s.Has cell → s'.Has cell) (same : ∀ cell, cell ≠ touched → s.SameAt s' cell)
    {v : Value} (value : G.permit.ValueOk v)
    (written : ∀ u, s'.Holds touched u → u = v ∨ s.Holds touched u) : G.Kept s' := by
  refine kept.touch mine has same fun u holds => ?_
  rcases written u holds with rfl | old
  · exact value
  · exact kept.contents touched u mine old

theorem Kept.mine (kept : G.Kept s) {cell : Cell} (new : ¬s.Has cell) : G.Mine cell :=
  .inr fun old => new (kept.has cell old)

theorem Kept.still (kept : G.Kept s) (has : ∀ cell, s.Has cell → s'.Has cell)
    (same : ∀ cell, s.SameAt s' cell) : G.Kept s' :=
  kept.touch (.inl G.globals) has (fun cell _ => same cell) fun v holds =>
    kept.contents _ v (.inl G.globals) ((same _).holds holds)

theorem Kept.define (kept : G.Kept s) {f : FrameId} (mine : G.Mine (.frame f)) (name : String)
    {v : Value} (value : G.permit.ValueOk v) : G.Kept (s.define f name v) := by
  refine kept.write mine (fun cell has => ?_) (fun cell apart => s.sameDefine apart name v) value
    fun u holds => s.holdsDefine holds
  cases cell <;> simpa [Store.Has, Store.define] using has

theorem Kept.newFrame (kept : G.Kept s) : G.Mine (.frame s.frames.size) :=
  kept.mine (by simp [Store.Has])

theorem Kept.enter (kept : G.Kept s) (env : Env) {b : Bindings Value}
    (values : b.All G.permit.ValueOk) : G.Kept (s.enter env b).2 := by
  refine kept.touch kept.newFrame ?_ (fun cell apart => s.sameEnter apart env b) ?_
  · intro cell has
    cases cell with
    | frame f => exact Nat.lt_of_lt_of_le has (by simp)
    | fields id => exact has
    | elements id => exact has
  · intro u holds
    cases holds with
    | frame bound =>
      rw [s.frameEnterSelf] at bound
      exact values _ u bound

theorem Kept.newFields (kept : G.Kept s) : G.Mine (.fields s.fields.size) :=
  kept.mine (by simp [Store.Has])

theorem Kept.newInstance (kept : G.Kept s) (c : Class) : G.Kept (s.newInstance c).2 := by
  refine kept.touch kept.newFields ?_ (fun cell apart => s.sameNewInstance apart c) ?_
  · intro cell has
    cases cell with
    | frame f => exact has
    | fields id => exact Nat.lt_of_lt_of_le has (by simp [Store.newInstance])
    | elements id => exact has
  · intro u holds
    cases holds with
    | field bound => simp [Store.newInstance, Store.fieldsOf] at bound

theorem Kept.setField (kept : G.Kept s) {id : Nat} (mine : G.Mine (.fields id)) (name : String)
    {v : Value} (value : G.permit.ValueOk v) : G.Kept (s.setField id name v) := by
  refine kept.write mine (fun cell has => ?_) (fun cell apart => s.sameSetField apart name v) value
    fun u holds => s.holdsSetField holds
  cases cell <;> simpa [Store.Has, Store.setField] using has

theorem Kept.newElements (kept : G.Kept s) : G.Mine (.elements s.arrays.size) :=
  kept.mine (by simp [Store.Has])

theorem Kept.newArray (kept : G.Kept s) {vs : Array Value}
    (values : ∀ v ∈ vs, G.permit.ValueOk v) : G.Kept (s.newArray vs).2 := by
  refine kept.touch kept.newElements ?_ (fun cell apart => s.sameNewArray apart vs) ?_
  · intro cell has
    cases cell with
    | frame f => exact has
    | fields id => exact has
    | elements id => exact Nat.lt_of_lt_of_le has (by simp [Store.newArray])
  · intro u holds
    cases holds with
    | element mem => exact values u (by simpa [Store.newArray, Store.elements] using mem)

theorem Kept.setElement (kept : G.Kept s) {id : Nat} (mine : G.Mine (.elements id)) (c : Nat)
    {v : Value} (value : G.permit.ValueOk v) : G.Kept (s.setElement id c v) := by
  refine kept.write mine (fun cell has => ?_) (fun cell apart => s.sameSetElement apart c v) value
    fun u holds => s.holdsSetElement holds
  cases cell <;> simpa [Store.Has, Store.setElement] using has

theorem Kept.freshId (kept : G.Kept s) : G.Kept s.freshId.2 := by
  refine kept.still (fun cell has => ?_) fun cell => ?_
  · cases cell <;> exact has
  · cases cell <;> rfl

/- Nothing has to be remembered: the region is the same all along. -/
def discipline (G : Region s₀) : Discipline False where
  World := Unit
  le _ _ := True
  permit _ := G.permit
  store _ := G.Kept
  frame _ _ _ := True
  refl _ := trivial
  trans _ _ := trivial
  grows _ := ⟨fun _ h => h, fun _ h => h, fun _ h => h, fun _ h => h⟩
  globals _ f mem := by
    simp only [Store.globalEnv, List.mem_singleton] at mem
    exact .inl (mem ▸ G.globals)
  frameOk kept known mem name v bound := kept.contents _ v (known _ mem) (.frame bound)
  fieldsOk kept known name v bound := kept.contents _ v known (.field bound)
  elementsOk kept known v mem := kept.contents _ v known (.element mem)
  define kept known mem _ value := ⟨(), trivial, kept.define (known _ mem) _ value⟩
  enter kept known values :=
    ⟨(), trivial, kept.enter _ values, List.forall_mem_cons.mpr ⟨kept.newFrame, known⟩, trivial⟩
  newInstance kept _ := ⟨(), trivial, kept.newInstance _, kept.newFields⟩
  setField kept known value := ⟨(), trivial, kept.setField known _ value⟩
  newArray kept values := ⟨(), trivial, kept.newArray values, kept.newElements⟩
  setElement kept known value := ⟨(), trivial, kept.setElement known _ value⟩
  freshId kept := ⟨(), trivial, kept.freshId⟩
  newClass _ _ _ kept _ _ _ := ⟨(), trivial, kept.freshId, trivial⟩

end Region

theorem commutesWithin {α : Type} (here env : Env) (x : Eval α) :
    Commutes (fun m => { m with env := here }) (within env x) := by
  intro m
  unfold within
  dsimp only
  cases x { m with env := env } <;> rfl

theorem commutesReturnedBy {g : Machine → Machine} {x : Eval Unit} (h : Commutes g x) :
    Commutes g (returnedBy x) := by
  intro m
  unfold returnedBy
  rw [h m]
  cases x m with
  | ok a m' => rfl
  | error e m' => cases e <;> rfl

section

variable {α : Type} (here : Env)

theorem commutesLift (x : Except Fault α) : Commutes (fun m => { m with env := here }) (lift x) := by
  cases x with
  | ok a => exact commutesPure a
  | error f => exact commutesThrow _

theorem commutesAsk (f : Store → Except Fault α) :
    Commutes (fun m => { m with env := here }) (ask f) :=
  commutesGet (fun _ => rfl) fun m => commutesLift here (f m.store)

theorem commutesChange (f : Store → α × Store) :
    Commutes (fun m => { m with env := here }) (change f) := fun _ => rfl

theorem commutesReadClock : Commutes (fun m => { m with env := here }) readClock := fun _ => rfl

theorem commutesOnStore (x : Stored α) :
    Commutes (fun m => { m with env := here }) (onStore x) := by
  intro m
  unfold onStore
  dsimp only
  cases x m.store <;> rfl

theorem commutesStamp (d : Datum) : Commutes (fun m => { m with env := here }) (stamp d) := by
  unfold stamp
  split
  · split
    · exact (commutesChange here _).bind fun _ => commutesPure _
    · exact commutesPure _
  · exact commutesPure _

theorem callRoutineAnywhere (n : Nat) (r : Routine) (args : List Value) :
    Commutes (fun m => { m with env := here }) (callRoutine n r args) := by
  cases n with
  | zero => exact commutesThrow _
  | succ n =>
    unfold callRoutine
    refine (commutesLift here _).bind fun b => (commutesChange here _).bind fun env => ?_
    refine (commutesReturnedBy (commutesWithin here env _)).bind fun returned => ?_
    split
    · exact commutesPure _
    · split
      · exact commutesAsk here _
      · exact commutesPure _

theorem callAnywhere (n : Nat) (f : Value) (args : List Value) :
    Commutes (fun m => { m with env := here }) (call n f args) := by
  cases n with
  | zero => exact commutesThrow _
  | succ n =>
    unfold call
    split
    · exact callRoutineAnywhere here n _ _
    · refine (commutesChange here _).bind fun this => ?_
      split
      · refine Commutes.bind ?_ fun r => ?_
        · exact (commutesChange here _).bind fun _ => commutesPure _
        · exact (callRoutineAnywhere here n r _).bind fun _ => commutesPure _
      · exact commutesPure _
    · exact commutesAsk here _
    · exact (commutesOnStore here _).bind fun _ => commutesPure _
    · exact (commutesReadClock here).bind fun x => commutesStamp here _
    · exact commutesOnStore here _
    · exact commutesThrow _

end

theorem Store.hasOfHolds {s : Store} {cell : Cell} {v : Value} (h : s.Holds cell v) :
    s.Has cell := by
  cases h with
  | @frame f name _ bound =>
    have has : (s.frame f).has name = true := by simp [Bindings.has, bound]
    exact s.liveOfHas has
  | @field id name _ bound =>
    show id < s.fields.size
    by_cases live : id < s.fields.size
    · exact live
    · simp [Store.fieldsOf, live] at bound
  | @element id _ mem =>
    show id < s.arrays.size
    by_cases live : id < s.arrays.size
    · exact live
    · simp [Store.elements, live] at mem

theorem Region.keptSelf {s : Store} (G : Region s) : G.Kept s where
  has _ has := has
  contents cell v mine holds := by
    rcases mine with inside | absent
    · exact valueOk.mpr fun cell' leads => .inl (G.closed inside holds leads)
    · exact absurd (Store.hasOfHolds holds) absent
  outside cell _ := by cases cell <;> rfl

theorem Region.call {m : Machine} (G : Region m.store) (n : Nat) {f : Value} {args : List Value}
    (known : ∀ v ∈ f :: args, ∀ cell, v.Leads cell → G.inside cell) :
    G.Kept (final (Eval.call n f args m)).store := by
  have values : ∀ v ∈ f :: args, G.permit.ValueOk v :=
    fun v mem => valueOk.mpr fun cell leads => .inl (known v mem cell leads)
  let m₀ : Machine := { m with env := Store.globalEnv }
  have sits : G.discipline.Sits () (.call f args) m₀ :=
    ⟨⟨G.keptSelf, G.discipline.globals G.keptSelf⟩, False.elim,
      values f (by simp), fun a mem => values a (by simp [mem])⟩
  obtain ⟨ws, w, -, ends, -⟩ := (Discipline.follows (D := G.discipline) n).call f args () m₀ sits
  have kept := ends.kept.store
  rw [show Eval.call n f args m₀ = onState _ (Eval.call n f args m) from
    callAnywhere Store.globalEnv n f args m] at kept
  cases run : Eval.call n f args m with
  | ok v m' =>
    rw [run] at kept
    exact kept
  | error e m' =>
    rw [run] at kept
    exact kept

def Store.reach (s : Store) (roots : List Value) : Region s where
  inside := s.Reachable roots
  globals := .globals
  closed before holds leads := .step before holds leads

theorem callLeavesUncaptured (n : Nat) (f : Value) (args : List Value) (m : Machine) (cell : Cell)
    (there : m.store.Has cell) (apart : ¬m.store.Reachable (f :: args) cell) :
    m.store.SameAt (final (call n f args m)).store cell := by
  have kept := (m.store.reach (f :: args)).call n fun v mem cell leads => .root mem leads
  refine kept.outside cell ?_
  rintro (inside | absent)
  · exact apart inside
  · exact absent there

theorem Region.reached {s : Store} (G : Region s) {roots : List Value}
    (known : ∀ v ∈ roots, ∀ cell, v.Leads cell → G.inside cell) {cell : Cell}
    (h : s.Reachable roots cell) : G.inside cell := by
  induction h with
  | globals => exact G.globals
  | root mem leads => exact known _ mem _ leads
  | step _ holds leads ih => exact G.closed ih holds leads

def twoFrames : Machine where
  store :=
    { frames := #[[], [("x", .int 1)], [("y", .int 2)]], fields := #[], arrays := #[], nextId := 1 }
  env := [2, 0]

def writer : Value :=
  let name (lexeme : String) : Option Token := some { kind := .identifier, lexeme := lexeme }
  .function 0 "f" ⟨.mk (name "f") [] [.expression (.assign 0 (name "x") (.literal (.int 5)))],
    [1, 0], false⟩

def outerFrames : Region twoFrames.store where
  inside cell := cell = .frame 0 ∨ cell = .frame 1
  globals := .inl rfl
  closed := by
    rintro cell v cell' (rfl | rfl) holds leads
    · cases holds with
      | frame bound => simp [twoFrames, Store.frame] at bound
    · cases holds with
      | frame bound =>
        simp [twoFrames, Store.frame, Bindings.get?_cons] at bound
        obtain ⟨-, rfl⟩ := bound
        cases leads

theorem callerKeepsItsFrame :
    twoFrames.store.Has (.frame 2) ∧ ¬twoFrames.store.Reachable [writer] (.frame 2) ∧
      twoFrames.store.SameAt (final (call 6 writer [] twoFrames)).store (.frame 2) ∧
      (final (call 6 writer [] twoFrames)).store.frame 1 = [("x", .int 5)] := by
  have there : twoFrames.store.Has (.frame 2) := by
    show 2 < twoFrames.store.frames.size
    decide
  have apart : ¬twoFrames.store.Reachable [writer] (.frame 2) := by
    intro reached
    have inside := outerFrames.reached (fun v mem cell leads => ?_) reached
    · simp [outerFrames] at inside
    · cases List.mem_singleton.mp mem
      cases leads with
      | closure mem => simpa [outerFrames, writer, or_comm] using mem
  have written : (final (call 6 writer [] twoFrames)).store.frame 1 = [("x", .int 5)] := by
    rfl
  exact ⟨there, apart, callLeavesUncaptured 6 writer [] twoFrames (.frame 2) there apart, written⟩

end Lox
