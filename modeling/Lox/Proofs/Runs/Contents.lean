import Lox.Evaluation.Machine
import Lox.Proofs.Sequence

/-!
The contents of a store. A run only adds frames and names to it, and what a reserved word is bound
to never changes. A property of all values in the store is kept by every change that puts such a
value in.
-/

namespace Lox

namespace Store

variable (s : Store)

@[simp] theorem sizeDefine (f : FrameId) (name : String) (v : Value) :
    (s.define f name v).frames.size = s.frames.size := by
  simp [define]

theorem frameDefineSelf {f : FrameId} (live : f < s.frames.size) (name : String) (v : Value) :
    (s.define f name v).frame f = (s.frame f).put name v := by
  simp [define, frame, Array.getElem_modify, live]

theorem frameDefineOther {f g : FrameId} (apart : g ≠ f) (name : String) (v : Value) :
    (s.define f name v).frame g = s.frame g := by
  simp [define, frame, Array.getElem?_modify, apart.symm]

theorem frameDefineNone {f : FrameId} (out : ¬f < s.frames.size) (name : String) (v : Value) :
    (s.define f name v).frame f = s.frame f := by
  simp [define, frame, out]

@[simp] theorem sizeEnter (env : Env) (b : Bindings Value) :
    (s.enter env b).2.frames.size = s.frames.size + 1 := by
  simp [enter, newFrame]

theorem frameEnterSelf (env : Env) (b : Bindings Value) :
    (s.enter env b).2.frame s.frames.size = b := by
  simp [enter, newFrame, frame]

theorem frameEnterOther (env : Env) (b : Bindings Value) {f : FrameId} (apart : f ≠ s.frames.size) :
    (s.enter env b).2.frame f = s.frame f := by
  simp [enter, newFrame, frame, Array.getElem?_push, apart]

theorem frameOut {f : FrameId} (out : ¬f < s.frames.size) : s.frame f = [] := by
  simp [frame, out]

theorem liveOfHas {f : FrameId} {name : String} (h : (s.frame f).has name = true) :
    f < s.frames.size := by
  by_cases live : f < s.frames.size
  · exact live
  · rw [s.frameOut live] at h
    cases h

theorem fieldsSetSelf {id : Nat} (live : id < s.fields.size) (name : String) (v : Value) :
    (s.setField id name v).fieldsOf id = (s.fieldsOf id).put name v := by
  simp [setField, fieldsOf, Array.getElem_modify, live]

theorem fieldsSetOther {id other : Nat} (apart : other ≠ id) (name : String) (v : Value) :
    (s.setField id name v).fieldsOf other = s.fieldsOf other := by
  simp [setField, fieldsOf, Array.getElem?_modify, apart.symm]

theorem fieldsSetNone {id : Nat} (out : ¬id < s.fields.size) (name : String) (v : Value) :
    (s.setField id name v).fieldsOf id = s.fieldsOf id := by
  simp [setField, fieldsOf, out]

theorem fieldsNew (c : Class) (id : Nat) :
    (s.newInstance c).2.fieldsOf id = if id = s.fields.size then [] else s.fieldsOf id := by
  simp only [newInstance, fieldsOf, Array.getD_eq_getD_getElem?, Array.getElem?_push]
  split <;> rfl

end Store

theorem Bindings.hasPut {α : Type} (b : Bindings α) (name other : String) (v : α) :
    (b.put name v).has other = (name == other || b.has other) := by
  by_cases same : other = name
  · subst same
    simp [Bindings.has]
  · simp [Bindings.has, Bindings.get?_put_of_ne b v same, Ne.symm same]

structure Store.Grows (s s' : Store) : Prop where
  size : s.frames.size ≤ s'.frames.size
  has : ∀ f name, (s.frame f).has name = true → (s'.frame f).has name = true
  reserved : ∀ f name v, Keyword.ofWord? name ≠ none → (s.frame f).get? name = some v →
    (s'.frame f).get? name = some v

namespace Store.Grows

theorem refl (s : Store) : s.Grows s :=
  ⟨Nat.le_refl _, fun _ _ h => h, fun _ _ _ _ h => h⟩

theorem trans {s t u : Store} (first : s.Grows t) (rest : t.Grows u) : s.Grows u where
  size := Nat.le_trans first.size rest.size
  has f name h := rest.has f name (first.has f name h)
  reserved f name v word h := rest.reserved f name v word (first.reserved f name v word h)

theorem sameFrames {s s' : Store} (same : s'.frames = s.frames) : s.Grows s' where
  size := Nat.le_of_eq (congrArg Array.size same.symm)
  has f name h := by
    show ((s'.frames.getD f []).has name) = true
    rw [same]
    exact h
  reserved f name v _ h := by
    show (s'.frames.getD f []).get? name = some v
    rw [same]
    exact h

theorem define (s : Store) (f : FrameId) {name : String} (free : Keyword.ofWord? name = none)
    (v : Value) : s.Grows (s.define f name v) := by
  refine ⟨by simp, fun g other h => ?_, fun g other w word h => ?_⟩
  · by_cases same : g = f
    · subst same
      rw [s.frameDefineSelf (s.liveOfHas h), Bindings.hasPut, h, Bool.or_true]
    · rwa [s.frameDefineOther same]
  · by_cases same : g = f
    · subst same
      have bound : (s.frame g).has other = true := by simp [Bindings.has, h]
      have apart : other ≠ name := fun bad => word (bad ▸ free)
      rwa [s.frameDefineSelf (s.liveOfHas bound), Bindings.get?_put_of_ne _ _ apart]
    · rwa [s.frameDefineOther same]

theorem enter (s : Store) (env : Env) (b : Bindings Value) : s.Grows (s.enter env b).2 := by
  have old : ∀ f name, (s.frame f).has name = true → (s.enter env b).2.frame f = s.frame f := by
    intro f name h
    exact s.frameEnterOther env b (Nat.ne_of_lt (s.liveOfHas h))
  refine ⟨by simp, fun f name h => ?_, fun f name v _ h => ?_⟩
  · rwa [old f name h]
  · rwa [old f name (by simp [Bindings.has, h])]

end Store.Grows

def Bindings.All {α : Type} (P : α → Prop) (b : Bindings α) : Prop :=
  ∀ name v, b.get? name = some v → P v

section

variable {α : Type} {P Q : α → Prop} {b : Bindings α}

theorem Bindings.allNil : Bindings.All P [] := by rintro name v ⟨⟩

theorem Bindings.All.put (h : b.All P) {v : α} (value : P v) (name : String) :
    Bindings.All P (b.put name v) := by
  intro other w found
  by_cases same : other = name
  · subst same
    rw [Bindings.get?_put_self] at found
    cases found
    exact value
  · rw [Bindings.get?_put_of_ne b v same] at found
    exact h other w found

theorem Bindings.All.mono (h : b.All P) (weaker : ∀ a, P a → Q a) : b.All Q :=
  fun name v found => weaker v (h name v found)

theorem Bindings.allOne {name : String} {v : α} (h : P v) : Bindings.All P [(name, v)] :=
  Bindings.allNil.put h name

end

structure Store.All (P : Value → Prop) (s : Store) : Prop where
  frames : ∀ f, (s.frame f).All P
  fields : ∀ id, (s.fieldsOf id).All P
  arrays : ∀ id, ∀ v ∈ s.elements id, P v

namespace Store.All

variable {P Q : Value → Prop} {s : Store}

theorem mono (h : s.All P) (weaker : ∀ v, P v → Q v) : s.All Q :=
  ⟨fun f => (h.frames f).mono weaker, fun id => (h.fields id).mono weaker,
    fun id v mem => weaker v (h.arrays id v mem)⟩

theorem define (h : s.All P) {v : Value} (value : P v) (f : FrameId) (name : String) :
    (s.define f name v).All P := by
  refine ⟨fun g => ?_, h.fields, h.arrays⟩
  by_cases same : g = f
  · subst same
    by_cases live : g < s.frames.size
    · rw [s.frameDefineSelf live]
      exact (h.frames g).put value name
    · rw [s.frameDefineNone live]
      exact h.frames g
  · rw [s.frameDefineOther same]
    exact h.frames g

theorem enter (h : s.All P) {b : Bindings Value} (values : b.All P) (env : Env) :
    (s.enter env b).2.All P := by
  refine ⟨fun g => ?_, h.fields, h.arrays⟩
  by_cases same : g = s.frames.size
  · subst same
    rw [s.frameEnterSelf]
    exact values
  · rw [s.frameEnterOther env b same]
    exact h.frames g

theorem setField (h : s.All P) {v : Value} (value : P v) (id : Nat) (name : String) :
    (s.setField id name v).All P := by
  refine ⟨h.frames, fun other => ?_, h.arrays⟩
  by_cases same : other = id
  · subst same
    by_cases live : other < s.fields.size
    · rw [s.fieldsSetSelf live]
      exact (h.fields other).put value name
    · rw [s.fieldsSetNone live]
      exact h.fields other
  · rw [s.fieldsSetOther same]
    exact h.fields other

theorem newInstance (h : s.All P) (c : Class) : (s.newInstance c).2.All P := by
  refine ⟨h.frames, fun id => ?_, h.arrays⟩
  rw [s.fieldsNew c id]
  split
  · exact Bindings.allNil
  · exact h.fields id

theorem setElement (h : s.All P) {v : Value} (value : P v) (id cell : Nat) :
    (s.setElement id cell v).All P := by
  refine ⟨h.frames, h.fields, fun other w mem => ?_⟩
  unfold Store.setElement Store.elements at mem
  by_cases same : id = other
  · subst same
    by_cases live : id < s.arrays.size
    · have old : s.elements id = s.arrays[id] := by simp [Store.elements, live]
      simp only [Array.getD_eq_getD_getElem?, Array.getElem?_modify, live, getElem?_pos, if_true,
        Option.map_some, Option.getD_some] at mem
      rcases Array.mem_or_eq_of_mem_setIfInBounds mem with inside | rfl
      · exact h.arrays id w (old ▸ inside)
      · exact value
    · simp [live] at mem
  · refine h.arrays other w ?_
    simpa [Array.getElem?_modify, same, Store.elements] using mem

theorem newArray (h : s.All P) {vs : Array Value} (values : ∀ v ∈ vs, P v) :
    (s.newArray vs).2.All P := by
  refine ⟨h.frames, h.fields, fun id v mem => ?_⟩
  by_cases same : id = s.arrays.size
  · refine values v ?_
    simpa [Store.newArray, Store.elements, same] using mem
  · refine h.arrays id v ?_
    simpa [Store.newArray, Store.elements, Array.getElem?_push, same] using mem

theorem freshId (h : s.All P) : s.freshId.2.All P := ⟨h.frames, h.fields, h.arrays⟩

theorem initial {memory : Nat} (clock : P .clock) (maker : P .arrayMaker) :
    (Store.initial memory).All P := by
  refine ⟨fun f => ?_, fun id => ?_, fun id v mem => ?_⟩
  · by_cases first : f = 0
    · subst first
      exact (Bindings.allNil.put clock "clock").put maker "Array"
    · rw [Store.frameOut _ (by simp [Store.initial]; omega)]
      exact Bindings.allNil
  · simpa [Store.fieldsOf, Store.initial] using Bindings.allNil
  · simp [Store.elements, Store.initial] at mem

end Store.All

def Class.Holds (M : Routine → Prop) (c : Class) : Prop :=
  ∀ l ∈ c.layers, Bindings.All M l.methods

/- `F` is asked of functions and `M` of the methods of classes. -/
def Value.Holds (F M : Routine → Prop) : Value → Prop
  | .function _ _ r => F r
  | .class_ c => c.Holds M
  | .instance_ _ c => c.Holds M
  | _ => True

theorem Class.Holds.found {M : Routine → Prop} {c : Class} (h : c.Holds M) {name : String}
    {r : Routine} (found : c.findMethod? name = some r) : M r := by
  obtain ⟨l, mem, get⟩ := List.exists_of_findSome?_eq_some found
  exact h l mem name r get

theorem Value.Holds.mono {F F' M M' : Routine → Prop} {v : Value} (h : v.Holds F M)
    (functions : ∀ r, F r → F' r) (methods : ∀ r, M r → M' r) : v.Holds F' M' := by
  cases v with
  | function id name r => exact functions r h
  | class_ c => exact fun l mem => (h l mem).mono methods
  | instance_ id c => exact fun l mem => (h l mem).mono methods
  | _ => trivial

theorem Store.readAtFound {s : Store} {env : Env} {d : Int} {name : String} {v : Value}
    (h : s.readAt env d name = .ok v) : ∃ f, (s.frame f).get? name = some v := by
  unfold Store.readAt at h
  cases at' : Store.frameAt env d with
  | error e =>
    rw [at'] at h
    cases h
  | ok f =>
    rw [at'] at h
    refine ⟨f, ?_⟩
    cases found : (s.frame f).get? name with
    | none => simp [bind, Except.bind, found] at h
    | some w =>
      simp only [bind, Except.bind, found, Except.ok.injEq] at h
      rw [h]

namespace Store.All

variable {P : Value → Prop} {s : Store}

theorem readAt (h : s.All P) {env : Env} {d : Int} {name : String} {v : Value}
    (read : s.readAt env d name = .ok v) : P v := by
  obtain ⟨f, found⟩ := Store.readAtFound read
  exact h.frames f name v found

theorem read (h : s.All P) {env : Env} {t : Token} {v : Value} (read : s.read env t = .ok v) :
    P v := by
  unfold Store.read at read
  split at read
  · next w found =>
    cases read
    obtain ⟨f, -, get⟩ := List.exists_of_findSome?_eq_some found
    exact h.frames f _ _ get
  · cases read

theorem readCell (h : s.All P) (empty : P .nil) {id : Nat} {index v : Value}
    (read : s.readCell id index = .ok v) : P v := by
  unfold Store.readCell at read
  cases cell : cellOf (s.elements id).size index .outOfRange with
  | error f => simp [cell, bind, Except.bind] at read
  | ok c =>
    simp only [cell, bind, Except.bind, pure, Except.pure, Except.ok.injEq] at read
    rw [← read]
    by_cases inside : c < (s.elements id).size
    · rw [Array.getD_eq_getD_getElem?, Array.getElem?_eq_getElem inside]
      exact h.arrays id _ (Array.getElem_mem inside)
    · rw [Array.getD_eq_getD_getElem?, Array.getElem?_eq_none (Nat.le_of_not_lt inside)]
      exact empty

theorem defineIn (h : s.All P) {v : Value} (value : P v) (env : Env) (name : String) :
    (s.defineIn env name v).All P := by
  cases env with
  | nil => exact h
  | cons f outer => exact h.define value f name

end Store.All

theorem parametersAll {P : Value → Prop} {ps : List (Option Token)} {args : List Value}
    {b b' : Bindings Value} (run : Eval.bindParameters ps args b = .ok b') (old : b.All P)
    (each : ∀ a ∈ args, P a) : b'.All P := by
  induction ps generalizing args b with
  | nil =>
    cases run
    exact old
  | cons p ps ih =>
    cases p with
    | none => cases run
    | some u =>
      cases args with
      | nil => cases run
      | cons v rest =>
        exact ih (b := b.put u.lexeme v) run (old.put (each v (by simp)) _)
          fun a mem => each a (by simp [mem])

theorem methodsAll {P : Routine → Prop} {env : Env} {fs : List FunDecl} {b b' : Bindings Routine}
    (run : Eval.methodTable env fs b = .ok b') (old : b.All P)
    (each : ∀ f ∈ fs, ∀ u, f.name = some u → P ⟨f, env, u.lexeme == "this"⟩) : b'.All P := by
  induction fs generalizing b with
  | nil =>
    cases run
    exact old
  | cons f fs ih =>
    have start : (do
        let name ← Lox.lexeme f.name
        Eval.methodTable env fs (b.put name ⟨f, env, name == "this"⟩)) = .ok b' := run
    cases named : f.name with
    | none =>
      rw [named] at start
      cases start
    | some u =>
      rw [named] at start
      exact ih start (old.put (each f (by simp) u named) _) fun g mem => each g (by simp [mem])

def classEnv (s : Store) (env : Env) : Option Class → Env × Store
  | some c => s.enter env [("super", .class_ c)]
  | none => (env, s)

theorem Store.All.classEnv {s : Store} {P : Value → Prop} (h : s.All P) (env : Env)
    {base : Option Class} (value : ∀ k, base = some k → P (.class_ k)) :
    (Lox.classEnv s env base).2.All P := by
  cases base with
  | none => exact h
  | some k => exact h.enter (Bindings.allOne (value k rfl)) env

theorem declareClassRun (u : Token) (methods : List FunDecl) (base : Option Class) (m : Machine) :
    Eval.declareClass (some u) methods base m =
      let inner := classEnv (m.store.defineIn m.env u.lexeme .nil) m.env base
      match Eval.methodTable inner.1 methods [] with
      | .error f => .error (.fault f) { m with store := inner.2, env := inner.1 }
      | .ok table =>
        Eval.onStore (Store.assign m.env u (.class_ ⟨⟨inner.2.nextId, u.lexeme, table⟩,
          (base.map Class.layers).getD []⟩)) { m with store := inner.2.freshId.2 } := by
  cases base with
  | none =>
    show (do
      let table ← Eval.lift (Eval.methodTable m.env methods [])
      let v ← Eval.classValue u.lexeme table none
      Eval.setEnv m.env
      Eval.onStore (Store.assign m.env u v) : Eval Unit) _ = _
    dsimp only [classEnv]
    rw [bindRun]
    cases Eval.methodTable m.env methods [] <;> rfl
  | some c =>
    show (do
      let table ← Eval.lift (Eval.methodTable
        ((m.store.defineIn m.env u.lexeme .nil).enter m.env [("super", .class_ c)]).1 methods [])
      let v ← Eval.classValue u.lexeme table (some c)
      Eval.setEnv m.env
      Eval.onStore (Store.assign m.env u v) : Eval Unit) _ = _
    dsimp only [classEnv]
    rw [bindRun]
    cases Eval.methodTable
      ((m.store.defineIn m.env u.lexeme .nil).enter m.env [("super", .class_ c)]).1 methods [] <;> rfl

end Lox
