import Lox.Proofs.Runs.Histories

/-!
Moments of a run: all frames and classes that were made so far, in the order they were made, with
the store as it is. Nothing of this is taken back, a frame lies inside an older one, and what a
frame binds reserved words to stays as it was in the beginning.
-/

namespace Lox

structure Laid where
  env : Env
  first : Bindings Value

structure Moment where
  frames : List Laid
  classes : List Class
  store : Store

namespace Moment

structure Before (μ μ' : Moment) : Prop where
  frames : μ.frames <+: μ'.frames
  classes : μ.classes <+: μ'.classes
  names : ∀ f name, (μ.store.frame f).has name = true → (μ'.store.frame f).has name = true

def permit (strict : Prop) (μ : Moment) : Permit strict where
  env env := ∃ b, ⟨env, b⟩ ∈ μ.frames
  klass c := c ∈ μ.classes
  object _ := True
  array _ := True

structure Sound (μ : Moment) : Prop where
  count : μ.frames.length = μ.store.frames.size
  first : ∃ b, μ.frames[0]? = some ⟨Store.globalEnv, b⟩
  inner : ∀ f l, μ.frames[f]? = some l → f ≠ 0 →
    ∃ g outer, g < f ∧ μ.frames[g]? = some outer ∧ l.env = f :: outer.env
  ids : μ.classes.Pairwise fun k c => k.own.id < c.own.id
  made : ∀ c ∈ μ.classes, c.own.id < μ.store.nextId
  bases : ∀ c ∈ μ.classes, c.bases = [] ∨
    ∃ k ∈ μ.classes, k.own.id < c.own.id ∧ c.bases = k.layers

structure Held (strict : Prop) (μ : Moment) (s : Store) : Prop where
  now : μ.store = s
  sound : μ.Sound
  values : s.All (μ.permit strict).ValueOk
  reserved : strict → ∀ f l, μ.frames[f]? = some l → ∀ name, Keyword.ofWord? name ≠ none →
    (s.frame f).get? name = l.first.get? name

variable {strict : Prop} {μ μ' : Moment} {s s' : Store}

theorem beforeRefl (μ : Moment) : μ.Before μ :=
  ⟨List.prefix_rfl, List.prefix_rfl, fun _ _ h => h⟩

theorem Before.trans {μ'' : Moment} (first : μ.Before μ') (rest : μ'.Before μ'') : μ.Before μ'' :=
  ⟨first.frames.trans rest.frames, first.classes.trans rest.classes,
    fun f name h => rest.names f name (first.names f name h)⟩

theorem Before.permit (h : μ.Before μ') : (μ.permit strict).Le (μ'.permit strict) where
  env _ known := by
    obtain ⟨b, mem⟩ := known
    exact ⟨b, h.frames.subset mem⟩
  klass _ known := h.classes.subset known
  object _ _ := trivial
  array _ _ := trivial

theorem Sound.with (h : μ.Sound) (size : s.frames.size = μ.store.frames.size)
    (ids : μ.store.nextId ≤ s.nextId) : Sound { μ with store := s } where
  count := h.count.trans size.symm
  first := h.first
  inner := h.inner
  ids := h.ids
  made c mem := Nat.lt_of_lt_of_le (h.made c mem) ids
  bases := h.bases

theorem Held.sameFrames (h : μ.Held strict s) (same : s'.frames = s.frames)
    (ids : s.nextId ≤ s'.nextId) (values : s'.All (μ.permit strict).ValueOk) :
    ∃ μ', μ.Before μ' ∧ μ'.Held strict s' := by
  have frame : ∀ f, s'.frame f = s.frame f := by
    intro f
    unfold Store.frame
    rw [same]
  obtain ⟨rfl, sound, -, reserved⟩ := h
  refine ⟨{ μ with store := s' }, ⟨List.prefix_rfl, List.prefix_rfl, ?_⟩, rfl, ?_, values, ?_⟩
  · intro f name has
    rwa [frame]
  · exact sound.with (by rw [same]) ids
  · intro h f l at' name word
    rw [frame]
    exact reserved h f l at' name word

theorem hasDefine (s : Store) (f : FrameId) (name : String) (v : Value) {g : FrameId}
    {other : String} (h : (s.frame g).has other = true) :
    ((s.define f name v).frame g).has other = true := by
  by_cases same : g = f
  · subst same
    rw [s.frameDefineSelf (s.liveOfHas h), Bindings.hasPut, h, Bool.or_true]
  · rwa [s.frameDefineOther same]

theorem Held.define (h : μ.Held strict s) (f : FrameId) {name : String}
    (free : strict → Keyword.ofWord? name = none) {v : Value}
    (value : (μ.permit strict).ValueOk v) :
    ∃ μ', μ.Before μ' ∧ μ'.Held strict (s.define f name v) := by
  obtain ⟨rfl, sound, values, reserved⟩ := h
  refine ⟨{ μ with store := μ.store.define f name v }, ⟨List.prefix_rfl, List.prefix_rfl, ?_⟩, rfl,
    ?_, values.define value f name, ?_⟩
  · exact fun g other has => hasDefine μ.store f name v has
  · exact sound.with (by simp) (Nat.le_refl _)
  · intro h g l at' other word
    have apart : other ≠ name := fun same => word (same ▸ free h)
    rw [← reserved h g l at' other word]
    by_cases same : g = f
    · subst same
      by_cases live : g < μ.store.frames.size
      · rw [μ.store.frameDefineSelf live, Bindings.get?_put_of_ne _ _ apart]
      · rw [μ.store.frameDefineNone live]
    · rw [μ.store.frameDefineOther same]

theorem atSnoc {α : Type} {xs : List α} {x y : α} {i : Nat} (h : (xs ++ [x])[i]? = some y) :
    xs[i]? = some y ∨ i = xs.length ∧ y = x := by
  rcases Nat.lt_trichotomy i xs.length with less | same | more
  · rw [List.getElem?_append_left less] at h
    exact .inl h
  · subst same
    simp at h
    exact .inr ⟨rfl, h.symm⟩
  · rw [List.getElem?_eq_none (by simp; omega)] at h
    cases h

theorem Sound.enter (h : μ.Sound) {outer : Laid} (known : outer ∈ μ.frames) (b : Bindings Value) :
    Sound ⟨μ.frames ++ [⟨(μ.store.enter outer.env b).1, b⟩], μ.classes,
      (μ.store.enter outer.env b).2⟩ where
  count := by simp [h.count]
  first := by
    obtain ⟨b', at'⟩ := h.first
    refine ⟨b', ?_⟩
    rw [List.getElem?_append_left (List.getElem?_eq_some_iff.mp at').1, at']
  inner f l at' inside := by
    rcases atSnoc at' with old | ⟨rfl, rfl⟩
    · obtain ⟨g, o, less, there, env⟩ := h.inner f l old inside
      refine ⟨g, o, less, ?_, env⟩
      rw [List.getElem?_append_left (List.getElem?_eq_some_iff.mp there).1, there]
    · obtain ⟨g, less, there⟩ := List.getElem_of_mem known
      refine ⟨g, outer, less, ?_, ?_⟩
      · rw [List.getElem?_append_left less, List.getElem?_eq_getElem less, there]
      · rw [h.count]
        rfl
  ids := h.ids
  made := h.made
  bases := h.bases

theorem Held.enter (h : μ.Held strict s) {env : Env} (known : (μ.permit strict).env env)
    {b : Bindings Value} (values : b.All (μ.permit strict).ValueOk) :
    ∃ μ', μ.Before μ' ∧ μ'.Held strict (s.enter env b).2 ∧
      (μ'.permit strict).env (s.enter env b).1 ∧
      ∀ f ∈ (s.enter env b).1.head?, μ'.frames[f]? = some ⟨(s.enter env b).1, b⟩ := by
  obtain ⟨rfl, sound, all, reserved⟩ := h
  obtain ⟨b', mem⟩ := known
  let μ' : Moment :=
    ⟨μ.frames ++ [⟨(μ.store.enter env b).1, b⟩], μ.classes, (μ.store.enter env b).2⟩
  have before : μ.Before μ' := by
    refine ⟨List.prefix_append _ _, List.prefix_rfl, fun f name has => ?_⟩
    rwa [μ.store.frameEnterOther env b (Nat.ne_of_lt (μ.store.liveOfHas has))]
  have new : ⟨(μ.store.enter env b).1, b⟩ ∈ μ'.frames := List.mem_append_right _ (by simp)
  refine ⟨μ', before, ⟨rfl, sound.enter mem b, ?_, ?_⟩, ⟨b, new⟩, ?_⟩
  · exact (all.mono fun _ ok => before.permit.value ok).enter
      (values.mono fun _ ok => before.permit.value ok) env
  · intro h f l at' name word
    rcases atSnoc at' with old | ⟨rfl, rfl⟩
    · have live : f < μ.store.frames.size := by
        rw [← sound.count]
        exact (List.getElem?_eq_some_iff.mp old).1
      rw [μ.store.frameEnterOther env b (Nat.ne_of_lt live)]
      exact reserved h f l old name word
    · rw [sound.count, μ.store.frameEnterSelf]
  · rintro f ⟨⟩
    show (μ.frames ++ [_])[μ.store.frames.size]? = _
    rw [← sound.count, List.getElem?_concat_length]

theorem Held.newClass (h : μ.Held strict s) (name : String) (table : Bindings Routine)
    {base : Option Class} (inherited : ∀ c, base = some c → (μ.permit strict).ClassOk c) :
    ∃ μ', μ.Before μ' ∧ μ'.Held strict s.freshId.2 ∧ (μ'.permit strict).klass
      ⟨⟨s.nextId, name, table⟩, (base.map Class.layers).getD []⟩ := by
  obtain ⟨rfl, sound, all, reserved⟩ := h
  let c : Class := ⟨⟨μ.store.nextId, name, table⟩, (base.map Class.layers).getD []⟩
  let μ' : Moment := ⟨μ.frames, μ.classes ++ [c], μ.store.freshId.2⟩
  have before : μ.Before μ' :=
    ⟨List.prefix_rfl, List.prefix_append _ _, fun _ _ has => has⟩
  have sound' : μ'.Sound := by
    refine ⟨sound.count, sound.first, sound.inner, ?_, ?_, ?_⟩
    · refine List.pairwise_append.mpr ⟨sound.ids, by simp, fun k mem _ last => ?_⟩
      cases List.mem_singleton.mp last
      exact sound.made k mem
    · intro k mem
      rcases List.mem_append.mp mem with old | last
      · exact Nat.lt_succ_of_lt (sound.made k old)
      · cases List.mem_singleton.mp last
        exact Nat.lt_succ_self _
    · intro k mem
      rcases List.mem_append.mp mem with old | last
      · rcases sound.bases k old with none | ⟨k', mem', less, same⟩
        · exact .inl none
        · exact .inr ⟨k', List.mem_append_left _ mem', less, same⟩
      · cases List.mem_singleton.mp last
        cases base with
        | none => exact .inl rfl
        | some k' =>
          have known : k' ∈ μ.classes := (inherited k' rfl).1
          exact .inr ⟨k', List.mem_append_left _ known, sound.made k' known, rfl⟩
  have new : c ∈ μ'.classes := List.mem_append_right _ (by simp)
  exact ⟨μ', before, ⟨rfl, sound', (all.mono fun _ ok => before.permit.value ok).freshId, reserved⟩,
    new⟩

/- Runs keep to what was made, and remember all of it. -/
def discipline (strict : Prop) : Discipline strict where
  World := Moment
  le := Before
  permit := permit strict
  store := Held strict
  frame μ env b := ∀ f ∈ env.head?, μ.frames[f]? = some ⟨env, b⟩
  refl := beforeRefl
  trans := Before.trans
  grows := Before.permit
  globals h := by
    obtain ⟨b, at'⟩ := h.sound.first
    exact ⟨b, List.mem_of_getElem? at'⟩
  frameOk h _ _ := h.values.frames _
  fieldsOk h _ := h.values.fields _
  elementsOk h _ := h.values.arrays _
  define h _ _ free value := h.define _ free value
  enter h known values := h.enter known values
  newInstance {μ s c} h _ := by
    have moved : ∃ μ', μ.Before μ' ∧ μ'.Held strict (s.newInstance c).2 :=
      h.sameFrames rfl (Nat.le_refl _) (h.values.newInstance c)
    obtain ⟨μ', before, held⟩ := moved
    exact ⟨μ', before, held, trivial⟩
  setField h _ value := h.sameFrames rfl (Nat.le_refl _) (h.values.setField value _ _)
  newArray {μ s vs} h values := by
    have moved : ∃ μ', μ.Before μ' ∧ μ'.Held strict (s.newArray vs).2 :=
      h.sameFrames rfl (Nat.le_refl _) (h.values.newArray values)
    obtain ⟨μ', before, held⟩ := moved
    exact ⟨μ', before, held, trivial⟩
  setElement h _ value := h.sameFrames rfl (Nat.le_refl _) (h.values.setElement value _ _)
  freshId h := h.sameFrames rfl (Nat.le_succ _) h.values.freshId
  newClass name _ _ h _ _ inherited := h.newClass name _ inherited

def initial (memory : Nat) : Moment where
  frames := [⟨Store.globalEnv, (Store.initial memory).frame Store.globals⟩]
  classes := []
  store := .initial memory

theorem heldInitial (strict : Prop) (memory : Nat) :
    (initial memory).Held strict (.initial memory) where
  now := rfl
  sound := by
    refine ⟨rfl, ⟨_, rfl⟩, fun f l at' inside => ?_, .nil, by simp [initial], by simp [initial]⟩
    have first : f < 1 := (List.getElem?_eq_some_iff.mp at').1
    exact absurd (Nat.lt_one_iff.mp first) inside
  values := .initial trivial trivial
  reserved _ f l at' name _ := by
    have first : f < 1 := (List.getElem?_eq_some_iff.mp at').1
    cases Nat.lt_one_iff.mp first
    cases at'
    rfl

end Moment
end Lox
