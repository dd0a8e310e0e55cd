import Mathlib.Data.List.Forall2
import Mathlib.Order.Basic
import Lox.Proofs.Loops.Layouts
import Lox.Proofs.Runs.Contents

/-!
Two stores side by side. A world says which frames of the two are partners, and which have none and
stay empty. Values are alike when nothing but the numbers of their frames and nodes tells them
apart; stores mirror each other when partners hold values that are alike.
-/

namespace Lox

structure World where
  partners : FrameId → FrameId → Prop
  left : FrameId → Prop
  right : FrameId → Prop

namespace World

structure Le (w v : World) : Prop where
  partners : ∀ f g, w.partners f g → v.partners f g
  left : ∀ f, w.left f → v.left f
  right : ∀ f, w.right f → v.right f

instance : Preorder World where
  le := Le
  le_refl _ := ⟨fun _ _ h => h, fun _ h => h, fun _ h => h⟩
  le_trans _ _ _ first rest := ⟨fun f g h => rest.partners f g (first.partners f g h),
    fun f h => rest.left f (first.left f h), fun f h => rest.right f (first.right f h)⟩

def join (w : World) (f g : FrameId) : World :=
  { w with partners := fun a b => w.partners a b ∨ a = f ∧ b = g }

def blankLeft (w : World) (f : FrameId) : World :=
  { w with left := fun a => w.left a ∨ a = f }

def blankRight (w : World) (f : FrameId) : World :=
  { w with right := fun a => w.right a ∨ a = f }

theorem leJoin (w : World) (f g : FrameId) : w ≤ w.join f g :=
  ⟨fun _ _ => .inl, fun _ h => h, fun _ h => h⟩

theorem leBlankLeft (w : World) (f : FrameId) : w ≤ w.blankLeft f :=
  ⟨fun _ _ h => h, fun _ => .inl, fun _ h => h⟩

theorem leBlankRight (w : World) (f : FrameId) : w ≤ w.blankRight f :=
  ⟨fun _ _ h => h, fun _ h => h, fun _ => .inl⟩

inductive Fits (w : World) : Layout → Env → Env → Prop where
  | beyond {E F : Env} (frames : List.Forall₂ w.partners E F) : Fits w [] E F
  | both {π : Layout} {E F : Env} {f g : FrameId} (here : w.partners f g) (outer : Fits w π E F) :
      Fits w (.both :: π) (f :: E) (g :: F)
  | left {π : Layout} {E F : Env} {f : FrameId} (here : w.left f) (outer : Fits w π E F) :
      Fits w (.left :: π) (f :: E) F
  | right {π : Layout} {E F : Env} {g : FrameId} (here : w.right g) (outer : Fits w π E F) :
      Fits w (.right :: π) E (g :: F)

variable {w v : World} {π : Layout} {E F : Env}

theorem Fits.mono (h : w.Fits π E F) (later : w ≤ v) : v.Fits π E F := by
  induction h with
  | beyond frames => exact .beyond (frames.imp later.partners)
  | both here _ ih => exact .both (later.partners _ _ here) ih
  | left here _ ih => exact .left (later.left _ here) ih
  | right here _ ih => exact .right (later.right _ here) ih

end World

theorem relCases {α β : Type} {R : α → β → Prop} {x : Option α} {y : Option β}
    (h : Option.Rel R x y) : x = none ∧ y = none ∨ ∃ a b, x = some a ∧ y = some b ∧ R a b := by
  cases h with
  | none => exact .inl ⟨rfl, rfl⟩
  | some given => exact .inr ⟨_, _, rfl, rfl, given⟩

theorem relNth {α β : Type} {R : α → β → Prop} {as : List α} {bs : List β}
    (h : List.Forall₂ R as bs) (n : Nat) : Option.Rel R as[n]? bs[n]? := by
  induction h generalizing n with
  | nil => exact .none
  | cons head _ ih =>
    cases n with
    | zero => exact .some head
    | succ n => exact ih n

theorem relSet {α β : Type} {R : α → β → Prop} {as : List α} {bs : List β}
    (h : List.Forall₂ R as bs) (n : Nat) {a : α} {b : β} (new : R a b) :
    List.Forall₂ R (as.set n a) (bs.set n b) := by
  induction h generalizing n with
  | nil => exact .nil
  | cons head tail ih =>
    cases n with
    | zero => exact .cons new tail
    | succ n => exact .cons head (ih n)

theorem World.Fits.meets {w : World} {π : Layout} {E F : Env} (h : w.Fits π E F) {d e : Nat}
    (meets : π.Meets d e) : Option.Rel w.partners E[d]? F[e]? := by
  induction h generalizing d e with
  | beyond frames =>
    cases meets
    exact relNth frames d
  | both here _ ih =>
    cases meets with
    | here => exact .some here
    | both outer => exact ih outer
  | left _ _ ih =>
    cases meets with
    | left outer => exact ih outer
  | right _ _ ih =>
    cases meets with
    | right outer => exact ih outer

def Bindings.Alike {α β : Type} (P : α → β → Prop) (b : Bindings α) (b' : Bindings β) : Prop :=
  ∀ name, Option.Rel P (b.get? name) (b'.get? name)

namespace Bindings.Alike

variable {α β : Type} {P Q : α → β → Prop} {b : Bindings α} {b' : Bindings β}

theorem none : Alike P [] [] := fun _ => .none

theorem put (h : Alike P b b') {a : α} {a' : β} (new : P a a') (name : String) :
    Alike P (b.put name a) (b'.put name a') := by
  intro other
  by_cases same : other = name
  · subst same
    rw [Bindings.get?_put_self, Bindings.get?_put_self]
    exact .some new
  · rw [Bindings.get?_put_of_ne b a same, Bindings.get?_put_of_ne b' a' same]
    exact h other

theorem one {a : α} {a' : β} (new : P a a') (name : String) :
    Alike P [(name, a)] [(name, a')] :=
  none.put new name

theorem mono (h : Alike P b b') (weaker : ∀ a a', P a a' → Q a a') : Alike Q b b' := by
  intro name
  rcases relCases (h name) with ⟨left, right⟩ | ⟨a, a', left, right, given⟩ <;> rw [left, right]
  · exact .none
  · exact .some (weaker a a' given)

theorem has (h : Alike P b b') (name : String) : b.has name = b'.has name := by
  unfold Bindings.has
  rcases relCases (h name) with ⟨left, right⟩ | ⟨a, a', left, right, -⟩ <;> simp [left, right]

end Bindings.Alike

namespace Tables

variable (T : Tables) (w : World)

structure Callable (r r' : Routine) : Prop where
  closed : ∃ π, w.Fits π r.closure r'.closure ∧ r.decl.Twin T π r'.decl ∧
    (r.isInitializer = true → π.Meets 0 0)
  isInitializer : r.isInitializer = r'.isInitializer

/- Routines that wait for a receiver: its frame will come between the closure and the call. -/
structure Bindable (r r' : Routine) : Prop where
  closed : ∃ π, w.Fits π r.closure r'.closure ∧ r.decl.Twin T (.both :: π) r'.decl
  isInitializer : r.isInitializer = r'.isInitializer

structure Layered (l l' : Layer) : Prop where
  id : l.id = l'.id
  name : l.name = l'.name
  methods : Bindings.Alike (T.Bindable w) l.methods l'.methods

def Classes (c c' : Class) : Prop := List.Forall₂ (T.Layered w) c.layers c'.layers

inductive Alike : Value → Value → Prop where
  | datum (d : Datum) : Alike (.datum d) (.datum d)
  | function {r r' : Routine} (id : Nat) (name : String) (routine : T.Callable w r r') :
      Alike (.function id name r) (.function id name r')
  | class_ {c c' : Class} (layers : T.Classes w c c') : Alike (.class_ c) (.class_ c')
  | instance_ {c c' : Class} (id : Nat) (layers : T.Classes w c c') :
      Alike (.instance_ id c) (.instance_ id c')
  | array (id : Nat) : Alike (.array id) (.array id)
  | accessor (id : Nat) (which : Accessor) (array : Nat) :
      Alike (.accessor id which array) (.accessor id which array)
  | clock : Alike .clock .clock
  | arrayMaker : Alike .arrayMaker .arrayMaker

variable {T w} {v : World}

theorem Callable.mono {r r' : Routine} (h : T.Callable w r r') (later : w ≤ v) :
    T.Callable v r r' := by
  obtain ⟨π, fits, rest⟩ := h.closed
  exact ⟨⟨π, fits.mono later, rest⟩, h.isInitializer⟩

theorem Bindable.mono {r r' : Routine} (h : T.Bindable w r r') (later : w ≤ v) :
    T.Bindable v r r' := by
  obtain ⟨π, fits, rest⟩ := h.closed
  exact ⟨⟨π, fits.mono later, rest⟩, h.isInitializer⟩

theorem Classes.mono {c c' : Class} (h : T.Classes w c c') (later : w ≤ v) : T.Classes v c c' :=
  List.Forall₂.imp (fun _ _ layer =>
    ⟨layer.id, layer.name, layer.methods.mono fun _ _ one => one.mono later⟩) h

theorem Alike.mono {a a' : Value} (h : T.Alike w a a') (later : w ≤ v) : T.Alike v a a' := by
  cases h with
  | datum d => exact .datum d
  | function id name routine => exact .function id name (routine.mono later)
  | class_ layers => exact .class_ (layers.mono later)
  | instance_ id layers => exact .instance_ id (layers.mono later)
  | array id => exact .array id
  | accessor id which array => exact .accessor id which array
  | clock => exact .clock
  | arrayMaker => exact .arrayMaker

theorem Classes.own {c c' : Class} (h : T.Classes w c c') : T.Layered w c.own c'.own := by
  cases c
  cases c'
  cases h with
  | cons own _ => exact own

theorem Classes.found {c c' : Class} (h : T.Classes w c c') (name : String) :
    Option.Rel (T.Bindable w) (c.findMethod? name) (c'.findMethod? name) := by
  unfold Class.findMethod?
  unfold Classes at h
  generalize c.layers = ls at h ⊢
  generalize c'.layers = ls' at h ⊢
  induction h with
  | nil => exact .none
  | cons layer _ ih =>
    rw [List.findSome?_cons, List.findSome?_cons]
    rcases relCases (layer.methods name) with ⟨left, right⟩ | ⟨r, r', left, right, given⟩ <;>
      rw [left, right]
    · exact ih
    · exact .some given

theorem Classes.text {c c' : Class} (h : T.Classes w c c') : c.text = c'.text := by
  unfold Class.text
  congr 1
  unfold Classes at h
  generalize c.layers = ls at h ⊢
  generalize c'.layers = ls' at h ⊢
  induction h with
  | nil => rfl
  | cons layer _ ih => rw [List.map_cons, List.map_cons, layer.name, ih]

end Tables

inductive Concur {α β : Type} (P : α → β → Prop) : Except Fault α → Except Fault β → Prop where
  | ok {a : α} {b : β} (results : P a b) : Concur P (.ok a) (.ok b)
  | error (f : Fault) : Concur P (.error f) (.error f)

theorem concurSame {α : Type} (x : Except Fault α) : Concur Eq x x := by
  cases x with
  | ok a => exact .ok rfl
  | error f => exact .error f

theorem Concur.mono {α β : Type} {P Q : α → β → Prop} {x : Except Fault α} {y : Except Fault β}
    (h : Concur P x y) (weaker : ∀ a b, P a b → Q a b) : Concur Q x y := by
  cases h with
  | ok results => exact .ok (weaker _ _ results)
  | error f => exact .error f

theorem Concur.bind {α β γ δ : Type} {P : α → β → Prop} {Q : γ → δ → Prop} {x : Except Fault α}
    {y : Except Fault β} {f : α → Except Fault γ} {g : β → Except Fault δ} (first : Concur P x y)
    (rest : ∀ a b, P a b → Concur Q (f a) (g b)) : Concur Q (x >>= f) (y >>= g) := by
  cases first with
  | ok results => exact rest _ _ results
  | error f => exact .error f

namespace Store

variable (s : Store)

theorem liveEnter {f : FrameId} (live : f < s.frames.size) (E : Env) (b : Bindings Value) :
    f < (s.enter E b).2.frames.size := by
  rw [s.sizeEnter]
  exact Nat.lt_succ_of_lt live

theorem elementsSet (id cell : Nat) (v : Value) (other : Nat) :
    (s.setElement id cell v).elements other =
      if other = id then (s.elements other).setIfInBounds cell v else s.elements other := by
  simp only [setElement, elements, Array.getD_eq_getD_getElem?, Array.getElem?_modify]
  by_cases same : other = id
  · subst same
    rw [if_pos rfl, if_pos rfl]
    cases s.arrays[other]? with
    | none => simp
    | some xs => rfl
  · rw [if_neg (Ne.symm same), if_neg same]

theorem elementsNew (xs : Array Value) (id : Nat) :
    (s.newArray xs).2.elements id = if id = s.arrays.size then xs else s.elements id := by
  simp only [newArray, elements, Array.getD_eq_getD_getElem?, Array.getElem?_push]
  split <;> rfl

end Store

structure Mirrors (T : Tables) (w : World) (s s' : Store) : Prop where
  live : ∀ {f g}, w.partners f g → f < s.frames.size ∧ g < s'.frames.size
  content : ∀ {f g}, w.partners f g → Bindings.Alike (T.Alike w) (s.frame f) (s'.frame g)
  unique : ∀ {f g f' g'}, w.partners f g → w.partners f' g' → (f = f' ↔ g = g')
  left : ∀ {f}, w.left f → f < s.frames.size ∧ s.frame f = [] ∧ ∀ g, ¬w.partners f g
  right : ∀ {g}, w.right g → g < s'.frames.size ∧ s'.frame g = [] ∧ ∀ f, ¬w.partners f g
  globals : w.partners Store.globals Store.globals
  fieldCount : s.fields.size = s'.fields.size
  fields : ∀ id, Bindings.Alike (T.Alike w) (s.fieldsOf id) (s'.fieldsOf id)
  arrayCount : s.arrays.size = s'.arrays.size
  arrays : ∀ id, List.Forall₂ (T.Alike w) (s.elements id).toList (s'.elements id).toList
  nextId : s.nextId = s'.nextId
  memory : s.memory = s'.memory

namespace Mirrors

variable {T : Tables} {w : World} {s s' : Store} {π : Layout} {E F : Env}

theorem holder (h : Mirrors T w s s') (fits : w.Fits π E F) (name : String) :
    Option.Rel w.partners (s.holder? E name) (s'.holder? F name) := by
  have step : ∀ {f g E F}, w.partners f g → Option.Rel w.partners (s.holder? E name)
      (s'.holder? F name) → Option.Rel w.partners (s.holder? (f :: E) name)
        (s'.holder? (g :: F) name) := by
    intro f g E F here outer
    unfold Store.holder? at outer ⊢
    rw [List.find?_cons, List.find?_cons, (h.content here).has name]
    split
    · exact .some here
    · exact outer
  induction fits with
  | beyond frames =>
    induction frames with
    | nil => exact .none
    | cons here _ ih => exact step here ih
  | both here _ ih => exact step here ih
  | left here _ ih =>
    unfold Store.holder? at ih ⊢
    rw [List.find?_cons, (h.left here).2.1]
    exact ih
  | right here _ ih =>
    unfold Store.holder? at ih ⊢
    rw [List.find?_cons, (h.right here).2.1]
    exact ih

theorem frameAt (fits : w.Fits π E F) {d e : Int} (meets : π.Meets d.toNat e.toNat) :
    Concur w.partners (Store.frameAt E d) (Store.frameAt F e) := by
  rw [Store.frameAtEq, Store.frameAtEq]
  rcases relCases (fits.meets meets) with ⟨left, right⟩ | ⟨f, g, left, right, here⟩ <;>
    rw [left, right]
  · exact .error _
  · exact .ok here

theorem readFrame (h : Mirrors T w s s') {f g : FrameId} (here : w.partners f g) (name : String)
    (fault : Fault) : Concur (T.Alike w)
      (match (s.frame f).get? name with | some v => .ok v | none => .error fault)
      (match (s'.frame g).get? name with | some v => .ok v | none => .error fault) := by
  rcases relCases (h.content here name) with ⟨left, right⟩ | ⟨v, v', left, right, value⟩ <;>
    rw [left, right]
  · exact .error fault
  · exact .ok value

theorem readAt (h : Mirrors T w s s') (fits : w.Fits π E F) {d e : Int}
    (meets : π.Meets d.toNat e.toNat) (name : String) :
    Concur (T.Alike w) (s.readAt E d name) (s'.readAt F e name) :=
  (frameAt fits meets).bind fun _ _ here => h.readFrame here name _

theorem read (h : Mirrors T w s s') (name : Token) :
    Concur (T.Alike w) (s.read Store.globalEnv name) (s'.read Store.globalEnv name) := by
  unfold Store.read Store.lookup? Store.globalEnv
  simp only [List.findSome?_cons, List.findSome?_nil]
  rcases relCases (h.content h.globals name.lexeme) with
    ⟨left, right⟩ | ⟨v, v', left, right, value⟩ <;> rw [left, right]
  · exact .error _
  · exact .ok value

theorem define (h : Mirrors T w s s') {f g : FrameId} (here : w.partners f g) (name : String)
    {v v' : Value} (value : T.Alike w v v') :
    Mirrors T w (s.define f name v) (s'.define g name v') := by
  have apart : ∀ {k}, w.left k → k ≠ f := fun blank same => (h.left blank).2.2 g (same ▸ here)
  have apart' : ∀ {k}, w.right k → k ≠ g := fun blank same => (h.right blank).2.2 f (same ▸ here)
  refine { h with
    live := fun given => by simpa using h.live given
    content := fun {k l} given => ?_
    left := fun blank => ?_
    right := fun blank => ?_ }
  · by_cases same : k = f
    · subst same
      cases (h.unique given here).mp rfl
      rw [s.frameDefineSelf (h.live here).1, s'.frameDefineSelf (h.live here).2]
      exact (h.content here).put value name
    · have other : l ≠ g := fun bad => same ((h.unique given here).mpr bad)
      rw [s.frameDefineOther same, s'.frameDefineOther other]
      exact h.content given
  · rw [s.sizeDefine, s.frameDefineOther (apart blank)]
    exact h.left blank
  · rw [s'.sizeDefine, s'.frameDefineOther (apart' blank)]
    exact h.right blank

theorem defineIn (h : Mirrors T w s s') (fits : w.Fits π E F) (isOpen : π.Open) (name : String)
    {v v' : Value} (value : T.Alike w v v') :
    Mirrors T w (s.defineIn E name v) (s'.defineIn F name v') := by
  cases fits with
  | beyond frames =>
    cases frames with
    | nil => exact h
    | cons here _ => exact h.define here name value
  | both here _ => exact h.define here name value
  | left => cases isOpen
  | right => cases isOpen

theorem freshId (h : Mirrors T w s s') : Mirrors T w s.freshId.2 s'.freshId.2 :=
  { h with nextId := congrArg (· + 1) h.nextId }

theorem later {v : World} (h : Mirrors T w s s') (le : w ≤ v) :
    (∀ {f g}, w.partners f g → Bindings.Alike (T.Alike v) (s.frame f) (s'.frame g)) ∧
      (∀ id, Bindings.Alike (T.Alike v) (s.fieldsOf id) (s'.fieldsOf id)) ∧
      ∀ id, List.Forall₂ (T.Alike v) (s.elements id).toList (s'.elements id).toList :=
  ⟨fun here => (h.content here).mono fun _ _ one => one.mono le,
    fun id => (h.fields id).mono fun _ _ one => one.mono le,
    fun id => (h.arrays id).imp fun _ _ one => one.mono le⟩

theorem enterBoth (h : Mirrors T w s s') (E F : Env) {b b' : Bindings Value}
    (values : Bindings.Alike (T.Alike w) b b') :
    Mirrors T (w.join s.frames.size s'.frames.size) (s.enter E b).2 (s'.enter F b').2 := by
  have le := w.leJoin s.frames.size s'.frames.size
  obtain ⟨frames, fields, arrays⟩ := h.later le
  have old : ∀ {f g}, w.partners f g → f ≠ s.frames.size ∧ g ≠ s'.frames.size :=
    fun given => ⟨Nat.ne_of_lt (h.live given).1, Nat.ne_of_lt (h.live given).2⟩
  refine { h with
    live := ?_, content := ?_, unique := ?_, left := ?_, right := ?_
    globals := .inl h.globals, fields := fields, arrays := arrays }
  · rintro f g (given | ⟨rfl, rfl⟩)
    · exact ⟨s.liveEnter (h.live given).1 E b, s'.liveEnter (h.live given).2 F b'⟩
    · simp
  · rintro f g (given | ⟨rfl, rfl⟩)
    · rw [s.frameEnterOther E b (old given).1, s'.frameEnterOther F b' (old given).2]
      exact frames given
    · rw [s.frameEnterSelf, s'.frameEnterSelf]
      exact values.mono fun _ _ one => one.mono le
  · rintro f g f' g' (first | ⟨rfl, rfl⟩) (second | ⟨rfl, rfl⟩)
    · exact h.unique first second
    · exact iff_of_false (old first).1 (old first).2
    · exact iff_of_false (old second).1.symm (old second).2.symm
    · exact iff_of_true rfl rfl
  · intro f blank
    obtain ⟨live, empty, alone⟩ := h.left blank
    refine ⟨s.liveEnter live E b, ?_, ?_⟩
    · rw [s.frameEnterOther E b (Nat.ne_of_lt live)]
      exact empty
    · rintro g (given | ⟨rfl, rfl⟩)
      · exact alone g given
      · exact Nat.lt_irrefl _ live
  · intro g blank
    obtain ⟨live, empty, alone⟩ := h.right blank
    refine ⟨s'.liveEnter live F b', ?_, ?_⟩
    · rw [s'.frameEnterOther F b' (Nat.ne_of_lt live)]
      exact empty
    · rintro f (given | ⟨rfl, rfl⟩)
      · exact alone f given
      · exact Nat.lt_irrefl _ live

theorem enterLeft (h : Mirrors T w s s') (E : Env) :
    Mirrors T (w.blankLeft s.frames.size) (s.enter E []).2 s' := by
  obtain ⟨frames, fields, arrays⟩ := h.later (w.leBlankLeft s.frames.size)
  refine { h with
    live := ?_, content := ?_, left := ?_, fields := fields, arrays := arrays }
  · intro f g given
    exact ⟨s.liveEnter (h.live given).1 E [], (h.live given).2⟩
  · intro f g given
    rw [s.frameEnterOther E [] (Nat.ne_of_lt (h.live given).1)]
    exact frames given
  · rintro f (blank | rfl)
    · obtain ⟨live, empty, alone⟩ := h.left blank
      refine ⟨s.liveEnter live E [], ?_, alone⟩
      rw [s.frameEnterOther E [] (Nat.ne_of_lt live)]
      exact empty
    · exact ⟨by simp, s.frameEnterSelf E [], fun g given => Nat.lt_irrefl _ (h.live given).1⟩

theorem enterRight (h : Mirrors T w s s') (F : Env) :
    Mirrors T (w.blankRight s'.frames.size) s (s'.enter F []).2 := by
  obtain ⟨frames, fields, arrays⟩ := h.later (w.leBlankRight s'.frames.size)
  refine { h with
    live := ?_, content := ?_, right := ?_, fields := fields, arrays := arrays }
  · intro f g given
    exact ⟨(h.live given).1, s'.liveEnter (h.live given).2 F []⟩
  · intro f g given
    rw [s'.frameEnterOther F [] (Nat.ne_of_lt (h.live given).2)]
    exact frames given
  · rintro g (blank | rfl)
    · obtain ⟨live, empty, alone⟩ := h.right blank
      refine ⟨s'.liveEnter live F [], ?_, alone⟩
      rw [s'.frameEnterOther F [] (Nat.ne_of_lt live)]
      exact empty
    · exact ⟨by simp, s'.frameEnterSelf F [], fun f given => Nat.lt_irrefl _ (h.live given).2⟩

theorem setField (h : Mirrors T w s s') (id : Nat) (name : String) {v v' : Value}
    (value : T.Alike w v v') : Mirrors T w (s.setField id name v) (s'.setField id name v') := by
  refine { h with fieldCount := ?_, fields := fun other => ?_ }
  · simp [Store.setField, h.fieldCount]
  · by_cases same : other = id
    · subst same
      by_cases live : other < s.fields.size
      · rw [s.fieldsSetSelf live, s'.fieldsSetSelf (h.fieldCount ▸ live)]
        exact (h.fields other).put value name
      · rw [s.fieldsSetNone live, s'.fieldsSetNone (h.fieldCount ▸ live)]
        exact h.fields other
    · rw [s.fieldsSetOther same, s'.fieldsSetOther same]
      exact h.fields other

theorem newInstance (h : Mirrors T w s s') (c c' : Class) :
    Mirrors T w (s.newInstance c).2 (s'.newInstance c').2 := by
  refine { h with fieldCount := ?_, fields := fun id => ?_ }
  · simp [Store.newInstance, h.fieldCount]
  · by_cases same : id = s.fields.size
    · have same' : id = s'.fields.size := same.trans h.fieldCount
      rw [s.fieldsNew c, s'.fieldsNew c', if_pos same, if_pos same']
      exact .none
    · have same' : id ≠ s'.fields.size := fun bad => same (bad.trans h.fieldCount.symm)
      rw [s.fieldsNew c, s'.fieldsNew c', if_neg same, if_neg same']
      exact h.fields id

theorem setElement (h : Mirrors T w s s') (id cell : Nat) {v v' : Value}
    (value : T.Alike w v v') : Mirrors T w (s.setElement id cell v) (s'.setElement id cell v') := by
  refine { h with arrayCount := ?_, arrays := fun other => ?_ }
  · simp [Store.setElement, h.arrayCount]
  · rw [s.elementsSet, s'.elementsSet]
    by_cases same : other = id
    · rw [if_pos same, if_pos same, Array.toList_setIfInBounds, Array.toList_setIfInBounds]
      exact relSet (h.arrays other) cell value
    · rw [if_neg same, if_neg same]
      exact h.arrays other

theorem newArray (h : Mirrors T w s s') (count : Nat) :
    Mirrors T w (s.newArray (Array.replicate count .nil)).2
      (s'.newArray (Array.replicate count .nil)).2 := by
  refine { h with arrayCount := ?_, arrays := fun id => ?_ }
  · simp [Store.newArray, h.arrayCount]
  · rw [s.elementsNew, s'.elementsNew, h.arrayCount]
    split
    · rw [Array.toList_replicate]
      exact List.forall₂_same.mpr fun v mem => List.eq_of_mem_replicate mem ▸ .datum .nil
    · exact h.arrays id

end Mirrors
end Lox
