import Lox.Proofs.Runs.Events
import Lox.Proofs.Runs.Operations
import Lox.Value.Operators

/-!
Cells of arrays, and what is done to them. An array has the size that it was made with; a cell holds
the value that was set last, or what it held before.
-/

namespace Lox

def Denotes (n : Nat) (t : Int) (c : Nat) : Prop :=
  (0 ≤ t ∧ t < n ∧ (c : Int) = t) ∨ (-n ≤ t ∧ t < 0 ∧ (c : Int) = t + n)

instance (n : Nat) (t : Int) (c : Nat) : Decidable (Denotes n t c) :=
  inferInstanceAs (Decidable (_ ∨ _))

section

variable {n c c' : Nat} {t : Int} {index : Value} {f : Fault}

theorem Denotes.inside (h : Denotes n t c) : c < n := by
  unfold Denotes at h
  omega

theorem Denotes.unique (h : Denotes n t c) (h' : Denotes n t c') : c = c' := by
  unfold Denotes at h h'
  omega

theorem cellIff : cell? n t = some c ↔ Denotes n t c := by
  unfold cell? Denotes
  simp only [Bool.and_eq_true, decide_eq_true_eq]
  split
  · rw [Option.some.injEq]
    omega
  · split
    · rw [Option.some.injEq]
      omega
    · simp only [reduceCtorEq, false_iff]
      omega

def Value.denotes (index : Value) (n c : Nat) : Bool :=
  match index.toInteger with
  | .ok t => decide (Denotes n t c)
  | .error _ => false

theorem Value.denotesOk (whole : index.toInteger = .ok t) :
    index.denotes n c = true ↔ Denotes n t c := by
  unfold Value.denotes
  rw [whole]
  exact decide_eq_true_iff

theorem cellOfWhole (whole : index.toInteger = .ok t) :
    cellOf n index f =
      if isIndexSized t then (cell? n t).elim (.error f) .ok else .error .indexTooWide := by
  unfold cellOf
  rw [whole]
  cases sized : isIndexSized t <;> cases found : cell? n t <;>
    simp [bind, Except.bind, sized, found]

theorem cellOfOk (h : cellOf n index f = .ok c) :
    ∃ t, index.toInteger = .ok t ∧ Denotes n t c := by
  cases whole : index.toInteger with
  | error g => simp [cellOf, whole, bind, Except.bind] at h
  | ok t =>
    rw [cellOfWhole whole] at h
    cases found : cell? n t with
    | none => split at h <;> simp [found] at h
    | some c' =>
      refine ⟨t, rfl, cellIff.mp ?_⟩
      split at h <;> simp_all

theorem cellOfDenotes (small : isIndexSized n = true) (whole : index.toInteger = .ok t)
    (denotes : Denotes n t c) : cellOf n index f = .ok c := by
  have sized : isIndexSized t = true := by
    unfold Denotes at denotes
    simp only [isIndexSized, Bool.and_eq_true, decide_eq_true_eq] at small ⊢
    omega
  rw [cellOfWhole whole, sized, cellIff.mpr denotes]
  rfl

theorem cellOfOutside (whole : index.toInteger = .ok t) (outside : ∀ c, ¬Denotes n t c) :
    cellOf n index f = .error (if isIndexSized t then f else .indexTooWide) := by
  have none : cell? n t = none :=
    Option.eq_none_iff_forall_ne_some.mpr fun c same => outside c (cellIff.mp same)
  rw [cellOfWhole whole, none]
  cases isIndexSized t <;> rfl

end

inductive Deed where
  | make (size : Value)
  | set (id : Nat) (index v : Value)

def Deed.size? : Deed → Option Nat
  | .make size =>
    match size.toInteger with
    | .ok t => some t.toNat
    | .error _ => none
  | .set .. => none

def Value.deed? : Value → List Value → Option Deed
  | .accessor _ .write id, index :: v :: _ => some (.set id index v)
  | .arrayMaker, size :: _ => some (.make size)
  | _, _ => none

def Task.deed? : Task → Option Deed
  | .call f args => f.deed? args
  | _ => none

theorem Task.deedCall {t : Task} {d : Deed} (h : t.deed? = some d) :
    (∃ a id index v rest, t = .call (.accessor a .write id) (index :: v :: rest) ∧
      d = .set id index v) ∨
    ∃ size rest, t = .call .arrayMaker (size :: rest) ∧ d = .make size := by
  unfold Task.deed? at h
  split at h
  · unfold Value.deed? at h
    split at h
    · cases h
      exact .inl ⟨_, _, _, _, _, rfl, rfl⟩
    · cases h
      exact .inr ⟨_, _, rfl, rfl⟩
    · cases h
  · cases h

theorem Task.deedEvents {t : Task} {d : Deed} (h : t.deed? = some d) (n : Nat) (m : Machine) :
    t.events n m = [] := by
  obtain ⟨_, _, _, _, _, rfl, -⟩ | ⟨_, _, rfl, -⟩ := t.deedCall h <;> rfl

theorem Task.plainOfPart {t t' : Task} {n : Nat} {m m' : Machine} {earlier later : List Event}
    (events : t.events n m = earlier ++ .part t' m' :: later) : t.deed? = none := by
  cases own : t.deed? with
  | none => rfl
  | some d => simp [t.deedEvents own] at events

theorem Deed.sizeWhole {size : Value} {t : Int} (whole : size.toInteger = .ok t) :
    (Deed.make size).size? = some t.toNat := by
  simp [Deed.size?, whole]

def sizes (ds : List Deed) : List Nat := ds.filterMap Deed.size?

theorem sizesAppend (ds ds' : List Deed) : sizes (ds ++ ds') = sizes ds ++ sizes ds' :=
  List.filterMap_append

def Deed.into (n id c : Nat) : Deed → Option Value
  | .set other index v => if other = id ∧ index.denotes n c = true then some v else none
  | .make _ => none

def lastSet (n : Nat) (ds : List Deed) (id c : Nat) : Option Value :=
  ds.reverse.findSome? (Deed.into n id c)

theorem lastSetAppend (n : Nat) (ds ds' : List Deed) (id c : Nat) :
    lastSet n (ds ++ ds') id c = (lastSet n ds' id c).or (lastSet n ds id c) := by
  unfold lastSet
  rw [List.reverse_append, List.findSome?_append]

theorem lastSetOne (n : Nat) (d : Deed) (id c : Nat) : lastSet n [d] id c = d.into n id c := by
  simp [lastSet]

namespace Eval

variable {n a id : Nat} {index v size : Value} {rest : List Value} {m : Machine} {s : Store}
  {f : Fault}

theorem onStoreOk {α : Type} {x : Stored α} {b : α} (run : x m.store = .ok b s) :
    onStore x m = .ok b { m with store := s } := by
  unfold onStore
  dsimp only
  rw [run]

theorem onStoreError {α : Type} {x : Stored α} (run : x m.store = .error f s) :
    onStore x m = .error (.fault f) { m with store := s } := by
  unfold onStore
  dsimp only
  rw [run]

theorem callSetOk (run : Store.writeCell id index v m.store = .ok () s) :
    call (n + 1) (.accessor a .write id) (index :: v :: rest) m = .ok v { m with store := s } := by
  show (onStore (Store.writeCell id index v) >>= fun _ => pure v) m = _
  rw [bindRun, onStoreOk run]
  rfl

theorem callSetError (run : Store.writeCell id index v m.store = .error f s) :
    call (n + 1) (.accessor a .write id) (index :: v :: rest) m =
      .error (.fault f) { m with store := s } := by
  show (onStore (Store.writeCell id index v) >>= fun _ => pure v) m = _
  rw [bindRun, onStoreError run]

theorem callMakeOk (run : Store.makeArray size m.store = .ok v s) :
    call (n + 1) .arrayMaker (size :: rest) m = .ok v { m with store := s } :=
  onStoreOk run

theorem callMakeError (run : Store.makeArray size m.store = .error f s) :
    call (n + 1) .arrayMaker (size :: rest) m = .error (.fault f) { m with store := s } :=
  onStoreError run

end Eval

namespace Store

def sizes (s : Store) : List Nat := s.arrays.toList.map Array.size

def cellAt (s : Store) (id c : Nat) : Value := (s.elements id).getD c .nil

theorem sizesGet (s : Store) (id : Nat) : s.sizes[id]? = s.arrays[id]?.map Array.size := by
  simp [sizes]

theorem elementsSize {s : Store} {id n : Nat} (h : s.sizes[id]? = some n) :
    (s.elements id).size = n := by
  rw [sizesGet] at h
  obtain ⟨as, found, rfl⟩ := Option.map_eq_some_iff.mp h
  simp [elements, found]

theorem cellAtOut {s : Store} {id : Nat} (out : s.sizes.length ≤ id) (c : Nat) :
    s.cellAt id c = .nil := by
  have out : s.arrays.size ≤ id := by simpa [sizes] using out
  simp [cellAt, elements, out]

theorem readCellOk {s : Store} {id c : Nat} {index : Value}
    (cell : cellOf (s.elements id).size index .outOfRange = .ok c) :
    s.readCell id index = .ok (s.cellAt id c) := by
  unfold readCell
  dsimp only
  rw [cell]
  rfl

theorem readCellError {s : Store} {id : Nat} {index : Value} {f : Fault}
    (cell : cellOf (s.elements id).size index .outOfRange = .error f) :
    s.readCell id index = .error f := by
  unfold readCell
  dsimp only
  rw [cell]
  rfl

theorem liveOfCell {s : Store} {id c : Nat} (inside : c < (s.elements id).size) :
    id < s.sizes.length := by
  refine Nat.lt_of_not_le fun out => ?_
  have out : s.arrays.size ≤ id := by simpa [sizes] using out
  simp [elements, out] at inside

theorem sizesSet (s : Store) (id c : Nat) (v : Value) : (s.setElement id c v).sizes = s.sizes := by
  apply List.ext_getElem?
  intro j
  rw [sizesGet, sizesGet]
  simp only [setElement, Array.getElem?_modify]
  split
  · rw [Option.map_map]
    congr 1
    funext as
    exact Array.size_setIfInBounds
  · rfl

theorem elementsSetSelf (s : Store) (id c : Nat) (v : Value) :
    (s.setElement id c v).elements id = (s.elements id).setIfInBounds c v := by
  cases found : s.arrays[id]? <;> simp [elements, setElement, Array.getElem?_modify, found]

theorem cellAtSetSelf {s : Store} {id c : Nat} (inside : c < (s.elements id).size) (v : Value)
    (c' : Nat) : (s.setElement id c v).cellAt id c' = if c = c' then v else s.cellAt id c' := by
  unfold cellAt
  rw [elementsSetSelf, Array.getD_eq_getD_getElem?, Array.getElem?_setIfInBounds, if_pos inside]
  split
  · rfl
  · rw [Array.getD_eq_getD_getElem?]

theorem cellAtSetOther (s : Store) {id id' : Nat} (apart : id' ≠ id) (c : Nat) (v : Value) (c' : Nat) :
    (s.setElement id c v).cellAt id' c' = s.cellAt id' c' := by
  simp [cellAt, elements, setElement, Array.getElem?_modify, apart.symm]

theorem sizesNew (s : Store) (as : Array Value) :
    (s.newArray as).2.sizes = s.sizes ++ [as.size] := by
  simp [sizes, newArray]

theorem cellAtNew (s : Store) (n id c : Nat) :
    (s.newArray (Array.replicate n .nil)).2.cellAt id c = s.cellAt id c := by
  by_cases last : id = s.arrays.size
  · subst last
    simp only [cellAt, elements, newArray, Array.getD_eq_getD_getElem?, Array.getElem?_push_size,
      Array.getElem?_eq_none (Nat.le_refl _), Array.getElem?_replicate, Option.getD_some]
    split <;> rfl
  · simp [cellAt, elements, newArray, Array.getElem?_push, last]

end Store

/-- The second store is the first one after the deeds: it has the arrays that were made besides
those from before, and their cells hold what was set last. -/
structure Store.Enacts (s : Store) (ds : List Deed) (s' : Store) : Prop where
  memory : s'.memory = s.memory
  sizes : s'.sizes = s.sizes ++ Lox.sizes ds
  small : ∀ n ∈ Lox.sizes ds, isIndexSized n = true
  targets : ∀ id index v, .set id index v ∈ ds → id < s'.sizes.length
  cells : ∀ id n, s'.sizes[id]? = some n →
    ∀ c, s'.cellAt id c = (lastSet n ds id c).getD (s.cellAt id c)

namespace Store.Enacts

variable {s s' s'' : Store} {ds ds' : List Deed}

theorem still (same : s.Rests s') : s.Enacts [] s' := by
  refine ⟨same.memory, ?_, nofun, nofun, ?_⟩
  · simp [Store.sizes, Lox.sizes, same.arrays]
  · intro id n _ c
    simp [cellAt, elements, same.arrays, lastSet]

theorem none (h : s.Enacts ds s') {id : Nat} (out : s'.sizes.length ≤ id) (n c : Nat) :
    lastSet n ds id c = .none := by
  unfold lastSet
  rw [List.findSome?_eq_none_iff]
  intro d mem
  cases d with
  | make size => rfl
  | set other index v =>
    have live := h.targets other index v (List.mem_reverse.mp mem)
    have apart : other ≠ id := by omega
    simp [Deed.into, apart]

theorem trans (first : s.Enacts ds s') (rest : s'.Enacts ds' s'') : s.Enacts (ds ++ ds') s'' := by
  have longer : s'.sizes.length ≤ s''.sizes.length := by simp [rest.sizes]
  refine ⟨rest.memory.trans first.memory, ?_, ?_, ?_, ?_⟩
  · rw [rest.sizes, first.sizes, sizesAppend, List.append_assoc]
  · intro n mem
    rw [sizesAppend] at mem
    exact (List.mem_append.mp mem).elim (first.small n) (rest.small n)
  · intro id index v mem
    rcases List.mem_append.mp mem with mem | mem
    · exact Nat.lt_of_lt_of_le (first.targets id index v mem) longer
    · exact rest.targets id index v mem
  · intro id n size c
    rw [rest.cells id n size c, lastSetAppend]
    by_cases old : id < s'.sizes.length
    · have size : s'.sizes[id]? = some n := by
        rwa [rest.sizes, List.getElem?_append_left old] at size
      rw [first.cells id n size c, Option.getD_or]
    · have out : s'.sizes.length ≤ id := Nat.le_of_not_lt old
      have out' : s.sizes.length ≤ id := by
        have longer : s.sizes.length ≤ s'.sizes.length := by simp [first.sizes]
        omega
      rw [first.none out, cellAtOut out, cellAtOut out', Option.or_none]

end Store.Enacts

theorem Store.Enacts.sizesMade {memory : Nat} {s : Store} {ds : List Deed}
    (h : (Store.initial memory).Enacts ds s) : s.sizes = Lox.sizes ds :=
  h.sizes

theorem Store.enactsSet {s s' : Store} {id : Nat} {index v : Value}
    (run : writeCell id index v s = .ok () s') : s.Enacts [.set id index v] s' := by
  unfold writeCell at run
  split at run
  · next c cell =>
    cases run
    obtain ⟨t, whole, denotes⟩ := cellOfOk cell
    refine ⟨rfl, ?_, nofun, ?_, ?_⟩
    · rw [sizesSet]
      exact (List.append_nil _).symm
    · intro other index' v' mem
      cases List.mem_singleton.mp mem
      rw [sizesSet]
      exact liveOfCell denotes.inside
    · intro other n size c'
      rw [sizesSet] at size
      rw [lastSetOne]
      by_cases same : id = other
      · subst same
        rw [cellAtSetSelf denotes.inside]
        rw [elementsSize size] at denotes
        have here : index.denotes n c' = true ↔ c = c' :=
          (Value.denotesOk whole).trans ⟨denotes.unique, fun same => same ▸ denotes⟩
        by_cases at' : c = c' <;> simp [Deed.into, here, at']
      · simp [Deed.into, same, cellAtSetOther s (Ne.symm same)]
  · cases run

theorem Store.writeCellError {s s' : Store} {id : Nat} {index v : Value} {f : Fault}
    (run : writeCell id index v s = .error f s') : s' = s := by
  unfold writeCell at run
  split at run
  · cases run
  · cases run
    rfl

theorem cellCountOk {memory : Nat} {size : Value} {n : Nat}
    (h : size.toInteger >>= cellCount memory = .ok n) :
    (Deed.make size).size? = some n ∧ isIndexSized n = true := by
  cases whole : size.toInteger with
  | error g => simp [whole, bind, Except.bind] at h
  | ok t =>
    simp only [whole, bind, Except.bind, cellCount] at h
    split at h
    · cases h
    · next sized =>
      split at h
      · cases h
      · cases h
        refine ⟨Deed.sizeWhole whole, ?_⟩
        simp only [isIndexSized, Bool.not_eq_true, Bool.not_eq_false', Bool.and_eq_true,
          decide_eq_true_eq] at sized ⊢
        omega

theorem Store.makeArrayOk {s s' : Store} {size v : Value} (run : makeArray size s = .ok v s') :
    ∃ n, size.toInteger >>= cellCount s.memory = .ok n ∧
      s' = (s.newArray (Array.replicate n .nil)).2 := by
  unfold makeArray at run
  split at run
  · next n count =>
    cases run
    exact ⟨n, count, rfl⟩
  · cases run

theorem Store.makeArrayError {s s' : Store} {size : Value} {f : Fault}
    (run : makeArray size s = .error f s') : s' = s := by
  unfold makeArray at run
  split at run
  · cases run
  · cases run
    rfl

theorem Store.enactsMake {s s' : Store} {size v : Value} (run : makeArray size s = .ok v s') :
    s.Enacts [.make size] s' := by
  obtain ⟨n, count, rfl⟩ := makeArrayOk run
  obtain ⟨made, small⟩ := cellCountOk count
  have one : Lox.sizes [.make size] = [n] := by simp [Lox.sizes, made]
  refine ⟨rfl, ?_, ?_, ?_, ?_⟩
  · rw [one, sizesNew, Array.size_replicate]
  · rw [one]
    intro k mem
    cases List.mem_singleton.mp mem
    exact small
  · intro id index w mem
    cases List.mem_singleton.mp mem
  · intro id k _ c
    rw [cellAtNew, lastSetOne]
    rfl

end Lox
