import Lox.Proofs.Runs.Contents
import Lox.Proofs.Runs.Events
import Lox.Proofs.Runs.Operations

/-!
Fields and the writes to them. A field holds the value of the last write to it, or what it held
before. Of the operations of the evaluator, only one writes to fields, and only two change arrays.
-/

namespace Lox

open Eval

def Write.into (w : Write) (id : Nat) (name : String) : Option Value :=
  if w.id = id ∧ w.name = name then some w.value else none

def lastWritten (ws : List Write) (id : Nat) (name : String) : Option Value :=
  ws.reverse.findSome? fun w => w.into id name

theorem lastWrittenNil (id : Nat) (name : String) : lastWritten [] id name = none := rfl

theorem lastWrittenAppend (ws ws' : List Write) (id : Nat) (name : String) :
    lastWritten (ws ++ ws') id name = (lastWritten ws' id name).or (lastWritten ws id name) := by
  unfold lastWritten
  rw [List.reverse_append, List.findSome?_append]

def Store.Writes (s : Store) (ws : List Write) (s' : Store) : Prop :=
  ∀ id name, (s'.fieldsOf id).get? name = (lastWritten ws id name).or ((s.fieldsOf id).get? name)

namespace Store.Writes

variable {s s' s'' : Store} {ws ws' : List Write}

theorem same (fields : s'.fields = s.fields) : s.Writes [] s' := by
  intro id name
  unfold Store.fieldsOf
  rw [fields, lastWrittenNil, Option.none_or]

theorem trans (first : s.Writes ws s') (rest : s'.Writes ws' s'') : s.Writes (ws ++ ws') s'' := by
  intro id name
  rw [rest id name, first id name, lastWrittenAppend, Option.or_assoc]

theorem newInstance (s : Store) (c : Class) : s.Writes [] (s.newInstance c).2 := by
  intro id name
  rw [s.fieldsNew c id, lastWrittenNil, Option.none_or]
  split
  · next last => simp [Store.fieldsOf, last]
  · rfl

theorem setField {w : Write} (live : w.id < s.fields.size) :
    s.Writes [w] (s.setField w.id w.name w.value) := by
  intro id name
  have one : lastWritten [w] id name = w.into id name := by simp [lastWritten]
  rw [one]
  unfold Write.into
  by_cases same : w.id = id
  · subst same
    rw [s.fieldsSetSelf live]
    by_cases named : name = w.name
    · simp [named]
    · rw [Bindings.get?_put_of_ne _ _ named, if_neg (by simp [Ne.symm named]), Option.none_or]
  · rw [s.fieldsSetOther (Ne.symm same), if_neg (by simp [same]), Option.none_or]

end Store.Writes

structure Store.Still (s s' : Store) : Prop extends s.Rests s' where
  fields : s.Writes [] s'

theorem Store.Still.refl (s : Store) : s.Still s := ⟨.refl s, .same rfl⟩

theorem Store.Still.trans {a b c : Store} (first : a.Still b) (rest : b.Still c) : a.Still c :=
  ⟨first.toRests.trans rest.toRests, first.fields.trans rest.fields⟩

theorem Store.Spares.still {s s' : Store} (h : s.Spares s') : s.Still s' :=
  ⟨h.toRests, .same h.fields⟩

def Eval.Sparing {α : Type} (x : Eval α) : Prop :=
  ∀ m : Machine, m.store.Spares (final (x m)).store

namespace Eval

variable {α β : Type}

theorem sparingPure (a : α) : Sparing (pure a) := fun m => .refl m.store

theorem sparingThrow (e : Signal) : Sparing (throw e : Eval α) := fun m => .refl m.store

theorem sparingGet : Sparing (get : Eval Machine) := fun m => .refl m.store

theorem Sparing.bind {x : Eval α} {f : α → Eval β} (first : Sparing x) (rest : ∀ a, Sparing (f a)) :
    Sparing (x >>= f) := by
  intro m
  have kept := first m
  rw [bindRun]
  cases run : x m with
  | ok a m' =>
    rw [run] at kept
    exact kept.trans (rest a m')
  | error e m' =>
    rw [run] at kept
    exact kept

theorem Modest.sparing {x : Eval α} (h : Modest false x) : Sparing x := by
  generalize false = home at h
  induction h with
  | pure a => exact sparingPure a
  | fail f => exact sparingThrow _
  | bind _ _ first rest => exact first.bind rest
  | look _ _ rest => exact sparingGet.bind rest
  | change kept => exact fun m => kept m.store
  | onStore kept =>
    intro m
    have kept := kept m.store
    unfold Eval.onStore
    dsimp only
    split
    · next a s run =>
      rw [run] at kept
      exact kept
    · next f s run =>
      rw [run] at kept
      exact kept
  | define name v =>
    intro m
    show m.store.Spares (m.store.defineIn m.env name v)
    unfold Store.defineIn
    split <;> exact ⟨⟨rfl, rfl⟩, rfl⟩
  | write | keep | tick | setEnv => exact fun m => .refl m.store

end Eval

end Lox
