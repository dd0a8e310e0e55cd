import Lox.Proofs.Runs.Writes

/-!
The deeds of a run. A run makes arrays and sets cells in the order of its events, and wherever it has
come to, the arrays are as these deeds left them.
-/

namespace Lox

open Eval

def Task.own (n : Nat) : Task → Machine → List Deed
  | .call f args, m =>
    (f.deed? args).elim [] fun d => following (Eval.call (n + 1) f args) m fun _ _ => [d]
  | _, _ => []

def Notes.deeds : Notes Deed where
  own := Task.own
  write _ := []

section

variable {n : Nat} {t : Task} {m : Machine} {f : Value} {args : List Value} {d : Deed}

theorem Task.ownPlain (plain : t.deed? = none) : t.own n m = [] := by
  cases t with
  | call f args =>
    have plain : f.deed? args = none := plain
    simp [Task.own, plain]
  | _ => rfl

theorem Task.ownOk (deed : f.deed? args = some d) {v : Value} {m' : Machine}
    (run : Eval.call (n + 1) f args m = .ok v m') : (Task.call f args).own n m = [d] := by
  simp [Task.own, deed, followingOk run]

theorem Task.ownError {e : Signal} {m' : Machine} (run : Eval.call (n + 1) f args m = .error e m') :
    (Task.call f args).own n m = [] := by
  cases deed : f.deed? args <;> simp [Task.own, deed, following, run]

theorem Task.notedDeed (deed : f.deed? args = some d) :
    (Task.call f args).noted .deeds (n + 1) m = (Task.call f args).own n m := by
  rw [Task.notedSucc, Task.deedEvents (t := .call f args) deed]
  exact List.append_nil _

theorem Task.deedsOk (deed : f.deed? args = some d) {v : Value} {m' : Machine}
    (run : Eval.call (n + 1) f args m = .ok v m') :
    (Task.call f args).noted .deeds (n + 1) m = [d] := by
  rw [Task.notedDeed deed, Task.ownOk deed run]

theorem Task.deedsError (deed : f.deed? args = some d) {e : Signal} {m' : Machine}
    (run : Eval.call (n + 1) f args m = .error e m') :
    (Task.call f args).noted .deeds (n + 1) m = [] := by
  rw [Task.notedDeed deed, Task.ownError run]

theorem Task.ownEnacts (own : t.deed? = some d) :
    m.store.Enacts (t.own n m) (t.ending (n + 1) m).store := by
  obtain ⟨a, id, index, v, rest, rfl, -⟩ | ⟨size, rest, rfl, -⟩ := t.deedCall own
  · rw [endingSet]
    cases run : Store.writeCell id index v m.store with
    | ok _ s =>
      rw [Task.ownOk rfl (callSetOk run)]
      exact Store.enactsSet run
    | error f s =>
      rw [Task.ownError (callSetError run), Store.writeCellError run]
      exact .still (.refl _)
  · rw [endingMake]
    cases run : Store.makeArray size m.store with
    | ok v s =>
      rw [Task.ownOk rfl (callMakeOk run)]
      exact Store.enactsMake run
    | error f s =>
      rw [Task.ownError (callMakeError run), Store.makeArrayError run]
      exact .still (.refl _)

end

def deedTally : Tally Deed where
  toNotes := .deeds
  Does := Store.Enacts
  plain _ _ _ := Task.ownPlain
  deed _ _ _ _ := Task.ownEnacts
  still h := .still h.toRests
  written _ := .still
  trans first rest := first.trans rest

end Lox
