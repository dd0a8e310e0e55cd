import Lox.Proofs.Runs.Moments
import Lox.Proofs.Runs.Soundness

/-!
The moments of a program's run. What a frame bound `this` or `super` to when it was made, it binds
them to in every machine that the run comes by.
-/

namespace Lox

structure Chronicle (S : Start) (all : List Moment) : Prop where
  order : all.Pairwise Moment.Before
  covered : (Moment.discipline True).Covered S.fuel (.stmts S.body) S.machine all

variable {S : Start} {all : List Moment} {m : Machine} {n : Nat} {t : Task}

theorem Start.chronicle {memory : Nat} (shaped : Stmt.AllShaped S.body)
    (env : S.machine.env = Store.globalEnv) (store : S.machine.store = .initial memory) :
    ∃ all, Chronicle S all := by
  have held := Moment.heldInitial True memory
  have kept : (Moment.discipline True).Kept (Moment.initial memory) S.machine := by
    refine ⟨?_, ?_⟩
    · rw [store]
      exact held
    · rw [env]
      exact (Moment.discipline True).globals held
  obtain ⟨ws, w, passes, -, cover⟩ :=
    (Discipline.follows (D := Moment.discipline True) S.fuel).stmts S.body (.initial memory) S.machine
      ⟨kept, fun _ => shaped, trivial⟩
  exact ⟨ws, passes.order, cover ws fun _ h => h⟩

theorem comparable {α : Type} {R : α → α → Prop} (refl : ∀ a, R a a) {xs : List α}
    (order : xs.Pairwise R) {a b : α} (first : a ∈ xs) (second : b ∈ xs) : R a b ∨ R b a := by
  induction order with
  | nil => cases first
  | cons head _ ih =>
    rcases List.mem_cons.mp first with rfl | early
    · rcases List.mem_cons.mp second with rfl | late
      · exact .inl (refl _)
      · exact .inl (head _ late)
    · rcases List.mem_cons.mp second with rfl | late
      · exact .inr (head _ early)
      · exact ih early late

theorem Chronicle.sits (h : Chronicle S all) (reach : S.Reaches n t m) :
    ∃ μ ∈ all, (Moment.discipline True).Sits μ t m := (h.covered n t m reach).1

theorem Chronicle.agree (h : Chronicle S all) {μ μ' : Moment} (mem : μ ∈ all) (mem' : μ' ∈ all)
    {f : FrameId} {l : Laid} (at' : μ'.frames[f]? = some l) (live : f < μ.frames.length) :
    μ.frames[f]? = some l := by
  rcases comparable Moment.beforeRefl h.order mem mem' with before | after
  · obtain ⟨more, same⟩ := before.frames
    rw [← same, List.getElem?_append_left live] at at'
    exact at'
  · obtain ⟨more, same⟩ := after.frames
    rw [← same, List.getElem?_append_left (List.getElem?_eq_some_iff.mp at').1]
    exact at'

theorem Chronicle.reserved (h : Chronicle S all) (reach : S.Reaches n t m) {j : Nat} {t₀ : Task}
    {m₀ : Machine} {f : FrameId} {outer : Env} {b : Bindings Value}
    (before : S.Reaches (j + 1) t₀ m₀) (lays : Lays j t₀ m₀ (f :: outer) b)
    (live : f < m.store.frames.size) {name : String} (word : Keyword.ofWord? name ≠ none) :
    (m.store.frame f).get? name = b.get? name := by
  obtain ⟨μ, mem, sits⟩ := h.sits reach
  obtain ⟨μ', mem', noted⟩ := (h.covered _ _ _ before).2 j _ b rfl lays
  have held : μ.Held True m.store := sits.kept.store
  have live : f < μ.frames.length := by
    rw [held.sound.count, held.now]
    exact live
  exact held.reserved trivial f ⟨f :: outer, b⟩ (h.agree mem mem' (noted f rfl) live) name word

end Lox
