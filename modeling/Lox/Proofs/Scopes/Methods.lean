import Lox.Proofs.Scopes.Places

/-!
The scopes around a part of a method. The scope for the receiver is directly outside of the one for
the call and directly inside of the one for the superclass, if there is one; blocks and functions of
the method lie further in.
-/

namespace Lox

def Context.sites (c : Context) : List Site := c.scopes.map (·.1)

namespace Context

@[simp] theorem sitesDeclare (c : Context) (t : Option Token) (ready : Bool) :
    (c.declare t ready).sites = c.sites := by
  unfold declare
  split
  · next scopes => simp [sites, scopes]
  · rfl

@[simp] theorem sitesAfter (c : Context) (s : Stmt) : (c.after s).sites = c.sites :=
  c.sitesDeclare s.declared true

theorem siteAt {c : Context} {d : Nat} {σ : Site} (h : c.sites[d]? = some σ) :
    ∃ names, c.scopes[d]? = some (σ, names) := by
  unfold sites at h
  rw [List.getElem?_map] at h
  obtain ⟨x, at', rfl⟩ := Option.map_eq_some_iff.mp h
  exact ⟨x.2, at'⟩

end Context

inductive Housed : List Site → Prop where
  | none : Housed []
  | block {ss outer} (rest : Housed outer) : Housed (.block ss :: outer)
  | function {f outer} (rest : Housed outer) : Housed (.call f :: outer)
  | method {f outer} (rest : Housed outer) : Housed (.call f :: .this f :: outer)
  | submethod {f name methods outer} (mem : f ∈ methods) (rest : Housed outer) :
      Housed (.call f :: .this f :: .super name methods :: outer)

def Part.sites (c : Context) : Part → List Site
  | .function f _ => .call f :: c.sites
  | _ => c.sites

variable {body : List Stmt} {c : Context} {p : Part}

theorem Stands.housed (h : Stands body c p) : Housed (p.sites c) := by
  induction h with
  | program => exact .none
  | assigned _ ih | operand _ ih | binaryLeft _ ih | binaryRight _ ih | logicalLeft _ ih
  | logicalRight _ ih | inner _ ih | callee _ ih | arguments _ ih | firstExpr _ ih
  | laterExprs _ ih | getObject _ ih | setObject _ ih | setValue _ ih | first _ ih
  | expression _ ih | printed _ ih | ifCond _ ih | yes _ ih | no _ _ ih | whileCond _ ih
  | whileBody _ ih | returned _ _ ih | superclass _ _ ih | body _ ih => exact ih
  | later _ ih => simpa [Part.sites] using ih
  | initializer _ _ ih => simpa [Part.sites] using ih
  | block _ ih => exact .block ih
  | function _ ih =>
    refine .function ?_
    simpa [Part.sites] using ih
  | @method c name methods base f t _ mem _ ih =>
    have outer : Housed (c.declare name true).sites := by simpa [Part.sites] using ih
    show Housed (.call f :: .this f :: ((c.declare name true).inClass name methods base).sites)
    unfold Context.inClass
    split
    · exact .method outer
    · exact .submethod mem outer

theorem Housed.called {sites : List Site} (h : Housed sites) {inner outer : List Site} {f : FunDecl}
    (split : sites = inner ++ .this f :: outer) (isOpen : ∀ σ ∈ inner, σ.isOpen = true) :
    (∃ inner', inner = inner' ++ [.call f]) ∧
      ∀ name methods rest, outer = .super name methods :: rest → f ∈ methods := by
  induction h generalizing inner with
  | none => simp at split
  | block _ ih | function _ ih =>
    cases inner with
    | nil => cases split
    | cons σ inner =>
      obtain ⟨⟨inner', rfl⟩, methods⟩ :=
        ih (List.cons.inj split).2 (List.forall_mem_cons.mp isOpen).2
      exact ⟨⟨σ :: inner', rfl⟩, methods⟩
  | method rest _ =>
    cases inner with
    | nil => cases split
    | cons σ inner =>
      obtain ⟨rfl, further⟩ := List.cons.inj split
      cases inner with
      | nil =>
        cases further
        refine ⟨⟨[], rfl⟩, ?_⟩
        rintro name methods rest' rfl
        cases rest
      | cons τ inner =>
        cases (List.cons.inj further).1
        simp [Site.isOpen] at isOpen
  | submethod mem _ _ =>
    cases inner with
    | nil => cases split
    | cons σ inner =>
      obtain ⟨rfl, further⟩ := List.cons.inj split
      cases inner with
      | nil =>
        cases further
        refine ⟨⟨[], rfl⟩, ?_⟩
        rintro name methods rest' ⟨⟩
        exact mem
      | cons τ inner =>
        cases (List.cons.inj further).1
        simp [Site.isOpen] at isOpen

theorem Classed.split {k : ClassKind} {scopes : List (Site × Scope)} (h : Classed (some k) scopes) :
    ∃ inner f outer, scopes.map (·.1) = inner ++ .this f :: outer ∧
      (∀ σ ∈ inner, σ.isOpen = true) ∧
      scopes[inner.length]? = some (.this f, [("this", true)]) ∧
      (k = .subclass → (∃ name methods rest, outer = .super name methods :: rest) ∧
        Resolve.depth? (scopes.map (·.2)) "super" = some (inner.length + 1)) := by
  generalize inside : some k = k' at h
  induction h with
  | none => cases inside
  | @block _ ss _ _ plain _ ih =>
    obtain ⟨inner, f, outer, split, isOpen, here, sub⟩ := ih inside
    refine ⟨.block ss :: inner, f, outer, by simp [split], by simpa [Site.isOpen] using isOpen, here,
      fun same => ⟨(sub same).1, ?_⟩⟩
    rw [List.map_cons, depthOuter (plainReserved plain superReserved), (sub same).2]
    rfl
  | @call _ g _ _ plain _ ih =>
    obtain ⟨inner, f, outer, split, isOpen, here, sub⟩ := ih inside
    refine ⟨.call g :: inner, f, outer, by simp [split], by simpa [Site.isOpen] using isOpen, here,
      fun same => ⟨(sub same).1, ?_⟩⟩
    rw [List.map_cons, depthOuter (plainReserved plain superReserved), (sub same).2]
    rfl
  | @plain _ f outer _ _ =>
    refine ⟨[], f, outer.map (·.1), rfl, by simp, rfl, fun same => ?_⟩
    cases inside
    cases same
  | @subclass _ f name methods outer _ _ =>
    refine ⟨[], f, _, rfl, by simp, rfl, fun _ => ⟨⟨name, methods, outer.map (·.1), rfl⟩, ?_⟩⟩
    have apart : Bindings.has [("this", true)] "super" = false := by decide
    rw [List.map_cons, depthOuter apart, List.map_cons, depthHere (hasOne "super")]
    rfl

theorem Classed.depth {k : Option ClassKind} {scopes : List (Site × Scope)} (h : Classed k scopes)
    {inner outer : List Site} {f : FunDecl} (split : scopes.map (·.1) = inner ++ .this f :: outer)
    (isOpen : ∀ σ ∈ inner, σ.isOpen = true) :
    Resolve.depth? (scopes.map (·.2)) "this" = some inner.length := by
  induction inner generalizing scopes with
  | nil =>
    cases h with
    | none => cases split
    | block => cases split
    | call => cases split
    | plain => exact depthHere (hasOne "this")
    | subclass => exact depthHere (hasOne "this")
  | cons σ inner ih =>
    obtain ⟨here, further⟩ := List.forall_mem_cons.mp isOpen
    cases h with
    | none => cases split
    | block plain rest =>
      rw [List.map_cons, depthOuter (plainReserved plain thisReserved),
        ih rest (List.cons.inj split).2 further]
      rfl
    | call plain rest =>
      rw [List.map_cons, depthOuter (plainReserved plain thisReserved),
        ih rest (List.cons.inj split).2 further]
      rfl
    | plain =>
      cases (List.cons.inj split).1
      cases here
    | subclass =>
      cases (List.cons.inj split).1
      cases here

end Lox
