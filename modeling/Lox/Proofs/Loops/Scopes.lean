import Lox.Proofs.Loops.Worlds
import Lox.Proofs.Scopes.Charts

/-!
Scopes side by side. The resolver opens a scope for every frame, and one for a frame without a
partner stays without names, so that a name is found at partners or on neither side.
-/

namespace Lox

open Resolve

/- A scope on one side only has no names. On the right there is then another innermost scope, and
its names must be ready, as those of a scope without names are. -/
inductive ScopesFit : Layout → List Scope → List Scope → Prop where
  | beyond (S : List Scope) : ScopesFit [] S S
  | both {π : Layout} {S S' : List Scope} (names : Scope) (outer : ScopesFit π S S') :
      ScopesFit (.both :: π) (names :: S) (names :: S')
  | left {π : Layout} {S S' : List Scope} (ready : ∀ names ∈ S'.head?, Scope.Ready names)
      (outer : ScopesFit π S S') : ScopesFit (.left :: π) ([] :: S) S'
  | right {π : Layout} {S S' : List Scope} (outer : ScopesFit π S S') :
      ScopesFit (.right :: π) S ([] :: S')

namespace ScopesFit

variable {π : Layout} {S S' : List Scope}

theorem depth (h : ScopesFit π S S') (name : String) :
    Option.Rel π.Meets (depth? S name) (depth? S' name) := by
  induction h with
  | beyond S =>
    cases depth? S name with
    | none => exact .none
    | some d => exact .some (.beyond d)
  | both names _ ih =>
    cases has : names.has name with
    | true =>
      rw [depthHere has, depthHere has]
      exact .some .here
    | false =>
      rw [depthOuter has, depthOuter has]
      rcases relCases ih with ⟨left, right⟩ | ⟨d, e, left, right, meets⟩ <;> rw [left, right]
      · exact .none
      · exact .some (.both meets)
  | left _ _ ih =>
    rw [depthOuter rfl]
    rcases relCases ih with ⟨left, right⟩ | ⟨d, e, left, right, meets⟩ <;> rw [left, right]
    · exact .none
    · exact .some (.left meets)
  | right _ ih =>
    rw [depthOuter (s := []) rfl]
    rcases relCases ih with ⟨left, right⟩ | ⟨d, e, left, right, meets⟩ <;> rw [left, right]
    · exact .none
    · exact .some (.right meets)

theorem put (h : ScopesFit π S S') (isOpen : π.Open) (t : Option Token) (ready : Bool) :
    ScopesFit π (putName S t ready) (putName S' t ready) := by
  cases t with
  | none =>
    rw [putNameNone, putNameNone]
    exact h
  | some u =>
    cases h with
    | beyond S => exact .beyond _
    | both names outer => exact .both _ outer
    | left => cases isOpen
    | right => cases isOpen

end ScopesFit

theorem superPut {t : Option Token} (free : Free t) (S : List Scope) (ready : Bool) :
    depth? (putName S t ready) "super" = depth? S "super" := by
  cases t with
  | none => rw [putNameNone]
  | some u =>
    cases S with
    | nil => rfl
    | cons names outer =>
      have apart : (u.lexeme == "super") = false := by
        rw [beq_eq_false_iff_ne]
        intro same
        exact superReserved (same ▸ free u rfl)
      have kept : Bindings.has (names.put u.lexeme ready) "super" = names.has "super" := by
        rw [Bindings.hasPut, apart, Bool.false_or]
      unfold putName
      rw [depthEq, depthEq, List.findIdx?_cons, List.findIdx?_cons, kept]

structure Parallel (π : Layout) (S S' : List Scope) : Prop where
  fit : ScopesFit π S S'
  behind : ∀ d e, depth? S "super" = some d → depth? S' "super" = some e →
    0 < d ∧ 0 < e ∧ π.Meets (d - 1) (e - 1)

namespace Parallel

variable {π : Layout} {S S' : List Scope}

theorem put (h : Parallel π S S') (isOpen : π.Open) {t : Option Token} (free : Free t)
    (ready : Bool) : Parallel π (putName S t ready) (putName S' t ready) := by
  refine ⟨h.fit.put isOpen t ready, ?_⟩
  rw [superPut free, superPut free]
  exact h.behind

theorem both (h : Parallel π S S') {names : Scope} (plain : names.has "super" = false) :
    Parallel (.both :: π) (names :: S) (names :: S') := by
  refine ⟨.both names h.fit, ?_⟩
  rw [depthOuter plain, depthOuter plain]
  intro d e found found'
  obtain ⟨a, at', rfl⟩ := Option.map_eq_some_iff.mp found
  obtain ⟨b, at'', rfl⟩ := Option.map_eq_some_iff.mp found'
  obtain ⟨pos, pos', meets⟩ := h.behind a b at' at''
  obtain ⟨a, rfl⟩ : ∃ k, a = k + 1 := ⟨a - 1, by omega⟩
  obtain ⟨b, rfl⟩ : ∃ k, b = k + 1 := ⟨b - 1, by omega⟩
  exact ⟨Nat.succ_pos _, Nat.succ_pos _, .both meets⟩

theorem left (h : Parallel π S S') (ready : ∀ names ∈ S'.head?, Scope.Ready names) :
    Parallel (.left :: π) ([] :: S) S' := by
  refine ⟨.left ready h.fit, ?_⟩
  rw [depthOuter (s := []) rfl]
  intro d e found found'
  obtain ⟨a, at', rfl⟩ := Option.map_eq_some_iff.mp found
  obtain ⟨pos, pos', meets⟩ := h.behind a e at' found'
  obtain ⟨a, rfl⟩ : ∃ k, a = k + 1 := ⟨a - 1, by omega⟩
  exact ⟨Nat.succ_pos _, pos', .left meets⟩

theorem right (h : Parallel π S S') : Parallel (.right :: π) S ([] :: S') := by
  refine ⟨.right h.fit, ?_⟩
  rw [depthOuter (s := []) rfl]
  intro d e found found'
  obtain ⟨b, at', rfl⟩ := Option.map_eq_some_iff.mp found'
  obtain ⟨pos, pos', meets⟩ := h.behind d b found at'
  obtain ⟨b, rfl⟩ : ∃ k, b = k + 1 := ⟨b - 1, by omega⟩
  exact ⟨pos, Nat.succ_pos _, .right meets⟩

theorem method (h : Parallel π S S') (base : Expr) :
    Parallel (.both :: π.inClass base)
      ([("this", true)] :: if base.isMissing then S else [("super", true)] :: S)
      ([("this", true)] :: if base.isMissing then S' else [("super", true)] :: S') := by
  have apart : Bindings.has [("this", true)] "super" = false := by decide
  unfold Layout.inClass
  split
  · exact h.both apart
  · refine ⟨.both _ (.both _ h.fit), ?_⟩
    rw [depthOuter apart, depthOuter apart, depthHere (hasOne "super"), depthHere (hasOne "super")]
    rintro d e ⟨⟩ ⟨⟩
    exact ⟨Nat.one_pos, Nat.one_pos, .here⟩

theorem same {S : List Scope} (h : ∀ names ∈ S.head?, names.has "super" = false) :
    Parallel [] S S := by
  refine ⟨.beyond S, ?_⟩
  intro d e found found'
  cases found.symm.trans found'
  cases S with
  | nil => cases found
  | cons names outer =>
    rw [depthOuter (h names rfl)] at found
    obtain ⟨a, -, rfl⟩ := Option.map_eq_some_iff.mp found
    exact ⟨Nat.succ_pos _, Nat.succ_pos _, .beyond _⟩

end Parallel
end Lox
