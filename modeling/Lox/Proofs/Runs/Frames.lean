import Lox.Proofs.Runs.Contents
import Lox.Proofs.Scopes.Charts

/-!
Environments beside scopes: frame by frame, an environment was opened for the scopes around a part
of the program, and binds the names that may be read there.
-/

namespace Lox

/- `opened` says which environments were opened for a scope. The frame of the globals belongs to no
scope; the scope of a superclass binds a class. -/
inductive Fits (opened : Site → Env → Prop) (s : Store) : Env → List (Site × Scope) → Prop where
  | globals (live : 0 < s.frames.size) : Fits opened s Store.globalEnv []
  | frame {f env σ names outer} (rest : Fits opened s env outer) (origin : opened σ (f :: env))
      (inner : 0 < f) (live : f < s.frames.size)
      (bound : ∀ name, names.get? name = some true → (s.frame f).has name = true)
      (base : names.get? "super" = some true → ∃ c, (s.frame f).get? "super" = some (.class_ c)) :
      Fits opened s (f :: env) ((σ, names) :: outer)

variable {opened : Site → Env → Prop} {s s' : Store} {env : Env} {scopes : List (Site × Scope)}

theorem Fits.grow (h : Fits opened s env scopes) (grows : s.Grows s') :
    Fits opened s' env scopes := by
  induction h with
  | globals live => exact .globals (Nat.lt_of_lt_of_le live grows.size)
  | frame rest origin inner live bound base ih =>
    refine .frame ih origin inner (Nat.lt_of_lt_of_le live grows.size)
      (fun name ready => grows.has _ _ (bound name ready)) fun ready => ?_
    obtain ⟨c, found⟩ := base ready
    exact ⟨c, grows.reserved _ _ _ superReserved found⟩

theorem Fits.live (h : Fits opened s env scopes) : 0 < s.frames.size := by
  induction h with
  | globals live => exact live
  | frame _ _ _ _ _ _ ih => exact ih

theorem Fits.pending {c : Context} (h : Fits opened s env c.scopes) (t : Option Token) :
    Fits opened s env (c.declare t false).scopes := by
  unfold Context.declare
  split
  · next t σ names outer same =>
    rw [same] at h
    cases h with
    | frame rest origin inner live bound base =>
      have back : ∀ name, (names.put t.lexeme false).get? name = some true →
          names.get? name = some true := by
        intro name ready
        by_cases same : name = t.lexeme
        · subst same
          rw [Bindings.get?_put_self] at ready
          cases ready
        · rwa [Bindings.get?_put_of_ne _ _ same] at ready
      exact .frame rest origin inner live (fun name ready => bound name (back name ready))
        fun ready => base (back _ ready)
  · exact h

theorem Fits.declare {c : Context} (h : Fits opened s env c.scopes) {t : Option Token}
    (free : Free t)
    (bound : ∀ u ∈ t, ∀ f ∈ env.head?, (s.frame f).has u.lexeme = true) :
    Fits opened s env (c.declare t true).scopes := by
  unfold Context.declare
  split
  · next t σ names outer same =>
    rw [same] at h
    cases h with
    | @frame f env _ _ _ rest origin inner live bound' base =>
      refine .frame rest origin inner live (fun name ready => ?_) fun ready => ?_
      · by_cases same : name = t.lexeme
        · subst same
          exact bound t rfl f rfl
        · rw [Bindings.get?_put_of_ne _ _ same] at ready
          exact bound' name ready
      · have apart : "super" ≠ t.lexeme := fun same => superReserved (same ▸ free t rfl)
        rw [Bindings.get?_put_of_ne _ _ apart] at ready
        exact base ready
  · exact h

theorem Fits.enter (h : Fits opened s env scopes) {σ : Site} {b : Bindings Value} {names : Scope}
    (origin : opened σ (s.enter env b).1)
    (bound : ∀ name, names.get? name = some true → b.has name = true)
    (base : names.get? "super" = some true → ∃ c, b.get? "super" = some (.class_ c)) :
    Fits opened (s.enter env b).2 (s.enter env b).1 ((σ, names) :: scopes) := by
  refine .frame (h.grow (.enter s env b)) origin h.live (by simp) (fun name ready => ?_)
    fun ready => ?_
  · rw [s.frameEnterSelf]
    exact bound name ready
  · rw [s.frameEnterSelf]
    exact base ready

structure Framed (opened : Site → Env → Prop) (s : Store) (env : Env) (σ : Site) (names : Scope)
    (f : FrameId) (outer : Env) : Prop where
  here : env = f :: outer
  origin : opened σ (f :: outer)
  inner : 0 < f
  live : f < s.frames.size
  bound : ∀ name, names.get? name = some true → (s.frame f).has name = true
  base : names.get? "super" = some true → ∃ c, (s.frame f).get? "super" = some (.class_ c)

theorem Fits.framed (h : Fits opened s env scopes) {d : Nat} {σ : Site} {names : Scope}
    (found : scopes[d]? = some (σ, names)) :
    ∃ f outer, Framed opened s (env.drop d) σ names f outer := by
  induction h generalizing d with
  | globals => simp at found
  | @frame f env _ _ _ rest origin inner live bound base ih =>
    cases d with
    | zero =>
      cases found
      exact ⟨f, env, rfl, origin, inner, live, bound, base⟩
    | succ d => exact ih found

theorem frameAtDrop {env : Env} {d : Nat} {f : FrameId} {outer : Env} (h : env.drop d = f :: outer) :
    Store.frameAt env d = .ok f := by
  have found : env[d]? = some f := by
    rw [← List.head?_drop, h]
    rfl
  rw [Store.frameAtEq]
  rw [show ((d : Int).toNat) = d from Int.toNat_natCast d, found]

theorem readAtDrop {env : Env} {d : Nat} {f : FrameId} {outer : Env} (h : env.drop d = f :: outer)
    {name : String} {v : Value} (bound : (s.frame f).get? name = some v) :
    s.readAt env d name = .ok v := by
  simp [Store.readAt, frameAtDrop h, bound, bind, Except.bind]

theorem getOfHas {α : Type} {b : Bindings α} {name : String} (h : b.has name = true) :
    ∃ v, b.get? name = some v := Option.isSome_iff_exists.mp h

theorem Fits.readAt (h : Fits opened s env scopes) {d : Nat} {σ : Site} {names : Scope}
    (found : scopes[d]? = some (σ, names)) {name : String} (ready : names.get? name = some true) :
    ∃ v, s.readAt env d name = .ok v := by
  obtain ⟨f, outer, frame⟩ := h.framed found
  obtain ⟨v, bound⟩ := getOfHas (frame.bound name ready)
  exact ⟨v, readAtDrop frame.here bound⟩

theorem depthFound {scopes : List (Site × Scope)} {name : String} {d : Nat}
    (h : Resolve.depth? (scopes.map (·.2)) name = some d) :
    ∃ σ names, scopes[d]? = some (σ, names) ∧ names.has name = true := by
  rw [Resolve.depthEq] at h
  rw [List.findIdx?_map] at h
  obtain ⟨lt, has, -⟩ := List.findIdx?_eq_some_iff_getElem.mp h
  exact ⟨scopes[d].1, scopes[d].2, List.getElem?_eq_getElem lt, has⟩

theorem readyOfHas {names : Scope} {name : String} (has : names.has name = true)
    (ready : names.get? name ≠ some false) : names.get? name = some true := by
  obtain ⟨b, found⟩ := getOfHas has
  cases b with
  | true => exact found
  | false => exact absurd found ready

theorem Context.OuterReady.at {c : Context} (outer : c.OuterReady) {name : String} {d : Nat}
    {σ : Site} {names : Scope} (found : c.scopes[d]? = some (σ, names))
    (has : names.has name = true)
    (here : ∀ x ∈ c.scopes.head?, x.2.get? name ≠ some false) : names.get? name = some true := by
  refine readyOfHas has ?_
  cases d with
  | zero => exact here (σ, names) (by rw [List.head?_eq_getElem?, found]; rfl)
  | succ d =>
    refine outer (σ, names) (List.mem_of_getElem? (i := d) ?_) name
    rw [List.getElem?_tail, found]

end Lox
