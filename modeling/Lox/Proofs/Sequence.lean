/-!
Computations that keep their state when they fail, run one after the other: what each of them does
to a state, and how a run of two in a row is taken apart.
-/

namespace Lox

variable {ε σ α β : Type}

@[simp] theorem pureRun (a : α) (s : σ) : (pure a : EStateM ε σ α) s = .ok a s := rfl

@[simp] theorem getRun (s : σ) : (get : EStateM ε σ σ) s = .ok s s := rfl

@[simp] theorem modifyRun (f : σ → σ) (s : σ) :
    (modify f : EStateM ε σ PUnit) s = .ok ⟨⟩ (f s) := rfl

theorem bindRun (x : EStateM ε σ α) (f : α → EStateM ε σ β) (s : σ) :
    (x >>= f) s = match x s with
      | .ok a s' => f a s'
      | .error e s' => .error e s' := rfl

theorem getBind (f : σ → EStateM ε σ β) (s : σ) : (get >>= f) s = f s s := rfl

theorem bindOk {x : EStateM ε σ α} {f : α → EStateM ε σ β} {s s' : σ} {b : β} :
    (x >>= f) s = .ok b s' ↔ ∃ a t, x s = .ok a t ∧ f a t = .ok b s' := by
  rw [bindRun]
  cases x s with
  | ok a t =>
    constructor
    · intro h
      exact ⟨a, t, rfl, h⟩
    · rintro ⟨_, _, h, rest⟩
      cases h
      exact rest
  | error e t => simp

theorem bindError {x : EStateM ε σ α} {f : α → EStateM ε σ β} {s s' : σ} {e : ε} :
    (x >>= f) s = .error e s' ↔
      x s = .error e s' ∨ ∃ a t, x s = .ok a t ∧ f a t = .error e s' := by
  rw [bindRun]
  cases x s with
  | ok a t =>
    constructor
    · intro h
      exact .inr ⟨a, t, rfl, h⟩
    · rintro (h | ⟨_, _, h, rest⟩)
      · cases h
      · cases h
        exact rest
  | error e t => simp

theorem tryCatchRun (x : EStateM ε σ α) (handle : ε → EStateM ε σ α) (s : σ) :
    (tryCatch x handle : EStateM ε σ α) s = match x s with
      | .ok a s' => .ok a s'
      | .error e s' => handle e s' := by
  show EStateM.tryCatch x handle s = _
  unfold EStateM.tryCatch
  cases x s <;> rfl

def final : EStateM.Result ε σ α → σ
  | .ok _ s => s
  | .error _ s => s

def Keeps (P : σ → Prop) (x : EStateM ε σ α) : Prop :=
  ∀ s, P s → P (final (x s))

variable {P : σ → Prop}

theorem keepsPure (a : α) : Keeps P (pure a : EStateM ε σ α) := fun _ h => h

theorem keepsThrow (e : ε) : Keeps P (throw e : EStateM ε σ α) := fun _ h => h

theorem keepsGet : Keeps P (get : EStateM ε σ σ) := fun _ h => h

theorem Keeps.bind {x : EStateM ε σ α} {f : α → EStateM ε σ β} (first : Keeps P x)
    (rest : ∀ a, Keeps P (f a)) : Keeps P (x >>= f) := by
  intro s h
  have kept := first s h
  rw [bindRun]
  cases run : x s with
  | ok a t =>
    rw [run] at kept
    exact rest a t kept
  | error e t =>
    rw [run] at kept
    exact kept

def onState (g : σ → σ) : EStateM.Result ε σ α → EStateM.Result ε σ α
  | .ok a s => .ok a (g s)
  | .error e s => .error e (g s)

theorem finalOnState (g : σ → σ) (r : EStateM.Result ε σ α) : final (onState g r) = g (final r) := by
  cases r <;> rfl

def Commutes (g : σ → σ) (x : EStateM ε σ α) : Prop :=
  ∀ s, x (g s) = onState g (x s)

variable {g : σ → σ}

theorem commutesPure (a : α) : Commutes g (pure a : EStateM ε σ α) := fun _ => rfl

theorem commutesThrow (e : ε) : Commutes g (throw e : EStateM ε σ α) := fun _ => rfl

theorem commutesModify {f : σ → σ} (h : ∀ s, f (g s) = g (f s)) :
    Commutes g (modify f : EStateM ε σ PUnit) := by
  intro s
  rw [modifyRun, modifyRun, h s]
  rfl

theorem Commutes.bind {x : EStateM ε σ α} {f : α → EStateM ε σ β} (first : Commutes g x)
    (rest : ∀ a, Commutes g (f a)) : Commutes g (x >>= f) := by
  intro s
  rw [bindRun, bindRun, first s]
  cases x s with
  | ok a t => exact rest a t
  | error e t => rfl

theorem commutesGet {f : σ → EStateM ε σ α} (same : ∀ s, f (g s) = f s)
    (rest : ∀ s, Commutes g (f s)) : Commutes g (get >>= f) := by
  intro s
  rw [getBind, getBind, same s]
  exact rest s s

variable {τ : Type}

def seen (g : σ → τ) : EStateM.Result ε σ α → EStateM.Result ε τ α
  | .ok a s => .ok a (g s)
  | .error e s => .error e (g s)

def Alike (g : σ → τ) (x y : EStateM ε σ α) : Prop :=
  ∀ s s', g s = g s' → seen g (x s) = seen g (y s')

variable {g : σ → τ} {x y : EStateM ε σ α} {f h : α → EStateM ε σ β}

theorem alikePure (a : α) : Alike g (pure a : EStateM ε σ α) (pure a) :=
  fun _ _ same => congrArg (EStateM.Result.ok a) same

theorem alikeThrow (e : ε) : Alike g (throw e : EStateM ε σ α) (throw e) :=
  fun _ _ same => congrArg (EStateM.Result.error e) same

theorem alikeModify {f h : σ → σ} (kept : ∀ s s', g s = g s' → g (f s) = g (h s')) :
    Alike g (modify f : EStateM ε σ PUnit) (modify h) := by
  intro s s' same
  rw [modifyRun, modifyRun, seen, seen, kept s s' same]

theorem alikeGet {f h : σ → EStateM ε σ α} (rest : ∀ s s', g s = g s' → Alike g (f s) (h s')) :
    Alike g (get >>= f) (get >>= h) :=
  fun s s' same => rest s s' same s s' same

theorem Alike.bind (first : Alike g x y) (rest : ∀ a, Alike g (f a) (h a)) :
    Alike g (x >>= f) (y >>= h) := by
  intro s s' same
  have one := first s s' same
  rw [bindRun, bindRun]
  cases run : x s with
  | ok a t =>
    cases run' : y s' with
    | ok b t' =>
      rw [run, run'] at one
      obtain ⟨rfl, next⟩ := EStateM.Result.ok.inj one
      exact rest a t t' next
    | error e t' =>
      rw [run, run'] at one
      cases one
  | error e t =>
    cases run' : y s' with
    | ok b t' =>
      rw [run, run'] at one
      cases one
    | error e' t' =>
      rw [run, run'] at one
      obtain ⟨rfl, next⟩ := EStateM.Result.error.inj one
      exact congrArg (EStateM.Result.error e) next

end Lox
