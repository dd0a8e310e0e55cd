import Lox.Proofs.Resolved

/-!
Reading a name right after assigning to it. A name with an entry is written and read in one frame. A
name without one is read among the globals but written wherever it is found on the way out, so the
two agree exactly where no frame on the way binds the name; a function that assigns to a global may
meet a variable of that name declared around it later.
-/

namespace Lox

open Eval

theorem Fits.locals {opened : Site → Env → Prop} {s : Store} {env : Env}
    {scopes : List (Site × Scope)} (h : Fits opened s env scopes) :
    ∃ inner, env = inner ++ [Store.globals] ∧ ∀ f ∈ inner, 0 < f := by
  induction h with
  | globals => exact ⟨[], rfl, by simp⟩
  | @frame f env _ _ _ _ _ inner _ _ _ ih =>
    obtain ⟨rest, rfl, above⟩ := ih
    refine ⟨f :: rest, rfl, fun g mem => ?_⟩
    rcases List.mem_cons.mp mem with rfl | mem
    · exact inner
    · exact above g mem

/- What an assignment that gave `v` did: `m₁` is the machine once the value is there, and `f` the
frame that it was put into. -/
structure Wrote (k : Nat) (t : Token) (value : Expr) (m m' : Machine) (v : Value) (m₁ : Machine)
    (f : FrameId) : Prop where
  value : evaluate k value m = .ok v m₁
  frame : f ∈ m.env
  store : m' = { m₁ with store := m₁.store.define f t.lexeme v }

def Start.ReadsBack (S : Start) : Prop :=
  ∀ k j node t value v m m' c node' t',
    S.Reaches (k + 1) (.expr (.assign node (some t) value)) m →
    evaluate (k + 1) (.assign node (some t) value) m = .ok v m' →
    Stands S.body c (.expr (.assign node (some t) value)) →
    Stands S.body c (.expr (.reference node' (some t'))) → t'.lexeme = t.lexeme →
    ∃ m₁ f, Wrote k t value m m' v m₁ f ∧
      (∀ d, S.machine.locals.distance? node = some d → m.env[d]? = some f ∧
        evaluate (j + 1) (.reference node' (some t')) m' = .ok v m') ∧
      (S.machine.locals.distance? node = none →
        (f = Store.globals ↔
          ∀ g ∈ m.env, g ≠ Store.globals → (m₁.store.frame g).has t.lexeme = false) ∧
        (evaluate (j + 1) (.reference node' (some t')) m' = .ok v m' ↔
          f = Store.globals ∨ (m₁.store.frame Store.globals).get? t.lexeme = some v))

theorem assignOk {k node : Nat} {t : Option Token} {value : Expr} {v : Value} {m m' : Machine}
    (run : evaluate (k + 1) (.assign node t value) m = .ok v m') :
    ∃ m₁, evaluate k value m = .ok v m₁ ∧ writeVariable node t v m₁ = .ok () m' := by
  rw [evaluate] at run
  obtain ⟨w, m₁, first, rest⟩ := bindOk.mp run
  obtain ⟨_, m₂, second, last⟩ := bindOk.mp rest
  cases last
  exact ⟨m₁, first, second⟩

theorem frameAtOk {env : Env} {d : Nat} {f : FrameId} (h : Store.frameAt env d = .ok f) :
    env[d]? = some f := by
  rw [Store.frameAtEq] at h
  rw [Int.toNat_natCast] at h
  cases found : env[d]? with
  | none =>
    rw [found] at h
    cases h
  | some g =>
    rw [found] at h
    cases h
    rfl

theorem writeVariableOk {node : Nat} {t : Token} {v : Value} {m m' : Machine}
    (run : writeVariable node (some t) v m = .ok () m') :
    ∃ f, m' = { m with store := m.store.define f t.lexeme v } ∧
      (∀ d, m.locals.distance? node = some d → m.env[d]? = some f) ∧
      (m.locals.distance? node = none → m.store.holder? m.env t.lexeme = some f) := by
  unfold writeVariable at run
  rw [getBind, getBind] at run
  cases entry : m.locals.distance? node with
  | some d =>
    rw [entry] at run
    obtain ⟨f, m₁, found, rest⟩ := bindOk.mp run
    cases at' : Store.frameAt m.env d with
    | error e =>
      rw [at'] at found
      cases found
    | ok g =>
      rw [at'] at found
      cases found
      cases rest
      refine ⟨f, rfl, ?_, by rintro ⟨⟩⟩
      rintro _ ⟨⟩
      exact frameAtOk at'
  | none =>
    rw [entry] at run
    have stored : onStore (Store.assign m.env t v) m = .ok () m' := run
    unfold onStore Store.assign at stored
    dsimp only at stored
    cases held : m.store.holder? m.env t.lexeme with
    | none =>
      rw [held] at stored
      cases stored
    | some f =>
      rw [held] at stored
      cases stored
      exact ⟨f, rfl, by rintro _ ⟨⟩, fun _ => rfl⟩

theorem readResolved {node : Nat} {t : Token} {m : Machine} {d : Nat} {f : FrameId} {v : Value}
    (entry : m.locals.distance? node = some d) (at' : m.env[d]? = some f)
    (bound : (m.store.frame f).get? t.lexeme = some v) (j : Nat) :
    evaluate (j + 1) (.reference node (some t)) m = .ok v m := by
  have drop : m.env.drop d = f :: m.env.drop (d + 1) := by
    obtain ⟨lt, rfl⟩ := List.getElem?_eq_some_iff.mp at'
    exact List.drop_eq_getElem_cons lt
  rw [evaluate]
  unfold readVariable
  rw [getBind, entry]
  exact Start.askRun (x := fun s => s.readAt m.env d t.lexeme) (readAtDrop drop bound)

theorem readGlobal {node : Nat} {t : Token} {m : Machine} {v : Value}
    (entry : m.locals.distance? node = none) (j : Nat) :
    evaluate (j + 1) (.reference node (some t)) m = .ok v m ↔
      (m.store.frame Store.globals).get? t.lexeme = some v := by
  have run : evaluate (j + 1) (.reference node (some t)) m =
      ask (fun s => s.read Store.globalEnv t) m := by
    rw [evaluate]
    unfold readVariable
    rw [getBind, entry]
    rfl
  have found : m.store.lookup? Store.globalEnv t.lexeme =
      (m.store.frame Store.globals).get? t.lexeme := by
    simp [Store.lookup?, Store.globalEnv]
  rw [run]
  cases held : (m.store.frame Store.globals).get? t.lexeme with
  | some w =>
    have read : m.store.read Store.globalEnv t = .ok w := by
      unfold Store.read
      rw [found, held]
    rw [Start.askRun read]
    constructor
    · rintro ⟨⟩
      rfl
    · rintro ⟨⟩
      rfl
  | none =>
    have read : m.store.read Store.globalEnv t = .error (.undefinedVariable t) := by
      unfold Store.read
      rw [found, held]
    have failed : ask (fun s => s.read Store.globalEnv t) m =
        .error (.fault (.undefinedVariable t)) m := by
      show lift (m.store.read Store.globalEnv t) m = _
      rw [read]
      rfl
    rw [failed]
    constructor
    · rintro ⟨⟩
    · rintro ⟨⟩

theorem holderGlobal {s : Store} {inner : List FrameId} {name : String} {f : FrameId}
    (above : ∀ g ∈ inner, 0 < g) (held : s.holder? (inner ++ [Store.globals]) name = some f) :
    f = Store.globals ↔
      ∀ g ∈ inner ++ [Store.globals], g ≠ Store.globals → (s.frame g).has name = false := by
  unfold Store.holder? at held
  rw [List.find?_append] at held
  constructor
  · rintro rfl g mem apart
    have local' : g ∈ inner := by simpa [apart] using mem
    cases first : inner.find? fun f => (s.frame f).has name with
    | some h =>
      rw [first] at held
      cases held
      exact absurd (above _ (List.mem_of_find?_eq_some first)) (Nat.lt_irrefl 0)
    | none => simpa using List.find?_eq_none.mp first g local'
  · intro none
    cases first : inner.find? fun f => (s.frame f).has name with
    | some h =>
      have mem := List.mem_of_find?_eq_some first
      have has := List.find?_some first
      rw [none h (by simp [mem]) (Nat.ne_of_gt (above h mem))] at has
      cases has
    | none =>
      rw [first, Option.none_or] at held
      exact List.mem_singleton.mp (List.mem_of_find?_eq_some held)

theorem Fits.liveMem {opened : Site → Env → Prop} {s : Store} {env : Env}
    {scopes : List (Site × Scope)} (h : Fits opened s env scopes) {f : FrameId} (mem : f ∈ env) :
    f < s.frames.size := by
  induction h with
  | globals live =>
    rw [List.mem_singleton.mp mem]
    exact live
  | frame _ _ _ live _ _ ih =>
    rcases List.mem_cons.mp mem with rfl | outer
    · exact live
    · exact ih outer

theorem holderMem {s : Store} {env : Env} {name : String} {f : FrameId}
    (held : s.holder? env name = some f) : f ∈ env := List.mem_of_find?_eq_some held

theorem Start.readsBack {S : Start} (chart : Charted S.machine.locals S.body)
    (first : S.Sits (.stmts S.body) S.machine) : S.ReadsBack := by
  intro k j node t value v m m' c node' t' reach run stands stands' same
  have sits := Start.sits chart first reach
  obtain ⟨m₁, valued, written⟩ := assignOk run
  have done := ((sound chart k).expr value m (.step reach .assigned)
    (sitsNext chart.shaped (sound chart k) reach sits .assigned)).ok valued |>.1
  obtain ⟨f, rfl, resolved, unresolved⟩ := writeVariableOk written
  rw [done.ok.locals, done.env] at resolved unresolved
  obtain ⟨c₀, -, fits⟩ := done.placed sits.2
  rw [done.env] at fits
  -- both nodes stand at one place, so they have the same entry
  have alike : S.machine.locals.distance? node' = S.machine.locals.distance? node := by
    rw [chart.distance stands' rfl, chart.distance stands rfl, Option.bind_some, Option.bind_some,
      same]
  generalize after : { m₁ with store := m₁.store.define f t.lexeme v } = m₂
  have store : m₂.store = m₁.store.define f t.lexeme v := by rw [← after]
  have env : m₂.env = m.env := by rw [← after, ← done.env]
  have entry' : m₂.locals.distance? node' = S.machine.locals.distance? node := by
    rw [← after, ← alike, ← done.ok.locals]
  refine ⟨m₁, f, ⟨valued, ?_, after.symm⟩, fun d entry => ⟨resolved d entry, ?_⟩, fun entry => ⟨?_, ?_⟩⟩
  · cases entry : S.machine.locals.distance? node with
    | some d => exact List.mem_of_getElem? (resolved d entry)
    | none => exact holderMem (unresolved entry)
  · have at' : m₂.env[d]? = some f := by
      rw [env]
      exact resolved d entry
    refine readResolved (entry'.trans entry) at' ?_ j
    rw [same, store, Store.frameDefineSelf _ (fits.liveMem (List.mem_of_getElem? (resolved d entry))),
      Bindings.get?_put_self]
  · obtain ⟨inner, split, above⟩ := fits.locals
    have held := unresolved entry
    rw [split] at held ⊢
    exact holderGlobal above held
  · refine (readGlobal (entry'.trans entry) j).trans ?_
    rw [same, store]
    by_cases global : f = Store.globals
    · subst global
      rw [Store.frameDefineSelf _ (f := Store.globals) fits.live, Bindings.get?_put_self]
      simp
    · rw [Store.frameDefineOther _ (Ne.symm global)]
      simp [global]

namespace Session

def shadowedProgram : List (List Char) :=
  ["var x = \"a\";".toList,
   "\x7b".toList,
   "  fun f() \x7b x = \"b\"; print x; \x7d".toList,
   "  var x = \"c\";".toList,
   "  f();".toList,
   "  print x;".toList,
   "\x7d".toList,
   "print x;".toList]

def prints? (lines : List (List Char)) : Option (List String) :=
  match (do prepare lines; interpret : Interact Value) (fresh {}) with
  | .ok _ s =>
    if s.log.isEmpty then
      s.machine.printed.toList.mapM fun
        | .text t => some t
        | _ => none
    else none
  | .error .. => none

theorem preparedOfPrints {lines : List (List Char)} {texts : List String}
    (h : prints? lines = some texts) :
    ∃ s, prepare lines (fresh {}) = .ok () s ∧ s.log.resolution = [] := by
  unfold prints? at h
  split at h
  · next v s run =>
    split at h
    · next empty =>
      obtain ⟨_, s₁, ready, ran⟩ := bindOk.mp run
      have within : s₁.log <+: (final (interpret s₁)).log := by
        rw [interpretIs]
        exact concludedLog ..
      rw [ran, show (final (EStateM.Result.ok v s)).log = [] from List.isEmpty_iff.mp empty,
        List.prefix_nil] at within
      exact ⟨s₁, ready, by rw [within]; rfl⟩
    · cases h
  · cases h

end Session
end Lox
