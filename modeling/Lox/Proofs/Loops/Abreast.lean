import Lox.Proofs.Loops.Likeness

/-!
Two runs abreast. Twin trees that are run with the same fuel in machines that mirror each other end
in the same way, in machines that mirror each other again.
-/

namespace Lox

open Eval

namespace Tables

variable (T : Tables)

structure Related (w : World) (m m' : Machine) : Prop where
  store : Mirrors T w m.store m'.store
  locals : m.locals = T.left
  locals' : m'.locals = T.right
  live : m.live = m'.live
  now : m.now = m'.now
  console : m.console = m'.console
  printed : ∃ new new', m.printed.toList = T.printed.toList ++ new ∧
    m'.printed.toList = T.printed.toList ++ new' ∧ List.Forall₂ (T.Alike w) new new'

inductive Signals (w : World) : Signal → Signal → Prop where
  | fault (f : Fault) : Signals w (.fault f) (.fault f)
  | returned {v v' : Value} (value : T.Alike w v v') : Signals w (.returned v) (.returned v')
  | outOfFuel : Signals w .outOfFuel .outOfFuel

inductive Ends {α β : Type} (w : World) (E F : Env) (Q : World → α → β → Prop) :
    EStateM.Result Signal Machine α → EStateM.Result Signal Machine β → Prop where
  | ok {v : World} {m m' : Machine} {a : α} {b : β} (later : w ≤ v) (related : T.Related v m m')
      (home : m.env = E) (home' : m'.env = F) (results : Q v a b) :
      Ends w E F Q (.ok a m) (.ok b m')
  | error {v : World} {m m' : Machine} {e e' : Signal} (later : w ≤ v) (related : T.Related v m m')
      (signals : T.Signals v e e') : Ends w E F Q (.error e m) (.error e' m')

def Abreast {α β : Type} (w : World) (E F : Env) (x : Eval α) (y : Eval β)
    (Q : World → α → β → Prop) : Prop :=
  ∀ v, w ≤ v → ∀ m m', T.Related v m m' → m.env = E → m'.env = F → T.Ends v E F Q (x m) (y m')

abbrev Done : World → Unit → Unit → Prop := fun _ _ _ => True

end Tables

namespace Tables

variable {T : Tables} {w v : World} {E F E' F' : Env} {α β γ δ : Type}
  {Q : World → α → β → Prop} {R : World → γ → δ → Prop} {x : Eval α} {y : Eval β}

theorem Related.mono {m m' : Machine} {s s' : Store} (h : T.Related w m m') (later : w ≤ v)
    (store : Mirrors T v s s') :
    T.Related v { m with store := s } { m' with store := s' } := by
  obtain ⟨new, new', left, right, each⟩ := h.printed
  exact { h with
    store := store
    printed := ⟨new, new', left, right, each.imp fun _ _ one => one.mono later⟩ }

theorem relMono {P P' : α → β → Prop} {a : Option α} {b : Option β} (h : Option.Rel P a b)
    (weaker : ∀ a b, P a b → P' a b) : Option.Rel P' a b := by
  cases h with
  | none => exact .none
  | some given => exact .some (weaker _ _ given)

theorem Ends.sooner {r : EStateM.Result Signal Machine α} {r' : EStateM.Result Signal Machine β}
    (h : T.Ends v E F Q r r') (later : w ≤ v) : T.Ends w E F Q r r' := by
  cases h with
  | ok le related home home' results => exact .ok (later.trans le) related home home' results
  | error le related signals => exact .error (later.trans le) related signals

theorem abreastPure {a : α} {b : β} (results : ∀ v, w ≤ v → Q v a b) :
    T.Abreast w E F (pure a) (pure b) Q :=
  fun v le _ _ related home home' => .ok le_rfl related home home' (results v le)

theorem abreastFail (f : Fault) : T.Abreast w E F (fail f : Eval α) (fail f : Eval β) Q :=
  fun _ _ _ _ related _ _ => .error le_rfl related (.fault f)

theorem abreastOutOfFuel :
    T.Abreast w E F (throw .outOfFuel : Eval α) (throw .outOfFuel : Eval β) Q :=
  fun _ _ _ _ related _ _ => .error le_rfl related .outOfFuel

theorem abreastReturn {a a' : Value} (value : T.Alike w a a') :
    T.Abreast w E F (throw (.returned a) : Eval α) (throw (.returned a') : Eval β) Q :=
  fun _ le _ _ related _ _ => .error le_rfl related (.returned (value.mono le))

theorem Abreast.bind {f : α → Eval γ} {g : β → Eval δ} (first : T.Abreast w E F x y Q)
    (rest : ∀ v, w ≤ v → ∀ a b, Q v a b → T.Abreast v E F (f a) (g b) R) :
    T.Abreast w E F (x >>= f) (y >>= g) R := by
  intro v le m m' related home home'
  have ends := first v le m m' related home home'
  rw [bindRun, bindRun]
  generalize x m = r at ends
  generalize y m' = r' at ends
  cases ends with
  | ok later related home home' results =>
    exact (rest _ (le.trans later) _ _ results _ le_rfl _ _ related home home').sooner later
  | error later related signals => exact .error later related signals

theorem abreastGet {f : Machine → Eval α} {g : Machine → Eval β}
    (rest : ∀ v, w ≤ v → ∀ m m', T.Related v m m' → m.env = E → m'.env = F →
      T.Abreast v E F (f m) (g m') Q) : T.Abreast w E F (get >>= f) (get >>= g) Q :=
  fun v le m m' related home home' =>
    rest v le m m' related home home' v le_rfl m m' related home home'

theorem abreastLift {x : Except Fault α} {y : Except Fault β}
    (h : Concur (fun a b => ∀ v, w ≤ v → Q v a b) x y) : T.Abreast w E F (lift x) (lift y) Q := by
  cases h with
  | ok results => exact abreastPure results
  | error f => exact abreastFail f

theorem abreastLiftSame (x : Except Fault α) :
    T.Abreast w E F (lift x) (lift x) fun _ a b => a = b := by
  cases x with
  | ok a => exact abreastPure fun _ _ => rfl
  | error f => exact abreastFail f

theorem abreastAsk {f : Store → Except Fault α} {g : Store → Except Fault β}
    (h : ∀ v, w ≤ v → ∀ s s', Mirrors T v s s' → Concur (Q v) (f s) (g s')) :
    T.Abreast w E F (ask f) (ask g) Q := by
  intro v le m m' related home home'
  unfold ask
  rw [getBind, getBind]
  have answers := h v le m.store m'.store related.store
  generalize f m.store = r at answers
  generalize g m'.store = r' at answers
  cases answers with
  | ok results => exact .ok le_rfl related home home' results
  | error f => exact .error le_rfl related (.fault f)

theorem abreastChange {f : Store → α × Store} {g : Store → β × Store}
    (h : ∀ v, w ≤ v → ∀ s s', Mirrors T v s s' →
      ∃ u, v ≤ u ∧ Mirrors T u (f s).2 (g s').2 ∧ Q u (f s).1 (g s').1) :
    T.Abreast w E F (change f) (change g) Q := by
  intro v le m m' related home home'
  obtain ⟨u, later, store, results⟩ := h v le m.store m'.store related.store
  exact .ok later (related.mono later store) home home' results

inductive Settles (T : Tables) (v : World) (Q : World → α → β → Prop) :
    EStateM.Result Fault Store α → EStateM.Result Fault Store β → Prop where
  | ok {s s' : Store} {a : α} {b : β} (store : Mirrors T v s s') (results : Q v a b) :
      Settles T v Q (.ok a s) (.ok b s')
  | error {s s' : Store} (f : Fault) (store : Mirrors T v s s') :
      Settles T v Q (.error f s) (.error f s')

theorem abreastOnStore {x : Stored α} {y : Stored β}
    (h : ∀ v, w ≤ v → ∀ s s', Mirrors T v s s' → Settles T v Q (x s) (y s')) :
    T.Abreast w E F (onStore x) (onStore y) Q := by
  intro v le m m' related home home'
  have settled := h v le m.store m'.store related.store
  unfold onStore
  dsimp only
  generalize x m.store = r at settled
  generalize y m'.store = r' at settled
  cases settled with
  | ok store results => exact .ok le_rfl (related.mono le_rfl store) home home' results
  | error f store => exact .error le_rfl (related.mono le_rfl store) (.fault f)

theorem abreastModify {f g : Machine → Machine}
    (h : ∀ v, w ≤ v → ∀ m m', T.Related v m m' → m.env = E → m'.env = F →
      T.Related v (f m) (g m') ∧ (f m).env = E ∧ (g m').env = F) :
    T.Abreast w E F (modify f) (modify g) Done := by
  intro v le m m' related home home'
  obtain ⟨kept, stays, stays'⟩ := h v le m m' related home home'
  exact .ok le_rfl kept stays stays' trivial

theorem abreastReadClock : T.Abreast w E F readClock readClock fun _ a b => a = b := by
  intro v le m m' related home home'
  refine .ok le_rfl { related with now := ?_ } home home' ?_
  · exact congrArg Clock.ticked related.now
  · exact congrArg (fun c : Clock => c.reading 0) related.now

theorem Related.moved {m m' : Machine} (h : T.Related w m m') (E F : Env) :
    T.Related w { m with env := E } { m' with env := F } :=
  { h with }

theorem abreastWithin (h : T.Abreast w E' F' x y Q) :
    T.Abreast w E F (within E' x) (within F' y) Q := by
  intro v le m m' related home home'
  have ends := h v le _ _ (related.moved E' F') rfl rfl
  unfold within
  generalize x { m with env := E' } = r at ends
  generalize y { m' with env := F' } = r' at ends
  cases ends with
  | ok later related _ _ results => exact .ok later (related.moved _ _) home home' results
  | error later related signals => exact .error later (related.moved _ _) signals

theorem abreastWithinLeft (h : T.Abreast w E' F x y Q) :
    T.Abreast w E F (within E' x) y Q := by
  intro v le m m' related home home'
  have ends := h v le { m with env := E' } m' { related with } rfl home'
  unfold within
  generalize x { m with env := E' } = r at ends
  generalize y m' = r' at ends
  cases ends with
  | ok later related _ home' results => exact .ok later { related with } home home' results
  | error later related signals => exact .error later { related with } signals

theorem abreastWithinRight (h : T.Abreast w E F' x y Q) :
    T.Abreast w E F x (within F' y) Q := by
  intro v le m m' related home home'
  have ends := h v le m { m' with env := F' } { related with } home rfl
  unfold within
  generalize x m = r at ends
  generalize y { m' with env := F' } = r' at ends
  cases ends with
  | ok later related home _ results => exact .ok later { related with } home home' results
  | error later related signals => exact .error later { related with } signals

theorem abreastBody {x y : Eval Unit} {Q : World → Unit → Unit → Prop}
    (h : T.Abreast w E' F' x y Q) :
    T.Abreast w E F (returnedBy (within E' x)) (returnedBy (within F' y))
      fun v => Option.Rel (T.Alike v) := by
  intro v le m m' related home home'
  have ends := h v le _ _ (related.moved E' F') rfl rfl
  unfold returnedBy within
  generalize x { m with env := E' } = r at ends
  generalize y { m' with env := F' } = r' at ends
  cases ends with
  | ok later related _ _ _ => exact .ok later (related.moved _ _) home home' .none
  | error later related signals =>
    cases signals with
    | fault f => exact .error later (related.moved _ _) (.fault f)
    | returned value => exact .ok later (related.moved _ _) home home' (.some value)
    | outOfFuel => exact .error later (related.moved _ _) .outOfFuel

theorem abreastNamed (t : Option Token) :
    T.Abreast w E F (Eval.named t) (Eval.named t) fun _ a b => a = b :=
  abreastLiftSame _

theorem abreastLexeme (t : Option Token) :
    T.Abreast w E F (Eval.lexeme t) (Eval.lexeme t) fun _ a b => a = b :=
  abreastLiftSame _

theorem abreastFreshId :
    T.Abreast w E F (change Store.freshId) (change Store.freshId) fun _ a b => a = b :=
  abreastChange fun v _ _ _ store => ⟨v, le_rfl, store.freshId, store.nextId⟩

variable {π : Layout}

theorem abreastReadVariable (fits : w.Fits π E F) {a b : Nat} (uses : T.Uses π a b)
    (t : Option Token) : T.Abreast w E F (readVariable a t) (readVariable b t) T.Alike := by
  refine abreastGet fun v le m m' related _ _ => ?_
  rw [related.locals, related.locals']
  rcases relCases uses with ⟨left, right⟩ | ⟨d, e, left, right, meets⟩ <;> rw [left, right]
  · refine (abreastNamed t).bind fun u _ name name' same => ?_
    subst same
    exact abreastAsk fun _ _ _ _ store => store.read name
  · refine (abreastLexeme t).bind fun u next name name' same => ?_
    subst same
    refine abreastGet fun u' next' m m' _ home home' => ?_
    rw [home, home']
    refine abreastAsk fun u'' next'' s s' store => store.readAt ?_ meets name
    exact fits.mono (le.trans (next.trans (next'.trans next'')))

theorem abreastAssign (fits : w.Fits π E F) (name : Token) {a a' : Value}
    (value : T.Alike w a a') : T.Abreast w E' F' (onStore (Store.assign E name a))
      (onStore (Store.assign F name a')) Done := by
  refine abreastOnStore fun v le s s' store => ?_
  unfold Store.assign
  rcases relCases (store.holder (fits.mono le) name.lexeme) with
    ⟨left, right⟩ | ⟨f, g, left, right, here⟩ <;> rw [left, right]
  · exact .error _ store
  · exact .ok (store.define here name.lexeme (value.mono le)) trivial

theorem abreastWriteVariable (fits : w.Fits π E F) {a b : Nat} (uses : T.Uses π a b)
    (t : Option Token) {x x' : Value} (value : T.Alike w x x') :
    T.Abreast w E F (writeVariable a t x) (writeVariable b t x') Done := by
  refine abreastGet fun v le m m' _ home home' => ?_
  refine abreastGet fun v' le' m₁ m₁' related _ _ => ?_
  rw [home, home', related.locals, related.locals']
  have fits := fits.mono (le.trans le')
  have value := value.mono (le.trans le')
  rcases relCases uses with ⟨left, right⟩ | ⟨d, e, left, right, meets⟩ <;> rw [left, right]
  · refine (abreastNamed t).bind fun u next name name' same => ?_
    subst same
    exact abreastAssign (fits.mono next) name (value.mono next)
  · have frames : Concur (fun f g => ∀ u, v' ≤ u → u.partners f g) (Store.frameAt E d)
        (Store.frameAt F e) :=
      (Mirrors.frameAt (d := d) (e := e) fits meets).mono fun f g here u next => next.partners f g here
    refine (abreastLift (Q := fun u => u.partners) frames).bind fun u next f g here => ?_
    refine (abreastLexeme t).bind fun u' next' name name' same => ?_
    subst same
    refine abreastChange fun u'' next'' s s' store => ⟨u'', le_rfl, ?_, trivial⟩
    have later := next'.trans next''
    exact store.define (later.partners _ _ here) name (value.mono (next.trans later))

theorem abreastStamp (d : Datum) : T.Abreast w E F (stamp d) (stamp d) T.Alike := by
  unfold stamp
  split
  · split
    · refine abreastFreshId.bind fun v _ id id' same => abreastPure fun _ _ => ?_
      subst same
      exact .datum _
    · exact abreastPure fun _ _ => .datum _
  · exact abreastPure fun _ _ => .datum _

theorem abreastOpKind (op : Option Token) :
    T.Abreast w E F (opKind op) (opKind op) fun _ a b => a = b := by
  cases op with
  | none => exact abreastFail _
  | some t => exact abreastPure fun _ _ => rfl

theorem abreastStamped {x y : Eval Datum} (h : T.Abreast w E F x y fun _ a b => a = b) :
    T.Abreast w E F (do stamp (← x)) (do stamp (← y)) T.Alike := by
  refine h.bind fun _ _ d d' same => ?_
  subst same
  exact abreastStamp d

theorem abreastTold {x y : Eval Bool} (h : T.Abreast w E F x y fun _ a b => a = b)
    (f : Bool → Bool) :
    T.Abreast w E F (do return Value.bool (f (← x))) (do return Value.bool (f (← y))) T.Alike := by
  refine h.bind fun _ _ b b' same => abreastPure fun _ _ => ?_
  subst same
  exact .datum _

theorem abreastBinary (op : Option Token) {l l' r r' : Value} (left : T.Alike w l l')
    (right : T.Alike w r r') : T.Abreast w E F (binary op l r) (binary op l' r') T.Alike := by
  refine (abreastOpKind op).bind fun v le k k' same => ?_
  subst same
  have compared : ∀ c, T.Abreast v E F (lift (l.compare c r)) (lift (l'.compare c r'))
      fun _ a b => a = b := fun c => left.compare right c ▸ abreastLiftSame _
  have equal : T.Abreast v E F (ask fun s => l.equal s r) (ask fun s => l'.equal s r')
      fun _ a b => a = b :=
    abreastAsk fun u next s s' store =>
      equalSame store (left.mono (le.trans next)) (right.mono (le.trans next)) ▸ concurSame _
  have result : ∀ op, T.Abreast v E F (ask fun s => l.arithmetic s.memory op r)
      (ask fun s => l'.arithmetic s.memory op r') fun _ a b => a = b :=
    fun op => abreastAsk fun u next s s' store =>
      store.memory ▸ left.arithmetic right s.memory op ▸ concurSame _
  split
  · exact abreastStamped (result .add)
  · exact abreastStamped (result .sub)
  · exact abreastStamped (result .mul)
  · exact abreastStamped (result .div)
  · exact abreastTold (compared .greater) fun b => b
  · exact abreastTold (compared .greaterEqual) fun b => b
  · exact abreastTold (compared .less) fun b => b
  · exact abreastTold (compared .lessEqual) fun b => b
  · exact abreastTold equal fun b => b
  · exact abreastTold equal fun b => !b
  · exact abreastPure fun _ _ => .datum .nil

theorem abreastUnary (op : Option Token) {a a' : Value} (value : T.Alike w a a') :
    T.Abreast w E F (unary op a) (unary op a') T.Alike := by
  refine (abreastOpKind op).bind fun v le k k' same => ?_
  subst same
  split
  · exact abreastStamped (value.negate ▸ abreastLiftSame _)
  · exact abreastStamped (value.complement ▸ abreastLiftSame _)
  · exact abreastPure fun _ _ => .datum .nil

theorem abreastTruth {a a' : Value} (value : T.Alike w a a') :
    T.Abreast w E F (lift a.truth) (lift a'.truth) fun _ b b' => b = b' :=
  value.truth ▸ abreastLiftSame _

theorem abreastDecides (op : Option Token) {a a' : Value} (value : T.Alike w a a') :
    T.Abreast w E F (decides op a) (decides op a') fun _ b b' => b = b' := by
  refine (abreastOpKind op).bind fun v le k k' same => ?_
  subst same
  split
  · exact abreastTruth (value.mono le)
  · refine (abreastTruth (value.mono le)).bind fun _ _ b b' same => abreastPure fun _ _ => ?_
    rw [same]
  · exact abreastPure fun _ _ => rfl

theorem abreastEmit {a a' : Value} (value : T.Alike w a a') :
    T.Abreast w E F (emit a) (emit a') Done := by
  refine abreastGet fun v le m m' related _ _ => ?_
  rw [related.live]
  split
  · refine Abreast.bind (Q := fun _ a b => a = b) (abreastAsk fun u next s s' store =>
      shownSame store (value.mono (le.trans next)) ▸ concurSame _) fun u next text text' same => ?_
    subst same
    exact abreastModify fun _ _ m m' related home home' =>
      ⟨{ related with console := congrArg (Array.push · (text ++ "\n")) related.console },
        home, home'⟩
  · refine abreastModify fun u next m m' related home home' =>
      ⟨{ related with printed := ?_ }, home, home'⟩
    obtain ⟨new, new', left, right, each⟩ := related.printed
    refine ⟨new ++ [a], new' ++ [a'], ?_, ?_, ?_⟩
    · rw [Array.toList_push, left, List.append_assoc]
    · rw [Array.toList_push, right, List.append_assoc]
    · exact List.rel_append each (.cons (value.mono (le.trans next)) .nil)

theorem abreastDefineHere (fits : w.Fits π E F) (isOpen : π.Open) (name : String) {a a' : Value}
    (value : T.Alike w a a') : T.Abreast w E F (defineHere name a) (defineHere name a') Done := by
  refine abreastModify fun v le m m' related home home' =>
    ⟨{ related with store := ?_ }, home, home'⟩
  rw [home, home']
  exact related.store.defineIn (fits.mono le) isOpen name (value.mono le)

theorem abreastFunctionValue {r r' : Routine} (routine : T.Callable w r r') :
    T.Abreast w E F (functionValue r) (functionValue r') T.Alike := by
  obtain ⟨ρ, -, twin, -⟩ := routine.closed
  unfold functionValue
  rw [twin.nameSame]
  refine (abreastLexeme _).bind fun v le name name' same => ?_
  subst same
  refine abreastFreshId.bind fun v' le' id id' same => ?_
  subst same
  exact abreastPure fun _ next => .function id name (routine.mono (le.trans (le'.trans next)))

theorem abreastEnter (fits : w.Fits π E' F') {b b' : Bindings Value}
    (values : Bindings.Alike (T.Alike w) b b') :
    T.Abreast w E F (change fun s => s.enter E' b) (change fun s => s.enter F' b')
      fun v => v.Fits (.both :: π) := by
  refine abreastChange fun v le s s' store => ?_
  have later := v.leJoin s.frames.size s'.frames.size
  exact ⟨_, later, store.enterBoth E' F' (values.mono fun _ _ one => one.mono le),
    .both (.inr ⟨rfl, rfl⟩) (fits.mono (le.trans later))⟩

theorem abreastBindRoutine {r r' : Routine} (method : T.Bindable w r r') {this this' : Value}
    (value : T.Alike w this this') :
    T.Abreast w E F (bindRoutine r this) (bindRoutine r' this') T.Callable := by
  obtain ⟨ρ, fits, twin⟩ := method.closed
  refine (abreastEnter fits (.one value "this")).bind fun v _ env env' bound => ?_
  exact abreastPure fun _ next =>
    ⟨⟨_, bound.mono next, twin, fun _ => .here⟩, method.isInitializer⟩

theorem abreastBind {r r' : Routine} (method : T.Bindable w r r') {this this' : Value}
    (value : T.Alike w this this') :
    T.Abreast w E F (Eval.bind r this) (Eval.bind r' this') T.Alike :=
  (abreastBindRoutine method value).bind fun _ _ _ _ bound => abreastFunctionValue bound

theorem abreastProperty {a a' : Value} (value : T.Alike w a a') (id : Nat) {c c' : Class}
    (layers : T.Classes w c c') (name : Token) :
    T.Abreast w E F (property a id c name) (property a' id c' name) T.Alike := by
  refine abreastGet fun v le m m' related _ _ => ?_
  rcases relCases (related.store.fields id name.lexeme) with
    ⟨left, right⟩ | ⟨x, x', left, right, field⟩ <;> rw [left, right]
  · dsimp only
    rcases relCases (layers.found name.lexeme) with
      ⟨left, right⟩ | ⟨r, r', left, right, method⟩ <;> rw [left, right]
    · exact abreastFail _
    · exact abreastBind (method.mono le) (value.mono le)
  · exact abreastPure fun _ next => field.mono next

theorem abreastArrayMember (id : Nat) (name : Token) :
    T.Abreast w E F (onStore (Store.arrayMember id name)) (onStore (Store.arrayMember id name))
      T.Alike := by
  refine abreastOnStore fun v _ s s' store => ?_
  unfold Store.arrayMember
  split
  · exact .ok store.freshId (store.nextId ▸ .accessor _ _ _)
  · exact .ok store.freshId (store.nextId ▸ .accessor _ _ _)
  · refine .ok store ?_
    rw [show (s.elements id).size = _ from (store.arrays id).length_eq]
    exact .datum _
  · exact .error _ store

theorem abreastGetProperty {a a' : Value} (value : T.Alike w a a') (t : Option Token) :
    T.Abreast w E F (getProperty a t) (getProperty a' t) T.Alike := by
  cases value with
  | instance_ id layers =>
    refine (abreastNamed t).bind fun v le name name' same => ?_
    subst same
    exact abreastProperty (.instance_ id (layers.mono le)) id (layers.mono le) name
  | array id =>
    refine (abreastNamed t).bind fun v le name name' same => ?_
    subst same
    exact abreastArrayMember id name
  | _ => exact abreastFail _

theorem abreastCheckSettable {a a' : Value} (value : T.Alike w a a') (t : Option Token) :
    T.Abreast w E F (checkSettable a t) (checkSettable a' t) Done := by
  cases value with
  | instance_ => exact abreastPure fun _ _ => trivial
  | array => exact abreastPure fun _ _ => trivial
  | _ => exact abreastFail _

theorem abreastSetProperty {a a' : Value} (object : T.Alike w a a') (t : Option Token)
    {x x' : Value} (value : T.Alike w x x') :
    T.Abreast w E F (setProperty a t x) (setProperty a' t x') Done := by
  cases object with
  | instance_ id layers =>
    refine (abreastLexeme t).bind fun v le name name' same => ?_
    subst same
    exact abreastChange fun u next s s' store =>
      ⟨u, le_rfl, store.setField id name (value.mono (le.trans next)), trivial⟩
  | array => exact abreastFail _
  | _ => exact abreastFail _

theorem abreastSuperMethod (fits : w.Fits π E F) {a b : Nat} (uses : T.UsesSuper π a b)
    (t : Option Token) : T.Abreast w E F (superMethod a t) (superMethod b t) T.Alike := by
  refine abreastGet fun v le m m' _ home home' => ?_
  refine abreastGet fun v' le' m₁ m₁' related _ _ => ?_
  rw [home, home', related.locals, related.locals']
  rcases relCases uses with ⟨left, right⟩ | ⟨d, e, left, right, meets, closer⟩ <;> rw [left, right]
  · exact abreastFail _
  · have fits := fits.mono (le.trans le')
    have closer : π.Meets ((d : Int) - 1).toNat ((e : Int) - 1).toNat := by
      rwa [show ((d : Int) - 1).toNat = d - 1 by omega, show ((e : Int) - 1).toNat = e - 1 by omega]
    refine Abreast.bind (Q := T.Alike) (abreastAsk fun u next _ _ store =>
      store.readAt (d := d) (e := e) (fits.mono next) meets "super") fun u next base base' class' => ?_
    refine Abreast.bind (Q := T.Alike) (abreastAsk fun u' next' _ _ store =>
      store.readAt (fits.mono (next.trans next')) closer "this") fun u' next' this this' value => ?_
    have class' := class'.mono next'
    cases class' with
    | @class_ c c' layers =>
      refine (abreastNamed t).bind fun u'' next'' name name' same => ?_
      subst same
      rcases relCases (layers.found name.lexeme) with
        ⟨left, right⟩ | ⟨r, r', left, right, method⟩ <;> rw [left, right]
      · exact abreastFail _
      · exact abreastBind (method.mono next'') (value.mono next'')
    | _ => exact abreastFail _

theorem classEnvSame {s s' : Store} (store : Mirrors T w s s') (fits : w.Fits π E F)
    {base base' : Option Class} (layers : Option.Rel (T.Classes w) base base') :
    ∃ v, w ≤ v ∧ Mirrors T v (classEnv s E base).2 (classEnv s' F base').2 ∧
      v.Fits (if base.isSome then .both :: π else π) (classEnv s E base).1
        (classEnv s' F base').1 := by
  cases layers with
  | none => exact ⟨w, le_rfl, store, fits⟩
  | some found =>
    have later := w.leJoin s.frames.size s'.frames.size
    exact ⟨_, later, store.enterBoth E F (.one (.class_ found) "super"),
      .both (.inr ⟨rfl, rfl⟩) (fits.mono later)⟩

theorem layersSame (id : Nat) (name : String) {table table' : Bindings Routine}
    (methods : Bindings.Alike (T.Bindable w) table table') {base base' : Option Class}
    (layers : Option.Rel (T.Classes w) base base') :
    T.Classes w ⟨⟨id, name, table⟩, (base.map Class.layers).getD []⟩
      ⟨⟨id, name, table'⟩, (base'.map Class.layers).getD []⟩ := by
  refine .cons ⟨rfl, rfl, methods⟩ ?_
  cases layers with
  | none => exact .nil
  | some found => exact found

theorem abreastDeclareClass (fits : w.Fits π E F) (isOpen : π.Open) (t : Option Token)
    {base base' : Option Class} (layers : Option.Rel (T.Classes w) base base')
    {fs fs' : List FunDecl}
    (twins : FunDecl.Twins T (.both :: if base.isSome then .both :: π else π) fs fs') :
    T.Abreast w E F (declareClass t fs base) (declareClass t fs' base') Done := by
  cases t with
  | none => exact abreastFail _
  | some u =>
    intro v le m m' related home home'
    subst home home'
    rw [declareClassRun, declareClassRun]
    have fits := fits.mono le
    have bound := related.store.defineIn fits isOpen u.lexeme (.datum .nil)
    have based : Option.Rel (T.Classes v) base base' := relMono layers fun _ _ one => one.mono le
    obtain ⟨v', le', store, place⟩ := classEnvSame bound fits based
    have methods := methodsSame place twins .none
    generalize classEnv (m.store.defineIn m.env u.lexeme .nil) m.env base = inner at store methods
    generalize classEnv (m'.store.defineIn m'.env u.lexeme .nil) m'.env base' = inner' at store methods
    dsimp only
    generalize methodTable inner.1 fs [] = r at methods
    generalize methodTable inner'.1 fs' [] = r' at methods
    cases methods with
    | error f => exact .error le' { related.mono le' store with } (.fault f)
    | ok table =>
      have based : Option.Rel (T.Classes v') base base' :=
        relMono based fun _ _ one => one.mono le'
      have layers := layersSame inner.2.nextId u.lexeme table based
      rw [store.nextId] at layers
      have assigned : T.Abreast v' m.env m'.env _ _ Done :=
        abreastAssign (fits.mono le') u (.class_ layers)
      dsimp only
      rw [store.nextId]
      exact (assigned v' le_rfl _ _ (related.mono le' store.freshId) rfl rfl).sooner le'

structure RunsAbreast (T : Tables) (n : Nat) : Prop where
  evaluate : ∀ {w π E F e e'}, w.Fits π E F → e.Twin T π e' →
    T.Abreast w E F (evaluate n e) (evaluate n e') T.Alike
  evaluateAll : ∀ {w π E F es es'}, w.Fits π E F → Expr.Twins T π es es' →
    T.Abreast w E F (evaluateAll n es) (evaluateAll n es') fun v => List.Forall₂ (T.Alike v)
  call : ∀ {w E F f f' args args'}, T.Alike w f f' → List.Forall₂ (T.Alike w) args args' →
    T.Abreast w E F (call n f args) (call n f' args') T.Alike
  callRoutine : ∀ {w E F r r' args args'}, T.Callable w r r' →
    List.Forall₂ (T.Alike w) args args' →
    T.Abreast w E F (callRoutine n r args) (callRoutine n r' args') T.Alike
  execute : ∀ {w π E F s s'}, w.Fits π E F → s.Twin T π s' →
    T.Abreast w E F (execute n s) (execute n s') Done
  executeAll : ∀ {w π E F ss ss'}, w.Fits π E F → Stmt.Twins T π ss ss' →
    T.Abreast w E F (executeAll n ss) (executeAll n ss') Done
  loop : ∀ {w π E F cond cond' body body'}, w.Fits π E F → cond.Twin T π cond' →
    body.Twin T π body' → T.Abreast w E F (loop n cond body) (loop n cond' body') Done
  superclass : ∀ {w π E F e e'}, w.Fits π E F → e.Twin T π e' →
    T.Abreast w E F (superclass n e) (superclass n e') T.Classes

theorem runsAbreastZero : RunsAbreast T 0 where
  evaluate _ _ := abreastOutOfFuel
  evaluateAll _ _ := abreastOutOfFuel
  call _ _ := abreastOutOfFuel
  callRoutine _ _ := abreastOutOfFuel
  execute _ _ := abreastOutOfFuel
  executeAll _ _ := abreastOutOfFuel
  loop _ _ _ := abreastOutOfFuel
  superclass _ _ := abreastOutOfFuel

section

variable {n : Nat} (runs : RunsAbreast T n)

include runs

theorem abreastEvaluate (fits : w.Fits π E F) {e e' : Expr} (twin : e.Twin T π e') :
    T.Abreast w E F (evaluate (n + 1) e) (evaluate (n + 1) e') T.Alike := by
  cases twin with
  | missing => exact abreastFail _
  | literal d => exact abreastPure fun _ _ => .datum d
  | reference uses name => exact abreastReadVariable fits uses name
  | this uses keyword => exact abreastReadVariable fits uses keyword
  | super uses keyword method => exact abreastSuperMethod fits uses method
  | assign uses name value =>
    refine (runs.evaluate fits value).bind fun v le x x' alike => ?_
    refine (abreastWriteVariable (fits.mono le) uses name alike).bind fun v' le' _ _ _ => ?_
    exact abreastPure fun _ next => alike.mono (le'.trans next)
  | unary op right =>
    exact (runs.evaluate fits right).bind fun _ _ _ _ alike => abreastUnary op alike
  | binary op left right =>
    refine (runs.evaluate fits left).bind fun v le l l' first => ?_
    exact (runs.evaluate (fits.mono le) right).bind fun v' le' r r' second =>
      abreastBinary op (first.mono le') second
  | logical op left right =>
    refine (runs.evaluate fits left).bind fun v le l l' first => ?_
    refine (abreastDecides op first).bind fun v' le' b b' same => ?_
    subst same
    split
    · exact abreastPure fun _ next => first.mono (le'.trans next)
    · exact runs.evaluate (fits.mono (le.trans le')) right
  | grouping inner => exact runs.evaluate fits inner
  | call paren callee args =>
    refine (runs.evaluate fits callee).bind fun v le f f' function => ?_
    refine (runs.evaluateAll (fits.mono le) args).bind fun v' le' vs vs' values => ?_
    rw [function.arity, function.typeName, values.length_eq]
    split
    · exact abreastFail _
    · split
      · exact runs.call (function.mono le') values
      · exact abreastFail _
  | get name object =>
    exact (runs.evaluate fits object).bind fun _ _ _ _ alike => abreastGetProperty alike name
  | set name object value =>
    refine (runs.evaluate fits object).bind fun v le o o' first => ?_
    refine (abreastCheckSettable first name).bind fun v' le' _ _ _ => ?_
    refine (runs.evaluate (fits.mono (le.trans le')) value).bind fun u next x x' second => ?_
    refine (abreastSetProperty (first.mono (le'.trans next)) name second).bind
      fun u' next' _ _ _ => ?_
    exact abreastPure fun _ next'' => second.mono (next'.trans next'')

theorem abreastEvaluateAll (fits : w.Fits π E F) {es es' : List Expr}
    (twins : Expr.Twins T π es es') :
    T.Abreast w E F (evaluateAll (n + 1) es) (evaluateAll (n + 1) es')
      fun v => List.Forall₂ (T.Alike v) := by
  cases twins with
  | nil => exact abreastPure fun _ _ => .nil
  | cons first rest =>
    refine (runs.evaluate fits first).bind fun v le x x' head => ?_
    refine (runs.evaluateAll (fits.mono le) rest).bind fun v' le' xs xs' tail => ?_
    exact abreastPure fun _ next => .cons (head.mono (le'.trans next))
      (tail.imp fun _ _ one => one.mono next)

theorem abreastConstruct {c c' : Class} (layers : T.Classes w c c') {args args' : List Value}
    (values : List.Forall₂ (T.Alike w) args args') :
    T.Abreast w E F (call (n + 1) (.class_ c) args) (call (n + 1) (.class_ c') args') T.Alike := by
  refine Abreast.bind (Q := T.Alike) (abreastChange fun v le s s' store =>
    ⟨v, le_rfl, store.newInstance c c', ?_⟩) fun v le this this' alike => ?_
  · show T.Alike v (.instance_ s.fields.size c) (.instance_ s'.fields.size c')
    rw [store.fieldCount]
    exact .instance_ _ (layers.mono le)
  · rcases relCases (layers.found Class.initializer) with
      ⟨left, right⟩ | ⟨r, r', left, right, method⟩ <;> rw [left, right]
    · exact abreastPure fun _ next => alike.mono next
    · refine (abreastBindRoutine (method.mono le) alike).bind fun v' le' r r' bound => ?_
      refine (runs.callRoutine bound (values.imp fun _ _ one => one.mono (le.trans le'))).bind
        fun u next _ _ _ => ?_
      exact abreastPure fun _ next' => alike.mono (le'.trans (next.trans next'))

theorem abreastCall {f f' : Value} (function : T.Alike w f f') {args args' : List Value}
    (values : List.Forall₂ (T.Alike w) args args') :
    T.Abreast w E F (call (n + 1) f args) (call (n + 1) f' args') T.Alike := by
  cases function with
  | function id name routine => exact runs.callRoutine routine values
  | class_ layers => exact abreastConstruct runs layers values
  | accessor id which array =>
    cases which with
    | read =>
      cases values with
      | nil => exact abreastFail _
      | cons index _ =>
        exact abreastAsk fun v le s s' store => readCellSame store array (index.mono le)
    | write =>
      cases values with
      | nil => exact abreastFail _
      | cons index rest =>
        cases rest with
        | nil => exact abreastFail _
        | cons value _ =>
          refine Abreast.bind (Q := Done) (abreastOnStore fun v le s s' store => ?_)
            fun v le _ _ _ => abreastPure fun _ next => value.mono (le.trans next)
          unfold Store.writeCell
          rw [cellSame store array (index.mono le)]
          split
          · exact .ok (store.setElement array _ (value.mono le)) trivial
          · exact .error _ store
  | clock =>
    refine abreastReadClock.bind fun v le x x' same => ?_
    subst same
    exact abreastStamp _
  | arrayMaker =>
    cases values with
    | nil => exact abreastFail _
    | cons size _ =>
      refine abreastOnStore fun v le s s' store => ?_
      unfold Store.makeArray
      rw [size.toInteger, store.memory]
      split
      · refine .ok (store.newArray _) ?_
        show T.Alike v (.array s.arrays.size) (.array s'.arrays.size)
        rw [store.arrayCount]
        exact .array _
      · exact .error _ store
  | _ => exact abreastFail _

theorem abreastCallRoutine {r r' : Routine} (routine : T.Callable w r r') {args args' : List Value}
    (values : List.Forall₂ (T.Alike w) args args') :
    T.Abreast w E F (callRoutine (n + 1) r args) (callRoutine (n + 1) r' args') T.Alike := by
  obtain ⟨π, fits, twin, own⟩ := routine.closed
  unfold Eval.callRoutine
  rw [← twin.paramsSame, ← routine.isInitializer]
  have bound := (parametersSame r.decl.params values .none).mono
    fun b b' alike v (le : w ≤ v) => Bindings.Alike.mono alike fun _ _ one => one.mono le
  refine (abreastLift (Q := fun v => Bindings.Alike (T.Alike v)) bound).bind
    fun v le b b' bindings => ?_
  refine (abreastEnter (fits.mono le) bindings).bind fun v' le' env env' inner => ?_
  refine (abreastBody (runs.executeAll inner twin.bodies)).bind fun u next o o' returned => ?_
  cases returned with
  | none => exact abreastPure fun _ _ => .datum .nil
  | some value =>
    dsimp only
    split
    · next initializer =>
      have fits := fits.mono (le.trans (le'.trans next))
      exact abreastAsk fun _ next' _ _ store =>
        store.readAt (fits.mono next') (d := 0) (e := 0) (own initializer) "this"
    · exact abreastPure fun _ next' => value.mono next'

theorem abreastExecute (fits : w.Fits π E F) {s s' : Stmt} (twin : s.Twin T π s') :
    T.Abreast w E F (execute (n + 1) s) (execute (n + 1) s') Done := by
  cases twin with
  | missing => exact abreastFail _
  | expression inner =>
    exact (runs.evaluate fits inner).bind fun _ _ _ _ _ => abreastPure fun _ _ => trivial
  | print inner => exact (runs.evaluate fits inner).bind fun _ _ _ _ alike => abreastEmit alike
  | @var π e e' isOpen name init =>
    have body : ∀ v, w ≤ v → ∀ x x', T.Alike v x x' →
        T.Abreast v E F (do defineHere (← Eval.lexeme name) x)
          (do defineHere (← Eval.lexeme name) x') Done := by
      intro v le x x' alike
      refine (abreastLexeme name).bind fun u next text text' same => ?_
      subst same
      exact abreastDefineHere (fits.mono (le.trans next)) isOpen text (alike.mono next)
    unfold Eval.execute
    dsimp only
    rw [init.missingSame]
    split
    · exact body w le_rfl _ _ (.datum .nil)
    · exact (runs.evaluate fits init).bind body
  | block body =>
    refine abreastGet fun v le m m' _ home home' => ?_
    rw [home, home']
    refine (abreastEnter (fits.mono le) .none).bind fun v' le' env env' inner => ?_
    exact abreastWithin (runs.executeAll inner body)
  | if_ cond yes no =>
    refine (runs.evaluate fits cond).bind fun v le x x' alike => ?_
    refine (abreastTruth alike).bind fun v' le' b b' same => ?_
    subst same
    rw [no.missingSame]
    have fits := fits.mono (le.trans le')
    split
    · exact runs.execute fits yes
    · split
      · exact runs.execute fits no
      · exact abreastPure fun _ _ => trivial
  | while_ cond body => exact runs.loop fits cond body
  | @function π f f' isOpen decl =>
    refine abreastGet fun v le m m' _ home home' => ?_
    rw [home, home', decl.nameSame]
    have fits := fits.mono le
    have routine : T.Callable v ⟨f, E, false⟩ ⟨f', F, false⟩ :=
      ⟨⟨π, fits, decl, nofun⟩, rfl⟩
    refine (abreastFunctionValue routine).bind fun v' le' x x' alike => ?_
    refine (abreastLexeme _).bind fun u next text text' same => ?_
    subst same
    exact abreastDefineHere (fits.mono (le'.trans next)) isOpen text (alike.mono next)
  | return_ keyword value =>
    unfold Eval.execute
    dsimp only
    rw [value.missingSame]
    split
    · exact abreastReturn (.datum .nil)
    · exact (runs.evaluate fits value).bind fun _ _ _ _ alike => abreastReturn alike
  | @class_ π fs fs' e e' isOpen name methods base =>
    unfold Eval.execute
    dsimp only
    unfold Layout.inClass at methods
    rw [base.missingSame]
    split
    · next absent =>
      rw [if_pos absent] at methods
      exact abreastDeclareClass fits isOpen name .none methods
    · next given =>
      rw [if_neg given] at methods
      have found : T.Abreast w E F (some <$> superclass n e) (some <$> superclass n e')
          fun v o o' => ∃ c c', o = some c ∧ o' = some c' ∧ T.Classes v c c' :=
        (runs.superclass fits base).bind fun _ _ c c' layers => abreastPure fun _ next =>
          ⟨c, c', rfl, rfl, layers.mono next⟩
      refine found.bind fun v le o o' ⟨c, c', isClass, isClass', layers⟩ => ?_
      subst isClass isClass'
      exact abreastDeclareClass (fits.mono le) isOpen name (.some layers) methods

theorem abreastInOrder (fits : w.Fits π E F) {ss ss' : List Stmt} (twins : Stmt.Twins T π ss ss') :
    T.Abreast w E F (inOrder (execute n) ss) (inOrder (execute n) ss') Done := by
  induction ss generalizing w ss' with
  | nil =>
    cases twins
    exact abreastPure fun _ _ => trivial
  | cons s ss ih =>
    cases twins with
    | cons first rest =>
      exact (runs.execute fits first).bind fun _ le _ _ _ => ih (fits.mono le) rest

theorem abreastLoop (fits : w.Fits π E F) {cond cond' : Expr} {body body' : Stmt}
    (test : cond.Twin T π cond') (twin : body.Twin T π body') :
    T.Abreast w E F (loop (n + 1) cond body) (loop (n + 1) cond' body') Done := by
  refine (runs.evaluate fits test).bind fun v le x x' alike => ?_
  refine (abreastTruth alike).bind fun v' le' b b' same => ?_
  subst same
  have fits := fits.mono (le.trans le')
  split
  · exact (runs.execute fits twin).bind fun _ next _ _ _ => runs.loop (fits.mono next) test twin
  · exact abreastPure fun _ _ => trivial

theorem abreastSuperclass (fits : w.Fits π E F) {e e' : Expr} (twin : e.Twin T π e') :
    T.Abreast w E F (superclass (n + 1) e) (superclass (n + 1) e') T.Classes := by
  refine (runs.evaluate fits twin).bind fun v le x x' alike => ?_
  cases alike with
  | class_ layers => exact abreastPure fun _ next => layers.mono next
  | _ => exact abreastFail _

end

theorem runsAbreast (T : Tables) (n : Nat) : RunsAbreast T n := by
  induction n with
  | zero => exact runsAbreastZero
  | succ n ih =>
    exact {
      evaluate := fun fits twin => abreastEvaluate ih fits twin
      evaluateAll := fun fits twins => abreastEvaluateAll ih fits twins
      call := fun function values => abreastCall ih function values
      callRoutine := fun routine values => abreastCallRoutine ih routine values
      execute := fun fits twin => abreastExecute ih fits twin
      executeAll := fun fits twins => abreastInOrder ih fits twins
      loop := fun fits test twin => abreastLoop ih fits test twin
      superclass := fun fits twin => abreastSuperclass ih fits twin }

end Tables
end Lox
