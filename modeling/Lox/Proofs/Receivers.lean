import Lox.Proofs.Dispatch

/-!
The receiver of a method. A method that was taken from an instance keeps it: in every call of it, and
in every call of a function that was declared in one, `this` is that instance.
-/

namespace Lox

open Eval

def Task.isCode : Task → Bool
  | .call .. | .routine .. => false
  | _ => true

/- What belongs to the calls of a routine: its body, the parts of what belongs to it, and the bodies
of the functions that are declared in it, whenever these are called. A class that is declared in it
has receivers of its own. -/
inductive DuringCall (S : Start) (r : Routine) : Nat → Task → Machine → Prop where
  | body {n args m b} (called : S.Reaches (n + 1) (.routine r args) m)
      (bound : bindParameters r.decl.params args [] = .ok b) :
      DuringCall S r n (.stmts r.decl.body) (m.entering r.closure b)
  | step {n t m t' m'} (before : DuringCall S r (n + 1) t m) (next : Calls n t m t' m')
      (code : t'.isCode = true) : DuringCall S r n t' m'
  | later {n s ss m m'} (before : DuringCall S r (n + 1) (.stmts (s :: ss)) m)
      (first : execute n s m = .ok () m') : DuringCall S r (n + 1) (.stmts ss) m'
  | nested {k f m n args m' b} (declared : DuringCall S r (k + 1) (.stmt (.function f)) m)
      (called : S.Reaches (n + 1) (.routine ⟨f, m.env, false⟩ args) m')
      (bound : bindParameters f.params args [] = .ok b) :
      DuringCall S r n (.stmts f.body) (m'.entering m.env b)

variable {S : Start} {r : Routine} {n : Nat} {t t' : Task} {m m' : Machine}

theorem DuringCall.reached (h : DuringCall S r n t m) : S.Reaches n t m := by
  induction h with
  | body called bound => exact .step called (.body bound)
  | step _ next _ ih => exact .step ih next
  | later _ first ih => exact .later ih first
  | nested _ called bound _ => exact .step called (.body bound)

def Task.StandsAt (body : List Stmt) (c : Context) : Task → Prop
  | .expr e | .superclass e => Stands body c (.expr e)
  | .exprs es => Stands body c (.exprs es)
  | .stmt s => Stands body c (.stmt s)
  | .stmts ss => Stands body c (.stmts ss)
  | .loop cond s => Stands body c (.stmt (.while_ cond s))
  | .call .. | .routine .. => False

structure Beneath (S : Start) (sites : List Site) (env : Env) (c : Context) (inner : List Site)
    (t : Task) (m : Machine) : Prop where
  stands : t.StandsAt S.body c
  sites : c.sites = inner ++ sites
  nested : ∀ σ ∈ inner, σ.isOpen = true
  frames : m.env.drop inner.length = env

section

variable {sites : List Site} {env : Env} {c c' : Context} {inner : List Site}

theorem Beneath.into (h : Beneath S sites env c inner t m) (stands : t'.StandsAt S.body c')
    (same : c'.sites = c.sites) (home : m'.env = m.env) :
    ∃ c inner, Beneath S sites env c inner t' m' :=
  ⟨c', inner, stands, same.trans h.sites, h.nested, by rw [home]; exact h.frames⟩

theorem Beneath.enter (h : Beneath S sites env c inner t m) {σ : Site} {f : FrameId}
    (stands : t'.StandsAt S.body c') (scope : c'.sites = σ :: c.sites) (isOpen : σ.isOpen = true)
    (frame : m'.env = f :: m.env) : ∃ c inner, Beneath S sites env c inner t' m' := by
  refine ⟨c', σ :: inner, stands, ?_, List.forall_mem_cons.mpr ⟨isOpen, h.nested⟩, ?_⟩
  · rw [scope, h.sites, List.cons_append]
  · rw [frame]
    exact h.frames

end

namespace Start

section

variable (chart : Charted S.machine.locals S.body) (first : S.Sits (.stmts S.body) S.machine)
  {sites : List Site} {env : Env}

include chart first

theorem beneathNext (reach : S.Reaches (n + 1) t m) (h : ∃ c inner, Beneath S sites env c inner t m)
    (next : Calls n t m t' m') (code : t'.isCode = true) :
    ∃ c inner, Beneath S sites env c inner t' m' := by
  obtain ⟨c, inner, h⟩ := h
  have sound := sound chart n
  have sits : ∀ {t' m'}, Calls n t m t' m' → S.Sits t' m' :=
    fun next => Start.sits chart first (.step reach next)
  -- an expression of the task that is evaluated first
  have evaluated : ∀ {e v m₁}, Calls n t m (.expr e) m → evaluate n e m = .ok v m₁ → S.Done m m₁ :=
    fun call run => ((sound.expr _ m (.step reach call) (sits call)).ok run).1
  cases next with
  | assigned => exact h.into (Stands.assigned h.stands) rfl rfl
  | operand => exact h.into (Stands.operand h.stands) rfl rfl
  | binaryLeft => exact h.into (Stands.binaryLeft h.stands) rfl rfl
  | binaryRight run =>
    exact h.into (Stands.binaryRight h.stands) rfl (evaluated .binaryLeft run).env
  | logicalLeft => exact h.into (Stands.logicalLeft h.stands) rfl rfl
  | logicalRight run undecided =>
    have done := evaluated .logicalLeft run
    have later := ((goodDecides done.ok _ _).ok undecided).1
    exact h.into (Stands.logicalRight h.stands) rfl (later.env.trans done.env)
  | inner => exact h.into (Stands.inner h.stands) rfl rfl
  | callee => exact h.into (Stands.callee h.stands) rfl rfl
  | arguments run => exact h.into (Stands.arguments h.stands) rfl (evaluated .callee run).env
  | called | function | construct => cases code
  | getObject => exact h.into (Stands.getObject h.stands) rfl rfl
  | setObject => exact h.into (Stands.setObject h.stands) rfl rfl
  | setValue run settable =>
    have done := evaluated .setObject run
    have later := ((goodCheckSettable done.ok _ _).ok settable).1
    exact h.into (Stands.setValue h.stands) rfl (later.env.trans done.env)
  | firstExpr => exact h.into (Stands.firstExpr h.stands) rfl rfl
  | laterExprs run => exact h.into (Stands.laterExprs h.stands) rfl (evaluated .firstExpr run).env
  | body => exact h.stands.elim
  | expression => exact h.into (Stands.expression h.stands) rfl rfl
  | printed => exact h.into (Stands.printed h.stands) rfl rfl
  | initializer given =>
    exact h.into (Stands.initializer h.stands given) (c.sitesDeclare _ _) rfl
  | block => exact h.enter (Stands.block h.stands) rfl rfl rfl
  | ifCond => exact h.into (Stands.ifCond h.stands) rfl rfl
  | yes run => exact h.into (Stands.yes h.stands) rfl (evaluated .ifCond run).env
  | no run _ given => exact h.into (Stands.no h.stands given) rfl (evaluated .ifCond run).env
  | loop | superclass => exact h.into h.stands rfl rfl
  | returned given => exact h.into (Stands.returned h.stands given) rfl rfl
  | base given => exact h.into (Stands.superclass h.stands given) rfl rfl
  | firstStmt => exact h.into (Stands.first h.stands) rfl rfl
  | loopCond => exact h.into (Stands.whileCond h.stands) rfl rfl
  | loopBody run => exact h.into (Stands.whileBody h.stands) rfl (evaluated .loopCond run).env
  | loopAgain run holds again =>
    have done := evaluated .loopCond run
    have later := ((sound.stmt _ _ (.step reach (.loopBody run holds))
      (sits (.loopBody run holds))).ok again).1
    exact h.into h.stands rfl (later.env.trans done.env)

theorem beneathLater {s : Stmt} {ss : List Stmt} (reach : S.Reaches (n + 1) (.stmts (s :: ss)) m)
    (h : ∃ c inner, Beneath S sites env c inner (.stmts (s :: ss)) m)
    (run : execute n s m = .ok () m') :
    ∃ c inner, Beneath S sites env c inner (.stmts ss) m' := by
  obtain ⟨c, inner, h⟩ := h
  have reach := Lox.Reaches.step reach .firstStmt
  have done := (((sound chart n).stmt s m reach (sits chart first reach)).ok run).1
  exact h.into (Stands.later h.stands) (c.sitesAfter s) done.env

theorem beneathCall {c : Context} {kind : FunctionKind}
    (stands : Stands S.body c (.function r.decl kind)) (during : DuringCall S r n t m) :
    ∃ c' inner, Beneath S c.sites r.closure c' inner t m := by
  induction during with
  | body called bound => exact ⟨_, [.call r.decl], stands.body, rfl, by simp [Site.isOpen], rfl⟩
  | step before next code ih => exact beneathNext chart first before.reached ih next code
  | later before run ih => exact beneathLater chart first before.reached ih run
  | nested _ called bound ih =>
    obtain ⟨c', inner, h⟩ := ih
    have place := (Stands.function h.stands).body
    exact h.enter place (congrArg (_ :: ·) (c'.sitesDeclare _ _)) rfl rfl

end

theorem thisBeneath (chart : Charted S.machine.locals S.body) {node : Nat} {keyword : Option Token}
    (placed : S.Placed m.store m.env (.expr (.this node keyword))) {f : FunDecl} {outer : List Site}
    {h : FrameId} {env : Env} {c : Context} {inner : List Site}
    (beneath : Beneath S (.this f :: outer) (h :: env) c inner (.expr (.this node keyword)) m) :
    S.machine.locals.distance? node = some inner.length ∧ h < m.store.frames.size := by
  have stands : Stands S.body c (.expr (.this node keyword)) := beneath.stands
  have entry : ∀ {c}, Stands S.body c (.expr (.this node keyword)) →
      S.machine.locals.distance? node = c.depth? "this" := by
    intro c stands
    obtain ⟨w, rfl, word⟩ := stands.shaped chart.shaped
    have entry := chart.distance stands rfl
    rwa [Option.bind_some, word] at entry
  have depth : c.depth? "this" = some inner.length :=
    (stands.classed chart.shaped).1.depth beneath.sites beneath.nested
  refine ⟨(entry stands).trans depth, ?_⟩
  -- the frame is there, since the place that the environment fits is as deep
  obtain ⟨c', stands', fits⟩ := placed
  have classed := (stands'.classed chart.shaped).1
  obtain ⟨k, inside⟩ := Option.isSome_iff_exists.mp (chart.inClass stands')
  rw [inside] at classed
  obtain ⟨inner', f', outer', sites', isOpen', here, -⟩ := classed.split
  have same : inner'.length = inner.length := Option.some.inj <|
    (classed.depth sites' isOpen').symm.trans ((entry stands').symm.trans ((entry stands).trans depth))
  obtain ⟨g, rest, frame⟩ := fits.framed here
  have split := frame.here
  rw [same, beneath.frames] at split
  cases split
  exact frame.live

theorem bindsRoutine {this : Value} {method : Routine} (h : Binds n t m method this r) :
    r.decl = method.decl ∧ ∃ g, r.closure = g :: method.closure := by
  cases h with
  | construct _ bound =>
    cases bound
    exact ⟨rfl, _, rfl⟩
  | property _ _ _ bound =>
    cases bound
    exact ⟨rfl, _, rfl⟩
  | super _ _ _ _ bound =>
    cases bound
    exact ⟨rfl, _, rfl⟩

theorem thisDuringCall (chart : Charted S.machine.locals S.body)
    (first : S.Sits (.stmts S.body) S.machine) {all : List Moment} (chronicle : Chronicle S all)
    {this : Value} {method : Routine} (reached : S.Reaches (n + 1) t m)
    (binds : Binds n t m method this r) {s : Store} (ok : S.MethodOk s method) {j node : Nat}
    {keyword : Option Token} (during : DuringCall S r (j + 1) (.expr (.this node keyword)) m') :
    evaluate (j + 1) (.this node keyword) m' = .ok this m' := by
  obtain ⟨decl, g, closure⟩ := bindsRoutine binds
  obtain ⟨-, c, kind, outer, stands, scopes, -⟩ := ok
  rw [← decl] at stands scopes
  have sites : c.sites = .this r.decl :: outer.map (·.1) := by
    unfold Context.sites
    rw [scopes]
    rfl
  obtain ⟨c', inner, beneath⟩ := beneathCall chart first stands during
  rw [sites, closure] at beneath
  have sits := Start.sits chart first during.reached
  obtain ⟨entry, live⟩ := thisBeneath chart sits.2 beneath
  have lays : Lays n t m (g :: method.closure) [("this", this)] := closure ▸ .receiver binds
  have bound := chronicle.reserved during.reached reached lays live thisReserved
  obtain ⟨u, rfl, word⟩ := Stands.shaped (p := .expr (.this node keyword)) beneath.stands chart.shaped
  have at' : m'.env[inner.length]? = some g := by
    rw [← List.head?_drop, beneath.frames]
    rfl
  have held : (m'.store.frame g).get? u.lexeme = some this := by
    rw [word]
    exact bound
  exact readResolved (sits.1.locals ▸ entry) at' held j

end Start

inductive Taken (S : Start) : Value → Routine → Value → Prop where
  | access {k object t m id c m₁ method v m₂}
      (reached : S.Reaches (k + 1) (.expr (.get object (some t))) m)
      (instance_ : evaluate k object m = .ok (.instance_ id c) m₁)
      (unset : (m₁.store.fieldsOf id).get? t.lexeme = none)
      (found : c.findMethod? t.lexeme = some method)
      (given : evaluate (k + 1) (.get object (some t)) m = .ok v m₂) :
      Taken S (.instance_ id c) method v

theorem functionValueOk {v : Value} (h : functionValue r m = .ok v m') :
    ∃ id name, v = .function id name r := by
  obtain ⟨name, m₁, _, rest⟩ := bindOk.mp h
  obtain ⟨id, m₂, _, last⟩ := bindOk.mp rest
  cases last
  exact ⟨id, name, rfl⟩

theorem takenBinds {object : Expr} {u : Token} {id : Nat} {c : Class} {m₁ m₂ : Machine}
    {method : Routine} {v : Value} (instance_ : evaluate n object m = .ok (.instance_ id c) m₁)
    (unset : (m₁.store.fieldsOf id).get? u.lexeme = none)
    (found : c.findMethod? u.lexeme = some method)
    (given : evaluate (n + 1) (.get object (some u)) m = .ok v m₂) :
    ∃ i name r, v = .function i name r ∧
      Binds n (.expr (.get object (some u))) m method (.instance_ id c) r := by
  have run : property (.instance_ id c) id c u m₁ = .ok v m₂ := by
    rw [Eval.evaluate.eq_def] at given
    dsimp only at given
    rw [bindRun, instance_] at given
    exact given
  unfold property at run
  rw [getBind, unset] at run
  dsimp only at run
  rw [found] at run
  obtain ⟨r, m₃, bound, rest⟩ := bindOk.mp run
  obtain ⟨i, name, rfl⟩ := functionValueOk rest
  exact ⟨i, name, r, rfl, .property instance_ unset found bound⟩

namespace Session

theorem methodsKeepTheirReceiver {setting : Setting} {lines : List (List Char)}
    {s : Session} (ready : prepare lines (fresh setting) = .ok () s)
    (silent : s.log.resolution = []) (n : Nat) :
    ∃ body, s.tree = .program body ∧ ∀ this method v, Taken (s.start body n) this method v →
      ∃ i name r, v = .function i name r ∧ r.decl = method.decl ∧
        ∀ j node keyword m, DuringCall (s.start body n) r (j + 1) (.expr (.this node keyword)) m →
          evaluate (j + 1) (.this node keyword) m = .ok this m := by
  obtain ⟨body, tree, chart, store, env⟩ := charted ready silent
  have first : (s.start body n).Sits (.stmts body) (s.start body n).machine :=
    Start.sitsFirst (S := s.start body n) env store
  obtain ⟨all, chronicle⟩ := Start.chronicle (S := s.start body n) chart.shaped env store
  refine ⟨body, tree, ?_⟩
  rintro _ method v ⟨reached, instance_, unset, found, given⟩
  obtain ⟨i, name, r, rfl, binds⟩ := takenBinds instance_ unset found given
  refine ⟨i, name, r, rfl, (Start.bindsRoutine binds).1, fun j node keyword m during => ?_⟩
  have object := Lox.Reaches.step reached .getObject
  have value := (((Start.sound (S := s.start body n) chart _).expr _ _ object
    (Start.sits (S := s.start body n) chart first object)).ok instance_).2
  exact Start.thisDuringCall (S := s.start body n) chart first chronicle reached binds
    (Class.Holds.found value found) during

def storedProgram : List (List Char) :=
  ["class A\x7bm()\x7bfun f()\x7bprint this.n;\x7df();\x7d\x7d".toList,
   "var a=A();a.n= \"a\";".toList,
   "var b=A();b.n= \"b\";".toList,
   "b.k=a.m;b.m();b.k();".toList]

theorem methodsKeepTheirReceiver_stored :
    prints? storedProgram = some ["b", "a"] ∧
    ∃ s, prepare storedProgram (fresh {}) = .ok () s ∧ s.log.resolution = [] ∧
      ∃ body, s.tree = .program body ∧ ∀ this method v, Taken (s.start body fuel) this method v →
        ∃ i name r, v = .function i name r ∧ r.decl = method.decl ∧ ∀ j node keyword m,
          DuringCall (s.start body fuel) r (j + 1) (.expr (.this node keyword)) m →
            evaluate (j + 1) (.this node keyword) m = .ok this m := by
  have printed : prints? storedProgram = some ["b", "a"] := by decide +kernel
  obtain ⟨s, ready, silent⟩ := preparedOfPrints printed
  exact ⟨printed, s, ready, silent, methodsKeepTheirReceiver ready silent fuel⟩

end Session
end Lox
