import Lox.Proofs.Assigned
import Lox.Proofs.Runs.Chronicles
import Lox.Proofs.Scopes.Methods

/-!
Methods of a superclass. In a program that was resolved without a report, `super` means the class
that was captured when the class statement around it was run, and the method found there is bound to
the receiver of the method that is running, whatever has become of the names of the classes since.
-/

namespace Lox

open Eval

def Nearest (chain : List Layer) (name : String) (r : Routine) : Prop :=
  ∃ before l after, chain = before ++ l :: after ∧ (∀ k ∈ before, k.methods.get? name = none) ∧
    l.methods.get? name = some r

theorem nearestFound {c : Class} {name : String} {r : Routine} :
    Nearest c.layers name r ↔ c.findMethod? name = some r := by
  unfold Nearest Class.findMethod?
  rw [List.findSome?_eq_some_iff]
  constructor
  · rintro ⟨before, l, after, chain, none, found⟩
    exact ⟨before, l, after, chain, found, none⟩
  · rintro ⟨before, l, after, chain, found, none⟩
    exact ⟨before, l, after, chain, none, found⟩

def BoundTo (r : Routine) (this v : Value) (m : Machine) : Prop :=
  ∃ id name h, v = .function id name { r with closure := h :: r.closure } ∧
    m.store.frame h = [("this", this)]

theorem bindRuns {r : Routine} (named : r.decl.name.isSome = true) (this : Value) (m : Machine) :
    ∃ v m', Eval.bind r this m = .ok v m' ∧ BoundTo r this v m' := by
  obtain ⟨u, name⟩ := Option.isSome_iff_exists.mp named
  have run : Eval.bind r this m = functionValue { r with closure := m.store.frames.size :: r.closure }
      { m with store := (m.store.enter r.closure [("this", this)]).2 } := rfl
  unfold functionValue at run
  rw [show Eval.lexeme r.decl.name = pure u.lexeme by rw [name]; rfl] at run
  refine ⟨_, _, run, _, u.lexeme, m.store.frames.size, rfl, ?_⟩
  exact m.store.frameEnterSelf r.closure [("this", this)]

theorem nearestBound {c : Class} {name : String}
    (named : ∀ r, c.findMethod? name = some r → r.decl.name.isSome = true) (f : Fault) (this : Value)
    (m : Machine) {result : EStateM.Result Signal Machine Value}
    (run : result = (c.findMethod? name).elim (.error (.fault f) m) fun r => Eval.bind r this m) :
    (∀ r, Nearest c.layers name r → ∃ v m', result = .ok v m' ∧ BoundTo r this v m') ∧
      ∀ e m', result = .error e m' ↔
        (∀ l ∈ c.layers, l.methods.get? name = none) ∧ e = .fault f ∧ m' = m := by
  have absent : c.findMethod? name = none ↔ ∀ l ∈ c.layers, l.methods.get? name = none :=
    List.findSome?_eq_none_iff
  cases found : c.findMethod? name with
  | none =>
    rw [found, Option.elim_none] at run
    refine ⟨fun r nearest => ?_, fun e m' => ?_⟩
    · rw [nearestFound, found] at nearest
      cases nearest
    · rw [run, EStateM.Result.error.injEq]
      exact ⟨fun same => ⟨absent.mp found, same.1.symm, same.2.symm⟩,
        fun same => ⟨same.2.1.symm, same.2.2.symm⟩⟩
  | some r =>
    obtain ⟨v, m₁, bind, bound⟩ := bindRuns (named r found) this m
    rw [found, Option.elim_some, bind] at run
    subst run
    refine ⟨fun r' nearest => ?_, fun e m' => ⟨fun same => (nomatch same), fun same => ?_⟩⟩
    · rw [nearestFound, found] at nearest
      cases nearest
      exact ⟨v, m₁, rfl, bound⟩
    · rw [absent.mpr same.1] at found
      cases found

/- The run of a class statement that captures its superclass: `env` is what it closes the methods
over, and the class that it makes has the captured one above its own methods. -/
structure Captures (S : Start) (n : Nat) (u : Token) (methods : List FunDecl) (expr : Expr)
    (m m' : Machine) (base : Class) (env : Env) : Prop where
  reached : S.Reaches (n + 1) (.stmt (.class_ (some u) methods expr)) m
  captured : superclass n expr m = .ok base m'
  inner : env = ((m'.store.defineIn m'.env u.lexeme .nil).enter m'.env [("super", .class_ base)]).1
  made : ∀ table, methodTable env methods [] = .ok table → ∃ id m'',
    execute (n + 1) (.class_ (some u) methods expr) m =
      onStore (Store.assign m'.env u (.class_ ⟨⟨id, u.lexeme, table⟩, base.layers⟩)) m''

/- A part that is run in the call of a method, within blocks and functions of the method. The
routine that was called lies in `env`, but for the frame of its receiver. -/
structure InMethod (S : Start) (p : Part) (m : Machine) (r : Routine) (this : Value) (env : Env)
    (c : Context) (inner outer : List Site) : Prop where
  stands : Stands S.body c p
  sites : c.sites = inner ++ .call r.decl :: .this r.decl :: outer
  nested : ∀ σ ∈ inner, σ.isOpen = true
  called : ∃ n args m₀, S.Reaches (n + 1) (.routine r args) m₀
  frames : m.env.drop (inner.length + 1) = r.closure
  receiver : ∃ h, r.closure = h :: env ∧ (m.store.frame h).get? "this" = some this

namespace Start

variable {S : Start} {m m' : Machine}

theorem superclassGiven {n : Nat} {expr : Expr} {base : Class}
    (run : superclass n expr m = .ok base m') : expr.isMissing = false := by
  cases expr with
  | missing =>
    cases n with
    | zero => cases run
    | succ n =>
      cases n with
      | zero => cases run
      | succ n => cases run
  | _ => rfl

theorem captures {n : Nat} {u : Token} {methods : List FunDecl} {expr : Expr} {base : Class}
    (reached : S.Reaches (n + 1) (.stmt (.class_ (some u) methods expr)) m)
    (captured : superclass n expr m = .ok base m') :
    Captures S n u methods expr m m' base
      ((m'.store.defineIn m'.env u.lexeme .nil).enter m'.env [("super", .class_ base)]).1 := by
  refine ⟨reached, captured, rfl, fun table given => ?_⟩
  have run : execute (n + 1) (.class_ (some u) methods expr) m =
      declareClass (some u) methods (some base) m' := by
    rw [Eval.execute.eq_def]
    dsimp only
    rw [superclassGiven captured, if_neg (by simp), map_eq_pure_bind, bindRun, bindRun, captured]
    rfl
  rw [run, declareClassRun]
  dsimp only [classEnv]
  rw [given]
  exact ⟨_, _, rfl⟩

theorem openedCall {f : FunDecl} {h : FrameId} {closure : Env}
    (opened : S.Opened (.call f) (h :: closure)) :
    ∃ r : Routine, f = r.decl ∧ r.closure = closure ∧
      ∃ n args m₀, S.Reaches (n + 1) (.routine r args) m₀ := by
  obtain ⟨n, t, m₀, reached, opens⟩ := opened
  generalize same : h :: closure = env at opens
  cases opens with
  | @call r args _ b bound => exact ⟨r, rfl, (List.cons.inj same).2.symm, n, args, m₀, reached⟩

theorem openedSuperclass {name : Option Token} {methods : List FunDecl} {env : Env}
    (opened : S.Opened (.super name methods) env) :
    ∃ n u expr m₀ m₁ base, name = some u ∧ Captures S n u methods expr m₀ m₁ base env := by
  obtain ⟨n, t, m₀, reached, opens⟩ := opened
  cases opens with
  | @superclass u _ expr _ base m₁ captured =>
    exact ⟨n, u, expr, m₀, m₁, base, rfl, captures reached captured⟩

theorem framedAt {c : Context} (fits : Fits S.Opened m.store m.env c.scopes) {d : Nat} {σ : Site}
    (at' : c.sites[d]? = some σ) :
    ∃ f outer, m.env.drop d = f :: outer ∧ S.Opened σ (f :: outer) ∧ f < m.store.frames.size := by
  obtain ⟨names, scope⟩ := Context.siteAt at'
  obtain ⟨f, outer, frame⟩ := fits.framed scope
  exact ⟨f, outer, frame.here, frame.origin, frame.live⟩

theorem dropSucc {env : Env} {d : Nat} {f : FrameId} {outer : Env} (h : env.drop d = f :: outer) :
    env.drop (d + 1) = outer := by
  rw [← List.tail_drop, h, List.tail_cons]

theorem superInMethod (chart : Charted S.machine.locals S.body) {node : Nat}
    {keyword method : Option Token}
    (placed : S.Placed m.store m.env (.expr (.super node keyword method))) :
    ∃ r this g env c inner u methods rest n expr m₀ m₁ base,
      InMethod S (.expr (.super node keyword method)) m r this (g :: env) c inner
        (.super (some u) methods :: rest) ∧ r.decl ∈ methods ∧
      Captures S n u methods expr m₀ m₁ base (g :: env) ∧ g < m.store.frames.size ∧
      S.machine.locals.distance? node = some (inner.length + 2) := by
  obtain ⟨c, stands, fits⟩ := placed
  obtain ⟨w, rfl, word⟩ := stands.shaped chart.shaped
  have classed := (stands.classed chart.shaped).1
  rw [chart.inSubclass stands] at classed
  obtain ⟨inner₁, f, outer, sites, isOpen, here, sub⟩ := classed.split
  obtain ⟨⟨name, methods, rest, rfl⟩, depth⟩ := sub rfl
  have sites : c.sites = inner₁ ++ .this f :: .super name methods :: rest := sites
  obtain ⟨⟨inner, rfl⟩, mem⟩ := stands.housed.called sites isOpen
  have entry := chart.distance stands rfl
  rw [Option.bind_some, word] at entry
  have sites : c.sites = inner ++ .call f :: .this f :: .super name methods :: rest := by
    simpa using sites
  rw [List.length_append, List.length_singleton] at here depth
  -- the frames of the call, of the receiver and of the superclass, each inside the next
  obtain ⟨call, callOuter, callHere, callOpened, -⟩ :=
    framedAt fits (d := inner.length) (σ := .call f) (by simp [sites])
  obtain ⟨h, thisFrame, frame⟩ := fits.framed here
  obtain ⟨g, env, superHere, superOpened, live⟩ :=
    framedAt fits (d := inner.length + 2) (σ := .super name methods) (by simp [sites])
  cases (dropSucc callHere).symm.trans frame.here
  cases (dropSucc frame.here).symm.trans superHere
  obtain ⟨v, this⟩ := getOfHas (frame.bound "this" rfl)
  obtain ⟨r, decl, closure, called⟩ := openedCall callOpened
  subst decl
  obtain ⟨n, u, expr, m₀, m₁, base, rfl, captured⟩ := openedSuperclass superOpened
  refine ⟨r, v, g, env, c, inner, u, methods, rest, n, expr, m₀, m₁, base, ?_, ?_, captured, live, ?_⟩
  · refine ⟨stands, sites, fun σ mem => isOpen σ (by simp [mem]), called, ?_, h, closure, this⟩
    rw [closure]
    exact frame.here
  · exact mem _ _ _ rfl
  · exact entry.trans depth

theorem superBase {all : List Moment} (h : Chronicle S all) {n k : Nat} {t : Task}
    (reach : S.Reaches n t m) {u : Token} {methods : List FunDecl} {expr : Expr} {m₀ m₁ : Machine}
    {base : Class} {g : FrameId} {env : Env}
    (captured : Captures S k u methods expr m₀ m₁ base (g :: env)) (live : g < m.store.frames.size) :
    (m.store.frame g).get? "super" = some (.class_ base) := by
  have lays : Lays k (.stmt (.class_ (some u) methods expr)) m₀ (g :: env)
      [("super", .class_ base)] := by
    rw [captured.inner]
    exact .superclass (superclassGiven captured.captured) captured.captured
  exact h.reserved reach captured.reached lays live superReserved

section

variable {node d : Nat} {base : Class} {this : Value} (entry : m.locals.distance? node = some (d + 1))
  (read : m.store.readAt m.env ((d + 1 : Nat) : Int) "super" = .ok (.class_ base))
  (receiver : m.store.readAt m.env (d : Nat) "this" = .ok this)

include entry read receiver

theorem superMethodRun (t : Token) : superMethod node (some t) m =
    (base.findMethod? t.lexeme).elim (.error (.fault (.undefinedMember t)) m)
      fun r => Eval.bind r this m := by
  have receiver : m.store.readAt m.env (((d + 1 : Nat) : Int) - 1) "this" = .ok this := by
    rw [show ((d + 1 : Nat) : Int) - 1 = (d : Nat) by omega]
    exact receiver
  unfold superMethod
  rw [getBind, getBind, entry]
  dsimp only
  rw [bindRun, askRun read]
  dsimp only
  rw [bindRun, askRun receiver]
  dsimp only
  rw [bindRun, show Eval.named (some t) m = .ok t m from rfl]
  dsimp only
  cases base.findMethod? t.lexeme <;> rfl

end

end Start

theorem Chronicle.namedAbove {S : Start} {all : List Moment} {m : Machine} {n : Nat} {t : Task}
    (h : Chronicle S all) (reach : S.Reaches n t m) {f : FrameId} {base : Class}
    (bound : (m.store.frame f).get? "super" = some (.class_ base)) {name : String} {r : Routine}
    (found : base.findMethod? name = some r) : r.decl.name.isSome = true := by
  obtain ⟨μ, -, sits⟩ := h.sits reach
  have held : μ.Held True m.store := sits.kept.store
  have known : (μ.permit True).ClassOk base := held.values.frames f "super" (.class_ base) bound
  exact ((Permit.found known found).2 trivial).2

def UsesSuper (S : Start) (e : Expr) (m : Machine) (this : Value) (base : Class) : Prop :=
  ∃ r env c inner u methods rest n expr m₀ m₁,
    InMethod S (.expr e) m r this env c inner (.super (some u) methods :: rest) ∧
      r.decl ∈ methods ∧ Captures S n u methods expr m₀ m₁ base env

structure Dispatched (t : Token) (base : Class) (this : Value) (m : Machine)
    (result : EStateM.Result Signal Machine Value) : Prop where
  found : ∀ r, Nearest base.layers t.lexeme r → ∃ v m', result = .ok v m' ∧ BoundTo r this v m'
  missing : ∀ e m', result = .error e m' ↔
    (∀ l ∈ base.layers, l.methods.get? t.lexeme = none) ∧ e = .fault (.undefinedMember t) ∧ m' = m

theorem dispatched {t : Token} {base : Class} {this : Value} {m : Machine}
    (named : ∀ r, base.findMethod? t.lexeme = some r → r.decl.name.isSome = true) :
    Dispatched t base this m
      ((base.findMethod? t.lexeme).elim (.error (.fault (.undefinedMember t)) m)
        fun r => Eval.bind r this m) := by
  obtain ⟨found, missing⟩ := nearestBound named (.undefinedMember t) this m rfl
  exact ⟨found, missing⟩

namespace Session

theorem superIsDispatchedStatically {setting : Setting} {lines : List (List Char)}
    {s : Session} (ready : prepare lines (fresh setting) = .ok () s)
    (silent : s.log.resolution = []) (n : Nat) :
    ∃ body, s.tree = .program body ∧ ∀ k node keyword t m,
      (s.start body n).Reaches (k + 1) (.expr (.super node keyword (some t))) m →
      ∃ this base, UsesSuper (s.start body n) (.super node keyword (some t)) m this base ∧
        Dispatched t base this m (evaluate (k + 1) (.super node keyword (some t)) m) := by
  obtain ⟨body, tree, chart, store, env⟩ := charted ready silent
  refine ⟨body, tree, fun k node keyword t m reach => ?_⟩
  have first : (s.start body n).Sits (.stmts body) (s.start body n).machine :=
    Start.sitsFirst (S := s.start body n) env store
  obtain ⟨all, chronicle⟩ := Start.chronicle (S := s.start body n) chart.shaped env store
  have sits := Start.sits (S := s.start body n) chart first reach
  obtain ⟨r, this, g, env, c, inner, u, methods, rest, j, expr, m₀, m₁, base, inside, mem, captured,
    live, entry⟩ := Start.superInMethod (S := s.start body n) chart sits.2
  refine ⟨this, base, ⟨r, g :: env, c, inner, u, methods, rest, j, expr, m₀, m₁, inside, mem,
    captured⟩, ?_⟩
  have bound := Start.superBase chronicle reach captured live
  obtain ⟨h, closure, receiver⟩ := inside.receiver
  have here : m.env.drop (inner.length + 1) = h :: g :: env := inside.frames.trans closure
  have run : evaluate (k + 1) (.super node keyword (some t)) m =
      (base.findMethod? t.lexeme).elim (.error (.fault (.undefinedMember t)) m)
        fun r => Eval.bind r this m :=
    Start.superMethodRun (d := inner.length + 1) (sits.1.locals ▸ entry)
      (readAtDrop (Start.dropSucc here) bound) (readAtDrop here receiver) t
  rw [run]
  exact dispatched fun r found => chronicle.namedAbove reach bound found

def reassignedProgram : List (List Char) :=
  ["class A\x7bm()\x7bprint \"A\";\x7d\x7d".toList,
   "class B<A\x7bm()\x7bfun f()\x7bsuper.m();\x7df();\x7d\x7d".toList,
   "class C<B\x7bm()\x7bsuper.m();\x7d\x7d".toList,
   "A=B;B=C;".toList,
   "C().m();".toList]

theorem superIsDispatchedStatically_reassigned :
    prints? reassignedProgram = some ["A"] ∧
    ∃ s, prepare reassignedProgram (fresh {}) = .ok () s ∧ s.log.resolution = [] ∧
      ∃ body, s.tree = .program body ∧ ∀ k node keyword t m,
        (s.start body fuel).Reaches (k + 1) (.expr (.super node keyword (some t))) m →
        ∃ this base, UsesSuper (s.start body fuel) (.super node keyword (some t)) m this base ∧
          Dispatched t base this m (evaluate (k + 1) (.super node keyword (some t)) m) := by
  have printed : prints? reassignedProgram = some ["A"] := by decide +kernel
  obtain ⟨s, ready, silent⟩ := preparedOfPrints printed
  exact ⟨printed, s, ready, silent, superIsDispatchedStatically ready silent fuel⟩

end Session
end Lox
