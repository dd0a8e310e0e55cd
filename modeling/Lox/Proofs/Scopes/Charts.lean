import Lox.Proofs.Scopes.Walk

/-!
What a walk without a report says about every part of the program: where the part stands, the
resolver had the scopes of that place, and the entries it made count the scopes there.
-/

namespace Lox

namespace Part

def walk : Part → Resolve Unit
  | .expr e => Resolve.expr e
  | .exprs es => Resolve.exprs es
  | .stmt s => Resolve.stmt s
  | .stmts ss => Resolve.stmts ss
  | .function f kind => Resolve.funDecl f kind

theorem steady {p : Part} (shaped : p.Shaped) {r r' : Resolver} (h : p.walk r = .ok () r') :
    Steady p.nodes r r' := by
  cases p with
  | expr e => exact (Resolve.staysExpr e h).toSteady
  | exprs es => exact (Resolve.staysExprs es h).toSteady
  | stmt s => exact (Resolve.steadyStmt s shaped h).1
  | stmts ss => exact (Resolve.steadyStmts ss shaped h).1
  | function f kind => exact (Resolve.staysFunDecl f shaped h).toSteady

end Part

/- The part of `Steady` that also holds while a scope is being opened or closed. -/
structure Adds (nodes : List Nat) (r r' : Resolver) : Prop where
  log : Reports r.log r'.log
  locals : ∀ node, node ∉ nodes → r'.locals.distance? node = r.locals.distance? node

theorem Steady.adds {nodes : List Nat} {r r' : Resolver} (h : Steady nodes r r') :
    Adds nodes r r' := ⟨h.log, h.locals⟩

theorem Adds.none {r r' : Resolver} (log : r'.log = r.log) (locals : r'.locals = r.locals) :
    Adds [] r r' := ⟨by rw [log]; exact .refl _, fun _ _ => by rw [locals]⟩

theorem Adds.trans {a b : List Nat} {r s t : Resolver} (first : Adds a r s) (rest : Adds b s t) :
    Adds (a ++ b) r t where
  log := first.log.trans rest.log
  locals node out := by
    rw [List.mem_append, not_or] at out
    exact (rest.locals node out.2).trans (first.locals node out.1)

structure Walk (L : Locals) (c : Context) (p : Part) (r r' : Resolver) : Prop where
  run : p.walk r = .ok () r'
  silent : r'.log = r.log
  scopes : r.scopes = c.names
  klass : r.klass = c.klass
  function : r.function = c.function
  fresh : ∀ node ∈ p.nodes, r.locals.distance? node = none
  agree : ∀ node ∈ p.nodes, L.distance? node = r'.locals.distance? node
  nodup : p.nodes.Nodup

def Walked (L : Locals) (c : Context) (p : Part) : Prop :=
  ∃ r r', Walk L c p r r'

structure Inside (p : List Nat) (pre q post : List Nat) : Prop where
  nodup : q.Nodup
  inside : ∀ node ∈ q, node ∈ p
  before : ∀ node ∈ q, node ∉ pre
  after : ∀ node ∈ q, node ∉ post

theorem insideOfPerm {p pre q post : List Nat} (perm : (pre ++ (q ++ post)).Perm p)
    (nodup : p.Nodup) : Inside p pre q post := by
  have whole := perm.nodup_iff.mpr nodup
  rw [List.nodup_append, List.nodup_append] at whole
  obtain ⟨-, ⟨mid, -, apart⟩, early⟩ := whole
  refine ⟨mid, fun node mem => ?_, fun node mem bad => ?_, fun node mem bad => ?_⟩
  · exact perm.mem_iff.mp (by simp [mem])
  · exact early node bad node (by simp [mem]) rfl
  · exact apart node mem node bad rfl

theorem Walk.inner {L : Locals} {c d : Context} {p q : Part} {r r' s s' : Resolver}
    (w : Walk L c p r r') {pre post : List Nat} (before : Adds pre r s)
    (run : q.walk s = .ok () s') (after : Adds post s' r') (shaped : q.Shaped)
    (apart : Inside p.nodes pre q.nodes post) (scopes : s.scopes = d.names)
    (klass : s.klass = d.klass) (function : s.function = d.function) : Walked L d q := by
  have middle := q.steady shaped run
  have up : Reports r.log s.log := before.log
  have back : Reports s'.log r.log := by
    rw [← w.silent]
    exact after.log
  refine ⟨s, s', run, ?_, scopes, klass, function, fun node mem => ?_, fun node mem => ?_,
    apart.nodup⟩
  · exact Reports.antisymm (back.trans up) middle.log
  · rw [before.locals node (apart.before node mem)]
    exact w.fresh node (apart.inside node mem)
  · rw [w.agree node (apart.inside node mem), after.locals node (apart.after node mem)]

theorem Walk.whole {L : Locals} {c : Context} {p q : Part} {r r' : Resolver} (w : Walk L c p r r')
    (run : q.walk r = .ok () r') (nodes : q.nodes = p.nodes) : Walked L c q :=
  ⟨r, r', run, w.silent, w.scopes, w.klass, w.function, nodes ▸ w.fresh, nodes ▸ w.agree,
    nodes ▸ w.nodup⟩

theorem Walk.pair {L : Locals} {c : Context} {p : Part} {r r' : Resolver} (w : Walk L c p r r')
    (e : Expr) (q : Part) (run : (do Resolve.expr e; q.walk : Resolve Unit) r = .ok () r')
    (nodes : p.nodes = e.nodes ++ q.nodes) (shaped : e.Shaped ∧ q.Shaped) :
    Walked L c (.expr e) ∧ Walked L c q := by
  obtain ⟨_, s, first, second⟩ := bindOk.mp run
  have kept := Resolve.staysExpr e first
  have later := q.steady shaped.2 second
  constructor
  · exact w.inner (q := .expr e) (.none rfl rfl) first later.adds shaped.1
      (insideOfPerm (by rw [nodes]; exact .refl _) w.nodup) w.scopes w.klass w.function
  · exact w.inner kept.adds second (.none rfl rfl) shaped.2
      (insideOfPerm (by rw [nodes]; simp) w.nodup) (kept.scopes.trans w.scopes)
      (kept.klass.trans w.klass) (kept.function.trans w.function)

variable {L : Locals} {c : Context} {r r' : Resolver}

theorem walkAssigned {node : Nat} {name : Option Token} {value : Expr}
    (w : Walk L c (.expr (.assign node name value)) r r') (shaped : value.Shaped) :
    Walked L c (.expr value) := by
  obtain ⟨_, s, run, last⟩ := bindOk.mp w.run
  exact w.inner (q := .expr value) (.none rfl rfl) run (Resolve.resolveLocalOk last).1.adds
    shaped (insideOfPerm (.refl _) w.nodup) w.scopes w.klass w.function

theorem walkFirst {s : Stmt} {ss : List Stmt} (w : Walk L c (.stmts (s :: ss)) r r')
    (shaped : Stmt.AllShaped (s :: ss)) :
    Walked L c (.stmt s) ∧ Walked L (c.after s) (.stmts ss) := by
  obtain ⟨t, first, rest⟩ := Resolve.stmtsOk w.run
  obtain ⟨kept, scopes⟩ := Resolve.steadyStmt s shaped.1 first
  have later := (Resolve.steadyStmts ss shaped.2 rest).1
  constructor
  · exact w.inner (q := .stmt s) (.none rfl rfl) first later.adds shaped.1
      (insideOfPerm (.refl _) w.nodup) w.scopes w.klass w.function
  · refine w.inner (q := .stmts ss) kept.adds rest (.none rfl rfl) shaped.2
      (insideOfPerm (by rw [List.append_nil]; exact .refl _) w.nodup) ?_ ?_ ?_
    · rw [scopes, w.scopes, ← namesDeclare]
      rfl
    · rw [kept.klass, w.klass, Context.after, Context.klassDeclare]
    · rw [kept.function, w.function, Context.after, Context.functionDeclare]

theorem walkInitializer {name : Option Token} {init : Expr}
    (w : Walk L c (.stmt (.var name init)) r r') (shaped : init.Shaped)
    (given : init.isMissing = false) : Walked L (c.declare name false) (.expr init) := by
  obtain ⟨_, s, declared, rest⟩ := bindOk.mp w.run
  dsimp only at rest
  rw [if_pos (by simp [given])] at rest
  obtain ⟨_, t, run, defined⟩ := bindOk.mp rest
  obtain ⟨kept, scopes⟩ := Resolve.declareOk declared
  have last := (Resolve.defineOk defined).1
  refine w.inner (q := .expr init) kept.adds run last.adds shaped
    (insideOfPerm (by rw [List.append_nil]; exact .refl _) w.nodup) ?_ ?_ ?_
  · rw [scopes, w.scopes, namesDeclare]
  · rw [kept.klass, w.klass, Context.klassDeclare]
  · rw [kept.function, w.function, Context.functionDeclare]

theorem walkBlock {ss : List Stmt} (w : Walk L c (.stmt (.block ss)) r r')
    (shaped : Stmt.AllShaped ss) : Walked L (c.inBlock ss) (.stmts ss) := by
  obtain ⟨s, run, rfl⟩ := Resolve.blockOk w.run
  exact w.inner (q := .stmts ss) (s := { r with scopes := [] :: r.scopes }) (.none rfl rfl) run
    (.none rfl rfl) shaped (insideOfPerm (by rw [List.append_nil]; exact .refl _) w.nodup)
    (congrArg ([] :: ·) w.scopes) w.klass w.function

theorem walkIf {cond : Expr} {yes no : Stmt} (w : Walk L c (.stmt (.if_ cond yes no)) r r')
    (shaped : (Stmt.if_ cond yes no).Shaped) :
    Walked L c (.expr cond) ∧ Walked L c (.stmt yes) ∧
      (no.isMissing = false → Walked L c (.stmt no)) := by
  obtain ⟨sc, sy, sn, yesPlain, noPlain⟩ := shaped
  obtain ⟨_, s, first, rest⟩ := bindOk.mp w.run
  obtain ⟨_, t, second, third⟩ := bindOk.mp rest
  have kept := Resolve.staysExpr cond first
  obtain ⟨kept', scopes⟩ := Resolve.steadyStmt yes sy second
  rw [Resolve.undeclared yesPlain, putNameNone] at scopes
  have last : Adds no.nodes t r' := by
    split at third
    · exact (Resolve.steadyStmt no sn third).1.adds
    · cases third
      exact ((Steady.refl _).mono (by simp)).adds
  refine ⟨?_, ?_, fun given => ?_⟩
  · exact w.inner (q := .expr cond) (.none rfl rfl) first (kept'.adds.trans last) sc
      (insideOfPerm (.refl _) w.nodup) w.scopes w.klass w.function
  · exact w.inner (q := .stmt yes) kept.adds second last sy
      (insideOfPerm (.refl _) w.nodup) (kept.scopes.trans w.scopes)
      (kept.klass.trans w.klass) (kept.function.trans w.function)
  · rw [if_pos (by simp [given])] at third
    refine w.inner (q := .stmt no) (kept.adds.trans kept'.adds) third (.none rfl rfl) sn
      (insideOfPerm (by simp [Part.nodes, Stmt.nodes]) w.nodup) ?_ ?_ ?_
    · exact scopes.trans (kept.scopes.trans w.scopes)
    · exact kept'.klass.trans (kept.klass.trans w.klass)
    · exact kept'.function.trans (kept.function.trans w.function)

theorem walkReturn {keyword : Option Token} {value : Expr}
    (w : Walk L c (.stmt (.return_ keyword value)) r r') (shaped : value.Shaped)
    (given : value.isMissing = false) : Walked L c (.expr value) := by
  obtain ⟨_, s, first, run⟩ := bindOk.mp w.run
  rw [if_pos (by simp [given])] at run
  have kept := Resolve.staysReturn first
  exact w.inner (q := .expr value) kept.adds run (.none rfl rfl) shaped
    (insideOfPerm (by rw [List.append_nil]; exact .refl _) w.nodup) (kept.scopes.trans w.scopes)
    (kept.klass.trans w.klass) (kept.function.trans w.function)

theorem walkReturnInside {keyword : Option Token} {value : Expr}
    (w : Walk L c (.stmt (.return_ keyword value)) r r') :
    ∃ kind, c.function = some kind ∧ kind ≠ .initializer := by
  obtain ⟨_, s, first, rest⟩ := bindOk.mp w.run
  have grown := (Resolve.staysOptional value rest).log.length_le
  rw [w.silent] at grown
  obtain ⟨_, _, got, told⟩ := bindOk.mp first
  cases got
  rw [w.function] at told
  cases kind : c.function with
  | none =>
    rw [kind] at told
    exact absurd (Resolve.reportOk told).2 (Nat.not_lt.mpr grown)
  | some kind' =>
    cases kind' with
    | initializer =>
      rw [kind] at told
      exact absurd (Resolve.reportOk told).2 (Nat.not_lt.mpr grown)
    | function => exact ⟨_, rfl, by decide⟩
    | method => exact ⟨_, rfl, by decide⟩

theorem walkFunction {f : FunDecl} (w : Walk L c (.stmt (.function f)) r r') (shaped : f.Shaped) :
    Walked L (c.declare f.name true) (.function f .function) := by
  obtain ⟨_, s, declared, rest⟩ := bindOk.mp w.run
  obtain ⟨_, t, defined, run⟩ := bindOk.mp rest
  obtain ⟨kept, scopes⟩ := Resolve.introduceOk declared defined
  refine w.inner (q := .function f .function) kept.adds run (.none rfl rfl) shaped
    (insideOfPerm (by rw [List.append_nil]; exact .refl _) w.nodup) ?_ ?_ ?_
  · rw [scopes, w.scopes, namesDeclare]
  · rw [kept.klass, w.klass, Context.klassDeclare]
  · rw [kept.function, w.function, Context.functionDeclare]

theorem walkBody {f : FunDecl} {kind : FunctionKind} (w : Walk L c (.function f kind) r r')
    (shaped : f.Shaped) : Walked L (c.inCall f kind) (.stmts f.body) := by
  cases f with
  | mk name params body =>
    obtain ⟨s, t, first, run, rfl⟩ := Resolve.funDeclOk w.run
    obtain ⟨kept, scopes⟩ := Resolve.parametersOk first rfl
    have before : Adds [] r s := ⟨kept.log, kept.locals⟩
    refine w.inner (q := .stmts body) before run (.none rfl rfl) shaped.2.2
      (insideOfPerm (by rw [List.append_nil]; exact .refl _) w.nodup) ?_ ?_ ?_
    · rw [scopes]
      exact congrArg (Context.parameterScope params [] :: ·) w.scopes
    · exact kept.klass.trans w.klass
    · exact kept.function

theorem getPutName {names : List Scope} {v : Token} {name : String} (apart : name ≠ v.lexeme) :
    (putName names (some v) true).map (·.get? name) = names.map (·.get? name) := by
  cases names with
  | nil => rfl
  | cons s outer => simp [putName, Bindings.get?_put_of_ne s true apart]

theorem depthOfGet {a b : List Scope} {name : String}
    (same : a.map (·.get? name) = b.map (·.get? name)) :
    Resolve.depth? a name = Resolve.depth? b name := by
  have plain : ∀ scopes : List Scope,
      Resolve.depth? scopes name = (scopes.map (·.get? name)).findIdx? (·.isSome) := by
    intro scopes
    rw [Resolve.depthEq, List.findIdx?_map]
    rfl
  rw [plain, plain, same]

theorem resolveLocalRuns (node : Nat) (use : Use) (u : Token) (r : Resolver) :
    ∃ r', Resolve.resolveLocal node use (some u) r = .ok () r' ∧ r'.log = r.log := by
  refine ⟨_, Resolve.resolveLocalRun node use u r, ?_⟩
  cases Resolve.depth? r.scopes u.lexeme <;> rfl

theorem referenceRuns (node : Nat) {u : Token} {r : Resolver}
    (ready : ∀ s ∈ r.scopes.head?, s.get? u.lexeme ≠ some false) :
    ∃ r', Resolve.reference node (some u) r = .ok () r' ∧ r'.log = r.log := by
  unfold Resolve.reference
  rw [getBind]
  cases scopes : r.scopes with
  | nil => exact ⟨r, rfl, rfl⟩
  | cons s outer =>
    have unready : ¬(s.get? u.lexeme == some false) = true := by
      simpa using ready s (by rw [scopes]; rfl)
    dsimp only
    rw [Resolve.lexemeBind, if_neg unready]
    exact resolveLocalRuns node .reference u r

theorem walkSuperclass {name : Option Token} {methods : List FunDecl} {base : Expr}
    (w : Walk L c (.stmt (.class_ name methods base)) r r')
    (shaped : (Stmt.class_ name methods base).Shaped) (given : base.isMissing = false) :
    Walked L c (.expr base) := by
  obtain ⟨declared, named, based, walked, first, second, third, fourth, rfl⟩ :=
    (Resolve.classOk w.run).steps
  obtain ⟨kept, scopes⟩ := Resolve.introduceOk first second
  have inner := Resolve.staysFunDecls methods shaped.2.1 fourth
  rcases shaped.2.2 with rfl | ⟨node, t, rfl, -⟩
  · cases given
  obtain ⟨u, v, s, s', rfl, rfl, grown, apart, same, run, rfl⟩ := Resolve.superclassOk third
  have reference := Resolve.staysExpr _ run
  have quiet : walked.log = r.log := w.silent
  have sLog : s.log = named.log := by
    have up : Reports walked.log named.log := by
      rw [quiet]
      exact kept.log
    exact Reports.antisymm ((reference.log.trans inner.log).trans up) grown
  have apart : u.lexeme ≠ v.lexeme := apart sLog
  have silent : s'.log = s.log := by
    refine Reports.antisymm (inner.log.trans ?_) reference.log
    rw [show walked.log = r.log from quiet, sLog]
    exact kept.log
  have agree : s.scopes.map (·.get? u.lexeme) = c.names.map (·.get? u.lexeme) := by
    rw [same]
    show named.scopes.map (·.get? u.lexeme) = _
    rw [scopes, ← w.scopes]
    exact getPutName apart
  have entry : ∀ other ∈ [node], named.locals.distance? other = none := fun other mem =>
    (kept.locals other (by simp)).trans (w.fresh other (List.mem_append_right _ mem))
  have outside : ∀ other ∈ [node], other ∉ FunDecl.nodesOf methods := fun other mem bad =>
    (List.nodup_append.mp w.nodup).2.2 other bad other mem rfl
  obtain ⟨entered, ready⟩ := (Resolve.referenceOk run).2 silent
  have ready' : ∀ x ∈ c.names.head?, x.get? u.lexeme ≠ some false := by
    intro x head
    have heads : s.scopes.head?.map (·.get? u.lexeme) = c.names.head?.map (·.get? u.lexeme) := by
      rw [← List.head?_map, ← List.head?_map, agree]
    rw [Option.mem_def.mp head, Option.map_some] at heads
    obtain ⟨y, first, get⟩ := Option.map_eq_some_iff.mp heads
    rw [← get]
    exact ready y first u rfl
  -- the same reference once more, among scopes that do not have the name of the class yet
  let early : Resolver := { s with scopes := c.names, klass := c.klass, function := c.function }
  obtain ⟨q, again, quiet'⟩ := referenceRuns node (u := u) (r := early) ready'
  have entered' := ((Resolve.referenceOk again).2 quiet').1
  have fresh : s.locals.distance? node = none := by
    rw [same]
    exact entry node (by simp)
  refine ⟨early, q, again, quiet', rfl, rfl, rfl, fun other mem => ?_, fun other mem => ?_,
    by simp [Part.nodes, Expr.nodes]⟩
  · cases List.mem_singleton.mp mem
    exact fresh
  · cases List.mem_singleton.mp mem
    refine (w.agree node (List.mem_append_right _ mem)).trans ?_
    refine (inner.locals node (outside node mem)).trans ((entered fresh).trans ?_)
    rw [entered' fresh, Option.bind_some, Option.bind_some, depthOfGet agree]

theorem walkMethods {fs : List FunDecl} (shaped : FunDecl.AllShaped fs) {f : FunDecl} (mem : f ∈ fs)
    {t : Token} (named : f.name = some t) (run : Resolve.funDecls fs r = .ok () r')
    (nodup : (FunDecl.nodesOf fs).Nodup) :
    ∃ pre post s s', Stays pre r s ∧ Resolve.funDecl f (Resolve.methodKind t.lexeme) s = .ok () s' ∧
      Stays post s' r' ∧ Inside (FunDecl.nodesOf fs) pre f.nodes post := by
  induction fs generalizing r with
  | nil => cases mem
  | cons g gs ih =>
    obtain ⟨u, s', isName, first, rest⟩ := Resolve.funDeclsOk run
    have kept := Resolve.staysFunDecl g shaped.1 first
    rcases List.mem_cons.mp mem with rfl | later
    · cases isName.symm.trans named
      exact ⟨[], _, r, s', .refl r, first, Resolve.staysFunDecls gs shaped.2 rest,
        insideOfPerm (.refl _) nodup⟩
    · obtain ⟨pre, post, q, q', before, middle, after, inside⟩ :=
        ih shaped.2 later rest (List.nodup_append.mp nodup).2.1
      refine ⟨g.nodes ++ pre, post, q, q', kept.trans before, middle, after, inside.nodup, ?_, ?_,
        inside.after⟩
      · intro node mem
        exact List.mem_append_right _ (inside.inside node mem)
      · intro node mem bad
        rcases List.mem_append.mp bad with bad | bad
        · exact (List.nodup_append.mp nodup).2.2 node bad node (inside.inside node mem) rfl
        · exact inside.before node mem bad

theorem Inside.widen {p p' pre pre' q post post' : List Nat} (h : Inside p pre q post)
    (sub : p ⊆ p') (early : ∀ node ∈ p, node ∉ pre') (late : ∀ node ∈ p, node ∉ post') :
    Inside p' (pre' ++ pre) q (post ++ post') where
  nodup := h.nodup
  inside node mem := sub (h.inside node mem)
  before node mem bad := (List.mem_append.mp bad).elim (early node (h.inside node mem))
    (h.before node mem)
  after node mem bad := (List.mem_append.mp bad).elim (h.after node mem)
    (late node (h.inside node mem))

theorem walkMethod {name : Option Token} {methods : List FunDecl} {base : Expr} {f : FunDecl}
    {t : Token} (w : Walk L c (.stmt (.class_ name methods base)) r r')
    (shaped : (Stmt.class_ name methods base).Shaped) (mem : f ∈ methods)
    (named : f.name = some t) :
    Walked L (((c.declare name true).inClass name methods base).inMethod f)
      (.function f (Resolve.methodKind t.lexeme)) := by
  obtain ⟨declared, done, based, walked, first, second, third, fourth, rfl⟩ :=
    (Resolve.classOk w.run).steps
  obtain ⟨kept, scopes⟩ := Resolve.introduceOk first second
  obtain ⟨own, -, apart⟩ := List.nodup_append.mp w.nodup
  obtain ⟨pre, post, s, s', before, run, after, inside⟩ :=
    walkMethods shaped.2.1 mem named fourth own
  -- what the walk through the superclass leaves behind
  have reached : Adds base.nodes r based ∧
      based.scopes = ((c.declare name true).inClass name methods base).names ∧
      based.klass = ((c.declare name true).inClass name methods base).klass ∧
      based.function = r.function := by
    have names : done.scopes = (c.declare name true).names := by
      rw [scopes, namesDeclare, ← w.scopes]
    rcases shaped.2.2 with rfl | ⟨node, u, rfl, -⟩
    · cases third
      exact ⟨⟨kept.log, kept.locals⟩, names, kept.klass, kept.function⟩
    · obtain ⟨u, v, q, q', rfl, rfl, grown, -, same, run, rfl⟩ := Resolve.superclassOk third
      have reference := Resolve.staysExpr _ run
      refine ⟨⟨?_, fun other out => ?_⟩, ?_, ?_, ?_⟩
      · exact kept.log.trans (grown.trans reference.log)
      · refine (reference.locals other out).trans ?_
        rw [same]
        exact kept.locals other (by simp)
      · refine congrArg ([("super", true)] :: ·) (reference.scopes.trans ?_)
        rw [same]
        exact names
      · refine reference.klass.trans ?_
        rw [same]
        rfl
      · refine reference.function.trans ?_
        rw [same]
        exact kept.function
  obtain ⟨early, names, klass, function⟩ := reached
  have entered : Adds (base.nodes ++ pre) r s :=
    early.trans ⟨before.log, before.locals⟩
  have left : Adds (post ++ []) s' { walked with
      scopes := if base.isMissing then walked.scopes.tail else walked.scopes.tail.tail
      klass := r.klass } := after.adds.trans (.none rfl rfl)
  refine w.inner (q := .function f (Resolve.methodKind t.lexeme)) entered run left
    (shapedOfMem shaped.2.1 mem) ?_ ?_ ?_ ?_
  · refine inside.widen (List.subset_append_left _ _) ?_ (by simp)
    intro node mem bad
    exact apart node mem node bad rfl
  · rw [before.scopes]
    exact congrArg ([("this", true)] :: ·) names
  · exact before.klass.trans klass
  · refine before.function.trans (function.trans (w.function.trans ?_))
    rw [← Context.functionDeclare c name true]
    unfold Context.inClass
    split <;> rfl

theorem Stands.walked {body : List Stmt} {p : Part} (h : Stands body c p)
    (whole : Stmt.AllShaped body) (start : Walked L {} (.stmts body)) : Walked L c p := by
  induction h with
  | program => exact start
  | assigned outer ih =>
    obtain ⟨r, r', w⟩ := ih
    exact walkAssigned w (outer.shaped whole).2
  | operand _ ih =>
    obtain ⟨r, r', w⟩ := ih
    exact w.whole w.run rfl
  | @binaryLeft c left op right outer ih =>
    obtain ⟨r, r', w⟩ := ih
    exact (w.pair left (.expr right) w.run rfl (outer.shaped whole)).1
  | @binaryRight c left op right outer ih =>
    obtain ⟨r, r', w⟩ := ih
    exact (w.pair left (.expr right) w.run rfl (outer.shaped whole)).2
  | @logicalLeft c left op right outer ih =>
    obtain ⟨r, r', w⟩ := ih
    exact (w.pair left (.expr right) w.run rfl (outer.shaped whole)).1
  | @logicalRight c left op right outer ih =>
    obtain ⟨r, r', w⟩ := ih
    exact (w.pair left (.expr right) w.run rfl (outer.shaped whole)).2
  | inner _ ih =>
    obtain ⟨r, r', w⟩ := ih
    exact w.whole w.run rfl
  | @callee c callee paren args outer ih =>
    obtain ⟨r, r', w⟩ := ih
    exact (w.pair callee (.exprs args) w.run rfl (outer.shaped whole)).1
  | @arguments c callee paren args outer ih =>
    obtain ⟨r, r', w⟩ := ih
    exact (w.pair callee (.exprs args) w.run rfl (outer.shaped whole)).2
  | @firstExpr c e es outer ih =>
    obtain ⟨r, r', w⟩ := ih
    exact (w.pair e (.exprs es) w.run rfl (outer.shaped whole)).1
  | @laterExprs c e es outer ih =>
    obtain ⟨r, r', w⟩ := ih
    exact (w.pair e (.exprs es) w.run rfl (outer.shaped whole)).2
  | getObject _ ih =>
    obtain ⟨r, r', w⟩ := ih
    exact w.whole w.run rfl
  | @setObject c object name value outer ih =>
    obtain ⟨r, r', w⟩ := ih
    exact (w.pair object (.expr value) w.run rfl (outer.shaped whole)).1
  | @setValue c object name value outer ih =>
    obtain ⟨r, r', w⟩ := ih
    exact (w.pair object (.expr value) w.run rfl (outer.shaped whole)).2
  | first outer ih =>
    obtain ⟨r, r', w⟩ := ih
    exact (walkFirst w (outer.shaped whole)).1
  | later outer ih =>
    obtain ⟨r, r', w⟩ := ih
    exact (walkFirst w (outer.shaped whole)).2
  | expression _ ih =>
    obtain ⟨r, r', w⟩ := ih
    exact w.whole w.run rfl
  | printed _ ih =>
    obtain ⟨r, r', w⟩ := ih
    exact w.whole w.run rfl
  | initializer outer given ih =>
    obtain ⟨r, r', w⟩ := ih
    exact walkInitializer w (outer.shaped whole).2 given
  | block outer ih =>
    obtain ⟨r, r', w⟩ := ih
    exact walkBlock w (outer.shaped whole)
  | ifCond outer ih =>
    obtain ⟨r, r', w⟩ := ih
    exact (walkIf w (outer.shaped whole)).1
  | yes outer ih =>
    obtain ⟨r, r', w⟩ := ih
    exact (walkIf w (outer.shaped whole)).2.1
  | no outer given ih =>
    obtain ⟨r, r', w⟩ := ih
    exact (walkIf w (outer.shaped whole)).2.2 given
  | @whileCond c cond s outer ih =>
    obtain ⟨r, r', w⟩ := ih
    obtain ⟨sc, sb, -⟩ := outer.shaped whole
    exact (w.pair cond (.stmt s) w.run rfl ⟨sc, sb⟩).1
  | @whileBody c cond s outer ih =>
    obtain ⟨r, r', w⟩ := ih
    obtain ⟨sc, sb, -⟩ := outer.shaped whole
    exact (w.pair cond (.stmt s) w.run rfl ⟨sc, sb⟩).2
  | returned outer given ih =>
    obtain ⟨r, r', w⟩ := ih
    exact walkReturn w (outer.shaped whole) given
  | function outer ih =>
    obtain ⟨r, r', w⟩ := ih
    exact walkFunction w (outer.shaped whole)
  | superclass outer given ih =>
    obtain ⟨r, r', w⟩ := ih
    exact walkSuperclass w (outer.shaped whole) given
  | method outer mem named ih =>
    obtain ⟨r, r', w⟩ := ih
    exact walkMethod w (outer.shaped whole) mem named
  | body outer ih =>
    obtain ⟨r, r', w⟩ := ih
    exact walkBody w (outer.shaped whole)

def Expr.use? : Expr → Option (Nat × Option Token)
  | .reference node name => some (node, name)
  | .assign node name _ => some (node, name)
  | .this node keyword => some (node, keyword)
  | .super node keyword _ => some (node, keyword)
  | _ => none

structure Charted (L : Locals) (body : List Stmt) : Prop where
  shaped : Stmt.AllShaped body
  distance : ∀ {c e node t}, Stands body c (.expr e) → e.use? = some (node, t) →
    L.distance? node = t.bind fun u => c.depth? u.lexeme
  ready : ∀ {c node u}, Stands body c (.expr (.reference node (some u))) →
    ∀ x ∈ c.scopes.head?, x.2.get? u.lexeme ≠ some false
  inClass : ∀ {c node t}, Stands body c (.expr (.this node t)) → c.klass.isSome = true
  inSubclass : ∀ {c node t method}, Stands body c (.expr (.super node t method)) →
    c.klass = some .subclass
  inFunction : ∀ {c keyword value}, Stands body c (.stmt (.return_ keyword value)) →
    ∃ kind, c.function = some kind ∧ kind ≠ .initializer

theorem Walk.entry {node : Nat} {t : Option Token} {e : Expr} (w : Walk L c (.expr e) r r')
    {s : Resolver} (mem : node ∈ e.nodes) (scopes : s.scopes = c.names)
    (fresh : s.locals.distance? node = none) (entered : Resolve.Entered node t s r') :
    L.distance? node = t.bind fun u => c.depth? u.lexeme := by
  rw [w.agree node mem, entered fresh, scopes]
  rfl

theorem Walk.distance {node : Nat} {t : Option Token} {e : Expr} (w : Walk L c (.expr e) r r')
    (use : e.use? = some (node, t)) : L.distance? node = t.bind fun u => c.depth? u.lexeme := by
  cases e with
  | reference =>
    cases use
    exact w.entry (by simp [Expr.nodes]) w.scopes (w.fresh node (by simp [Part.nodes, Expr.nodes]))
      ((Resolve.referenceOk w.run).2 w.silent).1
  | this =>
    cases use
    exact w.entry (by simp [Expr.nodes]) w.scopes (w.fresh node (by simp [Part.nodes, Expr.nodes]))
      ((Resolve.thisOk w.run).2 w.silent).1
  | super =>
    cases use
    exact w.entry (by simp [Expr.nodes]) w.scopes (w.fresh node (by simp [Part.nodes, Expr.nodes]))
      ((Resolve.superOk w.run).2 w.silent).1
  | assign node name value =>
    cases use
    obtain ⟨_, s, run, last⟩ := bindOk.mp w.run
    have kept := Resolve.staysExpr value run
    have apart : node ∉ value.nodes := fun bad =>
      (List.nodup_append.mp w.nodup).2.2 node bad node (by simp) rfl
    have fresh := w.fresh node (by simp [Part.nodes, Expr.nodes])
    exact w.entry (by simp [Expr.nodes]) (kept.scopes.trans w.scopes)
      ((kept.locals node apart).trans fresh) (Resolve.resolveLocalOk last).2
  | _ => cases use

theorem chartedOf {body : List Stmt} (shaped : Stmt.AllShaped body)
    (start : Walked L {} (.stmts body)) : Charted L body where
  shaped := shaped
  distance := by
    intro c e node t stands use
    obtain ⟨r, r', w⟩ := stands.walked shaped start
    exact w.distance use
  ready := by
    intro c node u stands x head
    obtain ⟨r, r', w⟩ := stands.walked shaped start
    obtain ⟨-, ready⟩ := (Resolve.referenceOk w.run).2 w.silent
    refine ready x.2 ?_ u rfl
    rw [w.scopes]
    show (c.scopes.map (·.2)).head? = some x.2
    rw [List.head?_map, Option.mem_def.mp head]
    rfl
  inClass := by
    intro c node t stands
    obtain ⟨r, r', w⟩ := stands.walked shaped start
    rw [← w.klass]
    exact ((Resolve.thisOk w.run).2 w.silent).2
  inSubclass := by
    intro c node t method stands
    obtain ⟨r, r', w⟩ := stands.walked shaped start
    rw [← w.klass]
    exact ((Resolve.superOk w.run).2 w.silent).2
  inFunction := by
    intro c keyword value stands
    obtain ⟨r, r', w⟩ := stands.walked shaped start
    exact walkReturnInside w

end Lox
