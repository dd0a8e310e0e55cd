import Lox.Proofs.Scopes.Places
import Lox.Proofs.Sequence

/-!
The resolver's walk. It leaves the scopes, the function and the class as it found them, adds to the
log, and touches the entries of the nodes it visits and no others. A walk without a report records
for every use of a name how many scopes out the name is where the use stands.
-/

namespace Lox

theorem distanceCons (l : Local) (ls : Locals) (node : Nat) :
    Locals.distance? (l :: ls) node = if l.node = node then some l.distance else
      Locals.distance? ls node := by
  by_cases same : l.node = node <;> simp [Locals.distance?, same]

theorem distanceRecord (ls : Locals) (l : Local) (node : Nat) :
    (ls.record l).distance? node = if l.node = node then some l.distance else
      ls.distance? node := by
  induction ls with
  | nil => exact distanceCons l [] node
  | cons k ks ih =>
    unfold Locals.record
    by_cases same : k.node = l.node
    · rw [if_pos same, distanceCons, distanceCons]
      by_cases here : l.node = node
      · rw [if_pos here, if_pos here]
      · rw [if_neg here, if_neg here, if_neg (same ▸ here)]
    · rw [if_neg same, distanceCons, distanceCons, ih]
      by_cases here : l.node = node
      · rw [if_pos here, if_pos here, if_neg (fun there => same (there.trans here.symm))]
      · rw [if_neg here, if_neg here]

def Reports (log log' : Log) : Prop :=
  ∃ messages : List String, log' = log ++ messages.map .resolution

namespace Reports

theorem refl (log : Log) : Reports log log := ⟨[], by simp⟩

theorem trans {a b c : Log} (first : Reports a b) (rest : Reports b c) : Reports a c := by
  obtain ⟨ms, rfl⟩ := first
  obtain ⟨ns, rfl⟩ := rest
  exact ⟨ms ++ ns, by simp⟩

theorem length_le {a b : Log} (h : Reports a b) : a.length ≤ b.length := by
  obtain ⟨ms, rfl⟩ := h
  simp

theorem antisymm {a b : Log} (h : Reports a b) (back : Reports b a) : a = b := by
  have le := back.length_le
  obtain ⟨ms, rfl⟩ := h
  have none : ms = [] := by
    rw [List.length_append, List.length_map] at le
    exact List.length_eq_zero_iff.mp (by omega)
  simp [none]

theorem resolutionAppend (log : Log) (ms : List String) :
    (log ++ ms.map .resolution : Log).resolution = log.resolution ++ ms := by
  simp only [Log.resolution, List.filterMap_append, List.filterMap_map]
  exact congrArg _ (List.filterMap_some)

theorem silent {a b : Log} (h : Reports a b) (none : b.resolution = []) : b = a := by
  obtain ⟨ms, rfl⟩ := h
  rw [resolutionAppend, List.append_eq_nil_iff] at none
  simp [none.2]

end Reports

structure Steady (nodes : List Nat) (r r' : Resolver) : Prop where
  log : Reports r.log r'.log
  locals : ∀ node, node ∉ nodes → r'.locals.distance? node = r.locals.distance? node
  function : r'.function = r.function
  klass : r'.klass = r.klass

theorem Steady.refl (r : Resolver) : Steady [] r r :=
  ⟨.refl _, fun _ _ => rfl, rfl, rfl⟩

theorem Steady.trans {a b : List Nat} {r s t : Resolver} (first : Steady a r s)
    (rest : Steady b s t) : Steady (a ++ b) r t where
  log := first.log.trans rest.log
  locals node out := by
    rw [List.mem_append, not_or] at out
    exact (rest.locals node out.2).trans (first.locals node out.1)
  function := rest.function.trans first.function
  klass := rest.klass.trans first.klass

theorem Steady.mono {a b : List Nat} {r s : Resolver} (h : Steady a r s) (sub : a ⊆ b) :
    Steady b r s :=
  { h with locals := fun node out => h.locals node fun mem => out (sub mem) }

structure Stays (nodes : List Nat) (r r' : Resolver) : Prop extends Steady nodes r r' where
  scopes : r'.scopes = r.scopes

theorem Stays.trans {a b : List Nat} {r s t : Resolver} (first : Stays a r s)
    (rest : Stays b s t) : Stays (a ++ b) r t :=
  ⟨first.toSteady.trans rest.toSteady, rest.scopes.trans first.scopes⟩

theorem Stays.refl (r : Resolver) : Stays [] r r := ⟨.refl r, rfl⟩

def putName (scopes : List Scope) (t : Option Token) (ready : Bool) : List Scope :=
  match t, scopes with
  | some t, s :: outer => s.put t.lexeme ready :: outer
  | _, _ => scopes

theorem tailPutName (scopes : List Scope) (t : Option Token) (ready : Bool) :
    (putName scopes t ready).tail = scopes.tail := by
  unfold putName
  split <;> rfl

theorem putNameNone (scopes : List Scope) (ready : Bool) : putName scopes none ready = scopes := by
  cases scopes <;> rfl

theorem Bindings.put_put {α : Type} (b : Bindings α) (name : String) (v w : α) :
    (b.put name v).put name w = b.put name w := by
  induction b with
  | nil => simp [put]
  | cons p rest ih =>
    obtain ⟨n, u⟩ := p
    by_cases same : n = name <;> simp [put, same, ih]

theorem putNameTwice (scopes : List Scope) (t : Option Token) (ready ready' : Bool) :
    putName (putName scopes t ready) t ready' = putName scopes t ready' := by
  cases t with
  | none => simp only [putNameNone]
  | some t =>
    cases scopes with
    | nil => rfl
    | cons s outer => simp [putName, Bindings.put_put]

theorem namesDeclare (c : Context) (t : Option Token) (ready : Bool) :
    (c.declare t ready).names = putName c.names t ready := by
  unfold Context.declare putName Context.names
  cases t with
  | none => rfl
  | some t =>
    cases scopes : c.scopes with
    | nil => simp [scopes]
    | cons x outer => rfl

namespace Resolve

theorem lexemeOk {t : Option Token} {r r' : Resolver} {name : String}
    (h : lexeme t r = .ok name r') : r' = r ∧ ∃ u, t = some u ∧ u.lexeme = name := by
  cases t with
  | none => cases h
  | some u =>
    cases h
    exact ⟨rfl, u, rfl, rfl⟩

theorem lexemeBind {α : Type} (u : Token) (f : String → Resolve α) (r : Resolver) :
    (lexeme (some u) >>= f) r = f u.lexeme r := rfl

theorem reportOk {message : String} {r r' : Resolver} (h : report message r = .ok () r') :
    Stays [] r r' ∧ r.log.length < r'.log.length := by
  cases h
  exact ⟨⟨⟨⟨[message], rfl⟩, fun _ _ => rfl, rfl, rfl⟩, rfl⟩, by simp⟩

def Entered (node : Nat) (t : Option Token) (r r' : Resolver) : Prop :=
  r.locals.distance? node = none →
    r'.locals.distance? node = t.bind fun u => depth? r.scopes u.lexeme

theorem resolveLocalRun (node : Nat) (use : Use) (t : Token) (r : Resolver) :
    resolveLocal node use (some t) r = .ok () ((depth? r.scopes t.lexeme).elim r fun d =>
      { r with locals := r.locals.record ⟨node, use, t.lexeme, d⟩ }) := by
  obtain ⟨scopes, function, klass, locals, log⟩ := r
  unfold resolveLocal
  rw [getBind]
  cases scopes with
  | nil => rfl
  | cons scope outer =>
    rw [if_neg (by simp), lexemeBind]
    cases depth? (scope :: outer) t.lexeme <;> rfl

theorem resolveLocalNone {node : Nat} {use : Use} {r r' : Resolver}
    (h : resolveLocal node use none r = .ok () r') : r.scopes = [] ∧ r' = r := by
  obtain ⟨_, _, got, start⟩ := bindOk.mp h
  cases got
  by_cases empty : r.scopes = []
  · rw [if_pos (by simp [empty])] at start
    cases start
    exact ⟨empty, rfl⟩
  · rw [if_neg (by simpa using empty)] at start
    cases start

theorem resolveLocalOk {node : Nat} {use : Use} {t : Option Token} {r r' : Resolver}
    (h : resolveLocal node use t r = .ok () r') :
    Stays [node] r r' ∧ Entered node t r r' := by
  have still : Stays [node] r r := ⟨(Steady.refl r).mono (by simp), rfl⟩
  cases t with
  | none =>
    obtain ⟨-, rfl⟩ := resolveLocalNone h
    exact ⟨still, id⟩
  | some u =>
    rw [resolveLocalRun] at h
    cases h
    unfold Entered
    cases found : depth? r.scopes u.lexeme with
    | none => exact ⟨still, fun fresh => fresh.trans (by rw [Option.bind_some, found])⟩
    | some d =>
      refine ⟨⟨⟨.refl _, fun other out => ?_, rfl, rfl⟩, rfl⟩, fun _ => ?_⟩
      · show (r.locals.record _).distance? other = _
        rw [distanceRecord, if_neg (by simpa [eq_comm] using out)]
      · show (r.locals.record _).distance? node = _
        rw [distanceRecord, if_pos rfl, Option.bind_some, found]

theorem declareOk {t : Option Token} {r r' : Resolver} (h : declare t r = .ok () r') :
    Steady [] r r' ∧ r'.scopes = putName r.scopes t false := by
  obtain ⟨_, _, got, start⟩ := bindOk.mp h
  cases got
  cases scopes : r.scopes with
  | nil =>
    rw [scopes] at start
    cases start
    exact ⟨.refl r, by cases t <;> simp [putName, scopes]⟩
  | cons s outer =>
    rw [scopes] at start
    obtain ⟨name, r₁, named, rest⟩ := bindOk.mp start
    obtain ⟨rfl, u, rfl, rfl⟩ := lexemeOk named
    have marked : ∀ r₂ : Resolver, r₂.scopes = s :: outer → Steady [] r₁ r₂ →
        mark u.lexeme false r₂ = .ok () r' →
        Steady [] r₁ r' ∧ r'.scopes = putName (s :: outer) (some u) false := by
      intro r₂ scopes₂ steady run
      rw [mark, modifyRun, scopes₂] at run
      cases run
      exact ⟨⟨steady.log, steady.locals, steady.function, steady.klass⟩, rfl⟩
    dsimp only at rest
    split at rest
    · obtain ⟨_, r₂, reported, run⟩ := bindOk.mp rest
      have kept := (reportOk reported).1
      exact marked r₂ (kept.scopes.trans scopes) kept.toSteady run
    · exact marked r₁ scopes (.refl r₁) rest

theorem defineOk {t : Option Token} {r r' : Resolver} (h : define t r = .ok () r') :
    Steady [] r r' ∧ r'.scopes = putName r.scopes t true := by
  obtain ⟨_, _, got, start⟩ := bindOk.mp h
  cases got
  cases scopes : r.scopes with
  | nil =>
    rw [if_pos (by simp [scopes])] at start
    cases start
    exact ⟨.refl r, by cases t <;> simp [putName, scopes]⟩
  | cons s outer =>
    rw [if_neg (by simp [scopes])] at start
    obtain ⟨name, r₁, named, rest⟩ := bindOk.mp start
    obtain ⟨rfl, u, rfl, rfl⟩ := lexemeOk named
    rw [mark, modifyRun, scopes] at rest
    cases rest
    exact ⟨⟨.refl _, fun _ _ => rfl, rfl, rfl⟩, rfl⟩

theorem introduceOk {t : Option Token} {r s r' : Resolver} (declared : declare t r = .ok () s)
    (defined : define t s = .ok () r') :
    Steady [] r r' ∧ r'.scopes = putName r.scopes t true := by
  obtain ⟨first, scopes⟩ := declareOk declared
  obtain ⟨second, scopes'⟩ := defineOk defined
  exact ⟨first.trans second, by rw [scopes', scopes, putNameTwice]⟩

theorem reported {nodes : List Nat} {message : String} {r s r' : Resolver}
    (first : report message r = .ok () s) (rest : Steady nodes s r') : r'.log ≠ r.log := by
  intro same
  have more := (reportOk first).2
  have kept := rest.log.length_le
  rw [same] at kept
  omega

theorem referenceOk {node : Nat} {t : Option Token} {r r' : Resolver}
    (h : reference node t r = .ok () r') :
    Stays [node] r r' ∧ (r'.log = r.log → Entered node t r r' ∧
      ∀ s ∈ r.scopes.head?, ∀ u, t = some u → s.get? u.lexeme ≠ some false) := by
  obtain ⟨_, _, got, start⟩ := bindOk.mp h
  cases got
  cases scopes : r.scopes with
  | nil =>
    rw [scopes] at start
    cases start
    refine ⟨⟨(Steady.refl r).mono (by simp), rfl⟩, fun _ => ⟨fun fresh => ?_, ?_⟩⟩
    · rw [fresh, scopes]
      cases t <;> rfl
    · rintro s ⟨⟩
  | cons s outer =>
    rw [scopes] at start
    obtain ⟨name, r₁, named, rest⟩ := bindOk.mp start
    obtain ⟨rfl, u, rfl, rfl⟩ := lexemeOk named
    dsimp only at rest
    split at rest
    · obtain ⟨_, r₂, first, run⟩ := bindOk.mp rest
      have kept := (resolveLocalOk run).1
      exact ⟨(reportOk first).1.trans kept, fun same => absurd same (reported first kept.toSteady)⟩
    · next ready =>
      obtain ⟨kept, entered⟩ := resolveLocalOk rest
      refine ⟨kept, fun _ => ⟨entered, ?_⟩⟩
      rintro _ ⟨⟩ _ ⟨⟩
      simpa using ready

theorem thisOk {node : Nat} {t : Option Token} {r r' : Resolver}
    (h : this node t r = .ok () r') :
    Stays [node] r r' ∧ (r'.log = r.log → Entered node t r r' ∧ r.klass.isSome = true) := by
  obtain ⟨_, _, got, start⟩ := bindOk.mp h
  cases got
  split at start
  · obtain ⟨name, r₁, named, first⟩ := bindOk.mp start
    obtain ⟨rfl, -⟩ := lexemeOk named
    have kept := (reportOk first).1
    exact ⟨⟨kept.toSteady.mono (by simp), kept.scopes⟩,
      fun same => absurd same (reported first (Steady.refl _))⟩
  · next inside =>
    obtain ⟨kept, entered⟩ := resolveLocalOk start
    exact ⟨kept, fun _ => ⟨entered, by simpa [Option.isSome_iff_ne_none] using inside⟩⟩

theorem superOk {node : Nat} {t : Option Token} {r r' : Resolver}
    (h : super node t r = .ok () r') :
    Stays [node] r r' ∧ (r'.log = r.log → Entered node t r r' ∧ r.klass = some .subclass) := by
  have outside : ∀ message : String → String,
      (do report (message (← lexeme t)); resolveLocal node .super t : Resolve Unit) r = .ok () r' →
      Stays [node] r r' ∧ r'.log ≠ r.log := by
    intro message run
    obtain ⟨name, r₁, named, rest⟩ := bindOk.mp run
    obtain ⟨rfl, -⟩ := lexemeOk named
    obtain ⟨_, r₂, first, run⟩ := bindOk.mp rest
    have kept := (resolveLocalOk run).1
    exact ⟨(reportOk first).1.trans kept, reported first kept.toSteady⟩
  unfold super at h
  obtain ⟨_, _, got, run⟩ := bindOk.mp h
  cases got
  cases inside : r.klass with
  | none =>
    rw [inside] at run
    obtain ⟨kept, differ⟩ := outside _ run
    exact ⟨kept, fun same => absurd same differ⟩
  | some k =>
    rw [inside] at run
    cases k with
    | plain =>
      obtain ⟨kept, differ⟩ := outside _ run
      exact ⟨kept, fun same => absurd same differ⟩
    | subclass =>
      obtain ⟨kept, entered⟩ := resolveLocalOk run
      exact ⟨kept, fun _ => ⟨entered, rfl⟩⟩

mutual

theorem staysExpr (e : Expr) {r r' : Resolver} (h : expr e r = .ok () r') :
    Stays e.nodes r r' := by
  cases e with
  | missing => cases h
  | literal d =>
    cases h
    exact .refl r
  | reference node name => exact (referenceOk h).1
  | this node keyword => exact (thisOk h).1
  | super node keyword method => exact (superOk h).1
  | assign node name value =>
    obtain ⟨_, s, first, rest⟩ := bindOk.mp h
    exact (staysExpr value first).trans (resolveLocalOk rest).1
  | unary op right => exact staysExpr right h
  | binary left op right =>
    obtain ⟨_, s, first, rest⟩ := bindOk.mp h
    exact (staysExpr left first).trans (staysExpr right rest)
  | logical left op right =>
    obtain ⟨_, s, first, rest⟩ := bindOk.mp h
    exact (staysExpr left first).trans (staysExpr right rest)
  | grouping inner => exact staysExpr inner h
  | call callee paren args =>
    obtain ⟨_, s, first, rest⟩ := bindOk.mp h
    exact (staysExpr callee first).trans (staysExprs args rest)
  | get object name => exact staysExpr object h
  | set object name value =>
    obtain ⟨_, s, first, rest⟩ := bindOk.mp h
    exact (staysExpr object first).trans (staysExpr value rest)

theorem staysExprs (es : List Expr) {r r' : Resolver} (h : exprs es r = .ok () r') :
    Stays (Expr.nodesOf es) r r' := by
  cases es with
  | nil =>
    cases h
    exact .refl r
  | cons e es =>
    obtain ⟨_, s, first, rest⟩ := bindOk.mp h
    exact (staysExpr e first).trans (staysExprs es rest)

end

theorem staysOptional (e : Expr) {r r' : Resolver}
    (h : (if !e.isMissing then expr e else pure () : Resolve Unit) r = .ok () r') :
    Stays e.nodes r r' := by
  split at h
  · exact staysExpr e h
  · cases h
    exact ⟨(Steady.refl r).mono (by simp), rfl⟩

theorem staysReturn {keyword : Option Token} {r r' : Resolver}
    (h : return_ keyword r = .ok () r') : Stays [] r r' := by
  obtain ⟨_, _, got, run⟩ := bindOk.mp h
  cases got
  generalize r.function = kind at run
  split at run
  · exact (reportOk run).1
  · exact (reportOk run).1
  · cases run
    exact .refl r

structure ClassWalk (name : Option Token) (methods : List FunDecl) (base : Expr)
    (r r' : Resolver) : Prop where
  steps : ∃ declared named based walked : Resolver,
    declare name { r with klass := some .plain } = .ok () declared ∧
    define name declared = .ok () named ∧
    (if base.isMissing then based = named else superclass name base named = .ok () based) ∧
    funDecls methods { based with scopes := [("this", true)] :: based.scopes } = .ok () walked ∧
    r' = { walked with
      scopes := if base.isMissing then walked.scopes.tail else walked.scopes.tail.tail
      klass := r.klass }

theorem classOk {name : Option Token} {methods : List FunDecl} {base : Expr} {r r' : Resolver}
    (h : stmt (.class_ name methods base) r = .ok () r') : ClassWalk name methods base r r' := by
  obtain ⟨_, _, got, h⟩ := bindOk.mp h
  cases got
  obtain ⟨_, _, plain, h⟩ := bindOk.mp h
  cases plain
  obtain ⟨_, declared, first, h⟩ := bindOk.mp h
  obtain ⟨_, named, second, h⟩ := bindOk.mp h
  dsimp only at h
  split at h
  · next given =>
    have given : base.isMissing = false := by simpa using given
    obtain ⟨_, based, third, h⟩ := bindOk.mp h
    obtain ⟨_, _, pushed, h⟩ := bindOk.mp h
    cases pushed
    obtain ⟨_, walked, fourth, h⟩ := bindOk.mp h
    obtain ⟨_, _, popped, h⟩ := bindOk.mp h
    cases popped
    obtain ⟨_, _, popped, h⟩ := bindOk.mp h
    cases popped
    cases h
    exact ⟨declared, named, based, walked, first, second, by simpa [given] using third, fourth,
      by simp [given]⟩
  · next given =>
    have given : base.isMissing = true := by simpa using given
    obtain ⟨_, _, pushed, h⟩ := bindOk.mp h
    cases pushed
    obtain ⟨_, walked, fourth, h⟩ := bindOk.mp h
    obtain ⟨_, _, popped, h⟩ := bindOk.mp h
    cases popped
    cases h
    exact ⟨declared, named, named, walked, first, second, by simp [given], fourth,
      by simp [given]⟩

theorem blockOk {body : List Stmt} {r r' : Resolver} (h : stmt (.block body) r = .ok () r') :
    ∃ s, stmts body { r with scopes := [] :: r.scopes } = .ok () s ∧
      r' = { s with scopes := s.scopes.tail } := by
  obtain ⟨_, _, pushed, rest⟩ := bindOk.mp h
  cases pushed
  obtain ⟨_, s, run, popped⟩ := bindOk.mp rest
  cases popped
  exact ⟨s, run, rfl⟩

theorem stmtsOk {s : Stmt} {ss : List Stmt} {r r' : Resolver} (h : stmts (s :: ss) r = .ok () r') :
    ∃ t, stmt s r = .ok () t ∧ stmts ss t = .ok () r' := by
  unfold stmts at h
  dsimp only at h
  split at h
  · cases h
  · obtain ⟨_, t, first, rest⟩ := bindOk.mp h
    exact ⟨t, first, rest⟩

theorem funDeclOk {f : FunDecl} {kind : FunctionKind} {r r' : Resolver}
    (h : funDecl f kind r = .ok () r') :
    ∃ s t, parameters f.params { r with function := some kind, scopes := [] :: r.scopes } =
        .ok () s ∧ stmts f.body s = .ok () t ∧
      r' = { t with scopes := t.scopes.tail, function := r.function } := by
  cases f with
  | mk name params body =>
    obtain ⟨_, _, got, h⟩ := bindOk.mp h
    cases got
    obtain ⟨_, _, changed, h⟩ := bindOk.mp h
    cases changed
    obtain ⟨_, _, pushed, h⟩ := bindOk.mp h
    cases pushed
    obtain ⟨_, s, first, h⟩ := bindOk.mp h
    obtain ⟨_, t, run, h⟩ := bindOk.mp h
    obtain ⟨_, _, popped, h⟩ := bindOk.mp h
    cases popped
    cases h
    exact ⟨s, t, first, run, rfl⟩

theorem funDeclsOk {f : FunDecl} {fs : List FunDecl} {r r' : Resolver}
    (h : funDecls (f :: fs) r = .ok () r') :
    ∃ t s, f.name = some t ∧ funDecl f (methodKind t.lexeme) r = .ok () s ∧
      funDecls fs s = .ok () r' := by
  obtain ⟨name, _, called, walk⟩ := bindOk.mp h
  obtain ⟨rfl, t, named, rfl⟩ := lexemeOk called
  obtain ⟨_, s, first, rest⟩ := bindOk.mp walk
  exact ⟨t, s, named, first, rest⟩

theorem superclassOk {node : Nat} {t name : Option Token} {r r' : Resolver}
    (h : superclass name (.reference node t) r = .ok () r') :
    ∃ u v s s', t = some u ∧ name = some v ∧ Reports r.log s.log ∧
      (s.log = r.log → u.lexeme ≠ v.lexeme) ∧ s = { r with klass := some .subclass, log := s.log } ∧
      expr (.reference node t) s = .ok () s' ∧
      r' = { s' with scopes := [("super", true)] :: s'.scopes } := by
  obtain ⟨_, _, found, h⟩ := bindOk.mp h
  cases found
  obtain ⟨_, r₁, first, h⟩ := bindOk.mp h
  obtain ⟨rfl, u, rfl, rfl⟩ := lexemeOk first
  obtain ⟨_, r₂, second, h⟩ := bindOk.mp h
  obtain ⟨rfl, v, rfl, rfl⟩ := lexemeOk second
  dsimp only at h
  split at h
  · obtain ⟨_, s, report, h⟩ := bindOk.mp h
    obtain ⟨_, _, plain, h⟩ := bindOk.mp h
    cases plain
    obtain ⟨_, s', run, h⟩ := bindOk.mp h
    cases h
    have more := (reportOk report).2
    cases report
    refine ⟨u, v, _, s', rfl, rfl, ⟨[_], rfl⟩, fun same => ?_, rfl, run, rfl⟩
    simp at same
  · next apart =>
    obtain ⟨_, _, plain, h⟩ := bindOk.mp h
    cases plain
    obtain ⟨_, s', run, h⟩ := bindOk.mp h
    cases h
    exact ⟨u, v, { r₂ with klass := some .subclass }, s', rfl, rfl, .refl _,
      fun _ => by simpa using apart, rfl, run, rfl⟩

def namesAfter (scopes : List Scope) : List Stmt → List Scope
  | [] => scopes
  | s :: ss => namesAfter (putName scopes s.declared true) ss

theorem tailNamesAfter (scopes : List Scope) (ss : List Stmt) :
    (namesAfter scopes ss).tail = scopes.tail := by
  induction ss generalizing scopes with
  | nil => rfl
  | cons s ss ih => rw [namesAfter, ih, tailPutName]

theorem parametersOk {ps : List (Option Token)} {r r' : Resolver}
    (h : parameters ps r = .ok () r') {names : Scope} {outer : List Scope}
    (start : r.scopes = names :: outer) :
    Steady [] r r' ∧ r'.scopes = Context.parameterScope ps names :: outer := by
  induction ps generalizing r names with
  | nil =>
    cases h
    exact ⟨.refl _, start⟩
  | cons p ps ih =>
    obtain ⟨_, s, declared, h⟩ := bindOk.mp h
    obtain ⟨_, t, defined, rest⟩ := bindOk.mp h
    obtain ⟨kept, scopes⟩ := introduceOk declared defined
    rw [start] at scopes
    cases p with
    | none =>
      obtain ⟨later, done⟩ := ih rest scopes
      exact ⟨kept.trans later, done⟩
    | some u =>
      obtain ⟨later, done⟩ := ih rest scopes
      exact ⟨kept.trans later, done⟩

theorem undeclared {s : Stmt} (h : s.isDeclaration = false) : s.declared = none := by
  cases s <;> first | rfl | cases h

mutual

theorem steadyStmt (s : Stmt) (shaped : s.Shaped) {r r' : Resolver} (h : stmt s r = .ok () r') :
    Steady s.nodes r r' ∧ r'.scopes = putName r.scopes s.declared true := by
  have still : ∀ {nodes : List Nat} {r' : Resolver}, Stays nodes r r' →
      Steady nodes r r' ∧ r'.scopes = putName r.scopes none true :=
    fun kept => ⟨kept.toSteady, by rw [kept.scopes, putNameNone]⟩
  cases s with
  | missing => cases h
  | expression e => exact still (staysExpr e h)
  | print e => exact still (staysExpr e h)
  | var name init =>
    obtain ⟨_, s, declared, rest⟩ := bindOk.mp h
    obtain ⟨kept, scopes⟩ := declareOk declared
    have walked : ∃ t, Stays init.nodes s t ∧ define name t = .ok () r' := by
      dsimp only at rest
      split at rest
      · obtain ⟨_, t, run, rest⟩ := bindOk.mp rest
        exact ⟨t, staysExpr init run, rest⟩
      · exact ⟨s, ⟨(Steady.refl s).mono (by simp), rfl⟩, rest⟩
    obtain ⟨t, inner, defined⟩ := walked
    obtain ⟨kept', scopes'⟩ := defineOk defined
    refine ⟨(kept.trans (inner.toSteady.trans kept')).mono (by simp [Stmt.nodes]), ?_⟩
    rw [scopes', inner.scopes, scopes, putNameTwice]
    rfl
  | block body =>
    obtain ⟨s, run, rfl⟩ := blockOk h
    obtain ⟨kept, scopes⟩ := steadyStmts body shaped run
    have outer : s.scopes.tail = r.scopes :=
      (congrArg List.tail scopes).trans (tailNamesAfter _ body)
    exact still ⟨⟨kept.log, kept.locals, kept.function, kept.klass⟩, outer⟩
  | if_ cond yes no =>
    obtain ⟨sc, sy, sn, yesPlain, noPlain⟩ := shaped
    obtain ⟨_, s, first, rest⟩ := bindOk.mp h
    obtain ⟨_, t, second, rest⟩ := bindOk.mp rest
    obtain ⟨kept, scopes⟩ := steadyStmt yes sy second
    rw [undeclared yesPlain, putNameNone] at scopes
    have last : Stays no.nodes t r' := by
      split at rest
      · obtain ⟨kept, scopes⟩ := steadyStmt no sn rest
        exact ⟨kept, by rw [scopes, undeclared noPlain, putNameNone]⟩
      · cases rest
        exact ⟨(Steady.refl _).mono (by simp), rfl⟩
    exact still ((staysExpr cond first).trans (Stays.trans ⟨kept, scopes⟩ last))
  | while_ cond body =>
    obtain ⟨sc, sb, plain⟩ := shaped
    obtain ⟨_, s, first, rest⟩ := bindOk.mp h
    obtain ⟨kept, scopes⟩ := steadyStmt body sb rest
    rw [undeclared plain, putNameNone] at scopes
    exact still ((staysExpr cond first).trans ⟨kept, scopes⟩)
  | function f =>
    obtain ⟨_, s, declared, rest⟩ := bindOk.mp h
    obtain ⟨_, t, defined, rest⟩ := bindOk.mp rest
    obtain ⟨kept, scopes⟩ := introduceOk declared defined
    have inner := staysFunDecl f shaped rest
    exact ⟨kept.trans inner.toSteady, inner.scopes.trans scopes⟩
  | return_ keyword value =>
    obtain ⟨_, s, first, rest⟩ := bindOk.mp h
    exact still ((staysReturn first).trans (staysOptional value rest))
  | class_ name methods base =>
    obtain ⟨declared, named, based, walked, first, second, third, fourth, rfl⟩ := (classOk h).steps
    obtain ⟨kept, scopes⟩ := introduceOk first second
    have inner := staysFunDecls methods shaped.2.1 fourth
    rcases shaped.2.2 with rfl | ⟨node, t, rfl, -⟩
    · cases third
      refine ⟨⟨kept.log.trans inner.log, fun other out => ?_, ?_, rfl⟩, ?_⟩
      · have out : other ∉ FunDecl.nodesOf methods := fun mem => out (List.mem_append_left _ mem)
        exact (inner.locals other out).trans (kept.locals other (by simp))
      · exact inner.function.trans kept.function
      · exact (congrArg List.tail inner.scopes).trans scopes
    · obtain ⟨u, v, s, s', rfl, rfl, grown, -, same, run, rfl⟩ := superclassOk third
      have reference := staysExpr _ run
      refine ⟨⟨?_, fun other out => ?_, ?_, rfl⟩, ?_⟩
      · exact kept.log.trans (grown.trans (reference.log.trans inner.log))
      · have outside := fun mem => out (List.mem_append_left _ mem)
        have apart := fun mem => out (List.mem_append_right _ mem)
        refine (inner.locals other outside).trans ((reference.locals other apart).trans ?_)
        rw [same]
        exact kept.locals other (by simp)
      · refine inner.function.trans (reference.function.trans ?_)
        rw [same]
        exact kept.function
      · refine (congrArg (·.tail.tail) inner.scopes).trans (reference.scopes.trans ?_)
        rw [same]
        exact scopes

theorem steadyStmts (ss : List Stmt) (shaped : Stmt.AllShaped ss) {r r' : Resolver}
    (h : stmts ss r = .ok () r') :
    Steady (Stmt.nodesOf ss) r r' ∧ r'.scopes = namesAfter r.scopes ss := by
  cases ss with
  | nil =>
    cases h
    exact ⟨.refl r, rfl⟩
  | cons s ss =>
    obtain ⟨t, first, rest⟩ := stmtsOk h
    obtain ⟨kept, scopes⟩ := steadyStmt s shaped.1 first
    obtain ⟨later, done⟩ := steadyStmts ss shaped.2 rest
    exact ⟨kept.trans later, by rw [done, scopes, namesAfter]⟩

theorem staysFunDecl (f : FunDecl) (shaped : f.Shaped) {kind : FunctionKind} {r r' : Resolver}
    (h : funDecl f kind r = .ok () r') : Stays f.nodes r r' := by
  cases f with
  | mk name params body =>
    obtain ⟨s, t, first, run, rfl⟩ := funDeclOk h
    obtain ⟨kept, scopes⟩ := parametersOk first rfl
    obtain ⟨later, done⟩ := steadyStmts body shaped.2.2 run
    have whole := kept.trans later
    refine ⟨⟨whole.log, whole.locals, rfl, whole.klass⟩, ?_⟩
    refine (congrArg List.tail done).trans ((tailNamesAfter _ body).trans ?_)
    rw [scopes]
    rfl

theorem staysFunDecls (fs : List FunDecl) (shaped : FunDecl.AllShaped fs) {r r' : Resolver}
    (h : funDecls fs r = .ok () r') : Stays (FunDecl.nodesOf fs) r r' := by
  cases fs with
  | nil =>
    cases h
    exact .refl r
  | cons f fs =>
    obtain ⟨t, s, -, first, rest⟩ := funDeclsOk h
    exact (staysFunDecl f shaped.1 first).trans (staysFunDecls fs shaped.2 rest)

end

end Resolve
end Lox
