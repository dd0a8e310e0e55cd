import Lox.Proofs.Trees
import Lox.Resolution

/-!
Where the parts of a program stand: which scopes are open around a part, what each of them was
opened for, and which names it has there. A part of the program is reached from the whole by going
into one part after the other; the scopes follow the text alone.
-/

namespace Lox

inductive Site where
  | block (body : List Stmt)
  | call (f : FunDecl)
  | this (method : FunDecl)
  | super (name : Option Token) (methods : List FunDecl)

structure Context where
  scopes : List (Site × Scope) := []
  function : Option FunctionKind := none
  klass : Option ClassKind := none

def Stmt.declared : Stmt → Option Token
  | .var name _ => name
  | .function f => f.name
  | .class_ name _ _ => name
  | _ => none

namespace Context

def names (c : Context) : List Scope := c.scopes.map (·.2)

def depth? (c : Context) (name : String) : Option Nat := Resolve.depth? c.names name

def declare (c : Context) (t : Option Token) (ready : Bool) : Context :=
  match t, c.scopes with
  | some t, (σ, names) :: outer => { c with scopes := (σ, names.put t.lexeme ready) :: outer }
  | _, _ => c

theorem klassDeclare (c : Context) (t : Option Token) (ready : Bool) :
    (c.declare t ready).klass = c.klass := by
  unfold declare
  split <;> rfl

theorem functionDeclare (c : Context) (t : Option Token) (ready : Bool) :
    (c.declare t ready).function = c.function := by
  unfold declare
  split <;> rfl

def after (c : Context) (s : Stmt) : Context := c.declare s.declared true

def inBlock (c : Context) (body : List Stmt) : Context :=
  { c with scopes := (.block body, []) :: c.scopes }

def parameterScope : List (Option Token) → Scope → Scope
  | [], names => names
  | none :: ps, names => parameterScope ps names
  | some t :: ps, names => parameterScope ps (names.put t.lexeme true)

def inCall (c : Context) (f : FunDecl) (kind : FunctionKind) : Context where
  scopes := (.call f, parameterScope f.params []) :: c.scopes
  function := some kind
  klass := c.klass

def inClass (c : Context) (name : Option Token) (methods : List FunDecl) (base : Expr) : Context :=
  if base.isMissing then { c with klass := some .plain }
  else { c with
    scopes := (.super name methods, [("super", true)]) :: c.scopes
    klass := some .subclass }

def inMethod (c : Context) (f : FunDecl) : Context :=
  { c with scopes := (.this f, [("this", true)]) :: c.scopes }

end Context

inductive Part where
  | expr (e : Expr)
  | exprs (es : List Expr)
  | stmt (s : Stmt)
  | stmts (ss : List Stmt)
  | function (f : FunDecl) (kind : FunctionKind)

/- A superclass is looked up before the class is bound, a function knows its own name, and a
variable is declared but not ready in its own initializer. -/
inductive Stands (body : List Stmt) : Context → Part → Prop where
  | program : Stands body {} (.stmts body)
  | assigned {c node name value} (outer : Stands body c (.expr (.assign node name value))) :
      Stands body c (.expr value)
  | operand {c op right} (outer : Stands body c (.expr (.unary op right))) :
      Stands body c (.expr right)
  | binaryLeft {c left op right} (outer : Stands body c (.expr (.binary left op right))) :
      Stands body c (.expr left)
  | binaryRight {c left op right} (outer : Stands body c (.expr (.binary left op right))) :
      Stands body c (.expr right)
  | logicalLeft {c left op right} (outer : Stands body c (.expr (.logical left op right))) :
      Stands body c (.expr left)
  | logicalRight {c left op right} (outer : Stands body c (.expr (.logical left op right))) :
      Stands body c (.expr right)
  | inner {c e} (outer : Stands body c (.expr (.grouping e))) : Stands body c (.expr e)
  | callee {c callee paren args} (outer : Stands body c (.expr (.call callee paren args))) :
      Stands body c (.expr callee)
  | arguments {c callee paren args} (outer : Stands body c (.expr (.call callee paren args))) :
      Stands body c (.exprs args)
  | firstExpr {c e es} (outer : Stands body c (.exprs (e :: es))) : Stands body c (.expr e)
  | laterExprs {c e es} (outer : Stands body c (.exprs (e :: es))) : Stands body c (.exprs es)
  | getObject {c object name} (outer : Stands body c (.expr (.get object name))) :
      Stands body c (.expr object)
  | setObject {c object name value} (outer : Stands body c (.expr (.set object name value))) :
      Stands body c (.expr object)
  | setValue {c object name value} (outer : Stands body c (.expr (.set object name value))) :
      Stands body c (.expr value)
  | first {c s ss} (outer : Stands body c (.stmts (s :: ss))) : Stands body c (.stmt s)
  | later {c s ss} (outer : Stands body c (.stmts (s :: ss))) :
      Stands body (c.after s) (.stmts ss)
  | expression {c e} (outer : Stands body c (.stmt (.expression e))) : Stands body c (.expr e)
  | printed {c e} (outer : Stands body c (.stmt (.print e))) : Stands body c (.expr e)
  | initializer {c name init} (outer : Stands body c (.stmt (.var name init)))
      (given : init.isMissing = false) : Stands body (c.declare name false) (.expr init)
  | block {c ss} (outer : Stands body c (.stmt (.block ss))) :
      Stands body (c.inBlock ss) (.stmts ss)
  | ifCond {c cond yes no} (outer : Stands body c (.stmt (.if_ cond yes no))) :
      Stands body c (.expr cond)
  | yes {c cond yes no} (outer : Stands body c (.stmt (.if_ cond yes no))) :
      Stands body c (.stmt yes)
  | no {c cond yes no} (outer : Stands body c (.stmt (.if_ cond yes no)))
      (given : no.isMissing = false) : Stands body c (.stmt no)
  | whileCond {c cond s} (outer : Stands body c (.stmt (.while_ cond s))) :
      Stands body c (.expr cond)
  | whileBody {c cond s} (outer : Stands body c (.stmt (.while_ cond s))) :
      Stands body c (.stmt s)
  | returned {c keyword value} (outer : Stands body c (.stmt (.return_ keyword value)))
      (given : value.isMissing = false) : Stands body c (.expr value)
  | function {c f} (outer : Stands body c (.stmt (.function f))) :
      Stands body (c.declare f.name true) (.function f .function)
  | superclass {c name methods base} (outer : Stands body c (.stmt (.class_ name methods base)))
      (given : base.isMissing = false) : Stands body c (.expr base)
  | method {c name methods base f t} (outer : Stands body c (.stmt (.class_ name methods base)))
      (mem : f ∈ methods) (named : f.name = some t) :
      Stands body (((c.declare name true).inClass name methods base).inMethod f)
        (.function f (Resolve.methodKind t.lexeme))
  | body {c f kind} (outer : Stands body c (.function f kind)) :
      Stands body (c.inCall f kind) (.stmts f.body)

namespace Part

def Shaped : Part → Prop
  | .expr e => e.Shaped
  | .exprs es => Expr.AllShaped es
  | .stmt s => s.Shaped
  | .stmts ss => Stmt.AllShaped ss
  | .function f _ => f.Shaped

def nodes : Part → List Nat
  | .expr e => e.nodes
  | .exprs es => Expr.nodesOf es
  | .stmt s => s.nodes
  | .stmts ss => Stmt.nodesOf ss
  | .function f _ => f.nodes

def isExpr : Part → Bool
  | .expr _ | .exprs _ => true
  | _ => false

end Part

theorem shapedSuperclass {e : Expr} (h : e.IsSuperclass) : e.Shaped := by
  rcases h with rfl | ⟨node, name, rfl, free⟩
  · trivial
  · exact free

theorem FunDecl.shapedBody {f : FunDecl} (h : f.Shaped) : Stmt.AllShaped f.body := by
  cases f with
  | mk name params body => exact h.2.2

variable {body : List Stmt} {c : Context} {p : Part}

theorem Stands.shaped (h : Stands body c p) (whole : Stmt.AllShaped body) : p.Shaped := by
  induction h with
  | program => exact whole
  | assigned _ ih => exact ih.2
  | operand _ ih => exact ih
  | binaryLeft _ ih => exact ih.1
  | binaryRight _ ih => exact ih.2
  | logicalLeft _ ih => exact ih.1
  | logicalRight _ ih => exact ih.2
  | inner _ ih => exact ih
  | callee _ ih => exact ih.1
  | arguments _ ih => exact ih.2
  | firstExpr _ ih => exact ih.1
  | laterExprs _ ih => exact ih.2
  | getObject _ ih => exact ih
  | setObject _ ih => exact ih.1
  | setValue _ ih => exact ih.2
  | first _ ih => exact ih.1
  | later _ ih => exact ih.2
  | expression _ ih => exact ih
  | printed _ ih => exact ih
  | initializer _ _ ih => exact ih.2
  | block _ ih => exact ih
  | ifCond _ ih => exact ih.1
  | yes _ ih => exact ih.2.1
  | no _ _ ih => exact ih.2.2.1
  | whileCond _ ih => exact ih.1
  | whileBody _ ih => exact ih.2.1
  | returned _ _ ih => exact ih
  | function _ ih => exact ih
  | superclass _ _ ih => exact shapedSuperclass ih.2.2
  | method _ mem _ ih => exact shapedOfMem ih.2.1 mem
  | body _ ih => exact FunDecl.shapedBody ih

def Scope.Ready (s : Scope) : Prop := ∀ name, s.get? name ≠ some false

theorem Scope.Ready.put {s : Scope} (h : s.Ready) (name : String) :
    Scope.Ready (s.put name true) := by
  intro other
  by_cases same : other = name
  · subst same
    rw [Bindings.get?_put_self]
    simp
  · rw [Bindings.get?_put_of_ne s true same]
    exact h other

namespace Context

def Ready (c : Context) : Prop := ∀ x ∈ c.scopes, Scope.Ready x.2

def OuterReady (c : Context) : Prop := ∀ x ∈ c.scopes.tail, Scope.Ready x.2

theorem Ready.outer {c : Context} (h : c.Ready) : c.OuterReady :=
  fun x mem => h x (List.mem_of_mem_tail mem)

theorem Ready.declare {c : Context} (h : c.Ready) (t : Option Token) : (c.declare t true).Ready := by
  unfold Context.declare
  split
  · next t σ names outer scopes =>
    intro x mem
    rcases List.mem_cons.mp mem with rfl | rest
    · exact (h (σ, names) (by simp [scopes])).put t.lexeme
    · exact h x (by simp [scopes, rest])
  · exact h

theorem OuterReady.declare {c : Context} (h : c.OuterReady) (t : Option Token) (ready : Bool) :
    (c.declare t ready).OuterReady := by
  unfold Context.declare
  split
  · next t σ names outer scopes =>
    intro x mem
    exact h x (by simpa [scopes] using mem)
  · exact h

theorem Ready.push {c : Context} (h : c.Ready) {σ : Site} {names : Scope}
    (new : names.Ready) : ∀ x ∈ (σ, names) :: c.scopes, Scope.Ready x.2 := by
  intro x mem
  rcases List.mem_cons.mp mem with rfl | rest
  · exact new
  · exact h x rest

theorem readyNil : Scope.Ready [] := fun _ => by simp

theorem readyOne (name : String) : Scope.Ready [(name, true)] := by
  intro other
  rw [Bindings.get?_cons]
  split <;> simp

theorem readyParameters {ps : List (Option Token)} {names : Scope} (h : names.Ready) :
    (parameterScope ps names).Ready := by
  induction ps generalizing names with
  | nil => exact h
  | cons p ps ih =>
    cases p with
    | none => exact ih h
    | some t => exact ih (h.put t.lexeme)

theorem Ready.inClass {c : Context} (h : c.Ready) (name : Option Token) (methods : List FunDecl)
    (base : Expr) : (c.inClass name methods base).Ready := by
  unfold Context.inClass
  split
  · exact h
  · exact h.push (readyOne _)

end Context

/- Only the innermost scope can have a name that is not ready, and only inside an expression: the
initializer of that name. -/
theorem Stands.ready (h : Stands body c p) : c.OuterReady ∧ (p.isExpr = false → c.Ready) := by
  have all : ∀ {c : Context} {p : Part}, c.Ready → c.OuterReady ∧ (p.isExpr = false → c.Ready) :=
    fun h => ⟨h.outer, fun _ => h⟩
  induction h with
  | program => exact all fun _ mem => by cases mem
  | assigned _ ih | operand _ ih | binaryLeft _ ih | binaryRight _ ih | logicalLeft _ ih
  | logicalRight _ ih | inner _ ih | callee _ ih | arguments _ ih | firstExpr _ ih
  | laterExprs _ ih | getObject _ ih | setObject _ ih | setValue _ ih | expression _ ih
  | printed _ ih | ifCond _ ih | whileCond _ ih | returned _ _ ih | superclass _ _ ih =>
    exact ⟨ih.1, fun no => by cases no⟩
  | initializer _ _ ih => exact ⟨ih.1.declare _ _, fun no => by cases no⟩
  | first _ ih | yes _ ih | no _ _ ih | whileBody _ ih => exact all (ih.2 rfl)
  | later _ ih => exact all ((ih.2 rfl).declare _)
  | block _ ih => exact all ((ih.2 rfl).push Context.readyNil)
  | function _ ih => exact all ((ih.2 rfl).declare _)
  | method _ _ _ ih =>
    exact all ((((ih.2 rfl).declare _).inClass _ _ _).push (Context.readyOne _))
  | body _ ih => exact all ((ih.2 rfl).push (Context.readyParameters Context.readyNil))

def Scope.Plain (s : Scope) : Prop := ∀ name, s.has name = true → Keyword.ofWord? name = none

theorem Scope.Plain.put {s : Scope} (h : s.Plain) {name : String} {ready : Bool}
    (free : Keyword.ofWord? name = none) : Scope.Plain (s.put name ready) := by
  intro other found
  by_cases same : other = name
  · rw [same]
    exact free
  · refine h other ?_
    unfold Bindings.has at found ⊢
    rwa [Bindings.get?_put_of_ne s ready same] at found

inductive Classed : Option ClassKind → List (Site × Scope) → Prop where
  | none : Classed none []
  | block {k ss names outer} (plain : Scope.Plain names) (rest : Classed k outer) :
      Classed k ((.block ss, names) :: outer)
  | call {k f names outer} (plain : Scope.Plain names) (rest : Classed k outer) :
      Classed k ((.call f, names) :: outer)
  | plain {k f outer} (rest : Classed k outer) :
      Classed (some .plain) ((.this f, [("this", true)]) :: outer)
  | subclass {k f name methods outer} (rest : Classed k outer) :
      Classed (some .subclass)
        ((.this f, [("this", true)]) :: (.super name methods, [("super", true)]) :: outer)

def Site.isOpen : Site → Bool
  | .block _ | .call _ => true
  | _ => false

namespace Context

def Open (c : Context) : Prop := ∀ x ∈ c.scopes.head?, x.1.isOpen = true

theorem Open.declare {c : Context} (h : c.Open) (t : Option Token) (ready : Bool) :
    (c.declare t ready).Open := by
  unfold Context.declare
  split
  · next t σ names outer scopes =>
    intro x mem
    cases mem
    exact h (σ, names) (by simp [scopes])
  · exact h

end Context

theorem Classed.declare (h : Classed c.klass c.scopes) (isOpen : c.Open) {t : Option Token}
    (free : Free t) (ready : Bool) :
    Classed (c.declare t ready).klass (c.declare t ready).scopes := by
  unfold Context.declare
  split
  · next t σ names outer scopes =>
    rw [scopes] at h
    have inside := isOpen (σ, names) (by simp [scopes])
    show Classed c.klass _
    generalize c.klass = k at h ⊢
    cases h with
    | block plain rest => exact .block (plain.put (free t rfl)) rest
    | call plain rest => exact .call (plain.put (free t rfl)) rest
    | plain rest => cases inside
    | subclass rest => cases inside
  · exact h

theorem freeDeclared {s : Stmt} (shaped : s.Shaped) : Free s.declared := by
  cases s with
  | var name init => exact shaped.1
  | function f =>
    cases f with
    | mk name params body => exact shaped.1
  | class_ name methods base => exact shaped.1
  | _ => exact fun _ none => by cases none

theorem plainNil : Scope.Plain [] := fun _ found => by cases found

theorem plainParameters {ps : List (Option Token)} {names : Scope} (plain : names.Plain)
    (free : ∀ p ∈ ps, Free p) : (Context.parameterScope ps names).Plain := by
  induction ps generalizing names with
  | nil => exact plain
  | cons p ps ih =>
    have rest : ∀ p ∈ ps, Free p := fun q mem => free q (List.mem_cons_of_mem _ mem)
    cases p with
    | none => exact ih plain rest
    | some t => exact ih (plain.put (free (some t) List.mem_cons_self t rfl)) rest

def Part.isStmt : Part → Bool
  | .stmt _ | .stmts _ => true
  | _ => false

theorem Stands.classed (h : Stands body c p) (whole : Stmt.AllShaped body) :
    Classed c.klass c.scopes ∧ (p.isStmt = true → c.Open) := by
  induction h with
  | program => exact ⟨.none, fun _ _ mem => by cases mem⟩
  | assigned _ ih | operand _ ih | binaryLeft _ ih | binaryRight _ ih | logicalLeft _ ih
  | logicalRight _ ih | inner _ ih | callee _ ih | arguments _ ih | firstExpr _ ih
  | laterExprs _ ih | getObject _ ih | setObject _ ih | setValue _ ih | expression _ ih
  | printed _ ih | ifCond _ ih | whileCond _ ih | returned _ _ ih | superclass _ _ ih =>
    exact ⟨ih.1, fun no => by cases no⟩
  | first _ ih | yes _ ih | no _ _ ih | whileBody _ ih => exact ⟨ih.1, fun _ => ih.2 rfl⟩
  | initializer outer _ ih =>
    exact ⟨ih.1.declare (ih.2 rfl) (outer.shaped whole).1 false, fun no => by cases no⟩
  | later outer ih =>
    exact ⟨ih.1.declare (ih.2 rfl) (freeDeclared (outer.first.shaped whole)) true,
      fun _ => (ih.2 rfl).declare _ _⟩
  | block _ ih => exact ⟨.block plainNil ih.1, fun _ x mem => by cases mem; rfl⟩
  | function outer ih =>
    exact ⟨ih.1.declare (ih.2 rfl) (freeDeclared (outer.shaped whole)) true,
      fun no => by cases no⟩
  | @method c name methods base f t outer mem named ih =>
    have declared := ih.1.declare (ih.2 rfl) (outer.shaped whole).1 true
    refine ⟨?_, fun no => by cases no⟩
    unfold Context.inClass
    split
    · exact .plain declared
    · exact .subclass declared
  | @body c f kind outer ih =>
    have shaped := outer.shaped whole
    cases f with
    | mk name params ss =>
      exact ⟨.call (plainParameters plainNil shaped.2.1) ih.1, fun _ x mem => by cases mem; rfl⟩

theorem depthHere {s : Scope} {outer : List Scope} {name : String} (h : s.has name = true) :
    Resolve.depth? (s :: outer) name = some 0 := by
  simp [Resolve.depthEq, List.findIdx?_cons, h]

theorem depthOuter {s : Scope} {outer : List Scope} {name : String} (h : s.has name = false) :
    Resolve.depth? (s :: outer) name = (Resolve.depth? outer name).map (· + 1) := by
  simp [Resolve.depthEq, List.findIdx?_cons, h]

theorem plainReserved {s : Scope} (plain : s.Plain) {name : String}
    (word : Keyword.ofWord? name ≠ none) : s.has name = false := by
  cases found : s.has name with
  | false => rfl
  | true => exact absurd (plain name found) word

theorem hasOne (name : String) : Bindings.has [(name, true)] name = true := by
  simp [Bindings.has, Bindings.get?_cons]

theorem thisReserved : Keyword.ofWord? "this" ≠ none := by decide

theorem superReserved : Keyword.ofWord? "super" ≠ none := by decide

theorem depthThis {k : ClassKind} {scopes : List (Site × Scope)} (h : Classed (some k) scopes) :
    ∃ d f, Resolve.depth? (scopes.map (·.2)) "this" = some d ∧
      scopes[d]? = some (.this f, [("this", true)]) := by
  generalize inside : some k = k' at h
  induction h with
  | none => cases inside
  | block plain _ ih =>
    obtain ⟨d, f, found, at'⟩ := ih inside
    refine ⟨d + 1, f, ?_, at'⟩
    rw [List.map_cons, depthOuter (plainReserved plain thisReserved), found]
    rfl
  | call plain _ ih =>
    obtain ⟨d, f, found, at'⟩ := ih inside
    refine ⟨d + 1, f, ?_, at'⟩
    rw [List.map_cons, depthOuter (plainReserved plain thisReserved), found]
    rfl
  | plain _ _ => exact ⟨0, _, depthHere (hasOne "this"), rfl⟩
  | subclass _ _ => exact ⟨0, _, depthHere (hasOne "this"), rfl⟩

theorem depthSuper {scopes : List (Site × Scope)} (h : Classed (some .subclass) scopes) :
    ∃ d f name methods, Resolve.depth? (scopes.map (·.2)) "super" = some (d + 1) ∧
      scopes[d]? = some (.this f, [("this", true)]) ∧
      scopes[d + 1]? = some (.super name methods, [("super", true)]) := by
  generalize inside : some ClassKind.subclass = k at h
  induction h with
  | none => cases inside
  | block plain _ ih =>
    obtain ⟨d, f, name, methods, found, this, super⟩ := ih inside
    refine ⟨d + 1, f, name, methods, ?_, this, super⟩
    rw [List.map_cons, depthOuter (plainReserved plain superReserved), found]
    rfl
  | call plain _ ih =>
    obtain ⟨d, f, name, methods, found, this, super⟩ := ih inside
    refine ⟨d + 1, f, name, methods, ?_, this, super⟩
    rw [List.map_cons, depthOuter (plainReserved plain superReserved), found]
    rfl
  | plain _ _ => cases inside
  | subclass _ _ =>
    refine ⟨0, _, _, _, ?_, rfl, rfl⟩
    have apart : Bindings.has [("this", true)] "super" = false := by decide
    rw [List.map_cons, depthOuter apart, List.map_cons, depthHere (hasOne "super")]
    rfl

end Lox
