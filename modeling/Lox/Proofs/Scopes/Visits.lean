import Lox.Proofs.Scopes.Walk

/-!
The uses of names in a tree, in the order in which the resolver comes to them. Each stands in scopes
that follow the text: they are handed down from a statement to its parts, and no statement closes
one. The resolver, which opens and closes scopes as it goes, looks every name up in just these.
-/

namespace Lox

structure Visit where
  node : Nat
  use : Use
  name : Option Token
  scopes : List Scope

def Visit.entry? (v : Visit) : Option Local :=
  v.name.bind fun t => (Resolve.depth? v.scopes t.lexeme).map (⟨v.node, v.use, t.lexeme, ·⟩)

def Visit.enter (ls : Locals) (v : Visit) : Locals :=
  match v.entry? with
  | some l => ls.record l
  | none => ls

mutual

def Expr.visits (inClass : Bool) (scopes : List Scope) : Expr → List Visit
  | .missing | .literal _ => []
  | .reference node name => [⟨node, .reference, name, scopes⟩]
  | .assign node name value => value.visits inClass scopes ++ [⟨node, .assign, name, scopes⟩]
  | .this node keyword => if inClass then [⟨node, .this, keyword, scopes⟩] else []
  | .super node keyword _ => [⟨node, .super, keyword, scopes⟩]
  | .unary _ right => right.visits inClass scopes
  | .binary left _ right => left.visits inClass scopes ++ right.visits inClass scopes
  | .logical left _ right => left.visits inClass scopes ++ right.visits inClass scopes
  | .grouping inner => inner.visits inClass scopes
  | .call callee _ args => callee.visits inClass scopes ++ Expr.visitsOf inClass scopes args
  | .get object _ => object.visits inClass scopes
  | .set object _ value => object.visits inClass scopes ++ value.visits inClass scopes

def Expr.visitsOf (inClass : Bool) (scopes : List Scope) : List Expr → List Visit
  | [] => []
  | e :: es => e.visits inClass scopes ++ Expr.visitsOf inClass scopes es

end

/- The scopes after a statement. A branch or the body of a loop may declare a name too. -/
def Stmt.leaves (scopes : List Scope) : Stmt → List Scope
  | .var name _ => putName scopes name true
  | .function f => putName scopes f.name true
  | .class_ name _ _ => putName scopes name true
  | .if_ _ yes no => no.leaves (yes.leaves scopes)
  | .while_ _ body => body.leaves scopes
  | _ => scopes

def classScopes (scopes : List Scope) (base : Expr) : List Scope :=
  [("this", true)] :: if base.isMissing then scopes else [("super", true)] :: scopes

mutual

def Stmt.visits (inClass : Bool) (scopes : List Scope) : Stmt → List Visit
  | .missing => []
  | .expression e => e.visits inClass scopes
  | .print e => e.visits inClass scopes
  | .var name init => init.visits inClass (putName scopes name false)
  | .block body => Stmt.visitsOf inClass ([] :: scopes) body
  | .if_ cond yes no =>
    cond.visits inClass scopes ++
      (yes.visits inClass scopes ++ no.visits inClass (yes.leaves scopes))
  | .while_ cond body => cond.visits inClass scopes ++ body.visits inClass scopes
  | .function f => f.visits inClass (putName scopes f.name true)
  | .return_ _ value => value.visits inClass scopes
  | .class_ name methods base =>
    base.visits true (putName scopes name true) ++
      FunDecl.visitsOf true (classScopes (putName scopes name true) base) methods

def Stmt.visitsOf (inClass : Bool) (scopes : List Scope) : List Stmt → List Visit
  | [] => []
  | s :: ss => s.visits inClass scopes ++ Stmt.visitsOf inClass (s.leaves scopes) ss

def FunDecl.visits (inClass : Bool) (scopes : List Scope) : FunDecl → List Visit
  | .mk _ params body =>
    Stmt.visitsOf inClass (params.foldl (putName · · true) ([] :: scopes)) body

def FunDecl.visitsOf (inClass : Bool) (scopes : List Scope) : List FunDecl → List Visit
  | [] => []
  | f :: fs => f.visits inClass scopes ++ FunDecl.visitsOf inClass scopes fs

end

namespace Resolve

structure Walks (vs : List Visit) (scopes : List Scope) (r r' : Resolver) : Prop where
  scopes : r'.scopes = scopes
  locals : r'.locals = vs.foldl Visit.enter r.locals
  function : r'.function = r.function
  klass : r'.klass = r.klass

theorem Walks.refl (r : Resolver) : Walks [] r.scopes r r := ⟨rfl, rfl, rfl, rfl⟩

theorem Walks.trans {vs ws : List Visit} {a b : List Scope} {r s t : Resolver}
    (first : Walks vs a r s) (rest : Walks ws b s t) : Walks (vs ++ ws) b r t where
  scopes := rest.scopes
  locals := by rw [rest.locals, first.locals, List.foldl_append]
  function := rest.function.trans first.function
  klass := rest.klass.trans first.klass

variable {t : Option Token} {r r' : Resolver}

theorem walksReport {message : String} (h : report message r = .ok () r') :
    Walks [] r.scopes r r' := by
  cases h
  exact ⟨rfl, rfl, rfl, rfl⟩

theorem walksResolveLocal {node : Nat} {use : Use} (h : resolveLocal node use t r = .ok () r') :
    Walks [⟨node, use, t, r.scopes⟩] r.scopes r r' := by
  cases t with
  | none =>
    obtain ⟨-, rfl⟩ := resolveLocalNone h
    exact ⟨rfl, rfl, rfl, rfl⟩
  | some u =>
    rw [resolveLocalRun] at h
    cases h
    cases found : depth? r.scopes u.lexeme with
    | none => exact ⟨rfl, by simp [Visit.enter, Visit.entry?, found], rfl, rfl⟩
    | some d => exact ⟨rfl, by simp [Visit.enter, Visit.entry?, found], rfl, rfl⟩

theorem keepsLexeme {P : Resolver → Prop} (t : Option Token) : Keeps P (lexeme t) := by
  cases t with
  | none => exact keepsThrow _
  | some u => exact keepsPure _

theorem keepsMark (ls : Locals) (name : String) (ready : Bool) :
    Keeps (fun r => r.locals = ls) (mark name ready) := by
  intro r kept
  unfold mark
  rw [modifyRun]
  dsimp only [final]
  split <;> exact kept

theorem keepsDeclare (ls : Locals) (t : Option Token) :
    Keeps (fun r => r.locals = ls) (declare t) := by
  refine keepsGet.bind fun r => ?_
  cases r.scopes with
  | nil => exact keepsPure _
  | cons s outer =>
    refine (keepsLexeme t).bind fun name => ?_
    dsimp only
    split
    · exact Keeps.bind (fun _ kept => kept) fun _ => keepsMark ls name false
    · exact keepsMark ls name false

theorem keepsDefine (ls : Locals) (t : Option Token) :
    Keeps (fun r => r.locals = ls) (define t) := by
  refine keepsGet.bind fun r => ?_
  split
  · exact keepsPure _
  · exact (keepsLexeme t).bind fun name => keepsMark ls name true

theorem walksDeclare (h : declare t r = .ok () r') : Walks [] (putName r.scopes t false) r r' := by
  obtain ⟨kept, scopes⟩ := declareOk h
  have locals := keepsDeclare r.locals t r rfl
  rw [h] at locals
  exact ⟨scopes, locals, kept.function, kept.klass⟩

theorem walksDefine (h : define t r = .ok () r') : Walks [] (putName r.scopes t true) r r' := by
  obtain ⟨kept, scopes⟩ := defineOk h
  have locals := keepsDefine r.locals t r rfl
  rw [h] at locals
  exact ⟨scopes, locals, kept.function, kept.klass⟩

theorem walksIntroduce {s : Resolver} (declared : declare t r = .ok () s)
    (defined : define t s = .ok () r') : Walks [] (putName r.scopes t true) r r' := by
  have first := walksDeclare declared
  have second := walksDefine defined
  rw [first.scopes, putNameTwice] at second
  exact first.trans second

theorem walksReference {node : Nat} (h : reference node t r = .ok () r') :
    Walks [⟨node, .reference, t, r.scopes⟩] r.scopes r r' := by
  obtain ⟨_, _, got, start⟩ := bindOk.mp h
  cases got
  cases scopes : r.scopes with
  | nil =>
    rw [scopes] at start
    cases start
    refine ⟨scopes, ?_, rfl, rfl⟩
    cases t <;> simp [Visit.enter, Visit.entry?, depthEq]
  | cons s outer =>
    rw [scopes] at start
    obtain ⟨name, r₁, named, rest⟩ := bindOk.mp start
    obtain ⟨rfl, u, rfl, rfl⟩ := lexemeOk named
    dsimp only at rest
    rw [← scopes]
    split at rest
    · obtain ⟨_, r₂, first, run⟩ := bindOk.mp rest
      have reported := walksReport first
      have looked := walksResolveLocal run
      rw [reported.scopes] at looked
      exact reported.trans looked
    · exact walksResolveLocal rest

theorem walksThis {node : Nat} (h : this node t r = .ok () r') :
    Walks (if r.klass.isSome then [⟨node, .this, t, r.scopes⟩] else []) r.scopes r r' := by
  obtain ⟨_, _, got, start⟩ := bindOk.mp h
  cases got
  cases inside : r.klass with
  | none =>
    rw [inside] at start
    obtain ⟨name, r₁, named, first⟩ := bindOk.mp start
    obtain ⟨rfl, -⟩ := lexemeOk named
    exact walksReport first
  | some k =>
    rw [inside] at start
    exact walksResolveLocal start

theorem walksSuper {node : Nat} (h : super node t r = .ok () r') :
    Walks [⟨node, .super, t, r.scopes⟩] r.scopes r r' := by
  have outside : ∀ message : String → String,
      (do report (message (← lexeme t)); resolveLocal node .super t : Resolve Unit) r = .ok () r' →
      Walks [⟨node, .super, t, r.scopes⟩] r.scopes r r' := by
    intro message run
    obtain ⟨name, r₁, named, rest⟩ := bindOk.mp run
    obtain ⟨rfl, -⟩ := lexemeOk named
    obtain ⟨_, r₂, first, run⟩ := bindOk.mp rest
    have reported := walksReport first
    have looked := walksResolveLocal run
    rw [reported.scopes] at looked
    exact reported.trans looked
  unfold super at h
  obtain ⟨_, _, got, run⟩ := bindOk.mp h
  cases got
  cases inside : r.klass with
  | none =>
    rw [inside] at run
    exact outside _ run
  | some k =>
    rw [inside] at run
    cases k with
    | plain => exact outside _ run
    | subclass => exact walksResolveLocal run

structure Stood (inClass : Bool) (scopes : List Scope) (r : Resolver) : Prop where
  scopes : r.scopes = scopes
  klass : r.klass.isSome = inClass

variable {inClass : Bool} {scopes : List Scope}

theorem Walks.stood {vs : List Visit} {scopes' : List Scope} (h : Walks vs scopes' r r')
    (place : Stood inClass scopes r) : Stood inClass scopes' r' :=
  ⟨h.scopes, by rw [h.klass, place.klass]⟩

mutual

theorem walksExpr (e : Expr) {r r' : Resolver} (place : Stood inClass scopes r)
    (h : expr e r = .ok () r') : Walks (e.visits inClass scopes) scopes r r' := by
  cases e with
  | missing => cases h
  | literal d =>
    cases h
    exact ⟨place.scopes, rfl, rfl, rfl⟩
  | reference node name =>
    obtain ⟨rfl, rfl⟩ := place
    exact walksReference h
  | this node keyword =>
    obtain ⟨rfl, rfl⟩ := place
    exact walksThis h
  | super node keyword method =>
    obtain ⟨rfl, rfl⟩ := place
    exact walksSuper h
  | assign node name value =>
    obtain ⟨_, s, first, rest⟩ := bindOk.mp h
    have value := walksExpr value place first
    have looked := walksResolveLocal rest
    rw [value.scopes] at looked
    exact value.trans looked
  | unary op right => exact walksExpr right place h
  | binary left op right =>
    obtain ⟨_, s, first, rest⟩ := bindOk.mp h
    have left := walksExpr left place first
    exact left.trans (walksExpr right (left.stood place) rest)
  | logical left op right =>
    obtain ⟨_, s, first, rest⟩ := bindOk.mp h
    have left := walksExpr left place first
    exact left.trans (walksExpr right (left.stood place) rest)
  | grouping inner => exact walksExpr inner place h
  | call callee paren args =>
    obtain ⟨_, s, first, rest⟩ := bindOk.mp h
    have callee := walksExpr callee place first
    exact callee.trans (walksExprs args (callee.stood place) rest)
  | get object name => exact walksExpr object place h
  | set object name value =>
    obtain ⟨_, s, first, rest⟩ := bindOk.mp h
    have object := walksExpr object place first
    exact object.trans (walksExpr value (object.stood place) rest)

theorem walksExprs (es : List Expr) {r r' : Resolver} (place : Stood inClass scopes r)
    (h : exprs es r = .ok () r') : Walks (Expr.visitsOf inClass scopes es) scopes r r' := by
  cases es with
  | nil =>
    cases h
    exact ⟨place.scopes, rfl, rfl, rfl⟩
  | cons e es =>
    obtain ⟨_, s, first, rest⟩ := bindOk.mp h
    have head := walksExpr e place first
    exact head.trans (walksExprs es (head.stood place) rest)

end

theorem walksOptional (e : Expr) (place : Stood inClass scopes r)
    (h : (if !e.isMissing then expr e else pure () : Resolve Unit) r = .ok () r') :
    Walks (e.visits inClass scopes) scopes r r' := by
  cases e with
  | missing =>
    cases h
    exact ⟨place.scopes, rfl, rfl, rfl⟩
  | _ => exact walksExpr _ place h

theorem tailLeaves (s : Stmt) (scopes : List Scope) : (s.leaves scopes).tail = scopes.tail := by
  cases s with
  | var name _ => exact tailPutName ..
  | function f => exact tailPutName ..
  | class_ name _ _ => exact tailPutName ..
  | if_ _ yes no => rw [Stmt.leaves, tailLeaves no, tailLeaves yes]
  | while_ _ body => exact tailLeaves body scopes
  | _ => rfl

theorem tailLeavesAll (ss : List Stmt) (scopes : List Scope) :
    (ss.foldl Stmt.leaves scopes).tail = scopes.tail := by
  induction ss generalizing scopes with
  | nil => rfl
  | cons s ss ih => rw [List.foldl_cons, ih, tailLeaves]

theorem tailParameters (ps : List (Option Token)) (scopes : List Scope) :
    (ps.foldl (putName · · true) scopes).tail = scopes.tail := by
  induction ps generalizing scopes with
  | nil => rfl
  | cons p ps ih => rw [List.foldl_cons, ih, tailPutName]

theorem walksReturn {keyword : Option Token} (h : return_ keyword r = .ok () r') :
    Walks [] r.scopes r r' := by
  obtain ⟨_, _, got, run⟩ := bindOk.mp h
  cases got
  generalize r.function = kind at run
  split at run
  · exact walksReport run
  · exact walksReport run
  · cases run
    exact .refl r

theorem walksParameters (ps : List (Option Token)) {r : Resolver} (place : Stood inClass scopes r)
    (h : parameters ps r = .ok () r') : Walks [] (ps.foldl (putName · · true) scopes) r r' := by
  induction ps generalizing r scopes with
  | nil =>
    cases h
    exact ⟨place.scopes, rfl, rfl, rfl⟩
  | cons p ps ih =>
    obtain ⟨_, s, declared, h⟩ := bindOk.mp h
    obtain ⟨_, t, defined, rest⟩ := bindOk.mp h
    have introduced := walksIntroduce declared defined
    rw [place.scopes] at introduced
    exact introduced.trans (ih (introduced.stood place) rest)

def checkSuperclass (name : Option Token) (e : Expr) : Resolve Unit := do
  let base ← lexeme (← lift (superclassToken e))
  if base == (← lexeme name) then report (base ++ ", A class can't inherit from itself.")
  modify fun r => { r with klass := some .subclass }

theorem superclassChecked (name : Option Token) (e : Expr) :
    superclass name e = (do checkSuperclass name e; expr e; pushScope [("super", true)]) := by
  unfold superclass checkSuperclass
  simp only [bind_assoc]
  refine bind_congr fun t => bind_congr fun base => bind_congr fun own => ?_
  split <;> simp only [bind_assoc]

theorem walksCheck {name : Option Token} {e : Expr} (place : Stood inClass scopes r)
    (h : checkSuperclass name e r = .ok () r') :
    Walks [] scopes { r with klass := some .subclass } r' := by
  unfold checkSuperclass at h
  cases given : superclassToken e with
  | error f =>
    rw [given] at h
    cases h
  | ok u =>
    rw [given] at h
    obtain ⟨_, _, token, based⟩ := bindOk.mp h
    cases token
    obtain ⟨_, r₁, first, named⟩ := bindOk.mp based
    obtain ⟨rfl, -⟩ := lexemeOk first
    obtain ⟨_, r₂, second, compared⟩ := bindOk.mp named
    obtain ⟨rfl, -⟩ := lexemeOk second
    dsimp only at compared
    split at compared
    · obtain ⟨_, s, reported, run⟩ := bindOk.mp compared
      cases reported
      cases run
      exact ⟨place.scopes, rfl, rfl, rfl⟩
    · cases compared
      exact ⟨place.scopes, rfl, rfl, rfl⟩

theorem walksSuperclass {name : Option Token} {e : Expr} (place : Stood inClass scopes r)
    (h : superclass name e r = .ok () r') :
    Walks (e.visits true scopes) ([("super", true)] :: scopes)
      { r with klass := some .subclass } r' := by
  rw [superclassChecked] at h
  obtain ⟨_, s, checked, h⟩ := bindOk.mp h
  obtain ⟨_, s', run, pushed⟩ := bindOk.mp h
  cases pushed
  have checked := walksCheck place checked
  have walked := checked.trans (walksExpr e (checked.stood ⟨place.scopes, rfl⟩) run)
  exact ⟨congrArg (List.cons [("super", true)]) walked.scopes, walked.locals, walked.function,
    walked.klass⟩

theorem closeClass (scopes : List Scope) (base : Expr) :
    (if base.isMissing then (classScopes scopes base).tail
      else (classScopes scopes base).tail.tail) = scopes := by
  unfold classScopes
  split <;> rfl

theorem walksBase {name : Option Token} {base : Expr} {named based : Resolver}
    (place : Stood true scopes named)
    (h : if base.isMissing then based = named else superclass name base named = .ok () based) :
    Walks (base.visits true scopes) (classScopes scopes base).tail
      { named with klass := based.klass } based ∧ based.klass.isSome = true := by
  cases base with
  | missing =>
    have same : based = named := by simpa [Expr.isMissing] using h
    subst same
    exact ⟨⟨place.scopes, rfl, rfl, rfl⟩, place.klass⟩
  | _ =>
    have walked := walksSuperclass place (by simpa [Expr.isMissing] using h)
    have klass : based.klass = some .subclass := walked.klass
    rw [klass]
    exact ⟨walked, rfl⟩

theorem stoodNamed {declared named : Resolver} (place : Stood inClass scopes r)
    (first : declare t { r with klass := some .plain } = .ok () declared)
    (second : define t declared = .ok () named) : Stood true (putName scopes t true) named := by
  rw [← place.scopes]
  exact (walksIntroduce first second).stood ⟨rfl, rfl⟩

theorem stoodMethods {name : Option Token} {base : Expr} {named based : Resolver}
    (place : Stood true scopes named)
    (h : if base.isMissing then based = named else superclass name base named = .ok () based) :
    Stood true (classScopes scopes base)
      { based with scopes := [("this", true)] :: based.scopes } := by
  obtain ⟨walked, inside⟩ := walksBase place h
  exact ⟨congrArg (List.cons [("this", true)]) walked.scopes, inside⟩

mutual

theorem walksStmt (s : Stmt) {inClass : Bool} {scopes : List Scope} {r r' : Resolver}
    (place : Stood inClass scopes r) (h : stmt s r = .ok () r') :
    Walks (s.visits inClass scopes) (s.leaves scopes) r r' := by
  cases s with
  | missing => cases h
  | expression e => exact walksExpr e place h
  | print e => exact walksExpr e place h
  | var name init =>
    obtain ⟨_, s, declared, rest⟩ := bindOk.mp h
    have declared := walksDeclare declared
    rw [place.scopes] at declared
    have walked : ∃ t, Walks (init.visits inClass (putName scopes name false))
        (putName scopes name false) s t ∧ define name t = .ok () r' := by
      dsimp only at rest
      split at rest
      · obtain ⟨_, t, run, rest⟩ := bindOk.mp rest
        exact ⟨t, walksExpr init (declared.stood place) run, rest⟩
      · next given =>
        cases init with
        | missing => exact ⟨s, ⟨declared.scopes, rfl, rfl, rfl⟩, rest⟩
        | _ => exact absurd rfl given
    obtain ⟨t, inner, defined⟩ := walked
    have defined := walksDefine defined
    rw [inner.scopes, putNameTwice] at defined
    have all := declared.trans (inner.trans defined)
    rwa [List.append_nil] at all
  | block body =>
    obtain ⟨s, run, rfl⟩ := blockOk h
    have start : Stood inClass ([] :: scopes) { r with scopes := [] :: r.scopes } :=
      ⟨congrArg (List.cons []) place.scopes, place.klass⟩
    have inner := walksStmts body start run
    have closed : s.scopes.tail = scopes := by rw [inner.scopes, tailLeavesAll, List.tail_cons]
    exact ⟨closed, inner.locals, inner.function, inner.klass⟩
  | if_ cond yes no =>
    obtain ⟨_, s, first, rest⟩ := bindOk.mp h
    obtain ⟨_, t, second, rest⟩ := bindOk.mp rest
    have cond := walksExpr cond place first
    have yes := walksStmt yes (cond.stood place) second
    refine cond.trans (yes.trans ?_)
    split at rest
    · exact walksStmt no (yes.stood (cond.stood place)) rest
    · next given =>
      cases rest
      cases no with
      | missing => exact ⟨yes.scopes, rfl, rfl, rfl⟩
      | _ => exact absurd rfl given
  | while_ cond body =>
    obtain ⟨_, s, first, rest⟩ := bindOk.mp h
    have cond := walksExpr cond place first
    exact cond.trans (walksStmt body (cond.stood place) rest)
  | function f =>
    obtain ⟨_, s, declared, rest⟩ := bindOk.mp h
    obtain ⟨_, t, defined, rest⟩ := bindOk.mp rest
    have introduced := walksIntroduce declared defined
    rw [place.scopes] at introduced
    exact introduced.trans (walksFunDecl f (introduced.stood place) rest)
  | return_ keyword value =>
    obtain ⟨_, s, first, rest⟩ := bindOk.mp h
    have first := walksReturn first
    rw [place.scopes] at first
    exact first.trans (walksOptional value (first.stood place) rest)
  | class_ name methods base =>
    obtain ⟨declared, named, based, walked, first, second, third, fourth, rfl⟩ := (classOk h).steps
    have introduced := walksIntroduce first second
    have within := stoodNamed place first second
    have super := (walksBase within third).1
    have inner := walksFunDecls methods (stoodMethods within third) fourth
    refine ⟨?_, ?_, inner.function.trans (super.function.trans introduced.function), rfl⟩
    · show (if base.isMissing then walked.scopes.tail else walked.scopes.tail.tail) = _
      rw [inner.scopes]
      exact closeClass _ base
    · have named : named.locals = r.locals := introduced.locals
      have based : based.locals = (base.visits true (putName scopes name true)).foldl Visit.enter
          r.locals := named ▸ super.locals
      rw [Stmt.visits, List.foldl_append, ← based]
      exact inner.locals

theorem walksStmts (ss : List Stmt) {inClass : Bool} {scopes : List Scope} {r r' : Resolver}
    (place : Stood inClass scopes r) (h : stmts ss r = .ok () r') :
    Walks (Stmt.visitsOf inClass scopes ss) (ss.foldl Stmt.leaves scopes) r r' := by
  cases ss with
  | nil =>
    cases h
    exact ⟨place.scopes, rfl, rfl, rfl⟩
  | cons s ss =>
    obtain ⟨t, first, rest⟩ := stmtsOk h
    have head := walksStmt s place first
    exact head.trans (walksStmts ss (head.stood place) rest)

theorem walksFunDecl (f : FunDecl) {inClass : Bool} {scopes : List Scope} {kind : FunctionKind}
    {r r' : Resolver} (place : Stood inClass scopes r) (h : funDecl f kind r = .ok () r') :
    Walks (f.visits inClass scopes) scopes r r' := by
  cases f with
  | mk name params body =>
    obtain ⟨s, t, first, run, rfl⟩ := funDeclOk h
    have start : Stood inClass ([] :: scopes)
        { r with function := some kind, scopes := [] :: r.scopes } :=
      ⟨congrArg (List.cons []) place.scopes, place.klass⟩
    have first := walksParameters params start first
    have inner := walksStmts body (first.stood start) run
    have closed : t.scopes.tail = scopes := by
      rw [inner.scopes, tailLeavesAll, tailParameters, List.tail_cons]
    have all := first.trans inner
    exact ⟨closed, all.locals, rfl, all.klass⟩

theorem walksFunDecls (fs : List FunDecl) {inClass : Bool} {scopes : List Scope}
    {r r' : Resolver} (place : Stood inClass scopes r) (h : funDecls fs r = .ok () r') :
    Walks (FunDecl.visitsOf inClass scopes fs) scopes r r' := by
  cases fs with
  | nil =>
    cases h
    exact ⟨place.scopes, rfl, rfl, rfl⟩
  | cons f fs =>
    obtain ⟨t, s, -, first, rest⟩ := funDeclsOk h
    have head := walksFunDecl f place first
    exact head.trans (walksFunDecls fs (head.stood place) rest)

end

end Resolve

open Resolve

mutual

def Expr.moments (r : Resolver) : Expr → List Visit
  | .missing | .literal _ => []
  | .reference node name => [⟨node, .reference, name, r.scopes⟩]
  | .assign node name value =>
    value.moments r ++ [⟨node, .assign, name, (final (expr value r)).scopes⟩]
  | .this node keyword => if r.klass.isSome then [⟨node, .this, keyword, r.scopes⟩] else []
  | .super node keyword _ => [⟨node, .super, keyword, r.scopes⟩]
  | .unary _ right => right.moments r
  | .binary left _ right => left.moments r ++ right.moments (final (expr left r))
  | .logical left _ right => left.moments r ++ right.moments (final (expr left r))
  | .grouping inner => inner.moments r
  | .call callee _ args => callee.moments r ++ Expr.momentsOf (final (expr callee r)) args
  | .get object _ => object.moments r
  | .set object _ value => object.moments r ++ value.moments (final (expr object r))

def Expr.momentsOf (r : Resolver) : List Expr → List Visit
  | [] => []
  | e :: es => e.moments r ++ Expr.momentsOf (final (expr e r)) es

end

def Resolver.introduced (r : Resolver) (name : Option Token) : Resolver :=
  final ((do declare name; define name : Resolve Unit) r)

mutual

def Stmt.moments (r : Resolver) : Stmt → List Visit
  | .missing => []
  | .expression e => e.moments r
  | .print e => e.moments r
  | .var name init => init.moments (final (declare name r))
  | .block body => Stmt.momentsOf { r with scopes := [] :: r.scopes } body
  | .if_ cond yes no =>
    let tested := final (expr cond r)
    cond.moments r ++ (yes.moments tested ++ no.moments (final (stmt yes tested)))
  | .while_ cond body => cond.moments r ++ body.moments (final (expr cond r))
  | .function f => f.moments .function (r.introduced f.name)
  | .return_ keyword value => value.moments (final (return_ keyword r))
  | .class_ name methods base =>
    let named := { r with klass := some .plain }.introduced name
    let based := if base.isMissing then named else final (superclass name base named)
    base.moments (final (checkSuperclass name base named)) ++
      FunDecl.momentsOf { based with scopes := [("this", true)] :: based.scopes } methods

def Stmt.momentsOf (r : Resolver) : List Stmt → List Visit
  | [] => []
  | s :: ss => s.moments r ++ Stmt.momentsOf (final (stmt s r)) ss

def FunDecl.moments (kind : FunctionKind) (r : Resolver) : FunDecl → List Visit
  | .mk _ params body =>
    let inside := { r with function := some kind, scopes := [] :: r.scopes }
    Stmt.momentsOf (final (parameters params inside)) body

def FunDecl.momentsOf (r : Resolver) : List FunDecl → List Visit
  | [] => []
  | f :: fs =>
    let kind := (f.name.map fun t => methodKind t.lexeme).getD .method
    f.moments kind r ++ FunDecl.momentsOf (final (funDecl f kind r)) fs

end

namespace Resolve

theorem finalOk {α : Type} {x : Resolve α} {r s : Resolver} {a : α} (h : x r = .ok a s) :
    final (x r) = s := by
  rw [h]
  rfl

mutual

theorem momentsExpr (e : Expr) {inClass : Bool} {scopes : List Scope} {r r' : Resolver}
    (place : Stood inClass scopes r) (h : expr e r = .ok () r') :
    e.moments r = e.visits inClass scopes := by
  cases e with
  | missing => rfl
  | literal d => rfl
  | reference node name => rw [Expr.moments, Expr.visits, place.scopes]
  | this node keyword => rw [Expr.moments, Expr.visits, place.scopes, place.klass]
  | super node keyword method => rw [Expr.moments, Expr.visits, place.scopes]
  | assign node name value =>
    obtain ⟨_, s, first, rest⟩ := bindOk.mp h
    have walked := walksExpr value place first
    rw [Expr.moments, Expr.visits, momentsExpr value place first, finalOk first, walked.scopes]
  | unary op right => exact momentsExpr right place h
  | binary left op right =>
    obtain ⟨_, s, first, rest⟩ := bindOk.mp h
    have walked := walksExpr left place first
    rw [Expr.moments, Expr.visits, momentsExpr left place first, finalOk first,
      momentsExpr right (walked.stood place) rest]
  | logical left op right =>
    obtain ⟨_, s, first, rest⟩ := bindOk.mp h
    have walked := walksExpr left place first
    rw [Expr.moments, Expr.visits, momentsExpr left place first, finalOk first,
      momentsExpr right (walked.stood place) rest]
  | grouping inner => exact momentsExpr inner place h
  | call callee paren args =>
    obtain ⟨_, s, first, rest⟩ := bindOk.mp h
    have walked := walksExpr callee place first
    rw [Expr.moments, Expr.visits, momentsExpr callee place first, finalOk first,
      momentsExprs args (walked.stood place) rest]
  | get object name => exact momentsExpr object place h
  | set object name value =>
    obtain ⟨_, s, first, rest⟩ := bindOk.mp h
    have walked := walksExpr object place first
    rw [Expr.moments, Expr.visits, momentsExpr object place first, finalOk first,
      momentsExpr value (walked.stood place) rest]

theorem momentsExprs (es : List Expr) {inClass : Bool} {scopes : List Scope} {r r' : Resolver}
    (place : Stood inClass scopes r) (h : exprs es r = .ok () r') :
    Expr.momentsOf r es = Expr.visitsOf inClass scopes es := by
  cases es with
  | nil => rfl
  | cons e es =>
    obtain ⟨_, s, first, rest⟩ := bindOk.mp h
    have walked := walksExpr e place first
    rw [Expr.momentsOf, Expr.visitsOf, momentsExpr e place first, finalOk first,
      momentsExprs es (walked.stood place) rest]

end

theorem finalIntroduce {t : Option Token} {r s r' : Resolver} (declared : declare t r = .ok () s)
    (defined : define t s = .ok () r') :
    r.introduced t = r' :=
  finalOk (bindOk.mpr ⟨(), s, declared, defined⟩)

theorem momentsOptional (e : Expr) {inClass : Bool} {scopes : List Scope} {r r' : Resolver}
    (place : Stood inClass scopes r)
    (h : (if !e.isMissing then expr e else pure () : Resolve Unit) r = .ok () r') :
    e.moments r = e.visits inClass scopes := by
  cases e with
  | missing => rfl
  | _ => exact momentsExpr _ place h

theorem momentsBase {name : Option Token} {base : Expr} {scopes : List Scope}
    {named based : Resolver} (place : Stood true scopes named)
    (h : if base.isMissing then based = named else superclass name base named = .ok () based) :
    base.moments (final (checkSuperclass name base named)) = base.visits true scopes ∧
      (if base.isMissing then named else final (superclass name base named)) = based := by
  cases base with
  | missing => exact ⟨rfl, by simpa [Expr.isMissing, eq_comm] using h⟩
  | _ =>
    have run := by simpa [Expr.isMissing] using h
    refine ⟨?_, finalOk run⟩
    rw [superclassChecked] at run
    obtain ⟨_, s, checked, run⟩ := bindOk.mp run
    obtain ⟨_, s', run, _⟩ := bindOk.mp run
    have walked := walksCheck place checked
    rw [finalOk checked]
    exact momentsExpr _ (walked.stood ⟨place.scopes, rfl⟩) run

mutual

theorem momentsStmt (s : Stmt) {inClass : Bool} {scopes : List Scope} {r r' : Resolver}
    (place : Stood inClass scopes r) (h : stmt s r = .ok () r') :
    s.moments r = s.visits inClass scopes := by
  cases s with
  | missing => rfl
  | expression e => exact momentsExpr e place h
  | print e => exact momentsExpr e place h
  | var name init =>
    obtain ⟨_, s, declared, rest⟩ := bindOk.mp h
    have walked := walksDeclare declared
    rw [place.scopes] at walked
    rw [Stmt.moments, Stmt.visits, finalOk declared]
    cases init with
    | missing => rfl
    | _ =>
      obtain ⟨_, t, run, _⟩ := bindOk.mp rest
      exact momentsExpr _ (walked.stood place) run
  | block body =>
    obtain ⟨s, run, -⟩ := blockOk h
    exact momentsStmts body ⟨congrArg (List.cons []) place.scopes, place.klass⟩ run
  | if_ cond yes no =>
    obtain ⟨_, s, first, rest⟩ := bindOk.mp h
    obtain ⟨_, t, second, rest⟩ := bindOk.mp rest
    have tested := (walksExpr cond place first).stood place
    have chosen := (walksStmt yes tested second).stood tested
    have last : no.moments t = no.visits inClass (yes.leaves scopes) := by
      cases no with
      | missing => rfl
      | _ => exact momentsStmt _ chosen rest
    rw [Stmt.moments, Stmt.visits, momentsExpr cond place first, finalOk first, finalOk second,
      momentsStmt yes tested second, last]
  | while_ cond body =>
    obtain ⟨_, s, first, rest⟩ := bindOk.mp h
    have tested := (walksExpr cond place first).stood place
    rw [Stmt.moments, Stmt.visits, momentsExpr cond place first, finalOk first,
      momentsStmt body tested rest]
  | function f =>
    obtain ⟨_, s, declared, rest⟩ := bindOk.mp h
    obtain ⟨_, t, defined, rest⟩ := bindOk.mp rest
    have introduced := walksIntroduce declared defined
    rw [place.scopes] at introduced
    rw [Stmt.moments, Stmt.visits, finalIntroduce declared defined]
    exact momentsFunDecl f (introduced.stood place) rest
  | return_ keyword value =>
    obtain ⟨_, s, first, rest⟩ := bindOk.mp h
    have walked := walksReturn first
    rw [place.scopes] at walked
    rw [Stmt.moments, Stmt.visits, finalOk first]
    exact momentsOptional value (walked.stood place) rest
  | class_ name methods base =>
    obtain ⟨declared, named, based, walked, first, second, third, fourth, rfl⟩ := (classOk h).steps
    have within := stoodNamed place first second
    obtain ⟨looked, stands⟩ := momentsBase within third
    rw [Stmt.moments, Stmt.visits, finalIntroduce first second, looked, stands,
      momentsFunDecls methods (stoodMethods within third) fourth]

theorem momentsStmts (ss : List Stmt) {inClass : Bool} {scopes : List Scope} {r r' : Resolver}
    (place : Stood inClass scopes r) (h : stmts ss r = .ok () r') :
    Stmt.momentsOf r ss = Stmt.visitsOf inClass scopes ss := by
  cases ss with
  | nil => rfl
  | cons s ss =>
    obtain ⟨t, first, rest⟩ := stmtsOk h
    have walked := (walksStmt s place first).stood place
    rw [Stmt.momentsOf, Stmt.visitsOf, momentsStmt s place first, finalOk first,
      momentsStmts ss walked rest]

theorem momentsFunDecl (f : FunDecl) {inClass : Bool} {scopes : List Scope} {kind : FunctionKind}
    {r r' : Resolver} (place : Stood inClass scopes r) (h : funDecl f kind r = .ok () r') :
    f.moments kind r = f.visits inClass scopes := by
  cases f with
  | mk name params body =>
    obtain ⟨s, t, first, run, -⟩ := funDeclOk h
    have start : Stood inClass ([] :: scopes)
        { r with function := some kind, scopes := [] :: r.scopes } :=
      ⟨congrArg (List.cons []) place.scopes, place.klass⟩
    have walked := (walksParameters params start first).stood start
    rw [FunDecl.moments, FunDecl.visits, ← momentsStmts body walked run]
    exact congrArg (Stmt.momentsOf · body) (finalOk first)

theorem momentsFunDecls (fs : List FunDecl) {inClass : Bool} {scopes : List Scope}
    {r r' : Resolver} (place : Stood inClass scopes r) (h : funDecls fs r = .ok () r') :
    FunDecl.momentsOf r fs = FunDecl.visitsOf inClass scopes fs := by
  cases fs with
  | nil => rfl
  | cons f fs =>
    obtain ⟨t, u, token, first, rest⟩ := funDeclsOk h
    have walked := (walksFunDecl f place first).stood place
    rw [FunDecl.momentsOf, FunDecl.visitsOf, token]
    dsimp only [Option.map, Option.getD]
    rw [momentsFunDecl f place first, finalOk first, momentsFunDecls fs walked rest]

end

end Resolve
end Lox
