import Lox.Bindings
import Lox.Report
import Lox.Tree.Text

/-!
Resolution: for each use of a name inside a scope, how many scopes out the name is found. Names of
the outermost level belong to no scope and get no entry. A fault leaves the scopes as they were.
-/

namespace Lox

inductive Use where
  | reference | assign | this | super
  deriving DecidableEq, Repr

structure Local where
  node : Nat
  use : Use
  name : String
  distance : Nat
  deriving DecidableEq, Repr

abbrev Locals := List Local

namespace Locals

def distance? (ls : Locals) (node : Nat) : Option Nat :=
  (ls.find? fun l => l.node == node).map (·.distance)

def record : Locals → Local → Locals
  | [], l => [l]
  | k :: rest, l => if k.node = l.node then l :: rest else k :: record rest l

end Locals

abbrev Scope := Bindings Bool

inductive FunctionKind where
  | function | method | initializer
  deriving DecidableEq, Repr

inductive ClassKind where
  | plain | subclass
  deriving DecidableEq, Repr

structure Resolver where
  scopes : List Scope := []
  function : Option FunctionKind := none
  klass : Option ClassKind := none
  locals : Locals := []
  log : Log := []

abbrev Resolve := EStateM Fault Resolver

namespace Resolve

def report (message : String) : Resolve Unit :=
  modify fun r => { r with log := r.log ++ [.resolution message] }

def lift {α : Type} (x : Except Fault α) : Resolve α :=
  match x with
  | .ok a => pure a
  | .error f => throw f

def lexeme (t : Option Token) : Resolve String :=
  lift (Lox.lexeme t)

def pushScope (s : Scope) : Resolve Unit :=
  modify fun r => { r with scopes := s :: r.scopes }

def popScope : Resolve Unit :=
  modify fun r => { r with scopes := r.scopes.tail }

def searchDown (scopes : List Scope) (name : String) : (below : Nat) → Option Nat
  | 0 => none
  | i + 1 =>
    if scopes[i]?.any fun s => s.has name then some (scopes.length - 1 - i)
    else searchDown scopes name i

def depth? (scopes : List Scope) (name : String) : Option Nat :=
  searchDown scopes.reverse name scopes.length

theorem searchDownEq (scopes : List Scope) (name : String) {k : Nat} (le : k ≤ scopes.length) :
    searchDown scopes name k =
      ((scopes.take k).reverse.findIdx? fun s => s.has name).map (· + (scopes.length - k)) := by
  induction k with
  | zero => rfl
  | succ i ih =>
    have here : scopes[i]? = some scopes[i] := List.getElem?_eq_getElem le
    rw [searchDown, here, Option.any_some, List.take_succ_eq_append_getElem le, List.reverse_append,
      List.reverse_singleton, List.singleton_append, List.findIdx?_cons]
    cases scopes[i].has name with
    | true => simp [Nat.sub_sub, Nat.add_comm 1]
    | false =>
      simp only [Bool.false_eq_true, if_false]
      rw [ih (Nat.le_of_succ_le le), Option.map_map]
      congr 1
      funext j
      show j + (scopes.length - i) = j + 1 + (scopes.length - (i + 1))
      omega

theorem depthEq (scopes : List Scope) (name : String) :
    depth? scopes name = scopes.findIdx? fun s => s.has name := by
  have all : scopes.reverse.take scopes.length = scopes.reverse :=
    List.take_of_length_le (Nat.le_of_eq List.length_reverse)
  rw [depth?, searchDownEq _ _ (by simp), all, List.reverse_reverse, List.length_reverse,
    Nat.sub_self]
  simp

/-- Without any scope the token is not looked at. -/
def resolveLocal (node : Nat) (use : Use) (t : Option Token) : Resolve Unit := do
  let scopes := (← get).scopes
  if scopes.isEmpty then return
  let name ← lexeme t
  match depth? scopes name with
  | some d => modify fun r => { r with locals := r.locals.record ⟨node, use, name, d⟩ }
  | none => return

def mark (name : String) (ready : Bool) : Resolve Unit :=
  modify fun r => match r.scopes with
    | [] => r
    | s :: rest => { r with scopes := s.put name ready :: rest }

def declare (t : Option Token) : Resolve Unit := do
  match (← get).scopes with
  | [] => return
  | s :: _ =>
    let name ← lexeme t
    if s.has name then
      report ("Already a variable with the name " ++ name ++ " in this scope")
    mark name false

def define (t : Option Token) : Resolve Unit := do
  if (← get).scopes.isEmpty then return
  mark (← lexeme t) true

def reference (node : Nat) (t : Option Token) : Resolve Unit := do
  match (← get).scopes with
  | [] => return
  | s :: _ =>
    let name ← lexeme t
    if s.get? name == some false then
      report (name ++ " Can't read local variable in its own initializer.")
    resolveLocal node .reference t

def this (node : Nat) (keyword : Option Token) : Resolve Unit := do
  if (← get).klass.isNone then
    report ((← lexeme keyword) ++ " Can't use 'this' outside of a class.")
  else resolveLocal node .this keyword

def super (node : Nat) (keyword : Option Token) : Resolve Unit := do
  match (← get).klass with
  | none => report ((← lexeme keyword) ++ ", Can't use 'super' outside of a class.")
  | some .plain =>
    report ((← lexeme keyword) ++ ", Can't use 'super' in a class with no superclass.")
  | some .subclass => pure ()
  resolveLocal node .super keyword

mutual

def expr : Expr → Resolve Unit
  | .missing => throw .notIterable
  | .literal _ => return
  | .reference node name => reference node name
  | .assign node name value => do
    expr value
    resolveLocal node .assign name
  | .this node keyword => this node keyword
  | .super node keyword _ => super node keyword
  | .unary _ right => expr right
  | .binary left _ right => do
    expr left
    expr right
  | .logical left _ right => do
    expr left
    expr right
  | .grouping inner => expr inner
  | .call callee _ args => do
    expr callee
    exprs args
  | .get object _ => expr object
  | .set object _ value => do
    expr object
    expr value

def exprs : List Expr → Resolve Unit
  | [] => return
  | e :: es => do
    expr e
    exprs es

end

def superclassToken : Expr → Except Fault (Option Token)
  | .reference _ t | .assign _ t _ | .get _ t | .set _ t _ => .ok t
  | .missing => .error (.absent "token")
  | .literal _ => .error (.noMember "Literal" "token")
  | .this .. => .error (.noMember "This" "token")
  | .super .. => .error (.noMember "Super" "token")
  | .unary .. => .error (.noMember "Unary" "token")
  | .binary .. => .error (.noMember "Binary" "token")
  | .logical .. => .error (.noMember "Logical" "token")
  | .grouping _ => .error (.noMember "Grouping" "token")
  | .call .. => .error (.noMember "Call" "token")

def superclass (name : Option Token) (e : Expr) : Resolve Unit := do
  let base ← lexeme (← lift (superclassToken e))
  if base == (← lexeme name) then report (base ++ ", A class can't inherit from itself.")
  modify fun r => { r with klass := some .subclass }
  expr e
  pushScope [("super", true)]

def methodKind (name : String) : FunctionKind :=
  if name == "init" then .initializer else .method

def return_ (keyword : Option Token) : Resolve Unit := do
  match (← get).function with
  | none => report (Token.renderOption keyword ++ ", Can't return from top-level code.")
  | some .initializer =>
    report (Token.renderOption keyword ++ ", Can't return from an initializer.")
  | _ => return

def parameters : List (Option Token) → Resolve Unit
  | [] => return
  | p :: ps => do
    declare p
    define p
    parameters ps

mutual

def stmt : Stmt → Resolve Unit
  | .missing => throw .notIterable
  | .expression e => expr e
  | .print e => expr e
  | .var name init => do
    declare name
    if !init.isMissing then expr init
    define name
  | .block body => do
    pushScope []
    stmts body
    popScope
  | .if_ cond yes no => do
    expr cond
    stmt yes
    if !no.isMissing then stmt no
  | .while_ cond body => do
    expr cond
    stmt body
  | .function f => do
    declare f.name
    define f.name
    funDecl f .function
  | .return_ keyword value => do
    return_ keyword
    if !value.isMissing then expr value
  | .class_ name methods base => do
    let enclosing := (← get).klass
    modify fun r => { r with klass := some .plain }
    declare name
    define name
    if !base.isMissing then superclass name base
    pushScope [("this", true)]
    funDecls methods
    popScope
    if !base.isMissing then popScope
    modify fun r => { r with klass := enclosing }

/-- Statements of a list; a hole among them has no way to be visited. -/
def stmts : List Stmt → Resolve Unit
  | [] => return
  | s :: ss => do
    if s.isMissing then throw (.absent "accept")
    stmt s
    stmts ss

def funDecl : FunDecl → FunctionKind → Resolve Unit
  | .mk _ params body, kind => do
    let enclosing := (← get).function
    modify fun r => { r with function := some kind }
    pushScope []
    parameters params
    stmts body
    popScope
    modify fun r => { r with function := enclosing }

def funDecls : List FunDecl → Resolve Unit
  | [] => return
  | f :: fs => do
    let name ← lexeme f.name
    funDecl f (methodKind name)
    funDecls fs

end

def tree : Tree → Resolve Unit
  | .program body => stmts body
  | .expression e => expr e

end Resolve
end Lox
