import Lox.Evaluation.Run
import Lox.Proofs.Scopes.Places
import Lox.Proofs.Sequence

/-!
What a run comes by. A run is a tree of tasks, each of which makes others in the machine it has come
to; some tasks open a frame for a scope of the program.
-/

namespace Lox

inductive Task where
  | expr (e : Expr)
  | exprs (es : List Expr)
  | call (f : Value) (args : List Value)
  | routine (r : Routine) (args : List Value)
  | stmt (s : Stmt)
  | stmts (ss : List Stmt)
  | loop (cond : Expr) (body : Stmt)
  | superclass (e : Expr)

open Eval

def Eval.boundInitializer (c : Class) (r : Routine) : Eval Routine := do
  let this ← change fun s => s.newInstance c
  bindRoutine r this

def Machine.entering (m : Machine) (env : Env) (b : Bindings Value) : Machine :=
  { m with store := (m.store.enter env b).2, env := (m.store.enter env b).1 }

/- The first task, with `n + 1` nested calls left, makes the second one with `n` left. What comes
before the second one inside the first is given by the machine between them. -/
inductive Calls (n : Nat) : Task → Machine → Task → Machine → Prop where
  | assigned {node name value m} : Calls n (.expr (.assign node name value)) m (.expr value) m
  | operand {op right m} : Calls n (.expr (.unary op right)) m (.expr right) m
  | binaryLeft {left op right m} : Calls n (.expr (.binary left op right)) m (.expr left) m
  | binaryRight {left op right m v m'} (first : evaluate n left m = .ok v m') :
      Calls n (.expr (.binary left op right)) m (.expr right) m'
  | logicalLeft {left op right m} : Calls n (.expr (.logical left op right)) m (.expr left) m
  | logicalRight {left op right m v m' m''} (first : evaluate n left m = .ok v m')
      (undecided : decides op v m' = .ok false m'') :
      Calls n (.expr (.logical left op right)) m (.expr right) m''
  | inner {e m} : Calls n (.expr (.grouping e)) m (.expr e) m
  | callee {callee paren args m} : Calls n (.expr (.call callee paren args)) m (.expr callee) m
  | arguments {callee paren args m f m'} (first : evaluate n callee m = .ok f m') :
      Calls n (.expr (.call callee paren args)) m (.exprs args) m'
  | called {callee paren args m f m' vs m''} (first : evaluate n callee m = .ok f m')
      (second : evaluateAll n args m' = .ok vs m'') (fits : f.arity? = some vs.length) :
      Calls n (.expr (.call callee paren args)) m (.call f vs) m''
  | getObject {object name m} : Calls n (.expr (.get object name)) m (.expr object) m
  | setObject {object name value m} : Calls n (.expr (.set object name value)) m (.expr object) m
  | setValue {object name value m o m' m''} (first : evaluate n object m = .ok o m')
      (settable : checkSettable o name m' = .ok () m'') :
      Calls n (.expr (.set object name value)) m (.expr value) m''
  | firstExpr {e es m} : Calls n (.exprs (e :: es)) m (.expr e) m
  | laterExprs {e es m v m'} (first : evaluate n e m = .ok v m') :
      Calls n (.exprs (e :: es)) m (.exprs es) m'
  | function {id name r args m} : Calls n (.call (.function id name r) args) m (.routine r args) m
  | construct {c args m r r' m'} (found : c.findMethod? Class.initializer = some r)
      (bound : boundInitializer c r m = .ok r' m') :
      Calls n (.call (.class_ c) args) m (.routine r' args) m'
  | body {r args m b} (bound : bindParameters r.decl.params args [] = .ok b) :
      Calls n (.routine r args) m (.stmts r.decl.body) (m.entering r.closure b)
  | expression {e m} : Calls n (.stmt (.expression e)) m (.expr e) m
  | printed {e m} : Calls n (.stmt (.print e)) m (.expr e) m
  | initializer {name init m} (given : init.isMissing = false) :
      Calls n (.stmt (.var name init)) m (.expr init) m
  | block {ss m} : Calls n (.stmt (.block ss)) m (.stmts ss) (m.entering m.env [])
  | ifCond {cond yes no m} : Calls n (.stmt (.if_ cond yes no)) m (.expr cond) m
  | yes {cond yes no m v m'} (first : evaluate n cond m = .ok v m') (holds : v.truth = .ok true) :
      Calls n (.stmt (.if_ cond yes no)) m (.stmt yes) m'
  | no {cond yes no m v m'} (first : evaluate n cond m = .ok v m') (fails : v.truth = .ok false)
      (given : no.isMissing = false) : Calls n (.stmt (.if_ cond yes no)) m (.stmt no) m'
  | loop {cond s m} : Calls n (.stmt (.while_ cond s)) m (.loop cond s) m
  | returned {keyword value m} (given : value.isMissing = false) :
      Calls n (.stmt (.return_ keyword value)) m (.expr value) m
  | base {name methods base m} (given : base.isMissing = false) :
      Calls n (.stmt (.class_ name methods base)) m (.superclass base) m
  | firstStmt {s ss m} : Calls n (.stmts (s :: ss)) m (.stmt s) m
  | loopCond {cond s m} : Calls n (.loop cond s) m (.expr cond) m
  | loopBody {cond s m v m'} (first : evaluate n cond m = .ok v m') (holds : v.truth = .ok true) :
      Calls n (.loop cond s) m (.stmt s) m'
  | loopAgain {cond s m v m' m''} (first : evaluate n cond m = .ok v m')
      (holds : v.truth = .ok true) (second : execute n s m' = .ok () m'') :
      Calls n (.loop cond s) m (.loop cond s) m''
  | superclass {e m} : Calls n (.superclass e) m (.expr e) m

/- What a run comes by that begins with a task, each with the nested calls left for it. The
statements of a list have the same number left, one after the other. -/
inductive Reaches (n₀ : Nat) (t₀ : Task) (m₀ : Machine) : Nat → Task → Machine → Prop where
  | start : Reaches n₀ t₀ m₀ n₀ t₀ m₀
  | step {n t m t' m'} (before : Reaches n₀ t₀ m₀ (n + 1) t m) (next : Calls n t m t' m') :
      Reaches n₀ t₀ m₀ n t' m'
  | later {n s ss m m'} (before : Reaches n₀ t₀ m₀ (n + 1) (.stmts (s :: ss)) m)
      (first : execute n s m = .ok () m') : Reaches n₀ t₀ m₀ (n + 1) (.stmts ss) m'

inductive Opens (n : Nat) : Task → Machine → Site → Env → Prop where
  | block {ss m} : Opens n (.stmt (.block ss)) m (.block ss) (m.store.enter m.env []).1
  | call {r args m b} (bound : bindParameters r.decl.params args [] = .ok b) :
      Opens n (.routine r args) m (.call r.decl) (m.store.enter r.closure b).1
  | construct {c args m r r' m'} (found : c.findMethod? Class.initializer = some r)
      (bound : boundInitializer c r m = .ok r' m') :
      Opens n (.call (.class_ c) args) m (.this r.decl) r'.closure
  | property {object t m id c m' r r' m''} (first : evaluate n object m = .ok (.instance_ id c) m')
      (found : c.findMethod? t.lexeme = some r)
      (bound : bindRoutine r (.instance_ id c) m' = .ok r' m'') :
      Opens n (.expr (.get object (some t))) m (.this r.decl) r'.closure
  | super {node keyword t m d c this r r' m'} (entry : m.locals.distance? node = some d)
      (base : m.store.readAt m.env d "super" = .ok (.class_ c))
      (receiver : m.store.readAt m.env ((d : Int) - 1) "this" = .ok this)
      (found : c.findMethod? t.lexeme = some r) (bound : bindRoutine r this m = .ok r' m') :
      Opens n (.expr (.super node keyword (some t))) m (.this r.decl) r'.closure
  | superclass {t methods base m c m'} (first : superclass n base m = .ok c m') :
      Opens n (.stmt (.class_ (some t) methods base)) m (.super (some t) methods)
        ((m'.store.defineIn m'.env t.lexeme .nil).enter m'.env [("super", .class_ c)]).1

def Opened (n₀ : Nat) (t₀ : Task) (m₀ : Machine) (σ : Site) (env : Env) : Prop :=
  ∃ n t m, Reaches n₀ t₀ m₀ (n + 1) t m ∧ Opens n t m σ env

end Lox
