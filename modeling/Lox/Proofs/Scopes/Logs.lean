import Lox.Proofs.Sequence
import Lox.Resolution

/-!
Resolution adds to its log and never reads it.
-/

namespace Lox.Resolve

def afterLog (log : Log) (r : Resolver) : Resolver := { r with log := log ++ r.log }

variable {log : Log}

theorem logReport (message : String) : Commutes (afterLog log) (report message) :=
  commutesModify fun r => by simp [afterLog]

theorem logLift {α : Type} (x : Except Fault α) : Commutes (afterLog log) (lift x) := by
  cases x with
  | ok a => exact commutesPure a
  | error f => exact commutesThrow f

theorem logLexeme (t : Option Token) : Commutes (afterLog log) (lexeme t) := logLift _

theorem logPush (s : Scope) : Commutes (afterLog log) (pushScope s) := commutesModify fun _ => rfl

theorem logPop : Commutes (afterLog log) popScope := commutesModify fun _ => rfl

theorem logResolveLocal (node : Nat) (use : Use) (t : Option Token) :
    Commutes (afterLog log) (resolveLocal node use t) := by
  refine commutesGet (fun _ => rfl) fun r => ?_
  dsimp only
  split
  · exact commutesPure _
  · refine (logLexeme t).bind fun name => ?_
    split
    · exact commutesModify fun _ => rfl
    · exact commutesPure _

theorem logMark (name : String) (ready : Bool) : Commutes (afterLog log) (mark name ready) := by
  refine commutesModify fun ⟨scopes, _, _, _, _⟩ => ?_
  cases scopes <;> rfl

theorem logDeclare (t : Option Token) : Commutes (afterLog log) (declare t) := by
  refine commutesGet (fun _ => rfl) fun r => ?_
  cases r.scopes with
  | nil => exact commutesPure _
  | cons s rest =>
    refine (logLexeme t).bind fun name => ?_
    split
    · exact (logReport _).bind fun _ => logMark _ _
    · exact logMark _ _

theorem logDefine (t : Option Token) : Commutes (afterLog log) (define t) := by
  refine commutesGet (fun _ => rfl) fun r => ?_
  split
  · exact commutesPure _
  · exact (logLexeme t).bind fun _ => logMark _ _

theorem logReference (node : Nat) (t : Option Token) :
    Commutes (afterLog log) (reference node t) := by
  refine commutesGet (fun _ => rfl) fun r => ?_
  cases r.scopes with
  | nil => exact commutesPure _
  | cons s rest =>
    refine (logLexeme t).bind fun name => ?_
    split
    · exact (logReport _).bind fun _ => logResolveLocal _ _ _
    · exact logResolveLocal _ _ _

theorem logThis (node : Nat) (t : Option Token) : Commutes (afterLog log) (this node t) := by
  refine commutesGet (fun _ => rfl) fun r => ?_
  split
  · exact (logLexeme t).bind fun _ => logReport _
  · exact logResolveLocal _ _ _

theorem logSuper (node : Nat) (t : Option Token) : Commutes (afterLog log) (super node t) := by
  refine commutesGet (fun _ => rfl) fun r => ?_
  have told : ∀ text : String → String, Commutes (afterLog log)
      (do report (text (← lexeme t)); resolveLocal node .super t) :=
    fun text => (logLexeme t).bind fun _ => (logReport _).bind fun _ => logResolveLocal _ _ _
  cases r.klass with
  | none => exact told fun name => name ++ ", Can't use 'super' outside of a class."
  | some k =>
    cases k with
    | plain => exact told fun name => name ++ ", Can't use 'super' in a class with no superclass."
    | subclass => exact logResolveLocal _ _ _

theorem logReturn (t : Option Token) : Commutes (afterLog log) (return_ t) := by
  refine commutesGet (fun _ => rfl) fun r => ?_
  split
  · exact logReport _
  · exact logReport _
  · exact commutesPure _

theorem logParameters (ps : List (Option Token)) : Commutes (afterLog log) (parameters ps) := by
  induction ps with
  | nil => exact commutesPure _
  | cons p ps ih => exact (logDeclare p).bind fun _ => (logDefine p).bind fun _ => ih

mutual

theorem logExpr (e : Expr) : Commutes (afterLog log) (expr e) := by
  cases e with
  | missing => exact commutesThrow _
  | literal d => exact commutesPure _
  | reference node name => exact logReference node name
  | assign node name value => exact (logExpr value).bind fun _ => logResolveLocal node .assign name
  | this node keyword => exact logThis node keyword
  | super node keyword method => exact logSuper node keyword
  | unary op right => exact logExpr right
  | binary left op right => exact (logExpr left).bind fun _ => logExpr right
  | logical left op right => exact (logExpr left).bind fun _ => logExpr right
  | grouping inner => exact logExpr inner
  | call callee paren args => exact (logExpr callee).bind fun _ => logExprs args
  | get object name => exact logExpr object
  | set object name value => exact (logExpr object).bind fun _ => logExpr value

theorem logExprs (es : List Expr) : Commutes (afterLog log) (exprs es) := by
  match es with
  | [] => exact commutesPure _
  | e :: es => exact (logExpr e).bind fun _ => logExprs es

end

theorem logGiven {b : Bool} {x : Resolve Unit} (h : Commutes (afterLog log) x) :
    Commutes (afterLog log) (if b then x else pure ()) := by
  split
  · exact h
  · exact commutesPure _

theorem logSuperclass (name : Option Token) (e : Expr) :
    Commutes (afterLog log) (superclass name e) := by
  have rest : Commutes (afterLog log) (do
      modify fun r => { r with klass := some .subclass }
      expr e
      pushScope [("super", true)]) := by
    refine Commutes.bind (commutesModify ?_) fun _ => (logExpr e).bind fun _ => logPush _
    exact fun _ => rfl
  refine (logLift _).bind fun t => (logLexeme t).bind fun base => (logLexeme name).bind fun own => ?_
  split
  · exact (logReport _).bind fun _ => rest
  · exact rest

mutual

theorem logStmt (s : Stmt) : Commutes (afterLog log) (stmt s) := by
  cases s with
  | missing => exact commutesThrow _
  | expression e => exact logExpr e
  | print e => exact logExpr e
  | var name init =>
    refine (logDeclare name).bind fun _ => ?_
    split
    · exact (logExpr init).bind fun _ => logDefine name
    · exact logDefine name
  | block body =>
    exact (logPush []).bind fun _ => (logStmts body).bind fun _ => logPop
  | if_ cond yes no =>
    exact (logExpr cond).bind fun _ => (logStmt yes).bind fun _ => logGiven (logStmt no)
  | while_ cond body => exact (logExpr cond).bind fun _ => logStmt body
  | function f =>
    exact (logDeclare f.name).bind fun _ => (logDefine f.name).bind fun _ => logFunDecl f .function
  | return_ keyword value => exact (logReturn keyword).bind fun _ => logGiven (logExpr value)
  | class_ name methods base =>
    refine commutesGet (fun _ => rfl) fun r => ?_
    have last : Commutes (afterLog log)
        (modify fun r' => { r' with klass := r.klass } : Resolve PUnit) :=
      commutesModify fun _ => rfl
    have body : ∀ {x : Resolve Unit}, Commutes (afterLog log) x → Commutes (afterLog log) (do
        pushScope [("this", true)]
        funDecls methods
        popScope
        x) :=
      fun h => (logPush _).bind fun _ => (logFunDecls methods).bind fun _ => logPop.bind fun _ => h
    refine Commutes.bind (commutesModify fun _ => rfl) fun _ => ?_
    refine (logDeclare name).bind fun _ => (logDefine name).bind fun _ => ?_
    split
    · exact (logSuperclass name base).bind fun _ => body (logPop.bind fun _ => last)
    · exact body last

theorem logStmts (ss : List Stmt) : Commutes (afterLog log) (stmts ss) := by
  match ss with
  | [] => exact commutesPure _
  | s :: ss =>
    have rest : Commutes (afterLog log) (do stmt s; stmts ss) :=
      (logStmt s).bind fun _ => logStmts ss
    unfold stmts
    split
    · exact (commutesThrow _).bind fun _ => rest
    · exact rest

theorem logFunDecl (f : FunDecl) (kind : FunctionKind) :
    Commutes (afterLog log) (funDecl f kind) := by
  obtain ⟨name, params, body⟩ := f
  refine commutesGet (fun _ => rfl) fun r => ?_
  refine Commutes.bind (commutesModify fun _ => rfl) fun _ => (logPush []).bind fun _ => ?_
  refine (logParameters params).bind fun _ => (logStmts body).bind fun _ => logPop.bind fun _ => ?_
  exact commutesModify fun _ => rfl

theorem logFunDecls (fs : List FunDecl) : Commutes (afterLog log) (funDecls fs) := by
  match fs with
  | [] => exact commutesPure _
  | f :: fs =>
    exact (logLexeme f.name).bind fun _ => (logFunDecl f _).bind fun _ => logFunDecls fs

end

end Lox.Resolve
