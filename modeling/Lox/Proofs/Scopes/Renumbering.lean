import Lox.Proofs.Sequence
import Lox.Resolution
import Lox.Tree.Number

/-!
Resolution and node numbers. A number is only written into an entry, so a tree that is numbered from
elsewhere is resolved in the same way, with as many reports and with entries if there were some.
-/

namespace Lox

theorem numberMissing (e : Expr) (n : Nat) : (e.number n).1.isMissing = e.isMissing := by
  cases e <;> rfl

theorem numberMissingStmt (s : Stmt) (n : Nat) : (s.number n).1.isMissing = s.isMissing := by
  cases s <;> rfl

theorem numberName (f : FunDecl) (n : Nat) : (f.number n).1.name = f.name := by
  cases f
  rfl

def Resolver.face (r : Resolver) :
    List Scope × Option FunctionKind × Option ClassKind × Log × Bool :=
  (r.scopes, r.function, r.klass, r.log, r.locals.isEmpty)

namespace Resolve

variable {r r' : Resolver}

theorem faceScopes (same : r.face = r'.face) : r.scopes = r'.scopes :=
  congrArg (fun face => face.1) same

theorem faceFunction (same : r.face = r'.face) : r.function = r'.function :=
  congrArg (fun face => face.2.1) same

theorem faceKlass (same : r.face = r'.face) : r.klass = r'.klass :=
  congrArg (fun face => face.2.2.1) same

theorem alikeReport (message : String) : Alike Resolver.face (report message) (report message) := by
  refine alikeModify fun r r' same => ?_
  simp only [Resolver.face, Prod.mk.injEq] at same ⊢
  exact ⟨same.1, same.2.1, same.2.2.1, by rw [same.2.2.2.1], same.2.2.2.2⟩

theorem alikeLift {α : Type} (x : Except Fault α) : Alike Resolver.face (lift x) (lift x) := by
  cases x with
  | ok a => exact alikePure a
  | error f => exact alikeThrow f

theorem alikeLexeme (t : Option Token) : Alike Resolver.face (lexeme t) (lexeme t) := alikeLift _

theorem alikePush (s : Scope) : Alike Resolver.face (pushScope s) (pushScope s) := by
  refine alikeModify fun r r' same => ?_
  simp only [Resolver.face, Prod.mk.injEq] at same ⊢
  exact ⟨by rw [same.1], same.2⟩

theorem alikePop : Alike Resolver.face popScope popScope := by
  refine alikeModify fun r r' same => ?_
  simp only [Resolver.face, Prod.mk.injEq] at same ⊢
  exact ⟨by rw [same.1], same.2⟩

theorem alikeKlass (k : Option ClassKind) :
    Alike Resolver.face (modify fun r => { r with klass := k } : Resolve PUnit)
      (modify fun r => { r with klass := k }) := by
  refine alikeModify fun r r' same => ?_
  simp only [Resolver.face, Prod.mk.injEq] at same ⊢
  exact ⟨same.1, same.2.1, trivial, same.2.2.2⟩

theorem alikeFunction (k : Option FunctionKind) :
    Alike Resolver.face (modify fun r => { r with function := k } : Resolve PUnit)
      (modify fun r => { r with function := k }) := by
  refine alikeModify fun r r' same => ?_
  simp only [Resolver.face, Prod.mk.injEq] at same ⊢
  exact ⟨same.1, trivial, same.2.2⟩

theorem recordSome (ls : Locals) (l : Local) : (ls.record l).isEmpty = false := by
  cases ls with
  | nil => rfl
  | cons k ls =>
    unfold Locals.record
    split <;> rfl

theorem alikeResolveLocal (node node' : Nat) (use : Use) (t : Option Token) :
    Alike Resolver.face (resolveLocal node use t) (resolveLocal node' use t) := by
  refine alikeGet fun r r' same => ?_
  rw [faceScopes same]
  dsimp only
  split
  · exact alikePure _
  · refine (alikeLexeme t).bind fun name => ?_
    split
    · refine alikeModify fun s s' same => ?_
      simp only [Resolver.face, Prod.mk.injEq, recordSome] at same ⊢
      exact ⟨same.1, same.2.1, same.2.2.1, same.2.2.2.1, trivial⟩
    · exact alikePure _

theorem alikeMark (name : String) (ready : Bool) :
    Alike Resolver.face (mark name ready) (mark name ready) := by
  refine alikeModify fun ⟨scopes, _, _, _, _⟩ ⟨scopes', _, _, _, _⟩ same => ?_
  cases faceScopes same
  simp only [Resolver.face, Prod.mk.injEq] at same
  cases scopes with
  | nil => simpa [Resolver.face] using same
  | cons s rest => simpa [Resolver.face] using same.2

theorem alikeDeclare (t : Option Token) : Alike Resolver.face (declare t) (declare t) := by
  refine alikeGet fun r r' same => ?_
  rw [faceScopes same]
  cases r'.scopes with
  | nil => exact alikePure _
  | cons s rest =>
    refine (alikeLexeme t).bind fun name => ?_
    split
    · exact (alikeReport _).bind fun _ => alikeMark _ _
    · exact alikeMark _ _

theorem alikeDefine (t : Option Token) : Alike Resolver.face (define t) (define t) := by
  refine alikeGet fun r r' same => ?_
  rw [faceScopes same]
  split
  · exact alikePure _
  · exact (alikeLexeme t).bind fun _ => alikeMark _ _

theorem alikeReference (node node' : Nat) (t : Option Token) :
    Alike Resolver.face (reference node t) (reference node' t) := by
  refine alikeGet fun r r' same => ?_
  rw [faceScopes same]
  cases r'.scopes with
  | nil => exact alikePure _
  | cons s rest =>
    refine (alikeLexeme t).bind fun name => ?_
    split
    · exact (alikeReport _).bind fun _ => alikeResolveLocal _ _ _ _
    · exact alikeResolveLocal _ _ _ _

theorem alikeThis (node node' : Nat) (t : Option Token) :
    Alike Resolver.face (this node t) (this node' t) := by
  refine alikeGet fun r r' same => ?_
  rw [faceKlass same]
  split
  · exact (alikeLexeme t).bind fun _ => alikeReport _
  · exact alikeResolveLocal _ _ _ _

theorem alikeSuper (node node' : Nat) (t : Option Token) :
    Alike Resolver.face (super node t) (super node' t) := by
  have told : ∀ text : String → String, Alike Resolver.face
      (do report (text (← lexeme t)); resolveLocal node .super t)
      (do report (text (← lexeme t)); resolveLocal node' .super t) :=
    fun text => (alikeLexeme t).bind fun _ => (alikeReport _).bind fun _ =>
      alikeResolveLocal _ _ _ _
  refine alikeGet fun r r' same => ?_
  rw [faceKlass same]
  cases r'.klass with
  | none => exact told fun name => name ++ ", Can't use 'super' outside of a class."
  | some k =>
    cases k with
    | plain => exact told fun name => name ++ ", Can't use 'super' in a class with no superclass."
    | subclass => exact alikeResolveLocal _ _ _ _

theorem alikeReturn (t : Option Token) : Alike Resolver.face (return_ t) (return_ t) := by
  refine alikeGet fun r r' same => ?_
  rw [faceFunction same]
  split
  · exact alikeReport _
  · exact alikeReport _
  · exact alikePure _

theorem alikeParameters (ps : List (Option Token)) :
    Alike Resolver.face (parameters ps) (parameters ps) := by
  induction ps with
  | nil => exact alikePure _
  | cons p ps ih => exact (alikeDeclare p).bind fun _ => (alikeDefine p).bind fun _ => ih

mutual

theorem alikeExpr (e : Expr) (n k : Nat) :
    Alike Resolver.face (expr (e.number n).1) (expr (e.number k).1) := by
  cases e with
  | missing => exact alikeThrow _
  | literal d => exact alikePure _
  | reference node name => exact alikeReference n k name
  | this node keyword => exact alikeThis n k keyword
  | super node keyword method => exact alikeSuper n k keyword
  | assign node name value =>
    exact (alikeExpr value n k).bind fun _ => alikeResolveLocal _ _ .assign name
  | unary op right => exact alikeExpr right n k
  | binary left op right => exact (alikeExpr left n k).bind fun _ => alikeExpr right _ _
  | logical left op right => exact (alikeExpr left n k).bind fun _ => alikeExpr right _ _
  | grouping inner => exact alikeExpr inner n k
  | call callee paren args => exact (alikeExpr callee n k).bind fun _ => alikeExprs args _ _
  | get object name => exact alikeExpr object n k
  | set object name value => exact (alikeExpr object n k).bind fun _ => alikeExpr value _ _

theorem alikeExprs (es : List Expr) (n k : Nat) :
    Alike Resolver.face (exprs (Expr.numberAll es n).1) (exprs (Expr.numberAll es k).1) := by
  match es with
  | [] => exact alikePure _
  | e :: es => exact (alikeExpr e n k).bind fun _ => alikeExprs es _ _

end

theorem alikeGiven {b : Bool} {x y : Resolve Unit} (h : Alike Resolver.face x y) :
    Alike Resolver.face (if b then x else pure ()) (if b then y else pure ()) := by
  split
  · exact h
  · exact alikePure _

theorem alikeSuperclass (name : Option Token) (e : Expr) (n k : Nat) :
    Alike Resolver.face (superclass name (e.number n).1) (superclass name (e.number k).1) := by
  have tokens : superclassToken (e.number n).1 = superclassToken (e.number k).1 := by
    cases e <;> rfl
  have rest := (alikeKlass (some .subclass)).bind fun _ =>
    (alikeExpr e n k).bind fun _ => alikePush [("super", true)]
  unfold superclass
  rw [tokens]
  refine (alikeLift _).bind fun t => (alikeLexeme t).bind fun base => ?_
  refine (alikeLexeme name).bind fun own => ?_
  split
  · exact (alikeReport _).bind fun _ => rest
  · exact rest

mutual

theorem alikeStmt (s : Stmt) (n k : Nat) :
    Alike Resolver.face (stmt (s.number n).1) (stmt (s.number k).1) := by
  cases s with
  | missing => exact alikeThrow _
  | expression e => exact alikeExpr e n k
  | print e => exact alikeExpr e n k
  | var name init =>
    refine (alikeDeclare name).bind fun _ => ?_
    rw [numberMissing, numberMissing]
    split
    · exact (alikeExpr init n k).bind fun _ => alikeDefine name
    · exact alikeDefine name
  | block body =>
    exact (alikePush []).bind fun _ => (alikeStmts body n k).bind fun _ => alikePop
  | if_ cond yes no =>
    refine (alikeExpr cond n k).bind fun _ => (alikeStmt yes _ _).bind fun _ => ?_
    rw [numberMissingStmt, numberMissingStmt]
    exact alikeGiven (alikeStmt no _ _)
  | while_ cond body => exact (alikeExpr cond n k).bind fun _ => alikeStmt body _ _
  | function f =>
    show Alike Resolver.face
      (do declare (f.number n).1.name; define (f.number n).1.name; funDecl (f.number n).1 .function)
      (do declare (f.number k).1.name; define (f.number k).1.name; funDecl (f.number k).1 .function)
    rw [numberName, numberName]
    refine (alikeDeclare f.name).bind fun _ => (alikeDefine f.name).bind fun _ => ?_
    exact alikeFunDecl f .function n k
  | return_ keyword value =>
    refine (alikeReturn keyword).bind fun _ => ?_
    rw [numberMissing, numberMissing]
    exact alikeGiven (alikeExpr value n k)
  | class_ name methods base =>
    refine alikeGet fun r r' same => ?_
    rw [faceKlass same]
    have body : ∀ {x : Resolve Unit}, Alike Resolver.face x x → Alike Resolver.face
        (do
          pushScope [("this", true)]
          funDecls (FunDecl.numberAll methods n).1
          popScope
          x)
        (do
          pushScope [("this", true)]
          funDecls (FunDecl.numberAll methods k).1
          popScope
          x) :=
      fun h => (alikePush _).bind fun _ => (alikeFunDecls methods n k).bind fun _ =>
        alikePop.bind fun _ => h
    refine (alikeKlass _).bind fun _ => (alikeDeclare name).bind fun _ => ?_
    refine (alikeDefine name).bind fun _ => ?_
    rw [numberMissing, numberMissing]
    split
    · refine (alikeSuperclass name base _ _).bind fun _ => body ?_
      exact alikePop.bind fun _ => alikeKlass _
    · exact body (alikeKlass _)

theorem alikeStmts (ss : List Stmt) (n k : Nat) :
    Alike Resolver.face (stmts (Stmt.numberAll ss n).1) (stmts (Stmt.numberAll ss k).1) := by
  match ss with
  | [] => exact alikePure _
  | s :: ss =>
    show Alike Resolver.face
      (do
        if (s.number n).1.isMissing then throw (.absent "accept")
        stmt (s.number n).1
        stmts (Stmt.numberAll ss (s.number n).2).1)
      (do
        if (s.number k).1.isMissing then throw (.absent "accept")
        stmt (s.number k).1
        stmts (Stmt.numberAll ss (s.number k).2).1)
    rw [numberMissingStmt, numberMissingStmt]
    have rest := (alikeStmt s n k).bind fun _ => alikeStmts ss (s.number n).2 (s.number k).2
    split
    · exact (alikeThrow _).bind fun _ => rest
    · exact rest

theorem alikeFunDecl (f : FunDecl) (kind : FunctionKind) (n k : Nat) :
    Alike Resolver.face (funDecl (f.number n).1 kind) (funDecl (f.number k).1 kind) := by
  obtain ⟨name, params, body⟩ := f
  refine alikeGet fun r r' same => ?_
  rw [faceFunction same]
  refine (alikeFunction _).bind fun _ => (alikePush []).bind fun _ => ?_
  refine (alikeParameters params).bind fun _ => (alikeStmts body n k).bind fun _ => ?_
  exact alikePop.bind fun _ => alikeFunction _

theorem alikeFunDecls (fs : List FunDecl) (n k : Nat) :
    Alike Resolver.face (funDecls (FunDecl.numberAll fs n).1)
      (funDecls (FunDecl.numberAll fs k).1) := by
  match fs with
  | [] => exact alikePure _
  | f :: fs =>
    show Alike Resolver.face
      (do
        let name ← lexeme (f.number n).1.name
        funDecl (f.number n).1 (methodKind name)
        funDecls (FunDecl.numberAll fs (f.number n).2).1)
      (do
        let name ← lexeme (f.number k).1.name
        funDecl (f.number k).1 (methodKind name)
        funDecls (FunDecl.numberAll fs (f.number k).2).1)
    rw [numberName, numberName]
    refine (alikeLexeme f.name).bind fun name => ?_
    exact (alikeFunDecl f _ n k).bind fun _ => alikeFunDecls fs _ _

end

theorem renumbered {body : List Stmt} {n : Nat}
    (walk : stmts (Stmt.numberAll body n).1 {} = .ok () {}) (k : Nat) :
    stmts (Stmt.numberAll body k).1 {} = .ok () {} := by
  have same := alikeStmts body n k {} {} rfl
  rw [walk] at same
  cases again : stmts (Stmt.numberAll body k).1 {} with
  | error f r =>
    rw [again] at same
    cases same
  | ok _ r =>
    rw [again] at same
    obtain ⟨-, face⟩ := EStateM.Result.ok.inj same
    cases r
    simp_all [Resolver.face]

end Resolve
end Lox
