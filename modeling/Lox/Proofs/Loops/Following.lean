import Lox.Proofs.Loops.Scopes

/-!
The resolver beside itself. What is resolved without a report among some scopes is resolved without
a report among scopes that fit them: scopes without names in between make no difference, apart from
names that are missing, which are noticed inside of scopes only.
-/

namespace Lox

def Layout.Inside (π : Layout) : Prop := ∃ side ∈ π, side ≠ .right

namespace Resolve

structure Fit (π : Layout) (r r' : Resolver) : Prop where
  scopes : ScopesFit π r.scopes r'.scopes
  function : r.function = r'.function
  klass : r.klass = r'.klass

structure Follows {α : Type} (π ρ : Layout) (x y : Resolve α) : Prop where
  grows : ∀ {r a s}, x r = .ok a s → Reports r.log s.log
  follows : ∀ {r r' a s}, Fit π r r' → x r = .ok a s → s.log = r.log →
    ∃ s', y r' = .ok a s' ∧ s'.log = r'.log ∧ Fit ρ s s'

variable {α β κ : Type} {π ρ σ : Layout} {x y : Resolve α} {f g : α → Resolve β}

theorem followsPure (a : α) : Follows π π (pure a) (pure a) where
  grows := by
    rintro r _ _ ⟨⟩
    exact .refl _
  follows := by
    rintro r r' _ _ fit ⟨⟩ _
    exact ⟨r', rfl, rfl, fit⟩

theorem followsThrow (e : Fault) : Follows π ρ (throw e : Resolve α) y where
  grows := by rintro r _ _ ⟨⟩
  follows := by rintro r r' _ _ _ ⟨⟩

theorem followsReport (message : String) {y : Resolve Unit} : Follows π ρ (report message) y where
  grows h := (reportOk h).1.log
  follows _ h silent := absurd (reportOk h).2 (by rw [silent]; exact Nat.lt_irrefl _)

theorem Follows.bind (first : Follows π ρ x y) (rest : ∀ a, Follows ρ σ (f a) (g a)) :
    Follows π σ (x >>= f) (y >>= g) where
  grows run := by
    obtain ⟨a, s, run₁, run₂⟩ := bindOk.mp run
    exact (first.grows run₁).trans ((rest a).grows run₂)
  follows := by
    intro r r' b t fit run silent
    obtain ⟨a, s, run₁, run₂⟩ := bindOk.mp run
    have half : s.log = r.log := by
      refine Reports.antisymm ?_ (first.grows run₁)
      rw [← silent]
      exact (rest a).grows run₂
    obtain ⟨s', run₁', silent', fit'⟩ := first.follows fit run₁ half
    obtain ⟨t', run₂', last, fit''⟩ := (rest a).follows fit' run₂ (silent.trans half.symm)
    exact ⟨t', bindOk.mpr ⟨a, s', run₁', run₂'⟩, last.trans silent', fit''⟩

theorem followsGet {f g : Resolver → Resolve α}
    (grows : ∀ {r a s}, (get >>= f) r = .ok a s → Reports r.log s.log)
    (rest : ∀ r r', Fit π r r' → Follows π ρ (f r) (g r')) :
    Follows π ρ (get >>= f) (get >>= g) where
  grows := grows
  follows fit run silent := (rest _ _ fit).follows fit run silent

theorem followsModify {f : Resolver → Resolver} (log : ∀ r, (f r).log = r.log)
    (fits : ∀ {r r'}, Fit π r r' → Fit ρ (f r) (f r')) :
    Follows π ρ (modify f : Resolve PUnit) (modify f) where
  grows := by
    rintro r _ _ ⟨⟩
    rw [log]
    exact .refl _
  follows := by
    rintro r r' _ _ fit ⟨⟩ _
    exact ⟨f r', rfl, log r', fits fit⟩

theorem followsPush (names : Scope) :
    Follows π (.both :: π) (pushScope names) (pushScope names) :=
  followsModify (fun _ => rfl) fun fit => ⟨.both names fit.scopes, fit.function, fit.klass⟩

theorem followsPop : Follows (.both :: π) π popScope popScope := by
  refine followsModify (fun _ => rfl) fun {r r'} fit => ⟨?_, fit.function, fit.klass⟩
  obtain ⟨scopes, _, _⟩ := fit
  generalize r.scopes = S at scopes
  generalize r'.scopes = S' at scopes
  cases scopes with
  | both names outer => exact outer

theorem followsKlass (k : Option ClassKind) :
    Follows π π (modify fun r => { r with klass := k } : Resolve PUnit)
      (modify fun r => { r with klass := k }) :=
  followsModify (fun _ => rfl) fun fit => ⟨fit.scopes, fit.function, rfl⟩

theorem followsFunction (k : Option FunctionKind) :
    Follows π π (modify fun r => { r with function := k } : Resolve PUnit)
      (modify fun r => { r with function := k }) :=
  followsModify (fun _ => rfl) fun fit => ⟨fit.scopes, rfl, fit.klass⟩

theorem followsLexeme (t : Option Token) : Follows π π (lexeme t) (lexeme t) := by
  cases t with
  | none => exact followsThrow _
  | some u => exact followsPure _

theorem insideScopes {S S' : List Scope} (fit : ScopesFit π S S') (inside : π.Inside) : S ≠ [] := by
  obtain ⟨side, mem, other⟩ := inside
  induction fit with
  | beyond => cases mem
  | both => exact List.cons_ne_nil _ _
  | left => exact List.cons_ne_nil _ _
  | right _ ih =>
    rcases List.mem_cons.mp mem with rfl | mem
    · exact absurd rfl other
    · exact ih mem

theorem Fit.stays {nodes nodes' : List Nat} {r r' s s' : Resolver} (fit : Fit π r r')
    (left : Stays nodes r s) (right : Stays nodes' r' s') : Fit π s s' := by
  refine ⟨?_, ?_, ?_⟩
  · rw [left.scopes, right.scopes]
    exact fit.scopes
  · rw [left.function, right.function, fit.function]
  · rw [left.klass, right.klass, fit.klass]

theorem followsResolveLocal (node : Nat) (use : Use) {t : Option Token}
    (named : π.Inside ∨ t ≠ none) :
    Follows π π (resolveLocal node use t) (resolveLocal node use t) where
  grows run := (resolveLocalOk run).1.log
  follows := by
    intro r r' a s fit run silent
    obtain ⟨u, rfl⟩ : ∃ u, t = some u := by
      cases t with
      | some u => exact ⟨u, rfl⟩
      | none =>
        have inside := insideScopes fit.scopes (named.resolve_right fun bad => bad rfl)
        exact absurd (resolveLocalNone run).1 inside
    obtain ⟨s', run', silent'⟩ := resolveLocalRuns node use u r'
    exact ⟨s', run', silent', fit.stays (resolveLocalOk run).1 (resolveLocalOk run').1⟩

theorem followsReference (node : Nat) {t : Option Token} (named : π.Inside ∨ t ≠ none) :
    Follows π π (reference node t) (reference node t) where
  grows run := (referenceOk run).1.log
  follows := by
    intro r r' a s fit run silent
    obtain ⟨kept, told⟩ := referenceOk run
    obtain ⟨-, ready⟩ := told silent
    obtain ⟨u, rfl⟩ : ∃ u, t = some u := by
      cases t with
      | some u => exact ⟨u, rfl⟩
      | none =>
        have inside := insideScopes fit.scopes (named.resolve_right fun bad => bad rfl)
        obtain ⟨_, _, got, start⟩ := bindOk.mp run
        cases got
        cases scopes : r.scopes with
        | nil => exact absurd scopes inside
        | cons names outer =>
          rw [scopes] at start
          cases start
    have ready' : ∀ names ∈ r'.scopes.head?, names.get? u.lexeme ≠ some false := by
      have scopes := fit.scopes
      generalize r.scopes = S at scopes ready
      generalize r'.scopes = S' at scopes
      cases scopes with
      | beyond => exact fun names head => ready names head u rfl
      | both => exact fun names head => ready names head u rfl
      | left ready' => exact fun names head => ready' names head u.lexeme
      | right => rintro _ ⟨⟩ ⟨⟩
    obtain ⟨s', run', silent'⟩ := referenceRuns node ready'
    exact ⟨s', run', silent', fit.stays kept (referenceOk run').1⟩

theorem followsThis (node : Nat) {t : Option Token} (named : t ≠ none) :
    Follows π π (this node t) (this node t) := by
  refine followsGet (fun run => (thisOk run).1.log) fun r r' fit => ?_
  rw [fit.klass]
  split
  · exact (followsLexeme t).bind fun _ => followsReport _
  · exact followsResolveLocal node .this (.inr named)

theorem followsSuper (node : Nat) {t : Option Token} (named : t ≠ none) :
    Follows π π (super node t) (super node t) := by
  have rest := followsResolveLocal (π := π) node .super (t := t) (.inr named)
  refine followsGet (fun run => (superOk run).1.log) fun r r' fit => ?_
  rw [fit.klass]
  cases r'.klass with
  | none => exact (followsLexeme t).bind fun _ => Follows.bind (followsReport _) fun _ => rest
  | some k =>
    cases k with
    | plain => exact (followsLexeme t).bind fun _ => Follows.bind (followsReport _) fun _ => rest
    | subclass => exact rest

theorem followsReturn (t : Option Token) : Follows π π (return_ t) (return_ t) := by
  refine followsGet (fun run => (staysReturn run).log) fun r r' fit => ?_
  rw [fit.function]
  split
  · exact followsReport _
  · exact followsReport _
  · exact followsPure _

theorem openScopes {S S' : List Scope} (fit : ScopesFit π S S') (isOpen : π.Open) :
    S = [] ∧ S' = [] ∨ ∃ names outer outer', S = names :: outer ∧ S' = names :: outer' := by
  cases fit with
  | beyond =>
    cases S with
    | nil => exact .inl ⟨rfl, rfl⟩
    | cons names outer => exact .inr ⟨names, outer, outer, rfl, rfl⟩
  | both names outer => exact .inr ⟨names, _, _, rfl, rfl⟩
  | left => cases isOpen
  | right => cases isOpen

theorem markPut (u : Token) (ready : Bool) : mark u.lexeme ready =
    modify fun r => { r with scopes := putName r.scopes (some u) ready } := by
  funext r
  unfold mark
  rw [modifyRun, modifyRun]
  cases r with
  | mk scopes => cases scopes <;> rfl

theorem followsMark (isOpen : π.Open) (u : Token) (ready : Bool) :
    Follows π π (mark u.lexeme ready) (mark u.lexeme ready) := by
  rw [markPut]
  exact followsModify (fun _ => rfl) fun fit =>
    ⟨fit.scopes.put isOpen (some u) ready, fit.function, fit.klass⟩

theorem followsDeclare (isOpen : π.Open) (t : Option Token) :
    Follows π π (declare t) (declare t) := by
  refine followsGet (fun run => (declareOk run).1.log) fun r r' fit => ?_
  rcases openScopes fit.scopes isOpen with ⟨left, right⟩ | ⟨names, outer, outer', left, right⟩ <;>
    rw [left, right]
  · exact followsPure _
  · cases t with
    | none => exact followsThrow _
    | some u =>
      show Follows π π (if names.has u.lexeme then do report _; mark u.lexeme false
        else mark u.lexeme false) (if names.has u.lexeme then do report _; mark u.lexeme false
        else mark u.lexeme false)
      split
      · exact Follows.bind (followsReport _) fun _ => followsMark isOpen u false
      · exact followsMark isOpen u false

theorem followsDefine (isOpen : π.Open) (t : Option Token) :
    Follows π π (define t) (define t) := by
  refine followsGet (fun run => (defineOk run).1.log) fun r r' fit => ?_
  rcases openScopes fit.scopes isOpen with ⟨left, right⟩ | ⟨names, outer, outer', left, right⟩ <;>
    rw [left, right]
  · exact followsPure _
  · cases t with
    | none => exact followsThrow _
    | some u => exact followsMark isOpen u true

theorem followsParameters (isOpen : π.Open) (ps : List (Option Token)) :
    Follows π π (parameters ps) (parameters ps) := by
  induction ps with
  | nil => exact followsPure _
  | cons p ps ih =>
    exact (followsDeclare isOpen p).bind fun _ => (followsDefine isOpen p).bind fun _ => ih

theorem wordNamed {k : Keyword} {t : Option Token} (word : IsWord k t) : t ≠ none := by
  obtain ⟨u, rfl, -⟩ := word
  exact Option.some_ne_none u

mutual

theorem followsExpr (e : Expr) (shaped : e.Shaped) (named : π.Inside ∨ e.Named) :
    Follows π π (expr e) (expr e) := by
  cases e with
  | missing => exact followsThrow _
  | literal d => exact followsPure _
  | reference node name => exact followsReference node named
  | this node keyword => exact followsThis node (wordNamed shaped)
  | super node keyword method => exact followsSuper node (wordNamed shaped)
  | assign node name value =>
    exact (followsExpr value shaped.2 (named.imp_right And.right)).bind fun _ =>
      followsResolveLocal node .assign (named.imp_right And.left)
  | unary op right => exact followsExpr right shaped named
  | binary left op right =>
    exact (followsExpr left shaped.1 (named.imp_right And.left)).bind fun _ =>
      followsExpr right shaped.2 (named.imp_right And.right)
  | logical left op right =>
    exact (followsExpr left shaped.1 (named.imp_right And.left)).bind fun _ =>
      followsExpr right shaped.2 (named.imp_right And.right)
  | grouping inner => exact followsExpr inner shaped named
  | call callee paren args =>
    exact (followsExpr callee shaped.1 (named.imp_right And.left)).bind fun _ =>
      followsExprs args shaped.2 (named.imp_right And.right)
  | get object name => exact followsExpr object shaped named
  | set object name value =>
    exact (followsExpr object shaped.1 (named.imp_right And.left)).bind fun _ =>
      followsExpr value shaped.2 (named.imp_right And.right)

theorem followsExprs (es : List Expr) (shaped : Expr.AllShaped es)
    (named : π.Inside ∨ Expr.AllNamed es) : Follows π π (exprs es) (exprs es) := by
  match es with
  | [] => exact followsPure _
  | e :: es =>
    exact (followsExpr e shaped.1 (named.imp_right And.left)).bind fun _ =>
      followsExprs es shaped.2 (named.imp_right And.right)

end

theorem followsGiven {b : Bool} {x y : Resolve Unit} (h : Follows π π x y) :
    Follows π π (if b then x else pure ()) (if b then y else pure ()) := by
  split
  · exact h
  · exact followsPure _

theorem followsSuperclass (name : Option Token) {e : Expr} (shaped : e.IsSuperclass) :
    Follows π (.both :: π) (superclass name e) (superclass name e) := by
  rcases shaped with rfl | ⟨node, t, rfl, free⟩
  · exact followsThrow _
  · have rest : ∀ u, t = some u → Follows π (.both :: π) (do
        modify fun r => { r with klass := some .subclass }
        expr (.reference node t)
        pushScope [("super", true)]) (do
        modify fun r => { r with klass := some .subclass }
        expr (.reference node t)
        pushScope [("super", true)]) := by
      rintro u rfl
      exact (followsKlass _).bind fun _ =>
        (followsExpr (.reference node (some u)) free (.inr (Option.some_ne_none u))).bind fun _ =>
          followsPush _
    cases t with
    | none => exact followsThrow _
    | some u =>
      refine Follows.bind (followsPure (some u)) fun t => (followsLexeme t).bind fun base => ?_
      refine (followsLexeme name).bind fun own => ?_
      split
      · exact Follows.bind (followsReport _) fun _ => rest u rfl
      · exact rest u rfl

theorem openBoth (π : Layout) : Layout.Open (.both :: π) := trivial

theorem insideBoth (π : Layout) : Layout.Inside (.both :: π) :=
  ⟨.both, List.mem_cons_self, by decide⟩

mutual

theorem followsStmt (s : Stmt) (shaped : s.Shaped) {π : Layout}
    (place : π.Open ∨ s.isDeclaration = false) (named : π.Inside ∨ s.Named) :
    Follows π π (stmt s) (stmt s) := by
  cases s with
  | missing => exact followsThrow _
  | expression e => exact followsExpr e shaped named
  | print e => exact followsExpr e shaped named
  | var name init =>
    have isOpen : π.Open := place.resolve_right nofun
    have last := followsDefine isOpen name
    refine (followsDeclare isOpen name).bind fun _ => ?_
    dsimp only
    split
    · exact (followsExpr init shaped.2 named).bind fun _ => last
    · exact last
  | block body =>
    exact (followsPush []).bind fun _ =>
      (followsStmts body shaped (openBoth π) (insideBoth π)).bind fun _ => followsPop
  | if_ cond yes no =>
    obtain ⟨sc, sy, sn, yesPlain, noPlain⟩ := shaped
    refine (followsExpr cond sc (named.imp_right And.left)).bind fun _ => ?_
    refine (followsStmt yes sy (.inr yesPlain) (named.imp_right (·.2.1))).bind fun _ => ?_
    exact followsGiven (followsStmt no sn (.inr noPlain) (named.imp_right (·.2.2)))
  | while_ cond body =>
    obtain ⟨sc, sb, plain⟩ := shaped
    exact (followsExpr cond sc (named.imp_right And.left)).bind fun _ =>
      followsStmt body sb (.inr plain) (named.imp_right And.right)
  | function f =>
    have isOpen : π.Open := place.resolve_right nofun
    exact (followsDeclare isOpen f.name).bind fun _ => (followsDefine isOpen f.name).bind fun _ =>
      followsFunDecl f shaped .function
  | return_ keyword value =>
    exact (followsReturn keyword).bind fun _ => followsGiven (followsExpr value shaped named)
  | class_ name methods base =>
    have isOpen : π.Open := place.resolve_right nofun
    have grows : ∀ {r a s}, stmt (.class_ name methods base) r = .ok a s → Reports r.log s.log :=
      fun run => (steadyStmt _ shaped run).1.log
    refine followsGet grows fun r r' fit => ?_
    rw [fit.klass]
    refine (followsKlass _).bind fun _ => (followsDeclare isOpen name).bind fun _ => ?_
    refine (followsDefine isOpen name).bind fun _ => ?_
    dsimp only
    split
    · refine (followsSuperclass name shaped.2.2).bind fun _ => (followsPush _).bind fun _ => ?_
      refine (followsFunDecls methods shaped.2.1).bind fun _ => followsPop.bind fun _ => ?_
      exact followsPop.bind fun _ => followsKlass _
    · refine (followsPush _).bind fun _ => (followsFunDecls methods shaped.2.1).bind fun _ => ?_
      exact followsPop.bind fun _ => followsKlass _

theorem followsStmts (ss : List Stmt) (shaped : Stmt.AllShaped ss) {π : Layout} (isOpen : π.Open)
    (inside : π.Inside) : Follows π π (stmts ss) (stmts ss) := by
  match ss with
  | [] => exact followsPure _
  | s :: ss =>
    have rest := (followsStmt s shaped.1 (.inl isOpen) (.inl inside)).bind fun _ =>
      followsStmts ss shaped.2 isOpen inside
    unfold stmts
    dsimp only
    split
    · exact followsThrow _
    · exact rest

theorem followsFunDecl (f : FunDecl) (shaped : f.Shaped) {π : Layout} (kind : FunctionKind) :
    Follows π π (funDecl f kind) (funDecl f kind) := by
  cases f with
  | mk name params body =>
    refine followsGet (fun run => (staysFunDecl _ shaped run).log) fun r r' fit => ?_
    rw [fit.function]
    refine (followsFunction _).bind fun _ => (followsPush []).bind fun _ => ?_
    refine (followsParameters (openBoth π) params).bind fun _ => ?_
    refine (followsStmts body shaped.2.2 (openBoth π) (insideBoth π)).bind fun _ => ?_
    exact followsPop.bind fun _ => followsFunction _

theorem followsFunDecls (fs : List FunDecl) (shaped : FunDecl.AllShaped fs) {π : Layout} :
    Follows π π (funDecls fs) (funDecls fs) := by
  match fs with
  | [] => exact followsPure _
  | f :: fs =>
    refine (followsLexeme f.name).bind fun name => ?_
    exact (followsFunDecl f shaped.1 _).bind fun _ => followsFunDecls fs shaped.2

end

end Resolve
end Lox
