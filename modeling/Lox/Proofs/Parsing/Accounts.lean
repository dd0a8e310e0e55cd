import Lox.Proofs.Parsing.Costs

/-!
What statements and declarations cost. A declaration that reads a token pays for its reports with
half of a token to spare, at sixteen reports a token; one that reads none makes one report and
blocks the loop that it stands in.
-/

namespace Lox.Parse

variable {α β : Type} {w g₀ g₁ : Nat} {p q : Parse α}

def worth (k e : Nat) : Prop := k = 0 ∧ e ≤ 1 ∨ moving 8 k e

def PaysStmt (w : Nat) (p q : Parse α) : Prop := Pays w worth (credit 16 1 0) p q

theorem PaysStmt.spends (h : PaysStmt w p q) : Spends w 16 (g₀ + 1) g₀ p q := by
  refine Pays.mono h ?_ ?_
  · unfold worth moving credit
    intro k e cost
    omega
  · unfold credit
    intro k e cost
    omega

theorem PaysStmt.skip {k : Kind} {yes yes' no no' : Parse α} (other : k ≠ .eof)
    (given : 1 ≤ w → Spends (w - 1) 16 16 8 yes yes') (otherwise : PaysStmt w no no') :
    PaysStmt w (do if ← Parse.skip k then yes else no)
      (do if ← Parse.skip k then yes' else no') := by
  refine Pays.skip other (fun some => Pays.mono (given some) ?_ ?_) otherwise
  · unfold worth moving credit
    intro k e cost
    omega
  · unfold credit
    intro k e cost
    omega

theorem paysEnd {k : Kind} (other : k ≠ .eof) (message : String) (a : α) :
    Pays w (fun k e => k + e = 1) (fun k e => k = 0 ∧ e = 1) (do let _ ← expect k message; return a)
      (do let _ ← expect k message; return a) := by
  have rest : Pays w (fun k e => k = 0 ∧ e = 0) (fun _ _ => False) (pure a) (pure a) :=
    paysPure ⟨rfl, rfl⟩
  refine (paysExpect other message).bind (fun _ => rest) (fun _ _ => id) ?_ fun _ => False.elim
  rintro k d j e cost ⟨rfl, rfl⟩
  exact cost

theorem spendsEnd {k : Kind} (other : k ≠ .eof) (message : String) (a : α) (less : g₁ ≤ g₀) :
    Spends w 16 (g₀ + 1) g₁ (do let _ ← expect k message; return a)
      (do let _ ← expect k message; return a) :=
  Spends.expect other fun _ => spendsPure less

theorem paysEnded (e : Expr) :
    Pays w (fun k d => k + d ≤ 1) (fun k d => k = 0 ∧ d = 1) (ended e) (ended e) := by
  intro c todo last at' eof enough
  rw [endedRun]
  split
  · next lone =>
    refine ⟨[], todo, 0, rfl, ⟨⟨by simp, ⟨[], by simp⟩, fun _ => rfl⟩, rfl⟩, .inl rfl,
      Nat.zero_le 1, fun limit _ => ?_⟩
    rw [endedRun, if_pos (by exact lone)]
    rfl
  · next some =>
    have closes : Pays w _ _ (closed e) (closed e) := paysEnd (by decide) _ _
    refine ((closes c todo last at' eof enough).mono ?_ fun _ _ => id).same fun limit => ?_
    · exact fun k d => Nat.le_of_eq
    · rw [endedRun, if_neg (by exact some)]

section

variable {n m : Nat} (le : n ≤ m) (enough : 16 * w + 10 ≤ n)

include le enough

theorem spendsExpression : Spends w 16 g₀ g₀ (expression n) (expression m) :=
  (exprsSpend le).whole enough (by decide)

theorem spendsVarDeclaration : Spends w 16 2 0 (varDeclaration n) (varDeclaration m) := by
  refine Spends.expect (by decide) fun name => Spends.skip (by decide) (fun some => ?_) ?_
  · refine (spendsExpression le (by omega)).bind fun e => ?_
    exact spendsEnd (by decide) _ _ (Nat.zero_le _)
  · exact spendsEnd (by decide) _ _ (Nat.le_refl _)

theorem paysExpressionStatement : PaysStmt w (expressionStatement n) (expressionStatement m) := by
  refine Pays.bind ((exprsSpend le).rule 1 (by decide) (by decide) enough) paysEnded ?_ ?_ ?_
  · unfold credit
    intro k e cost
    omega
  · unfold worth moving credit
    intro k d j e one two
    omega
  · unfold credit
    intro k d j e one two
    omega

theorem spendsPrintStatement : Spends w 16 1 0 (printStatement n) (printStatement m) :=
  (spendsExpression le enough).bind fun _ => spendsEnd (by decide) _ _ (Nat.le_refl _)

theorem spendsClause (k : Kind) : Spends w 16 g₀ g₀ (clause n k) (clause m k) := by
  refine Pays.idle (looksCheck k) fun none => ?_
  cases none with
  | true => exact spendsPure (Nat.le_refl _)
  | false => exact spendsExpression le enough

theorem spendsReturnStatement : Spends w 16 1 0 (returnStatement n) (returnStatement m) := by
  refine Pays.idle looksCurrent fun keyword => Pays.idle (looksCheck _) fun none => ?_
  cases none with
  | true => exact spendsEnd (by decide) _ _ (Nat.le_refl _)
  | false =>
    refine (spendsExpression le enough).bind fun e => ?_
    exact spendsEnd (by decide) _ _ (Nat.le_refl _)

theorem spendsInitializer : Spends w 16 1 0 (initializer n) (initializer m) := by
  refine Spends.skip (by decide) (fun _ => spendsPure (Nat.zero_le _)) ?_
  refine Spends.skip (by decide) (fun some => ?_) ?_
  · refine Spends.bind ?_ fun s => spendsPure (Nat.le_refl _)
    exact (spendsVarDeclaration (w := w - 1) le (by omega)).lift (Nat.le_refl 16) (by decide)
      (by decide)
  · exact (paysExpressionStatement le enough).spends.bind fun s => spendsPure (Nat.le_refl _)

end

theorem spendsParameters {n m : Nat} (le : n ≤ m) (enough : w + 1 ≤ n) :
    Spends w 1 (g₀ + 1) g₀ (parameters n) (parameters m) := by
  refine Spends.expect (by decide) fun first => ?_
  exact (spendsMore (spendsExpect (by decide) _) le enough).bind fun _ => spendsPure (Nat.le_refl _)

theorem spendsHeader {n m : Nat} (le : n ≤ m) (enough : w + 1 ≤ n) (what : String) :
    Spends w 1 5 0 (header n what) (header m what) := by
  refine Spends.expect (by decide) fun name => Spends.expect (by decide) fun _ => ?_
  refine Pays.idle (looksCheck _) fun none => ?_
  have rest : ∀ params : List (Option Token), Spends w 1 2 0 (do
      let _ ← expect .rightParen "Expect an ')' after the parameters"
      let _ ← expect .leftBrace ("Expect an '\x7b' before  " ++ what ++ " ")
      return (name, params)) _ := fun params =>
    Spends.expect (by decide) fun _ => Spends.expect (by decide) fun _ =>
      spendsPure (a := (name, params)) (Nat.le_refl 0)
  cases none with
  | true => exact (rest []).lift (Nat.le_refl 1) (by decide) (by decide)
  | false => exact (spendsParameters le enough).bind rest

def inside (t : Token) (ts : List Token) : Bool := !(t.kind == .rightBrace) && !ts.isEmpty

def unended (_ : Token) (ts : List Token) : Bool := !ts.isEmpty

theorem looksIsAtEnd : Looks isAtEnd fun _ ts => ts.isEmpty := by
  intro c t ts at'
  rw [isAtEndRun, at'.atEnd (by simp)]
  cases ts <;> rfl

theorem looksBlock : Looks inBlock inside := by
  intro c t ts at'
  rw [inBlock, bindRun, looksCheck _ c t ts at']
  dsimp only
  rw [bindRun, looksIsAtEnd c t ts at']
  rfl

theorem looksClass : Looks inClass inside := by
  intro c t ts at'
  unfold inClass
  rw [bindRun, looksIsAtEnd c t ts at']
  cases ts with
  | nil => simp [inside]
  | cons u us =>
    show (check .rightBrace >>= fun b => pure !b : Parse Bool) c = _
    rw [bindRun, looksCheck _ c t _ at']
    simp [inside]

theorem looksUnfinished : Looks unfinished unended := by
  intro c t ts at'
  unfold unfinished
  rw [bindRun, looksIsAtEnd c t ts at']
  rfl

section

variable {test : Parse Bool} {see : Token → List Token → Bool} {t last : Token} {todo : List Token}
  {c c₁ : Cursor}

theorem declarationStays {n : Nat} {s : Stmt} (at' : c.At (t :: todo ++ [last]))
    (eof : last.kind = .eof) (run : declaration n c = .ok s c₁) (same : c₁.index = c.index) :
    t.kind.blocks = true ∧ ∃ e : ParseError, c₁ = c.reported e := by
  obtain ⟨moves, refuses⟩ := leadsDeclaration n t c todo last at' eof
  cases blocks : t.kind.blocks with
  | false =>
    have := moves (by simp [blocks]) s c₁ run
    omega
  | true =>
    have refused := refuses (by simp [blocks])
    rw [run] at refused
    exact ⟨rfl, refused⟩

theorem stuckDeclarations (looks : Looks test see) {n j : Nat} (at' : c.At (t :: todo ++ [last]))
    (eof : last.kind = .eof) (blocks : t.kind.blocks = true) (go : see t (todo ++ [last]) = true) :
    Stuck (whileM j test (declaration n) c) := by
  have here : c.Blocked := ⟨t, todo ++ [last], at', by simp, blocks⟩
  induction j generalizing c with
  | zero => exact here
  | succ j ih =>
    have refuses := (leadsDeclaration n t c todo last at' eof).2 (by simp [blocks])
    have loop := looks.loop at' (declaration n) j
    rw [show todo.append [last] = todo ++ [last] from rfl, go, if_pos rfl] at loop
    rw [loop, bindRun]
    cases run : declaration n c with
    | error e c₁ =>
      rw [run] at refuses
      obtain ⟨tokens, index⟩ := refuses
      obtain ⟨i, start, drop⟩ := at'
      exact ⟨t, todo ++ [last], ⟨i, index.trans start, tokens ▸ drop⟩, by simp, blocks⟩
    | ok s c₁ =>
      rw [run] at refuses
      obtain ⟨e, rfl⟩ := refuses
      have rest := ih (c := c.reported e) at' ⟨t, todo ++ [last], at', by simp, blocks⟩
      show Stuck ((do let ss ← whileM j test (declaration n); return s :: ss) (c.reported e))
      rw [bindRun]
      cases run₁ : whileM j test (declaration n) (c.reported e) with
      | ok ss c₂ =>
        rw [run₁] at rest
        exact rest.elim
      | error e₂ c₂ =>
        rw [run₁] at rest
        exact rest

theorem repeatsDeclarations {n m : Nat} (looks : Looks test see) (ends : ∀ t, see t [] = false)
    (one : PaysStmt w (declaration n) (declaration m)) :
    Repeats w 8 1 test see (declaration n) (declaration m) := by
  refine ⟨looks, ends, ?_, ?_⟩
  · intro c t todo last at' eof enough _
    have paid := one c (t :: todo) last at' eof enough
    cases run : declaration n c with
    | error s c₁ =>
      rw [run] at paid
      exact paid
    | ok s c₁ =>
      rw [run] at paid
      obtain ⟨read, left, e, split, spent, room, cost, same⟩ := paid
      refine ⟨read, left, e, split, spent, room, cost.imp_left ?_, same⟩
      rintro ⟨none, -⟩
      have stays : c₁.index = c.index := by
        rw [spent.onward.rest, none]
        simp
      obtain ⟨-, d, rfl⟩ := declarationStays at' eof run stays
      have errors := spent.errors
      rw [(Cursor.Spent.reported c d).errors] at errors
      omega
  · intro c t todo last s c₁ j at' eof _ go run same
    obtain ⟨blocks, e, rfl⟩ := declarationStays at' eof run same
    exact stuckDeclarations (c := c.reported e) looks at' eof blocks go

end

def PaysBlock (w : Nat) (p q : Parse α) : Prop :=
  ∀ c t ts todo last, todo ++ [last] = t :: ts → c.At (t :: ts) → last.kind = .eof →
    todo.length + (c.limit - c.errors) ≤ w →
    Paid (fun k e => if inside t ts then moving 7 k e else k + e = 1) (credit 16 1 0) q c todo (p c)

def PaysMethod (w : Nat) (p q : Parse α) : Prop :=
  ∀ c t todo last, c.At (t :: todo ++ [last]) → last.kind = .eof →
    (t :: todo).length + (c.limit - c.errors) ≤ w → t.kind ≠ .rightBrace →
    Paid (moving 0) (credit 16 6 0) q c (t :: todo) (p c)

structure StmtsPay (n m : Nat) : Prop where
  declaration : ∀ {w}, 16 * w + 12 ≤ n → PaysStmt w (declaration n) (declaration m)
  classDeclaration : ∀ {w}, 16 * w + 15 ≤ n →
    Spends w 16 16 8 (classDeclaration n) (classDeclaration m)
  function : ∀ {w} what, 16 * w + 14 ≤ n → Spends w 16 6 0 (function n what) (function m what)
  method : ∀ {w} what, 16 * w + 14 ≤ n →
    PaysMethod w (Parse.function n what) (Parse.function m what)
  statement : ∀ {w}, 16 * w + 11 ≤ n → PaysStmt w (statement n) (statement m)
  forStatement : ∀ {w}, 16 * w + 12 ≤ n → Spends w 16 16 8 (forStatement n) (forStatement m)
  ifStatement : ∀ {w}, 16 * w + 12 ≤ n → Spends w 16 16 8 (ifStatement n) (ifStatement m)
  whileStatement : ∀ {w}, 16 * w + 12 ≤ n → Spends w 16 16 8 (whileStatement n) (whileStatement m)
  block : ∀ {w}, 16 * w + 13 ≤ n → PaysBlock w (block n) (block m)

theorem StmtsPay.body {n m : Nat} (h : StmtsPay n m) (enough : 16 * w + 13 ≤ n) :
    Spends w 16 1 0 (Parse.block n) (Parse.block m) := by
  intro c todo last at' eof weight
  obtain ⟨t, ts, list⟩ := List.exists_cons_of_ne_nil (l := todo ++ [last]) (by simp)
  refine (h.block enough c t ts todo last list (list ▸ at') eof weight).mono ?_ fun _ _ => id
  intro k e cost
  unfold moving at cost
  unfold credit
  split at cost <;> omega

section

variable {n m : Nat} (le : n ≤ m) (ih : StmtsPay n m)

include le ih

theorem paysDeclared (enough : 16 * w + 12 ≤ n + 1) : PaysStmt w (declared n) (declared m) := by
  refine PaysStmt.skip (by decide) (fun some => ih.classDeclaration (by omega)) ?_
  refine PaysStmt.skip (by decide) (fun some => ?_) ?_
  · refine Spends.bind ?_ fun f => spendsPure (Nat.le_refl _)
    exact (ih.function (w := w - 1) _ (by omega)).lift (Nat.le_refl 16) (by decide) (by decide)
  refine PaysStmt.skip (by decide) (fun some => ?_) (ih.statement (by omega))
  exact (spendsVarDeclaration (w := w - 1) le (by omega)).lift (Nat.le_refl 16)
    (by decide) (by decide)

theorem paysStatement (enough : 16 * w + 11 ≤ n + 1) :
    PaysStmt w (statement (n + 1)) (statement (m + 1)) := by
  unfold statement
  refine PaysStmt.skip (by decide) (fun some => ih.forStatement (by omega)) ?_
  refine PaysStmt.skip (by decide) (fun some => ih.ifStatement (by omega)) ?_
  refine PaysStmt.skip (by decide) (fun some => ?_) ?_
  · exact (spendsPrintStatement (w := w - 1) le (by omega)).lift (Nat.le_refl 16)
      (by decide) (by decide)
  refine PaysStmt.skip (by decide) (fun some => ?_) ?_
  · exact (spendsReturnStatement (w := w - 1) le (by omega)).lift (Nat.le_refl 16)
      (by decide) (by decide)
  refine PaysStmt.skip (by decide) (fun some => ih.whileStatement (by omega)) ?_
  refine PaysStmt.skip (by decide) (fun some => ?_) (paysExpressionStatement le (by omega))
  refine Spends.bind ?_ fun ss => spendsPure (Nat.le_refl _)
  exact (ih.body (w := w - 1) (by omega)).lift (Nat.le_refl 16) (by decide) (by decide)

theorem spendsForStatement (enough : 16 * w + 12 ≤ n + 1) :
    Spends w 16 16 8 (forStatement (n + 1)) (forStatement (m + 1)) := by
  unfold forStatement
  refine Spends.expect (by decide) fun _ => ?_
  have first : Spends w 16 15 14 (initializer n) (initializer m) :=
    (spendsInitializer le (by omega)).lift (Nat.le_refl 16) (by decide) (by decide)
  refine first.bind fun init => ?_
  refine (spendsClause le (by omega) _).bind fun cond => Spends.expect (by decide) fun _ => ?_
  refine (spendsClause le (by omega) _).bind fun step => Spends.expect (by decide) fun _ => ?_
  exact (ih.statement (by omega)).spends.bind fun body => spendsPure (by decide)

theorem spendsIfStatement (enough : 16 * w + 12 ≤ n + 1) :
    Spends w 16 16 8 (ifStatement (n + 1)) (ifStatement (m + 1)) := by
  unfold ifStatement
  refine Spends.expect (by decide) fun _ => ?_
  refine (spendsExpression le (by omega)).bind fun cond => Spends.expect (by decide) fun _ => ?_
  refine (ih.statement (by omega)).spends.bind fun yes => ?_
  refine Spends.skip (by decide) (fun some => ?_) (spendsPure (by decide))
  exact (ih.statement (by omega)).spends.bind fun no => spendsPure (by decide)

theorem spendsWhileStatement (enough : 16 * w + 12 ≤ n + 1) :
    Spends w 16 16 8 (whileStatement (n + 1)) (whileStatement (m + 1)) := by
  unfold whileStatement
  refine Spends.expect (by decide) fun _ => ?_
  refine (spendsExpression le (by omega)).bind fun cond => Spends.expect (by decide) fun _ => ?_
  exact (ih.statement (by omega)).spends.bind fun body => spendsPure (by decide)

theorem paysBlock (enough : 16 * w + 13 ≤ n + 1) : PaysBlock w (block (n + 1)) (block (m + 1)) := by
  intro c t ts todo last list at' eof weight
  unfold block
  have loop := (repeatsDeclarations looksBlock (by simp [inside])
    (ih.declaration (w := w) (by omega))).loop le list at' eof weight (by omega)
  refine loop.then (list ▸ at') eof weight (fun ss => paysEnd (by decide) _ _) (fun _ _ => id) ?_ ?_
  · intro k d j e cost close
    unfold moving at cost ⊢
    cases go : inside t ts <;> simp only [go, Bool.false_eq_true, ↓reduceIte] at cost ⊢ <;> omega
  · intro k d j e cost close
    unfold moving at cost
    unfold credit
    split at cost <;> omega

theorem spendsFunction (what : String) (enough : 16 * w + 14 ≤ n + 1) :
    Spends w 16 6 0 (function (n + 1) what) (function (m + 1) what) := by
  unfold function
  have first : Spends w 16 6 1 (header n what) (header m what) :=
    (spendsHeader le (by omega) what).lift (by decide) (by decide) (by decide)
  refine first.bind fun start => ?_
  exact (ih.body (by omega)).bind fun body => spendsPure (Nat.le_refl _)

/- Where the header reads nothing, the body stands before the same token. -/
theorem paysMethod (what : String) (enough : 16 * w + 14 ≤ n + 1) :
    PaysMethod w (function (n + 1) what) (function (m + 1) what) := by
  intro c t todo last at' eof weight other
  unfold function
  refine (spendsHeader le (by omega) what c _ last at' eof weight).bind ?_ ?_
  · intro start c₁ read left e _ split spent _ cost
    have there : c₁.At (left ++ [last]) := by
      refine spent.onward.at ?_
      rw [← List.append_assoc, ← split]
      exact at'
    have length : (t :: todo).length = read.length + left.length := by
      rw [split, List.length_append]
    obtain ⟨v, vs, list⟩ := List.exists_cons_of_ne_nil (l := left ++ [last]) (by simp)
    have paid := ih.block (w := w) (by omega) c₁ v vs left last list (list ▸ there) eof (by
      rw [spent.limit, spent.errors]
      omega)
    have whole : Paid (fun k d => moving 0 (read.length + k) (e + d))
        (fun k d => credit 16 6 0 (read.length + k) (e + d)) (block m) c₁ left (block n c₁) := by
      refine paid.mono ?_ ?_
      · intro k d body
        unfold credit at cost
        unfold moving at body ⊢
        cases read with
        | nil =>
          cases split
          obtain ⟨rfl, rfl⟩ : t = v ∧ todo ++ [last] = vs := by simpa using list
          have go : inside t (todo ++ [last]) = true := by simp [inside, other]
          rw [if_pos go] at body
          simp only [List.length_nil] at cost ⊢
          omega
        | cons u us =>
          simp only [List.length_cons] at cost ⊢
          split at body <;> omega
      · unfold credit at cost ⊢
        intro k d body
        omega
    refine whole.bind ?_ fun _ _ => id
    intro body c₂ read₂ left₂ e₂ _ _ _ _ cost₂
    exact paidStay cost₂ fun _ => rfl
  · unfold credit
    intro k e cost
    omega

omit le in
theorem repeatsMethods (enough : 16 * w + 14 ≤ n) :
    Repeats w 0 6 inClass inside (function n "method") (function m "method") := by
  have paid : ∀ (c : Cursor) t todo last, c.At (t :: todo ++ [last]) → last.kind = .eof →
      (t :: todo).length + (c.limit - c.errors) ≤ w → inside t (todo ++ [last]) = true →
      Paid (moving 0) (credit 16 6 0) (function m "method") c (t :: todo)
        (function n "method" c) := by
    intro c t todo last at' eof weight go
    refine ih.method "method" enough c t todo last at' eof weight ?_
    rintro brace
    simp [inside, brace] at go
  refine ⟨looksClass, by simp [inside], ?_, ?_⟩
  · intro c t todo last at' eof weight go
    exact (paid c t todo last at' eof weight go).mono (fun _ _ => .inr) fun _ _ => id
  · intro c t todo last f c₁ j at' eof weight go run same
    have moves := paid c t todo last at' eof weight go
    rw [run] at moves
    obtain ⟨read, left, e, -, spent, -, ⟨some, -⟩, -⟩ := moves
    rw [spent.onward.rest] at same
    dsimp only at same
    omega

theorem spendsMethods (enough : 16 * w + 14 ≤ n) :
    Spends w 16 13 13 (whileM n inClass (function n "method"))
      (whileM m inClass (function m "method")) := by
  intro c todo last at' eof weight
  obtain ⟨t, ts, list⟩ := List.exists_cons_of_ne_nil (l := todo ++ [last]) (by simp)
  refine ((repeatsMethods ih enough).loop le list (list ▸ at') eof weight (by omega)).mono ?_ ?_
  · intro k e cost
    unfold moving at cost
    unfold credit
    split at cost <;> omega
  · unfold credit
    intro k e cost
    omega

theorem spendsClassBody (name : Option Token) (opening closing : String) (e : Expr)
    (enough : 16 * w + 14 ≤ n) :
    Spends w 16 14 8
      (do
        let _ ← expect .leftBrace opening
        let methods ← whileM n inClass (function n "method")
        let _ ← expect .rightBrace closing
        return Stmt.class_ name methods e)
      (do
        let _ ← expect .leftBrace opening
        let methods ← whileM m inClass (function m "method")
        let _ ← expect .rightBrace closing
        return Stmt.class_ name methods e) := by
  refine Spends.expect (by decide) fun _ => ?_
  exact (spendsMethods le ih enough).bind fun methods => spendsEnd (by decide) _ _ (by decide)

theorem spendsClassDeclaration (enough : 16 * w + 15 ≤ n + 1) :
    Spends w 16 16 8 (classDeclaration (n + 1)) (classDeclaration (m + 1)) := by
  unfold classDeclaration
  refine Spends.expect (by decide) fun name => Spends.skip (by decide) (fun some => ?_) ?_
  · refine Spends.expect (by decide) fun base => ?_
    exact (spendsClassBody le ih name _ _ (.reference 0 base) (by omega)).lift (Nat.le_refl 16)
      (by decide) (by decide)
  · exact (spendsClassBody le ih name _ _ .missing (by omega)).lift (Nat.le_refl 16) (by decide)
      (by decide)

end

theorem paysRecovering {p q : Parse Stmt} (h : PaysStmt w p q) (n m : Nat) :
    PaysStmt w (recovering n p) (recovering m q) := by
  intro c todo last at' eof weight
  have paid := h c todo last at' eof weight
  have safe : ∀ {r : Parse Stmt} {d : Cursor} {result} (k : Nat), r d = result →
      (∀ f d', result ≠ .error (.fault f) d') → recovering k r d = result := by
    intro r d result k run calm
    rw [← run]
    exact recoveringRun k fun f d' fault => calm f d' (run.symm.trans fault)
  cases run : p c with
  | ok s c₁ =>
    rw [run] at paid
    obtain ⟨read, left, e, split, spent, room, cost, same⟩ := paid
    rw [safe n run (by simp)]
    exact ⟨read, left, e, split, spent, room, cost, fun limit free =>
      safe m (same limit free) (by simp)⟩
  | error s c₁ =>
    rw [run] at paid
    obtain ⟨read, left, e, split, spent, some, cost, rfl, full, same⟩ := paid
    rw [safe n run (by simp)]
    exact ⟨read, left, e, split, spent, some, cost, rfl, full, safe m same (by simp)⟩

theorem stmtsPay {n m : Nat} (le : n ≤ m) : StmtsPay n m := by
  induction n generalizing m with
  | zero =>
    constructor
    case function => exact fun _ enough => by omega
    case method => exact fun _ enough => by omega
    all_goals exact fun enough => by omega
  | succ n ih =>
    obtain ⟨m, rfl⟩ : ∃ j, m = j + 1 := ⟨m - 1, by omega⟩
    have le : n ≤ m := Nat.le_of_succ_le_succ le
    have ih := ih le
    constructor
    case declaration => exact fun enough => paysRecovering (paysDeclared le ih enough) n m
    case classDeclaration => exact spendsClassDeclaration le ih
    case function => exact spendsFunction le ih
    case method => exact paysMethod le ih
    case statement => exact paysStatement le ih
    case forStatement => exact spendsForStatement le ih
    case ifStatement => exact spendsIfStatement le ih
    case whileStatement => exact spendsWhileStatement le ih
    case block => exact paysBlock le ih

theorem budgetWeight {c : Cursor} {todo : List Token} {last : Token}
    (at' : c.At (todo ++ [last])) :
    16 * (todo.length + (c.limit - c.errors)) + 16 ≤ c.budget := by
  have size := at'.size (by simp)
  obtain ⟨i, index, -⟩ := at'
  unfold Cursor.budget
  simp only [List.length_append, List.length_singleton] at size
  omega

theorem paysProgram {n m : Nat} (le : n ≤ m) (enough : 16 * w + 12 ≤ n) :
    Pays w (credit 16 0 0) (credit 16 1 0) (program n) (program m) := by
  intro c todo last at' eof weight
  obtain ⟨t, ts, list⟩ := List.exists_cons_of_ne_nil (l := todo ++ [last]) (by simp)
  rw [program, program]
  have declarations := repeatsDeclarations looksUnfinished (fun _ => rfl)
    ((stmtsPay le).declaration enough)
  refine (declarations.loop le list (list ▸ at') eof weight (by omega)).mono ?_ fun _ _ => id
  intro k e cost
  unfold moving at cost
  unfold credit
  split at cost <;> omega

end Lox.Parse
