import Lox.Proofs.Parsing.Lookahead

/-!
Programs read in parts. No statement starts with `else`, so what follows a part that was read
without a report may follow a statement; and the declarations of the parts are those of the whole.
-/

namespace Lox.Parse

variable {α β : Type} {p : Parse α} {f : α → Parse β}

def AtElse (c : Cursor) : Prop :=
  ∃ t ts, c.At (t :: ts) ∧ ts ≠ [] ∧ t.kind = .keyword .else_

def Idle (p : Parse α) (Q : α → Prop) : Prop :=
  ∀ c, AtElse c → ∀ a c', p c = .ok a c' → c' = c ∧ Q a

def Objects (p : Parse α) : Prop :=
  ∀ c, AtElse c → ∀ a c', p c = .ok a c' → c'.log ≠ c.log

section

variable {Q : α → Prop} {R : β → Prop}

theorem idlePure {a : α} (h : Q a) : Idle (pure a) Q := by
  rintro c _ _ _ ⟨⟩
  exact ⟨rfl, h⟩

theorem idleThrow (e : Stop) : Idle (throw e : Parse α) Q := by rintro c _ _ _ ⟨⟩

theorem Idle.bind (first : Idle p Q) (next : ∀ a, Q a → Idle (f a) R) : Idle (p >>= f) R := by
  intro c at' b c' run
  obtain ⟨a, c₁, one, two⟩ := bindOk.mp run
  obtain ⟨rfl, post⟩ := first c at' a c₁ one
  exact next a post c₁ at' b c' two

theorem Idle.objects (first : Idle p Q) (next : ∀ a, Q a → Objects (f a)) : Objects (p >>= f) := by
  intro c at' b c' run
  obtain ⟨a, c₁, one, two⟩ := bindOk.mp run
  obtain ⟨rfl, post⟩ := first c at' a c₁ one
  exact next a post c₁ at' b c' two

theorem idleKind : Idle kind fun k => k = .keyword .else_ := by
  rintro c ⟨t, ts, at', -, same⟩ a c' run
  rw [kindRun, Cursor.look, at'.here] at run
  cases run
  exact ⟨rfl, same⟩

theorem idleCheckAny {ks : List Kind} (other : Kind.keyword .else_ ∉ ks) :
    Idle (checkAny ks) fun b => b = false := by
  refine idleKind.bind fun k same => idlePure ?_
  subst same
  simpa using other

theorem idleSkip {k : Kind} (other : Kind.keyword .else_ ≠ k) : Idle (skip k) fun b => b = false := by
  rintro c ⟨t, ts, at', -, same⟩ a c' run
  rw [skipRun, Cursor.look, at'.here] at run
  dsimp only at run
  rw [if_neg (same ▸ other)] at run
  cases run
  exact ⟨rfl, rfl⟩

end

theorem idleChain {ops : List Kind} (other : Kind.keyword .else_ ∉ ops) {operand : Parse Expr}
    {build : Expr → Option Token → Expr → Expr} (n : Nat) (left : Expr) :
    Idle (chain ops operand build n left) fun _ => True := by
  cases n with
  | zero => exact idleThrow _
  | succ n =>
    refine (idleCheckAny other).bind fun b none => ?_
    subst none
    exact idlePure trivial

theorem idlePrimary (n : Nat) : Idle (primary n) fun _ => True := by
  cases n with
  | zero => exact idleThrow _
  | succ n =>
    refine idleKind.bind fun k same => ?_
    subst same
    exact idlePure trivial

theorem idleCallTail (n : Nat) (e : Expr) : Idle (callTail n e) fun _ => True := by
  cases n with
  | zero => exact idleThrow _
  | succ n =>
    refine (idleSkip (k := .leftParen) (by decide)).bind fun b none => ?_
    subst none
    refine (idleSkip (k := .dot) (by decide)).bind fun b none => ?_
    subst none
    exact idlePure trivial

theorem idleUnary (n : Nat) : Idle (unary n) fun _ => True := by
  cases n with
  | zero => exact idleThrow _
  | succ n =>
    refine (idleCheckAny (by decide)).bind fun b none => ?_
    subst none
    cases n with
    | zero => exact idleThrow _
    | succ n => exact (idlePrimary n).bind fun e _ => idleCallTail n e

theorem idleLevel {rule inner operand : Nat → Parse Expr} {ops : List Kind}
    {build : Expr → Option Token → Expr → Expr} (zero : rule 0 = throw .outOfFuel)
    (succ : ∀ n, rule (n + 1) = (do chain ops (operand n) build n (← inner n)))
    (other : Kind.keyword .else_ ∉ ops) (below : ∀ n, Idle (inner n) fun _ => True) (n : Nat) :
    Idle (rule n) fun _ => True := by
  cases n with
  | zero =>
    rw [zero]
    exact idleThrow _
  | succ n =>
    rw [succ]
    exact (below n).bind fun e _ => idleChain other n e

theorem idleExpression (n : Nat) : Idle (expression n) fun _ => True := by
  have factor : ∀ n, Idle (factor n) fun _ => True :=
    idleLevel rfl (fun _ => rfl) (by decide) idleUnary
  have term : ∀ n, Idle (term n) fun _ => True :=
    idleLevel rfl (fun _ => rfl) (by decide) factor
  have comparison : ∀ n, Idle (comparison n) fun _ => True :=
    idleLevel rfl (fun _ => rfl) (by decide) term
  have equality : ∀ n, Idle (equality n) fun _ => True :=
    idleLevel rfl (fun _ => rfl) (by decide) comparison
  have conjunction : ∀ n, Idle (conjunction n) fun _ => True :=
    idleLevel rfl (fun _ => rfl) (by decide) equality
  have disjunction : ∀ n, Idle (disjunction n) fun _ => True :=
    idleLevel rfl (fun _ => rfl) (by decide) conjunction
  cases n with
  | zero => exact idleThrow _
  | succ n =>
    refine (disjunction n).bind fun e _ => (idleSkip (k := .equal) (by decide)).bind fun b none => ?_
    subst none
    exact idlePure trivial

theorem objectsEnded (e : Expr) : Objects (ended e) := by
  rintro c ⟨t, ts, at', more, same⟩ a c' run
  have := List.length_pos_iff.mpr more
  rw [endedBefore e at' (by rw [List.length_cons]; omega)] at run
  obtain ⟨_, c₁, expected, last⟩ := bindOk.mp run
  cases last
  rw [expectRun, Cursor.look, at'.here] at expected
  dsimp only at expected
  rw [if_neg (by rw [same]; decide)] at expected
  rcases reportRun ⟨t, "Expect ';' after expression."⟩ c with reported | reported
  · rw [reported] at expected
    cases expected
  · rw [reported] at expected
    cases expected
    simp

theorem objectsStatement (n : Nat) : Objects (statement n) := by
  cases n with
  | zero => rintro c _ _ _ ⟨⟩
  | succ n =>
    refine (idleSkip (k := .keyword .for_) (by decide)).objects fun b none => ?_
    subst none
    refine (idleSkip (k := .keyword .if_) (by decide)).objects fun b none => ?_
    subst none
    refine (idleSkip (k := .keyword .print_) (by decide)).objects fun b none => ?_
    subst none
    refine (idleSkip (k := .keyword .return_) (by decide)).objects fun b none => ?_
    subst none
    refine (idleSkip (k := .keyword .while_) (by decide)).objects fun b none => ?_
    subst none
    refine (idleSkip (k := .leftBrace) (by decide)).objects fun b none => ?_
    subst none
    exact (idleExpression n).objects fun e _ => objectsEnded e

theorem objectsDeclared (n : Nat) : Objects (declared n) := by
  refine (idleSkip (k := .keyword .class_) (by decide)).objects fun b none => ?_
  subst none
  refine (idleSkip (k := .keyword .fun_) (by decide)).objects fun b none => ?_
  subst none
  refine (idleSkip (k := .keyword .var_) (by decide)).objects fun b none => ?_
  subst none
  exact objectsStatement n

theorem declarationStart {n : Nat} {c c' : Cursor} {t : Token} {todo : List Token} {s : Stmt}
    (at' : c.At (t :: todo ++ [.eof])) (run : declaration n c = .ok s c') (silent : c'.log = c.log) :
    t.kind ≠ .keyword .else_ := by
  intro same
  cases n with
  | zero => cases run
  | succ n =>
    have calm := tracksDeclared (stmtSteps n) (Nat.le_refl n) c (t :: todo) at'
    rw [declarationSucc, recovering, tryCatchRun] at run
    cases inner : declared n c with
    | ok a c₁ =>
      rw [inner] at run
      cases run
      exact objectsDeclared n c ⟨t, todo ++ [Token.eof], at', by simp, same⟩ _ _ inner silent
    | error e c₁ =>
      rw [inner] at run calm
      cases e with
      | fault f => exact calm f rfl
      | _ => cases run

theorem readsUnfinished {ts : List Token} (many : 2 ≤ ts.length) :
    Reads unfinished [] (pure true) ts := by
  have some : ts ≠ [] := List.ne_nil_of_length_pos (by omega)
  have more : (ts.length == 1) = false := beq_eq_false_iff_ne.mpr (by omega)
  have test : Reads unfinished [] (pure (!(ts.length == 1))) ts :=
    (readsIsAtEnd some).last (readsSelf _)
  rw [more] at test
  exact test

section

variable {n k : Nat} {c c' : Cursor} {todo : List Token} {body : List Stmt}

theorem programRound (at' : c.At (todo ++ [.eof]))
    (run : whileM (k + 1) unfinished (declaration n) c = .ok body c') :
    todo = [] ∧ body = [] ∧ c' = c ∨
      ∃ t ts s ss c₁, todo = t :: ts ∧ body = s :: ss ∧ declaration n c = .ok s c₁ ∧
        whileM k unfinished (declaration n) c₁ = .ok ss c' := by
  obtain ⟨b, _, test, go⟩ := bindOk.mp run
  cases test
  rw [at'.atEnd (by simp)] at go
  cases todo with
  | nil =>
    cases go
    exact .inl ⟨rfl, rfl, rfl⟩
  | cons t ts =>
    have more : ((t :: ts ++ [Token.eof]).length == 1) = false := by simp
    rw [more] at go
    obtain ⟨s, c₁, first, others⟩ := bindOk.mp go
    obtain ⟨ss, c₂, loop, last⟩ := bindOk.mp others
    cases last
    exact .inr ⟨t, ts, s, ss, c₁, rfl, rfl, first, loop⟩

theorem programOnward (at' : c.At (todo ++ [.eof]))
    (run : whileM k unfinished (declaration n) c = .ok body c') : c.Onward todo.length c' := by
  induction k generalizing c todo body with
  | zero => cases run
  | succ k ih =>
    obtain ⟨rfl, -, rfl⟩ | ⟨t, ts, s, ss, c₁, rfl, rfl, first, loop⟩ := programRound at' run
    · exact .stay _
    · have one := (stmtSteps n).declaration n (Nat.le_refl n) c _ at'
      rw [first] at one
      obtain ⟨read, left, split, onward, -⟩ := one
      rw [split, List.append_assoc] at at'
      rw [split, List.length_append]
      exact onward.trans (ih (onward.at at') loop)

inductive Declares (m : Nat) : List Token → List Stmt → Prop where
  | nil : Declares m [] []
  | cons {read left : List Token} {s : Stmt} {body : List Stmt} (first : Follow read)
      (one : ∀ rest, Follow rest → Reads (declaration m) read (pure s) (left ++ rest))
      (others : Declares m left body) : Declares m (read ++ left) (s :: body)

theorem programDeclares {m : Nat} (le : n ≤ m) (at' : c.At (todo ++ [.eof]))
    (run : whileM k unfinished (declaration n) c = .ok body c') (quiet : c.Quiet c') :
    Declares m todo body := by
  induction k generalizing c todo body with
  | zero => cases run
  | succ k ih =>
    obtain ⟨rfl, rfl, -⟩ | ⟨t, ts, s, ss, c₁, rfl, rfl, first, loop⟩ := programRound at' run
    · exact .nil
    · have start := declarationStart at' first
      have one := (stmtSteps n).declaration m le c _ at'
      rw [first] at one
      obtain ⟨read, left, split, onward₁, quiet₁⟩ := one
      rw [split] at at' ⊢
      rw [List.append_assoc] at at'
      have next := onward₁.at at'
      have onward₂ := programOnward next loop
      have silent := quiet.first onward₁ onward₂
      obtain ⟨some, reads⟩ := quiet₁ silent (Nat.zero_le _)
      refine .cons ?_ reads (ih next loop (quiet.next onward₁ onward₂))
      cases read with
      | nil => cases some
      | cons u read =>
        cases split
        exact ⟨t, read, rfl, start silent.log⟩

namespace Declares

variable {m : Nat} {ts us : List Token} {ss ss' : List Stmt}

theorem count (h : Declares m ts ss) : ss.length ≤ ts.length := by
  induction h with
  | nil => exact Nat.le_refl 0
  | cons first _ _ ih =>
    have := List.length_pos_iff.mpr first.some
    simp only [List.length_cons, List.length_append]
    omega

theorem follow (h : Declares m ts ss) {rest : List Token} (after : Follow rest) :
    Follow (ts ++ rest) := by
  cases h with
  | nil => exact after
  | cons first _ _ =>
    obtain ⟨t, more, rfl, other⟩ := first
    exact ⟨t, _, rfl, other⟩

theorem append (h : Declares m ts ss) (h' : Declares m us ss') :
    Declares m (ts ++ us) (ss ++ ss') := by
  induction h with
  | nil => exact h'
  | cons first one _ ih =>
    rw [List.append_assoc]
    refine .cons first (fun rest after => ?_) ih
    rw [List.append_assoc]
    exact one _ (h'.follow after)

theorem loop (h : Declares m ts ss) {j : Nat} {rest : List Token} {as : List Stmt}
    (after : Follow (us ++ rest))
    (reads : Reads (whileM j unfinished (declaration m)) us (pure as) rest) :
    Reads (whileM (ss.length + j) unfinished (declaration m)) (ts ++ us) (pure (ss ++ as)) rest := by
  induction h with
  | nil => simpa using reads
  | @cons read left s body first one others ih =>
    have one := one (us ++ rest) after
    rw [← List.append_assoc] at one
    have go : Reads unfinished [] (pure true) (read ++ ((left ++ us) ++ rest)) := by
      have := List.length_pos_iff.mpr first.some
      have := List.length_pos_iff.mpr after.some
      refine readsUnfinished ?_
      simp only [List.length_append] at this ⊢
      omega
    have both := readsWhileSome go one ih
    rw [← List.append_assoc] at both
    rw [List.length_cons, Nat.add_right_comm]
    exact both

theorem typed (h : Declares m ts ss) {n : Nat} (enough : ss.length < n) {c : Cursor}
    (at' : c.At (ts ++ [.eof])) (bare : c.foundLone = false) (done : List Stmt) :
    ∃ lone, lineLoop (declaration m) n done c =
      .ok (.program (done ++ ss)) { c.moved ts.length with allowLone := lone } := by
  induction h generalizing n c done with
  | nil =>
    obtain ⟨k, rfl⟩ := Nat.exists_eq_add_one_of_ne_zero (Nat.ne_of_gt enough)
    have ended : isAtEnd c = .ok true c := by rw [isAtEndRun, at'.atEnd (by simp)]; rfl
    refine ⟨c.allowLone, ?_⟩
    unfold lineLoop
    rw [bindRun, ended]
    simp
  | @cons read left s body first one others ih =>
    obtain ⟨k, rfl⟩ := Nat.exists_eq_add_one_of_ne_zero (Nat.ne_of_gt (Nat.zero_lt_of_lt enough))
    have some := List.length_pos_iff.mpr first.some
    rw [List.append_assoc] at at'
    have going : isAtEnd c = .ok false c := by
      rw [isAtEndRun, at'.atEnd (by simp)]
      have more : ((read ++ (left ++ [Token.eof])).length == 1) = false := by
        simp only [List.length_append, List.length_singleton, beq_eq_false_iff_ne]
        omega
      rw [more]
    have read₁ := one [Token.eof] ⟨.eof, [], rfl, by decide⟩ c at'
    have next : Cursor.At { c.moved read.length with allowLone := false } (left ++ [Token.eof]) :=
      at'.moved
    obtain ⟨lone, rest⟩ := ih (Nat.lt_of_succ_lt_succ enough) next bare (done ++ [s])
    refine ⟨lone, ?_⟩
    unfold lineLoop
    rw [bindRun, going]
    dsimp only
    rw [if_neg Bool.false_ne_true, bindRun, read₁, pureRun]
    dsimp only
    rw [getBind, show (c.moved read.length).foundLone = false from bare,
      if_neg Bool.false_ne_true, bindRun, modifyRun]
    dsimp only
    rw [rest]
    simp [Cursor.moved, Int.add_assoc]

end Declares

theorem programAhead {m : Nat} (le : n ≤ m) (at' : c.At (todo ++ [.eof]))
    (run : whileM k unfinished (declaration n) c = .ok body c') (quiet : c.Quiet c') :
    body.length ≤ todo.length ∧ (∀ rest, Follow rest → Follow (todo ++ rest)) ∧
      ∀ {j us rest as}, Follow (us ++ rest) →
        Reads (whileM j unfinished (declaration m)) us (pure as) rest →
        Reads (whileM (body.length + j) unfinished (declaration m)) (todo ++ us)
          (pure (body ++ as)) rest := by
  have declares := programDeclares le at' run quiet
  exact ⟨declares.count, fun _ => declares.follow, declares.loop⟩

theorem readsNoMore {p : Parse Stmt} (j : Nat) :
    Reads (whileM (j + 1) unfinished p) [] (pure []) [.eof] :=
  readsWhileNone ((readsIsAtEnd (by simp)).last (readsSelf _))

end

structure Nowhere (c : Cursor) : Prop where
  tokens : c.tokens = #[]
  index : 0 ≤ c.index

namespace Nowhere

variable {c c' : Cursor}

theorem here (h : Nowhere c) : c.here = none := by
  unfold Cursor.here
  rw [h.tokens]
  simp

theorem isAtEnd (h : Nowhere c) : Parse.isAtEnd c = .ok false c := by
  have index := h.index
  rw [isAtEndRun, h.tokens]
  simp only [List.size_toArray, List.length_nil, EStateM.Result.ok.injEq, and_true]
  exact beq_eq_false_iff_ne.mpr (by simp; omega)

theorem next (h : Nowhere c) : Nowhere c.next := by
  refine ⟨c.nextTokens.trans h.tokens, ?_⟩
  have index := h.index
  unfold Cursor.next
  split
  · exact index
  · dsimp only
    omega

theorem passOver (h : Nowhere c) (n : Nat) : Parse.passOver n c ≠ .ok () c' := by
  intro run
  cases n with
  | zero => cases run
  | succ n =>
    unfold Parse.passOver at run
    rw [bindRun, h.isAtEnd] at run
    obtain ⟨b, c₁, test, -⟩ := bindOk.mp run
    rw [checkAnyRun, Cursor.look, h.here] at test
    cases test

theorem declaration (h : Nowhere c) (n : Nat) {s : Stmt} : Parse.declaration n c ≠ .ok s c' := by
  intro run
  cases n with
  | zero => cases run
  | succ n =>
    have stuck : declared n c = .error (.fault .outOfRange) c := by
      unfold declared announced
      rw [bindRun, skipRun, Cursor.look, h.here]
    rw [declarationSucc, recovering, tryCatchRun, stuck] at run
    obtain ⟨_, c₁, told, after⟩ := bindOk.mp run
    cases told
    obtain ⟨_, c₂, synchronized, -⟩ := bindOk.mp after
    obtain ⟨_, c₃, advanced, passed⟩ := bindOk.mp synchronized
    rw [advanceRun] at advanced
    cases advanced
    refine Nowhere.passOver (Nowhere.next ?_) n passed
    exact ⟨h.tokens, h.index⟩

theorem program (h : Nowhere c) (n : Nat) {body : List Stmt} : Parse.program n c ≠ .ok body c' := by
  intro run
  cases n with
  | zero => cases run
  | succ n =>
    rw [Parse.program] at run
    obtain ⟨b, c₁, test, go⟩ := bindOk.mp run
    unfold unfinished at test
    rw [bindRun, h.isAtEnd] at test
    cases test
    obtain ⟨s, c₂, first, -⟩ := bindOk.mp go
    exact h.declaration _ first

end Nowhere

end Lox.Parse
