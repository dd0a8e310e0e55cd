import Lox.Command
import Lox.Proofs.Derived
import Lox.Proofs.Runs.Contents
import Lox.Proofs.Runs.Reach
import Lox.Proofs.Runs.Steps

/-!
The environment after a run. Whatever ends the run of a parsed tree, the environment is the one from
before; but a class whose superclass is there and one of whose methods has no name leaves the frame
that binds `super` behind. The parser reports a method without a name, so after a parse without a
report no run ends like that.
-/

namespace Lox

namespace Eval

theorem methodsNamed {env : Env} {fs : List FunDecl} {b : Bindings Routine}
    (named : ∀ f ∈ fs, f.name ≠ none) : ∃ table, methodTable env fs b = .ok table := by
  induction fs generalizing b with
  | nil => exact ⟨b, rfl⟩
  | cons f fs ih =>
    obtain ⟨u, same⟩ := Option.ne_none_iff_exists'.mp (named f (by simp))
    obtain ⟨table, run⟩ := ih (b := b.put u.lexeme ⟨f, env, u.lexeme == "this"⟩)
      fun g mem => named g (by simp [mem])
    refine ⟨table, ?_⟩
    unfold methodTable
    rw [same]
    exact run

theorem methodsUnnamed {env : Env} {fs : List FunDecl} {b : Bindings Routine}
    (unnamed : ∃ f ∈ fs, f.name = none) : methodTable env fs b = .error (.absent "lexeme") := by
  induction fs generalizing b with
  | nil =>
    obtain ⟨f, mem, -⟩ := unnamed
    cases mem
  | cons f fs ih =>
    unfold methodTable
    cases name : f.name with
    | none => rfl
    | some u =>
      obtain ⟨g, mem, none⟩ := unnamed
      rcases List.mem_cons.mp mem with rfl | later
      · rw [none] at name
        cases name
      · exact ih ⟨g, later, none⟩

inductive Strands (n : Nat) (m : Machine) : Stmt → Machine → Prop where
  | class_ {u : Token} {methods : List FunDecl} {base : Expr} {c : Class} {m' : Machine}
      (derived : base.isMissing = false) (inherits : superclass n base m = .ok c m')
      (unnamed : ∃ f ∈ methods, f.name = none) :
      Strands n m (.class_ (some u) methods base)
        (Machine.entering { m' with store := m'.store.defineIn m'.env u.lexeme .nil } m'.env
          [("super", .class_ c)])

variable {n : Nat} {m m' : Machine} {s : Stmt} {ss : List Stmt}

theorem superclassHome {e : Expr} {c : Class} (run : superclass n e m = .ok c m') :
    m'.env = m.env := by
  have home := ((allBuilt n).superclass e).comesHome m
  rw [run] at home
  exact home

theorem Strands.run (h : Strands n m s m') :
    execute (n + 1) s m = .error (.fault (.absent "lexeme")) m' ∧ ∃ f, m'.env = f :: m.env := by
  cases h with
  | class_ derived inherits unnamed =>
    refine ⟨?_, _, congrArg _ (superclassHome inherits)⟩
    unfold execute
    dsimp only
    rw [derived, if_neg Bool.false_ne_true, bindRun, map_eq_pure_bind, bindRun, inherits]
    show declareClass _ _ (some _) _ = _
    rw [declareClassRun]
    dsimp only
    rw [methodsUnnamed unnamed]
    rfl

theorem onStoreEnv {α : Type} (x : Stored α) (m : Machine) : (final (onStore x m)).env = m.env :=
  (Built.onStore x).comesHome m

theorem declareClassHome {t : Option Token} {methods : List FunDecl} {base : Option Class}
    (settled : base = none ∨ t = none ∨ ∀ f ∈ methods, f.name ≠ none) :
    (final (declareClass t methods base m)).env = m.env := by
  cases t with
  | none => rfl
  | some u =>
    rw [declareClassRun]
    dsimp only
    cases table : methodTable (classEnv (m.store.defineIn m.env u.lexeme .nil) m.env base).1
        methods [] with
    | ok table => exact onStoreEnv _ _
    | error f =>
      rcases settled with none | none | named
      · subst none
        rfl
      · cases none
      · obtain ⟨table', run⟩ := methodsNamed named
        rw [run] at table
        cases table

theorem classHome (name : Option Token) (methods : List FunDecl) (base : Expr) :
    (final (execute (n + 1) (.class_ name methods base) m)).env = m.env ∨
      ∃ m', Strands n m (.class_ name methods base) m' := by
  unfold execute
  dsimp only
  cases derived : base.isMissing with
  | true => exact .inl (declareClassHome (.inl rfl))
  | false =>
    rw [if_neg Bool.false_ne_true, bindRun, map_eq_pure_bind, bindRun]
    cases inherits : superclass n base m with
    | error e m₁ =>
      have home := ((allBuilt n).superclass base).comesHome m
      rw [inherits] at home
      exact .inl home
    | ok c m₁ =>
      have settle : ∀ settled : name = none ∨ ∀ f ∈ methods, f.name ≠ none,
          (final (declareClass name methods (some c) m₁)).env = m.env :=
        fun settled => (declareClassHome (.inr settled)).trans (superclassHome inherits)
      cases name with
      | none => exact .inl (settle (.inl rfl))
      | some u =>
        by_cases unnamed : ∃ f ∈ methods, f.name = none
        · exact .inr ⟨_, .class_ derived inherits unnamed⟩
        · exact .inl (settle (.inr (by simpa using unnamed)))

def Level (s : Stmt) : Prop :=
  s.classless = true ∨ ∃ name methods base, s = .class_ name methods base

theorem Level.home (h : Level s) :
    (final (execute (n + 1) s m)).env = m.env ∨ ∃ m', Strands n m s m' := by
  rcases h with classless | ⟨name, methods, base, rfl⟩
  · exact .inl (((allBuilt (n + 1)).execute s fun _ => classless).comesHome m)
  · exact classHome name methods base

inductive StrandsIn (n : Nat) : Machine → List Stmt → Machine → Prop where
  | here {m : Machine} {s : Stmt} {ss : List Stmt} {m' : Machine} (h : Strands n m s m') :
      StrandsIn n m (s :: ss) m'
  | later {m : Machine} {s : Stmt} {ss : List Stmt} {m₁ m' : Machine}
      (done : execute (n + 1) s m = .ok () m₁) (h : StrandsIn n m₁ ss m') :
      StrandsIn n m (s :: ss) m'

theorem Level.stays {m₁ : Machine} (h : Level s) (done : execute (n + 1) s m = .ok () m₁) :
    m₁.env = m.env := by
  rcases h.home (n := n) (m := m) with home | ⟨m', strands⟩
  · rw [done] at home
    exact home
  · rw [strands.run.1] at done
    cases done

theorem StrandsIn.run (h : StrandsIn n m ss m') (level : ∀ s ∈ ss, Level s) :
    inOrder (execute (n + 1)) ss m = .error (.fault (.absent "lexeme")) m' ∧
      ∃ f, m'.env = f :: m.env := by
  induction h with
  | here strands =>
    obtain ⟨run, frame⟩ := strands.run
    exact ⟨bindError.mpr (.inl run), frame⟩
  | later done _ ih =>
    obtain ⟨run, f, frame⟩ := ih fun s mem => level s (by simp [mem])
    refine ⟨bindError.mpr (.inr ⟨(), _, done, run⟩), f, ?_⟩
    rw [frame, (level _ (by simp)).stays done]

theorem inOrderHome (level : ∀ s ∈ ss, Level s) :
    (final (inOrder (execute (n + 1)) ss m)).env = m.env ∨ ∃ m', StrandsIn n m ss m' := by
  induction ss generalizing m with
  | nil => exact .inl rfl
  | cons s ss ih =>
    have first := level s (by simp)
    unfold inOrder
    rw [bindRun]
    cases done : execute (n + 1) s m with
    | error e m₁ =>
      rcases first.home (n := n) (m := m) with home | ⟨m', strands⟩
      · rw [done] at home
        exact .inl home
      · exact .inr ⟨m', .here strands⟩
    | ok _ m₁ =>
      rcases ih (m := m₁) fun s mem => level s (by simp [mem]) with home | ⟨m', strands⟩
      · exact .inl (home.trans (first.stays done))
      · exact .inr ⟨m', .later done strands⟩

end Eval

theorem numberClassless (s : Stmt) (n : Nat) : (s.number n).1.classless = s.classless := by
  fun_induction Stmt.classless s generalizing n with
  | case1 => rfl
  | case2 cond yes no yesSame noSame =>
    show ((yes.number _).1.classless && (no.number _).1.classless) = _
    rw [yesSame, noSame]
  | case3 cond body same => exact same _
  | case4 s notClass notIf notWhile =>
    cases s with
    | class_ => exact (notClass _ _ _ rfl).elim
    | if_ => exact (notIf _ _ _ rfl).elim
    | while_ => exact (notWhile _ _ rfl).elim
    | _ => rfl

theorem Eval.Level.number {s : Stmt} (h : Level s) (n : Nat) : Level (s.number n).1 := by
  rcases h with classless | ⟨name, methods, base, rfl⟩
  · exact .inl ((numberClassless s n).trans classless)
  · exact .inr ⟨_, _, _, rfl⟩

def Stmt.named : Stmt → Bool
  | .class_ _ methods _ => methods.all fun f => f.name.isSome
  | _ => true

theorem Eval.StrandsIn.unnamed {n : Nat} {m m' : Machine} {ss : List Stmt}
    (h : StrandsIn n m ss m') : ¬∀ s ∈ ss, s.named = true := by
  intro named
  induction h with
  | here strands =>
    cases strands with
    | class_ _ _ unnamed =>
      obtain ⟨f, mem, none⟩ := unnamed
      have all := named _ List.mem_cons_self
      have some := List.all_eq_true.mp all f mem
      rw [none] at some
      cases some
  | later _ _ ih => exact ih fun s mem => named s (by simp [mem])

theorem Derives.methodsNamed {fs : List FunDecl} {ts : List Token} {slips : List Slip}
    (h : Derives (.functions fs) ts slips) : (fs.all fun f => f.name.isSome) = true := by
  generalize same : Phrase.functions fs = p at h
  induction h generalizing fs with
  | noFunctions =>
    cases same
    rfl
  | functions first _ _ ih =>
    cases same
    cases first
    simpa [FunDecl.name] using ih rfl
  | _ => cases same

theorem desugarNamed (init : Option Stmt) (cond step : Expr) (body : Stmt) :
    (Parse.desugarFor init cond step body).named = true := by
  cases init <;> rfl

theorem Derives.named {s : Stmt} {ts : List Token} {slips : List Slip}
    (h : Derives (.declaration s) ts slips) : s.named = true := by
  cases h with
  | class_ _ _ _ _ methods _ => exact methods.methodsNamed
  | fun_ _ _ => rfl
  | var_ h => cases h <;> rfl
  | statement h =>
    generalize same : Phrase.statement s = p at h
    cases h with
    | expression h =>
      cases same
      cases h
      rfl
    | for_ =>
      cases same
      exact desugarNamed _ _ _ _
    | _ => cases same <;> rfl

theorem numberMethods (fs : List FunDecl) (n : Nat) :
    (FunDecl.numberAll fs n).1.map FunDecl.name = fs.map FunDecl.name := by
  induction fs generalizing n with
  | nil => rfl
  | cons f fs ih =>
    obtain ⟨name, params, body⟩ := f
    exact congrArg (name :: ·) (ih _)

theorem numberNamed (s : Stmt) (n : Nat) : (s.number n).1.named = s.named := by
  cases s with
  | class_ name methods base =>
    have all : ∀ fs : List FunDecl,
        (fs.all fun f => f.name.isSome) = (fs.map FunDecl.name).all Option.isSome := by
      intro fs
      rw [List.all_map]
      rfl
    show ((FunDecl.numberAll methods n).1.all fun f => f.name.isSome) = _
    rw [all, numberMethods, ← all]
    rfl
  | _ => rfl

def Tree.Every (P : Stmt → Prop) : Tree → Prop
  | .program body => ∀ s ∈ body, P s
  | .expression _ => True

theorem numberEvery {P : Stmt → Prop} (kept : ∀ s n, P s → P (s.number n).1) {t : Tree} {n : Nat}
    (h : t.Every P) : (t.number n).1.Every P := by
  cases t with
  | expression e => trivial
  | program body =>
    show ∀ s ∈ (Stmt.numberAll body n).1, P s
    induction body generalizing n with
    | nil => exact fun _ mem => by cases mem
    | cons s ss ih =>
      have rest := ih (n := (s.number n).2) fun u mem => h u (by simp [mem])
      intro u mem
      rcases List.mem_cons.mp mem with rfl | later
      · exact kept s n (h s (by simp))
      · exact rest u later

namespace Parse

def Returns (c : Cursor) (t : Tree) (c' : Cursor) : Prop :=
  (∃ body, t = .program body ∧ run program c = .ok body c') ∨ run typedLine c = .ok t c'

theorem makesRecovering {P : Stmt → Prop} {p : Parse Stmt} (h : Makes p P) (hole : P .missing)
    (n : Nat) : Makes (recovering n p) P := by
  intro c s c' run
  rw [recovering, tryCatchRun] at run
  cases outcome : p c with
  | ok a d =>
    rw [outcome] at run
    cases run
    exact h c s c' outcome
  | error e d =>
    rw [outcome] at run
    cases e with
    | fault f => exact (makesLast fun _ => makesLast fun _ => makesPure hole) d s c' run
    | _ => cases run

/- Only declarations are classes, so a statement holds one only in a block. -/
structure MakesClassless (n : Nat) : Prop where
  statement : Makes (statement n) fun s => s.classless = true
  forStatement : Makes (forStatement n) fun s => s.classless = true
  ifStatement : Makes (ifStatement n) fun s => s.classless = true
  whileStatement : Makes (whileStatement n) fun s => s.classless = true

theorem desugarClassless (init : Option Stmt) (cond step : Expr) {body : Stmt}
    (h : body.classless = true) : (desugarFor init cond step body).classless = true := by
  cases init with
  | some s => rfl
  | none =>
    show (if step.isMissing then body else _ : Stmt).classless = true
    split
    · exact h
    · rfl

theorem makesExpression (n : Nat) : Makes (expressionStatement n) fun s => s.classless = true :=
  makesLast fun _ => makesLast fun _ => makesLast fun _ =>
    makesEither (makesLast fun _ => makesPure rfl) (makesLast fun _ => makesPure rfl)

theorem makesReturn (n : Nat) : Makes (returnStatement n) fun s => s.classless = true := by
  have rest : ∀ keyword value, Makes (do
      let _ ← expect .semicolon "Excpect ';' after return statement"
      return Stmt.return_ keyword value) fun s => s.classless = true :=
    fun _ _ => makesLast fun _ => makesPure rfl
  exact makesLast fun _ => makesLast fun _ => makesEither (makesLast (rest _)) (makesLast (rest _))

theorem makesClassless (n : Nat) : MakesClassless n := by
  induction n with
  | zero => constructor <;> exact makesThrow _
  | succ n ih =>
    constructor
    · refine makesLast fun _ => makesEither ih.forStatement ?_
      refine makesLast fun _ => makesEither ih.ifStatement ?_
      refine makesLast fun _ => makesEither (makesLast fun _ => makesLast fun _ => makesPure rfl) ?_
      refine makesLast fun _ => makesEither (makesReturn n) ?_
      refine makesLast fun _ => makesEither ih.whileStatement ?_
      exact makesLast fun _ => makesEither (makesLast fun _ => makesPure rfl) (makesExpression n)
    · exact makesLast fun _ => makesLast fun _ => makesLast fun _ => makesLast fun _ =>
        makesLast fun _ => makesLast fun _ => ih.statement.bind fun _ body =>
          makesPure (desugarClassless _ _ _ body)
    · refine makesLast fun _ => makesLast fun cond => makesLast fun _ => ?_
      refine ih.statement.bind fun yes yesHolds => ?_
      have close : ∀ no : Stmt, no.classless = true →
          Makes (pure (.if_ cond yes no) : Parse Stmt) fun s => s.classless = true :=
        fun no noHolds => makesPure (Bool.and_eq_true_iff.mpr ⟨yesHolds, noHolds⟩)
      have hole : Makes (pure .missing) fun s : Stmt => s.classless = true := makesPure rfl
      exact makesLast fun _ => makesEither (ih.statement.bind close) (hole.bind close)
    · exact makesLast fun _ => makesLast fun _ => makesLast fun _ => ih.statement.bind fun _ body =>
        makesPure body

theorem makesClass (n : Nat) : Makes (classDeclaration n) Eval.Level := by
  cases n with
  | zero => exact makesThrow _
  | succ n =>
    have rest : ∀ name base, Makes (do
        let _ ← expect .leftBrace "Expect '\x7b' for a class"
        let inside := do if ← isAtEnd then return false else return !(← check .rightBrace)
        let methods ← whileM n inside (function n "method")
        let _ ← expect .rightBrace "Expect '\x7d' at the end of a class"
        return Stmt.class_ name methods base) Eval.Level :=
      fun _ _ => makesLast fun _ => makesLast fun _ => makesLast fun _ =>
        makesPure (.inr ⟨_, _, _, rfl⟩)
    exact makesLast fun _ => makesLast fun _ =>
      makesEither (makesLast fun _ => makesLast (rest _)) (makesLast (rest _))

theorem makesVar (n : Nat) : Makes (varDeclaration n) Eval.Level := by
  have rest : ∀ name init, Makes (do
      let _ ← expect .semicolon "Expect ';' after variable declaration."
      return Stmt.var name init) Eval.Level :=
    fun _ _ => makesLast fun _ => makesPure (.inl rfl)
  exact makesLast fun _ => makesLast fun _ => makesEither (makesLast (rest _)) (makesLast (rest _))

theorem makesLevel (n : Nat) : Makes (declaration n) Eval.Level := by
  cases n with
  | zero => exact makesThrow _
  | succ n =>
    refine makesRecovering ?_ (.inl rfl) n
    refine makesLast fun _ => makesEither (makesClass n) ?_
    refine makesLast fun _ => makesEither (makesLast fun _ => makesPure (.inl rfl)) ?_
    refine makesLast fun _ => makesEither (makesVar n) ?_
    exact fun c s c' run => .inl ((makesClassless n).statement c s c' run)

theorem loneTreeEvery {P : Stmt → Prop} (s : Stmt) : (loneTree s).Every P := by
  cases s <;> exact trivial

theorem makesLine {P : Stmt → Prop} {p : Parse Stmt} (one : Makes p P) (n : Nat)
    {done : List Stmt} (before : ∀ s ∈ done, P s) : Makes (lineLoop p n done) (Tree.Every P) := by
  induction n generalizing done with
  | zero => exact makesThrow _
  | succ n ih =>
    refine makesLast fun _ => ?_
    split
    · exact makesPure before
    refine one.bind fun s holds => makesLast fun _ => ?_
    split
    · exact makesPure (loneTreeEvery s)
    · refine makesLast fun _ => ih ?_
      exact List.forall_mem_append.mpr ⟨before, List.forall_mem_singleton.mpr holds⟩

theorem Returns.level {c c' : Cursor} {t : Tree} (h : Returns c t c') : t.Every Eval.Level := by
  rcases h with ⟨body, rfl, parsed⟩ | parsed
  · rw [runAt, program] at parsed
    exact makesWhile (makesLevel c.budget) c.budget c body c' parsed
  · have line : Makes (typedLine c.budget) (Tree.Every Eval.Level) :=
      makesLast fun _ => makesLine (makesLevel c.budget) c.budget fun _ mem => by cases mem
    exact line c t c' parsed

theorem lineLoopEvery {P : Stmt → Prop} {m n : Nat} {c c' : Cursor} {ts : List Token} {last : Token}
    {done : List Stmt} {t : Tree}
    (derived : ∀ {s us slips}, Derives (.declaration s) us slips → P s)
    (ahead : c.At (ts ++ [last])) (eof : last.kind = .eof)
    (parsed : lineLoop (declaration m) n done c = .ok t c') :
    ∃ es : List ParseError, c'.log = c.log ++ es.map .parse ∧
      (es = [] → (∀ s ∈ done, P s) → t.Every P) := by
  induction n generalizing c ts done with
  | zero => cases parsed
  | succ n ih =>
    obtain ⟨ended, _, test, go⟩ := bindOk.mp parsed
    cases test
    split at go
    · cases go
      exact ⟨[], by simp, fun _ before => before⟩
    · obtain ⟨s, c₁, one, rest⟩ := bindOk.mp go
      have ends := (stmtsDerive m).declaration c ts last ahead eof
      rw [one] at ends
      obtain ⟨read, left, rfl, onward, silent⟩ := ends
      obtain ⟨es₁, log₁⟩ := onward.log
      rw [getBind] at rest
      split at rest
      · cases rest
        exact ⟨es₁, log₁, fun _ _ => loneTreeEvery s⟩
      · rw [List.append_assoc] at ahead
        have next : Cursor.At { c₁ with allowLone := false } (left ++ [last]) := onward.at ahead
        obtain ⟨es₂, log₂, every⟩ := ih next rest
        refine ⟨es₁ ++ es₂, by rw [log₂]; simp [log₁], fun none before => ?_⟩
        obtain ⟨none₁, none₂⟩ := List.append_eq_nil_iff.mp none
        obtain ⟨-, ending, slips, -, derivation⟩ := silent (by simpa [none₁] using log₁)
        refine every none₂ fun u mem => ?_
        rcases List.mem_append.mp mem with old | new
        · exact before u old
        · rw [List.mem_singleton.mp new]
          exact derived derivation

theorem Derives.every {P : Stmt → Prop}
    (derived : ∀ {s us slips}, Derives (.declaration s) us slips → P s) {body : List Stmt}
    {ts : List Token} {slips : List Slip} (h : Derives (.declarations body) ts slips) :
    ∀ s ∈ body, P s := by
  generalize same : Phrase.declarations body = p at h
  induction h generalizing body with
  | noDeclarations =>
    cases same
    exact fun _ mem => by cases mem
  | declarations first _ _ ih =>
    cases same
    intro s mem
    rcases List.mem_cons.mp mem with rfl | later
    · exact derived first
    · exact ih rfl s later
  | _ => cases same

theorem Returns.named {c c' : Cursor} {t : Tree} (h : Returns c t c') {ts : List Token}
    {last : Token} (ahead : c.At (ts ++ [last])) (eof : last.kind = .eof)
    (silent : c'.log.parse = c.log.parse) : t.Every fun s => s.named = true := by
  rcases h with ⟨body, rfl, parsed⟩ | parsed
  · have ends := parsesProgram c.budget c ts last ahead eof
    rw [show program c.budget c = .ok body c' from parsed] at ends
    obtain ⟨read, left, -, onward, quiet⟩ := ends
    obtain ⟨-, ending, slips, -, derived⟩ := quiet (onward.sameLog silent)
    exact Derives.every Derives.named derived
  · have begun : Cursor.At { c with allowLone := true } (ts ++ [last]) := ahead
    obtain ⟨es, log, every⟩ := lineLoopEvery Derives.named begun eof
      (show lineLoop (declaration c.budget) c.budget [] _ = .ok t c' from parsed)
    have log : c'.log = c.log ++ es.map .parse := log
    rw [log, Log.parseAppend, Log.parseErrors] at silent
    exact every (by simpa using silent) fun _ mem => by cases mem

end Parse

namespace Session

open Eval

def Strands (s : Session) (m : Machine) : Prop :=
  ∃ body n, s.tree = .program body ∧ fuel = n + 2 ∧
    StrandsIn n { s.machine with locals := s.resolver.locals } body m

theorem treeHome {s : Session} (level : s.tree.Every Level) :
    (final (interpret s)).machine.env = s.machine.env ∨ ∃ m, s.Strands m := by
  rw [interpretIs, concludedMachine]
  cases tree : s.tree with
  | expression e =>
    exact .inl (((allBuilt fuel).evaluate e).comesHome
      { s.machine with locals := s.resolver.locals })
  | program body =>
    rw [tree] at level
    obtain ⟨n, enough⟩ : ∃ n, fuel = n + 2 := ⟨fuel - 2, by decide⟩
    have ends : ∀ m, final (Eval.tree fuel (.program body) m) =
        final (inOrder (execute (n + 1)) body m) := by
      intro m
      rw [enough]
      show final ((executeAll (n + 2) body >>= fun _ => pure Value.nil) _) = _
      rw [bindRun, executeAll]
      cases inOrder (execute (n + 1)) body m <;> rfl
    rw [ends]
    rcases inOrderHome level with home | ⟨m, strands⟩
    · exact .inl home
    · exact .inr ⟨m, body, n, tree, enough, strands⟩

theorem Strands.run {s : Session} {m : Machine} (h : s.Strands m) (level : s.tree.Every Level) :
    (∃ f, m.env = f :: s.machine.env) ∧ interpret s = .ok .nil { s with
      machine := m, log := s.log ++ [.runtime (.fault (.absent "lexeme"))] } := by
  obtain ⟨body, n, tree, enough, strands⟩ := h
  rw [tree] at level
  obtain ⟨run, frame⟩ := strands.run level
  refine ⟨frame, ?_⟩
  have ended : Eval.tree fuel s.tree { s.machine with locals := s.resolver.locals } =
      .error (.fault (.absent "lexeme")) m := by
    rw [tree, enough]
    exact bindError.mpr (.inl run)
  rw [interpretIs, ended]
  rfl

theorem Strands.unnamed {s : Session} {m : Machine} (h : s.Strands m) :
    ¬s.tree.Every fun s => s.named = true := by
  obtain ⟨body, n, tree, -, strands⟩ := h
  rw [tree]
  exact strands.unnamed

/-- The tree may be the one of any parse, with or without reports, and the session any other. -/
theorem scopeIsKeptUnlessStranded {c c' : Cursor} {t : Tree} {n : Nat} {s : Session}
    (parsed : Parse.Returns c t c') (held : s.tree = (t.number n).1) :
    ((final (interpret s)).machine.env = s.machine.env ↔ ∀ m, ¬s.Strands m) ∧
    (∀ m, s.Strands m → (∃ f, m.env = f :: s.machine.env) ∧ interpret s = .ok .nil { s with
      machine := m, log := s.log ++ [.runtime (.fault (.absent "lexeme"))] }) ∧
    ∀ ts last, c.At (ts ++ [last]) → last.kind = .eof → c'.log.parse = c.log.parse →
      ∀ m, ¬s.Strands m := by
  have level : s.tree.Every Level := by
    rw [held]
    exact numberEvery (fun _ n level => level.number n) parsed.level
  refine ⟨⟨fun home m strands => ?_, fun none => ?_⟩, fun m strands => strands.run level, ?_⟩
  · obtain ⟨⟨f, frame⟩, run⟩ := strands.run level
    rw [run] at home
    have home : m.env = s.machine.env := home
    rw [frame] at home
    exact List.cons_ne_self f _ home
  · rcases treeHome level with home | ⟨m, strands⟩
    · exact home
    · exact absurd strands (none m)
  · intro ts last ahead eof silent m strands
    refine strands.unnamed ?_
    rw [held]
    exact numberEvery (fun s n named => (numberNamed s n).trans named)
      (parsed.named ahead eof silent)

def unnamedSample : List Token :=
  [.keyword .class_, .identifier "A", .mark .leftBrace, .mark .rightBrace,
   .keyword .class_, .identifier "B", .sign .less, .identifier "A", .mark .leftBrace,
   .mark .leftParen, .mark .rightParen, .mark .leftBrace, .mark .rightBrace, .mark .rightBrace]

def unnamedSampleTree : List Stmt :=
  [.class_ (some (.identifier "A")) [] .missing,
   .class_ (some (.identifier "B")) [.mk none [] []] (.reference 0 (some (.identifier "A")))]

theorem scopeIsKeptUnlessStranded_unnamed :
    ∃ s : Session, s.tree = ((Tree.program unnamedSampleTree).number 0).1 ∧
      (final (interpret s)).machine.env ≠ s.machine.env ∧ ∃ m, s.Strands m := by
  let s : Session := { tree := ((Tree.program unnamedSampleTree).number 0).1 }
  have parsed : Parse.Returns (Parse.cursorOver unnamedSample) (.program unnamedSampleTree)
      (final (Parse.run Parse.program (Parse.cursorOver unnamedSample))) :=
    .inl ⟨unnamedSampleTree, rfl, rfl⟩
  have left : (final (interpret s)).machine.env ≠ s.machine.env := by decide +kernel
  obtain ⟨kept, -⟩ := scopeIsKeptUnlessStranded (s := s) parsed rfl
  refine ⟨s, rfl, left, Classical.byContradiction fun none => left (kept.mpr ?_)⟩
  exact fun m strands => none ⟨m, strands⟩

/-- After such a class a variable that is declared on a line of its own is not a global one, and the
next lines do not find it. -/
theorem strandedLinesLoseTheGlobals :
    let s := final (dialogue 1 ["class A \x7b\x7d".toList,
      "class B < A \x7b () \x7b\x7d \x7d".toList, "var x = \"a\";".toList, "print x;".toList]
      (live (.still 0)))
    s.machine.env.length = 2 ∧ (s.machine.store.frame Store.globals).has "x" = false ∧
      s.machine.console = #[">", ">", ">", ">", ">"] ∧ s.log.runtime.length = 2 := by
  decide +kernel

end Session
end Lox
