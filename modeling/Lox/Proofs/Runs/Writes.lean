import Lox.Proofs.Runs.Cells
import Lox.Proofs.Runs.Fields
import Lox.Proofs.Runs.Objects

/-!
What runs do to objects. The events of a task lead from one to the next with no write and no change
of a cell between them, so what the tasks of a run do to the objects in the store adds up. In
particular, wherever a run has come to, a field holds the value of the last write that was made to
it, or what it held before the run.
-/

namespace Lox

open Eval

def Task.ending (n : Nat) : Task → Machine → Machine
  | .expr e, m => final (evaluate n e m)
  | .exprs es, m => final (evaluateAll n es m)
  | .call f args, m => final (Eval.call n f args m)
  | .routine r args, m => final (callRoutine n r args m)
  | .stmt s, m => final (execute n s m)
  | .stmts ss, m => final (executeAll n ss m)
  | .loop cond body, m => final (Eval.loop n cond body m)
  | .superclass e, m => final (Eval.superclass n e m)

theorem endingSet (n a id : Nat) (index v : Value) (rest : List Value) (m : Machine) :
    (Task.call (.accessor a .write id) (index :: v :: rest)).ending (n + 1) m =
      { m with store := final (Store.writeCell id index v m.store) } := by
  cases run : Store.writeCell id index v m.store with
  | ok _ s => exact congrArg final (callSetOk run)
  | error f s => exact congrArg final (callSetError run)

theorem endingMake (n : Nat) (size : Value) (rest : List Value) (m : Machine) :
    (Task.call .arrayMaker (size :: rest)).ending (n + 1) m =
      { m with store := final (Store.makeArray size m.store) } := by
  cases run : Store.makeArray size m.store with
  | ok v s => exact congrArg final (callMakeOk run)
  | error f s => exact congrArg final (callMakeError run)

inductive Proceeds (n : Nat) : Store → List Event → Store → Prop where
  | idle {s s'} (still : s.Still s') : Proceeds n s [] s'
  | part {s t m es s'} (still : s.Still m.store)
      (rest : Proceeds n (t.ending n m).store es s') : Proceeds n s (.part t m :: es) s'
  | write {s w s' es s''} (written : s.Writes [w] s') (rests : s.Rests s')
      (rest : Proceeds n s' es s'') : Proceeds n s (.write w :: es) s''

namespace Proceeds

variable {n : Nat} {s s' s'' : Store} {es es' : List Event}

theorem still (h : s.Still s') (rest : Proceeds n s' es s'') : Proceeds n s es s'' := by
  cases rest with
  | idle still => exact .idle (h.trans still)
  | part still rest => exact .part (h.trans still) rest
  | write written rests rest =>
    exact .write (h.fields.trans written) (h.toRests.trans rests) rest

theorem append (first : Proceeds n s es s') (rest : Proceeds n s' es' s'') :
    Proceeds n s (es ++ es') s'' := by
  induction first with
  | idle h => exact rest.still h
  | part h _ ih => exact .part h (ih rest)
  | write written rests _ ih => exact .write written rests (ih rest)

theorem upTo {earlier later : List Event} {t : Task} {m : Machine}
    (h : Proceeds n s (earlier ++ .part t m :: later) s') : Proceeds n s earlier m.store := by
  induction earlier generalizing s with
  | nil =>
    cases h with
    | part h _ => exact .idle h
  | cons e earlier ih =>
    cases h with
    | part h rest => exact .part h (ih rest)
    | write written rests rest => exact .write written rests (ih rest)

end Proceeds

def Eval.Makes {α : Type} (n : Nat) (x : Eval α) (m : Machine) (es : List Event) : Prop :=
  Proceeds n m.store es (final (x m)).store

namespace Eval

variable {α β : Type} {n : Nat} {m : Machine} {es : List Event} {x : Eval α} {f : α → Eval β}

theorem Makes.bind {next : α → Machine → List Event} (first : Makes n x m es)
    (rest : ∀ a m', x m = .ok a m' → Makes n (f a) m' (next a m')) :
    Makes n (x >>= f) m (es ++ following x m next) := by
  unfold Makes following at *
  rw [bindRun]
  cases run : x m with
  | ok a m' =>
    rw [run] at first
    exact first.append (rest a m' run)
  | error e m' =>
    rw [run] at first
    exact first.append (.idle (.refl _))

theorem makesNone (quiet : Sparing x) : Makes n x m [] := .idle (quiet m).still

theorem Makes.then (first : Makes n x m es) (rest : ∀ a, Sparing (f a)) :
    Makes n (x >>= f) m es := by
  have none : following x m (fun _ _ => ([] : List Event)) = [] := by
    unfold following
    cases x m <;> rfl
  have both : Makes n (x >>= f) m (es ++ following x m fun _ _ => []) :=
    first.bind fun a _ _ => makesNone (rest a)
  rwa [none, List.append_nil] at both

theorem Makes.after {next : α → Machine → List Event} (first : Sparing x)
    (rest : ∀ a m', x m = .ok a m' → Makes n (f a) m' (next a m')) :
    Makes n (x >>= f) m (following x m next) :=
  (makesNone first).bind rest

theorem makesPart {t : Task} (same : final (x m) = t.ending n m) : Makes n x m [.part t m] := by
  refine .part (.refl _) (.idle ?_)
  rw [← same]
  exact .refl _

theorem withinStore (env : Env) (x : Eval α) (m : Machine) :
    (final (within env x m)).store = (final (x { m with env := env })).store := by
  unfold within
  cases x { m with env := env } <;> rfl

theorem returnedByFinal (x : Eval Unit) (m : Machine) :
    final (returnedBy x m) = final (x m) := by
  unfold returnedBy
  cases x m with
  | ok a m' => rfl
  | error e m' => cases e <;> rfl

theorem makesEntered (body : List Stmt) {x : Env → Eval α}
    (same : ∀ env m, (final (x env m)).store = (final (executeAll n body { m with env := env })).store)
    (env : Env) (b : Bindings Value) :
    Makes n (change (fun s => s.enter env b) >>= x) m
      [.part (.stmts body) (m.entering env b)] := by
  refine .part ⟨⟨rfl, rfl⟩, .same rfl⟩ (.idle ?_)
  rw [bindRun]
  show Store.Still _ (final (x _ _)).store
  rw [same]
  exact .refl _

theorem makesSetProperty {o : Value} (live : ∀ id c, o = .instance_ id c → id < m.store.fields.size)
    (name : Option Token) (v : Value) :
    Makes n (do setProperty o name v; return v) m (o.setting name v) := by
  cases o with
  | instance_ id c =>
    cases name with
    | none => exact makesNone (sparingThrow _)
    | some t => exact .write (.setField (w := ⟨id, t.lexeme, v⟩) (live id c rfl)) ⟨rfl, rfl⟩ (.idle (.refl _))
  | _ => exact makesNone (sparingThrow _)

theorem liveTarget {object value : Expr} {name : Option Token} {w : objectDiscipline.World}
    (sits : objectDiscipline.Sits w (.expr (.set object name value)) m) {id : Nat} {c : Class}
    {v : Value} {m₁ m₂ m₃ : Machine} (first : evaluate n object m = .ok (.instance_ id c) m₁)
    (settable : checkSettable (.instance_ id c) name m₁ = .ok () m₂)
    (second : evaluate n value m₂ = .ok v m₃) : id < m₃.store.fields.size := by
  obtain ⟨_, w₁, -, ends, -⟩ :=
    (Discipline.follows (D := objectDiscipline) n).expr object w m ⟨sits.kept, nofun, trivial⟩
  rw [first] at ends
  cases settable
  obtain ⟨_, w₂, passes, ends', -⟩ :=
    (Discipline.follows (D := objectDiscipline) n).expr value w₁ m₁ ⟨ends.1, nofun, trivial⟩
  rw [second] at ends'
  have made : id < w₁ := ends.2.1
  have count : m₃.store.fields.size = w₂ := ends'.1.store.count
  rw [count]
  exact Nat.lt_of_lt_of_le made passes.le

theorem makesExpr {e : Expr} {w : objectDiscipline.World}
    (sits : objectDiscipline.Sits w (.expr e) m) :
    Makes n (evaluate (n + 1) e) m (e.events n m) := by
  cases e with
  | missing => exact makesNone (sparingThrow _)
  | literal d => exact makesNone (sparingPure _)
  | reference node name => exact makesNone (modestReadVariable node name).sparing
  | this node keyword => exact makesNone (modestReadVariable node keyword).sparing
  | super node keyword method => exact makesNone (modestSuperMethod node method).sparing
  | assign node name value =>
    refine (makesPart (x := evaluate n value) rfl).then fun v => ?_
    exact (modestWriteVariable node name v).sparing.bind fun _ => sparingPure _
  | unary op right =>
    exact (makesPart (x := evaluate n right) rfl).then fun v => (modestUnary op v).sparing
  | binary left op right =>
    refine (makesPart (x := evaluate n left) rfl).bind fun l m₁ first => ?_
    exact (makesPart (x := evaluate n right) rfl).then fun r => (modestBinary op l r).sparing
  | logical left op right =>
    refine (makesPart (x := evaluate n left) rfl).bind fun l m₁ first => ?_
    refine Makes.after (modestDecides op l).sparing fun decided m₂ second => ?_
    cases decided with
    | true => exact makesNone (sparingPure _)
    | false => exact makesPart rfl
  | grouping inner => exact makesPart rfl
  | call callee paren args =>
    refine (makesPart (x := evaluate n callee) rfl).bind fun f m₁ first => ?_
    refine (makesPart (x := evaluateAll n args) rfl).bind fun vs m₂ second => ?_
    cases arity : f.arity? with
    | none => exact makesNone (sparingThrow _)
    | some k =>
      by_cases fits : vs.length = k
      · simp only [fits, if_true]
        exact makesPart rfl
      · simp only [fits, Option.some.injEq, Ne.symm fits, if_false]
        exact makesNone (sparingThrow _)
  | get object name =>
    exact (makesPart (x := evaluate n object) rfl).then fun o => (modestGetProperty o name).sparing
  | set object name value =>
    refine (makesPart (x := evaluate n object) rfl).bind fun o m₁ first => ?_
    refine Makes.after (modestCheckSettable o name).sparing fun _ m₂ settable => ?_
    refine (makesPart (x := evaluate n value) rfl).bind fun v m₃ second => ?_
    refine makesSetProperty ?_ name v
    rintro id c rfl
    exact liveTarget sits first settable second

theorem makesConstruct (c : Class) (args : List Value) :
    Makes n (Eval.call (n + 1) (.class_ c) args) m (Value.callEvents (.class_ c) args m) := by
  have made : Makes n (change fun s => s.newInstance c) m [] :=
    .idle ⟨⟨rfl, rfl⟩, .newInstance m.store c⟩
  unfold Eval.call Value.callEvents
  dsimp only
  cases c.findMethod? Class.initializer with
  | none => exact made.then fun this => sparingPure _
  | some r =>
    let begun (this : Value) (m : Machine) : List Event :=
      following (bindRoutine r this) m fun r m => [.part (.routine r args) m]
    show Makes n _ m ([] ++ following (change fun s => s.newInstance c) m begun)
    refine made.bind fun this m₁ _ => Makes.after (modestBindRoutine r this).sparing fun r' m₂ _ => ?_
    exact (makesPart (x := callRoutine n r' args) rfl).then fun _ => sparingPure _

theorem makesCall {f : Value} {args : List Value} (plain : f.deed? args = none) :
    Makes n (Eval.call (n + 1) f args) m (f.callEvents args m) := by
  cases f with
  | function id name r => exact makesPart rfl
  | class_ c => exact makesConstruct c args
  | clock => exact makesNone (Modest.bind .tick fun _ => modestStamp _).sparing
  | accessor id which array =>
    cases which with
    | read =>
      cases args with
      | nil => exact makesNone (sparingThrow _)
      | cons index rest => exact makesNone (modestAsk fun s => s.readCell array index).sparing
    | write =>
      match args with
      | [] => exact makesNone (sparingThrow _)
      | [_] => exact makesNone (sparingThrow _)
      | index :: v :: rest => cases plain
  | arrayMaker =>
    cases args with
    | nil => exact makesNone (sparingThrow _)
    | cons size rest => cases plain
  | _ => exact makesNone (sparingThrow _)

theorem makesRoutine (r : Routine) (args : List Value) :
    Makes n (callRoutine (n + 1) r args) m ((Task.routine r args).events n m) := by
  refine Makes.after (modestLift _).sparing fun b m₁ bound => ?_
  rw [← bind_assoc]
  refine (makesEntered r.decl.body (fun env m => ?_) r.closure b).then fun ended => ?_
  · rw [returnedByFinal, withinStore]
  · cases ended with
    | none => exact sparingPure _
    | some v =>
      dsimp only
      split
      · exact (modestAsk _).sparing
      · exact sparingPure _

theorem makesTest (cond : Expr) {f : Bool → Eval α} {next : Bool → Machine → List Event}
    (rest : ∀ b m', Makes n (f b) m' (next b m')) :
    Makes n (do f (← lift (← evaluate n cond).truth)) m (testEvents n cond m next) := by
  refine (makesPart (x := evaluate n cond) rfl).bind fun v m₁ first => ?_
  exact Makes.after (modestLift _).sparing fun b m₂ truth => rest b m₂

theorem makesStmt (s : Stmt) : Makes n (execute (n + 1) s) m (s.events n m) := by
  cases s with
  | missing => exact makesNone (sparingThrow _)
  | expression e => exact (makesPart (x := evaluate n e) rfl).then fun _ => sparingPure _
  | print e => exact (makesPart (x := evaluate n e) rfl).then fun v => (modestEmit v).sparing
  | var name init =>
    have body : ∀ v, Sparing (do defineHere (← Eval.lexeme name) v) :=
      fun v => (modestLift _).sparing.bind fun x => (Modest.define x v).sparing
    unfold Eval.execute Stmt.events
    dsimp only
    split
    · exact makesNone (body .nil)
    · exact (makesPart (x := evaluate n init) rfl).then body
  | block body => exact makesEntered body (fun env m => withinStore env _ m) m.env []
  | if_ cond yes no =>
    refine makesTest cond fun holds m₁ => ?_
    cases holds with
    | true => exact makesPart rfl
    | false =>
      cases given : no.isMissing with
      | true => exact makesNone (sparingPure _)
      | false => exact makesPart rfl
  | while_ cond body => exact makesPart rfl
  | function f =>
    refine makesNone (sparingGet.bind fun m => (modestFunctionValue _).sparing.bind fun v => ?_)
    exact (modestLift _).sparing.bind fun x => (Modest.define x v).sparing
  | return_ keyword value =>
    unfold Eval.execute Stmt.events
    dsimp only
    split
    · exact makesNone (sparingThrow _)
    · exact (makesPart (x := evaluate n value) rfl).then fun v => sparingThrow _
  | class_ name methods base =>
    unfold Eval.execute Stmt.events
    dsimp only
    split
    · exact makesNone (modestDeclareClass name methods none).sparing
    · have given : Makes n (some <$> Eval.superclass n base) m [.part (.superclass base) m] :=
        (makesPart (x := Eval.superclass n base) rfl).then fun _ => sparingPure _
      exact given.then fun o => (modestDeclareClass name methods o).sparing

theorem makesInTurn (ss : List Stmt) :
    Makes n (inOrder (execute n) ss) m (Stmt.inTurn n ss m) := by
  induction ss generalizing m with
  | nil => exact makesNone (sparingPure _)
  | cons s ss ih => exact (makesPart (x := execute n s) rfl).bind fun _ m₁ _ => ih

theorem makesLoop (cond : Expr) (body : Stmt) :
    Makes n (Eval.loop (n + 1) cond body) m ((Task.loop cond body).events n m) := by
  refine makesTest cond fun again m₁ => ?_
  cases again with
  | false => exact makesNone (sparingPure _)
  | true =>
    refine (makesPart (x := execute n body) rfl).bind fun _ m₂ second => ?_
    exact makesPart rfl

end Eval

theorem Task.proceeds {n : Nat} {t : Task} {m : Machine} {w : objectDiscipline.World}
    (sits : objectDiscipline.Sits w t m) (plain : t.deed? = none) :
    Proceeds n m.store (t.events n m) (t.ending (n + 1) m).store := by
  cases t with
  | expr e => exact makesExpr sits
  | exprs es =>
    cases es with
    | nil => exact makesNone (sparingPure _)
    | cons e es =>
      refine (makesPart (x := evaluate n e) rfl).bind fun v m₁ first => ?_
      exact (makesPart (x := evaluateAll n es) rfl).then fun _ => sparingPure _
  | call f args => exact makesCall plain
  | routine r args => exact makesRoutine r args
  | stmt s => exact makesStmt s
  | stmts ss => exact makesInTurn ss
  | loop cond body => exact makesLoop cond body
  | superclass e =>
    refine (makesPart (x := evaluate n e) rfl).then fun v => ?_
    cases v with
    | class_ c => exact sparingPure _
    | _ => exact sparingThrow _

theorem Task.endingZero (t : Task) (m : Machine) : t.ending 0 m = m := by
  cases t <;> rfl

/-- Something that tasks do to the objects in the store, noted and added up over a run. A task does
it by its parts and its own writes, or is a deed itself. -/
structure Tally (β : Type) extends Notes β where
  Does : Store → List β → Store → Prop
  plain : ∀ n t m, t.deed? = none → own n t m = []
  deed : ∀ n t m d, t.deed? = some d → Does m.store (own n t m) (t.ending (n + 1) m).store
  still : ∀ {s s'}, s.Still s' → Does s [] s'
  written : ∀ {s w s'}, s.Writes [w] s' → s.Rests s' → Does s (write w) s'
  trans : ∀ {s s' s'' xs ys}, Does s xs s' → Does s' ys s'' → Does s (xs ++ ys) s''

namespace Tally

variable {β : Type} (T : Tally β) {n : Nat}

theorem notedPlain {t : Task} (plain : t.deed? = none) (m : Machine) :
    t.noted T.toNotes (n + 1) m = (t.events n m).flatMap (Event.noted T.toNotes n) := by
  rw [Task.notedSucc, T.plain n t m plain, List.nil_append]

theorem proceeds {s s' : Store} {es : List Event} (h : Proceeds n s es s')
    (each : ∀ t m, .part t m ∈ es → T.Does m.store (t.noted T.toNotes n m) (t.ending n m).store) :
    T.Does s (es.flatMap (Event.noted T.toNotes n)) s' := by
  induction h with
  | idle still => exact T.still still
  | part still _ ih =>
    have here := T.trans (T.still still) (each _ _ List.mem_cons_self)
    exact T.trans here (ih fun t m mem => each t m (List.mem_cons_of_mem _ mem))
  | write written rests _ ih =>
    exact T.trans (T.written written rests) (ih fun t m mem => each t m (List.mem_cons_of_mem _ mem))

variable {n₀ : Nat} {t₀ t : Task} {m₀ m : Machine} {xs : List β}

theorem begins (h : Arrives T.toNotes n₀ t₀ m₀ xs n t m) :
    ∃ more, t₀.noted T.toNotes n₀ m₀ = xs ++ (t.noted T.toNotes n m ++ more) := by
  induction h with
  | start => exact ⟨[], by simp⟩
  | @part xs n t m earlier t' m' later before events ih =>
    obtain ⟨more, total⟩ := ih
    refine ⟨later.flatMap (Event.noted T.toNotes n) ++ more, ?_⟩
    rw [total, T.notedPlain (Task.plainOfPart events), events]
    simp [Event.noted]
  | @later xs n s ss m m' before first ih =>
    obtain ⟨more, total⟩ := ih
    have split : (Task.stmts (s :: ss)).noted T.toNotes (n + 1) m =
        (Task.stmt s).noted T.toNotes n m ++ (Task.stmts ss).noted T.toNotes (n + 1) m' := by
      rw [T.notedPlain rfl, T.notedPlain rfl]
      simp only [Task.events, Stmt.inTurn, followingOk first, List.flatMap_cons]
      rfl
    exact ⟨more, by rw [total, split]; simp⟩

variable (sits : ∀ k t m, Reaches n₀ t₀ m₀ k t m → ∃ w, objectDiscipline.Sits w t m)

include sits

/- By induction on the number of nested calls left. -/
theorem whole (reach : Reaches n₀ t₀ m₀ n t m) :
    T.Does m.store (t.noted T.toNotes n m) (t.ending n m).store := by
  induction n generalizing t m with
  | zero =>
    rw [Task.endingZero]
    exact T.still (.refl _)
  | succ n ih =>
    cases own : t.deed? with
    | some d =>
      rw [Task.notedSucc, t.deedEvents own, List.flatMap_nil, List.append_nil]
      exact T.deed n t m d own
    | none =>
      obtain ⟨w, here⟩ := sits _ _ _ reach
      rw [T.notedPlain own]
      exact T.proceeds (Task.proceeds here own) fun t' m' mem => ih (reach.event mem)

theorem upTo {earlier later : List Event} {t' : Task} {m' : Machine}
    (reach : Reaches n₀ t₀ m₀ (n + 1) t m)
    (events : t.events n m = earlier ++ .part t' m' :: later) :
    T.Does m.store (earlier.flatMap (Event.noted T.toNotes n)) m'.store := by
  obtain ⟨w, here⟩ := sits _ _ _ reach
  have proceeds := Task.proceeds (n := n) here (Task.plainOfPart events)
  rw [events] at proceeds
  refine T.proceeds proceeds.upTo fun t₁ m₁ mem => T.whole sits ?_
  refine reach.event ?_
  rw [events]
  exact List.mem_append_left _ mem

theorem first {s : Stmt} {ss : List Stmt} {m' : Machine}
    (reach : Reaches n₀ t₀ m₀ (n + 1) (.stmts (s :: ss)) m) (run : execute n s m = .ok () m') :
    T.Does m.store ((Task.stmt s).noted T.toNotes n m) m'.store := by
  have done := T.whole sits (reach.step .firstStmt)
  have ending : (Task.stmt s).ending n m = m' := congrArg final run
  rwa [ending] at done

theorem arrived (h : Arrives T.toNotes n₀ t₀ m₀ xs n t m) : T.Does m₀.store xs m.store := by
  induction h with
  | start => exact T.still (.refl _)
  | part before events ih => exact T.trans ih (T.upTo sits before.reaches events)
  | later before run ih => exact T.trans ih (T.first sits before.reaches run)

end Tally

theorem Task.deedFields {t : Task} {d : Deed} (h : t.deed? = some d) (n : Nat) (m : Machine) :
    (t.ending (n + 1) m).store.fields = m.store.fields := by
  obtain ⟨a, id, index, v, rest, rfl, -⟩ | ⟨size, rest, rfl, -⟩ := t.deedCall h
  · rw [endingSet]
    unfold Store.writeCell
    split <;> rfl
  · rw [endingMake]
    unfold Store.makeArray
    split <;> rfl

def writeTally : Tally Write where
  toNotes := .writes
  Does := Store.Writes
  plain _ _ _ _ := rfl
  deed n t m _ own := .same (t.deedFields own n m)
  still h := h.fields
  written h _ := h
  trans first rest := first.trans rest

namespace Session

def task (s : Session) : Task :=
  match s.tree with
  | .program body => .stmts body
  | .expression e => .expr e

def running (s : Session) : Machine := { s.machine with locals := s.resolver.locals }

theorem comesBy {s : Session} {k : Nat} {t : Task} {m : Machine} :
    s.ComesBy k t m ↔ Reaches fuel s.task s.running k t m := by
  unfold ComesBy task
  cases s.tree <;> rfl

theorem interpretStore (s : Session) :
    (s.act .interpret).machine.store = (s.task.ending fuel s.running).store := by
  show (final (interpret s)).machine.store = _
  rw [interpretMachine]
  unfold task
  cases s.tree with
  | program body =>
    show (final ((executeAll fuel body >>= fun _ => pure Value.nil) s.running)).store =
      (final (executeAll fuel body s.running)).store
    rw [bindRun]
    cases executeAll fuel body s.running <;> rfl
  | expression e => rfl

section

variable {β : Type} (N : Notes β)

def noted (s : Session) : Act → List β
  | .interpret => s.task.noted N fuel s.running
  | _ => []

def notedAll (s : Session) : List Act → List β
  | [] => []
  | a :: acts => s.noted N a ++ (s.act a).notedAll acts

def ComesAfter (s : Session) (xs : List β) (k : Nat) (t : Task) (m : Machine) : Prop :=
  Arrives N fuel s.task s.running xs k t m

theorem notedAppend (s : Session) (acts acts' : List Act) :
    s.notedAll N (acts ++ acts') = s.notedAll N acts ++ (s.after acts).notedAll N acts' := by
  induction acts generalizing s with
  | nil => rfl
  | cons a acts ih => simp [notedAll, after, ih]

theorem comesAfter {s : Session} {k : Nat} {t : Task} {m : Machine} :
    s.ComesBy k t m ↔ ∃ xs, s.ComesAfter N xs k t m := by
  rw [comesBy]
  exact ⟨Reaches.arrives N, fun ⟨_, arrives⟩ => arrives.reaches⟩

end

variable {s : Session} {w : objectDiscipline.World} {β : Type}

theorem taskSits (kept : objectDiscipline.Kept w s.machine) {k : Nat} {t : Task} {m : Machine}
    (reach : Reaches fuel s.task s.running k t m) : ∃ v, objectDiscipline.Sits v t m := by
  obtain ⟨ws, _, -, -, found⟩ := treeGoes kept
  obtain ⟨v, -, sits⟩ := found k t m (comesBy.mpr reach)
  exact ⟨v, sits⟩

variable (T : Tally β)

theorem acted (kept : objectDiscipline.Kept w s.machine) (a : Act) :
    T.Does s.machine.store (s.noted T.toNotes a) (s.act a).machine.store := by
  have still : a ≠ .interpret → s.noted T.toNotes a = [] := by cases a <;> simp [noted]
  by_cases same : a = .interpret
  · subst same
    rw [interpretStore]
    exact T.whole (fun k t m reach => taskSits kept reach) .start
  · rw [still same, (s.actStill same).1]
    exact T.still (.refl _)

theorem actedAll (kept : objectDiscipline.Kept w s.machine) (acts : List Act) :
    T.Does s.machine.store (s.notedAll T.toNotes acts) (s.after acts).machine.store := by
  induction acts generalizing s w with
  | nil => exact T.still (.refl _)
  | cons a acts ih =>
    obtain ⟨w', kept'⟩ := actKept kept a
    exact T.trans (acted T kept a) (ih kept')

theorem freshDone (setting : Setting) (acts : List Act) {xs : List β} {k : Nat} {t : Task}
    {m : Machine} (comes : ((fresh setting).after acts).ComesAfter T.toNotes xs k t m) :
    T.Does (fresh setting).machine.store ((fresh setting).notedAll T.toNotes acts ++ xs) m.store := by
  obtain ⟨w, kept⟩ := objectsKept setting acts
  have run := T.arrived (fun k t m reach => taskSits kept reach) comes
  exact T.trans (actedAll T (objectsFresh setting) acts) run

theorem freshBegins (setting : Setting) (acts later : List Act) {xs : List β} {k : Nat} {t : Task}
    {m : Machine} (comes : ((fresh setting).after acts).ComesAfter T.toNotes xs k t m) :
    ∃ more, (fresh setting).notedAll T.toNotes (acts ++ .interpret :: later) =
      (fresh setting).notedAll T.toNotes acts ++ xs ++ (t.noted T.toNotes k m ++ more) := by
  obtain ⟨more, total⟩ := T.begins comes
  refine ⟨more ++ (((fresh setting).after acts).act .interpret).notedAll T.toNotes later, ?_⟩
  rw [notedAppend, notedAll, noted, total]
  simp

end Session
end Lox
