import Lox.Proofs.Assigned
import Lox.Proofs.Loops.Clauses
import Lox.Proofs.Resolved

/-!
Loops with clauses in a program. Wherever a run comes to the tree of a loop, the tree ends exactly
if the loop itself does, and leaves the same behind: what is printed, how it ends, and the values of
all variables that there were before.
-/

namespace Lox

open Eval

theorem nodesOfMethod {fs : List FunDecl} {f : FunDecl} (mem : f ∈ fs) :
    f.nodes ⊆ FunDecl.nodesOf fs := by
  induction fs with
  | nil => cases mem
  | cons g fs ih =>
    rcases List.mem_cons.mp mem with rfl | later
    · exact List.subset_append_left _ _
    · exact List.subset_append_of_subset_right _ (ih later)

theorem Stands.within {body : List Stmt} {c : Context} {p : Part} (h : Stands body c p) :
    p.nodes ⊆ Stmt.nodesOf body := by
  induction h with
  | program => exact fun _ mem => mem
  | operand _ ih | inner _ ih | getObject _ ih | expression _ ih | printed _ ih
  | initializer _ _ ih | block _ ih | returned _ _ ih | function _ ih => exact ih
  | assigned _ ih | binaryLeft _ ih | logicalLeft _ ih | callee _ ih | firstExpr _ ih
  | setObject _ ih | first _ ih | ifCond _ ih | whileCond _ ih =>
    exact fun _ mem => ih (List.mem_append_left _ mem)
  | binaryRight _ ih | logicalRight _ ih | arguments _ ih | laterExprs _ ih | setValue _ ih
  | later _ ih | whileBody _ ih | superclass _ _ ih =>
    exact fun _ mem => ih (List.mem_append_right _ mem)
  | yes _ ih => exact fun _ mem => ih (List.mem_append_right _ (List.mem_append_left _ mem))
  | no _ _ ih => exact fun _ mem => ih (List.mem_append_right _ (List.mem_append_right _ mem))
  | method _ mem _ ih => exact fun _ inside => ih (List.mem_append_left _ (nodesOfMethod mem inside))
  | @body c f kind _ ih =>
    cases f
    exact ih

theorem Fits.lives {opened : Site → Env → Prop} {s : Store} {env : Env}
    {scopes : List (Site × Scope)} (h : Fits opened s env scopes) : ∀ f ∈ env, f < s.frames.size := by
  induction h with
  | globals live =>
    intro f mem
    cases List.mem_singleton.mp mem
    exact live
  | frame _ _ _ live _ _ ih => exact List.forall_mem_cons.mpr ⟨live, ih⟩

theorem Stands.plainHead {body : List Stmt} {c : Context} {s : Stmt} (h : Stands body c (.stmt s))
    (whole : Stmt.AllShaped body) : ∀ names ∈ c.names.head?, names.has "super" = false := by
  obtain ⟨classed, isOpen⟩ := h.classed whole
  have inside := isOpen rfl
  unfold Context.Open at inside
  unfold Context.names
  generalize c.klass = k at classed
  generalize c.scopes = scopes at classed inside
  cases classed with
  | none => rintro _ ⟨⟩
  | block plain _ | call plain _ =>
    rintro _ ⟨⟩
    exact plainReserved plain superReserved
  | plain | subclass => cases inside _ rfl

def World.same (size : Nat) : World where
  partners f g := f = g ∧ f < size
  left _ := False
  right _ := False

theorem World.fitsSame {size : Nat} {E : Env} (live : ∀ f ∈ E, f < size) :
    (World.same size).Fits [] E E :=
  .beyond (List.forall₂_same.mpr fun f mem => ⟨rfl, live f mem⟩)

section

variable {S : Start} {T : Tables} (agree : T.Agree (Stmt.nodesOf S.body)) {s : Store}

include agree

theorem alikeSelf {v : Value} (ok : S.ValueOk s v) : T.Alike (World.same s.frames.size) v v := by
  have code : ∀ {c kind} {f : FunDecl} {π : Layout}, Stands S.body c (.function f kind) →
      (∀ side ∈ π, side = .both) → f.Twin T π f :=
    fun stands same => FunDecl.twinSelf _ same fun node mem => agree node (stands.within mem)
  have classes : ∀ {c : Class}, c.Holds (S.MethodOk s) → T.Classes (World.same s.frames.size) c c := by
    intro c ok
    refine List.forall₂_same.mpr fun layer mem => ⟨rfl, rfl, fun name => ?_⟩
    cases found : layer.methods.get? name with
    | none => exact .none
    | some r =>
      obtain ⟨-, c', kind, outer, stands, -, fits⟩ := ok layer mem name r found
      exact .some ⟨⟨[], World.fitsSame fits.lives, code stands (by simp)⟩, rfl⟩
  cases v with
  | datum d => exact .datum d
  | function id name r =>
    obtain ⟨-, kind, c, stands, fits⟩ := ok
    exact .function id name
      ⟨⟨[], World.fitsSame fits.lives, code stands (by simp), fun _ => .beyond 0⟩, rfl⟩
  | class_ c => exact .class_ (classes ok)
  | instance_ id c => exact .instance_ id (classes ok)
  | array id => exact .array id
  | accessor id which array => exact .accessor id which array
  | clock => exact .clock
  | arrayMaker => exact .arrayMaker

theorem mirrorsSelf (all : s.All (S.ValueOk s)) (live : 0 < s.frames.size) :
    Mirrors T (World.same s.frames.size) s s := by
  have bindings : ∀ {b : Bindings Value}, b.All (S.ValueOk s) →
      Bindings.Alike (T.Alike (World.same s.frames.size)) b b := by
    intro b each name
    cases found : b.get? name with
    | none => exact .none
    | some v => exact .some (alikeSelf agree (each name v found))
  exact {
    live := by
      rintro f _ ⟨rfl, live⟩
      exact ⟨live, live⟩
    content := by
      rintro f _ ⟨rfl, -⟩
      exact bindings (all.frames f)
    unique := by
      rintro f _ f' _ ⟨rfl, -⟩ ⟨rfl, -⟩
      rfl
    left := nofun
    right := nofun
    globals := ⟨rfl, live⟩
    fieldCount := rfl
    fields := fun id => bindings (all.fields id)
    arrayCount := rfl
    arrays := fun id => List.forall₂_same.mpr fun v mem =>
      alikeSelf agree (all.arrays id v (Array.mem_def.mpr mem))
    nextId := rfl
    memory := rfl }

end

namespace Tables

/-- Two machines that nothing outside of the runs tells apart: the same is written and printed, and
the variables in the first `size` frames, the fields and the arrays hold values that are alike. -/
structure Outside (T : Tables) (size : Nat) (w : World) (m m' : Machine) : Prop where
  store : Mirrors T w m.store m'.store
  frames : ∀ f < size, Bindings.Alike (T.Alike w) (m.store.frame f) (m'.store.frame f)
  console : m.console = m'.console
  printed : ∃ new new', m.printed.toList = T.printed.toList ++ new ∧
    m'.printed.toList = T.printed.toList ++ new' ∧ List.Forall₂ (T.Alike w) new new' ∧
    new.map (·.shown m.store) = new'.map (·.shown m'.store)

inductive Outcome (T : Tables) (size : Nat) :
    EStateM.Result Signal Machine Unit → EStateM.Result Signal Machine Unit → Prop where
  | ended {w : World} {m m' : Machine} (outside : T.Outside size w m m') :
      Outcome T size (.ok () m) (.ok () m')
  | failed {w : World} {m m' : Machine} (f : Fault) (outside : T.Outside size w m m') :
      Outcome T size (.error (.fault f) m) (.error (.fault f) m')
  | returned {w : World} {m m' : Machine} {v v' : Value} (value : T.Alike w v v')
      (text : v.shown m.store = v'.shown m'.store) (outside : T.Outside size w m m') :
      Outcome T size (.error (.returned v) m) (.error (.returned v') m')

def SameMeaning (T : Tables) (size : Nat) (x y : Nat → Eval Unit) (m m' : Machine) : Prop :=
  (∀ r, EndsIn x m r → ∃ r', EndsIn y m' r' ∧ T.Outcome size r r') ∧
    ∀ r', EndsIn y m' r' → ∃ r, EndsIn x m r ∧ T.Outcome size r r'

variable {T : Tables} {size : Nat} {E F : Env} {m m' : Machine}

theorem Related.outside {w : World} (h : T.Related w m m') (later : World.same size ≤ w) :
    T.Outside size w m m' := by
  obtain ⟨new, new', left, right, each⟩ := h.printed
  refine ⟨h.store, fun f live => h.store.content (later.partners f f ⟨rfl, live⟩), h.console,
    new, new', left, right, each, ?_⟩
  clear left right
  induction each with
  | nil => rfl
  | cons value _ ih => rw [List.map_cons, List.map_cons, shownSame h.store value, ih]

theorem sameMeaning {x y : Nat → Eval Unit}
    (h : ∀ n, T.Ends (World.same size) E F Done (x n m) (y n m')) :
    T.SameMeaning size x y m m' := by
  have outcome : ∀ {r r'}, T.Ends (World.same size) E F Done r r' →
      (¬Spent r ↔ ¬Spent r') ∧ (¬Spent r → T.Outcome size r r') := by
    intro r r' ends
    cases ends with
    | ok later related => exact ⟨Iff.rfl, fun _ => .ended (related.outside later)⟩
    | error later related signals =>
      have outside := related.outside later
      cases signals with
      | fault f => exact ⟨Iff.rfl, fun _ => .failed f outside⟩
      | returned value =>
        exact ⟨Iff.rfl, fun _ => .returned value (shownSame related.store value) outside⟩
      | outOfFuel => exact ⟨Iff.rfl, fun ends => absurd trivial ends⟩
  constructor
  · rintro r ⟨⟨n, rfl⟩, ended⟩
    obtain ⟨both, same⟩ := outcome (h n)
    exact ⟨y n m', ⟨⟨n, rfl⟩, both.mp ended⟩, same ended⟩
  · rintro r' ⟨⟨n, rfl⟩, ended⟩
    obtain ⟨both, same⟩ := outcome (h n)
    exact ⟨x n m, ⟨⟨n, rfl⟩, both.mpr ended⟩, same (both.mpr ended)⟩

end Tables

def Context.resolver (c : Context) (L : Locals) : Resolver where
  scopes := c.names
  function := c.function
  klass := c.klass
  locals := L

namespace For

theorem partsOf {n : Nat} {c c' : Cursor} {t : Stmt} (sourced : Parse.Sourced c)
    (run : Parse.forStatement (n + 1) c = .ok t c') :
    ∃ p : For, Parse.forParts n c = .ok p c' ∧ t = p.tree ∧ p.Parsed := by
  rw [Parse.forStatementParts, map_eq_pure_bind] at run
  obtain ⟨p, _, parts, last⟩ := bindOk.mp run
  cases last
  have given := yieldsParts n c sourced
  rw [parts] at given
  exact ⟨p, parts, rfl, given.2⟩

theorem resolvesScope {p : For} (parsed : p.Parsed) {L : Locals} {c : Context} {k next : Nat}
    (plain : ∀ names ∈ c.names.head?, names.has "super" = false)
    (walk : Walked L c (.stmt (p.number k).1.tree)) :
    ∃ r, Resolve.stmt (p.number next).1.scope (c.resolver L) = .ok () r ∧ r.log = [] := by
  have quiet := quietScope (parsed.number k) plain ⟨c, rfl, rfl, rfl, walk⟩
  obtain ⟨r, run, silent, -⟩ := quiet (c.resolver L) rfl rfl rfl
  have same := Resolve.alikeStmt p.scope k next (c.resolver L) (c.resolver L) rfl
  rw [numberScope, numberScope, run] at same
  cases run' : Resolve.stmt (p.number next).1.scope (c.resolver L) with
  | error e r' =>
    rw [run'] at same
    cases same
  | ok a r' =>
    rw [run'] at same
    have faces : r.face = r'.face := (EStateM.Result.ok.inj same).2
    have logs : r.log = r'.log := congrArg (fun face => face.2.2.2.1) faces
    exact ⟨r', rfl, logs.symm.trans silent⟩

/- The copy of the clauses has entries of its own; all code of the program keeps its entries. -/
theorem resolvedScope {p : For} (parsed : p.Parsed) {L : Locals} {c : Context} {next : Nat}
    {r : Resolver} (resolved : Resolve.stmt (p.number next).1.scope (c.resolver L) = .ok () r)
    (quiet : r.log = []) (entries : ∀ node, next ≤ node → L.distance? node = none) :
    Walked r.locals c (.stmt (p.number next).1.scope) ∧
      ∀ node < next, L.distance? node = r.locals.distance? node := by
  have numbers := (numberStmt p.scope next).1
  rw [numberScope] at numbers
  have kept := (Resolve.steadyStmt _ (shapedScope (parsed.number next)) resolved).1
  refine ⟨⟨c.resolver L, r, resolved, quiet, rfl, rfl, rfl, fun node mem => ?_, fun _ _ => rfl,
    numbers.nodup⟩, fun node early => (kept.locals node fun mem => ?_).symm⟩
  · exact entries node (numbers.bounds mem).1
  · exact Nat.not_lt.mpr (numbers.bounds mem).1 early

theorem sameMeaning {S : Start} {p : For} (parsed : p.Parsed) {m : Machine} (ok : S.MachineOk m)
    {c : Context} (fits : Fits S.Opened m.store m.env c.scopes)
    (plain : ∀ names ∈ c.names.head?, names.has "super" = false) {k next : Nat}
    (numbered : ∀ node ∈ Stmt.nodesOf S.body, node < next)
    (entries : ∀ node, next ≤ node → m.locals.distance? node = none)
    (walk : Walked m.locals c (.stmt (p.number k).1.tree)) {r : Resolver}
    (resolved : Resolve.stmt (p.number next).1.scope (c.resolver m.locals) = .ok () r)
    (quiet : r.log = []) :
    Tables.SameMeaning ⟨m.locals, r.locals, m.printed⟩ m.store.frames.size
      (execute · (p.number k).1.tree) (p.number next).1.run m { m with locals := r.locals } := by
  obtain ⟨walk', same⟩ := resolvedScope parsed resolved quiet entries
  let T : Tables := ⟨m.locals, r.locals, m.printed⟩
  have agree : T.Agree (Stmt.nodesOf S.body) := fun node mem => same node (numbered node mem)
  have related : T.Related (World.same m.store.frames.size) m { m with locals := r.locals } := {
    store := mirrorsSelf agree ok.store fits.live
    locals := rfl
    locals' := rfl
    live := rfl
    now := rfl
    console := rfl
    printed := ⟨[], [], (List.append_nil _).symm, (List.append_nil _).symm, .nil⟩ }
  have twin : (p.number k).1.Twin T (p.number next).1 :=
    twinWalks parsed plain ⟨c, rfl, rfl, rfl, walk⟩ ⟨c, rfl, rfl, rfl, walk'⟩
  have abreast := fun n => abreastRun twin (n := n) (World.fitsSame fits.lives) _ le_rfl m _
    related rfl rfl
  obtain ⟨there, back⟩ := Tables.sameMeaning abreast
  exact ⟨fun r ends => there r (endsTree.mp ends), fun r' ends => by
    obtain ⟨r, ends', outcome⟩ := back r' ends
    exact ⟨r, endsTree.mpr ends', outcome⟩⟩

end For

namespace Parse

def opensLoop (c : Cursor) : Bool :=
  match c.here with
  | some (some u) =>
    u.kind == .keyword .for_ && !(c.index + 1 == (c.tokens.size : Int)) &&
      match forStatement (c.budget - 2) c.next with
      | .ok .. => true
      | .error .. => false
  | _ => false

theorem declarationFor {n : Nat} {c c' : Cursor} {u : Token} {t : Stmt}
    (here : c.here = some (some u)) (word : u.kind = .keyword .for_)
    (loop : forStatement n c.next = .ok t c') : declaration (n + 2) c = .ok t c' := by
  have skipped : ∀ k, k ≠ .keyword .for_ → skip k c = .ok false c := by
    intro k other
    rw [skipRun]
    unfold Cursor.look
    rw [here]
    exact if_neg (word ▸ other.symm)
  have taken : skip (.keyword .for_) c = .ok true c.next := by
    rw [skipRun]
    unfold Cursor.look
    rw [here]
    exact if_pos word
  have stated : statement (n + 1) c = .ok t c' := by
    unfold statement
    rw [bindRun, taken]
    exact loop
  unfold declaration recovering announced
  rw [tryCatchRun, bindRun, skipped _ (by decide)]
  dsimp only
  rw [if_neg (by decide), bindRun, skipped _ (by decide)]
  dsimp only
  rw [if_neg (by decide), bindRun, skipped _ (by decide)]
  dsimp only
  rw [if_neg (by decide), stated]

theorem programFor {c c' : Cursor} {body : List Stmt} (opens : opensLoop c = true)
    (run : Parse.run program c = .ok body c') :
    ∃ j c₁ t rest, forStatement (j + 1) c.next = .ok t c₁ ∧ body = t :: rest := by
  unfold opensLoop at opens
  obtain ⟨j, budget⟩ : ∃ j, c.budget = j + 3 := ⟨c.budget - 3, by unfold Cursor.budget; omega⟩
  have run : program c.budget c = .ok body c' := run
  rw [budget] at opens run
  split at opens
  · next u here =>
    rw [Bool.and_eq_true, Bool.and_eq_true] at opens
    obtain ⟨⟨word, inside⟩, opens⟩ := opens
    split at opens
    · next t c₁ loop =>
      refine ⟨j, c₁, t, ?_⟩
      have first := declarationFor here (beq_iff_eq.mp word) loop
      obtain ⟨more, c₂, tested, run⟩ := bindOk.mp run
      have more : more = true := by
        cases tested
        exact inside
      cases tested
      rw [if_pos more] at run
      obtain ⟨s, c₃, one, run⟩ := bindOk.mp run
      obtain ⟨rest, c₄, _, last⟩ := bindOk.mp run
      cases last
      cases first.symm.trans one
      exact ⟨rest, loop, rfl⟩
    · cases opens
  · cases opens

end Parse

namespace Session

def opensLoop (lines : List (List Char)) : Bool :=
  match scanLines 0 lines (fresh {}) with
  | .ok _ s => Parse.opensLoop s.cursor
  | .error .. => false

theorem preparedLoop {lines : List (List Char)} {s : Session}
    (ready : prepare lines (fresh {}) = .ok () s) (opens : opensLoop lines = true) :
    ∃ j c c' t later, Parse.Sourced c ∧ Parse.forStatement (j + 1) c = .ok t c' ∧
      s.tree = .program (Stmt.numberAll (t :: later) 0).1 := by
  obtain ⟨_, s₁, scanned, rest⟩ := bindOk.mp ready
  obtain ⟨_, s₂, parsed, resolved⟩ := bindOk.mp rest
  unfold opensLoop at opens
  rw [scanned] at opens
  obtain ⟨tokens, log, same, lexed⟩ := scanLinesOk scanned
  have sourced : Parse.Sourced s₁.cursor := sourcedCursor (by
    rw [same]
    exact lexed (by simp [fresh]))
  have first : s₁.nextNode = 0 := by rw [same]; rfl
  obtain ⟨stmts, c, run, rfl⟩ := parseOk parsed
  obtain ⟨r, walk, rfl⟩ := resolveOk resolved
  obtain ⟨j, c₁, t, later, loop, rfl⟩ := Parse.programFor opens run
  rw [first]
  exact ⟨j, _, c₁, t, later, Parse.sourcedNext sourced, loop, rfl⟩

/- The first two parts say what the loop is that the tree was made of, and that its meaning can be
told at the place of the tree. -/
theorem loopsRunTheirClauses {setting : Setting} {lines : List (List Char)} {s : Session}
    (ready : prepare lines (fresh setting) = .ok () s) (silent : s.log.resolution = []) (n : Nat) :
    ∃ body, s.tree = .program body ∧
      ∀ j c c' t, Parse.Sourced c → Parse.forStatement (j + 1) c = .ok t c' →
        ∀ i k m, (s.start body n).Reaches i (.stmt (t.number k).1) m →
          ∃ p place r, Parse.forParts j c = .ok p c' ∧ t = p.tree ∧
            Stands body place (.stmt (t.number k).1) ∧
            Resolve.stmt (p.number s.nextNode).1.scope (place.resolver m.locals) = .ok () r ∧
            r.log = [] ∧
            Tables.SameMeaning ⟨m.locals, r.locals, m.printed⟩ m.store.frames.size
              (execute · (t.number k).1) (p.number s.nextNode).1.run m
              { m with locals := r.locals } := by
  obtain ⟨body, program⟩ := atHand ready silent
  refine ⟨body, program.tree, ?_⟩
  intro j c c' t sourced parse i k m reach
  have first : (s.start body n).Sits (.stmts body) (s.start body n).machine :=
    Start.sitsFirst (S := s.start body n) program.env program.store
  have chart := chartedOf program.shaped program.walked
  obtain ⟨ok, place, stands, fits⟩ := Start.sits (S := s.start body n) chart first reach
  obtain ⟨p, parts, rfl, parsed⟩ := For.partsOf sourced parse
  have plain := stands.plainHead program.shaped
  have walk := stands.walked program.shaped program.walked
  have entries := program.entries
  rw [← show m.locals = s.resolver.locals from ok.locals] at walk entries
  rw [For.numberTree] at walk
  obtain ⟨r, resolved, quiet⟩ : ∃ r, Resolve.stmt (p.number s.nextNode).1.scope
      (place.resolver m.locals) = .ok () r ∧ r.log = [] := For.resolvesScope parsed plain walk
  refine ⟨p, place, r, parts, rfl, stands, resolved, quiet, ?_⟩
  rw [For.numberTree]
  exact For.sameMeaning parsed ok fits plain program.numbered entries walk resolved quiet

def doublingProgram : List (List Char) :=
  ["for (var x = \"a\"; x != \"aaa\"; x = x + \"a\") print x;".toList]

theorem doublingProgramPrints : prints? doublingProgram = some ["a", "aa"] := by
  decide +kernel

theorem doublingProgramOpens : opensLoop doublingProgram = true := by
  decide +kernel

theorem loopsRunTheirClauses_doubling :
    ∃ s, prepare doublingProgram (fresh {}) = .ok () s ∧ s.log.resolution = [] ∧
      ∃ body, s.tree = .program body ∧
        ∃ j c c' t m, Parse.Sourced c ∧ Parse.forStatement (j + 1) c = .ok t c' ∧
          (s.start body 100).Reaches 99 (.stmt (t.number 0).1) m ∧
          ∃ (p : For) (place : Context) (r : Resolver),
            Parse.forParts j c = .ok p c' ∧ t = p.tree ∧
            Resolve.stmt (p.number s.nextNode).1.scope (place.resolver m.locals) = .ok () r ∧
            Tables.SameMeaning ⟨m.locals, r.locals, m.printed⟩ m.store.frames.size
              (execute · (t.number 0).1) (p.number s.nextNode).1.run m
              { m with locals := r.locals } := by
  obtain ⟨s, ready, silent⟩ := preparedOfPrints doublingProgramPrints
  obtain ⟨body, tree, loops⟩ := loopsRunTheirClauses ready silent 100
  obtain ⟨j, c, c', t, later, sourced, loop, begins⟩ := preparedLoop ready doublingProgramOpens
  cases tree.symm.trans begins
  have reach : (s.start (Stmt.numberAll (t :: later) 0).1 100).Reaches 99
      (.stmt (t.number 0).1) (s.start (Stmt.numberAll (t :: later) 0).1 100).machine :=
    .step .start .firstStmt
  obtain ⟨p, place, r, parts, same, -, resolved, -, meaning⟩ :=
    loops j c c' t sourced loop 99 0 _ reach
  exact ⟨s, ready, silent, _, tree, j, c, c', t, _, sourced, loop, reach, p, place, r, parts, same,
    resolved, meaning⟩

end Session
end Lox
