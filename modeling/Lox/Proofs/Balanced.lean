import Lox.Proofs.Scopes.Visits

/-!
The resolver's books are balanced. Whatever the tree, a walk that ends leaves as many scopes as it
found and touches none but the innermost, which gains names that may be read; the function and the
class are those from before. Every entry counts the scopes to go out from a use to its name.
-/

namespace Lox

def Scope.Gains (s s' : Scope) : Prop :=
  ∀ name, s'.get? name = s.get? name ∨ s'.get? name = some true

theorem Scope.Gains.trans {a b c : Scope} (first : a.Gains b) (rest : b.Gains c) : a.Gains c := by
  intro name
  rcases rest name with same | ready
  · rw [same]
    exact first name
  · exact .inr ready

theorem Scope.gainsPut (s : Scope) (name : String) : s.Gains (s.put name true) := by
  intro other
  by_cases same : other = name
  · subst same
    exact .inr (Bindings.get?_put_self ..)
  · exact .inl (Bindings.get?_put_of_ne _ _ same)

structure Grown (scopes scopes' : List Scope) : Prop where
  height : scopes'.length = scopes.length
  outer : scopes'.tail = scopes.tail
  innermost : ∀ s ∈ scopes.head?, ∀ s' ∈ scopes'.head?, s.Gains s'

namespace Grown

theorem refl (scopes : List Scope) : Grown scopes scopes := by
  refine ⟨rfl, rfl, ?_⟩
  intro s mem s' mem' name
  rw [Option.mem_def.mp mem] at mem'
  cases mem'
  exact .inl rfl

theorem trans {a b c : List Scope} (first : Grown a b) (rest : Grown b c) : Grown a c := by
  refine ⟨rest.height.trans first.height, rest.outer.trans first.outer, ?_⟩
  intro s mem s'' mem''
  cases b with
  | nil =>
    have none := List.eq_nil_of_length_eq_zero rest.height
    subst none
    cases mem''
  | cons s' outer => exact (first.innermost s mem s' rfl).trans (rest.innermost s' rfl s'' mem'')

theorem putName (scopes : List Scope) (t : Option Token) : Grown scopes (putName scopes t true) := by
  cases scopes with
  | nil =>
    cases t <;> exact .refl []
  | cons s outer =>
    cases t with
    | none => exact .refl _
    | some u =>
      refine ⟨rfl, rfl, ?_⟩
      rintro _ ⟨⟩ _ ⟨⟩
      exact s.gainsPut u.lexeme

theorem leaves (s : Stmt) (scopes : List Scope) : Grown scopes (s.leaves scopes) := by
  cases s with
  | var name _ => exact putName scopes name
  | function f => exact putName scopes f.name
  | class_ name _ _ => exact putName scopes name
  | if_ _ yes no => exact (leaves yes scopes).trans (leaves no _)
  | while_ _ body => exact leaves body scopes
  | _ => exact .refl scopes

theorem leavesAll (ss : List Stmt) (scopes : List Scope) :
    Grown scopes (ss.foldl Stmt.leaves scopes) := by
  induction ss generalizing scopes with
  | nil => exact .refl scopes
  | cons s ss ih => exact (leaves s scopes).trans (ih _)

end Grown

structure AtDepth (scopes : List Scope) (name : String) (d : Nat) : Prop where
  inside : d < scopes.length
  found : ∃ s, scopes[d]? = some s ∧ s.has name = true
  least : ∀ j < d, ∀ s, scopes[j]? = some s → s.has name = false

theorem atDepthOfFound {scopes : List Scope} {name : String} {d : Nat}
    (h : Resolve.depth? scopes name = some d) : AtDepth scopes name d := by
  rw [Resolve.depthEq] at h
  obtain ⟨inside, found, least⟩ := List.findIdx?_eq_some_iff_getElem.mp h
  refine ⟨inside, ⟨_, List.getElem?_eq_getElem inside, found⟩, ?_⟩
  intro j below s there
  rw [List.getElem?_eq_getElem (Nat.lt_trans below inside)] at there
  cases there
  simpa using least j below

theorem memRecord {ls : Locals} {k l : Local} (mem : l ∈ ls.record k) : l ∈ ls ∨ l = k := by
  induction ls with
  | nil => exact .inr (List.mem_singleton.mp mem)
  | cons m ms ih =>
    unfold Locals.record at mem
    split at mem
    · rcases List.mem_cons.mp mem with same | old
      · exact .inr same
      · exact .inl (List.mem_cons_of_mem _ old)
    · rcases List.mem_cons.mp mem with same | rest
      · exact .inl (same ▸ List.mem_cons_self)
      · exact (ih rest).imp_left (List.mem_cons_of_mem _)

theorem memEntered {vs : List Visit} {ls : Locals} {l : Local}
    (mem : l ∈ vs.foldl Visit.enter ls) : l ∈ ls ∨ ∃ v ∈ vs, v.entry? = some l := by
  induction vs generalizing ls with
  | nil => exact .inl mem
  | cons v vs ih =>
    rcases ih mem with before | ⟨w, later, made⟩
    · unfold Visit.enter at before
      split at before
      · next k made =>
        rcases memRecord before with old | same
        · exact .inl old
        · exact .inr ⟨v, List.mem_cons_self, same ▸ made⟩
      · exact .inl before
    · exact .inr ⟨w, List.mem_cons_of_mem _ later, made⟩

structure Visit.Makes (v : Visit) (l : Local) : Prop where
  node : v.node = l.node
  use : v.use = l.use
  name : v.name.map Token.lexeme = some l.name
  distance : AtDepth v.scopes l.name l.distance

theorem Visit.makesEntry {v : Visit} {l : Local} (h : v.entry? = some l) : v.Makes l := by
  obtain ⟨t, named, found⟩ := Option.bind_eq_some_iff.mp h
  obtain ⟨d, depth, rfl⟩ := Option.map_eq_some_iff.mp found
  exact ⟨rfl, rfl, by rw [named]; rfl, atDepthOfFound depth⟩

def Tree.visits (inClass : Bool) (scopes : List Scope) : Tree → List Visit
  | .program body => Stmt.visitsOf inClass scopes body
  | .expression e => e.visits inClass scopes

def Tree.moments (r : Resolver) : Tree → List Visit
  | .program body => Stmt.momentsOf r body
  | .expression e => e.moments r

/-- A walk that ends leaves the scopes in their number and the outer ones untouched, lets the
innermost gain names only, and has the function and the class from before. The entries are those of
the uses it came to, each at the least distance in the scopes open at that moment, and these are the
scopes that the text has there. -/
theorem resolutionIsBalanced (t : Tree) {r r' : Resolver} (h : Resolve.tree t r = .ok () r') :
    Grown r.scopes r'.scopes ∧ r'.function = r.function ∧ r'.klass = r.klass ∧
      r'.locals = (t.moments r).foldl Visit.enter r.locals ∧
      t.moments r = t.visits r.klass.isSome r.scopes ∧
      ∀ l ∈ r'.locals, l ∈ r.locals ∨ ∃ v ∈ t.moments r, v.Makes l := by
  have place : Resolve.Stood r.klass.isSome r.scopes r := ⟨rfl, rfl⟩
  have walked : t.moments r = t.visits r.klass.isSome r.scopes ∧ ∃ scopes, Grown r.scopes scopes ∧
      Resolve.Walks (t.visits r.klass.isSome r.scopes) scopes r r' := by
    cases t with
    | program body =>
      exact ⟨Resolve.momentsStmts body place h, _, .leavesAll body _, Resolve.walksStmts body place h⟩
    | expression e => exact ⟨Resolve.momentsExpr e place h, _, .refl _, Resolve.walksExpr e place h⟩
  obtain ⟨same, scopes, grown, walks⟩ := walked
  rw [same]
  refine ⟨walks.scopes ▸ grown, walks.function, walks.klass, walks.locals, rfl, ?_⟩
  intro l mem
  rw [walks.locals] at mem
  exact (memEntered mem).imp_right fun ⟨v, visited, made⟩ => ⟨v, visited, Visit.makesEntry made⟩

theorem balancedSubclass :
    let word (text : String) : Option Token := some (.word text.toList)
    let body : List Stmt := [.var (word "x") (.this 1 (word "this")),
      .block [.expression (.reference 2 (word "x")), .expression (.assign 3 (word "a") (.literal .nil)),
        .expression (.super 4 (word "super") (word "m"))]]
    let tree : Tree := .program [.class_ (word "B") [.mk (word "m") [] body] (.reference 0 (word "a"))]
    let r : Resolver := { scopes := [[("a", true)], [("g", false)]], function := some .method }
    ∃ r', Resolve.tree tree r = .ok () r' ∧ Grown r.scopes r'.scopes ∧ r'.function = some .method ∧
      r'.scopes = [[("a", true), ("B", true)], [("g", false)]] ∧
      r'.locals.map (·.distance) = [0, 1, 1, 4, 3] ∧
      ∀ l ∈ r'.locals, ∃ v ∈ tree.moments r, v.Makes l := by
  intro word body tree r
  refine ⟨_, rfl, ?_⟩
  have balanced := resolutionIsBalanced tree (r := r) rfl
  refine ⟨balanced.1, balanced.2.1, by decide +kernel, by decide +kernel, ?_⟩
  intro l mem
  exact (balanced.2.2.2.2.2 l mem).resolve_left List.not_mem_nil

end Lox
