import Lox.Proofs.Parsing.Chains
import Lox.Proofs.Parsing.Tight

/-!
Chains as they are meant: equalities bind tighter than `and`, `and` tighter than `or`, and each of
them groups to the left. An expression reads a chain so only if it is regular.
-/

namespace Lox

inductive Grouped : (level : Nat) → Expr → List Link → Expr → Prop where
  | operand {e : Expr} (comparison : 5 ≤ e.rank) : Grouped 5 e [] e
  | single {r : Nat} {e tree : Expr} {links : List Link} (h : Grouped (r + 1) e links tree) :
      Grouped r e links tree
  | more {r : Nat} {e left right : Expr} {l : Link} {links later : List Link}
      (before : Grouped r e links left) (level : l.pull = r)
      (after : Grouped (r + 1) l.operand later right) :
      Grouped r e (links ++ l :: later) (Parse.join r left (some l.op) right)

def Regular (links : List Link) : Prop :=
  ∃ equal ands ors, links = equal ++ (ands ++ ors) ∧ equal.length ≤ 1 ∧ (∀ l ∈ equal, l.pull = 4) ∧
    (∀ l ∈ ands, l.pull = 3 ∧ 6 ≤ l.operand.rank) ∧ ∀ l ∈ ors, l.pull = 2 ∧ 6 ≤ l.operand.rank

namespace Grouped

variable {r : Nat} {e t u tree : Expr} {op : Token} {links : List Link}

theorem atom (comparison : 5 ≤ e.rank) : Grouped 3 e [] e ∧ Grouped 4 e [] e :=
  ⟨.single (.single (.operand comparison)), .single (.operand comparison)⟩

theorem level (h : Grouped r e links tree) : r ≤ 5 := by
  induction h with
  | operand _ => exact Nat.le_refl 5
  | single _ ih => exact Nat.le_of_succ_le ih
  | more _ _ _ _ ih => exact Nat.le_of_succ_le ih

theorem alone (h : Grouped r e links tree) (high : 5 ≤ tree.rank) : links = [] ∧ tree = e := by
  induction h with
  | operand _ => exact ⟨rfl, rfl⟩
  | single _ ih => exact ih high
  | more before level after _ _ =>
    have four := after.level
    rw [Parse.joinRank] at high
    unfold Link.pull at level
    omega

theorem operandRank (h : Grouped 5 e links tree) : 5 ≤ tree.rank := by
  cases h with
  | operand comparison => exact comparison
  | single h => exact absurd h.level (by decide)
  | more _ _ after => exact absurd after.level (by decide)

theorem tight (h : Grouped r e links tree) (tight : tree.Tight) :
    e.Tight ∧ ∀ l ∈ links, l.operand.Tight := by
  induction h with
  | operand _ => exact ⟨tight, by simp⟩
  | single _ ih => exact ih tight
  | more _ _ _ before after =>
    obtain ⟨first, last, -⟩ := Parse.joinParts tight
    obtain ⟨here, earlier⟩ := before first
    exact ⟨here, List.forall_mem_append.mpr ⟨earlier, List.forall_mem_cons.mpr (after last)⟩⟩

/- The induction is on the tree; at each level the links of the levels below are none. -/
theorem regular (h : Grouped r e links tree) (tight : tree.Tight) (lo : 2 ≤ r) :
    ∃ equal ands ors, links = equal ++ (ands ++ ors) ∧ equal.length ≤ 1 ∧
      (∀ l ∈ equal, l.pull = 4) ∧ (∀ l ∈ ands, l.pull = 3 ∧ 6 ≤ l.operand.rank) ∧
      (∀ l ∈ ors, l.pull = 2 ∧ 6 ≤ l.operand.rank) ∧ (3 ≤ r → ors = []) ∧ (4 ≤ r → ands = []) := by
  induction h with
  | operand _ => exact ⟨[], [], [], by simp⟩
  | single _ ih =>
    obtain ⟨equal, ands, ors, same, few, fours, conj, disj, noOrs, noAnds⟩ := ih tight (by omega)
    exact ⟨equal, ands, ors, same, few, fours, conj, disj, fun le => noOrs (by omega),
      fun le => noAnds (by omega)⟩
  | @more r e left right l links later before level after ih _ =>
    obtain ⟨first, -, bound⟩ := Parse.joinParts tight
    obtain ⟨high, high'⟩ := bound l.op rfl
    change l.op.kind.pull = r at level
    rw [level] at high high'
    have top := after.level
    obtain rfl | below : r = 4 ∨ r ≤ 3 := by omega
    · obtain ⟨rfl, -⟩ := before.alone high
      obtain ⟨rfl, -⟩ := after.alone after.operandRank
      exact ⟨[l], [], [], rfl, Nat.le_refl 1, List.forall_mem_singleton.mpr level, by simp,
        by simp, by simp⟩
    · have term : 6 ≤ right.rank := by
        rw [rightRank, if_neg (by omega)] at high'
        omega
      obtain ⟨rfl, rfl⟩ := after.alone (by omega)
      obtain ⟨equal, ands, ors, rfl, few, fours, conj, disj, noOrs, -⟩ := ih first lo
      obtain rfl | rfl : r = 2 ∨ r = 3 := by omega
      · refine ⟨equal, ands, ors ++ [l], by simp, few, fours, conj, ?_, by simp, by simp⟩
        exact List.forall_mem_append.mpr ⟨disj, List.forall_mem_singleton.mpr ⟨level, term⟩⟩
      · rw [noOrs (by decide)]
        refine ⟨equal, ands ++ [l], [], by simp, few, fours, ?_, by simp, by simp, by simp⟩
        exact List.forall_mem_append.mpr ⟨conj, List.forall_mem_singleton.mpr ⟨level, term⟩⟩

theorem logicals {ls : List Link} (lo : 2 ≤ r) (hi : r ≤ 3) (h : Grouped r e links t)
    (all : ∀ l ∈ ls, l.pull = r ∧ 6 ≤ l.operand.rank) :
    Grouped r e (links ++ ls) (ls.foldl Expr.logicalWith t) := by
  induction ls generalizing links t with
  | nil => simpa using h
  | cons l ls ih =>
    obtain ⟨level, term⟩ := all l (List.mem_cons_self ..)
    have atoms := atom (e := l.operand) (by omega)
    have operand : Grouped (r + 1) l.operand [] l.operand := by
      obtain rfl | rfl : r = 2 ∨ r = 3 := by omega
      · exact atoms.1
      · exact atoms.2
    have one := h.more level operand
    rw [Parse.join, if_pos hi] at one
    have rest := ih one fun x mem => all x (List.mem_cons_of_mem _ mem)
    simpa [Expr.logicalWith] using rest

end Grouped

theorem cutOrs {r : Nat} {ors : List Link} (lo : 2 ≤ r)
    (disj : ∀ l ∈ ors, l.pull = 2 ∧ 6 ≤ l.operand.rank) : cut r ors = (ors, []) := by
  induction ors generalizing r with
  | nil => rfl
  | cons l ls ih =>
    obtain ⟨two, term⟩ := disj l (List.mem_cons_self ..)
    have rest := ih (r := l.pull) (by omega) fun x mem => disj x (List.mem_cons_of_mem _ mem)
    rw [cut, if_neg (by omega), if_pos term, rest]

theorem cutAnds {ands ors : List Link} (conj : ∀ l ∈ ands, l.pull = 3 ∧ 6 ≤ l.operand.rank)
    (disj : ∀ l ∈ ors, l.pull = 2 ∧ 6 ≤ l.operand.rank) :
    cut 3 (ands ++ ors) = (ands ++ ors, []) := by
  induction ands with
  | nil => exact cutOrs (by decide) disj
  | cons l ls ih =>
    obtain ⟨three, term⟩ := conj l (List.mem_cons_self ..)
    have rest := ih fun x mem => conj x (List.mem_cons_of_mem _ mem)
    rw [List.cons_append, cut, if_neg (by omega), if_pos term, three, rest]

theorem groupedOfRegular {first : Expr} {links : List Link} (comparison : 5 ≤ first.rank)
    (all : ∀ l ∈ links, l.Joined) (h : Regular links) :
    chainLeft links = [] ∧ Grouped 2 first links (chainTree first links) := by
  obtain ⟨equal, ands, ors, rfl, few, fours, conj, disj⟩ := h
  have other : ∀ l ∈ (ands ++ ors).head?, l.pull ≠ 4 := by
    intro l mem
    cases List.mem_append.mp (List.mem_of_mem_head? mem) with
    | inl mem =>
      rw [(conj l mem).1]
      decide
    | inr mem =>
      rw [(disj l mem).1]
      decide
  have cutting := cutAnds conj disj
  rw [chainLeftParts fours other, chainTreeParts fours other, cutting]
  refine ⟨rfl, ?_⟩
  have inner : Grouped 4 first equal (first.equalities equal) := by
    match equal with
    | [] => exact (Grouped.atom comparison).2
    | [l] =>
      have operand := Grouped.operand (all l (by simp)).comparison
      exact (Grouped.atom comparison).2.more (fours l (by simp)) operand
    | _ :: _ :: _ => simp at few
  have conjoined := (Grouped.single inner).logicals (by decide) (by decide) conj
  have disjoined := (Grouped.single conjoined).logicals (by decide) (by decide) disj
  simpa using disjoined

namespace Parse

theorem tightOfRun {tree : Expr} {c c' : Cursor} (h : run expression c = .ok tree.asRead c') :
    tree.Tight := by
  rw [runAt] at h
  exact tree.tightAsRead.mp (expressionTight c.budget c _ c' h)

def sampleName (s : String) : Expr := .reference 0 (some (.identifier s))

def sampleLinks : List Link :=
  [⟨.sign .equalEqual, .literal (.text "b"), fun _ _ => "\"b\""⟩,
   ⟨.keyword .and_, .binary (sampleName "c") (some (.sign .less)) (sampleName "d"), .plain⟩,
   ⟨.keyword .or_, sampleName "e", .plain⟩]

def sampleCursor (first : Expr) (links : List Link) : Cursor :=
  ⟨((first.spell ++ spellLinks links ++ [Token.mark .semicolon, .eof]).map some).toArray, 0, 25, [],
    #[], true, false⟩

theorem sampleAhead (first : Expr) (links : List Link) : (sampleCursor first links).At
    (first.spell ++ spellLinks links ++ [Token.mark .semicolon, .eof]) :=
  ⟨0, rfl, by rw [sampleCursor, List.toList_toArray, List.drop_zero]⟩

def mixedLinks : List Link :=
  [⟨.keyword .or_, sampleName "b", .plain⟩, ⟨.keyword .and_, sampleName "c", .plain⟩]

def enclosedLinks : List Link :=
  [⟨.sign .equalEqual, .grouping (.logical (sampleName "b") (some (.keyword .or_))
    (.logical (sampleName "c") (some (.keyword .and_)) (sampleName "d"))), .plain⟩]

end Parse
end Lox
