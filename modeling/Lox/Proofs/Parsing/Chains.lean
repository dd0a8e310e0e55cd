import Lox.Proofs.Written

/-!
Chains of comparisons joined by `==`, `!=`, `and` and `or`: how far an expression reads into a chain,
and what tree it makes of it.
-/

namespace Lox

structure Link where
  op : Token
  operand : Expr
  writing : Writing

namespace Link

def pull (l : Link) : Nat := l.op.kind.pull

def isEquality (l : Link) : Bool := l.pull == 4

structure Joined (l : Link) : Prop where
  low : 2 ≤ l.pull
  high : l.pull ≤ 4
  comparison : 5 ≤ l.operand.rank

structure Ok (l : Link) : Prop extends l.Joined where
  grammatical : l.operand.grammatical = true

instance (l : Link) : Decidable l.Joined :=
  decidable_of_iff (2 ≤ l.pull ∧ l.pull ≤ 4 ∧ 5 ≤ l.operand.rank)
    ⟨fun ⟨low, high, comparison⟩ => ⟨low, high, comparison⟩,
      fun h => ⟨h.low, h.high, h.comparison⟩⟩

def spell (l : Link) : List Token := l.op :: l.operand.spell l.writing

end Link

def spellLinks (links : List Link) : List Token := links.flatMap Link.spell

theorem spellLinksAppend (ls ms : List Link) :
    spellLinks (ls ++ ms) = spellLinks ls ++ spellLinks ms := List.flatMap_append

theorem spellLinksCons (l : Link) (ls : List Link) :
    spellLinks (l :: ls) = l.op :: (l.operand.spell l.writing ++ spellLinks ls) := rfl

theorem lengthLinks (links : List Link) : links.length ≤ (spellLinks links).length := by
  induction links with
  | nil => exact Nat.le_refl _
  | cons l ls ih =>
    simp only [spellLinksCons, List.length_cons, List.length_append]
    omega

def Writing.join (w v : Writing) : Writing
  | 0 :: way, d => w way d
  | _ :: way, d => v way d
  | [], d => d.render

namespace Expr

def firstTerm : Expr → Expr
  | .binary left op right =>
    if 6 ≤ (Expr.binary left op right).rank then .binary left op right else left.firstTerm
  | e => e

def firstWriting : Expr → Writing → Writing
  | .binary left op right, w =>
    if 6 ≤ (Expr.binary left op right).rank then w else left.firstWriting (w.part 0)
  | _, w => w

def afterTerm : Expr → Writing → List Token
  | .binary left op right, w =>
    if 6 ≤ (Expr.binary left op right).rank then []
    else left.afterTerm (w.part 0) ++ (op.toList ++ right.spell (w.part 1))
  | _, _ => []

def logicalWith (left : Expr) (l : Link) : Expr := .logical left (some l.op) l.operand

def equalities : Expr → List Link → Expr
  | e, [] => e
  | e, l :: ls => .binary e (some l.op) (equalities l.operand ls)

end Expr

namespace Writing

def equalities : Writing → List Link → Writing
  | w, [] => w
  | w, l :: ls => w.join (equalities l.writing ls)

def logicalWith (w : Writing) (l : Link) : Writing := w.join l.writing

end Writing

/- The links that `and` and `or` take, and the tokens they leave. After `or` there is no `and`,
after neither an equality, and of a comparison only the first term is taken. -/
def cut : (level : Nat) → List Link → List Link × List Token
  | _, [] => ([], [])
  | level, l :: ls =>
    if level < l.pull then ([], spellLinks (l :: ls))
    else if 6 ≤ l.operand.rank then (l :: (cut l.pull ls).1, (cut l.pull ls).2)
    else ([⟨l.op, l.operand.firstTerm, l.operand.firstWriting l.writing⟩],
      l.operand.afterTerm l.writing ++ spellLinks ls)

def chainTree (first : Expr) (links : List Link) : Expr :=
  (cut 3 (links.dropWhile Link.isEquality)).1.foldl Expr.logicalWith
    (first.equalities (links.takeWhile Link.isEquality))

def chainWriting (w : Writing) (links : List Link) : Writing :=
  (cut 3 (links.dropWhile Link.isEquality)).1.foldl Writing.logicalWith
    (w.equalities (links.takeWhile Link.isEquality))

def chainLeft (links : List Link) : List Token :=
  (cut 3 (links.dropWhile Link.isEquality)).2

namespace Expr

theorem firstTermSpell (e : Expr) (w : Writing) :
    e.firstTerm.spell (e.firstWriting w) ++ e.afterTerm w = e.spell w := by
  fun_induction firstWriting e w with
  | case1 left op right w high => simp [firstTerm, afterTerm, high]
  | case2 left op right w high ih => simp [firstTerm, afterTerm, high, spell, ← ih]
  | case3 e w other =>
    cases e with
    | binary left op right => exact (other _ _ _ rfl).elim
    | _ => exact List.append_nil _

theorem afterTermNil {e : Expr} (h : 6 ≤ e.rank) (w : Writing) : e.afterTerm w = [] := by
  cases e with
  | binary left op right => exact if_pos h
  | _ => rfl

theorem ofComparison {left right : Expr} {op : Option Token}
    (ok : (binary left op right).grammatical = true) (comparison : 5 ≤ (binary left op right).rank)
    (low : ¬6 ≤ (binary left op right).rank) :
    left.grammatical = true ∧ 5 ≤ left.rank ∧ ∃ t, op = some t ∧ t.kind.pull = 5 := by
  simp only [grammatical, Bool.and_eq_true] at ok
  obtain ⟨t, rfl, _, leftHigh, _⟩ := joinsSome ok.1.1
  change 5 ≤ t.kind.pull at comparison
  change ¬6 ≤ t.kind.pull at low
  have five : t.kind.pull = 5 := by omega
  rw [five] at leftHigh
  exact ⟨ok.1.2, leftHigh, t, rfl, five⟩

theorem firstTermOk {e : Expr} (ok : e.grammatical = true) (comparison : 5 ≤ e.rank) :
    e.firstTerm.grammatical = true ∧ 6 ≤ e.firstTerm.rank := by
  fun_induction firstTerm e with
  | case1 left op right high => exact ⟨ok, high⟩
  | case2 left op right high ih =>
    obtain ⟨ok', comparison', _⟩ := ofComparison ok comparison high
    exact ih ok' comparison'
  | case3 e other =>
    cases e with
    | binary left op right => exact (other _ _ _ rfl).elim
    | logical left op right =>
      simp only [grammatical, Bool.and_eq_true] at ok
      obtain ⟨t, rfl, ⟨_, hi⟩, _⟩ := joinsSome ok.1.1
      change 5 ≤ t.kind.pull at comparison
      omega
    | assign | set => exact absurd comparison (by simp [rank])
    | _ => exact ⟨ok, by simp [rank]⟩

theorem afterTermStarts {e : Expr} (ok : e.grammatical = true) (comparison : 5 ≤ e.rank)
    (low : ¬6 ≤ e.rank) (w : Writing) : ∃ k, Starts (e.afterTerm w) k ∧ k.pull = 5 := by
  fun_induction afterTerm e w with
  | case1 left op right w high => exact absurd high low
  | case2 left op right w high ih =>
    obtain ⟨ok', comparison', t, rfl, five⟩ := ofComparison ok comparison high
    by_cases term : 6 ≤ left.rank
    · rw [afterTermNil term]
      exact ⟨t.kind, startsCons _ _, five⟩
    · obtain ⟨k, starts, five'⟩ := ih ok' comparison' term
      exact ⟨k, starts.append _, five'⟩
  | case3 e w other =>
    have high := (firstTermOk ok comparison).2
    cases e with
    | binary left op right => exact (other _ _ _ rfl).elim
    | _ => exact absurd high low

theorem spellEqualities (e : Expr) (w : Writing) (links : List Link) :
    (e.equalities links).spell (w.equalities links) = e.spell w ++ spellLinks links := by
  induction links generalizing e w with
  | nil => exact (List.append_nil _).symm
  | cons l ls ih =>
    have rest : (l.operand.equalities ls).spell (l.writing.equalities ls) = _ := ih ..
    show e.spell w ++ l.op :: (l.operand.equalities ls).spell (l.writing.equalities ls) = _
    rw [rest, spellLinksCons]

theorem spellLogical (e : Expr) (w : Writing) (links : List Link) :
    (links.foldl logicalWith e).spell (links.foldl Writing.logicalWith w) =
      e.spell w ++ spellLinks links := by
  induction links generalizing e w with
  | nil => exact (List.append_nil _).symm
  | cons l ls ih =>
    have first : (logicalWith e l).spell (w.logicalWith l) = e.spell w ++ l.spell := rfl
    rw [List.foldl_cons, List.foldl_cons, ih, first, List.append_assoc]
    rfl

theorem equalitiesOk {e : Expr} {links : List Link} (ok : e.grammatical = true) (high : 5 ≤ e.rank)
    (all : ∀ l ∈ links, l.Ok) (equal : ∀ l ∈ links, l.pull = 4) :
    (e.equalities links).grammatical = true ∧ 4 ≤ (e.equalities links).rank := by
  induction links generalizing e with
  | nil => exact ⟨ok, Nat.le_of_succ_le high⟩
  | cons l ls ih =>
    have here := all l (List.mem_cons_self ..)
    have four : l.op.kind.pull = 4 := equal l (List.mem_cons_self ..)
    obtain ⟨ok', high'⟩ := ih here.grammatical here.comparison
      (fun x mem => all x (List.mem_cons_of_mem _ mem))
      (fun x mem => equal x (List.mem_cons_of_mem _ mem))
    constructor
    · simp [equalities, grammatical, joins, four, leftRank, rightRank, ok, ok', high, high']
    · simp [equalities, rank, four]

end Expr

theorem spellCut (r : Nat) (links : List Link) :
    spellLinks (cut r links).1 ++ (cut r links).2 = spellLinks links := by
  fun_induction cut r links with
  | case1 => rfl
  | case2 => rfl
  | case3 level l ls high term ih => simp_all [spellLinks]
  | case4 level l ls high term =>
    have spelled := l.operand.firstTermSpell l.writing
    simp [spellLinks, Link.spell, ← spelled]

theorem chainSpelled (first : Expr) (w : Writing) (links : List Link) :
    first.spell w ++ spellLinks links =
      (chainTree first links).spell (chainWriting w links) ++ chainLeft links := by
  have parts := List.takeWhile_append_dropWhile (p := Link.isEquality) (l := links)
  rw [chainTree, chainWriting, chainLeft, Expr.spellLogical, Expr.spellEqualities, List.append_assoc,
    List.append_assoc, spellCut, ← spellLinksAppend, parts]

theorem parted (links : List Link) : ∃ equal ls, links = equal ++ ls ∧ (∀ l ∈ equal, l.pull = 4) ∧
    ∀ l ∈ ls.head?, l.pull ≠ 4 := by
  induction links with
  | nil => exact ⟨[], [], rfl, by simp, by simp⟩
  | cons l links ih =>
    by_cases four : l.pull = 4
    · obtain ⟨equal, ls, rfl, fours, other⟩ := ih
      refine ⟨l :: equal, ls, rfl, ?_, other⟩
      intro x mem
      cases mem with
      | head => exact four
      | tail _ mem => exact fours x mem
    · exact ⟨[], l :: links, rfl, by simp, by simpa using four⟩

section
variable {equal ls : List Link} (fours : ∀ l ∈ equal, l.pull = 4)
  (other : ∀ l ∈ ls.head?, l.pull ≠ 4)
include fours other

theorem takeEqualities : (equal ++ ls).takeWhile Link.isEquality = equal := by
  rw [List.takeWhile_append_of_pos fun l mem => by simp [Link.isEquality, fours l mem]]
  cases ls with
  | nil => simp
  | cons l ls =>
    have apart : l.isEquality = false := by simpa [Link.isEquality] using other
    simp [apart]

theorem dropEqualities : (equal ++ ls).dropWhile Link.isEquality = ls := by
  rw [List.dropWhile_append_of_pos fun l mem => by simp [Link.isEquality, fours l mem]]
  cases ls with
  | nil => rfl
  | cons l ls =>
    have apart : l.isEquality = false := by simpa [Link.isEquality] using other
    simp [apart]

theorem chainTreeParts (first : Expr) : chainTree first (equal ++ ls) =
    (cut 3 ls).1.foldl Expr.logicalWith (first.equalities equal) := by
  rw [chainTree, takeEqualities fours other, dropEqualities fours other]

theorem chainWritingParts (w : Writing) : chainWriting w (equal ++ ls) =
    (cut 3 ls).1.foldl Writing.logicalWith (w.equalities equal) := by
  rw [chainWriting, takeEqualities fours other, dropEqualities fours other]

theorem chainLeftParts : chainLeft (equal ++ ls) = (cut 3 ls).2 := by
  rw [chainLeft, dropEqualities fours other]

end

namespace Parse

def logicTail (n : Nat) : (level m m' : Nat) → Expr → Parse Expr
  | 3, m, m', left => do
    let left ← chain (operators 3) (rule 6 n) (join 3) m left
    chain (operators 2) (rule 6 (n + 1)) (join 2) m' left
  | _, _, m', left => chain (operators 2) (rule 6 (n + 1)) (join 2) m' left

variable {n m m' : Nat} {r : Nat} {e : Expr} {k : Kind} {rest : List Token}

theorem readsTailNone (level : r = 2 ∨ r = 3) (starts : Starts rest k)
    (stop : k.pull = 0 ∨ r < k.pull) :
    Reads (logicTail n r (m + 1) (m' + 1) e) [] (pure e) rest := by
  have noOr : (operators 2).contains k = false := by
    rw [containsOperators (by decide) (by decide), beq_eq_false_iff_ne]
    omega
  cases level with
  | inl or_ =>
    subst or_
    exact readsChainNone starts noOr m' e
  | inr and_ =>
    subst and_
    have noAnd : (operators 3).contains k = false := by
      rw [containsOperators (by decide) (by decide), beq_eq_false_iff_ne]
      omega
    exact (readsChainNone starts noAnd m e).look (readsChainNone starts noOr m' e)

theorem readsTailSome (m m' : Nat) (e : Expr) {op : Token} {us : List Token} {right : Expr}
    (level : r = 2 ∨ r = 3) (low : 2 ≤ op.kind.pull) (high : op.kind.pull ≤ r)
    (more : us ++ rest ≠ []) (one : ∀ j, n ≤ j → Reads (rule 6 j) us (pure right) rest) :
    ∃ i i', m ≤ i ∧ m' ≤ i' ∧ Reads (logicTail n r (m + 1) (m' + 1) e) (op :: us)
      (logicTail n op.kind.pull i i' (.logical e (some op) right)) rest := by
  by_cases two : op.kind.pull = 2
  · have isOr : (operators 2).contains op.kind = true := by
      rw [containsOperators (by decide) (by decide), two]
      rfl
    have disjoined : Reads (logicTail n 2 m (m' + 1) e) (op :: us)
        (logicTail n 2 m m' (.logical e (some op) right)) rest :=
      readsChainSome m' e isOr more (one (n + 1) (Nat.le_succ n))
    refine ⟨m, m', Nat.le_refl _, Nat.le_refl _, ?_⟩
    rw [two]
    cases level with
    | inl or_ =>
      subst or_
      exact disjoined
    | inr and_ =>
      subst and_
      have noAnd : (operators 3).contains op.kind = false := by
        rw [containsOperators (by decide) (by decide), two]
        rfl
      exact (readsChainNone (startsCons _ _) noAnd m e).look disjoined
  · obtain rfl : r = 3 := by omega
    have three : op.kind.pull = 3 := by omega
    have isAnd : (operators 3).contains op.kind = true := by
      rw [containsOperators (by decide) (by decide), three]
      rfl
    refine ⟨m, m' + 1, Nat.le_refl _, Nat.le_succ _, ?_⟩
    rw [three]
    exact (readsChainSome m e isAnd more (one n (Nat.le_refl n))).within _

theorem startsLinks {links : List Link} (all : ∀ l ∈ links, l.Ok) (starts : Starts rest k)
    (low : k.pull = 0) : ∃ k', Starts (spellLinks links ++ rest) k' ∧ k'.pull ≤ 4 := by
  cases links with
  | nil => exact ⟨k, starts, by omega⟩
  | cons l ls => exact ⟨l.op.kind, startsCons _ _, (all l (List.mem_cons_self ..)).high⟩

theorem readsTerm {e : Expr} {w : Writing} (ok : e.grammatical = true) (high : 6 ≤ e.rank)
    {j : Nat} (enough : 16 * (e.spell w).length + 5 ≤ j) (starts : Starts rest k)
    (low : k.pull < 6) : Reads (rule 6 j) (e.spell w) (pure e.asRead) rest :=
  (readable e ok).whole ok (by decide) high w j k rest (by omega) starts low

def readWith (left : Expr) (l : Link) : Expr := .logical left (some l.op) l.operand.asRead

/- The induction is on the links. The level is that of the operator before; it only falls. -/
theorem readsCut {links : List Link} (all : ∀ l ∈ links, l.Ok) (level : r = 2 ∨ r = 3)
    (enough : 16 * (spellLinks links).length + 5 ≤ n) (steps : links.length < m)
    (steps' : links.length < m') (starts : Starts rest k) (low : k.pull = 0) :
    Reads (logicTail n r m m' e) (spellLinks (cut r links).1)
      (pure ((cut r links).1.foldl readWith e)) ((cut r links).2 ++ rest) := by
  induction links generalizing r e m m' with
  | nil =>
    obtain ⟨m, rfl⟩ : ∃ j, m = j + 1 := ⟨m - 1, by omega⟩
    obtain ⟨m', rfl⟩ : ∃ j, m' = j + 1 := ⟨m' - 1, by omega⟩
    exact readsTailNone level starts (.inl low)
  | cons l ls ih =>
    obtain ⟨m, rfl⟩ : ∃ j, m = j + 1 := ⟨m - 1, by omega⟩
    obtain ⟨m', rfl⟩ : ∃ j, m' = j + 1 := ⟨m' - 1, by omega⟩
    have here := all l (List.mem_cons_self ..)
    have later := fun x mem => all x (List.mem_cons_of_mem _ mem)
    simp only [spellLinksCons, List.length_cons, List.length_append] at enough steps steps'
    unfold cut
    by_cases stop : r < l.pull
    · rw [if_pos stop]
      exact readsTailNone level (startsCons _ _) (.inr stop)
    have high : l.op.kind.pull ≤ r := Nat.le_of_not_lt stop
    have two : 2 ≤ l.op.kind.pull := here.low
    rw [if_neg stop]
    by_cases term : 6 ≤ l.operand.rank
    · rw [if_pos term]
      have after : spellLinks (cut l.pull ls).1 ++ ((cut l.pull ls).2 ++ rest) =
          spellLinks ls ++ rest := by
        rw [← List.append_assoc, spellCut]
      obtain ⟨k', starts', four⟩ := startsLinks later starts low
      rw [← after] at starts'
      have one : ∀ j, n ≤ j → Reads (rule 6 j) (l.operand.spell l.writing) (pure l.operand.asRead)
          (spellLinks (cut l.pull ls).1 ++ ((cut l.pull ls).2 ++ rest)) := by
        intro j le
        exact readsTerm here.grammatical term (by omega) starts' (by omega)
      obtain ⟨i, i', le, le', taken⟩ :=
        readsTailSome m m' e level two high (by simp [starts'.some]) one
      have level' : l.pull = 2 ∨ l.pull = 3 := by
        unfold Link.pull
        omega
      exact taken.trans (ih later level' (by omega) (by omega) (by omega))
    · rw [if_neg term]
      obtain ⟨ok, high'⟩ := Expr.firstTermOk here.grammatical here.comparison
      obtain ⟨k', starts', five⟩ := Expr.afterTermStarts here.grammatical here.comparison term
        l.writing
      have starts' := (starts'.append (spellLinks ls)).append rest
      have spelled := congrArg List.length (l.operand.firstTermSpell l.writing)
      rw [List.length_append] at spelled
      have one : ∀ j, n ≤ j → Reads (rule 6 j)
          (l.operand.firstTerm.spell (l.operand.firstWriting l.writing))
          (pure l.operand.firstTerm.asRead)
          (l.operand.afterTerm l.writing ++ spellLinks ls ++ rest) := by
        intro j le
        exact readsTerm ok high' (by omega) starts' (by omega)
      have more : l.operand.firstTerm.spell (l.operand.firstWriting l.writing) ++
          (l.operand.afterTerm l.writing ++ spellLinks ls ++ rest) ≠ [] :=
        fun empty => starts'.some (List.append_eq_nil_iff.mp empty).2
      obtain ⟨i, i', le, le', taken⟩ := readsTailSome m m' e level two high more one
      obtain ⟨i, rfl⟩ : ∃ j, i = j + 1 := ⟨i - 1, by omega⟩
      obtain ⟨i', rfl⟩ : ∃ j, i' = j + 1 := ⟨i' - 1, by omega⟩
      have level' : l.op.kind.pull = 2 ∨ l.op.kind.pull = 3 := by omega
      have stopped := taken.ends (readsTailNone level' starts' (.inr (by omega)))
      simpa [spellLinks, Link.spell, readWith] using stopped

theorem asReadFold (links : List Link) (e : Expr) :
    (links.foldl Expr.logicalWith e).asRead = links.foldl readWith e.asRead := by
  induction links generalizing e with
  | nil => rfl
  | cons l ls ih =>
    rw [List.foldl_cons, List.foldl_cons, ih, Expr.logicalWith, Expr.asRead]
    rfl

theorem disjunctionTail (n : Nat) : rule 2 (n + 2) = rule 4 n >>= logicTail n 3 n (n + 1) := by
  rw [ruleChain (by decide) (by decide), ruleChain (by decide) (by decide), bind_assoc]
  rfl

theorem cutStarts {links : List Link} (all : ∀ l ∈ links, l.Ok) (starts : Starts rest k)
    (low : k.pull = 0) (r : Nat) : ∃ k', Starts ((cut r links).2 ++ rest) k' ∧ k'.pull ≠ 1 := by
  fun_induction cut r links with
  | case1 => exact ⟨k, starts, by omega⟩
  | case2 level l ls high =>
    have two : 2 ≤ l.op.kind.pull := (all l (List.mem_cons_self ..)).low
    exact ⟨l.op.kind, startsCons _ _, by omega⟩
  | case3 level l ls high term ih => exact ih fun x mem => all x (List.mem_cons_of_mem _ mem)
  | case4 level l ls high term =>
    have here := all l (List.mem_cons_self ..)
    obtain ⟨k', starts', five⟩ :=
      Expr.afterTermStarts here.grammatical here.comparison term l.writing
    exact ⟨k', (starts'.append _).append _, by omega⟩

theorem readsParts {first : Expr} {w : Writing} {equal ls : List Link}
    (ok : first.grammatical = true) (comparison : 5 ≤ first.rank) (all : ∀ l ∈ equal ++ ls, l.Ok)
    (fours : ∀ l ∈ equal, l.pull = 4)
    (other : ∀ l ∈ ls.head?, l.pull ≠ 4) (starts : Starts rest k) (low : k.pull = 0) {n : Nat}
    (enough : 16 * (first.spell w ++ spellLinks (equal ++ ls)).length + 15 ≤ n) :
    Reads (rule 2 (n + 2))
      ((first.equalities equal).spell (w.equalities equal) ++ spellLinks (cut 3 ls).1)
      (pure ((cut 3 ls).1.foldl readWith (first.equalities equal).asRead))
      ((cut 3 ls).2 ++ rest) := by
  rw [spellLinksAppend, List.length_append, List.length_append] at enough
  have later : ∀ l ∈ ls, l.Ok := fun l mem => all l (List.mem_append_right _ mem)
  obtain ⟨ok', high⟩ := Expr.equalitiesOk ok comparison
    (fun l mem => all l (List.mem_append_left _ mem)) fours
  have next : ∃ k', Starts (spellLinks ls ++ rest) k' ∧ k'.pull < 4 := by
    cases ls with
    | nil => exact ⟨k, starts, by omega⟩
    | cons l ls =>
      have four : l.op.kind.pull ≤ 4 := (later l (List.mem_cons_self ..)).high
      have apart : l.op.kind.pull ≠ 4 := other l rfl
      exact ⟨l.op.kind, startsCons _ _, by omega⟩
  obtain ⟨k', starts', four⟩ := next
  rw [← spellCut 3 ls, List.append_assoc] at starts'
  have length := congrArg List.length (first.spellEqualities w equal)
  rw [List.length_append] at length
  have few := lengthLinks ls
  have left := (readable _ ok').whole ok' (by decide) high (w.equalities equal) n k' _ (by omega)
    starts' four
  have right : Reads (logicTail n 3 n (n + 1) (first.equalities equal).asRead) _ _ _ :=
    readsCut later (.inr rfl) (by omega) (by omega) (by omega) starts low
  rw [disjunctionTail]
  exact left.bind right

theorem readsChain {first : Expr} {w : Writing} {links : List Link} (ok : first.grammatical = true)
    (comparison : 5 ≤ first.rank) (all : ∀ l ∈ links, l.Ok) (starts : Starts rest k)
    (low : k.pull = 0) {n : Nat}
    (enough : 16 * (first.spell w ++ spellLinks links).length + 18 ≤ n) :
    Reads (expression n) ((chainTree first links).spell (chainWriting w links))
      (pure (chainTree first links).asRead)
      (chainLeft links ++ rest) := by
  obtain ⟨n, rfl⟩ : ∃ j, n = j + 3 := ⟨n - 3, by omega⟩
  obtain ⟨equal, ls, rfl, fours, other⟩ := parted links
  have whole := readsParts (w := w) ok comparison all fours other starts low (n := n) (by omega)
  obtain ⟨k', starts', apart⟩ :=
    cutStarts (fun l mem => all l (List.mem_append_right equal mem)) starts low 3
  have noEqual : k' ≠ .equal := by
    intro same
    subst same
    exact apart rfl
  rw [chainTreeParts fours other, chainWritingParts fours other, chainLeftParts fours other,
    Expr.spellLogical, asReadFold]
  generalize (cut 3 ls).2 ++ rest = after at whole starts' ⊢
  exact whole.last ((readsSkipNot starts' noEqual).look (readsSelf _))

end Parse

end Lox
