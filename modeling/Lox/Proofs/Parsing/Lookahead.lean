import Lox.Proofs.Parsing.Reading

/-!
What a rule reads does not depend on the tokens behind it. A run over tokens that end, without a
report and without a lone expression, is the run of the same rule over any longer list of tokens,
as long as the first one of the others is no `else`.
-/

namespace Lox

namespace Cursor

structure Onward (c : Cursor) (k : Nat) (c' : Cursor) : Prop where
  rest : c' = { c with index := c.index + k, log := c'.log, foundLone := c'.foundLone }
  log : ∃ es : List ParseError, c'.log = c.log ++ es.map .parse
  lone : c.foundLone = true → c'.foundLone = true

structure Quiet (c c' : Cursor) : Prop where
  log : c'.log = c.log
  lone : c'.foundLone = false

variable {c c₁ c₂ : Cursor} {j k : Nat} {ts us : List Token}

theorem Onward.moved (c : Cursor) (k : Nat) : c.Onward k (c.moved k) := ⟨rfl, ⟨[], by simp [Cursor.moved]⟩, id⟩

theorem Onward.stay (c : Cursor) : c.Onward 0 c := by
  simpa using Onward.moved c 0

theorem Onward.trans (first : c.Onward j c₁) (next : c₁.Onward k c₂) : c.Onward (j + k) c₂ := by
  obtain ⟨es, log₁⟩ := first.log
  obtain ⟨es', log₂⟩ := next.log
  refine ⟨?_, ⟨es ++ es', by simp [log₂, log₁]⟩, fun lone => next.lone (first.lone lone)⟩
  rw [next.rest, first.rest]
  simp [Int.add_assoc]

theorem Onward.at (h : c.Onward ts.length c₁) (at' : c.At (ts ++ us)) : c₁.At us := by
  obtain ⟨i, index, drop⟩ := at'.moved
  rw [h.rest]
  exact ⟨i, index, drop⟩

theorem Quiet.first (h : c.Quiet c₂) (first : c.Onward j c₁) (next : c₁.Onward k c₂) :
    c.Quiet c₁ := by
  refine ⟨?_, ?_⟩
  · obtain ⟨es, log₁⟩ := first.log
    obtain ⟨es', log₂⟩ := next.log
    have none : es = [] ∧ es' = [] := by simpa [log₂, log₁] using h.log
    simp [log₁, none.1]
  · exact Bool.eq_false_iff.mpr fun lone => Bool.eq_false_iff.mp h.lone (next.lone lone)

theorem Quiet.next (h : c.Quiet c₂) (first : c.Onward j c₁) (next : c₁.Onward k c₂) :
    c₁.Quiet c₂ :=
  ⟨h.log.trans (h.first first next).log.symm, h.lone⟩

end Cursor

def Follow (ts : List Token) : Prop :=
  ∃ t us, ts = t :: us ∧ t.kind ≠ .keyword .else_

theorem Follow.some {ts : List Token} (h : Follow ts) : ts ≠ [] := by
  obtain ⟨t, us, rfl, -⟩ := h
  simp

namespace Parse

variable {α β : Type}

/- How a run over the tokens `todo` and the end may end. When it leaves at least `spare` of them
without a word, it has read at least `few`, and the other parser reads the same before any rest. -/
def Ahead (few spare : Nat) (q : Parse α) (c : Cursor) (todo : List Token) :
    EStateM.Result Stop Cursor α → Prop
  | .error e _ => ∀ f, e ≠ .fault f
  | .ok a c' => ∃ read left, todo = read ++ left ∧ c.Onward read.length c' ∧
      (c.Quiet c' → spare ≤ left.length →
        few ≤ read.length ∧ ∀ rest, Follow rest → Reads q read (pure a) (left ++ rest))

def Tracks (few spare : Nat) (p q : Parse α) : Prop :=
  ∀ c todo, c.At (todo ++ [.eof]) → Ahead few spare q c todo (p c)

variable {few spare more : Nat} {p q : Parse α} {f g : α → Parse β}

theorem tracksPure (a : α) : Tracks 0 spare (pure a) (pure a) :=
  fun c todo _ => ⟨[], todo, rfl, .stay c, fun _ _ => ⟨Nat.le_refl 0, fun _ _ => readsSelf _⟩⟩

theorem tracksOutOfFuel : Tracks few spare (throw .outOfFuel) q :=
  fun _ _ _ _ same => by cases same

theorem Tracks.bind (first : Tracks few (spare + more) p q)
    (next : ∀ a, Tracks more spare (f a) (g a)) :
    Tracks (few + more) spare (p >>= f) (q >>= g) := by
  intro c todo at'
  have one := first c todo at'
  rw [bindRun]
  cases run : p c with
  | error e c₁ =>
    rw [run] at one
    exact one
  | ok a c₁ =>
    rw [run] at one
    obtain ⟨read₁, left₁, rfl, onward₁, quiet₁⟩ := one
    rw [List.append_assoc] at at'
    have two := next a c₁ left₁ (onward₁.at at')
    dsimp only
    cases last : f a c₁ with
    | error e c₂ =>
      rw [last] at two
      exact two
    | ok b c₂ =>
      rw [last] at two
      obtain ⟨read₂, left₂, rfl, onward₂, quiet₂⟩ := two
      refine ⟨read₁ ++ read₂, left₂, (List.append_assoc ..).symm, ?_, fun quiet enough => ?_⟩
      · rw [List.length_append]
        exact onward₁.trans onward₂
      · obtain ⟨some₂, reads₂⟩ := quiet₂ (quiet.next onward₁ onward₂) enough
        obtain ⟨some₁, reads₁⟩ := quiet₁ (quiet.first onward₁ onward₂)
          (by rw [List.length_append]; omega)
        refine ⟨by rw [List.length_append]; omega, ?_⟩
        intro rest follow
        have one := reads₁ rest follow
        rw [List.append_assoc] at one
        exact one.bind (reads₂ rest follow)

theorem Tracks.mono {few' spare' : Nat} (h : Tracks few spare p q) (fewer : few' ≤ few)
    (spared : spare ≤ spare') : Tracks few' spare' p q := by
  intro c todo at'
  have one := h c todo at'
  cases run : p c with
  | error e c₁ =>
    rw [run] at one
    exact one
  | ok a c₁ =>
    rw [run] at one
    obtain ⟨read, left, split, onward, quiet⟩ := one
    refine ⟨read, left, split, onward, fun silent enough => ?_⟩
    obtain ⟨some, reads⟩ := quiet silent (Nat.le_trans spared enough)
    exact ⟨Nat.le_trans fewer some, reads⟩

theorem Tracks.within (h : Tracks 1 0 p q) : Tracks 0 1 p q :=
  h.mono (Nat.zero_le 1) (Nat.zero_le 1)

theorem Tracks.then (first : Tracks 0 1 p q) (next : ∀ a, Tracks 0 1 (f a) (g a)) :
    Tracks 0 1 (p >>= f) (q >>= g) := Tracks.bind first next

theorem Tracks.before (first : Tracks 0 1 p q) (next : ∀ a, Tracks 1 0 (f a) (g a)) :
    Tracks 1 0 (p >>= f) (q >>= g) := Tracks.bind first next

theorem Tracks.last (first : Tracks 1 0 p q) (next : ∀ a, Tracks 0 0 (f a) (g a)) :
    Tracks 1 0 (p >>= f) (q >>= g) := Tracks.bind first next

theorem Tracks.also (first : Tracks 0 0 p q) (next : ∀ a, Tracks 0 0 (f a) (g a)) :
    Tracks 0 0 (p >>= f) (q >>= g) := Tracks.bind first next

theorem aheadStay {c : Cursor} {todo : List Token} {a : α}
    (reads : ∀ rest, Follow rest → Reads q [] (pure a) (todo ++ rest)) :
    Ahead 0 spare q c todo (.ok a c) :=
  ⟨[], todo, rfl, .stay c, fun _ _ => ⟨Nat.le_refl 0, reads⟩⟩

theorem aheadEnd (c : Cursor) (a : α) : Ahead few 1 q c [] (.ok a c) :=
  ⟨[], [], rfl, .stay c, fun _ enough => by cases enough⟩

theorem aheadNext {c : Cursor} {t : Token} {todo : List Token} {a : α}
    (at' : c.At (t :: todo ++ [.eof])) (one : few ≤ 1)
    (reads : ∀ rest, Follow rest → Reads q [t] (pure a) (todo ++ rest)) :
    Ahead few spare q c (t :: todo) (.ok a c.next) := by
  refine ⟨[t], todo, rfl, ?_, fun _ _ => ⟨one, reads⟩⟩
  rw [Cursor.At.next at' (by simp)]
  exact .moved c 1

theorem aheadReported (c : Cursor) (e : ParseError) (a : α) (todo : List Token) :
    Ahead few spare q c todo (.ok a { c with log := c.log ++ [.parse e] }) := by
  refine ⟨[], todo, rfl, ⟨by simp, ⟨[e], rfl⟩, id⟩, fun quiet _ => ?_⟩
  have longer := quiet.log
  simp at longer

theorem nextEof {c : Cursor} (at' : c.At [.eof]) : c.next = c := by
  unfold Cursor.next
  rw [if_pos]
  rw [at'.atEnd (by simp)]
  rfl

theorem tracksLook {f : Kind → α} (run : ∀ c, p c = c.look fun t => .ok (f t.kind) c)
    (reads : ∀ {ts k}, Starts ts k → Reads p [] (pure (f k)) ts) : Tracks 0 1 p p := by
  intro c todo at'
  rw [run]
  cases todo with
  | nil =>
    rw [Cursor.look, at'.here]
    exact aheadEnd c _
  | cons t todo =>
    rw [Cursor.look, at'.here]
    exact aheadStay fun _ _ => reads (startsCons t _)

theorem tracksKind : Tracks 0 1 kind kind :=
  tracksLook (f := fun k => k) kindRun readsKind

theorem tracksCheck (k : Kind) : Tracks 0 1 (check k) (check k) :=
  tracksLook (checkRun k) fun h => readsCheck h k

theorem tracksCheckAny (ks : List Kind) : Tracks 0 1 (checkAny ks) (checkAny ks) :=
  tracksLook (checkAnyRun ks) fun h => readsCheckAny h ks

theorem tracksCurrent : Tracks 0 1 current current := by
  intro c todo at'
  rw [currentRun]
  cases todo with
  | nil =>
    rw [at'.here]
    exact aheadEnd c _
  | cons t todo =>
    rw [at'.here]
    exact aheadStay fun _ _ => readsCurrent (by simp)

theorem tracksIsAtEnd : Tracks 0 1 isAtEnd isAtEnd := by
  intro c todo at'
  rw [isAtEndRun, at'.atEnd (by simp)]
  cases todo with
  | nil => exact aheadEnd c _
  | cons t todo =>
    refine aheadStay fun rest follow => ?_
    have here : ((t :: todo ++ [Token.eof]).length == 1) = false := by simp
    have there : ((t :: todo ++ rest).length == 1) = false := by simp [follow.some]
    rw [here, ← there]
    exact readsIsAtEnd (by simp)

theorem tracksAdvance : Tracks 0 1 advance advance := by
  intro c todo at'
  rw [advanceRun]
  cases todo with
  | nil =>
    rw [nextEof at']
    exact aheadEnd c _
  | cons t todo =>
    exact aheadNext at' (Nat.zero_le 1) fun _ follow => readsAdvance (by simp [follow.some])

theorem tracksTake : Tracks 0 1 take take := by
  intro c todo at'
  rw [takeRun]
  cases todo with
  | nil =>
    rw [at'.here]
    dsimp only
    rw [nextEof at']
    exact aheadEnd c _
  | cons t todo =>
    rw [at'.here]
    exact aheadNext at' (Nat.zero_le 1) fun _ follow => readsTake (by simp [follow.some])

theorem aheadSkip {c : Cursor} {t : Token} {todo : List Token}
    (at' : c.At (t :: todo ++ [.eof])) (k : Kind) :
    Ahead 0 spare (skip k) c (t :: todo) (skip k c) := by
  rw [skipRun, Cursor.look, at'.here]
  dsimp only
  split
  · next same =>
    exact aheadNext at' (Nat.zero_le 1) fun _ follow => readsSkip same (by simp [follow.some])
  · next other => exact aheadStay fun _ _ => readsSkipNot (startsCons t _) other

theorem tracksSkip (k : Kind) : Tracks 0 1 (skip k) (skip k) := by
  intro c todo at'
  cases todo with
  | nil =>
    rw [skipRun, Cursor.look, at'.here]
    dsimp only
    rw [nextEof at']
    split
    · exact aheadEnd c _
    · exact aheadEnd c _
  | cons t todo => exact aheadSkip at' k

/- The one place where a rule looks behind a statement. -/
theorem tracksElse : Tracks 0 0 (skip (.keyword .else_)) (skip (.keyword .else_)) := by
  intro c todo at'
  cases todo with
  | nil =>
    rw [skipRun, Cursor.look, at'.here]
    refine aheadStay fun rest follow => ?_
    obtain ⟨t, us, rfl, other⟩ := follow
    exact readsSkipNot (startsCons t us) other
  | cons t todo => exact aheadSkip at' _

theorem tracksExpect {k : Kind} (other : k ≠ .eof) (message : String) :
    Tracks 1 0 (expect k message) (expect k message) := by
  intro c todo at'
  rw [expectRun]
  cases todo with
  | nil =>
    rw [Cursor.look, at'.here]
    dsimp only
    rw [if_neg (fun same => other same.symm)]
    rcases reportRun ⟨.eof, message⟩ c with run | run
    · rw [run]
      exact fun f same => by cases same
    · rw [run]
      exact aheadReported c _ none _
  | cons t todo =>
    rw [Cursor.look, at'.here]
    dsimp only
    split
    · next same =>
      exact aheadNext at' (Nat.le_refl 1) fun _ follow =>
        readsExpect same (by simp [follow.some]) message
    · rcases reportRun ⟨t, message⟩ c with run | run
      · rw [run]
        exact fun f same => by cases same
      · rw [run]
        exact aheadReported c _ none _

def Steps (few spare n : Nat) (rule : Nat → Parse α) : Prop :=
  ∀ m, n ≤ m → Tracks few spare (rule n) (rule m)

theorem stepsZero {rule : Nat → Parse α} (none : rule 0 = throw .outOfFuel) :
    Steps few spare 0 rule := by
  intro m _
  rw [none]
  exact tracksOutOfFuel

theorem stepsSucc {rule : Nat → Parse α} {n : Nat}
    (h : ∀ m, n ≤ m → Tracks few spare (rule (n + 1)) (rule (m + 1))) :
    Steps few spare (n + 1) rule := by
  intro m le
  cases m with
  | zero => cases le
  | succ m => exact h m (Nat.le_of_succ_le_succ le)

theorem tracksWhile {test test' : Parse Bool} (first : Tracks 0 1 test test')
    (one : Tracks 0 1 p q) {n m : Nat} (le : n ≤ m) :
    Tracks 0 1 (whileM n test p) (whileM m test' q) := by
  induction n generalizing m with
  | zero => exact tracksOutOfFuel
  | succ n ih =>
    cases m with
    | zero => cases le
    | succ m =>
      refine first.then fun more => ?_
      split
      · exact one.then fun x => (ih (Nat.le_of_succ_le_succ le)).then fun xs => tracksPure _
      · exact tracksPure _

theorem tracksChain {ops : List Kind} {operand operand' : Parse Expr}
    {build : Expr → Option Token → Expr → Expr} (one : Tracks 0 1 operand operand')
    {n m : Nat} (le : n ≤ m) (left : Expr) :
    Tracks 0 1 (chain ops operand build n left) (chain ops operand' build m left) := by
  induction n generalizing m left with
  | zero => exact tracksOutOfFuel
  | succ n ih =>
    cases m with
    | zero => cases le
    | succ m =>
      refine (tracksCheckAny ops).then fun more => ?_
      split
      · refine tracksTake.then fun op => one.then fun right => ?_
        exact ih (Nat.le_of_succ_le_succ le) _
      · exact tracksPure _

structure ExprSteps (n : Nat) : Prop where
  assignment : Steps 0 1 n assignment
  disjunction : Steps 0 1 n disjunction
  conjunction : Steps 0 1 n conjunction
  equality : Steps 0 1 n equality
  comparison : Steps 0 1 n comparison
  term : Steps 0 1 n term
  factor : Steps 0 1 n factor
  unary : Steps 0 1 n unary
  call : Steps 0 1 n call
  callTail : ∀ e, Steps 0 1 n (callTail · e)
  arguments : Steps 0 1 n arguments
  primary : Steps 0 1 n primary

section

variable {n m : Nat} (ih : ExprSteps n) (le : n ≤ m)

include ih le

theorem tracksAssignment : Tracks 0 1 (assignment (n + 1)) (assignment (m + 1)) := by
  unfold assignment
  refine (ih.disjunction m le).then fun target => (tracksSkip _).then fun more => ?_
  split
  · exact (ih.assignment m le).then fun value => tracksPure _
  · exact tracksPure _

theorem tracksUnary : Tracks 0 1 (unary (n + 1)) (unary (m + 1)) := by
  unfold unary
  refine (tracksCheckAny _).then fun more => ?_
  split
  · exact tracksTake.then fun op => (ih.unary m le).then fun right => tracksPure _
  · exact ih.call m le

theorem tracksCallTail (callee : Expr) :
    Tracks 0 1 (callTail (n + 1) callee) (callTail (m + 1) callee) := by
  unfold callTail
  refine (tracksSkip _).then fun more => ?_
  split
  · refine (ih.arguments m le).then fun args => ?_
    refine (tracksExpect (by decide) _).within.then fun paren => ?_
    exact ih.callTail _ m le
  · refine (tracksSkip _).then fun dot => ?_
    split
    · refine (tracksExpect (by decide) _).within.then fun name => ?_
      exact ih.callTail _ m le
    · exact tracksPure _

theorem tracksArguments : Tracks 0 1 (arguments (n + 1)) (arguments (m + 1)) := by
  unfold arguments
  refine (tracksCheck _).then fun none => ?_
  split
  · exact tracksPure _
  · refine (ih.assignment m le).then fun first => ?_
    refine (tracksWhile (tracksSkip _) (ih.assignment m le) le).then fun others => ?_
    exact tracksPure _

theorem tracksPrimary : Tracks 0 1 (primary (n + 1)) (primary (m + 1)) := by
  have constant : ∀ e : Expr, Tracks 0 1 (do advance; return e) (do advance; return e) :=
    fun e => tracksAdvance.then fun _ => tracksPure _
  unfold primary
  refine tracksKind.then fun k => ?_
  split
  · refine tracksTake.then fun t => ?_
    split
    · exact tracksPure _
    · exact tracksPure _
  · refine tracksTake.then fun t => ?_
    split
    · exact tracksPure _
    · exact tracksPure _
  · exact constant _
  · exact constant _
  · exact constant _
  · exact tracksTake.then fun t => tracksPure _
  · exact tracksTake.then fun t => tracksPure _
  · refine tracksAdvance.then fun _ => (ih.assignment m le).then fun inner => ?_
    exact (tracksExpect (by decide) _).within.then fun _ => tracksPure _
  · refine tracksTake.then fun keyword => ?_
    refine (tracksExpect (by decide) _).within.then fun _ => ?_
    exact (tracksExpect (by decide) _).within.then fun method => tracksPure _
  · exact tracksPure _

end

theorem exprSteps (n : Nat) : ExprSteps n := by
  induction n with
  | zero =>
    constructor
    case callTail => exact fun e => stepsZero rfl
    all_goals exact stepsZero rfl
  | succ n ih =>
    constructor
    case assignment => exact stepsSucc fun m le => tracksAssignment ih le
    case disjunction =>
      exact stepsSucc fun m le => (ih.conjunction m le).then fun left =>
        tracksChain (ih.term m le) le left
    case conjunction =>
      exact stepsSucc fun m le => (ih.equality m le).then fun left =>
        tracksChain (ih.term m le) le left
    case equality =>
      exact stepsSucc fun m le => (ih.comparison m le).then fun left =>
        tracksChain (ih.equality m le) le left
    case comparison =>
      exact stepsSucc fun m le => (ih.term m le).then fun left =>
        tracksChain (ih.term m le) le left
    case term =>
      exact stepsSucc fun m le => (ih.factor m le).then fun left =>
        tracksChain (ih.factor m le) le left
    case factor =>
      exact stepsSucc fun m le => (ih.unary m le).then fun left =>
        tracksChain (ih.unary m le) le left
    case unary => exact stepsSucc fun m le => tracksUnary ih le
    case call =>
      exact stepsSucc fun m le => (ih.primary m le).then fun callee => ih.callTail callee m le
    case callTail => exact fun e => stepsSucc fun m le => tracksCallTail ih le e
    case arguments => exact stepsSucc fun m le => tracksArguments ih le
    case primary => exact stepsSucc fun m le => tracksPrimary ih le

theorem tracksRecovering {p q : Parse Stmt} (h : Tracks few spare p q) (n m : Nat) :
    Tracks few spare (recovering n p) (recovering m q) := by
  intro c todo at'
  have one := h c todo at'
  unfold recovering
  rw [tryCatchRun]
  cases run : p c with
  | ok a c₁ =>
    rw [run] at one
    obtain ⟨read, left, split, onward, quiet⟩ := one
    refine ⟨read, left, split, onward, fun silent enough => ?_⟩
    obtain ⟨some, reads⟩ := quiet silent enough
    refine ⟨some, fun rest follow d there => ?_⟩
    rw [tryCatchRun, reads rest follow d there]
    rfl
  | error e c₁ =>
    rw [run] at one
    cases e with
    | fault f => exact absurd rfl (one f)
    | _ => exact fun f same => by cases same

theorem tracksEnd {k : Kind} (other : k ≠ .eof) (message : String) (a : α) :
    Tracks 1 0 (do let _ ← expect k message; return a)
      (do let _ ← expect k message; return a) :=
  (tracksExpect other message).last fun _ => tracksPure a

theorem unlessLoneRun (a : α) (p : Parse α) (c : Cursor) :
    unlessLone a p c = if c.allowLone && (c.index + 1 == c.tokens.size) then
      .ok a { c with foundLone := true } else p c := by
  unfold unlessLone
  rw [getBind, bindRun, isAtEndRun]
  dsimp only
  split <;> rfl

theorem endedRun (e : Expr) (c : Cursor) :
    ended e c = if c.allowLone && (c.index + 1 == c.tokens.size) then
      .ok (.expression e) { c with foundLone := true } else closed e c :=
  unlessLoneRun _ _ c

theorem endedBefore (e : Expr) {c : Cursor} {ts : List Token} (at' : c.At ts)
    (many : 2 ≤ ts.length) : ended e c = closed e c := by
  have some : ts ≠ [] := List.ne_nil_of_length_pos (by omega)
  rw [endedRun, at'.atEnd some, if_neg]
  simp
  omega

theorem readsEnded {e : Expr} {read after : List Token} {s : Stmt} (some : 1 ≤ read.length)
    (more : after ≠ []) (h : Reads (closed e) read (pure s) after) :
    Reads (ended e) read (pure s) after := by
  intro d there
  have := List.length_pos_iff.mpr more
  rw [endedBefore e there (by rw [List.length_append]; omega)]
  exact h d there

theorem tracksEnded (e : Expr) : Tracks 1 0 (ended e) (ended e) := by
  intro c todo at'
  rw [endedRun]
  split
  · exact ⟨[], todo, rfl, ⟨by simp, ⟨[], by simp⟩, fun _ => rfl⟩, fun quiet => by cases quiet.lone⟩
  · have one : Tracks 1 0 (closed e) (closed e) := tracksEnd (by decide) _ _
    have one := one c todo at'
    cases run : closed e c with
    | error stop c₁ =>
      rw [run] at one
      exact one
    | ok s c₁ =>
      rw [run] at one
      obtain ⟨read, left, split, onward, quiet⟩ := one
      refine ⟨read, left, split, onward, fun silent enough => ?_⟩
      obtain ⟨some, reads⟩ := quiet silent enough
      exact ⟨some, fun rest follow => readsEnded some (by simp [follow.some]) (reads rest follow)⟩

section

variable {n m : Nat} (le : n ≤ m)

include le

theorem tracksExpression : Tracks 0 1 (expression n) (expression m) :=
  (exprSteps n).assignment m le

theorem tracksParameters : Tracks 0 1 (parameters n) (parameters m) := by
  have one : Tracks 0 1 (expect .identifier "Expect an identifier as paramater")
      (expect .identifier "Expect an identifier as paramater") :=
    (tracksExpect (by decide) _).within
  exact one.then fun first => (tracksWhile (tracksSkip _) one le).then fun others =>
    tracksPure _

theorem tracksHeader (what : String) : Tracks 1 0 (header n what) (header m what) := by
  unfold header
  refine (tracksExpect (by decide) _).within.before fun name => ?_
  refine (tracksExpect (by decide) _).within.before fun _ => ?_
  refine (tracksCheck _).before fun none => ?_
  have close : ∀ closing opening (params : List (Option Token)), Tracks 1 0 _ _ :=
    fun closing opening params =>
      (tracksExpect (k := .rightParen) (by decide) closing).within.before fun _ =>
      tracksEnd (k := .leftBrace) (by decide) opening (name, params)
  cases none with
  | true => exact close _ _ []
  | false => exact (tracksParameters le).before fun params => close _ _ params

theorem tracksVarDeclaration : Tracks 1 0 (varDeclaration n) (varDeclaration m) := by
  refine (tracksExpect (by decide) _).within.before fun name => ?_
  refine (tracksSkip _).before fun given => ?_
  cases given with
  | true => exact (tracksExpression le).before fun e => tracksEnd (by decide) _ _
  | false => exact tracksEnd (by decide) _ _

theorem tracksExpressionStatement :
    Tracks 1 0 (expressionStatement n) (expressionStatement m) :=
  (tracksExpression le).before (tracksEnded)

theorem tracksPrintStatement : Tracks 1 0 (printStatement n) (printStatement m) :=
  (tracksExpression le).before fun e => tracksEnd (by decide) _ _

theorem tracksReturnStatement : Tracks 1 0 (returnStatement n) (returnStatement m) := by
  refine tracksCurrent.before fun keyword => (tracksCheck _).before fun none => ?_
  cases none with
  | true => exact tracksEnd (by decide) _ _
  | false => exact (tracksExpression le).before fun e => tracksEnd (by decide) _ _

theorem tracksClause (k : Kind) : Tracks 0 1 (clause n k) (clause m k) := by
  refine (tracksCheck k).then fun none => ?_
  split
  · exact tracksPure _
  · exact tracksExpression le

theorem tracksInitializer : Tracks 0 1 (initializer n) (initializer m) := by
  refine (tracksSkip _).then fun none => ?_
  split
  · exact tracksPure _
  · refine (tracksSkip _).then fun var => ?_
    split
    · exact (tracksVarDeclaration le).within.then fun s => tracksPure _
    · exact (tracksExpressionStatement le).within.then fun s => tracksPure _

end

def declared (n : Nat) : Parse Stmt :=
  announced (classDeclaration n) (function n "function") (varDeclaration n) (statement n)

theorem declarationSucc (n : Nat) : declaration (n + 1) = recovering n (declared n) := rfl

structure StmtSteps (n : Nat) : Prop where
  declaration : Steps 1 0 n declaration
  classDeclaration : Steps 1 0 n classDeclaration
  function : ∀ what, Steps 1 0 n (function · what)
  statement : Steps 1 0 n statement
  forStatement : Steps 1 0 n forStatement
  ifStatement : Steps 1 0 n ifStatement
  whileStatement : Steps 1 0 n whileStatement
  block : Steps 1 0 n block

section

variable {n m : Nat} (ih : StmtSteps n) (le : n ≤ m)

include ih le

theorem tracksDeclared : Tracks 1 0 (declared n) (declared m) := by
  refine (tracksSkip _).before fun class' => ?_
  split
  · exact ih.classDeclaration m le
  · refine (tracksSkip _).before fun function' => ?_
    split
    · exact (ih.function _ m le).last fun f => tracksPure _
    · refine (tracksSkip _).before fun var => ?_
      split
      · exact tracksVarDeclaration le
      · exact ih.statement m le

theorem tracksClassDeclaration :
    Tracks 1 0 (classDeclaration (n + 1)) (classDeclaration (m + 1)) := by
  unfold classDeclaration
  have inside : Tracks 0 1 inClass inClass := by
    refine tracksIsAtEnd.then fun ends => ?_
    split
    · exact tracksPure _
    · exact (tracksCheck _).then fun closing => tracksPure _
  refine (tracksExpect (by decide) _).within.before fun name => ?_
  refine (tracksSkip _).before fun derived => ?_
  have body : ∀ opening closing e, Tracks 1 0 _ _ := fun opening closing e =>
    (tracksExpect (k := .leftBrace) (by decide) opening).within.before fun _ =>
    (tracksWhile inside (ih.function "method" m le).within le).before fun methods =>
    tracksEnd (k := .rightBrace) (by decide) closing (Stmt.class_ name methods e)
  cases derived with
  | true =>
    exact (tracksExpect (by decide) _).within.before fun base => body _ _ (.reference 0 base)
  | false => exact body _ _ .missing

theorem tracksFunction (what : String) :
    Tracks 1 0 (function (n + 1) what) (function (m + 1) what) := by
  unfold function
  refine (tracksHeader le what).within.before fun (name, params) => ?_
  exact (ih.block m le).last fun ss => tracksPure _

theorem tracksStatement : Tracks 1 0 (statement (n + 1)) (statement (m + 1)) := by
  unfold statement
  refine (tracksSkip _).before fun for' => ?_
  split
  · exact ih.forStatement m le
  refine (tracksSkip _).before fun if' => ?_
  split
  · exact ih.ifStatement m le
  refine (tracksSkip _).before fun print => ?_
  split
  · exact tracksPrintStatement le
  refine (tracksSkip _).before fun return' => ?_
  split
  · exact tracksReturnStatement le
  refine (tracksSkip _).before fun while' => ?_
  split
  · exact ih.whileStatement m le
  refine (tracksSkip _).before fun block => ?_
  split
  · exact (ih.block m le).last fun ss => tracksPure _
  · exact tracksExpressionStatement le

theorem tracksForStatement : Tracks 1 0 (forStatement (n + 1)) (forStatement (m + 1)) := by
  unfold forStatement
  refine (tracksExpect (by decide) _).within.before fun _ => ?_
  refine (tracksInitializer le).before fun init => ?_
  refine (tracksClause le _).before fun cond => ?_
  refine (tracksExpect (by decide) _).within.before fun _ => ?_
  refine (tracksClause le _).before fun step => ?_
  refine (tracksExpect (by decide) _).within.before fun _ => ?_
  exact (ih.statement m le).last fun body => tracksPure _

theorem tracksIfStatement : Tracks 1 0 (ifStatement (n + 1)) (ifStatement (m + 1)) := by
  unfold ifStatement
  refine (tracksExpect (by decide) _).within.before fun _ => ?_
  refine (tracksExpression le).before fun cond => ?_
  refine (tracksExpect (by decide) _).within.before fun _ => ?_
  refine (ih.statement m le).last fun yes => ?_
  refine tracksElse.also fun other => ?_
  cases other with
  | true => exact ((ih.statement m le).mono (Nat.zero_le 1) (Nat.le_refl 0)).also fun no => tracksPure _
  | false => exact tracksPure _

theorem tracksWhileStatement :
    Tracks 1 0 (whileStatement (n + 1)) (whileStatement (m + 1)) := by
  unfold whileStatement
  refine (tracksExpect (by decide) _).within.before fun _ => ?_
  refine (tracksExpression le).before fun cond => ?_
  refine (tracksExpect (by decide) _).within.before fun _ => ?_
  exact (ih.statement m le).last fun body => tracksPure _

theorem tracksBlock : Tracks 1 0 (block (n + 1)) (block (m + 1)) := by
  unfold block
  have inside : Tracks 0 1 (do return !(← check .rightBrace) && !(← isAtEnd))
      (do return !(← check .rightBrace) && !(← isAtEnd)) :=
    (tracksCheck _).then fun closing => tracksIsAtEnd.then fun ends => tracksPure _
  refine (tracksWhile inside (ih.declaration m le).within le).before fun body => ?_
  exact tracksEnd (by decide) _ _

end

theorem stmtSteps (n : Nat) : StmtSteps n := by
  induction n with
  | zero =>
    constructor
    case function => exact fun what => stepsZero rfl
    all_goals exact stepsZero rfl
  | succ n ih =>
    constructor
    case declaration =>
      exact stepsSucc fun m le => tracksRecovering (tracksDeclared ih le) n m
    case classDeclaration => exact stepsSucc fun m le => tracksClassDeclaration ih le
    case function => exact fun what => stepsSucc fun m le => tracksFunction ih le what
    case statement => exact stepsSucc fun m le => tracksStatement ih le
    case forStatement => exact stepsSucc fun m le => tracksForStatement ih le
    case ifStatement => exact stepsSucc fun m le => tracksIfStatement ih le
    case whileStatement => exact stepsSucc fun m le => tracksWhileStatement ih le
    case block => exact stepsSucc fun m le => tracksBlock ih le

end Parse
end Lox
