import Lox.Proofs.Parsing.Accounts

/-!
The place of a parser. Over a list of tokens that ends with the end, every rule, whatever was called
before it, leaves the cursor at the same place or further on, on one of the tokens, and meets no
fault. It comes to one result, whatever the limit of its reports, or it reports without end.
-/

namespace Lox

structure Cursor.Within (c : Cursor) (far : Nat) (c' : Cursor) : Prop where
  rest : c' = { c with
    index := c'.index, log := c'.log, allowLone := c'.allowLone, foundLone := c'.foundLone }
  log : ∃ es : List ParseError, c'.log = c.log ++ es.map .parse
  after : c.index ≤ c'.index
  before : c'.index ≤ c.index + far

def Cursor.Fits (c c' : Cursor) (limit : Nat) : Prop := c'.errors = c.errors ∨ c'.errors < limit

theorem Cursor.Spent.fits {c c' : Cursor} {k e limit : Nat} (h : c.Spent k e c') :
    c.Fits c' limit ↔ c.Room limit e := by
  have errors := h.errors
  unfold Cursor.Fits Cursor.Room
  omega

namespace Cursor.Within

variable {c c₁ c₂ : Cursor} {far : Nat} {todo : List Token} {last : Token}

theorem stay (c : Cursor) (far : Nat) : c.Within far c :=
  ⟨rfl, ⟨[], by simp⟩, Int.le_refl _, by omega⟩

theorem ofOnward {read left : List Token} (h : c.Onward read.length c₁)
    (split : todo = read ++ left) : c.Within todo.length c₁ := by
  have length : todo.length = read.length + left.length := by rw [split, List.length_append]
  have index : c₁.index = c.index + read.length := by rw [h.rest]
  refine ⟨?_, h.log, by omega, by omega⟩
  rw [h.rest]

theorem errors (h : c.Within far c₁) : c.errors ≤ c₁.errors := by
  obtain ⟨es, log⟩ := h.log
  unfold Cursor.errors
  rw [log]
  simp [Log.parse]

theorem tokens (h : c.Within far c₁) : c₁.tokens = c.tokens := by rw [h.rest]

theorem limit (h : c.Within far c₁) : c₁.limit = c.limit := by rw [h.rest]

theorem ahead (h : c.Within todo.length c₁) (at' : c.At (todo ++ [last])) :
    ∃ left, c₁.At (left ++ [last]) ∧ c₁.index + left.length = c.index + todo.length := by
  obtain ⟨k, passed⟩ : ∃ k : Nat, c₁.index = c.index + k := ⟨(c₁.index - c.index).toNat, by
    have := h.after
    omega⟩
  have short : k ≤ todo.length := by
    have := h.before
    omega
  refine ⟨todo.drop k, ?_, by rw [List.length_drop]; omega⟩
  rw [← List.take_append_drop k todo, List.append_assoc] at at'
  have moved := at'.moved
  rw [List.length_take_of_le short] at moved
  obtain ⟨i, index, drop⟩ := moved
  exact ⟨i, passed.trans index, by rw [h.tokens]; exact drop⟩

theorem trans {left : List Token} (first : c.Within todo.length c₁)
    (there : c₁.index + left.length = c.index + todo.length)
    (next : c₁.Within left.length c₂) : c.Within todo.length c₂ := by
  obtain ⟨es, log₁⟩ := first.log
  obtain ⟨es', log₂⟩ := next.log
  have := first.after
  have := next.after
  have := next.before
  refine ⟨?_, ⟨es ++ es', by rw [log₂, log₁]; simp⟩, by omega, by omega⟩
  rw [next.rest, first.rest]

end Cursor.Within

namespace Parse

variable {α β : Type} {w : Nat} {p q : Parse α} {f g : α → Parse β} {c c' : Cursor} {far : Nat}

/- A run ends with a result, under every limit that its reports do not fill, or with the report that
fills the limit. `q` is the same parser, with as many steps or more. -/
def Soundly (q : Parse α) (c : Cursor) (far : Nat) : EStateM.Result Stop Cursor α → Prop
  | .ok a c' => c.Within far c' ∧ c.Fits c' c.limit ∧
      ∀ limit, c.Fits c' limit → q (c.limited limit) = .ok a (c'.limited limit)
  | .error s c' => c.Within far c' ∧ c.errors < c'.errors ∧ s = .errorLimit ∧
      c.limit ≤ c'.errors ∧ q c = .error s c'

def Sound (w : Nat) (p q : Parse α) : Prop :=
  ∀ c todo last, c.At (todo ++ [last]) → last.kind = .eof →
    todo.length + (c.limit - c.errors) ≤ w → Soundly q c todo.length (p c)

theorem Paid.soundly {C D : Nat → Nat → Prop} {todo : List Token}
    {result : EStateM.Result Stop Cursor α} (h : Paid C D q c todo result) :
    Soundly q c todo.length result := by
  cases result with
  | ok a c₁ =>
    obtain ⟨read, left, e, split, spent, room, -, same⟩ := h
    exact ⟨.ofOnward spent.onward split, spent.fits.mpr room, fun limit fits =>
      same limit (spent.fits.mp fits)⟩
  | error s c₁ =>
    obtain ⟨read, left, e, split, spent, some, -, stop, full, same⟩ := h
    exact ⟨.ofOnward spent.onward split, by rw [spent.errors]; omega, stop, full, same⟩

theorem Pays.sound {C D : Nat → Nat → Prop} (h : Pays w C D p q) : Sound w p q :=
  fun c todo last at' eof enough => (h c todo last at' eof enough).soundly

theorem Soundly.within {result : EStateM.Result Stop Cursor α} (h : Soundly q c far result) :
    c.Within far (final result) := by
  cases result with
  | ok a c₁ => exact h.1
  | error s c₁ => exact h.1

theorem soundlyQuiet {a : α} (within : c.Within far c') (errors : c'.errors = c.errors)
    (same : ∀ limit, q (c.limited limit) = .ok a (c'.limited limit)) :
    Soundly q c far (.ok a c') :=
  ⟨within, .inl errors, fun limit _ => same limit⟩

theorem soundPure (a : α) : Sound w (pure a) (pure a) :=
  fun c _ _ _ _ _ => soundlyQuiet (.stay c _) rfl fun _ => rfl

theorem Soundly.allowing {q' : Parse α} (lone : Bool) {result : EStateM.Result Stop Cursor α}
    (h : Soundly q { c with allowLone := lone } far result)
    (same : ∀ limit, q' (c.limited limit) = q { c.limited limit with allowLone := lone }) :
    Soundly q' c far result := by
  have back : ∀ {c'}, Cursor.Within { c with allowLone := lone } far c' → c.Within far c' :=
    fun within => ⟨within.rest, within.log, within.after, within.before⟩
  cases result with
  | ok a c₁ =>
    obtain ⟨within, fits, ready⟩ := h
    exact ⟨back within, fits, fun limit fits => (same limit).trans (ready limit fits)⟩
  | error s c₁ =>
    obtain ⟨within, more, stop, full, ready⟩ := h
    exact ⟨back within, more, stop, full, (same c.limit).trans ready⟩

theorem Soundly.bind {todo : List Token} {last : Token} (first : Soundly q c todo.length (p c))
    (at' : c.At (todo ++ [last]))
    (next : ∀ a c₁ left, p c = .ok a c₁ → c.Within todo.length c₁ → c₁.At (left ++ [last]) →
      c₁.index + left.length = c.index + todo.length → Soundly (g a) c₁ left.length (f a c₁)) :
    Soundly (q >>= g) c todo.length ((p >>= f) c) := by
  rw [bindRun]
  cases run : p c with
  | error s c₁ =>
    rw [run] at first
    obtain ⟨within, more, stop, full, same⟩ := first
    exact ⟨within, more, stop, full, by rw [bindRun, same]⟩
  | ok a c₁ =>
    rw [run] at first
    obtain ⟨within, fits, same⟩ := first
    obtain ⟨left, at₁, there⟩ := within.ahead at'
    have second := next a c₁ left run within at₁ there
    have grows := within.errors
    dsimp only
    cases run₂ : f a c₁ with
    | ok b c₂ =>
      rw [run₂] at second
      obtain ⟨within₂, fits₂, same₂⟩ := second
      have grows₂ := within₂.errors
      rw [within.limit] at fits₂
      refine ⟨within.trans there within₂, ?_, fun limit whole => ?_⟩
      · unfold Cursor.Fits at fits fits₂ ⊢
        omega
      · unfold Cursor.Fits at whole
        have first := same limit (by unfold Cursor.Fits; omega)
        rw [bindRun, first]
        exact same₂ limit (by unfold Cursor.Fits; omega)
    | error s c₂ =>
      rw [run₂] at second
      obtain ⟨within₂, more, stop, full, same₂⟩ := second
      refine ⟨within.trans there within₂, by omega, stop, within.limit ▸ full, ?_⟩
      have whole := same c.limit fits
      rw [Cursor.limitedSelf rfl, Cursor.limitedSelf within.limit] at whole
      rw [bindRun, whole]
      exact same₂

theorem Sound.bind (first : Sound w p q) (next : ∀ a, Sound w (f a) (g a)) :
    Sound w (p >>= f) (q >>= g) := by
  intro c todo last at' eof enough
  refine (first c todo last at' eof enough).bind at' fun a c₁ left _ within at₁ there => ?_
  refine next a c₁ left last at₁ eof ?_
  have errors := within.errors
  have after := within.after
  rw [within.limit]
  omega

theorem Looks.sound {see : Token → List Token → α} (h : Looks p see) : Sound w p p := by
  intro c todo last at' _ _
  obtain ⟨t, ts, same⟩ := List.exists_cons_of_ne_nil (l := todo ++ [last]) (by simp)
  rw [h c t ts (same ▸ at')]
  exact soundlyQuiet (.stay c _) rfl fun limit => h (c.limited limit) t ts (same ▸ at')

theorem looksPeek : Looks peek fun t _ => some (some t) := by
  intro c t ts at'
  have size := at'.size (by simp)
  rw [List.length_cons] at size
  have before : ¬c.index = c.tokens.size := by omega
  have run : peek c = (do return some (← current) : Parse _) c := by
    unfold peek
    rw [getBind, if_neg before]
  rw [run, bindRun, looksCurrent c t ts at']
  rfl

theorem nextErrors (c : Cursor) : c.next.errors = c.errors := by
  unfold Cursor.next
  split <;> rfl

section

variable {todo : List Token} {last : Token} (at' : c.At (todo ++ [last]))

include at'

theorem withinNext : c.Within todo.length c.next := by
  cases todo with
  | nil =>
    have ends : c.next = c := by
      unfold Cursor.next
      rw [at'.atEnd (by simp)]
      rfl
    rw [ends]
    exact .stay c _
  | cons t todo =>
    rw [Cursor.At.next at' (by simp)]
    have onward : c.Onward [t].length (c.moved 1) := .moved c 1
    exact .ofOnward onward rfl

theorem soundlyNext {a : α} (same : ∀ limit, q (c.limited limit) = .ok a (c.limited limit).next) :
    Soundly q c todo.length (.ok a c.next) :=
  soundlyQuiet (withinNext at') (nextErrors c) fun limit => by rw [same, nextLimited]

end

theorem soundAdvance : Sound w advance advance := by
  intro c todo last at' _ _
  rw [advanceRun]
  exact soundlyNext at' fun limit => advanceRun _

theorem soundTake : Sound w take take := by
  intro c todo last at' _ _
  obtain ⟨t, ts, same⟩ := List.exists_cons_of_ne_nil (l := todo ++ [last]) (by simp)
  have run : ∀ limit, take (c.limited limit) = .ok (some t) (c.limited limit).next := by
    intro limit
    have here : (c.limited limit).At (t :: ts) := same ▸ at'
    rw [takeRun, here.here]
  rw [show take c = _ from run c.limit]
  exact soundlyNext at' run

theorem soundExpect (k : Kind) (message : String) :
    Sound w (expect k message) (expect k message) := by
  intro c todo last at' _ _
  obtain ⟨t, ts, same⟩ := List.exists_cons_of_ne_nil (l := todo ++ [last]) (by simp)
  have here := at'
  rw [same] at here
  by_cases kind : t.kind = k
  · have run : ∀ limit, expect k message (c.limited limit) =
        .ok (some t) (c.limited limit).next := by
      intro limit
      have here : (c.limited limit).At (t :: ts) := here
      rw [expectRun, Cursor.look, here.here]
      exact if_pos kind
    rw [show expect k message c = _ from run c.limit]
    exact soundlyNext at' run
  · have paid : Paid (fun _ _ => True) (fun _ _ => True) (expect k message) c todo _ :=
      paidReport trivial trivial (expectReports message here kind)
    exact paid.soundly

theorem passOverStep {t : Token} {ts : List Token} (n : Nat) (at' : c.At (t :: ts)) :
    passOver (n + 1) c =
      if ts.isEmpty || (.semicolon :: anchors).contains t.kind then .ok () c
      else passOver n c.next := by
  rw [passOver, bindRun, looksIsAtEnd c t ts at']
  dsimp only
  cases ts.isEmpty with
  | true => rfl
  | false =>
    show (do
      if ← checkAny (.semicolon :: anchors) then return
      advance
      passOver n : Parse Unit) c = _
    rw [bindRun, looksCheckAny _ c t ts at', Bool.false_or]
    dsimp only
    split
    · rfl
    · rw [bindRun, advanceRun]

theorem passOverRun {todo : List Token} {last : Token} (at' : c.At (todo ++ [last])) :
    ∃ k ≤ todo.length, ∀ n limit, todo.length < n →
      passOver n (c.limited limit) = .ok () ((c.moved k).limited limit) := by
  induction todo generalizing c with
  | nil =>
    refine ⟨0, Nat.le_refl 0, fun n limit enough => ?_⟩
    obtain ⟨n, rfl⟩ := Nat.exists_eq_succ_of_ne_zero (Nat.ne_of_gt enough)
    rw [passOverStep n (c := c.limited limit) at']
    simp [Cursor.moved, Cursor.limited]
  | cons t todo ih =>
    obtain ⟨k, le, rest⟩ := ih (at'.behind (by simp))
    by_cases stop : (.semicolon :: anchors).contains t.kind = true
    · refine ⟨0, Nat.zero_le _, fun n limit enough => ?_⟩
      obtain ⟨n, rfl⟩ := Nat.exists_eq_succ_of_ne_zero (Nat.ne_of_gt (Nat.zero_lt_of_lt enough))
      rw [passOverStep n (c := c.limited limit) at', stop, Bool.or_true, if_pos rfl]
      simp [Cursor.moved, Cursor.limited]
    · refine ⟨k + 1, Nat.succ_le_succ le, fun n limit enough => ?_⟩
      obtain ⟨n, rfl⟩ := Nat.exists_eq_succ_of_ne_zero (Nat.ne_of_gt (Nat.zero_lt_of_lt enough))
      have moved : (c.moved 1).moved k = c.moved (k + 1) := by
        simp [Cursor.moved]
        omega
      rw [passOverStep n (c := c.limited limit) at', if_neg (by simpa using stop), nextLimited,
        rest n limit (Nat.lt_of_succ_lt_succ enough), at'.next (by simp), moved]

theorem soundPassOver {n m : Nat} (le : n ≤ m) (enough : w + 1 ≤ n) :
    Sound w (passOver n) (passOver m) := by
  intro c todo last at' _ weight
  obtain ⟨k, short, run⟩ := passOverRun at'
  have onward : c.Onward (todo.take k).length (c.moved k) := by
    rw [List.length_take_of_le short]
    exact .moved c k
  rw [show passOver n c = _ from run n c.limit (by omega)]
  exact soundlyQuiet (.ofOnward onward (List.take_append_drop k todo).symm) rfl
    fun limit => run m limit (by omega)

theorem soundSynchronize {n m : Nat} (le : n ≤ m) (enough : w + 1 ≤ n) :
    Sound w (synchronize n) (synchronize m) :=
  soundAdvance.bind fun _ => soundPassOver le enough

theorem declarationRun {n : Nat} {todo : List Token} {last : Token} (at' : c.At (todo ++ [last]))
    (eof : last.kind = .eof) (enough : 16 * (todo.length + (c.limit - c.errors)) + 12 ≤ n + 1) :
    declaration (n + 1) c = declared n c := by
  have sound := (paysDeclared (Nat.le_refl n) (stmtsPay (Nat.le_refl n)) enough).sound c todo last at'
    eof (Nat.le_refl _)
  rw [declarationSucc]
  refine recoveringRun n fun f c' fault => ?_
  rw [fault] at sound
  exact absurd sound.2.2.1 (by simp)

theorem paidAdvance {n m : Nat} {t last : Token} {todo : List Token} (le : n ≤ m)
    (at' : c.At (t :: todo ++ [last])) (eof : last.kind = .eof)
    (enough : 16 * ((t :: todo).length + (c.limit - c.errors)) + 12 ≤ n) :
    Paid (fun k e => 1 ≤ k + e) (fun _ _ => True) (declaration m) c (t :: todo)
      (declaration n c) := by
  have one := (repeatsDeclarations looksUnfinished (fun _ => rfl)
    ((stmtsPay le).declaration enough)).one
  have go : unended t (todo ++ [last]) = true := by simp [unended]
  refine (one c t todo last at' eof (Nat.le_refl _) go).mono ?_ fun _ _ _ => trivial
  unfold moving
  intro k e cost
  omega

theorem declarationAdvances {n : Nat} {s : Stmt} {t last : Token} {todo : List Token}
    (at' : c.At (t :: todo ++ [last])) (eof : last.kind = .eof)
    (enough : 16 * ((t :: todo).length + (c.limit - c.errors)) + 12 ≤ n)
    (run : declaration n c = .ok s c') : c.index < c'.index ∨ c.errors < c'.errors := by
  have paid := paidAdvance (Nat.le_refl n) at' eof enough
  rw [run] at paid
  obtain ⟨read, left, e, -, spent, -, some, -⟩ := paid
  rw [spent.errors, spent.onward.rest]
  dsimp only
  omega

theorem soundLineLoop {n m j k : Nat} (le : n ≤ m) (enough : 16 * w + 12 ≤ n) (more : j ≤ k)
    (fuel : w + 1 ≤ j) (done : List Stmt) :
    Sound w (lineLoop (declaration n) j done) (lineLoop (declaration m) k done) := by
  induction j generalizing w k done with
  | zero => omega
  | succ j ih =>
    obtain ⟨k, rfl⟩ : ∃ i, k = i + 1 := ⟨k - 1, by omega⟩
    intro c todo last at' eof weight
    unfold lineLoop
    refine (looksIsAtEnd.sound c todo last at' eof weight).bind at' ?_
    intro ends c₁ left look _ at₁ there
    cases todo with
    | nil =>
      rw [looksIsAtEnd c last [] at'] at look
      cases look
      exact soundlyQuiet (.stay c _) rfl fun _ => rfl
    | cons t todo =>
      have go : isAtEnd c = .ok false c := by
        rw [looksIsAtEnd c t (todo ++ [last]) at']
        simp
      rw [go] at look
      cases look
      have paid := paidAdvance le at' eof (by omega)
      rw [show left.length = (t :: todo).length by omega]
      refine paid.soundly.bind at' fun s c₁ left run within at₁ there => ?_
      rw [run] at paid
      obtain ⟨read, rest, e, split, spent, room, some, -⟩ := paid
      have errors := spent.errors
      have index : c₁.index = c.index + read.length := by rw [spent.onward.rest]
      unfold Cursor.Room at room
      rw [getBind]
      cases lone : c₁.foundLone with
      | true =>
        refine soundlyQuiet (.stay c₁ _) rfl fun limit => ?_
        rw [getBind, if_pos (by exact lone)]
        rfl
      | false =>
        have later := ih (w := w - 1) (k := k) (by omega) (by omega) (by omega) (done ++ [s])
          { c₁ with allowLone := false } left last at₁ eof (by
            show left.length + (c₁.limit - c₁.errors) ≤ w - 1
            rw [List.length_cons] at weight there
            rw [spent.limit]
            omega)
        refine later.allowing false fun limit => ?_
        rw [getBind, if_neg (by simp [Cursor.limited, lone])]
        rfl

theorem soundTypedLine {n m : Nat} (le : n ≤ m) (enough : 16 * w + 12 ≤ n) :
    Sound w (typedLine n) (typedLine m) := by
  intro c todo last at' eof weight
  have loop := soundLineLoop le enough le (by omega) [] { c with allowLone := true } todo last at'
    eof weight
  exact loop.allowing true fun _ => rfl

inductive Method where
  | isAtEnd | current | peek | advance | take
  | checkAny (ks : List Kind)
  | expect (k : Kind) (message : String)
  | rule (rank : Nat)
  | arguments (callee : Expr)
  | parameters
  | varDeclaration | expressionStatement | printStatement | returnStatement
  | statement | forStatement | ifStatement | whileStatement | block
  | function (what : String)
  | classDeclaration | declaration
  | program | typedLine | synchronize

def quietly (p : Parse α) : Parse Unit := do
  let _ ← p

def Method.call : Method → (fuel : Nat) → Parse Unit
  | .isAtEnd, _ => quietly Parse.isAtEnd
  | .current, _ => quietly Parse.current
  | .peek, _ => quietly Parse.peek
  | .advance, _ => Parse.advance
  | .take, _ => quietly Parse.take
  | .checkAny ks, _ => quietly (Parse.checkAny ks)
  | .expect k message, _ => quietly (Parse.expect k message)
  | .rule rank, n => quietly (Parse.rule rank n)
  | .arguments callee, n => quietly do
    let args ← Parse.arguments n
    let paren ← Parse.expect .rightParen "Expect ')' after arguments"
    return Expr.call callee paren args
  | .parameters, n => quietly (Parse.parameters n)
  | .varDeclaration, n => quietly (Parse.varDeclaration n)
  | .expressionStatement, n => quietly (Parse.expressionStatement n)
  | .printStatement, n => quietly (Parse.printStatement n)
  | .returnStatement, n => quietly (Parse.returnStatement n)
  | .statement, n => quietly (Parse.statement n)
  | .forStatement, n => quietly (Parse.forStatement n)
  | .ifStatement, n => quietly (Parse.ifStatement n)
  | .whileStatement, n => quietly (Parse.whileStatement n)
  | .block, n => quietly (Parse.block n)
  | .function what, n => quietly (Parse.function n what)
  | .classDeclaration, n => quietly (Parse.classDeclaration n)
  | .declaration, n => quietly (Parse.declaration n)
  | .program, n => quietly (Parse.program n)
  | .typedLine, n => quietly (Parse.typedLine n)
  | .synchronize, n => Parse.synchronize n

/-- The cursor after some calls. A call that is stopped leaves it where it was stopped. -/
def after (ms : List Method) (c : Cursor) : Cursor :=
  ms.foldl (fun c m => final (run m.call c)) c

theorem Sound.quietly (h : Sound w p q) : Sound w (Parse.quietly p) (Parse.quietly q) :=
  h.bind fun _ => soundPure _

theorem soundRule (r : Nat) {n m : Nat} (le : n ≤ m) (enough : 16 * w + 10 ≤ n) :
    Sound w (rule r n) (rule r m) := by
  have spends := exprsSpend le
  by_cases ranked : 1 ≤ r ∧ r ≤ 10
  · exact (spends.rule r ranked.1 ranked.2 (by omega)).sound
  · have last : rule r = rule 10 := by
      unfold rule
      split <;> first | rfl | omega
    rw [last]
    exact (spends.rule 10 (by decide) (by decide) (by omega)).sound

theorem soundCall (x : Method) {n m : Nat} (le : n ≤ m) (enough : 16 * w + 16 ≤ n) :
    Sound w (x.call n) (x.call m) := by
  have exprs := exprsSpend le
  have stmts := stmtsPay le
  cases x with
  | isAtEnd => exact looksIsAtEnd.sound.quietly
  | current => exact looksCurrent.sound.quietly
  | peek => exact looksPeek.sound.quietly
  | advance => exact soundAdvance
  | take => exact soundTake.quietly
  | checkAny ks => exact (looksCheckAny ks).sound.quietly
  | expect k message => exact (soundExpect k message).quietly
  | rule r => exact (soundRule r le (by omega)).quietly
  | arguments callee =>
    refine Sound.quietly (Sound.bind (exprs.arguments (by omega)).sound fun args => ?_)
    exact (soundExpect _ _).bind fun paren => soundPure _
  | parameters =>
    have spends : Spends w 1 1 0 (Parse.parameters n) _ := spendsParameters le (by omega)
    exact spends.sound.quietly
  | varDeclaration => exact (spendsVarDeclaration le (by omega)).sound.quietly
  | expressionStatement => exact (paysExpressionStatement le (by omega)).sound.quietly
  | printStatement => exact (spendsPrintStatement le (by omega)).sound.quietly
  | returnStatement => exact (spendsReturnStatement le (by omega)).sound.quietly
  | statement => exact (stmts.statement (by omega)).sound.quietly
  | forStatement => exact (stmts.forStatement (by omega)).sound.quietly
  | ifStatement => exact (stmts.ifStatement (by omega)).sound.quietly
  | whileStatement => exact (stmts.whileStatement (by omega)).sound.quietly
  | block => exact (stmts.body (by omega)).sound.quietly
  | function what => exact (stmts.function what (by omega)).sound.quietly
  | classDeclaration => exact (stmts.classDeclaration (by omega)).sound.quietly
  | declaration => exact (stmts.declaration (by omega)).sound.quietly
  | program => exact (paysProgram le (by omega)).sound.quietly
  | typedLine => exact (soundTypedLine le (by omega)).quietly
  | synchronize => exact soundSynchronize le (by omega)

def Stopped (p : Nat → Parse α) (c : Cursor) : Prop :=
  ∃ d, run p c = .error .errorLimit d ∧ c.limit ≤ d.errors ∧ c.errors < d.errors ∧
    c.index ≤ d.index ∧ d.index < c.tokens.size

/-- The parser comes to its end at `d`, unless the reports on the way fill the limit. -/
structure Finishes (p : Nat → Parse α) (c d : Cursor) : Prop where
  done : ∀ limit, c.Fits d limit → ∃ a, run p (c.limited limit) = .ok a (d.limited limit)
  stopped : ∀ limit, ¬c.Fits d limit → Stopped p (c.limited limit)

def Endless (p : Nat → Parse α) (c : Cursor) : Prop := ∀ limit, Stopped p (c.limited limit)

def Steady (p : Nat → Parse α) (c : Cursor) (far : Nat) : Prop :=
  ∀ limit limit', limit ≤ limit' →
    Soundly (p (c.limited limit').budget) (c.limited limit) far (run p (c.limited limit))

section

variable {p : Nat → Parse α} {a : α} {d : Cursor} {limit limit' : Nat}

theorem budgetMono (le : limit ≤ limit') : (c.limited limit).budget ≤ (c.limited limit').budget := by
  show 64 * (max c.tokens.size c.index.natAbs + limit + 4) ≤
    64 * (max c.tokens.size c.index.natAbs + limit' + 4)
  omega

theorem steadyOf {todo : List Token} {last : Token} (at' : c.At (todo ++ [last]))
    (eof : last.kind = .eof)
    (sound : ∀ {w n m : Nat}, n ≤ m → 16 * w + 16 ≤ n → Sound w (p n) (p m)) :
    Steady p c todo.length := by
  intro limit limit' le
  have enough := budgetWeight (c := c.limited limit) at'
  rw [runAt]
  exact sound (budgetMono le) enough (c.limited limit) todo last at' eof (Nat.le_refl _)

variable (steady : Steady p c far)

include steady

theorem Steady.agrees (ran : run p (c.limited limit) = .ok a d) (fits : c.Fits d limit') :
    run p (c.limited limit') = .ok a (d.limited limit') := by
  rcases Nat.le_total limit limit' with le | le
  · have sound := steady limit limit' le
    rw [ran] at sound
    exact sound.2.2 limit' fits
  · have sound := steady limit limit (Nat.le_refl limit)
    rw [ran] at sound
    have longer : p (c.limited limit).budget (c.limited limit') = .ok a (d.limited limit') :=
      sound.2.2 limit' fits
    have shorter := steady limit' limit le
    cases run' : run p (c.limited limit') with
    | error s e =>
      rw [run'] at shorter
      have both := longer.symm.trans shorter.2.2.2.2
      cases both
    | ok b e =>
      rw [run'] at shorter
      obtain ⟨within, free, same⟩ := shorter
      have again := same limit' free
      have whole : e.limited limit' = e := Cursor.limitedSelf within.limit
      rw [whole] at again
      exact again.symm.trans longer

theorem Steady.stopped (size : c.index + far < c.tokens.size)
    (never : ∀ a d, run p (c.limited limit) ≠ .ok a d) : Stopped p (c.limited limit) := by
  have sound := steady limit limit (Nat.le_refl limit)
  cases ran : run p (c.limited limit) with
  | ok a d => exact absurd ran (never a d)
  | error s d =>
    rw [ran] at sound
    obtain ⟨within, more, rfl, full, -⟩ := sound
    have before : d.index ≤ c.index + far := within.before
    exact ⟨d, ran, full, more, within.after, Int.lt_of_le_of_lt before size⟩

theorem Steady.finishesOrReports (size : c.index + far < c.tokens.size) :
    (∃ d, c.Within far d ∧ Finishes p c d) ∨ Endless p c := by
  by_cases ends : ∃ limit a d, run p (c.limited limit) = .ok a d
  · obtain ⟨limit, a, d, ran⟩ := ends
    have sound := steady limit limit (Nat.le_refl limit)
    rw [ran] at sound
    have within : c.Within far (d.limited c.limit) := by
      obtain ⟨rest, log, after, before⟩ := sound.1
      refine ⟨?_, log, after, before⟩
      rw [rest]
      rfl
    refine .inl ⟨d.limited c.limit, within, ?_, ?_⟩
    · exact fun limit' fits => ⟨a, steady.agrees (d := d) ran fits⟩
    -- A run that ends under a limit does not fill it, and comes to the same cursor.
    refine fun limit' full => steady.stopped size fun b e ran' => full ?_
    have sound' := steady limit' limit' (Nat.le_refl limit')
    rw [ran'] at sound'
    obtain ⟨wide, above, above'⟩ : ∃ wide, d.errors < wide ∧ e.errors < wide :=
      ⟨d.errors + e.errors + 1, by omega, by omega⟩
    have both := (steady.agrees ran (.inr above)).symm.trans (steady.agrees ran' (.inr above'))
    have same : d.limited wide = e.limited wide := by injection both
    have errors : (d.limited wide).errors = (e.limited wide).errors := by rw [same]
    have errors : d.errors = e.errors := errors
    have fits : c.Fits e limit' := sound'.2.1
    unfold Cursor.Fits at fits ⊢
    show d.errors = c.errors ∨ d.errors < limit'
    omega
  · exact .inr fun limit => steady.stopped size fun a d ran => ends ⟨limit, a, d, ran⟩

end

section

variable {todo : List Token} {last : Token} (at' : c.At (todo ++ [last])) (eof : last.kind = .eof)

include at' eof

theorem callSteady (x : Method) : Steady x.call c todo.length :=
  steadyOf at' eof (soundCall x)

theorem withinAfter (xs : List Method) : c.Within todo.length (after xs c) := by
  induction xs generalizing c todo with
  | nil => exact .stay c _
  | cons x xs ih =>
    have within : c.Within todo.length (final (run x.call c)) :=
      (callSteady at' eof x c.limit c.limit (Nat.le_refl c.limit)).within
    obtain ⟨left, at₁, there⟩ := within.ahead at'
    exact within.trans there (ih at₁)

theorem silentProgramEnds (silent : (final (run program c)).errors = c.errors) :
    ∃ body d, run program c = .ok body d ∧ d.index + 1 = c.tokens.size := by
  have enough := budgetWeight at'
  have sound : Soundly _ c todo.length (run program c) :=
    (paysProgram (Nat.le_refl c.budget) (by omega)).sound c todo last at' eof (Nat.le_refl _)
  cases ran : run program c with
  | error s d =>
    rw [ran] at sound silent
    exact absurd silent (Nat.ne_of_gt sound.2.1)
  | ok body d =>
    rw [ran] at sound
    refine ⟨body, d, rfl, ?_⟩
    rw [← sound.1.tokens]
    exact beq_iff_eq.mp (unfinishedEnds ran)

end

/-- Between the calls the index is that of a token, and it never goes back; the console shows that
no fault was caught. Each call comes to its end or reports without end. -/
theorem callsKeepTheirPlace {c c' : Cursor} {ts : List Token} {last : Token} {xs : List Method}
    (tokens : c.tokens = ((ts ++ [last]).map some).toArray) (eof : last.kind = .eof)
    (low : 0 ≤ c.index) (high : c.index ≤ ts.length) (calls : after xs c = c') :
    (c.index ≤ c'.index ∧ c'.index ≤ ts.length) ∧
      (c'.tokens = c.tokens ∧ c'.console = c.console ∧ c.log <+: c'.log) ∧
      (∀ x : Method, (∃ d, Finishes x.call c' d ∧ c'.index ≤ d.index ∧ d.index ≤ ts.length) ∨
        Endless x.call c') ∧
      (c'.index < ts.length →
        (∃ d, Finishes declaration c' d ∧ (c'.index < d.index ∨ c'.errors < d.errors)) ∨
          Endless declaration c') ∧
      ((final (run program c')).errors = c'.errors →
        ∃ body d, run program c' = .ok body d ∧ d.index = ts.length) := by
  have at' : c.At (ts.drop c.index.toNat ++ [last]) := by
    refine ⟨c.index.toNat, by omega, ?_⟩
    rw [tokens, ← List.drop_append_of_le_length (by omega), List.map_drop]
  have length : (ts.drop c.index.toNat).length = ts.length - c.index.toNat := List.length_drop
  have within := withinAfter at' eof xs
  rw [calls] at within
  obtain ⟨left, at₁, there⟩ := within.ahead at'
  obtain ⟨es, log⟩ := within.log
  have size : c'.tokens.size = ts.length + 1 := by
    rw [within.tokens, tokens]
    simp
  refine ⟨⟨within.after, by omega⟩, ⟨within.tokens, by rw [within.rest], ⟨_, log.symm⟩⟩, ?_, ?_, ?_⟩
  · intro x
    refine ((callSteady at₁ eof x).finishesOrReports (by omega)).imp_left ?_
    rintro ⟨d, later, ends⟩
    have before := later.before
    exact ⟨d, ends, later.after, by omega⟩
  · intro before
    have steady : Steady declaration c' left.length :=
      steadyOf at₁ eof fun le enough => ((stmtsPay le).declaration (by omega)).sound
    refine (steady.finishesOrReports (by omega)).imp_left ?_
    rintro ⟨d, -, ends⟩
    refine ⟨d, ends, ?_⟩
    cases left with
    | nil =>
      simp only [List.length_nil] at there
      omega
    | cons t left =>
      obtain ⟨s, ran⟩ := ends.done (d.errors + 1) (.inr (Nat.lt_succ_self _))
      have enough := budgetWeight (c := c'.limited (d.errors + 1)) at₁
      have moves := declarationAdvances (c := c'.limited (d.errors + 1)) at₁ eof (by omega)
        (show declaration (c'.limited (d.errors + 1)).budget _ = _ from ran)
      exact moves
  · intro silent
    obtain ⟨body, d, ran, ends⟩ := silentProgramEnds at₁ eof silent
    exact ⟨body, d, ran, by omega⟩

def strayTokens : List Token :=
  [.keyword .else_, .keyword .class_, .identifier "A", .mark .leftBrace, .mark .rightParen]

def strayCursor : Cursor :=
  ⟨((strayTokens ++ [Token.eof]).map some).toArray, 1, 25, [], #[], true, false⟩

def strayCalls : List Method :=
  [.declaration, .synchronize, .expect .eof "Expect the end.", .typedLine]

theorem callsKeepTheirPlace_stray :
    (0 ≤ strayCursor.index ∧ strayCursor.index ≤ strayTokens.length ∧ Token.eof.kind = .eof) ∧
      (strayCursor.index ≤ (after strayCalls strayCursor).index ∧
        (after strayCalls strayCursor).index ≤ strayTokens.length) ∧
      (after strayCalls strayCursor).console = #[] ∧
      (∀ x : Method, (∃ d, Finishes x.call (after strayCalls strayCursor) d ∧
          (after strayCalls strayCursor).index ≤ d.index ∧ d.index ≤ strayTokens.length) ∨
        Endless x.call (after strayCalls strayCursor)) := by
  have low : 0 ≤ strayCursor.index := by decide
  have high : strayCursor.index ≤ strayTokens.length := by decide
  have tokens : strayCursor.tokens = ((strayTokens ++ [Token.eof]).map some).toArray := rfl
  have calls : after strayCalls strayCursor = after strayCalls strayCursor := rfl
  obtain ⟨range, ⟨-, console, -⟩, each, -, -⟩ := callsKeepTheirPlace tokens rfl low high calls
  exact ⟨⟨low, high, rfl⟩, range, console, each⟩

def openBlock : Cursor :=
  ⟨([.mark .leftBrace, .mark .rightParen, Token.eof].map some).toArray, 0, 25, [], #[], true, false⟩

theorem skipOther {yes no : Parse α} {k : Kind} {t : Token} {ts : List Token} (at' : c.At (t :: ts))
    (other : t.kind ≠ k) : (do if ← skip k then yes else no : Parse α) c = no c := by
  rw [branchesSkip k _ c t ts at', if_neg (by simpa using other)]
  rfl

theorem openBlockStuck {n : Nat} {o t last : Token} {todo : List Token} {s : Stmt}
    (at' : c.At (o :: (t :: todo ++ [last]))) (brace : o.kind = .leftBrace)
    (eof : last.kind = .eof) (blocks : t.kind.blocks = true) (other : t.kind ≠ .rightBrace) :
    declared (n + 2) c ≠ .ok s c' := by
  have enters : declared (n + 2) c = (do return .block (← block (n + 1)) : Parse Stmt) c.next := by
    have apart : ∀ k, o.kind ≠ .keyword k := by simp [brace]
    rw [declared, announced, skipOther at' (apart _), skipOther at' (apart _),
      skipOther at' (apart _), statement, skipOther at' (apart _), skipOther at' (apart _),
      skipOther at' (apart _), skipOther at' (apart _), skipOther at' (apart _),
      branchesSkip _ _ c o _ at', if_pos (by simp [brace])]
    rfl
  rw [enters]
  intro ran
  obtain ⟨body, c₁, ran, -⟩ := bindOk.mp ran
  rw [block] at ran
  obtain ⟨ss, c₂, loop, -⟩ := bindOk.mp ran
  have go : inside t (todo ++ [last]) = true := by simp [inside, other]
  have stuck := stuckDeclarations (n := n) (j := n) looksBlock (at'.behind (by simp)) eof blocks go
  rw [loop] at stuck
  exact stuck

theorem openBlockNeverReturns : Endless declaration openBlock := by
  have at' : openBlock.At ([.mark .leftBrace, .mark .rightParen] ++ [Token.eof]) := ⟨0, rfl, rfl⟩
  have steady : Steady declaration openBlock _ :=
    steadyOf at' rfl fun le enough => ((stmtsPay le).declaration (by omega)).sound
  refine (steady.finishesOrReports (by decide)).resolve_left ?_
  rintro ⟨d, -, ends⟩
  obtain ⟨s, ran⟩ := ends.done (d.errors + 1) (.inr (Nat.lt_succ_self _))
  obtain ⟨n, budget⟩ : ∃ n, (openBlock.limited (d.errors + 1)).budget = n + 3 :=
    ⟨(openBlock.limited (d.errors + 1)).budget - 3, by unfold Cursor.budget; omega⟩
  have enough := budgetWeight (c := openBlock.limited (d.errors + 1)) at'
  rw [runAt, budget, declarationRun (c := openBlock.limited (d.errors + 1)) at' rfl (by omega)]
    at ran
  exact openBlockStuck (c := openBlock.limited (d.errors + 1)) at' rfl rfl rfl (by decide) ran

end Parse
end Lox
