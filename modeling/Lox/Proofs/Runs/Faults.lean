import Lox.Evaluation.Machine

/-!
Faults that come from the scopes alone: a frame, a name in a frame or an entry that is not there.
No operation on values has one of them.
-/

namespace Lox

def Fault.ofScope : Fault → Bool
  | .noKey _ | .noSuperEntry | .noEnclosing => true
  | _ => false

def Mild {α : Type} (x : Except Fault α) : Prop :=
  ∀ f, x = .error f → f.ofScope = false

variable {α β : Type}

theorem mildOk (a : α) : Mild (.ok a) := by rintro f ⟨⟩

theorem mildError {f : Fault} (h : f.ofScope = false) : Mild (.error f : Except Fault α) := by
  rintro _ ⟨⟩
  exact h

theorem Mild.bind {x : Except Fault α} {f : α → Except Fault β} (first : Mild x)
    (rest : ∀ a, Mild (f a)) : Mild (x >>= f) := by
  cases x with
  | ok a => exact rest a
  | error e => exact mildError (first e rfl)

theorem mildMapM {f : α → Except Fault β} (each : ∀ a, Mild (f a)) (as : List α) :
    Mild (as.mapM f) := by
  induction as with
  | nil => exact mildOk []
  | cons a as ih =>
    rw [List.mapM_cons]
    exact (each a).bind fun b => ih.bind fun bs => mildOk (b :: bs)

theorem mildToFloat (q : Quantity) : Mild q.toFloat := by
  unfold Quantity.toFloat
  split
  · exact mildOk _
  · split
    · exact mildOk _
    · exact mildError rfl

theorem mildCombine (ints : Int → Int → Int) (floats : Float → Float → Float) (a b : Quantity) :
    Mild (Quantity.combine ints floats a b) := by
  unfold Quantity.combine
  split
  · exact mildOk _
  · exact (mildToFloat _).bind fun _ => (mildToFloat _).bind fun _ => mildOk _

theorem mildDivide (a b : Quantity) : Mild (Quantity.divide a b) := by
  unfold Quantity.divide
  split
  · split
    · exact mildError rfl
    · split
      · exact mildOk _
      · exact mildError rfl
  · refine (mildToFloat _).bind fun x => (mildToFloat _).bind fun y => ?_
    split
    · exact mildError rfl
    · exact mildOk _

theorem mildRepeat (memory : Nat) (s : String) (count : Int) :
    Mild (repeatText memory s count) := by
  unfold repeatText
  dsimp only
  repeat' split
  all_goals first | exact mildOk _ | exact mildError rfl

theorem mildMixed (memory : Nat) (op : Arithmetic) (l r : Value) :
    Mild (Value.mixed memory op l r) := by
  unfold Value.mixed
  split
  · exact mildOk _
  · exact mildError rfl
  · split
    · exact mildRepeat _ _ _
    · exact mildError rfl
  · split
    · exact mildRepeat _ _ _
    · exact mildError rfl
  · exact mildError rfl

theorem mildArithmetic (memory : Nat) (op : Arithmetic) (l r : Value) :
    Mild (l.arithmetic memory op r) := by
  unfold Value.arithmetic
  split
  · cases op with
    | add | sub | mul => exact mildCombine _ _ _ _
    | div => exact mildDivide _ _
  · exact mildMixed memory op l r

theorem mildCompare (op : Comparison) (l r : Value) : Mild (l.compare op r) := by
  unfold Value.compare
  repeat' split
  all_goals first | exact mildOk _ | exact mildError rfl

theorem mildNegate (v : Value) : Mild v.negate := by
  unfold Value.negate
  split
  · exact mildOk _
  · exact mildOk _
  · exact mildError rfl

theorem mildTruth (v : Value) : Mild v.truth := by
  unfold Value.truth
  split
  · exact mildOk _
  · exact mildOk _
  · exact mildError rfl
  · exact mildOk _

theorem mildComplement (v : Value) : Mild v.complement :=
  (mildTruth v).bind fun _ => mildOk _

theorem mildEqualAll {eq : Value → Value → Except Fault Bool} (each : ∀ a b, Mild (eq a b)) :
    ∀ as bs : List Value, Mild (Value.equalAll eq as bs)
  | [], [] => mildOk _
  | [], _ :: _ => mildOk _
  | _ :: _, [] => mildOk _
  | a :: as, b :: bs => by
    unfold Value.equalAll
    split
    · exact mildEqualAll each as bs
    · refine (each a b).bind fun same => ?_
      split
      · exact mildEqualAll each as bs
      · exact mildOk _

theorem mildEqualWith (s : Store) (n : Nat) (a b : Value) : Mild (Value.equalWith s n a b) := by
  induction n generalizing a b with
  | zero => exact mildError rfl
  | succ n ih =>
    unfold Value.equalWith
    split
    · have arrays : Mild (Value.arraysOf a b) := by
        unfold Value.arraysOf
        split
        · exact mildOk _
        · exact mildError rfl
        · exact mildError rfl
      refine arrays.bind fun ij => ?_
      obtain ⟨i, j⟩ := ij
      dsimp only
      split
      · exact mildEqualAll ih _ _
      · exact mildOk _
    · split
      · exact mildOk _
      · exact mildOk _

theorem mildEqual (s : Store) (a b : Value) : Mild (a.equal s b) := mildEqualWith s _ a b

theorem mildShownDatum (d : Datum) : Mild d.shown := by
  unfold Datum.shown
  split
  · split
    · exact mildError rfl
    · exact mildOk _
  · exact mildOk _

theorem mildQuotedDatum (d : Datum) : Mild d.quoted := by
  unfold Datum.quoted
  split
  · exact mildOk _
  · exact mildShownDatum d

theorem mildQuotedWith (s : Store) (n : Nat) (opened : List Nat) (v : Value) :
    Mild (Value.quotedWith s n opened v) := by
  induction n generalizing opened v with
  | zero => cases v <;> first | exact mildOk _ | exact mildQuotedDatum _
  | succ n ih =>
    cases v with
    | array id =>
      unfold Value.quotedWith
      split
      · exact mildOk _
      · exact (mildMapM (fun v => ih (id :: opened) v) _).bind fun _ => mildOk _
    | datum d => exact mildQuotedDatum d
    | _ => exact mildOk _

theorem mildShown (s : Store) (v : Value) : Mild (v.shown s) := by
  unfold Value.shown
  split
  · exact mildShownDatum _
  · exact mildQuotedWith s _ [] v

theorem mildToInteger (v : Value) : Mild v.toInteger := by
  unfold Value.toInteger
  split
  · exact mildOk _
  · exact mildOk _
  · unfold integerOfFloat
    split
    · exact mildError rfl
    · exact mildError rfl
    · exact mildOk _
  · unfold integerOfText
    split
    · exact mildOk _
    · exact mildError rfl
    · exact mildError rfl
  · exact mildError rfl

theorem mildCellOf (size : Nat) (index : Value) {outside : Fault} (h : outside.ofScope = false) :
    Mild (cellOf size index outside) := by
  refine (mildToInteger index).bind fun i => ?_
  split
  · exact mildError rfl
  · split
    · exact mildOk _
    · exact mildError h

theorem mildCellCount (memory : Nat) (size : Int) : Mild (cellCount memory size) := by
  unfold cellCount
  repeat' split
  all_goals first | exact mildOk _ | exact mildError rfl

theorem mildReadCell (s : Store) (id : Nat) (index : Value) : Mild (s.readCell id index) :=
  (mildCellOf _ index rfl).bind fun _ => mildOk _

theorem mildLexeme (t : Option Token) : Mild (Lox.lexeme t) := by
  cases t with
  | none => exact mildError rfl
  | some u => exact mildOk u.lexeme

theorem mildRead (s : Store) (env : Env) (t : Token) : Mild (s.read env t) := by
  unfold Store.read
  split
  · exact mildOk _
  · exact mildError rfl

theorem mildParameters (ps : List (Option Token)) (args : List Value) (b : Bindings Value) :
    Mild (Eval.bindParameters ps args b) := by
  induction ps generalizing args b with
  | nil => exact mildOk b
  | cons p ps ih =>
    refine (mildLexeme p).bind fun name => ?_
    cases args with
    | nil => exact mildError rfl
    | cons v rest => exact ih rest _

theorem mildMethods (env : Env) (fs : List FunDecl) (b : Bindings Routine) :
    Mild (Eval.methodTable env fs b) := by
  induction fs generalizing b with
  | nil => exact mildOk b
  | cons f fs ih => exact (mildLexeme f.name).bind fun name => ih _

end Lox
