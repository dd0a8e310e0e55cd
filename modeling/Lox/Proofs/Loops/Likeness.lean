import Lox.Evaluation.Run
import Lox.Proofs.Loops.Worlds

/-!
What values that are alike have in common: their type, truth and text, the results of operators on
them, which of them are equal, and what a call or a class puts into a store.
-/

namespace Lox

variable {T : Tables} {w : World} {s s' : Store}

namespace Tables.Alike

variable {a a' b b' : Value}

theorem typeName (h : T.Alike w a a') : a.typeName = a'.typeName := by
  cases h <;> rfl

theorem truth (h : T.Alike w a a') : a.truth = a'.truth := by
  cases h <;> rfl

theorem toInteger (h : T.Alike w a a') : a.toInteger = a'.toInteger := by
  cases h <;> rfl

theorem negate (h : T.Alike w a a') : a.negate = a'.negate := by
  cases h <;> rfl

theorem complement (h : T.Alike w a a') : a.complement = a'.complement := by
  unfold Value.complement
  rw [h.truth]

theorem quantity (h : T.Alike w a a') : a.quantity? = a'.quantity? := by
  cases h <;> rfl

theorem arithmetic (left : T.Alike w a a') (right : T.Alike w b b') (memory : Nat)
    (op : Arithmetic) : a.arithmetic memory op b = a'.arithmetic memory op b' := by
  unfold Value.arithmetic
  rw [left.quantity, right.quantity]
  split
  · rfl
  · cases left with
    | datum d =>
      cases right with
      | datum => rfl
      | _ => cases op <;> cases d <;> rfl
    | _ =>
      cases right with
      | datum d => cases op <;> cases d <;> rfl
      | _ => cases op <;> rfl

theorem compare (left : T.Alike w a a') (right : T.Alike w b b') (op : Comparison) :
    a.compare op b = a'.compare op b' := by
  unfold Value.compare
  rw [left.quantity, right.quantity]
  split
  · rfl
  · cases left with
    | datum d =>
      cases right with
      | datum => rfl
      | _ => cases d <;> rfl
    | _ => cases right <;> rfl

theorem arity (h : T.Alike w a a') : a.arity? = a'.arity? := by
  cases h with
  | function id name routine =>
    obtain ⟨π, -, twin, -⟩ := routine.closed
    exact congrArg (fun ps => some ps.length) twin.paramsSame
  | @class_ c c' layers =>
    show some c.arity = some c'.arity
    unfold Class.arity
    rcases relCases (layers.found Class.initializer) with
      ⟨left, right⟩ | ⟨r, r', left, right, found⟩ <;> rw [left, right]
    obtain ⟨π, -, twin⟩ := found.closed
    exact congrArg (fun ps => some ps.length) twin.paramsSame
  | _ => rfl

theorem identical (left : T.Alike w a a') (right : T.Alike w b b') :
    a.identical b = a'.identical b' := by
  cases left with
  | datum d =>
    cases right with
    | datum => rfl
    | _ => cases d <;> rfl
  | class_ layers =>
    cases right with
    | class_ layers' => exact congrArg₂ (· == ·) layers.own.id layers'.own.id
    | _ => rfl
  | _ => cases right <;> rfl

theorem isArray (h : T.Alike w a a') : a.isArray = a'.isArray := by
  cases h <;> rfl

theorem elementsOf (h : T.Alike w a a') : a.elementsOf? = a'.elementsOf? := by
  cases h <;> rfl

theorem arraysOf (left : T.Alike w a a') (right : T.Alike w b b') :
    a.arraysOf b = a'.arraysOf b' := by
  unfold Value.arraysOf
  rw [left.elementsOf, right.elementsOf, left.typeName, right.typeName]

end Tables.Alike

theorem equalAllSame {eq eq' : Value → Value → Except Fault Bool}
    (same : ∀ {a a' b b'}, T.Alike w a a' → T.Alike w b b' → eq a b = eq' a' b')
    {as as' bs bs' : List Value} (left : List.Forall₂ (T.Alike w) as as')
    (right : List.Forall₂ (T.Alike w) bs bs') :
    Value.equalAll eq as bs = Value.equalAll eq' as' bs' := by
  induction left generalizing bs bs' with
  | nil => cases right <;> rfl
  | cons head _ ih =>
    cases right with
    | nil => rfl
    | cons head' tail' =>
      unfold Value.equalAll
      rw [head.identical head', same head head', ih tail']

theorem equalWithSame (h : Mirrors T w s s') {a a' b b' : Value} (left : T.Alike w a a')
    (right : T.Alike w b b') (n : Nat) : Value.equalWith s n a b = Value.equalWith s' n a' b' := by
  induction n generalizing a a' b b' with
  | zero => rfl
  | succ n ih =>
    unfold Value.equalWith
    rw [left.isArray, right.isArray, left.arraysOf right]
    split
    · cases a'.arraysOf b' with
      | error f => rfl
      | ok pair =>
        obtain ⟨i, j⟩ := pair
        have sizes : ∀ id, (s.elements id).size = (s'.elements id).size :=
          fun id => (h.arrays id).length_eq
        simp only [bind, Except.bind, sizes]
        rw [equalAllSame ih (h.arrays i) (h.arrays j)]
    · have same := left.identical right
      cases left <;> cases right <;> first | rfl | exact congrArg Except.ok same

theorem equalSame (h : Mirrors T w s s') {a a' b b' : Value} (left : T.Alike w a a')
    (right : T.Alike w b b') : a.equal s b = a'.equal s' b' := by
  unfold Value.equal
  rw [h.arrayCount, equalWithSame h left right]

theorem mapSame {f g : Value → Except Fault String} {as bs : List Value}
    (h : List.Forall₂ (fun a b => f a = g b) as bs) : as.mapM f = bs.mapM g := by
  induction h with
  | nil => rfl
  | cons head _ ih => rw [List.mapM_cons, List.mapM_cons, head, ih]

theorem quotedWithSame (h : Mirrors T w s s') {a a' : Value} (value : T.Alike w a a') (n : Nat)
    (opened : List Nat) : a.quotedWith s n opened = a'.quotedWith s' n opened := by
  induction n generalizing a a' opened with
  | zero =>
    cases value with
    | class_ layers => exact congrArg Except.ok layers.text
    | instance_ id layers =>
      exact congrArg (fun name => Except.ok (name ++ " instance")) layers.own.name
    | _ => rfl
  | succ n ih =>
    cases value with
    | class_ layers => exact congrArg Except.ok layers.text
    | instance_ id layers =>
      exact congrArg (fun name => Except.ok (name ++ " instance")) layers.own.name
    | array id =>
      unfold Value.quotedWith
      rw [mapSame ((h.arrays id).imp fun _ _ item => ih item (id :: opened))]
    | _ => rfl

theorem shownSame (h : Mirrors T w s s') {a a' : Value} (value : T.Alike w a a') :
    a.shown s = a'.shown s' := by
  have quoted : a.quoted s = a'.quoted s' := by
    unfold Value.quoted
    rw [h.arrayCount, quotedWithSame h value]
  cases value <;> first | rfl | exact quoted

theorem cellSame (h : Mirrors T w s s') (id : Nat) {index index' : Value}
    (value : T.Alike w index index') (outside : Fault) :
    cellOf (s.elements id).size index outside = cellOf (s'.elements id).size index' outside := by
  unfold cellOf
  rw [value.toInteger, show (s.elements id).size = _ from (h.arrays id).length_eq]
  rfl

theorem readCellSame (h : Mirrors T w s s') (id : Nat) {index index' : Value}
    (value : T.Alike w index index') :
    Concur (T.Alike w) (s.readCell id index) (s'.readCell id index') := by
  unfold Store.readCell
  dsimp only
  rw [cellSame h id value]
  refine (concurSame _).bind fun c c' same => .ok ?_
  subst same
  rw [Array.getD_eq_getD_getElem?, Array.getD_eq_getD_getElem?, ← Array.getElem?_toList,
    ← Array.getElem?_toList]
  rcases relCases (relNth (h.arrays id) c) with ⟨left, right⟩ | ⟨v, v', left, right, item⟩ <;>
    rw [left, right]
  · exact .datum .nil
  · exact item

theorem parametersSame (params : List (Option Token)) {args args' : List Value}
    (values : List.Forall₂ (T.Alike w) args args') {b b' : Bindings Value}
    (old : Bindings.Alike (T.Alike w) b b') :
    Concur (Bindings.Alike (T.Alike w)) (Eval.bindParameters params args b)
      (Eval.bindParameters params args' b') := by
  induction params generalizing args args' b b' with
  | nil => exact .ok old
  | cons p ps ih =>
    refine (concurSame (Lox.lexeme p)).bind fun name name' same => ?_
    subst same
    cases values with
    | nil => exact .error _
    | cons value rest => exact ih rest (old.put value name)

theorem methodsSame {π : Layout} {E F : Env} (fits : w.Fits π E F) {fs fs' : List FunDecl}
    (twins : FunDecl.Twins T (.both :: π) fs fs') {b b' : Bindings Routine}
    (old : Bindings.Alike (T.Bindable w) b b') :
    Concur (Bindings.Alike (T.Bindable w)) (Eval.methodTable E fs b)
      (Eval.methodTable F fs' b') := by
  induction fs generalizing fs' b b' with
  | nil =>
    cases twins
    exact .ok old
  | cons f fs ih =>
    cases twins with
    | cons first rest =>
      cases first with
      | mk name params body =>
        refine (concurSame (Lox.lexeme name)).bind fun text text' same => ?_
        subst same
        have method : T.Bindable w ⟨.mk name params _, E, text == "this"⟩
            ⟨.mk name params _, F, text == "this"⟩ :=
          ⟨⟨π, fits, .mk name params body⟩, rfl⟩
        exact ih rest (old.put method text)

end Lox
