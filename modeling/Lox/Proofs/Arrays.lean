import Lox.Proofs.Runs.Deeds
import Mathlib.Data.Rat.Floor

/-!
Arrays as maps. Whatever was run before, an array has as many cells as it was made with, its size
without the fraction; a cell holds the value that was set last under an index that denotes it, or
nothing; and an index that denotes no cell is refused and changes nothing.
-/

namespace Lox

open Eval

namespace Number

def Binary.value (b : Binary) : ℚ := b.mantissa * 2 ^ b.exponent

def floatValue? (x : Float) : Option ℚ :=
  match parts x with
  | .finite negative b => some (if negative then -b.value else b.value)
  | _ => none

def towardZero (q : ℚ) : ℤ := if q < 0 then ⌈q⌉ else ⌊q⌋

theorem towardZeroInt (i : ℤ) : towardZero i = i := by
  simp [towardZero]

theorem towardZeroNeg (q : ℚ) : towardZero (-q) = -towardZero q := by
  unfold towardZero
  rcases lt_trichotomy q 0 with neg | rfl | pos
  · simp [neg, neg.le, Int.floor_neg]
  · simp
  · simp [pos, pos.le, Int.ceil_neg]

theorem Binary.valueNonneg (b : Binary) : 0 ≤ b.value :=
  mul_nonneg (Nat.cast_nonneg _) (zpow_nonneg zero_le_two _)

theorem Binary.floorValue (b : Binary) : ⌊b.value⌋ = b.floor := by
  unfold Binary.value Binary.floor
  split
  · next nonneg =>
    obtain ⟨k, exponent⟩ := Int.eq_ofNat_of_zero_le nonneg
    rw [exponent]
    have whole : (b.mantissa : ℚ) * 2 ^ (k : ℤ) = ((b.mantissa * 2 ^ k : ℕ) : ℚ) := by
      push_cast
      rfl
    rw [whole, Int.floor_natCast]
    rfl
  · next negative =>
    obtain ⟨k, exponent⟩ := Int.eq_ofNat_of_zero_le (show 0 ≤ -b.exponent by omega)
    have same : b.exponent = -(k : ℤ) := by omega
    have quotient : (b.mantissa : ℚ) * 2 ^ (-(k : ℤ)) =
        ((b.mantissa : ℤ) : ℚ) / ((2 ^ k : ℕ) : ℚ) := by
      rw [zpow_neg, zpow_natCast, div_eq_mul_inv]
      push_cast
      rfl
    rw [same, quotient, Rat.floor_intCast_div_natCast, neg_neg, Int.toNat_natCast]
    exact (Int.natCast_ediv b.mantissa (2 ^ k)).symm

theorem signedFloor (negative : Bool) (b : Binary) :
    signed negative b.floor = towardZero (if negative then -b.value else b.value) := by
  have magnitude : towardZero b.value = b.floor := by
    unfold towardZero
    rw [if_neg (not_lt.mpr b.valueNonneg), b.floorValue]
  cases negative with
  | true => exact (congrArg Neg.neg magnitude.symm).trans (towardZeroNeg _).symm
  | false => exact magnitude.symm

end Number

open Number

def Value.number? : Value → Option ℚ
  | .bool b => some b.toInt
  | .int i => some i
  | .datum (.float x _) => floatValue? x
  | _ => none

theorem Value.toIntegerNumber {v : Value} {q : ℚ} (h : v.number? = some q) :
    v.toInteger = .ok (towardZero q) := by
  unfold Value.number? at h
  split at h
  · cases h
    rw [towardZeroInt]
    rfl
  · cases h
    rw [towardZeroInt]
    rfl
  · next x _ =>
    show integerOfFloat x = _
    unfold floatValue? at h
    unfold integerOfFloat
    split at h
    · next negative b parts =>
      cases h
      rw [parts, ← signedFloor]
    · cases h
  · cases h

structure Answers (h : List Deed) (id n : Nat) (m : Machine) (k a : Nat) (index : Value) (t : Int) :
    Prop where
  read : ∀ c, Denotes n t c →
    call (k + 1) (.accessor a .read id) [index] m = .ok ((lastSet n h id c).getD .nil) m
  unread : (∀ c, ¬Denotes n t c) →
    call (k + 1) (.accessor a .read id) [index] m =
      .error (.fault (if isIndexSized t then .outOfRange else .indexTooWide)) m
  set : ∀ c v, Denotes n t c →
    call (k + 1) (.accessor a .write id) [index, v] m =
        .ok v { m with store := m.store.setElement id c v } ∧
      (Task.call (.accessor a .write id) [index, v]).noted .deeds (k + 1) m = [.set id index v]
  unset : (∀ c, ¬Denotes n t c) → ∀ v,
    call (k + 1) (.accessor a .write id) [index, v] m =
        .error (.fault (if isIndexSized t then .outOfRangeWrite else .indexTooWide)) m ∧
      (Task.call (.accessor a .write id) [index, v]).noted .deeds (k + 1) m = []

structure Offers (h : List Deed) (id n : Nat) (m : Machine) : Prop where
  length : ∀ t : Token, t.lexeme = "length" →
    getProperty (.array id) (some t) m = .ok (.int n) m
  reader : ∀ t : Token, t.lexeme = "get" → getProperty (.array id) (some t) m =
    .ok (.accessor m.store.nextId .read id) { m with store := m.store.freshId.2 }
  writer : ∀ t : Token, t.lexeme = "set" → getProperty (.array id) (some t) m =
    .ok (.accessor m.store.nextId .write id) { m with store := m.store.freshId.2 }
  answers : ∀ k a index t, index.toInteger = .ok t → Answers h id n m k a index t

structure Making (memory : Nat) (h : List Deed) (m : Machine) (k : Nat) (size : Value) (t : Int) :
    Prop where
  made : isIndexSized t = true → t ≤ memory →
    (∃ m', call (k + 1) .arrayMaker [size] m = .ok (.array (sizes h).length) m') ∧
      (Task.call .arrayMaker [size]).noted .deeds (k + 1) m = [.make size]
  refused : isIndexSized t = false ∨ memory < t →
    call (k + 1) .arrayMaker [size] m =
        .error (.fault (if isIndexSized t then .outOfMemory else .countTooWide)) m ∧
      (Task.call .arrayMaker [size]).noted .deeds (k + 1) m = []
  size : sizes (h ++ [.make size]) = sizes h ++ [(max 0 t).toNat]

structure ArraysFollow (memory : Nat) (h : List Deed) (m : Machine) : Prop where
  making : ∀ k size t, size.toInteger = .ok t → Making memory h m k size t
  offers : ∀ id n, (sizes h)[id]? = some n → Offers h id n m

section

variable {memory : Nat} {h : List Deed} {m : Machine} {id n : Nat} {k a : Nat} {index size v : Value}
  {t : Int} {f : Fault}

theorem callReadOk (run : m.store.readCell id index = .ok v) :
    call (k + 1) (.accessor a .read id) [index] m = .ok v m := by
  show lift (m.store.readCell id index) m = _
  rw [run]
  rfl

theorem callReadError (run : m.store.readCell id index = .error f) :
    call (k + 1) (.accessor a .read id) [index] m = .error (.fault f) m := by
  show lift (m.store.readCell id index) m = _
  rw [run]
  rfl

theorem answersAfter (enacted : (Store.initial memory).Enacts h m.store) (live : (sizes h)[id]? = some n)
    (whole : index.toInteger = .ok t) : Answers h id n m k a index t := by
  have there : m.store.sizes[id]? = some n := enacted.sizesMade ▸ live
  have count : (m.store.elements id).size = n := Store.elementsSize there
  have small : isIndexSized n = true := enacted.small n (List.mem_of_getElem? live)
  refine ⟨?_, ?_, ?_, ?_⟩
  · intro c denotes
    have cell : m.store.cellAt id c = (lastSet n h id c).getD .nil := enacted.cells id n there c
    rw [← cell]
    refine callReadOk (Store.readCellOk ?_)
    rw [count, cellOfDenotes small whole denotes]
  · intro outside
    refine callReadError (Store.readCellError ?_)
    rw [count, cellOfOutside whole outside]
  · intro c v denotes
    have run : Store.writeCell id index v m.store = .ok () (m.store.setElement id c v) := by
      unfold Store.writeCell
      rw [count, cellOfDenotes small whole denotes]
    exact ⟨callSetOk run, Task.deedsOk rfl (callSetOk run)⟩
  · intro outside v
    have run : Store.writeCell id index v m.store =
        .error (if isIndexSized t then .outOfRangeWrite else .indexTooWide) m.store := by
      unfold Store.writeCell
      rw [count, cellOfOutside whole outside]
    exact ⟨callSetError run, Task.deedsError rfl (callSetError run)⟩

theorem offersAfter (enacted : (Store.initial memory).Enacts h m.store) (live : (sizes h)[id]? = some n) :
    Offers h id n m where
  length t named := by
    have there : m.store.sizes[id]? = some n := enacted.sizesMade ▸ live
    refine onStoreOk (x := Store.arrayMember id t) ?_
    simp [Store.arrayMember, named, Store.elementsSize there]
  reader t named := by
    refine onStoreOk (x := Store.arrayMember id t) ?_
    simp [Store.arrayMember, named, Store.freshId]
  writer t named := by
    refine onStoreOk (x := Store.arrayMember id t) ?_
    simp [Store.arrayMember, named, Store.freshId]
  answers _ _ _ _ whole := answersAfter enacted live whole

theorem makingAfter (enacted : (Store.initial memory).Enacts h m.store) (whole : size.toInteger = .ok t) :
    Making memory h m k size t := by
  have count : size.toInteger >>= cellCount m.store.memory = cellCount memory t := by
    rw [whole, enacted.memory]
    rfl
  refine ⟨?_, ?_, ?_⟩
  · intro sized fits
    have fits : cellCount memory t = .ok t.toNat := by
      simp [cellCount, sized]
      omega
    have number : m.store.arrays.size = (sizes h).length := by
      simp [← enacted.sizesMade, Store.sizes]
    have run : Store.makeArray size m.store =
        .ok (.array (sizes h).length) (m.store.newArray (Array.replicate t.toNat .nil)).2 := by
      unfold Store.makeArray
      rw [count, fits, ← number]
      rfl
    exact ⟨⟨_, callMakeOk run⟩, Task.deedsOk rfl (callMakeOk run)⟩
  · intro large
    have refused : cellCount memory t =
        .error (if isIndexSized t then .outOfMemory else .countTooWide) := by
      cases sized : isIndexSized t with
      | false => simp [cellCount, sized]
      | true =>
        have large : memory < t := large.resolve_left (by simp [sized])
        have large : memory < t.toNat := by omega
        simp [cellCount, sized, large]
    have run : Store.makeArray size m.store =
        .error (if isIndexSized t then .outOfMemory else .countTooWide) m.store := by
      unfold Store.makeArray
      rw [count, refused]
    exact ⟨callMakeError run, Task.deedsError rfl (callMakeError run)⟩
  · have cells : (max 0 t).toNat = t.toNat := by omega
    have one : sizes [.make size] = [t.toNat] := by simp [sizes, Deed.sizeWhole whole]
    rw [sizesAppend, one, cells]

end

namespace Session

/-- The integer of a number is the number without its fraction. Wherever a run comes to, some deeds
were done before; arrays follow these deeds, and whatever is done later comes after them. -/
theorem arraysFollowDeeds (setting : Setting) (acts : List Act) :
    (∀ (v : Value) q, v.number? = some q → v.toInteger = .ok (towardZero q)) ∧
    (∀ k t m, ((fresh setting).after acts).ComesBy k t m ↔
      ∃ ds, ((fresh setting).after acts).ComesAfter .deeds ds k t m) ∧
    ∀ ds k t m, ((fresh setting).after acts).ComesAfter .deeds ds k t m →
      ArraysFollow setting.memory ((fresh setting).notedAll .deeds acts ++ ds) m ∧
      ∀ later, ∃ more, (fresh setting).notedAll .deeds (acts ++ .interpret :: later) =
        (fresh setting).notedAll .deeds acts ++ ds ++ (t.noted .deeds k m ++ more) := by
  refine ⟨fun v q => Value.toIntegerNumber, fun k t m => comesAfter _, fun ds k t m comes => ⟨?_, ?_⟩⟩
  · have enacted := freshDone deedTally setting acts comes
    exact ⟨fun k size t whole => makingAfter enacted whole, fun id n made => offersAfter enacted made⟩
  · exact fun later => freshBegins deedTally setting acts later comes

def resetCell : List Act :=
  [.scan 1 "var a=Array(-!true-!true);".toList,
   .scan 2 "a.set(!false,true);a.set(!true,true);a.set(-!true,false);".toList,
   .scan 3 "a.set(-!true-!true,true);".toList,
   .parse, .resolve, .interpret, .scan 4 "a".toList, .parseTyped, .resolve]

theorem numberWithFraction : (Value.datum (.double (-1.5))).number? = some (-3 / 2) := by
  have split : parts (-1.5) = .finite true ⟨0x18000000000000, -52⟩ := by decide +kernel
  show floatValue? (-1.5) = _
  rw [floatValue?, split]
  norm_num [Binary.value]

theorem arraysFollowDeeds_reset :
    sizes ((fresh {}).notedAll .deeds resetCell ++ []) = [2] ∧
    (lastSet 2 ((fresh {}).notedAll .deeds resetCell ++ []) 0 1).bind Value.integer? = some 0 ∧
    ∃ t m, ((fresh {}).after resetCell).ComesAfter .deeds [] fuel t m ∧
      Denotes 2 (towardZero (-3 / 2)) 1 ∧
      ∀ k a, call (k + 1) (.accessor a .read 0) [.datum (.double (-1.5))] m =
        .ok ((lastSet 2 ((fresh {}).notedAll .deeds resetCell ++ []) 0 1).getD .nil) m := by
  have both : (sizes ((fresh {}).notedAll .deeds resetCell ++ []),
      (lastSet 2 ((fresh {}).notedAll .deeds resetCell ++ []) 0 1).bind Value.integer?) =
        ([2], some 0) := by decide +kernel
  obtain ⟨made, last⟩ := Prod.mk.inj both
  have denotes : Denotes 2 (towardZero (-3 / 2)) 1 := by decide +kernel
  refine ⟨made, last, _, _, .start, denotes, fun k a => ?_⟩
  obtain ⟨whole, -, laws⟩ := arraysFollowDeeds {} resetCell
  have offers := (laws [] fuel _ _ .start).1.offers 0 2 (by rw [made]; rfl)
  exact (offers.answers k a _ _ (whole _ _ numberWithFraction)).read 1 denotes

end Session
end Lox
