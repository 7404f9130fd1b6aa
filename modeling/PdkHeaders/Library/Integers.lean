import Mathlib.Algebra.Group.Int.Defs
import Mathlib.Tactic.Common

set_option autoImplicit false

/-!
# Integer types and promotion

A value of an integer type is its bit pattern. A type whose values `int` can hold is
promoted to `int` before any operation; an assignment converts back.
-/
namespace PdkHeaders.Library.Integers

structure IntegerType where
  width : ℕ
  signed : Bool
  deriving DecidableEq, Repr

namespace IntegerType
variable (intWidth : ℕ) (T U : IntegerType)

abbrev Value := BitVec T.width

/-- `int` holds the values of every narrower type, signed or not. -/
def promote : IntegerType :=
  if T.width < intWidth then ⟨intWidth, true⟩ else T

def convert (x : T.Value) : U.Value :=
  if T.signed then x.signExtend U.width else x.setWidth U.width

def promoted (x : T.Value) : (T.promote intWidth).Value := T.convert (T.promote intWidth) x

def assigned (x : (T.promote intWidth).Value) : T.Value := (T.promote intWidth).convert T x

/-- Undefined from the width of the type on. A signed operand must also be non-negative and
its product with the power of two must fit. -/
def shiftLeft (x : T.Value) (amount : ℕ) : Option T.Value :=
  if amount < T.width ∧
      (T.signed → 0 ≤ x.toInt ∧ x.toInt * 2 ^ amount < 2 ^ (T.width - 1)) then
    some (x <<< amount)
  else none

variable {intWidth T U}

theorem width_le_promote : T.width ≤ (T.promote intWidth).width := by
  unfold promote
  split
  · exact Nat.le_of_lt ‹_›
  · exact Nat.le_refl _

theorem lt_promote {i : ℕ} (h : i < T.width) : i < (T.promote intWidth).width :=
  Nat.lt_of_lt_of_le h width_le_promote

theorem promote_width_of_signed (h : T.signed = false)
    (hpromote : (T.promote intWidth).signed = true) : T.width < (T.promote intWidth).width := by
  unfold promote at hpromote ⊢
  split
  · assumption
  · rw [if_neg ‹_›, h] at hpromote
    cases hpromote

/-- Below its own width a value keeps its bits, whatever the sign extension writes above. -/
theorem convert_bit {i : ℕ} (x : T.Value) (hi : i < T.width) :
    (T.convert U x).getLsbD i = (decide (i < U.width) && x.getLsbD i) := by
  unfold convert
  split
  · rw [BitVec.getLsbD_signExtend, if_pos hi]
  · exact BitVec.getLsbD_setWidth _ _ _

theorem promoted_bit {i : ℕ} (x : T.Value) (hi : i < T.width) :
    (T.promoted intWidth x).getLsbD i = x.getLsbD i := by
  have hwide : i < (T.promote intWidth).width := lt_promote hi
  rw [promoted, convert_bit x hi, decide_eq_true hwide, Bool.true_and]

theorem assigned_bit {i : ℕ} (x : (T.promote intWidth).Value) (hi : i < T.width) :
    (T.assigned intWidth x).getLsbD i = x.getLsbD i := by
  have hwide : i < (T.promote intWidth).width := lt_promote hi
  rw [assigned, convert_bit x hwide, decide_eq_true hi, Bool.true_and]

/-- A bitwise operation on promoted operands is, after assignment, the one on the type. -/
theorem assigned_or (x y : T.Value) :
    T.assigned intWidth (T.promoted intWidth x ||| T.promoted intWidth y) = x ||| y := by
  apply BitVec.eq_of_getLsbD_eq
  intro i hi
  rw [assigned_bit _ hi, BitVec.getLsbD_or, promoted_bit x hi, promoted_bit y hi,
    BitVec.getLsbD_or]

theorem assigned_and_not (x y : T.Value) :
    T.assigned intWidth (T.promoted intWidth x &&& ~~~ T.promoted intWidth y) = x &&& ~~~ y := by
  apply BitVec.eq_of_getLsbD_eq
  intro i hi
  have hwide : i < (T.promote intWidth).width := lt_promote hi
  rw [assigned_bit _ hi, BitVec.getLsbD_and, BitVec.getLsbD_not, promoted_bit x hi,
    promoted_bit y hi, decide_eq_true hwide, BitVec.getLsbD_and, BitVec.getLsbD_not,
    decide_eq_true hi]

theorem promoted_one (h : T.signed = false) (hpos : 0 < T.width) :
    T.promoted intWidth 1 = 1 := by
  have hwide : 0 < (T.promote intWidth).width := lt_promote hpos
  apply BitVec.eq_of_getLsbD_eq
  intro i hi
  simp only [promoted, convert, h, Bool.false_eq_true, ↓reduceIte]
  rw [BitVec.getLsbD_setWidth, decide_eq_true hi, Bool.true_and]
  simp [BitVec.getLsbD_one, hpos, hwide]

theorem one_toInt {w : ℕ} (h : 1 < w) : (1 : BitVec w).toInt = 1 := by
  have htwo : 2 ^ 2 ≤ 2 ^ w := Nat.pow_le_pow_right (by omega) h
  simp only [BitVec.ofNat_eq_ofNat, BitVec.toInt, BitVec.toNat_ofNat]
  rw [Nat.mod_eq_of_lt (by omega), if_pos (by omega)]
  rfl

/-- The promoted shift of an unsigned one is defined below the width of the unsigned type. -/
theorem shiftLeft_one {amount : ℕ} (h : T.signed = false) (hamount : amount < T.width) :
    (T.promote intWidth).shiftLeft (T.promoted intWidth 1) amount =
      some (BitVec.twoPow (T.promote intWidth).width amount) := by
  have hwide : amount < (T.promote intWidth).width := lt_promote hamount
  rw [promoted_one h (by omega)]
  unfold shiftLeft
  rw [if_pos]
  · rfl
  · apply And.intro hwide
    intro hsigned
    have hlt := promote_width_of_signed h hsigned
    have hpow : 2 ^ amount < 2 ^ ((T.promote intWidth).width - 1) :=
      Nat.pow_lt_pow_right (by omega) (by omega)
    rw [one_toInt (by omega)]
    apply And.intro (by decide)
    rw [Int.one_mul]
    exact_mod_cast hpow

theorem assigned_twoPow (amount : ℕ) (hamount : amount < T.width) :
    T.assigned intWidth (BitVec.twoPow (T.promote intWidth).width amount) =
      BitVec.twoPow T.width amount := by
  have hwide : amount < (T.promote intWidth).width := lt_promote hamount
  apply BitVec.eq_of_getLsbD_eq
  intro i hi
  rw [assigned_bit _ hi, BitVec.getLsbD_twoPow, BitVec.getLsbD_twoPow, decide_eq_true hwide,
    decide_eq_true hamount]

theorem promoted_and_twoPow {amount : ℕ} (x : T.Value) (hamount : amount < T.width) :
    (T.promoted intWidth x &&& BitVec.twoPow (T.promote intWidth).width amount != 0) =
      x.getLsbD amount := by
  have hwide : amount < (T.promote intWidth).width := lt_promote hamount
  have hne : BitVec.twoPow (T.promote intWidth).width amount ≠ 0 := by
    intro hzero
    have hbit := congrArg (fun y => y.getLsbD amount) hzero
    simp [hwide] at hbit
  rw [BitVec.and_twoPow, promoted_bit x hamount]
  cases x.getLsbD amount with
  | false => exact bne_self_eq_false _
  | true => exact bne_iff_ne.mpr hne

end IntegerType
end PdkHeaders.Library.Integers
