import Secp256k1.Scalar.Agreement

/-!
# Scalars as the code above them sees them

`scalar.h`: the operations of either backend, and what the code above relies on. Results about that
code are stated for any backend that is `Sound`.
-/

namespace Secp256k1

structure ScalarOps (S : Type) where
  clear : S
  getBits : S → ℕ → ℕ → BitVec 32
  getBitsVar : S → ℕ → ℕ → BitVec 32
  setB32 : (Fin 32 → Byte) → S × CInt
  setInt : BitVec 32 → S
  getB32 : S → Fin 32 → Byte
  add : S → S → S × CInt
  mul : S → S → S
  sqr : S → S
  negate : S → S
  isZero : S → Bool
  isOne : S → Bool
  isHigh : S → CInt
  condNegate : S → CInt → S × CInt

/-- The operations compute modulo the group order on the numbers `val` reads off a scalar. -/
structure ScalarOps.Sound {S : Type} (O : ScalarOps S) (val : S → ℕ) : Prop where
  val_inj : ∀ a b, val a = val b → a = b
  clear : val O.clear = 0
  getBits : ∀ a o, o < 256 → (O.getBits a o 1).toNat = val a / 2 ^ o % 2
  getBitsVar : ∀ a o c, 0 < c → c < 32 → o + c ≤ 256 →
    (O.getBitsVar a o c).toNat = val a / 2 ^ o % 2 ^ c
  setB32 : ∀ b, val (O.setB32 b).1 = Bytes.be b % n ∧ (O.setB32 b).2 = ofBool (n ≤ Bytes.be b)
  setInt : ∀ v, val (O.setInt v) = v.toNat
  getB32 : ∀ a, Bytes.be (O.getB32 a) = val a
  add : ∀ a b, val a < n → val b < n →
    val (O.add a b).1 = (val a + val b) % n ∧ (O.add a b).2 = ofBool (n ≤ val a + val b)
  mul : ∀ a b, val (O.mul a b) = val a * val b % n
  sqr : ∀ a, val (O.sqr a) = val a * val a % n
  negate : ∀ a, val a < n → val (O.negate a) = (n - val a) % n
  isZero : ∀ a, O.isZero a = decide (val a = 0)
  isOne : ∀ a, O.isOne a = decide (val a = 1)
  isHigh : ∀ a, O.isHigh a = ofBool (n / 2 < val a)
  condNegate : ∀ a flag, val a < n →
    val (O.condNegate a flag).1 = (if flag = 0 then val a else (n - val a) % n) ∧
      (O.condNegate a flag).2 = if flag = 0 then 1 else -1

namespace ScalarOps.Sound

variable {S : Type} {O : ScalarOps S} {val : S → ℕ} (hO : O.Sound val)
include hO

theorem setB32_fits {b : Fin 32 → Byte} : (O.setB32 b).2 = 0 ↔ Bytes.be b < n := by
  rw [(hO.setB32 b).2, ← not_le]
  by_cases h : n ≤ Bytes.be b
  · rw [decide_eq_true h]
    exact iff_of_false (by decide) (not_not.mpr h)
  · rw [decide_eq_false h]
    exact iff_of_true rfl h

theorem val_setB32 {b : Fin 32 → Byte} (h : Bytes.be b < n) : val (O.setB32 b).1 = Bytes.be b := by
  rw [(hO.setB32 b).1, Nat.mod_eq_of_lt h]

theorem isHigh_eq_zero {a : S} : O.isHigh a = 0 ↔ val a ≤ n / 2 := by
  rw [hO.isHigh, ← not_lt]
  by_cases h : n / 2 < val a
  · rw [decide_eq_true h]
    exact iff_of_false (by decide) (not_not.mpr h)
  · rw [decide_eq_false h]
    exact iff_of_true rfl h

theorem isHigh_ne_zero {a : S} : O.isHigh a ≠ 0 ↔ n / 2 < val a := by
  rw [ne_eq, hO.isHigh_eq_zero, not_le]

end ScalarOps.Sound

namespace Scalar4x64

def ops : ScalarOps Scalar where
  clear := scalarClear
  getBits := scalarGetBits
  getBitsVar := scalarGetBitsVar
  setB32 := scalarSetB32
  setInt := scalarSetInt
  getB32 := scalarGetB32
  add := scalarAdd
  mul a b := (scalarMul a b).1
  sqr a := (scalarSqr a).1
  negate := scalarNegate
  isZero := scalarIsZero
  isOne := scalarIsOne
  isHigh := scalarIsHigh
  condNegate := scalarCondNegate

theorem ops_sound : ops.Sound Limbs.val where
  val_inj _ _ := Limbs.val_inj
  clear := Limbs.val_zero
  getBits a _ := scalarGetBits_one a
  getBitsVar a _ _ := scalarGetBitsVar_spec a
  setB32 b := reduces.setB32 (scalarOfB32_val b)
  setInt := scalarSetInt_val
  getB32 := scalarGetB32_be
  add _ _ := reduces.add
  mul a b := (multiplies.mul a b).1
  sqr a := (multiplies.sqr a).1
  negate _ := scalarNegate_spec
  isZero := scalarIsZero_eq
  isOne := scalarIsOne_eq
  isHigh := scalarIsHigh_eq
  condNegate _ flag h := scalarCondNegate_spec h flag

end Scalar4x64

namespace Scalar8x32

def ops : ScalarOps Scalar where
  clear := scalarClear
  getBits := scalarGetBits
  getBitsVar := scalarGetBitsVar
  setB32 := scalarSetB32
  setInt := scalarSetInt
  getB32 := scalarGetB32
  add := scalarAdd
  mul a b := (scalarMul a b).1
  sqr a := (scalarSqr a).1
  negate := scalarNegate
  isZero := scalarIsZero
  isOne := scalarIsOne
  isHigh := scalarIsHigh
  condNegate := scalarCondNegate

theorem ops_sound : ops.Sound Limbs.val where
  val_inj _ _ := Limbs.val_inj
  clear := Limbs.val_zero
  getBits a _ := scalarGetBits_one a
  getBitsVar a _ _ := scalarGetBitsVar_spec a
  setB32 b := reduces.setB32 (scalarOfB32_val b)
  setInt := scalarSetInt_val
  getB32 := scalarGetB32_be
  add _ _ := reduces.add
  mul a b := (multiplies.mul a b).1
  sqr a := (multiplies.sqr a).1
  negate _ := scalarNegate_spec
  isZero := scalarIsZero_eq
  isOne := scalarIsOne_eq
  isHigh := scalarIsHigh_eq
  condNegate _ flag h := scalarCondNegate_spec h flag

end Scalar8x32

/-- The backend that `libsecp256k1-config.h` selects. -/
inductive ScalarBackend where
  | limbs4x64
  | limbs8x32
  deriving DecidableEq, Repr

namespace ScalarBackend

def Scalar : ScalarBackend → Type
  | limbs4x64 => Scalar4x64.Scalar
  | limbs8x32 => Scalar8x32.Scalar

def ops : (c : ScalarBackend) → ScalarOps c.Scalar
  | limbs4x64 => Scalar4x64.ops
  | limbs8x32 => Scalar8x32.ops

/-- The number a scalar of the backend denotes. -/
def val : (c : ScalarBackend) → c.Scalar → ℕ
  | limbs4x64 => fun a : Scalar4x64.Scalar => Limbs.val a
  | limbs8x32 => fun a : Scalar8x32.Scalar => Limbs.val a

theorem sound : (c : ScalarBackend) → c.ops.Sound c.val
  | limbs4x64 => Scalar4x64.ops_sound
  | limbs8x32 => Scalar8x32.ops_sound

/-- Digits in base 16, which no limb boundary cuts. -/
theorem getBits_four (c : ScalarBackend) (a : c.Scalar) {j : ℕ} (hj : j < 64) :
    (c.ops.getBits a (j * 4) 4).toNat = c.val a / 2 ^ (j * 4) % 16 := by
  cases c with
  | limbs4x64 =>
    exact Scalar.getBits_four (show 64 = 2 ^ 6 by norm_num) (by decide) (by decide) a (by omega)
  | limbs8x32 =>
    exact Scalar.getBits_four (show 32 = 2 ^ 5 by norm_num) (by decide) (by decide) a (by omega)

end ScalarBackend

end Secp256k1
