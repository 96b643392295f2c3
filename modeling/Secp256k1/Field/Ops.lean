import Secp256k1.Field.Impl4x64
import Secp256k1.Field.Kernel

/-!
# The field as the group code sees it

`field.h`: the operations the code above the field is written against, and the two backends that
supply them. An operation that computes with limbs returns an `Option`; `none` is a fault, which
the backends as compiled never raise. `checked5x52` is the five-limb backend with the conditions
under which its routines mean what they say tested at every call: operands of products and squares
in range, negations of elements of the announced magnitude, sums and multiples that do not wrap.
-/

namespace Secp256k1

structure FieldOps (F : Type) where
  normalize : F → Option F
  normalizeWeak : F → Option F
  normalizeVar : F → Option F
  normalizesToZero : F → Option Bool
  normalizesToZeroVar : F → Option Bool
  setInt : CInt → F
  clear : F
  isZero : F → Bool
  isOdd : F → Bool
  cmpVar : F → F → ℤ
  setB32 : (Fin 32 → Byte) → F × Bool
  getB32 : F → Fin 32 → Byte
  negate : F → CInt → Option F
  mulInt : F → CInt → Option F
  add : F → F → Option F
  mul : F → F → Option F
  sqr : F → Option F
  cmov : F → F → CInt → F
  toStorage : F → FeStorage
  fromStorage : FeStorage → F
  storageCmov : FeStorage → FeStorage → CInt → FeStorage
  const : BitVec 32 → BitVec 32 → BitVec 32 → BitVec 32 → BitVec 32 → BitVec 32 → BitVec 32 →
    BitVec 32 → F

namespace Field5x52

/-- The five-limb backend over one of the two kernels. -/
def ops (K : Kernel) : FieldOps Fe where
  normalize a := some (feNormalize a)
  normalizeWeak a := some (feNormalizeWeak a)
  normalizeVar a := some (feNormalizeVar a)
  normalizesToZero a := some (feNormalizesToZero a)
  normalizesToZeroVar a := some (feNormalizesToZeroVar a)
  setInt := feSetInt
  clear := feClear
  isZero := feIsZero
  isOdd := feIsOdd
  cmpVar := feCmpVar
  setB32 := feSetB32
  getB32 := feGetB32
  negate a m := some (feNegate a m)
  mulInt a k := some (feMulInt a k)
  add a b := some (feAdd a b)
  mul a b := some (K.mul a b)
  sqr a := some (K.sqr a)
  cmov := feCmov
  toStorage := feToStorage
  fromStorage := feFromStorage
  storageCmov := feStorageCmov
  const := feConst

instance (a : Fe) : Decidable (InRange a) :=
  decidable_of_iff (a.n0.toNat < 2 ^ 56 ∧ a.n1.toNat < 2 ^ 56 ∧ a.n2.toNat < 2 ^ 56 ∧
    a.n3.toNat < 2 ^ 56 ∧ a.n4.toNat < 2 ^ 52)
    ⟨fun ⟨h0, h1, h2, h3, h4⟩ => ⟨h0, h1, h2, h3, h4⟩, fun ⟨h0, h1, h2, h3, h4⟩ =>
      ⟨h0, h1, h2, h3, h4⟩⟩

instance (m : ℕ) (a : Fe) : Decidable (Mag m a) :=
  decidable_of_iff (a.n0.toNat ≤ (2 ^ 52 - 1) * (2 * m) ∧ a.n1.toNat ≤ (2 ^ 52 - 1) * (2 * m) ∧
    a.n2.toNat ≤ (2 ^ 52 - 1) * (2 * m) ∧ a.n3.toNat ≤ (2 ^ 52 - 1) * (2 * m) ∧
    a.n4.toNat ≤ (2 ^ 48 - 1) * (2 * m))
    ⟨fun ⟨h0, h1, h2, h3, h4⟩ => ⟨h0, h1, h2, h3, h4⟩, fun ⟨h0, h1, h2, h3, h4⟩ =>
      ⟨h0, h1, h2, h3, h4⟩⟩

instance (a : Fe) : Decidable (NoWrap a) :=
  decidable_of_iff (a.n0.toNat + a.n4.toNat / 2 ^ 48 * 0x1000003D1 < 2 ^ 64 ∧
    a.n1.toNat ≤ 2 ^ 64 - 2 ^ 12 ∧ a.n2.toNat ≤ 2 ^ 64 - 2 ^ 12 ∧ a.n3.toNat ≤ 2 ^ 64 - 2 ^ 12)
    ⟨fun ⟨h0, h1, h2, h3⟩ => ⟨h0, h1, h2, h3⟩, fun ⟨h0, h1, h2, h3⟩ => ⟨h0, h1, h2, h3⟩⟩

/-- No limb of the sum wraps. -/
def AddFits (a b : Fe) : Prop :=
  a.n0.toNat + b.n0.toNat < 2 ^ 64 ∧ a.n1.toNat + b.n1.toNat < 2 ^ 64 ∧
  a.n2.toNat + b.n2.toNat < 2 ^ 64 ∧ a.n3.toNat + b.n3.toNat < 2 ^ 64 ∧
  a.n4.toNat + b.n4.toNat < 2 ^ 64

instance (a b : Fe) : Decidable (AddFits a b) := by unfold AddFits; infer_instance

/-- No limb of the multiple wraps. -/
def MulIntFits (a : Fe) (k : ℕ) : Prop :=
  a.n0.toNat * k < 2 ^ 64 ∧ a.n1.toNat * k < 2 ^ 64 ∧ a.n2.toNat * k < 2 ^ 64 ∧
  a.n3.toNat * k < 2 ^ 64 ∧ a.n4.toNat * k < 2 ^ 64

instance (a : Fe) (k : ℕ) : Decidable (MulIntFits a k) := by unfold MulIntFits; infer_instance

/-- No limb of the negation underflows, and no multiple of the limbs of `p` wraps. -/
def NegateFits (a : Fe) (m : CInt) : Prop :=
  m.toNat < 2 ^ 11 ∧ Mag m.toNat a ∧ a.n0.toNat ≤ 0xFFFFEFFFFFC2F * (2 * (m.toNat + 1))

instance (a : Fe) (m : CInt) : Decidable (NegateFits a m) := by unfold NegateFits; infer_instance

/-- A result, or a fault when `c` fails. -/
def guardWith {α : Type} (c : Prop) [Decidable c] (x : α) : Option α := if c then some x else none

/-- The five-limb backend with its preconditions tested. -/
def checked (K : Kernel) : FieldOps Fe :=
  { ops K with
    normalize := fun a => guardWith (NoWrap a) (feNormalize a)
    normalizeWeak := fun a => guardWith (NoWrap a) (feNormalizeWeak a)
    normalizeVar := fun a => guardWith (NoWrap a) (feNormalizeVar a)
    normalizesToZero := fun a => guardWith (NoWrap a) (feNormalizesToZero a)
    normalizesToZeroVar := fun a => guardWith (NoWrap a) (feNormalizesToZeroVar a)
    negate := fun a m => guardWith (NegateFits a m) (feNegate a m)
    mulInt := fun a k => guardWith (k.toNat < 2 ^ 31 ∧ MulIntFits a k.toNat) (feMulInt a k)
    add := fun a b => guardWith (AddFits a b) (feAdd a b)
    mul := fun a b => guardWith (InRange a ∧ InRange b) (K.mul a b)
    sqr := fun a => guardWith (InRange a) (K.sqr a) }

end Field5x52

namespace Field4x64

/-- The four-limb backend over its inner routines. -/
def ops (I : Inner) : FieldOps Fe where
  normalize a := some (feNormalize a)
  normalizeWeak a := some (feNormalizeWeak a)
  normalizeVar a := some (feNormalizeVar a)
  normalizesToZero a := some (feNormalizesToZero a)
  normalizesToZeroVar a := some (feNormalizesToZeroVar a)
  setInt := feSetInt
  clear := feClear
  isZero := feIsZero
  isOdd := feIsOdd
  cmpVar := feCmpVar
  setB32 := feSetB32
  getB32 := feGetB32
  negate a _ := some (I.negate a)
  mulInt a k := some (I.mulInt a k)
  add a b := some (I.add a b)
  mul a b := some (I.mul a b)
  sqr a := some (I.sqr a)
  cmov := feCmov
  toStorage := feToStorage
  fromStorage := feFromStorage
  storageCmov := feStorageCmov
  const := feConst

end Field4x64

end Secp256k1
