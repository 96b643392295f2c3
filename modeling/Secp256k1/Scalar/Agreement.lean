import Secp256k1.Scalar.Spec4x64
import Secp256k1.Scalar.Spec8x32

/-!
# The two scalar backends agree

`libsecp256k1-config.h` compiles `scalar_8x32_impl.h` under MSVC and `scalar_4x64_impl.h`
elsewhere. Both compute in `[0, n)` what their names say, so that scalars that stand for one number
stay so under every operation, with the same flags and the same bytes.
-/

namespace Secp256k1

/-- Both backends hold one number, and it is below the group order. -/
def SameScalar (a : Scalar4x64.Scalar) (b : Scalar8x32.Scalar) : Prop :=
  Limbs.val a = Limbs.val b ∧ Limbs.val a < n

instance (a : Scalar4x64.Scalar) (b : Scalar8x32.Scalar) : Decidable (SameScalar a b) :=
  inferInstanceAs (Decidable (_ ∧ _))

theorem SameScalar.of_mod {a : Scalar4x64.Scalar} {b : Scalar8x32.Scalar} {x : ℕ}
    (ha : Limbs.val a = x % n) (hb : Limbs.val b = x % n) : SameScalar a b :=
  ⟨ha.trans hb.symm, ha.trans_lt (Nat.mod_lt x n_pos)⟩

theorem scalarSetB32_same (b : Fin 32 → Byte) :
    SameScalar (Scalar4x64.scalarSetB32 b).1 (Scalar8x32.scalarSetB32 b).1 ∧
      (Scalar4x64.scalarSetB32 b).2 = (Scalar8x32.scalarSetB32 b).2 := by
  obtain ⟨h4, f4⟩ := Scalar4x64.reduces.setB32 (Scalar4x64.scalarOfB32_val b)
  obtain ⟨h8, f8⟩ := Scalar8x32.reduces.setB32 (Scalar8x32.scalarOfB32_val b)
  exact ⟨.of_mod h4 h8, f4.trans f8.symm⟩

section

variable {a b : Scalar4x64.Scalar} {a' b' : Scalar8x32.Scalar}

theorem scalarAdd_same (ha : SameScalar a a') (hb : SameScalar b b') :
    SameScalar (Scalar4x64.scalarAdd a b).1 (Scalar8x32.scalarAdd a' b').1 ∧
      (Scalar4x64.scalarAdd a b).2 = (Scalar8x32.scalarAdd a' b').2 := by
  obtain ⟨h4, f4⟩ := Scalar4x64.reduces.add ha.2 hb.2
  obtain ⟨h8, f8⟩ := Scalar8x32.reduces.add (ha.1 ▸ ha.2) (hb.1 ▸ hb.2)
  rw [← ha.1, ← hb.1] at h8 f8
  exact ⟨.of_mod h4 h8, f4.trans f8.symm⟩

theorem scalarNegate_same (ha : SameScalar a a') :
    SameScalar (Scalar4x64.scalarNegate a) (Scalar8x32.scalarNegate a') := by
  have h8 := Scalar8x32.scalarNegate_spec (ha.1 ▸ ha.2)
  rw [← ha.1] at h8
  exact .of_mod (Scalar4x64.scalarNegate_spec ha.2) h8

theorem scalarCondNegate_same (ha : SameScalar a a') (flag : CInt) :
    SameScalar (Scalar4x64.scalarCondNegate a flag).1 (Scalar8x32.scalarCondNegate a' flag).1 ∧
      (Scalar4x64.scalarCondNegate a flag).2 = (Scalar8x32.scalarCondNegate a' flag).2 := by
  obtain ⟨h4, f4⟩ := Scalar4x64.scalarCondNegate_spec ha.2 flag
  obtain ⟨h8, f8⟩ := Scalar8x32.scalarCondNegate_spec (ha.1 ▸ ha.2) flag
  rw [← ha.1] at h8
  refine ⟨⟨h4.trans h8.symm, ?_⟩, f4.trans f8.symm⟩
  rw [h4]
  split
  · exact ha.2
  · exact Nat.mod_lt _ n_pos

theorem scalarIsHigh_same (ha : SameScalar a a') :
    Scalar4x64.scalarIsHigh a = Scalar8x32.scalarIsHigh a' := by
  rw [Scalar4x64.scalarIsHigh_eq, Scalar8x32.scalarIsHigh_eq, ha.1]

theorem scalarIsZero_same (ha : SameScalar a a') :
    Scalar4x64.scalarIsZero a = Scalar8x32.scalarIsZero a' := by
  rw [Scalar4x64.scalarIsZero_eq, Scalar8x32.scalarIsZero_eq, ha.1]

theorem scalarGetB32_same (ha : SameScalar a a') :
    Scalar4x64.scalarGetB32 a = Scalar8x32.scalarGetB32 a' := by
  apply Bytes.be_inj
  rw [Scalar4x64.scalarGetB32_be, Scalar8x32.scalarGetB32_be, ha.1]

theorem scalarMul_same (ha : SameScalar a a') (hb : SameScalar b b') :
    SameScalar (Scalar4x64.scalarMul a b).1 (Scalar8x32.scalarMul a' b').1 := by
  have h8 := (Scalar8x32.multiplies.mul a' b').1
  rw [← ha.1, ← hb.1] at h8
  exact .of_mod (Scalar4x64.multiplies.mul a b).1 h8

theorem scalarSqr_same (ha : SameScalar a a') :
    SameScalar (Scalar4x64.scalarSqr a).1 (Scalar8x32.scalarSqr a').1 := by
  have h8 := (Scalar8x32.multiplies.sqr a').1
  rw [← ha.1] at h8
  exact .of_mod (Scalar4x64.multiplies.sqr a).1 h8

end

/-- The last partial quotient of a product, `p4`, for any 512 bits. -/
theorem Scalar4x64.quotient_le (l : Fin 8 → Scalar4x64.U64) :
    (Scalar4x64.reduce258 (Scalar4x64.reduce385 l).1).2.1.toNat ≤ 2 := by
  obtain ⟨hm, h6, -⟩ := Scalar4x64.reduce385_spec l
  rw [Scalar4x64.val_lo_hi] at hm
  have hlt := Scalar.second_fold_lt (Scalar4x64.val_lt _) (Scalar4x64.val_lt _)
    (Scalar4x64.val_lt _) hm
  exact (Scalar4x64.reduce258_spec h6 hlt).2.1

/-- The last partial quotient of a product, `p8`, for any 512 bits. -/
theorem Scalar8x32.quotient_le (l : Fin 16 → Scalar8x32.U32) :
    (Scalar8x32.reduce258 (Scalar8x32.reduce385 l).1).2.1.toNat ≤ 2 := by
  obtain ⟨hm, h12, -⟩ := Scalar8x32.reduce385_spec l
  rw [Scalar8x32.val_lo_hi] at hm
  have hlt := Scalar.second_fold_lt (Scalar8x32.val_lt _) (Scalar8x32.val_lt _)
    (Scalar8x32.val_lt _) hm
  exact (Scalar8x32.reduce258_spec h12 hlt).2.1

/-- The scalar backends compute the same values, flags and bytes, all values below the order, and
no carry is lost in the column accumulators of either. -/
theorem scalar4x64_agrees_scalar8x32 :
    (∀ b32, SameScalar (Scalar4x64.scalarSetB32 b32).1 (Scalar8x32.scalarSetB32 b32).1 ∧
      (Scalar4x64.scalarSetB32 b32).2 = (Scalar8x32.scalarSetB32 b32).2) ∧
    (∀ a b a' b', SameScalar a a' → SameScalar b b' →
      SameScalar (Scalar4x64.scalarAdd a b).1 (Scalar8x32.scalarAdd a' b').1 ∧
      (Scalar4x64.scalarAdd a b).2 = (Scalar8x32.scalarAdd a' b').2 ∧
      SameScalar (Scalar4x64.scalarMul a b).1 (Scalar8x32.scalarMul a' b').1) ∧
    (∀ a a', SameScalar a a' →
      SameScalar (Scalar4x64.scalarNegate a) (Scalar8x32.scalarNegate a') ∧
      (∀ flag,
        SameScalar (Scalar4x64.scalarCondNegate a flag).1
          (Scalar8x32.scalarCondNegate a' flag).1 ∧
        (Scalar4x64.scalarCondNegate a flag).2 = (Scalar8x32.scalarCondNegate a' flag).2) ∧
      Scalar4x64.scalarIsHigh a = Scalar8x32.scalarIsHigh a' ∧
      Scalar4x64.scalarIsZero a = Scalar8x32.scalarIsZero a' ∧
      Scalar4x64.scalarGetB32 a = Scalar8x32.scalarGetB32 a' ∧
      SameScalar (Scalar4x64.scalarSqr a).1 (Scalar8x32.scalarSqr a').1) ∧
    (∀ a b, (Scalar4x64.scalarMul a b).2 = true ∧ (Scalar4x64.scalarSqr a).2 = true) ∧
    (∀ a b, (Scalar8x32.scalarMul a b).2 = true ∧ (Scalar8x32.scalarSqr a).2 = true) ∧
    (∀ l, (Scalar4x64.reduce258 (Scalar4x64.reduce385 l).1).2.1.toNat ≤ 2) ∧
    (∀ l, (Scalar8x32.reduce258 (Scalar8x32.reduce385 l).1).2.1.toNat ≤ 2) := by
  refine ⟨scalarSetB32_same, fun a b a' b' ha hb => ?_, fun a a' ha => ?_, fun a b => ?_,
    fun a b => ?_, Scalar4x64.quotient_le, Scalar8x32.quotient_le⟩
  · obtain ⟨hadd, hflag⟩ := scalarAdd_same ha hb
    exact ⟨hadd, hflag, scalarMul_same ha hb⟩
  · exact ⟨scalarNegate_same ha, scalarCondNegate_same ha, scalarIsHigh_same ha,
      scalarIsZero_same ha, scalarGetB32_same ha, scalarSqr_same ha⟩
  · exact ⟨(Scalar4x64.multiplies.mul a b).2, (Scalar4x64.multiplies.sqr a).2⟩
  · exact ⟨(Scalar8x32.multiplies.mul a b).2, (Scalar8x32.multiplies.sqr a).2⟩

/-- Minus one and two in both backends. -/
theorem scalar4x64_agrees_scalar8x32_demo :
    let a : Scalar4x64.Scalar :=
      ![0xBFD25E8CD0364140, 0xBAAEDCE6AF48A03B, 0xFFFFFFFFFFFFFFFE, 0xFFFFFFFFFFFFFFFF]
    let a' : Scalar8x32.Scalar := ![0xD0364140, 0xBFD25E8C, 0xAF48A03B, 0xBAAEDCE6, 0xFFFFFFFE,
      0xFFFFFFFF, 0xFFFFFFFF, 0xFFFFFFFF]
    SameScalar a a' ∧
      SameScalar (Scalar4x64.scalarSetInt 2) (Scalar8x32.scalarSetInt 2) ∧
      SameScalar (Scalar4x64.scalarMul a (Scalar4x64.scalarSetInt 2)).1
        (Scalar8x32.scalarMul a' (Scalar8x32.scalarSetInt 2)).1 ∧
      Scalar4x64.scalarIsHigh a = Scalar8x32.scalarIsHigh a' := by
  intro a a'
  have ha : SameScalar a a' := by decide
  have hb : SameScalar (Scalar4x64.scalarSetInt 2) (Scalar8x32.scalarSetInt 2) := by
    decide
  exact ⟨ha, hb, (scalar4x64_agrees_scalar8x32.2.1 _ _ _ _ ha hb).2.2,
    (scalar4x64_agrees_scalar8x32.2.2.1 _ _ ha).2.2.1⟩

end Secp256k1
