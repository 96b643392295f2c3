import Secp256k1.Field.Values
import Secp256k1.Lib.ShortCurve

/-!
# The curve

`y² = x³ + 7` over the field with `p` elements, with the group Mathlib gives it. No point has order
two: `-7` is not a cube.
-/

namespace Secp256k1

open WeierstrassCurve.Affine

/-- The points of the curve that the constants of `group_impl.h` describe. -/
abbrev Point := ShortCurve.Point (7 : ZMod p)

def OnCurve (x y : ZMod p) : Prop := y * y = x * x * x + 7

instance (x y : ZMod p) : Decidable (OnCurve x y) := inferInstanceAs (Decidable (_ = _))

theorem natCast_ne_zero {k : ℕ} (h0 : 0 < k) (hk : k < p) : (k : ZMod p) ≠ 0 := by
  intro h
  exact absurd (Nat.le_of_dvd h0 ((ZMod.natCast_eq_zero_iff k p).mp h)) (Nat.not_le.mpr hk)

theorem onCurve_natCast {x y : ℕ} :
    OnCurve (x : ZMod p) (y : ZMod p) ↔ y * y % p = (x * x * x + 7) % p := by
  rw [OnCurve, ← ZMod.natCast_eq_natCast_iff']
  push_cast
  rfl

/-- `-7` is not a cube: it would be a cube root of one to the power `p - 1`. -/
theorem cube_add_seven_ne_zero (x : ZMod p) : x * x * x + 7 ≠ 0 := by
  intro h
  have hx : x ≠ 0 := by
    rintro rfl
    rw [mul_zero, zero_add] at h
    exact natCast_ne_zero (k := 7) (by norm_num) (by decide) (by exact_mod_cast h)
  have hcube : x ^ 3 = ((p - 7 : ℕ) : ZMod p) := by
    rw [Nat.cast_sub (by decide), ZMod.natCast_self, zero_sub, Nat.cast_ofNat]
    linear_combination h
  have hone : ((p - 7 : ℕ) : ZMod p) ^ ((p - 1) / 3) = 1 := by
    rw [← hcube, ← pow_mul, Nat.mul_div_cancel' (by decide)]
    exact ZMod.pow_card_sub_one_eq_one hx
  rw [Primality.natCast_pow_eq_one_iff p_prime.one_lt,
    ← Primality.powMod_eq p (p - 7) (k := 256) (by decide)] at hone
  revert hone
  decide +kernel

theorem OnCurve.y_ne_zero {x y : ZMod p} (h : OnCurve x y) : y ≠ 0 := by
  rintro rfl
  rw [OnCurve, mul_zero] at h
  exact cube_add_seven_ne_zero x h.symm

theorem nonsingular_iff {x y : ZMod p} :
    (ShortCurve.curve (7 : ZMod p)).toAffine.Nonsingular x y ↔ OnCurve x y := by
  rw [WeierstrassCurve.Affine.nonsingular_iff, WeierstrassCurve.Affine.equation_iff]
  simp only [ShortCurve.curve, OnCurve]
  constructor
  · rintro ⟨h, -⟩
    linear_combination h
  · intro h
    refine ⟨by linear_combination h, .inr ?_⟩
    intro hy
    have h2 : 2 * y = 0 := by linear_combination hy
    exact (mul_eq_zero.mp h2).elim two_ne_zero_mod (OnCurve.y_ne_zero h)

/-- The point with these coordinates. -/
def OnCurve.point {x y : ZMod p} (h : OnCurve x y) : Point := .some x y (nonsingular_iff.mpr h)

/-! ## Parity of the square roots -/

/-- A residue and its opposite differ in parity. -/
theorem val_neg_mod_two {v : ZMod p} (hv : v ≠ 0) : (-v).val % 2 = 1 ↔ ¬ v.val % 2 = 1 := by
  have hlt := ZMod.val_lt v
  have hpos : 0 < v.val := Nat.pos_of_ne_zero fun h => hv ((ZMod.val_eq_zero v).mp h)
  have hodd : p % 2 = 1 := by decide
  have : NeZero v := ⟨hv⟩
  rw [ZMod.val_neg_of_ne_zero]
  omega

/-- The root of given parity. -/
theorem root_unique {c y z : ZMod p} (hy : y * y = c) (hz : z * z = c) (hc : c ≠ 0)
    (h : y.val % 2 = 1 ↔ z.val % 2 = 1) : y = z := by
  rcases mul_self_eq_mul_self_iff.mp (hy.trans hz.symm) with rfl | rfl
  · rfl
  · have hz0 : z ≠ 0 := by
      rintro rfl
      rw [mul_zero] at hz
      exact hc hz.symm
    rw [val_neg_mod_two hz0] at h
    exact absurd h not_iff_self

end Secp256k1
