import Secp256k1.Group.Curve

/-!
# The order of the group

The generator has order `n`: the kernel computes `(n - 1) • G` and finds `-G`. There are fewer than
`3 * n` points and none of order two, so that `n` is the order of the whole group.
-/

namespace Secp256k1

open ShortCurve

/-- The coordinates of `secp256k1_ge_const_g`. -/
def generatorX : ℕ := 0x79BE667EF9DCBBAC55A06295CE870B07029BFCDB2DCE28D959F2815B16F81798

def generatorY : ℕ := 0x483ADA7726A3C4655DA4FBFC0E1108A8FD17B448A68554199C47D08FFB10D4B8

theorem onCurve_generator : OnCurve (generatorX : ZMod p) (generatorY : ZMod p) :=
  onCurve_natCast.mpr (by decide)

def generator : Point := onCurve_generator.point

theorem generator_ne_zero : generator ≠ 0 := WeierstrassCurve.Affine.Point.some_ne_zero _

theorem OnCurve.jac {x y : ZMod p} (h : OnCurve x y) : Jac x y 1 h.point :=
  ⟨one_ne_zero, x, y, nonsingular_iff.mpr h, rfl, by ring, by ring⟩

/-- What the ladder finds for `n - 1`. -/
theorem ladder_generator :
    (ladder p generatorX generatorY 255 (n - 1)).z % p ≠ 0 ∧
    generatorX * (ladder p generatorX generatorY 255 (n - 1)).z ^ 2 % p =
      (ladder p generatorX generatorY 255 (n - 1)).x % p ∧
    (generatorY * (ladder p generatorX generatorY 255 (n - 1)).z ^ 3 +
      (ladder p generatorX generatorY 255 (n - 1)).y) % p = 0 := by
  decide +kernel

theorem order_smul_generator : n • generator = 0 := by
  obtain ⟨hz, hx, hy⟩ := ladder_generator
  generalize ht : ladder p generatorX generatorY 255 (n - 1) = t at hz hx hy
  have hz0 : (t.z : ZMod p) ≠ 0 := by
    rwa [ne_eq, ZMod.natCast_eq_zero_iff, Nat.dvd_iff_mod_eq_zero]
  have hof : Jac (t.x : ZMod p) t.y (t.z * 1) ((n - 1) • generator) := by
    have h := ladder_of two_ne_zero_mod onCurve_generator.jac 255 (e := n - 1) (by decide)
      (by decide) (by rwa [ht])
    rw [ht] at h
    rwa [mul_one]
  have hneg : Jac (generatorX : ZMod p) (-generatorY) 1 (-generator) := onCurve_generator.jac.neg
  have hxz : (generatorX : ZMod p) * t.z ^ 2 - t.x = 0 := by
    rw [sub_eq_zero, ← Nat.cast_pow, ← Nat.cast_mul, ZMod.natCast_eq_natCast_iff']
    exact hx
  have hyz : (-generatorY : ZMod p) * t.z ^ 3 - t.y = 0 := by
    have h : ((generatorY * t.z ^ 3 + t.y : ℕ) : ZMod p) = 0 := by
      rw [ZMod.natCast_eq_zero_iff, Nat.dvd_iff_mod_eq_zero]
      exact hy
    push_cast at h
    linear_combination -h
  have heq := hof.eq_of_eq hneg hxz hyz
  rw [show n = n - 1 + 1 from rfl, succ_nsmul, heq, neg_add_cancel]

/-- Doubling has no kernel. -/
theorem add_self_ne_zero {P : Point} (hP : P ≠ 0) : P + P ≠ 0 := by
  intro h
  cases P with
  | zero => exact hP rfl
  | some x y hxy =>
    have hy := (nonsingular_iff.mp hxy).y_ne_zero
    have hne := (OnCurve.jac (nonsingular_iff.mp hxy)).double two_ne_zero_mod hy
    exact hne.ne_zero h

theorem card_point : Nat.card Point = n := by
  obtain ⟨hfin, hle⟩ : Finite Point ∧ Nat.card Point ≤ 2 * p + 1 := card_le 7
  have hord : addOrderOf generator = n :=
    addOrderOf_eq_prime order_smul_generator generator_ne_zero
  obtain ⟨k, hk⟩ : n ∣ Nat.card Point := hord ▸ addOrderOf_dvd_natCard generator
  have hpos : 0 < Nat.card Point := Nat.card_pos
  have hlt : 2 * p + 1 < n * 3 := by decide
  have hk3 : k < 3 := by
    by_contra h
    have := Nat.mul_le_mul_left n (Nat.not_lt.mp h)
    omega
  have hk0 : k ≠ 0 := by
    rintro rfl
    omega
  have hk2 : k ≠ 2 := by
    rintro rfl
    obtain ⟨P, hP⟩ := exists_prime_addOrderOf_dvd_card' 2 (Dvd.intro_left n hk.symm)
    have h2 : P + P = 0 := by
      rw [← two_nsmul, ← hP]
      exact addOrderOf_nsmul_eq_zero P
    refine add_self_ne_zero ?_ h2
    rintro rfl
    rw [addOrderOf_zero] at hP
    exact absurd hP (by norm_num)
  obtain rfl : k = 1 := by omega
  rw [hk, Nat.mul_one]

/-- The order of the group annihilates every point. -/
theorem order_smul (P : Point) : n • P = 0 := by
  rw [← card_point]
  exact card_nsmul_eq_zero'

/-- Multiples are taken modulo the order. -/
theorem mod_smul (k : ℕ) (P : Point) : (k % n) • P = k • P := by
  conv_rhs => rw [← Nat.mod_add_div k n, add_nsmul, mul_nsmul, order_smul, nsmul_zero, add_zero]

theorem neg_smul_eq {k : ℕ} (h : k ≤ n) (P : Point) : ((n - k) % n) • P = -(k • P) := by
  rw [mod_smul, eq_neg_iff_add_eq_zero, ← add_nsmul, Nat.sub_add_cancel h, order_smul]

/-- Every point is a multiple of the generator. -/
theorem exists_smul_generator (P : Point) : ∃ k < n, k • generator = P := by
  obtain ⟨k, rfl⟩ : P ∈ AddSubmonoid.multiples generator :=
    mem_multiples_of_prime_card card_point generator_ne_zero
  exact ⟨k % n, Nat.mod_lt _ n_pos, mod_smul k generator⟩

theorem OnCurve.neg {x y : ZMod p} (h : OnCurve x y) : OnCurve x (-y) := by
  rw [OnCurve, neg_mul_neg]
  exact h

theorem OnCurve.neg_point {x y : ZMod p} (h : OnCurve x y) : h.neg.point = -h.point := by
  simp only [OnCurve.point, WeierstrassCurve.Affine.Point.neg_some, ShortCurve.negY_eq]

theorem smul_eq_zero_iff {k : ℕ} {P : Point} (hP : P ≠ 0) : k • P = 0 ↔ n ∣ k := by
  have hord : addOrderOf P = n := addOrderOf_eq_prime (order_smul P) hP
  rw [← hord, addOrderOf_dvd_iff_nsmul_eq_zero]

end Secp256k1
