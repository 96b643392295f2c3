import Secp256k1.Num

/-!
# The inverse of a scalar

`secp256k1_scalar_inverse`: an addition chain for the exponent `n - 2`. It returns the scalar that
`secp256k1_scalar_inverse_var` finds through the number library, and zero for zero.
-/

namespace Secp256k1

section

variable {S : Type} (O : ScalarOps S)

/-- `for (i = 0; i < k; i++) secp256k1_scalar_sqr(&x, &x)`. -/
def scalarSqrN : ℕ → S → S
  | 0, x => x
  | k + 1, x => scalarSqrN k (O.sqr x)

/-- `xN` is `x` to the power `2 ^ N - 1`, and `uM` to the power `M`. -/
def scalarInverse (x : S) : S :=
  let u2 := O.sqr x
  let x2 := O.mul u2 x
  let u5 := O.mul u2 x2
  let x3 := O.mul u5 u2
  let u9 := O.mul x3 u2
  let u11 := O.mul u9 u2
  let u13 := O.mul u11 u2
  let x6 := O.mul (O.sqr (O.sqr u13)) u11
  let x8 := O.mul (O.sqr (O.sqr x6)) x2
  let x14 := O.mul (scalarSqrN O 5 (O.sqr x8)) x6
  let x28 := O.mul (scalarSqrN O 13 (O.sqr x14)) x14
  let x56 := O.mul (scalarSqrN O 27 (O.sqr x28)) x28
  let x112 := O.mul (scalarSqrN O 55 (O.sqr x56)) x56
  let x126 := O.mul (scalarSqrN O 13 (O.sqr x112)) x14
  let t := O.mul (scalarSqrN O 3 x126) u5
  let t := O.mul (scalarSqrN O 4 t) x3
  let t := O.mul (scalarSqrN O 4 t) u5
  let t := O.mul (scalarSqrN O 5 t) u11
  let t := O.mul (scalarSqrN O 4 t) u11
  let t := O.mul (scalarSqrN O 4 t) x3
  let t := O.mul (scalarSqrN O 5 t) x3
  let t := O.mul (scalarSqrN O 6 t) u13
  let t := O.mul (scalarSqrN O 4 t) u5
  let t := O.mul (scalarSqrN O 3 t) x3
  let t := O.mul (scalarSqrN O 5 t) u9
  let t := O.mul (scalarSqrN O 6 t) u5
  let t := O.mul (scalarSqrN O 10 t) x3
  let t := O.mul (scalarSqrN O 4 t) x3
  let t := O.mul (scalarSqrN O 9 t) x8
  let t := O.mul (scalarSqrN O 5 t) u9
  let t := O.mul (scalarSqrN O 6 t) u11
  let t := O.mul (scalarSqrN O 4 t) u13
  let t := O.mul (scalarSqrN O 5 t) x2
  let t := O.mul (scalarSqrN O 6 t) u13
  let t := O.mul (scalarSqrN O 10 t) u13
  let t := O.mul (scalarSqrN O 4 t) u9
  let t := O.mul (scalarSqrN O 6 t) x
  O.mul (scalarSqrN O 8 t) x6

end

section

variable {S : Type} {O : ScalarOps S} {val : S → ℕ} (hO : O.Sound val) {v : ZMod n} {a b : S}
  {e f : ℕ}

/-- The scalar is the power `e` of `v`. -/
def PowerOf (val : S → ℕ) (v : ZMod n) (e : ℕ) (a : S) : Prop := (val a : ZMod n) = v ^ e

include hO

theorem PowerOf.mul (ha : PowerOf val v e a) (hb : PowerOf val v f b) :
    PowerOf val v (e + f) (O.mul a b) := by
  unfold PowerOf at *
  rw [hO.mul, ZMod.natCast_mod, Nat.cast_mul, ha, hb, pow_add]

theorem PowerOf.sqr (ha : PowerOf val v e a) : PowerOf val v (e * 2) (O.sqr a) := by
  unfold PowerOf at *
  rw [hO.sqr, ZMod.natCast_mod, Nat.cast_mul, ha, ← sq, pow_mul]

theorem PowerOf.sqrN (ha : PowerOf val v e a) (k : ℕ) :
    PowerOf val v (e * 2 ^ k) (scalarSqrN O k a) := by
  induction k generalizing e a with
  | zero =>
    rw [pow_zero, mul_one]
    exact ha
  | succ k ih =>
    rw [pow_succ', ← mul_assoc]
    exact ih (ha.sqr hO)

/-- One window of the chain. -/
theorem PowerOf.window (ha : PowerOf val v e a) (k : ℕ) (hb : PowerOf val v f b) :
    PowerOf val v (e * 2 ^ k + f) (O.mul (scalarSqrN O k a) b) :=
  (ha.sqrN hO k).mul hO hb

theorem scalarInverse_power (x : S) :
    PowerOf val (val x : ZMod n) (n - 2) (scalarInverse O x) := by
  have hx : PowerOf val (val x : ZMod n) 1 x := (pow_one _).symm
  have u2 := hx.sqr hO
  have x2 := u2.mul hO hx
  have u5 := u2.mul hO x2
  have x3 := u5.mul hO u2
  have u9 := x3.mul hO u2
  have u11 := u9.mul hO u2
  have u13 := u11.mul hO u2
  have x6 := ((u13.sqr hO).sqr hO).mul hO u11
  have x8 := ((x6.sqr hO).sqr hO).mul hO x2
  have x14 := (x8.sqr hO).window hO 5 x6
  have x28 := (x14.sqr hO).window hO 13 x14
  have x56 := (x28.sqr hO).window hO 27 x28
  have x112 := (x56.sqr hO).window hO 55 x56
  have x126 := (x112.sqr hO).window hO 13 x14
  have t := x126.window hO 3 u5
  replace t := t.window hO 4 x3
  replace t := t.window hO 4 u5
  replace t := t.window hO 5 u11
  replace t := t.window hO 4 u11
  replace t := t.window hO 4 x3
  replace t := t.window hO 5 x3
  replace t := t.window hO 6 u13
  replace t := t.window hO 4 u5
  replace t := t.window hO 3 x3
  replace t := t.window hO 5 u9
  replace t := t.window hO 6 u5
  replace t := t.window hO 10 x3
  replace t := t.window hO 4 x3
  replace t := t.window hO 9 x8
  replace t := t.window hO 5 u9
  replace t := t.window hO 6 u11
  replace t := t.window hO 4 u13
  replace t := t.window hO 5 x2
  replace t := t.window hO 6 u13
  replace t := t.window hO 10 u13
  replace t := t.window hO 4 u9
  replace t := t.window hO 6 hx
  replace t := t.window hO 8 x6
  exact t

theorem scalarInverse_lt (x : S) : val (scalarInverse O x) < n :=
  (hO.mul _ _).trans_lt (Nat.mod_lt _ n_pos)

theorem scalarInverse_spec {x : S} (h0 : 0 < val x) (hn : val x < n) :
    val x * val (scalarInverse O x) % n = 1 := by
  have _ : Fact n.Prime := ⟨n_prime⟩
  have hne : (val x : ZMod n) ≠ 0 := by
    rw [ne_eq, ZMod.natCast_eq_zero_iff]
    exact fun hdvd => absurd (Nat.le_of_dvd h0 hdvd) (not_le.mpr hn)
  have hone : ((val x * val (scalarInverse O x) : ℕ) : ZMod n) = (1 : ℕ) := by
    rw [Nat.cast_mul, scalarInverse_power hO x, ← pow_succ', show n - 2 + 1 = n - 1 from rfl,
      ZMod.pow_card_sub_one_eq_one hne, Nat.cast_one]
  rw [ZMod.natCast_eq_natCast_iff'] at hone
  rw [hone, Nat.mod_eq_of_lt n_prime.one_lt]

theorem scalarInverse_zero {x : S} (h0 : val x = 0) : val (scalarInverse O x) = 0 := by
  have h := scalarInverse_power hO x
  rw [PowerOf, h0, Nat.cast_zero, zero_pow (by decide), ZMod.natCast_eq_zero_iff] at h
  exact Nat.eq_zero_of_dvd_of_lt h (scalarInverse_lt hO x)

end

/-- Inverses below `n` are unique. -/
theorem inverse_unique {a r s : ℕ} (hr : r < n) (hs : s < n) (har : a * r % n = 1)
    (has : a * s % n = 1) : r = s := by
  have h : r * (a * s) % n = s * (a * r) % n := congrArg (· % n) (by ring)
  rwa [Nat.mul_mod, has, Nat.mul_mod s, har, mul_one, mul_one, Nat.mod_mod, Nat.mod_mod,
    Nat.mod_eq_of_lt hr, Nat.mod_eq_of_lt hs] at h

/-- The chain and the number library find the same inverse of every scalar that has one; what they
find is again inverted to the scalar, and the chain takes zero to zero. -/
theorem ScalarBackend.scalarInverse_agrees (c : ScalarBackend) {g : Gmp} (hg : g.Sound)
    {x : c.Scalar} (hn : c.val x < n) :
    (0 < c.val x → scalarInverseVar c.ops g x = some (scalarInverse c.ops x) ∧
      c.val x * c.val (scalarInverse c.ops x) % n = 1) ∧
    (c.val x = 0 → c.val (scalarInverse c.ops x) = 0) ∧
    scalarInverse c.ops (scalarInverse c.ops x) = x := by
  refine ⟨fun h0 => ?_, scalarInverse_zero c.sound, c.sound.val_inj _ _ ?_⟩
  · obtain ⟨r, hr, hlt, hinv⟩ := scalarInverseVar_spec c.sound hg h0 hn
    have hspec := scalarInverse_spec c.sound h0 hn
    have hval := inverse_unique hlt (scalarInverse_lt c.sound x) hinv hspec
    exact ⟨hr.trans (congrArg some (c.sound.val_inj _ _ hval)), hspec⟩
  · rcases Nat.eq_zero_or_pos (c.val x) with h0 | h0
    · rw [scalarInverse_zero c.sound (scalarInverse_zero c.sound h0), h0]
    · have hspec := scalarInverse_spec c.sound h0 hn
      have hpos : 0 < c.val (scalarInverse c.ops x) := by
        rw [Nat.pos_iff_ne_zero]
        intro hz
        rw [hz, mul_zero, Nat.zero_mod] at hspec
        exact absurd hspec (by norm_num)
      refine inverse_unique (scalarInverse_lt c.sound _) hn
        (scalarInverse_spec c.sound hpos (scalarInverse_lt c.sound x)) ?_
      rwa [mul_comm]

/-- The scalar 2 in eight limbs. -/
theorem ScalarBackend.scalarInverse_agrees_demo :
    scalarInverseVar Scalar8x32.ops .reference (Scalar8x32.scalarSetInt 2) =
      some (scalarInverse Scalar8x32.ops (Scalar8x32.scalarSetInt 2)) := by
  have h2 : ScalarBackend.limbs8x32.val (Scalar8x32.scalarSetInt 2) = 2 := by decide
  have hn : ScalarBackend.limbs8x32.val (Scalar8x32.scalarSetInt 2) < n := by
    rw [h2]
    decide
  have h0 : 0 < ScalarBackend.limbs8x32.val (Scalar8x32.scalarSetInt 2) := by
    rw [h2]
    exact Nat.two_pos
  exact ((ScalarBackend.limbs8x32.scalarInverse_agrees Gmp.reference_sound hn).1 h0).1

end Secp256k1
