import Mathlib

/-!
# Jacobian coordinates on `y² = x³ + b`

`Jac X Y Z P`: the coordinates stand for the point `P` of Mathlib's group, as `x = X / Z²` and
`y = Y / Z³`. Doubling and mixed addition are polynomial in the coordinates; the second summand may
carry a common factor `w` of its own and of the first summand's `Z`, which the sum then carries too.
A chain of doublings and additions computed on numbers modulo a prime proves what a multiple of a
point is.
-/

namespace ShortCurve

open WeierstrassCurve.Affine

section

variable {K : Type} [Field K] (b : K)

/-- The curve `y² = x³ + b`. -/
def curve : WeierstrassCurve K := ⟨0, 0, 0, 0, b⟩

abbrev Point := (curve b).toAffine.Point

variable {b} {X Y Z x y w : K} {P Q : Point b}

def Jac (X Y Z : K) (P : Point b) : Prop :=
  Z ≠ 0 ∧ ∃ x y h, P = .some x y h ∧ X = x * (Z * Z) ∧ Y = y * (Z * Z * Z)

theorem Jac.ne_zero (h : Jac X Y Z P) : P ≠ 0 := by
  obtain ⟨-, x, y, h, rfl, -⟩ := h
  exact Point.some_ne_zero h

theorem negY_eq (x y : K) : (curve b).toAffine.negY x y = -y := by
  simp [curve, WeierstrassCurve.Affine.negY]

/-- Points with the same x coordinate are equal or opposite. -/
theorem Jac.eq_of_eq (hP : Jac X Y (Z * w) P) (hQ : Jac x y w Q) (hh : x * Z ^ 2 - X = 0)
    (hi : y * Z ^ 3 - Y = 0) : P = Q := by
  obtain ⟨hZw, x₁, y₁, hp, rfl, rfl, rfl⟩ := hP
  obtain ⟨hw, x₂, y₂, hq, rfl, rfl, rfl⟩ := hQ
  have hx : (x₂ - x₁) * (Z * w) ^ 2 = 0 := by linear_combination hh
  have hy : (y₂ - y₁) * (Z * w) ^ 3 = 0 := by linear_combination hi
  obtain rfl := sub_eq_zero.mp ((mul_eq_zero.mp hx).resolve_right (pow_ne_zero 2 hZw))
  obtain rfl := sub_eq_zero.mp ((mul_eq_zero.mp hy).resolve_right (pow_ne_zero 3 hZw))
  rfl

theorem Jac.eq_neg_of_ne (hP : Jac X Y (Z * w) P) (hQ : Jac x y w Q) (hh : x * Z ^ 2 - X = 0)
    (hi : y * Z ^ 3 - Y ≠ 0) : P = -Q := by
  obtain ⟨hZw, x₁, y₁, hp, rfl, rfl, rfl⟩ := hP
  obtain ⟨hw, x₂, y₂, hq, rfl, rfl, rfl⟩ := hQ
  have hx : (x₂ - x₁) * (Z * w) ^ 2 = 0 := by linear_combination hh
  obtain rfl := sub_eq_zero.mp ((mul_eq_zero.mp hx).resolve_right (pow_ne_zero 2 hZw))
  refine (Point.X_eq_iff.mp rfl).resolve_left fun h => hi ?_
  obtain ⟨-, rfl⟩ := Point.some.inj h
  ring

/-- The same point with another z coordinate. -/
theorem Jac.scale (h : Jac X Y Z P) (hw : w ≠ 0) :
    Jac (X * (w * w)) (Y * (w * w * w)) (Z * w) P := by
  obtain ⟨hZ, x, y, hp, rfl, rfl, rfl⟩ := h
  exact ⟨mul_ne_zero hZ hw, x, y, hp, rfl, by ring, by ring⟩

/-- The opposite of a point. -/
theorem Jac.neg (h : Jac X Y Z P) : Jac X (-Y) Z (-P) := by
  obtain ⟨hZ, x, y, hp, rfl, rfl, rfl⟩ := h
  refine ⟨hZ, _, _, _, rfl, rfl, ?_⟩
  rw [negY_eq, neg_mul]

theorem equation_iff_sq {x y : K} : (curve b).toAffine.Equation x y ↔ y ^ 2 = x ^ 3 + b := by
  rw [WeierstrassCurve.Affine.equation_iff]
  simp only [curve]
  constructor <;> intro h <;> linear_combination h

/-- Points with the same x coordinate that are not opposite are equal. -/
theorem y_eq_of_x_eq {x y₁ y₂ : K} (hp : (curve b).toAffine.Nonsingular x y₁)
    (hq : (curve b).toAffine.Nonsingular x y₂) (hne : y₁ + y₂ ≠ 0) : y₁ = y₂ := by
  have h : (y₁ - y₂) * (y₁ + y₂) = 0 := by
    linear_combination equation_iff_sq.mp hp.1 - equation_iff_sq.mp hq.1
  exact sub_eq_zero.mp ((mul_eq_zero.mp h).resolve_right hne)

variable [DecidableEq K]

/-- A point is doubled when its y coordinate does not vanish. -/
theorem Jac.double (h2 : (2 : K) ≠ 0) (h : Jac X Y Z P) (hY : Y ≠ 0) :
    Jac (9 * X ^ 4 - 8 * X * Y ^ 2) (36 * X ^ 3 * Y ^ 2 - 27 * X ^ 6 - 8 * Y ^ 4) (2 * Y * Z)
      (P + P) := by
  obtain ⟨hZ, x, y, hp, rfl, rfl, rfl⟩ := h
  have hy : y ≠ 0 := fun h0 => hY (by rw [h0, zero_mul])
  have hne : y ≠ (curve b).toAffine.negY x y := by
    rw [negY_eq]
    intro h
    have : 2 * y = 0 := by linear_combination h
    exact (mul_ne_zero h2 hy) this
  have hs : 2 * y * (curve b).toAffine.slope x x y y = 3 * x ^ 2 := by
    have hy2 : y - -y ≠ 0 := by
      rw [sub_neg_eq_add, ← two_mul]
      exact mul_ne_zero h2 hy
    rw [slope_of_Y_ne rfl hne, negY_eq, show 2 * y = y - -y by ring, mul_div_cancel₀ _ hy2]
    simp only [curve]
    ring
  refine ⟨mul_ne_zero (mul_ne_zero h2 hY) hZ, _, _, _, Point.add_self_of_Y_ne hne, ?_, ?_⟩
  · generalize (curve b).toAffine.slope x x y y = s at hs
    simp only [addX, curve]
    linear_combination -(2 * y * s + 3 * x ^ 2) * Z ^ 8 * hs
  · generalize (curve b).toAffine.slope x x y y = s at hs
    simp only [addY, negAddY, addX, negY_eq]
    simp only [curve]
    linear_combination (((2 * y * s) ^ 2 + 2 * y * s * (3 * x ^ 2) + (3 * x ^ 2) ^ 2) -
      12 * x * y ^ 2) * Z ^ 12 * hs

/-- Points with different x coordinates are added. -/
theorem Jac.add (hP : Jac X Y (Z * w) P) (hQ : Jac x y w Q) {h i : K} (hh : h = x * Z ^ 2 - X)
    (hi : i = y * Z ^ 3 - Y) (h0 : h ≠ 0) :
    Jac (i ^ 2 - h ^ 3 - 2 * X * h ^ 2)
      (i * (X * h ^ 2 - (i ^ 2 - h ^ 3 - 2 * X * h ^ 2)) - h ^ 3 * Y) (Z * h * w) (P + Q) := by
  obtain ⟨hZw, x₁, y₁, hp, rfl, rfl, rfl⟩ := hP
  obtain ⟨hw, x₂, y₂, hq, rfl, rfl, rfl⟩ := hQ
  have hZ : Z ≠ 0 := left_ne_zero_of_mul hZw
  have hx : x₁ ≠ x₂ := by
    rintro rfl
    exact h0 (by rw [hh]; ring)
  have hs : x₁ - x₂ ≠ 0 := sub_ne_zero.mpr hx
  refine ⟨mul_ne_zero (mul_ne_zero hZ h0) hw, _, _, _, Point.add_of_X_ne hx, ?_, ?_⟩
  · rw [slope_of_X_ne hx]
    simp only [addX, curve, hh, hi]
    field_simp
    ring
  · rw [slope_of_X_ne hx]
    simp only [addY, negAddY, addX, negY_eq]
    simp only [curve, hh, hi]
    field_simp
    ring

/-- A sum by its slope: `R / (Z * M)` is the slope of the line through the two points, and `S` the
sum of the y coordinates, all scaled by powers of `Z`. -/
theorem Jac.add_of_slope (h2 : (2 : K) ≠ 0) {x₁ y₁ x₂ y₂ R M : K}
    (hp : (curve b).toAffine.Nonsingular x₁ y₁) (hq : (curve b).toAffine.Nonsingular x₂ y₂)
    (hne : ¬(x₁ = x₂ ∧ y₁ = (curve b).toAffine.negY x₂ y₂)) (hZ : Z ≠ 0) (hM : M ≠ 0)
    (hs : (curve b).toAffine.slope x₁ x₂ y₁ y₂ * (Z * M) = R)
    (hline : (curve b).toAffine.slope x₁ x₂ y₁ y₂ * (x₁ - x₂) = y₁ - y₂) {X' T N : K}
    (hX' : X' = R ^ 2 - T * M ^ 2) (hT : T = (x₁ + x₂) * Z ^ 2)
    (hN : N = (y₁ + y₂) * Z ^ 3 * M ^ 3) :
    Jac (4 * X') (4 * (R * (T * M ^ 2 - 2 * X') - N)) (2 * (Z * M))
      (.some x₁ y₁ hp + .some x₂ y₂ hq : Point b) := by
  refine ⟨mul_ne_zero h2 (mul_ne_zero hZ hM), _, _, _, Point.add_some hne, ?_, ?_⟩
  · generalize (curve b).toAffine.slope x₁ x₂ y₁ y₂ = s at hs
    subst hs hT
    simp only [addX, curve, hX']
    ring
  · generalize (curve b).toAffine.slope x₁ x₂ y₁ y₂ = s at hs hline
    subst hs hT
    simp only [addY, negAddY, addX, negY_eq]
    simp only [curve, hX', hN]
    linear_combination (-4 * Z ^ 3 * M ^ 3) * hline

/-- The two numerators and denominators of the slope that a branch-free sum chooses from, and the
coordinates it computes: `M'` vanishes exactly when the points are opposite. The first choice fails
for points with opposite y coordinates and different x coordinates only. -/
theorem Jac.unified (h2 : (2 : K) ≠ 0) (hP : Jac X Y Z P) (hQ : Jac x y 1 Q) {U T M R R' M' N : K}
    (hU : U = x * Z ^ 2) (hT : T = X + U) (hM : M = Y + y * Z ^ 3) (hR : R = T ^ 2 - X * U)
    (h : M = 0 ∧ R = 0 ∧ R' = 2 * Y ∧ M' = X - U ∧ N = 0 ∨
      ¬(M = 0 ∧ R = 0) ∧ R' = R ∧ M' = M ∧ N = M ^ 4) :
    M' = 0 ∧ P + Q = 0 ∨ M' ≠ 0 ∧ Jac (4 * (R' ^ 2 - T * M' ^ 2))
      (4 * (R' * (T * M' ^ 2 - 2 * (R' ^ 2 - T * M' ^ 2)) - N)) (2 * (Z * M')) (P + Q) := by
  obtain ⟨hZ, x₁, y₁, hp, rfl, rfl, rfl⟩ := hP
  obtain ⟨-, x₂, y₂, hq, rfl, rfl, rfl⟩ := hQ
  have hZ3 : Z ^ 3 ≠ 0 := pow_ne_zero 3 hZ
  have e1 := equation_iff_sq.mp hp.1
  have e2 := equation_iff_sq.mp hq.1
  replace hM : M = (y₁ + y₂) * Z ^ 3 := by rw [hM]; ring
  have hT' : T = (x₁ + x₂) * Z ^ 2 := by rw [hT, hU]; ring
  replace hR : R = Z ^ 4 * (x₁ ^ 2 + x₁ * x₂ + x₂ ^ 2) := by rw [hR, hT, hU]; ring
  by_cases hx : x₁ = x₂
  · subst hx
    by_cases hy : y₁ + y₂ = 0
    case pos =>
      -- opposite points, whichever choice was made
      have hsum : (.some x₁ y₁ hp + .some x₁ y₂ hq : Point b) = 0 :=
        Point.add_of_Y_eq rfl (by rw [negY_eq]; linear_combination hy)
      refine .inl ⟨?_, hsum⟩
      rcases h with ⟨-, -, -, rfl, -⟩ | ⟨-, -, rfl, -⟩
      · rw [hU]; ring
      · rw [hM, hy, zero_mul]
    case neg =>
      obtain rfl := y_eq_of_x_eq hp hq hy
      have hM0 : M ≠ 0 := by
        rw [hM]
        exact mul_ne_zero hy hZ3
      obtain ⟨-, rfl, rfl, rfl⟩ := h.resolve_left fun h => hM0 h.1
      have hne : y₁ ≠ (curve b).toAffine.negY x₁ y₁ := by
        rw [negY_eq]
        intro h
        exact hy (by linear_combination h)
      have hs : (curve b).toAffine.slope x₁ x₁ y₁ y₁ * (y₁ + y₁) = 3 * x₁ ^ 2 := by
        rw [slope_of_Y_ne rfl hne, negY_eq, sub_neg_eq_add, div_mul_cancel₀ _ hy]
        simp only [curve]
        ring
      refine .inr ⟨hM0, Jac.add_of_slope h2 hp hq (fun h => hne h.2) hZ hM0 ?_ ?_ rfl hT' ?_⟩
      · rw [hM, hR]
        linear_combination Z ^ 4 * hs
      · ring
      · rw [hM]; ring
  · have hx0 : x₁ - x₂ ≠ 0 := sub_ne_zero.mpr hx
    have hline : (curve b).toAffine.slope x₁ x₂ y₁ y₂ * (x₁ - x₂) = y₁ - y₂ := by
      rw [slope_of_X_ne hx, div_mul_cancel₀ _ hx0]
    have hcubes : (x₁ - x₂) * (x₁ ^ 2 + x₁ * x₂ + x₂ ^ 2) = (y₁ - y₂) * (y₁ + y₂) := by
      linear_combination e2 - e1
    rcases h with ⟨hM0, -, rfl, rfl, rfl⟩ | ⟨hdeg, rfl, rfl, rfl⟩
    case inl =>
      have hy : y₁ + y₂ = 0 := (mul_eq_zero.mp (hM ▸ hM0)).resolve_right hZ3
      have hM' : x₁ * (Z * Z) - U ≠ 0 := by
        rw [hU, show x₁ * (Z * Z) - x₂ * (1 * 1) * Z ^ 2 = (x₁ - x₂) * Z ^ 2 by ring]
        exact mul_ne_zero hx0 (pow_ne_zero 2 hZ)
      refine .inr ⟨hM', Jac.add_of_slope h2 hp hq (fun h => hx h.1) hZ hM' ?_ hline rfl hT' ?_⟩
      · rw [hU]
        linear_combination Z ^ 3 * hline - Z ^ 3 * hy
      · rw [hy, zero_mul, zero_mul]
    case inr =>
      have hM0 : M' ≠ 0 := by
        intro hM0
        have hy : y₁ + y₂ = 0 := (mul_eq_zero.mp (hM ▸ hM0)).resolve_right hZ3
        rw [hy, mul_zero] at hcubes
        exact hdeg ⟨hM0, by rw [hR, (mul_eq_zero.mp hcubes).resolve_left hx0, mul_zero]⟩
      refine .inr ⟨hM0, Jac.add_of_slope h2 hp hq (fun h => hx h.1) hZ hM0 ?_ hline rfl hT' ?_⟩
      · apply mul_left_cancel₀ hx0
        rw [hM, hR]
        linear_combination Z ^ 4 * (y₁ + y₂) * hline - Z ^ 4 * hcubes
      · rw [hM]; ring

end

/-! ## Multiples computed on numbers -/

structure Coords where
  x : ℕ
  y : ℕ
  z : ℕ

/-- The opposite of a number modulo `q`. -/
def opp (q a : ℕ) : ℕ := q - a % q

def Coords.double (q : ℕ) (t : Coords) : Coords :=
  let m := 3 * (t.x * t.x) % q
  let c := t.y * t.y % q
  let s := 4 * t.x * c % q
  let x := (m * m + 2 * opp q s) % q
  ⟨x, (m * (s + opp q x) + 8 * c * opp q c) % q, 2 * t.y * t.z % q⟩

def Coords.add (q : ℕ) (t : Coords) (x y : ℕ) : Coords :=
  let c := t.z * t.z % q
  let h := (x * c + opp q t.x) % q
  let i := (y * c % q * t.z + opp q t.y) % q
  let h2 := h * h % q
  let h3 := h * h2 % q
  let v := t.x * h2 % q
  let x' := (i * i + opp q h3 + 2 * opp q v) % q
  ⟨x', (i * (v + opp q x') + h3 * opp q t.y) % q, t.z * h % q⟩

/-- The multiple of the point `(x, y)` by a number of `k + 1` binary digits. -/
def ladder (q x y : ℕ) : ℕ → ℕ → Coords
  | 0, _ => ⟨x, y, 1⟩
  | k + 1, e =>
    let t := (ladder q x y k (e / 2)).double q
    if e % 2 = 1 then t.add q x y else t

section

variable {q : ℕ} [Fact q.Prime]

theorem natCast_opp (a : ℕ) : ((opp q a : ℕ) : ZMod q) = -(a : ZMod q) := by
  have hq : 0 < q := (Fact.out : q.Prime).pos
  rw [opp, Nat.cast_sub (Nat.mod_lt a hq).le, ZMod.natCast_self, ZMod.natCast_mod, zero_sub]

variable {b : ZMod q} {P Q : Point b} {t : Coords} {x y : ℕ}

/-- The coordinates stand for the point. -/
def Coords.Of (t : Coords) (P : Point b) : Prop := Jac (t.x : ZMod q) t.y t.z P

theorem Coords.Of.double (h2 : (2 : ZMod q) ≠ 0) (h : t.Of P)
    (hz : ((t.double q).z : ZMod q) ≠ 0) : (t.double q).Of (P + P) := by
  have hY : (t.y : ZMod q) ≠ 0 := by
    intro h0
    apply hz
    simp only [Coords.double, ZMod.natCast_mod, Nat.cast_mul, h0, mul_zero, zero_mul]
  have hd := Jac.double h2 h hY
  simp only [Coords.Of, Coords.double, ZMod.natCast_mod, Nat.cast_add, Nat.cast_mul, natCast_opp,
    Nat.cast_ofNat]
  convert hd using 1 <;> ring

theorem Coords.Of.add (h : t.Of P) (hQ : Jac (x : ZMod q) y 1 Q)
    (hz : ((t.add q x y).z : ZMod q) ≠ 0) : (t.add q x y).Of (P + Q) := by
  have hP : Jac (t.x : ZMod q) t.y (t.z * 1) P := by rwa [mul_one]
  have hh : (x * t.z ^ 2 - t.x : ZMod q) ≠ 0 := by
    intro h0
    apply hz
    simp only [Coords.add, ZMod.natCast_mod, Nat.cast_add, Nat.cast_mul, natCast_opp]
    rw [show (x * (t.z * t.z) + -t.x : ZMod q) = x * t.z ^ 2 - t.x by ring, h0, mul_zero]
  have hs := Jac.add hP hQ rfl rfl hh
  simp only [Coords.Of, Coords.add, ZMod.natCast_mod, Nat.cast_add, Nat.cast_mul, natCast_opp,
    Nat.cast_ofNat]
  convert hs using 1 <;> ring

/-- The last z coordinate is a multiple of all before it, so that it vanishes if one of them
does. -/
theorem ladder_of (h2 : (2 : ZMod q) ≠ 0) (hP : Jac (x : ZMod q) y 1 P) (k : ℕ) {e : ℕ}
    (hlo : 2 ^ k ≤ e) (hhi : e < 2 ^ (k + 1)) (hz : ((ladder q x y k e).z : ZMod q) ≠ 0) :
    (ladder q x y k e).Of (e • P) := by
  induction k generalizing e with
  | zero =>
    obtain rfl : e = 1 := by omega
    rw [one_nsmul]
    simpa only [ladder, Coords.Of, Nat.cast_one] using hP
  | succ k ih =>
    have hzd : (((ladder q x y k (e / 2)).double q).z : ZMod q) ≠ 0 := by
      intro h0
      apply hz
      rw [ladder]
      split
      · simp only [Coords.add, ZMod.natCast_mod, Nat.cast_mul, h0, zero_mul]
      · exact h0
    have hz' : ((ladder q x y k (e / 2)).z : ZMod q) ≠ 0 := by
      intro h0
      apply hzd
      simp only [Coords.double, ZMod.natCast_mod, Nat.cast_mul, h0, mul_zero]
    rw [pow_succ] at hlo hhi
    have hd := (ih (by omega) (by omega) hz').double h2 hzd
    rw [← add_nsmul] at hd
    rw [ladder] at hz ⊢
    split
    · next hodd =>
      rw [if_pos hodd] at hz
      have he : (e / 2 + e / 2 + 1) • P = e • P := by congr 1; omega
      rw [← he, succ_nsmul]
      exact hd.add hP hz
    · have he : (e / 2 + e / 2) • P = e • P := by congr 1; omega
      rwa [he] at hd

/-- The coordinates are those of the point that the numbers `x` and `y` stand for. -/
theorem Coords.Of.eq_of_mod (h : t.Of P) (hQ : Jac (x : ZMod q) y 1 Q)
    (hx : x * t.z ^ 2 % q = t.x % q) (hy : y * t.z ^ 3 % q = t.y % q) : P = Q := by
  have hP : Jac (t.x : ZMod q) t.y (t.z * 1) P := by rwa [mul_one]
  refine hP.eq_of_eq hQ ?_ ?_
  · rw [sub_eq_zero, ← Nat.cast_pow, ← Nat.cast_mul, ZMod.natCast_eq_natCast_iff']
    exact hx
  · rw [sub_eq_zero, ← Nat.cast_pow, ← Nat.cast_mul, ZMod.natCast_eq_natCast_iff']
    exact hy

/-- None of the first `k` points of a chain of doublings has one of the x coordinates. -/
def avoids (q : ℕ) (xs : List ℕ) : ℕ → Coords → Bool
  | 0, _ => true
  | k + 1, t => decide (t.z % q ≠ 0) &&
      xs.all (fun x => decide (x * (t.z * t.z % q) % q ≠ t.x % q)) && avoids q xs k (t.double q)

theorem avoids_succ {xs : List ℕ} {k : ℕ} (h : avoids q xs (k + 1) t = true) :
    (t.z : ZMod q) ≠ 0 ∧ (∀ x ∈ xs, (x * t.z ^ 2 : ZMod q) ≠ t.x) ∧
      avoids q xs k (t.double q) = true := by
  rw [avoids, Bool.and_eq_true, Bool.and_eq_true, decide_eq_true_iff, List.all_eq_true] at h
  obtain ⟨⟨hz, hx⟩, hrest⟩ := h
  refine ⟨?_, fun x hmem => ?_, hrest⟩
  · rwa [ne_eq, ZMod.natCast_eq_zero_iff, Nat.dvd_iff_mod_eq_zero]
  · have hne := of_decide_eq_true (hx x hmem)
    intro heq
    refine hne ?_
    rw [Nat.mul_mod_mod, ← ZMod.natCast_eq_natCast_iff']
    push_cast
    rw [← heq]
    ring

theorem avoids_spec (h2 : (2 : ZMod q) ≠ 0) {xs : List ℕ} {k : ℕ} (ht : t.Of P)
    (h : avoids q xs k t = true) {e : ℕ} (he : e < k) (hx : x ∈ xs) {y : ZMod q}
    (hQ : Jac (x : ZMod q) y 1 Q) : 2 ^ e • P ≠ Q := by
  induction k generalizing t P e with
  | zero => exact absurd he (Nat.not_lt_zero e)
  | succ k ih =>
    obtain ⟨-, hxs, hrest⟩ := avoids_succ h
    cases e with
    | zero =>
      rw [pow_zero, one_nsmul]
      rintro rfl
      obtain ⟨-, x₁, y₁, hp, hP, hx₁, -⟩ := ht
      obtain ⟨-, x₂, y₂, hq, hQ, hx₂, -⟩ := hQ
      obtain ⟨rfl, -⟩ := Point.some.inj (hP.symm.trans hQ)
      refine hxs x hx ?_
      rw [hx₁, hx₂]
      ring
    | succ e =>
      obtain ⟨k, rfl⟩ : ∃ m, k = m + 1 := ⟨k - 1, by omega⟩
      have hd := ht.double h2 (avoids_succ hrest).1
      rw [pow_succ, mul_nsmul, two_nsmul, ← nsmul_add]
      exact ih hd hrest (by omega)

/-! ## The number of points -/

/-- The x coordinate of a point and the choice between the two roots determine it. -/
theorem card_le (b : ZMod q) : Finite (Point b) ∧ Nat.card (Point b) ≤ 2 * q + 1 := by
  classical
  let root (x : ZMod q) : ZMod q := if h : ∃ y, y * y = x * x * x + b then h.choose else 0
  let code : Point b → Option (ZMod q × Bool)
    | .zero => none
    | .some x y _ => some (x, decide (y = root x))
  have hcode : Function.Injective code := by
    rintro (_ | ⟨x, y, h⟩) (_ | ⟨x', y', h'⟩) heq
    · rfl
    · cases heq
    · cases heq
    · simp only [code, Option.some.injEq, Prod.mk.injEq, decide_eq_decide] at heq
      obtain ⟨rfl, hroot⟩ := heq
      have heqn : ∀ {z}, (curve b).toAffine.Nonsingular x z → z * z = x * x * x + b := by
        intro z hz
        have := (equation_iff x z).mp hz.1
        simp only [curve] at this
        linear_combination this
      have hr : root x * root x = x * x * x + b := by
        have hex : ∃ y, y * y = x * x * x + b := ⟨y, heqn h⟩
        simp only [root, dif_pos hex]
        exact hex.choose_spec
      have hy := mul_self_eq_mul_self_iff.mp ((heqn h).trans hr.symm)
      have hy' := mul_self_eq_mul_self_iff.mp ((heqn h').trans hr.symm)
      obtain rfl : y = y' := by
        by_cases hc : y = root x
        · rw [hc, hroot.mp hc]
        · rw [hy.resolve_left hc, hy'.resolve_left fun h => hc (hroot.mpr h)]
      rfl
  refine ⟨.of_injective code hcode, (Nat.card_le_card_of_injective code hcode).trans_eq ?_⟩
  rw [Nat.card_eq_fintype_card, Fintype.card_option, Fintype.card_prod, ZMod.card,
    Fintype.card_bool, Nat.mul_comm]

end

end ShortCurve
