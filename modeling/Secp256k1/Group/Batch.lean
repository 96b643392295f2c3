import Secp256k1.Group.Law

/-!
# One inversion for many elements

`secp256k1_fe_inv_all_var` multiplies its operands up, inverts the last product and works back from
it; `secp256k1_ge_set_all_gej_var` uses it on the z coordinates of the finite points, which it keeps
in an array of their own.
-/

namespace Secp256k1

open ShortCurve Finset

/-! ## Inverses -/

section

variable {F : Type} {B : FieldOps F} {M : FieldModel B (ZMod p)} {a : ℕ → F} {v : ℕ → ZMod p}

theorem feInv_at {m : ℕ} {x : ZMod p} {z : F} (hm : m ≤ 8) (hz : M.raw m x z) (h0 : x ≠ 0) :
    Yields (feInv B z) (M.rep 1 x⁻¹) :=
  (feInv_spec M hm hz).mono fun _ h =>
    FieldModel.rep_congr h (eq_inv_of_mul_eq_one_left (pow_sub_two_mul h0))

/-- The products of the first elements. -/
theorem invAllForward_spec (k i : ℕ) (ha : ∀ j < i + 1 + k, M.raw 8 (v j) (a j)) {r : ℕ → F}
    (hr : ∀ j ≤ i, M.raw 8 (∏ t ∈ range (j + 1), v t) (r j)) :
    Yields (invAllForward B a k (i + 1) r) fun r =>
      ∀ j ≤ i + k, M.raw 8 (∏ t ∈ range (j + 1), v t) (r j) := by
  induction k generalizing i r with
  | zero => exact .some hr
  | succ k ih =>
    rw [show i + 1 + (k + 1) = i + 1 + 1 + k by omega] at ha
    rw [show i + (k + 1) = i + 1 + k by omega]
    refine (M.mul (hr i le_rfl) (ha (i + 1) (by omega))).bind fun x hx => ?_
    refine ih (i + 1) ha fun j hj => ?_
    by_cases hji : j = i + 1
    · subst hji
      rw [Function.update_self, prod_range_succ]
      exact FieldModel.raw8 hx (by norm_num)
    · rw [Function.update_of_ne hji]
      exact hr j (by omega)

/-- `u` is the inverse of the product up to `i`, and all inverses above `i` are found. -/
theorem invAllBackward_spec {len : ℕ} (ha : ∀ j < len, M.raw 8 (v j) (a j))
    (h0 : ∀ j < len, v j ≠ 0) (i : ℕ) (hi : i < len) {r : ℕ → F} {u : F}
    (hr : ∀ j ≤ i, M.raw 8 (∏ t ∈ range (j + 1), v t) (r j))
    (hu : M.rep 1 (∏ t ∈ range (i + 1), v t)⁻¹ u)
    (hdone : ∀ j < len, i < j → M.rep 1 (v j)⁻¹ (r j)) :
    Yields (invAllBackward B a i r u) fun r => ∀ j < len, M.rep 1 (v j)⁻¹ (r j) := by
  induction i generalizing r u with
  | zero =>
    refine .some fun j hj => ?_
    by_cases hj0 : j = 0
    · subst hj0
      rwa [prod_range_one] at hu
    · rw [Function.update_of_ne hj0]
      exact hdone j hj (by omega)
  | succ i ih =>
    have hv : v (i + 1) ≠ 0 := h0 (i + 1) hi
    have hprod : ∏ t ∈ range (i + 1), v t ≠ 0 :=
      prod_ne_zero_iff.mpr fun t ht => h0 t (by have := mem_range.mp ht; omega)
    rw [prod_range_succ] at hu
    refine (M.mul (hr i (by omega)) (FieldModel.raw8 hu (by norm_num))).bind fun x hx => ?_
    refine (M.mul (FieldModel.raw8 hu (by norm_num)) (ha (i + 1) hi)).bind fun u hu => ?_
    refine ih (by omega) (fun j hj => ?_) (FieldModel.rep_congr hu ?_) fun j hj hij => ?_
    · rw [Function.update_of_ne (by omega)]
      exact hr j (by omega)
    · rw [mul_inv, mul_assoc, inv_mul_cancel₀ hv, mul_one]
    · by_cases hji : j = i + 1
      · subst hji
        rw [Function.update_self]
        refine FieldModel.rep_congr hx ?_
        rw [mul_inv, ← mul_assoc, mul_inv_cancel₀ hprod, one_mul]
      · rw [Function.update_of_ne hji]
        exact hdone j hj (by omega)

/-- All inverses of elements that are not zero, from any memory. -/
theorem feInvAllVar_spec {len : ℕ} (ha : ∀ j < len, M.raw 8 (v j) (a j))
    (h0 : ∀ j < len, v j ≠ 0) (r : ℕ → F) :
    Yields (feInvAllVar B r a len) fun r => ∀ j < len, M.rep 1 (v j)⁻¹ (r j) := by
  unfold feInvAllVar
  split
  · exact .some fun j hj => absurd hj (by omega)
  · next hlen =>
    have hfirst : ∀ j ≤ 0, M.raw 8 (∏ t ∈ range (j + 1), v t) (Function.update r 0 (a 0) j) := by
      intro j hj
      obtain rfl := Nat.le_zero.mp hj
      rw [Function.update_self, prod_range_one]
      exact ha 0 (by omega)
    refine (invAllForward_spec (len - 1) 0 (fun j hj => ha j (by omega)) hfirst).bind fun r hr => ?_
    rw [Nat.zero_add] at hr
    have hprod : ∏ t ∈ range (len - 1 + 1), v t ≠ 0 :=
      prod_ne_zero_iff.mpr fun t ht => h0 t (by have := mem_range.mp ht; omega)
    refine (feInv_at le_rfl (hr (len - 1) le_rfl) hprod).bind fun u hu => ?_
    exact invAllBackward_spec ha h0 (len - 1) (by omega) hr hu fun j hj hij => absurd hij (by omega)

end

/-! ## Points -/

section

variable {F : Type} {B : FieldOps F} {M : FieldModel B (ZMod p)} {a : ℕ → Gej F} {Q : ℕ → Point}

/-- The number of finite points before the index `i`: where the z coordinate of entry `i` is. -/
def finiteBefore (a : ℕ → Gej F) (i : ℕ) : ℕ := Nat.count (fun j => (a j).infinity = false) i

theorem collectZ_spec (k i : ℕ) {az : ℕ → F}
    (haz : ∀ j < i, (a j).infinity = false → az (finiteBefore a j) = (a j).z) :
    (collectZ a k i az (finiteBefore a i)).2 = finiteBefore a (i + k) ∧
      ∀ j < i + k, (a j).infinity = false →
        (collectZ a k i az (finiteBefore a i)).1 (finiteBefore a j) = (a j).z := by
  induction k generalizing i az with
  | zero => exact ⟨rfl, haz⟩
  | succ k ih =>
    rw [show i + (k + 1) = i + 1 + k by omega]
    cases hinf : (a i).infinity with
    | true =>
      have hcount : finiteBefore a (i + 1) = finiteBefore a i := by
        simp only [finiteBefore, Nat.count_succ, hinf, Bool.true_eq_false, if_false, add_zero]
      rw [collectZ, if_pos hinf, ← hcount]
      refine ih (i + 1) fun j hj hfin => haz j ?_ hfin
      rcases Nat.lt_succ_iff_lt_or_eq.mp hj with h | rfl
      · exact h
      · rw [hinf] at hfin
        cases hfin
    | false =>
      have hcount : finiteBefore a (i + 1) = finiteBefore a i + 1 := by
        simp only [finiteBefore, Nat.count_succ, hinf, if_true]
      rw [collectZ, hinf, if_neg Bool.false_ne_true, ← hcount]
      refine ih (i + 1) fun j hj hfin => ?_
      rcases Nat.lt_succ_iff_lt_or_eq.mp hj with h | rfl
      · have hlt : finiteBefore a j < finiteBefore a i := Nat.count_strict_mono hfin h
        rw [Function.update_of_ne hlt.ne]
        exact haz j h hfin
      · rw [Function.update_self]

theorem exists_finiteBefore (len : ℕ) {k : ℕ} (hk : k < finiteBefore a len) :
    ∃ j < len, (a j).infinity = false ∧ finiteBefore a j = k := by
  induction len with
  | zero => exact absurd hk (by simp [finiteBefore])
  | succ len ih =>
    by_cases hlt : k < finiteBefore a len
    · obtain ⟨j, hj, h⟩ := ih hlt
      exact ⟨j, by omega, h⟩
    · rw [finiteBefore, Nat.count_succ] at hk
      split at hk
      · next hfin => exact ⟨len, by omega, hfin, by rw [finiteBefore] at hlt ⊢; omega⟩
      · exact absurd hk hlt

theorem setAllLoop_at {azi : ℕ → F} {len : ℕ} (ha : ∀ j < len, GejAt M 1 (Q j) (a j))
    (hazi : ∀ j < len, (a j).infinity = false → ∃ X Y Z, M.raw 8 X (a j).x ∧ M.raw 8 Y (a j).y ∧
      M.rep 1 Z⁻¹ (azi (finiteBefore a j)) ∧ Jac X Y Z (Q j)) (k i : ℕ) (hk : i + k = len)
    {r : ℕ → Ge F} (hr : ∀ j < i, AffineAt M 1 (Q j) (r j)) :
    Yields (setAllLoop B a azi k i r (finiteBefore a i)) fun r =>
      ∀ j < len, AffineAt M 1 (Q j) (r j) := by
  have hupdate : ∀ {i} {r : ℕ → Ge F} {q}, (∀ j < i, AffineAt M 1 (Q j) (r j)) →
      AffineAt M 1 (Q i) q → ∀ j < i + 1, AffineAt M 1 (Q j) (Function.update r i q j) := by
    intro i r q hr hq j hj
    by_cases hji : j = i
    · subst hji
      rwa [Function.update_self]
    · rw [Function.update_of_ne hji]
      exact hr j (by omega)
  induction k generalizing i r with
  | zero =>
    obtain rfl : i = len := hk
    exact .some hr
  | succ k ih =>
    have hi : i < len := by omega
    cases hinf : (a i).infinity with
    | true =>
      have hcount : finiteBefore a (i + 1) = finiteBefore a i := by
        simp only [finiteBefore, Nat.count_succ, hinf, Bool.true_eq_false, if_false, add_zero]
      rw [setAllLoop, if_pos hinf, ← hcount]
      exact ih (i + 1) (by omega) (hupdate hr (.inl ⟨rfl, (ha i hi).infinity_iff.mp hinf⟩))
    | false =>
      have hcount : finiteBefore a (i + 1) = finiteBefore a i + 1 := by
        simp only [finiteBefore, Nat.count_succ, hinf, if_true]
      obtain ⟨X, Y, Z, hx, hy, hz, hjac⟩ := hazi i hi hinf
      rw [setAllLoop, hinf, if_neg Bool.false_ne_true, ← hcount]
      refine (geSetGejZinv_spec hx hy (FieldModel.raw8 hz (by norm_num))).bind fun q hq => ?_
      obtain ⟨hqinf, hqx, hqy⟩ := hq
      refine ih (i + 1) (by omega) (hupdate hr (.inr ⟨_, _, hqinf.trans hinf,
        M.rep_mono (by norm_num) hqx, M.rep_mono (by norm_num) hqy, ?_⟩))
      have hscale := hjac.scale (inv_ne_zero hjac.1)
      rwa [mul_inv_cancel₀ hjac.1] at hscale

theorem setAllLoop_frame {azi : ℕ → F} (k i : ℕ) {r r' : ℕ → Ge F} {count : ℕ}
    (h : setAllLoop B a azi k i r count = some r') (j : ℕ)
    (hj : i + k ≤ j) : r' j = r j := by
  induction k generalizing i r count with
  | zero =>
    obtain rfl := Option.some.inj h
    rfl
  | succ k ih =>
    rw [setAllLoop] at h
    split at h
    · rw [ih (i + 1) h (by omega), Function.update_of_ne (by omega)]
    · obtain ⟨q, -, h⟩ := Option.bind_eq_some_iff.mp h
      rw [ih (i + 1) h (by omega), Function.update_of_ne (by omega)]

/-- All points in affine coordinates, from any memory; those at infinity are marked. -/
theorem geSetAllGejVar_at {len : ℕ} (ha : ∀ j < len, GejAt M 1 (Q j) (a j)) (az azi : ℕ → F)
    (r : ℕ → Ge F) :
    Yields (geSetAllGejVar B az azi r a len) fun r => ∀ j < len, AffineAt M 1 (Q j) (r j) := by
  have hcoords : ∀ j, ∃ X Y Z, j < len → (a j).infinity = false → M.raw 8 X (a j).x ∧
      M.raw 8 Y (a j).y ∧ M.raw 8 Z (a j).z ∧ Jac X Y Z (Q j) := by
    intro j
    by_cases hj : j < len ∧ (a j).infinity = false
    · rcases ha j hj.1 with ⟨hinf, -⟩ | ⟨X, Y, Z, -, hx, hy, hz, hjac⟩
      · rw [hj.2] at hinf
        cases hinf
      · rw [mul_one] at hjac
        exact ⟨X, Y, Z, fun _ _ => ⟨M.raw_of_rep hx, M.raw_of_rep hy, hz, hjac⟩⟩
    · exact ⟨0, 0, 0, fun h h' => absurd ⟨h, h'⟩ hj⟩
  choose X Y Z hcoords using hcoords
  -- the value at each place of the array of z coordinates
  let v (k : ℕ) : ZMod p := Z (Nat.nth (fun j => (a j).infinity = false) k)
  have hv : ∀ {j}, (a j).infinity = false → v (finiteBefore a j) = Z j := fun hfin =>
    congrArg Z (Nat.nth_count hfin)
  have hstart : ∀ j < 0, (a j).infinity = false → az (finiteBefore a j) = (a j).z :=
    fun j hj => absurd hj (by omega)
  obtain ⟨hcount, hz⟩ := collectZ_spec len 0 hstart
  rw [Nat.zero_add] at hcount hz
  unfold geSetAllGejVar
  rw [show finiteBefore a 0 = 0 from Nat.count_zero _] at hcount hz
  generalize collectZ a len 0 az 0 = t at hcount hz ⊢
  obtain ⟨az, count⟩ := t
  obtain rfl : count = finiteBefore a len := hcount
  dsimp only at hz
  have hraw : ∀ k < finiteBefore a len, M.raw 8 (v k) (az k) ∧ v k ≠ 0 := by
    intro k hk
    obtain ⟨j, hj, hfin, rfl⟩ := exists_finiteBefore len hk
    obtain ⟨-, -, hZ, hjac⟩ := hcoords j hj hfin
    rw [hv hfin, hz j hj hfin]
    exact ⟨hZ, hjac.1⟩
  refine (feInvAllVar_spec (fun k hk => (hraw k hk).1) (fun k hk => (hraw k hk).2) azi).bind
    fun azi hazi => ?_
  refine setAllLoop_at ha (fun j hj hfin => ?_) len 0 (Nat.zero_add len)
    fun j hj => absurd hj (by omega)
  obtain ⟨hx, hy, -, hjac⟩ := hcoords j hj hfin
  have hlt : finiteBefore a j < finiteBefore a len := Nat.count_strict_mono hfin hj
  have hinv := hazi _ hlt
  rw [hv hfin] at hinv
  exact ⟨X j, Y j, Z j, hx, hy, hinv, hjac⟩

end

namespace FieldBackend

/-- One inversion for all points gives what an inversion for each gives, and writes nothing else. -/
theorem geSetAllGejVar_affine {b : FieldBackend} (hb : b.Sound) {len : ℕ} {a : ℕ → Gej b.Fe}
    {Q : ℕ → Point} (ha : ∀ j < len, GejAt (b.values hb).toFieldModel 1 (Q j) (a j))
    (az azi : ℕ → b.Fe) (r : ℕ → Ge b.Fe) :
    (Yields (geSetAllGejVar b.ops az azi r a len) fun r' =>
      (∀ j < len, AffineAt (b.values hb).toFieldModel 1 (Q j) (r' j)) ∧
        ∀ j, len ≤ j → r' j = r j) ∧
    ∀ j < len, ∀ q, Yields (geSetGejVar b.ops q (a j)) fun t =>
      AffineAt (b.values hb).toFieldModel 1 (Q j) t.1 := by
  refine ⟨?_, fun j hj q => ?_⟩
  · obtain ⟨r', hr', hat⟩ := geSetAllGejVar_at ha az azi r
    refine ⟨r', hr', hat, fun j hj => ?_⟩
    obtain ⟨azi', -, hloop⟩ := Option.bind_eq_some_iff.mp hr'
    exact setAllLoop_frame len 0 hloop j (by omega)
  · rcases ha j hj with ⟨hinf, hzero⟩ | ⟨X, Y, Z, hinf, hx, hy, hz, hZ, x, y, h, hP, rfl, rfl⟩
    · rw [geSetGejVar, if_pos hinf]
      exact .some (.inl ⟨hinf, hzero⟩)
    · rw [mul_one] at hx hy hZ
      refine (geSetGejVar_spec (b.values hb).toFieldModel q hinf hZ ((b.values hb).raw_of_rep hx)
        ((b.values hb).raw_of_rep hy) hz).mono fun t ht => ?_
      obtain ⟨hinf', hx', hy', -⟩ := ht
      rw [hP]
      exact .inr ⟨x, y, hinf', (b.values hb).rep_mono (by norm_num) hx',
        (b.values hb).rep_mono (by norm_num) hy', (nonsingular_iff.mp h).jac⟩

/-- A point at infinity between two forms of the generator. -/
theorem geSetAllGejVar_affine_demo :
    Yields (geSetAllGejVar (limbs5x52 .portable).ops
      (fun _ => (limbs5x52 .portable).ops.setInt 0) (fun _ => (limbs5x52 .portable).ops.setInt 0)
      (fun _ => geClear (limbs5x52 .portable).ops)
      (fun j => if j = 1 then gejSetInfinity (limbs5x52 .portable).ops else
        gejSetGe (limbs5x52 .portable).ops ⟨(limbs5x52 .portable).encode generatorX,
          (limbs5x52 .portable).encode generatorY, false⟩) 3) fun r' =>
      (∀ j < 3, AffineAt ((limbs5x52 .portable).values (sound_5x52 .portable)).toFieldModel 1
        (if j = 1 then 0 else generator) (r' j)) ∧
        ∀ j, 3 ≤ j → r' j = geClear (limbs5x52 .portable).ops := by
  refine (geSetAllGejVar_affine (sound_5x52 .portable) (fun j _ => ?_) _ _ _).1
  split
  · exact .inl ⟨rfl, rfl⟩
  · exact .inr (gejSetGe_at (encode_geAt (sound_5x52 .portable) onCurve_generator))

end FieldBackend

end Secp256k1
