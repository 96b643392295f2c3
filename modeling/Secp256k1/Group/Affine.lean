import Secp256k1.Group.Curve
import Secp256k1.Group.Impl

/-!
# Affine points from coordinates

What `secp256k1_ge_set_xquad`, `secp256k1_ge_set_xo_var` and `secp256k1_ge_is_valid_var` decide,
over any backend.
-/

namespace Secp256k1

variable {F : Type} {B : FieldOps F} (M : FieldValues B) {m k : ℕ} {v w : ZMod p} {x y : F}

theorem curveB_spec : M.norm 7 (B.setInt curveB) := by
  have h := M.setInt (i := curveB) (k := 7) rfl (by norm_num)
  rwa [Nat.cast_ofNat] at h

theorem geSetXquad_spec (hx : M.raw m v x) (hm : m ≤ 8) :
    Yields (geSetXquad B x) fun r => r.1.x = x ∧ r.1.infinity = false ∧
      M.rep 1 ((v * v * v + 7) ^ ((p + 1) / 4)) r.1.y ∧
      (r.2 = true ↔ IsSquare (v * v * v + 7)) := by
  have hx8 := M.raw_mono hm hx
  refine (M.sqr hx8).bind fun x2 h2 => ?_
  refine (M.mul hx8 (FieldModel.raw8 h2 (by norm_num))).bind fun x3 h3 => ?_
  refine (FieldModel.sum (M.rep_of_norm (curveB_spec M)) h3 (by norm_num)).bind fun c hc => ?_
  have hval : 7 + v * (v * v) = v * v * v + 7 := by ring
  rw [hval] at hc
  refine (feSqrt_spec M.toFieldModel (by norm_num) (M.raw_of_rep hc)).bind fun ⟨r, ok⟩ h => ?_
  obtain ⟨hr, hok⟩ := h
  refine .pure ⟨rfl, rfl, hr, ?_⟩
  rw [M.zero_iff, sqrt_test_iff] at hok
  exact hok

/-- The point whose x coordinate is given and whose y coordinate has the given parity. -/
theorem geSetXoVar_spec (hx : M.raw m v x) (hm : m ≤ 8) (odd : Bool) :
    Yields (geSetXoVar B x odd) fun r => (r.2 = true ↔ ∃ w, OnCurve v w) ∧
      (r.2 = true → r.1.x = x ∧ r.1.infinity = false ∧
        ∃ w, OnCurve v w ∧ M.rep 2 w r.1.y ∧ (w.val % 2 = 1 ↔ odd = true)) := by
  refine (geSetXquad_spec M hx hm).bind fun ⟨r, ok⟩ h => ?_
  obtain ⟨hrx, hinf, hry, hok⟩ := h
  have hiff : ok = true ↔ ∃ w, OnCurve v w := by
    rw [hok]
    exact exists_congr fun w => eq_comm
  cases ok with
  | false => exact .pure ⟨hiff, fun h => nomatch h⟩
  | true =>
    have hroot := sqrt_mul_self (v * v * v + 7)
    rw [if_pos (hok.mp rfl)] at hroot
    generalize (v * v * v + 7) ^ ((p + 1) / 4) = s at hry hroot
    have hs : OnCurve v s := hroot
    refine (M.normalizeVar (by norm_num) hry).bind fun y hy => ?_
    have hodd := M.isOdd hy
    by_cases hpar : B.isOdd y = odd
    · rw [if_neg (by rw [hpar, bne_self_eq_false]; exact Bool.false_ne_true)]
      refine .pure ⟨hiff, fun _ => ⟨hrx, hinf, s, hs, ?_, ?_⟩⟩
      · exact M.rep_mono (by norm_num) (M.rep_of_norm hy)
      · rw [← hodd, hpar]
    · rw [if_pos (bne_iff_ne.mpr hpar)]
      refine (M.negate (m := 1) rfl (by norm_num) (M.raw_of_rep (M.rep_of_norm hy))).bind
        fun z hz => ?_
      refine .pure ⟨hiff, fun _ => ⟨hrx, hinf, -s, ?_, hz, ?_⟩⟩
      · rw [OnCurve, neg_mul_neg]
        exact hs
      · rw [val_neg_mod_two hs.y_ne_zero, ← hodd]
        cases hB : B.isOdd y <;> cases odd <;> simp_all

theorem geIsValidVar_spec (hx : M.raw m v x) (hm : m ≤ 8) (hy : M.raw k w y) (hk : k ≤ 8) :
    Yields (geIsValidVar B (geSetXy x y)) fun ok => ok = true ↔ OnCurve v w := by
  have hx8 := M.raw_mono hm hx
  refine (M.sqr (M.raw_mono hk hy)).bind fun y2 h2 => ?_
  refine (M.sqr hx8).bind fun x2 e2 => ?_
  refine (M.mul (FieldModel.raw8 e2 (by norm_num)) hx8).bind fun x3 e3 => ?_
  refine (FieldModel.sum e3 (M.rep_of_norm (curveB_spec M)) (by norm_num)).bind fun c hc => ?_
  refine (M.normalizeWeak (by norm_num) hc).bind fun d hd => ?_
  refine (feEqualVar_spec M.toFieldModel h2 (M.raw_of_rep hd) (by norm_num)).mono fun ok hok => ?_
  rw [M.zero_iff, neg_add_eq_zero] at hok
  exact hok

/-- The x coordinate of a Jacobian form compared with `v`. -/
theorem gejEqXVar_spec {z : ZMod p} {a : Gej F} (hx : M.raw m v x) (hm : m ≤ 8)
    (hax : M.raw k w a.x) (hk : k ≤ 32) (hz : M.raw 8 z a.z) :
    Yields (gejEqXVar B x a) fun b => b = true ↔ w = v * (z * z) := by
  refine (M.sqr hz).bind fun r h => ?_
  refine (M.mul (FieldModel.raw8 h (by norm_num)) (M.raw_mono hm hx)).bind fun r h => ?_
  refine (M.weaken hk hax).bind fun r2 h2 => ?_
  refine (feEqualVar_spec M.toFieldModel h h2 (by norm_num)).mono fun b hb => ?_
  rw [M.zero_iff, neg_add_eq_zero] at hb
  rw [hb, mul_comm v, eq_comm]

end Secp256k1
