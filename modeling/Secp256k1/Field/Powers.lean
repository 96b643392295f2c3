import Secp256k1.Field.Model

/-!
# Square roots and inverses

The two addition chains of `field_impl.h` as powers: what `secp256k1_fe_inv` and
`secp256k1_fe_sqrt` return in any model of the field, and, over the five-limb backend with the x64
routines, that no operand on the way leaves the range the routines are written for.
-/

namespace Secp256k1

section

variable {F V β : Type} [CommRing V] {B : FieldOps F} (M : FieldModel B V) {m k : ℕ} {v w : V}
  {a b x y : F} {f : F → Option β} {R : β → Prop}

theorem feEqual_spec (ha : M.rep 1 v a) (hb : M.raw m w b) (hm : m ≤ 30) :
    Yields (feEqual B a b) (M.zero (-v + w)) := by
  refine (M.negate (m := 1) rfl (by norm_num) (M.raw_of_rep ha)).bind fun na hna => ?_
  refine (M.add (by omega) (M.raw_of_rep hna) hb).bind fun s hs => ?_
  exact M.normalizesToZero (by omega) hs

theorem feEqualVar_spec (ha : M.rep 1 v a) (hb : M.raw m w b) (hm : m ≤ 30) :
    Yields (feEqualVar B a b) (M.zero (-v + w)) := by
  refine (M.negate (m := 1) rfl (by norm_num) (M.raw_of_rep ha)).bind fun na hna => ?_
  refine (M.add (by omega) (M.raw_of_rep hna) hb).bind fun s hs => ?_
  exact M.normalizesToZeroVar (by omega) hs

theorem sqrN_spec (k : ℕ) (hx : M.rep 1 v x) : Yields (sqrN B k x) (M.rep 1 (v ^ 2 ^ k)) := by
  induction k generalizing v x with
  | zero =>
    rw [pow_zero, pow_one]
    exact .some hx
  | succ k ih =>
    refine (FieldModel.square hx (by norm_num)).bind fun y hy => (ih hy).mono fun z hz => ?_
    rwa [← sq, ← pow_mul, ← pow_succ'] at hz

/-- Two blocks of ones, one after the other. -/
theorem pow_ones_join (v : V) (i j : ℕ) :
    (v ^ (2 ^ i - 1)) ^ 2 ^ j * v ^ (2 ^ j - 1) = v ^ (2 ^ (i + j) - 1) := by
  rw [← pow_mul, ← pow_add]
  congr 1
  have hi : 0 < 2 ^ i := by positivity
  have hj : 0 < 2 ^ j := by positivity
  have hij : 2 ^ j ≤ 2 ^ i * 2 ^ j := Nat.le_mul_of_pos_left _ hi
  rw [Nat.sub_mul, one_mul, pow_add]
  omega

/-- A step of the chains: a block of `i` ones shifted by `j` squarings and joined with a block of
`j` ones. -/
theorem block_spec {i j : ℕ} (k : ℕ) (hk : i + j = k) (hx : M.rep 1 (v ^ (2 ^ i - 1)) x)
    (hy : M.rep 1 (v ^ (2 ^ j - 1)) y)
    (hf : ∀ z, M.rep 1 (v ^ (2 ^ k - 1)) z → Yields (f z) R) :
    Yields (sqrN B j x >>= fun t => B.mul t y >>= f) R := by
  refine (sqrN_spec M j hx).bind fun t ht => ?_
  refine (FieldModel.prod ht hy (by norm_num) (by norm_num)).bind fun z hz => hf z ?_
  rwa [pow_ones_join, hk] at hz

/-- The start of the chains: one more squaring and a product with the base. -/
theorem grow_spec {i : ℕ} (k : ℕ) (hk : i + 1 = k) (hm : m ≤ 8) (ha : M.raw m v a)
    (hx : M.raw 8 (v ^ (2 ^ i - 1)) x)
    (hf : ∀ z, M.rep 1 (v ^ (2 ^ k - 1)) z → Yields (f z) R) :
    Yields (B.sqr x >>= fun t => B.mul t a >>= f) R := by
  refine (M.sqr hx).bind fun t ht => ?_
  refine (M.mul (FieldModel.raw8 ht (by norm_num)) (M.raw_mono hm ha)).bind fun z hz => hf z ?_
  have hj := pow_ones_join v i 1
  rw [pow_one, pow_two, show (2 - 1 : ℕ) = 1 from rfl, pow_one, hk] at hj
  rwa [hj] at hz

theorem chain223_spec (hm : m ≤ 8) (ha : M.raw m v a) :
    Yields (chain223 B a) fun r => M.rep 1 (v ^ (2 ^ 2 - 1)) r.1 ∧
      M.rep 1 (v ^ (2 ^ 22 - 1)) r.2.1 ∧ M.rep 1 (v ^ (2 ^ 223 - 1)) r.2.2 := by
  have ha1 : M.raw 8 (v ^ (2 ^ 1 - 1)) a := by
    rw [show 2 ^ 1 - 1 = 1 from rfl, pow_one]
    exact M.raw_mono hm ha
  refine grow_spec M 2 rfl hm ha ha1 fun x2 h2 => ?_
  refine grow_spec M 3 rfl hm ha (FieldModel.raw8 h2 (by norm_num)) fun x3 h3 => ?_
  refine block_spec M 6 rfl h3 h3 fun x6 h6 => ?_
  refine block_spec M 9 rfl h6 h3 fun x9 h9 => ?_
  refine block_spec M 11 rfl h9 h2 fun x11 h11 => ?_
  refine block_spec M 22 rfl h11 h11 fun x22 h22 => ?_
  refine block_spec M 44 rfl h22 h22 fun x44 h44 => ?_
  refine block_spec M 88 rfl h44 h44 fun x88 h88 => ?_
  refine block_spec M 176 rfl h88 h88 fun x176 h176 => ?_
  refine block_spec M 220 rfl h176 h44 fun x220 h220 => ?_
  refine block_spec M 223 rfl h220 h3 fun x223 h223 => ?_
  exact .pure ⟨h2, h22, h223⟩

/-- The exponents the chains spell out. -/
theorem inv_exponent :
    (((((2 ^ 223 - 1) * 2 ^ 23 + (2 ^ 22 - 1)) * 2 ^ 5 + 1) * 2 ^ 3 + (2 ^ 2 - 1)) * 2 ^ 2 + 1) =
      p - 2 := by
  decide

theorem sqrt_exponent :
    ((((2 ^ 223 - 1) * 2 ^ 23 + (2 ^ 22 - 1)) * 2 ^ 6 + (2 ^ 2 - 1)) * 2) * 2 = (p + 1) / 4 := by
  decide

theorem feInv_spec (hm : m ≤ 8) (ha : M.raw m v a) :
    Yields (feInv B a) (M.rep 1 (v ^ (p - 2))) := by
  have ha8 := M.raw_mono hm ha
  refine (chain223_spec M hm ha).bind fun ⟨x2, x22, x223⟩ ⟨h2, h22, h223⟩ => ?_
  refine (sqrN_spec M 23 h223).bind fun t1 e1 => ?_
  refine (FieldModel.prod e1 h22 (by norm_num) (by norm_num)).bind fun t2 e2 => ?_
  refine (sqrN_spec M 5 e2).bind fun t3 e3 => ?_
  refine (M.mul (FieldModel.raw8 e3 (by norm_num)) ha8).bind fun t4 e4 => ?_
  refine (sqrN_spec M 3 e4).bind fun t5 e5 => ?_
  refine (FieldModel.prod e5 h2 (by norm_num) (by norm_num)).bind fun t6 e6 => ?_
  refine (sqrN_spec M 2 e6).bind fun t7 e7 => ?_
  refine (M.mul ha8 (FieldModel.raw8 e7 (by norm_num))).mono fun r hr => ?_
  rw [← inv_exponent, pow_succ', pow_mul _ _ (2 ^ 2), pow_add, pow_mul _ _ (2 ^ 3), pow_succ,
    pow_mul _ _ (2 ^ 5), pow_add, pow_mul _ _ (2 ^ 23)]
  exact hr

theorem feSqrt_spec (hm : m ≤ 8) (ha : M.raw m v a) :
    Yields (feSqrt B a) fun r => M.rep 1 (v ^ ((p + 1) / 4)) r.1 ∧
      M.zero (-(v ^ ((p + 1) / 4) * v ^ ((p + 1) / 4)) + v) r.2 := by
  refine (chain223_spec M hm ha).bind fun ⟨x2, x22, x223⟩ ⟨h2, h22, h223⟩ => ?_
  refine (sqrN_spec M 23 h223).bind fun t1 e1 => ?_
  refine (FieldModel.prod e1 h22 (by norm_num) (by norm_num)).bind fun t2 e2 => ?_
  refine (sqrN_spec M 6 e2).bind fun t3 e3 => ?_
  refine (FieldModel.prod e3 h2 (by norm_num) (by norm_num)).bind fun t4 e4 => ?_
  refine (FieldModel.square e4 (by norm_num)).bind fun t5 e5 => ?_
  refine (FieldModel.square e5 (by norm_num)).bind fun r hr => ?_
  replace hr : M.rep 1 (v ^ ((p + 1) / 4)) r := by
    rw [← sqrt_exponent, pow_mul _ _ 2, pow_mul _ _ 2, pow_add, pow_mul _ _ (2 ^ 6), pow_add,
      pow_mul _ _ (2 ^ 23), sq, sq]
    exact hr
  refine (FieldModel.square hr (by norm_num)).bind fun t6 e6 => ?_
  refine (feEqual_spec M e6 ha (by omega)).bind fun ok hok => ?_
  exact .pure ⟨hr, hok⟩

end

/-! ## Euler's criterion -/

theorem p_mod_four : p % 4 = 3 := by decide

/-- The candidate root squares to the value or to its opposite. -/
theorem sqrt_mul_self (v : ZMod p) :
    v ^ ((p + 1) / 4) * v ^ ((p + 1) / 4) = if IsSquare v then v else -v := by
  have hp := p_mod_four
  have hexp : v ^ ((p + 1) / 4) * v ^ ((p + 1) / 4) = v * v ^ (p / 2) := by
    rw [← pow_add, ← pow_succ']
    congr 1
  rw [hexp]
  by_cases hv : v = 0
  · rw [hv, zero_mul, if_pos (IsSquare.zero)]
  · by_cases hs : IsSquare v
    · rw [if_pos hs, (ZMod.euler_criterion p hv).mp hs, mul_one]
    · rw [if_neg hs, (ZMod.pow_div_two_eq_neg_one_or_one p hv).resolve_left
        (fun h => hs ((ZMod.euler_criterion p hv).mpr h)), mul_neg_one]

theorem two_ne_zero_mod : (2 : ZMod p) ≠ 0 := by
  intro h
  have hdvd : p ∣ 2 := (ZMod.natCast_eq_zero_iff 2 p).mp (by exact_mod_cast h)
  exact absurd (Nat.le_of_dvd (by norm_num) hdvd) (by decide)

/-- The test at the end of the square root. -/
theorem sqrt_test_iff (v : ZMod p) :
    -(v ^ ((p + 1) / 4) * v ^ ((p + 1) / 4)) + v = 0 ↔ IsSquare v := by
  rw [sqrt_mul_self]
  by_cases hs : IsSquare v
  · simp [hs]
  · rw [if_neg hs, neg_neg, ← two_mul, mul_eq_zero]
    refine iff_of_false (not_or.mpr ⟨two_ne_zero_mod, ?_⟩) hs
    rintro rfl
    exact hs IsSquare.zero

/-! ## The five-limb backend with the x64 routines -/

namespace Field5x52

variable (K : Kernel)

theorem sqr_below (a : Fe) : Below ((checked K).sqr a) ((ops K).sqr a) := guardWith_below _

theorem mul_below (a b : Fe) : Below ((checked K).mul a b) ((ops K).mul a b) := guardWith_below _

theorem sqrN_below (k : ℕ) (x : Fe) : Below (sqrN (checked K) k x) (sqrN (ops K) k x) := by
  induction k generalizing x with
  | zero =>
    rw [sqrN, sqrN]
    exact .refl _
  | succ k ih =>
    rw [sqrN, sqrN]
    exact (sqr_below K x).bind fun y => ih y

theorem chain223_below (a : Fe) : Below (chain223 (checked K) a) (chain223 (ops K) a) := by
  unfold chain223
  repeat' first
    | exact sqrN_below K _ _ | exact sqr_below K _ | exact mul_below K _ _
    | refine Below.bind ?_ fun _ => ?_ | exact .refl (some _)

theorem feInv_below (a : Fe) : Below (feInv (checked K) a) (feInv (ops K) a) := by
  unfold feInv
  refine (chain223_below K a).bind fun ⟨_, _, _⟩ => ?_
  repeat' first
    | exact sqrN_below K _ _ | exact mul_below K _ _ | refine Below.bind ?_ fun _ => ?_

theorem feEqual_below (a b : Fe) : Below (feEqual (checked K) a b) (feEqual (ops K) a b) :=
  (guardWith_below _).bind fun _ => (guardWith_below _).bind fun _ => guardWith_below _

theorem feSqrt_below (a : Fe) : Below (feSqrt (checked K) a) (feSqrt (ops K) a) := by
  unfold feSqrt
  refine (chain223_below K a).bind fun ⟨_, _, _⟩ => ?_
  repeat' first
    | exact sqrN_below K _ _ | exact sqr_below K _ | exact mul_below K _ _
    | exact feEqual_below K _ _ | refine Below.bind ?_ fun _ => ?_ | exact .refl (some _)

variable {K}

/-- The five-limb backend with its preconditions tested, read in the field. -/
def checkedField (hK : K.Sound) : FieldModel (checked K) (ZMod p) :=
  checkedModel K (ZMod.natCast_self p) hK.residues (fun v b => b = true ↔ v = 0) zero_iff

/-- Inverse and square root with the x64 routines, for an element of magnitude at most eight: with
every precondition tested they return, so no operand leaves its range; the results are those of the
code as compiled, of magnitude one, and the powers they are meant to be; the square root returns 1
exactly for squares, and otherwise the root of the opposite. -/
theorem x64_feInv_feSqrt (conv : CallConv) (a : Fe) (m : ℕ) (hm : m ≤ 8) (ha : Mag m a) :
    (∃ r, feInv (checked (x64 conv)) a = some r ∧ feInv (ops (x64 conv)) a = some r ∧ Mag 1 r ∧
      (r.val : ZMod p) = (a.val : ZMod p) ^ (p - 2)) ∧
    ∃ r ok, feSqrt (checked (x64 conv)) a = some (r, ok) ∧
      feSqrt (ops (x64 conv)) a = some (r, ok) ∧ Mag 1 r ∧
      (r.val : ZMod p) = (a.val : ZMod p) ^ ((p + 1) / 4) ∧
      (ok = true ↔ IsSquare (a.val : ZMod p)) ∧
      (ok = false → (r.val : ZMod p) ^ 2 = -(a.val : ZMod p)) := by
  have hraw : (checkedField (x64_sound conv)).raw m (a.val : ZMod p) a := ⟨ha, rfl⟩
  constructor
  · obtain ⟨r, hr, hmag, hval⟩ := feInv_spec (checkedField (x64_sound conv)) hm hraw
    exact ⟨r, hr, feInv_below _ a r hr, hmag, hval⟩
  · obtain ⟨⟨r, ok⟩, hr, ⟨hmag, hval⟩, hok⟩ := feSqrt_spec (checkedField (x64_sound conv)) hm hraw
    replace hok : ok = true ↔ IsSquare (a.val : ZMod p) := Iff.trans hok (sqrt_test_iff _)
    refine ⟨r, ok, hr, feSqrt_below _ a _ hr, hmag, hval, hok, fun hf => ?_⟩
    have hs : ¬ IsSquare (a.val : ZMod p) := fun hs => by
      rw [hok.mpr hs] at hf
      cases hf
    rw [sq, hval, sqrt_mul_self, if_neg hs]

/-- The element 3, which is not a square. -/
theorem x64_feInv_feSqrt_demo : Mag 8 (feSetInt 3) ∧
    ∃ r, feInv (ops (x64 .jwasm)) (feSetInt 3) = some r ∧
      (r.val : ZMod p) = ((feSetInt 3).val : ZMod p) ^ (p - 2) := by
  have h : Mag 8 (feSetInt 3) := by constructor <;> decide
  obtain ⟨r, -, hr, -, hval⟩ := (x64_feInv_feSqrt .jwasm (feSetInt 3) 8 le_rfl h).1
  exact ⟨h, r, hr, hval⟩

end Field5x52

end Secp256k1
