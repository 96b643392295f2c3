import Secp256k1.Scalar.Impl4x64

/-!
# What the four-limb scalar operations compute
-/

namespace Secp256k1.Scalar4x64

open Secp256k1.Scalar

theorem compare_val (d e : Scalar) : compare (Limbs.val d) (Limbs.val e) =
    (((compare (d 3).toNat (e 3).toNat).then (compare (d 2).toNat (e 2).toNat)).then
      (compare (d 1).toNat (e 1).toNat)).then (compare (d 0).toNat (e 0).toNat) := by
  rw [Limbs.compare_succ, Limbs.compare_succ, Limbs.compare_succ, Limbs.compare_succ]
  rfl

/-- The cascade of `secp256k1_scalar_check_overflow` over the comparisons of the limbs. -/
theorem overflow_cascade : ∀ o3 o2 o1 o0 : Ordering, o3.isGT = false →
    (let no := o3.isLT
     let no := no || o2.isLT
     let yes := o2.isGT && !no
     let no := no || o1.isLT
     let yes := yes || o1.isGT && !no
     yes || o0.isGE && !no) = (((o3.then o2).then o1).then o0).isGE := by
  decide

theorem orderLimbs_val : Limbs.val orderLimbs = n := by decide

theorem scalarCheckOverflow_eq (a : Scalar) :
    scalarCheckOverflow a = ofBool (n ≤ Limbs.val a) := by
  rw [← orderLimbs_val, le_eq_isGE, compare_val, ← overflow_cascade _ _ _ _ (isGT_allOnes rfl)]
  simp only [scalarCheckOverflow, lt_eq_isLT (a _), gt_eq_isGT (a _), ge_eq_isGE, ofBool_or,
    ofBool_and_not]

/-- The cascade of `secp256k1_scalar_is_high`. -/
theorem high_cascade : ∀ o3 o2 o1 o0 : Ordering, o2.isGT = false →
    (let no := o3.isLT
     let yes := o3.isGT && !no
     let no := no || o2.isLT && !yes
     let no := no || o1.isLT && !yes
     let yes := yes || o1.isGT && !no
     yes || o0.isGT && !no) = (((o3.then o2).then o1).then o0).isGT := by
  decide

theorem orderH_val : Limbs.val orderH = n / 2 := by decide

theorem scalarIsHigh_eq (a : Scalar) : scalarIsHigh a = ofBool (n / 2 < Limbs.val a) := by
  rw [← orderH_val, lt_eq_isGT, compare_val, ← high_cascade _ _ _ _ (isGT_allOnes rfl)]
  simp only [scalarIsHigh, lt_eq_isLT (a _), gt_eq_isGT (a _), ofBool_or, ofBool_and_not]

theorem scalarIsZero_eq (a : Scalar) : scalarIsZero a = decide (Limbs.val a = 0) := by
  rw [scalarIsZero, decide_eq_decide, Limbs.val_eq_zero_iff, Word.or_eq_zero, Word.or_eq_zero,
    Word.or_eq_zero, Fin.forall_fin_succ, Fin.forall_fin_succ, Fin.forall_fin_two, and_assoc,
    and_assoc]
  rfl

theorem limbs_pow : ((2 ^ 64) ^ 4 : ℕ) = 2 ^ 256 := by norm_num

theorem val_lt (a : Scalar) : Limbs.val a < 2 ^ 256 := limbs_pow ▸ Limbs.val_lt a

/-- The limbs of `SECP256K1_N_C` up to the length of a scalar. -/
def orderCPadded : Scalar := ![orderC 0, orderC 1, orderC 2, 0]

theorem orderCPadded_val : Limbs.val orderCPadded = nc := by decide

theorem scalarReduce_val (r : Scalar) {ov : CInt} {o : ℕ} (ho : ov.toNat = o) (h : o ≤ 1) :
    Limbs.val (scalarReduce r ov) = (Limbs.val r + o * nc) % 2 ^ 256 := by
  have hov : (ov.setWidth 64).toNat = o := Word.toNat_setWidth ho (by omega)
  have hprod (c : U64) : (ov.setWidth 64 * c).toNat = o * c.toNat := by
    have := c.isLt
    have : o * c.toNat ≤ 1 * c.toNat := Nat.mul_le_mul_right _ h
    exact Word.toNat_mul hov rfl (by omega)
  have hcol := foldChain_spec (x := ![wide (r 0) + wide (ov.setWidth 64 * orderC 0),
      wide (r 1) + wide (ov.setWidth 64 * orderC 1), wide (r 2) + wide (ov.setWidth 64 * orderC 2),
      wide (r 3)]) (r := r) (c := orderCPadded) (q := o) (by decide) limbs_pow (by omega)
      fun i => by
    fin_cases i
    · exact (toNat_wide_add (by decide) _ _).trans (congrArg _ (hprod _))
    · exact (toNat_wide_add (by decide) _ _).trans (congrArg _ (hprod _))
    · exact (toNat_wide_add (by decide) _ _).trans (congrArg _ (hprod _))
    · exact (toNat_wide (r 3)).trans (Nat.add_zero _).symm
  rw [orderCPadded_val] at hcol
  rw [← hcol, Nat.add_mul_mod_self_left, Nat.mod_eq_of_lt (val_lt _), scalarReduce]

theorem reduces : Reduces scalarCheckOverflow scalarReduce where
  width := by decide
  limbs := limbs_pow
  overflow := scalarCheckOverflow_eq
  adds r _ _ := scalarReduce_val r

theorem scalarGetBits_one (a : Scalar) {offset : ℕ} (h : offset < 256) :
    (scalarGetBits a offset 1).toNat = Limbs.val a / 2 ^ offset % 2 :=
  getBits_one (show 64 = 2 ^ 6 by norm_num) (by decide) a h

theorem scalarGetBitsVar_spec (a : Scalar) {offset count : ℕ} (h0 : 0 < count) (hc : count < 32)
    (h : offset + count ≤ 256) :
    (scalarGetBitsVar a offset count).toNat = Limbs.val a / 2 ^ offset % 2 ^ count :=
  getBitsVar_spec (show 64 = 2 ^ 6 by norm_num) (by decide) a h0 hc h

theorem scalarSetInt_val (v : BitVec 32) : Limbs.val (scalarSetInt v) = v.toNat := by
  have hv : (v.setWidth 64).toNat = v.toNat := Word.toNat_setWidth rfl (by omega)
  simp [scalarSetInt, Limbs.val, Limbs.eval, Fin.sum_univ_succ, hv]

theorem scalarIsOne_eq (a : Scalar) : scalarIsOne a = decide (Limbs.val a = 1) := by
  have h1 : Limbs.val (scalarSetInt 1) = 1 := scalarSetInt_val 1
  rw [scalarIsOne, decide_eq_decide, ← h1]
  constructor
  · intro h
    simp only [Word.or_eq_zero, and_assoc] at h
    obtain ⟨h0, h1, h2, h3⟩ := h
    refine congrArg Limbs.val (funext fun i => ?_)
    fin_cases i
    · exact BitVec.xor_eq_zero_iff.mp h0
    · exact h1
    · exact h2
    · exact h3
  · intro h
    rw [Limbs.val_inj h]
    decide

theorem val_expand (a : Scalar) : Limbs.val a = (a 0).toNat + (a 1).toNat * 2 ^ 64 +
    (a 2).toNat * 2 ^ 128 + (a 3).toNat * 2 ^ 192 := by
  simp only [Limbs.val, Limbs.eval, Fin.sum_univ_four]
  norm_num

theorem scalarOfB32_val (b : Fin 32 → Byte) : Limbs.val (scalarOfB32 b) = Bytes.be b := by
  have h (l : List Byte) (hl : l.length = 8) : (joinBytes 64 0 l).toNat = Bytes.leNat l :=
    (joinBytes_toNat (by rw [hl])).trans (Nat.mul_one _)
  rw [val_expand, Bytes.be32]
  simp only [scalarOfB32, Matrix.cons_val]
  rw [h _ rfl, h _ rfl, h _ rfl, h _ rfl]
  simp only [Bytes.leNat]
  ring

/-- The bytes a limb is made of. -/
theorem limb_bytes {x : ℕ} (h : x < 2 ^ 64) :
    x / 2 ^ 56 % 2 ^ 8 * 2 ^ 56 + x / 2 ^ 48 % 2 ^ 8 * 2 ^ 48 + x / 2 ^ 40 % 2 ^ 8 * 2 ^ 40 +
      x / 2 ^ 32 % 2 ^ 8 * 2 ^ 32 + x / 2 ^ 24 % 2 ^ 8 * 2 ^ 24 + x / 2 ^ 16 % 2 ^ 8 * 2 ^ 16 +
      x / 2 ^ 8 % 2 ^ 8 * 2 ^ 8 + x / 2 ^ 0 % 2 ^ 8 = x := by
  omega

theorem scalarGetB32_be (a : Scalar) : Bytes.be (scalarGetB32 a) = Limbs.val a := by
  have h0 := limb_bytes (a 0).isLt
  have h1 := limb_bytes (a 1).isLt
  have h2 := limb_bytes (a 2).isLt
  have h3 := limb_bytes (a 3).isLt
  rw [Bytes.be32, scalarGetB32, val_expand]
  simp only [Matrix.cons_val, toNat_byteOf]
  conv_rhs => rw [← h0, ← h1, ← h2, ← h3]
  ring

theorem scalarNegate_spec {a : Scalar} (h : Limbs.val a < n) :
    Limbs.val (scalarNegate a) = (n - Limbs.val a) % n := by
  have hm : 0xFFFFFFFFFFFFFFFF * (ofBool (scalarIsZero a = false)).setWidth 64 =
      if scalarIsZero a then 0 else BitVec.allOnes 64 := by
    cases scalarIsZero a <;> decide
  exact negate_masked (by decide) limbs_pow orderLimbs_val (scalarIsZero_eq a ▸ hm) h

theorem scalarCondNegate_spec {a : Scalar} (h : Limbs.val a < n) (flag : CInt) :
    Limbs.val (scalarCondNegate a flag).1 =
        (if flag = 0 then Limbs.val a else (n - Limbs.val a) % n) ∧
      (scalarCondNegate a flag).2 = if flag = 0 then 1 else -1 := by
  have hm : (ofBool (scalarIsZero a ≠ false) - 1).signExtend 64 =
      if scalarIsZero a then 0 else BitVec.allOnes 64 := by
    cases scalarIsZero a <;> decide
  exact condNegate_masked (by decide) limbs_pow orderLimbs_val (by decide)
    (scalarIsZero_eq a ▸ hm) h flag

/-! ## Products -/

/-- The largest limb. -/
abbrev top : ℕ := 2 ^ 64 - 1

/-- A limb with the bound of all limbs. -/
def bounded (x : U64) : {q : ℕ × ℕ // q.1 ≤ q.2} := ⟨(x.toNat, top), Nat.le_pred_of_lt x.isLt⟩

theorem mul512_total (B : ℕ) (a b : Fin 4 → ℕ) :
    total B (mul512Ops a b) = Limbs.eval B a * Limbs.eval B b := by
  rw [Limbs.eval, Limbs.eval, Fin.sum_univ_four, Fin.sum_univ_four]
  simp only [mul512Ops, total, AccOp.extracts, AccOp.addend, Bool.false_eq_true, if_true, if_false]
  change _ = (a 0 * B ^ 0 + a 1 * B ^ 1 + a 2 * B ^ 2 + a 3 * B ^ 3) *
    (b 0 * B ^ 0 + b 1 * B ^ 1 + b 2 * B ^ 2 + b 3 * B ^ 3)
  ring

theorem sqr512_total (B : ℕ) (a : Fin 4 → ℕ) :
    total B (sqr512Ops a) = Limbs.eval B a * Limbs.eval B a := by
  rw [Limbs.eval, Fin.sum_univ_four]
  simp only [sqr512Ops, total, AccOp.extracts, AccOp.addend, Bool.false_eq_true, if_true, if_false]
  change _ = (a 0 * B ^ 0 + a 1 * B ^ 1 + a 2 * B ^ 2 + a 3 * B ^ 3) *
    (a 0 * B ^ 0 + a 1 * B ^ 1 + a 2 * B ^ 2 + a 3 * B ^ 3)
  ring

theorem mul512_fits (a b : Scalar) :
    Fits (2 ^ 64) (2 ^ 32) (Acc.toNats (mul512Ops a b)) (0 : U64).toNat :=
  Fits.mono (mul512Ops (fun i => bounded (a i)) fun i => bounded (b i)) le_rfl
    (show Fits (2 ^ 64) (2 ^ 32) (mul512Ops (fun _ => top) fun _ => top) 0 by decide)

theorem sqr512_fits (a : Scalar) :
    Fits (2 ^ 64) (2 ^ 32) (Acc.toNats (sqr512Ops a)) (0 : U64).toNat :=
  Fits.mono (sqr512Ops fun i => bounded (a i)) le_rfl
    (show Fits (2 ^ 64) (2 ^ 32) (sqr512Ops fun _ => top) 0 by decide)

theorem run160_spec {ops : List (AccOp U64)} {a b : Scalar}
    (hfits : Fits (2 ^ 64) (2 ^ 32) (Acc.toNats ops) (0 : U64).toNat)
    (hlen : ops.countP AccOp.extracts = 7)
    (htot : total (2 ^ 64) (Acc.toNats ops) = Limbs.val a * Limbs.val b) :
    Limbs.val (run160 ops).1 = Limbs.val a * Limbs.val b ∧ (run160 ops).2 = true := by
  have hlt : Limbs.val a * Limbs.val b < (2 ^ 64) ^ (7 + 1) := by
    have := Nat.mul_lt_mul'' (val_lt a) (val_lt b)
    exact this.trans_eq (by norm_num)
  obtain ⟨hv, hc, hok⟩ := Acc.words_spec (by decide) (by decide) (by decide) hfits hlen
    ((zero_add _).trans htot) hlt
  exact ⟨hv, by rw [run160, hok, hc]; rfl⟩

theorem toNats_mul512 (a b : Scalar) : Acc.toNats (mul512Ops a b) =
    mul512Ops (fun i => (a i).toNat) fun i => (b i).toNat := rfl

theorem toNats_sqr512 (a : Scalar) :
    Acc.toNats (sqr512Ops a) = sqr512Ops fun i => (a i).toNat := rfl

theorem scalarMul512_spec (a b : Scalar) :
    Limbs.val (scalarMul512 a b).1 = Limbs.val a * Limbs.val b ∧ (scalarMul512 a b).2 = true := by
  refine run160_spec (mul512_fits a b) rfl ?_
  rw [toNats_mul512, mul512_total, Limbs.val, Limbs.val]

theorem scalarSqr512_spec (a : Scalar) :
    Limbs.val (scalarSqr512 a).1 = Limbs.val a * Limbs.val a ∧ (scalarSqr512 a).2 = true := by
  refine run160_spec (sqr512_fits a) rfl ?_
  rw [toNats_sqr512, sqr512_total, Limbs.val]

theorem orderC01_val : (orderC01 0).toNat + 2 ^ 64 * ((orderC01 1).toNat + 2 ^ 64) = nc := by
  decide

theorem reduce385_total (B : ℕ) (l n : Fin 4 → ℕ) (c : Fin 2 → ℕ) :
    l 0 + total B (reduce385Ops l n c) =
      Limbs.eval B l + Limbs.eval B n * (c 0 + B * (c 1 + B)) := by
  rw [Limbs.eval, Limbs.eval, Fin.sum_univ_four, Fin.sum_univ_four]
  simp only [reduce385Ops, total, AccOp.extracts, AccOp.addend, Bool.false_eq_true, if_true,
    if_false]
  change _ = l 0 * B ^ 0 + l 1 * B ^ 1 + l 2 * B ^ 2 + l 3 * B ^ 3 +
    (n 0 * B ^ 0 + n 1 * B ^ 1 + n 2 * B ^ 2 + n 3 * B ^ 3) * _
  ring

theorem reduce385_fits (l n : Scalar) (c : Fin 2 → U64) :
    Fits (2 ^ 64) (2 ^ 64) (Acc.toNats (reduce385Ops l n c)) (l 0).toNat :=
  Fits.mono (reduce385Ops (fun i => bounded (l i)) (fun i => bounded (n i)) fun i => bounded (c i))
    (bounded (l 0)).2 (show Fits (2 ^ 64) (2 ^ 64)
      (reduce385Ops (fun _ => top) (fun _ => top) fun _ => top) top by decide)

theorem toNats_reduce385 (l n : Scalar) (c : Fin 2 → U64) : Acc.toNats (reduce385Ops l n c) =
    reduce385Ops (fun i => (l i).toNat) (fun i => (n i).toNat) fun i => (c i).toNat := rfl

/-- The number the upper four words of a product denote, and the lower four. -/
theorem val_halves (l : Fin 8 → U64) : Limbs.val l =
    Limbs.val ![l 0, l 1, l 2, l 3] + 2 ^ 256 * Limbs.val ![l 4, l 5, l 6, l 7] := by
  have hlo : (fun i : Fin 4 => l (Fin.castAdd 4 i)) = ![l 0, l 1, l 2, l 3] := by
    funext i; fin_cases i <;> rfl
  have hhi : (fun i : Fin 4 => l (Fin.natAdd 4 i)) = ![l 4, l 5, l 6, l 7] := by
    funext i; fin_cases i <;> rfl
  rw [← hlo, ← hhi, ← limbs_pow]
  exact Limbs.val_split (j := 4) (k := 4) l

theorem reduce385_spec (l : Fin 8 → U64) :
    Limbs.val (reduce385 l).1 =
        Limbs.val ![l 0, l 1, l 2, l 3] + Limbs.val ![l 4, l 5, l 6, l 7] * nc ∧
      ((reduce385 l).1 6).toNat ≤ 1 ∧ (reduce385 l).2 = true := by
  have htot := reduce385_total (2 ^ 64) (fun i => ((![l 0, l 1, l 2, l 3] : Scalar) i).toNat)
    (fun i => ((![l 4, l 5, l 6, l 7] : Scalar) i).toNat) fun i => (orderC01 i).toNat
  rw [orderC01_val] at htot
  have hM := first_fold_lt (val_lt ![l 0, l 1, l 2, l 3]) (val_lt ![l 4, l 5, l 6, l 7])
    (Q := (2 ^ 64) ^ 6) (by rw [← pow_mul])
  obtain ⟨hval, -, hok⟩ := Acc.words_spec (v := 64) (by decide) (by decide) (by decide)
    (reduce385_fits ![l 0, l 1, l 2, l 3] ![l 4, l 5, l 6, l 7] orderC01) (k := 6) rfl
    (by rw [toNats_reduce385]; exact htot)
    (hM.trans_le (by rw [pow_succ]; exact Nat.mul_le_mul_left _ (by decide)))
  have hlen : ((Acc.init (l 0) : Acc 64 64).run
      (reduce385Ops ![l 0, l 1, l 2, l 3] ![l 4, l 5, l 6, l 7] orderC01)).2.length = 6 :=
    Acc.run_length _ _
  simp only [reduce385]
  change Limbs.val (Acc.words 7 ((Acc.init (l 0) : Acc 64 64).run _)) = Limbs.val _ + _ at hval
  change ((Acc.init (l 0) : Acc 64 64).run _).1.ok = true at hok
  generalize (Acc.init (l 0) : Acc 64 64).run
    (reduce385Ops ![l 0, l 1, l 2, l 3] ![l 4, l 5, l 6, l 7] orderC01) = r at hval hok hlen ⊢
  have hc0 : r.1.c0.toNat ≤ 1 := by
    have hs := Acc.words_split hlen
    rw [hval] at hs
    omega
  have hm6 : (r.1.c0.setWidth 32).setWidth 64 = r.1.c0 :=
    BitVec.eq_of_toNat_eq (Word.toNat_setWidth (Word.toNat_setWidth rfl (by omega)) (by omega))
  have h6 : Limbs.ofList 7 (r.2 ++ [r.1.c0]) 6 = r.1.c0 := Acc.words_last hlen
  rw [hm6, hok, h6, Bool.true_and, decide_eq_true_iff, BitVec.le_def]
  exact ⟨hval, hc0, hc0⟩

/-- The limbs of the second fold. -/
theorem val_lo_hi (m : Fin 7 → U64) : Limbs.val m =
    Limbs.val ![m 0, m 1, m 2, m 3] + 2 ^ 256 * Limbs.val ![m 4, m 5, m 6] := by
  have hlo : (fun i : Fin 4 => m (Fin.castAdd 3 i)) = ![m 0, m 1, m 2, m 3] := by
    funext i; fin_cases i <;> rfl
  have hhi : (fun i : Fin 3 => m (Fin.natAdd 4 i)) = ![m 4, m 5, m 6] := by
    funext i; fin_cases i <;> rfl
  rw [← hlo, ← hhi, ← limbs_pow]
  exact Limbs.val_split (j := 4) (k := 3) m

theorem reduce258_total (B : ℕ) (m : Fin 7 → ℕ) (c : Fin 2 → ℕ) :
    m 0 + total B (reduce258Ops m c) + B ^ 4 * m 6 =
      Limbs.eval B ![m 0, m 1, m 2, m 3] +
        Limbs.eval B ![m 4, m 5, m 6] * (c 0 + B * (c 1 + B)) := by
  rw [Limbs.eval, Limbs.eval, Fin.sum_univ_four, Fin.sum_univ_three]
  simp only [reduce258Ops, total, AccOp.extracts, AccOp.addend, Bool.false_eq_true, if_true,
    if_false]
  change _ = m 0 * B ^ 0 + m 1 * B ^ 1 + m 2 * B ^ 2 + m 3 * B ^ 3 +
    (m 4 * B ^ 0 + m 5 * B ^ 1 + m 6 * B ^ 2) * _
  ring

/-- The operands of the second fold with their bounds. -/
def bounded258 (m : Fin 7 → U64) (h : (m 6).toNat ≤ 1) : Fin 7 → {q : ℕ × ℕ // q.1 ≤ q.2} :=
  ![bounded (m 0), bounded (m 1), bounded (m 2), bounded (m 3), bounded (m 4), bounded (m 5),
    ⟨((m 6).toNat, 1), h⟩]

theorem reduce258_fits (m : Fin 7 → U64) (c : Fin 2 → U64) (h : (m 6).toNat ≤ 1) :
    Fits (2 ^ 64) (2 ^ 64) (Acc.toNats (reduce258Ops m c)) (m 0).toNat :=
  Fits.mono (reduce258Ops (bounded258 m h) fun i => bounded (c i)) (bounded (m 0)).2
    (show Fits (2 ^ 64) (2 ^ 64)
      (reduce258Ops ![top, top, top, top, top, top, 1] fun _ => top) top by decide)

theorem toNats_reduce258 (m : Fin 7 → U64) (c : Fin 2 → U64) : Acc.toNats (reduce258Ops m c) =
    reduce258Ops (fun i => (m i).toNat) fun i => (c i).toNat := rfl

theorem reduce258_spec {m : Fin 7 → U64} (h6 : (m 6).toNat ≤ 1)
    (hlt : Limbs.val ![m 0, m 1, m 2, m 3] + Limbs.val ![m 4, m 5, m 6] * nc < 3 * 2 ^ 256) :
    Limbs.val (reduce258 m).1 + 2 ^ 256 * (reduce258 m).2.1.toNat =
        Limbs.val ![m 0, m 1, m 2, m 3] + Limbs.val ![m 4, m 5, m 6] * nc ∧
      (reduce258 m).2.1.toNat ≤ 2 ∧ (reduce258 m).2.2 = true := by
  have htot := reduce258_total (2 ^ 64) (fun i => (m i).toNat) fun i => (orderC01 i).toNat
  have hlo : Limbs.val ![m 0, m 1, m 2, m 3] = Limbs.eval (2 ^ 64)
      ![(m 0).toNat, (m 1).toNat, (m 2).toNat, (m 3).toNat] :=
    congrArg (Limbs.eval _) (funext fun i : Fin 4 => by fin_cases i <;> rfl)
  have hhi : Limbs.val ![m 4, m 5, m 6] =
      Limbs.eval (2 ^ 64) ![(m 4).toNat, (m 5).toNat, (m 6).toNat] :=
    congrArg (Limbs.eval _) (funext fun i : Fin 3 => by fin_cases i <;> rfl)
  rw [orderC01_val, ← hlo, ← hhi] at htot
  have h5 : 3 * 2 ^ 256 ≤ (2 ^ 64) ^ (4 + 1) := by norm_num
  have hfit := (Nat.le_add_right _ _).trans_lt ((htot.trans_lt hlt).trans_le h5)
  obtain ⟨hval, -, hok⟩ := Acc.words_spec (v := 64) (by decide) (by decide) (by decide)
    (reduce258_fits m orderC01 h6) (k := 4) rfl rfl
    (by rw [toNats_reduce258]; exact hfit)
  have hlen : ((Acc.init (m 0) : Acc 64 64).run (reduce258Ops m orderC01)).2.length = 4 :=
    Acc.run_length _ _
  rw [toNats_reduce258] at hval
  simp only [reduce258]
  generalize (Acc.init (m 0) : Acc 64 64).run (reduce258Ops m orderC01) = r at hval hok hlen ⊢
  have hs := Acc.words_split hlen
  rw [hval, limbs_pow] at hs
  have hsum : Limbs.val (Limbs.ofList 4 r.2) + 2 ^ 256 * (r.1.c0.toNat + (m 6).toNat) =
      Limbs.val ![m 0, m 1, m 2, m 3] + Limbs.val ![m 4, m 5, m 6] * nc := by
    rw [← htot, hs, limbs_pow, mul_add, add_assoc]
  have hp4 : ((r.1.c0 + m 6).setWidth 32).toNat = r.1.c0.toNat + (m 6).toNat :=
    Word.toNat_setWidth (Word.toNat_add rfl rfl (by omega)) (by omega)
  rw [hok, Bool.true_and, decide_eq_true_iff, BitVec.le_def, hp4]
  have hle : r.1.c0.toNat + (m 6).toNat ≤ 2 := by omega
  exact ⟨hsum, hle, hle⟩

theorem reduce256_spec {p : Scalar} {p4 : BitVec 32} (h4 : p4.toNat ≤ 2)
    (hlt : Limbs.val p + p4.toNat * nc < 2 * n) :
    Limbs.val (reduce256 p p4) = (Limbs.val p + p4.toNat * nc) % n := by
  have hq : (p4.setWidth (2 * 64)).toNat = p4.toNat := Word.toNat_setWidth rfl (by omega)
  have hcol (x c : U64) : (wide x + wide c * p4.setWidth (2 * 64)).toNat =
      x.toNat + p4.toNat * c.toNat := by
    have := x.isLt
    have := c.isLt
    have hle : c.toNat * p4.toNat ≤ c.toNat * 2 := Nat.mul_le_mul_left _ h4
    rw [mul_comm p4.toNat]
    exact Word.toNat_add (toNat_wide x) (Word.toNat_mul (toNat_wide c) hq (by omega)) (by omega)
  have hsum := foldChain_spec (x := ![wide (p 0) + wide (orderC 0) * p4.setWidth (2 * 64),
      wide (p 1) + wide (orderC 1) * p4.setWidth (2 * 64), wide (p 2) + p4.setWidth (2 * 64),
      wide (p 3)]) (r := p) (c := orderCPadded) (by decide) limbs_pow h4 fun i => by
    fin_cases i
    · exact hcol _ _
    · exact hcol _ _
    · exact (Word.toNat_add (toNat_wide _) hq (by have := (p 2).isLt; omega)).trans
        (congrArg _ (Nat.mul_one _).symm)
    · exact (toNat_wide (p 3)).trans (Nat.add_zero _).symm
  rw [orderCPadded_val] at hsum
  simp only [reduce256]
  generalize Limbs.carry 0 ![wide (p 0) + wide (orderC 0) * p4.setWidth (2 * 64),
    wide (p 1) + wide (orderC 1) * p4.setWidth (2 * 64), wide (p 2) + p4.setWidth (2 * 64),
    wide (p 3)] = rc at hsum ⊢
  rw [← hsum] at hlt ⊢
  exact (reduces.carried rc.1 hlt).1

theorem scalarReduce512_spec (l : Fin 8 → U64) :
    Limbs.val (scalarReduce512 l).1 = Limbs.val l % n ∧ (scalarReduce512 l).2 = true := by
  obtain ⟨hm, h6, hokm⟩ := reduce385_spec l
  rw [val_lo_hi] at hm
  have hlt := second_fold_lt (val_lt _) (val_lt _) (val_lt _) hm
  obtain ⟨hp, h4, hokp⟩ := reduce258_spec h6 hlt
  obtain ⟨hT, hmod⟩ := fold_thrice (val_lt _) h4 hm hp
  simp only [scalarReduce512]
  rw [reduce256_spec h4 hT, hmod, hokm, hokp, ← val_halves]
  exact ⟨rfl, rfl⟩

theorem multiplies : Multiplies scalarMul512 scalarSqr512 scalarReduce512 :=
  ⟨scalarMul512_spec, scalarSqr512_spec, scalarReduce512_spec⟩

end Secp256k1.Scalar4x64
