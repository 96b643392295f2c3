import Secp256k1.Scalar.Impl8x32

/-!
# What the eight-limb scalar operations compute
-/

namespace Secp256k1.Scalar8x32

open Secp256k1.Scalar

theorem compare_val (d e : Scalar) : compare (Limbs.val d) (Limbs.val e) =
    (((((((compare (d 7).toNat (e 7).toNat).then (compare (d 6).toNat (e 6).toNat)).then
      (compare (d 5).toNat (e 5).toNat)).then (compare (d 4).toNat (e 4).toNat)).then
      (compare (d 3).toNat (e 3).toNat)).then (compare (d 2).toNat (e 2).toNat)).then
      (compare (d 1).toNat (e 1).toNat)).then (compare (d 0).toNat (e 0).toNat) := by
  rw [Limbs.compare_succ, Limbs.compare_succ, Limbs.compare_succ, Limbs.compare_succ,
    Limbs.compare_succ, Limbs.compare_succ, Limbs.compare_succ, Limbs.compare_succ]
  rfl

/-- The cascade of `secp256k1_scalar_check_overflow` over the comparisons of the limbs. -/
theorem overflow_cascade : ∀ o7 o6 o5 o4 o3 o2 o1 o0 : Ordering, o7.isGT = false →
    o6.isGT = false → o5.isGT = false →
    (let no := o7.isLT
     let no := no || o6.isLT
     let no := no || o5.isLT
     let no := no || o4.isLT
     let yes := o4.isGT && !no
     let no := no || o3.isLT && !yes
     let yes := yes || o3.isGT && !no
     let no := no || o2.isLT && !yes
     let yes := yes || o2.isGT && !no
     let no := no || o1.isLT && !yes
     let yes := yes || o1.isGT && !no
     yes || o0.isGE && !no) =
      (((((((o7.then o6).then o5).then o4).then o3).then o2).then o1).then o0).isGE := by
  decide

theorem orderLimbs_val : Limbs.val orderLimbs = n := by decide

theorem scalarCheckOverflow_eq (a : Scalar) :
    scalarCheckOverflow a = ofBool (n ≤ Limbs.val a) := by
  rw [← orderLimbs_val, le_eq_isGE, compare_val, ← overflow_cascade _ _ _ _ _ _ _ _
    (isGT_allOnes rfl) (isGT_allOnes rfl) (isGT_allOnes rfl)]
  simp only [scalarCheckOverflow, lt_eq_isLT (a _), gt_eq_isGT (a _), ge_eq_isGE, ofBool_or,
    ofBool_and_not]

/-- The cascade of `secp256k1_scalar_is_high`. -/
theorem high_cascade : ∀ o7 o6 o5 o4 o3 o2 o1 o0 : Ordering, o6.isGT = false →
    o5.isGT = false → o4.isGT = false →
    (let no := o7.isLT
     let yes := o7.isGT && !no
     let no := no || o6.isLT && !yes
     let no := no || o5.isLT && !yes
     let no := no || o4.isLT && !yes
     let no := no || o3.isLT && !yes
     let yes := yes || o3.isGT && !no
     let no := no || o2.isLT && !yes
     let yes := yes || o2.isGT && !no
     let no := no || o1.isLT && !yes
     let yes := yes || o1.isGT && !no
     yes || o0.isGT && !no) =
      (((((((o7.then o6).then o5).then o4).then o3).then o2).then o1).then o0).isGT := by
  decide

theorem orderH_val : Limbs.val orderH = n / 2 := by decide

theorem scalarIsHigh_eq (a : Scalar) : scalarIsHigh a = ofBool (n / 2 < Limbs.val a) := by
  rw [← orderH_val, lt_eq_isGT, compare_val, ← high_cascade _ _ _ _ _ _ _ _
    (isGT_allOnes rfl) (isGT_allOnes rfl) (isGT_allOnes rfl)]
  simp only [scalarIsHigh, lt_eq_isLT (a _), gt_eq_isGT (a _), ofBool_or, ofBool_and_not]

theorem scalarIsZero_eq (a : Scalar) : scalarIsZero a = decide (Limbs.val a = 0) := by
  rw [scalarIsZero, decide_eq_decide, Limbs.val_eq_zero_iff]
  simp only [Word.or_eq_zero, Fin.forall_fin_succ, IsEmpty.forall_iff, and_true, and_assoc]
  rfl

theorem limbs_pow : ((2 ^ 32) ^ 8 : ℕ) = 2 ^ 256 := by norm_num

theorem val_lt (a : Scalar) : Limbs.val a < 2 ^ 256 := limbs_pow ▸ Limbs.val_lt a

/-- The limbs of `SECP256K1_N_C` up to the length of a scalar. -/
def orderCPadded : Scalar := ![orderC 0, orderC 1, orderC 2, orderC 3, orderC 4, 0, 0, 0]

theorem orderCPadded_val : Limbs.val orderCPadded = nc := by decide

theorem scalarReduce_val (r : Scalar) {ov : CInt} {o : ℕ} (ho : ov.toNat = o) (h : o ≤ 1) :
    Limbs.val (scalarReduce r ov) = (Limbs.val r + o * nc) % 2 ^ 256 := by
  have hcol (x c : U32) : (wide x + wide (ov * c)).toNat = x.toNat + o * c.toNat := by
    have := c.isLt
    have : o * c.toNat ≤ 1 * c.toNat := Nat.mul_le_mul_right _ h
    rw [toNat_wide_add (by decide), Word.toNat_mul ho rfl (by omega)]
  have hcol0 (x : U32) : (wide x).toNat = x.toNat + o * (0 : U32).toNat := toNat_wide x
  have hsum := foldChain_spec (x := ![wide (r 0) + wide (ov * orderC 0),
      wide (r 1) + wide (ov * orderC 1), wide (r 2) + wide (ov * orderC 2),
      wide (r 3) + wide (ov * orderC 3), wide (r 4) + wide (ov * orderC 4), wide (r 5), wide (r 6),
      wide (r 7)]) (r := r) (c := orderCPadded) (q := o) (by decide) limbs_pow (by omega)
      fun i => by
    fin_cases i
    · exact hcol _ _
    · exact hcol _ _
    · exact hcol _ _
    · exact hcol _ _
    · exact hcol _ _
    · exact hcol0 _
    · exact hcol0 _
    · exact hcol0 _
  rw [orderCPadded_val] at hsum
  rw [← hsum, Nat.add_mul_mod_self_left, Nat.mod_eq_of_lt (val_lt _), scalarReduce]

theorem reduces : Reduces scalarCheckOverflow scalarReduce where
  width := by decide
  limbs := limbs_pow
  overflow := scalarCheckOverflow_eq
  adds r _ _ := scalarReduce_val r

theorem scalarGetBits_one (a : Scalar) {offset : ℕ} (h : offset < 256) :
    (scalarGetBits a offset 1).toNat = Limbs.val a / 2 ^ offset % 2 :=
  getBits_one (show 32 = 2 ^ 5 by norm_num) (by decide) a h

theorem scalarGetBitsVar_spec (a : Scalar) {offset count : ℕ} (h0 : 0 < count) (hc : count < 32)
    (h : offset + count ≤ 256) :
    (scalarGetBitsVar a offset count).toNat = Limbs.val a / 2 ^ offset % 2 ^ count :=
  getBitsVar_spec (show 32 = 2 ^ 5 by norm_num) (by decide) a h0 hc h

theorem scalarSetInt_val (v : BitVec 32) : Limbs.val (scalarSetInt v) = v.toNat := by
  simp [scalarSetInt, Limbs.val, Limbs.eval, Fin.sum_univ_succ]

theorem scalarIsOne_eq (a : Scalar) : scalarIsOne a = decide (Limbs.val a = 1) := by
  have h1 : Limbs.val (scalarSetInt 1) = 1 := scalarSetInt_val 1
  rw [scalarIsOne, decide_eq_decide, ← h1]
  constructor
  · intro h
    simp only [Word.or_eq_zero, and_assoc] at h
    obtain ⟨h0, h1, h2, h3, h4, h5, h6, h7⟩ := h
    refine congrArg Limbs.val (funext fun i => ?_)
    fin_cases i
    · exact BitVec.xor_eq_zero_iff.mp h0
    · exact h1
    · exact h2
    · exact h3
    · exact h4
    · exact h5
    · exact h6
    · exact h7
  · intro h
    rw [Limbs.val_inj h]
    decide

theorem val_expand (a : Scalar) : Limbs.val a = (a 0).toNat + (a 1).toNat * 2 ^ 32 +
    (a 2).toNat * 2 ^ 64 + (a 3).toNat * 2 ^ 96 + (a 4).toNat * 2 ^ 128 + (a 5).toNat * 2 ^ 160 +
    (a 6).toNat * 2 ^ 192 + (a 7).toNat * 2 ^ 224 := by
  simp only [Limbs.val, Limbs.eval, Fin.sum_univ_eight]
  norm_num

theorem scalarOfB32_val (b : Fin 32 → Byte) : Limbs.val (scalarOfB32 b) = Bytes.be b := by
  have h (l : List Byte) (hl : l.length = 4) : (joinBytes 32 0 l).toNat = Bytes.leNat l :=
    (joinBytes_toNat (by rw [hl])).trans (Nat.mul_one _)
  rw [val_expand, Bytes.be32]
  simp only [scalarOfB32, Matrix.cons_val]
  rw [h _ rfl, h _ rfl, h _ rfl, h _ rfl, h _ rfl, h _ rfl, h _ rfl, h _ rfl]
  simp only [Bytes.leNat]
  ring

/-- The bytes a limb is made of. -/
theorem limb_bytes {x : ℕ} (h : x < 2 ^ 32) :
    x / 2 ^ 24 % 2 ^ 8 * 2 ^ 24 + x / 2 ^ 16 % 2 ^ 8 * 2 ^ 16 + x / 2 ^ 8 % 2 ^ 8 * 2 ^ 8 +
      x / 2 ^ 0 % 2 ^ 8 = x := by
  omega

theorem scalarGetB32_be (a : Scalar) : Bytes.be (scalarGetB32 a) = Limbs.val a := by
  rw [Bytes.be32, scalarGetB32, val_expand]
  simp only [Matrix.cons_val, toNat_byteOf]
  conv_rhs => rw [← limb_bytes (a 0).isLt, ← limb_bytes (a 1).isLt, ← limb_bytes (a 2).isLt,
    ← limb_bytes (a 3).isLt, ← limb_bytes (a 4).isLt, ← limb_bytes (a 5).isLt,
    ← limb_bytes (a 6).isLt, ← limb_bytes (a 7).isLt]
  ring

theorem scalarNegate_spec {a : Scalar} (h : Limbs.val a < n) :
    Limbs.val (scalarNegate a) = (n - Limbs.val a) % n := by
  have hm : 0xFFFFFFFF * ofBool (scalarIsZero a = false) =
      if scalarIsZero a then 0 else BitVec.allOnes 32 := by
    cases scalarIsZero a <;> decide
  exact negate_masked (by decide) limbs_pow orderLimbs_val (scalarIsZero_eq a ▸ hm) h

theorem scalarCondNegate_spec {a : Scalar} (h : Limbs.val a < n) (flag : CInt) :
    Limbs.val (scalarCondNegate a flag).1 =
        (if flag = 0 then Limbs.val a else (n - Limbs.val a) % n) ∧
      (scalarCondNegate a flag).2 = if flag = 0 then 1 else -1 := by
  have hm : 0xFFFFFFFF * ofBool (scalarIsZero a = false) =
      if scalarIsZero a then 0 else BitVec.allOnes 32 := by
    cases scalarIsZero a <;> decide
  exact condNegate_masked (by decide) limbs_pow orderLimbs_val (by decide)
    (scalarIsZero_eq a ▸ hm) h flag

/-! ## Products -/

/-- The largest limb. -/
abbrev top : ℕ := 2 ^ 32 - 1

/-- A limb with the bound of all limbs. -/
def bounded (x : U32) : {q : ℕ × ℕ // q.1 ≤ q.2} := ⟨(x.toNat, top), Nat.le_pred_of_lt x.isLt⟩

theorem eval_eight (B : ℕ) (a : Fin 8 → ℕ) : Limbs.eval B a = a 0 + a 1 * B + a 2 * B ^ 2 +
    a 3 * B ^ 3 + a 4 * B ^ 4 + a 5 * B ^ 5 + a 6 * B ^ 6 + a 7 * B ^ 7 := by
  rw [Limbs.eval, Fin.sum_univ_eight]
  change a 0 * B ^ 0 + a 1 * B ^ 1 + a 2 * B ^ 2 + a 3 * B ^ 3 + a 4 * B ^ 4 + a 5 * B ^ 5 +
    a 6 * B ^ 6 + a 7 * B ^ 7 = _
  ring

theorem mul512_total (B : ℕ) (a b : Fin 8 → ℕ) :
    total B (mul512Ops a b) = Limbs.eval B a * Limbs.eval B b := by
  rw [eval_eight, eval_eight]
  simp only [mul512Ops, total, AccOp.extracts, AccOp.addend, Bool.false_eq_true, if_true, if_false]
  ring

theorem sqr512_total (B : ℕ) (a : Fin 8 → ℕ) :
    total B (sqr512Ops a) = Limbs.eval B a * Limbs.eval B a := by
  rw [eval_eight]
  simp only [sqr512Ops, total, AccOp.extracts, AccOp.addend, Bool.false_eq_true, if_true, if_false]
  ring

theorem mul512_fits (a b : Scalar) :
    Fits (2 ^ 32) (2 ^ 32) (Acc.toNats (mul512Ops a b)) (0 : U32).toNat :=
  Fits.mono (mul512Ops (fun i => bounded (a i)) fun i => bounded (b i)) le_rfl
    (show Fits (2 ^ 32) (2 ^ 32) (mul512Ops (fun _ => top) fun _ => top) 0 by decide)

theorem sqr512_fits (a : Scalar) :
    Fits (2 ^ 32) (2 ^ 32) (Acc.toNats (sqr512Ops a)) (0 : U32).toNat :=
  Fits.mono (sqr512Ops fun i => bounded (a i)) le_rfl
    (show Fits (2 ^ 32) (2 ^ 32) (sqr512Ops fun _ => top) 0 by decide)

theorem run96_spec {ops : List (AccOp U32)} {a b : Scalar}
    (hfits : Fits (2 ^ 32) (2 ^ 32) (Acc.toNats ops) (0 : U32).toNat)
    (hlen : ops.countP AccOp.extracts = 15)
    (htot : total (2 ^ 32) (Acc.toNats ops) = Limbs.val a * Limbs.val b) :
    Limbs.val (run96 ops).1 = Limbs.val a * Limbs.val b ∧ (run96 ops).2 = true := by
  have hlt : Limbs.val a * Limbs.val b < (2 ^ 32) ^ (15 + 1) := by
    have := Nat.mul_lt_mul'' (val_lt a) (val_lt b)
    exact this.trans_eq (by norm_num)
  obtain ⟨hv, hc, hok⟩ := Acc.words_spec (by decide) (by decide) (by decide) hfits hlen
    ((zero_add _).trans htot) hlt
  exact ⟨hv, by rw [run96, hok, hc]; rfl⟩

theorem toNats_mul512 (a b : Scalar) : Acc.toNats (mul512Ops a b) =
    mul512Ops (fun i => (a i).toNat) fun i => (b i).toNat := rfl

theorem toNats_sqr512 (a : Scalar) :
    Acc.toNats (sqr512Ops a) = sqr512Ops fun i => (a i).toNat := rfl

theorem scalarMul512_spec (a b : Scalar) :
    Limbs.val (scalarMul512 a b).1 = Limbs.val a * Limbs.val b ∧ (scalarMul512 a b).2 = true := by
  refine run96_spec (mul512_fits a b) rfl ?_
  rw [toNats_mul512, mul512_total, Limbs.val, Limbs.val]

theorem scalarSqr512_spec (a : Scalar) :
    Limbs.val (scalarSqr512 a).1 = Limbs.val a * Limbs.val a ∧ (scalarSqr512 a).2 = true := by
  refine run96_spec (sqr512_fits a) rfl ?_
  rw [toNats_sqr512, sqr512_total, Limbs.val]

/-! ## The reduction modulo the order -/

theorem orderC03_val : (orderC03 0).toNat + 2 ^ 32 * ((orderC03 1).toNat + 2 ^ 32 *
    ((orderC03 2).toNat + 2 ^ 32 * ((orderC03 3).toNat + 2 ^ 32))) = nc := by
  decide

theorem reduce385_total (B : ℕ) (l n : Fin 8 → ℕ) (c : Fin 4 → ℕ) :
    l 0 + total B (reduce385Ops l n c) = Limbs.eval B l +
      Limbs.eval B n * (c 0 + B * (c 1 + B * (c 2 + B * (c 3 + B)))) := by
  rw [eval_eight, eval_eight]
  simp only [reduce385Ops, total, AccOp.extracts, AccOp.addend, Bool.false_eq_true, if_true,
    if_false]
  ring

theorem reduce385_fits (l n : Scalar) (c : Fin 4 → U32) :
    Fits (2 ^ 32) (2 ^ 32) (Acc.toNats (reduce385Ops l n c)) (l 0).toNat :=
  Fits.mono (reduce385Ops (fun i => bounded (l i)) (fun i => bounded (n i)) fun i => bounded (c i))
    (bounded (l 0)).2 (show Fits (2 ^ 32) (2 ^ 32)
      (reduce385Ops (fun _ => top) (fun _ => top) fun _ => top) top by decide)

theorem toNats_reduce385 (l n : Scalar) (c : Fin 4 → U32) : Acc.toNats (reduce385Ops l n c) =
    reduce385Ops (fun i => (l i).toNat) (fun i => (n i).toNat) fun i => (c i).toNat := rfl

/-- The lower eight words of a product. -/
def low (l : Fin 16 → U32) : Scalar := ![l 0, l 1, l 2, l 3, l 4, l 5, l 6, l 7]

/-- The upper eight words of a product. -/
def high (l : Fin 16 → U32) : Scalar := ![l 8, l 9, l 10, l 11, l 12, l 13, l 14, l 15]

theorem val_halves (l : Fin 16 → U32) :
    Limbs.val l = Limbs.val (low l) + 2 ^ 256 * Limbs.val (high l) := by
  have hlo : (fun i : Fin 8 => l (Fin.castAdd 8 i)) = low l := by
    funext i; fin_cases i <;> rfl
  have hhi : (fun i : Fin 8 => l (Fin.natAdd 8 i)) = high l := by
    funext i; fin_cases i <;> rfl
  rw [← hlo, ← hhi, ← limbs_pow]
  exact Limbs.val_split (j := 8) (k := 8) l

theorem reduce385_spec (l : Fin 16 → U32) :
    Limbs.val (reduce385 l).1 = Limbs.val (low l) + Limbs.val (high l) * nc ∧
      ((reduce385 l).1 12).toNat ≤ 1 ∧ (reduce385 l).2 = true := by
  have htot := reduce385_total (2 ^ 32) (fun i => (low l i).toNat) (fun i => (high l i).toNat)
    fun i => (orderC03 i).toNat
  rw [orderC03_val] at htot
  have hM := first_fold_lt (val_lt (low l)) (val_lt (high l)) (Q := (2 ^ 32) ^ 12)
    (by rw [← pow_mul])
  obtain ⟨hval, -, hok⟩ := Acc.words_spec (v := 32) (by decide) (by decide) (by decide)
    (reduce385_fits (low l) (high l) orderC03) (k := 12) rfl
    (by rw [toNats_reduce385]; exact htot)
    (hM.trans_le (by rw [pow_succ]; exact Nat.mul_le_mul_left _ (by decide)))
  have hlen : ((Acc.init (l 0) : Acc 32 32).run
      (reduce385Ops (low l) (high l) orderC03)).2.length = 12 :=
    Acc.run_length _ _
  change Limbs.val (Acc.words 13 ((Acc.init (l 0) : Acc 32 32).run _)) = Limbs.val _ + _ at hval
  change ((Acc.init (l 0) : Acc 32 32).run _).1.ok = true at hok
  have hdef : reduce385 l = (Acc.words 13 ((Acc.init (l 0) : Acc 32 32).run
      (reduce385Ops (low l) (high l) orderC03)), ((Acc.init (l 0) : Acc 32 32).run
      (reduce385Ops (low l) (high l) orderC03)).1.ok && ((Acc.init (l 0) : Acc 32 32).run
      (reduce385Ops (low l) (high l) orderC03)).1.c0 ≤ 1) := rfl
  rw [hdef]
  generalize (Acc.init (l 0) : Acc 32 32).run
    (reduce385Ops (low l) (high l) orderC03) = r at hval hok hlen ⊢
  have hc0 : r.1.c0.toNat ≤ 1 := by
    have hs := Acc.words_split hlen
    rw [hval] at hs
    omega
  have h12 : Acc.words 13 r 12 = r.1.c0 := Acc.words_last hlen
  simp only []
  rw [hok, h12, Bool.true_and, decide_eq_true_iff, BitVec.le_def]
  exact ⟨hval, hc0, hc0⟩

/-- The words `m0` to `m7`. -/
def mLow (m : Fin 13 → U32) : Scalar := ![m 0, m 1, m 2, m 3, m 4, m 5, m 6, m 7]

/-- The words `m8` to `m12`. -/
def mHigh (m : Fin 13 → U32) : Fin 5 → U32 := ![m 8, m 9, m 10, m 11, m 12]

theorem val_lo_hi (m : Fin 13 → U32) :
    Limbs.val m = Limbs.val (mLow m) + 2 ^ 256 * Limbs.val (mHigh m) := by
  have hlo : (fun i : Fin 8 => m (Fin.castAdd 5 i)) = mLow m := by
    funext i; fin_cases i <;> rfl
  have hhi : (fun i : Fin 5 => m (Fin.natAdd 8 i)) = mHigh m := by
    funext i; fin_cases i <;> rfl
  rw [← hlo, ← hhi, ← limbs_pow]
  exact Limbs.val_split (j := 8) (k := 5) m

theorem reduce258_total (B : ℕ) (m : Fin 13 → ℕ) (c : Fin 4 → ℕ) :
    m 0 + total B (reduce258Ops m c) + B ^ 8 * m 12 =
      Limbs.eval B ![m 0, m 1, m 2, m 3, m 4, m 5, m 6, m 7] +
        Limbs.eval B ![m 8, m 9, m 10, m 11, m 12] *
          (c 0 + B * (c 1 + B * (c 2 + B * (c 3 + B)))) := by
  rw [eval_eight, Limbs.eval, Fin.sum_univ_five]
  simp only [reduce258Ops, total, AccOp.extracts, AccOp.addend, Bool.false_eq_true, if_true,
    if_false]
  change _ = m 0 + m 1 * B + m 2 * B ^ 2 + m 3 * B ^ 3 + m 4 * B ^ 4 + m 5 * B ^ 5 + m 6 * B ^ 6 +
    m 7 * B ^ 7 + (m 8 * B ^ 0 + m 9 * B ^ 1 + m 10 * B ^ 2 + m 11 * B ^ 3 + m 12 * B ^ 4) * _
  ring

/-- The operands of the second fold with their bounds. -/
def bounded258 (m : Fin 13 → U32) (h : (m 12).toNat ≤ 1) : Fin 13 → {q : ℕ × ℕ // q.1 ≤ q.2} :=
  ![bounded (m 0), bounded (m 1), bounded (m 2), bounded (m 3), bounded (m 4), bounded (m 5),
    bounded (m 6), bounded (m 7), bounded (m 8), bounded (m 9), bounded (m 10), bounded (m 11),
    ⟨((m 12).toNat, 1), h⟩]

theorem reduce258_fits (m : Fin 13 → U32) (c : Fin 4 → U32) (h : (m 12).toNat ≤ 1) :
    Fits (2 ^ 32) (2 ^ 32) (Acc.toNats (reduce258Ops m c)) (m 0).toNat :=
  Fits.mono (reduce258Ops (bounded258 m h) fun i => bounded (c i)) (bounded (m 0)).2
    (show Fits (2 ^ 32) (2 ^ 32) (reduce258Ops
      ![top, top, top, top, top, top, top, top, top, top, top, top, 1] fun _ => top) top by
      decide)

theorem toNats_reduce258 (m : Fin 13 → U32) (c : Fin 4 → U32) : Acc.toNats (reduce258Ops m c) =
    reduce258Ops (fun i => (m i).toNat) fun i => (c i).toNat := rfl

theorem reduce258_spec {m : Fin 13 → U32} (h12 : (m 12).toNat ≤ 1)
    (hlt : Limbs.val (mLow m) + Limbs.val (mHigh m) * nc < 3 * 2 ^ 256) :
    Limbs.val (reduce258 m).1 + 2 ^ 256 * (reduce258 m).2.1.toNat =
        Limbs.val (mLow m) + Limbs.val (mHigh m) * nc ∧
      (reduce258 m).2.1.toNat ≤ 2 ∧ (reduce258 m).2.2 = true := by
  have htot := reduce258_total (2 ^ 32) (fun i => (m i).toNat) fun i => (orderC03 i).toNat
  have hlo : Limbs.val (mLow m) = Limbs.eval (2 ^ 32) ![(m 0).toNat, (m 1).toNat, (m 2).toNat,
      (m 3).toNat, (m 4).toNat, (m 5).toNat, (m 6).toNat, (m 7).toNat] :=
    congrArg (Limbs.eval _) (funext fun i : Fin 8 => by fin_cases i <;> rfl)
  have hhi : Limbs.val (mHigh m) = Limbs.eval (2 ^ 32)
      ![(m 8).toNat, (m 9).toNat, (m 10).toNat, (m 11).toNat, (m 12).toNat] :=
    congrArg (Limbs.eval _) (funext fun i : Fin 5 => by fin_cases i <;> rfl)
  rw [orderC03_val, ← hlo, ← hhi] at htot
  have h9 : 3 * 2 ^ 256 ≤ (2 ^ 32) ^ (8 + 1) := by norm_num
  have hfit := (Nat.le_add_right _ _).trans_lt ((htot.trans_lt hlt).trans_le h9)
  obtain ⟨hval, -, hok⟩ := Acc.words_spec (v := 32) (by decide) (by decide) (by decide)
    (reduce258_fits m orderC03 h12) (k := 8) rfl rfl
    (by rw [toNats_reduce258]; exact hfit)
  have hlen : ((Acc.init (m 0) : Acc 32 32).run (reduce258Ops m orderC03)).2.length = 8 :=
    Acc.run_length _ _
  rw [toNats_reduce258] at hval
  simp only [reduce258]
  generalize (Acc.init (m 0) : Acc 32 32).run (reduce258Ops m orderC03) = r at hval hok hlen ⊢
  have hs := Acc.words_split hlen
  rw [hval, limbs_pow] at hs
  have hsum : Limbs.val (Limbs.ofList 8 r.2) + 2 ^ 256 * (r.1.c0.toNat + (m 12).toNat) =
      Limbs.val (mLow m) + Limbs.val (mHigh m) * nc := by
    rw [← htot, hs, limbs_pow, mul_add, add_assoc]
  have hp8 : (r.1.c0 + m 12).toNat = r.1.c0.toNat + (m 12).toNat :=
    Word.toNat_add rfl rfl (by omega)
  rw [hok, Bool.true_and, decide_eq_true_iff, BitVec.le_def, hp8]
  have hle : r.1.c0.toNat + (m 12).toNat ≤ 2 := by omega
  exact ⟨hsum, hle, hle⟩

theorem reduce256_spec {p : Scalar} {p8 : U32} (h8 : p8.toNat ≤ 2)
    (hlt : Limbs.val p + p8.toNat * nc < 2 * n) :
    Limbs.val (reduce256 p p8) = (Limbs.val p + p8.toNat * nc) % n := by
  have hcol (x c : U32) : (wide x + wide c * wide p8).toNat = x.toNat + p8.toNat * c.toNat := by
    have := x.isLt
    have := c.isLt
    have hle : c.toNat * p8.toNat ≤ c.toNat * 2 := Nat.mul_le_mul_left _ h8
    rw [mul_comm p8.toNat]
    exact Word.toNat_add (toNat_wide x)
      (Word.toNat_mul (toNat_wide c) (toNat_wide p8) (by omega)) (by omega)
  have hcol0 (x : U32) : (wide x).toNat = x.toNat + p8.toNat * (0 : U32).toNat := toNat_wide x
  have hsum := foldChain_spec (x := ![wide (p 0) + wide (orderC 0) * wide p8,
      wide (p 1) + wide (orderC 1) * wide p8, wide (p 2) + wide (orderC 2) * wide p8,
      wide (p 3) + wide (orderC 3) * wide p8, wide (p 4) + wide p8, wide (p 5), wide (p 6),
      wide (p 7)]) (r := p) (c := orderCPadded) (by decide) limbs_pow h8 fun i => by
    fin_cases i
    · exact hcol _ _
    · exact hcol _ _
    · exact hcol _ _
    · exact hcol _ _
    · exact (toNat_wide_add (by decide) _ _).trans (congrArg _ (Nat.mul_one _).symm)
    · exact hcol0 _
    · exact hcol0 _
    · exact hcol0 _
  rw [orderCPadded_val] at hsum
  simp only [reduce256]
  generalize Limbs.carry 0 ![wide (p 0) + wide (orderC 0) * wide p8,
      wide (p 1) + wide (orderC 1) * wide p8, wide (p 2) + wide (orderC 2) * wide p8,
      wide (p 3) + wide (orderC 3) * wide p8, wide (p 4) + wide p8, wide (p 5), wide (p 6),
      wide (p 7)] = rc at hsum ⊢
  rw [← hsum] at hlt ⊢
  exact (reduces.carried rc.1 hlt).1

theorem scalarReduce512_spec (l : Fin 16 → U32) :
    Limbs.val (scalarReduce512 l).1 = Limbs.val l % n ∧ (scalarReduce512 l).2 = true := by
  obtain ⟨hm, h12, hokm⟩ := reduce385_spec l
  rw [val_lo_hi] at hm
  have hlt := second_fold_lt (val_lt _) (val_lt _) (val_lt _) hm
  obtain ⟨hp, h8, hokp⟩ := reduce258_spec h12 hlt
  obtain ⟨hT, hmod⟩ := fold_thrice (val_lt _) h8 hm hp
  simp only [scalarReduce512]
  rw [reduce256_spec h8 hT, hmod, hokm, hokp, ← val_halves]
  exact ⟨rfl, rfl⟩

theorem multiplies : Multiplies scalarMul512 scalarSqr512 scalarReduce512 :=
  ⟨scalarMul512_spec, scalarSqr512_spec, scalarReduce512_spec⟩

end Secp256k1.Scalar8x32
