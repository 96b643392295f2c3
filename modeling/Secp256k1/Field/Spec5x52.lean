import Secp256k1.Field.Ops

/-!
# What the five-limb operations compute

One specification for each operation of `field_5x52_impl.h`: the bounds of the result and its
value as an integer.
-/

namespace Secp256k1.Field5x52

theorem Tight.noWrap {m : ℕ} {a : Fe} (h : Tight m a) (hm : m ≤ 2048) : NoWrap a := by
  obtain ⟨h0, h1, h2, h3, h4⟩ := h
  constructor <;> omega

section

variable {c m k : ℕ} {a b : Fe}

theorem feAdd_spec (hc : c ≤ 2 ^ 52 - 1) (ha : Lim c m a) (hb : Lim c k b) (h : m + k ≤ 2048) :
    AddFits a b ∧ Lim c (m + k) (feAdd a b) ∧ (feAdd a b).val = a.val + b.val := by
  obtain ⟨a0, a1, a2, a3, a4⟩ := ha
  obtain ⟨b0, b1, b2, b3, b4⟩ := hb
  have hsum : c * (2 * m) + c * (2 * k) = c * (2 * (m + k)) := by ring
  have hle : c * (2 * (m + k)) ≤ (2 ^ 52 - 1) * (2 * (m + k)) := Nat.mul_le_mul_right _ hc
  have e0 := Word.toNat_add (x := a.n0) (y := b.n0) rfl rfl (by omega)
  have e1 := Word.toNat_add (x := a.n1) (y := b.n1) rfl rfl (by omega)
  have e2 := Word.toNat_add (x := a.n2) (y := b.n2) rfl rfl (by omega)
  have e3 := Word.toNat_add (x := a.n3) (y := b.n3) rfl rfl (by omega)
  have e4 := Word.toNat_add (x := a.n4) (y := b.n4) rfl rfl (by omega)
  refine ⟨⟨?_, ?_, ?_, ?_, ?_⟩, ⟨?_, ?_, ?_, ?_, ?_⟩, ?_⟩
  iterate 5 omega
  all_goals simp only [feAdd, Fe.val, e0, e1, e2, e3, e4]
  iterate 5 omega
  ring

theorem feMulInt_spec {i : CInt} (hc : c ≤ 2 ^ 52 - 1) (ha : Lim c m a) (hi : i.toNat = k)
    (hk : k < 2 ^ 31) (h : m * k ≤ 2048) :
    MulIntFits a k ∧ Lim c (m * k) (feMulInt a i) ∧ (feMulInt a i).val = a.val * k := by
  obtain ⟨a0, a1, a2, a3, a4⟩ := ha
  have hle : c * (2 * (m * k)) ≤ (2 ^ 52 - 1) * (2 * (m * k)) := Nat.mul_le_mul_right _ hc
  -- a bound on a limb, multiplied by `k`
  have hmul : ∀ {x d : ℕ}, x ≤ d * (2 * m) → x * k ≤ d * (2 * (m * k)) := fun {x d} hx =>
    (Nat.mul_le_mul_right k hx).trans (by rw [Nat.mul_assoc, Nat.mul_assoc])
  have b0 := hmul a0
  have b1 := hmul a1
  have b2 := hmul a2
  have b3 := hmul a3
  have b4 := hmul a4
  have hw := CInt.toNat_toU64 hi hk
  have e0 := Word.toNat_mul (x := a.n0) rfl hw (by omega)
  have e1 := Word.toNat_mul (x := a.n1) rfl hw (by omega)
  have e2 := Word.toNat_mul (x := a.n2) rfl hw (by omega)
  have e3 := Word.toNat_mul (x := a.n3) rfl hw (by omega)
  have e4 := Word.toNat_mul (x := a.n4) rfl hw (by omega)
  refine ⟨⟨?_, ?_, ?_, ?_, ?_⟩, ⟨?_, ?_, ?_, ?_, ?_⟩, ?_⟩
  iterate 5 omega
  all_goals simp only [feMulInt, Fe.val, e0, e1, e2, e3, e4]
  iterate 5 assumption
  ring

/-- The negation is `2 * (m + 1) * p` minus the element, limb by limb. -/
theorem feNegate_spec {i : CInt} (ha : Mag m a) (hi : i.toNat = m) (h : m + 1 ≤ 2048) :
    NegateFits a i ∧ Tight (m + 1) (feNegate a i) ∧
      (feNegate a i).val + a.val = 2 * (m + 1) * p := by
  obtain ⟨a0, a1, a2, a3, a4⟩ := ha
  have hi1 : (i + 1).toNat = m + 1 := Word.toNat_add hi rfl (by omega)
  have hw := CInt.toNat_toU64 hi1 (by omega)
  have hmul : ∀ {x : U64} {d : ℕ}, x.toNat = d → d ≤ 2 * (2 ^ 52 - 1) →
      (x * CInt.toU64 (i + 1)).toNat = d * (m + 1) := fun hx hd =>
    Word.toNat_mul hx hw (by
      calc _ ≤ 2 * (2 ^ 52 - 1) * 2048 := Nat.mul_le_mul hd h
        _ < 2 ^ 64 := by norm_num)
  have m0 := hmul (x := 0xFFFFEFFFFFC2F * 2) (d := 0x1FFFFDFFFFF85E) (by decide) (by norm_num)
  have m1 := hmul (x := 0xFFFFFFFFFFFFF * 2) (d := 0x1FFFFFFFFFFFFE) (by decide) (by norm_num)
  have m4 := hmul (x := 0x0FFFFFFFFFFFF * 2) (d := 0x1FFFFFFFFFFFE) (by decide) (by norm_num)
  have e0 := Word.toNat_sub (y := a.n0) m0 rfl (by omega)
  have e1 := Word.toNat_sub (y := a.n1) m1 rfl (by omega)
  have e2 := Word.toNat_sub (y := a.n2) m1 rfl (by omega)
  have e3 := Word.toNat_sub (y := a.n3) m1 rfl (by omega)
  have e4 := Word.toNat_sub (y := a.n4) m4 rfl (by omega)
  refine ⟨⟨by omega, by rw [hi]; exact ⟨a0, a1, a2, a3, a4⟩, by omega⟩, ⟨?_, ?_, ?_, ?_, ?_⟩, ?_⟩
  all_goals simp only [feNegate, Fe.val, e0, e1, e2, e3, e4, p]
  all_goals omega

/-- The magnitude an element of canonical or nearly canonical limbs has. -/
theorem Cut.tight (ha : Cut a) (h4 : a.n4.toNat < 2 ^ 49 - 1) : Tight 1 a := by
  obtain ⟨a0, a1, a2, a3⟩ := ha
  constructor <;> omega

theorem Normalized.tight (ha : Normalized a) : Tight 1 a :=
  Cut.tight ha.toCut (ha.n4.trans (by norm_num))

theorem IsProduct.tight {v : ℕ} (ha : IsProduct a v) : Tight 1 a := by
  have h0 := ha.n0
  obtain ⟨-, h1, h2, h3, h4⟩ := ha.mag
  exact ⟨by omega, h1, h2, h3, h4⟩

theorem feNormalizeWeak_spec (h : NoWrap a) :
    Tight 1 (feNormalizeWeak a) ∧ (feNormalizeWeak a).val % p = a.val % p := by
  have hp := firstPass_passed h
  exact ⟨Cut.tight hp.toCut (hp.n4.trans (by norm_num)), firstPass_mod h⟩

/-- A canonical element stays canonical. -/
theorem feNormalizeWeak_normalized (h : Normalized a) : Normalized (feNormalizeWeak a) := by
  obtain ⟨hcut, -, hval⟩ := firstPass_spec (Tight.noWrap h.tight (by norm_num))
  have hq : a.n4.toNat / 2 ^ 48 = 0 := Nat.div_eq_of_lt h.n4
  rw [hq, Nat.mul_zero, Nat.add_zero] at hval
  have hlt : (firstPass a).val < p := hval ▸ h.val
  refine ⟨hcut, ?_, hlt⟩
  rw [lt_p_iff, Fe.val] at hlt
  rw [feNormalizeWeak]
  omega

theorem feSetInt_spec {i : CInt} (hi : i.toNat = k) (hk : k < 2 ^ 31) :
    Normalized (feSetInt i) ∧ (feSetInt i).val = k := by
  have hw := CInt.toNat_toU64 hi hk
  have hv : (feSetInt i).val = k := by simp [feSetInt, Fe.val, hw]
  refine ⟨⟨⟨?_, ?_, ?_, ?_⟩, ?_, ?_⟩, hv⟩
  · simp only [feSetInt, hw]
    omega
  iterate 4 simp [feSetInt]
  · rw [hv, lt_p_iff]
    omega

theorem feClear_spec : Normalized feClear ∧ feClear.val = 0 := by
  refine ⟨⟨⟨?_, ?_, ?_, ?_⟩, ?_, ?_⟩, ?_⟩ <;> simp [feClear, Fe.val, p_pos]

/-- The masks of a flag that is 0 or 1 select a limb. -/
theorem cmovLimb_spec (f : Bool) (r x : U64) : cmovLimb (ofBool f) r x = if f then x else r := by
  cases f
  · simp [cmovLimb, ofBool, CInt.toU64]
    exact BitVec.and_allOnes
  · simp [cmovLimb, ofBool, CInt.toU64]
    exact BitVec.and_allOnes

theorem feCmov_spec (f : Bool) : feCmov a b (ofBool f) = if f then b else a := by
  cases f <;> simp [feCmov, cmovLimb_spec]

theorem feIsZero_iff : feIsZero a = true ↔ a.val = 0 := by
  rw [feIsZero, decide_eq_true_iff, limbs_zero_iff]

theorem feIsOdd_iff : feIsOdd a = true ↔ a.val % 2 = 1 := by
  have h1 : (a.n0 &&& 1).toNat = a.n0.toNat % 2 := Word.toNat_and_one rfl
  rw [feIsOdd, decide_eq_true_iff, Ne, Word.eq_iff_toNat h1 (y := 0) (b := 0) rfl]
  simp only [Fe.val]
  omega

/-! ## Storage -/

theorem feToStorage_val (ha : Normalized a) : (feToStorage a).val = a.val := by
  obtain ⟨⟨a0, a1, a2, a3⟩, a4, -⟩ := ha
  have e0 : (a.n0 ||| a.n1 <<< 52).toNat = _ :=
    Word.toNat_or 52 rfl (Word.toNat_shl_low 52 12 rfl rfl) a0
  have e1 : (a.n1 >>> 12 ||| a.n2 <<< 40).toNat = _ :=
    Word.toNat_or 40 (Word.toNat_shr 12 rfl) (Word.toNat_shl_low 40 24 rfl rfl) (by omega)
  have e2 : (a.n2 >>> 24 ||| a.n3 <<< 28).toNat = _ :=
    Word.toNat_or 28 (Word.toNat_shr 24 rfl) (Word.toNat_shl_low 28 36 rfl rfl) (by omega)
  have e3 : (a.n3 >>> 36 ||| a.n4 <<< 16).toNat = _ :=
    Word.toNat_or 16 (Word.toNat_shr 36 rfl) (Word.toNat_shl_low 16 48 rfl rfl) (by omega)
  simp only [feToStorage, FeStorage.val, Fe.val, e0, e1, e2, e3]
  omega

/-- `(x << k) & 0xFFFFFFFFFFFFF`. -/
theorem toNat_shl_mask (x : U64) (k j : ℕ) (h : 52 = j + k) :
    (x <<< k &&& mask52).toNat = x.toNat % 2 ^ j * 2 ^ k := by
  have hk : 64 = (j + 12) + k := by omega
  rw [Word.toNat_and_mask 52 (Word.toNat_shl_low k (j + 12) rfl hk) toNat_mask52, h,
    Nat.pow_add 2 j k, Nat.mul_mod_mul_right,
    Nat.mod_mod_of_dvd _ (Nat.pow_dvd_pow 2 (Nat.le_add_right j 12))]

theorem feFromStorage_spec (s : FeStorage) :
    Cut (feFromStorage s) ∧ (feFromStorage s).n4.toNat < 2 ^ 48 ∧
      (feFromStorage s).val = s.val := by
  have h0 := s.n0.isLt
  have h1 := s.n1.isLt
  have h2 := s.n2.isLt
  have h3 := s.n3.isLt
  have e0 : (s.n0 &&& mask52).toNat = s.n0.toNat % 2 ^ 52 := toNat_and_mask52 _
  have e1 : (s.n0 >>> 52 ||| (s.n1 <<< 12 &&& mask52)).toNat = _ :=
    Word.toNat_or 12 (Word.toNat_shr 52 rfl) (toNat_shl_mask s.n1 12 40 rfl) (by omega)
  have e2 : (s.n1 >>> 40 ||| (s.n2 <<< 24 &&& mask52)).toNat = _ :=
    Word.toNat_or 24 (Word.toNat_shr 40 rfl) (toNat_shl_mask s.n2 24 28 rfl) (by omega)
  have e3 : (s.n2 >>> 28 ||| (s.n3 <<< 36 &&& mask52)).toNat = _ :=
    Word.toNat_or 36 (Word.toNat_shr 28 rfl) (toNat_shl_mask s.n3 36 16 rfl) (by omega)
  have e4 : (s.n3 >>> 16).toNat = s.n3.toNat / 2 ^ 16 := Word.toNat_shr 16 rfl
  refine ⟨⟨?_, ?_, ?_, ?_⟩, ?_, ?_⟩ <;>
    simp only [feFromStorage, FeStorage.val, Fe.val, e0, e1, e2, e3, e4] <;> omega

/-! ## Bytes -/

/-- The word `x` holds the number `v` of at most `k` bits. -/
structure Holds (x : U64) (v k : ℕ) : Prop where
  eq : x.toNat = v
  lt : v < 2 ^ k

theorem Holds.put (b : Byte) {k j : ℕ} (hb : b.toNat < 2 ^ j) (hk : k + j ≤ 64) :
    Holds (put b k) (b.toNat * 2 ^ k) (k + j) := by
  have hlt : b.toNat * 2 ^ k < 2 ^ (k + j) := by
    rw [Nat.add_comm, Nat.pow_add]
    exact Nat.mul_lt_mul_of_pos_right hb (by positivity)
  refine ⟨Word.toNat_shl k (Word.toNat_setWidth rfl ?_) ?_, hlt⟩
  · exact b.isLt.trans (by norm_num)
  · exact hlt.trans_le (Nat.pow_le_pow_right (by norm_num) hk)

/-- One more part joined above the others. -/
theorem Holds.join {x : U64} {v k j : ℕ} (h : Holds x v k) (b : Byte) (hb : b.toNat < 2 ^ j)
    (hk : k + j ≤ 64) : Holds (x ||| Field5x52.put b k) (v + b.toNat * 2 ^ k) (k + j) := by
  refine ⟨Word.toNat_or k h.eq (Holds.put b hb hk).eq h.lt, ?_⟩
  calc v + b.toNat * 2 ^ k < 2 ^ k + b.toNat * 2 ^ k := Nat.add_lt_add_right h.lt _
    _ = (b.toNat + 1) * 2 ^ k := by ring
    _ ≤ 2 ^ j * 2 ^ k := Nat.mul_le_mul_right _ hb
    _ = 2 ^ (k + j) := by rw [Nat.add_comm, Nat.pow_add]

theorem feOfB32_spec (x : Fin 32 → Byte) :
    Cut (feOfB32 x) ∧ (feOfB32 x).n4.toNat < 2 ^ 48 ∧ (feOfB32 x).val = Bytes.be x := by
  have hb : ∀ i, (x i).toNat < 2 ^ 8 := fun i => (x i).isLt
  have hlo : ∀ i, (x i &&& 0xF).toNat = (x i).toNat % 2 ^ 4 := fun i =>
    Word.toNat_and_mask 4 rfl (by decide)
  have hhi : ∀ i, ((x i >>> 4) &&& 0xF).toNat = (x i).toNat / 2 ^ 4 := fun i => by
    rw [Word.toNat_and_mask 4 (Word.toNat_shr 4 rfl) (by decide), Nat.mod_eq_of_lt]
    have := hb i
    omega
  have hlo4 : ∀ i, (x i &&& 0xF).toNat < 2 ^ 4 := fun i => by
    rw [hlo]
    exact Nat.mod_lt _ (by norm_num)
  have hhi4 : ∀ i, ((x i >>> 4) &&& 0xF).toNat < 2 ^ 4 := fun i => by
    have := hb i
    rw [hhi]
    omega
  have e0 : Holds (feOfB32 x).n0 _ 52 :=
    ((((((Holds.put (k := 0) (x 31) (hb 31) (by norm_num)).join (x 30) (hb 30) (by norm_num)).join
      (x 29) (hb 29) (by norm_num)).join (x 28) (hb 28) (by norm_num)).join
      (x 27) (hb 27) (by norm_num)).join (x 26) (hb 26) (by norm_num)).join
      (x 25 &&& 0xF) (hlo4 25) (by norm_num)
  have e1 : Holds (feOfB32 x).n1 _ 52 :=
    ((((((Holds.put (k := 0) ((x 25 >>> 4) &&& 0xF) (hhi4 25) (by norm_num)).join
      (x 24) (hb 24) (by norm_num)).join (x 23) (hb 23) (by norm_num)).join
      (x 22) (hb 22) (by norm_num)).join (x 21) (hb 21) (by norm_num)).join
      (x 20) (hb 20) (by norm_num)).join (x 19) (hb 19) (by norm_num)
  have e2 : Holds (feOfB32 x).n2 _ 52 :=
    ((((((Holds.put (k := 0) (x 18) (hb 18) (by norm_num)).join (x 17) (hb 17) (by norm_num)).join
      (x 16) (hb 16) (by norm_num)).join (x 15) (hb 15) (by norm_num)).join
      (x 14) (hb 14) (by norm_num)).join (x 13) (hb 13) (by norm_num)).join
      (x 12 &&& 0xF) (hlo4 12) (by norm_num)
  have e3 : Holds (feOfB32 x).n3 _ 52 :=
    ((((((Holds.put (k := 0) ((x 12 >>> 4) &&& 0xF) (hhi4 12) (by norm_num)).join
      (x 11) (hb 11) (by norm_num)).join (x 10) (hb 10) (by norm_num)).join
      (x 9) (hb 9) (by norm_num)).join (x 8) (hb 8) (by norm_num)).join
      (x 7) (hb 7) (by norm_num)).join (x 6) (hb 6) (by norm_num)
  have e4 : Holds (feOfB32 x).n4 _ 48 :=
    (((((Holds.put (k := 0) (x 5) (hb 5) (by norm_num)).join (x 4) (hb 4) (by norm_num)).join
      (x 3) (hb 3) (by norm_num)).join (x 2) (hb 2) (by norm_num)).join
      (x 1) (hb 1) (by norm_num)).join (x 0) (hb 0) (by norm_num)
  refine ⟨⟨?_, ?_, ?_, ?_⟩, ?_, ?_⟩
  · exact e0.eq ▸ e0.lt
  · exact e1.eq ▸ e1.lt
  · exact e2.eq ▸ e2.lt
  · exact e3.eq ▸ e3.lt
  · exact e4.eq ▸ e4.lt
  · -- the bytes 25 and 12 are split between two limbs
    have s25 := (Nat.mod_add_div (x 25).toNat (2 ^ 4)).symm
    have s12 := (Nat.mod_add_div (x 12).toNat (2 ^ 4)).symm
    rw [Fe.val, e0.eq, e1.eq, e2.eq, e3.eq, e4.eq, Bytes.be32]
    simp only [hlo, hhi]
    generalize (x 25).toNat % 2 ^ 4 = l25 at s25 ⊢
    generalize (x 25).toNat / 2 ^ 4 = h25 at s25 ⊢
    generalize (x 12).toNat % 2 ^ 4 = l12 at s12 ⊢
    generalize (x 12).toNat / 2 ^ 4 = h12 at s12 ⊢
    rw [s25, s12]
    ring

/-- The element read is the value of the bytes; the value returned tells whether it is below `p`. -/
theorem feSetB32_spec (x : Fin 32 → Byte) :
    Tight 1 (feSetB32 x).1 ∧ (feSetB32 x).1.val = Bytes.be x ∧
      ((feSetB32 x).2 = true ↔ Bytes.be x < p) ∧
      (Bytes.be x < p → Normalized (feSetB32 x).1) := by
  obtain ⟨hcut, h4, hv⟩ := feOfB32_spec x
  refine ⟨hcut.tight (h4.trans (by norm_num)), hv, ?_, fun h => ⟨hcut, h4, hv ▸ h⟩⟩
  have hall := allOnes_iff hcut h4
  have hcomm : (feOfB32 x).n3 &&& (feOfB32 x).n2 &&& (feOfB32 x).n1 =
      (feOfB32 x).n1 &&& (feOfB32 x).n2 &&& (feOfB32 x).n3 := by
    rw [BitVec.and_assoc, BitVec.and_comm (feOfB32 x).n3, BitVec.and_comm (feOfB32 x).n2]
  rw [feSetB32, decide_eq_true_iff, hcomm, hall, hv, Nat.not_le]

theorem toNat_get (x : U64) (k : ℕ) : (get x k).toNat = x.toNat / 2 ^ k % 2 ^ 8 :=
  Word.toNat_setWidth (Word.toNat_and_mask 8 (Word.toNat_shr k rfl) (by decide))
    (Nat.mod_lt _ (by norm_num))

theorem toNat_getJoined (lo hi : U64) :
    (getJoined lo hi).toNat = lo.toNat / 2 ^ 48 % 2 ^ 4 + hi.toNat % 2 ^ 4 * 2 ^ 4 := by
  have h1 : ((lo >>> 48) &&& 0xF).toNat = _ :=
    Word.toNat_and_mask 4 (Word.toNat_shr 48 rfl) (by decide)
  have h2 : (hi &&& 0xF).toNat = _ := Word.toNat_and_mask 4 rfl (by decide)
  exact Word.toNat_setWidth (Word.toNat_or 4 h1 (Word.toNat_shl 4 h2 (by omega)) (by omega))
    (by omega)

/-- The parts a limb of at most 52 bits is written in. -/
theorem limb_parts {n : ℕ} (h : n < 2 ^ 52) :
    n / 2 ^ 0 % 2 ^ 8 + n / 2 ^ 8 % 2 ^ 8 * 2 ^ 8 + n / 2 ^ 16 % 2 ^ 8 * 2 ^ 16 +
      n / 2 ^ 24 % 2 ^ 8 * 2 ^ 24 + n / 2 ^ 32 % 2 ^ 8 * 2 ^ 32 + n / 2 ^ 40 % 2 ^ 8 * 2 ^ 40 +
      n / 2 ^ 48 % 2 ^ 4 * 2 ^ 48 = n := by
  omega

/-- The same for a limb whose low half byte goes with the limb below it. -/
theorem limb_parts_high {n : ℕ} (h : n < 2 ^ 52) :
    n % 2 ^ 4 + n / 2 ^ 4 % 2 ^ 8 * 2 ^ 4 + n / 2 ^ 12 % 2 ^ 8 * 2 ^ 12 +
      n / 2 ^ 20 % 2 ^ 8 * 2 ^ 20 + n / 2 ^ 28 % 2 ^ 8 * 2 ^ 28 + n / 2 ^ 36 % 2 ^ 8 * 2 ^ 36 +
      n / 2 ^ 44 % 2 ^ 8 * 2 ^ 44 = n := by
  omega

theorem feGetB32_be (ha : Normalized a) : Bytes.be (feGetB32 a) = a.val := by
  obtain ⟨⟨a0, a1, a2, a3⟩, a4, -⟩ := ha
  have p0 := limb_parts a0
  have p1 := limb_parts_high a1
  have p2 := limb_parts a2
  have p3 := limb_parts_high a3
  have p4 := limb_parts (a4.trans (by norm_num))
  have t4 : a.n4.toNat / 2 ^ 48 % 2 ^ 4 = 0 := by omega
  rw [t4] at p4
  change Bytes.beNat [get a.n4 40, get a.n4 32, get a.n4 24, get a.n4 16, get a.n4 8, get a.n4 0,
    get a.n3 44, get a.n3 36, get a.n3 28, get a.n3 20, get a.n3 12, get a.n3 4,
    getJoined a.n2 a.n3, get a.n2 40, get a.n2 32, get a.n2 24, get a.n2 16, get a.n2 8,
    get a.n2 0, get a.n1 44, get a.n1 36, get a.n1 28, get a.n1 20, get a.n1 12, get a.n1 4,
    getJoined a.n0 a.n1, get a.n0 40, get a.n0 32, get a.n0 24, get a.n0 16, get a.n0 8,
    get a.n0 0] = a.val
  simp only [Bytes.beNat_cons, Bytes.beNat_nil, List.length_cons, List.length_nil, Nat.reduceAdd,
    toNat_get, toNat_getJoined]
  rw [Fe.val]
  conv_rhs => rw [← p0, ← p1, ← p2, ← p3, ← p4]
  ring

end

end Secp256k1.Field5x52
