import Secp256k1.Field.Impl5x52

/-!
# Normalization of five-limb elements

After the first pass the value is below `2 * p` and congruent to the input; the final reduction
then subtracts `p` exactly when the value is not below it. The zero tests recognize the two raw
values `0` and `p` of the first pass.
-/

namespace Secp256k1.Field5x52

/-- The limbs leave room for the carries of the first pass. -/
structure NoWrap (a : Fe) : Prop where
  n0 : a.n0.toNat + a.n4.toNat / 2 ^ 48 * 0x1000003D1 < 2 ^ 64
  n1 : a.n1.toNat ≤ 2 ^ 64 - 2 ^ 12
  n2 : a.n2.toNat ≤ 2 ^ 64 - 2 ^ 12
  n3 : a.n3.toNat ≤ 2 ^ 64 - 2 ^ 12

/-- Limbs of 52 bits, the last one left open. -/
structure Cut (a : Fe) : Prop where
  n0 : a.n0.toNat < 2 ^ 52
  n1 : a.n1.toNat < 2 ^ 52
  n2 : a.n2.toNat < 2 ^ 52
  n3 : a.n3.toNat < 2 ^ 52

/-- The canonical representation of a residue. -/
structure Normalized (a : Fe) : Prop extends Cut a where
  n4 : a.n4.toNat < 2 ^ 48
  val : a.val < p

theorem Normalized.ext {a b : Fe} (ha : Normalized a) (hb : Normalized b) (h : a.val = b.val) :
    a = b := by
  obtain ⟨⟨a0, a1, a2, a3⟩, a4, -⟩ := ha
  obtain ⟨⟨b0, b1, b2, b3⟩, b4, -⟩ := hb
  simp only [Fe.val] at h
  apply Fe.ext <;> apply BitVec.eq_of_toNat_eq <;> omega

theorem toNat_mask52 : mask52.toNat = 2 ^ 52 - 1 := by decide

theorem toNat_mask48 : mask48.toNat = 2 ^ 48 - 1 := by decide

theorem toNat_and_mask52 (x : U64) : (x &&& mask52).toNat = x.toNat % 2 ^ 52 :=
  Word.toNat_and_mask 52 rfl toNat_mask52

theorem toNat_and_mask48 (x : U64) : (x &&& mask48).toNat = x.toNat % 2 ^ 48 :=
  Word.toNat_and_mask 48 rfl toNat_mask48

/-- Carrying keeps the value and cuts the four low limbs. -/
theorem addCarry_spec {x : U64} {t : Fe} (h0 : t.n0.toNat + x.toNat * 0x1000003D1 < 2 ^ 64)
    (h1 : t.n1.toNat ≤ 2 ^ 64 - 2 ^ 12) (h2 : t.n2.toNat ≤ 2 ^ 64 - 2 ^ 12)
    (h3 : t.n3.toNat ≤ 2 ^ 64 - 2 ^ 12) (h4 : t.n4.toNat ≤ 2 ^ 64 - 2 ^ 12) :
    Cut (addCarry x t) ∧ (addCarry x t).val = t.val + x.toNat * 0x1000003D1 := by
  unfold addCarry
  extract_lets t0 t1 t2 t3 t4
  have e0 : t0.toNat = t.n0.toNat + x.toNat * 0x1000003D1 :=
    Word.toNat_add rfl (Word.toNat_mul rfl (by decide) (by omega)) h0
  have e1 : t1.toNat = t.n1.toNat + t0.toNat / 2 ^ 52 :=
    Word.toNat_add rfl (Word.toNat_shr 52 rfl) (by omega)
  have e2 : t2.toNat = t.n2.toNat + t1.toNat / 2 ^ 52 :=
    Word.toNat_add rfl (Word.toNat_shr 52 rfl) (by omega)
  have e3 : t3.toNat = t.n3.toNat + t2.toNat / 2 ^ 52 :=
    Word.toNat_add rfl (Word.toNat_shr 52 rfl) (by omega)
  have e4 : t4.toNat = t.n4.toNat + t3.toNat / 2 ^ 52 :=
    Word.toNat_add rfl (Word.toNat_shr 52 rfl) (by omega)
  clear_value t0 t1 t2 t3 t4
  simp only [Fe.val]
  refine ⟨⟨?_, ?_, ?_, ?_⟩, ?_⟩ <;> simp only [toNat_and_mask52] <;> omega

theorem firstPass_spec {a : Fe} (h : NoWrap a) :
    Cut (firstPass a) ∧ (firstPass a).n4.toNat < 2 ^ 48 + 2 ^ 12 ∧
      (firstPass a).val + p * (a.n4.toNat / 2 ^ 48) = a.val := by
  obtain ⟨h0, h1, h2, h3⟩ := h
  have hx : (a.n4 >>> 48).toNat = a.n4.toNat / 2 ^ 48 := Word.toNat_shr 48 rfl
  have hm := toNat_and_mask48 a.n4
  obtain ⟨hcut, hval⟩ := addCarry_spec (x := a.n4 >>> 48) (t := maskTop a)
    (by rw [hx]; exact h0) h1 h2 h3 (by simp only [maskTop, hm]; omega)
  have ⟨c0, c1, c2, c3⟩ := hcut
  simp only [Fe.val, maskTop, hm, hx] at hval
  refine ⟨hcut, ?_, ?_⟩
  · rw [firstPass]
    simp only [maskTop]
    omega
  · rw [firstPass]
    simp only [maskTop, Fe.val, p]
    omega

/-- What the first pass leaves: a value below `2 * p`. -/
structure Passed (t : Fe) : Prop extends Cut t where
  n4 : t.n4.toNat < 2 ^ 48 + 2 ^ 12

theorem firstPass_passed {a : Fe} (h : NoWrap a) : Passed (firstPass a) :=
  ⟨(firstPass_spec h).1, (firstPass_spec h).2.1⟩

theorem firstPass_mod {a : Fe} (h : NoWrap a) : (firstPass a).val % p = a.val % p := by
  rw [← (firstPass_spec h).2.2, Nat.add_mul_mod_self_left]

theorem Passed.lt {t : Fe} (h : Passed t) : t.val < 2 * p := by
  obtain ⟨⟨h0, h1, h2, h3⟩, h4⟩ := h
  simp only [Fe.val, p]
  omega

/-- Three limbs that are all ones. -/
theorem and_and_eq_mask52 {x y z : U64} (hx : x.toNat < 2 ^ 52) (hy : y.toNat < 2 ^ 52)
    (hz : z.toNat < 2 ^ 52) : x &&& y &&& z = mask52 ↔
      x.toNat = 2 ^ 52 - 1 ∧ y.toNat = 2 ^ 52 - 1 ∧ z.toNat = 2 ^ 52 - 1 := by
  have hxy : (x &&& y).toNat < 2 ^ 52 := by
    rw [BitVec.toNat_and]
    exact Nat.lt_of_le_of_lt Nat.and_le_left hx
  rw [Word.and_eq_mask toNat_mask52 hxy hz, Word.and_eq_mask toNat_mask52 hx hy, and_assoc,
    Word.eq_iff_toNat rfl toNat_mask52, Word.eq_iff_toNat rfl toNat_mask52,
    Word.eq_iff_toNat rfl toNat_mask52]

/-- The limbs of `p`, or of a value from `p` to `2 ^ 256`. -/
theorem allOnes_iff {t : Fe} (h : Cut t) (h4 : t.n4.toNat < 2 ^ 48) :
    (t.n4 = mask48 ∧ t.n1 &&& t.n2 &&& t.n3 = mask52 ∧ 0xFFFFEFFFFFC2F ≤ t.n0) ↔ p ≤ t.val := by
  obtain ⟨h0, h1, h2, h3⟩ := h
  rw [and_and_eq_mask52 h1 h2 h3, Word.eq_iff_toNat rfl toNat_mask48, BitVec.le_def]
  have hC : (0xFFFFEFFFFFC2F : U64).toNat = 0xFFFFEFFFFFC2F := by decide
  simp only [hC, Fe.val, p]
  omega

/-- The final reduction is due exactly when the value is not below `p`. -/
theorem finalReduction_spec {t : Fe} (h : Passed t) :
    (finalReduction t).toNat = if p ≤ t.val then 1 else 0 := by
  obtain ⟨hcut, h4⟩ := h
  have hsh : (t.n4 >>> 48).toNat = t.n4.toNat / 2 ^ 48 := Word.toNat_shr 48 rfl
  by_cases hbig : t.n4.toNat < 2 ^ 48
  · -- no carry out of bit 256: the comparison decides
    have hz : t.n4 >>> 48 = 0#64 := BitVec.eq_of_toNat_eq (by rw [hsh]; simp; omega)
    simp only [finalReduction, hz, BitVec.zero_or, allOnes_iff hcut hbig]
    by_cases hp : p ≤ t.val <;> simp [hp, ofBool, CInt.toU64]
  · -- a carry: the value is at least `2 ^ 256`
    have hone : t.n4 >>> 48 = 1 := BitVec.eq_of_toNat_eq (by rw [hsh]; simp; omega)
    have hm : t.n4 ≠ mask48 := by
      rw [Ne, Word.eq_iff_toNat rfl toNat_mask48]
      omega
    have hp : p ≤ t.val := by
      simp only [Fe.val, p]
      omega
    simp [finalReduction, hone, hm, hp, ofBool, CInt.toU64]

/-- Subtracting `p` by adding `2 ^ 256 - p` and cutting at bit 256. -/
theorem finalPass_spec {t : Fe} {x : U64} (h : Passed t)
    (hx : x.toNat = if p ≤ t.val then 1 else 0) :
    Normalized (maskTop (addCarry x t)) ∧ (maskTop (addCarry x t)).val = t.val % p := by
  have hlt := h.lt
  obtain ⟨⟨h0, h1, h2, h3⟩, h4⟩ := h
  have hx1 : x.toNat ≤ 1 := by split at hx <;> omega
  obtain ⟨⟨c0, c1, c2, c3⟩, hval⟩ := addCarry_spec (x := x) (t := t) (by omega) (by omega)
    (by omega) (by omega) (by omega)
  have hcut := toNat_and_mask48 (addCarry x t).n4
  have key : (maskTop (addCarry x t)).val = t.val % p := by
    rcases Nat.lt_or_ge t.val p with hp | hp
    · rw [if_neg (Nat.not_le.mpr hp)] at hx
      rw [Nat.mod_eq_of_lt hp]
      rw [hx] at hval
      rw [Nat.zero_mul, Nat.add_zero] at hval
      rw [lt_p_iff, ← hval] at hp
      have h48 : (addCarry x t).n4.toNat < 2 ^ 48 := by
        simp only [Fe.val] at hp
        omega
      rw [← hval]
      simp only [Fe.val, maskTop, hcut, Nat.mod_eq_of_lt h48]
    · rw [if_pos hp] at hx
      rw [Nat.mod_eq_sub_mod hp, Nat.mod_eq_of_lt (by omega)]
      apply Nat.eq_sub_of_add_eq
      rw [hx] at hval
      simp only [Fe.val, maskTop, hcut, p] at hval hp hlt ⊢
      omega
  refine ⟨⟨⟨c0, c1, c2, c3⟩, by simp only [maskTop, hcut]; omega, ?_⟩, key⟩
  rw [key]
  exact Nat.mod_lt _ p_pos

theorem feNormalize_spec {a : Fe} (h : NoWrap a) :
    Normalized (feNormalize a) ∧ (feNormalize a).val = a.val % p := by
  have hp := firstPass_passed h
  have hfin := finalPass_spec hp (finalReduction_spec hp)
  rw [firstPass_mod h] at hfin
  exact hfin

theorem feNormalizeVar_eq {a : Fe} (h : NoWrap a) : feNormalizeVar a = feNormalize a := by
  have hp := firstPass_passed h
  have hfin := finalReduction_spec hp
  unfold feNormalizeVar feNormalize
  split at hfin
  · have hone : finalReduction (firstPass a) = 1 := BitVec.eq_of_toNat_eq hfin
    simp [hone]
  · have hzero : finalReduction (firstPass a) = 0 := BitVec.eq_of_toNat_eq hfin
    simp only [hzero, ne_eq, not_true_eq_false, if_false]
    -- nothing is added and the value is already canonical
    have hn := finalPass_spec (x := 0) hp (by simp [*])
    have hcut := hp.toCut
    have h4 : (firstPass a).n4.toNat < 2 ^ 48 := by
      have hv : (firstPass a).val < p := by omega
      simp only [Fe.val, p] at hv
      omega
    refine Normalized.ext ⟨hcut, h4, by omega⟩ hn.1 ?_
    rw [hn.2, Nat.mod_eq_of_lt (by omega)]

/-! ## Zero tests -/

theorem xor_lt {x y : U64} {k : ℕ} (hx : x.toNat < 2 ^ k) (hy : y.toNat < 2 ^ k) :
    (x ^^^ y).toNat < 2 ^ k := by
  rw [BitVec.toNat_xor]
  exact Nat.xor_lt_two_pow hx hy

theorem xor_eq_iff {x y m : U64} : x ^^^ y = m ↔ x = m ^^^ y := by
  constructor
  · rintro rfl
    rw [BitVec.xor_assoc, BitVec.xor_self, BitVec.xor_zero]
  · rintro rfl
    rw [BitVec.xor_assoc, BitVec.xor_self, BitVec.xor_zero]

/-- The raw value zero. -/
theorem limbs_zero_iff (t : Fe) :
    t.n0 ||| t.n1 ||| t.n2 ||| t.n3 ||| t.n4 = 0 ↔ t.val = 0 := by
  have h0 : ∀ x : U64, x = 0 ↔ x.toNat = 0 := fun x => Word.eq_iff_toNat rfl rfl
  rw [Word.or_eq_zero, Word.or_eq_zero, Word.or_eq_zero, Word.or_eq_zero]
  simp only [h0, Fe.val]
  omega

/-- The raw value `p`. -/
theorem limbs_p_iff {t : Fe} (h : Passed t) :
    (t.n0 ^^^ 0x1000003D0) &&& t.n1 &&& t.n2 &&& t.n3 &&& (t.n4 ^^^ 0xF000000000000) = mask52 ↔
      t.val = p := by
  obtain ⟨⟨h0, h1, h2, h3⟩, h4⟩ := h
  have x0 : (t.n0 ^^^ 0x1000003D0).toNat < 2 ^ 52 := xor_lt h0 (by decide)
  have x4 : (t.n4 ^^^ 0xF000000000000).toNat < 2 ^ 52 := xor_lt (by omega) (by decide)
  have hand : ∀ {x y : U64}, x.toNat < 2 ^ 52 → (x &&& y).toNat < 2 ^ 52 := fun {x y} hx => by
    rw [BitVec.toNat_and]
    exact Nat.lt_of_le_of_lt Nat.and_le_left hx
  rw [Word.and_eq_mask toNat_mask52 (hand (hand (hand x0))) x4,
    Word.and_eq_mask toNat_mask52 (hand (hand x0)) h3, Word.and_eq_mask toNat_mask52 (hand x0) h2,
    Word.and_eq_mask toNat_mask52 x0 h1, xor_eq_iff, xor_eq_iff]
  rw [Word.eq_iff_toNat (y := mask52 ^^^ 0x1000003D0) rfl (b := 0xFFFFEFFFFFC2F) (by decide),
    Word.eq_iff_toNat (y := mask52 ^^^ 0xF000000000000) rfl (b := 0xFFFFFFFFFFFF) (by decide),
    Word.eq_iff_toNat rfl toNat_mask52, Word.eq_iff_toNat rfl toNat_mask52,
    Word.eq_iff_toNat rfl toNat_mask52]
  simp only [Fe.val, p]
  omega

theorem feNormalizesToZero_iff {a : Fe} (h : NoWrap a) :
    feNormalizesToZero a = true ↔ a.val % p = 0 := by
  have hp := firstPass_passed h
  have hlt := hp.lt
  rw [← firstPass_mod h, feNormalizesToZero, decide_eq_true_iff, limbs_zero_iff, limbs_p_iff hp]
  constructor
  · rintro (h0 | h0)
    · rw [h0, Nat.zero_mod]
    · rw [h0, Nat.mod_self]
  · intro hm
    obtain ⟨k, hk⟩ := Nat.dvd_of_mod_eq_zero hm
    have hk2 : k < 2 := by
      rw [hk, Nat.mul_comm] at hlt
      exact Nat.lt_of_mul_lt_mul_right hlt
    interval_cases k
    · exact Or.inl hk
    · exact Or.inr (hk.trans (Nat.mul_one p))

/-- The fast return path changes nothing. -/
theorem feNormalizesToZeroVar_eq (a : Fe) : feNormalizesToZeroVar a = feNormalizesToZero a := by
  unfold feNormalizesToZeroVar
  extract_lets t0 t4 x t0' z0 z1
  split
  · rename_i hfast
    -- the low limb alone excludes both raw values
    have hz1 : z1.toNat < 2 ^ 52 := xor_lt (by
      rw [toNat_and_mask52]
      exact Nat.mod_lt _ (by norm_num)) (by decide)
    symm
    rw [feNormalizesToZero, decide_eq_false_iff_not, not_or]
    constructor
    · intro h
      rw [Word.or_eq_zero, Word.or_eq_zero, Word.or_eq_zero, Word.or_eq_zero] at h
      exact hfast.1 h.1.1.1.1
    · intro h
      have hle : mask52.toNat ≤ z1.toNat := by
        rw [← h, BitVec.toNat_and, BitVec.toNat_and, BitVec.toNat_and, BitVec.toNat_and]
        exact (((Nat.and_le_left.trans Nat.and_le_left).trans Nat.and_le_left).trans
          Nat.and_le_left)
      refine hfast.2 (BitVec.eq_of_toNat_eq ?_)
      rw [toNat_mask52] at hle ⊢
      omega
  · rfl

end Secp256k1.Field5x52
