import Secp256k1.Field.Powers

/-!
# Field elements as residues

`FieldValues B` adds to `FieldModel B (ZMod p)` what the code above the field reads off an element:
its parity, its bytes, its memory, the bytes and constants it is made from. Both backends have it.
The order test is left out, the backends do not agree on it.
-/

namespace Secp256k1

/-- The number that the eight words of `SECP256K1_FE_CONST` spell. -/
def constVal (d7 d6 d5 d4 d3 d2 d1 d0 : BitVec 32) : ℕ :=
  d0.toNat + d1.toNat * 2 ^ 32 + d2.toNat * 2 ^ 64 + d3.toNat * 2 ^ 96 + d4.toNat * 2 ^ 128 +
    d5.toNat * 2 ^ 160 + d6.toNat * 2 ^ 192 + d7.toNat * 2 ^ 224

structure FieldValues {F : Type} (B : FieldOps F) extends FieldModel B (ZMod p) where
  zero_iff : ∀ {v b}, zero v b ↔ (b = true ↔ v = 0)
  isOdd : ∀ {v a}, norm v a → (B.isOdd a = true ↔ v.val % 2 = 1)
  getB32 : ∀ {v a}, norm v a → Bytes.be (B.getB32 a) = v.val
  setB32 : ∀ {b}, Bytes.be b < p → norm (Bytes.be b : ZMod p) (B.setB32 b).1 ∧ (B.setB32 b).2 = true
  setB32_raw : ∀ b, raw 1 (Bytes.be b : ZMod p) (B.setB32 b).1
  isOdd_setB32 : ∀ b, B.isOdd (B.setB32 b).1 = true ↔ Bytes.be b % 2 = 1
  weaken : ∀ {m v a}, m ≤ 32 → raw m v a → Yields (B.normalizeWeak a) (raw 1 v)
  const : ∀ d7 d6 d5 d4 d3 d2 d1 d0, constVal d7 d6 d5 d4 d3 d2 d1 d0 < p →
    norm (constVal d7 d6 d5 d4 d3 d2 d1 d0 : ZMod p) (B.const d7 d6 d5 d4 d3 d2 d1 d0)
  toStorage_val : ∀ {v a}, norm v a → (B.toStorage a).val = v.val
  fromStorage_norm : ∀ {v s}, FeStorage.val s = v.val → norm v (B.fromStorage s)

/-- The value of a canonical element is its residue. -/
theorem val_of_cast {a : ℕ} {v : ZMod p} (ha : a < p) (h : (a : ZMod p) = v) : v.val = a := by
  rw [← h, ZMod.val_natCast_of_lt ha]

theorem cast_of_val {a : ℕ} {v : ZMod p} (h : a = v.val) : (a : ZMod p) = v := by
  rw [h, ZMod.natCast_zmod_val]

/-! ## The five-limb backend -/

namespace Field5x52

theorem toNat_word (d : BitVec 32) : (d.setWidth 64).toNat = d.toNat :=
  Word.toNat_setWidth rfl (d.isLt.trans (by norm_num))

theorem feConst_spec (d7 d6 d5 d4 d3 d2 d1 d0 : BitVec 32) :
    Cut (feConst d7 d6 d5 d4 d3 d2 d1 d0) ∧ (feConst d7 d6 d5 d4 d3 d2 d1 d0).n4.toNat < 2 ^ 48 ∧
      (feConst d7 d6 d5 d4 d3 d2 d1 d0).val = constVal d7 d6 d5 d4 d3 d2 d1 d0 := by
  have h0 := d0.isLt
  have h1 := d1.isLt
  have h2 := d2.isLt
  have h3 := d3.isLt
  have h4 := d4.isLt
  have h5 := d5.isLt
  have h6 := d6.isLt
  have h7 := d7.isLt
  have e0 : (feConst d7 d6 d5 d4 d3 d2 d1 d0).n0.toNat = d0.toNat + d1.toNat % 2 ^ 20 * 2 ^ 32 :=
    Word.toNat_or 32 (toNat_word d0)
      (Word.toNat_shl 32 (Word.toNat_and_mask 20 (toNat_word d1) (by decide)) (by omega)) h0
  have e1 : (feConst d7 d6 d5 d4 d3 d2 d1 d0).n1.toNat =
      d1.toNat / 2 ^ 20 + d2.toNat * 2 ^ 12 + d3.toNat % 2 ^ 8 * 2 ^ 44 :=
    Word.toNat_or 44 (Word.toNat_or 12 (Word.toNat_shr 20 (toNat_word d1))
      (Word.toNat_shl 12 (toNat_word d2) (by omega)) (by omega))
      (Word.toNat_shl 44 (Word.toNat_and_mask 8 (toNat_word d3) (by decide)) (by omega)) (by omega)
  have e2 : (feConst d7 d6 d5 d4 d3 d2 d1 d0).n2.toNat =
      d3.toNat / 2 ^ 8 + d4.toNat % 2 ^ 28 * 2 ^ 24 :=
    Word.toNat_or 24 (Word.toNat_shr 8 (toNat_word d3))
      (Word.toNat_shl 24 (Word.toNat_and_mask 28 (toNat_word d4) (by decide)) (by omega)) (by omega)
  have e3 : (feConst d7 d6 d5 d4 d3 d2 d1 d0).n3.toNat =
      d4.toNat / 2 ^ 28 + d5.toNat * 2 ^ 4 + d6.toNat % 2 ^ 16 * 2 ^ 36 :=
    Word.toNat_or 36 (Word.toNat_or 4 (Word.toNat_shr 28 (toNat_word d4))
      (Word.toNat_shl 4 (toNat_word d5) (by omega)) (by omega))
      (Word.toNat_shl 36 (Word.toNat_and_mask 16 (toNat_word d6) (by decide)) (by omega)) (by omega)
  have e4 : (feConst d7 d6 d5 d4 d3 d2 d1 d0).n4.toNat = d6.toNat / 2 ^ 16 + d7.toNat * 2 ^ 16 :=
    Word.toNat_or 16 (Word.toNat_shr 16 (toNat_word d6))
      (Word.toNat_shl 16 (toNat_word d7) (by omega)) (by omega)
  refine ⟨⟨?_, ?_, ?_, ?_⟩, ?_, ?_⟩
  · omega
  · omega
  · omega
  · omega
  · omega
  · simp only [Fe.val, constVal, e0, e1, e2, e3, e4]
    omega

theorem cmpLimb_nonneg {a b : U64} {r : ℤ} :
    0 ≤ cmpLimb a b r ↔ b.toNat < a.toNat ∨ a.toNat = b.toNat ∧ 0 ≤ r := by
  unfold cmpLimb
  split
  · next h => exact iff_of_true (by norm_num) (.inl h)
  · split
    · next h =>
      have := BitVec.lt_def.mp h
      exact iff_of_false (by norm_num) (by omega)
    · next h h' =>
      have heq : a.toNat = b.toNat := by
        rw [gt_iff_lt, BitVec.lt_def] at h
        rw [BitVec.lt_def] at h'
        omega
      simp [heq]

/-- Numbers are compared from the top digit down. -/
theorem le_top_iff {d a b u v : ℕ} (hu : u < d) (hv : v < d) :
    v + b * d ≤ u + a * d ↔ b < a ∨ a = b ∧ v ≤ u := by
  rcases Nat.lt_trichotomy a b with h | rfl | h
  · have := Nat.mul_le_mul_right d (Nat.succ_le_of_lt h)
    rw [Nat.succ_mul] at this
    omega
  · omega
  · have := Nat.mul_le_mul_right d (Nat.succ_le_of_lt h)
    rw [Nat.succ_mul] at this
    omega

/-- On canonical elements the order test is the order of the numbers. -/
theorem feCmpVar_nonneg {a b : Fe} (ha : Normalized a) (hb : Normalized b) :
    0 ≤ feCmpVar a b ↔ b.val ≤ a.val := by
  obtain ⟨⟨a0, a1, a2, a3⟩, a4, -⟩ := ha
  obtain ⟨⟨b0, b1, b2, b3⟩, b4, -⟩ := hb
  rw [Fe.val, Fe.val, le_top_iff (by omega) (by omega), le_top_iff (by omega) (by omega),
    le_top_iff (by omega) (by omega), le_top_iff a0 b0]
  simp only [feCmpVar, cmpLimb_nonneg, le_refl, and_true]
  omega

/-- The five-limb backend as compiled, read in the field. -/
def field {K : Kernel} (hK : K.Sound) : FieldModel (ops K) (ZMod p) :=
  model K (ZMod.natCast_self p) hK.residues (fun v b => b = true ↔ v = 0) zero_iff

def values {K : Kernel} (hK : K.Sound) : FieldValues (ops K) where
  toFieldModel := field hK
  zero_iff := Iff.rfl
  isOdd h := by
    rw [val_of_cast h.1.val h.2]
    exact feIsOdd_iff
  getB32 h := by
    rw [val_of_cast h.1.val h.2]
    exact feGetB32_be h.1
  setB32 {b} h := by
    obtain ⟨-, hv, hok, hn⟩ := feSetB32_spec b
    exact ⟨⟨hn h, congrArg Nat.cast hv⟩, hok.mpr h⟩
  setB32_raw b := by
    obtain ⟨ht, hv, -⟩ := feSetB32_spec b
    exact ⟨ht.le (by norm_num), congrArg Nat.cast hv⟩
  isOdd_setB32 b := by
    obtain ⟨-, hv, -⟩ := feSetB32_spec b
    rw [← hv]
    exact feIsOdd_iff
  weaken hm h := (field hK).normalizeWeak hm h
  const d7 d6 d5 d4 d3 d2 d1 d0 h := by
    obtain ⟨hc, h4, hv⟩ := feConst_spec d7 d6 d5 d4 d3 d2 d1 d0
    exact ⟨⟨hc, h4, hv ▸ h⟩, congrArg Nat.cast hv⟩
  toStorage_val h := by
    rw [val_of_cast h.1.val h.2]
    exact feToStorage_val h.1
  fromStorage_norm {v s} h := by
    obtain ⟨hc, h4, hv⟩ := feFromStorage_spec s
    exact ⟨⟨hc, h4, (hv.trans h).trans_lt (ZMod.val_lt v)⟩, cast_of_val (hv.trans h)⟩

end Field5x52

/-! ## The four-limb backend -/

namespace Field4x64

theorem feConst_val (d7 d6 d5 d4 d3 d2 d1 d0 : BitVec 32) :
    (feConst d7 d6 d5 d4 d3 d2 d1 d0).val = constVal d7 d6 d5 d4 d3 d2 d1 d0 := by
  have hlimb : ∀ lo hi : BitVec 32, (lo.setWidth 64 ||| hi.setWidth 64 <<< 32).toNat =
      lo.toNat + hi.toNat * 2 ^ 32 := fun lo hi => by
    have := hi.isLt
    exact Word.toNat_or 32 (Field5x52.toNat_word lo)
      (Word.toNat_shl 32 (Field5x52.toNat_word hi) (by omega)) lo.isLt
  simp only [Fe.val, feConst, hlimb, constVal]
  ring

/-- The four-limb backend, read in the field. -/
def values {I : Inner} (hI : I.Sound fun _ => True) : FieldValues (ops I) where
  toFieldModel := model hI
  zero_iff := Iff.rfl
  isOdd h := by
    rw [val_of_cast h.1 h.2]
    exact feIsOdd_iff _
  getB32 h := by
    rw [val_of_cast h.1 h.2]
    exact feGetB32_be _
  setB32 {b} h := by
    have hv := feSetB32_val b
    exact ⟨⟨hv ▸ h, congrArg Nat.cast hv⟩, rfl⟩
  setB32_raw b := congrArg Nat.cast (feSetB32_val b)
  isOdd_setB32 b := by
    rw [← feSetB32_val b]
    exact feIsOdd_iff _
  weaken _ h := .some h
  const d7 d6 d5 d4 d3 d2 d1 d0 h := by
    have hv := feConst_val d7 d6 d5 d4 d3 d2 d1 d0
    exact ⟨hv ▸ h, congrArg Nat.cast hv⟩
  toStorage_val h := by
    rw [val_of_cast h.1 h.2]
    exact feToStorage_val _
  fromStorage_norm {v s} h := by
    have hv := (feFromStorage_val s).trans h
    exact ⟨hv.trans_lt (ZMod.val_lt v), cast_of_val hv⟩

end Field4x64

end Secp256k1
