import Secp256k1.Field.Impl4x64

/-!
# What the four-limb operations compute

The codecs and tests of `field_4x64_impl.h` in terms of the integer the limbs denote.
-/

namespace Secp256k1.Field4x64

theorem toNat_byteAt (x : U64) (i : ℕ) : (byteAt x i).toNat = x.toNat / 2 ^ (8 * i) % 2 ^ 8 :=
  Word.toNat_truncate (Word.toNat_shr (8 * i) rfl)

/-- The bytes a word is made of. -/
theorem word_parts {n : ℕ} (h : n < 2 ^ 64) :
    n / 2 ^ (8 * 0) % 2 ^ 8 + n / 2 ^ (8 * 1) % 2 ^ 8 * 2 ^ 8 + n / 2 ^ (8 * 2) % 2 ^ 8 * 2 ^ 16 +
      n / 2 ^ (8 * 3) % 2 ^ 8 * 2 ^ 24 + n / 2 ^ (8 * 4) % 2 ^ 8 * 2 ^ 32 +
      n / 2 ^ (8 * 5) % 2 ^ 8 * 2 ^ 40 + n / 2 ^ (8 * 6) % 2 ^ 8 * 2 ^ 48 +
      n / 2 ^ (8 * 7) % 2 ^ 8 * 2 ^ 56 = n := by
  omega

theorem feGetB32_be (a : Fe) : Bytes.be (feGetB32 a) = a.val := by
  have p0 := word_parts a.n0.isLt
  have p1 := word_parts a.n1.isLt
  have p2 := word_parts a.n2.isLt
  have p3 := word_parts a.n3.isLt
  change Bytes.beNat [byteAt a.n3 7, byteAt a.n3 6, byteAt a.n3 5, byteAt a.n3 4, byteAt a.n3 3,
    byteAt a.n3 2, byteAt a.n3 1, byteAt a.n3 0, byteAt a.n2 7, byteAt a.n2 6, byteAt a.n2 5,
    byteAt a.n2 4, byteAt a.n2 3, byteAt a.n2 2, byteAt a.n2 1, byteAt a.n2 0, byteAt a.n1 7,
    byteAt a.n1 6, byteAt a.n1 5, byteAt a.n1 4, byteAt a.n1 3, byteAt a.n1 2, byteAt a.n1 1,
    byteAt a.n1 0, byteAt a.n0 7, byteAt a.n0 6, byteAt a.n0 5, byteAt a.n0 4, byteAt a.n0 3,
    byteAt a.n0 2, byteAt a.n0 1, byteAt a.n0 0] = a.val
  simp only [Bytes.beNat_cons, Bytes.beNat_nil, List.length_cons, List.length_nil, Nat.reduceAdd,
    toNat_byteAt]
  rw [Fe.val]
  conv_rhs => rw [← p0, ← p1, ← p2, ← p3]
  ring

theorem toNat_wordOf (b : ℕ → Byte) : (wordOf b).toNat =
    (b 0).toNat + (b 1).toNat * 2 ^ 8 + (b 2).toNat * 2 ^ 16 + (b 3).toNat * 2 ^ 24 +
      (b 4).toNat * 2 ^ 32 + (b 5).toNat * 2 ^ 40 + (b 6).toNat * 2 ^ 48 +
      (b 7).toNat * 2 ^ 56 := by
  have h : Bytes.leNat ((List.range 8).map b) = (b 0).toNat + (b 1).toNat * 2 ^ 8 +
      (b 2).toNat * 2 ^ 16 + (b 3).toNat * 2 ^ 24 + (b 4).toNat * 2 ^ 32 + (b 5).toNat * 2 ^ 40 +
      (b 6).toNat * 2 ^ 48 + (b 7).toNat * 2 ^ 56 := by
    change Bytes.leNat [b 0, b 1, b 2, b 3, b 4, b 5, b 6, b 7] = _
    simp only [Bytes.leNat]
    ring
  have hlt := Bytes.beNat_lt ((List.range 8).map b).reverse
  rw [Bytes.beNat_reverse, List.length_reverse, List.length_map, List.length_range] at hlt
  rw [wordOf, BitVec.toNat_ofNat, Nat.mod_eq_of_lt (hlt.trans_eq (by norm_num)), h]

theorem feSetB32_val (x : Fin 32 → Byte) : (feSetB32 x).1.val = Bytes.be x := by
  rw [Bytes.be32]
  simp only [feSetB32, Fe.val, toNat_wordOf]
  change (x 31).toNat + (x 30).toNat * 2 ^ 8 + (x 29).toNat * 2 ^ 16 + (x 28).toNat * 2 ^ 24 +
    (x 27).toNat * 2 ^ 32 + (x 26).toNat * 2 ^ 40 + (x 25).toNat * 2 ^ 48 + (x 24).toNat * 2 ^ 56 +
    ((x 23).toNat + (x 22).toNat * 2 ^ 8 + (x 21).toNat * 2 ^ 16 + (x 20).toNat * 2 ^ 24 +
    (x 19).toNat * 2 ^ 32 + (x 18).toNat * 2 ^ 40 + (x 17).toNat * 2 ^ 48 + (x 16).toNat * 2 ^ 56) *
    2 ^ 64 +
    ((x 15).toNat + (x 14).toNat * 2 ^ 8 + (x 13).toNat * 2 ^ 16 + (x 12).toNat * 2 ^ 24 +
    (x 11).toNat * 2 ^ 32 + (x 10).toNat * 2 ^ 40 + (x 9).toNat * 2 ^ 48 + (x 8).toNat * 2 ^ 56) *
    2 ^ 128 +
    ((x 7).toNat + (x 6).toNat * 2 ^ 8 + (x 5).toNat * 2 ^ 16 + (x 4).toNat * 2 ^ 24 +
    (x 3).toNat * 2 ^ 32 + (x 2).toNat * 2 ^ 40 + (x 1).toNat * 2 ^ 48 + (x 0).toNat * 2 ^ 56) *
    2 ^ 192 = _
  ring

theorem limbs_zero_iff (a : Fe) : (a.n0 = 0 ∧ a.n1 = 0 ∧ a.n2 = 0 ∧ a.n3 = 0) ↔ a.val = 0 := by
  have h0 : ∀ x : U64, x = 0 ↔ x.toNat = 0 := fun x => Word.eq_iff_toNat rfl rfl
  simp only [h0, Fe.val]
  omega

theorem feNormalizesToZero_iff (a : Fe) : feNormalizesToZero a = true ↔ a.val = 0 := by
  rw [feNormalizesToZero, decide_eq_true_iff, limbs_zero_iff]

theorem feNormalizesToZeroVar_eq (a : Fe) : feNormalizesToZeroVar a = feNormalizesToZero a := rfl

theorem feIsZero_eq (a : Fe) : feIsZero a = feNormalizesToZero a := by
  rw [feIsZero, feNormalizesToZero, decide_eq_decide, Word.or_eq_zero, Word.or_eq_zero,
    Word.or_eq_zero, and_assoc, and_assoc]

theorem feIsOdd_iff (a : Fe) : feIsOdd a = true ↔ a.val % 2 = 1 := by
  have h1 : (a.n0 &&& 1).toNat = a.n0.toNat % 2 := Word.toNat_and_one rfl
  rw [feIsOdd, decide_eq_true_iff, Ne, Word.eq_iff_toNat h1 (y := 0) (b := 0) rfl]
  simp only [Fe.val]
  omega

theorem feSetInt_val {i : CInt} {k : ℕ} (hi : i.toNat = k) (hk : k < 2 ^ 31) :
    (feSetInt i).val = k := by
  simp [feSetInt, Fe.val, CInt.toNat_toU64 hi hk]

theorem feCmov_spec (r a : Fe) (f : Bool) : feCmov r a (ofBool f) = if f then a else r := by
  cases f <;> simp [feCmov, ofBool]

theorem feToStorage_val (a : Fe) : (feToStorage a).val = a.val := rfl

theorem feFromStorage_val (s : FeStorage) : (feFromStorage s).val = s.val := rfl

/-! ## Inner routines as documented -/

def Fe.ofNat (v : ℕ) : Fe :=
  ⟨BitVec.ofNat 64 v, BitVec.ofNat 64 (v / 2 ^ 64), BitVec.ofNat 64 (v / 2 ^ 128),
    BitVec.ofNat 64 (v / 2 ^ 192)⟩

theorem Fe.val_ofNat {v : ℕ} (h : v < 2 ^ 256) : (Fe.ofNat v).val = v := by
  simp only [Fe.ofNat, Fe.val, BitVec.toNat_ofNat]
  omega

theorem Fe.val_ofNat_mod (v : ℕ) : (Fe.ofNat (v % p)).val = v % p :=
  Fe.val_ofNat ((Nat.mod_lt v p_pos).trans p_lt)

/-- Routines that compute the residues the code relies on. -/
def Inner.reference : Inner where
  add a b := Fe.ofNat ((a.val + b.val) % p)
  negate a := Fe.ofNat ((p - a.val % p) % p)
  mulInt a k := Fe.ofNat (a.val * k.toNat % p)
  mul a b := Fe.ofNat (a.val * b.val % p)
  sqr a := Fe.ofNat (a.val * a.val % p)

theorem Inner.reference_sound (D : Fe → Prop) : Inner.reference.Sound D where
  add _ _ _ _ := Fe.val_ofNat_mod _
  negate _ _ := Fe.val_ofNat_mod _
  mul _ _ _ _ := Fe.val_ofNat_mod _
  sqr _ _ := Fe.val_ofNat_mod _

theorem Inner.reference_soundInt (D : Fe → Prop) : Inner.reference.SoundInt D :=
  fun _ _ _ _ => Fe.val_ofNat_mod _

end Secp256k1.Field4x64
