import Secp256k1.Ecdsa.DerSpec

/-!
# Lengths in a narrow `size_t`

`secp256k1_der_read_len` accumulates the octets of a length in a `size_t` and compares after each
octet; the check that the octets fit a `size_t` is compiled out. In 64 bits the comparison stops
the loop before the accumulator can wrap. In 32 bits it does not: a value of `2 ^ 24` passes in an
input of that many bytes, and the next shift drops its top bit.
-/

namespace Secp256k1.Der

open Bytes

/-- A length in long form is returned as the value of all its octets, with the pointer after them
and at least that many bytes left; or it is not returned. -/
def ReadsExactly (w : ℕ) (l : List Byte) : Prop :=
  ∀ b t v rest, l = b :: t → 0x80 < b.toNat → b ≠ 0xFF → derReadLen w l = .ok (v, rest) → 0 ≤ v →
    v = beNat (t.take (b.toNat - 0x80)) ∧ b.toNat - 0x80 ≤ t.length ∧
      rest = t.drop (b.toNat - 0x80) ∧ v ≤ rest.length

/-- The comparison of the loop, with the values reduced to 32 bits: it passes each prefix of the
octets `o`, when `r` bytes follow them. -/
def PassesReduced (o : List Byte) (r : ℕ) : Prop :=
  ∀ i < o.length, (beNat (o.take (i + 1)) + (o.length - i)) % 2 ^ 32 ≤ r + (o.length - i)

instance (o : List Byte) (r : ℕ) : Decidable (PassesReduced o r) := by
  unfold PassesReduced
  infer_instance

/-- The octets denote more than the bytes after them, and reduced to 32 bits no prefix of them is
stopped and their value is that of an `int` that is not negative. -/
def Wraps (l : List Byte) : Prop :=
  ∃ b o rest, l = b :: (o ++ rest) ∧ 0x80 < b.toNat ∧ b ≠ 0xFF ∧ o.length = b.toNat - 0x80 ∧
    rest.length < beNat o ∧ PassesReduced o rest.length ∧ beNat o % 2 ^ 32 < 2 ^ 31

/-! ## The loop modulo the width -/

section

variable {w : ℕ} (hw : 32 ≤ w)
include hw

theorem toNat_shift_or_mod {ret : BitVec w} {b : Byte} {m : ℕ} (hm : ret.toNat = m % 2 ^ w) :
    (ret <<< 8 ||| b.setWidth w).toNat = (m * 256 + b.toNat) % 2 ^ w := by
  have hb := b.isLt
  have hs : (ret <<< 8).toNat = m % 2 ^ w % 2 ^ (w - 8) * 2 ^ 8 :=
    Word.toNat_shl_low 8 (w - 8) hm (by omega)
  have hb' : (b.setWidth w).toNat = b.toNat :=
    Word.toNat_setWidth rfl (hb.trans_le (Nat.pow_le_pow_right (by norm_num) (by omega)))
  have hpow : 2 ^ w = 2 ^ 8 * 2 ^ (w - 8) := by
    rw [← pow_add]
    congr 1
    omega
  rw [BitVec.or_comm, Word.toNat_or 8 hb' hs hb, hpow, Nat.mod_mul_left_mod, Nat.mod_mul,
    show (m * 256 + b.toNat) % 2 ^ 8 = b.toNat by omega,
    show (m * 256 + b.toNat) / 2 ^ 8 = m by omega, Nat.mul_comm (2 ^ 8)]

theorem toNat_ofNat_lt {m : ℕ} (hm : m < 2 ^ 32) : (BitVec.ofNat w m).toNat = m := by
  rw [BitVec.toNat_ofNat]
  exact Nat.mod_eq_of_lt (hm.trans_le (Nat.pow_le_pow_right (by norm_num) hw))

/-- The loop returns the value of all octets, reduced, unless one of the comparisons of the reduced
values stops it. -/
theorem readOctets_mod (k : ℕ) (ret : BitVec w) (m : ℕ) (l : List Byte)
    (hm : ret.toNat = m % 2 ^ w) (hl : l.length < 2 ^ 31) (hk : k ≤ l.length) :
    if ∀ i < k, (m * 256 ^ (i + 1) + beNat (l.take (i + 1)) + (k - i)) % 2 ^ w ≤ l.length - i then
      readOctets w k ret l =
        .ok ((BitVec.ofNat 32 (m * 256 ^ k + beNat (l.take k))).toInt, l.drop k)
    else ∃ rest, readOctets w k ret l = .ok (-1, rest) := by
  induction k generalizing ret m l with
  | zero =>
    have hret : ret.setWidth 32 = BitVec.ofNat 32 m := by
      apply BitVec.eq_of_toNat_eq
      rw [BitVec.toNat_setWidth, hm, BitVec.toNat_ofNat,
        Nat.mod_mod_of_dvd _ (Nat.pow_dvd_pow 2 hw)]
    simp [readOctets, hret]
  | succ k ih =>
    cases l with
    | nil => simp at hk
    | cons b t =>
      rw [List.length_cons] at hl hk
      have hret : (ret <<< 8 ||| b.setWidth w).toNat = (m * 256 + b.toNat) % 2 ^ w :=
        toNat_shift_or_mod hw hm
      have hstop : (ret <<< 8 ||| b.setWidth w) + BitVec.ofNat w (k + 1) >
          BitVec.ofNat w (t.length + 1) ↔
          ¬ (m * 256 + b.toNat + (k + 1)) % 2 ^ w ≤ t.length + 1 := by
        rw [gt_iff_lt, BitVec.lt_def, toNat_ofNat_lt hw (by omega), BitVec.toNat_add, hret,
          toNat_ofNat_lt hw (by omega), Nat.mod_add_mod, Nat.not_le]
      -- the prefixes of the octets after the first, with the first in the accumulator
      have hstep : ∀ i, i ≤ t.length → m * 256 ^ (i + 1) + beNat ((b :: t).take (i + 1)) =
          (m * 256 + b.toNat) * 256 ^ i + beNat (t.take i) := fun i hi => by
        rw [List.take_succ_cons, beNat_cons, List.length_take, Nat.min_eq_left hi]
        ring
      have hcond : (∀ i < k + 1, (m * 256 ^ (i + 1) + beNat ((b :: t).take (i + 1)) +
            (k + 1 - i)) % 2 ^ w ≤ (b :: t).length - i) ↔
          (m * 256 + b.toNat + (k + 1)) % 2 ^ w ≤ t.length + 1 ∧
            ∀ i < k, ((m * 256 + b.toNat) * 256 ^ (i + 1) + beNat (t.take (i + 1)) + (k - i)) %
              2 ^ w ≤ t.length - i := by
        rw [Nat.forall_lt_succ_left]
        refine and_congr ?_ (forall₂_congr fun i hi => ?_)
        · rw [hstep 0 (by omega)]
          simp
        · rw [hstep (i + 1) (by omega), List.length_cons, Nat.add_sub_add_right,
            Nat.add_sub_add_right]
      rw [if_congr hcond rfl rfl, readOctets_cons, hstep k (by omega), List.drop_succ_cons]
      by_cases hpass : (m * 256 + b.toNat + (k + 1)) % 2 ^ w ≤ t.length + 1
      · have hgo := mt hstop.mp (not_not_intro hpass)
        rw [if_neg hgo]
        simpa only [hpass, true_and] using ih _ _ t hret (by omega) (by omega)
      · rw [if_neg (fun h => hpass h.1), if_pos (hstop.mpr hpass)]
        exact ⟨_, rfl⟩

end

/-! ## When the value is the full one -/

theorem count_of_tag (b : Byte) (hb : 0x80 < b.toNat) : (b &&& 0x7F).toNat = b.toNat - 0x80 := by
  revert b
  decide

theorem derReadLen_count {w : ℕ} {b : Byte} (hb : 0x80 < b.toNat) (hff : b ≠ 0xFF)
    (t : List Byte) : derReadLen w (b :: t) =
      if b.toNat - 0x80 > t.length then .ok (-1, t) else readOctets w (b.toNat - 0x80) 0 t := by
  have h80 : b ≠ 0x80 := by
    rintro rfl
    exact absurd hb (by decide)
  rw [derReadLen_long (by omega) hff h80, count_of_tag b hb]

theorem readsExactly_wide {w : ℕ} (hw : 40 ≤ w) {l : List Byte} (hl : l.length < 2 ^ 31) :
    ReadsExactly w l := by
  rintro b t v rest rfl hb hff hread hv
  rw [List.length_cons] at hl
  rw [derReadLen_count hb hff] at hread
  generalize b.toNat - 0x80 = k at hread ⊢
  by_cases hk : k > t.length
  · rw [if_pos hk, Except.ok.injEq, Prod.mk.injEq] at hread
    omega
  · rw [if_neg hk] at hread
    have hspec := readOctets_spec hw k 0 t (by omega) (by rw [Word.toNat_zero]; omega)
    rw [Word.toNat_zero, zero_mul, zero_add] at hspec
    split at hspec
    · rw [hspec, Except.ok.injEq, Prod.mk.injEq] at hread
      obtain ⟨rfl, rfl⟩ := hread
      refine ⟨rfl, by omega, rfl, ?_⟩
      rw [List.length_drop]
      omega
    · obtain ⟨rest', hneg⟩ := hspec
      rw [hneg, Except.ok.injEq, Prod.mk.injEq] at hread
      omega

/-- A number below `2 ^ 31` is the `int` of its low 32 bits; no other remainder is an `int` that is
not negative. -/
theorem toInt_ofNat_nonneg (m : ℕ) :
    0 ≤ (BitVec.ofNat 32 m).toInt ↔ m % 2 ^ 32 < 2 ^ 31 := by
  rw [BitVec.toInt_eq_toNat_cond, BitVec.toNat_ofNat]
  split <;> omega

theorem toInt_ofNat_of_lt {m : ℕ} (h : m % 2 ^ 32 < 2 ^ 31) :
    (BitVec.ofNat 32 m).toInt = (m % 2 ^ 32 : ℕ) := by
  rw [BitVec.toInt_eq_toNat_cond, BitVec.toNat_ofNat, if_pos (by omega)]

theorem derReadLen_narrow {b : Byte} {o rest : List Byte} (hb : 0x80 < b.toNat) (hff : b ≠ 0xFF)
    (ho : o.length = b.toNat - 0x80) (hl : (o ++ rest).length < 2 ^ 31) :
    if PassesReduced o rest.length then
      derReadLen 32 (b :: (o ++ rest)) = .ok ((BitVec.ofNat 32 (beNat o)).toInt, rest)
    else ∃ rest', derReadLen 32 (b :: (o ++ rest)) = .ok (-1, rest') := by
  have hle : o.length ≤ (o ++ rest).length := by rw [List.length_append]; omega
  have hspec := readOctets_mod (w := 32) le_rfl o.length 0 0 (o ++ rest) rfl hl hle
  have hpass : (∀ i < o.length, (0 * 256 ^ (i + 1) + beNat ((o ++ rest).take (i + 1)) +
      (o.length - i)) % 2 ^ 32 ≤ (o ++ rest).length - i) ↔ PassesReduced o rest.length := by
    refine forall₂_congr fun i hi => ?_
    rw [zero_mul, zero_add, List.take_append_of_le_length (by omega), List.length_append,
      show o.length + rest.length - i = rest.length + (o.length - i) by omega]
  rw [if_congr hpass rfl rfl, zero_mul, zero_add, List.take_left, List.drop_left] at hspec
  have hfits : ¬ o.length > (o ++ rest).length := by omega
  rw [derReadLen_count hb hff, ← ho, if_neg hfits]
  exact hspec

/-- In 32 bits the value is the full one unless the input is one on which the accumulator wraps
unnoticed. -/
theorem readsExactly_narrow {l : List Byte} (hl : l.length < 2 ^ 31) :
    ReadsExactly 32 l ↔ ¬ Wraps l := by
  constructor
  · rintro hexact ⟨b, o, rest, rfl, hb, hff, ho, hmore, hpass, hint⟩
    rw [List.length_cons] at hl
    have hread := derReadLen_narrow hb hff ho (Nat.lt_of_succ_lt hl)
    rw [if_pos hpass] at hread
    obtain ⟨hv, -, -, hle⟩ := hexact b _ _ rest rfl hb hff hread ((toInt_ofNat_nonneg _).mpr hint)
    rw [← ho, List.take_left] at hv
    omega
  · rintro hwrap b t v rest rfl hb hff hread hv
    rw [List.length_cons] at hl
    by_cases hk : b.toNat - 0x80 > t.length
    · rw [derReadLen_count hb hff, if_pos hk, Except.ok.injEq, Prod.mk.injEq] at hread
      omega
    · obtain ⟨o, r, rfl, ho⟩ : ∃ o r, t = o ++ r ∧ o.length = b.toNat - 0x80 :=
        ⟨t.take (b.toNat - 0x80), t.drop (b.toNat - 0x80), (List.take_append_drop _ t).symm, by
          rw [List.length_take]; omega⟩
      have hspec := derReadLen_narrow hb hff ho (Nat.lt_of_succ_lt hl)
      rw [← ho, List.take_left, List.drop_left]
      split at hspec
      · rename_i hpass
        rw [hspec, Except.ok.injEq, Prod.mk.injEq] at hread
        obtain ⟨rfl, rfl⟩ := hread
        have hint := (toInt_ofNat_nonneg _).mp hv
        have hle : beNat o ≤ r.length := by
          by_contra hmore
          exact hwrap ⟨b, o, r, rfl, hb, hff, ho, by omega, hpass, hint⟩
        rw [List.length_append] at hl
        rw [toInt_ofNat_of_lt hint, Nat.mod_eq_of_lt (by omega), List.length_append]
        exact ⟨rfl, by omega, rfl, by omega⟩
      · obtain ⟨rest', hneg⟩ := hspec
        rw [hneg, Except.ok.injEq, Prod.mk.injEq] at hread
        omega

/-- Lengths are read exactly in 64 bits, and in 32 bits on the inputs that do not wrap. -/
theorem derReadLen_exact_iff (w : ℕ) (hw : w = 32 ∨ w = 64) (l : List Byte)
    (hl : l.length ≤ 2 ^ 31 - 1) : ReadsExactly w l ↔ w = 64 ∨ ¬ Wraps l := by
  rcases hw with rfl | rfl
  · rw [readsExactly_narrow (by omega)]
    exact ⟨.inr, fun h => h.resolve_left (by norm_num)⟩
  · exact iff_of_true (readsExactly_wide (by norm_num) (by omega)) (.inl rfl)

/-- The length 1 in two octets, before one byte. -/
theorem derReadLen_exact_iff_demo : ReadsExactly 32 [0x82, 0x00, 0x01, 0x2A] := by
  refine (derReadLen_exact_iff 32 (.inl rfl) _ (by norm_num)).mpr (.inr ?_)
  rintro ⟨b, o, rest, hl, -, -, ho, hmore, -⟩
  obtain ⟨rfl, htail⟩ := List.cons.inj hl
  obtain ⟨rfl, rfl⟩ := List.append_inj (show [0x00, 0x01] ++ [0x2A] = o ++ rest from htail) ho.symm
  exact absurd hmore (by decide)

/-- The octets `01 00 00 00 00`, of value `2 ^ 32`, pass as 0 before `2 ^ 24` bytes or more. -/
theorem passesReduced_two_pow_32 {r : ℕ} (hr : 2 ^ 24 ≤ r) :
    PassesReduced [0x01, 0x00, 0x00, 0x00, 0x00] r := by
  intro i hi
  rw [List.length_cons, List.length_cons, List.length_cons, List.length_cons, List.length_cons,
    List.length_nil] at hi ⊢
  interval_cases i <;> simp [beNat] <;> omega

theorem derReadLen_wraps {z : List Byte} (hlen : z.length = 2 ^ 24) :
    derReadLen 32 (0x85 :: ([0x01, 0x00, 0x00, 0x00, 0x00] ++ z)) = .ok (0, z) ∧
      ¬ ReadsExactly 32 (0x85 :: ([0x01, 0x00, 0x00, 0x00, 0x00] ++ z)) := by
  have hpass := passesReduced_two_pow_32 hlen.ge
  have hall : (0x85 :: ([0x01, 0x00, 0x00, 0x00, 0x00] ++ z)).length = 2 ^ 24 + 6 := by
    simp only [List.length_append, List.length_cons, List.length_nil, hlen]
    omega
  have hfits : ([0x01, 0x00, 0x00, 0x00, 0x00] ++ z).length < 2 ^ 31 := by
    rw [List.length_cons] at hall
    omega
  have hread := derReadLen_narrow (b := 0x85) (o := [0x01, 0x00, 0x00, 0x00, 0x00]) (by decide)
    (by decide) rfl hfits
  rw [if_pos hpass] at hread
  refine ⟨hread, ?_⟩
  rw [readsExactly_narrow (by omega), not_not]
  refine ⟨0x85, _, z, rfl, by decide, by decide, rfl, ?_, hpass, by decide⟩
  rw [hlen]
  decide

def wrappingInput : List Byte :=
  0x85 :: ([0x01, 0x00, 0x00, 0x00, 0x00] ++ List.replicate (2 ^ 24) 0)

theorem derReadLen_not_exact : wrappingInput.length ≤ 2 ^ 31 - 1 ∧
    derReadLen 32 wrappingInput = .ok (0, List.replicate (2 ^ 24) 0) ∧
    beNat [0x01, 0x00, 0x00, 0x00, 0x00] = 2 ^ 32 ∧ ¬ ReadsExactly 32 wrappingInput := by
  obtain ⟨hread, hnot⟩ := derReadLen_wraps (z := List.replicate (2 ^ 24) 0) List.length_replicate
  refine ⟨?_, hread, by decide, hnot⟩
  rw [wrappingInput, List.length_cons, List.length_append, List.length_replicate]
  norm_num

end Secp256k1.Der
