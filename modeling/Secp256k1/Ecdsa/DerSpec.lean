import Secp256k1.Ecdsa.Der

/-!
# The language the parser accepts

The encodings of lengths, integers and pairs of integers as predicates on byte strings. The parser
accepts exactly these strings, in any definite form of the lengths.
-/

namespace Secp256k1.Der

open Bytes

/-! ## The grammar -/

/-- A definite length: one octet below 128, or a count of octets and their big-endian value. -/
inductive LenEnc : ℕ → List Byte → Prop where
  | short (b : Byte) (h : b.toNat < 128) : LenEnc b.toNat [b]
  | long (o : List Byte) (h0 : 1 ≤ o.length) (h1 : o.length ≤ 126) :
    LenEnc (beNat o) ((0x80 ||| BitVec.ofNat 8 o.length) :: o)

/-- No redundant leading octet `00` or `FF`. -/
def Minimal : List Byte → Prop
  | a :: b :: _ => ¬ (a = 0x00 ∧ b.toNat < 128) ∧ ¬ (a = 0xFF ∧ 128 ≤ b.toNat)
  | _ => True

/-- The integer with the content octets `c`. -/
def IntEnc (c l : List Byte) : Prop :=
  ∃ len, LenEnc c.length len ∧ c ≠ [] ∧ Minimal c ∧ l = 0x02 :: (len ++ c)

/-- The sequence of two integers with the content octets `cr` and `cs`. -/
def SigEnc (cr cs x : List Byte) : Prop :=
  ∃ len i j, IntEnc cr i ∧ IntEnc cs j ∧ LenEnc (i.length + j.length) len ∧
    x = 0x30 :: (len ++ (i ++ j))

/-- The integer that content octets denote, in two's complement. -/
def integer (c : List Byte) : ℤ :=
  if 128 ≤ (c.headD 0).toNat then beNat c - 256 ^ c.length else beNat c

/-- What the parser makes of an integer: the number if it is a scalar, else 0. -/
def scalarOf (v : ℤ) : ℕ := if 0 ≤ v ∧ v < n then v.toNat else 0

/-! ## Reading bytes -/

@[simp] theorem ok_bind {α β : Type} (a : α) (f : α → Read β) : (Except.ok a >>= f) = f a := rfl

theorem of_bind_eq_ok {α β : Type} {x : Read α} {f : α → Read β} {b : β}
    (h : (x >>= f) = .ok b) : ∃ a, x = .ok a ∧ f a = .ok b := by
  cases x with
  | error e => cases h
  | ok a => exact ⟨a, rfl, h⟩

@[simp] theorem peek_cons_zero (b : Byte) (l : List Byte) : peek (b :: l) 0 = .ok b := rfl

@[simp] theorem peek_cons_succ (b : Byte) (l : List Byte) (i : ℕ) :
    peek (b :: l) (i + 1) = peek l i := rfl

theorem and_0x80_eq_zero (b : Byte) : b &&& 0x80 = 0 ↔ b.toNat < 128 := by
  revert b
  decide

theorem and_0x80_eq (b : Byte) : b &&& 0x80 = 0x80 ↔ 128 ≤ b.toNat := by
  revert b
  decide

theorem long_tag {k : ℕ} (h : k ≤ 126) (h0 : 1 ≤ k) :
    let b : Byte := 0x80 ||| BitVec.ofNat 8 k
    b ≠ 0xFF ∧ b &&& 0x80 ≠ 0 ∧ b ≠ 0x80 ∧ (b &&& 0x7F).toNat = k ∧ b.toNat - 0x80 = k := by
  revert k
  decide

theorem tag_long (b : Byte) (h : 128 ≤ b.toNat) (hff : b ≠ 0xFF) (h80 : b ≠ 0x80) :
    1 ≤ (b &&& 0x7F).toNat ∧ (b &&& 0x7F).toNat ≤ 126 ∧
      b = 0x80 ||| BitVec.ofNat 8 (b &&& 0x7F).toNat := by
  revert b
  decide

/-! ## Lengths -/

section

variable {w : ℕ} (hw : 40 ≤ w)

theorem toInt_setWidth {x : BitVec w} (h : x.toNat < 2 ^ 31) :
    (x.setWidth 32).toInt = x.toNat := by
  have hx : (x.setWidth 32).toNat = x.toNat := Word.toNat_setWidth rfl (by omega)
  rw [BitVec.toInt_eq_toNat_of_lt (by omega), hx]

include hw

theorem toNat_shift_or {ret : BitVec w} {b : Byte} (h : ret.toNat < 2 ^ 31) :
    (ret <<< 8 ||| b.setWidth w).toNat = ret.toNat * 256 + b.toNat := by
  have hb := b.isLt
  have hpow : 2 ^ 40 ≤ 2 ^ w := Nat.pow_le_pow_right (by omega) hw
  have hs : (ret <<< 8).toNat = ret.toNat * 2 ^ 8 := Word.toNat_shl 8 rfl (by omega)
  have hb' : (b.setWidth w).toNat = b.toNat := Word.toNat_setWidth rfl (by omega)
  rw [BitVec.or_comm, Word.toNat_or 8 hb' hs hb]
  omega

omit hw in
theorem readOctets_cons (k : ℕ) (ret : BitVec w) (b : Byte) (t : List Byte) :
    readOctets w (k + 1) ret (b :: t) =
      if (ret <<< 8 ||| b.setWidth w) + BitVec.ofNat w (k + 1) > BitVec.ofNat w (t.length + 1) then
        .ok (-1, b :: t)
      else readOctets w k (ret <<< 8 ||| b.setWidth w) t := rfl

/-- The loop returns the value of all octets if that many bytes follow them, and -1 otherwise. -/
theorem readOctets_spec (k : ℕ) (ret : BitVec w) (l : List Byte) (hl : l.length < 2 ^ 31)
    (hk : ret.toNat + k ≤ l.length) :
    if ret.toNat * 256 ^ k + beNat (l.take k) + k ≤ l.length then
      readOctets w k ret l =
        .ok ((ret.toNat * 256 ^ k + beNat (l.take k) : ℕ), l.drop k)
    else ∃ rest, readOctets w k ret l = .ok (-1, rest) := by
  induction k generalizing ret l with
  | zero =>
    rw [if_pos (by simpa using hk)]
    simp only [readOctets, pow_zero, mul_one, List.take_zero, beNat_nil, add_zero, List.drop_zero]
    rw [toInt_setWidth (by omega)]
  | succ k ih =>
    cases l with
    | nil => simp at hk
    | cons b t =>
      simp only [List.length_cons] at hl hk
      have hpow : 2 ^ 40 ≤ 2 ^ w := Nat.pow_le_pow_right (by omega) hw
      have hb := b.isLt
      have hret : (ret <<< 8 ||| b.setWidth w).toNat = ret.toNat * 256 + b.toNat :=
        toNat_shift_or hw (by omega)
      have hofNat (m : ℕ) (hm : m < 2 ^ 32) : (BitVec.ofNat w m).toNat = m := by
        rw [BitVec.toNat_ofNat, Nat.mod_eq_of_lt (by omega)]
      have hcmp : (ret <<< 8 ||| b.setWidth w) + BitVec.ofNat w (k + 1) >
          BitVec.ofNat w (t.length + 1) ↔ t.length < ret.toNat * 256 + b.toNat + k := by
        rw [gt_iff_lt, BitVec.lt_def, hofNat _ (by omega),
          Word.toNat_add hret (hofNat _ (by omega)) (by omega)]
        omega
      have hv : ret.toNat * 256 ^ (k + 1) + beNat ((b :: t).take (k + 1)) =
          (ret.toNat * 256 + b.toNat) * 256 ^ k + beNat (t.take k) := by
        rw [List.take_succ_cons, beNat_cons, List.length_take, Nat.min_eq_left (by omega)]
        ring
      rw [hv, readOctets_cons, List.length_cons, if_congr hcmp rfl rfl, List.drop_succ_cons]
      have hge : ret.toNat * 256 + b.toNat ≤ (ret.toNat * 256 + b.toNat) * 256 ^ k :=
        Nat.le_mul_of_pos_right _ (by positivity)
      by_cases hlt : t.length < ret.toNat * 256 + b.toNat + k
      · rw [if_pos hlt, if_neg (by omega)]
        exact ⟨_, rfl⟩
      · rw [if_neg hlt]
        have := ih (ret <<< 8 ||| b.setWidth w) t (by omega) (by omega)
        rw [hret] at this
        have hiff : (ret.toNat * 256 + b.toNat) * 256 ^ k + beNat (t.take k) + (k + 1) ≤
            t.length + 1 ↔
            (ret.toNat * 256 + b.toNat) * 256 ^ k + beNat (t.take k) + k ≤ t.length := by
          omega
        simpa only [hiff] using this

omit hw in
theorem derReadLen_short {b : Byte} (h : b.toNat < 128) (l : List Byte) :
    derReadLen w (b :: l) = .ok (b.toNat, l) := by
  have hff : b ≠ 0xFF := by rintro rfl; exact absurd h (by decide)
  change (if b = 0xFF then _ else if b &&& 0x80 = 0 then _ else _) = _
  rw [if_neg hff, if_pos ((and_0x80_eq_zero b).mpr h)]
  rfl

omit hw in
theorem derReadLen_long {b : Byte} (h : 128 ≤ b.toNat) (hff : b ≠ 0xFF) (h80 : b ≠ 0x80)
    (l : List Byte) : derReadLen w (b :: l) =
      if (b &&& 0x7F).toNat > l.length then .ok (-1, l)
      else readOctets w (b &&& 0x7F).toNat 0 l := by
  have hand : b &&& 0x80 ≠ 0 := by rw [Ne, and_0x80_eq_zero]; omega
  change (if b = 0xFF then _ else if b &&& 0x80 = 0 then _ else if b = 0x80 then _ else _) = _
  rw [if_neg hff, if_neg hand, if_neg h80]
  rfl

/-- Every encoding of a length is read, if that many bytes follow it. -/
theorem derReadLen_complete {v : ℕ} {len : List Byte} (h : LenEnc v len) (l : List Byte)
    (hlt : (len ++ l).length < 2 ^ 31) (hv : v ≤ l.length) :
    derReadLen w (len ++ l) = .ok (v, l) := by
  cases h with
  | short b hb => exact derReadLen_short hb l
  | long o h0 h1 =>
    rw [List.cons_append] at hlt ⊢
    rw [List.length_cons, List.length_append] at hlt
    obtain ⟨hff, hand, h80, hcount, -⟩ := long_tag h1 h0
    have hge : 128 ≤ (0x80 ||| BitVec.ofNat 8 o.length : Byte).toNat := by
      rw [Ne, and_0x80_eq_zero] at hand
      omega
    have hspec := readOctets_spec hw o.length 0 (o ++ l) (by rw [List.length_append]; omega)
      (by rw [Word.toNat_zero, List.length_append]; omega)
    rw [Word.toNat_zero, zero_mul, zero_add, List.take_left, List.length_append,
      if_pos (by omega), List.drop_left] at hspec
    rw [derReadLen_long hge hff h80, hcount, if_neg (by rw [List.length_append]; omega), hspec]

/-- The reader returns -1, or the value of an encoding and the bytes after it. -/
theorem derReadLen_cases (l : List Byte) (hlt : l.length < 2 ^ 31) :
    (∃ rest, derReadLen w l = .ok (-1, rest)) ∨
      ∃ v len rest, LenEnc v len ∧ l = len ++ rest ∧ derReadLen w l = .ok ((v : ℤ), rest) := by
  cases l with
  | nil => exact .inl ⟨[], rfl⟩
  | cons b t =>
    rw [List.length_cons] at hlt
    rcases Nat.lt_or_ge b.toNat 128 with hb | hb
    · exact .inr ⟨b.toNat, [b], t, .short b hb, rfl, derReadLen_short hb t⟩
    · by_cases hff : b = 0xFF
      · exact .inl ⟨t, by subst hff; rfl⟩
      · by_cases h80 : b = 0x80
        · exact .inl ⟨t, by subst h80; rfl⟩
        · obtain ⟨h0, h1, htag⟩ := tag_long b hb hff h80
          rw [derReadLen_long hb hff h80]
          generalize (b &&& 0x7F).toNat = k at h0 h1 htag ⊢
          by_cases hk : k > t.length
          · exact .inl ⟨t, by rw [if_pos hk]⟩
          · rw [if_neg hk]
            have hspec := readOctets_spec hw k 0 t (by omega) (by rw [Word.toNat_zero]; omega)
            have hlen : (t.take k).length = k := by rw [List.length_take]; omega
            split at hspec
            · rw [Word.toNat_zero, zero_mul, zero_add] at hspec
              refine .inr ⟨_, b :: t.take k, t.drop k, ?_, ?_, hspec⟩
              · have := LenEnc.long (t.take k) (by omega) (by omega)
                rwa [hlen, ← htag] at this
              · rw [List.cons_append, List.take_append_drop]
            · exact .inl hspec

end

/-! ## Integers -/

theorem skipZeros_spec (c rest : List Byte) :
    skipZeros c.length (c ++ rest) =
      .ok ((c.dropWhile (· = 0)).length, c.dropWhile (· = 0) ++ rest) := by
  induction c with
  | nil => rfl
  | cons b c ih =>
    change (if b = 0 then skipZeros c.length (c ++ rest) else _) = _
    by_cases hb : b = 0
    · rw [if_pos hb, ih, List.dropWhile_cons_of_pos (by simpa using hb)]
    · rw [if_neg hb, List.dropWhile_cons_of_neg (by simpa using hb)]
      rfl

theorem beNat_dropWhile (c : List Byte) : beNat (c.dropWhile (· = 0)) = beNat c := by
  induction c with
  | nil => rfl
  | cons b c ih =>
    by_cases hb : b = 0
    · rw [List.dropWhile_cons_of_pos (by simpa using hb), ih, beNat_cons, hb, Word.toNat_zero,
        zero_mul, zero_add]
    · rw [List.dropWhile_cons_of_neg (by simpa using hb)]

/-- The bytes left after the leading zeroes bound the value from below. -/
theorem pow_le_beNat {c : List Byte} {k : ℕ} (h : k < (c.dropWhile (· = 0)).length) :
    256 ^ k ≤ beNat c := by
  rw [← beNat_dropWhile]
  have hhead := List.head?_dropWhile_not (fun b : Byte => decide (b = 0)) c
  cases hz : c.dropWhile (· = 0) with
  | nil => rw [hz] at h; exact absurd h (Nat.not_lt_zero k)
  | cons b t =>
    rw [hz] at h hhead
    have hb : b ≠ 0 := by simpa using hhead
    have hb1 : 1 ≤ b.toNat := by
      rw [Nat.one_le_iff_ne_zero]
      exact fun h0 => hb (BitVec.eq_of_toNat_eq h0)
    rw [List.length_cons] at h
    calc 256 ^ k ≤ 256 ^ t.length := Nat.pow_le_pow_right (by omega) (by omega)
      _ = 1 * 256 ^ t.length := (Nat.one_mul _).symm
      _ ≤ b.toNat * 256 ^ t.length := Nat.mul_le_mul_right _ hb1
      _ ≤ beNat (b :: t) := by rw [beNat_cons]; exact Nat.le_add_right _ _

theorem beNat_replicate_zero (k : ℕ) : beNat (List.replicate k 0) = 0 := by
  induction k with
  | zero => rfl
  | succ k ih => rw [List.replicate_succ, beNat_cons, ih, Word.toNat_zero, zero_mul]

theorem be_pad32 {c : List Byte} (h : c.length ≤ 32) : be (pad32 c) = beNat c := by
  have hlen : (List.replicate (32 - c.length) (0 : Byte) ++ c).length = 32 := by
    rw [List.length_append, List.length_replicate]
    omega
  have hof : List.ofFn (pad32 c) = List.replicate (32 - c.length) 0 ++ c := by
    apply List.ext_getElem
    · rw [List.length_ofFn, hlen]
    · intro i h1 h2
      rw [List.getElem_ofFn, pad32, List.getD_eq_getElem _ _ h2]
  rw [be, hof, beNat_append, beNat_replicate_zero, zero_mul, zero_add]

theorem integerScalar_spec {S : Type} {O : ScalarOps S} {val : S → ℕ} (hO : O.Sound val)
    (c rest : List Byte) :
    ∃ r, integerScalar O (c.headD 0 &&& 0x80 = 0x80) (c.dropWhile (· = 0)).length
        (c.dropWhile (· = 0) ++ rest) = .ok r ∧ val r = scalarOf (integer c) := by
  have h0 : val (O.setInt 0) = 0 := hO.setInt 0
  have hlt := beNat_lt c
  rw [integerScalar]
  by_cases hneg : 128 ≤ (c.headD 0).toNat
  · rw [decide_eq_true ((and_0x80_eq _).mpr hneg), Bool.true_or, if_pos rfl]
    refine ⟨_, rfl, ?_⟩
    rw [h0, integer, if_pos hneg, scalarOf, if_neg]
    zify at hlt
    omega
  · rw [decide_eq_false (mt (and_0x80_eq _).mp hneg), Bool.false_or, integer, if_neg hneg]
    by_cases hlen : 32 < (c.dropWhile (· = 0)).length
    · rw [if_pos (decide_eq_true hlen)]
      refine ⟨_, rfl, ?_⟩
      have hbig := pow_le_beNat hlen
      have hn : n < 256 ^ 32 := n_lt.trans_eq (by norm_num)
      rw [h0, scalarOf, if_neg (by omega)]
    · rw [if_neg (by simpa using hlen)]
      have hread : readBytes (c.dropWhile (· = 0) ++ rest) (c.dropWhile (· = 0)).length =
          .ok (c.dropWhile (· = 0)) := by
        rw [readBytes, if_pos (by rw [List.length_append]; omega), List.take_left]
      have hbe : Bytes.be (pad32 (c.dropWhile (· = 0))) = beNat c := by
        rw [be_pad32 (by omega), beNat_dropWhile]
      refine ⟨_, by rw [hread]; rfl, ?_⟩
      rw [scalarOf]
      by_cases hn : beNat c < n
      · have hfit := hbe.trans_lt hn
        rw [if_neg (not_not.mpr (hO.setB32_fits.mpr hfit)), hO.val_setB32 hfit, hbe,
          if_pos (by omega), Int.toNat_natCast]
      · rw [if_pos (mt hO.setB32_fits.mp (hbe.symm ▸ hn)), h0, if_neg (by omega)]

theorem padded_spec (a : Byte) (t rest : List Byte) (pad top : Byte) :
    padded (a :: t ++ rest) ((a :: t).length : ℕ) pad top =
      .ok (decide (a = pad ∧ ∃ b ∈ t.head?, b &&& 0x80 = top)) := by
  rw [padded, List.cons_append, peek_cons_zero]
  change (if a = pad ∧ ((t.length + 1 : ℕ) : ℤ) > 1 then _ else _) = _
  cases t with
  | nil =>
    rw [if_neg (by simp), decide_eq_false (by simp)]
    rfl
  | cons b t =>
    by_cases ha : a = pad
    · rw [if_pos ⟨ha, by rw [List.length_cons]; push_cast; omega⟩]
      simp [ha, peek]
    · rw [if_neg (fun h => ha h.1), decide_eq_false (fun h => ha h.1)]
      rfl

theorem minimal_iff (a : Byte) (t : List Byte) : Minimal (a :: t) ↔
    ¬ (a = 0x00 ∧ ∃ b ∈ t.head?, b &&& 0x80 = 0x00) ∧
      ¬ (a = 0xFF ∧ ∃ b ∈ t.head?, b &&& 0x80 = 0x80) := by
  cases t with
  | nil => simp [Minimal]
  | cons b t =>
    have h0 := and_0x80_eq_zero b
    have h8 := and_0x80_eq b
    simp only [Minimal, List.head?_cons, Option.mem_some_iff, exists_eq_left', h0, h8]

section

variable {S : Type} {O : ScalarOps S} {val : S → ℕ} (hO : O.Sound val) {w : ℕ} (hw : 40 ≤ w)

include hO

/-- Content octets without padding give their integer, others are refused. -/
theorem derContent_spec {c : List Byte} (hc : c ≠ []) (rest : List Byte) :
    (Minimal c → ∃ r, derContent O c.length (c ++ rest) = .ok (some (r, rest)) ∧
        val r = scalarOf (integer c)) ∧
      (¬ Minimal c → derContent O c.length (c ++ rest) = .ok none) := by
  obtain ⟨a, t, rfl⟩ := List.exists_cons_of_ne_nil hc
  obtain ⟨r, hr, hval⟩ := integerScalar_spec hO (a :: t) rest
  rw [minimal_iff, derContent, padded_spec, padded_spec]
  simp only [ok_bind]
  constructor
  · rintro ⟨h0, h1⟩
    refine ⟨r, ?_, hval⟩
    rw [decide_eq_false h0, decide_eq_false h1, if_neg Bool.false_ne_true,
      if_neg Bool.false_ne_true, Int.toNat_natCast, skipZeros_spec, List.cons_append]
    simp only [peek_cons_zero, ok_bind]
    rw [List.headD_cons] at hr
    rw [hr, ok_bind, List.drop_left]
    rfl
  · intro h
    by_cases h0 : a = 0x00 ∧ ∃ b ∈ t.head?, b &&& 0x80 = 0x00
    · rw [decide_eq_true h0, if_pos rfl]
    · rw [decide_eq_false h0, if_neg Bool.false_ne_true,
        decide_eq_true (Classical.not_not.mp fun h1 => h ⟨h0, h1⟩), if_pos rfl]

omit hO in
theorem derParseInteger_cons (tag : Byte) (l : List Byte) :
    derParseInteger O w (tag :: l) = if tag ≠ 0x02 then .ok none else derReadLen w l >>= fun q =>
      if q.1 ≤ 0 ∨ q.1 > q.2.length then .ok none else derContent O q.1 q.2 := rfl

theorem derParseInteger_of_read {c e : List Byte} (hc : c ≠ []) (hmin : Minimal c)
    (rest : List Byte) (hread : derReadLen w (e ++ (c ++ rest)) = .ok (c.length, c ++ rest)) :
    ∃ r, derParseInteger O w (0x02 :: (e ++ (c ++ rest))) = .ok (some (r, rest)) ∧
      val r = scalarOf (integer c) := by
  obtain ⟨r, hr, hval⟩ := (derContent_spec hO hc rest).1 hmin
  refine ⟨r, ?_, hval⟩
  have hpos : 0 < c.length := List.length_pos_of_ne_nil hc
  rw [derParseInteger_cons, if_neg (not_not.mpr rfl), hread, ok_bind,
    if_neg (by rw [List.length_append]; push_cast; omega), hr]

/-- Every encoding of an integer is parsed. -/
theorem derParseInteger_complete (hw : 40 ≤ w) {c i : List Byte} (h : IntEnc c i)
    (rest : List Byte) (hlt : (i ++ rest).length < 2 ^ 31) :
    ∃ r, derParseInteger O w (i ++ rest) = .ok (some (r, rest)) ∧
      val r = scalarOf (integer c) := by
  obtain ⟨len, hlen, hc, hmin, rfl⟩ := h
  simp only [List.cons_append, List.append_assoc, List.length_cons] at hlt ⊢
  exact derParseInteger_of_read hO hc hmin rest (derReadLen_complete hw hlen (c ++ rest)
    (by omega) (by rw [List.length_append]; omega))

/-- The integer parser never reads past the end, and accepts only encodings of integers. -/
theorem derParseInteger_cases (hw : 40 ≤ w) (l : List Byte) (hlt : l.length < 2 ^ 31) :
    derParseInteger O w l = .ok none ∨
      ∃ c i rest r, IntEnc c i ∧ l = i ++ rest ∧
        derParseInteger O w l = .ok (some (r, rest)) := by
  cases l with
  | nil => exact .inl rfl
  | cons tag l =>
    rw [List.length_cons] at hlt
    rw [derParseInteger_cons]
    by_cases htag : tag = 0x02
    · rw [if_neg (not_not.mpr htag)]
      rcases derReadLen_cases hw l (by omega) with ⟨rest, hr⟩ | ⟨v, len, rest, hlen, rfl, hr⟩
      · exact .inl (by rw [hr]; rfl)
      · rw [hr, ok_bind]
        by_cases hbad : (v : ℤ) ≤ 0 ∨ (v : ℤ) > rest.length
        · exact .inl (if_pos hbad)
        · have hv : v ≤ rest.length := by omega
          have hclen : (rest.take v).length = v := by rw [List.length_take]; omega
          have hc : rest.take v ≠ [] := by
            intro h0
            rw [h0, List.length_nil] at hclen
            omega
          obtain ⟨hmin, hnot⟩ := derContent_spec hO hc (rest.drop v)
          rw [List.take_append_drop, hclen] at hmin hnot
          change (if (v : ℤ) ≤ 0 ∨ (v : ℤ) > rest.length then _ else _) = _ ∨ _
          by_cases hm : Minimal (rest.take v)
          · obtain ⟨r, hr', -⟩ := hmin hm
            refine .inr ⟨rest.take v, 0x02 :: (len ++ rest.take v), rest.drop v, r, ?_, ?_, ?_⟩
            · exact ⟨len, by rwa [hclen], hc, hm, rfl⟩
            · rw [htag, List.cons_append, List.append_assoc, List.take_append_drop]
            · exact (if_neg hbad).trans hr'
          · exact .inl ((if_neg hbad).trans (hnot hm))
    · exact .inl (if_pos htag)

/-! ## Signatures -/

omit hO in
theorem ecdsaSigParse_of_read {e i j : List Byte} {r s : S}
    (hread : derReadLen w (e ++ (i ++ j)) = .ok ((i.length + j.length : ℕ), i ++ j))
    (hr : derParseInteger O w (i ++ j) = .ok (some (r, j)))
    (hs : derParseInteger O w j = .ok (some (s, []))) :
    ecdsaSigParse O w (0x30 :: (e ++ (i ++ j))) = .ok (some (r, s)) := by
  rw [ecdsaSigParse, List.length_cons, if_neg (Nat.succ_ne_zero _), peek_cons_zero, ok_bind,
    if_neg (not_not.mpr rfl), List.drop_succ_cons, List.drop_zero, hread, ok_bind]
  simp only [List.length_append]
  rw [if_neg (by push_cast; omega), if_neg (by push_cast; omega), hr, ok_bind]
  simp only [hs, ok_bind]
  rfl

/-- Every encoding of a pair of integers is parsed. -/
theorem ecdsaSigParse_complete (hw : 40 ≤ w) {cr cs x : List Byte} (h : SigEnc cr cs x)
    (hlt : x.length < 2 ^ 31) :
    ∃ r s, ecdsaSigParse O w x = .ok (some (r, s)) ∧ val r = scalarOf (integer cr) ∧
      val s = scalarOf (integer cs) := by
  obtain ⟨len, i, j, hi, hj, hlen, rfl⟩ := h
  rw [List.length_cons, List.length_append, List.length_append] at hlt
  obtain ⟨r, hr, hvr⟩ := derParseInteger_complete hO hw hi j (by rw [List.length_append]; omega)
  obtain ⟨s, hs, hvs⟩ := derParseInteger_complete hO hw hj [] (by rw [List.append_nil]; omega)
  rw [List.append_nil] at hs
  refine ⟨r, s, ecdsaSigParse_of_read ?_ hr hs, hvr, hvs⟩
  exact derReadLen_complete hw hlen (i ++ j) (by rw [List.length_append, List.length_append]; omega)
    (by rw [List.length_append])

/-- The parser never reads past the end, and accepts only encodings of pairs of integers. -/
theorem ecdsaSigParse_cases (hw : 40 ≤ w) (x : List Byte) (hlt : x.length < 2 ^ 31) :
    ecdsaSigParse O w x = .ok none ∨
      ∃ cr cs r s, SigEnc cr cs x ∧ ecdsaSigParse O w x = .ok (some (r, s)) := by
  cases x with
  | nil => exact .inl rfl
  | cons tag l =>
    rw [List.length_cons] at hlt
    rw [ecdsaSigParse, List.length_cons, if_neg (Nat.succ_ne_zero _), peek_cons_zero, ok_bind,
      List.drop_succ_cons, List.drop_zero]
    by_cases htag : tag = 0x30
    · rw [if_neg (not_not.mpr htag)]
      rcases derReadLen_cases hw l (by omega) with ⟨rest, hr⟩ | ⟨v, len, rest, hlen, rfl, hr⟩
      · exact .inl (by rw [hr]; rfl)
      · rw [List.length_append] at hlt
        rw [hr, ok_bind]
        simp only []
        by_cases hbad : (v : ℤ) < 0 ∨ (v : ℤ) > rest.length
        · exact .inl (if_pos hbad)
        · rw [if_neg hbad]
          by_cases hne : (v : ℤ) ≠ rest.length
          · exact .inl (if_pos hne)
          · rw [if_neg hne]
            rcases derParseInteger_cases hO hw rest (by omega) with h1 | ⟨cr, i, r1, r, hi, rfl, h1⟩
            · exact .inl (by rw [h1]; rfl)
            · rw [List.length_append] at hlt hne
              rw [h1, ok_bind]
              simp only []
              rcases derParseInteger_cases hO hw r1 (by omega) with
                h2 | ⟨cs, j, r2, s, hj, rfl, h2⟩
              · exact .inl (by rw [h2]; rfl)
              · rw [h2, ok_bind]
                simp only []
                by_cases hend : r2.length = 0
                · rw [if_neg (not_not.mpr hend)]
                  refine .inr ⟨cr, cs, r, s, ⟨len, i, j, hi, hj, ?_, ?_⟩, rfl⟩
                  · rw [List.length_append, hend, add_zero] at hne
                    have : v = i.length + j.length := by omega
                    rwa [← this]
                  · rw [htag, List.length_eq_zero_iff.mp hend, List.append_nil]
                · exact .inl (if_pos hend)
    · exact .inl (if_pos htag)

end

/-- The language of the parser with 64-bit `size_t`, in either scalar backend: it never reads past
the end, accepts exactly the encodings of pairs of integers in any definite form of the lengths,
and returns for each integer the scalar it is, or 0 if it is none. -/
theorem ecdsaSigParse_language (c : ScalarBackend) (x : List Byte) (hx : x.length ≤ 2 ^ 31 - 1) :
    ∃ res, ecdsaSigParse c.ops 64 x = .ok res ∧
      (res.isSome ↔ ∃ cr cs, SigEnc cr cs x) ∧
      ∀ r s, res = some (r, s) → ∀ cr cs, SigEnc cr cs x →
        c.val r = scalarOf (integer cr) ∧ c.val s = scalarOf (integer cs) := by
  rcases ecdsaSigParse_cases c.sound (w := 64) (by decide) x (by omega) with
    hnone | ⟨cr, cs, r, s, henc, hsome⟩
  · refine ⟨none, hnone, ⟨fun h => absurd h Bool.false_ne_true, ?_⟩, fun _ _ h => nomatch h⟩
    rintro ⟨cr, cs, h⟩
    obtain ⟨r, s, hp, -⟩ := ecdsaSigParse_complete c.sound (w := 64) (by decide) h (by omega)
    rw [hnone] at hp
    exact nomatch hp
  · refine ⟨some (r, s), hsome, ⟨fun _ => ⟨cr, cs, henc⟩, fun _ => rfl⟩, ?_⟩
    rintro r' s' heq cr' cs' h
    obtain ⟨r1, s1, hp, hr, hs⟩ :=
      ecdsaSigParse_complete c.sound (w := 64) (by decide) h (by omega)
    rw [hsome, heq] at hp
    cases hp
    exact ⟨hr, hs⟩

/-- A length in long form with leading zero octets, before the integers 5 and 7. -/
theorem ecdsaSigParse_language_demo :
    ∃ r s, ecdsaSigParse ScalarBackend.limbs4x64.ops 64
        [0x30, 0x82, 0x00, 0x06, 0x02, 0x01, 0x05, 0x02, 0x01, 0x07] = .ok (some (r, s)) ∧
      ScalarBackend.limbs4x64.val r = 5 ∧ ScalarBackend.limbs4x64.val s = 7 := by
  obtain ⟨res, hres, hiff, hval⟩ := ecdsaSigParse_language .limbs4x64
    [0x30, 0x82, 0x00, 0x06, 0x02, 0x01, 0x05, 0x02, 0x01, 0x07] (by decide)
  have hint : ∀ b : Byte, IntEnc [b] [0x02, 0x01, b] := fun b =>
    ⟨[0x01], .short 0x01 (by decide), List.cons_ne_nil _ _, trivial, rfl⟩
  have henc : SigEnc [0x05] [0x07]
      [0x30, 0x82, 0x00, 0x06, 0x02, 0x01, 0x05, 0x02, 0x01, 0x07] :=
    ⟨[0x82, 0x00, 0x06], [0x02, 0x01, 0x05], [0x02, 0x01, 0x07], hint 0x05, hint 0x07,
      .long [0x00, 0x06] (by decide) (by decide), rfl⟩
  obtain ⟨⟨r, s⟩, rfl⟩ := Option.isSome_iff_exists.mp (hiff.mpr ⟨_, _, henc⟩)
  obtain ⟨hr, hs⟩ := hval r s rfl _ _ henc
  exact ⟨r, s, hres, hr.trans (by decide), hs.trans (by decide)⟩

end Secp256k1.Der
