import Mathlib

/-!
# Machine words as natural numbers

Evaluation rules for `BitVec w`: each rule takes the natural numbers its operands hold and gives
the natural number the result holds, with the side condition under which nothing wraps. A proof
about word arithmetic applies one rule for each operation of the code and is left with linear
arithmetic over `ℕ`.
-/

namespace Word

variable {w : ℕ} {x y : BitVec w} {a b : ℕ}

theorem lt_of_toNat (hx : x.toNat = a) : a < 2 ^ w := hx ▸ x.isLt

theorem toNat_add (hx : x.toNat = a) (hy : y.toNat = b) (h : a + b < 2 ^ w) :
    (x + y).toNat = a + b := by
  rw [BitVec.toNat_add, hx, hy, Nat.mod_eq_of_lt h]

theorem toNat_sub (hx : x.toNat = a) (hy : y.toNat = b) (h : b ≤ a) : (x - y).toNat = a - b := by
  have hle : y ≤ x := by rw [BitVec.le_def, hx, hy]; exact h
  rw [BitVec.toNat_sub_of_le hle, hx, hy]

theorem toNat_mul (hx : x.toNat = a) (hy : y.toNat = b) (h : a * b < 2 ^ w) :
    (x * y).toNat = a * b := by
  rw [BitVec.toNat_mul, hx, hy, Nat.mod_eq_of_lt h]

theorem toNat_shr (k : ℕ) (hx : x.toNat = a) : (x >>> k).toNat = a / 2 ^ k := by
  rw [BitVec.toNat_ushiftRight, Nat.shiftRight_eq_div_pow, hx]

theorem toNat_shl (k : ℕ) (hx : x.toNat = a) (h : a * 2 ^ k < 2 ^ w) :
    (x <<< k).toNat = a * 2 ^ k := by
  rw [BitVec.toNat_shiftLeft, Nat.shiftLeft_eq, hx, Nat.mod_eq_of_lt h]

/-- A left shift that drops the bits above the word. -/
theorem toNat_shl_mod (k : ℕ) (hx : x.toNat = a) : (x <<< k).toNat = a * 2 ^ k % 2 ^ w := by
  rw [BitVec.toNat_shiftLeft, Nat.shiftLeft_eq, hx]

/-- A left shift keeps the low `j` bits, for words of `j + k` bits. -/
theorem toNat_shl_low (k j : ℕ) (hx : x.toNat = a) (hw : w = j + k) :
    (x <<< k).toNat = a % 2 ^ j * 2 ^ k := by
  rw [toNat_shl_mod k hx, hw, Nat.pow_add, Nat.mul_mod_mul_right]

/-- Masking with `k` low ones is the remainder modulo `2 ^ k`. -/
theorem toNat_and_mask (k : ℕ) (hx : x.toNat = a) (hy : y.toNat = 2 ^ k - 1) :
    (x &&& y).toNat = a % 2 ^ k := by
  rw [BitVec.toNat_and, hx, hy, Nat.and_two_pow_sub_one_eq_mod]

/-- Joining a number below `2 ^ k` with a multiple of `2 ^ k` is their sum. -/
theorem toNat_or (k : ℕ) (hx : x.toNat = a) (hy : y.toNat = b * 2 ^ k) (h : a < 2 ^ k) :
    (x ||| y).toNat = a + b * 2 ^ k := by
  rw [BitVec.toNat_or, hx, hy, Nat.or_comm, Nat.mul_comm b, ← Nat.two_pow_add_eq_or_of_lt h,
    Nat.add_comm]

theorem toNat_setWidth {v : ℕ} (hx : x.toNat = a) (h : a < 2 ^ v) :
    (x.setWidth v).toNat = a := by
  rw [BitVec.toNat_setWidth, hx, Nat.mod_eq_of_lt h]

/-- Truncation keeps the remainder modulo the new width. -/
theorem toNat_truncate {v : ℕ} (hx : x.toNat = a) : (x.setWidth v).toNat = a % 2 ^ v := by
  rw [BitVec.toNat_setWidth, hx]

/-- The low bit of a word is its value modulo two. -/
theorem toNat_and_one (hx : x.toNat = a) : (x &&& 1#w).toNat = a % 2 := by
  rcases Nat.eq_zero_or_pos w with rfl | hw
  · have h0 : a = 0 := by have := lt_of_toNat hx; simpa using this
    subst h0
    simp [BitVec.of_length_zero]
  · have h1 : (1#w).toNat = 2 ^ 1 - 1 := by
      rw [BitVec.toNat_ofNat, Nat.mod_eq_of_lt (Nat.one_lt_two_pow hw.ne'), Nat.pow_one]
    simpa using toNat_and_mask 1 hx h1

/-- A sum that wraps is below its operands, one that does not is not. -/
theorem add_carry (x y : BitVec w) :
    (x + y).toNat + 2 ^ w * (decide (x + y < y)).toNat = x.toNat + y.toNat := by
  have hx := x.isLt
  have hy := y.isLt
  rcases Nat.lt_or_ge (x.toNat + y.toNat) (2 ^ w) with h | h
  · have hs : (x + y).toNat = x.toNat + y.toNat := toNat_add rfl rfl h
    have hc : ¬ x + y < y := by rw [BitVec.lt_def, hs]; omega
    rw [hs, decide_eq_false hc, Bool.toNat_false, mul_zero, add_zero]
  · have hs : (x + y).toNat = x.toNat + y.toNat - 2 ^ w := by
      rw [BitVec.toNat_add, Nat.mod_eq_sub_mod h, Nat.mod_eq_of_lt (by omega)]
    have hc : x + y < y := by rw [BitVec.lt_def, hs]; omega
    rw [hs, decide_eq_true hc, Bool.toNat_true, mul_one]
    omega

theorem eq_iff_toNat (hx : x.toNat = a) (hy : y.toNat = b) : x = y ↔ a = b := by
  rw [← BitVec.toNat_inj, hx, hy]

theorem toNat_zero : (0 : BitVec w).toNat = 0 := rfl

theorem or_eq_zero : x ||| y = 0 ↔ x = 0 ∧ y = 0 := by
  rw [← BitVec.toNat_inj, ← BitVec.toNat_inj (x := x), ← BitVec.toNat_inj (x := y),
    BitVec.toNat_or, toNat_zero]
  exact Nat.or_eq_zero_iff

/-- A meet is all ones below `2 ^ k` exactly when both parts are, for parts below `2 ^ k`. -/
theorem and_eq_mask {m : BitVec w} {k : ℕ} (hm : m.toNat = 2 ^ k - 1)
    (hx : x.toNat < 2 ^ k) (hy : y.toNat < 2 ^ k) : x &&& y = m ↔ x = m ∧ y = m := by
  have hxm : x &&& m = x := by
    apply BitVec.eq_of_toNat_eq
    rw [toNat_and_mask k rfl hm, Nat.mod_eq_of_lt hx]
  have hym : y &&& m = y := by
    apply BitVec.eq_of_toNat_eq
    rw [toNat_and_mask k rfl hm, Nat.mod_eq_of_lt hy]
  constructor
  · intro h
    constructor
    · rw [← hxm, ← h, ← BitVec.and_assoc, BitVec.and_self]
    · rw [← hym, ← h, BitVec.and_comm x y, ← BitVec.and_assoc, BitVec.and_self]
  · rintro ⟨rfl, rfl⟩
    exact BitVec.and_self

end Word
