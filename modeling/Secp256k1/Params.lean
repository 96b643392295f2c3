import Mathlib

/-!
# The parameters of the curve

`p` is the field characteristic and `n` the order of the group, as the source's constants spell
them. Both are written in hexadecimal so that the kernel never evaluates a power.
-/

namespace Secp256k1

/-- The field characteristic `2^256 - 2^32 - 977`. -/
def p : ℕ := 0xFFFFFFFFFFFFFFFFFFFFFFFFFFFFFFFFFFFFFFFFFFFFFFFFFFFFFFFEFFFFFC2F

/-- The group order. -/
def n : ℕ := 0xFFFFFFFFFFFFFFFFFFFFFFFFFFFFFFFEBAAEDCE6AF48A03BBFD25E8CD0364141

theorem p_pos : 0 < p := by decide

theorem n_pos : 0 < n := by decide

theorem n_lt_p : n < p := by decide

/-- Comparisons with `p` as comparisons with `2 ^ 256`. -/
theorem lt_p_iff {x : ℕ} : x < p ↔ x + 0x1000003D1 < 2 ^ 256 := by
  rw [show p = 2 ^ 256 - 0x1000003D1 by norm_num [p], Nat.lt_sub_iff_add_lt]

theorem p_lt : p < 2 ^ 256 := by norm_num [p]

theorem n_lt : n < 2 ^ 256 := by norm_num [n]

end Secp256k1
