import Secp256k1.Lib.Word
import Secp256k1.Params

/-!
# Field elements of five 52-bit limbs

The representation of `field_5x52.h`: five 64-bit words whose value is read in base `2 ^ 52`. The
words may exceed 52 bits; `Mag m` is the magnitude bound of `secp256k1_fe_verify`.
-/

namespace Secp256k1.Field5x52

abbrev U64 := BitVec 64

structure Fe where
  n0 : U64
  n1 : U64
  n2 : U64
  n3 : U64
  n4 : U64
  deriving DecidableEq, Repr

@[ext] theorem Fe.ext {a b : Fe} (h0 : a.n0 = b.n0) (h1 : a.n1 = b.n1) (h2 : a.n2 = b.n2)
    (h3 : a.n3 = b.n3) (h4 : a.n4 = b.n4) : a = b := by
  cases a; cases b
  simp only [Fe.mk.injEq]
  exact ⟨h0, h1, h2, h3, h4⟩

/-- The integer the limbs denote. -/
def Fe.val (a : Fe) : ℕ :=
  a.n0.toNat + a.n1.toNat * 2 ^ 52 + a.n2.toNat * 2 ^ 104 + a.n3.toNat * 2 ^ 156 +
    a.n4.toNat * 2 ^ 208

/-- Limb bounds of an element of magnitude `m`, with `c` times `2 * m` for the low limb. -/
structure Lim (c m : ℕ) (a : Fe) : Prop where
  n0 : a.n0.toNat ≤ c * (2 * m)
  n1 : a.n1.toNat ≤ (2 ^ 52 - 1) * (2 * m)
  n2 : a.n2.toNat ≤ (2 ^ 52 - 1) * (2 * m)
  n3 : a.n3.toNat ≤ (2 ^ 52 - 1) * (2 * m)
  n4 : a.n4.toNat ≤ (2 ^ 48 - 1) * (2 * m)

/-- The limb bounds `secp256k1_fe_verify` checks of an element of magnitude `m`. -/
abbrev Mag (m : ℕ) (a : Fe) : Prop := Lim (2 ^ 52 - 1) m a

/-- The sharper bounds the operations really keep: the low limb below that of `2 * m * p`. They
leave room for the first pass of a normalization up to magnitude 2048. -/
abbrev Tight (m : ℕ) (a : Fe) : Prop := Lim (2 ^ 52 - 0x1000003D1) m a

/-- The operands the multiplication routines are written for: what `VERIFY_BITS` checks. -/
structure InRange (a : Fe) : Prop where
  n0 : a.n0.toNat < 2 ^ 56
  n1 : a.n1.toNat < 2 ^ 56
  n2 : a.n2.toNat < 2 ^ 56
  n3 : a.n3.toNat < 2 ^ 56
  n4 : a.n4.toNat < 2 ^ 52

theorem Lim.mono {c m k : ℕ} {a : Fe} (h : Lim c m a) (hk : m ≤ k) : Lim c k a := by
  obtain ⟨h0, h1, h2, h3, h4⟩ := h
  have hc : c * (2 * m) ≤ c * (2 * k) := Nat.mul_le_mul_left c (Nat.mul_le_mul_left 2 hk)
  constructor <;> omega

theorem Lim.le {c d m : ℕ} {a : Fe} (h : Lim c m a) (hd : c ≤ d) : Lim d m a :=
  ⟨h.n0.trans (Nat.mul_le_mul_right _ hd), h.n1, h.n2, h.n3, h.n4⟩

/-- Magnitude eight is within the range of the routines. -/
theorem Mag.inRange {m : ℕ} {a : Fe} (h : Mag m a) (hm : m ≤ 8) : InRange a := by
  obtain ⟨h0, h1, h2, h3, h4⟩ := h
  constructor <;> omega

end Secp256k1.Field5x52
