import Secp256k1.Field.Repr5x52

/-!
# Columns, digits and the fold

The column sums of a product of two elements, the accumulators that carry from one column to the
next, the digits in base `2 ^ 52` cut from them, and the two-stage fold of the digits modulo `p`.
All of it over `ℕ`: the routines are shown to compute these numbers.
-/

namespace Secp256k1.Field5x52

/-! ## Digits and their fold -/

/-- The digits of a product in base `2 ^ 52`; `t8` is the last column with its carry, not cut. -/
structure Digits where
  t0 : ℕ
  t1 : ℕ
  t2 : ℕ
  t3 : ℕ
  t4 : ℕ
  t5 : ℕ
  t6 : ℕ
  t7 : ℕ
  t8 : ℕ

def Digits.val (t : Digits) : ℕ :=
  t.t0 + t.t1 * 2 ^ 52 + t.t2 * 2 ^ 104 + t.t3 * 2 ^ 156 + t.t4 * 2 ^ 208 + t.t5 * 2 ^ 260 +
    t.t6 * 2 ^ 312 + t.t7 * 2 ^ 364 + t.t8 * 2 ^ 416

structure Digits.Ok (t : Digits) : Prop where
  t0 : t.t0 < 2 ^ 52
  t1 : t.t1 < 2 ^ 52
  t2 : t.t2 < 2 ^ 52
  t3 : t.t3 < 2 ^ 52
  t4 : t.t4 < 2 ^ 52
  t5 : t.t5 < 2 ^ 52
  t6 : t.t6 < 2 ^ 52
  t7 : t.t7 < 2 ^ 52
  t8 : t.t8 < 2 ^ 105

/-- The two folds of `secp256k1_fe_common`, at bit 260 and at bit 256, as numbers. -/
structure Folded where
  v0 : ℕ
  v1 : ℕ
  v2 : ℕ
  v3 : ℕ
  v4 : ℕ
  v5 : ℕ

def Digits.fold (t : Digits) : Folded :=
  let v0 := t.t5 * 0x1000003D10 + t.t0
  let v1 := t.t6 * 0x1000003D10 + t.t1 + v0 / 2 ^ 52
  let v2 := t.t7 * 0x1000003D10 + t.t2 + v1 / 2 ^ 52
  let v3 := t.t8 % 2 ^ 52 * 0x1000003D10 + t.t3 + v2 / 2 ^ 52
  let v4 := t.t8 / 2 ^ 52 * 0x1000003D10 + t.t4 + v3 / 2 ^ 52
  ⟨v0, v1, v2, v3, v4, v4 / 2 ^ 48 * 0x1000003D1 + v0 % 2 ^ 52⟩

def Folded.limbs (v : Folded) : Fe :=
  ⟨BitVec.ofNat 64 (v.v5 % 2 ^ 52), BitVec.ofNat 64 (v.v5 / 2 ^ 52 + v.v1 % 2 ^ 52),
    BitVec.ofNat 64 (v.v2 % 2 ^ 52), BitVec.ofNat 64 (v.v3 % 2 ^ 52),
    BitVec.ofNat 64 (v.v4 % 2 ^ 48)⟩

theorem Digits.fold_lt {t : Digits} (h : t.Ok) :
    t.fold.v0 < 2 ^ 90 ∧ t.fold.v1 < 2 ^ 90 ∧ t.fold.v2 < 2 ^ 90 ∧ t.fold.v3 < 2 ^ 90 ∧
      t.fold.v4 < 2 ^ 91 ∧ t.fold.v5 < 2 ^ 77 := by
  obtain ⟨h0, h1, h2, h3, h4, h5, h6, h7, h8⟩ := h
  simp only [Digits.fold]
  omega

/-- The bounds of `secp256k1_fe_verify` at magnitude one, and a low limb of 52 bits. -/
theorem Digits.fold_mag {t : Digits} (h : t.Ok) :
    Mag 1 t.fold.limbs ∧ t.fold.limbs.n0.toNat < 2 ^ 52 := by
  obtain ⟨h0, h1, h2, h3, h4, h5⟩ := t.fold_lt h
  refine ⟨⟨?_, ?_, ?_, ?_, ?_⟩, ?_⟩ <;> simp only [Folded.limbs, BitVec.toNat_ofNat] <;> omega

/-- Folding subtracts a multiple of `p`. -/
theorem Digits.fold_val {t : Digits} (h : t.Ok) :
    t.fold.limbs.val + p * (t.fold.v4 / 2 ^ 48 + 16 * (t.t5 + t.t6 * 2 ^ 52 + t.t7 * 2 ^ 104 +
      t.t8 * 2 ^ 156)) = t.val := by
  obtain ⟨h0, h1, h2, h3, h4, h5⟩ := t.fold_lt h
  simp only [Fe.val, Folded.limbs, BitVec.toNat_ofNat]
  rw [Nat.mod_eq_of_lt (a := t.fold.v5 % _) (by omega), Nat.mod_eq_of_lt (a := _ + _) (by omega),
    Nat.mod_eq_of_lt (a := t.fold.v2 % _) (by omega),
    Nat.mod_eq_of_lt (a := t.fold.v3 % _) (by omega),
    Nat.mod_eq_of_lt (a := t.fold.v4 % _) (by omega)]
  simp only [Digits.fold, Digits.val, p] at *
  omega

/-! ## Columns -/

/-- The nine column sums of a product of five-limb numbers. -/
structure Columns where
  s0 : ℕ
  s1 : ℕ
  s2 : ℕ
  s3 : ℕ
  s4 : ℕ
  s5 : ℕ
  s6 : ℕ
  s7 : ℕ
  s8 : ℕ

/-- Each column with the carry of the one below it: the accumulators before their `shrd`. -/
def Columns.acc (s : Columns) : Columns :=
  let c0 := s.s0
  let c1 := c0 / 2 ^ 52 + s.s1
  let c2 := c1 / 2 ^ 52 + s.s2
  let c3 := c2 / 2 ^ 52 + s.s3
  let c4 := c3 / 2 ^ 52 + s.s4
  let c5 := c4 / 2 ^ 52 + s.s5
  let c6 := c5 / 2 ^ 52 + s.s6
  let c7 := c6 / 2 ^ 52 + s.s7
  ⟨c0, c1, c2, c3, c4, c5, c6, c7, c7 / 2 ^ 52 + s.s8⟩

def Columns.digits (s : Columns) : Digits :=
  let c := s.acc
  ⟨c.s0 % 2 ^ 52, c.s1 % 2 ^ 52, c.s2 % 2 ^ 52, c.s3 % 2 ^ 52, c.s4 % 2 ^ 52, c.s5 % 2 ^ 52,
    c.s6 % 2 ^ 52, c.s7 % 2 ^ 52, c.s8⟩

theorem Columns.digits_val (s : Columns) : s.digits.val =
    s.s0 + s.s1 * 2 ^ 52 + s.s2 * 2 ^ 104 + s.s3 * 2 ^ 156 + s.s4 * 2 ^ 208 + s.s5 * 2 ^ 260 +
      s.s6 * 2 ^ 312 + s.s7 * 2 ^ 364 + s.s8 * 2 ^ 416 := by
  simp only [Columns.digits, Columns.acc, Digits.val]
  omega

/-- Bounds of the columns that hold for operands in range. -/
structure Columns.Ok (s : Columns) : Prop where
  s0 : s.s0 < 2 ^ 115
  s1 : s.s1 < 2 ^ 115
  s2 : s.s2 < 2 ^ 115
  s3 : s.s3 < 2 ^ 115
  s4 : s.s4 < 2 ^ 115
  s5 : s.s5 < 2 ^ 115
  s6 : s.s6 < 2 ^ 115
  s7 : s.s7 < 2 ^ 115
  s8 : s.s8 < 2 ^ 104

/-- No accumulator reaches `2 ^ 116`, so the word each `shrd` drops is the quotient's. -/
structure Columns.AccLt (s : Columns) : Prop where
  s0 : s.acc.s0 < 2 ^ 116
  s1 : s.acc.s1 < 2 ^ 116
  s2 : s.acc.s2 < 2 ^ 116
  s3 : s.acc.s3 < 2 ^ 116
  s4 : s.acc.s4 < 2 ^ 116
  s5 : s.acc.s5 < 2 ^ 116
  s6 : s.acc.s6 < 2 ^ 116
  s7 : s.acc.s7 < 2 ^ 116
  s8 : s.acc.s8 < 2 ^ 105

theorem Columns.Ok.accLt {s : Columns} (h : s.Ok) : s.AccLt := by
  obtain ⟨h0, h1, h2, h3, h4, h5, h6, h7, h8⟩ := h
  constructor <;> simp only [Columns.acc] <;> omega

theorem Columns.Ok.digits {s : Columns} (h : s.Ok) : s.digits.Ok := by
  have hc := h.accLt
  refine ⟨?_, ?_, ?_, ?_, ?_, ?_, ?_, ?_, hc.s8⟩ <;> exact Nat.mod_lt _ (by norm_num)

/-- The columns of the product of two elements. -/
def mulColumnsOf (x y : Fe) : Columns where
  s0 := x.n0.toNat * y.n0.toNat
  s1 := x.n0.toNat * y.n1.toNat + x.n1.toNat * y.n0.toNat
  s2 := x.n0.toNat * y.n2.toNat + x.n1.toNat * y.n1.toNat + x.n2.toNat * y.n0.toNat
  s3 := x.n0.toNat * y.n3.toNat + x.n1.toNat * y.n2.toNat + x.n2.toNat * y.n1.toNat +
    x.n3.toNat * y.n0.toNat
  s4 := x.n0.toNat * y.n4.toNat + x.n1.toNat * y.n3.toNat + x.n2.toNat * y.n2.toNat +
    x.n3.toNat * y.n1.toNat + x.n4.toNat * y.n0.toNat
  s5 := x.n1.toNat * y.n4.toNat + x.n2.toNat * y.n3.toNat + x.n3.toNat * y.n2.toNat +
    x.n4.toNat * y.n1.toNat
  s6 := x.n2.toNat * y.n4.toNat + x.n3.toNat * y.n3.toNat + x.n4.toNat * y.n2.toNat
  s7 := x.n3.toNat * y.n4.toNat + x.n4.toNat * y.n3.toNat
  s8 := x.n4.toNat * y.n4.toNat

theorem mulColumnsOf_val (x y : Fe) : (mulColumnsOf x y).digits.val = x.val * y.val := by
  have hB : ∀ k, (2 : ℕ) ^ (52 * k) = (2 ^ 52) ^ k := fun k => Nat.pow_mul 2 52 k
  simp only [Columns.digits_val, mulColumnsOf, Fe.val]
  rw [hB 2, hB 3, hB 4, hB 5, hB 6, hB 7, hB 8]
  generalize (2 : ℕ) ^ 52 = B
  ring

theorem mul_lt_pow {x y : ℕ} (i j : ℕ) (hx : x < 2 ^ i) (hy : y < 2 ^ j) : x * y < 2 ^ (i + j) := by
  rw [Nat.pow_add]
  exact Nat.mul_lt_mul'' hx hy

theorem mulColumnsOf_ok {x y : Fe} (hx : InRange x) (hy : InRange y) : (mulColumnsOf x y).Ok := by
  obtain ⟨a0, a1, a2, a3, a4⟩ := hx
  obtain ⟨b0, b1, b2, b3, b4⟩ := hy
  have h00 := mul_lt_pow 56 56 a0 b0
  have h01 := mul_lt_pow 56 56 a0 b1
  have h02 := mul_lt_pow 56 56 a0 b2
  have h03 := mul_lt_pow 56 56 a0 b3
  have h04 := mul_lt_pow 56 52 a0 b4
  have h10 := mul_lt_pow 56 56 a1 b0
  have h11 := mul_lt_pow 56 56 a1 b1
  have h12 := mul_lt_pow 56 56 a1 b2
  have h13 := mul_lt_pow 56 56 a1 b3
  have h14 := mul_lt_pow 56 52 a1 b4
  have h20 := mul_lt_pow 56 56 a2 b0
  have h21 := mul_lt_pow 56 56 a2 b1
  have h22 := mul_lt_pow 56 56 a2 b2
  have h23 := mul_lt_pow 56 56 a2 b3
  have h24 := mul_lt_pow 56 52 a2 b4
  have h30 := mul_lt_pow 56 56 a3 b0
  have h31 := mul_lt_pow 56 56 a3 b1
  have h32 := mul_lt_pow 56 56 a3 b2
  have h33 := mul_lt_pow 56 56 a3 b3
  have h34 := mul_lt_pow 56 52 a3 b4
  have h40 := mul_lt_pow 52 56 a4 b0
  have h41 := mul_lt_pow 52 56 a4 b1
  have h42 := mul_lt_pow 52 56 a4 b2
  have h43 := mul_lt_pow 52 56 a4 b3
  have h44 := mul_lt_pow 52 52 a4 b4
  constructor <;> simp only [mulColumnsOf] <;> omega

end Secp256k1.Field5x52
