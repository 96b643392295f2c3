import Secp256k1.Field.Columns

/-!
# The portable multiplication and squaring

`field_5x52_int128_impl.h`: both routines add the columns of the product to two 128-bit
accumulators `c` and `d`, and fold the digits from `2 ^ 260` on as they go. `reduceCols` is what
they share once the column sums are formed.
-/

namespace Secp256k1.Field5x52.Int128

abbrev U128 := BitVec 128

/-- `0xFFFFFFFFFFFFF`. -/
def M : U64 := 0xFFFFFFFFFFFFF

/-- `2 ^ 260` modulo `p`. -/
def R : U64 := 0x1000003D10

/-- The conversion `(uint128_t)`. -/
def wide (x : U64) : U128 := x.setWidth 128

/-- The conversion to `uint64_t`. -/
def low (x : U128) : U64 := x.setWidth 64

/-- `secp256k1_fe_mul_inner`. -/
def feMulInner (a b : Fe) : Fe :=
  let d := wide a.n0 * wide b.n3 + wide a.n1 * wide b.n2 + wide a.n2 * wide b.n1 +
    wide a.n3 * wide b.n0
  let c := wide a.n4 * wide b.n4
  let d := d + (c &&& wide M) * wide R
  let c := c >>> 52
  let t3 := low (d &&& wide M)
  let d := d >>> 52
  let d := d + (wide a.n0 * wide b.n4 + wide a.n1 * wide b.n3 + wide a.n2 * wide b.n2 +
    wide a.n3 * wide b.n1 + wide a.n4 * wide b.n0)
  let d := d + c * wide R
  let t4 := low (d &&& wide M)
  let d := d >>> 52
  let tx := t4 >>> 48
  let t4 := t4 &&& (M >>> 4)
  let c := wide a.n0 * wide b.n0
  let d := d + (wide a.n1 * wide b.n4 + wide a.n2 * wide b.n3 + wide a.n3 * wide b.n2 +
    wide a.n4 * wide b.n1)
  let u0 := low (d &&& wide M)
  let d := d >>> 52
  let u0 := u0 <<< 4 ||| tx
  let c := c + wide u0 * wide (R >>> 4)
  let r0 := low (c &&& wide M)
  let c := c >>> 52
  let c := c + (wide a.n0 * wide b.n1 + wide a.n1 * wide b.n0)
  let d := d + (wide a.n2 * wide b.n4 + wide a.n3 * wide b.n3 + wide a.n4 * wide b.n2)
  let c := c + (d &&& wide M) * wide R
  let d := d >>> 52
  let r1 := low (c &&& wide M)
  let c := c >>> 52
  let c := c + (wide a.n0 * wide b.n2 + wide a.n1 * wide b.n1 + wide a.n2 * wide b.n0)
  let d := d + (wide a.n3 * wide b.n4 + wide a.n4 * wide b.n3)
  let c := c + (d &&& wide M) * wide R
  let d := d >>> 52
  let r2 := low (c &&& wide M)
  let c := c >>> 52
  let c := c + (d * wide R + wide t3)
  let r3 := low (c &&& wide M)
  let c := c >>> 52
  let c := c + wide t4
  ⟨r0, r1, r2, r3, low c⟩

/-- A signed `int64_t` converted to `uint128_t`. -/
def wideS (x : U64) : U128 := x.signExtend 128

/-- `secp256k1_fe_sqr_inner`; its locals `t3`, `t4`, `tx` and `u0` are signed. -/
def feSqrInner (a : Fe) : Fe :=
  let d := wide (a.n0 * 2) * wide a.n3 + wide (a.n1 * 2) * wide a.n2
  let c := wide a.n4 * wide a.n4
  let d := d + (c &&& wide M) * wide R
  let c := c >>> 52
  let t3 := low (d &&& wide M)
  let d := d >>> 52
  let a4 := a.n4 * 2
  let d := d + (wide a.n0 * wide a4 + wide (a.n1 * 2) * wide a.n3 + wide a.n2 * wide a.n2)
  let d := d + c * wide R
  let t4 := low (d &&& wide M)
  let d := d >>> 52
  let tx := t4.sshiftRight 48
  let t4 := t4 &&& (M >>> 4)
  let c := wide a.n0 * wide a.n0
  let d := d + (wide a.n1 * wide a4 + wide (a.n2 * 2) * wide a.n3)
  let u0 := low (d &&& wide M)
  let d := d >>> 52
  let u0 := u0 <<< 4 ||| tx
  let c := c + wideS u0 * wide (R >>> 4)
  let r0 := low (c &&& wide M)
  let c := c >>> 52
  let a0 := a.n0 * 2
  let c := c + wide a0 * wide a.n1
  let d := d + (wide a.n2 * wide a4 + wide a.n3 * wide a.n3)
  let c := c + (d &&& wide M) * wide R
  let d := d >>> 52
  let r1 := low (c &&& wide M)
  let c := c >>> 52
  let c := c + (wide a0 * wide a.n2 + wide a.n1 * wide a.n1)
  let d := d + wide a.n3 * wide a4
  let c := c + (d &&& wide M) * wide R
  let d := d >>> 52
  let r2 := low (c &&& wide M)
  let c := c >>> 52
  let c := c + (d * wide R + wideS t3)
  let r3 := low (c &&& wide M)
  let c := c >>> 52
  let c := c + wideS t4
  ⟨r0, r1, r2, r3, low c⟩

/-- The interleaved reduction of `secp256k1_fe_mul_inner`, from the column sums on. -/
def reduceCols (p0 p1 p2 p3 p4 p5 p6 p7 p8 : U128) : Fe :=
  let d1 := p3 + (p8 &&& wide M) * wide R
  let c1 := p8 >>> 52
  let t3 := low (d1 &&& wide M)
  let d2 := d1 >>> 52 + p4 + c1 * wide R
  let t4 := low (d2 &&& wide M)
  let d3 := d2 >>> 52 + p5
  let u0 := low (d3 &&& wide M) <<< 4 ||| t4 >>> 48
  let c2 := p0 + wide u0 * wide (R >>> 4)
  let d4 := d3 >>> 52 + p6
  let c3 := c2 >>> 52 + p1 + (d4 &&& wide M) * wide R
  let d5 := d4 >>> 52 + p7
  let c4 := c3 >>> 52 + p2 + (d5 &&& wide M) * wide R
  let c5 := c4 >>> 52 + ((d5 >>> 52) * wide R + wide t3)
  let c6 := c5 >>> 52 + wide (t4 &&& (M >>> 4))
  ⟨low (c2 &&& wide M), low (c3 &&& wide M), low (c4 &&& wide M), low (c5 &&& wide M), low c6⟩

theorem feMulInner_eq (a b : Fe) : feMulInner a b =
    reduceCols (wide a.n0 * wide b.n0) (wide a.n0 * wide b.n1 + wide a.n1 * wide b.n0)
      (wide a.n0 * wide b.n2 + wide a.n1 * wide b.n1 + wide a.n2 * wide b.n0)
      (wide a.n0 * wide b.n3 + wide a.n1 * wide b.n2 + wide a.n2 * wide b.n1 +
        wide a.n3 * wide b.n0)
      (wide a.n0 * wide b.n4 + wide a.n1 * wide b.n3 + wide a.n2 * wide b.n2 +
        wide a.n3 * wide b.n1 + wide a.n4 * wide b.n0)
      (wide a.n1 * wide b.n4 + wide a.n2 * wide b.n3 + wide a.n3 * wide b.n2 +
        wide a.n4 * wide b.n1)
      (wide a.n2 * wide b.n4 + wide a.n3 * wide b.n3 + wide a.n4 * wide b.n2)
      (wide a.n3 * wide b.n4 + wide a.n4 * wide b.n3) (wide a.n4 * wide b.n4) := rfl

theorem toNat_M : (wide M).toNat = 2 ^ 52 - 1 := by decide

theorem toNat_R : (wide R).toNat = 0x1000003D10 := by decide

theorem toNat_wide {x : U64} {a : ℕ} (h : x.toNat = a) : (wide x).toNat = a :=
  Word.toNat_setWidth h (h ▸ x.isLt.trans (by norm_num))

theorem toNat_mask (x : U128) : (x &&& wide M).toNat = x.toNat % 2 ^ 52 :=
  Word.toNat_and_mask 52 rfl toNat_M

theorem toNat_low_mask (x : U128) : (low (x &&& wide M)).toNat = x.toNat % 2 ^ 52 :=
  Word.toNat_setWidth (toNat_mask x) ((Nat.mod_lt _ (by norm_num)).trans (by norm_num))

/-- `(x & M) * R`. -/
theorem toNat_mask_mul (x : U128) :
    ((x &&& wide M) * wide R).toNat = x.toNat % 2 ^ 52 * 0x1000003D10 :=
  Word.toNat_mul (toNat_mask x) toNat_R (by omega)

/-- What the reduction subtracts is a multiple of `p`. Each accumulator comes with its quotient and
its remainder. -/
theorem reduce_val {s : Columns} {d1 d2 t4 d3 u0 c2 d4 c3 d5 c4 c5 c6 : ℕ}
    {q1 q2 q3 q4 q5 q6 q7 q8 q9 q10 q11 r1 r3 r4 r5 r6 r7 r8 r9 r10 r11 : ℕ}
    (e10 : 2 ^ 52 * q10 + r10 = s.s8) (hd1 : d1 = s.s3 + r10 * 0x1000003D10)
    (e1 : 2 ^ 52 * q1 + r1 = d1) (hd2 : d2 = q1 + s.s4 + q10 * 0x1000003D10)
    (e2 : 2 ^ 52 * q2 + t4 = d2) (e11 : 2 ^ 48 * q11 + r11 = t4) (hd3 : d3 = q2 + s.s5)
    (e3 : 2 ^ 52 * q3 + r3 = d3) (hu0 : u0 = q11 + r3 * 2 ^ 4) (hc2 : c2 = s.s0 + u0 * 0x1000003D1)
    (e6 : 2 ^ 52 * q6 + r6 = c2) (hd4 : d4 = q3 + s.s6) (e4 : 2 ^ 52 * q4 + r4 = d4)
    (hc3 : c3 = q6 + s.s1 + r4 * 0x1000003D10) (e7 : 2 ^ 52 * q7 + r7 = c3)
    (hd5 : d5 = q4 + s.s7) (e5 : 2 ^ 52 * q5 + r5 = d5)
    (hc4 : c4 = q7 + s.s2 + r5 * 0x1000003D10) (e8 : 2 ^ 52 * q8 + r8 = c4)
    (hc5 : c5 = q8 + (q5 * 0x1000003D10 + r1)) (e9 : 2 ^ 52 * q9 + r9 = c5)
    (hc6 : c6 = q9 + r11) :
    r6 + r7 * 2 ^ 52 + r8 * 2 ^ 104 + r9 * 2 ^ 156 + c6 * 2 ^ 208 +
      p * (16 * r10 * 2 ^ 156 + 16 * q10 * 2 ^ 208 + u0 + 16 * r4 * 2 ^ 52 + 16 * r5 * 2 ^ 104 +
        16 * q5 * 2 ^ 156) = s.digits.val := by
  rw [Columns.digits_val, p]
  omega

theorem reduceCols_spec {p0 p1 p2 p3 p4 p5 p6 p7 p8 : U128} {s : Columns} (h : s.Ok)
    (h0 : p0.toNat = s.s0) (h1 : p1.toNat = s.s1) (h2 : p2.toNat = s.s2) (h3 : p3.toNat = s.s3)
    (h4 : p4.toNat = s.s4) (h5 : p5.toNat = s.s5) (h6 : p6.toNat = s.s6) (h7 : p7.toNat = s.s7)
    (h8 : p8.toNat = s.s8) :
    (∃ q, (reduceCols p0 p1 p2 p3 p4 p5 p6 p7 p8).val + p * q = s.digits.val) ∧
      Mag 1 (reduceCols p0 p1 p2 p3 p4 p5 p6 p7 p8) ∧
      (reduceCols p0 p1 p2 p3 p4 p5 p6 p7 p8).n0.toNat < 2 ^ 52 := by
  obtain ⟨b0, b1, b2, b3, b4, b5, b6, b7, b8⟩ := h
  unfold reduceCols
  extract_lets d1 c1 t3 d2 t4 d3 u0 c2 d4 c3 d5 c4 c5 c6
  have hd1 : d1.toNat = s.s3 + s.s8 % 2 ^ 52 * 0x1000003D10 :=
    Word.toNat_add h3 (h8 ▸ toNat_mask_mul p8) (by omega)
  have hc1 : c1.toNat = s.s8 / 2 ^ 52 := Word.toNat_shr 52 h8
  have ht3 : t3.toNat = d1.toNat % 2 ^ 52 := toNat_low_mask d1
  clear_value d1 c1 t3
  have hd2 : d2.toNat = d1.toNat / 2 ^ 52 + s.s4 + c1.toNat * 0x1000003D10 :=
    Word.toNat_add (Word.toNat_add (Word.toNat_shr 52 rfl) h4 (by omega))
      (Word.toNat_mul rfl toNat_R (by omega)) (by omega)
  have ht4 : t4.toNat = d2.toNat % 2 ^ 52 := toNat_low_mask d2
  clear_value d2 t4
  have hd3 : d3.toNat = d2.toNat / 2 ^ 52 + s.s5 :=
    Word.toNat_add (Word.toNat_shr 52 rfl) h5 (by omega)
  have hu0 : u0.toNat = t4.toNat / 2 ^ 48 + d3.toNat % 2 ^ 52 * 2 ^ 4 := by
    have hx : (t4 >>> 48).toNat = t4.toNat / 2 ^ 48 := Word.toNat_shr 48 rfl
    have hs := Word.toNat_shl 4 (toNat_low_mask d3) (by omega)
    rw [show u0 = t4 >>> 48 ||| low (d3 &&& wide M) <<< 4 from BitVec.or_comm _ _]
    exact Word.toNat_or 4 hx hs (by omega)
  clear_value d3 u0
  have hc2 : c2.toNat = s.s0 + u0.toNat * 0x1000003D1 :=
    Word.toNat_add h0 (Word.toNat_mul (toNat_wide rfl) (by decide) (by omega)) (by omega)
  have hd4 : d4.toNat = d3.toNat / 2 ^ 52 + s.s6 :=
    Word.toNat_add (Word.toNat_shr 52 rfl) h6 (by omega)
  clear_value c2 d4
  have hc3 : c3.toNat = c2.toNat / 2 ^ 52 + s.s1 + d4.toNat % 2 ^ 52 * 0x1000003D10 :=
    Word.toNat_add (Word.toNat_add (Word.toNat_shr 52 rfl) h1 (by omega)) (toNat_mask_mul d4)
      (by omega)
  have hd5 : d5.toNat = d4.toNat / 2 ^ 52 + s.s7 :=
    Word.toNat_add (Word.toNat_shr 52 rfl) h7 (by omega)
  clear_value c3 d5
  have hc4 : c4.toNat = c3.toNat / 2 ^ 52 + s.s2 + d5.toNat % 2 ^ 52 * 0x1000003D10 :=
    Word.toNat_add (Word.toNat_add (Word.toNat_shr 52 rfl) h2 (by omega)) (toNat_mask_mul d5)
      (by omega)
  clear_value c4
  have hc5 : c5.toNat = c4.toNat / 2 ^ 52 + (d5.toNat / 2 ^ 52 * 0x1000003D10 + t3.toNat) :=
    Word.toNat_add (Word.toNat_shr 52 rfl) (Word.toNat_add
      (Word.toNat_mul (Word.toNat_shr 52 rfl) toNat_R (by omega)) (toNat_wide rfl) (by omega))
      (by omega)
  clear_value c5
  have hm : (t4 &&& (M >>> 4)).toNat = t4.toNat % 2 ^ 48 := Word.toNat_and_mask 48 rfl (by decide)
  have hc6 : c6.toNat = c5.toNat / 2 ^ 52 + t4.toNat % 2 ^ 48 :=
    Word.toNat_add (Word.toNat_shr 52 rfl) (toNat_wide hm) (by omega)
  have hr4 : (low c6).toNat = c6.toNat := Word.toNat_setWidth rfl (by omega)
  clear_value c6
  have hval := reduce_val (Nat.div_add_mod s.s8 _) hd1 (Nat.div_add_mod d1.toNat _) (hc1 ▸ hd2)
    (ht4 ▸ Nat.div_add_mod d2.toNat _) (Nat.div_add_mod t4.toNat _) hd3
    (Nat.div_add_mod d3.toNat _) hu0 hc2 (Nat.div_add_mod c2.toNat _) hd4
    (Nat.div_add_mod d4.toNat _) hc3 (Nat.div_add_mod c3.toNat _) hd5 (Nat.div_add_mod d5.toNat _)
    hc4 (Nat.div_add_mod c4.toNat _) (ht3 ▸ hc5) (Nat.div_add_mod c5.toNat _) hc6
  refine ⟨?_, ⟨?_, ?_, ?_, ?_, ?_⟩, ?_⟩
  · simp only [Fe.val, toNat_low_mask, hr4]
    exact ⟨_, hval⟩
  all_goals simp only [toNat_low_mask, hr4]
  all_goals omega

/-- A product of two limbs does not wrap. -/
theorem toNat_wide_mul (x y : U64) : (wide x * wide y).toNat = x.toNat * y.toNat :=
  Word.toNat_mul (toNat_wide rfl) (toNat_wide rfl)
    (mul_lt_pow 64 64 x.isLt y.isLt)

theorem feMulInner_spec {a b : Fe} (ha : InRange a) (hb : InRange b) :
    (∃ q, (feMulInner a b).val + p * q = a.val * b.val) ∧ Mag 1 (feMulInner a b) ∧
      (feMulInner a b).n0.toNat < 2 ^ 52 := by
  have hok := mulColumnsOf_ok ha hb
  have ⟨h0, h1, h2, h3, h4, h5, h6, h7, h8⟩ := hok
  rw [feMulInner_eq, ← mulColumnsOf_val]
  refine reduceCols_spec hok ?_ ?_ ?_ ?_ ?_ ?_ ?_ ?_ ?_ <;>
    simp only [BitVec.toNat_add, toNat_wide_mul, Nat.mod_add_mod] <;>
    first
    | rfl
    | exact Nat.mod_eq_of_lt (by simp only [mulColumnsOf] at *; omega)

/-! ### The square -/

theorem wideS_eq {x : U64} (h : x.toNat < 2 ^ 63) : wideS x = wide x :=
  BitVec.signExtend_eq_setWidth_of_msb_false (BitVec.msb_eq_false_iff_two_mul_lt.mpr (by omega))

theorem sshiftRight_eq {x : U64} (h : x.toNat < 2 ^ 63) (k : ℕ) : x.sshiftRight k = x >>> k :=
  BitVec.sshiftRight_eq_of_msb_false (BitVec.msb_eq_false_iff_two_mul_lt.mpr (by omega))

/-- The signed locals are below `2 ^ 63`, where signed and unsigned operations agree. -/
theorem feSqrInner_eq (a : Fe) : feSqrInner a =
    reduceCols (wide a.n0 * wide a.n0) (wide (a.n0 * 2) * wide a.n1)
      (wide (a.n0 * 2) * wide a.n2 + wide a.n1 * wide a.n1)
      (wide (a.n0 * 2) * wide a.n3 + wide (a.n1 * 2) * wide a.n2)
      (wide a.n0 * wide (a.n4 * 2) + wide (a.n1 * 2) * wide a.n3 + wide a.n2 * wide a.n2)
      (wide a.n1 * wide (a.n4 * 2) + wide (a.n2 * 2) * wide a.n3)
      (wide a.n2 * wide (a.n4 * 2) + wide a.n3 * wide a.n3) (wide a.n3 * wide (a.n4 * 2))
      (wide a.n4 * wide a.n4) := by
  have hlow : ∀ d, (low (d &&& wide M)).toNat < 2 ^ 52 := fun d => by
    rw [toNat_low_mask]
    exact Nat.mod_lt _ (by norm_num)
  have hsh : ∀ d, (low (d &&& wide M)).sshiftRight 48 = low (d &&& wide M) >>> 48 := fun d =>
    sshiftRight_eq ((hlow d).trans (by norm_num)) 48
  have h3 : ∀ d, wideS (low (d &&& wide M)) = wide (low (d &&& wide M)) := fun d =>
    wideS_eq ((hlow d).trans (by norm_num))
  have h4 : ∀ t : U64, wideS (t &&& (M >>> 4)) = wide (t &&& (M >>> 4)) := fun t => by
    apply wideS_eq
    rw [Word.toNat_and_mask 48 rfl (by decide)]
    exact (Nat.mod_lt _ (by norm_num)).trans (by norm_num)
  have h0 : ∀ d e, wideS (low (d &&& wide M) <<< 4 ||| low (e &&& wide M) >>> 48) =
      wide (low (d &&& wide M) <<< 4 ||| low (e &&& wide M) >>> 48) := fun d e => by
    have hd := hlow d
    have he := hlow e
    apply wideS_eq
    rw [BitVec.or_comm, Word.toNat_or 4 (Word.toNat_shr 48 rfl) (Word.toNat_shl 4 rfl (by omega))
      (by omega)]
    omega
  simp only [feSqrInner, hsh, h3, h4, h0]
  rfl

theorem feSqrInner_spec {a : Fe} (ha : InRange a) :
    (∃ q, (feSqrInner a).val + p * q = a.val * a.val) ∧ Mag 1 (feSqrInner a) ∧
      (feSqrInner a).n0.toNat < 2 ^ 52 := by
  have hok := mulColumnsOf_ok ha ha
  obtain ⟨a0, a1, a2, a3, a4⟩ := ha
  have e0 : (a.n0 * 2).toNat = a.n0.toNat * 2 := Word.toNat_mul rfl rfl (by simp; omega)
  have e1 : (a.n1 * 2).toNat = a.n1.toNat * 2 := Word.toNat_mul rfl rfl (by simp; omega)
  have e2 : (a.n2 * 2).toNat = a.n2.toNat * 2 := Word.toNat_mul rfl rfl (by simp; omega)
  have e4 : (a.n4 * 2).toNat = a.n4.toNat * 2 := Word.toNat_mul rfl rfl (by simp; omega)
  -- a column of the square, summed with its doubled terms
  have hcol : ∀ {t s : ℕ}, s < 2 ^ 115 → t = s → t % 2 ^ 128 = s := fun hs ht => by
    subst ht
    exact Nat.mod_eq_of_lt (by omega)
  rw [feSqrInner_eq, ← mulColumnsOf_val]
  refine reduceCols_spec hok ?_ ?_ ?_ ?_ ?_ ?_ ?_ ?_ ?_ <;>
    simp only [BitVec.toNat_add, toNat_wide_mul, Nat.mod_add_mod, e0, e1, e2, e4]
  · rfl
  · simp only [mulColumnsOf]; ring
  · exact hcol hok.s2 (by simp only [mulColumnsOf]; ring)
  · exact hcol hok.s3 (by simp only [mulColumnsOf]; ring)
  · exact hcol hok.s4 (by simp only [mulColumnsOf]; ring)
  · exact hcol hok.s5 (by simp only [mulColumnsOf]; ring)
  · exact hcol hok.s6 (by simp only [mulColumnsOf]; ring)
  · simp only [mulColumnsOf]; ring
  · rfl

end Secp256k1.Field5x52.Int128
