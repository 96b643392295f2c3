import Secp256k1.Scalar.Accumulator
import Secp256k1.Params
import Secp256k1.Field.Impl5x52

/-!
# Limb routines of the scalar backends

The steps `scalar_4x64_impl.h` and `scalar_8x32_impl.h` share, over `k` limbs of `w` bits: the
carry chains of addition, negation and reduction, and the byte codec. The results are numbers
modulo the group order `n`, of which the limbs are a parameter here.
-/

namespace Secp256k1.Scalar

variable {w k : ℕ}

/-- `(uint128_t)x`, the conversion to the double width. -/
def wide (x : BitVec w) : BitVec (2 * w) := x.setWidth (2 * w)

/-- `a->d[i] + b->d[i]` with carries. -/
def addChain (a b : Fin k → BitVec w) : (Fin k → BitVec w) × BitVec (2 * w) :=
  Limbs.carry 0 fun i => wide (a i) + wide (b i)

/-- `~a->d[i] + N_i` with carries, and 1 added to the lowest column. -/
def negateChain [NeZero k] (N a : Fin k → BitVec w) : Fin k → BitVec w :=
  (Limbs.carry 0 fun i => wide (~~~a i) + wide (N i) + if i = 0 then 1 else 0).1

/-- `(r->d[i] ^ mask) + (N_i & mask)` with carries, with `N_0 + 1` in the lowest column. -/
def condNegateChain [NeZero k] (N : Fin k → BitVec w) (mask : BitVec w) (r : Fin k → BitVec w) :
    Fin k → BitVec w :=
  (Limbs.carry 0 fun i =>
    wide (r i ^^^ mask) + wide ((if i = 0 then N i + 1 else N i) &&& mask)).1

/-- `secp256k1_scalar_add` above the check and the reduction of a backend. -/
def addReduced (check : (Fin k → BitVec w) → CInt)
    (reduce : (Fin k → BitVec w) → CInt → Fin k → BitVec w) (a b : Fin k → BitVec w) :
    (Fin k → BitVec w) × CInt :=
  let (r, t) := addChain a b
  let ov := (t + (check r).signExtend (2 * w)).setWidth 32
  (reduce r ov, ov)

/-- `secp256k1_scalar_set_b32` after the limbs are read. -/
def checkReduced (check : (Fin k → BitVec w) → CInt)
    (reduce : (Fin k → BitVec w) → CInt → Fin k → BitVec w) (r : Fin k → BitVec w) :
    (Fin k → BitVec w) × CInt :=
  let ov := check r
  (reduce r ov, ov)

/-- `secp256k1_scalar_mul` and `secp256k1_scalar_sqr` above the product; whether carries were lost
is kept beside the words. -/
def productReduced {k' : ℕ} (reduce512 : (Fin k' → BitVec w) → (Fin k → BitVec w) × Bool)
    (product : (Fin k' → BitVec w) × Bool) : (Fin k → BitVec w) × Bool :=
  let (l, ok) := product
  let (r, ok') := reduce512 l
  (r, ok && ok')

/-- `b[0] << s | b[1] << (s + 8) | ..`. -/
def joinBytes (w s : ℕ) : List Byte → BitVec w
  | [] => 0
  | b :: l => b.setWidth w <<< s ||| joinBytes w (s + 8) l

/-- `(unsigned char)(x >> s)`. -/
def byteOf (x : BitVec w) (s : ℕ) : Byte := (x >>> s).setWidth 8

/-- The all-ones word when the flag is set, `0 - 1` in the type of a limb. -/
def maskOf (w : ℕ) (flag : CInt) : BitVec w := (ofBool (flag = 0) - 1).signExtend w

/-- `a->d[i]`. -/
def limb [NeZero k] (a : Fin k → BitVec w) (i : ℕ) : BitVec w := a (Fin.ofNat k i)

/-- `(a->d[offset >> 6] >> (offset & 0x3F)) & ((1 << count) - 1)`, for limbs of `2 ^ lg` bits. -/
def getBits [NeZero k] (lg : ℕ) (a : Fin k → BitVec w) (offset count : ℕ) : BitVec 32 :=
  ((limb a (offset >>> lg) >>> (offset &&& (2 ^ lg - 1))) &&&
    ((1 : BitVec w) <<< count - 1)).setWidth 32

/-- Bits that may lie in two neighbouring limbs. -/
def getBitsVar [NeZero k] (lg : ℕ) (a : Fin k → BitVec w) (offset count : ℕ) : BitVec 32 :=
  if (offset + count - 1) >>> lg = offset >>> lg then getBits lg a offset count
  else
    ((limb a (offset >>> lg) >>> (offset &&& (2 ^ lg - 1)) |||
      limb a (offset >>> lg + 1) <<< (w - (offset &&& (2 ^ lg - 1)))) &&&
        ((1 : BitVec w) <<< count - 1)).setWidth 32

theorem joinBytes_toNat {s : ℕ} {l : List Byte} (h : s + 8 * l.length ≤ w) :
    (joinBytes w s l).toNat = Bytes.leNat l * 2 ^ s := by
  induction l generalizing s with
  | nil => rw [joinBytes, Bytes.leNat, zero_mul, Word.toNat_zero]
  | cons b l ih =>
    rw [List.length_cons] at h
    have hb := b.isLt
    have hb' : (b.setWidth w).toNat = b.toNat :=
      Word.toNat_setWidth rfl (hb.trans_le (Nat.pow_le_pow_right (by omega) (by omega)))
    have hs : b.toNat * 2 ^ s < 2 ^ (s + 8) := by
      rw [pow_add, mul_comm]
      exact Nat.mul_lt_mul_of_pos_left hb (Nat.two_pow_pos s)
    have hsh := Word.toNat_shl s hb' (hs.trans_le (Nat.pow_le_pow_right (by omega) (by omega)))
    rw [joinBytes, Word.toNat_or (s + 8) hsh (ih (by omega)) hs, Bytes.leNat, pow_add]
    ring

theorem toNat_byteOf (x : BitVec w) (s : ℕ) : (byteOf x s).toNat = x.toNat / 2 ^ s % 2 ^ 8 :=
  Word.toNat_truncate (Word.toNat_shr s rfl)

theorem toNat_wide (x : BitVec w) : (wide x).toNat = x.toNat :=
  Word.toNat_setWidth rfl (x.isLt.trans_le (Nat.pow_le_pow_right (by omega) (by omega)))

theorem maskOf_eq (flag : CInt) : maskOf w flag = if flag = 0 then 0 else BitVec.allOnes w := by
  by_cases h : flag = 0
  · have h0 : ofBool (decide (flag = 0)) - 1 = 0#32 := by rw [decide_eq_true h]; rfl
    rw [maskOf, h0, if_pos h]
    exact BitVec.eq_of_getLsbD_eq fun i _ => by simp [BitVec.getLsbD_signExtend]
  · have h1 : ofBool (decide (flag = 0)) - 1 = BitVec.allOnes 32 := by
      rw [decide_eq_false h]; rfl
    rw [maskOf, h1, if_neg h]
    refine BitVec.eq_of_getLsbD_eq fun i hi => ?_
    rw [BitVec.getLsbD_signExtend, BitVec.msb_allOnes (by decide), BitVec.getLsbD_allOnes,
      BitVec.getLsbD_allOnes, decide_eq_true hi, Bool.true_and]
    split
    · exact decide_eq_true ‹_›
    · rfl

/-! ## Runs of bits -/

/-- A masked word, bit by bit. -/
theorem testBit_masked {x : BitVec w} {count : ℕ} (hc : count < w) (hc' : count < 32) (i : ℕ) :
    ((x &&& ((1 : BitVec w) <<< count - 1)).setWidth 32).toNat.testBit i =
      (decide (i < count) && x.getLsbD i) := by
  have hone : (1 : BitVec w).toNat = 1 := Nat.mod_eq_of_lt (Nat.one_lt_two_pow (by omega))
  have hpow : ((1 : BitVec w) <<< count).toNat = 2 ^ count := by
    rw [Word.toNat_shl count hone (by rw [one_mul]; exact Nat.pow_lt_pow_right (by omega) hc),
      one_mul]
  have hmask : ((1 : BitVec w) <<< count - 1).toNat = 2 ^ count - 1 :=
    Word.toNat_sub hpow hone Nat.one_le_two_pow
  rw [BitVec.toNat_setWidth, Word.toNat_and_mask count rfl hmask, Nat.testBit_mod_two_pow,
    Nat.testBit_mod_two_pow]
  by_cases h : i < count
  · rw [decide_eq_true (show i < 32 by omega), decide_eq_true h, Bool.true_and]
    rfl
  · rw [decide_eq_false h, Bool.false_and, Bool.and_false, Bool.false_and]

/-- The bit a limb and an offset in it name. -/
theorem testBit_limb [NeZero k] (a : Fin k → BitVec w) {m i s : ℕ} (hi : i < k) (hs : s < w)
    (hm : m = w * i + s) : (Limbs.val a).testBit m = (limb a i).getLsbD s := by
  have hi' : (Fin.ofNat k i : ℕ) = i := Nat.mod_eq_of_lt hi
  rw [limb, ← Limbs.testBit_val a (Fin.ofNat k i) hs, hi', hm]

theorem getBitsVar_spec [NeZero k] {lg : ℕ} (hw : w = 2 ^ lg) (hw32 : 32 ≤ w)
    (a : Fin k → BitVec w) {offset count : ℕ} (h0 : 0 < count) (hc : count < 32)
    (ho : offset + count ≤ w * k) :
    (getBitsVar lg a offset count).toNat = Limbs.val a / 2 ^ offset % 2 ^ count := by
  have hq : offset >>> lg = offset / w := by rw [Nat.shiftRight_eq_div_pow, hw]
  have hq' : (offset + count - 1) >>> lg = (offset + count - 1) / w := by
    rw [Nat.shiftRight_eq_div_pow, hw]
  have hr : offset &&& (2 ^ lg - 1) = offset % w := by rw [Nat.and_two_pow_sub_one_eq_mod, hw]
  have hdiv := Nat.div_add_mod offset w
  have hmod := Nat.mod_lt offset (show 0 < w by omega)
  have hk : offset / w < k := Nat.div_lt_of_lt_mul (by omega)
  apply Nat.eq_of_testBit_eq
  intro i
  rw [Nat.testBit_mod_two_pow, Nat.testBit_div_two_pow, getBitsVar, getBits, hq, hq', hr]
  by_cases hi : i < count
  · rcases Nat.lt_or_ge (offset % w + i) w with hlt | hge
    · rw [testBit_limb a hk hlt (by omega)]
      split
      · rw [testBit_masked (by omega) hc, BitVec.getLsbD_ushiftRight]
      · have hns : i < w - offset % w := by omega
        rw [testBit_masked (by omega) hc, BitVec.getLsbD_or, BitVec.getLsbD_ushiftRight,
          BitVec.getLsbD_shiftLeft, decide_eq_true hns, Bool.not_true, Bool.and_false,
          Bool.false_and, Bool.or_false]
    · have hcross : ¬ (offset + count - 1) / w = offset / w := by
        have h1 : offset / w + 1 ≤ (offset + count - 1) / w := by
          rw [Nat.le_div_iff_mul_le (by omega), add_mul, one_mul, mul_comm]
          omega
        omega
      have hk' : offset / w + 1 < k := by
        refine Nat.lt_of_mul_lt_mul_left (a := w) ?_
        rw [mul_add, mul_one]
        omega
      rw [testBit_limb a hk' (s := offset % w + i - w) (by omega) (by rw [mul_add]; omega),
        if_neg hcross, testBit_masked (by omega) hc, BitVec.getLsbD_or,
        BitVec.getLsbD_ushiftRight, BitVec.getLsbD_shiftLeft, BitVec.getLsbD_of_ge _ _ hge,
        Bool.false_or, decide_eq_true (show i < w by omega),
        decide_eq_false (show ¬ i < w - offset % w by omega), Bool.not_false, Bool.true_and,
        Bool.true_and]
      congr 2
      omega
  · rw [decide_eq_false hi, Bool.false_and]
    split <;> rw [testBit_masked (by omega) hc, decide_eq_false hi, Bool.false_and]

/-- A single bit. -/
theorem getBits_one [NeZero k] {lg : ℕ} (hw : w = 2 ^ lg) (hw32 : 32 ≤ w) (a : Fin k → BitVec w)
    {offset : ℕ} (ho : offset < w * k) :
    (getBits lg a offset 1).toNat = Limbs.val a / 2 ^ offset % 2 := by
  have h := getBitsVar_spec hw hw32 a Nat.one_pos (by omega) ho
  rwa [getBitsVar, Nat.add_sub_cancel, if_pos rfl, pow_one] at h

/-- Four bits of one limb. -/
theorem getBits_four [NeZero k] {lg : ℕ} (hw : w = 2 ^ lg) (hw32 : 32 ≤ w) (h4 : w % 4 = 0)
    (a : Fin k → BitVec w) {j : ℕ} (hj : j * 4 + 4 ≤ w * k) :
    (getBits lg a (j * 4) 4).toNat = Limbs.val a / 2 ^ (j * 4) % 16 := by
  have h := getBitsVar_spec hw hw32 a (show 0 < 4 by norm_num) (by norm_num) hj
  have hlimb : (j * 4 + 4 - 1) >>> lg = (j * 4) >>> lg := by
    obtain ⟨m, rfl⟩ : ∃ m, w = 4 * m := ⟨w / 4, by omega⟩
    rw [Nat.shiftRight_eq_div_pow, Nat.shiftRight_eq_div_pow, ← hw, ← Nat.div_div_eq_div_mul,
      ← Nat.div_div_eq_div_mul]
    congr 1
    omega
  rwa [getBitsVar, if_pos hlimb] at h

/-! ## Truth values as integers -/

theorem ofBool_or (b c : Bool) : ofBool b ||| ofBool c = ofBool (b || c) := by
  cases b <;> cases c <;> rfl

theorem ofBool_and_not (b c : Bool) : ofBool b &&& ~~~ofBool c = ofBool (b && !c) := by
  cases b <;> cases c <;> rfl

theorem toNat_ofBool (b : Bool) : (ofBool b).toNat = if b then 1 else 0 := by
  cases b <;> rfl

theorem lt_eq_isLT (x y : BitVec w) : decide (x < y) = (compare x.toNat y.toNat).isLT := by
  rw [Bool.eq_iff_iff, decide_eq_true_iff, Ordering.isLT_iff_eq_lt, Nat.compare_eq_lt,
    BitVec.lt_def]

theorem gt_eq_isGT (x y : BitVec w) : decide (x > y) = (compare x.toNat y.toNat).isGT := by
  rw [Bool.eq_iff_iff, decide_eq_true_iff, Ordering.isGT_iff_eq_gt, Nat.compare_eq_gt, gt_iff_lt,
    BitVec.lt_def]

theorem ge_eq_isGE (x y : BitVec w) : decide (x ≥ y) = (compare x.toNat y.toNat).isGE := by
  rw [← Ordering.not_isLT_eq_isGE, ← lt_eq_isLT, ← decide_not, decide_eq_decide, ge_iff_le,
    BitVec.not_lt]

theorem le_eq_isGE (x y : ℕ) : decide (y ≤ x) = (compare x y).isGE := by
  rw [← Ordering.not_isLT_eq_isGE, Bool.eq_iff_iff, Bool.not_eq_true', Bool.eq_false_iff, Ne,
    Ordering.isLT_iff_eq_lt, Nat.compare_eq_lt, decide_eq_true_iff, Nat.not_lt]

theorem lt_eq_isGT (x y : ℕ) : decide (y < x) = (compare x y).isGT := by
  rw [Bool.eq_iff_iff, decide_eq_true_iff, Ordering.isGT_iff_eq_gt, Nat.compare_eq_gt]

/-- No word is above the all-ones word. -/
theorem isGT_allOnes {x y : BitVec w} (hy : y.toNat = 2 ^ w - 1) :
    (compare x.toNat y.toNat).isGT = false := by
  have hx := x.isLt
  rw [Bool.eq_false_iff, Ne, Ordering.isGT_iff_eq_gt, Nat.compare_eq_gt, hy]
  omega

section

variable (hw : 2 ≤ w) (hk : (2 ^ w) ^ k = 2 ^ 256)

include hw

/-- Twice a limb and a little more stay clear of the double width. -/
theorem small_column {x : ℕ} (h : x ≤ 3 * (2 ^ w - 1)) : x + 2 ^ w ≤ 2 ^ (2 * w) := by
  have hB : 4 ≤ 2 ^ w := (Nat.pow_le_pow_right (by omega) hw : 2 ^ 2 ≤ 2 ^ w)
  have hsq : 2 ^ (2 * w) = 2 ^ w * 2 ^ w := by rw [two_mul, pow_add]
  have : 4 * 2 ^ w ≤ 2 ^ w * 2 ^ w := Nat.mul_le_mul_right _ hB
  omega

/-- A sum of two limbs in the double width. -/
theorem toNat_wide_add (x y : BitVec w) : (wide x + wide y).toNat = x.toNat + y.toNat := by
  have := x.isLt
  have := y.isLt
  have := small_column hw (x := x.toNat + y.toNat) (by omega)
  exact Word.toNat_add (toNat_wide x) (toNat_wide y) (by have := Nat.two_pow_pos w; omega)

include hk

theorem addChain_spec (a b : Fin k → BitVec w) :
    Limbs.val (addChain a b).1 + 2 ^ 256 * (addChain a b).2.toNat = Limbs.val a + Limbs.val b := by
  have hcol : ∀ i, (wide (a i) + wide (b i)).toNat = (a i).toNat + (b i).toNat := fun i =>
    toNat_wide_add hw _ _
  have h := (Limbs.carry_spec (w := w) (t := 0) (x := fun i => wide (a i) + wide (b i))
    (Nat.two_pow_pos w) fun i => by
      have := (a i).isLt
      have := (b i).isLt
      rw [hcol]
      exact small_column hw (by omega)).1
  rw [← hk]
  simp only [addChain]
  rw [h, Word.toNat_zero, zero_add, Limbs.val, Limbs.val, ← Limbs.eval_add]
  exact congrArg _ (funext hcol)

/-- A chain that adds `q * c[i]` to the limbs `r[i]`, for `q` at most 2. -/
theorem foldChain_spec {r c : Fin k → BitVec w} {x : Fin k → BitVec (2 * w)} {q : ℕ} (hq : q ≤ 2)
    (hx : ∀ i, (x i).toNat = (r i).toNat + q * (c i).toNat) :
    Limbs.val (Limbs.carry 0 x).1 + 2 ^ 256 * (Limbs.carry 0 x).2.toNat =
      Limbs.val r + q * Limbs.val c := by
  have h := (Limbs.carry_spec (w := w) (t := 0) (x := x) (Nat.two_pow_pos w) fun i => by
    have := (r i).isLt
    have := (c i).isLt
    have : q * (c i).toNat ≤ 2 * (c i).toNat := Nat.mul_le_mul_right _ hq
    rw [hx]
    exact small_column hw (by omega)).1
  rw [hk] at h
  rw [h, Word.toNat_zero, zero_add, Limbs.val, Limbs.val, ← Limbs.eval_mul, ← Limbs.eval_add]
  exact congrArg _ (funext hx)

/-- The columns of a negation add up to `N + 2^256 - a`. -/
theorem negate_columns [NeZero k] {N a : Fin k → BitVec w} {x : Fin k → BitVec (2 * w)}
    (hx : ∀ i, (x i).toNat = (~~~a i).toNat + (N i).toNat + if i = 0 then 1 else 0) :
    Limbs.val (Limbs.carry 0 x).1 = (2 ^ 256 + Limbs.val N - Limbs.val a) % 2 ^ 256 := by
  have h := Limbs.carry_fits (w := w) (t := 0) (x := x) (Nat.two_pow_pos w) fun i => by
    have := (~~~a i).isLt
    have := (N i).isLt
    have hB : 4 ≤ 2 ^ w := (Nat.pow_le_pow_right (by omega) hw : 2 ^ 2 ≤ 2 ^ w)
    have hle : (if i = 0 then 1 else 0) ≤ 1 := by split <;> omega
    rw [hx]
    exact small_column hw (by omega)
  have hone : Limbs.eval (2 ^ w) (fun i : Fin k => if i = 0 then 1 else 0) = 1 := by
    simp [Limbs.eval]
  have hnot := Limbs.val_not a
  rw [h, hk, Word.toNat_zero, zero_add, funext hx, Limbs.eval_add, Limbs.eval_add, hone]
  rw [hk] at hnot
  change (Limbs.val (fun i => ~~~a i) + Limbs.val N + 1) % 2 ^ 256 = _
  congr 1
  omega

theorem negateChain_spec [NeZero k] (N a : Fin k → BitVec w) :
    Limbs.val (negateChain N a) = (2 ^ 256 + Limbs.val N - Limbs.val a) % 2 ^ 256 := by
  refine negate_columns hw hk fun i => ?_
  have := (~~~a i).isLt
  have := (N i).isLt
  have hB : 4 ≤ 2 ^ w := (Nat.pow_le_pow_right (by omega) hw : 2 ^ 2 ≤ 2 ^ w)
  have hcap := small_column hw (x := 3 * (2 ^ w - 1)) le_rfl
  have hone : (if i = 0 then 1 else 0 : BitVec (2 * w)).toNat = if i = 0 then 1 else 0 := by
    split
    · exact Nat.mod_eq_of_lt (Nat.one_lt_two_pow (by omega))
    · rfl
  refine Word.toNat_add (toNat_wide_add hw _ _) hone ?_
  split <;> omega

/-- Under the full mask the conditional negation is the negation. -/
theorem condNegateChain_allOnes [NeZero k] {N : Fin k → BitVec w} (r : Fin k → BitVec w)
    (hN : (N 0).toNat + 1 < 2 ^ w) :
    Limbs.val (condNegateChain N (BitVec.allOnes w) r) =
      (2 ^ 256 + Limbs.val N - Limbs.val r) % 2 ^ 256 := by
  refine negate_columns hw hk fun i => ?_
  have h1 : (1 : BitVec w).toNat = 1 := Nat.mod_eq_of_lt (Nat.one_lt_two_pow (by omega))
  rw [BitVec.xor_allOnes, BitVec.and_allOnes, toNat_wide_add hw, add_assoc]
  by_cases hi : i = 0
  · rw [if_pos hi, if_pos hi, hi, Word.toNat_add rfl h1 hN]
  · rw [if_neg hi, if_neg hi, add_zero]

omit hk in
theorem condNegateChain_zero [NeZero k] (N r : Fin k → BitVec w) :
    condNegateChain N 0 r = r := by
  have hcol : ∀ i, (wide (r i ^^^ 0) + wide ((if i = 0 then N i + 1 else N i) &&& 0)).toNat =
      (r i).toNat := by
    intro i
    rw [toNat_wide_add hw]
    simp
  have h := Limbs.carry_fits (w := w) (t := 0)
    (x := fun i => wide (r i ^^^ 0) + wide ((if i = 0 then N i + 1 else N i) &&& 0))
    (Nat.two_pow_pos w) fun i => by
      have := (r i).isLt
      rw [hcol]
      exact small_column hw (by omega)
  apply Limbs.val_inj
  rw [condNegateChain, h, funext hcol, Word.toNat_zero, zero_add]
  exact Nat.mod_eq_of_lt (Limbs.val_lt r)

end

/-- The overflow of a sum: its carry, and whether what is left reaches the order. -/
theorem toNat_overflow (hw : 2 ≤ w) {c : BitVec (2 * w)} (hc : c.toNat ≤ 1) (b : Bool) :
    ((c + (ofBool b).signExtend (2 * w)).setWidth 32).toNat = c.toNat + if b then 1 else 0 := by
  have hB : 4 ≤ 2 ^ (2 * w) :=
    (Nat.pow_le_pow_right (by omega) (by omega) : 2 ^ 2 ≤ 2 ^ (2 * w))
  have hb : ((ofBool b).signExtend (2 * w)).toNat = if b then 1 else 0 := by
    have hmsb : (ofBool b).msb = false := by cases b <;> rfl
    rw [BitVec.signExtend_eq_setWidth_of_msb_false hmsb]
    exact Word.toNat_setWidth (toNat_ofBool b) (by split <;> omega)
  have hle : (if b then 1 else 0) ≤ 1 := by split <;> omega
  exact Word.toNat_setWidth (Word.toNat_add rfl hb (by omega)) (by omega)

/-- A result masked with all ones or with zero. -/
theorem mask_val {r : Fin k → BitVec w} {z : Bool} {m : BitVec w}
    (hm : m = if z then 0 else BitVec.allOnes w) :
    Limbs.val (fun i => r i &&& m) = if z then 0 else Limbs.val r := by
  cases z with
  | false => simp only [hm, Bool.false_eq_true, if_false, BitVec.and_allOnes]
  | true =>
    simp only [hm, if_true]
    rw [← Limbs.val_zero (w := w) (k := k)]
    exact congrArg _ (funext fun i => BitVec.and_zero)

/-! ## The arithmetic of the reductions -/

/-- `2 ^ 256 - n`, the number `SECP256K1_N_C` denotes. -/
def nc : ℕ := 0x14551231950B75FC4402DA1732FC9BEBF

theorem n_add_nc : n + nc = 2 ^ 256 := by norm_num [n, nc]

theorem nc_lt : nc < 2 ^ 129 := by norm_num [nc]

theorem nc_sq_lt : nc * nc < 2 * 2 ^ 256 := by norm_num [nc]

/-- The last step of every reduction: one conditional subtraction of the order. -/
theorem reduce_once {r c : ℕ} (hr : r < 2 ^ 256) (h : r + 2 ^ 256 * c < 2 * n) :
    c + (if n ≤ r then 1 else 0) = (if n ≤ r + 2 ^ 256 * c then 1 else 0) ∧
      (r + (c + if n ≤ r then 1 else 0) * nc) % 2 ^ 256 = (r + 2 ^ 256 * c) % n := by
  have hn := n_add_nc
  have hnc := nc_lt
  generalize nc = d at *
  generalize n = m at *
  have hc : c ≤ 1 := by omega
  rcases Nat.le_one_iff_eq_zero_or_eq_one.mp hc with rfl | rfl
  · rw [mul_zero, add_zero, zero_add]
    refine ⟨rfl, ?_⟩
    split
    · have h1 : r % m = r - m := by
        rw [Nat.mod_eq_sub_mod ‹_›, Nat.mod_eq_of_lt (by omega)]
      rw [h1]
      omega
    · rw [zero_mul, add_zero, Nat.mod_eq_of_lt hr, Nat.mod_eq_of_lt (by omega)]
  · have h1 : ¬ m ≤ r := by omega
    have h2 : m ≤ r + 2 ^ 256 * 1 := by omega
    have h3 : (r + 2 ^ 256 * 1) % m = r + 2 ^ 256 * 1 - m := by
      rw [Nat.mod_eq_sub_mod h2, Nat.mod_eq_of_lt (by omega)]
    rw [if_neg h1, if_pos h2, h3]
    omega

theorem two_n_gt : 2 ^ 256 < 2 * n := by norm_num [n]

/-- The negation of a scalar, as the chain and the mask give it. -/
theorem negate_arith {a : ℕ} (h : a < n) :
    (if decide (a = 0) then 0 else (2 ^ 256 + n - a) % 2 ^ 256) = (n - a) % n := by
  have hn := n_lt
  generalize n = m at *
  by_cases h0 : a = 0
  · simp only [h0, decide_true, if_true, Nat.sub_zero, Nat.mod_self]
  · rw [decide_eq_false h0, if_neg Bool.false_ne_true, Nat.mod_eq_of_lt (b := m) (by omega)]
    omega

/-- Negation under a mask that is zero for the scalar 0. -/
theorem negate_masked [NeZero k] (hw : 2 ≤ w) (hk : (2 ^ w) ^ k = 2 ^ 256) {N a : Fin k → BitVec w}
    (hN : Limbs.val N = n) {m : BitVec w}
    (hm : m = if decide (Limbs.val a = 0) then 0 else BitVec.allOnes w) (h : Limbs.val a < n) :
    Limbs.val (fun i => negateChain N a i &&& m) = (n - Limbs.val a) % n := by
  rw [mask_val hm, negateChain_spec hw hk, hN, negate_arith h]

theorem condNegate_masked [NeZero k] (hw : 2 ≤ w) (hk : (2 ^ w) ^ k = 2 ^ 256)
    {N a : Fin k → BitVec w} (hN : Limbs.val N = n) (hN0 : (N 0).toNat + 1 < 2 ^ w)
    {m : BitVec w} (hm : m = if decide (Limbs.val a = 0) then 0 else BitVec.allOnes w)
    (h : Limbs.val a < n) (flag : CInt) :
    Limbs.val (fun i => condNegateChain N (maskOf w flag) a i &&& m) =
        (if flag = 0 then Limbs.val a else (n - Limbs.val a) % n) ∧
      2 * ofBool (maskOf w flag = 0) - 1 = (if flag = 0 then 1 else -1 : CInt) := by
  rw [mask_val hm, maskOf_eq]
  by_cases hf : flag = 0
  · rw [if_pos hf, if_pos hf, if_pos hf, condNegateChain_zero hw, decide_eq_true rfl]
    refine ⟨?_, rfl⟩
    by_cases h0 : Limbs.val a = 0
    · rw [decide_eq_true h0, if_pos rfl, h0]
    · rw [decide_eq_false h0, if_neg Bool.false_ne_true]
  · have hones : BitVec.allOnes w ≠ 0 := fun h0 => by
      have := congrArg BitVec.toNat h0
      rw [BitVec.toNat_allOnes, Word.toNat_zero] at this
      have := Nat.one_lt_two_pow (show w ≠ 0 by omega)
      omega
    rw [if_neg hf, if_neg hf, if_neg hf, condNegateChain_allOnes hw hk _ hN0, hN, negate_arith h,
      decide_eq_false hones]
    exact ⟨rfl, rfl⟩

/-- The first fold leaves 385 bits. -/
theorem first_fold_lt {lo hi Q : ℕ} (hlo : lo < 2 ^ 256) (hhi : hi < 2 ^ 256)
    (hQ : Q = 2 ^ (256 + 128)) : lo + hi * nc < Q * 2 := by
  calc lo + hi * nc < 2 ^ 256 + 2 ^ 256 * nc :=
        Nat.add_lt_add_of_lt_of_le hlo (Nat.mul_le_mul_right _ hhi.le)
    _ = 2 ^ 256 * (nc + 1) := by ring
    _ ≤ 2 ^ 256 * 2 ^ 129 := Nat.mul_le_mul_left _ nc_lt
    _ = Q * 2 := by rw [hQ, ← pow_add, ← pow_succ]

/-- The second fold leaves 258 bits: its quotient by `2 ^ 256` is at most 2. -/
theorem second_fold_lt {lo hi mlo mhi : ℕ} (hlo : lo < 2 ^ 256) (hhi : hi < 2 ^ 256)
    (hmlo : mlo < 2 ^ 256) (hm : mlo + 2 ^ 256 * mhi = lo + hi * nc) :
    mlo + mhi * nc < 3 * 2 ^ 256 := by
  have hsq := nc_sq_lt
  have hmhi : mhi ≤ nc := by
    by_contra hgt
    have h1 : 2 ^ 256 * (nc + 1) ≤ 2 ^ 256 * mhi := Nat.mul_le_mul_left _ (by omega)
    have h2 : hi * nc ≤ (2 ^ 256 - 1) * nc := Nat.mul_le_mul_right _ (by omega)
    generalize nc = d at *
    omega
  have h1 : mhi * nc ≤ nc * nc := Nat.mul_le_mul_right _ hmhi
  omega

/-- The three folds of `secp256k1_scalar_reduce_512`: 512 bits into 385, into 258, into 257. -/
theorem fold_thrice {lo hi mlo mhi plo phi : ℕ} (hplo : plo < 2 ^ 256) (hphi : phi ≤ 2)
    (hm : mlo + 2 ^ 256 * mhi = lo + hi * nc) (hp : plo + 2 ^ 256 * phi = mlo + mhi * nc) :
    plo + phi * nc < 2 * n ∧ (plo + phi * nc) % n = (lo + 2 ^ 256 * hi) % n := by
  have hn := n_add_nc
  have hnc := nc_lt
  have hT : phi * nc ≤ 2 * nc := Nat.mul_le_mul_right _ hphi
  refine ⟨by omega, ?_⟩
  have e1 : plo + phi * nc + (phi + mhi) * n = lo + hi * nc := by
    rw [← hn] at hm hp
    linarith [hm, hp, add_mul phi mhi n, add_mul n nc phi, add_mul n nc mhi, mul_comm n phi,
      mul_comm nc phi, mul_comm n mhi, mul_comm nc mhi]
  have e2 : lo + hi * nc + hi * n = lo + 2 ^ 256 * hi := by
    rw [← hn]
    ring
  calc (plo + phi * nc) % n = (plo + phi * nc + (phi + mhi) * n) % n :=
        (Nat.add_mul_mod_self_right _ _ _).symm
    _ = (lo + hi * nc + hi * n) % n := by rw [e1, Nat.add_mul_mod_self_right]
    _ = (lo + 2 ^ 256 * hi) % n := by rw [e2]

/-! ## The routines built on the reduction -/

/-- What `secp256k1_scalar_check_overflow` and `secp256k1_scalar_reduce` of a backend compute. -/
structure Reduces (check : (Fin k → BitVec w) → CInt)
    (reduce : (Fin k → BitVec w) → CInt → Fin k → BitVec w) : Prop where
  width : 2 ≤ w
  limbs : (2 ^ w) ^ k = 2 ^ 256
  overflow : ∀ a, check a = ofBool (n ≤ Limbs.val a)
  adds : ∀ r {ov : CInt} {o : ℕ}, ov.toNat = o → o ≤ 1 →
    Limbs.val (reduce r ov) = (Limbs.val r + o * nc) % 2 ^ 256

namespace Reduces

variable {check : (Fin k → BitVec w) → CInt}
  {reduce : (Fin k → BitVec w) → CInt → Fin k → BitVec w} (R : Reduces check reduce)
include R

theorem val_lt (a : Fin k → BitVec w) : Limbs.val a < 2 ^ 256 := R.limbs ▸ Limbs.val_lt a

/-- The final reduction of a number of 256 bits and a carry. -/
theorem final (r : Fin k → BitVec w) {ov : CInt} {c : ℕ}
    (hov : ov.toNat = c + if decide (n ≤ Limbs.val r) then 1 else 0)
    (h : Limbs.val r + 2 ^ 256 * c < 2 * n) :
    Limbs.val (reduce r ov) = (Limbs.val r + 2 ^ 256 * c) % n ∧
      ov = ofBool (n ≤ Limbs.val r + 2 ^ 256 * c) := by
  obtain ⟨h1, h2⟩ := reduce_once (R.val_lt r) h
  simp only [decide_eq_true_eq] at hov
  constructor
  · rw [R.adds r hov (by rw [h1]; split <;> omega), h2]
  · apply BitVec.eq_of_toNat_eq
    rw [hov, h1, toNat_ofBool]
    simp only [decide_eq_true_eq]

/-- The same with the carry in the word a chain leaves. -/
theorem carried (r : Fin k → BitVec w) {c : BitVec (2 * w)}
    (h : Limbs.val r + 2 ^ 256 * c.toNat < 2 * n) :
    Limbs.val (reduce r ((c + (check r).signExtend (2 * w)).setWidth 32)) =
        (Limbs.val r + 2 ^ 256 * c.toNat) % n ∧
      (c + (check r).signExtend (2 * w)).setWidth 32 =
        ofBool (n ≤ Limbs.val r + 2 ^ 256 * c.toNat) := by
  have hn := n_lt
  rw [R.overflow]
  exact R.final r (toNat_overflow R.width (by omega) _) h

theorem add {a b : Fin k → BitVec w} (ha : Limbs.val a < n) (hb : Limbs.val b < n) :
    Limbs.val (addReduced check reduce a b).1 = (Limbs.val a + Limbs.val b) % n ∧
      (addReduced check reduce a b).2 = ofBool (n ≤ Limbs.val a + Limbs.val b) := by
  have hsum := addChain_spec R.width R.limbs a b
  unfold addReduced
  generalize addChain a b = rt at hsum ⊢
  have h := R.carried rt.1 (c := rt.2) (by rw [hsum]; omega)
  rwa [hsum] at h

theorem setB32 {r : Fin k → BitVec w} {b : Fin 32 → Byte} (hr : Limbs.val r = Bytes.be b) :
    Limbs.val (checkReduced check reduce r).1 = Bytes.be b % n ∧
      (checkReduced check reduce r).2 = ofBool (n ≤ Bytes.be b) := by
  have hlt := (R.val_lt r).trans two_n_gt
  have hov : (check r).toNat = 0 + if decide (n ≤ Limbs.val r) then 1 else 0 := by
    rw [R.overflow, toNat_ofBool, zero_add]
  have h := R.final r hov (by rwa [mul_zero, add_zero])
  unfold checkReduced
  rwa [mul_zero, add_zero, hr] at h

end Reduces

/-- What the products of a backend and their reduction compute, with nothing lost in the column
accumulators. -/
structure Multiplies {k' : ℕ}
    (mul512 : (Fin k → BitVec w) → (Fin k → BitVec w) → (Fin k' → BitVec w) × Bool)
    (sqr512 : (Fin k → BitVec w) → (Fin k' → BitVec w) × Bool)
    (reduce512 : (Fin k' → BitVec w) → (Fin k → BitVec w) × Bool) : Prop where
  mul512 : ∀ a b, Limbs.val (mul512 a b).1 = Limbs.val a * Limbs.val b ∧ (mul512 a b).2 = true
  sqr512 : ∀ a, Limbs.val (sqr512 a).1 = Limbs.val a * Limbs.val a ∧ (sqr512 a).2 = true
  reduce512 : ∀ l, Limbs.val (reduce512 l).1 = Limbs.val l % n ∧ (reduce512 l).2 = true

namespace Multiplies

variable {k' : ℕ} {mul512 : (Fin k → BitVec w) → (Fin k → BitVec w) → (Fin k' → BitVec w) × Bool}
  {sqr512 : (Fin k → BitVec w) → (Fin k' → BitVec w) × Bool}
  {reduce512 : (Fin k' → BitVec w) → (Fin k → BitVec w) × Bool}
  (M : Multiplies mul512 sqr512 reduce512)
include M

theorem product {l : (Fin k' → BitVec w) × Bool} {x : ℕ} (hl : Limbs.val l.1 = x ∧ l.2 = true) :
    Limbs.val (productReduced reduce512 l).1 = x % n ∧ (productReduced reduce512 l).2 = true := by
  obtain ⟨l, ok⟩ := l
  obtain ⟨rfl, rfl⟩ := hl
  obtain ⟨hr, hok⟩ := M.reduce512 l
  exact ⟨hr, (Bool.true_and _).trans hok⟩

theorem mul (a b : Fin k → BitVec w) :
    Limbs.val (productReduced reduce512 (mul512 a b)).1 = Limbs.val a * Limbs.val b % n ∧
      (productReduced reduce512 (mul512 a b)).2 = true :=
  M.product (M.mul512 a b)

theorem sqr (a : Fin k → BitVec w) :
    Limbs.val (productReduced reduce512 (sqr512 a)).1 = Limbs.val a * Limbs.val a % n ∧
      (productReduced reduce512 (sqr512 a)).2 = true :=
  M.product (M.sqr512 a)

end Multiplies

end Secp256k1.Scalar
