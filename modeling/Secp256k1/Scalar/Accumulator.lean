import Secp256k1.Lib.Limbs

/-!
# The column accumulators of the scalar code

The macros `muladd`, `muladd2`, `sumadd`, `extract` and their `_fast` forms, shared by
`scalar_4x64_impl.h` and `scalar_8x32_impl.h`. The accumulator is a number of three words
`(c0, c1, c2)`; the top word may be narrower. `ok` is the conjunction of the conditions of the
macros' contracts, the source's `VERIFY_CHECK`s among them: no carry out of `c2` is lost, and in
the fast forms none out of `c1`.

A column routine is a list of macro calls. Whether it fits the accumulator depends on the operands
only through upper bounds, so that one run over the largest operands settles it for all.
-/

namespace Secp256k1.Scalar

/-- A call of one of the macros, with operands in `α`. -/
inductive AccOp (α : Type) where
  | muladd (a b : α)
  | muladdFast (a b : α)
  | muladd2 (a b : α)
  | sumadd (a : α)
  | sumaddFast (a : α)
  | extract
  | extractFast
  deriving DecidableEq, Repr

/-- The accumulator: words of `w` bits, the top one of `v`. -/
structure Acc (w v : ℕ) where
  c0 : BitVec w
  c1 : BitVec w
  c2 : BitVec v
  ok : Bool
  deriving DecidableEq, Repr

namespace Acc

variable {w v : ℕ}

/-- `c0 = x; c1 = 0; c2 = 0`. -/
def init (x : BitVec w) : Acc w v := ⟨x, 0, 0, true⟩

/-- `cond ? 1 : 0`. -/
def bit (k : ℕ) (c : Bool) : BitVec k := if c then 1 else 0

/-- The two halves `tl` and `th` of `(uint128_t)a * b`. -/
def mulWide (a b : BitVec w) : BitVec w × BitVec w :=
  let t := a.setWidth (2 * w) * b.setWidth (2 * w)
  (t.setWidth w, (t >>> w).setWidth w)

def muladd (s : Acc w v) (a b : BitVec w) : Acc w v :=
  let (tl, th) := mulWide a b
  let c0 := s.c0 + tl
  let th := th + bit w (c0 < tl)
  let c1 := s.c1 + th
  let c2 := s.c2 + bit v (c1 < th)
  ⟨c0, c1, c2, s.ok && (th ≤ c1 || c2 ≠ 0)⟩

def muladdFast (s : Acc w v) (a b : BitVec w) : Acc w v :=
  let (tl, th) := mulWide a b
  let c0 := s.c0 + tl
  let th := th + bit w (c0 < tl)
  let c1 := s.c1 + th
  ⟨c0, c1, s.c2, s.ok && th ≤ c1⟩

def muladd2 (s : Acc w v) (a b : BitVec w) : Acc w v :=
  let (tl, th) := mulWide a b
  let th2 := th + th
  let c2 := s.c2 + bit v (th2 < th)
  let ok := s.ok && (th ≤ th2 || c2 ≠ 0)
  let tl2 := tl + tl
  let th2 := th2 + bit w (tl2 < tl)
  let c0 := s.c0 + tl2
  let th2 := th2 + bit w (c0 < tl2)
  let c2 := c2 + bit v (c0 < tl2 && th2 = 0)
  let ok := ok && (tl2 ≤ c0 || th2 ≠ 0 || c2 ≠ 0)
  let c1 := s.c1 + th2
  let c2 := c2 + bit v (c1 < th2)
  let ok := ok && (th2 ≤ c1 || c2 ≠ 0)
  ⟨c0, c1, c2, ok⟩

def sumadd (s : Acc w v) (a : BitVec w) : Acc w v :=
  let c0 := s.c0 + a
  let ov := bit w (c0 < a)
  let c1 := s.c1 + ov
  let c2 := s.c2 + bit v (c1 < ov)
  ⟨c0, c1, c2, s.ok && (ov ≤ c1 || c2 ≠ 0)⟩

def sumaddFast (s : Acc w v) (a : BitVec w) : Acc w v :=
  let c0 := s.c0 + a
  let c1 := s.c1 + bit w (c0 < a)
  ⟨c0, c1, s.c2, s.ok && (c1 ≠ 0 || a ≤ c0) && s.c2 = 0⟩

/-- The word extracted is `c0`. -/
def extract (s : Acc w v) : Acc w v := ⟨s.c1, s.c2.setWidth w, 0, s.ok⟩

/-- The word extracted is `c0`. -/
def extractFast (s : Acc w v) : Acc w v := ⟨s.c1, 0, s.c2, s.ok && s.c2 = 0⟩

def exec (s : Acc w v) : AccOp (BitVec w) → Acc w v
  | .muladd a b => s.muladd a b
  | .muladdFast a b => s.muladdFast a b
  | .muladd2 a b => s.muladd2 a b
  | .sumadd a => s.sumadd a
  | .sumaddFast a => s.sumaddFast a
  | .extract => s.extract
  | .extractFast => s.extractFast

end Acc

namespace AccOp

variable {α β : Type}

def map (f : α → β) : AccOp α → AccOp β
  | muladd a b => muladd (f a) (f b)
  | muladdFast a b => muladdFast (f a) (f b)
  | muladd2 a b => muladd2 (f a) (f b)
  | sumadd a => sumadd (f a)
  | sumaddFast a => sumaddFast (f a)
  | extract => extract
  | extractFast => extractFast

/-- The call writes `c0` out and shifts the accumulator. -/
def extracts : AccOp α → Bool
  | extract => true
  | extractFast => true
  | _ => false

end AccOp

/-- A sequence of macro calls: the accumulator at the end and the words extracted. -/
def Acc.run {w v : ℕ} (s : Acc w v) : List (AccOp (BitVec w)) → Acc w v × List (BitVec w)
  | [] => (s, [])
  | op :: ops =>
    let r := (s.exec op).run ops
    (r.1, if op.extracts then s.c0 :: r.2 else r.2)

/-! ## What one call does -/

namespace Acc

variable {w v : ℕ}

/-- The number `(c0, c1, c2)`. -/
def val (s : Acc w v) : ℕ := s.c0.toNat + 2 ^ w * (s.c1.toNat + 2 ^ w * s.c2.toNat)

theorem toNat_bit {k : ℕ} (hk : 0 < k) (c : Bool) : (bit k c).toNat = c.toNat := by
  cases c with
  | false => rfl
  | true => exact Nat.mod_eq_of_lt (Nat.one_lt_two_pow hk.ne')

theorem init_val (x : BitVec w) : (init x : Acc w v).val = x.toNat := by
  simp only [init, val, Word.toNat_zero, mul_zero, add_zero]

theorem mulWide_spec (hw : 0 < w) (a b : BitVec w) :
    (mulWide a b).1.toNat + 2 ^ w * (mulWide a b).2.toNat = a.toNat * b.toNat ∧
      (mulWide a b).2.toNat + 2 ≤ 2 ^ w := by
  have ha := a.isLt
  have hb := b.isLt
  have hB : 2 ^ w < 2 ^ (2 * w) := Nat.pow_lt_pow_right Nat.one_lt_two (by omega)
  have hab : a.toNat * b.toNat + 2 * 2 ^ w ≤ 2 ^ w * 2 ^ w + 1 := by nlinarith
  have hsq : 2 ^ (2 * w) = 2 ^ w * 2 ^ w := by rw [two_mul, pow_add]
  have hpos : 1 < 2 ^ w := Nat.one_lt_two_pow hw.ne'
  have ht : (a.setWidth (2 * w) * b.setWidth (2 * w)).toNat = a.toNat * b.toNat :=
    Word.toNat_mul (Word.toNat_setWidth rfl (by omega)) (Word.toNat_setWidth rfl (by omega))
      (by omega)
  have hhi : a.toNat * b.toNat / 2 ^ w + 2 ≤ 2 ^ w := by
    have hlt : a.toNat * b.toNat / 2 ^ w < 2 ^ w - 1 := by
      rw [Nat.div_lt_iff_lt_mul (by omega), Nat.sub_mul]
      omega
    omega
  have h1 : (mulWide a b).1.toNat = a.toNat * b.toNat % 2 ^ w := Word.toNat_truncate ht
  have h2 : (mulWide a b).2.toNat = a.toNat * b.toNat / 2 ^ w :=
    Word.toNat_setWidth (Word.toNat_shr w ht) (by omega)
  rw [h1, h2]
  exact ⟨Nat.mod_add_div _ _, hhi⟩

/-- The top word keeps a carry as long as the number fits the accumulator. -/
theorem top_lt {B V x y z m : ℕ} (h : x + B * (y + B * z) = m)
    (hm : m < B * (B * V)) : z < V := by
  have h1 : B * (B * z) < B * (B * V) := by
    calc B * (B * z) ≤ x + B * (y + B * z) := by nlinarith
      _ < B * (B * V) := h ▸ hm
  exact Nat.lt_of_mul_lt_mul_left (Nat.lt_of_mul_lt_mul_left h1)

theorem toNat_add_bit {k : ℕ} (hk : 0 < k) {x : BitVec k} {a : ℕ} (hx : x.toNat = a) (c : Bool)
    (h : a + c.toNat < 2 ^ k) : (x + bit k c).toNat = a + c.toNat :=
  Word.toNat_add hx (toNat_bit hk c) h

/-- A word that has taken up a carry without wrapping is not zero. -/
theorem add_bit_check {k : ℕ} (hk : 0 < k) {x : BitVec k} {a : ℕ} (hx : x.toNat = a) {c : Bool}
    (h : a + c.toNat < 2 ^ k) : (!c || x + bit k c ≠ 0) = true := by
  cases c with
  | false => rfl
  | true =>
    have hs := toNat_add_bit hk hx true h
    have hne : x + bit k true ≠ 0 := by
      intro h0
      rw [h0, Word.toNat_zero, Bool.toNat_true] at hs
      omega
    rw [decide_eq_true hne, Bool.or_true]

theorem le_eq_not_lt {k : ℕ} (x y : BitVec k) : decide (x ≤ y) = !decide (y < x) := by
  rw [← decide_not, decide_eq_decide, BitVec.not_lt]

/-- The halves of a doubled product, as the macro computes them. -/
theorem double_carry (hw : 0 < w) {th : BitVec w} (tl : BitVec w) (hth : th.toNat + 2 ≤ 2 ^ w) :
    (th + th).toNat + (decide (tl + tl < tl)).toNat < 2 ^ w := by
  have e := Word.add_carry th th
  have hk := (decide (tl + tl < tl)).toNat_le
  have heven : 2 ^ w = 2 * 2 ^ (w - 1) := by rw [← pow_succ', Nat.sub_add_cancel hw]
  have hlt := (th + th).isLt
  rcases Bool.eq_false_or_eq_true (decide (th + th < th)) with hc | hc
  · rw [hc, Bool.toNat_true] at e
    omega
  · rw [hc, Bool.toNat_false] at e
    omega

/-- A carry into a word that is not zero afterwards did not wrap it. -/
theorem add_bit_wrap (hw : 0 < w) {x : BitVec w} {c : Bool} :
    (x + bit w c).toNat + 2 ^ w * (c && decide (x + bit w c = 0)).toNat = x.toNat + c.toNat := by
  have hx := x.isLt
  have hpos : 1 < 2 ^ w := Nat.one_lt_two_pow hw.ne'
  have hsum : (x + bit w c).toNat = (x.toNat + c.toNat) % 2 ^ w := by
    rw [BitVec.toNat_add, toNat_bit hw]
  cases c with
  | false =>
    rw [hsum, Bool.false_and, Bool.toNat_false, mul_zero, add_zero, add_zero,
      Nat.mod_eq_of_lt hx]
  | true =>
    rw [Bool.toNat_true] at hsum ⊢
    rcases Nat.lt_or_ge (x.toNat + 1) (2 ^ w) with h | h
    · rw [Nat.mod_eq_of_lt h] at hsum
      have hne : x + bit w true ≠ 0 := by
        intro h0
        rw [h0, Word.toNat_zero] at hsum
        omega
      rw [decide_eq_false hne, hsum]
      rfl
    · have he : x.toNat + 1 = 2 ^ w := by omega
      rw [he, Nat.mod_self] at hsum
      have h0 : x + bit w true = 0 := BitVec.eq_of_toNat_eq (hsum.trans Word.toNat_zero.symm)
      rw [decide_eq_true h0, hsum, he]
      simp

section

variable (hw : 0 < w) (hv : 0 < v) (s : Acc w v) (a b : BitVec w)

include hw

theorem muladdFast_spec (h : s.val + a.toNat * b.toNat < 2 ^ w * 2 ^ w) :
    (s.muladdFast a b).val = s.val + a.toNat * b.toNat ∧ (s.muladdFast a b).ok = s.ok := by
  obtain ⟨hab, hth⟩ := mulWide_spec hw a b
  simp only [muladdFast]
  generalize (mulWide a b).1 = tl at hab ⊢
  generalize (mulWide a b).2 = th at hab hth ⊢
  have e0 := Word.add_carry s.c0 tl
  generalize decide (s.c0 + tl < tl) = k0 at e0 ⊢
  have ht := toNat_add_bit hw (x := th) rfl k0 (by have := k0.toNat_le; omega)
  have e1 := Word.add_carry s.c1 (th + bit w k0)
  rw [le_eq_not_lt (th + bit w k0)]
  generalize decide (s.c1 + (th + bit w k0) < th + bit w k0) = k1 at e1 ⊢
  rw [ht] at e1
  have key : (s.c0 + tl).toNat + 2 ^ w * ((s.c1 + (th + bit w k0)).toNat + 2 ^ w *
      (s.c2.toNat + k1.toNat)) = s.val + a.toNat * b.toNat := by
    rw [val, ← hab]
    zify at e0 e1 ⊢
    linear_combination e0 + 2 ^ w * e1
  have htop : s.c2.toNat + k1.toNat < 1 := top_lt key (by rwa [mul_one])
  cases k1 with
  | true => exact absurd htop (by simp)
  | false => exact ⟨key, by rw [Bool.not_false, Bool.and_true]⟩

theorem sumaddFast_spec (h : s.val + a.toNat < 2 ^ w * 2 ^ w) :
    (s.sumaddFast a).val = s.val + a.toNat ∧ (s.sumaddFast a).ok = s.ok := by
  simp only [sumaddFast]
  have e0 := Word.add_carry s.c0 a
  rw [le_eq_not_lt a]
  generalize decide (s.c0 + a < a) = k0 at e0 ⊢
  have e1 := add_bit_wrap hw (x := s.c1) (c := k0)
  have hd : (decide (s.c1 + bit w k0 ≠ 0) || !k0) = !(k0 && decide (s.c1 + bit w k0 = 0)) := by
    rw [Bool.not_and, decide_not, Bool.or_comm]
  generalize s.c1 + bit w k0 = c1 at e1 hd ⊢
  rw [hd]
  generalize (k0 && decide (c1 = 0)) = kd at e1 ⊢
  have key : (s.c0 + a).toNat + 2 ^ w * (c1.toNat + 2 ^ w * (s.c2.toNat + kd.toNat)) =
      s.val + a.toNat := by
    rw [val]
    zify at e0 e1 ⊢
    linear_combination e0 + 2 ^ w * e1
  have htop : s.c2.toNat + kd.toNat < 1 := top_lt key (by rwa [mul_one])
  have hc2 : s.c2 = 0 := BitVec.eq_of_toNat_eq (by rw [Word.toNat_zero]; omega)
  cases kd with
  | true => exact absurd htop (by simp)
  | false =>
    refine ⟨key, ?_⟩
    rw [Bool.not_false, Bool.and_true, decide_eq_true hc2, Bool.and_true]

omit hw in
theorem extract_spec (hvw : v ≤ w) : s.c0.toNat + 2 ^ w * s.extract.val = s.val := by
  have h2 : (s.c2.setWidth w).toNat = s.c2.toNat :=
    Word.toNat_setWidth rfl (s.c2.isLt.trans_le (Nat.pow_le_pow_right (by omega) hvw))
  simp only [extract, val, h2, Word.toNat_zero, mul_zero, add_zero]

omit hw in
theorem extractFast_spec (h : s.val < 2 ^ w * 2 ^ w) :
    s.c0.toNat + 2 ^ w * s.extractFast.val = s.val ∧ s.extractFast.ok = s.ok := by
  have htop : s.c2.toNat < 1 := top_lt rfl (by rwa [mul_one])
  have hc2 : s.c2 = 0 := BitVec.eq_of_toNat_eq (by rw [Word.toNat_zero]; omega)
  simp only [extractFast, val, hc2, Word.toNat_zero, mul_zero, add_zero, decide_true,
    Bool.and_true, and_self]

include hv

theorem muladd_spec (h : s.val + a.toNat * b.toNat < 2 ^ w * (2 ^ w * 2 ^ v)) :
    (s.muladd a b).val = s.val + a.toNat * b.toNat ∧ (s.muladd a b).ok = s.ok := by
  obtain ⟨hab, hth⟩ := mulWide_spec hw a b
  simp only [muladd]
  generalize (mulWide a b).1 = tl at hab ⊢
  generalize (mulWide a b).2 = th at hab hth ⊢
  have e0 := Word.add_carry s.c0 tl
  generalize decide (s.c0 + tl < tl) = k0 at e0 ⊢
  have ht := toNat_add_bit hw (x := th) rfl k0 (by have := k0.toNat_le; omega)
  have e1 := Word.add_carry s.c1 (th + bit w k0)
  rw [le_eq_not_lt (th + bit w k0)]
  generalize decide (s.c1 + (th + bit w k0) < th + bit w k0) = k1 at e1 ⊢
  rw [ht] at e1
  have key : (s.c0 + tl).toNat + 2 ^ w * ((s.c1 + (th + bit w k0)).toNat + 2 ^ w *
      (s.c2.toNat + k1.toNat)) = s.val + a.toNat * b.toNat := by
    rw [val, ← hab]
    zify at e0 e1 ⊢
    linear_combination e0 + 2 ^ w * e1
  have htop := top_lt key h
  refine ⟨?_, ?_⟩
  · rw [← key, val, toNat_add_bit hv rfl k1 htop]
  · rw [add_bit_check hv rfl htop, Bool.and_true]

theorem sumadd_spec (h : s.val + a.toNat < 2 ^ w * (2 ^ w * 2 ^ v)) :
    (s.sumadd a).val = s.val + a.toNat ∧ (s.sumadd a).ok = s.ok := by
  simp only [sumadd]
  have e0 := Word.add_carry s.c0 a
  generalize decide (s.c0 + a < a) = k0 at e0 ⊢
  have e1 := Word.add_carry s.c1 (bit w k0)
  rw [le_eq_not_lt (bit w k0)]
  generalize decide (s.c1 + bit w k0 < bit w k0) = k1 at e1 ⊢
  rw [toNat_bit hw] at e1
  have key : (s.c0 + a).toNat + 2 ^ w * ((s.c1 + bit w k0).toNat + 2 ^ w *
      (s.c2.toNat + k1.toNat)) = s.val + a.toNat := by
    rw [val]
    zify at e0 e1 ⊢
    linear_combination e0 + 2 ^ w * e1
  have htop := top_lt key h
  refine ⟨?_, ?_⟩
  · rw [← key, val, toNat_add_bit hv rfl k1 htop]
  · rw [add_bit_check hv rfl htop, Bool.and_true]

theorem muladd2_spec (h : s.val + 2 * (a.toNat * b.toNat) < 2 ^ w * (2 ^ w * 2 ^ v)) :
    (s.muladd2 a b).val = s.val + 2 * (a.toNat * b.toNat) ∧ (s.muladd2 a b).ok = s.ok := by
  obtain ⟨hab, hth⟩ := mulWide_spec hw a b
  simp only [muladd2]
  generalize (mulWide a b).1 = tl at hab ⊢
  generalize (mulWide a b).2 = th at hab hth ⊢
  have hb := double_carry hw tl hth
  have eh := Word.add_carry th th
  have el := Word.add_carry tl tl
  rw [le_eq_not_lt th]
  generalize decide (th + th < th) = kh at eh ⊢
  generalize decide (tl + tl < tl) = kl at el hb ⊢
  have e2 := toNat_add_bit hw (x := th + th) rfl kl hb
  have e0 := Word.add_carry s.c0 (tl + tl)
  rw [le_eq_not_lt (tl + tl)]
  generalize decide (s.c0 + (tl + tl) < tl + tl) = k0 at e0 ⊢
  have e3 := add_bit_wrap hw (x := th + th + bit w kl) (c := k0)
  have hd : (!k0 || decide (th + th + bit w kl + bit w k0 ≠ 0)) =
      !(k0 && decide (th + th + bit w kl + bit w k0 = 0)) := by
    rw [Bool.not_and, decide_not]
  generalize th + th + bit w kl + bit w k0 = t at e3 hd ⊢
  rw [hd]
  generalize (k0 && decide (t = 0)) = kd at e3 ⊢
  have e1 := Word.add_carry s.c1 t
  rw [le_eq_not_lt t]
  generalize decide (s.c1 + t < t) = k1 at e1 ⊢
  rw [e2] at e3
  have key : (s.c0 + (tl + tl)).toNat + 2 ^ w * ((s.c1 + t).toNat + 2 ^ w *
      (s.c2.toNat + kh.toNat + kd.toNat + k1.toNat)) = s.val + 2 * (a.toNat * b.toNat) := by
    rw [val, ← hab]
    zify at e0 e1 e3 eh el ⊢
    linear_combination e0 + 2 ^ w * e1 + 2 ^ w * e3 + 2 ^ w * eh + el
  have htop := top_lt key h
  have f0 := toNat_add_bit hv (x := s.c2) rfl kh (by omega)
  have f1 := toNat_add_bit hv f0 kd (by omega)
  have f2 := toNat_add_bit hv f1 k1 htop
  refine ⟨?_, ?_⟩
  · rw [← key, val, f2]
  · rw [add_bit_check hv rfl (by omega), add_bit_check hv f0 (by omega),
      add_bit_check hv f1 htop, Bool.and_true, Bool.and_true, Bool.and_true]

end

end Acc

/-! ## Whole routines -/

namespace AccOp

/-- What a call adds to the column. -/
def addend : AccOp ℕ → ℕ
  | muladd a b => a * b
  | muladdFast a b => a * b
  | muladd2 a b => 2 * (a * b)
  | sumadd a => a
  | sumaddFast a => a
  | extract => 0
  | extractFast => 0

/-- The limit a call puts on the accumulator: the capacity `B ^ 2 * V`, or two words. -/
def limit (B V : ℕ) : AccOp ℕ → ℕ
  | muladdFast _ _ => B * B
  | sumaddFast _ => B * B
  | extractFast => B * B
  | _ => B * (B * V)

/-- The number in the accumulator after a call. -/
def next (B : ℕ) (op : AccOp ℕ) (x : ℕ) : ℕ :=
  if op.extracts then x / B else x + op.addend

end AccOp

/-- Every call of the routine keeps its limit, starting with `x` in the accumulator. -/
def Fits (B V : ℕ) : List (AccOp ℕ) → ℕ → Prop
  | [], _ => True
  | op :: ops, x => x + op.addend < op.limit B V ∧ Fits B V ops (op.next B x)

instance Fits.decidable (B V : ℕ) : (ops : List (AccOp ℕ)) → (x : ℕ) → Decidable (Fits B V ops x)
  | [], _ => inferInstanceAs (Decidable True)
  | op :: ops, x =>
    have := Fits.decidable B V ops (op.next B x)
    inferInstanceAs (Decidable (_ ∧ _))

/-- The sum of the columns, each at its power of `B`. -/
def total (B : ℕ) : List (AccOp ℕ) → ℕ
  | [] => 0
  | op :: ops => if op.extracts then B * total B ops else op.addend + total B ops

/-- Larger operands only fill the accumulator more. -/
theorem Fits.mono {B V : ℕ} (ops : List (AccOp {q : ℕ × ℕ // q.1 ≤ q.2})) {x y : ℕ} (hxy : x ≤ y)
    (h : Fits B V (ops.map (AccOp.map fun q => q.1.2)) y) :
    Fits B V (ops.map (AccOp.map fun q => q.1.1)) x := by
  induction ops generalizing x y with
  | nil => trivial
  | cons op ops ih =>
    obtain ⟨hlim, hrest⟩ := h
    have hadd : (op.map fun q => q.1.1).addend ≤ (op.map fun q => q.1.2).addend := by
      cases op with
      | muladd a b => exact Nat.mul_le_mul a.2 b.2
      | muladdFast a b => exact Nat.mul_le_mul a.2 b.2
      | muladd2 a b => exact Nat.mul_le_mul_left 2 (Nat.mul_le_mul a.2 b.2)
      | sumadd a => exact a.2
      | sumaddFast a => exact a.2
      | extract => exact le_rfl
      | extractFast => exact le_rfl
    have hl : (op.map fun q => q.1.1).limit B V = (op.map fun q => q.1.2).limit B V := by
      cases op <;> rfl
    have hext : (op.map fun q => q.1.1).extracts = (op.map fun q => q.1.2).extracts := by
      cases op <;> rfl
    refine ⟨?_, ih ?_ hrest⟩
    · rw [hl]
      exact (Nat.add_le_add hxy hadd).trans_lt hlim
    · rw [AccOp.next, AccOp.next, hext]
      split
      · exact Nat.div_le_div_right hxy
      · exact Nat.add_le_add hxy hadd

namespace Acc

variable {w v : ℕ}

/-- The calls of a routine with the numbers their operands hold. -/
def toNats (ops : List (AccOp (BitVec w))) : List (AccOp ℕ) := ops.map (AccOp.map BitVec.toNat)

theorem exec_spec (hw : 0 < w) (hv : 0 < v) (hvw : v ≤ w) (s : Acc w v) (op : AccOp (BitVec w))
    (h : s.val + (op.map BitVec.toNat).addend < (op.map BitVec.toNat).limit (2 ^ w) (2 ^ v)) :
    (if op.extracts then s.c0.toNat + 2 ^ w * (s.exec op).val = s.val
      else (s.exec op).val = s.val + (op.map BitVec.toNat).addend) ∧ (s.exec op).ok = s.ok := by
  cases op with
  | muladd a b => exact muladd_spec hw hv s a b h
  | muladdFast a b => exact muladdFast_spec hw s a b h
  | muladd2 a b => exact muladd2_spec hw hv s a b h
  | sumadd a => exact sumadd_spec hw hv s a h
  | sumaddFast a => exact sumaddFast_spec hw s a h
  | extract => exact ⟨extract_spec s hvw, rfl⟩
  | extractFast => exact extractFast_spec s h

/-- A routine that fits loses nothing: the words extracted and what is left add up to the number
at the start and all columns. -/
theorem run_spec (hw : 0 < w) (hv : 0 < v) (hvw : v ≤ w) (ops : List (AccOp (BitVec w)))
    (s : Acc w v) (h : Fits (2 ^ w) (2 ^ v) (toNats ops) s.val) :
    Nat.ofDigits (2 ^ w) ((s.run ops).2.map BitVec.toNat) +
        (2 ^ w) ^ (s.run ops).2.length * (s.run ops).1.val = s.val + total (2 ^ w) (toNats ops) ∧
      (s.run ops).1.ok = s.ok := by
  induction ops generalizing s with
  | nil => simp [run, toNats, total]
  | cons op ops ih =>
    obtain ⟨hlim, hrest⟩ := h
    obtain ⟨hval, hok⟩ := exec_spec hw hv hvw s op hlim
    have hext : (op.map BitVec.toNat).extracts = op.extracts := by cases op <;> rfl
    rw [AccOp.next, hext] at hrest
    rw [run, toNats, List.map_cons, total, hext]
    by_cases hx : op.extracts = true
    · rw [if_pos hx] at hval hrest ⊢
      have hc0 := s.c0.isLt
      have hdiv : s.val / 2 ^ w = (s.exec op).val := by
        rw [← hval, Nat.add_mul_div_left _ _ (Nat.two_pow_pos w), Nat.div_eq_of_lt hc0, zero_add]
      obtain ⟨hv, hk⟩ := ih (s.exec op) (hdiv ▸ hrest)
      refine ⟨?_, hk.trans hok⟩
      rw [if_pos hx, List.map_cons, Nat.ofDigits_cons, List.length_cons, pow_succ', ← hval]
      rw [toNats] at hv
      linear_combination 2 ^ w * hv
    · rw [if_neg hx] at hval hrest ⊢
      obtain ⟨hv, hk⟩ := ih (s.exec op) (hval ▸ hrest)
      refine ⟨?_, hk.trans hok⟩
      rw [if_neg hx, ← add_assoc, ← hval]
      exact hv

/-- The words extracted followed by the last `c0`. -/
def words (k : ℕ) (r : Acc w v × List (BitVec w)) : Fin k → BitVec w :=
  Limbs.ofList k (r.2 ++ [r.1.c0])

theorem run_length (ops : List (AccOp (BitVec w))) (s : Acc w v) :
    (s.run ops).2.length = ops.countP AccOp.extracts := by
  induction ops generalizing s with
  | nil => rfl
  | cons op ops ih =>
    rw [run, List.countP_cons]
    by_cases hx : op.extracts = true
    · rw [if_pos hx, if_pos hx, List.length_cons, ih]
    · rw [if_neg hx, if_neg hx, ih, add_zero]

theorem words_last {k : ℕ} {r : Acc w v × List (BitVec w)} (h : r.2.length = k) :
    words (k + 1) r (Fin.last k) = r.1.c0 := by
  subst h
  rw [words, Limbs.ofList, Fin.val_last, List.getD_append_right _ _ _ _ le_rfl, Nat.sub_self]
  rfl

/-- The words extracted, and the last `c0` above them. -/
theorem words_split {k : ℕ} {r : Acc w v × List (BitVec w)} (h : r.2.length = k) :
    Limbs.val (words (k + 1) r) =
      Limbs.val (Limbs.ofList k r.2) + (2 ^ w) ^ k * r.1.c0.toNat := by
  have hinit : (fun i : Fin k => words (k + 1) r (Fin.castAdd 1 i)) = Limbs.ofList k r.2 := by
    funext i
    rw [words, Limbs.ofList, Limbs.ofList, Fin.val_castAdd, List.getD_append _ _ _ _ (h ▸ i.isLt)]
  have hlast : Limbs.val (fun i : Fin 1 => words (k + 1) r (Fin.natAdd k i)) =
      r.1.c0.toNat := by
    rw [← words_last h, Limbs.val, Limbs.eval, Fin.sum_univ_one, Fin.val_zero, pow_zero, mul_one]
    rfl
  rw [Limbs.val_split, hinit, hlast]

/-- The words of a routine that fits denote all that was added up, when that is not too much. -/
theorem words_spec (hw : 0 < w) (hv : 0 < v) (hvw : v ≤ w) {ops : List (AccOp (BitVec w))}
    {x : BitVec w} {k t : ℕ} (h : Fits (2 ^ w) (2 ^ v) (toNats ops) x.toNat)
    (hk : ops.countP AccOp.extracts = k) (ht : x.toNat + total (2 ^ w) (toNats ops) = t)
    (hlt : t < (2 ^ w) ^ (k + 1)) :
    Limbs.val (words (k + 1) ((init x : Acc w v).run ops)) = t ∧
      ((init x : Acc w v).run ops).1.c1 = 0 ∧ ((init x : Acc w v).run ops).1.ok = true := by
  have hrun := run_spec hw hv hvw ops (init x : Acc w v) (by rwa [init_val])
  have hlen := run_length ops (init x : Acc w v)
  generalize (init x : Acc w v).run ops = r at hrun hlen ⊢
  obtain ⟨hval, hok⟩ := hrun
  rw [hlen, hk, init_val, ht] at hval
  have hend : r.1.val < 2 ^ w := by
    have h1 : (2 ^ w) ^ k * r.1.val < (2 ^ w) ^ k * 2 ^ w := by rw [← pow_succ]; omega
    exact Nat.lt_of_mul_lt_mul_left h1
  have hzero : r.1.c1.toNat + 2 ^ w * r.1.c2.toNat = 0 := by
    by_contra hne
    have : 2 ^ w * 1 ≤ 2 ^ w * (r.1.c1.toNat + 2 ^ w * r.1.c2.toNat) :=
      Nat.mul_le_mul_left _ (Nat.pos_of_ne_zero hne)
    rw [val] at hend
    omega
  refine ⟨?_, BitVec.eq_of_toNat_eq (by rw [Word.toNat_zero]; omega), hok⟩
  rw [words, Limbs.val_ofList (by rw [List.length_append, hlen, hk, List.length_singleton]),
    List.map_append, Nat.ofDigits_append, List.length_map, hlen, hk, ← hval, val, hzero, mul_zero,
    add_zero, List.map_singleton, Nat.ofDigits_singleton]

end Acc

end Secp256k1.Scalar
