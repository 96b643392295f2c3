import Secp256k1.Ecmult.Table
import Secp256k1.Group.Batch

/-!
# The table of the generator

Row `j` of the table of `secp256k1_ecmult_gen` holds the multiples of `16 ^ j * G` up to the 15th,
each plus a point that depends on the row only. These points are multiples of one whose x coordinate
is a text, and they add up to nothing. The additions of the multiplication take finite points only:
the kernel goes through the multiples of `G` that an entry could cancel with, and finds none.
-/

namespace Secp256k1

open ShortCurve

/-! ## The points of the table -/

/-- `"The scalar for this x is unknown"`, and the even y coordinate. -/
def numsX : ℕ := 0x546865207363616C617220666F722074686973207820697320756E6B6E6F776E

def numsY : ℕ := 0x28EBB7E4E1F6A12E1C0FAAF47E09C33305D50890856930E67E5299348FF7F20E

theorem onCurve_nums : OnCurve (numsX : ZMod p) (numsY : ZMod p) :=
  onCurve_natCast.mpr (by decide)

/-- `nums_gej`. -/
def numsPoint : Point := onCurve_nums.point + generator

/-- `numsbase` at the start of row `j`. -/
def rowBase : ℕ → Point
  | 0 => numsPoint
  | j + 1 => if j = 62 then -(2 • rowBase j) + numsPoint else 2 • rowBase j

/-- The entry `i` of row `j`. -/
def entryPoint (j i : ℕ) : Point := rowBase j + (i * 16 ^ j) • generator

theorem rowBase_eq {j : ℕ} (hj : j ≤ 62) : rowBase j = 2 ^ j • numsPoint := by
  induction j with
  | zero => rw [pow_zero, one_nsmul]; rfl
  | succ j ih =>
    rw [rowBase, if_neg (by omega), ih (by omega), pow_succ, mul_nsmul]

theorem rowBase_last : rowBase 63 = -((2 ^ 63 - 1) • numsPoint) := by
  rw [rowBase, if_pos rfl, rowBase_eq le_rfl, ← mul_nsmul,
    show 2 ^ 62 * 2 = 2 ^ 63 - 1 + 1 by norm_num, succ_nsmul, neg_add, add_assoc, neg_add_cancel,
    add_zero]

/-- The rows cancel. -/
theorem sum_rowBase : ∑ j ∈ Finset.range 64, rowBase j = 0 := by
  have hsum : ∀ k ≤ 63, ∑ j ∈ Finset.range k, rowBase j = (2 ^ k - 1) • numsPoint := by
    intro k hk
    induction k with
    | zero => rw [Finset.sum_range_zero, pow_zero, Nat.sub_self, zero_nsmul]
    | succ k ih =>
      have hpos : 0 < 2 ^ k := Nat.two_pow_pos k
      rw [Finset.sum_range_succ, ih (by omega), rowBase_eq (by omega), ← add_nsmul, pow_succ]
      congr 1
      omega
  rw [Finset.sum_range_succ, hsum 63 le_rfl, rowBase_last, add_neg_cancel]

/-! ## No entry is the point at infinity -/

/-- The x and y coordinates of `nums_gej`, and of the opposite of the last row's point. -/
def numsSumX : ℕ := 0x3A9ED3736EED3EEC9AEB5AC021B5465256817B1F08DE6CD0FBCEE548BA044BB5

def numsSumY : ℕ := 0x7BCC5928BDC9C023DFC663B89E4F6969AB7517988E600EC1D242010C45C7974A

def lastRowX : ℕ := 0x53D772B6B18211F71478E9D33A0C061E2D23235844177867AF91508DE014F22D

def lastRowY : ℕ := 0x4D17A5F87E9F2CE3C35CD26345FDA6FBE415FC972614EC2175070AF98CEBCD57

theorem onCurve_numsSum : OnCurve (numsSumX : ZMod p) (numsSumY : ZMod p) :=
  onCurve_natCast.mpr (by decide)

theorem onCurve_lastRow : OnCurve (lastRowX : ZMod p) (lastRowY : ZMod p) :=
  onCurve_natCast.mpr (by decide)

/-- What the kernel computes: the sum of the text's point and `G`, its multiple, and eight chains of
doublings that start at the odd multiples of `G`. -/
theorem nums_computed :
    let s := Coords.add p ⟨numsX, numsY, 1⟩ generatorX generatorY
    let t := ladder p numsSumX numsSumY 62 (2 ^ 63 - 1)
    (s.z % p ≠ 0 ∧ numsSumX * s.z ^ 2 % p = s.x % p ∧ numsSumY * s.z ^ 3 % p = s.y % p) ∧
    (t.z % p ≠ 0 ∧ lastRowX * t.z ^ 2 % p = t.x % p ∧ lastRowY * t.z ^ 3 % p = t.y % p) ∧
    ∀ o < 16, o % 2 = 1 →
      avoids p [numsSumX, lastRowX] 256 (ladder p generatorX generatorY o.log2 o) = true := by
  decide +kernel

theorem natCast_ne_zero_of_mod {z : ℕ} (h : z % p ≠ 0) : (z : ZMod p) ≠ 0 := by
  rwa [ne_eq, ZMod.natCast_eq_zero_iff, Nat.dvd_iff_mod_eq_zero]

theorem numsPoint_eq : numsPoint = onCurve_numsSum.point := by
  obtain ⟨⟨hz, hx, hy⟩, -, -⟩ := nums_computed
  have hnums : Coords.Of (⟨numsX, numsY, 1⟩ : Coords) onCurve_nums.point := by
    have h := onCurve_nums.jac
    rwa [← Nat.cast_one] at h
  have h := hnums.add onCurve_generator.jac (natCast_ne_zero_of_mod hz)
  exact h.eq_of_mod onCurve_numsSum.jac hx hy

theorem numsPoint_ne_zero : numsPoint ≠ 0 := by
  rw [numsPoint_eq]
  exact onCurve_numsSum.jac.ne_zero

theorem lastRow_eq : (2 ^ 63 - 1) • numsPoint = onCurve_lastRow.point := by
  obtain ⟨-, ⟨hz, hx, hy⟩, -⟩ := nums_computed
  rw [numsPoint_eq]
  have h := ladder_of two_ne_zero_mod onCurve_numsSum.jac 62 (e := 2 ^ 63 - 1) (by norm_num)
    (by norm_num) (natCast_ne_zero_of_mod hz)
  exact h.eq_of_mod onCurve_lastRow.jac hx hy

/-- The multiples of `G` in question have neither of the two x coordinates. -/
theorem chain_ne {o e x : ℕ} (ho : o % 2 = 1) (ho16 : o < 16) (he : e < 256)
    (hx : x ∈ [numsSumX, lastRowX]) {y : ZMod p} {Q : Point} (hQ : Jac (x : ZMod p) y 1 Q) :
    (o * 2 ^ e) • generator ≠ Q := by
  obtain ⟨-, -, hall⟩ := nums_computed
  have h := hall o ho16 ho
  have hof := ladder_of two_ne_zero_mod onCurve_generator.jac o.log2 (Nat.log2_self_le (by omega))
    Nat.lt_log2_self (avoids_succ h).1
  rw [mul_nsmul]
  exact avoids_spec two_ne_zero_mod hof h he hx hQ

theorem exists_odd {i : ℕ} (h0 : 0 < i) (hi : i < 16) :
    ∃ o t, o % 2 = 1 ∧ o < 16 ∧ t < 4 ∧ i = o * 2 ^ t := by
  obtain ⟨t, o, hodd, rfl⟩ := Nat.exists_eq_two_pow_mul_odd h0.ne'
  have hpos : 0 < o := hodd.pos
  have hle : 2 ^ t ≤ 2 ^ t * o := Nat.le_mul_of_pos_right _ hpos
  have hle' : o ≤ 2 ^ t * o := Nat.le_mul_of_pos_left _ (Nat.two_pow_pos t)
  refine ⟨o, t, Nat.odd_iff.mp hodd, by omega, ?_, Nat.mul_comm _ _⟩
  exact (Nat.pow_lt_pow_iff_right (show 1 < 2 by norm_num)).mp (show 2 ^ t < 2 ^ 4 by omega)

theorem entryPoint_ne_zero {j i : ℕ} (hj : j < 64) (hi : i < 16) : entryPoint j i ≠ 0 := by
  have hW := onCurve_numsSum.jac.neg
  rw [← numsPoint_eq] at hW
  have hV := onCurve_lastRow.jac
  rw [← lastRow_eq] at hV
  rcases Nat.eq_zero_or_pos i with rfl | h0
  · -- the first entry of a row is the point of the row
    rw [entryPoint, Nat.zero_mul, zero_nsmul, add_zero]
    rcases Nat.lt_or_ge j 63 with h | h
    · rw [rowBase_eq (by omega), ne_eq, smul_eq_zero_iff numsPoint_ne_zero]
      have hpow : 2 ^ j ≤ 2 ^ 62 := Nat.pow_le_pow_right (by norm_num) (by omega)
      exact Nat.not_dvd_of_pos_of_lt (Nat.two_pow_pos j) (hpow.trans_lt (by decide))
    · obtain rfl : j = 63 := by omega
      rw [rowBase_last]
      exact neg_ne_zero.mpr hV.ne_zero
  · obtain ⟨o, t, hodd, ho, ht, rfl⟩ := exists_odd h0 hi
    intro hzero
    rw [entryPoint] at hzero
    rcases Nat.lt_or_ge j 63 with h | h
    · -- divided by `2 ^ j`, the row's point is the one of the text
      have hexp : o * 2 ^ t * 16 ^ j = o * 2 ^ (t + 3 * j) * 2 ^ j := by
        rw [show (16 : ℕ) = 2 ^ 4 by norm_num, ← pow_mul, mul_assoc, mul_assoc, ← pow_add,
          ← pow_add]
        congr 2
        omega
      rw [rowBase_eq (by omega), hexp, mul_nsmul, ← nsmul_add] at hzero
      have hsum : numsPoint + (o * 2 ^ (t + 3 * j)) • generator = 0 := by
        by_contra hne
        rw [smul_eq_zero_iff hne] at hzero
        have hpow : 2 ^ j ≤ 2 ^ 62 := Nat.pow_le_pow_right (by norm_num) (by omega)
        exact Nat.not_dvd_of_pos_of_lt (Nat.two_pow_pos j) (hpow.trans_lt (by decide)) hzero
      refine chain_ne hodd ho (show t + 3 * j < 256 by omega) (by simp) hW ?_
      exact eq_neg_of_add_eq_zero_right hsum
    · obtain rfl : j = 63 := by omega
      have hexp : o * 2 ^ t * 16 ^ 63 = o * 2 ^ (t + 252) := by
        rw [pow_add, ← mul_assoc]
        norm_num
      rw [rowBase_last, hexp, neg_add_eq_zero] at hzero
      exact chain_ne hodd ho (show t + 252 < 256 by omega) (by simp) hV hzero.symm

/-! ## Building the table -/

theorem be_numsB32 : Bytes.be numsB32 = numsX := by decide

section

variable {F S : Type} {B : FieldOps F} {M : FieldValues B}

theorem GejAt.entry {w : ZMod p} {P : Point} {a : Gej F} (h : GejAt M.toFieldModel w P a)
    (hP : P ≠ 0) : EntryOf M.toFieldModel w P a :=
  h.resolve_left fun h0 => hP h0.2

variable (hM : M.MulInt)

include hM in
/-- The point with the text as its x coordinate, and `G`. -/
theorem numsGej_at : Yields (numsGej B) (GejAt M.toFieldModel 1 numsPoint) := by
  have hlt : Bytes.be numsB32 < p := by
    rw [be_numsB32]
    decide
  obtain ⟨hnorm, -⟩ := M.setB32 hlt
  rw [be_numsB32] at hnorm
  have hx := M.rep_of_norm hnorm
  refine (geSetXoVar_spec M (M.raw_of_rep hx) (by norm_num) false).bind ?_
  rintro ⟨r, ok⟩ ⟨hok, hr⟩
  obtain ⟨hrx, hinf, w, hw, hrep, hpar⟩ := hr (hok.mpr ⟨_, onCurve_nums⟩)
  have hodd : ((numsY : ZMod p).val % 2 = 1 ↔ false = true) := by
    rw [ZMod.val_natCast_of_lt (by decide)]
    decide
  obtain rfl : w = numsY := root_unique hw onCurve_nums (cube_add_seven_ne_zero _)
    (hpar.trans hodd.symm)
  have hat : GeAt M.toFieldModel 1 onCurve_nums.point r := by
    refine ⟨_, _, hinf, ?_, M.rep_mono (by norm_num) hrep, onCurve_nums.jac⟩
    rw [hrx]
    exact M.rep_mono (by norm_num) hx
  refine (gejAddGeVar_at hM M.zero_iff.mp _ (.inr (gejSetGe_at hat)) (geConstG_at M)).bind
    fun t ht => .pure ht

include hM in
/-- Each entry of a row is the one before it plus `g`. -/
theorem precRow_at {gbase : Gej F} {g : Point} (hg : GejAt M.toFieldModel 1 g gbase) (Q : ℕ → Point)
    (k i : ℕ) (hi : 1 ≤ i) (hQ : ∀ t, i ≤ t → t < i + k → Q t = Q (t - 1) + g) {precj : ℕ → Gej F}
    (h : ∀ t < i, GejAt M.toFieldModel 1 (Q t) (precj t)) :
    Yields (precRow B gbase k i precj) fun precj =>
      ∀ t < i + k, GejAt M.toFieldModel 1 (Q t) (precj t) := by
  induction k generalizing i precj with
  | zero => exact .some h
  | succ k ih =>
    refine (gejAddVar_at hM M.zero_iff.mp (precj i) (h (i - 1) (by omega)) hg).bind fun t ht => ?_
    rw [← hQ i le_rfl (by omega)] at ht
    rw [show i + (k + 1) = i + 1 + k by omega] at hQ ⊢
    refine ih (i + 1) (by omega) (fun t ht ht' => hQ t (by omega) ht') fun t hlt => ?_
    by_cases hti : t = i
    · subst hti
      rwa [Function.update_self]
    · rw [Function.update_of_ne hti]
      exact h t (by omega)

include hM in
theorem doubleTimes_at {P : Point} (k : ℕ) {a : Gej F} (ha : GejAt M.toFieldModel 1 P a) :
    Yields (doubleTimes B k a) (GejAt M.toFieldModel 1 (2 ^ k • P)) := by
  induction k generalizing P a with
  | zero =>
    rw [pow_zero, one_nsmul]
    exact .some ha
  | succ k ih =>
    refine (gejDoubleVar_at hM a ha).bind fun t ht => ?_
    rw [pow_succ, mul_nsmul, two_nsmul, ← nsmul_add]
    exact ih ht

include hM in
theorem precNums_at {nums : Gej F} (hnums : GejAt M.toFieldModel 1 numsPoint nums) {j : ℕ}
    {numsbase : Gej F} (h : GejAt M.toFieldModel 1 (rowBase j) numsbase) :
    Yields (precNums B nums j numsbase) (GejAt M.toFieldModel 1 (rowBase (j + 1))) := by
  refine (gejDoubleVar_at hM numsbase h).bind ?_
  rintro ⟨t, rzr⟩ ht
  rw [← two_nsmul] at ht
  by_cases hj : j = 62
  · subst hj
    rw [rowBase, if_pos rfl]
    have hne : 2 • rowBase 62 ≠ 0 := by
      rw [rowBase_eq le_rfl, ← mul_nsmul, ne_eq, smul_eq_zero_iff numsPoint_ne_zero]
      exact Nat.not_dvd_of_pos_of_lt (by norm_num) (by decide)
    refine (gejNeg_at (ht.entry hne)).bind fun a ha => ?_
    exact (gejAddVar_at hM M.zero_iff.mp a (.inr ha) hnums).bind fun t ht => .pure ht
  · rw [rowBase, if_neg hj]
    simp only [if_neg hj]
    exact .pure ht

/-- The rows one after the other. -/
def tablePoint (t : ℕ) : Point := entryPoint (t / 16) (t % 16)

theorem tablePoint_row {j t : ℕ} (h : j * 16 + 1 ≤ t) (h' : t < j * 16 + 16) :
    tablePoint t = tablePoint (t - 1) + 16 ^ j • generator := by
  rw [tablePoint, tablePoint, show t / 16 = j by omega, show (t - 1) / 16 = j by omega, entryPoint,
    entryPoint, show t % 16 = (t - 1) % 16 + 1 by omega, add_assoc, ← add_nsmul, Nat.succ_mul]

include hM in
theorem precLoop_at {nums : Gej F} (hnums : GejAt M.toFieldModel 1 numsPoint nums) (k j : ℕ)
    {gbase numsbase : Gej F} (hg : GejAt M.toFieldModel 1 (16 ^ j • generator) gbase)
    (hrow : GejAt M.toFieldModel 1 (rowBase j) numsbase) {precj : ℕ → Gej F}
    (h : ∀ t < j * 16, GejAt M.toFieldModel 1 (tablePoint t) (precj t)) :
    Yields (precLoop B nums k j gbase numsbase precj) fun precj =>
      ∀ t < (j + k) * 16, GejAt M.toFieldModel 1 (tablePoint t) (precj t) := by
  induction k generalizing j gbase numsbase precj with
  | zero => exact .some h
  | succ k ih =>
    have hfirst : ∀ t < j * 16 + 1, GejAt M.toFieldModel 1 (tablePoint t)
        (Function.update precj (j * 16) numsbase t) := by
      intro t ht
      by_cases hti : t = j * 16
      · subst hti
        rw [Function.update_self, tablePoint, Nat.mul_div_cancel _ (by norm_num), Nat.mul_mod_left,
          entryPoint, Nat.zero_mul, zero_nsmul, add_zero]
        exact hrow
      · rw [Function.update_of_ne hti]
        exact h t (by omega)
    refine (precRow_at hM hg tablePoint 15 (j * 16 + 1) (by omega)
      (fun t ht ht' => tablePoint_row ht (by omega)) hfirst).bind fun precj hprecj => ?_
    refine (doubleTimes_at hM 4 hg).bind fun gbase hg => ?_
    refine (precNums_at hM hnums hrow).bind fun numsbase hrow => ?_
    rw [← mul_nsmul, show 16 ^ j * 2 ^ 4 = 16 ^ (j + 1) by ring] at hg
    rw [show j + (k + 1) = j + 1 + k by omega]
    exact ih (j + 1) hg hrow fun t ht => hprecj t (by omega)

/-- The table that a context holds. -/
def GenTable (prec : ℕ → ℕ → GeStorage) : Prop :=
  ∀ j < 64, ∀ i < 16, StoredAt (entryPoint j i) (prec j i)

include hM in
/-- The table from any memory. -/
theorem genTable_at (mem : GenMemory F S) :
    Yields (numsGej B >>= fun nums =>
      precLoop B nums 64 0 (gejSetGe B (geConstG B)) nums mem.precj >>= fun precj =>
      geSetAllGejVar B mem.az mem.azi mem.prec precj 1024 >>= fun prec =>
      toStorageLoop B prec 1024 0 fun i => mem.ctx.prec (i / 16) (i % 16)) fun table =>
        GenTable fun j i => table (j * 16 + i) := by
  have hG : GejAt M.toFieldModel 1 (16 ^ 0 • generator) (gejSetGe B (geConstG B)) := by
    rw [pow_zero, one_nsmul]
    exact .inr (gejSetGe_at (geConstG_at M))
  refine (numsGej_at hM).bind fun nums hnums => ?_
  have hstart : ∀ t < 0 * 16, GejAt M.toFieldModel 1 (tablePoint t) (mem.precj t) :=
    fun t ht => absurd ht (by omega)
  refine (precLoop_at hM hnums 64 0 hG hnums hstart).bind fun precj hprecj => ?_
  refine (geSetAllGejVar_at hprecj mem.az mem.azi mem.prec).bind fun prec hprec => ?_
  have hge : ∀ t < 0 + 1024, GeAt M.toFieldModel 1 (tablePoint t) (prec t) := fun t ht =>
    (hprec t (by omega)).resolve_left fun h0 =>
      entryPoint_ne_zero (show t / 16 < 64 by omega) (Nat.mod_lt t (by norm_num)) h0.2
  refine (toStorageLoop_at 1024 0 hge _ fun j hj => absurd hj (by omega)).mono
    fun table htable j hj i hi => ?_
  have h := htable (j * 16 + i) (by omega)
  rwa [tablePoint, show (j * 16 + i) / 16 = j by omega, show (j * 16 + i) % 16 = i by omega] at h

end

end Secp256k1
