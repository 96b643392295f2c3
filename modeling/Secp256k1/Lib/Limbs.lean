import Secp256k1.Lib.Bytes

/-!
# Numbers in limbs

Arrays of `k` words of `w` bits, the first limb least significant. `carry` is the chain every
multi-limb addition is made of: a double-width word takes up one column after the other, gives its
low half to the result and keeps its high half. When no column is close to the double width, the
chain loses nothing.
-/

namespace Limbs

variable {w k : ℕ}

/-- The columns `x` weighted with the powers of `B`. -/
def eval (B : ℕ) (x : Fin k → ℕ) : ℕ := ∑ i, x i * B ^ (i : ℕ)

theorem eval_zero (B : ℕ) (x : Fin 0 → ℕ) : eval B x = 0 := rfl

theorem eval_succ (B : ℕ) (x : Fin (k + 1) → ℕ) :
    eval B x = x 0 + B * eval B fun i => x i.succ := by
  rw [eval, Fin.sum_univ_succ, eval, Finset.mul_sum, Fin.val_zero, pow_zero, mul_one]
  congr 1
  refine Finset.sum_congr rfl fun i _ => ?_
  rw [Fin.val_succ, pow_succ]
  ring

theorem eval_add (B : ℕ) (x y : Fin k → ℕ) :
    eval B (fun i => x i + y i) = eval B x + eval B y := by
  simp only [eval, add_mul, Finset.sum_add_distrib]

theorem eval_mul (B c : ℕ) (x : Fin k → ℕ) : eval B (fun i => c * x i) = c * eval B x := by
  simp only [eval, mul_assoc, Finset.mul_sum]

/-- The number the limbs denote. -/
def val (d : Fin k → BitVec w) : ℕ := eval (2 ^ w) fun i => (d i).toNat

theorem val_succ (d : Fin (k + 1) → BitVec w) :
    val d = (d 0).toNat + 2 ^ w * val fun i => d i.succ :=
  eval_succ _ _

theorem val_lt (d : Fin k → BitVec w) : val d < (2 ^ w) ^ k := by
  induction k with
  | zero => exact Nat.one_pos
  | succ k ih =>
    have h0 := (d 0).isLt
    have ht := ih fun i => d i.succ
    rw [val_succ, pow_succ']
    calc (d 0).toNat + 2 ^ w * val (fun i => d i.succ)
        < 2 ^ w + 2 ^ w * val (fun i => d i.succ) := Nat.add_lt_add_right h0 _
      _ = 2 ^ w * (val (fun i => d i.succ) + 1) := by ring
      _ ≤ 2 ^ w * (2 ^ w) ^ k := Nat.mul_le_mul_left _ ht

/-- The lower `j` limbs and the ones above them. -/
theorem val_split {j : ℕ} (d : Fin (j + k) → BitVec w) : val d =
    val (fun i => d (Fin.castAdd k i)) + (2 ^ w) ^ j * val fun i => d (Fin.natAdd j i) := by
  simp only [val, eval, Fin.sum_univ_add, Fin.val_castAdd, Fin.val_natAdd, pow_add, Finset.mul_sum]
  congr 1
  exact Finset.sum_congr rfl fun i _ => by ring

theorem val_inj {d e : Fin k → BitVec w} (h : val d = val e) : d = e := by
  induction k with
  | zero => exact Subsingleton.elim d e
  | succ k ih =>
    rw [val_succ, val_succ] at h
    have h0 : (d 0).toNat = (e 0).toNat := by
      have hm := congrArg (· % 2 ^ w) h
      simpa [Nat.add_mul_mod_self_left, Nat.mod_eq_of_lt (BitVec.isLt _)] using hm
    have ht : val (fun i => d i.succ) = val fun i => e i.succ := by
      rw [h0] at h
      exact Nat.eq_of_mul_eq_mul_left (Nat.two_pow_pos w) (Nat.add_left_cancel h)
    funext i
    refine Fin.cases ?_ (fun j => ?_) i
    · exact BitVec.eq_of_toNat_eq h0
    · exact congrFun (ih ht) j

theorem val_zero : val (fun _ : Fin k => (0 : BitVec w)) = 0 := by
  simp [val, eval]

theorem val_eq_zero_iff {d : Fin k → BitVec w} : val d = 0 ↔ ∀ i, d i = 0 := by
  constructor
  · intro h i
    exact congrFun (val_inj (h.trans val_zero.symm)) i
  · intro h
    rw [funext h, val_zero]

/-- A number and its complement add up to all ones. -/
theorem val_not (d : Fin k → BitVec w) : val (fun i => ~~~d i) + val d + 1 = (2 ^ w) ^ k := by
  induction k with
  | zero => rfl
  | succ k ih =>
    have h0 : (~~~d 0).toNat + (d 0).toNat + 1 = 2 ^ w := by
      have := (d 0).isLt
      rw [BitVec.toNat_not]
      omega
    have ht := ih fun i => d i.succ
    rw [val_succ, val_succ, pow_succ', ← ht]
    calc _ = ((~~~d 0).toNat + (d 0).toNat + 1) +
          2 ^ w * (val (fun i => ~~~d i.succ) + val fun i => d i.succ) := by ring
      _ = _ := by rw [h0]; ring

/-- The bits of a number are the bits of its limbs. -/
theorem testBit_val (d : Fin k → BitVec w) (i : Fin k) {j : ℕ} (hj : j < w) :
    (val d).testBit (w * i + j) = (d i).getLsbD j := by
  induction k with
  | zero => exact i.elim0
  | succ k ih =>
    rw [val_succ, add_comm, Nat.testBit_two_pow_mul_add _ (d 0).isLt]
    refine Fin.cases ?_ (fun i => ?_) i
    · rw [Fin.val_zero, mul_zero, zero_add, if_pos hj]
      rfl
    · have hge : ¬ w * (i.succ : ℕ) + j < w := by
        rw [Fin.val_succ, mul_add, mul_one]
        omega
      rw [if_neg hge, ← ih (fun i => d i.succ) i, Fin.val_succ]
      congr 1
      rw [mul_add, mul_one]
      omega

/-- Numbers compare by their higher limbs, then by the lowest one. -/
theorem compare_succ (d e : Fin (k + 1) → BitVec w) : compare (val d) (val e) =
    (compare (val fun i => d i.succ) (val fun i => e i.succ)).then
      (compare (d 0).toNat (e 0).toNat) := by
  have hd := (d 0).isLt
  have he := (e 0).isLt
  rw [val_succ d, val_succ e]
  generalize (val fun i => d i.succ) = x
  generalize (val fun i => e i.succ) = y
  rcases Nat.lt_trichotomy x y with h | h | h
  · have hmul : 2 ^ w * (x + 1) ≤ 2 ^ w * y := Nat.mul_le_mul_left _ h
    rw [Nat.compare_eq_lt.mpr h, Nat.compare_eq_lt.mpr (by rw [mul_add] at hmul; omega)]
    rfl
  · subst h
    rw [Nat.compare_eq_eq.mpr (rfl : x = x), Nat.compare_eq_ite_lt, Nat.compare_eq_ite_lt]
    simp only [Nat.add_lt_add_iff_right]
    rfl
  · have hmul : 2 ^ w * (y + 1) ≤ 2 ^ w * x := Nat.mul_le_mul_left _ h
    rw [Nat.compare_eq_gt.mpr h, Nat.compare_eq_gt.mpr (by rw [mul_add] at hmul; omega)]
    rfl

/-- The limbs of a list, zero where it ends early. -/
def ofList (k : ℕ) (l : List (BitVec w)) : Fin k → BitVec w := fun i => l.getD i 0

theorem val_ofList {l : List (BitVec w)} (h : l.length = k) :
    val (ofList k l) = Nat.ofDigits (2 ^ w) (l.map BitVec.toNat) := by
  induction l generalizing k with
  | nil => subst h; rfl
  | cons x l ih =>
    subst h
    rw [val_succ, List.map_cons, Nat.ofDigits_cons, ← ih rfl]
    rfl

/-! ## Carry chains -/

/-- `t += x[i]; r[i] = t & (2 ^ w - 1); t >>= w` for each `i`: the limbs `r` and the last `t`. -/
def carry : {k : ℕ} → BitVec (2 * w) → (Fin k → BitVec (2 * w)) →
    (Fin k → BitVec w) × BitVec (2 * w)
  | 0, t, _ => (Fin.elim0, t)
  | _ + 1, t, x =>
    let s := t + x 0
    let r := carry (s >>> w) fun i => x i.succ
    (Fin.cons (s.setWidth w) r.1, r.2)

theorem carry_spec {t : BitVec (2 * w)} {x : Fin k → BitVec (2 * w)} (ht : t.toNat < 2 ^ w)
    (hx : ∀ i, (x i).toNat + 2 ^ w ≤ 2 ^ (2 * w)) :
    val (carry t x).1 + (2 ^ w) ^ k * (carry t x).2.toNat =
        t.toNat + eval (2 ^ w) (fun i => (x i).toNat) ∧
      (carry t x).2.toNat < 2 ^ w := by
  induction k generalizing t with
  | zero =>
    exact ⟨by rw [carry, pow_zero, one_mul, val, eval_zero, eval_zero, zero_add, add_zero], ht⟩
  | succ k ih =>
    have h0 := hx 0
    have hs : (t + x 0).toNat = t.toNat + (x 0).toNat := Word.toNat_add rfl rfl (by omega)
    have hshr : ((t + x 0) >>> w).toNat = (t.toNat + (x 0).toNat) / 2 ^ w := Word.toNat_shr w hs
    have hlow : ((t + x 0).setWidth w).toNat = (t.toNat + (x 0).toNat) % 2 ^ w :=
      Word.toNat_truncate hs
    have hlt : (t.toNat + (x 0).toNat) / 2 ^ w < 2 ^ w := by
      rw [Nat.div_lt_iff_lt_mul (Nat.two_pow_pos w), ← pow_add, ← two_mul]
      omega
    obtain ⟨hv, hb⟩ := ih (hshr ▸ hlt) (fun i => hx i.succ)
    refine ⟨?_, hb⟩
    rw [eval_succ, carry, val_succ]
    simp only [Fin.cons_zero, Fin.cons_succ]
    rw [hlow]
    calc _ = (t.toNat + (x 0).toNat) % 2 ^ w + 2 ^ w *
          (val (carry ((t + x 0) >>> w) fun i => x i.succ).1 +
            (2 ^ w) ^ k * (carry ((t + x 0) >>> w) fun i => x i.succ).2.toNat) := by ring
      _ = (t.toNat + (x 0).toNat) % 2 ^ w + 2 ^ w * ((t.toNat + (x 0).toNat) / 2 ^ w) +
          2 ^ w * eval (2 ^ w) (fun i => (x i.succ).toNat) := by rw [hv, hshr]; ring
      _ = _ := by rw [Nat.mod_add_div]; ring

/-- A result that fits the limbs leaves no carry. -/
theorem carry_fits {t : BitVec (2 * w)} {x : Fin k → BitVec (2 * w)} (ht : t.toNat < 2 ^ w)
    (hx : ∀ i, (x i).toNat + 2 ^ w ≤ 2 ^ (2 * w)) :
    val (carry t x).1 =
      (t.toNat + eval (2 ^ w) fun i => (x i).toNat) % (2 ^ w) ^ k := by
  rw [← (carry_spec ht hx).1, Nat.add_mul_mod_self_left, Nat.mod_eq_of_lt (val_lt _)]

end Limbs
