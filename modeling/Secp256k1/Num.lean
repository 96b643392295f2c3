import Secp256k1.Scalar.Ops
import Secp256k1.Primes

/-!
# Numbers

`num_gmp_impl.h`. A number is a natural number; what the code calls of the GMP library is a
parameter, with the behaviour the library documents. `secp256k1_scalar_inverse_var` with
`USE_SCALAR_INV_NUM` computes through it.
-/

namespace Secp256k1

/-- `mpn_gcdext` up to the first cofactor, and `mpz_jacobi`. -/
structure Gmp where
  gcdext : ℕ → ℕ → ℤ
  jacobi : ℕ → ℕ → ℤ

structure Gmp.Sound (g : Gmp) : Prop where
  gcdext_lt : ∀ a m : ℕ, 1 < m → a.Coprime m → (g.gcdext a m).natAbs < m
  gcdext_mul : ∀ a m : ℕ, 1 < m → a.Coprime m → (a * g.gcdext a m : ℤ) ≡ 1 [ZMOD m]
  jacobi : ∀ a m : ℕ, Odd m → g.jacobi a m = jacobiSym a m

/-- A negative cofactor is subtracted from the modulus. -/
def numModInverse (g : Gmp) (a m : ℕ) : ℕ :=
  if g.gcdext a m < 0 then m - (g.gcdext a m).natAbs else (g.gcdext a m).natAbs

def numGetBin (a : ℕ) : Fin 32 → Byte := fun i => BitVec.ofNat 8 (a / 256 ^ (31 - i.val))

theorem numModInverse_spec {g : Gmp} (hg : g.Sound) {a m : ℕ} (hm : 1 < m) (ha : a.Coprime m) :
    numModInverse g a m < m ∧ a * numModInverse g a m % m = 1 := by
  have hlt := hg.gcdext_lt a m hm ha
  have hmul := hg.gcdext_mul a m hm ha
  have hcast : ((numModInverse g a m : ℕ) : ℤ) ≡ g.gcdext a m [ZMOD m] := by
    unfold numModInverse
    split
    · rw [Nat.cast_sub (by omega)]
      refine (Int.modEq_iff_dvd.mpr ⟨-1, ?_⟩)
      omega
    · rw [Int.natAbs_of_nonneg (by omega)]
  refine ⟨?_, ?_⟩
  · unfold numModInverse
    split <;> omega
  · have h : ((a * numModInverse g a m : ℕ) : ℤ) ≡ (1 : ℕ) [ZMOD m] := by
      push_cast
      exact (hcast.mul_left _).trans hmul
    rw [(Int.natCast_modEq_iff.mp h : _ % m = 1 % m), Nat.mod_eq_of_lt hm]

theorem beNat_digits (a k : ℕ) :
    Bytes.beNat (List.ofFn fun i : Fin k => BitVec.ofNat 8 (a / 256 ^ (k - 1 - i.val))) =
      a % 256 ^ k := by
  induction k with
  | zero => simp [Nat.mod_one]
  | succ k ih =>
    have htail : (fun i : Fin k => BitVec.ofNat 8 (a / 256 ^ (k + 1 - 1 - i.succ.val))) =
        fun i : Fin k => BitVec.ofNat 8 (a / 256 ^ (k - 1 - i.val)) := by
      funext i
      congr 3
      rw [Fin.val_succ]
      omega
    rw [List.ofFn_succ, Bytes.beNat_cons, htail, ih, List.length_ofFn, BitVec.toNat_ofNat,
      Fin.val_zero, Nat.sub_zero, Nat.add_sub_cancel, Nat.mul_comm, Nat.add_comm]
    exact (Nat.mod_pow_succ (b := 256)).symm

theorem be_numGetBin {a : ℕ} (h : a < 2 ^ 256) : Bytes.be (numGetBin a) = a := by
  have := beNat_digits a 32
  rwa [Nat.mod_eq_of_lt (h.trans_eq (by norm_num))] at this

theorem be_numGetBin_val (v : ZMod p) : Bytes.be (numGetBin v.val) = v.val :=
  be_numGetBin ((ZMod.val_lt v).trans p_lt)

section

variable {S : Type} (O : ScalarOps S) (g : Gmp)

/-- `none` is the failure of the `CHECK` at the end. -/
def scalarInverseVar (x : S) : Option S :=
  let r := (O.setB32 (numGetBin (numModInverse g (Bytes.be (O.getB32 x)) n))).1
  if O.isOne (O.mul x r) then some r else none

variable {O g} {val : S → ℕ}

theorem scalarInverseVar_spec (hO : O.Sound val) (hg : g.Sound) {x : S} (h0 : 0 < val x)
    (hn : val x < n) :
    ∃ r, scalarInverseVar O g x = some r ∧ val r < n ∧ val x * val r % n = 1 := by
  have hcop : (val x).Coprime n := (Nat.coprime_of_lt_prime h0.ne' hn n_prime).symm
  obtain ⟨hlt, hinv⟩ := numModInverse_spec hg n_prime.one_lt hcop
  have hr : val (O.setB32 (numGetBin (numModInverse g (Bytes.be (O.getB32 x)) n))).1 =
      numModInverse g (val x) n := by
    rw [(hO.setB32 _).1, hO.getB32, be_numGetBin (hlt.trans n_lt), Nat.mod_eq_of_lt hlt]
  refine ⟨_, if_pos ?_, by rwa [hr], by rw [hr, hinv]⟩
  rw [hO.isOne, hO.mul, hr, decide_eq_true_iff, hinv]

end

/-- The library's functions, by their definitions. -/
def Gmp.reference : Gmp where
  gcdext a m := a.gcdA m % m
  jacobi a m := jacobiSym a m

theorem Gmp.reference_sound : Gmp.reference.Sound where
  gcdext_lt a m hm _ := by
    have h := Int.emod_nonneg (a.gcdA m) (show (m : ℤ) ≠ 0 by omega)
    have h' := Int.emod_lt_of_pos (a.gcdA m) (show (0 : ℤ) < m by omega)
    simp only [Gmp.reference]
    omega
  gcdext_mul a m _ h := by
    have hbez := Nat.gcd_eq_gcd_ab a m
    rw [h.gcd_eq_one] at hbez
    refine ((Int.mod_modEq _ _).mul_left _).trans (Int.modEq_iff_dvd.mpr ⟨a.gcdB m, ?_⟩)
    push_cast at hbez
    omega
  jacobi _ _ _ := rfl

end Secp256k1
