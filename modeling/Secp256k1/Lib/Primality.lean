import Mathlib.Data.List.Prime
import Mathlib.NumberTheory.LucasPrimality

/-!
# Primality from primitive roots

Lucas's test with the powers computed by squaring, so that the kernel can evaluate it for numbers of
a few hundred bits, and tables in which the prime factors an entry needs are entries after it.
-/

namespace Primality

/-- `b ^ e % m` from the `k` binary digits of `e`, most significant first. -/
def powMod (m b : ℕ) : ℕ → ℕ → ℕ
  | 0, _ => 1 % m
  | k + 1, e => b ^ (e % 2) * powMod m b k (e / 2) ^ 2 % m

theorem powMod_eq (m b : ℕ) {k e : ℕ} (he : e < 2 ^ k) : powMod m b k e = b ^ e % m := by
  induction k generalizing e with
  | zero =>
    obtain rfl : e = 0 := by simpa using he
    rfl
  | succ k ih =>
    have hsplit : b ^ (e % 2) * (b ^ (e / 2)) ^ 2 = b ^ e := by
      rw [← pow_mul, ← pow_add]
      congr 1
      omega
    rw [powMod, ih (by omega), Nat.mul_mod, ← Nat.pow_mod, ← Nat.mul_mod, hsplit]

theorem natCast_pow_eq_one_iff {m : ℕ} (hm : 1 < m) (b e : ℕ) :
    (b : ZMod m) ^ e = 1 ↔ b ^ e % m = 1 := by
  rw [← Nat.cast_pow, ← Nat.cast_one, ZMod.natCast_eq_natCast_iff', Nat.mod_eq_of_lt hm]

/-- A number, a primitive root of it, and the prime factors of its predecessor with their
exponents. -/
structure Entry where
  m : ℕ
  root : ℕ
  factors : List (ℕ × ℕ)

/-- What makes the number of an entry prime if the factors are. -/
structure Entry.Holds (e : Entry) : Prop where
  one_lt : 1 < e.m
  prod : (e.factors.map fun f => f.1 ^ f.2).prod = e.m - 1
  root : powMod e.m e.root (e.m.log2 + 1) (e.m - 1) = 1
  proper : ∀ f ∈ e.factors, powMod e.m e.root (e.m.log2 + 1) ((e.m - 1) / f.1) ≠ 1

instance (e : Entry) : Decidable e.Holds :=
  decidable_of_iff (1 < e.m ∧ (e.factors.map fun f => f.1 ^ f.2).prod = e.m - 1 ∧
    powMod e.m e.root (e.m.log2 + 1) (e.m - 1) = 1 ∧
    ∀ f ∈ e.factors, powMod e.m e.root (e.m.log2 + 1) ((e.m - 1) / f.1) ≠ 1)
    ⟨fun ⟨h1, h2, h3, h4⟩ => ⟨h1, h2, h3, h4⟩, fun ⟨h1, h2, h3, h4⟩ => ⟨h1, h2, h3, h4⟩⟩

theorem Entry.Holds.prime {e : Entry} (h : e.Holds) (hfs : ∀ f ∈ e.factors, f.1.Prime) :
    e.m.Prime := by
  have hlt : e.m - 1 < 2 ^ (e.m.log2 + 1) := (Nat.sub_le _ _).trans_lt Nat.lt_log2_self
  refine lucas_primality e.m e.root ?_ fun q hq hdvd => ?_
  · rw [natCast_pow_eq_one_iff h.one_lt, ← powMod_eq _ _ hlt]
    exact h.root
  · -- a prime divisor of the predecessor is one of the factors listed
    rw [← h.prod] at hdvd
    obtain ⟨x, hx, hqx⟩ := hq.prime.dvd_prod_iff.mp hdvd
    obtain ⟨f, hf, rfl⟩ := List.mem_map.mp hx
    obtain rfl := (Nat.prime_dvd_prime_iff_eq hq (hfs f hf)).mp (hq.dvd_of_dvd_pow hqx)
    rw [Ne, natCast_pow_eq_one_iff h.one_lt, ← powMod_eq _ _ ((Nat.div_le_self _ _).trans_lt hlt)]
    exact h.proper f hf

/-- Each entry holds, and its factors are the numbers of entries after it. -/
def Table : List Entry → Prop
  | [] => True
  | e :: es => e.Holds ∧ (∀ f ∈ e.factors, ∃ d ∈ es, d.m = f.1) ∧ Table es

instance : (es : List Entry) → Decidable (Table es)
  | [] => inferInstanceAs (Decidable True)
  | e :: es =>
    have : Decidable (Table es) := instDecidableTable es
    inferInstanceAs (Decidable (e.Holds ∧ (∀ f ∈ e.factors, ∃ d ∈ es, d.m = f.1) ∧ Table es))

theorem Table.prime {es : List Entry} (h : Table es) : ∀ e ∈ es, e.m.Prime := by
  induction es with
  | nil => exact fun e he => absurd he List.not_mem_nil
  | cons e es ih =>
    obtain ⟨hold, hfs, htl⟩ := h
    refine List.forall_mem_cons.mpr ⟨hold.prime fun f hf => ?_, ih htl⟩
    obtain ⟨d, hd, hdf⟩ := hfs f hf
    exact hdf ▸ ih htl d hd

end Primality
