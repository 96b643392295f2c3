import Secp256k1.Group.Points

/-!
# Quadratic residues

`secp256k1_fe_is_quad_var` of `field_impl.h` and `secp256k1_gej_has_quad_y_var` of `group_impl.h`.
The first asks the library for the Jacobi symbol; the second asks it of `y * z` in place of
`y / z³`. Of a point and its opposite, exactly one has a square for its y coordinate.
-/

namespace Secp256k1

section

variable {F : Type} (B : FieldOps F) (g : Gmp)

def primeBytes : Fin 32 → Byte :=
  ![0xFF, 0xFF, 0xFF, 0xFF, 0xFF, 0xFF, 0xFF, 0xFF, 0xFF, 0xFF, 0xFF, 0xFF, 0xFF, 0xFF, 0xFF, 0xFF,
    0xFF, 0xFF, 0xFF, 0xFF, 0xFF, 0xFF, 0xFF, 0xFF, 0xFF, 0xFF, 0xFF, 0xFE, 0xFF, 0xFF, 0xFC, 0x2F]

def feIsQuadVar (a : F) : Option Bool := do
  let c ← B.normalizeVar a
  return g.jacobi (Bytes.be (B.getB32 c)) (Bytes.be primeBytes) ≥ 0

def gejHasQuadYVar (a : Gej F) : Option Bool :=
  if a.infinity then some false
  else do
    let yz ← B.mul a.y a.z
    feIsQuadVar B g yz

end

theorem be_primeBytes : Bytes.be primeBytes = p := by decide

/-- The symbol is -1 exactly for the residues that are not squares. -/
theorem jacobi_nonneg_iff {g : Gmp} (hg : g.Sound) (v : ZMod p) :
    0 ≤ g.jacobi v.val p ↔ IsSquare v := by
  have hodd : Odd p := Nat.odd_iff.mpr (by decide)
  have hiff : jacobiSym (v.val : ℤ) p = -1 ↔ ¬ IsSquare v := by
    rw [← jacobiSym.legendreSym.to_jacobiSym, legendreSym.eq_neg_one_iff, Int.cast_natCast,
      ZMod.natCast_zmod_val]
  rw [hg.jacobi _ _ hodd, ← not_iff_not, ← hiff]
  rcases jacobiSym.trichotomy (v.val : ℤ) p with h | h | h <;> rw [h] <;> decide

section

variable {F : Type} {B : FieldOps F} (M : FieldValues B) {g : Gmp} (hg : g.Sound)
include hg

theorem feIsQuadVar_spec {m : ℕ} {v : ZMod p} {a : F} (ha : M.rep m v a) (hm : m ≤ 32) :
    Yields (feIsQuadVar B g a) fun b => b = true ↔ IsSquare v := by
  refine (M.normalizeVar hm ha).bind fun c hc => .pure ?_
  rw [M.getB32 hc, be_primeBytes, decide_eq_true_iff]
  exact jacobi_nonneg_iff hg v

/-- For a finite point `y` is the y coordinate. -/
theorem gejHasQuadYVar_spec {y z : ZMod p} {a : Gej F} (hinf : a.infinity = false) (hz0 : z ≠ 0)
    (hy : M.raw 8 (y * (z * z * z)) a.y) (hz : M.raw 8 z a.z) :
    Yields (gejHasQuadYVar B g a) fun b => b = true ↔ IsSquare y := by
  rw [gejHasQuadYVar, hinf, if_neg Bool.false_ne_true]
  refine (M.mul hy hz).bind fun yz hyz => ?_
  refine (feIsQuadVar_spec M hg hyz (by norm_num)).mono fun b hb => hb.trans ?_
  rw [show y * (z * z * z) * z = y * (z * z * (z * z)) by ring]
  constructor
  · rintro ⟨r, hr⟩
    refine ⟨r / (z * z), ?_⟩
    rw [div_mul_div_comm, ← hr, mul_div_cancel_right₀]
    exact mul_ne_zero (mul_ne_zero hz0 hz0) (mul_ne_zero hz0 hz0)
  · exact fun h => h.mul ⟨z * z, rfl⟩

end

theorem isSquare_neg {v : ZMod p} (h : ¬ IsSquare v) : IsSquare (-v) := by
  have hroot := sqrt_mul_self v
  rw [if_neg h] at hroot
  exact ⟨_, hroot.symm⟩

end Secp256k1
