import Secp256k1.Group.Points
import Secp256k1.Num

/-!
# Verification of signatures

`secp256k1_ecdsa_sig_verify` of `ecdsa_impl.h`. Point multiplication is a parameter. The end of the
function compares the x coordinate of a Jacobian point with a scalar without an inversion; whether
it decides the ECDSA condition depends on the order test of the field backend.
-/

namespace Secp256k1

section

variable {F S : Type} (B : FieldOps F) (O : ScalarOps S)

def orderAsFe : F :=
  B.const 0xFFFFFFFF 0xFFFFFFFF 0xFFFFFFFF 0xFFFFFFFE 0xBAAEDCE6 0xAF48A03B 0xBFD25E8C 0xD0364141

def pMinusOrder : F := B.const 0 0 0 1 0x45512319 0x50B75FC4 0x402DA172 0x2FC9BAEE

/-- `secp256k1_ecdsa_sig_verify` from the first `secp256k1_scalar_get_b32` on. -/
def sigVerifyEnd (sigr : S) (pr : Gej F) : Option Bool := do
  let xr := (B.setB32 (O.getB32 sigr)).1
  if ← gejEqXVar B xr pr then return true
  else if B.cmpVar xr (pMinusOrder B) ≥ 0 then return false
  else
    let xr ← B.add xr (orderAsFe B)
    gejEqXVar B xr pr

def ecdsaSigVerify (g : Gmp) (ecmult : Gej F → S → S → Option (Gej F)) (sigr sigs : S)
    (pubkey : Ge F) (message : S) : Option Bool :=
  if O.isZero sigr || O.isZero sigs then some false
  else do
    let sn ← scalarInverseVar O g sigs
    let u1 := O.mul sn message
    let u2 := O.mul sn sigr
    let pr ← ecmult (gejSetGe B pubkey) u2 u1
    if pr.infinity then return false
    else sigVerifyEnd B O sigr pr

end

section

variable {F S : Type} {B : FieldOps F} (M : FieldValues B) {m k : ℕ} {v w z : ZMod p} {x : F}
  {a : Gej F}

theorem orderAsFe_spec : M.norm (n : ZMod p) (orderAsFe B) := by
  have h := M.const 0xFFFFFFFF 0xFFFFFFFF 0xFFFFFFFF 0xFFFFFFFE 0xBAAEDCE6 0xAF48A03B 0xBFD25E8C
    0xD0364141 (by decide)
  rwa [show constVal _ _ _ _ _ _ _ _ = n by decide] at h

theorem pMinusOrder_spec : M.norm ((p - n : ℕ) : ZMod p) (pMinusOrder B) := by
  have h := M.const 0 0 0 1 0x45512319 0x50B75FC4 0x402DA172 0x2FC9BAEE (by decide)
  rwa [show constVal _ _ _ _ _ _ _ _ = p - n by decide] at h

/-- The end of the function for a point with x coordinate `v`: the comparison with the scalar, and,
behind the order test, with the scalar plus the order. -/
theorem sigVerifyEnd_spec {O : ScalarOps S} {val : S → ℕ} (hO : O.Sound val) {sigr : S}
    (hr : val sigr < n) (hax : M.raw k (v * (z * z)) a.x) (hk : k ≤ 32) (hz : M.raw 8 z a.z)
    (hz0 : z ≠ 0) :
    Yields (sigVerifyEnd B O sigr a) fun b => b = true ↔ v = (val sigr : ZMod p) ∨
      B.cmpVar (B.setB32 (O.getB32 sigr)).1 (pMinusOrder B) < 0 ∧
        v = (val sigr : ZMod p) + (n : ZMod p) := by
  have hzz : z * z ≠ 0 := mul_ne_zero hz0 hz0
  have hlt : Bytes.be (O.getB32 sigr) < p := by
    rw [hO.getB32]
    exact hr.trans n_lt_p
  have hxr := (M.setB32 hlt).1
  rw [hO.getB32] at hxr
  have hraw := M.raw_of_rep (M.rep_of_norm hxr)
  refine (gejEqXVar_spec M hraw (by norm_num) hax hk hz).bind fun b hb => ?_
  rw [mul_left_inj' hzz] at hb
  cases b with
  | true => exact .pure (iff_of_true rfl (.inl (hb.mp rfl)))
  | false =>
    have hne : v ≠ (val sigr : ZMod p) := fun h => Bool.false_ne_true (hb.mpr h)
    by_cases hcmp : B.cmpVar (B.setB32 (O.getB32 sigr)).1 (pMinusOrder B) ≥ 0
    · simp only [if_pos hcmp]
      exact .pure (iff_of_false Bool.false_ne_true fun h => h.elim hne fun h' => by omega)
    · simp only [if_neg hcmp]
      refine (M.add (by norm_num) hraw (M.raw_of_rep (M.rep_of_norm (orderAsFe_spec M)))).bind
        fun s hs => ?_
      refine (gejEqXVar_spec M (M.raw_of_rep hs) (by norm_num) hax hk hz).mono fun c hc => ?_
      rw [mul_left_inj' hzz] at hc
      rw [hc]
      exact ⟨fun h => .inr ⟨by omega, h⟩, fun h => h.elim (absurd · hne) And.right⟩

end

/-! ## The ECDSA condition -/

/-- The end of the function decides whether the x coordinate is the scalar modulo the order. -/
def DecidesX {F S : Type} (B : FieldOps F) (O : ScalarOps S) (val : S → ℕ) (sigr : S) (pr : Gej F)
    (x : ZMod p) : Prop :=
  ∃ b, sigVerifyEnd B O sigr pr = some b ∧ (b = true ↔ x.val % n = val sigr)

/-- The bytes of the limbs in memory order `r` and `p - n` as the numbers are ordered. -/
def ByteOrdered (r : ℕ) : Prop :=
  Field4x64.memcmp (Field4x64.Fe.ofNat r).bytes (Field4x64.Fe.ofNat (p - n)).bytes < 0 ↔ r < p - n

/-- Below `p` there are at most two numbers with a given remainder. -/
theorem mod_order_iff {x r : ℕ} (hx : x < p) (hr : r < n) :
    x % n = r ↔ x = r ∨ r < p - n ∧ x = (r + n) % p := by
  have h2 : p < 2 * n := by decide
  have hnp := n_lt_p
  have hmod : (r + n) % p = if r + n < p then r + n else r + n - p := by
    split
    · exact Nat.mod_eq_of_lt ‹_›
    · rw [Nat.mod_eq_sub_mod (by omega), Nat.mod_eq_of_lt (by omega)]
  rw [hmod]
  generalize n = q at *
  generalize p = P at *
  by_cases hxq : x < q
  · rw [Nat.mod_eq_of_lt hxq]
    split <;> omega
  · rw [Nat.mod_eq_sub_mod (by omega), Nat.mod_eq_of_lt (by omega)]
    split <;> omega

/-- What an order test `lt` makes of the condition. -/
theorem decides_iff {x r : ℕ} {lt : Prop} (hx : x < p) (hr : r < n) :
    (x = r ∨ lt ∧ x = (r + n) % p ↔ x % n = r) ↔ (x = (r + n) % p → (lt ↔ r < p - n)) := by
  rw [mod_order_iff hx hr]
  have hne : (r + n) % p ≠ r := by
    have h2 : p < 2 * n := by decide
    have hnp := n_lt_p
    have hn0 := n_pos
    rcases Nat.lt_or_ge (r + n) p with h | h
    · rw [Nat.mod_eq_of_lt h]
      omega
    · rw [Nat.mod_eq_sub_mod h, Nat.mod_eq_of_lt (by omega)]
      omega
  constructor
  · intro h hx'
    have hxr : x ≠ r := hx' ▸ hne
    simpa [hxr, hx', hne] using h
  · intro h
    by_cases hx' : x = (r + n) % p
    · rw [h hx']
    · simp [hx']

theorem natCast_add_order {v : ZMod p} {r : ℕ} :
    v = (r : ZMod p) + (n : ZMod p) ↔ v.val = (r + n) % p := by
  rw [← Nat.cast_add, ← ZMod.val_natCast]
  exact (ZMod.val_injective p).eq_iff.symm

theorem natCast_lt_iff {v : ZMod p} {r : ℕ} (hr : r < p) : v = (r : ZMod p) ↔ v.val = r := by
  constructor
  · rintro rfl
    exact ZMod.val_natCast_of_lt hr
  · intro h
    rw [← h, ZMod.natCast_zmod_val]

section

variable {F S : Type} {B : FieldOps F} (M : FieldValues B) {k : ℕ} {v z : ZMod p} {a : Gej F}

/-- The condition is decided if the order test is right, or is not asked. -/
theorem decidesX_iff {O : ScalarOps S} {val : S → ℕ} (hO : O.Sound val) {sigr : S}
    (hr : val sigr < n) (hax : M.raw k (v * (z * z)) a.x) (hk : k ≤ 32) (hz : M.raw 8 z a.z)
    (hz0 : z ≠ 0) :
    DecidesX B O val sigr a v ↔ (v.val = (val sigr + n) % p →
      (B.cmpVar (B.setB32 (O.getB32 sigr)).1 (pMinusOrder B) < 0 ↔ val sigr < p - n)) := by
  obtain ⟨b, hb, hiff⟩ := sigVerifyEnd_spec M hO hr hax hk hz hz0
  rw [natCast_add_order, natCast_lt_iff (hr.trans n_lt_p)] at hiff
  rw [← decides_iff (ZMod.val_lt v) hr, ← hiff]
  constructor
  · rintro ⟨c, hc, h⟩
    obtain rfl : c = b := Option.some.inj (hc.symm.trans hb)
    exact h
  · exact fun h => ⟨b, hb, h⟩

end

theorem feCmpVar_5x52 {r : ℕ} {a : Field5x52.Fe} (kc : Field5x52.KernelChoice) (hr : r < n)
    (ha : (Field5x52.values kc.sound).norm (r : ZMod p) a) :
    Field5x52.feCmpVar a (pMinusOrder (Field5x52.ops kc.kernel)) < 0 ↔ r < p - n := by
  have hb := pMinusOrder_spec (Field5x52.values kc.sound)
  have hra := val_of_cast ha.1.val ha.2
  have hrb := val_of_cast hb.1.val hb.2
  rw [ZMod.val_natCast_of_lt (hr.trans n_lt_p)] at hra
  rw [ZMod.val_natCast_of_lt (by decide)] at hrb
  rw [← not_le, Field5x52.feCmpVar_nonneg ha.1 hb.1, ← hra, ← hrb, not_le]

theorem feSetB32_4x64 {S : Type} {O : ScalarOps S} {val : S → ℕ} (hO : O.Sound val) (a : S) :
    (Field4x64.feSetB32 (O.getB32 a)).1 = Field4x64.Fe.ofNat (val a) := by
  have hlt : val a < 2 ^ 256 := by
    rw [← hO.getB32]
    exact (Bytes.be_lt _).trans_eq (by norm_num)
  apply Field4x64.Fe.val_inj
  rw [Field4x64.feSetB32_val, hO.getB32, Field4x64.Fe.val_ofNat hlt]

theorem decidesX_4x64 {S : Type} {O : ScalarOps S} {val : S → ℕ} (hO : O.Sound val) {sigr : S}
    (hr : val sigr < n) {I : Field4x64.Inner} (hI : I.Sound fun _ => True)
    {pr : Gej Field4x64.Fe} {x y : ZMod p} (hpr : JacobianOf (·.val) pr x y) :
    DecidesX (Field4x64.ops I) O val sigr pr x ↔
      (x.val = (val sigr + n) % p → ByteOrdered (val sigr)) := by
  rw [decidesX_iff (Field4x64.values hI) (k := 1) hO hr hpr.x_eq (by norm_num) rfl hpr.z_ne]
  have hconst : pMinusOrder (Field4x64.ops I) = Field4x64.Fe.ofNat (p - n) := by
    change Field4x64.feConst 0 0 0 1 0x45512319 0x50B75FC4 0x402DA172 0x2FC9BAEE = _
    decide
  rw [show (Field4x64.ops I).cmpVar = Field4x64.feCmpVar from rfl,
    show (Field4x64.ops I).setB32 = Field4x64.feSetB32 from rfl, feSetB32_4x64 hO, hconst]
  rfl

/-- The end of `secp256k1_ecdsa_sig_verify`, for every scalar and every Jacobian form of a point
within the ranges of `secp256k1_gej_eq_x_var`: on the five-limb backend it decides the ECDSA
condition; on the four-limb backend it does unless the x coordinate is the scalar plus the order,
modulo `p`, and the bytes of the scalar and of `p - n` do not compare as the numbers do. -/
theorem sigVerifyEnd_decides_iff (c : ScalarBackend) (sigr : c.Scalar) (hr : c.val sigr < n)
    (x y : ZMod p) :
    (∀ (kc : Field5x52.KernelChoice) (pr : Gej Field5x52.Fe), JacobianOf (·.val) pr x y →
      Field5x52.Mag 32 pr.x → Field5x52.Mag 8 pr.z →
      DecidesX (Field5x52.ops kc.kernel) c.ops c.val sigr pr x) ∧
    ∀ I : Field4x64.Inner, I.Sound (fun _ => True) → ∀ pr : Gej Field4x64.Fe,
      JacobianOf (·.val) pr x y →
      (DecidesX (Field4x64.ops I) c.ops c.val sigr pr x ↔
        (x.val = (c.val sigr + n) % p → ByteOrdered (c.val sigr))) := by
  constructor
  · intro kc pr hpr hx hz
    rw [decidesX_iff (Field5x52.values kc.sound) c.sound hr ⟨hx, hpr.x_eq⟩ le_rfl ⟨hz, rfl⟩
      hpr.z_ne]
    intro _
    have hlt : Bytes.be (c.ops.getB32 sigr) < p := by
      rw [c.sound.getB32]
      exact hr.trans n_lt_p
    have hnorm := ((Field5x52.values kc.sound).setB32 hlt).1
    rw [c.sound.getB32] at hnorm
    exact feCmpVar_5x52 kc hr hnorm
  · intro I hI pr hpr
    exact decidesX_4x64 c.sound hr hI hpr

/-- A point of the four-limb backend with `z = 1`. -/
theorem jacobianOf_one {x y : ℕ} (hx : x < p) (hy : y < p) (h : y * y % p = (x * x * x + 7) % p) :
    JacobianOf (·.val) ⟨Field4x64.Fe.ofNat x, Field4x64.Fe.ofNat y, Field4x64.Fe.ofNat 1, false⟩
      (x : ZMod p) (y : ZMod p) := by
  have h1 : (Field4x64.Fe.ofNat 1).val = 1 := Field4x64.Fe.val_ofNat (by norm_num)
  refine ⟨rfl, onCurve_natCast.mpr h, ?_, ?_, ?_⟩
  · simp only [h1, Nat.cast_one]
    exact one_ne_zero
  · simp only [h1, Field4x64.Fe.val_ofNat (hx.trans p_lt), Nat.cast_one, mul_one]
  · simp only [h1, Field4x64.Fe.val_ofNat (hy.trans p_lt), Nat.cast_one, mul_one]

/-- The scalar 1 and the generator. -/
theorem sigVerifyEnd_decides_iff_demo :
    DecidesX (Field4x64.ops .reference) Scalar4x64.ops Limbs.val (Scalar4x64.scalarSetInt 1)
      ⟨Field4x64.Fe.ofNat
          0x79BE667EF9DCBBAC55A06295CE870B07029BFCDB2DCE28D959F2815B16F81798,
        Field4x64.Fe.ofNat
          0x483ADA7726A3C4655DA4FBFC0E1108A8FD17B448A68554199C47D08FFB10D4B8,
        Field4x64.Fe.ofNat 1, false⟩
      (0x79BE667EF9DCBBAC55A06295CE870B07029BFCDB2DCE28D959F2815B16F81798 : ℕ) := by
  refine ((sigVerifyEnd_decides_iff .limbs4x64 (Scalar4x64.scalarSetInt 1) (by decide) _ _).2
    .reference (Field4x64.Inner.reference_sound _) _
    (jacobianOf_one (by decide) (by decide) (by decide))).mpr fun h => ?_
  rw [ZMod.val_natCast_of_lt (by decide)] at h
  exact absurd h (by decide)

/-- The scalar 240 and a point with x coordinate `n + 240`. -/
theorem sigVerifyEnd_not_decides :
    JacobianOf (·.val) ⟨Field4x64.Fe.ofNat (n + 240), Field4x64.Fe.ofNat
        0x9741A4BBFA3FB9471375322B0772D61ACC464747DB64664D48C221CD78B3417E,
        Field4x64.Fe.ofNat 1, false⟩ ((n + 240 : ℕ) : ZMod p)
      (0x9741A4BBFA3FB9471375322B0772D61ACC464747DB64664D48C221CD78B3417E : ℕ) ∧
    Limbs.val (Scalar4x64.scalarSetInt 240) = 240 ∧
    ¬ DecidesX (Field4x64.ops .reference) Scalar4x64.ops Limbs.val (Scalar4x64.scalarSetInt 240)
      ⟨Field4x64.Fe.ofNat (n + 240), Field4x64.Fe.ofNat
        0x9741A4BBFA3FB9471375322B0772D61ACC464747DB64664D48C221CD78B3417E,
        Field4x64.Fe.ofNat 1, false⟩ ((n + 240 : ℕ) : ZMod p) := by
  have hpr := jacobianOf_one (x := n + 240)
    (y := 0x9741A4BBFA3FB9471375322B0772D61ACC464747DB64664D48C221CD78B3417E) (by decide)
    (by decide) (by decide)
  have hr : Limbs.val (Scalar4x64.scalarSetInt 240) = 240 := by decide
  refine ⟨hpr, hr, ?_⟩
  rw [decidesX_4x64 Scalar4x64.ops_sound (by rw [hr]; decide)
    (Field4x64.Inner.reference_sound _) hpr, hr, ZMod.val_natCast_of_lt (by decide)]
  intro h
  exact absurd (h (by decide)) (by unfold ByteOrdered; decide)

end Secp256k1
