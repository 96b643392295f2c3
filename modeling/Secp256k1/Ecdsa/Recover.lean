import Secp256k1.Ecdsa.Verify

/-!
# Recovery of public keys

`secp256k1_ecdsa_sig_recover` of `modules/recovery/main_impl.h`, and its agreement with
verification: both solve `s R = m G + r Q`, the one for `R` and the other for `Q`.
-/

namespace Secp256k1

section

variable {F S : Type} (B : FieldOps F) (O : ScalarOps S)

/-- The x coordinate to try, or `none` where it would not be below `p`. -/
def recoverX (sigr : S) (recid : CInt) : Option (Option F) :=
  let fx := (B.setB32 (O.getB32 sigr)).1
  if recid &&& 2 ≠ 0 then
    if B.cmpVar fx (pMinusOrder B) ≥ 0 then some none
    else do
      let fx ← B.add fx (orderAsFe B)
      return some fx
  else some (some fx)

/-- The public key, or `none` for the return value 0; `pubkey` is what the memory held. -/
def ecdsaSigRecover (g : Gmp) (ecmult : Gej F → S → S → Option (Gej F)) (sigr sigs : S)
    (pubkey : Ge F) (message : S) (recid : CInt) : Option (Option (Ge F)) :=
  if O.isZero sigr || O.isZero sigs then some none
  else do
    match ← recoverX B O sigr recid with
    | none => return none
    | some fx =>
      let (x, ok) ← geSetXoVar B fx (recid &&& 1 ≠ 0)
      if !ok then return none
      else
        let rn ← scalarInverseVar O g sigr
        let u1 := O.negate (O.mul rn message)
        let u2 := O.mul rn sigs
        let qj ← ecmult (gejSetGe B x) u2 u1
        let (pubkey, qj) ← geSetGejVar B pubkey qj
        return if qj.infinity then none else some pubkey

end

/-! ## The equation both functions solve -/

/-- With inverses of `r` and `s` modulo the order, the equation is solved for either point. -/
theorem solve_iff {r s rn sn m : ℕ} (hr : r * rn % n = 1) (hs : s * sn % n = 1) (R Q : Point) :
    (sn * r % n) • Q + (sn * m % n) • generator = R ↔
      (rn * s % n) • R + ((n - rn * m % n) % n) • generator = Q := by
  let _ : Module (ZMod n) Point := AddCommGroup.zmodModule order_smul
  have hcast : ∀ (k : ℕ) (P : Point), k • P = (k : ZMod n) • P := fun k P =>
    (Nat.cast_smul_eq_nsmul (ZMod n) k P).symm
  have hone : ∀ {a b : ℕ}, a * b % n = 1 → (a : ZMod n) * (b : ZMod n) = 1 := fun {a b} h => by
    rw [← Nat.cast_mul, ← ZMod.natCast_mod, h, Nat.cast_one]
  have hneg : ((n - rn * m % n : ℕ) : ZMod n) = -(rn * m) := by
    rw [Nat.cast_sub (Nat.mod_lt _ n_pos).le, ZMod.natCast_self, ZMod.natCast_mod, zero_sub,
      Nat.cast_mul]
  have hr' := hone hr
  have hs' := hone hs
  simp only [hcast, ZMod.natCast_mod, Nat.cast_mul, hneg]
  constructor
  · rintro rfl
    rw [smul_add, smul_smul, smul_smul, add_assoc, ← add_smul]
    rw [show (rn * s * (sn * r) : ZMod n) = 1 by linear_combination rn * r * hs' + hr',
      show (rn * s * (sn * m) + -(rn * m) : ZMod n) = 0 by linear_combination rn * m * hs',
      one_smul, zero_smul, add_zero]
  · rintro rfl
    rw [smul_add, smul_smul, smul_smul, add_assoc, ← add_smul]
    rw [show (sn * r * (rn * s) : ZMod n) = 1 by linear_combination sn * s * hr' + hs',
      show (sn * r * -(rn * m) + sn * m : ZMod n) = 0 by linear_combination -sn * m * hr',
      one_smul, zero_smul, add_zero]

section

variable {b : FieldBackend} (hb : b.Sound) {c : ScalarBackend} {g : Gmp} (hg : g.Sound)
  {ecmult : Gej b.Fe → c.Scalar → c.Scalar → Option (Gej b.Fe)} (hec : b.EcmultSpec c ecmult)

/-- What the order test of the backend says of a scalar and `p - n`. -/
def BelowDifference (b : FieldBackend) (c : ScalarBackend) (sigr : c.Scalar) : Prop :=
  b.ops.cmpVar (b.ops.setB32 (c.ops.getB32 sigr)).1 (pMinusOrder b.ops) < 0

/-- The x coordinates that both functions take for the one the signature was made with. -/
def Candidate (b : FieldBackend) (c : ScalarBackend) (sigr : c.Scalar) (second : Prop)
    (v : ZMod p) : Prop :=
  (¬ second ∧ v = (c.val sigr : ZMod p)) ∨
    second ∧ BelowDifference b c sigr ∧ v = (c.val sigr : ZMod p) + (n : ZMod p)

theorem Candidate.unique {r : c.Scalar} {second : Prop} {v v' : ZMod p}
    (h : Candidate b c r second v) (h' : Candidate b c r second v') : v = v' := by
  rcases h with ⟨hs, rfl⟩ | ⟨hs, -, rfl⟩ <;> rcases h' with ⟨hs', rfl⟩ | ⟨hs', -, rfl⟩
  · rfl
  · exact absurd hs' hs
  · exact absurd hs hs'
  · rfl

include hb

theorem recoverX_spec {r : c.Scalar} (hr : c.val r < n) (recid : CInt) :
    Yields (recoverX b.ops c.ops r recid) fun o =>
      (o = none ∧ ∀ v, ¬ Candidate b c r (recid &&& 2 ≠ 0) v) ∨
        ∃ fx v, o = some fx ∧ Candidate b c r (recid &&& 2 ≠ 0) v ∧ (b.values hb).raw 2 v fx := by
  have hlt : Bytes.be (c.ops.getB32 r) < p := by
    rw [c.sound.getB32]
    exact hr.trans n_lt_p
  have hfx := ((b.values hb).setB32 hlt).1
  rw [c.sound.getB32] at hfx
  have hraw := (b.values hb).raw_of_rep ((b.values hb).rep_of_norm hfx)
  have hord := (b.values hb).raw_of_rep ((b.values hb).rep_of_norm (orderAsFe_spec (b.values hb)))
  unfold recoverX
  by_cases h2 : recid &&& 2 ≠ 0
  · simp only [if_pos h2]
    by_cases hcmp : BelowDifference b c r
    · rw [if_neg (not_le.mpr hcmp)]
      refine ((b.values hb).add (by norm_num) hraw hord).bind fun fx hsum => ?_
      exact .pure (.inr ⟨fx, _, rfl, .inr ⟨h2, hcmp, rfl⟩, (b.values hb).raw_of_rep hsum⟩)
    · rw [if_pos (not_lt.mp hcmp)]
      refine .some (.inl ⟨rfl, fun v hv => ?_⟩)
      rcases hv with ⟨hn, -⟩ | ⟨-, hlt, -⟩
      · exact hn h2
      · exact hcmp hlt
  · simp only [if_neg h2]
    exact .some (.inr ⟨_, _, rfl, .inl ⟨h2, rfl⟩, (b.values hb).raw_mono (by norm_num) hraw⟩)

include hec

include hg in
theorem ecdsaSigVerify_spec {r s m : c.Scalar} (hr0 : 0 < c.val r) (hr : c.val r < n)
    (hs0 : 0 < c.val s) (hs : c.val s < n) {q : Ge b.Fe} {x y : ZMod p}
    (hq : b.AffineOf q x y) :
    ∃ sn, c.val s * sn % n = 1 ∧
      Yields (ecdsaSigVerify b.ops c.ops g ecmult r s q m) fun ok => ok = true ↔
        ∃ (v w : ZMod p) (h : OnCurve v w), (∃ second, Candidate b c r second v) ∧
          (sn * c.val r % n) • hq.point.point + (sn * c.val m % n) • generator = h.point := by
  have hO := c.sound
  obtain ⟨sn, hsn, -, hinv⟩ := scalarInverseVar_spec hO hg hs0 hs
  refine ⟨c.val sn, hinv, ?_⟩
  have hnz : ¬ (c.ops.isZero r || c.ops.isZero s) = true := by
    rw [hO.isZero, hO.isZero, Bool.or_eq_true, decide_eq_true_iff, decide_eq_true_iff]
    omega
  rw [ecdsaSigVerify, if_neg hnz, hsn]
  obtain ⟨hj, hz⟩ := FieldBackend.gejSetGe_jacobianOf hb hq
  have hmul := hec _ (c.ops.mul sn r) (c.ops.mul sn m) x y hq.point hj hq.x_range hq.y_range hz
    (by rw [hO.mul]; exact Nat.mod_lt _ n_pos) (by rw [hO.mul]; exact Nat.mod_lt _ n_pos)
  rw [hO.mul, hO.mul] at hmul
  refine hmul.bind fun pr hpr => ?_
  generalize (c.val sn * c.val r % n) • hq.point.point +
    (c.val sn * c.val m % n) • generator = R at hpr ⊢
  cases R with
  | zero =>
    rw [show pr.infinity = true from hpr, if_pos rfl]
    exact .pure (iff_of_false Bool.false_ne_true fun ⟨_, _, _, _, h0⟩ =>
      WeierstrassCurve.Affine.Point.some_ne_zero _ h0.symm)
  | some v w hvw =>
    obtain ⟨hjr, hx, -, hz⟩ := hpr
    rw [hjr.finite, if_neg Bool.false_ne_true]
    refine (sigVerifyEnd_spec (b.values hb) hO hr (FieldBackend.raw_of_reduced hb hx hjr.x_eq)
      (by norm_num) (FieldBackend.raw_of_reduced hb hz rfl) hjr.z_ne).mono
      fun ok hok => hok.trans ⟨?_, ?_⟩
    · intro h
      refine ⟨v, w, hjr.point, ?_, rfl⟩
      rcases h with h | h
      · exact ⟨False, .inl ⟨not_false, h⟩⟩
      · exact ⟨True, .inr ⟨trivial, h⟩⟩
    · rintro ⟨v', w', h', ⟨second, hc⟩, heq⟩
      obtain ⟨rfl, rfl⟩ := WeierstrassCurve.Affine.Point.some.inj heq
      exact hc.imp And.right And.right

theorem recoverEnd_spec {u1 u2 : c.Scalar} (h1 : c.val u1 < n) (h2 : c.val u2 < n)
    {q : Ge b.Fe} {v w : ZMod p} (hq : b.AffineOf q v w) (pubkey : Ge b.Fe) :
    Yields (ecmult (gejSetGe b.ops q) u2 u1 >>= fun qj => geSetGejVar b.ops pubkey qj >>= fun r =>
      pure (if r.2.infinity then none else some r.1)) fun o => ∀ (x y : ZMod p) (h : OnCurve x y),
        (∃ k, o = some k ∧ b.AffineOf k x y) ↔
          c.val u2 • hq.point.point + c.val u1 • generator = h.point := by
  obtain ⟨hj, hz⟩ := FieldBackend.gejSetGe_jacobianOf hb hq
  refine (hec _ u2 u1 v w hq.point hj hq.x_range hq.y_range hz h2 h1).bind fun qj hqj => ?_
  generalize c.val u2 • hq.point.point + c.val u1 • generator = Q at hqj ⊢
  cases Q with
  | zero =>
    rw [geSetGejVar, if_pos (show qj.infinity = true from hqj)]
    refine .some fun x y h => ?_
    rw [show qj.infinity = true from hqj, if_pos rfl]
    refine iff_of_false ?_ fun h0 => WeierstrassCurve.Affine.Point.some_ne_zero _ h0.symm
    rintro ⟨_, hk, -⟩
    cases hk
  | some x' y' hxy =>
    obtain ⟨hjq, hx, hy, hz⟩ := hqj
    refine (geSetGejVar_spec (b.values hb).toFieldModel pubkey hjq.finite hjq.z_ne
      (FieldBackend.raw_of_reduced hb hx hjq.x_eq) (FieldBackend.raw_of_reduced hb hy hjq.y_eq)
      (FieldBackend.raw_of_reduced hb hz rfl)).bind fun k hk => ?_
    obtain ⟨hinf, hkx, hky, hinf'⟩ := hk
    have hof := FieldBackend.affineOf_of_raw hb hinf hjq.point (FieldModel.raw8 hkx (by norm_num))
      (FieldModel.raw8 hky (by norm_num))
    refine .pure fun x y h => ?_
    rw [hinf', if_neg Bool.false_ne_true]
    constructor
    · rintro ⟨_, hk, hof'⟩
      obtain rfl := Option.some.inj hk
      obtain rfl : x' = x := hof.x_eq.symm.trans hof'.x_eq
      obtain rfl : y' = y := hof.y_eq.symm.trans hof'.y_eq
      rfl
    · intro heq
      obtain ⟨rfl, rfl⟩ := WeierstrassCurve.Affine.Point.some.inj heq
      exact ⟨_, rfl, hof⟩

include hg in
theorem ecdsaSigRecover_spec {r s m : c.Scalar} (hr0 : 0 < c.val r) (hr : c.val r < n)
    (hs0 : 0 < c.val s) (pubkey : Ge b.Fe) (recid : CInt) :
    ∃ rn, c.val r * rn % n = 1 ∧
      Yields (ecdsaSigRecover b.ops c.ops g ecmult r s pubkey m recid) fun o =>
        ∀ (x y : ZMod p) (h : OnCurve x y), (∃ q, o = some q ∧ b.AffineOf q x y) ↔
          ∃ (v w : ZMod p) (hvw : OnCurve v w), Candidate b c r (recid &&& 2 ≠ 0) v ∧
            (w.val % 2 = 1 ↔ recid &&& 1 ≠ 0) ∧
            (rn * c.val s % n) • hvw.point + ((n - rn * c.val m % n) % n) • generator =
              h.point := by
  have hO := c.sound
  obtain ⟨rn, hrn, -, hinv⟩ := scalarInverseVar_spec hO hg hr0 hr
  refine ⟨c.val rn, hinv, ?_⟩
  have hnz : ¬ (c.ops.isZero r || c.ops.isZero s) = true := by
    rw [hO.isZero, hO.isZero, Bool.or_eq_true, decide_eq_true_iff, decide_eq_true_iff]
    omega
  rw [ecdsaSigRecover, if_neg hnz]
  refine (recoverX_spec hb hr recid).bind fun o ho => ?_
  rcases ho with ⟨rfl, hnone⟩ | ⟨fx, v, rfl, hcand, hfx⟩
  · refine .pure fun x y h => iff_of_false ?_ ?_
    · rintro ⟨_, hk, -⟩
      cases hk
    · rintro ⟨v, _, _, hv, -⟩
      exact hnone v hv
  refine (geSetXoVar_spec (b.values hb) hfx (by norm_num) (recid &&& 1 ≠ 0)).bind
    fun ⟨k, ok⟩ ⟨hok, hk⟩ => ?_
  cases ok with
  | false =>
    refine .pure fun x y h => iff_of_false ?_ ?_
    · rintro ⟨_, hk, -⟩
      cases hk
    · rintro ⟨v', w, hvw, hv', -⟩
      obtain rfl := hcand.unique hv'
      exact Bool.false_ne_true (hok.mpr ⟨w, hvw⟩)
  | true =>
    obtain ⟨hkx, hinf, w, hvw, hky, hpar⟩ := hk rfl
    rw [decide_eq_true_iff] at hpar
    have hk : b.AffineOf k v w := by
      rw [← show k.x = fx from hkx] at hfx
      exact FieldBackend.affineOf_of_raw hb hinf hvw ((b.values hb).raw_mono (by norm_num) hfx)
        (FieldModel.raw8 hky (by norm_num))
    simp only [Bool.not_true, Bool.false_eq_true, if_false, hrn]
    have h1 : c.val (c.ops.negate (c.ops.mul rn m)) = (n - c.val rn * c.val m % n) % n := by
      rw [hO.negate _ (by rw [hO.mul]; exact Nat.mod_lt _ n_pos), hO.mul]
    have h2 : c.val (c.ops.mul rn s) = c.val rn * c.val s % n := hO.mul rn s
    refine (recoverEnd_spec hb hec (by rw [h1]; exact Nat.mod_lt _ n_pos)
      (by rw [h2]; exact Nat.mod_lt _ n_pos) hk pubkey).mono fun o ho x y h => (ho x y h).trans ?_
    rw [h1, h2]
    constructor
    · exact fun heq => ⟨v, w, hvw, hcand, hpar, heq⟩
    · rintro ⟨v', w', hvw', hv', hpar', heq⟩
      obtain rfl := hcand.unique hv'
      obtain rfl := root_unique hvw hvw' (cube_add_seven_ne_zero v) (hpar.trans hpar'.symm)
      exact heq

omit hb hec in
theorem exists_recid (second odd : Prop) :
    ∃ recid ∈ ([0, 1, 2, 3] : List CInt), (recid &&& 2 ≠ 0 ↔ second) ∧ (recid &&& 1 ≠ 0 ↔ odd) := by
  by_cases hs : second <;> by_cases ho : odd
  · exact ⟨3, by decide, iff_of_true (by decide) hs, iff_of_true (by decide) ho⟩
  · exact ⟨2, by decide, iff_of_true (by decide) hs, iff_of_false (by decide) ho⟩
  · exact ⟨1, by decide, iff_of_false (by decide) hs, iff_of_true (by decide) ho⟩
  · exact ⟨0, by decide, iff_of_false (by decide) hs, iff_of_false (by decide) ho⟩

include hg in
/-- A signature is accepted for a key exactly when the key is one of those recovered from it. -/
theorem ecdsaSigVerify_iff_recover {r s : c.Scalar} (hr0 : 0 < c.val r) (hr : c.val r < n)
    (hs0 : 0 < c.val s) (hs : c.val s < n) (m : c.Scalar) {q : Ge b.Fe} {x y : ZMod p}
    (hq : b.AffineOf q x y) (pubkey : Ge b.Fe) :
    (∀ recid, ecdsaSigRecover b.ops c.ops g ecmult r s pubkey m recid ≠ none) ∧
      Yields (ecdsaSigVerify b.ops c.ops g ecmult r s q m) fun ok => ok = true ↔
        ∃ recid ∈ ([0, 1, 2, 3] : List CInt), ∃ k,
          ecdsaSigRecover b.ops c.ops g ecmult r s pubkey m recid = some (some k) ∧
            b.AffineOf k x y := by
  have hrec := ecdsaSigRecover_spec (m := m) hb hg hec hr0 hr hs0 pubkey
  refine ⟨fun recid => ?_, ?_⟩
  · obtain ⟨_, _, h⟩ := hrec recid
    exact h.ne_none
  obtain ⟨sn, hsn, hver⟩ := ecdsaSigVerify_spec (m := m) hb hg hec hr0 hr hs0 hs hq
  refine hver.mono fun ok hok => hok.trans ⟨?_, ?_⟩
  · rintro ⟨v, w, h, ⟨second, hc⟩, heq⟩
    obtain ⟨recid, hmem, h2, h1⟩ := exists_recid second (w.val % 2 = 1)
    obtain ⟨rn, hrn, o, ho, hspec⟩ := hrec recid
    rw [← propext h2] at hc
    obtain ⟨k, rfl, hk⟩ := (hspec x y hq.point).mpr
      ⟨v, w, h, hc, h1.symm, (solve_iff hrn hsn h.point hq.point.point).mp heq⟩
    exact ⟨recid, hmem, k, ho, hk⟩
  · rintro ⟨recid, -, k, hk, hof⟩
    obtain ⟨rn, hrn, hspec⟩ := hrec recid
    obtain ⟨v, w, h, hc, -, heq⟩ := (hspec.of_eq_some hk x y hq.point).mp ⟨k, rfl, hof⟩
    exact ⟨v, w, h, ⟨_, hc⟩, (solve_iff hrn hsn h.point hq.point.point).mpr heq⟩

end

/-- The signature `(1, 1)` of the message 1, and the generator for the key. -/
theorem ecdsaSigVerify_iff_recover_demo :
    Yields (ecdsaSigVerify (FieldBackend.limbs4x64 .reference).ops Scalar4x64.ops .reference
        ((FieldBackend.limbs4x64 .reference).ecmultReference .limbs4x64)
        (Scalar4x64.scalarSetInt 1) (Scalar4x64.scalarSetInt 1)
        ⟨(FieldBackend.limbs4x64 .reference).encode generatorX,
          (FieldBackend.limbs4x64 .reference).encode generatorY, false⟩
        (Scalar4x64.scalarSetInt 1)) fun ok => ok = true ↔
      ∃ recid ∈ ([0, 1, 2, 3] : List CInt), ∃ k,
        ecdsaSigRecover (FieldBackend.limbs4x64 .reference).ops Scalar4x64.ops .reference
          ((FieldBackend.limbs4x64 .reference).ecmultReference .limbs4x64)
          (Scalar4x64.scalarSetInt 1) (Scalar4x64.scalarSetInt 1)
          (geClear (FieldBackend.limbs4x64 .reference).ops) (Scalar4x64.scalarSetInt 1) recid =
            some (some k) ∧
          (FieldBackend.limbs4x64 .reference).AffineOf k generatorX generatorY := by
  have hb : (FieldBackend.limbs4x64 .reference).Sound := Field4x64.Inner.reference_sound _
  have h1 : 0 < ScalarBackend.limbs4x64.val (Scalar4x64.scalarSetInt 1) := by decide
  have h2 : ScalarBackend.limbs4x64.val (Scalar4x64.scalarSetInt 1) < n := by decide
  exact (ecdsaSigVerify_iff_recover (c := .limbs4x64) hb Gmp.reference_sound
    (FieldBackend.ecmultReference_spec hb _) h1 h2 h1 h2 (Scalar4x64.scalarSetInt 1)
    (FieldBackend.encode_affineOf hb onCurve_generator) _).2

end Secp256k1
