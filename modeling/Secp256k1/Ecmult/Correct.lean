import Secp256k1.Ecmult.Table

/-!
# What point multiplication computes

The accumulator of `secp256k1_ecmult` holds the sum of the digits read so far, on the curve whose
points lack the common z coordinate of the table. Its last product puts that coordinate back.
-/

namespace Secp256k1

open ShortCurve

section

variable {F S : Type} {B : FieldOps F} {M : FieldValues B} {g : ZMod p} {P Q : Point}

/-! ## Table lookups -/

/-- The odd multiple that a digit selects. -/
theorem IsDigit.smul_eq {w : ℕ} {d : ℤ} (h : IsDigit w d) (h0 : d ≠ 0) (P : Point) :
    (0 < d → (2 * ((d - 1) / 2).toNat + 1) • P = d • P) ∧
      (d < 0 → -((2 * ((-d - 1) / 2).toNat + 1) • P) = d • P) := by
  obtain ⟨hodd, -, -⟩ := h h0
  refine ⟨fun hd => ?_, fun hd => ?_⟩
  · rw [← natCast_zsmul]
    congr 1
    omega
  · rw [← natCast_zsmul, ← neg_zsmul]
    congr 1
    omega

theorem ecmultTableGetGe_at {w : ℕ} (hw : 2 ≤ w) {pre : ℕ → Ge F}
    (hpre : ∀ j < ecmultTableSize w, GeAt M.toFieldModel g ((2 * j + 1) • P) (pre j)) {d : ℤ}
    (hd : IsDigit w d) (h0 : d ≠ 0) :
    Yields (ecmultTableGetGe B pre d) (GeAt M.toFieldModel g (d • P)) := by
  obtain ⟨hpos, hneg⟩ := hd.index_lt hw h0
  obtain ⟨epos, eneg⟩ := hd.smul_eq h0 P
  unfold ecmultTableGetGe
  split
  · next h =>
    rw [← epos h]
    exact .some (hpre _ (hpos h))
  · next h =>
    have hlt : d < 0 := by omega
    rw [← eneg hlt]
    exact geNeg_at (hpre _ (hneg hlt))

theorem ecmultTableGetGeStorage_at {w : ℕ} (hw : 2 ≤ w) {pre : ℕ → GeStorage}
    (hpre : ∀ j < ecmultTableSize w, StoredAt ((2 * j + 1) • P) (pre j)) {d : ℤ}
    (hd : IsDigit w d) (h0 : d ≠ 0) :
    Yields (ecmultTableGetGeStorage B pre d) (GeAt M.toFieldModel 1 (d • P)) := by
  obtain ⟨hpos, hneg⟩ := hd.index_lt hw h0
  obtain ⟨epos, eneg⟩ := hd.smul_eq h0 P
  unfold ecmultTableGetGeStorage
  split
  · next h =>
    rw [← epos h]
    exact .some (geFromStorage_at M (hpre _ (hpos h)))
  · next h =>
    have hlt : d < 0 := by omega
    rw [← eneg hlt]
    exact geNeg_at (geFromStorage_at M (hpre _ (hneg hlt)))

/-! ## The loop -/

variable (hM : M.MulInt)

/-- The digits of a scalar as the loop reads them. -/
structure DigitsOf (w : ℕ) (d : ℕ → ℤ) (bits : ℕ) : Prop where
  digit : ∀ i, IsDigit w (d i)
  zero : ∀ i, bits ≤ i → d i = 0

theorem DigitsOf.eq_zero {w : ℕ} {d : ℕ → ℤ} {bits i : ℕ} (hd : DigitsOf w d bits)
    (h : ¬(i < bits ∧ d i ≠ 0)) : d i = 0 := by
  by_contra hne
  exact hne (hd.zero i (Nat.not_lt.mp fun hlt => h ⟨hlt, hne⟩))

section

include hM

theorem ecmultAddA_at {preA : ℕ → Ge F}
    (hpre : ∀ j < ecmultTableSize windowA, GeAt M.toFieldModel g ((2 * j + 1) • P) (preA j))
    {d : ℕ → ℤ} {bits : ℕ} (hd : DigitsOf windowA d bits) (i : ℕ) {r : Gej F}
    (hr : GejAt M.toFieldModel g Q r) :
    Yields (ecmultAddA B preA d bits i r) (GejAt M.toFieldModel g (Q + d i • P)) := by
  unfold ecmultAddA
  split
  · next h =>
    refine (ecmultTableGetGe_at (by decide) hpre (hd.digit i) h.2).bind fun tmpa htmpa => ?_
    exact (gejAddGeVar_at hM M.zero_iff.mp r hr htmpa).bind fun t ht => .pure ht
  · next h =>
    rw [hd.eq_zero h, zero_zsmul, add_zero]
    exact .some hr

theorem ecmultAddG_at {preG : ℕ → GeStorage}
    (hpre : ∀ j < ecmultTableSize windowG, StoredAt ((2 * j + 1) • P) (preG j)) {globalZ : F}
    (hz : M.raw 8 g globalZ) (hg : g ≠ 0) {d : ℕ → ℤ} {bits : ℕ} (hd : DigitsOf windowG d bits)
    (i : ℕ) {r : Gej F} (hr : GejAt M.toFieldModel g Q r) :
    Yields (ecmultAddG B preG globalZ d bits i r) (GejAt M.toFieldModel g (Q + d i • P)) := by
  unfold ecmultAddG
  split
  · next h =>
    refine (ecmultTableGetGeStorage_at (M := M) (by decide) hpre (hd.digit i) h.2).bind
      fun tmpa htmpa => ?_
    exact gejAddZinvVar_at hM M.zero_iff.mp r hr htmpa hz hg
  · next h =>
    rw [hd.eq_zero h, zero_zsmul, add_zero]
    exact .some hr

/-- From the index `i` down: what the accumulator held is doubled `i` times, and the digits below
`i` are added. -/
theorem ecmultLoop_at {preA : ℕ → Ge F}
    (hpreA : ∀ j < ecmultTableSize windowA, GeAt M.toFieldModel g ((2 * j + 1) • P) (preA j))
    {globalZ : F} (hz : M.raw 8 g globalZ) (hg : g ≠ 0) {preG : ℕ → GeStorage}
    (hpreG : ∀ j < ecmultTableSize windowG, StoredAt ((2 * j + 1) • generator) (preG j))
    {dA dG : ℕ → ℤ} {bitsA bitsG : ℕ} (hdA : DigitsOf windowA dA bitsA)
    (hdG : DigitsOf windowG dG bitsG) (i : ℕ) {r : Gej F} (hr : GejAt M.toFieldModel g Q r) :
    Yields (ecmultLoop B preA globalZ preG dA bitsA dG bitsG i r) (GejAt M.toFieldModel g
      ((2 ^ i : ℤ) • Q + digitSum dA i • P + digitSum dG i • generator)) := by
  induction i generalizing r Q with
  | zero =>
    have hsum : ∀ d : ℕ → ℤ, digitSum d 0 = 0 := fun d => Finset.sum_range_zero _
    rw [pow_zero, one_zsmul, hsum, hsum, zero_zsmul, zero_zsmul, add_zero, add_zero]
    exact .some hr
  | succ i ih =>
    refine (gejDoubleVar_at hM r hr).bind fun t ht => ?_
    refine (ecmultAddA_at hM hpreA hdA i ht).bind fun r hr => ?_
    refine (ecmultAddG_at hM hpreG hz hg hdG i hr).bind fun r hr => ?_
    have hpoint : (2 ^ (i + 1) : ℤ) • Q + digitSum dA (i + 1) • P +
          digitSum dG (i + 1) • generator =
        (2 ^ i : ℤ) • (Q + Q + dA i • P + dG i • generator) + digitSum dA i • P +
          digitSum dG i • generator := by
      rw [digitSum_succ, digitSum_succ]
      module
    rw [hpoint]
    exact ih hr

end

/-! ## The multiplication -/

/-- A Jacobian form of the point that the zero tests and normalizations can be applied to. -/
def ReducedAt (M : FieldModel B (ZMod p)) (P : Point) (a : Gej F) : Prop :=
  a.infinity = true ∧ P = 0 ∨ ∃ X Y Z, a.infinity = false ∧ M.rep 8 X a.x ∧ M.rep 8 Y a.y ∧
    M.rep 8 Z a.z ∧ Jac X Y Z P

variable {O : ScalarOps S} {val : S → ℕ} (hO : O.Sound val)

include hO in
/-- The digits of a scalar spell its multiples of a point. -/
theorem ecmultWnaf_smul {w : ℕ} (hw : 2 ≤ w) (hw31 : w ≤ 31) {a : S} (ha : val a < n) :
    DigitsOf w (ecmultWnaf O 256 a w).1 (ecmultWnaf O 256 a w).2 ∧
      ∀ m, (ecmultWnaf O 256 a w).2 ≤ m → ∀ P : Point,
        digitSum (ecmultWnaf O 256 a w).1 m • P = val a • P := by
  obtain ⟨hsum, hdigit, -, hbits, hzero, -⟩ := ecmultWnaf_spec hO hw hw31 ha
  refine ⟨⟨hdigit, hzero⟩, fun m hm P => ?_⟩
  have heq : digitSum (ecmultWnaf O 256 a w).1 m = digitSum (ecmultWnaf O 256 a w).1 256 :=
    (digitSum_of_le hm hzero).trans (digitSum_of_le hbits hzero).symm
  rw [heq, hsum]
  split
  · exact natCast_zsmul P _
  · rw [sub_zsmul, natCast_zsmul, natCast_zsmul, order_smul, neg_zero, add_zero]

include hM hO in
theorem ecmult_at {preG : ℕ → GeStorage}
    (hpreG : ∀ j < ecmultTableSize windowG, StoredAt ((2 * j + 1) • generator) (preG j))
    (mem : EcmultMemory F) {a : Gej F} {X Y Z : ZMod p} (hinf : a.infinity = false)
    (hx : M.raw 8 X a.x) (hy : M.raw 8 Y a.y) (hz : M.raw 8 Z a.z) (hjac : Jac X Y Z P) {na ng : S}
    (hna : val na < n) (hng : val ng < n) :
    Yields (ecmult B O preG mem a na ng)
      (ReducedAt M.toFieldModel (val na • P + val ng • generator)) := by
  obtain ⟨hdA, hsumA⟩ := ecmultWnaf_smul hO (w := windowA) (by decide) (by decide) hna
  obtain ⟨hdG, hsumG⟩ := ecmultWnaf_smul hO (w := windowG) (by decide) (by decide) hng
  have htable : Yields (ecmultOddMultiplesTableGlobalzWindowa B mem a) fun t => ∃ g, g ≠ 0 ∧
      M.rep 1 g t.2 ∧ ∀ j < ecmultTableSize windowA,
        GeAt M.toFieldModel g ((2 * j + 1) • P) (t.1 j) := by
    refine (ecmultOddMultiplesTable_odd hjac.ne_zero hM M.zero_iff.mp (by decide) (by decide)
      mem.toTableMemory hinf hx hy hz hjac).bind ?_
    rintro ⟨prej, zr⟩ ⟨w, Z, ht, hlast⟩
    exact geGlobalzSetTableGej_at (by decide) ht hlast mem.preA mem.globalZ
  unfold ecmult
  generalize ecmultWnaf O 256 na windowA = tA at hdA hsumA ⊢
  generalize ecmultWnaf O 256 ng windowG = tG at hdG hsumG ⊢
  obtain ⟨dA, bitsA⟩ := tA
  obtain ⟨dG, bitsG⟩ := tG
  refine htable.bind ?_
  rintro ⟨preA, globalZ⟩ ⟨g, hg, hgz, hpreA⟩
  have hloop := ecmultLoop_at hM hpreA (FieldModel.raw8 hgz (by norm_num)) hg hpreG hdA hdG
    (max bitsA bitsG) (r := gejSetInfinity B) (Q := 0) (.inl ⟨rfl, rfl⟩)
  rw [hsumA _ (le_max_left _ _), hsumG _ (le_max_right _ _), zsmul_zero, zero_add] at hloop
  refine hloop.bind fun r hr => ?_
  rcases hr with ⟨hinf, hzero⟩ | ⟨X, Y, Z, hinf, hx, hy, hz, hjac⟩
  · rw [if_pos hinf]
    exact .pure (.inl ⟨hinf, hzero⟩)
  · rw [hinf, if_neg Bool.false_ne_true]
    refine (M.mul hz (FieldModel.raw8 hgz (by norm_num))).bind fun z hz' => .pure (.inr ?_)
    exact ⟨X, Y, Z * g, rfl, hx, hy, M.rep_mono (by norm_num) hz', hjac⟩

end

/-! ## The multiplication of a build -/

namespace FieldBackend

variable {b : FieldBackend} (hb : b.Sound)
include hb

theorem gejOf_of_reducedAt {a : Gej b.Fe} {P : Point}
    (h : ReducedAt (b.values hb).toFieldModel P a) : b.GejOf a P := by
  rcases h with ⟨hinf, rfl⟩ | ⟨X, Y, Z, hinf, hx, hy, hz, hZ, x, y, hns, rfl, rfl, rfl⟩
  · exact hinf
  · obtain ⟨rx, ex⟩ := (rep_iff hb).mp hx
    obtain ⟨ry, ey⟩ := (rep_iff hb).mp hy
    obtain ⟨rz, ez⟩ := (rep_iff hb).mp hz
    refine ⟨⟨hinf, nonsingular_iff.mp hns, ?_, ?_, ?_⟩, rx, ry, rz⟩
    · rwa [ez]
    · rw [ex, ez]
    · rw [ey, ez]

theorem ecmultContextBuild_stored (hint : b.SoundInt) (tmem : TableMemory b.Fe) (prea : ℕ → Ge b.Fe)
    (pre : ℕ → GeStorage) : Yields (ecmultContextBuild b.ops tmem prea pre) fun preG =>
      ∀ j < 2 ^ 14, StoredAt ((2 * j + 1) • generator) (preG j) :=
  ecmultOddMultiplesTableStorageVar_at (values_mulInt hb hint) (by decide) (by decide) tmem prea pre
    (gejSetGe_at (geConstG_at (b.values hb)))

omit hb in
/-- A table that is built over ones. -/
theorem exists_ecmultContext (kc : Field5x52.KernelChoice) : ∃ preG,
    ecmultContextBuild (limbs5x52 kc).ops
      ⟨fun _ => gejSetInfinity (limbs5x52 kc).ops, fun _ => (limbs5x52 kc).ops.setInt 1,
        gejSetInfinity (limbs5x52 kc).ops⟩
      (fun _ => geClear (limbs5x52 kc).ops) (fun _ => ⟨⟨1, 1, 1, 1⟩, ⟨1, 1, 1, 1⟩⟩) =
        some preG := by
  obtain ⟨preG, hpre, -⟩ := ecmultContextBuild_stored (sound_5x52 kc) (soundInt_5x52 kc)
    ⟨fun _ => gejSetInfinity (limbs5x52 kc).ops, fun _ => (limbs5x52 kc).ops.setInt 1,
      gejSetInfinity (limbs5x52 kc).ops⟩ (fun _ => geClear (limbs5x52 kc).ops)
    fun _ => ⟨⟨1, 1, 1, 1⟩, ⟨1, 1, 1, 1⟩⟩
  exact ⟨preG, hpre⟩

theorem ecmultSpec_of_stored (hint : b.SoundInt) (c : ScalarBackend) {preG : ℕ → GeStorage}
    (hpreG : ∀ j < 2 ^ 14, StoredAt ((2 * j + 1) • generator) (preG j)) (mem : EcmultMemory b.Fe) :
    b.EcmultSpec c (ecmult b.ops c.ops preG mem) := by
  intro a na ng x y h ha hx hy hz hna hng
  have hM : (b.values hb).MulInt := values_mulInt hb hint
  refine (ecmult_at hM c.sound hpreG mem ha.finite ((raw_iff hb).mpr ⟨hx, rfl⟩)
    ((raw_iff hb).mpr ⟨hy, rfl⟩) ((raw_iff hb).mpr ⟨hz, rfl⟩)
    ⟨ha.z_ne, x, y, nonsingular_iff.mpr h, rfl, ha.x_eq, ha.y_eq⟩ hna hng).mono
    fun r hr => gejOf_of_reducedAt hb hr

/-- With a table as it is built, from whatever the memory held. -/
theorem ecmultSpec_of_built (hint : b.SoundInt) (c : ScalarBackend) {tmem : TableMemory b.Fe}
    {prea : ℕ → Ge b.Fe} {pre preG : ℕ → GeStorage}
    (hpre : ecmultContextBuild b.ops tmem prea pre = some preG) (mem : EcmultMemory b.Fe) :
    b.EcmultSpec c (ecmult b.ops c.ops preG mem) :=
  ecmultSpec_of_stored hb hint c
    ((ecmultContextBuild_stored hb hint tmem prea pre).of_eq_some hpre) mem

/-- The table that `secp256k1_ecmult_context_build` leaves, and what `secp256k1_ecmult` computes
with it, whatever their memory held: for every Jacobian form of a point of the curve and all
scalars, `na * A + ng * G`. -/
theorem ecmult_contexts (hint : b.SoundInt) (c : ScalarBackend) (tmem : TableMemory b.Fe)
    (prea : ℕ → Ge b.Fe) (pre : ℕ → GeStorage) :
    Yields (ecmultContextBuild b.ops tmem prea pre) fun preG =>
      (∀ j < 2 ^ 14, StoredAt ((2 * j + 1) • generator) (preG j)) ∧
      ∀ mem : EcmultMemory b.Fe, b.EcmultSpec c (ecmult b.ops c.ops preG mem) :=
  (ecmultContextBuild_stored hb hint tmem prea pre).mono fun _ hpreG =>
    ⟨hpreG, fun mem => ecmultSpec_of_stored hb hint c hpreG mem⟩

omit hb in
/-- The x64 routines, scalars of eight limbs, and memory that holds ones. -/
theorem ecmult_contexts_demo :
    Yields (ecmultContextBuild (limbs5x52 (.asm .jwasm)).ops
        ⟨fun _ => gejSetInfinity (limbs5x52 (.asm .jwasm)).ops,
          fun _ => (limbs5x52 (.asm .jwasm)).ops.setInt 1,
          gejSetInfinity (limbs5x52 (.asm .jwasm)).ops⟩
        (fun _ => geClear (limbs5x52 (.asm .jwasm)).ops)
        fun _ => ⟨⟨1, 1, 1, 1⟩, ⟨1, 1, 1, 1⟩⟩) fun preG =>
      (∀ j < 2 ^ 14, StoredAt ((2 * j + 1) • generator) (preG j)) ∧
      ∀ mem, (limbs5x52 (.asm .jwasm)).EcmultSpec .limbs8x32
        (ecmult (limbs5x52 (.asm .jwasm)).ops ScalarBackend.limbs8x32.ops preG mem) :=
  ecmult_contexts (sound_5x52 (.asm .jwasm)) (soundInt_5x52 (.asm .jwasm)) .limbs8x32 _ _ _

end FieldBackend

end Secp256k1
