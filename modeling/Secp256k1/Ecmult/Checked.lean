import Secp256k1.Ecmult.Compiled
import Secp256k1.Ecmult.Table

/-!
# Point multiplication with its preconditions tested

The five-limb backend, where the routines for products test nothing: with every test made, the two
multiplications return, and so do the conversions and comparisons applied to what they return.
-/

namespace Secp256k1

/-! ## What is done with a product -/

section

variable {F V : Type} [CommRing V] {B : FieldOps F} {M : FieldModel B V} {r : Gej F}

theorem geSetGej_within (hr : M.GejWithin r) :
    Yields (geSetGej B r) fun q => M.GeWithin q.1 ∧ M.GejWithin q.2 := by
  obtain ⟨_, hz⟩ := hr.z
  refine (feInv_spec M le_rfl (M.raw_of_rep hz)).bind fun z hz => ?_
  replace hz : M.within 1 z := ⟨_, hz⟩
  refine (hz.sqr (by norm_num)).bind fun z2 h2 => ?_
  refine (hz.mul h2 (by norm_num) (by norm_num)).bind fun z3 h3 => ?_
  refine (hr.x.mul h2 le_rfl (by norm_num)).bind fun x hx => ?_
  refine (hr.y.mul h3 le_rfl (by norm_num)).bind fun y hy => ?_
  replace hx := hx.mono (show 1 ≤ 8 by norm_num)
  replace hy := hy.mono (show 1 ≤ 8 by norm_num)
  exact .pure ⟨⟨hx, hy⟩, hx, hy, within8_setInt (k := 1) rfl (by norm_num)⟩

theorem gejEqXVar_within {x : F} (hx : M.within 8 x) (hr : M.GejWithin r) :
    Yields (gejEqXVar B x r) fun _ => True := by
  refine (hr.z.sqr le_rfl).bind fun t ht => ?_
  refine (ht.mul hx (by norm_num) le_rfl).bind fun t ht => ?_
  refine (hr.x.normalizeWeak (by norm_num)).bind fun r2 h2 => ?_
  obtain ⟨_, ht⟩ := ht
  obtain ⟨_, h2⟩ := h2
  exact (feEqualVar_spec M ht (M.raw_of_rep h2) (by norm_num)).mono fun _ _ => trivial

theorem gejHasQuadYVar_within (g : Gmp) (hr : M.GejWithin r) :
    Yields (gejHasQuadYVar B g r) fun _ => True := by
  unfold gejHasQuadYVar
  split
  · exact .some trivial
  · refine (hr.y.mul hr.z le_rfl le_rfl).bind fun yz hyz => ?_
    exact (hyz.normalizeVar (by norm_num)).bind fun c _ => .pure trivial

end

namespace Field5x52

/-- The coordinates of a point are of magnitude at most eight. -/
structure GejMag (a : Gej Fe) : Prop where
  x : Mag 8 a.x
  y : Mag 8 a.y
  z : Mag 8 a.z

/-- All that is asked of the routines: results of magnitude one. -/
structure Kernel.Bounded (K : Kernel) : Prop where
  mul : ∀ {a b}, InRange a → InRange b → Mag 1 (K.mul a b)
  sqr : ∀ {a}, InRange a → Mag 1 (K.sqr a)

theorem Kernel.Sound.bounded {K : Kernel} (hK : K.Sound) : K.Bounded where
  mul ha hb := (hK.mul ha hb).mag
  sqr ha := (hK.sqr ha).mag

theorem Kernel.Bounded.soundIn {K : Kernel} (hK : K.Bounded) : K.SoundIn Unit where
  mul ha hb := ⟨hK.mul ha hb, rfl⟩
  sqr ha := ⟨hK.sqr ha, rfl⟩

section

variable {K : Kernel} {V : Type} [CommRing V] {hp : (p : V) = 0} {hK : K.SoundIn V}
  {zero : V → Bool → Prop} {hzero : ∀ a, NoWrap a → zero a.val (feNormalizesToZero a)}

theorem within_iff {m : ℕ} {a : Fe} :
    (checkedModel K hp hK zero hzero).within m a ↔ Mag m a :=
  ⟨fun ⟨_, h⟩ => h.1, fun h => ⟨_, h, rfl⟩⟩

theorem gejWithin_iff {a : Gej Fe} :
    (checkedModel K hp hK zero hzero).GejWithin a ↔ GejMag a :=
  ⟨fun h => ⟨within_iff.mp h.x, within_iff.mp h.y, within_iff.mp h.z⟩,
    fun h => ⟨within_iff.mpr h.x, within_iff.mpr h.y, within_iff.mpr h.z⟩⟩

theorem model_within_iff {m : ℕ} {a : Fe} :
    (model K hp hK zero hzero).within m a ↔ Mag m a :=
  ⟨fun ⟨_, h⟩ => h.1, fun h => ⟨_, h, rfl⟩⟩

theorem model_gejWithin_iff {a : Gej Fe} :
    (model K hp hK zero hzero).GejWithin a ↔ GejMag a :=
  ⟨fun h => ⟨model_within_iff.mp h.x, model_within_iff.mp h.y, model_within_iff.mp h.z⟩,
    fun h => ⟨model_within_iff.mpr h.x, model_within_iff.mpr h.y, model_within_iff.mpr h.z⟩⟩

theorem feFromStorage_mag (s : FeStorage) : Mag 1 (feFromStorage s) := by
  obtain ⟨hc, h4, -⟩ := feFromStorage_spec s
  exact (hc.tight (h4.trans (by norm_num))).le (by norm_num)

theorem feSetB32_mag (b : Fin 32 → Byte) : Mag 1 (feSetB32 b).1 :=
  (feSetB32_spec b).1.le (by norm_num)

theorem feConst_mag (d7 d6 d5 d4 d3 d2 d1 d0 : BitVec 32) :
    Mag 1 (feConst d7 d6 d5 d4 d3 d2 d1 d0) := by
  obtain ⟨hc, h4, -⟩ := feConst_spec d7 d6 d5 d4 d3 d2 d1 d0
  exact (hc.tight (h4.trans (by norm_num))).le (by norm_num)

theorem checkedModel_ranges : (checkedModel K hp hK zero hzero).Ranges where
  mulInt := checkedModel_mulInt K hp hK zero hzero
  fromStorage s := within_iff.mpr (feFromStorage_mag s)
  setB32 b := within_iff.mpr (feSetB32_mag b)
  const d7 d6 d5 d4 d3 d2 d1 d0 := within_iff.mpr (feConst_mag d7 d6 d5 d4 d3 d2 d1 d0)

theorem model_ranges : (model K hp hK zero hzero).Ranges where
  mulInt := model_mulInt K hp hK zero hzero
  fromStorage s := model_within_iff.mpr (feFromStorage_mag s)
  setB32 b := model_within_iff.mpr (feSetB32_mag b)
  const d7 d6 d5 d4 d3 d2 d1 d0 := model_within_iff.mpr (feConst_mag d7 d6 d5 d4 d3 d2 d1 d0)

end

/-- The operations that may fault, with their tests. -/
def tested (K : Kernel) : PartialOps Fe where
  normalize := (checked K).normalize
  normalizeWeak := (checked K).normalizeWeak
  normalizeVar := (checked K).normalizeVar
  normalizesToZero := (checked K).normalizesToZero
  normalizesToZeroVar := (checked K).normalizesToZeroVar
  negate := (checked K).negate
  mulInt := (checked K).mulInt
  add := (checked K).add
  mul := (checked K).mul
  sqr := (checked K).sqr

/-- The same as compiled. -/
def compiled (K : Kernel) : PartialOps Fe where
  normalize := (ops K).normalize
  normalizeWeak := (ops K).normalizeWeak
  normalizeVar := (ops K).normalizeVar
  normalizesToZero := (ops K).normalizesToZero
  normalizesToZeroVar := (ops K).normalizesToZeroVar
  negate := (ops K).negate
  mulInt := (ops K).mulInt
  add := (ops K).add
  mul := (ops K).mul
  sqr := (ops K).sqr

theorem tested_refines (K : Kernel) : (tested K).Refines (compiled K) where
  normalize _ := guardWith_below _
  normalizeWeak _ := guardWith_below _
  normalizeVar _ := guardWith_below _
  normalizesToZero _ := guardWith_below _
  normalizesToZeroVar _ := guardWith_below _
  negate _ _ := guardWith_below _
  mulInt _ _ := guardWith_below _
  add _ _ := guardWith_below _
  mul _ _ := guardWith_below _
  sqr _ := guardWith_below _

theorem withPartial_tested (K : Kernel) : (ops K).withPartial (tested K) = checked K := rfl

theorem withPartial_compiled (K : Kernel) : (ops K).withPartial (compiled K) = ops K := rfl

/-! ## Every run in range -/

/-- The local variables that the table of odd multiples is computed in hold elements in range. -/
structure MemoryMag (mem : EcmultMemory Fe) : Prop where
  prej : ∀ i < ecmultTableSize windowA, GejMag (mem.prej i)
  zr : ∀ i < ecmultTableSize windowA, Mag 8 (mem.zr i)
  d : GejMag mem.d

/-- The tested code returns what the compiled code does, and what is done with the result passes
its tests as well. -/
def RunsInRange (K : Kernel) (g : Gmp) (run : FieldOps Fe → Option (Gej Fe)) : Prop :=
  ∃ r, run (checked K) = some r ∧ run (ops K) = some r ∧ geSetGej (checked K) r ≠ none ∧
    (∀ x, Mag 8 x → gejEqXVar (checked K) x r ≠ none) ∧ gejHasQuadYVar (checked K) g r ≠ none

section

variable {K : Kernel}

/-- The magnitudes alone. -/
def ranges (hK : K.Bounded) : FieldModel (checked K) Unit :=
  checkedModel K rfl hK.soundIn (fun _ _ => True) fun _ _ => trivial

theorem runsInRange_of_yields (hK : K.Bounded) (g : Gmp) {run : FieldOps Fe → Option (Gej Fe)}
    (hrun : Yields (run (checked K)) (ranges hK).GejWithin)
    (hbelow : Below (run (checked K)) (run (ops K))) : RunsInRange K g run := by
  obtain ⟨r, hr, hwithin⟩ := hrun
  refine ⟨r, hr, hbelow r hr, (geSetGej_within hwithin).ne_none, fun x hx => ?_,
    (gejHasQuadYVar_within g hwithin).ne_none⟩
  exact (gejEqXVar_within (within_iff.mpr hx) hwithin).ne_none

theorem gejSetGe_checked (q : Ge Fe) :
    gejSetGe (checked K) q = ⟨q.x, q.y, feSetInt 1, q.infinity⟩ := rfl

theorem gejSetGe_ops (q : Ge Fe) : gejSetGe (ops K) q = ⟨q.x, q.y, feSetInt 1, q.infinity⟩ := rfl

theorem ranges_ranges (hK : K.Bounded) : (ranges hK).Ranges := checkedModel_ranges

variable {c : ScalarBackend} (g : Gmp) (preG : ℕ → GeStorage) (mem : EcmultMemory Fe)
  (na ng : c.Scalar)

theorem ecmult_runsInRange (hK : K.Bounded) (q : Ge Fe)
    (htable : Yields (ecmultOddMultiplesTable (checked K) (ecmultTableSize windowA)
      mem.toTableMemory (gejSetGe (checked K) q)) fun t =>
        TableWithin (ranges hK) (ecmultTableSize windowA) t.1 t.2) :
    RunsInRange K g fun B => ecmult B c.ops preG mem (gejSetGe B q) na ng := by
  refine runsInRange_of_yields hK g
    (ecmult_within (ranges_ranges hK) c.sound preG htable na ng) ?_
  have hbelow := ecmult_below (ops K) (tested_refines K) c.ops preG mem (gejSetGe (checked K) q)
    na ng
  rw [withPartial_tested, withPartial_compiled] at hbelow
  rw [gejSetGe_checked] at hbelow
  rw [gejSetGe_checked, gejSetGe_ops]
  exact hbelow

variable {q : Ge Fe} (hx : Mag 2 q.x) (hy : Mag 2 q.y)
include hx hy

theorem gejSetGe_mag (hK : K.Bounded) : (ranges hK).GejWithin (gejSetGe (checked K) q) :=
  gejSetGe_within ⟨within_iff.mpr (hx.mono (by norm_num)), within_iff.mpr (hy.mono (by norm_num))⟩

/-- With routines of which nothing but the magnitude of the results is known, and memory in
range. -/
theorem ecmult_bounded (hK : K.Bounded) (hmem : MemoryMag mem) :
    RunsInRange K g fun B => ecmult B c.ops preG mem (gejSetGe B q) na ng := by
  refine ecmult_runsInRange g preG mem na ng hK q ?_
  exact ecmultOddMultiplesTable_within (ranges_ranges hK) (by decide)
    ⟨fun i hi => gejWithin_iff.mpr (hmem.prej i hi), fun i hi => within_iff.mpr (hmem.zr i hi)⟩
    (gejWithin_iff.mpr hmem.d) (gejSetGe_mag hx hy hK)

/-- With routines that compute products, for a point of the curve, from any memory. -/
theorem ecmult_sound (hK : K.Sound) (hinf : q.infinity = false)
    (h : OnCurve (q.x.val : ZMod p) (q.y.val : ZMod p)) :
    RunsInRange K g fun B => ecmult B c.ops preG mem (gejSetGe B q) na ng := by
  refine ecmult_runsInRange g preG mem na ng hK.bounded q ?_
  have hzero : ∀ {v b}, (checkedField hK).zero v b → (b = true ↔ v = 0) := fun h => h
  have hX : (checkedField hK).rep 8 (q.x.val : ZMod p) q.x := ⟨hx.mono (by norm_num), rfl⟩
  have hY : (checkedField hK).rep 8 (q.y.val : ZMod p) q.y := ⟨hy.mono (by norm_num), rfl⟩
  have hone := (checkedField hK).rep_of_norm ((checkedField hK).setInt (i := 1) (k := 1) rfl
    (by norm_num))
  rw [Nat.cast_one] at hone
  have hZ : (checkedField hK).rep 8 1 ((checked K).setInt 1) :=
    (checkedField hK).rep_mono (by norm_num) hone
  have htable := ecmultOddMultiplesTable_odd (M := checkedField hK) h.jac.ne_zero
    (checkedModel_mulInt K _ _ _ _) hzero (N := ecmultTableSize windowA) (by decide) (by decide)
    mem.toTableMemory (a := gejSetGe (checked K) q) hinf hX hY hZ h.jac
  refine htable.mono fun t ht => ?_
  obtain ⟨w, Z, ht, -⟩ := ht
  replace ht := ht.within fun h => h
  exact ⟨fun i hi => gejWithin_iff.mpr (gejWithin_iff.mp (ht.prej i hi)),
    fun i hi => within_iff.mpr (within_iff.mp (ht.zr i hi))⟩

end

/-- The magnitudes alone, of the code as compiled. -/
def magnitudes {K : Kernel} (hK : K.Bounded) : FieldModel (ops K) Unit :=
  model K rfl hK.soundIn (fun _ _ => True) fun _ _ => trivial

theorem magnitudes_ranges {K : Kernel} (hK : K.Bounded) : (magnitudes hK).Ranges := model_ranges

theorem ecmultGen_bounded {K : Kernel} (hK : K.Bounded) {c : ScalarBackend} (g : Gmp)
    {ctx : EcmultGenContext Fe c.Scalar} (h : GenBuilt (ops K) c.ops ctx) (gn : c.Scalar) :
    RunsInRange K g fun B => ecmultGen B c.ops ctx gn := by
  have hctx := model_gejWithin_iff.mp
    (h.within (magnitudes_ranges hK))
  refine runsInRange_of_yields hK g
    (ecmultGen_within (ranges_ranges hK) ctx (gejWithin_iff.mpr hctx) gn) ?_
  have hbelow := ecmultGen_below (ops K) (tested_refines K) c.ops ctx gn
  rwa [withPartial_tested, withPartial_compiled] at hbelow

/-- No run of a point multiplication hands a routine an operand out of its range. With nothing known
of products but their magnitude this holds for all coordinates when the local variables start in
range; with routines that compute products it holds for points of the curve whatever the memory
holds, as every entry of the table is then written before it is read. -/
theorem ecmult_operands_inRange (c : ScalarBackend) (g : Gmp) :
    (∀ K : Kernel, K.Bounded →
      (∀ (preG : ℕ → GeStorage) (mem : EcmultMemory Fe) (q : Ge Fe) (na ng : c.Scalar),
        MemoryMag mem → Mag 2 q.x → Mag 2 q.y →
          RunsInRange K g fun B => ecmult B c.ops preG mem (gejSetGe B q) na ng) ∧
      ∀ (ctx : EcmultGenContext Fe c.Scalar) (gn : c.Scalar), GenBuilt (ops K) c.ops ctx →
        RunsInRange K g fun B => ecmultGen B c.ops ctx gn) ∧
    ∀ K : Kernel, K.Sound →
      ∀ (preG : ℕ → GeStorage) (mem : EcmultMemory Fe) (q : Ge Fe) (na ng : c.Scalar),
        q.infinity = false → OnCurve (q.x.val : ZMod p) (q.y.val : ZMod p) → Mag 2 q.x →
        Mag 2 q.y → RunsInRange K g fun B => ecmult B c.ops preG mem (gejSetGe B q) na ng := by
  refine ⟨fun K hK => ⟨fun preG mem q na ng hmem hx hy => ?_, fun ctx gn h => ?_⟩,
    fun K hK preG mem q na ng hinf h hx hy => ?_⟩
  · exact ecmult_bounded g preG mem na ng hx hy hK hmem
  · exact ecmultGen_bounded hK g h gn
  · exact ecmult_sound g preG mem na ng hx hy hK hinf h

/-- The generator, the x64 routines, every pair of scalars, and memory that holds ones. -/
theorem ecmult_operands_inRange_demo : ∀ na ng, RunsInRange (x64 .jwasm) .reference fun B =>
    ecmult B Scalar4x64.ops (fun _ => ⟨⟨0, 0, 0, 0⟩, ⟨0, 0, 0, 0⟩⟩)
      ⟨⟨fun _ => ⟨feSetInt 1, feSetInt 1, feSetInt 1, false⟩, fun _ => feSetInt 1,
        ⟨feSetInt 1, feSetInt 1, feSetInt 1, false⟩⟩, fun _ => ⟨feSetInt 1, feSetInt 1, false⟩,
        feSetInt 1⟩
      (gejSetGe B (geConstG (ops (x64 .jwasm)))) na ng := by
  intro na ng
  have hone : Mag 8 (feSetInt 1) := by constructor <;> decide
  refine ((ecmult_operands_inRange .limbs4x64 .reference).1 _ (x64_sound .jwasm).bounded).1
    _ _ _ _ _ ⟨fun _ _ => ⟨hone, hone, hone⟩, fun _ _ => hone, ⟨hone, hone, hone⟩⟩ ?_ ?_
  · exact (feConst_mag ..).mono (by norm_num)
  · exact (feConst_mag ..).mono (by norm_num)

end Field5x52

end Secp256k1
