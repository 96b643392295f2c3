import Secp256k1.Ecmult.Correct
import Secp256k1.Ecmult.GenTable

/-!
# What the multiplication of the generator computes

A context is ready when its table is the one that `secp256k1_ecmult_gen_context_build` computes and
its initial point is the opposite of the multiple of `G` by its blinding value. Building and
blinding, with a seed or without, leave contexts ready; with any of them `secp256k1_ecmult_gen`
returns `k * G`.
-/

namespace Secp256k1

open ShortCurve

/-! ## Digits in base 16 -/

def nibble (v j : ℕ) : ℕ := v / 2 ^ (j * 4) % 16

theorem nibble_lt (v j : ℕ) : nibble v j < 16 := Nat.mod_lt _ (by norm_num)

theorem sum_nibble (v k : ℕ) : ∑ j ∈ Finset.range k, nibble v j * 16 ^ j = v % 16 ^ k := by
  induction k with
  | zero => rw [Finset.sum_range_zero, pow_zero, Nat.mod_one]
  | succ k ih =>
    rw [Finset.sum_range_succ, ih, Nat.mod_pow_succ, nibble, Nat.mul_comm k 4, pow_mul,
      show 2 ^ 4 = 16 by norm_num, Nat.mul_comm (16 ^ k)]

/-- One entry of each row, chosen by the digits of a number, add up to its multiple of `G`. -/
theorem sum_entryPoint {v : ℕ} (hv : v < 2 ^ 256) :
    ∑ j ∈ Finset.range 64, entryPoint j (nibble v j) = v • generator := by
  simp only [entryPoint]
  rw [Finset.sum_add_distrib, sum_rowBase, zero_add, ← Finset.sum_smul, sum_nibble,
    Nat.mod_eq_of_lt (hv.trans_eq (by norm_num))]

section

variable {F S : Type} {B : FieldOps F} {M : FieldValues B} (hM : M.MulInt) {O : ScalarOps S}
  {val : S → ℕ} (hO : O.Sound val)
  (hbits : ∀ a {j}, j < 64 → (O.getBits a (j * 4) 4).toNat = nibble (val a) j)

/-! ## The multiplication -/

/-- The conditional moves leave the entry that the digit names. -/
theorem genSelect_eq (M : FieldValues B) (row : ℕ → GeStorage) (bits : BitVec 32) (k i : ℕ)
    (adds : GeStorage) :
    genSelect B row bits k i adds =
      if i ≤ bits.toNat ∧ bits.toNat < i + k then row bits.toNat else adds := by
  induction k generalizing i adds with
  | zero => rw [genSelect, if_neg (by omega)]
  | succ k ih =>
    have hcmov : geStorageCmov B adds (row i) (ofBool (i = bits.toNat)) =
        if i = bits.toNat then row i else adds := by
      rw [geStorageCmov, M.storageCmov, M.storageCmov]
      by_cases h : i = bits.toNat
      · simp only [h, decide_true, if_true]
      · simp only [h, decide_false, Bool.false_eq_true, if_false]
    rw [genSelect, hcmov, ih]
    by_cases h : i = bits.toNat
    · subst h
      rw [if_neg (by omega), if_pos rfl, if_pos (by omega)]
    · rw [if_neg h]
      exact if_congr (by omega) rfl rfl

include hM hbits in
theorem genLoop_at {prec : ℕ → ℕ → GeStorage} (hprec : GenTable prec) (gnb : S) (k j : ℕ)
    (hj : j + k = 64) (adds : GeStorage) {P : Point} {r : Gej F}
    (hr : GejAt M.toFieldModel 1 P r) (hwithin : M.GejWithin r) :
    Yields (genLoop B O prec gnb k j adds r) fun t => GejAt M.toFieldModel 1
      (P + ∑ i ∈ Finset.range k, entryPoint (j + i) (nibble (val gnb) (j + i))) t ∧
        M.GejWithin t := by
  induction k generalizing j adds P r with
  | zero =>
    rw [Finset.sum_range_zero, add_zero]
    exact .some ⟨hr, hwithin⟩
  | succ k ih =>
    have hlt := nibble_lt (val gnb) j
    have hbit := hbits gnb (show j < 64 by omega)
    rw [genLoop, genSelect_eq M, if_pos (by omega), hbit]
    have hentry := geFromStorage_at M (hprec j (by omega) _ hlt)
    refine (gejAddGe_at hM M.zero_iff.mp one_at hr hwithin hentry).bind fun r hr => ?_
    have hsum : P + ∑ i ∈ Finset.range (k + 1), entryPoint (j + i) (nibble (val gnb) (j + i)) =
        P + entryPoint j (nibble (val gnb) j) +
          ∑ i ∈ Finset.range k, entryPoint (j + 1 + i) (nibble (val gnb) (j + 1 + i)) := by
      rw [Finset.sum_range_succ', Nat.add_zero, add_comm (Finset.sum _ _), ← add_assoc]
      congr 1
      refine Finset.sum_congr rfl fun i _ => ?_
      rw [show j + (i + 1) = j + 1 + i by omega]
    rw [hsum]
    exact ih (j + 1) (by omega) _ hr.1 hr.2

variable (M val) in
/-- A context with which the multiplication is right. -/
structure GenReady (ctx : EcmultGenContext F S) : Prop where
  table : GenTable ctx.prec
  blind_lt : val ctx.blind < n
  initial : GejAt M.toFieldModel 1 (-(val ctx.blind • generator)) ctx.initial
  within : M.GejWithin ctx.initial

include hM hO hbits in
theorem ecmultGen_at {ctx : EcmultGenContext F S} (hctx : GenReady M val ctx) {gn : S}
    (hgn : val gn < n) : Yields (ecmultGen B O ctx gn) fun r =>
      GejAt M.toFieldModel 1 (val gn • generator) r ∧ M.GejWithin r := by
  obtain ⟨hadd, -⟩ := hO.add gn ctx.blind hgn hctx.blind_lt
  have hlt : val (O.add gn ctx.blind).1 < 2 ^ 256 := by
    rw [hadd]
    exact (Nat.mod_lt _ n_pos).trans n_lt
  have h := genLoop_at hM hbits hctx.table (O.add gn ctx.blind).1 64 0 rfl
    ⟨⟨0, 0, 0, 0⟩, ⟨0, 0, 0, 0⟩⟩ hctx.initial hctx.within
  simp only [Nat.zero_add] at h
  rw [sum_entryPoint hlt, hadd, mod_smul, add_nsmul, add_comm, add_assoc, add_neg_cancel,
    add_zero] at h
  exact h

/-! ## Blinding -/

/-- What `secp256k1_fe_set_b32` and the zero test accept is not zero. -/
def FieldValues.AcceptsUnits (M : FieldValues B) : Prop :=
  ∀ b, (B.setB32 b).2 = true → B.isZero (B.setB32 b).1 = false →
    ∃ v, v ≠ 0 ∧ M.rep 1 v (B.setB32 b).1

theorem blindScale_at (hunits : M.AcceptsUnits) {rng : ℕ → Fin 32 → Byte} {fuel i : ℕ} {t : F × ℕ}
    (h : blindScale B rng fuel i = some t) : ∃ v, v ≠ 0 ∧ M.rep 1 v t.1 := by
  induction fuel generalizing i with
  | zero => cases h
  | succ fuel ih =>
    have hturn : blindScale B rng (fuel + 1) i =
        if (!(B.setB32 (rng i)).2 || B.isZero (B.setB32 (rng i)).1) = true then
          blindScale B rng fuel (i + 1) else some ((B.setB32 (rng i)).1, i + 1) := rfl
    rw [hturn] at h
    split at h
    · exact ih h
    · next hretry =>
      obtain rfl := Option.some.inj h
      rw [Bool.not_eq_true, Bool.or_eq_false_iff, Bool.not_eq_false'] at hretry
      exact hunits _ hretry.1 hretry.2

include hO in
theorem blindScalar_at {rng : ℕ → Fin 32 → Byte} {fuel i : ℕ} {b : S}
    (h : blindScalar O rng fuel i = some b) : val b < n := by
  induction fuel generalizing i with
  | zero => cases h
  | succ fuel ih =>
    have hturn : blindScalar O rng (fuel + 1) i =
        if (decide ((O.setB32 (rng i)).2 ≠ 0) || O.isZero (O.setB32 (rng i)).1) = true then
          blindScalar O rng fuel (i + 1) else some (O.setB32 (rng i)).1 := rfl
    rw [hturn] at h
    split at h
    · exact ih h
    · obtain rfl := Option.some.inj h
      rw [(hO.setB32 _).1]
      exact Nat.mod_lt _ n_pos

theorem gejRescale_at {P : Point} {a : Gej F} (ha : GejAt M.toFieldModel 1 P a)
    (hwithin : M.GejWithin a) {s : F} {v : ZMod p} (hs : M.rep 1 v s) (hv : v ≠ 0) :
    Yields (gejRescale B a s) fun r => GejAt M.toFieldModel 1 P r ∧ M.GejWithin r := by
  have hs8 := M.rep_mono (show 1 ≤ 8 by norm_num) hs
  refine Yields.and ?_ (gejRescale_within hwithin ⟨v, hs8⟩)
  obtain ⟨X, hx⟩ := hwithin.x
  obtain ⟨Y, hy⟩ := hwithin.y
  obtain ⟨Z, hz⟩ := hwithin.z
  rcases ha with ⟨hinf, hP⟩ | ⟨X, Y, Z, hinf, hx, hy, hz, hjac⟩
  · refine (FieldModel.square hs8 le_rfl).bind fun zz hzz => ?_
    refine (FieldModel.prod hx hzz le_rfl (by norm_num)).bind fun x _ => ?_
    refine (FieldModel.prod hy hzz le_rfl (by norm_num)).bind fun y hy => ?_
    refine (FieldModel.prod hy hs8 (by norm_num) le_rfl).bind fun y _ => ?_
    refine (FieldModel.prod hz hs8 le_rfl le_rfl).bind fun z _ => ?_
    exact .pure (.inl ⟨hinf, hP⟩)
  · refine (FieldModel.square hs8 le_rfl).bind fun zz hzz => ?_
    refine (FieldModel.prod hx hzz le_rfl (by norm_num)).bind fun x hx => ?_
    refine (FieldModel.prod hy hzz le_rfl (by norm_num)).bind fun y hy => ?_
    refine (FieldModel.prod hy hs8 (by norm_num) le_rfl).bind fun y hy => ?_
    refine (M.mul hz (M.raw_of_rep hs8)).bind fun z hz => ?_
    have hscale := hjac.scale hv
    rw [mul_right_comm Z 1 v] at hscale
    refine .pure (.inr ⟨_, _, _, hinf, M.rep_mono (by norm_num) hx,
      M.rep_mono (by norm_num) (FieldModel.rep_congr hy ?_), FieldModel.raw8 hz (by norm_num),
      hscale⟩)
    ring

/-- The context that blinding starts from: without a seed, only the table counts. -/
def Blindable (M : FieldValues B) (val : S → ℕ) (ctx : EcmultGenContext F S) :
    Option (Fin 32 → Byte) → Prop
  | none => GenTable ctx.prec
  | some _ => GenReady M val ctx

include hO in
theorem blindReset_at {ctx : EcmultGenContext F S} {seed32 : Option (Fin 32 → Byte)}
    (h : Blindable M val ctx seed32) : Yields (blindReset B O ctx seed32) (GenReady M val) := by
  cases seed32 with
  | some seed => exact .some h
  | none =>
    have hG := gejSetGe_at (geConstG_at M)
    have hw := gejSetGe_within (geConstG_at M).within
    refine ((gejNeg_at hG).and (gejNeg_within hw)).bind fun a ha => .pure ⟨h, ?_, ?_, ha.2⟩
    · rw [hO.setInt]
      exact n_prime.one_lt
    · rw [hO.setInt]
      change GejAt M.toFieldModel 1 (-(1 • generator)) a
      rw [one_nsmul]
      exact .inr ha.1

/-- The loops that draw the blinding values return. -/
def DrawsReturn (B : FieldOps F) (O : ScalarOps S) (rng : List Byte → ℕ → Fin 32 → Byte) (fuel : ℕ)
    (ctx : EcmultGenContext F S) (seed32 : Option (Fin 32 → Byte)) : Prop :=
  ∀ ctx', blindReset B O ctx seed32 = some ctx' → ∃ s i b,
    blindScale B (rng (List.ofFn (O.getB32 ctx'.blind) ++ (seed32.map List.ofFn).getD [])) fuel 0 =
      some (s, i) ∧
    blindScalar O (rng (List.ofFn (O.getB32 ctx'.blind) ++ (seed32.map List.ofFn).getD [])) fuel i =
      some b

include hM hO hbits in
theorem ecmultGenBlind_at (hunits : M.AcceptsUnits) {rng : List Byte → ℕ → Fin 32 → Byte}
    {fuel : ℕ} {ctx : EcmultGenContext F S} {seed32 : Option (Fin 32 → Byte)}
    (h : Blindable M val ctx seed32) (hdraws : DrawsReturn B O rng fuel ctx seed32) :
    Yields (ecmultGenBlind B O rng fuel ctx seed32) (GenReady M val) := by
  obtain ⟨ctx', hreset, hready⟩ := blindReset_at hO h
  obtain ⟨s, i, b, hs, hb⟩ := hdraws ctx' hreset
  obtain ⟨v, hv, hrep⟩ := blindScale_at hunits hs
  have hblt := blindScalar_at hO hb
  unfold ecmultGenBlind
  rw [hreset]
  change Yields (blindScale B (rng _) fuel 0 >>= _) _
  rw [hs]
  change Yields (gejRescale B ctx'.initial s >>= _) _
  refine (gejRescale_at hready.initial hready.within hrep hv).bind fun initial hinit => ?_
  rw [hb]
  have hready' : GenReady M val { ctx' with initial } :=
    ⟨hready.table, hready.blind_lt, hinit.1, hinit.2⟩
  refine (ecmultGen_at hM hO hbits hready' hblt).bind fun gb hgb => ?_
  have hneg : val (O.negate b) = (n - val b) % n := hO.negate b hblt
  refine .pure ⟨hready.table, ?_, ?_, hgb.2⟩
  · rw [hneg]
    exact Nat.mod_lt _ n_pos
  · rw [hneg, neg_smul_eq hblt.le, neg_neg]
    exact hgb.1

theorem drawsReturn_of_some {rng : List Byte → ℕ → Fin 32 → Byte} {fuel : ℕ}
    {ctx ctx' : EcmultGenContext F S} {seed32 : Option (Fin 32 → Byte)}
    (h : ecmultGenBlind B O rng fuel ctx seed32 = some ctx') :
    DrawsReturn B O rng fuel ctx seed32 := by
  intro ctx₀ hreset
  obtain ⟨ctx₁, h₁, h⟩ := Option.bind_eq_some_iff.mp h
  obtain rfl := Option.some.inj (hreset.symm.trans h₁)
  obtain ⟨⟨s, i⟩, hs, h⟩ := Option.bind_eq_some_iff.mp h
  obtain ⟨initial, -, h⟩ := Option.bind_eq_some_iff.mp h
  obtain ⟨b, hb, -⟩ := Option.bind_eq_some_iff.mp h
  exact ⟨s, i, b, hs, hb⟩

/-! ## Contexts -/

theorem ecmultGenContextBuild_eq (B : FieldOps F) (O : ScalarOps S)
    (rng : List Byte → ℕ → Fin 32 → Byte) (fuel : ℕ) (mem : GenMemory F S) :
    ecmultGenContextBuild B O rng fuel mem = (numsGej B >>= fun nums =>
      precLoop B nums 64 0 (gejSetGe B (geConstG B)) nums mem.precj >>= fun precj =>
      geSetAllGejVar B mem.az mem.azi mem.prec precj 1024 >>= fun prec =>
      toStorageLoop B prec 1024 0 fun i => mem.ctx.prec (i / 16) (i % 16)) >>= fun table =>
        ecmultGenBlind B O rng fuel
          { mem.ctx with prec := fun j i => table (j * 16 + i) } none := by
  simp only [ecmultGenContextBuild, bind_assoc]

include hM hO hbits in
/-- Every context that is built and then blinded, any number of times, is ready. -/
theorem GenBuilt.ready (hunits : M.AcceptsUnits) {ctx : EcmultGenContext F S}
    (h : GenBuilt B O ctx) : GenReady M val ctx := by
  induction h with
  | @build rng fuel mem ctx h =>
    rw [ecmultGenContextBuild_eq] at h
    obtain ⟨table, htable, h⟩ := Option.bind_eq_some_iff.mp h
    have hgen : Blindable M val { mem.ctx with prec := fun j i => table (j * 16 + i) } none :=
      (genTable_at hM mem).of_eq_some htable
    exact (ecmultGenBlind_at hM hO hbits hunits hgen (drawsReturn_of_some h)).of_eq_some h
  | @blind rng fuel ctx ctx' seed32 _ h ih =>
    have hctx : Blindable M val ctx seed32 := by
      cases seed32 with
      | none => exact ih.table
      | some seed => exact ih
    exact (ecmultGenBlind_at hM hO hbits hunits hctx (drawsReturn_of_some h)).of_eq_some h

include hM hO hbits in
/-- A context is built from any memory when the draws return. -/
theorem ecmultGenContextBuild_at (hunits : M.AcceptsUnits) {rng : List Byte → ℕ → Fin 32 → Byte}
    {fuel : ℕ} (hdraws : ∀ ctx, DrawsReturn B O rng fuel ctx none) (mem : GenMemory F S) :
    Yields (ecmultGenContextBuild B O rng fuel mem) (GenReady M val) := by
  rw [ecmultGenContextBuild_eq]
  exact (genTable_at hM mem).bind fun table htable =>
    ecmultGenBlind_at hM hO hbits hunits htable (hdraws _)

end

/-! ## The multiplication of a build -/

namespace FieldBackend

variable {b : FieldBackend} (hb : b.Sound)

include hb in
theorem gejOf_of_within {a : Gej b.Fe} {P : Point}
    (h : GejAt (b.values hb).toFieldModel 1 P a) (hwithin : (b.values hb).GejWithin a) :
    b.GejOf a P := by
  rcases h with ⟨hinf, rfl⟩ | ⟨X, Y, Z, hinf, hx, hy, hz, hjac⟩
  · exact hinf
  · obtain ⟨v, hv⟩ := hwithin.z
    obtain ⟨rz, -⟩ := (rep_iff hb).mp hv
    obtain ⟨-, ez⟩ := (raw_iff hb).mp hz
    rw [mul_one] at hjac
    exact gejOf_of_reducedAt hb (.inr ⟨X, Y, Z, hinf, hx, hy, (rep_iff hb).mpr ⟨rz, ez⟩, hjac⟩)

/-- The five-limb backend tests the range of what it reads. -/
theorem acceptsUnits_5x52 (kc : Field5x52.KernelChoice) :
    ((limbs5x52 kc).values (sound_5x52 kc)).AcceptsUnits := by
  intro b hok hzero
  obtain ⟨-, -, hrange, -⟩ := Field5x52.feSetB32_spec b
  obtain ⟨hnorm, -⟩ := ((limbs5x52 kc).values (sound_5x52 kc)).setB32 (hrange.mp hok)
  refine ⟨_, fun h0 => ?_, ((limbs5x52 kc).values (sound_5x52 kc)).rep_of_norm hnorm⟩
  have hz := ((limbs5x52 kc).values (sound_5x52 kc)).isZero hnorm
  rw [((limbs5x52 kc).values (sound_5x52 kc)).zero_iff] at hz
  rw [hz.mpr h0] at hzero
  cases hzero

theorem ecmultGenSpec_of_built (kc : Field5x52.KernelChoice) (c : ScalarBackend)
    {ctx : EcmultGenContext (limbs5x52 kc).Fe c.Scalar}
    (h : GenBuilt (limbs5x52 kc).ops c.ops ctx) :
    (limbs5x52 kc).EcmultGenSpec c (ecmultGen (limbs5x52 kc).ops c.ops ctx) := by
  intro k hk
  have hM : ((limbs5x52 kc).values (sound_5x52 kc)).MulInt :=
    values_mulInt (sound_5x52 kc) (soundInt_5x52 kc)
  have hready := h.ready hM c.sound c.getBits_four (acceptsUnits_5x52 kc)
  exact (ecmultGen_at hM c.sound c.getBits_four hready hk).mono fun r hr =>
    gejOf_of_within (sound_5x52 kc) hr.1 hr.2

theorem drawsReturn_one (kc : Field5x52.KernelChoice) (c : ScalarBackend)
    (ctx : EcmultGenContext (limbs5x52 kc).Fe c.Scalar) (seed32 : Option (Fin 32 → Byte)) :
    DrawsReturn (limbs5x52 kc).ops c.ops (fun _ _ => numGetBin 1) 1 ctx seed32 := by
  intro ctx' _
  have h1 : Bytes.be (numGetBin 1) = 1 := be_numGetBin (by norm_num)
  have hnp : Bytes.be (numGetBin 1) < p := by
    rw [h1]
    exact n_prime.one_lt.trans n_lt_p
  have hnn : Bytes.be (numGetBin 1) < n := by
    rw [h1]
    exact n_prime.one_lt
  obtain ⟨hnorm, hok⟩ := ((limbs5x52 kc).values (sound_5x52 kc)).setB32 hnp
  have hz := ((limbs5x52 kc).values (sound_5x52 kc)).isZero hnorm
  rw [((limbs5x52 kc).values (sound_5x52 kc)).zero_iff, h1, Nat.cast_one] at hz
  have hfe : (limbs5x52 kc).ops.isZero ((limbs5x52 kc).ops.setB32 (numGetBin 1)).1 = false :=
    Bool.eq_false_iff.mpr fun h => one_ne_zero (hz.mp h)
  have hover := c.sound.setB32_fits.mpr hnn
  have hsc : c.ops.isZero (c.ops.setB32 (numGetBin 1)).1 = false := by
    rw [c.sound.isZero, c.sound.val_setB32 hnn, h1]
    rfl
  refine ⟨_, _, _, if_neg ?_, if_neg ?_⟩
  · rw [hok, hfe]
    exact Bool.false_ne_true
  · rw [hover, hsc]
    decide

/-- A context that is built with draws of 1. -/
theorem exists_genBuilt (kc : Field5x52.KernelChoice) (c : ScalarBackend) :
    ∃ ctx, GenBuilt (limbs5x52 kc).ops c.ops ctx := by
  have hM : ((limbs5x52 kc).values (sound_5x52 kc)).MulInt :=
    values_mulInt (sound_5x52 kc) (soundInt_5x52 kc)
  obtain ⟨ctx, hctx, -⟩ := ecmultGenContextBuild_at hM c.sound c.getBits_four (acceptsUnits_5x52 kc)
    (fun ctx => drawsReturn_one kc c ctx none) ⟨fun _ => geClear (limbs5x52 kc).ops,
      fun _ => gejSetInfinity (limbs5x52 kc).ops,
      fun _ => (limbs5x52 kc).ops.setInt 1, fun _ => (limbs5x52 kc).ops.setInt 1,
      ⟨fun _ _ => ⟨⟨0, 0, 0, 0⟩, ⟨0, 0, 0, 0⟩⟩, c.ops.clear,
        gejSetInfinity (limbs5x52 kc).ops⟩⟩
  exact ⟨ctx, .build hctx⟩

/-- The contexts of `secp256k1_ecmult_gen` on the five-limb backend: one is built from any memory
whenever the draws of the blinding values return, and with every context that has been built and
then blinded any number of times, from a seed or without one, the multiplication returns `k * G` for
all scalars. The contexts that the source builds and blinds are among these; their draws are the
outputs of the generator of the standard for the blinding value and the seed. -/
theorem ecmultGen_contexts (kc : Field5x52.KernelChoice) (c : ScalarBackend) :
    (∀ (rng : List Byte → ℕ → Fin 32 → Byte) (fuel : ℕ),
      (∀ ctx, DrawsReturn (limbs5x52 kc).ops c.ops rng fuel ctx none) →
        ∀ mem, ∃ ctx, ecmultGenContextBuild (limbs5x52 kc).ops c.ops rng fuel mem = some ctx) ∧
    (∀ ctx, GenBuilt (limbs5x52 kc).ops c.ops ctx →
      (limbs5x52 kc).EcmultGenSpec c (ecmultGen (limbs5x52 kc).ops c.ops ctx)) ∧
    ∀ sha256 hmac fuel,
      (∀ mem ctx,
        ecmultGenContextBuildRfc6979 (limbs5x52 kc).ops c.ops sha256 hmac fuel mem = some ctx →
          GenBuilt (limbs5x52 kc).ops c.ops ctx) ∧
      ∀ ctx seed32, GenBuilt (limbs5x52 kc).ops c.ops ctx →
        ecmultGenBlindRfc6979 (limbs5x52 kc).ops c.ops sha256 hmac fuel ctx seed32 =
          ecmultGenBlind (limbs5x52 kc).ops c.ops (Sha2.Drbg.nonce (Sha2.hmac Sha2.sha256)) fuel
            ctx seed32 ∧
        ∀ ctx', ecmultGenBlindRfc6979 (limbs5x52 kc).ops c.ops sha256 hmac fuel ctx seed32 =
            some ctx' → GenBuilt (limbs5x52 kc).ops c.ops ctx' := by
  refine ⟨fun rng fuel hdraws mem => ?_, fun ctx h => ecmultGenSpec_of_built kc c h,
    fun sha256 hmac fuel => ⟨fun mem ctx h => .build h, fun ctx seed32 hctx => ⟨?_,
      fun ctx' h => .blind hctx h⟩⟩⟩
  · have hM : ((limbs5x52 kc).values (sound_5x52 kc)).MulInt :=
      values_mulInt (sound_5x52 kc) (soundInt_5x52 kc)
    obtain ⟨ctx, hctx, -⟩ := ecmultGenContextBuild_at hM c.sound c.getBits_four
      (acceptsUnits_5x52 kc) hdraws mem
    exact ⟨ctx, hctx⟩
  · rw [ecmultGenBlindRfc6979, rfc6979Draw_eq]

/-- A context of the x64 routines. -/
theorem ecmultGen_contexts_demo :
    ∃ ctx : EcmultGenContext (limbs5x52 (.asm .jwasm)).Fe ScalarBackend.limbs8x32.Scalar,
      GenBuilt (limbs5x52 (.asm .jwasm)).ops ScalarBackend.limbs8x32.ops ctx ∧
      (limbs5x52 (.asm .jwasm)).EcmultGenSpec .limbs8x32
        (ecmultGen (limbs5x52 (.asm .jwasm)).ops ScalarBackend.limbs8x32.ops ctx) := by
  obtain ⟨ctx, hctx⟩ := exists_genBuilt (.asm .jwasm) .limbs8x32
  exact ⟨ctx, hctx, (ecmultGen_contexts (.asm .jwasm) .limbs8x32).2.1 ctx hctx⟩

/-- What building and every blinding after it keep on the five-limb backend: entry `i` of row `j` is
`i * 16 ^ j * G` plus a point of the row, none is the point at infinity, and the row's points add up
to it; the initial point is the opposite of the multiple of `G` by the blinding value. The table is
the same in every context, whatever the memory, the draws and the routines linked. -/
theorem genBuilt_invariant (kc : Field5x52.KernelChoice) (c : ScalarBackend)
    {ctx : EcmultGenContext (limbs5x52 kc).Fe c.Scalar}
    (h : GenBuilt (limbs5x52 kc).ops c.ops ctx) :
    (∀ j < 64, ∀ i < 16, StoredAt (rowBase j + (i * 16 ^ j) • generator) (ctx.prec j i)) ∧
    ∑ j ∈ Finset.range 64, rowBase j = 0 ∧ c.val ctx.blind < n ∧
    (limbs5x52 kc).GejOf ctx.initial (-(c.val ctx.blind • generator)) ∧
    ∀ (kc' : Field5x52.KernelChoice) (c' : ScalarBackend)
      (ctx' : EcmultGenContext (limbs5x52 kc').Fe c'.Scalar),
      GenBuilt (limbs5x52 kc').ops c'.ops ctx' →
        ∀ j < 64, ∀ i < 16, ctx'.prec j i = ctx.prec j i := by
  have hready : ∀ (kc : Field5x52.KernelChoice) (c : ScalarBackend)
      (ctx : EcmultGenContext (limbs5x52 kc).Fe c.Scalar), GenBuilt (limbs5x52 kc).ops c.ops ctx →
      GenReady ((limbs5x52 kc).values (sound_5x52 kc)) c.val ctx := fun kc c ctx h =>
    h.ready (values_mulInt (sound_5x52 kc) (soundInt_5x52 kc)) c.sound c.getBits_four
      (acceptsUnits_5x52 kc)
  obtain ⟨htable, hlt, hinit, hwithin⟩ := hready kc c ctx h
  refine ⟨htable, sum_rowBase, hlt, gejOf_of_within (sound_5x52 kc) hinit hwithin,
    fun kc' c' ctx' h' j hj i hi => ?_⟩
  exact ((hready kc' c' ctx' h').table j hj i hi).unique (htable j hj i hi)

/-- A context of the portable routines. -/
theorem genBuilt_invariant_demo :
    ∃ ctx : EcmultGenContext (limbs5x52 .portable).Fe ScalarBackend.limbs4x64.Scalar,
      GenBuilt (limbs5x52 .portable).ops ScalarBackend.limbs4x64.ops ctx ∧
      ∀ j < 64, ∀ i < 16, StoredAt (rowBase j + (i * 16 ^ j) • generator) (ctx.prec j i) := by
  obtain ⟨ctx, hctx⟩ := exists_genBuilt .portable .limbs4x64
  exact ⟨ctx, hctx, (genBuilt_invariant .portable .limbs4x64 hctx).1⟩

end FieldBackend

end Secp256k1
