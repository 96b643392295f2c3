import Secp256k1.Ecmult.Gen
import Secp256k1.Ecmult.Wnaf
import Secp256k1.Group.Formulas
import Secp256k1.Group.Quad

/-!
# Operands in range

No run of a point multiplication hands a field routine an operand it is not made for. Every entry
of every array is in range, and so are the accumulator and the common z coordinate; each step keeps
it so. The table of odd multiples is the one place where memory could be read that no step has
written: it is left so where an addition meets the opposite point, which for multiples of a point
of order `n` none does.
-/

namespace Secp256k1

section

variable {F V : Type} [CommRing V] {B : FieldOps F}

/-- What the multiplications rely on besides the operations on values. -/
structure FieldModel.Ranges (M : FieldModel B V) : Prop where
  mulInt : M.MulInt
  fromStorage : ∀ s, M.within 1 (B.fromStorage s)
  setB32 : ∀ b, M.within 1 (B.setB32 b).1
  const : ∀ d7 d6 d5 d4 d3 d2 d1 d0, M.within 1 (B.const d7 d6 d5 d4 d3 d2 d1 d0)

variable {M : FieldModel B V} (hM : M.Ranges)

/-- The first `n` entries of the two arrays that a table is computed in. -/
structure TableWithin (M : FieldModel B V) (n : ℕ) (prej : ℕ → Gej F) (zr : ℕ → F) : Prop where
  prej : ∀ i < n, M.GejWithin (prej i)
  zr : ∀ i < n, M.within 8 (zr i)

theorem forall_update {α : Type} {P : α → Prop} {f : ℕ → α} {n j : ℕ} {v : α}
    (h : ∀ i < n, i ≠ j → P (f i)) (hv : P v) : ∀ i < n, P (Function.update f j v i) := by
  intro i hi
  by_cases hij : i = j
  · rwa [hij, Function.update_self]
  · rw [Function.update_of_ne hij]
    exact h i hi hij

theorem TableWithin.update {n j : ℕ} {prej : ℕ → Gej F} {zr : ℕ → F} {r : Gej F} {z : F}
    (h : TableWithin M n prej zr) (hr : M.GejWithin r) (hz : M.within 8 z) :
    TableWithin M n (Function.update prej j r) (Function.update zr j z) :=
  ⟨forall_update (fun i hi _ => h.prej i hi) hr, forall_update (fun i hi _ => h.zr i hi) hz⟩

/-! ## Tables -/

section

variable {n : ℕ} {prej : ℕ → Gej F} {zr : ℕ → F}

theorem globalzLoop_within (ht : TableWithin M n prej zr) (i : ℕ) (r : ℕ → Ge F) (zs : F)
    (hi : i < n) (hr : ∀ j < n, i ≤ j → M.GeWithin (r j)) (hzs : M.within 8 zs) :
    Yields (globalzLoop B n prej zr i r zs) fun r => ∀ j < n, M.GeWithin (r j) := by
  induction i generalizing r zs with
  | zero => exact .some fun j hj => hr j hj (Nat.zero_le j)
  | succ i ih =>
    have hrest : ∀ zs, M.within 8 zs → Yields (geSetGejZinv B (prej i) zs >>= fun q =>
        globalzLoop B n prej zr i (Function.update r i q) zs)
          fun r => ∀ j < n, M.GeWithin (r j) := by
      intro zs hzs
      refine (geSetGejZinv_within (ht.prej i (by omega)) hzs).bind fun q hq => ?_
      refine ih _ _ (by omega) (fun j hj hij => ?_) hzs
      by_cases hji : j = i
      · rwa [hji, Function.update_self]
      · rw [Function.update_of_ne hji]
        exact hr j hj (by omega)
    rw [globalzLoop]
    split
    · exact (hzs.mul (ht.zr (i + 1) hi) le_rfl le_rfl).bind fun zs h =>
        hrest zs (h.mono (by norm_num))
    · exact hrest zs hzs

theorem geGlobalzSetTableGej_within (hn : 0 < n) (ht : TableWithin M n prej zr) (r : ℕ → Ge F)
    (globalz : F) : Yields (geGlobalzSetTableGej B n r globalz prej zr) fun t =>
      (∀ j < n, M.GeWithin (t.1 j)) ∧ M.within 8 t.2 := by
  have hlast : n - 1 < n := by omega
  rw [geGlobalzSetTableGej, if_pos hn]
  refine (globalzLoop_within ht (n - 1) _ _ hlast (fun j hj hij => ?_)
    (ht.zr _ hlast)).bind fun r hr => .pure ⟨hr, (ht.prej _ hlast).z⟩
  obtain rfl : j = n - 1 := by omega
  rw [Function.update_self]
  exact ⟨(ht.prej _ hlast).x, (ht.prej _ hlast).y⟩

include hM

theorem oddMultiplesLoop_within {dGe : Ge F} (hd : M.GeWithin dGe) (k i : ℕ) (hi : 1 ≤ i)
    (hk : i + k ≤ n) (ht : TableWithin M n prej zr) :
    Yields (oddMultiplesLoop B dGe k i prej zr) fun t => TableWithin M n t.1 t.2 := by
  induction k generalizing i prej zr with
  | zero => exact .some ht
  | succ k ih =>
    have hzi := ht.zr i (by omega)
    refine (gejAddGeVar_within hM.mulInt (ht.prej i (by omega)) (ht.prej (i - 1) (by omega)) hd
      fun z hz => Option.some.inj hz ▸ hzi).bind fun t htt => ?_
    refine ih (i + 1) (by omega) (by omega) (ht.update htt.1 ?_)
    cases h2 : t.2 with
    | none => exact hzi
    | some z => exact htt.2 z h2

omit hM in
/-- The end of the table: the last z coordinate gets the factor that all of them lack. -/
theorem oddMultiplesEnd_within (hn : 0 < n) (ht : TableWithin M n prej zr) {z : F}
    (hz : M.within 8 z) : Yields (B.mul (prej (n - 1)).z z >>= fun z =>
      pure (Function.update prej (n - 1) { prej (n - 1) with z }, zr))
        fun t => TableWithin M n t.1 t.2 := by
  have hlast := ht.prej (n - 1) (by omega)
  refine (hlast.z.mul hz le_rfl le_rfl).bind fun z hz => .pure ⟨?_, ht.zr⟩
  exact forall_update (fun i hi _ => ht.prej i hi) ⟨hlast.x, hlast.y, hz.mono (by norm_num)⟩

/-- With memory in range, whatever the answers of the zero tests. -/
theorem ecmultOddMultiplesTable_within (hn : 0 < n) {mem : TableMemory F}
    (hmem : TableWithin M n mem.prej mem.zr) (hd : M.GejWithin mem.d) {a : Gej F}
    (ha : M.GejWithin a) :
    Yields (ecmultOddMultiplesTable B n mem a) fun t => TableWithin M n t.1 t.2 := by
  refine (gejDoubleVar_within hM.mulInt hd ha).bind fun d hd => ?_
  refine (geSetGejZinv_within ha hd.1.z).bind fun aGe haGe => ?_
  have hdGe : M.GeWithin ⟨d.1.x, d.1.y, false⟩ := ⟨hd.1.x, hd.1.y⟩
  have hfirst : M.GejWithin ⟨aGe.x, aGe.y, a.z, false⟩ := ⟨haGe.x, haGe.y, ha.z⟩
  refine (oddMultiplesLoop_within hM hdGe (n - 1) 1 le_rfl (by omega)
    (hmem.update hfirst hd.1.z)).bind fun t ht => ?_
  exact oddMultiplesEnd_within hn ht hd.1.z

end

end

/-! ## The multiplications -/

section

variable {F V : Type} [CommRing V] {B : FieldOps F} {M : FieldModel B V} (hM : M.Ranges)

include hM in
theorem geFromStorage_within (s : GeStorage) : M.GeWithin (geFromStorage B s) :=
  ⟨(hM.fromStorage s.x).mono (by norm_num), (hM.fromStorage s.y).mono (by norm_num)⟩

theorem ecmultTableGetGe_within {w : ℕ} (hw : 2 ≤ w) {pre : ℕ → Ge F}
    (hpre : ∀ i < ecmultTableSize w, M.GeWithin (pre i)) {d : ℤ} (hd : IsDigit w d) (h0 : d ≠ 0) :
    Yields (ecmultTableGetGe B pre d) M.GeWithin := by
  obtain ⟨hpos, hneg⟩ := hd.index_lt hw h0
  unfold ecmultTableGetGe
  split
  · next h => exact .some (hpre _ (hpos h))
  · next h => exact geNeg_within (hpre _ (hneg (by omega)))

include hM

theorem ecmultTableGetGeStorage_within (pre : ℕ → GeStorage) (d : ℤ) :
    Yields (ecmultTableGetGeStorage B pre d) M.GeWithin := by
  unfold ecmultTableGetGeStorage
  split
  · exact .some (geFromStorage_within hM _)
  · exact geNeg_within (geFromStorage_within hM _)

theorem ecmultAddA_within {preA : ℕ → Ge F}
    (hpre : ∀ i < ecmultTableSize windowA, M.GeWithin (preA i)) {wnafNa : ℕ → ℤ}
    (hna : ∀ i, IsDigit windowA (wnafNa i)) (bitsNa i : ℕ) {r : Gej F} (hr : M.GejWithin r) :
    Yields (ecmultAddA B preA wnafNa bitsNa i r) M.GejWithin := by
  unfold ecmultAddA
  split
  · next h =>
    refine (ecmultTableGetGe_within (by decide) hpre (hna i) h.2).bind fun tmpa htmpa => ?_
    have hnone : ∀ z ∈ (none : Option F), M.within 8 z := fun z hz => by cases hz
    exact (gejAddGeVar_within hM.mulInt hr hr htmpa hnone).bind fun t ht => .pure ht.1
  · exact .some hr

theorem ecmultAddG_within (preG : ℕ → GeStorage) {globalZ : F} (hz : M.within 8 globalZ)
    (wnafNg : ℕ → ℤ) (bitsNg i : ℕ) {r : Gej F} (hr : M.GejWithin r) :
    Yields (ecmultAddG B preG globalZ wnafNg bitsNg i r) M.GejWithin := by
  unfold ecmultAddG
  split
  · refine (ecmultTableGetGeStorage_within hM preG _).bind fun tmpa htmpa => ?_
    exact gejAddZinvVar_within hM.mulInt hr hr htmpa hz
  · exact .some hr

/-- Doublings and additions in any order keep the accumulator in range. -/
theorem ecmultLoop_within {preA : ℕ → Ge F}
    (hpre : ∀ i < ecmultTableSize windowA, M.GeWithin (preA i)) {globalZ : F}
    (hz : M.within 8 globalZ) (preG : ℕ → GeStorage) {wnafNa : ℕ → ℤ}
    (hna : ∀ i, IsDigit windowA (wnafNa i)) (bitsNa : ℕ) (wnafNg : ℕ → ℤ) (bitsNg i : ℕ)
    {r : Gej F} (hr : M.GejWithin r) :
    Yields (ecmultLoop B preA globalZ preG wnafNa bitsNa wnafNg bitsNg i r) M.GejWithin := by
  induction i generalizing r with
  | zero => exact .some hr
  | succ i ih =>
    refine (gejDoubleVar_within hM.mulInt hr hr).bind fun t ht => ?_
    refine (ecmultAddA_within hM hpre hna bitsNa i ht.1).bind fun r hr => ?_
    refine (ecmultAddG_within hM preG hz wnafNg bitsNg i hr).bind fun r hr => ?_
    exact ih hr

theorem ecmult_within {S : Type} {O : ScalarOps S} {val : S → ℕ} (hO : O.Sound val)
    (preG : ℕ → GeStorage) {mem : EcmultMemory F} {a : Gej F}
    (htable : Yields (ecmultOddMultiplesTable B (ecmultTableSize windowA) mem.toTableMemory a)
      fun t => TableWithin M (ecmultTableSize windowA) t.1 t.2) (na ng : S) :
    Yields (ecmult B O preG mem a na ng) M.GejWithin := by
  have hglobal : Yields (ecmultOddMultiplesTableGlobalzWindowa B mem a) fun t =>
      (∀ j < ecmultTableSize windowA, M.GeWithin (t.1 j)) ∧ M.within 8 t.2 :=
    htable.bind fun t ht => geGlobalzSetTableGej_within (by decide) ht mem.preA mem.globalZ
  refine hglobal.bind fun t ht => ?_
  refine (ecmultLoop_within hM ht.1 ht.2 preG
    (fun i => ecmultWnaf_digits hO (by decide) (by decide) na i) _ _ _ _
    gejSetInfinity_within).bind fun r hr => ?_
  split
  · exact .pure hr
  · exact (hr.z.mul ht.2 le_rfl le_rfl).bind fun z hz => .pure ⟨hr.x, hr.y, hz.mono (by norm_num)⟩

/-! ## The generator -/

variable {S : Type} {O : ScalarOps S}

theorem genLoop_within (prec : ℕ → ℕ → GeStorage) (gnb : S) (k j : ℕ) (adds : GeStorage) {r : Gej F}
    (hr : M.GejWithin r) : Yields (genLoop B O prec gnb k j adds r) M.GejWithin := by
  induction k generalizing j adds r with
  | zero => exact .some hr
  | succ k ih =>
    refine (gejAddGe_within hM.mulInt hr (geFromStorage_within hM _)
      (hM.const 0 0 0 0 0 0 0 1)).bind fun r hr => ?_
    exact ih _ _ hr

theorem ecmultGen_within (ctx : EcmultGenContext F S) (h : M.GejWithin ctx.initial) (gn : S) :
    Yields (ecmultGen B O ctx gn) M.GejWithin := genLoop_within hM _ _ _ _ _ h

theorem geConstG_within : M.GeWithin (geConstG B) :=
  ⟨(hM.const _ _ _ _ _ _ _ _).mono (by norm_num), (hM.const _ _ _ _ _ _ _ _).mono (by norm_num)⟩

theorem blindScale_within (rng : ℕ → Fin 32 → Byte) (fuel i : ℕ) {s : F × ℕ}
    (h : blindScale B rng fuel i = some s) : M.within 8 s.1 := by
  induction fuel generalizing i with
  | zero => cases h
  | succ fuel ih =>
    rw [blindScale] at h
    have hs := hM.setB32 (rng i)
    generalize B.setB32 (rng i) = t at h hs
    obtain ⟨t, ok⟩ := t
    simp only at h
    split at h
    · exact ih _ h
    · obtain rfl := Option.some.inj h
      exact hs.mono (by norm_num)

/-- Blinding leaves an initial point in range, from one in range or without a seed. -/
theorem ecmultGenBlind_within {rng : List Byte → ℕ → Fin 32 → Byte} {fuel : ℕ}
    {ctx ctx' : EcmultGenContext F S} {seed32 : Option (Fin 32 → Byte)}
    (hctx : seed32 = none ∨ M.GejWithin ctx.initial)
    (h : ecmultGenBlind B O rng fuel ctx seed32 = some ctx') : M.GejWithin ctx'.initial := by
  obtain ⟨ctx₁, h₁, h⟩ := Option.bind_eq_some_iff.mp h
  obtain ⟨s, hs, h⟩ := Option.bind_eq_some_iff.mp h
  obtain ⟨initial, hinit, h⟩ := Option.bind_eq_some_iff.mp h
  obtain ⟨b, -, h⟩ := Option.bind_eq_some_iff.mp h
  obtain ⟨gb, hgb, h⟩ := Option.bind_eq_some_iff.mp h
  obtain rfl := Option.some.inj h
  have hctx₁ : M.GejWithin ctx₁.initial := by
    cases seed32 with
    | none =>
      obtain ⟨initial, hneg, h₁⟩ := Option.bind_eq_some_iff.mp h₁
      obtain rfl := Option.some.inj h₁
      exact (gejNeg_within (gejSetGe_within (geConstG_within hM))).of_eq_some hneg
    | some seed =>
      obtain rfl := Option.some.inj h₁
      exact hctx.resolve_left (Option.some_ne_none seed)
  have hinitial := (gejRescale_within hctx₁ (blindScale_within hM _ _ _ hs)).of_eq_some hinit
  exact (ecmultGen_within hM { ctx₁ with initial } hinitial b).of_eq_some hgb

end

/-- The contexts that can be in use: built, and blinded any number of times. -/
inductive GenBuilt {F S : Type} (B : FieldOps F) (O : ScalarOps S) : EcmultGenContext F S → Prop
  | build {rng : List Byte → ℕ → Fin 32 → Byte} {fuel : ℕ} {mem : GenMemory F S}
      {ctx : EcmultGenContext F S} (h : ecmultGenContextBuild B O rng fuel mem = some ctx) :
      GenBuilt B O ctx
  | blind {rng : List Byte → ℕ → Fin 32 → Byte} {fuel : ℕ} {ctx ctx' : EcmultGenContext F S}
      {seed32 : Option (Fin 32 → Byte)} (hctx : GenBuilt B O ctx)
      (h : ecmultGenBlind B O rng fuel ctx seed32 = some ctx') : GenBuilt B O ctx'

theorem GenBuilt.within {F V S : Type} [CommRing V] {B : FieldOps F} {M : FieldModel B V}
    (hM : M.Ranges) {O : ScalarOps S} {ctx : EcmultGenContext F S} (h : GenBuilt B O ctx) :
    M.GejWithin ctx.initial := by
  induction h with
  | build h =>
    obtain ⟨nums, -, h⟩ := Option.bind_eq_some_iff.mp h
    obtain ⟨precj, -, h⟩ := Option.bind_eq_some_iff.mp h
    obtain ⟨prec, -, h⟩ := Option.bind_eq_some_iff.mp h
    obtain ⟨table, -, h⟩ := Option.bind_eq_some_iff.mp h
    exact ecmultGenBlind_within hM (.inl rfl) h
  | blind _ h ih => exact ecmultGenBlind_within hM (.inr ih) h

end Secp256k1
