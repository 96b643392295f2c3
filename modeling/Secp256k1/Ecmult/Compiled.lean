import Secp256k1.Ecmult.Gen
import Secp256k1.Lib.Yields

/-!
# The code with and without its tests

`P.Refines P'`: what an operation of `P` returns, the one of `P'` returns as well. Code that is run
over such a `P` then returns what it returns over `P'`, or faults. With `P` the operations that test
their preconditions, a run that does not fault is the run of the code as compiled.
-/

namespace Secp256k1

/-- The operations of a backend that may fault. -/
structure PartialOps (F : Type) where
  normalize : F → Option F
  normalizeWeak : F → Option F
  normalizeVar : F → Option F
  normalizesToZero : F → Option Bool
  normalizesToZeroVar : F → Option Bool
  negate : F → CInt → Option F
  mulInt : F → CInt → Option F
  add : F → F → Option F
  mul : F → F → Option F
  sqr : F → Option F

def FieldOps.withPartial {F : Type} (B : FieldOps F) (P : PartialOps F) : FieldOps F :=
  { B with
    normalize := P.normalize
    normalizeWeak := P.normalizeWeak
    normalizeVar := P.normalizeVar
    normalizesToZero := P.normalizesToZero
    normalizesToZeroVar := P.normalizesToZeroVar
    negate := P.negate
    mulInt := P.mulInt
    add := P.add
    mul := P.mul
    sqr := P.sqr }

structure PartialOps.Refines {F : Type} (P P' : PartialOps F) : Prop where
  normalize : ∀ a, Below (P.normalize a) (P'.normalize a)
  normalizeWeak : ∀ a, Below (P.normalizeWeak a) (P'.normalizeWeak a)
  normalizeVar : ∀ a, Below (P.normalizeVar a) (P'.normalizeVar a)
  normalizesToZero : ∀ a, Below (P.normalizesToZero a) (P'.normalizesToZero a)
  normalizesToZeroVar : ∀ a, Below (P.normalizesToZeroVar a) (P'.normalizesToZeroVar a)
  negate : ∀ a m, Below (P.negate a m) (P'.negate a m)
  mulInt : ∀ a k, Below (P.mulInt a k) (P'.mulInt a k)
  add : ∀ a b, Below (P.add a b) (P'.add a b)
  mul : ∀ a b, Below (P.mul a b) (P'.mul a b)
  sqr : ∀ a, Below (P.sqr a) (P'.sqr a)

section

variable {F : Type} (B : FieldOps F) {P P' : PartialOps F} (h : P.Refines P')
include h

theorem doubleRzr_below (a : Gej F) (rzr : Option F) :
    Below (doubleRzr (B.withPartial P) a rzr) (doubleRzr (B.withPartial P') a rzr) := by
  cases rzr with
  | none => exact .refl (some _)
  | some _ => exact (h.normalizeWeak _).bind fun _ => (h.mulInt _ _).bind fun _ => .refl (some _)

theorem gejDoubleVar_below (r a : Gej F) (rzr : Option F) :
    Below (gejDoubleVar (B.withPartial P) r a rzr) (gejDoubleVar (B.withPartial P') r a rzr) := by
  unfold gejDoubleVar
  refine Below.ite (.refl (some _)) ((doubleRzr_below B h a rzr).bind fun _ => ?_)
  repeat' first
    | exact h.mul _ _ | exact h.sqr _ | exact h.add _ _ | exact h.mulInt _ _ | exact h.negate _ _
    | refine Below.bind ?_ fun _ => ?_ | exact .refl (some _)

theorem addXy_below (u1 s1 h2 h3 i i2 : F) :
    Below (addXy (B.withPartial P) u1 s1 h2 h3 i i2)
      (addXy (B.withPartial P') u1 s1 h2 h3 i i2) := by
  unfold addXy
  repeat' first
    | exact h.mul _ _ | exact h.sqr _ | exact h.add _ _ | exact h.mulInt _ _ | exact h.negate _ _
    | refine Below.bind ?_ fun _ => ?_ | exact .refl (some _)

theorem gejAddGeVar_below (r a : Gej F) (b : Ge F) (rzr : Option F) :
    Below (gejAddGeVar (B.withPartial P) r a b rzr) (gejAddGeVar (B.withPartial P') r a b rzr) := by
  unfold gejAddGeVar
  refine Below.ite (.refl (some _)) (Below.ite (.refl (some _)) ?_)
  repeat' first
    | exact h.mul _ _ | exact h.sqr _ | exact h.add _ _ | exact h.mulInt _ _ | exact h.negate _ _
    | exact h.normalizeWeak _ | exact h.normalizesToZeroVar _ | exact gejDoubleVar_below B h r a rzr
    | refine (addXy_below B h _ _ _ _ _ _).bind fun ⟨_, _⟩ => ?_
    | refine Below.bind ?_ fun _ => ?_ | refine Below.ite ?_ ?_ | exact .refl (some _)

theorem gejAddZinvVar_below (r a : Gej F) (b : Ge F) (bzinv : F) :
    Below (gejAddZinvVar (B.withPartial P) r a b bzinv)
      (gejAddZinvVar (B.withPartial P') r a b bzinv) := by
  unfold gejAddZinvVar
  refine Below.ite (.refl (some _)) (Below.ite ?_ ?_)
  repeat' first
    | exact h.mul _ _ | exact h.sqr _ | exact h.add _ _ | exact h.mulInt _ _ | exact h.negate _ _
    | exact h.normalizeWeak _ | exact h.normalizesToZeroVar _
    | refine (gejDoubleVar_below B h r a none).bind fun ⟨_, _⟩ => ?_
    | refine (addXy_below B h _ _ _ _ _ _).bind fun ⟨_, _⟩ => ?_
    | refine Below.bind ?_ fun _ => ?_ | refine Below.ite ?_ ?_ | exact .refl (some _)

theorem gejAddGe_below (a : Gej F) (b : Ge F) :
    Below (gejAddGe (B.withPartial P) a b) (gejAddGe (B.withPartial P') a b) := by
  unfold gejAddGe
  repeat' first
    | exact h.mul _ _ | exact h.sqr _ | exact h.add _ _ | exact h.mulInt _ _ | exact h.negate _ _
    | exact h.normalizeWeak _ | exact h.normalizesToZero _
    | refine Below.bind ?_ fun _ => ?_ | exact .refl (some _)

theorem geSetGejZinv_below (a : Gej F) (zi : F) :
    Below (geSetGejZinv (B.withPartial P) a zi) (geSetGejZinv (B.withPartial P') a zi) :=
  (h.sqr _).bind fun _ => (h.mul _ _).bind fun _ => (h.mul _ _).bind fun _ =>
    (h.mul _ _).bind fun _ => .refl (some _)

theorem geNeg_below (a : Ge F) :
    Below (geNeg (B.withPartial P) a) (geNeg (B.withPartial P') a) :=
  (h.normalizeWeak _).bind fun _ => (h.negate _ _).bind fun _ => .refl (some _)

/-! ## The multiplications -/

theorem oddMultiplesLoop_below (dGe : Ge F) (k i : ℕ) (prej : ℕ → Gej F) (zr : ℕ → F) :
    Below (oddMultiplesLoop (B.withPartial P) dGe k i prej zr)
      (oddMultiplesLoop (B.withPartial P') dGe k i prej zr) := by
  induction k generalizing i prej zr with
  | zero => exact .refl (some _)
  | succ k ih => exact (gejAddGeVar_below B h _ _ _ _).bind fun ⟨_, _⟩ => ih _ _ _

theorem ecmultOddMultiplesTable_below (n : ℕ) (mem : TableMemory F) (a : Gej F) :
    Below (ecmultOddMultiplesTable (B.withPartial P) n mem a)
      (ecmultOddMultiplesTable (B.withPartial P') n mem a) :=
  (gejDoubleVar_below B h _ _ _).bind fun ⟨_, _⟩ => (geSetGejZinv_below B h _ _).bind fun _ =>
    (oddMultiplesLoop_below B h _ _ _ _ _).bind fun ⟨_, _⟩ => (h.mul _ _).bind fun _ =>
      .refl (some _)

theorem globalzLoop_below (n : ℕ) (prej : ℕ → Gej F) (zr : ℕ → F) (i : ℕ) (r : ℕ → Ge F) (zs : F) :
    Below (globalzLoop (B.withPartial P) n prej zr i r zs)
      (globalzLoop (B.withPartial P') n prej zr i r zs) := by
  induction i generalizing r zs with
  | zero => exact .refl (some _)
  | succ i ih =>
    rw [globalzLoop, globalzLoop]
    exact Below.ite
      ((h.mul _ _).bind fun _ => (geSetGejZinv_below B h _ _).bind fun _ => ih _ _)
      ((geSetGejZinv_below B h _ _).bind fun _ => ih _ _)

theorem ecmultOddMultiplesTableGlobalzWindowa_below (mem : EcmultMemory F) (a : Gej F) :
    Below (ecmultOddMultiplesTableGlobalzWindowa (B.withPartial P) mem a)
      (ecmultOddMultiplesTableGlobalzWindowa (B.withPartial P') mem a) := by
  refine (ecmultOddMultiplesTable_below B h _ _ _).bind fun ⟨_, _⟩ => ?_
  exact Below.ite ((globalzLoop_below B h _ _ _ _ _ _).bind fun _ => .refl (some _))
    (.refl (some _))

theorem ecmultAddA_below (preA : ℕ → Ge F) (wnafNa : ℕ → ℤ) (bitsNa i : ℕ) (r : Gej F) :
    Below (ecmultAddA (B.withPartial P) preA wnafNa bitsNa i r)
      (ecmultAddA (B.withPartial P') preA wnafNa bitsNa i r) :=
  Below.ite
    ((Below.ite (.refl (some _)) (geNeg_below B h _)).bind fun _ =>
      (gejAddGeVar_below B h _ _ _ _).bind fun ⟨_, _⟩ => .refl (some _))
    (.refl (some _))

theorem ecmultAddG_below (preG : ℕ → GeStorage) (globalZ : F) (wnafNg : ℕ → ℤ) (bitsNg i : ℕ)
    (r : Gej F) :
    Below (ecmultAddG (B.withPartial P) preG globalZ wnafNg bitsNg i r)
      (ecmultAddG (B.withPartial P') preG globalZ wnafNg bitsNg i r) :=
  Below.ite
    ((Below.ite (.refl (some _)) (geNeg_below B h _)).bind fun _ => gejAddZinvVar_below B h _ _ _ _)
    (.refl (some _))

theorem ecmultLoop_below (preA : ℕ → Ge F) (globalZ : F) (preG : ℕ → GeStorage) (wnafNa : ℕ → ℤ)
    (bitsNa : ℕ) (wnafNg : ℕ → ℤ) (bitsNg i : ℕ) (r : Gej F) :
    Below (ecmultLoop (B.withPartial P) preA globalZ preG wnafNa bitsNa wnafNg bitsNg i r)
      (ecmultLoop (B.withPartial P') preA globalZ preG wnafNa bitsNa wnafNg bitsNg i r) := by
  induction i generalizing r with
  | zero => exact .refl (some _)
  | succ i ih =>
    exact (gejDoubleVar_below B h _ _ _).bind fun ⟨_, _⟩ =>
      (ecmultAddA_below B h _ _ _ _ _).bind fun _ =>
        (ecmultAddG_below B h _ _ _ _ _ _).bind fun _ => ih _

variable {S : Type} (O : ScalarOps S)

theorem ecmult_below (preG : ℕ → GeStorage) (mem : EcmultMemory F) (a : Gej F) (na ng : S) :
    Below (ecmult (B.withPartial P) O preG mem a na ng)
      (ecmult (B.withPartial P') O preG mem a na ng) :=
  (ecmultOddMultiplesTableGlobalzWindowa_below B h mem a).bind fun ⟨_, _⟩ =>
    (ecmultLoop_below B h _ _ _ _ _ _ _ _ _).bind fun _ =>
      Below.ite (.refl (some _)) ((h.mul _ _).bind fun _ => .refl (some _))

theorem genLoop_below (prec : ℕ → ℕ → GeStorage) (gnb : S) (k j : ℕ) (adds : GeStorage)
    (r : Gej F) :
    Below (genLoop (B.withPartial P) O prec gnb k j adds r)
      (genLoop (B.withPartial P') O prec gnb k j adds r) := by
  induction k generalizing j adds r with
  | zero => exact .refl (some _)
  | succ k ih => exact (gejAddGe_below B h _ _).bind fun _ => ih _ _ _

theorem ecmultGen_below (ctx : EcmultGenContext F S) (gn : S) :
    Below (ecmultGen (B.withPartial P) O ctx gn) (ecmultGen (B.withPartial P') O ctx gn) :=
  genLoop_below B h O _ _ _ _ _ _

end

end Secp256k1
