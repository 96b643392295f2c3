import Secp256k1.Field.Model
import Secp256k1.Group.Tables

/-!
# The addition formulas

What doubling and mixed addition compute, with the magnitudes of the coordinates, over any ring the
elements are read in. `M.within m a` forgets the value: it is all that the other formulas are shown
to keep, with at most eight for every coordinate of every point.
-/

namespace Secp256k1

namespace FieldModel

variable {F V : Type} [CommRing V] {B : FieldOps F} (M : FieldModel B V)

/-- Of magnitude at most `m`, whatever the value. -/
def within (m : ℕ) (a : F) : Prop := ∃ v, M.rep m v a

variable {M} {m k : ℕ} {v w : V} {a b : F}

theorem rep_congr (h : M.rep m v a) (e : v = w) : M.rep m w a := e ▸ h

theorem within_of_rep (h : M.rep m v a) (hm : m ≤ k) : M.within k a := ⟨v, M.rep_mono hm h⟩

theorem within.mono (h : M.within m a) (hm : m ≤ k) : M.within k a := by
  obtain ⟨v, hv⟩ := h
  exact within_of_rep hv hm

theorem within.mul (ha : M.within m a) (hb : M.within k b) (hm : m ≤ 8) (hk : k ≤ 8) :
    Yields (B.mul a b) (M.within 1) := by
  obtain ⟨v, hv⟩ := ha
  obtain ⟨w, hw⟩ := hb
  exact (prod hv hw hm hk).mono fun _ h => ⟨_, h⟩

theorem within.sqr (ha : M.within m a) (hm : m ≤ 8) : Yields (B.sqr a) (M.within 1) := by
  obtain ⟨v, hv⟩ := ha
  exact (square hv hm).mono fun _ h => ⟨_, h⟩

theorem within.add (ha : M.within m a) (hb : M.within k b) (h : m + k ≤ 32) :
    Yields (B.add a b) (M.within (m + k)) := by
  obtain ⟨v, hv⟩ := ha
  obtain ⟨w, hw⟩ := hb
  exact (sum hv hw h).mono fun _ h => ⟨_, h⟩

theorem within.negate {i : CInt} (ha : M.within m a) (hi : i.toNat = m) (hm : m < 32) :
    Yields (B.negate a i) (M.within (m + 1)) := by
  obtain ⟨v, hv⟩ := ha
  exact (M.negate hi hm (M.raw_of_rep hv)).mono fun _ h => ⟨_, h⟩

theorem within.mulInt (hM : M.MulInt) {i : CInt} (ha : M.within m a) (hi : i.toNat = k)
    (hk : k < 2 ^ 31) (h : m * k ≤ 32) : Yields (B.mulInt a i) (M.within (m * k)) := by
  obtain ⟨v, hv⟩ := ha
  exact (hM hi hk h (M.raw_of_rep hv)).mono fun _ h => ⟨_, h⟩

theorem within.normalizeWeak (ha : M.within m a) (hm : m ≤ 32) :
    Yields (B.normalizeWeak a) (M.within 1) := by
  obtain ⟨v, hv⟩ := ha
  exact (M.normalizeWeak hm hv).mono fun _ h => ⟨v, h⟩

theorem within.normalize (ha : M.within m a) (hm : m ≤ 32) :
    Yields (B.normalize a) (M.within 1) := by
  obtain ⟨v, hv⟩ := ha
  exact (M.normalize hm hv).mono fun _ h => ⟨v, M.rep_of_norm h⟩

theorem within.normalizeVar (ha : M.within m a) (hm : m ≤ 32) :
    Yields (B.normalizeVar a) (M.within 1) := by
  obtain ⟨v, hv⟩ := ha
  exact (M.normalizeVar hm hv).mono fun _ h => ⟨v, M.rep_of_norm h⟩

theorem within.normalizesToZero (ha : M.within m a) (hm : m ≤ 32) :
    Yields (B.normalizesToZero a) fun _ => True := by
  obtain ⟨v, hv⟩ := ha
  exact (M.normalizesToZero hm hv).mono fun _ _ => trivial

theorem within.normalizesToZeroVar (ha : M.within m a) (hm : m ≤ 32) :
    Yields (B.normalizesToZeroVar a) fun _ => True := by
  obtain ⟨v, hv⟩ := ha
  exact (M.normalizesToZeroVar hm hv).mono fun _ _ => trivial

theorem within.cmov (ha : M.within m a) (hb : M.within m b) (f : Bool) :
    M.within m (B.cmov a b (ofBool f)) := by
  rw [M.cmov]
  split
  · exact hb
  · exact ha

theorem within_setInt {i : CInt} (hi : i.toNat = k) (hk : k < 2 ^ 31) : M.within 1 (B.setInt i) :=
  ⟨_, M.rep_of_norm (M.setInt hi hk)⟩

theorem within_clear : M.within 1 B.clear := ⟨_, M.rep_of_norm M.clear⟩

variable (M)

/-- The coordinates of a point are fit for products. -/
structure GeWithin (a : Ge F) : Prop where
  x : M.within 8 a.x
  y : M.within 8 a.y

structure GejWithin (a : Gej F) : Prop where
  x : M.within 8 a.x
  y : M.within 8 a.y
  z : M.within 8 a.z

end FieldModel

variable {F V : Type} [CommRing V] {B : FieldOps F} {M : FieldModel B V} (hM : M.MulInt)
  {X Y Z x y : V}

/-! ## Doubling -/

section

variable {a : Gej F} {rzr : Option F} (hrzr : rzr = none ∨ M.rep 8 Y a.y)
include hM hrzr

theorem doubleRzr_spec : Yields (doubleRzr B a rzr) fun q => ∀ z ∈ q, M.rep 2 (2 * Y) z := by
  cases rzr with
  | none => exact .some fun z hz => by cases hz
  | some _ =>
    have hy := hrzr.resolve_left (Option.some_ne_none _)
    refine (M.normalizeWeak (by norm_num) hy).bind fun t ht => ?_
    refine (hM (k := 2) rfl (by norm_num) (by norm_num) (M.raw_of_rep ht)).bind fun t ht => ?_
    refine .pure fun z hz => ?_
    obtain rfl := Option.some.inj hz
    exact FieldModel.rep_congr ht (by push_cast; ring)

/-- The double of a finite point. -/
theorem gejDoubleVar_spec (hx : M.raw 8 X a.x) (hy : M.raw 8 Y a.y) (hz : M.raw 8 Z a.z)
    (r : Gej F) (hinf : a.infinity = false) :
    Yields (gejDoubleVar B r a rzr) fun q => q.1.infinity = false ∧
      M.rep 6 (9 * X ^ 4 - 8 * X * Y ^ 2) q.1.x ∧
      M.rep 4 (36 * X ^ 3 * Y ^ 2 - 27 * X ^ 6 - 8 * Y ^ 4) q.1.y ∧
      M.rep 2 (2 * Y * Z) q.1.z ∧ ∀ z ∈ q.2, M.rep 2 (2 * Y) z := by
  rw [gejDoubleVar, hinf, if_neg Bool.false_ne_true]
  have mulInt : ∀ {m k : ℕ} {v : V} {t : F} {i : CInt}, BitVec.toNat i = k → k < 2 ^ 31 →
      m * k ≤ 32 → M.rep m v t → Yields (B.mulInt t i) (M.rep (m * k) (v * k)) :=
    fun hi hk hm ht => hM hi hk hm (M.raw_of_rep ht)
  refine (doubleRzr_spec hM hrzr).bind fun rzr hrzr => ?_
  refine (M.mul hz hy).bind fun z hz => ?_
  refine (mulInt (k := 2) rfl (by norm_num) (by norm_num) hz).bind fun z hz => ?_
  refine (M.sqr hx).bind fun t1 h1 => ?_
  refine (mulInt (k := 3) rfl (by norm_num) (by norm_num) h1).bind fun t1 h1 => ?_
  refine (FieldModel.square h1 (by norm_num)).bind fun t2 h2 => ?_
  refine (M.sqr hy).bind fun t3 h3 => ?_
  refine (mulInt (k := 2) rfl (by norm_num) (by norm_num) h3).bind fun t3 h3 => ?_
  refine (FieldModel.square h3 (by norm_num)).bind fun t4 h4 => ?_
  refine (mulInt (k := 2) rfl (by norm_num) (by norm_num) h4).bind fun t4 h4 => ?_
  refine (M.mul (FieldModel.raw8 h3 (by norm_num)) hx).bind fun t3 h3 => ?_
  refine (mulInt (k := 4) rfl (by norm_num) (by norm_num) h3).bind fun x hx => ?_
  refine (M.negate (m := 4) rfl (by norm_num) (M.raw_of_rep hx)).bind fun x hx => ?_
  refine (FieldModel.sum hx h2 (by norm_num)).bind fun x hx => ?_
  refine (M.negate (m := 1) rfl (by norm_num) (M.raw_of_rep h2)).bind fun t2 h2 => ?_
  refine (mulInt (k := 6) rfl (by norm_num) (by norm_num) h3).bind fun t3 h3 => ?_
  refine (FieldModel.sum h3 h2 (by norm_num)).bind fun t3 h3 => ?_
  refine (FieldModel.prod h1 h3 (by norm_num) (by norm_num)).bind fun y hy => ?_
  refine (M.negate (m := 2) rfl (by norm_num) (M.raw_of_rep h4)).bind fun t2 h2 => ?_
  refine (FieldModel.sum hy h2 (by norm_num)).bind fun y hy => ?_
  refine .pure ⟨rfl, FieldModel.rep_congr hx ?_, FieldModel.rep_congr hy ?_,
    FieldModel.rep_congr hz ?_, hrzr⟩ <;> push_cast <;> ring

end

/-! ## Addition -/

section

include hM

theorem addXy_spec {u1 s1 h2 h3 i i2 : F} {U S H2 H3 I I2 : V} (hu : M.rep 1 U u1)
    (hs : M.rep 1 S s1) (hh2 : M.rep 1 H2 h2) (hh3 : M.rep 1 H3 h3) (hi : M.rep 3 I i)
    (hi2 : M.rep 1 I2 i2) :
    Yields (addXy B u1 s1 h2 h3 i i2) fun q => M.rep 5 (I2 - H3 - 2 * U * H2) q.1 ∧
      M.rep 3 (I * (U * H2 - (I2 - H3 - 2 * U * H2)) - H3 * S) q.2 := by
  refine (FieldModel.prod hu hh2 (by norm_num) (by norm_num)).bind fun t ht => ?_
  refine (hM (k := 2) rfl (by norm_num) (by norm_num) (M.raw_of_rep ht)).bind fun x hx => ?_
  refine (FieldModel.sum hx hh3 (by norm_num)).bind fun x hx => ?_
  refine (M.negate (m := 3) rfl (by norm_num) (M.raw_of_rep hx)).bind fun x hx => ?_
  refine (FieldModel.sum hx hi2 (by norm_num)).bind fun x hx => ?_
  refine (M.negate (m := 5) rfl (by norm_num) (M.raw_of_rep hx)).bind fun y hy => ?_
  refine (FieldModel.sum hy ht (by norm_num)).bind fun y hy => ?_
  refine (FieldModel.prod hy hi (by norm_num) (by norm_num)).bind fun y hy => ?_
  refine (FieldModel.prod hh3 hs (by norm_num) (by norm_num)).bind fun h3 hh3 => ?_
  refine (M.negate (m := 1) rfl (by norm_num) (M.raw_of_rep hh3)).bind fun h3 hh3 => ?_
  refine (FieldModel.sum hy hh3 (by norm_num)).bind fun y hy => ?_
  refine .pure ⟨FieldModel.rep_congr hx ?_, FieldModel.rep_congr hy ?_⟩ <;> push_cast <;> ring

/-- The rule of mixed addition for finite points: the three results, each under the answers of the
zero tests that lead to it. -/
theorem gejAddGeVar_spec {r a : Gej F} {b : Ge F} {rzr : Option F} {R : Gej F × Option F → Prop}
    (hx : M.rep 8 X a.x) (hy : M.rep 8 Y a.y) (hz : M.raw 8 Z a.z) (hbx : M.raw 8 x b.x)
    (hby : M.raw 8 y b.y) (hainf : a.infinity = false) (hbinf : b.infinity = false) {H I : V}
    (hH : H = x * Z ^ 2 - X) (hI : I = y * Z ^ 3 - Y)
    (hdouble : M.zero H true → M.zero I true → Yields (gejDoubleVar B r a rzr) R)
    (hcancel : M.zero H true → M.zero I false →
      R ({ r with infinity := true }, rzr.map fun _ => B.setInt 0))
    (hsum : ∀ h x y z, M.zero H false → M.rep 3 H h →
      M.rep 5 (I ^ 2 - H ^ 3 - 2 * X * H ^ 2) x →
      M.rep 3 (I * (X * H ^ 2 - (I ^ 2 - H ^ 3 - 2 * X * H ^ 2)) - H ^ 3 * Y) y →
      M.rep 1 (Z * H) z → R (⟨x, y, z, false⟩, rzr.map fun _ => h)) :
    Yields (gejAddGeVar B r a b rzr) R := by
  rw [gejAddGeVar, hainf, hbinf, if_neg Bool.false_ne_true, if_neg Bool.false_ne_true]
  refine (M.sqr hz).bind fun z12 h12 => ?_
  refine (M.normalizeWeak (by norm_num) hx).bind fun u1 hu1 => ?_
  refine (M.mul hbx (FieldModel.raw8 h12 (by norm_num))).bind fun u2 hu2 => ?_
  refine (M.normalizeWeak (by norm_num) hy).bind fun s1 hs1 => ?_
  refine (M.mul hby (FieldModel.raw8 h12 (by norm_num))).bind fun s2 hs2 => ?_
  refine (M.mul (FieldModel.raw8 hs2 (by norm_num)) hz).bind fun s2 hs2 => ?_
  refine (M.negate (m := 1) rfl (by norm_num) (M.raw_of_rep hu1)).bind fun h hh => ?_
  refine (FieldModel.sum hh hu2 (by norm_num)).bind fun h hh => ?_
  refine (M.negate (m := 1) rfl (by norm_num) (M.raw_of_rep hs1)).bind fun i hi => ?_
  refine (FieldModel.sum hi hs2 (by norm_num)).bind fun i hi => ?_
  replace hh := FieldModel.rep_congr (w := H) hh (by rw [hH]; ring)
  replace hi := FieldModel.rep_congr (w := I) hi (by rw [hI]; ring)
  refine (M.normalizesToZeroVar (by norm_num) hh).bind fun zh hzh => ?_
  cases zh with
  | true =>
    rw [if_pos rfl]
    refine (M.normalizesToZeroVar (by norm_num) hi).bind fun zi hzi => ?_
    cases zi with
    | true => exact hdouble hzh hzi
    | false => exact .pure (hcancel hzh hzi)
  | false =>
    rw [if_neg Bool.false_ne_true]
    refine (FieldModel.square hi (by norm_num)).bind fun i2 hi2 => ?_
    refine (FieldModel.square hh (by norm_num)).bind fun h2 hh2 => ?_
    refine (FieldModel.prod hh hh2 (by norm_num) (by norm_num)).bind fun h3 hh3 => ?_
    refine (M.mul hz (FieldModel.raw8 hh (by norm_num))).bind fun z hz' => ?_
    refine (addXy_spec hM hu1 hs1 hh2 hh3 hi hi2).bind fun q hq => ?_
    refine .pure (hsum h q.1 q.2 z hzh hh (FieldModel.rep_congr hq.1 ?_)
      (FieldModel.rep_congr hq.2 ?_) hz') <;> ring

/-- The same for two Jacobian forms: both are brought to the product of the z coordinates. -/
theorem gejAddVar_spec {r a b : Gej F} {rzr : Option F} {R : Gej F × Option F → Prop} {W : V}
    (hx : M.raw 8 X a.x) (hy : M.raw 8 Y a.y) (hz : M.raw 8 Z a.z) (hbx : M.raw 8 x b.x)
    (hby : M.raw 8 y b.y) (hbz : M.raw 8 W b.z) (hainf : a.infinity = false)
    (hbinf : b.infinity = false) {U S H I : V} (hU : U = X * (W * W)) (hS : S = Y * (W * W * W))
    (hH : H = x * Z ^ 2 - U) (hI : I = y * Z ^ 3 - S)
    (hdouble : M.zero H true → M.zero I true → Yields (gejDoubleVar B r a rzr) R)
    (hcancel : M.zero H true → M.zero I false →
      R ({ r with infinity := true }, rzr.map fun _ => B.setInt 0))
    (hsum : ∀ h x y z, M.zero H false → M.rep 1 (H * W) h →
      M.rep 5 (I ^ 2 - H ^ 3 - 2 * U * H ^ 2) x →
      M.rep 3 (I * (U * H ^ 2 - (I ^ 2 - H ^ 3 - 2 * U * H ^ 2)) - H ^ 3 * S) y →
      M.rep 1 (Z * (H * W)) z → R (⟨x, y, z, false⟩, rzr.map fun _ => h)) :
    Yields (gejAddVar B r a b rzr) R := by
  rw [gejAddVar, hainf, hbinf, if_neg Bool.false_ne_true, if_neg Bool.false_ne_true]
  refine (M.sqr hbz).bind fun z22 h22 => ?_
  refine (M.sqr hz).bind fun z12 h12 => ?_
  have hz22 := FieldModel.raw8 h22 (by norm_num)
  have hz12 := FieldModel.raw8 h12 (by norm_num)
  refine (M.mul hx hz22).bind fun u1 hu1 => ?_
  refine (M.mul hbx hz12).bind fun u2 hu2 => ?_
  refine (M.mul hy hz22).bind fun s1 hs1 => ?_
  refine (M.mul (FieldModel.raw8 hs1 (by norm_num)) hbz).bind fun s1 hs1 => ?_
  refine (M.mul hby hz12).bind fun s2 hs2 => ?_
  refine (M.mul (FieldModel.raw8 hs2 (by norm_num)) hz).bind fun s2 hs2 => ?_
  replace hu1 := FieldModel.rep_congr hu1 hU.symm
  replace hs1 := FieldModel.rep_congr (w := S) hs1 (by rw [hS]; ring)
  refine (M.negate (m := 1) rfl (by norm_num) (M.raw_of_rep hu1)).bind fun h hh => ?_
  refine (FieldModel.sum hh hu2 (by norm_num)).bind fun h hh => ?_
  refine (M.negate (m := 1) rfl (by norm_num) (M.raw_of_rep hs1)).bind fun i hi => ?_
  refine (FieldModel.sum hi hs2 (by norm_num)).bind fun i hi => ?_
  replace hh := FieldModel.rep_congr (w := H) hh (by rw [hH]; ring)
  replace hi := FieldModel.rep_congr (w := I) hi (by rw [hI]; ring)
  refine (M.normalizesToZeroVar (by norm_num) hh).bind fun zh hzh => ?_
  cases zh with
  | true =>
    rw [if_pos rfl]
    refine (M.normalizesToZeroVar (by norm_num) hi).bind fun zi hzi => ?_
    cases zi with
    | true => exact hdouble hzh hzi
    | false => exact .pure (hcancel hzh hzi)
  | false =>
    rw [if_neg Bool.false_ne_true]
    refine (FieldModel.square hi (by norm_num)).bind fun i2 hi2 => ?_
    refine (FieldModel.square hh (by norm_num)).bind fun h2 hh2 => ?_
    refine (FieldModel.prod hh hh2 (by norm_num) (by norm_num)).bind fun h3 hh3 => ?_
    refine (M.mul (FieldModel.raw8 hh (by norm_num)) hbz).bind fun h hh => ?_
    refine (M.mul hz (FieldModel.raw8 hh (by norm_num))).bind fun z hz' => ?_
    refine (addXy_spec hM hu1 hs1 hh2 hh3 hi hi2).bind fun q hq => ?_
    refine .pure (hsum h q.1 q.2 z hzh hh (FieldModel.rep_congr hq.1 ?_)
      (FieldModel.rep_congr hq.2 ?_) hz') <;> ring

/-- The same for an affine summand whose coordinates lack the factor that the z coordinate of the
Jacobian form is to be divided by. -/
theorem gejAddZinvVar_spec {r a : Gej F} {b : Ge F} {bzinv : F} {R : Gej F → Prop} {W : V}
    (hx : M.rep 8 X a.x) (hy : M.rep 8 Y a.y) (hz : M.raw 8 Z a.z) (hbx : M.raw 8 x b.x)
    (hby : M.raw 8 y b.y) (hzi : M.raw 8 W bzinv) (hainf : a.infinity = false)
    (hbinf : b.infinity = false) {H I : V} (hH : H = x * (Z * W) ^ 2 - X)
    (hI : I = y * (Z * W) ^ 3 - Y)
    (hdouble : M.zero H true → M.zero I true → Yields (gejDoubleVar B r a none) fun q => R q.1)
    (hcancel : M.zero H true → M.zero I false → R { r with infinity := true })
    (hsum : ∀ x y z, M.zero H false → M.rep 5 (I ^ 2 - H ^ 3 - 2 * X * H ^ 2) x →
      M.rep 3 (I * (X * H ^ 2 - (I ^ 2 - H ^ 3 - 2 * X * H ^ 2)) - H ^ 3 * Y) y →
      M.rep 1 (Z * H) z → R ⟨x, y, z, false⟩) :
    Yields (gejAddZinvVar B r a b bzinv) R := by
  rw [gejAddZinvVar, hainf, hbinf, if_neg Bool.false_ne_true, if_neg Bool.false_ne_true]
  refine (M.mul hz hzi).bind fun az haz => ?_
  refine (FieldModel.square haz (by norm_num)).bind fun z12 h12 => ?_
  refine (M.normalizeWeak (by norm_num) hx).bind fun u1 hu1 => ?_
  refine (M.mul hbx (FieldModel.raw8 h12 (by norm_num))).bind fun u2 hu2 => ?_
  refine (M.normalizeWeak (by norm_num) hy).bind fun s1 hs1 => ?_
  refine (M.mul hby (FieldModel.raw8 h12 (by norm_num))).bind fun s2 hs2 => ?_
  refine (FieldModel.prod hs2 haz (by norm_num) (by norm_num)).bind fun s2 hs2 => ?_
  refine (M.negate (m := 1) rfl (by norm_num) (M.raw_of_rep hu1)).bind fun h hh => ?_
  refine (FieldModel.sum hh hu2 (by norm_num)).bind fun h hh => ?_
  refine (M.negate (m := 1) rfl (by norm_num) (M.raw_of_rep hs1)).bind fun i hi => ?_
  refine (FieldModel.sum hi hs2 (by norm_num)).bind fun i hi => ?_
  replace hh := FieldModel.rep_congr (w := H) hh (by rw [hH]; ring)
  replace hi := FieldModel.rep_congr (w := I) hi (by rw [hI]; ring)
  refine (M.normalizesToZeroVar (by norm_num) hh).bind fun zh hzh => ?_
  cases zh with
  | true =>
    rw [if_pos rfl]
    refine (M.normalizesToZeroVar (by norm_num) hi).bind fun zi hzi => ?_
    cases zi with
    | true => exact (hdouble hzh hzi).bind fun q hq => .pure hq
    | false => exact .pure (hcancel hzh hzi)
  | false =>
    rw [if_neg Bool.false_ne_true]
    refine (FieldModel.square hi (by norm_num)).bind fun i2 hi2 => ?_
    refine (FieldModel.square hh (by norm_num)).bind fun h2 hh2 => ?_
    refine (FieldModel.prod hh hh2 (by norm_num) (by norm_num)).bind fun h3 hh3 => ?_
    refine (M.mul hz (FieldModel.raw8 hh (by norm_num))).bind fun z hz' => ?_
    refine (addXy_spec hM hu1 hs1 hh2 hh3 hi hi2).bind fun q hq => ?_
    refine .pure (hsum q.1 q.2 z hzh (FieldModel.rep_congr hq.1 ?_)
      (FieldModel.rep_congr hq.2 ?_) hz') <;> ring

/-- The rule of the formula without branches. `R'`, `M'` and `N` are what the conditional moves
choose. -/
theorem gejAddGe_spec {a : Gej F} {b : Ge F} {Q : Gej F → Prop} (hx : M.rep 8 X a.x)
    (hy : M.rep 8 Y a.y) (hz : M.raw 8 Z a.z) (hbx : M.raw 8 x b.x) (hby : M.raw 8 y b.y)
    {U T S R : V} (hU : U = x * Z ^ 2) (hT : T = X + U) (hS : S = Y + y * Z ^ 3)
    (hR : R = T ^ 2 - X * U)
    (h : ∀ (mZero rrZero zZero : Bool) (x y z : F) (R' M' N : V), M.zero S mZero → M.zero R rrZero →
      (R', M', N) = (if (mZero && rrZero) = true then (2 * Y, X - U, S) else (R, S, S ^ 4)) →
      M.zero (Z * M') zZero → M.rep 4 (4 * (R' ^ 2 - T * M' ^ 2)) x →
      M.rep 4 (4 * (R' * (T * M' ^ 2 - 2 * (R' ^ 2 - T * M' ^ 2)) - N)) y →
      M.rep 2 (2 * (Z * M')) z →
      Q ⟨if a.infinity = true then b.x else x, if a.infinity = true then b.y else y,
        if a.infinity = true then B.const 0 0 0 0 0 0 0 1 else z, zZero && !a.infinity⟩) :
    Yields (gejAddGe B a b) Q := by
  refine (M.sqr hz).bind fun zz hzz => ?_
  refine (M.normalizeWeak (by norm_num) hx).bind fun u1 hu1 => ?_
  refine (M.mul hbx (FieldModel.raw8 hzz (by norm_num))).bind fun u2 hu2 => ?_
  refine (M.normalizeWeak (by norm_num) hy).bind fun s1 hs1 => ?_
  refine (M.mul hby (FieldModel.raw8 hzz (by norm_num))).bind fun s2 hs2 => ?_
  refine (M.mul (FieldModel.raw8 hs2 (by norm_num)) hz).bind fun s2 hs2 => ?_
  replace hu2 := FieldModel.rep_congr (w := U) hu2 (by rw [hU]; ring)
  refine (FieldModel.sum hu1 hu2 (by norm_num)).bind fun t ht => ?_
  refine (FieldModel.sum hs1 hs2 (by norm_num)).bind fun m hm => ?_
  replace ht := FieldModel.rep_congr ht hT.symm
  replace hm := FieldModel.rep_congr (w := S) hm (by rw [hS]; ring)
  refine (FieldModel.square ht (by norm_num)).bind fun rr hrr => ?_
  refine (M.negate (m := 1) rfl (by norm_num) (M.raw_of_rep hu2)).bind fun mAlt hma => ?_
  refine (FieldModel.prod hu1 hma (by norm_num) (by norm_num)).bind fun tt htt => ?_
  refine (FieldModel.sum hrr htt (by norm_num)).bind fun rr hrr => ?_
  replace hrr := FieldModel.rep_congr (w := R) hrr (by rw [hR]; ring)
  refine (M.normalizesToZero (by norm_num) hm).bind fun mZero hmz => ?_
  refine (M.normalizesToZero (by norm_num) hrr).bind fun rrZero hrz => ?_
  refine (hM (k := 2) rfl (by norm_num) (by norm_num) (M.raw_of_rep hs1)).bind fun rrAlt hra => ?_
  refine (FieldModel.sum hma hu1 (by norm_num)).bind fun mAlt hma => ?_
  obtain ⟨R', M', N, hchoice, hra', hma', hN⟩ : ∃ R' M' N,
      (R', M', N) = (if (mZero && rrZero) = true then (2 * Y, X - U, S) else (R, S, S ^ 4)) ∧
      M.rep 2 R' (B.cmov rrAlt rr (ofBool !(mZero && rrZero))) ∧
      M.rep 3 M' (B.cmov mAlt m (ofBool !(mZero && rrZero))) ∧
      ∀ n, M.rep 1 (M' * M' * (M' * M')) n →
        M.rep 2 N (B.cmov n m (ofBool (mZero && rrZero))) := by
    simp only [M.cmov]
    cases mZero && rrZero with
    | true =>
      refine ⟨_, _, _, rfl, FieldModel.rep_congr hra ?_, FieldModel.rep_congr hma ?_, fun n _ => hm⟩
      · push_cast
        ring
      · ring
    | false =>
      exact ⟨_, _, _, rfl, hrr, M.rep_mono (by norm_num) hm, fun n hn =>
        M.rep_mono (by norm_num) (FieldModel.rep_congr hn (by ring))⟩
  dsimp only
  generalize B.cmov rrAlt rr (ofBool !(mZero && rrZero)) = rrAlt at hra' ⊢
  generalize B.cmov mAlt m (ofBool !(mZero && rrZero)) = mAlt at hma' ⊢
  refine (FieldModel.square hma' (by norm_num)).bind fun n hn => ?_
  refine (FieldModel.prod hn ht (by norm_num) (by norm_num)).bind fun q hq => ?_
  refine (FieldModel.square hn (by norm_num)).bind fun n hn => ?_
  replace hn := hN n hn
  generalize B.cmov n m (ofBool (mZero && rrZero)) = n at hn ⊢
  refine (FieldModel.square hra' (by norm_num)).bind fun t ht => ?_
  refine (M.mul hz (FieldModel.raw8 hma' (by norm_num))).bind fun z hz => ?_
  refine (M.normalizesToZero (by norm_num) hz).bind fun zZero hzz => ?_
  refine (hM (k := 2) rfl (by norm_num) (by norm_num) (M.raw_of_rep hz)).bind fun z hz => ?_
  refine (M.negate (m := 1) rfl (by norm_num) (M.raw_of_rep hq)).bind fun q hq => ?_
  refine (FieldModel.sum ht hq (by norm_num)).bind fun t ht => ?_
  refine (M.normalizeWeak (by norm_num) ht).bind fun x hx => ?_
  refine (hM (k := 2) rfl (by norm_num) (by norm_num) (M.raw_of_rep hx)).bind fun t ht => ?_
  refine (FieldModel.sum ht hq (by norm_num)).bind fun t ht => ?_
  refine (FieldModel.prod ht hra' (by norm_num) (by norm_num)).bind fun t ht => ?_
  refine (FieldModel.sum ht hn (by norm_num)).bind fun t ht => ?_
  refine (M.negate (m := 3) rfl (by norm_num) (M.raw_of_rep ht)).bind fun y hy => ?_
  refine (M.normalizeWeak (by norm_num) hy).bind fun y hy => ?_
  refine (hM (k := 4) rfl (by norm_num) (by norm_num) (M.raw_of_rep hx)).bind fun x hx => ?_
  refine (hM (k := 4) rfl (by norm_num) (by norm_num) (M.raw_of_rep hy)).bind fun y hy => ?_
  rw [M.cmov, M.cmov, M.cmov]
  refine .pure (h mZero rrZero zZero x y z R' M' N hmz hrz hchoice hzz (FieldModel.rep_congr hx ?_)
    (FieldModel.rep_congr hy ?_) (FieldModel.rep_congr hz ?_)) <;> push_cast <;> ring

end

/-! ## Magnitudes -/

section

variable {r a b : Gej F} {q : Ge F} {rzr : Option F}

/-- What is written through `rzr`, when it is not null. -/
theorem within_rzr {z : F} (hz : M.within 8 z) : ∀ t ∈ rzr.map fun _ => z, M.within 8 t := by
  intro t ht
  obtain ⟨_, -, rfl⟩ := Option.map_eq_some_iff.mp ht
  exact hz

theorem within8_setInt {i : CInt} {k : ℕ} (hi : i.toNat = k) (hk : k < 2 ^ 31) :
    M.within 8 (B.setInt i) := (FieldModel.within_setInt hi hk).mono (by norm_num)

theorem gejSetGe_within (hq : M.GeWithin q) : M.GejWithin (gejSetGe B q) :=
  ⟨hq.x, hq.y, within8_setInt (k := 1) rfl (by norm_num)⟩

theorem gejSetInfinity_within : M.GejWithin (gejSetInfinity B) := by
  have h := (FieldModel.within_clear (M := M)).mono (show 1 ≤ 8 by norm_num)
  exact ⟨h, h, h⟩

theorem geNeg_within (hq : M.GeWithin q) : Yields (geNeg B q) M.GeWithin := by
  refine (hq.y.normalizeWeak (by norm_num)).bind fun y hy => ?_
  refine (hy.negate (i := 1) rfl (by norm_num)).bind fun y hy => ?_
  exact .pure ⟨hq.x, hy.mono (by norm_num)⟩

theorem gejNeg_within (ha : M.GejWithin a) : Yields (gejNeg B a) M.GejWithin := by
  refine (ha.y.normalizeWeak (by norm_num)).bind fun y hy => ?_
  refine (hy.negate (i := 1) rfl (by norm_num)).bind fun y hy => ?_
  exact .pure ⟨ha.x, hy.mono (by norm_num), ha.z⟩

theorem geSetGejZinv_spec {zi : F} (hx : M.raw 8 X a.x) (hy : M.raw 8 Y a.y) (hzi : M.raw 8 Z zi) :
    Yields (geSetGejZinv B a zi) fun q => q.infinity = a.infinity ∧ M.rep 1 (X * (Z * Z)) q.x ∧
      M.rep 1 (Y * (Z * Z * Z)) q.y := by
  refine (M.sqr hzi).bind fun z2 h2 => ?_
  refine (M.mul (FieldModel.raw8 h2 (by norm_num)) hzi).bind fun z3 h3 => ?_
  refine (M.mul hx (FieldModel.raw8 h2 (by norm_num))).bind fun x hx => ?_
  refine (M.mul hy (FieldModel.raw8 h3 (by norm_num))).bind fun y hy => ?_
  exact .pure ⟨rfl, hx, hy⟩

theorem geSetGejZinv_within (ha : M.GejWithin a) {zi : F} (hzi : M.within 8 zi) :
    Yields (geSetGejZinv B a zi) M.GeWithin := by
  obtain ⟨_, hx⟩ := ha.x
  obtain ⟨_, hy⟩ := ha.y
  obtain ⟨_, hzi⟩ := hzi
  refine (geSetGejZinv_spec (M.raw_of_rep hx) (M.raw_of_rep hy) (M.raw_of_rep hzi)).mono
    fun q hq => ?_
  obtain ⟨-, hx, hy⟩ := hq
  exact ⟨FieldModel.within_of_rep hx (by norm_num), FieldModel.within_of_rep hy (by norm_num)⟩

theorem gejRescale_within (ha : M.GejWithin a) {s : F} (hs : M.within 8 s) :
    Yields (gejRescale B a s) M.GejWithin := by
  refine (hs.sqr le_rfl).bind fun zz hzz => ?_
  refine (ha.x.mul hzz le_rfl (by norm_num)).bind fun x hx => ?_
  refine (ha.y.mul hzz le_rfl (by norm_num)).bind fun y hy => ?_
  refine (hy.mul hs (by norm_num) le_rfl).bind fun y hy => ?_
  refine (ha.z.mul hs le_rfl le_rfl).bind fun z hz => ?_
  exact .pure ⟨hx.mono (by norm_num), hy.mono (by norm_num), hz.mono (by norm_num)⟩

include hM

/-- A point in range and, where the caller asks for it, the ratio of the z coordinates. -/
theorem gejDoubleVar_within (hr : M.GejWithin r) (ha : M.GejWithin a) :
    Yields (gejDoubleVar B r a rzr) fun q => M.GejWithin q.1 ∧ ∀ z ∈ q.2, M.within 8 z := by
  by_cases hinf : a.infinity = true
  · rw [gejDoubleVar, if_pos hinf]
    exact .some ⟨⟨hr.x, hr.y, hr.z⟩, within_rzr (within8_setInt (k := 1) rfl (by norm_num))⟩
  · obtain ⟨_, hx⟩ := ha.x
    obtain ⟨_, hy⟩ := ha.y
    obtain ⟨_, hz⟩ := ha.z
    refine (gejDoubleVar_spec hM (.inr hy) (M.raw_of_rep hx) (M.raw_of_rep hy) (M.raw_of_rep hz) r
      (Bool.not_eq_true _ ▸ hinf)).mono fun q hq => ?_
    obtain ⟨-, hx, hy, hz, hq2⟩ := hq
    exact ⟨⟨FieldModel.within_of_rep hx (by norm_num), FieldModel.within_of_rep hy (by norm_num),
      FieldModel.within_of_rep hz (by norm_num)⟩,
      fun z hz => FieldModel.within_of_rep (hq2 z hz) (by norm_num)⟩

theorem gejAddGeVar_within (hr : M.GejWithin r) (ha : M.GejWithin a) (hq : M.GeWithin q)
    (hrzr : ∀ z ∈ rzr, M.within 8 z) :
    Yields (gejAddGeVar B r a q rzr) fun t => M.GejWithin t.1 ∧ ∀ z ∈ t.2, M.within 8 z := by
  by_cases hainf : a.infinity = true
  · rw [gejAddGeVar, if_pos hainf]
    exact .some ⟨gejSetGe_within hq, hrzr⟩
  by_cases hbinf : q.infinity = true
  · rw [gejAddGeVar, if_neg hainf, if_pos hbinf]
    exact .some ⟨ha, within_rzr (within8_setInt (k := 1) rfl (by norm_num))⟩
  obtain ⟨_, hx⟩ := ha.x
  obtain ⟨_, hy⟩ := ha.y
  obtain ⟨_, hz⟩ := ha.z
  obtain ⟨_, hbx⟩ := hq.x
  obtain ⟨_, hby⟩ := hq.y
  refine gejAddGeVar_spec hM hx hy (M.raw_of_rep hz) (M.raw_of_rep hbx) (M.raw_of_rep hby)
    (Bool.not_eq_true _ ▸ hainf) (Bool.not_eq_true _ ▸ hbinf) rfl rfl
    (fun _ _ => gejDoubleVar_within hM hr ha)
    (fun _ _ => ⟨⟨hr.x, hr.y, hr.z⟩, within_rzr (within8_setInt (k := 0) rfl (by norm_num))⟩)
    fun h x y z _ hh hx hy hz => ?_
  exact ⟨⟨FieldModel.within_of_rep hx (by norm_num), FieldModel.within_of_rep hy (by norm_num),
    FieldModel.within_of_rep hz (by norm_num)⟩,
    within_rzr (FieldModel.within_of_rep hh (by norm_num))⟩

theorem gejAddZinvVar_within (hr : M.GejWithin r) (ha : M.GejWithin a) (hq : M.GeWithin q)
    {bzinv : F} (hzi : M.within 8 bzinv) :
    Yields (gejAddZinvVar B r a q bzinv) M.GejWithin := by
  by_cases hbinf : q.infinity = true
  · rw [gejAddZinvVar, if_pos hbinf]
    exact .some ha
  by_cases hainf : a.infinity = true
  · rw [gejAddZinvVar, if_neg hbinf, if_pos hainf]
    refine (hzi.sqr le_rfl).bind fun z2 h2 => ?_
    refine (h2.mul hzi (by norm_num) le_rfl).bind fun z3 h3 => ?_
    refine (hq.x.mul h2 le_rfl (by norm_num)).bind fun x hx => ?_
    refine (hq.y.mul h3 le_rfl (by norm_num)).bind fun y hy => ?_
    exact .pure ⟨hx.mono (by norm_num), hy.mono (by norm_num),
      within8_setInt (k := 1) rfl (by norm_num)⟩
  obtain ⟨_, hx⟩ := ha.x
  obtain ⟨_, hy⟩ := ha.y
  obtain ⟨_, hz⟩ := ha.z
  obtain ⟨_, hbx⟩ := hq.x
  obtain ⟨_, hby⟩ := hq.y
  obtain ⟨_, hzi⟩ := hzi
  refine gejAddZinvVar_spec hM hx hy (M.raw_of_rep hz) (M.raw_of_rep hbx) (M.raw_of_rep hby)
    (M.raw_of_rep hzi) (Bool.not_eq_true _ ▸ hainf) (Bool.not_eq_true _ ▸ hbinf) rfl rfl
    (fun _ _ => (gejDoubleVar_within hM hr ha).mono fun q hq => hq.1)
    (fun _ _ => ⟨hr.x, hr.y, hr.z⟩) fun x y z _ hx hy hz => ?_
  exact ⟨FieldModel.within_of_rep hx (by norm_num), FieldModel.within_of_rep hy (by norm_num),
    FieldModel.within_of_rep hz (by norm_num)⟩

/-- The formula without branches; the constant 1 is in range like any other. -/
theorem gejAddGe_within (ha : M.GejWithin a) (hq : M.GeWithin q)
    (hone : M.within 1 (B.const 0 0 0 0 0 0 0 1)) : Yields (gejAddGe B a q) M.GejWithin := by
  obtain ⟨_, hx⟩ := ha.x
  obtain ⟨_, hy⟩ := ha.y
  obtain ⟨_, hz⟩ := ha.z
  obtain ⟨_, hbx⟩ := hq.x
  obtain ⟨_, hby⟩ := hq.y
  refine gejAddGe_spec hM hx hy (M.raw_of_rep hz) (M.raw_of_rep hbx) (M.raw_of_rep hby) rfl rfl rfl
    rfl fun mZero rrZero zZero x y z R' M' N _ _ _ _ hx hy hz => ?_
  have hite : ∀ {u v : F}, M.within 8 u → M.within 8 v →
      M.within 8 (if a.infinity = true then u else v) := fun hu hv => by
    split
    · exact hu
    · exact hv
  exact ⟨hite hq.x (FieldModel.within_of_rep hx (by norm_num)),
    hite hq.y (FieldModel.within_of_rep hy (by norm_num)),
    hite (hone.mono (by norm_num)) (FieldModel.within_of_rep hz (by norm_num))⟩

end

end Secp256k1
