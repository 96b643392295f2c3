import Secp256k1.Group.Formulas
import Secp256k1.Group.Points

/-!
# The group law

What the routines for sums compute, for all points: `GejAt M w P a` says that `a` holds the point
`P`, with a z coordinate that lacks a factor `w`. Each routine takes points to their sum, whichever
of its branches that is. A result that is the point at infinity keeps whatever its coordinates were.
-/

namespace Secp256k1

open ShortCurve

section

variable {F : Type} {B : FieldOps F}

/-- A Jacobian form of the point, but for a factor `w` that its z coordinate lacks. -/
def EntryOf (M : FieldModel B (ZMod p)) (w : ZMod p) (P : Point) (a : Gej F) : Prop :=
  ∃ X Y Z, a.infinity = false ∧ M.rep 8 X a.x ∧ M.rep 8 Y a.y ∧ M.raw 8 Z a.z ∧ Jac X Y (Z * w) P

/-- The same of any point. -/
def GejAt (M : FieldModel B (ZMod p)) (w : ZMod p) (P : Point) (a : Gej F) : Prop :=
  a.infinity = true ∧ P = 0 ∨ EntryOf M w P a

/-- The coordinates of the point, but for the powers of `w` that they have in excess. -/
def GeAt (M : FieldModel B (ZMod p)) (w : ZMod p) (P : Point) (q : Ge F) : Prop :=
  ∃ x y, q.infinity = false ∧ M.rep 8 x q.x ∧ M.rep 8 y q.y ∧ Jac x y w P

/-- The same of any point. -/
def AffineAt (M : FieldModel B (ZMod p)) (w : ZMod p) (P : Point) (q : Ge F) : Prop :=
  q.infinity = true ∧ P = 0 ∨ GeAt M w P q

variable {M : FieldModel B (ZMod p)} {w : ZMod p} {P Q : Point} {r a b : Gej F} {q : Ge F}
  {rzr : Option F}

theorem GeAt.within (h : GeAt M w P q) : M.GeWithin q := by
  obtain ⟨_, _, -, hx, hy, -⟩ := h
  exact ⟨⟨_, hx⟩, ⟨_, hy⟩⟩

theorem GejAt.infinity_iff (h : GejAt M w P a) : a.infinity = true ↔ P = 0 := by
  rcases h with ⟨hinf, rfl⟩ | ⟨_, _, _, hinf, -, -, -, hjac⟩
  · exact iff_of_true hinf rfl
  · exact iff_of_false (by rw [hinf]; exact Bool.false_ne_true) hjac.ne_zero

theorem gejSetGe_at (h : GeAt M w P q) : EntryOf M w P (gejSetGe B q) := by
  obtain ⟨x, y, hinf, hx, hy, hjac⟩ := h
  have hone := M.rep_of_norm (M.setInt (i := 1) (k := 1) rfl (by norm_num))
  rw [Nat.cast_one] at hone
  exact ⟨x, y, 1, hinf, hx, hy, FieldModel.raw8 hone (by norm_num), by rwa [one_mul]⟩

theorem geNeg_at (h : GeAt M w P q) : Yields (geNeg B q) (GeAt M w (-P)) := by
  obtain ⟨x, y, hinf, hx, hy, hjac⟩ := h
  refine (M.normalizeWeak (by norm_num) hy).bind fun y hy => ?_
  refine (M.negate (m := 1) rfl (by norm_num) (M.raw_of_rep hy)).bind fun y hy => ?_
  exact .pure ⟨_, _, hinf, hx, M.rep_mono (by norm_num) hy, hjac.neg⟩

theorem gejNeg_at (h : EntryOf M w P a) : Yields (gejNeg B a) (EntryOf M w (-P)) := by
  obtain ⟨X, Y, Z, hinf, hx, hy, hz, hjac⟩ := h
  refine (M.normalizeWeak (by norm_num) hy).bind fun y hy => ?_
  refine (M.negate (m := 1) rfl (by norm_num) (M.raw_of_rep hy)).bind fun y hy => ?_
  exact .pure ⟨_, _, _, hinf, hx, M.rep_mono (by norm_num) hy, hz, hjac.neg⟩

variable (hM : M.MulInt) (hzero : ∀ {v b}, M.zero v b → (b = true ↔ v = 0))

include hM in
/-- The double of a point, which is finite when the point is. -/
theorem gejDoubleVar_entry (r : Gej F) (ha : EntryOf M w P a) :
    Yields (gejDoubleVar B r a rzr) fun t => EntryOf M w (P + P) t.1 := by
  obtain ⟨X, Y, Z, hinf, hx, hy, hz, hjac⟩ := ha
  have hY : Y ≠ 0 := by
    obtain ⟨hZ, x, y, h, -, -, rfl⟩ := hjac
    exact mul_ne_zero (nonsingular_iff.mp h).y_ne_zero (mul_ne_zero (mul_ne_zero hZ hZ) hZ)
  refine (gejDoubleVar_spec hM (.inr hy) (M.raw_of_rep hx) (M.raw_of_rep hy) hz r hinf).mono
    fun t ht => ?_
  obtain ⟨hinf', hx', hy', hz', -⟩ := ht
  have hdouble := hjac.double two_ne_zero_mod hY
  rw [← mul_assoc] at hdouble
  exact ⟨_, _, _, hinf', M.rep_mono (by norm_num) hx', M.rep_mono (by norm_num) hy',
    FieldModel.raw8 hz' (by norm_num), hdouble⟩

include hM in
theorem gejDoubleVar_at (r : Gej F) (ha : GejAt M w P a) :
    Yields (gejDoubleVar B r a rzr) fun t => GejAt M w (P + P) t.1 := by
  rcases ha with ⟨hinf, rfl⟩ | ha
  · rw [gejDoubleVar, if_pos hinf]
    exact .some (.inl ⟨rfl, add_zero 0⟩)
  · exact (gejDoubleVar_entry hM r ha).mono fun t ht => .inr ht

include hM hzero

theorem gejAddGeVar_at (r : Gej F) (ha : GejAt M w P a) (hq : GeAt M w Q q) :
    Yields (gejAddGeVar B r a q rzr) fun t => GejAt M w (P + Q) t.1 := by
  rcases ha with ⟨hinf, rfl⟩ | ha
  · rw [gejAddGeVar, if_pos hinf, zero_add]
    exact .some (.inr (gejSetGe_at hq))
  have ha' := ha
  obtain ⟨X, Y, Z, hinf, hx, hy, hz, hjac⟩ := ha
  obtain ⟨x, y, hqinf, hqx, hqy, hqjac⟩ := hq
  refine gejAddGeVar_spec hM hx hy hz (M.raw_of_rep hqx) (M.raw_of_rep hqy) hinf hqinf rfl rfl
    ?_ ?_ ?_
  · intro hH hI
    obtain rfl := hjac.eq_of_eq hqjac ((hzero hH).mp rfl) ((hzero hI).mp rfl)
    exact gejDoubleVar_at hM r (.inr ha')
  · intro hH hI
    have hI0 : y * Z ^ 3 - Y ≠ 0 := fun h => Bool.false_ne_true ((hzero hI).mpr h)
    refine .inl ⟨rfl, ?_⟩
    rw [hjac.eq_neg_of_ne hqjac ((hzero hH).mp rfl) hI0, neg_add_cancel]
  · intro h x' y' z' hH _ hx' hy' hz'
    have hH0 : x * Z ^ 2 - X ≠ 0 := fun h => Bool.false_ne_true ((hzero hH).mpr h)
    exact .inr ⟨_, _, _, rfl, M.rep_mono (by norm_num) hx', M.rep_mono (by norm_num) hy',
      FieldModel.raw8 hz' (by norm_num), hjac.add hqjac rfl rfl hH0⟩

theorem gejAddVar_at (r : Gej F) (ha : GejAt M 1 P a) (hb : GejAt M 1 Q b) :
    Yields (gejAddVar B r a b rzr) fun t => GejAt M 1 (P + Q) t.1 := by
  rcases ha with ⟨hinf, rfl⟩ | ha
  · rw [gejAddVar, if_pos hinf, zero_add]
    exact .some hb
  have ha' := ha
  obtain ⟨X, Y, Z, hinf, hx, hy, hz, hjac⟩ := ha
  rcases hb with ⟨hbinf, rfl⟩ | ⟨x, y, W, hbinf, hbx, hby, hbz, hbjac⟩
  · rw [gejAddVar, hinf, if_neg Bool.false_ne_true, if_pos hbinf, add_zero]
    exact .some (.inr ha')
  rw [mul_one] at hjac hbjac
  -- the second z coordinate is the factor that the first form is brought to
  have hjac' := hjac.scale hbjac.1
  refine gejAddVar_spec hM (M.raw_of_rep hx) (M.raw_of_rep hy) hz (M.raw_of_rep hbx)
    (M.raw_of_rep hby) hbz hinf hbinf rfl rfl rfl rfl ?_ ?_ ?_
  · intro hH hI
    obtain rfl := hjac'.eq_of_eq hbjac ((hzero hH).mp rfl) ((hzero hI).mp rfl)
    exact gejDoubleVar_at hM r (.inr ha')
  · intro hH hI
    have hI0 : y * Z ^ 3 - Y * (W * W * W) ≠ 0 := fun h => Bool.false_ne_true ((hzero hI).mpr h)
    refine .inl ⟨rfl, ?_⟩
    rw [hjac'.eq_neg_of_ne hbjac ((hzero hH).mp rfl) hI0, neg_add_cancel]
  · intro h x' y' z' hH _ hx' hy' hz'
    have hH0 : x * Z ^ 2 - X * (W * W) ≠ 0 := fun h => Bool.false_ne_true ((hzero hH).mpr h)
    have hsum := hjac'.add hbjac rfl rfl hH0
    rw [mul_assoc Z, ← mul_one (Z * _)] at hsum
    exact .inr ⟨_, _, _, rfl, M.rep_mono (by norm_num) hx', M.rep_mono (by norm_num) hy',
      FieldModel.raw8 hz' (by norm_num), hsum⟩

/-- Mixed addition of a summand that has the whole z coordinate. -/
theorem gejAddZinvVar_at (r : Gej F) (ha : GejAt M w P a) (hq : GeAt M 1 Q q) {bzinv : F}
    (hw : M.raw 8 w bzinv) (hw0 : w ≠ 0) :
    Yields (gejAddZinvVar B r a q bzinv) (GejAt M w (P + Q)) := by
  obtain ⟨x, y, hqinf, hqx, hqy, hqjac⟩ := hq
  rcases ha with ⟨hinf, rfl⟩ | ha
  · rw [gejAddZinvVar, hqinf, if_neg Bool.false_ne_true, if_pos hinf, zero_add]
    refine (M.sqr hw).bind fun w2 h2 => ?_
    refine (M.mul (FieldModel.raw8 h2 (by norm_num)) hw).bind fun w3 h3 => ?_
    refine (FieldModel.prod hqx h2 le_rfl (by norm_num)).bind fun x' hx' => ?_
    refine (FieldModel.prod hqy h3 le_rfl (by norm_num)).bind fun y' hy' => ?_
    have hone := M.rep_of_norm (M.setInt (i := 1) (k := 1) rfl (by norm_num))
    rw [Nat.cast_one] at hone
    exact .pure (.inr ⟨_, _, _, rfl, M.rep_mono (by norm_num) hx', M.rep_mono (by norm_num) hy',
      FieldModel.raw8 hone (by norm_num), hqjac.scale hw0⟩)
  have ha' := ha
  obtain ⟨X, Y, Z, hinf, hx, hy, hz, hjac⟩ := ha
  rw [← mul_one (Z * w)] at hjac
  refine gejAddZinvVar_spec hM hx hy hz (M.raw_of_rep hqx) (M.raw_of_rep hqy) hw hinf hqinf rfl
    rfl ?_ ?_ ?_
  · intro hH hI
    obtain rfl := hjac.eq_of_eq hqjac ((hzero hH).mp rfl) ((hzero hI).mp rfl)
    exact gejDoubleVar_at hM r (.inr ha')
  · intro hH hI
    have hI0 : y * (Z * w) ^ 3 - Y ≠ 0 := fun h => Bool.false_ne_true ((hzero hI).mpr h)
    refine .inl ⟨rfl, ?_⟩
    rw [hjac.eq_neg_of_ne hqjac ((hzero hH).mp rfl) hI0, neg_add_cancel]
  · intro x' y' z' hH hx' hy' hz'
    have hH0 : x * (Z * w) ^ 2 - X ≠ 0 := fun h => Bool.false_ne_true ((hzero hH).mpr h)
    have hsum := hjac.add hqjac rfl rfl hH0
    rw [mul_one, mul_right_comm Z w] at hsum
    exact .inr ⟨_, _, _, rfl, M.rep_mono (by norm_num) hx', M.rep_mono (by norm_num) hy',
      FieldModel.raw8 hz' (by norm_num), hsum⟩

/-- The sum without branches of a point in range and a finite point. -/
theorem gejAddGe_at (hone : M.rep 1 1 (B.const 0 0 0 0 0 0 0 1)) (ha : GejAt M 1 P a)
    (hwithin : M.GejWithin a) (hq : GeAt M 1 Q q) :
    Yields (gejAddGe B a q) fun t => GejAt M 1 (P + Q) t ∧ M.GejWithin t := by
  refine Yields.and ?_ (gejAddGe_within hM hwithin hq.within ⟨1, hone⟩)
  obtain ⟨x, y, hqinf, hqx, hqy, hqjac⟩ := hq
  rcases ha with ⟨hinf, rfl⟩ | ⟨X, Y, Z, hinf, hx, hy, hz, hjac⟩
  case inl =>
    obtain ⟨X, hx⟩ := hwithin.x
    obtain ⟨Y, hy⟩ := hwithin.y
    obtain ⟨Z, hz⟩ := hwithin.z
    refine gejAddGe_spec hM hx hy (M.raw_of_rep hz) (M.raw_of_rep hqx) (M.raw_of_rep hqy) rfl rfl
      rfl rfl fun mZero rrZero zZero x' y' z' R' M' N _ _ _ _ _ _ _ => ?_
    simp only [hinf, if_true, Bool.not_true, Bool.and_false, zero_add]
    exact .inr ⟨x, y, 1, rfl, hqx, hqy, FieldModel.raw8 hone (by norm_num), by rwa [one_mul]⟩
  case inr =>
    rw [mul_one] at hjac
    obtain ⟨U, hU⟩ : ∃ U, U = x * Z ^ 2 := ⟨_, rfl⟩
    obtain ⟨T, hT⟩ : ∃ T, T = X + U := ⟨_, rfl⟩
    obtain ⟨S, hS⟩ : ∃ S, S = Y + y * Z ^ 3 := ⟨_, rfl⟩
    obtain ⟨R, hR⟩ : ∃ R, R = T ^ 2 - X * U := ⟨_, rfl⟩
    refine gejAddGe_spec hM hx hy hz (M.raw_of_rep hqx) (M.raw_of_rep hqy) hU hT hS hR
      fun mZero rrZero zZero x' y' z' R' M' N hm hr hchoice hzz hx' hy' hz' => ?_
    have hpick : S = 0 ∧ R = 0 ∧ R' = 2 * Y ∧ M' = X - U ∧ N = 0 ∨
        ¬(S = 0 ∧ R = 0) ∧ R' = R ∧ M' = S ∧ N = S ^ 4 := by
      split at hchoice
      · next hdeg =>
        obtain ⟨hm', hr'⟩ := Bool.and_eq_true_iff.mp hdeg
        obtain ⟨rfl, rfl, rfl⟩ : R' = 2 * Y ∧ M' = X - U ∧ N = S := by simpa using hchoice
        have hS0 := (hzero hm).mp hm'
        exact .inl ⟨hS0, (hzero hr).mp hr', rfl, rfl, hS0⟩
      · next hdeg =>
        obtain ⟨rfl, rfl, rfl⟩ : R' = R ∧ M' = S ∧ N = S ^ 4 := by simpa using hchoice
        refine .inr ⟨fun h => hdeg (Bool.and_eq_true_iff.mpr ?_), rfl, rfl, rfl⟩
        exact ⟨(hzero hm).mpr h.1, (hzero hr).mpr h.2⟩
    simp only [hinf, if_neg Bool.false_ne_true, Bool.not_false, Bool.and_true]
    rcases hjac.unified two_ne_zero_mod hqjac hU hT hS hR hpick with ⟨hM0, hsum⟩ | ⟨hM0, hsum⟩
    · exact .inl ⟨(hzero hzz).mpr (by rw [hM0, mul_zero]), hsum⟩
    · have hfinite : zZero = false :=
        Bool.eq_false_iff.mpr fun h => mul_ne_zero hjac.1 hM0 ((hzero hzz).mp h)
      refine .inr ⟨_, _, _, hfinite, M.rep_mono (by norm_num) hx', M.rep_mono (by norm_num) hy',
        FieldModel.raw8 hz' (by norm_num), ?_⟩
      rwa [mul_one]

end

/-! ## The routines of a build -/

theorem one_at {F : Type} {B : FieldOps F} {M : FieldValues B} :
    M.rep 1 1 (B.const 0 0 0 0 0 0 0 1) := by
  have h := M.rep_of_norm (M.const 0 0 0 0 0 0 0 1 (by decide))
  rwa [show constVal 0 0 0 0 0 0 0 1 = 1 by decide, Nat.cast_one] at h

namespace FieldBackend

theorem encode_geAt {b : FieldBackend} (hb : b.Sound) {x y : ZMod p} (h : OnCurve x y) :
    GeAt (b.values hb).toFieldModel 1 h.point ⟨b.encode x, b.encode y, false⟩ := by
  have hrep : ∀ v : ZMod p, (b.values hb).rep 8 v (b.encode v) := fun v =>
    (b.values hb).rep_mono (by norm_num) ((b.values hb).rep_of_norm (encode_norm hb v))
  exact ⟨x, y, rfl, hrep x, hrep y, h.jac⟩

section

variable {b : FieldBackend} (hb : b.Sound) (hint : b.SoundInt) {P Q : Point} {w : ZMod p}
  {a a' : Gej b.Fe} {q : Ge b.Fe}
include hb hint

/-- Whatever `r` held, and with `rzr` or without it, the three additions that branch return the sum
of any two points, in all of their branches, and the doubling the double; so does the addition that
does not branch, for every finite second summand. -/
theorem group_law (r : Gej b.Fe) (rzr : Option b.Fe) :
    (GejAt (b.values hb).toFieldModel w P a →
      Yields (gejDoubleVar b.ops r a rzr) fun t =>
        GejAt (b.values hb).toFieldModel w (P + P) t.1) ∧
    (GejAt (b.values hb).toFieldModel 1 P a → GejAt (b.values hb).toFieldModel 1 Q a' →
      Yields (gejAddVar b.ops r a a' rzr) fun t =>
        GejAt (b.values hb).toFieldModel 1 (P + Q) t.1) ∧
    (GejAt (b.values hb).toFieldModel w P a → AffineAt (b.values hb).toFieldModel w Q q →
      Yields (gejAddGeVar b.ops r a q rzr) fun t =>
        GejAt (b.values hb).toFieldModel w (P + Q) t.1) ∧
    (∀ bzinv, w ≠ 0 → (b.values hb).raw 8 w bzinv →
      GejAt (b.values hb).toFieldModel w P a → AffineAt (b.values hb).toFieldModel 1 Q q →
      Yields (gejAddZinvVar b.ops r a q bzinv) (GejAt (b.values hb).toFieldModel w (P + Q))) ∧
    (GejAt (b.values hb).toFieldModel 1 P a → (b.values hb).GejWithin a →
      GeAt (b.values hb).toFieldModel 1 Q q →
      Yields (gejAddGe b.ops a q) fun t =>
        GejAt (b.values hb).toFieldModel 1 (P + Q) t ∧ (b.values hb).GejWithin t) := by
  have hM : (b.values hb).MulInt := values_mulInt hb hint
  refine ⟨gejDoubleVar_at hM r, gejAddVar_at hM (b.values hb).zero_iff.mp r, fun ha hq => ?_,
    fun bzinv hw hz ha hq => ?_, gejAddGe_at hM (b.values hb).zero_iff.mp one_at⟩
  · rcases hq with ⟨hqinf, rfl⟩ | hq
    · rw [add_zero]
      rcases ha with ⟨hinf, rfl⟩ | ha
      · rw [gejAddGeVar, if_pos hinf]
        exact .some (.inl ⟨hqinf, rfl⟩)
      · have hfin : a.infinity = false := by
          obtain ⟨_, _, _, h, -⟩ := ha
          exact h
        rw [gejAddGeVar, hfin, if_neg Bool.false_ne_true, if_pos hqinf]
        exact .some (.inr ha)
    · exact gejAddGeVar_at hM (b.values hb).zero_iff.mp r ha hq
  · rcases hq with ⟨hqinf, rfl⟩ | hq
    · rw [gejAddZinvVar, if_pos hqinf, add_zero]
      exact .some ha
    · exact gejAddZinvVar_at hM (b.values hb).zero_iff.mp r ha hq hz hw

end

/-- The generator and itself, in five limbs. -/
theorem group_law_demo :
    Yields (gejAddVar (limbs5x52 .portable).ops (gejSetInfinity (limbs5x52 .portable).ops)
      (gejSetGe (limbs5x52 .portable).ops ⟨(limbs5x52 .portable).encode generatorX,
        (limbs5x52 .portable).encode generatorY, false⟩)
      (gejSetGe (limbs5x52 .portable).ops ⟨(limbs5x52 .portable).encode generatorX,
        (limbs5x52 .portable).encode generatorY, false⟩)
      (some (limbs5x52 .portable).ops.clear)) fun t =>
      GejAt ((limbs5x52 .portable).values (sound_5x52 .portable)).toFieldModel 1
        (generator + generator) t.1 := by
  have hG := gejSetGe_at (encode_geAt (sound_5x52 .portable) onCurve_generator)
  exact (group_law (sound_5x52 .portable) (soundInt_5x52 .portable) (w := 1)
    (q := geClear (limbs5x52 .portable).ops) _ _).2.1 (.inr hG) (.inr hG)

end FieldBackend

end Secp256k1
