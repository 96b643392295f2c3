import Secp256k1.Field.Backend
import Secp256k1.Group.Affine
import Secp256k1.Group.Order
import Secp256k1.Num

/-!
# Points in memory

The relation between the structures of `group.h` and the points of the curve, the conversion to
affine coordinates, and what the code above relies on of the two point multiplications.
-/

namespace Secp256k1

/-- `a` is a Jacobian form of the point `(x, y)`, for elements that stand for the numbers `val`. -/
structure JacobianOf {F : Type} (val : F → ℕ) (a : Gej F) (x y : ZMod p) : Prop where
  finite : a.infinity = false
  point : OnCurve x y
  z_ne : (val a.z : ZMod p) ≠ 0
  x_eq : (val a.x : ZMod p) = x * (val a.z * val a.z)
  y_eq : (val a.y : ZMod p) = y * (val a.z * val a.z * val a.z)

section

variable {F : Type} {B : FieldOps F} (M : FieldModel B (ZMod p)) {x y z : ZMod p} {a : Gej F}

theorem pow_sub_two_mul {z : ZMod p} (hz : z ≠ 0) : z ^ (p - 2) * z = 1 := by
  rw [← pow_succ, show p - 2 + 1 = p - 1 from rfl, ZMod.pow_card_sub_one_eq_one hz]

/-- The inverse and the two products that both conversions to affine coordinates compute. -/
theorem affine_spec {β : Type} {f : F → F → Option β} {R : β → Prop} (hz0 : z ≠ 0)
    (hx : M.raw 8 (x * (z * z)) a.x) (hy : M.raw 8 (y * (z * z * z)) a.y) (hz : M.raw 8 z a.z)
    (hf : ∀ u v, M.rep 1 x u → M.rep 1 y v → Yields (f u v) R) :
    Yields (feInv B a.z >>= fun z => B.sqr z >>= fun z2 => B.mul z z2 >>= fun z3 =>
      B.mul a.x z2 >>= fun x => B.mul a.y z3 >>= fun y => f x y) R := by
  refine (feInv_spec M le_rfl hz).bind fun zi hzi => ?_
  refine (FieldModel.square hzi (by norm_num)).bind fun z2 h2 => ?_
  refine (FieldModel.prod hzi h2 (by norm_num) (by norm_num)).bind fun z3 h3 => ?_
  refine (M.mul hx (FieldModel.raw8 h2 (by norm_num))).bind fun u hu => ?_
  refine (M.mul hy (FieldModel.raw8 h3 (by norm_num))).bind fun v hv => ?_
  have hinv := pow_sub_two_mul hz0
  generalize z ^ (p - 2) = i at hinv hu hv
  refine hf u v ?_ ?_
  · rwa [show x * (z * z) * (i * i) = x by linear_combination x * (i * z + 1) * hinv] at hu
  · rwa [show y * (z * z * z) * (i * (i * i)) = y by
      linear_combination y * ((i * z) ^ 2 + i * z + 1) * hinv] at hv

theorem geSetGejVar_spec (r : Ge F) (hinf : a.infinity = false) (hz0 : z ≠ 0)
    (hx : M.raw 8 (x * (z * z)) a.x) (hy : M.raw 8 (y * (z * z * z)) a.y) (hz : M.raw 8 z a.z) :
    Yields (geSetGejVar B r a) fun q => q.1.infinity = false ∧ M.rep 1 x q.1.x ∧ M.rep 1 y q.1.y ∧
      q.2.infinity = false := by
  rw [geSetGejVar, hinf, if_neg Bool.false_ne_true]
  exact affine_spec M hz0 hx hy hz fun u v hu hv => .pure ⟨rfl, hu, hv, rfl⟩

theorem geSetGej_spec (hz0 : z ≠ 0) (hx : M.raw 8 (x * (z * z)) a.x)
    (hy : M.raw 8 (y * (z * z * z)) a.y) (hz : M.raw 8 z a.z) :
    Yields (geSetGej B a) fun q => q.1.infinity = a.infinity ∧ M.rep 1 x q.1.x ∧ M.rep 1 y q.1.y ∧
      q.2 = ⟨q.1.x, q.1.y, B.setInt 1, a.infinity⟩ :=
  affine_spec M hz0 hx hy hz fun _ _ hu hv => .pure ⟨rfl, hu, hv, rfl⟩

end

namespace FieldBackend

variable (b : FieldBackend)

/-- The affine form of the point `(x, y)`. -/
structure AffineOf (q : Ge b.Fe) (x y : ZMod p) : Prop where
  finite : q.infinity = false
  point : OnCurve x y
  x_range : b.Range 8 q.x
  y_range : b.Range 8 q.y
  x_eq : (b.val q.x : ZMod p) = x
  y_eq : (b.val q.y : ZMod p) = y

/-- The result of a point multiplication. -/
def GejOf (a : Gej b.Fe) : Point → Prop
  | .zero => a.infinity = true
  | .some x y _ => JacobianOf b.val a x y ∧ b.Reduced 8 a.x ∧ b.Reduced 8 a.y ∧ b.Reduced 8 a.z

/-- `secp256k1_ecmult` returns `na * A + ng * G`. -/
def EcmultSpec (c : ScalarBackend)
    (ecmult : Gej b.Fe → c.Scalar → c.Scalar → Option (Gej b.Fe)) : Prop :=
  ∀ (a : Gej b.Fe) (na ng : c.Scalar) (x y : ZMod p) (h : OnCurve x y), JacobianOf b.val a x y →
    b.Range 8 a.x → b.Range 8 a.y → b.Range 8 a.z → c.val na < n → c.val ng < n →
    Yields (ecmult a na ng) fun r => b.GejOf r (c.val na • h.point + c.val ng • generator)

/-- `secp256k1_ecmult_gen` returns `k * G`. -/
def EcmultGenSpec (c : ScalarBackend) (ecmultGen : c.Scalar → Option (Gej b.Fe)) : Prop :=
  ∀ k : c.Scalar, c.val k < n → Yields (ecmultGen k) fun r => b.GejOf r (c.val k • generator)

/-- The element with the given value. -/
def encode (v : ZMod p) : b.Fe := (b.ops.setB32 (numGetBin v.val)).1

/-- A Jacobian form with `z = 1`. -/
def encodePoint : Point → Gej b.Fe
  | .zero => gejSetInfinity b.ops
  | .some x y _ => ⟨b.encode x, b.encode y, b.ops.setInt 1, false⟩

/-- The point of a Jacobian form. -/
noncomputable def decodePoint (a : Gej b.Fe) : Point :=
  let z : ZMod p := b.val a.z
  if h : OnCurve (b.val a.x / (z * z)) (b.val a.y / (z * z * z)) then h.point else 0

/-- The two multiplications by what they are for. -/
noncomputable def ecmultReference (c : ScalarBackend) (a : Gej b.Fe) (na ng : c.Scalar) :
    Option (Gej b.Fe) :=
  some (b.encodePoint (c.val na • b.decodePoint a + c.val ng • generator))

noncomputable def ecmultGenReference (c : ScalarBackend) (k : c.Scalar) : Option (Gej b.Fe) :=
  some (b.encodePoint (c.val k • generator))

variable {b}

theorem decodePoint_eq {a : Gej b.Fe} {x y : ZMod p} (h : JacobianOf b.val a x y) :
    b.decodePoint a = h.point.point := by
  have hx : (b.val a.x : ZMod p) / (b.val a.z * b.val a.z) = x := by
    rw [h.x_eq, mul_div_cancel_right₀ _ (mul_ne_zero h.z_ne h.z_ne)]
  have hy : (b.val a.y : ZMod p) / (b.val a.z * b.val a.z * b.val a.z) = y := by
    rw [h.y_eq, mul_div_cancel_right₀ _ (mul_ne_zero (mul_ne_zero h.z_ne h.z_ne) h.z_ne)]
  simp only [decodePoint, hx, hy]
  exact dif_pos h.point

variable (hb : b.Sound)
include hb

theorem encode_norm (v : ZMod p) : (b.values hb).norm v (b.encode v) := by
  have hbe : Bytes.be (numGetBin v.val) = v.val := be_numGetBin_val v
  have hlt : Bytes.be (numGetBin v.val) < p := by
    rw [hbe]
    exact ZMod.val_lt v
  have h := ((b.values hb).setB32 hlt).1
  rwa [hbe, ZMod.natCast_zmod_val] at h

theorem encodePoint_of (P : Point) : b.GejOf (b.encodePoint P) P := by
  cases P with
  | zero => rfl
  | some x y h =>
    have hrep : ∀ {v : ZMod p} {a : b.Fe}, (b.values hb).norm v a →
        b.Reduced 8 a ∧ (b.val a : ZMod p) = v := fun ha =>
      (rep_iff hb).mp ((b.values hb).rep_mono (by norm_num) ((b.values hb).rep_of_norm ha))
    obtain ⟨rx, ex⟩ := hrep (encode_norm hb x)
    obtain ⟨ry, ey⟩ := hrep (encode_norm hb y)
    obtain ⟨rz, ez⟩ := hrep ((b.values hb).setInt (i := 1) (k := 1) rfl (by norm_num))
    rw [Nat.cast_one] at ez
    refine ⟨⟨rfl, nonsingular_iff.mp h, ?_, ?_, ?_⟩, rx, ry, rz⟩
    · simp only [encodePoint, ez]
      exact one_ne_zero
    · simp only [encodePoint, ex, ez, mul_one]
    · simp only [encodePoint, ey, ez, mul_one]

theorem affineOf_of_raw {q : Ge b.Fe} {x y : ZMod p} (hinf : q.infinity = false) (h : OnCurve x y)
    (hx : (b.values hb).raw 8 x q.x) (hy : (b.values hb).raw 8 y q.y) : b.AffineOf q x y := by
  obtain ⟨rx, ex⟩ := (raw_iff hb).mp hx
  obtain ⟨ry, ey⟩ := (raw_iff hb).mp hy
  exact ⟨hinf, h, rx, ry, ex, ey⟩

theorem encode_affineOf {x y : ZMod p} (h : OnCurve x y) :
    b.AffineOf ⟨b.encode x, b.encode y, false⟩ x y := by
  have hraw : ∀ v : ZMod p, (b.values hb).raw 8 v (b.encode v) := fun v =>
    FieldModel.raw8 ((b.values hb).rep_of_norm (encode_norm hb v)) (by norm_num)
  exact affineOf_of_raw hb rfl h (hraw x) (hraw y)

theorem gejSetGe_jacobianOf {q : Ge b.Fe} {x y : ZMod p} (hq : b.AffineOf q x y) :
    JacobianOf b.val (gejSetGe b.ops q) x y ∧ b.Range 8 (gejSetGe b.ops q).z := by
  have hone := (b.values hb).setInt (i := 1) (k := 1) rfl (by norm_num)
  obtain ⟨hz, hv⟩ := (raw_iff hb).mp ((b.values hb).raw_mono (show 1 ≤ 8 by norm_num)
    ((b.values hb).raw_of_rep ((b.values hb).rep_of_norm hone)))
  rw [Nat.cast_one] at hv
  refine ⟨⟨hq.finite, hq.point, ?_, ?_, ?_⟩, hz⟩
  · simp only [gejSetGe, hv]
    exact one_ne_zero
  · simp only [gejSetGe, hv, hq.x_eq, mul_one]
  · simp only [gejSetGe, hv, hq.y_eq, mul_one]

theorem ecmultReference_spec (c : ScalarBackend) : b.EcmultSpec c (b.ecmultReference c) := by
  intro a na ng x y h ha _ _ _ _ _
  refine .some ?_
  rw [decodePoint_eq ha]
  exact encodePoint_of hb _

theorem ecmultGenReference_spec (c : ScalarBackend) :
    b.EcmultGenSpec c (b.ecmultGenReference c) := fun _ _ => .some (encodePoint_of hb _)

end FieldBackend

end Secp256k1
