import Secp256k1.Field.Values

/-!
# The field backend of a build

Either backend with the routines it is linked with, and the two readings of its elements: in the
range that products take, and fit for the tests and normalizations.
-/

namespace Secp256k1

inductive FieldBackend where
  | limbs5x52 (kc : Field5x52.KernelChoice)
  | limbs4x64 (I : Field4x64.Inner)

namespace FieldBackend

def Fe : FieldBackend → Type
  | limbs5x52 _ => Field5x52.Fe
  | limbs4x64 _ => Field4x64.Fe

def ops : (b : FieldBackend) → FieldOps b.Fe
  | limbs5x52 kc => Field5x52.ops kc.kernel
  | limbs4x64 I => Field4x64.ops I

/-- The number an element of the backend denotes. -/
def val : (b : FieldBackend) → b.Fe → ℕ
  | limbs5x52 _ => Field5x52.Fe.val
  | limbs4x64 _ => Field4x64.Fe.val

/-- The inner routines of the four-limb backend return canonical residues. -/
def Sound : FieldBackend → Prop
  | limbs5x52 _ => True
  | limbs4x64 I => I.Sound fun _ => True

/-- The same of the routine for products with an `int`. -/
def SoundInt : FieldBackend → Prop
  | limbs5x52 _ => True
  | limbs4x64 I => I.SoundInt fun _ => True

theorem sound_5x52 (kc : Field5x52.KernelChoice) : (limbs5x52 kc).Sound := trivial

theorem soundInt_5x52 (kc : Field5x52.KernelChoice) : (limbs5x52 kc).SoundInt := trivial

/-- Of magnitude at most `m`; four-limb elements have none. -/
def Range : (b : FieldBackend) → ℕ → b.Fe → Prop
  | limbs5x52 _ => fun m a => Field5x52.Mag m a
  | limbs4x64 _ => fun _ _ => True

/-- Of magnitude at most `m`, and canonical where there is no normalization. -/
def Reduced : (b : FieldBackend) → ℕ → b.Fe → Prop
  | limbs5x52 _ => fun m a => Field5x52.Mag m a
  | limbs4x64 _ => fun _ a => Field4x64.Fe.val a < p

def values : (b : FieldBackend) → b.Sound → FieldValues b.ops
  | limbs5x52 kc, _ => Field5x52.values kc.sound
  | limbs4x64 _, h => Field4x64.values h

theorem raw_iff {b : FieldBackend} (hb : b.Sound) {m : ℕ} {v : ZMod p} {a : b.Fe} :
    (b.values hb).raw m v a ↔ b.Range m a ∧ (b.val a : ZMod p) = v := by
  cases b with
  | limbs5x52 kc => exact Iff.rfl
  | limbs4x64 I => exact ⟨fun h => ⟨trivial, h⟩, And.right⟩

theorem rep_iff {b : FieldBackend} (hb : b.Sound) {m : ℕ} {v : ZMod p} {a : b.Fe} :
    (b.values hb).rep m v a ↔ b.Reduced m a ∧ (b.val a : ZMod p) = v := by
  cases b with
  | limbs5x52 kc => exact Iff.rfl
  | limbs4x64 I => exact Iff.rfl

theorem raw_of_reduced {b : FieldBackend} (hb : b.Sound) {m : ℕ} {v : ZMod p} {a : b.Fe}
    (ha : b.Reduced m a) (hv : (b.val a : ZMod p) = v) : (b.values hb).raw m v a :=
  (b.values hb).raw_of_rep ((rep_iff hb).mpr ⟨ha, hv⟩)

theorem values_mulInt {b : FieldBackend} (hb : b.Sound) (hint : b.SoundInt) :
    (b.values hb).MulInt := by
  cases b with
  | limbs5x52 kc =>
    exact Field5x52.model_mulInt kc.kernel (ZMod.natCast_self p) kc.sound.residues
      (fun v b => b = true ↔ v = 0) Field5x52.zero_iff
  | limbs4x64 I =>
    intro m k v a i hi hk _ h
    have hv := hint a i trivial (hi ▸ hk)
    replace h : (Field4x64.Fe.val a : ZMod p) = v := h
    refine .some ⟨hv ▸ Nat.mod_lt _ p_pos, ?_⟩
    rw [hv, ZMod.natCast_mod, Nat.cast_mul, h, hi]

end FieldBackend

end Secp256k1
