import Secp256k1.Field.Impl
import Secp256k1.Field.Spec4x64
import Secp256k1.Field.Spec5x52
import Secp256k1.Lib.Yields
import Secp256k1.Primes

/-!
# Field elements as values

`FieldModel B V` is what the code above the field relies on: each element stands for a value of the
ring `V`, and every operation returns the value it is named after, within the magnitudes the code
keeps to. The ring is `ZMod p` where values matter. Over the ring with one element nothing but the
magnitudes is left, and the answer of a zero test is open: what holds there holds whatever the
products are.
-/

namespace Secp256k1

structure FieldModel {F : Type} (B : FieldOps F) (V : Type) [CommRing V] where
  /-- The element stands for the value, with at most this magnitude. -/
  raw : ℕ → V → F → Prop
  /-- The same of an element that the zero tests and normalizations can be applied to. -/
  rep : ℕ → V → F → Prop
  norm : V → F → Prop
  /-- The answers a test of this value for zero may give. -/
  zero : V → Bool → Prop
  stored : V → FeStorage → Prop
  raw_of_rep : ∀ {m v a}, rep m v a → raw m v a
  rep_of_norm : ∀ {v a}, norm v a → rep 1 v a
  raw_mono : ∀ {m k v a}, m ≤ k → raw m v a → raw k v a
  rep_mono : ∀ {m k v a}, m ≤ k → rep m v a → rep k v a
  normalize : ∀ {m v a}, m ≤ 32 → rep m v a → Yields (B.normalize a) (norm v)
  normalizeVar : ∀ {m v a}, m ≤ 32 → rep m v a → Yields (B.normalizeVar a) (norm v)
  normalizeWeak : ∀ {m v a}, m ≤ 32 → rep m v a → Yields (B.normalizeWeak a) (rep 1 v)
  normalizesToZero : ∀ {m v a}, m ≤ 32 → rep m v a → Yields (B.normalizesToZero a) (zero v)
  normalizesToZeroVar : ∀ {m v a}, m ≤ 32 → rep m v a → Yields (B.normalizesToZeroVar a) (zero v)
  setInt : ∀ {i k}, BitVec.toNat i = k → k < 2 ^ 31 → norm (k : V) (B.setInt i)
  clear : norm 0 B.clear
  isZero : ∀ {v a}, norm v a → zero v (B.isZero a)
  negate : ∀ {m v a i}, BitVec.toNat i = m → m < 32 → raw m v a →
    Yields (B.negate a i) (rep (m + 1) (-v))
  add : ∀ {m k v w a b}, m + k ≤ 32 → raw m v a → raw k w b →
    Yields (B.add a b) (rep (m + k) (v + w))
  mul : ∀ {v w a b}, raw 8 v a → raw 8 w b → Yields (B.mul a b) (rep 1 (v * w))
  sqr : ∀ {v a}, raw 8 v a → Yields (B.sqr a) (rep 1 (v * v))
  cmov : ∀ a b f, B.cmov a b (ofBool f) = if f then b else a
  toStorage : ∀ {v a}, norm v a → stored v (B.toStorage a)
  fromStorage : ∀ {v s}, stored v s → rep 1 v (B.fromStorage s)
  storageCmov : ∀ s t f, B.storageCmov s t (ofBool f) = if f then t else s

namespace FieldModel

variable {F V : Type} [CommRing V] {B : FieldOps F} (M : FieldModel B V)

/-- Multiples by an `int` that is not negative. -/
def MulInt : Prop :=
  ∀ {m k v a i}, BitVec.toNat i = k → k < 2 ^ 31 → m * k ≤ 32 → M.raw m v a →
    Yields (B.mulInt a i) (M.rep (m * k) (v * k))

variable {M} {m k : ℕ} {v w : V} {a b : F}

theorem raw8 (h : M.rep m v a) (hm : m ≤ 8) : M.raw 8 v a := M.raw_mono hm (M.raw_of_rep h)

theorem prod (ha : M.rep m v a) (hb : M.rep k w b) (hm : m ≤ 8) (hk : k ≤ 8) :
    Yields (B.mul a b) (M.rep 1 (v * w)) :=
  M.mul (raw8 ha hm) (raw8 hb hk)

theorem square (ha : M.rep m v a) (hm : m ≤ 8) : Yields (B.sqr a) (M.rep 1 (v * v)) :=
  M.sqr (raw8 ha hm)

theorem sum (ha : M.rep m v a) (hb : M.rep k w b) (h : m + k ≤ 32) :
    Yields (B.add a b) (M.rep (m + k) (v + w)) :=
  M.add h (M.raw_of_rep ha) (M.raw_of_rep hb)

end FieldModel

/-! ## The five-limb backend -/

namespace Field5x52

/-- The routines return magnitude one, and products of the values in `V`. -/
structure Kernel.SoundIn (K : Kernel) (V : Type) [CommRing V] : Prop where
  mul : ∀ {a b}, InRange a → InRange b →
    Mag 1 (K.mul a b) ∧ ((K.mul a b).val : V) = a.val * b.val
  sqr : ∀ {a}, InRange a → Mag 1 (K.sqr a) ∧ ((K.sqr a).val : V) = a.val * a.val

theorem IsProduct.cast {V : Type} [CommRing V] (hp : (p : V) = 0) {r : Fe} {v : ℕ}
    (h : IsProduct r v) : (r.val : V) = v := by
  obtain ⟨q, hq⟩ := h.val
  rw [← hq, Nat.cast_add, Nat.cast_mul, hp, zero_mul, add_zero]

theorem Kernel.Sound.soundIn {K : Kernel} (hK : K.Sound) {V : Type} [CommRing V]
    (hp : (p : V) = 0) : K.SoundIn V where
  mul ha hb := ⟨(hK.mul ha hb).mag, by rw [(hK.mul ha hb).cast hp, Nat.cast_mul]⟩
  sqr ha := ⟨(hK.sqr ha).mag, by rw [(hK.sqr ha).cast hp, Nat.cast_mul]⟩

theorem Kernel.Sound.residues {K : Kernel} (hK : K.Sound) : K.SoundIn (ZMod p) :=
  hK.soundIn (ZMod.natCast_self p)

theorem cast_of_mod {V : Type} [CommRing V] (hp : (p : V) = 0) {x y : ℕ} (h : x % p = y % p) :
    (x : V) = y := by
  have hx : ∀ z : ℕ, (z : V) = (z % p : ℕ) := fun z => by
    conv_lhs => rw [← Nat.mod_add_div z p, Nat.cast_add, Nat.cast_mul, hp, zero_mul, add_zero]
  rw [hx x, hx y, h]

theorem guardWith_yields {α : Type} {c : Prop} [Decidable c] {x : α} {P : α → Prop} (hc : c)
    (h : P x) : Yields (guardWith c x) P := by
  rw [guardWith, if_pos hc]
  exact .some h

/-- A tested operation returns what the operation as compiled does. -/
theorem guardWith_below {α : Type} {c : Prop} [Decidable c] (x : α) :
    Below (guardWith c x) (some x) := by
  intro a ha
  rw [guardWith] at ha
  split at ha
  · exact ha
  · cases ha

theorem unguard {α : Type} {c : Prop} [Decidable c] {x : α} {P : α → Prop}
    (h : Yields (guardWith c x) P) : Yields (some x) P := by
  obtain ⟨a, ha, hP⟩ := h
  exact ⟨a, guardWith_below x a ha, hP⟩

section

variable (K : Kernel) {V : Type} [CommRing V] (hp : (p : V) = 0) (hK : K.SoundIn V)
  (zero : V → Bool → Prop) (hzero : ∀ a, NoWrap a → zero a.val (feNormalizesToZero a))

/-- The five-limb backend, with its preconditions tested, over a ring in which `p` vanishes. -/
def checkedModel : FieldModel (checked K) V where
  raw m v a := Mag m a ∧ (a.val : V) = v
  rep m v a := Mag m a ∧ (a.val : V) = v
  norm v a := Normalized a ∧ (a.val : V) = v
  zero := zero
  stored v s := (s.val : V) = v
  raw_of_rep h := h
  rep_of_norm h := ⟨h.1.tight.le (by norm_num), h.2⟩
  raw_mono hm h := ⟨h.1.mono hm, h.2⟩
  rep_mono hm h := ⟨h.1.mono hm, h.2⟩
  normalize hm h := by
    have hw := h.1.noWrap (by omega)
    obtain ⟨hn, hv⟩ := feNormalize_spec hw
    refine guardWith_yields hw ⟨hn, ?_⟩
    rw [← h.2]
    exact cast_of_mod hp (by rw [hv, Nat.mod_mod])
  normalizeVar hm h := by
    have hw := h.1.noWrap (by omega)
    obtain ⟨hn, hv⟩ := feNormalize_spec hw
    rw [← feNormalizeVar_eq hw] at hn hv
    refine guardWith_yields hw ⟨hn, ?_⟩
    rw [← h.2]
    exact cast_of_mod hp (by rw [hv, Nat.mod_mod])
  normalizeWeak hm h := by
    have hw := h.1.noWrap (by omega)
    obtain ⟨ht, hv⟩ := feNormalizeWeak_spec hw
    refine guardWith_yields hw ⟨ht.le (by norm_num), ?_⟩
    rw [← h.2]
    exact cast_of_mod hp hv
  normalizesToZero hm h := by
    have hw := h.1.noWrap (by omega)
    exact guardWith_yields hw (h.2 ▸ hzero _ hw)
  normalizesToZeroVar hm h := by
    have hw := h.1.noWrap (by omega)
    refine guardWith_yields hw ?_
    rw [feNormalizesToZeroVar_eq]
    exact h.2 ▸ hzero _ hw
  setInt hi hk := by
    obtain ⟨hn, hv⟩ := feSetInt_spec hi hk
    exact ⟨hn, by rw [← hv]; rfl⟩
  clear := by
    obtain ⟨hn, hv⟩ := feClear_spec
    exact ⟨hn, by rw [show (checked K).clear = feClear from rfl, hv, Nat.cast_zero]⟩
  isZero {v a} h := by
    have hw := h.1.tight.noWrap (by norm_num)
    have heq : feIsZero a = feNormalizesToZero a := by
      rw [Bool.eq_iff_iff, feIsZero_iff, feNormalizesToZero_iff hw, Nat.mod_eq_of_lt h.1.val]
    change zero v (feIsZero a)
    rw [heq]
    exact h.2 ▸ hzero _ hw
  negate {m v a i} hi hm h := by
    obtain ⟨hf, ht, hv⟩ := feNegate_spec h.1 hi (by omega)
    refine guardWith_yields hf ⟨ht.le (by norm_num), ?_⟩
    have hcast : ((feNegate a i).val : V) + a.val = 0 := by
      rw [← Nat.cast_add, hv, Nat.cast_mul, hp, mul_zero]
    rw [← h.2]
    exact eq_neg_of_add_eq_zero_left hcast
  add hm ha hb := by
    obtain ⟨hf, hl, hv⟩ := feAdd_spec (by norm_num) ha.1 hb.1 (by omega)
    exact guardWith_yields hf ⟨hl, by rw [hv, Nat.cast_add, ha.2, hb.2]⟩
  mul ha hb := by
    have ra := ha.1.inRange le_rfl
    have rb := hb.1.inRange le_rfl
    obtain ⟨hm, hv⟩ := hK.mul ra rb
    exact guardWith_yields ⟨ra, rb⟩ ⟨hm, by rw [hv, ha.2, hb.2]⟩
  sqr ha := by
    have ra := ha.1.inRange le_rfl
    obtain ⟨hm, hv⟩ := hK.sqr ra
    exact guardWith_yields ra ⟨hm, by rw [hv, ha.2]⟩
  cmov _ _ f := feCmov_spec f
  toStorage h := by
    rw [← h.2, show (checked K).toStorage = feToStorage from rfl, feToStorage_val h.1]
  fromStorage {v s} h := by
    obtain ⟨hc, h4, hv⟩ := feFromStorage_spec s
    refine ⟨(hc.tight (h4.trans (by norm_num))).le (by norm_num), ?_⟩
    rw [← h, show (checked K).fromStorage = feFromStorage from rfl, hv]
  storageCmov s t f := by
    cases f <;> simp [checked, ops, feStorageCmov, cmovLimb_spec]

theorem checkedModel_mulInt : (checkedModel K hp hK zero hzero).MulInt := by
  intro m k v a i hi hk hm h
  obtain ⟨hf, hl, hv⟩ := feMulInt_spec (by norm_num) h.1 hi hk (by omega)
  refine guardWith_yields ⟨by omega, by rwa [hi]⟩ ⟨hl, ?_⟩
  rw [hv, Nat.cast_mul, h.2]

/-- The five-limb backend as compiled. -/
def model : FieldModel (ops K) V :=
  let M := checkedModel K hp hK zero hzero
  { raw := M.raw
    rep := M.rep
    norm := M.norm
    zero := M.zero
    stored := M.stored
    raw_of_rep := M.raw_of_rep
    rep_of_norm := M.rep_of_norm
    raw_mono := M.raw_mono
    rep_mono := M.rep_mono
    normalize := fun hm h => unguard (M.normalize hm h)
    normalizeVar := fun hm h => unguard (M.normalizeVar hm h)
    normalizeWeak := fun hm h => unguard (M.normalizeWeak hm h)
    normalizesToZero := fun hm h => unguard (M.normalizesToZero hm h)
    normalizesToZeroVar := fun hm h => unguard (M.normalizesToZeroVar hm h)
    setInt := M.setInt
    clear := M.clear
    isZero := M.isZero
    negate := fun hi hm h => unguard (M.negate hi hm h)
    add := fun hm ha hb => unguard (M.add hm ha hb)
    mul := fun ha hb => unguard (M.mul ha hb)
    sqr := fun ha => unguard (M.sqr ha)
    cmov := M.cmov
    toStorage := M.toStorage
    fromStorage := M.fromStorage
    storageCmov := M.storageCmov }

theorem model_mulInt : (model K hp hK zero hzero).MulInt := fun hi hk hm h =>
  unguard (checkedModel_mulInt K hp hK zero hzero hi hk hm h)

end

/-- A zero test of a value of the field tells whether it is zero. -/
theorem zero_iff (a : Fe) (h : NoWrap a) :
    feNormalizesToZero a = true ↔ (a.val : ZMod p) = 0 := by
  rw [feNormalizesToZero_iff h, ZMod.natCast_eq_zero_iff, Nat.dvd_iff_mod_eq_zero]

end Field5x52

/-! ## The four-limb backend -/

namespace Field4x64

theorem canonical_zero_iff {a : Fe} {v : ZMod p} (h : a.val < p ∧ (a.val : ZMod p) = v) :
    feNormalizesToZero a = true ↔ v = 0 := by
  rw [feNormalizesToZero_iff, ← h.2, ZMod.natCast_eq_zero_iff, Nat.dvd_iff_mod_eq_zero,
    Nat.mod_eq_of_lt h.1]

/-- The four-limb backend. Its normalizations are empty, so that only canonical elements can be
tested; the inner routines take any. -/
def model {I : Inner} (hI : I.Sound fun _ => True) : FieldModel (ops I) (ZMod p) where
  raw _ v a := (a.val : ZMod p) = v
  rep _ v a := a.val < p ∧ (a.val : ZMod p) = v
  norm v a := a.val < p ∧ (a.val : ZMod p) = v
  zero v b := b = true ↔ v = 0
  stored v s := s.val < p ∧ (s.val : ZMod p) = v
  raw_of_rep h := h.2
  rep_of_norm h := h
  raw_mono _ h := h
  rep_mono _ h := h
  normalize _ h := .some h
  normalizeVar _ h := .some h
  normalizeWeak _ h := .some h
  normalizesToZero _ h := .some (canonical_zero_iff h)
  normalizesToZeroVar _ h := .some (canonical_zero_iff h)
  setInt {i k} hi hk := by
    have hv : ((ops I).setInt i).val = k := feSetInt_val hi hk
    refine ⟨?_, by rw [hv]⟩
    rw [hv, lt_p_iff]
    omega
  clear := by
    have hv : feClear.val = 0 := by decide
    change feClear.val < p ∧ (feClear.val : ZMod p) = 0
    refine ⟨?_, by rw [hv, Nat.cast_zero]⟩
    rw [hv]
    exact p_pos
  isZero h := by
    change feIsZero _ = true ↔ _
    rw [feIsZero_eq]
    exact canonical_zero_iff h
  negate {m v a i} _ _ h := by
    have hv := hI.negate a trivial
    refine .some ⟨hv ▸ Nat.mod_lt _ p_pos, ?_⟩
    rw [hv, ZMod.natCast_mod, Nat.cast_sub (Nat.mod_lt _ p_pos).le, ZMod.natCast_mod,
      ZMod.natCast_self, zero_sub, h]
  add {m k v w a b} _ ha hb := by
    have hv := hI.add a b trivial trivial
    refine .some ⟨hv ▸ Nat.mod_lt _ p_pos, ?_⟩
    rw [hv, ZMod.natCast_mod, Nat.cast_add, ha, hb]
  mul {v w a b} ha hb := by
    have hv := hI.mul a b trivial trivial
    refine .some ⟨hv ▸ Nat.mod_lt _ p_pos, ?_⟩
    rw [hv, ZMod.natCast_mod, Nat.cast_mul, ha, hb]
  sqr {v a} ha := by
    have hv := hI.sqr a trivial
    refine .some ⟨hv ▸ Nat.mod_lt _ p_pos, ?_⟩
    rw [hv, ZMod.natCast_mod, Nat.cast_mul, ha]
  cmov := feCmov_spec
  toStorage h := h
  fromStorage h := h
  storageCmov s t f := by
    cases f <;> simp [ops, feStorageCmov, ofBool]

end Field4x64

end Secp256k1
