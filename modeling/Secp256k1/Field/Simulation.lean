import Secp256k1.Field.Impl
import Secp256k1.Field.Spec4x64
import Secp256k1.Field.Spec5x52

/-!
# The two backends in step

Programs over the operations of `field.h`, run on either backend. `track` is the bookkeeping of a
`VERIFY` build of the five-limb backend: the magnitude and the normalized flag of each element, and
the checks made on them. A program it accepts keeps every four-limb element equal to the canonical
residue of its five-limb counterpart.
-/

namespace Secp256k1

/-- An operation on numbered elements and numbered storage cells. -/
inductive FieldInstr where
  | setInt (r : ℕ) (a : CInt)
  | setB32 (r : ℕ) (b : Fin 32 → Byte)
  | clear (r : ℕ)
  | negate (r a : ℕ) (m : CInt)
  | add (r a : ℕ)
  | mulInt (r : ℕ) (k : CInt)
  | mul (r a b : ℕ)
  | sqr (r a : ℕ)
  | cmov (r a : ℕ) (flag : CInt)
  | normalize (r : ℕ)
  | normalizeWeak (r : ℕ)
  | normalizeVar (r : ℕ)
  | toStorage (s a : ℕ)
  | fromStorage (r s : ℕ)

structure FieldState (F : Type) where
  fe : ℕ → F
  st : ℕ → FeStorage

namespace FieldState

variable {F : Type}

def set (s : FieldState F) (r : ℕ) (x : F) : FieldState F :=
  { s with fe := Function.update s.fe r x }

end FieldState

def FieldInstr.exec {F : Type} (B : FieldOps F) (s : FieldState F) :
    FieldInstr → Option (FieldState F)
  | .setInt r a => some (s.set r (B.setInt a))
  | .setB32 r b => some (s.set r (B.setB32 b).1)
  | .clear r => some (s.set r B.clear)
  | .negate r a m => (B.negate (s.fe a) m).map (s.set r)
  | .add r a => (B.add (s.fe r) (s.fe a)).map (s.set r)
  | .mulInt r k => (B.mulInt (s.fe r) k).map (s.set r)
  | .mul r a b => (B.mul (s.fe a) (s.fe b)).map (s.set r)
  | .sqr r a => (B.sqr (s.fe a)).map (s.set r)
  | .cmov r a flag => some (s.set r (B.cmov (s.fe r) (s.fe a) flag))
  | .normalize r => (B.normalize (s.fe r)).map (s.set r)
  | .normalizeWeak r => (B.normalizeWeak (s.fe r)).map (s.set r)
  | .normalizeVar r => (B.normalizeVar (s.fe r)).map (s.set r)
  | .toStorage c a => some { s with st := Function.update s.st c (B.toStorage (s.fe a)) }
  | .fromStorage r c => some (s.set r (B.fromStorage (s.st c)))

def runField {F : Type} (B : FieldOps F) : List FieldInstr → FieldState F → Option (FieldState F)
  | [], s => some s
  | i :: is, s => (i.exec B s).bind (runField B is)

/-- The fields `magnitude` and `normalized` of a `VERIFY` build. -/
structure Info where
  magnitude : ℕ
  normalized : Bool
  deriving DecidableEq, Repr

/-- What is known of each element and of each storage cell; `none` and `false` mean that nothing
was written yet. -/
structure Book where
  fe : ℕ → Option Info
  st : ℕ → Bool

def Book.empty : Book := ⟨fun _ => none, fun _ => false⟩

def Book.set (k : Book) (r : ℕ) (i : Info) : Book :=
  { k with fe := Function.update k.fe r (some i) }

/-- The checks and the bookkeeping of one operation in a `VERIFY` build; `none` is a failed check.
The arguments of `set_int` and `mul_int` are not negative, the bytes given to `set_b32` denote a
number below `p`, and the flag of `cmov` is the truth value 0 or 1. -/
def FieldInstr.track (k : Book) : FieldInstr → Option Book
  | .setInt r a => if a.toNat < 2 ^ 31 then some (k.set r ⟨1, true⟩) else none
  | .setB32 r b => if Bytes.be b < p then some (k.set r ⟨1, true⟩) else none
  | .clear r => some (k.set r ⟨0, true⟩)
  | .negate r a m => (k.fe a).bind fun i =>
      if i.magnitude ≤ m.toNat ∧ m.toNat + 1 ≤ 2048 then some (k.set r ⟨m.toNat + 1, false⟩)
      else none
  | .add r a => (k.fe r).bind fun i => (k.fe a).bind fun j =>
      if i.magnitude + j.magnitude ≤ 2048 then some (k.set r ⟨i.magnitude + j.magnitude, false⟩)
      else none
  | .mulInt r c => (k.fe r).bind fun i =>
      if c.toNat < 2 ^ 31 ∧ i.magnitude * c.toNat ≤ 2048 then
        some (k.set r ⟨i.magnitude * c.toNat, false⟩)
      else none
  | .mul r a b => (k.fe a).bind fun i => (k.fe b).bind fun j =>
      if i.magnitude ≤ 8 ∧ j.magnitude ≤ 8 ∧ r ≠ b then some (k.set r ⟨1, false⟩) else none
  | .sqr r a => (k.fe a).bind fun i => if i.magnitude ≤ 8 then some (k.set r ⟨1, false⟩) else none
  | .cmov r a flag => (k.fe r).bind fun i => (k.fe a).bind fun j =>
      if flag = 0 ∨ flag = 1 then
        some (k.set r ⟨max i.magnitude j.magnitude, i.normalized && j.normalized⟩)
      else none
  | .normalize r => (k.fe r).bind fun _ => some (k.set r ⟨1, true⟩)
  | .normalizeWeak r => (k.fe r).bind fun i => some (k.set r ⟨1, i.normalized⟩)
  | .normalizeVar r => (k.fe r).bind fun _ => some (k.set r ⟨1, true⟩)
  | .toStorage c a => (k.fe a).bind fun i =>
      if i.normalized then some { k with st := Function.update k.st c true } else none
  | .fromStorage r c => if k.st c then some (k.set r ⟨1, true⟩) else none

def trackField : List FieldInstr → Book → Option Book
  | [], k => some k
  | i :: is, k => (i.track k).bind (trackField is)

/-! ## The relation between elements -/

/-- The residue that cancels `u` is unique. -/
theorem neg_mod_eq {m u v : ℕ} (hu : u < m) (hv : v < m) (h : (v + u) % m = 0) :
    (m - u) % m = v := by
  rcases Nat.eq_zero_or_pos u with rfl | hpos
  · rw [Nat.add_zero, Nat.mod_eq_of_lt hv] at h
    rw [h, Nat.sub_zero, Nat.mod_self]
  · have hsum : v + u = m := by
      by_contra hne
      rcases Nat.lt_or_gt_of_ne hne with hlt | hgt
      · rw [Nat.mod_eq_of_lt hlt] at h
        omega
      · rw [Nat.mod_eq_sub_mod hgt.le, Nat.mod_eq_of_lt (by omega)] at h
        omega
    rw [Nat.mod_eq_of_lt (by omega)]
    omega

/-- A five-limb element of the tracked magnitude and the four-limb element that is its canonical
residue. -/
structure ElemSim (i : Info) (x : Field5x52.Fe) (y : Field4x64.Fe) : Prop where
  tight : Field5x52.Tight i.magnitude x
  le : i.magnitude ≤ 2048
  norm : i.normalized = true → Field5x52.Normalized x
  val : y.val = x.val % p

namespace ElemSim

variable {i j : Info} {x x' : Field5x52.Fe} {y y' : Field4x64.Fe} {K : Field5x52.Kernel}
  {I : Field4x64.Inner}

theorem canonical (h : ElemSim i x y) : y.val < p := h.val ▸ Nat.mod_lt _ p_pos

theorem noWrap (h : ElemSim i x y) : Field5x52.NoWrap x := Field5x52.Tight.noWrap h.tight h.le

theorem mag (h : ElemSim i x y) : Field5x52.Mag i.magnitude x := h.tight.le (by norm_num)

/-- A canonical five-limb element. -/
theorem ofNormalized (hn : Field5x52.Normalized x) (hy : y.val = x.val) :
    ElemSim ⟨1, true⟩ x y :=
  ⟨hn.tight, by norm_num, fun _ => hn, by rw [hy, Nat.mod_eq_of_lt hn.val]⟩

theorem setInt {a : CInt} (h : a.toNat < 2 ^ 31) :
    ElemSim ⟨1, true⟩ (Field5x52.feSetInt a) (Field4x64.feSetInt a) := by
  obtain ⟨hn, hv⟩ := Field5x52.feSetInt_spec rfl h
  exact ofNormalized hn (by rw [hv, Field4x64.feSetInt_val rfl h])

theorem setB32 {b : Fin 32 → Byte} (h : Bytes.be b < p) :
    ElemSim ⟨1, true⟩ (Field5x52.feSetB32 b).1 (Field4x64.feSetB32 b).1 := by
  obtain ⟨-, hv, -, hn⟩ := Field5x52.feSetB32_spec b
  exact ofNormalized (hn h) (by rw [hv, Field4x64.feSetB32_val])

theorem clear : ElemSim ⟨0, true⟩ Field5x52.feClear Field4x64.feClear := by
  obtain ⟨hn, hv⟩ := Field5x52.feClear_spec
  refine ⟨⟨?_, ?_, ?_, ?_, ?_⟩, by norm_num, fun _ => hn, by rw [hv]; rfl⟩ <;>
    simp [Field5x52.feClear]

theorem negate (hI : I.Sound (·.val < p)) {m : CInt} (h : ElemSim i x y)
    (hm : i.magnitude ≤ m.toNat) (hle : m.toNat + 1 ≤ 2048) :
    ElemSim ⟨m.toNat + 1, false⟩ (Field5x52.feNegate x m) (I.negate y) := by
  obtain ⟨-, ht, hv⟩ := Field5x52.feNegate_spec (h.mag.mono hm) rfl hle
  refine ⟨ht, hle, by simp, ?_⟩
  rw [hI.negate y h.canonical, h.val, Nat.mod_mod]
  -- both sides are the residue that cancels the value of `x`
  have h1 : ((Field5x52.feNegate x m).val + x.val) % p = 0 := by
    rw [hv, Nat.mul_mod_left]
  rw [Nat.add_mod] at h1
  exact (neg_mod_eq (Nat.mod_lt _ p_pos) (Nat.mod_lt _ p_pos) h1)

theorem add (hI : I.Sound (·.val < p)) (h : ElemSim i x y) (h' : ElemSim j x' y')
    (hle : i.magnitude + j.magnitude ≤ 2048) :
    ElemSim ⟨i.magnitude + j.magnitude, false⟩ (Field5x52.feAdd x x') (I.add y y') := by
  obtain ⟨-, ht, hv⟩ := Field5x52.feAdd_spec (by norm_num) h.tight h'.tight hle
  refine ⟨ht, hle, by simp, ?_⟩
  rw [hI.add y y' h.canonical h'.canonical, h.val, h'.val, hv, ← Nat.add_mod]

theorem mulInt (hI : I.SoundInt (·.val < p)) {c : CInt} (h : ElemSim i x y)
    (hc : c.toNat < 2 ^ 31) (hle : i.magnitude * c.toNat ≤ 2048) :
    ElemSim ⟨i.magnitude * c.toNat, false⟩ (Field5x52.feMulInt x c) (I.mulInt y c) := by
  obtain ⟨-, ht, hv⟩ := Field5x52.feMulInt_spec (by norm_num) h.tight rfl hc hle
  refine ⟨ht, hle, by simp, ?_⟩
  rw [hI y c h.canonical hc, h.val, hv, Nat.mod_mul_mod]

theorem mul (hK : K.Sound) (hI : I.Sound (·.val < p)) (h : ElemSim i x y) (h' : ElemSim j x' y')
    (hi : i.magnitude ≤ 8) (hj : j.magnitude ≤ 8) :
    ElemSim ⟨1, false⟩ (K.mul x x') (I.mul y y') := by
  have hprod := hK.mul (Field5x52.Mag.inRange h.mag hi) (Field5x52.Mag.inRange h'.mag hj)
  refine ⟨hprod.tight, by norm_num, by simp, ?_⟩
  rw [hI.mul y y' h.canonical h'.canonical, h.val, h'.val, hprod.mod, ← Nat.mul_mod]

theorem sqr (hK : K.Sound) (hI : I.Sound (·.val < p)) (h : ElemSim i x y)
    (hi : i.magnitude ≤ 8) : ElemSim ⟨1, false⟩ (K.sqr x) (I.sqr y) := by
  have hprod := hK.sqr (Field5x52.Mag.inRange h.mag hi)
  refine ⟨hprod.tight, by norm_num, by simp, ?_⟩
  rw [hI.sqr y h.canonical, h.val, hprod.mod, ← Nat.mul_mod]

theorem cmov (h : ElemSim i x y) (h' : ElemSim j x' y') {flag : CInt}
    (hf : flag = 0 ∨ flag = 1) :
    ElemSim ⟨max i.magnitude j.magnitude, i.normalized && j.normalized⟩
      (Field5x52.feCmov x x' flag) (Field4x64.feCmov y y' flag) := by
  obtain ⟨f, rfl⟩ : ∃ f, flag = ofBool f := hf.elim (⟨false, ·⟩) (⟨true, ·⟩)
  rw [Field5x52.feCmov_spec, Field4x64.feCmov_spec]
  have hle : max i.magnitude j.magnitude ≤ 2048 := max_le h.le h'.le
  cases f with
  | false =>
    exact ⟨h.tight.mono (le_max_left _ _), hle, fun hn => h.norm (Bool.and_elim_left hn), h.val⟩
  | true =>
    exact ⟨h'.tight.mono (le_max_right _ _), hle, fun hn => h'.norm (Bool.and_elim_right hn),
      h'.val⟩

theorem normalize (h : ElemSim i x y) :
    ElemSim ⟨1, true⟩ (Field5x52.feNormalize x) (Field4x64.feNormalize y) := by
  obtain ⟨hn, hv⟩ := Field5x52.feNormalize_spec h.noWrap
  exact ofNormalized hn (by rw [hv]; exact h.val)

theorem normalizeVar (h : ElemSim i x y) :
    ElemSim ⟨1, true⟩ (Field5x52.feNormalizeVar x) (Field4x64.feNormalizeVar y) := by
  rw [Field5x52.feNormalizeVar_eq h.noWrap]
  exact h.normalize

theorem normalizeWeak (h : ElemSim i x y) :
    ElemSim ⟨1, i.normalized⟩ (Field5x52.feNormalizeWeak x) (Field4x64.feNormalizeWeak y) := by
  obtain ⟨ht, hv⟩ := Field5x52.feNormalizeWeak_spec h.noWrap
  refine ⟨ht, by norm_num, fun hn => ?_, by rw [hv]; exact h.val⟩
  exact Field5x52.feNormalizeWeak_normalized (h.norm hn)

theorem fromStorage {s : FeStorage} (h : s.val < p) :
    ElemSim ⟨1, true⟩ (Field5x52.feFromStorage s) (Field4x64.feFromStorage s) := by
  obtain ⟨hc, h4, hv⟩ := Field5x52.feFromStorage_spec s
  exact ofNormalized ⟨hc, h4, hv ▸ h⟩ hv.symm

theorem toStorage (h : ElemSim i x y) (hn : i.normalized = true) :
    Field5x52.feToStorage x = Field4x64.feToStorage y ∧ (Field4x64.feToStorage y).val < p := by
  have hx := h.norm hn
  have hv := h.val
  rw [Nat.mod_eq_of_lt hx.val] at hv
  refine ⟨FeStorage.val_inj ?_, ?_⟩
  · rw [Field5x52.feToStorage_val hx, Field4x64.feToStorage_val, hv]
  · rw [Field4x64.feToStorage_val]
    exact h.canonical

/-! ### Tests and codecs -/

theorem normalizesToZero (h : ElemSim i x y) :
    Field5x52.feNormalizesToZero x = Field4x64.feNormalizesToZero y := by
  rw [Bool.eq_iff_iff, Field5x52.feNormalizesToZero_iff h.noWrap,
    Field4x64.feNormalizesToZero_iff, h.val]

theorem normalizesToZeroVar (h : ElemSim i x y) :
    Field5x52.feNormalizesToZeroVar x = Field4x64.feNormalizesToZeroVar y := by
  rw [Field5x52.feNormalizesToZeroVar_eq, Field4x64.feNormalizesToZeroVar_eq, h.normalizesToZero]

/-- For a normalized element the two values are the same integer. -/
theorem val_eq (h : ElemSim i x y) (hn : i.normalized = true) : x.val = y.val := by
  rw [h.val, Nat.mod_eq_of_lt (h.norm hn).val]

theorem isZero (h : ElemSim i x y) (hn : i.normalized = true) :
    Field5x52.feIsZero x = Field4x64.feIsZero y := by
  rw [Bool.eq_iff_iff, Field5x52.feIsZero_iff, Field4x64.feIsZero_eq,
    Field4x64.feNormalizesToZero_iff, h.val_eq hn]

theorem isOdd (h : ElemSim i x y) (hn : i.normalized = true) :
    Field5x52.feIsOdd x = Field4x64.feIsOdd y := by
  rw [Bool.eq_iff_iff, Field5x52.feIsOdd_iff, Field4x64.feIsOdd_iff, h.val_eq hn]

theorem getB32 (h : ElemSim i x y) (hn : i.normalized = true) :
    Field5x52.feGetB32 x = Field4x64.feGetB32 y :=
  Bytes.be_inj (by rw [Field5x52.feGetB32_be (h.norm hn), Field4x64.feGetB32_be, h.val_eq hn])

end ElemSim

/-! ## Runs -/

/-- Every element and every storage cell written so far agrees in the two states. -/
structure StateSim (k : Book) (s : FieldState Field5x52.Fe) (t : FieldState Field4x64.Fe) :
    Prop where
  fe : ∀ r i, k.fe r = some i → ElemSim i (s.fe r) (t.fe r)
  st : ∀ c, k.st c = true → s.st c = t.st c ∧ (t.st c).val < p

theorem StateSim.empty (s : FieldState Field5x52.Fe) (t : FieldState Field4x64.Fe) :
    StateSim Book.empty s t :=
  ⟨fun _ _ h => by simp [Book.empty] at h, fun _ h => by simp [Book.empty] at h⟩

theorem StateSim.set {k : Book} {s : FieldState Field5x52.Fe} {t : FieldState Field4x64.Fe}
    (h : StateSim k s t) (r : ℕ) {i : Info} {x : Field5x52.Fe} {y : Field4x64.Fe}
    (hx : ElemSim i x y) : StateSim (k.set r i) (s.set r x) (t.set r y) := by
  refine ⟨fun q j hq => ?_, h.st⟩
  simp only [Book.set, FieldState.set, Function.update_apply] at hq ⊢
  split at hq
  · cases hq
    simp only [*, if_true]
  · simp only [*, if_false]
    exact h.fe q j hq

section

variable {K : Field5x52.Kernel} {I : Field4x64.Inner}

/-- One operation the bookkeeping accepts keeps the states in step. -/
theorem FieldInstr.exec_sim (hK : K.Sound) (hI : I.Sound (·.val < p)) (hi : I.SoundInt (·.val < p))
    {k k' : Book} {s : FieldState Field5x52.Fe} {t : FieldState Field4x64.Fe} (i : FieldInstr)
    (h : StateSim k s t) (hk : i.track k = some k') :
    ∃ s' t', i.exec (Field5x52.ops K) s = some s' ∧ i.exec (Field4x64.ops I) t = some t' ∧
      StateSim k' s' t' := by
  cases i with
  | setInt r a =>
    simp only [track, Option.ite_none_right_eq_some, Option.some.injEq] at hk
    obtain ⟨ha, rfl⟩ := hk
    exact ⟨_, _, rfl, rfl, h.set r (ElemSim.setInt ha)⟩
  | setB32 r b =>
    simp only [track, Option.ite_none_right_eq_some, Option.some.injEq] at hk
    obtain ⟨hb, rfl⟩ := hk
    exact ⟨_, _, rfl, rfl, h.set r (ElemSim.setB32 hb)⟩
  | clear r =>
    cases hk
    exact ⟨_, _, rfl, rfl, h.set r ElemSim.clear⟩
  | negate r a m =>
    obtain ⟨j, hj, hk⟩ := Option.bind_eq_some_iff.mp hk
    simp only [Option.ite_none_right_eq_some, Option.some.injEq] at hk
    obtain ⟨⟨hm, hle⟩, rfl⟩ := hk
    exact ⟨_, _, rfl, rfl, h.set r (ElemSim.negate hI (h.fe a j hj) hm hle)⟩
  | add r a =>
    obtain ⟨j, hj, hk⟩ := Option.bind_eq_some_iff.mp hk
    obtain ⟨l, hl, hk⟩ := Option.bind_eq_some_iff.mp hk
    simp only [Option.ite_none_right_eq_some, Option.some.injEq] at hk
    obtain ⟨hle, rfl⟩ := hk
    exact ⟨_, _, rfl, rfl, h.set r (ElemSim.add hI (h.fe r j hj) (h.fe a l hl) hle)⟩
  | mulInt r c =>
    obtain ⟨j, hj, hk⟩ := Option.bind_eq_some_iff.mp hk
    simp only [Option.ite_none_right_eq_some, Option.some.injEq] at hk
    obtain ⟨⟨hc, hle⟩, rfl⟩ := hk
    exact ⟨_, _, rfl, rfl, h.set r (ElemSim.mulInt hi (h.fe r j hj) hc hle)⟩
  | mul r a b =>
    obtain ⟨j, hj, hk⟩ := Option.bind_eq_some_iff.mp hk
    obtain ⟨l, hl, hk⟩ := Option.bind_eq_some_iff.mp hk
    simp only [Option.ite_none_right_eq_some, Option.some.injEq] at hk
    obtain ⟨⟨h8, h8', -⟩, rfl⟩ := hk
    exact ⟨_, _, rfl, rfl, h.set r (ElemSim.mul hK hI (h.fe a j hj) (h.fe b l hl) h8 h8')⟩
  | sqr r a =>
    obtain ⟨j, hj, hk⟩ := Option.bind_eq_some_iff.mp hk
    simp only [Option.ite_none_right_eq_some, Option.some.injEq] at hk
    obtain ⟨h8, rfl⟩ := hk
    exact ⟨_, _, rfl, rfl, h.set r (ElemSim.sqr hK hI (h.fe a j hj) h8)⟩
  | cmov r a flag =>
    obtain ⟨j, hj, hk⟩ := Option.bind_eq_some_iff.mp hk
    obtain ⟨l, hl, hk⟩ := Option.bind_eq_some_iff.mp hk
    simp only [Option.ite_none_right_eq_some, Option.some.injEq] at hk
    obtain ⟨hf, rfl⟩ := hk
    exact ⟨_, _, rfl, rfl, h.set r ((h.fe r j hj).cmov (h.fe a l hl) hf)⟩
  | normalize r =>
    obtain ⟨j, hj, hk⟩ := Option.bind_eq_some_iff.mp hk
    cases hk
    exact ⟨_, _, rfl, rfl, h.set r (h.fe r j hj).normalize⟩
  | normalizeWeak r =>
    obtain ⟨j, hj, hk⟩ := Option.bind_eq_some_iff.mp hk
    cases hk
    exact ⟨_, _, rfl, rfl, h.set r (h.fe r j hj).normalizeWeak⟩
  | normalizeVar r =>
    obtain ⟨j, hj, hk⟩ := Option.bind_eq_some_iff.mp hk
    cases hk
    exact ⟨_, _, rfl, rfl, h.set r (h.fe r j hj).normalizeVar⟩
  | toStorage c a =>
    obtain ⟨j, hj, hk⟩ := Option.bind_eq_some_iff.mp hk
    simp only [Option.ite_none_right_eq_some, Option.some.injEq] at hk
    obtain ⟨hn, rfl⟩ := hk
    refine ⟨_, _, rfl, rfl, h.fe, fun d hd => ?_⟩
    simp only [Function.update_apply] at hd ⊢
    split at hd
    · simp only [*, if_true]
      exact (h.fe a j hj).toStorage hn
    · simp only [*, if_false]
      exact h.st d hd
  | fromStorage r c =>
    simp only [track, Option.ite_none_right_eq_some, Option.some.injEq] at hk
    obtain ⟨hc, rfl⟩ := hk
    obtain ⟨he, hlt⟩ := h.st c hc
    refine ⟨_, _, rfl, rfl, h.set r ?_⟩
    rw [he]
    exact ElemSim.fromStorage hlt

/-- A program the bookkeeping accepts keeps the states in step. -/
theorem runField_sim (hK : K.Sound) (hI : I.Sound (·.val < p)) (hi : I.SoundInt (·.val < p))
    (is : List FieldInstr) {k k' : Book} {s : FieldState Field5x52.Fe}
    {t : FieldState Field4x64.Fe} (h : StateSim k s t) (hk : trackField is k = some k') :
    ∃ s' t', runField (Field5x52.ops K) is s = some s' ∧ runField (Field4x64.ops I) is t = some t' ∧
      StateSim k' s' t' := by
  induction is generalizing k s t with
  | nil =>
    cases hk
    exact ⟨s, t, rfl, rfl, h⟩
  | cons i is ih =>
    obtain ⟨k1, hk1, hk⟩ := Option.bind_eq_some_iff.mp hk
    obtain ⟨s1, t1, hs, ht, h1⟩ := i.exec_sim hK hI hi h hk1
    obtain ⟨s', t', hs', ht', h'⟩ := ih h1 hk
    exact ⟨s', t', by rw [runField, hs, Option.bind_some, hs'],
      by rw [runField, ht, Option.bind_some, ht'], h'⟩

end

/-- **Simulation.** A program within the limits of the five-limb backend runs on both backends
without a fault. Each element it wrote is, in the four-limb run, the canonical residue of the
five-limb one; the zero tests and comparisons agree, and after `secp256k1_fe_normalize` so do the
other tests, the bytes and the storage limbs. -/
theorem field4x64_simulates_field5x52 (kc : Field5x52.KernelChoice) (I : Field4x64.Inner)
    (hI : I.Sound (·.val < p)) (hi : I.SoundInt (·.val < p)) (prog : List FieldInstr)
    (s : FieldState Field5x52.Fe) (t : FieldState Field4x64.Fe) (k : Book)
    (hk : trackField prog Book.empty = some k) :
    ∃ s' t', runField (Field5x52.ops kc.kernel) prog s = some s' ∧
      runField (Field4x64.ops I) prog t = some t' ∧
      (∀ r i, k.fe r = some i →
        (t'.fe r).val = (s'.fe r).val % p ∧
        (Field5x52.ops kc.kernel).normalizesToZero (s'.fe r) =
          (Field4x64.ops I).normalizesToZero (t'.fe r) ∧
        (Field5x52.ops kc.kernel).normalizesToZeroVar (s'.fe r) =
          (Field4x64.ops I).normalizesToZeroVar (t'.fe r) ∧
        ∃ x y, (Field5x52.ops kc.kernel).normalize (s'.fe r) = some x ∧
          (Field4x64.ops I).normalize (t'.fe r) = some y ∧
          (Field5x52.ops kc.kernel).isZero x = (Field4x64.ops I).isZero y ∧
          (Field5x52.ops kc.kernel).isOdd x = (Field4x64.ops I).isOdd y ∧
          (Field5x52.ops kc.kernel).getB32 x = (Field4x64.ops I).getB32 y ∧
          (Field5x52.ops kc.kernel).toStorage x = (Field4x64.ops I).toStorage y) ∧
      (∀ r q i j, k.fe r = some i → k.fe q = some j → i.magnitude ≤ 1 → j.magnitude ≤ 2046 →
        feEqual (Field5x52.ops kc.kernel) (s'.fe r) (s'.fe q) =
          feEqual (Field4x64.ops I) (t'.fe r) (t'.fe q) ∧
        feEqualVar (Field5x52.ops kc.kernel) (s'.fe r) (s'.fe q) =
          feEqualVar (Field4x64.ops I) (t'.fe r) (t'.fe q)) ∧
      ∀ c, k.st c = true → s'.st c = t'.st c := by
  obtain ⟨s', t', hs, ht, h⟩ := runField_sim kc.sound hI hi prog (StateSim.empty s t) hk
  refine ⟨s', t', hs, ht, fun r i hr => ?_, fun r q i j hr hq hi1 hj => ?_,
    fun c hc => (h.st c hc).1⟩
  · have hx := h.fe r i hr
    have hn := hx.normalize
    exact ⟨hx.val, congrArg some hx.normalizesToZero, congrArg some hx.normalizesToZeroVar, _, _,
      rfl, rfl, hn.isZero rfl, hn.isOdd rfl, hn.getB32 rfl, (hn.toStorage rfl).1⟩
  · have hna := ElemSim.negate hI (m := 1) (h.fe r i hr) hi1 (by decide)
    have hsum := ElemSim.add hI hna (h.fe q j hq) (by
      change 2 + j.magnitude ≤ 2048
      omega)
    exact ⟨congrArg some hsum.normalizesToZero, congrArg some hsum.normalizesToZeroVar⟩

/-- `2 * 3`, negated, doubled, moved, stored and read back. -/
def demoProg : List FieldInstr :=
  [.setInt 0 2, .setInt 1 3, .mul 2 0 1, .negate 3 2 1, .mulInt 3 2, .cmov 1 3 1, .normalize 1,
    .toStorage 0 1, .fromStorage 4 0]

theorem field4x64_simulates_field5x52_demo :
    ∃ s' t', runField (Field5x52.ops Field5x52.int128) demoProg
        ⟨fun _ => Field5x52.feClear, fun _ => ⟨0, 0, 0, 0⟩⟩ = some s' ∧
      runField (Field4x64.ops Field4x64.Inner.reference) demoProg
        ⟨fun _ => Field4x64.feClear, fun _ => ⟨0, 0, 0, 0⟩⟩ = some t' ∧
      (t'.fe 4).val = (s'.fe 4).val % p ∧ s'.st 0 = t'.st 0 := by
  obtain ⟨s', t', hs, ht, hfe, -, hst⟩ := field4x64_simulates_field5x52 .portable
    Field4x64.Inner.reference (Field4x64.Inner.reference_sound _)
    (Field4x64.Inner.reference_soundInt _) demoProg
    ⟨fun _ => Field5x52.feClear, fun _ => ⟨0, 0, 0, 0⟩⟩
    ⟨fun _ => Field4x64.feClear, fun _ => ⟨0, 0, 0, 0⟩⟩ _ rfl
  exact ⟨s', t', hs, ht, (hfe 4 ⟨1, true⟩ rfl).1, hst 0 rfl⟩

end Secp256k1
