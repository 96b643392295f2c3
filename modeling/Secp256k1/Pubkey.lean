import Secp256k1.Eckey
import Secp256k1.Group.Quad

/-!
# Opaque public keys

`secp256k1.c`: `secp256k1_pubkey` holds the 64 bytes of a `secp256k1_ge_storage`, copied with
`memcpy`, so that it is modelled by the structure itself. `KeyOf` relates it to the point.
-/

namespace Secp256k1

section

variable {F S : Type} (B : FieldOps F) (O : ScalarOps S)

/-- The point, and the value returned; at 0 the illegal argument callback has been called. -/
def pubkeyLoad (pubkey : GeStorage) : Ge F × Bool :=
  let ge := geFromStorage B pubkey
  (ge, !B.isZero ge.x)

def pubkeySave (ge : Ge F) : Option GeStorage := geToStorage B ge

/-- A key that has been cleared. -/
def zeroPubkey : GeStorage := ⟨⟨0, 0, 0, 0⟩, ⟨0, 0, 0, 0⟩⟩

/-- The key, or `none` for the return value 0. -/
def ecPubkeyCreate (ecmultGen : S → Option (Gej F)) (seckey : Fin 32 → Byte) :
    Option (Option GeStorage) :=
  let (sec, overflow) := O.setB32 seckey
  if overflow = 0 ∧ !O.isZero sec then do
    let pj ← ecmultGen sec
    let (p, _) ← geSetGej B pj
    let pubkey ← pubkeySave B p
    return some pubkey
  else some none

end

/-- The opaque key of the point `(x, y)`. -/
structure KeyOf (pubkey : GeStorage) (x y : ZMod p) : Prop where
  point : OnCurve x y
  x_val : pubkey.x.val = x.val
  y_val : pubkey.y.val = y.val

theorem KeyOf.unique {pubkey pubkey' : GeStorage} {x y : ZMod p} (h : KeyOf pubkey x y)
    (h' : KeyOf pubkey' x y) : pubkey = pubkey' := by
  obtain ⟨px, py⟩ := pubkey
  obtain ⟨px', py'⟩ := pubkey'
  obtain rfl : px = px' := FeStorage.val_inj (h.x_val.trans h'.x_val.symm)
  obtain rfl : py = py' := FeStorage.val_inj (h.y_val.trans h'.y_val.symm)
  rfl

/-- The generator as a public key. -/
def generatorKey : GeStorage :=
  ⟨⟨0x59F2815B16F81798, 0x029BFCDB2DCE28D9, 0x55A06295CE870B07, 0x79BE667EF9DCBBAC⟩,
    ⟨0x9C47D08FFB10D4B8, 0xFD17B448A6855419, 0x5DA4FBFC0E1108A8, 0x483ADA7726A3C465⟩⟩

theorem keyOf_generatorKey : KeyOf generatorKey generatorX generatorY where
  point := onCurve_generator
  x_val := by
    rw [ZMod.val_natCast_of_lt (by decide)]
    decide
  y_val := by
    rw [ZMod.val_natCast_of_lt (by decide)]
    decide

/-- No point has the x coordinate 0: the symbol of 7 is -1. -/
theorem OnCurve.x_ne_zero {x y : ZMod p} (h : OnCurve x y) : x ≠ 0 := by
  rintro rfl
  have hsq : IsSquare ((7 : ℤ) : ZMod p) := ⟨y, by rw [h]; norm_num⟩
  refine ZMod.nonsquare_of_jacobiSym_eq_neg_one ?_ hsq
  unfold p
  norm_num

/-- A nonce, or a secret key, that is taken. -/
def Usable (nonce : Fin 32 → Byte) : Prop := 0 < Bytes.be nonce ∧ Bytes.be nonce < n

theorem usable_numGetBin {d : ℕ} (h0 : 0 < d) (hn : d < n) : Usable (numGetBin d) := by
  rw [Usable, be_numGetBin (hn.trans n_lt)]
  exact ⟨h0, hn⟩

theorem not_usable_zero : ¬ Usable (numGetBin 0) := by
  rw [Usable, be_numGetBin (by norm_num)]
  exact fun h => absurd h.1 (lt_irrefl 0)

theorem usable_iff {S : Type} {O : ScalarOps S} {val : S → ℕ} (hO : O.Sound val)
    (nonce : Fin 32 → Byte) :
    ((O.setB32 nonce).2 = 0 ∧ (!O.isZero (O.setB32 nonce).1) = true) ↔ Usable nonce := by
  rw [hO.setB32_fits, hO.isZero, Bool.not_eq_true', decide_eq_false_iff_not]
  constructor
  · rintro ⟨hlt, h0⟩
    rw [hO.val_setB32 hlt] at h0
    exact ⟨Nat.pos_of_ne_zero h0, hlt⟩
  · rintro ⟨h0, hlt⟩
    rw [hO.val_setB32 hlt]
    exact ⟨hlt, h0.ne'⟩

theorem ecPubkeyCreate_invalid {F S : Type} {B : FieldOps F} {O : ScalarOps S} {val : S → ℕ}
    (hO : O.Sound val) {ecmultGen : S → Option (Gej F)} {seckey : Fin 32 → Byte}
    (h : ¬ Usable seckey) : ecPubkeyCreate B O ecmultGen seckey = some none := by
  rw [ecPubkeyCreate]
  exact if_neg (mt (usable_iff hO seckey).mp h)

theorem usable_smul_ne_zero {nonce : Fin 32 → Byte} (h : Usable nonce) :
    Bytes.be nonce • generator ≠ 0 := fun h0 =>
  absurd (Nat.le_of_dvd h.1 ((smul_eq_zero_iff generator_ne_zero).mp h0)) (not_le.mpr h.2)

/-- The compressed encoding of the point `(x, y)`. -/
def compressedKey (x y : ZMod p) : List Byte :=
  (if y.val % 2 = 1 then 0x03 else 0x02) :: List.ofFn (numGetBin x.val)

def uncompressedKey (x y : ZMod p) : List Byte :=
  0x04 :: (List.ofFn (numGetBin x.val) ++ List.ofFn (numGetBin y.val))

/-- The encoding of `(x, y)` in the form asked for. -/
def encodedKey (compressed : Bool) (x y : ZMod p) : List Byte :=
  if compressed then compressedKey x y else uncompressedKey x y

theorem length_encodedKey (compressed : Bool) (x y : ZMod p) :
    (encodedKey compressed x y).length = if compressed then 33 else 65 := by
  cases compressed with
  | true => exact (List.length_cons ..).trans (by rw [List.length_ofFn]; rfl)
  | false =>
    refine (List.length_cons ..).trans ?_
    rw [List.length_append, List.length_ofFn, List.length_ofFn]
    rfl

section

variable {F : Type} {B : FieldOps F} (M : FieldValues B) {m k : ℕ} {x y : ZMod p}

theorem getB32_eq {v : ZMod p} {a : F} (h : M.norm v a) : B.getB32 a = numGetBin v.val := by
  apply Bytes.be_inj
  rw [M.getB32 h, be_numGetBin_val]

theorem pubkeyLoad_spec {pubkey : GeStorage} (h : KeyOf pubkey x y) :
    M.norm x (pubkeyLoad B pubkey).1.x ∧ M.norm y (pubkeyLoad B pubkey).1.y ∧
      (pubkeyLoad B pubkey).1.infinity = false ∧ (pubkeyLoad B pubkey).2 = true := by
  have hx := M.fromStorage_norm h.x_val
  refine ⟨hx, M.fromStorage_norm h.y_val, rfl, ?_⟩
  have hzero := M.zero_iff.mp (M.isZero hx)
  rw [pubkeyLoad, Bool.not_eq_true', ← Bool.not_eq_true]
  exact fun h0 => h.point.x_ne_zero (hzero.mp h0)

theorem pubkeySave_spec {ge : Ge F} (h : OnCurve x y) (hx : M.rep m x ge.x) (hy : M.rep k y ge.y)
    (hm : m ≤ 32) (hk : k ≤ 32) : Yields (pubkeySave B ge) fun pubkey => KeyOf pubkey x y := by
  refine (M.normalize hm hx).bind fun x' hx' => ?_
  refine (M.normalize hk hy).bind fun y' hy' => ?_
  exact .pure ⟨h, M.toStorage_val hx', M.toStorage_val hy'⟩

theorem eckeyPubkeySerialize_spec {q : Ge F} (hinf : q.infinity = false) (hx : M.rep m x q.x)
    (hy : M.rep k y q.y) (hm : m ≤ 32) (hk : k ≤ 32) (compressed : Bool) :
    Yields (eckeyPubkeySerialize B q compressed) fun o =>
      ∃ q', o = some (q', encodedKey compressed x y) ∧
        M.norm x q'.x ∧ M.norm y q'.y ∧ q'.infinity = false := by
  rw [eckeyPubkeySerialize, hinf, if_neg Bool.false_ne_true]
  refine (M.normalizeVar hm hx).bind fun x' hx' => ?_
  refine (M.normalizeVar hk hy).bind fun y' hy' => ?_
  refine .pure ⟨⟨x', y', false⟩, ?_, hx', hy', rfl⟩
  rw [encodedKey, compressedKey, uncompressedKey, getB32_eq M hx', getB32_eq M hy',
    if_congr (M.isOdd hy') rfl rfl]

end

theorem KeyOf.load {b : FieldBackend} (hb : b.Sound) {pubkey : GeStorage} {x y : ZMod p}
    (h : KeyOf pubkey x y) :
    b.AffineOf (pubkeyLoad b.ops pubkey).1 x y ∧ (pubkeyLoad b.ops pubkey).2 = true := by
  obtain ⟨hx, hy, hinf, hok⟩ := pubkeyLoad_spec (b.values hb) h
  exact ⟨FieldBackend.affineOf_of_raw hb hinf h.point
    (FieldModel.raw8 ((b.values hb).rep_of_norm hx) (by norm_num))
    (FieldModel.raw8 ((b.values hb).rep_of_norm hy) (by norm_num)), hok⟩

section

variable {b : FieldBackend} (hb : b.Sound) {c : ScalarBackend}
  {ecmultGen : c.Scalar → Option (Gej b.Fe)} (hgen : b.EcmultGenSpec c ecmultGen)
include hb hgen

/-- A multiple of the generator, in affine coordinates. -/
theorem genAffine_spec {β : Type} {f : Ge b.Fe × Gej b.Fe → Option β} {R : β → Prop} {k : c.Scalar}
    (h0 : 0 < c.val k) (hn : c.val k < n)
    (hf : ∀ q x y (h : OnCurve x y), h.point = c.val k • generator → q.1.infinity = false →
      (b.values hb).rep 1 x q.1.x → (b.values hb).rep 1 y q.1.y → Yields (f q) R) :
    Yields (ecmultGen k >>= fun pj => geSetGej b.ops pj >>= f) R := by
  refine (hgen k hn).bind fun pj hpj => ?_
  have hne : c.val k • generator ≠ 0 := fun h =>
    absurd (Nat.le_of_dvd h0 ((smul_eq_zero_iff generator_ne_zero).mp h)) (not_le.mpr hn)
  generalize hP : c.val k • generator = P at hpj hne hf
  cases P with
  | zero => exact absurd rfl hne
  | some x y hxy =>
    obtain ⟨hj, hx, hy, hz⟩ := hpj
    refine (geSetGej_spec (b.values hb).toFieldModel hj.z_ne
      (FieldBackend.raw_of_reduced hb hx hj.x_eq) (FieldBackend.raw_of_reduced hb hy hj.y_eq)
      (FieldBackend.raw_of_reduced hb hz rfl)).bind fun q hq => ?_
    exact hf q x y hj.point rfl (hq.1.trans hj.finite) hq.2.1 hq.2.2.1

theorem ecPubkeyCreate_spec {seckey : Fin 32 → Byte} (h0 : 0 < Bytes.be seckey)
    (hn : Bytes.be seckey < n) :
    Yields (ecPubkeyCreate b.ops c.ops ecmultGen seckey) fun o =>
      ∃ pubkey x y, ∃ h : KeyOf pubkey x y, o = some pubkey ∧
        h.point.point = Bytes.be seckey • generator := by
  have hsec := c.sound.val_setB32 hn
  have hok := (usable_iff c.sound seckey).mpr ⟨h0, hn⟩
  unfold ecPubkeyCreate
  generalize c.ops.setB32 seckey = r at hsec hok ⊢
  obtain ⟨sec, overflow⟩ := r
  simp only [if_pos hok]
  refine genAffine_spec hb hgen (hsec ▸ h0) (hsec ▸ hn) fun q x y h hp _ hx hy => ?_
  refine (pubkeySave_spec (b.values hb) h hx hy (by norm_num) (by norm_num)).bind fun pk hpk => ?_
  exact .pure ⟨pk, x, y, hpk, rfl, by rw [← hsec, ← hp]⟩

end

end Secp256k1
