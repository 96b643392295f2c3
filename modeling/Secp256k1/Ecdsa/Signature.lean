import Secp256k1.Ecdsa.DerLax
import Secp256k1.Ecdsa.DerSerialize
import Secp256k1.Ecdsa.Sign
import Secp256k1.Keys

/-!
# Opaque signatures

The functions of `secp256k1.c` and `modules/recovery/main_impl.h` that read and write signatures,
and `secp256k1_ecdsa_signature_normalize`. `EcdsaValid` is the ECDSA condition, without inversions;
the opposite of `s` meets it when `s` does. `secp256k1_ecdsa_verify` asks for the smaller of the
two.
-/

namespace Secp256k1

section

variable {S : Type} (O : ScalarOps S)

/-- The signature, zero on failure, and the value returned; `w` is the width of `size_t`. -/
def ecdsaSignatureParseDer (w : ℕ) (input : List Byte) : Der.Read (EcdsaSignature S × Bool) := do
  match ← Der.ecdsaSigParse O w input with
  | some (r, s) => return (⟨r, s⟩, true)
  | none => return (⟨O.clear, O.clear⟩, false)

def ecdsaSignatureSerializeDer (output : ℕ → Byte) (outputlen : ℕ) (sig : EcdsaSignature S) :
    Bool × ℕ × (ℕ → Byte) :=
  Der.ecdsaSigSerialize O output outputlen sig.r sig.s

def ecdsaSignatureParseCompact (input64 : Fin (32 + 32) → Byte) : EcdsaSignature S × Bool :=
  let ((r, s), ret) := Der.signatureParseCompact O input64
  (⟨r, s⟩, ret)

def ecdsaSignatureSerializeCompact (sig : EcdsaSignature S) : Fin (32 + 32) → Byte :=
  Fin.append (O.getB32 sig.r) (O.getB32 sig.s)

/-- The signature written, and the value returned. -/
def ecdsaSignatureNormalize (sigin : EcdsaSignature S) : EcdsaSignature S × CInt :=
  let ret := O.isHigh sigin.s
  (⟨sigin.r, if ret ≠ 0 then O.negate sigin.s else sigin.s⟩, ret)

/-- The signature after the call and the value returned; a recovery id out of range leaves what the
memory held. -/
def ecdsaRecoverableSignatureParseCompact (sig : RecoverableSignature S)
    (input64 : Fin (32 + 32) → Byte) (recid : CInt) : RecoverableSignature S × Bool :=
  if 0 ≤ recid.toInt ∧ recid.toInt ≤ 3 then
    let ((r, s), ret) := Der.signatureParseCompact O input64
    (⟨r, s, if ret then recid.setWidth 8 else 0⟩, ret)
  else (sig, false)

def ecdsaRecoverableSignatureSerializeCompact (sig : RecoverableSignature S) :
    (Fin (32 + 32) → Byte) × CInt :=
  (Fin.append (O.getB32 sig.r) (O.getB32 sig.s), sig.recid.setWidth 32)

end

/-! ## The formats -/

section

variable {S : Type} {O : ScalarOps S} {val : S → ℕ} (hO : O.Sound val)

/-- The two halves of a compact signature. -/
def compactR (input64 : Fin (32 + 32) → Byte) : Fin 32 → Byte := fun i => input64 (Fin.castAdd 32 i)

def compactS (input64 : Fin (32 + 32) → Byte) : Fin 32 → Byte := fun i => input64 (Fin.natAdd 32 i)

theorem append_compact (input64 : Fin (32 + 32) → Byte) :
    Fin.append (compactR input64) (compactS input64) = input64 :=
  Fin.append_castAdd_natAdd

theorem compactR_append (r s : Fin 32 → Byte) : compactR (Fin.append r s) = r := by
  funext i
  exact Fin.append_left r s i

theorem compactS_append (r s : Fin 32 → Byte) : compactS (Fin.append r s) = s := by
  funext i
  exact Fin.append_right r s i

include hO

/-- The two numbers of a compact signature are taken if both are below the order. -/
theorem signatureParseCompact_eq (input64 : Fin (32 + 32) → Byte) :
    Der.signatureParseCompact O input64 =
      if Bytes.be (compactR input64) < n ∧ Bytes.be (compactS input64) < n then
        (((O.setB32 (compactR input64)).1, (O.setB32 (compactS input64)).1), true)
      else ((O.clear, O.clear), false) := by
  have hiff : ((O.setB32 (compactR input64)).2 = 0 ∧ (O.setB32 (compactS input64)).2 = 0) ↔
      Bytes.be (compactR input64) < n ∧ Bytes.be (compactS input64) < n :=
    and_congr hO.setB32_fits hO.setB32_fits
  have hmodel : Der.signatureParseCompact O input64 =
      (if (O.setB32 (compactR input64)).2 = 0 ∧ (O.setB32 (compactS input64)).2 = 0 then
        ((O.setB32 (compactR input64)).1, (O.setB32 (compactS input64)).1) else (O.clear, O.clear),
      decide ((O.setB32 (compactR input64)).2 = 0 ∧ (O.setB32 (compactS input64)).2 = 0)) := rfl
  rw [hmodel]
  by_cases h : Bytes.be (compactR input64) < n ∧ Bytes.be (compactS input64) < n
  · rw [if_pos h, if_pos (hiff.mpr h), decide_eq_true (hiff.mpr h)]
  · rw [if_neg h, if_neg (mt hiff.mp h), decide_eq_false (mt hiff.mp h)]

theorem getB32_setB32 {b : Fin 32 → Byte} (h : Bytes.be b < n) : O.getB32 (O.setB32 b).1 = b := by
  apply Bytes.be_inj
  rw [hO.getB32, hO.val_setB32 h]

theorem setB32_getB32 {a : S} (h : val a < n) : (O.setB32 (O.getB32 a)).1 = a := by
  apply hO.val_inj
  rw [hO.val_setB32 (by rwa [hO.getB32]), hO.getB32]

/-- What is accepted is a pair of scalars in range, and the only string for them. -/
theorem signatureParseCompact_accepts {input64 : Fin (32 + 32) → Byte} {r s : S}
    (h : Der.signatureParseCompact O input64 = ((r, s), true)) :
    val r < n ∧ val s < n ∧ Fin.append (O.getB32 r) (O.getB32 s) = input64 := by
  rw [signatureParseCompact_eq hO] at h
  split at h
  · next hlt =>
    cases h
    rw [(hO.setB32 _).1, (hO.setB32 _).1, getB32_setB32 hO hlt.1, getB32_setB32 hO hlt.2]
    exact ⟨Nat.mod_lt _ n_pos, Nat.mod_lt _ n_pos, append_compact input64⟩
  · cases h

theorem signatureParseCompact_append {r s : S} (hr : val r < n) (hs : val s < n) :
    Der.signatureParseCompact O (Fin.append (O.getB32 r) (O.getB32 s)) = ((r, s), true) := by
  have hlt : Bytes.be (O.getB32 r) < n ∧ Bytes.be (O.getB32 s) < n := by
    rw [hO.getB32, hO.getB32]
    exact ⟨hr, hs⟩
  rw [signatureParseCompact_eq hO, compactR_append, compactS_append, if_pos hlt,
    setB32_getB32 hO hr, setB32_getB32 hO hs]

theorem ecdsaSignatureParseCompact_iff {input64 : Fin (32 + 32) → Byte} {sig : EcdsaSignature S} :
    ecdsaSignatureParseCompact O input64 = (sig, true) ↔
      val sig.r < n ∧ val sig.s < n ∧ ecdsaSignatureSerializeCompact O sig = input64 := by
  constructor
  · intro h
    unfold ecdsaSignatureParseCompact at h
    generalize hp : Der.signatureParseCompact O input64 = t at h
    obtain ⟨⟨r, s⟩, ret⟩ := t
    obtain ⟨rfl, hret⟩ := Prod.mk.inj h
    obtain rfl : ret = true := hret
    exact signatureParseCompact_accepts hO hp
  · rintro ⟨hr, hs, rfl⟩
    unfold ecdsaSignatureParseCompact ecdsaSignatureSerializeCompact
    rw [signatureParseCompact_append hO hr hs]

/-- With room for it, what is written is read back. -/
theorem ecdsaSignatureSerializeDer_parse (w : ℕ) {sig : EcdsaSignature S} (hr : val sig.r < n)
    (hs : val sig.s < n) (output : ℕ → Byte) {outputlen : ℕ}
    (hroom : (ecdsaSignatureSerializeDer O output outputlen sig).2.1 ≤ outputlen) :
    ecdsaSignatureParseDer O w
      (Der.written (ecdsaSignatureSerializeDer O output outputlen sig).2.2
        (ecdsaSignatureSerializeDer O output outputlen sig).2.1) = .ok (sig, true) := by
  rw [ecdsaSignatureSerializeDer, Der.ecdsaSigSerialize_size] at hroom ⊢
  obtain ⟨-, hout, -⟩ := Der.ecdsaSigSerialize_room O output outputlen sig.r sig.s hroom
  rw [hout, ecdsaSignatureParseDer, Der.ecdsaSigParse_shortEnc hO hr hs]
  rfl

end

theorem ecdsaSignatureParseDer_parse {S : Type} {O : ScalarOps S} {x : List Byte}
    {sig : EcdsaSignature S} {w : ℕ} (h : ecdsaSignatureParseDer O w x = .ok (sig, true)) :
    Der.ecdsaSigParse O w x = .ok (some (sig.r, sig.s)) := by
  unfold ecdsaSignatureParseDer at h
  generalize Der.ecdsaSigParse O w x = t at h ⊢
  rcases t with e | (_ | ⟨r, s⟩)
  · cases h
  · cases h
  · cases h
    rfl

theorem recid_range {recid : CInt} (h0 : 0 ≤ recid.toInt) (h3 : recid.toInt ≤ 3) :
    (recid.setWidth 8).setWidth 32 = recid ∧ (recid.setWidth 8).toNat < 4 := by
  have hlt : recid.toNat < 4 := by
    rw [BitVec.toInt_eq_toNat_cond] at h0 h3
    split at h0 <;> omega
  bv_omega

theorem recid_widen {recid : Byte} (h : recid.toNat < 4) :
    0 ≤ (recid.setWidth 32 : CInt).toInt ∧ (recid.setWidth 32 : CInt).toInt ≤ 3 ∧
      (recid.setWidth 32 : CInt).setWidth 8 = recid := by
  have hval : (recid.setWidth 32 : CInt).toNat = recid.toNat := by
    rw [BitVec.toNat_setWidth]
    omega
  have hint : (recid.setWidth 32 : CInt).toInt = recid.toNat := by
    rw [BitVec.toInt_eq_toNat_cond, if_pos (by omega), hval]
  refine ⟨by omega, by omega, ?_⟩
  bv_omega

theorem ecdsaRecoverableSignatureParseCompact_iff {S : Type} {O : ScalarOps S} {val : S → ℕ}
    (hO : O.Sound val) {memory : RecoverableSignature S} {input64 : Fin (32 + 32) → Byte}
    {recid : CInt} {sig : RecoverableSignature S} :
    ecdsaRecoverableSignatureParseCompact O memory input64 recid = (sig, true) ↔
      val sig.r < n ∧ val sig.s < n ∧ sig.recid.toNat < 4 ∧
        ecdsaRecoverableSignatureSerializeCompact O sig = (input64, recid) := by
  constructor
  · intro h
    unfold ecdsaRecoverableSignatureParseCompact at h
    split at h
    · next hrange =>
      generalize hp : Der.signatureParseCompact O input64 = t at h
      obtain ⟨⟨r, s⟩, ret⟩ := t
      obtain ⟨rfl, hret⟩ := Prod.mk.inj h
      obtain rfl : ret = true := hret
      obtain ⟨hr, hs, happ⟩ := signatureParseCompact_accepts hO hp
      have hrecid : (recid.setWidth 8).setWidth 32 = recid ∧ (recid.setWidth 8).toNat < 4 :=
        recid_range hrange.1 hrange.2
      refine ⟨hr, hs, hrecid.2, ?_⟩
      rw [ecdsaRecoverableSignatureSerializeCompact]
      exact Prod.ext happ hrecid.1
    · cases h
  · rintro ⟨hr, hs, hlt, heq⟩
    obtain ⟨rfl, rfl⟩ := Prod.mk.inj heq
    obtain ⟨r, s, recid⟩ := sig
    have hrange : 0 ≤ (recid.setWidth 32 : CInt).toInt ∧ (recid.setWidth 32 : CInt).toInt ≤ 3 ∧
        (recid.setWidth 32 : CInt).setWidth 8 = recid := recid_widen hlt
    unfold ecdsaRecoverableSignatureParseCompact
    rw [if_pos ⟨hrange.1, hrange.2.1⟩]
    simp only [signatureParseCompact_append hO hr hs, if_true, hrange.2.2]

/-- The compact formats are in one-to-one correspondence with the signatures whose scalars are in
range, the recoverable one with those that have a recovery id below 4 besides; whatever the DER
parser accepts, at any length and for any width of `size_t`, is in range too, so that it can be
written in the compact format and in DER and read back, in DER in no more bytes than it came in. -/
theorem ecdsaSignature_formats (c : ScalarBackend) :
    (∀ input64 sig, ecdsaSignatureParseCompact c.ops input64 = (sig, true) ↔
      c.val sig.r < n ∧ c.val sig.s < n ∧ ecdsaSignatureSerializeCompact c.ops sig = input64) ∧
    (∀ memory input64 recid sig,
      ecdsaRecoverableSignatureParseCompact c.ops memory input64 recid = (sig, true) ↔
        c.val sig.r < n ∧ c.val sig.s < n ∧ sig.recid.toNat < 4 ∧
          ecdsaRecoverableSignatureSerializeCompact c.ops sig = (input64, recid)) ∧
    ∀ w x sig, ecdsaSignatureParseDer c.ops w x = .ok (sig, true) →
      ecdsaSignatureParseCompact c.ops (ecdsaSignatureSerializeCompact c.ops sig) = (sig, true) ∧
      ∀ output outputlen,
        (ecdsaSignatureSerializeDer c.ops output outputlen sig).2.1 ≤ x.length ∧
        (ecdsaSignatureSerializeDer c.ops output outputlen sig).2.1 ≤ 72 ∧
        ((ecdsaSignatureSerializeDer c.ops output outputlen sig).2.1 ≤ outputlen →
          ecdsaSignatureParseDer c.ops w
            (Der.written (ecdsaSignatureSerializeDer c.ops output outputlen sig).2.2
              (ecdsaSignatureSerializeDer c.ops output outputlen sig).2.1) = .ok (sig, true)) := by
  refine ⟨fun input64 sig => ecdsaSignatureParseCompact_iff c.sound,
    fun memory input64 recid sig => ecdsaRecoverableSignatureParseCompact_iff c.sound,
    fun w x sig h => ?_⟩
  have hparse := ecdsaSignatureParseDer_parse h
  obtain ⟨hr, hs⟩ := Der.ecdsaSigParse_range c.sound hparse
  refine ⟨(ecdsaSignatureParseCompact_iff c.sound).mpr ⟨hr, hs, rfl⟩, fun output outputlen =>
    ⟨?_, ?_, ecdsaSignatureSerializeDer_parse c.sound w hr hs output⟩⟩
  · rw [ecdsaSignatureSerializeDer, Der.ecdsaSigSerialize_size]
    exact Der.length_shortEnc_le c.sound hparse
  · rw [ecdsaSignatureSerializeDer, Der.ecdsaSigSerialize_size]
    exact Der.length_shortEnc_le_72 c.sound sig.r sig.s

/-- The scalars 1 and 2 in the compact format, and in DER with a length in long form: they are
written in DER in 8 bytes and read back. -/
theorem ecdsaSignature_formats_demo :
    let sig : EcdsaSignature ScalarBackend.limbs4x64.Scalar :=
      ⟨ScalarBackend.limbs4x64.ops.setInt 1, ScalarBackend.limbs4x64.ops.setInt 2⟩
    let out := ecdsaSignatureSerializeDer ScalarBackend.limbs4x64.ops (fun _ => 0) 8 sig
    ecdsaSignatureParseCompact ScalarBackend.limbs4x64.ops
        (ecdsaSignatureSerializeCompact ScalarBackend.limbs4x64.ops sig) = (sig, true) ∧
      ecdsaSignatureParseDer ScalarBackend.limbs4x64.ops 64
        [0x30, 0x81, 0x06, 0x02, 0x01, 0x01, 0x02, 0x01, 0x02] = .ok (sig, true) ∧
      ecdsaSignatureParseDer ScalarBackend.limbs4x64.ops 64 (Der.written out.2.2 out.2.1) =
        .ok (sig, true) := by
  intro sig out
  have hint : ∀ b : Byte, Der.IntEnc [b] [0x02, 0x01, b] := fun b =>
    ⟨[0x01], .short 0x01 (by decide), List.cons_ne_nil _ _, trivial, rfl⟩
  have henc : Der.SigEnc [0x01] [0x02] [0x30, 0x81, 0x06, 0x02, 0x01, 0x01, 0x02, 0x01, 0x02] :=
    ⟨[0x81, 0x06], [0x02, 0x01, 0x01], [0x02, 0x01, 0x02], hint 0x01, hint 0x02,
      .long [0x06] (by decide) (by decide), rfl⟩
  obtain ⟨r, s, hparse, hr, hs⟩ := Der.ecdsaSigParse_complete ScalarBackend.limbs4x64.sound
    (w := 64) (by norm_num) henc (by decide)
  obtain rfl : r = ScalarBackend.limbs4x64.ops.setInt 1 :=
    ScalarBackend.limbs4x64.sound.val_inj _ _ (hr.trans (by decide))
  obtain rfl : s = ScalarBackend.limbs4x64.ops.setInt 2 :=
    ScalarBackend.limbs4x64.sound.val_inj _ _ (hs.trans (by decide))
  have hder : ecdsaSignatureParseDer ScalarBackend.limbs4x64.ops 64
      [0x30, 0x81, 0x06, 0x02, 0x01, 0x01, 0x02, 0x01, 0x02] = .ok (sig, true) := by
    rw [ecdsaSignatureParseDer, hparse]
    rfl
  obtain ⟨hcompact, hserialize⟩ := (ecdsaSignature_formats .limbs4x64).2.2 64 _ sig hder
  exact ⟨hcompact, hder, (hserialize (fun _ => 0) 8).2.2 (by decide)⟩

/-! ## The ECDSA condition -/

/-- Both scalars are in range, and `s R = m G + r Q` for a point `R` whose x coordinate is `r`
modulo the order. -/
def EcdsaValid (Q : Point) (m r s : ℕ) : Prop :=
  (0 < r ∧ r < n) ∧ (0 < s ∧ s < n) ∧
    ∃ R : Point, R ≠ 0 ∧ xVal R % n = r ∧ s • R = m • generator + r • Q

theorem xVal_neg (R : Point) : xVal (-R) = xVal R := by
  cases R with
  | zero => rfl
  | some x y h => rfl

/-- The equation with an inverse of `s`. -/
theorem smul_eq_iff {s sn m r : ℕ} (h : s * sn % n = 1) (R Q : Point) :
    s • R = m • generator + r • Q ↔ (sn * r % n) • Q + (sn * m % n) • generator = R := by
  have hinv : ∀ P : Point, (s * sn) • P = P := fun P => by
    rw [← mod_smul, h, one_nsmul]
  rw [mod_smul, mod_smul]
  constructor
  · intro heq
    calc (sn * r) • Q + (sn * m) • generator = sn • (m • generator + r • Q) := by
          rw [nsmul_add, ← mul_nsmul', ← mul_nsmul', add_comm]
      _ = (s * sn) • R := by rw [← heq, mul_nsmul]
      _ = R := hinv R
  · rintro rfl
    calc s • ((sn * r) • Q + (sn * m) • generator) =
        (s * sn) • r • Q + (s * sn) • m • generator := by
          rw [nsmul_add, ← mul_nsmul', ← mul_nsmul', ← mul_nsmul', ← mul_nsmul', mul_assoc,
            mul_assoc]
      _ = m • generator + r • Q := by rw [hinv, hinv, add_comm]

/-- The opposite of `s` gives another signature. -/
theorem EcdsaValid.negate {Q : Point} {m r s : ℕ} (h : EcdsaValid Q m r s) :
    EcdsaValid Q m r (n - s) := by
  obtain ⟨hr, ⟨hs0, hsn⟩, R, hR, hx, heq⟩ := h
  refine ⟨hr, ⟨by omega, by omega⟩, -R, neg_ne_zero.mpr hR, ?_, ?_⟩
  · rwa [xVal_neg]
  · rw [← heq, ← mod_smul, neg_smul_eq hsn.le, smul_neg, neg_neg]

theorem ecdsaValid_negate {Q : Point} {m r s : ℕ} (hs : s ≤ n) :
    EcdsaValid Q m r (n - s) ↔ EcdsaValid Q m r s := by
  constructor
  · intro h
    have h' := h.negate
    rwa [Nat.sub_sub_self hs] at h'
  · exact EcdsaValid.negate

section

variable {S : Type} {O : ScalarOps S} {val : S → ℕ} (hO : O.Sound val) {sig : EcdsaSignature S}
  (hs : val sig.s < n)
include hO hs

/-- The smaller of the two, and whether it is another one. -/
theorem ecdsaSignatureNormalize_spec :
    (ecdsaSignatureNormalize O sig).1.r = sig.r ∧
      val (ecdsaSignatureNormalize O sig).1.s =
        (if n / 2 < val sig.s then n - val sig.s else val sig.s) ∧
      ((ecdsaSignatureNormalize O sig).2 ≠ 0 ↔ n / 2 < val sig.s) := by
  have hhigh : O.isHigh sig.s ≠ 0 ↔ n / 2 < val sig.s := hO.isHigh_ne_zero
  unfold ecdsaSignatureNormalize
  refine ⟨rfl, ?_, hhigh⟩
  by_cases h : n / 2 < val sig.s
  · rw [if_pos h]
    simp only [if_pos (hhigh.mpr h)]
    rw [hO.negate _ hs, Nat.mod_eq_of_lt (by omega)]
  · rw [if_neg h]
    simp only [if_neg (mt hhigh.mp h)]

theorem ecdsaSignatureNormalize_low :
    val (ecdsaSignatureNormalize O sig).1.s < n ∧
      val (ecdsaSignatureNormalize O sig).1.s ≤ n / 2 := by
  obtain ⟨-, hval, -⟩ := ecdsaSignatureNormalize_spec hO hs
  have hodd : n = 2 * (n / 2) + 1 := by decide
  rw [hval]
  split <;> omega

/-- Normalizing does not change what a signature is valid for. -/
theorem ecdsaSignatureNormalize_valid {Q : Point} {m : ℕ} :
    EcdsaValid Q m (val (ecdsaSignatureNormalize O sig).1.r)
        (val (ecdsaSignatureNormalize O sig).1.s) ↔ EcdsaValid Q m (val sig.r) (val sig.s) := by
  obtain ⟨hr, hval, -⟩ := ecdsaSignatureNormalize_spec hO hs
  rw [hr, hval]
  split
  · exact ecdsaValid_negate hs.le
  · exact Iff.rfl

/-- There is nothing left to normalize. -/
theorem ecdsaSignatureNormalize_idem :
    ecdsaSignatureNormalize O (ecdsaSignatureNormalize O sig).1 =
      ((ecdsaSignatureNormalize O sig).1, 0) := by
  obtain ⟨-, hlow⟩ := ecdsaSignatureNormalize_low hO hs
  generalize (ecdsaSignatureNormalize O sig).1 = sig' at hlow ⊢
  rw [ecdsaSignatureNormalize, hO.isHigh_eq_zero.mpr hlow]
  rfl

end

/-! ## Verification -/

section

variable (kc : Field5x52.KernelChoice) {c : ScalarBackend}

theorem candidate_iff_5x52 {r : c.Scalar} (hr : c.val r < n) {v : ZMod p} :
    (∃ second, Candidate (.limbs5x52 kc) c r second v) ↔ v.val % n = c.val r := by
  rw [mod_order_iff (ZMod.val_lt v) hr, ← natCast_lt_iff (hr.trans n_lt_p), ← natCast_add_order,
    ← belowDifference_5x52 kc hr]
  constructor
  · rintro ⟨second, ⟨-, h⟩ | ⟨-, h⟩⟩
    · exact .inl h
    · exact .inr h
  · rintro (h | h)
    · exact ⟨False, .inl ⟨not_false, h⟩⟩
    · exact ⟨True, .inr ⟨trivial, h⟩⟩

variable {g : Gmp} (hg : g.Sound)
  {ecmult : Gej (FieldBackend.limbs5x52 kc).Fe → c.Scalar → c.Scalar →
    Option (Gej (FieldBackend.limbs5x52 kc).Fe)}
  (hec : (FieldBackend.limbs5x52 kc).EcmultSpec c ecmult)
include hg hec

/-- The verifier decides the ECDSA condition. -/
theorem ecdsaSigVerify_valid {r s m : c.Scalar} (hr : c.val r < n) (hs : c.val s < n)
    {q : Ge (FieldBackend.limbs5x52 kc).Fe} {x y : ZMod p}
    (hq : (FieldBackend.limbs5x52 kc).AffineOf q x y) :
    Yields (ecdsaSigVerify (FieldBackend.limbs5x52 kc).ops c.ops g ecmult r s q m) fun ok =>
      ok = true ↔ EcdsaValid hq.point.point (c.val m) (c.val r) (c.val s) := by
  by_cases h0 : c.val r = 0 ∨ c.val s = 0
  · have hzero : (c.ops.isZero r || c.ops.isZero s) = true := by
      rw [c.sound.isZero, c.sound.isZero, Bool.or_eq_true, decide_eq_true_iff, decide_eq_true_iff]
      exact h0
    rw [ecdsaSigVerify, if_pos hzero]
    refine .some (iff_of_false Bool.false_ne_true fun h => ?_)
    obtain ⟨⟨hr0, -⟩, ⟨hs0, -⟩, -⟩ := h
    omega
  · obtain ⟨hr0, hs0⟩ := not_or.mp h0
    obtain ⟨sn, hsn, hver⟩ := ecdsaSigVerify_spec (m := m) (FieldBackend.sound_5x52 kc) hg hec
      (Nat.pos_of_ne_zero hr0) hr (Nat.pos_of_ne_zero hs0) hs hq
    refine hver.mono fun ok hok => hok.trans ⟨?_, ?_⟩
    · rintro ⟨v, w, h, hcand, heq⟩
      refine ⟨⟨Nat.pos_of_ne_zero hr0, hr⟩, ⟨Nat.pos_of_ne_zero hs0, hs⟩, h.point,
        WeierstrassCurve.Affine.Point.some_ne_zero _, ?_, (smul_eq_iff hsn _ _).mpr heq⟩
      exact (candidate_iff_5x52 kc hr).mp hcand
    · rintro ⟨-, -, R, hR, hx, heq⟩
      cases R with
      | zero => exact absurd rfl hR
      | some v w hvw =>
        exact ⟨v, w, nonsingular_iff.mp hvw, (candidate_iff_5x52 kc hr).mpr hx,
          (smul_eq_iff hsn _ _).mp heq⟩

theorem ecdsaVerify_valid {sig : EcdsaSignature c.Scalar} (hr : c.val sig.r < n)
    (hs : c.val sig.s < n) (msg32 : Fin 32 → Byte) {pubkey : GeStorage} {Q : Point}
    (hkey : StoredAt Q pubkey) :
    Yields (ecdsaVerify (FieldBackend.limbs5x52 kc).ops c.ops g ecmult sig msg32 pubkey) fun ok =>
      ok = true ↔
        EcdsaValid Q (Bytes.be msg32 % n) (c.val sig.r) (c.val sig.s) ∧ c.val sig.s ≤ n / 2 := by
  obtain ⟨x, y, hof, rfl⟩ := hkey.keyOf
  obtain ⟨hq, hok⟩ := hof.load (FieldBackend.sound_5x52 kc)
  have hmsg := (c.sound.setB32 msg32).1
  unfold ecdsaVerify
  by_cases hhigh : n / 2 < c.val sig.s
  · simp only [if_pos (c.sound.isHigh_ne_zero.mpr hhigh)]
    exact .some (iff_of_false Bool.false_ne_true fun h => absurd h.2 (not_le.mpr hhigh))
  · have heq := c.sound.isHigh_eq_zero.mpr (not_lt.mp hhigh)
    simp only [heq, ne_eq, not_true_eq_false, if_false, hok, Bool.not_true, Bool.false_eq_true]
    refine (ecdsaSigVerify_valid kc hg hec hr hs hq).mono fun ok hok => hok.trans ?_
    rw [hmsg]
    exact (and_iff_left (not_lt.mp hhigh)).symm

end

/-- On the five-limb backend, with the table as it is built, for every key on the curve and every
signature of two scalars in range: the verifier accepts exactly the signatures that are valid and
have the smaller `s`; behind the normalization, which leaves a normalized signature as it is, it
accepts exactly the valid ones. -/
theorem ecdsaVerify_normalize (kc : Field5x52.KernelChoice) (c : ScalarBackend) {g : Gmp}
    (hg : g.Sound) {tmem : TableMemory (FieldBackend.limbs5x52 kc).Fe}
    {prea : ℕ → Ge (FieldBackend.limbs5x52 kc).Fe} {pre preG : ℕ → GeStorage}
    (hpre : ecmultContextBuild (FieldBackend.limbs5x52 kc).ops tmem prea pre = some preG)
    (mem : EcmultMemory (FieldBackend.limbs5x52 kc).Fe) {sig : EcdsaSignature c.Scalar}
    (hr : c.val sig.r < n) (hs : c.val sig.s < n) (msg32 : Fin 32 → Byte) {pubkey : GeStorage}
    {Q : Point} (hkey : StoredAt Q pubkey) :
    Yields (ecdsaVerify (FieldBackend.limbs5x52 kc).ops c.ops g
        (ecmult (FieldBackend.limbs5x52 kc).ops c.ops preG mem) sig msg32 pubkey) (fun ok =>
      ok = true ↔
        EcdsaValid Q (Bytes.be msg32 % n) (c.val sig.r) (c.val sig.s) ∧ c.val sig.s ≤ n / 2) ∧
    Yields (ecdsaVerify (FieldBackend.limbs5x52 kc).ops c.ops g
        (ecmult (FieldBackend.limbs5x52 kc).ops c.ops preG mem)
        (ecdsaSignatureNormalize c.ops sig).1 msg32 pubkey) (fun ok =>
      ok = true ↔ EcdsaValid Q (Bytes.be msg32 % n) (c.val sig.r) (c.val sig.s)) ∧
    ((ecdsaSignatureNormalize c.ops sig).2 ≠ 0 ↔ n / 2 < c.val sig.s) ∧
    ecdsaSignatureNormalize c.ops (ecdsaSignatureNormalize c.ops sig).1 =
      ((ecdsaSignatureNormalize c.ops sig).1, 0) := by
  have hb := FieldBackend.sound_5x52 kc
  have hec := FieldBackend.ecmultSpec_of_built hb (FieldBackend.soundInt_5x52 kc) c hpre mem
  obtain ⟨hr', -, hret⟩ := ecdsaSignatureNormalize_spec c.sound hs
  obtain ⟨hlt, hlow⟩ := ecdsaSignatureNormalize_low c.sound hs
  refine ⟨ecdsaVerify_valid kc hg hec hr hs msg32 hkey, ?_, hret,
    ecdsaSignatureNormalize_idem c.sound hs⟩
  refine (ecdsaVerify_valid kc hg hec (hr' ▸ hr) hlt msg32 hkey).mono fun ok hok => hok.trans ?_
  rw [ecdsaSignatureNormalize_valid c.sound hs]
  exact and_iff_left hlow

/-- The signature `(1, n - 1)` of the message 0 and the generator for the key: it is not normalized,
so that it is refused. -/
theorem ecdsaVerify_normalize_demo :
    ∃ preG, ∀ mem,
      ecdsaVerify (FieldBackend.limbs5x52 (.asm .jwasm)).ops ScalarBackend.limbs8x32.ops .reference
        (ecmult (FieldBackend.limbs5x52 (.asm .jwasm)).ops ScalarBackend.limbs8x32.ops preG mem)
        ⟨ScalarBackend.limbs8x32.ops.setInt 1,
          ScalarBackend.limbs8x32.ops.negate (ScalarBackend.limbs8x32.ops.setInt 1)⟩
        (fun _ => 0) generatorKey = some false := by
  obtain ⟨preG, hpre⟩ := FieldBackend.exists_ecmultContext (.asm .jwasm)
  have h1 : ScalarBackend.limbs8x32.val (ScalarBackend.limbs8x32.ops.setInt 1) = 1 :=
    ScalarBackend.limbs8x32.sound.setInt 1
  have h1n : ScalarBackend.limbs8x32.val (ScalarBackend.limbs8x32.ops.setInt 1) < n := by
    rw [h1]
    exact n_prime.one_lt
  have hs : ScalarBackend.limbs8x32.val
      (ScalarBackend.limbs8x32.ops.negate (ScalarBackend.limbs8x32.ops.setInt 1)) = n - 1 := by
    rw [ScalarBackend.limbs8x32.sound.negate _ h1n, h1]
    exact Nat.mod_eq_of_lt (Nat.sub_lt n_pos Nat.one_pos)
  obtain ⟨sig, hsig⟩ : ∃ sig : EcdsaSignature ScalarBackend.limbs8x32.Scalar,
      sig = ⟨ScalarBackend.limbs8x32.ops.setInt 1,
        ScalarBackend.limbs8x32.ops.negate (ScalarBackend.limbs8x32.ops.setInt 1)⟩ := ⟨_, rfl⟩
  have hr : ScalarBackend.limbs8x32.val sig.r < n := by rwa [hsig]
  have hs' : ScalarBackend.limbs8x32.val sig.s = n - 1 := by rw [hsig, hs]
  refine ⟨preG, fun mem => ?_⟩
  obtain ⟨⟨ok, hver, hok⟩, -⟩ := ecdsaVerify_normalize (.asm .jwasm) .limbs8x32 Gmp.reference_sound
    hpre mem hr (hs'.trans_lt (Nat.sub_lt n_pos Nat.one_pos)) (fun _ => 0) storedAt_generatorKey
  obtain rfl : ok = false := Bool.eq_false_iff.mpr fun h => by
    have hlow := (hok.mp h).2
    rw [hs'] at hlow
    exact absurd hlow (by decide)
  rw [← hsig]
  exact hver

end Secp256k1
