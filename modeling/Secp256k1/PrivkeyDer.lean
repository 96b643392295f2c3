import Secp256k1.PubkeyFormats
import Secp256k1.Ecdsa.DerSpec

/-!
# Secret keys in DER

`lax_der_privatekey_parsing.c`: the export of a secret key with its public key, and the lax import,
which reads no further than the secret key. Reads are checked as in the signature parser.
-/

namespace Secp256k1.Der

/-- The tag and the length of the sequence: the bytes after them, or `none` for the return
value 0. -/
def privkeyHeader (l : List Byte) : Read (Option (List Byte)) :=
  if l.length < 1 then .ok none
  else do
    let tag ← peek l 0
    let l := l.drop 1
    if tag ≠ 0x30 ∨ l.length < 1 then return none
    else
      let b ← peek l 0
      let lenb := (b &&& ~~~0x80).toNat
      let l := l.drop 1
      if b &&& 0x80 = 0 ∨ lenb < 1 ∨ lenb > 2 ∨ l.length < lenb then return none
      else
        let lo ← peek l (lenb - 1)
        let hi ← if lenb > 1 then peek l (lenb - 2) else .ok 0
        let len : BitVec 32 := lo.setWidth 32 ||| hi.setWidth 32 <<< 8
        let l := l.drop lenb
        if l.length < len.toNat then return none else return some l

/-- The version and the octets of the secret key, at most 32. -/
def privkeyElements (l : List Byte) : Read (Option (List Byte)) :=
  if l.length < 3 then .ok none
  else do
    let b0 ← peek l 0
    let b1 ← peek l 1
    let b2 ← peek l 2
    let l := l.drop 3
    if b0 ≠ 0x02 ∨ b1 ≠ 0x01 ∨ b2 ≠ 0x01 ∨ l.length < 2 then return none
    else
      let tag ← peek l 0
      let len ← peek l 1
      if tag ≠ 0x04 ∨ len.toNat > 0x20 ∨ l.length < 2 + len.toNat then return none
      else
        let key ← readBytes (l.drop 2) len.toNat
        return some key

section

variable {F S : Type} (B : FieldOps F) (O : ScalarOps S)

/-- The secret key, zero on failure, and the value returned. -/
def ecPrivkeyImportDer (privkey : List Byte) : Read ((Fin 32 → Byte) × Bool) := do
  match ← privkeyHeader privkey with
  | none => return (fun _ => 0, false)
  | some l =>
    match ← privkeyElements l with
    | none => return (fun _ => 0, false)
    | some key =>
      if ecSeckeyVerify O (pad32 key) then return (pad32 key, true)
      else return (fun _ => 0, false)

/-- `begin`, up to the secret key. -/
def privkeyBegin (compressed : Bool) : List Byte :=
  if compressed then [0x30, 0x81, 0xD3, 0x02, 0x01, 0x01, 0x04, 0x20]
  else [0x30, 0x82, 0x01, 0x13, 0x02, 0x01, 0x01, 0x04, 0x20]

/-- `middle`: the parameters of the curve, up to the public key. -/
def privkeyMiddle (compressed : Bool) : List Byte :=
  if compressed then
    [0xA0, 0x81, 0x85, 0x30, 0x81, 0x82, 0x02, 0x01, 0x01, 0x30, 0x2C, 0x06, 0x07, 0x2A, 0x86, 0x48,
     0xCE, 0x3D, 0x01, 0x01, 0x02, 0x21, 0x00, 0xFF, 0xFF, 0xFF, 0xFF, 0xFF, 0xFF, 0xFF, 0xFF, 0xFF,
     0xFF, 0xFF, 0xFF, 0xFF, 0xFF, 0xFF, 0xFF, 0xFF, 0xFF, 0xFF, 0xFF, 0xFF, 0xFF, 0xFF, 0xFF, 0xFF,
     0xFF, 0xFF, 0xFE, 0xFF, 0xFF, 0xFC, 0x2F, 0x30, 0x06, 0x04, 0x01, 0x00, 0x04, 0x01, 0x07, 0x04,
     0x21, 0x02, 0x79, 0xBE, 0x66, 0x7E, 0xF9, 0xDC, 0xBB, 0xAC, 0x55, 0xA0, 0x62, 0x95, 0xCE, 0x87,
     0x0B, 0x07, 0x02, 0x9B, 0xFC, 0xDB, 0x2D, 0xCE, 0x28, 0xD9, 0x59, 0xF2, 0x81, 0x5B, 0x16, 0xF8,
     0x17, 0x98, 0x02, 0x21, 0x00, 0xFF, 0xFF, 0xFF, 0xFF, 0xFF, 0xFF, 0xFF, 0xFF, 0xFF, 0xFF, 0xFF,
     0xFF, 0xFF, 0xFF, 0xFF, 0xFE, 0xBA, 0xAE, 0xDC, 0xE6, 0xAF, 0x48, 0xA0, 0x3B, 0xBF, 0xD2, 0x5E,
     0x8C, 0xD0, 0x36, 0x41, 0x41, 0x02, 0x01, 0x01, 0xA1, 0x24, 0x03, 0x22, 0x00]
  else
    [0xA0, 0x81, 0xA5, 0x30, 0x81, 0xA2, 0x02, 0x01, 0x01, 0x30, 0x2C, 0x06, 0x07, 0x2A, 0x86, 0x48,
     0xCE, 0x3D, 0x01, 0x01, 0x02, 0x21, 0x00, 0xFF, 0xFF, 0xFF, 0xFF, 0xFF, 0xFF, 0xFF, 0xFF, 0xFF,
     0xFF, 0xFF, 0xFF, 0xFF, 0xFF, 0xFF, 0xFF, 0xFF, 0xFF, 0xFF, 0xFF, 0xFF, 0xFF, 0xFF, 0xFF, 0xFF,
     0xFF, 0xFF, 0xFE, 0xFF, 0xFF, 0xFC, 0x2F, 0x30, 0x06, 0x04, 0x01, 0x00, 0x04, 0x01, 0x07, 0x04,
     0x41, 0x04, 0x79, 0xBE, 0x66, 0x7E, 0xF9, 0xDC, 0xBB, 0xAC, 0x55, 0xA0, 0x62, 0x95, 0xCE, 0x87,
     0x0B, 0x07, 0x02, 0x9B, 0xFC, 0xDB, 0x2D, 0xCE, 0x28, 0xD9, 0x59, 0xF2, 0x81, 0x5B, 0x16, 0xF8,
     0x17, 0x98, 0x48, 0x3A, 0xDA, 0x77, 0x26, 0xA3, 0xC4, 0x65, 0x5D, 0xA4, 0xFB, 0xFC, 0x0E, 0x11,
     0x08, 0xA8, 0xFD, 0x17, 0xB4, 0x48, 0xA6, 0x85, 0x54, 0x19, 0x9C, 0x47, 0xD0, 0x8F, 0xFB, 0x10,
     0xD4, 0xB8, 0x02, 0x21, 0x00, 0xFF, 0xFF, 0xFF, 0xFF, 0xFF, 0xFF, 0xFF, 0xFF, 0xFF, 0xFF, 0xFF,
     0xFF, 0xFF, 0xFF, 0xFF, 0xFE, 0xBA, 0xAE, 0xDC, 0xE6, 0xAF, 0x48, 0xA0, 0x3B, 0xBF, 0xD2, 0x5E,
     0x8C, 0xD0, 0x36, 0x41, 0x41, 0x02, 0x01, 0x01, 0xA1, 0x44, 0x03, 0x42, 0x00]

/-- The bytes written, or `none` for the return value 0; a public key that is not serialized leaves
`pubkeylen` at 0. -/
def ecPrivkeyExportDer (ecmultGen : S → Option (Gej F)) (key32 : Fin 32 → Byte)
    (compressed : Bool) : Option (Option (List Byte)) := do
  let o ← ecPubkeyCreate B O ecmultGen key32
  match o with
  | none => return none
  | some pubkey =>
    let output ← ecPubkeySerialize B pubkey compressed
    return some (privkeyBegin compressed ++ List.ofFn key32 ++ privkeyMiddle compressed ++
      output.getD [])

end

/-! ## The import -/

theorem peek_of_lt {l : List Byte} {i : ℕ} (h : i < l.length) : peek l i = .ok (l.get ⟨i, h⟩) := by
  rw [peek, List.getElem?_eq_getElem h]
  rfl

/-- No read is outside of the input. -/
theorem privkeyHeader_ok (l : List Byte) : ∃ o, privkeyHeader l = .ok o := by
  unfold privkeyHeader
  by_cases h1 : l.length < 1
  · exact ⟨none, if_pos h1⟩
  rw [if_neg h1, peek_of_lt (not_lt.mp h1)]
  generalize l.get ⟨0, not_lt.mp h1⟩ = tag
  generalize l.drop 1 = l
  simp only [bind, Except.bind]
  by_cases h2 : tag ≠ 0x30 ∨ l.length < 1
  · exact ⟨none, if_pos h2⟩
  have hlen : 0 < l.length := by
    by_contra h0
    exact h2 (.inr (by omega))
  rw [if_neg h2, peek_of_lt hlen]
  generalize l.get ⟨0, hlen⟩ = b
  generalize l.drop 1 = l
  generalize hlenb : (b &&& ~~~0x80).toNat = lenb
  dsimp only
  rw [hlenb]
  by_cases h3 : b &&& 0x80 = 0 ∨ lenb < 1 ∨ lenb > 2 ∨ l.length < lenb
  · exact ⟨none, if_pos h3⟩
  rw [if_neg h3]
  rw [not_or, not_or, not_or] at h3
  obtain ⟨-, h1, -, h4⟩ := h3
  rw [peek_of_lt (show lenb - 1 < l.length by omega)]
  generalize l.get ⟨lenb - 1, _⟩ = lo
  dsimp only
  by_cases h5 : lenb > 1
  · rw [if_pos h5, peek_of_lt (show lenb - 2 < l.length by omega)]
    dsimp only
    split
    · exact ⟨none, rfl⟩
    · exact ⟨_, rfl⟩
  · rw [if_neg h5]
    split
    · exact ⟨none, rfl⟩
    · exact ⟨_, rfl⟩

theorem privkeyElements_ok (l : List Byte) : ∃ o, privkeyElements l = .ok o := by
  unfold privkeyElements
  by_cases h3 : l.length < 3
  · exact ⟨none, if_pos h3⟩
  rw [if_neg h3, peek_of_lt (show 0 < l.length by omega), peek_of_lt (show 1 < l.length by omega),
    peek_of_lt (show 2 < l.length by omega)]
  simp only [bind, Except.bind]
  generalize l.get ⟨0, _⟩ = b0
  generalize l.get ⟨1, _⟩ = b1
  generalize l.get ⟨2, _⟩ = b2
  generalize l.drop 3 = l
  by_cases hv : b0 ≠ 0x02 ∨ b1 ≠ 0x01 ∨ b2 ≠ 0x01 ∨ l.length < 2
  · exact ⟨none, if_pos hv⟩
  have hlen : ¬ l.length < 2 := fun h => hv (.inr (.inr (.inr h)))
  rw [if_neg hv, peek_of_lt (show 0 < l.length by omega), peek_of_lt (show 1 < l.length by omega)]
  generalize l.get ⟨0, _⟩ = tag
  generalize l.get ⟨1, _⟩ = len
  dsimp only
  by_cases hk : tag ≠ 0x04 ∨ len.toNat > 0x20 ∨ l.length < 2 + len.toNat
  · exact ⟨none, if_pos hk⟩
  have hroom : ¬ l.length < 2 + len.toNat := fun h => hk (.inr (.inr h))
  rw [if_neg hk, readBytes, if_pos (by rw [List.length_drop]; omega)]
  exact ⟨_, rfl⟩

section

variable {S : Type} {O : ScalarOps S} {val : S → ℕ} (hO : O.Sound val)
include hO

/-- What is taken is a secret key in range. -/
theorem ecPrivkeyImportDer_ok (privkey : List Byte) :
    ∃ r, ecPrivkeyImportDer O privkey = .ok r ∧
      (r = (fun _ => 0, false) ∨ r.2 = true ∧ Usable r.1) := by
  obtain ⟨o, ho⟩ := privkeyHeader_ok privkey
  unfold ecPrivkeyImportDer
  simp only [ho, bind, Except.bind]
  cases o with
  | none => exact ⟨_, rfl, .inl rfl⟩
  | some l =>
    obtain ⟨o, ho⟩ := privkeyElements_ok l
    simp only [ho]
    cases o with
    | none => exact ⟨_, rfl, .inl rfl⟩
    | some key =>
      by_cases hu : ecSeckeyVerify O (pad32 key) = true
      · exact ⟨_, if_pos hu, .inr ⟨rfl, (ecSeckeyVerify_iff hO _).mp hu⟩⟩
      · exact ⟨_, if_neg hu, .inl rfl⟩

end

/-! ## The export -/

theorem privkeyHeader_short {t : List Byte} (h : 0xD3 ≤ t.length) :
    privkeyHeader (0x30 :: 0x81 :: 0xD3 :: t) = .ok (some t) := by
  have hlen : ¬ t.length < 0xD3 := not_lt.mpr h
  simp [privkeyHeader, hlen, bind, Except.bind, pure, Except.pure]

theorem privkeyHeader_long {t : List Byte} (h : 0x113 ≤ t.length) :
    privkeyHeader (0x30 :: 0x82 :: 0x01 :: 0x13 :: t) = .ok (some t) := by
  have hlen : ¬ t.length < 0x113 := not_lt.mpr h
  simp [privkeyHeader, hlen, bind, Except.bind, pure, Except.pure]

theorem privkeyElements_key (key : Fin 32 → Byte) (rest : List Byte) :
    privkeyElements (0x02 :: 0x01 :: 0x01 :: 0x04 :: 0x20 :: (List.ofFn key ++ rest)) =
      .ok (some (List.ofFn key)) := by
  have hlen : (List.ofFn key).length = 32 := List.length_ofFn
  generalize List.ofFn key = l at hlen ⊢
  have hkey : readBytes (l ++ rest) 32 = .ok l := by
    rw [readBytes, if_pos (by rw [List.length_append]; omega), ← hlen, List.take_left]
  have h3 : ¬ l.length + rest.length + 1 + 1 + 1 + 1 + 1 < 3 := by omega
  have h34 : ¬ l.length + rest.length + 1 + 1 < 34 := by omega
  simp [privkeyElements, hkey, h3, h34, bind, Except.bind, pure, Except.pure]

theorem pad32_ofFn (key : Fin 32 → Byte) : pad32 (List.ofFn key) = key := by
  funext i
  have hi : (i : ℕ) < (List.ofFn key).length := by
    rw [List.length_ofFn]
    exact i.isLt
  rw [pad32, List.length_ofFn, Nat.sub_self, List.replicate_zero, List.nil_append,
    List.getD_eq_getElem _ _ hi, List.getElem_ofFn]

/-- The import of what the export writes before the public key, whatever follows. -/
theorem ecPrivkeyImportDer_front {S : Type} {O : ScalarOps S} {val : S → ℕ} (hO : O.Sound val)
    {key32 : Fin 32 → Byte} (hu : Usable key32) (compressed : Bool) {rest : List Byte}
    (hrest : (if compressed then 33 else 65) ≤ rest.length) :
    ecPrivkeyImportDer O (privkeyBegin compressed ++ List.ofFn key32 ++ privkeyMiddle compressed ++
      rest) = .ok (key32, true) := by
  obtain ⟨t, ht⟩ : ∃ t : List Byte, 0x02 :: 0x01 :: 0x01 :: 0x04 :: 0x20 ::
    (List.ofFn key32 ++ (privkeyMiddle compressed ++ rest)) = t := ⟨_, rfl⟩
  have helements : privkeyElements t = .ok (some (List.ofFn key32)) :=
    ht ▸ privkeyElements_key key32 (privkeyMiddle compressed ++ rest)
  have hlen : t.length = 5 + (32 + ((privkeyMiddle compressed).length + rest.length)) := by
    rw [← ht]
    simp only [List.length_cons, List.length_append, List.length_ofFn]
    omega
  have hheader : privkeyHeader (privkeyBegin compressed ++ List.ofFn key32 ++
      privkeyMiddle compressed ++ rest) = .ok (some t) := by
    rw [List.append_assoc, List.append_assoc]
    cases compressed with
    | true =>
      have h33 : 33 ≤ rest.length := hrest
      have hmiddle : (privkeyMiddle true).length = 141 := rfl
      rw [hmiddle] at hlen
      rw [← privkeyHeader_short (show 0xD3 ≤ t.length by omega), ← ht]
      rfl
    | false =>
      have h65 : 65 ≤ rest.length := hrest
      have hmiddle : (privkeyMiddle false).length = 173 := rfl
      rw [hmiddle] at hlen
      rw [← privkeyHeader_long (show 0x113 ≤ t.length by omega), ← ht]
      rfl
  have hverify := (ecSeckeyVerify_iff hO key32).mpr hu
  unfold ecPrivkeyImportDer
  simp only [hheader, bind, Except.bind, helements, pad32_ofFn, if_pos hverify]
  rfl

section

variable (kc : Field5x52.KernelChoice) (c : ScalarBackend)
  {ctx : EcmultGenContext (FieldBackend.limbs5x52 kc).Fe c.Scalar}
  (hctx : GenBuilt (FieldBackend.limbs5x52 kc).ops c.ops ctx)
include hctx

/-- The import returns for every string, without a read outside of it, and takes only secret keys in
range. Over the five-limb backend the export fails for a secret key out of range; for one in range
it ends in the public key that is made from it, in the form asked for, which parses to that key, and
the import of all of it, or of a longer string that starts with it, is the secret key. -/
theorem ecPrivkey_der :
    (∀ privkey, ∃ r, ecPrivkeyImportDer c.ops privkey = .ok r ∧
      (r = (fun _ => 0, false) ∨ r.2 = true ∧ Usable r.1)) ∧
    ∀ key32 compressed,
      (¬ Usable key32 → ecPrivkeyExportDer (FieldBackend.limbs5x52 kc).ops c.ops
        (ecmultGen (FieldBackend.limbs5x52 kc).ops c.ops ctx) key32 compressed = some none) ∧
      (Usable key32 → ∃ pubkey front output,
        ecPubkeyCreate (FieldBackend.limbs5x52 kc).ops c.ops
          (ecmultGen (FieldBackend.limbs5x52 kc).ops c.ops ctx) key32 = some (some pubkey) ∧
        ecPrivkeyExportDer (FieldBackend.limbs5x52 kc).ops c.ops
          (ecmultGen (FieldBackend.limbs5x52 kc).ops c.ops ctx) key32 compressed =
            some (some (front ++ output)) ∧
        ecPubkeyParse (FieldBackend.limbs5x52 kc).ops output = some (pubkey, true) ∧
        InForm compressed output ∧
        ∀ rest, ecPrivkeyImportDer c.ops (front ++ output ++ rest) = .ok (key32, true)) := by
  have hb := FieldBackend.sound_5x52 kc
  have hgen := FieldBackend.ecmultGenSpec_of_built kc c hctx
  refine ⟨ecPrivkeyImportDer_ok c.sound, fun key32 compressed => ⟨fun hu => ?_, fun hu => ?_⟩⟩
  · rw [ecPrivkeyExportDer, ecPubkeyCreate_invalid c.sound hu]
    rfl
  · obtain ⟨o, hcreate, pubkey, x, y, hkey, rfl, -⟩ := ecPubkeyCreate_spec hb hgen hu.1 hu.2
    obtain ⟨hd, hform⟩ := encodedKey_spec hkey.point compressed
    refine ⟨pubkey, privkeyBegin compressed ++ List.ofFn key32 ++ privkeyMiddle compressed,
      encodedKey compressed x y, hcreate, ?_, (ecPubkeyParse_iff kc).mpr ⟨x, y, hkey, hd⟩, hform,
      fun rest => ?_⟩
    · have hout := ecPubkeySerialize_eq kc hkey compressed
      rw [ecPrivkeyExportDer, hcreate]
      change (ecPubkeySerialize (Field5x52.ops kc.kernel) pubkey compressed >>= _) = _
      rw [hout]
      rfl
    · rw [List.append_assoc]
      refine ecPrivkeyImportDer_front c.sound hu compressed ?_
      rw [List.length_append, length_encodedKey]
      exact Nat.le_add_right _ _

omit hctx in
/-- The secret key 1, uncompressed. -/
theorem ecPrivkey_der_demo :
    ∃ (ctx : EcmultGenContext (FieldBackend.limbs5x52 (.asm .jwasm)).Fe
        ScalarBackend.limbs8x32.Scalar) (privkey : List Byte),
      ecPrivkeyExportDer (FieldBackend.limbs5x52 (.asm .jwasm)).ops ScalarBackend.limbs8x32.ops
          (ecmultGen (FieldBackend.limbs5x52 (.asm .jwasm)).ops ScalarBackend.limbs8x32.ops ctx)
          (numGetBin 1) false = some (some privkey) ∧
        ecPrivkeyImportDer ScalarBackend.limbs8x32.ops privkey = .ok (numGetBin 1, true) := by
  obtain ⟨ctx, hctx⟩ := FieldBackend.exists_genBuilt (.asm .jwasm) .limbs8x32
  have hu := usable_numGetBin Nat.one_pos n_prime.one_lt
  obtain ⟨pubkey, front, output, -, hexport, -, -, himport⟩ :=
    ((ecPrivkey_der (.asm .jwasm) .limbs8x32 hctx).2 (numGetBin 1) false).2 hu
  refine ⟨ctx, front ++ output, hexport, ?_⟩
  have h := himport []
  rwa [List.append_nil] at h

end

end Secp256k1.Der
