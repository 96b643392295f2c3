import Secp256k1.Keys

/-!
# Encodings of public keys

The functions of `secp256k1.c` that read and write public keys, over the five-limb backend: which
strings are read, and that reading and writing are inverse to each other up to the hybrid headers,
which are read but never written.
-/

namespace Secp256k1

section

variable {F : Type} (B : FieldOps F)

/-- The key, zero on failure, and the value returned. -/
def ecPubkeyParse (input : List Byte) : Option (GeStorage × Bool) := do
  let o ← eckeyPubkeyParse B input
  match o with
  | none => return (zeroPubkey, false)
  | some q =>
    let pubkey ← pubkeySave B q
    return (pubkey, true)

/-- The bytes written, or `none` for the return value 0. -/
def ecPubkeySerialize (pubkey : GeStorage) (compressed : Bool) : Option (Option (List Byte)) :=
  let (q, ok) := pubkeyLoad B pubkey
  if !ok then some none
  else do
    let o ← eckeyPubkeySerialize B q compressed
    return o.map Prod.snd

end

/-! ## The encodings -/

/-- 32 bytes in the middle of a string. -/
theorem bytes32_append (front rest : List Byte) (f : Fin 32 → Byte) :
    bytes32 (front ++ (List.ofFn f ++ rest)) front.length = f := by
  funext i
  have hi : (i : ℕ) < (List.ofFn f).length := by
    rw [List.length_ofFn]
    exact i.isLt
  rw [bytes32, List.getD_append_right _ _ _ _ (by omega), Nat.add_sub_cancel_left,
    List.getD_append _ _ _ _ hi, List.getD_eq_getElem _ _ hi, List.getElem_ofFn]

theorem compressedKey_spec {x y : ZMod p} (h : OnCurve x y) :
    Compressed (Bytes.be · < p) (compressedKey x y) x y := by
  have hx : bytes32 (compressedKey x y) 1 = numGetBin x.val := by
    have happ := bytes32_append [if y.val % 2 = 1 then 0x03 else 0x02] [] (numGetBin x.val)
    rwa [List.append_nil] at happ
  have htag : (compressedKey x y).getD 0 0 = if y.val % 2 = 1 then 0x03 else 0x02 := rfl
  refine ⟨?_, ?_, ?_, ?_, h, ?_⟩
  · exact length_encodedKey true x y
  · rw [htag]
    split
    · exact .inr rfl
    · exact .inl rfl
  · rw [hx, be_numGetBin_val]
    exact ZMod.val_lt x
  · rw [hx, be_numGetBin_val, ZMod.natCast_zmod_val]
  · rw [htag]
    split
    · next hodd => exact iff_of_true hodd rfl
    · next hodd => exact iff_of_false hodd (by decide)

theorem uncompressedKey_spec {x y : ZMod p} (h : OnCurve x y) :
    Uncompressed (Bytes.be · < p) (uncompressedKey x y) x y := by
  have hx : bytes32 (uncompressedKey x y) 1 = numGetBin x.val :=
    bytes32_append [0x04] (List.ofFn (numGetBin y.val)) (numGetBin x.val)
  have hy : bytes32 (uncompressedKey x y) 33 = numGetBin y.val := by
    have happ := bytes32_append (0x04 :: List.ofFn (numGetBin x.val)) [] (numGetBin y.val)
    rwa [List.append_nil, List.length_cons, List.length_ofFn] at happ
  have htag : (uncompressedKey x y).getD 0 0 = 0x04 := rfl
  refine ⟨?_, .inl htag, ?_, ?_, ?_, ?_, h, fun hne => absurd htag hne⟩
  · exact length_encodedKey false x y
  · rw [hx, be_numGetBin_val]
    exact ZMod.val_lt x
  · rw [hy, be_numGetBin_val]
    exact ZMod.val_lt y
  · rw [hx, be_numGetBin_val, ZMod.natCast_zmod_val]
  · rw [hy, be_numGetBin_val, ZMod.natCast_zmod_val]

/-- Two strings of 65 bytes that agree in the header and in both coordinates. -/
theorem pub_ext_65 {pub pub' : List Byte} (hlen : pub.length = 65) (hlen' : pub'.length = 65)
    (htag : pub.getD 0 0 = pub'.getD 0 0) (hx : bytes32 pub 1 = bytes32 pub' 1)
    (hy : bytes32 pub 33 = bytes32 pub' 33) : pub = pub' := by
  refine List.ext_getElem (hlen.trans hlen'.symm) fun i hi hi' => ?_
  rw [← List.getD_eq_getElem _ 0 hi, ← List.getD_eq_getElem _ 0 hi']
  by_cases h0 : i = 0
  · rw [h0]
    exact htag
  by_cases h33 : i < 33
  · have h := congrFun hx ⟨i - 1, by omega⟩
    simpa only [bytes32, show 1 + (i - 1) = i by omega] using h
  · have h := congrFun hy ⟨i - 33, by omega⟩
    simpa only [bytes32, show 33 + (i - 33) = i by omega] using h

theorem Uncompressed.pub_unique {pub pub' : List Byte} {v w : ZMod p}
    (h : Uncompressed (Bytes.be · < p) pub v w) (h' : Uncompressed (Bytes.be · < p) pub' v w)
    (htag : pub.getD 0 0 = pub'.getD 0 0) : pub = pub' := by
  refine pub_ext_65 h.length h'.length htag (Bytes.be_inj ?_) (Bytes.be_inj ?_)
  · rw [← val_of_cast h.takesX h.x.symm, ← val_of_cast h'.takesX h'.x.symm]
  · rw [← val_of_cast h.takesY h.y.symm, ← val_of_cast h'.takesY h'.y.symm]

/-- A string in the form that is asked for; the hybrid headers are in neither. -/
def InForm (compressed : Bool) (output : List Byte) : Prop :=
  if compressed then output.length = 33 else output.getD 0 0 = 0x04

theorem encodedKey_spec {x y : ZMod p} (h : OnCurve x y) (compressed : Bool) :
    Decodes (Bytes.be · < p) (encodedKey compressed x y) x y ∧
      InForm compressed (encodedKey compressed x y) := by
  cases compressed with
  | true => exact ⟨.inl (compressedKey_spec h), (compressedKey_spec h).length⟩
  | false => exact ⟨.inr (uncompressedKey_spec h), rfl⟩

/-- In either form a point has one encoding. -/
theorem Decodes.eq_encodedKey {output : List Byte} {x y : ZMod p} {compressed : Bool}
    (h : Decodes (Bytes.be · < p) output x y) (hform : InForm compressed output) :
    output = encodedKey compressed x y := by
  cases compressed with
  | true =>
    rcases h with h | h
    · have hc := compressedKey_spec h.point
      exact h.pub_unique hc h.takes hc.takes
    · exact absurd (h.length.symm.trans hform) (by norm_num)
  | false =>
    have htag : output.getD 0 0 = 0x04 := hform
    rcases h with h | h
    · rcases h.tag with h2 | h3
      · exact absurd (h2.symm.trans htag) (by decide)
      · exact absurd (h3.symm.trans htag) (by decide)
    · exact h.pub_unique (uncompressedKey_spec h.point) htag

/-! ## Reading and writing -/

section

variable (kc : Field5x52.KernelChoice)

/-- The strings read are the encodings with coordinates below `p`. -/
theorem ecPubkeyParse_spec (input : List Byte) :
    Yields (ecPubkeyParse (Field5x52.ops kc.kernel) input) fun r =>
      (r = (zeroPubkey, false) ∧ ∀ x y, ¬ Decodes (Bytes.be · < p) input x y) ∨
        ∃ pubkey x y, r = (pubkey, true) ∧ KeyOf pubkey x y ∧
          Decodes (Bytes.be · < p) input x y := by
  refine (eckeyPubkeyParse_spec (Field5x52.values kc.sound) (Bytes.be · < p)
    (fun b => (Field5x52.feSetB32_spec b).2.2.1) input).bind fun o ho => ?_
  rcases ho with ⟨rfl, hn⟩ | ⟨q, x, y, rfl, hd, -, hx, hy⟩
  · exact .pure (.inl ⟨rfl, hn⟩)
  · have hpoint : OnCurve x y := hd.elim (·.point) (·.point)
    refine (pubkeySave_spec (Field5x52.values kc.sound) hpoint hx hy (by norm_num)
      (by norm_num)).bind fun pubkey hkey => ?_
    exact .pure (.inr ⟨pubkey, x, y, rfl, hkey, hd⟩)

theorem ecPubkeyParse_iff {input : List Byte} {pubkey : GeStorage} :
    ecPubkeyParse (Field5x52.ops kc.kernel) input = some (pubkey, true) ↔
      ∃ x y, KeyOf pubkey x y ∧ Decodes (Bytes.be · < p) input x y := by
  obtain ⟨r, hr, hspec⟩ := ecPubkeyParse_spec kc input
  constructor
  · intro h
    obtain rfl := Option.some.inj (hr.symm.trans h)
    rcases hspec with ⟨h0, -⟩ | ⟨pubkey, x, y, h0, hkey, hd⟩
    · cases h0
    · cases h0
      exact ⟨x, y, hkey, hd⟩
  · rintro ⟨x, y, hkey, hd⟩
    rcases hspec with ⟨-, hn⟩ | ⟨pubkey', x', y', rfl, hkey', hd'⟩
    · exact absurd hd (hn x y)
    · obtain ⟨rfl, rfl⟩ := hd.unique hd'
      rw [hr, hkey.unique hkey']

theorem ecPubkeySerialize_eq {pubkey : GeStorage} {x y : ZMod p} (h : KeyOf pubkey x y)
    (compressed : Bool) : ecPubkeySerialize (Field5x52.ops kc.kernel) pubkey compressed =
      some (some (encodedKey compressed x y)) := by
  obtain ⟨hx, hy, hinf, hok⟩ := pubkeyLoad_spec (Field5x52.values kc.sound) h
  obtain ⟨o, ho, q, rfl, -⟩ := eckeyPubkeySerialize_spec (Field5x52.values kc.sound) hinf
    ((Field5x52.values kc.sound).rep_of_norm hx) ((Field5x52.values kc.sound).rep_of_norm hy)
    (by norm_num) (by norm_num) compressed
  rw [ecPubkeySerialize]
  simp only [hok, Bool.not_true, Bool.false_eq_true, if_false, ho]
  rfl

end

/-- On the five-limb backend every string is read or refused: refused if it encodes no point, and
read as the key of the point it encodes. For a key of the curve, what is written in a form is the
only string of that form that is read as the key. -/
theorem ecPubkey_formats (kc : Field5x52.KernelChoice) :
    (∀ input, Yields (ecPubkeyParse (Field5x52.ops kc.kernel) input) fun r =>
      (r = (zeroPubkey, false) ∧ ∀ x y, ¬ Decodes (Bytes.be · < p) input x y) ∨
        ∃ pubkey x y, r = (pubkey, true) ∧ KeyOf pubkey x y ∧
          Decodes (Bytes.be · < p) input x y) ∧
    ∀ Q pubkey, StoredAt Q pubkey → ∀ compressed output,
      ecPubkeySerialize (Field5x52.ops kc.kernel) pubkey compressed = some (some output) ↔
        ecPubkeyParse (Field5x52.ops kc.kernel) output = some (pubkey, true) ∧
          InForm compressed output := by
  refine ⟨ecPubkeyParse_spec kc, fun Q pubkey hQ compressed output => ?_⟩
  obtain ⟨x, y, hkey, -⟩ := hQ.keyOf
  constructor
  · intro h
    rw [ecPubkeySerialize_eq kc hkey] at h
    cases h
    obtain ⟨hd, hform⟩ := encodedKey_spec hkey.point compressed
    exact ⟨(ecPubkeyParse_iff kc).mpr ⟨x, y, hkey, hd⟩, hform⟩
  · rintro ⟨hparse, hform⟩
    obtain ⟨x', y', hkey', hd⟩ := (ecPubkeyParse_iff kc).mp hparse
    rw [ecPubkeySerialize_eq kc hkey', ← hd.eq_encodedKey hform]

/-- The generator, uncompressed. -/
theorem ecPubkey_formats_demo :
    ecPubkeyParse (Field5x52.ops (Field5x52.KernelChoice.asm .jwasm).kernel)
        (encodedKey false generatorX generatorY) =
      some (generatorKey, true) :=
  (((ecPubkey_formats (.asm .jwasm)).2 _ _ keyOf_generatorKey.storedAt false _).mp
    (ecPubkeySerialize_eq (.asm .jwasm) keyOf_generatorKey false)).1

end Secp256k1
