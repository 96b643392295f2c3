import Secp256k1.Ecdsa.DerSpec

/-!
# The serializer

`secp256k1_ecdsa_sig_serialize` writes the shortest encoding of a pair of scalars. The output is a
memory that starts at the pointer `sig`; the length written or needed is the value left in `*size`.
-/

namespace Secp256k1.Der

open Bytes

/-- `while (len > 1 && p[0] == 0 && p[1] < 0x80) { len--; p++; }`. -/
def stripZeros : List Byte → List Byte
  | a :: b :: t => if a = 0 ∧ b < 0x80 then stripZeros (b :: t) else a :: b :: t
  | l => l

def writeBytes (sig : ℕ → Byte) (pos : ℕ) (l : List Byte) : ℕ → Byte := fun i =>
  if pos ≤ i ∧ i < pos + l.length then l.getD (i - pos) 0 else sig i

def written (sig : ℕ → Byte) (k : ℕ) : List Byte := (List.range k).map sig

section

variable {S : Type} (O : ScalarOps S)

def contentOf (a : S) : List Byte := stripZeros (0 :: List.ofFn (O.getB32 a))

/-- The value returned, `*size`, and the output. -/
def ecdsaSigSerialize (sig : ℕ → Byte) (size : ℕ) (ar as : S) : Bool × ℕ × (ℕ → Byte) :=
  let rp := contentOf O ar
  let sp := contentOf O as
  let lenR := rp.length
  let lenS := sp.length
  if size < 6 + lenS + lenR then (false, 6 + lenS + lenR, sig)
  else
    let sig := writeBytes sig 0 [0x30]
    let sig := writeBytes sig 1 [BitVec.ofNat 8 (4 + lenS + lenR)]
    let sig := writeBytes sig 2 [0x02]
    let sig := writeBytes sig 3 [BitVec.ofNat 8 lenR]
    let sig := writeBytes sig 4 rp
    let sig := writeBytes sig (4 + lenR) [0x02]
    let sig := writeBytes sig (5 + lenR) [BitVec.ofNat 8 lenS]
    let sig := writeBytes sig (lenR + 6) sp
    (true, 6 + lenS + lenR, sig)

end

/-! ## Content octets -/

/-- Stripping keeps the value, the sign and at least one octet, and leaves no padding. -/
theorem stripZeros_spec (b : Byte) (l : List Byte) (hb : b.toNat < 128) :
    stripZeros (b :: l) ≠ [] ∧ beNat (stripZeros (b :: l)) = beNat (b :: l) ∧
      ((stripZeros (b :: l)).headD 0).toNat < 128 ∧ Minimal (stripZeros (b :: l)) ∧
      (stripZeros (b :: l)).length ≤ l.length + 1 := by
  induction l generalizing b with
  | nil => exact ⟨List.cons_ne_nil _ _, rfl, hb, trivial, le_rfl⟩
  | cons c t ih =>
    rw [stripZeros]
    split
    · rename_i h
      obtain ⟨h0, hc⟩ := h
      obtain ⟨i1, i2, i3, i4, i5⟩ := ih c (by simpa [BitVec.lt_def] using hc)
      refine ⟨i1, ?_, i3, i4, i5.trans (by rw [List.length_cons]; omega)⟩
      rw [i2, beNat_cons b, h0, Word.toNat_zero, zero_mul, zero_add]
    · rename_i h
      refine ⟨List.cons_ne_nil _ _, rfl, hb, ⟨fun h0 => h ⟨h0.1, ?_⟩, fun hff => ?_⟩, le_rfl⟩
      · simpa [BitVec.lt_def] using h0.2
      · rw [hff.1] at hb
        exact absurd hb (by decide)

/-- Content octets without padding, of a number that is not negative, are as long as the number
needs. -/
theorem Minimal.le_beNat {a b : Byte} {t : List Byte} (h : Minimal (a :: b :: t)) :
    128 * 256 ^ t.length ≤ beNat (a :: b :: t) := by
  rw [beNat_cons, beNat_cons, List.length_cons, pow_succ]
  by_cases ha : a = 0
  · have hb : 128 ≤ b.toNat := by
      by_contra hlt
      exact h.1 ⟨ha, by omega⟩
    have := Nat.mul_le_mul_right (256 ^ t.length) hb
    omega
  · have ha1 : 1 ≤ a.toNat := by
      rw [Nat.one_le_iff_ne_zero]
      exact fun h0 => ha (BitVec.eq_of_toNat_eq h0)
    have := Nat.mul_le_mul_right (256 ^ t.length * 256) ha1
    omega

/-- No content octets of the same number, or of a greater one, are shorter. -/
theorem Minimal.length_le {c : List Byte} (h : Minimal c) {k : ℕ} (hk : 0 < k)
    (hlt : beNat c < 128 * 256 ^ (k - 1)) : c.length ≤ k := by
  match c with
  | [] => exact Nat.zero_le k
  | [a] => exact hk
  | a :: b :: t =>
    have hpow : 256 ^ t.length < 256 ^ (k - 1) :=
      Nat.lt_of_mul_lt_mul_left (h.le_beNat.trans_lt hlt)
    have := (Nat.pow_lt_pow_iff_right (by norm_num)).mp hpow
    simp only [List.length_cons]
    omega

/-- What the parser makes of content octets is in the range of that many octets. -/
theorem scalarOf_integer_lt {c : List Byte} (hc : c ≠ []) :
    scalarOf (integer c) < 128 * 256 ^ (c.length - 1) := by
  obtain ⟨a, t, rfl⟩ := List.exists_cons_of_ne_nil hc
  have hpos : 0 < 128 * 256 ^ ((a :: t).length - 1) := by positivity
  rw [scalarOf, integer, List.headD_cons]
  by_cases ha : 128 ≤ a.toNat
  · have hlt := beNat_lt (a :: t)
    rw [if_pos ha, if_neg (by zify at hlt; omega)]
    exact hpos
  · rw [if_neg ha]
    split
    · have hlt := beNat_lt t
      rw [Int.toNat_natCast, beNat_cons, List.length_cons, Nat.add_sub_cancel]
      calc a.toNat * 256 ^ t.length + beNat t < a.toNat * 256 ^ t.length + 256 ^ t.length :=
            Nat.add_lt_add_left hlt _
        _ = (a.toNat + 1) * 256 ^ t.length := by ring
        _ ≤ 128 * 256 ^ t.length := Nat.mul_le_mul_right _ (by omega)
    · exact hpos

section

variable {S : Type} {O : ScalarOps S} {val : S → ℕ} (hO : O.Sound val)
include hO

theorem contentOf_spec (a : S) : contentOf O a ≠ [] ∧ beNat (contentOf O a) = val a ∧
    ((contentOf O a).headD 0).toNat < 128 ∧ Minimal (contentOf O a) ∧
    (contentOf O a).length ≤ 33 := by
  obtain ⟨h1, h2, h3, h4, h5⟩ := stripZeros_spec 0 (List.ofFn (O.getB32 a)) (by decide)
  rw [List.length_ofFn] at h5
  refine ⟨h1, ?_, h3, h4, h5⟩
  rw [contentOf, h2, beNat_cons, Word.toNat_zero, zero_mul, zero_add]
  exact hO.getB32 a

theorem scalarOf_contentOf {a : S} (ha : val a < n) :
    scalarOf (integer (contentOf O a)) = val a := by
  obtain ⟨-, hval, hhead, -, -⟩ := contentOf_spec hO a
  rw [integer, if_neg (by omega), hval, scalarOf, if_pos ⟨by omega, by exact_mod_cast ha⟩,
    Int.toNat_natCast]

end

/-! ## The output -/

theorem written_writeBytes {sig : ℕ → Byte} {k k' : ℕ} {l : List Byte} (h : k' = k + l.length) :
    written (writeBytes sig k l) k' = written sig k ++ l := by
  rw [written, h, List.range_add, List.map_append, List.map_map]
  congr 1
  · refine List.map_congr_left fun i hi => ?_
    rw [writeBytes, if_neg]
    have := List.mem_range.mp hi
    omega
  · apply List.ext_getElem
    · rw [List.length_map, List.length_range]
    · intro i h1 h2
      rw [List.getElem_map, List.getElem_range, Function.comp_apply, writeBytes,
        if_pos ⟨by omega, by omega⟩, Nat.add_sub_cancel_left, List.getD_eq_getElem _ _ h2]

theorem writeBytes_above {sig : ℕ → Byte} {pos i : ℕ} {l : List Byte} (h : pos + l.length ≤ i) :
    writeBytes sig pos l i = sig i := by
  rw [writeBytes, if_neg (by omega)]

/-- The encoding of content octets `r` and `s` in the short form of the lengths. -/
def shortEnc (r s : List Byte) : List Byte :=
  0x30 :: BitVec.ofNat 8 (4 + s.length + r.length) ::
    (0x02 :: BitVec.ofNat 8 r.length :: r ++ 0x02 :: BitVec.ofNat 8 s.length :: s)

theorem length_shortEnc (r s : List Byte) : (shortEnc r s).length = 6 + s.length + r.length := by
  simp only [shortEnc, List.length_cons, List.length_append]
  omega

section

variable {S : Type} (O : ScalarOps S) (sig : ℕ → Byte) (size : ℕ) (ar as : S)

theorem ecdsaSigSerialize_size : (ecdsaSigSerialize O sig size ar as).2.1 =
    (shortEnc (contentOf O ar) (contentOf O as)).length := by
  rw [length_shortEnc, ecdsaSigSerialize]
  simp only []
  split <;> rfl

theorem ecdsaSigSerialize_small
    (h : size < (shortEnc (contentOf O ar) (contentOf O as)).length) :
    ecdsaSigSerialize O sig size ar as =
      (false, (shortEnc (contentOf O ar) (contentOf O as)).length, sig) := by
  rw [length_shortEnc] at h ⊢
  exact if_pos h

theorem ecdsaSigSerialize_room
    (h : (shortEnc (contentOf O ar) (contentOf O as)).length ≤ size) :
    (ecdsaSigSerialize O sig size ar as).1 = true ∧
      written (ecdsaSigSerialize O sig size ar as).2.2
          (shortEnc (contentOf O ar) (contentOf O as)).length =
        shortEnc (contentOf O ar) (contentOf O as) ∧
      ∀ i, (shortEnc (contentOf O ar) (contentOf O as)).length ≤ i →
        (ecdsaSigSerialize O sig size ar as).2.2 i = sig i := by
  rw [length_shortEnc] at h ⊢
  have hroom : ¬ size < 6 + (contentOf O as).length + (contentOf O ar).length := by omega
  rw [ecdsaSigSerialize]
  simp only []
  rw [if_neg hroom]
  generalize contentOf O ar = r
  generalize contentOf O as = s
  refine ⟨rfl, ?_, fun i hi => ?_⟩
  · -- the eight writes follow one another
    rw [written_writeBytes (by omega), written_writeBytes (by simp; omega),
      written_writeBytes (by simp; omega), written_writeBytes rfl, written_writeBytes (by simp),
      written_writeBytes (by simp), written_writeBytes (by simp), written_writeBytes (by simp)]
    simp [written, shortEnc]
  · simp only []
    rw [writeBytes_above (by omega), writeBytes_above (by simp; omega),
      writeBytes_above (by simp; omega), writeBytes_above (by omega),
      writeBytes_above (by simp; omega), writeBytes_above (by simp; omega),
      writeBytes_above (by simp; omega), writeBytes_above (by simp; omega)]

end

/-! ## Serializing and parsing -/

theorem derReadLen_octet {w k : ℕ} (hk : k < 128) (l : List Byte) :
    derReadLen w (BitVec.ofNat 8 k :: l) = .ok (k, l) := by
  have hb : (BitVec.ofNat 8 k).toNat = k := by
    rw [BitVec.toNat_ofNat]
    exact Nat.mod_eq_of_lt (by omega)
  have hread := derReadLen_short (w := w) (b := BitVec.ofNat 8 k) (by omega) l
  rwa [hb] at hread

section

variable {S : Type} {O : ScalarOps S} {val : S → ℕ} (hO : O.Sound val)
include hO

theorem derParseInteger_contentOf {w : ℕ} {a : S} (ha : val a < n) (rest : List Byte) :
    derParseInteger O w (0x02 :: BitVec.ofNat 8 (contentOf O a).length ::
      (contentOf O a ++ rest)) = .ok (some (a, rest)) := by
  obtain ⟨hne, -, -, hmin, hlen⟩ := contentOf_spec hO a
  obtain ⟨r, hr, hval⟩ := derParseInteger_of_read hO (w := w)
    (e := [BitVec.ofNat 8 (contentOf O a).length]) hne hmin rest (derReadLen_octet (by omega) _)
  rw [scalarOf_contentOf hO ha] at hval
  obtain rfl := hO.val_inj _ _ hval
  exact hr

theorem ecdsaSigParse_shortEnc {w : ℕ} {r s : S} (hr : val r < n) (hs : val s < n) :
    ecdsaSigParse O w (shortEnc (contentOf O r) (contentOf O s)) = .ok (some (r, s)) := by
  obtain ⟨-, -, -, -, hlr⟩ := contentOf_spec hO r
  obtain ⟨-, -, -, -, hls⟩ := contentOf_spec hO s
  have hpr := derParseInteger_contentOf hO (w := w) hr
    (0x02 :: BitVec.ofNat 8 (contentOf O s).length :: contentOf O s)
  have hps := derParseInteger_contentOf hO (w := w) hs []
  rw [List.append_nil] at hps
  refine ecdsaSigParse_of_read
    (e := [BitVec.ofNat 8 (4 + (contentOf O s).length + (contentOf O r).length)])
    (i := 0x02 :: BitVec.ofNat 8 (contentOf O r).length :: contentOf O r) ?_ hpr hps
  have hlen : (0x02 :: BitVec.ofNat 8 (contentOf O r).length :: contentOf O r).length +
      (0x02 :: BitVec.ofNat 8 (contentOf O s).length :: contentOf O s).length =
      4 + (contentOf O s).length + (contentOf O r).length := by
    simp only [List.length_cons]
    omega
  rw [hlen]
  exact derReadLen_octet (by omega) _

/-! ## Inputs of any length -/

omit hO in
theorem readOctets_le {w k : ℕ} {ret : BitVec w} {l rest : List Byte} {v : ℤ}
    (h : readOctets w k ret l = .ok (v, rest)) : rest.length ≤ l.length := by
  induction k generalizing ret l with
  | zero =>
    cases h
    exact le_rfl
  | succ k ih =>
    cases l with
    | nil => cases h
    | cons b t =>
      rw [readOctets_cons] at h
      split at h
      · cases h
        exact le_rfl
      · exact (ih h).trans (Nat.le_succ _)

omit hO in
theorem derReadLen_lt {w : ℕ} {l rest : List Byte} {v : ℤ} (h : derReadLen w l = .ok (v, rest))
    (hv : 0 ≤ v) : rest.length < l.length := by
  cases l with
  | nil =>
    cases h
    omega
  | cons b t =>
    rw [List.length_cons, Nat.lt_succ_iff]
    rcases Nat.lt_or_ge b.toNat 128 with hb | hb
    · rw [derReadLen_short hb] at h
      cases h
      exact le_rfl
    · by_cases hff : b = 0xFF
      · subst hff
        cases h
        exact le_rfl
      · by_cases h80 : b = 0x80
        · subst h80
          cases h
          exact le_rfl
        · rw [derReadLen_long hb hff h80] at h
          split at h
          · cases h
            exact le_rfl
          · exact readOctets_le h

/-- An integer that is parsed has content octets, and two more for its tag and its length. -/
theorem derParseInteger_some {w : ℕ} {l rest : List Byte} {r : S}
    (h : derParseInteger O w l = .ok (some (r, rest))) :
    ∃ c, c ≠ [] ∧ val r = scalarOf (integer c) ∧ 2 + c.length + rest.length ≤ l.length := by
  cases l with
  | nil => cases h
  | cons tag l =>
    rw [derParseInteger_cons] at h
    split at h
    · cases h
    · obtain ⟨⟨v, t⟩, hread, h⟩ := of_bind_eq_ok h
      split at h
      · cases h
      · next hrange =>
        simp only [] at h hrange
        have hlt := derReadLen_lt hread (by omega)
        obtain ⟨k, rfl⟩ : ∃ k : ℕ, v = k := ⟨v.toNat, by omega⟩
        have hlen : (t.take k).length = k := by rw [List.length_take]; omega
        have hc : t.take k ≠ [] := List.ne_nil_of_length_pos (by omega)
        obtain ⟨hmin, hnot⟩ := derContent_spec hO hc (t.drop k)
        rw [List.take_append_drop, hlen] at hmin hnot
        by_cases hm : Minimal (t.take k)
        · obtain ⟨r', hr', hval⟩ := hmin hm
          rw [hr'] at h
          cases h
          refine ⟨t.take k, hc, hval, ?_⟩
          rw [hlen, List.length_drop, List.length_cons]
          omega
        · rw [hnot hm] at h
          cases h

theorem ecdsaSigParse_some {w : ℕ} {x : List Byte} {r s : S}
    (h : ecdsaSigParse O w x = .ok (some (r, s))) :
    ∃ cr cs, (cr ≠ [] ∧ val r = scalarOf (integer cr)) ∧
      (cs ≠ [] ∧ val s = scalarOf (integer cs)) ∧ 6 + cs.length + cr.length ≤ x.length := by
  cases x with
  | nil => cases h
  | cons tag l =>
    rw [ecdsaSigParse, List.length_cons, if_neg (Nat.succ_ne_zero _), peek_cons_zero, ok_bind,
      List.drop_succ_cons, List.drop_zero] at h
    split at h
    · cases h
    · obtain ⟨⟨v, t⟩, hread, h⟩ := of_bind_eq_ok h
      simp only [] at h
      split at h
      · cases h
      · split at h
        · cases h
        · obtain ⟨_ | ⟨r', t'⟩, hr, h⟩ := of_bind_eq_ok h
          · cases h
          · obtain ⟨_ | ⟨s', t''⟩, hs, h⟩ := of_bind_eq_ok h
            · cases h
            · simp only [] at h
              split at h
              · cases h
              · cases h
                have hlt := derReadLen_lt hread (by omega)
                obtain ⟨cr, hcr, hvr, hlr⟩ := derParseInteger_some hO hr
                obtain ⟨cs, hcs, hvs, hls⟩ := derParseInteger_some hO hs
                refine ⟨cr, cs, ⟨hcr, hvr⟩, ⟨hcs, hvs⟩, ?_⟩
                rw [List.length_cons]
                omega

theorem ecdsaSigParse_range {w : ℕ} {x : List Byte} {r s : S}
    (h : ecdsaSigParse O w x = .ok (some (r, s))) : val r < n ∧ val s < n := by
  have hlt : ∀ v, scalarOf v < n := fun v => by
    unfold scalarOf
    split
    · omega
    · exact n_pos
  obtain ⟨cr, cs, ⟨-, hr⟩, ⟨-, hs⟩, -⟩ := ecdsaSigParse_some hO h
  exact ⟨hr ▸ hlt _, hs ▸ hlt _⟩

theorem length_contentOf_le {a : S} {c : List Byte} (hc : c ≠ [])
    (ha : val a = scalarOf (integer c)) : (contentOf O a).length ≤ c.length := by
  obtain ⟨-, hval, -, hmin, -⟩ := contentOf_spec hO a
  refine hmin.length_le (List.length_pos_of_ne_nil hc) ?_
  rw [hval, ha]
  exact scalarOf_integer_lt hc

theorem length_shortEnc_le_72 (r s : S) :
    (shortEnc (contentOf O r) (contentOf O s)).length ≤ 72 := by
  obtain ⟨-, -, -, -, hr⟩ := contentOf_spec hO r
  obtain ⟨-, -, -, -, hs⟩ := contentOf_spec hO s
  rw [length_shortEnc]
  omega

theorem length_shortEnc_le {w : ℕ} {x : List Byte} {r s : S}
    (h : ecdsaSigParse O w x = .ok (some (r, s))) :
    (shortEnc (contentOf O r) (contentOf O s)).length ≤ x.length := by
  obtain ⟨cr, cs, ⟨hcr, hr⟩, ⟨hcs, hs⟩, hlen⟩ := ecdsaSigParse_some hO h
  have hr' := length_contentOf_le hO hcr hr
  have hs' := length_contentOf_le hO hcs hs
  rw [length_shortEnc]
  omega

end

/-- The serializer is a section of the parser and writes the shortest encoding: with room it writes
at most 72 bytes that parse as the same scalars, for any width of `size_t`; no input that parses as
these scalars is shorter; without room it writes nothing. The length left in `*size` does not depend
on the room: a call without room leaves what a call with room needs. -/
theorem ecdsaSigSerialize_shortest (c : ScalarBackend) (sig : ℕ → Byte) (size : ℕ)
    (r s : c.Scalar) :
    (c.val r < n → c.val s < n → (ecdsaSigSerialize c.ops sig size r s).2.1 ≤ size →
      (ecdsaSigSerialize c.ops sig size r s).1 = true ∧
      (ecdsaSigSerialize c.ops sig size r s).2.1 ≤ 72 ∧
      (∀ i, (ecdsaSigSerialize c.ops sig size r s).2.1 ≤ i →
        (ecdsaSigSerialize c.ops sig size r s).2.2 i = sig i) ∧
      ∀ w, ecdsaSigParse c.ops w (written (ecdsaSigSerialize c.ops sig size r s).2.2
        (ecdsaSigSerialize c.ops sig size r s).2.1) = .ok (some (r, s))) ∧
    (∀ w x, ecdsaSigParse c.ops w x = .ok (some (r, s)) →
      (ecdsaSigSerialize c.ops sig size r s).2.1 ≤ x.length) ∧
    (size < (ecdsaSigSerialize c.ops sig size r s).2.1 →
      (ecdsaSigSerialize c.ops sig size r s).1 = false ∧
      (ecdsaSigSerialize c.ops sig size r s).2.2 = sig) ∧
    ∀ sig' size', (ecdsaSigSerialize c.ops sig' size' r s).2.1 =
      (ecdsaSigSerialize c.ops sig size r s).2.1 := by
  rw [ecdsaSigSerialize_size]
  refine ⟨fun hr hs hroom => ?_, fun w x hparse => length_shortEnc_le c.sound hparse,
    fun hsmall => ?_, fun sig' size' => ecdsaSigSerialize_size c.ops sig' size' r s⟩
  · obtain ⟨hok, hout, habove⟩ := ecdsaSigSerialize_room c.ops sig size r s hroom
    refine ⟨hok, length_shortEnc_le_72 c.sound r s, habove, fun w => ?_⟩
    rw [hout]
    exact ecdsaSigParse_shortEnc c.sound hr hs
  · rw [ecdsaSigSerialize_small c.ops sig size r s hsmall]
    exact ⟨rfl, rfl⟩

/-- The pair `(1, 0)` takes 8 bytes; in 7 bytes there is no room. -/
theorem ecdsaSigSerialize_shortest_demo :
    let out size := ecdsaSigSerialize ScalarBackend.limbs4x64.ops (fun _ => 0xAA) size
      (ScalarBackend.limbs4x64.ops.setInt 1) (ScalarBackend.limbs4x64.ops.setInt 0)
    ((out 8).1 = true ∧ ecdsaSigParse ScalarBackend.limbs4x64.ops 64
        (written (out 8).2.2 (out 8).2.1) =
      .ok (some (ScalarBackend.limbs4x64.ops.setInt 1, ScalarBackend.limbs4x64.ops.setInt 0))) ∧
    (out 7).1 = false ∧ (out 7).2.1 = (out 8).2.1 ∧ (out 7).2.2 = fun _ => 0xAA := by
  obtain ⟨hroom, -, -, hsize⟩ := ecdsaSigSerialize_shortest .limbs4x64 (fun _ => 0xAA) 8
    (ScalarBackend.limbs4x64.ops.setInt 1) (ScalarBackend.limbs4x64.ops.setInt 0)
  obtain ⟨hok, -, -, hparse⟩ := hroom (by decide) (by decide) (by decide)
  obtain ⟨-, -, hsmall, -⟩ := ecdsaSigSerialize_shortest .limbs4x64 (fun _ => 0xAA) 7
    (ScalarBackend.limbs4x64.ops.setInt 1) (ScalarBackend.limbs4x64.ops.setInt 0)
  obtain ⟨hfail, hsig⟩ := hsmall (by decide)
  exact ⟨⟨hok, hparse 64⟩, hfail, hsize _ 7, hsig⟩

end Secp256k1.Der
