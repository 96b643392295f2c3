import Secp256k1.Ecdsa.DerSpec

/-!
# The lax parser

`lax_der_parsing.c` and the compact form it ends in. The lax parser skips the length of the
sequence, drops leading zero octets of the lengths of the integers and never looks behind the
second integer. Where the strict parser yields two usable scalars, the lax one stores the same.
-/

namespace Secp256k1.Der

open Bytes

section

variable {S : Type} (O : ScalarOps S)

def signatureParseCompact (input64 : Fin (32 + 32) → Byte) : (S × S) × Bool :=
  let (r, overflow) := O.setB32 fun i => input64 (Fin.castAdd 32 i)
  let ret := overflow = 0
  let (s, overflow) := O.setB32 fun i => input64 (Fin.natAdd 32 i)
  let ret := ret ∧ overflow = 0
  (if ret then (r, s) else (O.clear, O.clear), ret)

def laxOctets (w : ℕ) : ℕ → BitVec w → List Byte → Read (BitVec w × List Byte)
  | 0, rlen, l => .ok (rlen, l)
  | lenbyte + 1, rlen, l => do
    let b ← peek l 0
    laxOctets w lenbyte (rlen <<< 8 + b.setWidth w) (l.drop 1)

def laxReadLen (w : ℕ) (l : List Byte) : Read (Option (BitVec w × List Byte)) :=
  if l.length = 0 then .ok none
  else do
    let lenbyte ← peek l 0
    let l := l.drop 1
    if lenbyte &&& 0x80 ≠ 0 then
      let lenbyte := lenbyte.toNat - 0x80
      if lenbyte > l.length then .ok none
      else
        let (lenbyte, l) ← skipZeros lenbyte l
        if lenbyte ≥ w / 8 then .ok none
        else
          let r ← laxOctets w lenbyte 0 l
          return some r
    else return some (lenbyte.setWidth w, l)

/-- The tag and the length of an integer: its bytes from the content on, and their number. -/
def laxInteger (w : ℕ) (l : List Byte) : Read (Option (List Byte × ℕ)) :=
  if l.length = 0 then .ok none
  else do
    let tag ← peek l 0
    if tag ≠ 0x02 then .ok none
    else
      match ← laxReadLen w (l.drop 1) with
      | none => .ok none
      | some (rlen, l) => if rlen.toNat > l.length then .ok none else .ok (some (l, rlen.toNat))

/-- The content without leading zeroes, or `none` if more than 32 bytes are left. -/
def laxValue (l : List Byte) (rlen : ℕ) : Read (Option (List Byte)) := do
  let (rlen, l) ← skipZeros rlen l
  if rlen > 32 then return none
  else
    let c ← readBytes l rlen
    return some c

def ecdsaSignatureParseDerLax (w : ℕ) (input : List Byte) : Read ((S × S) × Bool) :=
  let initial := (signatureParseCompact O fun _ => 0).1
  if input.length = 0 then .ok (initial, false)
  else do
    let tag ← peek input 0
    if tag ≠ 0x30 then .ok (initial, false)
    else
      let l := input.drop 1
      if l.length = 0 then .ok (initial, false)
      else
        let lenbyte ← peek l 0
        let l := l.drop 1
        let skip := if lenbyte &&& 0x80 ≠ 0 then lenbyte.toNat - 0x80 else 0
        if skip > l.length then .ok (initial, false)
        else
          match ← laxInteger w (l.drop skip) with
          | none => .ok (initial, false)
          | some (rpos, rlen) =>
            match ← laxInteger w (rpos.drop rlen) with
            | none => .ok (initial, false)
            | some (spos, slen) =>
              let r ← laxValue rpos rlen
              let s ← laxValue spos slen
              match r, s with
              | some r, some s =>
                let (sig, ok) := signatureParseCompact O (Fin.append (pad32 r) (pad32 s))
                return (if ok then sig else initial, true)
              | _, _ => return (initial, true)

end

/-! ## Agreement with the strict parser -/

section

variable {w : ℕ} (hw : 40 ≤ w)

include hw

theorem laxOctets_spec (o rest : List Byte) (ret : BitVec w)
    (h : ret.toNat * 256 ^ o.length + beNat o < 2 ^ 31) :
    ∃ v, laxOctets w o.length ret (o ++ rest) = .ok (v, rest) ∧
      v.toNat = ret.toNat * 256 ^ o.length + beNat o := by
  induction o generalizing ret with
  | nil => exact ⟨ret, rfl, by simp⟩
  | cons b t ih =>
    have hv : ret.toNat * 256 ^ (b :: t).length + beNat (b :: t) =
        (ret.toNat * 256 + b.toNat) * 256 ^ t.length + beNat t := by
      rw [List.length_cons, beNat_cons]
      ring
    have hpow : 2 ^ 40 ≤ 2 ^ w := Nat.pow_le_pow_right (by omega) hw
    have hge : ret.toNat * 256 + b.toNat ≤ (ret.toNat * 256 + b.toNat) * 256 ^ t.length :=
      Nat.le_mul_of_pos_right _ (by positivity)
    rw [hv] at h ⊢
    have hb := b.isLt
    have hret : (ret <<< 8 + b.setWidth w).toNat = ret.toNat * 256 + b.toNat :=
      Word.toNat_add (Word.toNat_shl 8 rfl (by omega)) (Word.toNat_setWidth rfl (by omega))
        (by omega)
    obtain ⟨v, hval, hnat⟩ := ih (ret <<< 8 + b.setWidth w) (by rwa [hret])
    exact ⟨v, hval, by rw [hnat, hret]⟩

theorem laxReadLen_complete {v : ℕ} {len : List Byte} (h : LenEnc v len) (l : List Byte)
    (hv : v < 2 ^ 31) :
    ∃ u, laxReadLen w (len ++ l) = .ok (some (u, l)) ∧ u.toNat = v := by
  have hpow : 2 ^ 40 ≤ 2 ^ w := Nat.pow_le_pow_right (by omega) hw
  cases h with
  | short b hb =>
    refine ⟨b.setWidth w, ?_, Word.toNat_setWidth rfl (by omega)⟩
    change (if b &&& 0x80 ≠ 0 then _ else _) = _
    rw [if_neg (not_not.mpr ((and_0x80_eq_zero b).mpr hb))]
    rfl
  | long o h0 h1 =>
    obtain ⟨-, hand, -, -, hcount⟩ := long_tag h1 h0
    have hskip := skipZeros_spec o l
    have hshort : ¬ (o.dropWhile (· = 0)).length ≥ w / 8 := by
      intro hge
      have hbig := pow_le_beNat (c := o) (k := 4) (by omega)
      omega
    have hval := beNat_dropWhile o
    obtain ⟨u, hu, hnat⟩ := laxOctets_spec hw (o.dropWhile (· = 0)) l 0
      (by rw [Word.toNat_zero, zero_mul, zero_add, hval]; exact hv)
    rw [Word.toNat_zero, zero_mul, zero_add, hval] at hnat
    refine ⟨u, ?_, hnat⟩
    rw [List.cons_append, laxReadLen, List.length_cons, if_neg (Nat.succ_ne_zero _),
      peek_cons_zero, ok_bind]
    simp only [List.drop_succ_cons, List.drop_zero]
    rw [if_pos hand, hcount, if_neg (by rw [List.length_append]; omega), hskip, ok_bind]
    simp only []
    rw [if_neg hshort, hu]
    rfl

theorem laxInteger_complete {c i : List Byte} (h : IntEnc c i) (rest : List Byte)
    (hlt : (i ++ rest).length < 2 ^ 31) :
    laxInteger w (i ++ rest) = .ok (some (c ++ rest, c.length)) := by
  obtain ⟨len, hlen, -, -, rfl⟩ := h
  simp only [List.cons_append, List.append_assoc, List.length_cons, List.length_append] at hlt ⊢
  obtain ⟨u, hu, hnat⟩ := laxReadLen_complete hw hlen (c ++ rest) (by omega)
  rw [laxInteger, List.length_cons, if_neg (Nat.succ_ne_zero _), peek_cons_zero, ok_bind,
    if_neg (not_not.mpr rfl), List.drop_succ_cons, List.drop_zero, hu, ok_bind]
  simp only []
  rw [hnat, if_neg (by rw [List.length_append]; omega)]

omit hw in
theorem laxValue_spec {c : List Byte} (h : beNat c < n) (rest : List Byte) :
    laxValue (c ++ rest) c.length = .ok (some (c.dropWhile (· = 0))) := by
  have hshort : ¬ (c.dropWhile (· = 0)).length > 32 := by
    intro hgt
    have hbig := pow_le_beNat hgt
    have hn : n < 256 ^ 32 := n_lt.trans_eq (by norm_num)
    omega
  rw [laxValue, skipZeros_spec, ok_bind]
  simp only []
  rw [if_neg hshort, readBytes, if_pos (by rw [List.length_append]; omega), List.take_left]
  rfl

end

theorem beNat_of_scalarOf {c : List Byte} {v : ℕ} (h : v = scalarOf (integer c)) (h0 : v ≠ 0) :
    beNat c < n ∧ beNat c = v := by
  have hlt := beNat_lt c
  rw [scalarOf] at h
  split at h
  · rename_i hc
    rw [integer] at h hc
    split at h
    · rename_i hneg
      rw [if_pos hneg] at hc
      zify at hlt
      omega
    · rename_i hneg
      rw [if_neg hneg] at hc
      omega
  · exact absurd h h0

section

variable {S : Type} {O : ScalarOps S} {val : S → ℕ} (hO : O.Sound val)

include hO

theorem signatureParseCompact_spec {r s : List Byte} (hr : r.length ≤ 32) (hs : s.length ≤ 32)
    (hrn : beNat r < n) (hsn : beNat s < n) :
    ∃ a b, signatureParseCompact O (Fin.append (pad32 r) (pad32 s)) = ((a, b), true) ∧
      val a = beNat r ∧ val b = beNat s := by
  have hr32 := be_pad32 hr
  have hs32 := be_pad32 hs
  have hfit : Bytes.be (pad32 r) < n := hr32.trans_lt hrn
  have hfit' : Bytes.be (pad32 s) < n := hs32.trans_lt hsn
  refine ⟨_, _, ?_, (hO.val_setB32 hfit).trans hr32, (hO.val_setB32 hfit').trans hs32⟩
  simp only [signatureParseCompact, Fin.append_left, Fin.append_right, hO.setB32_fits.mpr hfit,
    hO.setB32_fits.mpr hfit']
  rfl

omit hO in
/-- The octets of a length that the lax parser skips unread. -/
theorem lenEnc_skip {v : ℕ} {len : List Byte} (h : LenEnc v len) :
    ∃ b o, len = b :: o ∧ (if b &&& 0x80 ≠ 0 then b.toNat - 0x80 else 0) = o.length := by
  cases h with
  | short b hb => exact ⟨_, [], rfl, if_neg (not_not.mpr ((and_0x80_eq_zero b).mpr hb))⟩
  | long o h0 h1 =>
    obtain ⟨-, hand, -, -, hcount⟩ := long_tag h1 h0
    exact ⟨_, o, rfl, (if_pos hand).trans hcount⟩

theorem laxParse_complete {w : ℕ} (hw : 40 ≤ w) {cr cs x : List Byte} (h : SigEnc cr cs x)
    (hlt : x.length < 2 ^ 31) (hr : beNat cr < n) (hs : beNat cs < n) :
    ∃ r s, ecdsaSignatureParseDerLax O w x = .ok ((r, s), true) ∧ val r = beNat cr ∧
      val s = beNat cs := by
  obtain ⟨len, i, j, hi, hj, hlen, rfl⟩ := h
  rw [List.length_cons, List.length_append, List.length_append] at hlt
  have h1 := laxInteger_complete hw hi j (by rw [List.length_append]; omega)
  have h2 := laxInteger_complete hw hj [] (by rw [List.append_nil]; omega)
  rw [List.append_nil, List.append_nil] at h2
  have hvr := laxValue_spec hr j
  have hvs := laxValue_spec hs []
  rw [List.append_nil] at hvs
  have hzr := beNat_dropWhile cr
  have hzs := beNat_dropWhile cs
  have hn : n < 256 ^ 32 := n_lt.trans_eq (by norm_num)
  have hlr : (cr.dropWhile (· = 0)).length ≤ 32 := by
    by_contra hgt
    have := pow_le_beNat (c := cr) (k := 32) (by omega)
    omega
  have hls : (cs.dropWhile (· = 0)).length ≤ 32 := by
    by_contra hgt
    have := pow_le_beNat (c := cs) (k := 32) (by omega)
    omega
  obtain ⟨r, s, hsig, hvalr, hvals⟩ :=
    signatureParseCompact_spec hO hlr hls (hzr.trans_lt hr) (hzs.trans_lt hs)
  refine ⟨r, s, ?_, hvalr.trans hzr, hvals.trans hzs⟩
  -- the sequence: its length is skipped whatever it says
  obtain ⟨b, o, rfl, hb⟩ := lenEnc_skip hlen
  rw [List.cons_append, ecdsaSignatureParseDerLax]
  simp only [List.length_cons, Nat.succ_ne_zero, if_false, peek_cons_zero, ok_bind, ne_eq,
    not_true_eq_false, List.drop_succ_cons, List.drop_zero]
  simp only [ne_eq] at hb
  rw [hb, if_neg (by rw [List.length_append]; omega), List.drop_left, h1, ok_bind]
  simp only [List.drop_left, h2, ok_bind, hvr, hvs]
  rw [hsig]
  rfl

end

/-- Where the parser of the library returns two scalars other than 0, the lax parser succeeds and
stores the same pair, in either scalar backend and with 64-bit `size_t`. -/
theorem laxParse_agrees (c : ScalarBackend) (x : List Byte) (hx : x.length ≤ 2 ^ 31 - 1)
    (r s : c.Scalar) (h : ecdsaSigParse c.ops 64 x = .ok (some (r, s))) (hr : c.val r ≠ 0)
    (hs : c.val s ≠ 0) :
    ecdsaSignatureParseDerLax c.ops 64 x = .ok ((r, s), true) := by
  rcases ecdsaSigParse_cases c.sound (w := 64) (by decide) x (by omega) with
    hnone | ⟨cr, cs, r', s', henc, hsome⟩
  · rw [hnone] at h
    exact nomatch h
  · obtain ⟨r1, s1, hp, hvr, hvs⟩ :=
      ecdsaSigParse_complete c.sound (w := 64) (by decide) henc (by omega)
    rw [h] at hp
    cases hp
    obtain ⟨hrn, hrv⟩ := beNat_of_scalarOf hvr hr
    obtain ⟨hsn, hsv⟩ := beNat_of_scalarOf hvs hs
    obtain ⟨r2, s2, hlax, h2r, h2s⟩ :=
      laxParse_complete c.sound (w := 64) (by decide) henc (by omega) hrn hsn
    rw [c.sound.val_inj _ _ (h2r.trans hrv), c.sound.val_inj _ _ (h2s.trans hsv)] at hlax
    exact hlax

/-- The pair `(5, 7)`, the length of the sequence padded. -/
theorem laxParse_agrees_demo :
    let x : List Byte := [0x30, 0x82, 0x00, 0x06, 0x02, 0x01, 0x05, 0x02, 0x01, 0x07]
    ∃ r s, ecdsaSigParse ScalarBackend.limbs8x32.ops 64 x = .ok (some (r, s)) ∧
      ScalarBackend.limbs8x32.val r = 5 ∧ ScalarBackend.limbs8x32.val s = 7 ∧
      ecdsaSignatureParseDerLax ScalarBackend.limbs8x32.ops 64 x = .ok ((r, s), true) := by
  intro x
  have hint (b : Byte) : IntEnc [b] [0x02, 0x01, b] :=
    ⟨[0x01], LenEnc.short 0x01 (by decide), List.cons_ne_nil _ _, trivial, rfl⟩
  have hx : SigEnc [0x05] [0x07] x :=
    ⟨[0x82, 0x00, 0x06], [0x02, 0x01, 0x05], [0x02, 0x01, 0x07], hint 0x05, hint 0x07,
      LenEnc.long [0x00, 0x06] (by decide) (by decide), rfl⟩
  obtain ⟨r, s, hp, hr, hs⟩ :=
    ecdsaSigParse_complete ScalarBackend.limbs8x32.sound (w := 64) (by decide) hx (by decide)
  have hr5 : ScalarBackend.limbs8x32.val r = 5 := hr.trans (by decide)
  have hs7 : ScalarBackend.limbs8x32.val s = 7 := hs.trans (by decide)
  exact ⟨r, s, hp, hr5, hs7, laxParse_agrees .limbs8x32 x (by decide) r s hp
    (by rw [hr5]; decide) (by rw [hs7]; decide)⟩

end Secp256k1.Der
