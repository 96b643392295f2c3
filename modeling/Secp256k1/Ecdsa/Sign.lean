import Secp256k1.Ecdsa.Recover
import Secp256k1.Ecmult.GenCorrect
import Secp256k1.Pubkey
import Secp256k1.Scalar.Inverse

/-!
# Signatures

`secp256k1_ecdsa_sig_sign` of `ecdsa_impl.h`, in a build without `VERIFY`, and the signing functions
of `secp256k1.c` and `modules/recovery/main_impl.h`. An opaque signature holds its two scalars,
copied with `memcpy`. The loop that asks for nonces takes a bound on the number of calls; `none` is
a fault or a bound that was too small.

The signature is one for the nonce or for its opposite, whichever makes `s` the smaller of the two;
the recovery id follows. It is accepted for the key, and the key is recovered from it.
-/

namespace Secp256k1

structure EcdsaSignature (S : Type) where
  r : S
  s : S

structure RecoverableSignature (S : Type) where
  r : S
  s : S
  recid : Byte

/-- `secp256k1_nonce_function`; the algorithm's name may be `NULL`. -/
def EcdsaNonceFunction (D : Type) : Type :=
  (Fin 32 → Byte) → (Fin 32 → Byte) → Option (Fin 16 → Byte) → D → BitVec 32 →
    CInt × (Fin 32 → Byte)

section

variable {F S D : Type} (B : FieldOps F) (O : ScalarOps S) (g : Gmp)
  (ecmult : Gej F → S → S → Option (Gej F)) (ecmultGen : S → Option (Gej F))
  (nonceFunctionDefault : EcdsaNonceFunction D)

/-- The two scalars, the recovery id for those who ask for it, and the value returned. -/
def ecdsaSigSign (seckey message nonce : S) : Option (S × S × CInt × Bool) := do
  let rp ← ecmultGen nonce
  let (r, _) ← geSetGej B rp
  let x ← B.normalize r.x
  let y ← B.normalize r.y
  let (sigr, overflow) := O.setB32 (B.getB32 x)
  let recid : CInt := (if overflow ≠ 0 then 2 else 0) ||| (if B.isOdd y then 1 else 0)
  let n := (O.add (O.mul sigr seckey) message).1
  let sigs := O.mul (scalarInverse O nonce) n
  if O.isZero sigs then return (sigr, sigs, recid, false)
  else if O.isHigh sigs ≠ 0 then return (sigr, O.negate sigs, recid ^^^ 1, true)
  else return (sigr, sigs, recid, true)

/-- The loop over nonces: the last value of the nonce function, with the signature, or `none` where
that value is 0. -/
def signLoop (noncefp : BitVec 32 → CInt × (Fin 32 → Byte)) (sec msg : S) :
    ℕ → BitVec 32 → Option (Option (CInt × S × S × CInt))
  | 0, _ => none
  | fuel + 1, count =>
    let (ret, nonce32) := noncefp count
    if ret = 0 then some none
    else
      let (non, overflow) := O.setB32 nonce32
      if overflow = 0 ∧ !O.isZero non then do
        let (r, s, recid, ok) ← ecdsaSigSign B O ecmultGen sec msg non
        if ok then return some (ret, r, s, recid)
        else signLoop noncefp sec msg fuel (count + 1)
      else signLoop noncefp sec msg fuel (count + 1)

/-- What the two signing functions share: `none` for the return value 0. -/
def signWith (fuel : ℕ) (msg32 seckey : Fin 32 → Byte) (noncefp : Option (EcdsaNonceFunction D))
    (noncedata : D) : Option (Option (CInt × S × S × CInt)) :=
  let (sec, overflow) := O.setB32 seckey
  if overflow = 0 ∧ !O.isZero sec then
    let (msg, _) := O.setB32 msg32
    signLoop B O ecmultGen ((noncefp.getD nonceFunctionDefault) msg32 seckey none noncedata) sec msg
      fuel 0
  else some none

/-- The signature, zero on failure, and the value returned. -/
def ecdsaSign (fuel : ℕ) (msg32 seckey : Fin 32 → Byte) (noncefp : Option (EcdsaNonceFunction D))
    (noncedata : D) : Option (EcdsaSignature S × CInt) := do
  match ← signWith B O ecmultGen nonceFunctionDefault fuel msg32 seckey noncefp noncedata with
  | none => return (⟨O.clear, O.clear⟩, 0)
  | some (ret, r, s, _) => return (⟨r, s⟩, ret)

def ecdsaSignRecoverable (fuel : ℕ) (msg32 seckey : Fin 32 → Byte)
    (noncefp : Option (EcdsaNonceFunction D)) (noncedata : D) :
    Option (RecoverableSignature S × CInt) := do
  match ← signWith B O ecmultGen nonceFunctionDefault fuel msg32 seckey noncefp noncedata with
  | none => return (⟨O.clear, O.clear, 0⟩, 0)
  | some (ret, r, s, recid) => return (⟨r, s, recid.setWidth 8⟩, ret)

def ecdsaRecoverableSignatureConvert (sigin : RecoverableSignature S) : EcdsaSignature S :=
  ⟨sigin.r, sigin.s⟩

def ecdsaVerify (sig : EcdsaSignature S) (msg32 : Fin 32 → Byte) (pubkey : GeStorage) :
    Option Bool :=
  let (m, _) := O.setB32 msg32
  if O.isHigh sig.s ≠ 0 then some false
  else
    let (q, ok) := pubkeyLoad B pubkey
    if !ok then some false
    else ecdsaSigVerify B O g ecmult sig.r sig.s q m

/-- The key, zero on failure, and the value returned; `q` is what the memory held. -/
def ecdsaRecover (q : Ge F) (signature : RecoverableSignature S) (msg32 : Fin 32 → Byte) :
    Option (GeStorage × Bool) := do
  let (m, _) := O.setB32 msg32
  match ← ecdsaSigRecover B O g ecmult signature.r signature.s q m
    (signature.recid.setWidth 32) with
  | none => return (zeroPubkey, false)
  | some q =>
    let pubkey ← pubkeySave B q
    return (pubkey, true)

end

/-! ## The signature equation -/

/-- The x coordinate of a point, as a number. -/
def xVal : Point → ℕ
  | .zero => 0
  | .some x _ _ => x.val

theorem OnCurve.xVal_point {x y : ZMod p} (h : OnCurve x y) : xVal h.point = x.val := rfl

/-- The scalars of a signature of `m` under `d`, made with the nonce `k` and its point `(v, w)`. -/
structure SignedWith (d m r s : ℕ) (recid : CInt) (k : ℕ) (v w : ZMod p) : Prop where
  point : OnCurve v w
  nonce : point.point = k • generator
  r_eq : r = v.val % n
  s_eq : (s * k : ZMod n) = r * d + m
  s_pos : 0 < s
  s_low : s ≤ n / 2
  second : recid &&& 2 ≠ 0 ↔ n ≤ v.val
  odd : recid &&& 1 ≠ 0 ↔ w.val % 2 = 1
  recid_lt : recid.toNat < 4

/-- The recovery id, from the two bits and the opposite of the second. -/
theorem recid_bits (overflow odd : Bool) :
    let recid : CInt := (if overflow then 2 else 0) ||| (if odd then 1 else 0)
    (recid &&& 2 ≠ 0 ↔ overflow = true) ∧ (recid &&& 1 ≠ 0 ↔ odd = true) ∧ recid.toNat < 4 ∧
      ((recid ^^^ 1) &&& 2 ≠ 0 ↔ overflow = true) ∧ ((recid ^^^ 1) &&& 1 ≠ 0 ↔ odd = false) ∧
      (recid ^^^ 1).toNat < 4 := by
  revert overflow odd
  decide

theorem signScalar_spec {S : Type} {O : ScalarOps S} {val : S → ℕ} (hO : O.Sound val) {d m r k : S}
    (hm : val m < n) (hk0 : 0 < val k) (hk : val k < n) :
    (val (O.mul (scalarInverse O k) (O.add (O.mul r d) m).1) * val k : ZMod n) =
        val r * val d + val m ∧
      val (O.mul (scalarInverse O k) (O.add (O.mul r d) m).1) < n := by
  have hmul := hO.mul r d
  obtain ⟨hadd, -⟩ := hO.add (O.mul r d) m (hmul.trans_lt (Nat.mod_lt _ n_pos)) hm
  have hinv : (val k * val (scalarInverse O k) : ZMod n) = 1 := by
    rw [← Nat.cast_mul, ← ZMod.natCast_mod, scalarInverse_spec hO hk0 hk, Nat.cast_one]
  refine ⟨?_, (hO.mul _ _).trans_lt (Nat.mod_lt _ n_pos)⟩
  rw [hO.mul, ZMod.natCast_mod, Nat.cast_mul, hadd, ZMod.natCast_mod, Nat.cast_add, hmul,
    ZMod.natCast_mod, Nat.cast_mul]
  linear_combination ((val r : ZMod n) * val d + val m) * hinv

/-- It is zero only for a sum that is. -/
theorem signScalar_eq_zero {d m r s k : ℕ} (hs : (s * k : ZMod n) = r * d + m) (hlt : s < n)
    (hk0 : 0 < k) (hk : k < n) : s = 0 ↔ (r * d + m) % n = 0 := by
  have _ : Fact n.Prime := ⟨n_prime⟩
  have hkne : (k : ZMod n) ≠ 0 := by
    rw [ne_eq, ZMod.natCast_eq_zero_iff]
    exact fun h => absurd (Nat.le_of_dvd hk0 h) (not_le.mpr hk)
  rw [← Nat.dvd_iff_mod_eq_zero, ← ZMod.natCast_eq_zero_iff, Nat.cast_add, Nat.cast_mul, ← hs]
  constructor
  · rintro rfl
    rw [Nat.cast_zero, zero_mul]
  · intro h
    have hdvd := (ZMod.natCast_eq_zero_iff _ _).mp ((mul_eq_zero.mp h).resolve_right hkne)
    exact Nat.eq_zero_of_dvd_of_lt hdvd hlt

theorem cast_order_sub {k : ℕ} (hk : k ≤ n) : ((n - k : ℕ) : ZMod n) = -k := by
  rw [Nat.cast_sub hk, ZMod.natCast_self, zero_sub]

/-- The opposite of a signature with a large `s` is one for the opposite nonce. -/
theorem SignedWith.opposite {d m r s k : ℕ} {recid : CInt} {v w : ZMod p} (h : OnCurve v w)
    (hp : h.point = k • generator) (hr : r = v.val % n) (hk : k < n)
    (hs : (s * k : ZMod n) = r * d + m) (hhigh : n / 2 < s) (hlt : s < n)
    (h2 : recid &&& 2 ≠ 0 ↔ n ≤ v.val) (h1 : recid &&& 1 ≠ 0 ↔ ¬ w.val % 2 = 1)
    (h4 : recid.toNat < 4) :
    SignedWith d m r (n - s) recid ((n - k) % n) v (-w) := by
  have hodd : n = 2 * (n / 2) + 1 := by decide
  refine ⟨h.neg, ?_, hr, ?_, by omega, by omega, h2, h1.trans (val_neg_mod_two h.y_ne_zero).symm,
    h4⟩
  · rw [h.neg_point, hp, neg_smul_eq hk.le]
  · rw [ZMod.natCast_mod, cast_order_sub hlt.le, cast_order_sub hk.le, neg_mul_neg, hs]

section

variable {b : FieldBackend} (hb : b.Sound) {c : ScalarBackend}
  {ecmultGen : c.Scalar → Option (Gej b.Fe)} (hgen : b.EcmultGenSpec c ecmultGen)
include hb hgen

/-- A nonce gives a signature unless the sum that is multiplied vanishes. -/
theorem ecdsaSigSign_spec {d m k : c.Scalar} (hm : c.val m < n) (hk0 : 0 < c.val k)
    (hk : c.val k < n) :
    Yields (ecdsaSigSign b.ops c.ops ecmultGen d m k) fun t =>
      if (xVal (c.val k • generator) % n * c.val d + c.val m) % n = 0 then t.2.2.2 = false
      else t.2.2.2 = true ∧ c.val t.1 = xVal (c.val k • generator) % n ∧
        ∃ k' v w, SignedWith (c.val d) (c.val m) (c.val t.1) (c.val t.2.1) t.2.2.1 k' v w := by
  have hO := c.sound
  unfold ecdsaSigSign
  refine genAffine_spec hb hgen hk0 hk fun q v w h hp _ hx hy => ?_
  obtain ⟨q, a⟩ := q
  refine ((b.values hb).normalize (by norm_num) hx).bind fun x hx => ?_
  refine ((b.values hb).normalize (by norm_num) hy).bind fun y hy => ?_
  obtain ⟨hr, hover⟩ := hO.setB32 (b.ops.getB32 x)
  rw [(b.values hb).getB32 hx] at hr hover
  have hodd := (b.values hb).isOdd hy
  rw [← hp, h.xVal_point]
  generalize c.ops.setB32 (b.ops.getB32 x) = rv at hr hover ⊢
  obtain ⟨r, overflow⟩ := rv
  dsimp only at hr hover ⊢
  obtain ⟨hs, hlt⟩ := signScalar_spec hO (d := d) (r := r) hm hk0 hk
  have hzero := signScalar_eq_zero hs hlt hk0 hk
  generalize c.ops.mul (scalarInverse c.ops k) (c.ops.add (c.ops.mul r d) m).1 = s at hs hlt hzero ⊢
  have hsecond : overflow ≠ 0 ↔ decide (n ≤ v.val) = true := by
    rw [hover]
    cases decide (n ≤ v.val) <;> decide
  obtain ⟨h2, h1, h4, h2', h1', h4'⟩ := recid_bits (decide (n ≤ v.val)) (b.ops.isOdd y)
  rw [← if_congr hsecond rfl rfl] at h2 h1 h4 h2' h1' h4'
  rw [decide_eq_true_iff] at h2 h2'
  replace h1 := h1.trans hodd
  have heven : b.ops.isOdd y = false ↔ ¬ w.val % 2 = 1 := by
    rw [← hodd, Bool.not_eq_true]
  replace h1' := h1'.trans heven
  rw [hO.isZero, ← hr]
  by_cases hs0 : c.val s = 0
  · rw [if_pos (decide_eq_true hs0)]
    refine .pure ?_
    rw [if_pos (hzero.mp hs0)]
  have hsum := mt hzero.mpr hs0
  rw [if_neg (by rwa [decide_eq_true_iff])]
  by_cases hhigh : n / 2 < c.val s
  · have hneg : c.val (c.ops.negate s) = n - c.val s := by
      rw [hO.negate s hlt, Nat.mod_eq_of_lt (by omega)]
    rw [if_pos (hO.isHigh_ne_zero.mpr hhigh)]
    refine .pure ?_
    rw [if_neg hsum]
    refine ⟨rfl, rfl, (n - c.val k) % n, v, -w, ?_⟩
    rw [hneg]
    exact .opposite h hp hr hk hs hhigh hlt h2' h1' h4'
  · rw [if_neg (mt hO.isHigh_ne_zero.mp hhigh)]
    refine .pure ?_
    rw [if_neg hsum]
    exact ⟨rfl, rfl, c.val k, v, w, h, hp, hr, hs, Nat.pos_of_ne_zero hs0, not_lt.mp hhigh, h2, h1,
      h4⟩

end

/-! ## What the verifier and the recovery make of it -/

/-- The point of the nonce is the one the verifier computes. -/
theorem SignedWith.solve {d m r s k sn : ℕ} {recid : CInt} {v w : ZMod p}
    (h : SignedWith d m r s recid k v w) (hsn : s * sn % n = 1) {Q : Point}
    (hQ : Q = d • generator) :
    (sn * r % n) • Q + (sn * m % n) • generator = h.point.point := by
  let _ : Module (ZMod n) Point := AddCommGroup.zmodModule order_smul
  have hcast : ∀ (k : ℕ) (P : Point), k • P = (k : ZMod n) • P := fun k P =>
    (Nat.cast_smul_eq_nsmul (ZMod n) k P).symm
  have hsn' : (s * sn : ZMod n) = 1 := by
    rw [← Nat.cast_mul, ← ZMod.natCast_mod, hsn, Nat.cast_one]
  rw [hQ, h.nonce]
  simp only [hcast, ZMod.natCast_mod, Nat.cast_mul]
  rw [smul_smul, ← add_smul]
  congr 1
  linear_combination -(sn : ZMod n) * h.s_eq + k * hsn'

/-- Its x coordinate is one that both functions try. -/
theorem SignedWith.candidate {b : FieldBackend} {c : ScalarBackend} {d m k : ℕ} {r s : c.Scalar}
    {recid : CInt} {v w : ZMod p} (h : SignedWith d m (c.val r) (c.val s) recid k v w)
    (hlow : n ≤ v.val → BelowDifference b c r) : Candidate b c r (recid &&& 2 ≠ 0) v := by
  have hr := h.r_eq
  by_cases hv : n ≤ v.val
  · refine .inr ⟨h.second.mpr hv, hlow hv, ?_⟩
    have hlt := ZMod.val_lt v
    have h2 : p < 2 * n := by decide
    rw [Nat.mod_eq_sub_mod hv, Nat.mod_eq_of_lt (by omega)] at hr
    rw [hr, ← Nat.cast_add, Nat.sub_add_cancel hv, ZMod.natCast_zmod_val]
  · refine .inl ⟨mt h.second.mp hv, ?_⟩
    rw [Nat.mod_eq_of_lt (not_le.mp hv)] at hr
    rw [hr, ZMod.natCast_zmod_val]

section

variable {b : FieldBackend} (hb : b.Sound) {c : ScalarBackend} {g : Gmp} (hg : g.Sound)
  {ecmult : Gej b.Fe → c.Scalar → c.Scalar → Option (Gej b.Fe)} (hec : b.EcmultSpec c ecmult)
  {d k : ℕ} {m r s : c.Scalar} {recid : CInt} {v w : ZMod p}
  (h : SignedWith d (c.val m) (c.val r) (c.val s) recid k v w) (hr0 : 0 < c.val r)
  (hlow : n ≤ v.val → BelowDifference b c r)

include h in
theorem SignedWith.r_lt : c.val r < n := h.r_eq.trans_lt (Nat.mod_lt _ n_pos)

include h in
theorem SignedWith.s_lt : c.val s < n := by
  have := h.s_low
  have := n_pos
  omega

include hb hg hec h hr0 hlow

theorem SignedWith.verify {q : Ge b.Fe} {x y : ZMod p} (hq : b.AffineOf q x y)
    (hQ : hq.point.point = d • generator) :
    ecdsaSigVerify b.ops c.ops g ecmult r s q m = some true := by
  obtain ⟨sn, hsn, ok, heq, hok⟩ := ecdsaSigVerify_spec (m := m) hb hg hec hr0 h.r_lt h.s_pos h.s_lt
    hq
  rw [heq, hok.mpr ⟨v, w, h.point, ⟨_, h.candidate hlow⟩, h.solve hsn hQ⟩]

theorem SignedWith.recover (pubkey : Ge b.Fe) {x y : ZMod p} (hp : OnCurve x y)
    (hQ : hp.point = d • generator) :
    ∃ q, ecdsaSigRecover b.ops c.ops g ecmult r s pubkey m recid = some (some q) ∧
      b.AffineOf q x y := by
  obtain ⟨rn, hrn, o, heq, ho⟩ := ecdsaSigRecover_spec (m := m) hb hg hec hr0 h.r_lt h.s_pos pubkey
    recid
  obtain ⟨sn, -, -, hsn⟩ := scalarInverseVar_spec c.sound hg h.s_pos h.s_lt
  obtain ⟨q, rfl, hq⟩ := (ho x y hp).mpr ⟨v, w, h.point, h.candidate hlow, h.odd.symm,
    (solve_iff hrn hsn _ _).mp (h.solve hsn hQ)⟩
  exact ⟨q, heq, hq⟩

end

/-! ## The loop over nonces -/

/-- A nonce that gives a signature of `m` under `d`. -/
def Signable (d m : ℕ) (nonce : Fin 32 → Byte) : Prop :=
  Usable nonce ∧ (xVal (Bytes.be nonce • generator) % n * d + m) % n ≠ 0

/-- Below the counter `count` the nonce function succeeds, with nonces that give no signature. -/
def SignRetriesUntil (d m : ℕ) (noncefp : BitVec 32 → CInt × (Fin 32 → Byte)) (count : BitVec 32) :
    Prop :=
  ∀ i, i < count → (noncefp i).1 ≠ 0 ∧ ¬ Signable d m (noncefp i).2

def SignedBy {c : ScalarBackend} (d m : ℕ) (nonce : Fin 32 → Byte) (r s : c.Scalar) (recid : CInt) :
    Prop :=
  c.val r = xVal (Bytes.be nonce • generator) % n ∧
    ∃ k v w, SignedWith d m (c.val r) (c.val s) recid k v w

section

variable {b : FieldBackend} (hb : b.Sound) {c : ScalarBackend}
  {ecmultGen : c.Scalar → Option (Gej b.Fe)} (hgen : b.EcmultGenSpec c ecmultGen)
  {noncefp : BitVec 32 → CInt × (Fin 32 → Byte)} {d m : c.Scalar}

theorem signLoop_fail {count : BitVec 32} (h : (noncefp count).1 = 0) (fuel : ℕ) :
    signLoop b.ops c.ops ecmultGen noncefp d m (fuel + 1) count = some none := by
  rw [signLoop]
  exact if_pos h

variable (hm : c.val m < n)
include hb hgen hm

theorem signLoop_take {count : BitVec 32} (h : (noncefp count).1 ≠ 0)
    (hs : Signable (c.val d) (c.val m) (noncefp count).2) (fuel : ℕ) :
    ∃ r s recid, signLoop b.ops c.ops ecmultGen noncefp d m (fuel + 1) count =
        some (some ((noncefp count).1, r, s, recid)) ∧
      SignedBy (c.val d) (c.val m) (noncefp count).2 r s recid := by
  obtain ⟨hu, hsum⟩ := hs
  have hval := c.sound.val_setB32 hu.2
  obtain ⟨⟨r, s, recid, ok⟩, heq, ht⟩ :=
    ecdsaSigSign_spec hb hgen (d := d) (k := (c.ops.setB32 (noncefp count).2).1) hm (hval ▸ hu.1)
      (hval ▸ hu.2)
  rw [hval, if_neg hsum] at ht
  obtain ⟨rfl, hr, hwith⟩ := ht
  refine ⟨r, s, recid, ?_, hr, hwith⟩
  unfold signLoop
  simp only [if_neg h, if_pos ((usable_iff c.sound _).mpr hu), heq]
  rfl

theorem signLoop_retry {count : BitVec 32} (h : (noncefp count).1 ≠ 0)
    (hs : ¬ Signable (c.val d) (c.val m) (noncefp count).2) (fuel : ℕ) :
    signLoop b.ops c.ops ecmultGen noncefp d m (fuel + 1) count =
      signLoop b.ops c.ops ecmultGen noncefp d m fuel (count + 1) := by
  rw [signLoop]
  by_cases hu : Usable (noncefp count).2
  · have hsum :
        (xVal (Bytes.be (noncefp count).2 • generator) % n * c.val d + c.val m) % n = 0 := by
      by_contra hne
      exact hs ⟨hu, hne⟩
    have hval := c.sound.val_setB32 hu.2
    obtain ⟨⟨r, s, recid, ok⟩, heq, ht⟩ :=
      ecdsaSigSign_spec hb hgen (d := d) (k := (c.ops.setB32 (noncefp count).2).1) hm (hval ▸ hu.1)
        (hval ▸ hu.2)
    rw [hval, if_pos hsum] at ht
    obtain rfl : ok = false := ht
    simp only [if_neg h, if_pos ((usable_iff c.sound _).mpr hu), heq]
    rfl
  · simp only [if_neg h, if_neg (mt (usable_iff c.sound _).mp hu)]

theorem signLoop_reaches {count : BitVec 32}
    (h : SignRetriesUntil (c.val d) (c.val m) noncefp count) (fuel j : ℕ) (hj : j ≤ count.toNat) :
    signLoop b.ops c.ops ecmultGen noncefp d m (j + fuel) (count - BitVec.ofNat 32 j) =
      signLoop b.ops c.ops ecmultGen noncefp d m fuel count := by
  induction j with
  | zero => rw [Nat.zero_add, BitVec.sub_zero]
  | succ j ih =>
    have hlt : count - BitVec.ofNat 32 (j + 1) < count := by
      rw [BitVec.lt_def]
      bv_omega
    obtain ⟨hs, hu⟩ := h _ hlt
    rw [Nat.add_right_comm, signLoop_retry hb hgen hm hs hu]
    rw [show count - BitVec.ofNat 32 (j + 1) + 1 = count - BitVec.ofNat 32 j by bv_omega]
    exact ih (by omega)

theorem signLoop_from_zero {count : BitVec 32}
    (h : SignRetriesUntil (c.val d) (c.val m) noncefp count) {fuel : ℕ} (hf : count.toNat < fuel) :
    ∃ k, signLoop b.ops c.ops ecmultGen noncefp d m fuel 0 =
      signLoop b.ops c.ops ecmultGen noncefp d m (k + 1) count := by
  obtain ⟨k, rfl⟩ := Nat.exists_eq_add_of_lt hf
  refine ⟨k, ?_⟩
  have := signLoop_reaches hb hgen hm h (k + 1) count.toNat le_rfl
  rwa [BitVec.ofNat_toNat, BitVec.setWidth_eq, BitVec.sub_self, ← Nat.add_assoc] at this

end

/-! ## Signing, verification and recovery -/

/-- What the nonce function in use answers to the counters. -/
def ecdsaNonces {D : Type} (nonceFunctionDefault : EcdsaNonceFunction D)
    (noncefp : Option (EcdsaNonceFunction D)) (msg32 seckey : Fin 32 → Byte) (noncedata : D) :
    BitVec 32 → CInt × (Fin 32 → Byte) :=
  (noncefp.getD nonceFunctionDefault) msg32 seckey none noncedata

/-- Only the point with the x coordinate `n` gives the scalar 0. -/
theorem xVal_mod_order {P : Point} (hP : P ≠ 0) : xVal P % n = 0 ↔ xVal P = n := by
  cases P with
  | zero => exact absurd rfl hP
  | some x y hxy =>
    have hx0 : x.val ≠ 0 := mt (ZMod.val_eq_zero x).mp (nonsingular_iff.mp hxy).x_ne_zero
    have hlt := ZMod.val_lt x
    have h2 : p < 2 * n := by decide
    change x.val % n = 0 ↔ x.val = n
    rcases Nat.lt_or_ge x.val n with h | h
    · rw [Nat.mod_eq_of_lt h]
      omega
    · rw [Nat.mod_eq_sub_mod h, Nat.mod_eq_of_lt (by omega)]
      omega

section

variable {b : FieldBackend} {c : ScalarBackend} {ecmultGen : c.Scalar → Option (Gej b.Fe)}
  {D : Type} (nonceFunctionDefault : EcdsaNonceFunction D)
  (noncefp : Option (EcdsaNonceFunction D)) (noncedata : D) (msg32 : Fin 32 → Byte)
  {seckey : Fin 32 → Byte} (fuel : ℕ)

theorem signWith_invalid (h : ¬ Usable seckey) :
    signWith b.ops c.ops ecmultGen nonceFunctionDefault fuel msg32 seckey noncefp noncedata =
      some none := by
  rw [signWith]
  exact if_neg (mt (usable_iff c.sound seckey).mp h)

theorem signWith_valid (h : Usable seckey) :
    signWith b.ops c.ops ecmultGen nonceFunctionDefault fuel msg32 seckey noncefp noncedata =
      signLoop b.ops c.ops ecmultGen
        (ecdsaNonces nonceFunctionDefault noncefp msg32 seckey noncedata) (c.ops.setB32 seckey).1
        (c.ops.setB32 msg32).1 fuel 0 := by
  rw [signWith]
  exact if_pos ((usable_iff c.sound seckey).mpr h)

end

section

variable (kc : Field5x52.KernelChoice) {c : ScalarBackend}

/-- The order test of the five-limb backend is that of the numbers. -/
theorem belowDifference_5x52 {r : c.Scalar} (hr : c.val r < n) :
    BelowDifference (.limbs5x52 kc) c r ↔ c.val r < p - n := by
  have hlt : Bytes.be (c.ops.getB32 r) < p := by
    rw [c.sound.getB32]
    exact hr.trans n_lt_p
  have hnorm := ((Field5x52.values kc.sound).setB32 hlt).1
  rw [c.sound.getB32] at hnorm
  exact feCmpVar_5x52 kc hr hnorm

theorem SignedWith.belowDifference {d m k : ℕ} {r s : c.Scalar} {recid : CInt} {v w : ZMod p}
    (h : SignedWith d m (c.val r) (c.val s) recid k v w) (hv : n ≤ v.val) :
    BelowDifference (.limbs5x52 kc) c r := by
  have hr := h.r_eq
  have hlt := ZMod.val_lt v
  have h2 : p < 2 * n := by decide
  refine (belowDifference_5x52 kc (hr.trans_lt (Nat.mod_lt _ n_pos))).mpr ?_
  rw [hr, Nat.mod_eq_sub_mod hv, Nat.mod_eq_of_lt (by omega)]
  omega

theorem pubkeySave_5x52 {q : Ge (FieldBackend.limbs5x52 kc).Fe} {x y : ZMod p}
    (h : (FieldBackend.limbs5x52 kc).AffineOf q x y) :
    Yields (pubkeySave (FieldBackend.limbs5x52 kc).ops q) fun pubkey => KeyOf pubkey x y :=
  pubkeySave_spec ((FieldBackend.limbs5x52 kc).values (FieldBackend.sound_5x52 kc)) h.point
    ((FieldBackend.rep_iff (FieldBackend.sound_5x52 kc)).mpr ⟨h.x_range, h.x_eq⟩)
    ((FieldBackend.rep_iff (FieldBackend.sound_5x52 kc)).mpr ⟨h.y_range, h.y_eq⟩) (by norm_num)
    (by norm_num)

variable {g : Gmp} (hg : g.Sound)
  {ecmult : Gej (FieldBackend.limbs5x52 kc).Fe → c.Scalar → c.Scalar →
    Option (Gej (FieldBackend.limbs5x52 kc).Fe)}
  (hec : (FieldBackend.limbs5x52 kc).EcmultSpec c ecmult) {d : ℕ} {msg32 nonce : Fin 32 → Byte}
  (hu : Usable nonce) {r s : c.Scalar} {recid : CInt}
  (h : SignedBy d (Bytes.be msg32 % n) nonce r s recid) {pubkey : GeStorage} {x y : ZMod p}
  (hkey : KeyOf pubkey x y) (hQ : hkey.point.point = d • generator)
include hg hec hu h hQ

/-- The verifier takes the signature, unless its first scalar is 0. -/
theorem SignedBy.ecdsaVerify :
    ecdsaVerify (FieldBackend.limbs5x52 kc).ops c.ops g ecmult ⟨r, s⟩ msg32 pubkey =
      some (decide (xVal (Bytes.be nonce • generator) ≠ n)) := by
  obtain ⟨hr, k, v, w, hw⟩ := h
  have hzero := xVal_mod_order (usable_smul_ne_zero hu)
  rw [← hr] at hzero
  obtain ⟨hload, hok⟩ := hkey.load (FieldBackend.sound_5x52 kc)
  have hlow := c.sound.isHigh_eq_zero.mpr hw.s_low
  unfold Secp256k1.ecdsaVerify
  simp only [hlow, ne_eq, not_true_eq_false, if_false, hok, Bool.not_true, Bool.false_eq_true]
  rw [← (c.sound.setB32 msg32).1] at hw
  by_cases hr0 : c.val r = 0
  · rw [decide_eq_false (not_not.mpr (hzero.mp hr0)), ecdsaSigVerify, if_pos]
    rw [c.sound.isZero, decide_eq_true hr0, Bool.true_or]
  · rw [decide_eq_true (mt hzero.mpr hr0)]
    exact hw.verify (FieldBackend.sound_5x52 kc) hg hec (Nat.pos_of_ne_zero hr0)
      (hw.belowDifference kc) hload hQ

/-- The key is recovered from it, with the same exception. -/
theorem SignedBy.ecdsaRecover (q : Ge (FieldBackend.limbs5x52 kc).Fe) :
    ecdsaRecover (FieldBackend.limbs5x52 kc).ops c.ops g ecmult q ⟨r, s, recid.setWidth 8⟩ msg32 =
      some (if xVal (Bytes.be nonce • generator) ≠ n then (pubkey, true)
        else (zeroPubkey, false)) := by
  obtain ⟨hr, k, v, w, hw⟩ := h
  have hzero := xVal_mod_order (usable_smul_ne_zero hu)
  rw [← hr] at hzero
  have hrec : (recid.setWidth 8).setWidth 32 = recid := by
    have := hw.recid_lt
    bv_omega
  unfold Secp256k1.ecdsaRecover
  simp only [hrec]
  rw [← (c.sound.setB32 msg32).1] at hw
  by_cases hr0 : c.val r = 0
  · rw [if_neg (not_not.mpr (hzero.mp hr0)), ecdsaSigRecover, if_pos]
    · rfl
    · rw [c.sound.isZero, decide_eq_true hr0, Bool.true_or]
  · obtain ⟨k, hk, hof⟩ := hw.recover (FieldBackend.sound_5x52 kc) hg hec
      (Nat.pos_of_ne_zero hr0) (hw.belowDifference kc) q hkey.point hQ
    obtain ⟨pk, hpk, hkey'⟩ := pubkeySave_5x52 kc hof
    rw [if_pos (mt hzero.mpr hr0), hk, hkey.unique hkey']
    simp only [Option.bind_eq_bind, Option.bind_some, hpk]
    rfl

end

section

variable (kc : Field5x52.KernelChoice) (c : ScalarBackend) {g : Gmp} (hg : g.Sound)
  {ctx : EcmultGenContext (FieldBackend.limbs5x52 kc).Fe c.Scalar}
  (hctx : GenBuilt (FieldBackend.limbs5x52 kc).ops c.ops ctx)
  {tmem : TableMemory (FieldBackend.limbs5x52 kc).Fe}
  {prea : ℕ → Ge (FieldBackend.limbs5x52 kc).Fe} {pre preG : ℕ → GeStorage}
  (hpre : ecmultContextBuild (FieldBackend.limbs5x52 kc).ops tmem prea pre = some preG)
  {D : Type} (nonceFunctionDefault : EcdsaNonceFunction D)
  (noncefp : Option (EcdsaNonceFunction D)) (noncedata : D) (msg32 seckey : Fin 32 → Byte)
  (mem : EcmultMemory (FieldBackend.limbs5x52 kc).Fe) (q : Ge (FieldBackend.limbs5x52 kc).Fe)
  {fuel : ℕ} {count : BitVec 32}

include hg hctx hpre in
/-- Signing on the five-limb backend, with contexts as they are built and blinded and any nonce
function. A key out of range or a nonce function that reports failure: nothing is signed and the
output is zero. Otherwise the first nonce that gives a signature ends the loop; both signing
functions return the value of the nonce function and the same scalars, the second at most half the
order; the verifier accepts them for the public key that is made from the secret, and this very key
is recovered from them, except where the x coordinate of the nonce's point is the order. -/
theorem ecdsaSign_verifies
    (hretry : SignRetriesUntil (Bytes.be seckey) (Bytes.be msg32 % n)
      (ecdsaNonces nonceFunctionDefault noncefp msg32 seckey noncedata) count)
    (hfuel : count.toNat < fuel) :
    (¬ Usable seckey ∨
        (ecdsaNonces nonceFunctionDefault noncefp msg32 seckey noncedata count).1 = 0 →
      ecdsaSign (FieldBackend.limbs5x52 kc).ops c.ops
          (ecmultGen (FieldBackend.limbs5x52 kc).ops c.ops ctx) nonceFunctionDefault fuel msg32
          seckey noncefp noncedata = some (⟨c.ops.clear, c.ops.clear⟩, 0) ∧
        ecdsaSignRecoverable (FieldBackend.limbs5x52 kc).ops c.ops
          (ecmultGen (FieldBackend.limbs5x52 kc).ops c.ops ctx) nonceFunctionDefault fuel msg32
          seckey noncefp noncedata = some (⟨c.ops.clear, c.ops.clear, 0⟩, 0)) ∧
    (Usable seckey →
      (ecdsaNonces nonceFunctionDefault noncefp msg32 seckey noncedata count).1 ≠ 0 →
      Signable (Bytes.be seckey) (Bytes.be msg32 % n)
        (ecdsaNonces nonceFunctionDefault noncefp msg32 seckey noncedata count).2 →
      ∃ sig pubkey,
        ecdsaSignRecoverable (FieldBackend.limbs5x52 kc).ops c.ops
            (ecmultGen (FieldBackend.limbs5x52 kc).ops c.ops ctx) nonceFunctionDefault fuel msg32
            seckey noncefp noncedata = some (sig,
              (ecdsaNonces nonceFunctionDefault noncefp msg32 seckey noncedata count).1) ∧
        ecdsaSign (FieldBackend.limbs5x52 kc).ops c.ops
            (ecmultGen (FieldBackend.limbs5x52 kc).ops c.ops ctx) nonceFunctionDefault fuel msg32
            seckey noncefp noncedata = some (ecdsaRecoverableSignatureConvert sig,
              (ecdsaNonces nonceFunctionDefault noncefp msg32 seckey noncedata count).1) ∧
        ecPubkeyCreate (FieldBackend.limbs5x52 kc).ops c.ops
            (ecmultGen (FieldBackend.limbs5x52 kc).ops c.ops ctx) seckey = some (some pubkey) ∧
        0 < c.val sig.s ∧ c.val sig.s ≤ n / 2 ∧ sig.recid.toNat < 4 ∧
        ecdsaVerify (FieldBackend.limbs5x52 kc).ops c.ops g
            (ecmult (FieldBackend.limbs5x52 kc).ops c.ops preG mem)
            (ecdsaRecoverableSignatureConvert sig) msg32 pubkey =
          some (decide (xVal (Bytes.be
            (ecdsaNonces nonceFunctionDefault noncefp msg32 seckey noncedata count).2 • generator) ≠
              n)) ∧
        ecdsaRecover (FieldBackend.limbs5x52 kc).ops c.ops g
            (ecmult (FieldBackend.limbs5x52 kc).ops c.ops preG mem) q sig msg32 =
          some (if xVal (Bytes.be
              (ecdsaNonces nonceFunctionDefault noncefp msg32 seckey noncedata count).2 •
                generator) ≠ n then (pubkey, true)
            else (zeroPubkey, false))) := by
  have hb := FieldBackend.sound_5x52 kc
  have hgen := FieldBackend.ecmultGenSpec_of_built kc c hctx
  have hec := FieldBackend.ecmultSpec_of_built hb (FieldBackend.soundInt_5x52 kc) c hpre mem
  have hmsg := (c.sound.setB32 msg32).1
  have hmlt : c.val (c.ops.setB32 msg32).1 < n := hmsg.trans_lt (Nat.mod_lt _ n_pos)
  have hloop : Usable seckey → ∃ k,
      signWith (FieldBackend.limbs5x52 kc).ops c.ops
          (ecmultGen (FieldBackend.limbs5x52 kc).ops c.ops ctx) nonceFunctionDefault fuel msg32
          seckey noncefp noncedata =
        signLoop (FieldBackend.limbs5x52 kc).ops c.ops
          (ecmultGen (FieldBackend.limbs5x52 kc).ops c.ops ctx)
          (ecdsaNonces nonceFunctionDefault noncefp msg32 seckey noncedata)
          (c.ops.setB32 seckey).1 (c.ops.setB32 msg32).1 (k + 1) count := by
    intro hu
    have hsec := c.sound.val_setB32 hu.2
    rw [← hsec, ← hmsg] at hretry
    rw [signWith_valid nonceFunctionDefault noncefp noncedata msg32 fuel hu]
    exact signLoop_from_zero hb hgen hmlt hretry hfuel
  constructor
  · intro h
    have hnone : signWith (FieldBackend.limbs5x52 kc).ops c.ops
        (ecmultGen (FieldBackend.limbs5x52 kc).ops c.ops ctx) nonceFunctionDefault fuel msg32
        seckey noncefp noncedata = some none := by
      by_cases hu : Usable seckey
      · obtain ⟨k, hk⟩ := hloop hu
        rw [hk]
        exact signLoop_fail (h.resolve_left (not_not.mpr hu)) k
      · exact signWith_invalid nonceFunctionDefault noncefp noncedata msg32 fuel hu
    rw [ecdsaSign, ecdsaSignRecoverable, hnone]
    exact ⟨rfl, rfl⟩
  · intro hu hret hsign
    obtain ⟨k, hk⟩ := hloop hu
    have hsec := c.sound.val_setB32 hu.2
    have hsign' := hsign
    rw [← hsec, ← hmsg] at hsign'
    obtain ⟨r, s, recid, heq, hby⟩ := signLoop_take hb hgen hmlt hret hsign' k
    rw [hsec, hmsg] at hby
    rw [heq] at hk
    obtain ⟨o, hpk, pubkey, x, y, hkey, rfl, hQ⟩ := ecPubkeyCreate_spec hb hgen hu.1 hu.2
    have hver := hby.ecdsaVerify kc hg hec hsign.1 hkey hQ
    have hrec := hby.ecdsaRecover kc hg hec hsign.1 hkey hQ q
    obtain ⟨-, _, _, _, hw⟩ := hby
    have hrecid : (recid.setWidth 8).toNat < 4 := by
      have := hw.recid_lt
      bv_omega
    refine ⟨⟨r, s, recid.setWidth 8⟩, pubkey, ?_, ?_, hpk, hw.s_pos, hw.s_low, hrecid, hver, hrec⟩
    · rw [ecdsaSignRecoverable, hk]
      rfl
    · rw [ecdsaSign, hk]
      rfl

end

theorem xVal_generator : xVal generator = generatorX := by
  change (generatorX : ZMod p).val = generatorX
  exact ZMod.val_natCast_of_lt (by decide)

/-- Secret key 1 and the message 0, on the x64 routines. The nonce is the counter: 0 gives no
signature, 1 does. -/
theorem ecdsaSign_verifies_demo :
    ∃ (ctx : EcmultGenContext (FieldBackend.limbs5x52 (.asm .jwasm)).Fe
        ScalarBackend.limbs8x32.Scalar) (preG : ℕ → GeStorage), ∀ mem,
      ∃ (sig : RecoverableSignature ScalarBackend.limbs8x32.Scalar) (pubkey : GeStorage),
        ecdsaSign (FieldBackend.limbs5x52 (.asm .jwasm)).ops ScalarBackend.limbs8x32.ops
            (ecmultGen (FieldBackend.limbs5x52 (.asm .jwasm)).ops ScalarBackend.limbs8x32.ops ctx)
            (fun _ _ _ _ count => (1, numGetBin count.toNat)) 2 (fun _ => 0) (numGetBin 1) none () =
          some (ecdsaRecoverableSignatureConvert sig, 1) ∧
        ecPubkeyCreate (FieldBackend.limbs5x52 (.asm .jwasm)).ops ScalarBackend.limbs8x32.ops
            (ecmultGen (FieldBackend.limbs5x52 (.asm .jwasm)).ops ScalarBackend.limbs8x32.ops ctx)
            (numGetBin 1) = some (some pubkey) ∧
        ecdsaVerify (FieldBackend.limbs5x52 (.asm .jwasm)).ops ScalarBackend.limbs8x32.ops
            .reference (ecmult (FieldBackend.limbs5x52 (.asm .jwasm)).ops
              ScalarBackend.limbs8x32.ops preG mem)
            (ecdsaRecoverableSignatureConvert sig) (fun _ => 0) pubkey = some true := by
  obtain ⟨ctx, hctx⟩ := FieldBackend.exists_genBuilt (.asm .jwasm) .limbs8x32
  obtain ⟨preG, hpre⟩ := FieldBackend.exists_ecmultContext (.asm .jwasm)
  refine ⟨ctx, preG, fun mem => ?_⟩
  have h1 : Bytes.be (numGetBin 1) = 1 := be_numGetBin (by norm_num)
  have hx : xVal (Bytes.be (numGetBin 1) • generator) = generatorX := by
    rw [h1, one_nsmul, xVal_generator]
  have hu := usable_numGetBin Nat.one_pos n_prime.one_lt
  have hsign : Signable (Bytes.be (numGetBin 1)) (Bytes.be (fun _ : Fin 32 => (0 : Byte)) % n)
      (numGetBin 1) := by
    refine ⟨hu, ?_⟩
    rw [hx, h1]
    decide
  have hretry : SignRetriesUntil (Bytes.be (numGetBin 1))
      (Bytes.be (fun _ : Fin 32 => (0 : Byte)) % n)
      (ecdsaNonces (fun _ _ _ _ count => (1, numGetBin count.toNat)) none (fun _ => 0)
        (numGetBin 1) ()) 1 := by
    intro i hi
    obtain rfl : i = 0 := by bv_omega
    exact ⟨show (1 : CInt) ≠ 0 by decide, fun h => not_usable_zero h.1⟩
  obtain ⟨sig, pubkey, -, hs, hp, -, -, -, hv, -⟩ := (ecdsaSign_verifies (.asm .jwasm) .limbs8x32
    Gmp.reference_sound hctx hpre (fun _ _ _ _ count => (1, numGetBin count.toNat)) none ()
    (fun _ => 0) (numGetBin 1) mem (geClear (FieldBackend.limbs5x52 (.asm .jwasm)).ops) hretry
    Nat.one_lt_two).2 hu (show (1 : CInt) ≠ 0 by decide) hsign
  refine ⟨sig, pubkey, hs, hp, hv.trans ?_⟩
  change some (decide (xVal (Bytes.be (numGetBin 1) • generator) ≠ n)) = some true
  rw [hx]
  decide

end Secp256k1
