import Secp256k1.Lib.Sha2
import Secp256k1.Pubkey

/-!
# Schnorr signatures

`modules/schnorr`. The hash, the two multiplications and the nonce function are parameters. The
loop that asks for nonces need not end, it takes a bound on the number of calls; `none` is a fault
or a bound that was too small.

What `secp256k1_schnorr_sign` returns, `secp256k1_schnorr_verify` accepts: the nonce is negated when
its point has no square for a y coordinate, which keeps the x coordinate that was hashed.
-/

namespace Secp256k1

/-- The 64 bytes of a signature. -/
structure Sig64 where
  r : Fin 32 → Byte
  s : Fin 32 → Byte

/-- `secp256k1_nonce_function`: message, key, algorithm, data and counter, to the value returned and
the nonce written. -/
def NonceFunction (D : Type) : Type :=
  (Fin 32 → Byte) → (Fin 32 → Byte) → List Byte → D → BitVec 32 → CInt × (Fin 32 → Byte)

/-- `secp256k1_schnorr_algo16`. -/
def schnorrAlgo16 : List Byte :=
  ("Schnorr+SHA256  ".toList ++ [Char.ofNat 0]).map fun c => BitVec.ofNat 8 c.toNat

section

variable {F S D : Type} (B : FieldOps F) (O : ScalarOps S) (g : Gmp)
  (hash : List Byte → Fin 32 → Byte) (ecmult : Gej F → S → S → Option (Gej F))
  (ecmultGen : S → Option (Gej F)) (nonceFunctionDefault : NonceFunction D)

/-- The scalar, the point as the serialization leaves it, and the value returned. Where there is no
serialization the buffer that is hashed was never written. -/
def schnorrComputeE (r : Fin 32 → Byte) (p : Ge F) (msg32 : Fin 32 → Byte) :
    Option (S × Ge F × Bool) := do
  match ← eckeyPubkeySerialize B p true with
  | none => none
  | some (p, buf) =>
    let (e, overflow) := O.setB32 (hash (List.ofFn r ++ buf ++ List.ofFn msg32))
    return (e, p, overflow = 0 && !O.isZero e)

def schnorrSigVerify (sig64 : Sig64) (pubkey : Ge F) (msg32 : Fin 32 → Byte) : Option Bool :=
  if pubkey.infinity then some false
  else
    let (s, overflow) := O.setB32 sig64.s
    if overflow ≠ 0 then some false
    else
      let (rx, ok) := B.setB32 sig64.r
      if !ok then some false
      else do
        let (e, pubkey, _) ← schnorrComputeE B O hash sig64.r pubkey msg32
        let rj ← ecmult (gejSetGe B pubkey) (O.negate e) s
        if rj.infinity then return false
        else
          let eqX ← gejEqXVar B rx rj
          if !eqX then return false
          else gejHasQuadYVar B g rj

/-- The loop of `secp256k1_schnorr_sig_generate_k`: the nonce, or `none` for the return value 0. -/
def generateKLoop (noncefp : BitVec 32 → CInt × (Fin 32 → Byte)) :
    ℕ → BitVec 32 → Option (Option S)
  | 0, _ => none
  | fuel + 1, count =>
    let (ret, nonce32) := noncefp count
    if ret = 0 then some none
    else
      let (k, overflow) := O.setB32 nonce32
      if overflow = 0 ∧ !O.isZero k then some (some k)
      else generateKLoop noncefp fuel (count + 1)

def schnorrSigGenerateK (fuel : ℕ) (msg32 : Fin 32 → Byte) (privkey : S)
    (noncefp : Option (NonceFunction D)) (ndata : D) : Option (Option S) :=
  generateKLoop O
    ((noncefp.getD nonceFunctionDefault) msg32 (O.getB32 privkey) schnorrAlgo16 ndata) fuel 0

def schnorrComputeKR (fuel : ℕ) (msg32 : Fin 32 → Byte) (privkey : S)
    (noncefp : Option (NonceFunction D)) (ndata : D) : Option (Option (S × Ge F)) := do
  match ← schnorrSigGenerateK O nonceFunctionDefault fuel msg32 privkey noncefp ndata with
  | none => return none
  | some k =>
    let rj ← ecmultGen k
    let (R, _) ← geSetGej B rj
    return some (k, R)

def schnorrComputeSig (msg32 : Fin 32 → Byte) (k : S) (R : Ge F) (privkey : S) (pubkey : Ge F) :
    Option (Option Sig64) :=
  if O.isZero privkey || O.isZero k then some none
  else if pubkey.infinity then some none
  else do
    let quad ← feIsQuadVar B g R.y
    let k := if quad then k else O.negate k
    let x ← B.normalize R.x
    let r := B.getB32 x
    let (e, _, _) ← schnorrComputeE B O hash r pubkey msg32
    let s := (O.add (O.mul e privkey) k).1
    return some ⟨r, O.getB32 s⟩

def schnorrSigSign (fuel : ℕ) (msg32 : Fin 32 → Byte) (privkey : S) (pubkey : Ge F)
    (noncefp : Option (NonceFunction D)) (ndata : D) : Option (Option Sig64) :=
  if O.isZero privkey then some none
  else do
    match ← schnorrComputeKR B O ecmultGen nonceFunctionDefault fuel msg32 privkey noncefp
        ndata with
    | none => return none
    | some (k, R) => schnorrComputeSig B O g hash msg32 k R privkey pubkey

def schnorrVerify (sig64 : Sig64) (msg32 : Fin 32 → Byte) (pubkey : GeStorage) : Option Bool :=
  let (q, _) := pubkeyLoad B pubkey
  schnorrSigVerify B O g hash ecmult sig64 q msg32

/-- The output bytes after the call, and the value returned. -/
def schnorrSign (fuel : ℕ) (sig64 : Sig64) (msg32 seckey : Fin 32 → Byte)
    (noncefp : Option (NonceFunction D)) (ndata : D) : Option (Sig64 × Bool) := do
  match ← ecPubkeyCreate B O ecmultGen seckey with
  | none => return (sig64, false)
  | some pubkey =>
    let (p, _) := pubkeyLoad B pubkey
    let (sec, _) := O.setB32 seckey
    match ← schnorrSigSign B O g hash ecmultGen nonceFunctionDefault fuel msg32 sec p noncefp
      ndata with
    | none => return (⟨fun _ => 0, fun _ => 0⟩, false)
    | some sig64 => return (sig64, true)

end

/-! ## The loop over nonces -/

/-- Below the counter `c` the nonce function succeeds, with nonces the loop does not take. -/
def RetriesUntil (noncefp : BitVec 32 → CInt × (Fin 32 → Byte)) (c : BitVec 32) : Prop :=
  ∀ i, i < c → (noncefp i).1 ≠ 0 ∧ ¬ Usable (noncefp i).2

section

variable {S : Type} {O : ScalarOps S} {val : S → ℕ} (hO : O.Sound val)
  {noncefp : BitVec 32 → CInt × (Fin 32 → Byte)}
include hO

omit hO in
theorem generateKLoop_succ (fuel : ℕ) (count : BitVec 32) :
    generateKLoop O noncefp (fuel + 1) count =
      if (noncefp count).1 = 0 then some none
      else if (O.setB32 (noncefp count).2).2 = 0 ∧ !O.isZero (O.setB32 (noncefp count).2).1 then
        some (some (O.setB32 (noncefp count).2).1)
      else generateKLoop O noncefp fuel (count + 1) := rfl

omit hO in
theorem generateKLoop_fail {count : BitVec 32} (h : (noncefp count).1 = 0) (fuel : ℕ) :
    generateKLoop O noncefp (fuel + 1) count = some none := by
  rw [generateKLoop_succ, if_pos h]

theorem generateKLoop_take {count : BitVec 32} (h : (noncefp count).1 ≠ 0)
    (hu : Usable (noncefp count).2) (fuel : ℕ) :
    generateKLoop O noncefp (fuel + 1) count = some (some (O.setB32 (noncefp count).2).1) := by
  rw [generateKLoop_succ, if_neg h, if_pos ((usable_iff hO _).mpr hu)]

theorem generateKLoop_retry {count : BitVec 32} (h : (noncefp count).1 ≠ 0)
    (hu : ¬ Usable (noncefp count).2) (fuel : ℕ) :
    generateKLoop O noncefp (fuel + 1) count = generateKLoop O noncefp fuel (count + 1) := by
  rw [generateKLoop_succ, if_neg h, if_neg (mt (usable_iff hO _).mp hu)]

/-- The loop reaches the counter `c`. -/
theorem generateKLoop_reaches {c : BitVec 32} (h : RetriesUntil noncefp c) (fuel j : ℕ)
    (hj : j ≤ c.toNat) :
    generateKLoop O noncefp (j + fuel) (c - BitVec.ofNat 32 j) =
      generateKLoop O noncefp fuel c := by
  induction j with
  | zero => rw [Nat.zero_add, BitVec.sub_zero]
  | succ j ih =>
    have hlt : c - BitVec.ofNat 32 (j + 1) < c := by
      rw [BitVec.lt_def]
      bv_omega
    obtain ⟨hs, hu⟩ := h _ hlt
    rw [Nat.add_right_comm, generateKLoop_retry hO hs hu]
    rw [show c - BitVec.ofNat 32 (j + 1) + 1 = c - BitVec.ofNat 32 j by bv_omega]
    exact ih (by omega)

theorem generateKLoop_from_zero {c : BitVec 32} (h : RetriesUntil noncefp c) {fuel : ℕ}
    (hf : c.toNat < fuel) :
    ∃ k, generateKLoop O noncefp fuel 0 = generateKLoop O noncefp (k + 1) c := by
  obtain ⟨k, rfl⟩ := Nat.exists_eq_add_of_lt hf
  refine ⟨k, ?_⟩
  have := generateKLoop_reaches hO h (k + 1) c.toNat le_rfl
  rwa [BitVec.ofNat_toNat, BitVec.setWidth_eq, BitVec.sub_self, ← Nat.add_assoc] at this

end

/-! ## The signature equation -/

/-- The number hashed from `R.x`, the key and the message. -/
def challenge (hash : List Byte → Fin 32 → Byte) (r : Fin 32 → Byte) (x y : ZMod p)
    (msg32 : Fin 32 → Byte) : ℕ :=
  Bytes.be (hash (List.ofFn r ++ compressedKey x y ++ List.ofFn msg32)) % n

/-- `s G - e P` is the point of the nonce that was added. -/
theorem signature_equation {e x k : ℕ} (he : e ≤ n) :
    ((n - e) % n) • x • generator + ((e * x % n + k) % n) • generator = k • generator := by
  rw [neg_smul_eq he, mod_smul, add_nsmul, mod_smul, mul_comm e x, mul_nsmul, neg_add_cancel_left]

/-- `R.x` and `k + e d` for a nonce whose point has a square for its y coordinate. -/
structure SignatureOf (hash : List Byte → Fin 32 → Byte) (msg32 : Fin 32 → Byte) (d : ℕ)
    (x y : ZMod p) (sig64 : Sig64) (v w : ZMod p) (k : ℕ) : Prop where
  point : OnCurve v w
  nonce : point.point = k • generator
  square : IsSquare w
  r_eq : sig64.r = numGetBin v.val
  s_eq : Bytes.be sig64.s = (challenge hash sig64.r x y msg32 * d % n + k) % n

section

variable {b : FieldBackend} (hb : b.Sound) {c : ScalarBackend} {g : Gmp} (hg : g.Sound)
  (hash : List Byte → Fin 32 → Byte) {x y : ZMod p} {q : Ge b.Fe} (hinf : q.infinity = false)
  (hx : (b.values hb).norm x q.x) (hy : (b.values hb).norm y q.y) (msg32 : Fin 32 → Byte)

include hinf hx hy in
theorem schnorrComputeE_spec (r : Fin 32 → Byte) :
    Yields (schnorrComputeE b.ops c.ops hash r q msg32) fun t =>
      c.val t.1 = challenge hash r x y msg32 ∧ (b.values hb).norm x t.2.1.x ∧
        (b.values hb).norm y t.2.1.y ∧ t.2.1.infinity = false := by
  refine (eckeyPubkeySerialize_spec (b.values hb) hinf ((b.values hb).rep_of_norm hx)
    ((b.values hb).rep_of_norm hy) (by norm_num) (by norm_num) true).bind fun o ho => ?_
  obtain ⟨q', rfl, hx', hy', hinf'⟩ := ho
  exact .pure ⟨(c.sound.setB32 _).1, hx', hy', hinf'⟩

include hg hinf hx hy in
theorem schnorrComputeSig_spec {k d : c.Scalar} (hk0 : 0 < c.val k) (hk : c.val k < n)
    (hd0 : 0 < c.val d) {R : Ge b.Fe} {v w : ZMod p} (h : OnCurve v w)
    (hR : h.point = c.val k • generator) (hRx : (b.values hb).rep 1 v R.x)
    (hRy : (b.values hb).rep 1 w R.y) :
    Yields (schnorrComputeSig b.ops c.ops g hash msg32 k R d q) fun o =>
      ∃ sig64 v w k, o = some sig64 ∧ SignatureOf hash msg32 (c.val d) x y sig64 v w k := by
  have hnz : ¬ (c.ops.isZero d || c.ops.isZero k) = true := by
    rw [c.sound.isZero, c.sound.isZero, Bool.or_eq_true, decide_eq_true_iff, decide_eq_true_iff]
    omega
  rw [schnorrComputeSig, if_neg hnz, hinf, if_neg Bool.false_ne_true]
  refine (feIsQuadVar_spec (b.values hb) hg hRy (by norm_num)).bind fun quad hquad => ?_
  refine ((b.values hb).normalize (by norm_num) hRx).bind fun rx hrx => ?_
  refine (schnorrComputeE_spec hb hash hinf hx hy msg32 _).bind fun t ht => ?_
  obtain ⟨e, t⟩ := t
  have hs : ∀ k' : c.Scalar, c.val k' < n →
      Bytes.be (c.ops.getB32 (c.ops.add (c.ops.mul e d) k').1) =
        (challenge hash (b.ops.getB32 rx) x y msg32 * c.val d % n + c.val k') % n := by
    intro k' hk'
    have hmul := c.sound.mul e d
    rw [c.sound.getB32, (c.sound.add _ _ (hmul.trans_lt (Nat.mod_lt _ n_pos)) hk').1, hmul]
    rw [show c.val e = _ from ht.1]
  -- the y coordinate of the point decides which of the two nonces is added
  cases quad with
  | true =>
    exact .pure ⟨_, v, w, c.val k, rfl, h, hR, hquad.mp rfl, getB32_eq _ hrx, hs k hk⟩
  | false =>
    have hneg := c.sound.negate k hk
    refine .pure ⟨_, v, -w, c.val (c.ops.negate k), rfl, h.neg, ?_, isSquare_neg fun hsq => ?_,
      getB32_eq _ hrx, hs _ (hneg.trans_lt (Nat.mod_lt _ n_pos))⟩
    · rw [h.neg_point, hR, hneg, neg_smul_eq hk.le]
    · exact Bool.false_ne_true (hquad.mpr hsq)

include hg hinf hx hy in
/-- The verifier finds the point of the nonce, with its x coordinate and a square. -/
theorem schnorrSigVerify_spec {ecmult : Gej b.Fe → c.Scalar → c.Scalar → Option (Gej b.Fe)}
    (hec : b.EcmultSpec c ecmult) {d k : ℕ} (h : OnCurve x y) (hP : h.point = d • generator)
    {sig64 : Sig64} {v w : ZMod p} (hsig : SignatureOf hash msg32 d x y sig64 v w k) :
    schnorrSigVerify b.ops c.ops g hash ecmult sig64 q msg32 = some true := by
  have hs : Bytes.be sig64.s < n := hsig.s_eq.trans_lt (Nat.mod_lt _ n_pos)
  have hr : Bytes.be sig64.r = v.val := by
    rw [hsig.r_eq, be_numGetBin_val]
  have hsv := c.sound.val_setB32 hs
  have hover := c.sound.setB32_fits.mpr hs
  obtain ⟨hrx, hok⟩ := (b.values hb).setB32 (hr.trans_lt (ZMod.val_lt v))
  rw [hr, ZMod.natCast_zmod_val] at hrx
  unfold schnorrSigVerify
  rw [hinf, if_neg Bool.false_ne_true]
  generalize c.ops.setB32 sig64.s = ps at hsv hover ⊢
  obtain ⟨s, overflow⟩ := ps
  generalize b.ops.setB32 sig64.r = pr at hrx hok ⊢
  obtain ⟨rx, ok⟩ := pr
  obtain rfl : ok = true := hok
  simp only [if_neg (not_not.mpr (show overflow = 0 from hover)), Bool.not_true,
    Bool.false_eq_true, if_false]
  suffices hyields : Yields _ (· = true) by
    obtain ⟨ok, heq, rfl⟩ := hyields
    exact heq
  refine (schnorrComputeE_spec hb hash hinf hx hy msg32 _).bind fun t ht => ?_
  obtain ⟨e, q', ret⟩ := t
  obtain ⟨he, hx', hy', hinf'⟩ := ht
  have hen : c.val e < n := he.trans_lt (Nat.mod_lt _ n_pos)
  have hneg := c.sound.negate e hen
  -- the public key with its coordinates reduced is still the same point
  have hq' : b.AffineOf q' x y := FieldBackend.affineOf_of_raw hb hinf' h
    (FieldModel.raw8 ((b.values hb).rep_of_norm hx') (by norm_num))
    (FieldModel.raw8 ((b.values hb).rep_of_norm hy') (by norm_num))
  obtain ⟨hj, hz⟩ := FieldBackend.gejSetGe_jacobianOf hb hq'
  have hmul := hec _ (c.ops.negate e) s x y h hj hq'.x_range hq'.y_range hz
    (hneg.trans_lt (Nat.mod_lt _ n_pos)) (hsv.trans_lt hs)
  have hpoint : c.val (c.ops.negate e) • h.point + c.val s • generator = hsig.point.point := by
    rw [hneg, show c.val e = _ from he, show c.val s = _ from hsv, hP, hsig.s_eq, hsig.nonce]
    exact signature_equation (Nat.mod_lt _ n_pos).le
  rw [hpoint] at hmul
  refine hmul.bind fun rj hrj => ?_
  obtain ⟨hjr, hxr, hyr, hzr⟩ := hrj
  rw [hjr.finite, if_neg Bool.false_ne_true]
  refine (gejEqXVar_spec (b.values hb) ((b.values hb).raw_of_rep ((b.values hb).rep_of_norm hrx))
    (by norm_num) (FieldBackend.raw_of_reduced hb hxr hjr.x_eq) (by norm_num)
    (FieldBackend.raw_of_reduced hb hzr rfl)).bind fun eqX heqX => ?_
  obtain rfl : eqX = true := heqX.mpr rfl
  rw [show (!true) = false from rfl, if_neg Bool.false_ne_true]
  refine (gejHasQuadYVar_spec (b.values hb) hg hjr.finite hjr.z_ne
    (FieldBackend.raw_of_reduced hb hyr hjr.y_eq) (FieldBackend.raw_of_reduced hb hzr rfl)).mono
      fun ok hok => hok.mpr hsig.square

end

/-! ## Signing and verification -/

/-- What the nonce function in use answers to the counters. -/
def nonces {D : Type} (nonceFunctionDefault : NonceFunction D) (noncefp : Option (NonceFunction D))
    (msg32 seckey : Fin 32 → Byte) (ndata : D) : BitVec 32 → CInt × (Fin 32 → Byte) :=
  (noncefp.getD nonceFunctionDefault) msg32 seckey schnorrAlgo16 ndata

section

variable {b : FieldBackend} (hb : b.Sound) {c : ScalarBackend} {g : Gmp} (hg : g.Sound)
  (hash : List Byte → Fin 32 → Byte) {ecmultGen : c.Scalar → Option (Gej b.Fe)}
  (hgen : b.EcmultGenSpec c ecmultGen) {D : Type} (nonceFunctionDefault : NonceFunction D)
  (noncefp : Option (NonceFunction D)) (ndata : D) (fuel : ℕ) (sig64 : Sig64)
  (msg32 : Fin 32 → Byte)

include hb hg hgen in
/-- With a nonce, the signature of a key that is not zero. -/
theorem schnorrSigSign_spec {sec k : c.Scalar} (hs0 : 0 < c.val sec)
    (hk : schnorrSigGenerateK c.ops nonceFunctionDefault fuel msg32 sec noncefp ndata =
      some (some k)) (hk0 : 0 < c.val k) (hkn : c.val k < n) {q : Ge b.Fe} {x y : ZMod p}
    (hinf : q.infinity = false) (hx : (b.values hb).norm x q.x) (hy : (b.values hb).norm y q.y) :
    Yields (schnorrSigSign b.ops c.ops g hash ecmultGen nonceFunctionDefault fuel msg32 sec q
      noncefp ndata) fun o =>
        ∃ sig64 v w k, o = some sig64 ∧ SignatureOf hash msg32 (c.val sec) x y sig64 v w k := by
  have hnz : ¬ c.ops.isZero sec = true := by
    rw [c.sound.isZero, decide_eq_true_iff]
    exact hs0.ne'
  rw [schnorrSigSign, if_neg hnz, schnorrComputeKR, hk]
  simp only [Option.bind_eq_bind, Option.bind_some, Option.bind_assoc]
  refine genAffine_spec hb hgen hk0 hkn fun R v w h hR _ hRx hRy => ?_
  exact schnorrComputeSig_spec hb hg hash hinf hx hy msg32 hk0 hkn hs0 h hR hRx hRy

theorem schnorrSigSign_fail {sec : c.Scalar} (q : Ge b.Fe)
    (hk : schnorrSigGenerateK c.ops nonceFunctionDefault fuel msg32 sec noncefp ndata =
      some none) :
    schnorrSigSign b.ops c.ops g hash ecmultGen nonceFunctionDefault fuel msg32 sec q noncefp
      ndata = some none := by
  rw [schnorrSigSign, schnorrComputeKR, hk]
  exact ite_self _

variable {seckey : Fin 32 → Byte} (h0 : 0 < Bytes.be seckey) (hn : Bytes.be seckey < n)

include hb hgen h0 hn in
/-- Around it: the public key made from the secret, and the bytes cleared on failure. -/
theorem schnorrSign_spec {R : Sig64 × Bool → Prop}
    (h : ∀ (sec : c.Scalar) (q : Ge b.Fe) (x y : ZMod p) (h : OnCurve x y),
      c.val sec = Bytes.be seckey → c.ops.getB32 sec = seckey →
      h.point = Bytes.be seckey • generator → q.infinity = false → (b.values hb).norm x q.x →
      (b.values hb).norm y q.y →
      Yields (schnorrSigSign b.ops c.ops g hash ecmultGen nonceFunctionDefault fuel msg32 sec q
        noncefp ndata) fun o => R (o.elim (⟨fun _ => 0, fun _ => 0⟩, false) (·, true))) :
    Yields (schnorrSign b.ops c.ops g hash ecmultGen nonceFunctionDefault fuel sig64 msg32 seckey
      noncefp ndata) R := by
  refine (ecPubkeyCreate_spec hb hgen h0 hn).bind fun o ho => ?_
  obtain ⟨pubkey, x, y, hkey, rfl, hP⟩ := ho
  obtain ⟨hx, hy, hinf, -⟩ := pubkeyLoad_spec (b.values hb) hkey
  have hsec := c.sound.val_setB32 hn
  refine (h (c.ops.setB32 seckey).1 (pubkeyLoad b.ops pubkey).1 x y hkey.point hsec
    (Bytes.be_inj ((c.sound.getB32 _).trans hsec)) hP hinf hx hy).bind fun o ho => ?_
  cases o with
  | none => exact .pure ho
  | some sig => exact .pure ho

include hb hg hgen h0 hn in
/-- The nonce function hands over a nonce: the signature is returned and accepted for the public
key. It reports failure first: nothing is signed and the output is cleared. -/
theorem schnorrSign_verifies
    {ecmult : Gej b.Fe → c.Scalar → c.Scalar → Option (Gej b.Fe)} (hec : b.EcmultSpec c ecmult)
    {count : BitVec 32}
    (hretry : RetriesUntil (nonces nonceFunctionDefault noncefp msg32 seckey ndata) count)
    (hfuel : count.toNat < fuel) :
    ((nonces nonceFunctionDefault noncefp msg32 seckey ndata count).1 ≠ 0 →
      Usable (nonces nonceFunctionDefault noncefp msg32 seckey ndata count).2 →
      Yields (schnorrSign b.ops c.ops g hash ecmultGen nonceFunctionDefault fuel sig64 msg32 seckey
        noncefp ndata) fun r => r.2 = true ∧
          ∀ pubkey x y, ∀ hkey : KeyOf pubkey x y,
            hkey.point.point = Bytes.be seckey • generator →
              schnorrVerify b.ops c.ops g hash ecmult r.1 msg32 pubkey = some true) ∧
    ((nonces nonceFunctionDefault noncefp msg32 seckey ndata count).1 = 0 →
      schnorrSign b.ops c.ops g hash ecmultGen nonceFunctionDefault fuel sig64 msg32 seckey noncefp
        ndata = some (⟨fun _ => 0, fun _ => 0⟩, false)) ∧
    Yields (ecPubkeyCreate b.ops c.ops ecmultGen seckey) fun o =>
      ∃ pubkey x y, ∃ hkey : KeyOf pubkey x y, o = some pubkey ∧
        hkey.point.point = Bytes.be seckey • generator := by
  obtain ⟨j, hj⟩ := generateKLoop_from_zero c.sound hretry hfuel
  refine ⟨fun hs hu => ?_, fun hf => ?_, ecPubkeyCreate_spec hb hgen h0 hn⟩
  · rw [generateKLoop_take c.sound hs hu] at hj
    have hval := c.sound.val_setB32 hu.2
    refine schnorrSign_spec hb hash hgen _ _ _ _ _ _ h0 hn
      fun sec q x y h hsec hbytes hP hinf hx hy => ?_
    refine (schnorrSigSign_spec hb hg hash hgen _ _ _ _ _ (hsec ▸ h0)
      (by rw [schnorrSigGenerateK, hbytes]; exact hj) (hval ▸ hu.1) (hval ▸ hu.2) hinf hx hy).mono
      fun o ho => ?_
    obtain ⟨sig, v, w, k, rfl, hsig⟩ := ho
    refine ⟨rfl, fun pubkey x' y' hkey hP' => ?_⟩
    obtain ⟨rfl, rfl⟩ := WeierstrassCurve.Affine.Point.some.inj (hP.trans hP'.symm)
    obtain ⟨hx', hy', hinf', -⟩ := pubkeyLoad_spec (b.values hb) hkey
    rw [hsec] at hsig
    exact schnorrSigVerify_spec hb hg hash hinf' hx' hy' msg32 hec h hP hsig
  · rw [generateKLoop_fail hf] at hj
    suffices hyields : Yields (schnorrSign b.ops c.ops g hash ecmultGen nonceFunctionDefault fuel
        sig64 msg32 seckey noncefp ndata) (· = (⟨fun _ => 0, fun _ => 0⟩, false)) by
      obtain ⟨r, heq, rfl⟩ := hyields
      exact heq
    refine schnorrSign_spec hb hash hgen _ _ _ _ _ _ h0 hn
      fun sec q x y h hsec hbytes hP hinf hx hy => ?_
    rw [schnorrSigSign_fail _ _ _ _ _ _ q (by rw [schnorrSigGenerateK, hbytes]; exact hj)]
    exact .some rfl

end

/-- Secret key 1, SHA-256 for the hash, and the counter for the nonce: 0 is not usable, 1 is. -/
theorem schnorrSign_verifies_demo :
    Yields (schnorrSign (FieldBackend.limbs4x64 .reference).ops Scalar4x64.ops .reference
        Sha2.sha256 ((FieldBackend.limbs4x64 .reference).ecmultGenReference .limbs4x64)
        (fun _ _ _ _ count => (1, numGetBin count.toNat)) 2 ⟨fun _ => 0, fun _ => 0⟩ (fun _ => 0)
        (numGetBin 1) none ()) fun r => r.2 = true ∧ ∀ pubkey x y, ∀ hkey : KeyOf pubkey x y,
          hkey.point.point = Bytes.be (numGetBin 1) • generator →
            schnorrVerify (FieldBackend.limbs4x64 .reference).ops Scalar4x64.ops .reference
              Sha2.sha256 ((FieldBackend.limbs4x64 .reference).ecmultReference .limbs4x64) r.1
              (fun _ => 0) pubkey = some true := by
  have hb : (FieldBackend.limbs4x64 .reference).Sound := Field4x64.Inner.reference_sound _
  have hu := usable_numGetBin Nat.one_pos n_prime.one_lt
  have hretry : RetriesUntil (nonces (fun _ _ _ _ count => (1, numGetBin count.toNat)) none
      (fun _ => 0) (numGetBin 1) ()) 1 := by
    intro i hi
    obtain rfl : i = 0 := by bv_omega
    exact ⟨show (1 : CInt) ≠ 0 by decide, not_usable_zero⟩
  refine (schnorrSign_verifies (c := .limbs4x64) hb Gmp.reference_sound _
    (FieldBackend.ecmultGenReference_spec hb _) _ none () 2 _ _ hu.1 hu.2
    (FieldBackend.ecmultReference_spec hb _) hretry (by decide)).1 ?_ hu
  change (1 : CInt) ≠ 0
  decide

end Secp256k1
