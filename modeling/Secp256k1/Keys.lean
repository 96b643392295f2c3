import Secp256k1.Ecmult.GenCorrect
import Secp256k1.Pubkey

/-!
# Arithmetic on keys

The functions of `eckey_impl.h` and `secp256k1.c` that negate a key, add to it or multiply it, once
for secret keys and once for public ones, and the sum of public keys. Every sequence of such calls
does the same to a secret key and to its public key: it fails at the same call, or leaves a secret
key and the public key that is made from it.
-/

namespace Secp256k1

section

variable {F S : Type} (B : FieldOps F) (O : ScalarOps S)
  (ecmult : Gej F → S → S → Option (Gej F))

def ecSeckeyVerify (seckey : Fin 32 → Byte) : Bool :=
  let (sec, overflow) := O.setB32 seckey
  overflow = 0 && !O.isZero sec

def eckeyPrivkeyTweakAdd (key tweak : S) : S × Bool :=
  let key := (O.add key tweak).1
  (key, !O.isZero key)

def eckeyPrivkeyTweakMul (key tweak : S) : S × Bool :=
  if O.isZero tweak then (key, false) else (O.mul key tweak, true)

def eckeyPubkeyTweakAdd (key : Ge F) (tweak : S) : Option (Ge F × Bool) := do
  let pt ← ecmult (gejSetGe B key) (O.setInt 1) tweak
  if pt.infinity then return (key, false)
  else
    let (key, _) ← geSetGej B pt
    return (key, true)

def eckeyPubkeyTweakMul (key : Ge F) (tweak : S) : Option (Ge F × Bool) :=
  if O.isZero tweak then some (key, false)
  else do
    let pt ← ecmult (gejSetGe B key) tweak (O.setInt 0)
    let (key, _) ← geSetGej B pt
    return (key, true)

def ecPrivkeyNegate (seckey : Fin 32 → Byte) : Fin 32 → Byte :=
  O.getB32 (O.negate (O.setB32 seckey).1)

/-- The key after the call, zero on failure, and the value returned. -/
def ecPubkeyNegate (pubkey : GeStorage) : Option (GeStorage × Bool) :=
  let (p, ok) := pubkeyLoad B pubkey
  if !ok then some (zeroPubkey, false)
  else do
    let p ← geNeg B p
    let pubkey ← pubkeySave B p
    return (pubkey, true)

/-- What the two functions for secret keys share; the secret key is not tested. -/
def ecPrivkeyTweak (f : S → S → S × Bool) (seckey tweak : Fin 32 → Byte) :
    (Fin 32 → Byte) × Bool :=
  let (term, overflow) := O.setB32 tweak
  let (sec, _) := O.setB32 seckey
  if overflow ≠ 0 then (fun _ => 0, false)
  else
    let (sec, ok) := f sec term
    if ok then (O.getB32 sec, true) else (fun _ => 0, false)

def ecPrivkeyTweakAdd : (Fin 32 → Byte) → (Fin 32 → Byte) → (Fin 32 → Byte) × Bool :=
  ecPrivkeyTweak O (eckeyPrivkeyTweakAdd O)

def ecPrivkeyTweakMul : (Fin 32 → Byte) → (Fin 32 → Byte) → (Fin 32 → Byte) × Bool :=
  ecPrivkeyTweak O (eckeyPrivkeyTweakMul O)

/-- What the two functions for public keys share. -/
def ecPubkeyTweak (f : Ge F → S → Option (Ge F × Bool)) (pubkey : GeStorage)
    (tweak : Fin 32 → Byte) : Option (GeStorage × Bool) :=
  let (term, overflow) := O.setB32 tweak
  let (p, ok) := pubkeyLoad B pubkey
  if overflow ≠ 0 ∨ !ok then some (zeroPubkey, false)
  else do
    let (p, ok) ← f p term
    if ok then
      let pubkey ← pubkeySave B p
      return (pubkey, true)
    else return (zeroPubkey, false)

def ecPubkeyTweakAdd : GeStorage → (Fin 32 → Byte) → Option (GeStorage × Bool) :=
  ecPubkeyTweak B O (eckeyPubkeyTweakAdd B O ecmult)

def ecPubkeyTweakMul : GeStorage → (Fin 32 → Byte) → Option (GeStorage × Bool) :=
  ecPubkeyTweak B O (eckeyPubkeyTweakMul B O ecmult)

/-- The loop of `secp256k1_ec_pubkey_combine`; a key that cannot be loaded is added as it stands. -/
def combineLoop : List GeStorage → Gej F → Option (Gej F)
  | [], qj => some qj
  | pubnonce :: pubnonces, qj => do
    let (q, _) := pubkeyLoad B pubnonce
    let qj ← gejAddGe B qj q
    combineLoop pubnonces qj

def ecPubkeyCombine (pubnonces : List GeStorage) : Option (GeStorage × Bool) :=
  if pubnonces.length < 1 then some (zeroPubkey, false)
  else do
    let qj ← combineLoop B pubnonces (gejSetInfinity B)
    if qj.infinity then return (zeroPubkey, false)
    else
      let (q, _) ← geSetGej B qj
      let pubnonce ← pubkeySave B q
      return (pubnonce, true)

/-! ## Sequences of calls -/

inductive KeyOp where
  | negate
  | tweakAdd (tweak : Fin 32 → Byte)
  | tweakMul (tweak : Fin 32 → Byte)

def privStep : KeyOp → (Fin 32 → Byte) → (Fin 32 → Byte) × Bool
  | .negate, seckey => (ecPrivkeyNegate O seckey, true)
  | .tweakAdd tweak, seckey => ecPrivkeyTweakAdd O seckey tweak
  | .tweakMul tweak, seckey => ecPrivkeyTweakMul O seckey tweak

def pubStep : KeyOp → GeStorage → Option (GeStorage × Bool)
  | .negate, pubkey => ecPubkeyNegate B pubkey
  | .tweakAdd tweak, pubkey => ecPubkeyTweakAdd B O ecmult pubkey tweak
  | .tweakMul tweak, pubkey => ecPubkeyTweakMul B O ecmult pubkey tweak

/-- The calls up to the first that returns 0. -/
def privRun : List KeyOp → (Fin 32 → Byte) → (Fin 32 → Byte) × Bool
  | [], seckey => (seckey, true)
  | op :: ops, seckey =>
    let (seckey, ok) := privStep O op seckey
    if ok then privRun ops seckey else (seckey, false)

def pubRun : List KeyOp → GeStorage → Option (GeStorage × Bool)
  | [], pubkey => some (pubkey, true)
  | op :: ops, pubkey => do
    let (pubkey, ok) ← pubStep B O ecmult op pubkey
    if ok then pubRun ops pubkey else return (pubkey, false)

end

/-- What a call does to the number of a secret key, or `none` where it fails. -/
def KeyOp.act : KeyOp → ℕ → Option ℕ
  | negate, d => some ((n - d) % n)
  | tweakAdd tweak, d =>
    if Bytes.be tweak < n ∧ (d + Bytes.be tweak) % n ≠ 0 then some ((d + Bytes.be tweak) % n)
    else none
  | tweakMul tweak, d =>
    if Bytes.be tweak < n ∧ Bytes.be tweak ≠ 0 then some (d * Bytes.be tweak % n) else none

def KeyOp.run : List KeyOp → ℕ → Option ℕ
  | [], d => some d
  | op :: ops, d => op.act d >>= run ops

/-- It stays in the range of secret keys. -/
theorem KeyOp.act_range {op : KeyOp} {d d' : ℕ} (h : op.act d = some d') (h0 : 0 < d) (hn : d < n) :
    0 < d' ∧ d' < n := by
  cases op with
  | negate =>
    rw [KeyOp.act, Option.some_inj] at h
    rw [← h, Nat.mod_eq_of_lt (Nat.sub_lt n_pos h0)]
    exact ⟨Nat.sub_pos_of_lt hn, Nat.sub_lt n_pos h0⟩
  | tweakAdd tweak =>
    rw [KeyOp.act, Option.ite_none_right_eq_some, Option.some_inj] at h
    obtain ⟨⟨-, hne⟩, heq⟩ := h
    rw [← heq]
    exact ⟨Nat.pos_of_ne_zero hne, Nat.mod_lt _ n_pos⟩
  | tweakMul tweak =>
    rw [KeyOp.act, Option.ite_none_right_eq_some, Option.some_inj] at h
    obtain ⟨⟨hlt, hne⟩, heq⟩ := h
    rw [← heq]
    refine ⟨Nat.pos_of_ne_zero fun hzero => ?_, Nat.mod_lt _ n_pos⟩
    rcases n_prime.dvd_mul.mp (Nat.dvd_of_mod_eq_zero hzero) with hd | hd
    · exact absurd (Nat.le_of_dvd h0 hd) (not_le.mpr hn)
    · exact absurd (Nat.le_of_dvd (Nat.pos_of_ne_zero hne) hd) (not_le.mpr hlt)

theorem KeyOp.run_range {ops : List KeyOp} {d d' : ℕ} (h : KeyOp.run ops d = some d') (h0 : 0 < d)
    (hn : d < n) : 0 < d' ∧ d' < n := by
  induction ops generalizing d with
  | nil =>
    obtain rfl := Option.some.inj h
    exact ⟨h0, hn⟩
  | cons op ops ih =>
    obtain ⟨d₁, hact, hrun⟩ := Option.bind_eq_some_iff.mp h
    obtain ⟨h0', hn'⟩ := KeyOp.act_range hact h0 hn
    exact ih hrun h0' hn'

/-! ## Secret keys -/

section

variable {S : Type} {O : ScalarOps S} {val : S → ℕ} (hO : O.Sound val)
include hO

theorem scalarGetB32_eq (a : S) : O.getB32 a = numGetBin (val a) := by
  have hlt := Bytes.be_lt (O.getB32 a)
  apply Bytes.be_inj
  rw [be_numGetBin (by rw [← hO.getB32]; exact hlt.trans_eq (by norm_num)), hO.getB32]

/-- What the two functions do with tweaks in range and out of it. -/
theorem ecPrivkeyTweak_eq {f : S → S → S × Bool} {seckey tweak : Fin 32 → Byte} :
    ecPrivkeyTweak O f seckey tweak =
      if Bytes.be tweak < n ∧ (f (O.setB32 seckey).1 (O.setB32 tweak).1).2 = true then
        (numGetBin (val (f (O.setB32 seckey).1 (O.setB32 tweak).1).1), true)
      else (fun _ => 0, false) := by
  unfold ecPrivkeyTweak
  by_cases hlt : Bytes.be tweak < n
  · have hover := hO.setB32_fits.mpr hlt
    simp only [if_neg (not_not.mpr hover), hlt, true_and, scalarGetB32_eq hO]
  · have hover := mt hO.setB32_fits.mp hlt
    simp only [if_pos hover, hlt, false_and, if_false]

/-- A call on a secret key in range is the call on its number. -/
theorem privStep_act (op : KeyOp) {seckey : Fin 32 → Byte} (hu : Usable seckey) :
    privStep O op seckey =
      (op.act (Bytes.be seckey)).elim (fun _ => 0, false) fun d => (numGetBin d, true) := by
  have hsec := hO.val_setB32 hu.2
  have hlt : val (O.setB32 seckey).1 < n := hsec.trans_lt hu.2
  cases op with
  | negate =>
    rw [privStep, ecPrivkeyNegate, scalarGetB32_eq hO, hO.negate _ hlt, hsec]
    rfl
  | tweakAdd tweak =>
    rw [privStep, ecPrivkeyTweakAdd, ecPrivkeyTweak_eq hO, KeyOp.act]
    by_cases ht : Bytes.be tweak < n
    · have hval := hO.val_setB32 ht
      have hadd := (hO.add _ _ hlt (hval.trans_lt ht)).1
      rw [hsec, hval] at hadd
      simp only [eckeyPrivkeyTweakAdd, hO.isZero, hadd, ht, true_and, Bool.not_eq_true',
        decide_eq_false_iff_not, ← ne_eq]
      split <;> rfl
    · rw [if_neg (fun h => ht h.1), if_neg (fun h => ht h.1)]
      rfl
  | tweakMul tweak =>
    rw [privStep, ecPrivkeyTweakMul, ecPrivkeyTweak_eq hO, KeyOp.act]
    by_cases ht : Bytes.be tweak < n
    · have hval := hO.val_setB32 ht
      by_cases h0 : Bytes.be tweak = 0
      · have heq : eckeyPrivkeyTweakMul O (O.setB32 seckey).1 (O.setB32 tweak).1 =
            ((O.setB32 seckey).1, false) := by
          unfold eckeyPrivkeyTweakMul
          rw [if_pos]
          rw [hO.isZero, hval, decide_eq_true h0]
        rw [heq, if_neg (fun h => Bool.false_ne_true h.2), if_neg (fun h => h.2 h0)]
        rfl
      · have heq : eckeyPrivkeyTweakMul O (O.setB32 seckey).1 (O.setB32 tweak).1 =
            (O.mul (O.setB32 seckey).1 (O.setB32 tweak).1, true) := by
          unfold eckeyPrivkeyTweakMul
          rw [if_neg]
          rwa [hO.isZero, hval, decide_eq_true_iff]
        rw [heq, if_pos ⟨ht, rfl⟩, if_pos ⟨ht, h0⟩, hO.mul, hsec, hval]
        rfl
    · rw [if_neg (fun h => ht h.1), if_neg (fun h => ht h.1)]
      rfl

theorem privRun_act (ops : List KeyOp) {seckey : Fin 32 → Byte} (hu : Usable seckey) :
    privRun O ops seckey =
      (KeyOp.run ops (Bytes.be seckey)).elim (fun _ => 0, false) fun d => (numGetBin d, true) := by
  induction ops generalizing seckey with
  | nil =>
    have hlt : Bytes.be seckey < 2 ^ 256 := hu.2.trans (n_lt_p.trans p_lt)
    rw [privRun, KeyOp.run, Option.elim_some, Bytes.be_inj (be_numGetBin hlt)]
  | cons op ops ih =>
    rw [privRun, privStep_act hO op hu, KeyOp.run]
    cases hact : op.act (Bytes.be seckey) with
    | none => rfl
    | some d =>
      obtain ⟨hd0, hdn⟩ := KeyOp.act_range hact hu.1 hu.2
      have hbe : Bytes.be (numGetBin d) = d := be_numGetBin (hdn.trans n_lt)
      have hrun := ih (usable_numGetBin hd0 hdn)
      rw [hbe] at hrun
      exact hrun

end

/-! ## Public keys -/

theorem StoredAt.keyOf {P : Point} {pubkey : GeStorage} (h : StoredAt P pubkey) :
    ∃ x y, ∃ hkey : KeyOf pubkey x y, hkey.point.point = P := by
  obtain ⟨x, y, hns, rfl, hx, hy⟩ := h
  exact ⟨x, y, ⟨nonsingular_iff.mp hns, hx, hy⟩, rfl⟩

theorem KeyOf.storedAt {pubkey : GeStorage} {x y : ZMod p} (h : KeyOf pubkey x y) :
    StoredAt h.point.point pubkey := ⟨x, y, _, rfl, h.x_val, h.y_val⟩

section

variable {b : FieldBackend} (hb : b.Sound) {c : ScalarBackend} {P : Point} {pubkey : GeStorage}

theorem gejOf_infinity {a : Gej b.Fe} (h : b.GejOf a P) : a.infinity = true ↔ P = 0 := by
  cases P with
  | zero => exact iff_of_true h rfl
  | some x y hns =>
    refine iff_of_false ?_ (WeierstrassCurve.Affine.Point.some_ne_zero _)
    rw [h.1.finite]
    exact Bool.false_ne_true

include hb

theorem pubkeyLoad_at (h : StoredAt P pubkey) :
    GeAt (b.values hb).toFieldModel 1 P (pubkeyLoad b.ops pubkey).1 ∧
      (pubkeyLoad b.ops pubkey).2 = true := by
  obtain ⟨x, y, hkey, -⟩ := h.keyOf
  exact ⟨geFromStorage_at (b.values hb) h, (hkey.load hb).2⟩

/-- A point as it is saved. -/
theorem geSetGej_at {a : Gej b.Fe} (ha : b.GejOf a P) (hP : P ≠ 0) :
    Yields (geSetGej b.ops a) fun q => GeAt (b.values hb).toFieldModel 1 P q.1 := by
  cases P with
  | zero => exact absurd rfl hP
  | some x y hns =>
    obtain ⟨hj, hx, hy, hz⟩ := ha
    refine (geSetGej_spec (b.values hb).toFieldModel hj.z_ne
      (FieldBackend.raw_of_reduced hb hx hj.x_eq) (FieldBackend.raw_of_reduced hb hy hj.y_eq)
      (FieldBackend.raw_of_reduced hb hz rfl)).mono fun q hq => ?_
    obtain ⟨hinf, hqx, hqy, -⟩ := hq
    exact ⟨x, y, hinf.trans hj.finite, (b.values hb).rep_mono (by norm_num) hqx,
      (b.values hb).rep_mono (by norm_num) hqy, hj.point.jac⟩

variable {ecmult : Gej b.Fe → c.Scalar → c.Scalar → Option (Gej b.Fe)}
  (hec : b.EcmultSpec c ecmult)
include hec

/-- A multiplication of a key. -/
theorem ecmult_stored (h : StoredAt P pubkey) {na ng : c.Scalar} (hna : c.val na < n)
    (hng : c.val ng < n) {Q : Point} (hQ : c.val na • P + c.val ng • generator = Q) :
    Yields (ecmult (gejSetGe b.ops (pubkeyLoad b.ops pubkey).1) na ng) fun a => b.GejOf a Q := by
  rw [← hQ]
  obtain ⟨x, y, hkey, rfl⟩ := h.keyOf
  obtain ⟨hq, -⟩ := hkey.load hb
  obtain ⟨hj, hz⟩ := FieldBackend.gejSetGe_jacobianOf hb hq
  exact hec _ na ng x y hkey.point hj hq.x_range hq.y_range hz hna hng

/-- What a call makes of the public key of `d`. -/
def ActsAs (o : Option ℕ) (r : GeStorage × Bool) : Prop :=
  (o = none ∧ r = (zeroPubkey, false)) ∨ ∃ d, o = some d ∧ r.2 = true ∧ StoredAt (d • generator) r.1

omit hec in
/-- What the two functions do with tweaks in range and out of it. -/
theorem ecPubkeyTweak_at {f : Ge b.Fe → c.Scalar → Option (Ge b.Fe × Bool)} {tweak : Fin 32 → Byte}
    {o : Option ℕ} (h : StoredAt P pubkey) (hout : ¬ Bytes.be tweak < n → o = none)
    (hf : Bytes.be tweak < n →
      Yields (f (pubkeyLoad b.ops pubkey).1 (c.ops.setB32 tweak).1) fun r =>
        (o = none ∧ r.2 = false) ∨ ∃ d, o = some d ∧ r.2 = true ∧
          GeAt (b.values hb).toFieldModel 1 (d • generator) r.1) :
    Yields (ecPubkeyTweak b.ops c.ops f pubkey tweak) (ActsAs o) := by
  have hover := c.sound.setB32_fits (b := tweak)
  obtain ⟨-, hok⟩ := pubkeyLoad_at hb h
  unfold ecPubkeyTweak
  generalize c.ops.setB32 tweak = t at hover hf ⊢
  obtain ⟨term, overflow⟩ := t
  generalize pubkeyLoad b.ops pubkey = l at hok hf ⊢
  obtain ⟨q, ok⟩ := l
  obtain rfl : ok = true := hok
  by_cases hlt : Bytes.be tweak < n
  · have hin : ¬ (overflow ≠ 0 ∨ (!true) = true) := by
      rw [show overflow = 0 from hover.mpr hlt]
      decide
    simp only [if_neg hin]
    refine (hf hlt).bind ?_
    rintro ⟨q, ok⟩ (⟨rfl, hfail⟩ | ⟨d, rfl, htrue, hq⟩)
    · obtain rfl : ok = false := hfail
      exact .pure (.inl ⟨rfl, rfl⟩)
    · obtain rfl : ok = true := htrue
      refine (geToStorage_at hq).bind fun pk hpk => ?_
      exact .pure (.inr ⟨d, rfl, rfl, hpk⟩)
  · have hin : overflow ≠ 0 ∨ (!true) = true := .inl (mt hover.mp hlt)
    simp only [if_pos hin]
    exact .some (.inl ⟨hout hlt, rfl⟩)

theorem eckeyPubkeyTweakAdd_at {d : ℕ} (h : StoredAt (d • generator) pubkey)
    {tweak : Fin 32 → Byte} (ht : Bytes.be tweak < n) :
    Yields (eckeyPubkeyTweakAdd b.ops c.ops ecmult (pubkeyLoad b.ops pubkey).1
      (c.ops.setB32 tweak).1) fun r =>
        ((KeyOp.tweakAdd tweak).act d = none ∧ r.2 = false) ∨
          ∃ d', (KeyOp.tweakAdd tweak).act d = some d' ∧ r.2 = true ∧
            GeAt (b.values hb).toFieldModel 1 (d' • generator) r.1 := by
  have hval := c.sound.val_setB32 ht
  have hone : c.val (c.ops.setInt 1) = 1 := c.sound.setInt 1
  obtain ⟨Q, hQ⟩ : ∃ Q, (d + Bytes.be tweak) • generator = Q := ⟨_, rfl⟩
  refine (ecmult_stored hb hec h (Q := Q) (hone.trans_lt n_prime.one_lt) (hval.trans_lt ht)
    ?_).bind fun a ha => ?_
  · rw [hone, hval, one_nsmul, ← add_nsmul, hQ]
  have hinf : a.infinity = true ↔ (d + Bytes.be tweak) % n = 0 := by
    rw [gejOf_infinity ha, ← hQ, smul_eq_zero_iff generator_ne_zero, Nat.dvd_iff_mod_eq_zero]
  by_cases h0 : (d + Bytes.be tweak) % n = 0
  · have hact : (KeyOp.tweakAdd tweak).act d = none := by
      rw [KeyOp.act, if_neg (fun h => h.2 h0)]
    rw [if_pos (hinf.mpr h0)]
    exact .pure (.inl ⟨hact, rfl⟩)
  · have hact : (KeyOp.tweakAdd tweak).act d = some ((d + Bytes.be tweak) % n) := by
      rw [KeyOp.act, if_pos ⟨ht, h0⟩]
    rw [if_neg (mt hinf.mp h0)]
    refine (geSetGej_at hb ha fun hzero => ?_).bind fun q hq => ?_
    · exact h0 (hinf.mp ((gejOf_infinity ha).mpr hzero))
    · rw [← hQ, ← mod_smul] at hq
      exact .pure (.inr ⟨_, hact, rfl, hq⟩)

theorem eckeyPubkeyTweakMul_at {d : ℕ} (h0 : 0 < d) (hn : d < n)
    (h : StoredAt (d • generator) pubkey) {tweak : Fin 32 → Byte} (ht : Bytes.be tweak < n) :
    Yields (eckeyPubkeyTweakMul b.ops c.ops ecmult (pubkeyLoad b.ops pubkey).1
      (c.ops.setB32 tweak).1) fun r =>
        ((KeyOp.tweakMul tweak).act d = none ∧ r.2 = false) ∨
          ∃ d', (KeyOp.tweakMul tweak).act d = some d' ∧ r.2 = true ∧
            GeAt (b.values hb).toFieldModel 1 (d' • generator) r.1 := by
  have hval := c.sound.val_setB32 ht
  have hzero : c.val (c.ops.setInt 0) = 0 := c.sound.setInt 0
  unfold eckeyPubkeyTweakMul
  rw [c.sound.isZero, hval]
  by_cases ht0 : Bytes.be tweak = 0
  · have hact : (KeyOp.tweakMul tweak).act d = none := by
      rw [KeyOp.act, if_neg (fun h => h.2 ht0)]
    rw [if_pos (decide_eq_true ht0)]
    exact .some (.inl ⟨hact, rfl⟩)
  · rw [if_neg (by rwa [decide_eq_true_iff])]
    have hact : (KeyOp.tweakMul tweak).act d = some (d * Bytes.be tweak % n) := by
      rw [KeyOp.act, if_pos ⟨ht, ht0⟩]
    have hpos := (KeyOp.act_range hact h0 hn).1
    obtain ⟨Q, hQ⟩ : ∃ Q, (d * Bytes.be tweak % n) • generator = Q := ⟨_, rfl⟩
    refine (ecmult_stored hb hec h (Q := Q) (hval.trans_lt ht) (hzero.trans_lt n_pos) ?_).bind
      fun a ha => ?_
    · rw [hzero, hval, zero_nsmul, add_zero, ← mul_nsmul, ← mod_smul, hQ]
    refine (geSetGej_at hb ha fun hz => ?_).bind fun q hq => ?_
    · have hdvd := (smul_eq_zero_iff generator_ne_zero).mp (hQ.trans hz)
      exact absurd (Nat.le_of_dvd hpos hdvd) (not_le.mpr (Nat.mod_lt _ n_pos))
    · rw [← hQ] at hq
      exact .pure (.inr ⟨_, hact, rfl, hq⟩)

omit hec in
theorem ecPubkeyNegate_at {d : ℕ} (hn : d < n) (h : StoredAt (d • generator) pubkey) :
    Yields (ecPubkeyNegate b.ops pubkey) (ActsAs (KeyOp.negate.act d)) := by
  obtain ⟨hq, hok⟩ := pubkeyLoad_at hb h
  unfold ecPubkeyNegate
  generalize pubkeyLoad b.ops pubkey = l at hq hok ⊢
  obtain ⟨q, ok⟩ := l
  obtain rfl : ok = true := hok
  refine (geNeg_at hq).bind fun q hq => ?_
  refine (geToStorage_at hq).bind fun pk hpk => ?_
  have hact : KeyOp.negate.act d = some ((n - d) % n) := by
    rw [KeyOp.act]
  rw [← neg_smul_eq hn.le] at hpk
  exact .pure (.inr ⟨_, hact, rfl, hpk⟩)

/-- A call on the public key of `d` is the call on `d`. -/
theorem pubStep_act (op : KeyOp) {d : ℕ} (h0 : 0 < d) (hn : d < n)
    (h : StoredAt (d • generator) pubkey) :
    Yields (pubStep b.ops c.ops ecmult op pubkey) (ActsAs (op.act d)) := by
  cases op with
  | negate => exact ecPubkeyNegate_at hb hn h
  | tweakAdd tweak =>
    refine ecPubkeyTweak_at hb h (fun hlt => ?_) fun ht => eckeyPubkeyTweakAdd_at hb hec h ht
    rw [KeyOp.act, if_neg (fun h => hlt h.1)]
  | tweakMul tweak =>
    refine ecPubkeyTweak_at hb h (fun hlt => ?_) fun ht => eckeyPubkeyTweakMul_at hb hec h0 hn h ht
    rw [KeyOp.act, if_neg (fun h => hlt h.1)]

theorem pubRun_act (ops : List KeyOp) {d : ℕ} (h0 : 0 < d) (hn : d < n)
    (h : StoredAt (d • generator) pubkey) :
    Yields (pubRun b.ops c.ops ecmult ops pubkey) (ActsAs (KeyOp.run ops d)) := by
  induction ops generalizing d pubkey with
  | nil => exact .some (.inr ⟨d, rfl, rfl, h⟩)
  | cons op ops ih =>
    rw [KeyOp.run]
    refine (pubStep_act hb hec op h0 hn h).bind ?_
    rintro ⟨pk, ok⟩ (⟨hnone, heq⟩ | ⟨d', hsome, htrue, hpk⟩)
    · obtain ⟨rfl, rfl⟩ := Prod.mk.inj heq
      rw [hnone]
      exact .pure (.inl ⟨rfl, rfl⟩)
    · obtain rfl : ok = true := htrue
      obtain ⟨hd0, hdn⟩ := KeyOp.act_range hsome h0 hn
      rw [hsome]
      exact ih hd0 hdn hpk

end

/-! ## Sums of keys -/

section

variable {b : FieldBackend} (hb : b.Sound) (hint : b.SoundInt) {Ps : List Point}
  {pubkeys : List GeStorage}
include hb hint

theorem combineLoop_at (h : List.Forall₂ StoredAt Ps pubkeys) {P : Point} {qj : Gej b.Fe}
    (hqj : GejAt (b.values hb).toFieldModel 1 P qj) (hwithin : (b.values hb).GejWithin qj) :
    Yields (combineLoop b.ops pubkeys qj) fun r =>
      GejAt (b.values hb).toFieldModel 1 (P + Ps.sum) r ∧ (b.values hb).GejWithin r := by
  induction h generalizing P qj with
  | nil =>
    rw [List.sum_nil, add_zero]
    exact .some ⟨hqj, hwithin⟩
  | @cons Q pubkey Ps pubkeys hpk _ ih =>
    have hM : (b.values hb).MulInt := FieldBackend.values_mulInt hb hint
    rw [List.sum_cons, ← add_assoc]
    refine (gejAddGe_at hM (b.values hb).zero_iff.mp one_at hqj hwithin
      (pubkeyLoad_at hb hpk).1).bind fun r hr => ?_
    exact ih hr.1 hr.2

/-- The sum of the points, unless it is the point at infinity. -/
theorem ecPubkeyCombine_at (h : List.Forall₂ StoredAt Ps pubkeys) :
    Yields (ecPubkeyCombine b.ops pubkeys) fun r =>
      (Ps.sum = 0 ∧ r = (zeroPubkey, false)) ∨
        (Ps.sum ≠ 0 ∧ r.2 = true ∧ StoredAt Ps.sum r.1) := by
  by_cases hnil : pubkeys = []
  · subst hnil
    cases h
    exact .some (.inl ⟨rfl, rfl⟩)
  have hlen : ¬ pubkeys.length < 1 := by
    rw [Nat.lt_one_iff, List.length_eq_zero_iff]
    exact hnil
  rw [ecPubkeyCombine, if_neg hlen]
  refine (combineLoop_at hb hint h (.inl ⟨rfl, rfl⟩) gejSetInfinity_within).bind fun qj hqj => ?_
  rw [zero_add] at hqj
  have hof := FieldBackend.gejOf_of_within hb hqj.1 hqj.2
  have hinf := gejOf_infinity hof
  by_cases h0 : Ps.sum = 0
  · rw [if_pos (hinf.mpr h0)]
    exact .pure (.inl ⟨h0, rfl⟩)
  · rw [if_neg (mt hinf.mp h0)]
    refine (geSetGej_at hb hof h0).bind fun q hq => ?_
    refine (geToStorage_at hq).bind fun pk hpk => ?_
    exact .pure (.inr ⟨h0, rfl, hpk⟩)

end

/-! ## The keys of a build -/

theorem ecSeckeyVerify_iff {S : Type} {O : ScalarOps S} {val : S → ℕ} (hO : O.Sound val)
    (seckey : Fin 32 → Byte) : ecSeckeyVerify O seckey = true ↔ Usable seckey := by
  rw [← usable_iff hO, ecSeckeyVerify, Bool.and_eq_true, decide_eq_true_iff]

theorem ecPubkeyCreate_at {b : FieldBackend} (hb : b.Sound) {c : ScalarBackend}
    {ecmultGen : c.Scalar → Option (Gej b.Fe)} (hgen : b.EcmultGenSpec c ecmultGen)
    {seckey : Fin 32 → Byte} (hu : Usable seckey) :
    ∃ pubkey, ecPubkeyCreate b.ops c.ops ecmultGen seckey = some (some pubkey) ∧
      StoredAt (Bytes.be seckey • generator) pubkey := by
  obtain ⟨o, ho, pubkey, x, y, hkey, rfl, hQ⟩ := ecPubkeyCreate_spec hb hgen hu.1 hu.2
  exact ⟨pubkey, ho, hQ ▸ hkey.storedAt⟩

theorem storedAt_generatorKey : StoredAt generator generatorKey := keyOf_generatorKey.storedAt

/-- Every finite point belongs to a secret key. -/
theorem exists_usable {P : Point} (hP : P ≠ 0) :
    ∃ seckey, Usable seckey ∧ P = Bytes.be seckey • generator := by
  obtain ⟨k, hk, rfl⟩ := exists_smul_generator P
  have hpos : 0 < k := by
    rw [Nat.pos_iff_ne_zero]
    rintro rfl
    exact hP (zero_nsmul _)
  exact ⟨numGetBin k, usable_numGetBin hpos hk, by rw [be_numGetBin (hk.trans n_lt)]⟩

section

variable (kc : Field5x52.KernelChoice) (c : ScalarBackend)
  {ctx : EcmultGenContext (FieldBackend.limbs5x52 kc).Fe c.Scalar}
  (hctx : GenBuilt (FieldBackend.limbs5x52 kc).ops c.ops ctx)
include hctx

/-- For every secret key in range and every sequence of calls that negate it, add to it or multiply
it: either a call fails on the secret key, which is then cleared, and the same call fails on its
public key, which is cleared too; or none does, the secret key that is left is in range, and the
public key that is left is the one made from it. -/
theorem keyRun_commutes {tmem : TableMemory (FieldBackend.limbs5x52 kc).Fe}
    {prea : ℕ → Ge (FieldBackend.limbs5x52 kc).Fe} {pre preG : ℕ → GeStorage}
    (hpre : ecmultContextBuild (FieldBackend.limbs5x52 kc).ops tmem prea pre = some preG)
    (mem : EcmultMemory (FieldBackend.limbs5x52 kc).Fe) {seckey : Fin 32 → Byte}
    (hu : Usable seckey) (ops : List KeyOp) :
    ∃ pubkey, ecPubkeyCreate (FieldBackend.limbs5x52 kc).ops c.ops
        (ecmultGen (FieldBackend.limbs5x52 kc).ops c.ops ctx) seckey = some (some pubkey) ∧
      ((privRun c.ops ops seckey = (fun _ => 0, false) ∧
        pubRun (FieldBackend.limbs5x52 kc).ops c.ops
          (ecmult (FieldBackend.limbs5x52 kc).ops c.ops preG mem) ops pubkey =
            some (zeroPubkey, false)) ∨
      ∃ seckey' pubkey', privRun c.ops ops seckey = (seckey', true) ∧
        ecSeckeyVerify c.ops seckey' = true ∧
        pubRun (FieldBackend.limbs5x52 kc).ops c.ops
          (ecmult (FieldBackend.limbs5x52 kc).ops c.ops preG mem) ops pubkey =
            some (pubkey', true) ∧
        ecPubkeyCreate (FieldBackend.limbs5x52 kc).ops c.ops
          (ecmultGen (FieldBackend.limbs5x52 kc).ops c.ops ctx) seckey' = some (some pubkey')) := by
  have hb := FieldBackend.sound_5x52 kc
  have hgen := FieldBackend.ecmultGenSpec_of_built kc c hctx
  have hec := FieldBackend.ecmultSpec_of_built hb (FieldBackend.soundInt_5x52 kc) c hpre mem
  obtain ⟨pubkey, hcreate, hpk⟩ := ecPubkeyCreate_at hb hgen hu
  refine ⟨pubkey, hcreate, ?_⟩
  rw [privRun_act c.sound ops hu]
  obtain ⟨r, hr, ⟨hnone, rfl⟩ | ⟨d, hsome, htrue, hpk'⟩⟩ := pubRun_act hb hec ops hu.1 hu.2 hpk
  · rw [hnone]
    exact .inl ⟨rfl, hr⟩
  · have hrange := KeyOp.run_range hsome hu.1 hu.2
    have hbe : Bytes.be (numGetBin d) = d := be_numGetBin (hrange.2.trans n_lt)
    have hu' := usable_numGetBin hrange.1 hrange.2
    obtain ⟨pubkey', hcreate', hpk''⟩ := ecPubkeyCreate_at hb hgen hu'
    rw [hbe] at hpk''
    rw [hsome]
    refine .inr ⟨numGetBin d, pubkey', rfl, (ecSeckeyVerify_iff c.sound _).mpr hu', ?_, hcreate'⟩
    obtain ⟨pk, ok⟩ := r
    obtain rfl : ok = true := htrue
    obtain rfl : pk = pubkey' := hpk'.unique hpk''
    exact hr

omit hctx in
/-- The secret key 1, negated, plus 5, times 3. -/
theorem keyRun_commutes_demo :
    ∃ (ctx : EcmultGenContext (FieldBackend.limbs5x52 (.asm .jwasm)).Fe
        ScalarBackend.limbs8x32.Scalar) (preG : ℕ → GeStorage), ∀ mem, ∃ pubkey pubkey',
      ecPubkeyCreate (FieldBackend.limbs5x52 (.asm .jwasm)).ops ScalarBackend.limbs8x32.ops
          (ecmultGen (FieldBackend.limbs5x52 (.asm .jwasm)).ops ScalarBackend.limbs8x32.ops ctx)
          (numGetBin 1) = some (some pubkey) ∧
        pubRun (FieldBackend.limbs5x52 (.asm .jwasm)).ops ScalarBackend.limbs8x32.ops
          (ecmult (FieldBackend.limbs5x52 (.asm .jwasm)).ops ScalarBackend.limbs8x32.ops preG mem)
          [.negate, .tweakAdd (numGetBin 5), .tweakMul (numGetBin 3)] pubkey =
            some (pubkey', true) ∧
        ecPubkeyCreate (FieldBackend.limbs5x52 (.asm .jwasm)).ops ScalarBackend.limbs8x32.ops
          (ecmultGen (FieldBackend.limbs5x52 (.asm .jwasm)).ops ScalarBackend.limbs8x32.ops ctx)
          (numGetBin 12) = some (some pubkey') := by
  obtain ⟨ctx, hctx⟩ := FieldBackend.exists_genBuilt (.asm .jwasm) .limbs8x32
  obtain ⟨preG, hpre⟩ := FieldBackend.exists_ecmultContext (.asm .jwasm)
  have hu := usable_numGetBin Nat.one_pos n_prime.one_lt
  have hrun := privRun_act ScalarBackend.limbs8x32.sound
    [.negate, .tweakAdd (numGetBin 5), .tweakMul (numGetBin 3)] hu
  rw [show KeyOp.run [.negate, .tweakAdd (numGetBin 5), .tweakMul (numGetBin 3)]
    (Bytes.be (numGetBin 1)) = some 12 by decide, Option.elim_some] at hrun
  refine ⟨ctx, preG, fun mem => ?_⟩
  obtain ⟨pubkey, hcreate, ⟨hfail, -⟩ | ⟨seckey', pubkey', hpriv, -, hpub, hcreate'⟩⟩ :=
    keyRun_commutes (.asm .jwasm) .limbs8x32 hctx hpre mem hu
      [.negate, .tweakAdd (numGetBin 5), .tweakMul (numGetBin 3)]
  · exact absurd (congrArg Prod.snd (hrun.symm.trans hfail)) Bool.true_eq_false.mp
  · obtain rfl : numGetBin 12 = seckey' := congrArg Prod.fst (hrun.symm.trans hpriv)
    exact ⟨pubkey, pubkey', hcreate, hpub, hcreate'⟩

/-- The sum of public keys on the curve, on the five-limb backend: in every order of the keys the
same key is returned, the one made from the secret that belongs to the sum of the points, and every
sum but the point at infinity has one. Where the sum is the point at infinity, or there are no keys,
the output is cleared; for no keys 0 is what `ARG_CHECK` returns when its callback does. -/
theorem ecPubkeyCombine_sum {Ps : List Point} {pubkeys : List GeStorage}
    (h : List.Forall₂ StoredAt Ps pubkeys) :
    (pubkeys = [] ∨ Ps.sum = 0 →
      ∀ l, l.Perm pubkeys →
        ecPubkeyCombine (FieldBackend.limbs5x52 kc).ops l = some (zeroPubkey, false)) ∧
    (Ps.sum ≠ 0 → ∃ seckey, Usable seckey ∧ Ps.sum = Bytes.be seckey • generator) ∧
    ∀ seckey, Usable seckey → Ps.sum = Bytes.be seckey • generator →
      ∃ pubkey, ecPubkeyCreate (FieldBackend.limbs5x52 kc).ops c.ops
          (ecmultGen (FieldBackend.limbs5x52 kc).ops c.ops ctx) seckey = some (some pubkey) ∧
        ∀ l, l.Perm pubkeys →
          ecPubkeyCombine (FieldBackend.limbs5x52 kc).ops l = some (pubkey, true) := by
  have hb := FieldBackend.sound_5x52 kc
  have hgen := FieldBackend.ecmultGenSpec_of_built kc c hctx
  -- the points in another order have the same sum
  have hcombine : ∀ l, l.Perm pubkeys →
      Yields (ecPubkeyCombine (FieldBackend.limbs5x52 kc).ops l) fun r =>
        (Ps.sum = 0 ∧ r = (zeroPubkey, false)) ∨
          (Ps.sum ≠ 0 ∧ r.2 = true ∧ StoredAt Ps.sum r.1) := by
    intro l hl
    obtain ⟨Qs, hQs, hperm⟩ := List.perm_comp_forall₂ hl h.flip
    have hat := ecPubkeyCombine_at hb (FieldBackend.soundInt_5x52 kc) hQs.flip
    rwa [hperm.sum_eq] at hat
  refine ⟨fun hzero l hl => ?_, exists_usable, fun seckey hu hP => ?_⟩
  · have h0 : Ps.sum = 0 := by
      rcases hzero with rfl | h0
      · cases h
        rfl
      · exact h0
    obtain ⟨r, hr, ⟨-, rfl⟩ | ⟨hne, -⟩⟩ := hcombine l hl
    · exact hr
    · exact absurd h0 hne
  · obtain ⟨pubkey, hcreate, hpk⟩ := ecPubkeyCreate_at hb hgen hu
    rw [← hP] at hpk
    refine ⟨pubkey, hcreate, fun l hl => ?_⟩
    obtain ⟨⟨pk, ok⟩, hr, ⟨h0, -⟩ | ⟨-, htrue, hpk'⟩⟩ := hcombine l hl
    · exact absurd (hP.symm.trans h0) (usable_smul_ne_zero hu)
    · obtain rfl : ok = true := htrue
      obtain rfl : pk = pubkey := hpk'.unique hpk
      exact hr

omit hctx in
/-- The generator, twice. -/
theorem ecPubkeyCombine_sum_demo :
    ∃ (ctx : EcmultGenContext (FieldBackend.limbs5x52 .portable).Fe ScalarBackend.limbs4x64.Scalar)
      (pubkey : GeStorage),
      ecPubkeyCreate (FieldBackend.limbs5x52 .portable).ops ScalarBackend.limbs4x64.ops
          (ecmultGen (FieldBackend.limbs5x52 .portable).ops ScalarBackend.limbs4x64.ops ctx)
          (numGetBin 2) = some (some pubkey) ∧
        ecPubkeyCombine (FieldBackend.limbs5x52 .portable).ops [generatorKey, generatorKey] =
          some (pubkey, true) := by
  obtain ⟨ctx, hctx⟩ := FieldBackend.exists_genBuilt .portable .limbs4x64
  have h2 : Bytes.be (numGetBin 2) = 2 := be_numGetBin (by norm_num)
  have hu := usable_numGetBin Nat.two_pos (show 2 < n by decide)
  have hsum : [generator, generator].sum = Bytes.be (numGetBin 2) • generator := by
    rw [h2, two_nsmul, List.sum_cons, List.sum_cons, List.sum_nil, add_zero]
  obtain ⟨pubkey, hcreate, hl⟩ := (ecPubkeyCombine_sum .portable .limbs4x64 hctx
    (.cons storedAt_generatorKey (.cons storedAt_generatorKey .nil))).2.2 (numGetBin 2) hu hsum
  exact ⟨ctx, pubkey, hcreate, hl _ (.refl _)⟩

end

end Secp256k1
