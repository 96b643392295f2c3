import Secp256k1.Field.Impl5x52
import Secp256k1.Hash.Sha256

/-!
# HMAC and deterministic nonces

The rest of `hash_impl.h`, and `nonce_function_rfc6979` of `secp256k1.c`. A keyed hash is computed
in two contexts that are fed side by side; the generator keys it with its own output. Local
variables start with what the memory held. The loop of the nonce function counts in 32 bits and is
given the number of turns it may take.
-/

namespace Secp256k1

open Sha256

/-- `secp256k1_hmac_sha256_t`. -/
structure HmacSha256 where
  inner : Sha256
  outer : Sha256

/-- `secp256k1_rfc6979_hmac_sha256_t`. -/
structure Rfc6979HmacSha256 where
  v : Fin 32 → Byte
  k : Fin 32 → Byte
  retry : CInt

section

variable (sha256 : Sha256)

/-- The key in 64 bytes; `sha256` is the memory of the context for a key that is longer. -/
def hmacKey (key : List Byte) : List Byte :=
  if key.length ≤ 64 then key ++ List.replicate (64 - key.length) 0
  else
    List.ofFn (sha256Finalize (sha256Write (sha256Initialize sha256) key)).2 ++
      List.replicate 32 0

def hmacSha256Initialize (hash : HmacSha256) (key : List Byte) : HmacSha256 :=
  let rkey := (hmacKey sha256 key).map (· ^^^ 0x5c)
  let outer := sha256Write (sha256Initialize hash.outer) rkey
  let rkey := rkey.map (· ^^^ (0x5c ^^^ 0x36))
  let inner := sha256Write (sha256Initialize hash.inner) rkey
  ⟨inner, outer⟩

def hmacSha256Write (hash : HmacSha256) (data : List Byte) : HmacSha256 :=
  { hash with inner := sha256Write hash.inner data }

def hmacSha256Finalize (hash : HmacSha256) : HmacSha256 × (Fin 32 → Byte) :=
  let (inner, temp) := sha256Finalize hash.inner
  let (outer, out32) := sha256Finalize (sha256Write hash.outer (List.ofFn temp))
  (⟨inner, outer⟩, out32)

/-- `secp256k1_hmac_sha256_initialize` with 32 bytes, a write for each piece, and
`secp256k1_hmac_sha256_finalize`. -/
def hmacOf (hmac : HmacSha256) (k : Fin 32 → Byte) (chunks : List (List Byte)) :
    HmacSha256 × (Fin 32 → Byte) :=
  hmacSha256Finalize (chunks.foldl hmacSha256Write (hmacSha256Initialize sha256 hmac (List.ofFn k)))

/-! ## The generator -/

def rfc6979Initialize (hmac : HmacSha256) (key : List Byte) : Rfc6979HmacSha256 :=
  let v : Fin 32 → Byte := fun _ => 0x01
  let k : Fin 32 → Byte := fun _ => 0x00
  let (hmac, k) := hmacOf sha256 hmac k [List.ofFn v, [0x00], key]
  let (hmac, v) := hmacOf sha256 hmac k [List.ofFn v]
  let (hmac, k) := hmacOf sha256 hmac k [List.ofFn v, [0x01], key]
  let (_, v) := hmacOf sha256 hmac k [List.ofFn v]
  ⟨v, k, 0⟩

/-- `while (outlen > 0)`: the last `V`, and the bytes written. A turn writes at least one byte, so
that `outlen` turns are enough. -/
def generateLoop (hmac : HmacSha256) (k : Fin 32 → Byte) :
    ℕ → (Fin 32 → Byte) → ℕ → (Fin 32 → Byte) × List Byte
  | 0, v, _ => (v, [])
  | fuel + 1, v, outlen =>
    if outlen > 0 then
      let v := (hmacOf sha256 hmac k [List.ofFn v]).2
      let now := if outlen > 32 then 32 else outlen
      let (v', out) := generateLoop hmac k fuel v (outlen - now)
      (v', (List.ofFn v).take now ++ out)
    else (v, [])

def rfc6979Generate (hmac : HmacSha256) (rng : Rfc6979HmacSha256) (outlen : ℕ) :
    Rfc6979HmacSha256 × List Byte :=
  let (v, k) := if rng.retry ≠ 0 then
      let (hmac, k) := hmacOf sha256 hmac rng.k [List.ofFn rng.v, [0x00]]
      let (_, v) := hmacOf sha256 hmac k [List.ofFn rng.v]
      (v, k)
    else (rng.v, rng.k)
  let (v, out) := generateLoop sha256 hmac k outlen v outlen
  (⟨v, k, 1⟩, out)

/-- The outputs of 32 bytes, one request after the other: the state after request `i`, and the bytes
it wrote. -/
def rfc6979Outputs (hmac : HmacSha256) (key : List Byte) :
    ℕ → Rfc6979HmacSha256 × List Byte
  | 0 => rfc6979Generate sha256 hmac (rfc6979Initialize sha256 hmac key) 32
  | i + 1 => rfc6979Generate sha256 hmac (rfc6979Outputs hmac key i).1 32

/-- Output `i` in an array of 32 bytes. -/
def rfc6979Draw (hmac : HmacSha256) (key : List Byte) (i : ℕ) : Fin 32 → Byte := fun j =>
  (rfc6979Outputs sha256 hmac key i).2.getD j 0

/-! ## The nonce function -/

/-- `keydata`, up to `keylen`. -/
def nonceKeydata (msg32 key32 : Fin 32 → Byte) (algo16 : Option (Fin 16 → Byte))
    (data : Option (Fin 32 → Byte)) : List Byte :=
  List.ofFn key32 ++ List.ofFn msg32 ++ (data.map List.ofFn).getD [] ++
    (algo16.map List.ofFn).getD []

/-- `for (i = 0; i <= counter; i++)`, and what it leaves in `nonce32`. -/
def nonceLoop (hmac : HmacSha256) (counter : BitVec 32) :
    ℕ → BitVec 32 → Rfc6979HmacSha256 → (Fin 32 → Byte) → Option (Fin 32 → Byte)
  | 0, _, _, _ => none
  | fuel + 1, i, rng, nonce32 =>
    if i ≤ counter then
      let (rng, out) := rfc6979Generate sha256 hmac rng 32
      nonceLoop hmac counter fuel (i + 1) rng fun j => out.getD j 0
    else some nonce32

/-- The value returned and the nonce. -/
def nonceFunctionRfc6979 (fuel : ℕ) (hmac : HmacSha256) (nonce32 msg32 key32 : Fin 32 → Byte)
    (algo16 : Option (Fin 16 → Byte)) (data : Option (Fin 32 → Byte)) (counter : BitVec 32) :
    Option (CInt × (Fin 32 → Byte)) := do
  let rng := rfc6979Initialize sha256 hmac (nonceKeydata msg32 key32 algo16 data)
  let nonce32 ← nonceLoop sha256 hmac counter fuel 0 rng nonce32
  return (1, nonce32)

end

/-! ## What they compute -/

section

variable (sha256 : Sha256)

theorem hmacKey_eq (key : List Byte) : hmacKey sha256 key = Sha2.blockKey Sha2.sha256 key := by
  have h := sha256Finalize_eq (sha256Write_holds (sha256Initialize_holds sha256) key)
  rw [List.nil_append] at h
  rw [hmacKey, Sha2.blockKey, h]

/-- The inner context holds the padded key and the message, the outer one the padded key. -/
structure HmacSha256.Holds (hash : HmacSha256) (key msg : List Byte) : Prop where
  inner : Sha256.Holds hash.inner ((Sha2.blockKey Sha2.sha256 key).map (· ^^^ 0x36) ++ msg)
  outer : Sha256.Holds hash.outer ((Sha2.blockKey Sha2.sha256 key).map (· ^^^ 0x5c))

theorem hmacSha256Initialize_holds (hash : HmacSha256) (key : List Byte) :
    (hmacSha256Initialize sha256 hash key).Holds key [] := by
  have hmap : ((hmacKey sha256 key).map (· ^^^ 0x5c)).map (· ^^^ (0x5c ^^^ 0x36)) =
      (Sha2.blockKey Sha2.sha256 key).map (· ^^^ 0x36) := by
    rw [List.map_map, hmacKey_eq]
    refine List.map_congr_left fun b _ => ?_
    rw [Function.comp_apply, ← BitVec.xor_assoc, BitVec.xor_assoc b, BitVec.xor_self,
      BitVec.xor_zero]
  refine ⟨?_, ?_⟩
  · rw [List.append_nil, ← hmap]
    exact sha256Write_holds (sha256Initialize_holds hash.inner) _
  · rw [← hmacKey_eq sha256]
    exact sha256Write_holds (sha256Initialize_holds hash.outer) _

theorem hmacSha256Write_holds {hash : HmacSha256} {key msg : List Byte} (h : hash.Holds key msg)
    (data : List Byte) : (hmacSha256Write hash data).Holds key (msg ++ data) := by
  refine ⟨?_, h.outer⟩
  rw [← List.append_assoc]
  exact sha256Write_holds h.inner data

theorem foldl_hmacSha256Write_holds {hash : HmacSha256} {key msg : List Byte}
    (h : hash.Holds key msg) (chunks : List (List Byte)) :
    (chunks.foldl hmacSha256Write hash).Holds key (msg ++ chunks.flatten) := by
  induction chunks generalizing hash msg with
  | nil =>
    rw [List.flatten_nil, List.append_nil]
    exact h
  | cons data chunks ih =>
    rw [List.flatten_cons, ← List.append_assoc]
    exact ih (hmacSha256Write_holds h data)

theorem hmacSha256Finalize_eq {hash : HmacSha256} {key msg : List Byte} (h : hash.Holds key msg) :
    (hmacSha256Finalize hash).2 = Sha2.hmac Sha2.sha256 key msg := by
  have hin := sha256Finalize_eq h.inner
  have hout := sha256Finalize_eq
    (sha256Write_holds h.outer (List.ofFn (sha256Finalize hash.inner).2))
  rw [hin] at hout
  rw [Sha2.hmac, ← hout, ← hin]
  rfl

theorem hmacOf_eq (hmac : HmacSha256) (k : Fin 32 → Byte) (chunks : List (List Byte)) :
    (hmacOf sha256 hmac k chunks).2 = Sha2.hmac Sha2.sha256 (List.ofFn k) chunks.flatten :=
  hmacSha256Finalize_eq
    (foldl_hmacSha256Write_holds (hmacSha256Initialize_holds sha256 hmac _) chunks)

/-! ## The generator is the one of the standard -/

/-- The state without the flag. -/
def Rfc6979HmacSha256.drbg (rng : Rfc6979HmacSha256) : Sha2.Drbg := ⟨rng.v, rng.k⟩

theorem rfc6979Initialize_eq (hmac : HmacSha256) (key : List Byte) :
    (rfc6979Initialize sha256 hmac key).drbg = Sha2.Drbg.init (Sha2.hmac Sha2.sha256) key ∧
      (rfc6979Initialize sha256 hmac key).retry = 0 := by
  refine ⟨?_, rfl⟩
  simp only [rfc6979Initialize, Rfc6979HmacSha256.drbg, hmacOf_eq, Sha2.Drbg.init,
    Sha2.Drbg.update, List.flatten_cons, List.flatten_nil, List.append_nil, List.cons_append,
    List.nil_append]

/-- A request for 32 bytes is one turn of the loop. -/
theorem generateLoop_32 (hmac : HmacSha256) (k v : Fin 32 → Byte) :
    generateLoop sha256 hmac k 32 v 32 =
      (Sha2.hmac Sha2.sha256 (List.ofFn k) (List.ofFn v),
        List.ofFn (Sha2.hmac Sha2.sha256 (List.ofFn k) (List.ofFn v))) := by
  have hv := hmacOf_eq sha256 hmac k [List.ofFn v]
  rw [List.flatten_singleton] at hv
  have htake : ∀ u : Fin 32 → Byte, (List.ofFn u).take 32 = List.ofFn u := fun u =>
    List.take_of_length_le (List.length_ofFn.le)
  rw [generateLoop, if_pos (by norm_num), hv]
  simp only [Nat.lt_irrefl, if_false, gt_iff_lt, Nat.sub_self, htake]
  rw [generateLoop, if_neg (by norm_num), List.append_nil]

theorem rfc6979Generate_32 (hmac : HmacSha256) (rng : Rfc6979HmacSha256) :
    (rfc6979Generate sha256 hmac rng 32).1.drbg = Sha2.Drbg.next (Sha2.hmac Sha2.sha256)
        (if rng.retry = 0 then rng.drbg
          else Sha2.Drbg.update (Sha2.hmac Sha2.sha256) [0x00] rng.drbg) ∧
      (rfc6979Generate sha256 hmac rng 32).1.retry = 1 ∧
      (rfc6979Generate sha256 hmac rng 32).2 =
        List.ofFn (rfc6979Generate sha256 hmac rng 32).1.v := by
  unfold rfc6979Generate
  by_cases hretry : rng.retry = 0
  · simp only [hretry, ne_eq, not_true_eq_false, if_false, if_true, generateLoop_32]
    exact ⟨rfl, trivial, trivial⟩
  · simp only [hretry, ne_eq, not_false_eq_true, if_true, if_false, generateLoop_32, hmacOf_eq,
      List.flatten_cons, List.flatten_nil, List.append_nil]
    exact ⟨rfl, trivial, trivial⟩

theorem rfc6979Outputs_eq (hmac : HmacSha256) (key : List Byte) (i : ℕ) :
    (rfc6979Outputs sha256 hmac key i).1.drbg =
        Sha2.Drbg.nonceState (Sha2.hmac Sha2.sha256) key i ∧
      (rfc6979Outputs sha256 hmac key i).1.retry = 1 ∧
      (rfc6979Outputs sha256 hmac key i).2 =
        List.ofFn (Sha2.Drbg.nonce (Sha2.hmac Sha2.sha256) key i) := by
  have hout : ∀ {rng : Rfc6979HmacSha256} {out : List Byte} {d : Sha2.Drbg}, rng.drbg = d →
      out = List.ofFn rng.v → out = List.ofFn d.v := by
    rintro rng out d rfl rfl
    rfl
  induction i with
  | zero =>
    obtain ⟨hinit, hzero⟩ := rfc6979Initialize_eq sha256 hmac key
    obtain ⟨hstate, hone, hbytes⟩ :=
      rfc6979Generate_32 sha256 hmac (rfc6979Initialize sha256 hmac key)
    rw [if_pos hzero, hinit] at hstate
    exact ⟨hstate, hone, hout hstate hbytes⟩
  | succ i ih =>
    obtain ⟨hdrbg, hretry, -⟩ := ih
    obtain ⟨hstate, hone, hbytes⟩ :=
      rfc6979Generate_32 sha256 hmac (rfc6979Outputs sha256 hmac key i).1
    rw [if_neg (by rw [hretry]; decide), hdrbg] at hstate
    exact ⟨hstate, hone, hout hstate hbytes⟩

/-- Whatever the contexts held before, the outputs are those of the standard. -/
theorem rfc6979Draw_eq (hmac : HmacSha256) :
    rfc6979Draw sha256 hmac = Sha2.Drbg.nonce (Sha2.hmac Sha2.sha256) := by
  funext key i j
  obtain ⟨-, -, hbytes⟩ := rfc6979Outputs_eq sha256 hmac key i
  rw [rfc6979Draw, hbytes, List.getD_eq_getElem _ _ (by rw [List.length_ofFn]; exact j.isLt),
    List.getElem_ofFn]

/-- However the message is cut into pieces, for keys of any length, the contexts of HMAC-SHA-256
return the keyed hash of the message. -/
theorem hmacSha256_streaming (hash : HmacSha256) (key : List Byte) (chunks : List (List Byte)) :
    (hmacSha256Finalize (chunks.foldl hmacSha256Write (hmacSha256Initialize sha256 hash key))).2 =
      Sha2.hmac Sha2.sha256 key chunks.flatten :=
  hmacSha256Finalize_eq
    (foldl_hmacSha256Write_holds (hmacSha256Initialize_holds sha256 hash key) chunks)

end

/-! ## The nonce function -/

section

variable (sha256 : Sha256) (hmac : HmacSha256)

theorem nonceLoop_turn {counter i : BitVec 32} (h : i ≤ counter) (fuel : ℕ)
    (rng : Rfc6979HmacSha256) (nonce32 : Fin 32 → Byte) :
    nonceLoop sha256 hmac counter (fuel + 1) i rng nonce32 =
      nonceLoop sha256 hmac counter fuel (i + 1) (rfc6979Generate sha256 hmac rng 32).1 fun j =>
        (rfc6979Generate sha256 hmac rng 32).2.getD j 0 := if_pos h

/-- After output `j` the loop goes on to output `counter`. -/
theorem nonceLoop_draw (key : List Byte) {counter : BitVec 32} (hc : counter ≠ 0xFFFFFFFF)
    {k j fuel : ℕ} (hj : j + k = counter.toNat) (hfuel : k < fuel) :
    nonceLoop sha256 hmac counter fuel (BitVec.ofNat 32 (j + 1))
      (rfc6979Outputs sha256 hmac key j).1 (rfc6979Draw sha256 hmac key j) =
        some (rfc6979Draw sha256 hmac key counter.toNat) := by
  have hlast : counter.toNat < 2 ^ 32 - 1 := by
    have hne : counter.toNat ≠ 2 ^ 32 - 1 := fun h => hc (BitVec.eq_of_toNat_eq h)
    have := counter.isLt
    omega
  have hi : ∀ {m : ℕ}, m < 2 ^ 32 → (BitVec.ofNat 32 m ≤ counter ↔ m ≤ counter.toNat) :=
    fun hm => by rw [BitVec.le_def, BitVec.toNat_ofNat, Nat.mod_eq_of_lt hm]
  induction k generalizing j fuel with
  | zero =>
    obtain ⟨fuel, rfl⟩ := Nat.exists_eq_add_of_lt hfuel
    rw [nonceLoop, if_neg (by rw [hi (by omega)]; omega), ← hj, Nat.add_zero]
  | succ k ih =>
    obtain ⟨fuel, rfl⟩ : ∃ f, fuel = f + 1 := ⟨fuel - 1, by omega⟩
    have hnext : BitVec.ofNat 32 (j + 1) + 1 = BitVec.ofNat 32 (j + 1 + 1) :=
      (BitVec.ofNat_add (j + 1) 1).symm
    rw [nonceLoop_turn sha256 hmac (by rw [hi (by omega)]; omega), hnext]
    exact ih (j := j + 1) (by omega) (by omega)

/-- At the last counter of 32 bits the loop does not end. -/
theorem nonceLoop_last (fuel : ℕ) (i : BitVec 32) (rng : Rfc6979HmacSha256)
    (nonce32 : Fin 32 → Byte) :
    nonceLoop sha256 hmac 0xFFFFFFFF fuel i rng nonce32 = none := by
  induction fuel generalizing i rng nonce32 with
  | zero => rfl
  | succ fuel ih =>
    have hle : i ≤ 0xFFFFFFFF := by
      rw [BitVec.le_def]
      exact Nat.le_of_lt_succ i.isLt
    rw [nonceLoop_turn sha256 hmac hle]
    exact ih _ _ _

theorem nonceFunctionRfc6979_draw (nonce32 msg32 key32 : Fin 32 → Byte)
    (algo16 : Option (Fin 16 → Byte)) (data : Option (Fin 32 → Byte)) {counter : BitVec 32}
    (hc : counter ≠ 0xFFFFFFFF) {fuel : ℕ} (hfuel : counter.toNat + 1 < fuel) :
    nonceFunctionRfc6979 sha256 fuel hmac nonce32 msg32 key32 algo16 data counter =
      some (1, rfc6979Draw sha256 hmac (nonceKeydata msg32 key32 algo16 data) counter.toNat) := by
  obtain ⟨fuel, rfl⟩ : ∃ f, fuel = f + 1 := ⟨fuel - 1, by omega⟩
  have hzero : (0 : BitVec 32) ≤ counter := Nat.zero_le _
  have hloop := nonceLoop_draw sha256 hmac (nonceKeydata msg32 key32 algo16 data) hc
    (Nat.zero_add counter.toNat) (show counter.toNat < fuel by omega)
  unfold nonceFunctionRfc6979
  change (nonceLoop sha256 hmac counter (fuel + 1) 0 _ nonce32 >>= _) = _
  rw [nonceLoop_turn sha256 hmac hzero]
  change (nonceLoop sha256 hmac counter fuel (BitVec.ofNat 32 (0 + 1))
    (rfc6979Outputs sha256 hmac _ 0).1 (rfc6979Draw sha256 hmac _ 0) >>= _) = _
  rw [hloop]
  rfl

end

section

variable {msg32 key32 msg32' key32' : Fin 32 → Byte} {algo16 algo16' : Option (Fin 16 → Byte)}
  {data data' : Option (Fin 32 → Byte)}

theorem length_optionBytes {m : ℕ} (o : Option (Fin m → Byte)) :
    ((o.map List.ofFn).getD []).length = if o.isSome then m else 0 := by
  cases o with
  | none => rfl
  | some b => exact List.length_ofFn

theorem optionBytes_inj {m : ℕ} {o o' : Option (Fin m → Byte)} (hs : o.isSome = o'.isSome)
    (h : (o.map List.ofFn).getD [] = (o'.map List.ofFn).getD []) : o = o' := by
  cases o with
  | none => cases o' with
    | none => rfl
    | some b => cases hs
  | some b => cases o' with
    | none => cases hs
    | some b' => exact congrArg some (List.ofFn_injective h)

/-- The parts have lengths that tell which are there. -/
theorem nonceKeydata_inj
    (heq : nonceKeydata msg32 key32 algo16 data = nonceKeydata msg32' key32' algo16' data') :
    key32 = key32' ∧ msg32 = msg32' ∧ data = data' ∧ algo16 = algo16' := by
  have hlen := congrArg List.length heq
  simp only [nonceKeydata, List.length_append, List.length_ofFn, length_optionBytes] at hlen
  have hsome : data.isSome = data'.isSome ∧ algo16.isSome = algo16'.isSome := by
    cases data <;> cases data' <;> cases algo16 <;> cases algo16' <;> simp_all
  simp only [nonceKeydata] at heq
  obtain ⟨hfront, halgo⟩ := List.append_inj' heq (by
    rw [length_optionBytes, length_optionBytes, hsome.2])
  obtain ⟨hfront, hdata⟩ := List.append_inj' hfront (by
    rw [length_optionBytes, length_optionBytes, hsome.1])
  obtain ⟨hkey, hmsg⟩ := List.append_inj hfront (by rw [List.length_ofFn, List.length_ofFn])
  exact ⟨List.ofFn_injective hkey, List.ofFn_injective hmsg, optionBytes_inj hsome.1 hdata,
    optionBytes_inj hsome.2 halgo⟩

end

/-- The default nonce function returns, for every counter `c` but the last of 32 bits, 1 and output
`c` of the generator of the standard, seeded with key and message and whichever of the other two
there are; for the last counter its loop does not end. Different arguments give different seeds. -/
theorem nonceFunctionRfc6979_spec (sha256 : Sha256) (hmac : HmacSha256)
    (nonce32 msg32 key32 : Fin 32 → Byte) (algo16 : Option (Fin 16 → Byte))
    (data : Option (Fin 32 → Byte)) :
    (∀ counter fuel, counter ≠ 0xFFFFFFFF → counter.toNat + 1 < fuel →
      nonceFunctionRfc6979 sha256 fuel hmac nonce32 msg32 key32 algo16 data counter =
        some (1, Sha2.Drbg.nonce (Sha2.hmac Sha2.sha256) (nonceKeydata msg32 key32 algo16 data)
          counter.toNat)) ∧
    (∀ fuel,
      nonceFunctionRfc6979 sha256 fuel hmac nonce32 msg32 key32 algo16 data 0xFFFFFFFF = none) ∧
    ∀ msg32' key32' algo16' data',
      nonceKeydata msg32 key32 algo16 data = nonceKeydata msg32' key32' algo16' data' ↔
        key32 = key32' ∧ msg32 = msg32' ∧ data = data' ∧ algo16 = algo16' := by
  refine ⟨fun counter fuel hc hfuel => ?_, fun fuel => ?_,
    fun msg32' key32' algo16' data' => ⟨nonceKeydata_inj, ?_⟩⟩
  · rw [← rfc6979Draw_eq sha256 hmac]
    exact nonceFunctionRfc6979_draw sha256 hmac nonce32 msg32 key32 algo16 data hc hfuel
  · unfold nonceFunctionRfc6979
    simp only [nonceLoop_last]
    rfl
  · rintro ⟨rfl, rfl, rfl, rfl⟩
    rfl

/-- The second output, for a request without data and with the name of an algorithm, and its seed,
which is not the one without a name. -/
theorem nonceFunctionRfc6979_spec_demo :
    nonceFunctionRfc6979 ⟨.replicate 8 0, .replicate 64 0, 0⟩ 3
        ⟨⟨.replicate 8 0, .replicate 64 0, 0⟩, ⟨.replicate 8 0, .replicate 64 0, 0⟩⟩ (fun _ => 0)
        (fun _ => 0) (fun _ => 1) (some fun _ => 2) none 1 =
      some (1, Sha2.Drbg.nonce (Sha2.hmac Sha2.sha256)
        (nonceKeydata (fun _ => 0) (fun _ => 1) (some fun _ => 2) none) 1) ∧
    nonceKeydata (fun _ => 0) (fun _ => 1) (some fun _ => 2) none ≠
      nonceKeydata (fun _ => 0) (fun _ => 1) none none := by
  obtain ⟨hout, -, hseed⟩ := nonceFunctionRfc6979_spec ⟨.replicate 8 0, .replicate 64 0, 0⟩
    ⟨⟨.replicate 8 0, .replicate 64 0, 0⟩, ⟨.replicate 8 0, .replicate 64 0, 0⟩⟩ (fun _ => 0)
    (fun _ => 0) (fun _ => 1) (some fun _ => 2) none
  refine ⟨hout 1 3 (by decide) (by decide), fun h => ?_⟩
  obtain ⟨-, -, -, halgo⟩ := (hseed _ _ none none).mp h
  cases halgo

end Secp256k1
