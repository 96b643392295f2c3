import Secp256k1.Lib.Sha2

/-!
# SHA-256

`hash_impl.h`. The 64 lines of `secp256k1_sha256_transform` differ in the constant, in the word and
in the order of the registers: at line `t` parameter `j` of the macro `Round` is the register
`j - t` modulo 8, and from line 16 on the word `t` modulo 16 is replaced before it is used. A
context that is written to in any number of pieces holds the message they make up, and
`secp256k1_sha256_finalize` returns its hash.
-/

namespace Secp256k1

/-- `secp256k1_sha256_t`, the buffer by its bytes; `size_t` has 64 bits. -/
structure Sha256 where
  s : Vector (BitVec 32) 8
  buf : Vector Byte 64
  bytes : BitVec 64

namespace Sha256

def ch (x y z : BitVec 32) : BitVec 32 := z ^^^ (x &&& (y ^^^ z))

def maj (x y z : BitVec 32) : BitVec 32 := (x &&& y) ||| (z &&& (x ||| y))

def bigSigma0 (x : BitVec 32) : BitVec 32 :=
  (x >>> 2 ||| x <<< 30) ^^^ (x >>> 13 ||| x <<< 19) ^^^ (x >>> 22 ||| x <<< 10)

def bigSigma1 (x : BitVec 32) : BitVec 32 :=
  (x >>> 6 ||| x <<< 26) ^^^ (x >>> 11 ||| x <<< 21) ^^^ (x >>> 25 ||| x <<< 7)

def smallSigma0 (x : BitVec 32) : BitVec 32 :=
  (x >>> 7 ||| x <<< 25) ^^^ (x >>> 18 ||| x <<< 14) ^^^ x >>> 3

def smallSigma1 (x : BitVec 32) : BitVec 32 :=
  (x >>> 17 ||| x <<< 15) ^^^ (x >>> 19 ||| x <<< 13) ^^^ x >>> 10

/-- The macro `BE32` of a little-endian machine. -/
def be32 (p : BitVec 32) : BitVec 32 :=
  (p &&& 0xFF) <<< 24 ||| (p &&& 0xFF00) <<< 8 ||| (p &&& 0xFF0000) >>> 8 |||
    (p &&& 0xFF000000) >>> 24

/-- Word `i` of the buffer, as such a machine loads it. -/
def load32 (buf : Vector Byte 64) (i : ℕ) : BitVec 32 :=
  buf.get (Fin.ofNat 64 (4 * i + 3)) ++ buf.get (Fin.ofNat 64 (4 * i + 2)) ++
    buf.get (Fin.ofNat 64 (4 * i + 1)) ++ buf.get (Fin.ofNat 64 (4 * i))

def initialState : Vector (BitVec 32) 8 :=
  #v[0x6a09e667, 0xbb67ae85, 0x3c6ef372, 0xa54ff53a, 0x510e527f, 0x9b05688c, 0x1f83d9ab, 0x5be0cd19]

def sha256Initialize (hash : Sha256) : Sha256 where
  s := initialState
  buf := hash.buf
  bytes := 0

/-! ## The transformation -/

def constants : List (BitVec 32) := [
  0x428a2f98, 0x71374491, 0xb5c0fbcf, 0xe9b5dba5, 0x3956c25b, 0x59f111f1, 0x923f82a4, 0xab1c5ed5,
  0xd807aa98, 0x12835b01, 0x243185be, 0x550c7dc3, 0x72be5d74, 0x80deb1fe, 0x9bdc06a7, 0xc19bf174,
  0xe49b69c1, 0xefbe4786, 0x0fc19dc6, 0x240ca1cc, 0x2de92c6f, 0x4a7484aa, 0x5cb0a9dc, 0x76f988da,
  0x983e5152, 0xa831c66d, 0xb00327c8, 0xbf597fc7, 0xc6e00bf3, 0xd5a79147, 0x06ca6351, 0x14292967,
  0x27b70a85, 0x2e1b2138, 0x4d2c6dfc, 0x53380d13, 0x650a7354, 0x766a0abb, 0x81c2c92e, 0x92722c85,
  0xa2bfe8a1, 0xa81a664b, 0xc24b8b70, 0xc76c51a3, 0xd192e819, 0xd6990624, 0xf40e3585, 0x106aa070,
  0x19a4c116, 0x1e376c08, 0x2748774c, 0x34b0bcb5, 0x391c0cb3, 0x4ed8aa4a, 0x5b9cca4f, 0x682e6ff3,
  0x748f82ee, 0x78a5636f, 0x84c87814, 0x8cc70208, 0x90befffa, 0xa4506ceb, 0xbef9a3f7, 0xc67178f2]

/-- `Round` at line `t`, on the registers `a` to `h`. -/
def round (t : ℕ) (k w : BitVec 32) (r : Vector (BitVec 32) 8) : Vector (BitVec 32) 8 :=
  let x (j : ℕ) := r.get (Fin.ofNat 8 (j + 7 * t))
  let t1 := x 7 + bigSigma1 (x 4) + ch (x 4) (x 5) (x 6) + k + w
  let t2 := bigSigma0 (x 0) + maj (x 0) (x 1) (x 2)
  Vector.ofFn fun j =>
    if j = Fin.ofNat 8 (7 + 7 * t) then t1 + t2
    else if j = Fin.ofNat 8 (3 + 7 * t) then x 3 + t1
    else r.get j

/-- The word of line `t`: one of the chunk, or the sum that replaces `w0` to `w15` in turn. The last
two lines add without storing, which no later line sees. -/
def scheduled (chunk : ℕ → BitVec 32) (w : Vector (BitVec 32) 16) (t : ℕ) : BitVec 32 :=
  if t < 16 then be32 (chunk t)
  else w.get (Fin.ofNat 16 t) + (smallSigma1 (w.get (Fin.ofNat 16 (t + 14))) +
    w.get (Fin.ofNat 16 (t + 9)) + smallSigma0 (w.get (Fin.ofNat 16 (t + 1))))

/-- The first `t` lines: the registers and the words. -/
def lines (s : Vector (BitVec 32) 8) (chunk : ℕ → BitVec 32) :
    ℕ → Vector (BitVec 32) 8 × Vector (BitVec 32) 16
  | 0 => (s, Vector.replicate 16 0)
  | t + 1 =>
    let (r, w) := lines s chunk t
    let v := scheduled chunk w t
    (round t (constants.getD t 0) v r,
      Vector.ofFn fun i => if i = Fin.ofNat 16 t then v else w.get i)

def sha256Transform (s : Vector (BitVec 32) 8) (chunk : ℕ → BitVec 32) : Vector (BitVec 32) 8 :=
  let r := (lines s chunk 64).1
  Vector.ofFn fun j => s.get j + r.get j

/-! ## Writing -/

/-- `memcpy(buf + off, data, len)`. -/
def copy (buf : Vector Byte 64) (off : ℕ) (data : List Byte) (len : ℕ) : Vector Byte 64 :=
  Vector.ofFn fun i => if off ≤ i.val ∧ i.val < off + len then data.getD (i - off) 0 else buf.get i

/-- The loop and what follows it; each turn consumes at least one byte, so that a bound by the
length of the data is never reached. -/
def writeLoop : ℕ → Vector (BitVec 32) 8 → Vector Byte 64 → ℕ → List Byte →
    Vector (BitVec 32) 8 × Vector Byte 64
  | 0, s, buf, _, _ => (s, buf)
  | fuel + 1, s, buf, bufsize, data =>
    if 64 ≤ bufsize + data.length then
      let buf := copy buf bufsize data (64 - bufsize)
      writeLoop fuel (sha256Transform s (load32 buf)) buf 0 (data.drop (64 - bufsize))
    else (s, copy buf bufsize data data.length)

def sha256Write (hash : Sha256) (data : List Byte) : Sha256 :=
  let (s, buf) := writeLoop (data.length + 1) hash.s hash.buf (hash.bytes &&& 0x3F).toNat data
  ⟨s, buf, hash.bytes + BitVec.ofNat 64 data.length⟩

/-- Four bytes of a word, as a little-endian machine stores it. -/
def store32 (v : BitVec 32) : List Byte :=
  [v.setWidth 8, (v >>> 8).setWidth 8, (v >>> 16).setWidth 8, (v >>> 24).setWidth 8]

/-- The hash, and the context as it is left. -/
def sha256Finalize (hash : Sha256) : Sha256 × (Fin 32 → Byte) :=
  let sizedesc := store32 (be32 ((hash.bytes >>> 29).setWidth 32)) ++
    store32 (be32 ((hash.bytes <<< 3).setWidth 32))
  let hash := sha256Write hash ((0x80 :: List.replicate 63 0).take
    (1 + (119 - (hash.bytes % 64).toNat) % 64))
  let hash := sha256Write hash sizedesc
  ({ hash with s := Vector.replicate 8 0 },
    fun i => (store32 (be32 (hash.s.get (Fin.ofNat 8 (i / 4))))).getD (i % 4) 0)

/-! ## The functions of words -/

theorem ch_eq (x y z : BitVec 32) : ch x y z = Sha2.ch x y z := by
  ext i hi
  simp only [ch, Sha2.ch, BitVec.getElem_xor, BitVec.getElem_and, BitVec.getElem_not]
  cases x[i] <;> cases y[i] <;> cases z[i] <;> rfl

theorem maj_eq (x y z : BitVec 32) : maj x y z = Sha2.maj x y z := by
  ext i hi
  simp only [maj, Sha2.maj, BitVec.getElem_xor, BitVec.getElem_and, BitVec.getElem_or]
  cases x[i] <;> cases y[i] <;> cases z[i] <;> rfl

theorem bigSigma0_eq (x : BitVec 32) : bigSigma0 x = Sha2.bigSigma0 x := by
  simp only [bigSigma0, Sha2.bigSigma0, BitVec.rotateRight_def, Nat.reduceMod, Nat.reduceSub]

theorem bigSigma1_eq (x : BitVec 32) : bigSigma1 x = Sha2.bigSigma1 x := by
  simp only [bigSigma1, Sha2.bigSigma1, BitVec.rotateRight_def, Nat.reduceMod, Nat.reduceSub]

theorem smallSigma0_eq (x : BitVec 32) : smallSigma0 x = Sha2.smallSigma0 x := by
  simp only [smallSigma0, Sha2.smallSigma0, BitVec.rotateRight_def, Nat.reduceMod, Nat.reduceSub]

theorem smallSigma1_eq (x : BitVec 32) : smallSigma1 x = Sha2.smallSigma1 x := by
  simp only [smallSigma1, Sha2.smallSigma1, BitVec.rotateRight_def, Nat.reduceMod, Nat.reduceSub]

theorem be32_append (a b c d : Byte) :
    be32 (d ++ c ++ b ++ a) = (a ++ b ++ c ++ d : BitVec 32) := by
  apply BitVec.eq_of_getLsbD_eq
  intro i hi
  interval_cases i <;>
    simp only [be32, BitVec.getLsbD_or, BitVec.getLsbD_and, BitVec.getLsbD_shiftLeft,
      BitVec.getLsbD_ushiftRight, BitVec.getLsbD_append] <;> simp

theorem load32_word {buf : Vector Byte 64} {b : ℕ → Byte}
    (h : ∀ i < 64, buf.get (Fin.ofNat 64 i) = b i) {i : ℕ} (hi : i < 16) :
    be32 (load32 buf i) = Sha2.word b i := by
  rw [load32, be32_append, h _ (by omega), h _ (by omega), h _ (by omega), h _ (by omega)]
  rfl

/-- The constants are roots of the first primes. -/
theorem constants_eq : (∀ t < 64, constants.getD t 0 = Sha2.roundConstant t) ∧
    ∀ j, initialState.get j = Sha2.initialValue j := by
  decide +kernel

/-! ## The lines of the transformation -/

theorem ofNat_eq_iff {k a b : ℕ} [NeZero k] : Fin.ofNat k a = Fin.ofNat k b ↔ a % k = b % k := by
  rw [Fin.ext_iff, Fin.val_ofNat, Fin.val_ofNat]

theorem get_ofFn {α : Type} {k : ℕ} (f : Fin k → α) (i : Fin k) : (Vector.ofFn f).get i = f i := by
  rw [Vector.get_eq_getElem, Vector.getElem_ofFn]

variable {m chunk : ℕ → BitVec 32}

/-- The registers at line `t` are the working variables, `t` places on. -/
theorem round_step {t : ℕ} {r : Vector (BitVec 32) 8} {R : Fin 8 → BitVec 32}
    (hr : ∀ j : Fin 8, r.get (Fin.ofNat 8 (j + 7 * t)) = R j) (k w : BitVec 32) (j : Fin 8) :
    (round t k w r).get (Fin.ofNat 8 (j + 7 * (t + 1))) = Sha2.step k w R j := by
  have h0 := hr 0
  have h1 := hr 1
  have h2 := hr 2
  have h3 := hr 3
  have h4 := hr 4
  have h5 := hr 5
  have h6 := hr 6
  have h7 := hr 7
  simp only [Fin.isValue, Fin.coe_ofNat_eq_mod, Nat.reduceMod] at h0 h1 h2 h3 h4 h5 h6 h7
  simp only [round, Sha2.step, get_ofFn, ch_eq, maj_eq, bigSigma0_eq, bigSigma1_eq, ofNat_eq_iff,
    h0, h1, h2, h3, h4, h5, h6, h7]
  by_cases hj0 : j = 0
  · rw [hj0, if_pos rfl, if_pos (by simp; omega)]
  have hpos : 0 < j.val := Nat.pos_of_ne_zero fun h => hj0 (Fin.ext h)
  rw [if_neg hj0, if_neg (by omega)]
  by_cases hj4 : j = 4
  · rw [hj4, if_pos rfl, if_pos (by simp; omega)]
  have hne : j.val ≠ 4 := fun h => hj4 (Fin.ext h)
  rw [if_neg hj4, if_neg (by omega), ← hr]
  have hsub : (j - 1).val = j.val - 1 := Fin.sub_val_of_le (show (1 : Fin 8) ≤ j from hpos)
  congr 1
  rw [ofNat_eq_iff, hsub]
  omega

/-- The first `t` lines: the registers are the working variables, and the words are the last sixteen
of the schedule. -/
theorem lines_spec (s : Vector (BitVec 32) 8) (hm : ∀ i < 16, be32 (chunk i) = m i) {t : ℕ}
    (ht : t ≤ 64) :
    (∀ j : Fin 8, (lines s chunk t).1.get (Fin.ofNat 8 (j + 7 * t)) = Sha2.rounds m s.get t j) ∧
      ∀ i < t, t ≤ i + 16 → (lines s chunk t).2.get (Fin.ofNat 16 i) = Sha2.schedule m i := by
  induction t with
  | zero =>
    refine ⟨fun j => ?_, fun i hi => absurd hi (Nat.not_lt_zero i)⟩
    rw [Nat.mul_zero, Nat.add_zero, Fin.ofNat_val_eq_self]
    rfl
  | succ t ih =>
    obtain ⟨hr, hw⟩ := ih (by omega)
    have hsched : scheduled chunk (lines s chunk t).2 t = Sha2.schedule m t := by
      unfold scheduled
      split
      case isTrue hlt => rw [Sha2.schedule_lt hlt, hm t hlt]
      case isFalse hge =>
        have hindex : ∀ {a i : ℕ}, a % 16 = i % 16 → i < t → t ≤ i + 16 →
            (lines s chunk t).2.get (Fin.ofNat 16 a) = Sha2.schedule m i := fun ha hi hle =>
          (congrArg _ (ofNat_eq_iff.mpr ha)).trans (hw _ hi hle)
        rw [Sha2.schedule_ge (by omega), hindex (i := t - 16) (by omega) (by omega) (by omega),
          hindex (i := t - 2) (by omega) (by omega) (by omega),
          hindex (i := t - 7) (by omega) (by omega) (by omega),
          hindex (i := t - 15) (by omega) (by omega) (by omega), smallSigma0_eq, smallSigma1_eq,
          BitVec.add_comm]
    refine ⟨fun j => ?_, fun i hi hle => ?_⟩
    · have hstep := round_step hr (constants.getD t 0) (scheduled chunk (lines s chunk t).2 t) j
      rw [hsched, constants_eq.1 t (by omega)] at hstep
      rw [Sha2.rounds, ← hstep, ← constants_eq.1 t (by omega), ← hsched]
      rfl
    · have hget : (lines s chunk (t + 1)).2.get (Fin.ofNat 16 i) =
          if Fin.ofNat 16 i = Fin.ofNat 16 t then scheduled chunk (lines s chunk t).2 t
          else (lines s chunk t).2.get (Fin.ofNat 16 i) := get_ofFn _ _
      rw [hget]
      split
      case isTrue heq =>
        rw [ofNat_eq_iff] at heq
        rw [hsched, show i = t by omega]
      case isFalse hne =>
        rw [ofNat_eq_iff] at hne
        exact hw i (by omega) (by omega)

theorem sha256Transform_eq (s : Vector (BitVec 32) 8) {buf : Vector Byte 64} {b : ℕ → Byte}
    (h : ∀ i < 64, buf.get (Fin.ofNat 64 i) = b i) :
    (sha256Transform s (load32 buf)).get = Sha2.compress s.get b := by
  funext j
  have hlines := (lines_spec s (fun i hi => load32_word h hi) le_rfl).1 j
  have hindex : Fin.ofNat 8 (j.val + 7 * 64) = j := by
    rw [Fin.ext_iff, Fin.val_ofNat]
    omega
  rw [hindex] at hlines
  rw [sha256Transform, get_ofFn, Sha2.compress, hlines]

/-! ## Messages in pieces -/

/-- The chaining value is that of the whole blocks of a message, and the buffer starts with the
bytes after them. -/
structure Absorbed (s : Vector (BitVec 32) 8) (buf : Vector Byte 64) (msg : List Byte) : Prop where
  chain : s.get = Sha2.Chain Sha2.compress Sha2.initialValue msg (msg.length / 64)
  rest : ∀ i < msg.length % 64,
    buf.get (Fin.ofNat 64 i) = msg.getD (64 * (msg.length / 64) + i) 0

/-- The context holds a message. -/
structure Holds (hash : Sha256) (msg : List Byte) : Prop where
  absorbed : Absorbed hash.s hash.buf msg
  bytes : hash.bytes = BitVec.ofNat 64 msg.length

theorem copy_get (buf : Vector Byte 64) (off : ℕ) (data : List Byte) (len : ℕ) {i : ℕ}
    (hi : i < 64) :
    (copy buf off data len).get (Fin.ofNat 64 i) =
      if off ≤ i ∧ i < off + len then data.getD (i - off) 0 else buf.get (Fin.ofNat 64 i) := by
  rw [copy, get_ofFn, Fin.val_ofNat, Nat.mod_eq_of_lt hi]

theorem sha256Initialize_holds (hash : Sha256) : Holds (sha256Initialize hash) [] where
  absorbed := ⟨funext constants_eq.2, fun i hi => absurd hi (Nat.not_lt_zero i)⟩
  bytes := rfl

variable {s : Vector (BitVec 32) 8} {buf : Vector Byte 64} {msg : List Byte}

/-- The bytes of the last block, when the data starts in it. -/
theorem Absorbed.copy (h : Absorbed s buf msg) (data : List Byte) {len i : ℕ} (hi : i < 64)
    (hend : i < msg.length % 64 + len) :
    (copy buf (msg.length % 64) data len).get (Fin.ofNat 64 i) =
      (msg ++ data).getD (64 * (msg.length / 64) + i) 0 := by
  rw [copy_get _ _ _ _ hi]
  split
  case isTrue hin =>
    rw [List.getD_append_right _ _ _ _ (by omega)]
    congr 1
    omega
  case isFalse hout =>
    rw [h.rest i (by omega), List.getD_append _ _ _ _ (by omega)]

theorem writeLoop_absorbed {fuel : ℕ} {data : List Byte} (hfuel : data.length < fuel)
    (h : Absorbed s buf msg) :
    Absorbed (writeLoop fuel s buf (msg.length % 64) data).1
      (writeLoop fuel s buf (msg.length % 64) data).2 (msg ++ data) := by
  induction fuel generalizing s buf msg data with
  | zero => exact absurd hfuel (Nat.not_lt_zero _)
  | succ fuel ih =>
    rw [writeLoop]
    split
    case isTrue hfull =>
      -- the data completes a block, which is compressed before the loop goes on
      have hlen :
          (msg ++ data.take (64 - msg.length % 64)).length = 64 * (msg.length / 64 + 1) := by
        rw [List.length_append, List.length_take]
        omega
      have hblock : ∀ i < 64,
          (Sha256.copy buf (msg.length % 64) data (64 - msg.length % 64)).get (Fin.ofNat 64 i) =
            Sha2.block (msg ++ data.take (64 - msg.length % 64)) (msg.length / 64) i := by
        intro i hi
        rw [h.copy data hi (by omega), Sha2.block]
        conv_lhs => rw [← List.take_append_drop (64 - msg.length % 64) data, ← List.append_assoc]
        exact List.getD_append _ _ _ _ (by omega)
      have hnext : Absorbed (sha256Transform s (load32
            (Sha256.copy buf (msg.length % 64) data (64 - msg.length % 64))))
          (Sha256.copy buf (msg.length % 64) data (64 - msg.length % 64))
          (msg ++ data.take (64 - msg.length % 64)) := by
        refine ⟨?_, fun i hi => absurd hi (by rw [hlen]; omega)⟩
        rw [sha256Transform_eq s hblock, h.chain, hlen, Nat.mul_div_cancel_left _ (by norm_num),
          Sha2.Chain, Sha2.Chain.append Sha2.compress_congr _ (by omega)]
      have hdrop : (data.drop (64 - msg.length % 64)).length < fuel := by
        rw [List.length_drop]
        omega
      have hrec := ih hdrop hnext
      rw [hlen, Nat.mul_mod_right, List.append_assoc, List.take_append_drop] at hrec
      exact hrec
    case isFalse hshort =>
      have hdiv : (msg ++ data).length / 64 = msg.length / 64 := by
        rw [List.length_append]
        omega
      refine ⟨?_, fun i hi => ?_⟩
      · rw [hdiv, Sha2.Chain.append Sha2.compress_congr _ (by omega)]
        exact h.chain
      · rw [List.length_append] at hi
        rw [hdiv]
        exact h.copy data (by omega) (by omega)

theorem sha256Write_holds {hash : Sha256} (h : Holds hash msg) (data : List Byte) :
    Holds (sha256Write hash data) (msg ++ data) := by
  have hsize : (hash.bytes &&& 0x3F).toNat = msg.length % 64 := by
    rw [Word.toNat_and_mask 6 rfl (by decide), h.bytes, BitVec.toNat_ofNat]
    omega
  have habs := writeLoop_absorbed (Nat.lt_succ_self data.length) h.absorbed
  rw [← hsize] at habs
  refine ⟨habs, ?_⟩
  rw [sha256Write, h.bytes, List.length_append, BitVec.ofNat_add]

/-- Any number of writes. -/
theorem foldl_sha256Write_holds {hash : Sha256} (h : Holds hash msg) (chunks : List (List Byte)) :
    Holds (chunks.foldl sha256Write hash) (msg ++ chunks.flatten) := by
  induction chunks generalizing hash msg with
  | nil =>
    rw [List.flatten_nil, List.append_nil]
    exact h
  | cons data chunks ih =>
    rw [List.flatten_cons, ← List.append_assoc]
    exact ih (sha256Write_holds h data)

/-! ## The hash -/

theorem store32_be32 (v : BitVec 32) : store32 (be32 v) =
    [(v >>> 24).setWidth 8, (v >>> 16).setWidth 8, (v >>> 8).setWidth 8, v.setWidth 8] := by
  simp only [store32, List.cons.injEq, and_true]
  refine ⟨?_, ?_, ?_, ?_⟩ <;>
  · apply BitVec.eq_of_getLsbD_eq
    intro i hi
    interval_cases i <;>
      simp only [be32, BitVec.getLsbD_or, BitVec.getLsbD_and, BitVec.getLsbD_shiftLeft,
        BitVec.getLsbD_ushiftRight, BitVec.getLsbD_setWidth] <;> simp

theorem store32_digest (h : Fin 8 → BitVec 32) (i : Fin 32) :
    (store32 (be32 (h (Fin.ofNat 8 (i / 4))))).getD (i % 4) 0 = Sha2.digest h i := by
  rw [store32_be32, Sha2.digest]
  have hlt : i.val % 4 < 4 := Nat.mod_lt _ (by norm_num)
  generalize i.val % 4 = k at hlt
  interval_cases k <;> rfl

/-- The two words of the size are the number of bits in eight bytes. -/
theorem sizedesc_eq (len : ℕ) :
    store32 (be32 ((BitVec.ofNat 64 len >>> 29).setWidth 32)) ++
      store32 (be32 ((BitVec.ofNat 64 len <<< 3).setWidth 32)) = Sha2.length64 (8 * len) := by
  have hhigh : ((BitVec.ofNat 64 len >>> 29).setWidth 32).toNat = 8 * len / 2 ^ 32 % 2 ^ 32 := by
    rw [BitVec.toNat_setWidth, BitVec.toNat_ushiftRight, BitVec.toNat_ofNat,
      Nat.shiftRight_eq_div_pow]
    omega
  have hlow : ((BitVec.ofNat 64 len <<< 3).setWidth 32).toNat = 8 * len % 2 ^ 32 := by
    rw [BitVec.toNat_setWidth, BitVec.toNat_shiftLeft, BitVec.toNat_ofNat, Nat.shiftLeft_eq]
    omega
  rw [store32_be32, store32_be32]
  generalize (BitVec.ofNat 64 len >>> 29).setWidth 32 = high at hhigh ⊢
  generalize (BitVec.ofNat 64 len <<< 3).setWidth 32 = low at hlow ⊢
  have hbytes : Sha2.length64 (8 * len) = [BitVec.ofNat 8 (8 * len / 256 ^ 7),
      BitVec.ofNat 8 (8 * len / 256 ^ 6), BitVec.ofNat 8 (8 * len / 256 ^ 5),
      BitVec.ofNat 8 (8 * len / 256 ^ 4), BitVec.ofNat 8 (8 * len / 256 ^ 3),
      BitVec.ofNat 8 (8 * len / 256 ^ 2), BitVec.ofNat 8 (8 * len / 256 ^ 1),
      BitVec.ofNat 8 (8 * len / 256 ^ 0)] := rfl
  rw [hbytes]
  simp only [List.cons_append, List.nil_append, List.cons.injEq, and_true]
  refine ⟨?_, ?_, ?_, ?_, ?_, ?_, ?_, ?_⟩ <;>
  · apply BitVec.eq_of_toNat_eq
    simp only [BitVec.toNat_setWidth, BitVec.toNat_ushiftRight, Nat.shiftRight_eq_div_pow,
      BitVec.toNat_ofNat, hhigh, hlow]
    omega

theorem pad_eq (len : ℕ) :
    (0x80 :: List.replicate 63 0 : List Byte).take (1 + (119 - len % 64) % 64) ++
      Sha2.length64 (8 * len) = Sha2.pad len := by
  have hzeros : (119 - len % 64) % 64 = (64 + 56 - (len + 1) % 64) % 64 := by omega
  rw [Nat.add_comm 1, List.take_succ_cons, List.take_replicate, hzeros, min_eq_left (by omega)]
  rfl

theorem sha256Finalize_eq {hash : Sha256} (h : Holds hash msg) :
    (sha256Finalize hash).2 = Sha2.sha256 msg := by
  have hmod : (hash.bytes % 64).toNat = msg.length % 64 := by
    rw [BitVec.toNat_umod, h.bytes, BitVec.toNat_ofNat]
    change msg.length % 2 ^ 64 % 64 = _
    omega
  have hend := sha256Write_holds (sha256Write_holds h ((0x80 :: List.replicate 63 0).take
    (1 + (119 - (hash.bytes % 64).toNat) % 64)))
    (store32 (be32 ((hash.bytes >>> 29).setWidth 32)) ++
      store32 (be32 ((hash.bytes <<< 3).setWidth 32)))
  have hchain := hend.absorbed.chain
  have hmsg : msg ++ (0x80 :: List.replicate 63 0 : List Byte).take
      (1 + (119 - (hash.bytes % 64).toNat) % 64) ++
      (store32 (be32 ((hash.bytes >>> 29).setWidth 32)) ++
        store32 (be32 ((hash.bytes <<< 3).setWidth 32))) = msg ++ Sha2.pad msg.length := by
    rw [hmod, h.bytes, sizedesc_eq, List.append_assoc, pad_eq]
  rw [hmsg] at hchain
  funext i
  rw [Sha2.sha256, ← hchain]
  exact store32_digest _ i

/-- However a message is cut into pieces, writing them to a fresh context, over any memory, and
finalizing it returns the SHA-256 hash of the message; no chaining value is left behind. -/
theorem sha256_streaming (hash : Sha256) (chunks : List (List Byte)) :
    (sha256Finalize (chunks.foldl sha256Write (sha256Initialize hash))).2 =
        Sha2.sha256 chunks.flatten ∧
      ∀ j, (sha256Finalize (chunks.foldl sha256Write (sha256Initialize hash))).1.s.get j = 0 := by
  have h := foldl_sha256Write_holds (sha256Initialize_holds hash) chunks
  refine ⟨sha256Finalize_eq h, fun j => ?_⟩
  simp [sha256Finalize, Vector.get_eq_getElem]

end Sha256

end Secp256k1
