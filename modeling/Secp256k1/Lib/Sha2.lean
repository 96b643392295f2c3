import Secp256k1.Lib.Bytes

/-!
# SHA-256 and HMAC

The hash function as its standard defines it: words of 32 bits, a schedule of 64 words for each
block, and the padding that ends in the length. `Chain` is the iteration of a compression function
over the blocks of a message, with the rules for messages that grow. HMAC and the generator of
deterministic nonces are written over any hash and any keyed hash.
-/

namespace Sha2

/-! ## Functions of words -/

def ch (x y z : BitVec 32) : BitVec 32 := (x &&& y) ^^^ (~~~x &&& z)

def maj (x y z : BitVec 32) : BitVec 32 := (x &&& y) ^^^ (x &&& z) ^^^ (y &&& z)

def bigSigma0 (x : BitVec 32) : BitVec 32 :=
  x.rotateRight 2 ^^^ x.rotateRight 13 ^^^ x.rotateRight 22

def bigSigma1 (x : BitVec 32) : BitVec 32 :=
  x.rotateRight 6 ^^^ x.rotateRight 11 ^^^ x.rotateRight 25

def smallSigma0 (x : BitVec 32) : BitVec 32 := x.rotateRight 7 ^^^ x.rotateRight 18 ^^^ x >>> 3

def smallSigma1 (x : BitVec 32) : BitVec 32 := x.rotateRight 17 ^^^ x.rotateRight 19 ^^^ x >>> 10

/-- The first 64 primes. -/
def primes : List ℕ := [
  2, 3, 5, 7, 11, 13, 17, 19, 23, 29, 31, 37, 41, 43, 47, 53, 59, 61, 67, 71, 73, 79, 83, 89, 97,
  101, 103, 107, 109, 113, 127, 131, 137, 139, 149, 151, 157, 163, 167, 173, 179, 181, 191, 193,
  197, 199, 211, 223, 227, 229, 233, 239, 241, 251, 257, 263, 269, 271, 277, 281, 283, 293, 307,
  311]

/-- The largest number whose power `e` is at most `a`, up to `b` binary digits. -/
def root (e a : ℕ) : ℕ → ℕ → ℕ
  | 0, r => r
  | b + 1, r => root e a b (if (r + 2 ^ b) ^ e ≤ a then r + 2 ^ b else r)

/-- The first 32 bits of the fraction of a root of a number. -/
def fracRoot (e q : ℕ) : BitVec 32 := BitVec.ofNat 32 (root e (q * 2 ^ (32 * e)) 40 0)

/-- The constants of the rounds, from cube roots of primes. -/
def roundConstant (t : ℕ) : BitVec 32 := fracRoot 3 (primes.getD t 0)

/-- The initial chaining value, from square roots of primes. -/
def initialValue (j : Fin 8) : BitVec 32 := fracRoot 2 (primes.getD j 0)

/-! ## Compression -/

/-- A word of a block, the first byte most significant. -/
def word (block : ℕ → Byte) (i : ℕ) : BitVec 32 :=
  block (4 * i) ++ block (4 * i + 1) ++ block (4 * i + 2) ++ block (4 * i + 3)

/-- The words of the rounds. -/
def schedule (m : ℕ → BitVec 32) (t : ℕ) : BitVec 32 :=
  if t < 16 then m t
  else smallSigma1 (schedule m (t - 2)) + schedule m (t - 7) + smallSigma0 (schedule m (t - 15)) +
    schedule m (t - 16)

/-- One round on the working variables `a` to `h`. -/
def step (k w : BitVec 32) (r : Fin 8 → BitVec 32) : Fin 8 → BitVec 32 :=
  let t1 := r 7 + bigSigma1 (r 4) + ch (r 4) (r 5) (r 6) + k + w
  let t2 := bigSigma0 (r 0) + maj (r 0) (r 1) (r 2)
  fun j => if j = 0 then t1 + t2 else if j = 4 then r 3 + t1 else r (j - 1)

def rounds (m : ℕ → BitVec 32) (r : Fin 8 → BitVec 32) : ℕ → Fin 8 → BitVec 32
  | 0 => r
  | t + 1 => step (roundConstant t) (schedule m t) (rounds m r t)

def compress (h : Fin 8 → BitVec 32) (block : ℕ → Byte) : Fin 8 → BitVec 32 :=
  fun j => h j + rounds (word block) h 64 j

theorem schedule_lt {m : ℕ → BitVec 32} {t : ℕ} (h : t < 16) : schedule m t = m t := by
  rw [schedule, if_pos h]

theorem schedule_ge {m : ℕ → BitVec 32} {t : ℕ} (h : 16 ≤ t) :
    schedule m t = smallSigma1 (schedule m (t - 2)) + schedule m (t - 7) +
      smallSigma0 (schedule m (t - 15)) + schedule m (t - 16) := by
  rw [schedule, if_neg (by omega)]

/-! Only the sixteen words of a block count. -/

theorem schedule_congr {m m' : ℕ → BitVec 32} (h : ∀ i < 16, m i = m' i) (t : ℕ) :
    schedule m t = schedule m' t := by
  induction t using Nat.strong_induction_on with
  | _ t ih =>
    by_cases ht : t < 16
    · rw [schedule_lt ht, schedule_lt ht, h t ht]
    · have hge : 16 ≤ t := Nat.le_of_not_lt ht
      rw [schedule_ge hge, ih (t - 2) (by omega), ih (t - 7) (by omega), ih (t - 15) (by omega),
        ih (t - 16) (by omega), ← schedule_ge hge]

theorem rounds_congr {m m' : ℕ → BitVec 32} (h : ∀ i < 16, m i = m' i) (r : Fin 8 → BitVec 32)
    (t : ℕ) : rounds m r t = rounds m' r t := by
  induction t with
  | zero => rfl
  | succ t ih => rw [rounds, rounds, ih, schedule_congr h]

theorem compress_congr (h : Fin 8 → BitVec 32) (b c : ℕ → Byte) (hbc : ∀ j < 64, b j = c j) :
    compress h b = compress h c := by
  have hword : ∀ i < 16, word b i = word c i := by
    intro i hi
    rw [word, word, hbc _ (by omega), hbc _ (by omega), hbc _ (by omega), hbc _ (by omega)]
  funext j
  rw [compress, compress, rounds_congr hword]

/-! ## Iteration over the blocks of a message -/

/-- Block `k` of a message. -/
def block (m : List Byte) (k : ℕ) : ℕ → Byte := fun j => m.getD (64 * k + j) 0

/-- The chaining value after the first blocks of a message. -/
def Chain {σ : Type} (f : σ → (ℕ → Byte) → σ) (iv : σ) (m : List Byte) : ℕ → σ
  | 0 => iv
  | k + 1 => f (Chain f iv m k) (block m k)

/-- What follows the first blocks does not change their chaining value, for a compression that
reads a block. -/
theorem Chain.append {σ : Type} {f : σ → (ℕ → Byte) → σ} {iv : σ}
    (hf : ∀ s b c, (∀ j < 64, b j = c j) → f s b = f s c) {m : List Byte} (l : List Byte) {k : ℕ}
    (hk : 64 * k ≤ m.length) : Chain f iv (m ++ l) k = Chain f iv m k := by
  induction k with
  | zero => rfl
  | succ k ih =>
    rw [Chain, Chain, ih (by omega)]
    refine hf _ _ _ fun j hj => ?_
    exact List.getD_append _ _ _ _ (by omega)

/-! ## The hash -/

/-- A number in eight bytes, the first most significant. -/
def length64 (v : ℕ) : List Byte :=
  List.ofFn fun i : Fin 8 => BitVec.ofNat 8 (v / 256 ^ (7 - i.val))

/-- A one bit, zeros up to eight bytes before the end of a block, and the length in bits. -/
def pad (len : ℕ) : List Byte :=
  0x80 :: (List.replicate ((64 + 56 - (len + 1) % 64) % 64) 0 ++ length64 (8 * len))

/-- The words of a chaining value as bytes. -/
def digest (h : Fin 8 → BitVec 32) (i : Fin 32) : Byte :=
  (h (Fin.ofNat 8 (i / 4)) >>> (8 * (3 - i.val % 4))).setWidth 8

def sha256 (m : List Byte) : Fin 32 → Byte :=
  digest (Chain compress initialValue (m ++ pad m.length) ((m ++ pad m.length).length / 64))

/-! ## HMAC -/

section

variable (hash : List Byte → Fin 32 → Byte)

/-- The key in a block: what is too long is hashed first. -/
def blockKey (key : List Byte) : List Byte :=
  if key.length ≤ 64 then key ++ List.replicate (64 - key.length) 0
  else List.ofFn (hash key) ++ List.replicate 32 0

def hmac (key m : List Byte) : Fin 32 → Byte :=
  hash ((blockKey hash key).map (· ^^^ 0x5c) ++
    List.ofFn (hash ((blockKey hash key).map (· ^^^ 0x36) ++ m)))

end

/-! ## Deterministic nonces -/

/-- The state of the generator. -/
structure Drbg where
  v : Fin 32 → Byte
  k : Fin 32 → Byte

namespace Drbg

variable (mac : List Byte → List Byte → Fin 32 → Byte)

/-- `K = HMAC_K(V ‖ data)`, then `V = HMAC_K(V)`. -/
def update (data : List Byte) (g : Drbg) : Drbg :=
  let k := mac (List.ofFn g.k) (List.ofFn g.v ++ data)
  ⟨mac (List.ofFn k) (List.ofFn g.v), k⟩

def init (seed : List Byte) : Drbg :=
  update mac (0x01 :: seed) (update mac (0x00 :: seed) ⟨fun _ => 0x01, fun _ => 0x00⟩)

/-- `V = HMAC_K(V)`, which is the next 32 bytes. -/
def next (g : Drbg) : Drbg := ⟨mac (List.ofFn g.k) (List.ofFn g.v), g.k⟩

/-- The state after the request for the nonce `i`, counted from 0. -/
def nonceState (seed : List Byte) : ℕ → Drbg
  | 0 => next mac (init mac seed)
  | i + 1 => next mac (update mac [0x00] (nonceState seed i))

/-- The candidates for a nonce. -/
def nonce (seed : List Byte) (i : ℕ) : Fin 32 → Byte := (nonceState mac seed i).v

end Drbg

end Sha2
