import Secp256k1.Lib.Bytes
import Secp256k1.Field.Repr5x52

/-!
# The operations of the five-limb field

`field_5x52_impl.h` but for the multiplication and the squaring, compiled without `VERIFY`.
-/

namespace Secp256k1

/-- The C type `int`. -/
abbrev CInt := BitVec 32

/-- The integer value of a C truth value. -/
def ofBool (b : Bool) : CInt := if b then 1 else 0

/-- The conversion of an `int` to `uint64_t`. -/
def CInt.toU64 (a : CInt) : BitVec 64 := a.signExtend 64

/-- An `int` that is not negative, as a word. -/
theorem CInt.toNat_toU64 {k : CInt} {j : ℕ} (hk : k.toNat = j) (h : j < 2 ^ 31) :
    (CInt.toU64 k).toNat = j := by
  have hmsb : k.msb = false := BitVec.msb_eq_false_iff_two_mul_lt.mpr (by omega)
  rw [CInt.toU64, BitVec.signExtend_eq_setWidth_of_msb_false hmsb]
  exact Word.toNat_setWidth hk (by omega)

namespace Field5x52

/-- `0xFFFFFFFFFFFFF`. -/
def mask52 : U64 := 0xFFFFFFFFFFFFF

/-- `0x0FFFFFFFFFFFF`. -/
def mask48 : U64 := 0x0FFFFFFFFFFFF

/-- `t0 += x * 0x1000003D1`, and the carries up to `t4`. -/
def addCarry (x : U64) (t : Fe) : Fe :=
  let t0 := t.n0 + x * 0x1000003D1
  let t1 := t.n1 + (t0 >>> 52)
  let t2 := t.n2 + (t1 >>> 52)
  let t3 := t.n3 + (t2 >>> 52)
  let t4 := t.n4 + (t3 >>> 52)
  ⟨t0 &&& mask52, t1 &&& mask52, t2 &&& mask52, t3 &&& mask52, t4⟩

/-- `t4 &= 0x0FFFFFFFFFFFF`. -/
def maskTop (t : Fe) : Fe := ⟨t.n0, t.n1, t.n2, t.n3, t.n4 &&& mask48⟩

/-- The first pass of every normalization: `t4` is cut at 48 bits and its upper part folded. -/
def firstPass (a : Fe) : Fe := addCarry (a.n4 >>> 48) (maskTop a)

/-- The test for a value not below `p` after the first pass. -/
def finalReduction (t : Fe) : U64 :=
  let m := t.n1 &&& t.n2 &&& t.n3
  (t.n4 >>> 48) ||| CInt.toU64 (ofBool (t.n4 = mask48 ∧ m = mask52 ∧ 0xFFFFEFFFFFC2F ≤ t.n0))

def feNormalize (r : Fe) : Fe :=
  let t := firstPass r
  maskTop (addCarry (finalReduction t) t)

def feNormalizeWeak (r : Fe) : Fe := firstPass r

def feNormalizeVar (r : Fe) : Fe :=
  let t := firstPass r
  if finalReduction t ≠ 0 then maskTop (addCarry 1 t) else t

def feNormalizesToZero (r : Fe) : Bool :=
  let t := firstPass r
  let z0 := t.n0 ||| t.n1 ||| t.n2 ||| t.n3 ||| t.n4
  let z1 := (t.n0 ^^^ 0x1000003D0) &&& t.n1 &&& t.n2 &&& t.n3 &&& (t.n4 ^^^ 0xF000000000000)
  z0 = 0 ∨ z1 = mask52

def feNormalizesToZeroVar (r : Fe) : Bool :=
  let t0 := r.n0
  let t4 := r.n4
  let x := t4 >>> 48
  let t0 := t0 + x * 0x1000003D1
  let z0 := t0 &&& mask52
  let z1 := z0 ^^^ 0x1000003D0
  -- fast return path
  if z0 ≠ 0 ∧ z1 ≠ mask52 then false
  else
    let t4 := t4 &&& mask48
    let t1 := r.n1 + (t0 >>> 52)
    let t2 := r.n2 + (t1 >>> 52)
    let t1 := t1 &&& mask52
    let z0 := z0 ||| t1
    let z1 := z1 &&& t1
    let t3 := r.n3 + (t2 >>> 52)
    let t2 := t2 &&& mask52
    let z0 := z0 ||| t2
    let z1 := z1 &&& t2
    let t4 := t4 + (t3 >>> 52)
    let t3 := t3 &&& mask52
    let z0 := z0 ||| t3
    let z1 := z1 &&& t3
    let z0 := z0 ||| t4
    let z1 := z1 &&& (t4 ^^^ 0xF000000000000)
    z0 = 0 ∨ z1 = mask52

def feSetInt (a : CInt) : Fe := ⟨CInt.toU64 a, 0, 0, 0, 0⟩

def feIsZero (a : Fe) : Bool := a.n0 ||| a.n1 ||| a.n2 ||| a.n3 ||| a.n4 = 0

def feIsOdd (a : Fe) : Bool := a.n0 &&& 1 ≠ 0

def feClear : Fe := ⟨0, 0, 0, 0, 0⟩

/-- One round of the loop of `secp256k1_fe_cmp_var`; `r` is what the lower limbs give. -/
def cmpLimb (a b : U64) (r : ℤ) : ℤ := if a > b then 1 else if a < b then -1 else r

def feCmpVar (a b : Fe) : ℤ :=
  cmpLimb a.n4 b.n4 (cmpLimb a.n3 b.n3 (cmpLimb a.n2 b.n2 (cmpLimb a.n1 b.n1
    (cmpLimb a.n0 b.n0 0))))

/-- `(uint64_t)b << k`. -/
def put (b : Byte) (k : ℕ) : U64 := b.setWidth 64 <<< k

/-- The limbs `secp256k1_fe_set_b32` writes. -/
def feOfB32 (a : Fin 32 → Byte) : Fe where
  n0 := put (a 31) 0 ||| put (a 30) 8 ||| put (a 29) 16 ||| put (a 28) 24 ||| put (a 27) 32 |||
    put (a 26) 40 ||| put (a 25 &&& 0xF) 48
  n1 := put ((a 25 >>> 4) &&& 0xF) 0 ||| put (a 24) 4 ||| put (a 23) 12 ||| put (a 22) 20 |||
    put (a 21) 28 ||| put (a 20) 36 ||| put (a 19) 44
  n2 := put (a 18) 0 ||| put (a 17) 8 ||| put (a 16) 16 ||| put (a 15) 24 ||| put (a 14) 32 |||
    put (a 13) 40 ||| put (a 12 &&& 0xF) 48
  n3 := put ((a 12 >>> 4) &&& 0xF) 0 ||| put (a 11) 4 ||| put (a 10) 12 ||| put (a 9) 20 |||
    put (a 8) 28 ||| put (a 7) 36 ||| put (a 6) 44
  n4 := put (a 5) 0 ||| put (a 4) 8 ||| put (a 3) 16 ||| put (a 2) 24 ||| put (a 1) 32 |||
    put (a 0) 40

/-- The limbs written and the value returned: 0 for a value not below `p`. -/
def feSetB32 (a : Fin 32 → Byte) : Fe × Bool :=
  let r := feOfB32 a
  (r, ¬ (r.n4 = mask48 ∧ (r.n3 &&& r.n2 &&& r.n1) = mask52 ∧ 0xFFFFEFFFFFC2F ≤ r.n0))

/-- `(x >> k) & 0xFF`. -/
def get (x : U64) (k : ℕ) : Byte := ((x >>> k) &&& 0xFF).setWidth 8

/-- The byte shared by two limbs. -/
def getJoined (lo hi : U64) : Byte :=
  (((lo >>> 48) &&& 0xF) ||| ((hi &&& 0xF) <<< 4)).setWidth 8

def feGetB32 (a : Fe) : Fin 32 → Byte :=
  ![get a.n4 40, get a.n4 32, get a.n4 24, get a.n4 16, get a.n4 8, get a.n4 0,
    get a.n3 44, get a.n3 36, get a.n3 28, get a.n3 20, get a.n3 12, get a.n3 4,
    getJoined a.n2 a.n3,
    get a.n2 40, get a.n2 32, get a.n2 24, get a.n2 16, get a.n2 8, get a.n2 0,
    get a.n1 44, get a.n1 36, get a.n1 28, get a.n1 20, get a.n1 12, get a.n1 4,
    getJoined a.n0 a.n1,
    get a.n0 40, get a.n0 32, get a.n0 24, get a.n0 16, get a.n0 8, get a.n0 0]

def feNegate (a : Fe) (m : CInt) : Fe where
  n0 := 0xFFFFEFFFFFC2F * 2 * CInt.toU64 (m + 1) - a.n0
  n1 := 0xFFFFFFFFFFFFF * 2 * CInt.toU64 (m + 1) - a.n1
  n2 := 0xFFFFFFFFFFFFF * 2 * CInt.toU64 (m + 1) - a.n2
  n3 := 0xFFFFFFFFFFFFF * 2 * CInt.toU64 (m + 1) - a.n3
  n4 := 0x0FFFFFFFFFFFF * 2 * CInt.toU64 (m + 1) - a.n4

def feMulInt (r : Fe) (a : CInt) : Fe where
  n0 := r.n0 * CInt.toU64 a
  n1 := r.n1 * CInt.toU64 a
  n2 := r.n2 * CInt.toU64 a
  n3 := r.n3 * CInt.toU64 a
  n4 := r.n4 * CInt.toU64 a

def feAdd (r a : Fe) : Fe where
  n0 := r.n0 + a.n0
  n1 := r.n1 + a.n1
  n2 := r.n2 + a.n2
  n3 := r.n3 + a.n3
  n4 := r.n4 + a.n4

/-- `(r & mask0) | (a & mask1)`. -/
def cmovLimb (flag : CInt) (r a : U64) : U64 :=
  let mask0 := CInt.toU64 flag + ~~~0
  let mask1 := ~~~mask0
  (r &&& mask0) ||| (a &&& mask1)

def feCmov (r a : Fe) (flag : CInt) : Fe where
  n0 := cmovLimb flag r.n0 a.n0
  n1 := cmovLimb flag r.n1 a.n1
  n2 := cmovLimb flag r.n2 a.n2
  n3 := cmovLimb flag r.n3 a.n3
  n4 := cmovLimb flag r.n4 a.n4

/-- `SECP256K1_FE_CONST`. -/
def feConst (d7 d6 d5 d4 d3 d2 d1 d0 : BitVec 32) : Fe where
  n0 := d0.setWidth 64 ||| (d1.setWidth 64 &&& 0xFFFFF) <<< 32
  n1 := d1.setWidth 64 >>> 20 ||| d2.setWidth 64 <<< 12 ||| (d3.setWidth 64 &&& 0xFF) <<< 44
  n2 := d3.setWidth 64 >>> 8 ||| (d4.setWidth 64 &&& 0xFFFFFFF) <<< 24
  n3 := d4.setWidth 64 >>> 28 ||| d5.setWidth 64 <<< 4 ||| (d6.setWidth 64 &&& 0xFFFF) <<< 36
  n4 := d6.setWidth 64 >>> 16 ||| d7.setWidth 64 <<< 16

end Field5x52

/-- `secp256k1_fe_storage`: four full words, the same in both backends. -/
structure FeStorage where
  n0 : BitVec 64
  n1 : BitVec 64
  n2 : BitVec 64
  n3 : BitVec 64
  deriving DecidableEq, Repr

def FeStorage.val (a : FeStorage) : ℕ :=
  a.n0.toNat + a.n1.toNat * 2 ^ 64 + a.n2.toNat * 2 ^ 128 + a.n3.toNat * 2 ^ 192

theorem FeStorage.val_inj {a b : FeStorage} (h : a.val = b.val) : a = b := by
  have := a.n0.isLt; have := a.n1.isLt; have := a.n2.isLt; have := a.n3.isLt
  have := b.n0.isLt; have := b.n1.isLt; have := b.n2.isLt; have := b.n3.isLt
  simp only [FeStorage.val] at h
  have h0 : a.n0 = b.n0 := BitVec.eq_of_toNat_eq (by omega)
  have h1 : a.n1 = b.n1 := BitVec.eq_of_toNat_eq (by omega)
  have h2 : a.n2 = b.n2 := BitVec.eq_of_toNat_eq (by omega)
  have h3 : a.n3 = b.n3 := BitVec.eq_of_toNat_eq (by omega)
  cases a; cases b
  simp only [FeStorage.mk.injEq]
  exact ⟨h0, h1, h2, h3⟩

namespace Field5x52

def feStorageCmov (r a : FeStorage) (flag : CInt) : FeStorage where
  n0 := cmovLimb flag r.n0 a.n0
  n1 := cmovLimb flag r.n1 a.n1
  n2 := cmovLimb flag r.n2 a.n2
  n3 := cmovLimb flag r.n3 a.n3

def feToStorage (a : Fe) : FeStorage where
  n0 := a.n0 ||| a.n1 <<< 52
  n1 := a.n1 >>> 12 ||| a.n2 <<< 40
  n2 := a.n2 >>> 24 ||| a.n3 <<< 28
  n3 := a.n3 >>> 36 ||| a.n4 <<< 16

def feFromStorage (a : FeStorage) : Fe where
  n0 := a.n0 &&& mask52
  n1 := a.n0 >>> 52 ||| (a.n1 <<< 12 &&& mask52)
  n2 := a.n1 >>> 40 ||| (a.n2 <<< 24 &&& mask52)
  n3 := a.n2 >>> 28 ||| (a.n3 <<< 36 &&& mask52)
  n4 := a.n3 >>> 16

end Field5x52

end Secp256k1
