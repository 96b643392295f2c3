import Secp256k1.Scalar.Chains

/-!
# The scalar backend with four limbs

`scalar_4x64_impl.h`, the portable code with `__int128`. The routines that accumulate columns
return, beside their result, whether every check in them holds.
-/

namespace Secp256k1.Scalar4x64

open Secp256k1.Scalar

instance neZero3 : NeZero 3 := ⟨by decide⟩

instance neZero7 : NeZero 7 := ⟨by decide⟩

abbrev U64 := BitVec 64

abbrev Scalar := Fin 4 → U64

/-- `SECP256K1_N_0` to `SECP256K1_N_3`. -/
def orderLimbs : Scalar :=
  ![0xBFD25E8CD0364141, 0xBAAEDCE6AF48A03B, 0xFFFFFFFFFFFFFFFE, 0xFFFFFFFFFFFFFFFF]

/-- `SECP256K1_N_C_0` to `SECP256K1_N_C_2`. -/
def orderC : Fin 3 → U64 := ![~~~orderLimbs 0 + 1, ~~~orderLimbs 1, 1]

/-- `SECP256K1_N_H_0` to `SECP256K1_N_H_3`. -/
def orderH : Scalar :=
  ![0xDFE92F46681B20A0, 0x5D576E7357A4501D, 0xFFFFFFFFFFFFFFFF, 0x7FFFFFFFFFFFFFFF]

def scalarClear : Scalar := fun _ => 0

def scalarSetInt (v : BitVec 32) : Scalar := ![v.setWidth 64, 0, 0, 0]

def scalarGetBits (a : Scalar) (offset count : ℕ) : BitVec 32 := getBits 6 a offset count

def scalarGetBitsVar (a : Scalar) (offset count : ℕ) : BitVec 32 :=
  getBitsVar 6 a offset count

def scalarCheckOverflow (a : Scalar) : CInt :=
  let no := ofBool (a 3 < orderLimbs 3)
  let no := no ||| ofBool (a 2 < orderLimbs 2)
  let yes := ofBool (a 2 > orderLimbs 2) &&& ~~~no
  let no := no ||| ofBool (a 1 < orderLimbs 1)
  let yes := yes ||| (ofBool (a 1 > orderLimbs 1) &&& ~~~no)
  yes ||| (ofBool (a 0 ≥ orderLimbs 0) &&& ~~~no)

/-- The value returned is `ov` itself. -/
def scalarReduce (r : Scalar) (ov : BitVec 32) : Scalar :=
  let o := ov.setWidth 64
  (Limbs.carry 0 ![wide (r 0) + wide (o * orderC 0), wide (r 1) + wide (o * orderC 1),
    wide (r 2) + wide (o * orderC 2), wide (r 3)]).1

/-- The sum and the overflow returned. -/
def scalarAdd (a b : Scalar) : Scalar × CInt := addReduced scalarCheckOverflow scalarReduce a b

/-- The limbs `secp256k1_scalar_set_b32` reads, before they are reduced. -/
def scalarOfB32 (b32 : Fin 32 → Byte) : Scalar :=
  ![joinBytes 64 0 [b32 31, b32 30, b32 29, b32 28, b32 27, b32 26, b32 25, b32 24],
    joinBytes 64 0 [b32 23, b32 22, b32 21, b32 20, b32 19, b32 18, b32 17, b32 16],
    joinBytes 64 0 [b32 15, b32 14, b32 13, b32 12, b32 11, b32 10, b32 9, b32 8],
    joinBytes 64 0 [b32 7, b32 6, b32 5, b32 4, b32 3, b32 2, b32 1, b32 0]]

/-- The scalar and the overflow flag. -/
def scalarSetB32 (b32 : Fin 32 → Byte) : Scalar × CInt :=
  checkReduced scalarCheckOverflow scalarReduce (scalarOfB32 b32)

def scalarGetB32 (a : Scalar) : Fin 32 → Byte :=
  ![byteOf (a 3) 56, byteOf (a 3) 48, byteOf (a 3) 40, byteOf (a 3) 32,
    byteOf (a 3) 24, byteOf (a 3) 16, byteOf (a 3) 8, byteOf (a 3) 0,
    byteOf (a 2) 56, byteOf (a 2) 48, byteOf (a 2) 40, byteOf (a 2) 32,
    byteOf (a 2) 24, byteOf (a 2) 16, byteOf (a 2) 8, byteOf (a 2) 0,
    byteOf (a 1) 56, byteOf (a 1) 48, byteOf (a 1) 40, byteOf (a 1) 32,
    byteOf (a 1) 24, byteOf (a 1) 16, byteOf (a 1) 8, byteOf (a 1) 0,
    byteOf (a 0) 56, byteOf (a 0) 48, byteOf (a 0) 40, byteOf (a 0) 32,
    byteOf (a 0) 24, byteOf (a 0) 16, byteOf (a 0) 8, byteOf (a 0) 0]

def scalarIsZero (a : Scalar) : Bool := a 0 ||| a 1 ||| a 2 ||| a 3 = 0

def scalarNegate (a : Scalar) : Scalar :=
  let nonzero := 0xFFFFFFFFFFFFFFFF * (ofBool (scalarIsZero a = false)).setWidth 64
  let r := negateChain orderLimbs a
  fun i => r i &&& nonzero

def scalarIsOne (a : Scalar) : Bool := (a 0 ^^^ 1) ||| a 1 ||| a 2 ||| a 3 = 0

def scalarIsHigh (a : Scalar) : CInt :=
  let no := ofBool (a 3 < orderH 3)
  let yes := ofBool (a 3 > orderH 3) &&& ~~~no
  let no := no ||| (ofBool (a 2 < orderH 2) &&& ~~~yes)
  let no := no ||| (ofBool (a 1 < orderH 1) &&& ~~~yes)
  let yes := yes ||| (ofBool (a 1 > orderH 1) &&& ~~~no)
  yes ||| (ofBool (a 0 > orderH 0) &&& ~~~no)

/-- The scalar and the sign returned. -/
def scalarCondNegate (r : Scalar) (flag : CInt) : Scalar × CInt :=
  let mask := maskOf 64 flag
  let nonzero := (ofBool (scalarIsZero r ≠ false) - 1).signExtend 64
  let d := condNegateChain orderLimbs mask r
  (fun i => d i &&& nonzero, 2 * ofBool (mask = 0) - 1)

/-! ## Products -/

section

variable {α : Type}

/-- `l[0..7] = a[0..3] * b[0..3]`. -/
def mul512Ops (a b : Fin 4 → α) : List (AccOp α) :=
  [.muladdFast (a 0) (b 0), .extractFast,
   .muladd (a 0) (b 1), .muladd (a 1) (b 0), .extract,
   .muladd (a 0) (b 2), .muladd (a 1) (b 1), .muladd (a 2) (b 0), .extract,
   .muladd (a 0) (b 3), .muladd (a 1) (b 2), .muladd (a 2) (b 1), .muladd (a 3) (b 0), .extract,
   .muladd (a 1) (b 3), .muladd (a 2) (b 2), .muladd (a 3) (b 1), .extract,
   .muladd (a 2) (b 3), .muladd (a 3) (b 2), .extract,
   .muladdFast (a 3) (b 3), .extractFast]

/-- `l[0..7] = a[0..3] * a[0..3]`. -/
def sqr512Ops (a : Fin 4 → α) : List (AccOp α) :=
  [.muladdFast (a 0) (a 0), .extractFast,
   .muladd2 (a 0) (a 1), .extract,
   .muladd2 (a 0) (a 2), .muladd (a 1) (a 1), .extract,
   .muladd2 (a 0) (a 3), .muladd2 (a 1) (a 2), .extract,
   .muladd2 (a 1) (a 3), .muladd (a 2) (a 2), .extract,
   .muladd2 (a 2) (a 3), .extract,
   .muladdFast (a 3) (a 3), .extractFast]

/-- `m[0..6] = l[0..3] + n[0..3] * SECP256K1_N_C`, after `c0 = l[0]`. -/
def reduce385Ops (l n : Fin 4 → α) (c : Fin 2 → α) : List (AccOp α) :=
  [.muladdFast (n 0) (c 0), .extractFast,
   .sumaddFast (l 1), .muladd (n 1) (c 0), .muladd (n 0) (c 1), .extract,
   .sumadd (l 2), .muladd (n 2) (c 0), .muladd (n 1) (c 1), .sumadd (n 0), .extract,
   .sumadd (l 3), .muladd (n 3) (c 0), .muladd (n 2) (c 1), .sumadd (n 1), .extract,
   .muladd (n 3) (c 1), .sumadd (n 2), .extract,
   .sumaddFast (n 3), .extractFast]

/-- `p[0..4] = m[0..3] + m[4..6] * SECP256K1_N_C`, after `c0 = m[0]`. -/
def reduce258Ops (m : Fin 7 → α) (c : Fin 2 → α) : List (AccOp α) :=
  [.muladdFast (m 4) (c 0), .extractFast,
   .sumaddFast (m 1), .muladd (m 5) (c 0), .muladd (m 4) (c 1), .extract,
   .sumadd (m 2), .muladd (m 6) (c 0), .muladd (m 5) (c 1), .sumadd (m 4), .extract,
   .sumaddFast (m 3), .muladdFast (m 6) (c 1), .sumaddFast (m 5), .extractFast]

end

/-- The limbs `SECP256K1_N_C_0` and `SECP256K1_N_C_1`; the products with the third are sums. -/
def orderC01 : Fin 2 → U64 := ![orderC 0, orderC 1]

/-- The 160 bit accumulator of the products. -/
def run160 (ops : List (AccOp U64)) : (Fin 8 → U64) × Bool :=
  let r := (Acc.init 0 : Acc 64 32).run ops
  (Acc.words 8 r, r.1.ok && r.1.c1 = 0)

def scalarMul512 (a b : Scalar) : (Fin 8 → U64) × Bool := run160 (mul512Ops a b)

def scalarSqr512 (a : Scalar) : (Fin 8 → U64) × Bool := run160 (sqr512Ops a)

/-- Reduce 512 bits into 385: `m0` to `m5`, with `m6` zero-extended. -/
def reduce385 (l : Fin 8 → U64) : (Fin 7 → U64) × Bool :=
  let r := (Acc.init (l 0) : Acc 64 64).run
    (reduce385Ops ![l 0, l 1, l 2, l 3] ![l 4, l 5, l 6, l 7] orderC01)
  let m6 : BitVec 32 := r.1.c0.setWidth 32
  (Limbs.ofList 7 (r.2 ++ [m6.setWidth 64]), r.1.ok && r.1.c0 ≤ 1)

/-- Reduce 385 bits into 258: `p0` to `p3`, and `p4`. -/
def reduce258 (m : Fin 7 → U64) : (Fin 4 → U64) × BitVec 32 × Bool :=
  let r := (Acc.init (m 0) : Acc 64 64).run (reduce258Ops m orderC01)
  let p4 : BitVec 32 := (r.1.c0 + m 6).setWidth 32
  (Limbs.ofList 4 r.2, p4, r.1.ok && p4 ≤ 2)

/-- Reduce 258 bits into 256, and the final reduction. -/
def reduce256 (p : Fin 4 → U64) (p4 : BitVec 32) : Scalar :=
  let q := p4.setWidth (2 * 64)
  let (r, c) := Limbs.carry 0 ![wide (p 0) + wide (orderC 0) * q, wide (p 1) + wide (orderC 1) * q,
    wide (p 2) + q, wide (p 3)]
  scalarReduce r ((c + (scalarCheckOverflow r).signExtend (2 * 64)).setWidth 32)

def scalarReduce512 (l : Fin 8 → U64) : Scalar × Bool :=
  let (m, okm) := reduce385 l
  let (p, p4, okp) := reduce258 m
  (reduce256 p p4, okm && okp)

def scalarMul (a b : Scalar) : Scalar × Bool := productReduced scalarReduce512 (scalarMul512 a b)

def scalarSqr (a : Scalar) : Scalar × Bool := productReduced scalarReduce512 (scalarSqr512 a)

end Secp256k1.Scalar4x64
