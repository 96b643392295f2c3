import Secp256k1.Scalar.Chains

/-!
# The scalar backend with eight limbs

`scalar_8x32_impl.h`. The routines that accumulate columns return, beside their result, whether
every check in them holds.
-/

namespace Secp256k1.Scalar8x32

open Secp256k1.Scalar

instance neZero5 : NeZero 5 := ⟨by decide⟩

instance neZero13 : NeZero 13 := ⟨by decide⟩

instance neZero16 : NeZero 16 := ⟨by decide⟩

abbrev U32 := BitVec 32

abbrev Scalar := Fin 8 → U32

/-- `SECP256K1_N_0` to `SECP256K1_N_7`. -/
def orderLimbs : Scalar :=
  ![0xD0364141, 0xBFD25E8C, 0xAF48A03B, 0xBAAEDCE6, 0xFFFFFFFE, 0xFFFFFFFF, 0xFFFFFFFF, 0xFFFFFFFF]

/-- `SECP256K1_N_C_0` to `SECP256K1_N_C_4`. -/
def orderC : Fin 5 → U32 :=
  ![~~~orderLimbs 0 + 1, ~~~orderLimbs 1, ~~~orderLimbs 2, ~~~orderLimbs 3, 1]

/-- `SECP256K1_N_H_0` to `SECP256K1_N_H_7`. -/
def orderH : Scalar :=
  ![0x681B20A0, 0xDFE92F46, 0x57A4501D, 0x5D576E73, 0xFFFFFFFF, 0xFFFFFFFF, 0xFFFFFFFF, 0x7FFFFFFF]

def scalarClear : Scalar := fun _ => 0

def scalarSetInt (v : BitVec 32) : Scalar := ![v, 0, 0, 0, 0, 0, 0, 0]

def scalarGetBits (a : Scalar) (offset count : ℕ) : BitVec 32 := getBits 5 a offset count

def scalarGetBitsVar (a : Scalar) (offset count : ℕ) : BitVec 32 :=
  getBitsVar 5 a offset count

def scalarCheckOverflow (a : Scalar) : CInt :=
  let no := ofBool (a 7 < orderLimbs 7)
  let no := no ||| ofBool (a 6 < orderLimbs 6)
  let no := no ||| ofBool (a 5 < orderLimbs 5)
  let no := no ||| ofBool (a 4 < orderLimbs 4)
  let yes := ofBool (a 4 > orderLimbs 4) &&& ~~~no
  let no := no ||| (ofBool (a 3 < orderLimbs 3) &&& ~~~yes)
  let yes := yes ||| (ofBool (a 3 > orderLimbs 3) &&& ~~~no)
  let no := no ||| (ofBool (a 2 < orderLimbs 2) &&& ~~~yes)
  let yes := yes ||| (ofBool (a 2 > orderLimbs 2) &&& ~~~no)
  let no := no ||| (ofBool (a 1 < orderLimbs 1) &&& ~~~yes)
  let yes := yes ||| (ofBool (a 1 > orderLimbs 1) &&& ~~~no)
  yes ||| (ofBool (a 0 ≥ orderLimbs 0) &&& ~~~no)

/-- The value returned is `ov` itself. -/
def scalarReduce (r : Scalar) (ov : BitVec 32) : Scalar :=
  (Limbs.carry 0 ![wide (r 0) + wide (ov * orderC 0), wide (r 1) + wide (ov * orderC 1),
    wide (r 2) + wide (ov * orderC 2), wide (r 3) + wide (ov * orderC 3),
    wide (r 4) + wide (ov * orderC 4), wide (r 5), wide (r 6), wide (r 7)]).1

/-- The sum and the overflow returned. -/
def scalarAdd (a b : Scalar) : Scalar × CInt := addReduced scalarCheckOverflow scalarReduce a b

/-- The limbs `secp256k1_scalar_set_b32` reads, before they are reduced. -/
def scalarOfB32 (b32 : Fin 32 → Byte) : Scalar :=
  ![joinBytes 32 0 [b32 31, b32 30, b32 29, b32 28],
    joinBytes 32 0 [b32 27, b32 26, b32 25, b32 24],
    joinBytes 32 0 [b32 23, b32 22, b32 21, b32 20],
    joinBytes 32 0 [b32 19, b32 18, b32 17, b32 16],
    joinBytes 32 0 [b32 15, b32 14, b32 13, b32 12],
    joinBytes 32 0 [b32 11, b32 10, b32 9, b32 8],
    joinBytes 32 0 [b32 7, b32 6, b32 5, b32 4],
    joinBytes 32 0 [b32 3, b32 2, b32 1, b32 0]]

/-- The scalar and the overflow flag. -/
def scalarSetB32 (b32 : Fin 32 → Byte) : Scalar × CInt :=
  checkReduced scalarCheckOverflow scalarReduce (scalarOfB32 b32)

def scalarGetB32 (a : Scalar) : Fin 32 → Byte :=
  ![byteOf (a 7) 24, byteOf (a 7) 16, byteOf (a 7) 8, byteOf (a 7) 0,
    byteOf (a 6) 24, byteOf (a 6) 16, byteOf (a 6) 8, byteOf (a 6) 0,
    byteOf (a 5) 24, byteOf (a 5) 16, byteOf (a 5) 8, byteOf (a 5) 0,
    byteOf (a 4) 24, byteOf (a 4) 16, byteOf (a 4) 8, byteOf (a 4) 0,
    byteOf (a 3) 24, byteOf (a 3) 16, byteOf (a 3) 8, byteOf (a 3) 0,
    byteOf (a 2) 24, byteOf (a 2) 16, byteOf (a 2) 8, byteOf (a 2) 0,
    byteOf (a 1) 24, byteOf (a 1) 16, byteOf (a 1) 8, byteOf (a 1) 0,
    byteOf (a 0) 24, byteOf (a 0) 16, byteOf (a 0) 8, byteOf (a 0) 0]

def scalarIsZero (a : Scalar) : Bool :=
  a 0 ||| a 1 ||| a 2 ||| a 3 ||| a 4 ||| a 5 ||| a 6 ||| a 7 = 0

def scalarNegate (a : Scalar) : Scalar :=
  let nonzero := 0xFFFFFFFF * ofBool (scalarIsZero a = false)
  let r := negateChain orderLimbs a
  fun i => r i &&& nonzero

def scalarIsOne (a : Scalar) : Bool :=
  (a 0 ^^^ 1) ||| a 1 ||| a 2 ||| a 3 ||| a 4 ||| a 5 ||| a 6 ||| a 7 = 0

def scalarIsHigh (a : Scalar) : CInt :=
  let no := ofBool (a 7 < orderH 7)
  let yes := ofBool (a 7 > orderH 7) &&& ~~~no
  let no := no ||| (ofBool (a 6 < orderH 6) &&& ~~~yes)
  let no := no ||| (ofBool (a 5 < orderH 5) &&& ~~~yes)
  let no := no ||| (ofBool (a 4 < orderH 4) &&& ~~~yes)
  let no := no ||| (ofBool (a 3 < orderH 3) &&& ~~~yes)
  let yes := yes ||| (ofBool (a 3 > orderH 3) &&& ~~~no)
  let no := no ||| (ofBool (a 2 < orderH 2) &&& ~~~yes)
  let yes := yes ||| (ofBool (a 2 > orderH 2) &&& ~~~no)
  let no := no ||| (ofBool (a 1 < orderH 1) &&& ~~~yes)
  let yes := yes ||| (ofBool (a 1 > orderH 1) &&& ~~~no)
  yes ||| (ofBool (a 0 > orderH 0) &&& ~~~no)

/-- The scalar and the sign returned. -/
def scalarCondNegate (r : Scalar) (flag : CInt) : Scalar × CInt :=
  let mask := maskOf 32 flag
  let nonzero := 0xFFFFFFFF * ofBool (scalarIsZero r = false)
  let d := condNegateChain orderLimbs mask r
  (fun i => d i &&& nonzero, 2 * ofBool (mask = 0) - 1)

/-! ## Products -/

section

variable {α : Type}

/-- `l[0..15] = a[0..7] * b[0..7]`. -/
def mul512Ops (a b : Fin 8 → α) : List (AccOp α) :=
  [.muladdFast (a 0) (b 0), .extractFast,
   .muladd (a 0) (b 1), .muladd (a 1) (b 0), .extract,
   .muladd (a 0) (b 2), .muladd (a 1) (b 1), .muladd (a 2) (b 0), .extract,
   .muladd (a 0) (b 3), .muladd (a 1) (b 2), .muladd (a 2) (b 1), .muladd (a 3) (b 0), .extract,
   .muladd (a 0) (b 4), .muladd (a 1) (b 3), .muladd (a 2) (b 2), .muladd (a 3) (b 1),
   .muladd (a 4) (b 0), .extract,
   .muladd (a 0) (b 5), .muladd (a 1) (b 4), .muladd (a 2) (b 3), .muladd (a 3) (b 2),
   .muladd (a 4) (b 1), .muladd (a 5) (b 0), .extract,
   .muladd (a 0) (b 6), .muladd (a 1) (b 5), .muladd (a 2) (b 4), .muladd (a 3) (b 3),
   .muladd (a 4) (b 2), .muladd (a 5) (b 1), .muladd (a 6) (b 0), .extract,
   .muladd (a 0) (b 7), .muladd (a 1) (b 6), .muladd (a 2) (b 5), .muladd (a 3) (b 4),
   .muladd (a 4) (b 3), .muladd (a 5) (b 2), .muladd (a 6) (b 1), .muladd (a 7) (b 0), .extract,
   .muladd (a 1) (b 7), .muladd (a 2) (b 6), .muladd (a 3) (b 5), .muladd (a 4) (b 4),
   .muladd (a 5) (b 3), .muladd (a 6) (b 2), .muladd (a 7) (b 1), .extract,
   .muladd (a 2) (b 7), .muladd (a 3) (b 6), .muladd (a 4) (b 5), .muladd (a 5) (b 4),
   .muladd (a 6) (b 3), .muladd (a 7) (b 2), .extract,
   .muladd (a 3) (b 7), .muladd (a 4) (b 6), .muladd (a 5) (b 5), .muladd (a 6) (b 4),
   .muladd (a 7) (b 3), .extract,
   .muladd (a 4) (b 7), .muladd (a 5) (b 6), .muladd (a 6) (b 5), .muladd (a 7) (b 4), .extract,
   .muladd (a 5) (b 7), .muladd (a 6) (b 6), .muladd (a 7) (b 5), .extract,
   .muladd (a 6) (b 7), .muladd (a 7) (b 6), .extract,
   .muladdFast (a 7) (b 7), .extractFast]

/-- `l[0..15] = a[0..7]^2`. -/
def sqr512Ops (a : Fin 8 → α) : List (AccOp α) :=
  [.muladdFast (a 0) (a 0), .extractFast,
   .muladd2 (a 0) (a 1), .extract,
   .muladd2 (a 0) (a 2), .muladd (a 1) (a 1), .extract,
   .muladd2 (a 0) (a 3), .muladd2 (a 1) (a 2), .extract,
   .muladd2 (a 0) (a 4), .muladd2 (a 1) (a 3), .muladd (a 2) (a 2), .extract,
   .muladd2 (a 0) (a 5), .muladd2 (a 1) (a 4), .muladd2 (a 2) (a 3), .extract,
   .muladd2 (a 0) (a 6), .muladd2 (a 1) (a 5), .muladd2 (a 2) (a 4), .muladd (a 3) (a 3),
   .extract,
   .muladd2 (a 0) (a 7), .muladd2 (a 1) (a 6), .muladd2 (a 2) (a 5), .muladd2 (a 3) (a 4),
   .extract,
   .muladd2 (a 1) (a 7), .muladd2 (a 2) (a 6), .muladd2 (a 3) (a 5), .muladd (a 4) (a 4),
   .extract,
   .muladd2 (a 2) (a 7), .muladd2 (a 3) (a 6), .muladd2 (a 4) (a 5), .extract,
   .muladd2 (a 3) (a 7), .muladd2 (a 4) (a 6), .muladd (a 5) (a 5), .extract,
   .muladd2 (a 4) (a 7), .muladd2 (a 5) (a 6), .extract,
   .muladd2 (a 5) (a 7), .muladd (a 6) (a 6), .extract,
   .muladd2 (a 6) (a 7), .extract,
   .muladdFast (a 7) (a 7), .extractFast]

/-- `m[0..12] = l[0..7] + n[0..7] * SECP256K1_N_C`, after `c0 = l[0]`. -/
def reduce385Ops (l n : Fin 8 → α) (c : Fin 4 → α) : List (AccOp α) :=
  [.muladdFast (n 0) (c 0), .extractFast,
   .sumaddFast (l 1), .muladd (n 1) (c 0), .muladd (n 0) (c 1), .extract,
   .sumadd (l 2), .muladd (n 2) (c 0), .muladd (n 1) (c 1), .muladd (n 0) (c 2), .extract,
   .sumadd (l 3), .muladd (n 3) (c 0), .muladd (n 2) (c 1), .muladd (n 1) (c 2),
   .muladd (n 0) (c 3), .extract,
   .sumadd (l 4), .muladd (n 4) (c 0), .muladd (n 3) (c 1), .muladd (n 2) (c 2),
   .muladd (n 1) (c 3), .sumadd (n 0), .extract,
   .sumadd (l 5), .muladd (n 5) (c 0), .muladd (n 4) (c 1), .muladd (n 3) (c 2),
   .muladd (n 2) (c 3), .sumadd (n 1), .extract,
   .sumadd (l 6), .muladd (n 6) (c 0), .muladd (n 5) (c 1), .muladd (n 4) (c 2),
   .muladd (n 3) (c 3), .sumadd (n 2), .extract,
   .sumadd (l 7), .muladd (n 7) (c 0), .muladd (n 6) (c 1), .muladd (n 5) (c 2),
   .muladd (n 4) (c 3), .sumadd (n 3), .extract,
   .muladd (n 7) (c 1), .muladd (n 6) (c 2), .muladd (n 5) (c 3), .sumadd (n 4), .extract,
   .muladd (n 7) (c 2), .muladd (n 6) (c 3), .sumadd (n 5), .extract,
   .muladd (n 7) (c 3), .sumadd (n 6), .extract,
   .sumaddFast (n 7), .extractFast]

/-- `p[0..8] = m[0..7] + m[8..12] * SECP256K1_N_C`, after `c0 = m[0]`. -/
def reduce258Ops (m : Fin 13 → α) (c : Fin 4 → α) : List (AccOp α) :=
  [.muladdFast (m 8) (c 0), .extractFast,
   .sumaddFast (m 1), .muladd (m 9) (c 0), .muladd (m 8) (c 1), .extract,
   .sumadd (m 2), .muladd (m 10) (c 0), .muladd (m 9) (c 1), .muladd (m 8) (c 2), .extract,
   .sumadd (m 3), .muladd (m 11) (c 0), .muladd (m 10) (c 1), .muladd (m 9) (c 2),
   .muladd (m 8) (c 3), .extract,
   .sumadd (m 4), .muladd (m 12) (c 0), .muladd (m 11) (c 1), .muladd (m 10) (c 2),
   .muladd (m 9) (c 3), .sumadd (m 8), .extract,
   .sumadd (m 5), .muladd (m 12) (c 1), .muladd (m 11) (c 2), .muladd (m 10) (c 3),
   .sumadd (m 9), .extract,
   .sumadd (m 6), .muladd (m 12) (c 2), .muladd (m 11) (c 3), .sumadd (m 10), .extract,
   .sumaddFast (m 7), .muladdFast (m 12) (c 3), .sumaddFast (m 11), .extractFast]

end

/-- The limbs `SECP256K1_N_C_0` to `SECP256K1_N_C_3`; the products with the fifth are sums. -/
def orderC03 : Fin 4 → U32 := ![orderC 0, orderC 1, orderC 2, orderC 3]

/-- The 96 bit accumulator of the products. -/
def run96 (ops : List (AccOp U32)) : (Fin 16 → U32) × Bool :=
  let r := (Acc.init 0 : Acc 32 32).run ops
  (Acc.words 16 r, r.1.ok && r.1.c1 = 0)

def scalarMul512 (a b : Scalar) : (Fin 16 → U32) × Bool := run96 (mul512Ops a b)

def scalarSqr512 (a : Scalar) : (Fin 16 → U32) × Bool := run96 (sqr512Ops a)

/-- Reduce 512 bits into 385: `m0` to `m12`. -/
def reduce385 (l : Fin 16 → U32) : (Fin 13 → U32) × Bool :=
  let r := (Acc.init (l 0) : Acc 32 32).run (reduce385Ops
    ![l 0, l 1, l 2, l 3, l 4, l 5, l 6, l 7]
    ![l 8, l 9, l 10, l 11, l 12, l 13, l 14, l 15] orderC03)
  (Acc.words 13 r, r.1.ok && r.1.c0 ≤ 1)

/-- Reduce 385 bits into 258: `p0` to `p7`, and `p8`. -/
def reduce258 (m : Fin 13 → U32) : (Fin 8 → U32) × U32 × Bool :=
  let r := (Acc.init (m 0) : Acc 32 32).run (reduce258Ops m orderC03)
  let p8 := r.1.c0 + m 12
  (Limbs.ofList 8 r.2, p8, r.1.ok && p8 ≤ 2)

/-- Reduce 258 bits into 256, and the final reduction. -/
def reduce256 (p : Fin 8 → U32) (p8 : U32) : Scalar :=
  let (r, c) := Limbs.carry 0 ![wide (p 0) + wide (orderC 0) * wide p8,
    wide (p 1) + wide (orderC 1) * wide p8, wide (p 2) + wide (orderC 2) * wide p8,
    wide (p 3) + wide (orderC 3) * wide p8, wide (p 4) + wide p8, wide (p 5), wide (p 6),
    wide (p 7)]
  scalarReduce r ((c + (scalarCheckOverflow r).signExtend (2 * 32)).setWidth 32)

def scalarReduce512 (l : Fin 16 → U32) : Scalar × Bool :=
  let (m, okm) := reduce385 l
  let (p, p8, okp) := reduce258 m
  (reduce256 p p8, okm && okp)

def scalarMul (a b : Scalar) : Scalar × Bool := productReduced scalarReduce512 (scalarMul512 a b)

def scalarSqr (a : Scalar) : Scalar × Bool := productReduced scalarReduce512 (scalarSqr512 a)

end Secp256k1.Scalar8x32
