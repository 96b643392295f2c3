import Secp256k1.Field.Ops

/-!
# Field code above the backends

`field_impl.h` but for the batch inverse: comparison, square root and inverse, written against the
operations of `field.h`.
-/

namespace Secp256k1

variable {F : Type} (B : FieldOps F)

def feEqual (a b : F) : Option Bool := do
  let na ← B.negate a 1
  let na ← B.add na b
  B.normalizesToZero na

def feEqualVar (a b : F) : Option Bool := do
  let na ← B.negate a 1
  let na ← B.add na b
  B.normalizesToZeroVar na

/-- `for (j=0; j<k; j++) secp256k1_fe_sqr(&x, &x)`. -/
def sqrN : ℕ → F → Option F
  | 0, x => some x
  | k + 1, x => do
    let x ← B.sqr x
    sqrN k x

/-- The powers the two addition chains share: `x2`, `x22` and `x223`, where `xk` is `a` to the
power `2 ^ k - 1`. -/
def chain223 (a : F) : Option (F × F × F) := do
  let x2 ← B.sqr a
  let x2 ← B.mul x2 a
  let x3 ← B.sqr x2
  let x3 ← B.mul x3 a
  let x6 ← sqrN B 3 x3
  let x6 ← B.mul x6 x3
  let x9 ← sqrN B 3 x6
  let x9 ← B.mul x9 x3
  let x11 ← sqrN B 2 x9
  let x11 ← B.mul x11 x2
  let x22 ← sqrN B 11 x11
  let x22 ← B.mul x22 x11
  let x44 ← sqrN B 22 x22
  let x44 ← B.mul x44 x22
  let x88 ← sqrN B 44 x44
  let x88 ← B.mul x88 x44
  let x176 ← sqrN B 88 x88
  let x176 ← B.mul x176 x88
  let x220 ← sqrN B 44 x176
  let x220 ← B.mul x220 x44
  let x223 ← sqrN B 3 x220
  let x223 ← B.mul x223 x3
  return (x2, x22, x223)

/-- The element written and the value returned. -/
def feSqrt (a : F) : Option (F × Bool) := do
  let (x2, x22, x223) ← chain223 B a
  let t1 ← sqrN B 23 x223
  let t1 ← B.mul t1 x22
  let t1 ← sqrN B 6 t1
  let t1 ← B.mul t1 x2
  let t1 ← B.sqr t1
  let r ← B.sqr t1
  let t1 ← B.sqr r
  let ok ← feEqual B t1 a
  return (r, ok)

def feInv (a : F) : Option F := do
  let (x2, x22, x223) ← chain223 B a
  let t1 ← sqrN B 23 x223
  let t1 ← B.mul t1 x22
  let t1 ← sqrN B 5 t1
  let t1 ← B.mul t1 a
  let t1 ← sqrN B 3 t1
  let t1 ← B.mul t1 x2
  let t1 ← sqrN B 2 t1
  B.mul a t1

/-- With `USE_FIELD_INV_BUILTIN`. -/
def feInvVar (a : F) : Option F := feInv B a

end Secp256k1
