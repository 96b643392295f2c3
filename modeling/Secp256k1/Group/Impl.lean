import Secp256k1.Field.Impl

/-!
# The group code

`group_impl.h`, over the operations of `field.h`. A routine that writes through `r` returns what it
wrote; where it leaves a field of `r` alone it takes the old value as an argument, so that an
element no step has written stays what the memory held. A pointer `rzr` that may be null is an
`Option`. Every routine reads what it needs of an operand before it writes the same field of the
result, so calls with `r` equal to `a` compute the same.
-/

namespace Secp256k1

structure Ge (F : Type) where
  x : F
  y : F
  infinity : Bool
  deriving DecidableEq, Repr

structure Gej (F : Type) where
  x : F
  y : F
  z : F
  infinity : Bool
  deriving DecidableEq, Repr

structure GeStorage where
  x : FeStorage
  y : FeStorage
  deriving DecidableEq, Repr

variable {F : Type} (B : FieldOps F)

/-- `secp256k1_ge_const_g`. -/
def geConstG : Ge F where
  x := B.const 0x79BE667E 0xF9DCBBAC 0x55A06295 0xCE870B07 0x029BFCDB 0x2DCE28D9 0x59F2815B
    0x16F81798
  y := B.const 0x483ADA77 0x26A3C465 0x5DA4FBFC 0x0E1108A8 0xFD17B448 0xA6855419 0x9C47D08F
    0xFB10D4B8
  infinity := false

/-- `CURVE_B`. -/
def curveB : CInt := 7

def geSetGejZinv (a : Gej F) (zi : F) : Option (Ge F) := do
  let zi2 ← B.sqr zi
  let zi3 ← B.mul zi2 zi
  let x ← B.mul a.x zi2
  let y ← B.mul a.y zi3
  return ⟨x, y, a.infinity⟩

def geSetXy (x y : F) : Ge F := ⟨x, y, false⟩

def geNeg (a : Ge F) : Option (Ge F) := do
  let y ← B.normalizeWeak a.y
  let y ← B.negate y 1
  return { a with y }

/-- The affine point, and the operand as it is left. -/
def geSetGej (a : Gej F) : Option (Ge F × Gej F) := do
  let z ← feInv B a.z
  let z2 ← B.sqr z
  let z3 ← B.mul z z2
  let x ← B.mul a.x z2
  let y ← B.mul a.y z3
  return (⟨x, y, a.infinity⟩, ⟨x, y, B.setInt 1, a.infinity⟩)

def geSetGejVar (r : Ge F) (a : Gej F) : Option (Ge F × Gej F) :=
  if a.infinity then some ({ r with infinity := a.infinity }, a)
  else do
    let z ← feInvVar B a.z
    let z2 ← B.sqr z
    let z3 ← B.mul z z2
    let x ← B.mul a.x z2
    let y ← B.mul a.y z3
    return (⟨x, y, a.infinity⟩, ⟨x, y, B.setInt 1, a.infinity⟩)

def gejSetInfinity : Gej F := ⟨B.clear, B.clear, B.clear, true⟩

def geClear : Ge F := ⟨B.clear, B.clear, false⟩

/-- The point written and the value returned. -/
def geSetXquad (x : F) : Option (Ge F × Bool) := do
  let x2 ← B.sqr x
  let x3 ← B.mul x x2
  let c ← B.add (B.setInt curveB) x3
  let (y, ok) ← feSqrt B c
  return (⟨x, y, false⟩, ok)

def geSetXoVar (x : F) (odd : Bool) : Option (Ge F × Bool) := do
  let (r, ok) ← geSetXquad B x
  if !ok then return (r, false)
  else
    let y ← B.normalizeVar r.y
    if B.isOdd y != odd then
      let y ← B.negate y 1
      return ({ r with y }, true)
    else return ({ r with y }, true)

def gejSetGe (a : Ge F) : Gej F := ⟨a.x, a.y, B.setInt 1, a.infinity⟩

def gejEqXVar (x : F) (a : Gej F) : Option Bool := do
  let r ← B.sqr a.z
  let r ← B.mul r x
  let r2 ← B.normalizeWeak a.x
  feEqualVar B r r2

def gejNeg (a : Gej F) : Option (Gej F) := do
  let y ← B.normalizeWeak a.y
  let y ← B.negate y 1
  return { a with y }

def geIsValidVar (a : Ge F) : Option Bool :=
  if a.infinity then some false
  else do
    let y2 ← B.sqr a.y
    let x3 ← B.sqr a.x
    let x3 ← B.mul x3 a.x
    let x3 ← B.add x3 (B.setInt curveB)
    let x3 ← B.normalizeWeak x3
    feEqualVar B y2 x3

/-- The product of the z coordinate that doubling reports through `rzr`. -/
def doubleRzr (a : Gej F) (rzr : Option F) : Option (Option F) :=
  match rzr with
  | none => some none
  | some _ => do
    let z ← B.normalizeWeak a.y
    let z ← B.mulInt z 2
    return some z

def gejDoubleVar (r a : Gej F) (rzr : Option F) : Option (Gej F × Option F) :=
  if a.infinity then some ({ r with infinity := true }, rzr.map fun _ => B.setInt 1)
  else do
    let rzr ← doubleRzr B a rzr
    let z ← B.mul a.z a.y
    let z ← B.mulInt z 2
    let t1 ← B.sqr a.x
    let t1 ← B.mulInt t1 3
    let t2 ← B.sqr t1
    let t3 ← B.sqr a.y
    let t3 ← B.mulInt t3 2
    let t4 ← B.sqr t3
    let t4 ← B.mulInt t4 2
    let t3 ← B.mul t3 a.x
    let x ← B.mulInt t3 4
    let x ← B.negate x 4
    let x ← B.add x t2
    let t2 ← B.negate t2 1
    let t3 ← B.mulInt t3 6
    let t3 ← B.add t3 t2
    let y ← B.mul t1 t3
    let t2 ← B.negate t4 2
    let y ← B.add y t2
    return (⟨x, y, z, false⟩, rzr)

/-- The end the three addition formulas share: `r->x` and `r->y` of the sum. -/
def addXy (u1 s1 h2 h3 i i2 : F) : Option (F × F) := do
  let t ← B.mul u1 h2
  let x ← B.mulInt t 2
  let x ← B.add x h3
  let x ← B.negate x 3
  let x ← B.add x i2
  let y ← B.negate x 5
  let y ← B.add y t
  let y ← B.mul y i
  let h3 ← B.mul h3 s1
  let h3 ← B.negate h3 1
  let y ← B.add y h3
  return (x, y)

def gejAddVar (r a b : Gej F) (rzr : Option F) : Option (Gej F × Option F) :=
  if a.infinity then some (b, rzr)
  else if b.infinity then some (a, rzr.map fun _ => B.setInt 1)
  else do
    let z22 ← B.sqr b.z
    let z12 ← B.sqr a.z
    let u1 ← B.mul a.x z22
    let u2 ← B.mul b.x z12
    let s1 ← B.mul a.y z22
    let s1 ← B.mul s1 b.z
    let s2 ← B.mul b.y z12
    let s2 ← B.mul s2 a.z
    let h ← B.negate u1 1
    let h ← B.add h u2
    let i ← B.negate s1 1
    let i ← B.add i s2
    if ← B.normalizesToZeroVar h then
      if ← B.normalizesToZeroVar i then gejDoubleVar B r a rzr
      else return ({ r with infinity := true }, rzr.map fun _ => B.setInt 0)
    else
      let i2 ← B.sqr i
      let h2 ← B.sqr h
      let h3 ← B.mul h h2
      let h ← B.mul h b.z
      let z ← B.mul a.z h
      let (x, y) ← addXy B u1 s1 h2 h3 i i2
      return (⟨x, y, z, false⟩, rzr.map fun _ => h)

def gejAddGeVar (r a : Gej F) (b : Ge F) (rzr : Option F) : Option (Gej F × Option F) :=
  if a.infinity then some (gejSetGe B b, rzr)
  else if b.infinity then some (a, rzr.map fun _ => B.setInt 1)
  else do
    let z12 ← B.sqr a.z
    let u1 ← B.normalizeWeak a.x
    let u2 ← B.mul b.x z12
    let s1 ← B.normalizeWeak a.y
    let s2 ← B.mul b.y z12
    let s2 ← B.mul s2 a.z
    let h ← B.negate u1 1
    let h ← B.add h u2
    let i ← B.negate s1 1
    let i ← B.add i s2
    if ← B.normalizesToZeroVar h then
      if ← B.normalizesToZeroVar i then gejDoubleVar B r a rzr
      else return ({ r with infinity := true }, rzr.map fun _ => B.setInt 0)
    else
      let i2 ← B.sqr i
      let h2 ← B.sqr h
      let h3 ← B.mul h h2
      let z ← B.mul a.z h
      let (x, y) ← addXy B u1 s1 h2 h3 i i2
      return (⟨x, y, z, false⟩, rzr.map fun _ => h)

def gejAddZinvVar (r a : Gej F) (b : Ge F) (bzinv : F) : Option (Gej F) :=
  if b.infinity then some a
  else if a.infinity then do
    let bzinv2 ← B.sqr bzinv
    let bzinv3 ← B.mul bzinv2 bzinv
    let x ← B.mul b.x bzinv2
    let y ← B.mul b.y bzinv3
    return ⟨x, y, B.setInt 1, b.infinity⟩
  else do
    let az ← B.mul a.z bzinv
    let z12 ← B.sqr az
    let u1 ← B.normalizeWeak a.x
    let u2 ← B.mul b.x z12
    let s1 ← B.normalizeWeak a.y
    let s2 ← B.mul b.y z12
    let s2 ← B.mul s2 az
    let h ← B.negate u1 1
    let h ← B.add h u2
    let i ← B.negate s1 1
    let i ← B.add i s2
    if ← B.normalizesToZeroVar h then
      if ← B.normalizesToZeroVar i then
        let (r, _) ← gejDoubleVar B r a none
        return r
      else return { r with infinity := true }
    else
      let i2 ← B.sqr i
      let h2 ← B.sqr h
      let h3 ← B.mul h h2
      let z ← B.mul a.z h
      let (x, y) ← addXy B u1 s1 h2 h3 i i2
      return ⟨x, y, z, false⟩

def gejAddGe (a : Gej F) (b : Ge F) : Option (Gej F) := do
  let zz ← B.sqr a.z
  let u1 ← B.normalizeWeak a.x
  let u2 ← B.mul b.x zz
  let s1 ← B.normalizeWeak a.y
  let s2 ← B.mul b.y zz
  let s2 ← B.mul s2 a.z
  let t ← B.add u1 u2
  let m ← B.add s1 s2
  let rr ← B.sqr t
  let mAlt ← B.negate u2 1
  let tt ← B.mul u1 mAlt
  let rr ← B.add rr tt
  let mZero ← B.normalizesToZero m
  let rrZero ← B.normalizesToZero rr
  let degenerate := mZero && rrZero
  let rrAlt ← B.mulInt s1 2
  let mAlt ← B.add mAlt u1
  let rrAlt := B.cmov rrAlt rr (ofBool !degenerate)
  let mAlt := B.cmov mAlt m (ofBool !degenerate)
  let n ← B.sqr mAlt
  let q ← B.mul n t
  let n ← B.sqr n
  let n := B.cmov n m (ofBool degenerate)
  let t ← B.sqr rrAlt
  let z ← B.mul a.z mAlt
  let zZero ← B.normalizesToZero z
  let infinity := zZero && !a.infinity
  let z ← B.mulInt z 2
  let q ← B.negate q 1
  let t ← B.add t q
  let t ← B.normalizeWeak t
  let x := t
  let t ← B.mulInt t 2
  let t ← B.add t q
  let t ← B.mul t rrAlt
  let t ← B.add t n
  let y ← B.negate t 3
  let y ← B.normalizeWeak y
  let x ← B.mulInt x 4
  let y ← B.mulInt y 4
  return ⟨B.cmov x b.x (ofBool a.infinity), B.cmov y b.y (ofBool a.infinity),
    B.cmov z (B.const 0 0 0 0 0 0 0 1) (ofBool a.infinity), infinity⟩

def gejRescale (r : Gej F) (s : F) : Option (Gej F) := do
  let zz ← B.sqr s
  let x ← B.mul r.x zz
  let y ← B.mul r.y zz
  let y ← B.mul y s
  let z ← B.mul r.z s
  return ⟨x, y, z, r.infinity⟩

def geToStorage (a : Ge F) : Option GeStorage := do
  let x ← B.normalize a.x
  let y ← B.normalize a.y
  return ⟨B.toStorage x, B.toStorage y⟩

def geFromStorage (a : GeStorage) : Ge F := ⟨B.fromStorage a.x, B.fromStorage a.y, false⟩

def geStorageCmov (r a : GeStorage) (flag : CInt) : GeStorage :=
  ⟨B.storageCmov r.x a.x flag, B.storageCmov r.y a.y flag⟩

end Secp256k1
