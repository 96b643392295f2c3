import Secp256k1.Group.Impl

/-!
# Tables of points

The routines of `field_impl.h` and `group_impl.h` that work on arrays. An array is a function from
indices, and a routine returns the array it was given with the entries it wrote.
-/

namespace Secp256k1

variable {F : Type} (B : FieldOps F)

/-- `while (++i < len) secp256k1_fe_mul(&r[i], &r[i - 1], &a[i])`, `k` times from `i` on. -/
def invAllForward (a : ℕ → F) : ℕ → ℕ → (ℕ → F) → Option (ℕ → F)
  | 0, _, r => some r
  | k + 1, i, r => do
    let x ← B.mul (r (i - 1)) (a i)
    invAllForward a k (i + 1) (Function.update r i x)

/-- The second loop, and `r[0] = u` at its end. -/
def invAllBackward (a : ℕ → F) : ℕ → (ℕ → F) → F → Option (ℕ → F)
  | 0, r, u => some (Function.update r 0 u)
  | i + 1, r, u => do
    let x ← B.mul (r i) u
    let u ← B.mul u (a (i + 1))
    invAllBackward a i (Function.update r (i + 1) x) u

def feInvAllVar (r a : ℕ → F) (len : ℕ) : Option (ℕ → F) :=
  if len < 1 then some r
  else do
    let r ← invAllForward B a (len - 1) 1 (Function.update r 0 (a 0))
    let u ← feInvVar B (r (len - 1))
    invAllBackward B a (len - 1) r u

/-- The z coordinates of the finite points, from the index `i` on, and their number. -/
def collectZ (a : ℕ → Gej F) : ℕ → ℕ → (ℕ → F) → ℕ → (ℕ → F) × ℕ
  | 0, _, az, count => (az, count)
  | k + 1, i, az, count =>
    if (a i).infinity then collectZ a k (i + 1) az count
    else collectZ a k (i + 1) (Function.update az count (a i).z) (count + 1)

def setAllLoop (a : ℕ → Gej F) (azi : ℕ → F) : ℕ → ℕ → (ℕ → Ge F) → ℕ → Option (ℕ → Ge F)
  | 0, _, r, _ => some r
  | k + 1, i, r, count =>
    if (a i).infinity then
      setAllLoop a azi k (i + 1) (Function.update r i { r i with infinity := true }) count
    else do
      let q ← geSetGejZinv B (a i) (azi count)
      setAllLoop a azi k (i + 1) (Function.update r i q) (count + 1)

/-- `az` and `azi` are the contents of the memory that is allocated. -/
def geSetAllGejVar (az azi : ℕ → F) (r : ℕ → Ge F) (a : ℕ → Gej F) (len : ℕ) :
    Option (ℕ → Ge F) := do
  let (az, count) := collectZ a len 0 az 0
  let azi ← feInvAllVar B azi az count
  setAllLoop B a azi len 0 r 0

def setTableLoop (a : ℕ → Gej F) (zr : ℕ → F) : ℕ → (ℕ → Ge F) → F → Option (ℕ → Ge F)
  | 0, r, _ => some r
  | i + 1, r, zi => do
    let zi ← B.mul zi (zr (i + 1))
    let q ← geSetGejZinv B (a i) zi
    setTableLoop a zr i (Function.update r i q) zi

def geSetTableGejVar (r : ℕ → Ge F) (a : ℕ → Gej F) (zr : ℕ → F) (len : ℕ) :
    Option (ℕ → Ge F) :=
  if len > 0 then do
    let i := len - 1
    let zi ← feInv B (a i).z
    let q ← geSetGejZinv B (a i) zi
    setTableLoop B a zr i (Function.update r i q) zi
  else some r

def globalzLoop (len : ℕ) (a : ℕ → Gej F) (zr : ℕ → F) :
    ℕ → (ℕ → Ge F) → F → Option (ℕ → Ge F)
  | 0, r, _ => some r
  | i + 1, r, zs => do
    let zs ← if i + 1 ≠ len - 1 then B.mul zs (zr (i + 1)) else some zs
    let q ← geSetGejZinv B (a i) zs
    globalzLoop len a zr i (Function.update r i q) zs

/-- The table and the common z coordinate. -/
def geGlobalzSetTableGej (len : ℕ) (r : ℕ → Ge F) (globalz : F) (a : ℕ → Gej F) (zr : ℕ → F) :
    Option ((ℕ → Ge F) × F) :=
  if len > 0 then do
    let i := len - 1
    let r ← globalzLoop B len a zr i (Function.update r i ⟨(a i).x, (a i).y, false⟩) (zr i)
    return (r, (a i).z)
  else some (r, globalz)

end Secp256k1
