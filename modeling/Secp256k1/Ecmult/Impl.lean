import Secp256k1.Group.Tables
import Secp256k1.Scalar.Ops

/-!
# Point multiplication

`ecmult_impl.h`, without the endomorphism. A routine takes what its local variables hold when it
starts, since the table building may leave an entry unwritten that is read afterwards.
-/

namespace Secp256k1

def windowA : ℕ := 5

def windowG : ℕ := 16

def ecmultTableSize (w : ℕ) : ℕ := 2 ^ (w - 2)

structure TableMemory (F : Type) where
  prej : ℕ → Gej F
  zr : ℕ → F
  d : Gej F

/-- The local variables of `secp256k1_ecmult` and of the table building it calls. -/
structure EcmultMemory (F : Type) extends TableMemory F where
  preA : ℕ → Ge F
  globalZ : F

/-! ## Odd multiples -/

section

variable {F : Type} (B : FieldOps F)

def oddMultiplesLoop (dGe : Ge F) :
    ℕ → ℕ → (ℕ → Gej F) → (ℕ → F) → Option ((ℕ → Gej F) × (ℕ → F))
  | 0, _, prej, zr => some (prej, zr)
  | k + 1, i, prej, zr => do
    let (r, rzr) ← gejAddGeVar B (prej i) (prej (i - 1)) dGe (some (zr i))
    oddMultiplesLoop dGe k (i + 1) (Function.update prej i r)
      (Function.update zr i (rzr.getD (zr i)))

def ecmultOddMultiplesTable (n : ℕ) (mem : TableMemory F) (a : Gej F) :
    Option ((ℕ → Gej F) × (ℕ → F)) := do
  let (d, _) ← gejDoubleVar B mem.d a none
  let dGe : Ge F := ⟨d.x, d.y, false⟩
  let aGe ← geSetGejZinv B a d.z
  let (prej, zr) ← oddMultiplesLoop B dGe (n - 1) 1
    (Function.update mem.prej 0 ⟨aGe.x, aGe.y, a.z, false⟩) (Function.update mem.zr 0 d.z)
  let z ← B.mul (prej (n - 1)).z d.z
  return (Function.update prej (n - 1) { prej (n - 1) with z }, zr)

def ecmultOddMultiplesTableGlobalzWindowa (mem : EcmultMemory F) (a : Gej F) :
    Option ((ℕ → Ge F) × F) := do
  let (prej, zr) ← ecmultOddMultiplesTable B (ecmultTableSize windowA) mem.toTableMemory a
  geGlobalzSetTableGej B (ecmultTableSize windowA) mem.preA mem.globalZ prej zr

def toStorageLoop (prea : ℕ → Ge F) : ℕ → ℕ → (ℕ → GeStorage) → Option (ℕ → GeStorage)
  | 0, _, pre => some pre
  | k + 1, i, pre => do
    let s ← geToStorage B (prea i)
    toStorageLoop prea k (i + 1) (Function.update pre i s)

def ecmultOddMultiplesTableStorageVar (n : ℕ) (mem : TableMemory F) (prea : ℕ → Ge F)
    (pre : ℕ → GeStorage) (a : Gej F) : Option (ℕ → GeStorage) := do
  let (prej, zr) ← ecmultOddMultiplesTable B n mem a
  let prea ← geSetTableGejVar B prea prej zr n
  toStorageLoop B prea n 0 pre

def ecmultTableGetGe (pre : ℕ → Ge F) (n : ℤ) : Option (Ge F) :=
  if n > 0 then some (pre ((n - 1) / 2).toNat)
  else geNeg B (pre ((-n - 1) / 2).toNat)

def ecmultTableGetGeStorage (pre : ℕ → GeStorage) (n : ℤ) : Option (Ge F) :=
  if n > 0 then some (geFromStorage B (pre ((n - 1) / 2).toNat))
  else geNeg B (geFromStorage B (pre ((-n - 1) / 2).toNat))

/-- The table that `secp256k1_ecmult_context_build` leaves in the context. -/
def ecmultContextBuild (mem : TableMemory F) (prea : ℕ → Ge F) (pre : ℕ → GeStorage) :
    Option (ℕ → GeStorage) :=
  ecmultOddMultiplesTableStorageVar B (ecmultTableSize windowG) mem prea pre
    (gejSetGe B (geConstG B))

end

/-! ## Digits -/

section

variable {S : Type} (O : ScalarOps S)

/-- The loop of `secp256k1_ecmult_wnaf`; `bit` grows on every turn, `fuel` is a bound on them. -/
def wnafLoop (len w : ℕ) (s : S) (sign : ℤ) :
    ℕ → ℕ → ℕ → (ℕ → ℤ) → ℤ → (ℕ → ℤ) × ℤ
  | 0, _, _, wnaf, lastSetBit => (wnaf, lastSetBit)
  | fuel + 1, bit, carry, wnaf, lastSetBit =>
    if bit < len then
      if (O.getBits s bit 1).toNat = carry then
        wnafLoop len w s sign fuel (bit + 1) carry wnaf lastSetBit
      else
        let now := min w (len - bit)
        let word := (O.getBitsVar s bit now).toNat + carry
        let carry := word / 2 ^ (w - 1) % 2
        let digit := sign * ((word : ℤ) - carry * 2 ^ w)
        wnafLoop len w s sign fuel (bit + now) carry (Function.update wnaf bit digit) bit
    else (wnaf, lastSetBit)

def ecmultWnaf (len : ℕ) (a : S) (w : ℕ) : (ℕ → ℤ) × ℕ :=
  let top := (O.getBits a 255 1).toNat ≠ 0
  let s := if top then O.negate a else a
  let sign := if top then -1 else 1
  let (wnaf, lastSetBit) := wnafLoop O len w s sign len 0 0 (fun _ => 0) (-1)
  (wnaf, (lastSetBit + 1).toNat)

end

/-! ## The multiplication -/

section

variable {F S : Type} (B : FieldOps F) (O : ScalarOps S)

/-- The digit of `na` at the index `i`, when there is one. -/
def ecmultAddA (preA : ℕ → Ge F) (wnafNa : ℕ → ℤ) (bitsNa i : ℕ) (r : Gej F) : Option (Gej F) :=
  if i < bitsNa ∧ wnafNa i ≠ 0 then do
    let tmpa ← ecmultTableGetGe B preA (wnafNa i)
    let (r, _) ← gejAddGeVar B r r tmpa none
    return r
  else some r

def ecmultAddG (preG : ℕ → GeStorage) (globalZ : F) (wnafNg : ℕ → ℤ) (bitsNg i : ℕ) (r : Gej F) :
    Option (Gej F) :=
  if i < bitsNg ∧ wnafNg i ≠ 0 then do
    let tmpa ← ecmultTableGetGeStorage B preG (wnafNg i)
    gejAddZinvVar B r r tmpa globalZ
  else some r

def ecmultLoop (preA : ℕ → Ge F) (globalZ : F) (preG : ℕ → GeStorage) (wnafNa : ℕ → ℤ) (bitsNa : ℕ)
    (wnafNg : ℕ → ℤ) (bitsNg : ℕ) : ℕ → Gej F → Option (Gej F)
  | 0, r => some r
  | i + 1, r => do
    let (r, _) ← gejDoubleVar B r r none
    let r ← ecmultAddA B preA wnafNa bitsNa i r
    let r ← ecmultAddG B preG globalZ wnafNg bitsNg i r
    ecmultLoop preA globalZ preG wnafNa bitsNa wnafNg bitsNg i r

def ecmult (preG : ℕ → GeStorage) (mem : EcmultMemory F) (a : Gej F) (na ng : S) :
    Option (Gej F) := do
  let (wnafNa, bitsNa) := ecmultWnaf O 256 na windowA
  let (preA, globalZ) ← ecmultOddMultiplesTableGlobalzWindowa B mem a
  let (wnafNg, bitsNg) := ecmultWnaf O 256 ng windowG
  let r ← ecmultLoop B preA globalZ preG wnafNa bitsNa wnafNg bitsNg (max bitsNa bitsNg)
    (gejSetInfinity B)
  if r.infinity then return r
  else
    let z ← B.mul r.z globalZ
    return { r with z }

end

end Secp256k1
