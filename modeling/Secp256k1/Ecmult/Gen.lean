import Secp256k1.Ecmult.Impl
import Secp256k1.Hash.Rfc6979

/-!
# Multiplication of the generator

`ecmult_gen_impl.h`, without static tables. `ecmultGenBlind` takes the outputs that the blinding
values are drawn from as a parameter, in the order in which they are drawn, and a bound on the
number of draws of its two loops; at the end it is given the generator of `hash_impl.h`.
-/

namespace Secp256k1

structure EcmultGenContext (F S : Type) where
  prec : ℕ → ℕ → GeStorage
  blind : S
  initial : Gej F

section

variable {F S : Type} (B : FieldOps F) (O : ScalarOps S)

/-- The conditional moves over `k` entries of a row, from the index `i` on. -/
def genSelect (row : ℕ → GeStorage) (bits : BitVec 32) : ℕ → ℕ → GeStorage → GeStorage
  | 0, _, adds => adds
  | k + 1, i, adds =>
    genSelect row bits k (i + 1) (geStorageCmov B adds (row i) (ofBool (i = bits.toNat)))

/-- `k` rows from the index `j` on. -/
def genLoop (prec : ℕ → ℕ → GeStorage) (gnb : S) : ℕ → ℕ → GeStorage → Gej F → Option (Gej F)
  | 0, _, _, r => some r
  | k + 1, j, adds, r => do
    let adds := genSelect B (prec j) (O.getBits gnb (j * 4) 4) 16 0 adds
    let r ← gejAddGe B r (geFromStorage B adds)
    genLoop prec gnb k (j + 1) adds r

def ecmultGen (ctx : EcmultGenContext F S) (gn : S) : Option (Gej F) :=
  genLoop B O ctx.prec (O.add gn ctx.blind).1 64 0 ⟨⟨0, 0, 0, 0⟩, ⟨0, 0, 0, 0⟩⟩ ctx.initial

/-! ## Blinding -/

/-- The scale, and the number of outputs drawn so far. -/
def blindScale (rng : ℕ → Fin 32 → Byte) : ℕ → ℕ → Option (F × ℕ)
  | 0, _ => none
  | fuel + 1, i =>
    let (s, ok) := B.setB32 (rng i)
    if !ok || B.isZero s then blindScale rng fuel (i + 1) else some (s, i + 1)

def blindScalar (rng : ℕ → Fin 32 → Byte) : ℕ → ℕ → Option S
  | 0, _ => none
  | fuel + 1, i =>
    let (b, retry) := O.setB32 (rng i)
    if retry ≠ 0 || O.isZero b then blindScalar rng fuel (i + 1) else some b

/-- Without a seed the initial point and the blinding value are reset. -/
def blindReset (ctx : EcmultGenContext F S) :
    Option (Fin 32 → Byte) → Option (EcmultGenContext F S)
  | none => do
    let initial ← gejNeg B (gejSetGe B (geConstG B))
    return { ctx with initial, blind := O.setInt 1 }
  | some _ => some ctx

/-- `rng` gives the outputs for the key data the generator is started with. -/
def ecmultGenBlind (rng : List Byte → ℕ → Fin 32 → Byte) (fuel : ℕ) (ctx : EcmultGenContext F S)
    (seed32 : Option (Fin 32 → Byte)) : Option (EcmultGenContext F S) := do
  let ctx ← blindReset B O ctx seed32
  let keydata := List.ofFn (O.getB32 ctx.blind) ++ (seed32.map List.ofFn).getD []
  let (s, i) ← blindScale B (rng keydata) fuel 0
  let initial ← gejRescale B ctx.initial s
  let b ← blindScalar O (rng keydata) fuel i
  let gb ← ecmultGen B O { ctx with initial } b
  return { ctx with blind := O.negate b, initial := gb }

/-! ## Building the table -/

/-- The local variables and the allocated memory of `secp256k1_ecmult_gen_context_build`. -/
structure GenMemory (F S : Type) where
  prec : ℕ → Ge F
  precj : ℕ → Gej F
  az : ℕ → F
  azi : ℕ → F
  ctx : EcmultGenContext F S

/-- `"The scalar for this x is unknown"`. -/
def numsB32 : Fin 32 → Byte := fun i =>
  BitVec.ofNat 8 ("The scalar for this x is unknown".toList.getD i default).toNat

def numsGej : Option (Gej F) := do
  let (numsGe, _) ← geSetXoVar B (B.setB32 numsB32).1 false
  let (r, _) ← gejAddGeVar B (gejSetGe B numsGe) (gejSetGe B numsGe) (geConstG B) none
  return r

/-- `k` entries of a row, each the one before it plus `gbase`. -/
def precRow (gbase : Gej F) : ℕ → ℕ → (ℕ → Gej F) → Option (ℕ → Gej F)
  | 0, _, precj => some precj
  | k + 1, i, precj => do
    let (r, _) ← gejAddVar B (precj i) (precj (i - 1)) gbase none
    precRow gbase k (i + 1) (Function.update precj i r)

def doubleTimes : ℕ → Gej F → Option (Gej F)
  | 0, a => some a
  | k + 1, a => do
    let (a, _) ← gejDoubleVar B a a none
    doubleTimes k a

def precNums (numsGej : Gej F) (j : ℕ) (numsbase : Gej F) : Option (Gej F) := do
  let (numsbase, _) ← gejDoubleVar B numsbase numsbase none
  if j = 62 then
    let numsbase ← gejNeg B numsbase
    let (r, _) ← gejAddVar B numsbase numsbase numsGej none
    return r
  else return numsbase

/-- `k` rows from the index `j` on. -/
def precLoop (numsGej : Gej F) :
    ℕ → ℕ → Gej F → Gej F → (ℕ → Gej F) → Option (ℕ → Gej F)
  | 0, _, _, _, precj => some precj
  | k + 1, j, gbase, numsbase, precj => do
    let precj ← precRow B gbase 15 (j * 16 + 1) (Function.update precj (j * 16) numsbase)
    let gbase ← doubleTimes B 4 gbase
    let numsbase ← precNums B numsGej j numsbase
    precLoop numsGej k (j + 1) gbase numsbase precj

def ecmultGenContextBuild (rng : List Byte → ℕ → Fin 32 → Byte) (fuel : ℕ) (mem : GenMemory F S) :
    Option (EcmultGenContext F S) := do
  let nums ← numsGej B
  let precj ← precLoop B nums 64 0 (gejSetGe B (geConstG B)) nums mem.precj
  let prec ← geSetAllGejVar B mem.az mem.azi mem.prec precj 1024
  let table ← toStorageLoop B prec 1024 0 fun i => mem.ctx.prec (i / 16) (i % 16)
  ecmultGenBlind B O rng fuel { mem.ctx with prec := fun j i => table (j * 16 + i) } none

/-! ## The draws of the source -/

/-- `secp256k1_ecmult_gen_blind`; `sha256` and `hmac` are what the memory of its contexts holds. -/
def ecmultGenBlindRfc6979 (sha256 : Sha256) (hmac : HmacSha256) (fuel : ℕ)
    (ctx : EcmultGenContext F S) (seed32 : Option (Fin 32 → Byte)) :
    Option (EcmultGenContext F S) :=
  ecmultGenBlind B O (rfc6979Draw sha256 hmac) fuel ctx seed32

def ecmultGenContextBuildRfc6979 (sha256 : Sha256) (hmac : HmacSha256) (fuel : ℕ)
    (mem : GenMemory F S) : Option (EcmultGenContext F S) :=
  ecmultGenContextBuild B O (rfc6979Draw sha256 hmac) fuel mem

end

end Secp256k1
