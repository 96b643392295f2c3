import Secp256k1.Scalar.Ops

/-!
# Signatures in DER

The parser of `ecdsa_impl.h`, with its local changes: the checks for the shortest form of a length
are compiled out. A pointer into the input together with the end of the input is the list of the
bytes between them; reading where that list has ended is a `Fault`. `w` is the width of `size_t`.
-/

namespace Secp256k1.Der

/-- A read at or after the end of the input. -/
inductive Fault where
  | overread
  deriving DecidableEq, Repr

abbrev Read (α : Type) := Except Fault α

def peek (l : List Byte) (i : ℕ) : Read Byte :=
  match l[i]? with
  | some b => .ok b
  | none => .error .overread

def readBytes (l : List Byte) (k : ℕ) : Read (List Byte) :=
  if k ≤ l.length then .ok (l.take k) else .error .overread

def readOctets (w : ℕ) : ℕ → BitVec w → List Byte → Read (ℤ × List Byte)
  | 0, ret, l => .ok ((ret.setWidth 32).toInt, l)
  | lenleft + 1, ret, l => do
    let b ← peek l 0
    let ret := ret <<< 8 ||| b.setWidth w
    if ret + BitVec.ofNat w (lenleft + 1) > BitVec.ofNat w l.length then .ok (-1, l)
    else readOctets w lenleft ret (l.drop 1)

/-- The value returned and the bytes after the length. -/
def derReadLen (w : ℕ) (l : List Byte) : Read (ℤ × List Byte) :=
  if l.length = 0 then .ok (-1, l)
  else do
    let b1 ← peek l 0
    let l := l.drop 1
    if b1 = 0xFF then .ok (-1, l)
    else if b1 &&& 0x80 = 0 then .ok (b1.toNat, l)
    else if b1 = 0x80 then .ok (-1, l)
    else
      let lenleft := (b1 &&& 0x7F).toNat
      if lenleft > l.length then .ok (-1, l)
      else readOctets w lenleft 0 l

/-- `**sig == pad && rlen > 1 && ((*sig)[1] & 0x80) == top`. -/
def padded (l : List Byte) (rlen : ℤ) (pad top : Byte) : Read Bool := do
  let b0 ← peek l 0
  if b0 = pad ∧ rlen > 1 then
    let b1 ← peek l 1
    return b1 &&& 0x80 = top
  else return false

/-- `while (rlen > 0 && **sig == 0)`: leading zero bytes are skipped. -/
def skipZeros : ℕ → List Byte → Read (ℕ × List Byte)
  | 0, l => .ok (0, l)
  | rlen + 1, l => do
    let b ← peek l 0
    if b = 0 then skipZeros rlen (l.drop 1) else .ok (rlen + 1, l)

/-- `unsigned char ra[32] = {0}; memcpy(ra + 32 - rlen, c, rlen)`. -/
def pad32 (c : List Byte) : Fin 32 → Byte := fun i =>
  (List.replicate (32 - c.length) 0 ++ c).getD i 0

section

variable {S : Type} (O : ScalarOps S) (w : ℕ)

/-- The scalar of the `rlen` bytes at the pointer; 0 in case of an overflow. -/
def integerScalar (ov : Bool) (rlen : ℕ) (l : List Byte) : Read S :=
  if ov || 32 < rlen then .ok (O.setInt 0)
  else do
    let c ← readBytes l rlen
    let (r, overflow) := O.setB32 (pad32 c)
    return if overflow ≠ 0 then O.setInt 0 else r

def derContent (rlen : ℤ) (l : List Byte) : Read (Option (S × List Byte)) := do
  let zeros ← padded l rlen 0x00 0x00
  if zeros then .ok none
  else
    let ones ← padded l rlen 0xFF 0x80
    if ones then .ok none
    else
      let b0 ← peek l 0
      let (rlen, l) ← skipZeros rlen.toNat l
      let r ← integerScalar O (b0 &&& 0x80 = 0x80) rlen l
      return some (r, l.drop rlen)

def derParseInteger (l : List Byte) : Read (Option (S × List Byte)) :=
  if l.length = 0 then .ok none
  else do
    let tag ← peek l 0
    if tag ≠ 0x02 then .ok none
    else
      let (rlen, l) ← derReadLen w (l.drop 1)
      if rlen ≤ 0 ∨ rlen > l.length then .ok none
      else derContent O rlen l

/-- The two scalars, or `none` for the return value 0. -/
def ecdsaSigParse (sig : List Byte) : Read (Option (S × S)) :=
  if sig.length = 0 then .ok none
  else do
    let tag ← peek sig 0
    if tag ≠ 0x30 then .ok none
    else
      let (rlen, l) ← derReadLen w (sig.drop 1)
      if rlen < 0 ∨ rlen > l.length then .ok none
      else if rlen ≠ l.length then .ok none
      else
        match ← derParseInteger O w l with
        | none => .ok none
        | some (rr, l) =>
          match ← derParseInteger O w l with
          | none => .ok none
          | some (rs, l) => if l.length ≠ 0 then .ok none else .ok (some (rr, rs))

end

end Secp256k1.Der
