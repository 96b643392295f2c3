import Secp256k1.Field.Impl5x52

/-!
# The operations of the four-limb field

`field_4x64_impl.h`, on a little-endian machine. The routines for addition, negation, products and
squares are assembly that is not part of the sources: `Inner` is what the code calls. All
normalizations are empty.
-/

namespace Secp256k1.Field4x64

abbrev U64 := BitVec 64

structure Fe where
  n0 : U64
  n1 : U64
  n2 : U64
  n3 : U64
  deriving DecidableEq, Repr

def Fe.val (a : Fe) : ℕ :=
  a.n0.toNat + a.n1.toNat * 2 ^ 64 + a.n2.toNat * 2 ^ 128 + a.n3.toNat * 2 ^ 192

theorem Fe.val_inj {a b : Fe} (h : a.val = b.val) : a = b := by
  have := a.n0.isLt; have := a.n1.isLt; have := a.n2.isLt; have := a.n3.isLt
  have := b.n0.isLt; have := b.n1.isLt; have := b.n2.isLt; have := b.n3.isLt
  simp only [Fe.val] at h
  have h0 : a.n0 = b.n0 := BitVec.eq_of_toNat_eq (by omega)
  have h1 : a.n1 = b.n1 := BitVec.eq_of_toNat_eq (by omega)
  have h2 : a.n2 = b.n2 := BitVec.eq_of_toNat_eq (by omega)
  have h3 : a.n3 = b.n3 := BitVec.eq_of_toNat_eq (by omega)
  cases a; cases b
  simp only [Fe.mk.injEq]
  exact ⟨h0, h1, h2, h3⟩

/-- The functions behind the pointers `s_pfn_4x64_*`. -/
structure Inner where
  add : Fe → Fe → Fe
  negate : Fe → Fe
  mulInt : Fe → CInt → Fe
  mul : Fe → Fe → Fe
  sqr : Fe → Fe

/-- The inner routines return canonical residues for operands that satisfy `D`. -/
structure Inner.Sound (I : Inner) (D : Fe → Prop) : Prop where
  add : ∀ a b, D a → D b → (I.add a b).val = (a.val + b.val) % p
  negate : ∀ a, D a → (I.negate a).val = (p - a.val % p) % p
  mul : ∀ a b, D a → D b → (I.mul a b).val = a.val * b.val % p
  sqr : ∀ a, D a → (I.sqr a).val = a.val * a.val % p

/-- The same of the product with an `int` that is not negative. -/
def Inner.SoundInt (I : Inner) (D : Fe → Prop) : Prop :=
  ∀ a k, D a → k.toNat < 2 ^ 31 → (I.mulInt a k).val = a.val * k.toNat % p

/-- Byte `i` of a word in memory. -/
def byteAt (x : U64) (i : ℕ) : Byte := (x >>> (8 * i)).setWidth 8

/-- The bytes of `n` in memory. -/
def Fe.bytes (a : Fe) : List Byte :=
  [a.n0, a.n1, a.n2, a.n3].flatMap fun x => (List.range 8).map (byteAt x)

/-- `memcmp` up to its sign: the order of the first byte that differs. -/
def memcmp : List Byte → List Byte → ℤ
  | x :: l, y :: k => if x < y then -1 else if y < x then 1 else memcmp l k
  | _, _ => 0

/-- The word whose bytes in memory are `b 0 .. b 7`. -/
def wordOf (b : ℕ → Byte) : U64 :=
  BitVec.ofNat 64 (Bytes.leNat ((List.range 8).map b))

def feNormalize (r : Fe) : Fe := r

def feNormalizeVar (r : Fe) : Fe := r

def feNormalizeWeak (r : Fe) : Fe := r

def feSetInt (a : CInt) : Fe := ⟨CInt.toU64 a, 0, 0, 0⟩

def feIsZero (a : Fe) : Bool := a.n0 ||| a.n1 ||| a.n2 ||| a.n3 = 0

def feNormalizesToZero (r : Fe) : Bool := r.n0 = 0 ∧ r.n1 = 0 ∧ r.n2 = 0 ∧ r.n3 = 0

def feNormalizesToZeroVar (r : Fe) : Bool := r.n0 = 0 ∧ r.n1 = 0 ∧ r.n2 = 0 ∧ r.n3 = 0

def feIsOdd (a : Fe) : Bool := a.n0 &&& 1 ≠ 0

def feClear : Fe := ⟨0, 0, 0, 0⟩

def feCmpVar (a b : Fe) : ℤ := memcmp a.bytes b.bytes

/-- Byte `i` of the limbs is `a[31 - i]`; no range is checked. -/
def feSetB32 (a : Fin 32 → Byte) : Fe × Bool :=
  let byte (i : ℕ) : Byte := a (Fin.ofNat 32 (31 - i))
  (⟨wordOf byte, wordOf fun i => byte (8 + i), wordOf fun i => byte (16 + i),
    wordOf fun i => byte (24 + i)⟩, true)

def feGetB32 (a : Fe) : Fin 32 → Byte := fun i =>
  let j := 31 - i.val
  if j < 8 then byteAt a.n0 j
  else if j < 16 then byteAt a.n1 (j - 8)
  else if j < 24 then byteAt a.n2 (j - 16)
  else byteAt a.n3 (j - 24)

def feCmov (r a : Fe) (flag : CInt) : Fe := if flag ≠ 0 then a else r

def feStorageCmov (r a : FeStorage) (flag : CInt) : FeStorage := if flag ≠ 0 then a else r

/-- `SECP256K1_FE_CONST`. -/
def feConst (d7 d6 d5 d4 d3 d2 d1 d0 : BitVec 32) : Fe where
  n0 := d0.setWidth 64 ||| d1.setWidth 64 <<< 32
  n1 := d2.setWidth 64 ||| d3.setWidth 64 <<< 32
  n2 := d4.setWidth 64 ||| d5.setWidth 64 <<< 32
  n3 := d6.setWidth 64 ||| d7.setWidth 64 <<< 32

def feToStorage (a : Fe) : FeStorage := ⟨a.n0, a.n1, a.n2, a.n3⟩

def feFromStorage (a : FeStorage) : Fe := ⟨a.n0, a.n1, a.n2, a.n3⟩

end Secp256k1.Field4x64
