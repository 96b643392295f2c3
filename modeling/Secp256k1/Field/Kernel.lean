import Secp256k1.Field.Int128
import Secp256k1.Field.Normalize
import Secp256k1.Field.X64Sqr

/-!
# The multiplication kernels

The field code calls one of two pairs of routines for products and squares: the portable ones and
the x64 ones. `Kernel.Sound` is the contract both keep for operands in range.
-/

namespace Secp256k1.Field5x52

open X64

/-- A product of a routine: congruent to the integer product, of magnitude one, and with a low limb
of 52 bits. -/
structure IsProduct (r : Fe) (v : ℕ) : Prop where
  val : ∃ q, r.val + p * q = v
  mag : Mag 1 r
  n0 : r.n0.toNat < 2 ^ 52

theorem IsProduct.mod {r : Fe} {v : ℕ} (h : IsProduct r v) : r.val % p = v % p := by
  obtain ⟨q, hq⟩ := h.val
  rw [← hq, Nat.add_mul_mod_self_left]

theorem Mag.noWrap {m : ℕ} {a : Fe} (h : Mag m a) (hm : m ≤ 2047) : NoWrap a := by
  obtain ⟨h0, h1, h2, h3, h4⟩ := h
  constructor <;> omega

/-- Elements of congruent values normalize to the same limbs. -/
theorem feNormalize_congr {a b : Fe} (ha : NoWrap a) (hb : NoWrap b) (h : a.val % p = b.val % p) :
    feNormalize a = feNormalize b := by
  obtain ⟨na, va⟩ := feNormalize_spec ha
  obtain ⟨nb, vb⟩ := feNormalize_spec hb
  exact na.ext nb (by rw [va, vb, h])

/-- What `secp256k1_fe_common` writes is a product of the digits it is given. -/
theorem fold_isProduct {s : Columns} (h : s.Ok) : IsProduct s.digits.fold.limbs s.digits.val :=
  ⟨⟨_, Digits.fold_val h.digits⟩, (Digits.fold_mag h.digits).1, (Digits.fold_mag h.digits).2⟩

theorem mulColumnsOf_isProduct {x y : Fe} (hx : InRange x) (hy : InRange y) :
    IsProduct (mulColumnsOf x y).digits.fold.limbs (x.val * y.val) := by
  rw [← mulColumnsOf_val]
  exact fold_isProduct (mulColumnsOf_ok hx hy)

theorem feMulInner_isProduct {x y : Fe} (hx : InRange x) (hy : InRange y) :
    IsProduct (Int128.feMulInner x y) (x.val * y.val) :=
  ⟨(Int128.feMulInner_spec hx hy).1, (Int128.feMulInner_spec hx hy).2.1,
    (Int128.feMulInner_spec hx hy).2.2⟩

/-- The x64 multiplication, called under either convention and with any overlap of the three
elements, writes a product of its operands that normalizes to what the portable one gives. -/
theorem x64_feMulInner_refines (conv : CallConv) (s : State) (rc q pa pb ra : Word)
    (st : List Word) (hcall : Call conv s q pa pb ra st) (ha : InRange (feAt s.mem pa))
    (hb : InRange (feAt s.mem pb)) :
    ∃ s', run (mulInnerCode conv rc) s = some s' ∧
      (feAt s'.mem q).val ≡ (feAt s.mem pa).val * (feAt s.mem pb).val [MOD p] ∧
      Mag 1 (feAt s'.mem q) ∧
      feNormalize (feAt s'.mem q) =
        feNormalize (Int128.feMulInner (feAt s.mem pa) (feAt s.mem pb)) := by
  obtain ⟨s', hrun, hfe, -, -, -⟩ := mulInnerCode_returns rc hcall ha hb
  have hprod := mulColumnsOf_isProduct ha hb
  rw [← hfe] at hprod
  have hport := feMulInner_isProduct ha hb
  refine ⟨s', hrun, hprod.mod, hprod.mag, feNormalize_congr (hprod.mag.noWrap (by norm_num))
    (hport.mag.noWrap (by norm_num)) ?_⟩
  rw [hprod.mod, hport.mod]

/-- A memory in which each word holds its own address, and a call with the result in place of the
first operand. -/
def demoState : State where
  reg
    | .rdi => 0x100
    | .rsi => 0x100
    | .rdx => 0x200
    | _ => 0
  cf := false
  mem x := x
  stack := [0x40]

theorem x64_feMulInner_refines_demo :
    ∃ s', run (mulInnerCode .jwasm 0x44) demoState = some s' ∧
      (feAt s'.mem 0x100).val ≡
        (feAt demoState.mem 0x100).val * (feAt demoState.mem 0x200).val [MOD p] ∧
      Mag 1 (feAt s'.mem 0x100) ∧
      feNormalize (feAt s'.mem 0x100) =
        feNormalize (Int128.feMulInner (feAt demoState.mem 0x100) (feAt demoState.mem 0x200)) :=
  x64_feMulInner_refines .jwasm demoState 0x44 0x100 0x100 0x200 0x40 []
    ⟨rfl, rfl, rfl, rfl⟩ (by constructor <;> decide) (by constructor <;> decide)

/-! ## Kernels as functions -/

structure Kernel where
  mul : Fe → Fe → Fe
  sqr : Fe → Fe

/-- The contract of the routines. -/
structure Kernel.Sound (K : Kernel) : Prop where
  mul : ∀ {a b}, InRange a → InRange b → IsProduct (K.mul a b) (a.val * b.val)
  sqr : ∀ {a}, InRange a → IsProduct (K.sqr a) (a.val * a.val)

def int128 : Kernel := ⟨Int128.feMulInner, Int128.feSqrInner⟩

/-- A call of an x64 routine with the operands `a` and `b` in memory. -/
def enter (conv : CallConv) (a b : Fe) : State where
  reg r :=
    if r = conv.args.1 then 0x1000 else if r = conv.args.2.1 then 0x2000
    else if r = conv.args.2.2 then 0x3000 else 0
  cf := false
  mem x :=
    if x = 0x2000 then a.n0 else if x = 0x2008 then a.n1 else if x = 0x2010 then a.n2
    else if x = 0x2018 then a.n3 else if x = 0x2020 then a.n4
    else if x = 0x3000 then b.n0 else if x = 0x3008 then b.n1 else if x = 0x3010 then b.n2
    else if x = 0x3018 then b.n3 else if x = 0x3020 then b.n4 else 0
  stack := [0]

/-- The element an x64 routine writes; a routine that faults writes nothing. -/
def result (code : List Ins) (s : State) : Fe :=
  ((run code s).map fun s' => feAt s'.mem 0x1000).getD feClear

def x64 (conv : CallConv) : Kernel where
  mul a b := result (mulInnerCode conv 0) (enter conv a b)
  sqr a := result (sqrInnerCode conv 0) (enter conv a a)

theorem int128_sound : int128.Sound where
  mul := feMulInner_isProduct
  sqr ha := ⟨(Int128.feSqrInner_spec ha).1, (Int128.feSqrInner_spec ha).2.1,
    (Int128.feSqrInner_spec ha).2.2⟩

theorem Returns.result {code : List Ins} {s : State} {l : Fe} {st : List Word}
    (h : Returns code s 0x1000 l st) : result code s = l := by
  obtain ⟨s', hrun, hfe, -⟩ := h
  rw [Field5x52.result, hrun, Option.map_some, hfe, Option.getD_some]

theorem enter_call (conv : CallConv) (a b : Fe) :
    Call conv (enter conv a b) 0x1000 0x2000 0x3000 0 [] := by
  cases conv <;> exact ⟨rfl, rfl, rfl, rfl⟩

theorem x64_sound (conv : CallConv) : (x64 conv).Sound where
  mul {a b} ha hb := by
    have h := (mulInnerCode_returns 0 (enter_call conv a b) ha hb).result
    change IsProduct (result _ _) _
    rw [h]
    exact mulColumnsOf_isProduct ha hb
  sqr {a} ha := by
    have h := (sqrInnerCode_returns 0 (enter_call conv a a) ha).result
    change IsProduct (result _ _) _
    rw [h]
    exact mulColumnsOf_isProduct ha ha

/-- Which routines `field_5x52_impl.h` is compiled with. -/
inductive KernelChoice where
  | portable
  | asm (conv : CallConv)
  deriving DecidableEq, Repr

def KernelChoice.kernel : KernelChoice → Kernel
  | .portable => int128
  | .asm conv => x64 conv

theorem KernelChoice.sound : ∀ kc : KernelChoice, kc.kernel.Sound
  | .portable => int128_sound
  | .asm conv => x64_sound conv

end Secp256k1.Field5x52
