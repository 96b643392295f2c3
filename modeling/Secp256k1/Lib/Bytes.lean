import Secp256k1.Lib.Word

/-!
# Byte strings as numbers

Big-endian and little-endian values of byte lists, and of byte arrays indexed by `Fin k`. A string
of known length is determined by its value.
-/

abbrev Byte := BitVec 8

/-! The lengths of arrays, named: an index written as a literal rests on one proof everywhere. -/

instance neZero4 : NeZero 4 := ⟨by decide⟩

instance neZero8 : NeZero 8 := ⟨by decide⟩

instance neZero32 : NeZero 32 := ⟨by decide⟩

namespace Bytes

/-- The number a byte list denotes, the last byte least significant. -/
def beNat : List Byte → ℕ
  | [] => 0
  | b :: l => b.toNat * 256 ^ l.length + beNat l

/-- The number a byte list denotes, the first byte least significant. -/
def leNat : List Byte → ℕ
  | [] => 0
  | b :: l => b.toNat + 256 * leNat l

@[simp] theorem beNat_nil : beNat [] = 0 := rfl

theorem beNat_cons (b : Byte) (l : List Byte) :
    beNat (b :: l) = b.toNat * 256 ^ l.length + beNat l := rfl

theorem beNat_append (l k : List Byte) :
    beNat (l ++ k) = beNat l * 256 ^ k.length + beNat k := by
  induction l with
  | nil => simp only [List.nil_append, beNat_nil, Nat.zero_mul, Nat.zero_add]
  | cons b l ih =>
    simp only [List.cons_append, beNat_cons, ih, List.length_append, pow_add]
    ring

theorem beNat_lt (l : List Byte) : beNat l < 256 ^ l.length := by
  induction l with
  | nil => exact Nat.one_pos
  | cons b l ih =>
    have hb : b.toNat ≤ 255 := Nat.le_of_lt_succ b.isLt
    rw [beNat_cons, List.length_cons, pow_succ]
    calc b.toNat * 256 ^ l.length + beNat l
        < b.toNat * 256 ^ l.length + 256 ^ l.length := Nat.add_lt_add_left ih _
      _ = (b.toNat + 1) * 256 ^ l.length := by ring
      _ ≤ 256 * 256 ^ l.length := Nat.mul_le_mul_right _ (by omega)
      _ = 256 ^ l.length * 256 := Nat.mul_comm _ _

/-- Strings of one length with one value are equal. -/
theorem beNat_inj {l k : List Byte} (hl : l.length = k.length) (h : beNat l = beNat k) :
    l = k := by
  induction l generalizing k with
  | nil => exact (List.length_eq_zero_iff.mp hl.symm).symm
  | cons b l ih =>
    cases k with
    | nil => simp at hl
    | cons c k =>
      have hlen : l.length = k.length := by simpa using hl
      have hlt := beNat_lt l
      have hkt := beNat_lt k
      rw [beNat_cons, beNat_cons, hlen] at h
      rw [hlen] at hlt
      have hpos : 0 < 256 ^ k.length := by positivity
      have hb : b.toNat = c.toNat := by
        have h1 := Nat.div_eq_of_lt hlt
        have h2 := Nat.div_eq_of_lt hkt
        have h3 := congrArg (· / 256 ^ k.length) h
        simpa only [Nat.mul_comm _ (256 ^ k.length), Nat.mul_add_div hpos, h1, h2,
          Nat.add_zero] using h3
      have htl : beNat l = beNat k := by rw [hb] at h; exact Nat.add_left_cancel h
      rw [BitVec.eq_of_toNat_eq hb, ih hlen htl]

theorem beNat_reverse (l : List Byte) : beNat l.reverse = leNat l := by
  induction l with
  | nil => rfl
  | cons b l ih =>
    rw [List.reverse_cons, beNat_append, ih, beNat_cons, leNat, List.length_singleton]
    simp only [List.length_nil, beNat_nil, pow_zero, pow_one, Nat.mul_one, Nat.add_zero]
    omega

/-! ## Arrays -/

/-- The big-endian value of an array of bytes. -/
def be {k : ℕ} (b : Fin k → Byte) : ℕ := beNat (List.ofFn b)

theorem be_lt {k : ℕ} (b : Fin k → Byte) : be b < 256 ^ k := by
  have h := beNat_lt (List.ofFn b)
  rwa [List.length_ofFn] at h

theorem be_inj {k : ℕ} {b c : Fin k → Byte} (h : be b = be c) : b = c :=
  List.ofFn_injective (beNat_inj (by simp only [List.length_ofFn]) h)

theorem be32 (b : Fin 32 → Byte) : be b =
    (b 31).toNat + (b 30).toNat * 2 ^ 8 + (b 29).toNat * 2 ^ 16 + (b 28).toNat * 2 ^ 24 +
    (b 27).toNat * 2 ^ 32 + (b 26).toNat * 2 ^ 40 + (b 25).toNat * 2 ^ 48 +
    (b 24).toNat * 2 ^ 56 + (b 23).toNat * 2 ^ 64 + (b 22).toNat * 2 ^ 72 +
    (b 21).toNat * 2 ^ 80 + (b 20).toNat * 2 ^ 88 + (b 19).toNat * 2 ^ 96 +
    (b 18).toNat * 2 ^ 104 + (b 17).toNat * 2 ^ 112 + (b 16).toNat * 2 ^ 120 +
    (b 15).toNat * 2 ^ 128 + (b 14).toNat * 2 ^ 136 + (b 13).toNat * 2 ^ 144 +
    (b 12).toNat * 2 ^ 152 + (b 11).toNat * 2 ^ 160 + (b 10).toNat * 2 ^ 168 +
    (b 9).toNat * 2 ^ 176 + (b 8).toNat * 2 ^ 184 + (b 7).toNat * 2 ^ 192 +
    (b 6).toNat * 2 ^ 200 + (b 5).toNat * 2 ^ 208 + (b 4).toNat * 2 ^ 216 +
    (b 3).toNat * 2 ^ 224 + (b 2).toNat * 2 ^ 232 + (b 1).toNat * 2 ^ 240 +
    (b 0).toNat * 2 ^ 248 := by
  have h : List.ofFn b = [b 0, b 1, b 2, b 3, b 4, b 5, b 6, b 7, b 8, b 9, b 10, b 11, b 12,
      b 13, b 14, b 15, b 16, b 17, b 18, b 19, b 20, b 21, b 22, b 23, b 24, b 25, b 26, b 27,
      b 28, b 29, b 30, b 31] := rfl
  rw [be, h]
  simp only [beNat_cons, beNat_nil, List.length_cons, List.length_nil, Nat.reduceAdd,
    Nat.reducePow]
  ring

end Bytes
