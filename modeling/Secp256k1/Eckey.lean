import Secp256k1.Group.Affine

/-!
# Public keys

The encodings of public keys of `eckey_impl.h`, and what `secp256k1_eckey_pubkey_parse` reads over
both field backends. `Decodes` is the language of encodings, up to the strings a backend takes for a
coordinate. The five-limb backend takes the numbers below `p`; the four-limb backend takes every
string, so that it also reads encodings with a coordinate that is not reduced.
-/

namespace Secp256k1

section

variable {F : Type} (B : FieldOps F)

/-- The 32 bytes at `pub + k`. -/
def bytes32 (pub : List Byte) (k : ℕ) : Fin 32 → Byte := fun i => pub.getD (k + i) 0

/-- The point read, or `none` for the return value 0. -/
def eckeyPubkeyParse (pub : List Byte) : Option (Option (Ge F)) :=
  let tag := pub.getD 0 0
  if pub.length = 33 ∧ (tag = 0x02 ∨ tag = 0x03) then
    let (x, okx) := B.setB32 (bytes32 pub 1)
    if !okx then some none
    else do
      let (elem, ok) ← geSetXoVar B x (tag = 0x03)
      return if ok then some elem else none
  else if pub.length = 65 ∧ (tag = 0x04 ∨ tag = 0x06 ∨ tag = 0x07) then
    let (x, okx) := B.setB32 (bytes32 pub 1)
    let (y, oky) := B.setB32 (bytes32 pub 33)
    if !okx || !oky then some none
    else if (tag = 0x06 ∨ tag = 0x07) ∧ B.isOdd y ≠ decide (tag = 0x07) then some none
    else do
      let ok ← geIsValidVar B (geSetXy x y)
      return if ok then some (geSetXy x y) else none
  else some none

/-- The bytes written, and the point as it is left, or `none` for the return value 0. -/
def eckeyPubkeySerialize (elem : Ge F) (compressed : Bool) : Option (Option (Ge F × List Byte)) :=
  if elem.infinity then some none
  else do
    let x ← B.normalizeVar elem.x
    let y ← B.normalizeVar elem.y
    let head := List.ofFn (B.getB32 x)
    return some (⟨x, y, elem.infinity⟩,
      if compressed then (if B.isOdd y then 0x03 else 0x02) :: head
      else 0x04 :: (head ++ List.ofFn (B.getB32 y)))

end

/-- A compressed encoding: the header says which root of `x³ + 7` the y coordinate is. -/
structure Compressed (A : (Fin 32 → Byte) → Prop) (pub : List Byte) (v w : ZMod p) : Prop where
  length : pub.length = 33
  tag : pub.getD 0 0 = 0x02 ∨ pub.getD 0 0 = 0x03
  takes : A (bytes32 pub 1)
  x : v = Bytes.be (bytes32 pub 1)
  point : OnCurve v w
  parity : w.val % 2 = 1 ↔ pub.getD 0 0 = 0x03

/-- An uncompressed encoding; the hybrid headers repeat the parity of the last byte. -/
structure Uncompressed (A : (Fin 32 → Byte) → Prop) (pub : List Byte) (v w : ZMod p) : Prop where
  length : pub.length = 65
  tag : pub.getD 0 0 = 0x04 ∨ pub.getD 0 0 = 0x06 ∨ pub.getD 0 0 = 0x07
  takesX : A (bytes32 pub 1)
  takesY : A (bytes32 pub 33)
  x : v = Bytes.be (bytes32 pub 1)
  y : w = Bytes.be (bytes32 pub 33)
  point : OnCurve v w
  parity : pub.getD 0 0 ≠ 0x04 → (Bytes.be (bytes32 pub 33) % 2 = 1 ↔ pub.getD 0 0 = 0x07)

/-- The encodings of the point `(v, w)` in which only strings in `A` stand for coordinates. -/
def Decodes (A : (Fin 32 → Byte) → Prop) (pub : List Byte) (v w : ZMod p) : Prop :=
  Compressed A pub v w ∨ Uncompressed A pub v w

theorem Decodes.unique {A C : (Fin 32 → Byte) → Prop} {pub : List Byte} {v w v' w' : ZMod p}
    (h : Decodes A pub v w) (h' : Decodes C pub v' w') : v = v' ∧ w = w' := by
  rcases h with h | h <;> rcases h' with h' | h'
  · obtain rfl : v = v' := h.x.trans h'.x.symm
    exact ⟨rfl, root_unique h.point h'.point (cube_add_seven_ne_zero v)
      (h.parity.trans h'.parity.symm)⟩
  · exact absurd (h.length.symm.trans h'.length) (by norm_num)
  · exact absurd (h.length.symm.trans h'.length) (by norm_num)
  · exact ⟨h.x.trans h'.x.symm, h.y.trans h'.y.symm⟩

theorem Decodes.mono {A C : (Fin 32 → Byte) → Prop} {pub : List Byte} {v w : ZMod p}
    (hAC : ∀ b, A b → C b) (h : Decodes A pub v w) : Decodes C pub v w := by
  rcases h with h | h
  · exact .inl { h with takes := hAC _ h.takes }
  · exact .inr { h with takesX := hAC _ h.takesX, takesY := hAC _ h.takesY }

section

variable {F : Type} {B : FieldOps F} (M : FieldValues B) (A : (Fin 32 → Byte) → Prop)

/-- What the parser returns for an encoding of `(v, w)`. -/
def Reads (pub : List Byte) (r : Option (Ge F)) : Prop :=
  (r = none ∧ ∀ v w, ¬ Decodes A pub v w) ∨
    ∃ g v w, r = some g ∧ Decodes A pub v w ∧ g.infinity = false ∧ M.raw 2 v g.x ∧ M.raw 2 w g.y

variable (hA : ∀ b, (B.setB32 b).2 = true ↔ A b)
include hA

theorem parse_compressed {pub : List Byte} (hlen : pub.length = 33)
    (htag : pub.getD 0 0 = 0x02 ∨ pub.getD 0 0 = 0x03) :
    Yields (eckeyPubkeyParse B pub) (Reads M A pub) := by
  have hraw := M.setB32_raw (bytes32 pub 1)
  rw [eckeyPubkeyParse]
  simp only [if_pos (And.intro hlen htag)]
  by_cases hx : A (bytes32 pub 1)
  · rw [if_neg (by rw [(hA _).mpr hx]; decide)]
    refine (geSetXoVar_spec M hraw (by norm_num) _).bind fun ⟨g, ok⟩ ⟨hok, hg⟩ => ?_
    cases ok with
    | false =>
      refine .pure (.inl ⟨rfl, fun v w h => ?_⟩)
      rcases h with h | h
      · exact Bool.false_ne_true (hok.mpr ⟨w, h.x ▸ h.point⟩)
      · exact absurd (hlen.symm.trans h.length) (by norm_num)
    | true =>
      obtain ⟨hgx, hinf, w, hw, hgy, hpar⟩ := hg rfl
      refine .pure (.inr ⟨g, _, w, rfl, .inl ⟨hlen, htag, hx, rfl, hw, ?_⟩, hinf, ?_, ?_⟩)
      · rw [hpar, decide_eq_true_iff]
      · rw [show (g, true).1.x = g.x from rfl] at hgx
        rw [hgx]
        exact M.raw_mono (by norm_num) hraw
      · exact M.raw_of_rep hgy
  · rw [if_pos (by
      rw [Bool.not_eq_true', ← Bool.not_eq_true, hA]
      exact hx)]
    refine .some (.inl ⟨rfl, fun v w h => ?_⟩)
    rcases h with h | h
    · exact hx h.takes
    · exact absurd (hlen.symm.trans h.length) (by norm_num)

theorem parse_uncompressed {pub : List Byte} (hlen : pub.length = 65)
    (htag : pub.getD 0 0 = 0x04 ∨ pub.getD 0 0 = 0x06 ∨ pub.getD 0 0 = 0x07) :
    Yields (eckeyPubkeyParse B pub) (Reads M A pub) := by
  have hrx := M.setB32_raw (bytes32 pub 1)
  have hry := M.setB32_raw (bytes32 pub 33)
  have hodd := M.isOdd_setB32 (bytes32 pub 33)
  have hnot : ∀ v w, Decodes A pub v w → Uncompressed A pub v w := fun v w h => by
    rcases h with h | h
    · exact absurd (hlen.symm.trans h.length) (by norm_num)
    · exact h
  rw [eckeyPubkeyParse]
  simp only [if_neg (show ¬ (pub.length = 33 ∧ _) from fun h =>
    absurd (hlen.symm.trans h.1) (by norm_num)), if_pos (And.intro hlen htag)]
  by_cases hxy : A (bytes32 pub 1) ∧ A (bytes32 pub 33)
  · rw [if_neg (by rw [(hA _).mpr hxy.1, (hA _).mpr hxy.2]; decide)]
    by_cases hpar : (pub.getD 0 0 = 0x06 ∨ pub.getD 0 0 = 0x07) ∧
        B.isOdd (B.setB32 (bytes32 pub 33)).1 ≠ decide (pub.getD 0 0 = 0x07)
    · rw [if_pos hpar]
      refine .some (.inl ⟨rfl, fun v w h => hpar.2 ?_⟩)
      have hp := (hnot v w h).parity fun h4 => by
        rw [h4] at hpar
        exact absurd hpar.1 (by decide)
      rw [Bool.eq_iff_iff, hodd, hp, decide_eq_true_iff]
    · rw [if_neg hpar]
      refine (geIsValidVar_spec M hrx (by norm_num) hry (by norm_num)).bind fun ok hok => ?_
      cases ok with
      | false =>
        refine .pure (.inl ⟨rfl, fun v w h => ?_⟩)
        have hu := hnot v w h
        have hpoint := hu.point
        rw [hu.x, hu.y] at hpoint
        exact Bool.false_ne_true (hok.mpr hpoint)
      | true =>
        refine .pure (.inr ⟨geSetXy (B.setB32 (bytes32 pub 1)).1 (B.setB32 (bytes32 pub 33)).1,
          Bytes.be (bytes32 pub 1), Bytes.be (bytes32 pub 33), if_pos rfl,
          .inr ⟨hlen, htag, hxy.1, hxy.2, rfl, rfl, hok.mp rfl, fun h4 => ?_⟩, rfl,
          M.raw_mono (by norm_num) hrx, M.raw_mono (by norm_num) hry⟩)
        have heq : B.isOdd (B.setB32 (bytes32 pub 33)).1 = decide (pub.getD 0 0 = 0x07) := by
          by_contra hne
          exact hpar ⟨htag.resolve_left h4, hne⟩
        rw [← hodd, heq, decide_eq_true_iff]
  · rw [if_pos (by
      rw [Bool.or_eq_true, Bool.not_eq_true', Bool.not_eq_true', ← Bool.not_eq_true,
        ← Bool.not_eq_true, hA, hA, ← not_and_or]
      exact hxy)]
    refine .some (.inl ⟨rfl, fun v w h => hxy ?_⟩)
    exact ⟨(hnot v w h).takesX, (hnot v w h).takesY⟩

/-- The parser reads the encodings whose coordinates the backend takes, and no other string. -/
theorem eckeyPubkeyParse_spec (pub : List Byte) :
    Yields (eckeyPubkeyParse B pub) (Reads M A pub) := by
  by_cases h33 : pub.length = 33 ∧ (pub.getD 0 0 = 0x02 ∨ pub.getD 0 0 = 0x03)
  · exact parse_compressed M A hA h33.1 h33.2
  by_cases h65 : pub.length = 65 ∧
      (pub.getD 0 0 = 0x04 ∨ pub.getD 0 0 = 0x06 ∨ pub.getD 0 0 = 0x07)
  · exact parse_uncompressed M A hA h65.1 h65.2
  rw [eckeyPubkeyParse]
  simp only [if_neg h33, if_neg h65]
  refine .some (.inl ⟨rfl, fun v w h => ?_⟩)
  rcases h with h | h
  · exact h33 ⟨h.length, h.tag⟩
  · exact h65 ⟨h.length, h.tag⟩

end

/-! ## The two backends -/

/-- By length and header an encoding, with a coordinate that is not below `p`. -/
def HasOversized (pub : List Byte) : Prop :=
  (pub.length = 33 ∧ (pub.getD 0 0 = 0x02 ∨ pub.getD 0 0 = 0x03) ∧
    p ≤ Bytes.be (bytes32 pub 1)) ∨
  pub.length = 65 ∧ (pub.getD 0 0 = 0x04 ∨ pub.getD 0 0 = 0x06 ∨ pub.getD 0 0 = 0x07) ∧
    (p ≤ Bytes.be (bytes32 pub 1) ∨ p ≤ Bytes.be (bytes32 pub 33))

/-- An oversized encoding whose coordinates, reduced, are those of a point with the parity the
header asks for. -/
def Misread (pub : List Byte) : Prop :=
  HasOversized pub ∧ ∃ v w, Decodes (fun _ => True) pub v w

/-- The same verdict, and the same point of the curve. -/
def SameKey : Option (Ge Field5x52.Fe) → Option (Ge Field4x64.Fe) → Prop
  | none, none => True
  | some g, some h => g.infinity = false ∧ h.infinity = false ∧
      OnCurve (g.x.val : ZMod p) (g.y.val : ZMod p) ∧ (g.x.val : ZMod p) = h.x.val ∧
      (g.y.val : ZMod p) = h.y.val
  | _, _ => False

/-- The builds on the two backends treat a string alike, and reject it if a coordinate is
oversized. -/
def ParsesAlike (kc : Field5x52.KernelChoice) (I : Field4x64.Inner) (pub : List Byte) : Prop :=
  ∃ r r', eckeyPubkeyParse (Field5x52.ops kc.kernel) pub = some r ∧
    eckeyPubkeyParse (Field4x64.ops I) pub = some r' ∧ SameKey r r' ∧
    (HasOversized pub → r = none ∧ r' = none)

/-- Among the strings in `C`, a point has one compressed encoding. -/
def UniqueCompressed {F : Type} (B : FieldOps F) (val : F → ℕ) (C : List Byte → Prop) : Prop :=
  ∀ pub pub' g h, pub.length = 33 → pub'.length = 33 → C pub → C pub' →
    eckeyPubkeyParse B pub = some (some g) → eckeyPubkeyParse B pub' = some (some h) →
    (val g.x : ZMod p) = val h.x → (val g.y : ZMod p) = val h.y → pub = pub'

theorem oversized_of_not_decodes {pub : List Byte} {v w : ZMod p}
    (h : Decodes (fun _ => True) pub v w) (hn : ∀ v w, ¬ Decodes (Bytes.be · < p) pub v w) :
    HasOversized pub := by
  rcases h with h | h
  · refine .inl ⟨h.length, h.tag, Nat.le_of_not_lt fun hlt => hn v w (.inl ?_)⟩
    exact { h with takes := hlt }
  · refine .inr ⟨h.length, h.tag, ?_⟩
    by_contra hlt
    rw [not_or, Nat.not_le, Nat.not_le] at hlt
    exact hn v w (.inr { h with takesX := hlt.1, takesY := hlt.2 })

theorem not_decodes_of_oversized {pub : List Byte} (h : HasOversized pub) (v w : ZMod p) :
    ¬ Decodes (Bytes.be · < p) pub v w := by
  rintro (hd | hd) <;> rcases h with ⟨hlen, -, hx⟩ | ⟨hlen, -, hxy⟩
  · exact absurd hd.takes (Nat.not_lt.mpr hx)
  · exact absurd (hlen.symm.trans hd.length) (by norm_num)
  · exact absurd (hlen.symm.trans hd.length) (by norm_num)
  · exact hxy.elim (fun hx => absurd hd.takesX (Nat.not_lt.mpr hx)) fun hy =>
      absurd hd.takesY (Nat.not_lt.mpr hy)

theorem pub_ext {pub pub' : List Byte} (hlen : pub.length = 33) (hlen' : pub'.length = 33)
    (htag : pub.getD 0 0 = pub'.getD 0 0) (hx : bytes32 pub 1 = bytes32 pub' 1) : pub = pub' := by
  refine List.ext_getElem (hlen.trans hlen'.symm) fun i hi hi' => ?_
  rw [← List.getD_eq_getElem _ 0 hi, ← List.getD_eq_getElem _ 0 hi']
  cases i with
  | zero => exact htag
  | succ i =>
    have h := congrFun hx ⟨i, by omega⟩
    simpa only [bytes32, Nat.add_comm 1] using h

theorem Compressed.pub_unique {A : (Fin 32 → Byte) → Prop} {pub pub' : List Byte} {v w : ZMod p}
    (h : Compressed A pub v w) (h' : Compressed A pub' v w) (hb : Bytes.be (bytes32 pub 1) < p)
    (hb' : Bytes.be (bytes32 pub' 1) < p) : pub = pub' := by
  refine pub_ext h.length h'.length ?_ (Bytes.be_inj ?_)
  · have hiff := h.parity.symm.trans h'.parity
    rcases h.tag with ht | ht <;> rcases h'.tag with ht' | ht' <;> rw [ht, ht'] at hiff ⊢
    · exact absurd (hiff.mpr rfl) (by decide)
    · exact absurd (hiff.mp rfl) (by decide)
  · rw [← val_of_cast hb h.x.symm, ← val_of_cast hb' h'.x.symm]

section

variable {F : Type} {B : FieldOps F} (M : FieldValues B) {A : (Fin 32 → Byte) → Prop}
  {val : F → ℕ} {C : List Byte → Prop}

theorem uniqueCompressed (hA : ∀ b, (B.setB32 b).2 = true ↔ A b)
    (hval : ∀ {m v a}, M.raw m v a → (val a : ZMod p) = v)
    (hC : ∀ pub v w, C pub → Compressed A pub v w → Bytes.be (bytes32 pub 1) < p) :
    UniqueCompressed B val C := by
  intro pub pub' g h hlen hlen' hc hc' hg hh hx hy
  have hcomp : ∀ {l v w}, l.length = 33 → Decodes A l v w → Compressed A l v w := by
    rintro l v w hl (hd | hd)
    · exact hd
    · exact absurd (hl.symm.trans hd.length) (by norm_num)
  rcases (eckeyPubkeyParse_spec M A hA pub).of_eq_some hg with
    ⟨h0, -⟩ | ⟨g, v, w, h0, hd, -, gx, gy⟩
  · cases h0
  rcases (eckeyPubkeyParse_spec M A hA pub').of_eq_some hh with
    ⟨h1, -⟩ | ⟨g', v', w', h1, hd', -, gx', gy'⟩
  · cases h1
  cases h0
  cases h1
  obtain rfl : v = v' := by rw [← hval gx, ← hval gx', hx]
  obtain rfl : w = w' := by rw [← hval gy, ← hval gy', hy]
  exact (hcomp hlen hd).pub_unique (hcomp hlen' hd') (hC _ _ _ hc (hcomp hlen hd))
    (hC _ _ _ hc' (hcomp hlen' hd'))

end

section

variable (kc : Field5x52.KernelChoice) {I : Field4x64.Inner} (hI : I.Sound fun _ => True)
include hI

theorem not_parsesAlike {pub : List Byte} (h : Misread pub) : ¬ ParsesAlike kc I pub := by
  rintro ⟨r, r', -, hr', -, hnone⟩
  obtain ⟨hover, v, w, hd⟩ := h
  have hr0 := (hnone hover).2
  rcases (eckeyPubkeyParse_spec (Field4x64.values hI) (fun _ => True) (fun _ => iff_of_true rfl
    trivial) pub).of_eq_some hr' with ⟨-, hn⟩ | ⟨g, _, _, hg, -⟩
  · exact hn v w hd
  · rw [hr0] at hg
    cases hg

theorem parsesAlike {pub : List Byte} (h : ¬ Misread pub) : ParsesAlike kc I pub := by
  obtain ⟨r, hr, h5⟩ := eckeyPubkeyParse_spec (Field5x52.values kc.sound) (Bytes.be · < p)
    (fun b => (Field5x52.feSetB32_spec b).2.2.1) pub
  obtain ⟨r', hr', h4⟩ := eckeyPubkeyParse_spec (Field4x64.values hI) (fun _ => True)
    (fun _ => iff_of_true rfl trivial) pub
  refine ⟨r, r', hr, hr', ?_⟩
  rcases h5 with ⟨rfl, hn⟩ | ⟨g, v, w, rfl, hd, hinf, hgx, hgy⟩
  · rcases h4 with ⟨rfl, -⟩ | ⟨g, v, w, rfl, hd, -⟩
    · exact ⟨trivial, fun _ => ⟨rfl, rfl⟩⟩
    · exact absurd ⟨oversized_of_not_decodes hd hn, v, w, hd⟩ h
  · rcases h4 with ⟨rfl, hn⟩ | ⟨g', v', w', rfl, hd', hinf', hgx', hgy'⟩
    · exact absurd (hd.mono fun _ _ => trivial) (hn v w)
    · obtain ⟨rfl, rfl⟩ := hd.unique hd'
      refine ⟨⟨hinf, hinf', ?_, hgx.2.trans hgx'.symm, hgy.2.trans hgy'.symm⟩, fun hover =>
        absurd hd (not_decodes_of_oversized hover v w)⟩
      rw [hgx.2, hgy.2]
      exact hd.elim (·.point) (·.point)

/-- The builds on the two backends treat exactly the strings alike that are not oversized encodings
of a point; apart from those no point has two compressed encodings in either build. -/
theorem eckeyPubkeyParse_alike_iff :
    (∀ pub, ParsesAlike kc I pub ↔ ¬ Misread pub) ∧
      UniqueCompressed (Field4x64.ops I) (·.val) (¬ Misread ·) ∧
      UniqueCompressed (Field5x52.ops kc.kernel) (·.val) fun _ => True := by
  refine ⟨fun pub => ⟨fun h hm => not_parsesAlike kc hI hm h, parsesAlike kc hI⟩, ?_, ?_⟩
  · refine uniqueCompressed (Field4x64.values hI) (A := fun _ => True)
      (fun _ => iff_of_true rfl trivial) id fun pub v w hn hd => ?_
    by_contra hlt
    exact hn ⟨.inl ⟨hd.length, hd.tag, Nat.not_lt.mp hlt⟩, v, w, .inl hd⟩
  · exact uniqueCompressed (Field5x52.values kc.sound) (A := (Bytes.be · < p))
      (fun b => (Field5x52.feSetB32_spec b).2.2.1) And.right fun _ _ _ _ hd => hd.takes

end

/-- The compressed encoding of the point with x coordinate 1. -/
theorem eckeyPubkeyParse_alike_iff_demo :
    ParsesAlike .portable Field4x64.Inner.reference
      (0x02 :: (List.replicate 31 0x00 ++ [0x01])) := by
  refine ((eckeyPubkeyParse_alike_iff .portable (Field4x64.Inner.reference_sound _)).1 _).mpr ?_
  rintro ⟨⟨-, -, h⟩ | ⟨h, -⟩, -⟩
  · exact absurd h (by decide)
  · exact absurd h (by decide)

/-- The same point with the x coordinate `p + 1` in place of 1. -/
theorem misread_one :
    Misread (0x02 :: (List.replicate 27 0xFF ++ [0xFE, 0xFF, 0xFF, 0xFC, 0x30])) := by
  have hx : Bytes.be (bytes32
      (0x02 :: (List.replicate 27 0xFF ++ [0xFE, 0xFF, 0xFF, 0xFC, 0x30])) 1) = p + 1 := by
    decide
  refine ⟨.inl ⟨rfl, .inl rfl, hx ▸ Nat.le_succ p⟩, (p + 1 : ℕ),
    (0x4218f20ae6c646b363db68605822fb14264ca8d2587fdd6fbc750d587e76a7ee : ℕ),
    .inl ⟨rfl, .inl rfl, trivial, by rw [hx], ?_, ?_⟩⟩
  · rw [onCurve_natCast]
    decide
  · rw [ZMod.val_natCast_of_lt (by decide)]
    decide

theorem eckeyPubkeyParse_not_alike : ¬ ParsesAlike .portable Field4x64.Inner.reference
    (0x02 :: (List.replicate 27 0xFF ++ [0xFE, 0xFF, 0xFF, 0xFC, 0x30])) :=
  not_parsesAlike .portable (Field4x64.Inner.reference_sound _) misread_one

end Secp256k1
