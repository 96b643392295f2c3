import Secp256k1.Field.Columns
import Secp256k1.Field.X64Asm

/-!
# The macros and the common tail of the x64 routines

One specification for each macro and for each part of `secp256k1_fe_common`: the numbers the
registers hold after it, and a frame condition. `feCommon_spec` puts them together: from the nine
digits of a product the routine writes the limbs of `Digits.fold`.
-/

namespace Secp256k1.Field5x52

open X64

/-! ## What must not be lost -/

/-- No accumulator reaches `2 ^ 116` before it is shifted right by 52, and no doubled word wraps. -/
def NoLoss : Ins → State → Prop
  | .shrd d x k, s => k = 52 → s.pair x d < 2 ^ 116
  | .add d (.reg r), s => d = r → 2 * (s.reg d).toNat < 2 ^ 64
  | .lea2 _ x, s => 2 * (s.reg x).toNat < 2 ^ 64
  | _, _ => True

section

variable (s : State)

@[simp] theorem noLoss_mov (d : Reg) (x : Src) : NoLoss (.mov d x) s := trivial

@[simp] theorem noLoss_store (b : Reg) (o : Word) (x : Reg) : NoLoss (.store b o x) s := trivial

@[simp] theorem noLoss_add {d r : Reg} (h : d ≠ r) : NoLoss (.add d (.reg r)) s :=
  fun e => absurd e h

@[simp] theorem noLoss_adc (d : Reg) (x : Src) : NoLoss (.adc d x) s := trivial

@[simp] theorem noLoss_and (d : Reg) (x : Src) : NoLoss (.and d x) s := trivial

@[simp] theorem noLoss_mul (x : Src) : NoLoss (.mul x) s := trivial

@[simp] theorem noLoss_shr (d : Reg) (k : ℕ) : NoLoss (.shr d k) s := trivial

theorem noLoss_double (d : Reg) :
    NoLoss (.add d (.reg d)) s ↔ 2 * (s.reg d).toNat < 2 ^ 64 :=
  forall_prop_of_true rfl

theorem noLoss_lea2 (d x : Reg) : NoLoss (.lea2 d x) s ↔ 2 * (s.reg x).toNat < 2 ^ 64 := Iff.rfl

theorem noLoss_shrd (d x : Reg) : NoLoss (.shrd d x 52) s ↔ s.pair x d < 2 ^ 116 :=
  forall_prop_of_true rfl

end

/-! ## Multiply and accumulate -/

/-- The scratch registers of the multiply-accumulate macros. -/
def accRegs : List Reg := [.rax, .rdx, .r8, .r9]

/-- The factors of a column are not held in the accumulator. -/
def Outside (fs : List (Src × Reg)) : Prop :=
  ∀ f ∈ fs, f.2 ∉ accRegs ∧ ∀ r ∈ f.1.regs, r ∉ accRegs

instance (fs : List (Src × Reg)) : Decidable (Outside fs) := by unfold Outside; infer_instance

theorem fmaF8F9_spec (s : State) {x : Src} {m : Reg} {t : ℕ} (hm : m ≠ .rax)
    (ht : (s.src x).toNat * (s.reg m).toNat = t) (h : s.pair .r9 .r8 + t < 2 ^ 128) :
    ∃ s', Runs NoLoss (fmaF8F9 x m) s s' ∧ s'.pair .r9 .r8 = s.pair .r9 .r8 + t ∧
      Keeps accRegs s s' := by
  have key := add_adc (s.reg .r9) (s.reg .r8) (BitVec.ofNat 64 t) (BitVec.ofNat 64 (t / 2 ^ 64))
    (t := t) (by have := pair_ofNat (t := t) (by omega); omega) h
  simp only [fmaF8F9, Runs, exec, Option.some.injEq, exists_eq_left', noLoss_mov, noLoss_mul,
    noLoss_add, noLoss_adc, ne_eq, reduceCtorEq, not_false_eq_true, true_and]
  simp only [State.pair, State.set_reg, State.src_reg, reduceCtorEq, if_false, if_true, hm, ht]
  refine ⟨key, fun r hr => ?_, rfl, rfl⟩
  simp only [accRegs, List.mem_cons, List.not_mem_nil, or_false, not_or] at hr
  simp only [State.set_reg, hr, if_false]

/-- The sum of the products of a column. -/
def colSum (s : State) (fs : List (Src × Reg)) : ℕ :=
  (fs.map fun f => (s.src f.1).toNat * (s.reg f.2).toNat).sum

theorem colSum_nil (s : State) : colSum s [] = 0 := rfl

theorem colSum_cons (s : State) (f : Src × Reg) (fs : List (Src × Reg)) :
    colSum s (f :: fs) = (s.src f.1).toNat * (s.reg f.2).toNat + colSum s fs := rfl

theorem colSum_keeps {s t : State} (k : Keeps accRegs s t) {fs : List (Src × Reg)}
    (hfs : Outside fs) : colSum t fs = colSum s fs := by
  unfold colSum
  congr 1
  refine List.map_congr_left fun f hf => ?_
  rw [k.src (hfs f hf).2, k.reg _ (hfs f hf).1]

theorem fmas_spec (fs : List (Src × Reg)) (s : State)
    (hfs : Outside fs)
    (h : s.pair .r9 .r8 + colSum s fs < 2 ^ 128) :
    ∃ s', Runs NoLoss (fs.flatMap fun f => fmaF8F9 f.1 f.2) s s' ∧
      s'.pair .r9 .r8 = s.pair .r9 .r8 + colSum s fs ∧ Keeps accRegs s s' := by
  induction fs generalizing s with
  | nil => exact ⟨s, rfl, (Nat.add_zero _).symm, Keeps.refl _ _⟩
  | cons f fs ih =>
    obtain ⟨hf, htl⟩ := List.forall_mem_cons.mp hfs
    have hsum := colSum_cons s f fs
    have hm : f.2 ≠ .rax := fun e => hf.1 (e ▸ by decide)
    obtain ⟨s1, h1, p1, k1⟩ := fmaF8F9_spec s (x := f.1) hm rfl (by omega)
    have hs1 : colSum s1 fs = colSum s fs := colSum_keeps k1 htl
    obtain ⟨s2, h2, p2, k2⟩ := ih s1 htl (by omega)
    refine ⟨s2, ?_, by omega, k1.trans k2⟩
    rw [List.flatMap_cons]
    exact h1.append h2

/-- Splitting an accumulator below `2 ^ 116` at bit 52. -/
theorem split_spec (s : State) {d : Reg} {t : ℕ} (hd : d ∉ Reg.rbp :: accRegs)
    (hM : (s.reg .rbp).toNat = 2 ^ 52 - 1) (ht : s.pair .r9 .r8 = t) (h : t < 2 ^ 116) :
    ∃ s', Runs NoLoss [.mov d (.reg .rbp), .and d (.reg .r8), .shrd .r8 .r9 52] s s' ∧
      (s'.reg d).toNat = t % 2 ^ 52 ∧ (s'.reg .r8).toNat = t / 2 ^ 52 ∧
      Keeps (d :: accRegs) s s' := by
  simp only [accRegs, List.mem_cons, List.not_mem_nil, or_false, not_or] at hd
  obtain ⟨-, -, -, h8, h9⟩ := hd
  simp only [Runs, exec, Option.some.injEq, exists_eq_left', noLoss_mov, noLoss_and, noLoss_shrd,
    true_and, and_assoc, exists_and_left]
  simp only [State.pair] at ht ⊢
  simp only [State.set_reg, State.src_reg, if_false, if_true, h8, Ne.symm h8, Ne.symm h9]
  refine ⟨by omega, ?_, ?_, fun r hr => ?_, rfl, rfl⟩
  · rw [BitVec.and_comm, Word.toNat_and_mask 52 rfl hM]
    omega
  · rw [BitVec.toNat_ofNat, ht]
    exact Nat.mod_eq_of_lt (by omega)
  · simp only [accRegs, List.mem_cons, List.not_mem_nil, or_false, not_or] at hr
    simp only [State.set_reg, hr, if_false]

theorem column_spec (s : State) (fs : List (Src × Reg)) {d : Reg} {t : ℕ}
    (hfs : Outside fs) (hd : d ∉ Reg.rbp :: accRegs)
    (hM : (s.reg .rbp).toNat = 2 ^ 52 - 1) (ht : (s.reg .r8).toNat + colSum s fs = t)
    (h : t < 2 ^ 116) :
    ∃ s', Runs NoLoss (column fs d) s s' ∧ (s'.reg d).toNat = t % 2 ^ 52 ∧
      (s'.reg .r8).toNat = t / 2 ^ 52 ∧ Keeps (d :: accRegs) s s' := by
  -- `xor r9, r9` clears the high word
  obtain ⟨s0, h0, e0, k0⟩ : ∃ s0, Runs NoLoss [.xor .r9 (.reg .r9)] s s0 ∧
      s0.pair .r9 .r8 = (s.reg .r8).toNat ∧ Keeps accRegs s s0 := by
    refine ⟨_, ⟨trivial, _, rfl, rfl⟩, ?_, fun r hr => ?_, rfl, rfl⟩
    · simp [State.pair, State.set_reg]
    · simp only [accRegs, List.mem_cons, List.not_mem_nil, or_false, not_or] at hr
      simp only [State.set_reg, hr, if_false]
  have hc : colSum s0 fs = colSum s fs := colSum_keeps k0 hfs
  obtain ⟨s1, h1, e1, k1⟩ := fmas_spec fs s0 hfs (by omega)
  have k01 := k0.trans k1
  obtain ⟨s2, h2, ed, e8, k2⟩ := split_spec s1 hd
    (by rw [k01.reg .rbp (by decide)]; exact hM) (by omega : s1.pair .r9 .r8 = t) h
  refine ⟨s2, ?_, ed, e8, (k01.mono fun r hr => List.mem_cons_of_mem _ hr).trans k2⟩
  exact (h0.append h1).append h2

theorem fma52Add_spec (s : State) {d x : Reg} {t : ℕ} (hd : d ∉ [Reg.rdi, .rbp, .rax, .rdx, .r8])
    (hM : (s.reg .rbp).toNat = 2 ^ 52 - 1)
    (ht : (s.reg x).toNat * (s.reg .rdi).toNat + (s.reg d).toNat + (s.reg .r8).toNat = t)
    (h : t < 2 ^ 116) :
    ∃ s', Runs NoLoss (fma52Add d x) s s' ∧ (s'.reg d).toNat = t % 2 ^ 52 ∧
      (s'.reg .r8).toNat = t / 2 ^ 52 ∧ Keeps [d, .rax, .rdx, .r8] s s' := by
  simp only [List.mem_cons, List.not_mem_nil, or_false, not_or] at hd
  obtain ⟨hdi, hbp, hax, hdx, h8⟩ := hd
  have e0 := pair_ofNat (t := (s.reg x).toNat * (s.reg .rdi).toNat) (by omega)
  have e1 := add_adc_zero (BitVec.ofNat 64 ((s.reg x).toNat * (s.reg .rdi).toNat / 2 ^ 64))
    (BitVec.ofNat 64 ((s.reg x).toNat * (s.reg .rdi).toNat)) (s.reg d) (by rw [e0]; omega)
  rw [e0] at e1
  simp only [fma52Add, Runs, exec, Option.some.injEq, exists_eq_left', noLoss_mov, noLoss_mul,
    noLoss_add, noLoss_adc, noLoss_shrd, noLoss_and, ne_eq, reduceCtorEq, not_false_eq_true,
    Ne.symm hax, true_and, and_assoc, exists_and_left]
  simp only [State.pair, State.set_reg, State.src_reg, State.src_imm, reduceCtorEq, if_false,
    if_true, hax, hdx, h8, Ne.symm hbp, Ne.symm hdx, Ne.symm h8]
  generalize BitVec.ofNat 64 ((s.reg x).toNat * (s.reg .rdi).toNat) + s.reg d = lo at *
  generalize BitVec.ofNat 64 (BitVec.toNat (BitVec.ofNat 64 ((s.reg x).toNat *
    (s.reg .rdi).toNat / 2 ^ 64)) + _ + _) = hi at *
  have e2 := add_adc_zero hi (s.reg .r8) lo (by omega)
  refine ⟨by omega, ?_, ?_, fun r hr => ?_, rfl, rfl⟩
  · rw [Word.toNat_and_mask 52 rfl hM]
    omega
  · rw [BitVec.toNat_ofNat, e2]
    rw [Nat.mod_eq_of_lt (by omega)]
    omega
  · simp only [List.mem_cons, List.not_mem_nil, or_false, not_or] at hr
    simp only [State.set_reg, hr, if_false]

/-! ## `secp256k1_fe_common` -/

theorem feCommonTop_spec (s : State) {t : ℕ} (hM : (s.reg .rbp).toNat = 2 ^ 52 - 1)
    (ht : (s.reg .rax).toNat * (s.reg .rsi).toNat + (s.reg .r8).toNat = t) (h : t < 2 ^ 116) :
    ∃ s', Runs NoLoss feCommonTop s s' ∧ (s'.reg .r9).toNat = t % 2 ^ 52 ∧
      (s'.reg .rsi).toNat = t / 2 ^ 52 ∧ Keeps [.rax, .rdx, .r9, .rsi] s s' := by
  have e0 := pair_ofNat (t := (s.reg .rax).toNat * (s.reg .rsi).toNat) (by omega)
  have e1 := add_adc_zero (BitVec.ofNat 64 ((s.reg .rax).toNat * (s.reg .rsi).toNat / 2 ^ 64))
    (BitVec.ofNat 64 ((s.reg .rax).toNat * (s.reg .rsi).toNat)) (s.reg .r8) (by rw [e0]; omega)
  rw [e0, ht] at e1
  simp only [feCommonTop, Runs, exec, Option.some.injEq, exists_eq_left', noLoss_mov, noLoss_mul,
    noLoss_add, noLoss_adc, noLoss_shrd, noLoss_and, ne_eq, reduceCtorEq, not_false_eq_true,
    true_and, and_assoc, exists_and_left]
  simp only [State.pair, State.set_reg, State.src_reg, State.src_imm, reduceCtorEq, if_false,
    if_true]
  refine ⟨by omega, ?_, ?_, fun r hr => ?_, rfl, rfl⟩
  · rw [Word.toNat_and_mask 52 rfl hM]
    omega
  · rw [BitVec.toNat_ofNat, e1, Nat.mod_eq_of_lt (by omega)]
  · simp only [List.mem_cons, List.not_mem_nil, or_false, not_or] at hr
    simp only [State.set_reg, hr, if_false]

theorem feCommonCut_spec (s : State) {t : ℕ}
    (ht : (s.reg .rsi).toNat * (s.reg .rdi).toNat + (s.reg .r14).toNat + (s.reg .r8).toNat = t)
    (h : t < 2 ^ 112) :
    ∃ s', Runs NoLoss feCommonCut s s' ∧ (s'.reg .r14).toNat = t % 2 ^ 48 ∧
      (s'.reg .rax).toNat = t / 2 ^ 48 ∧ Keeps [.rax, .rdx, .r14] s s' := by
  have e0 := pair_ofNat (t := (s.reg .rsi).toNat * (s.reg .rdi).toNat) (by omega)
  have e1 := add_adc_zero (BitVec.ofNat 64 ((s.reg .rsi).toNat * (s.reg .rdi).toNat / 2 ^ 64))
    (BitVec.ofNat 64 ((s.reg .rsi).toNat * (s.reg .rdi).toNat)) (s.reg .r14) (by rw [e0]; omega)
  rw [e0] at e1
  have hshrd : ∀ u : State, NoLoss (.shrd .rax .rdx 48) u := fun u h => absurd h (by decide)
  simp only [feCommonCut, Runs, exec, Option.some.injEq, exists_eq_left', noLoss_mov, noLoss_mul,
    noLoss_add, noLoss_adc, hshrd, noLoss_and, ne_eq, reduceCtorEq, not_false_eq_true, true_and]
  simp only [State.set_reg, State.src_reg, State.src_imm, reduceCtorEq, if_false, if_true]
  generalize BitVec.ofNat 64 ((s.reg .rsi).toNat * (s.reg .rdi).toNat) + s.reg .r14 = lo at *
  generalize BitVec.ofNat 64 (BitVec.toNat (BitVec.ofNat 64 ((s.reg .rsi).toNat *
    (s.reg .rdi).toNat / 2 ^ 64)) + _ + _) = hi at *
  have e2 := add_adc_zero hi lo (s.reg .r8) (by omega)
  rw [e1, ht] at e2
  refine ⟨?_, ?_, fun r hr => ?_, rfl, rfl⟩
  · rw [BitVec.and_comm, Word.toNat_and_mask 48 rfl (by decide)]
    omega
  · rw [BitVec.toNat_ofNat, e2, Nat.mod_eq_of_lt (by omega)]
  · simp only [List.mem_cons, List.not_mem_nil, or_false, not_or] at hr
    simp only [State.set_reg, hr, if_false]

theorem feCommonLow_spec (s : State) {c t : ℕ} (hM : (s.reg .rbp).toNat = 2 ^ 52 - 1)
    (hc : (s.reg .rdi).toNat / 2 ^ 4 = c)
    (ht : (s.reg .rax).toNat * c + (s.reg .r10).toNat = t) (h : t < 2 ^ 115)
    (h1 : t / 2 ^ 52 + (s.reg .r11).toNat < 2 ^ 64) :
    ∃ s', Runs NoLoss feCommonLow s s' ∧ (s'.reg .rbp).toNat = t % 2 ^ 52 ∧
      (s'.reg .rax).toNat = t / 2 ^ 52 + (s.reg .r11).toNat ∧
      Keeps [.rax, .rdx, .rdi, .rbp] s s' := by
  have e0 := pair_ofNat (t := (s.reg .rax).toNat * c) (by omega)
  have e1 := add_adc_zero (BitVec.ofNat 64 ((s.reg .rax).toNat * c / 2 ^ 64))
    (BitVec.ofNat 64 ((s.reg .rax).toNat * c)) (s.reg .r10) (by rw [e0]; omega)
  rw [e0, ht] at e1
  simp only [feCommonLow, Runs, exec, Option.some.injEq, exists_eq_left', noLoss_shr, noLoss_mul,
    noLoss_add, noLoss_adc, noLoss_shrd, noLoss_and, ne_eq, reduceCtorEq, not_false_eq_true,
    true_and, and_assoc, exists_and_left]
  simp only [State.pair, State.set_reg, State.src_reg, State.src_imm, reduceCtorEq, if_false,
    if_true, Word.toNat_shr 4 rfl, hc]
  refine ⟨by omega, ?_, ?_, fun r hr => ?_, rfl, rfl⟩
  · rw [BitVec.and_comm, Word.toNat_and_mask 52 rfl hM]
    omega
  · refine Word.toNat_add ?_ rfl h1
    rw [BitVec.toNat_ofNat, e1, Nat.mod_eq_of_lt (by omega)]
  · simp only [List.mem_cons, List.not_mem_nil, or_false, not_or] at hr
    simp only [State.set_reg, hr, if_false]

/-- Registers `r10..r15`, `rbx`, `rcx` hold the digits below the last column. -/
structure Digits.At (t : Digits) (s : State) : Prop where
  t0 : (s.reg .r10).toNat = t.t0
  t1 : (s.reg .r11).toNat = t.t1
  t2 : (s.reg .r12).toNat = t.t2
  t3 : (s.reg .r13).toNat = t.t3
  t4 : (s.reg .r14).toNat = t.t4
  t5 : (s.reg .r15).toNat = t.t5
  t6 : (s.reg .rbx).toNat = t.t6
  t7 : (s.reg .rcx).toNat = t.t7

theorem feCommonFold_spec (s : State) {t : Digits} (ht : t.Ok) (hs : t.At s)
    (hM : (s.reg .rbp).toNat = 2 ^ 52 - 1) (h9 : (s.reg .r9).toNat = t.t8 % 2 ^ 52) :
    ∃ s', Runs NoLoss feCommonFold s s' ∧ (s'.reg .rdi).toNat = 0x1000003D10 ∧
      (s'.reg .r8).toNat = t.fold.v3 / 2 ^ 52 ∧ (s'.reg .r10).toNat = t.fold.v0 % 2 ^ 52 ∧
      (s'.reg .r11).toNat = t.fold.v1 % 2 ^ 52 ∧ (s'.reg .r12).toNat = t.fold.v2 % 2 ^ 52 ∧
      (s'.reg .r13).toNat = t.fold.v3 % 2 ^ 52 ∧
      Keeps [.rax, .rdx, .rdi, .r8, .r10, .r11, .r12, .r13] s s' := by
  obtain ⟨e0, e1, e2, e3, e4, e5, e6, e7⟩ := hs
  obtain ⟨b0, b1, b2, b3, -, -⟩ := t.fold_lt ht
  obtain ⟨s0, r0, d0, z0, k0⟩ : ∃ s0, Runs NoLoss
      [.mov .rdi (.imm 0x1000003D10), .xor .r8 (.reg .r8)] s s0 ∧
      (s0.reg .rdi).toNat = 0x1000003D10 ∧ (s0.reg .r8).toNat = 0 ∧ Keeps [.rdi, .r8] s s0 := by
    refine ⟨_, ⟨trivial, _, rfl, trivial, _, rfl, rfl⟩, ?_, ?_, fun r hr => ?_, rfl, rfl⟩
    · simp [State.set_reg]
    · simp [State.set_reg]
    · simp only [List.mem_cons, List.not_mem_nil, or_false, not_or] at hr
      simp only [State.set_reg, hr, if_false]
  obtain ⟨s1, r1, d1, c1, k1⟩ := fma52Add_spec s0 (d := .r10) (x := .r15) (t := t.fold.v0)
    (by decide) (by simpa (disch := decide) only [k0.reg] using hM)
    (by simp (disch := decide) only [k0.reg, d0, z0, e0, e5, Nat.add_zero]; rfl) (by omega)
  obtain ⟨s2, r2, d2, c2, k2⟩ := fma52Add_spec s1 (d := .r11) (x := .rbx) (t := t.fold.v1)
    (by decide) (by simpa (disch := decide) only [k1.reg, k0.reg] using hM)
    (by simp (disch := decide) only [k1.reg, k0.reg, d0, c1, e1, e6]; rfl) (by omega)
  obtain ⟨s3, r3, d3, c3, k3⟩ := fma52Add_spec s2 (d := .r12) (x := .rcx) (t := t.fold.v2)
    (by decide) (by simpa (disch := decide) only [k2.reg, k1.reg, k0.reg] using hM)
    (by simp (disch := decide) only [k2.reg, k1.reg, k0.reg, d0, c2, e2, e7]; rfl) (by omega)
  obtain ⟨s4, r4, d4, c4, k4⟩ := fma52Add_spec s3 (d := .r13) (x := .r9) (t := t.fold.v3)
    (by decide) (by simpa (disch := decide) only [k3.reg, k2.reg, k1.reg, k0.reg] using hM)
    (by simp (disch := decide) only [k3.reg, k2.reg, k1.reg, k0.reg, d0, c3, e3, h9]; rfl)
    (by omega)
  refine ⟨s4, ?_, ?_, c4, ?_, ?_, ?_, d4, ?_⟩
  · exact (((r0.append r1).append r2).append r3).append r4
  · simpa (disch := decide) only [k4.reg, k3.reg, k2.reg, k1.reg] using d0
  · simpa (disch := decide) only [k4.reg, k3.reg, k2.reg] using d1
  · simpa (disch := decide) only [k4.reg, k3.reg] using d2
  · simpa (disch := decide) only [k4.reg] using d3
  · exact (k0.mono (by decide)).trans ((k1.mono (by decide)).trans ((k2.mono (by decide)).trans
      ((k3.mono (by decide)).trans (k4.mono (by decide)))))

/-- The element whose limbs are the five words from `q` on. -/
def feAt (mem : Word → Word) (q : Word) : Fe :=
  ⟨mem (q + 0 * 8), mem (q + 1 * 8), mem (q + 2 * 8), mem (q + 3 * 8), mem (q + 4 * 8)⟩

/-- Memory `m'` is `m` but for the five words from `q` on. -/
def MemKeeps (q : Word) (m m' : Word → Word) : Prop :=
  ∀ x, x ∉ [q + 0 * 8, q + 1 * 8, q + 2 * 8, q + 3 * 8, q + 4 * 8] → m' x = m x

theorem feCommonStore_spec (s : State) {rc q : Word} {st : List Word}
    (hst : s.stack = rc :: q :: st) :
    ∃ s', Runs NoLoss feCommonStore s s' ∧
      feAt s'.mem q = ⟨s.reg .rbp, s.reg .rax, s.reg .r12, s.reg .r13, s.reg .r14⟩ ∧
      MemKeeps q s.mem s'.mem ∧ s'.stack = s.stack ∧ ∀ r, r ≠ .rbx → s'.reg r = s.reg r := by
  have hq : (s.stack[1]?).map (s.set .rbx) = some (s.set .rbx q) := by rw [hst]; rfl
  have hpeek : NoLoss (.peek .rbx 1) s := trivial
  simp only [feCommonStore, Runs, exec, hq, Option.some.injEq, exists_eq_left', hpeek,
    noLoss_store, true_and]
  simp only [State.set_reg, if_true, reduceCtorEq, if_false]
  refine ⟨?_, ?_, rfl, fun r hr => by simp only [hr, if_false]⟩
  · simp [feAt]
  · intro x hx
    simp only [List.mem_cons, List.not_mem_nil, or_false, not_or] at hx
    simp only [Function.update_apply, hx, if_false, State.set_mem]

/-- The registers `secp256k1_fe_common` writes. -/
def commonRegs : List Reg :=
  [.rax, .rbx, .rdx, .rsi, .rdi, .rbp, .r8, .r9, .r10, .r11, .r12, .r13, .r14]

theorem feCommon_spec (s : State) {t : Digits} {rc q : Word} {st : List Word} (ht : t.Ok)
    (hs : t.At s) (h8 : (s.reg .rax).toNat * (s.reg .rsi).toNat + (s.reg .r8).toNat = t.t8)
    (hM : (s.reg .rbp).toNat = 2 ^ 52 - 1) (hst : s.stack = rc :: q :: st) :
    ∃ s', Runs NoLoss feCommon s s' ∧ feAt s'.mem q = t.fold.limbs ∧ MemKeeps q s.mem s'.mem ∧
      s'.stack = q :: st ∧ ∀ r, r ∉ commonRegs → s'.reg r = s.reg r := by
  have hb := t.fold_lt ht
  have ht8 := ht.t8
  obtain ⟨s1, r1, x9, xsi, k1⟩ := feCommonTop_spec s hM h8 (by omega)
  have hs1 : t.At s1 := by
    obtain ⟨e0, e1, e2, e3, e4, e5, e6, e7⟩ := hs
    constructor <;> simpa (disch := decide) only [k1.reg]
  obtain ⟨s2, r2, xdi, c8, d0, d1, d2, d3, k2⟩ := feCommonFold_spec s1 ht hs1
    (by simpa (disch := decide) only [k1.reg] using hM) x9
  obtain ⟨s3, r3, d4, cut, k3⟩ := feCommonCut_spec s2 (t := t.fold.v4)
    (by simp (disch := decide) only [k2.reg, xdi, xsi, hs1.t4, c8]; rfl) (by omega)
  obtain ⟨s4, r4, e0, e1, k4⟩ := feCommonLow_spec s3 (c := 0x1000003D1) (t := t.fold.v5)
    (by simpa (disch := decide) only [k3.reg, k2.reg, k1.reg] using hM)
    (by simp (disch := decide) only [k3.reg, xdi]; rfl)
    (by simp (disch := decide) only [k3.reg, cut, d0]; rfl) (by omega)
    (by simp (disch := decide) only [k3.reg, d1]; omega)
  have hst4 : s4.stack = rc :: q :: st := by rw [k4.stack, k3.stack, k2.stack, k1.stack, hst]
  obtain ⟨s5, r5, hfe, hmem, hst5, hreg⟩ := feCommonStore_spec s4 hst4
  refine ⟨{ s5 with stack := q :: st }, ?_, ?_, ?_, rfl, fun r hr => ?_⟩
  · refine ((((r1.append r2).append r3).append r4).append r5).append ⟨trivial, _, ?_, rfl⟩
    simp only [exec, hst5, hst4]
  · simp only [hfe, Folded.limbs, Fe.mk.injEq, ← BitVec.toNat_inj, BitVec.toNat_ofNat]
    refine ⟨?_, ?_, ?_, ?_, ?_⟩
    · omega
    · rw [e1, show (s3.reg .r11).toNat = t.fold.v1 % 2 ^ 52 by
        simpa (disch := decide) only [k3.reg] using d1]
      omega
    · rw [show (s4.reg .r12).toNat = t.fold.v2 % 2 ^ 52 by
        simpa (disch := decide) only [k4.reg, k3.reg] using d2]
      omega
    · rw [show (s4.reg .r13).toNat = t.fold.v3 % 2 ^ 52 by
        simpa (disch := decide) only [k4.reg, k3.reg] using d3]
      omega
    · rw [show (s4.reg .r14).toNat = t.fold.v4 % 2 ^ 48 by
        simpa (disch := decide) only [k4.reg] using d4]
      omega
  · rw [k4.mem, k3.mem, k2.mem, k1.mem] at hmem
    exact hmem
  · have hr' := hr
    simp only [commonRegs, List.mem_cons, List.not_mem_nil, or_false, not_or] at hr
    have hk : Keeps commonRegs s s4 := (k1.mono (by decide)).trans ((k2.mono (by decide)).trans
      ((k3.mono (by decide)).trans (k4.mono (by decide))))
    exact (hreg r (by tauto)).trans (hk.reg r hr')

end Secp256k1.Field5x52
