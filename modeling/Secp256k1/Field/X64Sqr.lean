import Secp256k1.Field.X64Mul

/-!
# The x64 square

The squaring routine keeps doubled limbs in `r14`, `r15` and `rbx`. Its columns are those of the
product of the operand with itself, so it hands `secp256k1_fe_common` the same digits.
-/

namespace Secp256k1.Field5x52

open X64

variable {x : Fe}

theorem sqrFirst_spec (s : State) {pa : Word} (hx : feAt s.mem pa = x) (ix : InRange x)
    (ha : s.reg .rdi = pa) :
    ∃ s', Runs NoLoss sqrFirst s s' ∧ (s'.reg .r14).toNat = 2 * x.n0.toNat ∧
      s'.reg .r15 = x.n1 ∧ (s'.reg .rbp).toNat = 2 ^ 52 - 1 ∧
      (s'.reg .r10).toNat = x.n0.toNat * x.n0.toNat % 2 ^ 52 ∧
      (s'.reg .r8).toNat = x.n0.toNat * x.n0.toNat / 2 ^ 52 ∧
      Keeps [.rax, .rdx, .rbp, .r8, .r10, .r14, .r15] s s' := by
  subst hx ha
  have h := mul_lt_pow 56 56 ix.n0 ix.n0
  have h0 := ix.n0
  simp only [feAt] at h h0
  have e0 := pair_ofNat (t := (s.mem (s.reg .rdi + 0 * 8)).toNat *
    (s.mem (s.reg .rdi + 0 * 8)).toNat) (by omega)
  simp only [sqrFirst, a, Runs, exec, Option.some.injEq, exists_eq_left', noLoss_mov, noLoss_mul,
    noLoss_and, noLoss_shrd, noLoss_double, true_and, and_assoc, exists_and_left]
  simp only [State.pair, State.set_reg, State.src_reg, State.src_imm, State.src_mem, State.set_mem,
    reduceCtorEq, if_false, if_true, feAt]
  refine ⟨by omega, by omega, ?_, trivial, by decide, ?_, ?_, fun r hr => ?_, rfl, rfl⟩
  · rw [Word.toNat_add rfl rfl (by omega), two_mul]
  · rw [BitVec.and_comm, Word.toNat_and_mask 52 rfl (by decide), BitVec.toNat_ofNat]
    omega
  · rw [BitVec.toNat_ofNat, e0, Nat.mod_eq_of_lt (by omega)]
  · simp only [List.mem_cons, List.not_mem_nil, or_false, not_or] at hr
    simp only [State.set_reg, hr, if_false]

theorem sqrSecond_spec (s : State) {pa : Word} {t : ℕ} (hx : feAt s.mem pa = x)
    (ha : s.reg .rdi = pa) (hM : (s.reg .rbp).toNat = 2 ^ 52 - 1)
    (ht : (s.reg .r8).toNat + (s.reg .r14).toNat * (s.reg .r15).toNat = t) (h : t < 2 ^ 116) :
    ∃ s', Runs NoLoss sqrSecond s s' ∧ s'.reg .rbx = x.n2 ∧ (s'.reg .r11).toNat = t % 2 ^ 52 ∧
      (s'.reg .r8).toNat = t / 2 ^ 52 ∧ Keeps [.rax, .rbx, .rdx, .r8, .r11] s s' := by
  subst hx ha
  have e0 := pair_ofNat (t := (s.reg .r14).toNat * (s.reg .r15).toNat) (by omega)
  have e1 := add_adc_zero (BitVec.ofNat 64 ((s.reg .r14).toNat * (s.reg .r15).toNat / 2 ^ 64))
    (s.reg .r8) (BitVec.ofNat 64 ((s.reg .r14).toNat * (s.reg .r15).toNat)) (by omega)
  simp only [sqrSecond, a, Runs, exec, Option.some.injEq, exists_eq_left', noLoss_mov, noLoss_mul,
    noLoss_add, noLoss_adc, noLoss_and, noLoss_shrd, ne_eq, reduceCtorEq, not_false_eq_true,
    true_and, and_assoc, exists_and_left]
  simp only [State.pair, State.set_reg, State.src_reg, State.src_imm, State.src_mem, State.set_mem,
    reduceCtorEq, if_false, if_true, feAt]
  refine ⟨by omega, trivial, ?_, ?_, fun r hr => ?_, rfl, rfl⟩
  · rw [BitVec.and_comm, Word.toNat_and_mask 52 rfl hM]
    omega
  · rw [BitVec.toNat_ofNat, e1, Nat.mod_eq_of_lt (by omega)]
    omega
  · simp only [List.mem_cons, List.not_mem_nil, or_false, not_or] at hr
    simp only [State.set_reg, hr, if_false]

theorem sqrLast_spec (s : State) {t : ℕ} (hM : (s.reg .rbp).toNat = 2 ^ 52 - 1)
    (h3 : (s.reg .rcx).toNat < 2 ^ 63)
    (ht : (s.reg .r8).toNat + 2 * (s.reg .rcx).toNat * (s.reg .rsi).toNat = t) (h : t < 2 ^ 116) :
    ∃ s', Runs NoLoss sqrLast s s' ∧ (s'.reg .rcx).toNat = t % 2 ^ 52 ∧
      (s'.reg .r8).toNat = t / 2 ^ 52 ∧ Keeps [.rax, .rcx, .rdx, .r8] s s' := by
  have e2 : (2 * s.reg .rcx).toNat = 2 * (s.reg .rcx).toNat :=
    Word.toNat_mul (x := 2) (a := 2) rfl rfl (by omega)
  have e0 := pair_ofNat (t := 2 * (s.reg .rcx).toNat * (s.reg .rsi).toNat) (by omega)
  have e1 := add_adc_zero (BitVec.ofNat 64 (2 * (s.reg .rcx).toNat * (s.reg .rsi).toNat / 2 ^ 64))
    (s.reg .r8) (BitVec.ofNat 64 (2 * (s.reg .rcx).toNat * (s.reg .rsi).toNat)) (by omega)
  simp only [sqrLast, Runs, exec, Option.some.injEq, exists_eq_left', noLoss_mov, noLoss_mul,
    noLoss_add, noLoss_adc, noLoss_and, noLoss_shrd, noLoss_lea2, ne_eq, reduceCtorEq,
    not_false_eq_true, true_and, and_assoc, exists_and_left]
  simp only [State.pair, State.set_reg, State.src_reg, State.src_imm, reduceCtorEq, if_false,
    if_true, e2]
  refine ⟨by omega, by omega, ?_, ?_, fun r hr => ?_, rfl, rfl⟩
  · rw [Word.toNat_and_mask 52 rfl hM]
    omega
  · rw [BitVec.toNat_ofNat, e1, Nat.mod_eq_of_lt (by omega)]
    omega
  · simp only [List.mem_cons, List.not_mem_nil, or_false, not_or] at hr
    simp only [State.set_reg, hr, if_false]

/-- `add d, d`, where the doubled word does not wrap. -/
theorem double_spec (s : State) (d : Reg) (h : (s.reg d).toNat < 2 ^ 63) :
    ∃ s', Runs NoLoss [.add d (.reg d)] s s' ∧ (s'.reg d).toNat = 2 * (s.reg d).toNat ∧
      Keeps [d] s s' := by
  refine ⟨_, ⟨fun _ => by omega, _, rfl, rfl⟩, ?_, fun r hr => ?_, rfl, rfl⟩
  · simp only [State.set_reg, if_true, State.src_reg]
    rw [Word.toNat_add rfl rfl (by omega), two_mul]
  · simp only [List.mem_cons, List.not_mem_nil, or_false] at hr
    simp only [State.set_reg, hr, if_false]

theorem sqrColumns_spec (s : State) {pa : Word} (ix : InRange x) (hx : feAt s.mem pa = x)
    (ha : s.reg .rdi = pa) (h14 : (s.reg .r14).toNat = 2 * x.n0.toNat) (h15 : s.reg .r15 = x.n1)
    (hM : (s.reg .rbp).toNat = 2 ^ 52 - 1)
    (h10 : (s.reg .r10).toNat = x.n0.toNat * x.n0.toNat % 2 ^ 52)
    (h8 : (s.reg .r8).toNat = x.n0.toNat * x.n0.toNat / 2 ^ 52) :
    ∃ s', Runs NoLoss sqrColumns s s' ∧ (mulColumnsOf x x).digits.At s' ∧ s'.reg .rsi = x.n4 ∧
      x.n4.toNat * x.n4.toNat + (s'.reg .r8).toNat = (mulColumnsOf x x).digits.t8 ∧
      Keeps [.rax, .rbx, .rcx, .rdx, .rsi, .r8, .r9, .r11, .r12, .r13, .r14, .r15] s s' := by
  have hc := (mulColumnsOf_ok ix ix).accLt
  have x3 : (s.mem (pa + 3 * 8)) = x.n3 := hx ▸ rfl
  have x4 : (s.mem (pa + 4 * 8)) = x.n4 := hx ▸ rfl
  obtain ⟨s1, r1, e1, d1, c1, k1⟩ := sqrSecond_spec s (t := (mulColumnsOf x x).acc.s1) hx ha hM
    (by
      simp only [h8, h14, h15, mulColumnsOf, Columns.acc]
      ring) hc.s1
  obtain ⟨s2, r2, d2, c2, k2⟩ := column_spec s1
    [(.reg .r14, .rbx), (.reg .r15, .r15)] (d := .r12)
    (t := (mulColumnsOf x x).acc.s2) (by decide) (by decide)
    (by simpa (disch := decide) only [k1.reg] using hM)
    (by
      simp (disch := decide) only [colSum_cons, colSum_nil, State.src_reg, k1.reg, c1, h14, h15, e1]
      simp only [mulColumnsOf, Columns.acc]
      ring)
    hc.s2
  obtain ⟨s3, r3, e3, k3⟩ := double_spec s2 .r15
    (by
      simp (disch := decide) only [k2.reg, k1.reg, h15]
      exact ix.n1.trans (by norm_num))
  simp (disch := decide) only [k2.reg, k1.reg, h15] at e3
  obtain ⟨s4, r4, e4, k4⟩ := mov_spec s3 .rcx (a 3)
  simp (disch := decide) only [a, State.src_mem, k3.reg, k2.reg, k1.reg, k3.mem, k2.mem, k1.mem,
    ha, x3] at e4
  obtain ⟨s5, r5, d5, c5, k5⟩ := column_spec s4
    [(.reg .r14, .rcx), (.reg .r15, .rbx)] (d := .r13)
    (t := (mulColumnsOf x x).acc.s3) (by decide) (by decide)
    (by simpa (disch := decide) only [k4.reg, k3.reg, k2.reg, k1.reg] using hM)
    (by
      simp (disch := decide) only [colSum_cons, colSum_nil, State.src_reg, k4.reg, k3.reg, k2.reg,
        k1.reg, c2, h14, e1, e3, e4]
      simp only [mulColumnsOf, Columns.acc]
      ring)
    hc.s3
  obtain ⟨s6, r6, e6, k6⟩ := mov_spec s5 .rsi (a 4)
  simp (disch := decide) only [a, State.src_mem, k5.reg, k4.reg, k3.reg, k2.reg, k1.reg, k5.mem,
    k4.mem, k3.mem, k2.mem, k1.mem, ha, x4] at e6
  obtain ⟨s7, r7, d7, c7, k7⟩ := column_spec s6
    [(.reg .r14, .rsi), (.reg .r15, .rcx), (.reg .rbx, .rbx)] (d := .r14)
    (t := (mulColumnsOf x x).acc.s4) (by decide) (by decide)
    (by simpa (disch := decide) only [k6.reg, k5.reg, k4.reg, k3.reg, k2.reg, k1.reg] using hM)
    (by
      simp (disch := decide) only [colSum_cons, colSum_nil, State.src_reg, k6.reg, k5.reg, k4.reg,
        k3.reg, k2.reg, k1.reg, c5, h14, e1, e3, e4, e6]
      simp only [mulColumnsOf, Columns.acc]
      ring)
    hc.s4
  obtain ⟨s8, r8, e8, k8⟩ := double_spec s7 .rbx
    (by
      simp (disch := decide) only [k7.reg, k6.reg, k5.reg, k4.reg, k3.reg, k2.reg, e1]
      exact ix.n2.trans (by norm_num))
  simp (disch := decide) only [k7.reg, k6.reg, k5.reg, k4.reg, k3.reg, k2.reg, e1] at e8
  obtain ⟨s9, r9, d9, c9, k9⟩ := column_spec s8
    [(.reg .r15, .rsi), (.reg .rbx, .rcx)] (d := .r15)
    (t := (mulColumnsOf x x).acc.s5) (by decide) (by decide)
    (by simpa (disch := decide) only [k8.reg, k7.reg, k6.reg, k5.reg, k4.reg, k3.reg, k2.reg,
      k1.reg] using hM)
    (by
      simp (disch := decide) only [colSum_cons, colSum_nil, State.src_reg, k8.reg, k7.reg, k6.reg,
        k5.reg, k4.reg, c7, e3, e4, e6, e8]
      simp only [mulColumnsOf, Columns.acc]
      ring)
    hc.s5
  obtain ⟨s10, r10, d10, c10, k10⟩ := column_spec s9
    [(.reg .rbx, .rsi), (.reg .rcx, .rcx)] (d := .rbx)
    (t := (mulColumnsOf x x).acc.s6) (by decide) (by decide)
    (by simpa (disch := decide) only [k9.reg, k8.reg, k7.reg, k6.reg, k5.reg, k4.reg, k3.reg,
      k2.reg, k1.reg] using hM)
    (by
      simp (disch := decide) only [colSum_cons, colSum_nil, State.src_reg, k9.reg, k8.reg, k7.reg,
        k6.reg, k5.reg, c9, e4, e6, e8]
      simp only [mulColumnsOf, Columns.acc]
      ring)
    hc.s6
  obtain ⟨s11, r11, d11, c11, k11⟩ := sqrLast_spec s10 (t := (mulColumnsOf x x).acc.s7)
    (by simpa (disch := decide) only [k10.reg, k9.reg, k8.reg, k7.reg, k6.reg, k5.reg, k4.reg,
      k3.reg, k2.reg, k1.reg] using hM)
    (by
      simp (disch := decide) only [k10.reg, k9.reg, k8.reg, k7.reg, k6.reg, k5.reg,
        e4]
      exact ix.n3.trans (by norm_num))
    (by
      simp (disch := decide) only [k10.reg, k9.reg, k8.reg, k7.reg, k6.reg, k5.reg,
        c10, e4, e6]
      simp only [mulColumnsOf, Columns.acc]
      ring) hc.s7
  refine ⟨s11, ?_, ?_, ?_, ?_, ?_⟩
  · exact (((((((r1.append r2).append (r3.append r4)).append r5).append r6).append r7).append
      r8).append r9).append r10 |>.append r11
  · constructor <;> simp (disch := decide) only [k11.reg, k10.reg, k9.reg, k8.reg, k7.reg, k6.reg,
      k5.reg, k4.reg, k3.reg, k2.reg, k1.reg, h10, d1, d2, d5, d7, d9, d10, d11]
    all_goals rfl
  · simp (disch := decide) only [k11.reg, k10.reg, k9.reg, k8.reg, k7.reg, e6]
  · rw [c11]
    exact Nat.add_comm _ _
  · exact (k1.mono (by decide)).trans ((k2.mono (by decide)).trans ((k3.mono (by decide)).trans
      ((k4.mono (by decide)).trans ((k5.mono (by decide)).trans ((k6.mono (by decide)).trans
      ((k7.mono (by decide)).trans ((k8.mono (by decide)).trans ((k9.mono (by decide)).trans
      ((k10.mono (by decide)).trans (k11.mono (by decide)))))))))))

/-- `secp256k1_fe_sqr_inner` up to the first instruction of `secp256k1_fe_common`. -/
def sqrCall (conv : CallConv) (rc : Word) : List Ins :=
  prologue ++ sqrArgs conv ++ sqrFirst ++ sqrColumns ++ [.mov .rax (.reg .rsi), .call rc]

theorem sqrCall_spec {conv : CallConv} {s : State} (rc : Word) {q pa pb ra : Word}
    {st : List Word}
    (hs : Call conv s q pa pb ra st) (hx : InRange (feAt s.mem pa)) :
    ∃ u, Runs NoLoss (sqrCall conv rc) s u ∧
      Handed (mulColumnsOf (feAt s.mem pa) (feAt s.mem pa)).digits s rc q ra st u := by
  obtain ⟨s1, r1, ha1, hm1, hst1⟩ : ∃ s1, Runs NoLoss (prologue ++ sqrArgs conv) s s1 ∧
      s1.reg .rdi = pa ∧ s1.mem = s.mem ∧ s1.stack = q :: (saved.map s.reg ++ ra :: st) := by
    obtain ⟨hr, ha, -, hst⟩ := hs
    cases conv with
    | jwasm =>
      refine ⟨_, (prologue_spec s).append ⟨trivial, _, rfl, trivial, _, rfl, rfl⟩, ha, rfl, ?_⟩
      simp only [State.set_stack, hst]
      exact congrArg (· :: _) hr
    | masm =>
      refine ⟨_, (prologue_spec s).append ⟨trivial, _, rfl, trivial, _, rfl, rfl⟩, ha, rfl, ?_⟩
      simp only [State.set_stack, hst]
      exact congrArg (· :: _) hr
  obtain ⟨s2, r2, e14, e15, hM, h10, h8, k2⟩ := sqrFirst_spec s1 (by rw [hm1]) hx ha1
  obtain ⟨s3, r3, hat, esi, ht8, k3⟩ := sqrColumns_spec s2 hx
    (show feAt s2.mem pa = _ by rw [k2.mem, hm1])
    (by simpa (disch := decide) only [k2.reg] using ha1) e14 e15 hM h10 h8
  obtain ⟨u, r4, hu⟩ := call_spec s3 s (.reg .rsi) rc hat
    (by simpa (disch := decide) only [k3.reg] using hM)
    (by rw [State.src_reg, esi]; exact ht8) (by rw [k3.mem, k2.mem, hm1])
    (by rw [k3.stack, k2.stack, hst1])
  exact ⟨u, ((r1.append r2).append r3).append r4, hu⟩

/-- The squaring routine writes the limbs the multiplication writes for equal operands. -/
theorem sqrInnerCode_runs {conv : CallConv} {s : State} (rc : Word) {q pa pb ra : Word}
    {st : List Word} (hs : Call conv s q pa pb ra st) (hx : InRange (feAt s.mem pa)) :
    ∃ s', Runs NoLoss (sqrInnerCode conv rc) s s' ∧
      feAt s'.mem q = (mulColumnsOf (feAt s.mem pa) (feAt s.mem pa)).digits.fold.limbs ∧
      MemKeeps q s.mem s'.mem ∧ s'.stack = st ∧ ∀ r ∈ saved, s'.reg r = s.reg r := by
  obtain ⟨u, r1, hu⟩ := sqrCall_spec rc hs hx
  obtain ⟨s', r2, h⟩ := tail_spec (mulColumnsOf_ok hx hx).digits hu
  refine ⟨s', ?_, h⟩
  rw [sqrInnerCode, List.append_assoc _ feCommon]
  exact r1.append r2

theorem sqrInnerCode_returns {conv : CallConv} {s : State} (rc : Word) {q pa pb ra : Word}
    {st : List Word} (hs : Call conv s q pa pb ra st) (hx : InRange (feAt s.mem pa)) :
    Returns (sqrInnerCode conv rc) s q
      (mulColumnsOf (feAt s.mem pa) (feAt s.mem pa)).digits.fold.limbs st := by
  obtain ⟨s', hrun, h⟩ := sqrInnerCode_runs rc hs hx
  exact ⟨s', hrun.run, h⟩

/-! ## Square and product -/

/-- The digits of `v` in base `2 ^ 52` that the fold starts from, the last one not cut. -/
structure TenDigits (v : ℕ) (s : State) : Prop where
  t0 : (s.reg .r10).toNat = v % 2 ^ 52
  t1 : (s.reg .r11).toNat = v / 2 ^ 52 % 2 ^ 52
  t2 : (s.reg .r12).toNat = v / 2 ^ 104 % 2 ^ 52
  t3 : (s.reg .r13).toNat = v / 2 ^ 156 % 2 ^ 52
  t4 : (s.reg .r14).toNat = v / 2 ^ 208 % 2 ^ 52
  t5 : (s.reg .r15).toNat = v / 2 ^ 260 % 2 ^ 52
  t6 : (s.reg .rbx).toNat = v / 2 ^ 312 % 2 ^ 52
  t7 : (s.reg .rcx).toNat = v / 2 ^ 364 % 2 ^ 52
  t8 : (s.reg .r9).toNat = v / 2 ^ 416 % 2 ^ 52
  t9 : (s.reg .rsi).toNat = v / 2 ^ 468

/-- The digits of `v` at the call of `secp256k1_fe_common`: those below the last column, and the
last column as a product and a carry. -/
structure CallDigits (v : ℕ) (s : State) : Prop where
  t0 : (s.reg .r10).toNat = v % 2 ^ 52
  t1 : (s.reg .r11).toNat = v / 2 ^ 52 % 2 ^ 52
  t2 : (s.reg .r12).toNat = v / 2 ^ 104 % 2 ^ 52
  t3 : (s.reg .r13).toNat = v / 2 ^ 156 % 2 ^ 52
  t4 : (s.reg .r14).toNat = v / 2 ^ 208 % 2 ^ 52
  t5 : (s.reg .r15).toNat = v / 2 ^ 260 % 2 ^ 52
  t6 : (s.reg .rbx).toNat = v / 2 ^ 312 % 2 ^ 52
  t7 : (s.reg .rcx).toNat = v / 2 ^ 364 % 2 ^ 52
  last : (s.reg .rax).toNat * (s.reg .rsi).toNat + (s.reg .r8).toNat = v / 2 ^ 416

theorem Handed.callDigits {t : Digits} {s0 s : State} {rc q ra : Word} {st : List Word}
    (ht : t.Ok) (h : Handed t s0 rc q ra st s) : CallDigits t.val s := by
  obtain ⟨b0, b1, b2, b3, b4, b5, b6, b7, b8⟩ := ht
  obtain ⟨d0, d1, d2, d3, d4, d5, d6, d7⟩ := h.digits
  have hlast := h.last
  constructor <;> simp only [d0, d1, d2, d3, d4, d5, d6, d7, hlast, Digits.val] <;> omega

/-- After its first instructions, which complete the last column, `secp256k1_fe_common` holds the
digits of what it was handed. -/
theorem Handed.tenDigits {t : Digits} {s0 s : State} {rc q ra : Word} {st : List Word}
    (ht : t.Ok) (h : Handed t s0 rc q ra st s) :
    ∃ u, run feCommonTop s = some u ∧ TenDigits t.val u := by
  obtain ⟨d0, d1, d2, d3, d4, d5, d6, d7, hlast⟩ := h.callDigits ht
  have b8 := ht.t8
  obtain ⟨u, hu, h9, hsi, k⟩ := feCommonTop_spec s h.mask h.last (by omega)
  have ht8 : t.t8 = t.val / 2 ^ 416 := h.last.symm.trans hlast
  refine ⟨u, hu.run, ?_⟩
  constructor <;> simp (disch := decide) only [k.reg, d0, d1, d2, d3, d4, d5, d6, d7, h9, hsi]
  · rw [ht8]
  · rw [ht8, Nat.div_div_eq_div_mul, ← pow_add]

/-- The digits of `v` reach the fold: `code` runs to the call of `secp256k1_fe_common` with the
digits of `v`, and after the first instructions there all ten are in place. -/
def HandsOver (code : List Ins) (s : State) (v : ℕ) : Prop :=
  ∃ u w, run code s = some u ∧ CallDigits v u ∧ run feCommonTop u = some w ∧ TenDigits v w

theorem Handed.handsOver {code : List Ins} {x y : Fe} {s u : State} {rc q ra : Word}
    {st : List Word} (hx : InRange x) (hy : InRange y) (hrun : Runs NoLoss code s u)
    (h : Handed (mulColumnsOf x y).digits s rc q ra st u) : HandsOver code s (x.val * y.val) := by
  have hok := (mulColumnsOf_ok hx hy).digits
  obtain ⟨w, hw, hten⟩ := h.tenDigits hok
  have hcall := h.callDigits hok
  rw [mulColumnsOf_val] at hten hcall
  exact ⟨u, w, hrun.run, hcall, hw, hten⟩

/-- The squaring routine and the multiplication of an element with itself write the same limbs. On
the way no accumulator reaches `2 ^ 116` before its shift by 52 and no doubled limb wraps, and both
hand over the digits of the square. -/
theorem x64_feSqrInner_eq_feMulInner (conv : CallConv) (x : Fe) (hx : InRange x) (s t : State)
    (rc rc' q q' pa pb pc pd ra ra' : Word) (st st' : List Word)
    (hs : Call conv s q pa pb ra st) (ha : feAt s.mem pa = x)
    (ht : Call conv t q' pc pd ra' st') (hc : feAt t.mem pc = x) (hd : feAt t.mem pd = x) :
    ∃ s' t', Runs NoLoss (sqrInnerCode conv rc) s s' ∧ Runs NoLoss (mulInnerCode conv rc') t t' ∧
      feAt s'.mem q = feAt t'.mem q' ∧ HandsOver (sqrCall conv rc) s (x.val * x.val) ∧
      HandsOver (mulCall conv rc') t (x.val * x.val) := by
  have hsx : InRange (feAt s.mem pa) := ha ▸ hx
  have htx : InRange (feAt t.mem pc) := hc ▸ hx
  have hty : InRange (feAt t.mem pd) := hd ▸ hx
  obtain ⟨s', hs', hfs, -⟩ := sqrInnerCode_runs rc hs hsx
  obtain ⟨t', ht', hft, -⟩ := mulInnerCode_runs rc' ht htx hty
  obtain ⟨u, hu, hhu⟩ := sqrCall_spec rc hs hsx
  obtain ⟨w, hw, hhw⟩ := mulCall_spec rc' ht htx hty
  refine ⟨s', t', hs', ht', ?_, ?_, ?_⟩
  · rw [hfs, hft, ha, hc, hd]
  · have := hhu.handsOver hsx hsx hu
    rwa [ha] at this
  · have := hhw.handsOver htx hty hw
    rwa [hc, hd] at this

/-- A call with every limb at its bound, the result in place of the operand. -/
def fullState : State where
  reg
    | .rdi => 0x100
    | .rsi => 0x100
    | .rdx => 0x100
    | _ => 0
  cf := false
  mem x := if x = 0x120 then 0xFFFFFFFFFFFFF else 0xFFFFFFFFFFFFFF
  stack := [0x40]

theorem x64_feSqrInner_eq_feMulInner_demo :
    ∃ s' t', Runs NoLoss (sqrInnerCode .jwasm 0x44) fullState s' ∧
      Runs NoLoss (mulInnerCode .jwasm 0x44) fullState t' ∧
      feAt s'.mem 0x100 = feAt t'.mem 0x100 := by
  obtain ⟨s', t', h1, h2, h3, -⟩ := x64_feSqrInner_eq_feMulInner .jwasm
    (feAt fullState.mem 0x100) (by constructor <;> decide) fullState fullState 0x44 0x44 0x100 0x100
    0x100 0x100 0x100 0x100 0x40 0x40 [] [] ⟨rfl, rfl, rfl, rfl⟩ rfl ⟨rfl, rfl, rfl, rfl⟩ rfl rfl
  exact ⟨s', t', h1, h2, h3⟩

end Secp256k1.Field5x52
