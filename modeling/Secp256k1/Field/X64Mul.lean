import Secp256k1.Field.X64Common

/-!
# The x64 product

`mulInnerCode` computes the digits of the product column by column and hands them to
`secp256k1_fe_common`: for operands in range it writes the limbs of `Digits.fold`, whatever the
overlap of the result with the operands.
-/

namespace Secp256k1.Field5x52

open X64

/-! ## `secp256k1_fe_mul_inner` -/

theorem mov_spec (s : State) (d : Reg) (x : Src) :
    ∃ s', Runs NoLoss [.mov d x] s s' ∧ s'.reg d = s.src x ∧ Keeps [d] s s' := by
  refine ⟨_, ⟨trivial, _, rfl, rfl⟩, by simp only [State.set_reg, if_true], fun r hr => ?_, rfl,
    rfl⟩
  simp only [List.mem_cons, List.not_mem_nil, or_false] at hr
  simp only [State.set_reg, hr, if_false]

/-! ### Entry and exit -/

/-- The registers saved on entry, in the order of the stack. -/
def saved : List Reg := [.rbp, .r15, .r14, .r13, .r12, .rsi, .rdi, .rbx]

theorem prologue_spec (s : State) :
    Runs NoLoss prologue s { s with stack := saved.map s.reg ++ s.stack } :=
  Runs.of_run rfl (by simp [prologue, uses, NoLoss])

/-- The exit code drops the pointer to the result, restores the saved registers and returns. -/
theorem epilogue_spec (s s0 : State) {q ra : Word} {st : List Word}
    (hst : s.stack = q :: (saved.map s0.reg ++ ra :: st)) :
    ∃ s', Runs NoLoss epilogue s s' ∧ s'.mem = s.mem ∧ s'.stack = st ∧
      ∀ r ∈ saved, s'.reg r = s0.reg r := by
  simp only [saved, List.map_cons, List.map_nil, List.cons_append, List.nil_append] at hst
  have hpop : ∀ (r : Reg) (u : State), NoLoss (.pop r) u := fun _ _ => trivial
  have hret : ∀ u : State, NoLoss .ret u := fun _ => trivial
  simp only [epilogue, uses, List.reverse_cons, List.reverse_nil, List.map_cons, List.map_nil,
    List.nil_append, List.cons_append, Runs, exec, hst, hpop, hret,
    Option.some.injEq, exists_eq_left', State.set_mem, true_and]
  simp only [saved, List.forall_mem_cons, List.not_mem_nil, false_imp_iff, implies_true, and_true]
  simp only [State.set_reg, reduceCtorEq, if_false, if_true, and_self]

variable {x y : Fe}

/-- What a routine called in the state `s0` hands to `secp256k1_fe_common`: the digits below the
last column, the factors and the carry of the last column, the mask, and on the stack the return
address and the pointer to the result above what the routine saved. -/
structure Handed (t : Digits) (s0 : State) (rc q ra : Word) (st : List Word) (s : State) :
    Prop where
  digits : t.At s
  last : (s.reg .rax).toNat * (s.reg .rsi).toNat + (s.reg .r8).toNat = t.t8
  mask : (s.reg .rbp).toNat = 2 ^ 52 - 1
  mem : s.mem = s0.mem
  stack : s.stack = rc :: q :: (saved.map s0.reg ++ ra :: st)

theorem call_spec (s s0 : State) (src : Src) (rc : Word) {t : Digits} {q ra : Word} {st : List Word}
    (hs : t.At s) (hM : (s.reg .rbp).toNat = 2 ^ 52 - 1)
    (h8 : (s.src src).toNat * (s.reg .rsi).toNat + (s.reg .r8).toNat = t.t8)
    (hm : s.mem = s0.mem) (hst : s.stack = q :: (saved.map s0.reg ++ ra :: st)) :
    ∃ u, Runs NoLoss [.mov .rax src, .call rc] s u ∧ Handed t s0 rc q ra st u := by
  obtain ⟨e0, e1, e2, e3, e4, e5, e6, e7⟩ := hs
  refine ⟨_, ⟨trivial, _, rfl, trivial, _, rfl, rfl⟩, ?_, h8, hM, hm, ?_⟩
  · constructor <;> assumption
  · exact congrArg (rc :: ·) hst

theorem tail_spec {s s0 : State} {t : Digits} {rc q ra : Word} {st : List Word} (ht : t.Ok)
    (h : Handed t s0 rc q ra st s) :
    ∃ s', Runs NoLoss (feCommon ++ epilogue) s s' ∧ feAt s'.mem q = t.fold.limbs ∧
      MemKeeps q s0.mem s'.mem ∧ s'.stack = st ∧ ∀ r ∈ saved, s'.reg r = s0.reg r := by
  obtain ⟨s2, r2, hfe, hmem, hst2, -⟩ := feCommon_spec s ht h.digits h.last h.mask h.stack
  obtain ⟨s3, r3, hm3, hst3, hreg⟩ := epilogue_spec s2 s0 hst2
  refine ⟨s3, r2.append r3, by rw [hm3, hfe], ?_, hst3, hreg⟩
  rw [hm3, ← h.mem]
  exact hmem

theorem mulFirst_spec (s : State) {pa pb : Word} (hx : feAt s.mem pa = x) (hy : feAt s.mem pb = y)
    (ha : s.reg .rdi = pa) (hb : s.reg .rsi = pb) (h : x.n0.toNat * y.n0.toNat < 2 ^ 116) :
    ∃ s', Runs NoLoss mulFirst s s' ∧ s'.reg .r14 = y.n0 ∧ s'.reg .r15 = y.n1 ∧
      (s'.reg .rbp).toNat = 2 ^ 52 - 1 ∧
      (s'.reg .r10).toNat = x.n0.toNat * y.n0.toNat % 2 ^ 52 ∧
      (s'.reg .r8).toNat = x.n0.toNat * y.n0.toNat / 2 ^ 52 ∧
      Keeps [.rax, .rdx, .rbp, .r8, .r10, .r14, .r15] s s' := by
  subst hx hy ha hb
  have e0 := pair_ofNat (t := (s.mem (s.reg .rdi + 0 * 8)).toNat *
    (s.mem (s.reg .rsi + 0 * 8)).toNat) (by simp only [feAt] at h; omega)
  simp only [mulFirst, a, b, Runs, exec, Option.some.injEq, exists_eq_left', noLoss_mov, noLoss_mul,
    noLoss_and, noLoss_shrd, true_and, and_assoc, exists_and_left]
  simp only [State.pair, State.set_reg, State.src_reg, State.src_imm, State.src_mem, State.set_mem,
    reduceCtorEq, if_false, if_true, feAt] at *
  refine ⟨by omega, trivial, trivial, by decide, ?_, ?_, fun r hr => ?_, rfl, rfl⟩
  · rw [BitVec.and_comm, Word.toNat_and_mask 52 rfl (by decide), BitVec.toNat_ofNat]
    omega
  · rw [BitVec.toNat_ofNat, e0, Nat.mod_eq_of_lt (by omega)]
  · simp only [List.mem_cons, List.not_mem_nil, or_false, not_or] at hr
    simp only [State.set_reg, hr, if_false]

theorem mulColumns_spec (s : State) {pa pb : Word} (hc : (mulColumnsOf x y).AccLt)
    (hx : feAt s.mem pa = x) (hy : feAt s.mem pb = y) (ha : s.reg .rdi = pa)
    (hb : s.reg .rsi = pb) (h14 : s.reg .r14 = y.n0) (h15 : s.reg .r15 = y.n1)
    (hM : (s.reg .rbp).toNat = 2 ^ 52 - 1)
    (h10 : (s.reg .r10).toNat = x.n0.toNat * y.n0.toNat % 2 ^ 52)
    (h8 : (s.reg .r8).toNat = x.n0.toNat * y.n0.toNat / 2 ^ 52) :
    ∃ s', Runs NoLoss mulColumns s s' ∧ (mulColumnsOf x y).digits.At s' ∧
      x.n4.toNat * (s'.reg .rsi).toNat + (s'.reg .r8).toNat = (mulColumnsOf x y).digits.t8 ∧
      Keeps [.rax, .rbx, .rcx, .rdx, .rsi, .r8, .r9, .r11, .r12, .r13, .r14, .r15] s s' := by
  have x0 : (s.mem (pa + 0 * 8)) = x.n0 := hx ▸ rfl
  have x1 : (s.mem (pa + 1 * 8)) = x.n1 := hx ▸ rfl
  have x2 : (s.mem (pa + 2 * 8)) = x.n2 := hx ▸ rfl
  have x3 : (s.mem (pa + 3 * 8)) = x.n3 := hx ▸ rfl
  have x4 : (s.mem (pa + 4 * 8)) = x.n4 := hx ▸ rfl
  have y2 : (s.mem (pb + 2 * 8)) = y.n2 := hy ▸ rfl
  have y3 : (s.mem (pb + 3 * 8)) = y.n3 := hy ▸ rfl
  have y4 : (s.mem (pb + 4 * 8)) = y.n4 := hy ▸ rfl
  obtain ⟨s1, r1, d1, c1, k1⟩ := column_spec s
    [(a 0, .r15), (a 1, .r14)] (d := .r11)
    (t := (mulColumnsOf x y).acc.s1) (by decide) (by decide)
    hM
    (by
      simp (disch := decide) only [colSum_cons, colSum_nil, a, State.src_mem, ha, h8, x0, x1, h15,
        h14]
      simp only [mulColumnsOf, Columns.acc, Nat.add_assoc, Nat.add_zero])
    hc.s1
  obtain ⟨s2, r2, l2, k2⟩ := mov_spec s1 .rbx (b 2)
  simp (disch := decide) only [b, State.src_mem, k1.reg, k1.mem, hb, y2] at l2
  obtain ⟨s3, r3, d3, c3, k3⟩ := column_spec s2
    [(a 0, .rbx), (a 1, .r15), (a 2, .r14)] (d := .r12)
    (t := (mulColumnsOf x y).acc.s2) (by decide) (by decide)
    (by simpa (disch := decide) only [k2.reg, k1.reg] using hM)
    (by
      simp (disch := decide) only [colSum_cons, colSum_nil, a, State.src_mem, ha, k2.reg, k1.reg,
        k2.mem, k1.mem, c1, x0, x1, x2, l2, h15, h14]
      simp only [mulColumnsOf, Columns.acc, Nat.add_assoc, Nat.add_zero])
    hc.s2
  obtain ⟨s4, r4, l4, k4⟩ := mov_spec s3 .rcx (b 3)
  simp (disch := decide) only [b, State.src_mem, k3.reg, k2.reg, k1.reg, k3.mem, k2.mem, k1.mem,
    hb, y3] at l4
  obtain ⟨s5, r5, d5, c5, k5⟩ := column_spec s4
    [(a 0, .rcx), (a 1, .rbx), (a 2, .r15), (a 3, .r14)] (d := .r13)
    (t := (mulColumnsOf x y).acc.s3) (by decide) (by decide)
    (by simpa (disch := decide) only [k4.reg, k3.reg, k2.reg, k1.reg] using hM)
    (by
      simp (disch := decide) only [colSum_cons, colSum_nil, a, State.src_mem, ha, k4.reg, k3.reg,
        k2.reg, k1.reg, k4.mem, k3.mem, k2.mem, k1.mem, c3, x0, x1, x2, x3, l4, l2, h15, h14]
      simp only [mulColumnsOf, Columns.acc, Nat.add_assoc, Nat.add_zero])
    hc.s3
  obtain ⟨s6, r6, l6, k6⟩ := mov_spec s5 .rsi (b 4)
  simp (disch := decide) only [b, State.src_mem, k5.reg, k4.reg, k3.reg, k2.reg, k1.reg, k5.mem,
    k4.mem, k3.mem, k2.mem, k1.mem, hb, y4] at l6
  obtain ⟨s7, r7, d7, c7, k7⟩ := column_spec s6
    [(a 0, .rsi), (a 1, .rcx), (a 2, .rbx), (a 3, .r15), (a 4, .r14)] (d := .r14)
    (t := (mulColumnsOf x y).acc.s4) (by decide) (by decide)
    (by simpa (disch := decide) only [k6.reg, k5.reg, k4.reg, k3.reg, k2.reg, k1.reg] using hM)
    (by
      simp (disch := decide) only [colSum_cons, colSum_nil, a, State.src_mem, ha, k6.reg, k5.reg,
        k4.reg, k3.reg, k2.reg, k1.reg, k6.mem, k5.mem, k4.mem, k3.mem, k2.mem, k1.mem, c5, x0, x1,
        x2, x3, x4, l6, l4, l2, h15, h14]
      simp only [mulColumnsOf, Columns.acc, Nat.add_assoc, Nat.add_zero])
    hc.s4
  obtain ⟨s8, r8, d8, c8, k8⟩ := column_spec s7
    [(a 1, .rsi), (a 2, .rcx), (a 3, .rbx), (a 4, .r15)] (d := .r15)
    (t := (mulColumnsOf x y).acc.s5) (by decide) (by decide)
    (by simpa (disch := decide) only [k7.reg, k6.reg, k5.reg, k4.reg, k3.reg, k2.reg, k1.reg] using
      hM)
    (by
      simp (disch := decide) only [colSum_cons, colSum_nil, a, State.src_mem, ha, k7.reg, k6.reg,
        k5.reg, k4.reg, k3.reg, k2.reg, k1.reg, k7.mem, k6.mem, k5.mem, k4.mem, k3.mem, k2.mem,
        k1.mem, c7, x1, x2, x3, x4, l6, l4, l2, h15]
      simp only [mulColumnsOf, Columns.acc, Nat.add_assoc, Nat.add_zero])
    hc.s5
  obtain ⟨s9, r9, d9, c9, k9⟩ := column_spec s8
    [(a 2, .rsi), (a 3, .rcx), (a 4, .rbx)] (d := .rbx)
    (t := (mulColumnsOf x y).acc.s6) (by decide) (by decide)
    (by simpa (disch := decide) only [k8.reg, k7.reg, k6.reg, k5.reg, k4.reg, k3.reg, k2.reg,
      k1.reg] using hM)
    (by
      simp (disch := decide) only [colSum_cons, colSum_nil, a, State.src_mem, ha, k8.reg, k7.reg,
        k6.reg, k5.reg, k4.reg, k3.reg, k2.reg, k1.reg, k8.mem, k7.mem, k6.mem, k5.mem, k4.mem,
        k3.mem, k2.mem, k1.mem, c8, x2, x3, x4, l6, l4, l2]
      simp only [mulColumnsOf, Columns.acc, Nat.add_assoc, Nat.add_zero])
    hc.s6
  obtain ⟨s10, r10, d10, c10, k10⟩ := column_spec s9
    [(a 3, .rsi), (a 4, .rcx)] (d := .rcx)
    (t := (mulColumnsOf x y).acc.s7) (by decide) (by decide)
    (by simpa (disch := decide) only [k9.reg, k8.reg, k7.reg, k6.reg, k5.reg, k4.reg, k3.reg,
      k2.reg, k1.reg] using hM)
    (by
      simp (disch := decide) only [colSum_cons, colSum_nil, a, State.src_mem, ha, k9.reg, k8.reg,
        k7.reg, k6.reg, k5.reg, k4.reg, k3.reg, k2.reg, k1.reg, k9.mem, k8.mem, k7.mem, k6.mem,
        k5.mem, k4.mem, k3.mem, k2.mem, k1.mem, c9, x3, x4, l6, l4]
      simp only [mulColumnsOf, Columns.acc, Nat.add_assoc, Nat.add_zero])
    hc.s7
  refine ⟨s10, ?_, ?_, ?_, ?_⟩
  · exact ((((((((r1.append r2).append r3).append r4).append r5).append r6).append r7).append
      r8).append r9).append r10
  · constructor <;> simp (disch := decide) only [k10.reg, k9.reg, k8.reg, k7.reg, k6.reg, k5.reg,
      k4.reg, k3.reg, k2.reg, k1.reg, h10, d1, d3, d5, d7, d8, d9, d10]
    all_goals rfl
  · simp (disch := decide) only [k10.reg, k9.reg, k8.reg, k7.reg, l6, c10]
    exact Nat.add_comm _ _
  · exact (k1.mono (by decide)).trans ((k2.mono (by decide)).trans ((k3.mono (by decide)).trans
      ((k4.mono (by decide)).trans ((k5.mono (by decide)).trans ((k6.mono (by decide)).trans
      ((k7.mono (by decide)).trans ((k8.mono (by decide)).trans ((k9.mono (by decide)).trans
      (k10.mono (by decide))))))))))

/-- A call of a multiplication routine: the arguments, and the return address on the stack. -/
structure Call (conv : CallConv) (s : State) (q pa pb ra : Word) (st : List Word) : Prop where
  r : s.reg conv.args.1 = q
  a : s.reg conv.args.2.1 = pa
  b : s.reg conv.args.2.2 = pb
  stack : s.stack = ra :: st

/-- The routine returns to its caller with the saved registers restored, having written the limbs
`l` at `q` and nothing else. -/
def Returns (code : List Ins) (s : State) (q : Word) (l : Fe) (st : List Word) : Prop :=
  ∃ s', run code s = some s' ∧ feAt s'.mem q = l ∧ MemKeeps q s.mem s'.mem ∧ s'.stack = st ∧
    ∀ r ∈ saved, s'.reg r = s.reg r

/-- `secp256k1_fe_mul_inner` up to the first instruction of `secp256k1_fe_common`. -/
def mulCall (conv : CallConv) (rc : Word) : List Ins :=
  prologue ++ mulArgs conv ++ mulFirst ++ mulColumns ++ [.mov .rax (a 4), .call rc]

theorem mulCall_spec {conv : CallConv} {s : State} (rc : Word) {q pa pb ra : Word}
    {st : List Word}
    (hs : Call conv s q pa pb ra st) (hx : InRange (feAt s.mem pa)) (hy : InRange (feAt s.mem pb)) :
    ∃ u, Runs NoLoss (mulCall conv rc) s u ∧
      Handed (mulColumnsOf (feAt s.mem pa) (feAt s.mem pb)).digits s rc q ra st u := by
  have hok := mulColumnsOf_ok hx hy
  obtain ⟨s1, r1, ha1, hb1, hm1, hst1⟩ : ∃ s1, Runs NoLoss (prologue ++ mulArgs conv) s s1 ∧
      s1.reg .rdi = pa ∧ s1.reg .rsi = pb ∧ s1.mem = s.mem ∧
      s1.stack = q :: (saved.map s.reg ++ ra :: st) := by
    obtain ⟨hr, ha, hb, hst⟩ := hs
    cases conv with
    | jwasm =>
      refine ⟨_, (prologue_spec s).append ⟨trivial, _, rfl, trivial, _, rfl, trivial, _, rfl, rfl⟩,
        ha, hb, rfl, ?_⟩
      simp only [State.set_stack, hst]
      exact congrArg (· :: _) hr
    | masm =>
      refine ⟨_, (prologue_spec s).append ⟨trivial, _, rfl, trivial, _, rfl, trivial, _, rfl, rfl⟩,
        ha, hb, rfl, ?_⟩
      simp only [State.set_stack, hst]
      exact congrArg (· :: _) hr
  obtain ⟨s2, r2, e14, e15, hM, h10, h8, k2⟩ := mulFirst_spec s1 (by rw [hm1]) (by rw [hm1]) ha1
    hb1 hok.accLt.s0
  obtain ⟨s3, r3, hat, ht8, k3⟩ := mulColumns_spec s2 hok.accLt
    (show feAt s2.mem pa = _ by rw [k2.mem, hm1]) (show feAt s2.mem pb = _ by rw [k2.mem, hm1])
    (by simpa (disch := decide) only [k2.reg] using ha1)
    (by simpa (disch := decide) only [k2.reg] using hb1) e14 e15 hM h10 h8
  have hmem : s3.mem = s.mem := by rw [k3.mem, k2.mem, hm1]
  obtain ⟨u, r4, hu⟩ := call_spec s3 s (a 4) rc hat
    (by simpa (disch := decide) only [k3.reg] using hM)
    (by
      simp (disch := decide) only [a, State.src_mem, k3.reg, k2.reg, ha1, hmem]
      exact ht8)
    hmem (by rw [k3.stack, k2.stack, hst1])
  exact ⟨u, ((r1.append r2).append r3).append r4, hu⟩

/-- The run of the routine, with nothing lost on the way. -/
theorem mulInnerCode_runs {conv : CallConv} {s : State} (rc : Word) {q pa pb ra : Word}
    {st : List Word} (hs : Call conv s q pa pb ra st) (hx : InRange (feAt s.mem pa))
    (hy : InRange (feAt s.mem pb)) :
    ∃ s', Runs NoLoss (mulInnerCode conv rc) s s' ∧
      feAt s'.mem q = (mulColumnsOf (feAt s.mem pa) (feAt s.mem pb)).digits.fold.limbs ∧
      MemKeeps q s.mem s'.mem ∧ s'.stack = st ∧ ∀ r ∈ saved, s'.reg r = s.reg r := by
  obtain ⟨u, r1, hu⟩ := mulCall_spec rc hs hx hy
  obtain ⟨s', r2, h⟩ := tail_spec (mulColumnsOf_ok hx hy).digits hu
  refine ⟨s', ?_, h⟩
  rw [mulInnerCode, List.append_assoc _ feCommon]
  exact r1.append r2

theorem mulInnerCode_returns {conv : CallConv} {s : State} (rc : Word) {q pa pb ra : Word}
    {st : List Word} (hs : Call conv s q pa pb ra st) (hx : InRange (feAt s.mem pa))
    (hy : InRange (feAt s.mem pb)) :
    Returns (mulInnerCode conv rc) s q
      (mulColumnsOf (feAt s.mem pa) (feAt s.mem pb)).digits.fold.limbs st := by
  obtain ⟨s', hrun, h⟩ := mulInnerCode_runs rc hs hx hy
  exact ⟨s', hrun.run, h⟩

end Secp256k1.Field5x52
