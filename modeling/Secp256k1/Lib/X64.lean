import Secp256k1.Lib.Word

/-!
# A straight-line x64 machine

The state is the fifteen general registers other than `rsp`, the carry flag, the memory as one
64-bit word for each aligned address, and the stack as the list of the words pushed (`rsp` points
at its head). `exec` runs one instruction and `run` a list of them; popping an empty stack is the
only fault. `Keeps l s s'` is the frame condition: only the registers of `l` and the carry flag
differ.
-/

namespace X64

abbrev Word := BitVec 64

inductive Reg where
  | rax | rbx | rcx | rdx | rsi | rdi | rbp | r8 | r9 | r10 | r11 | r12 | r13 | r14 | r15
  deriving DecidableEq, Repr

structure State where
  reg : Reg → Word
  cf : Bool
  mem : Word → Word
  stack : List Word

/-- Operands that can be read: a register, an immediate, or the word at `[base + off]`. -/
inductive Src where
  | reg (r : Reg)
  | imm (v : Word)
  | mem (base : Reg) (off : Word)
  deriving DecidableEq, Repr

inductive Ins where
  | mov (d : Reg) (s : Src)
  | store (base : Reg) (off : Word) (s : Reg)
  | add (d : Reg) (s : Src)
  | adc (d : Reg) (s : Src)
  | and (d : Reg) (s : Src)
  | xor (d : Reg) (s : Src)
  /-- `rdx:rax` becomes `rax` times the operand. -/
  | mul (s : Src)
  /-- The low word of `s:d` shifted right by `k`. -/
  | shrd (d s : Reg) (k : ℕ)
  | shr (d : Reg) (k : ℕ)
  /-- `lea d, [2*s]`. -/
  | lea2 (d s : Reg)
  | push (s : Reg)
  | pop (d : Reg)
  /-- `mov d, [rsp + 8*k]`. -/
  | peek (d : Reg) (k : ℕ)
  /-- Push the return address; the callee's instructions follow. -/
  | call (ret : Word)
  /-- Pop the return address; the caller's instructions follow. -/
  | ret
  deriving DecidableEq, Repr

def State.set (s : State) (r : Reg) (v : Word) : State :=
  { s with reg := Function.update s.reg r v }

theorem State.set_reg (s : State) (r q : Reg) (v : Word) :
    (s.set r v).reg q = if q = r then v else s.reg q := by
  simp only [State.set, Function.update_apply]

@[simp] theorem State.set_mem (s : State) (r : Reg) (v : Word) : (s.set r v).mem = s.mem := rfl

@[simp] theorem State.set_stack (s : State) (r : Reg) (v : Word) :
    (s.set r v).stack = s.stack := rfl

def State.src (s : State) : Src → Word
  | .reg r => s.reg r
  | .imm v => v
  | .mem b o => s.mem (s.reg b + o)

@[simp] theorem State.src_reg (s : State) (r : Reg) : s.src (.reg r) = s.reg r := rfl

@[simp] theorem State.src_imm (s : State) (v : Word) : s.src (.imm v) = v := rfl

@[simp] theorem State.src_mem (s : State) (b : Reg) (o : Word) :
    s.src (.mem b o) = s.mem (s.reg b + o) := rfl

/-- The carry out of a sum `t` of 64-bit words. -/
def carry (t : ℕ) : Bool := decide (2 ^ 64 ≤ t)

def exec : Ins → State → Option State
  | .mov d x, s => some (s.set d (s.src x))
  | .store b o x, s => some { s with mem := Function.update s.mem (s.reg b + o) (s.reg x) }
  | .add d x, s =>
    some { s.set d (s.reg d + s.src x) with cf := carry ((s.reg d).toNat + (s.src x).toNat) }
  | .adc d x, s =>
    let t := (s.reg d).toNat + (s.src x).toNat + s.cf.toNat
    some { s.set d (BitVec.ofNat 64 t) with cf := carry t }
  | .and d x, s => some { s.set d (s.reg d &&& s.src x) with cf := false }
  | .xor d x, s => some { s.set d (s.reg d ^^^ s.src x) with cf := false }
  | .mul x, s =>
    let t := (s.reg .rax).toNat * (s.src x).toNat
    some { (s.set .rax (BitVec.ofNat 64 t)).set .rdx (BitVec.ofNat 64 (t / 2 ^ 64)) with
      cf := carry t }
  | .shrd d x k, s =>
    let t := (s.reg x).toNat * 2 ^ 64 + (s.reg d).toNat
    some { s.set d (BitVec.ofNat 64 (t / 2 ^ k)) with cf := (s.reg d).getLsbD (k - 1) }
  | .shr d k, s => some { s.set d (s.reg d >>> k) with cf := (s.reg d).getLsbD (k - 1) }
  | .lea2 d x, s => some (s.set d (2 * s.reg x))
  | .push x, s => some { s with stack := s.reg x :: s.stack }
  | .pop d, s =>
    match s.stack with
    | v :: st => some { s.set d v with stack := st }
    | [] => none
  | .peek d k, s => s.stack[k]?.map (s.set d)
  | .call r, s => some { s with stack := r :: s.stack }
  | .ret, s =>
    match s.stack with
    | _ :: st => some { s with stack := st }
    | [] => none

def run : List Ins → State → Option State
  | [], s => some s
  | i :: is, s => (exec i s).bind (run is)

/-- A run from `s` to `t` in which `P` holds of every instruction and the state it is executed
in. -/
def Runs (P : Ins → State → Prop) : List Ins → State → State → Prop
  | [], s, t => s = t
  | i :: is, s, t => P i s ∧ ∃ u, exec i s = some u ∧ Runs P is u t

section

variable {P : Ins → State → Prop} {is js : List Ins} {s t u : State}

theorem Runs.run (h : Runs P is s t) : run is s = some t := by
  induction is generalizing s with
  | nil => exact congrArg some h
  | cons i is ih =>
    obtain ⟨-, u, hu, h⟩ := h
    rw [X64.run, hu, Option.bind_some, ih h]

theorem Runs.append (h1 : Runs P is s t) (h2 : Runs P js t u) : Runs P (is ++ js) s u := by
  induction is generalizing s with
  | nil =>
    cases h1
    exact h2
  | cons i is ih =>
    obtain ⟨hp, v, hv, h1⟩ := h1
    exact ⟨hp, v, hv, ih h1⟩

/-- Where `P` says nothing of the instructions. -/
theorem Runs.of_run (h : X64.run is s = some t) (hp : ∀ i ∈ is, ∀ s, P i s) : Runs P is s t := by
  induction is generalizing s with
  | nil => exact Option.some.inj h
  | cons i is ih =>
    obtain ⟨u, hu, h⟩ := Option.bind_eq_some_iff.mp h
    obtain ⟨hi, htl⟩ := List.forall_mem_cons.mp hp
    exact ⟨hi s, u, hu, ih h htl⟩

end

/-- Only the registers of `l` and the carry flag differ. -/
structure Keeps (l : List Reg) (s s' : State) : Prop where
  reg : ∀ r, r ∉ l → s'.reg r = s.reg r
  mem : s'.mem = s.mem
  stack : s'.stack = s.stack

theorem Keeps.refl (l : List Reg) (s : State) : Keeps l s s := ⟨fun _ _ => rfl, rfl, rfl⟩

theorem Keeps.trans {l : List Reg} {s t u : State} (h1 : Keeps l s t) (h2 : Keeps l t u) :
    Keeps l s u :=
  ⟨fun r hr => (h2.reg r hr).trans (h1.reg r hr), h2.mem.trans h1.mem, h2.stack.trans h1.stack⟩

theorem Keeps.mono {l l' : List Reg} {s t : State} (h : Keeps l s t) (hl : ∀ r ∈ l, r ∈ l') :
    Keeps l' s t :=
  ⟨fun r hr => h.reg r (fun hm => hr (hl r hm)), h.mem, h.stack⟩

/-- The registers an operand reads. -/
def Src.regs : Src → List Reg
  | .reg r => [r]
  | .imm _ => []
  | .mem b _ => [b]

/-- An operand whose registers are kept reads the same word. -/
theorem Keeps.src {l : List Reg} {s t : State} (h : Keeps l s t) {x : Src}
    (hx : ∀ r ∈ x.regs, r ∉ l) : t.src x = s.src x := by
  cases x with
  | reg r => exact h.reg r (hx r (List.mem_singleton_self r))
  | imm v => rfl
  | mem b o =>
    have hb : t.reg b = s.reg b := h.reg b (hx b (List.mem_singleton_self b))
    simp only [State.src, hb, h.mem]

/-! ## Values of double words -/

/-- The number held by the register pair `hi:lo`. -/
def State.pair (s : State) (hi lo : Reg) : ℕ := (s.reg hi).toNat * 2 ^ 64 + (s.reg lo).toNat

/-- Adding with carry into a pair of words adds the numbers, when the high word does not wrap. -/
theorem add_adc (hi lo x y : Word) {t : ℕ} (ht : t = x.toNat + y.toNat * 2 ^ 64)
    (h : hi.toNat * 2 ^ 64 + lo.toNat + t < 2 ^ 128) :
    (BitVec.ofNat 64 (hi.toNat + y.toNat + (carry (lo.toNat + x.toNat)).toNat)).toNat * 2 ^ 64 +
      (lo + x).toNat = hi.toNat * 2 ^ 64 + lo.toNat + t := by
  have hlo := lo.isLt
  have hx := x.isLt
  rw [BitVec.toNat_ofNat, BitVec.toNat_add]
  by_cases hc : 2 ^ 64 ≤ lo.toNat + x.toNat
  · have hb : (carry (lo.toNat + x.toNat)).toNat = 1 := by rw [carry, decide_eq_true hc]; rfl
    rw [hb]; omega
  · have hb : (carry (lo.toNat + x.toNat)).toNat = 0 := by rw [carry, decide_eq_false hc]; rfl
    rw [hb]; omega

/-- Adding one word into a pair. -/
theorem add_adc_zero (hi lo x : Word) (h : hi.toNat * 2 ^ 64 + lo.toNat + x.toNat < 2 ^ 128) :
    (BitVec.ofNat 64 (hi.toNat + BitVec.toNat (0 : Word) +
      (carry (lo.toNat + x.toNat)).toNat)).toNat * 2 ^ 64 + (lo + x).toNat =
      hi.toNat * 2 ^ 64 + lo.toNat + x.toNat :=
  add_adc hi lo x 0 (by simp) h

/-- The two words of a number below `2 ^ 128`. -/
theorem pair_ofNat {t : ℕ} (h : t < 2 ^ 128) :
    (BitVec.ofNat 64 (t / 2 ^ 64)).toNat * 2 ^ 64 + (BitVec.ofNat 64 t).toNat = t := by
  simp only [BitVec.toNat_ofNat]
  omega

end X64
