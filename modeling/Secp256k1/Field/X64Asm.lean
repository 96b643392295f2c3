import Secp256k1.Lib.X64

/-!
# The x64 multiplication and squaring routines

`field_5x52_x64.asm`, instruction by instruction. The routines take the pointers to the result and
the operands in the registers of the assembler's calling convention (`rdi`, `rsi`, `rdx` under
JWASM, `rcx`, `rdx`, `r8` otherwise); the pushes and pops of the `USES` clause stand where the
assembler puts them. The code has no jump but the call of `secp256k1_fe_common`, whose
instructions stand after the `call`.
-/

namespace Secp256k1.Field5x52

open X64

inductive CallConv where
  | jwasm
  | masm
  deriving DecidableEq, Repr

/-- The registers of the result and the operands. -/
def CallConv.args : CallConv → Reg × Reg × Reg
  | .jwasm => (.rdi, .rsi, .rdx)
  | .masm => (.rcx, .rdx, .r8)

/-- `MACRO fma_52_add d, s`. -/
def fma52Add (d s : Reg) : List Ins := [
  .mov .rax (.reg s),
  .mul (.reg .rdi),
  .add .rax (.reg d),
  .adc .rdx (.imm 0),
  .add .r8 (.reg .rax),
  .adc .rdx (.imm 0),
  .mov d (.reg .r8),
  .shrd .r8 .rdx 52,
  .and d (.reg .rbp)]

/-- The first instructions of `secp256k1_fe_common`: the last column of the product, split into
the digits `t8` (`r9`) and `t9` (`rsi`). -/
def feCommonTop : List Ins := [
  .mul (.reg .rsi),
  .add .rax (.reg .r8),
  .adc .rdx (.imm 0),
  .mov .r9 (.reg .rax),
  .and .r9 (.reg .rbp),
  .shrd .rax .rdx 52,
  .mov .rsi (.reg .rax)]

/-- The fold of `t5..t8` into `t0..t3`. -/
def feCommonFold : List Ins :=
  [.mov .rdi (.imm 0x1000003D10), .xor .r8 (.reg .r8)] ++
  fma52Add .r10 .r15 ++
  fma52Add .r11 .rbx ++
  fma52Add .r12 .rcx ++
  fma52Add .r13 .r9

/-- The fold of `t9` into `t4`, cut at 48 bits. -/
def feCommonCut : List Ins := [
  .mov .rax (.reg .rsi),
  .mul (.reg .rdi),
  .add .rax (.reg .r14),
  .adc .rdx (.imm 0),
  .add .rax (.reg .r8),
  .adc .rdx (.imm 0),
  .mov .r14 (.imm 0xFFFFFFFFFFFF),
  .and .r14 (.reg .rax),
  .shrd .rax .rdx 48]

/-- The fold of the bits from 256 on into the two low digits. -/
def feCommonLow : List Ins := [
  .shr .rdi 4,
  .mul (.reg .rdi),
  .add .rax (.reg .r10),
  .adc .rdx (.imm 0),
  .and .rbp (.reg .rax),
  .shrd .rax .rdx 52,
  .add .rax (.reg .r11)]

def feCommonStore : List Ins := [
  .peek .rbx 1,
  .store .rbx (0 * 8) .rbp,
  .store .rbx (1 * 8) .rax,
  .store .rbx (2 * 8) .r12,
  .store .rbx (3 * 8) .r13,
  .store .rbx (4 * 8) .r14]

def feCommon : List Ins :=
  feCommonTop ++ feCommonFold ++ feCommonCut ++ feCommonLow ++ feCommonStore ++ [.ret]

/-- `MACRO fma_f8_f9 s, m`. -/
def fmaF8F9 (s : Src) (m : Reg) : List Ins := [
  .mov .rax s,
  .mul (.reg m),
  .add .r8 (.reg .rax),
  .adc .r9 (.reg .rdx)]

/-- `USES RBX RDI RSI R12 R13 R14 R15`. -/
def uses : List Reg := [.rbx, .rdi, .rsi, .r12, .r13, .r14, .r15]

def prologue : List Ins := uses.map .push ++ [.push .rbp]

def epilogue : List Ins := [.pop .rax, .pop .rbp] ++ uses.reverse.map .pop ++ [.ret]

/-- `xor r9, r9`, the products of one column, then `mov d, rbp`, `and d, r8`, `shrd r8, r9, 52`. -/
def column (fs : List (Src × Reg)) (d : Reg) : List Ins :=
  [.xor .r9 (.reg .r9)] ++ fs.flatMap (fun f => fmaF8F9 f.1 f.2) ++
  [.mov d (.reg .rbp), .and d (.reg .r8), .shrd .r8 .r9 52]

def a (i : Word) : Src := .mem .rdi (i * 8)

def b (i : Word) : Src := .mem .rsi (i * 8)

def mulArgs : CallConv → List Ins
  | .jwasm => [.push .rdi, .mov .rdi (.reg .rsi), .mov .rsi (.reg .rdx)]
  | .masm => [.push .rcx, .mov .rdi (.reg .rdx), .mov .rsi (.reg .r8)]

/-- `c = a.n[0] * b.n[0]`. -/
def mulFirst : List Ins := [
  .mov .r14 (b 0),
  .mov .rax (a 0),
  .mov .rbp (.imm 0xFFFFFFFFFFFFF),
  .mul (.reg .r14),
  .mov .r15 (b 1),
  .mov .r10 (.reg .rbp),
  .mov .r8 (.reg .rax),
  .and .r10 (.reg .rax),
  .shrd .r8 .rdx 52]

/-- The eight columns below the last one, with the loads of `b.n[2..4]` between them. -/
def mulColumns : List Ins :=
  column [(a 0, .r15), (a 1, .r14)] .r11 ++
  [.mov .rbx (b 2)] ++
  column [(a 0, .rbx), (a 1, .r15), (a 2, .r14)] .r12 ++
  [.mov .rcx (b 3)] ++
  column [(a 0, .rcx), (a 1, .rbx), (a 2, .r15), (a 3, .r14)] .r13 ++
  [.mov .rsi (b 4)] ++
  column [(a 0, .rsi), (a 1, .rcx), (a 2, .rbx), (a 3, .r15), (a 4, .r14)] .r14 ++
  column [(a 1, .rsi), (a 2, .rcx), (a 3, .rbx), (a 4, .r15)] .r15 ++
  column [(a 2, .rsi), (a 3, .rcx), (a 4, .rbx)] .rbx ++
  column [(a 3, .rsi), (a 4, .rcx)] .rcx

/-- `secp256k1_fe_mul_inner`; `rc` is the return address of its call of `secp256k1_fe_common`. -/
def mulInnerCode (conv : CallConv) (rc : Word) : List Ins :=
  prologue ++ mulArgs conv ++ mulFirst ++ mulColumns ++ [.mov .rax (a 4), .call rc] ++
  feCommon ++ epilogue

def sqrArgs : CallConv → List Ins
  | .jwasm => [.push .rdi, .mov .rdi (.reg .rsi)]
  | .masm => [.push .rcx, .mov .rdi (.reg .rdx)]

/-- `c = a.n[0] * a.n[0]`. -/
def sqrFirst : List Ins := [
  .mov .rbp (.imm 0xFFFFFFFFFFFFF),
  .mov .r14 (a 0),
  .mov .r10 (.reg .rbp),
  .mov .rax (.reg .r14),
  .mul (.reg .rax),
  .mov .r15 (a 1),
  .add .r14 (.reg .r14),
  .mov .r8 (.reg .rax),
  .and .r10 (.reg .rax),
  .shrd .r8 .rdx 52]

/-- `c += 2*a.n[0] * a.n[1]`, kept in `rdx:r8`. -/
def sqrSecond : List Ins := [
  .mov .rax (.reg .r14),
  .mul (.reg .r15),
  .mov .rbx (a 2),
  .mov .r11 (.reg .rbp),
  .add .r8 (.reg .rax),
  .adc .rdx (.imm 0),
  .and .r11 (.reg .r8),
  .shrd .r8 .rdx 52]

/-- `c += 2*a.n[3] * a.n[4]`, kept in `rdx:r8`. -/
def sqrLast : List Ins := [
  .lea2 .rax .rcx,
  .mul (.reg .rsi),
  .add .r8 (.reg .rax),
  .adc .rdx (.imm 0),
  .mov .rcx (.reg .r8),
  .and .rcx (.reg .rbp),
  .shrd .r8 .rdx 52]

def sqrColumns : List Ins :=
  sqrSecond ++
  column [(.reg .r14, .rbx), (.reg .r15, .r15)] .r12 ++
  [.add .r15 (.reg .r15), .mov .rcx (a 3)] ++
  column [(.reg .r14, .rcx), (.reg .r15, .rbx)] .r13 ++
  [.mov .rsi (a 4)] ++
  column [(.reg .r14, .rsi), (.reg .r15, .rcx), (.reg .rbx, .rbx)] .r14 ++
  [.add .rbx (.reg .rbx)] ++
  column [(.reg .r15, .rsi), (.reg .rbx, .rcx)] .r15 ++
  column [(.reg .rbx, .rsi), (.reg .rcx, .rcx)] .rbx ++
  sqrLast

/-- `secp256k1_fe_sqr_inner`. -/
def sqrInnerCode (conv : CallConv) (rc : Word) : List Ins :=
  prologue ++ sqrArgs conv ++ sqrFirst ++ sqrColumns ++ [.mov .rax (.reg .rsi), .call rc] ++
  feCommon ++ epilogue

end Secp256k1.Field5x52
