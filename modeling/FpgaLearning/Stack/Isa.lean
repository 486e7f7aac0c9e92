/-
The instruction set of the stack processor of Calc2: `ProcessorTypes.sv`, `ALU.sv`, the decoding table of
`FetchStage.sv`, and what one instruction does.

A word with bit 31 clear is a constant to push. Any other word names a source for operand B and one for operand A, an
ALU operation, a 22-bit signed immediate and a destination. B is taken before A, so `stack, stack` pops B first.
`Arch` is what a program can observe; `Arch.exec` executes one decoded instruction in three parts, `loadB`, `loadA` and
`save`, and `Arch.step` the word at pc.

SystemVerilog leaves a division by zero undefined; `DivByZero` is what the divider happens to show then.
-/
import FpgaLearning.Core.Memory

namespace FpgaLearning.Stack

open FpgaLearning.Memory

/-! ## ProcessorTypes -/

/-- `operand_source_t` -/
inductive OperandSource where
  | imm | stack | stackImm | fp | fpImm | ppc | addr | addrImm
deriving DecidableEq, Repr

/-- `store_destination_t` -/
inductive StoreDestination where
  | none | stack | mem | fp | pc | pcZ | pcNz
deriving DecidableEq, Repr

/-- `alu_op_t`; `reserved` stands for the codes 21 to 31 -/
inductive AluOp where
  | zero | negate | add | sub | mult | div | rem | and | or | not | xor | a | b | shl | shr | eq | neq | lt | gt | le | ge
  | reserved
deriving DecidableEq, Repr

def AluOp.ofBits (code : BitVec 5) : AluOp :=
  match code.toNat with
  | 0 => .zero | 1 => .negate | 2 => .add | 3 => .sub | 4 => .mult | 5 => .div | 6 => .rem
  | 7 => .and | 8 => .or | 9 => .not | 10 => .xor | 11 => .a | 12 => .b | 13 => .shl | 14 => .shr
  | 15 => .eq | 16 => .neq | 17 => .lt | 18 => .gt | 19 => .le | 20 => .ge
  | _ => .reserved

/-! ## ALU -/

/-- quotient and remainder of a dividend and zero -/
structure DivByZero where
  quot : Word → Word
  rem : Word → Word

namespace ALU

def boolWord (p : Bool) : Word := if p then 1 else 0

/-- `results[iop]` -/
def result (z : DivByZero) (iop : AluOp) (a b : Word) : Word :=
  match iop with
  | .zero => 0
  | .negate => -a
  | .add => a + b
  | .sub => a - b
  | .mult => a * b
  | .div => if b = 0 then z.quot a else a / b
  | .rem => if b = 0 then z.rem a else a % b
  | .and => a &&& b
  | .or => a ||| b
  | .not => ~~~a
  | .xor => a ^^^ b
  | .a => a
  | .b => b
  | .shl => a <<< b
  | .shr => a >>> b
  | .eq => boolWord (a == b)
  | .neq => boolWord (a != b)
  | .lt => boolWord (a.slt b)
  | .gt => boolWord (b.slt a)
  | .le => boolWord (a.sle b)
  | .ge => boolWord (b.sle a)
  | .reserved => 0

end ALU

/-! ## Decoding -/

structure Insn where
  imm : Word
  opASrc : OperandSource
  opBSrc : OperandSource
  resDst : StoreDestination
  aluOp : AluOp
deriving DecidableEq, Repr

/-- the addressing modes, `case (pc_mem_data[3:0])` -/
def mode (code : BitVec 4) : OperandSource × OperandSource × StoreDestination :=
  match code.toNat with
  | 0 => (.stack, .stack, .stack)
  | 1 => (.stack, .imm, .stack)
  | 2 => (.addr, .imm, .stack)
  | 3 => (.stack, .imm, .mem)
  | 4 => (.addr, .stack, .stack)
  | 5 => (.stack, .stack, .mem)
  | 6 => (.addr, .fpImm, .stack)
  | 7 => (.stack, .fpImm, .mem)
  | 8 => (.fp, .imm, .stack)
  | 9 => (.stack, .imm, .fp)
  | 10 => (.fp, .imm, .fp)
  | 11 => (.imm, .stack, .pc)
  | 12 => (.stack, .stack, .pcZ)
  | 13 => (.stack, .stack, .pcNz)
  | 14 => (.ppc, .imm, .stack)
  | _ => (.imm, .imm, .none)

/-- operand A, operand B and destination of the decoded word -/
def decode (w : Word) : Insn :=
  if w.getLsbD 31 = false then
    ⟨(w.extractLsb' 0 31).setWidth 32, .imm, .imm, .stack, .a⟩
  else
    let m := mode (w.extractLsb' 0 4)
    ⟨(w.extractLsb' 9 22).signExtend 32, m.1, m.2.1, m.2.2, AluOp.ofBits (w.extractLsb' 4 5)⟩

/-- operand B never reads memory at an address operand -/
theorem mode_opB (code : BitVec 4) :
    (mode code).2.1 = .imm ∨ (mode code).2.1 = .stack ∨ (mode code).2.1 = .fpImm := by
  revert code; decide

theorem mode_opA (code : BitVec 4) : (mode code).1 = .imm ∨ (mode code).1 = .stack ∨ (mode code).1 = .addr ∨
    (mode code).1 = .fp ∨ (mode code).1 = .ppc := by
  revert code; decide

theorem decode_opB (w : Word) : (decode w).opBSrc = .imm ∨ (decode w).opBSrc = .stack ∨ (decode w).opBSrc = .fpImm := by
  unfold decode
  split_ifs
  · exact .inl rfl
  · exact mode_opB _

theorem decode_opA (w : Word) : (decode w).opASrc = .imm ∨ (decode w).opASrc = .stack ∨ (decode w).opASrc = .addr ∨
    (decode w).opASrc = .fp ∨ (decode w).opASrc = .ppc := by
  unfold decode
  split_ifs
  · exact .inl rfl
  · exact mode_opA _

/-! ## Architectural state -/

/-- the RAM behind `mmio`: 2^15 words -/
abbrev RamWords := BitVec 15 → Word

@[ext] structure Arch where
  pc : Word
  ppc : Word
  sp : Word
  fp : Word
  mem : RamWords
  out1 : Word

namespace Arch

def init (mem : RamWords) : Arch := ⟨0, 0, 0, 0, mem, 0⟩

/-- addresses with bit 30 belong to the output register, all others to the RAM -/
def load (s : Arch) (addr : Word) : Word := if addr.getLsbD 30 then s.out1 else s.mem (addr.setWidth 15)

def store (s : Arch) (addr val : Word) : Arch :=
  if addr.getLsbD 30 then { s with out1 := val } else { s with mem := Function.update s.mem (addr.setWidth 15) val }

@[simp] theorem store_pc (s : Arch) (addr val : Word) : (s.store addr val).pc = s.pc := by unfold store; split_ifs <;> rfl

@[simp] theorem store_ppc (s : Arch) (addr val : Word) : (s.store addr val).ppc = s.ppc := by
  unfold store; split_ifs <;> rfl

@[simp] theorem store_sp (s : Arch) (addr val : Word) : (s.store addr val).sp = s.sp := by unfold store; split_ifs <;> rfl

@[simp] theorem store_fp (s : Arch) (addr val : Word) : (s.store addr val).fp = s.fp := by unfold store; split_ifs <;> rfl

/-- operand B, and the state after it: the word below sp is popped -/
def loadB (i : Insn) (s : Arch) : Word × Arch :=
  match i.opBSrc with
  | .stack => (s.load (s.sp - 1), { s with sp := s.sp - 1 })
  | .fpImm => (s.fp + i.imm, s)
  | _ => (i.imm, s)

/-- operand A: popped, read at address `b`, or taken from the instruction or a register -/
def loadA (i : Insn) (b : Word) (s : Arch) : Word × Arch :=
  match i.opASrc with
  | .stack => (s.load (s.sp - 1), { s with sp := s.sp - 1 })
  | .addr => (s.load b, s)
  | .fp => (s.fp, s)
  | .ppc => (s.ppc, s)
  | _ => (i.imm, s)

/-- a taken jump goes to `b` and remembers the pc -/
def jump (taken : Bool) (b : Word) (s : Arch) : Arch := if taken then { s with pc := b, ppc := s.pc } else s

/-- the address of the memory write of an instruction -/
def storeAddr (i : Insn) (b : Word) (s : Arch) : Option Word :=
  match i.resDst with
  | .stack => some s.sp
  | .mem => some b
  | _ => none

/-- the result `r` goes to its destination -/
def save (i : Insn) (a b r : Word) (s : Arch) : Arch :=
  match i.resDst with
  | .none => s
  | .stack => { s.store s.sp r with sp := s.sp + 1 }
  | .mem => s.store b r
  | .fp => { s with fp := r }
  | .pc => s.jump true b
  | .pcZ => s.jump (a == 0) b
  | .pcNz => s.jump (a != 0) b

/-- one instruction, its pc already passed -/
def exec (z : DivByZero) (i : Insn) (s : Arch) : Arch :=
  let (b, s) := s.loadB i
  let (a, s) := s.loadA i b
  s.save i a b (ALU.result z i.aluOp a b)

/-- the instruction at pc -/
def step (z : DivByZero) (rom : Word → Word) (s : Arch) : Arch := exec z (decode (rom s.pc)) { s with pc := s.pc + 1 }

end Arch

end FpgaLearning.Stack
