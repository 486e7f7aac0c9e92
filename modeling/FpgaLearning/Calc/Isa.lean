/-
The instruction set of the first processor, Calc: `ALU.sv`, the decoding table of `FetchStage.sv`, and what one
instruction does.

A word with bit 31 clear is a constant to push. Any other word names in its low ten bits a source for operand A and one for
operand B, a destination and an ALU operation. B is taken before A; the memory operand of B is read at address 0 and that
of A at address B. `Arch` is what a program can observe, `Arch.step` executes the word at pc.
-/
import FpgaLearning.Stack.Isa

namespace FpgaLearning.Calc

open FpgaLearning.Memory
open FpgaLearning.Stack (DivByZero)

/-! ## Fields -/

/-- `opASrc`, `opBSrc`: 00 zero, 01 from imm, 10 from stack, 11 from memAddr -/
inductive OperandSource where
  | zero | imm | stack | mem
deriving DecidableEq, Repr

def OperandSource.ofBits (code : BitVec 2) : OperandSource :=
  match code.toNat with
  | 0 => .zero | 1 => .imm | 2 => .stack | _ => .mem

/-- `resDst`: 00 nop, 01 to stack, 10 to mem, 11 to pc -/
inductive Destination where
  | none | stack | mem | pc
deriving DecidableEq, Repr

def Destination.ofBits (code : BitVec 2) : Destination :=
  match code.toNat with
  | 0 => .none | 1 => .stack | 2 => .mem | _ => .pc

/-- `OP_ZERO` to `OP_LE` -/
inductive AluOp where
  | zero | negate | add | sub | mult | div | rem | and | or | not | xor | a | shl | shr | eq | le
deriving DecidableEq, Repr

def AluOp.ofBits (code : BitVec 4) : AluOp :=
  match code.toNat with
  | 0 => .zero | 1 => .negate | 2 => .add | 3 => .sub | 4 => .mult | 5 => .div | 6 => .rem | 7 => .and
  | 8 => .or | 9 => .not | 10 => .xor | 11 => .a | 12 => .shl | 13 => .shr | 14 => .eq | _ => .le

/-! ## ALU -/

/-- `results[iop]`; `OP_LE` is wired to `Lesser`, which compares unsigned and strictly -/
def ALU.result (z : DivByZero) (iop : AluOp) (a b : Word) : Word :=
  match iop with
  | .zero => 0
  | .negate => -a
  | .add => a + b
  | .sub => a - b
  | .mult => a * b
  | .div => if b = 0 then z.quot a else a / b
  | .rem => if b = 0 then z.rem a else a % b
  | .and => a &&& b
  | .or => a ||| b
  | .not => ~~~a
  | .xor => a ^^^ b
  | .a => a
  | .shl => a <<< b
  | .shr => a >>> b
  | .eq => if a = b then 1 else 0
  | .le => if a < b then 1 else 0

/-! ## Decoding -/

structure Insn where
  imm : Word
  opASrc : OperandSource
  opBSrc : OperandSource
  resDst : Destination
  aluOp : AluOp
deriving DecidableEq, Repr

def decode (w : Word) : Insn :=
  if w.getLsbD 31 = false then ⟨(w.extractLsb' 0 31).setWidth 32, .imm, .zero, .stack, .a⟩
  else
    ⟨0, .ofBits (w.extractLsb' 0 2), .ofBits (w.extractLsb' 2 2), .ofBits (w.extractLsb' 4 2),
      .ofBits (w.extractLsb' 6 4)⟩

/-! ## Architectural state -/

/-- the RAM behind `mmio`: 2^8 words -/
abbrev RamWords := BitVec 8 → Word

@[ext] structure Arch where
  pc : Word
  sp : Word
  mem : RamWords
  out1 : Word

namespace Arch

def init (mem : RamWords) : Arch := ⟨0, 0, mem, 0⟩

/-- addresses with bit 30 belong to the output register, all others to the RAM -/
def load (s : Arch) (addr : Word) : Word := if addr.getLsbD 30 then s.out1 else s.mem (addr.setWidth 8)

def store (s : Arch) (addr val : Word) : Arch :=
  if addr.getLsbD 30 then { s with out1 := val } else { s with mem := Function.update s.mem (addr.setWidth 8) val }

/-- an operand, and the state after it -/
def operand (src : OperandSource) (imm memAddr : Word) (s : Arch) : Word × Arch :=
  match src with
  | .zero => (0, s)
  | .imm => (imm, s)
  | .stack => (s.load (s.sp - 1), { s with sp := s.sp - 1 })
  | .mem => (s.load memAddr, s)

/-- the result `r` goes to its destination; a jump is taken on bit 0 of A -/
def save (dst : Destination) (a b r : Word) (s : Arch) : Arch :=
  match dst with
  | .none => s
  | .stack => { s.store s.sp r with sp := s.sp + 1 }
  | .mem => s.store b r
  | .pc => if a.getLsbD 0 then { s with pc := b } else s

/-- one instruction, its pc already passed -/
def exec (z : DivByZero) (i : Insn) (s : Arch) : Arch :=
  let (b, s) := s.operand i.opBSrc i.imm 0
  let (a, s) := s.operand i.opASrc i.imm b
  s.save i.resDst a b (ALU.result z i.aluOp a b)

/-- the instruction at pc -/
def step (z : DivByZero) (rom : Word → Word) (s : Arch) : Arch := exec z (decode (rom s.pc)) { s with pc := s.pc + 1 }

end Arch

end FpgaLearning.Calc
