/-
The RV32I base instruction set, apart from FENCE, ECALL, EBREAK and the CSR instructions.

Instructions are abstract syntax (`Insn`); `Insn.encode` is the word of the base formats R, I, S, B, U and J, and
`Insn.step` the effect on pc, registers and a byte-addressed little-endian memory. Branch and JAL offsets are kept in
half words, as the formats leave out their bit 0. A `State` carries the fact that x0 is zero.
-/
import FpgaLearning.Core.Memory

namespace FpgaLearning.Rv32i

open FpgaLearning.Memory

abbrev Reg := BitVec 5

/-! ## Instructions -/

/-- OP -/
inductive RegOp where
  | add | sub | sll | slt | sltu | xor | srl | sra | or | and
deriving DecidableEq, Repr

/-- OP-IMM with a 12-bit immediate -/
inductive ImmOp where
  | addi | slti | sltiu | xori | ori | andi
deriving DecidableEq, Repr

/-- OP-IMM with a shift amount -/
inductive ShiftOp where
  | slli | srli | srai
deriving DecidableEq, Repr

inductive Cond where
  | beq | bne | blt | bge | bltu | bgeu
deriving DecidableEq, Repr

inductive LoadOp where
  | lb | lh | lw | lbu | lhu
deriving DecidableEq, Repr

inductive StoreOp where
  | sb | sh | sw
deriving DecidableEq, Repr

inductive Insn where
  | op (o : RegOp) (rd rs1 rs2 : Reg)
  | opImm (o : ImmOp) (rd rs1 : Reg) (imm : BitVec 12)
  | shift (o : ShiftOp) (rd rs1 : Reg) (shamt : BitVec 5)
  | load (o : LoadOp) (rd rs1 : Reg) (imm : BitVec 12)
  | store (o : StoreOp) (rs1 rs2 : Reg) (imm : BitVec 12)
  | branch (c : Cond) (rs1 rs2 : Reg) (off : BitVec 12)
  | jal (rd : Reg) (off : BitVec 20)
  | jalr (rd rs1 : Reg) (imm : BitVec 12)
  | lui (rd : Reg) (imm : BitVec 20)
  | auipc (rd : Reg) (imm : BitVec 20)
deriving DecidableEq, Repr

/-! ## Encoding -/

/-- R-type; the other formats are given by what they put into its fields -/
def rType (funct7 : BitVec 7) (rs2 rs1 : Reg) (funct3 : BitVec 3) (rd : Reg) (opcode : BitVec 7) : Word :=
  funct7 ++ rs2 ++ rs1 ++ funct3 ++ rd ++ opcode

/-- `imm[11:0]` in the fields of funct7 and rs2 -/
def iType (imm : BitVec 12) (rs1 : Reg) (funct3 : BitVec 3) (rd : Reg) (opcode : BitVec 7) : Word :=
  rType (imm.extractLsb' 5 7) (imm.extractLsb' 0 5) rs1 funct3 rd opcode

/-- `imm[11:5]` in the field of funct7, `imm[4:0]` in the field of rd -/
def sType (imm : BitVec 12) (rs2 rs1 : Reg) (funct3 : BitVec 3) (opcode : BitVec 7) : Word :=
  rType (imm.extractLsb' 5 7) rs2 rs1 funct3 (imm.extractLsb' 0 5) opcode

/-- `imm[12|10:5]` and `imm[4:1|11]`; `off` is `imm[12:1]` -/
def bType (off : BitVec 12) (rs2 rs1 : Reg) (funct3 : BitVec 3) (opcode : BitVec 7) : Word :=
  rType (off.extractLsb' 11 1 ++ off.extractLsb' 4 6) rs2 rs1 funct3 (off.extractLsb' 0 4 ++ off.extractLsb' 10 1) opcode

/-- `imm[31:12]` above rd -/
def uType (imm : BitVec 20) (rd : Reg) (opcode : BitVec 7) : Word :=
  rType (imm.extractLsb' 13 7) (imm.extractLsb' 8 5) (imm.extractLsb' 3 5) (imm.extractLsb' 0 3) rd opcode

/-- `imm[20|10:1|11|19:12]` above rd; `off` is `imm[20:1]` -/
def jType (off : BitVec 20) (rd : Reg) (opcode : BitVec 7) : Word :=
  uType (off.extractLsb' 19 1 ++ off.extractLsb' 0 10 ++ off.extractLsb' 10 1 ++ off.extractLsb' 11 8) rd opcode

def RegOp.funct7 : RegOp → BitVec 7
  | .sub | .sra => 0b0100000
  | _ => 0

def RegOp.funct3 : RegOp → BitVec 3
  | .add | .sub => 0b000
  | .sll => 0b001
  | .slt => 0b010
  | .sltu => 0b011
  | .xor => 0b100
  | .srl | .sra => 0b101
  | .or => 0b110
  | .and => 0b111

def ImmOp.funct3 : ImmOp → BitVec 3
  | .addi => 0b000
  | .slti => 0b010
  | .sltiu => 0b011
  | .xori => 0b100
  | .ori => 0b110
  | .andi => 0b111

def ShiftOp.funct7 : ShiftOp → BitVec 7
  | .srai => 0b0100000
  | _ => 0

def ShiftOp.funct3 : ShiftOp → BitVec 3
  | .slli => 0b001
  | _ => 0b101

def Cond.funct3 : Cond → BitVec 3
  | .beq => 0b000
  | .bne => 0b001
  | .blt => 0b100
  | .bge => 0b101
  | .bltu => 0b110
  | .bgeu => 0b111

def LoadOp.funct3 : LoadOp → BitVec 3
  | .lb => 0b000
  | .lh => 0b001
  | .lw => 0b010
  | .lbu => 0b100
  | .lhu => 0b101

def StoreOp.funct3 : StoreOp → BitVec 3
  | .sb => 0b000
  | .sh => 0b001
  | .sw => 0b010

def Insn.encode : Insn → Word
  | .op o rd rs1 rs2 => rType o.funct7 rs2 rs1 o.funct3 rd 0b0110011
  | .opImm o rd rs1 imm => iType imm rs1 o.funct3 rd 0b0010011
  | .shift o rd rs1 shamt => rType o.funct7 shamt rs1 o.funct3 rd 0b0010011
  | .load o rd rs1 imm => iType imm rs1 o.funct3 rd 0b0000011
  | .store o rs1 rs2 imm => sType imm rs2 rs1 o.funct3 0b0100011
  | .branch c rs1 rs2 off => bType off rs2 rs1 c.funct3 0b1100011
  | .jal rd off => jType off rd 0b1101111
  | .jalr rd rs1 imm => iType imm rs1 0b000 rd 0b1100111
  | .lui rd imm => uType imm rd 0b0110111
  | .auipc rd imm => uType imm rd 0b0010111

/-! ## Effects -/

structure State where
  pc : Word
  regs : Reg → Word
  mem : Word → Byte
  x0 : regs 0 = 0

/-- a truth value as a register value -/
def flag (b : Bool) : Word := (BitVec.ofBool b).setWidth 32

def RegOp.eval (o : RegOp) (a b : Word) : Word :=
  match o with
  | .add => a + b
  | .sub => a - b
  | .sll => a <<< (b.toNat % 32)
  | .slt => flag (a.slt b)
  | .sltu => flag (a.ult b)
  | .xor => a ^^^ b
  | .srl => a >>> (b.toNat % 32)
  | .sra => a.sshiftRight (b.toNat % 32)
  | .or => a ||| b
  | .and => a &&& b

def ImmOp.eval (o : ImmOp) (a b : Word) : Word :=
  match o with
  | .addi => a + b
  | .slti => flag (a.slt b)
  | .sltiu => flag (a.ult b)
  | .xori => a ^^^ b
  | .ori => a ||| b
  | .andi => a &&& b

def ShiftOp.eval (o : ShiftOp) (a : Word) (shamt : BitVec 5) : Word :=
  match o with
  | .slli => a <<< shamt.toNat
  | .srli => a >>> shamt.toNat
  | .srai => a.sshiftRight shamt.toNat

def Cond.eval (c : Cond) (a b : Word) : Bool :=
  match c with
  | .beq => a == b
  | .bne => a != b
  | .blt => a.slt b
  | .bge => !a.slt b
  | .bltu => a.ult b
  | .bgeu => !a.ult b

def readHalf (m : Word → Byte) (a : Word) : BitVec 16 := m (a + 1) ++ m a

def readWord (m : Word → Byte) (a : Word) : Word := m (a + 3) ++ m (a + 2) ++ m (a + 1) ++ m a

/-- the `n` low bytes of `w` at address `a` -/
def writeBytes (m : Word → Byte) (a : Word) (n : ℕ) (w : Word) : Word → Byte :=
  fun b => if (b - a).toNat < n then w.extractLsb' (8 * (b - a).toNat) 8 else m b

def LoadOp.size : LoadOp → ℕ
  | .lb | .lbu => 1
  | .lh | .lhu => 2
  | .lw => 4

def LoadOp.eval (o : LoadOp) (m : Word → Byte) (a : Word) : Word :=
  match o with
  | .lb => (m a).signExtend 32
  | .lbu => (m a).setWidth 32
  | .lh => (readHalf m a).signExtend 32
  | .lhu => (readHalf m a).setWidth 32
  | .lw => readWord m a

def StoreOp.size : StoreOp → ℕ
  | .sb => 1
  | .sh => 2
  | .sw => 4

/-- the effective address of a load or store -/
def effAddr (s : State) (rs1 : Reg) (imm : BitVec 12) : Word := s.regs rs1 + imm.signExtend 32

namespace Insn

/-- the destination register and the value for it; a destination x0 drops the value -/
def result (i : Insn) (s : State) : Option (Reg × Word) :=
  match i with
  | .op o rd rs1 rs2 => some (rd, o.eval (s.regs rs1) (s.regs rs2))
  | .opImm o rd rs1 imm => some (rd, o.eval (s.regs rs1) (imm.signExtend 32))
  | .shift o rd rs1 shamt => some (rd, o.eval (s.regs rs1) shamt)
  | .load o rd rs1 imm => some (rd, o.eval s.mem (effAddr s rs1 imm))
  | .store .. | .branch .. => none
  | .jal rd _ | .jalr rd _ _ => some (rd, s.pc + 4)
  | .lui rd imm => some (rd, imm ++ 0#12)
  | .auipc rd imm => some (rd, s.pc + (imm ++ 0#12))

def regsAfter (i : Insn) (s : State) : Reg → Word :=
  match i.result s with
  | some (rd, v) => if rd = 0 then s.regs else Function.update s.regs rd v
  | none => s.regs

def memAfter (i : Insn) (s : State) : Word → Byte :=
  match i with
  | .store o rs1 rs2 imm => writeBytes s.mem (effAddr s rs1 imm) o.size (s.regs rs2)
  | _ => s.mem

/-- control leaves the straight line -/
def taken (i : Insn) (s : State) : Bool :=
  match i with
  | .branch c rs1 rs2 _ => c.eval (s.regs rs1) (s.regs rs2)
  | .jal .. | .jalr .. => true
  | _ => false

/-- the next pc, for JALR before bit 0 is cleared -/
def rawNextPc (i : Insn) (s : State) : Word :=
  match i with
  | .branch c rs1 rs2 off => if c.eval (s.regs rs1) (s.regs rs2) then s.pc + (off ++ 0#1).signExtend 32 else s.pc + 4
  | .jal _ off => s.pc + (off ++ 0#1).signExtend 32
  | .jalr _ rs1 imm => s.regs rs1 + imm.signExtend 32
  | _ => s.pc + 4

def nextPc (i : Insn) (s : State) : Word :=
  match i with
  | .jalr .. => i.rawNextPc s &&& ~~~1
  | _ => i.rawNextPc s

/-- loads and stores are naturally aligned -/
def Aligned (i : Insn) (s : State) : Prop :=
  match i with
  | .load o _ rs1 imm => (effAddr s rs1 imm).toNat % o.size = 0
  | .store o rs1 _ imm => (effAddr s rs1 imm).toNat % o.size = 0
  | _ => True

theorem regsAfter_x0 (i : Insn) (s : State) : i.regsAfter s 0 = 0 := by
  unfold regsAfter
  cases i.result s with
  | none => exact s.x0
  | some r =>
    obtain ⟨rd, v⟩ := r
    show (if rd = 0 then s.regs else Function.update s.regs rd v) 0 = 0
    split_ifs with h
    · exact s.x0
    · rw [Function.update_of_ne (Ne.symm h), s.x0]

def step (i : Insn) (s : State) : State := ⟨i.nextPc s, i.regsAfter s, i.memAfter s, i.regsAfter_x0 s⟩

end Insn

end FpgaLearning.Rv32i
