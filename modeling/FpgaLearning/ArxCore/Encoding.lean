/-
The decoder on RV32I words.

The bit slices of `InsnDecoder` recover the fields and immediates of the base formats, and `decode_encode` gives the
control signals of every instruction of `Rv32i.Insn`.
-/
import FpgaLearning.Core.Rv32i
import FpgaLearning.ArxCore.Decoder

namespace FpgaLearning.ArxCore

open FpgaLearning.Memory FpgaLearning.Rv32i

/-! ## Bit slices of the base formats -/

namespace InsnDecoder

variable (f7 : BitVec 7) (r2 r1 : BitVec 5) (f3 : BitVec 3) (d : BitVec 5) (op : BitVec 7)

/-- every bit of a word in the R layout -/
theorem getLsbD_rType (k : ℕ) : (rType f7 r2 r1 f3 d op).getLsbD k =
    if k < 7 then op.getLsbD k
    else if k < 12 then d.getLsbD (k - 7)
    else if k < 15 then f3.getLsbD (k - 12)
    else if k < 20 then r1.getLsbD (k - 15)
    else if k < 25 then r2.getLsbD (k - 20)
    else f7.getLsbD (k - 25) := by
  simp only [rType, BitVec.getLsbD_append, Nat.sub_sub]
  split_ifs <;> first | rfl | omega

@[simp] theorem opcode_rType : opcode (rType f7 r2 r1 f3 d op) = op := by
  apply BitVec.eq_of_getLsbD_eq
  intro k hk
  simp only [opcode, BitVec.getLsbD_extractLsb', getLsbD_rType]
  grind

@[simp] theorem rd_rType : rd (rType f7 r2 r1 f3 d op) = d := by
  apply BitVec.eq_of_getLsbD_eq
  intro k hk
  simp only [rd, BitVec.getLsbD_extractLsb', getLsbD_rType]
  grind

@[simp] theorem funct3_rType : funct3 (rType f7 r2 r1 f3 d op) = f3 := by
  apply BitVec.eq_of_getLsbD_eq
  intro k hk
  simp only [funct3, BitVec.getLsbD_extractLsb', getLsbD_rType]
  grind

@[simp] theorem rs1_rType : rs1 (rType f7 r2 r1 f3 d op) = r1 := by
  apply BitVec.eq_of_getLsbD_eq
  intro k hk
  simp only [rs1, BitVec.getLsbD_extractLsb', getLsbD_rType]
  grind

@[simp] theorem rs2_rType : rs2 (rType f7 r2 r1 f3 d op) = r2 := by
  apply BitVec.eq_of_getLsbD_eq
  intro k hk
  simp only [rs2, BitVec.getLsbD_extractLsb', getLsbD_rType]
  grind

@[simp] theorem funct7_rType : funct7 (rType f7 r2 r1 f3 d op) = f7 := by
  apply BitVec.eq_of_getLsbD_eq
  intro k hk
  simp only [funct7, BitVec.getLsbD_extractLsb', getLsbD_rType]
  grind

/-! The other formats are R words, and have the fields they do not fill with an immediate. -/

@[simp] theorem opcode_iType (imm : BitVec 12) : opcode (iType imm r1 f3 d op) = op := opcode_rType ..

@[simp] theorem funct3_iType (imm : BitVec 12) : funct3 (iType imm r1 f3 d op) = f3 := funct3_rType ..

@[simp] theorem rs1_iType (imm : BitVec 12) : rs1 (iType imm r1 f3 d op) = r1 := rs1_rType ..

@[simp] theorem rd_iType (imm : BitVec 12) : rd (iType imm r1 f3 d op) = d := rd_rType ..

@[simp] theorem opcode_sType (imm : BitVec 12) : opcode (sType imm r2 r1 f3 op) = op := opcode_rType ..

@[simp] theorem funct3_sType (imm : BitVec 12) : funct3 (sType imm r2 r1 f3 op) = f3 := funct3_rType ..

@[simp] theorem rs1_sType (imm : BitVec 12) : rs1 (sType imm r2 r1 f3 op) = r1 := rs1_rType ..

@[simp] theorem rs2_sType (imm : BitVec 12) : rs2 (sType imm r2 r1 f3 op) = r2 := rs2_rType ..

@[simp] theorem opcode_bType (off : BitVec 12) : opcode (bType off r2 r1 f3 op) = op := opcode_rType ..

@[simp] theorem funct3_bType (off : BitVec 12) : funct3 (bType off r2 r1 f3 op) = f3 := funct3_rType ..

@[simp] theorem rs1_bType (off : BitVec 12) : rs1 (bType off r2 r1 f3 op) = r1 := rs1_rType ..

@[simp] theorem rs2_bType (off : BitVec 12) : rs2 (bType off r2 r1 f3 op) = r2 := rs2_rType ..

@[simp] theorem opcode_uType (imm : BitVec 20) : opcode (uType imm d op) = op := opcode_rType ..

@[simp] theorem rd_uType (imm : BitVec 20) : rd (uType imm d op) = d := rd_rType ..

@[simp] theorem opcode_jType (off : BitVec 20) : opcode (jType off d op) = op := opcode_rType ..

theorem getLsbD_signFill (n : ℕ) (w : Word) (k : ℕ) : (signFill n w).getLsbD k = (decide (k < n) && w.getLsbD 31) := by
  cases h : w.getLsbD 31 <;> simp only [signFill, h] <;> simp

@[simp] theorem rd_jType (off : BitVec 20) : rd (jType off d op) = d := rd_rType ..

@[simp] theorem immI_iType (imm : BitVec 12) : immI (iType imm r1 f3 d op) = imm.signExtend 32 := by
  apply BitVec.eq_of_getLsbD_eq
  intro k hk
  simp only [immI, iType, BitVec.getLsbD_append, getLsbD_signFill, BitVec.getLsbD_extractLsb', getLsbD_rType,
    BitVec.getLsbD_signExtend, BitVec.msb_eq_getLsbD_last]
  grind

/-- the shift amount is the field of rs2 -/
@[simp] theorem immI_shamt : (immI (rType f7 r2 r1 f3 d op)).extractLsb' 0 5 = r2 := by
  apply BitVec.eq_of_getLsbD_eq
  intro k hk
  simp only [immI, BitVec.getLsbD_append, getLsbD_signFill, BitVec.getLsbD_extractLsb', getLsbD_rType]
  grind

@[simp] theorem immS_sType (imm : BitVec 12) : immS (sType imm r2 r1 f3 op) = imm.signExtend 32 := by
  apply BitVec.eq_of_getLsbD_eq
  intro k hk
  simp only [immS, sType, BitVec.getLsbD_append, getLsbD_signFill, BitVec.getLsbD_extractLsb', getLsbD_rType,
    BitVec.getLsbD_signExtend, BitVec.msb_eq_getLsbD_last]
  grind

@[simp] theorem immB_bType (off : BitVec 12) : immB (bType off r2 r1 f3 op) = (off ++ 0#1).signExtend 32 := by
  apply BitVec.eq_of_getLsbD_eq
  intro k hk
  simp only [immB, bType, BitVec.getLsbD_append, getLsbD_signFill, BitVec.getLsbD_extractLsb', getLsbD_rType,
    BitVec.getLsbD_signExtend, BitVec.msb_eq_getLsbD_last]
  grind

@[simp] theorem immU_uType (imm : BitVec 20) : immU (uType imm d op) = imm ++ 0#12 := by
  apply BitVec.eq_of_getLsbD_eq
  intro k hk
  simp only [immU, uType, BitVec.getLsbD_append, BitVec.getLsbD_extractLsb', getLsbD_rType]
  grind

@[simp] theorem immJ_jType (off : BitVec 20) : immJ (jType off d op) = (off ++ 0#1).signExtend 32 := by
  apply BitVec.eq_of_getLsbD_eq
  intro k hk
  simp only [immJ, jType, uType, BitVec.getLsbD_append, getLsbD_signFill, BitVec.getLsbD_extractLsb', getLsbD_rType,
    BitVec.getLsbD_signExtend, BitVec.msb_eq_getLsbD_last]
  grind

end InsnDecoder

/-! ## Control signals -/

def regAluOp : RegOp → AluOp
  | .add => .add
  | .sub => .sub
  | .sll => .sll
  | .slt => .slt
  | .sltu => .sltu
  | .xor => .xor
  | .srl => .srl
  | .sra => .sra
  | .or => .or
  | .and => .and

def immAluOp : ImmOp → AluOp
  | .addi => .add
  | .slti => .slt
  | .sltiu => .sltu
  | .xori => .xor
  | .ori => .or
  | .andi => .and

def shiftAluOp : ShiftOp → AluOp
  | .slli => .sll
  | .srli => .srl
  | .srai => .sra

def condAluOp : Cond → AluOp
  | .beq => .eq
  | .bne => .neq
  | .blt => .lt
  | .bge => .ge
  | .bltu => .ltu
  | .bgeu => .geu

def loadType : LoadOp → LsType
  | .lb => .loadByte
  | .lh => .loadHalfword
  | .lw => .loadWord
  | .lbu => .loadByteUnsigned
  | .lhu => .loadHalfwordUnsigned

def storeType : StoreOp → LsType
  | .sb => .storeByte
  | .sh => .storeHalfword
  | .sw => .storeWord

/-- the control signals of an RV32I instruction -/
def control : Insn → Decoded
  | .op o _ _ _ => { regWrite := true, aluEn := true, aluOp := regAluOp o }
  | .opImm o _ _ imm =>
    { regWrite := true, aluEn := true, aluSrc2 := .imm, imm := imm.signExtend 32, aluOp := immAluOp o }
  | .shift o _ _ shamt => { regWrite := true, aluEn := true, aluSrc2 := .imm, imm := 0#27 ++ shamt, aluOp := shiftAluOp o }
  | .load o _ _ imm =>
    { regWrite := true, memToReg := true, memOp := true, memOpType := loadType o, aluEn := true, aluSrc2 := .imm,
      imm := imm.signExtend 32 }
  | .store o _ _ imm =>
    { memOp := true, memOpType := storeType o, aluEn := true, aluSrc2 := .imm, imm := imm.signExtend 32 }
  | .branch c _ _ off => { aluEn := true, imm := (off ++ 0#1).signExtend 32, aluOp := condAluOp c }
  | .jal _ off =>
    { regWrite := true, pcJumpEn := true, aluEn := true, aluSrc1 := .pc, aluSrc2 := .four,
      imm := (off ++ 0#1).signExtend 32 }
  | .jalr _ _ imm =>
    { regWrite := true, pcJumpEn := true, pcAddrType := .regImm, aluEn := true, aluSrc1 := .pc, aluSrc2 := .four,
      imm := imm.signExtend 32 }
  | .lui _ imm => { regWrite := true, aluEn := true, aluSrc1 := .zero, aluSrc2 := .imm, imm := imm ++ 0#12 }
  | .auipc _ imm => { regWrite := true, aluEn := true, aluSrc1 := .pc, aluSrc2 := .imm, imm := imm ++ 0#12 }

/-- **Decoding.** -/
theorem decode_encode (i : Insn) : decode i.encode = control i := by
  cases i with
  | op o rd rs1 rs2 =>
    cases o <;> simp [decode, Insn.encode, control, RegOp.funct7, RegOp.funct3, decodeAluOp, decodeMduOp, regAluOp]
  | opImm o rd rs1 imm => cases o <;> simp [decode, Insn.encode, control, ImmOp.funct3, decodeImmOp, immAluOp]
  | shift o rd rs1 shamt =>
    cases o <;> simp [decode, Insn.encode, control, ShiftOp.funct7, ShiftOp.funct3, decodeImmOp, shiftAluOp]
  | load o rd rs1 imm => cases o <;> simp [decode, Insn.encode, control, LoadOp.funct3, decodeLoadType, loadType]
  | store o rs1 rs2 imm => cases o <;> simp [decode, Insn.encode, control, StoreOp.funct3, decodeStoreType, storeType]
  | branch c rs1 rs2 off => cases c <;> simp [decode, Insn.encode, control, Cond.funct3, decodeBranchOp, condAluOp]
  | jal rd off => simp [decode, Insn.encode, control]
  | jalr rd rs1 imm => simp [decode, Insn.encode, control]
  | lui rd imm => simp [decode, Insn.encode, control]
  | auipc rd imm => simp [decode, Insn.encode, control]

end FpgaLearning.ArxCore
