/-
Instruction decoding of ArxCore: the packages `IALUTypes`, `LoadStoreTypes`, `BranchTypes`, the field extraction of
`InsnDecoder.sv` and the combinational decoder of `InsnDecodeStage.sv` (its `DECODING` block), with the defaults of the
source for every control signal a group does not set.
-/
import FpgaLearning.Core.Memory

namespace FpgaLearning.ArxCore

open FpgaLearning.Memory

/-! ## Type packages -/

/-- `ALU_op_t` -/
inductive AluOp where
  | add | sub | xor | or | and
  | eq | neq | lt | ltu | ge | geu
  | slt | sltu
  | sll | srl | sra
  | arg2
deriving DecidableEq, Repr

/-- `MDU_op_t` -/
inductive MduOp where
  | mul | mulh | mulhsu | mulhu | div | divu | rem | remu
deriving DecidableEq, Repr

/-- `ALU_src1_t` -/
inductive AluSrc1 where
  | rs1 | zero | pc
deriving DecidableEq, Repr

/-- `ALU_src2_t` -/
inductive AluSrc2 where
  | rs2 | four | imm
deriving DecidableEq, Repr

/-- `branch_type_t` -/
inductive BranchType where
  | pcImm | regImm
deriving DecidableEq, Repr

/-- `ls_type_t` -/
inductive LsType where
  | loadByte | loadByteUnsigned | loadHalfword | loadHalfwordUnsigned | loadWord
  | storeByte | storeHalfword | storeWord
deriving DecidableEq, Repr

/-! ## InsnDecoder -/

namespace InsnDecoder

def opcode (insn : Word) : BitVec 7 := insn.extractLsb' 0 7

def rs1 (insn : Word) : BitVec 5 := insn.extractLsb' 15 5

def rs2 (insn : Word) : BitVec 5 := insn.extractLsb' 20 5

def rd (insn : Word) : BitVec 5 := insn.extractLsb' 7 5

def funct3 (insn : Word) : BitVec 3 := insn.extractLsb' 12 3

def funct7 (insn : Word) : BitVec 7 := insn.extractLsb' 25 7

/-- `{n{insn[31]}}` -/
def signFill (n : ℕ) (insn : Word) : BitVec n := if insn.getLsbD 31 then BitVec.allOnes n else 0

def immI (insn : Word) : Word := signFill 21 insn ++ insn.extractLsb' 20 11

def immS (insn : Word) : Word := signFill 21 insn ++ insn.extractLsb' 25 6 ++ insn.extractLsb' 7 5

def immB (insn : Word) : Word :=
  signFill 20 insn ++ insn.extractLsb' 7 1 ++ insn.extractLsb' 25 6 ++ insn.extractLsb' 8 4 ++ 0#1

def immU (insn : Word) : Word := insn.extractLsb' 12 20 ++ 0#12

def immJ (insn : Word) : Word :=
  signFill 12 insn ++ insn.extractLsb' 12 8 ++ insn.extractLsb' 20 1 ++ insn.extractLsb' 21 10 ++ 0#1

end InsnDecoder

/-! ## The decoder of InsnDecodeStage -/

/-- the control signals the decode stage hands to the execute stage -/
structure Decoded where
  imm : Word := 0
  regWrite : Bool := false
  memToReg : Bool := false
  memOp : Bool := false
  memOpType : LsType := .loadWord
  pcJumpEn : Bool := false
  pcAddrType : BranchType := .pcImm
  aluOp : AluOp := .add
  aluSrc1 : AluSrc1 := .rs1
  aluSrc2 : AluSrc2 := .rs2
  mduOp : MduOp := .mul
  aluEn : Bool := false
  mduEn : Bool := false
deriving DecidableEq, Repr

/-- `case ({m_funct_3, m_funct_7})`, the ALU half; no match keeps the default -/
def decodeAluOp (f3 : BitVec 3) (f7 : BitVec 7) : AluOp :=
  if f3 = 0 ∧ f7 = 0x00 then .add
  else if f3 = 0 ∧ f7 = 0x20 then .sub
  else if f3 = 4 ∧ f7 = 0x00 then .xor
  else if f3 = 6 ∧ f7 = 0x00 then .or
  else if f3 = 7 ∧ f7 = 0x00 then .and
  else if f3 = 1 ∧ f7 = 0x00 then .sll
  else if f3 = 5 ∧ f7 = 0x00 then .srl
  else if f3 = 5 ∧ f7 = 0x20 then .sra
  else if f3 = 2 ∧ f7 = 0x00 then .slt
  else if f3 = 3 ∧ f7 = 0x00 then .sltu
  else .add

/-- `case ({m_funct_3, m_funct_7})`, the MDU half -/
def decodeMduOp (f3 : BitVec 3) (f7 : BitVec 7) : MduOp :=
  if f7 ≠ 0x01 then .mul
  else if f3 = 0 then .mul
  else if f3 = 1 then .mulh
  else if f3 = 2 then .mulhsu
  else if f3 = 3 then .mulhu
  else if f3 = 4 then .div
  else if f3 = 5 then .divu
  else if f3 = 6 then .rem
  else .remu

/-- OP-IMM, `case (m_funct_3)` -/
def decodeImmOp (f3 : BitVec 3) (f7 : BitVec 7) : AluOp :=
  if f3 = 0 then .add
  else if f3 = 4 then .xor
  else if f3 = 6 then .or
  else if f3 = 7 then .and
  else if f3 = 1 then .sll
  else if f3 = 5 then (if f7 = 0x00 then .srl else .sra)
  else if f3 = 2 then .slt
  else .sltu

def decodeLoadType (f3 : BitVec 3) : LsType :=
  if f3 = 0 then .loadByte
  else if f3 = 1 then .loadHalfword
  else if f3 = 2 then .loadWord
  else if f3 = 4 then .loadByteUnsigned
  else if f3 = 5 then .loadHalfwordUnsigned
  else .loadWord

def decodeStoreType (f3 : BitVec 3) : LsType :=
  if f3 = 0 then .storeByte
  else if f3 = 1 then .storeHalfword
  else if f3 = 2 then .storeWord
  else .loadWord

def decodeBranchOp (f3 : BitVec 3) : AluOp :=
  if f3 = 0 then .eq
  else if f3 = 1 then .neq
  else if f3 = 4 then .lt
  else if f3 = 5 then .ge
  else if f3 = 6 then .ltu
  else if f3 = 7 then .geu
  else .add

open InsnDecoder in
/-- `case (m_opcode)` -/
def decode (insn : Word) : Decoded :=
  let f3 := funct3 insn
  let f7 := funct7 insn
  if opcode insn = 0b0110011 then
    { regWrite := true, aluSrc1 := .rs1, aluSrc2 := .rs2, aluEn := f7 != 0x01, mduEn := f7 == 0x01,
      aluOp := decodeAluOp f3 f7, mduOp := decodeMduOp f3 f7 }
  else if opcode insn = 0b0010011 then
    { regWrite := true, aluEn := true, aluSrc1 := .rs1, aluSrc2 := .imm,
      -- the two shifts keep only the shift amount of the immediate
      imm := if f3 = 1 ∨ f3 = 5 then 0#27 ++ (immI insn).extractLsb' 0 5 else immI insn,
      aluOp := decodeImmOp f3 f7 }
  else if opcode insn = 0b0000011 then
    { regWrite := true, memToReg := true, aluEn := true, aluSrc1 := .rs1, aluSrc2 := .imm, aluOp := .add,
      imm := immI insn, memOp := true, memOpType := decodeLoadType f3 }
  else if opcode insn = 0b0100011 then
    { aluEn := true, aluSrc1 := .rs1, aluSrc2 := .imm, aluOp := .add, imm := immS insn, memOp := true,
      memOpType := decodeStoreType f3 }
  else if opcode insn = 0b1100011 then
    { pcAddrType := .pcImm, aluEn := true, aluSrc1 := .rs1, aluSrc2 := .rs2, imm := immB insn,
      aluOp := decodeBranchOp f3 }
  else if opcode insn = 0b1101111 then
    { aluEn := true, pcJumpEn := true, pcAddrType := .pcImm, imm := immJ insn, regWrite := true, aluSrc1 := .pc,
      aluSrc2 := .four, aluOp := .add }
  else if opcode insn = 0b1100111 then
    { pcJumpEn := true, pcAddrType := .regImm, imm := immI insn, regWrite := true, aluEn := true, aluSrc1 := .pc,
      aluSrc2 := .four, aluOp := .add }
  else if opcode insn = 0b0110111 then
    { regWrite := true, aluEn := true, aluSrc1 := .zero, aluSrc2 := .imm, aluOp := .add, imm := immU insn }
  else if opcode insn = 0b0010111 then
    { regWrite := true, aluEn := true, aluSrc1 := .pc, aluSrc2 := .imm, aluOp := .add, imm := immU insn }
  else { aluEn := true }

theorem ite_both {α : Type*} {P : α → Prop} {c : Prop} {i : Decidable c} {x y : α} (hx : P x) (hy : P y) :
    P (@ite _ c i x y) := by
  split
  · exact hx
  · exact hy

/-- what holds of all ten formats holds of the one selected -/
theorem ite_formats {P : Decoded → Prop} {c1 c2 c3 c4 c5 c6 c7 c8 c9 : Prop} {i1 : Decidable c1} {i2 : Decidable c2}
    {i3 : Decidable c3} {i4 : Decidable c4} {i5 : Decidable c5} {i6 : Decidable c6} {i7 : Decidable c7}
    {i8 : Decidable c8} {i9 : Decidable c9} {d1 d2 d3 d4 d5 d6 d7 d8 d9 d10 : Decoded} (h1 : P d1) (h2 : P d2)
    (h3 : P d3) (h4 : P d4)
    (h5 : P d5) (h6 : P d6) (h7 : P d7) (h8 : P d8) (h9 : P d9) (h10 : P d10) :
    P (if c1 then d1 else if c2 then d2 else if c3 then d3 else if c4 then d4 else if c5 then d5 else if c6 then d6
      else if c7 then d7 else if c8 then d8 else if c9 then d9 else d10) := by
  exact ite_both h1 <| ite_both h2 <| ite_both h3 <| ite_both h4 <| ite_both h5 <| ite_both h6 <| ite_both h7 <|
    ite_both h8 <| ite_both h9 h10

/-- every word selects exactly one of the two arithmetic units -/
theorem decode_unit (insn : Word) : (decode insn).mduEn = !(decode insn).aluEn := by
  let P : Decoded → Prop := fun d => d.mduEn = !d.aluEn
  refine ite_formats (P := P) ?_ ?_ ?_ ?_ ?_ ?_ ?_ ?_ ?_ ?_
  · exact (Bool.not_not _).symm
  all_goals exact rfl

/-- only a memory operation writes a loaded value back -/
theorem decode_memToReg (insn : Word) : (decode insn).memToReg = true → (decode insn).memOp = true := by
  let P : Decoded → Prop := fun d => d.memToReg = true → d.memOp = true
  refine ite_formats (P := P) ?_ ?_ ?_ ?_ ?_ ?_ ?_ ?_ ?_ ?_
  -- the loads are the third format
  rotate_left 2
  · exact fun _ => rfl
  all_goals exact fun h => absurd h Bool.false_ne_true

end FpgaLearning.ArxCore
