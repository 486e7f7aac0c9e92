/-
What an issued RV32IM instruction does, over any data device.

`IdOut.ofWord` is the record the decode stage issues for a word. For every instruction the lemmas below give the next pc,
the memory request and the committed value; a load is given the word that a byte memory holds at its address.
-/
import FpgaLearning.ArxCore.Conformance
import FpgaLearning.ArxCore.Mdu
import FpgaLearning.Core.Rv32im

namespace FpgaLearning.ArxCore

open FpgaLearning.Memory FpgaLearning.Rv32i
open FpgaLearning.Rv32im (MulOp)

/-! ## A byte memory as a word memory -/

/-- the words of a byte memory -/
def wordsOf (f : Word → Byte) : WordMem := fun w => joinLanes fun l => f (w ++ l)

@[simp] theorem byteAt_wordsOf (f : Word → Byte) : byteAt (wordsOf f) = f := by
  funext a
  rw [byteAt, wordsOf, lane_joinLanes]
  refine congrArg f (addr_ext ?_ ?_)
  · apply BitVec.eq_of_getLsbD_eq
    intro k hk
    simp only [wordIndex, BitVec.getLsbD_extractLsb', BitVec.getLsbD_append]
    grind
  · apply BitVec.eq_of_getLsbD_eq
    intro k hk
    simp only [laneIndex, BitVec.getLsbD_extractLsb', BitVec.getLsbD_append]
    grind

/-! ## Decoding the multiply/divide instructions -/

def mulMduOp : MulOp → MduOp
  | .mul => .mul
  | .mulh => .mulh
  | .mulhsu => .mulhsu
  | .mulhu => .mulhu
  | .div => .div
  | .divu => .divu
  | .rem => .rem
  | .remu => .remu

theorem decode_mulDiv (o : MulOp) (rd rs1 rs2 : Reg) : decode (Rv32im.Insn.mulDiv o rd rs1 rs2).encode =
    { regWrite := true, mduEn := true, mduOp := mulMduOp o } := by
  cases o <;> simp [decode, Rv32im.Insn.encode, MulOp.funct3, decodeAluOp, decodeMduOp, mulMduOp]

/-- the operands of a DIV that the unit gets wrong: a negative number by zero -/
def NegByZero (i : Rv32im.Insn) (s : State) : Prop :=
  match i with
  | .mulDiv o _ rs1 rs2 => o = .div ∧ s.regs rs2 = 0 ∧ (s.regs rs1).msb = true
  | .base _ => False

theorem value_mulMduOp {o : MulOp} {a b : Word} (h : ¬ (o = .div ∧ b = 0 ∧ a.msb = true)) :
    IMDU.value (mulMduOp o) a b = o.eval a b := by
  have hok : ¬ IMDU.NegByZero (mulMduOp o) a b := by
    rintro ⟨ho, hb, ha⟩
    refine h ⟨?_, hb, ha⟩
    cases o <;> first | rfl | cases ho
  rw [(IMDU.value_eq_rv32m_iff _ a b).2 hok]
  cases o <;> rfl

/-! ## The issued instruction -/

namespace IdOut

open ExecStage

/-- the word `w`, decoded at `pc`, with its operands -/
def ofWord (w pc : Word) (regs : Reg → Word) : IdOut :=
  ⟨decode w, regs (InsnDecoder.rs1 w), regs (InsnDecoder.rs2 w), InsnDecoder.rd w, pc⟩

theorem insn_eq_ofWord {σ : Type*} (imem : Word → Word) (q : SeqSt σ) :
    Sequential.insn imem q = ofWord (imem q.pc) q.pc q.regs := rfl

variable (s : State)

/-- the issued base instruction -/
theorem ofWord_encode (i : Insn) : ofWord i.encode s.pc s.regs =
    ⟨control i, s.regs (InsnDecoder.rs1 i.encode), s.regs (InsnDecoder.rs2 i.encode), InsnDecoder.rd i.encode, s.pc⟩ := by
  rw [ofWord, decode_encode]

theorem ofWord_mulDiv (o : MulOp) (rd rs1 rs2 : Reg) :
    ofWord (Rv32im.Insn.mulDiv o rd rs1 rs2).encode s.pc s.regs =
      ⟨{ regWrite := true, mduEn := true, mduOp := mulMduOp o }, s.regs rs1, s.regs rs2, rd, s.pc⟩ := by
  rw [ofWord, decode_mulDiv]
  simp [Rv32im.Insn.encode]

/-- the next pc of a base instruction, for JALR before bit 0 is cleared -/
theorem nextPc_base (i : Insn) : (ofWord i.encode s.pc s.regs).nextPc = i.rawNextPc s := by
  rw [ofWord_encode]
  cases i with
  | op o => cases o <;> rfl
  | opImm o => cases o <;> rfl
  | shift o => cases o <;> rfl
  | branch c rs1 rs2 off =>
    simp [nextPc, taken, target, branchEn, control, ialuArg1, ialuArg2, IALU.mBranchEn_cond, Insn.encode, Insn.rawNextPc]
  | jalr rd rs1 imm => simp [nextPc, taken, target, control, Insn.encode, Insn.rawNextPc]
  | load o => rfl
  | store o => rfl
  | jal => rfl
  | lui => rfl
  | auipc => rfl

/-- the address of a memory operation -/
theorem aluRes_load (o : LoadOp) (rd rs1 : Reg) (imm : BitVec 12) :
    (ofWord (Insn.load o rd rs1 imm).encode s.pc s.regs).aluRes = effAddr s rs1 imm := by
  rw [ofWord_encode]
  simp [aluRes, control, ialuArg1, ialuArg2, IALU.mRes, IALU.sumsub_add, Insn.encode, effAddr]

theorem aluRes_store (o : StoreOp) (rs1 rs2 : Reg) (imm : BitVec 12) :
    (ofWord (Insn.store o rs1 rs2 imm).encode s.pc s.regs).aluRes = effAddr s rs1 imm := by
  rw [ofWord_encode]
  simp [aluRes, control, ialuArg1, ialuArg2, IALU.mRes, IALU.sumsub_add, Insn.encode, effAddr]

theorem memReq_store (o : StoreOp) (rs1 rs2 : Reg) (imm : BitVec 12) :
    (ofWord (Insn.store o rs1 rs2 imm).encode s.pc s.regs).memReq =
      LoadStoreUnit.request (storeType o) (effAddr s rs1 imm) (s.regs rs2) := by
  rw [IdOut.memReq, aluRes_store, ofWord_encode]
  simp [control, Insn.encode]

theorem memReq_load_we (o : LoadOp) (rd rs1 : Reg) (imm : BitVec 12) :
    (ofWord (Insn.load o rd rs1 imm).encode s.pc s.regs).memReq.we = false := by
  rw [ofWord_encode]
  cases o <;> rfl

/-- what a base instruction commits, when the word on the bus is the one at the address of a load -/
theorem result_base {i : Insn} (hal : i.Aligned s) (data : Word)
    (hdata : ∀ o rd rs1 imm, i = .load o rd rs1 imm → data = wordsOf s.mem (wordIndex (effAddr s rs1 imm))) :
    (if (ofWord i.encode s.pc s.regs).d.regWrite then
      some ((ofWord i.encode s.pc s.regs).rd, (ofWord i.encode s.pc s.regs).wbVal data) else none) = i.result s := by
  cases i with
  | load o rd rs1 imm =>
    have hval := LoadStoreUnit.readData_load o (wordsOf s.mem) (effAddr s rs1 imm) hal
    rw [byteAt_wordsOf] at hval
    rw [wbVal, memVal, aluRes_load, ofWord_encode, hdata o rd rs1 imm rfl]
    simp [control, Insn.encode, Insn.result, hval]
  | op o rd rs1 rs2 =>
    rw [ofWord_encode]
    simp [control, wbVal, aluRes, ialuArg1, ialuArg2, IALU.mRes_reg, Insn.encode, Insn.result]
  | opImm o rd rs1 imm =>
    rw [ofWord_encode]
    simp [control, wbVal, aluRes, ialuArg1, ialuArg2, IALU.mRes_imm, Insn.encode, Insn.result]
  | shift o rd rs1 shamt =>
    rw [ofWord_encode]
    simp [control, wbVal, aluRes, ialuArg1, ialuArg2, IALU.mRes_shift, Insn.encode, Insn.result]
  | store o rs1 rs2 imm =>
    rw [ofWord_encode]
    rfl
  | branch c rs1 rs2 off =>
    rw [ofWord_encode]
    rfl
  | jal rd off =>
    rw [ofWord_encode]
    simp [control, wbVal, aluRes, ialuArg1, ialuArg2, IALU.mRes, IALU.sumsub_add, Insn.encode, Insn.result]
  | jalr rd rs1 imm =>
    rw [ofWord_encode]
    simp [control, wbVal, aluRes, ialuArg1, ialuArg2, IALU.mRes, IALU.sumsub_add, Insn.encode, Insn.result]
  | lui rd imm =>
    rw [ofWord_encode]
    simp [control, wbVal, aluRes, ialuArg1, ialuArg2, IALU.mRes, IALU.sumsub_add, Insn.encode, Insn.result]
  | auipc rd imm =>
    rw [ofWord_encode]
    simp [control, wbVal, aluRes, ialuArg1, ialuArg2, IALU.mRes, IALU.sumsub_add, Insn.encode, Insn.result]

end IdOut

end FpgaLearning.ArxCore
