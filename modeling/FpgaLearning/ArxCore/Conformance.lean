/-
Every RV32I instruction is executed as the instruction set says.

The sequential machine is the composition of the decoder, the operand selection, the ALU, the branch logic, the
load/store unit and write-back. `step_conforms` compares one step of it with `Rv32i.Insn.step`: registers, memory bytes,
the branch decision and the next pc, for every instruction, register file and memory, accesses naturally aligned.

- ALU: `mRes_reg`, `mRes_imm`, `mRes_shift` and `mBranchEn_cond`, with the shared comparator in `ltRes_eq`.
- Memory: `readData_load` and `byteAt_store` relate the word port with its byte mask to bytes at an address.
-/
import FpgaLearning.ArxCore.Encoding
import FpgaLearning.ArxCore.Sequential

namespace FpgaLearning.ArxCore

open FpgaLearning.Memory FpgaLearning.Rv32i

/-! ## The ALU -/

namespace IALU

/-- the borrow of the shared subtractor is the unsigned comparison -/
theorem sumsub_borrow {op : AluOp} (h : op ≠ .add) (a b : Word) : (sumsub op a b).getLsbD 32 = a.ult b := by
  have hbit : ∀ x : BitVec 33, x.getLsbD 32 = decide (2 ^ 32 ≤ x.toNat) := by
    intro x
    rw [show x.getLsbD 32 = x.msb from (BitVec.msb_eq_getLsbD_last x).symm, BitVec.msb_eq_decide]
  rw [hbit, BitVec.ult_eq_decide]
  simp only [sumsub, if_neg h, BitVec.toNat_sub, BitVec.toNat_setWidth]
  have := a.isLt
  have := b.isLt
  congr 1
  apply propext
  omega

/-- **Comparator.** One borrow bit and the signs decide both orders. -/
theorem ltRes_eq {op : AluOp} (h : op ≠ .add) (a b : Word) :
    ltRes op a b = if isOpSigned op then a.slt b else a.ult b := by
  simp only [ltRes, sumsub_borrow h]
  have := a.isLt
  have := b.isLt
  simp only [BitVec.slt_eq_decide, BitVec.ult_eq_decide, BitVec.msb_eq_decide, BitVec.toInt_eq_toNat_cond]
  cases isOpSigned op <;> grind

theorem mRes_reg (o : RegOp) (a b : Word) : mRes (regAluOp o) a b = o.eval a b := by
  cases o <;> simp [mRes, regAluOp, RegOp.eval, sumsub_add, sumsub_sub, bitopRes, shiftRes, ltRes_eq, isOpSigned, flag]

theorem mRes_imm (o : ImmOp) (a b : Word) : mRes (immAluOp o) a b = o.eval a b := by
  cases o <;> simp [mRes, immAluOp, ImmOp.eval, sumsub_add, bitopRes, ltRes_eq, isOpSigned, flag]

theorem mRes_shift (o : ShiftOp) (a : Word) (shamt : BitVec 5) :
    mRes (shiftAluOp o) a (0#27 ++ shamt) = o.eval a shamt := by
  have h : (0#27 ++ shamt).extractLsb' 0 5 = shamt := by
    apply BitVec.eq_of_getLsbD_eq
    intro k hk
    simp only [BitVec.getLsbD_extractLsb', BitVec.getLsbD_append]
    grind
  cases o <;> simp [mRes, shiftAluOp, ShiftOp.eval, shiftRes, h]

theorem mBranchEn_cond (c : Cond) (a b : Word) : mBranchEn (condAluOp c) a b = c.eval a b := by
  cases c <;> simp [mBranchEn, condAluOp, Cond.eval, neqRes, bitopRes, ltRes_eq, isOpSigned, bne]

end IALU

/-! ## Bytes of the word port -/

theorem toNat_wordIndex (a : Word) : (wordIndex a).toNat = a.toNat / 4 := by
  have := a.isLt
  simp [wordIndex, BitVec.extractLsb'_toNat, Nat.shiftRight_eq_div_pow]
  omega

theorem toNat_laneIndex (a : Word) : (laneIndex a).toNat = a.toNat % 4 := by
  simp [laneIndex, BitVec.extractLsb'_toNat]

theorem wordIndex_memAddr (a : Word) : wordIndex (LoadStoreUnit.memAddr a) = wordIndex a := by
  apply BitVec.eq_of_getLsbD_eq
  intro k hk
  simp only [wordIndex, LoadStoreUnit.memAddr, BitVec.getLsbD_extractLsb', BitVec.getLsbD_append]
  grind

/-- a byte of the same word, `k` lanes up -/
theorem byteAt_add (m : WordMem) (a k : Word) (l : BitVec 2) (hl : l.toNat = a.toNat % 4 + k.toNat) :
    byteAt m (a + k) = lane (m (wordIndex a)) l := by
  have hlt := l.isLt
  have ha := a.isLt
  have hsum : (a + k).toNat = a.toNat + k.toNat := by rw [BitVec.toNat_add]; omega
  have hw : wordIndex (a + k) = wordIndex a := by
    apply BitVec.eq_of_toNat_eq
    rw [toNat_wordIndex, toNat_wordIndex, hsum]; omega
  have hl' : laneIndex (a + k) = l := by
    apply BitVec.eq_of_toNat_eq
    rw [toNat_laneIndex, hsum, hl]; omega
  rw [byteAt, hw, hl']

namespace LoadStoreUnit

theorem byteOf_eq (a w : Word) : byteOf a w = lane w (laneIndex a) := by
  rcases lane_index (laneIndex a) with h | h | h | h <;> simp [byteOf, h, lane]

theorem getLsbD_one (a : Word) : a.getLsbD 1 = decide (2 ≤ a.toNat % 4) := by
  rw [BitVec.getLsbD, Nat.testBit_eq_decide_div_mod_eq]
  congr 1
  apply propext
  omega

/-- the half word of an even address -/
theorem halfOf_eq (m : WordMem) (a : Word) (h : a.toNat % 2 = 0) :
    halfOf a (m (wordIndex a)) = readHalf (byteAt m) a := by
  have h0 : byteAt m a = lane (m (wordIndex a)) (laneIndex a) := rfl
  have hcase : a.toNat % 4 = 0 ∨ a.toNat % 4 = 2 := by omega
  rcases hcase with hc | hc
  · have hl : laneIndex a = 0 := BitVec.eq_of_toNat_eq (by rw [toNat_laneIndex, hc]; rfl)
    rw [readHalf, byteAt_add m a 1 1 (by rw [hc]; rfl), h0, hl, halfOf, getLsbD_one, hc]
    apply BitVec.eq_of_getLsbD_eq
    intro k hk
    simp only [lane, BitVec.getLsbD_append]
    simp
    grind
  · have hl : laneIndex a = 2 := BitVec.eq_of_toNat_eq (by rw [toNat_laneIndex, hc]; rfl)
    rw [readHalf, byteAt_add m a 1 3 (by rw [hc]; rfl), h0, hl, halfOf, getLsbD_one, hc]
    apply BitVec.eq_of_getLsbD_eq
    intro k hk
    simp only [lane, BitVec.getLsbD_append]
    simp
    grind

/-- **Loads.** -/
theorem readData_load (o : LoadOp) (m : WordMem) (a : Word) (h : a.toNat % o.size = 0) :
    readData (loadType o) a (m (wordIndex a)) = o.eval (byteAt m) a := by
  cases o with
  | lb => simp [loadType, readData, LoadOp.eval, byteOf_eq, byteAt]
  | lbu => simp [loadType, readData, LoadOp.eval, byteOf_eq, byteAt]
  | lh => simp [loadType, readData, LoadOp.eval, halfOf_eq m a h]
  | lhu => simp [loadType, readData, LoadOp.eval, halfOf_eq m a h]
  | lw =>
    have hc : a.toNat % 4 = 0 := h
    have hl : laneIndex a = 0 := BitVec.eq_of_toNat_eq (by rw [toNat_laneIndex, hc]; rfl)
    have h0 : byteAt m a = lane (m (wordIndex a)) 0 := by rw [byteAt, hl]
    simp only [loadType, readData, LoadOp.eval, readWord]
    rw [byteAt_add m a 1 1 (by rw [hc]; rfl), byteAt_add m a 2 2 (by rw [hc]; rfl),
      byteAt_add m a 3 3 (by rw [hc]; rfl), h0]
    exact (joinLanes_lane _).symm

/-- the byte mask selects the lanes of the access -/
theorem writeMask_getLsbD (o : StoreOp) (a : Word) (h : a.toNat % o.size = 0) (l : BitVec 2) :
    (writeMask (storeType o) a).getLsbD l.toNat = true ↔ a.toNat % 4 ≤ l.toNat ∧ l.toNat < a.toNat % 4 + o.size := by
  cases o with
  | sb =>
    have hl := toNat_laneIndex a
    rcases lane_index (laneIndex a) with ha | ha | ha | ha <;> rw [ha] at hl <;>
      rcases lane_index l with rfl | rfl | rfl | rfl <;> simp [writeMask, storeType, StoreOp.size, ha, ← hl]
  | sh =>
    have hcase : a.toNat % 4 = 0 ∨ a.toNat % 4 = 2 := by
      have : a.toNat % 2 = 0 := h
      omega
    rcases hcase with hc | hc <;> rcases lane_index l with rfl | rfl | rfl | rfl <;>
      simp only [writeMask, storeType, StoreOp.size, getLsbD_one, hc] <;> decide
  | sw =>
    have hc : a.toNat % 4 = 0 := h
    rcases lane_index l with rfl | rfl | rfl | rfl <;> simp [writeMask, storeType, StoreOp.size, hc]

/-- the lanes of the write data repeat the stored bytes from the lane of the address on -/
theorem lane_writeData (o : StoreOp) (a w : Word) (h : a.toNat % o.size = 0) (l : BitVec 2)
    (hl : a.toNat % 4 ≤ l.toNat ∧ l.toNat < a.toNat % 4 + o.size) :
    lane (writeData (storeType o) w) l = w.extractLsb' (8 * (l.toNat - a.toNat % 4)) 8 := by
  apply BitVec.eq_of_getLsbD_eq
  intro k hk
  cases o with
  | sb =>
    rw [show l.toNat - a.toNat % 4 = 0 by simp only [StoreOp.size] at hl; omega]
    rcases lane_index l with rfl | rfl | rfl | rfl <;>
      simp only [lane, writeData, storeType, BitVec.getLsbD_extractLsb', BitVec.getLsbD_append] <;> grind
  | sh =>
    have hcase : a.toNat % 4 = 0 ∨ a.toNat % 4 = 2 := by
      have : a.toNat % 2 = 0 := h
      omega
    rcases hcase with hc | hc <;> rw [hc] at hl ⊢ <;> rcases lane_index l with rfl | rfl | rfl | rfl <;>
      simp [StoreOp.size] at hl <;>
      simp only [lane, writeData, storeType, BitVec.getLsbD_extractLsb', BitVec.getLsbD_append] <;> grind
  | sw =>
    have hc : a.toNat % 4 = 0 := h
    rw [hc]; rfl

/-- **Stores.** -/
theorem byteAt_store (o : StoreOp) (m : WordMem) (a w : Word) (h : a.toNat % o.size = 0) :
    byteAt (m.write (request (storeType o) a w)) = writeBytes (byteAt m) a o.size w := by
  have hsize : a.toNat % 4 + o.size ≤ 4 := by cases o <;> simp [StoreOp.size] at h ⊢ <;> omega
  funext b
  have ha := a.isLt
  have hb := b.isLt
  have hwe : writeEn (storeType o) = true := by cases o <;> rfl
  have hmask := writeMask_getLsbD o a h (laneIndex b)
  have hdiff : (b - a).toNat = (2 ^ 32 - a.toNat + b.toNat) % 2 ^ 32 := BitVec.toNat_sub ..
  have hindex : wordIndex b = wordIndex a ↔ b.toNat / 4 = a.toNat / 4 := by
    rw [← BitVec.toNat_inj, toNat_wordIndex, toNat_wordIndex]
  simp only [byteAt_write, request, hwe, wordIndex_memAddr, hmask, hindex, writeBytes, true_and]
  simp only [toNat_laneIndex]
  by_cases hin : b.toNat / 4 = a.toNat / 4 ∧ a.toNat % 4 ≤ b.toNat % 4 ∧ b.toNat % 4 < a.toNat % 4 + o.size
  · have hd : (b - a).toNat = b.toNat % 4 - a.toNat % 4 := by rw [hdiff]; omega
    rw [if_pos hin, if_pos (by omega), lane_writeData o a w h _ (by rw [toNat_laneIndex]; exact hin.2),
      toNat_laneIndex, hd]
  · rw [if_neg hin, if_neg (by rw [hdiff]; omega)]

end LoadStoreUnit

/-! ## One instruction -/

/-- the machine state as the instruction set sees it -/
def isaState (q : SeqSt WordMem) (h0 : q.regs 0 = 0) : State := ⟨q.pc, q.regs, byteAt q.dev, h0⟩

/-- a committed write changes the register file as the instruction set says, x0 included -/
theorem write_eq (regs : Reg → Word) (rd : Reg) (v : Word) :
    RegisterFile.write regs rd true v = if rd = 0 then regs else Function.update regs rd v := by
  by_cases h : rd = 0 <;> simp [RegisterFile.write, h]

/-- what the step of one instruction must agree on -/
structure Conforms (imem : Word → Word) (q : SeqSt WordMem) (i : Insn) (s : State) : Prop where
  commit : Sequential.commit imem wordDevice q = (i.result s).toList
  regs : (Sequential.step imem wordDevice q).regs = (i.step s).regs
  mem : byteAt (Sequential.step imem wordDevice q).dev = (i.step s).mem
  taken : (Sequential.insn imem q).taken = i.taken s
  /-- for JALR this is the target before bit 0 is cleared -/
  pc : (Sequential.step imem wordDevice q).pc = i.rawNextPc s

/-- conformance of an instruction from what it computes -/
theorem Conforms.of_insn {imem : Word → Word} {q : SeqSt WordMem} {h0 : q.regs 0 = 0} {i : Insn} {x : IdOut}
    (hx : Sequential.insn imem q = x)
    (hres : (if x.d.regWrite then some (x.rd, x.wbVal (q.dev (wordIndex x.aluRes))) else none) = i.result (isaState q h0))
    (hmem : byteAt (if x.d.memOp then q.dev.write x.memReq else q.dev) = i.memAfter (isaState q h0))
    (htaken : x.taken = i.taken (isaState q h0)) (hpc : x.nextPc = i.rawNextPc (isaState q h0)) :
    Conforms imem q i (isaState q h0) := by
  have hbus : Sequential.busData imem wordDevice q = q.dev (wordIndex x.aluRes) := by
    rw [Sequential.busData, hx]
    exact congrArg q.dev (wordIndex_memAddr _)
  refine ⟨?_, ?_, ?_, ?_, ?_⟩
  · rw [Sequential.commit, hx, hbus, ← hres]
    split_ifs <;> rfl
  · simp only [Sequential.step, hx, hbus, Insn.step, Insn.regsAfter, ← hres]
    cases hw : x.d.regWrite
    · rfl
    · exact write_eq _ _ _
  · simp only [Sequential.step, hx, Insn.step, ← hmem]
    cases hm : x.d.memOp <;> rfl
  · rw [hx, htaken]
  · simp only [Sequential.step, hx, hpc]

open FpgaLearning.ArxCore.Sequential IdOut ExecStage in
/-- **RV32I conformance.** The word of an instruction, decoded and executed by the functions of the pipeline, has the
effect of the instruction. -/
theorem step_conforms (imem : Word → Word) (q : SeqSt WordMem) (h0 : q.regs 0 = 0) (i : Insn)
    (hi : imem q.pc = i.encode) (hal : i.Aligned (isaState q h0)) : Conforms imem q i (isaState q h0) := by
  have hd : decode (imem q.pc) = control i := by rw [hi, decode_encode]
  cases i with
  | op o rd rs1 rs2 =>
    have hx : insn imem q = ⟨control (.op o rd rs1 rs2), q.regs rs1, q.regs rs2, rd, q.pc⟩ := by
      simp only [insn, hd]; simp [hi, Insn.encode]
    refine .of_insn hx ?_ rfl ?_ ?_
    · simp [control, wbVal, aluRes, ialuArg1, ialuArg2, IALU.mRes_reg, Insn.result, isaState]
    · cases o <;> rfl
    · cases o <;> rfl
  | opImm o rd rs1 imm =>
    have hx : insn imem q =
        ⟨control (.opImm o rd rs1 imm), q.regs rs1, q.regs (InsnDecoder.rs2 (imem q.pc)), rd, q.pc⟩ := by
      simp only [insn, hd]; simp [hi, Insn.encode]
    refine .of_insn hx ?_ rfl ?_ ?_
    · simp [control, wbVal, aluRes, ialuArg1, ialuArg2, IALU.mRes_imm, Insn.result, isaState]
    · cases o <;> rfl
    · cases o <;> rfl
  | shift o rd rs1 shamt =>
    have hx : insn imem q = ⟨control (.shift o rd rs1 shamt), q.regs rs1, q.regs shamt, rd, q.pc⟩ := by
      simp only [insn, hd]; simp [hi, Insn.encode]
    refine .of_insn hx ?_ rfl ?_ ?_
    · simp [control, wbVal, aluRes, ialuArg1, ialuArg2, IALU.mRes_shift, Insn.result, isaState]
    · cases o <;> rfl
    · cases o <;> rfl
  | load o rd rs1 imm =>
    have hx : insn imem q =
        ⟨control (.load o rd rs1 imm), q.regs rs1, q.regs (InsnDecoder.rs2 (imem q.pc)), rd, q.pc⟩ := by
      simp only [insn, hd]; simp [hi, Insn.encode]
    refine .of_insn hx ?_ (by cases o <;> rfl) rfl rfl
    have haddr := IALU.sumsub_add (q.regs rs1) (imm.signExtend 32)
    have hval := LoadStoreUnit.readData_load o q.dev (effAddr (isaState q h0) rs1 imm) hal
    simp only [control, wbVal, memVal, aluRes, ialuArg1, ialuArg2, IALU.mRes, haddr, ite_true]
    exact congrArg (fun v => some (rd, v)) hval
  | store o rs1 rs2 imm =>
    have hx : insn imem q =
        ⟨control (.store o rs1 rs2 imm), q.regs rs1, q.regs rs2, InsnDecoder.rd (imem q.pc), q.pc⟩ := by
      simp only [insn, hd]; simp [hi, Insn.encode]
    refine .of_insn hx rfl ?_ rfl rfl
    have haddr := IALU.sumsub_add (q.regs rs1) (imm.signExtend 32)
    simp only [control, IdOut.memReq, aluRes, ialuArg1, ialuArg2, IALU.mRes, haddr, ite_true]
    exact LoadStoreUnit.byteAt_store o q.dev (effAddr (isaState q h0) rs1 imm) (q.regs rs2) hal
  | branch c rs1 rs2 off =>
    have hx : insn imem q =
        ⟨control (.branch c rs1 rs2 off), q.regs rs1, q.regs rs2, InsnDecoder.rd (imem q.pc), q.pc⟩ := by
      simp only [insn, hd]; simp [hi, Insn.encode]
    have htaken : taken ⟨control (.branch c rs1 rs2 off), q.regs rs1, q.regs rs2, InsnDecoder.rd (imem q.pc), q.pc⟩ =
        c.eval (q.regs rs1) (q.regs rs2) := by
      simp [taken, control, branchEn, ialuArg1, ialuArg2, IALU.mBranchEn_cond]
    refine .of_insn hx rfl rfl htaken ?_
    rw [nextPc, htaken]; rfl
  | jal rd off =>
    have hx : insn imem q = ⟨control (.jal rd off), q.regs (InsnDecoder.rs1 (imem q.pc)),
        q.regs (InsnDecoder.rs2 (imem q.pc)), rd, q.pc⟩ := by
      simp only [insn, hd]; simp [hi, Insn.encode]
    refine .of_insn hx ?_ rfl rfl rfl
    simp [control, wbVal, aluRes, ialuArg1, ialuArg2, IALU.mRes, IALU.sumsub_add, Insn.result, isaState]
  | jalr rd rs1 imm =>
    have hx : insn imem q =
        ⟨control (.jalr rd rs1 imm), q.regs rs1, q.regs (InsnDecoder.rs2 (imem q.pc)), rd, q.pc⟩ := by
      simp only [insn, hd]; simp [hi, Insn.encode]
    refine .of_insn hx ?_ rfl rfl rfl
    simp [control, wbVal, aluRes, ialuArg1, ialuArg2, IALU.mRes, IALU.sumsub_add, Insn.result, isaState]
  | lui rd imm =>
    have hx : insn imem q = ⟨control (.lui rd imm), q.regs (InsnDecoder.rs1 (imem q.pc)),
        q.regs (InsnDecoder.rs2 (imem q.pc)), rd, q.pc⟩ := by
      simp only [insn, hd]; simp [hi, Insn.encode]
    refine .of_insn hx ?_ rfl rfl rfl
    simp [control, wbVal, aluRes, ialuArg1, ialuArg2, IALU.mRes, IALU.sumsub_add, Insn.result]
  | auipc rd imm =>
    have hx : insn imem q = ⟨control (.auipc rd imm), q.regs (InsnDecoder.rs1 (imem q.pc)),
        q.regs (InsnDecoder.rs2 (imem q.pc)), rd, q.pc⟩ := by
      simp only [insn, hd]; simp [hi, Insn.encode]
    refine .of_insn hx ?_ rfl rfl rfl
    simp [control, wbVal, aluRes, ialuArg1, ialuArg2, IALU.mRes, IALU.sumsub_add, Insn.result, isaState]

/-- x1 = 4 and x2 = 0x12345678, all memory zero -/
def storeDemo : SeqSt WordMem := ⟨8, fun r => if r = 1 then 4 else if r = 2 then 0x12345678 else 0, fun _ => 0⟩

/-- `sh x2, 2(x1)` -/
theorem step_conforms_sh :
    byteAt (Sequential.step (fun _ => (Insn.store .sh 1 2 2).encode) wordDevice storeDemo).dev 7 = 0x56 ∧
      Conforms (fun _ => (Insn.store .sh 1 2 2).encode) storeDemo (.store .sh 1 2 2) (isaState storeDemo rfl) :=
  ⟨by decide, step_conforms _ storeDemo rfl (.store .sh 1 2 2) rfl
    (by simp [Insn.Aligned, effAddr, isaState, storeDemo, StoreOp.size])⟩

end FpgaLearning.ArxCore
