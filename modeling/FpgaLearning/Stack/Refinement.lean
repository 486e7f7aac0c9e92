/-
The stack processor refines its instruction set.

- `Inv`: what each of the phases of an instruction has done so far, relative to the state before the instruction.
- `Inv.next`: a clock edge moves to the next phase; the edge that leaves `S_STORE` completes one `Arch.step`.
- `run_inv`: at every cycle the instruction under way started where as many atomic steps lead as have completed.
-/
import FpgaLearning.Stack.Processor

namespace FpgaLearning.Stack

open FpgaLearning.Memory FpgaLearning.Bus

variable {z : DivByZero} {rom : Word → Word} {rdw : Word → MemReq → Word}

/-! ## What one edge does to the processor -/

namespace Processor

variable {s : St} {i : In}

theorem next_halt (he : i.clkEn = true) (hs : s.curState = .halt) :
    next z s i = { s with curState := if i.resumeReq then .fetch else .halt } := by
  simp [next, he, ctrl, hs, pcWriteEnable, SaveStage.pcWriteEnable, nextSp, spIncrEnable, SaveStage.incrementSp,
    spDecrEnable, fpWriteEnable, SaveStage.fpWriteEnable]

theorem next_fetch_wait (he : i.clkEn = true) (hs : s.curState = .fetch) (hack : i.romAck = false) : next z s i = s := by
  obtain ⟨state, pc, ppc, sp, fp, opA, opB, insn⟩ := s
  obtain rfl : state = .fetch := hs
  simp [next, he, ctrl, hack, pcWriteEnable, SaveStage.pcWriteEnable, nextSp, spIncrEnable, SaveStage.incrementSp,
    spDecrEnable, fpWriteEnable, SaveStage.fpWriteEnable]

theorem next_fetch (he : i.clkEn = true) (hs : s.curState = .fetch) (hack : i.romAck = true) :
    next z s i = { s with curState := .loadB, localPc := s.localPc + 1, localInsn := decode i.romData } := by
  simp [next, he, ctrl, hs, hack, pcWriteEnable, SaveStage.pcWriteEnable, nextSp, spIncrEnable, SaveStage.incrementSp,
    spDecrEnable, fpWriteEnable, SaveStage.fpWriteEnable, insn, pcVal]

/-- the phases that access the data memory wait for its acknowledge -/
theorem next_ram_wait (he : i.clkEn = true) (hs : s.curState = .loadB ∨ s.curState = .loadA ∨ s.curState = .store)
    (hack : i.ramAck = false) : next z s i = s := by
  obtain ⟨state, pc, ppc, sp, fp, opA, opB, insn⟩ := s
  rcases hs with rfl | rfl | rfl <;>
    simp [next, he, ctrl, hack, ramAckInternal, halted, pcWriteEnable, SaveStage.pcWriteEnable, nextSp,
      spIncrEnable, SaveStage.incrementSp, spDecrEnable, fpWriteEnable, SaveStage.fpWriteEnable]

theorem next_loadB (he : i.clkEn = true) (hs : s.curState = .loadB) (hack : i.ramAck = true) :
    next z s i = { s with
      curState := .loadA
      opB := OperandSourceSelector.q s.localInsn.opBSrc s.localInsn.imm i.ramData i.ramData s.fp s.localPpc
      sp := if s.localInsn.opBSrc = .stack then s.sp - 1 else s.sp } := by
  cases hb : s.localInsn.opBSrc <;>
    simp [next, he, ctrl, hs, hack, ramAckInternal, ramDataInternal, halted, pcWriteEnable, SaveStage.pcWriteEnable,
      nextSp, spIncrEnable, SaveStage.incrementSp, spDecrEnable, AddrSelector.decrementSp, fpWriteEnable,
      SaveStage.fpWriteEnable, insn, regBWriteData, ppcVal, hb]
  bv_omega

theorem next_loadA (he : i.clkEn = true) (hs : s.curState = .loadA) (hack : i.ramAck = true) :
    next z s i = { s with
      curState := .store
      opA := OperandSourceSelector.q s.localInsn.opASrc s.localInsn.imm i.ramData i.ramData s.fp s.localPpc
      sp := if s.localInsn.opASrc = .stack then s.sp - 1 else s.sp } := by
  cases ha : s.localInsn.opASrc <;>
    simp [next, he, ctrl, hs, hack, ramAckInternal, ramDataInternal, halted, pcWriteEnable, SaveStage.pcWriteEnable,
      nextSp, spIncrEnable, SaveStage.incrementSp, spDecrEnable, AddrSelector.decrementSp, fpWriteEnable,
      SaveStage.fpWriteEnable, insn, regAWriteData, ppcVal, ha]
  bv_omega

theorem next_store (he : i.clkEn = true) (hs : s.curState = .store) (hack : i.ramAck = true) :
    next z s i = { s with
      curState := if i.haltReq then .halt else .fetch
      localPc := if BranchConditioner.q s.localInsn.resDst s.opA then s.opB else s.localPc
      localPpc := if BranchConditioner.q s.localInsn.resDst s.opA then s.localPc else s.localPpc
      sp := if s.localInsn.resDst = .stack then s.sp + 1 else s.sp
      fp := if s.localInsn.resDst = .fp then ALU.result z s.localInsn.aluOp s.opA s.opB else s.fp } := by
  cases hd : s.localInsn.resDst <;>
    simp [next, he, ctrl, hs, hack, ramAckInternal, halted, pcWriteEnable, SaveStage.pcWriteEnable, nextSp,
      spIncrEnable, SaveStage.incrementSp, spDecrEnable, fpWriteEnable, SaveStage.fpWriteEnable, insn, aluRes,
      BranchConditioner.q, hd]

end Processor

namespace System

/-- what a program can observe -/
def arch (s : System) : Arch := ⟨s.p.localPc, s.p.localPpc, s.p.sp, s.p.fp, s.mem.words, s.mem.out1⟩

variable {s : System} {e : Cycle}

/-- a debug request is a read -/
def DebugReads (e : Cycle) : Prop := e.debug.req = true → e.debug.r.we = false

/-- without the clock enable nothing moves -/
theorem next_of_disabled (h : e.clkEn = false) : s.next z rom rdw e = s := by
  obtain ⟨p, romPort, romData, ramPort, mem, rounds⟩ := s
  obtain ⟨p1, p2, p3, p4, p5, p6, p7, p8⟩ := p
  simp [next, Processor.next, Processor.pcWriteEnable, SaveStage.pcWriteEnable, Processor.nextSp, RomPort.next,
    RamPort.next, Mmio.next, completes, pins, ackPins, h]

/-- an instruction completes with the acknowledge of `S_STORE` -/
theorem completes_eq : s.completes e = (e.clkEn && s.p.curState == .store && s.ramPort.ack) := by
  cases hs : s.p.curState <;> cases hack : s.ramPort.ack <;> cases hrom : RomPort.ack s.romPort <;>
    simp [completes, Processor.ctrl, Processor.ramAckInternal, Processor.halted, ackPins, hs, hack, hrom]

/-! ## The memory -/

/-- the word the RAM shows, once it has been read at the current address -/
theorem q_eq_load {a : Word} (h : s.mem.ramQ = s.mem.words (a.setWidth 15)) : Mmio.q s.mem a = s.arch.load a := by
  simp only [Mmio.q, Arch.load, arch, h]

variable (rdw) in
theorem mmio_next_of_read {m : Mmio.St} {r : MemReq} (h : r.we = false) (b : Bool) :
    (Mmio.next rdw m b r).words = m.words ∧ (Mmio.next rdw m b r).out1 = m.out1 ∧
      (b = true → (Mmio.next rdw m b r).ramQ = m.words (r.addr.setWidth 15)) := by
  cases b <;> simp [Mmio.next, h]

@[simp] theorem mergeBytes_all (old new : Word) : mergeBytes old new 15#4 = new := by
  refine word_ext fun i => ?_
  rcases lane_index i with rfl | rfl | rfl | rfl <;> simp

/-- a full-word write is `Arch.store` -/
theorem arch_store (addr val : Word) :
    (⟨s.p.localPc, s.p.localPpc, s.p.sp, s.p.fp, (Mmio.next rdw s.mem true ⟨addr, val, true, 15#4⟩).words,
      (Mmio.next rdw s.mem true ⟨addr, val, true, 15#4⟩).out1⟩ : Arch) = s.arch.store addr val := by
  cases h : addr.getLsbD 30
  · simp only [Mmio.next, Arch.store, arch, h, Bool.not_false, Bool.and_true, Bool.and_false, ite_true, mergeBytes_all,
      Bool.false_eq_true, ite_false]
  · simp only [Mmio.next, Arch.store, arch, h, Bool.not_true, Bool.and_true, Bool.and_false, ite_true, mergeBytes_all,
      Bool.false_eq_true, ite_false]

/-! ## The invariant -/

end System

namespace Arch

def passed (a : Arch) : Arch := { a with pc := a.pc + 1 }

theorem add_ones (x : Word) : x + 0xFFFFFFFF = x - 1 := by bv_omega

/-- `loadB` in terms of the units of the processor -/
theorem loadB_eq {i : Insn} (h : i.opBSrc = .imm ∨ i.opBSrc = .stack ∨ i.opBSrc = .fpImm) (s : Arch) :
    s.loadB i = (OperandSourceSelector.q i.opBSrc i.imm (s.load (AddrSelector.addr i.opBSrc s.sp 0))
        (s.load (AddrSelector.addr i.opBSrc s.sp 0)) s.fp s.ppc,
      { s with sp := if i.opBSrc = .stack then s.sp - 1 else s.sp }) := by
  rcases h with h | h | h <;> simp only [loadB, h, OperandSourceSelector.q, AddrSelector.addr, add_ones] <;> rfl

theorem loadA_eq {i : Insn} (h : i.opASrc = .imm ∨ i.opASrc = .stack ∨ i.opASrc = .addr ∨ i.opASrc = .fp ∨ i.opASrc = .ppc)
    (b : Word) (s : Arch) :
    s.loadA i b = (OperandSourceSelector.q i.opASrc i.imm (s.load (AddrSelector.addr i.opASrc s.sp b))
        (s.load (AddrSelector.addr i.opASrc s.sp b)) s.fp s.ppc,
      { s with sp := if i.opASrc = .stack then s.sp - 1 else s.sp }) := by
  rcases h with h | h | h | h | h <;>
    simp only [loadA, h, OperandSourceSelector.q, AddrSelector.addr, add_ones] <;> rfl

/-- only the memory write of an instruction -/
def written (i : Insn) (b r : Word) (s : Arch) : Arch :=
  match s.storeAddr i b with
  | some addr => s.store addr r
  | none => s

/-- sp, fp and a jump follow the memory write -/
def finished (i : Insn) (a b r : Word) (s : Arch) : Arch :=
  { s with
    pc := if BranchConditioner.q i.resDst a then b else s.pc
    ppc := if BranchConditioner.q i.resDst a then s.pc else s.ppc
    sp := if i.resDst = .stack then s.sp + 1 else s.sp
    fp := if i.resDst = .fp then r else s.fp }

theorem save_eq (i : Insn) (a b r : Word) (s : Arch) : s.save i a b r = (s.written i b r).finished i a b r := by
  cases hd : i.resDst with
  | pcZ => by_cases ha : a = 0#32 <;> simp [save, written, finished, storeAddr, hd, BranchConditioner.q, jump, ha]
  | pcNz => by_cases ha : a = 0#32 <;> simp [save, written, finished, storeAddr, hd, BranchConditioner.q, jump, ha]
  | _ => apply Arch.ext <;> simp [save, written, finished, storeAddr, hd, BranchConditioner.q, jump]

end Arch

namespace System

/-- an instruction is under way: it is decoded, and the program memory is idle -/
structure Running (rom : Word → Word) (a : Arch) (s : System) : Prop where
  insn : s.p.localInsn = decode (rom a.pc)
  idle : s.romPort = .idle

/-- once acknowledged, the RAM shows the word at `addr` -/
def Shows (s : System) (addr : Word) : Prop := s.ramPort.ack = true → s.mem.ramQ = s.mem.words (addr.setWidth 15)

/-- the phases of the instruction that starts in `a` -/
inductive Inv (z : DivByZero) (rom : Word → Word) (a : Arch) (s : System) : Prop
  | halt (hs : s.p.curState = .halt) (hrom : s.romPort = .idle) (ha : s.arch = a)
  | fetch (hs : s.p.curState = .fetch) (hrom : s.romPort = .idle) (ha : s.arch = a)
  | fetched (hs : s.p.curState = .fetch) (hrom : s.romPort = .waitData) (hdata : s.romData = rom a.pc)
      (hack : s.ramPort.ack = false) (ha : s.arch = a)
  | loadB (hs : s.p.curState = .loadB) (hx : Running rom a s)
      (hq : s.Shows (AddrSelector.addr s.p.localInsn.opBSrc s.p.sp 0)) (ha : s.arch = a.passed)
  | loadA (hs : s.p.curState = .loadA) (hx : Running rom a s)
      (hq : s.Shows (AddrSelector.addr s.p.localInsn.opASrc s.p.sp s.p.opB))
      (ha : s.arch = (a.passed.loadB s.p.localInsn).2) (hb : s.p.opB = (a.passed.loadB s.p.localInsn).1)
  | store (hs : s.p.curState = .store) (hx : Running rom a s) (hb : s.p.opB = (a.passed.loadB s.p.localInsn).1)
      (hA : s.p.opA = ((a.passed.loadB s.p.localInsn).2.loadA s.p.localInsn s.p.opB).1)
      (ha : s.arch = if s.ramPort.ack
        then ((a.passed.loadB s.p.localInsn).2.loadA s.p.localInsn s.p.opB).2.written s.p.localInsn s.p.opB
          (ALU.result z s.p.localInsn.aluOp s.p.opA s.p.opB)
        else ((a.passed.loadB s.p.localInsn).2.loadA s.p.localInsn s.p.opB).2)

theorem Inv.init (mem : RamWords) (romData ramQ : Word) : Inv z rom (Arch.init mem) (init mem romData ramQ) :=
  .halt rfl rfl rfl

/-! ## One cycle -/

variable {a : Arch} {s : System} {e : Cycle}

theorem arch_next : (s.next z rom rdw e).arch = ⟨(s.next z rom rdw e).p.localPc, (s.next z rom rdw e).p.localPpc,
    (s.next z rom rdw e).p.sp, (s.next z rom rdw e).p.fp, (Mmio.next rdw s.mem e.clkEn (s.memReq z e)).words,
    (Mmio.next rdw s.mem e.clkEn (s.memReq z e)).out1⟩ := rfl

/-- a cycle in which the memory is not written -/
theorem arch_next_of_read (hw : (s.memReq z e).we = false) :
    (s.next z rom rdw e).arch = ⟨(s.next z rom rdw e).p.localPc, (s.next z rom rdw e).p.localPpc,
      (s.next z rom rdw e).p.sp, (s.next z rom rdw e).p.fp, s.mem.words, s.mem.out1⟩ := by
  obtain ⟨h1, h2, -⟩ := mmio_next_of_read rdw (m := s.mem) hw e.clkEn
  rw [arch_next, h1, h2]

/-- only `S_STORE` writes -/
theorem memReq_we (hd : DebugReads e) (hs : s.p.curState ≠ .store) : (s.memReq z e).we = false := by
  cases h : s.p.curState with
  | store => exact absurd h hs
  | halt =>
    have : (e.debug.req && e.debug.r.we) = false := by
      cases hr : e.debug.req
      · rfl
      · rw [hd hr]; rfl
    simpa [memReq, Processor.ramOut, Processor.halted, h, RamPort.out, ackPins] using this
  | fetch => simp [memReq, Processor.ramOut, Processor.halted, h, RamPort.out, Processor.ramWeInternal]
  | loadB => simp [memReq, Processor.ramOut, Processor.halted, h, RamPort.out, Processor.ramWeInternal]
  | loadA => simp [memReq, Processor.ramOut, Processor.halted, h, RamPort.out, Processor.ramWeInternal]

/-- the acknowledge of the next cycle answers the request of this one -/
theorem ack_next (he : e.clkEn = true) :
    (s.next z rom rdw e).ramPort.ack = (Processor.ramOut z s.p (s.ackPins e)).req := by
  simp only [next, RamPort.next, he, ite_true]
  rfl

variable (z rom rdw) in
theorem romPort_next (he : e.clkEn = true) (hs : s.p.curState ≠ .fetch) (hrom : s.romPort = .idle) :
    (s.next z rom rdw e).romPort = .idle := by
  have hreq : (Processor.ctrl s.p (s.pins z e)).romReq = false := by
    unfold Processor.ctrl
    cases h : s.p.curState with
    | fetch => exact absurd h hs
    | halt => rfl
    | loadB => dsimp only; split_ifs <;> rfl
    | loadA => dsimp only; split_ifs <;> rfl
    | store => dsimp only; split_ifs <;> rfl
  simp [System.next, RomPort.next, he, hrom, Processor.romReq, hreq]

theorem Inv.next_halt (he : e.clkEn = true) (hd : DebugReads e) (hs : s.p.curState = .halt) (hrom : s.romPort = .idle)
    (ha : s.arch = a) : s.completes e = false ∧ Inv z rom a (s.next z rom rdw e) := by
  have hp : (s.next z rom rdw e).p = { s.p with curState := if e.resumeReq then .fetch else .halt } :=
    Processor.next_halt he hs
  have hrom' := romPort_next z rom rdw he (by simp [hs]) hrom
  have harch : (s.next z rom rdw e).arch = a := by
    rw [arch_next_of_read (memReq_we hd (by simp [hs])), hp, ← ha]; rfl
  refine ⟨by simp [completes_eq, hs], ?_⟩
  cases hr : e.resumeReq
  · exact .halt (by rw [hp, hr]; rfl) hrom' harch
  · exact .fetch (by rw [hp, hr]; rfl) hrom' harch

theorem Inv.next_fetch (he : e.clkEn = true) (hd : DebugReads e) (hs : s.p.curState = .fetch) (hrom : s.romPort = .idle)
    (ha : s.arch = a) : s.completes e = false ∧ Inv z rom a (s.next z rom rdw e) := by
  have hack : (s.pins z e).romAck = false := by simp [pins, ackPins, hrom, RomPort.ack]
  have hp : (s.next z rom rdw e).p = s.p := Processor.next_fetch_wait he hs hack
  have harch : (s.next z rom rdw e).arch = a := by
    rw [arch_next_of_read (memReq_we hd (by simp [hs])), hp, ← ha]; rfl
  refine ⟨by simp [completes_eq, hs], ?_⟩
  refine .fetched (by rw [hp, hs]) ?_ ?_ ?_ harch
  · simp [System.next, RomPort.next, he, hrom, Processor.romReq, Processor.ctrl, hs, hack]
  · have hpc : s.p.localPc = a.pc := by rw [← ha]; rfl
    simp [System.next, he, Processor.romAddr, Processor.pcVal, Processor.pcWriteEnable, Processor.ctrl, hs, hack,
      SaveStage.pcWriteEnable, hpc]
  · rw [ack_next he]
    simp [Processor.ramOut, Processor.halted, Processor.ctrl, hs, ackPins, hrom, RomPort.ack]

theorem Inv.next_fetched (he : e.clkEn = true) (hd : DebugReads e) (hs : s.p.curState = .fetch)
    (hrom : s.romPort = .waitData) (hdata : s.romData = rom a.pc) (ha : s.arch = a) :
    s.completes e = false ∧ Inv z rom a (s.next z rom rdw e) := by
  have hack : (s.pins z e).romAck = true := by simp [pins, ackPins, hrom, RomPort.ack]
  have hp : (s.next z rom rdw e).p = { s.p with
      curState := .loadB, localPc := s.p.localPc + 1, localInsn := decode s.romData } :=
    Processor.next_fetch he hs hack
  have harch : (s.next z rom rdw e).arch = a.passed := by
    rw [arch_next_of_read (memReq_we hd (by simp [hs])), hp, ← ha]; rfl
  have hnack : (s.next z rom rdw e).ramPort.ack = false := by
    rw [ack_next he]
    simp [Processor.ramOut, Processor.halted, Processor.ctrl, hs, ackPins, hrom, RomPort.ack]
  refine ⟨by simp [completes_eq, hs], ?_⟩
  refine .loadB (by rw [hp]) ⟨by rw [hp, hdata], ?_⟩ (fun h => ?_) harch
  · simp [System.next, RomPort.next, he, hrom, Processor.romReq, Processor.ctrl, hs, hack]
  · rw [hnack] at h; cases h

/-- a request of the processor that is not a write -/
theorem shows_next (he : e.clkEn = true) (hw : (s.memReq z e).we = false) :
    (s.next z rom rdw e).Shows (s.memReq z e).addr := by
  intro _
  obtain ⟨h1, -, h3⟩ := mmio_next_of_read rdw (m := s.mem) hw e.clkEn
  show (Mmio.next rdw s.mem e.clkEn (s.memReq z e)).ramQ = (Mmio.next rdw s.mem e.clkEn (s.memReq z e)).words _
  rw [h1, h3 he]

theorem Inv.next_loadB (he : e.clkEn = true) (hd : DebugReads e) (hs : s.p.curState = .loadB) (hx : Running rom a s)
    (hq : s.Shows (AddrSelector.addr s.p.localInsn.opBSrc s.p.sp 0)) (ha : s.arch = a.passed) :
    s.completes e = false ∧ Inv z rom a (s.next z rom rdw e) := by
  have hw : (s.memReq z e).we = false := memReq_we hd (by simp [hs])
  have hrom' := romPort_next z rom rdw he (by simp [hs]) hx.idle
  have haddr : (s.memReq z e).addr = AddrSelector.addr s.p.localInsn.opBSrc s.p.sp 0 := by
    cases hk : s.ramPort.ack <;>
      simp [memReq, RamPort.out, Processor.ramOut, Processor.halted, Processor.ramAddrInternal, Processor.insn,
        Processor.ctrl, Processor.ramAckInternal, hs, ackPins, hk]
  cases hack : s.ramPort.ack
  · have hp : (s.next z rom rdw e).p = s.p := Processor.next_ram_wait he (.inl hs) hack
    have harch : (s.next z rom rdw e).arch = a.passed := by
      rw [arch_next_of_read hw, hp, ← ha]; rfl
    refine ⟨by simp [completes_eq, hs], ?_⟩
    refine .loadB (by rw [hp, hs]) ⟨by rw [hp, hx.insn], hrom'⟩ ?_ harch
    rw [hp, ← haddr]
    exact shows_next he hw
  · have hop : s.p.localInsn.opBSrc = .imm ∨ s.p.localInsn.opBSrc = .stack ∨ s.p.localInsn.opBSrc = .fpImm := by
      rw [hx.insn]; exact decode_opB _
    have hdata : (s.pins z e).ramData = s.arch.load (AddrSelector.addr s.p.localInsn.opBSrc s.p.sp 0) := by
      rw [← q_eq_load (hq hack), ← haddr]; rfl
    have hp := Processor.next_loadB (z := z) (i := s.pins z e) he hs hack
    rw [hdata] at hp
    have hp' : (s.next z rom rdw e).p = _ := hp
    have hnack : (s.next z rom rdw e).ramPort.ack = false := by
      rw [ack_next he]
      simp [Processor.ramOut, Processor.halted, Processor.ctrl, Processor.ramAckInternal, hs, ackPins, hack]
    refine ⟨by simp [completes_eq, hs], ?_⟩
    refine .loadA (by rw [hp']) ⟨by rw [hp', ← hx.insn], hrom'⟩ (fun h => ?_) ?_ ?_
    · rw [hnack] at h; cases h
    · rw [arch_next_of_read hw, hp', ← ha, Arch.loadB_eq hop]; rfl
    · rw [hp', ← ha, Arch.loadB_eq hop]; rfl

theorem Inv.next_loadA (he : e.clkEn = true) (hd : DebugReads e) (hs : s.p.curState = .loadA) (hx : Running rom a s)
    (hq : s.Shows (AddrSelector.addr s.p.localInsn.opASrc s.p.sp s.p.opB))
    (ha : s.arch = (a.passed.loadB s.p.localInsn).2) (hb : s.p.opB = (a.passed.loadB s.p.localInsn).1) :
    s.completes e = false ∧ Inv z rom a (s.next z rom rdw e) := by
  have hw : (s.memReq z e).we = false := memReq_we hd (by simp [hs])
  have hrom' := romPort_next z rom rdw he (by simp [hs]) hx.idle
  have haddr : (s.memReq z e).addr = AddrSelector.addr s.p.localInsn.opASrc s.p.sp s.p.opB := by
    cases hk : s.ramPort.ack <;>
      simp [memReq, RamPort.out, Processor.ramOut, Processor.halted, Processor.ramAddrInternal, Processor.insn,
        Processor.ctrl, Processor.ramAckInternal, hs, ackPins, hk]
  cases hack : s.ramPort.ack
  · have hp : (s.next z rom rdw e).p = s.p := Processor.next_ram_wait he (.inr (.inl hs)) hack
    refine ⟨by simp [completes_eq, hs], ?_⟩
    refine .loadA (by rw [hp, hs]) ⟨by rw [hp, hx.insn], hrom'⟩ ?_ ?_ (by rw [hp, hb])
    · rw [hp, ← haddr]
      exact shows_next he hw
    · rw [arch_next_of_read hw, hp, ← ha]; rfl
  · have hop : s.p.localInsn.opASrc = .imm ∨ s.p.localInsn.opASrc = .stack ∨ s.p.localInsn.opASrc = .addr ∨
        s.p.localInsn.opASrc = .fp ∨ s.p.localInsn.opASrc = .ppc := by
      rw [hx.insn]; exact decode_opA _
    have hdata : (s.pins z e).ramData = s.arch.load (AddrSelector.addr s.p.localInsn.opASrc s.p.sp s.p.opB) := by
      rw [← q_eq_load (hq hack), ← haddr]; rfl
    have hp := Processor.next_loadA (z := z) (i := s.pins z e) he hs hack
    rw [hdata] at hp
    have hp' : (s.next z rom rdw e).p = _ := hp
    have hnack : (s.next z rom rdw e).ramPort.ack = false := by
      rw [ack_next he]
      simp [Processor.ramOut, Processor.halted, Processor.ctrl, Processor.ramAckInternal, hs, ackPins, hack]
    refine ⟨by simp [completes_eq, hs], ?_⟩
    refine .store (by rw [hp']) ⟨by rw [hp', ← hx.insn], hrom'⟩ (by rw [hp', ← hb]) ?_ ?_
    · rw [hp', ← ha, Arch.loadA_eq hop]; rfl
    · rw [hnack, arch_next_of_read hw, hp', ← ha, Arch.loadA_eq hop]; rfl

theorem Inv.next_store (he : e.clkEn = true) (hs : s.p.curState = .store) (hx : Running rom a s)
    (hack : s.ramPort.ack = false) (hb : s.p.opB = (a.passed.loadB s.p.localInsn).1)
    (hA : s.p.opA = ((a.passed.loadB s.p.localInsn).2.loadA s.p.localInsn s.p.opB).1)
    (ha : s.arch = ((a.passed.loadB s.p.localInsn).2.loadA s.p.localInsn s.p.opB).2) :
    s.completes e = false ∧ Inv z rom a (s.next z rom rdw e) := by
  have hrom' := romPort_next z rom rdw he (by simp [hs]) hx.idle
  have hp : (s.next z rom rdw e).p = s.p := Processor.next_ram_wait he (.inr (.inr hs)) hack
  have hack' : (s.next z rom rdw e).ramPort.ack = true := by
    rw [ack_next he]
    simp [Processor.ramOut, Processor.halted, Processor.ctrl, Processor.ramAckInternal, hs, ackPins, hack]
  have hreq : s.memReq z e = ⟨SaveStage.addr s.p.localInsn.resDst s.p.sp s.p.opB,
      ALU.result z s.p.localInsn.aluOp s.p.opA s.p.opB, SaveStage.memWriteEnable s.p.localInsn.resDst, 15#4⟩ := by
    simp [memReq, RamPort.out, Processor.ramOut, Processor.halted, Processor.ramAddrInternal, Processor.ramWeInternal,
      Processor.aluRes, Processor.insn, Processor.ctrl, Processor.ramAckInternal, hs, ackPins, hack]
  have harch : (s.next z rom rdw e).arch = s.arch.written s.p.localInsn s.p.opB
      (ALU.result z s.p.localInsn.aluOp s.p.opA s.p.opB) := by
    cases hdst : s.p.localInsn.resDst with
    | stack =>
      rw [Arch.written, Arch.storeAddr, hdst]
      rw [arch_next, hp, hreq, hdst, he]
      exact arch_store _ _
    | mem =>
      rw [Arch.written, Arch.storeAddr, hdst]
      rw [arch_next, hp, hreq, hdst, he]
      exact arch_store _ _
    | _ =>
      rw [arch_next_of_read (by rw [hreq, hdst]; rfl), hp, Arch.written, Arch.storeAddr, hdst]
      rfl
  refine ⟨by simp [completes_eq, hack], ?_⟩
  refine .store (by rw [hp, hs]) ⟨by rw [hp, hx.insn], hrom'⟩ (by rw [hp, hb]) (by rw [hp, hA]) ?_
  rw [hack', if_pos rfl, harch, hp, ha]

variable (rdw) in
theorem Inv.next_stored (he : e.clkEn = true) (hs : s.p.curState = .store) (hx : Running rom a s)
    (hack : s.ramPort.ack = true) (hb : s.p.opB = (a.passed.loadB s.p.localInsn).1)
    (hA : s.p.opA = ((a.passed.loadB s.p.localInsn).2.loadA s.p.localInsn s.p.opB).1)
    (ha : s.arch = ((a.passed.loadB s.p.localInsn).2.loadA s.p.localInsn s.p.opB).2.written s.p.localInsn s.p.opB
      (ALU.result z s.p.localInsn.aluOp s.p.opA s.p.opB)) :
    s.completes e = true ∧ Inv z rom (a.step z rom) (s.next z rom rdw e) := by
  have hrom' := romPort_next z rom rdw he (by simp [hs]) hx.idle
  have hp : (s.next z rom rdw e).p = _ := Processor.next_store (z := z) (i := s.pins z e) he hs hack
  have hw : (s.memReq z e).we = false := by
    simp [memReq, RamPort.out, Processor.ramOut, Processor.halted, Processor.ctrl, Processor.ramAckInternal, hs, ackPins,
      hack]
  have hstep : a.step z rom = s.arch.finished s.p.localInsn s.p.opA s.p.opB
      (ALU.result z s.p.localInsn.aluOp s.p.opA s.p.opB) := by
    rw [ha, ← Arch.save_eq, hA, hb, hx.insn]
    rfl
  have harch : (s.next z rom rdw e).arch = a.step z rom := by
    rw [arch_next_of_read hw, hp, hstep]
    rfl
  refine ⟨by simp [completes_eq, he, hs, hack], ?_⟩
  cases hh : e.haltReq
  · refine .fetch ?_ hrom' harch
    rw [hp]
    simp [pins, ackPins, hh]
  · refine .halt ?_ hrom' harch
    rw [hp]
    simp [pins, ackPins, hh]

variable (rdw) in
/-- **One clock edge.** The instruction moves on by a phase, and with its last phase the next one begins. -/
theorem Inv.next (h : Inv z rom a s) (hd : DebugReads e) :
    Inv z rom (if s.completes e then a.step z rom else a) (s.next z rom rdw e) := by
  cases he : e.clkEn
  · rw [next_of_disabled he]
    simpa [completes, he] using h
  · have hstay : s.completes e = false ∧ Inv z rom a (s.next z rom rdw e) →
        Inv z rom (if s.completes e then a.step z rom else a) (s.next z rom rdw e) := fun ⟨h1, h2⟩ => by
      rw [h1]; exact h2
    cases h with
    | halt hs hrom ha => exact hstay (Inv.next_halt he hd hs hrom ha)
    | fetch hs hrom ha => exact hstay (Inv.next_fetch he hd hs hrom ha)
    | fetched hs hrom hdata hack ha => exact hstay (Inv.next_fetched he hd hs hrom hdata ha)
    | loadB hs hx hq ha => exact hstay (Inv.next_loadB he hd hs hx hq ha)
    | loadA hs hx hq ha hb => exact hstay (Inv.next_loadA he hd hs hx hq ha hb)
    | store hs hx hb hA ha =>
      cases hack : s.ramPort.ack
      · rw [hack] at ha
        exact hstay (Inv.next_store he hs hx hack hb hA ha)
      · rw [hack] at ha
        obtain ⟨h1, h2⟩ := Inv.next_stored rdw he hs hx hack hb hA ha
        rw [h1]
        exact h2

/-! ## Runs -/

/-- **Refinement.** At every cycle the instruction under way started in the state that as many atomic steps reach as
instructions have completed. -/
theorem run_inv (z : DivByZero) (rom : Word → Word) (rdw : Word → MemReq → Word) (mem : RamWords)
    (romData ramQ : Word) (e : ℕ → Cycle) (hd : ∀ n, DebugReads (e n)) (n : ℕ) :
    Inv z rom ((Arch.step z rom)^[(run z rom rdw mem romData ramQ e n).rounds] (Arch.init mem))
      (run z rom rdw mem romData ramQ e n) := by
  induction n with
  | zero => exact Inv.init mem romData ramQ
  | succ n ih =>
    have hnext := ih.next rdw (hd n)
    have hrounds : (run z rom rdw mem romData ramQ e (n + 1)).rounds = (run z rom rdw mem romData ramQ e n).rounds +
        ((run z rom rdw mem romData ramQ e n).completes (e n)).toNat := rfl
    cases hc : (run z rom rdw mem romData ramQ e n).completes (e n)
    · rw [hc] at hnext hrounds
      rw [hrounds]
      exact hnext
    · rw [hc] at hnext hrounds
      rw [hrounds, Bool.toNat_true, Function.iterate_succ_apply']
      exact hnext

theorem Inv.arch_eq (h : Inv z rom a s) (hs : s.p.curState = .fetch ∨ s.p.curState = .halt) : s.arch = a := by
  cases h with
  | halt _ _ ha => exact ha
  | fetch _ _ ha => exact ha
  | fetched _ _ _ _ ha => exact ha
  | loadB h' => rw [h'] at hs; simp at hs
  | loadA h' => rw [h'] at hs; simp at hs
  | store h' => rw [h'] at hs; simp at hs

end System

end FpgaLearning.Stack
