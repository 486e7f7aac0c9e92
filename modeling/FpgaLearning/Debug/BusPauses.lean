/-
Debug accesses under a clock enable that comes and goes.

The copier keeps its request up until an acknowledge, and the bridge shows it an acknowledge in enabled cycles only. So the
enabled cycles of an access alternate: in the first the RAM serves it, in the next the copier is acknowledged, and the
paused cycles in between change nothing (`Survives`).

- `Waiting`, `Answered`: the two phases of an access, as relations to the state in which it began.
- `Fresh`: what the first cycle of an access needs. A pause may have frozen the acknowledge of the last access of the
  core; an access that begins in that pause takes it for its own.
- `debug_accesses_survive_iff`: a run performs every debug access exactly once if and only if no access begins unfresh
  and then sees the clock enable come back.
-/
import FpgaLearning.ArxCore.Halt
import FpgaLearning.Bus.Delivery
import FpgaLearning.Debug.BusAccess
import FpgaLearning.Debug.UnitLemmas

namespace FpgaLearning.Debug

open FpgaLearning.Memory FpgaLearning.ArxCore FpgaLearning.Bus MemoryInterconnect

/-! ## Bytes of the RAM -/

/-- the byte of the RAM behind a byte address: 2^15 words, so the upper address bits are dropped -/
def byteIndex (a : Word) : BitVec 17 := a.extractLsb' 0 17

def ramByte (m : RamWords) (j : BitVec 17) : Byte := lane (m (j.extractLsb' 2 15)) (j.extractLsb' 0 2)

/-- the request of the copier as the RAM sees it -/
def ramReqOf (c : DebugMemoryCopier.St) (v : Byte) : MemReq :=
  { DebugMemoryCopier.dataOut c v with addr := masked .ram (DebugMemoryCopier.dataOut c v).addr }

theorem wordOf_byteIndex (a : Word) : (byteIndex a).extractLsb' 2 15 = a.extractLsb' 2 15 := by
  apply BitVec.eq_of_getLsbD_eq
  intro k hk
  simp only [byteIndex, BitVec.getLsbD_extractLsb', hk, decide_true, Bool.true_and]
  simp [show 2 + k < 17 by omega]

theorem laneOf_byteIndex (a : Word) : (byteIndex a).extractLsb' 0 2 = laneIndex a := by
  apply BitVec.eq_of_getLsbD_eq
  intro k hk
  simp only [byteIndex, laneIndex, BitVec.getLsbD_extractLsb', hk, decide_true, Bool.true_and]
  simp [show k < 17 by omega]

theorem byteIndex_ext {j j' : BitVec 17} (hw : j.extractLsb' 2 15 = j'.extractLsb' 2 15)
    (hl : j.extractLsb' 0 2 = j'.extractLsb' 0 2) : j = j' := by
  have e : ∀ x : BitVec 17, x.extractLsb' 2 15 ++ x.extractLsb' 0 2 = x := by
    intro x
    apply BitVec.eq_of_getLsbD_eq
    intro k hk
    simp only [BitVec.getLsbD_append, BitVec.getLsbD_extractLsb']
    by_cases h : k < 2
    · simp [h]
    · simp [h, show k - 2 < 15 by omega, show 2 + (k - 2) = k by omega]
  rw [← e j, ← e j', hw, hl]

theorem getLsbD_wordAddr (a : Word) {k : ℕ} (h2 : 2 ≤ k) (hk : k < 32) :
    (ByteToWordAddrConverter.wordAddr a).getLsbD k = a.getLsbD k := by
  simp only [ByteToWordAddrConverter.wordAddr, BitVec.getLsbD_append, BitVec.getLsbD_extractLsb']
  simp [show ¬ k < 2 by omega, show k - 2 < 30 by omega, show 2 + (k - 2) = k by omega]

/-- neither the word alignment nor the region mask touches the address lines of the RAM -/
theorem wordOf_masked (a : Word) :
    (masked .ram (ByteToWordAddrConverter.wordAddr a)).extractLsb' 2 15 = a.extractLsb' 2 15 := by
  apply BitVec.eq_of_getLsbD_eq
  intro k hk
  have hmask : ∀ j : Fin 15, (~~~Slave.ram.mask).getLsbD (2 + j.val) = true := by decide
  have hk' := hmask ⟨k, hk⟩
  simp only [masked, BitVec.getLsbD_extractLsb', BitVec.getLsbD_and, hk, decide_true, Bool.true_and]
  rw [hk', getLsbD_wordAddr a (by omega) (by omega), Bool.and_true]

theorem region_wordAddr (a : Word) : region (ByteToWordAddrConverter.wordAddr a) = region a := by
  have hand : ∀ sl : Slave, sl.mask &&& ByteToWordAddrConverter.wordAddr a = sl.mask &&& a := by
    intro sl
    apply BitVec.eq_of_getLsbD_eq
    intro k hk
    by_cases h : k < 2
    · have hlow : ∀ j : Fin 2, (sl.mask).getLsbD j.val = false := by cases sl <;> decide
      simp [hlow ⟨k, h⟩]
    · rw [BitVec.getLsbD_and, BitVec.getLsbD_and, getLsbD_wordAddr a (by omega) hk]
  unfold region inRegion
  rw [hand, hand, hand]

/-- **One byte.** A write of the copier changes one byte of the RAM and no other. -/
theorem ramByte_write (rdw : Word → MemReq → Word) (m : RamWords) {c : DebugMemoryCopier.St} (v : Byte)
    (h : c.curState = .write) : ramByte ((topRam rdw).write m (ramReqOf c v)) =
      Function.update (ramByte m) (byteIndex (DebugMemoryCopier.addr c)) v := by
  have hwe : (ramReqOf c v).we = true := by simp [ramReqOf, DebugMemoryCopier.dataOut, h]
  have haddr : (ramReqOf c v).addr.extractLsb' 2 15 = (byteIndex (DebugMemoryCopier.addr c)).extractLsb' 2 15 :=
    (wordOf_masked _).trans (wordOf_byteIndex _).symm
  funext j
  simp only [topRam, hwe, if_true, ramByte, haddr, Function.update_apply]
  by_cases hw : j.extractLsb' 2 15 = (byteIndex (DebugMemoryCopier.addr c)).extractLsb' 2 15
  · rw [if_pos hw, lane_mergeBytes, ← hw]
    have hmask : (ramReqOf c v).mask.getLsbD (j.extractLsb' 0 2).toNat = true ↔
        j.extractLsb' 0 2 = laneIndex (DebugMemoryCopier.addr c) := ByteToWordAddrConverter.mask_iff _ _
    by_cases hl : j.extractLsb' 0 2 = laneIndex (DebugMemoryCopier.addr c)
    · rw [if_pos (hmask.2 hl), if_pos (byteIndex_ext hw (hl.trans (laneOf_byteIndex _).symm)), hl]
      exact ByteToWordAddrConverter.lane_writeDataExtended _ _
    · rw [if_neg fun hm => hl (hmask.1 hm), if_neg fun he => hl ((congrArg _ he).trans (laneOf_byteIndex _))]
  · rw [if_neg hw, if_neg fun he => hw (congrArg _ he)]

/-- and a read returns the byte -/
theorem readData_ram (rdw : Word → MemReq → Word) (m : RamWords) (c : DebugMemoryCopier.St) (v : Byte) :
    ByteToWordAddrConverter.readData (DebugMemoryCopier.addr c) ((topRam rdw).read m (ramReqOf c v).addr) =
      ramByte m (byteIndex (DebugMemoryCopier.addr c)) := by
  rw [ByteToWordAddrConverter.readData_eq]
  show lane (m ((masked .ram (ByteToWordAddrConverter.wordAddr _)).extractLsb' 2 15)) _ = _
  rw [wordOf_masked, ramByte, wordOf_byteIndex, laneOf_byteIndex]

/-! ## One cycle -/

/-- the copier is at a byte -/
def DebugMemoryCopier.transferring (c : DebugMemoryCopier.St) : Bool := c.curState == .read || c.curState == .write

namespace DebugMemoryCopier

/-- the byte counter of a copier that has its address but no byte yet -/
def Rests (c : St) : Prop := c.curState ∈ [State.addr0, .addr1, .addr2, .addr3] → c.dataPtr = 0

variable {c : St}

theorem Rests.next (h : Rests c) (i : In) : Rests (next c i) := by
  intro hs
  have hs' : nextState c i ∈ [State.addr0, .addr1, .addr2, .addr3] := hs
  show (DebugMemoryCopier.next c i).dataPtr = 0
  cases hc : c.curState with
  | idle => simp [DebugMemoryCopier.next, hc]
  | addr0 => simpa [DebugMemoryCopier.next, hc] using h (by simp [hc])
  | addr1 => simpa [DebugMemoryCopier.next, hc] using h (by simp [hc])
  | addr2 => simpa [DebugMemoryCopier.next, hc] using h (by simp [hc])
  | addr3 => simpa [DebugMemoryCopier.next, hc] using h (by simp [hc])
  | len | write | read =>
    simp only [nextState, hc] at hs'
    split_ifs at hs' <;> simp at hs'

/-- what a copier reads from the packet before it presents a byte to be written -/
theorem Rests.addr_of_write (h : Rests c) {i : In} (hw : (DebugMemoryCopier.next c i).curState = .write) :
    inpPacketDataAddr c i = some ((DebugMemoryCopier.next c i).dataPtr + 4) := by
  have hw' : nextState c i = .write := hw
  unfold inpPacketDataAddr
  cases hc : c.curState with
  | addr3 =>
    simp only [nextState, hc] at hw'
    split_ifs at hw' with hwrite hlen
    have hlong : (4#8 < i.inpPacketLen) = True := eq_true hlen
    simp [DebugMemoryCopier.next, hc, h (by simp [hc]), hwrite, hlong]
  | write =>
    simp only [nextState, hc] at hw'
    split_ifs at hw' with hlast
    simp only [DebugMemoryCopier.next, hc]
    by_cases hack : i.dataAck = true
    · rw [if_pos ⟨hack, fun he => hlast ⟨hack, he⟩⟩, if_pos hack]
    · rw [if_neg fun hm => hack hm.1, if_neg hack]
  | idle | addr0 | addr1 | addr2 | len | read =>
    simp only [nextState, hc] at hw'
    try split_ifs at hw'
    all_goals cases hw'

end DebugMemoryCopier

namespace DebugBus

variable {rdw : Word → MemReq → Word} {s : DebugBus} {i : BusIn}

/-- an access of the copier is on the bus -/
def asking (s : DebugBus) : Bool := s.core.mIsHalted && DebugMemoryCopier.transferring s.copier

/-- it goes to the RAM -/
structure AsksRam (s : DebugBus) : Prop where
  halted : s.core.mIsHalted = true
  transferring : DebugMemoryCopier.transferring s.copier = true
  ram : region (DebugMemoryCopier.addr s.copier) = some .ram

theorem dataAck_of_halted (h : s.core.mIsHalted = true) (i : BusIn) :
    s.dataAck i = (i.clkEn && masterAck s.fabric.ic .master1) := by
  simp [dataAck, DebugMemoryBridge.debugAck, Core.debugAck, h, ackPins]

/-- under halt master 1 is the copier -/
theorem master1_of_halted (h : s.core.mIsHalted = true) (i : BusIn) : s.masters i .master1 =
    ⟨DebugMemoryCopier.dataReq s.copier (s.dataAck i), DebugMemoryCopier.dataOut s.copier s.inpPacketData⟩ := by
  simp [masters, Core.ramReq, Core.ramOut, h, reqPins]

/-- and master 2, the fetch unit, is quiet -/
theorem master2_of_halted (h : s.core.mIsHalted = true) (i : BusIn) : (s.masters i .master2).req = false := by
  obtain ⟨hh, hf, -⟩ := s.core.mIsHalted_iff.1 h
  have hwe : s.core.pcWe = false := by simp [Core.pcWe, ExecStage.pcWeOut, ExecStage.validOut, hh]
  have hid : s.core.idReadyIn = false := by simp [Core.idReadyIn, InsnDecodeStage.readyIn, hh]
  show InsnFetch.memReq (InsnFetch.comb s.core.fs (s.reqPins i).romAck s.core.idReadyIn s.core.pcWe) = false
  rw [hwe, hid, InsnFetch.comb, hf]
  rfl

theorem dataReq_of_asksRam (h : AsksRam s) (ack : Bool) : DebugMemoryCopier.dataReq s.copier ack = !ack := by
  have ht := h.transferring
  simp only [DebugMemoryCopier.transferring, Bool.or_eq_true, beq_iff_eq] at ht
  rcases ht with ht | ht <;> simp [DebugMemoryCopier.dataReq, ht]

theorem slaveReq_of_asksRam (h : AsksRam s) (i : BusIn) (sl : Slave) :
    slaveReq sl (s.masters i .master1) = (!s.dataAck i && decide (sl = .ram)) := by
  rw [master1_of_halted h.halted, dataReq_of_asksRam h]
  rw [Bool.eq_iff_iff, slaveReq_iff]
  show _ ∧ region (ByteToWordAddrConverter.wordAddr _) = _ ↔ _
  rw [region_wordAddr, h.ram, Bool.and_eq_true, decide_eq_true_eq, Option.some.injEq, eq_comm (a := Slave.ram)]

/-- the delay flags of master 1 after a cycle without a request -/
structure NoDelay (s : DebugBus) : Prop where
  slaves : ∀ sl, s.fabric.ic.reqDelay .master1 sl = false
  bad : s.fabric.ic.badReqDelay .master1 = false

/-- and after a request to the RAM -/
structure RamDelay (s : DebugBus) : Prop where
  rom : s.fabric.ic.reqDelay .master1 .rom = false
  ram : s.fabric.ic.reqDelay .master1 .ram = true

theorem NoDelay.next (h : (s.masters i .master1).req = false) : NoDelay (s.next rdw i) := by
  refine ⟨fun sl => ?_, ?_⟩
  · show slaveReq sl (s.masters i .master1) = false
    rw [slaveReq, h, Bool.and_false]
  · show badReq (s.masters i .master1) = false
    simp [badReq, h]

theorem RamDelay.next (h : AsksRam s) (hack : s.dataAck i = false) : RamDelay (s.next rdw i) := by
  have hreq : ∀ sl, (s.next rdw i).fabric.ic.reqDelay .master1 sl = decide (sl = Slave.ram) := by
    intro sl
    show slaveReq sl (s.masters i .master1) = _
    rw [slaveReq_of_asksRam h, hack, Bool.not_false, Bool.true_and]
  exact ⟨hreq .rom, hreq .ram⟩

/-- the RAM port holds an acknowledge of master 1 -/
def holdsAck (s : DebugBus) : Bool :=
  s.fabric.ic.ramPort.ack && decide ((s.fabric.ic.arbiter .ram).selectedMaster = .master1)

theorem NoDelay.masterAck (h : NoDelay s) : masterAck s.fabric.ic .master1 = false := by
  simp [MemoryInterconnect.masterAck, h.slaves, h.bad]

theorem RamDelay.masterAck (h : RamDelay s) : masterAck s.fabric.ic .master1 = s.holdsAck := by
  simp only [MemoryInterconnect.masterAck, h.rom, h.ram, RamArbiter2to1.masterAck, holdsAck, portAck]
  by_cases hsel : (s.fabric.ic.arbiter .ram).selectedMaster = .master1 <;> simp [hsel]

/-- a request of the copier to the RAM is granted -/
theorem granted_of_asksRam (h : AsksRam s) (hack : s.dataAck i = false) :
    slaveReq .ram (s.masters i .master1) = true ∧ granted s.fabric.ic (s.masters i) .ram = .master1 := by
  have hreq : slaveReq .ram (s.masters i .master1) = true := by
    rw [slaveReq_of_asksRam h, hack]
    rfl
  have hother : slaveReq .ram (s.masters i .master2) = false := by
    rw [slaveReq, master2_of_halted h.halted, Bool.and_false]
  exact ⟨hreq, RamArbiter2to1.nextMaster_alone (i := fun m => toSlave .ram (s.masters i m)) hreq hother _⟩

theorem ramIn_of_asksRam (h : AsksRam s) (hack : s.dataAck i = false) :
    s.ramIn i = ⟨true, ramReqOf s.copier s.inpPacketData⟩ := by
  obtain ⟨hreq, hgrant⟩ := granted_of_asksRam h hack
  calc s.ramIn i = toSlave .ram (s.masters i .master1) := by rw [ramIn, slaveIn_eq, hgrant]
    _ = ⟨slaveReq .ram (s.masters i .master1), (toSlave .ram (s.masters i .master1)).r⟩ := rfl
    _ = ⟨true, ramReqOf s.copier s.inpPacketData⟩ := by rw [hreq, master1_of_halted h.halted]; rfl

/-- under halt nobody else reaches the RAM -/
theorem ramIn_of_quiet (h : s.core.mIsHalted = true) (hq : slaveReq .ram (s.masters i .master1) = false) :
    (s.ramIn i).req = false := by
  rw [ramIn, slaveIn_eq]
  show slaveReq .ram (s.masters i (granted s.fabric.ic (s.masters i) .ram)) = false
  cases granted s.fabric.ic (s.masters i) .ram
  · exact hq
  · rw [slaveReq, master2_of_halted h, Bool.and_false]

theorem next_quiet (h : (s.ramIn i).req = false) :
    (s.next rdw i).fabric.ram = s.fabric.ram ∧ (s.next rdw i).served = s.served := by
  have hwe : (slaveOut s.fabric.ic (s.masters i) .ram).we = false := by
    show ((s.ramIn i).req && (s.ramIn i).r.we) = false
    rw [h, Bool.false_and]
  constructor
  · show (if i.clkEn then (topRam rdw).write s.fabric.ram (slaveOut s.fabric.ic (s.masters i) .ram) else _) = _
    rw [(topRam rdw).write_read _ _ hwe, ite_self]
  · simp [DebugBus.next, h]

variable (rdw) in
/-- **Pause.** Nothing behind the interconnect moves. -/
theorem next_paused (h : i.clkEn = false) :
    (s.next rdw i).fabric.ram = s.fabric.ram ∧ (s.next rdw i).fabric.ramData = s.fabric.ramData ∧
      (s.next rdw i).served = s.served ∧ (s.next rdw i).holdsAck = s.holdsAck := by
  refine ⟨?_, ?_, ?_, ?_⟩
  · simp [DebugBus.next, Fabric.next, h]
  · simp [DebugBus.next, Fabric.next, h]
  · simp [DebugBus.next, h]
  · simp [holdsAck, DebugBus.next, Fabric.next, MemoryInterconnect.next, RamPort.next, RamArbiter2to1.next, h]

variable (rdw) in
/-- **Service.** An enabled cycle with a request serves it and leaves its acknowledge. -/
theorem next_served (h : AsksRam s) (hack : s.dataAck i = false) (hen : i.clkEn = true) :
    (s.next rdw i).fabric.ram = (topRam rdw).write s.fabric.ram (ramReqOf s.copier s.inpPacketData) ∧
      (s.next rdw i).fabric.ramData = (topRam rdw).answer
        ((topRam rdw).read s.fabric.ram (ramReqOf s.copier s.inpPacketData).addr) (ramReqOf s.copier s.inpPacketData) ∧
      (s.next rdw i).served = s.served ++ [ramReqOf s.copier s.inpPacketData] ∧ (s.next rdw i).holdsAck = true := by
  have hin := ramIn_of_asksRam h hack
  have hout : slaveOut s.fabric.ic (s.masters i) .ram = ramReqOf s.copier s.inpPacketData := by
    show RamPort.out (s.ramIn i) = _
    rw [hin]
    rfl
  refine ⟨?_, ?_, ?_, ?_⟩
  · simp only [DebugBus.next, Fabric.next, hen, if_true, hout]
  · simp only [DebugBus.next, Fabric.next, hen, if_true, hout]
  · simp only [DebugBus.next, hen, hin, Bool.true_and, if_true]
    rfl
  · have hgrant := (granted_of_asksRam h hack).2
    have hack' : (s.next rdw i).fabric.ic.ramPort.ack = true := by
      show (RamPort.next s.fabric.ic.ramPort i.clkEn (s.ramIn i).req).ack = true
      rw [hen, hin]
      rfl
    have hsel : ((s.next rdw i).fabric.ic.arbiter .ram).selectedMaster = .master1 := by
      show (RamArbiter2to1.next _ i.clkEn _ _).selectedMaster = _
      rw [hen]
      exact hgrant
    rw [holdsAck, hack', hsel]
    rfl

/-! ## The copier -/

theorem copier_stays (h : AsksRam s) (hack : s.dataAck i = false) : (s.next rdw i).copier = s.copier := by
  have ht := h.transferring
  simp only [DebugMemoryCopier.transferring, Bool.or_eq_true, beq_iff_eq] at ht
  have hin : (s.copierIn i).dataAck = false := hack
  show DebugMemoryCopier.next s.copier (s.copierIn i) = s.copier
  rcases ht with ht | ht <;> simp [DebugMemoryCopier.next, DebugMemoryCopier.nextState, ht, hin] <;> rw [← ht]

theorem dataPtr_next (h : AsksRam s) (hack : s.dataAck i = true) :
    (s.next rdw i).copier.dataPtr = s.copier.dataPtr + 1 := by
  have ht := h.transferring
  simp only [DebugMemoryCopier.transferring, Bool.or_eq_true, beq_iff_eq] at ht
  have hin : (s.copierIn i).dataAck = true := hack
  show (DebugMemoryCopier.next s.copier (s.copierIn i)).dataPtr = _
  rcases ht with ht | ht <;> simp [DebugMemoryCopier.next, ht, hin]

/-! ## The phases of an access -/

/-- `s` in the cycles from the beginning of an access, in `s0`, to its service -/
structure Waiting (s0 s : DebugBus) : Prop where
  copier : s.copier = s0.copier
  ram : s.fabric.ram = s0.fabric.ram
  served : s.served = s0.served
  holds : s.holdsAck = s0.holdsAck

/-- `s` in the cycles from the service, with byte `v`, to the acknowledge -/
structure Answered (rdw : Word → MemReq → Word) (s0 : DebugBus) (v : Byte) (s : DebugBus) : Prop where
  copier : s.copier = s0.copier
  ram : s.fabric.ram = (topRam rdw).write s0.fabric.ram (ramReqOf s0.copier v)
  ramData : s.fabric.ramData =
    (topRam rdw).answer ((topRam rdw).read s0.fabric.ram (ramReqOf s0.copier v).addr) (ramReqOf s0.copier v)
  served : s.served = s0.served ++ [ramReqOf s0.copier v]
  holds : s.holdsAck = true
  delay : RamDelay s

variable {s0 : DebugBus} {v : Byte}

theorem AsksRam.of_copier (h : AsksRam s0) (hc : s.copier = s0.copier) (hm : s.core.mIsHalted = true) : AsksRam s :=
  ⟨hm, hc ▸ h.transferring, hc ▸ h.ram⟩

theorem dataAck_of_paused (h : i.clkEn = false) : s.dataAck i = false := by
  simp [dataAck, DebugMemoryBridge.debugAck, h]

theorem Waiting.next (h : Waiting s0 s) (h0 : AsksRam s0) (hm : s.core.mIsHalted = true) (hen : i.clkEn = false) :
    Waiting s0 (s.next rdw i) ∧ RamDelay (s.next rdw i) := by
  have hasks := h0.of_copier h.copier hm
  obtain ⟨hram, -, hserved, hholds⟩ := next_paused rdw (s := s) hen
  exact ⟨⟨(copier_stays hasks (dataAck_of_paused hen)).trans h.copier, hram.trans h.ram, hserved.trans h.served,
    hholds.trans h.holds⟩, RamDelay.next hasks (dataAck_of_paused hen)⟩

theorem Waiting.serve (h : Waiting s0 s) (h0 : AsksRam s0) (hm : s.core.mIsHalted = true) (hen : i.clkEn = true)
    (hack : s.dataAck i = false) : Answered rdw s0 s.inpPacketData (s.next rdw i) := by
  have hasks := h0.of_copier h.copier hm
  obtain ⟨hram, hdata, hserved, hholds⟩ := next_served rdw hasks hack hen
  rw [h.copier, h.ram] at hram hdata
  rw [h.copier, h.served] at hserved
  exact ⟨(copier_stays hasks hack).trans h.copier, hram, hdata, hserved, hholds, RamDelay.next hasks hack⟩

theorem Answered.next (h : Answered rdw s0 v s) (h0 : AsksRam s0) (hm : s.core.mIsHalted = true)
    (hen : i.clkEn = false) : Answered rdw s0 v (s.next rdw i) := by
  have hasks := h0.of_copier h.copier hm
  obtain ⟨hram, hdata, hserved, hholds⟩ := next_paused rdw (s := s) hen
  exact ⟨(copier_stays hasks (dataAck_of_paused hen)).trans h.copier, hram.trans h.ram, hdata.trans h.ramData,
    hserved.trans h.served, hholds.trans h.holds, RamDelay.next hasks (dataAck_of_paused hen)⟩

/-- an answered access is acknowledged in the next enabled cycle -/
theorem Answered.ack (h : Answered rdw s0 v s) (hm : s.core.mIsHalted = true) (i : BusIn) : s.dataAck i = i.clkEn := by
  rw [dataAck_of_halted hm, h.delay.masterAck, h.holds, Bool.and_true]

/-- with the word that the RAM has kept on its output -/
theorem Answered.dataData (h : Answered rdw s0 v s) (hm : s.core.mIsHalted = true) (i : BusIn) :
    (s.copierIn i).dataData = s.fabric.ramData := by
  have hsel : (s.fabric.ic.arbiter .ram).selectedMaster = .master1 := by
    have hholds := h.holds
    simp only [holdsAck, Bool.and_eq_true, decide_eq_true_eq] at hholds
    exact hholds.2
  calc (s.copierIn i).dataData = masterData s.fabric.ic (s.fabric.slaveData i.periphData) .master1 := by
        simp [copierIn, Core.debugData, hm, pins, masterVal]
    _ = s.fabric.ramData := by
        simp [masterData, h.delay.rom, h.delay.ram, RamArbiter2to1.masterData, hsel, Fabric.slaveData]

/-- the acknowledge ends the access: nothing is requested in its cycle -/
theorem Answered.finish (h : Answered rdw s0 v s) (h0 : AsksRam s0) (hm : s.core.mIsHalted = true)
    (hack : s.dataAck i = true) : (s.next rdw i).copier.dataPtr = s0.copier.dataPtr + 1 ∧
      (s.next rdw i).fabric.ram = s.fabric.ram ∧ (s.next rdw i).served = s.served := by
  have hasks := h0.of_copier h.copier hm
  have hquiet : (s.ramIn i).req = false := ramIn_of_quiet hm (by rw [slaveReq_of_asksRam hasks, hack]; rfl)
  exact ⟨(dataPtr_next hasks hack).trans (by rw [h.copier]), next_quiet hquiet⟩

/-! ## Runs -/

section
variable (rdw : Word → MemReq → Word) (b : DebugBus) (inp : ℕ → BusIn)

/-- in cycle `t` the copier puts a new access to a byte of the RAM on the bus -/
structure Begins (t : ℕ) : Prop where
  asks : AsksRam (after rdw b inp t)
  new : ∀ n, t = n + 1 → (after rdw b inp n).asking = false ∨ (after rdw b inp n).dataAck (inp n) = true

/-- the core is halted in all cycles from `t` to `v` -/
def HaltedFrom (t v : ℕ) : Prop := ∀ n, t ≤ n → n ≤ v → (after rdw b inp n).core.mIsHalted = true

/-- cycle `v` of an access begun in cycle `t`: nothing has been done yet -/
structure Waits (t v : ℕ) : Prop where
  copier : (after rdw b inp v).copier = (after rdw b inp t).copier
  ram : (after rdw b inp v).fabric.ram = (after rdw b inp t).fabric.ram
  served : (after rdw b inp v).served = (after rdw b inp t).served
  not_acked : (after rdw b inp v).dataAck (inp v) = false

/-- cycle `v` of an access begun in cycle `t` and performed in cycle `k` -/
structure Performed (t k v : ℕ) : Prop where
  copier : (after rdw b inp v).copier = (after rdw b inp t).copier
  /-- the RAM has served one request -/
  served : (after rdw b inp v).served = (after rdw b inp t).served ++
    [ramReqOf (after rdw b inp t).copier (after rdw b inp k).inpPacketData]
  /-- a read leaves the RAM as it was -/
  read : (after rdw b inp t).copier.curState = .read →
    (after rdw b inp v).fabric.ram = (after rdw b inp t).fabric.ram
  /-- a write has stored the next byte of the packet and changed no other -/
  write : (after rdw b inp t).copier.curState = .write → ∃ n, k = n + 1 ∧
    ramByte (after rdw b inp v).fabric.ram = Function.update (ramByte (after rdw b inp t).fabric.ram)
      (byteIndex (DebugMemoryCopier.addr (after rdw b inp t).copier))
      ((inp n).packet ((after rdw b inp t).copier.dataPtr + 4))
  /-- the copier is acknowledged in the next enabled cycle -/
  acked : (after rdw b inp v).dataAck (inp v) = (inp v).clkEn
  /-- with the byte of the RAM -/
  returned : (after rdw b inp t).copier.curState = .read → (inp v).clkEn = true →
    DebugMemoryCopier.outPacket (after rdw b inp v).copier ((after rdw b inp v).copierIn (inp v)) =
      some ((after rdw b inp t).copier.dataPtr, ramByte (after rdw b inp t).fabric.ram
        (byteIndex (DebugMemoryCopier.addr (after rdw b inp t).copier)))
  /-- and goes on to the next byte, while the RAM rests -/
  advances : (inp v).clkEn = true → (after rdw b inp (v + 1)).copier.dataPtr = (after rdw b inp t).copier.dataPtr + 1 ∧
    (after rdw b inp (v + 1)).fabric.ram = (after rdw b inp v).fabric.ram ∧
    (after rdw b inp (v + 1)).served = (after rdw b inp v).served

/-- the access begun in cycle `t` is performed in its first enabled cycle and acknowledged in its second, as long as the
core stays halted -/
structure Survives (t : ℕ) : Prop where
  waits : ∀ v, t ≤ v → HaltedFrom rdw b inp t v → (∀ n, t ≤ n → n < v → (inp n).clkEn = false) → Waits rdw b inp t v
  performed : ∀ k v, t ≤ k → k < v → HaltedFrom rdw b inp t v → (inp k).clkEn = true →
    (∀ n, t ≤ n → n < v → n ≠ k → (inp n).clkEn = false) → Performed rdw b inp t k v

/-- every access of the copier to the RAM survives, and under halt nothing else reaches the RAM -/
structure AllSurvive : Prop where
  accesses : ∀ t, Begins rdw b inp t → Survives rdw b inp t
  others : ∀ n, (after rdw b inp n).core.mIsHalted = true → ¬ AsksRam (after rdw b inp n) →
    (after rdw b inp (n + 1)).fabric.ram = (after rdw b inp n).fabric.ram ∧
      (after rdw b inp (n + 1)).served = (after rdw b inp n).served

/-- no acknowledge is frozen in cycle `t` that master 1 could take for its own -/
def Fresh (t : ℕ) : Prop := (inp t).clkEn = true ∨ (after rdw b inp t).holdsAck = false

/-- the clock enable is not seen again before the core resumes -/
def NeverEnabled (t : ℕ) : Prop := ∀ v, t ≤ v → HaltedFrom rdw b inp t v → (inp v).clkEn = false

end

variable {b : DebugBus} {inp : ℕ → BusIn} {t : ℕ}

theorem after_succ (n : ℕ) : after rdw b inp (n + 1) = (after rdw b inp n).next rdw (inp n) := rfl

/-! ### The core -/

theorem run_live (n : ℕ) : (after rdw b inp n).core.Live := by
  induction n with
  | zero => exact Core.Live.reset _
  | succ n ih =>
    rw [after_succ]
    show Core.Live (if (inp n).coreReset then _ else _)
    split_ifs
    · exact Core.Live.reset _
    · exact ih.next _

/-- a core that is halted in the next cycle only does not request in this one -/
theorem ramReq_of_halts (hlive : s.core.Live) (hno : s.core.mIsHalted = false)
    (hnext : (s.next rdw i).core.mIsHalted = true) : (s.masters i .master1).req = false := by
  have hcore : (s.next rdw i).core = s.core.next (s.pins i) := by
    show (if i.coreReset then _ else _) = _
    split_ifs with hreset
    · -- a core out of reset is not halted
      have hr : (s.next rdw i).core.haltReqIn = false := by
        show (if i.coreReset then _ else _ : Core).haltReqIn = false
        rw [if_pos hreset]
        rfl
      have := ((s.next rdw i).core.mIsHalted_iff.1 hnext).1
      rw [hr] at this
      cases this
    · rfl
  rw [hcore] at hnext
  have hquiet := ((s.core.next (s.pins i)).mIsHalted_iff.1 hnext).2.2
  show s.core.ramReq (s.reqPins i) = false
  by_contra hreq
  have hask : s.core.mem.memRequest = true ∧ s.core.memAckIn (s.reqPins i) = false := by
    simpa [Core.ramReq, hno, MemStage.memReqOut] using hreq
  have hpending : s.core.mem.validInInternal = true ∧ s.core.mem.memDataValid = false := by
    have hc := hlive.mem
    unfold MemStage.Consistent at hc
    rw [hask.1] at hc
    simpa using hc.symm
  have hstays := MemStage.next_pending hask.1 hpending.1 hpending.2 s.core.haltReqIn
    (ExecStage.validOut s.core.ex s.core.haltReqIn) WriteBackStage.readyIn (s.core.memAckIn (s.pins i))
    (ExecStage.out s.core.ex) (s.core.memDataIn (s.pins i))
  have hin : s.core.memAckIn (s.pins i) = false := hask.2
  rcases hquiet with hq | hq
  · exact Bool.false_ne_true ((hstays.2.2.trans hin).symm.trans hq)
  · exact Bool.false_ne_true (hq.symm.trans hstays.2.1)

/-- the cycle before an access has no request of master 1 -/
theorem Begins.noDelay (h : Begins rdw b inp t) : NoDelay (after rdw b inp t) := by
  cases t with
  | zero => exact ⟨fun _ => rfl, rfl⟩
  | succ n =>
    refine NoDelay.next ?_
    have hnext := h.asks.halted
    cases hm : (after rdw b inp n).core.mIsHalted with
    | false => exact ramReq_of_halts (run_live n) hm hnext
    | true =>
      rw [master1_of_halted hm]
      rcases h.new n rfl with hno | hack
      · have ht : DebugMemoryCopier.transferring (after rdw b inp n).copier = false := by
          simpa [asking, hm] using hno
        cases hs : (after rdw b inp n).copier.curState <;>
          simp_all [DebugMemoryCopier.transferring, DebugMemoryCopier.dataReq]
      · rw [hack]
        cases hs : (after rdw b inp n).copier.curState <;> simp [DebugMemoryCopier.dataReq, hs]

/-! ### The packet -/

/-- a writing copier sees the packet byte of its counter -/
structure Presents (packet : Byte → Byte) (s : DebugBus) : Prop where
  rests : DebugMemoryCopier.Rests s.copier
  byte : s.copier.curState = .write → s.inpPacketData = packet (s.copier.dataPtr + 4)

theorem Presents.next {packet : Byte → Byte} (h : Presents packet s) : Presents i.packet (s.next rdw i) := by
  refine ⟨h.rests.next _, fun hw => ?_⟩
  simp only [DebugBus.next, h.rests.addr_of_write hw]

theorem run_presents (n : ℕ) : Presents (inp n).packet (after rdw b inp (n + 1)) := by
  induction n with
  | zero =>
    have h0 : Presents (inp 0).packet (after rdw b inp 0) :=
      ⟨fun hs => absurd hs (by simp [reset, DebugMemoryCopier.reset]), fun hs => nomatch hs⟩
    exact h0.next
  | succ n ih => exact ih.next

/-! ### An access -/

/-- up to the first enabled cycle the access waits -/
theorem Begins.waiting (h : Begins rdw b inp t) {v : ℕ} (htv : t ≤ v) (hhalt : HaltedFrom rdw b inp t v)
    (hpaused : ∀ n, t ≤ n → n < v → (inp n).clkEn = false) :
    Waiting (after rdw b inp t) (after rdw b inp v) ∧ (t < v → RamDelay (after rdw b inp v)) := by
  induction v, htv using Nat.le_induction with
  | base => exact ⟨⟨rfl, rfl, rfl, rfl⟩, fun hlt => absurd hlt (lt_irrefl t)⟩
  | succ v htv ih =>
    obtain ⟨hw, -⟩ := ih (fun n hn hnv => hhalt n hn (by omega)) (fun n hn hnv => hpaused n hn (by omega))
    obtain ⟨hnext, hdelay⟩ := hw.next h.asks (hhalt v htv (by omega)) (hpaused v htv (by omega))
    exact ⟨hnext, fun _ => hdelay⟩

/-- in an enabled cycle it takes the acknowledge that it finds in the port -/
theorem Begins.dataAck_waiting (h : Begins rdw b inp t) {v : ℕ} (htv : t ≤ v) (hhalt : HaltedFrom rdw b inp t v)
    (hpaused : ∀ n, t ≤ n → n < v → (inp n).clkEn = false) : (after rdw b inp v).dataAck (inp v) =
      ((inp v).clkEn && (decide (t < v) && (after rdw b inp t).holdsAck)) := by
  obtain ⟨hw, hdelay⟩ := h.waiting htv hhalt hpaused
  rw [dataAck_of_halted (hhalt v htv le_rfl)]
  rcases Nat.eq_or_lt_of_le htv with rfl | hlt
  · rw [h.noDelay.masterAck, decide_eq_false (lt_irrefl t), Bool.false_and]
  · rw [(hdelay hlt).masterAck, hw.holds, decide_eq_true hlt, Bool.true_and]

theorem Begins.not_acked (h : Begins rdw b inp t) (hfresh : Fresh rdw b inp t) {v : ℕ} (htv : t ≤ v)
    (hhalt : HaltedFrom rdw b inp t v) (hpaused : ∀ n, t ≤ n → n < v → (inp n).clkEn = false) :
    (after rdw b inp v).dataAck (inp v) = false := by
  rw [h.dataAck_waiting htv hhalt hpaused]
  rcases Nat.eq_or_lt_of_le htv with rfl | hlt
  · simp
  · rcases hfresh with hen | hno
    · rw [hpaused t le_rfl hlt] at hen
      cases hen
    · simp [hno]

/-- from the service on it is answered -/
theorem Begins.answered (h : Begins rdw b inp t) {k v : ℕ} (htk : t ≤ k) (hkv : k + 1 ≤ v)
    (hhalt : HaltedFrom rdw b inp t v) (hen : (inp k).clkEn = true) (hack : (after rdw b inp k).dataAck (inp k) = false)
    (hpaused : ∀ n, t ≤ n → n < v → n ≠ k → (inp n).clkEn = false) :
    Answered rdw (after rdw b inp t) (after rdw b inp k).inpPacketData (after rdw b inp v) := by
  induction v, hkv using Nat.le_induction with
  | base =>
    obtain ⟨hw, -⟩ := h.waiting htk (fun n hn hnk => hhalt n hn (by omega))
      (fun n hn hnk => hpaused n hn (by omega) (by omega))
    exact hw.serve h.asks (hhalt k htk (by omega)) hen hack
  | succ v hkv ih =>
    have ha := ih (fun n hn hnv => hhalt n hn (by omega)) (fun n hn hnv => hpaused n hn (by omega))
    exact ha.next h.asks (hhalt v (by omega) (by omega)) (hpaused v (by omega) (by omega) (by omega))

/-- a read leaves the RAM as it was -/
theorem write_of_read {c : DebugMemoryCopier.St} (h : c.curState = .read) (v : Byte) :
    (ramReqOf c v).we = false := by
  simp [ramReqOf, DebugMemoryCopier.dataOut, h]

theorem Begins.performed (h : Begins rdw b inp t) {k v : ℕ} (htk : t ≤ k) (hkv : k < v)
    (hhalt : HaltedFrom rdw b inp t v) (hen : (inp k).clkEn = true) (hack : (after rdw b inp k).dataAck (inp k) = false)
    (hpaused : ∀ n, t ≤ n → n < v → n ≠ k → (inp n).clkEn = false) : Performed rdw b inp t k v := by
  have ha := h.answered htk hkv hhalt hen hack hpaused
  have hm := hhalt v (by omega) le_rfl
  have hack' := ha.ack hm (inp v)
  refine ⟨ha.copier, ha.served, fun hr => ?_, fun hw => ?_, hack', fun hr henv => ?_, fun henv => ?_⟩
  · rw [ha.ram, (topRam rdw).write_read _ _ (write_of_read hr _)]
  · -- the copier does not begin in cycle 0, so the packet byte was read in the cycle before
    obtain ⟨n, rfl⟩ : ∃ n, k = n + 1 := by
      refine Nat.exists_eq_succ_of_ne_zero fun h0 => ?_
      have hhalt0 := hhalt k htk (by omega)
      rw [h0] at hhalt0
      have hreset : (after rdw b inp 0).core.mIsHalted = false := rfl
      rw [hreset] at hhalt0
      cases hhalt0
    obtain ⟨hwait, -⟩ := h.waiting htk (fun n hn hnk => hhalt n hn (by omega))
      (fun n hn hnk => hpaused n hn (by omega) (by omega))
    have hbyte := (run_presents (b := b) n).byte (hwait.copier ▸ hw)
    rw [hwait.copier] at hbyte
    exact ⟨n, rfl, by rw [ha.ram, ramByte_write rdw _ _ hw, hbyte]⟩
  · have hdata : ((after rdw b inp v).copierIn (inp v)).dataData =
        (topRam rdw).read (after rdw b inp t).fabric.ram
          (ramReqOf (after rdw b inp t).copier (after rdw b inp k).inpPacketData).addr := by
      rw [ha.dataData hm, ha.ramData, (topRam rdw).answer_read _ _ (write_of_read hr _)]
    have hin : ((after rdw b inp v).copierIn (inp v)).dataAck = true := hack'.trans henv
    rw [ha.copier, DebugMemoryCopier.outPacket]
    simp only [hr, hin, if_true, hdata]
    rw [readData_ram]
  · exact ha.finish h.asks hm (hack'.trans henv)

/-- an access that begins fresh is performed once -/
theorem Begins.survives (h : Begins rdw b inp t) (hfresh : Fresh rdw b inp t) : Survives rdw b inp t := by
  constructor
  · intro v htv hhalt hpaused
    obtain ⟨hw, -⟩ := h.waiting htv hhalt hpaused
    exact ⟨hw.copier, hw.ram, hw.served, h.not_acked hfresh htv hhalt hpaused⟩
  · intro k v htk hkv hhalt hen hpaused
    refine h.performed htk hkv hhalt hen ?_ hpaused
    exact h.not_acked hfresh htk (fun n hn hnk => hhalt n hn (by omega))
      (fun n hn hnk => hpaused n hn (by omega) (by omega))

/-- and so is, in vain, one that waits for ever -/
theorem Begins.survives_of_never (h : Begins rdw b inp t) (hnever : NeverEnabled rdw b inp t) :
    Survives rdw b inp t := by
  constructor
  · intro v htv hhalt hpaused
    obtain ⟨hw, -⟩ := h.waiting htv hhalt hpaused
    exact ⟨hw.copier, hw.ram, hw.served, dataAck_of_paused (hnever v htv hhalt)⟩
  · intro k v htk hkv hhalt hen hpaused
    rw [hnever k htk fun n hn hnk => hhalt n hn (by omega)] at hen
    cases hen

/-- an access that begins in a pause, with the last acknowledge of the core frozen, takes that one for its own -/
theorem Begins.fresh_or_never (h : Begins rdw b inp t) (hs : Survives rdw b inp t) :
    Fresh rdw b inp t ∨ NeverEnabled rdw b inp t := by
  by_cases hfresh : Fresh rdw b inp t
  · exact .inl hfresh
  · right
    obtain ⟨hpause, hheld⟩ : (inp t).clkEn = false ∧ (after rdw b inp t).holdsAck = true := by
      simpa [Fresh] using hfresh
    intro v htv
    -- the first enabled cycle would have an acknowledge that answers nothing
    induction v using Nat.strong_induction_on with
    | _ v ih =>
      intro hhalt
      have hpaused : ∀ n, t ≤ n → n < v → (inp n).clkEn = false := fun n hn hnv =>
        ih n hnv hn fun j hj hjn => hhalt j hj (by omega)
      rcases Nat.eq_or_lt_of_le htv with rfl | hlt
      · exact hpause
      · have hack := (hs.waits v htv hhalt hpaused).not_acked
        rw [h.dataAck_waiting htv hhalt hpaused, hheld, decide_eq_true hlt] at hack
        simpa using hack

/-- **Debug accesses and pauses.** For every run from reset, whatever the clock enable does. -/
theorem debug_accesses_survive_iff (rdw : Word → MemReq → Word) (b : DebugBus) (inp : ℕ → BusIn) :
    AllSurvive rdw b inp ↔ ∀ t, Begins rdw b inp t → Fresh rdw b inp t ∨ NeverEnabled rdw b inp t := by
  constructor
  · exact fun hall t hb => hb.fresh_or_never (hall.accesses t hb)
  · intro hcond
    refine ⟨fun t hb => (hcond t hb).elim hb.survives hb.survives_of_never, fun n hm hno => ?_⟩
    refine next_quiet (ramIn_of_quiet hm ?_)
    by_contra hreq
    rw [Bool.not_eq_false, master1_of_halted hm, slaveReq_iff] at hreq
    have hreg : region (ByteToWordAddrConverter.wordAddr _) = some .ram := hreq.2
    rw [region_wordAddr] at hreg
    refine hno ⟨hm, ?_, hreg⟩
    have hask := hreq.1
    cases hs : (after rdw b inp n).copier.curState <;>
      simp_all [DebugMemoryCopier.dataReq, DebugMemoryCopier.transferring]

/-! ### A stolen acknowledge -/

/-- `lui x1, 0x20000`, `lw x2, 0(x1)`, then only `nop` -/
def loadProgram (addr : Word) : Word := if addr = 0 then 0x200000B7 else if addr = 4 then 0x0000A103 else 0x00000013

/-- address 0x20000004, one byte -/
def readPacket (a : Byte) : Byte := if a = 0 then 0x20 else if a = 3 then 0x04 else if a = 4 then 0x01 else 0x00

/-- the RAM holds 0xAB in the byte read -/
def demoBus : DebugBus where
  core := demoCore
  copier := ⟨.idle, fun _ => 0, 0, 0⟩
  inpPacketData := 0
  fabric := Fabric.init (fun a => if a = 1 then 0xAB else 0) 0 0
  served := []

/-- the load is served in cycle 9 and the clock enable is low from cycle 10 to 17; the core is asked to halt in cycle 8
and the copier to read in cycle 11 -/
def demoPauses (n : ℕ) : BusIn where
  clkEn := !decide (10 ≤ n ∧ n < 18)
  haltReq := n == 8
  resumeReq := false
  coreReset := false
  copyReq := n == 11
  copyWrite := false
  inpPacketLen := 5
  packet := readPacket
  rom := loadProgram
  periphData := 0

/-- **A pause can swallow an access**: the copier is acknowledged in the first enabled cycle, with the word of the load. -/
theorem access_lost : ¬ ∀ (rdw : Word → MemReq → Word) (b : DebugBus) (inp : ℕ → BusIn), AllSurvive rdw b inp := by
  intro hall
  obtain ⟨hidle, hm17, htrans, hram, hm18, hack⟩ :
      (after (fun held _ => held) demoBus demoPauses 16).asking = false ∧
        (after (fun held _ => held) demoBus demoPauses 17).core.mIsHalted = true ∧
        DebugMemoryCopier.transferring (after (fun held _ => held) demoBus demoPauses 17).copier = true ∧
        region (DebugMemoryCopier.addr (after (fun held _ => held) demoBus demoPauses 17).copier) = some .ram ∧
        (after (fun held _ => held) demoBus demoPauses 18).core.mIsHalted = true ∧
        (after (fun held _ => held) demoBus demoPauses 18).dataAck (demoPauses 18) = true := by
    decide +kernel
  have hbegins : Begins (fun held _ => held) demoBus demoPauses 17 := by
    refine ⟨⟨hm17, htrans, hram⟩, fun n hn => ?_⟩
    obtain rfl : n = 16 := by omega
    exact .inl hidle
  have hhalt : HaltedFrom (fun held _ => held) demoBus demoPauses 17 18 := by
    intro n hn hn'
    rcases (by omega : n = 17 ∨ n = 18) with rfl | rfl
    · exact hm17
    · exact hm18
  have hwaits := ((hall _ _ _).accesses 17 hbegins).waits 18 (by decide) hhalt fun n hn hn' => by
    obtain rfl : n = 17 := by omega
    rfl
  rw [hwaits.not_acked] at hack
  cases hack

end DebugBus

end FpgaLearning.Debug
