/-
A memory command, step by step.

`Copying.next`: while a read or a write is executed, each cycle takes its copier one step further, and with the last step
the port has done what the request asks for (`Copied`). What the memory does in between depends on when it serves the
requests; that it serves each of them once is the handshake of the port.
-/
import FpgaLearning.Debug.Invariant

namespace FpgaLearning.Debug

open FpgaLearning.Memory DebugModule

/-! ## Addresses and stores -/

namespace Packet

variable {p : Packet}

theorem addr_lanes {f : BitVec 2 → Byte} (h3 : f 3 = p.byte 0) (h2 : f 2 = p.byte 1) (h1 : f 1 = p.byte 2)
    (h0 : f 0 = p.byte 3) : joinLanes f = p.addr := by
  rw [joinLanes, h3, h2, h1, h0, addr]

theorem addr_copier {c : DebugMemoryCopier.St} {k : ℕ} (hk : k < 256) (ha : joinLanes c.startAddr = p.addr)
    (hptr : c.dataPtr = BitVec.ofNat 8 k) : DebugMemoryCopier.addr c = p.addrOf k := by
  rw [DebugMemoryCopier.addr, ha, hptr, addrOf]
  congr 1
  apply BitVec.eq_of_toNat_eq
  simp only [BitVec.toNat_setWidth, BitVec.toNat_ofNat]
  omega

theorem addrOf_ne {i j : ℕ} (hi : i < 256) (hj : j < 256) (h : i ≠ j) : p.addrOf i ≠ p.addrOf j := by
  intro he
  have hadd : BitVec.ofNat 32 i = BitVec.ofNat 32 j := (BitVec.add_right_inj _).1 he
  have hnat := congrArg BitVec.toNat hadd
  simp only [BitVec.toNat_ofNat] at hnat
  omega

theorem Stored.zero (m : WordMem) : p.Stored m m 0 := ⟨fun _ h => absurd h (Nat.not_lt_zero _), fun _ _ => rfl⟩

/-- one more byte is written -/
theorem Stored.push {m₀ m m' : WordMem} {k : ℕ} (h : p.Stored m₀ m k) (hk : k < 255)
    (hm : ∀ x, byteAt m' x = if x = p.addrOf k then p.dataByte k else byteAt m x) : p.Stored m₀ m' (k + 1) := by
  constructor
  · intro i hi
    by_cases hik : i = k
    · rw [hm, hik, if_pos rfl]
    · rw [hm, if_neg (addrOf_ne (by omega) (by omega) hik)]
      exact h.written i (by omega)
  · intro x hx
    rw [hm, if_neg (hx k (by omega))]
    exact h.kept x fun i hi => hx i (by omega)

end Packet

namespace System

variable {s : System} {e : Cycle} {T : ℕ} {p : Packet} {t : Target}

/-- what the command of `p` leaves behind on port `t`; the reply is in the buffer -/
structure Copied (s : System) (p : Packet) (t : Target) : Prop where
  read : p.Reads t → (s.port t).dev = s.trace.before t ∧ (∀ a ∈ s.trace.accesses t, IsLoad a) ∧
    if p.count = 0#8 then s.dm.buffer.lenReg = s.trace.readLen t
    else s.dm.buffer.lenReg = p.count ∧ ∀ i < p.count.toNat,
      s.dm.buffer.payloadDataBuf (BitVec.ofNat 8 i) = byteAt (s.trace.before t) (p.addrOf i)
  write : p.Writes t → p.Stored (s.trace.before t) (s.port t).dev (p.payload.length - 4) ∧
    s.trace.accesses t = (List.range (p.payload.length - 4)).map p.storeOf
  quiet : ¬ p.Reads t → ¬ p.Writes t → (s.port t).dev = s.trace.before t ∧ s.trace.accesses t = []
  readLen : (s.dm.copier t).readLen = if p.Reads t then p.count else s.trace.readLen t

theorem Untouched.copied (h : Untouched s t) (hr : ¬ p.Reads t) (hw : ¬ p.Writes t) : Copied s p t :=
  ⟨fun h' => absurd h' hr, fun h' => absurd h' hw, fun _ _ => ⟨h.dev, h.accesses⟩, by rw [if_neg hr, h.readLen]⟩

/-! ## The wires of a command -/

/-- the copier of the other port, without a command of its own -/
def OtherIdle (s : System) (t : Target) : Prop :=
  ∀ t', t' ≠ t → (s.dm.copier t').curState = .idle ∧ s.dm.curState ≠ .read t' ∧ s.dm.curState ≠ .write t'

theorem inpPacketDataAddr_eq (h : OtherIdle s t) (i : DebugModule.In) :
    DebugModule.inpPacketDataAddr s.dm i =
      DebugMemoryCopier.inpPacketDataAddr (s.dm.copier t) (DebugModule.copierIn s.dm i t) :=
  inpPacketDataAddr_of_othersIdle h i

theorem outPayload_eq (h : OtherIdle s t) (hs : s.dm.curState ≠ .state) (i : DebugModule.In) :
    DebugModule.outPayload s.dm i = DebugMemoryCopier.outPacket (s.dm.copier t) (DebugModule.copierIn s.dm i t) :=
  outPayload_of_othersIdle h hs i

/-- the payload byte that the copier reads is there in the next cycle -/
theorem resData_next (h : OtherIdle s t) (hb : Busy s p) {j : ℕ} (hj : j < p.payload.length)
    (haddr : DebugMemoryCopier.inpPacketDataAddr (s.dm.copier t) (DebugModule.copierIn s.dm (s.pins e) t) =
      some (BitVec.ofNat 8 j)) : (s.next e T).dm.parser.resData = p.byte j := by
  have hmux : (DebugModule.parserIn s.dm (s.pins e)).resDataAddr = some (BitVec.ofNat 8 j) := by
    rw [← haddr, ← inpPacketDataAddr_eq h]; rfl
  show (PacketParser.next s.dm.parser (DebugModule.parserIn s.dm (s.pins e))).resData = _
  simp only [PacketParser.next, hmux]
  exact hb.holds.buf j hj

theorem payloadDataBuf_next (h : OtherIdle s t) (hs : s.dm.curState ≠ .state) :
    (DebugMemoryCopier.outPacket (s.dm.copier t) (DebugModule.copierIn s.dm (s.pins e) t) = none →
        (s.next e T).dm.buffer.payloadDataBuf = s.dm.buffer.payloadDataBuf) ∧
      ∀ a v, DebugMemoryCopier.outPacket (s.dm.copier t) (DebugModule.copierIn s.dm (s.pins e) t) = some (a, v) →
        (s.next e T).dm.buffer.payloadDataBuf = Function.update s.dm.buffer.payloadDataBuf a v := by
  have hmux : (DebugModule.bufferIn s.dm (s.pins e)).payload = _ := outPayload_eq h hs (s.pins e)
  have hnext : (s.next e T).dm.buffer = PacketBuffer.next s.dm.buffer (DebugModule.bufferIn s.dm (s.pins e)) := rfl
  rw [hnext]
  constructor
  · intro ho
    simp only [PacketBuffer.next, hmux, ho]
  · intro a v ho
    simp only [PacketBuffer.next, hmux, ho]

/-! ## The port in one cycle -/

theorem trace_next (hfin : s.finishes e = false) : (s.next e T).trace = s.traceNext e (s.dmNext e T) := by
  simp [System.next, hfin]

/-- a request that is not served leaves the port as it is; a served one is seen in the next cycle -/
theorem port_next_of_req (hfin : s.finishes e = false) (hreq : s.req e t = true) :
    if e.grant t then
      ((s.next e T).port t).dev = (wordDevice.serve (s.port t).dev (DebugModule.out s.dm t)).1 ∧
      ((s.next e T).port t).ack = true ∧
      ((DebugModule.out s.dm t).we = false →
        ((s.next e T).port t).data = (wordDevice.serve (s.port t).dev (DebugModule.out s.dm t)).2) ∧
      (s.next e T).trace.accesses t = s.trace.accesses t ++
        [(DebugModule.out s.dm t).access (wordDevice.serve (s.port t).dev (DebugModule.out s.dm t)).2]
    else
      ((s.next e T).port t).dev = (s.port t).dev ∧ ((s.next e T).port t).ack = false ∧
      (s.next e T).trace.accesses t = s.trace.accesses t := by
  rw [trace_next hfin]
  split_ifs with hg
  · refine ⟨?_, ?_, fun hwe => ?_, ?_⟩
    · simp [System.next, portNext, Port.next, hreq, hg]
    · simp [System.next, portNext, Port.next, hreq, hg]
    · simp [System.next, portNext, Port.next, hreq, hg, hwe]
    · simp [traceNext, Port.served, hreq, hg]
  · refine ⟨?_, ?_, ?_⟩
    · simp [System.next, portNext, Port.next, hreq, hg]
    · simp [System.next, portNext, Port.next, hreq, hg]
    · simp [traceNext, Port.served, hreq, hg]

/-! ## One cycle of a command -/

/-- the command of `p` is executed on port `t` -/
structure Commanded (s : System) (p : Packet) (t : Target) : Prop where
  busy : Busy s p
  buffer : s.dm.buffer.curState = .idle
  other : OtherIdle s t
  command : p.Reads t ∧ s.dm.curState = .read t ∨ p.Writes t ∧ s.dm.curState = .write t

theorem Commanded.ne_state (h : Commanded s p t) : s.dm.curState ≠ .state := by
  rcases h.command with ⟨-, h⟩ | ⟨-, h⟩ <;> simp [h]

theorem not_writes_of_reads (h : p.Reads t) : ¬ p.Writes t := by
  intro hw
  have := h.1.symm.trans hw.1
  revert this
  cases t <;> decide

/-- what the copier sees of the command -/
theorem Commanded.copierIn (h : Commanded s p t) (e : Cycle) :
    DebugModule.copierIn s.dm (s.pins e) t = ⟨true, decide (p.Writes t), p.len, s.dm.parser.resData, (s.port t).data,
      (s.port t).ack⟩ := by
  rcases h.command with ⟨hr, hs⟩ | ⟨hw, hs⟩
  · simp [DebugModule.copierIn, hs, h.busy.holds.len, pins, not_writes_of_reads hr]
  · simp [DebugModule.copierIn, hs, h.busy.holds.len, pins, hw]

theorem Commanded.four_le (h : Commanded s p t) : 4 ≤ p.payload.length := by
  rcases h.command with ⟨hr, -⟩ | ⟨hw, -⟩
  · exact le_trans (by decide) hr.2
  · exact hw.2

/-- the state of the copier after the cycle -/
theorem copier_next (h : Commanded s p t) (e : Cycle) : (s.next e T).dm.copier t = DebugMemoryCopier.next (s.dm.copier t)
    ⟨true, decide (p.Writes t), p.len, s.dm.parser.resData, (s.port t).data, (s.port t).ack⟩ := by
  rw [← h.copierIn e]; rfl

theorem req_eq (s : System) (e : Cycle) (t : Target) :
    s.req e t = DebugMemoryCopier.dataReq (s.dm.copier t) (s.port t).ack := rfl

/-- the address bytes are fetched one after the other -/
theorem Commanded.next_addr (h : Commanded s p t) (hfin : s.finishes e = false) (hu : Untouched s t)
    (hs : (s.dm.copier t).curState = .idle ∨ (s.dm.copier t).curState = .addr0 ∨ (s.dm.copier t).curState = .addr1 ∨
      (s.dm.copier t).curState = .addr2 ∨ (s.dm.copier t).curState = .addr3) : Untouched (s.next e T) t := by
  refine hu.next hfin ?_ ?_
  · rw [req_eq]
    rcases hs with hs | hs | hs | hs | hs <;> simp [DebugMemoryCopier.dataReq, hs]
  · rw [copier_next h e]
    rcases hs with hs | hs | hs | hs | hs <;> simp [DebugMemoryCopier.next, hs]

theorem Copying.next_idle (h : Commanded s p t) (hfin : s.finishes e = false)
    (hs : (s.dm.copier t).curState = .idle) (hu : Untouched s t) :
    DebugModule.copyReady s.dm (s.pins e) t = false ∧ Copying (s.next e T) p t := by
  have h4 := h.four_le
  refine ⟨?_, .addr0 ?_ (h.next_addr hfin hu (.inl hs)) (resData_next h.other h.busy (j := 0) (by omega) ?_) ?_⟩
  · rw [DebugModule.copyReady, h.copierIn]; simp [DebugMemoryCopier.copyReady, hs]
  · rw [copier_next h e]; simp [DebugMemoryCopier.next, DebugMemoryCopier.nextState, hs]
  · rw [h.copierIn]; simp [DebugMemoryCopier.inpPacketDataAddr, hs]
  · rw [copier_next h e]; simp [DebugMemoryCopier.next, hs]

theorem Copying.next_addr0 (h : Commanded s p t) (hfin : s.finishes e = false)
    (hs : (s.dm.copier t).curState = .addr0) (hu : Untouched s t) (hd : s.dm.parser.resData = p.byte 0)
    (hptr : (s.dm.copier t).dataPtr = 0#8) :
    DebugModule.copyReady s.dm (s.pins e) t = false ∧ Copying (s.next e T) p t := by
  have h4 := h.four_le
  refine ⟨?_, .addr1 ?_ (h.next_addr hfin hu (by simp [hs])) (resData_next h.other h.busy (j := 1) (by omega) ?_) ?_ ?_⟩
  · rw [DebugModule.copyReady, h.copierIn]; simp [DebugMemoryCopier.copyReady, DebugMemoryCopier.nextState, hs]
  · rw [copier_next h e]; simp [DebugMemoryCopier.next, DebugMemoryCopier.nextState, hs]
  · rw [h.copierIn]; simp [DebugMemoryCopier.inpPacketDataAddr, hs]
  · rw [copier_next h e]; simp [DebugMemoryCopier.next, hs, hptr]
  · rw [copier_next h e]; simp [DebugMemoryCopier.next, hs, hd]

theorem Copying.next_addr1 (h : Commanded s p t) (hfin : s.finishes e = false)
    (hs : (s.dm.copier t).curState = .addr1) (hu : Untouched s t) (hd : s.dm.parser.resData = p.byte 1)
    (hptr : (s.dm.copier t).dataPtr = 0#8) (h3 : (s.dm.copier t).startAddr 3#2 = p.byte 0) :
    DebugModule.copyReady s.dm (s.pins e) t = false ∧ Copying (s.next e T) p t := by
  have h4 := h.four_le
  refine ⟨?_, .addr2 ?_ (h.next_addr hfin hu (by simp [hs])) (resData_next h.other h.busy (j := 2) (by omega) ?_)
    ?_ ?_ ?_⟩
  · rw [DebugModule.copyReady, h.copierIn]; simp [DebugMemoryCopier.copyReady, DebugMemoryCopier.nextState, hs]
  · rw [copier_next h e]; simp [DebugMemoryCopier.next, DebugMemoryCopier.nextState, hs]
  · rw [h.copierIn]; simp [DebugMemoryCopier.inpPacketDataAddr, hs]
  · rw [copier_next h e]; simp [DebugMemoryCopier.next, hs, hptr]
  · rw [copier_next h e]; simp [DebugMemoryCopier.next, hs, h3]
  · rw [copier_next h e]; simp [DebugMemoryCopier.next, hs, hd]

theorem Copying.next_addr2 (h : Commanded s p t) (hfin : s.finishes e = false)
    (hs : (s.dm.copier t).curState = .addr2) (hu : Untouched s t) (hd : s.dm.parser.resData = p.byte 2)
    (hptr : (s.dm.copier t).dataPtr = 0#8) (h3 : (s.dm.copier t).startAddr 3#2 = p.byte 0)
    (h2 : (s.dm.copier t).startAddr 2#2 = p.byte 1) :
    DebugModule.copyReady s.dm (s.pins e) t = false ∧ Copying (s.next e T) p t := by
  have h4 := h.four_le
  refine ⟨?_, .addr3 ?_ (h.next_addr hfin hu (by simp [hs])) (resData_next h.other h.busy (j := 3) (by omega) ?_)
    ?_ ?_ ?_ ?_⟩
  · rw [DebugModule.copyReady, h.copierIn]; simp [DebugMemoryCopier.copyReady, DebugMemoryCopier.nextState, hs]
  · rw [copier_next h e]; simp [DebugMemoryCopier.next, DebugMemoryCopier.nextState, hs]
  · rw [h.copierIn]; simp [DebugMemoryCopier.inpPacketDataAddr, hs]
  · rw [copier_next h e]; simp [DebugMemoryCopier.next, hs, hptr]
  · rw [copier_next h e]; simp [DebugMemoryCopier.next, hs, h3]
  · rw [copier_next h e]; simp [DebugMemoryCopier.next, hs, h2]
  · rw [copier_next h e]; simp [DebugMemoryCopier.next, hs, hd]

/-- one cycle of the command: one step further, or done -/
def Advances (s : System) (e : Cycle) (T : ℕ) (p : Packet) (t : Target) : Prop :=
  if DebugModule.copyReady s.dm (s.pins e) t then
    ((s.next e T).dm.copier t).curState = .idle ∧ ((s.next e T).port t).ack = false ∧ Copied (s.next e T) p t
  else Copying (s.next e T) p t

theorem Commanded.copyReady (h : Commanded s p t) (e : Cycle) :
    DebugModule.copyReady s.dm (s.pins e) t = DebugMemoryCopier.copyReady (s.dm.copier t)
      ⟨true, decide (p.Writes t), p.len, s.dm.parser.resData, (s.port t).data, (s.port t).ack⟩ := by
  rw [DebugModule.copyReady, h.copierIn e]

theorem lenReg_next (h : s.dm.curState = .read t) :
    (s.next e T).dm.buffer.lenReg = (s.dm.copier t).readLen := by
  simp [System.next, dmNext, DebugModule.next, PacketBuffer.next, DebugModule.bufferIn, DebugModule.outLen, h]

theorem Commanded.state_of_reads (h : Commanded s p t) (hr : p.Reads t) : s.dm.curState = .read t := by
  rcases h.command with ⟨-, hs⟩ | ⟨hw, -⟩
  · exact hs
  · exact absurd hw (not_writes_of_reads hr)

/-- the last address byte: the count of a read, or the first byte of a write, if there is one -/
theorem Copying.next_addr3 (h : Commanded s p t) (hfin : s.finishes e = false)
    (hs : (s.dm.copier t).curState = .addr3) (hu : Untouched s t) (hd : s.dm.parser.resData = p.byte 3)
    (hptr : (s.dm.copier t).dataPtr = 0#8) (h3 : (s.dm.copier t).startAddr 3#2 = p.byte 0)
    (h2 : (s.dm.copier t).startAddr 2#2 = p.byte 1) (h1 : (s.dm.copier t).startAddr 1#2 = p.byte 2) :
    Advances s e T p t := by
  have hu' := h.next_addr (T := T) hfin hu (by simp [hs])
  have hptr' : ((s.next e T).dm.copier t).dataPtr = 0#8 := by
    rw [copier_next h e]; simp [DebugMemoryCopier.next, hs, hptr]
  have haddr : joinLanes ((s.next e T).dm.copier t).startAddr = p.addr := by
    rw [copier_next h e]
    refine Packet.addr_lanes ?_ ?_ ?_ ?_
    · simp [DebugMemoryCopier.next, hs, h3]
    · simp [DebugMemoryCopier.next, hs, h2]
    · simp [DebugMemoryCopier.next, hs, h1]
    · simp [DebugMemoryCopier.next, hs, hd]
  have hlt : 4#8 < p.len ↔ 4 < p.payload.length := by rw [BitVec.lt_def, p.toNat_len]; rfl
  rcases h.command with ⟨hr, -⟩ | ⟨hw, -⟩
  · have hnw := not_writes_of_reads hr
    rw [Advances, if_neg (by rw [h.copyReady]; simp [DebugMemoryCopier.copyReady, DebugMemoryCopier.nextState, hs, hnw])]
    refine .len ?_ hu' (resData_next h.other h.busy (j := 4) hr.2 ?_) hptr' haddr hr
    · rw [copier_next h e]; simp [DebugMemoryCopier.next, DebugMemoryCopier.nextState, hs, hnw]
    · rw [h.copierIn]; simp [DebugMemoryCopier.inpPacketDataAddr, hs, hnw]
  · by_cases hlen : 4 < p.payload.length
    · have hlen' := hlt.2 hlen
      rw [Advances, if_neg (by
        rw [h.copyReady]; simp [DebugMemoryCopier.copyReady, DebugMemoryCopier.nextState, hs, hw, hlen'])]
      refine .write 0 (by omega) ?_ hw hptr' haddr (resData_next h.other h.busy (j := 4) hlen ?_) ?_ ?_ hu'.readLen
      · rw [copier_next h e]; simp [DebugMemoryCopier.next, DebugMemoryCopier.nextState, hs, hw, hlen']
      · rw [h.copierIn]; simp [DebugMemoryCopier.inpPacketDataAddr, hs, hlen']
      · rw [hu'.ack, hu'.dev]; exact .zero _
      · rw [hu'.ack, hu'.accesses]; rfl
    · have hlen' := mt hlt.1 hlen
      have hzero : p.payload.length - 4 = 0 := by omega
      rw [Advances, if_pos (by
        rw [h.copyReady]; simp [DebugMemoryCopier.copyReady, DebugMemoryCopier.nextState, hs, hw, hlen'])]
      have hnr : ¬ p.Reads t := fun hr => not_writes_of_reads hr hw
      refine ⟨?_, hu'.ack, fun hr => absurd hr hnr, fun _ => ⟨?_, ?_⟩, fun _ hnw => absurd hw hnw,
        by rw [if_neg hnr, hu'.readLen]⟩
      · rw [copier_next h e]; simp [DebugMemoryCopier.next, DebugMemoryCopier.nextState, hs, hw, hlen']
      · rw [hzero, hu'.dev]; exact .zero _
      · rw [hzero, hu'.accesses]; rfl

/-- the count of a read: nothing is left to do for a count of zero -/
theorem Copying.next_len (h : Commanded s p t) (hfin : s.finishes e = false)
    (hs : (s.dm.copier t).curState = .len) (hu : Untouched s t) (hd : s.dm.parser.resData = p.count)
    (hptr : (s.dm.copier t).dataPtr = 0#8) (ha : joinLanes (s.dm.copier t).startAddr = p.addr) (hr : p.Reads t) :
    Advances s e T p t := by
  have hreq : s.req e t = false := by rw [req_eq]; simp [DebugMemoryCopier.dataReq, hs]
  obtain ⟨hdev, hack⟩ := port_next_of_quiet (T := T) hreq
  have hbefore : (s.next e T).trace.before t = s.trace.before t := by rw [trace_next hfin]; rfl
  have hacc : (s.next e T).trace.accesses t = [] := by
    rw [trace_next hfin, accesses_next_of_quiet hreq, hu.accesses]
  by_cases hz : p.count = 0#8
  · rw [Advances, if_pos (by
      rw [h.copyReady]; simp [DebugMemoryCopier.copyReady, DebugMemoryCopier.nextState, hs, hd, hz])]
    refine ⟨?_, hack, fun _ => ⟨by rw [hdev, hbefore, hu.dev], by simp [hacc], ?_⟩,
      fun hw => absurd hw (not_writes_of_reads hr), fun hnr => absurd hr hnr, ?_⟩
    · rw [copier_next h e]; simp [DebugMemoryCopier.next, DebugMemoryCopier.nextState, hs, hd, hz]
    · rw [if_pos hz, lenReg_next (h.state_of_reads hr), hu.readLen, trace_next hfin]; rfl
    · rw [if_pos hr, copier_next h e]; simp [DebugMemoryCopier.next, hs, hd]
  · rw [Advances, if_neg (by
      rw [h.copyReady]; simp [DebugMemoryCopier.copyReady, DebugMemoryCopier.nextState, hs, hd, hz])]
    have hpos : 0 < p.count.toNat := Nat.pos_of_ne_zero fun h0 => hz (BitVec.eq_of_toNat_eq h0)
    refine .read 0 hpos ?_ hr ?_ ?_ ?_ (by rw [hdev, hbefore, hu.dev]) (by simp [hacc])
      (fun _ hi => absurd hi (Nat.not_lt_zero _)) (by simp [hack])
    · rw [copier_next h e]; simp [DebugMemoryCopier.next, DebugMemoryCopier.nextState, hs, hd, hz]
    · rw [copier_next h e]; simp [DebugMemoryCopier.next, hs, hptr]
    · rw [copier_next h e]; simpa [DebugMemoryCopier.next, hs] using ha
    · rw [copier_next h e]; simp [DebugMemoryCopier.next, hs, hd]

/-- one byte of a read: it is requested until it is served, then it goes into the reply -/
theorem Copying.next_read (h : Commanded s p t) (hfin : s.finishes e = false) {k : ℕ} (hk : k < p.count.toNat)
    (hs : (s.dm.copier t).curState = .read) (hr : p.Reads t) (hptr : (s.dm.copier t).dataPtr = BitVec.ofNat 8 k)
    (ha : joinLanes (s.dm.copier t).startAddr = p.addr) (hlen : (s.dm.copier t).readLen = p.count)
    (hdev : (s.port t).dev = s.trace.before t) (hloads : ∀ a ∈ s.trace.accesses t, IsLoad a)
    (hout : ∀ i < k, s.dm.buffer.payloadDataBuf (BitVec.ofNat 8 i) = byteAt (s.trace.before t) (p.addrOf i))
    (hack : (s.port t).ack = true →
      ByteToWordAddrConverter.readData (p.addrOf k) (s.port t).data = byteAt (s.trace.before t) (p.addrOf k)) :
    Advances s e T p t := by
  have hcount := p.count.isLt
  have hnw := not_writes_of_reads hr
  have haddr := Packet.addr_copier (by omega) ha hptr
  have hbefore : (s.next e T).trace.before t = s.trace.before t := by rw [trace_next hfin]; rfl
  have hstart : joinLanes ((s.next e T).dm.copier t).startAddr = p.addr := by
    rw [copier_next h e]; simpa [DebugMemoryCopier.next, hs] using ha
  have hlen' : ((s.next e T).dm.copier t).readLen = p.count := by
    rw [copier_next h e]; simpa [DebugMemoryCopier.next, hs] using hlen
  cases hb : (s.port t).ack with
  | false =>
    -- nothing is there yet
    have hreq : s.req e t = true := by rw [req_eq]; simp [DebugMemoryCopier.dataReq, hs, hb]
    have hbuf : (s.next e T).dm.buffer.payloadDataBuf = s.dm.buffer.payloadDataBuf :=
      (payloadDataBuf_next h.other h.ne_state).1 (by rw [h.copierIn]; simp [DebugMemoryCopier.outPacket, hs, hb])
    have hwe : (DebugModule.out s.dm t).we = false := by simp [DebugModule.out, DebugMemoryCopier.dataOut, hs]
    have hserve : (wordDevice.serve (s.port t).dev (DebugModule.out s.dm t)).1 = s.trace.before t := by
      rw [← hdev]; exact wordDevice.read_pure _ _ hwe
    have hport := port_next_of_req (T := T) hfin hreq
    rw [Advances, if_neg (by
      rw [h.copyReady]; simp [DebugMemoryCopier.copyReady, DebugMemoryCopier.nextState, hs, hb])]
    have hs' : ((s.next e T).dm.copier t).curState = .read := by
      rw [copier_next h e]; simp [DebugMemoryCopier.next, DebugMemoryCopier.nextState, hs, hb]
    have hptr' : ((s.next e T).dm.copier t).dataPtr = BitVec.ofNat 8 k := by
      rw [copier_next h e]; simpa [DebugMemoryCopier.next, hs, hb] using hptr
    split_ifs at hport with hg
    · obtain ⟨hdev', -, hdata, hacc⟩ := hport
      refine .read k hk hs' hr hptr' hstart hlen' (by rw [hdev', hserve, hbefore]) ?_ (by rwa [hbuf, hbefore]) fun _ => ?_
      · intro a hmem
        rw [hacc, List.mem_append, List.mem_singleton] at hmem
        rcases hmem with hmem | rfl
        · exact hloads a hmem
        · simp [MemReq.access, hwe, IsLoad]
      · rw [hdata hwe, hbefore, ← hdev, ← haddr]
        exact DebugMemoryCopier.readData_serve _ _ _
    · obtain ⟨hdev', hack', hacc⟩ := hport
      exact .read k hk hs' hr hptr' hstart hlen' (by rw [hdev', hdev, hbefore]) (by rwa [hacc]) (by rwa [hbuf, hbefore])
        (by simp [hack'])
  | true =>
    have hreq : s.req e t = false := by rw [req_eq]; simp [DebugMemoryCopier.dataReq, hs, hb]
    obtain ⟨hdev', hack'⟩ := port_next_of_quiet (T := T) hreq
    have hacc : (s.next e T).trace.accesses t = s.trace.accesses t := by
      rw [trace_next hfin, accesses_next_of_quiet hreq]
    -- the byte is stored behind those before it
    have hbuf := (payloadDataBuf_next (e := e) (T := T) h.other h.ne_state).2 (BitVec.ofNat 8 k)
      (byteAt (s.trace.before t) (p.addrOf k)) (by
        rw [h.copierIn]; simp [DebugMemoryCopier.outPacket, hs, hb, hptr, haddr, hack hb])
    have hout' : ∀ i < k + 1, (s.next e T).dm.buffer.payloadDataBuf (BitVec.ofNat 8 i) =
        byteAt (s.trace.before t) (p.addrOf i) := by
      intro i hi
      rw [hbuf]
      by_cases hik : i = k
      · rw [hik, Function.update_self]
      · rw [Function.update_of_ne (ofNat_ne (by omega) (by omega) hik)]
        exact hout i (by omega)
    have hlast : (s.dm.copier t).dataPtr + 1#8 = (s.dm.copier t).readLen ↔ k + 1 = p.count.toNat := by
      rw [hptr, hlen, ofNat_succ]
      constructor
      · intro h
        rw [← h, BitVec.toNat_ofNat]; omega
      · intro h
        rw [h, BitVec.ofNat_toNat, BitVec.setWidth_eq]
    by_cases hend : k + 1 = p.count.toNat
    · have hend' := hlast.2 hend
      rw [Advances, if_pos (by
        rw [h.copyReady]; simp [DebugMemoryCopier.copyReady, DebugMemoryCopier.nextState, hs, hb, hend'])]
      refine ⟨?_, hack', fun _ => ⟨by rw [hdev', hdev, hbefore], by rwa [hacc], ?_⟩,
        fun hw => absurd hw hnw, fun hnr => absurd hr hnr, by rw [if_pos hr, hlen']⟩
      · rw [copier_next h e]; simp [DebugMemoryCopier.next, DebugMemoryCopier.nextState, hs, hb, hend']
      · have hne : p.count ≠ 0#8 := fun h0 => by rw [h0] at hk; exact Nat.not_lt_zero _ hk
        rw [if_neg hne, lenReg_next (h.state_of_reads hr), hlen, hbefore, ← hend]
        exact ⟨rfl, hout'⟩
    · have hend' := mt hlast.1 hend
      rw [Advances, if_neg (by
        rw [h.copyReady]; simp [DebugMemoryCopier.copyReady, DebugMemoryCopier.nextState, hs, hb, hend'])]
      refine .read (k + 1) (by omega) ?_ hr ?_ hstart hlen' (by rw [hdev', hdev, hbefore]) (by rwa [hacc])
        (by rwa [hbefore]) (by simp [hack'])
      · rw [copier_next h e]; simp [DebugMemoryCopier.next, DebugMemoryCopier.nextState, hs, hb, hend']
      · rw [copier_next h e]
        simp only [DebugMemoryCopier.next, hs, hb, hptr, ite_true]
        exact ofNat_succ k

/-- one byte of a write: it is requested until it is served; the next byte is fetched with the acknowledge -/
theorem Copying.next_write (h : Commanded s p t) (hfin : s.finishes e = false) {k : ℕ} (hk : k + 4 < p.payload.length)
    (hs : (s.dm.copier t).curState = .write) (hw : p.Writes t) (hptr : (s.dm.copier t).dataPtr = BitVec.ofNat 8 k)
    (ha : joinLanes (s.dm.copier t).startAddr = p.addr) (hd : s.dm.parser.resData = p.dataByte k)
    (hdev : p.Stored (s.trace.before t) (s.port t).dev (k + (s.port t).ack.toNat))
    (hacc : s.trace.accesses t = (List.range (k + (s.port t).ack.toNat)).map p.storeOf)
    (hlen : (s.dm.copier t).readLen = s.trace.readLen t) : Advances s e T p t := by
  have hle := p.length_le
  have haddr := Packet.addr_copier (by omega) ha hptr
  have hbefore : (s.next e T).trace.before t = s.trace.before t := by rw [trace_next hfin]; rfl
  have hstart : joinLanes ((s.next e T).dm.copier t).startAddr = p.addr := by
    rw [copier_next h e]; simpa [DebugMemoryCopier.next, hs] using ha
  have hlen' : ((s.next e T).dm.copier t).readLen = (s.next e T).trace.readLen t := by
    rw [copier_next h e, trace_next hfin]; simpa [DebugMemoryCopier.next, hs, traceNext] using hlen
  have hadd : ∀ j, BitVec.ofNat 8 j + 4#8 = BitVec.ofNat 8 (j + 4) := by
    intro j
    apply BitVec.eq_of_toNat_eq
    simp [BitVec.toNat_add]
  have hlast : (s.dm.copier t).dataPtr + 1#8 + 4#8 = p.len ↔ k + 5 = p.payload.length := by
    rw [hptr, ofNat_succ, hadd, Packet.len]
    refine ⟨fun h => ?_, fun h => by rw [← h]⟩
    by_contra hne
    exact ofNat_ne (by omega) (by omega) hne h
  cases hb : (s.port t).ack with
  | false =>
    rw [hb, Bool.toNat_false, Nat.add_zero] at hdev hacc
    have hreq : s.req e t = true := by rw [req_eq]; simp [DebugMemoryCopier.dataReq, hs, hb]
    have hport := port_next_of_req (T := T) hfin hreq
    rw [Advances, if_neg (by
      rw [h.copyReady]; simp [DebugMemoryCopier.copyReady, DebugMemoryCopier.nextState, hs, hb])]
    have hs' : ((s.next e T).dm.copier t).curState = .write := by
      rw [copier_next h e]; simp [DebugMemoryCopier.next, DebugMemoryCopier.nextState, hs, hb]
    have hptr' : ((s.next e T).dm.copier t).dataPtr = BitVec.ofNat 8 k := by
      rw [copier_next h e]; simpa [DebugMemoryCopier.next, hs, hb] using hptr
    have hd' : (s.next e T).dm.parser.resData = p.dataByte k := by
      refine resData_next h.other h.busy hk ?_
      rw [h.copierIn]
      simp only [DebugMemoryCopier.inpPacketDataAddr, hs, hb, hptr]
      rw [if_neg (by simp)]
      exact congrArg some (hadd k)
    split_ifs at hport with hg
    · -- the memory stores the byte
      obtain ⟨hdev', hack', -, hacc'⟩ := hport
      refine .write k hk hs' hw hptr' hstart hd' ?_ ?_ hlen'
      · rw [hbefore, hack', hdev']
        refine hdev.push (by omega) fun x => ?_
        rw [← haddr, ← hd]
        exact DebugMemoryCopier.byteAt_serve _ _ _ hs x
      · have hstore : (DebugModule.out s.dm t).access (wordDevice.serve (s.port t).dev (DebugModule.out s.dm t)).2 =
            p.storeOf k := by
          simp [DebugModule.out, DebugMemoryCopier.dataOut, MemReq.access, hs, haddr, hd, Packet.storeOf, storeByte]
        rw [hacc', hack', hacc, hstore]
        rw [Bool.toNat_true, List.range_succ, List.map_append, List.map_singleton]
    · obtain ⟨hdev', hack', hacc'⟩ := hport
      exact .write k hk hs' hw hptr' hstart hd' (by rwa [hbefore, hack', hdev']) (by rwa [hacc', hack']) hlen'
  | true =>
    rw [hb] at hdev hacc
    have hreq : s.req e t = false := by rw [req_eq]; simp [DebugMemoryCopier.dataReq, hs, hb]
    obtain ⟨hdev', hack'⟩ := port_next_of_quiet (T := T) hreq
    have hacc' : (s.next e T).trace.accesses t = s.trace.accesses t := by
      rw [trace_next hfin, accesses_next_of_quiet hreq]
    by_cases hend : k + 5 = p.payload.length
    · have hend' := hlast.2 hend
      have hcount : p.payload.length - 4 = k + 1 := by omega
      have hnr : ¬ p.Reads t := fun hr => not_writes_of_reads hr hw
      rw [Advances, if_pos (by
        rw [h.copyReady]; simp [DebugMemoryCopier.copyReady, DebugMemoryCopier.nextState, hs, hb, hend'])]
      refine ⟨?_, hack', fun hr => absurd hr hnr, fun _ => ⟨?_, ?_⟩, fun _ hnw => absurd hw hnw, by rw [if_neg hnr, hlen']⟩
      · rw [copier_next h e]; simp [DebugMemoryCopier.next, DebugMemoryCopier.nextState, hs, hb, hend']
      · rw [hcount, hdev', hbefore]; exact hdev
      · rw [hcount, hacc']; exact hacc
    · have hend' := mt hlast.1 hend
      rw [Advances, if_neg (by
        rw [h.copyReady]; simp [DebugMemoryCopier.copyReady, DebugMemoryCopier.nextState, hs, hb, hend'])]
      refine .write (k + 1) (by omega) ?_ hw ?_ hstart (resData_next h.other h.busy (j := k + 5) (by omega) ?_) ?_ ?_
        hlen'
      · rw [copier_next h e]; simp [DebugMemoryCopier.next, DebugMemoryCopier.nextState, hs, hb, hend']
      · rw [copier_next h e]
        simp only [DebugMemoryCopier.next, hs, hb, hptr, ite_true]
        exact ofNat_succ k
      · rw [h.copierIn]
        simp only [DebugMemoryCopier.inpPacketDataAddr, hs, hb]
        rw [if_pos ⟨trivial, hend'⟩, hptr]
        exact congrArg some (by rw [show (1 : Byte) = 1#8 from rfl, ofNat_succ]; exact hadd _)
      · rw [hbefore, hack', hdev']; exact hdev
      · rw [hacc', hack']; exact hacc

/-- **One cycle of a memory command.** -/
theorem Copying.next (h : Commanded s p t) (hfin : s.finishes e = false) (hc : Copying s p t) :
    Advances s e T p t := by
  have advances : DebugModule.copyReady s.dm (s.pins e) t = false ∧ Copying (s.next e T) p t → Advances s e T p t := by
    rintro ⟨h1, h2⟩
    rwa [Advances, if_neg (by simp [h1])]
  cases hc with
  | idle hs hu => exact advances (next_idle h hfin hs hu)
  | addr0 hs hu hd hptr => exact advances (next_addr0 h hfin hs hu hd hptr)
  | addr1 hs hu hd hptr h3 => exact advances (next_addr1 h hfin hs hu hd hptr h3)
  | addr2 hs hu hd hptr h3 h2 => exact advances (next_addr2 h hfin hs hu hd hptr h3 h2)
  | addr3 hs hu hd hptr h3 h2 h1 => exact next_addr3 h hfin hs hu hd hptr h3 h2 h1
  | len hs hu hd hptr ha hr => exact next_len h hfin hs hu hd hptr ha hr
  | read k hk hs hr hptr ha hlen hdev hloads hout hack =>
    exact next_read h hfin hk hs hr hptr ha hlen hdev hloads hout hack
  | write k hk hs hw hptr ha hd hdev hacc hlen => exact next_write h hfin hk hs hw hptr ha hd hdev hacc hlen

end System

end FpgaLearning.Debug
