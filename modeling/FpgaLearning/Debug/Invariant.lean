/-
The invariant of the closed loop.

The debug module is always in one of four phases: it receives a request, dispatches it, executes it, or sends the reply.
`Phase` ties the parser, the command state machine, the copiers, the reset counter and the reply buffer to the phase, and
to the part of the request the host has sent and of the reply it has received. `Copying` does so for the steps of a
memory command. With the last byte of the reply the transaction is recorded, and it is `Ok`.
-/
import FpgaLearning.Debug.Transactions
import FpgaLearning.Debug.UnitLemmas

namespace FpgaLearning.Debug

open FpgaLearning.Memory DebugModule

namespace System

/-! ## Pieces of the invariant -/

/-- nothing has happened on port `t` since the request began -/
structure Untouched (s : System) (t : Target) : Prop where
  ack : (s.port t).ack = false
  dev : (s.port t).dev = s.trace.before t
  accesses : s.trace.accesses t = []
  readLen : (s.dm.copier t).readLen = s.trace.readLen t

structure Fresh (s : System) (t : Target) : Prop extends Untouched s t where
  idle : (s.dm.copier t).curState = .idle

/-- the reset output has been high since the request began -/
structure NoReset (s : System) : Prop where
  counter : s.dm.resetController.counter = 0#4
  low : s.trace.resetLow = 0
  falls : s.trace.resetFalls = 0

/-- the reset pulse: `counter` cycles are left -/
structure Pulse (s : System) : Prop where
  counter : s.dm.resetController.counter ≠ 0#4
  low : s.trace.resetLow + s.dm.resetController.counter.toNat = ResetController.resetTicks
  falls : s.trace.resetFalls = 1

/-- the request `p` has been sent and received completely -/
structure Busy (s : System) (p : Packet) : Prop where
  current : ∃ rest, s.host.requests = p :: rest
  sent : s.host.sent = p.bytes.length
  holds : PacketParser.Holds s.dm.parser p

/-- a memory command on port `t`, step by step; `k` bytes are done -/
inductive Copying (s : System) (p : Packet) (t : Target) : Prop
  | idle (hs : (s.dm.copier t).curState = .idle) (hu : Untouched s t)
  | addr0 (hs : (s.dm.copier t).curState = .addr0) (hu : Untouched s t) (hd : s.dm.parser.resData = p.byte 0)
      (hptr : (s.dm.copier t).dataPtr = 0#8)
  | addr1 (hs : (s.dm.copier t).curState = .addr1) (hu : Untouched s t) (hd : s.dm.parser.resData = p.byte 1)
      (hptr : (s.dm.copier t).dataPtr = 0#8) (h3 : (s.dm.copier t).startAddr 3#2 = p.byte 0)
  | addr2 (hs : (s.dm.copier t).curState = .addr2) (hu : Untouched s t) (hd : s.dm.parser.resData = p.byte 2)
      (hptr : (s.dm.copier t).dataPtr = 0#8) (h3 : (s.dm.copier t).startAddr 3#2 = p.byte 0)
      (h2 : (s.dm.copier t).startAddr 2#2 = p.byte 1)
  | addr3 (hs : (s.dm.copier t).curState = .addr3) (hu : Untouched s t) (hd : s.dm.parser.resData = p.byte 3)
      (hptr : (s.dm.copier t).dataPtr = 0#8) (h3 : (s.dm.copier t).startAddr 3#2 = p.byte 0)
      (h2 : (s.dm.copier t).startAddr 2#2 = p.byte 1) (h1 : (s.dm.copier t).startAddr 1#2 = p.byte 2)
  | len (hs : (s.dm.copier t).curState = .len) (hu : Untouched s t) (hd : s.dm.parser.resData = p.count)
      (hptr : (s.dm.copier t).dataPtr = 0#8) (ha : joinLanes (s.dm.copier t).startAddr = p.addr) (hr : p.Reads t)
  | read (k : ℕ) (hk : k < p.count.toNat) (hs : (s.dm.copier t).curState = .read) (hr : p.Reads t)
      (hptr : (s.dm.copier t).dataPtr = BitVec.ofNat 8 k) (ha : joinLanes (s.dm.copier t).startAddr = p.addr)
      (hlen : (s.dm.copier t).readLen = p.count) (hdev : (s.port t).dev = s.trace.before t)
      (hloads : ∀ a ∈ s.trace.accesses t, IsLoad a)
      (hout : ∀ i < k, s.dm.buffer.payloadDataBuf (BitVec.ofNat 8 i) = byteAt (s.trace.before t) (p.addrOf i))
      (hack : (s.port t).ack = true →
        ByteToWordAddrConverter.readData (p.addrOf k) (s.port t).data = byteAt (s.trace.before t) (p.addrOf k))
  | write (k : ℕ) (hk : k + 4 < p.payload.length) (hs : (s.dm.copier t).curState = .write) (hw : p.Writes t)
      (hptr : (s.dm.copier t).dataPtr = BitVec.ofNat 8 k) (ha : joinLanes (s.dm.copier t).startAddr = p.addr)
      (hd : s.dm.parser.resData = p.dataByte k)
      (hdev : p.Stored (s.trace.before t) (s.port t).dev (k + (s.port t).ack.toNat))
      (hacc : s.trace.accesses t = (List.range (k + (s.port t).ack.toNat)).map p.storeOf)
      (hlen : (s.dm.copier t).readLen = s.trace.readLen t)

/-- the transaction that would end with the reply in the buffer -/
abbrev current (s : System) (p : Packet) : Transaction :=
  transaction p (PacketBuffer.packet s.dm.buffer) s.trace s.port

inductive Phase (s : System) : Prop
  | rest (hq : s.host.requests = []) (hdm : s.dm.curState = .waitInput) (hbuf : s.dm.buffer.curState = .idle)
      (hP : s.dm.parser.curState = .waitCmd) (hgot : s.host.got = []) (hreset : NoReset s) (hfresh : ∀ t, Fresh s t)
  | receive (p : Packet) (hp : ∃ rest, s.host.requests = p :: rest) (hdm : s.dm.curState = .waitInput)
      (hbuf : s.dm.buffer.curState = .idle) (hP : PacketParser.Receiving s.dm.parser p s.host.sent) (hgot : s.host.got = [])
      (hreset : NoReset s) (hfresh : ∀ t, Fresh s t)
  | dispatch (p : Packet) (hb : Busy s p) (hdm : s.dm.curState = .waitInput) (hbuf : s.dm.buffer.curState = .idle)
      (hgot : s.host.got = []) (hreset : NoReset s) (hfresh : ∀ t, Fresh s t)
  | exec (p : Packet) (hb : Busy s p) (hdm : s.dm.curState = DebugModule.dispatch p.cmd p.len)
      (hbuf : s.dm.buffer.curState = .idle) (hgot : s.host.got = []) (hreset : NoReset s ∨ p.cmd = cmdReset ∧ Pulse s)
      (hcopy : ∀ t, if p.Reads t ∨ p.Writes t then Copying s p t else Fresh s t)
  | send (p : Packet) (k : ℕ) (hb : Busy s p) (hdm : s.dm.curState = .waitSend) (hsend : PacketBuffer.SendingAt s.dm.buffer k)
      (hgot : s.host.got = (PacketBuffer.packet s.dm.buffer).take k) (hcounter : s.dm.resetController.counter = 0#4)
      (hidle : ∀ t, (s.dm.copier t).curState = .idle ∧ (s.port t).ack = false)
      (hlen : ∀ t, (s.dm.copier t).readLen = if p.Reads t then p.count else s.trace.readLen t) (hok : (s.current p).Ok)

/-! ## What one cycle leaves alone -/

variable {s : System} {e : Cycle} {T : ℕ} {p : Packet} {t : Target}

theorem Busy.input (h : Busy s p) (e : Cycle) : s.input e = none := by
  obtain ⟨rest, hrest⟩ := h.current
  have hnone : p.bytes[s.host.sent]? = none := by rw [List.getElem?_eq_none_iff, h.sent]
  simp [System.input, Host.pending, hrest, hnone]

theorem emitted_of_idle (h : s.dm.buffer.curState = .idle) (e : Cycle) : s.emitted e = none := by
  simp [emitted, DebugModule.sendData, PacketBuffer.sendData, h]

theorem finishes_of_idle (h : s.dm.buffer.curState = .idle) (e : Cycle) : s.finishes e = false := by
  simp [finishes, emitted_of_idle h]

/-- while the buffer is idle the host receives nothing -/
theorem host_next_of_idle (h : s.dm.buffer.curState = .idle) :
    (s.next e T).host = ⟨s.host.requests, s.host.sent + (s.input e).isSome.toNat, s.host.got⟩ := by
  simp [next, finishes_of_idle h, gotNext, emitted_of_idle h]

theorem req_of_idle (h : (s.dm.copier t).curState = .idle) (e : Cycle) : s.req e t = false :=
  (DebugMemoryCopier.quiet_of_idle h ((DebugModule.copierIn s.dm (s.pins e) t)) _).2

theorem port_next_of_quiet (h : s.req e t = false) :
    ((s.next e T).port t).dev = (s.port t).dev ∧ ((s.next e T).port t).ack = false := by
  simp [next, portNext, Port.next, h]

theorem accesses_next_of_quiet (h : s.req e t = false) (dm' : DebugModule.St) :
    (s.traceNext e dm').accesses t = s.trace.accesses t := by
  simp [traceNext, Port.served, h]

theorem Untouched.next (h : Untouched s t) (hfin : s.finishes e = false) (hreq : s.req e t = false)
    (hlen : ((s.next e T).dm.copier t).readLen = (s.dm.copier t).readLen) : Untouched (s.next e T) t := by
  obtain ⟨h1, h2⟩ := port_next_of_quiet (T := T) hreq
  have htrace : (s.next e T).trace = s.traceNext e (s.dmNext e T) := by simp [System.next, hfin]
  refine ⟨h2, ?_, ?_, ?_⟩
  · rw [h1, htrace, h.dev]; rfl
  · rw [htrace, accesses_next_of_quiet hreq, h.accesses]
  · rw [hlen, htrace, h.readLen]; rfl

/-- a new request begins untouched -/
theorem Untouched.start (hfin : s.finishes e = true) (hreq : s.req e t = false) : Untouched (s.next e T) t := by
  obtain ⟨-, h2⟩ := port_next_of_quiet (T := T) hreq
  have htrace : (s.next e T).trace = startTrace (s.dmNext e T) (s.portNext e) := by simp [System.next, hfin]
  exact ⟨h2, by rw [htrace]; rfl, by rw [htrace]; rfl, by rw [htrace]; rfl⟩

/-- a copier that has no command stays idle -/
theorem copier_next_of_idle (h : (s.dm.copier t).curState = .idle) (hr : s.dm.curState ≠ .read t)
    (hw : s.dm.curState ≠ .write t) : ((s.next e T).dm.copier t).curState = .idle ∧
      ((s.next e T).dm.copier t).readLen = (s.dm.copier t).readLen := by
  have hreq : (DebugModule.copierIn s.dm (s.pins e) t).copyReq = false := by simp [DebugModule.copierIn, hr, hw]
  obtain ⟨h1, h2, -, -⟩ := DebugMemoryCopier.next_of_idle h hreq
  exact ⟨h1, h2⟩

theorem Fresh.next (h : Fresh s t) (hfin : s.finishes e = false) (hr : s.dm.curState ≠ .read t)
    (hw : s.dm.curState ≠ .write t) : Fresh (s.next e T) t := by
  obtain ⟨h1, h2⟩ := copier_next_of_idle (e := e) (T := T) h.idle hr hw
  exact ⟨h.toUntouched.next hfin (req_of_idle h.idle e) h2, h1⟩

theorem softResetN_eq (s : DebugModule.St) : DebugModule.softResetN s = (s.resetController.counter == 0#4) := rfl

/-- without a reset command the counter stays at zero -/
theorem counter_next (h : s.dm.resetController.counter = 0#4) (hs : s.dm.curState ≠ .reset) :
    (s.next e T).dm.resetController.counter = 0#4 := by
  simp [System.next, dmNext, DebugModule.next, ResetController.next, ResetController.resetN, h, softResetReq, hs]

theorem NoReset.next (h : NoReset s) (hfin : s.finishes e = false) (hs : s.dm.curState ≠ .reset) :
    NoReset (s.next e T) := by
  have hc := counter_next (e := e) (T := T) h.counter hs
  have hc' : (s.dmNext e T).resetController.counter = 0#4 := hc
  have htrace : (s.next e T).trace = s.traceNext e (s.dmNext e T) := by simp [System.next, hfin]
  refine ⟨hc, ?_, ?_⟩
  · simp [htrace, traceNext, softResetN_eq, h.counter, h.low]
  · simp [htrace, traceNext, softResetN_eq, h.counter, hc', h.falls]

theorem NoReset.start (hfin : s.finishes e = true) (hc : s.dm.resetController.counter = 0#4)
    (hs : s.dm.curState ≠ .reset) : NoReset (s.next e T) := by
  have htrace : (s.next e T).trace = startTrace (s.dmNext e T) (s.portNext e) := by simp [System.next, hfin]
  exact ⟨counter_next hc hs, by rw [htrace]; rfl, by rw [htrace]; rfl⟩

/-! ## Receiving and dispatching -/

/-- while a request is awaited, the reply buffer is not touched -/
theorem buffer_next_of_waitInput (hdm : s.dm.curState = .waitInput) (hbuf : s.dm.buffer.curState = .idle) :
    (s.next e T).dm.buffer.curState = .idle := by
  simp [System.next, dmNext, DebugModule.next, PacketBuffer.next, PacketBuffer.nextState, bufferIn, outSendReq, hdm, hbuf]

theorem resReady_eq_false (h : s.dm.curState ≠ .waitSend) (e : Cycle) :
    (DebugModule.parserIn s.dm (s.pins e)).resReady = false := by
  simp [DebugModule.parserIn, h]

theorem Phase.next_rest (hq : s.host.requests = []) (hdm : s.dm.curState = .waitInput)
    (hbuf : s.dm.buffer.curState = .idle) (hP : s.dm.parser.curState = .waitCmd) (hgot : s.host.got = [])
    (hreset : NoReset s) (hfresh : ∀ t, Fresh s t) : Phase (s.next e T) := by
  have hfin := finishes_of_idle hbuf e
  have hin : s.input e = none := by simp [input, Host.pending, hq]
  have hhost := host_next_of_idle (e := e) (T := T) hbuf
  refine .rest (by rw [hhost, hq]) ?_ (buffer_next_of_waitInput hdm hbuf) ?_ (by rw [hhost, hgot])
    (hreset.next hfin (by simp [hdm])) fun t => (hfresh t).next hfin (by simp [hdm]) (by simp [hdm])
  · simp [System.next, dmNext, DebugModule.next, DebugModule.nextState, hdm, PacketParser.resValid, hP]
  · simp [System.next, dmNext, DebugModule.next, PacketParser.next, PacketParser.nextState, hP, parserIn, pins, hin]

theorem Phase.next_receive (hp : ∃ rest, s.host.requests = p :: rest) (hdm : s.dm.curState = .waitInput)
    (hbuf : s.dm.buffer.curState = .idle) (hP : PacketParser.Receiving s.dm.parser p s.host.sent) (hgot : s.host.got = [])
    (hreset : NoReset s) (hfresh : ∀ t, Fresh s t) : Phase (s.next e T) := by
  obtain ⟨rest, hrest⟩ := hp
  have hfin := finishes_of_idle hbuf e
  have hhost := host_next_of_idle (e := e) (T := T) hbuf
  have hdm' : (s.next e T).dm.curState = .waitInput := by
    simp [System.next, dmNext, DebugModule.next, DebugModule.nextState, hdm, hP.resValid]
  have hbuf' := buffer_next_of_waitInput (e := e) (T := T) hdm hbuf
  have hreset' : NoReset (s.next e T) := hreset.next hfin (by simp [hdm])
  have hfresh' : ∀ t, Fresh (s.next e T) t := fun t => (hfresh t).next hfin (by simp [hdm]) (by simp [hdm])
  cases hin : s.input e with
  | none =>
    refine .receive p ⟨rest, by rw [hhost, hrest]⟩ hdm' hbuf' ?_ (by rw [hhost, hgot]) hreset' hfresh'
    rw [hhost, hin]
    exact hP.stay (by simp [DebugModule.parserIn, pins, hin])
  | some b =>
    have hb : p.bytes[s.host.sent]? = some b := by
      simp only [input, Host.pending, hrest] at hin
      split_ifs at hin
      exact hin
    have hnext := hP.next (i := DebugModule.parserIn s.dm (s.pins e)) (by simp [DebugModule.parserIn, pins, hin])
      (by simp [DebugModule.parserIn, pins, hin]) (by simpa [DebugModule.parserIn, pins, hin] using hb)
    have hsent : (s.next e T).host.sent = s.host.sent + 1 := by rw [hhost, hin]; rfl
    have hreq' : (s.next e T).host.requests = p :: rest := by rw [hhost, hrest]
    have hgot' : (s.next e T).host.got = [] := by rw [hhost, hgot]
    split_ifs at hnext with hlast
    · exact .dispatch p ⟨⟨rest, hreq'⟩, by rw [hsent, hlast], hnext⟩ hdm' hbuf' hgot' hreset' hfresh'
    · exact .receive p ⟨rest, hreq'⟩ hdm' hbuf' (by rw [hsent]; exact hnext) hgot' hreset' hfresh'

theorem Busy.next (h : Busy s p) (hs : s.dm.curState ≠ .waitSend) (hbuf : s.dm.buffer.curState = .idle) :
    Busy (s.next e T) p := by
  obtain ⟨rest, hrest⟩ := h.current
  have hhost := host_next_of_idle (e := e) (T := T) hbuf
  refine ⟨⟨rest, by rw [hhost, hrest]⟩, by rw [hhost, h.input, h.sent]; rfl, ?_⟩
  exact h.holds.stay (resReady_eq_false hs e)

theorem Phase.next_dispatch (hb : Busy s p) (hdm : s.dm.curState = .waitInput) (hbuf : s.dm.buffer.curState = .idle)
    (hgot : s.host.got = []) (hreset : NoReset s) (hfresh : ∀ t, Fresh s t) : Phase (s.next e T) := by
  have hfin := finishes_of_idle hbuf e
  have hhost := host_next_of_idle (e := e) (T := T) hbuf
  have hfresh' : ∀ t, Fresh (s.next e T) t := fun t => (hfresh t).next hfin (by simp [hdm]) (by simp [hdm])
  refine .exec p (hb.next (by simp [hdm]) hbuf) ?_ (buffer_next_of_waitInput hdm hbuf) (by rw [hhost, hgot])
    (.inl (hreset.next hfin (by simp [hdm]))) fun t => ?_
  · simp [System.next, dmNext, DebugModule.next, DebugModule.nextState, hdm, PacketParser.resValid, hb.holds.ready,
      hb.holds.error, hb.holds.cmd, hb.holds.len]
  · split_ifs
    · exact .idle (hfresh' t).idle (hfresh' t).toUntouched
    · exact hfresh' t

end System

end FpgaLearning.Debug
