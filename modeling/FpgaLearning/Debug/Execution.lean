/-
Executing a request and sending the reply.

`Phase.next_exec`: a command stays in its state until it is done; then the reply buffer holds the reply, and the
transaction that would end with it is `Ok`. `Phase.next_send`: the reply leaves byte by byte, and with its last byte the
transaction is recorded.
-/
import FpgaLearning.Debug.Copying

namespace FpgaLearning.Debug

open FpgaLearning.Memory DebugModule

namespace System

variable {s : System} {e : Cycle} {T : ℕ} {p : Packet} {t : Target}

/-! ## The reply -/

theorem status_of_reads (h : p.Reads t) : p.status = statusOk := by
  obtain ⟨hcmd, h5⟩ := h
  cases t <;> simp [Packet.status, hcmd, Target.cmdRead, h5, statusOk]

/-- the reply in the buffer ends the transaction well, when the ports and the reset are as they should be -/
theorem current_ok (hstatus : s.dm.buffer.statusReg = p.status) (hid : s.dm.buffer.idReg = p.id)
    (hreset : (s.trace.resetLow, s.trace.resetFalls) = if p.cmd = cmdReset then (ResetController.resetTicks, 1) else (0, 0))
    (hcopied : ∀ t, Copied s p t) : (s.current p).Ok where
  reply := ⟨s.dm.buffer.lenReg, (List.range s.dm.buffer.lenReg.toNat).map fun i =>
    s.dm.buffer.payloadDataBuf (BitVec.ofNat 8 i), by simp [transaction, PacketBuffer.packet, hstatus, hid], by simp⟩
  reset := hreset
  read t hr := by
    obtain ⟨hdev, hloads, hlen⟩ := (hcopied t).read hr
    refine ⟨hdev, hloads, ?_⟩
    show if p.count = 0#8 then (PacketBuffer.packet s.dm.buffer)[2]? = some (s.trace.readLen t) else
      PacketBuffer.packet s.dm.buffer = statusOk :: p.id :: p.count :: p.requested (s.trace.before t)
    split_ifs at hlen ⊢ with hz
    · simp [PacketBuffer.packet, hlen]
    · obtain ⟨hlen, hbytes⟩ := hlen
      have hmap : ((List.range p.count.toNat).map fun i => s.dm.buffer.payloadDataBuf (BitVec.ofNat 8 i)) =
          p.requested (s.trace.before t) :=
        List.map_congr_left fun i hi => hbytes i (List.mem_range.1 hi)
      have hok : p.status = statusOk := status_of_reads hr
      rw [PacketBuffer.packet, hstatus, hid, hlen, hmap, hok]
  write t hw := (hcopied t).write hw
  quiet t hr hw := (hcopied t).quiet hr hw

/-! ## Executing -/

/-- the module works on the request `p` -/
structure Executing (s : System) (p : Packet) : Prop where
  busy : Busy s p
  state : s.dm.curState = DebugModule.dispatch p.cmd p.len
  buffer : s.dm.buffer.curState = .idle
  got : s.host.got = []

theorem Executing.ne_waitSend (h : Executing s p) : s.dm.curState ≠ .waitSend := by
  rw [h.state]; exact (dispatch_ne _ _).2.2

theorem Executing.buffer_next (h : Executing s p) : (s.next e T).dm.buffer.curState = .idle ∧
    (s.next e T).dm.buffer.statusReg = p.status ∧ (s.next e T).dm.buffer.idReg = p.id := by
  obtain ⟨hstatus, hid⟩ := Packet.outStatus_dispatch h.state
  have hreq : outSendReq s.dm = false := by simp [outSendReq, h.ne_waitSend]
  refine ⟨?_, ?_, ?_⟩
  · simp [System.next, dmNext, DebugModule.next, PacketBuffer.next, PacketBuffer.nextState, bufferIn, hreq, h.buffer]
  · simp [System.next, dmNext, DebugModule.next, PacketBuffer.next, bufferIn, hstatus]
  · simp [System.next, dmNext, DebugModule.next, PacketBuffer.next, bufferIn, hid, h.busy.holds.id]

theorem Executing.host_next (h : Executing s p) : (s.next e T).host.got = [] := by
  rw [host_next_of_idle h.buffer, h.got]

/-- not done yet -/
theorem Executing.stay (h : Executing s p) (hstay : DebugModule.nextState T s.dm (s.pins e) = s.dm.curState) :
    Executing (s.next e T) p :=
  ⟨h.busy.next h.ne_waitSend h.buffer, hstay.trans h.state, (h.buffer_next).1, h.host_next⟩

/-- done: the reply is ready to be sent -/
theorem Executing.finish (h : Executing s p) (hdone : DebugModule.nextState T s.dm (s.pins e) = .waitSend)
    (hcounter : (s.next e T).dm.resetController.counter = 0#4)
    (hreset : ((s.next e T).trace.resetLow, (s.next e T).trace.resetFalls) =
      if p.cmd = cmdReset then (ResetController.resetTicks, 1) else (0, 0))
    (hidle : ∀ t, ((s.next e T).dm.copier t).curState = .idle ∧ ((s.next e T).port t).ack = false)
    (hcopied : ∀ t, Copied (s.next e T) p t) : Phase (s.next e T) := by
  obtain ⟨hbuf, hstatus, hid⟩ := h.buffer_next (e := e) (T := T)
  exact .send p 0 (h.busy.next h.ne_waitSend h.buffer) hdone (.idle hbuf) (by rw [h.host_next]; rfl) hcounter hidle
    (fun t => (hcopied t).readLen) (current_ok hstatus hid hreset hcopied)

/-- a reset: the pulse begins, goes on, or ends -/
theorem Phase.next_reset (h : Executing s p) (hcmd : p.cmd = cmdReset) (hreset : NoReset s ∨ Pulse s)
    (hfresh : ∀ t, Fresh s t) : Phase (s.next e T) := by
  have hfin := finishes_of_idle h.buffer e
  have hs : s.dm.curState = .reset := by rw [h.state]; exact Packet.dispatch_wire.2.2.2 hcmd
  have hfresh' : ∀ t, Fresh (s.next e T) t := fun t => (hfresh t).next hfin (by simp [hs]) (by simp [hs])
  have hnomem : ∀ t, ¬ p.Reads t ∧ ¬ p.Writes t := by
    intro t
    rw [Packet.Reads, Packet.Writes, hcmd]
    cases t <;> simp [Target.cmdRead, Target.cmdWrite, cmdReset, cmdReadProg, cmdReadData, cmdWriteProg, cmdWriteData]
  have hcopy' : ∀ t, if p.Reads t ∨ p.Writes t then Copying (s.next e T) p t else Fresh (s.next e T) t := by
    intro t
    rw [if_neg (by simp [hnomem t])]; exact hfresh' t
  have hctr : (s.next e T).dm.resetController = ResetController.next s.dm.resetController true := by
    show ResetController.next _ (softResetReq s.dm) = _
    simp [softResetReq, hs]
  have hlow : (s.next e T).trace.resetLow = s.trace.resetLow + (!softResetN s.dm).toNat := by rw [trace_next hfin]; rfl
  have hfalls : (s.next e T).trace.resetFalls =
      s.trace.resetFalls + (softResetN s.dm && !softResetN (s.next e T).dm).toNat := by rw [trace_next hfin]; rfl
  rcases hreset with hreset | hpulse
  · have hstay : DebugModule.nextState T s.dm (s.pins e) = s.dm.curState := by
      simp [DebugModule.nextState, hs, ResetController.ack, hreset.counter]
    have hc' : (s.next e T).dm.resetController.counter = 10#4 := by
      rw [hctr]; simp [ResetController.next, ResetController.resetN, hreset.counter, ResetController.resetTicks]
    obtain ⟨hb, hst, hbuf, hgot⟩ := h.stay hstay
    refine .exec p hb hst hbuf hgot (.inr ⟨hcmd, by rw [hc']; decide, ?_, ?_⟩) hcopy'
    · rw [hlow, hc', hreset.low]; simp [softResetN_eq, hreset.counter, ResetController.resetTicks]
    · rw [hfalls, hreset.falls]; simp [softResetN_eq, hreset.counter, hc']
  · obtain ⟨hne, hsum, hfell⟩ := hpulse
    have hc' : (s.next e T).dm.resetController.counter = s.dm.resetController.counter - 1#4 := by
      rw [hctr]; simp [ResetController.next, ResetController.resetN, hne]
    have hlow' : (s.next e T).trace.resetLow = s.trace.resetLow + 1 := by rw [hlow]; simp [softResetN_eq, hne]
    have hfell' : (s.next e T).trace.resetFalls = 1 := by rw [hfalls, hfell]; simp [softResetN_eq, hne]
    by_cases hone : s.dm.resetController.counter = 1#4
    · refine h.finish ?_ (by rw [hc', hone]; rfl) ?_ (fun t => ⟨(hfresh' t).idle, (hfresh' t).ack⟩)
        fun t => (hfresh' t).copied (hnomem t).1 (hnomem t).2
      · simp [DebugModule.nextState, hs, ResetController.ack, hone]
      · rw [if_pos hcmd, hlow', hfell', ← hsum, hone]; rfl
    · have hstay : DebugModule.nextState T s.dm (s.pins e) = s.dm.curState := by
        simp [DebugModule.nextState, hs, ResetController.ack, hone]
      obtain ⟨hb, hst, hbuf, hgot⟩ := h.stay hstay
      refine .exec p hb hst hbuf hgot (.inr ⟨hcmd, ?_, ?_, hfell'⟩) hcopy'
      · rw [hc']
        bv_omega
      · have hdown : (s.dm.resetController.counter - 1#4).toNat + 1 = s.dm.resetController.counter.toNat := by bv_omega
        rw [hlow', hc', ← hsum]
        omega

theorem cmd_ne_reset (h : p.Reads t ∨ p.Writes t) : p.cmd ≠ cmdReset := by
  rcases h with ⟨h, -⟩ | ⟨h, -⟩ <;> rw [h] <;> cases t <;> decide

theorem other_of_copies {t' : Target} (h : p.Reads t ∨ p.Writes t) (hne : t' ≠ t) : ¬ p.Reads t' ∧ ¬ p.Writes t' := by
  have hcmd : ∀ c : Byte, (c = t.cmdRead ∨ c = t.cmdWrite) → c ≠ t'.cmdRead ∧ c ≠ t'.cmdWrite := by
    rintro c (rfl | rfl) <;> revert hne <;> cases t <;> cases t' <;> decide
  obtain ⟨h1, h2⟩ := hcmd p.cmd (h.imp And.left And.left)
  exact ⟨fun h' => h1 h'.1, fun h' => h2 h'.1⟩

/-- a memory command: one more step of its copier -/
theorem Phase.next_memory (h : Executing s p) (hreset : NoReset s)
    (hcommand : p.Reads t ∧ s.dm.curState = .read t ∨ p.Writes t ∧ s.dm.curState = .write t) (hc : Copying s p t)
    (hother : ∀ t', t' ≠ t → Fresh s t') : Phase (s.next e T) := by
  have hfin := finishes_of_idle h.buffer e
  have hcmd : p.Reads t ∨ p.Writes t := hcommand.imp And.left And.left
  have hidle : OtherIdle s t := by
    intro t' ht
    refine ⟨(hother t' ht).idle, ?_⟩
    rcases hcommand with ⟨-, hs⟩ | ⟨-, hs⟩ <;> simp [hs, Ne.symm ht]
  have hadv := Copying.next (T := T) ⟨h.busy, h.buffer, hidle, hcommand⟩ hfin hc
  have hreset' : NoReset (s.next e T) := hreset.next hfin (by rcases hcommand with ⟨-, hs⟩ | ⟨-, hs⟩ <;> simp [hs])
  have hother' : ∀ t', t' ≠ t → Fresh (s.next e T) t' := fun t' ht =>
    (hother t' ht).next hfin (hidle t' ht).2.1 (hidle t' ht).2.2
  have hnext : DebugModule.nextState T s.dm (s.pins e) =
      if DebugModule.copyReady s.dm (s.pins e) t then .waitSend else s.dm.curState := by
    rcases hcommand with ⟨-, hs⟩ | ⟨-, hs⟩ <;> simp [DebugModule.nextState, hs]
  rw [Advances] at hadv
  split_ifs at hadv hnext with hready
  · obtain ⟨hc1, hc2, hc3⟩ := hadv
    refine h.finish hnext hreset'.counter ?_ (fun t' => ?_) fun t' => ?_
    · rw [if_neg (cmd_ne_reset hcmd), hreset'.low, hreset'.falls]
    · by_cases ht : t' = t
      · rw [ht]; exact ⟨hc1, hc2⟩
      · exact ⟨(hother' t' ht).idle, (hother' t' ht).ack⟩
    · by_cases ht : t' = t
      · rw [ht]; exact hc3
      · exact (hother' t' ht).copied (other_of_copies hcmd ht).1 (other_of_copies hcmd ht).2
  · obtain ⟨hb, hst, hbuf, hgot⟩ := h.stay hnext
    refine .exec p hb hst hbuf hgot (.inl hreset') fun t' => ?_
    by_cases ht : t' = t
    · rw [ht, if_pos hcmd]; exact hadv
    · rw [if_neg (by simp [other_of_copies hcmd ht])]; exact hother' t' ht

/-- a command without memory accesses and without reset -/
theorem Phase.next_simple (h : Executing s p) (hreset : NoReset s) (hs : s.dm.curState ≠ .reset)
    (hnomem : ∀ t, ¬ p.Reads t ∧ ¬ p.Writes t) (hfresh : ∀ t, Fresh s t) : Phase (s.next e T) := by
  have hfin := finishes_of_idle h.buffer e
  have hread : ∀ t, s.dm.curState ≠ .read t ∧ s.dm.curState ≠ .write t := by
    intro t
    rw [h.state]
    exact ⟨mt (Packet.dispatch_copy t).1.1 (hnomem t).1, mt (Packet.dispatch_copy t).2.1 (hnomem t).2⟩
  have hreset' : NoReset (s.next e T) := hreset.next hfin hs
  have hfresh' : ∀ t, Fresh (s.next e T) t := fun t => (hfresh t).next hfin (hread t).1 (hread t).2
  have hcmd : p.cmd ≠ cmdReset := fun h' => hs (by rw [h.state]; exact Packet.dispatch_wire.2.2.2 h')
  have hnext : DebugModule.nextState T s.dm (s.pins e) = s.dm.curState ∨
      DebugModule.nextState T s.dm (s.pins e) = .waitSend := by
    obtain ⟨h1, h2, h3⟩ := dispatch_ne p.cmd p.len
    rw [← h.state] at h1 h2 h3
    unfold DebugModule.nextState
    split <;> simp_all
  rcases hnext with hnext | hnext
  · obtain ⟨hb, hst, hbuf, hgot⟩ := h.stay hnext
    refine .exec p hb hst hbuf hgot (.inl hreset') fun t => ?_
    rw [if_neg (by simp [hnomem t])]
    exact hfresh' t
  · refine h.finish hnext hreset'.counter ?_ (fun t => ⟨(hfresh' t).idle, (hfresh' t).ack⟩)
      fun t => (hfresh' t).copied (hnomem t).1 (hnomem t).2
    rw [if_neg hcmd, hreset'.low, hreset'.falls]

theorem Phase.next_exec (h : Executing s p) (hreset : NoReset s ∨ p.cmd = cmdReset ∧ Pulse s)
    (hcopy : ∀ t, if p.Reads t ∨ p.Writes t then Copying s p t else Fresh s t) : Phase (s.next e T) := by
  by_cases hmem : ∃ t, p.Reads t ∨ p.Writes t
  · obtain ⟨t, ht⟩ := hmem
    have hreset' : NoReset s := hreset.resolve_right fun h' => cmd_ne_reset ht h'.1
    refine next_memory (t := t) h hreset' ?_ (by simpa [ht] using hcopy t) fun t' hne => ?_
    · rw [h.state]
      exact ht.imp (fun h' => ⟨h', (Packet.dispatch_copy t).1.2 h'⟩) fun h' => ⟨h', (Packet.dispatch_copy t).2.2 h'⟩
    · simpa [other_of_copies ht hne] using hcopy t'
  · push Not at hmem
    have hfresh : ∀ t, Fresh s t := fun t => by simpa [hmem t] using hcopy t
    by_cases hcmd : p.cmd = cmdReset
    · exact next_reset h hcmd (hreset.imp_right And.right) hfresh
    · refine next_simple h (hreset.resolve_right fun h' => hcmd h'.1) ?_ hmem hfresh
      rw [h.state]
      exact mt Packet.dispatch_wire.2.2.1 hcmd

/-! ## Sending -/

/-- the reply to `p` is being sent: `k` bytes of it have left -/
structure Replying (s : System) (p : Packet) (k : ℕ) : Prop where
  busy : Busy s p
  state : s.dm.curState = .waitSend
  sending : PacketBuffer.SendingAt s.dm.buffer k
  got : s.host.got = (PacketBuffer.packet s.dm.buffer).take k
  counter : s.dm.resetController.counter = 0#4
  idle : ∀ t, (s.dm.copier t).curState = .idle ∧ (s.port t).ack = false
  readLen : ∀ t, (s.dm.copier t).readLen = if p.Reads t then p.count else s.trace.readLen t

variable {k : ℕ}

theorem Replying.req (h : Replying s p k) (e : Cycle) (t : Target) : s.req e t = false := req_of_idle (h.idle t).1 e

/-- nothing of the reply is overwritten while it is sent -/
theorem Replying.bufferIn (h : Replying s p k) (e : Cycle) :
    DebugModule.bufferIn s.dm (s.pins e) = PacketBuffer.sending e.sendReady := by
  have hout : DebugModule.outPayload s.dm (s.pins e) = none := by
    simp [DebugModule.outPayload, DebugModule.stateOutPayload, h.state,
      fun t => (DebugMemoryCopier.quiet_of_idle (h.idle t).1 (DebugModule.copierIn s.dm (s.pins e) t) false).1]
  have hready : (s.pins e).sendReady = e.sendReady := rfl
  simp [DebugModule.bufferIn, PacketBuffer.sending, DebugModule.outStatus, DebugModule.outId, DebugModule.outLen,
    DebugModule.outSendReq, h.state, hout, hready]

theorem Replying.buffer_next (h : Replying s p k) :
    (s.next e T).dm.buffer = PacketBuffer.next s.dm.buffer (PacketBuffer.sending e.sendReady) := by
  rw [← h.bufferIn e]; rfl

theorem Replying.idle_next (h : Replying s p k) (t : Target) :
    ((s.next e T).dm.copier t).curState = .idle ∧ ((s.next e T).port t).ack = false :=
  ⟨(copier_next_of_idle (h.idle t).1 (by simp [h.state]) (by simp [h.state])).1, (port_next_of_quiet (h.req e t)).2⟩

theorem Replying.readLen_next (h : Replying s p k) (t : Target) :
    ((s.next e T).dm.copier t).readLen = (s.dm.copier t).readLen :=
  (copier_next_of_idle (h.idle t).1 (by simp [h.state]) (by simp [h.state])).2

theorem Replying.outSendAck (h : Replying s p k) (e : Cycle) :
    DebugModule.outSendAck s.dm (s.pins e) = PacketBuffer.sendAck s.dm.buffer true e.sendReady := by
  simp [DebugModule.outSendAck, outSendReq, h.state, pins]

/-- sending changes neither the memories nor the trace -/
theorem Replying.trace_next (h : Replying s p k) :
    s.traceNext e (s.dmNext e T) = s.trace ∧ ∀ t, (s.portNext e t).dev = (s.port t).dev := by
  have hctr : (s.dmNext e T).resetController.counter = 0#4 := counter_next (e := e) (T := T) h.counter (by simp [h.state])
  refine ⟨?_, fun t => (port_next_of_quiet (T := T) (h.req e t)).1⟩
  have hacc : (s.traceNext e (s.dmNext e T)).accesses = s.trace.accesses :=
    funext fun t => accesses_next_of_quiet (h.req e t) _
  simp only [traceNext] at hacc ⊢
  rw [hacc]
  simp [softResetN_eq, h.counter, hctr]

/-- the transaction that ends with the reply stays the same -/
theorem Replying.transaction_next (h : Replying s p k) (reply : List Byte) :
    transaction p reply (s.traceNext e (s.dmNext e T)) (s.portNext e) = transaction p reply s.trace s.port := by
  obtain ⟨h1, h2⟩ := h.trace_next (e := e) (T := T)
  simp only [transaction, h1, h2]

/-- while the reply is not complete, sending goes on -/
theorem Replying.goOn (h : Replying s p k) {j : ℕ} (hfin : s.finishes e = false)
    (hsend : PacketBuffer.SendingAt (s.next e T).dm.buffer j)
    (hack : PacketBuffer.sendAck s.dm.buffer true e.sendReady = false)
    (hgot : s.gotNext e = (PacketBuffer.packet s.dm.buffer).take j) (hok : (s.current p).Ok) :
    Replying (s.next e T) p j ∧ ((s.next e T).current p).Ok := by
  obtain ⟨rest, hrest⟩ := h.busy.current
  have hhost : (s.next e T).host = ⟨s.host.requests, s.host.sent, s.gotNext e⟩ := by
    simp [System.next, hfin, h.busy.input]
  have hpacket : PacketBuffer.packet (s.next e T).dm.buffer = PacketBuffer.packet s.dm.buffer := by
    rw [h.buffer_next, PacketBuffer.packet_sending]
  refine ⟨⟨⟨⟨rest, by rw [hhost, hrest]⟩, by rw [hhost, h.busy.sent], ?_⟩, ?_, hsend, by rw [hhost, hpacket, hgot],
    counter_next h.counter (by simp [h.state]), h.idle_next, fun t => ?_⟩, ?_⟩
  · exact h.busy.holds.stay (by simp [DebugModule.parserIn, h.outSendAck, hack])
  · show DebugModule.nextState T s.dm (s.pins e) = _
    simp [DebugModule.nextState, h.state, h.outSendAck, hack]
  · rw [h.readLen_next, System.trace_next hfin, h.readLen]; rfl
  · have hcur : (s.next e T).current p = s.current p := by
      show transaction p (PacketBuffer.packet (s.next e T).dm.buffer) (s.next e T).trace (s.portNext e) = _
      rw [hpacket, System.trace_next hfin]
      exact h.transaction_next _
    rwa [hcur]

/-- the transaction is complete: the next request may begin -/
theorem Replying.finish (h : Replying s p k) (hfin : s.finishes e = true)
    (hbuf : (s.next e T).dm.buffer.curState = .idle)
    (hack : PacketBuffer.sendAck s.dm.buffer true e.sendReady = true) : Phase (s.next e T) := by
  have hhost : (s.next e T).host = ⟨s.host.requests.tail, 0, []⟩ := by simp [System.next, hfin]
  have hdm : (s.next e T).dm.curState = .waitInput := by
    show DebugModule.nextState T s.dm (s.pins e) = _
    simp [DebugModule.nextState, h.state, h.outSendAck, hack]
  have hreset : NoReset (s.next e T) := .start hfin h.counter (by simp [h.state])
  have hfresh : ∀ t, Fresh (s.next e T) t := fun t => ⟨.start hfin (h.req e t), (h.idle_next t).1⟩
  have hP : ∀ q, PacketParser.Receiving (s.next e T).dm.parser q 0 := fun q =>
    h.busy.holds.taken (by simp [DebugModule.parserIn, h.state, h.outSendAck, hack]) q
  obtain ⟨rest, hrest⟩ := h.busy.current
  cases rest with
  | nil =>
    refine .rest (by rw [hhost, hrest]; rfl) hdm hbuf ?_ (by rw [hhost]) hreset hfresh
    cases hP p with
    | cmd hs => exact hs
  | cons q rest =>
    exact .receive q ⟨rest, by rw [hhost, hrest]; rfl⟩ hdm hbuf (by rw [hhost]; exact hP q) (by rw [hhost]) hreset hfresh

/-- **One cycle of the reply**: it is complete, or some of its bytes are still to be sent. -/
theorem Replying.step (h : Replying s p k) (e : Cycle) :
    (s.finishes e = true ∧ PacketBuffer.sendAck s.dm.buffer true e.sendReady = true ∧
      s.gotNext e = PacketBuffer.packet s.dm.buffer ∧
      (PacketBuffer.next s.dm.buffer (PacketBuffer.sending e.sendReady)).curState = .idle) ∨
    (s.finishes e = false ∧ PacketBuffer.sendAck s.dm.buffer true e.sendReady = false ∧
      ∃ j, s.gotNext e = (PacketBuffer.packet s.dm.buffer).take j ∧
        PacketBuffer.SendingAt (PacketBuffer.next s.dm.buffer (PacketBuffer.sending e.sendReady)) j) := by
  have hlt := h.sending.lt
  cases hem : s.emitted e with
  | none =>
    have hgot : s.gotNext e = (PacketBuffer.packet s.dm.buffer).take k := by rw [gotNext, hem, h.got]; simp
    have hquiet : e.sendReady = false ∨ PacketBuffer.sendData s.dm.buffer = none := by
      simpa [emitted, DebugModule.sendData, or_iff_not_imp_left] using hem
    obtain ⟨hsend, hack⟩ := h.sending.stay hquiet
    exact .inr ⟨by simp [finishes, hem], hack, k, hgot, hsend⟩
  | some v =>
    have hready : e.sendReady = true ∧ PacketBuffer.sendData s.dm.buffer = some v := by
      simpa [emitted, DebugModule.sendData] using hem
    have hget := h.sending.sendData_eq hready.2
    have hgot : s.gotNext e = (PacketBuffer.packet s.dm.buffer).take (k + 1) := by
      rw [gotNext, hem, h.got, List.take_add_one, hget]
    have hfin : s.finishes e = decide (k + 1 = (PacketBuffer.packet s.dm.buffer).length) := by
      rw [finishes, hem, hgot, PacketBuffer.complete_take _ hlt]; rfl
    have hnext := h.sending.next (by simp [hready.2])
    rw [hready.1]
    split_ifs at hnext with hlast
    · exact .inl ⟨by rw [hfin, decide_eq_true hlast], hnext.2, by rw [hgot, hlast, List.take_length], hnext.1⟩
    · exact .inr ⟨by rw [hfin, decide_eq_false hlast], hnext.2, k + 1, hgot, hnext.1⟩

/-- with the last byte of the reply the transaction is recorded -/
theorem Phase.next_send (h : Replying s p k) (hok : (s.current p).Ok) : Phase (s.next e T) ∧
    (s.finishes e = true → s.gotNext e = PacketBuffer.packet s.dm.buffer) := by
  rcases h.step e with ⟨hfin, hack, hgot, hidle⟩ | ⟨hfin, hack, j, hgot, hsend⟩
  · rw [← h.buffer_next (T := T)] at hidle
    exact ⟨h.finish hfin hidle hack, fun _ => hgot⟩
  · rw [← h.buffer_next (T := T)] at hsend
    obtain ⟨⟨h1, h2, h3, h4, h5, h6, h7⟩, h8⟩ := h.goOn hfin hsend hack hgot hok
    exact ⟨.send p j h1 h2 h3 h4 h5 h6 h7 h8, by simp [hfin]⟩

end System

end FpgaLearning.Debug
