/-
The debug module on its own, under any bytes, errors, gaps and answers of its surroundings.

`Stage` ties the parser, the copiers, the reset counter, the timeout counter and the reply buffer to the state of the
command state machine: a frame is received, a flagged frame is drained, a packet is executed, a reply is sent.
`Stage.next` is the step, and `run_stage` says that nothing on the line can lead anywhere else.
-/
import FpgaLearning.Debug.Framing
import FpgaLearning.Debug.Transactions

namespace FpgaLearning.Debug

open FpgaLearning.Memory FpgaLearning.Clocked

/-! ## A memory command at its copier -/

namespace DebugMemoryCopier

variable {c : St} {i : In} {p : Packet} {w : Bool} {d : Byte}

/-- a read (`false`) or write (`true`) for the packet `p`; `d` is the payload byte on the parser's output -/
inductive Transfer (c : St) (d : Byte) (p : Packet) : Bool → Prop
  | start {w : Bool} (hs : c.curState = .idle) : Transfer c d p w
  | addr {w : Bool} (hs : c.curState = .addr0 ∨ c.curState = .addr1 ∨ c.curState = .addr2 ∨ c.curState = .addr3)
      (hptr : c.dataPtr = 0#8) : Transfer c d p w
  | len (hs : c.curState = .len) (hptr : c.dataPtr = 0#8) (hd : d = p.count) : Transfer c d p false
  | read (hs : c.curState = .read) (hlt : c.dataPtr.toNat < c.readLen.toNat) (hlen : c.readLen = p.count) :
      Transfer c d p false
  | write (hs : c.curState = .write) (hlt : c.dataPtr.toNat + 4 < p.payload.length) : Transfer c d p true

/-- the inputs of a copier that carries out the command of `p` -/
structure Serves (i : In) (p : Packet) (w : Bool) : Prop where
  req : i.copyReq = true
  write : i.copyWrite = w
  len : i.inpPacketLen = p.len
  args : 4 + (!w).toNat ≤ p.payload.length

theorem toNat_one : (1 : Byte).toNat = 1 := rfl

theorem toNat_four : (4 : Byte).toNat = 4 := rfl

theorem succ_lt {a b : Byte} (h : a.toNat < b.toNat) (hne : a + 1#8 ≠ b) : (a + 1#8).toNat < b.toNat := by
  bv_omega

theorem Serves.last_iff (hi : Serves i p w) (h : c.dataPtr.toNat + 4 < p.payload.length) :
    c.dataPtr + 1#8 + 4#8 = i.inpPacketLen ↔ c.dataPtr.toNat + 5 = p.payload.length := by
  have hle := p.length_le
  have hsum : (c.dataPtr + 1#8 + 4#8).toNat = c.dataPtr.toNat + 5 := by
    simp only [BitVec.toNat_add, BitVec.toNat_ofNat]
    omega
  rw [hi.len, ← p.toNat_len, ← hsum]
  exact ⟨fun h => by rw [h], fun h => BitVec.eq_of_toNat_eq h⟩

/-- the copier asks for no byte beyond the payload -/
theorem Transfer.addr_lt (h : Transfer c d p w) (hi : Serves i p w) {a : Byte} (ha : inpPacketDataAddr c i = some a) :
    a.toNat < p.payload.length := by
  have hle := p.length_le
  have hargs := hi.args
  cases h with
  | start hs =>
    obtain rfl : 0#8 = a := by simpa [inpPacketDataAddr, hs, hi.req] using ha
    exact lt_of_lt_of_le (by decide : 0 < 4) (by omega)
  | addr hs hptr =>
    rcases hs with hs | hs | hs | hs
    · obtain rfl : 1#8 = a := by simpa [inpPacketDataAddr, hs] using ha
      exact lt_of_lt_of_le (by decide : 1 < 4) (by omega)
    · obtain rfl : 2#8 = a := by simpa [inpPacketDataAddr, hs] using ha
      exact lt_of_lt_of_le (by decide : 2 < 4) (by omega)
    · obtain rfl : 3#8 = a := by simpa [inpPacketDataAddr, hs] using ha
      exact lt_of_lt_of_le (by decide : 3 < 4) (by omega)
    · simp only [inpPacketDataAddr, hs, hi.write, hi.len] at ha
      split at ha
      · cases ha
      · rename_i hgo
        obtain rfl : 4#8 = a := Option.some.inj ha
        cases w with
        | false => exact hargs
        | true =>
          have hlt : 4#8 < p.len := by simpa using hgo
          rwa [BitVec.lt_def, p.toNat_len] at hlt
  | len hs => simp [inpPacketDataAddr, hs] at ha
  | read hs => simp [inpPacketDataAddr, hs] at ha
  | write hs hlt =>
    have hlast := hi.last_iff hlt
    simp only [inpPacketDataAddr, hs] at ha
    split at ha
    · rename_i hack
      have hne := mt hlast.2 hack.2
      obtain rfl := Option.some.inj ha
      simp only [BitVec.toNat_add, toNat_one, toNat_four]
      omega
    · obtain rfl := Option.some.inj ha
      simp only [BitVec.toNat_add, toNat_four]
      omega

/-- **Copier step.** `d'` is the payload byte on the parser's output after the clock edge. -/
theorem Transfer.next (h : Transfer c i.inpPacketData p w) (hi : Serves i p w) {d' : Byte}
    (hd : ∀ a, inpPacketDataAddr c i = some a → d' = p.byte a.toNat) (hready : copyReady c i = false) :
    Transfer (next c i) d' p w := by
  cases h with
  | start hs =>
    exact .addr (.inl (by simp [DebugMemoryCopier.next, nextState, hs, hi.req])) (by simp [DebugMemoryCopier.next, hs])
  | addr hs hptr =>
    rcases hs with hs | hs | hs | hs
    · exact .addr (.inr (.inl (by simp [DebugMemoryCopier.next, nextState, hs])))
        (by simp [DebugMemoryCopier.next, hs, hptr])
    · exact .addr (.inr (.inr (.inl (by simp [DebugMemoryCopier.next, nextState, hs]))))
        (by simp [DebugMemoryCopier.next, hs, hptr])
    · exact .addr (.inr (.inr (.inr (by simp [DebugMemoryCopier.next, nextState, hs]))))
        (by simp [DebugMemoryCopier.next, hs, hptr])
    · cases w with
      | false =>
        refine .len (by simp [DebugMemoryCopier.next, nextState, hs, hi.write])
          (by simp [DebugMemoryCopier.next, hs, hptr]) ?_
        exact hd 4#8 (by simp [inpPacketDataAddr, hs, hi.write])
      | true =>
        have hlt : 4#8 < i.inpPacketLen := by simpa [copyReady, nextState, hs, hi.write] using hready
        have hlen : 4 < p.payload.length := by rwa [hi.len, BitVec.lt_def, p.toNat_len] at hlt
        refine .write (by simp [DebugMemoryCopier.next, nextState, hs, hi.write, hlt]) ?_
        simpa [DebugMemoryCopier.next, hs, hptr] using hlen
  | len hs hptr hcount =>
    have hne : i.inpPacketData ≠ 0#8 := by simpa [copyReady, nextState, hs] using hready
    refine .read (by simp [DebugMemoryCopier.next, nextState, hs, hne]) ?_ (by simp [DebugMemoryCopier.next, hs, hcount])
    have hpos : i.inpPacketData.toNat ≠ 0 := fun h => hne (BitVec.eq_of_toNat_eq h)
    simp only [DebugMemoryCopier.next, hs, hptr]
    exact Nat.pos_of_ne_zero hpos
  | read hs hlt hlen =>
    cases hack : i.dataAck with
    | false =>
      exact .read (by simp [DebugMemoryCopier.next, nextState, hs, hack])
        (by simpa [DebugMemoryCopier.next, hs, hack] using hlt) (by simp [DebugMemoryCopier.next, hs, hlen])
    | true =>
      have hne : c.dataPtr + 1#8 ≠ c.readLen := by simpa [copyReady, nextState, hs, hack] using hready
      refine .read (by simp [DebugMemoryCopier.next, nextState, hs, hack, hne]) ?_
        (by simp [DebugMemoryCopier.next, hs, hlen])
      simpa [DebugMemoryCopier.next, hs, hack] using succ_lt hlt hne
  | write hs hlt =>
    cases hack : i.dataAck with
    | false =>
      exact .write (by simp [DebugMemoryCopier.next, nextState, hs, hack])
        (by simpa [DebugMemoryCopier.next, hs, hack] using hlt)
    | true =>
      have hne : c.dataPtr + 1#8 + 4#8 ≠ i.inpPacketLen := by simpa [copyReady, nextState, hs, hack] using hready
      have hlast := mt (hi.last_iff hlt).2 hne
      have hle := p.length_le
      refine .write (by simp [DebugMemoryCopier.next, nextState, hs, hack, hne]) ?_
      have hsucc : (DebugMemoryCopier.next c i).dataPtr.toNat = c.dataPtr.toNat + 1 := by
        simp only [DebugMemoryCopier.next, hs, hack, if_true, BitVec.toNat_add, toNat_one]
        omega
      omega

/-- the packet asks for a read (`false`) or write (`true`) of at least one byte -/
def Moves (p : Packet) (w : Bool) : Prop := if w then 4 < p.payload.length else p.count ≠ 0#8

/-- only then the memory is used -/
theorem Transfer.moves (h : Transfer c d p w) {ack : Bool} (hreq : dataReq c ack = true) : Moves p w := by
  cases h with
  | start hs | len hs => simp [dataReq, hs] at hreq
  | addr hs => rcases hs with hs | hs | hs | hs <;> simp [dataReq, hs] at hreq
  | read hs hlt hlen =>
    intro hz
    rw [hlen, hz] at hlt
    exact absurd hlt (Nat.not_lt_zero _)
  | write hs hlt => exact lt_of_le_of_lt (Nat.le_add_left 4 _) hlt

/-- and without an acknowledge the transfer does not end -/
theorem Transfer.not_copyReady (h : Transfer c i.inpPacketData p w) (hi : Serves i p w) (hmoves : Moves p w)
    (hack : i.dataAck = false) : copyReady c i = false := by
  cases h with
  | start hs => simp [copyReady, hs]
  | addr hs =>
    rcases hs with hs | hs | hs | hs
    · simp [copyReady, nextState, hs]
    · simp [copyReady, nextState, hs]
    · simp [copyReady, nextState, hs]
    · cases w with
      | false => simp [copyReady, nextState, hs, hi.write]
      | true =>
        have hlt : 4#8 < i.inpPacketLen := by
          rw [hi.len, BitVec.lt_def, p.toNat_len]
          exact hmoves
        simp [copyReady, nextState, hs, hi.write, hlt]
  | len hs _ hd =>
    have hne : i.inpPacketData ≠ 0#8 := hd ▸ hmoves
    simp [copyReady, nextState, hs, hne]
  | read hs | write hs => simp [copyReady, nextState, hs, hack]

end DebugMemoryCopier

/-! ## The stages of a frame -/

namespace DebugModule

open PacketParser (Listening Shows Holds)
open DebugMemoryCopier (Transfer Serves)
open PacketBuffer (SendingAt)

variable {s : St} {i : In} {T k : ℕ} {p : Packet} {t : Target} {f : Frame}

/-- no memory command at work and the reset output high -/
structure Quiet (s : St) : Prop where
  idle : ∀ t, (s.copier t).curState = .idle
  counter : s.resetController.counter = 0#4

/-- what the packet `p` has the copier of `t` do -/
structure Copies (s : St) (p : Packet) (t : Target) : Prop where
  read : s.curState = .read t → Transfer (s.copier t) s.parser.resData p false
  write : s.curState = .write t → Transfer (s.copier t) s.parser.resData p true
  other : s.curState ≠ .read t → s.curState ≠ .write t → (s.copier t).curState = .idle

/-- the debug module while it handles one frame; the timeout counter counts from 0 and only while it drains -/
inductive Stage (T : ℕ) (s : St) : Prop
  | receive {l : List Byte} (hs : s.curState = .waitInput) (hP : Listening s.parser l) (hb : s.buffer.curState = .idle)
      (hq : Quiet s)
  | dispatch {f : Frame} (hs : s.curState = .waitInput) (hP : Shows s.parser f) (hb : s.buffer.curState = .idle)
      (hq : Quiet s) (hf : f = .flagged → s.timeoutCounter = 0)
  | drain (hs : s.curState = .waitTimeout) (hP : Shows s.parser .flagged) (hb : s.buffer.curState = .idle) (hq : Quiet s)
      (hc : s.timeoutCounter ≤ T - 1)
  | parity (hs : s.curState = .errorParity) (hP : Shows s.parser .flagged) (hb : s.buffer.curState = .idle) (hq : Quiet s)
  | exec {p : Packet} (hs : s.curState = DebugModule.dispatch p.cmd p.len) (hP : Holds s.parser p)
      (hb : s.buffer.curState = .idle) (hc : s.curState ≠ .reset → s.resetController.counter = 0#4)
      (hcopy : ∀ t, Copies s p t)
  | send {f : Frame} {k : ℕ} (hs : s.curState = .waitSend) (hP : Shows s.parser f) (hb : SendingAt s.buffer k) (hq : Quiet s)

/-! ### What one cycle leaves alone -/

theorem buffer_idle_next (h : s.buffer.curState = .idle) (hs : s.curState ≠ .waitSend) :
    (next T s i).buffer.curState = .idle := by
  simp [next, PacketBuffer.next, PacketBuffer.nextState, bufferIn, outSendReq, h, hs]

theorem not_resReady (hs : s.curState ≠ .waitSend) (i : In) : (parserIn s i).resReady = false := by
  simp [parserIn, hs]

theorem shows_next (h : Shows s.parser f) (hs : s.curState ≠ .waitSend) : Shows (next T s i).parser f :=
  h.stay (not_resReady hs i)

theorem copier_idle_next (h : (s.copier t).curState = .idle) (hr : s.curState ≠ .read t) (hw : s.curState ≠ .write t) :
    ((next T s i).copier t).curState = .idle :=
  (DebugMemoryCopier.next_of_idle (i := copierIn s i t) h (by simp [copierIn, hr, hw])).1

theorem counter_next (h : s.resetController.counter = 0#4) (hs : s.curState ≠ .reset) :
    (next T s i).resetController.counter = 0#4 := by
  simp [next, ResetController.next, ResetController.resetN, h, softResetReq, hs]

theorem Quiet.next (h : Quiet s) (hs : s.curState = .waitInput ∨ s.curState = .waitTimeout ∨ s.curState = .errorParity ∨
    s.curState = .waitSend) : Quiet (next T s i) := by
  have hne : s.curState ≠ .reset ∧ ∀ t, s.curState ≠ .read t ∧ s.curState ≠ .write t := by
    rcases hs with hs | hs | hs | hs <;> simp [hs]
  exact ⟨fun t => copier_idle_next (h.idle t) (hne.2 t).1 (hne.2 t).2, counter_next h.counter hne.1⟩

/-! ### Receiving and draining -/

theorem Stage.next_receive {l : List Byte} (hs : s.curState = .waitInput) (hP : Listening s.parser l)
    (hb : s.buffer.curState = .idle) (hq : Quiet s) : Stage T (next T s i) := by
  have hs' : (next T s i).curState = .waitInput := by simp [DebugModule.next, nextState, hs, hP.resValid]
  have hb' : (next T s i).buffer.curState = .idle := buffer_idle_next hb (by simp [hs])
  have hq' : Quiet (next T s i) := hq.next (.inl hs)
  cases hv : i.inputValid with
  | false => exact .receive hs' (hP.stay (i := parserIn s i) hv) hb' hq'
  | true =>
    cases he : i.inputError with
    | true =>
      obtain ⟨h1, h2⟩ := hP.error (i := parserIn s i) hv he
      exact .dispatch (f := .flagged) hs' (.flagged h1 h2) hb' hq' fun _ => by simp [DebugModule.next, hv]
    | false =>
      rcases hP.byte (i := parserIn s i) hv he with ⟨p, -, hp⟩ | hl
      · exact .dispatch (f := .packet p) hs' (.packet hp) hb' hq' fun h => nomatch h
      · exact .receive hs' hl hb' hq'

theorem Stage.next_dispatch (hs : s.curState = .waitInput) (hP : Shows s.parser f) (hb : s.buffer.curState = .idle)
    (hq : Quiet s) (hf : f = .flagged → s.timeoutCounter = 0) : Stage T (next T s i) := by
  have hP' : Shows (next T s i).parser f := shows_next hP (by simp [hs])
  have hb' : (next T s i).buffer.curState = .idle := buffer_idle_next hb (by simp [hs])
  have hq' : Quiet (next T s i) := hq.next (.inl hs)
  have hvalid := hP.resValid
  cases hP with
  | flagged hr he =>
    have hcount : (next T s i).timeoutCounter = 0 := by
      simp [DebugModule.next, hs, hf rfl]
    exact .drain (by simp [DebugModule.next, nextState, hs, hvalid, he]) hP' hb' hq' (by omega)
  | @packet p hp =>
    refine .exec (p := p) ?_ (hp.stay (not_resReady (by simp [hs]) i)) hb' (fun _ => hq'.counter) fun t => ?_
    · simp [DebugModule.next, nextState, hs, hvalid, hp.error, hp.cmd, hp.len]
    · exact ⟨fun _ => .start (hq'.idle t), fun _ => .start (hq'.idle t), fun _ _ => hq'.idle t⟩

theorem Stage.next_drain (hs : s.curState = .waitTimeout) (hP : Shows s.parser .flagged) (hb : s.buffer.curState = .idle)
    (hq : Quiet s) (hc : s.timeoutCounter ≤ T - 1) : Stage T (next T s i) := by
  have hP' : Shows (next T s i).parser .flagged := shows_next hP (by simp [hs])
  have hb' : (next T s i).buffer.curState = .idle := buffer_idle_next hb (by simp [hs])
  have hq' : Quiet (next T s i) := hq.next (.inr (.inl hs))
  by_cases hT : s.timeoutCounter = T - 1
  · exact .parity (by simp [DebugModule.next, nextState, hs, hT]) hP' hb' hq'
  · refine .drain (by simp [DebugModule.next, nextState, hs, hT]) hP' hb' hq' ?_
    simp only [DebugModule.next, hs]
    split
    · exact Nat.zero_le _
    · have hle := Nat.mod_le (s.timeoutCounter + 1) (2 ^ Nat.clog 2 T)
      simp only [if_true]
      omega

theorem Stage.next_parity (hs : s.curState = .errorParity) (hP : Shows s.parser .flagged)
    (hb : s.buffer.curState = .idle) (hq : Quiet s) : Stage T (next T s i) :=
  .send (by simp [DebugModule.next, nextState, hs]) (shows_next hP (by simp [hs]))
    (.idle (buffer_idle_next hb (by simp [hs]))) (hq.next (.inr (.inr (.inl hs))))

/-! ### Executing and replying -/

/-- a command waits, or its reply begins -/
theorem nextState_of_exec (hs : s.curState = DebugModule.dispatch p.cmd p.len) (i : In) :
    nextState T s i = s.curState ∨ nextState T s i = .waitSend := by
  obtain ⟨h1, h2, h3⟩ := dispatch_ne p.cmd p.len
  rw [← hs] at h1 h2 h3
  unfold nextState
  split
  all_goals first
    | exact absurd ‹_› h1
    | exact absurd ‹_› h2
    | exact absurd ‹_› h3
    | exact .inr rfl
    | (split
       · exact .inr rfl
       · rename_i h _
         exact .inl h.symm)

/-- the copier of a command in its state machine -/
theorem othersIdle_of_copies (hcopy : ∀ t, Copies s p t) (hs : s.curState = .read t ∨ s.curState = .write t) :
    OthersIdle s t := by
  intro t' hne
  have hr : s.curState ≠ .read t' := by rcases hs with hs | hs <;> simp [hs, hne.symm]
  have hw : s.curState ≠ .write t' := by rcases hs with hs | hs <;> simp [hs, hne.symm]
  exact ⟨(hcopy t').other hr hw, hr, hw⟩

/-- the inputs of the copier at work -/
theorem serves_of_read (hs : s.curState = DebugModule.dispatch p.cmd p.len) (hP : Holds s.parser p)
    (hr : s.curState = .read t) (i : In) : Serves (copierIn s i t) p false := by
  have hargs := ((Packet.dispatch_copy t).1.1 (hs ▸ hr)).2
  exact ⟨by simp [copierIn, hr], by simp [copierIn, hr], hP.len, hargs⟩

theorem serves_of_write (hs : s.curState = DebugModule.dispatch p.cmd p.len) (hP : Holds s.parser p)
    (hw : s.curState = .write t) (i : In) : Serves (copierIn s i t) p true := by
  have hargs := ((Packet.dispatch_copy t).2.1 (hs ▸ hw)).2
  exact ⟨by simp [copierIn, hw], by simp [copierIn, hw], hP.len, hargs⟩

/-- while a command waits its copier is not ready -/
theorem not_copyReady_of_wait (hs : s.curState = .read t ∨ s.curState = .write t) (hstay : nextState T s i = s.curState) :
    DebugMemoryCopier.copyReady (s.copier t) (copierIn s i t) = false := by
  by_contra hready
  have hready : copyReady s i t = true := Bool.eq_true_of_not_eq_false hready
  rcases hs with hs | hs <;> simp [nextState, hs, hready] at hstay

/-- and when its reply begins the copier has finished -/
theorem idle_of_done (hs : s.curState = .read t ∨ s.curState = .write t) (hdone : nextState T s i = .waitSend) :
    ((next T s i).copier t).curState = .idle := by
  have hready : copyReady s i t = true := by
    rcases hs with hs | hs <;> simpa [nextState, hs] using hdone
  simp only [copyReady, DebugMemoryCopier.copyReady, Bool.and_eq_true, beq_iff_eq] at hready
  exact hready.2

theorem Copies.next (h : Copies s p t) (hothers : ∀ t, Copies s p t) (hs : s.curState = DebugModule.dispatch p.cmd p.len)
    (hP : Holds s.parser p) (hstay : nextState T s i = s.curState) : Copies (next T s i) p t := by
  have hstay' : (DebugModule.next T s i).curState = s.curState := hstay
  have hdata : ∀ {w}, (s.curState = .read t ∨ s.curState = .write t) → Transfer (s.copier t) s.parser.resData p w →
      Serves (copierIn s i t) p w →
        Transfer ((DebugModule.next T s i).copier t) (DebugModule.next T s i).parser.resData p w := by
    intro w hc htr hsv
    refine Transfer.next (i := copierIn s i t) htr hsv (fun a ha => ?_) (not_copyReady_of_wait hc hstay)
    refine hP.read (i := parserIn s i) ?_ (htr.addr_lt hsv ha)
    rw [← ha]
    exact inpPacketDataAddr_of_othersIdle (othersIdle_of_copies hothers hc) i
  refine ⟨fun hr => ?_, fun hw => ?_, fun hr hw => ?_⟩
  · rw [hstay'] at hr
    exact hdata (.inl hr) (h.read hr) (serves_of_read hs hP hr i)
  · rw [hstay'] at hw
    exact hdata (.inr hw) (h.write hw) (serves_of_write hs hP hw i)
  · rw [hstay'] at hr hw
    exact copier_idle_next (h.other hr hw) hr hw

theorem Stage.next_exec (hs : s.curState = DebugModule.dispatch p.cmd p.len) (hP : Holds s.parser p)
    (hb : s.buffer.curState = .idle) (hc : s.curState ≠ .reset → s.resetController.counter = 0#4)
    (hcopy : ∀ t, Copies s p t) : Stage T (next T s i) := by
  have hne : s.curState ≠ .waitSend := by rw [hs]; exact (dispatch_ne _ _).2.2
  have hP' : Holds (next T s i).parser p := hP.stay (not_resReady hne i)
  have hb' : (next T s i).buffer.curState = .idle := buffer_idle_next hb hne
  rcases nextState_of_exec (T := T) hs i with hstay | hdone
  · have hstay' : (next T s i).curState = s.curState := hstay
    refine .exec (p := p) (hstay'.trans hs) hP' hb' (fun h => ?_) fun t => (hcopy t).next hcopy hs hP hstay
    rw [hstay'] at h
    exact counter_next (hc h) h
  · refine .send (f := .packet p) (k := 0) hdone (.packet hP') (.idle hb') ⟨fun t => ?_, ?_⟩
    · by_cases h : s.curState = .read t ∨ s.curState = .write t
      · exact idle_of_done h hdone
      · obtain ⟨hr, hw⟩ := not_or.1 h
        exact copier_idle_next ((hcopy t).other hr hw) hr hw
    · by_cases hreset : s.curState = .reset
      · have hone : s.resetController.counter = 1#4 := by
          simpa [nextState, hreset, ResetController.ack] using hdone
        simp [DebugModule.next, ResetController.next, ResetController.resetN, hone]
      · exact counter_next (hc hreset) hreset

/-- the reply buffer is only asked to send -/
theorem bufferIn_of_waitSend (hs : s.curState = .waitSend) (hq : Quiet s) (i : In) :
    bufferIn s i = PacketBuffer.sending i.sendReady := by
  have hout : ∀ t, DebugMemoryCopier.outPacket (s.copier t) (copierIn s i t) = none := fun t =>
    (DebugMemoryCopier.quiet_of_idle (hq.idle t) _ false).1
  simp [bufferIn, PacketBuffer.sending, outStatus, outId, outLen, outSendReq, outPayload, stateOutPayload, hout, hs]

theorem outSendAck_of_waitSend (hs : s.curState = .waitSend) (i : In) :
    outSendAck s i = PacketBuffer.sendAck s.buffer true i.sendReady := by
  simp [outSendAck, outSendReq, hs]

/-- the reply goes on -/
theorem Stage.next_wait (hs : s.curState = .waitSend) (hP : Shows s.parser f) (hq : Quiet s)
    (hb : SendingAt (next T s i).buffer k) (hack : outSendAck s i = false) : Stage T (next T s i) :=
  .send (by simp [DebugModule.next, nextState, hs, hack]) (hP.stay (i := parserIn s i) (by simp [parserIn, hs, hack])) hb
    (hq.next (.inr (.inr (.inr hs))))

/-- the last byte of the reply is taken -/
theorem Stage.next_taken (hs : s.curState = .waitSend) (hP : Shows s.parser f) (hq : Quiet s)
    (hb : (next T s i).buffer.curState = .idle) (hack : outSendAck s i = true) : Stage T (next T s i) :=
  .receive (by simp [DebugModule.next, nextState, hs, hack]) (hP.taken (i := parserIn s i) (by simp [parserIn, hs, hack]))
    hb (hq.next (.inr (.inr (.inr hs))))

theorem Stage.next_send (hs : s.curState = .waitSend) (hP : Shows s.parser f) (hb : SendingAt s.buffer k) (hq : Quiet s) :
    Stage T (next T s i) := by
  have hbuf : (next T s i).buffer = PacketBuffer.next s.buffer (PacketBuffer.sending i.sendReady) := by
    rw [← bufferIn_of_waitSend hs hq]
    rfl
  have hack := outSendAck_of_waitSend hs i
  by_cases hgo : i.sendReady = false ∨ PacketBuffer.sendData s.buffer = none
  · obtain ⟨h1, h2⟩ := hb.stay hgo
    exact .next_wait hs hP hq (hbuf ▸ h1) (hack.trans h2)
  · obtain ⟨hready, hdata⟩ := not_or.1 hgo
    have hready : i.sendReady = true := Bool.eq_true_of_not_eq_false hready
    have hnext := hb.next (Option.isSome_iff_ne_none.2 hdata)
    rw [hready] at hbuf hack
    split at hnext
    · exact .next_taken hs hP hq (hbuf ▸ hnext.1) (hack.trans hnext.2)
    · exact .next_wait hs hP hq (hbuf ▸ hnext.1) (hack.trans hnext.2)

/-- a memory command is dispatched, or it goes on -/
theorem nextState_of_copy {q : State} (hq : q = .read t ∨ q = .write t) (h : nextState T s i = q) :
    s.curState = .waitInput ∨ s.curState = q := by
  cases hs : s.curState with
  | waitInput => exact .inl rfl
  | read t' =>
    rcases hq with rfl | rfl
    · simp only [nextState, hs] at h
      split at h
      · cases h
      · exact .inr h
    · simp only [nextState, hs] at h
      split at h <;> cases h
  | write t' =>
    rcases hq with rfl | rfl
    · simp only [nextState, hs] at h
      split at h <;> cases h
    · simp only [nextState, hs] at h
      split at h
      · cases h
      · exact .inr h
  | waitTimeout | halt | resume | reset | waitSend =>
    simp only [nextState, hs] at h
    rcases hq with rfl | rfl <;> split at h <;> cases h
  | state | errorParity | errorArgs | errorCmd =>
    simp only [nextState, hs] at h
    rcases hq with rfl | rfl <;> cases h

/-- the copier of a memory command at work -/
theorem Stage.transfer (h : Stage T s) (hs : s.curState = .read t ∨ s.curState = .write t) :
    ∃ p w, Holds s.parser p ∧ w = (s.curState == .write t) ∧ Transfer (s.copier t) s.parser.resData p w ∧
      ∀ i, Serves (copierIn s i t) p w := by
  cases h with
  | receive h' | dispatch h' | drain h' | parity h' | send h' => rcases hs with hs | hs <;> simp [hs] at h'
  | @exec p h' hP hb hc hcopy =>
    rcases hs with hs | hs
    · exact ⟨p, false, hP, by simp [hs], (hcopy t).read hs, serves_of_read h' hP hs⟩
    · exact ⟨p, true, hP, by simp [hs], (hcopy t).write hs, serves_of_write h' hP hs⟩

/-- **One cycle of a memory command** that is not yet done: its rank falls, or its memory is waited for. -/
theorem Stage.rank_next (h : Stage T s) (hs : s.curState = .read t ∨ s.curState = .write t)
    (hstay : nextState T s i = s.curState) {b : Bool} (hack : i.dataAck t = true → b = false) :
    DebugMemoryCopier.rank ((DebugModule.next T s i).copier t) s.parser.resLen b <
        DebugMemoryCopier.rank (s.copier t) s.parser.resLen (i.dataAck t) ∨
      (DebugMemoryCopier.dataReq (s.copier t) (i.dataAck t) = true ∧ b = false ∧
        DebugMemoryCopier.rank ((DebugModule.next T s i).copier t) s.parser.resLen b =
          DebugMemoryCopier.rank (s.copier t) s.parser.resLen (i.dataAck t)) := by
  obtain ⟨p, w, hP, -, htr, hsv⟩ := h.transfer hs
  refine DebugMemoryCopier.rank_next (i := copierIn s i t) (hsv i).req hack (fun hc => ?_) (fun hc => ?_)
    (not_copyReady_of_wait hs hstay)
  · cases htr with
    | read _ hlt => exact hlt
    | addr hc' => rcases hc' with hc' | hc' | hc' | hc' <;> simp [hc'] at hc
    | start hc' | len hc' | write hc' => simp [hc'] at hc
  · cases htr with
    | write _ hlt =>
      have hlen : (copierIn s i t).inpPacketLen = p.len := hP.len
      rw [hlen, p.toNat_len]
      exact Nat.lt_of_le_of_lt (Nat.le_add_right _ 4) hlt
    | addr hc' => rcases hc' with hc' | hc' | hc' | hc' <;> simp [hc'] at hc
    | start hc' | len hc' | read hc' => simp [hc'] at hc

/-- only the reset command pulls the reset output low -/
theorem Stage.softResetN (h : Stage T s) (hs : s.curState ≠ .reset) : softResetN s = true := by
  have hc : s.resetController.counter = 0#4 := by
    cases h with
    | receive _ _ _ hq | dispatch _ _ _ hq | drain _ _ _ hq | parity _ _ _ hq | send _ _ _ hq => exact hq.counter
    | exec _ _ _ hc => exact hc hs
  simp [DebugModule.softResetN, ResetController.resetN, hc]

/-! ### Runs -/

/-- **Step.** Whatever is on the inputs. -/
theorem Stage.next (h : Stage T s) (i : In) : Stage T (next T s i) := by
  cases h with
  | receive hs hP hb hq => exact .next_receive hs hP hb hq
  | dispatch hs hP hb hq hf => exact .next_dispatch hs hP hb hq hf
  | drain hs hP hb hq hc => exact .next_drain hs hP hb hq hc
  | parity hs hP hb hq => exact .next_parity hs hP hb hq
  | exec hs hP hb hc hcopy => exact .next_exec hs hP hb hc hcopy
  | send hs hP hb hq => exact .next_send hs hP hb hq

theorem Stage.reset (T : ℕ) (s : St) : Stage T (reset s) :=
  .receive rfl (.reset _) rfl ⟨fun _ => rfl, rfl⟩

/-- **Run.** -/
theorem run_stage (T : ℕ) (s : St) (i : ℕ → In) (n : ℕ) : Stage T (run (DebugModule.next T) i (DebugModule.reset s) n) :=
  run_inv (Stage T) (fun _ _ => True) (.reset T s) (fun _ i h _ => h.next i) (fun _ => trivial) n

end DebugModule

end FpgaLearning.Debug
