/-
Debug modules that no input can tell apart.

Two states `Agree` when they differ only in registers that the next packet overwrites before anything reads them: the
parser's, the timeout counter and the header of the last reply. On error-free input agreeing states stay agreeing
(`Agree.next`) and drive the same outputs (`Agree.outputs`).
-/
import FpgaLearning.Debug.Session

namespace FpgaLearning.Debug

open FpgaLearning.Memory FpgaLearning.Clocked

namespace DebugModule

open PacketParser (Listening Shows Holds)
open DebugMemoryCopier (Transfer Serves)

variable {s s' : St} {i : In} {T : ℕ} {p : Packet} {t : Target}

/-! ## What the module drives -/

/-- all outputs of one cycle; a memory port counts only while it requests -/
structure Outputs where
  haltReq : Bool
  resumeReq : Bool
  softResetN : Bool
  sendData : Option Byte
  memory : Target → Option MemReq

def outputs (s : St) (i : In) : Outputs where
  haltReq := haltReq s
  resumeReq := resumeReq s
  softResetN := softResetN s
  sendData := sendData s
  memory t := if req s i t then some (out s t) else none

/-- the inputs carry no receive error -/
def Clean (i : In) : Prop := i.inputValid = true → i.inputError = false

/-! ## Agreement -/

/-- equal up to the data pointer of an idle copier, which the next cycle clears -/
structure CopierAgree (c c' : DebugMemoryCopier.St) : Prop where
  state : c.curState = c'.curState
  addr : c.startAddr = c'.startAddr
  readLen : c.readLen = c'.readLen
  ptr : c.curState ≠ .idle → c.dataPtr = c'.dataPtr

/-- equal up to the header of a reply that is not being sent -/
structure BufferAgree (b b' : PacketBuffer.St) (replying : Prop) : Prop where
  state : b.curState = b'.curState
  payload : b.payloadDataBuf = b'.payloadDataBuf
  header : replying → b.statusReg = b'.statusReg ∧ b.idReg = b'.idReg ∧ b.lenReg = b'.lenReg
  ptr : b.curState ≠ .idle → b.dataPtr = b'.dataPtr

/-- both parsers have read the same bytes of a packet, or hold the same packet -/
inductive ParserAgree (s s' : St) : Prop
  | receiving {l : List Byte} (hs : s.curState = .waitInput) (h : Listening s.parser l) (h' : Listening s'.parser l)
  | holding {p : Packet} (h : Holds s.parser p) (h' : Holds s'.parser p)

/-- the registers that anything can still read are equal -/
structure Agree (s s' : St) : Prop where
  state : s.curState = s'.curState
  parser : ParserAgree s s'
  resData : s.parser.resData = s'.parser.resData
  copier : ∀ t, CopierAgree (s.copier t) (s'.copier t)
  buffer : BufferAgree s.buffer s'.buffer (s.curState = .waitSend)
  counter : s.resetController = s'.resetController

/-! ### Copiers -/

theorem CopierAgree.eq {c c' : DebugMemoryCopier.St} (h : CopierAgree c c') (hne : c.curState ≠ .idle) : c = c' := by
  have hptr := h.ptr hne
  obtain ⟨a, b, d, e⟩ := c
  obtain ⟨a', b', d', e'⟩ := c'
  obtain ⟨h1, h2, h3, -⟩ := h
  dsimp only at h1 h2 h3 hptr
  rw [h1, h2, h3, hptr]

/-- an idle copier looks at the request only -/
theorem CopierAgree.idle {c c' : DebugMemoryCopier.St} (h : CopierAgree c c') (hs : c.curState = .idle)
    {j j' : DebugMemoryCopier.In} (hj : j.copyReq = j'.copyReq) :
    CopierAgree (DebugMemoryCopier.next c j) (DebugMemoryCopier.next c' j') ∧
      DebugMemoryCopier.inpPacketDataAddr c j = DebugMemoryCopier.inpPacketDataAddr c' j' ∧
      DebugMemoryCopier.outPacket c j = DebugMemoryCopier.outPacket c' j' ∧
      DebugMemoryCopier.copyReady c j = DebugMemoryCopier.copyReady c' j' := by
  have hs' : c'.curState = .idle := h.state ▸ hs
  refine ⟨⟨?_, ?_, ?_, fun _ => ?_⟩, ?_, ?_, ?_⟩
  · simp [DebugMemoryCopier.next, DebugMemoryCopier.nextState, hs, hs', hj]
  · simp [DebugMemoryCopier.next, hs, hs', h.addr]
  · simp [DebugMemoryCopier.next, hs, hs', h.readLen]
  · simp [DebugMemoryCopier.next, hs, hs']
  · simp [DebugMemoryCopier.inpPacketDataAddr, hs, hs', hj]
  · simp [DebugMemoryCopier.outPacket, hs, hs']
  · simp [DebugMemoryCopier.copyReady, hs, hs']

theorem CopierAgree.refl (c : DebugMemoryCopier.St) : CopierAgree c c := ⟨rfl, rfl, rfl, fun _ => rfl⟩

/-- while a packet is awaited no copier is at work -/
theorem Stage.quiet (h : Stage T s) (hs : s.curState = .waitInput) : Quiet s := by
  cases h with
  | receive _ _ _ hq => exact hq
  | dispatch _ _ _ hq => exact hq
  | drain h' => rw [hs] at h'; cases h'
  | parity h' => rw [hs] at h'; cases h'
  | exec h' => exact absurd (h' ▸ hs) (dispatch_ne _ _).1
  | send h' => rw [hs] at h'; cases h'

/-- **Copiers.** What a copier shows is the same, and it goes on in agreement. -/
theorem Agree.copiers (h : Agree s s') (hst : Stage T s) (i : In) (t : Target) :
    CopierAgree (DebugMemoryCopier.next (s.copier t) (copierIn s i t))
        (DebugMemoryCopier.next (s'.copier t) (copierIn s' i t)) ∧
      DebugMemoryCopier.inpPacketDataAddr (s.copier t) (copierIn s i t) =
        DebugMemoryCopier.inpPacketDataAddr (s'.copier t) (copierIn s' i t) ∧
      DebugMemoryCopier.outPacket (s.copier t) (copierIn s i t) =
        DebugMemoryCopier.outPacket (s'.copier t) (copierIn s' i t) ∧
      DebugMemoryCopier.copyReady (s.copier t) (copierIn s i t) =
        DebugMemoryCopier.copyReady (s'.copier t) (copierIn s' i t) := by
  have hreq : (copierIn s i t).copyReq = (copierIn s' i t).copyReq := by simp [copierIn, h.state]
  by_cases hidle : (s.copier t).curState = .idle
  · exact (h.copier t).idle hidle hreq
  · cases h.parser with
    | receiving hs => exact absurd ((hst.quiet hs).idle t) hidle
    | holding hp hp' =>
      have hin : copierIn s i t = copierIn s' i t := by simp [copierIn, h.state, h.resData, hp.len, hp'.len]
      rw [hin, (h.copier t).eq hidle]
      exact ⟨.refl _, rfl, rfl, rfl⟩

theorem Agree.inpPacketDataAddr (h : Agree s s') (hst : Stage T s) (i : In) :
    inpPacketDataAddr s i = inpPacketDataAddr s' i := by
  unfold DebugModule.inpPacketDataAddr
  rw [(h.copiers hst i .prog).2.1, (h.copiers hst i .data).2.1]

theorem Agree.outPayload (h : Agree s s') (hst : Stage T s) (i : In) : outPayload s i = outPayload s' i := by
  unfold DebugModule.outPayload stateOutPayload
  rw [(h.copiers hst i .prog).2.2.1, (h.copiers hst i .data).2.2.1, h.state]

/-- the payload buffer is read for a packet that is held, and inside its payload -/
theorem Stage.read_held (hst : Stage T s) {a : Byte} (ha : inpPacketDataAddr s i = some a) :
    ∃ p, Holds s.parser p ∧ a.toNat < p.payload.length := by
  have hnone : (∀ t, (s.copier t).curState = .idle) → (∀ t, s.curState ≠ .read t ∧ s.curState ≠ .write t) → False := by
    intro hidle hs
    have hno : ∀ t, DebugMemoryCopier.inpPacketDataAddr (s.copier t) (copierIn s i t) = none := by
      intro t
      simp [DebugMemoryCopier.inpPacketDataAddr, hidle t, copierIn, hs t]
    simp [DebugModule.inpPacketDataAddr, hno] at ha
  cases hst with
  | receive hs _ _ hq => exact absurd (hnone hq.idle (by simp [hs])) id
  | dispatch hs _ _ hq => exact absurd (hnone hq.idle (by simp [hs])) id
  | drain hs _ _ hq => exact absurd (hnone hq.idle (by simp [hs])) id
  | parity hs _ _ hq => exact absurd (hnone hq.idle (by simp [hs])) id
  | send hs _ _ hq => exact absurd (hnone hq.idle (by simp [hs])) id
  | @exec p hs hP hb hc hcopy =>
    refine ⟨p, hP, ?_⟩
    have hread : ∀ t w, (s.curState = .read t ∨ s.curState = .write t) → Transfer (s.copier t) s.parser.resData p w →
        Serves (copierIn s i t) p w → a.toNat < p.payload.length := by
      intro t w hc htr hsv
      rw [inpPacketDataAddr_of_othersIdle (othersIdle_of_copies hcopy hc)] at ha
      exact htr.addr_lt hsv ha
    by_cases h : ∃ t, s.curState = .read t ∨ s.curState = .write t
    · obtain ⟨t, hr | hw⟩ := h
      · exact hread t false (.inl hr) ((hcopy t).read hr) (serves_of_read hs hP hr i)
      · exact hread t true (.inr hw) ((hcopy t).write hw) (serves_of_write hs hP hw i)
    · have hno : ∀ t, s.curState ≠ .read t ∧ s.curState ≠ .write t := fun t => not_or.1 (not_exists.1 h t)
      exact absurd (hnone (fun t => (hcopy t).other (hno t).1 (hno t).2) hno) id

theorem Agree.resData_next (h : Agree s s') (hst : Stage T s) (i : In) :
    (next T s i).parser.resData = (next T s' i).parser.resData := by
  have haddr := h.inpPacketDataAddr hst i
  cases ha : DebugModule.inpPacketDataAddr s i with
  | none =>
    have ha' : DebugModule.inpPacketDataAddr s' i = none := haddr ▸ ha
    simp [next, PacketParser.next, parserIn, ha, ha', h.resData]
  | some a =>
    have ha' : DebugModule.inpPacketDataAddr s' i = some a := haddr ▸ ha
    obtain ⟨p, hp, hlt⟩ := hst.read_held ha
    cases h.parser with
    | receiving hs hl => exact absurd hl.resValid (by simp [PacketParser.resValid, hp.ready])
    | @holding q hq hq' =>
      have hlen : p.len = q.len := hp.len.symm.trans hq.len
      have hlt' : a.toNat < q.payload.length := by rwa [← q.toNat_len, ← hlen, p.toNat_len]
      exact (hq.read (i := parserIn s i) ha hlt').trans (hq'.read (i := parserIn s' i) ha' hlt').symm

/-! ### The reply -/

theorem BufferAgree.shows {b b' : PacketBuffer.St} {R : Prop} (h : BufferAgree b b' R) (hR : b.curState ≠ .idle → R)
    (req ready : Bool) : PacketBuffer.nextState b req ready = PacketBuffer.nextState b' req ready ∧
      PacketBuffer.sendData b = PacketBuffer.sendData b' := by
  have hs := h.state
  by_cases hidle : b.curState = .idle
  · have hidle' : b'.curState = .idle := hs ▸ hidle
    simp [PacketBuffer.nextState, PacketBuffer.sendData, hidle, hidle']
  · obtain ⟨hstatus, hid, hlen⟩ := h.header (hR hidle)
    unfold PacketBuffer.nextState PacketBuffer.sendData
    rw [← hs, hstatus, hid, hlen, h.payload, h.ptr hidle]
    exact ⟨rfl, rfl⟩

theorem Stage.sending (h : Stage T s) (hb : s.buffer.curState ≠ .idle) : s.curState = .waitSend := by
  cases h with
  | receive _ _ hb' => exact absurd hb' hb
  | dispatch _ _ hb' => exact absurd hb' hb
  | drain _ _ hb' => exact absurd hb' hb
  | parity _ _ hb' => exact absurd hb' hb
  | exec _ _ hb' => exact absurd hb' hb
  | send hs => exact hs

theorem Agree.outSendAck (h : Agree s s') (hst : Stage T s) (i : In) : outSendAck s i = outSendAck s' i := by
  unfold DebugModule.outSendAck PacketBuffer.sendAck outSendReq
  rw [← h.state, ← h.buffer.state, (h.buffer.shows hst.sending _ _).1]

/-- a reply begins from a command or an error, never from the line -/
theorem nextState_eq_waitSend (h : nextState T s i = .waitSend) :
    s.curState ≠ .waitInput ∧ s.curState ≠ .waitTimeout := by
  constructor
  · intro hs
    simp only [nextState, hs] at h
    split at h
    · split at h
      · cases h
      · exact (dispatch_ne _ _).2.2 h
    · cases h
  · intro hs
    simp only [nextState, hs] at h
    split at h <;> cases h

/-- the header of the reply, where one is written -/
theorem Agree.header (h : Agree s s') : outStatus s = outStatus s' ∧ outId s = outId s' ∧ outLen s = outLen s' := by
  refine ⟨by unfold outStatus; rw [h.state], ?_, ?_⟩
  · cases h.parser with
    | receiving hs => simp [outId, hs, ← h.state]
    | holding hp hp' =>
      unfold outId
      rw [h.state, hp.id, hp'.id]
  · unfold outLen
    rw [← h.state]
    split
    · rfl
    · rfl
    · rfl
    · rfl
    · rw [(h.copier _).readLen]
    · rfl

theorem header_isSome (h1 : s.curState ≠ .waitInput) (h2 : s.curState ≠ .waitTimeout) (h3 : s.curState ≠ .waitSend) :
    (outStatus s).isSome = true ∧ (outId s).isSome = true ∧ (outLen s).isSome = true := by
  unfold outStatus outId outLen
  cases hs : s.curState <;> simp_all

theorem getD_congr {α : Type*} {o o' : Option α} (h : o = o') (hsome : o.isSome = true) (d d' : α) :
    o.getD d = o'.getD d' := by
  subst h
  obtain ⟨v, rfl⟩ := Option.isSome_iff_exists.1 hsome
  rfl

theorem Agree.buffer_next (h : Agree s s') (hst : Stage T s) (i : In) :
    BufferAgree (next T s i).buffer (next T s' i).buffer ((next T s i).curState = .waitSend) := by
  obtain ⟨hstate, -⟩ := h.buffer.shows hst.sending (outSendReq s) i.sendReady
  have hreq : outSendReq s = outSendReq s' := by simp [outSendReq, h.state]
  obtain ⟨hstatus, hid, hlen⟩ := h.header
  refine ⟨?_, ?_, fun hnext => ?_, fun hne => ?_⟩
  · simp only [next, PacketBuffer.next, bufferIn, ← hreq]
    exact hstate
  · simp only [next, PacketBuffer.next, bufferIn, h.outPayload hst, h.buffer.payload]
  · obtain ⟨h1, h2⟩ := nextState_eq_waitSend hnext
    simp only [next, PacketBuffer.next, bufferIn]
    by_cases hs : s.curState = .waitSend
    · obtain ⟨r1, r2, r3⟩ := h.buffer.header hs
      rw [hstatus, hid, hlen, r1, r2, r3]
      exact ⟨rfl, rfl, rfl⟩
    · obtain ⟨s1, s2, s3⟩ := header_isSome h1 h2 hs
      exact ⟨getD_congr hstatus s1 _ _, getD_congr hid s2 _ _, getD_congr hlen s3 _ _⟩
  · simp only [next, PacketBuffer.next, bufferIn, ← hreq, ← h.buffer.state]
    by_cases hidle : s.buffer.curState = .idle
    · have hsend : outSendReq s = true := by
        by_contra hno
        exact hne (by simp [next, PacketBuffer.next, PacketBuffer.nextState, bufferIn, hidle, hno])
      simp [hidle, hsend]
    · rw [h.buffer.ptr hidle]
      rfl

/-! ### The step -/

theorem Agree.parser_next (h : Agree s s') (hst : Stage T s) (hi : Clean i) :
    ParserAgree (next T s i) (next T s' i) := by
  cases h.parser with
  | @receiving l hs hl hl' =>
    have hs' : (next T s i).curState = .waitInput := by simp [next, nextState, hs, hl.resValid]
    cases hv : i.inputValid with
    | false => exact .receiving hs' (hl.stay (i := parserIn s i) hv) (hl'.stay (i := parserIn s' i) hv)
    | true =>
      have he := hi hv
      rcases hl.byte (i := parserIn s i) hv he with ⟨p, hbytes, hp⟩ | hu
      · rcases hl'.byte (i := parserIn s' i) hv he with ⟨q, hbytes', hq⟩ | hu'
        · obtain rfl : p = q := Packet.bytes_prefix_inj (hbytes ▸ hbytes' ▸ List.prefix_refl _)
          exact .holding hp hq
        · exact absurd hbytes (hu'.unfinished.ne_bytes p)
      · rcases hl'.byte (i := parserIn s' i) hv he with ⟨q, hbytes', hq⟩ | hu'
        · exact absurd hbytes' (hu.unfinished.ne_bytes q)
        · exact .receiving hs' hu hu'
  | @holding p hp hp' =>
    have hready : (parserIn s' i).resReady = (parserIn s i).resReady := by
      simp only [parserIn, ← h.state, h.outSendAck hst]
    cases hr : (parserIn s i).resReady with
    | true =>
      have hs : s.curState = .waitSend ∧ DebugModule.outSendAck s i = true := by simpa [parserIn] using hr
      exact .receiving (by simp [next, nextState, hs.1, hs.2]) ((Shows.packet hp).taken hr)
        ((Shows.packet hp').taken (hready.trans hr))
    | false => exact .holding (hp.stay hr) (hp'.stay (hready.trans hr))

theorem Agree.nextState (h : Agree s s') (hst : Stage T s) (i : In) : nextState T s i = nextState T s' i := by
  cases h.parser with
  | receiving hs hl hl' =>
    have hs' : s'.curState = .waitInput := h.state ▸ hs
    simp [DebugModule.nextState, hs, hs', hl.resValid, hl'.resValid]
  | @holding p hp hp' =>
    have hcopy : ∀ t, copyReady s i t = copyReady s' i t := fun t => (h.copiers hst i t).2.2.2
    have hclean : s.curState ≠ .waitTimeout := by
      intro hs
      cases hst with
      | drain _ hP =>
        cases hP with
        | flagged _ he =>
          rw [hp.error] at he
          cases he
      | exec h' => exact (dispatch_ne _ _).2.1 (h' ▸ hs)
      | receive h' | dispatch h' | parity h' | send h' => simp [hs] at h'
    unfold DebugModule.nextState
    rw [← h.state, h.outSendAck hst, ← h.counter]
    split
    · simp [PacketParser.resValid, hp.ready, hp'.ready, hp.error, hp'.error, hp.cmd, hp'.cmd, hp.len, hp'.len]
    · exact absurd ‹_› hclean
    all_goals first
      | rfl
      | rw [hcopy]

/-- **Step.** -/
theorem Agree.next (h : Agree s s') (hst : Stage T s) (hi : Clean i) : Agree (next T s i) (next T s' i) where
  state := h.nextState hst i
  parser := h.parser_next hst hi
  resData := h.resData_next hst i
  copier t := (h.copiers hst i t).1
  buffer := h.buffer_next hst i
  counter := by simp only [DebugModule.next, softResetReq, h.state, h.counter]

theorem Agree.outputs (h : Agree s s') (hst : Stage T s) (i : In) : outputs s i = outputs s' i := by
  have hdata := (h.buffer.shows hst.sending (outSendReq s) i.sendReady).2
  have hmem : ∀ t, (if req s i t then some (out s t) else none) = if req s' i t then some (out s' t) else none := by
    intro t
    by_cases hidle : (s.copier t).curState = .idle
    · have hidle' : (s'.copier t).curState = .idle := (h.copier t).state ▸ hidle
      simp [req, DebugMemoryCopier.dataReq, hidle, hidle']
    · unfold req out
      rw [(h.copier t).eq hidle, h.resData]
  simp only [DebugModule.outputs, haltReq, resumeReq, softResetN, h.state, h.counter, hmem]
  rw [show sendData s = sendData s' from hdata]

/-- no error-free input can tell the two states apart -/
def SameExecution (T : ℕ) (s s' : St) : Prop :=
  ∀ i : ℕ → In, (∀ n, Clean (i n)) → ∀ n,
    outputs (run (DebugModule.next T) i s n) (i n) = outputs (run (DebugModule.next T) i s' n) (i n)

theorem Agree.sameExecution (h : Agree s s') (hst : Stage T s) : SameExecution T s s' := by
  intro i hi n
  have hrun : Stage T (run (DebugModule.next T) i s n) ∧
      Agree (run (DebugModule.next T) i s n) (run (DebugModule.next T) i s' n) := by
    induction n with
    | zero => exact ⟨hst, h⟩
    | succ n ih => exact ⟨ih.1.next (i n), ih.2.next ih.1 (hi n)⟩
  exact hrun.2.outputs hrun.1 (i n)

end DebugModule

end FpgaLearning.Debug
