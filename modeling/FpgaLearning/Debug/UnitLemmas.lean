/-
What one clock edge does to the parts of the debug module.

- Byte addresses: a masked request of the copier writes one byte, and it reads the addressed byte.
- Parser: `Receiving k` after `k` bytes of a packet, `Holds` when the packet is complete.
- Reply buffer: `packet` is the reply it holds, `SendingAt j` that `j` bytes of it have left.
- Ranks: what a copier and the reply buffer still have to do.
-/
import FpgaLearning.Debug.System

namespace FpgaLearning.Debug

open FpgaLearning.Memory

/-! ## Bytes -/

theorem ofNat_ne {i j : ℕ} (hi : i < 256) (hj : j < 256) (h : i ≠ j) : BitVec.ofNat 8 i ≠ BitVec.ofNat 8 j := by
  intro he
  have := congrArg BitVec.toNat he
  simp only [BitVec.toNat_ofNat] at this
  omega

theorem ofNat_succ (i : ℕ) : BitVec.ofNat 8 i + 1#8 = BitVec.ofNat 8 (i + 1) := by
  apply BitVec.eq_of_toNat_eq
  simp [BitVec.toNat_add]

/-! ## Byte addresses -/

namespace ByteToWordAddrConverter

theorem wordIndex_wordAddr (a : Word) : wordIndex (wordAddr a) = wordIndex a := by
  apply BitVec.eq_of_getLsbD_eq
  intro k hk
  simp only [wordIndex, wordAddr, BitVec.getLsbD_extractLsb', BitVec.getLsbD_append]
  simp only [hk, decide_true, Bool.true_and, show ¬ 2 + k < 2 by omega, ite_false, show 2 + k - 2 = k by omega]

theorem mask_iff (a : Word) (i : BitVec 2) : (writeDataMask a).getLsbD i.toNat = true ↔ i = laneIndex a := by
  have h : writeDataMask a = (0b0001 : BitVec 4) <<< laneIndex a := rfl
  rw [h]
  generalize laneIndex a = j
  revert i j
  decide

theorem lane_writeDataExtended (a : Word) (v : Byte) : lane (writeDataExtended a v) (laneIndex a) = v := by
  have h : writeDataExtended a v = v.setWidth 32 <<< (laneIndex a ++ 0#3) := rfl
  rw [h]
  apply BitVec.eq_of_getLsbD_eq
  intro k hk
  have hq : ∀ j : BitVec 2, (j ++ 0#3).toNat = 8 * j.toNat := by decide
  have hj : (laneIndex a).toNat < 4 := (laneIndex a).isLt
  have hlt : 8 * (laneIndex a).toNat + k < 32 := by omega
  simp only [lane, BitVec.getLsbD_extractLsb', BitVec.shiftLeft_eq', BitVec.getLsbD_shiftLeft, hq, BitVec.getLsbD_setWidth]
  simp [hk, hlt]
  intro h
  omega

theorem readData_eq (a w : Word) : readData a w = lane w (laneIndex a) := by
  have h : readData a w = (w >>> (laneIndex a ++ 0#3)).setWidth 8 := rfl
  have hq : ∀ j : BitVec 2, (j ++ 0#3).toNat = 8 * j.toNat := by decide
  rw [h]
  apply BitVec.eq_of_getLsbD_eq
  intro k hk
  simp [lane, hq, hk]

end ByteToWordAddrConverter

namespace DebugMemoryCopier

open ByteToWordAddrConverter

/-- **One byte.** A write request of the copier changes the byte at its address and no other. -/
theorem byteAt_serve (s : St) (m : WordMem) (v : Byte) (h : s.curState = .write) (x : Word) :
    byteAt (wordDevice.serve m (dataOut s v)).1 x = if x = addr s then v else byteAt m x := by
  have hwe : (dataOut s v).we = true := by simp [dataOut, h]
  have hidx : wordIndex (dataOut s v).addr = wordIndex (addr s) := wordIndex_wordAddr _
  show byteAt (m.write _) x = _
  rw [byteAt_write, hidx]
  by_cases hx : x = addr s
  · subst hx
    rw [if_pos ⟨hwe, rfl, (mask_iff _ _).2 rfl⟩, if_pos rfl]
    exact lane_writeDataExtended _ _
  · rw [if_neg hx, if_neg]
    rintro ⟨-, h1, h2⟩
    exact hx (addr_ext h1 ((mask_iff _ _).1 h2))

/-- a read is answered with the word around its byte -/
theorem readData_serve (s : St) (m : WordMem) (v : Byte) :
    readData (addr s) (wordDevice.serve m (dataOut s v)).2 = byteAt m (addr s) := by
  rw [readData_eq]
  show lane (m (wordIndex (wordAddr (addr s)))) _ = _
  rw [wordIndex_wordAddr]
  rfl

end DebugMemoryCopier

/-! ## Copier -/

namespace DebugMemoryCopier

variable {c : St} {i : In}

/-- a copier that is not asked does nothing -/
theorem next_of_idle (h : c.curState = .idle) (hreq : i.copyReq = false) :
    (next c i).curState = .idle ∧ (next c i).readLen = c.readLen ∧ inpPacketDataAddr c i = none ∧ copyReady c i = false := by
  simp [next, nextState, inpPacketDataAddr, copyReady, h, hreq]

theorem quiet_of_idle (h : c.curState = .idle) (i : In) (ack : Bool) : outPacket c i = none ∧ dataReq c ack = false := by
  simp [outPacket, dataReq, h]

end DebugMemoryCopier

/-! ## Parser -/

namespace PacketParser

/-- the first `k` payload bytes are in the buffer -/
def Filled (P : St) (p : Packet) (k : ℕ) : Prop := ∀ i < k, P.resDataBuf (BitVec.ofNat 8 i) = p.byte i

/-- `k` bytes of the packet have arrived -/
inductive Receiving (P : St) (p : Packet) : ℕ → Prop
  | cmd (hs : P.curState = .waitCmd) : Receiving P p 0
  | id (hs : P.curState = .waitId) (hcmd : P.resCmd = p.cmd) : Receiving P p 1
  | len (hs : P.curState = .waitLen) (hcmd : P.resCmd = p.cmd) (hid : P.resId = p.id) : Receiving P p 2
  | data (k : ℕ) (hk : k < p.payload.length) (hs : P.curState = .waitData) (hcmd : P.resCmd = p.cmd) (hid : P.resId = p.id)
      (hlen : P.resLen = p.len) (hptr : P.dataPtr = BitVec.ofNat 8 k) (hbuf : Filled P p k) : Receiving P p (k + 3)

/-- the packet has arrived -/
structure Holds (P : St) (p : Packet) : Prop where
  ready : P.curState = .waitReady
  cmd : P.resCmd = p.cmd
  id : P.resId = p.id
  len : P.resLen = p.len
  buf : Filled P p p.payload.length
  error : P.resError = false

variable {P : St} {p : Packet} {k : ℕ} {i : In}

theorem Receiving.resValid (h : Receiving P p k) : resValid P = false := by
  cases h <;> simp [PacketParser.resValid, *]

theorem Receiving.stay (h : Receiving P p k) (hv : i.inputValid = false) : Receiving (next P i) p k := by
  cases h with
  | cmd hs => exact .cmd (by simp [next, nextState, hs, hv])
  | id hs hcmd => exact .id (by simp [next, nextState, hs, hv]) (by simp [next, hv, hcmd])
  | len hs hcmd hid => exact .len (by simp [next, nextState, hs, hv]) (by simp [next, hv, hcmd]) (by simp [next, hv, hid])
  | data k hk hs hcmd hid hlen hptr hbuf =>
    refine .data k hk (by simp [next, nextState, hs, hv]) (by simp [next, hv, hcmd]) (by simp [next, hv, hid])
      (by simp [next, hv, hlen]) (by simp [next, hv, hptr]) ?_
    simpa [Filled, next, hv] using hbuf

theorem Filled.push (h : Filled P p k) (hk : k < p.payload.length) :
    ∀ i < k + 1, Function.update P.resDataBuf (BitVec.ofNat 8 k) (p.byte k) (BitVec.ofNat 8 i) = p.byte i := by
  intro i hi
  have hle := p.length_le
  by_cases hik : i = k
  · rw [hik, Function.update_self]
  · rw [Function.update_of_ne (ofNat_ne (by omega) (by omega) hik)]
    exact h i (by omega)

/-- **A byte arrives**, the last one or not. -/
theorem Receiving.next (h : Receiving P p k) (hv : i.inputValid = true) (he : i.inputError = false)
    (hb : p.bytes[k]? = some i.inputByte) :
    if k + 1 = p.bytes.length then Holds (next P i) p else Receiving (next P i) p (k + 1) := by
  have hle := p.length_le
  cases h with
  | cmd hs =>
    have hbyte : p.cmd = i.inputByte := by simpa [Packet.bytes] using hb
    rw [if_neg (by simp)]
    exact .id (by simp [PacketParser.next, nextState, hs, hv, he]) (by simp [PacketParser.next, hs, hv, hbyte])
  | id hs hcmd =>
    have hbyte : p.id = i.inputByte := by simpa [Packet.bytes] using hb
    rw [if_neg (by simp)]
    exact .len (by simp [PacketParser.next, nextState, hs, hv, he]) (by simp [PacketParser.next, hs, hcmd])
      (by simp [PacketParser.next, hs, hv, hbyte])
  | len hs hcmd hid =>
    have hbyte : p.len = i.inputByte := by simpa [Packet.bytes] using hb
    have hzero : i.inputByte = 0#8 ↔ p.payload.length = 0 := by
      rw [← hbyte, ← p.toNat_len]
      exact ⟨fun h => by rw [h]; rfl, fun h => BitVec.eq_of_toNat_eq h⟩
    by_cases hlen : p.payload.length = 0
    · rw [if_pos (by simp [hlen])]
      refine ⟨by simp [PacketParser.next, nextState, hs, hv, he, hzero.2 hlen], by simp [PacketParser.next, hs, hcmd],
        by simp [PacketParser.next, hs, hid], by simp [PacketParser.next, hs, hv, hbyte], ?_,
        by simp [PacketParser.next, hs, hv, he]⟩
      rw [hlen]
      exact fun _ h => absurd h (Nat.not_lt_zero _)
    · rw [if_neg (by rw [Packet.length_bytes]; omega)]
      refine .data 0 (by omega) ?_ (by simp [PacketParser.next, hs, hcmd]) (by simp [PacketParser.next, hs, hid])
        (by simp [PacketParser.next, hs, hv, hbyte]) (by simp [PacketParser.next, hs, hv])
        (fun _ h => absurd h (Nat.not_lt_zero _))
      simp [PacketParser.next, nextState, hs, hv, he, mt hzero.1 hlen]
  | data k hk hs hcmd hid hlen hptr hbuf =>
    have hbyte : i.inputByte = p.byte k := by
      have hget : p.bytes[k + 3]? = p.payload[k]? := rfl
      rw [hget] at hb
      simp [Packet.byte, List.getD, hb]
    have hlast : P.dataPtr + 1#8 = P.resLen ↔ k + 1 = p.payload.length := by
      rw [hptr, hlen, ofNat_succ, Packet.len]
      refine ⟨fun h => ?_, fun h => by rw [h]⟩
      by_contra hne
      exact ofNat_ne (by omega) (by omega) hne h
    have hfill : Filled (PacketParser.next P i) p (k + 1) := by
      have := hbuf.push hk
      simpa [Filled, PacketParser.next, hs, hv, hbyte, hptr] using this
    by_cases hend : k + 1 = p.payload.length
    · rw [if_pos (by rw [Packet.length_bytes]; omega)]
      refine ⟨by simp [PacketParser.next, nextState, hs, hv, he, hlast.2 hend], by simp [PacketParser.next, hs, hcmd],
        by simp [PacketParser.next, hs, hid], by simp [PacketParser.next, hs, hlen], hend ▸ hfill,
        by simp [PacketParser.next, hs, hv, he]⟩
    · rw [if_neg (by rw [Packet.length_bytes]; omega)]
      refine .data (k + 1) (by omega) ?_ (by simp [PacketParser.next, hs, hcmd]) (by simp [PacketParser.next, hs, hid])
        (by simp [PacketParser.next, hs, hlen]) ?_ hfill
      · simp [PacketParser.next, nextState, hs, hv, he, mt hlast.1 hend]
      · simp only [PacketParser.next, hs, hv, ite_true, hptr]
        exact ofNat_succ k

/-- bytes that arrive while a packet is held change nothing -/
theorem Holds.stay (h : Holds P p) (hr : i.resReady = false) : Holds (next P i) p := by
  obtain ⟨hs, hcmd, hid, hlen, hbuf, he⟩ := h
  refine ⟨by simp [PacketParser.next, nextState, hs, hr], by simp [PacketParser.next, hs, hcmd],
    by simp [PacketParser.next, hs, hid], by simp [PacketParser.next, hs, hlen], ?_,
    by simp [PacketParser.next, hs, hr, he]⟩
  simpa [Filled, PacketParser.next, hs] using hbuf

/-- only one packet is held -/
theorem Holds.unique {q : Packet} (h : Holds P p) (h' : Holds P q) : p = q := by
  obtain ⟨cmd, id, payload, hle⟩ := p
  obtain ⟨cmd', id', payload', hle'⟩ := q
  have hlen : payload.length = payload'.length := by
    have := (Packet.toNat_len _).symm.trans ((congrArg BitVec.toNat (h.len.symm.trans h'.len)).trans (Packet.toNat_len _))
    exact this
  obtain rfl : cmd = cmd' := h.cmd.symm.trans h'.cmd
  obtain rfl : id = id' := h.id.symm.trans h'.id
  obtain rfl : payload = payload' := by
    refine List.ext_getElem hlen fun i hi hi' => ?_
    have hbyte := (h.buf i hi).symm.trans (h'.buf i hi')
    simpa [Packet.byte, hi, hi'] using hbyte
  rfl

theorem Holds.taken (h : Holds P p) (hr : i.resReady = true) (q : Packet) : Receiving (PacketParser.next P i) q 0 :=
  .cmd (by simp [PacketParser.next, nextState, h.ready, hr])

end PacketParser

/-! ## Reply buffer -/

namespace PacketBuffer

/-- the reply in the buffer -/
def packet (b : St) : List Byte :=
  b.statusReg :: b.idReg :: b.lenReg ::
    (List.range b.lenReg.toNat).map fun i => b.payloadDataBuf (BitVec.ofNat 8 i)

@[simp] theorem length_packet (b : St) : (packet b).length = b.lenReg.toNat + 3 := by simp [packet]

/-- `k` bytes of the reply have left -/
inductive SendingAt (b : St) : ℕ → Prop
  | idle (hs : b.curState = .idle) : SendingAt b 0
  | status (hs : b.curState = .sendStatus) (hptr : b.dataPtr = 0#8) : SendingAt b 0
  | id (hs : b.curState = .sendId) (hptr : b.dataPtr = 0#8) : SendingAt b 1
  | len (hs : b.curState = .sendLen) (hptr : b.dataPtr = 0#8) : SendingAt b 2
  | payload (k : ℕ) (hk : k < b.lenReg.toNat) (hs : b.curState = .sendPayload) (hptr : b.dataPtr = BitVec.ofNat 8 k) :
      SendingAt b (k + 3)

/-- the inputs of a buffer that sends and is not written -/
def sending (ready : Bool) : In := ⟨none, none, none, none, true, ready⟩

variable {b : St} {k : ℕ}

@[simp] theorem packet_sending (b : St) (ready : Bool) : packet (next b (sending ready)) = packet b := rfl

theorem SendingAt.lt (h : SendingAt b k) : k < (packet b).length := by
  rw [length_packet]
  cases h <;> omega

/-- what is on the line is the next byte of the reply -/
theorem SendingAt.sendData_eq (h : SendingAt b k) {v : Byte} (hv : sendData b = some v) : (packet b)[k]? = some v := by
  cases h with
  | idle hs => simp [sendData, hs] at hv
  | status hs => simpa [sendData, hs, packet] using hv
  | id hs => simpa [sendData, hs, packet] using hv
  | len hs => simpa [sendData, hs, packet] using hv
  | payload k hk hs hptr =>
    simp only [sendData, hs, hptr] at hv
    simpa [packet, hk] using hv

/-- while nothing is taken, the reply stays where it is -/
theorem SendingAt.stay (h : SendingAt b k) {ready : Bool} (hr : ready = false ∨ sendData b = none) :
    SendingAt (next b (sending ready)) k ∧ sendAck b true ready = false := by
  cases h with
  | idle hs =>
    exact ⟨.status (by simp [next, nextState, hs, sending]) (by simp [next, hs, sending]), by simp [sendAck, hs, nextState]⟩
  | status hs hptr =>
    obtain rfl : ready = false := by simpa [sendData, hs] using hr
    exact ⟨.status (by simp [next, nextState, hs, sending]) (by simp [next, hs, sending, hptr]),
      by simp [sendAck, nextState, hs]⟩
  | id hs hptr =>
    obtain rfl : ready = false := by simpa [sendData, hs] using hr
    exact ⟨.id (by simp [next, nextState, hs, sending]) (by simp [next, hs, sending, hptr]),
      by simp [sendAck, nextState, hs]⟩
  | len hs hptr =>
    obtain rfl : ready = false := by simpa [sendData, hs] using hr
    exact ⟨.len (by simp [next, nextState, hs, sending]) (by simp [next, hs, sending, hptr]),
      by simp [sendAck, nextState, hs]⟩
  | payload k hk hs hptr =>
    obtain rfl : ready = false := by simpa [sendData, hs] using hr
    exact ⟨.payload k hk (by simp [next, nextState, hs, sending]) (by simp [next, hs, sending, hptr]),
      by simp [sendAck, nextState, hs]⟩

/-- **A byte leaves**, the last one or not. -/
theorem SendingAt.next (h : SendingAt b k) (hv : (sendData b).isSome = true) :
    if k + 1 = (packet b).length then (next b (sending true)).curState = .idle ∧ sendAck b true true = true
    else SendingAt (PacketBuffer.next b (sending true)) (k + 1) ∧ sendAck b true true = false := by
  rw [length_packet]
  cases h with
  | idle hs => simp [sendData, hs] at hv
  | status hs hptr =>
    rw [if_neg (by omega)]
    exact ⟨.id (by simp [PacketBuffer.next, nextState, hs, sending]) (by simp [PacketBuffer.next, hs, sending, hptr]),
      by simp [sendAck, nextState, hs]⟩
  | id hs hptr =>
    rw [if_neg (by omega)]
    exact ⟨.len (by simp [PacketBuffer.next, nextState, hs, sending]) (by simp [PacketBuffer.next, hs, sending, hptr]),
      by simp [sendAck, nextState, hs]⟩
  | len hs hptr =>
    have hzero : b.lenReg = 0#8 ↔ b.lenReg.toNat = 0 := ⟨fun h => by rw [h]; rfl, fun h => BitVec.eq_of_toNat_eq h⟩
    by_cases hl : b.lenReg = 0#8
    · rw [if_pos (by have := hzero.1 hl; omega)]
      simp [PacketBuffer.next, sendAck, nextState, hs, sending, hl]
    · have hpos := mt hzero.2 hl
      rw [if_neg (by omega)]
      refine ⟨.payload 0 (by simp only [PacketBuffer.next, sending, Option.getD_none]; omega) ?_ ?_,
        by simp [sendAck, nextState, hs, hl]⟩
      · simp [PacketBuffer.next, nextState, hs, sending, hl]
      · simp [PacketBuffer.next, hs, sending, hptr]
  | payload k hk hs hptr =>
    have hlt := b.lenReg.isLt
    have hlast : b.dataPtr + 1#8 = b.lenReg ↔ k + 1 = b.lenReg.toNat := by
      rw [hptr, ofNat_succ]
      constructor
      · intro h
        rw [← h, BitVec.toNat_ofNat]; omega
      · intro h
        rw [h, BitVec.ofNat_toNat, BitVec.setWidth_eq]
    by_cases hend : k + 1 = b.lenReg.toNat
    · rw [if_pos (by omega)]
      simp [PacketBuffer.next, sendAck, nextState, hs, sending, hlast.2 hend]
    · rw [if_neg (by omega)]
      refine ⟨.payload (k + 1) (by simp only [PacketBuffer.next, sending, Option.getD_none]; omega) ?_ ?_, ?_⟩
      · simp [PacketBuffer.next, nextState, hs, sending, hlast, hend]
      · simp only [PacketBuffer.next, hs, sending, hptr]
        exact ofNat_succ k
      · simp [sendAck, nextState, hs, hlast, hend]

/-- the host sees the end of the reply with its last byte -/
theorem complete_take (b : St) {k : ℕ} (hk : k ≤ (packet b).length) :
    complete ((packet b).take k) = decide (k = (packet b).length) := by
  rw [length_packet] at *
  match k with
  | 0 => simp [complete]
  | 1 => simp [complete, packet]
  | 2 => simp [complete, packet]
  | k + 3 =>
    simp only [packet, List.take_succ_cons, complete, List.length_take, List.length_map, List.length_range]
    rw [Nat.min_eq_left (by omega), Bool.eq_iff_iff]
    simp

end PacketBuffer

/-! ## Ranks -/

namespace DebugMemoryCopier

/-- a request falls with its acknowledge -/
theorem dataReq_of_ack (c : St) : dataReq c true = false := by
  unfold dataReq
  split <;> rfl

/-- cycles a command still takes, not counting those in which the memory is waited for; `n` is its payload length -/
def rank (c : St) (n : Byte) (ack : Bool) : ℕ :=
  match c.curState with
  | .idle => 1007
  | .addr0 => 1006
  | .addr1 => 1005
  | .addr2 => 1004
  | .addr3 => 1003
  | .len => 1002
  | .read => 2 * (c.readLen.toNat - c.dataPtr.toNat) + (!ack).toNat
  | .write => 2 * (n.toNat - c.dataPtr.toNat) + (!ack).toNat

theorem rank_le (c : St) (n : Byte) (ack : Bool) : rank c n ack ≤ 1007 := by
  have hlen := c.readLen.isLt
  have hn := n.isLt
  have hack : (!ack).toNat ≤ 1 := by cases ack <;> decide
  unfold rank
  split <;> omega

theorem rank_lt_of_data {c : St} (h : c.curState = .read ∨ c.curState = .write) (n : Byte) (ack : Bool) :
    rank c n ack ≤ 511 := by
  have hlen := c.readLen.isLt
  have hn := n.isLt
  have hack : (!ack).toNat ≤ 1 := by cases ack <;> decide
  rcases h with h | h <;> simp only [rank, h] <;> omega

/-- **One cycle of a copier** that is not yet done: the rank falls, or its memory is waited for. -/
theorem rank_next {c : St} {i : In} {b : Bool} (hreq : i.copyReq = true) (hack : i.dataAck = true → b = false)
    (hread : c.curState = .read → c.dataPtr.toNat < c.readLen.toNat)
    (hwrite : c.curState = .write → c.dataPtr.toNat < i.inpPacketLen.toNat) (hready : copyReady c i = false) :
    rank (next c i) i.inpPacketLen b < rank c i.inpPacketLen i.dataAck ∨ (dataReq c i.dataAck = true ∧ b = false ∧
      rank (next c i) i.inpPacketLen b = rank c i.inpPacketLen i.dataAck) := by
  have hsucc : ∀ a b : Byte, a.toNat < b.toNat → b.toNat - (a + 1#8).toNat < b.toNat - a.toNat := fun a b h => by bv_omega
  cases hs : c.curState with
  | idle => exact .inl (by simp [rank, next, nextState, hs, hreq])
  | addr0 => exact .inl (by simp [rank, next, nextState, hs])
  | addr1 => exact .inl (by simp [rank, next, nextState, hs])
  | addr2 => exact .inl (by simp [rank, next, nextState, hs])
  | addr3 =>
    refine .inl ?_
    by_cases hw : i.copyWrite = true
    · have hlen : 4#8 < i.inpPacketLen := by simpa [copyReady, nextState, hs, hw] using hready
      have hle := rank_lt_of_data (c := next c i) (.inr (by simp [next, nextState, hs, hw, hlen])) i.inpPacketLen b
      simp only [rank, hs] at *
      omega
    · simp [rank, next, nextState, hs, hw]
  | len =>
    refine .inl ?_
    have hz : i.inpPacketData ≠ 0#8 := by
      intro hz
      simp [copyReady, nextState, hs, hz] at hready
    have hle := rank_lt_of_data (c := next c i) (.inl (by simp [next, nextState, hs, hz])) i.inpPacketLen b
    simp only [rank, hs] at *
    omega
  | read =>
    cases hb : i.dataAck with
    | false => cases b <;> simp [rank, next, nextState, hs, hb, dataReq]
    | true =>
      have hlast : ¬ c.dataPtr + 1#8 = c.readLen := by simpa [copyReady, nextState, hs, hb] using hready
      have := hsucc _ _ (hread hs)
      refine .inl ?_
      simp only [hack hb, rank, next, nextState, hs, hb]
      simp [hlast]
      omega
  | write =>
    cases hb : i.dataAck with
    | false => cases b <;> simp [rank, next, nextState, hs, hb, dataReq]
    | true =>
      have hlast : ¬ c.dataPtr + 1#8 + 4#8 = i.inpPacketLen := by simpa [copyReady, nextState, hs, hb] using hready
      have := hsucc _ _ (hwrite hs)
      refine .inl ?_
      simp only [hack hb, rank, next, nextState, hs, hb]
      simp [hlast]
      omega

end DebugMemoryCopier

namespace PacketBuffer

/-- cycles until the reply has left, if every byte is taken at once -/
def rank (b : St) : ℕ :=
  match b.curState with
  | .idle => 262
  | .sendStatus => 261
  | .sendId => 260
  | .sendLen => 259
  | .sendPayload => b.lenReg.toNat - b.dataPtr.toNat

theorem rank_le (b : St) : rank b ≤ 262 := by
  have hlen := b.lenReg.isLt
  unfold rank
  split <;> omega

/-- **One cycle of a reply**: the rank falls, or the sender is waited for. -/
theorem SendingAt.rank_next {b : St} {k : ℕ} {ready : Bool} (h : SendingAt b k)
    (hack : sendAck b true ready = false) :
    rank (PacketBuffer.next b (sending ready)) < rank b ∨
      (ready = false ∧ rank (PacketBuffer.next b (sending ready)) = rank b) := by
  have hlen := b.lenReg.isLt
  cases h with
  | idle hs => exact .inl (by simp [rank, PacketBuffer.next, nextState, sending, hs])
  | status hs =>
    cases ready <;> simp [rank, PacketBuffer.next, nextState, sending, hs]
  | id hs =>
    cases ready <;> simp [rank, PacketBuffer.next, nextState, sending, hs]
  | len hs =>
    cases ready with
    | false => exact .inr (by simp [rank, PacketBuffer.next, nextState, sending, hs])
    | true =>
      have hz : b.lenReg ≠ 0#8 := fun hz => by simp [sendAck, nextState, hs, hz] at hack
      refine .inl ?_
      simp [rank, PacketBuffer.next, nextState, sending, hs, hz]
      omega
  | payload k hk hs hptr =>
    cases ready with
    | false => exact .inr (by simp [rank, PacketBuffer.next, nextState, sending, hs])
    | true =>
      have hlast : ¬ b.dataPtr + 1#8 = b.lenReg := by
        intro h'
        simp [sendAck, nextState, hs, h'] at hack
      have hstep : b.lenReg.toNat - (b.dataPtr + 1#8).toNat < b.lenReg.toNat - b.dataPtr.toNat := by
        rw [hptr] at hlast ⊢
        rw [ofNat_succ, BitVec.toNat_ofNat, BitVec.toNat_ofNat]
        omega
      refine .inl ?_
      simpa [rank, PacketBuffer.next, nextState, sending, hs, hlast] using hstep

end PacketBuffer

namespace ResetController

/-- a reset pulse that is not in its last cycle goes on -/
theorem next_of_counting {r : St} (hz : r.counter ≠ 0#4) (hone : r.counter ≠ 1#4) :
    (next r true).counter = r.counter - 1#4 ∧ r.counter - 1#4 ≠ 0#4 ∧ (r.counter - 1#4).toNat < r.counter.toNat := by
  refine ⟨by simp [next, resetN, hz], ?_, ?_⟩ <;> bv_omega

end ResetController

/-! ## Multiplexers -/

namespace DebugModule

variable {s : St} {t : Target}

/-- no copier but that of `t` has anything to do -/
def OthersIdle (s : St) (t : Target) : Prop :=
  ∀ t', t' ≠ t → (s.copier t').curState = .idle ∧ s.curState ≠ .read t' ∧ s.curState ≠ .write t'

theorem inpPacketDataAddr_of_othersIdle (h : OthersIdle s t) (i : In) :
    inpPacketDataAddr s i = DebugMemoryCopier.inpPacketDataAddr (s.copier t) (copierIn s i t) := by
  have hother : ∀ t', t' ≠ t → DebugMemoryCopier.inpPacketDataAddr (s.copier t') (copierIn s i t') = none := by
    intro t' ht
    obtain ⟨h1, h2, h3⟩ := h t' ht
    exact (DebugMemoryCopier.next_of_idle h1 (by simp [copierIn, h2, h3])).2.2.1
  cases t with
  | prog => simp [inpPacketDataAddr, hother .data (by decide)]
  | data => simp [inpPacketDataAddr, hother .prog (by decide)]

theorem outPayload_of_othersIdle (h : OthersIdle s t) (hs : s.curState ≠ .state) (i : In) :
    outPayload s i = DebugMemoryCopier.outPacket (s.copier t) (copierIn s i t) := by
  have hother : ∀ t', t' ≠ t → DebugMemoryCopier.outPacket (s.copier t') (copierIn s i t') = none := fun t' ht =>
    (DebugMemoryCopier.quiet_of_idle (h t' ht).1 _ false).1
  have hstate : stateOutPayload s i = none := by
    unfold stateOutPayload
    split
    · exact absurd ‹_› hs
    · rfl
  cases t with
  | prog => simp [outPayload, hother .data (by decide), hstate]
  | data => simp [outPayload, hother .prog (by decide), hstate]

end DebugModule

end FpgaLearning.Debug
