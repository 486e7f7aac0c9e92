/-
Replies on the wire: `PacketBuffer` behind `ValidReadyDelay`, and the host that reads the bytes.

`ValidReadyDelay` lets a transfer pass and then keeps the handshake closed for `NUM_TICKS` cycles. `ReplySession` is both
circuits with what an observer outside sees: what has been written to the buffer, the replies requested, the bytes that
the UART has taken and the acknowledges.
- `Phase` says how far the reply under way has left, `Phase.next` is the step lemma;
- `counter_after`: the gate stays closed for exactly `NUM_TICKS` cycles after a transfer; `gate_opens`: it opens again;
- `receiveResponses_bytes`: the host cuts the stream into the replies again;
- `serialises` is the contract.
-/
import FpgaLearning.Debug.UnitLemmas
import FpgaLearning.Debug.Tool

namespace FpgaLearning.Debug

open FpgaLearning.Memory

/-! ## ValidReadyDelay -/

namespace ValidReadyDelay

/-- the counter of the delay; a delay of no ticks has none -/
structure St (numTicks : ℕ) where
  counter : BitVec (Nat.clog 2 (numTicks + 1))

variable {T : ℕ}

def reset (_ : St T) : St T := ⟨0⟩

def passEn (s : St T) : Bool := s.counter == 0

def slaveValid (s : St T) (masterValid : Bool) : Bool :=
  if T = 0 then masterValid else if passEn s then masterValid else false

def masterReady (s : St T) (slaveReady : Bool) : Bool :=
  if T = 0 then slaveReady else if passEn s then slaveReady else false

def next (s : St T) (masterValid slaveReady : Bool) : St T :=
  if passEn s then if masterReady s slaveReady && masterValid then ⟨BitVec.ofNat _ T⟩ else s
  else ⟨s.counter - 1⟩

/-- without delay the gate is always open -/
theorem passEn_zero (s : St 0) : passEn s = true := by
  have hw : 2 ^ Nat.clog 2 (0 + 1) = 1 := by simp
  have hlt := s.counter.isLt
  have hc : s.counter = 0 := BitVec.eq_of_toNat_eq (by simp; omega)
  simp [passEn, hc]

theorem slaveValid_eq (s : St T) (v : Bool) : slaveValid s v = (passEn s && v) := by
  unfold slaveValid
  split_ifs with h0 hp
  · subst h0
    rw [passEn_zero, Bool.true_and]
  · rw [hp, Bool.true_and]
  · rw [Bool.eq_false_of_not_eq_true hp, Bool.false_and]

theorem masterReady_eq (s : St T) (r : Bool) : masterReady s r = (passEn s && r) := slaveValid_eq s r

/-- a transfer closes the gate for `T` cycles -/
theorem next_transfer {s : St T} {v r : Bool} (h : (passEn s && v && r) = true) : (next s v r).counter.toNat = T := by
  simp only [Bool.and_eq_true] at h
  obtain ⟨⟨hp, rfl⟩, rfl⟩ := h
  have hlt : T < 2 ^ Nat.clog 2 (T + 1) := Nat.lt_of_succ_le (Nat.le_pow_clog (by decide) _)
  rw [next, if_pos hp, masterReady_eq, hp]
  simpa using Nat.mod_eq_of_lt hlt

/-- otherwise the counter runs down and stays at zero -/
theorem next_idle {s : St T} {v r : Bool} (h : (passEn s && v && r) = false) :
    (next s v r).counter.toNat = s.counter.toNat - 1 := by
  cases hp : passEn s
  · have hpos : 0 < s.counter.toNat := by
      refine Nat.pos_of_ne_zero fun h0 => ?_
      have hc : s.counter = 0 := BitVec.eq_of_toNat_eq (by simpa using h0)
      simp [passEn, hc] at hp
    have hle : (1 : BitVec (Nat.clog 2 (T + 1))).toNat = 1 := by
      have hlt : 1 < 2 ^ Nat.clog 2 (T + 1) := Nat.lt_of_le_of_lt hpos s.counter.isLt
      exact (BitVec.toNat_ofNat 1 _).trans (Nat.mod_eq_of_lt hlt)
    rw [next, hp]
    simp only [Bool.false_eq_true, ite_false]
    rw [BitVec.toNat_sub_of_le, hle]
    rw [BitVec.le_def, hle]
    exact hpos
  · have hc : s.counter.toNat = 0 := by
      have := beq_iff_eq.1 hp
      rw [this]
      rfl
    have hno : (r && v) = false := by
      rw [Bool.and_comm]
      simpa [hp] using h
    rw [next, if_pos hp, masterReady_eq, hp, Bool.true_and, hno]
    simp [hc]

end ValidReadyDelay

/-! ## Replies -/

/-- a reply packet -/
structure Reply where
  status : Byte
  id : Byte
  payload : List Byte
  length_le : payload.length ≤ 255

namespace Reply

/-- the packet on the wire -/
def bytes (p : Reply) : List Byte := p.status :: p.id :: BitVec.ofNat 8 p.payload.length :: p.payload

/-- what `_receive_response` returns for it -/
def fields (p : Reply) : ℕ × ℕ × List Byte := (p.status.toNat, p.id.toNat, p.payload)

end Reply

namespace UARTDebugger

/-- `_receive_response` again and again, each call on what the one before has left -/
def receiveResponses : ℕ → List Byte → Except Failure (List (ℕ × ℕ × List Byte))
  | 0, _ => return []
  | n + 1, received => do
    let (status, respId, data) ← receiveResponse received
    let rest ← receiveResponses n (received.drop (3 + data.length))
    return (status, respId, data) :: rest

theorem receiveResponse_bytes (p : Reply) (rest : List Byte) : receiveResponse (p.bytes ++ rest) = .ok p.fields := by
  have hlen : (BitVec.ofNat 8 p.payload.length).toNat = p.payload.length :=
    (BitVec.toNat_ofNat _ _).trans (Nat.mod_eq_of_lt (Nat.lt_succ_of_le p.length_le))
  simp only [Reply.bytes, List.cons_append, receiveResponse, hlen, List.length_append]
  rw [if_neg (by omega), List.take_left]
  rfl

/-- **The host** cuts the stream into the replies again. -/
theorem receiveResponses_bytes (l : List Reply) (rest : List Byte) :
    receiveResponses l.length (l.flatMap Reply.bytes ++ rest) = .ok (l.map Reply.fields) := by
  induction l with
  | nil => rfl
  | cons p l ih =>
    have hdrop : (p.bytes ++ (l.flatMap Reply.bytes ++ rest)).drop (3 + p.payload.length) =
        l.flatMap Reply.bytes ++ rest := by
      have hlen : 3 + p.payload.length = p.bytes.length := Nat.add_comm _ _
      rw [hlen, List.drop_left]
    rw [List.flatMap_cons, List.append_assoc, List.length_cons, receiveResponses, receiveResponse_bytes]
    show (receiveResponses l.length ((p.bytes ++ (l.flatMap Reply.bytes ++ rest)).drop (3 + p.payload.length)) >>= _) = _
    rw [hdrop, ih]
    rfl

end UARTDebugger

/-! ## Sessions -/

/-- what the writer has put into the buffer, whenever it did -/
structure Written where
  status : Byte
  id : Byte
  len : Byte
  payload : Byte → Byte

namespace Written

def write (w : Written) (i : PacketBuffer.In) : Written where
  status := i.status.getD w.status
  id := i.id.getD w.id
  len := i.len.getD w.len
  payload := match i.payload with
    | some (a, v) => Function.update w.payload a v
    | none => w.payload

/-- the reply written: as many payload bytes as the length says -/
def reply (w : Written) : Reply where
  status := w.status
  id := w.id
  payload := (List.range w.len.toNat).map fun i => w.payload (BitVec.ofNat 8 i)
  length_le := by
    have hlt := w.len.isLt
    simp only [List.length_map, List.length_range]
    omega

end Written

/-- one cycle: what the writer and the UART drive; the ready of the buffer is the delay's -/
structure ReplyIn where
  status : Option Byte
  id : Option Byte
  len : Option Byte
  payload : Option (Byte × Byte)
  sendReq : Bool
  slaveReady : Bool

/-- nothing is written -/
def ReplyIn.Quiet (i : ReplyIn) : Prop := i.status = none ∧ i.id = none ∧ i.len = none ∧ i.payload = none

/-- both circuits, with what has been written, requested, transferred and acknowledged -/
structure ReplySession (T : ℕ) where
  buffer : PacketBuffer.St
  delay : ValidReadyDelay.St T
  written : Written
  requested : List Reply
  transferred : List Byte
  acks : ℕ

namespace ReplySession

variable {T : ℕ}

def sendValid (s : ReplySession T) : Bool := (PacketBuffer.sendData s.buffer).isSome

def sendReady (s : ReplySession T) (i : ReplyIn) : Bool := ValidReadyDelay.masterReady s.delay i.slaveReady

def bufferIn (s : ReplySession T) (i : ReplyIn) : PacketBuffer.In :=
  ⟨i.status, i.id, i.len, i.payload, i.sendReq, s.sendReady i⟩

/-- a byte goes over to the UART in this cycle -/
def transfers (s : ReplySession T) (i : ReplyIn) : Bool :=
  ValidReadyDelay.slaveValid s.delay s.sendValid && i.slaveReady

def sendAck (s : ReplySession T) (i : ReplyIn) : Bool := PacketBuffer.sendAck s.buffer i.sendReq (s.sendReady i)

/-- a request is taken in this cycle -/
def takes (s : ReplySession T) (i : ReplyIn) : Bool := s.buffer.curState == .idle && i.sendReq

def step (s : ReplySession T) (i : ReplyIn) : ReplySession T where
  buffer := PacketBuffer.next s.buffer (s.bufferIn i)
  delay := ValidReadyDelay.next s.delay s.sendValid i.slaveReady
  written := s.written.write (s.bufferIn i)
  requested := if s.takes i then s.requested ++ [(s.written.write (s.bufferIn i)).reply] else s.requested
  transferred := if s.transfers i then s.transferred ++ (PacketBuffer.sendData s.buffer).toList else s.transferred
  acks := s.acks + (s.sendAck i).toNat

/-- out of reset, whatever stands in the registers -/
def start (b : PacketBuffer.St) (d : ValidReadyDelay.St T) : ReplySession T where
  buffer := PacketBuffer.reset b
  delay := ValidReadyDelay.reset d
  written := ⟨b.statusReg, b.idReg, b.lenReg, b.payloadDataBuf⟩
  requested := []
  transferred := []
  acks := 0

def after (b : PacketBuffer.St) (d : ValidReadyDelay.St T) (inp : ℕ → ReplyIn) (n : ℕ) : ReplySession T :=
  Clocked.run step inp (start b d) n

/-- the writer leaves the buffer alone from the request to the acknowledge -/
def Undisturbed (b : PacketBuffer.St) (d : ValidReadyDelay.St T) (inp : ℕ → ReplyIn) : Prop :=
  ∀ n, (after b d inp n).buffer.curState ≠ .idle → (after b d inp n).sendAck (inp n) = false → (inp n).Quiet

/-! ### How far a reply has left -/

/-- nothing under way, or `k` bytes of the last reply have left -/
inductive Phase (s : ReplySession T) : Prop
  | idle (hs : s.buffer.curState = .idle) (ht : s.transferred = s.requested.flatMap Reply.bytes)
      (ha : s.acks = s.requested.length)
  | sending (l : List Reply) (p : Reply) (k : ℕ) (hs : s.buffer.curState ≠ .idle) (hk : PacketBuffer.SendingAt s.buffer k)
      (hp : PacketBuffer.packet s.buffer = p.bytes) (hr : s.requested = l ++ [p])
      (ht : s.transferred = l.flatMap Reply.bytes ++ p.bytes.take k) (ha : s.acks = l.length)

/-- the registers hold what has been written -/
def Stored (s : ReplySession T) : Prop :=
  s.written = ⟨s.buffer.statusReg, s.buffer.idReg, s.buffer.lenReg, s.buffer.payloadDataBuf⟩

variable {s : ReplySession T} {i : ReplyIn}

theorem Stored.step (h : Stored s) (i : ReplyIn) : Stored (s.step i) := by
  unfold Stored at *
  show s.written.write (s.bufferIn i) = _
  rw [h]
  rfl

theorem Stored.packet (h : Stored s) : PacketBuffer.packet s.buffer = s.written.reply.bytes := by
  unfold Stored at h
  simp [h, Written.reply, Reply.bytes, PacketBuffer.packet]

theorem sendValid_eq (s : ReplySession T) : s.sendValid = (s.buffer.curState != .idle) := by
  unfold sendValid PacketBuffer.sendData
  cases s.buffer.curState <;> rfl

/-- the byte goes over exactly when the buffer sees a ready -/
theorem transfers_eq (s : ReplySession T) (i : ReplyIn) : s.transfers i = (s.sendValid && s.sendReady i) := by
  rw [transfers, sendReady, ValidReadyDelay.slaveValid_eq, ValidReadyDelay.masterReady_eq, Bool.and_left_comm,
    Bool.and_assoc]

theorem transfers_of_idle (hs : s.buffer.curState = .idle) : s.transfers i = false := by
  simp [transfers_eq, sendValid_eq, hs]

/-- a buffer that sends does not look at the request -/
theorem nextState_sending {b : PacketBuffer.St} (hs : b.curState ≠ .idle) (req ready : Bool) :
    PacketBuffer.nextState b req ready = PacketBuffer.nextState b true ready := by
  cases hc : b.curState <;> first | exact absurd hc hs | simp only [PacketBuffer.nextState, hc]

theorem next_sending (hs : s.buffer.curState ≠ .idle) (hq : i.Quiet) :
    PacketBuffer.next s.buffer (s.bufferIn i) = PacketBuffer.next s.buffer (PacketBuffer.sending (s.sendReady i)) := by
  obtain ⟨h1, h2, h3, h4⟩ := hq
  simp [PacketBuffer.next, bufferIn, PacketBuffer.sending, h1, h2, h3, h4, hs, nextState_sending hs i.sendReq]

theorem sendAck_sending (hs : s.buffer.curState ≠ .idle) :
    s.sendAck i = PacketBuffer.sendAck s.buffer true (s.sendReady i) := by
  rw [sendAck, PacketBuffer.sendAck, nextState_sending hs, ← PacketBuffer.sendAck]

theorem curState_next (hs : s.buffer.curState ≠ .idle) : (s.step i).buffer.curState =
    PacketBuffer.nextState s.buffer true (s.sendReady i) := nextState_sending hs _ _

/-- behind the first byte the buffer is busy -/
theorem curState_of_sendingAt {b : PacketBuffer.St} {k : ℕ} (h : PacketBuffer.SendingAt b (k + 1)) : b.curState ≠ .idle := by
  cases h <;> simp_all

/-- **Step.** A reply goes on byte by byte, and the acknowledge comes with its last byte. -/
theorem Phase.next (h : Phase s) (hst : Stored s)
    (hq : s.buffer.curState ≠ .idle → s.sendAck i = false → i.Quiet) :
    Phase (s.step i) ∧ (s.sendAck i = true ↔ s.transfers i = true ∧
      (s.step i).transferred = s.requested.flatMap Reply.bytes) := by
  cases h with
  | idle hs ht ha =>
    have htr := transfers_of_idle (i := i) hs
    have hack : s.sendAck i = false := by simp [sendAck, PacketBuffer.sendAck, hs]
    refine ⟨?_, by simp [htr, hack]⟩
    cases hreq : i.sendReq
    · have htake : s.takes i = false := by simp [takes, hreq]
      refine .idle ?_ ?_ ?_
      · simp [step, PacketBuffer.next, bufferIn, PacketBuffer.nextState, hs, hreq]
      · simp [step, htr, htake, ht]
      · simp [step, hack, htake, ha]
    · have htake : s.takes i = true := by simp [takes, hs, hreq]
      have hs' : (s.step i).buffer.curState = .sendStatus := by
        simp [step, PacketBuffer.next, bufferIn, PacketBuffer.nextState, hs, hreq]
      refine .sending s.requested (s.written.write (s.bufferIn i)).reply 0 ?_ (.status hs' ?_) (hst.step i).packet ?_ ?_ ?_
      · simp [hs']
      · simp [step, PacketBuffer.next, bufferIn, hs, hreq]
      · simp [step, htake]
      · simp [step, htr, ht]
      · simp [step, hack, ha]
  | sending l p k hs hk hp hr ht ha =>
    have htake : s.takes i = false := by simp [takes, hs]
    have hvalid : s.sendValid = true := by simp [sendValid_eq, hs]
    have htr : s.transfers i = s.sendReady i := by rw [transfers_eq, hvalid, Bool.true_and]
    have hreq : (s.step i).requested = l ++ [p] := by simp [step, htake, hr]
    have hack : s.sendAck i = PacketBuffer.sendAck s.buffer true (s.sendReady i) := sendAck_sending hs
    cases hready : s.sendReady i
    · -- the byte waits
      rw [hready] at htr hack
      obtain ⟨hstay, hno⟩ : PacketBuffer.SendingAt _ k ∧ PacketBuffer.sendAck s.buffer true false = false := hk.stay (.inl rfl)
      rw [hno] at hack
      have hnext : (s.step i).buffer = PacketBuffer.next s.buffer (PacketBuffer.sending false) := by
        rw [← hready]
        exact next_sending hs (hq hs hack)
      refine ⟨.sending l p k ?_ (hnext ▸ hstay) ?_ hreq ?_ ?_, by simp [htr, hack]⟩
      · rw [curState_next hs, hready]
        cases hc : s.buffer.curState <;> simp_all [PacketBuffer.nextState]
      · rw [hnext, PacketBuffer.packet_sending, hp]
      · simp [step, htr, ht]
      · simp [step, hack, ha]
    · -- the byte goes over
      rw [hready] at htr hack
      obtain ⟨v, hv⟩ := Option.isSome_iff_exists.1 hvalid
      have hbyte : p.bytes[k]? = some v := by rw [← hp]; exact hk.sendData_eq hv
      have ht' : (s.step i).transferred = l.flatMap Reply.bytes ++ p.bytes.take (k + 1) := by
        simp [step, htr, ht, hv, List.take_add_one, hbyte]
      have hnext := hk.next hvalid
      rw [hp] at hnext
      by_cases hlast : k + 1 = p.bytes.length
      · rw [if_pos hlast] at hnext
        rw [hnext.2] at hack
        have hall : (s.step i).transferred = s.requested.flatMap Reply.bytes := by
          rw [ht', hr, hlast, List.take_length]
          simp
        refine ⟨.idle ?_ ?_ ?_, by simp [htr, hack, hall]⟩
        · rw [curState_next hs, hready]
          exact hnext.1
        · rw [hall, hreq, hr]
        · simp [step, hack, ha, htake, hr]
      · rw [if_neg hlast] at hnext
        rw [hnext.2] at hack
        have hlt : k + 1 < p.bytes.length := by
          have := hk.lt
          rw [hp] at this
          omega
        have hbuf : (s.step i).buffer = PacketBuffer.next s.buffer (PacketBuffer.sending true) := by
          rw [← hready]
          exact next_sending hs (hq hs hack)
        have hshort : (s.step i).transferred ≠ s.requested.flatMap Reply.bytes := by
          intro he
          have hlen := congrArg List.length he
          rw [ht', hr] at hlen
          simp only [List.length_append, List.length_take, List.flatMap_append, List.flatMap_singleton] at hlen
          omega
        refine ⟨.sending l p (k + 1) ?_ (hbuf ▸ hnext.1) ?_ hreq ht' ?_, by simp [hack, hshort]⟩
        · rw [hbuf]
          exact curState_of_sendingAt hnext.1
        · rw [hbuf, PacketBuffer.packet_sending, hp]
        · simp [step, hack, ha]

/-! ### Runs -/

variable {b : PacketBuffer.St} {d : ValidReadyDelay.St T} {inp : ℕ → ReplyIn}

theorem after_succ (n : ℕ) : after b d inp (n + 1) = (after b d inp n).step (inp n) := rfl

theorem run_inv (hu : Undisturbed b d inp) (n : ℕ) : Phase (after b d inp n) ∧ Stored (after b d inp n) := by
  induction n with
  | zero => exact ⟨.idle rfl rfl rfl, rfl⟩
  | succ n ih => exact ⟨(ih.1.next ih.2 (hu n)).1, ih.2.step (inp n)⟩

theorem Phase.inOrder (h : Phase s) : s.transferred <+: s.requested.flatMap Reply.bytes := by
  cases h with
  | idle hs ht ha => rw [ht]
  | sending l p k hs hk hp hr ht ha =>
    rw [ht, hr, List.flatMap_append, List.flatMap_singleton]
    exact (List.prefix_append_right_inj _).2 (List.take_prefix k p.bytes)

/-- the acknowledged replies have left, and at most one has been requested beyond them -/
theorem Phase.acked (h : Phase s) : s.requested.length ≤ s.acks + 1 ∧
    ∃ rest, s.transferred = (s.requested.take s.acks).flatMap Reply.bytes ++ rest := by
  cases h with
  | idle hs ht ha => exact ⟨by omega, [], by rw [ht, ha, List.take_length, List.append_nil]⟩
  | sending l p k hs hk hp hr ht ha =>
    refine ⟨by simp [hr, ha], p.bytes.take k, ?_⟩
    rw [ht, hr, ha, List.take_left]

theorem Phase.acks_le (h : Phase s) : s.acks ≤ s.requested.length := by
  cases h with
  | idle hs ht ha => exact ha.le
  | sending l p k hs hk hp hr ht ha => simp [hr, ha]

theorem requested_mono {n m : ℕ} (hnm : n ≤ m) : (after b d inp n).requested <+: (after b d inp m).requested := by
  refine Clocked.log_prefix ReplySession.requested (fun s i => ?_) hnm
  show s.requested <+: if s.takes i then _ else s.requested
  split_ifs
  · exact List.prefix_append _ _
  · exact List.prefix_refl _

theorem requested_bytes_mono (b : PacketBuffer.St) (d : ValidReadyDelay.St T) (inp : ℕ → ReplyIn) {n m : ℕ}
    (hnm : n ≤ m) :
    (after b d inp n).requested.flatMap Reply.bytes <+: (after b d inp m).requested.flatMap Reply.bytes :=
  (requested_mono hnm).flatMap Reply.bytes

/-! ### The gate -/

/-- **Spacing.** `k` cycles after a transfer the counter stands at `T - k`, so that nothing passes before `T` cycles are
over. -/
theorem counter_after {n : ℕ} (h : (after b d inp n).transfers (inp n) = true) {k : ℕ} (hk : k ≤ T) :
    (after b d inp (n + 1 + k)).delay.counter.toNat = T - k := by
  induction k with
  | zero =>
    rw [transfers, ValidReadyDelay.slaveValid_eq] at h
    exact ValidReadyDelay.next_transfer h
  | succ k ih =>
    have hc := ih (by omega)
    have hclosed : ValidReadyDelay.passEn (after b d inp (n + 1 + k)).delay = false := by
      refine Bool.eq_false_iff.2 fun hp => ?_
      rw [beq_iff_eq.1 hp] at hc
      simp at hc
      omega
    have hnext := ValidReadyDelay.next_idle (s := (after b d inp (n + 1 + k)).delay)
      (v := (after b d inp (n + 1 + k)).sendValid) (r := (inp (n + 1 + k)).slaveReady) (by rw [hclosed]; rfl)
    rw [hc] at hnext
    rw [← Nat.add_assoc, after_succ]
    exact hnext.trans (by omega)

theorem spaced {n m : ℕ} (hnm : n < m) (hn : (after b d inp n).transfers (inp n) = true)
    (hm : (after b d inp m).transfers (inp m) = true) : T < m - n := by
  by_contra hclose
  obtain ⟨k, rfl⟩ := Nat.exists_eq_add_of_le (Nat.succ_le_of_lt hnm)
  have hc := counter_after hn (k := k) (by omega)
  rw [transfers, ValidReadyDelay.slaveValid_eq] at hm
  simp only [Bool.and_eq_true, ValidReadyDelay.passEn, beq_iff_eq] at hm
  have hzero : (after b d inp (n + 1 + k)).delay.counter.toNat = 0 := by
    have h0 := hm.1.1
    exact (congrArg BitVec.toNat h0).trans rfl
  omega

/-- a closed gate has opened when its counter has run down -/
theorem gate_runs_down (n : ℕ) : ∃ m, n ≤ m ∧ ValidReadyDelay.passEn (after b d inp m).delay = true := by
  -- induction on the counter at the starting cycle
  induction hc : (after b d inp n).delay.counter.toNat generalizing n with
  | zero =>
    have h0 : (after b d inp n).delay.counter = 0 := BitVec.eq_of_toNat_eq (by simpa using hc)
    exact ⟨n, le_rfl, by simp [ValidReadyDelay.passEn, h0]⟩
  | succ c ih =>
    have hclosed : ValidReadyDelay.passEn (after b d inp n).delay = false := by
      refine Bool.eq_false_iff.2 fun hp => ?_
      rw [beq_iff_eq.1 hp] at hc
      simp at hc
    have hnext := ValidReadyDelay.next_idle (s := (after b d inp n).delay) (v := (after b d inp n).sendValid)
      (r := (inp n).slaveReady) (by rw [hclosed]; rfl)
    obtain ⟨m, hm, hopen⟩ := ih (n + 1) (by rw [after_succ]; exact hnext.trans (by omega))
    exact ⟨m, by omega, hopen⟩

/-- an open gate stays open until the UART is ready, so that the buffer sees a ready again and again -/
theorem gate_opens (hfair : ∀ n, ∃ m, n ≤ m ∧ (inp m).slaveReady = true) (n : ℕ) :
    ∃ m, n ≤ m ∧ (after b d inp m).sendReady (inp m) = true := by
  obtain ⟨m, hnm, hopen⟩ : ∃ m, n ≤ m ∧ ValidReadyDelay.passEn (after b d inp m).delay = true := gate_runs_down n
  obtain ⟨k, hmk, hk, hready⟩ := Clocked.lasts_until
    (P := fun m => ValidReadyDelay.passEn (after b d inp m).delay = true) (Q := fun m => (inp m).slaveReady = true)
    (fun j hj hno => by
      rw [Bool.not_eq_true] at hno
      have hnext := ValidReadyDelay.next_idle (s := (after b d inp j).delay) (v := (after b d inp j).sendValid)
        (r := (inp j).slaveReady) (by rw [hno, Bool.and_false])
      rw [beq_iff_eq.1 hj] at hnext
      have hdelay : (after b d inp (j + 1)).delay.counter.toNat = 0 := hnext
      have h0 : (after b d inp (j + 1)).delay.counter = 0 := BitVec.eq_of_toNat_eq (by simpa using hdelay)
      show ValidReadyDelay.passEn (after b d inp (j + 1)).delay = true
      simp [ValidReadyDelay.passEn, h0]) hfair hopen
  exact ⟨k, by omega, by rw [sendReady, ValidReadyDelay.masterReady_eq, hk, hready]; rfl⟩

/-- while a requested byte is missing, one more byte goes over -/
theorem one_more (hu : Undisturbed b d inp) (hfair : ∀ n, ∃ m, n ≤ m ∧ (inp m).slaveReady = true) {n : ℕ}
    (hmissing : (after b d inp n).transferred.length < ((after b d inp n).requested.flatMap Reply.bytes).length) :
    ∃ m, n ≤ m ∧ (after b d inp n).transferred.length < (after b d inp m).transferred.length := by
  obtain ⟨m, hnm, hsame, hready⟩ := Clocked.lasts_until
    (P := fun m => n ≤ m ∧ (after b d inp m).transferred = (after b d inp n).transferred)
    (Q := fun m => (after b d inp m).sendReady (inp m) = true)
    (fun j hj hno => by
      have htr : (after b d inp j).transfers (inp j) = false := by
        rw [transfers_eq, Bool.eq_false_of_not_eq_true hno, Bool.and_false]
      exact ⟨by omega, by rw [after_succ, step, htr]; exact hj.2⟩) (gate_opens hfair) ⟨le_rfl, rfl⟩
  have hbusy : (after b d inp m).buffer.curState ≠ .idle := by
    intro hidle
    cases (run_inv hu m).1 with
    | idle _ ht _ =>
      have hle := (requested_bytes_mono b d inp hnm).length_le
      rw [← ht, hsame.2] at hle
      omega
    | sending _ _ _ hs => exact hs hidle
  have hvalid : (after b d inp m).sendValid = true := by simp [sendValid_eq, hbusy]
  have htr : (after b d inp m).transfers (inp m) = true := by rw [transfers_eq, hvalid, hready]; rfl
  obtain ⟨v, hv⟩ := Option.isSome_iff_exists.1 hvalid
  refine ⟨m + 1, by omega, ?_⟩
  rw [after_succ, step, htr, hv, ← hsame.2]
  simp

/-- **Progress.** If the UART is ready again and again, everything requested leaves. -/
theorem all_leave (hu : Undisturbed b d inp) (hfair : ∀ n, ∃ m, n ≤ m ∧ (inp m).slaveReady = true) (n : ℕ) :
    ∃ m, n ≤ m ∧ (after b d inp n).requested.flatMap Reply.bytes <+: (after b d inp m).transferred := by
  have hmore : ∀ c, ∃ m, n ≤ m ∧ (c ≤ (after b d inp m).transferred.length ∨
      (after b d inp n).requested.flatMap Reply.bytes <+: (after b d inp m).transferred) := by
    intro c
    induction c with
    | zero => exact ⟨n, le_rfl, .inl (Nat.zero_le _)⟩
    | succ c ih =>
      obtain ⟨m, hnm, hlen | hdone⟩ := ih
      · have hreq := requested_bytes_mono b d inp hnm
        by_cases hmissing : (after b d inp m).transferred.length <
            ((after b d inp m).requested.flatMap Reply.bytes).length
        · obtain ⟨k, hmk, hk⟩ := one_more hu hfair hmissing
          exact ⟨k, by omega, .inl (by omega)⟩
        · have hall := (run_inv hu m).1.inOrder.eq_of_length_le (by omega)
          exact ⟨m, hnm, .inr (hall ▸ hreq)⟩
      · exact ⟨m, hnm, .inr hdone⟩
  obtain ⟨m, hnm, hlen | hdone⟩ := hmore ((after b d inp n).requested.flatMap Reply.bytes).length
  · have hreq := requested_bytes_mono b d inp hnm
    exact ⟨m, hnm, List.prefix_of_prefix_length_le hreq (run_inv hu m).1.inOrder hlen⟩
  · exact ⟨m, hnm, hdone⟩

/-! ### The contract -/

/-- bytes in order and no others, spaced, acknowledged with the last byte of each reply, and read by the host as the
replies -/
structure Serialises (b : PacketBuffer.St) (d : ValidReadyDelay.St T) (inp : ℕ → ReplyIn) : Prop where
  inOrder : ∀ n, (after b d inp n).transferred <+: (after b d inp n).requested.flatMap Reply.bytes
  leaves : (∀ n, ∃ m, n ≤ m ∧ (inp m).slaveReady = true) → ∀ n, ∃ m, n ≤ m ∧
    (after b d inp n).requested.flatMap Reply.bytes <+: (after b d inp m).transferred
  spaced : ∀ n m, n < m → (after b d inp n).transfers (inp n) = true → (after b d inp m).transfers (inp m) = true →
    T < m - n
  /-- an acknowledge comes in exactly the cycles that transfer the last byte requested -/
  acknowledged : ∀ n, (after b d inp n).sendAck (inp n) = true ↔ (after b d inp n).transfers (inp n) = true ∧
    (after b d inp (n + 1)).transferred = (after b d inp n).requested.flatMap Reply.bytes
  /-- as many as replies, but for the one under way -/
  counted : ∀ n, (after b d inp n).acks ≤ (after b d inp n).requested.length ∧
    (after b d inp n).requested.length ≤ (after b d inp n).acks + 1
  decoded : ∀ n, UARTDebugger.receiveResponses (after b d inp n).acks (after b d inp n).transferred =
    .ok (((after b d inp n).requested.take (after b d inp n).acks).map Reply.fields)

/-- **Replies.** Whatever is written before each request and whenever the UART is ready. -/
theorem serialises (b : PacketBuffer.St) (d : ValidReadyDelay.St T) (inp : ℕ → ReplyIn) (hu : Undisturbed b d inp) :
    Serialises b d inp where
  inOrder n := (run_inv hu n).1.inOrder
  leaves hfair n := all_leave hu hfair n
  spaced _ _ hnm hn hm := spaced hnm hn hm
  acknowledged n := ((run_inv hu n).1.next (run_inv hu n).2 (hu n)).2
  counted n := ⟨(run_inv hu n).1.acks_le, (run_inv hu n).1.acked.1⟩
  decoded n := by
    obtain ⟨-, rest, hrest⟩ := (run_inv hu n).1.acked
    have hlen : ((after b d inp n).requested.take (after b d inp n).acks).length = (after b d inp n).acks := by
      rw [List.length_take, Nat.min_eq_left (run_inv hu n).1.acks_le]
    have hread := UARTDebugger.receiveResponses_bytes ((after b d inp n).requested.take (after b d inp n).acks) rest
    rw [hlen, ← hrest] at hread
    exact hread

/-- one payload byte, written before the status, and a UART that is ready in every other cycle -/
def oneByteReply : ℕ → ReplyIn
  | 0 => ⟨none, none, some 1, some (0, 0xAB), false, true⟩
  | 1 => ⟨some 0, none, none, none, false, true⟩
  | 2 => ⟨none, some 7, none, none, true, false⟩
  | n + 3 => ⟨none, none, none, none, false, n % 2 == 0⟩

theorem serialises_one_byte :
    Serialises (T := 10) ⟨.idle, 0, 0, 0, 0, fun _ => 0⟩ ⟨0⟩ oneByteReply := by
  refine serialises _ _ _ fun n hn _ => ?_
  match n with
  | 0 => exact absurd rfl hn
  | 1 => exact absurd rfl hn
  | 2 => exact absurd rfl hn
  | n + 3 => exact ⟨rfl, rfl, rfl, rfl⟩

end ReplySession

end FpgaLearning.Debug
