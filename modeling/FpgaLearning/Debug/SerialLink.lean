/-
The debug module on its serial line (`Calc2/src/top.sv`): `DebugModule` behind the serial port, `ValidReadyDelay` in between,
and a host with a clock of his own.

`System` has a host that hands bytes over and takes bytes as they leave. Here there are only the two wires of the line. The
host sends the bytes of his requests, at his own pace, and begins a request when `_receive_response` has returned for all
requests before it.

- `matches_run`: the circuit goes through the states of `System`, with the bytes that come off the line as those that its
  host hands over;
- `hears_all`: no request is left without its reply;
- `requests_over_line` puts both together.
-/
import FpgaLearning.Debug.Liveness
import FpgaLearning.Debug.SerialPort

namespace FpgaLearning.Debug

open FpgaLearning.Memory FpgaLearning.Uart FpgaLearning.SerialLine

/-! ## What the host reads -/

/-- what `_receive_response` returns for the reply of a transaction -/
def Transaction.response (x : Transaction) : ℕ × ℕ × List Byte :=
  (x.request.status.toNat, x.request.id.toNat, x.reply.drop 3)

namespace UARTDebugger

theorem receiveResponse_reply {x : Transaction} (h : x.Ok) (rest : List Byte) :
    receiveResponse (x.reply ++ rest) = .ok x.response ∧ 3 + x.response.2.2.length = x.reply.length := by
  obtain ⟨len, payload, hreply, hlen⟩ := h.reply
  rw [Transaction.response, hreply]
  constructor
  · simp only [List.cons_append, receiveResponse, List.length_append, hlen]
    rw [if_neg (by omega), ← hlen, List.take_left]
    rfl
  · simp only [List.drop_succ_cons, List.drop_zero, List.length_cons]
    omega

theorem receiveResponses_replies {xs : List Transaction} (h : ∀ x ∈ xs, x.Ok) (n : ℕ) (rest : List Byte) :
    receiveResponses (xs.length + n) (xs.flatMap (·.reply) ++ rest) =
      (receiveResponses n rest).map (xs.map Transaction.response ++ ·) := by
  induction xs with
  | nil =>
    rw [List.length_nil, Nat.zero_add, List.flatMap_nil, List.nil_append]
    cases receiveResponses n rest <;> rfl
  | cons x xs ih =>
    obtain ⟨hread, hlen⟩ := receiveResponse_reply (h x List.mem_cons_self) (xs.flatMap (·.reply) ++ rest)
    rw [List.length_cons, Nat.add_right_comm, List.flatMap_cons, List.append_assoc, receiveResponses, hread]
    change (receiveResponses (xs.length + n) ((x.reply ++ (xs.flatMap (·.reply) ++ rest)).drop
      (3 + x.response.2.2.length)) >>= _) = _
    rw [hlen, List.drop_left, ih fun y hy => h y (List.mem_cons_of_mem _ hy)]
    cases receiveResponses n rest <;> rfl

/-- a reply that has not arrived completely is no reply -/
theorem receiveResponse_take {b : PacketBuffer.St} {k : ℕ} (hk : k < (PacketBuffer.packet b).length) :
    ∃ x, receiveResponse ((PacketBuffer.packet b).take k) = .error x := by
  rw [PacketBuffer.length_packet] at hk
  match k with
  | 0 => exact ⟨_, rfl⟩
  | 1 => exact ⟨_, rfl⟩
  | 2 => exact ⟨_, rfl⟩
  | k + 3 =>
    simp only [PacketBuffer.packet, List.take_succ_cons, receiveResponse]
    rw [if_pos (by simp; omega)]
    exact ⟨_, rfl⟩

theorem receiveResponse_append {l : List Byte} {r : ℕ × ℕ × List Byte} (h : receiveResponse l = .ok r) (rest : List Byte) :
    receiveResponse (l ++ rest) = .ok r ∧ 3 + r.2.2.length ≤ l.length := by
  match l, h with
  | status :: respId :: len :: data, h =>
    by_cases hshort : data.length < len.toNat
    · rw [receiveResponse, if_pos hshort] at h
      cases h
    · rw [receiveResponse, if_neg hshort] at h
      cases h
      constructor
      · simp only [List.cons_append, receiveResponse, List.length_append]
        rw [if_neg (by omega), List.take_append_of_le_length (by omega)]
      · simp only [List.length_take, List.length_cons]
        omega

/-- what has been read stays read -/
theorem receiveResponses_append {n : ℕ} {l : List Byte} {rs : List (ℕ × ℕ × List Byte)} (h : receiveResponses n l = .ok rs)
    (rest : List Byte) : receiveResponses n (l ++ rest) = .ok rs := by
  induction n generalizing l rs with
  | zero => exact h
  | succ n ih =>
    rw [receiveResponses] at h ⊢
    cases hr : receiveResponse l with
    | error x =>
      rw [hr] at h
      cases h
    | ok r =>
      obtain ⟨hread, hlen⟩ := receiveResponse_append hr rest
      rw [hr] at h
      rw [hread]
      change (receiveResponses n (l.drop (3 + r.2.2.length)) >>= _) = _ at h
      change (receiveResponses n ((l ++ rest).drop (3 + r.2.2.length)) >>= _) = _
      rw [List.drop_append_of_le_length hlen]
      cases hrs : receiveResponses n (l.drop (3 + r.2.2.length)) with
      | error x =>
        rw [hrs] at h
        cases h
      | ok rs' =>
        rw [ih hrs]
        rw [hrs] at h
        exact h

/-- fewer replies have been read, too -/
theorem receiveResponses_le {n m : ℕ} {l : List Byte} (hn : n ≤ m) (h : ∃ rs, receiveResponses m l = .ok rs) :
    ∃ rs, receiveResponses n l = .ok rs := by
  induction n generalizing m l with
  | zero => exact ⟨[], rfl⟩
  | succ n ih =>
    obtain ⟨m, rfl⟩ := Nat.exists_eq_add_of_lt hn
    obtain ⟨rs, h⟩ := h
    rw [receiveResponses] at h ⊢
    cases hr : receiveResponse l with
    | error x =>
      rw [hr] at h
      cases h
    | ok r =>
      rw [hr] at h
      change (receiveResponses (n + m) (l.drop (3 + r.2.2.length)) >>= _) = _ at h
      change ∃ rs, (receiveResponses n (l.drop (3 + r.2.2.length)) >>= _) = .ok rs
      cases hrs : receiveResponses (n + m) (l.drop (3 + r.2.2.length)) with
      | error x =>
        rw [hrs] at h
        cases h
      | ok rs' =>
        obtain ⟨rs'', hrs''⟩ := ih (Nat.le_add_right n m) ⟨rs', hrs⟩
        rw [hrs'']
        exact ⟨_, rfl⟩

end UARTDebugger

/-! ## The closed loop -/

namespace System

variable {s : System} {e : Cycle} {T : ℕ} {regs : Target → Byte} {mem : Target → WordMem} {requests : List Packet}

/-- the bytes of the host that the module has taken -/
def taken (s : System) : List Byte :=
  s.done.flatMap (·.request.bytes) ++ (s.host.requests.head?.elim [] fun p => p.bytes.take s.host.sent)

theorem input_eq {p : Packet} {rest : List Packet} (hp : s.host.requests = p :: rest) :
    s.input e = if e.go then p.bytes[s.host.sent]? else none := by
  rw [input, Host.pending, hp]

theorem finishes_busy (h : Phase s) (hfin : s.finishes e = true) : ∃ p, Busy s p := by
  cases h with
  | rest _ _ hbuf | receive _ _ _ hbuf | dispatch _ _ _ hbuf | exec _ _ _ hbuf =>
    rw [finishes_of_idle hbuf e] at hfin
    cases hfin
  | send p _ hb => exact ⟨p, hb⟩

theorem taken_next (h : Phase s) (e : Cycle) (T : ℕ) : (s.next e T).taken = s.taken ++ (s.input e).toList := by
  cases hfin : s.finishes e with
  | true =>
    obtain ⟨p, hb⟩ := finishes_busy h hfin
    obtain ⟨rest, hrest⟩ := hb.current
    rw [hb.input e, Option.toList_none, List.append_nil]
    have hsent : p.bytes.take s.host.sent = p.bytes := by rw [hb.sent, List.take_length]
    cases rest <;> simp [taken, System.next, hfin, hrest, hsent, transaction]
  | false =>
    have hdone : (s.next e T).done = s.done := by simp [System.next, hfin]
    have hhost : (s.next e T).host = ⟨s.host.requests, s.host.sent + (s.input e).isSome.toNat, s.gotNext e⟩ := by
      simp [System.next, hfin]
    rw [taken, taken, hdone, hhost]
    cases hq : s.host.requests with
    | nil => simp [input, Host.pending, hq]
    | cons p rest =>
      simp only [List.head?_cons, Option.elim_some, List.append_assoc]
      congr 1
      cases hin : s.input e with
      | none => simp
      | some x =>
        rw [input_eq hq, Option.ite_none_right_eq_some] at hin
        rw [Option.isSome_some, Bool.toNat_true, List.take_add_one, hin.2]

/-- the host has never more than a part of a reply in front of him -/
theorem receiveResponses_error (h : Inv regs mem requests s) :
    ∃ x, UARTDebugger.receiveResponses (s.done.length + 1) (s.done.flatMap (·.reply) ++ s.host.got) = .error x := by
  have herror : ∃ x, UARTDebugger.receiveResponse s.host.got = .error x := by
    cases h.phase with
    | rest _ _ _ _ hgot | receive _ _ _ _ _ hgot | dispatch _ _ _ _ hgot | exec _ _ _ _ hgot =>
      rw [hgot]
      exact ⟨_, rfl⟩
    | send p k _ _ hsend hgot =>
      rw [hgot]
      exact UARTDebugger.receiveResponse_take hsend.lt
  obtain ⟨x, hx⟩ := herror
  rw [UARTDebugger.receiveResponses_replies h.ok, UARTDebugger.receiveResponses, hx]
  exact ⟨x, rfl⟩

end System

/-! ## The wiring -/

/-- the word on the line for a byte: the byte and its parity -/
def wordOf (y : Byte) : BitVec (Params.calc2.dw + 1) := Rs232.evenParity.encode y

/-- how a word is read: the byte, and whether its parity is wrong -/
def readWord (w : BitVec (Params.calc2.dw + 1)) : Byte × Bool := Rs232.reading Rs232.evenParity w

theorem readWord_wordOf (y : Byte) : readWord (wordOf y) = (y, false) := Rs232.reading_encode _

structure SerialLink (F : Scfifo (Params.calc2.dw + 1)) where
  dm : DebugModule.St
  port : Target → Port WordMem
  delay : ValidReadyDelay.St replyTicks
  uart : Rs232 .calc2 F

/-- one cycle of the surroundings: the line from the host, the core and both memories -/
structure SerialIn where
  uartRx : Bool
  isHalted : Bool
  grant : Target → Bool
  bus : Target → Word

namespace SerialLink

variable {F : Scfifo (Params.calc2.dw + 1)} (s : SerialLink F) (i : SerialIn)

def sendValid : Bool := (DebugModule.sendData s.dm).isSome

def sendReady : Bool := ValidReadyDelay.masterReady s.delay s.uart.toUartReady

/-- `from_uart_data` -/
def lineByte : Byte := s.uart.fromUartData Rs232.evenParity

/-- `from_uart_error` -/
def lineError : Bool := s.uart.fromUartError Rs232.evenParity

def pins : DebugModule.In where
  inputValid := s.uart.fromUartValid
  inputError := s.lineError
  inputByte := s.lineByte
  sendReady := s.sendReady
  isHalted := i.isHalted
  dataData t := (s.port t).data
  dataAck t := (s.port t).ack

def req (t : Target) : Bool := DebugModule.req s.dm (s.pins i) t

/-- the parser is always ready: `input_ready` is tied high -/
def uartIn : Rs232.Input Rs232.evenParity where
  reset := false
  fromUartReady := true
  toUartData := ((DebugModule.sendData s.dm).getD 0 : Byte)
  toUartError := false
  toUartValid := ValidReadyDelay.slaveValid s.delay s.sendValid
  uartRxd := i.uartRx

def step (T : ℕ) : SerialLink F where
  dm := DebugModule.next T s.dm (s.pins i)
  port t := (s.port t).next wordDevice (s.req i t) (DebugModule.out s.dm t) (i.grant t) (i.bus t)
  delay := ValidReadyDelay.next s.delay s.sendValid s.uart.toUartReady
  uart := s.uart.step (s.uartIn i)

variable (F) (T : ℕ) (dm : DebugModule.St) (mem : Target → WordMem) (bus : Target → Word) (d : ValidReadyDelay.St replyTicks)

/-- after reset, whatever the registers without reset hold -/
def init : SerialLink F :=
  ⟨DebugModule.reset dm, fun t => ⟨mem t, false, bus t⟩, ValidReadyDelay.reset d, .init F⟩

abbrev run (inp : ℕ → SerialIn) (n : ℕ) : SerialLink F := Clocked.run (fun s i => s.step i T) inp (init F dm mem bus d) n

/-- the byte that the module takes from the line, with its parity error -/
def received (inp : ℕ → SerialIn) (n : ℕ) : Option (Byte × Bool) :=
  (run F T dm mem bus d inp n).uart.delivered ((run F T dm mem bus d inp n).uartIn (inp n))

/-- the byte that leaves for the line -/
def sent (inp : ℕ → SerialIn) (n : ℕ) : Option Byte :=
  (run F T dm mem bus d inp n).uart.accepted ((run F T dm mem bus d inp n).uartIn (inp n))

/-- what a host reads off the line before cycle `n`, with the parity errors he sees -/
def heard (S : Sampling) (inp : ℕ → SerialIn) (n : ℕ) : List (Byte × Bool) :=
  (logOf (S.frames (fun n => (run F T dm mem bus d inp n).uart.uartTxd) (Params.calc2.dw + 1)) n).map readWord

variable {F T dm mem bus d} {inp : ℕ → SerialIn}

/-! ### The serial port in it -/

/-- the reply path of `ReplyPort` in this circuit -/
def portIn (s : SerialLink F) (i : SerialIn) : PortIn where
  status := DebugModule.outStatus s.dm
  id := DebugModule.outId s.dm
  len := DebugModule.outLen s.dm
  payload := DebugModule.outPayload s.dm (s.pins i)
  sendReq := DebugModule.outSendReq s.dm
  fromUartReady := true
  uartRx := i.uartRx

/-- the two circuits are in the same state -/
structure Shows (P : ReplyPort F) (s : SerialLink F) : Prop where
  buffer : P.session.buffer = s.dm.buffer
  delay : P.session.delay = s.delay
  uart : P.uart = s.uart

theorem Shows.step {P : ReplyPort F} {s : SerialLink F} (h : Shows P s) (i : SerialIn) (T : ℕ) :
    Shows (P.step (s.portIn i)) (s.step i T) := by
  obtain ⟨⟨buffer, delay, written, requested, transferred, acks⟩, uart⟩ := P
  obtain ⟨rfl, rfl, rfl⟩ := h
  exact ⟨rfl, rfl, rfl⟩

variable (F T dm mem bus d) in
/-- the inputs of `ReplyPort` -/
def portInputs (inp : ℕ → SerialIn) (n : ℕ) : PortIn := (run F T dm mem bus d inp n).portIn (inp n)

theorem shows_run (n : ℕ) :
    Shows (ReplyPort.after dm.buffer d F (portInputs F T dm mem bus d inp) n) (run F T dm mem bus d inp n) := by
  induction n with
  | zero => exact ⟨rfl, rfl, rfl⟩
  | succ n ih => exact ih.step (inp n) T

theorem Shows.uartIn {P : ReplyPort F} {s : SerialLink F} (h : Shows P s) (i : SerialIn) :
    P.uartIn (s.portIn i) = s.uartIn i := by
  obtain ⟨⟨buffer, delay, written, requested, transferred, acks⟩, uart⟩ := P
  obtain ⟨rfl, rfl, rfl⟩ := h
  rfl

theorem uart_run (n : ℕ) : (run F T dm mem bus d inp n).uart =
    Rs232.run F (fun n => (run F T dm mem bus d inp n).uartIn (inp n)) n := by
  induction n with
  | zero => rfl
  | succ n ih =>
    change (run F T dm mem bus d inp n).uart.step _ = Rs232.step _ _
    rw [ih]
    rfl

theorem sent_eq : ReplyPort.accepted dm.buffer d F (portInputs F T dm mem bus d inp) = sent F T dm mem bus d inp := by
  funext n
  rw [ReplyPort.accepted, portInputs, (shows_run n).uartIn, (shows_run n).uart]
  rfl

theorem heard_eq (S : Sampling) :
    ReplyPort.heard dm.buffer d F S (portInputs F T dm mem bus d inp) = heard F T dm mem bus d S inp := by
  funext n
  have huart : (fun n => (ReplyPort.after dm.buffer d F (portInputs F T dm mem bus d inp) n).uart.uartTxd) =
      fun n => (run F T dm mem bus d inp n).uart.uartTxd := funext fun n => by rw [(shows_run n).uart]
  rw [ReplyPort.heard, huart]
  rfl

section Line

variable (hlatency : F.latency ≤ 1211)

include hlatency

/-- a host reads what has left, each byte a fixed time later at the latest -/
theorem heard_bounds {S : Sampling} (hS : Params.calc2.ReadBy S) (n : ℕ) :
    heard F T dm mem bus d S inp n <+: (logOf (sent F T dm mem bus d inp) (n - 2)).map (·, false) ∧
      (logOf (sent F T dm mem bus d inp) (n - 2 - (F.latency + 1))).map (·, false) <+: heard F T dm mem bus d S inp n := by
  rw [← heard_eq, ← sent_eq]
  exact ReplyPort.heard_bounds hlatency hS n

/-- the delay lets bytes through again and again -/
theorem sendReady_again (n : ℕ) : ∃ m, n ≤ m ∧ (run F T dm mem bus d inp m).sendReady = true := by
  obtain ⟨m, hnm, hm⟩ := @ReplySession.gate_opens _ dm.buffer d
    (fun n => (ReplyPort.after dm.buffer d F (portInputs F T dm mem bus d inp) n).replyIn (portInputs F T dm mem bus d inp n))
    (fun n => ⟨n + 1, Nat.le_succ n, ReplyPort.ready_succ hlatency n⟩) n
  rw [← ReplyPort.session_after] at hm
  refine ⟨m, hnm, ?_⟩
  rw [sendReady, ← (shows_run m).delay, ← (shows_run m).uart]
  exact hm

variable {num den : ℕ} {phase : ℕ → ℕ} {f : ℕ → Option (BitVec (Params.calc2.dw + 1))}

/-- the module takes what a host sends, each byte a fixed time later at the latest -/
theorem received_bounds (hears : Params.calc2.Hears num den 12)
    (hhost : SendsTicks num den 12 phase (fun n => (inp n).uartRx) f) (n : ℕ) : logOf (received F T dm mem bus d inp) n <+: (logOf f (n - 4787)).map readWord ∧
      (logOf f (n - 4787 - (F.latency + 1))).map readWord <+:
        logOf (received F T dm mem bus d inp) n := by
  have hreceived : received F T dm mem bus d inp = fun n =>
      (Rs232.run F (fun n => (run F T dm mem bus d inp n).uartIn (inp n)) n).delivered
        ((run F T dm mem bus d inp n).uartIn (inp n)) := by
    funext n
    rw [received, uart_run]
  have hbits : Params.calc2.allBits = 4785 := rfl
  rw [hreceived]
  exact Rs232.delivered_soon (fun _ => rfl) (hhost.sends.frames_eq (hears.fits hhost))
    (apart_of_ticks hhost.phase_lt hears.back hhost.apart) (fun _ _ _ _ => rfl)
    (show 0 + F.latency ≤ Params.calc2.allBits + 1 by rw [hbits]; omega) (le_refl n)

end Line

/-! ### The host -/

/-- `_receive_response` has returned for all requests before the byte that the host sends next -/
def Answered (requests : List Packet) (f : ℕ → Option (BitVec (Params.calc2.dw + 1))) (heard : ℕ → List (Byte × Bool))
    (n : ℕ) : Prop :=
  ∀ ps, ps <+: requests → (ps.flatMap Packet.bytes).length ≤ (logOf f n).length →
    ∃ rs, UARTDebugger.receiveResponses ps.length ((heard n).map Prod.fst) = .ok rs

/-- the words of the host are the bytes of his requests, and he begins a request after the replies to those before -/
structure Asks (requests : List Packet) (f : ℕ → Option (BitVec (Params.calc2.dw + 1))) (heard : ℕ → List (Byte × Bool)) :
    Prop where
  sends : ∀ n, logOf f n <+: (requests.flatMap Packet.bytes).map wordOf
  waits : ∀ n, (f n).isSome → Answered requests f heard n

/-- the byte on the input of the module -/
def input (s : SerialLink F) : Option Byte :=
  if s.uart.fromUartValid then some s.lineByte else none

/-- the choices of the surroundings of `System` in this cycle; `quiet` says that the host has nothing left, and then `go`
makes no difference -/
def cycle (s : SerialLink F) (i : SerialIn) (quiet : Bool) : Cycle where
  go := s.uart.fromUartValid || quiet
  idleByte := s.lineByte
  idleError := s.lineError
  sendReady := s.sendReady
  isHalted := i.isHalted
  grant := i.grant
  bus := i.bus

/-- the circuit, after the bytes `taken` from the line and the bytes `left` to it, is where the closed loop is -/
structure Matches (s : SerialLink F) (taken left : List Byte) (x : System) : Prop where
  dm : s.dm = x.dm
  port : s.port = x.port
  taken : taken = x.taken
  left : left = x.done.flatMap (·.reply) ++ x.host.got

/-- the byte that leaves -/
def output (s : SerialLink F) : Option Byte := if s.sendReady then DebugModule.sendData s.dm else none

variable {s : SerialLink F} {i : SerialIn} {taken left : List Byte} {x : System} {quiet : Bool}

theorem accepted_eq (s : SerialLink F) (i : SerialIn) : s.uart.accepted (s.uartIn i) = s.output := by
  rw [Rs232.accepted, output, sendReady, ValidReadyDelay.masterReady_eq]
  change (if (ValidReadyDelay.slaveValid s.delay s.sendValid && s.uart.toUartReady) = true then
    some (((DebugModule.sendData s.dm).getD 0 : Byte)) else none) = _
  rw [ValidReadyDelay.slaveValid_eq, sendValid]
  cases DebugModule.sendData s.dm <;> simp

theorem Matches.pins (h : Matches s taken left x) (hin : x.input (s.cycle i quiet) = s.input)
    (herr : s.uart.fromUartValid = true → s.lineError = false) :
    x.pins (s.cycle i quiet) = s.pins i := by
  rw [System.pins, hin, SerialLink.pins, h.port]
  cases hv : s.uart.fromUartValid with
  | false =>
    rw [input, hv, if_neg Bool.false_ne_true]
    rfl
  | true =>
    rw [input, hv, if_pos rfl, herr hv]
    rfl

/-- **A cycle** in which the host of the closed loop hands over the byte that comes off the line. -/
theorem Matches.step {regs : Target → Byte} {requests : List Packet} (h : Matches s taken left x)
    (hinv : System.Inv regs mem requests x) (hin : x.input (s.cycle i quiet) = s.input)
    (herr : s.uart.fromUartValid = true → s.lineError = false) (T : ℕ) :
    Matches (s.step i T) (taken ++ s.input.toList) (left ++ s.output.toList) (x.next (s.cycle i quiet) T) := by
  have hpins := h.pins hin herr
  refine ⟨?_, ?_, ?_, ?_⟩
  · change DebugModule.next T s.dm (s.pins i) = DebugModule.next T x.dm (x.pins (s.cycle i quiet))
    rw [hpins, h.dm]
  · funext t
    change (s.port t).next wordDevice (DebugModule.req s.dm (s.pins i) t) (DebugModule.out s.dm t) (i.grant t) (i.bus t) =
      (x.port t).next wordDevice (DebugModule.req x.dm (x.pins (s.cycle i quiet)) t) (DebugModule.out x.dm t) (i.grant t)
        (i.bus t)
    rw [hpins, h.dm, h.port]
  · rw [System.taken_next hinv.phase, hin, h.taken]
  · rw [System.replies_next hinv, h.left, System.emitted, ← h.dm]
    rfl

/-! ### Where the next byte belongs -/

/-- the host of the closed loop has sent all but the bytes of the requests that wait -/
theorem taken_append {regs : Target → Byte} {requests : List Packet} (hinv : System.Inv regs mem requests x) :
    requests.flatMap Packet.bytes = x.done.flatMap (·.request.bytes) ++ x.host.requests.flatMap Packet.bytes := by
  rw [← hinv.order, List.flatMap_append, List.flatMap_map]

theorem pending_none {regs : Target → Byte} {requests : List Packet} (hinv : System.Inv regs mem requests x)
    (hall : (requests.flatMap Packet.bytes).length ≤ x.taken.length) : x.host.pending = none := by
  rw [taken_append hinv, System.taken, List.length_append, List.length_append] at hall
  rw [Host.pending]
  cases hq : x.host.requests with
  | nil => rfl
  | cons p rest =>
    rw [hq] at hall
    simp only [List.flatMap_cons, List.length_append, List.head?_cons, Option.elim_some, List.length_take] at hall
    rw [List.getElem?_eq_none_iff]
    omega

/-- a byte that comes within the current request is the one that the host of the closed loop sends next -/
theorem pending_some {regs : Target → Byte} {requests : List Packet} (hinv : System.Inv regs mem requests x) {y : Byte}
    (hnext : x.taken ++ [y] <+: requests.flatMap Packet.bytes)
    (hwithin : ∀ p rest, x.host.requests = p :: rest → x.host.sent < p.bytes.length) : x.host.pending = some y := by
  rw [taken_append hinv, System.taken, List.append_assoc, List.prefix_append_right_inj] at hnext
  rw [Host.pending]
  cases hq : x.host.requests with
  | nil => simp [hq] at hnext
  | cons p rest =>
    have hlt := hwithin p rest hq
    rw [hq, List.head?_cons, Option.elim_some, List.flatMap_cons] at hnext
    obtain ⟨t, ht⟩ := hnext
    have hlen : (p.bytes.take x.host.sent).length = x.host.sent := by
      rw [List.length_take]
      omega
    have hget := congrArg (·[x.host.sent]?) ht
    simp only [List.append_assoc, List.getElem?_append_left hlt] at hget
    rw [List.getElem?_append_right hlen.le, hlen, Nat.sub_self] at hget
    exact hget.symm

/-- behind the current request the host waits for its reply -/
theorem within {regs : Target → Byte} {requests : List Packet} (hinv : System.Inv regs mem requests x)
    (hread : ∀ ps, ps <+: requests → (ps.flatMap Packet.bytes).length ≤ x.taken.length →
      ∃ got rs, got <+: x.done.flatMap (·.reply) ++ x.host.got ∧ UARTDebugger.receiveResponses ps.length got = .ok rs)
    {p : Packet} {rest : List Packet} (hq : x.host.requests = p :: rest) : x.host.sent < p.bytes.length := by
  by_contra hle
  have hps : x.done.map (·.request) ++ [p] <+: requests := by
    rw [← hinv.order, hq]
    exact (List.prefix_append_right_inj _).2 ⟨rest, rfl⟩
  obtain ⟨got, rs, ⟨t, ht⟩, hrs⟩ := hread _ hps (by
    simp only [System.taken, hq, List.head?_cons, Option.elim_some, List.flatMap_append, List.flatMap_map,
      List.flatMap_cons, List.flatMap_nil, List.append_nil, List.length_append, List.length_take]
    omega)
  obtain ⟨e, he⟩ := System.receiveResponses_error hinv
  have hall := UARTDebugger.receiveResponses_append hrs t
  rw [ht, List.length_append, List.length_map, List.length_singleton, he] at hall
  cases hall

/-! ### Runs -/

theorem received_eq (n : ℕ) : received F T dm mem bus d inp n =
    (run F T dm mem bus d inp n).input.map fun y => (y, (run F T dm mem bus d inp n).lineError) := by
  rw [received, Rs232.delivered, input, apply_ite (Option.map _)]
  rfl

theorem sent_output (n : ℕ) : sent F T dm mem bus d inp n = (run F T dm mem bus d inp n).output := accepted_eq _ _

variable (F T dm mem bus d) in
/-- what the surroundings of the closed loop do -/
def schedule (requests : List Packet) (inp : ℕ → SerialIn) (n : ℕ) : Cycle :=
  (run F T dm mem bus d inp n).cycle (inp n)
    (decide ((requests.flatMap Packet.bytes).length ≤ (logOf (received F T dm mem bus d inp) n).length))

variable {requests : List Packet} {num den : ℕ} {phase : ℕ → ℕ} {f : ℕ → Option (BitVec (Params.calc2.dw + 1))} {S : Sampling}
  (hlatency : F.latency ≤ 1211) (hears : Params.calc2.Hears num den 12)
  (hhost : SendsTicks num den 12 phase (fun n => (inp n).uartRx) f) (hS : Params.calc2.ReadBy S)
  (hasks : Asks requests f (heard F T dm mem bus d S inp))

include hlatency hears hhost

/-- what the module takes are bytes of the requests, without a parity error -/
theorem received_asked (hasks : Asks requests f (heard F T dm mem bus d S inp)) (n : ℕ) :
    logOf (received F T dm mem bus d inp) n <+: (requests.flatMap Packet.bytes).map (·, false) := by
  have hle := (@received_bounds F T dm mem bus d inp hlatency num den phase f hears hhost n).1.trans
    ((hasks.sends (n - 4787)).map readWord)
  have hreading : ((requests.flatMap Packet.bytes).map wordOf).map readWord =
      (requests.flatMap Packet.bytes).map (·, false) := by
    rw [List.map_map]
    exact List.map_congr_left fun y _ => readWord_wordOf y
  rwa [hreading] at hle

omit hlatency hears hhost in
theorem taken_succ (n : ℕ) : (logOf (received F T dm mem bus d inp) (n + 1)).map Prod.fst =
    (logOf (received F T dm mem bus d inp) n).map Prod.fst ++ (run F T dm mem bus d inp n).input.toList := by
  rw [logOf_succ, List.map_append, received_eq]
  cases (run F T dm mem bus d inp n).input <;> rfl

include hS hasks

/-- when the module takes a byte, the host has read the replies to all requests before it -/
theorem answered_before {n : ℕ} (hsome : (run F T dm mem bus d inp n).input.isSome) {ps : List Packet} (hps : ps <+: requests)
    (hlen : (ps.flatMap Packet.bytes).length ≤ (logOf (received F T dm mem bus d inp) n).length) :
    ∃ got rs, got <+: logOf (sent F T dm mem bus d inp) n ∧ UARTDebugger.receiveResponses ps.length got = .ok rs := by
  have hlt : (logOf (received F T dm mem bus d inp) n).length < (logOf f (n + 1 - 4787)).length := by
    have hle := (@received_bounds F T dm mem bus d inp hlatency num den phase f hears hhost (n + 1)).1.length_le
    rw [List.length_map, logOf_succ, List.length_append, received_eq] at hle
    obtain ⟨y, hy⟩ := Option.isSome_iff_exists.1 hsome
    rw [hy, Option.map_some, Option.toList_some, List.length_singleton] at hle
    omega
  obtain ⟨m, hm, hfm, hmlen⟩ := event_of_lt_length hlt
  obtain ⟨rs, hrs⟩ := hasks.waits m hfm ps hps (by omega)
  refine ⟨_, rs, ?_, hrs⟩
  have hheard := ((@heard_bounds F T dm mem bus d inp hlatency S hS m).1.map Prod.fst)
  rw [List.map_map] at hheard
  have hid : (logOf (sent F T dm mem bus d inp) (m - 2)).map (Prod.fst ∘ fun y : Byte => (y, false)) =
      logOf (sent F T dm mem bus d inp) (m - 2) := List.map_id _
  rw [hid] at hheard
  exact hheard.trans (logOf_mono (by omega))

/-- the byte on the input is the one that the host of the closed loop hands over -/
theorem input_run {n : ℕ} {regs : Target → Byte} (hinv : System.Inv regs mem requests x)
    (h : Matches (run F T dm mem bus d inp n) ((logOf (received F T dm mem bus d inp) n).map Prod.fst)
      (logOf (sent F T dm mem bus d inp) n) x) :
    x.input (schedule F T dm mem bus d requests inp n) = (run F T dm mem bus d inp n).input ∧
      ((run F T dm mem bus d inp n).uart.fromUartValid = true → (run F T dm mem bus d inp n).lineError = false) := by
  have hlen : (logOf (received F T dm mem bus d inp) n).length = x.taken.length := by rw [← h.taken, List.length_map]
  rw [System.input]
  cases hv : (run F T dm mem bus d inp n).uart.fromUartValid with
  | false =>
    have hnone : (run F T dm mem bus d inp n).input = none := by rw [input, hv, if_neg Bool.false_ne_true]
    refine ⟨?_, fun h => absurd h Bool.false_ne_true⟩
    rw [hnone, ite_eq_right_iff]
    intro hgo
    rw [schedule, cycle, hv, Bool.false_or, decide_eq_true_eq, hlen] at hgo
    exact pending_none hinv hgo
  | true =>
    have hsome : (run F T dm mem bus d inp n).input = some (run F T dm mem bus d inp n).lineByte := by
      rw [input, hv, if_pos rfl]
    have hasked := received_asked hlatency hears hhost hasks (n + 1)
    constructor
    · have hnext : x.taken ++ [(run F T dm mem bus d inp n).lineByte] <+: requests.flatMap Packet.bytes := by
        have hfst := hasked.map Prod.fst
        rw [taken_succ, h.taken, hsome, Option.toList_some, List.map_map] at hfst
        rwa [show (requests.flatMap Packet.bytes).map (Prod.fst ∘ fun y : Byte => (y, false)) =
          requests.flatMap Packet.bytes from List.map_id _] at hfst
      have hgo : (schedule F T dm mem bus d requests inp n).go = true := by rw [schedule, cycle, hv, Bool.true_or]
      rw [hgo, if_pos rfl, hsome]
      refine pending_some hinv hnext fun p rest hq => within hinv (fun ps hps hle => ?_) hq
      rw [← h.left]
      exact answered_before hlatency hears hhost hS hasks (by rw [hsome]; rfl) hps (by rw [hlen]; exact hle)
    · intro _
      rw [logOf_succ, received_eq, hsome, Option.map_some, Option.toList_some] at hasked
      have hmem := hasked.subset (List.mem_append_right _ (List.mem_singleton_self _))
      obtain ⟨y, _, hy⟩ := List.mem_map.1 hmem
      exact (congrArg Prod.snd hy).symm

/-- **The closed loop.** The circuit on the line goes through the states of the module in the closed loop, whatever the pace
and the clock of the host. -/
theorem matches_run (n : ℕ) : Matches (run F T dm mem bus d inp n) ((logOf (received F T dm mem bus d inp) n).map Prod.fst)
    (logOf (sent F T dm mem bus d inp) n) (System.run T dm mem bus requests (schedule F T dm mem bus d requests inp) n) := by
  induction n with
  | zero => exact ⟨rfl, rfl, by cases requests <;> rfl, rfl⟩
  | succ n ih =>
    have hinv := System.run_inv T dm mem bus requests (schedule F T dm mem bus d requests inp) n
    obtain ⟨hin, herr⟩ := input_run hlatency hears hhost hS hasks hinv ih
    have hstep := ih.step hinv hin herr T
    rw [taken_succ, logOf_succ, sent_output]
    exact hstep

/-! ### Progress -/

omit hlatency hears hhost hS hasks

/-- what has been heard stays heard -/
theorem read_mono {l l' : List (Byte × Bool)} (h : l <+: l') {k : ℕ}
    (hread : ∃ rs, UARTDebugger.receiveResponses k (l.map Prod.fst) = .ok rs) :
    ∃ rs, UARTDebugger.receiveResponses k (l'.map Prod.fst) = .ok rs := by
  obtain ⟨t, rfl⟩ := h
  obtain ⟨rs, hrs⟩ := hread
  rw [List.map_append]
  exact ⟨rs, UARTDebugger.receiveResponses_append hrs _⟩

theorem heard_mono {n m : ℕ} (h : n ≤ m) : heard F T dm mem bus d S inp n <+: heard F T dm mem bus d S inp m :=
  (logOf_mono h).map _

variable (F T dm mem bus d) in
/-- surroundings in which nothing is waited for without end: a kept memory request is served, and the core halts and resumes
when it is asked to -/
structure Willing (inp : ℕ → SerialIn) : Prop where
  memory : ∀ t n, (run F T dm mem bus d inp n).req (inp n) t = true → ∃ m, n ≤ m ∧ (inp m).grant t = true
  halt : ∀ n, DebugModule.haltReq (run F T dm mem bus d inp n).dm = true → ∃ m, n ≤ m ∧ (inp m).isHalted = true
  resume : ∀ n, DebugModule.resumeReq (run F T dm mem bus d inp n).dm = true → ∃ m, n ≤ m ∧ (inp m).isHalted = false

include hlatency hears hhost hS hasks

/-- the closed loop is fair when all bytes have been sent -/
theorem schedule_fair (hwilling : Willing F T dm mem bus d inp) {N : ℕ}
    (hall : (requests.flatMap Packet.bytes).length ≤ (logOf f N).length) :
    System.Fair T dm mem bus requests (schedule F T dm mem bus d requests inp) := by
  have hmatch := @matches_run F T dm mem bus d inp requests num den phase f S hlatency hears hhost hS hasks
  refine ⟨fun n => ?_, fun n => ?_, fun t n hreq => ?_, fun n hreq => ?_, fun n hreq => ?_⟩
  · refine ⟨n + N + 4787 + (F.latency + 1), by omega, ?_⟩
    have hge := (@received_bounds F T dm mem bus d inp hlatency num den phase f hears hhost
      (n + N + 4787 + (F.latency + 1))).2.length_le
    have hmono := (logOf_mono (e := f) (show N ≤ n + N + 4787 + (F.latency + 1) - 4787 - (F.latency + 1) by omega)).length_le
    rw [List.length_map] at hge
    rw [schedule, cycle, decide_eq_true (by omega), Bool.or_true]
  · exact sendReady_again hlatency n
  · refine hwilling.memory t n ?_
    have hinv := System.run_inv T dm mem bus requests (schedule F T dm mem bus d requests inp) n
    obtain ⟨hin, herr⟩ := input_run hlatency hears hhost hS hasks hinv (hmatch n)
    rw [req, ← (hmatch n).pins hin herr, (hmatch n).dm]
    exact hreq
  · exact hwilling.halt n (by rw [(hmatch n).dm]; exact hreq)
  · exact hwilling.resume n (by rw [(hmatch n).dm]; exact hreq)

/-- a host that has sent all requests hears all replies -/
theorem all_read (hwilling : Willing F T dm mem bus d inp) {N : ℕ}
    (hall : (requests.flatMap Packet.bytes).length ≤ (logOf f N).length) :
    ∃ n rs, UARTDebugger.receiveResponses requests.length ((heard F T dm mem bus d S inp n).map Prod.fst) = .ok rs := by
  obtain ⟨n, hn⟩ := System.all_answered (schedule_fair hlatency hears hhost hS hasks hwilling hall)
  have hmatch := @matches_run F T dm mem bus d inp requests num den phase f S hlatency hears hhost hS hasks n
  have hinv := System.run_inv T dm mem bus requests (schedule F T dm mem bus d requests inp) n
  have hgot := hinv.phase.got_of_rest (hn n le_rfl)
  have hlen : (System.run T dm mem bus requests (schedule F T dm mem bus d requests inp) n).done.length = requests.length := by
    have horder := hinv.order
    rw [hn n le_rfl, List.append_nil] at horder
    simpa using congrArg List.length horder
  obtain ⟨t, ht⟩ := (@heard_bounds F T dm mem bus d inp hlatency S hS (n + 2 + (F.latency + 1))).2.map Prod.fst
  rw [show n + 2 + (F.latency + 1) - 2 - (F.latency + 1) = n by omega, hmatch.left, hgot, List.append_nil, List.map_map,
    show (Prod.fst ∘ fun y : Byte => (y, false)) = id from rfl, List.map_id] at ht
  have hread := UARTDebugger.receiveResponses_replies hinv.ok 0 t
  rw [hlen, Nat.add_zero, ht] at hread
  exact ⟨_, _, hread⟩

omit hlatency hears hhost hS in
/-- a host that sends no more than the requests `ps` -/
theorem Asks.of_le {ps : List Packet} (hps : ps <+: requests)
    (hle : ∀ n, (logOf f n).length ≤ (ps.flatMap Packet.bytes).length) : Asks ps f (heard F T dm mem bus d S inp) := by
  refine ⟨fun n => ?_, fun n hn qs hqs => hasks.waits n hn qs (hqs.trans hps)⟩
  obtain ⟨rest, rfl⟩ := hps
  have hsends := hasks.sends n
  rw [List.flatMap_append, List.map_append] at hsends
  exact List.prefix_of_prefix_length_le hsends (List.prefix_append _ _) (by rw [List.length_map]; exact hle n)

/-- the host goes on as long as he may -/
def GoesOn (requests : List Packet) (f : ℕ → Option (BitVec (Params.calc2.dw + 1))) (heard : ℕ → List (Byte × Bool)) :
    Prop :=
  ∀ n, (logOf f n).length < (requests.flatMap Packet.bytes).length → Answered requests f heard n →
    ∃ m, n ≤ m ∧ (f m).isSome

omit hlatency hears hhost hS hasks in
/-- when the replies to `ps` have been read, the host sends the next request to its end -/
theorem GoesOn.next (hgoes : GoesOn requests f (heard F T dm mem bus d S inp)) {ps : List Packet} {p : Packet}
    (hps : ps ++ [p] <+: requests) {n : ℕ}
    (hread : ∃ rs, UARTDebugger.receiveResponses ps.length ((heard F T dm mem bus d S inp n).map Prod.fst) = .ok rs) :
    ∃ m, n ≤ m ∧ ((ps ++ [p]).flatMap Packet.bytes).length ≤ (logOf f m).length := by
  refine length_ge_of_events fun m hnm hlt => ?_
  -- the requests before the next byte are among `ps`
  exact hgoes m (hlt.trans_le (hps.flatMap _).length_le) fun qs hqs hlen =>
    UARTDebugger.receiveResponses_le (sent_le hps hqs (hlen.trans_lt hlt)).length_le (read_mono (heard_mono hnm) hread)

/-- **Every reply is heard.** -/
theorem hears_all (hwilling : Willing F T dm mem bus d inp) (hgoes : GoesOn requests f (heard F T dm mem bus d S inp))
    {ps : List Packet} (hps : ps <+: requests) :
    ∃ n rs, UARTDebugger.receiveResponses ps.length ((heard F T dm mem bus d S inp n).map Prod.fst) = .ok rs := by
  -- induction on the requests: the replies to those before have been read
  induction ps using List.reverseRecOn with
  | nil => exact ⟨0, [], rfl⟩
  | append_singleton ps p ih =>
    obtain ⟨n, hread⟩ := ih ((List.prefix_append ps [p]).trans hps)
    by_cases hmore : ∃ m, ((ps ++ [p]).flatMap Packet.bytes).length < (logOf f m).length
    · -- the host has sent a byte of a later request
      obtain ⟨m, hm⟩ := hmore
      obtain ⟨k, -, hk, hlen⟩ := event_of_lt_length hm
      exact ⟨k, hasks.waits k hk _ hps hlen.ge⟩
    · push Not at hmore
      obtain ⟨N, -, hN⟩ := hgoes.next hps hread
      exact all_read hlatency hears hhost hS (Asks.of_le hasks hps hmore) hwilling hN

omit hlatency hears hhost hS hasks

variable (F T dm mem bus d) in
/-- the closed loop that the circuit follows -/
def loop (requests : List Packet) (inp : ℕ → SerialIn) (n : ℕ) : System :=
  System.run T dm mem bus requests (schedule F T dm mem bus d requests inp) n

variable (F T dm mem bus d) in
/-- the circuit on the line does for `requests` what the closed loop does, and the host hears its replies, without a parity
error -/
structure Carries (S : Sampling) (requests : List Packet) (inp : ℕ → SerialIn) : Prop where
  circuit : ∀ n, (run F T dm mem bus d inp n).dm = (loop F T dm mem bus d requests inp n).dm ∧
    (run F T dm mem bus d inp n).port = (loop F T dm mem bus d requests inp n).port
  heard : ∀ n, heard F T dm mem bus d S inp n <+: ((loop F T dm mem bus d requests inp n).done.flatMap (·.reply) ++
    (loop F T dm mem bus d requests inp n).host.got).map (·, false)
  order : ∀ n, (loop F T dm mem bus d requests inp n).done.map (·.request) ++
    (loop F T dm mem bus d requests inp n).host.requests = requests
  ok : ∀ n, ∀ x ∈ (loop F T dm mem bus d requests inp n).done, x.Ok

include hlatency hears hhost hS hasks

theorem carries : Carries F T dm mem bus d S requests inp where
  circuit n := by
    have hmatch := @matches_run F T dm mem bus d inp requests num den phase f S hlatency hears hhost hS hasks n
    exact ⟨hmatch.dm, hmatch.port⟩
  heard n := by
    have hmatch := @matches_run F T dm mem bus d inp requests num den phase f S hlatency hears hhost hS hasks n
    have hle := (@heard_bounds F T dm mem bus d inp hlatency S hS n).1
    have hleft := (logOf_mono (e := sent F T dm mem bus d inp) (Nat.sub_le n 2)).map fun y : Byte => (y, false)
    rw [hmatch.left] at hleft
    exact hle.trans hleft
  order n := (System.run_inv T dm mem bus requests (schedule F T dm mem bus d requests inp) n).order
  ok n := (System.run_inv T dm mem bus requests (schedule F T dm mem bus d requests inp) n).ok

/-- who has read as many replies as there are requests has read those of all transactions -/
theorem done_of_read {n : ℕ} {rs : List (ℕ × ℕ × List Byte)}
    (hread : UARTDebugger.receiveResponses requests.length ((heard F T dm mem bus d S inp n).map Prod.fst) = .ok rs) :
    (loop F T dm mem bus d requests inp n).done.map (·.request) = requests ∧
      rs = (loop F T dm mem bus d requests inp n).done.map Transaction.response := by
  have hcarries := @carries F T dm mem bus d inp requests num den phase f S hlatency hears hhost hS hasks
  have hinv : System.Inv _ mem requests (loop F T dm mem bus d requests inp n) :=
    System.run_inv T dm mem bus requests (schedule F T dm mem bus d requests inp) n
  set x := loop F T dm mem bus d requests inp n
  obtain ⟨t, ht⟩ := (hcarries.heard n).map Prod.fst
  rw [List.map_map, show (Prod.fst ∘ fun y : Byte => (y, false)) = id from rfl, List.map_id] at ht
  have hall := UARTDebugger.receiveResponses_append hread t
  rw [ht] at hall
  have horder := hinv.order
  cases hq : x.host.requests with
  | nil =>
    rw [hq, List.append_nil] at horder
    have hlen : requests.length = x.done.length + 0 := by rw [← horder, List.length_map, Nat.add_zero]
    rw [hlen, UARTDebugger.receiveResponses_replies hinv.ok] at hall
    exact ⟨horder, by simpa using (Except.ok.inj hall).symm⟩
  | cons p rest =>
    obtain ⟨e, he⟩ := System.receiveResponses_error hinv
    obtain ⟨rs', hrs'⟩ := UARTDebugger.receiveResponses_le (n := x.done.length + 1) (by
      rw [← horder, hq, List.length_append, List.length_map, List.length_cons]
      omega) ⟨rs, hall⟩
    rw [he] at hrs'
    cases hrs'

/-- **Debugging over the serial line.** A host with a clock of his own sends requests over the line and waits for each reply.
The module carries them out as in the closed loop, and every byte he hears is the next one of its replies. If he goes on, and
neither the memories nor the core keep the module waiting for ever, he reads all replies. -/
theorem requests_over_line : Carries F T dm mem bus d S requests inp ∧
    (Willing F T dm mem bus d inp → GoesOn requests f (heard F T dm mem bus d S inp) →
      ∃ n, ∀ k, n ≤ k → (loop F T dm mem bus d requests inp k).done.map (·.request) = requests ∧
        UARTDebugger.receiveResponses requests.length ((heard F T dm mem bus d S inp k).map Prod.fst) =
          .ok ((loop F T dm mem bus d requests inp k).done.map Transaction.response)) := by
  refine ⟨carries hlatency hears hhost hS hasks, fun hwilling hgoes => ?_⟩
  obtain ⟨n, hread⟩ := hears_all hlatency hears hhost hS hasks hwilling hgoes (List.prefix_refl requests)
  refine ⟨n, fun k hk => ?_⟩
  obtain ⟨rs, hrs⟩ := read_mono (heard_mono hk) hread
  obtain ⟨hdone, rfl⟩ := done_of_read hlatency hears hhost hS hasks hrs
  exact ⟨hdone, hrs⟩

omit hlatency hears hhost hS hasks

/-! ### One request -/

/-- the words of a host with a single request, one behind the other -/
def oneRequest (p : Packet) : ℕ → Option (BitVec (Params.calc2.dw + 1)) := row 10 (12 * 434) (p.bytes.map wordOf)

theorem oneRequest_asks (p : Packet) (heard : ℕ → List (Byte × Bool)) : Asks [p] (oneRequest p) heard := by
  have hlog : ∀ n, logOf (oneRequest p) n <+: p.bytes.map wordOf := fun n => by
    rw [oneRequest, logOf_row (by decide)]
    exact List.take_prefix _ _
  refine ⟨fun n => by rw [List.flatMap_singleton]; exact hlog n, fun n hn ps hps hlen => ?_⟩
  rcases List.prefix_cons_iff.1 hps with rfl | ⟨qs, rfl, hqs⟩
  · exact ⟨[], rfl⟩
  · -- with the byte of this cycle there would be too many
    obtain rfl := List.prefix_nil.1 hqs
    have hle := (hlog (n + 1)).length_le
    rw [length_logOf_succ hn, List.length_map] at hle
    rw [List.flatMap_singleton] at hlen
    omega

theorem oneRequest_goesOn (p : Packet) (heard : ℕ → List (Byte × Bool)) : GoesOn [p] (oneRequest p) heard := by
  intro n hn _
  rw [List.flatMap_singleton] at hn
  exact row_goes_on (by decide) (by rw [List.length_map]; exact hn)

/-- `WRITE_PROG` of one byte at 0x100 -/
def writeByte : Packet := ⟨DebugModule.cmdWriteProg, 9, [0, 0, 1, 0, 0xAB], by decide⟩

/-- the core is halted in every other cycle -/
def writeByteLine (n : ℕ) : SerialIn :=
  ⟨rowLine 434 10 (12 * 434) (writeByte.bytes.map wordOf) n, n % 2 == 0, fun _ => true, fun _ => 0⟩

theorem requests_over_line_write : ∃ n, ∀ k, n ≤ k →
    (loop Rs232.queue 16 System.zeroed (fun _ _ => 0) (fun _ => 0) ⟨0⟩ [writeByte] writeByteLine k).done.map (·.request) =
        [writeByte] ∧
      UARTDebugger.receiveResponses 1 ((heard Rs232.queue 16 System.zeroed (fun _ _ => 0) (fun _ => 0) ⟨0⟩
          Params.calc2.sampling writeByteLine k).map Prod.fst) =
        .ok ((loop Rs232.queue 16 System.zeroed (fun _ _ => 0) (fun _ => 0) ⟨0⟩ [writeByte] writeByteLine k).done.map
          Transaction.response) :=
  (requests_over_line (by decide) (Params.hears_calc2 (by decide) (by decide))
    (sendsTicks_row (by decide) (by decide) 10 (writeByte.bytes.map wordOf)) Params.calc2.readBy_sampling
    (oneRequest_asks writeByte _)).2
    ⟨fun _ n _ => ⟨n, le_rfl, rfl⟩, fun n _ => ⟨2 * n, by omega, by simp [writeByteLine]⟩,
      fun n _ => ⟨2 * n + 1, by omega, by simp [writeByteLine, Nat.add_mod]⟩⟩
    (oneRequest_goesOn writeByte _)

end SerialLink

end FpgaLearning.Debug
