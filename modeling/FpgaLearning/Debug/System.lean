/-
The debug module with its surroundings: two memories behind a handshake, a host on the serial line, and a record of what
has happened.

- The host sends one request after the other, byte by byte with any gaps, and begins a request only after it has received
  the whole reply to the one before. It knows the end of a reply from the reply's length byte.
- Each cycle the environment decides whether the host may send, whether the sender takes a byte, whether the core is
  halted, and which memory request is served.
- `Transaction` is one request with its reply and everything that happened in between; `System.done` lists them.
-/
import FpgaLearning.Core.Clocked
import FpgaLearning.Debug.Module

namespace FpgaLearning.Debug

open FpgaLearning.Memory

/-! ## Host -/

/-- a request; its length byte is the length of its payload -/
structure Packet where
  cmd : Byte
  id : Byte
  payload : List Byte
  length_le : payload.length ≤ 255

namespace Packet

variable (p : Packet)

def len : Byte := BitVec.ofNat 8 p.payload.length

def bytes : List Byte := p.cmd :: p.id :: p.len :: p.payload

@[simp] theorem length_bytes : p.bytes.length = p.payload.length + 3 := rfl

theorem toNat_len : p.len.toNat = p.payload.length := by
  have := p.length_le
  simp only [len, BitVec.toNat_ofNat]
  omega

theorem bytes_injective {p q : Packet} (h : p.bytes = q.bytes) : p = q := by
  obtain ⟨cmd, id, payload, hle⟩ := p
  obtain ⟨cmd', id', payload', hle'⟩ := q
  simp only [bytes, List.cons.injEq] at h
  obtain ⟨rfl, rfl, -, rfl⟩ := h
  rfl

/-- byte `i` of the payload -/
def byte (i : ℕ) : Byte := p.payload.getD i 0

end Packet

structure Host where
  /-- the requests not yet answered, the current one first -/
  requests : List Packet
  /-- bytes of the current request already sent -/
  sent : ℕ
  /-- bytes of its reply already received -/
  got : List Byte

/-- the byte the host has to send -/
def Host.pending (h : Host) : Option Byte :=
  match h.requests with
  | [] => none
  | p :: _ => p.bytes[h.sent]?

/-- a reply is complete when its payload has the length that its third byte gives -/
def complete (got : List Byte) : Bool :=
  match got with
  | _ :: _ :: len :: payload => payload.length == len.toNat
  | _ => false

/-! ## Transactions -/

/-- what has happened since the current request began -/
structure Trace where
  /-- both memories at its beginning -/
  before : Target → WordMem
  /-- the `read_len` registers at its beginning -/
  readLen : Target → Byte
  accesses : Target → List Access
  /-- cycles with `soft_reset_n` low, and how often it fell -/
  resetLow : ℕ
  resetFalls : ℕ

/-- a request, its reply, and what happened from its beginning to the last byte of the reply -/
structure Transaction extends Trace where
  request : Packet
  reply : List Byte
  after : Target → WordMem

/-! ## The closed loop -/

/-- the choices of the environment in one cycle -/
structure Cycle where
  /-- the host sends its byte, if it has one -/
  go : Bool
  /-- what is on the input while nothing is sent -/
  idleByte : Byte
  idleError : Bool
  sendReady : Bool
  isHalted : Bool
  grant : Target → Bool
  bus : Target → Word

structure System where
  dm : DebugModule.St
  port : Target → Port WordMem
  host : Host
  /-- ghost -/
  trace : Trace
  /-- ghost -/
  done : List Transaction

namespace System

def startTrace (dm : DebugModule.St) (port : Target → Port WordMem) : Trace where
  before t := (port t).dev
  readLen t := (dm.copier t).readLen
  accesses _ := []
  resetLow := 0
  resetFalls := 0

/-- after reset; `dm` holds whatever the registers without reset hold -/
def init (dm : DebugModule.St) (mem : Target → WordMem) (bus : Target → Word) (requests : List Packet) : System where
  dm := DebugModule.reset dm
  port t := ⟨mem t, false, bus t⟩
  host := ⟨requests, 0, []⟩
  trace := startTrace (DebugModule.reset dm) fun t => ⟨mem t, false, bus t⟩
  done := []

variable (s : System) (e : Cycle)

/-- the byte on the input in this cycle -/
def input : Option Byte := if e.go then s.host.pending else none

def pins : DebugModule.In where
  inputValid := (s.input e).isSome
  inputError := if (s.input e).isSome then false else e.idleError
  inputByte := (s.input e).getD e.idleByte
  sendReady := e.sendReady
  isHalted := e.isHalted
  dataData t := (s.port t).data
  dataAck t := (s.port t).ack

def req (t : Target) : Bool := DebugModule.req s.dm (s.pins e) t

/-- the byte of the reply that the host receives in this cycle -/
def emitted : Option Byte := if e.sendReady then DebugModule.sendData s.dm else none

def gotNext : List Byte := s.host.got ++ (s.emitted e).toList

/-- the last byte of the reply is received -/
def finishes : Bool := (s.emitted e).isSome && complete (s.gotNext e)

def portNext (t : Target) : Port WordMem :=
  (s.port t).next wordDevice (s.req e t) (DebugModule.out s.dm t) (e.grant t) (e.bus t)

/-- the trace after this cycle, with the state `dm'` of the debug module -/
def traceNext (dm' : DebugModule.St) : Trace where
  before := s.trace.before
  readLen := s.trace.readLen
  accesses t := s.trace.accesses t ++ (s.port t).served wordDevice (s.req e t) (DebugModule.out s.dm t) (e.grant t)
  resetLow := s.trace.resetLow + (!DebugModule.softResetN s.dm).toNat
  resetFalls := s.trace.resetFalls + (DebugModule.softResetN s.dm && !DebugModule.softResetN dm').toNat

/-- the transaction that ends with the reply `reply` -/
def transaction (p : Packet) (reply : List Byte) (trace : Trace) (port : Target → Port WordMem) : Transaction :=
  { trace with request := p, reply := reply, after := fun t => (port t).dev }

variable (timeoutTicks : ℕ)

def dmNext : DebugModule.St := DebugModule.next timeoutTicks s.dm (s.pins e)

/-- one clock edge -/
def next : System where
  dm := s.dmNext e timeoutTicks
  port := s.portNext e
  host :=
    if s.finishes e then ⟨s.host.requests.tail, 0, []⟩
    else ⟨s.host.requests, s.host.sent + (s.input e).isSome.toNat, s.gotNext e⟩
  trace :=
    if s.finishes e then startTrace (s.dmNext e timeoutTicks) (s.portNext e) else s.traceNext e (s.dmNext e timeoutTicks)
  done :=
    if s.finishes e then
      s.done ++ (s.host.requests.head?.map fun p =>
        transaction p (s.gotNext e) (s.traceNext e (s.dmNext e timeoutTicks)) (s.portNext e)).toList
    else s.done

end System

/-- the closed loop after `n` clock edges from reset -/
abbrev System.run (timeoutTicks : ℕ) (dm : DebugModule.St) (mem : Target → WordMem) (bus : Target → Word)
    (requests : List Packet) (e : ℕ → Cycle) (n : ℕ) : System :=
  Clocked.run (fun s i => s.next i timeoutTicks) e (System.init dm mem bus requests) n

end FpgaLearning.Debug
