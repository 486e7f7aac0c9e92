/-
The host side of the debug link: the packet layer of `uart_debug.py`.

A Python `bytes` is a list of bytes and a Python `int` a natural number; `pyBytes` is `bytes([...])`, which refuses numbers
above 255. A method returns `Except`: an exception of the source is `error` with its class and text.
-/
import FpgaLearning.Debug.System

namespace FpgaLearning.Debug

open FpgaLearning.Memory

/-! ## Failures -/

inductive Failure where
  | debugProtocolError (msg : String)
  | valueError (msg : String)
  | structError (msg : String)
deriving DecidableEq, Repr

/-- `bytes([...])` -/
def pyBytes (l : List ℕ) : Except Failure (List Byte) :=
  if l.all (· < 256) then .ok (l.map (BitVec.ofNat 8)) else .error (.valueError "bytes must be in range(0, 256)")

theorem pyBytes_toNat (l : List Byte) : pyBytes (l.map BitVec.toNat) = .ok l := by
  have hall : (l.map BitVec.toNat).all (· < 256) = true := by
    rw [List.all_eq_true]
    intro x hx
    obtain ⟨b, _, rfl⟩ := List.mem_map.1 hx
    exact decide_eq_true b.isLt
  rw [pyBytes, if_pos hall, List.map_map]
  congr 1
  exact (List.map_congr_left fun b _ => BitVec.ofNat_toNat 8 b).trans
    ((List.map_congr_left fun b _ => BitVec.setWidth_eq b).trans (List.map_id' l))

/-! ## Packets -/

structure UARTDebugger where
  nextId : ℕ
deriving DecidableEq, Repr

namespace UARTDebugger

/-- `__init__` -/
def init : UARTDebugger := ⟨1⟩

/-- `_next_id`: the id handed out and the debugger afterwards -/
def takeNextId (d : UARTDebugger) : ℕ × UARTDebugger := (d.nextId, ⟨(d.nextId + 1) &&& 0xFF⟩)

/-- `_send_packet`: the debugger afterwards, the bytes written to the port and the id -/
def sendPacket (d : UARTDebugger) (cmd : ℕ) (data : List Byte) (packetId : Option ℕ) :
    Except Failure (UARTDebugger × List Byte × ℕ) :=
  let (id, d') := match packetId with
    | none => d.takeNextId
    | some id => (id, d)
  if data.length > 255 then .error (.debugProtocolError ("Data too long: " ++ toString data.length ++ " > 255"))
  else do
    let header ← pyBytes [cmd, id, data.length]
    return (d', header ++ data, id)

/-- **Encoding.** A packet with at most 255 payload bytes is written as its bytes. -/
theorem sendPacket_packet (d : UARTDebugger) (p : Packet) :
    d.sendPacket p.cmd.toNat p.payload (some p.id.toNat) = .ok (d, p.bytes, p.id.toNat) := by
  have hheader : pyBytes [p.cmd.toNat, p.id.toNat, p.payload.length] = .ok [p.cmd, p.id, p.len] := by
    rw [← p.toNat_len]
    exact pyBytes_toNat [p.cmd, p.id, p.len]
  unfold sendPacket
  simp only [hheader, if_neg (Nat.not_lt.2 p.length_le)]
  rfl

end UARTDebugger

end FpgaLearning.Debug
