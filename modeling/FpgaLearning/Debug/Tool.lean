/-
The commands of `uart_debug.py`: what `UARTDebugger` asks of the debug module, and `upload_firmware`, `upload_memory`,
`dump_firmware` and `dump_memory`.

A method is a `Tool`: a dialogue that writes packets to the serial port and reads replies, and ends with a result and the
debugger afterwards, or with an exception. The firmware and the memory functions of the source differ only in the command
that they use, so each is one definition at its own command. The files around them are left out: an upload gets the bytes
that `parse_hex_file` returns, a dump gives those that `write_hex_file` gets. Printing is left out.
-/
import FpgaLearning.Core.Interaction
import FpgaLearning.Debug.Commands
import FpgaLearning.Debug.Host

namespace FpgaLearning.Debug

open FpgaLearning.Memory FpgaLearning.Interaction

/-! ## Numbers and exceptions -/

namespace Command

def halt : ℕ := 0x00

def resume : ℕ := 0x01

def readProg : ℕ := 0x02

def writeProg : ℕ := 0x03

def readData : ℕ := 0x04

def writeData : ℕ := 0x05

def softRst : ℕ := 0x06

def getState : ℕ := 0x07

end Command

namespace Status

def ok : ℕ := 0x00

end Status

/-- `struct.pack('>I', address)` -/
def packAddress (address : ℕ) : Except Failure (List Byte) :=
  if address < 2 ^ 32 then .ok (bigEndian (BitVec.ofNat 32 address))
  else .error (.structError "'I' format requires 0 <= number <= 4294967295")

/-- `struct.pack('>IB', address, size)` -/
def packAddressSize (address size : ℕ) : Except Failure (List Byte) := do
  let a ← packAddress address
  if size < 256 then return a ++ [BitVec.ofNat 8 size]
  else .error (.structError "ubyte format requires 0 <= number <= 255")

/-! ## Dialogues with the debug module -/

/-- `ask` writes the bytes of a packet to the port; its answer is what the reads of `_receive_response` get -/
def Tool (α : Type) : Type := UARTDebugger → Dialogue (List Byte) (List Byte) (Except Failure (α × UARTDebugger))

namespace Tool

instance : Monad Tool where
  pure a := fun d => .done (.ok (a, d))
  bind m f := fun d => (m d).bind fun
    | .ok (a, d') => f a d'
    | .error x => .done (.error x)

def raise {α : Type} (x : Failure) : Tool α := fun _ => .done (.error x)

def ofExcept {α : Type} : Except Failure α → Tool α
  | .ok a => pure a
  | .error x => raise x

end Tool

namespace UARTDebugger

/-- `_receive_response`: three bytes of header, then as many bytes as the header says -/
def receiveResponse (received : List Byte) : Except Failure (ℕ × ℕ × List Byte) :=
  match received with
  | status :: respId :: length :: data =>
    if data.length < length.toNat then
      .error (.debugProtocolError ("Timeout waiting for response data: expected " ++ toString length.toNat ++ ", got " ++
        toString data.length))
    else .ok (status.toNat, respId.toNat, data.take length.toNat)
  | _ => .error (.debugProtocolError "Timeout waiting for response header")

/-- `execute_command` -/
def executeCommand (cmd : ℕ) (data : List Byte) : Tool (ℕ × ℕ × List Byte) := fun d =>
  match d.sendPacket cmd data none with
  | .error x => .done (.error x)
  | .ok (d', packet, _) => .ask packet fun received => .done ((receiveResponse received).map fun r => (r, d'))

/-- a command whose reply carries a status only -/
def command (cmd : ℕ) (data : List Byte) : Tool Bool := do
  let (status, _, _) ← executeCommand cmd data
  return status == Status.ok

def halt : Tool Bool := command Command.halt []

def resume : Tool Bool := command Command.resume []

def softRst : Tool Bool := command Command.softRst []

/-- `get_state`: the entry `is_halted` -/
def getState : Tool (Option Bool) := do
  let (status, _, respData) ← executeCommand Command.getState []
  if status != Status.ok then return none
  match respData with
  | [x] => return some (x != 0)
  | _ => return none

/-- `read_prog` and `read_data` -/
def read (cmd address size : ℕ) : Tool (Option (List Byte)) := do
  if size < 1 ∨ size > 255 then Tool.raise (.valueError ("Invalid size: " ++ toString size))
  else do
    let addrBytes ← Tool.ofExcept (packAddressSize address size)
    let (status, _, respData) ← executeCommand cmd addrBytes
    return if status == Status.ok then some respData else none

def readProg : ℕ → ℕ → Tool (Option (List Byte)) := read Command.readProg

def readData : ℕ → ℕ → Tool (Option (List Byte)) := read Command.readData

/-- `write_prog` and `write_data` -/
def write (cmd address : ℕ) (dataBytes : List Byte) : Tool Bool := do
  if dataBytes.length < 1 ∨ dataBytes.length > 255 then
    Tool.raise (.valueError ("Invalid data length: " ++ toString dataBytes.length))
  else do
    let addrBytes ← Tool.ofExcept (packAddress address)
    command cmd (addrBytes ++ dataBytes)

def writeProg : ℕ → List Byte → Tool Bool := write Command.writeProg

def writeData : ℕ → List Byte → Tool Bool := write Command.writeData

end UARTDebugger

/-! ## Uploading and dumping -/

/-- `range(start, stop, step)` -/
def pyRange (start stop step : ℕ) : List ℕ := List.range' start ((stop - start + (step - 1)) / step) step

/-- `data[i:j]` -/
def slice (data : List Byte) (i j : ℕ) : List Byte := (data.drop i).take (j - i)

/-- halt the core, unless it is halted; `false` when it cannot be -/
def haltUnless (halted : Bool) : Tool Bool := if halted then pure true else UARTDebugger.halt

/-- the loop over the chunks, with those still to be written -/
def uploadChunks (write : ℕ → List Byte → Tool Bool) (data : List Byte) (startAddr : ℕ) : List ℕ → Tool Bool
  | [] => return true
  | i :: rest => do
    if ← write (startAddr + i) (slice data i (min data.length (i + 250))) then uploadChunks write data startAddr rest
    else return false

/-- `upload_firmware` and `upload_memory` -/
def upload (write : ℕ → List Byte → Tool Bool) (data : List Byte) (startAddr : ℕ) : Tool Bool := do
  if data = [] then return false
  else
    match ← UARTDebugger.getState with
    | none => return false
    | some halted =>
      if ← haltUnless halted then uploadChunks write data startAddr (pyRange 0 data.length 250) else return false

def uploadFirmware : List Byte → ℕ → Tool Bool := upload UARTDebugger.writeProg

def uploadMemory : List Byte → ℕ → Tool Bool := upload UARTDebugger.writeData

/-- the loop `while remaining > 0` -/
def dumpChunks (read : ℕ → ℕ → Tool (Option (List Byte))) (remaining currentAddr : ℕ) (allData : List Byte) :
    Tool (Option (List Byte)) :=
  if _h : remaining > 0 then do
    match ← read currentAddr (min remaining 250) with
    | none => return none
    | some data => dumpChunks read (remaining - min remaining 250) (currentAddr + min remaining 250) (allData ++ data)
  else return some allData
termination_by remaining
decreasing_by omega

/-- `dump_firmware` and `dump_memory`: the collected bytes, or `none` where the source returns False -/
def dump (read : ℕ → ℕ → Tool (Option (List Byte))) (startAddr length : ℕ) : Tool (Option (List Byte)) := do
  match ← UARTDebugger.getState with
  | none => return none
  | some halted =>
    if ← haltUnless halted then
      match ← dumpChunks read length startAddr [] with
      | none => return none
      | some allData => if ← (if halted then pure true else UARTDebugger.resume) then return some allData else return none
    else return none

def dumpFirmware : ℕ → ℕ → Tool (Option (List Byte)) := dump UARTDebugger.readProg

def dumpMemory : ℕ → ℕ → Tool (Option (List Byte)) := dump UARTDebugger.readData

end FpgaLearning.Debug
