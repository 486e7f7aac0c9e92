/-
The parts of the debug module of Calc2: `PacketParser.sv`, `PacketBuffer.sv`, `ByteToWordAddrConverter.sv`,
`DebugMemoryCopier.sv` and `ResetController.sv`.

A value that the source drives together with an enable, and leaves at 'x without it, is an `Option`: `none` is a low
enable. Registers without a reset keep whatever they held; reset only touches the others.
-/
import FpgaLearning.Core.Memory

namespace FpgaLearning.Debug

open FpgaLearning.Memory

/-! ## PacketParser -/

namespace PacketParser

inductive State where
  | waitCmd | waitId | waitLen | waitData | waitReady
deriving DecidableEq, Repr

structure St where
  curState : State
  resCmd : Byte
  resId : Byte
  resLen : Byte
  resError : Bool
  resDataBuf : Byte → Byte
  dataPtr : Byte
  resData : Byte

def reset (s : St) : St := { s with curState := .waitCmd, dataPtr := 0 }

structure In where
  inputValid : Bool
  inputError : Bool
  inputByte : Byte
  resReady : Bool
  /-- `res_data_addr`, where `res_data_re` is high -/
  resDataAddr : Option Byte
deriving DecidableEq, Repr

def nextState (s : St) (i : In) : State :=
  if s.curState ≠ .waitReady ∧ i.inputValid ∧ i.inputError then .waitReady
  else match s.curState with
    | .waitCmd => if i.inputValid then .waitId else .waitCmd
    | .waitId => if i.inputValid then .waitLen else .waitId
    | .waitLen => if i.inputValid then if i.inputByte = 0 then .waitReady else .waitData else .waitLen
    | .waitData => if i.inputValid then if s.dataPtr + 1 = s.resLen then .waitReady else .waitData else .waitData
    | .waitReady => if i.resReady then .waitCmd else .waitReady

def resValid (s : St) : Bool := s.curState == .waitReady

def next (s : St) (i : In) : St where
  curState := nextState s i
  resCmd := if i.inputValid ∧ s.curState = .waitCmd then i.inputByte else s.resCmd
  resId := if i.inputValid ∧ s.curState = .waitId then i.inputByte else s.resId
  resLen := if i.inputValid ∧ s.curState = .waitLen then i.inputByte else s.resLen
  resError :=
    if s.curState = .waitReady ∧ i.resReady then false
    else if i.inputValid ∧ s.curState ≠ .waitReady then i.inputError else s.resError
  resDataBuf :=
    if i.inputValid ∧ s.curState = .waitData then Function.update s.resDataBuf s.dataPtr i.inputByte else s.resDataBuf
  dataPtr :=
    if i.inputValid then
      match s.curState with
      | .waitLen => 0
      | .waitData => s.dataPtr + 1
      | _ => s.dataPtr
    else s.dataPtr
  resData := match i.resDataAddr with
    | some a => s.resDataBuf a
    | none => s.resData

end PacketParser

/-! ## PacketBuffer -/

namespace PacketBuffer

inductive State where
  | idle | sendStatus | sendId | sendLen | sendPayload
deriving DecidableEq, Repr

structure St where
  curState : State
  statusReg : Byte
  idReg : Byte
  lenReg : Byte
  dataPtr : Byte
  payloadDataBuf : Byte → Byte

def reset (s : St) : St := { s with curState := .idle }

structure In where
  status : Option Byte
  id : Option Byte
  len : Option Byte
  /-- address and value of a payload byte -/
  payload : Option (Byte × Byte)
  sendReq : Bool
  sendReady : Bool
deriving DecidableEq, Repr

/-- `send_data`, where `send_valid` is high -/
def sendData (s : St) : Option Byte :=
  match s.curState with
  | .idle => none
  | .sendStatus => some s.statusReg
  | .sendId => some s.idReg
  | .sendLen => some s.lenReg
  | .sendPayload => some (s.payloadDataBuf s.dataPtr)

def nextState (s : St) (sendReq sendReady : Bool) : State :=
  match s.curState with
  | .idle => if sendReq then .sendStatus else .idle
  | .sendStatus => if sendReady then .sendId else .sendStatus
  | .sendId => if sendReady then .sendLen else .sendId
  | .sendLen => if sendReady then if s.lenReg = 0 then .idle else .sendPayload else .sendLen
  | .sendPayload => if sendReady then if s.dataPtr + 1 = s.lenReg then .idle else .sendPayload else .sendPayload

def sendAck (s : St) (sendReq sendReady : Bool) : Bool :=
  s.curState != .idle && nextState s sendReq sendReady == .idle

def next (s : St) (i : In) : St where
  curState := nextState s i.sendReq i.sendReady
  statusReg := i.status.getD s.statusReg
  idReg := i.id.getD s.idReg
  lenReg := i.len.getD s.lenReg
  dataPtr :=
    if s.curState = .sendPayload ∧ i.sendReady then s.dataPtr + 1
    else if s.curState = .idle ∧ i.sendReq then 0 else s.dataPtr
  payloadDataBuf := match i.payload with
    | some (a, v) => Function.update s.payloadDataBuf a v
    | none => s.payloadDataBuf

end PacketBuffer

/-! ## ByteToWordAddrConverter -/

namespace ByteToWordAddrConverter

def wordAddr (byteAddr : Word) : Word := byteAddr.extractLsb' 2 30 ++ 0#2

def writeDataMask (byteAddr : Word) : BitVec 4 := (0b0001 : BitVec 4) <<< byteAddr.extractLsb' 0 2

def writeDataExtended (byteAddr : Word) (writeData : Byte) : Word :=
  writeData.setWidth 32 <<< (byteAddr.extractLsb' 0 2 ++ 0#3)

def readData (byteAddr readDataExtended : Word) : Byte :=
  (readDataExtended >>> (byteAddr.extractLsb' 0 2 ++ 0#3)).setWidth 8

end ByteToWordAddrConverter

/-! ## DebugMemoryCopier -/

namespace DebugMemoryCopier

inductive State where
  | idle | addr0 | addr1 | addr2 | addr3 | len | read | write
deriving DecidableEq, Repr

structure St where
  curState : State
  /-- the byte lanes of `start_addr` -/
  startAddr : BitVec 2 → Byte
  dataPtr : Byte
  readLen : Byte

def reset (s : St) : St := { s with curState := .idle, dataPtr := 0 }

structure In where
  copyReq : Bool
  copyWrite : Bool
  inpPacketLen : Byte
  inpPacketData : Byte
  dataData : Word
  dataAck : Bool
deriving DecidableEq, Repr

/-- `data_addr_internal` -/
def addr (s : St) : Word := joinLanes s.startAddr + s.dataPtr.setWidth 32

def nextState (s : St) (i : In) : State :=
  match s.curState with
  | .idle => if i.copyReq then .addr0 else .idle
  | .addr0 => .addr1
  | .addr1 => .addr2
  | .addr2 => .addr3
  | .addr3 => if i.copyWrite then if 4 < i.inpPacketLen then .write else .idle else .len
  | .len => if i.inpPacketData ≠ 0 then .read else .idle
  | .write => if i.dataAck ∧ s.dataPtr + 1 + 4 = i.inpPacketLen then .idle else .write
  | .read => if i.dataAck ∧ s.dataPtr + 1 = s.readLen then .idle else .read

/-- `inp_packet_data_addr`, where `inp_packet_re` is high -/
def inpPacketDataAddr (s : St) (i : In) : Option Byte :=
  match s.curState with
  | .idle => if i.copyReq then some 0 else none
  | .addr0 => some 1
  | .addr1 => some 2
  | .addr2 => some 3
  | .addr3 => if i.copyWrite && !decide (4 < i.inpPacketLen) then none else some 4
  | .write =>
    if i.dataAck ∧ s.dataPtr + 1 + 4 ≠ i.inpPacketLen then some (s.dataPtr + 1 + 4) else some (s.dataPtr + 4)
  | _ => none

def dataReq (s : St) (dataAck : Bool) : Bool :=
  match s.curState with
  | .write | .read => !dataAck
  | _ => false

/-- what the copier drives on its memory port while it requests -/
def dataOut (s : St) (inpPacketData : Byte) : MemReq where
  addr := ByteToWordAddrConverter.wordAddr (addr s)
  wdata := ByteToWordAddrConverter.writeDataExtended (addr s) inpPacketData
  we := s.curState == .write
  mask := ByteToWordAddrConverter.writeDataMask (addr s)

/-- address and value of a byte for the reply -/
def outPacket (s : St) (i : In) : Option (Byte × Byte) :=
  match s.curState with
  | .read => if i.dataAck then some (s.dataPtr, ByteToWordAddrConverter.readData (addr s) i.dataData) else none
  | _ => none

def copyReady (s : St) (i : In) : Bool := s.curState != .idle && nextState s i == .idle

def next (s : St) (i : In) : St where
  curState := nextState s i
  startAddr :=
    match s.curState with
    | .addr0 => Function.update s.startAddr 3 i.inpPacketData
    | .addr1 => Function.update s.startAddr 2 i.inpPacketData
    | .addr2 => Function.update s.startAddr 1 i.inpPacketData
    | .addr3 => Function.update s.startAddr 0 i.inpPacketData
    | _ => s.startAddr
  dataPtr :=
    match s.curState with
    | .idle => 0
    | .read | .write => if i.dataAck then s.dataPtr + 1 else s.dataPtr
    | _ => s.dataPtr
  readLen := if s.curState = .len then i.inpPacketData else s.readLen

end DebugMemoryCopier

/-! ## ResetController -/

namespace ResetController

def resetTicks : ℕ := 10

structure St where
  /-- `$clog2(RESET_TICKS + 1)` bits -/
  counter : BitVec 4
deriving DecidableEq, Repr

def reset : St := ⟨0⟩

def resetN (s : St) : Bool := s.counter == 0

def ack (s : St) : Bool := s.counter == 1

def next (s : St) (req : Bool) : St :=
  if resetN s then if req then ⟨BitVec.ofNat 4 resetTicks⟩ else s else ⟨s.counter - 1⟩

end ResetController

end FpgaLearning.Debug
