/-
The debug module of Calc2, `DebugModule.sv`: parser, reply buffer, one memory copier for the program and one for the data
memory, and the reset controller, run by a command state machine.

The two memories are a `Target`, so that the four copy commands are two states with a parameter. Commands and status bytes
are those of the source.
-/
import FpgaLearning.Debug.Units

namespace FpgaLearning.Debug

open FpgaLearning.Memory

/-- the program memory port and the data memory port -/
inductive Target where
  | prog | data
deriving DecidableEq, Repr

namespace DebugModule

def cmdHalt : Byte := 0x00

def cmdResume : Byte := 0x01

def cmdReadProg : Byte := 0x02

def cmdWriteProg : Byte := 0x03

def cmdReadData : Byte := 0x04

def cmdWriteData : Byte := 0x05

def cmdReset : Byte := 0x06

def cmdGetState : Byte := 0x07

def statusOk : Byte := 0x00

def statusErrorParity : Byte := 0xFF

def statusErrorArgs : Byte := 0xFE

def statusErrorCmd : Byte := 0xFD

/-- `S_WAIT_INPUT` and so on -/
inductive State where
  | waitInput | waitTimeout
  | halt | resume | read (t : Target) | write (t : Target) | reset | state
  | errorParity | errorArgs | errorCmd
  | waitSend
deriving DecidableEq, Repr

structure St where
  curState : State
  timeoutCounter : ℕ
  parser : PacketParser.St
  buffer : PacketBuffer.St
  copier : Target → DebugMemoryCopier.St
  resetController : ResetController.St

def reset (s : St) : St where
  curState := .waitInput
  timeoutCounter := 0
  parser := PacketParser.reset s.parser
  buffer := PacketBuffer.reset s.buffer
  copier t := DebugMemoryCopier.reset (s.copier t)
  resetController := ResetController.reset

structure In where
  inputValid : Bool
  inputError : Bool
  inputByte : Byte
  sendReady : Bool
  isHalted : Bool
  dataData : Target → Word
  dataAck : Target → Bool

/-- where a complete packet leads -/
def dispatch (cmd len : Byte) : State :=
  if cmd = cmdHalt then .halt
  else if cmd = cmdResume then .resume
  else if cmd = cmdReadProg then if 5 ≤ len then .read .prog else .errorArgs
  else if cmd = cmdWriteProg then if 4 ≤ len then .write .prog else .errorArgs
  else if cmd = cmdReadData then if 5 ≤ len then .read .data else .errorArgs
  else if cmd = cmdWriteData then if 4 ≤ len then .write .data else .errorArgs
  else if cmd = cmdReset then .reset
  else if cmd = cmdGetState then .state
  else .errorCmd

/-! Outputs of the state machine. -/

def haltReq (s : St) : Bool := s.curState == .halt

def resumeReq (s : St) : Bool := s.curState == .resume

def softResetReq (s : St) : Bool := s.curState == .reset

def softResetN (s : St) : Bool := ResetController.resetN s.resetController

def outStatus (s : St) : Option Byte :=
  match s.curState with
  | .waitInput | .waitTimeout | .waitSend => none
  | .errorParity => some statusErrorParity
  | .errorArgs => some statusErrorArgs
  | .errorCmd => some statusErrorCmd
  | _ => some statusOk

def outId (s : St) : Option Byte :=
  match s.curState with
  | .waitInput | .waitTimeout | .waitSend => none
  | _ => some s.parser.resId

def outLen (s : St) : Option Byte :=
  match s.curState with
  | .waitInput | .waitTimeout | .waitSend => none
  | .state => some 1
  | .read t => some (s.copier t).readLen
  | _ => some 0

def stateOutPayload (s : St) (i : In) : Option (Byte × Byte) :=
  match s.curState with
  | .state => some (0, if i.isHalted then 1 else 0)
  | _ => none

def outSendReq (s : St) : Bool := s.curState == .waitSend

def copierIn (s : St) (i : In) (t : Target) : DebugMemoryCopier.In where
  copyReq := s.curState == .read t || s.curState == .write t
  copyWrite := s.curState == .write t
  inpPacketLen := s.parser.resLen
  inpPacketData := s.parser.resData
  dataData := i.dataData t
  dataAck := i.dataAck t

def copyReady (s : St) (i : In) (t : Target) : Bool := DebugMemoryCopier.copyReady (s.copier t) (copierIn s i t)

/-! The multiplexers. -/

def outPayload (s : St) (i : In) : Option (Byte × Byte) :=
  DebugMemoryCopier.outPacket (s.copier .prog) (copierIn s i .prog) <|>
    DebugMemoryCopier.outPacket (s.copier .data) (copierIn s i .data) <|> stateOutPayload s i

def inpPacketDataAddr (s : St) (i : In) : Option Byte :=
  DebugMemoryCopier.inpPacketDataAddr (s.copier .prog) (copierIn s i .prog) <|>
    DebugMemoryCopier.inpPacketDataAddr (s.copier .data) (copierIn s i .data)

def outSendAck (s : St) (i : In) : Bool := PacketBuffer.sendAck s.buffer (outSendReq s) i.sendReady

def parserIn (s : St) (i : In) : PacketParser.In where
  inputValid := i.inputValid
  inputError := i.inputError
  inputByte := i.inputByte
  resReady := s.curState == .waitSend && outSendAck s i
  resDataAddr := inpPacketDataAddr s i

def bufferIn (s : St) (i : In) : PacketBuffer.In where
  status := outStatus s
  id := outId s
  len := outLen s
  payload := outPayload s i
  sendReq := outSendReq s
  sendReady := i.sendReady

/-! The ports. -/

def sendData (s : St) : Option Byte := PacketBuffer.sendData s.buffer

/-- `prog_req` and `data_req` -/
def req (s : St) (i : In) (t : Target) : Bool := DebugMemoryCopier.dataReq (s.copier t) (i.dataAck t)

/-- address, data, write enable and mask of both memory ports -/
def out (s : St) (t : Target) : MemReq := DebugMemoryCopier.dataOut (s.copier t) s.parser.resData

def nextState (timeoutTicks : ℕ) (s : St) (i : In) : State :=
  match s.curState with
  | .waitInput =>
    if PacketParser.resValid s.parser then
      if s.parser.resError then .waitTimeout else dispatch s.parser.resCmd s.parser.resLen
    else .waitInput
  | .waitTimeout => if s.timeoutCounter = timeoutTicks - 1 then .errorParity else .waitTimeout
  | .halt => if i.isHalted then .waitSend else .halt
  | .resume => if !i.isHalted then .waitSend else .resume
  | .reset => if ResetController.ack s.resetController then .waitSend else .reset
  | .state => .waitSend
  | .read t => if copyReady s i t then .waitSend else .read t
  | .write t => if copyReady s i t then .waitSend else .write t
  | .errorParity => .waitSend
  | .errorArgs => .waitSend
  | .errorCmd => .waitSend
  | .waitSend => if outSendAck s i then .waitInput else .waitSend

/-- one clock edge; the timeout counter has `$clog2(TIMEOUT_TICKS)` bits -/
def next (timeoutTicks : ℕ) (s : St) (i : In) : St where
  curState := nextState timeoutTicks s i
  timeoutCounter :=
    if i.inputValid then 0
    else if s.curState = .waitTimeout then (s.timeoutCounter + 1) % 2 ^ Nat.clog 2 timeoutTicks
    else s.timeoutCounter
  parser := PacketParser.next s.parser (parserIn s i)
  buffer := PacketBuffer.next s.buffer (bufferIn s i)
  copier t := DebugMemoryCopier.next (s.copier t) (copierIn s i t)
  resetController := ResetController.next s.resetController (softResetReq s)

end DebugModule

end FpgaLearning.Debug
