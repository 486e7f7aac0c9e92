/-
The stack processor of Calc2, cycle by cycle: `Processor.sv` with `FetchStage.sv`, `ProgramCounter.sv`,
`StackPointer.sv`, `Register.sv`, `AddrSelector.sv`, `OperandSourceSelector.sv`, `SaveStage.sv` and
`BranchConditioner.sv`, the memory `mmio.sv`, and the system of `ProcessorTb.sv`: program memory behind `RomPort`, data
memory behind `RamPort`.

One instruction takes a fetch and three accesses to the data memory; an operand that needs none makes a dummy read of
address 0. Every register, both ports and both memories share the clock enable. While the processor is halted, its data
port belongs to the debug port.

`rdw` is what the RAM shows after a write cycle. The `*_dbg` outputs drive nothing and are left out.
-/
import FpgaLearning.Bus.Interconnect
import FpgaLearning.Stack.Isa

namespace FpgaLearning.Stack

open FpgaLearning.Memory FpgaLearning.Bus

/-! ## Combinational units -/

namespace AddrSelector

def addr (src : OperandSource) (stackPointer memAddr : Word) : Word :=
  match src with
  | .stack => stackPointer + 0xFFFFFFFF
  | .addr => memAddr
  | _ => 0

def decrementSp (enable : Bool) (src : OperandSource) : Bool :=
  if enable then
    match src with
    | .stack => true
    | _ => false
  else false

end AddrSelector

/-- `OperandSourceSelector` -/
def OperandSourceSelector.q (opSrc : OperandSource) (inImm inStack inMem inFp inPpc : Word) : Word :=
  match opSrc with
  | .imm => inImm
  | .stack => inStack
  | .stackImm => inStack + inImm
  | .fp => inFp
  | .fpImm => inFp + inImm
  | .ppc => inPpc
  | .addr => inMem
  | .addrImm => inMem + inImm

/-- `BranchConditioner` -/
def BranchConditioner.q (resDst : StoreDestination) (regA : Word) : Bool :=
  match resDst with
  | .pc => true
  | .pcZ => regA == 0
  | .pcNz => regA != 0
  | _ => false

namespace SaveStage

def addr (dst : StoreDestination) (sp memAddr : Word) : Word :=
  match dst with
  | .stack => sp
  | .mem => memAddr
  | _ => 0

def memWriteEnable (dst : StoreDestination) : Bool :=
  match dst with
  | .stack | .mem => true
  | _ => false

def incrementSp (enable : Bool) (dst : StoreDestination) : Bool := enable && dst == .stack

def fpWriteEnable (enable : Bool) (dst : StoreDestination) : Bool := enable && dst == .fp

def pcWriteEnable (enable : Bool) (dst : StoreDestination) (regA : Word) : Bool :=
  enable && BranchConditioner.q dst regA

end SaveStage

/-! ## Processor -/

namespace Processor

inductive State where
  | halt | fetch | loadB | loadA | store
deriving DecidableEq, Repr

structure St where
  curState : State
  localPc : Word
  localPpc : Word
  sp : Word
  fp : Word
  opA : Word
  opB : Word
  /-- the registers of `FetchStage` -/
  localInsn : Insn
deriving DecidableEq, Repr

def reset : St := ⟨.halt, 0, 0, 0, 0, 0, 0, ⟨0, .imm, .imm, .none, .zero⟩⟩

/-- the pins of one cycle -/
structure In where
  clkEn : Bool
  romData : Word
  romAck : Bool
  ramData : Word
  ramAck : Bool
  haltReq : Bool
  resumeReq : Bool
  /-- `mem_debug_req` and the request on the debug port -/
  debug : MasterIn
deriving DecidableEq, Repr

def halted (s : St) : Bool := s.curState == .halt

def ramAckInternal (s : St) (i : In) : Bool := if halted s then false else i.ramAck

def ramDataInternal (s : St) (i : In) : Word := if halted s then 0 else i.ramData

/-- the state machine: next state and the enables of the four phases -/
structure Ctrl where
  nextState : State
  romReq : Bool := false
  ramReq : Bool := false
  enableFetch : Bool := false
  enableLoadB : Bool := false
  enableLoadA : Bool := false
  enableStore : Bool := false
deriving DecidableEq, Repr

def ctrl (s : St) (i : In) : Ctrl :=
  match s.curState with
  | .halt => { nextState := if i.resumeReq then .fetch else .halt }
  | .fetch =>
    if i.romAck then { nextState := .loadB, enableFetch := true } else { nextState := .fetch, romReq := true }
  | .loadB =>
    if ramAckInternal s i then { nextState := .loadA, enableLoadB := true } else { nextState := .loadB, ramReq := true }
  | .loadA =>
    if ramAckInternal s i then { nextState := .store, enableLoadA := true } else { nextState := .loadA, ramReq := true }
  | .store =>
    if ramAckInternal s i then { nextState := if i.haltReq then .halt else .fetch, enableStore := true }
    else { nextState := .store, ramReq := true }

/-- the outputs of `FetchStage` bypass its registers in the fetch cycle -/
def insn (s : St) (i : In) : Insn := if i.clkEn && (ctrl s i).enableFetch then decode i.romData else s.localInsn

def pcWriteEnable (s : St) (i : In) : Bool :=
  SaveStage.pcWriteEnable (i.clkEn && (ctrl s i).enableStore) (insn s i).resDst s.opA

/-- and so do those of `ProgramCounter` in the cycle of a jump -/
def pcVal (s : St) (i : In) : Word := if i.clkEn && pcWriteEnable s i then s.opB else s.localPc

def ppcVal (s : St) (i : In) : Word := if i.clkEn && pcWriteEnable s i then s.localPc else s.localPpc

def aluRes (z : DivByZero) (s : St) (i : In) : Word := ALU.result z (insn s i).aluOp s.opA s.opB

def regBWriteData (s : St) (i : In) : Word :=
  OperandSourceSelector.q (insn s i).opBSrc (insn s i).imm (ramDataInternal s i) (ramDataInternal s i) s.fp (ppcVal s i)

def regAWriteData (s : St) (i : In) : Word :=
  OperandSourceSelector.q (insn s i).opASrc (insn s i).imm (ramDataInternal s i) (ramDataInternal s i) s.fp (ppcVal s i)

def ramAddrInternal (s : St) (i : In) : Word :=
  match s.curState with
  | .loadB => AddrSelector.addr (insn s i).opBSrc s.sp 0
  | .loadA => AddrSelector.addr (insn s i).opASrc s.sp s.opB
  | .store => SaveStage.addr (insn s i).resDst s.sp s.opB
  | _ => 0

def ramWeInternal (s : St) (i : In) : Bool :=
  match s.curState with
  | .store => SaveStage.memWriteEnable (insn s i).resDst
  | _ => false

/-- what the processor drives on the RAM port -/
def ramOut (z : DivByZero) (s : St) (i : In) : MasterIn :=
  if halted s then i.debug
  else ⟨(ctrl s i).ramReq, ⟨ramAddrInternal s i, aluRes z s i, ramWeInternal s i, 0b1111⟩⟩

def romReq (s : St) (i : In) : Bool := (ctrl s i).romReq

def romAddr (s : St) (i : In) : Word := pcVal s i

/-- `StackPointer` -/
def nextSp (sp : Word) (clkEnable increment decrement : Bool) : Word :=
  if clkEnable then
    if increment && !decrement then sp + 1 else if !increment && decrement then sp + 0xFFFFFFFF else sp
  else sp

def spDecrEnable (s : St) (i : In) : Bool :=
  (ctrl s i).enableLoadB && AddrSelector.decrementSp (i.clkEn && (ctrl s i).enableLoadB) (insn s i).opBSrc ||
    (ctrl s i).enableLoadA && AddrSelector.decrementSp (i.clkEn && (ctrl s i).enableLoadA) (insn s i).opASrc

def spIncrEnable (s : St) (i : In) : Bool :=
  SaveStage.incrementSp (i.clkEn && (ctrl s i).enableStore) (insn s i).resDst

def fpWriteEnable (s : St) (i : In) : Bool :=
  SaveStage.fpWriteEnable (i.clkEn && (ctrl s i).enableStore) (insn s i).resDst

def next (z : DivByZero) (s : St) (i : In) : St where
  curState := if i.clkEn then (ctrl s i).nextState else s.curState
  localPc :=
    if i.clkEn then
      if pcWriteEnable s i then s.opB
      else if i.clkEn && (ctrl s i).enableFetch then pcVal s i + 1 else s.localPc
    else s.localPc
  localPpc := if i.clkEn && pcWriteEnable s i then s.localPc else s.localPpc
  sp := nextSp s.sp i.clkEn (spIncrEnable s i) (spDecrEnable s i)
  fp := if i.clkEn && fpWriteEnable s i then aluRes z s i else s.fp
  opA := if i.clkEn && (ctrl s i).enableLoadA then regAWriteData s i else s.opA
  opB := if i.clkEn && (ctrl s i).enableLoadB then regBWriteData s i else s.opB
  localInsn := if i.clkEn && (ctrl s i).enableFetch then insn s i else s.localInsn

end Processor

/-! ## mmio -/

namespace Mmio

structure St where
  words : RamWords
  ramQ : Word
  out1 : Word

def q (s : St) (address : Word) : Word := if address.getLsbD 30 then s.out1 else s.ramQ

def next (rdw : Word → MemReq → Word) (s : St) (clkEn : Bool) (r : MemReq) : St :=
  let wren := r.we && !r.addr.getLsbD 30
  let a := r.addr.setWidth 15
  if clkEn then
    { words := if wren then Function.update s.words a (mergeBytes (s.words a) r.wdata r.mask) else s.words
      ramQ := if wren then rdw (s.words a) r else s.words a
      out1 := if r.we && r.addr.getLsbD 30 then mergeBytes s.out1 r.wdata r.mask else s.out1 }
  else s

end Mmio

/-! ## The system -/

/-- the inputs of one cycle -/
structure Cycle where
  clkEn : Bool
  haltReq : Bool
  resumeReq : Bool
  debug : MasterIn
deriving DecidableEq, Repr

structure System where
  p : Processor.St
  romPort : RomPort.St
  romData : Word
  ramPort : RamPort.St
  mem : Mmio.St
  /-- ghost: the instructions completed so far -/
  rounds : ℕ

namespace System

/-- after reset; `mem` and the words on the memory outputs are whatever they were -/
def init (mem : RamWords) (romData ramQ : Word) : System :=
  ⟨Processor.reset, RomPort.reset, romData, RamPort.reset, ⟨mem, ramQ, 0⟩, 0⟩

/-- the pins of the processor as far as its requests depend on them -/
def ackPins (s : System) (e : Cycle) : Processor.In where
  clkEn := e.clkEn
  romData := s.romData
  romAck := RomPort.ack s.romPort
  ramData := 0
  ramAck := s.ramPort.ack
  haltReq := e.haltReq
  resumeReq := e.resumeReq
  debug := e.debug

variable (z : DivByZero) (rom : Word → Word) (rdw : Word → MemReq → Word)

/-- what `RamPort` presents to the memory -/
def memReq (s : System) (e : Cycle) : MemReq := RamPort.out (Processor.ramOut z s.p (s.ackPins e))

def pins (s : System) (e : Cycle) : Processor.In :=
  { s.ackPins e with ramData := Mmio.q s.mem (s.memReq z e).addr }

/-- an instruction completes: the clock edge that leaves `S_STORE` -/
def completes (s : System) (e : Cycle) : Bool := e.clkEn && (Processor.ctrl s.p (s.ackPins e)).enableStore

/-- one clock edge -/
def next (s : System) (e : Cycle) : System where
  p := Processor.next z s.p (s.pins z e)
  romPort := RomPort.next s.romPort e.clkEn (Processor.romReq s.p (s.pins z e))
  romData := if e.clkEn then rom (Processor.romAddr s.p (s.pins z e)) else s.romData
  ramPort := RamPort.next s.ramPort e.clkEn (Processor.ramOut z s.p (s.pins z e)).req
  mem := Mmio.next rdw s.mem e.clkEn (s.memReq z e)
  rounds := s.rounds + (s.completes e).toNat

/-- the system after `n` clock edges from reset -/
abbrev run (mem : RamWords) (romData ramQ : Word) (e : ℕ → Cycle) (n : ℕ) : System :=
  Clocked.run (next z rom rdw) e (init mem romData ramQ) n

end System

end FpgaLearning.Stack
