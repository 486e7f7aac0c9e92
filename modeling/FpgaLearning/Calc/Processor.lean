/-
The first processor, cycle by cycle: `Processor.sv` with `FetchStage.sv`, two `LoadStage.sv`, `SaveStage.sv`,
`ProgramCounter.sv` and `StackPointer.sv`, and the system of `ProcessorTb.sv`: a synchronous ROM and the memory `mmio.sv`.

Each stage waits for its start and is busy for one cycle. The address on the RAM port belongs to the stage that the
processor enters next, so that the word is there in the busy cycle of that stage.

`rdw` is what the RAM shows after a write cycle. The outputs that only drive the board are left out.
-/
import FpgaLearning.Calc.Isa

namespace FpgaLearning.Calc

open FpgaLearning.Memory
open FpgaLearning.Stack (DivByZero)

/-! ## Stages -/

namespace FetchStage

inductive State where
  | wait | decode
deriving DecidableEq, Repr

structure St where
  state : State
  /-- `imm`, `opASrc`, `opBSrc`, `resDst`, `aluOp` -/
  insn : Insn
deriving DecidableEq, Repr

def reset : St := ⟨.wait, ⟨0, .zero, .zero, .none, .zero⟩⟩

def busy (s : St) : Bool := s.state == .decode

def pcIncrEnable (s : St) : Bool := s.state == .decode

def next (s : St) (start : Bool) (pcMemData : Word) : St where
  state :=
    match s.state with
    | .wait => if start then .decode else .wait
    | .decode => .wait
  insn :=
    match s.state with
    | .wait => s.insn
    | .decode => Calc.decode pcMemData

end FetchStage

namespace LoadStage

inductive State where
  | wait | load
deriving DecidableEq, Repr

structure St where
  state : State
  data : Word
deriving DecidableEq, Repr

def reset : St := ⟨.wait, 0⟩

/-- `memAddrMux` -/
def addr (src : OperandSource) (sp memAddr : Word) : Word :=
  match src with
  | .zero => 0
  | .imm => 0
  | .stack => sp - 1
  | .mem => memAddr

/-- `nextDataMux` -/
def nextData (s : St) (src : OperandSource) (imm memData : Word) : Word :=
  match s.state with
  | .wait => s.data
  | .load =>
    match src with
    | .zero => 0
    | .imm => imm
    | .stack => memData
    | .mem => memData

def busy (s : St) : Bool := s.state == .load

def decrSp (s : St) (src : OperandSource) : Bool := s.state == .load && src == .stack

def next (s : St) (start : Bool) (src : OperandSource) (imm memData : Word) : St where
  state :=
    match s.state with
    | .wait => if start then .load else .wait
    | .load => .wait
  data := nextData s src imm memData

end LoadStage

namespace SaveStage

inductive St where
  | wait | store
deriving DecidableEq, Repr

def reset : St := .wait

/-- `addrMux` -/
def addr (dst : Destination) (sp memAddr : Word) : Word :=
  match dst with
  | .none => 0
  | .stack => sp
  | .mem => memAddr
  | .pc => 0

def busy (s : St) : Bool := s == .store

def memWe (s : St) (dst : Destination) : Bool := s == .store && (dst == .stack || dst == .mem)

def incrementSp (s : St) (dst : Destination) : Bool := s == .store && dst == .stack

def pcWe (s : St) (dst : Destination) : Bool := s == .store && dst == .pc

def next (s : St) (start : Bool) : St :=
  match s with
  | .wait => if start then .store else .wait
  | .store => .wait

end SaveStage

/-- `ProgramCounter` -/
def ProgramCounter.next (q writeData : Word) (incrEnable writeEnable : Bool) : Word :=
  if writeEnable then writeData else if incrEnable then q + 1 else q

/-- `StackPointer` -/
def StackPointer.next (sp : Word) (increment decrement : Bool) : Word :=
  if increment && !decrement then sp + 1 else if !increment && decrement then sp + 0xFFFFFFFF else sp

/-! ## Processor -/

namespace Processor

inductive State where
  | reset | fetch | loadB | loadA | store
deriving DecidableEq, Repr

structure St where
  state : State
  sp : Word
  pc : Word
  fs : FetchStage.St
  lsB : LoadStage.St
  lsA : LoadStage.St
  ss : SaveStage.St
deriving DecidableEq, Repr

def reset : St := ⟨.reset, 0, 0, FetchStage.reset, LoadStage.reset, LoadStage.reset, SaveStage.reset⟩

/-- the state machine: next state and the starts of the four stages -/
structure Ctrl where
  nextState : State
  fsStart : Bool := false
  lsBStart : Bool := false
  lsAStart : Bool := false
  ssStart : Bool := false
deriving DecidableEq, Repr

def ctrl (s : St) : Ctrl :=
  match s.state with
  | .reset => { nextState := .fetch, fsStart := true }
  | .fetch =>
    if !FetchStage.busy s.fs && !LoadStage.busy s.lsB then { nextState := .loadB, lsBStart := true }
    else { nextState := .fetch }
  | .loadB =>
    if !LoadStage.busy s.lsB && !LoadStage.busy s.lsA then { nextState := .loadA, lsAStart := true }
    else { nextState := .loadB }
  | .loadA =>
    if !LoadStage.busy s.lsA && !SaveStage.busy s.ss then { nextState := .store, ssStart := true }
    else { nextState := .loadA }
  | .store =>
    if !SaveStage.busy s.ss && !FetchStage.busy s.fs then { nextState := .fetch, fsStart := true }
    else { nextState := .store }

def romAddr (s : St) : Word := s.pc

def spDecr (s : St) : Bool :=
  match s.state with
  | .loadB => LoadStage.decrSp s.lsB s.fs.insn.opBSrc
  | .loadA => LoadStage.decrSp s.lsA s.fs.insn.opASrc
  | _ => false

/-- `case (nextState)` -/
def ramAddr (s : St) : Word :=
  match (ctrl s).nextState with
  | .loadB => LoadStage.addr s.fs.insn.opBSrc s.sp 0
  | .loadA => LoadStage.addr s.fs.insn.opASrc s.sp s.lsB.data
  | .store => SaveStage.addr s.fs.insn.resDst s.sp s.lsB.data
  | _ => 0

/-- the result of the ALU -/
def ramWriteData (z : DivByZero) (s : St) : Word := ALU.result z s.fs.insn.aluOp s.lsA.data s.lsB.data

def ramWe (s : St) : Bool := SaveStage.memWe s.ss s.fs.insn.resDst

def pcWriteEnable (s : St) : Bool := SaveStage.pcWe s.ss s.fs.insn.resDst && s.lsA.data.getLsbD 0

/-- one clock edge -/
def next (s : St) (romData ramData : Word) : St where
  state := (ctrl s).nextState
  sp := StackPointer.next s.sp (SaveStage.incrementSp s.ss s.fs.insn.resDst) (spDecr s)
  pc := ProgramCounter.next s.pc s.lsB.data (FetchStage.pcIncrEnable s.fs) (pcWriteEnable s)
  fs := FetchStage.next s.fs (ctrl s).fsStart romData
  lsB := LoadStage.next s.lsB (ctrl s).lsBStart s.fs.insn.opBSrc s.fs.insn.imm ramData
  lsA := LoadStage.next s.lsA (ctrl s).lsAStart s.fs.insn.opASrc s.fs.insn.imm ramData
  ss := SaveStage.next s.ss (ctrl s).ssStart

end Processor

/-! ## mmio -/

namespace Mmio

structure St where
  words : RamWords
  ramQ : Word
  out1 : Word

/-- the address of the current cycle selects between the register and the word read in the last one -/
def q (s : St) (address : Word) : Word := if address.getLsbD 30 then s.out1 else s.ramQ

def next (rdw : Word → Word → Word) (s : St) (address data : Word) (wren : Bool) : St where
  words :=
    if wren && !address.getLsbD 30 then Function.update s.words (address.setWidth 8) data else s.words
  ramQ :=
    if wren && !address.getLsbD 30 then rdw (s.words (address.setWidth 8)) data else s.words (address.setWidth 8)
  out1 := if wren && address.getLsbD 30 then data else s.out1

end Mmio

/-! ## The system -/

structure System where
  p : Processor.St
  romData : Word
  mem : Mmio.St
  /-- ghost: the instructions completed so far -/
  rounds : ℕ

namespace System

/-- after reset; `mem` and the words on the memory outputs are whatever they were -/
def init (mem : RamWords) (romData ramQ : Word) : System := ⟨Processor.reset, romData, ⟨mem, ramQ, 0⟩, 0⟩

variable (z : DivByZero) (rom : Word → Word) (rdw : Word → Word → Word)

/-- an instruction completes: the clock edge from `S_STORE` to `S_FETCH` -/
def completes (s : System) : Bool := s.p.state == .store && (Processor.ctrl s.p).nextState == .fetch

/-- one clock edge -/
def next (s : System) : System where
  p := Processor.next s.p s.romData (Mmio.q s.mem (Processor.ramAddr s.p))
  romData := rom (Processor.romAddr s.p)
  mem := Mmio.next rdw s.mem (Processor.ramAddr s.p) (Processor.ramWriteData z s.p) (Processor.ramWe s.p)
  rounds := s.rounds + s.completes.toNat

/-- the system after `n` clock edges from reset -/
abbrev run (mem : RamWords) (romData ramQ : Word) (n : ℕ) : System :=
  (next z rom rdw)^[n] (init mem romData ramQ)

/-- what the program can observe -/
def arch (s : System) : Arch := ⟨s.p.pc, s.p.sp, s.mem.words, s.mem.out1⟩

end System

end FpgaLearning.Calc
