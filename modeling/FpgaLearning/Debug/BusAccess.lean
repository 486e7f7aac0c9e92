/-
The debug data path of `top.sv`: `DebugMemoryCopier`, `DebugMemoryBridge.sv`, the debug port of `ArxCore`, master 1 of
`MemoryInterconnect`, and the RAM.

The copier, the core and the request-delay flags run in every clock cycle. The arbiters, the ports and the RAM have the
clock enable, and the bridge passes an acknowledge on only in an enabled cycle. The packet lies in the parser's buffer,
which the copier reads one byte a cycle.
-/
import FpgaLearning.Bus.Top
import FpgaLearning.Debug.Units

namespace FpgaLearning.Debug

open FpgaLearning.Memory FpgaLearning.ArxCore FpgaLearning.Bus MemoryInterconnect

/-! ## DebugMemoryBridge -/

/-- `debug_ack`; the other signals are passed on as they are -/
def DebugMemoryBridge.debugAck (memClkEn memAck : Bool) : Bool := memClkEn && memAck

/-! ## The path -/

/-- what comes in from outside in one cycle -/
structure BusIn where
  clkEn : Bool
  haltReq : Bool
  resumeReq : Bool
  /-- `core_reset_n` is low after this clock edge -/
  coreReset : Bool
  copyReq : Bool
  copyWrite : Bool
  inpPacketLen : Byte
  /-- the buffer of the packet parser -/
  packet : Byte → Byte
  /-- the contents of the ROM, which the debugger may rewrite -/
  rom : Word → Word
  /-- the answer of the peripherals -/
  periphData : Word

structure DebugBus where
  core : Core
  copier : DebugMemoryCopier.St
  /-- the read port of the packet buffer -/
  inpPacketData : Byte
  fabric : Fabric RamWords
  /-- ghost: requests the RAM has served -/
  served : List MemReq

namespace DebugBus

/-- out of reset; registers without a reset keep what `b` holds -/
def reset (b : DebugBus) : DebugBus where
  core := b.core.reset
  copier := DebugMemoryCopier.reset b.copier
  inpPacketData := b.inpPacketData
  fabric := Fabric.init b.fabric.ram b.fabric.romData b.fabric.ramData
  served := []

/-- the pins of the core as far as its acknowledges go -/
def ackPins (s : DebugBus) : CoreIn where
  romData := 0
  romAck := masterAck s.fabric.ic .master2
  ramData := 0
  ramAck := masterAck s.fabric.ic .master1
  haltReq := false
  resumeReq := false
  debugReq := false
  debug := ⟨0, 0, false, 0⟩

/-- `data_ack` of the copier -/
def dataAck (s : DebugBus) (i : BusIn) : Bool := DebugMemoryBridge.debugAck i.clkEn (s.core.debugAck s.ackPins)

/-- what the copier drives, through the bridge, on the debug port -/
def reqPins (s : DebugBus) (i : BusIn) : CoreIn :=
  { s.ackPins with
    debugReq := DebugMemoryCopier.dataReq s.copier (s.dataAck i)
    debug := DebugMemoryCopier.dataOut s.copier s.inpPacketData }

/-- the data port is master 1, the instruction port master 2 -/
def masters (s : DebugBus) (i : BusIn) : Master → MasterIn
  | .master1 => ⟨s.core.ramReq (s.reqPins i), s.core.ramOut (s.reqPins i)⟩
  | .master2 => ⟨s.core.romReq (s.reqPins i), ⟨s.core.romAddr (s.reqPins i), 0, false, 0⟩⟩

def masterVal (s : DebugBus) (i : BusIn) (m : Master) : Word := masterData s.fabric.ic (s.fabric.slaveData i.periphData) m

def pins (s : DebugBus) (i : BusIn) : CoreIn :=
  { s.reqPins i with
    romData := s.masterVal i .master2
    ramData := s.masterVal i .master1
    haltReq := i.haltReq
    resumeReq := i.resumeReq }

def copierIn (s : DebugBus) (i : BusIn) : DebugMemoryCopier.In where
  copyReq := i.copyReq
  copyWrite := i.copyWrite
  inpPacketLen := i.inpPacketLen
  inpPacketData := s.inpPacketData
  dataData := s.core.debugData (s.pins i)
  dataAck := s.dataAck i

/-- the pins of the RAM port -/
def ramIn (s : DebugBus) (i : BusIn) : MasterIn := slaveIn s.fabric.ic (s.masters i) .ram

/-- one clock edge; `rdw` is what the RAM shows after a write -/
def next (rdw : Word → MemReq → Word) (s : DebugBus) (i : BusIn) : DebugBus where
  core := if i.coreReset then (s.core.next (s.pins i)).reset else s.core.next (s.pins i)
  copier := DebugMemoryCopier.next s.copier (s.copierIn i)
  inpPacketData :=
    match DebugMemoryCopier.inpPacketDataAddr s.copier (s.copierIn i) with
    | some a => i.packet a
    | none => s.inpPacketData
  fabric := s.fabric.next i.rom (topRam rdw) i.clkEn (s.masters i)
  served := s.served ++ if i.clkEn && (s.ramIn i).req then [RamPort.out (s.ramIn i)] else []

/-- the path after `n` clock edges from reset -/
abbrev after (rdw : Word → MemReq → Word) (b : DebugBus) (inp : ℕ → BusIn) (n : ℕ) : DebugBus :=
  Clocked.run (next rdw) inp b.reset n

end DebugBus

end FpgaLearning.Debug
