/-
The RISC-V system of `top.sv`: `ArxCore`, `MemoryInterconnect`, the clock-enabled ROM and RAM, and `Peripherals.sv` with
`Timer.sv`. The halt and debug inputs of the core are tied low.

The clock enable freezes the ports, the arbiters and the memories. The core, the request-delay flags of the interconnect
and the timer have no clock enable. The ROM has 2^16 words and the RAM 2^15, so both drop the upper address bits; the
register of `mmio.sv` sits at bit 30 of its word address, which is always low here, and is left out. `rdw` is what the
RAM shows after a write cycle.
-/
import FpgaLearning.ArxCore.Core
import FpgaLearning.Bus.Interconnect

namespace FpgaLearning.Bus

open FpgaLearning.Memory FpgaLearning.ArxCore

/-! ## Memories and peripherals -/

abbrev RamWords := BitVec 15 → Word

/-- `rom`, port A: `rom_addr[31:2]` on 16 address lines -/
def romRead (rom : BitVec 16 → Word) (addr : Word) : Word := rom (addr.extractLsb' 2 16)

/-- `mmio`: `ram_addr[31:2]` on 15 address lines -/
def topRam (rdw : Word → MemReq → Word) : SyncRam RamWords where
  read m addr := m (addr.extractLsb' 2 15)
  write m r :=
    if r.we then
      Function.update m (r.addr.extractLsb' 2 15) (mergeBytes (m (r.addr.extractLsb' 2 15)) r.wdata r.mask)
    else m
  answer held r := if r.we then rdw held r else held
  answer_read held r h := by simp [h]
  write_read m r h := by simp [h]

namespace Peripherals

structure St where
  out1 : Word
  timerValue : Word
deriving DecidableEq, Repr

def reset : St := ⟨0, 0⟩

/-- `case(address)` -/
def q (s : St) (address : Word) : Word :=
  if address = 0 then s.out1 else if address = 4 then s.timerValue else 0

def writeOut1 (out1 : Word) (r : MemReq) : Word :=
  if r.we && r.addr == 0 then mergeBytes out1 r.wdata r.mask else out1

/-- the timer counts whether enabled or not -/
def next (s : St) (clkEn : Bool) (r : MemReq) : St where
  out1 := if clkEn then writeOut1 s.out1 r else s.out1
  timerValue := s.timerValue + 1

end Peripherals

/-! ## The system -/

structure Top where
  core : Core
  fabric : Fabric RamWords
  periph : Peripherals.St
  /-- ghost: register writes committed by the core -/
  commits : List Commit
  /-- ghost: writes the RAM has carried out -/
  ramWrites : List MemReq

namespace Top

open MemoryInterconnect

def init (c : Core) (ram : RamWords) (romData ramData : Word) : Top :=
  ⟨c.reset, Fabric.init ram romData ramData, Peripherals.reset, [], []⟩

/-- the pins of the core as far as its requests depend on them -/
def ackPins (t : Top) : CoreIn where
  romData := 0
  romAck := masterAck t.fabric.ic .master2
  ramData := 0
  ramAck := masterAck t.fabric.ic .master1
  haltReq := false
  resumeReq := false
  debugReq := false
  debug := ⟨0, 0, false, 0⟩

/-- the data port is master 1, the instruction port master 2 -/
def masters (t : Top) : Master → MasterIn
  | .master1 => ⟨t.core.ramReq t.ackPins, t.core.ramOut t.ackPins⟩
  | .master2 => ⟨t.core.romReq t.ackPins, ⟨t.core.romAddr t.ackPins, 0, false, 0⟩⟩

/-- the peripherals answer the address of the current cycle -/
def periphVal (t : Top) : Word := Peripherals.q t.periph (slaveOut t.fabric.ic t.masters .periph).addr

def masterVal (t : Top) (m : Master) : Word := masterData t.fabric.ic (t.fabric.slaveData t.periphVal) m

def pins (t : Top) : CoreIn := { t.ackPins with romData := t.masterVal .master2, ramData := t.masterVal .master1 }

/-- one clock edge -/
def next (rom : BitVec 16 → Word) (rdw : Word → MemReq → Word) (t : Top) (clkEn : Bool) : Top where
  core := t.core.next t.pins
  fabric := t.fabric.next (romRead rom) (topRam rdw) clkEn t.masters
  periph := Peripherals.next t.periph clkEn (slaveOut t.fabric.ic t.masters .periph)
  commits := t.commits ++ System.commitNow t.core
  ramWrites := t.ramWrites ++
    if clkEn && (slaveOut t.fabric.ic t.masters .ram).we then [slaveOut t.fabric.ic t.masters .ram] else []

/-- the system after `n` clock edges from reset, with clock enable `clkEn n` in cycle `n` -/
abbrev run (rom : BitVec 16 → Word) (rdw : Word → MemReq → Word) (c : Core) (ram : RamWords) (romData ramData : Word)
    (clkEn : ℕ → Bool) (n : ℕ) : Top :=
  Clocked.run (next rom rdw) clkEn (init c ram romData ramData) n

end Top

end FpgaLearning.Bus
