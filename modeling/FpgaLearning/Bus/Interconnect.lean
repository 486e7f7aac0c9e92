/-
The memory interconnect: `RamArbiter2to1.sv`, `RamPort.sv`, `RomPort.sv`, `MemoryInterconnect.sv`, and the synchronous
memories behind it.

Two masters share three slaves. Each slave has an arbiter, which grants combinationally in the cycle of a request, and a
port, whose acknowledge follows one clock cycle later; the interconnect remembers for each master which slave its request
of the last cycle went to and returns that slave's answer. `RamPort`'s `cur_state` drives nothing and is left out.

`Fabric` adds the ROM and the RAM. A RAM is given by its reads and writes, and by `answer`, the word on its output after
a cycle: for a read the word held, for a write whatever its read-during-write mode makes it show.
-/
import FpgaLearning.Core.Memory
import FpgaLearning.Core.Clocked

namespace FpgaLearning.Bus

open FpgaLearning.Memory

/-! ## Masters -/

/-- `MASTER_1` and `MASTER_2` -/
inductive Master where
  | master1 | master2
deriving DecidableEq, Repr

def Master.other : Master → Master
  | .master1 => .master2
  | .master2 => .master1

/-- what a master drives in one cycle -/
structure MasterIn where
  req : Bool
  r : MemReq
deriving DecidableEq, Repr

/-! ## RamArbiter2to1 -/

namespace RamArbiter2to1

structure St where
  selectedMaster : Master
deriving DecidableEq, Repr

def reset : St := ⟨.master1⟩

/-- `case ({ master1_req, master2_req })` -/
def nextMaster (s : St) (i : Master → MasterIn) (slaveAck : Bool) : Master :=
  match (i .master1).req, (i .master2).req with
  | false, false => s.selectedMaster
  | false, true => .master2
  | true, false => .master1
  | true, true => if slaveAck then s.selectedMaster.other else s.selectedMaster

/-- the input multiplexer -/
def slaveIn (s : St) (i : Master → MasterIn) (slaveAck : Bool) : MasterIn := i (nextMaster s i slaveAck)

/-- the output multiplexer -/
def masterAck (s : St) (slaveAck : Bool) (m : Master) : Bool := if s.selectedMaster = m then slaveAck else false

def masterData (s : St) (slaveData : Word) (m : Master) : Word := if s.selectedMaster = m then slaveData else 0

def next (s : St) (clkEn : Bool) (i : Master → MasterIn) (slaveAck : Bool) : St :=
  if clkEn then ⟨nextMaster s i slaveAck⟩ else s

end RamArbiter2to1

/-! ## RamPort and RomPort -/

namespace RamPort

structure St where
  ack : Bool
deriving DecidableEq, Repr

def reset : St := ⟨false⟩

def next (s : St) (clkEn req : Bool) : St := if clkEn then ⟨req⟩ else s

/-- what the port presents to the memory: a write only while requested -/
def out (i : MasterIn) : MemReq := { i.r with we := i.req && i.r.we }

end RamPort

namespace RomPort

inductive St where
  | idle | waitData
deriving DecidableEq, Repr

def reset : St := .idle

def ack (s : St) : Bool := s == .waitData

def next (s : St) (clkEn req : Bool) : St :=
  if clkEn then
    match s with
    | .idle => if req then .waitData else .idle
    | .waitData => if !req then .idle else .waitData
  else s

end RomPort

/-! ## MemoryInterconnect -/

namespace MemoryInterconnect

inductive Slave where
  | rom | ram | periph
deriving DecidableEq, Repr

/-- `ROM_ADDR_MASK`, `RAM_ADDR_MASK`, `PERIPH_ADDR_MASK` -/
def Slave.mask : Slave → Word
  | .rom | .ram | .periph => 0xE0000000

/-- `ROM_ADDR`, `RAM_ADDR`, `PERIPH_ADDR` -/
def Slave.base : Slave → Word
  | .rom => 0x00000000
  | .ram => 0x20000000
  | .periph => 0x40000000

/-- `(MASK & addr) == ADDR` -/
def inRegion (sl : Slave) (addr : Word) : Bool := (sl.mask &&& addr) == sl.base

/-- `master_rom_req`, `master_ram_req`, `master_periph_req` -/
def slaveReq (sl : Slave) (i : MasterIn) : Bool := inRegion sl i.r.addr && i.req

/-- `master_bad_req` -/
def badReq (i : MasterIn) : Bool :=
  i.req && !inRegion .ram i.r.addr && !inRegion .rom i.r.addr && !inRegion .periph i.r.addr

structure St where
  arbiter : Slave → RamArbiter2to1.St
  romPort : RomPort.St
  ramPort : RamPort.St
  periphPort : RamPort.St
  reqDelay : Master → Slave → Bool
  badReqDelay : Master → Bool

def reset : St where
  arbiter _ := RamArbiter2to1.reset
  romPort := RomPort.reset
  ramPort := RamPort.reset
  periphPort := RamPort.reset
  reqDelay _ _ := false
  badReqDelay _ := false

def portAck (s : St) : Slave → Bool
  | .rom => RomPort.ack s.romPort
  | .ram => s.ramPort.ack
  | .periph => s.periphPort.ack

/-- what the arbiter of a slave sees of a master; the ROM arbiter is given no write -/
def toSlave (sl : Slave) (i : MasterIn) : MasterIn where
  req := slaveReq sl i
  r :=
    match sl with
    | .rom => ⟨i.r.addr &&& ~~~sl.mask, 0, false, 0⟩
    | .ram | .periph => { i.r with addr := i.r.addr &&& ~~~sl.mask }

/-- the master whose request the slave sees -/
def granted (s : St) (i : Master → MasterIn) (sl : Slave) : Master :=
  RamArbiter2to1.nextMaster (s.arbiter sl) (fun m => toSlave sl (i m)) (portAck s sl)

def slaveIn (s : St) (i : Master → MasterIn) (sl : Slave) : MasterIn :=
  RamArbiter2to1.slaveIn (s.arbiter sl) (fun m => toSlave sl (i m)) (portAck s sl)

/-- the pins of a slave; the ROM uses the address only -/
def slaveOut (s : St) (i : Master → MasterIn) (sl : Slave) : MemReq := RamPort.out (slaveIn s i sl)

def masterAck (s : St) (m : Master) : Bool :=
  if s.reqDelay m .rom then RamArbiter2to1.masterAck (s.arbiter .rom) (portAck s .rom) m
  else if s.reqDelay m .ram then RamArbiter2to1.masterAck (s.arbiter .ram) (portAck s .ram) m
  else if s.reqDelay m .periph then RamArbiter2to1.masterAck (s.arbiter .periph) (portAck s .periph) m
  else s.badReqDelay m

def masterData (s : St) (slaveData : Slave → Word) (m : Master) : Word :=
  if s.reqDelay m .rom then RamArbiter2to1.masterData (s.arbiter .rom) (slaveData .rom) m
  else if s.reqDelay m .ram then RamArbiter2to1.masterData (s.arbiter .ram) (slaveData .ram) m
  else if s.reqDelay m .periph then RamArbiter2to1.masterData (s.arbiter .periph) (slaveData .periph) m
  else if s.badReqDelay m then BitVec.allOnes 32
  else 0

/-- the request-delay flags have no clock enable -/
def next (s : St) (clkEn : Bool) (i : Master → MasterIn) : St where
  arbiter sl := RamArbiter2to1.next (s.arbiter sl) clkEn (fun m => toSlave sl (i m)) (portAck s sl)
  romPort := RomPort.next s.romPort clkEn (slaveIn s i .rom).req
  ramPort := RamPort.next s.ramPort clkEn (slaveIn s i .ram).req
  periphPort := RamPort.next s.periphPort clkEn (slaveIn s i .periph).req
  reqDelay m sl := slaveReq sl (i m)
  badReqDelay m := badReq (i m)

end MemoryInterconnect

/-! ## The memories behind it -/

/-- a synchronous one-cycle RAM with contents `σ` -/
structure SyncRam (σ : Type*) where
  read : σ → Word → Word
  write : σ → MemReq → σ
  /-- the output after a cycle in which the addressed word was `held` -/
  answer : (held : Word) → MemReq → Word
  answer_read : ∀ held r, r.we = false → answer held r = held
  write_read : ∀ m r, r.we = false → write m r = m

/-- interconnect, output registers of the memories, contents of the RAM -/
structure Fabric (σ : Type*) where
  ic : MemoryInterconnect.St
  romData : Word
  ram : σ
  ramData : Word

namespace Fabric

variable {σ : Type*}

open MemoryInterconnect

def init (m : σ) (romData ramData : Word) : Fabric σ := ⟨reset, romData, m, ramData⟩

/-- the data of the slaves; a peripheral answers combinationally -/
def slaveData (f : Fabric σ) (periphData : Word) : Slave → Word
  | .rom => f.romData
  | .ram => f.ramData
  | .periph => periphData

/-- one clock edge; the memories share the clock enable of the interconnect -/
def next (rom : Word → Word) (M : SyncRam σ) (f : Fabric σ) (clkEn : Bool) (i : Master → MasterIn) : Fabric σ where
  ic := MemoryInterconnect.next f.ic clkEn i
  romData := if clkEn then rom (slaveOut f.ic i .rom).addr else f.romData
  ram := if clkEn then M.write f.ram (slaveOut f.ic i .ram) else f.ram
  ramData :=
    if clkEn then M.answer (M.read f.ram (slaveOut f.ic i .ram).addr) (slaveOut f.ic i .ram) else f.ramData

end Fabric

end FpgaLearning.Bus
