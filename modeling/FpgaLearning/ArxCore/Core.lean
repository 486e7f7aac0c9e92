/-
`ArxCore.sv`: the stages wired together, the halt control and the RAM multiplexer, and the core between its two memory
ports.

`Core` is the register state of the core, `Core.next` one clock edge. `System` is the core with
- a read-only instruction memory and a data device behind `Port`s: in each cycle the environment (`Cycle`) decides
  whether the request on a port is served, and the acknowledge of the next cycle is high exactly when it was;
- ghost logs: the register writes committed by the write-back stage and the accesses of the core served on the RAM port,
  and for the current RAM acknowledge whether it answers the debug port (`ramOwner`).
-/
import FpgaLearning.ArxCore.Stages
import FpgaLearning.Core.Clocked

namespace FpgaLearning.ArxCore

open FpgaLearning.Memory

/-! ## The core -/

structure Core where
  fs : InsnFetch.St
  id : InsnDecodeStage.St
  ex : ExecStage.St
  mem : MemStage.St
  wb : WriteBackStage.St
  haltReqIn : Bool
  halted : Bool

/-- the reset values; registers without a reset branch keep what `c` holds -/
def Core.reset (c : Core) : Core where
  fs := InsnFetch.reset c.fs
  id := InsnDecodeStage.reset c.id
  ex := ExecStage.reset c.ex
  mem := MemStage.reset c.mem
  wb := WriteBackStage.reset c.wb
  haltReqIn := false
  halted := c.halted

/-- the input pins of one cycle -/
structure CoreIn where
  romData : Word
  romAck : Bool
  ramData : Word
  ramAck : Bool
  haltReq : Bool
  resumeReq : Bool
  debugReq : Bool
  debug : MemReq

namespace Core

/-! Handshakes between the stages. None of them depends on the memory ports. -/

def memReadyIn (c : Core) : Bool := MemStage.readyIn c.mem c.haltReqIn WriteBackStage.readyIn

/-- the memory stage hands over to write-back -/
def memFire (c : Core) : Bool := MemStage.validOut c.mem c.haltReqIn && WriteBackStage.readyIn

/-- the execute stage hands over to the memory stage -/
def exFire (c : Core) : Bool := ExecStage.validOut c.ex c.haltReqIn && memReadyIn c

def exReadyIn (c : Core) : Bool := ExecStage.readyIn c.ex c.haltReqIn (memReadyIn c)

/-- the redirect, which is also the flush of the decode stage -/
def pcWe (c : Core) : Bool := ExecStage.pcWeOut c.ex c.haltReqIn (memReadyIn c)

def pcBranch (c : Core) : Word := ExecStage.pcBranchOut c.ex

/-- the decode stage issues to the execute stage -/
def idFire (c : Core) : Bool := InsnDecodeStage.validOut c.id (pcWe c) c.haltReqIn && exReadyIn c

def idReadyIn (c : Core) : Bool := InsnDecodeStage.readyIn c.id (pcWe c) c.haltReqIn (exReadyIn c)

def fetch (c : Core) (i : CoreIn) : InsnFetch.Comb := InsnFetch.comb c.fs i.romAck (idReadyIn c) (pcWe c)

/-- the fetch stage hands over to the decode stage -/
def fsFire (c : Core) (i : CoreIn) : Bool := InsnFetch.validOut (fetch c i) c.haltReqIn && idReadyIn c

/-- `m_is_halted` -/
def mIsHalted (c : Core) : Bool :=
  InsnFetch.haltAckOut c.fs c.haltReqIn && InsnDecodeStage.haltAckOut c.haltReqIn &&
    ExecStage.haltAckOut c.haltReqIn && MemStage.haltAckOut c.mem c.haltReqIn

/-! The RAM multiplexer. -/

def memAckIn (c : Core) (i : CoreIn) : Bool := if mIsHalted c then false else i.ramAck

def memDataIn (c : Core) (i : CoreIn) : Word := if mIsHalted c then 0 else i.ramData

def ramReq (c : Core) (i : CoreIn) : Bool :=
  if mIsHalted c then i.debugReq else MemStage.memReqOut c.mem (memAckIn c i)

def ramOut (c : Core) (i : CoreIn) : MemReq := if mIsHalted c then i.debug else MemStage.memOut c.mem

def debugAck (c : Core) (i : CoreIn) : Bool := if mIsHalted c then i.ramAck else false

def debugData (c : Core) (i : CoreIn) : Word := if mIsHalted c then i.ramData else 0

/-! The instruction port. -/

def romReq (c : Core) (i : CoreIn) : Bool := InsnFetch.memReq (fetch c i)

def romAddr (c : Core) (i : CoreIn) : Word := InsnFetch.memAddr c.fs (fetch c i) (pcWe c) (pcBranch c)

/-- one clock edge -/
def next (c : Core) (i : CoreIn) : Core where
  fs := InsnFetch.next c.fs (fetch c i) i.romData (pcWe c) (pcBranch c)
  id := InsnDecodeStage.next c.id (pcWe c) c.haltReqIn (InsnFetch.validOut (fetch c i) c.haltReqIn) (exReadyIn c)
    (InsnFetch.pcOut c.fs (fetch c i)) (InsnFetch.insnOut c.fs (fetch c i) i.romData)
    (WriteBackStage.rdOut c.wb) (WriteBackStage.resOut c.wb) (WriteBackStage.regWriteOut c.wb)
  ex := ExecStage.next c.ex c.haltReqIn (InsnDecodeStage.validOut c.id (pcWe c) c.haltReqIn) (memReadyIn c)
    (InsnDecodeStage.out c.id)
  mem := MemStage.next c.mem c.haltReqIn (ExecStage.validOut c.ex c.haltReqIn) WriteBackStage.readyIn
    (ExecStage.out c.ex) (memAckIn c i) (memDataIn c i)
  wb := WriteBackStage.next c.wb (MemStage.validOut c.mem c.haltReqIn) (MemStage.out c.mem)
  haltReqIn := if i.haltReq then true else if i.resumeReq then false else c.haltReqIn
  halted := mIsHalted c

end Core

/-! ## The core between its memory ports -/

/-- what the environment chooses in one cycle -/
structure Cycle where
  romGrant : Bool
  ramGrant : Bool
  romBus : Word
  ramBus : Word
  haltReq : Bool
  resumeReq : Bool
  debugReq : Bool
  debug : MemReq

/-- a committed register write: register and value -/
abbrev Commit := BitVec 5 × Word

structure System (σ : Type*) where
  core : Core
  romAck : Bool
  romData : Word
  ram : Port σ
  /-- the RAM acknowledge of this cycle answers a request of the debug port -/
  ramOwner : Bool
  commits : List Commit
  accesses : List Access

namespace System

variable {σ : Type*}

/-- after reset: nothing acknowledged, nothing committed, nothing served -/
def init (c : Core) (d : σ) (romBus ramBus : Word) : System σ where
  core := c.reset
  romAck := false
  romData := romBus
  ram := ⟨d, false, ramBus⟩
  ramOwner := false
  commits := []
  accesses := []

def pins (s : System σ) (e : Cycle) : CoreIn where
  romData := s.romData
  romAck := s.romAck
  ramData := s.ram.data
  ramAck := s.ram.ack
  haltReq := e.haltReq
  resumeReq := e.resumeReq
  debugReq := e.debugReq
  debug := e.debug

def romReq (s : System σ) (e : Cycle) : Bool := s.core.romReq (s.pins e)

def ramReq (s : System σ) (e : Cycle) : Bool := s.core.ramReq (s.pins e)

/-- the register write the write-back stage commits in this cycle -/
def commitNow (c : Core) : List Commit :=
  if WriteBackStage.regWriteOut c.wb then [(WriteBackStage.rdOut c.wb, WriteBackStage.resOut c.wb)] else []

/-- one clock edge of the core, the instruction memory `imem` and the data device `D` -/
def next (imem : Word → Word) (D : Device σ) (s : System σ) (e : Cycle) : System σ where
  core := s.core.next (s.pins e)
  romAck := s.core.romReq (s.pins e) && e.romGrant
  romData := if s.core.romReq (s.pins e) && e.romGrant then imem (s.core.romAddr (s.pins e)) else e.romBus
  ram := s.ram.next D (s.core.ramReq (s.pins e)) (s.core.ramOut (s.pins e)) e.ramGrant e.ramBus
  ramOwner := s.core.mIsHalted
  commits := s.commits ++ commitNow s.core
  accesses := s.accesses ++
    if s.core.mIsHalted then [] else s.ram.served D (s.core.ramReq (s.pins e)) (s.core.ramOut (s.pins e)) e.ramGrant

/-- the system after `n` clock edges from reset -/
abbrev run (imem : Word → Word) (D : Device σ) (c : Core) (d : σ) (romBus ramBus : Word) (e : ℕ → Cycle)
    (n : ℕ) : System σ :=
  Clocked.run (System.next imem D) e (System.init c d romBus ramBus) n

end System

end FpgaLearning.ArxCore
