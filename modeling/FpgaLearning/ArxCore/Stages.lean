/-
The five pipeline stages of ArxCore: `InsnFetch.sv`, `InsnDecodeStage.sv` with `RegisterFile.sv`, `ExecStage.sv`,
`MemStage.sv` and `WriteBackStage.sv`.

Every stage is its registers (`St`), its combinational outputs as functions of the registers and of the inputs they
depend on, and `next`. All inputs are explicit, so `Core.lean` can wire the stages as `ArxCore.sv` does. An output the
source drives with `'x` (nothing valid, no request) is 0 here; nobody reads it then. `reset` assigns exactly the
registers of the source's reset branches, every other register keeps an arbitrary value.
-/
import FpgaLearning.ArxCore.Units

namespace FpgaLearning.ArxCore

open FpgaLearning.Memory

/-! ## InsnFetch -/

namespace InsnFetch

/-- `out_source_t` -/
inductive OutSource where
  | none | mem | buf
deriving DecidableEq, Repr

/-- `mem_req_t` -/
inductive MemReqType where
  | none | cur | next
deriving DecidableEq, Repr

/-- `if_state_t` -/
inductive State where
  | idle | fetch | waitHandshake | halt
deriving DecidableEq, Repr

structure St where
  curState : State
  pc : Word
  insnBuf : Word
  pcWeBuf : Bool
  pcInBuf : Word
deriving DecidableEq, Repr

def reset (s : St) : St := { s with curState := .idle, pc := 0, insnBuf := 0, pcWeBuf := false }

/-- what the state machine drives in one cycle -/
structure Comb where
  nextState : State
  outSource : OutSource := .none
  memReqType : MemReqType := .none
  pcUpd : Bool := false
  pcWeAck : Bool := false
  insnBufWe : Bool := false
deriving DecidableEq, Repr

def pcWeInternal (s : St) (pcWe : Bool) : Bool := pcWe || s.pcWeBuf

def pcInInternal (s : St) (pcWe : Bool) (pcIn : Word) : Word := if pcWe then pcIn else s.pcInBuf

def pcNext (s : St) (pcWe : Bool) (pcIn : Word) : Word :=
  if pcWeInternal s pcWe then pcInInternal s pcWe pcIn else s.pc + 4

def comb (s : St) (memAck readyOut pcWe : Bool) : Comb :=
  match s.curState with
  | .idle => { nextState := .fetch }
  | .fetch =>
    if memAck then
      if readyOut || pcWeInternal s pcWe then
        { nextState := .fetch, outSource := if pcWeInternal s pcWe then .none else .mem,
          pcWeAck := pcWeInternal s pcWe, pcUpd := true, memReqType := .next }
      else
        { nextState := .waitHandshake, outSource := .mem, insnBufWe := true }
    else { nextState := .fetch, memReqType := .cur }
  | .waitHandshake =>
    if readyOut || pcWe then
      { nextState := .fetch, outSource := if pcWeInternal s pcWe then .none else .buf,
        pcWeAck := pcWeInternal s pcWe, pcUpd := true, memReqType := .next }
    else { nextState := .waitHandshake, outSource := .buf }
  | .halt => { nextState := .halt }

def haltAckOut (s : St) (haltReqIn : Bool) : Bool :=
  match s.curState with
  | .waitHandshake => haltReqIn
  | _ => false

def validOut (c : Comb) (haltReqIn : Bool) : Bool :=
  match c.outSource with
  | .none => false
  | _ => !haltReqIn

def insnOut (s : St) (c : Comb) (memInsnIn : Word) : Word :=
  match c.outSource with
  | .none => 0
  | .mem => memInsnIn
  | .buf => s.insnBuf

def pcOut (s : St) (c : Comb) : Word :=
  match c.outSource with
  | .none => 0
  | _ => s.pc

def memReq (c : Comb) : Bool :=
  match c.memReqType with
  | .none => false
  | _ => true

def memAddr (s : St) (c : Comb) (pcWe : Bool) (pcIn : Word) : Word :=
  match c.memReqType with
  | .none => 0
  | .cur => s.pc
  | .next => pcNext s pcWe pcIn

def next (s : St) (c : Comb) (memInsnIn : Word) (pcWe : Bool) (pcIn : Word) : St where
  curState := c.nextState
  insnBuf := if c.insnBufWe then memInsnIn else s.insnBuf
  pcWeBuf := if c.pcWeAck then false else if pcWe && !c.pcWeAck then true else s.pcWeBuf
  pcInBuf := if pcWe && !c.pcWeAck then pcIn else s.pcInBuf
  pc := if c.pcUpd then pcNext s pcWe pcIn else s.pc

end InsnFetch

/-! ## InsnDecodeStage -/

/-- `RegisterFile`, write port -/
def RegisterFile.write (regs : BitVec 5 → Word) (rd : BitVec 5) (writeEn : Bool) (d : Word) : BitVec 5 → Word :=
  if writeEn && rd != 0 then Function.update regs rd d else regs

/-- what the decode stage hands to the execute stage -/
structure IdOut where
  d : Decoded
  rs1 : Word
  rs2 : Word
  rd : BitVec 5
  pc : Word
deriving DecidableEq, Repr

namespace InsnDecodeStage

structure St where
  mValid : Bool
  mPc : Word
  mInsn : Word
  regs : BitVec 5 → Word
  mUsedReg : BitVec 5 → BitVec 2

def reset (s : St) : St := { s with mValid := false, regs := fun _ => 0, mUsedReg := fun _ => 0 }

def out (s : St) : IdOut where
  d := decode s.mInsn
  rs1 := s.regs (InsnDecoder.rs1 s.mInsn)
  rs2 := s.regs (InsnDecoder.rs2 s.mInsn)
  rd := InsnDecoder.rd s.mInsn
  pc := s.mPc

def haltAckOut (haltReqIn : Bool) : Bool := haltReqIn

def validOut (s : St) (flushIn haltReqIn : Bool) : Bool :=
  if !flushIn && !haltReqIn then
    s.mValid && (s.mUsedReg (InsnDecoder.rs1 s.mInsn) == 0 && s.mUsedReg (InsnDecoder.rs2 s.mInsn) == 0)
  else false

def readyIn (s : St) (flushIn haltReqIn readyOut : Bool) : Bool :=
  if !flushIn && !haltReqIn then !s.mValid || (validOut s flushIn haltReqIn && readyOut) else false

/-- the scoreboard: up for an issued writer, down for a retired one, unchanged when both name the same register -/
def nextUsedReg (used : BitVec 5 → BitVec 2) (rdIn : BitVec 5) (rdWeIn : Bool) (rdOut : BitVec 5) (issue : Bool) :
    BitVec 5 → BitVec 2 :=
  if rdIn != rdOut || !rdWeIn || !issue then
    let u := if rdWeIn then Function.update used rdIn (used rdIn - 1) else used
    if issue then Function.update u rdOut (used rdOut + 1) else u
  else used

def next (s : St) (flushIn haltReqIn validIn readyOut : Bool) (pcIn insnIn : Word) (rdIn : BitVec 5) (rdValIn : Word)
    (rdWeIn : Bool) : St where
  mValid :=
    if validIn && readyIn s flushIn haltReqIn readyOut then true
    else if flushIn || (validOut s flushIn haltReqIn && readyOut) then false
    else s.mValid
  mPc := if validIn && readyIn s flushIn haltReqIn readyOut then pcIn else s.mPc
  mInsn := if validIn && readyIn s flushIn haltReqIn readyOut then insnIn else s.mInsn
  regs := RegisterFile.write s.regs rdIn rdWeIn rdValIn
  mUsedReg := nextUsedReg s.mUsedReg rdIn rdWeIn (out s).rd
    (validOut s flushIn haltReqIn && readyOut && (out s).d.regWrite)

end InsnDecodeStage

/-! ## ExecStage -/

/-- what the execute stage hands to the memory stage -/
structure ExOut where
  alu : Word
  rs2 : Word
  rd : BitVec 5
  pc : Word
  regWrite : Bool
  memToReg : Bool
  memOp : Bool
  memOpType : LsType
deriving DecidableEq, Repr

namespace ExOut

/-- what a memory operation drives on the memory port -/
def memReq (o : ExOut) : MemReq := LoadStoreUnit.request o.memOpType o.alu o.rs2

/-- the value a memory operation reads from the word on the bus -/
def memVal (o : ExOut) (data : Word) : Word := LoadStoreUnit.readData o.memOpType o.alu data

end ExOut

namespace ExecStage

structure St where
  mRs1In : Word
  mRs2In : Word
  mImmIn : Word
  mRdIn : BitVec 5
  mPcIn : Word
  mPcBranchType : BranchType
  mRegWriteIn : Bool
  mMemToRegIn : Bool
  mMemOp : Bool
  mMemOpType : LsType
  mPcJumpEnIn : Bool
  mAluEnIn : Bool
  mMduEnIn : Bool
  ialu : IALU.St
  imdu : IMDU.St
deriving DecidableEq, Repr

/-- the stage registers have no reset -/
def reset (s : St) : St := { s with ialu := IALU.reset s.ialu, imdu := IMDU.reset s.imdu }

def ialuArg1 (i : IdOut) : Word :=
  match i.d.aluSrc1 with
  | .rs1 => i.rs1
  | .zero => 0
  | .pc => i.pc

def ialuArg2 (i : IdOut) : Word :=
  match i.d.aluSrc2 with
  | .rs2 => i.rs2
  | .four => 4
  | .imm => i.d.imm

def haltAckOut (haltReqIn : Bool) : Bool := haltReqIn

def readyIn (s : St) (haltReqIn readyOut : Bool) : Bool :=
  if !haltReqIn then IALU.readyIn s.ialu readyOut && IMDU.readyIn s.imdu readyOut else false

def validOut (s : St) (haltReqIn : Bool) : Bool :=
  if !haltReqIn then s.mAluEnIn && s.ialu.validOut || s.mMduEnIn && IMDU.validOut s.imdu else false

def aluOut (s : St) : Word :=
  if s.mAluEnIn then s.ialu.res else if s.mMduEnIn then IMDU.resOut s.imdu else 0

def out (s : St) : ExOut where
  alu := aluOut s
  rs2 := s.mRs2In
  rd := s.mRdIn
  pc := s.mPcIn
  regWrite := s.mRegWriteIn
  memToReg := s.mMemToRegIn
  memOp := s.mMemOp
  memOpType := s.mMemOpType

def pcBranchOut (s : St) : Word :=
  (match s.mPcBranchType with
    | .regImm => s.mRs1In
    | .pcImm => s.mPcIn) + s.mImmIn

def pcWeOut (s : St) (haltReqIn readyOut : Bool) : Bool :=
  (s.mAluEnIn && s.ialu.branchEn || s.mPcJumpEnIn) && validOut s haltReqIn && readyOut

def next (s : St) (haltReqIn validIn readyOut : Bool) (i : IdOut) : St :=
  let fire := readyIn s haltReqIn readyOut && validIn
  -- under halt the units are offered nothing and nothing is taken from them
  let unitReady := !haltReqIn && readyOut
  { mRs1In := if fire then i.rs1 else s.mRs1In
    mRs2In := if fire then i.rs2 else s.mRs2In
    mImmIn := if fire then i.d.imm else s.mImmIn
    mRdIn := if fire then i.rd else s.mRdIn
    mPcIn := if fire then i.pc else s.mPcIn
    mPcBranchType := if fire then i.d.pcAddrType else s.mPcBranchType
    mRegWriteIn := if fire then i.d.regWrite else s.mRegWriteIn
    mMemToRegIn := if fire then i.d.memToReg else s.mMemToRegIn
    mMemOp := if fire then i.d.memOp else s.mMemOp
    mMemOpType := if fire then i.d.memOpType else s.mMemOpType
    mPcJumpEnIn := if fire then i.d.pcJumpEn else s.mPcJumpEnIn
    mAluEnIn := if fire then i.d.aluEn else s.mAluEnIn
    mMduEnIn := if fire then i.d.mduEn else s.mMduEnIn
    ialu := IALU.next s.ialu (fire && i.d.aluEn) unitReady i.d.aluOp (ialuArg1 i) (ialuArg2 i)
    imdu := IMDU.next s.imdu (fire && i.d.mduEn) unitReady i.d.mduOp (ialuArg1 i) (ialuArg2 i) }

end ExecStage

/-! ## MemStage -/

/-- what the memory stage hands to the write-back stage -/
structure MemOut where
  regWrite : Bool
  memToReg : Bool
  aluRes : Word
  memVal : Word
  rd : BitVec 5
  pc : Word
deriving DecidableEq, Repr

namespace MemStage

structure St where
  validInInternal : Bool
  pcInInternal : Word
  aluInInternal : Word
  rs2InInternal : Word
  rdInInternal : BitVec 5
  regWriteInInternal : Bool
  memToRegInInternal : Bool
  memDataValid : Bool
  memDataInternal : Word
  memRequest : Bool
  memOpTypeInInternal : LsType
deriving DecidableEq, Repr

def reset (s : St) : St :=
  { s with validInInternal := false, memDataValid := false, memDataInternal := 0, memRequest := false }

def haltAckOut (s : St) (haltReqIn : Bool) : Bool := haltReqIn && (s.memDataValid || !s.validInInternal)

def validOut (s : St) (haltReqIn : Bool) : Bool :=
  if !haltReqIn then s.validInInternal && s.memDataValid else false

def readyIn (s : St) (haltReqIn readyOut : Bool) : Bool :=
  if !haltReqIn then !s.validInInternal || (validOut s haltReqIn && readyOut) else false

def out (s : St) : MemOut where
  regWrite := s.regWriteInInternal
  memToReg := s.memToRegInInternal
  aluRes := s.aluInInternal
  memVal := s.memDataInternal
  rd := s.rdInInternal
  pc := s.pcInInternal

def memReqOut (s : St) (memAckIn : Bool) : Bool := s.memRequest && !memAckIn

def memOut (s : St) : MemReq := LoadStoreUnit.request s.memOpTypeInInternal s.aluInInternal s.rs2InInternal

def next (s : St) (haltReqIn validIn readyOut : Bool) (i : ExOut) (memAckIn : Bool) (memDataIn : Word) : St :=
  let take := validIn && readyIn s haltReqIn readyOut
  let done := s.memRequest && memAckIn
  { validInInternal := if take then true else if validOut s haltReqIn && readyOut then false else s.validInInternal
    pcInInternal := if take then i.pc else s.pcInInternal
    aluInInternal := if take then i.alu else s.aluInInternal
    rs2InInternal := if take then i.rs2 else s.rs2InInternal
    rdInInternal := if take then i.rd else s.rdInInternal
    regWriteInInternal := if take then i.regWrite else s.regWriteInInternal
    memToRegInInternal := if take then i.memToReg else s.memToRegInInternal
    -- the acknowledge is the later assignment of the block, so it wins
    memDataValid := if done then true else if take then !i.memOp else s.memDataValid
    memDataInternal :=
      if done then LoadStoreUnit.readData s.memOpTypeInInternal s.aluInInternal memDataIn else s.memDataInternal
    memRequest := if done then false else if take then i.memOp else s.memRequest
    memOpTypeInInternal := if take then i.memOpType else s.memOpTypeInInternal }

end MemStage

/-! ## WriteBackStage -/

namespace WriteBackStage

structure St where
  validInInternal : Bool
  regWriteInInternal : Bool
  memToRegInInternal : Bool
  aluResInInternal : Word
  memValInInternal : Word
  rdInInternal : BitVec 5
  pcInInternal : Word
deriving DecidableEq, Repr

def reset (s : St) : St := { s with validInInternal := false }

def readyIn : Bool := true

def regWriteOut (s : St) : Bool := if s.validInInternal then s.regWriteInInternal else false

def rdOut (s : St) : BitVec 5 := if s.validInInternal then s.rdInInternal else 0

def resOut (s : St) : Word :=
  if s.validInInternal then (if s.memToRegInInternal then s.memValInInternal else s.aluResInInternal) else 0

def next (s : St) (validIn : Bool) (i : MemOut) : St :=
  if validIn then ⟨true, i.regWrite, i.memToReg, i.aluRes, i.memVal, i.rd, i.pc⟩
  else { s with validInInternal := false }

end WriteBackStage

end FpgaLearning.ArxCore
