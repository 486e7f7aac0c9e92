/-
The functional units of ArxCore: `IALU.sv`, `IMUL.sv`, `IDIV.sv`, `IMDU.sv` and `LoadStoreUnit.sv`.

Each clocked unit is a register state with its combinational outputs and a `next` function; `reset` assigns the registers
the source's reset branch assigns and no others. The combinational result functions (`IALU.mRes`, `IMUL.mulResult`,
`IDIV.value`, `LoadStoreUnit.readData`) are shared with the sequential machine of `Sequential.lean`.

The divider is a loop over clock cycles. `IDIV.value` is what it puts on `res_out`: the sign-corrected result after 32
busy steps from the loaded registers. `IDIV.Holds` is the loop state of a division in progress or finished, and
`next_holds` the step lemma.
-/
import FpgaLearning.ArxCore.Decoder

namespace FpgaLearning.ArxCore

open FpgaLearning.Memory

/-! ## IALU -/

namespace IALU

def isOpSigned : AluOp → Bool
  | .ltu | .geu | .sltu => false
  | _ => true

/-- `{ carry_out, sumsub_res }`: a 33-bit sum or difference -/
def sumsub (op : AluOp) (a b : Word) : BitVec 33 :=
  if op = .add then a.setWidth 33 + b.setWidth 33 else a.setWidth 33 - b.setWidth 33

theorem sumsub_add (a b : Word) : (sumsub .add a b).setWidth 32 = a + b := by
  simp [sumsub, BitVec.setWidth_add]

theorem sumsub_sub (a b : Word) : (sumsub .sub a b).setWidth 32 = a - b := by
  apply BitVec.eq_of_toNat_eq
  simp [sumsub, BitVec.toNat_sub]
  omega

def bitopRes (op : AluOp) (a b : Word) : Word :=
  match op with
  | .and => a &&& b
  | .or => a ||| b
  | _ => a ^^^ b

def shiftRes (op : AluOp) (a b : Word) : Word :=
  let shift := (b.extractLsb' 0 5).toNat
  match op with
  | .sll => a <<< shift
  | .srl => a >>> shift
  | _ => a.sshiftRight shift

def neqRes (op : AluOp) (a b : Word) : Bool := bitopRes op a b != 0

def ltRes (op : AluOp) (a b : Word) : Bool :=
  if a.msb == b.msb then (sumsub op a b).getLsbD 32 else a.msb == isOpSigned op

def mRes (op : AluOp) (a b : Word) : Word :=
  match op with
  | .add | .sub => (sumsub op a b).setWidth 32
  | .and | .xor | .or => bitopRes op a b
  | .sll | .srl | .sra => shiftRes op a b
  | .sltu | .slt => (BitVec.ofBool (ltRes op a b)).setWidth 32
  | _ => b

def mBranchEn (op : AluOp) (a b : Word) : Bool :=
  match op with
  | .eq => !neqRes op a b
  | .neq => neqRes op a b
  | .ltu | .lt => ltRes op a b
  | .geu | .ge => !ltRes op a b
  | _ => false

structure St where
  validOut : Bool
  res : Word
  branchEn : Bool
deriving DecidableEq, Repr

def reset (_ : St) : St := ⟨false, 0, false⟩

def readyIn (s : St) (readyOut : Bool) : Bool := !s.validOut || readyOut

def next (s : St) (validIn readyOut : Bool) (op : AluOp) (a b : Word) : St :=
  if validIn && readyIn s readyOut then ⟨true, mRes op a b, mBranchEn op a b⟩
  else if s.validOut && readyOut then { s with validOut := false, branchEn := false }
  else s

end IALU

/-! ## IMUL -/

namespace IMUL

def msbArg1 (op : MduOp) (a : Word) : Bool :=
  match op with
  | .mul | .mulh | .mulhsu => a.msb
  | _ => false

def msbArg2 (op : MduOp) (b : Word) : Bool :=
  match op with
  | .mul | .mulh => b.msb
  | _ => false

/-- the 66-bit signed product of the 33-bit operands `{ msb, arg }` -/
def mulResultWide (op : MduOp) (a b : Word) : BitVec 66 :=
  (BitVec.ofBool (msbArg1 op a) ++ a).signExtend 66 * (BitVec.ofBool (msbArg2 op b) ++ b).signExtend 66

def mulResult (op : MduOp) (a b : Word) : Word :=
  match op with
  | .mulh | .mulhu | .mulhsu => (mulResultWide op a b).extractLsb' 32 32
  | _ => (mulResultWide op a b).extractLsb' 0 32

structure St where
  validOut : Bool
  resOut : Word
deriving DecidableEq, Repr

def reset (_ : St) : St := ⟨false, 0⟩

def readyIn (s : St) (readyOut : Bool) : Bool := !s.validOut || readyOut

def next (s : St) (validIn readyOut : Bool) (op : MduOp) (a b : Word) : St :=
  if validIn && readyIn s readyOut then ⟨true, mulResult op a b⟩
  else if s.validOut && readyOut then { s with validOut := false }
  else s

end IMUL

/-! ## IDIV -/

namespace IDIV

/-- the working registers of a division -/
structure Work where
  quotient : Word
  dividendWide : BitVec 64
  divisorWide : BitVec 64
  signResReg : Bool
  isResQuotientReg : Bool
deriving DecidableEq, Repr

def signArg (op : MduOp) (a : Word) : Bool :=
  match op with
  | .div | .rem => a.msb
  | _ => false

def signRes (op : MduOp) (a b : Word) : Bool :=
  match op with
  | .div => a.msb ^^ b.msb
  | .rem => a.msb
  | _ => false

def isResQuotient : MduOp → Bool
  | .div | .divu => true
  | _ => false

def absArg (op : MduOp) (a : Word) : Word := if signArg op a then -a else a

/-- the registers loaded when a division is accepted -/
def load (op : MduOp) (a b : Word) : Work where
  quotient := 0
  dividendWide := 0#32 ++ absArg op a
  divisorWide := 0#1 ++ absArg op b ++ 0#31
  signResReg := signRes op a b
  isResQuotientReg := isResQuotient op

def diffWide (w : Work) : BitVec 64 := w.dividendWide - w.divisorWide

/-- one busy cycle -/
def busyStep (w : Work) : Work :=
  if (diffWide w).getLsbD 63 then
    { w with divisorWide := w.divisorWide >>> 1, quotient := w.quotient.extractLsb' 0 31 ++ 0#1 }
  else
    { w with divisorWide := w.divisorWide >>> 1, dividendWide := diffWide w,
             quotient := w.quotient.extractLsb' 0 31 ++ 1#1 }

def absResult (w : Work) : Word := if w.isResQuotientReg then w.quotient else w.dividendWide.extractLsb' 0 32

def result (w : Work) : Word := if w.signResReg then -absResult w else absResult w

structure St where
  cnt : BitVec 6
  work : Work
  validOut : Bool
  resOut : Word
deriving DecidableEq, Repr

def reset (s : St) : St := { s with cnt := 0, validOut := false, resOut := 0 }

def busy (s : St) : Bool := s.cnt != 0

def readyIn (s : St) (readyOut : Bool) : Bool := !busy s && (!s.validOut || readyOut)

def next (s : St) (validIn readyOut : Bool) (op : MduOp) (a b : Word) : St :=
  let s1 :=
    if validIn && readyIn s readyOut then { s with cnt := 33, work := load op a b, validOut := false }
    else if s.validOut && readyOut then { s with validOut := false }
    else s
  if busy s then
    { s1 with cnt := s.cnt - 1, work := busyStep s.work,
              validOut := if s.cnt = 1 then true else s1.validOut,
              resOut := if s.cnt = 1 then result s.work else s1.resOut }
  else s1

/-- what the divider answers: the result after 32 busy steps -/
def value (op : MduOp) (a b : Word) : Word := result (busyStep^[32] (load op a b))

/-- a division of `a` by `b` is in progress, or its result is on the output -/
def Holds (s : St) (op : MduOp) (a b : Word) : Prop :=
  (s.cnt ≠ 0 ∧ s.cnt.toNat ≤ 33 ∧ s.validOut = false ∧ s.work = busyStep^[33 - s.cnt.toNat] (load op a b)) ∨
  (s.cnt = 0 ∧ s.validOut = true ∧ s.resOut = value op a b)

/-- no division in progress and no result waiting -/
def Idle (s : St) : Prop := s.cnt = 0 ∧ s.validOut = false

theorem next_load {s : St} {op : MduOp} {a b : Word} {readyOut : Bool} (h : readyIn s readyOut = true) :
    Holds (next s true readyOut op a b) op a b := by
  have hb : busy s = false := by
    simp only [readyIn, Bool.and_eq_true, Bool.not_eq_true'] at h; exact h.1
  left
  simp [next, h, hb]

/-- **Divider step.** Without a new operation, a held division stays held unless its result is taken. -/
theorem next_holds {s : St} {op : MduOp} {a b : Word} (h : Holds s op a b) (readyOut : Bool) (op' : MduOp)
    (a' b' : Word) (hout : s.validOut = true → readyOut = false) :
    Holds (next s false readyOut op' a' b') op a b := by
  rcases h with ⟨hc, hle, hv, hw⟩ | ⟨hc, hv, hr⟩
  · have hb : busy s = true := by simpa [busy] using hc
    have hpos : 0 < s.cnt.toNat := by
      rcases Nat.eq_zero_or_pos s.cnt.toNat with h0 | h0
      · exact absurd (BitVec.eq_of_toNat_eq (by simpa using h0)) hc
      · exact h0
    by_cases h1 : s.cnt = 1
    · right
      have hlast : 33 - (1 : BitVec 6).toNat = 32 := rfl
      have hwork : s.work = busyStep^[32] (load op a b) := by rw [hw, h1, hlast]
      have hres : (next s false readyOut op' a' b').resOut = result s.work := by simp [next, hb, h1]
      exact ⟨by simp [next, hb, h1], by simp [next, hb, h1], hres.trans (congrArg result hwork)⟩
    · left
      have hsub : (s.cnt - 1).toNat = s.cnt.toNat - 1 := by
        rw [BitVec.toNat_sub_of_le]
        · rfl
        · exact BitVec.le_def.2 hpos
      have hne : s.cnt.toNat ≠ 1 := fun h => h1 (BitVec.eq_of_toNat_eq (by simpa using h))
      have hne0 : s.cnt - 1 ≠ 0 := by
        intro h
        have := congrArg BitVec.toNat h
        rw [hsub] at this; simp at this; omega
      simp only [next, hb, hv, Bool.false_and, Bool.false_eq_true, ite_false, ite_true, h1]
      refine ⟨hne0, by omega, trivial, ?_⟩
      rw [hsub, show 33 - (s.cnt.toNat - 1) = (33 - s.cnt.toNat) + 1 by omega, Function.iterate_succ_apply', hw]
  · right
    have hb : busy s = false := by simp [busy, hc]
    simp [next, hb, hv, hout hv, hc, hr]

end IDIV

/-! ## IMDU -/

namespace IMDU

def mulOp : MduOp → Bool
  | .mul | .mulh | .mulhu | .mulhsu => true
  | _ => false

structure St where
  mul : IMUL.St
  div : IDIV.St
deriving DecidableEq, Repr

def reset (s : St) : St := ⟨IMUL.reset s.mul, IDIV.reset s.div⟩

def readyIn (s : St) (readyOut : Bool) : Bool := IMUL.readyIn s.mul readyOut && IDIV.readyIn s.div readyOut

def validOut (s : St) : Bool := s.mul.validOut || s.div.validOut

def resOut (s : St) : Word :=
  if s.mul.validOut then s.mul.resOut else if s.div.validOut then s.div.resOut else 0

def next (s : St) (validIn readyOut : Bool) (op : MduOp) (a b : Word) : St where
  mul := IMUL.next s.mul (validIn && readyIn s readyOut && mulOp op) readyOut op a b
  div := IDIV.next s.div (validIn && readyIn s readyOut && !mulOp op) readyOut op a b

/-- what the unit answers for one operation -/
def value (op : MduOp) (a b : Word) : Word := if mulOp op then IMUL.mulResult op a b else IDIV.value op a b

end IMDU

/-! ## LoadStoreUnit -/

namespace LoadStoreUnit

def memAddr (cpuAddr : Word) : Word := cpuAddr.extractLsb' 2 30 ++ 0#2

def writeEn : LsType → Bool
  | .storeByte | .storeHalfword | .storeWord => true
  | _ => false

def writeData (t : LsType) (d : Word) : Word :=
  match t with
  | .storeWord => d
  | .storeHalfword => d.extractLsb' 0 16 ++ d.extractLsb' 0 16
  | .storeByte => d.extractLsb' 0 8 ++ d.extractLsb' 0 8 ++ d.extractLsb' 0 8 ++ d.extractLsb' 0 8
  | _ => 0

def writeMask (t : LsType) (cpuAddr : Word) : BitVec 4 :=
  match t with
  | .storeWord => 0b1111
  | .storeHalfword => if cpuAddr.getLsbD 1 then 0b1100 else 0b0011
  | .storeByte =>
    if laneIndex cpuAddr = 0 then 0b0001
    else if laneIndex cpuAddr = 1 then 0b0010
    else if laneIndex cpuAddr = 2 then 0b0100
    else 0b1000
  | _ => 0

/-- the half word a half-word access selects -/
def halfOf (cpuAddr memData : Word) : BitVec 16 :=
  if cpuAddr.getLsbD 1 then memData.extractLsb' 16 16 else memData.extractLsb' 0 16

/-- the byte a byte access selects -/
def byteOf (cpuAddr memData : Word) : Byte :=
  if laneIndex cpuAddr = 0 then memData.extractLsb' 0 8
  else if laneIndex cpuAddr = 1 then memData.extractLsb' 8 8
  else if laneIndex cpuAddr = 2 then memData.extractLsb' 16 8
  else memData.extractLsb' 24 8

def readData (t : LsType) (cpuAddr memData : Word) : Word :=
  match t with
  | .loadWord => memData
  | .loadHalfwordUnsigned => (halfOf cpuAddr memData).setWidth 32
  | .loadByteUnsigned => (byteOf cpuAddr memData).setWidth 32
  | .loadHalfword => (halfOf cpuAddr memData).signExtend 32
  | .loadByte => (byteOf cpuAddr memData).signExtend 32
  | _ => 0

/-- the request a load or store drives on the memory port -/
def request (t : LsType) (cpuAddr writeData' : Word) : MemReq where
  addr := memAddr cpuAddr
  wdata := writeData t writeData'
  we := writeEn t
  mask := writeMask t cpuAddr

end LoadStoreUnit

end FpgaLearning.ArxCore
