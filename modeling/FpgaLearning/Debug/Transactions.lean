/-
What a request of the debug protocol has to do.

`Transaction.Ok` says it of one finished transaction: the status and the id of the reply, the reset pulse, and for both
memory ports what a read returns, what a write stores, and that every other request leaves the port alone. A read of no
byte at all is the exception to the length of its reply: the length is then that of the port's read before.
-/
import FpgaLearning.Debug.System

namespace FpgaLearning.Debug

open FpgaLearning.Memory DebugModule

/-! ## Requests -/

def Target.cmdRead : Target → Byte
  | .prog => cmdReadProg
  | .data => cmdReadData

def Target.cmdWrite : Target → Byte
  | .prog => cmdWriteProg
  | .data => cmdWriteData

/-- the served request that stores the byte `v` at the byte address `a` -/
def storeByte (a : Word) (v : Byte) : Access :=
  .store (ByteToWordAddrConverter.wordAddr a) (ByteToWordAddrConverter.writeDataExtended a v)
    (ByteToWordAddrConverter.writeDataMask a)

namespace Packet

variable (p : Packet)

/-- a read of memory `t` with its address and count -/
def Reads (t : Target) : Prop := p.cmd = t.cmdRead ∧ 5 ≤ p.payload.length

/-- a write to memory `t` with its address -/
def Writes (t : Target) : Prop := p.cmd = t.cmdWrite ∧ 4 ≤ p.payload.length

instance (t : Target) : Decidable (p.Reads t) := inferInstanceAs (Decidable (_ ∧ _))

instance (t : Target) : Decidable (p.Writes t) := inferInstanceAs (Decidable (_ ∧ _))

/-- the status that the protocol promises -/
def status : Byte :=
  if p.cmd = cmdReadProg ∨ p.cmd = cmdReadData then if 5 ≤ p.payload.length then 0x00 else 0xFE
  else if p.cmd = cmdWriteProg ∨ p.cmd = cmdWriteData then if 4 ≤ p.payload.length then 0x00 else 0xFE
  else if p.cmd.toNat ≤ 7 then 0x00 else 0xFD

/-- the address, most significant byte first -/
def addr : Word := p.byte 0 ++ p.byte 1 ++ p.byte 2 ++ p.byte 3

/-- the address of byte `i` of a read or a write -/
def addrOf (i : ℕ) : Word := p.addr + BitVec.ofNat 32 i

def count : Byte := p.byte 4

/-- byte `i` of a write -/
def dataByte (i : ℕ) : Byte := p.byte (i + 4)

/-- the request on the memory port that stores byte `i` -/
def storeOf (i : ℕ) : Access := storeByte (p.addrOf i) (p.dataByte i)

/-- `m` is `m₀` with the first `k` bytes of the write stored -/
structure Stored (m₀ m : WordMem) (k : ℕ) : Prop where
  written : ∀ i < k, byteAt m (p.addrOf i) = p.dataByte i
  kept : ∀ x, (∀ i < k, x ≠ p.addrOf i) → byteAt m x = byteAt m₀ x

/-- the bytes of memory that a read asks for -/
def requested (m : WordMem) : List Byte := (List.range p.count.toNat).map fun i => byteAt m (p.addrOf i)

end Packet

/-! ## Transactions -/

def IsLoad : Access → Prop
  | .load .. => True
  | .store .. => False

namespace Transaction

structure Ok (x : Transaction) : Prop where
  reply : ∃ len payload, x.reply = x.request.status :: x.request.id :: len :: payload ∧ payload.length = len.toNat
  reset : (x.resetLow, x.resetFalls) =
    if x.request.cmd = cmdReset then (ResetController.resetTicks, 1) else (0, 0)
  read : ∀ t, x.request.Reads t → x.after t = x.before t ∧ (∀ a ∈ x.accesses t, IsLoad a) ∧
    if x.request.count = 0#8 then x.reply[2]? = some (x.readLen t)
    else x.reply = statusOk :: x.request.id :: x.request.count :: x.request.requested (x.before t)
  write : ∀ t, x.request.Writes t → x.request.Stored (x.before t) (x.after t) (x.request.payload.length - 4) ∧
    x.accesses t = (List.range (x.request.payload.length - 4)).map x.request.storeOf
  quiet : ∀ t, ¬ x.request.Reads t → ¬ x.request.Writes t → x.after t = x.before t ∧ x.accesses t = []

end Transaction

/-! ## Dispatching -/

/-- a packet is dispatched to a state that executes it -/
theorem dispatch_ne (cmd len : Byte) : dispatch cmd len ≠ .waitInput ∧ dispatch cmd len ≠ .waitTimeout ∧
    dispatch cmd len ≠ .waitSend := by
  unfold dispatch
  split_ifs <;> simp

namespace Packet

theorem le_len (p : Packet) {n : ℕ} (hn : n < 256) : BitVec.ofNat 8 n ≤ p.len ↔ n ≤ p.payload.length := by
  rw [BitVec.le_def, p.toNat_len, BitVec.toNat_ofNat, Nat.mod_eq_of_lt hn]

variable {p : Packet}

/-- a complete packet leads to a copy command exactly when it is one with its arguments -/
theorem dispatch_copy (t : Target) :
    (dispatch p.cmd p.len = .read t ↔ p.Reads t) ∧ (dispatch p.cmd p.len = .write t ↔ p.Writes t) := by
  have h5 : 5#8 ≤ p.len ↔ 5 ≤ p.payload.length := p.le_len (by decide)
  have h4 : 4#8 ≤ p.len ↔ 4 ≤ p.payload.length := p.le_len (by decide)
  unfold dispatch Reads Writes
  cases t <;> split_ifs <;> simp_all [Target.cmdRead, Target.cmdWrite, cmdHalt, cmdResume, cmdReadProg, cmdWriteProg,
    cmdReadData, cmdWriteData, cmdReset, cmdGetState]

/-- the commands that drive a wire to the core -/
theorem dispatch_wire : (dispatch p.cmd p.len = .halt ↔ p.cmd = cmdHalt) ∧
    (dispatch p.cmd p.len = .resume ↔ p.cmd = cmdResume) ∧ (dispatch p.cmd p.len = .reset ↔ p.cmd = cmdReset) := by
  unfold dispatch
  split_ifs <;> simp_all [cmdHalt, cmdResume, cmdReadProg, cmdWriteProg, cmdReadData, cmdWriteData, cmdReset]

/-- a dispatched packet is answered with its status -/
theorem outStatus_dispatch {s : DebugModule.St} (h : s.curState = dispatch p.cmd p.len) :
    outStatus s = some p.status ∧ outId s = some s.parser.resId := by
  have h5 : 5#8 ≤ p.len ↔ 5 ≤ p.payload.length := p.le_len (by decide)
  have h4 : 4#8 ≤ p.len ↔ 4 ≤ p.payload.length := p.le_len (by decide)
  have hcmd : ∀ c : Byte, c.toNat ≤ 7 ↔ c ∈ [cmdHalt, cmdResume, cmdReadProg, cmdWriteProg, cmdReadData, cmdWriteData,
    cmdReset, cmdGetState] := by decide
  unfold outStatus outId status
  rw [h]
  unfold dispatch
  simp only [hcmd, ← h5, ← h4]
  clear h5 h4 hcmd h
  split_ifs <;> simp_all [cmdHalt, cmdResume, cmdReadProg, cmdWriteProg, cmdReadData, cmdWriteData, cmdReset,
    cmdGetState, statusOk, statusErrorArgs, statusErrorCmd]

end Packet

end FpgaLearning.Debug
