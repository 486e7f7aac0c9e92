/-
The one-instruction-at-a-time machine that the pipeline is compared with.

One step decodes the word at pc, reads its registers from the current register file, applies the core's own ALU, MDU,
branch and load-store functions, updates registers and memory, and only then moves to the next pc. `commit` and `access`
are the register write and the memory access of one step; `commits n` and `accesses n` those of the first `n` steps.

An instruction with its operands is an `IdOut`, the record the decode stage issues; everything the later stages compute
is a function of it (`aluRes`, `taken`, `target`, `memReq`, `wbVal`).
-/
import FpgaLearning.ArxCore.Core

namespace FpgaLearning.ArxCore

open FpgaLearning.Memory

/-! ## What one instruction computes -/

namespace IdOut

def aluRes (i : IdOut) : Word :=
  if i.d.aluEn then IALU.mRes i.d.aluOp (ExecStage.ialuArg1 i) (ExecStage.ialuArg2 i)
  else IMDU.value i.d.mduOp (ExecStage.ialuArg1 i) (ExecStage.ialuArg2 i)

def branchEn (i : IdOut) : Bool := IALU.mBranchEn i.d.aluOp (ExecStage.ialuArg1 i) (ExecStage.ialuArg2 i)

def taken (i : IdOut) : Bool := i.d.aluEn && i.branchEn || i.d.pcJumpEn

def target (i : IdOut) : Word :=
  (match i.d.pcAddrType with
    | .regImm => i.rs1
    | .pcImm => i.pc) + i.d.imm

def nextPc (i : IdOut) : Word := if i.taken then i.target else i.pc + 4

def memReq (i : IdOut) : MemReq := LoadStoreUnit.request i.d.memOpType i.aluRes i.rs2

/-- the value a memory operation reads from the word on the bus -/
def memVal (i : IdOut) (data : Word) : Word := LoadStoreUnit.readData i.d.memOpType i.aluRes data

/-- a store reads nothing from the bus -/
theorem memVal_store {i : IdOut} (h : i.memReq.we = true) (data data' : Word) : i.memVal data = i.memVal data' := by
  have hwe : LoadStoreUnit.writeEn i.d.memOpType = true := h
  cases ht : i.d.memOpType <;> simp_all [memVal, LoadStoreUnit.readData, LoadStoreUnit.writeEn]

def wbVal (i : IdOut) (data : Word) : Word := if i.d.memToReg then i.memVal data else i.aluRes

end IdOut

/-! ## The machine -/

structure SeqSt (σ : Type*) where
  pc : Word
  regs : BitVec 5 → Word
  dev : σ

namespace Sequential

variable {σ : Type*} (imem : Word → Word) (D : Device σ)

def init (d : σ) : SeqSt σ := ⟨0, fun _ => 0, d⟩

/-- the word at pc, decoded, with its operands -/
def insn (q : SeqSt σ) : IdOut where
  d := decode (imem q.pc)
  rs1 := q.regs (InsnDecoder.rs1 (imem q.pc))
  rs2 := q.regs (InsnDecoder.rs2 (imem q.pc))
  rd := InsnDecoder.rd (imem q.pc)
  pc := q.pc

/-- the word the data device answers with -/
def busData (q : SeqSt σ) : Word := (D.serve q.dev (insn imem q).memReq).2

def step (q : SeqSt σ) : SeqSt σ where
  pc := (insn imem q).nextPc
  regs := RegisterFile.write q.regs (insn imem q).rd (insn imem q).d.regWrite ((insn imem q).wbVal (busData imem D q))
  dev := if (insn imem q).d.memOp then (D.serve q.dev (insn imem q).memReq).1 else q.dev

def commit (q : SeqSt σ) : List Commit :=
  if (insn imem q).d.regWrite then [((insn imem q).rd, (insn imem q).wbVal (busData imem D q))] else []

def access (q : SeqSt σ) : List Access :=
  if (insn imem q).d.memOp then [(insn imem q).memReq.access (busData imem D q)] else []

/-- the state before step `n` -/
def state (d : σ) : ℕ → SeqSt σ
  | 0 => init d
  | n + 1 => step imem D (state d n)

/-- the register writes of the first `n` steps -/
def commits (d : σ) : ℕ → List Commit
  | 0 => []
  | n + 1 => commits d n ++ commit imem D (state imem D d n)

/-- the memory accesses of the first `n` steps -/
def accesses (d : σ) : ℕ → List Access
  | 0 => []
  | n + 1 => accesses d n ++ access imem D (state imem D d n)

theorem commits_prefix (d : σ) {n m : ℕ} (h : n ≤ m) : commits imem D d n <+: commits imem D d m := by
  induction h with
  | refl => exact List.prefix_refl _
  | step _ ih => exact ih.trans (List.prefix_append _ _)

theorem accesses_prefix (d : σ) {n m : ℕ} (h : n ≤ m) : accesses imem D d n <+: accesses imem D d m := by
  induction h with
  | refl => exact List.prefix_refl _
  | step _ ih => exact ih.trans (List.prefix_append _ _)

/-- an instruction that does not write `r` leaves it alone -/
theorem step_regs_of_ne (q : SeqSt σ) (r : BitVec 5)
    (h : ¬ ((insn imem q).d.regWrite = true ∧ (insn imem q).rd = r)) : (step imem D q).regs r = q.regs r := by
  simp only [step, RegisterFile.write]
  split_ifs with hw
  · have hne : r ≠ (insn imem q).rd := fun he => h ⟨by simp_all, he.symm⟩
    rw [Function.update_of_ne hne]
  · rfl

/-- an instruction without memory operation leaves the device alone -/
theorem step_dev_of_not_memOp (q : SeqSt σ) (h : (insn imem q).d.memOp = false) : (step imem D q).dev = q.dev := by
  simp [step, h]

end Sequential

end FpgaLearning.ArxCore
