/-
Step lemmas of the single stages, each over arbitrary inputs.

For every stage: what it means that the stage holds a given instruction (`Holds`) or nothing (`Empty`), what its outputs
are then, and what one clock edge does to it: accept, keep, drain. The rest of the development cites these lemmas and
does not unfold a stage again.

- Decode: the scoreboard goes up with an issued writer and down with a retired one.
- Execute: at most one unit is occupied, it is the unit of the held instruction, and only a finished result makes room.
- Memory: a held operation is either waiting for its acknowledge or done with the value it loaded.
- Write back: the held value is the one the instruction writes.
- Fetch: the word on offer is the instruction at pc, and `fetchTarget`, the address of the next word to deliver, moves
  by 4 at a handshake and to the redirect at a redirect.
-/
import FpgaLearning.ArxCore.Sequential

namespace FpgaLearning.ArxCore

open FpgaLearning.Memory

/-! ## Decode stage -/

namespace InsnDecodeStage

/-- **Scoreboard step.** The count of `r` goes down with a retired writer of `r` and up with an issued one. -/
theorem nextUsedReg_toNat (used : BitVec 5 → BitVec 2) (rdIn : BitVec 5) (we : Bool) (rdOut : BitVec 5) (issue : Bool)
    (r : BitVec 5) (hretire : we = true ∧ rdIn = r → 0 < (used r).toNat)
    (hroom : issue = true ∧ rdOut = r → ¬ (we = true ∧ rdIn = r) → (used r).toNat < 3) :
    (nextUsedReg used rdIn we rdOut issue r).toNat + (if we = true ∧ rdIn = r then 1 else 0) =
      (used r).toNat + (if issue = true ∧ rdOut = r then 1 else 0) := by
  have hdec : 0 < (used r).toNat → (used r - 1).toNat + 1 = (used r).toNat := by
    intro h
    have := (used r).isLt
    rw [BitVec.toNat_sub]; simp; omega
  have hinc : (used r).toNat < 3 → (used r + 1).toNat = (used r).toNat + 1 := by
    intro h
    rw [BitVec.toNat_add]; simp; omega
  by_cases hi : rdIn = r
  · subst hi
    by_cases ho : rdOut = rdIn
    · subst ho
      cases we <;> cases issue <;> simp_all [nextUsedReg]
    · have ho' : rdIn ≠ rdOut := fun h => ho h.symm
      cases we <;> cases issue <;> simp_all [nextUsedReg]
  · have hi' : r ≠ rdIn := fun h => hi h.symm
    by_cases ho : rdOut = r
    · subst ho
      cases we <;> cases issue <;> simp_all [nextUsedReg]
    · have ho' : r ≠ rdOut := fun h => ho h.symm
      cases we <;> cases issue <;> by_cases hr : rdIn = rdOut <;> simp_all [nextUsedReg]

end InsnDecodeStage

/-! ## Execute stage -/

namespace ExecStage

/-- no unit holds an operation -/
structure Empty (x : St) : Prop where
  alu : x.ialu.validOut = false
  mul : x.imdu.mul.validOut = false
  div : IDIV.Idle x.imdu.div

/-- the stage registers are those latched from `i` -/
structure Latched (x : St) (i : IdOut) : Prop where
  rs1 : x.mRs1In = i.rs1
  rs2 : x.mRs2In = i.rs2
  imm : x.mImmIn = i.d.imm
  rd : x.mRdIn = i.rd
  pc : x.mPcIn = i.pc
  branchType : x.mPcBranchType = i.d.pcAddrType
  regWrite : x.mRegWriteIn = i.d.regWrite
  memToReg : x.mMemToRegIn = i.d.memToReg
  memOp : x.mMemOp = i.d.memOp
  memOpType : x.mMemOpType = i.d.memOpType
  jumpEn : x.mPcJumpEnIn = i.d.pcJumpEn
  aluEn : x.mAluEnIn = i.d.aluEn
  mduEn : x.mMduEnIn = i.d.mduEn

/-- exactly the unit of `i` is occupied, with the operands of `i` -/
inductive UnitHolds (x : St) (i : IdOut) : Prop
  | alu (he : i.d.aluEn = true) (ha : x.ialu = ⟨true, i.aluRes, i.branchEn⟩) (hm : x.imdu.mul.validOut = false)
      (hd : IDIV.Idle x.imdu.div)
  | mul (he : i.d.aluEn = false) (ho : IMDU.mulOp i.d.mduOp = true) (ha : x.ialu.validOut = false)
      (hm : x.imdu.mul = ⟨true, i.aluRes⟩) (hd : IDIV.Idle x.imdu.div)
  | div (he : i.d.aluEn = false) (ho : IMDU.mulOp i.d.mduOp = false) (ha : x.ialu.validOut = false)
      (hm : x.imdu.mul.validOut = false)
      (hd : IDIV.Holds x.imdu.div i.d.mduOp (ialuArg1 i) (ialuArg2 i))

structure Holds (x : St) (i : IdOut) : Prop where
  latched : Latched x i
  unit : UnitHolds x i
  one : i.d.mduEn = !i.d.aluEn

/-- the unit of the held instruction has its result -/
def done (x : St) : Bool := x.ialu.validOut || x.imdu.mul.validOut || x.imdu.div.validOut

variable {x : St} {i : IdOut}

theorem Holds.validOut (h : Holds x i) (halt : Bool) : validOut x halt = (!halt && done x) := by
  obtain ⟨l, u, o⟩ := h
  cases halt
  · cases u with
    | alu he ha hm hd => simp [ExecStage.validOut, done, IMDU.validOut, l.aluEn, he, ha, hm, hd.2]
    | mul he ho ha hm hd => simp [ExecStage.validOut, done, IMDU.validOut, l.aluEn, l.mduEn, he, ha, hm, hd.2, o]
    | div he ho ha hm hd => simp [ExecStage.validOut, done, IMDU.validOut, l.aluEn, l.mduEn, he, ha, hm, o]
  · simp [ExecStage.validOut]

theorem Empty.validOut (h : Empty x) (halt : Bool) : validOut x halt = false := by
  simp [ExecStage.validOut, IMDU.validOut, h.alu, h.mul, h.div.2]

theorem Holds.readyIn (h : Holds x i) (halt r : Bool) : readyIn x halt r = (!halt && done x && r) := by
  obtain ⟨-, u, -⟩ := h
  cases halt
  · cases u with
    | alu he ha hm hd =>
      simp [ExecStage.readyIn, done, IMDU.readyIn, IALU.readyIn, IMUL.readyIn, IDIV.readyIn, IDIV.busy, ha, hm, hd.1,
        hd.2]
    | mul he ho ha hm hd =>
      simp [ExecStage.readyIn, done, IMDU.readyIn, IALU.readyIn, IMUL.readyIn, IDIV.readyIn, IDIV.busy, ha, hm, hd.1,
        hd.2]
    | div he ho ha hm hd =>
      rcases hd with ⟨hc, -, hv, -⟩ | ⟨hc, hv, -⟩
      · have hb : IDIV.busy x.imdu.div = true := by simpa [IDIV.busy] using hc
        simp [ExecStage.readyIn, done, IMDU.readyIn, IDIV.readyIn, ha, hm, hb, hv]
      · simp [ExecStage.readyIn, done, IMDU.readyIn, IALU.readyIn, IMUL.readyIn, IDIV.readyIn, IDIV.busy, ha, hm, hc,
          hv]
  · simp [ExecStage.readyIn]

theorem Empty.readyIn (h : Empty x) (halt r : Bool) : readyIn x halt r = !halt := by
  cases halt
  · simp [ExecStage.readyIn, IMDU.readyIn, IALU.readyIn, IMUL.readyIn, IDIV.readyIn, IDIV.busy, h.alu, h.mul, h.div.1,
      h.div.2]
  · simp [ExecStage.readyIn]

/-- what the stage hands over for `i` -/
def exOut (i : IdOut) : ExOut where
  alu := i.aluRes
  rs2 := i.rs2
  rd := i.rd
  pc := i.pc
  regWrite := i.d.regWrite
  memToReg := i.d.memToReg
  memOp := i.d.memOp
  memOpType := i.d.memOpType

instance : Coe IdOut ExOut := ⟨exOut⟩

@[simp] theorem exOut_memOp (i : IdOut) : (exOut i).memOp = i.d.memOp := rfl

@[simp] theorem exOut_memReq (i : IdOut) : (exOut i).memReq = i.memReq := rfl

@[simp] theorem exOut_memVal (i : IdOut) (data : Word) : (exOut i).memVal data = i.memVal data := rfl

theorem Holds.out (h : Holds x i) (hd : done x = true) : out x = exOut i := by
  obtain ⟨l, u, o⟩ := h
  have halu : aluOut x = i.aluRes := by
    cases u with
    | alu he ha hm hd => simp [aluOut, l.aluEn, he, ha]
    | mul he ho ha hm hd => simp [aluOut, IMDU.resOut, l.aluEn, l.mduEn, o, he, hm]
    | div he ho ha hm hv =>
      rcases hv with ⟨-, -, hv, -⟩ | ⟨-, hv, hr⟩
      · simp [done, ha, hm, hv] at hd
      · simp [aluOut, IMDU.resOut, l.aluEn, l.mduEn, o, he, hm, hv, hr, IdOut.aluRes, IMDU.value, ho]
  simp [ExecStage.out, exOut, halu, l.rs2, l.rd, l.pc, l.regWrite, l.memToReg, l.memOp, l.memOpType]

theorem Holds.pcWeOut (h : Holds x i) (halt r : Bool) :
    pcWeOut x halt r = (i.taken && (!halt && done x && r)) := by
  rw [ExecStage.pcWeOut, h.validOut]
  obtain ⟨l, u, -⟩ := h
  cases u with
  | alu he ha hm hd => simp [IdOut.taken, l.aluEn, l.jumpEn, he, ha, Bool.and_assoc]
  | mul he ho ha hm hd => simp [IdOut.taken, l.aluEn, l.jumpEn, he, Bool.and_assoc]
  | div he ho ha hm hd => simp [IdOut.taken, l.aluEn, l.jumpEn, he, Bool.and_assoc]

theorem Empty.pcWeOut (h : Empty x) (halt r : Bool) : pcWeOut x halt r = false := by
  simp [ExecStage.pcWeOut, h.validOut]

theorem Holds.pcBranchOut (h : Holds x i) : pcBranchOut x = i.target := by
  obtain ⟨l, -, -⟩ := h
  cases hb : i.d.pcAddrType <;>
    simp [ExecStage.pcBranchOut, IdOut.target, l.branchType, l.rs1, l.pc, l.imm, hb]

/-! One clock edge of the units, seen from the stage. -/

theorem ialu_drop {s : IALU.St} {op : AluOp} {a b : Word} {r : Bool} (h : s.validOut = true → r = true) :
    (IALU.next s false r op a b).validOut = false := by
  cases hv : s.validOut
  · simp [IALU.next, hv]
  · simp [IALU.next, hv, h hv]

theorem imul_drop {s : IMUL.St} {op : MduOp} {a b : Word} {r : Bool} (h : s.validOut = true → r = true) :
    (IMUL.next s false r op a b).validOut = false := by
  cases hv : s.validOut
  · simp [IMUL.next, hv]
  · simp [IMUL.next, hv, h hv]

theorem idiv_drop {s : IDIV.St} {op : MduOp} {a b : Word} {r : Bool} (hc : s.cnt = 0)
    (h : s.validOut = true → r = true) : IDIV.Idle (IDIV.next s false r op a b) := by
  have hb : IDIV.busy s = false := by simp [IDIV.busy, hc]
  cases hv : s.validOut
  · simp [IDIV.next, IDIV.Idle, hb, hv, hc]
  · simp [IDIV.next, IDIV.Idle, hb, hv, h hv, hc]

theorem ialu_keep {s : IALU.St} {op : AluOp} {a b : Word} {r : Bool} (h : s.validOut = true → r = false) :
    IALU.next s false r op a b = s := by
  cases hv : s.validOut
  · simp [IALU.next, hv]
  · simp [IALU.next, h hv]

theorem imul_keep {s : IMUL.St} {op : MduOp} {a b : Word} {r : Bool} (h : s.validOut = true → r = false) :
    IMUL.next s false r op a b = s := by
  cases hv : s.validOut
  · simp [IMUL.next, hv]
  · simp [IMUL.next, h hv]

/-- **Issue.** An accepted instruction is the one held afterwards, whatever the stage held before. -/
theorem next_issue (x : St) (i : IdOut) {halt r : Bool} (hr : ExecStage.readyIn x halt r = true)
    (o : i.d.mduEn = !i.d.aluEn) : Holds (next x halt true r i) i := by
  have hh : halt = false := by
    cases halt
    · rfl
    · simp [ExecStage.readyIn] at hr
  subst hh
  have hfire : (ExecStage.readyIn x false r && true) = true := by rw [hr]; rfl
  have hr' := hr
  simp only [ExecStage.readyIn, Bool.not_false, ite_true, Bool.and_eq_true, IMDU.readyIn] at hr'
  obtain ⟨ha, hm, hd⟩ := hr'
  have ha' : x.ialu.validOut = true → r = true := by
    intro hv; simpa [IALU.readyIn, hv] using ha
  have hm' : x.imdu.mul.validOut = true → r = true := by
    intro hv; simpa [IMUL.readyIn, hv] using hm
  obtain ⟨hc, hd'⟩ : x.imdu.div.cnt = 0 ∧ (x.imdu.div.validOut = true → r = true) := by
    simp only [IDIV.readyIn, IDIV.busy, Bool.and_eq_true, Bool.not_eq_true', bne_eq_false_iff_eq,
      Bool.or_eq_true] at hd
    exact ⟨hd.1, fun hv => by simpa [hv] using hd.2⟩
  refine ⟨?_, ?_, o⟩
  · constructor <;> simp [next, hr]
  · cases he : i.d.aluEn
    · have hme : i.d.mduEn = true := by rw [o, he]; rfl
      cases ho : IMDU.mulOp i.d.mduOp
      · refine .div he ho ?_ ?_ ?_
        · simpa [next, hr, he] using ialu_drop ha'
        · simpa [next, hr, hme, ho, IMDU.next] using imul_drop hm'
        · simpa [next, hr, hme, ho, IMDU.next, IMDU.readyIn, hm, hd] using IDIV.next_load hd
      · refine .mul he ho ?_ ?_ ?_
        · simpa [next, hr, he] using ialu_drop ha'
        · simp [next, hr, hme, ho, IMDU.next, IMDU.readyIn, hm, hd, IMUL.next, IdOut.aluRes, he, IMDU.value]
        · simpa [next, hr, hme, ho, IMDU.next] using idiv_drop hc hd'
    · have hme : i.d.mduEn = false := by rw [o, he]; rfl
      refine .alu he ?_ ?_ ?_
      · simp [next, hr, he, IALU.next, ha, IdOut.aluRes, IdOut.branchEn]
      · simpa [next, hr, hme, IMDU.next] using imul_drop hm'
      · simpa [next, hr, hme, IMDU.next] using idiv_drop hc hd'

theorem latched_next {halt v r : Bool} {j : IdOut} (h : Latched x i) (hf : (ExecStage.readyIn x halt r && v) = false) :
    Latched (next x halt v r j) i := by
  obtain ⟨h1, h2, h3, h4, h5, h6, h7, h8, h9, h10, h11, h12, h13⟩ := h
  constructor <;> simpa [next, hf]

/-- **Hold.** A result that is not taken stays, and a division in progress goes on. -/
theorem next_keep (h : Holds x i) {halt v r : Bool} (j : IdOut) (hk : (!halt && done x && r) = false) :
    Holds (next x halt v r j) i := by
  have hf : (ExecStage.readyIn x halt r && v) = false := by rw [h.readyIn, hk]; rfl
  refine ⟨latched_next h.latched hf, ?_, h.one⟩
  have hstay : done x = true → (!halt && r) = false := by
    intro hd; cases halt <;> simp_all
  cases h.unit with
  | alu he ha hm hd =>
    have hr : (!halt && r) = false := hstay (by simp [done, ha])
    refine .alu he ?_ ?_ ?_
    · simp only [next, hf, Bool.false_and]
      rw [ialu_keep fun _ => hr]; exact ha
    · simp only [next, hf, Bool.false_and, IMDU.next]
      rw [imul_keep fun _ => hr]; exact hm
    · simp only [next, hf, Bool.false_and, IMDU.next]
      exact idiv_drop hd.1 fun hv => by rw [hd.2] at hv; cases hv
  | mul he ho ha hm hd =>
    have hr : (!halt && r) = false := hstay (by simp [done, hm])
    refine .mul he ho ?_ ?_ ?_
    · simp only [next, hf, Bool.false_and]
      rw [ialu_keep fun _ => hr]; exact ha
    · simp only [next, hf, Bool.false_and, IMDU.next]
      rw [imul_keep fun _ => hr]; exact hm
    · simp only [next, hf, Bool.false_and, IMDU.next]
      exact idiv_drop hd.1 fun hv => by rw [hd.2] at hv; cases hv
  | div he ho ha hm hd =>
    refine .div he ho ?_ ?_ ?_
    · simp only [next, hf, Bool.false_and]
      exact ialu_drop fun hv => by rw [ha] at hv; cases hv
    · simp only [next, hf, Bool.false_and, IMDU.next]
      exact imul_drop fun hv => by rw [hm] at hv; cases hv
    · simp only [next, hf, Bool.false_and, IMDU.next]
      exact IDIV.next_holds hd _ _ _ _ fun hv => hstay (by simp [done, hv])

/-- **Drain.** A result that is taken, with nothing issued behind it, leaves the stage empty. -/
theorem next_drain (h : Holds x i) {halt r : Bool} (j : IdOut) (hk : (!halt && done x && r) = true) :
    Empty (next x halt false r j) := by
  simp only [Bool.and_eq_true, Bool.not_eq_true'] at hk
  obtain ⟨⟨rfl, hd⟩, rfl⟩ := hk
  have hc : x.imdu.div.cnt = 0 := by
    cases h.unit with
    | alu he ha hm hd => exact hd.1
    | mul he ho ha hm hd => exact hd.1
    | div he ho ha hm hv =>
      rcases hv with ⟨-, -, hv, -⟩ | ⟨hc, -⟩
      · simp [done, ha, hm, hv] at hd
      · exact hc
  refine ⟨?_, ?_, ?_⟩
  · simpa [next] using ialu_drop fun _ => rfl
  · simpa [next, IMDU.next] using imul_drop fun _ => rfl
  · simpa [next, IMDU.next] using idiv_drop hc fun _ => rfl

theorem next_empty (h : Empty x) {halt v r : Bool} (j : IdOut) (hf : (ExecStage.readyIn x halt r && v) = false) :
    Empty (next x halt v r j) := by
  refine ⟨?_, ?_, ?_⟩
  · simp only [next, hf, Bool.false_and]
    exact ialu_drop fun hv => by rw [h.alu] at hv; cases hv
  · simp only [next, hf, Bool.false_and, IMDU.next]
    exact imul_drop fun hv => by rw [h.mul] at hv; cases hv
  · simp only [next, hf, Bool.false_and, IMDU.next]
    exact idiv_drop h.div.1 fun hv => by rw [h.div.2] at hv; cases hv

end ExecStage

/-! ## Memory stage -/

namespace MemStage

structure Empty (m : St) : Prop where
  valid : m.validInInternal = false
  quiet : m.memRequest = false

structure Latched (m : St) (o : ExOut) : Prop where
  valid : m.validInInternal = true
  alu : m.aluInInternal = o.alu
  rs2 : m.rs2InInternal = o.rs2
  rd : m.rdInInternal = o.rd
  pc : m.pcInInternal = o.pc
  regWrite : m.regWriteInInternal = o.regWrite
  memToReg : m.memToRegInInternal = o.memToReg

/-- `o` needs no memory access any more; `data` is the word its access was answered with -/
structure Done (m : St) (o : ExOut) (data : Word) : Prop extends Latched m o where
  dataValid : m.memDataValid = true
  quiet : m.memRequest = false
  loaded : o.memOp = true → m.memDataInternal = o.memVal data

/-- the memory operation of `o` is not acknowledged yet -/
structure Waiting (m : St) (o : ExOut) : Prop extends Latched m o where
  memOp : o.memOp = true
  dataValid : m.memDataValid = false
  request : m.memRequest = true
  opType : m.memOpTypeInInternal = o.memOpType

variable {m : St} {o : ExOut} {data : Word}

theorem Empty.validOut (h : Empty m) (halt : Bool) : validOut m halt = false := by
  simp [MemStage.validOut, h.valid]

theorem Empty.readyIn (h : Empty m) (halt r : Bool) : readyIn m halt r = !halt := by
  cases halt <;> simp [MemStage.readyIn, h.valid]

theorem Done.validOut (h : Done m o data) (halt : Bool) : validOut m halt = !halt := by
  cases halt <;> simp [MemStage.validOut, h.valid, h.dataValid]

theorem Done.readyIn (h : Done m o data) (halt r : Bool) : readyIn m halt r = (!halt && r) := by
  cases halt <;> simp [MemStage.readyIn, h.valid, h.validOut]

theorem Waiting.validOut (h : Waiting m o) (halt : Bool) : validOut m halt = false := by
  simp [MemStage.validOut, h.dataValid]

theorem Waiting.readyIn (h : Waiting m o) (halt r : Bool) : readyIn m halt r = false := by
  simp [MemStage.readyIn, h.valid, h.validOut]

theorem Waiting.memOut (h : Waiting m o) : memOut m = o.memReq := by
  simp [MemStage.memOut, ExOut.memReq, h.opType, h.alu, h.rs2]

/-- **Accept.** A memory operation starts waiting, any other instruction is done at once. -/
theorem next_accept (o : ExOut) (data : Word) {halt r : Bool} (ack : Bool) (mdata : Word)
    (hr : readyIn m halt r = true) (hq : m.memRequest = false) :
    if o.memOp then Waiting (next m halt true r o ack mdata) o else Done (next m halt true r o ack mdata) o data := by
  have hl : Latched (next m halt true r o ack mdata) o := by
    constructor <;> simp [next, hr]
  cases hm : o.memOp
  · refine ⟨hl, ?_, ?_, fun h => by rw [hm] at h; cases h⟩ <;> simp [next, hr, hq, hm]
  · refine ⟨hl, hm, ?_, ?_, ?_⟩ <;> simp [next, hr, hq, hm]

theorem latched_next (h : Latched m o) {halt v r ack : Bool} (o' : ExOut) (mdata : Word)
    (ht : (v && readyIn m halt r) = false) (hs : (MemStage.validOut m halt && r) = false) :
    Latched (next m halt v r o' ack mdata) o := by
  obtain ⟨h1, h2, h3, h4, h5, h6, h7⟩ := h
  constructor <;> simpa [next, ht, hs]

/-- **Acknowledge.** -/
theorem next_ack (h : Waiting m o) (halt v r : Bool) (o' : ExOut) {bus : Word} (hbus : o.memVal bus = o.memVal data) :
    Done (next m halt v r o' true bus) o data := by
  have ht : (v && readyIn m halt r) = false := by rw [h.readyIn]; simp
  have hs : (MemStage.validOut m halt && r) = false := by rw [h.validOut]; rfl
  refine ⟨latched_next h.toLatched o' bus ht hs, ?_, ?_, fun _ => ?_⟩
  · simp [next, h.request]
  · simp [next, h.request]
  · rw [← hbus]
    simp [next, h.request, ExOut.memVal, h.opType, h.alu]

theorem next_waiting (h : Waiting m o) (halt v r : Bool) (o' : ExOut) (mdata : Word) :
    Waiting (next m halt v r o' false mdata) o := by
  have ht : (v && readyIn m halt r) = false := by rw [h.readyIn]; simp
  have hs : (MemStage.validOut m halt && r) = false := by rw [h.validOut]; rfl
  refine ⟨latched_next h.toLatched o' mdata ht hs, h.memOp, ?_, ?_, ?_⟩
  · simpa [next, ht] using h.dataValid
  · simpa [next, ht] using h.request
  · simpa [next, ht] using h.opType

theorem next_done (h : Done m o data) {halt v r ack : Bool} (o' : ExOut) (mdata : Word) (hk : (!halt && r) = false) :
    Done (next m halt v r o' ack mdata) o data := by
  have ht : (v && readyIn m halt r) = false := by rw [h.readyIn, hk]; simp
  have hs : (MemStage.validOut m halt && r) = false := by rw [h.validOut, hk]
  refine ⟨latched_next h.toLatched o' mdata ht hs, ?_, ?_, fun hm => ?_⟩
  · simpa [next, ht, h.quiet] using h.dataValid
  · simp [next, ht, h.quiet]
  · simpa [next, h.quiet] using h.loaded hm

theorem next_drain (h : Done m o data) {r ack : Bool} (o' : ExOut) (mdata : Word) (hr : r = true) :
    Empty (next m false false r o' ack mdata) := by
  subst hr
  constructor <;> simp [next, h.validOut, h.quiet]

theorem next_empty (h : Empty m) {halt v r ack : Bool} (o' : ExOut) (mdata : Word)
    (ht : (v && readyIn m halt r) = false) : Empty (next m halt v r o' ack mdata) := by
  constructor <;> simp [next, ht, h.valid, h.quiet]

end MemStage

/-! ## Write-back stage -/

namespace WriteBackStage

/-- the stage is about to commit `i`, whose memory access was answered with `data` -/
structure Holds (w : St) (i : IdOut) (data : Word) : Prop where
  valid : w.validInInternal = true
  regWrite : regWriteOut w = i.d.regWrite
  rd : rdOut w = i.rd
  res : resOut w = i.wbVal data

theorem next_accept (w : St) {m : MemStage.St} {i : IdOut} {data : Word} (h : MemStage.Done m i data)
    (hload : i.d.memToReg = true → i.d.memOp = true) : Holds (next w true (MemStage.out m)) i data := by
  refine ⟨rfl, ?_, ?_, ?_⟩
  · simp [next, regWriteOut, MemStage.out, h.regWrite, ExecStage.exOut]
  · simp [next, rdOut, MemStage.out, h.rd, ExecStage.exOut]
  · cases hm : i.d.memToReg
    · simp [next, resOut, MemStage.out, IdOut.wbVal, h.memToReg, hm, h.alu, ExecStage.exOut]
    · have hval : m.memDataInternal = i.memVal data := h.loaded (hload hm)
      simp [next, resOut, MemStage.out, IdOut.wbVal, h.memToReg, hm, hval, ExecStage.exOut]

theorem next_empty (w : St) (o : MemOut) : (next w false o).validInInternal = false := rfl

end WriteBackStage

/-! ## Fetch stage -/

namespace InsnFetch

/-- the address of the next word to hand over, once pending redirects are taken -/
def fetchTarget (f : St) : Word := if f.pcWeBuf then f.pcInBuf else f.pc

/-- the words the stage holds are instructions at its pc; `ack` and `data` are the instruction port -/
structure Inv (imem : Word → Word) (f : St) (ack : Bool) (data : Word) : Prop where
  acked : ack = true → f.curState = .fetch ∧ data = imem f.pc
  buffered : f.curState = .waitHandshake → f.insnBuf = imem f.pc ∧ f.pcWeBuf = false
  running : f.curState ≠ .halt

variable {imem : Word → Word} {f : St} {ack : Bool} {data : Word}

/-- **Handshake.** What is handed over is the instruction at the fetch target. -/
theorem fire (h : Inv imem f ack data) (halt ready pcWe : Bool)
    (hv : (validOut (comb f ack ready pcWe) halt && ready) = true) :
    pcOut f (comb f ack ready pcWe) = fetchTarget f ∧
      insnOut f (comb f ack ready pcWe) data = imem (fetchTarget f) := by
  simp only [Bool.and_eq_true] at hv
  obtain ⟨hv, rfl⟩ := hv
  cases hs : f.curState with
  | idle => simp [comb, hs, validOut] at hv
  | halt => exact absurd hs h.running
  | fetch =>
    cases ha : ack
    · simp [comb, hs, ha, validOut] at hv
    · cases hp : pcWeInternal f pcWe
      · have hb : f.pcWeBuf = false := by simp [pcWeInternal] at hp; exact hp.2
        simp [comb, hs, hp, pcOut, insnOut, fetchTarget, hb, (h.acked ha).2]
      · simp [comb, hs, ha, hp, validOut] at hv
  | waitHandshake =>
    obtain ⟨hi, hb⟩ := h.buffered hs
    cases hp : pcWeInternal f pcWe
    · simp [comb, hs, hp, pcOut, insnOut, fetchTarget, hb, hi]
    · simp [comb, hs, hp, validOut] at hv

/-- **The fetch target moves** to a redirect, past a word handed over, and not otherwise. -/
theorem next_fetchTarget (h : Inv imem f ack data) (halt ready pcWe : Bool) (pcIn : Word)
    (hh : halt = true → ready = false) :
    fetchTarget (next f (comb f ack ready pcWe) data pcWe pcIn) =
      if pcWe then pcIn
      else if validOut (comb f ack ready pcWe) halt && ready then fetchTarget f + 4
      else fetchTarget f := by
  have hready : ready = true → halt = false := by
    rintro rfl
    simpa using hh
  cases hs : f.curState with
  | idle => cases pcWe <;> simp [comb, hs, next, fetchTarget, validOut]
  | halt => exact absurd hs h.running
  | fetch =>
    cases ha : ack
    · cases pcWe <;> simp [comb, hs, next, fetchTarget, validOut]
    · cases hr : ready
      · cases pcWe <;> cases hb : f.pcWeBuf <;>
          simp [comb, hs, next, fetchTarget, validOut, pcWeInternal, pcNext, pcInInternal, hb]
      · obtain rfl := hready hr
        cases pcWe <;> cases hb : f.pcWeBuf <;>
          simp [comb, hs, next, fetchTarget, validOut, pcWeInternal, pcNext, pcInInternal, hb]
  | waitHandshake =>
    obtain ⟨-, hb⟩ := h.buffered hs
    cases hr : ready
    · cases pcWe <;> simp [comb, hs, next, fetchTarget, validOut, pcWeInternal, pcNext, pcInInternal, hb]
    · obtain rfl := hready hr
      cases pcWe <;> simp [comb, hs, next, fetchTarget, validOut, pcWeInternal, pcNext, pcInInternal, hb]

/-- a handshake only happens without a redirect, new or pending -/
theorem fire_no_redirect (h : Inv imem f ack data) {halt ready pcWe : Bool}
    (hv : (validOut (comb f ack ready pcWe) halt && ready) = true) : pcWe = false ∧ f.pcWeBuf = false := by
  obtain ⟨hv, rfl⟩ := Bool.and_eq_true_iff.1 hv
  cases hs : f.curState with
  | idle => simp [comb, hs, validOut] at hv
  | halt => exact absurd hs h.running
  | fetch =>
    cases ha : ack
    · simp [comb, hs, ha, validOut] at hv
    · cases hp : pcWeInternal f pcWe
      · simpa [pcWeInternal] using hp
      · simp [comb, hs, ha, hp, validOut] at hv
  | waitHandshake =>
    cases hp : pcWeInternal f pcWe
    · simpa [pcWeInternal] using hp
    · simp [comb, hs, hp, validOut] at hv

/-- a parked word is offered in every cycle without a redirect -/
theorem offer_parked {f : St} (hs : f.curState = .waitHandshake) (hb : f.pcWeBuf = false) (ack ready : Bool) (data : Word) :
    validOut (comb f ack ready false) false = true ∧ pcOut f (comb f ack ready false) = f.pc ∧
      insnOut f (comb f ack ready false) data = f.insnBuf := by
  cases ready <;> simp [comb, hs, hb, validOut, pcOut, insnOut, pcWeInternal]

/-- **A word offered and not taken is parked.** -/
theorem next_park (h : Inv imem f ack data) {halt pcWe : Bool} (pcIn : Word)
    (hv : validOut (comb f ack false pcWe) halt = true) :
    let f' := next f (comb f ack false pcWe) data pcWe pcIn
    f'.curState = .waitHandshake ∧ f'.pcWeBuf = false ∧ f'.pc = pcOut f (comb f ack false pcWe) ∧
      f'.insnBuf = insnOut f (comb f ack false pcWe) data := by
  cases hs : f.curState with
  | idle => simp [comb, hs, validOut] at hv
  | halt => exact absurd hs h.running
  | fetch =>
    cases ha : ack
    · simp [comb, hs, ha, validOut] at hv
    · cases hp : pcWeInternal f pcWe
      · have hp' := hp
        simp only [pcWeInternal, Bool.or_eq_false_iff] at hp'
        simp [comb, hs, next, pcWeInternal, pcOut, insnOut, hp'.1, hp'.2]
      · simp [comb, hs, ha, hp, validOut] at hv
  | waitHandshake =>
    obtain ⟨-, hb⟩ := h.buffered hs
    cases hp : pcWe
    · simp [comb, hs, next, hb, pcOut, insnOut]
    · simp [comb, hs, hp, pcWeInternal, validOut] at hv

/-- a stage that keeps a redirect pending keeps its pc -/
theorem next_pc_of_pending {ready pcWe : Bool} {pcIn : Word}
    (h : (next f (comb f ack ready pcWe) data pcWe pcIn).pcWeBuf = true) :
    (next f (comb f ack ready pcWe) data pcWe pcIn).pc = f.pc := by
  cases hs : f.curState with
  | idle => simp [comb, hs, next]
  | halt => simp [comb, hs, next]
  | fetch =>
    cases ha : ack
    · simp [comb, hs, next]
    · cases hr : (ready || pcWeInternal f pcWe)
      · simp [comb, hs, hr, next]
      · cases hp : pcWeInternal f pcWe
        · simp only [pcWeInternal, Bool.or_eq_false_iff] at hp
          simp [comb, hs, ha, next, pcWeInternal, hp.1, hp.2] at h ⊢
        · simp [comb, hs, ha, next, hp] at h
  | waitHandshake =>
    cases hr : (ready || pcWe)
    · simp [comb, hs, hr, next]
    · cases hp : pcWeInternal f pcWe
      · simp only [pcWeInternal, Bool.or_eq_false_iff] at hp
        simp [comb, hs, next, pcWeInternal, hp.1, hp.2] at h ⊢
      · simp [comb, hs, hr, next, hp] at h

/-- a requested word is the one at the pc of the next cycle, where the stage waits for it -/
theorem next_request {ready pcWe : Bool} (h : memReq (comb f ack ready pcWe) = true) (pcIn data : Word) :
    (next f (comb f ack ready pcWe) data pcWe pcIn).curState = .fetch ∧
      (next f (comb f ack ready pcWe) data pcWe pcIn).pc = memAddr f (comb f ack ready pcWe) pcWe pcIn := by
  cases hs : f.curState with
  | idle => simp [comb, hs, memReq] at h
  | halt => simp [comb, hs, memReq] at h
  | fetch =>
    cases ha : ack
    · simp [comb, hs, next, memAddr]
    · cases hr : (ready || pcWeInternal f pcWe)
      · simp [comb, hs, ha, hr, memReq] at h
      · simp [comb, hs, hr, next, memAddr]
  | waitHandshake =>
    cases hr : (ready || pcWe)
    · simp [comb, hs, hr, memReq] at h
    · simp [comb, hs, hr, next, memAddr]

/-- a stage that waits for its word keeps requesting it -/
theorem request_of_fetch (h : f.curState = .fetch) (ready pcWe : Bool) (pcIn : Word) :
    memReq (comb f false ready pcWe) = true ∧ memAddr f (comb f false ready pcWe) pcWe pcIn = f.pc := by
  simp [comb, h, memReq, memAddr]

/-- **The held words stay instructions at pc**, whatever the instruction port serves. -/
theorem next_inv (h : Inv imem f ack data) {ready pcWe grant : Bool} (pcIn bus : Word) :
    Inv imem (next f (comb f ack ready pcWe) data pcWe pcIn) (memReq (comb f ack ready pcWe) && grant)
      (if memReq (comb f ack ready pcWe) && grant then imem (memAddr f (comb f ack ready pcWe) pcWe pcIn) else bus) := by
  cases hs : f.curState with
  | idle => refine ⟨?_, ?_, ?_⟩ <;> simp [comb, hs, next, memReq]
  | halt => exact absurd hs h.running
  | fetch =>
    cases ha : ack
    · refine ⟨?_, ?_, ?_⟩ <;> simp +contextual [comb, hs, next, memReq, memAddr]
    · have hd := (h.acked ha).2
      cases hr : ready <;> cases hp : pcWeInternal f pcWe
      · have hp' := hp
        simp only [pcWeInternal, Bool.or_eq_false_iff] at hp'
        refine ⟨?_, ?_, ?_⟩ <;> simp [comb, hs, next, memReq, pcWeInternal, hp'.1, hp'.2, hd]
      all_goals refine ⟨?_, ?_, ?_⟩ <;> simp +contextual [comb, hs, next, memReq, memAddr, hp]
  | waitHandshake =>
    obtain ⟨hi, hb⟩ := h.buffered hs
    cases hr : (ready || pcWe)
    · simp only [Bool.or_eq_false_iff] at hr
      refine ⟨?_, ?_, ?_⟩ <;> simp [comb, hs, next, memReq, hr.1, hr.2, hb, hi]
    · refine ⟨?_, ?_, ?_⟩ <;> simp +contextual [comb, hs, next, memReq, memAddr, hr]

end InsnFetch

end FpgaLearning.ArxCore
