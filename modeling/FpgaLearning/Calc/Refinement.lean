/-
The first processor refines its instruction set.

A round takes eight cycles, two in each of `S_FETCH`, `S_LOADB`, `S_LOADA` and `S_STORE`: in the first of them the stage is
busy, in the second the next one is started.

- `At a r k`: the system in cycle `k` of round `r`, which started in the architectural state `a`.
- `At.next`: a clock edge leads to the next cycle of the round; the last one completes an `Arch.step`.
- `calc_refines`: rounds follow each other without a gap, each is one atomic step, and within a round sp and the
  memory change only where the operands and the destination of its instruction say so.
-/
import FpgaLearning.Calc.Processor

namespace FpgaLearning.Calc

open FpgaLearning.Memory
open FpgaLearning.Stack (DivByZero)

variable {z : DivByZero} {rom : Word → Word} {rdw : Word → Word → Word}

/-! ## One instruction in parts -/

namespace Arch

variable (rom) in
/-- the instruction at pc -/
def insn (a : Arch) : Insn := decode (rom a.pc)

/-- with the pc passed -/
def fetched (a : Arch) : Arch := { a with pc := a.pc + 1 }

variable (rom) in
/-- operand B, and the state after it -/
def loadedB (a : Arch) : Word × Arch := a.fetched.operand (a.insn rom).opBSrc (a.insn rom).imm 0

variable (rom) in
/-- operand A, and the state after it -/
def loadedA (a : Arch) : Word × Arch :=
  (a.loadedB rom).2.operand (a.insn rom).opASrc (a.insn rom).imm (a.loadedB rom).1

variable (z rom) in
/-- the result of the ALU -/
def result (a : Arch) : Word := ALU.result z (a.insn rom).aluOp (a.loadedA rom).1 (a.loadedB rom).1

theorem step_eq (a : Arch) : a.step z rom =
    (a.loadedA rom).2.save (a.insn rom).resDst (a.loadedA rom).1 (a.loadedB rom).1 (a.result z rom) := rfl

variable {a : Arch} {src : OperandSource} {imm addr : Word}

@[simp] theorem operand_pc : (a.operand src imm addr).2.pc = a.pc := by cases src <;> rfl

@[simp] theorem operand_mem : (a.operand src imm addr).2.mem = a.mem := by cases src <;> rfl

@[simp] theorem operand_out1 : (a.operand src imm addr).2.out1 = a.out1 := by cases src <;> rfl

@[simp] theorem loadedA_pc : (a.loadedA rom).2.pc = a.pc + 1 := by simp [loadedA, loadedB, fetched]

@[simp] theorem loadedA_mem : (a.loadedA rom).2.mem = a.mem := by simp [loadedA, loadedB, fetched]

@[simp] theorem loadedA_out1 : (a.loadedA rom).2.out1 = a.out1 := by simp [loadedA, loadedB, fetched]

/-- an operand moves sp only if it comes from the stack -/
theorem operand_sp : (a.operand src imm addr).2.sp = if src = .stack then a.sp - 1 else a.sp := by cases src <;> rfl

/-- and the destination only if it is the stack -/
theorem save_sp {dst : Destination} {x y v : Word} :
    (a.save dst x y v).sp = if dst = .stack then a.sp + 1 else a.sp := by
  cases dst with
  | none | stack => rfl
  | mem =>
    show (a.store y v).sp = a.sp
    unfold store
    split_ifs <;> rfl
  | pc =>
    show (if x.getLsbD 0 then { a with pc := y } else a).sp = a.sp
    split_ifs <;> rfl

end Arch

/-! ## The cycles of a round -/

/-- cycle `k` of round `r`, which started in state `a` -/
inductive At (z : DivByZero) (rom : Word → Word) (a : Arch) (r : ℕ) : ℕ → System → Prop
  | fetch (i : Insn) (b d q : Word) :
    At z rom a r 0 ⟨⟨.fetch, a.sp, a.pc, ⟨.decode, i⟩, ⟨.wait, b⟩, ⟨.wait, d⟩, .wait⟩, rom a.pc, ⟨a.mem, q, a.out1⟩, r⟩
  | fetched (b d q w : Word) :
    At z rom a r 1
      ⟨⟨.fetch, a.sp, a.pc + 1, ⟨.wait, a.insn rom⟩, ⟨.wait, b⟩, ⟨.wait, d⟩, .wait⟩, w, ⟨a.mem, q, a.out1⟩, r⟩
  /-- the RAM shows the word at the address of operand B -/
  | loadB (b d w : Word) :
    At z rom a r 2
      ⟨⟨.loadB, a.sp, a.pc + 1, ⟨.wait, a.insn rom⟩, ⟨.load, b⟩, ⟨.wait, d⟩, .wait⟩, w,
        ⟨a.mem, a.mem ((LoadStage.addr (a.insn rom).opBSrc a.sp 0).setWidth 8), a.out1⟩, r⟩
  | loadedB (d q w : Word) :
    At z rom a r 3
      ⟨⟨.loadB, (a.loadedB rom).2.sp, a.pc + 1, ⟨.wait, a.insn rom⟩, ⟨.wait, (a.loadedB rom).1⟩, ⟨.wait, d⟩, .wait⟩, w,
        ⟨a.mem, q, a.out1⟩, r⟩
  /-- the RAM shows the word at the address of operand A -/
  | loadA (d w : Word) :
    At z rom a r 4
      ⟨⟨.loadA, (a.loadedB rom).2.sp, a.pc + 1, ⟨.wait, a.insn rom⟩, ⟨.wait, (a.loadedB rom).1⟩, ⟨.load, d⟩, .wait⟩, w,
        ⟨a.mem, a.mem ((LoadStage.addr (a.insn rom).opASrc (a.loadedB rom).2.sp (a.loadedB rom).1).setWidth 8), a.out1⟩,
        r⟩
  | loadedA (q w : Word) :
    At z rom a r 5
      ⟨⟨.loadA, (a.loadedA rom).2.sp, a.pc + 1, ⟨.wait, a.insn rom⟩, ⟨.wait, (a.loadedB rom).1⟩,
        ⟨.wait, (a.loadedA rom).1⟩, .wait⟩, w, ⟨a.mem, q, a.out1⟩, r⟩
  | store (q w : Word) :
    At z rom a r 6
      ⟨⟨.store, (a.loadedA rom).2.sp, a.pc + 1, ⟨.wait, a.insn rom⟩, ⟨.wait, (a.loadedB rom).1⟩,
        ⟨.wait, (a.loadedA rom).1⟩, .store⟩, w, ⟨a.mem, q, a.out1⟩, r⟩
  | stored (q w : Word) :
    At z rom a r 7
      ⟨⟨.store, (a.step z rom).sp, (a.step z rom).pc, ⟨.wait, a.insn rom⟩, ⟨.wait, (a.loadedB rom).1⟩,
        ⟨.wait, (a.loadedA rom).1⟩, .wait⟩, w, ⟨(a.step z rom).mem, q, (a.step z rom).out1⟩, r⟩

/-! ## The busy cycles of the stages -/

theorem nextData_load (a : Arch) (d : Word) (src : OperandSource) (imm memAddr : Word) :
    LoadStage.nextData ⟨.load, d⟩ src imm (a.load (LoadStage.addr src a.sp memAddr)) = (a.operand src imm memAddr).1 := by
  cases src <;> rfl

theorem sp_load (a : Arch) (d : Word) (src : OperandSource) (imm memAddr : Word) :
    StackPointer.next a.sp false (LoadStage.decrSp ⟨.load, d⟩ src) = (a.operand src imm memAddr).2.sp := by
  have hminus : a.sp + 0xFFFFFFFF = a.sp - 1 := by rw [BitVec.sub_eq_add_neg]; rfl
  cases src with
  | stack => exact hminus
  | zero | imm | mem => rfl

/-- **Save stage.** -/
theorem saved (rdw : Word → Word → Word) (s : Arch) (q : Word) (dst : Destination) (a b r : Word) :
    StackPointer.next s.sp (SaveStage.incrementSp .store dst) false = (s.save dst a b r).sp ∧
      ProgramCounter.next s.pc b false (SaveStage.pcWe .store dst && a.getLsbD 0) = (s.save dst a b r).pc ∧
      ∃ q', Mmio.next rdw ⟨s.mem, q, s.out1⟩ (SaveStage.addr dst s.sp b) r (SaveStage.memWe .store dst) =
        ⟨(s.save dst a b r).mem, q', (s.save dst a b r).out1⟩ := by
  cases dst with
  | none => exact ⟨rfl, rfl, _, rfl⟩
  | stack =>
    cases h : s.sp.getLsbD 30 <;> simp only [Arch.save, Arch.store, Mmio.next, SaveStage.addr, h] <;>
      exact ⟨rfl, rfl, _, rfl⟩
  | mem =>
    cases h : b.getLsbD 30 <;> simp only [Arch.save, Arch.store, Mmio.next, SaveStage.addr, h] <;>
      exact ⟨rfl, rfl, _, rfl⟩
  | pc => cases h : a.getLsbD 0 <;> simp only [Arch.save, h] <;> exact ⟨rfl, rfl, _, rfl⟩

/-! ## One edge -/

variable {a : Arch} {r k : ℕ} {s : System}

variable (rdw) in
/-- **Step.** Within a round. -/
theorem At.next (h : At z rom a r k s) (hk : k < 7) : At z rom a r (k + 1) (s.next z rom rdw) := by
  cases h with
  | fetch i b d q => exact .fetched b d _ _
  | fetched b d q w => exact .loadB b d _
  | loadB b d w =>
    have hdata := nextData_load a.fetched b (a.insn rom).opBSrc (a.insn rom).imm 0
    have hsp := sp_load a.fetched b (a.insn rom).opBSrc (a.insn rom).imm 0
    show At z rom a r 3 ⟨⟨.loadB, StackPointer.next a.fetched.sp false (LoadStage.decrSp ⟨.load, b⟩ (a.insn rom).opBSrc),
      a.pc + 1, ⟨.wait, a.insn rom⟩, ⟨.wait, LoadStage.nextData ⟨.load, b⟩ (a.insn rom).opBSrc (a.insn rom).imm
        (a.fetched.load (LoadStage.addr (a.insn rom).opBSrc a.fetched.sp 0))⟩, ⟨.wait, d⟩, .wait⟩, _, ⟨a.mem, _, a.out1⟩, r⟩
    rw [hdata, hsp]
    exact .loadedB d _ _
  | loadedB d q w => exact .loadA d _
  | loadA d w =>
    have hdata := nextData_load (a.loadedB rom).2 d (a.insn rom).opASrc (a.insn rom).imm (a.loadedB rom).1
    have hsp := sp_load (a.loadedB rom).2 d (a.insn rom).opASrc (a.insn rom).imm (a.loadedB rom).1
    have hload : ∀ addr, Mmio.q ⟨a.mem, a.mem (addr.setWidth 8), a.out1⟩ addr = (a.loadedB rom).2.load addr := by
      intro addr
      simp [Mmio.q, Arch.load, Arch.loadedB, Arch.fetched]
    show At z rom a r 5 ⟨⟨.loadA, StackPointer.next (a.loadedB rom).2.sp false
        (LoadStage.decrSp ⟨.load, d⟩ (a.insn rom).opASrc), a.pc + 1, ⟨.wait, a.insn rom⟩, ⟨.wait, (a.loadedB rom).1⟩,
      ⟨.wait, LoadStage.nextData ⟨.load, d⟩ (a.insn rom).opASrc (a.insn rom).imm (Mmio.q ⟨a.mem, _, a.out1⟩
        (LoadStage.addr (a.insn rom).opASrc (a.loadedB rom).2.sp (a.loadedB rom).1))⟩, .wait⟩, _, ⟨a.mem, _, a.out1⟩, r⟩
    rw [hload, hdata, hsp]
    exact .loadedA _ _
  | loadedA q w => exact .store _ _
  | store q w =>
    obtain ⟨hsp, hpc, q', hmem⟩ := saved rdw (a.loadedA rom).2 q (a.insn rom).resDst (a.loadedA rom).1 (a.loadedB rom).1
      (a.result z rom)
    rw [← Arch.step_eq] at hsp hpc hmem
    rw [Arch.loadedA_pc] at hpc
    rw [Arch.loadedA_mem, Arch.loadedA_out1] at hmem
    show At z rom a r 7 ⟨⟨.store,
      StackPointer.next (a.loadedA rom).2.sp (SaveStage.incrementSp .store (a.insn rom).resDst) false,
      ProgramCounter.next (a.pc + 1) (a.loadedB rom).1 false
        (SaveStage.pcWe .store (a.insn rom).resDst && (a.loadedA rom).1.getLsbD 0),
      ⟨.wait, a.insn rom⟩, ⟨.wait, (a.loadedB rom).1⟩, ⟨.wait, (a.loadedA rom).1⟩, .wait⟩, _,
      Mmio.next rdw ⟨a.mem, q, a.out1⟩ (SaveStage.addr (a.insn rom).resDst (a.loadedA rom).2.sp (a.loadedB rom).1)
        (a.result z rom) (SaveStage.memWe .store (a.insn rom).resDst), r⟩
    rw [hsp, hpc, hmem]
    exact .stored _ _
  | stored q w => exact absurd hk (lt_irrefl 7)

variable (rdw) in
/-- **Round.** From one to the next. -/
theorem At.complete (h : At z rom a r 7 s) : At z rom (a.step z rom) (r + 1) 0 (s.next z rom rdw) := by
  cases h with
  | stored q w => exact .fetch _ _ _ _

/-! ## Runs -/

variable (rdw) in
theorem At.iterate (h : At z rom a r 0 s) (hk : k < 8) : At z rom a r k ((System.next z rom rdw)^[k] s) := by
  induction k with
  | zero => exact h
  | succ k ih =>
    rw [Function.iterate_succ_apply']
    exact (ih (by omega)).next rdw (by omega)

/-- **Pace.** Every round takes eight cycles, and leads one atomic step further. -/
theorem run_at (z : DivByZero) (rom : Word → Word) (rdw : Word → Word → Word) (mem : RamWords) (romData ramQ : Word)
    (r k : ℕ) (hk : k < 8) : At z rom ((Arch.step z rom)^[r] (Arch.init mem)) r k
      (System.run z rom rdw mem romData ramQ (8 * r + 1 + k)) := by
  have hstart : At z rom ((Arch.step z rom)^[r] (Arch.init mem)) r 0
      (System.run z rom rdw mem romData ramQ (8 * r + 1)) := by
    induction r with
    | zero => exact .fetch _ _ _ _
    | succ r ih =>
      have hlast := ih.iterate rdw (show 7 < 8 by decide)
      rw [Function.iterate_succ_apply', show 8 * (r + 1) + 1 = 1 + 7 + (8 * r + 1) by omega]
      rw [System.run, Function.iterate_add_apply, Function.iterate_add_apply]
      exact hlast.complete rdw
  rw [System.run, Nat.add_comm _ k, Function.iterate_add_apply]
  exact hstart.iterate rdw hk

/-! ## What a round changes -/

namespace System

/-- RAM and output register -/
def memory (s : System) : RamWords × Word := (s.mem.words, s.mem.out1)

end System

theorem At.rounds (h : At z rom a r k s) : s.rounds = r := by cases h <;> rfl

theorem At.fetch_iff (h : At z rom a r k s) : s.p.state = .fetch ↔ k ≤ 1 := by cases h <;> simp

theorem At.arch (h : At z rom a r 0 s) : s.arch = a := by
  cases h
  rfl

/-- the stack pointer in the cycles of a round -/
def spIn (z : DivByZero) (rom : Word → Word) (a : Arch) : ℕ → Word
  | 0 | 1 | 2 => a.sp
  | 3 | 4 => (a.loadedB rom).2.sp
  | 5 | 6 => (a.loadedA rom).2.sp
  | _ => (a.step z rom).sp

theorem At.sp (h : At z rom a r k s) : s.p.sp = spIn z rom a k := by cases h <;> rfl

variable (rdw) in
theorem At.sp_next (h : At z rom a r k s) (hk : k < 8) : (s.next z rom rdw).p.sp = spIn z rom a (k + 1) := by
  rcases Nat.lt_or_ge k 7 with hlt | hge
  · exact (h.next rdw hlt).sp
  · obtain rfl : k = 7 := by omega
    exact (h.complete rdw).sp

/-- sp moves in the busy cycles only, and only for the stack -/
theorem At.sp_moves (h : At z rom a r k s) (hk : k < 8) (hne : (s.next z rom rdw).p.sp ≠ s.p.sp) :
    k = 2 ∧ s.p.state = .loadB ∧ (a.insn rom).opBSrc = .stack ∧ (s.next z rom rdw).p.sp = s.p.sp - 1 ∨
      k = 4 ∧ s.p.state = .loadA ∧ (a.insn rom).opASrc = .stack ∧ (s.next z rom rdw).p.sp = s.p.sp - 1 ∨
      k = 6 ∧ s.p.state = .store ∧ (a.insn rom).resDst = .stack ∧ (s.next z rom rdw).p.sp = s.p.sp + 1 := by
  rw [h.sp_next rdw hk, h.sp] at hne ⊢
  cases h with
  | loadB b d w =>
    have hsp : spIn z rom a 3 = if (a.insn rom).opBSrc = .stack then a.sp - 1 else a.sp := Arch.operand_sp
    rw [hsp] at hne ⊢
    split_ifs at hne ⊢ with hsrc
    · exact .inl ⟨rfl, rfl, hsrc, rfl⟩
    · exact absurd rfl hne
  | loadA d w =>
    have hsp : spIn z rom a 5 =
        if (a.insn rom).opASrc = .stack then (a.loadedB rom).2.sp - 1 else (a.loadedB rom).2.sp := Arch.operand_sp
    rw [hsp] at hne ⊢
    split_ifs at hne ⊢ with hsrc
    · exact .inr (.inl ⟨rfl, rfl, hsrc, rfl⟩)
    · exact absurd rfl hne
  | store q w =>
    have hsp : spIn z rom a 7 =
        if (a.insn rom).resDst = .stack then (a.loadedA rom).2.sp + 1 else (a.loadedA rom).2.sp := Arch.save_sp
    rw [hsp] at hne ⊢
    split_ifs at hne ⊢ with hdst
    · exact .inr (.inr ⟨rfl, rfl, hdst, rfl⟩)
    · exact absurd rfl hne
  | fetch | fetched | loadedB | loadedA | stored => exact absurd rfl hne

/-- memory changes in the busy cycle of the save stage, and only if the result goes there -/
theorem At.memory_moves (h : At z rom a r k s) (hne : (s.next z rom rdw).memory ≠ s.memory) :
    k = 6 ∧ s.p.state = .store ∧ ((a.insn rom).resDst = .stack ∨ (a.insn rom).resDst = .mem) := by
  cases h with
  | store q w =>
    refine ⟨rfl, rfl, ?_⟩
    cases hdst : (a.insn rom).resDst with
    | stack => exact .inl rfl
    | mem => exact .inr rfl
    | none | pc =>
      refine absurd ?_ hne
      have hwe : SaveStage.memWe .store (a.insn rom).resDst = false := by rw [hdst]; rfl
      simp [System.memory, System.next, Mmio.next, Processor.ramWe, hwe]
  | fetch | fetched | loadB | loadedB | loadA | loadedA | stored => exact absurd rfl hne

/-! ## The refinement -/

/-- the state machine enters `S_FETCH` in cycle `n` -/
def EntersFetch (S : ℕ → System) (n : ℕ) : Prop :=
  (S n).p.state = .fetch ∧ ∃ m, n = m + 1 ∧ (S m).p.state ≠ .fetch

/-- the instruction of the round under way, as the atomic steps have it -/
def current (z : DivByZero) (rom : Word → Word) (mem : RamWords) (s : System) : Insn :=
  ((Arch.step z rom)^[s.rounds] (Arch.init mem)).insn rom

/-- what holds of a run `S` with initial memory `mem` -/
structure Refines (z : DivByZero) (rom : Word → Word) (mem : RamWords) (S : ℕ → System) : Prop where
  arch : ∀ n, EntersFetch S n → (S n).arch = (Arch.step z rom)^[(S n).rounds] (Arch.init mem)
  /-- a round takes eight cycles -/
  paced : ∀ r, EntersFetch S (8 * r + 1) ∧ (S (8 * r + 1)).rounds = r
  /-- sp goes down for an operand from the stack and up for a result to the stack -/
  sp_moves : ∀ n, (S (n + 1)).p.sp ≠ (S n).p.sp →
    (S n).p.state = .loadB ∧ (current z rom mem (S n)).opBSrc = .stack ∧ (S (n + 1)).p.sp = (S n).p.sp - 1 ∨
      (S n).p.state = .loadA ∧ (current z rom mem (S n)).opASrc = .stack ∧ (S (n + 1)).p.sp = (S n).p.sp - 1 ∨
      (S n).p.state = .store ∧ (current z rom mem (S n)).resDst = .stack ∧ (S (n + 1)).p.sp = (S n).p.sp + 1
  /-- once for each of them -/
  sp_once : ∀ i j, (S i).rounds = (S j).rounds → (S i).p.state = (S j).p.state → (S (i + 1)).p.sp ≠ (S i).p.sp →
    (S (j + 1)).p.sp ≠ (S j).p.sp → i = j
  memory_moves : ∀ n, (S (n + 1)).memory ≠ (S n).memory → (S n).p.state = .store ∧
    ((current z rom mem (S n)).resDst = .stack ∨ (current z rom mem (S n)).resDst = .mem)
  memory_once : ∀ i j, (S i).rounds = (S j).rounds → (S (i + 1)).memory ≠ (S i).memory →
    (S (j + 1)).memory ≠ (S j).memory → i = j

/-- every cycle after the first is one of a round -/
theorem exists_at (z : DivByZero) (rom : Word → Word) (rdw : Word → Word → Word) (mem : RamWords) (romData ramQ : Word)
    {n : ℕ} (hn : n ≠ 0) : ∃ r k, n = 8 * r + 1 + k ∧ k < 8 ∧
      At z rom ((Arch.step z rom)^[r] (Arch.init mem)) r k (System.run z rom rdw mem romData ramQ n) := by
  have hsplit : n = 8 * ((n - 1) / 8) + 1 + (n - 1) % 8 := by omega
  refine ⟨(n - 1) / 8, (n - 1) % 8, hsplit, by omega, ?_⟩
  have hat := run_at z rom rdw mem romData ramQ ((n - 1) / 8) ((n - 1) % 8) (by omega)
  rwa [← hsplit] at hat

/-- **The first processor refines its instruction set**, for every program and initial memory. -/
theorem calc_refines (z : DivByZero) (rom : Word → Word) (rdw : Word → Word → Word) (mem : RamWords)
    (romData ramQ : Word) : Refines z rom mem (System.run z rom rdw mem romData ramQ) := by
  set S := System.run z rom rdw mem romData ramQ
  have hS : ∀ n, S (n + 1) = (S n).next z rom rdw := fun n => Function.iterate_succ_apply' _ _ _
  have hat : ∀ {n}, n ≠ 0 → ∃ r k, n = 8 * r + 1 + k ∧ k < 8 ∧
      At z rom ((Arch.step z rom)^[r] (Arch.init mem)) r k (S n) := exists_at z rom rdw mem romData ramQ
  -- the reset cycle changes nothing
  have hreset : (S 1).p.sp = (S 0).p.sp ∧ (S 1).memory = (S 0).memory := ⟨rfl, rfl⟩
  have hsp : ∀ {n}, (S (n + 1)).p.sp ≠ (S n).p.sp → n ≠ 0 := by
    rintro n hne rfl
    exact hne hreset.1
  have hmem : ∀ {n}, (S (n + 1)).memory ≠ (S n).memory → n ≠ 0 := by
    rintro n hne rfl
    exact hne hreset.2
  refine ⟨?_, ?_, ?_, ?_, ?_, ?_⟩
  · rintro n ⟨hf, m, rfl, hm⟩
    obtain ⟨r, k, hn, hk, h⟩ := hat (Nat.succ_ne_zero m)
    -- in the second cycle of a fetch the one before was a fetch, too
    have hk0 : k = 0 := by
      by_contra hne
      obtain ⟨r', k', hm', hk', h'⟩ := hat (show m ≠ 0 by have := h.fetch_iff.1 hf; omega)
      exact hm (h'.fetch_iff.2 (by have := h.fetch_iff.1 hf; omega))
    subst hk0
    rw [h.arch, h.rounds]
  · intro r
    have h := run_at z rom rdw mem romData ramQ r 0 (by decide)
    refine ⟨⟨h.fetch_iff.2 (by decide), 8 * r, rfl, ?_⟩, h.rounds⟩
    rcases Nat.eq_zero_or_pos r with rfl | hr
    · exact fun hf => by cases hf
    · obtain ⟨r', k', hm', hk', h'⟩ := hat (show 8 * r ≠ 0 by omega)
      exact fun hf => by have := h'.fetch_iff.1 hf; omega
  · intro n hne
    obtain ⟨r, k, -, hk, h⟩ := hat (hsp hne)
    rw [hS] at hne ⊢
    rw [current, h.rounds]
    exact (h.sp_moves hk hne).imp And.right (Or.imp And.right And.right)
  · intro i j hr hs hi hj
    obtain ⟨r, k, hin, hlt, h⟩ := hat (hsp hi)
    obtain ⟨r', k', hjn, hlt', h'⟩ := hat (hsp hj)
    rw [h.rounds, h'.rounds] at hr
    rw [hS] at hi hj
    have hk : k = k' := by
      rcases h.sp_moves hlt hi with ⟨hk, hst, -⟩ | ⟨hk, hst, -⟩ | ⟨hk, hst, -⟩ <;>
        rcases h'.sp_moves hlt' hj with ⟨hk', hst', -⟩ | ⟨hk', hst', -⟩ | ⟨hk', hst', -⟩ <;> simp_all
    omega
  · intro n hne
    obtain ⟨r, k, -, -, h⟩ := hat (hmem hne)
    rw [hS] at hne
    rw [current, h.rounds]
    exact (h.memory_moves hne).2
  · intro i j hr hi hj
    obtain ⟨r, k, hin, -, h⟩ := hat (hmem hi)
    obtain ⟨r', k', hjn, -, h'⟩ := hat (hmem hj)
    rw [h.rounds, h'.rounds] at hr
    rw [hS] at hi hj
    have hk := (h.memory_moves hi).1
    have hk' := (h'.memory_moves hj).1
    omega

end FpgaLearning.Calc
