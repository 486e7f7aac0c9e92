/-
The rounds of the stack processor.

A round leads from `S_FETCH` through the two operand phases to the end of `S_STORE`; `System.rounds` counts the completed
ones. Within a round the phase only moves on, so whatever happens in one phase only happens once in a round.

- `processor_refines`: in `S_FETCH` and `S_HALT` the architectural state is that of the atomic steps. A round changes
  memory and fp at most once, lowers sp at most once for each operand and raises it at most once, and a halt begins only
  where a round ends.
- `sp_changes_twice`: an instruction that takes both operands from the stack does move sp more than once.
-/
import FpgaLearning.Stack.Refinement

namespace FpgaLearning.Stack

open FpgaLearning.Memory FpgaLearning.Bus

variable {z : DivByZero} {rom : Word → Word} {rdw : Word → MemReq → Word}

namespace System

variable {s : System} {e : Cycle}

/-! ## One cycle -/

/-- how far the instruction under way has come -/
def phase (s : System) : ℕ :=
  match s.p.curState with
  | .halt => 0
  | .fetch => if RomPort.ack s.romPort then 2 else 1
  | .loadB => if s.ramPort.ack then 4 else 3
  | .loadA => if s.ramPort.ack then 6 else 5
  | .store => if s.ramPort.ack then 8 else 7

variable (z rom rdw) in
theorem phase_next (hc : s.completes e = false) : s.phase ≤ (s.next z rom rdw e).phase ∧
    (e.clkEn = true → s.p.curState ≠ .halt → s.phase < (s.next z rom rdw e).phase) := by
  cases he : e.clkEn
  · rw [next_of_disabled he]
    exact ⟨le_refl _, nofun⟩
  · have hreq : (s.next z rom rdw e).ramPort.ack = (Processor.ramOut z s.p (s.ackPins e)).req := ack_next he
    have hmem : s.p.curState = .loadB ∨ s.p.curState = .loadA ∨ s.p.curState = .store → s.ramPort.ack = false →
        (s.next z rom rdw e).p = s.p ∧ (s.next z rom rdw e).ramPort.ack = true := by
      intro hs hack
      refine ⟨Processor.next_ram_wait he hs hack, ?_⟩
      rw [hreq]
      rcases hs with hs | hs | hs <;>
        simp [Processor.ramOut, Processor.halted, Processor.ctrl, Processor.ramAckInternal, hs, ackPins, hack]
    cases hs : s.p.curState with
    | halt => exact ⟨by simp [phase, hs], fun _ h => absurd rfl h⟩
    | fetch =>
      have hlt : s.phase < (s.next z rom rdw e).phase := by
        cases hrom : s.romPort with
        | idle =>
          have hack : (s.pins z e).romAck = false := by simp [pins, ackPins, hrom, RomPort.ack]
          have hp : (s.next z rom rdw e).p = s.p := Processor.next_fetch_wait he hs hack
          have hrom' : (s.next z rom rdw e).romPort = .waitData := by
            simp [System.next, RomPort.next, he, hrom, Processor.romReq, Processor.ctrl, hs, hack]
          simp [phase, hp, hs, hrom, hrom', RomPort.ack]
        | waitData =>
          have hack : (s.pins z e).romAck = true := by simp [pins, ackPins, hrom, RomPort.ack]
          have hp : (s.next z rom rdw e).p = _ := Processor.next_fetch (z := z) he hs hack
          simp only [phase, hp, hs]
          split_ifs <;> omega
      exact ⟨le_of_lt hlt, fun _ _ => hlt⟩
    | loadB =>
      have hlt : s.phase < (s.next z rom rdw e).phase := by
        cases hack : s.ramPort.ack
        · obtain ⟨hp, hack'⟩ := hmem (.inl hs) hack
          simp [phase, hp, hs, hack, hack']
        · have hp : (s.next z rom rdw e).p = _ := Processor.next_loadB (z := z) (i := s.pins z e) he hs hack
          simp only [phase, hp, hs]
          split_ifs <;> omega
      exact ⟨le_of_lt hlt, fun _ _ => hlt⟩
    | loadA =>
      have hlt : s.phase < (s.next z rom rdw e).phase := by
        cases hack : s.ramPort.ack
        · obtain ⟨hp, hack'⟩ := hmem (.inr (.inl hs)) hack
          simp [phase, hp, hs, hack, hack']
        · have hp : (s.next z rom rdw e).p = _ := Processor.next_loadA (z := z) (i := s.pins z e) he hs hack
          simp only [phase, hp, hs]
          split_ifs <;> omega
      exact ⟨le_of_lt hlt, fun _ _ => hlt⟩
    | store =>
      have hack : s.ramPort.ack = false := by simpa [completes_eq, he, hs] using hc
      have hlt : s.phase < (s.next z rom rdw e).phase := by
        obtain ⟨hp, hack'⟩ := hmem (.inr (.inr hs)) hack
        simp [phase, hp, hs, hack, hack']
      exact ⟨le_of_lt hlt, fun _ _ => hlt⟩

/-- the data memory with the output register -/
def memory (s : System) : RamWords × Word := (s.mem.words, s.mem.out1)

/-- the memory changes only with the request of `S_STORE` -/
theorem memory_change (hd : DebugReads e) (h : (s.next z rom rdw e).memory ≠ s.memory) :
    e.clkEn = true ∧ s.phase = 7 := by
  have he : e.clkEn = true := by
    by_contra he
    rw [next_of_disabled (by simpa using he)] at h
    exact h rfl
  have hwe : ¬ (s.memReq z e).we = false := by
    intro hw
    obtain ⟨h1, h2, -⟩ := mmio_next_of_read rdw (m := s.mem) hw e.clkEn
    exact h (Prod.ext h1 h2)
  have hs : s.p.curState = .store := by
    by_contra hs
    exact hwe (memReq_we hd hs)
  have hack : s.ramPort.ack = false := by
    by_contra hack
    refine hwe ?_
    simp only [Bool.not_eq_false] at hack
    simp [memReq, RamPort.out, Processor.ramOut, Processor.halted, Processor.ctrl, Processor.ramAckInternal, hs, ackPins,
      hack]
  exact ⟨he, by simp [phase, hs, hack]⟩

/-- fp changes with the acknowledge of `S_STORE`; sp moves with the acknowledge of an operand or of `S_STORE` -/
theorem pointers_change :
    ((s.next z rom rdw e).p.fp ≠ s.p.fp → e.clkEn = true ∧ s.phase = 8) ∧
      ((s.next z rom rdw e).p.sp ≠ s.p.sp → e.clkEn = true ∧
        ((s.phase = 4 ∨ s.phase = 6) ∧ (s.next z rom rdw e).p.sp = s.p.sp - 1 ∨
          s.phase = 8 ∧ (s.next z rom rdw e).p.sp = s.p.sp + 1)) := by
  cases he : e.clkEn
  · rw [next_of_disabled he]
    exact ⟨fun h => absurd rfl h, fun h => absurd rfl h⟩
  · cases hs : s.p.curState with
    | halt =>
      have hp : (s.next z rom rdw e).p = _ := Processor.next_halt (z := z) (i := s.pins z e) he hs
      simp [hp]
    | fetch =>
      cases hrom : RomPort.ack s.romPort
      · have hp : (s.next z rom rdw e).p = _ := Processor.next_fetch_wait (z := z) (i := s.pins z e) he hs hrom
        simp [hp]
      · have hp : (s.next z rom rdw e).p = _ := Processor.next_fetch (z := z) (i := s.pins z e) he hs hrom
        simp [hp]
    | loadB =>
      cases hack : s.ramPort.ack
      · have hp : (s.next z rom rdw e).p = _ := Processor.next_ram_wait (z := z) (i := s.pins z e) he (.inl hs) hack
        simp [hp]
      · have hp : (s.next z rom rdw e).p = _ := Processor.next_loadB (z := z) (i := s.pins z e) he hs hack
        simp +contextual [hp, phase, hs, hack]
    | loadA =>
      cases hack : s.ramPort.ack
      · have hp : (s.next z rom rdw e).p = _ := Processor.next_ram_wait (z := z) (i := s.pins z e) he (.inr (.inl hs)) hack
        simp [hp]
      · have hp : (s.next z rom rdw e).p = _ := Processor.next_loadA (z := z) (i := s.pins z e) he hs hack
        simp +contextual [hp, phase, hs, hack]
    | store =>
      cases hack : s.ramPort.ack
      · have hp : (s.next z rom rdw e).p = _ := Processor.next_ram_wait (z := z) (i := s.pins z e) he (.inr (.inr hs)) hack
        simp [hp]
      · have hp : (s.next z rom rdw e).p = _ := Processor.next_store (z := z) (i := s.pins z e) he hs hack
        simp +contextual [hp, phase, hs, hack]

/-- in a phase of an instruction the processor is not halted -/
theorem curState_of_phase (h : 0 < s.phase) : s.p.curState ≠ .halt := by
  intro hs
  simp [phase, hs] at h

/-- the processor halts only where an instruction completes -/
theorem halt_begins (h : (s.next z rom rdw e).p.curState = .halt) : s.p.curState = .halt ∨ s.completes e = true := by
  by_contra hno
  simp only [not_or, Bool.not_eq_true] at hno
  have hle := (phase_next z rom rdw hno.2).1
  have hzero : (s.next z rom rdw e).phase = 0 := by simp [phase, h]
  have hpos : 0 < s.phase := by
    cases hs : s.p.curState with
    | halt => exact absurd hs hno.1
    | _ => simp only [phase, hs]; split_ifs <;> omega
  omega

/-! ## Runs -/

section
variable {S : ℕ → System} {E : ℕ → Cycle} (hS : ∀ n, S (n + 1) = (S n).next z rom rdw (E n))
include hS

theorem rounds_succ (n : ℕ) : (S (n + 1)).rounds = (S n).rounds + ((S n).completes (E n)).toNat := by rw [hS]; rfl

theorem rounds_mono {i j : ℕ} (hij : i ≤ j) : (S i).rounds ≤ (S j).rounds := by
  induction j, hij using Nat.le_induction with
  | base => exact le_refl _
  | succ j hij ih =>
    have := rounds_succ hS j
    omega

theorem completes_of_rounds {i j : ℕ} (hij : i < j) (hr : (S i).rounds = (S j).rounds) :
    (S i).completes (E i) = false := by
  have h1 := rounds_succ hS i
  have h2 := rounds_mono hS (show i + 1 ≤ j from hij)
  cases hc : (S i).completes (E i)
  · rfl
  · rw [hc] at h1
    simp only [Bool.toNat_true] at h1
    omega

theorem phase_mono {i j : ℕ} (hij : i ≤ j) (hr : (S i).rounds = (S j).rounds) : (S i).phase ≤ (S j).phase := by
  induction j, hij using Nat.le_induction with
  | base => exact le_refl _
  | succ j hij ih =>
    have h1 := rounds_mono hS hij
    have h2 := rounds_mono hS (show j ≤ j + 1 by omega)
    have hsame : (S i).rounds = (S j).rounds := by omega
    have hc := completes_of_rounds hS (show j < j + 1 by omega) (hsame.symm.trans hr)
    refine (ih hsame).trans ?_
    rw [hS]
    exact (phase_next _ _ _ hc).1

/-- an enabled edge leaves its phase for the rest of the round -/
theorem phase_lt {i j : ℕ} (hij : i < j) (hr : (S i).rounds = (S j).rounds) (he : (E i).clkEn = true)
    (hpos : 0 < (S i).phase) : (S i).phase < (S j).phase := by
  have hc := completes_of_rounds hS hij hr
  have hnext : (S i).phase < (S (i + 1)).phase := by
    rw [hS]
    exact (phase_next _ _ _ hc).2 he (curState_of_phase hpos)
  have h1 := rounds_mono hS (show i ≤ i + 1 by omega)
  have h2 := rounds_mono hS (show i + 1 ≤ j from hij)
  exact lt_of_lt_of_le hnext (phase_mono hS hij (by omega))

/-- **A phase is left at most once in a round.** -/
theorem phase_once {i j : ℕ} (hr : (S i).rounds = (S j).rounds) (hp : (S i).phase = (S j).phase)
    (hi : (E i).clkEn = true) (hj : (E j).clkEn = true) (hpos : 0 < (S i).phase) : i = j := by
  rcases lt_trichotomy i j with hij | hij | hij
  · have := phase_lt hS hij hr hi hpos
    omega
  · exact hij
  · have := phase_lt hS hij hr.symm hj (by omega)
    omega

end

/-- what holds of a run `S` with inputs `E` and initial memory `mem` -/
structure Refines (z : DivByZero) (rom : Word → Word) (mem : RamWords) (S : ℕ → System) (E : ℕ → Cycle) : Prop where
  arch : ∀ n, (S n).p.curState = .fetch ∨ (S n).p.curState = .halt →
    (S n).arch = (Arch.step z rom)^[(S n).rounds] (Arch.init mem)
  memory_once : ∀ i j, (S i).rounds = (S j).rounds → (S (i + 1)).memory ≠ (S i).memory →
    (S (j + 1)).memory ≠ (S j).memory → i = j
  fp_once : ∀ i j, (S i).rounds = (S j).rounds → (S (i + 1)).p.fp ≠ (S i).p.fp → (S (j + 1)).p.fp ≠ (S j).p.fp → i = j
  /-- sp goes down in the operand phases and up in `S_STORE` -/
  sp_moves : ∀ n, (S (n + 1)).p.sp ≠ (S n).p.sp →
    ((S n).p.curState = .loadB ∨ (S n).p.curState = .loadA) ∧ (S (n + 1)).p.sp = (S n).p.sp - 1 ∨
      (S n).p.curState = .store ∧ (S (n + 1)).p.sp = (S n).p.sp + 1
  /-- once in each of these phases -/
  sp_once : ∀ i j, (S i).rounds = (S j).rounds → (S i).p.curState = (S j).p.curState →
    (S (i + 1)).p.sp ≠ (S i).p.sp → (S (j + 1)).p.sp ≠ (S j).p.sp → i = j
  halt_between : ∀ n, (S (n + 1)).p.curState = .halt → (S n).p.curState = .halt ∨ (S n).completes (E n) = true

theorem phase_state (s : System) : (s.phase = 4 → s.p.curState = .loadB) ∧ (s.phase = 6 → s.p.curState = .loadA) ∧
    (s.phase = 8 → s.p.curState = .store) := by
  cases hs : s.p.curState <;> simp only [phase, hs] <;> (try split_ifs) <;> simp

/-- **The stack processor refines its instruction set**, for every program, memory, clock enable and halt schedule, as
long as the debug port writes nothing. -/
theorem processor_refines (z : DivByZero) (rom : Word → Word) (rdw : Word → MemReq → Word) (mem : RamWords)
    (romData ramQ : Word) (E : ℕ → Cycle) (hd : ∀ n, DebugReads (E n)) :
    Refines z rom mem (run z rom rdw mem romData ramQ E) E := by
  set S := run z rom rdw mem romData ramQ E
  have hS : ∀ n, S (n + 1) = (S n).next z rom rdw (E n) := fun _ => rfl
  refine ⟨?_, ?_, ?_, ?_, ?_, ?_⟩
  · intro n hn
    exact (run_inv z rom rdw mem romData ramQ E hd n).arch_eq hn
  · intro i j hr hi hj
    rw [hS] at hi hj
    obtain ⟨hei, hpi⟩ := memory_change (hd i) hi
    obtain ⟨hej, hpj⟩ := memory_change (hd j) hj
    exact phase_once hS hr (by omega) hei hej (by omega)
  · intro i j hr hi hj
    rw [hS] at hi hj
    obtain ⟨hei, hpi⟩ := pointers_change.1 hi
    obtain ⟨hej, hpj⟩ := pointers_change.1 hj
    exact phase_once hS hr (by omega) hei hej (by omega)
  · intro n hn
    rw [hS] at hn ⊢
    obtain ⟨h4, h6, h8⟩ := (S n).phase_state
    obtain ⟨-, ⟨hp, hsp⟩ | ⟨hp, hsp⟩⟩ := pointers_change.2 hn
    · exact .inl ⟨hp.imp h4 h6, hsp⟩
    · exact .inr ⟨h8 hp, hsp⟩
  · intro i j hr hs hi hj
    rw [hS] at hi hj
    obtain ⟨hei, hpi⟩ := pointers_change.2 hi
    obtain ⟨hej, hpj⟩ := pointers_change.2 hj
    obtain ⟨h4, h6, h8⟩ := (S i).phase_state
    obtain ⟨h4', h6', h8'⟩ := (S j).phase_state
    have hp : (S i).phase = (S j).phase := by
      rcases hpi with ⟨h | h, -⟩ | ⟨h, -⟩ <;> rcases hpj with ⟨h' | h', -⟩ | ⟨h', -⟩ <;> simp_all
    exact phase_once hS hr hp hei hej (by omega)
  · intro n hn
    rw [hS] at hn
    exact halt_begins hn

/-! ## A run -/

/-- `stack + stack → stack` at every address -/
def addProgram (_ : Word) : Word := 0x80000020

def demoDivider : DivByZero := ⟨fun _ => 0, fun a => a⟩

/-- resumed in cycle 0, asked to halt in cycle 8, a debug read in cycle 10, no clock in cycle 3 -/
def demoCycle (n : ℕ) : Cycle := ⟨n != 3, n == 9, n == 0, ⟨n == 10, ⟨5, 0, false, 0⟩⟩⟩

theorem processor_refines_demo :
    (run demoDivider addProgram (fun held _ => held) (fun _ => 7) 0 0 demoCycle 11).p.curState = .halt ∧
    (run demoDivider addProgram (fun held _ => held) (fun _ => 7) 0 0 demoCycle 11).p.sp = 0xFFFFFFFF ∧
    Refines demoDivider addProgram (fun _ => 7) (run demoDivider addProgram (fun held _ => held) (fun _ => 7) 0 0 demoCycle)
      demoCycle :=
  ⟨by decide +kernel, by decide +kernel, processor_refines demoDivider addProgram (fun held _ => held) (fun _ => 7) 0 0
    demoCycle fun _ _ => rfl⟩

/-- **sp moves more than once in a round**: an instruction with two stack operands pops twice and pushes once. -/
theorem sp_changes_twice : ¬ ∀ (z : DivByZero) (rom : Word → Word) (rdw : Word → MemReq → Word) (mem : RamWords)
    (romData ramQ : Word) (E : ℕ → Cycle), (∀ n, DebugReads (E n)) → ∀ i j,
    (run z rom rdw mem romData ramQ E i).rounds = (run z rom rdw mem romData ramQ E j).rounds →
    (run z rom rdw mem romData ramQ E (i + 1)).p.sp ≠ (run z rom rdw mem romData ramQ E i).p.sp →
    (run z rom rdw mem romData ramQ E (j + 1)).p.sp ≠ (run z rom rdw mem romData ramQ E j).p.sp → i = j := by
  intro h
  have := h demoDivider addProgram (fun held _ => held) (fun _ => 7) 0 0 demoCycle (fun _ _ => rfl) 5 7 (by decide +kernel)
    (by decide +kernel) (by decide +kernel)
  exact absurd this (by decide)

end System

end FpgaLearning.Stack
