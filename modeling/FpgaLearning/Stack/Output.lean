/-
What the stack processor writes to its output register.

The instruction set says what each instruction prints (`Arch.machine`); the circuit prints with the one write cycle of
`S_STORE`. `outputs` is what it has printed before a cycle.

- `outNow_eq`: a cycle prints what the instruction under way prints, if it is the enabled cycle of its request, and
  nothing otherwise.
- `outputs_eq`: before every cycle the circuit has printed what its completed instructions print, and after the write
  cycle that of the instruction under way.
- `rounds_unbounded`: a processor that is not held in `S_HALT` for ever completes every number of instructions.
-/
import FpgaLearning.Compiler.Machine
import FpgaLearning.Stack.Rounds

namespace FpgaLearning.Stack

open FpgaLearning.Memory FpgaLearning.Bus FpgaLearning.Traced

variable {z : DivByZero} {rom : Word → Word} {rdw : Word → MemReq → Word}

namespace System

variable {s : System} {e : Cycle} {a : Arch}

/-- the word that a cycle writes to address `1 << 30` -/
def outNow (z : DivByZero) (s : System) (e : Cycle) : List Word :=
  if e.clkEn && (s.memReq z e).we && (s.memReq z e).addr == Arch.outAddr then [(s.memReq z e).wdata] else []

/-- the words written to address `1 << 30` before cycle `n` -/
def outputs (z : DivByZero) (S : ℕ → System) (E : ℕ → Cycle) : ℕ → List Word
  | 0 => []
  | n + 1 => outputs z S E n ++ outNow z (S n) (E n)

/-! ## One cycle -/

theorem outNow_of_read (h : (s.memReq z e).we = false) : outNow z s e = [] := by simp [outNow, h]

variable (z rom rdw) in
/-- the request of `S_STORE` is acknowledged one enabled cycle later -/
theorem phase_next_eq_eight (he : e.clkEn = true) : (s.next z rom rdw e).phase = 8 ↔ s.phase = 7 := by
  have hack : (s.next z rom rdw e).ramPort.ack = (Processor.ramOut z s.p (s.ackPins e)).req := ack_next he
  cases hs : s.p.curState with
  | halt =>
    have hp : (s.next z rom rdw e).p = _ := Processor.next_halt (z := z) (i := s.pins z e) he hs
    cases hr : e.resumeReq <;> cases hrom : RomPort.ack (s.next z rom rdw e).romPort <;>
      simp [phase, hp, hs, hr, hrom, pins, ackPins]
  | fetch =>
    cases hrom : RomPort.ack s.romPort
    · have hp : (s.next z rom rdw e).p = _ := Processor.next_fetch_wait (z := z) (i := s.pins z e) he hs hrom
      simp only [phase, hp, hs, hrom]
      split_ifs <;> simp
    · have hp : (s.next z rom rdw e).p = _ := Processor.next_fetch (z := z) (i := s.pins z e) he hs hrom
      simp only [phase, hp, hs, hrom]
      split_ifs <;> simp
  | loadB =>
    cases hram : s.ramPort.ack
    · have hp : (s.next z rom rdw e).p = _ := Processor.next_ram_wait (z := z) (i := s.pins z e) he (.inl hs) hram
      simp only [phase, hp, hs, hram]
      split_ifs <;> simp
    · have hp : (s.next z rom rdw e).p = _ := Processor.next_loadB (z := z) (i := s.pins z e) he hs hram
      simp only [phase, hp, hs, hram]
      split_ifs <;> simp
  | loadA =>
    cases hram : s.ramPort.ack
    · have hp : (s.next z rom rdw e).p = _ := Processor.next_ram_wait (z := z) (i := s.pins z e) he (.inr (.inl hs)) hram
      simp only [phase, hp, hs, hram]
      split_ifs <;> simp
    · have hp : (s.next z rom rdw e).p = _ := Processor.next_loadA (z := z) (i := s.pins z e) he hs hram
      have hidle : (s.next z rom rdw e).ramPort.ack = false := by
        rw [hack]
        simp [Processor.ramOut, Processor.halted, Processor.ctrl, Processor.ramAckInternal, hs, ackPins, hram]
      simp [phase, hp, hs, hram, hidle]
  | store =>
    cases hram : s.ramPort.ack
    · have hp : (s.next z rom rdw e).p = _ := Processor.next_ram_wait (z := z) (i := s.pins z e) he (.inr (.inr hs)) hram
      have hserved : (s.next z rom rdw e).ramPort.ack = true := by
        rw [hack]
        simp [Processor.ramOut, Processor.halted, Processor.ctrl, Processor.ramAckInternal, hs, ackPins, hram]
      simp [phase, hp, hs, hram, hserved]
    · have hp : (s.next z rom rdw e).p = _ := Processor.next_store (z := z) (i := s.pins z e) he hs hram
      cases hh : e.haltReq <;> cases hrom : RomPort.ack (s.next z rom rdw e).romPort <;>
        simp [phase, hp, hs, hram, hh, hrom, pins, ackPins]

theorem phase_eq_seven : s.phase = 7 ↔ s.p.curState = .store ∧ s.ramPort.ack = false := by
  cases hs : s.p.curState <;> cases hram : s.ramPort.ack <;> cases hrom : RomPort.ack s.romPort <;>
    simp [phase, hs, hram, hrom]

theorem completes_iff : s.completes e = true ↔ e.clkEn = true ∧ s.phase = 8 := by
  rw [completes_eq]
  cases hs : s.p.curState <;> cases hram : s.ramPort.ack <;> cases hrom : RomPort.ack s.romPort <;>
    simp [phase, hs, hram, hrom]

/-- the request of `S_STORE` -/
theorem memReq_store (h : s.phase = 7) : s.memReq z e = ⟨SaveStage.addr s.p.localInsn.resDst s.p.sp s.p.opB,
    ALU.result z s.p.localInsn.aluOp s.p.opA s.p.opB, SaveStage.memWriteEnable s.p.localInsn.resDst, 15#4⟩ := by
  obtain ⟨hs, hack⟩ := phase_eq_seven.1 h
  simp [memReq, RamPort.out, Processor.ramOut, Processor.halted, Processor.ramAddrInternal, Processor.ramWeInternal,
    Processor.aluRes, Processor.insn, Processor.ctrl, Processor.ramAckInternal, hs, ackPins, hack]

/-- nothing is written in any other phase -/
theorem memReq_we_of_phase (hd : DebugReads e) (h : s.phase ≠ 7) : (s.memReq z e).we = false := by
  by_cases hs : s.p.curState = .store
  · have hack : s.ramPort.ack = true := by
      cases hack : s.ramPort.ack
      · exact absurd (phase_eq_seven.2 ⟨hs, hack⟩) h
      · rfl
    simp [memReq, RamPort.out, Processor.ramOut, Processor.halted, Processor.ctrl, Processor.ramAckInternal, hs, ackPins,
      hack]
  · exact memReq_we hd hs

/-- **Printing.** The enabled cycle of the request prints what the instruction prints. -/
theorem outNow_eq (h : Inv z rom a s) (hd : DebugReads e) :
    outNow z s e = if e.clkEn = true ∧ s.phase = 7 then (Arch.machine z rom).emit a else [] := by
  by_cases hphase : s.phase = 7
  · cases he : e.clkEn
    · simp [outNow, he]
    · rw [if_pos ⟨rfl, hphase⟩, outNow, he, memReq_store hphase]
      obtain ⟨hs, hack⟩ := phase_eq_seven.1 hphase
      cases h with
      | store _ hx hb hA ha =>
        rw [hack, if_neg Bool.false_ne_true] at ha
        have hsp : s.p.sp = ((a.passed.loadB s.p.localInsn).2.loadA s.p.localInsn s.p.opB).2.sp := by
          rw [← ha]
          rfl
        -- both sides in terms of the decoded instruction and its operands
        have hemit : (Arch.machine z rom).emit a =
            Arch.printed ((((a.passed.loadB s.p.localInsn).2.loadA s.p.localInsn s.p.opB).2.storeAddr s.p.localInsn s.p.opB).map
              fun addr => (addr, ALU.result z s.p.localInsn.aluOp s.p.opA s.p.opB)) := by
          rw [hA, hb, hx.insn]
          rfl
        rw [hemit]
        cases hdst : s.p.localInsn.resDst <;>
          simp [Arch.storeAddr, Arch.printed, SaveStage.addr, SaveStage.memWriteEnable, hdst, hsp]
      | halt h' => rw [hs] at h'; cases h'
      | fetch h' => rw [hs] at h'; cases h'
      | fetched h' => rw [hs] at h'; cases h'
      | loadB h' => rw [hs] at h'; cases h'
      | loadA h' => rw [hs] at h'; cases h'
  · rw [if_neg fun h => hphase h.2]
    exact outNow_of_read (memReq_we_of_phase hd hphase)

/-! ## Runs -/

section Runs

variable (z : DivByZero) (rom : Word → Word) (rdw : Word → MemReq → Word) (mem : RamWords) (romData ramQ : Word)
  (E : ℕ → Cycle)

/-- **Outputs.** The instruction under way has printed once its write cycle is over. -/
theorem outputs_eq (hd : ∀ n, DebugReads (E n)) (n : ℕ) :
    outputs z (run z rom rdw mem romData ramQ E) E n =
      (Arch.machine z rom).trace (run z rom rdw mem romData ramQ E n).rounds (Arch.init mem) ++
        if (run z rom rdw mem romData ramQ E n).phase = 8 then
          (Arch.machine z rom).emit ((Arch.step z rom)^[(run z rom rdw mem romData ramQ E n).rounds] (Arch.init mem))
        else [] := by
  induction n with
  | zero => rfl
  | succ n ih =>
    have hinv := run_inv z rom rdw mem romData ramQ E hd n
    rw [outputs, ih, outNow_eq hinv (hd n)]
    set s := run z rom rdw mem romData ramQ E n
    have hnext : run z rom rdw mem romData ramQ E (n + 1) = s.next z rom rdw (E n) := rfl
    have hrounds : (s.next z rom rdw (E n)).rounds = s.rounds + (s.completes (E n)).toNat := rfl
    rw [hnext]
    cases he : (E n).clkEn
    · have hsame : s.next z rom rdw (E n) = s := next_of_disabled he
      rw [hsame]
      simp
    · have height := phase_next_eq_eight z rom rdw (s := s) he
      by_cases h8 : s.phase = 8
      · -- the round ends: what it has printed is now part of the trace
        have hc : s.completes (E n) = true := completes_iff.2 ⟨he, h8⟩
        have h7 : s.phase ≠ 7 := by omega
        have hstep : (Arch.machine z rom).trace (s.rounds + 1) (Arch.init mem) =
            (Arch.machine z rom).trace s.rounds (Arch.init mem) ++
              (Arch.machine z rom).emit ((Arch.step z rom)^[s.rounds] (Arch.init mem)) := by
          rw [Machine.trace_add, Machine.trace, Machine.trace, List.append_nil]
          rfl
        rw [hrounds, hc, Bool.toNat_true, hstep]
        simp [h8, height]
      · have hc : s.completes (E n) = false := by
          rw [Bool.eq_false_iff, Ne, completes_iff]
          exact fun h => h8 h.2
        rw [hrounds, hc, Bool.toNat_false, Nat.add_zero]
        by_cases h7 : s.phase = 7
        · simp [h7, height]
        · simp [h7, h8, height]

theorem trace_le_outputs (hd : ∀ n, DebugReads (E n)) (n : ℕ) :
    (Arch.machine z rom).trace (run z rom rdw mem romData ramQ E n).rounds (Arch.init mem) <+:
      outputs z (run z rom rdw mem romData ramQ E) E n := by
  rw [outputs_eq z rom rdw mem romData ramQ E hd n]
  exact List.prefix_append _ _

theorem outputs_le_trace (hd : ∀ n, DebugReads (E n)) (n : ℕ) :
    outputs z (run z rom rdw mem romData ramQ E) E n <+:
      (Arch.machine z rom).trace ((run z rom rdw mem romData ramQ E n).rounds + 1) (Arch.init mem) := by
  rw [outputs_eq z rom rdw mem romData ramQ E hd n, Machine.trace_add]
  split_ifs with h8
  · rw [Machine.trace, Machine.trace, List.append_nil]
    exact List.prefix_refl _
  · rw [List.append_nil]
    exact List.prefix_append _ _

/-! ## Progress -/

/-- again and again there is an enabled cycle in which the processor is not held in `S_HALT` -/
def KeepsGoing (S : ℕ → System) (E : ℕ → Cycle) : Prop :=
  ∀ n, ∃ m, n ≤ m ∧ (E m).clkEn = true ∧ ((S m).p.curState = .halt → (E m).resumeReq = true)

theorem phase_le (s : System) : s.phase ≤ 8 := by
  cases hs : s.p.curState <;> simp only [phase, hs] <;> (try split_ifs) <;> omega

/-- what holds the processor up in a cycle -/
def Held (s : System) (e : Cycle) : Prop := e.clkEn = false ∨ s.p.curState = .halt ∧ e.resumeReq = false

/-- the phase moves on unless the processor is held or the instruction completes -/
theorem phase_step (hc : s.completes e = false) :
    8 - (s.next z rom rdw e).phase < 8 - s.phase ∨ Held s e ∧ 8 - (s.next z rom rdw e).phase = 8 - s.phase := by
  have hle := phase_le (s.next z rom rdw e)
  cases he : e.clkEn
  · rw [next_of_disabled he]
    exact .inr ⟨.inl he, rfl⟩
  · by_cases hs : s.p.curState = .halt
    · have hp : (s.next z rom rdw e).p = _ := Processor.next_halt (z := z) (i := s.pins z e) he hs
      have hzero : s.phase = 0 := by simp [phase, hs]
      cases hr : e.resumeReq
      · have hstay : (s.next z rom rdw e).phase = 0 := by simp [phase, hp, pins, ackPins, hr]
        exact .inr ⟨.inr ⟨hs, hr⟩, by rw [hstay, hzero]⟩
      · left
        have hfetch : (s.next z rom rdw e).p.curState = .fetch := by simp [hp, pins, ackPins, hr]
        have hpos : 0 < (s.next z rom rdw e).phase := by
          simp only [phase, hfetch]
          split_ifs <;> omega
        omega
    · left
      have hlt := (phase_next z rom rdw hc).2 he hs
      omega

/-- **Progress.** Every number of instructions completes. -/
theorem rounds_unbounded (hgo : KeepsGoing (run z rom rdw mem romData ramQ E) E) (k : ℕ) :
    ∃ n, k ≤ (run z rom rdw mem romData ramQ E n).rounds := by
  set S := run z rom rdw mem romData ramQ E
  have hS : ∀ n, S (n + 1) = (S n).next z rom rdw (E n) := fun _ => rfl
  have hstep : ∀ n, (S n).completes (E n) = true ∨ 8 - (S (n + 1)).phase < 8 - (S n).phase ∨
      Held (S n) (E n) ∧ 8 - (S (n + 1)).phase = 8 - (S n).phase := by
    intro n
    cases hc : (S n).completes (E n)
    · exact .inr (phase_step z rom rdw hc)
    · exact .inl rfl
  have hfair : ∀ n, ¬ ∀ m, n ≤ m → Held (S m) (E m) ∧ 8 - (S m).phase = 8 - (S n).phase := by
    intro n h
    obtain ⟨m, hm, he, hres⟩ := hgo n
    obtain ⟨hoff | ⟨hhalt, hno⟩, -⟩ := h m hm
    · rw [he] at hoff
      cases hoff
    · rw [hres hhalt] at hno
      cases hno
  have hgrow : ∀ n, ∃ m, n ≤ m ∧ (S m).rounds < (S (m + 1)).rounds := by
    intro n
    obtain ⟨m, hm, hc⟩ := Clocked.eventually_of_rank (fun n => 8 - (S n).phase) (fun n => (S n).completes (E n) = true)
      (fun n => Held (S n) (E n)) hstep hfair n
    have hr := rounds_succ hS m
    rw [hc, Bool.toNat_true] at hr
    exact ⟨m, hm, hr ▸ Nat.lt_succ_self _⟩
  exact Clocked.unbounded_of_growth (fun n => (S n).rounds) (fun n => rounds_mono hS (Nat.le_succ n)) hgrow k

end Runs

end System

end FpgaLearning.Stack
