/-
Pipeline refinement: without halts the core commits and accesses what the sequential machine does.

- `run_cut`: in every reachable state the commit log and the access log are those of the sequential run cut at two
  instruction boundaries at most two instructions apart. This holds for any data device, with halts and debug reads.
- `pipeline_refines`: with halt_req low, any instruction memory, any initial data memory and any two grant schedules,
  both logs are prefixes of the sequential ones at every cycle.
-/
import FpgaLearning.ArxCore.Invariant

namespace FpgaLearning.ArxCore

open FpgaLearning.Memory

section
variable {σ : Type*} {imem : Word → Word} {D : Device σ} {d : σ} {s : System σ} {w : Window}

/-! ## Logs as cuts of the sequential run -/

theorem Inv.accesses_cut (h : Inv imem D d s w) :
    ∃ j, s.accesses = Sequential.accesses imem D d j ∧ w.toWb ≤ j ∧ j ≤ w.toWb + 1 := by
  cases h.mem with
  | empty hw hx hown hd => exact ⟨_, hd.log, le_refl _, by omega⟩
  | waiting hw hx hack hd => exact ⟨_, hd.log, le_refl _, by omega⟩
  | acked hw hx hack hown hdata hd => exact ⟨_, hd.log, by omega, le_refl _⟩
  | done hw hx hown hd => exact ⟨_, hd.log, by omega, le_refl _⟩

/-- both logs are whole numbers of sequential steps -/
theorem Inv.cut (h : Inv imem D d s w) :
    ∃ j, s.commits = Sequential.commits imem D d w.retired ∧ s.accesses = Sequential.accesses imem D d j ∧
      w.retired ≤ j ∧ j ≤ w.retired + 2 := by
  obtain ⟨j, hj, h1, h2⟩ := h.accesses_cut
  have := h.wb_le
  exact ⟨j, h.commits, hj, by omega, by omega⟩

variable (imem D d) in
theorem run_cut (c : Core) (romBus ramBus : Word) (e : ℕ → Cycle)
    (he : ∀ n, DebugReads (System.run imem D c d romBus ramBus e n) (e n)) (n : ℕ) :
    ∃ i j, (System.run imem D c d romBus ramBus e n).commits = Sequential.commits imem D d i ∧
      (System.run imem D c d romBus ramBus e n).accesses = Sequential.accesses imem D d j ∧ i ≤ j ∧ j ≤ i + 2 := by
  obtain ⟨j, hj⟩ := (run_inv imem D d c romBus ramBus e he n).cut
  exact ⟨_, j, hj⟩

/-! ## Runs without halts -/

variable (imem D d) in
/-- without halt requests the core is never asked to halt -/
theorem haltReqIn_eq_false (c : Core) (romBus ramBus : Word) {e : ℕ → Cycle} (hhalt : ∀ n, (e n).haltReq = false)
    (n : ℕ) : (System.run imem D c d romBus ramBus e n).core.haltReqIn = false :=
  Clocked.run_inv (fun s : System σ => s.core.haltReqIn = false) (fun _ i => i.haltReq = false) rfl
    (fun s i hs hi => by simp [System.next, Core.next, System.pins, hs, hi]) hhalt n

theorem Core.mIsHalted_eq_false {c : Core} (h : c.haltReqIn = false) : c.mIsHalted = false := by
  simp [Core.mIsHalted, InsnDecodeStage.haltAckOut, h]

variable (imem D d) in
/-- a core that never halts shows no debug request to the RAM port -/
theorem debugReads_of_no_halt (c : Core) (romBus ramBus : Word) {e : ℕ → Cycle} (hhalt : ∀ n, (e n).haltReq = false)
    (n : ℕ) : DebugReads (System.run imem D c d romBus ramBus e n) (e n) := by
  intro hm
  rw [Core.mIsHalted_eq_false (haltReqIn_eq_false imem D d c romBus ramBus hhalt n)] at hm
  cases hm

end

/-- **Pipeline refinement.** At every cycle the committed register writes and the served loads and stores are prefixes
of those of the machine that executes one instruction at a time. -/
theorem pipeline_refines (imem : Word → Word) (m : WordMem) (c : Core) (romBus ramBus : Word) (e : ℕ → Cycle)
    (hhalt : ∀ n, (e n).haltReq = false) (n : ℕ) :
    ∃ k, (System.run imem wordDevice c m romBus ramBus e n).commits <+: Sequential.commits imem wordDevice m k ∧
      (System.run imem wordDevice c m romBus ramBus e n).accesses <+: Sequential.accesses imem wordDevice m k := by
  obtain ⟨i, j, hc, ha, hij, -⟩ := run_cut imem wordDevice m c romBus ramBus e
    (debugReads_of_no_halt imem wordDevice m c romBus ramBus hhalt) n
  refine ⟨j, ?_, ?_⟩
  · rw [hc]; exact Sequential.commits_prefix imem wordDevice m hij
  · rw [ha]

/-! ## A run -/

/-- `addi x1, x1, 5`, then `sw x1, 0(x0)`, then `beq x0, x0, -8` -/
def demoProgram (a : Word) : Word :=
  if a = 0 then 0x00508093 else if a = 4 then 0x00102023 else if a = 8 then 0xFE000CE3 else 0

/-- registers at arbitrary values before reset -/
def demoCore : Core where
  fs := ⟨.halt, 7, 7, true, 7⟩
  id := ⟨true, 7, 7, fun _ => 7, fun _ => 3⟩
  ex := ⟨7, 7, 7, 7, 7, .regImm, true, true, true, .loadByte, true, true, true, ⟨true, 7, true⟩,
    ⟨⟨true, 7⟩, ⟨7, ⟨7, 7, 7, true, true⟩, true, 7⟩⟩⟩
  mem := ⟨true, 7, 7, 7, 7, true, true, true, 7, true, .loadByte⟩
  wb := ⟨true, true, true, 7, 7, 7, 7⟩
  haltReqIn := true
  halted := true

/-- both ports serve whatever they see -/
def demoCycle : Cycle := ⟨true, true, 0, 0, false, false, false, ⟨0, 0, false, 0⟩⟩

theorem pipeline_refines_demo :
    ((System.run demoProgram wordDevice demoCore (fun _ => 0) 0 0 (fun _ => demoCycle) 20).commits = [(1, 5), (1, 10)] ∧
      (System.run demoProgram wordDevice demoCore (fun _ => 0) 0 0 (fun _ => demoCycle) 20).accesses =
        [.store 0 5 15, .store 0 10 15]) ∧
    ∃ k, (System.run demoProgram wordDevice demoCore (fun _ => 0) 0 0 (fun _ => demoCycle) 20).commits <+:
        Sequential.commits demoProgram wordDevice (fun _ => 0) k ∧
      (System.run demoProgram wordDevice demoCore (fun _ => 0) 0 0 (fun _ => demoCycle) 20).accesses <+:
        Sequential.accesses demoProgram wordDevice (fun _ => 0) k :=
  ⟨by decide +kernel, pipeline_refines demoProgram (fun _ => 0) demoCore 0 0 (fun _ => demoCycle) (fun _ => rfl) 20⟩

end FpgaLearning.ArxCore
