/-
Pausing the clock enable of the RISC-V system: whole runs.

- `rel_run`: a run of clean cycles is a run of the core behind its two ports.
- `fair_of_enabled`: with the clock enable always high the ports serve every request within two cycles.
- `pause_transparent`: a paused run of clean cycles commits and writes prefixes of what the never paused run does.
- `pause_not_transparent`: with a single paused cycle that is not clean, the core executes an instruction twice.
-/
import FpgaLearning.Bus.Pause

namespace FpgaLearning.Bus

open FpgaLearning.Memory FpgaLearning.ArxCore MemoryInterconnect

namespace Top

section
variable (rom : BitVec 16 → Word) (rdw : Word → MemReq → Word) (code : Word → Word) (c : Core) (ram : RamWords)
  (romData ramData : Word) (clkEn : ℕ → Bool)

/-- the program, run one instruction at a time, never loads from the timer -/
def TimerFree : Prop :=
  ∀ k, (Sequential.insnAt (insnMem rom code) (device rom rdw) (ram, 0) k).d.memOp = true →
    (Sequential.insnAt (insnMem rom code) (device rom rdw) (ram, 0) k).memReq.we = false →
    region (Sequential.insnAt (insnMem rom code) (device rom rdw) (ram, 0) k).memReq.addr = some .periph →
    masked .periph (Sequential.insnAt (insnMem rom code) (device rom rdw) (ram, 0) k).memReq.addr ≠ 4

/-- the grants and bus words that the run gives the ports -/
def grants (n : ℕ) : Cycle := schedule (run rom rdw c ram romData ramData clkEn (n + 1))

/-- the core behind two ports with these grants -/
abbrev portRun (n : ℕ) : System Dev :=
  System.run (insnMem rom code) (device rom rdw) c (ram, 0) 0 0 (grants rom rdw c ram romData ramData clkEn) n

end

variable {rom : BitVec 16 → Word} {rdw : Word → MemReq → Word} {code : Word → Word} {c : Core} {ram : RamWords}
  {romData ramData : Word} {clkEn : ℕ → Bool}

/-! ## A clean run -/

/-- a request on the data port is the memory operation of an instruction of the program -/
theorem Rel.noTimerRead {t : Top} {s : System Dev} {w : Window} (h : Rel t s) (hhalt : t.core.haltReqIn = false)
    (hinv : Inv (insnMem rom code) (device rom rdw) (ram, 0) s w) (ht : TimerFree rom rdw code ram) :
    NoTimerRead t := by
  intro hreq hwe
  obtain ⟨hr, hreg⟩ := (slaveReq_iff _ _).1 hreq
  have hnh : t.core.mIsHalted = false := Core.mIsHalted_eq_false hhalt
  have hmr : t.core.mem.memRequest = true := by
    have hq : (t.core.mem.memRequest && !t.core.memAckIn t.ackPins) = true := by
      simpa [masters, Core.ramReq, hnh, MemStage.memReqOut] using hr
    exact (Bool.and_eq_true_iff.1 hq).1
  have hwaiting : ∀ {i : IdOut}, MemStage.Waiting s.core.mem i → (t.masters .master1).r = i.memReq := by
    intro i hx
    have hout := hx.memOut
    rw [h.core] at hout
    simp [masters, Core.ramOut, hnh, hout]
  rw [← h.core] at hmr
  cases hinv.mem with
  | empty hw hx => rw [hx.quiet] at hmr; cases hmr
  | waiting hw hx =>
    rw [hwaiting hx] at hwe hreg ⊢
    exact ht w.toWb hx.memOp hwe hreg
  | acked hw hx =>
    rw [hwaiting hx] at hwe hreg ⊢
    exact ht w.toWb hx.memOp hwe hreg
  | done hw hx => rw [hx.quiet] at hmr; cases hmr

theorem portRun_haltReqIn (n : ℕ) : (portRun rom rdw code c ram romData ramData clkEn n).core.haltReqIn = false :=
  haltReqIn_eq_false (insnMem rom code) (device rom rdw) (ram, 0) c 0 0 (fun _ => rfl) n

theorem portRun_debugReads (n : ℕ) : DebugReads (portRun rom rdw code c ram romData ramData clkEn n)
    (grants rom rdw c ram romData ramData clkEn n) :=
  debugReads_of_no_halt (insnMem rom code) (device rom rdw) (ram, 0) c 0 0 (fun _ => rfl) n

theorem rel_next {n : ℕ} (hclean : Clean rdw code (run rom rdw c ram romData ramData clkEn n) (clkEn n))
    (ht : TimerFree rom rdw code ram)
    (h : Rel (run rom rdw c ram romData ramData clkEn n) (portRun rom rdw code c ram romData ramData clkEn n))
    (hf : slaveReq .periph ((run rom rdw c ram romData ramData clkEn (n + 1)).masters .master2) = false) :
    Rel (run rom rdw c ram romData ramData clkEn (n + 1)) (portRun rom rdw code c ram romData ramData clkEn (n + 1)) := by
  have hhalt : (run rom rdw c ram romData ramData clkEn n).core.haltReqIn = false := by
    rw [← h.core]; exact portRun_haltReqIn n
  have hinv := run_inv (insnMem rom code) (device rom rdw) (ram, 0) c 0 0
    (grants rom rdw c ram romData ramData clkEn) portRun_debugReads n
  exact h.next hhalt (run_portInv c 0 0 _ n) hclean (h.noTimerRead hhalt hinv ht) hf

/-- **Simulation.** A run of clean cycles is a run of the core behind its ports. -/
theorem rel_run (hclean : ∀ n, Clean rdw code (run rom rdw c ram romData ramData clkEn n) (clkEn n))
    (ht : TimerFree rom rdw code ram) (n : ℕ) :
    Rel (run rom rdw c ram romData ramData clkEn n) (portRun rom rdw code c ram romData ramData clkEn n) := by
  induction n with
  | zero => exact Rel.init c ram romData ramData
  | succ n ih => exact rel_next (hclean n) ht ih (hclean (n + 1)).fetch.no_periph

/-! ## Requests are kept -/

variable {t : Top} {b : Bool}

variable (rom rdw) in
/-- the data port repeats a request that is not acknowledged -/
theorem load_kept (hhalt : t.core.haltReqIn = false)
    (hpending : t.core.mem.memRequest = true → t.core.mem.validInInternal = true ∧ t.core.mem.memDataValid = false)
    (hreq : (t.masters .master1).req = true) (hack : masterAck (t.next rom rdw b).fabric.ic .master1 = false) :
    (t.next rom rdw b).masters .master1 = t.masters .master1 := by
  have hnh : t.core.mIsHalted = false := Core.mIsHalted_eq_false hhalt
  have hhalt' : (t.next rom rdw b).core.haltReqIn = false := by
    simp [Top.next, Core.next, Top.pins, ackPins, hhalt]
  have hnh' : (t.next rom rdw b).core.mIsHalted = false := Core.mIsHalted_eq_false hhalt'
  have hq : (t.core.mem.memRequest && !t.core.memAckIn t.ackPins) = true := by
    simpa [masters, Core.ramReq, hnh, MemStage.memReqOut] using hreq
  rw [Bool.and_eq_true, Bool.not_eq_true'] at hq
  obtain ⟨hv, hd⟩ := hpending hq.1
  have hout : MemStage.memOut (t.next rom rdw b).core.mem = MemStage.memOut t.core.mem :=
    MemStage.next_memOut hv hd _ _ _ _ _ _
  have hmr : (t.next rom rdw b).core.mem.memRequest = true := by
    have hnext : (t.next rom rdw b).core.mem.memRequest = !t.core.memAckIn t.ackPins :=
      (MemStage.next_pending hq.1 hv hd _ _ _ _ _ _).1
    rw [hnext, hq.2]; rfl
  have hreq' : (t.next rom rdw b).core.ramReq (t.next rom rdw b).ackPins = true := by
    simp [Core.ramReq, hnh', MemStage.memReqOut, hmr, Core.memAckIn, ackPins, hack]
  have hr : t.core.ramReq t.ackPins = true := hreq
  simp [masters, hreq', hr, Core.ramOut, hnh, hnh', hout]

/-! ## The run that is never paused -/

variable (t) in
theorem noStaleAck_true : NoStaleAck t true := nofun

/-- with the clock enabled, a kept request is acknowledged within two cycles -/
theorem not_starved {T : ℕ → Top} (hstep : ∀ n, T (n + 1) = (T n).next rom rdw true) (m : Master)
    (hkept : ∀ n, ((T n).masters m).req = true → masterAck (T (n + 1)).fabric.ic m = false →
      (T (n + 1)).masters m = (T n).masters m) (n : ℕ) :
    ¬ ∀ k, n ≤ k → ((T k).masters m).req = true ∧ masterAck (T (k + 1)).fabric.ic m = false := by
  intro h
  obtain ⟨hr, hack⟩ := h n (le_refl n)
  obtain ⟨-, hack'⟩ := h (n + 1) (by omega)
  have hlost : ¬ Wins (T n).fabric.ic (T n).masters m := by
    intro hw
    have := MemoryInterconnect.masterAck_next.2 hw
    rw [hstep] at hack
    exact Bool.noConfusion (hack.symm.trans this)
  have hwins : Wins (T (n + 1)).fabric.ic (T (n + 1)).masters m := by
    have := wins_next hr hlost (hkept n hr hack)
    rwa [hstep] at this ⊢
  have hacked := MemoryInterconnect.masterAck_next.2 hwins
  rw [hstep (n + 1)] at hack'
  exact Bool.noConfusion (hack'.symm.trans hacked)

theorem rel_run_enabled
    (hfetch : ∀ n, FetchStable rdw code (run rom rdw c ram romData ramData (fun _ => true) n) true)
    (ht : TimerFree rom rdw code ram) (n : ℕ) :
    Rel (run rom rdw c ram romData ramData (fun _ => true) n)
      (portRun rom rdw code c ram romData ramData (fun _ => true) n) :=
  rel_run (fun n => ⟨noStaleAck_true _, hfetch n⟩) ht n

theorem fair_of_enabled
    (hfetch : ∀ n, FetchStable rdw code (run rom rdw c ram romData ramData (fun _ => true) n) true)
    (ht : TimerFree rom rdw code ram) :
    FairPorts (portRun rom rdw code c ram romData ramData fun _ => true)
      (grants rom rdw c ram romData ramData fun _ => true) := by
  have hrel := rel_run_enabled hfetch ht
  have hpins : ∀ n, (portRun rom rdw code c ram romData ramData (fun _ => true) n).pins
      (grants rom rdw c ram romData ramData (fun _ => true) n) =
        (run rom rdw c ram romData ramData (fun _ => true) n).pins := fun n => (hrel n).pins _
  constructor
  · intro n h
    refine not_starved (T := run rom rdw c ram romData ramData fun _ => true) (fun _ => rfl) .master2
      (fun k hr hack => fetch_kept hr hack) n fun k hk => ?_
    obtain ⟨hreq, hgrant⟩ := h k hk
    rw [System.romReq, hpins, (hrel k).core] at hreq
    exact ⟨hreq, hgrant⟩
  · intro n h
    refine not_starved (T := run rom rdw c ram romData ramData fun _ => true) (fun _ => rfl) .master1
      (fun k hr hack => load_kept rom rdw ?_ ?_ hr hack) n fun k hk => ?_
    · rw [← (hrel k).core]; exact portRun_haltReqIn k
    · rw [← (hrel k).core]; exact (run_portInv c 0 0 _ k).pending
    · obtain ⟨hreq, hgrant⟩ := h k hk
      rw [System.ramReq, hpins, (hrel k).core] at hreq
      exact ⟨hreq, hgrant⟩

/-! ## Programs in the ROM -/

variable (rom rdw code ram) in
/-- the program, with the two words behind each instruction, lies in the ROM -/
def InRom : Prop := ∀ a, NearPc (insnMem rom code) (device rom rdw) (ram, 0) a → region a = some .rom

/-- the fetch unit of the system asks for what the one behind the port asks for -/
theorem masters_fetch {t : Top} {s : System Dev} (hcore : s.core = t.core)
    (hack : s.romAck = masterAck t.fabric.ic .master2) (e : Cycle) :
    t.masters .master2 = ⟨s.romReq e, ⟨s.core.romAddr (s.pins e), 0, false, 0⟩⟩ := by
  simp only [masters, System.romReq, Core.romReq, Core.romAddr, Core.fetch, ackPins, System.pins, hcore, hack]

theorem fetchStable_of_region {t : Top} {b : Bool}
    (h : (t.masters .master2).req = true → region (t.masters .master2).r.addr = some .rom) : FetchStable rdw code t b := by
  have hno : ∀ sl, sl ≠ .rom → slaveReq sl (t.masters .master2) = false := by
    intro sl hsl
    rw [Bool.eq_false_iff, Ne, slaveReq_iff]
    rintro ⟨hr, hreg⟩
    rw [h hr] at hreg
    exact hsl (Option.some.inj hreg).symm
  refine ⟨hno .periph (by decide), fun _ hr => ?_⟩
  rw [hno .ram (by decide)] at hr
  cases hr

/-- a program in the ROM needs no promise about its fetches -/
theorem fetchStable_of_inRom (hrom : InRom rom rdw code ram) (ht : TimerFree rom rdw code ram)
    (hs : ∀ n, NoStaleAck (run rom rdw c ram romData ramData clkEn n) (clkEn n)) (n : ℕ) :
    FetchStable rdw code (run rom rdw c ram romData ramData clkEn n) (clkEn n) := by
  have hfetch : ∀ n, (portRun rom rdw code c ram romData ramData clkEn n).core =
        (run rom rdw c ram romData ramData clkEn n).core →
      (portRun rom rdw code c ram romData ramData clkEn n).romAck =
        masterAck (run rom rdw c ram romData ramData clkEn n).fabric.ic .master2 →
      FetchStable rdw code (run rom rdw c ram romData ramData clkEn n) (clkEn n) := by
    intro n hcore hack
    have hm := masters_fetch hcore hack (grants rom rdw c ram romData ramData clkEn n)
    refine fetchStable_of_region fun hr => hrom _ ?_
    rw [hm] at hr ⊢
    exact run_romAddr_near _ _ _ c 0 0 _ portRun_debugReads n hr
  have hrel : Rel (run rom rdw c ram romData ramData clkEn n) (portRun rom rdw code c ram romData ramData clkEn n) := by
    induction n with
    | zero => exact Rel.init c ram romData ramData
    | succ n ih =>
      obtain ⟨h1, h2⟩ := ih.next_core (hs n) (insnMem rom code)
      exact rel_next ⟨hs n, hfetch n ih.core ih.romAck⟩ ht ih (hfetch (n + 1) h1 h2).no_periph
  exact hfetch n hrel.core hrel.romAck

/-! ## Transparency -/

/-- the committed register writes and the RAM writes of `t` are prefixes of those of `t'` -/
def WritesPrefix (t t' : Top) : Prop := t.commits <+: t'.commits ∧ t.ramWrites <+: t'.ramWrites

/-- **A clean pause is transparent.** The paused run meets only clean cycles, and the run that is never paused fetches
the same `code` from RAM. -/
theorem pause_transparent (rom : BitVec 16 → Word) (rdw : Word → MemReq → Word) (code : Word → Word) (c : Core)
    (ram : RamWords) (romData ramData : Word) (clkEn : ℕ → Bool) (ht : TimerFree rom rdw code ram)
    (hclean : ∀ n, Clean rdw code (run rom rdw c ram romData ramData clkEn n) (clkEn n))
    (hfetch : ∀ n, FetchStable rdw code (run rom rdw c ram romData ramData (fun _ => true) n) true) (n : ℕ) :
    ∃ k, WritesPrefix (run rom rdw c ram romData ramData clkEn n)
      (run rom rdw c ram romData ramData (fun _ => true) k) := by
  obtain ⟨k, hcommits, haccesses⟩ := logs_prefix portRun_debugReads (fun _ => rfl) (fair_of_enabled hfetch ht) n
  have hpaused := rel_run hclean ht n
  have hfree := rel_run_enabled hfetch ht k
  refine ⟨k, ?_, ?_⟩
  · rw [← hpaused.commits, ← hfree.commits]
    exact hcommits
  · rw [hpaused.writes, hfree.writes]
    exact haccesses.filterMap ramWrite

/-! ## A pause that is not -/

/-- `addi x1, x1, 1`, then `addi x2, x2, 1`, `addi x3, x3, 1` and `jal x0, 0` for ever -/
def stepsProgram (w : BitVec 16) : Word :=
  if w = 0 then 0x00108093 else if w = 1 then 0x00110113 else if w = 2 then 0x00118193 else 0x0000006F

def writtenOnly (held : Word) (_ : MemReq) : Word := held

/-- clock enable low in the cycles of `p` -/
def pausedIn (p : List ℕ) (n : ℕ) : Bool := !p.contains n

theorem nextPc_of_add {i : IdOut} (hj : i.d.pcJumpEn = false) (ho : i.d.aluOp = .add) : i.nextPc = i.pc + 4 := by
  simp [IdOut.nextPc, IdOut.taken, IdOut.branchEn, IALU.mBranchEn, hj, ho]

theorem nextPc_of_jump {i : IdOut} (hj : i.d.pcJumpEn = true) (ht : i.d.pcAddrType = .pcImm) :
    i.nextPc = i.pc + i.d.imm := by
  simp [IdOut.nextPc, IdOut.taken, IdOut.target, hj, ht]

/-- the pcs of the program -/
theorem stepsProgram_pc (k : ℕ) :
    (Sequential.state (insnMem stepsProgram fun _ => 0) (device stepsProgram writtenOnly) (fun _ => 0, 0) k).pc ∈
      [0, 4, 8, 12] := by
  induction k with
  | zero => decide
  | succ k ih =>
    set q := Sequential.state (insnMem stepsProgram fun _ => 0) (device stepsProgram writtenOnly) (fun _ => 0, 0) k
    have hd : ∀ a, q.pc = a → (Sequential.insn (insnMem stepsProgram fun _ => 0) q).d =
        decode (insnMem stepsProgram (fun _ => 0) a) := fun a ha => by rw [Sequential.insn, ha]
    show (Sequential.insn (insnMem stepsProgram fun _ => 0) q).nextPc ∈ _
    simp only [List.mem_cons, List.not_mem_nil, or_false] at ih
    rcases ih with h | h | h | h
    · rw [nextPc_of_add (by rw [hd 0 h]; decide) (by rw [hd 0 h]; decide)]
      rw [show (Sequential.insn (insnMem stepsProgram fun _ => 0) q).pc = 0 from h]
      decide
    · rw [nextPc_of_add (by rw [hd 4 h]; decide) (by rw [hd 4 h]; decide)]
      rw [show (Sequential.insn (insnMem stepsProgram fun _ => 0) q).pc = 4 from h]
      decide
    · rw [nextPc_of_add (by rw [hd 8 h]; decide) (by rw [hd 8 h]; decide)]
      rw [show (Sequential.insn (insnMem stepsProgram fun _ => 0) q).pc = 8 from h]
      decide
    · rw [nextPc_of_jump (by rw [hd 12 h]; decide) (by rw [hd 12 h]; decide), hd 12 h]
      rw [show (Sequential.insn (insnMem stepsProgram fun _ => 0) q).pc = 12 from h]
      decide

theorem stepsProgram_inRom : InRom stepsProgram writtenOnly (fun _ => 0) fun _ => 0 := by
  rintro a ⟨k, hk⟩
  have hpc := stepsProgram_pc k
  generalize (Sequential.state _ _ _ k).pc = pc at hk hpc
  simp only [List.mem_cons, List.not_mem_nil, or_false] at hpc
  rcases hpc with rfl | rfl | rfl | rfl <;> rcases hk with rfl | rfl | rfl <;> decide

theorem stepsProgram_timerFree : TimerFree stepsProgram writtenOnly (fun _ => 0) fun _ => 0 := by
  intro k hop
  have hpc := stepsProgram_pc k
  have hno : ∀ a ∈ ([0, 4, 8, 12] : List Word), (decode (insnMem stepsProgram (fun _ => 0) a)).memOp = false := by
    intro a ha
    simp only [List.mem_cons, List.not_mem_nil, or_false] at ha
    rcases ha with rfl | rfl | rfl | rfl <;> decide
  exact Bool.noConfusion (hop.symm.trans (hno _ hpc))

/-- the clock enable is low while the first instruction is fetched -/
theorem pause_transparent_demo :
    (run stepsProgram writtenOnly demoCore (fun _ => 0) 0 0 (pausedIn [1, 2, 3]) 12).commits = [(1, 1)] ∧
    ∃ k, WritesPrefix (run stepsProgram writtenOnly demoCore (fun _ => 0) 0 0 (pausedIn [1, 2, 3]) 12)
      (run stepsProgram writtenOnly demoCore (fun _ => 0) 0 0 (fun _ => true) k) := by
  have hstale : ∀ n, NoStaleAck (run stepsProgram writtenOnly demoCore (fun _ => 0) 0 0 (pausedIn [1, 2, 3]) n)
      (pausedIn [1, 2, 3] n) := by
    -- nothing has been granted before cycle 4
    have hidle : ∀ n ∈ [1, 2, 3], ∀ sl,
        portAck (run stepsProgram writtenOnly demoCore (fun _ => 0) 0 0 (pausedIn [1, 2, 3]) n).fabric.ic sl = false := by
      intro n hn sl
      simp only [List.mem_cons, List.not_mem_nil, or_false] at hn
      rcases hn with rfl | rfl | rfl <;> cases sl <;> decide +kernel
    intro n hn m sl _ hack
    have hmem : n ∈ [1, 2, 3] := by simpa only [pausedIn, Bool.not_eq_false', List.contains_iff_mem] using hn
    rw [hidle n hmem sl] at hack
    cases hack
  refine ⟨by decide +kernel, pause_transparent stepsProgram writtenOnly (fun _ => 0) demoCore (fun _ => 0) 0 0
    (pausedIn [1, 2, 3]) stepsProgram_timerFree (fun n => ⟨hstale n, ?_⟩) (fun n => ?_) 12⟩
  · exact fetchStable_of_inRom stepsProgram_inRom stepsProgram_timerFree hstale n
  · exact fetchStable_of_inRom stepsProgram_inRom stepsProgram_timerFree (fun n => noStaleAck_true _) n

/-- **A pause is not transparent in general**: with the clock enable low in cycle 2 only, the first instruction is
executed twice. -/
theorem pause_not_transparent : ¬ ∀ (rom : BitVec 16 → Word) (rdw : Word → MemReq → Word) (c : Core) (ram : RamWords)
    (romData ramData : Word) (clkEn : ℕ → Bool),
    TimerFree rom rdw (fun a => (topRam rdw).read ram (masked .ram a)) ram → ∀ n, ∃ k,
      WritesPrefix (run rom rdw c ram romData ramData clkEn n) (run rom rdw c ram romData ramData (fun _ => true) k) := by
  intro h
  obtain ⟨k, hk, -⟩ := h stepsProgram writtenOnly demoCore (fun _ => 0) 0 0 (pausedIn [2]) stepsProgram_timerFree 11
  have hpaused : (run stepsProgram writtenOnly demoCore (fun _ => 0) 0 0 (pausedIn [2]) 11).commits = [(1, 1), (1, 2)] := by
    decide +kernel
  have hfree : (run stepsProgram writtenOnly demoCore (fun _ => 0) 0 0 (fun _ => true) 11).commits = [(1, 1), (2, 1)] := by
    decide +kernel
  have hlog : ∀ {i j : ℕ}, i ≤ j →
      (run stepsProgram writtenOnly demoCore (fun _ => 0) 0 0 (fun _ => true) i).commits <+:
        (run stepsProgram writtenOnly demoCore (fun _ => 0) 0 0 (fun _ => true) j).commits :=
    fun hij => Clocked.log_prefix Top.commits (fun _ _ => List.prefix_append _ _) hij
  rw [hpaused] at hk
  rcases le_total k 11 with hle | hle
  · have hno := hk.trans (hlog hle)
    rw [hfree] at hno
    exact absurd hno (by decide)
  · have hno := hlog hle
    rw [hfree] at hno
    exact absurd (List.prefix_of_prefix_length_le hk hno (by decide)) (by decide)

end Top

end FpgaLearning.Bus
