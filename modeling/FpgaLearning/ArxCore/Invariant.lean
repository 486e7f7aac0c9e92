/-
The pipeline invariant: the in-flight instructions are a window of the sequential run.

`Window` counts how many instructions have left each stage; stage by stage the instruction held is the one with that
index in the run of `Sequential`. `Inv` says this of every stage, of the scoreboard, of the RAM port with the access of the
memory stage, and of the front end, which is on the right path unless a taken branch is still in the execute stage.

- `Inv.init`: after reset the window is empty.
- `Inv.next`: one clock edge keeps the invariant, with the window moved by the three handshakes.

Halting and debug reads are part of the step; the only thing asked of the environment is that a debug request which
reaches the RAM port is a read (`DebugReads`).
-/
import FpgaLearning.ArxCore.StageLemmas

namespace FpgaLearning.ArxCore

open FpgaLearning.Memory

/-! ## The window of in-flight instructions -/

/-- how many instructions have committed, and have been handed to write-back, to the memory stage and to execute -/
structure Window where
  retired : ℕ
  toWb : ℕ
  toMem : ℕ
  issued : ℕ
deriving DecidableEq, Repr

/-- write-back always retires what it holds; the other stages move by their handshakes -/
def Window.next (w : Window) (c : Core) : Window where
  retired := w.toWb
  toWb := w.toWb + c.memFire.toNat
  toMem := w.toMem + c.exFire.toNat
  issued := w.issued + c.idFire.toNat

section
variable {σ : Type*} (imem : Word → Word) (D : Device σ) (d : σ)

namespace Sequential

/-- instruction `n` of the run, with its operands -/
abbrev insnAt (n : ℕ) : IdOut := insn imem (state imem D d n)

/-- the word the data device answers instruction `n` with -/
abbrev dataAt (n : ℕ) : Word := busData imem D (state imem D d n)

/-- instruction `n` writes register `r` -/
def writes (r : BitVec 5) (n : ℕ) : Prop := (insnAt imem D d n).d.regWrite = true ∧ (insnAt imem D d n).rd = r

instance (r : BitVec 5) : DecidablePred (writes imem D d r) := fun _ => inferInstanceAs (Decidable (_ ∧ _))

/-- registers without a writer between `n` and `m` are the same before both -/
theorem regs_eq_of_count (r : BitVec 5) {n m : ℕ} (hnm : n ≤ m)
    (h : Nat.count (writes imem D d r) m = Nat.count (writes imem D d r) n) :
    (state imem D d m).regs r = (state imem D d n).regs r := by
  induction hnm with
  | refl => rfl
  | @step m hnm ih =>
    have hmono := Nat.count_monotone (writes imem D d r) hnm
    rw [Nat.count_succ] at h
    split_ifs at h with hw
    · omega
    · rw [← ih (by omega)]
      exact step_regs_of_ne imem D _ r hw

end Sequential

open FpgaLearning.ArxCore.Sequential

/-! ## The invariant -/

inductive WbAt (x : WriteBackStage.St) (w : Window) : Prop
  | empty (hw : w.toWb = w.retired) (hv : x.validInInternal = false)
  | holds (hw : w.toWb = w.retired + 1)
      (hx : WriteBackStage.Holds x (insnAt imem D d w.retired) (dataAt imem D d w.retired))

inductive ExAt (x : ExecStage.St) (w : Window) : Prop
  | empty (hw : w.issued = w.toMem) (hx : ExecStage.Empty x)
  | holds (hw : w.issued = w.toMem + 1) (hx : ExecStage.Holds x (insnAt imem D d w.toMem))

/-- the data device and the access log are those of the sequential run before step `n` -/
structure DevAt (s : System σ) (n : ℕ) : Prop where
  dev : s.ram.dev = (state imem D d n).dev
  log : s.accesses = accesses imem D d n

/-- the memory stage together with the RAM port -/
inductive MemAt (s : System σ) (w : Window) : Prop
  | empty (hw : w.toMem = w.toWb) (hx : MemStage.Empty s.core.mem) (hown : s.ram.ack = true → s.ramOwner = true)
      (hd : DevAt imem D d s w.toWb)
  | waiting (hw : w.toMem = w.toWb + 1) (hx : MemStage.Waiting s.core.mem (insnAt imem D d w.toWb))
      (hack : s.ram.ack = false) (hd : DevAt imem D d s w.toWb)
  | acked (hw : w.toMem = w.toWb + 1) (hx : MemStage.Waiting s.core.mem (insnAt imem D d w.toWb))
      (hack : s.ram.ack = true) (hown : s.ramOwner = false)
      (hdata : (insnAt imem D d w.toWb).memVal s.ram.data = (insnAt imem D d w.toWb).memVal (dataAt imem D d w.toWb))
      (hd : DevAt imem D d s (w.toWb + 1))
  | done (hw : w.toMem = w.toWb + 1)
      (hx : MemStage.Done s.core.mem (insnAt imem D d w.toWb) (dataAt imem D d w.toWb))
      (hown : s.ram.ack = true → s.ramOwner = true) (hd : DevAt imem D d s (w.toWb + 1))

/-- decode and fetch hold the instructions from `pc` on -/
structure FrontAt (c : Core) (pc : Word) : Prop where
  held : c.id.mValid = true → c.id.mPc = pc ∧ c.id.mInsn = imem pc ∧ InsnFetch.fetchTarget c.fs = pc + 4
  free : c.id.mValid = false → InsnFetch.fetchTarget c.fs = pc

/-- a taken branch waits in the execute stage -/
def Redirecting (w : Window) : Prop := w.toMem < w.issued ∧ (insnAt imem D d w.toMem).taken = true

structure Inv (s : System σ) (w : Window) : Prop where
  regs : s.core.id.regs = (state imem D d w.retired).regs
  wb : WbAt imem D d s.core.wb w
  mem : MemAt imem D d s w
  ex : ExAt imem D d s.core.ex w
  /-- the scoreboard counts the writers in flight -/
  used : ∀ r, (s.core.id.mUsedReg r).toNat + Nat.count (writes imem D d r) w.retired =
    Nat.count (writes imem D d r) w.issued
  front : ¬ Redirecting imem D d w → FrontAt imem s.core (state imem D d w.issued).pc
  /-- behind a taken branch the front end has run on -/
  wrongPath : Redirecting imem D d w → FrontAt imem s.core ((state imem D d w.toMem).pc + 4)
  fetch : InsnFetch.Inv imem s.core.fs s.romAck s.romData
  commits : s.commits = Sequential.commits imem D d w.retired

/-- what the environment promises: a debug request on the RAM port is a read -/
def DebugReads (s : System σ) (e : Cycle) : Prop :=
  s.core.mIsHalted = true → e.debugReq = true → e.debug.we = false

variable {imem D d} {s : System σ} {w : Window}

/-! ## Handshakes under the invariant -/

theorem Inv.wb_le (h : Inv imem D d s w) : w.retired ≤ w.toWb ∧ w.toWb ≤ w.retired + 1 := by
  cases h.wb <;> omega

theorem Inv.mem_le (h : Inv imem D d s w) : w.toWb ≤ w.toMem ∧ w.toMem ≤ w.toWb + 1 := by
  cases h.mem <;> omega

theorem Inv.ex_le (h : Inv imem D d s w) : w.toMem ≤ w.issued ∧ w.issued ≤ w.toMem + 1 := by
  cases h.ex <;> omega

/-- a handshake out of the execute stage hands over the instruction it holds -/
theorem Inv.exFire (h : Inv imem D d s w) (hf : s.core.exFire = true) :
    w.issued = w.toMem + 1 ∧ ExecStage.out s.core.ex = ExecStage.exOut (insnAt imem D d w.toMem) ∧
      s.core.haltReqIn = false ∧ s.core.memReadyIn = true := by
  simp only [Core.exFire, Bool.and_eq_true] at hf
  cases h.ex with
  | empty hw hx => rw [hx.validOut] at hf; exact absurd hf.1 (by decide)
  | holds hw hx =>
    rw [hx.validOut, Bool.and_eq_true, Bool.not_eq_true'] at hf
    exact ⟨hw, hx.out hf.1.2, hf.1.1, hf.2⟩

/-- the redirect is the handover of a taken branch -/
theorem Inv.pcWe (h : Inv imem D d s w) :
    s.core.pcWe = ((insnAt imem D d w.toMem).taken && s.core.exFire) ∧
      (s.core.pcWe = true → s.core.pcBranch = (insnAt imem D d w.toMem).target) := by
  cases h.ex with
  | empty hw hx => simp [Core.pcWe, Core.exFire, hx.pcWeOut, hx.validOut]
  | holds hw hx =>
    refine ⟨?_, fun _ => hx.pcBranchOut⟩
    simp [Core.pcWe, Core.exFire, hx.pcWeOut, hx.validOut, Bool.and_assoc]

/-- the execute stage accepts when it is empty or hands over -/
theorem Inv.exReadyIn (h : Inv imem D d s w) :
    s.core.exReadyIn = if w.issued = w.toMem then !s.core.haltReqIn else s.core.exFire := by
  cases h.ex with
  | empty hw hx => simp [Core.exReadyIn, hx.readyIn, hw]
  | holds hw hx => simp [Core.exReadyIn, Core.exFire, hx.readyIn, hx.validOut, hw]

/-- nothing is issued behind a taken branch -/
theorem Inv.not_redirecting (h : Inv imem D d s w) (hf : s.core.idFire = true) : ¬ Redirecting imem D d w := by
  rintro ⟨hlt, ht⟩
  simp only [Core.idFire, Bool.and_eq_true] at hf
  have hready := hf.2
  rw [h.exReadyIn, if_neg (by omega)] at hready
  have hwe : s.core.pcWe = true := by rw [h.pcWe.1, ht, hready]; rfl
  simp [InsnDecodeStage.validOut, hwe] at hf

/-- **Operands.** What the decode stage issues is the next instruction of the run with its operands. -/
theorem Inv.idFire (h : Inv imem D d s w) (hf : s.core.idFire = true) :
    InsnDecodeStage.out s.core.id = insnAt imem D d w.issued := by
  have hfront := h.front (h.not_redirecting hf)
  simp only [Core.idFire, InsnDecodeStage.validOut, Bool.and_eq_true, Bool.not_eq_true', Bool.if_false_right,
    beq_iff_eq] at hf
  obtain ⟨⟨-, hv, hu1, hu2⟩, -⟩ := hf
  obtain ⟨hpc, hinsn, -⟩ := hfront.held hv
  have hle : w.retired ≤ w.issued := by
    have := h.wb_le; have := h.mem_le; have := h.ex_le; omega
  have hreg : ∀ r, s.core.id.mUsedReg r = 0 →
      s.core.id.regs r = (state imem D d w.issued).regs r := by
    intro r hr
    have hc := h.used r
    rw [hr] at hc
    rw [h.regs, regs_eq_of_count imem D d r hle (by simpa using hc.symm)]
  rw [hinsn] at hu1 hu2
  simp only [InsnDecodeStage.out, insnAt, insn, hinsn, hpc, hreg _ hu1, hreg _ hu2]

/-- an issued instruction enters an execute stage that is empty or emptied at the same edge -/
theorem Inv.toMem_of_idFire (h : Inv imem D d s w) (hf : s.core.idFire = true) :
    (w.next s.core).toMem = w.issued := by
  simp only [Core.idFire, Bool.and_eq_true] at hf
  have hready := hf.2
  rw [h.exReadyIn] at hready
  cases h.ex with
  | empty hw hx => simp [Window.next, Core.exFire, hx.validOut, hw]
  | holds hw hx => rw [if_neg (by omega)] at hready; simp [Window.next, hready, hw]

/-! ## One clock edge, stage by stage -/

theorem Inv.next_wb (h : Inv imem D d s w) (e : Cycle) :
    WbAt imem D d (s.next imem D e).core.wb (w.next s.core) := by
  have hidle : MemStage.validOut s.core.mem s.core.haltReqIn = false →
      WbAt imem D d (s.next imem D e).core.wb (w.next s.core) := fun hv =>
    .empty (by simp [Window.next, Core.memFire, hv]) (by simp [System.next, Core.next, hv, WriteBackStage.next_empty])
  cases h.mem with
  | empty hw hx => exact hidle (hx.validOut _)
  | waiting hw hx => exact hidle (hx.validOut _)
  | acked hw hx => exact hidle (hx.validOut _)
  | done hw hx =>
    cases hh : s.core.haltReqIn
    · refine .holds (by simp [Window.next, Core.memFire, hx.validOut, hh, WriteBackStage.readyIn]) ?_
      simp only [System.next, Core.next, hx.validOut, hh, Bool.not_false]
      exact WriteBackStage.next_accept _ hx (decode_memToReg _)
    · exact hidle (by rw [hx.validOut, hh]; rfl)

variable (imem D) in
/-- without a request of the memory stage the RAM port serves at most a debug read -/
theorem System.ram_quiet (hq : s.core.mem.memRequest = false) {e : Cycle} (he : DebugReads s e) :
    (s.next imem D e).ram.dev = s.ram.dev ∧ (s.next imem D e).accesses = s.accesses ∧
      ((s.next imem D e).ram.ack = true → (s.next imem D e).ramOwner = true) := by
  cases hm : s.core.mIsHalted
  · simp [System.next, Port.next, Port.served, Core.ramReq, hm, MemStage.memReqOut, hq]
  · cases hr : (e.debugReq && e.ramGrant)
    · simp [System.next, Port.next, Core.ramReq, hm, System.pins, hr]
    · simp only [Bool.and_eq_true] at hr
      have hw := D.read_pure s.ram.dev e.debug (he hm hr.1)
      simp [System.next, Port.next, Core.ramReq, Core.ramOut, hm, System.pins, hr, hw]

theorem DevAt.next_quiet {n : ℕ} (h : DevAt imem D d s n) (hq : s.core.mem.memRequest = false) {e : Cycle}
    (he : DebugReads s e) : DevAt imem D d (s.next imem D e) n := by
  obtain ⟨h1, h2, -⟩ := System.ram_quiet imem D hq he
  exact ⟨h1.trans h.dev, h2.trans h.log⟩

/-- an instruction without memory operation moves neither device nor log -/
theorem DevAt.skip {n : ℕ} (h : DevAt imem D d s n) (hm : (insnAt imem D d n).d.memOp = false) :
    DevAt imem D d s (n + 1) := by
  refine ⟨?_, ?_⟩
  · rw [h.dev]; exact (step_dev_of_not_memOp imem D _ hm).symm
  · rw [h.log]; simp [accesses, access, hm]

/-- the memory stage, empty or handing over, with `n` the index of the next instruction to enter it -/
theorem Inv.next_mem_free (h : Inv imem D d s w) {e : Cycle} (he : DebugReads s e)
    (hq : s.core.mem.memRequest = false) (hd : DevAt imem D d s w.toMem)
    (hw : w.toMem = w.toWb + s.core.memFire.toNat)
    (hfree : s.core.exFire = false → MemStage.Empty (s.next imem D e).core.mem) :
    MemAt imem D d (s.next imem D e) (w.next s.core) := by
  have hd' := hd.next_quiet hq he
  have hown := (System.ram_quiet imem D hq he).2.2
  have htoWb : (w.next s.core).toWb = w.toMem := by simp [Window.next, hw]
  cases hx : s.core.exFire
  · exact .empty (by simp [Window.next, hx, hw]) (hfree hx) hown (by rwa [htoWb])
  · obtain ⟨-, hout, hhalt, hready⟩ := h.exFire hx
    have hvalid : ExecStage.validOut s.core.ex s.core.haltReqIn = true := by
      simp only [Core.exFire, Bool.and_eq_true] at hx; exact hx.1
    have hto : (w.next s.core).toMem = (w.next s.core).toWb + 1 := by simp [Window.next, hx, hw]
    have hacc := MemStage.next_accept (insnAt imem D d w.toMem) (dataAt imem D d w.toMem) (s.core.memAckIn (s.pins e))
      (s.core.memDataIn (s.pins e)) hready hq
    have hmem : (s.next imem D e).core.mem = MemStage.next s.core.mem s.core.haltReqIn true WriteBackStage.readyIn
        (ExecStage.exOut (insnAt imem D d w.toMem)) (s.core.memAckIn (s.pins e)) (s.core.memDataIn (s.pins e)) := by
      simp only [System.next, Core.next, hvalid, hout]
    rw [← hmem, ← htoWb] at hacc
    rw [← htoWb] at hd'
    have hnh : s.core.mIsHalted = false := by simp [Core.mIsHalted, hhalt, InsnDecodeStage.haltAckOut]
    have hack : (s.next imem D e).ram.ack = false := by
      simp [System.next, Port.next, Core.ramReq, hnh, MemStage.memReqOut, hq]
    cases hm : (insnAt imem D d (w.next s.core).toWb).d.memOp
    · rw [ExecStage.exOut_memOp, hm] at hacc
      exact .done hto hacc hown (hd'.skip hm)
    · rw [ExecStage.exOut_memOp, hm] at hacc
      exact .waiting hto hacc hack hd'

theorem Inv.next_mem (h : Inv imem D d s w) {e : Cycle} (he : DebugReads s e) :
    MemAt imem D d (s.next imem D e) (w.next s.core) := by
  cases h.mem with
  | empty hw hx hown hd =>
    have hf : s.core.memFire = false := by simp [Core.memFire, hx.validOut]
    refine h.next_mem_free he hx.quiet (hw ▸ hd) (by simp [hw, hf]) fun hf => ?_
    exact MemStage.next_empty hx _ _ hf
  | waiting hw hx hack hd =>
    have hf : s.core.memFire = false := by simp [Core.memFire, hx.validOut]
    have hxf : s.core.exFire = false := by simp [Core.exFire, Core.memReadyIn, hx.readyIn]
    have hnh : s.core.mIsHalted = false := by
      simp [Core.mIsHalted, MemStage.haltAckOut, hx.valid, hx.dataValid]
    have hreq : s.core.ramReq (s.pins e) = true := by
      simp [Core.ramReq, hnh, MemStage.memReqOut, hx.request, Core.memAckIn, System.pins, hack]
    have hout : s.core.ramOut (s.pins e) = (insnAt imem D d w.toWb).memReq := by
      simp [Core.ramOut, hnh, hx.memOut]
    have hop : (insnAt imem D d w.toWb).d.memOp = true := hx.memOp
    have hx' : MemStage.Waiting (s.next imem D e).core.mem (insnAt imem D d w.toWb) := by
      have := MemStage.next_waiting hx s.core.haltReqIn (ExecStage.validOut s.core.ex s.core.haltReqIn)
        WriteBackStage.readyIn (ExecStage.out s.core.ex) (s.core.memDataIn (s.pins e))
      simpa [System.next, Core.next, Core.memAckIn, hnh, System.pins, hack] using this
    have hwb : (w.next s.core).toWb = w.toWb := by simp [Window.next, hf]
    have hmem : (w.next s.core).toMem = (w.next s.core).toWb + 1 := by simp [Window.next, hf, hxf, hw]
    cases hg : e.ramGrant
    · refine .waiting hmem (hwb ▸ hx') (by simp [System.next, Port.next, hg]) ?_
      rw [hwb]
      refine ⟨?_, ?_⟩
      · simp [System.next, Port.next, hg, hd.dev]
      · simp [System.next, Port.served, hg, hd.log]
    · refine .acked hmem (hwb ▸ hx') (by simp [System.next, Port.next, hreq, hg]) (by simp [System.next, hnh]) ?_ ?_
      · rw [hwb]
        cases hwe : (insnAt imem D d w.toWb).memReq.we
        · simp [System.next, Port.next, hreq, hg, hout, hd.dev, busData, hwe]
        · exact IdOut.memVal_store hwe _ _
      · rw [hwb]
        refine ⟨?_, ?_⟩
        · simp [System.next, Port.next, hreq, hg, hout, hd.dev, state, Sequential.step, hop]
        · simp [System.next, Port.served, hreq, hg, hout, hd.dev, hd.log, hnh, accesses, access, hop, busData]
  | acked hw hx hack hown hdata hd =>
    have hf : s.core.memFire = false := by simp [Core.memFire, hx.validOut]
    have hxf : s.core.exFire = false := by simp [Core.exFire, Core.memReadyIn, hx.readyIn]
    have hnh : s.core.mIsHalted = false := by
      simp [Core.mIsHalted, MemStage.haltAckOut, hx.valid, hx.dataValid]
    have hreq : s.core.ramReq (s.pins e) = false := by
      simp [Core.ramReq, hnh, MemStage.memReqOut, Core.memAckIn, System.pins, hack]
    have hwb : (w.next s.core).toWb = w.toWb := by simp [Window.next, hf]
    refine .done (by simp [Window.next, hf, hxf, hw]) ?_ (by simp [System.next, Port.next, hreq]) ?_
    · have := MemStage.next_ack hx s.core.haltReqIn (ExecStage.validOut s.core.ex s.core.haltReqIn)
        WriteBackStage.readyIn (ExecStage.out s.core.ex) hdata
      rw [hwb]
      simpa [System.next, Core.next, Core.memAckIn, Core.memDataIn, hnh, System.pins, hack] using this
    · rw [hwb]
      refine ⟨?_, ?_⟩
      · simp [System.next, Port.next, hreq, hd.dev]
      · simp [System.next, Port.served, hreq, hd.log]
  | done hw hx hown hd =>
    cases hh : s.core.haltReqIn
    · have hf : s.core.memFire = true := by simp [Core.memFire, hx.validOut, hh, WriteBackStage.readyIn]
      refine h.next_mem_free he hx.quiet (hw ▸ hd) (by simp [hw, hf]) fun hxf => ?_
      have hready : s.core.memReadyIn = true := by simp [Core.memReadyIn, hx.readyIn, hh, WriteBackStage.readyIn]
      have hv : ExecStage.validOut s.core.ex false = false := by simpa [Core.exFire, hready, hh] using hxf
      simp only [System.next, Core.next, hh, hv]
      exact MemStage.next_drain hx _ _ rfl
    · have hf : s.core.memFire = false := by simp [Core.memFire, hx.validOut, hh]
      have hxf : s.core.exFire = false := by simp [Core.exFire, Core.memReadyIn, hx.readyIn, hh]
      have hwb : (w.next s.core).toWb = w.toWb := by simp [Window.next, hf]
      refine .done (by simp [Window.next, hf, hxf, hw]) ?_ (System.ram_quiet imem D hx.quiet he).2.2 ?_
      · rw [hwb]
        exact MemStage.next_done hx _ _ (by rw [hh]; rfl)
      · rw [hwb]
        exact hd.next_quiet hx.quiet he

theorem Inv.next_ex (h : Inv imem D d s w) (e : Cycle) :
    ExAt imem D d (s.next imem D e).core.ex (w.next s.core) := by
  cases hi : s.core.idFire
  · have hfire : (ExecStage.readyIn s.core.ex s.core.haltReqIn s.core.memReadyIn &&
        InsnDecodeStage.validOut s.core.id s.core.pcWe s.core.haltReqIn) = false := by
      rw [Bool.and_comm]; exact hi
    cases h.ex with
    | empty hw hx =>
      have hf : s.core.exFire = false := by simp [Core.exFire, hx.validOut]
      exact .empty (by simp [Window.next, hf, hi, hw]) (ExecStage.next_empty hx _ hfire)
    | holds hw hx =>
      cases hf : s.core.exFire
      · refine .holds (by simp [Window.next, hf, hi, hw]) ?_
        have hto : (w.next s.core).toMem = w.toMem := by simp [Window.next, hf]
        rw [hto]
        exact ExecStage.next_keep hx _ (by simpa [Core.exFire, hx.validOut] using hf)
      · refine .empty (by simp [Window.next, hf, hi, hw]) ?_
        have hk : (!s.core.haltReqIn && ExecStage.done s.core.ex && s.core.memReadyIn) = true := by
          simpa [Core.exFire, hx.validOut] using hf
        have hv : InsnDecodeStage.validOut s.core.id s.core.pcWe s.core.haltReqIn = false := by
          rw [hx.readyIn, hk, Bool.true_and] at hfire; exact hfire
        simp only [System.next, Core.next, hv]
        exact ExecStage.next_drain hx _ hk
  · have hvr := hi
    simp only [Core.idFire, Bool.and_eq_true] at hvr
    have hto := h.toMem_of_idFire hi
    refine .holds (by rw [hto]; simp [Window.next, hi]) ?_
    rw [hto, ← h.idFire hi]
    simp only [System.next, Core.next, hvr.1]
    exact ExecStage.next_issue _ _ hvr.2 (decode_unit _)

theorem Inv.next_regs (h : Inv imem D d s w) (e : Cycle) :
    (s.next imem D e).core.id.regs = (state imem D d (w.next s.core).retired).regs := by
  simp only [System.next, Core.next, InsnDecodeStage.next, Window.next, h.regs]
  cases h.wb with
  | empty hw hv => simp [WriteBackStage.regWriteOut, hv, RegisterFile.write, hw]
  | holds hw hx => rw [hw, hx.rd, hx.regWrite, hx.res]; rfl

theorem Inv.next_commits (h : Inv imem D d s w) (e : Cycle) :
    (s.next imem D e).commits = Sequential.commits imem D d (w.next s.core).retired := by
  simp only [System.next, System.commitNow, Window.next, h.commits]
  cases h.wb with
  | empty hw hv => simp [WriteBackStage.regWriteOut, hv, hw]
  | holds hw hx => rw [hw, hx.rd, hx.regWrite, hx.res]; rfl

theorem count_le_add_sub (p : ℕ → Prop) [DecidablePred p] {n m : ℕ} (h : n ≤ m) :
    Nat.count p m ≤ Nat.count p n + (m - n) := by
  obtain ⟨k, rfl⟩ := Nat.exists_eq_add_of_le h
  rw [Nat.count_add, Nat.add_sub_cancel_left]
  exact Nat.add_le_add_left (Nat.count_le _) _

theorem Inv.next_used (h : Inv imem D d s w) {e : Cycle} (he : DebugReads s e) (r : BitVec 5) :
    ((s.next imem D e).core.id.mUsedReg r).toNat + Nat.count (writes imem D d r) (w.next s.core).retired =
      Nat.count (writes imem D d r) (w.next s.core).issued := by
  have hused := h.used r
  have hwb := h.wb_le
  have hmem := h.mem_le
  have hex := h.ex_le
  -- the window after the edge is at most three wide
  have hwidth : (w.next s.core).issued ≤ w.toWb + 3 := by
    have h1 : (w.next s.core).toMem ≤ (w.next s.core).toWb + 1 := by cases h.next_mem he <;> omega
    have h2 : (w.next s.core).issued ≤ (w.next s.core).toMem + 1 := by cases h.next_ex e <;> omega
    have h3 : (w.next s.core).toWb ≤ w.toWb + 1 := by
      simp only [Window.next]; have := Bool.toNat_le s.core.memFire; omega
    omega
  have hretired : Nat.count (writes imem D d r) w.toWb = Nat.count (writes imem D d r) w.retired +
      if WriteBackStage.regWriteOut s.core.wb = true ∧ WriteBackStage.rdOut s.core.wb = r then 1 else 0 := by
    cases h.wb with
    | empty hw hv => simp [hw, WriteBackStage.regWriteOut, hv]
    | holds hw hx => rw [hw, Nat.count_succ, hx.regWrite, hx.rd]; rfl
  have hissued : Nat.count (writes imem D d r) (w.next s.core).issued = Nat.count (writes imem D d r) w.issued +
      if (s.core.idFire && (InsnDecodeStage.out s.core.id).d.regWrite) = true ∧ (InsnDecodeStage.out s.core.id).rd = r
      then 1 else 0 := by
    cases hi : s.core.idFire
    · simp [Window.next, hi]
    · rw [h.idFire hi]
      simp only [Window.next, hi, Bool.toNat_true, Nat.count_succ, Bool.true_and]; rfl
  have hle : Nat.count (writes imem D d r) w.toWb ≤ Nat.count (writes imem D d r) w.issued :=
    Nat.count_monotone _ (by omega)
  have hroom := count_le_add_sub (writes imem D d r) (n := w.toWb) (m := (w.next s.core).issued)
    (by simp only [Window.next]; omega)
  have hstep := InsnDecodeStage.nextUsedReg_toNat s.core.id.mUsedReg (WriteBackStage.rdOut s.core.wb)
    (WriteBackStage.regWriteOut s.core.wb) (InsnDecodeStage.out s.core.id).rd
    (s.core.idFire && (InsnDecodeStage.out s.core.id).d.regWrite) r
    (fun hr => by rw [if_pos hr] at hretired; omega)
    (fun hi hr => by rw [if_neg hr] at hretired; rw [if_pos hi] at hissued; omega)
  have hnext : (s.next imem D e).core.id.mUsedReg r = InsnDecodeStage.nextUsedReg s.core.id.mUsedReg
      (WriteBackStage.rdOut s.core.wb) (WriteBackStage.regWriteOut s.core.wb) (InsnDecodeStage.out s.core.id).rd
      (s.core.idFire && (InsnDecodeStage.out s.core.id).d.regWrite) r := rfl
  have hw : (w.next s.core).retired = w.toWb := rfl
  rw [hnext, hw]
  omega

/-- decode and fetch together move past an issued instruction, and otherwise stay -/
theorem FrontAt.next {pc : Word} (h : FrontAt imem s.core pc) (hf : InsnFetch.Inv imem s.core.fs s.romAck s.romData)
    (hwe : s.core.pcWe = false) (e : Cycle) :
    FrontAt imem (s.next imem D e).core (if s.core.idFire then pc + 4 else pc) := by
  set fire := s.core.fsFire (s.pins e) with hfire
  have hhalt : s.core.haltReqIn = true → s.core.idReadyIn = false := by
    intro hh
    simp [Core.idReadyIn, InsnDecodeStage.readyIn, hh]
  have htarget : InsnFetch.fetchTarget (s.next imem D e).core.fs =
      if fire then InsnFetch.fetchTarget s.core.fs + 4 else InsnFetch.fetchTarget s.core.fs := by
    have := InsnFetch.next_fetchTarget hf s.core.haltReqIn s.core.idReadyIn s.core.pcWe s.core.pcBranch hhalt
    rw [hwe] at this
    simp only [Bool.false_eq_true, ite_false] at this
    simp only [System.next, Core.next, hfire, Core.fsFire, Core.fetch, System.pins, hwe]
    exact this
  have hvalid : (s.next imem D e).core.id.mValid =
      if fire then true else if s.core.idFire then false else s.core.id.mValid := by
    simp [System.next, Core.next, InsnDecodeStage.next, hwe, hfire, Core.fsFire, Core.idReadyIn, Core.idFire]
  have hdelivered : fire = true → (s.next imem D e).core.id.mPc = InsnFetch.fetchTarget s.core.fs ∧
      (s.next imem D e).core.id.mInsn = imem (InsnFetch.fetchTarget s.core.fs) := by
    intro hfi
    obtain ⟨h1, h2⟩ := InsnFetch.fire hf s.core.haltReqIn s.core.idReadyIn s.core.pcWe hfi
    have hb : (InsnFetch.validOut (s.core.fetch (s.pins e)) s.core.haltReqIn &&
        InsnDecodeStage.readyIn s.core.id s.core.pcWe s.core.haltReqIn s.core.exReadyIn) = true := hfi
    simp only [System.next, Core.next, InsnDecodeStage.next, hb, ite_true]
    exact ⟨h1, h2⟩
  have hkept : fire = false → (s.next imem D e).core.id.mPc = s.core.id.mPc ∧
      (s.next imem D e).core.id.mInsn = s.core.id.mInsn := by
    intro hfi
    have hb : (InsnFetch.validOut (s.core.fetch (s.pins e)) s.core.haltReqIn &&
        InsnDecodeStage.readyIn s.core.id s.core.pcWe s.core.haltReqIn s.core.exReadyIn) = false := hfi
    simp [System.next, Core.next, InsnDecodeStage.next, hb]
  cases hv : s.core.id.mValid
  · have hidle : s.core.idFire = false := by simp [Core.idFire, InsnDecodeStage.validOut, hv]
    have hpc := h.free hv
    rw [hidle]
    cases hb : fire
    · exact ⟨fun hn => by simp [hvalid, hb, hidle, hv] at hn, fun _ => by simp [htarget, hb, hpc]⟩
    · refine ⟨fun _ => ⟨?_, ?_, ?_⟩, fun hn => by simp [hvalid, hb] at hn⟩
      · simp [hdelivered hb, hpc]
      · simp [hdelivered hb, hpc]
      · simp [htarget, hb, hpc]
  · obtain ⟨hpc, hinsn, hnext⟩ := h.held hv
    cases hi : s.core.idFire
    · have hb : fire = false := by
        have hready : s.core.idReadyIn = false := by
          simp only [Core.idFire] at hi
          simp [Core.idReadyIn, InsnDecodeStage.readyIn, hv, hi]
        rw [hfire, Core.fsFire, hready, Bool.and_false]
      refine ⟨fun _ => ⟨?_, ?_, ?_⟩, fun hn => by simp [hvalid, hb, hi, hv] at hn⟩
      · simp [hkept hb, hpc]
      · simp [hkept hb, hinsn]
      · simp [htarget, hb, hnext]
    · cases hb : fire
      · exact ⟨fun hn => by simp [hvalid, hb, hi] at hn, fun _ => by simp [htarget, hb, hnext]⟩
      · refine ⟨fun _ => ⟨?_, ?_, ?_⟩, fun hn => by simp [hvalid, hb] at hn⟩
        · simp [hdelivered hb, hnext]
        · simp [hdelivered hb, hnext]
        · simp [htarget, hb, hnext]

theorem state_succ_pc (n : ℕ) :
    (state imem D d (n + 1)).pc = if (insnAt imem D d n).taken then (insnAt imem D d n).target
      else (state imem D d n).pc + 4 := rfl

theorem Inv.pcWe_eq_false (h : Inv imem D d s w) (hr : ¬ Redirecting imem D d w) : s.core.pcWe = false := by
  rw [h.pcWe.1]
  cases hx : s.core.exFire
  · simp
  · cases ht : (insnAt imem D d w.toMem).taken
    · rfl
    · exact absurd ⟨by have := (h.exFire hx).1; omega, ht⟩ hr

theorem Inv.next_front (h : Inv imem D d s w) (e : Cycle) (hn : ¬ Redirecting imem D d (w.next s.core)) :
    FrontAt imem (s.next imem D e).core (state imem D d (w.next s.core).issued).pc := by
  obtain ⟨hwe, hbranch⟩ := h.pcWe
  by_cases hr : Redirecting imem D d w
  · -- the taken branch is handed over: decode is flushed and fetch redirected to its target
    have hi : s.core.idFire = false := by
      cases hi : s.core.idFire
      · rfl
      · exact absurd hr (h.not_redirecting hi)
    have hx : s.core.exFire = true := by
      cases hx : s.core.exFire
      · exact absurd (by simpa [Redirecting, Window.next, hx, hi] using hr) hn
      · rfl
    have hissued := (h.exFire hx).1
    rw [hr.2, hx] at hwe
    have hidx : (w.next s.core).issued = w.toMem + 1 := by simp [Window.next, hi, hissued]
    have htarget := InsnFetch.next_fetchTarget h.fetch s.core.haltReqIn s.core.idReadyIn s.core.pcWe s.core.pcBranch
      (fun hh => by simp [Core.idReadyIn, InsnDecodeStage.readyIn, hh])
    rw [hidx, state_succ_pc, hr.2, if_pos rfl]
    constructor
    · intro hv
      simp [System.next, Core.next, InsnDecodeStage.next, hwe, InsnDecodeStage.readyIn] at hv
    · intro _
      rw [hwe] at htarget hbranch
      rw [← hbranch rfl]
      simpa [System.next, Core.next, Core.fetch, System.pins, hwe] using htarget
  · have hfront := (h.front hr).next (D := D) h.fetch (h.pcWe_eq_false hr) e
    cases hi : s.core.idFire
    · simpa [hi, Window.next] using hfront
    · -- the instruction issued now is not a taken branch, so the next one follows it
      have hnt : (insnAt imem D d w.issued).taken = false := by
        cases ht : (insnAt imem D d w.issued).taken
        · rfl
        · have hto := h.toMem_of_idFire hi
          have hissued : (w.next s.core).issued = w.issued + 1 := by simp [Window.next, hi]
          exact absurd ⟨by omega, by rw [hto]; exact ht⟩ hn
      rw [hi] at hfront
      simpa [hi, Window.next, state_succ_pc, hnt] using hfront

theorem Inv.next_wrongPath (h : Inv imem D d s w) (e : Cycle) (hn : Redirecting imem D d (w.next s.core)) :
    FrontAt imem (s.next imem D e).core ((state imem D d (w.next s.core).toMem).pc + 4) := by
  have hle := h.ex_le
  by_cases hr : Redirecting imem D d w
  · -- the branch has not left the execute stage
    have hi : s.core.idFire = false := by
      cases hi : s.core.idFire
      · rfl
      · exact absurd hr (h.not_redirecting hi)
    have hx : s.core.exFire = false := by
      cases hx : s.core.exFire
      · rfl
      · have := (h.exFire hx).1
        have hlt := hn.1
        simp only [Window.next, hx, hi, Bool.toNat_true, Bool.toNat_false] at hlt
        omega
    have hwe : s.core.pcWe = false := by rw [h.pcWe.1, hx, Bool.and_false]
    have hfront := (h.wrongPath hr).next (D := D) h.fetch hwe e
    rw [hi] at hfront
    simpa [Window.next, hx] using hfront
  · -- it has just been issued
    have hi : s.core.idFire = true := by
      cases hi : s.core.idFire
      · refine absurd ?_ hr
        have hx : s.core.exFire = false := by
          cases hx : s.core.exFire
          · rfl
          · have := (h.exFire hx).1
            have hlt := hn.1
            simp only [Window.next, hx, hi, Bool.toNat_true, Bool.toNat_false] at hlt
            omega
        simpa [Redirecting, Window.next, hi, hx] using hn
      · rfl
    have hfront := (h.front hr).next (D := D) h.fetch (h.pcWe_eq_false hr) e
    rw [hi] at hfront
    rw [h.toMem_of_idFire hi]
    exact hfront

/-! ## The invariant along runs -/

theorem Inv.init (c : Core) (romBus ramBus : Word) :
    Inv imem D d (System.init c d romBus ramBus) ⟨0, 0, 0, 0⟩ where
  regs := rfl
  wb := .empty rfl rfl
  mem := .empty rfl ⟨rfl, rfl⟩ (fun h => by simp [System.init] at h) ⟨rfl, rfl⟩
  ex := .empty rfl ⟨rfl, rfl, rfl, rfl⟩
  used _ := rfl
  front _ := ⟨fun h => by simp [System.init, Core.reset, InsnDecodeStage.reset] at h, fun _ => rfl⟩
  wrongPath hr := absurd hr.1 (lt_irrefl 0)
  fetch := ⟨fun h => by simp [System.init] at h,
    fun h => by simp [System.init, Core.reset, InsnFetch.reset] at h,
    by simp [System.init, Core.reset, InsnFetch.reset]⟩
  commits := rfl

/-- **Step.** One clock edge moves the window by the handshakes of the cycle. -/
theorem Inv.next (h : Inv imem D d s w) {e : Cycle} (he : DebugReads s e) :
    Inv imem D d (s.next imem D e) (w.next s.core) where
  regs := h.next_regs e
  wb := h.next_wb e
  mem := h.next_mem he
  ex := h.next_ex e
  used := h.next_used he
  front := h.next_front e
  wrongPath := h.next_wrongPath e
  fetch := InsnFetch.next_inv h.fetch s.core.pcBranch e.romBus
  commits := h.next_commits e

/-- the window after `n` clock edges -/
def System.window (imem : Word → Word) (D : Device σ) (c : Core) (d : σ) (romBus ramBus : Word) (e : ℕ → Cycle) :
    ℕ → Window
  | 0 => ⟨0, 0, 0, 0⟩
  | n + 1 => (window imem D c d romBus ramBus e n).next (System.run imem D c d romBus ramBus e n).core

variable (imem D d) in
/-- **Run.** Every reachable state satisfies the invariant. -/
theorem run_inv (c : Core) (romBus ramBus : Word) (e : ℕ → Cycle)
    (he : ∀ n, DebugReads (System.run imem D c d romBus ramBus e n) (e n)) (n : ℕ) :
    Inv imem D d (System.run imem D c d romBus ramBus e n) (System.window imem D c d romBus ramBus e n) := by
  induction n with
  | zero => exact Inv.init c romBus ramBus
  | succ n ih => exact ih.next (he n)

/-! ## What the fetch unit requests -/

variable (imem D d) in
/-- an address at most two words past an instruction of the run -/
def NearPc (a : Word) : Prop :=
  ∃ k, a = (state imem D d k).pc ∨ a = (state imem D d k).pc + 4 ∨ a = (state imem D d k).pc + 4 + 4

theorem Inv.fetchTarget_near (h : Inv imem D d s w) : NearPc imem D d (InsnFetch.fetchTarget s.core.fs) := by
  by_cases hr : Redirecting imem D d w
  · have hfront := h.wrongPath hr
    cases hv : s.core.id.mValid
    · exact ⟨w.toMem, .inr (.inl (hfront.free hv))⟩
    · exact ⟨w.toMem, .inr (.inr (hfront.held hv).2.2)⟩
  · have hfront := h.front hr
    cases hv : s.core.id.mValid
    · exact ⟨w.issued, .inl (hfront.free hv)⟩
    · exact ⟨w.issued, .inr (.inl (hfront.held hv).2.2)⟩

variable (imem D d) in
theorem run_pc_near (c : Core) (romBus ramBus : Word) (e : ℕ → Cycle)
    (he : ∀ n, DebugReads (System.run imem D c d romBus ramBus e n) (e n)) (n : ℕ) :
    NearPc imem D d (System.run imem D c d romBus ramBus e n).core.fs.pc := by
  induction n with
  | zero => exact ⟨0, .inl rfl⟩
  | succ n ih =>
    have htarget := (run_inv imem D d c romBus ramBus e he (n + 1)).fetchTarget_near
    cases hb : (System.run imem D c d romBus ramBus e (n + 1)).core.fs.pcWeBuf
    · rwa [InsnFetch.fetchTarget, hb, if_neg (by decide)] at htarget
    · have hpc := InsnFetch.next_pc_of_pending hb
      exact hpc ▸ ih

variable (imem D d) in
/-- **Requested addresses.** The fetch unit never asks for more than two words past the program. -/
theorem run_romAddr_near (c : Core) (romBus ramBus : Word) (e : ℕ → Cycle)
    (he : ∀ n, DebugReads (System.run imem D c d romBus ramBus e n) (e n)) (n : ℕ)
    (hreq : (System.run imem D c d romBus ramBus e n).romReq (e n) = true) :
    NearPc imem D d ((System.run imem D c d romBus ramBus e n).core.romAddr
      ((System.run imem D c d romBus ramBus e n).pins (e n))) := by
  have hpc : (System.run imem D c d romBus ramBus e (n + 1)).core.fs.pc =
      (System.run imem D c d romBus ramBus e n).core.romAddr ((System.run imem D c d romBus ramBus e n).pins (e n)) :=
    (InsnFetch.next_request hreq _ _).2
  rw [← hpc]
  exact run_pc_near imem D d c romBus ramBus e he (n + 1)

end

end FpgaLearning.ArxCore
