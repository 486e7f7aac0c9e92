/-
Halting: it only delays the program, and while the core is halted the RAM port belongs to the debugger.

- `PortInv`: a request of the memory stage and the acknowledge on the RAM port always agree about whose it is. It needs
  no promise of the debugger, which may also write.
- `Isolated`: what this gives in one cycle, the cycles in which `m_is_halted` rises or falls included.
- `System.haltRank`: how far a core that has been asked to halt is from it.
- `halting_transparent`: with any halt and resume pulses and read-only debugging, commits and accesses are prefixes of
  those of the same program run without halts, and every cycle is isolated.
-/
import FpgaLearning.ArxCore.Progress

namespace FpgaLearning.ArxCore

open FpgaLearning.Memory

variable {σ : Type*} {imem : Word → Word} {D : Device σ} {d : σ} {s : System σ}

/-! ## Who owns the RAM port -/

structure PortInv (s : System σ) : Prop where
  pending : s.core.mem.memRequest = true → s.core.mem.validInInternal = true ∧ s.core.mem.memDataValid = false
  core_ack : s.ram.ack = true → s.ramOwner = false → s.core.mem.memRequest = true
  debug_ack : s.ram.ack = true → s.ramOwner = true → s.core.mem.memRequest = false

theorem Core.mIsHalted_iff (c : Core) : c.mIsHalted = true ↔
    c.haltReqIn = true ∧ c.fs.curState = .waitHandshake ∧
      (c.mem.memDataValid = true ∨ c.mem.validInInternal = false) := by
  cases hf : c.fs.curState <;>
    simp [Core.mIsHalted, InsnFetch.haltAckOut, hf, InsnDecodeStage.haltAckOut, ExecStage.haltAckOut,
      MemStage.haltAckOut]

/-- in a halted cycle the memory stage has no request outstanding -/
theorem PortInv.quiet (h : PortInv s) (hm : s.core.mIsHalted = true) : s.core.mem.memRequest = false := by
  obtain ⟨-, -, hq⟩ := s.core.mIsHalted_iff.1 hm
  cases hr : s.core.mem.memRequest
  · rfl
  · obtain ⟨hv, hd⟩ := h.pending hr
    rw [hv, hd] at hq
    simp at hq

/-- a stage with a request outstanding accepts nothing and keeps the request until its acknowledge -/
theorem MemStage.next_pending {m : MemStage.St} (hr : m.memRequest = true) (hv : m.validInInternal = true)
    (hd : m.memDataValid = false) (halt v r ack : Bool) (o : ExOut) (mdata : Word) :
    (MemStage.next m halt v r o ack mdata).memRequest = !ack ∧
      (MemStage.next m halt v r o ack mdata).validInInternal = true ∧
      (MemStage.next m halt v r o ack mdata).memDataValid = ack := by
  have hready : MemStage.readyIn m halt r = false := by simp [MemStage.readyIn, hv, MemStage.validOut, hd]
  have hout : MemStage.validOut m halt = false := by simp [MemStage.validOut, hd]
  cases ack <;> simp [MemStage.next, hready, hout, hr, hv, hd]

/-- and keeps what it drives on the port -/
theorem MemStage.next_memOut {m : MemStage.St} (hv : m.validInInternal = true) (hd : m.memDataValid = false)
    (halt v r ack : Bool) (o : ExOut) (mdata : Word) :
    MemStage.memOut (MemStage.next m halt v r o ack mdata) = MemStage.memOut m := by
  have hready : MemStage.readyIn m halt r = false := by simp [MemStage.readyIn, hv, MemStage.validOut, hd]
  simp [MemStage.memOut, MemStage.next, hready]

theorem PortInv.next (h : PortInv s) (e : Cycle) : PortInv (s.next imem D e) := by
  cases hm : s.core.mIsHalted
  · cases hr : s.core.mem.memRequest
    · -- nothing is requested, so nothing is acknowledged in the next cycle
      have hack : (s.next imem D e).ram.ack = false := by
        simp [System.next, Port.next, Core.ramReq, hm, MemStage.memReqOut, hr]
      have hno : ¬ (s.next imem D e).ram.ack = true := by rw [hack]; decide
      refine ⟨fun hq => ?_, fun ha => absurd ha hno, fun ha => absurd ha hno⟩
      simp only [System.next, Core.next, MemStage.next, hr, Bool.false_and, Bool.false_eq_true, ite_false] at hq ⊢
      split_ifs at hq with ht
      simp [ht, hq]
    · obtain ⟨hv, hd⟩ := h.pending hr
      have hreq : s.core.ramReq (s.pins e) = !s.ram.ack := by
        simp [Core.ramReq, hm, MemStage.memReqOut, hr, Core.memAckIn, System.pins]
      obtain ⟨h1, h2, h3⟩ := MemStage.next_pending hr hv hd s.core.haltReqIn
        (ExecStage.validOut s.core.ex s.core.haltReqIn) WriteBackStage.readyIn (s.core.memAckIn (s.pins e))
        (ExecStage.out s.core.ex) (s.core.memDataIn (s.pins e))
      have hin : s.core.memAckIn (s.pins e) = s.ram.ack := by simp [Core.memAckIn, hm, System.pins]
      rw [hin] at h1 h2 h3
      have h1' : (s.next imem D e).core.mem.memRequest = !s.ram.ack := by rw [← h1, ← hin]; rfl
      have h2' : (s.next imem D e).core.mem.validInInternal = true := by rw [← h2, ← hin]; rfl
      have h3' : (s.next imem D e).core.mem.memDataValid = s.ram.ack := by rw [← h3, ← hin]; rfl
      have hack : (s.next imem D e).ram.ack = true → s.ram.ack = false := by
        intro ha
        cases hb : s.ram.ack
        · rfl
        · simp [System.next, Port.next, hreq, hb] at ha
      refine ⟨fun hq => ⟨h2', ?_⟩, fun ha _ => by rw [h1', hack ha]; rfl, fun ha ho => ?_⟩
      · rw [h1'] at hq; rw [h3']; simpa using hq
      · simp [System.next, hm] at ho
  · -- under halt the memory stage accepts nothing
    have hr := h.quiet hm
    have hh := (s.core.mIsHalted_iff.1 hm).1
    have hq : (s.next imem D e).core.mem.memRequest = false := by
      simp [System.next, Core.next, MemStage.next, MemStage.readyIn, hh, hr]
    refine ⟨fun hn => absurd hn (by rw [hq]; decide), fun _ ho => ?_, fun _ _ => hq⟩
    simp [System.next, hm] at ho

theorem run_portInv (c : Core) (romBus ramBus : Word) (e : ℕ → Cycle) (n : ℕ) :
    PortInv (System.run imem D c d romBus ramBus e n) :=
  Clocked.run_inv PortInv (fun _ _ => True)
    ⟨fun h => by simp [System.init, Core.reset, MemStage.reset] at h, fun h => by simp [System.init] at h,
      fun h => by simp [System.init] at h⟩
    (fun _ e h _ => h.next e) (fun _ => trivial) n

/-! ## Isolation -/

/-- under halt the fetch unit keeps its word and the memory stage its state, so only a resume ends the halt -/
theorem Core.mIsHalted_next {c : Core} (hm : c.mIsHalted = true) (i : CoreIn)
    (hr : ¬ (i.resumeReq = true ∧ i.haltReq = false)) : (c.next i).mIsHalted = true := by
  obtain ⟨hh, hf, hq⟩ := c.mIsHalted_iff.1 hm
  have hwe : c.pcWe = false := by simp [Core.pcWe, ExecStage.pcWeOut, ExecStage.validOut, hh]
  have hid : c.idReadyIn = false := by simp [Core.idReadyIn, InsnDecodeStage.readyIn, hh]
  refine (c.next i).mIsHalted_iff.2 ⟨?_, ?_, ?_⟩
  · simp only [Core.next]
    cases h1 : i.haltReq
    · cases h2 : i.resumeReq
      · simp [hh]
      · exact absurd ⟨h2, h1⟩ hr
    · rfl
  · simp [Core.next, InsnFetch.next, Core.fetch, InsnFetch.comb, hf, hid, hwe]
  · rcases hq with hq | hq
    · left; simp [Core.next, MemStage.next, MemStage.readyIn, hh, hq]
    · right; simp [Core.next, MemStage.next, MemStage.readyIn, MemStage.validOut, hh, hq]

/-- what holds of one cycle, `s` before and `s'` after the clock edge -/
structure Isolated (s : System σ) (e : Cycle) (s' : System σ) : Prop where
  no_request : s.core.mIsHalted = true → s.core.mem.memRequest = false
  /-- a resume request is accepted unless a halt request comes with it -/
  stays : s.core.mIsHalted = true → ¬ (e.resumeReq = true ∧ e.haltReq = false) → s'.core.mIsHalted = true
  debug_request : s.core.mIsHalted = true → s.ramReq e = e.debugReq ∧ s.core.ramOut (s.pins e) = e.debug
  /-- the acknowledge of a debug request is not taken by the memory stage -/
  debug_ack : s.ram.ack = true → s.ramOwner = true → (s.core.mem.memRequest && s.core.memAckIn (s.pins e)) = false
  /-- the acknowledge of a request of the core is not shown to the debug port -/
  core_ack : s.ram.ack = true → s.ramOwner = false → s.core.debugAck (s.pins e) = false

theorem PortInv.isolated (h : PortInv s) (e : Cycle) : Isolated s e (s.next imem D e) where
  no_request := h.quiet
  stays hm hr := Core.mIsHalted_next hm (s.pins e) hr
  debug_request hm := by simp [System.ramReq, Core.ramReq, Core.ramOut, hm, System.pins]
  debug_ack ha ho := by rw [h.debug_ack ha ho, Bool.false_and]
  core_ack ha ho := by
    cases hm : s.core.mIsHalted
    · simp [Core.debugAck, hm]
    · have hr := h.core_ack ha ho
      rw [h.quiet hm] at hr
      cases hr

/-! ## The way to the halt -/

/-- a memory stage that waits for its data is requesting it -/
def MemStage.Consistent (m : MemStage.St) : Prop := m.memRequest = (m.validInInternal && !m.memDataValid)

theorem MemStage.Consistent.next {m : MemStage.St} (h : Consistent m) (halt v r : Bool) (o : ExOut) (ack : Bool)
    (mdata : Word) : Consistent (MemStage.next m halt v r o ack mdata) := by
  unfold Consistent at *
  cases hv : m.validInInternal <;> cases hd : m.memDataValid <;> cases ack <;> cases halt <;> cases v <;> cases r <;>
    simp [MemStage.next, MemStage.readyIn, MemStage.validOut, hv, hd, h]

/-- what a halt needs of a core: the fetch unit is alive, and the memory stage waits for nothing it has not asked for -/
structure Core.Live (c : Core) : Prop where
  fetching : c.fs.curState ≠ .halt
  mem : MemStage.Consistent c.mem

theorem Core.Live.reset (c : Core) : Live c.reset := ⟨nofun, rfl⟩

theorem InsnFetch.comb_ne_halt {f : InsnFetch.St} (h : f.curState ≠ .halt) (a r w : Bool) :
    (InsnFetch.comb f a r w).nextState ≠ .halt := by
  unfold InsnFetch.comb
  cases hs : f.curState with
  | halt => exact absurd hs h
  | idle => simp
  | fetch =>
    cases a with
    | false => simp
    | true => simp only [if_true]; split_ifs <;> simp
  | waitHandshake => simp only; split_ifs <;> simp

theorem Core.Live.next {c : Core} (h : Live c) (i : CoreIn) : Live (c.next i) :=
  ⟨InsnFetch.comb_ne_halt h.fetching _ _ _, h.mem.next _ _ _ _ _ _⟩

/-- clock edges the fetch unit of a core asked to halt still needs, if its memory answers at once -/
def InsnFetch.haltRank (f : InsnFetch.St) (ack : Bool) : ℕ :=
  match f.curState with
  | .idle => 4
  | .fetch => if ack then (if f.pcWeBuf then 2 else 1) else 3
  | _ => 0

/-- and those of its memory stage -/
def MemStage.haltRank (m : MemStage.St) (ack : Bool) : ℕ := if m.memRequest then (if ack then 1 else 2) else 0

/-- clock edges until `m_is_halted` -/
def System.haltRank (s : System σ) : ℕ :=
  InsnFetch.haltRank s.core.fs s.romAck + MemStage.haltRank s.core.mem s.ram.ack

theorem System.haltRank_le (s : System σ) : s.haltRank ≤ 6 := by
  unfold haltRank InsnFetch.haltRank MemStage.haltRank
  split <;> split_ifs <;> omega

theorem System.mIsHalted_of_haltRank (h : s.core.Live) (hh : s.core.haltReqIn = true) (hr : s.haltRank = 0) :
    s.core.mIsHalted = true := by
  obtain ⟨hf, hm⟩ : InsnFetch.haltRank s.core.fs s.romAck = 0 ∧ MemStage.haltRank s.core.mem s.ram.ack = 0 :=
    Nat.add_eq_zero_iff.1 hr
  refine s.core.mIsHalted_iff.2 ⟨hh, ?_, ?_⟩
  · cases hs : s.core.fs.curState with
    | waitHandshake => rfl
    | halt => exact absurd hs h.fetching
    | idle => simp [InsnFetch.haltRank, hs] at hf
    | fetch =>
      simp only [InsnFetch.haltRank, hs] at hf
      split_ifs at hf
  · have hreq : s.core.mem.memRequest = false := by
      by_contra hne
      simp only [MemStage.haltRank, Bool.eq_true_of_not_eq_false hne, if_true] at hm
      split_ifs at hm
    have hcons := h.mem
    unfold MemStage.Consistent at hcons
    rw [hreq] at hcons
    cases hd : s.core.mem.memDataValid with
    | true => exact .inl rfl
    | false => simpa [hd] using hcons

/-- a request that is served at once is acknowledged in the next cycle -/
theorem InsnFetch.haltRank_next {f : InsnFetch.St} (hf : f.curState ≠ .halt) (ack : Bool) (d t : Word)
    (hpos : InsnFetch.haltRank f ack ≠ 0) :
    InsnFetch.haltRank (InsnFetch.next f (InsnFetch.comb f ack false false) d false t)
      (InsnFetch.memReq (InsnFetch.comb f ack false false)) < InsnFetch.haltRank f ack := by
  cases hs : f.curState with
  | halt => exact absurd hs hf
  | waitHandshake => simp [InsnFetch.haltRank, hs] at hpos
  | idle => simp [InsnFetch.haltRank, hs, InsnFetch.next, InsnFetch.comb, InsnFetch.memReq]
  | fetch =>
    cases ack with
    | false =>
      cases hb : f.pcWeBuf <;> simp [InsnFetch.haltRank, hs, InsnFetch.next, InsnFetch.comb, InsnFetch.memReq, hb]
    | true =>
      cases hb : f.pcWeBuf <;>
        simp [InsnFetch.haltRank, hs, InsnFetch.next, InsnFetch.comb, InsnFetch.memReq, InsnFetch.pcWeInternal, hb]

theorem InsnFetch.haltRank_stay {f : InsnFetch.St} (hf : f.curState ≠ .halt) (ack ack' : Bool) (d t : Word)
    (hzero : InsnFetch.haltRank f ack = 0) :
    InsnFetch.haltRank (InsnFetch.next f (InsnFetch.comb f ack false false) d false t) ack' = 0 := by
  cases hs : f.curState with
  | halt => exact absurd hs hf
  | waitHandshake => simp [InsnFetch.haltRank, hs, InsnFetch.next, InsnFetch.comb]
  | idle => simp [InsnFetch.haltRank, hs] at hzero
  | fetch =>
    simp only [InsnFetch.haltRank, hs] at hzero
    split_ifs at hzero

/-- **Step.** A core asked to halt comes closer to it in every cycle in which its memories answer. -/
theorem System.haltRank_next (h : s.core.Live) (hh : s.core.haltReqIn = true) (hn : s.core.mIsHalted = false) {e : Cycle}
    (hrom : e.romGrant = true) (hram : e.ramGrant = true) : (s.next imem D e).haltRank < s.haltRank := by
  have hwe : s.core.pcWe = false := by simp [Core.pcWe, ExecStage.pcWeOut, ExecStage.validOut, hh]
  have hid : s.core.idReadyIn = false := by simp [Core.idReadyIn, InsnDecodeStage.readyIn, hh]
  have hfetch : s.core.fetch (s.pins e) = InsnFetch.comb s.core.fs s.romAck false false := by
    simp [Core.fetch, hwe, hid, System.pins]
  have hfs : (s.next imem D e).core.fs = InsnFetch.next s.core.fs (InsnFetch.comb s.core.fs s.romAck false false)
      s.romData false s.core.pcBranch := by
    show InsnFetch.next _ (s.core.fetch (s.pins e)) _ _ _ = _
    rw [hfetch, hwe]
    rfl
  have hromAck : (s.next imem D e).romAck = InsnFetch.memReq (InsnFetch.comb s.core.fs s.romAck false false) := by
    show (InsnFetch.memReq (s.core.fetch (s.pins e)) && e.romGrant) = _
    rw [hfetch, hrom, Bool.and_true]
  -- the memory stage accepts nothing; a request is served in one cycle and acknowledged in the next
  have hmem : MemStage.haltRank (s.next imem D e).core.mem (s.next imem D e).ram.ack =
      MemStage.haltRank s.core.mem s.ram.ack - 1 := by
    have hreq : s.core.ramReq (s.pins e) = (s.core.mem.memRequest && !s.ram.ack) := by
      simp [Core.ramReq, hn, MemStage.memReqOut, Core.memAckIn, System.pins]
    have hmemReq : (s.next imem D e).core.mem.memRequest = (s.core.mem.memRequest && !s.ram.ack) := by
      cases hr : s.core.mem.memRequest <;> cases ha : s.ram.ack <;>
        simp [System.next, Core.next, MemStage.next, MemStage.readyIn, hh, hr, Core.memAckIn, hn, System.pins, ha]
    have hack : (s.next imem D e).ram.ack = (s.core.mem.memRequest && !s.ram.ack) := by
      show (s.ram.next D (s.core.ramReq (s.pins e)) _ e.ramGrant _).ack = _
      rw [hreq, hram]
      cases s.core.mem.memRequest && !s.ram.ack <;> simp [Port.next]
    rw [MemStage.haltRank, MemStage.haltRank, hmemReq, hack]
    cases s.core.mem.memRequest <;> cases s.ram.ack <;> rfl
  rw [haltRank, haltRank, hmem, hfs, hromAck]
  by_cases hf : InsnFetch.haltRank s.core.fs s.romAck = 0
  · have hstay := InsnFetch.haltRank_stay h.fetching s.romAck
      (InsnFetch.memReq (InsnFetch.comb s.core.fs s.romAck false false)) s.romData s.core.pcBranch hf
    have hpos : s.haltRank ≠ 0 := by
      intro hz
      rw [System.mIsHalted_of_haltRank h hh hz] at hn
      cases hn
    unfold haltRank at hpos
    omega
  · have hlt := InsnFetch.haltRank_next h.fetching s.romAck s.romData s.core.pcBranch hf
    omega

/-! ## Transparency -/

/-- both logs of `s` are prefixes of those of `s'` -/
def LogsPrefix (s s' : System σ) : Prop := s.commits <+: s'.commits ∧ s.accesses <+: s'.accesses

/-- the commit logs are comparable, and so are the access logs -/
def LogsComparable (s s' : System σ) : Prop :=
  (s.commits <+: s'.commits ∨ s'.commits <+: s.commits) ∧ (s.accesses <+: s'.accesses ∨ s'.accesses <+: s.accesses)

/-- two runs of one program never disagree, whatever their halts and grants -/
theorem logs_comparable {c c' : Core} {romBus ramBus romBus' ramBus' : Word} {e e' : ℕ → Cycle}
    (he : ∀ n, DebugReads (System.run imem D c d romBus ramBus e n) (e n))
    (he' : ∀ n, DebugReads (System.run imem D c' d romBus' ramBus' e' n) (e' n)) (n k : ℕ) :
    LogsComparable (System.run imem D c d romBus ramBus e n) (System.run imem D c' d romBus' ramBus' e' k) := by
  obtain ⟨i, j, hc, ha, -⟩ := run_cut imem D d c romBus ramBus e he n
  obtain ⟨i', j', hc', ha', -⟩ := run_cut imem D d c' romBus' ramBus' e' he' k
  refine ⟨?_, ?_⟩
  · rw [hc, hc']
    exact (le_total i i').imp (Sequential.commits_prefix imem D d) (Sequential.commits_prefix imem D d)
  · rw [ha, ha']
    exact (le_total j j').imp (Sequential.accesses_prefix imem D d) (Sequential.accesses_prefix imem D d)

/-- a run without halts behind fair ports gets past every point another run reaches -/
theorem logs_prefix {c c' : Core} {romBus ramBus romBus' ramBus' : Word} {e e' : ℕ → Cycle}
    (he : ∀ n, DebugReads (System.run imem D c d romBus ramBus e n) (e n)) (hfree : ∀ n, (e' n).haltReq = false)
    (hfair : FairPorts (System.run imem D c' d romBus' ramBus' e') e') (n : ℕ) :
    ∃ k, LogsPrefix (System.run imem D c d romBus ramBus e n) (System.run imem D c' d romBus' ramBus' e' k) := by
  obtain ⟨i, j, hc, ha, hij, -⟩ := run_cut imem D d c romBus ramBus e he n
  obtain ⟨k, hk⟩ := retired_unbounded c' romBus' ramBus' hfree hfair j
  obtain ⟨j', hc', ha', hj', -⟩ := (run_inv imem D d c' romBus' ramBus' e'
    (debugReads_of_no_halt imem D d c' romBus' ramBus' hfree) k).cut
  refine ⟨k, ?_, ?_⟩
  · rw [hc, hc']; exact Sequential.commits_prefix imem D d (by omega)
  · rw [ha, ha']; exact Sequential.accesses_prefix imem D d (by omega)

/-- **Halting is transparent and isolates the debug port.** `e` halts and resumes at will, `e'` never halts. If the
debug port writes nothing, the logs of the halting run are prefixes of those of the other, whenever that one is not
starved by its ports, and they agree as far as both go in any case. The isolation needs no promise at all. -/
theorem halting_transparent (imem : Word → Word) (D : Device σ) (d : σ) (c : Core) (romBus ramBus : Word)
    (e e' : ℕ → Cycle) (hfree : ∀ n, (e' n).haltReq = false) :
    ((∀ n, (e n).debugReq = true → (e n).debug.we = false) →
      (∀ n k, LogsComparable (System.run imem D c d romBus ramBus e n) (System.run imem D c d romBus ramBus e' k)) ∧
      (FairPorts (System.run imem D c d romBus ramBus e') e' →
        ∀ n, ∃ k, LogsPrefix (System.run imem D c d romBus ramBus e n) (System.run imem D c d romBus ramBus e' k))) ∧
    ∀ n, Isolated (System.run imem D c d romBus ramBus e n) (e n) (System.run imem D c d romBus ramBus e (n + 1)) := by
  refine ⟨fun hdebug => ?_, fun n => (run_portInv c romBus ramBus e n).isolated (e n)⟩
  have he : ∀ n, DebugReads (System.run imem D c d romBus ramBus e n) (e n) := fun n _ => hdebug n
  exact ⟨logs_comparable he (debugReads_of_no_halt imem D d c romBus ramBus hfree), logs_prefix he hfree⟩

/-- a halt from cycle 6 on, a debug read while halted, a resume in cycle 20 -/
def demoHalts (n : ℕ) : Cycle :=
  { demoCycle with
    haltReq := n == 6, resumeReq := n == 20, debugReq := decide (10 ≤ n ∧ n < 12), debug := ⟨4, 0, false, 0⟩ }

theorem halting_transparent_demo :
    (System.run demoProgram wordDevice demoCore (fun _ => 0) 0 0 demoHalts 11).core.mIsHalted = true ∧
    (System.run demoProgram wordDevice demoCore (fun _ => 0) 0 0 demoHalts 11).ramOwner = true ∧
    (∀ n, ∃ k, LogsPrefix (System.run demoProgram wordDevice demoCore (fun _ => 0) 0 0 demoHalts n)
      (System.run demoProgram wordDevice demoCore (fun _ => 0) 0 0 (fun _ => demoCycle) k)) ∧
    ∀ n, Isolated (System.run demoProgram wordDevice demoCore (fun _ => 0) 0 0 demoHalts n) (demoHalts n)
      (System.run demoProgram wordDevice demoCore (fun _ => 0) 0 0 demoHalts (n + 1)) := by
  obtain ⟨h1, h2⟩ := halting_transparent demoProgram wordDevice (fun _ => 0) demoCore 0 0 demoHalts (fun _ => demoCycle)
    (fun _ => rfl)
  have hfair : FairPorts (System.run demoProgram wordDevice demoCore (fun _ => 0) 0 0 (fun _ => demoCycle))
      (fun _ => demoCycle) :=
    ⟨fun n h => Bool.noConfusion (h n (le_refl n)).2, fun n h => Bool.noConfusion (h n (le_refl n)).2⟩
  exact ⟨by decide +kernel, by decide +kernel, (h1 fun _ _ => rfl).2 hfair, h2⟩

end FpgaLearning.ArxCore
