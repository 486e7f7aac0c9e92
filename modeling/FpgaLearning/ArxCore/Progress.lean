/-
Progress of a core that is not halted: behind ports that serve every request kept up for ever, instructions retire for
ever.

- `System.rank` measures the oldest instruction in flight: which stage it is in, how many busy cycles its division has
  left, or how far the fetch unit is from delivering it.
- `Inv.rank_step`: a cycle retires an instruction, or lowers the rank, or the port the instruction waits for did not
  serve it.
- `retired_unbounded`: with fair ports every number of instructions is retired at some cycle.
-/
import FpgaLearning.ArxCore.Refinement

namespace FpgaLearning.ArxCore

open FpgaLearning.Memory

variable {σ : Type*} {imem : Word → Word} {D : Device σ} {d : σ} {s : System σ} {w : Window}

/-! ## The rank -/

namespace System

/-- how far the fetch unit is from handing over the word at its target, the stages behind it being empty -/
def fetchRank (s : System σ) : ℕ :=
  match s.core.fs.curState with
  | .waitHandshake => 39
  | .fetch => (if s.romAck then 39 else 40) + (if s.core.fs.pcWeBuf then 2 else 0)
  | .idle => 43
  | .halt => 44

def exRank (s : System σ) : ℕ :=
  if ExecStage.done s.core.ex then 4
  else if s.core.ex.imdu.div.cnt ≠ 0 then 4 + s.core.ex.imdu.div.cnt.toNat
  else if s.core.id.mValid then 38
  else s.fetchRank

def memRank (s : System σ) : ℕ :=
  if s.core.mem.memDataValid then 1 else if s.ram.ack then 2 else 3

def rank (s : System σ) : ℕ :=
  if s.core.wb.validInInternal then 0
  else if s.core.mem.validInInternal then s.memRank
  else s.exRank

/-- the port the oldest instruction waits for does not serve it -/
def Stalled (s : System σ) (e : Cycle) : Prop :=
  (s.rank = 3 ∧ s.ramReq e = true ∧ e.ramGrant = false) ∨ (s.rank ≠ 3 ∧ s.romReq e = true ∧ e.romGrant = false)

theorem fetchRank_ge (s : System σ) : 39 ≤ s.fetchRank := by
  simp only [fetchRank]
  split
  all_goals first | omega | (split_ifs <;> omega)

theorem memRank_le (s : System σ) : s.memRank ≤ 3 := by
  simp only [memRank]; split_ifs <;> omega

end System

/-- an execute stage that holds an instruction ranks below every waiting front end -/
theorem ExecStage.Holds.exRank_le {i : IdOut} (h : ExecStage.Holds s.core.ex i) : s.exRank ≤ 37 := by
  simp only [System.exRank]
  cases h.unit with
  | alu he ha hm hd => simp [ExecStage.done, ha]
  | mul he ho ha hm hd => simp [ExecStage.done, hm]
  | div he ho ha hm hd =>
    rcases hd with ⟨hc, hle, -, -⟩ | ⟨-, hv, -⟩
    · split_ifs <;> omega
    · simp [ExecStage.done, hv]

theorem exRank_of_empty (h : ExecStage.Empty s.core.ex) :
    s.exRank = if s.core.id.mValid then 38 else s.fetchRank := by
  simp [System.exRank, ExecStage.done, h.alu, h.mul, h.div.1, h.div.2]

/-- without its result the stage is in the middle of a division -/
theorem ExecStage.Holds.busy {x : ExecStage.St} {i : IdOut} (h : ExecStage.Holds x i) (hd : ExecStage.done x = false) :
    x.imdu.div.cnt ≠ 0 := by
  cases h.unit with
  | alu he ha hm hv => simp [ExecStage.done, ha] at hd
  | mul he ho ha hm hv => simp [ExecStage.done, hm] at hd
  | div he ho ha hm hv =>
    rcases hv with ⟨hc, -⟩ | ⟨-, hv, -⟩
    · exact hc
    · simp [ExecStage.done, hv] at hd

theorem IDIV.next_cnt {x : IDIV.St} {v r : Bool} {op : MduOp} {a b : Word} (h : x.cnt ≠ 0) :
    (IDIV.next x v r op a b).cnt = x.cnt - 1 := by
  have hb : IDIV.busy x = true := by simpa [IDIV.busy] using h
  simp [IDIV.next, hb]

theorem IDIV.toNat_cnt_pred {k : BitVec 6} (h : k ≠ 0) : (k - 1).toNat < k.toNat := by
  bv_omega

/-! ## One cycle -/

/-- the fetch unit behind an empty pipeline delivers, comes closer to it, or waits for its port -/
theorem Inv.fetch_step (h : Inv imem D d s w) (hhalt : s.core.haltReqIn = false) (e : Cycle)
    (hx : ExecStage.Empty s.core.ex) (hv : s.core.id.mValid = false) :
    (s.next imem D e).core.id.mValid = true ∧ 38 < s.fetchRank ∨
      (s.next imem D e).core.id.mValid = false ∧ (s.next imem D e).fetchRank < s.fetchRank ∨
      (s.next imem D e).core.id.mValid = false ∧ s.romReq e = true ∧ e.romGrant = false ∧
        (s.next imem D e).fetchRank = s.fetchRank := by
  have hwe : s.core.pcWe = false := by simp [Core.pcWe, hx.pcWeOut]
  have hready : s.core.idReadyIn = true := by simp [Core.idReadyIn, InsnDecodeStage.readyIn, hwe, hhalt, hv]
  have hcomb : s.core.fetch (s.pins e) = InsnFetch.comb s.core.fs s.romAck true false := by
    simp [Core.fetch, System.pins, hready, hwe]
  have hvalid : (s.next imem D e).core.id.mValid =
      InsnFetch.validOut (InsnFetch.comb s.core.fs s.romAck true false) false := by
    have hr : InsnDecodeStage.readyIn s.core.id false false s.core.exReadyIn = true := by
      simpa [Core.idReadyIn, hwe, hhalt] using hready
    simp [System.next, Core.next, InsnDecodeStage.next, hwe, hhalt, hcomb, hr, hv]
  have hfs : (s.next imem D e).core.fs =
      InsnFetch.next s.core.fs (InsnFetch.comb s.core.fs s.romAck true false) s.romData false s.core.pcBranch := by
    simp only [System.next, Core.next, hcomb, hwe]; rfl
  have hreq : s.romReq e = InsnFetch.memReq (InsnFetch.comb s.core.fs s.romAck true false) := by
    simp [System.romReq, Core.romReq, hcomb]
  have hack : (s.next imem D e).romAck = (s.romReq e && e.romGrant) := rfl
  cases hs : s.core.fs.curState with
  | idle =>
    right; left
    refine ⟨by simp [hvalid, InsnFetch.comb, hs, InsnFetch.validOut], ?_⟩
    simp only [System.fetchRank, hfs, hs, InsnFetch.next, InsnFetch.comb, hack]
    split_ifs <;> omega
  | halt => exact absurd hs h.fetch.running
  | waitHandshake =>
    obtain ⟨-, hb⟩ := h.fetch.buffered hs
    left
    simp [hvalid, System.fetchRank, hs, InsnFetch.comb, InsnFetch.pcWeInternal, hb, InsnFetch.validOut]
  | fetch =>
    cases ha : s.romAck
    · right
      cases hg : e.romGrant
      · right
        simp [hvalid, hreq, hfs, hack, System.fetchRank, hs, ha, hg, InsnFetch.comb, InsnFetch.validOut,
          InsnFetch.memReq, InsnFetch.next]
      · left
        simp [hvalid, hreq, hfs, hack, System.fetchRank, hs, ha, hg, InsnFetch.comb, InsnFetch.validOut,
          InsnFetch.memReq, InsnFetch.next]
    · cases hb : s.core.fs.pcWeBuf
      · left
        simp [hvalid, System.fetchRank, hs, ha, InsnFetch.comb, InsnFetch.pcWeInternal, hb, InsnFetch.validOut]
      · right; left
        refine ⟨by simp [hvalid, hs, ha, InsnFetch.comb, InsnFetch.pcWeInternal, hb, InsnFetch.validOut], ?_⟩
        simp only [System.fetchRank, hfs, hs, ha, hb, InsnFetch.next, InsnFetch.comb, InsnFetch.pcWeInternal, hack]
        simp only [Bool.or_true, ite_true]
        split_ifs <;> simp_all

/-- the oldest instruction gets on, or its port does not serve it -/
def System.GetsOn (imem : Word → Word) (D : Device σ) (s : System σ) (e : Cycle) : Prop :=
  (s.next imem D e).rank < s.rank ∨ s.Stalled e ∧ (s.next imem D e).rank = s.rank

section

variable {i : IdOut} {e : Cycle}

/-- no instruction goes from the memory stage to an empty write-back stage -/
theorem System.wb_stays_empty (hhalt : s.core.haltReqIn = false) (hv : MemStage.validOut s.core.mem false = false) :
    (s.next imem D e).core.wb.validInInternal = false := by
  simp [System.next, Core.next, hhalt, hv, WriteBackStage.next]

/-! ### The memory stage -/

theorem System.getsOn_done (hhalt : s.core.haltReqIn = false) (hwb : s.core.wb.validInInternal = false) {data : Word}
    (hx : MemStage.Done s.core.mem i data) : s.GetsOn imem D e := by
  have hv : (s.next imem D e).core.wb.validInInternal = true := by
    simp [System.next, Core.next, hx.validOut, hhalt, WriteBackStage.next]
  left
  simp [System.rank, System.memRank, hv, hwb, hx.valid, hx.dataValid]

theorem System.getsOn_acked (hhalt : s.core.haltReqIn = false) (hwb : s.core.wb.validInInternal = false)
    (hx : MemStage.Waiting s.core.mem i) (hack : s.ram.ack = true) : s.GetsOn imem D e := by
  have hx' := MemStage.next_ack hx s.core.haltReqIn (ExecStage.validOut s.core.ex s.core.haltReqIn)
    WriteBackStage.readyIn (ExecStage.out s.core.ex) (rfl : _ = i.memVal s.ram.data)
  have hmem : MemStage.Done (s.next imem D e).core.mem i s.ram.data := by
    simpa [System.next, Core.next, Core.memAckIn, Core.memDataIn, Core.mIsHalted_eq_false hhalt, System.pins, hack]
      using hx'
  left
  simp [System.rank, System.memRank, hwb, System.wb_stays_empty hhalt (hx.validOut _), hx.valid, hx.dataValid, hack,
    hmem.valid, hmem.dataValid]

theorem System.getsOn_waiting (hhalt : s.core.haltReqIn = false) (hwb : s.core.wb.validInInternal = false)
    (hx : MemStage.Waiting s.core.mem i) (hack : s.ram.ack = false) : s.GetsOn imem D e := by
  have hnh := Core.mIsHalted_eq_false hhalt
  have hx' := MemStage.next_waiting hx s.core.haltReqIn (ExecStage.validOut s.core.ex s.core.haltReqIn)
    WriteBackStage.readyIn (ExecStage.out s.core.ex) (s.core.memDataIn (s.pins e))
  have hmem : MemStage.Waiting (s.next imem D e).core.mem i := by
    simpa [System.next, Core.next, Core.memAckIn, hnh, System.pins, hack] using hx'
  have hreq : s.core.ramReq (s.pins e) = true := by
    simp [Core.ramReq, hnh, MemStage.memReqOut, hx.request, Core.memAckIn, System.pins, hack]
  have hrank : s.rank = 3 := by simp [System.rank, System.memRank, hwb, hx.valid, hx.dataValid, hack]
  have hack' : (s.next imem D e).ram.ack = e.ramGrant := by
    cases hg : e.ramGrant <;> simp [System.next, Port.next, hreq, hg]
  have hrank' : (s.next imem D e).rank = if e.ramGrant then 2 else 3 := by
    simp [System.rank, System.memRank, System.wb_stays_empty hhalt (hx.validOut _), hmem.valid, hmem.dataValid, hack']
  cases hg : e.ramGrant
  · exact .inr ⟨.inl ⟨hrank, hreq, hg⟩, by simp [hrank', hrank, hg]⟩
  · exact .inl (by simp [hrank', hrank, hg])

/-! ### The execute stage -/

/-- with nothing behind it the execute stage has the rank, and after a cycle in which it keeps what it has -/
theorem System.rank_of_empty (hwb : s.core.wb.validInInternal = false) (hm : MemStage.Empty s.core.mem) :
    s.rank = s.exRank := by
  simp [System.rank, hwb, hm.valid]

theorem System.rank_next_of_empty (hhalt : s.core.haltReqIn = false) (hm : MemStage.Empty s.core.mem)
    (hf : s.core.exFire = false) : (s.next imem D e).rank = (s.next imem D e).exRank := by
  have hmem : (s.next imem D e).core.mem.validInInternal = false :=
    (MemStage.next_empty hm (r := WriteBackStage.readyIn) _ _ hf).valid
  simp [System.rank, System.wb_stays_empty hhalt (hm.validOut _), hmem]

theorem System.getsOn_dividing (hhalt : s.core.haltReqIn = false) (hwb : s.core.wb.validInInternal = false)
    (hm : MemStage.Empty s.core.mem) (hx : ExecStage.Holds s.core.ex i) (hdone : ExecStage.done s.core.ex = false) :
    s.GetsOn imem D e := by
  have hf : s.core.exFire = false := by simp [Core.exFire, hx.validOut, hdone]
  have hkeep : ExecStage.Holds (s.next imem D e).core.ex i := ExecStage.next_keep hx _ (by simp [hdone])
  have hc := hx.busy hdone
  have hcnt : (s.next imem D e).core.ex.imdu.div.cnt = s.core.ex.imdu.div.cnt - 1 := IDIV.next_cnt hc
  have hlt := IDIV.toNat_cnt_pred hc
  left
  rw [System.rank_of_empty hwb hm, System.rank_next_of_empty hhalt hm hf]
  simp only [System.exRank, hdone, Bool.false_eq_true, ite_false, if_pos hc]
  cases hdone' : ExecStage.done (s.next imem D e).core.ex
  · have hc' := hkeep.busy hdone'
    rw [hcnt] at hc'
    simp only [Bool.false_eq_true, ite_false, hcnt, if_pos hc']
    omega
  · simp only [ite_true]
    omega

theorem System.getsOn_executed (hhalt : s.core.haltReqIn = false) (hwb : s.core.wb.validInInternal = false)
    (hm : MemStage.Empty s.core.mem) (hx : ExecStage.Holds s.core.ex i) (hdone : ExecStage.done s.core.ex = true) :
    s.GetsOn imem D e := by
  have hready : s.core.memReadyIn = true := by simp [Core.memReadyIn, hm.readyIn, hhalt]
  have hf : s.core.exFire = true := by simp [Core.exFire, hx.validOut, hdone, hhalt, hready]
  have hv : (s.next imem D e).core.mem.validInInternal = true := by
    simp only [Core.exFire, Bool.and_eq_true] at hf
    have hr : MemStage.readyIn s.core.mem s.core.haltReqIn WriteBackStage.readyIn = true := hready
    simp [System.next, Core.next, MemStage.next, hf.1, hr]
  have hle := (s.next imem D e).memRank_le
  have hrank' : (s.next imem D e).rank = (s.next imem D e).memRank := by
    simp [System.rank, System.wb_stays_empty hhalt (hm.validOut _), hv]
  have hex : s.exRank = 4 := by simp [System.exRank, hdone]
  left
  rw [System.rank_of_empty hwb hm]
  omega

/-! ### The front end -/

/-- with an empty execute stage behind it the fetch unit has the rank -/
theorem Inv.getsOn_fetching (h : Inv imem D d s w) (hhalt : s.core.haltReqIn = false)
    (hwb : s.core.wb.validInInternal = false) (hm : MemStage.Empty s.core.mem) (hx : ExecStage.Empty s.core.ex)
    (hxw : w.issued = w.toMem) (hv : s.core.id.mValid = false) : s.GetsOn imem D e := by
  have hf : s.core.exFire = false := by simp [Core.exFire, hx.validOut]
  have hidle : s.core.idFire = false := by simp [Core.idFire, InsnDecodeStage.validOut, hv]
  have hrank : s.rank = s.fetchRank := by
    rw [System.rank_of_empty hwb hm, exRank_of_empty hx, hv, if_neg Bool.false_ne_true]
  have hrank' : (s.next imem D e).rank =
      if (s.next imem D e).core.id.mValid then 38 else (s.next imem D e).fetchRank := by
    rw [System.rank_next_of_empty hhalt hm hf]
    cases h.next_ex e with
    | empty hw' hx' => exact exRank_of_empty hx'
    | holds hw' hx' =>
      simp only [Window.next, hf, hidle, Bool.toNat_false] at hw'
      omega
  rcases h.fetch_step hhalt e hx hv with ⟨hv', hlt⟩ | ⟨hv', hlt⟩ | ⟨hv', hreq, hg, heq⟩
  · left
    simp [hrank, hrank', hv', hlt]
  · left
    simp [hrank, hrank', hv', hlt]
  · right
    have := s.fetchRank_ge
    exact ⟨.inr ⟨by omega, hreq, hg⟩, by simp [hrank, hrank', hv', heq]⟩

/-- nothing is in flight, so the scoreboard is clear and the instruction issues -/
theorem Inv.getsOn_issue (h : Inv imem D d s w) (hhalt : s.core.haltReqIn = false)
    (hwb : s.core.wb.validInInternal = false) (hm : MemStage.Empty s.core.mem) (hx : ExecStage.Empty s.core.ex)
    (hflight : w.issued = w.retired) (hxw : w.issued = w.toMem) (hv : s.core.id.mValid = true) : s.GetsOn imem D e := by
  have hf : s.core.exFire = false := by simp [Core.exFire, hx.validOut]
  have hclear : ∀ r, s.core.id.mUsedReg r = 0 := by
    intro r
    have hu := h.used r
    rw [hflight] at hu
    exact BitVec.eq_of_toNat_eq (by simpa using hu)
  have hfire : s.core.idFire = true := by
    have hready' : s.core.exReadyIn = true := by simp [Core.exReadyIn, hx.readyIn, hhalt]
    have hwe : s.core.pcWe = false := by simp [Core.pcWe, hx.pcWeOut]
    simp [Core.idFire, hready', InsnDecodeStage.validOut, hwe, hhalt, hv, hclear]
  have hle : (s.next imem D e).exRank ≤ 37 := by
    cases h.next_ex e with
    | empty hw' hx' =>
      simp only [Window.next, hf, hfire, Bool.toNat_false, Bool.toNat_true] at hw'
      omega
    | holds hw' hx' => exact hx'.exRank_le
  left
  rw [System.rank_of_empty hwb hm, System.rank_next_of_empty hhalt hm hf, exRank_of_empty hx, hv, if_pos rfl]
  omega

end

/-- **Rank step.** A cycle retires an instruction, lowers the rank, or is lost to the port waited for. -/
theorem Inv.rank_step (h : Inv imem D d s w) (hhalt : s.core.haltReqIn = false) (e : Cycle) :
    s.core.wb.validInInternal = true ∨ s.GetsOn imem D e := by
  cases hwb : s.core.wb.validInInternal
  · right
    cases h.mem with
    | done hw hx => exact System.getsOn_done hhalt hwb hx
    | acked hw hx hack => exact System.getsOn_acked hhalt hwb hx hack
    | waiting hw hx hack => exact System.getsOn_waiting hhalt hwb hx hack
    | empty hw hm hown hd =>
      cases h.ex with
      | holds hxw hx =>
        cases hdone : ExecStage.done s.core.ex
        · exact System.getsOn_dividing hhalt hwb hm hx hdone
        · exact System.getsOn_executed hhalt hwb hm hx hdone
      | empty hxw hx =>
        cases hv : s.core.id.mValid
        · exact h.getsOn_fetching hhalt hwb hm hx hxw hv
        · have hretired : w.toWb = w.retired := by
            cases h.wb with
            | empty hw' hx' => exact hw'
            | holds hw' hx' =>
              rw [hx'.valid] at hwb
              cases hwb
          exact h.getsOn_issue hhalt hwb hm hx (by omega) hxw hv
  · exact .inl rfl

/-! ## Runs -/

/-- a request that is kept up is served at some time -/
structure FairPorts (S : ℕ → System σ) (e : ℕ → Cycle) : Prop where
  rom : ∀ n, ¬ ∀ m, n ≤ m → (S m).romReq (e m) = true ∧ (e m).romGrant = false
  ram : ∀ n, ¬ ∀ m, n ≤ m → (S m).ramReq (e m) = true ∧ (e m).ramGrant = false

/-- **Progress.** Without halts and behind fair ports, every number of instructions is retired at some cycle. -/
theorem retired_unbounded (c : Core) (romBus ramBus : Word) {e : ℕ → Cycle} (hhalt : ∀ n, (e n).haltReq = false)
    (hfair : FairPorts (System.run imem D c d romBus ramBus e) e) (k : ℕ) :
    ∃ n, k ≤ (System.window imem D c d romBus ramBus e n).retired := by
  set S := System.run imem D c d romBus ramBus e
  have hinv := run_inv imem D d c romBus ramBus e
    (debugReads_of_no_halt imem D d c romBus ramBus hhalt)
  have hquiet := haltReqIn_eq_false imem D d c romBus ramBus hhalt
  have hretire := Clocked.eventually_of_rank (fun n => (S n).rank) (fun n => (S n).core.wb.validInInternal = true)
    (fun n => (S n).Stalled (e n)) (fun n => (hinv n).rank_step (hquiet n) (e n)) (fun n hn => by
      by_cases hr : (S n).rank = 3
      · refine hfair.ram n fun m hm => ?_
        rcases (hn m hm).1 with ⟨-, h⟩ | ⟨h, -⟩
        · exact h
        · exact absurd ((hn m hm).2.trans hr) h
      · refine hfair.rom n fun m hm => ?_
        rcases (hn m hm).1 with ⟨h, -⟩ | ⟨-, h⟩
        · exact absurd ((hn m hm).2.symm.trans h) hr
        · exact h)
  refine Clocked.unbounded_of_growth _ (fun n => (hinv n).wb_le.1) (fun n => ?_) k
  obtain ⟨m, hm, hv⟩ := hretire n
  refine ⟨m, hm, ?_⟩
  cases (hinv m).wb with
  | empty hw hx => rw [hx] at hv; cases hv
  | holds hw hx => simp only [System.window, Window.next, hw]; omega

end FpgaLearning.ArxCore
