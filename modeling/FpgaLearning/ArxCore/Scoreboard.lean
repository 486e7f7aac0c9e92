/-
The scoreboard of the decode stage: `m_used_reg[r]` is the number of writers of `r` in flight.

The core is taken alone, its input pins are arbitrary in every cycle: program, memory schedule, halt and debug requests.
An instruction is in flight from the cycle after its issue until write-back retires it, in one of three stages.
- `Balance` is what one clock edge does to the writers a stage holds: what enters is added, what leaves is gone.
- `writers_next` adds the three balances: an issue counts up, a retirement down, handovers in between cancel.
- `scoreboard_exact`: count, bound and the update without wrapping, in every reachable state.
-/
import FpgaLearning.ArxCore.ExecStream

namespace FpgaLearning.ArxCore

/-! ## Writers in flight -/

namespace Core

variable (c : Core) (r : BitVec 5)

/-- the execute stage holds a writer of `r` -/
def exWrites : Bool := ExecStage.occupied c.ex && c.ex.mRegWriteIn && c.ex.mRdIn == r

/-- the memory stage holds a writer of `r` -/
def memWrites : Bool := c.mem.validInInternal && c.mem.regWriteInInternal && c.mem.rdInInternal == r

/-- the write-back stage holds a writer of `r` -/
def wbWrites : Bool := c.wb.validInInternal && c.wb.regWriteInInternal && c.wb.rdInInternal == r

/-- how many writers of `r` the three stages hold -/
def writers : ℕ := (c.exWrites r).toNat + (c.memWrites r).toNat + (c.wbWrites r).toNat

/-- the decode stage issues a writer of `r` in this cycle -/
def issues : Bool := c.idFire && (InsnDecodeStage.out c.id).d.regWrite && (InsnDecodeStage.out c.id).rd == r

/-- the write-back stage retires a writer of `r` in this cycle -/
def retires : Bool := WriteBackStage.regWriteOut c.wb && WriteBackStage.rdOut c.wb == r

theorem writers_le : c.writers r ≤ 3 := by
  have hx := Bool.toNat_le (c.exWrites r)
  have hm := Bool.toNat_le (c.memWrites r)
  have hw := Bool.toNat_le (c.wbWrites r)
  unfold writers
  omega

theorem retires_eq : c.retires r = c.wbWrites r := by
  unfold retires wbWrites WriteBackStage.regWriteOut WriteBackStage.rdOut
  cases c.wb.validInInternal <;> simp

end Core

/-! ## One clock edge -/

/-- the writers a stage holds: what leaves is taken off, what enters is added -/
def Balance (held held' enters leaves : Bool) : Prop := held'.toNat + leaves.toNat = held.toNat + enters.toNat

theorem Balance.replace {held enters : Bool} : Balance held enters enters held := Nat.add_comm _ _

theorem Balance.keep {held : Bool} : Balance held held false false := rfl

variable {c : Core} {r : BitVec 5} {p : List IdOut}

/-- `j` is a writer of `r` -/
def IdOut.writes (r : BitVec 5) (j : IdOut) : Bool := j.d.regWrite && j.rd == r

/-- the instruction held in the execute stage is the writer counted there -/
theorem exWrites_eq (h : ExecSession.Held c.ex p) : c.exWrites r = p.any (IdOut.writes r) := by
  cases h with
  | empty he => simp [Core.exWrites, he.occupied]
  | one ho => simp [Core.exWrites, IdOut.writes, ho.occupied, ho.latched.regWrite, ho.latched.rd]

/-- the execute stage of the core as a session that starts in this cycle -/
def Core.execSession (c : Core) : ExecSession := ⟨c.ex, [], []⟩

/-- what the neighbours of the execute stage drive in this cycle -/
def Core.execIn (c : Core) : ExecIn where
  haltReqIn := c.haltReqIn
  validIn := InsnDecodeStage.validOut c.id c.pcWe c.haltReqIn
  readyOut := c.memReadyIn
  insn := InsnDecodeStage.out c.id

theorem execSession_accepts (c : Core) : c.execSession.accepts c.execIn = c.idFire := Bool.and_comm _ _

/-- the decoder enables exactly one unit, so the execute stage holds at most one instruction after an edge as well -/
theorem held_next (h : ExecSession.Held c.ex p) (i : CoreIn) : ExecSession.Held (c.next i).ex
    (if c.idFire then [InsnDecodeStage.out c.id] else if c.exFire then [] else p) := by
  have hnext := ExecSession.Held.next (s := c.execSession) (i := c.execIn) h fun _ => decode_unit _
  rwa [execSession_accepts] at hnext

theorem ex_balance (h : ExecSession.Held c.ex p) (i : CoreIn) (r : BitVec 5) :
    Balance (c.exWrites r) ((c.next i).exWrites r) (c.issues r) (c.exFire && c.exWrites r) := by
  rw [exWrites_eq h, exWrites_eq (held_next h i)]
  cases hi : c.idFire
  · cases hx : c.exFire
    · simpa [Core.issues, hi] using Balance.keep
    · simpa [Core.issues, hi] using Balance.replace
  · have hleft := ExecSession.Held.leaves (s := c.execSession) (i := c.execIn) h ((execSession_accepts c).trans hi)
    have hhands : c.execSession.hands c.execIn = c.exFire := rfl
    rw [hhands] at hleft
    cases hx : c.exFire
    · obtain rfl : p = [] := by simpa [hx] using hleft
      simp [Balance, Core.issues, hi, IdOut.writes]
    · simpa [Core.issues, hi, IdOut.writes] using Balance.replace

theorem occupied_of_exFire (hx : c.exFire = true) : ExecStage.occupied c.ex = true := by
  have hv : ExecStage.validOut c.ex c.haltReqIn = true := (Bool.and_eq_true_iff.1 hx).1
  simp only [ExecStage.validOut, IMDU.validOut, Bool.if_false_right, Bool.and_eq_true, Bool.or_eq_true] at hv
  simp only [ExecStage.occupied, ExecStage.aluOccupied, ExecStage.mulOccupied, ExecStage.divOccupied, Bool.or_eq_true]
  rcases hv.2 with ⟨-, ha⟩ | ⟨-, hm | hd⟩
  · exact .inl (.inl ha)
  · exact .inl (.inr hm)
  · exact .inr (.inr hd)

theorem mem_balance (c : Core) (i : CoreIn) (r : BitVec 5) :
    Balance (c.memWrites r) ((c.next i).memWrites r) (c.exFire && c.exWrites r) (c.memFire && c.memWrites r) := by
  have htake : (ExecStage.validOut c.ex c.haltReqIn && MemStage.readyIn c.mem c.haltReqIn WriteBackStage.readyIn) =
      c.exFire := rfl
  cases hx : c.exFire
  · cases hm : c.memFire
    · have hw : (c.next i).memWrites r = c.memWrites r := by
        have hm' : (MemStage.validOut c.mem c.haltReqIn && WriteBackStage.readyIn) = false := hm
        simp [Core.memWrites, Core.next, MemStage.next, htake, hx, hm']
      simpa [hw] using Balance.keep
    · have hw : (c.next i).memWrites r = false := by
        have hm' : (MemStage.validOut c.mem c.haltReqIn && WriteBackStage.readyIn) = true := hm
        simp [Core.memWrites, Core.next, MemStage.next, htake, hx, hm']
      simpa [hw] using Balance.replace
  · have hw : (c.next i).memWrites r = c.exWrites r := by
      simp [Core.memWrites, Core.exWrites, Core.next, MemStage.next, htake, hx, occupied_of_exFire hx, ExecStage.out]
    -- a stage that accepts is empty or hands over
    have hleft : (c.memFire && c.memWrites r) = c.memWrites r := by
      have hready : MemStage.readyIn c.mem c.haltReqIn WriteBackStage.readyIn = true := (Bool.and_eq_true_iff.1 hx).2
      simp only [MemStage.readyIn, Bool.if_false_right, Bool.and_eq_true, Bool.or_eq_true, Bool.not_eq_true'] at hready
      rcases hready.2 with hv | ⟨hv, -⟩
      · simp [Core.memWrites, hv]
      · simp [Core.memFire, hv, WriteBackStage.readyIn]
    rw [hleft, hw, Bool.true_and]
    exact Balance.replace

theorem wb_balance (c : Core) (i : CoreIn) (r : BitVec 5) :
    Balance (c.wbWrites r) ((c.next i).wbWrites r) (c.memFire && c.memWrites r) (c.wbWrites r) := by
  cases hm : c.memFire
  · have hw : (c.next i).wbWrites r = false := by
      have hv : MemStage.validOut c.mem c.haltReqIn = false := by simpa [Core.memFire, WriteBackStage.readyIn] using hm
      simp [Core.wbWrites, Core.next, WriteBackStage.next, hv]
    rw [hw]
    exact Balance.replace
  · have hv : MemStage.validOut c.mem c.haltReqIn = true := by simpa [Core.memFire, WriteBackStage.readyIn] using hm
    have hw : (c.next i).wbWrites r = c.memWrites r := by
      have hvalid : c.mem.validInInternal = true := by
        simp only [MemStage.validOut, Bool.if_false_right, Bool.and_eq_true] at hv
        exact hv.2.1
      simp [Core.wbWrites, Core.memWrites, Core.next, WriteBackStage.next, hv, MemStage.out, hvalid]
    rw [hw]
    exact Balance.replace

/-- **Step.** Only issue and retirement change the number of writers in flight. -/
theorem writers_next (h : ExecSession.Held c.ex p) (i : CoreIn) (r : BitVec 5) :
    (c.next i).writers r + (c.retires r).toNat = c.writers r + (c.issues r).toNat := by
  have hx : _ = _ := ex_balance h i r
  have hm : _ = _ := mem_balance c i r
  have hw : _ = _ := wb_balance c i r
  rw [Core.retires_eq]
  unfold Core.writers
  omega

/-! ## The scoreboard -/

/-- one instruction in the execute stage, and every count is the number of writers in flight -/
structure Counted (c : Core) : Prop where
  held : ∃ p, ExecSession.Held c.ex p
  count : ∀ r, (c.id.mUsedReg r).toNat = c.writers r

theorem Counted.reset (c : Core) : Counted c.reset where
  held := ⟨[], .empty ⟨rfl, rfl, rfl, rfl⟩⟩
  count r := by
    have hx := exWrites_eq (c := c.reset) (r := r) (.empty ⟨rfl, rfl, rfl, rfl⟩)
    rw [Core.writers, hx]
    rfl

/-- **No wrap.** The counter of `r` moves by what is issued and retired, as a number. -/
theorem Counted.update (h : Counted c) (i : CoreIn) (r : BitVec 5) :
    ((c.next i).id.mUsedReg r).toNat + (c.retires r).toNat = (c.id.mUsedReg r).toNat + (c.issues r).toNat := by
  obtain ⟨⟨p, hp⟩, hcount⟩ := h
  have hnext := writers_next hp i r
  have hle := (c.next i).writers_le r
  have hcountr := hcount r
  have hretire : c.retires r = true ↔
      WriteBackStage.regWriteOut c.wb = true ∧ WriteBackStage.rdOut c.wb = r := by simp [Core.retires]
  have hissue : c.issues r = true ↔
      (c.idFire && (InsnDecodeStage.out c.id).d.regWrite) = true ∧ (InsnDecodeStage.out c.id).rd = r := by
    simp [Core.issues]
  have hone : (c.retires r).toNat ≤ c.writers r := by
    rw [Core.retires_eq]
    exact Nat.le_add_left _ _
  have hstep := InsnDecodeStage.nextUsedReg_toNat c.id.mUsedReg (WriteBackStage.rdOut c.wb)
    (WriteBackStage.regWriteOut c.wb) (InsnDecodeStage.out c.id).rd
    (c.idFire && (InsnDecodeStage.out c.id).d.regWrite) r
    (fun hr => by rw [hretire.2 hr, Bool.toNat_true] at hone; omega)
    (fun hi hr => by
      have hno : c.retires r = false := Bool.eq_false_iff.2 fun h => hr (hretire.1 h)
      rw [hno, hissue.2 hi, Bool.toNat_false, Bool.toNat_true] at hnext
      omega)
  have htoNat : ∀ b : Bool, (if b = true then 1 else 0) = b.toNat := by decide
  simp only [← hretire, ← hissue, htoNat] at hstep
  exact hstep

theorem Counted.next (h : Counted c) (i : CoreIn) : Counted (c.next i) where
  held := let ⟨_, hp⟩ := h.held; ⟨_, held_next hp i⟩
  count r := by
    obtain ⟨p, hp⟩ := h.held
    have hupdate := h.update i r
    have hwriters := writers_next hp i r
    have hcount := h.count r
    omega

theorem run_counted (c : Core) (pins : ℕ → CoreIn) (n : ℕ) : Counted (Clocked.run Core.next pins c.reset n) :=
  Clocked.run_inv Counted (fun _ _ => True) (Counted.reset c) (fun _ i h _ => h.next i) (fun _ => trivial) n

/-- **Scoreboard.** In every reachable state the counter of `r` is the number of writers of `r` in flight, never more than
three; and it moves to the next state without wrapping. -/
theorem scoreboard_exact (c : Core) (pins : ℕ → CoreIn) (n : ℕ) (r : BitVec 5) :
    let s := Clocked.run Core.next pins c.reset n
    (s.id.mUsedReg r).toNat = s.writers r ∧ s.writers r ≤ 3 ∧
      ((s.next (pins n)).id.mUsedReg r).toNat + (s.retires r).toNat = (s.id.mUsedReg r).toNat + (s.issues r).toNat := by
  have h := run_counted c pins n
  exact ⟨h.count r, Core.writers_le _ r, h.update (pins n) r⟩

end FpgaLearning.ArxCore
