/-
The debug link comes back, or it is caught for ever.

- `rank` counts the cycles until `S_WAIT_INPUT` in surroundings that take every byte and serve every request at once. A
  data transfer first waits for the core to halt, so the rank of a copier counts eightfold, above the rank of the halt.
- `Inv.rank_next` is the step: under the invariant the rank falls in every cycle.
- `Trapped` is a data transfer at a core that is not asked to halt. Its acknowledge is tied low, so it stays.
- `link_recovers_iff` puts both together.
-/
import FpgaLearning.Debug.Link
import FpgaLearning.Debug.Liveness

namespace FpgaLearning.Debug

open FpgaLearning.Memory FpgaLearning.Clocked
open FpgaLearning.ArxCore (Core)

namespace Link

open PacketParser (Holds)
open DebugMemoryCopier (Moves)
open DebugModule (Stage)

variable {σ : Type*} {T : ℕ} {D : Device σ} {s : Link σ} {e : LinkIn} {t : Target}

/-! ## The rank -/

/-- nothing on the line, and no waiting -/
def prompt : LinkIn := ⟨false, false, 0, true, true, true, true, 0, 0, 0⟩

/-- cycles until `is_halted` rises -/
def haltRank (s : Link σ) : ℕ :=
  if s.sys.core.halted then 0 else if s.sys.core.haltReqIn then 1 + s.sys.haltRank else 8

/-- cycles until `is_halted` falls -/
def resumeRank (s : Link σ) : ℕ := if s.sys.core.haltReqIn then 2 else if s.sys.core.halted then 1 else 0

def resetRank (s : Link σ) : ℕ :=
  if s.dm.resetController.counter = 0#4 then 16 else s.dm.resetController.counter.toNat

def copyRank (s : Link σ) (t : Target) : ℕ :=
  8 * DebugMemoryCopier.rank (s.dm.copier t) s.dm.parser.resLen ((s.pins prompt).dataAck t) + s.sys.haltRank

/-- cycles until `S_WAIT_INPUT` -/
def rank (T : ℕ) (s : Link σ) : ℕ :=
  match s.dm.curState with
  | .waitInput => 0
  | .waitSend => 1 + PacketBuffer.rank s.dm.buffer
  | .state | .errorParity | .errorArgs | .errorCmd => 264
  | .waitTimeout => 265 + (T - 1 - s.dm.timeoutCounter)
  | .halt => 265 + s.haltRank
  | .resume => 265 + s.resumeRank
  | .reset => 265 + s.resetRank
  | .read t | .write t => 265 + s.copyRank t

/-- a prompt cycle serves both memories -/
theorem haltRank_next (h : s.sys.core.Live) (hh : s.sys.core.haltReqIn = true) (hm : s.sys.core.mIsHalted = false) :
    (s.sys.next (fun a => s.prog.dev (wordIndex a)) D (s.coreCycle prompt)).haltRank < s.sys.haltRank :=
  ArxCore.System.haltRank_next h hh hm rfl rfl

/-- a step of the copier counts more than the way of the core to its halt -/
theorem copyRank_lt {a b c d : ℕ} (h : a < b) (hc : c ≤ 6) : 8 * a + c < 8 * b + d := by omega

/-- a reply is always close to its end -/
theorem rank_of_waitSend (h : s.dm.curState = .waitSend) : s.rank T < 264 := by
  have hle := PacketBuffer.rank_le s.dm.buffer
  simp only [rank, h]
  omega

theorem rank_next_send (h : Stage T s.dm) (hs : s.dm.curState = .waitSend) :
    (s.next T D prompt).rank T < s.rank T := by
  have hnext : (s.next T D prompt).dm.curState =
      if DebugModule.outSendAck s.dm (s.pins prompt) then .waitInput else .waitSend := by
    show DebugModule.nextState T s.dm (s.pins prompt) = _
    simp [DebugModule.nextState, hs]
  have hack := DebugModule.outSendAck_of_waitSend hs (s.pins prompt)
  cases hb : DebugModule.outSendAck s.dm (s.pins prompt) with
  | true =>
    rw [hb, if_pos rfl] at hnext
    simp only [rank, hnext, hs]
    omega
  | false =>
    rw [hb, if_neg Bool.false_ne_true] at hnext
    cases h with
    | receive h' | dispatch h' | drain h' | parity h' => simp [hs] at h'
    | exec h' => exact absurd (h' ▸ hs) (dispatch_ne _ _).2.2
    | send _ _ hsend hq =>
      have hbuf : (s.next T D prompt).dm.buffer = PacketBuffer.next s.dm.buffer (PacketBuffer.sending true) := by
        show PacketBuffer.next s.dm.buffer (DebugModule.bufferIn s.dm (s.pins prompt)) = _
        rw [DebugModule.bufferIn_of_waitSend hs hq]
        rfl
      have hlow : PacketBuffer.sendAck s.dm.buffer true true = false := hack.symm.trans hb
      rcases hsend.rank_next hlow with hlt | ⟨hready, -⟩
      · simp only [rank, hnext, hs, hbuf]
        omega
      · cases hready

theorem rank_next_drain (h : Stage T s.dm) (hs : s.dm.curState = .waitTimeout) :
    (s.next T D prompt).rank T < s.rank T := by
  have hnext : (s.next T D prompt).dm.curState = if s.dm.timeoutCounter = T - 1 then .errorParity else .waitTimeout := by
    show DebugModule.nextState T s.dm (s.pins prompt) = _
    simp [DebugModule.nextState, hs]
  by_cases hT : s.dm.timeoutCounter = T - 1
  · rw [if_pos hT] at hnext
    simp only [rank, hnext, hs]
    omega
  · rw [if_neg hT] at hnext
    have hle : s.dm.timeoutCounter ≤ T - 1 := by
      cases h with
      | drain _ _ _ _ hc => exact hc
      | receive h' | dispatch h' | parity h' | send h' => simp [hs] at h'
      | exec h' => exact absurd (h' ▸ hs) (dispatch_ne _ _).2.1
    have hcount : (s.next T D prompt).dm.timeoutCounter = s.dm.timeoutCounter + 1 := by
      have hclog := Nat.le_pow_clog (b := 2) (by decide) T
      simp only [next, DebugModule.next, pins, prompt, hs, Bool.false_eq_true, ite_false, ite_true]
      exact Nat.mod_eq_of_lt (by omega)
    simp only [rank, hnext, hs, hcount]
    omega

theorem rank_next_reset (hs : s.dm.curState = .reset) : (s.next T D prompt).rank T < s.rank T := by
  have hnext : (s.next T D prompt).dm.curState = if s.dm.resetController.counter = 1#4 then .waitSend else .reset := by
    show DebugModule.nextState T s.dm (s.pins prompt) = _
    simp [DebugModule.nextState, hs, ResetController.ack]
  have hcounter : (s.next T D prompt).dm.resetController = ResetController.next s.dm.resetController true := by
    show ResetController.next _ (DebugModule.softResetReq s.dm) = _
    simp [DebugModule.softResetReq, hs]
  by_cases hone : s.dm.resetController.counter = 1#4
  · rw [if_pos hone] at hnext
    have hlt := rank_of_waitSend (T := T) hnext
    simp only [rank, hs] at hlt ⊢
    omega
  · rw [if_neg hone] at hnext
    simp only [rank, hs, hnext, resetRank, hcounter]
    by_cases hz : s.dm.resetController.counter = 0#4
    · simp [ResetController.next, ResetController.resetN, hz, ResetController.resetTicks]
    · obtain ⟨hstep, hne, hlt⟩ := ResetController.next_of_counting hz hone
      rw [hstep, if_neg hne, if_neg hz]
      omega

theorem rank_next_halt (h : Inv T s) (hs : s.dm.curState = .halt) : (s.next T D prompt).rank T < s.rank T := by
  have hcore := core_eq h.stage (by simp [hs])
  have hnext : (s.next T D prompt).dm.curState = if s.sys.core.halted then .waitSend else .halt := by
    rw [← hcore]
    show DebugModule.nextState T s.dm (s.pins prompt) = _
    cases hh : s.core.halted <;> simp [DebugModule.nextState, hs, pins, hh]
  cases hh : s.sys.core.halted with
  | true =>
    rw [hh, if_pos rfl] at hnext
    have hlt := rank_of_waitSend (T := T) hnext
    simp only [rank, hs] at hlt ⊢
    omega
  | false =>
    rw [hh, if_neg Bool.false_ne_true] at hnext
    have hsys := sys_next (D := D) h.stage (by simp [hs]) prompt
    have hask : (s.next T D prompt).sys.core.haltReqIn = true := by
      rw [hsys]
      simp [ArxCore.System.next, Core.next, ArxCore.System.pins, coreCycle, DebugModule.haltReq, hs]
    have hhalted : (s.next T D prompt).sys.core.halted = s.sys.core.mIsHalted := by
      rw [hsys]
      rfl
    simp only [rank, hnext, hs, haltRank, hask, hhalted, hh]
    cases hm : s.sys.core.mIsHalted with
    | true => cases s.sys.core.haltReqIn <;> simp
    | false =>
      cases hreq : s.sys.core.haltReqIn with
      | true =>
        have hlt := haltRank_next (D := D) h.live hreq hm
        rw [← hsys] at hlt
        simpa using hlt
      | false =>
        have hle := (s.next T D prompt).sys.haltRank_le
        simp only [Bool.false_eq_true, ite_false, ite_true]
        omega

theorem rank_next_resume (h : Inv T s) (hs : s.dm.curState = .resume) : (s.next T D prompt).rank T < s.rank T := by
  have hcore := core_eq h.stage (by simp [hs])
  have hnext : (s.next T D prompt).dm.curState = if s.sys.core.halted then .resume else .waitSend := by
    rw [← hcore]
    show DebugModule.nextState T s.dm (s.pins prompt) = _
    cases hh : s.core.halted <;> simp [DebugModule.nextState, hs, pins, hh]
  cases hh : s.sys.core.halted with
  | false =>
    rw [hh, if_neg Bool.false_ne_true] at hnext
    have hlt := rank_of_waitSend (T := T) hnext
    simp only [rank, hs] at hlt ⊢
    omega
  | true =>
    rw [hh, if_pos rfl] at hnext
    have hsys := sys_next (D := D) h.stage (by simp [hs]) prompt
    have hask : (s.next T D prompt).sys.core.haltReqIn = false := by
      rw [hsys]
      simp [ArxCore.System.next, Core.next, ArxCore.System.pins, coreCycle, DebugModule.haltReq, DebugModule.resumeReq,
        hs]
    have hhalted : (s.next T D prompt).sys.core.halted = s.sys.core.mIsHalted := by
      rw [hsys]
      rfl
    simp only [rank, hnext, hs, resumeRank, hask, hhalted, hh]
    cases hreq : s.sys.core.haltReqIn with
    | true => cases s.sys.core.mIsHalted <;> simp
    | false =>
      have hm : s.sys.core.mIsHalted = false := by
        by_contra hne
        have hr := (s.sys.core.mIsHalted_iff.1 (Bool.eq_true_of_not_eq_false hne)).1
        rw [hreq] at hr
        cases hr
      simp [hm]

/-! ## The copiers -/

/-- the acknowledge of the program memory comes one cycle after its request -/
theorem ack_prog_next (s : Link σ) : ((s.next T D prompt).pins prompt).dataAck .prog =
    DebugMemoryCopier.dataReq (s.dm.copier .prog) ((s.pins prompt).dataAck .prog) := by
  show (s.prog.next wordDevice (DebugModule.req s.dm (s.pins prompt) .prog) _ prompt.progGrant _).ack = _
  simp only [Port.next, prompt, Bool.and_true]
  split <;> simp_all [DebugModule.req]

theorem ack_data (h : Stage T s.dm) (hs : s.dm.curState ≠ .reset) (e : LinkIn) :
    (s.pins e).dataAck .data = (s.sys.core.mIsHalted && s.sys.ram.ack) := by
  show s.core.debugAck s.memoryPins = _
  rw [core_eq h hs]
  cases hm : s.sys.core.mIsHalted <;> simp [Core.debugAck, hm, memoryPins]

theorem resLen_next (h : Stage T s.dm) (hs : s.dm.curState = .read t ∨ s.dm.curState = .write t) (e : LinkIn) :
    (s.next T D e).dm.parser.resLen = s.dm.parser.resLen := by
  obtain ⟨p, w, hP, -⟩ := h.transfer hs
  have hne : s.dm.curState ≠ .waitSend := by rcases hs with hs | hs <;> simp [hs]
  have hP' : Holds (s.next T D e).dm.parser p := hP.stay (DebugModule.not_resReady hne _)
  rw [hP.len, hP'.len]

/-- a request that is served brings the copier on -/
theorem copyRank_next_of_served (h : Stage T s.dm) (hs : s.dm.curState = .read t ∨ s.dm.curState = .write t)
    (hstay : DebugModule.nextState T s.dm (s.pins prompt) = s.dm.curState)
    (hserved : ((s.next T D prompt).pins prompt).dataAck t =
      DebugMemoryCopier.dataReq (s.dm.copier t) ((s.pins prompt).dataAck t)) :
    (s.next T D prompt).copyRank t < s.copyRank t := by
  have hle := (s.next T D prompt).sys.haltRank_le
  have hdrop := h.rank_next hs hstay (b := ((s.next T D prompt).pins prompt).dataAck t) fun hack => by
    rw [hserved, hack]
    exact DebugMemoryCopier.dataReq_of_ack _
  simp only [copyRank, resLen_next h hs]
  rcases hdrop with hlt | ⟨hreq, hno, -⟩
  · exact copyRank_lt hlt hle
  · rw [hserved, hreq] at hno
    cases hno

/-- the acknowledge of the data memory comes one cycle after its request, once the core is halted -/
theorem ack_data_next (h : Stage T s.dm) (hs : s.dm.curState = .read .data ∨ s.dm.curState = .write .data)
    (hstay : DebugModule.nextState T s.dm (s.pins prompt) = s.dm.curState) (hm : s.sys.core.mIsHalted = true) :
    ((s.next T D prompt).pins prompt).dataAck .data =
      DebugMemoryCopier.dataReq (s.dm.copier .data) ((s.pins prompt).dataAck .data) := by
  have hne : s.dm.curState ≠ .reset ∧ s.dm.curState ≠ .resume := by rcases hs with hs | hs <;> simp [hs]
  have hne' : (s.next T D prompt).dm.curState ≠ .reset := fun hr => hne.1 (hstay.symm.trans hr)
  have hsys := sys_next (D := D) h hne.1 prompt
  have hhalted : (s.next T D prompt).sys.core.mIsHalted = true := by
    rw [hsys]
    refine Core.mIsHalted_next hm _ fun hr => ?_
    simp [ArxCore.System.pins, coreCycle, DebugModule.resumeReq, hne.2] at hr
  have hack : (s.next T D prompt).sys.ram.ack = s.sys.ramReq (s.coreCycle prompt) := by
    rw [hsys]
    show (s.sys.ram.next D (s.sys.ramReq (s.coreCycle prompt)) _ true _).ack = _
    cases s.sys.ramReq (s.coreCycle prompt) <;> rfl
  rw [ack_data (h.next _) hne', hhalted, hack, Bool.true_and]
  simp [ArxCore.System.ramReq, Core.ramReq, hm, ArxCore.System.pins, coreCycle, DebugModule.req]

/-- a data transfer waits for the halt, which comes closer -/
theorem copyRank_next_of_running (h : Inv T s) (hs : s.dm.curState = .read .data ∨ s.dm.curState = .write .data)
    (hstay : DebugModule.nextState T s.dm (s.pins prompt) = s.dm.curState) (hm : s.sys.core.mIsHalted = false) :
    (s.next T D prompt).copyRank .data < s.copyRank .data := by
  have hne : s.dm.curState ≠ .reset := by rcases hs with hs | hs <;> simp [hs]
  have hle := (s.next T D prompt).sys.haltRank_le
  have hack : (s.pins prompt).dataAck .data = false := by rw [ack_data h.stage hne, hm, Bool.false_and]
  have hdrop := h.stage.rank_next hs hstay (b := ((s.next T D prompt).pins prompt).dataAck .data) fun hd => by
    rw [hack] at hd
    cases hd
  simp only [copyRank, resLen_next h.stage hs]
  rcases hdrop with hlt | ⟨hreq, -, heq⟩
  · exact copyRank_lt hlt hle
  · rcases h.served hs with hask | ⟨q, hq, hno⟩
    · have hlt := haltRank_next (D := D) h.live hask hm
      rw [← sys_next h.stage hne] at hlt
      have hsame : DebugMemoryCopier.rank ((s.next T D prompt).dm.copier .data) _ _ = _ := heq
      rw [hsame]
      exact Nat.add_lt_add_left hlt _
    · -- a transfer that moves nothing has no request
      obtain ⟨p, w, hP, rfl, htr, -⟩ := h.stage.transfer hs
      obtain rfl := hq.unique hP
      exact absurd (htr.moves hreq) hno

/-- **A memory command.** -/
theorem rank_next_copy (h : Inv T s) (hs : s.dm.curState = .read t ∨ s.dm.curState = .write t) :
    (s.next T D prompt).rank T < s.rank T := by
  have hrank : ∀ s' : Link σ, s'.dm.curState = s.dm.curState → s'.rank T = 265 + s'.copyRank t := by
    intro s' hs'
    rcases hs with hs | hs <;> simp [rank, hs', hs]
  have hnext : (s.next T D prompt).dm.curState = DebugModule.nextState T s.dm (s.pins prompt) := rfl
  have hcases : DebugModule.nextState T s.dm (s.pins prompt) = .waitSend ∨
      DebugModule.nextState T s.dm (s.pins prompt) = s.dm.curState := by
    cases hc : DebugModule.copyReady s.dm (s.pins prompt) t <;> rcases hs with hs | hs <;>
      simp [DebugModule.nextState, hs, hc]
  rcases hcases with hdone | hstay
  · have hlt := rank_of_waitSend (T := T) (hnext.trans hdone)
    rw [hrank s rfl]
    omega
  · rw [hrank s rfl, hrank _ hstay]
    refine Nat.add_lt_add_left ?_ _
    cases t with
    | prog => exact copyRank_next_of_served h.stage hs hstay (ack_prog_next s)
    | data =>
      cases hm : s.sys.core.mIsHalted with
      | true => exact copyRank_next_of_served h.stage hs hstay (ack_data_next h.stage hs hstay hm)
      | false => exact copyRank_next_of_running h hs hstay hm

/-- **Step.** Until the command state machine waits for its next packet, the rank falls. -/
theorem Inv.rank_next (h : Inv T s) (hs : s.dm.curState ≠ .waitInput) : (s.next T D prompt).rank T < s.rank T := by
  cases hc : s.dm.curState with
  | waitInput => exact absurd hc hs
  | waitSend => exact rank_next_send h.stage hc
  | waitTimeout => exact rank_next_drain h.stage hc
  | halt => exact rank_next_halt h hc
  | resume => exact rank_next_resume h hc
  | reset => exact rank_next_reset hc
  | read t => exact rank_next_copy h (.inl hc)
  | write t => exact rank_next_copy h (.inr hc)
  | state | errorParity | errorArgs | errorCmd =>
    have hnext : (s.next T D prompt).dm.curState = .waitSend := by
      show DebugModule.nextState T s.dm (s.pins prompt) = _
      simp [DebugModule.nextState, hc]
    have hlt := rank_of_waitSend (T := T) hnext
    simpa only [rank, hc] using hlt

/-- **Recovery.** -/
theorem Inv.recovers (h : Inv T s) : Recovers T D s := by
  refine ⟨fun _ => prompt, ?_⟩
  -- induction on the rank; a command at work is not a dispatch
  induction hr : s.rank T using Nat.strong_induction_on generalizing s with
  | _ r ih =>
    by_cases hs : s.dm.curState = .waitInput
    · exact ⟨0, hs⟩
    · have hlt := h.rank_next (D := D) hs
      rw [hr] at hlt
      obtain ⟨k, hk⟩ := ih _ hlt (h.next (fun hw => hs hw.1) prompt) rfl
      refine ⟨1 + k, ?_⟩
      rw [run, Clocked.run_add]
      exact hk

/-! ## The trap -/

/-- a data transfer at a core that is not asked to halt -/
structure Trapped (T : ℕ) (s : Link σ) : Prop where
  stage : Stage T s.dm
  copy : s.dm.curState = .read .data ∨ s.dm.curState = .write .data
  running : s.sys.core.haltReqIn = false
  moves : ∃ p, Holds s.dm.parser p ∧ Moves p (s.dm.curState == .write .data)

/-- **Step.** Whatever arrives. -/
theorem Trapped.next (h : Trapped T s) (e : LinkIn) : Trapped T (s.next T D e) := by
  obtain ⟨p, hP, hmoves⟩ := h.moves
  have hne : s.dm.curState ≠ .halt ∧ s.dm.curState ≠ .resume ∧ s.dm.curState ≠ .reset ∧
      s.dm.curState ≠ .waitSend := by
    rcases h.copy with hs | hs <;> simp [hs]
  have hm : s.sys.core.mIsHalted = false := by
    by_contra hno
    have hr := (s.sys.core.mIsHalted_iff.1 (Bool.eq_true_of_not_eq_false hno)).1
    rw [h.running] at hr
    cases hr
  have hready : DebugModule.copyReady s.dm (s.pins e) .data = false := by
    obtain ⟨q, w, hq, rfl, htr, hsv⟩ := h.stage.transfer h.copy
    obtain rfl := hq.unique hP
    refine htr.not_copyReady (i := DebugModule.copierIn s.dm (s.pins e) .data) (hsv _) hmoves ?_
    show (s.pins e).dataAck .data = false
    rw [ack_data h.stage hne.2.2.1, hm, Bool.false_and]
  have hstay : (s.next T D e).dm.curState = s.dm.curState := by
    show DebugModule.nextState T s.dm (s.pins e) = _
    rcases h.copy with hs | hs <;> simp [DebugModule.nextState, hs, hready]
  refine ⟨h.stage.next _, by rw [hstay]; exact h.copy, ?_, p, hP.stay (DebugModule.not_resReady hne.2.2.2 _), ?_⟩
  · rw [haltReqIn_next h.stage hne.1 hne.2.1 hne.2.2.1]
    exact h.running
  · rw [hstay]
    exact hmoves

theorem Trapped.not_recovers (h : Trapped T s) : ¬ Recovers T D s := by
  rintro ⟨e, k, hk⟩
  have htrap : Trapped T (run T D e s k) :=
    Clocked.run_inv (Trapped T) (fun _ _ => True) h (fun _ e h _ => h.next e) (fun _ => trivial) k
  rcases htrap.copy with hs | hs <;> simp [hk] at hs

/-- the bad dispatch springs it -/
theorem trapped_of_wedges (h : Stage T s.dm) (hw : s.Wedges) (e : LinkIn) : Trapped T (s.next T D e) := by
  obtain ⟨hs, hvalid, herror, hh, -⟩ := id hw
  obtain ⟨p, hP⟩ : ∃ p, Holds s.dm.parser p := by
    cases h with
    | receive _ hP =>
      rw [hP.resValid] at hvalid
      cases hvalid
    | dispatch _ hP =>
      cases hP with
      | flagged _ he =>
        rw [herror] at he
        cases he
      | @packet p hp => exact ⟨p, hp⟩
    | drain h' | parity h' | send h' => simp [hs] at h'
    | exec h' => exact absurd (h' ▸ hs) (dispatch_ne _ _).1
  obtain ⟨hcopy, hmoves⟩ := (wedges_iff hs hP hh).1 hw
  have hto : (s.next T D e).dm.curState = DebugModule.dispatch p.cmd p.len := by
    show DebugModule.nextState T s.dm (s.pins e) = _
    simp [DebugModule.nextState, hs, hvalid, herror, hP.cmd, hP.len]
  refine ⟨h.next _, by rwa [hto], ?_, p, hP.stay (DebugModule.not_resReady (by simp [hs]) _), by rwa [hto]⟩
  rw [haltReqIn_next h (by simp [hs]) (by simp [hs]) (by simp [hs])]
  exact hh

/-! ## Runs -/

section Run

variable (T : ℕ) (D : Device σ) (dm : DebugModule.St) (c : Core) (d : σ) (m : WordMem) (bus : Word) (e : ℕ → LinkIn)

theorem run_stage (n : ℕ) : Stage T (run T D e (init dm c d m bus) n).dm :=
  Clocked.run_inv (fun s : Link σ => Stage T s.dm) (fun _ _ => True) (.reset T dm) (fun s e h _ => h.next (s.pins e))
    (fun _ => trivial) n

/-- **The debug link.** For any bytes, errors, gaps and memory answers since reset: the command state machine can be
brought back to `S_WAIT_INPUT` at every point of the run, if and only if no data memory transfer of at least one byte is
ever dispatched to a core that has not been asked to halt. -/
theorem link_recovers_iff : (∀ n, Recovers T D (run T D e (init dm c d m bus) n)) ↔
    ∀ n, ¬ Wedges (run T D e (init dm c d m bus) n) := by
  constructor
  · intro h n hw
    have htrap := trapped_of_wedges (D := D) (run_stage T D dm c d m bus e n) hw (e n)
    exact htrap.not_recovers (h (n + 1))
  · intro h n
    have hinv : Inv T (run T D e (init dm c d m bus) n) :=
      Clocked.run_inv (Inv T) (fun s _ => ¬ s.Wedges) (.init T dm c d m bus) (fun _ e h hw => h.next hw e) h n
    exact hinv.recovers

end Run

/-- the eight bytes of a READ_DATA packet for one byte at address 0 -/
def readData (n : ℕ) : LinkIn :=
  { prompt with inputValid := decide (n < 8), inputByte := [4#8, 0#8, 5#8, 0#8, 0#8, 0#8, 0#8, 1#8].getD n 0#8 }

/-- a board whose registers and memories hold zero, after reset -/
def zeroed : Link WordMem := init System.zeroed ArxCore.zeroCore (fun _ => 0#32) (fun _ => 0#32) 0#32

/-- READ_DATA while the core runs is never answered, and nothing after it -/
theorem readData_wedges : ¬ Recovers 1000000 wordDevice (run 1000000 wordDevice readData zeroed 9) := by
  have hw : (run 1000000 wordDevice readData zeroed 8).Wedges := by
    refine ⟨?_, ?_, ?_, ?_, .inl ⟨?_, ?_, ?_⟩⟩ <;> decide +kernel
  exact (trapped_of_wedges (run_stage 1000000 wordDevice _ _ _ _ _ readData 8) hw (readData 8)).not_recovers

end Link

end FpgaLearning.Debug
