/-
The core as the debug module sees it: it is halted or it runs, and it changes only when the module asks it to.

`CoreInv` relates `is_halted` to the requests answered so far: HALT leaves the core halted, RESUME leaves it running, and
nothing else changes it. `CoreInv.next` is the step. So the reply to GET_STATE says what the requests before it have left.
-/
import FpgaLearning.Debug.Protocol
import FpgaLearning.Debug.Session

namespace FpgaLearning.Debug

open FpgaLearning.Memory DebugModule

/-- whether the core is halted after the request `p` -/
def haltedBy (h : Bool) (p : Packet) : Bool := if p.cmd = cmdHalt then true else if p.cmd = cmdResume then false else h

def haltedAfter (h : Bool) (ps : List Packet) : Bool := ps.foldl haltedBy h

@[simp] theorem haltedAfter_nil (h : Bool) : haltedAfter h [] = h := rfl

@[simp] theorem haltedAfter_concat (h : Bool) (ps : List Packet) (p : Packet) :
    haltedAfter h (ps ++ [p]) = haltedBy (haltedAfter h ps) p := by
  simp [haltedAfter]

def stateReply (id : Byte) (h : Bool) : List Byte := [statusOk, id, 1, if h then 1 else 0]

namespace System

variable {s : System} {e : Cycle} {T : ℕ} {p : Packet} {h h' h₀ : Bool}

/-- between two cycles the core changes from `h` to `h'` only on request -/
structure Obeys (s : System) (h h' : Bool) : Prop where
  halts : h = false → h' = true → haltReq s.dm = true
  runs : h = true → h' = false → resumeReq s.dm = true

theorem Obeys.eq (ho : Obeys s h h') (h1 : s.dm.curState ≠ .halt) (h2 : s.dm.curState ≠ .resume) : h' = h := by
  have h1' : haltReq s.dm = false := by simp [haltReq, h1]
  have h2' : resumeReq s.dm = false := by simp [resumeReq, h2]
  cases h <;> cases h'
  · rfl
  · exact absurd (h1'.symm.trans (ho.halts rfl rfl)) (by decide)
  · exact absurd (h2'.symm.trans (ho.runs rfl rfl)) (by decide)
  · rfl

/-- `h` is `is_halted` in the coming cycle, `d` what the answered requests have left -/
def CoreIs (s : System) (h d : Bool) : Prop :=
  match s.dm.curState with
  | .halt => h = d ∨ h = true
  | .resume => h = d ∨ h = false
  | .waitSend => ∀ p rest, s.host.requests = p :: rest → h = haltedBy d p ∧
      (p.cmd = cmdGetState → PacketBuffer.packet s.dm.buffer = stateReply p.id d)
  | _ => h = d

/-- `h₀` is `is_halted` in the first cycle -/
structure CoreInv (h₀ : Bool) (s : System) (h : Bool) : Prop where
  now : CoreIs s h (haltedAfter h₀ (s.done.map (·.request)))
  history : ∀ xs x ys, s.done = xs ++ x :: ys → x.request.cmd = cmdGetState →
    x.reply = stateReply x.request.id (haltedAfter h₀ (xs.map (·.request)))

theorem coreIs_of_waitInput {d : Bool} (hs : s.dm.curState = .waitInput) : CoreIs s h d ↔ h = d := by
  simp [CoreIs, hs]

/-- nothing is recorded -/
theorem CoreInv.keep (hc : CoreInv h₀ s h) (hfin : s.finishes e = false)
    (hnow : CoreIs (s.next e T) h' (haltedAfter h₀ (s.done.map (·.request)))) : CoreInv h₀ (s.next e T) h' := by
  have hdone : (s.next e T).done = s.done := by simp [System.next, hfin]
  exact ⟨by rwa [hdone], by rw [hdone]; exact hc.history⟩

/-- a request is awaited -/
theorem CoreInv.next_waitInput (hc : CoreInv h₀ s h) (hs : s.dm.curState = .waitInput)
    (hbuf : s.dm.buffer.curState = .idle) (ho : Obeys s h h') : CoreInv h₀ (s.next e T) h' := by
  have heq := ho.eq (by simp [hs]) (by simp [hs])
  have hnow := (coreIs_of_waitInput hs).1 hc.now
  refine hc.keep (finishes_of_idle hbuf e) ?_
  have hne : (s.next e T).dm.curState ≠ .waitSend := by
    have hnext : (s.next e T).dm.curState = DebugModule.nextState T s.dm (s.pins e) := rfl
    rw [hnext]
    simp only [DebugModule.nextState, hs]
    split_ifs
    · simp
    · exact (dispatch_ne _ _).2.2
    · simp
  unfold CoreIs
  split <;> simp_all

/-- the reply to GET_STATE -/
theorem packet_of_state (hx : Executing s p) (hidle : ∀ t, (s.dm.copier t).curState = .idle) (hcmd : p.cmd = cmdGetState) :
    PacketBuffer.packet (s.next e T).dm.buffer = stateReply p.id e.isHalted := by
  have hs : s.dm.curState = .state := by
    rw [hx.state, hcmd]
    rfl
  obtain ⟨-, hstatus, hid⟩ := hx.buffer_next (e := e) (T := T)
  have hok : p.status = statusOk := by
    rw [Packet.status, hcmd]
    rfl
  have hout : ∀ t, DebugMemoryCopier.outPacket (s.dm.copier t) (DebugModule.copierIn s.dm (s.pins e) t) = none := fun t =>
    (DebugMemoryCopier.quiet_of_idle (hidle t) _ false).1
  have hlen : (s.next e T).dm.buffer.lenReg = 1 := by
    simp [System.next, dmNext, DebugModule.next, PacketBuffer.next, bufferIn, outLen, hs]
  have hpayload : (s.next e T).dm.buffer.payloadDataBuf 0 = if e.isHalted then 1 else 0 := by
    have hmux : (DebugModule.bufferIn s.dm (s.pins e)).payload = some (0, if e.isHalted then 1 else 0) := by
      show outPayload s.dm (s.pins e) = _
      simp only [outPayload, hout, stateOutPayload, hs]
      rfl
    show (PacketBuffer.next s.dm.buffer (DebugModule.bufferIn s.dm (s.pins e))).payloadDataBuf 0 = _
    simp only [PacketBuffer.next, hmux, Function.update_self]
  rw [PacketBuffer.packet, hstatus, hid, hlen, hok]
  show [_, _, _, (s.next e T).dm.buffer.payloadDataBuf 0] = _
  rw [hpayload]
  rfl

/-- a request is executed -/
theorem CoreInv.next_exec (hc : CoreInv h₀ s e.isHalted) (hx : Executing s p)
    (hidle : p.cmd = cmdGetState → ∀ t, (s.dm.copier t).curState = .idle) (ho : Obeys s e.isHalted h') :
    CoreInv h₀ (s.next e T) h' := by
  obtain ⟨rest, hrest⟩ := hx.busy.current
  refine hc.keep (finishes_of_idle hx.buffer e) ?_
  have hnow := hc.now
  generalize haltedAfter h₀ (s.done.map (·.request)) = d at hnow
  have hreq : (s.next e T).host.requests = p :: rest := by rw [host_next_of_idle hx.buffer, hrest]
  have hnext : (s.next e T).dm.curState = DebugModule.nextState T s.dm (s.pins e) := rfl
  obtain ⟨hhalt, hresume, -⟩ := Packet.dispatch_wire (p := p)
  rw [← hx.state] at hhalt hresume
  by_cases h1 : s.dm.curState = .halt
  · -- HALT: the core is still what it was, or it has been halted
    have hcmd := hhalt.1 h1
    simp only [CoreIs, h1] at hnow
    cases hh : e.isHalted with
    | true =>
      have hto : (s.next e T).dm.curState = .waitSend := by simp [hnext, DebugModule.nextState, h1, pins, hh]
      have hkeep : h' = true := by
        by_contra hno
        have hr := ho.runs hh (Bool.eq_false_of_not_eq_true hno)
        simp [resumeReq, h1] at hr
      simp only [CoreIs, hto, hreq, List.cons.injEq]
      rintro q r ⟨rfl, rfl⟩
      refine ⟨by rw [hkeep, haltedBy, if_pos hcmd], fun hg => ?_⟩
      rw [hcmd] at hg
      cases hg
    | false =>
      have hto : (s.next e T).dm.curState = .halt := by simp [hnext, DebugModule.nextState, h1, pins, hh]
      have hd : d = false := by simpa [hh, eq_comm] using hnow
      simp only [CoreIs, hto, hd]
      cases h' <;> simp
  · by_cases h2 : s.dm.curState = .resume
    · -- RESUME, in the same way
      have hcmd := hresume.1 h2
      simp only [CoreIs, h2] at hnow
      cases hh : e.isHalted with
      | false =>
        have hto : (s.next e T).dm.curState = .waitSend := by simp [hnext, DebugModule.nextState, h2, pins, hh]
        have hkeep : h' = false := by
          by_contra hno
          have hr := ho.halts hh (Bool.eq_true_of_not_eq_false hno)
          simp [haltReq, h2] at hr
        simp only [CoreIs, hto, hreq, List.cons.injEq]
        rintro q r ⟨rfl, rfl⟩
        refine ⟨by rw [hkeep, haltedBy, if_neg (by rw [hcmd]; decide), if_pos hcmd], fun hg => ?_⟩
        rw [hcmd] at hg
        cases hg
      | true =>
        have hto : (s.next e T).dm.curState = .resume := by simp [hnext, DebugModule.nextState, h2, pins, hh]
        have hd : d = true := by simpa [hh, eq_comm] using hnow
        simp only [CoreIs, hto, hd]
        cases h' <;> simp
    · -- the core is not touched
      have hkeep : h' = e.isHalted := ho.eq h1 h2
      have hd : e.isHalted = d := by
        unfold CoreIs at hnow
        split at hnow
        · exact absurd ‹_› h1
        · exact absurd ‹_› h2
        · exact absurd ‹_› hx.ne_waitSend
        · exact hnow
      have hby : haltedBy d p = d := by rw [haltedBy, if_neg (mt hhalt.2 h1), if_neg (mt hresume.2 h2)]
      rcases DebugModule.nextState_of_exec (T := T) hx.state (s.pins e) with hstay | hdone
      · have hsame := hnext.trans hstay
        rw [hkeep, hd]
        unfold CoreIs
        rw [hsame]
        split
        · exact absurd ‹_› h1
        · exact absurd ‹_› h2
        · exact absurd ‹_› hx.ne_waitSend
        · rfl
      · simp only [CoreIs, hnext.trans hdone, hreq, List.cons.injEq]
        rintro q r ⟨rfl, rfl⟩
        refine ⟨by rw [hkeep, hd, hby], fun hg => ?_⟩
        rw [packet_of_state hx (hidle hg) hg, hd]

/-- a reply is sent -/
theorem CoreInv.next_send {k : ℕ} (hc : CoreInv h₀ s h) (hr : Replying s p k) (ho : Obeys s h h') :
    CoreInv h₀ (s.next e T) h' := by
  obtain ⟨rest, hrest⟩ := hr.busy.current
  have heq := ho.eq (by simp [hr.state]) (by simp [hr.state])
  have hnow := hc.now
  simp only [CoreIs, hr.state] at hnow
  obtain ⟨hh, hg⟩ := hnow p rest hrest
  have hnext : (s.next e T).dm.curState =
      if PacketBuffer.sendAck s.dm.buffer true e.sendReady then .waitInput else .waitSend := by
    show DebugModule.nextState T s.dm (s.pins e) = _
    simp [DebugModule.nextState, hr.state, hr.outSendAck]
  rcases hr.step e with ⟨hfin, hack, hgot, -⟩ | ⟨hfin, hack, -⟩
  · -- the transaction is recorded
    rw [hack, if_pos rfl] at hnext
    have hdone : (s.next e T).done = s.done ++ [s.current p] := by
      simp [System.next, hfin, hrest, hr.transaction_next, hgot]
    refine ⟨?_, fun xs x ys hxs hcmd => ?_⟩
    · rw [coreIs_of_waitInput hnext, hdone, List.map_append, heq, hh]
      exact (haltedAfter_concat _ _ _).symm
    · rw [hdone] at hxs
      rcases split_snoc hxs with ⟨rfl, rfl⟩ | ⟨zs, hzs⟩
      · exact hg hcmd
      · exact hc.history xs x zs hzs hcmd
  · rw [hack, if_neg Bool.false_ne_true] at hnext
    have hreq : (s.next e T).host.requests = p :: rest := by simp [System.next, hfin, hrest]
    refine hc.keep hfin ?_
    simp only [CoreIs, hnext, hreq, List.cons.injEq]
    rintro q r ⟨rfl, rfl⟩
    refine ⟨by rw [heq, hh], fun hcmd => ?_⟩
    rw [hr.buffer_next, PacketBuffer.packet_sending]
    exact hg hcmd

/-- **Step.** -/
theorem CoreInv.next (hc : CoreInv h₀ s e.isHalted) (hp : Phase s) (ho : Obeys s e.isHalted h') (T : ℕ) :
    CoreInv h₀ (s.next e T) h' := by
  cases hp with
  | rest hq hdm hbuf => exact hc.next_waitInput hdm hbuf ho
  | receive p hp hdm hbuf => exact hc.next_waitInput hdm hbuf ho
  | dispatch p hb hdm hbuf => exact hc.next_waitInput hdm hbuf ho
  | exec p hb hdm hbuf hgot hreset hcopy =>
    refine hc.next_exec ⟨hb, hdm, hbuf, hgot⟩ (fun hcmd t => ?_) ho
    have hno : ¬ (p.Reads t ∨ p.Writes t) := by
      rintro (h | h) <;> have hcmd' := hcmd.symm.trans h.1 <;> cases t <;> cases hcmd'
    have hfresh := hcopy t
    rw [if_neg hno] at hfresh
    exact hfresh.idle
  | send p k hb hdm hsend hgot hcounter hidle hlen hok => exact hc.next_send ⟨hb, hdm, hsend, hgot, hcounter, hidle, hlen⟩ ho

end System

end FpgaLearning.Debug
