/-
Every request is answered.

`rank` counts what is left to do: it falls in every cycle in which the module does not wait for the host, the sender, a
memory or the core. Fair surroundings let it wait only for so long.
-/
import FpgaLearning.Debug.Protocol

namespace FpgaLearning.Debug

open FpgaLearning.Memory DebugModule

/-! ## The rank of the system -/

/-- bytes of the current request that have not been sent -/
def Host.left (h : Host) : ℕ :=
  match h.requests with
  | [] => 0
  | p :: _ => p.bytes.length - h.sent

namespace System

def stateRank (s : System) : ℕ :=
  match s.dm.curState with
  | .waitInput => 2048 + s.host.left + (!PacketParser.resValid s.dm.parser).toNat
  | .read t | .write t => 512 + DebugMemoryCopier.rank (s.dm.copier t) s.dm.parser.resLen (s.port t).ack
  | .reset => 512 + if s.dm.resetController.counter = 0#4 then 11 else s.dm.resetController.counter.toNat
  | .waitSend => PacketBuffer.rank s.dm.buffer
  | _ => 512

/-- what is left to do -/
def rank (s : System) : ℕ := 4096 * s.host.requests.length + s.stateRank

/-- the module waits for its surroundings -/
def Waits (s : System) (e : Cycle) : Prop :=
  match s.dm.curState with
  | .waitInput => e.go = false
  | .halt => e.isHalted = false
  | .resume => e.isHalted = true
  | .read t | .write t => s.req e t = true ∧ e.grant t = false
  | .waitSend => e.sendReady = false
  | _ => False

/-- one cycle brings the run nearer to its end, or it is waited for -/
def Progress (s : System) (e : Cycle) (T : ℕ) : Prop :=
  (s.next e T).rank < s.rank ∨
    (s.Waits e ∧ (s.next e T).rank = s.rank ∧ (s.next e T).dm.curState = s.dm.curState)

variable {s : System} {e : Cycle} {T : ℕ} {p : Packet} {t : Target} {requests : List Packet}

theorem stateRank_le (s : System) : s.stateRank ≤ 2048 + 259 := by
  have hleft : s.host.left ≤ 258 := by
    unfold Host.left
    split
    · exact Nat.zero_le _
    · rename_i p _ _
      have := p.length_le
      rw [Packet.length_bytes]
      omega
  have hvalid : (!PacketParser.resValid s.dm.parser).toNat ≤ 1 := Bool.toNat_le _
  have hcopier : ∀ t, DebugMemoryCopier.rank (s.dm.copier t) s.dm.parser.resLen (s.port t).ack ≤ 1007 := fun t =>
    DebugMemoryCopier.rank_le _ _ _
  have hbuf := PacketBuffer.rank_le s.dm.buffer
  have hctr := s.dm.resetController.counter.isLt
  unfold stateRank
  split
  · omega
  · have := hcopier ‹_›; omega
  · have := hcopier ‹_›; omega
  · split_ifs <;> omega
  · omega
  · omega

/-- an executed command ranks below every request that is awaited -/
theorem stateRank_of_executed (h : s.dm.curState ≠ .waitInput) : s.stateRank ≤ 512 + 1007 := by
  have hcopier : ∀ t, DebugMemoryCopier.rank (s.dm.copier t) s.dm.parser.resLen (s.port t).ack ≤ 1007 := fun t =>
    DebugMemoryCopier.rank_le _ _ _
  have hbuf := PacketBuffer.rank_le s.dm.buffer
  have hctr := s.dm.resetController.counter.isLt
  unfold stateRank
  split
  · exact absurd ‹_› h
  · have := hcopier ‹_›; omega
  · have := hcopier ‹_›; omega
  · split_ifs <;> omega
  · omega
  · omega

theorem PacketParser.Receiving.lt {P : PacketParser.St} {k : ℕ} (h : PacketParser.Receiving P p k) :
    k < p.bytes.length := by
  rw [Packet.length_bytes]
  cases h <;> omega

theorem progress_receive (hp : ∃ rest, s.host.requests = p :: rest) (hdm : s.dm.curState = .waitInput)
    (hbuf : s.dm.buffer.curState = .idle) (hP : PacketParser.Receiving s.dm.parser p s.host.sent) : Progress s e T := by
  obtain ⟨rest, hrest⟩ := hp
  have hlt : s.host.sent < p.bytes.length := PacketParser.Receiving.lt hP
  have hhost := host_next_of_idle (e := e) (T := T) hbuf
  have hdm' : (s.next e T).dm.curState = .waitInput := by
    simp [System.next, dmNext, DebugModule.next, DebugModule.nextState, hdm, hP.resValid]
  have hin : s.input e = if e.go then some p.bytes[s.host.sent] else none := by
    simp [input, Host.pending, hrest, List.getElem?_eq_getElem hlt]
  have hvalid : (!PacketParser.resValid (s.next e T).dm.parser).toNat ≤ 1 := Bool.toNat_le _
  cases hgo : e.go with
  | false =>
    have hnone : s.input e = none := by simp [hin, hgo]
    have hP' : PacketParser.resValid (s.next e T).dm.parser = false :=
      (hP.stay (i := DebugModule.parserIn s.dm (s.pins e)) (by simp [DebugModule.parserIn, pins, hnone])).resValid
    refine .inr ⟨by simp [Waits, hdm, hgo], ?_, by rw [hdm', hdm]⟩
    simp [rank, stateRank, hdm, hdm', hhost, Host.left, hrest, hnone, hP', hP.resValid]
  | true =>
    have hsome : (s.input e).isSome = true := by simp [hin, hgo]
    refine .inl ?_
    simp only [rank, stateRank, hdm, hdm', hhost, Host.left, hrest, hsome, hP.resValid, Bool.toNat_true, Bool.not_false]
    omega

theorem progress_dispatch (hb : Busy s p) (hdm : s.dm.curState = .waitInput) (hbuf : s.dm.buffer.curState = .idle) :
    Progress s e T := by
  have hhost := host_next_of_idle (e := e) (T := T) hbuf
  have hnext : (s.next e T).dm.curState = DebugModule.dispatch p.cmd p.len := by
    simp [System.next, dmNext, DebugModule.next, DebugModule.nextState, hdm, PacketParser.resValid, hb.holds.ready,
      hb.holds.error, hb.holds.cmd, hb.holds.len]
  have hle := stateRank_of_executed (s := s.next e T) (by rw [hnext]; exact (dispatch_ne _ _).1)
  refine .inl ?_
  simp only [rank, hhost]
  have : s.stateRank ≥ 2048 := by simp only [stateRank, hdm]; omega
  omega

/-- a command that is done leaves for a state of lower rank -/
theorem progress_done (h : Executing s p) (hnext : (s.next e T).dm.curState = .waitSend) (hrank : 512 ≤ s.stateRank) :
    Progress s e T := by
  have hhost := host_next_of_idle (e := e) (T := T) h.buffer
  have hbuf := PacketBuffer.rank_le (s.next e T).dm.buffer
  refine .inl ?_
  simp only [rank, hhost]
  have : (s.next e T).stateRank ≤ 262 := by simpa only [stateRank, hnext] using hbuf
  omega

theorem le_stateRank (h : s.dm.curState ≠ .waitSend) : 512 ≤ s.stateRank := by
  unfold stateRank
  split <;> first | contradiction | omega

theorem progress_reset (h : Executing s p) (hs : s.dm.curState = .reset) : Progress s e T := by
  have hctr : (s.next e T).dm.resetController = ResetController.next s.dm.resetController true := by
    show ResetController.next _ (softResetReq s.dm) = _
    simp [softResetReq, hs]
  have hnext : (s.next e T).dm.curState = if ResetController.ack s.dm.resetController then .waitSend else .reset := by
    show DebugModule.nextState T s.dm (s.pins e) = _
    simp [DebugModule.nextState, hs]
  split_ifs at hnext with hack
  · exact progress_done h hnext (le_stateRank (by simp [hs]))
  · have hhost := host_next_of_idle (e := e) (T := T) h.buffer
    have hone : s.dm.resetController.counter ≠ 1#4 := by simpa [ResetController.ack] using hack
    refine .inl ?_
    simp only [rank, stateRank, hs, hnext, hhost, hctr]
    by_cases hz : s.dm.resetController.counter = 0#4
    · simp [ResetController.next, ResetController.resetN, hz, ResetController.resetTicks]
    · obtain ⟨hstep, hne, hlt⟩ := ResetController.next_of_counting hz hone
      simp only [hstep, if_neg hne, if_neg hz]
      omega

theorem progress_memory (h : Executing s p) (hc : Copying s p t)
    (hcommand : p.Reads t ∧ s.dm.curState = .read t ∨ p.Writes t ∧ s.dm.curState = .write t) : Progress s e T := by
  have hhost := host_next_of_idle (e := e) (T := T) h.buffer
  have hnext : (s.next e T).dm.curState =
      if DebugModule.copyReady s.dm (s.pins e) t then .waitSend else s.dm.curState := by
    show DebugModule.nextState T s.dm (s.pins e) = _
    rcases hcommand with ⟨-, hs⟩ | ⟨-, hs⟩ <;> simp [DebugModule.nextState, hs]
  split_ifs at hnext with hready
  · exact progress_done h hnext (le_stateRank h.ne_waitSend)
  · have hrank : ∀ s' : System, s'.dm.curState = s.dm.curState → s'.stateRank =
        512 + DebugMemoryCopier.rank (s'.dm.copier t) s'.dm.parser.resLen (s'.port t).ack := by
      intro s' hs'
      rcases hcommand with ⟨-, hs⟩ | ⟨-, hs⟩ <;> simp [stateRank, hs', hs]
    have hlen : (s.next e T).dm.parser.resLen = s.dm.parser.resLen := by
      rw [(h.busy.next (e := e) (T := T) h.ne_waitSend h.buffer).holds.len, h.busy.holds.len]
    have hack : ((s.next e T).port t).ack = (s.req e t && e.grant t) := by
      simp only [System.next, portNext, Port.next]
      split_ifs with hg <;> simp [hg]
    have hle := p.length_le
    have hcopyReq : (DebugModule.copierIn s.dm (s.pins e) t).copyReq = true := by
      rcases hcommand with ⟨-, hs⟩ | ⟨-, hs⟩ <;> simp [DebugModule.copierIn, hs]
    have hdrop := DebugMemoryCopier.rank_next (c := s.dm.copier t) (i := DebugModule.copierIn s.dm (s.pins e) t)
      (b := ((s.next e T).port t).ack) hcopyReq ?_ ?_ ?_ (by simpa [DebugModule.copyReady] using hready)
    · have hcopier : (s.next e T).dm.copier t =
          DebugMemoryCopier.next (s.dm.copier t) (DebugModule.copierIn s.dm (s.pins e) t) := rfl
      rw [← hcopier] at hdrop
      simp only [Progress, rank, hhost, hrank _ hnext, hrank s rfl, hlen]
      rcases hdrop with hlt | ⟨hreq, hack', heq⟩
      · exact .inl (by simpa [DebugModule.copierIn, pins] using hlt)
      · refine .inr ⟨?_, by simpa [DebugModule.copierIn, pins] using heq, hnext⟩
        have hreq' : s.req e t = true := hreq
        rw [hack, hreq', Bool.true_and] at hack'
        rcases hcommand with ⟨-, hs⟩ | ⟨-, hs⟩ <;> simp [Waits, hs, hreq', hack']
    · intro hb
      rw [hack, req_eq]
      have hb' : (s.port t).ack = true := hb
      cases hs : (s.dm.copier t).curState <;> simp [DebugMemoryCopier.dataReq, hs, hb']
    · intro hs
      cases hc with
      | read k hk _ hr hptr _ hlen =>
        have := p.count.isLt
        rw [hptr, hlen, BitVec.toNat_ofNat]
        omega
      | _ => simp_all
    · intro hs
      cases hc with
      | write k hk _ hw hptr =>
        have hl : (DebugModule.copierIn s.dm (s.pins e) t).inpPacketLen = p.len := h.busy.holds.len
        rw [hptr, hl, p.toNat_len, BitVec.toNat_ofNat]
        omega
      | _ => simp_all

theorem progress_exec (h : Executing s p) (hcopy : ∀ t, if p.Reads t ∨ p.Writes t then Copying s p t else Fresh s t) :
    Progress s e T := by
  have hhost := host_next_of_idle (e := e) (T := T) h.buffer
  have hnext : (s.next e T).dm.curState = DebugModule.nextState T s.dm (s.pins e) := rfl
  have hrank := le_stateRank h.ne_waitSend
  have hstay : s.dm.curState = .halt ∨ s.dm.curState = .resume → (s.next e T).dm.curState = s.dm.curState →
      (s.next e T).rank = s.rank := by
    rintro (hs | hs) hsame <;> simp [rank, stateRank, hhost, hsame, hs]
  cases hs : s.dm.curState with
  | waitInput => exact absurd (h.state.symm.trans hs) (dispatch_ne _ _).1
  | waitTimeout => exact absurd (h.state.symm.trans hs) (dispatch_ne _ _).2.1
  | waitSend => exact absurd hs h.ne_waitSend
  | halt =>
    cases hh : e.isHalted with
    | true => exact progress_done h (by rw [hnext]; simp [DebugModule.nextState, hs, pins, hh]) hrank
    | false =>
      have hsame : (s.next e T).dm.curState = s.dm.curState := by rw [hnext]; simp [DebugModule.nextState, hs, pins, hh]
      exact .inr ⟨by simp [Waits, hs, hh], hstay (by simp [hs]) hsame, hsame⟩
  | resume =>
    cases hh : e.isHalted with
    | false => exact progress_done h (by rw [hnext]; simp [DebugModule.nextState, hs, pins, hh]) hrank
    | true =>
      have hsame : (s.next e T).dm.curState = s.dm.curState := by rw [hnext]; simp [DebugModule.nextState, hs, pins, hh]
      exact .inr ⟨by simp [Waits, hs, hh], hstay (by simp [hs]) hsame, hsame⟩
  | read t =>
    have hr : p.Reads t := (Packet.dispatch_copy t).1.1 (h.state.symm.trans hs)
    exact progress_memory h (by simpa [hr] using hcopy t) (.inl ⟨hr, hs⟩)
  | write t =>
    have hw : p.Writes t := (Packet.dispatch_copy t).2.1 (h.state.symm.trans hs)
    exact progress_memory h (by simpa [hw] using hcopy t) (.inr ⟨hw, hs⟩)
  | reset => exact progress_reset h hs
  | state | errorParity | errorArgs | errorCmd =>
    exact progress_done h (by rw [hnext]; simp [DebugModule.nextState, hs]) hrank

theorem progress_send {k : ℕ} (h : Replying s p k) : Progress s e T := by
  obtain ⟨rest, hrest⟩ := h.busy.current
  have hnext : (s.next e T).dm.curState =
      if PacketBuffer.sendAck s.dm.buffer true e.sendReady then .waitInput else .waitSend := by
    show DebugModule.nextState T s.dm (s.pins e) = _
    simp [DebugModule.nextState, h.state, h.outSendAck]
  rcases h.step e with ⟨hfin, -, -, -⟩ | ⟨hfin, hack, -⟩
  · have hhost : (s.next e T).host = ⟨rest, 0, []⟩ := by simp [System.next, hfin, hrest]
    have hle := stateRank_le (s.next e T)
    refine .inl ?_
    simp only [rank, hhost, hrest, List.length_cons]
    omega
  · have hhost : (s.next e T).host.requests = s.host.requests := by simp [System.next, hfin]
    simp only [hack] at hnext
    have hdrop := PacketBuffer.SendingAt.rank_next h.sending hack
    rw [← h.buffer_next (T := T)] at hdrop
    simp only [Progress, rank, hhost, stateRank, hnext, h.state, Waits]
    rcases hdrop with hlt | ⟨hready, heq⟩
    · exact .inl (by simpa using hlt)
    · exact .inr ⟨hready, by simpa using heq, by simp⟩

/-- **Progress.** While a request is waiting, the module never waits without a reason. -/
theorem Phase.progress (h : Phase s) (hq : s.host.requests ≠ []) (e : Cycle) (T : ℕ) : Progress s e T := by
  cases h with
  | rest hnone => exact absurd hnone hq
  | receive p hp hdm hbuf hP => exact progress_receive hp hdm hbuf hP
  | dispatch p hb hdm hbuf => exact progress_dispatch hb hdm hbuf
  | exec p hb hdm hbuf hgot hreset hcopy => exact progress_exec ⟨hb, hdm, hbuf, hgot⟩ hcopy
  | send p k hb hdm hsend hgot hcounter hidle hlen => exact progress_send ⟨hb, hdm, hsend, hgot, hcounter, hidle, hlen⟩

theorem Phase.got_of_rest (h : Phase s) (hq : s.host.requests = []) : s.host.got = [] := by
  cases h with
  | rest _ _ _ _ hgot | receive _ _ _ _ _ hgot | dispatch _ _ _ _ hgot | exec _ _ _ _ hgot => exact hgot
  | send p k hb =>
    obtain ⟨rest, hrest⟩ := hb.current
    simp [hrest] at hq

theorem requests_next (h : s.host.requests = []) : (s.next e T).host.requests = [] := by
  simp only [System.next]
  split_ifs <;> simp [h]

/-- surroundings of a run `x` in which nothing is waited for without end: the host sends on, bytes are taken, a kept memory
request is served, and the core halts and resumes when it is asked to -/
structure Served (x : ℕ → System) (e : ℕ → Cycle) : Prop where
  host : ∀ n, ∃ m, n ≤ m ∧ (e m).go = true
  sender : ∀ n, ∃ m, n ≤ m ∧ (e m).sendReady = true
  memory : ∀ t n, (x n).req (e n) t = true → ∃ m, n ≤ m ∧ (e m).grant t = true
  halt : ∀ n, haltReq (x n).dm = true → ∃ m, n ≤ m ∧ (e m).isHalted = true
  resume : ∀ n, resumeReq (x n).dm = true → ∃ m, n ≤ m ∧ (e m).isHalted = false

/-- such surroundings do not keep the module waiting for ever -/
theorem Served.not_waits {x : ℕ → System} {e : ℕ → Cycle} (hserved : Served x e) (n : ℕ) :
    ¬ ∀ m, n ≤ m → Waits (x m) (e m) ∧ (x (m + 1)).dm.curState = (x m).dm.curState := by
  intro hall
  have hsame : ∀ m, n ≤ m → (x m).dm.curState = (x n).dm.curState := by
    intro m hm
    induction hm with
    | refl => rfl
    | step hm ih => rw [(hall _ hm).2, ih]
  have hwait := (hall n le_rfl).1
  have hno : ∀ m, n ≤ m → Waits (x m) (e m) := fun m hm => (hall m hm).1
  cases hs : (x n).dm.curState with
  | waitInput =>
    obtain ⟨m, hm, hgo⟩ := hserved.host n
    have := hno m hm
    simp [Waits, hsame m hm, hs, hgo] at this
  | halt =>
    obtain ⟨m, hm, hh⟩ := hserved.halt n (by simp [haltReq, hs])
    have := hno m hm
    simp [Waits, hsame m hm, hs, hh] at this
  | resume =>
    obtain ⟨m, hm, hh⟩ := hserved.resume n (by simp [resumeReq, hs])
    have := hno m hm
    simp [Waits, hsame m hm, hs, hh] at this
  | read t | write t =>
    have hreq : (x n).req (e n) t = true := by
      simp only [Waits, hs] at hwait
      exact hwait.1
    obtain ⟨m, hm, hg⟩ := hserved.memory t n hreq
    have := hno m hm
    simp [Waits, hsame m hm, hs, hg] at this
  | waitSend =>
    obtain ⟨m, hm, hr⟩ := hserved.sender n
    have := hno m hm
    simp [Waits, hsame m hm, hs, hr] at this
  | waitTimeout | reset | state | errorParity | errorArgs | errorCmd => simp [Waits, hs] at hwait

section Run

variable (T : ℕ) (dm : DebugModule.St) (mem : Target → WordMem) (bus : Target → Word) (requests : List Packet) (e : ℕ → Cycle)

/-- surroundings in which nothing is waited for without end -/
abbrev Fair : Prop := Served (run T dm mem bus requests e) e

variable {T dm mem bus requests e}

/-- **Every request is answered.** -/
theorem all_answered (hfair : Fair T dm mem bus requests e) :
    ∃ n, ∀ m, n ≤ m → (run T dm mem bus requests e m).host.requests = [] := by
  have hgoal := Clocked.eventually_of_rank (fun n => (run T dm mem bus requests e n).rank)
    (fun n => (run T dm mem bus requests e n).host.requests = [])
    (fun n => Waits (run T dm mem bus requests e n) (e n) ∧
      (run T dm mem bus requests e (n + 1)).dm.curState = (run T dm mem bus requests e n).dm.curState)
    (fun n => ?_) (fun n hall => hfair.not_waits n fun m hm => (hall m hm).1) 0
  · obtain ⟨n, -, hn⟩ := hgoal
    refine ⟨n, fun m hm => ?_⟩
    induction hm with
    | refl => exact hn
    | step _ ih => exact requests_next ih
  · by_cases hq : (run T dm mem bus requests e n).host.requests = []
    · exact .inl hq
    · rcases (run_inv T dm mem bus requests e n).phase.progress hq (e n) T with hlt | ⟨hw, heq, hsame⟩
      · exact .inr (.inl hlt)
      · exact .inr (.inr ⟨⟨hw, hsame⟩, heq⟩)

theorem all_done (hfair : Fair T dm mem bus requests e) :
    ∃ n, (run T dm mem bus requests e n).done.map (·.request) = requests := by
  obtain ⟨n, hn⟩ := all_answered hfair
  have horder := (run_inv T dm mem bus requests e n).order
  rw [hn n le_rfl, List.append_nil] at horder
  exact ⟨n, horder⟩

end Run

/-- a module whose registers all hold zero -/
def zeroed : DebugModule.St where
  curState := .waitInput
  timeoutCounter := 0
  parser := ⟨.waitCmd, 0#8, 0#8, 0#8, false, fun _ => 0#8, 0#8, 0#8⟩
  buffer := ⟨.idle, 0#8, 0#8, 0#8, 0#8, fun _ => 0#8⟩
  copier _ := ⟨.idle, fun _ => 0#8, 0#8, 0#8⟩
  resetController := ⟨0#4⟩

/-- surroundings without any delay; the core is halted in every other cycle -/
def prompt (n : ℕ) : Cycle := ⟨true, 0#8, false, true, n % 2 == 0, fun _ => true, fun _ => 0#32⟩

theorem prompt_fair (T : ℕ) (dm : DebugModule.St) (mem : Target → WordMem) (bus : Target → Word) (requests : List Packet) :
    Fair T dm mem bus requests prompt where
  host n := ⟨n, le_rfl, rfl⟩
  sender n := ⟨n, le_rfl, rfl⟩
  memory _ n _ := ⟨n, le_rfl, rfl⟩
  halt n _ := ⟨2 * n, by omega, by simp [prompt]⟩
  resume n _ := ⟨2 * n + 1, by omega, by simp [prompt, Nat.add_mod]⟩

end System

/-! ## The contract -/

/-- **The debug protocol.** For all requests, all gaps, all stalls and all delays: each request has one reply, in the order
of the requests, with its id and its status; a reset is one pulse; the wires are driven for their commands only. In fair
surroundings no request is left without its reply. -/
theorem protocol_contract (T : ℕ) (dm : DebugModule.St) (mem : Target → WordMem) (bus : Target → Word)
    (requests : List Packet) (e : ℕ → Cycle) :
    (∀ n, (System.run T dm mem bus requests e n).done.map (·.request) ++
          (System.run T dm mem bus requests e n).host.requests = requests ∧
        System.sentBytes T dm mem bus requests e n =
          (System.run T dm mem bus requests e n).done.flatMap (·.reply) ++ (System.run T dm mem bus requests e n).host.got ∧
        (∀ x ∈ (System.run T dm mem bus requests e n).done,
          (∃ len payload, x.reply = x.request.status :: x.request.id :: len :: payload ∧ payload.length = len.toNat) ∧
          (x.resetLow, x.resetFalls) = if x.request.cmd = cmdReset then (ResetController.resetTicks, 1) else (0, 0)) ∧
        System.Wires T (System.run T dm mem bus requests e n) (e n)) ∧
      (System.Fair T dm mem bus requests e →
        ∃ n, ∀ m, n ≤ m → (System.run T dm mem bus requests e m).done.map (·.request) = requests ∧
          System.sentBytes T dm mem bus requests e m = (System.run T dm mem bus requests e m).done.flatMap (·.reply)) := by
  constructor
  · intro n
    have hinv := System.run_inv T dm mem bus requests e n
    exact ⟨hinv.order, System.sentBytes_eq T dm mem bus requests e n, fun x hx => ⟨(hinv.ok x hx).reply, (hinv.ok x hx).reset⟩,
      hinv.phase.wires T (e n)⟩
  · intro hfair
    obtain ⟨n, hn⟩ := System.all_answered hfair
    refine ⟨n, fun m hm => ?_⟩
    have hinv := System.run_inv T dm mem bus requests e m
    have hgot : (System.run T dm mem bus requests e m).host.got = [] := hinv.phase.got_of_rest (hn m hm)
    refine ⟨?_, by rw [System.sentBytes_eq, hgot, List.append_nil]⟩
    have horder := hinv.order
    rwa [hn m hm, List.append_nil] at horder

theorem protocol_contract_demo : ∃ n, ∀ m, n ≤ m →
    (System.run 16 System.zeroed (fun _ _ => 0#32) (fun _ => 0#32) [⟨cmdHalt, 7#8, [], by decide⟩,
      ⟨cmdReset, 8#8, [], by decide⟩, ⟨cmdResume, 9#8, [], by decide⟩] System.prompt m).done.map (·.request) =
        [⟨cmdHalt, 7#8, [], by decide⟩, ⟨cmdReset, 8#8, [], by decide⟩, ⟨cmdResume, 9#8, [], by decide⟩] := by
  obtain ⟨n, hn⟩ := (protocol_contract 16 System.zeroed (fun _ _ => 0#32) (fun _ => 0#32) [⟨cmdHalt, 7#8, [], by decide⟩,
    ⟨cmdReset, 8#8, [], by decide⟩, ⟨cmdResume, 9#8, [], by decide⟩] System.prompt).2 (System.prompt_fair _ _ _ _ _)
  exact ⟨n, fun m hm => (hn m hm).1⟩

end FpgaLearning.Debug
