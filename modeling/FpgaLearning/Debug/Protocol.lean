/-
The debug protocol over whole runs.

`Inv` holds after every number of clock edges: the module is in one of its phases, the transactions recorded are those of
the requests that are no longer waiting, in their order, and each of them is `Ok`. The wires to the core and to the
memories follow from the phase (`Wires`). `System.rank` falls in every cycle in which the module does not wait for its
surroundings; if they are fair, every request is answered.
-/
import FpgaLearning.Debug.Execution

namespace FpgaLearning.Debug

open FpgaLearning.Memory DebugModule

namespace System

variable {s : System} {e : Cycle} {T : ℕ} {p : Packet} {t : Target} {requests : List Packet}

/-! ## The invariant of a run -/

/-- the count of the last read of memory `t` among `ps`; `c` if there is none -/
def lastCount (t : Target) (c : Byte) (ps : List Packet) : Byte :=
  ps.foldl (fun c p => if p.Reads t then p.count else c) c

/-- a request that follows the transactions `xs` finds what they have left -/
structure Follows (regs : Target → Byte) (mem : Target → WordMem) (xs : List Transaction) (tr : Trace) : Prop where
  readLen : ∀ t, tr.readLen t = lastCount t (regs t) (xs.map (·.request))
  before : ∀ t, tr.before t = (xs.getLast?.map (·.after t)).getD (mem t)

structure Inv (regs : Target → Byte) (mem : Target → WordMem) (requests : List Packet) (s : System) : Prop where
  phase : Phase s
  order : s.done.map (·.request) ++ s.host.requests = requests
  ok : ∀ x ∈ s.done, x.Ok
  follows : Follows regs mem s.done s.trace
  history : ∀ xs x ys, s.done = xs ++ x :: ys → Follows regs mem xs x.toTrace

variable {regs : Target → Byte} {mem : Target → WordMem}

theorem Inv.init (dm : DebugModule.St) (mem : Target → WordMem) (bus : Target → Word) (requests : List Packet) :
    Inv (fun t => (dm.copier t).readLen) mem requests (init dm mem bus requests) := by
  refine ⟨?_, rfl, fun x hx => absurd hx List.not_mem_nil, ⟨fun _ => rfl, fun _ => rfl⟩, fun xs x ys hxs => ?_⟩
  · have hreset : NoReset (System.init dm mem bus requests) := ⟨rfl, rfl, rfl⟩
    have hfresh : ∀ t, Fresh (System.init dm mem bus requests) t := fun t => ⟨⟨rfl, rfl, rfl, rfl⟩, rfl⟩
    cases requests with
    | nil => exact .rest rfl rfl rfl rfl rfl hreset hfresh
    | cons p rest => exact .receive p ⟨rest, rfl⟩ rfl rfl (.cmd rfl) rfl hreset hfresh
  · exact absurd hxs.symm (by simp [System.init])

/-- while the reply is not complete, nothing is recorded -/
theorem Inv.keep (h : Inv regs mem requests s) (hfin : s.finishes e = false) (hphase : Phase (s.next e T)) :
    Inv regs mem requests (s.next e T) := by
  have hdone : (s.next e T).done = s.done := by simp [System.next, hfin]
  have hreq : (s.next e T).host.requests = s.host.requests := by simp [System.next, hfin]
  have htrace := trace_next (T := T) hfin
  refine ⟨hphase, by rw [hdone, hreq, h.order], by rw [hdone]; exact h.ok, ?_, by rw [hdone]; exact h.history⟩
  rw [hdone, htrace]
  exact ⟨h.follows.readLen, h.follows.before⟩

/-- the end of a list is its last element, or it lies before it -/
theorem split_snoc {α : Type*} {l xs ys : List α} {a x : α} (h : l ++ [a] = xs ++ x :: ys) :
    (xs = l ∧ x = a) ∨ ∃ zs, l = xs ++ x :: zs := by
  rcases List.eq_nil_or_concat ys with rfl | ⟨zs, b, rfl⟩
  · obtain ⟨h1, h2⟩ := List.append_inj' h rfl
    exact .inl ⟨h1.symm, (List.cons.inj h2).1.symm⟩
  · have h' : l ++ [a] = (xs ++ x :: zs) ++ [b] := by simpa using h
    exact .inr ⟨zs, (List.append_inj' h' rfl).1⟩

/-- the transaction is recorded, and the next request follows it -/
theorem Inv.record {k : ℕ} (h : Inv regs mem requests s) (hrep : Replying s p k) (hok : (s.current p).Ok)
    (hfin : s.finishes e = true) (hreply : s.gotNext e = PacketBuffer.packet s.dm.buffer) (hphase : Phase (s.next e T)) :
    Inv regs mem requests (s.next e T) := by
  obtain ⟨rest, hrest⟩ := hrep.busy.current
  have hdone : (s.next e T).done = s.done ++ [s.current p] := by
    simp [System.next, hfin, hrest, hrep.transaction_next, hreply]
  have hreq : (s.next e T).host.requests = rest := by simp [System.next, hfin, hrest]
  have htrace : (s.next e T).trace = startTrace (s.dmNext e T) (s.portNext e) := by simp [System.next, hfin]
  have hcurrent : Follows regs mem s.done (s.current p).toTrace := ⟨h.follows.readLen, h.follows.before⟩
  refine ⟨hphase, ?_, fun x hx => ?_, ?_, fun xs x ys hxs => ?_⟩
  · rw [hdone, hreq, ← h.order, hrest, List.map_append, List.append_assoc]
    rfl
  · rw [hdone, List.mem_append, List.mem_singleton] at hx
    rcases hx with hx | rfl
    · exact h.ok x hx
    · exact hok
  · rw [hdone, htrace]
    constructor
    · intro t
      show ((s.next e T).dm.copier t).readLen = _
      rw [hrep.readLen_next, hrep.readLen, h.follows.readLen, List.map_append, lastCount, lastCount, List.foldl_append]
      rfl
    · intro t
      rw [List.getLast?_concat]
      exact (hrep.trace_next (T := T)).2 t
  · rw [hdone] at hxs
    rcases split_snoc hxs with ⟨rfl, rfl⟩ | ⟨zs, hzs⟩
    · exact hcurrent
    · exact h.history xs x zs hzs

/-- **One cycle.** -/
theorem Inv.next (h : Inv regs mem requests s) (e : Cycle) (T : ℕ) : Inv regs mem requests (s.next e T) := by
  cases h.phase with
  | rest hq hdm hbuf hP hgot hreset hfresh =>
    exact h.keep (finishes_of_idle hbuf e) (.next_rest hq hdm hbuf hP hgot hreset hfresh)
  | receive p hp hdm hbuf hP hgot hreset hfresh =>
    exact h.keep (finishes_of_idle hbuf e) (.next_receive hp hdm hbuf hP hgot hreset hfresh)
  | dispatch p hb hdm hbuf hgot hreset hfresh =>
    exact h.keep (finishes_of_idle hbuf e) (.next_dispatch hb hdm hbuf hgot hreset hfresh)
  | exec p hb hdm hbuf hgot hreset hcopy =>
    exact h.keep (finishes_of_idle hbuf e) (.next_exec ⟨hb, hdm, hbuf, hgot⟩ hreset hcopy)
  | send p k hb hdm hsend hgot hcounter hidle hlen hok =>
    have hrep : Replying s p k := ⟨hb, hdm, hsend, hgot, hcounter, hidle, hlen⟩
    obtain ⟨hphase, hreply⟩ := Phase.next_send (e := e) (T := T) hrep hok
    cases hfin : s.finishes e with
    | false => exact h.keep hfin hphase
    | true => exact h.record hrep hok hfin (hreply hfin) hphase

section Run

variable (T : ℕ) (dm : DebugModule.St) (mem : Target → WordMem) (bus : Target → Word) (requests : List Packet) (e : ℕ → Cycle)

/-- **Invariant of every run.** -/
theorem run_inv (n : ℕ) :
    Inv (fun t => (dm.copier t).readLen) mem requests (run T dm mem bus requests e n) :=
  Clocked.run_inv (Inv _ mem requests) (fun _ _ => True) (.init dm mem bus requests) (fun _ i h _ => h.next i T)
    (fun _ => trivial) n

/-- the bytes that leave in the first `n` cycles -/
def sentBytes (n : ℕ) : List Byte :=
  (List.range n).flatMap fun k => ((run T dm mem bus requests e k).emitted (e k)).toList

end Run

/-- every byte that leaves belongs to the reply of a request -/
theorem replies_next (h : Inv regs mem requests s) (e : Cycle) (T : ℕ) :
    (s.next e T).done.flatMap (·.reply) ++ (s.next e T).host.got =
      s.done.flatMap (·.reply) ++ s.host.got ++ (s.emitted e).toList := by
  cases hfin : s.finishes e with
  | false => simp [System.next, hfin, gotNext]
  | true =>
    have hhead : ∃ p rest, s.host.requests = p :: rest := by
      cases h.phase with
      | rest _ _ hbuf | receive _ _ _ hbuf | dispatch _ _ _ hbuf | exec _ _ _ hbuf =>
        rw [finishes_of_idle hbuf e] at hfin
        exact absurd hfin (by decide)
      | send p _ hb => exact ⟨p, hb.current⟩
    obtain ⟨p, rest, hrest⟩ := hhead
    simp [System.next, hfin, hrest, gotNext, transaction]

theorem sentBytes_eq (T : ℕ) (dm : DebugModule.St) (mem : Target → WordMem) (bus : Target → Word)
    (requests : List Packet) (e : ℕ → Cycle) (n : ℕ) : sentBytes T dm mem bus requests e n =
      (run T dm mem bus requests e n).done.flatMap (·.reply) ++ (run T dm mem bus requests e n).host.got := by
  induction n with
  | zero => rfl
  | succ n ih =>
    have hstep := replies_next (run_inv T dm mem bus requests e n) (e n) T
    rw [sentBytes, List.range_succ, List.flatMap_append, ← sentBytes, ih]
    simpa [Clocked.run_succ] using hstep.symm

/-! ## The wires -/

/-- the module executes a request of kind `P`: it has been sent completely, and its reply has not begun -/
def Executes (s : System) (P : Packet → Prop) : Prop :=
  ∃ p rest, s.host.requests = p :: rest ∧ P p ∧ s.host.sent = p.bytes.length ∧ s.host.got = []

/-- what the module may drive, in a state `s` and the cycle `e` that follows -/
structure Wires (T : ℕ) (s : System) (e : Cycle) : Prop where
  halt : haltReq s.dm = true → Executes s (·.cmd = cmdHalt)
  resume : resumeReq s.dm = true → Executes s (·.cmd = cmdResume)
  reset : softResetN s.dm = false → Executes s (·.cmd = cmdReset)
  memory : ∀ t, s.req e t = true →
    Executes s fun p => (p.cmd = t.cmdRead ∨ p.cmd = t.cmdWrite) ∧ p.status = statusOk
  /-- a reply begins in the cycle in which the command is done -/
  answer : s.dm.curState ≠ .waitSend → (s.next e T).dm.curState = .waitSend → ∀ p rest, s.host.requests = p :: rest →
    (p.cmd = cmdHalt → e.isHalted = true) ∧ (p.cmd = cmdResume → e.isHalted = false)
  /-- and nothing is sent before -/
  send : (s.emitted e).isSome = true → s.dm.curState = .waitSend

theorem status_of_copies (h : p.Reads t ∨ p.Writes t) : p.status = statusOk := by
  rcases h with h | ⟨hcmd, h4⟩
  · exact status_of_reads h
  · cases t <;> simp [Packet.status, hcmd, Target.cmdWrite, h4, statusOk, cmdWriteProg, cmdWriteData, cmdReadProg, cmdReadData]

theorem Executing.wires (h : Executing s p) (hreset : NoReset s ∨ p.cmd = cmdReset ∧ Pulse s)
    (hcopy : ∀ t, if p.Reads t ∨ p.Writes t then Copying s p t else Fresh s t) : Wires T s e := by
  obtain ⟨rest, hrest⟩ := h.busy.current
  have hex : ∀ P : Packet → Prop, P p → Executes s P := fun P hP => ⟨p, rest, hrest, hP, h.busy.sent, h.got⟩
  obtain ⟨hhalt, hresume, -⟩ := Packet.dispatch_wire (p := p)
  rw [← h.state] at hhalt hresume
  refine ⟨fun hw => hex _ (hhalt.1 (by simpa [haltReq] using hw)),
    fun hw => hex _ (hresume.1 (by simpa [resumeReq] using hw)), fun hw => ?_, fun t hw => ?_, fun _ hnext q r hq => ?_, ?_⟩
  · refine hex _ ((hreset.resolve_left fun hno => ?_).1)
    simp [softResetN_eq, hno.counter] at hw
  · have ht : p.Reads t ∨ p.Writes t := by
      by_contra hno
      have hfresh : Fresh s t := by simpa [hno] using hcopy t
      rw [req_of_idle hfresh.idle] at hw
      exact absurd hw (by decide)
    exact hex _ ⟨ht.imp And.left And.left, status_of_copies ht⟩
  · obtain ⟨rfl, -⟩ : p = q ∧ rest = r := by simpa [hrest] using hq
    have hnext' : DebugModule.nextState T s.dm (s.pins e) = .waitSend := hnext
    constructor
    · intro hcmd
      by_contra hno
      simp [DebugModule.nextState, hhalt.2 hcmd, pins, hno] at hnext'
    · intro hcmd
      by_contra hno
      simp [DebugModule.nextState, hresume.2 hcmd, pins, hno] at hnext'
  · simp [emitted_of_idle h.buffer]

/-- while a request is awaited nothing is driven -/
theorem wires_of_waitInput (hdm : s.dm.curState = .waitInput) (hbuf : s.dm.buffer.curState = .idle) (hreset : NoReset s)
    (hfresh : ∀ t, Fresh s t) : Wires T s e := by
  refine ⟨by simp [haltReq, hdm], by simp [resumeReq, hdm], by simp [softResetN_eq, hreset.counter],
    fun t => by simp [req_of_idle (hfresh t).idle], fun _ hnext => ?_, by simp [emitted_of_idle hbuf]⟩
  have hnext' : DebugModule.nextState T s.dm (s.pins e) = .waitSend := hnext
  simp only [DebugModule.nextState, hdm] at hnext'
  split_ifs at hnext'
  exact absurd hnext' (dispatch_ne _ _).2.2

theorem Phase.wires (h : Phase s) (T : ℕ) (e : Cycle) : Wires T s e := by
  cases h with
  | rest hq hdm hbuf hP hgot hreset hfresh => exact wires_of_waitInput hdm hbuf hreset hfresh
  | receive p hp hdm hbuf hP hgot hreset hfresh => exact wires_of_waitInput hdm hbuf hreset hfresh
  | dispatch p hb hdm hbuf hgot hreset hfresh => exact wires_of_waitInput hdm hbuf hreset hfresh
  | exec p hb hdm hbuf hgot hreset hcopy => exact Executing.wires ⟨hb, hdm, hbuf, hgot⟩ hreset hcopy
  | send p k hb hdm hsend hgot hcounter hidle hlen hok =>
    exact ⟨by simp [haltReq, hdm], by simp [resumeReq, hdm], by simp [softResetN_eq, hcounter],
      fun t => by simp [req_of_idle (hidle t).1], fun hne => absurd hdm hne, fun _ => hdm⟩

end System

end FpgaLearning.Debug
