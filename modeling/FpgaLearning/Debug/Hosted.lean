/-
The debug module with a program as its host.

The program is a dialogue `x` that writes packets and reads replies. In the closed loop of `System` the host has a list of
requests; here it has the one that the program asks next, and with the end of its reply the program goes on.

- `nextHosted` is the clock edge, `position` what is left of the program.
- `board` is the abstract board of a state; each reply takes it one step further (`HostedInv.answer`).
- `hosted_run`: what the weakest precondition says of a program comes true.
-/
import FpgaLearning.Debug.Board
import FpgaLearning.Debug.CoreState

namespace FpgaLearning.Debug

open FpgaLearning.Memory FpgaLearning.Interaction DebugModule

/-! ## Packets on the line -/

namespace Packet

theorem payload_le {len : Byte} {payload : List Byte} (h : payload.length = len.toNat) : payload.length ≤ 255 :=
  h.trans_le (Nat.le_of_lt_succ len.isLt)

def ofBytes : List Byte → Option Packet
  | cmd :: id :: len :: payload =>
    if h : payload.length = len.toNat then some ⟨cmd, id, payload, payload_le h⟩ else none
  | _ => none

@[simp] theorem ofBytes_bytes (p : Packet) : ofBytes p.bytes = some p := by
  rw [bytes, ofBytes, dif_pos p.toNat_len.symm]

end Packet

/-! ## The abstract board of a transaction -/

def isStore : Access → Bool
  | .store .. => true
  | .load .. => false

namespace Transaction

variable {x : Transaction} {b : Board}

theorem Ok.mem_after (h : x.Ok) (t : Target) (y : Word) : byteAt (x.after t) y =
    if x.request.Writes t ∧ (y - x.request.addr).toNat < x.request.payload.length - 4 then
      x.request.dataByte (y - x.request.addr).toNat else byteAt (x.before t) y := by
  by_cases hw : x.request.Writes t
  · obtain ⟨hstored, -⟩ := h.write t hw
    by_cases hlt : (y - x.request.addr).toNat < x.request.payload.length - 4
    · have haddr : x.request.addrOf (y - x.request.addr).toNat = y := by
        rw [Packet.addrOf, BitVec.ofNat_toNat, BitVec.setWidth_eq, BitVec.add_comm]
        exact BitVec.sub_add_cancel _ _
      rw [if_pos ⟨hw, hlt⟩, ← hstored.written _ hlt, haddr]
    · rw [if_neg fun hc => hlt hc.2]
      refine hstored.kept y fun i hi hy => hlt ?_
      have hle := x.request.length_le
      have hsub : (y - x.request.addr).toNat = i := by
        rw [hy, Packet.addrOf]
        bv_omega
      rwa [hsub]
  · rw [if_neg fun hc => hw hc.1]
    by_cases hr : x.request.Reads t
    · rw [(h.read t hr).1]
    · rw [(h.quiet t hr hw).1]

theorem Ok.stores (h : x.Ok) (t : Target) : (x.accesses t).filter isStore = Board.storesOf x.request t := by
  unfold Board.storesOf
  by_cases hw : x.request.Writes t
  · rw [if_pos hw, (h.write t hw).2, List.filter_eq_self]
    intro a ha
    obtain ⟨i, -, rfl⟩ := List.mem_map.1 ha
    rfl
  · rw [if_neg hw]
    by_cases hr : x.request.Reads t
    · refine List.filter_eq_nil_iff.2 fun a ha => ?_
      have hload := (h.read t hr).2.1 a ha
      cases a with
      | load => exact Bool.false_ne_true
      | store => exact hload.elim
    · rw [(h.quiet t hr hw).2, List.filter_nil]

theorem Ok.replies (h : x.Ok) (hmem : ∀ t, b.mem t = byteAt (x.before t))
    (hstate : x.request.cmd = cmdGetState → x.reply = stateReply x.request.id b.halted) : b.Replies x.request x.reply where
  framed := h.reply
  state := hstate
  read t hr hne := by
    have hread := (h.read t hr).2.2
    have hne' : ¬ x.request.count = 0#8 := hne
    rw [if_neg hne'] at hread
    rw [hread, hmem]
    rfl

end Transaction

namespace System

/-! ## The closed loop -/

variable {α : Type} (x : Dialogue (List Byte) (List Byte) α)

def replies (s : System) : List (List Byte) := s.done.map (·.reply)

/-- what is left of the program -/
def position (s : System) : Dialogue (List Byte) (List Byte) α := x.after s.replies

/-- the request of a program -/
def asked : Dialogue (List Byte) (List Byte) α → List Packet
  | .ask bytes _ => (Packet.ofBytes bytes).toList
  | .done _ => []

def initHosted (dm : DebugModule.St) (mem : Target → WordMem) (bus : Target → Word) : System := init dm mem bus (asked x)

/-- the host goes on to its next request -/
def withRequests (s : System) (q : List Packet) : System := { s with host := { s.host with requests := q } }

/-- one clock edge -/
def nextHosted (s : System) (e : Cycle) (timeoutTicks : ℕ) : System :=
  if s.finishes e then (s.next e timeoutTicks).withRequests (asked (position x (s.next e timeoutTicks)))
  else s.next e timeoutTicks

abbrev hosted (timeoutTicks : ℕ) (dm : DebugModule.St) (mem : Target → WordMem) (bus : Target → Word) (e : ℕ → Cycle)
    (n : ℕ) : System :=
  Clocked.run (fun s i => nextHosted x s i timeoutTicks) e (initHosted x dm mem bus) n

/-! ## The invariant -/

variable {x} {s : System} {e : Cycle} {T : ℕ} {h h' h₀ : Bool} {regs : Target → Byte} {mem : Target → WordMem}
  {requests q : List Packet} {dm : DebugModule.St} {bus : Target → Word}

/-- while the host has nothing to ask, the module awaits a request -/
theorem Phase.of_no_request (hp : Phase s) (hq : s.host.requests = []) : s.dm.curState = .waitInput ∧
    s.dm.buffer.curState = .idle ∧ s.dm.parser.curState = .waitCmd ∧ s.host.got = [] ∧ NoReset s ∧ ∀ t, Fresh s t := by
  cases hp with
  | rest _ hdm hbuf hP hgot hreset hfresh => exact ⟨hdm, hbuf, hP, hgot, hreset, hfresh⟩
  | receive p hp =>
    obtain ⟨rest, hrest⟩ := hp
    rw [hq] at hrest
    cases hrest
  | dispatch p hb | exec p hb | send p k hb =>
    obtain ⟨rest, hrest⟩ := hb.current
    rw [hq] at hrest
    cases hrest

theorem Inv.ask (hi : Inv regs mem requests s) (hq : s.host.requests = []) (hsent : s.host.sent = 0) :
    Inv regs mem (requests ++ q) (s.withRequests q) := by
  obtain ⟨hdm, hbuf, hP, hgot, hreset, hfresh⟩ := hi.phase.of_no_request hq
  have horder := hi.order
  rw [hq, List.append_nil] at horder
  have hreset' : NoReset (s.withRequests q) := ⟨hreset.counter, hreset.low, hreset.falls⟩
  have hfresh' : ∀ t, Fresh (s.withRequests q) t := fun t =>
    ⟨⟨(hfresh t).ack, (hfresh t).dev, (hfresh t).accesses, (hfresh t).readLen⟩, (hfresh t).idle⟩
  refine ⟨?_, congrArg (· ++ q) horder, hi.ok, hi.follows, hi.history⟩
  cases q with
  | nil => exact .rest rfl hdm hbuf hP hgot hreset' hfresh'
  | cons p rest =>
    refine .receive p ⟨rest, rfl⟩ hdm hbuf ?_ hgot hreset' hfresh'
    show PacketParser.Receiving s.dm.parser p s.host.sent
    rw [hsent]
    exact .cmd hP

theorem CoreInv.ask (hc : CoreInv h₀ s h) (hs : s.dm.curState = .waitInput) : CoreInv h₀ (s.withRequests q) h :=
  ⟨(coreIs_of_waitInput (s := s.withRequests q) hs).2 ((coreIs_of_waitInput hs).1 hc.now), hc.history⟩

variable (x h₀ regs mem) in
/-- `h` is `is_halted` in the coming cycle -/
structure HostedInv (s : System) (h : Bool) : Prop where
  inv : ∃ requests, Inv regs mem requests s
  core : CoreInv h₀ s h
  asks : s.host.requests = asked (position x s)

theorem length_asked (x : Dialogue (List Byte) (List Byte) α) : (asked x).length ≤ 1 := by
  cases x with
  | done a => exact Nat.zero_le 1
  | ask bytes k =>
    rw [asked]
    cases Packet.ofBytes bytes <;> simp

/-- with the end of a reply the host has nothing more to ask -/
theorem HostedInv.requests_next (hi : HostedInv x h₀ regs mem s h) (hfin : s.finishes e = true) :
    (s.next e T).host = ⟨[], 0, []⟩ := by
  have hle := length_asked (position x s)
  rw [← hi.asks] at hle
  have htail : s.host.requests.tail = [] := List.eq_nil_of_length_eq_zero (by rw [List.length_tail]; omega)
  simp [next, hfin, htail]

theorem HostedInv.init (e₀ : Bool) : HostedInv x e₀ (fun t => (dm.copier t).readLen) mem (initHosted x dm mem bus) e₀ :=
  ⟨⟨_, .init dm mem bus (asked x)⟩, ⟨rfl, fun _ _ _ hxs => absurd hxs.symm (by simp [initHosted, System.init])⟩,
    congrArg asked (Dialogue.after_nil x).symm⟩

/-- **Step.** -/
theorem HostedInv.next (hi : HostedInv x h₀ regs mem s e.isHalted) (ho : Obeys s e.isHalted h') (T : ℕ) :
    HostedInv x h₀ regs mem (nextHosted x s e T) h' := by
  obtain ⟨requests, hinv⟩ := hi.inv
  have hinv' := hinv.next e T
  have hcore' := hi.core.next hinv.phase ho T
  unfold nextHosted
  cases hfin : s.finishes e with
  | false =>
    have hdone : (s.next e T).done = s.done := by simp [System.next, hfin]
    have hreq : (s.next e T).host.requests = s.host.requests := by simp [System.next, hfin]
    refine ⟨⟨requests, hinv'⟩, hcore', ?_⟩
    show (s.next e T).host.requests = asked (x.after ((s.next e T).done.map (·.reply)))
    rw [hreq, hdone, hi.asks]
    rfl
  | true =>
    have hhost := hi.requests_next (T := T) hfin
    have hnone : (s.next e T).host.requests = [] := by rw [hhost]
    refine ⟨⟨_, hinv'.ask hnone (by rw [hhost])⟩, hcore'.ask (hinv'.phase.of_no_request hnone).1, rfl⟩

/-! ## The board -/

/-- what has been stored in memory `t`, in order -/
def stores (s : System) (t : Target) : List Access := s.done.flatMap fun x => (x.accesses t).filter isStore

/-- how often the core was told to run -/
def resumes (s : System) : ℕ := s.done.countP fun x => x.request.cmd == cmdResume

/-- the board that the host sees: what the answered requests have left -/
def board (h₀ : Bool) (s : System) : Board where
  halted := haltedAfter h₀ (s.done.map (·.request))
  mem t := byteAt (s.trace.before t)
  stores := s.stores
  resumes := s.resumes

theorem board_halted (hi : HostedInv x h₀ regs mem s h) (hs : s.dm.curState = .waitInput) : (board h₀ s).halted = h :=
  ((coreIs_of_waitInput hs).1 hi.core.now).symm

/-- **An answer.** With the end of a reply the program goes on with it, and the board with the request. -/
theorem HostedInv.answer (hi : HostedInv x h₀ regs mem s e.isHalted) (hfin : s.finishes e = true) (T : ℕ) :
    ∃ p reply, s.host.requests = [p] ∧ (nextHosted x s e T).replies = s.replies ++ [reply] ∧
      (nextHosted x s e T).dm.curState = .waitInput ∧ (board h₀ s).Replies p reply ∧
      board h₀ (nextHosted x s e T) = (board h₀ s).next p := by
  obtain ⟨requests, hinv⟩ := hi.inv
  have hinv' := hinv.next e T
  have hhost := hi.requests_next (T := T) hfin
  have hstep : nextHosted x s e T = (s.next e T).withRequests (asked (position x (s.next e T))) := by
    rw [nextHosted, if_pos hfin]
  obtain ⟨p, hp⟩ : ∃ p, s.host.requests = [p] := by
    have hle := length_asked (position x s)
    rw [← hi.asks] at hle
    cases hq : s.host.requests with
    | nil =>
      rw [finishes_of_idle (hinv.phase.of_no_request hq).2.1] at hfin
      cases hfin
    | cons p rest =>
      rw [hq] at hle
      obtain rfl : rest = [] := List.eq_nil_of_length_eq_zero (by simpa using hle)
      exact ⟨p, rfl⟩
  -- the transaction recorded by this clock edge
  obtain ⟨y, hdone, hreq⟩ : ∃ y, (s.next e T).done = s.done ++ [y] ∧ y.request = p :=
    ⟨_, by simp only [System.next, hfin, if_true, hp]; rfl, rfl⟩
  have hok : y.Ok := hinv'.ok y (by rw [hdone]; simp)
  have hbefore : ∀ t, y.before t = s.trace.before t := by
    intro t
    rw [(hinv'.history s.done y [] hdone).before, hinv.follows.before]
  have hafter : ∀ t, (s.next e T).trace.before t = y.after t := by
    intro t
    rw [hinv'.follows.before, hdone, List.getLast?_concat]
    rfl
  have hobeys : Obeys s e.isHalted e.isHalted := ⟨fun h1 h2 => by simp [h1] at h2, fun h1 h2 => by simp [h1] at h2⟩
  have hcore := hi.core.next hinv.phase hobeys T
  refine ⟨p, y.reply, hp, ?_, ?_, ?_, ?_⟩
  · rw [hstep]
    show (s.next e T).done.map (·.reply) = _
    rw [hdone, List.map_append]
    rfl
  · rw [hstep]
    exact (hinv'.phase.of_no_request (by rw [hhost])).1
  · rw [← hreq]
    refine hok.replies (fun t => by rw [hbefore]; rfl) fun hcmd => ?_
    exact hcore.history s.done y [] hdone hcmd
  · rw [hstep]
    unfold board Board.next
    congr 1
    · show haltedAfter h₀ ((s.next e T).done.map (·.request)) = _
      rw [hdone, List.map_append, ← hreq]
      exact haltedAfter_concat _ _ _
    · funext t z
      show byteAt ((s.next e T).trace.before t) z = _
      rw [hafter, hok.mem_after, hreq, hbefore]
    · funext t
      show (s.next e T).done.flatMap _ = _
      rw [hdone, List.flatMap_append, List.flatMap_singleton, hok.stores, hreq]
      rfl
    · show (s.next e T).done.countP _ = _
      rw [hdone, List.countP_append, List.countP_singleton, hreq]
      cases p.cmd == cmdResume <;> rfl

/-! ## Runs -/

section Run

variable (x : Dialogue (List Byte) (List Byte) α) (T : ℕ) (dm : DebugModule.St) (mem : Target → WordMem)
  (bus : Target → Word) (e : ℕ → Cycle)

/-- the core changes only on request -/
def CoreObeys : Prop := ∀ n, Obeys (hosted x T dm mem bus e n) (e n).isHalted (e (n + 1)).isHalted

variable {x T dm mem bus e}

theorem hosted_inv (hcore : CoreObeys x T dm mem bus e) (n : ℕ) : HostedInv x (e 0).isHalted
    (fun t => (dm.copier t).readLen) mem (hosted x T dm mem bus e n) (e n).isHalted := by
  induction n with
  | zero => exact .init _
  | succ n ih => exact ih.next (hcore n) T

/-- until the end of a reply the program and the board stay as they are -/
theorem hosted_stay {n d : ℕ} (hno : ∀ j < d, (hosted x T dm mem bus e (n + j)).finishes (e (n + j)) = false) :
    (hosted x T dm mem bus e (n + d)).host.requests = (hosted x T dm mem bus e n).host.requests ∧
      (hosted x T dm mem bus e (n + d)).done = (hosted x T dm mem bus e n).done ∧
      (hosted x T dm mem bus e (n + d)).trace.before = (hosted x T dm mem bus e n).trace.before := by
  induction d with
  | zero => exact ⟨rfl, rfl, rfl⟩
  | succ d ih =>
    obtain ⟨h1, h2, h3⟩ := ih fun j hj => hno j (Nat.lt_succ_of_lt hj)
    have hfin := hno d (Nat.lt_succ_self d)
    have hstep : hosted x T dm mem bus e (n + (d + 1)) = (hosted x T dm mem bus e (n + d)).next (e (n + d)) T := by
      show nextHosted x (hosted x T dm mem bus e (n + d)) (e (n + d)) T = _
      rw [nextHosted, if_neg (by rw [hfin]; exact Bool.false_ne_true)]
    rw [hstep]
    refine ⟨?_, ?_, ?_⟩
    · rw [← h1]
      simp [System.next, hfin]
    · rw [← h2]
      simp [System.next, hfin]
    · rw [← h3]
      simp [System.next, hfin, traceNext]

/-- a request is answered -/
theorem hosted_finishes (hserved : Served (hosted x T dm mem bus e) e) (hcore : CoreObeys x T dm mem bus e) {n : ℕ}
    (hq : (hosted x T dm mem bus e n).host.requests ≠ []) :
    ∃ d, (hosted x T dm mem bus e (n + d)).finishes (e (n + d)) = true ∧
      ∀ j < d, (hosted x T dm mem bus e (n + j)).finishes (e (n + j)) = false := by
  have hex : ∃ d, (hosted x T dm mem bus e (n + d)).finishes (e (n + d)) = true := by
    by_contra hno
    push Not at hno
    have hno' : ∀ d, (hosted x T dm mem bus e (n + d)).finishes (e (n + d)) = false := fun d =>
      Bool.eq_false_of_not_eq_true (hno d)
    have hstep : ∀ k, hosted x T dm mem bus e (n + k + 1) = (hosted x T dm mem bus e (n + k)).next (e (n + k)) T := by
      intro k
      show nextHosted x (hosted x T dm mem bus e (n + k)) (e (n + k)) T = _
      rw [nextHosted, if_neg (by rw [hno' k]; exact Bool.false_ne_true)]
    have hprogress : ∀ k, (hosted x T dm mem bus e (n + k + 1)).rank < (hosted x T dm mem bus e (n + k)).rank ∨
        ((Waits (hosted x T dm mem bus e (n + k)) (e (n + k)) ∧
          (hosted x T dm mem bus e (n + k + 1)).dm.curState = (hosted x T dm mem bus e (n + k)).dm.curState) ∧
          (hosted x T dm mem bus e (n + k + 1)).rank = (hosted x T dm mem bus e (n + k)).rank) := by
      intro k
      obtain ⟨requests, hinv⟩ := (hosted_inv hcore (n + k)).inv
      have hne : (hosted x T dm mem bus e (n + k)).host.requests ≠ [] := by
        rw [(hosted_stay fun j _ => hno' j).1]
        exact hq
      rw [hstep]
      rcases hinv.phase.progress hne (e (n + k)) T with hlt | ⟨hw, heq, hsame⟩
      · exact .inl hlt
      · exact .inr ⟨⟨hw, hsame⟩, heq⟩
    obtain ⟨m, -, hm⟩ := Clocked.eventually_of_rank (fun k => (hosted x T dm mem bus e (n + k)).rank) (fun _ => False) _
      (fun k => .inr (hprogress k)) (fun k hall => hserved.not_waits (n + k) fun m hm => by
        obtain ⟨j, rfl⟩ := Nat.exists_eq_add_of_le (Nat.le_of_add_right_le hm)
        exact (hall j (by omega)).1) 0
    exact hm
  exact ⟨Nat.find hex, Nat.find_spec hex, fun j hj => Bool.eq_false_of_not_eq_true (Nat.find_min hex hj)⟩

/-- **The program runs.** If the part `y` of a program meets `Q` on the board, then `y` comes to its end, with `Q`. -/
theorem hosted_run (hserved : Served (hosted x T dm mem bus e) e) (hcore : CoreObeys x T dm mem bus e) {β : Type}
    (y : Dialogue (List Byte) (List Byte) β) (f : β → Dialogue (List Byte) (List Byte) α) {Q : β → Board → Prop} {n : ℕ}
    (hpos : position x (hosted x T dm mem bus e n) = y.bind f) (hwait : (hosted x T dm mem bus e n).dm.curState = .waitInput)
    (hwp : y.wp Board.responder Q (board (e 0).isHalted (hosted x T dm mem bus e n))) :
    ∃ m, n ≤ m ∧ ∃ a, position x (hosted x T dm mem bus e m) = f a ∧
      (hosted x T dm mem bus e m).dm.curState = .waitInput ∧ Q a (board (e 0).isHalted (hosted x T dm mem bus e m)) := by
  induction y generalizing n with
  | done a => exact ⟨n, le_rfl, a, hpos, hwait, hwp⟩
  | ask bytes k ih =>
    obtain ⟨⟨p, rfl⟩, hstep⟩ := hwp
    have hreq : (hosted x T dm mem bus e n).host.requests = [p] := by
      rw [(hosted_inv hcore n).asks, hpos, Dialogue.bind, asked, Packet.ofBytes_bytes]
      rfl
    obtain ⟨d, hfin, hno⟩ := hosted_finishes hserved hcore (n := n) (by rw [hreq]; exact List.cons_ne_nil _ _)
    obtain ⟨hreq', hdone, hbefore⟩ := hosted_stay hno
    obtain ⟨q, reply, hq, hreplies, hwait', hans, hboard⟩ := (hosted_inv hcore (n + d)).answer hfin T
    obtain rfl : p = q := by
      rw [hreq', hreq] at hq
      exact (List.cons.inj hq).1
    have hsame : board (e 0).isHalted (hosted x T dm mem bus e (n + d)) =
        board (e 0).isHalted (hosted x T dm mem bus e n) := by
      unfold board stores resumes
      rw [hdone, hbefore]
    rw [hsame] at hans hboard
    have hpos' : position x (hosted x T dm mem bus e (n + d + 1)) = (k reply).bind f := by
      have hafter : position x (hosted x T dm mem bus e (n + d + 1)) =
          (position x (hosted x T dm mem bus e n)).after [reply] := by
        rw [position, position, ← Dialogue.after_append]
        congr 1
        exact hreplies.trans (congrArg (·.map (·.reply) ++ [reply]) hdone)
      rw [hafter, hpos]
      exact Dialogue.after_nil _
    have hwp' := hstep reply _ ⟨p, rfl, hans, rfl⟩
    rw [← hboard] at hwp'
    obtain ⟨m, hm, hrest⟩ := ih reply hpos' hwait' hwp'
    exact ⟨m, by omega, hrest⟩

end Run

end System

end FpgaLearning.Debug
