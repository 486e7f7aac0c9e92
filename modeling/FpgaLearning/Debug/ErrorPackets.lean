/-
Frames with a receive error.

`ErrorPacket` is a flagged frame on the line and `Draining` the invariant of the module while it handles it: the frame is
drained until the line has been quiet, answered once, and leaves the registers that outlive a packet as they were (`Kept`).
So the state at the end agrees with the state before, and any number of such frames in a row are ignored.
-/
import FpgaLearning.Debug.Agreement
import FpgaLearning.Debug.Liveness

namespace FpgaLearning.Debug

open FpgaLearning.Memory FpgaLearning.Clocked

namespace DebugModule

open PacketParser (Listening Shows)
open PacketBuffer (SendingAt)

variable {s₀ s : St} {T k t l n : ℕ} {out : List Byte}

/-! ## A flagged frame on the line -/

/-- the bytes that arrive in the first `n` cycles -/
def received (i : ℕ → In) : ℕ → List Byte
  | 0 => []
  | n + 1 => received i n ++ if (i n).inputValid then [(i n).inputByte] else []

theorem received_prefix (i : ℕ → In) {n m : ℕ} (h : n ≤ m) : received i n <+: received i m := by
  induction h with
  | refl => exact List.prefix_refl _
  | step _ ih => exact ih.trans (List.prefix_append _ _)

/-- the state after `n` cycles -/
abbrev after (T : ℕ) (i : ℕ → In) (s : St) (n : ℕ) : St := run (DebugModule.next T) i s n

theorem after_add (T : ℕ) (i : ℕ → In) (s : St) (n m : ℕ) :
    after T i s (n + m) = after T (fun k => i (n + k)) (after T i s n) m := run_add _ i s n m

/-- the byte that leaves in one cycle -/
def emitted (s : St) (i : In) : List Byte := (if i.sendReady then sendData s else none).toList

/-- the bytes that leave in the first `n` cycles -/
def sent (T : ℕ) (i : ℕ → In) (s : St) : ℕ → List Byte
  | 0 => []
  | n + 1 => sent T i s n ++ emitted (after T i s n) (i n)

/-- between two frames: the next byte is a command byte -/
structure Boundary (s : St) : Prop where
  state : s.curState = .waitInput
  parser : s.parser.curState = .waitCmd

theorem Boundary.next {i : In} (h : Boundary s) (hv : i.inputValid = false) : Boundary (next T s i) :=
  ⟨by simp [DebugModule.next, nextState, h.state, PacketParser.resValid, h.parser],
    by simp [DebugModule.next, PacketParser.next, PacketParser.nextState, h.parser, parserIn, hv]⟩

/-- the next byte, whenever it comes, is taken as a command -/
theorem Boundary.command (h : Boundary s) {j : ℕ → In} {n : ℕ} (hidle : ∀ m < n, (j m).inputValid = false)
    (hv : (j n).inputValid = true) : (after T j s (n + 1)).parser.resCmd = (j n).inputByte := by
  have hb : Boundary (after T j s n) := by
    clear hv
    induction n with
    | zero => exact h
    | succ n ih => exact (ih fun m hm => hidle m (by omega)).next (hidle n (Nat.lt_succ_self n))
  simp [after, run_succ, DebugModule.next, PacketParser.next, parserIn, hv, hb.parser]

/-- A packet one byte of which is received with an error, in cycle `t`; the bytes that arrive until cycle `l` are whatever
was left of it, with fewer than `T - 1` idle cycles between two of them. -/
structure ErrorPacket (T : ℕ) (i : ℕ → In) (t l : ℕ) : Prop where
  clean : ∀ n < t, Clean (i n)
  before : Unfinished (received i t)
  valid : (i t).inputValid = true
  flagged : (i t).inputError = true
  last : t ≤ l
  lastValid : (i l).inputValid = true
  gaps : ∀ n m, t ≤ n → n < m → m ≤ l → (i n).inputValid = true → (i m).inputValid = true →
    (∀ k, n < k → k < m → (i k).inputValid = false) → m - n - 1 < T - 1

/-- from cycle `l` on the host is silent until it has the whole reply -/
def SilentFrom (T : ℕ) (i : ℕ → In) (s : St) (l : ℕ) : Prop :=
  ∀ n, l < n → complete (sent T i s n) = false → (i n).inputValid = false

variable {i : ℕ → In}

/-- the bytes of a flagged frame leave no room for a timeout -/
theorem ErrorPacket.not_silent (h : ErrorPacket T i t l) (hn : t + (T - 1) < n) (hnl : n ≤ l)
    (hq : ∀ k < n, n ≤ k + (T - 1) → (i k).inputValid = false) : False := by
  -- the last byte before cycle `n` and the next one
  let P : ℕ → Prop := fun k => (i k).inputValid = true
  have hb : P (Nat.findGreatest P (n - 1)) := Nat.findGreatest_spec (P := P) (m := t) (by omega) h.valid
  have hbt : t ≤ Nat.findGreatest P (n - 1) := Nat.le_findGreatest (by omega) h.valid
  have hbn : Nat.findGreatest P (n - 1) ≤ n - 1 := Nat.findGreatest_le _
  generalize hbeq : Nat.findGreatest P (n - 1) = b at hb hbt hbn
  have hex : ∃ m, n ≤ m ∧ P m := ⟨l, hnl, h.lastValid⟩
  obtain ⟨hm, hmv⟩ := Nat.find_spec hex
  have hml : Nat.find hex ≤ l := Nat.find_min' hex ⟨hnl, h.lastValid⟩
  have hbetween : ∀ k, b < k → k < Nat.find hex → (i k).inputValid = false := by
    intro k hk hkm
    by_contra hv
    have hv : P k := Bool.eq_true_of_not_eq_false hv
    by_cases hkn : k ≤ n - 1
    · have := Nat.le_findGreatest hkn hv
      omega
    · exact Nat.find_min hex hkm ⟨by omega, hv⟩
  have hgap := h.gaps b (Nat.find hex) hbt (by omega) hml hb hmv hbetween
  have hsilent := hq b (by omega) (by omega)
  have hb' : (i b).inputValid = true := hb
  rw [hsilent] at hb'
  cases hb'

/-! ### What the module keeps -/

/-- the registers that outlive a packet are those of `s₀` -/
structure Kept (s₀ s : St) : Prop where
  quiet : Quiet s
  resData : s.parser.resData = s₀.parser.resData
  payload : s.buffer.payloadDataBuf = s₀.buffer.payloadDataBuf
  addr : ∀ t, (s.copier t).startAddr = (s₀.copier t).startAddr
  readLen : ∀ t, (s.copier t).readLen = (s₀.copier t).readLen

/-- the states in which no command is at work -/
def Resting (s : St) : Prop :=
  s.curState = .waitInput ∨ s.curState = .waitTimeout ∨ s.curState = .errorParity ∨ s.curState = .waitSend

theorem Kept.next (h : Kept s₀ s) (hs : Resting s) (i : In) : Kept s₀ (next T s i) := by
  have hne : s.curState ≠ .state ∧ ∀ t, s.curState ≠ .read t ∧ s.curState ≠ .write t := by
    rcases hs with hs | hs | hs | hs <;> simp [hs]
  have hcopier : ∀ t, DebugMemoryCopier.inpPacketDataAddr (s.copier t) (copierIn s i t) = none ∧
      DebugMemoryCopier.outPacket (s.copier t) (copierIn s i t) = none := fun t =>
    ⟨(DebugMemoryCopier.next_of_idle (h.quiet.idle t) (by simp [copierIn, hne.2 t])).2.2.1,
      (DebugMemoryCopier.quiet_of_idle (h.quiet.idle t) _ false).1⟩
  have haddr : inpPacketDataAddr s i = none := by simp [DebugModule.inpPacketDataAddr, hcopier]
  have hpay : outPayload s i = none := by
    rcases hs with hs | hs | hs | hs <;> simp [DebugModule.outPayload, hcopier, stateOutPayload, hs]
  refine ⟨h.quiet.next hs, ?_, ?_, fun t => ?_, fun t => ?_⟩
  · simp [DebugModule.next, PacketParser.next, parserIn, haddr, h.resData]
  · simp [DebugModule.next, PacketBuffer.next, bufferIn, hpay, h.payload]
  · simp [DebugModule.next, DebugMemoryCopier.next, h.quiet.idle t, h.addr t]
  · simp [DebugModule.next, DebugMemoryCopier.next, h.quiet.idle t, h.readLen t]

/-- nothing but reply bytes is driven -/
def Silent (o : Outputs) : Prop :=
  o.haltReq = false ∧ o.resumeReq = false ∧ o.softResetN = true ∧ ∀ t, o.memory t = none

theorem Kept.silent (h : Kept s₀ s) (hs : Resting s) (i : In) : Silent (outputs s i) := by
  have hreq : ∀ t, req s i t = false := fun t =>
    (DebugMemoryCopier.quiet_of_idle (h.quiet.idle t) (copierIn s i t) _).2
  refine ⟨?_, ?_, ?_, fun t => by simp [outputs, hreq]⟩
  · rcases hs with hs | hs | hs | hs <;> simp [outputs, haltReq, hs]
  · rcases hs with hs | hs | hs | hs <;> simp [outputs, resumeReq, hs]
  · simp [outputs, softResetN, ResetController.resetN, h.quiet.counter]

/-- between two frames such a state cannot be told from `s₀` -/
theorem Kept.agree (h : Kept s₀ s) (h0 : Boundary s₀) (hst : Stage T s₀) (hb : Boundary s)
    (hbuf : s.buffer.curState = .idle) : Agree s₀ s := by
  have hq0 := hst.quiet h0.state
  have hidle0 : s₀.buffer.curState = .idle := by
    by_contra hne
    have := hst.sending hne
    rw [h0.state] at this
    cases this
  refine ⟨h0.state.trans hb.state.symm, ?_, h.resData.symm, fun t => ?_, ?_, ?_⟩
  · exact .receiving h0.state ⟨unfinished_nil, fun _ _ => .cmd h0.parser⟩ ⟨unfinished_nil, fun _ _ => .cmd hb.parser⟩
  · exact ⟨(hq0.idle t).trans (h.quiet.idle t).symm, (h.addr t).symm, (h.readLen t).symm,
      fun hne => absurd (hq0.idle t) hne⟩
  · refine ⟨hidle0.trans hbuf.symm, h.payload.symm, fun hs => ?_, fun hne => absurd hidle0 hne⟩
    rw [h0.state] at hs
    cases hs
  · have h1 := hq0.counter
    have h2 := h.quiet.counter
    cases hc : s₀.resetController
    cases hc' : s.resetController
    simp_all

/-! ### The frame is drained -/

/-- the module from the first byte of a flagged frame to the last byte of its reply; `out` has been sent -/
inductive Draining (T : ℕ) (i : ℕ → In) (t l n : ℕ) (s : St) (out : List Byte) : Prop
  | listening (hn : n ≤ t) (hs : s.curState = .waitInput) (hP : Listening s.parser (received i n))
      (hb : s.buffer.curState = .idle) (hout : out = [])
  | flagged (hn : n = t + 1) (hs : s.curState = .waitInput) (hP : Shows s.parser .flagged)
      (hb : s.buffer.curState = .idle) (hc : s.timeoutCounter = 0) (hout : out = [])
  | drain (hn : t + 1 + s.timeoutCounter < n) (hs : s.curState = .waitTimeout) (hP : Shows s.parser .flagged)
      (hb : s.buffer.curState = .idle) (hc : s.timeoutCounter ≤ T - 1)
      (hq : ∀ k < n, n ≤ k + s.timeoutCounter → (i k).inputValid = false) (hout : out = [])
  | parity (hn : l < n) (hs : s.curState = .errorParity) (hP : Shows s.parser .flagged)
      (hb : s.buffer.curState = .idle) (hout : out = [])
  | reply {k : ℕ} (hn : l < n) (hs : s.curState = .waitSend) (hP : Shows s.parser .flagged) (hb : SendingAt s.buffer k)
      (hpkt : ∃ id, PacketBuffer.packet s.buffer = [statusErrorParity, id, 0#8])
      (hout : out = (PacketBuffer.packet s.buffer).take k)

/-- the reply has been sent -/
structure Finished (l n : ℕ) (s : St) (out : List Byte) : Prop where
  last : l < n
  reply : ∃ id, out = [statusErrorParity, id, 0#8]
  boundary : Boundary s
  idle : s.buffer.curState = .idle

theorem Draining.resting (h : Draining T i t l n s out) : Resting s := by
  cases h with
  | listening _ hs => exact .inl hs
  | flagged _ hs => exact .inl hs
  | drain _ hs => exact .inr (.inl hs)
  | parity _ hs => exact .inr (.inr (.inl hs))
  | reply _ hs => exact .inr (.inr (.inr hs))

theorem Draining.not_complete (h : Draining T i t l n s out) : complete out = false := by
  cases h with
  | listening _ _ _ _ hout => rw [hout]; rfl
  | flagged _ _ _ _ _ hout => rw [hout]; rfl
  | drain _ _ _ _ _ _ hout => rw [hout]; rfl
  | parity _ _ _ _ hout => rw [hout]; rfl
  | reply _ _ _ hb _ hout =>
    have hlt := hb.lt
    rw [hout, PacketBuffer.complete_take _ hlt.le]
    exact decide_eq_false (by omega)

theorem Finished.complete (h : Finished l n s out) : complete out = true := by
  obtain ⟨id, hout⟩ := h.reply
  rw [hout]
  rfl

theorem emitted_of_idle (h : s.buffer.curState = .idle) (j : In) : emitted s j = [] := by
  simp [emitted, sendData, PacketBuffer.sendData, h]

theorem le_clog_pow {c T : ℕ} (h : c < T) : c % 2 ^ Nat.clog 2 T = c :=
  Nat.mod_eq_of_lt (lt_of_lt_of_le h (Nat.le_pow_clog (by decide) T))

/-- **Listening.** The error flags the frame. -/
theorem Draining.next_listening (h : ErrorPacket T i t l) (hn : n ≤ t) (hs : s.curState = .waitInput)
    (hP : Listening s.parser (received i n)) (hb : s.buffer.curState = .idle) :
    Draining T i t l (n + 1) (next T s (i n)) [] := by
  have hs' : (next T s (i n)).curState = .waitInput := by simp [DebugModule.next, nextState, hs, hP.resValid]
  have hb' : (next T s (i n)).buffer.curState = .idle := buffer_idle_next hb (by simp [hs])
  rcases Nat.lt_or_eq_of_le hn with hlt | rfl
  · cases hv : (i n).inputValid with
    | false =>
      have hrec : received i (n + 1) = received i n := by simp [received, hv]
      exact .listening hlt hs' (hrec ▸ hP.stay (i := parserIn s (i n)) hv) hb' rfl
    | true =>
      have hrec : received i (n + 1) = received i n ++ [(i n).inputByte] := by simp [received, hv]
      rcases hP.byte (i := parserIn s (i n)) hv (h.clean n hlt hv) with ⟨p, hp, -⟩ | hl
      · -- the frame is unfinished up to the byte with the error, so none of the bytes before ends it
        exfalso
        have hpre : p.bytes <+: received i t := by
          have hle := received_prefix i (Nat.succ_le_of_lt hlt)
          rwa [hrec, show received i n ++ [(i n).inputByte] = p.bytes from hp] at hle
        obtain ⟨q, hq, hlen⟩ := h.before
        rw [Packet.bytes_prefix_inj (hpre.trans hq)] at hpre
        have := hpre.length_le
        omega
      · exact .listening hlt hs' (hrec ▸ hl) hb' rfl
  · obtain ⟨h1, h2⟩ := hP.error (i := parserIn s (i n)) h.valid h.flagged
    exact .flagged rfl hs' (.flagged h1 h2) hb' (by simp [DebugModule.next, h.valid]) rfl

/-- **Draining.** No timeout before the last byte. -/
theorem Draining.next_drain (h : ErrorPacket T i t l) (hn : t + 1 + s.timeoutCounter < n) (hs : s.curState = .waitTimeout)
    (hP : Shows s.parser .flagged) (hb : s.buffer.curState = .idle) (hc : s.timeoutCounter ≤ T - 1)
    (hq : ∀ k < n, n ≤ k + s.timeoutCounter → (i k).inputValid = false) :
    Draining T i t l (n + 1) (next T s (i n)) [] := by
  have hP' : Shows (next T s (i n)).parser .flagged := shows_next hP (by simp [hs])
  have hb' : (next T s (i n)).buffer.curState = .idle := buffer_idle_next hb (by simp [hs])
  by_cases hT : s.timeoutCounter = T - 1
  · refine .parity ?_ (by simp [DebugModule.next, nextState, hs, hT]) hP' hb' rfl
    by_contra hle
    rw [hT] at hq hn
    exact h.not_silent (by omega) (by omega) hq
  · have hs' : (next T s (i n)).curState = .waitTimeout := by simp [DebugModule.next, nextState, hs, hT]
    cases hv : (i n).inputValid with
    | true =>
      have hzero : (next T s (i n)).timeoutCounter = 0 := by simp [DebugModule.next, hv]
      exact .drain (by omega) hs' hP' hb' (by omega) (fun k hk hle => by omega) rfl
    | false =>
      have hone : (next T s (i n)).timeoutCounter = s.timeoutCounter + 1 := by
        simp only [DebugModule.next, hv, hs, Bool.false_eq_true, if_false, if_true]
        exact le_clog_pow (by omega)
      refine .drain (by omega) hs' hP' hb' (by omega) (fun k hk hle => ?_) rfl
      rcases Nat.lt_or_eq_of_le (Nat.le_of_lt_succ hk) with hlt | rfl
      · exact hq k hlt (by omega)
      · exact hv

/-- **Replying.** -/
theorem Draining.next_reply (hn : l < n) (hs : s.curState = .waitSend) (hP : Shows s.parser .flagged)
    (hb : SendingAt s.buffer k) (hq : Quiet s) (hpkt : ∃ id, PacketBuffer.packet s.buffer = [statusErrorParity, id, 0#8]) :
    Draining T i t l (n + 1) (next T s (i n)) ((PacketBuffer.packet s.buffer).take k ++ emitted s (i n)) ∨
      Finished l (n + 1) (next T s (i n)) ((PacketBuffer.packet s.buffer).take k ++ emitted s (i n)) := by
  have hbuf : (next T s (i n)).buffer = PacketBuffer.next s.buffer (PacketBuffer.sending (i n).sendReady) := by
    rw [← bufferIn_of_waitSend hs hq]
    rfl
  have hpkt' : PacketBuffer.packet (next T s (i n)).buffer = PacketBuffer.packet s.buffer := by
    rw [hbuf, PacketBuffer.packet_sending]
  have hack := outSendAck_of_waitSend hs (i n)
  have hwait : ∀ {j}, SendingAt (next T s (i n)).buffer j → outSendAck s (i n) = false →
      Draining T i t l (n + 1) (next T s (i n)) ((PacketBuffer.packet s.buffer).take j) := fun hj ha =>
    .reply (by omega) (by simp [DebugModule.next, nextState, hs, ha])
      (hP.stay (i := parserIn s (i n)) (by simp [parserIn, hs, ha])) hj (hpkt'.symm ▸ hpkt) (by rw [hpkt'])
  by_cases hgo : (i n).sendReady = false ∨ PacketBuffer.sendData s.buffer = none
  · obtain ⟨h1, h2⟩ := hb.stay hgo
    have hemit : emitted s (i n) = [] := by
      rcases hgo with hr | hd
      · simp [emitted, hr]
      · simp [emitted, sendData, hd]
    rw [hemit, List.append_nil]
    exact .inl (hwait (hbuf ▸ h1) (hack.trans h2))
  · obtain ⟨hready, hdata⟩ := not_or.1 hgo
    have hready : (i n).sendReady = true := Bool.eq_true_of_not_eq_false hready
    obtain ⟨v, hv⟩ := Option.isSome_iff_exists.1 (Option.isSome_iff_ne_none.2 hdata)
    have hemit : emitted s (i n) = [v] := by simp [emitted, sendData, hready, hv]
    have htake : (PacketBuffer.packet s.buffer).take k ++ [v] = (PacketBuffer.packet s.buffer).take (k + 1) := by
      rw [List.take_add_one, hb.sendData_eq hv]
      rfl
    have hnext := hb.next (Option.isSome_iff_ne_none.2 hdata)
    rw [hready] at hbuf hack
    rw [hemit, htake]
    split at hnext
    · rename_i hlast
      obtain ⟨id, hid⟩ := hpkt
      have hack' : outSendAck s (i n) = true := hack.trans hnext.2
      refine .inr ⟨by omega, ⟨id, ?_⟩, ⟨by simp [DebugModule.next, nextState, hs, hack'], ?_⟩, hbuf ▸ hnext.1⟩
      · rw [hlast, List.take_length, hid]
      · cases hP with
        | flagged hr => simp [DebugModule.next, PacketParser.next, PacketParser.nextState, parserIn, hr, hs, hack']
    · exact .inl (hwait (hbuf ▸ hnext.1) (hack.trans hnext.2))

/-- **Step.** -/
theorem Draining.next (h : ErrorPacket T i t l) (hd : Draining T i t l n s out) (hq : Quiet s) :
    Draining T i t l (n + 1) (next T s (i n)) (out ++ emitted s (i n)) ∨
      Finished l (n + 1) (next T s (i n)) (out ++ emitted s (i n)) := by
  cases hd with
  | listening hn hs hP hb hout =>
    rw [hout, emitted_of_idle hb]
    exact .inl (.next_listening h hn hs hP hb)
  | flagged hn hs hP hb hc hout =>
    rw [hout, emitted_of_idle hb]
    have herr : s.parser.resError = true := by
      cases hP with
      | flagged _ he => exact he
    have hzero : (DebugModule.next T s (i n)).timeoutCounter = 0 := by simp [DebugModule.next, hs, hc]
    exact .inl (.drain (by omega) (by simp [DebugModule.next, nextState, hs, hP.resValid, herr])
      (shows_next hP (by simp [hs])) (buffer_idle_next hb (by simp [hs])) (by omega) (fun k hk hle => by omega) rfl)
  | drain hn hs hP hb hc hsil hout =>
    rw [hout, emitted_of_idle hb]
    exact .inl (.next_drain h hn hs hP hb hc hsil)
  | parity hn hs hP hb hout =>
    rw [hout, emitted_of_idle hb]
    refine .inl (.reply (k := 0) (by omega) (by simp [DebugModule.next, nextState, hs]) (shows_next hP (by simp [hs]))
      (.idle (buffer_idle_next hb (by simp [hs]))) ⟨s.parser.resId, ?_⟩ rfl)
    simp [PacketBuffer.packet, DebugModule.next, PacketBuffer.next, bufferIn, outStatus, outId, outLen, hs]
  | reply hn hs hP hb hpkt hout =>
    rw [hout]
    exact Draining.next_reply hn hs hP hb hq hpkt

/-! ### The run -/

section Run

variable (h : ErrorPacket T i t l) (h0 : Boundary s₀) (hst : Stage T s₀)
include h h0 hst

/-- **Run.** While the reply is not complete, the frame is being drained. -/
theorem ErrorPacket.draining (n : ℕ) (hno : ∀ m ≤ n, complete (sent T i s₀ m) = false) :
    Draining T i t l n (after T i s₀ n) (sent T i s₀ n) ∧ Kept s₀ (after T i s₀ n) := by
  have hidle : s₀.buffer.curState = .idle := by
    by_contra hne
    have := hst.sending hne
    rw [h0.state] at this
    cases this
  induction n with
  | zero =>
    exact ⟨.listening (Nat.zero_le _) h0.state ⟨unfinished_nil, fun _ _ => .cmd h0.parser⟩ hidle rfl,
      hst.quiet h0.state, rfl, rfl, fun _ => rfl, fun _ => rfl⟩
  | succ n ih =>
    obtain ⟨hd, hk⟩ := ih fun m hm => hno m (by omega)
    refine ⟨?_, hk.next hd.resting (i n)⟩
    rcases hd.next h hk.quiet with hnext | hfin
    · exact hnext
    · have hdone := hfin.complete
      rw [show _ ++ _ = sent T i s₀ (n + 1) from rfl, hno (n + 1) le_rfl] at hdone
      cases hdone

/-- what a flagged frame comes to; the reply is complete in cycle `r` -/
structure Answered (T : ℕ) (i : ℕ → In) (s₀ : St) (l r : ℕ) : Prop where
  last : l < r
  first : ∀ n < r, complete (sent T i s₀ n) = false
  done : complete (sent T i s₀ r) = true
  reply : ∃ id, sent T i s₀ r = [statusErrorParity, id, 0#8]
  silent : ∀ n < r, Silent (outputs (after T i s₀ n) (i n))
  boundary : Boundary (after T i s₀ r)
  same : SameExecution T s₀ (after T i s₀ r)

omit h h0 hst in
/-- the first cycle by which the reply is complete is not cycle 0 -/
theorem exists_pred {r : ℕ} (hdone : complete (sent T i s₀ r) = true) : ∃ n, r = n + 1 := by
  cases r with
  | zero => cases hdone
  | succ n => exact ⟨n, rfl⟩

theorem ErrorPacket.answered_of_complete {r : ℕ} (hfirst : ∀ n < r, complete (sent T i s₀ n) = false)
    (hdone : complete (sent T i s₀ r) = true) : Answered T i s₀ l r := by
  obtain ⟨n, rfl⟩ := exists_pred hdone
  have hrun : ∀ m ≤ n, Draining T i t l m (after T i s₀ m) (sent T i s₀ m) ∧ Kept s₀ (after T i s₀ m) := fun m hm =>
    h.draining h0 hst m fun k hk => hfirst k (by omega)
  obtain ⟨hd, hk⟩ := hrun n le_rfl
  rcases hd.next h hk.quiet with hnext | hfin
  · have hno := hnext.not_complete
    rw [show _ ++ _ = sent T i s₀ (n + 1) from rfl, hdone] at hno
    cases hno
  · have hk' : Kept s₀ (after T i s₀ (n + 1)) := hk.next hd.resting (i n)
    refine ⟨hfin.last, hfirst, hdone, hfin.reply, fun m hm => ?_, hfin.boundary, ?_⟩
    · obtain ⟨hdm, hkm⟩ := hrun m (by omega)
      exact hkm.silent hdm.resting (i m)
    · exact (hk'.agree h0 hst hfin.boundary hfin.idle).sameExecution hst

end Run

/-! ### The reply comes -/

/-- what is left until the reply has been sent, if every byte is taken at once -/
def drainRank (T t l n : ℕ) (s : St) : ℕ :=
  match s.curState with
  | .waitInput => (t + 2 - n) + l + T + 264
  | .waitTimeout => if n ≤ l then (l + 1 - n) + T + 264 else (T - 1 - s.timeoutCounter) + 264
  | .errorParity => 263
  | _ => PacketBuffer.rank s.buffer

theorem drainRank_next (h : ErrorPacket T i t l) (hd : Draining T i t l n s out)
    (hd' : Draining T i t l (n + 1) (next T s (i n)) (out ++ emitted s (i n)))
    (hq : Quiet s) (hsil : l < n → (i n).inputValid = false) :
    drainRank T t l (n + 1) (next T s (i n)) < drainRank T t l n s ∨
      (i n).sendReady = false ∧ drainRank T t l (n + 1) (next T s (i n)) = drainRank T t l n s := by
  cases hd with
  | listening hn hs hP hb hout =>
    have hs' : (next T s (i n)).curState = .waitInput := by simp [next, nextState, hs, hP.resValid]
    refine .inl ?_
    simp only [drainRank, hs, hs']
    omega
  | flagged hn hs hP hb hc hout =>
    have herr : s.parser.resError = true := by
      cases hP with
      | flagged _ he => exact he
    have hs' : (next T s (i n)).curState = .waitTimeout := by
      simp [next, nextState, hs, hP.resValid, herr]
    refine .inl ?_
    simp only [drainRank, hs, hs']
    split <;> omega
  | drain hn hs hP hb hc hsilent hout =>
    refine .inl ?_
    by_cases hT : s.timeoutCounter = T - 1
    · have hs' : (next T s (i n)).curState = .errorParity := by simp [next, nextState, hs, hT]
      simp only [drainRank, hs, hs']
      split <;> omega
    · have hs' : (next T s (i n)).curState = .waitTimeout := by simp [next, nextState, hs, hT]
      by_cases hl : n ≤ l
      · simp only [drainRank, hs, hs', if_pos hl]
        split <;> omega
      · have hv := hsil (by omega)
        have hone : (next T s (i n)).timeoutCounter = s.timeoutCounter + 1 := by
          simp only [next, hv, hs, Bool.false_eq_true, if_false, if_true]
          exact le_clog_pow (by omega)
        simp only [drainRank, hs, hs', if_neg hl, if_neg (show ¬ n + 1 ≤ l by omega), hone]
        omega
  | parity hn hs hP hb hout =>
    have hs' : (next T s (i n)).curState = .waitSend := by simp [next, nextState, hs]
    have hle := PacketBuffer.rank_le (next T s (i n)).buffer
    refine .inl ?_
    simp only [drainRank, hs, hs']
    omega
  | reply hn hs hP hb hpkt hout =>
    have hbuf : (next T s (i n)).buffer = PacketBuffer.next s.buffer (PacketBuffer.sending (i n).sendReady) := by
      rw [← bufferIn_of_waitSend hs hq]
      rfl
    have hack := outSendAck_of_waitSend hs (i n)
    cases ha : outSendAck s (i n) with
    | true =>
      -- the last byte would end the frame
      have hs' : (next T s (i n)).curState = .waitInput := by simp [next, nextState, hs, ha]
      cases hd' with
      | listening hn' => have := h.last; omega
      | flagged hn' => have := h.last; omega
      | drain _ hs'' | parity _ hs'' | reply _ hs'' => simp [hs'] at hs''
    | false =>
      have hs' : (next T s (i n)).curState = .waitSend := by simp [next, nextState, hs, ha]
      have hdrop := hb.rank_next (hack.symm.trans ha)
      rw [← hbuf] at hdrop
      simpa only [drainRank, hs, hs'] using hdrop

/-- **Answer.** If the sender takes bytes again and again, a flagged frame is answered. -/
theorem ErrorPacket.answered (h : ErrorPacket T i t l) (h0 : Boundary s₀) (hst : Stage T s₀) (hsil : SilentFrom T i s₀ l)
    (hfair : ∀ n, ∃ m, n ≤ m ∧ (i m).sendReady = true) : ∃ r, Answered T i s₀ l r := by
  let goal : ℕ → Prop := fun n => ∃ r, r ≤ n + 1 ∧ complete (sent T i s₀ r) = true
  let rank : ℕ → ℕ := fun n => drainRank T t l n (after T i s₀ n)
  have hstep : ∀ n, goal n ∨ rank (n + 1) < rank n ∨ (i n).sendReady = false ∧ rank (n + 1) = rank n := by
    intro n
    by_cases hex : goal n
    · exact .inl hex
    · have hno : ∀ m ≤ n + 1, complete (sent T i s₀ m) = false := fun m hm =>
        Bool.eq_false_iff.2 fun hc => hex ⟨m, hm, hc⟩
      obtain ⟨hd, hk⟩ := h.draining h0 hst n fun m hm => hno m (by omega)
      obtain ⟨hd', -⟩ := h.draining h0 hst (n + 1) hno
      exact .inr (drainRank_next h hd hd' hk.quiet fun hl => hsil n hl (hno n (by omega)))
  have hwait : ∀ n, ¬ ∀ m, n ≤ m → (i m).sendReady = false ∧ rank m = rank n := by
    intro n hw
    obtain ⟨m, hm, hready⟩ := hfair n
    have hno := (hw m hm).1
    rw [hready] at hno
    cases hno
  obtain ⟨-, -, r, -, hr⟩ := eventually_of_rank rank goal (fun n => (i n).sendReady = false) hstep hwait 0
  have hdone : ∃ r, complete (sent T i s₀ r) = true := ⟨r, hr⟩
  classical
  refine ⟨Nat.find hdone, h.answered_of_complete h0 hst (fun n hn => ?_) (Nat.find_spec hdone)⟩
  exact Bool.eq_false_iff.2 (Nat.find_min hdone hn)

/-! ### Any number of flagged frames -/

/-- `c` flagged frames in a row, each begun after the reply to the one before; the last reply is complete after `n`
cycles -/
inductive ErrorPackets (T : ℕ) : ℕ → (ℕ → In) → St → ℕ → Prop
  | nil (i : ℕ → In) (s : St) : ErrorPackets T 0 i s 0
  | cons {c t l r n : ℕ} {i : ℕ → In} {s : St} (h : ErrorPacket T i t l) (hfirst : ∀ m < r, complete (sent T i s m) = false)
      (hdone : complete (sent T i s r) = true) (hrest : ErrorPackets T c (fun m => i (r + m)) (after T i s r) n) :
      ErrorPackets T (c + 1) i s (r + n)

theorem sent_add (T : ℕ) (i : ℕ → In) (s : St) (n m : ℕ) :
    sent T i s (n + m) = sent T i s n ++ sent T (fun k => i (n + k)) (after T i s n) m := by
  induction m with
  | zero => exact (List.append_nil _).symm
  | succ m ih =>
    rw [← Nat.add_assoc, sent, ih, sent, List.append_assoc, after_add]

/-- the replies to `c` flagged frames, with the ids in them -/
def errorReplies (ids : List Byte) : List Byte := ids.flatMap fun id => [statusErrorParity, id, 0#8]

/-- what flagged frames come to: no effect, one error reply each, and a state like the one before -/
structure Ignored (T : ℕ) (c : ℕ) (i : ℕ → In) (s : St) (n : ℕ) : Prop where
  silent : ∀ m < n, Silent (outputs (after T i s m) (i m))
  replies : ∃ ids, ids.length = c ∧ sent T i s n = errorReplies ids
  boundary : Boundary (after T i s n)
  command : ∀ (j : ℕ → In) k, (∀ m < k, (j m).inputValid = false) → (j k).inputValid = true →
    (after T j (after T i s n) (k + 1)).parser.resCmd = (j k).inputByte
  same : SameExecution T s (after T i s n)

theorem ErrorPackets.ignored {c : ℕ} (h : ErrorPackets T c i s n) (h0 : Boundary s) (hst : Stage T s) :
    Ignored T c i s n := by
  induction h with
  | nil i s =>
    exact ⟨fun m hm => absurd hm (Nat.not_lt_zero m), ⟨[], rfl, rfl⟩, h0, fun _ _ hi hv => h0.command hi hv,
      fun _ _ _ => rfl⟩
  | @cons c t l r n i s h hfirst hdone hrest ih =>
    have hans := h.answered_of_complete h0 hst hfirst hdone
    have hst' : Stage T (after T i s r) :=
      run_inv (Stage T) (fun _ _ => True) hst (fun _ j h _ => h.next j) (fun _ => trivial) r
    obtain ⟨hsilent, ⟨ids, hlen, hsent⟩, hbound, hcmd, hsame⟩ := ih hans.boundary hst'
    refine ⟨fun m hm => ?_, ?_, ?_, ?_, fun j hj k => ?_⟩
    · by_cases hmr : m < r
      · exact hans.silent m hmr
      · obtain ⟨d, rfl⟩ := Nat.exists_eq_add_of_le (Nat.le_of_not_lt hmr)
        rw [after_add]
        exact hsilent d (by omega)
    · obtain ⟨id, hid⟩ := hans.reply
      refine ⟨id :: ids, by simp [hlen], ?_⟩
      rw [sent_add, hid, hsent]
      rfl
    · rw [after_add]
      exact hbound
    · rw [after_add]
      exact hcmd
    · rw [hans.same j hj k, hsame j hj k, after_add]

/-! ### Timeouts -/

/-- the timeout counter counts cycles without a byte -/
theorem counter_silent (T : ℕ) (dm : St) (i : ℕ → In) (n : ℕ) (hs : (after T i (reset dm) n).curState = .waitTimeout) :
    (after T i (reset dm) n).timeoutCounter ≤ n ∧
      ∀ k < n, n ≤ k + (after T i (reset dm) n).timeoutCounter → (i k).inputValid = false := by
  induction n with
  | zero => cases hs
  | succ n ih =>
    have hnext : after T i (reset dm) (n + 1) = next T (after T i (reset dm) n) (i n) := rfl
    cases hv : (i n).inputValid with
    | true =>
      have hzero : (after T i (reset dm) (n + 1)).timeoutCounter = 0 := by simp [hnext, next, hv]
      rw [hzero]
      exact ⟨Nat.zero_le _, fun k hk hle => by omega⟩
    | false =>
      by_cases hd : (after T i (reset dm) n).curState = .waitTimeout
      · obtain ⟨hle, hq⟩ := ih hd
        have hone : (after T i (reset dm) (n + 1)).timeoutCounter ≤ (after T i (reset dm) n).timeoutCounter + 1 := by
          simp only [hnext, next, hv, hd, Bool.false_eq_true, if_false, if_true]
          exact Nat.mod_le _ _
        refine ⟨by omega, fun k hk hk' => ?_⟩
        rcases Nat.lt_or_eq_of_le (Nat.le_of_lt_succ hk) with hlt | rfl
        · exact hq k hlt (by omega)
        · exact hv
      · -- the drain begins, with the counter cleared by the byte in error
        have hzero : (after T i (reset dm) (n + 1)).timeoutCounter = 0 := by
          cases run_stage T dm i n with
          | dispatch hs' hP hb hq hf =>
            cases hP with
            | flagged hr he => simp [hnext, next, hv, hd, hf rfl]
            | @packet p hp =>
              have hto : (after T i (reset dm) (n + 1)).curState = dispatch p.cmd p.len := by
                simp [hnext, next, nextState, hs', PacketParser.resValid, hp.ready, hp.error, hp.cmd, hp.len]
              exact absurd (hto ▸ hs) (dispatch_ne _ _).2.1
          | receive hs' hP => simp [hnext, next, nextState, hs', hP.resValid] at hs
          | drain hs' => exact absurd hs' hd
          | parity hs' => simp [hnext, next, nextState, hs'] at hs
          | @exec p hs' hP =>
            have hto := nextState_of_exec (T := T) hs' (i n)
            rw [show nextState T _ (i n) = _ from hs] at hto
            rcases hto with hto | hto
            · exact absurd hto.symm hd
            · cases hto
          | send hs' hP =>
            have hto : nextState T (after T i (reset dm) n) (i n) = .waitTimeout := hs
            simp only [nextState, hs'] at hto
            split at hto <;> cases hto
        rw [hzero]
        exact ⟨Nat.zero_le _, fun k hk hle => by omega⟩

/-- **Timeout.** Draining ends only after `T - 1` cycles in a row without a byte. -/
theorem timeout_silent (T : ℕ) (dm : St) (i : ℕ → In) (n : ℕ) (hs : (after T i (reset dm) n).curState = .waitTimeout)
    (hleave : (after T i (reset dm) (n + 1)).curState ≠ .waitTimeout) :
    T - 1 ≤ n ∧ ∀ k < n, n ≤ k + (T - 1) → (i k).inputValid = false := by
  have hT : (after T i (reset dm) n).timeoutCounter = T - 1 := by
    by_contra hne
    refine hleave ?_
    show nextState T (after T i (reset dm) n) (i n) = _
    simp [nextState, hs, hne]
  have h := counter_silent T dm i n hs
  rwa [hT] at h

/-- **Error packets.** In every run from reset, a drain ends only after `T - 1` silent cycles. From any frame boundary on,
a packet with a receive error is answered, and any number of them in a row have no effect, are answered once each and
leave the module at a frame boundary where every error-free input has the outputs it would have had before them. -/
theorem error_packets_ignored (T : ℕ) (dm : St) (i : ℕ → In) :
    (∀ n, (after T i (reset dm) n).curState = .waitTimeout → (after T i (reset dm) (n + 1)).curState ≠ .waitTimeout →
      T - 1 ≤ n ∧ ∀ k < n, n ≤ k + (T - 1) → (i k).inputValid = false) ∧
    ∀ a, Boundary (after T i (reset dm) a) →
      (∀ t l, ErrorPacket T (fun n => i (a + n)) t l → SilentFrom T (fun n => i (a + n)) (after T i (reset dm) a) l →
        (∀ n, ∃ m, n ≤ m ∧ (i (a + m)).sendReady = true) →
        ∃ r, Answered T (fun n => i (a + n)) (after T i (reset dm) a) l r) ∧
      ∀ c n, ErrorPackets T c (fun n => i (a + n)) (after T i (reset dm) a) n →
        Ignored T c (fun n => i (a + n)) (after T i (reset dm) a) n := by
  refine ⟨timeout_silent T dm i, fun a h0 => ⟨fun t l h hsil hfair => ?_, fun c n h => ?_⟩⟩
  · exact h.answered h0 (run_stage T dm i a) hsil hfair
  · exact h.ignored h0 (run_stage T dm i a)

/-- two packets: an error in the payload with a byte to come, after the reply to it an error in the id with a byte to come -/
def demoLine (n : ℕ) : In where
  inputValid := [0, 1, 2, 3, 5, 15, 16, 17].contains n
  inputError := [3, 16].contains n
  inputByte := .ofNat 8 n
  sendReady := true
  isHalted := false
  dataData _ := 0
  dataAck _ := false

theorem demo_payload : ErrorPacket 3 (fun n => demoLine (0 + n)) 3 5 where
  clean n hn _ := by interval_cases n <;> rfl
  before := ⟨⟨0, 1, [3, 5], by decide⟩, by decide, by decide⟩
  valid := rfl
  flagged := rfl
  last := by decide
  lastValid := rfl
  gaps n m hn hnm hm _ _ hidle := by omega

theorem demo_id : ErrorPacket 3 (fun n => demoLine (0 + (14 + n))) 2 3 where
  clean n hn _ := by interval_cases n <;> rfl
  before := ⟨⟨15, 16, [17], by decide⟩, by decide, by decide⟩
  valid := rfl
  flagged := rfl
  last := by decide
  lastValid := rfl
  gaps n m hn hnm hm _ _ hidle := by omega

theorem error_packets_ignored_demo :
    (∃ r, Answered 3 (fun n => demoLine (0 + n)) (after 3 demoLine (reset System.zeroed) 0) 5 r) ∧
      Ignored 3 2 (fun n => demoLine (0 + n)) (after 3 demoLine (reset System.zeroed) 0) (14 + (12 + 0)) := by
  have h := (error_packets_ignored 3 System.zeroed demoLine).2 0 ⟨rfl, rfl⟩
  constructor
  · refine h.1 3 5 demo_payload (fun n hn hno => ?_) fun n => ⟨n, le_rfl, rfl⟩
    by_contra hvalid
    -- the second packet begins after the reply
    have hlate : n = 15 ∨ n = 16 ∨ n = 17 := by
      simp only [Nat.zero_add, demoLine, List.contains_eq_mem, List.mem_cons, List.not_mem_nil, or_false,
        Bool.not_eq_false, decide_eq_true_eq] at hvalid
      omega
    have hdone : complete (sent 3 (fun n => demoLine (0 + n)) (after 3 demoLine (reset System.zeroed) 0) n) = true := by
      rcases hlate with rfl | rfl | rfl <;> decide +kernel
    exact Bool.false_ne_true (hno.symm.trans hdone)
  · exact h.2 2 _ (.cons demo_payload (by decide +kernel) (by decide +kernel)
      (.cons demo_id (by decide +kernel) (by decide +kernel) (.nil _ _)))

end DebugModule

end FpgaLearning.Debug
