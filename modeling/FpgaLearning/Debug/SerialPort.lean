/-
The way of a reply to the host (`Calc2/src/top.sv`): `PacketBuffer`, `ValidReadyDelay` and the serial port behind them.

`ReplyPort` is the three circuits, wired as on the board: the delay sees the serial port's ready, and the serial port the
delay's valid. The queue of the serial port is a parameter.

- `accepted_apart`: the delay leaves more than a frame between two bytes, so the queue never holds more than one;
- `replies_reach_host`: what a host reads off the line are the bytes of the replies, in order and without a parity error,
  and its `_receive_response` returns every one of them in the end.
-/
import FpgaLearning.Debug.Throttle
import FpgaLearning.Uart.Rs232

namespace FpgaLearning.Debug

open FpgaLearning.Memory FpgaLearning.Uart FpgaLearning.SerialLine

/-- `NUM_TICKS` of `valid_ready_delay_inst` -/
def replyTicks : ℕ := 6000

structure ReplyPort (F : Scfifo (Params.calc2.dw + 1)) where
  session : ReplySession replyTicks
  uart : Rs232 .calc2 F

/-- one cycle: what the writer of the buffer drives, the ready of the consumer and the line from the host -/
structure PortIn where
  status : Option Byte
  id : Option Byte
  len : Option Byte
  payload : Option (Byte × Byte)
  sendReq : Bool
  fromUartReady : Bool
  uartRx : Bool

namespace ReplyPort

variable (b : PacketBuffer.St) (d : ValidReadyDelay.St replyTicks) {F : Scfifo (Params.calc2.dw + 1)}

def replyIn (s : ReplyPort F) (i : PortIn) : ReplyIn := ⟨i.status, i.id, i.len, i.payload, i.sendReq, s.uart.toUartReady⟩

def uartIn (s : ReplyPort F) (i : PortIn) : Rs232.Input Rs232.evenParity where
  reset := false
  fromUartReady := i.fromUartReady
  toUartData := ((PacketBuffer.sendData s.session.buffer).getD 0 : Byte)
  toUartError := false
  toUartValid := ValidReadyDelay.slaveValid s.session.delay s.session.sendValid
  uartRxd := i.uartRx

def step (s : ReplyPort F) (i : PortIn) : ReplyPort F := ⟨s.session.step (s.replyIn i), s.uart.step (s.uartIn i)⟩

variable (F)

/-- the circuits after `n` cycles out of reset, whatever stood in the registers -/
def after (inp : ℕ → PortIn) (n : ℕ) : ReplyPort F := Clocked.run step inp ⟨.start b d, .init F⟩ n

/-- the byte that the serial port takes -/
def accepted (inp : ℕ → PortIn) (n : ℕ) : Option Byte := (after b d F inp n).uart.accepted ((after b d F inp n).uartIn (inp n))

/-- the bytes that a host has read off the line before cycle `n`, with the parity error he sees -/
def heard (S : Sampling) (inp : ℕ → PortIn) (n : ℕ) : List (Byte × Bool) :=
  (logOf (S.frames (fun n => (after b d F inp n).uart.uartTxd) (Params.calc2.dw + 1)) n).map
    (Rs232.reading Rs232.evenParity)

/-- the writer leaves the buffer alone from the request to the acknowledge -/
def Undisturbed (inp : ℕ → PortIn) : Prop :=
  ∀ n, (after b d F inp n).session.buffer.curState ≠ .idle →
    (after b d F inp n).session.sendAck ((after b d F inp n).replyIn (inp n)) = false →
      ((after b d F inp n).replyIn (inp n)).Quiet

variable {b d F} {inp : ℕ → PortIn}

theorem session_after (n : ℕ) : (after b d F inp n).session =
    .after b d (fun n => (after b d F inp n).replyIn (inp n)) n := by
  induction n with
  | zero => rfl
  | succ n ih =>
    change (after b d F inp n).session.step _ = ReplySession.step _ _
    rw [ih]
    rfl

theorem Undisturbed.session (hu : Undisturbed b d F inp) :
    ReplySession.Undisturbed b d fun n => (after b d F inp n).replyIn (inp n) := by
  intro n
  rw [← session_after]
  exact hu n

theorem uart_after (n : ℕ) : (after b d F inp n).uart =
    .run F (fun n => (after b d F inp n).uartIn (inp n)) n := by
  induction n with
  | zero => rfl
  | succ n ih =>
    change (after b d F inp n).uart.step _ = Rs232.step _ _
    rw [ih]
    rfl

theorem accepted_run : accepted b d F inp = fun n =>
    (Rs232.run F (fun n => (after b d F inp n).uartIn (inp n)) n).accepted ((after b d F inp n).uartIn (inp n)) :=
  funext fun n => by rw [accepted, uart_after]

theorem uartTxd_run : (fun n => (after b d F inp n).uart.uartTxd) = fun n =>
    (Rs232.run F (fun n => (after b d F inp n).uartIn (inp n)) n).uartTxd :=
  funext fun n => by rw [uart_after]

theorem accepted_eq (n : ℕ) : accepted b d F inp n =
    if (after b d F inp n).session.transfers ((after b d F inp n).replyIn (inp n)) then
      some ((PacketBuffer.sendData (after b d F inp n).session.buffer).getD 0) else none := rfl

/-- what the serial port has taken is what the buffer has sent -/
theorem transferred_eq (n : ℕ) : (after b d F inp n).session.transferred = logOf (accepted b d F inp) n := by
  induction n with
  | zero => rfl
  | succ n ih =>
    have hstep : (after b d F inp (n + 1)).session.transferred =
        if (after b d F inp n).session.transfers ((after b d F inp n).replyIn (inp n)) then
          (after b d F inp n).session.transferred ++ (PacketBuffer.sendData (after b d F inp n).session.buffer).toList
        else (after b d F inp n).session.transferred := rfl
    rw [hstep, logOf_succ, accepted_eq, ih]
    split
    · next htr =>
      rw [ReplySession.transfers_eq, Bool.and_eq_true, ReplySession.sendValid] at htr
      obtain ⟨v, hv⟩ := Option.isSome_iff_exists.1 htr.1
      rw [hv]
      rfl
    · rw [Option.toList_none, List.append_nil]

theorem accepted_apart : Apart (replyTicks + 1) (accepted b d F inp) := by
  have htransfers : ∀ n, (accepted b d F inp n).isSome → (ReplySession.after b d
      (fun n => (after b d F inp n).replyIn (inp n)) n).transfers ((after b d F inp n).replyIn (inp n)) = true := by
    intro n hn
    rw [accepted_eq, session_after] at hn
    split at hn
    · assumption
    · cases hn
  intro s hs n hsn hn
  by_contra hne
  have := ReplySession.spaced hsn (htransfers s hs) (htransfers n (Option.isSome_iff_ne_none.2 hne))
  omega

section

variable (hlatency : F.latency ≤ 1211)

include hlatency

theorem uart_apart : Apart (Params.calc2.allBits + F.latency + 5) fun n =>
    (Rs232.run F (fun n => (after b d F inp n).uartIn (inp n)) n).accepted ((after b d F inp n).uartIn (inp n)) := by
  rw [← accepted_run]
  refine accepted_apart.mono ?_
  have hbits : Params.calc2.allBits = 4785 := rfl
  rw [hbits, replyTicks]
  omega

theorem ready_succ (n : ℕ) : (after b d F inp (n + 1)).uart.toUartReady = true := by
  rw [uart_after]
  exact Rs232.toUartReady_succ (fun _ => rfl) (Rs232.out_fresh (fun _ => rfl) (uart_apart hlatency) n).not_full

/-- the line in the terms of the serial port's own run -/
theorem heard_bounds {S : Sampling} (hS : Params.calc2.ReadBy S) (n : ℕ) :
    heard b d F S inp n <+: (logOf (accepted b d F inp) (n - 2)).map (·, false) ∧
      (logOf (accepted b d F inp) (n - 2 - (F.latency + 1))).map (·, false) <+: heard b d F S inp n := by
  rw [heard, uartTxd_run, accepted_run]
  exact Rs232.sends_soon hS (fun _ => rfl) (uart_apart hlatency) n

theorem heard_le {S : Sampling} (hS : Params.calc2.ReadBy S) (hu : Undisturbed b d F inp) (n : ℕ) :
    heard b d F S inp n <+: ((after b d F inp n).session.requested.flatMap Reply.bytes).map (·, false) := by
  have hinv := (@ReplySession.run_inv _ b d (fun n => (after b d F inp n).replyIn (inp n)) hu.session n).1.inOrder
  rw [← session_after, transferred_eq] at hinv
  exact (heard_bounds hlatency hS n).1.trans
    (((logOf_mono (Nat.sub_le n 2)).trans hinv).map fun x : Byte => (x, false))

/-- **Replies reach the host.** What the host reads is a prefix of the replies requested, without a parity error, and
once it has read enough its `_receive_response` returns every one of them. -/
theorem replies_reach_host {S : Sampling} (hS : Params.calc2.ReadBy S) (hu : Undisturbed b d F inp) (n : ℕ) :
    heard b d F S inp n <+: ((after b d F inp n).session.requested.flatMap Reply.bytes).map (·, false) ∧
      ∃ m, n ≤ m ∧ ∀ k, m ≤ k →
        UARTDebugger.receiveResponses (after b d F inp n).session.requested.length
            ((heard b d F S inp k).map Prod.fst) =
          .ok ((after b d F inp n).session.requested.map Reply.fields) := by
  refine ⟨heard_le hlatency hS hu n, ?_⟩
  obtain ⟨m, hnm, hm⟩ := @ReplySession.all_leave _ b d (fun n => (after b d F inp n).replyIn (inp n)) hu.session
    (fun n => ⟨n + 1, Nat.le_succ n, ready_succ hlatency n⟩) n
  rw [← session_after, ← session_after, transferred_eq] at hm
  refine ⟨m + F.latency + 3, by omega, fun k hk => ?_⟩
  have hsent : (after b d F inp n).session.requested.flatMap Reply.bytes <+: (heard b d F S inp k).map Prod.fst := by
    have hlog := (hm.trans (logOf_mono (show m ≤ k - 2 - (F.latency + 1) by omega))).map fun x : Byte => (x, false)
    have hfst := (hlog.trans (heard_bounds hlatency hS k).2).map Prod.fst
    have hid : ∀ l : List Byte, (l.map fun x => (x, false)).map Prod.fst = l := fun l => by
      rw [List.map_map]
      exact List.map_id l
    rwa [hid] at hfst
  obtain ⟨rest, hrest⟩ := hsent
  rw [← hrest]
  exact UARTDebugger.receiveResponses_bytes _ rest

end

/-- one payload byte, written before the status -/
def oneByteReply : ℕ → PortIn
  | 0 => ⟨none, none, some 1, some (0, 0xAB), false, true, true⟩
  | 1 => ⟨some 0, none, none, none, false, true, true⟩
  | 2 => ⟨none, some 7, none, none, true, true, true⟩
  | _ => ⟨none, none, none, none, false, true, true⟩

theorem replies_reach_host_one_byte :
    heard ⟨.idle, 0, 0, 0, 0, fun _ => 0⟩ ⟨0⟩ Rs232.queue Params.calc2.sampling oneByteReply 3 <+:
        [(0, false), (7, false), (1, false), (0xAB, false)] ∧
      ∃ m, 3 ≤ m ∧ ∀ k, m ≤ k →
        UARTDebugger.receiveResponses 1
            ((heard ⟨.idle, 0, 0, 0, 0, fun _ => 0⟩ ⟨0⟩ Rs232.queue Params.calc2.sampling oneByteReply k).map Prod.fst) =
          .ok [(0, 7, [0xAB])] := by
  refine @replies_reach_host ⟨.idle, 0, 0, 0, 0, fun _ => 0⟩ ⟨0⟩ Rs232.queue oneByteReply (by decide) _
    Params.calc2.readBy_sampling (fun n hn _ => ?_) 3
  rcases n with _ | _ | _ | n
  · exact absurd rfl hn
  · exact absurd rfl hn
  · exact absurd rfl hn
  · exact ⟨rfl, rfl, rfl, rfl⟩

end ReplyPort

end FpgaLearning.Debug
