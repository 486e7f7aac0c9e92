/-
Model of the receiving side of the serial port (`uart/synthesis/submodules/altera_up_rs232_in_deserializer.v`).

While nothing is being received the deserializer waits for a 0 on the line. From then on its counters run, the line is
shifted in at every flag in the middle of a bit, and when all bits are through the word goes to the queue.

- `allBitsReceived_eq`: on any line at all, the words that go to the queue are the words of `Sampling.frames`, each
  `allBits + 2` cycles after its start bit was found.
-/
import FpgaLearning.Uart.Counters
import FpgaLearning.Uart.Fifo

namespace FpgaLearning.Uart

open SerialLine

/-- when a deserializer looks at the line -/
def Params.sampling (p : Params) : Sampling where
  offset j := p.halfBaudTickCount + 2 + (j + 1) * p.bitTime
  busy := p.allBits + 3

@[simp] theorem Params.sampling_offset (p : Params) (j : ℕ) :
    p.sampling.offset j = p.halfBaudTickCount + 2 + (j + 1) * p.bitTime := rfl

@[simp] theorem Params.sampling_busy (p : Params) : p.sampling.busy = p.allBits + 3 := rfl

/-- `{serial_data_in, data[(n - 1):1]}` -/
def shiftIn {n : ℕ} (b : Bool) (data : BitVec n) : BitVec n := (BitVec.cons b data).extractLsb' 1 n

theorem getLsbD_shiftIn {n i : ℕ} {b : Bool} {data : BitVec n} (hi : i < n) :
    (shiftIn b data).getLsbD i = if i + 1 = n then b else data.getLsbD (i + 1) := by
  rw [shiftIn, BitVec.getLsbD_extractLsb', BitVec.getLsbD_cons, Nat.add_comm 1 i]
  simp [hi]

/-! ## The registers -/

structure Deserializer (p : Params) (F : Scfifo (p.dw + 1)) where
  fifoReadAvailable : BitVec 8
  receivingData : Bool
  dataInShiftReg : BitVec p.tdw
  counters : Counters
  fifo : F.State

namespace Deserializer

structure Input where
  reset : Bool
  serialDataIn : Bool
  receiveDataEn : Bool
deriving DecidableEq, Repr

variable (p : Params) (F : Scfifo (p.dw + 1))

def init : Deserializer p F := ⟨0, false, 0, .init, F.clear⟩

variable {p F} (s : Deserializer p F) (i : Input)

def receivedDataValid : Bool := !F.empty s.fifo

def receivedData : BitVec (p.dw + 1) := F.q s.fifo

/-- what is written to the queue if it is not full -/
def allBitsReceived : Option (BitVec (p.dw + 1)) :=
  if s.counters.allBitsTransmitted then some (s.dataInShiftReg.extractLsb' 1 (p.dw + 1)) else none

def port : Scfifo.Port (p.dw + 1) where
  data := if F.full s.fifo then none else s.allBitsReceived
  rdreq := i.receiveDataEn && !F.empty s.fifo

def step : Deserializer p F where
  fifoReadAvailable := if i.reset then 0 else .cons (F.full s.fifo) (F.usedw s.fifo)
  receivingData :=
    if i.reset then false
    else if s.counters.allBitsTransmitted then false
    else if i.serialDataIn = false then true
    else s.receivingData
  dataInShiftReg :=
    if i.reset then 0
    else if s.counters.baudClockFallingEdge then shiftIn i.serialDataIn s.dataInShiftReg
    else s.dataInShiftReg
  counters := s.counters.step p i.reset (!s.receivingData)
  fifo := if i.reset then F.clear else F.step (s.port i).data (s.port i).rdreq s.fifo

@[simp] theorem step_reset : s.step { i with reset := true } = init p F := rfl

theorem port_legal : F.Legal s.fifo (s.port i) := by
  constructor
  · cases hf : F.full s.fifo <;> simp [port, hf]
  · simp [port]

/-! ## Frames -/

variable (p)

/-- the deserializer after `n` cycles: it waits, or it is in cycle `k` of the frame that started in cycle `m` -/
structure Follows (line : ℕ → Bool) (n : ℕ) (s : Deserializer p F) : Prop where
  waits : p.sampling.ready line n ≤ n → s.receivingData = false ∧ s.counters.Idle
  receives : ∀ m k, n = m + k + 1 → k ≤ p.allBits + 1 → p.sampling.ready line n = m + p.sampling.busy →
    s.receivingData = true ∧ s.counters = .after p k ∧
      ∀ j < Counters.falls p k, s.dataInShiftReg.getLsbD (p.tdw - Counters.falls p k + j) =
        line (m + (p.halfBaudTickCount + 2 + j * p.bitTime))

variable {p} {line : ℕ → Bool} {n : ℕ} {s}

theorem falls_le {k : ℕ} (hk : k ≤ p.allBits + 1) : Counters.falls p k ≤ p.tdw :=
  Counters.falls_end (p := p) ▸ Nat.div_le_div_right (by omega)

/-- the shift register takes in one sample more at the flag in the middle of a bit -/
theorem samples_step {m k : ℕ} (hk : k ≤ p.allBits) (data : BitVec p.tdw)
    (h : ∀ j < Counters.falls p k, data.getLsbD (p.tdw - Counters.falls p k + j) =
      line (m + (p.halfBaudTickCount + 2 + j * p.bitTime))) :
    ∀ j < Counters.falls p (k + 1),
      (if (Counters.after p k).baudClockFallingEdge then shiftIn (line (m + k + 1)) data else data).getLsbD
        (p.tdw - Counters.falls p (k + 1) + j) = line (m + (p.halfBaudTickCount + 2 + j * p.bitTime)) := by
  have hle := falls_le (p := p) (show k + 1 ≤ p.allBits + 1 by omega)
  have hsucc := Counters.falls_succ hk
  cases hf : (Counters.after p k).baudClockFallingEdge with
  | false =>
    simp only [hf, Bool.false_eq_true, if_false, Nat.add_zero] at hsucc
    rw [hsucc, if_neg Bool.false_ne_true]
    exact h
  | true =>
    simp only [hf, if_true] at hsucc
    intro j hj
    rw [hsucc] at hj hle
    rw [if_pos rfl, hsucc, getLsbD_shiftIn (by omega)]
    split
    · -- the new sample
      obtain rfl : j = Counters.falls p k := by omega
      have hmiddle := Counters.middle_of_fall hk hf
      congr 1
      omega
    · rw [show p.tdw - (Counters.falls p k + 1) + j + 1 = p.tdw - Counters.falls p k + j by omega]
      exact h j (by omega)

theorem follows_init : Follows p line 0 (init p F) := by
  refine ⟨fun _ => ⟨rfl, Counters.idle_init⟩, fun m k hn => ?_⟩
  omega

theorem Follows.step (h : Follows p line n s) (hreset : i.reset = false) (hline : i.serialDataIn = line n) :
    Follows p line (n + 1) (s.step i) := by
  by_cases hready : p.sampling.ready line n ≤ n
  · obtain ⟨hrec, hidle⟩ := h.waits hready
    have hcounters : (s.step i).counters = .after p 0 := by
      rw [Deserializer.step, hreset, hrec]
      exact hidle.step
    have hall : s.counters.allBitsTransmitted = false := hidle.2.2.2.2
    cases hl : line n with
    | false =>
      have hnext := @Sampling.ready_succ n p.sampling line
      rw [if_pos ⟨hready, hl⟩] at hnext
      refine ⟨fun hle => ?_, fun m k hn hk hm => ?_⟩
      · rw [hnext, Params.sampling_busy] at hle
        omega
      · obtain rfl : m = n := by omega
        obtain rfl : k = 0 := by omega
        refine ⟨?_, hcounters, fun j hj => ?_⟩
        · simp [Deserializer.step, hreset, hall, hline, hl]
        · rw [Counters.falls_zero] at hj
          omega
    | true =>
      have hnext := @Sampling.ready_succ n p.sampling line
      rw [if_neg (by simp [hl])] at hnext
      refine ⟨fun _ => ⟨?_, ?_⟩, fun m k hn hk hm => ?_⟩
      · simp [Deserializer.step, hreset, hall, hline, hl, hrec]
      · rw [hcounters, Counters.after_zero]
        exact Counters.idle_init
      · rw [hnext, Params.sampling_busy] at hm
        omega
  · have hnext := @Sampling.ready_succ n p.sampling line
    rw [if_neg (fun hc => hready hc.1)] at hnext
    obtain ⟨m, hmn, hm, -⟩ := Sampling.frame_of_not_ready (w := p.dw + 1) (not_le.1 hready)
    obtain ⟨k, rfl⟩ := Nat.exists_eq_add_of_lt hmn
    have hk : k ≤ p.allBits + 1 := by
      rw [hm, Params.sampling_busy] at hready
      omega
    obtain ⟨hrec, hcounters, hsamples⟩ := h.receives m k rfl hk hm
    have hcounters' : (s.step i).counters = .after p (k + 1) := by
      rw [Deserializer.step, hreset, hrec, hcounters]
      exact Counters.step_after hk
    have hall : s.counters.allBitsTransmitted = decide (k = p.allBits + 1) := by
      rw [hcounters, Counters.allBitsTransmitted_after]
    refine ⟨fun hle => ?_, fun m' k' hn hk' hm' => ?_⟩
    · -- the last cycle of the frame
      have hlast : k = p.allBits + 1 := by
        rw [hnext, hm, Params.sampling_busy] at hle
        omega
      constructor
      · simp [Deserializer.step, hreset, hall, hlast]
      · rw [hcounters', hlast]
        exact Counters.idle_after
    · obtain rfl : m' = m := by
        rw [hnext, hm] at hm'
        omega
      obtain rfl : k' = k + 1 := by omega
      have hlt : k ≤ p.allBits := by omega
      refine ⟨?_, hcounters', ?_⟩
      · have hk : k ≠ p.allBits + 1 := by omega
        simp [Deserializer.step, hreset, hall, hk, hrec]
      · have := samples_step hlt s.dataInShiftReg hsamples
        simp only [Deserializer.step, hreset, hline, hcounters]
        exact this

theorem Follows.allBitsReceived (h : Follows p line n s) :
    s.allBitsReceived = delay (p.allBits + 2) (p.sampling.frames line (p.dw + 1)) n := by
  by_cases hready : p.sampling.ready line n ≤ n
  · have hnone : s.allBitsReceived = none := by simp [Deserializer.allBitsReceived, (h.waits hready).2.2.2.2.2]
    rw [hnone]
    cases hd : delay (p.allBits + 2) (p.sampling.frames line (p.dw + 1)) n with
    | none => rfl
    | some x =>
      obtain ⟨m, rfl, hm⟩ := delay_some hd
      have hbusy := @Sampling.ready_of_frame _ (m + (p.allBits + 2)) p.sampling line _
        (Option.isSome_iff_exists.2 ⟨x, hm⟩) (by omega) (by rw [Params.sampling_busy]; omega)
      rw [hbusy, Params.sampling_busy] at hready
      omega
  · obtain ⟨m, hmn, hm, hframe⟩ := Sampling.frame_of_not_ready (w := p.dw + 1) (not_le.1 hready)
    obtain ⟨k, rfl⟩ := Nat.exists_eq_add_of_lt hmn
    have hk : k ≤ p.allBits + 1 := by
      rw [hm, Params.sampling_busy] at hready
      omega
    obtain ⟨-, hcounters, hsamples⟩ := h.receives m k rfl hk hm
    rw [Deserializer.allBitsReceived, hcounters, Counters.allBitsTransmitted_after]
    by_cases hlast : k = p.allBits + 1
    · subst hlast
      obtain ⟨x, hx⟩ := Option.isSome_iff_exists.1 hframe
      rw [show m + (p.allBits + 1) + 1 = m + (p.allBits + 2) by omega, (delay_add x).2 hx, if_pos (by simp),
        Sampling.frames_word hx]
      congr 1
      refine BitVec.eq_of_getLsbD_eq fun j hj => ?_
      have hword := p.word_fits
      have hsample := hsamples (j + 1) (by rw [Counters.falls_end]; omega)
      rw [Counters.falls_end, Nat.sub_self, Nat.zero_add] at hsample
      rw [BitVec.getLsbD_extractLsb', Sampling.getLsbD_word hj, Nat.add_comm 1 j, hsample]
      simp [hj]
    · rw [if_neg (by simpa using hlast)]
      cases hd : delay (p.allBits + 2) (p.sampling.frames line (p.dw + 1)) (m + k + 1) with
      | none => rfl
      | some x =>
        -- another start bit while this frame is being received
        obtain ⟨m', hm', hx⟩ := delay_some hd
        have hapart := @Sampling.frames_apart (p.dw + 1) p.sampling line m'
          (Option.isSome_iff_exists.2 ⟨x, hx⟩) m (by omega) (by rw [Params.sampling_busy]; omega)
        rw [hapart] at hframe
        cases hframe

/-! ## Runs -/

variable (p F)

/-- the deserializer after `n` cycles -/
def run (inp : ℕ → Input) (n : ℕ) : Deserializer p F := Clocked.run step inp (init p F) n

variable {p F} {inp : ℕ → Input}

theorem follows (hreset : ∀ n, (inp n).reset = false) (n : ℕ) :
    Follows p (fun n => (inp n).serialDataIn) n (run p F inp n) := by
  induction n with
  | zero => exact follows_init
  | succ n ih => exact ih.step _ (hreset n) rfl

theorem allBitsReceived_eq (hreset : ∀ n, (inp n).reset = false) :
    (fun n => (run p F inp n).allBitsReceived) =
      delay (p.allBits + 2) (p.sampling.frames (fun n => (inp n).serialDataIn) (p.dw + 1)) :=
  funext fun n => (follows hreset n).allBitsReceived

end Deserializer

end FpgaLearning.Uart
