/-
Model of the sending side of the serial port (`uart/synthesis/submodules/altera_up_rs232_out_serializer.v`).

A word is taken from the queue when nothing is being sent. It goes into a shift register behind a start bit 0, and the
register is shifted out, ones behind it, at every flag at the end of a bit.

- `sends`: whatever is written and whenever, the line carries the words that are taken from the queue, each in a frame that
  starts two cycles later, and is at 1 in between.
-/
import FpgaLearning.Uart.Deserializer

namespace FpgaLearning.Uart

open SerialLine

/-! ## The registers -/

structure Serializer (p : Params) (F : Scfifo (p.dw + 1)) where
  fifoWriteSpace : BitVec 8
  serialDataOut : Bool
  transmittingData : Bool
  dataOutShiftReg : BitVec (p.dw + 2)
  counters : Counters
  fifo : F.State

namespace Serializer

structure Input (p : Params) where
  reset : Bool
  transmitData : BitVec (p.dw + 1)
  transmitDataEn : Bool

variable (p : Params) (F : Scfifo (p.dw + 1))

def init : Serializer p F := ⟨0, true, false, BitVec.allOnes (p.dw + 2), .init, F.clear⟩

variable {p F} (s : Serializer p F) (i : Input p)

def readFifoEn : Bool := !s.transmittingData && !F.empty s.fifo && !s.counters.allBitsTransmitted

def port : Scfifo.Port (p.dw + 1) where
  data := if i.transmitDataEn && !F.full s.fifo then some i.transmitData else none
  rdreq := s.readFifoEn

/-- after reset there seems to be no room until the first cycle is over -/
def step : Serializer p F where
  fifoWriteSpace := if i.reset then 0 else 0x80#8 - .cons (F.full s.fifo) (F.usedw s.fifo)
  serialDataOut := if i.reset then true else s.dataOutShiftReg.getLsbD 0
  transmittingData :=
    if i.reset then false
    else if s.counters.allBitsTransmitted then false
    else if F.empty s.fifo = false then true
    else s.transmittingData
  dataOutShiftReg :=
    if i.reset then BitVec.allOnes (p.dw + 2)
    else if s.readFifoEn then (F.q s.fifo).concat false
    else if s.counters.baudClockRisingEdge then shiftIn true s.dataOutShiftReg
    else s.dataOutShiftReg
  counters := s.counters.step p i.reset (!s.transmittingData)
  fifo := if i.reset then F.clear else F.step (s.port i).data (s.port i).rdreq s.fifo

@[simp] theorem step_reset : s.step { i with reset := true } = init p F := rfl

/-- the word that is taken from the queue -/
def loaded : Option (BitVec (p.dw + 1)) := if s.readFifoEn then some (F.q s.fifo) else none

theorem read_port : F.read s.fifo (s.port i) = s.loaded := rfl

theorem port_legal : F.Legal s.fifo (s.port i) := by
  constructor
  · simp only [port]
    split <;> simp_all
  · simp only [port, readFifoEn, Bool.and_eq_true, Bool.not_eq_true']
    exact fun h => h.1.2

/-! ## Frames -/

/-- the first cycle of bit `j` of a frame -/
def edge (p : Params) (s j : ℕ) : ℕ := if j = 0 then s else s + j * p.bitTime + 1

/-- the serializer after `n` cycles, when the words `e` were taken: it rests, or it is in cycle `k` of the frame of the
word that was taken in cycle `m` -/
structure Follows (e : ℕ → Option (BitVec (p.dw + 1))) (n : ℕ) (s : Serializer p F) : Prop where
  rests : (∀ m < n, (e m).isSome → m + (p.allBits + 3) ≤ n) → s.transmittingData = false ∧ s.counters.Idle ∧
    s.dataOutShiftReg = BitVec.allOnes (p.dw + 2) ∧ s.serialDataOut = true
  sends : ∀ m k x, n = m + k + 1 → k ≤ p.allBits + 1 → e m = some x → s.transmittingData = true ∧
    s.counters = .after p k ∧
    (∀ i < p.dw + 2, s.dataOutShiftReg.getLsbD i = frameBit x (Counters.rises p k + i)) ∧
    s.serialDataOut = if k = 0 then true else frameBit x (Counters.rises p (k - 1))

variable {e : ℕ → Option (BitVec (p.dw + 1))} {n : ℕ} {s} {i}

theorem getLsbD_concat_false (x : BitVec (p.dw + 1)) {i : ℕ} (hi : i < p.dw + 2) :
    (x.concat false).getLsbD i = frameBit x i := by
  cases i with
  | zero => rw [BitVec.getLsbD_concat_zero, frameBit]
  | succ i => rw [BitVec.getLsbD_concat_succ, frameBit, if_pos (by omega)]

/-- the shift register loses a bit at the flag at the end of a bit -/
theorem shift_step {x : BitVec (p.dw + 1)} {k : ℕ} (hk : k ≤ p.allBits) {reg : BitVec (p.dw + 2)}
    (h : ∀ i < p.dw + 2, reg.getLsbD i = frameBit x (Counters.rises p k + i)) :
    ∀ i < p.dw + 2, (if (Counters.after p k).baudClockRisingEdge then shiftIn true reg else reg).getLsbD i =
      frameBit x (Counters.rises p (k + 1) + i) := by
  have hsucc := Counters.rises_succ hk
  intro i hi
  cases hr : (Counters.after p k).baudClockRisingEdge with
  | false =>
    rw [hr, if_neg Bool.false_ne_true, Nat.add_zero] at hsucc
    rw [hsucc, if_neg Bool.false_ne_true]
    exact h i hi
  | true =>
    rw [hr, if_pos rfl] at hsucc
    rw [hsucc, if_pos rfl, getLsbD_shiftIn hi, Nat.add_assoc, Nat.add_comm 1 i]
    split
    · rw [frameBit_of_lt _ (by omega)]
    · exact h (i + 1) (by omega)

theorem rises_end : Counters.rises p (p.allBits + 1) = p.tdw := Nat.mul_div_cancel _ p.bitTime_pos

theorem follows_init : Follows e 0 (init p F) := by
  refine ⟨fun _ => ⟨rfl, Counters.idle_init, rfl, rfl⟩, fun m k x hn => ?_⟩
  omega

/-- a word is only taken while the serializer rests -/
theorem Follows.rests_of_loaded (h : Follows e n s) (hl : s.loaded.isSome) :
    ∀ m < n, (e m).isSome → m + (p.allBits + 3) ≤ n := by
  intro m hm hem
  by_contra hlt
  obtain ⟨x, hx⟩ := Option.isSome_iff_exists.1 hem
  obtain ⟨k, rfl⟩ := Nat.exists_eq_add_of_lt hm
  have htrans := (h.sends m k x rfl (by omega) hx).1
  rw [loaded, readFifoEn, htrans] at hl
  cases hl

theorem Follows.step_start (h : Follows e n s) (hreset : i.reset = false) {x : BitVec (p.dw + 1)}
    (hx : s.loaded = some x) : (s.step i).transmittingData = true ∧ (s.step i).counters = .after p 0 ∧
      (∀ j < p.dw + 2, (s.step i).dataOutShiftReg.getLsbD j = frameBit x j) ∧ (s.step i).serialDataOut = true := by
  obtain ⟨htrans, hidle, hreg, -⟩ := h.rests (h.rests_of_loaded (by rw [hx]; rfl))
  have hall : s.counters.allBitsTransmitted = false := hidle.2.2.2.2
  rw [loaded, Option.ite_none_right_eq_some] at hx
  obtain ⟨hread, hq⟩ := hx
  have hempty : F.empty s.fifo = false := by simpa [readFifoEn, htrans, hall] using hread
  refine ⟨by simp [Serializer.step, hreset, hall, hempty], ?_, fun j hj => ?_, ?_⟩
  · rw [Serializer.step, hreset, htrans]
    exact hidle.step
  · simp only [Serializer.step, hreset, hread, if_true, Bool.false_eq_true, if_false, Option.some.inj hq]
    exact getLsbD_concat_false x hj
  · simp [Serializer.step, hreset, hreg]

theorem Follows.step_rest (h : Follows e n s) (hreset : i.reset = false) (hl : s.loaded = none)
    (hrest : ∀ m < n, (e m).isSome → m + (p.allBits + 3) ≤ n) :
    (s.step i).transmittingData = false ∧ (s.step i).counters.Idle ∧
      (s.step i).dataOutShiftReg = BitVec.allOnes (p.dw + 2) ∧ (s.step i).serialDataOut = true := by
  obtain ⟨htrans, hidle, hreg, -⟩ := h.rests hrest
  obtain ⟨-, -, hrise, -, hall⟩ := hidle
  have hread : s.readFifoEn = false := by
    cases hr : s.readFifoEn with
    | false => rfl
    | true => rw [loaded, hr] at hl; cases hl
  have hempty : F.empty s.fifo = true := by simpa [readFifoEn, htrans, hall] using hread
  refine ⟨by simp [Serializer.step, hreset, hall, hempty, htrans], ?_, ?_, ?_⟩
  · rw [Serializer.step, hreset, htrans, Bool.not_false, (h.rests hrest).2.1.step, Counters.after_zero]
    exact Counters.idle_init
  · simp [Serializer.step, hreset, hread, hrise, hreg]
  · simp [Serializer.step, hreset, hreg]

theorem Follows.step_end (h : Follows e n s) (hreset : i.reset = false) {m : ℕ} (hm : n = m + (p.allBits + 1) + 1)
    (hem : (e m).isSome) : (s.step i).transmittingData = false ∧ (s.step i).counters.Idle ∧
      (s.step i).dataOutShiftReg = BitVec.allOnes (p.dw + 2) ∧ (s.step i).serialDataOut = true := by
  obtain ⟨x, hx⟩ := Option.isSome_iff_exists.1 hem
  obtain ⟨htrans, hcounters, hreg, -⟩ := h.sends m (p.allBits + 1) x hm le_rfl hx
  have hword := p.word_fits
  have hall : s.counters.allBitsTransmitted = true := by rw [hcounters, Counters.allBitsTransmitted_after]; simp
  have hrise : s.counters.baudClockRisingEdge = false := by rw [hcounters, Counters.after_allBits_succ]
  have hones : s.dataOutShiftReg = BitVec.allOnes (p.dw + 2) := by
    refine BitVec.eq_of_getLsbD_eq fun j hj => ?_
    rw [hreg j hj, rises_end, frameBit_of_lt _ (by omega), BitVec.getLsbD_allOnes, decide_eq_true hj]
  refine ⟨by simp [Serializer.step, hreset, hall], ?_, ?_, ?_⟩
  · rw [Serializer.step, hreset, htrans, hcounters, Bool.not_true, Counters.step_after le_rfl]
    exact Counters.idle_after
  · simp [Serializer.step, hreset, readFifoEn, htrans, hrise, hones]
  · simp [Serializer.step, hreset, hones]

theorem Follows.step (h : Follows e n s) (hreset : i.reset = false) (hl : s.loaded = e n) :
    Follows e (n + 1) (s.step i) := by
  constructor
  · intro hrest
    have hnone : s.loaded = none := by
      cases hc : s.loaded with
      | none => rfl
      | some x =>
        have := hrest n (Nat.lt_succ_self n) (by rw [← hl, hc]; rfl)
        omega
    by_cases hnow : ∀ m < n, (e m).isSome → m + (p.allBits + 3) ≤ n
    · exact h.step_rest hreset hnone hnow
    · -- the last cycle of a frame
      push Not at hnow
      obtain ⟨m, hm, hem, hlt⟩ := hnow
      have hle := hrest m (by omega) hem
      exact h.step_end hreset (m := m) (by omega) hem
  · intro m k x hn hk hx
    cases k with
    | zero =>
      obtain rfl : m = n := by omega
      obtain ⟨h₁, h₂, h₃, h₄⟩ := h.step_start hreset (hl.trans hx)
      have hzero : Counters.rises p 0 = 0 := Nat.zero_div _
      exact ⟨h₁, h₂, fun j hj => by rw [hzero, Nat.zero_add]; exact h₃ j hj, h₄⟩
    | succ k =>
      obtain ⟨htrans, hcounters, hreg, -⟩ := h.sends m k x (by omega) (by omega) hx
      have hall : s.counters.allBitsTransmitted = false := by
        rw [hcounters, Counters.allBitsTransmitted_after]
        simp only [decide_eq_false_iff_not]
        omega
      refine ⟨by simp [Serializer.step, hreset, hall, htrans], ?_, ?_, ?_⟩
      · rw [Serializer.step, hreset, htrans, hcounters]
        exact Counters.step_after (by omega)
      · have hread : s.readFifoEn = false := by simp [readFifoEn, htrans]
        have hshift := shift_step (by omega) hreg
        simp only [Serializer.step, hreset, hread, hcounters, Bool.false_eq_true, if_false]
        exact hshift
      · simp only [Serializer.step, hreset, Bool.false_eq_true, if_false, Nat.add_sub_cancel, Nat.succ_ne_zero]
        exact hreg 0 (by omega)

/-! ## Runs -/

variable (p F)

/-- the serializer after `n` cycles -/
def run (inp : ℕ → Input p) (n : ℕ) : Serializer p F := Clocked.run step inp (init p F) n

variable {p F} {inp : ℕ → Input p}

theorem follows (hreset : ∀ n, (inp n).reset = false) (n : ℕ) :
    Follows (fun n => (run p F inp n).loaded) n (run p F inp n) := by
  induction n with
  | zero => exact follows_init
  | succ n ih => exact ih.step (hreset n) rfl

theorem loaded_apart (hreset : ∀ n, (inp n).reset = false) : Apart (p.allBits + 3) fun n => (run p F inp n).loaded := by
  intro m hm n hmn hn
  by_contra hne
  have := (follows hreset n).rests_of_loaded (Option.isSome_iff_ne_none.2 hne) m hmn hm
  omega

theorem sends (hreset : ∀ n, (inp n).reset = false) :
    Sends (edge p) (fun n => (run p F inp n).serialDataOut) (delay 2 fun n => (run p F inp n).loaded) := by
  have hword := p.word_fits
  have hpos := p.bitTime_pos
  have hframe : (p.dw + 1 + 1) * p.bitTime ≤ p.allBits := Nat.mul_le_mul_right _ (by omega)
  refine ⟨fun _ => rfl, fun s x hx j hj n hlo hhi => ?_, fun n hrest => ?_⟩
  · obtain ⟨m, rfl, hm⟩ := delay_some hx
    have hj' : (j + 1) * p.bitTime ≤ (p.dw + 1 + 1) * p.bitTime := Nat.mul_le_mul_right _ (by omega)
    rw [edge, if_neg (Nat.succ_ne_zero j)] at hhi
    have hle : m + 2 ≤ n := by
      rw [edge] at hlo
      split at hlo <;> omega
    obtain ⟨k, rfl⟩ := Nat.exists_eq_add_of_le hle
    obtain ⟨-, -, -, hout⟩ := (follows (F := F) hreset (m + 2 + k)).sends m (k + 1) x (by omega) (by omega) hm
    change (run p F inp (m + 2 + k)).serialDataOut = _
    rw [hout, if_neg (Nat.succ_ne_zero k), Nat.add_sub_cancel, Counters.rises]
    congr 1
    rw [Nat.succ_mul] at hhi
    cases j with
    | zero => exact Nat.div_eq_of_lt (by omega)
    | succ j =>
      rw [edge, if_neg (Nat.succ_ne_zero j)] at hlo
      exact Nat.div_eq_of_lt_le (by omega) (by rw [Nat.succ_mul (j + 1)]; omega)
  · by_cases hnow : ∀ m < n, ((run p F inp m).loaded).isSome → m + (p.allBits + 3) ≤ n
    · exact ((follows hreset n).rests hnow).2.2.2
    · push Not at hnow
      obtain ⟨m, hm, hem, hlt⟩ := hnow
      obtain ⟨x, hx⟩ := Option.isSome_iff_exists.1 hem
      obtain ⟨k, rfl⟩ := Nat.exists_eq_add_of_lt hm
      rw [((follows hreset (m + k + 1)).sends m k x rfl (by omega) hx).2.2.2]
      cases k with
      | zero => rfl
      | succ k =>
        rw [if_neg (Nat.succ_ne_zero k), Nat.add_sub_cancel]
        have hdelay : delay 2 (fun n => (run p F inp n).loaded) (m + 2) = some x := (delay_add x).2 hx
        have hend := hrest (m + 2) (by omega) (by rw [hdelay]; rfl)
        rw [edge, if_neg (Nat.succ_ne_zero _)] at hend
        have hle : p.dw + 1 + 1 ≤ (k - 1) / p.bitTime := (Nat.le_div_iff_mul_le hpos).2 (by omega)
        exact frameBit_of_lt _ hle

/-- a serializer that has not taken a word for the time of a frame takes the next one that is shown -/
theorem readFifoEn_of_quiet (hreset : ∀ n, (inp n).reset = false) {n : ℕ}
    (hempty : F.empty (run p F inp n).fifo = false)
    (hquiet : ∀ m < n, n < m + (p.allBits + 3) → (run p F inp m).readFifoEn = false) :
    (run p F inp n).readFifoEn = true := by
  obtain ⟨htrans, hidle, -⟩ := (follows hreset n).rests fun m hm hem => by
    by_contra hlt
    rw [loaded, hquiet m hm (by omega)] at hem
    cases hem
  have hall : (run p F inp n).counters.allBitsTransmitted = false := hidle.2.2.2.2
  rw [readFifoEn, htrans, hempty, hall]
  rfl

end Serializer

/-! ## Receivers -/

/-- a receiver at the other end that looks at every bit of the word while it is on the line, and is back before the next
frame -/
structure Params.ReadBy (p : Params) (S : Sampling) : Prop where
  sample : ∀ j < p.dw + 1, (j + 1) * p.bitTime < S.offset j ∧ S.offset j ≤ (j + 2) * p.bitTime
  done : (p.dw + 2) * p.bitTime < S.busy
  back : S.busy ≤ p.allBits + 3

/-- the deserializer is one -/
theorem Params.readBy_sampling (p : Params) : p.ReadBy p.sampling := by
  have hhalf := p.half_add_two_le
  have hword : (p.dw + 2) * p.bitTime ≤ p.allBits := Nat.mul_le_mul_right _ (by have := p.word_fits; omega)
  refine ⟨fun j _ => ?_, ?_, le_rfl⟩
  · rw [Params.sampling_offset, Nat.succ_mul (j + 1)]
    omega
  · rw [Params.sampling_busy]
    omega

/-- **The line.** Any such receiver reads the words that are taken from the queue. -/
theorem Serializer.frames_eq {p : Params} {F : Scfifo (p.dw + 1)} {inp : ℕ → Serializer.Input p} {S : Sampling}
    (hS : p.ReadBy S) (hreset : ∀ n, (inp n).reset = false) :
    S.frames (fun n => (Serializer.run p F inp n).serialDataOut) (p.dw + 1) =
      delay 2 fun n => (Serializer.run p F inp n).loaded := by
  refine (Serializer.sends hreset).frames_eq ⟨fun s => ?_, fun s j hj => ?_, fun s => ?_, ?_⟩
  · rw [Serializer.edge, if_neg one_ne_zero]
    omega
  · obtain ⟨hlo, hhi⟩ := hS.sample j hj
    rw [Serializer.edge, Serializer.edge, if_neg (Nat.succ_ne_zero j), if_neg (Nat.succ_ne_zero (j + 1))]
    omega
  · have hdone : (p.dw + 1 + 1) * p.bitTime < S.busy := hS.done
    rw [Serializer.edge, if_neg (Nat.succ_ne_zero _)]
    omega
  · exact (Serializer.loaded_apart hreset).delay.mono hS.back

end FpgaLearning.Uart
