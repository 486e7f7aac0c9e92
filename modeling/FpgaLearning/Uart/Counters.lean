/-
Model of the bit counters of the serial port (`uart/synthesis/submodules/altera_up_rs232_counters.v`).

The counters count clock cycles within a bit and bits within a frame. They raise one flag at the end of every bit, one in
the middle of every bit, and one when all bits of the frame are through. `step_after` gives their state any number of
cycles after `reset_counters` goes low; the deserializer and the serializer only use that closed form.
-/
import FpgaLearning.Core.Clocked

namespace FpgaLearning.Uart

/-- the parameters of the generated modules, as `defparam` passes them on, and what they are generated for -/
structure Params where
  cw : ℕ
  baudTickCount : ℕ
  halfBaudTickCount : ℕ
  tdw : ℕ
  dw : ℕ
  baud_fits : baudTickCount < 2 ^ cw
  half_gt : 2 < halfBaudTickCount
  half_lt : halfBaudTickCount < baudTickCount
  word_fits : dw + 3 ≤ tdw
  frame_fits : tdw < 16

namespace Params

variable (p : Params)

/-- the cycles of one bit -/
def bitTime : ℕ := p.baudTickCount + 1

/-- the cycles of all bits of a frame -/
def allBits : ℕ := p.tdw * p.bitTime

theorem bitTime_pos : 0 < p.bitTime := Nat.succ_pos _

theorem lt_bitTime : p.baudTickCount < p.bitTime := Nat.lt_succ_self _

theorem half_add_two_le : p.halfBaudTickCount + 2 ≤ p.bitTime := Nat.succ_le_succ p.half_lt

variable {p}

/-- the next cycle is in the next bit -/
theorem succ_of_last {k : ℕ} (h : k % p.bitTime = p.baudTickCount) :
    (k + 1) % p.bitTime = 0 ∧ (k + 1) / p.bitTime = k / p.bitTime + 1 := Clocked.succ_of_last h

/-- the next cycle is in the same bit -/
theorem succ_of_not_last {k : ℕ} (h : k % p.bitTime ≠ p.baudTickCount) :
    (k + 1) % p.bitTime = k % p.bitTime + 1 ∧ (k + 1) / p.bitTime = k / p.bitTime := Clocked.succ_of_not_last h

end Params

/-! ## The registers -/

structure Counters where
  baudCounter : ℕ
  bitCounter : ℕ
  baudClockRisingEdge : Bool
  baudClockFallingEdge : Bool
  allBitsTransmitted : Bool
deriving DecidableEq, Repr

namespace Counters

variable (p : Params)

def init : Counters := ⟨0, 0, false, false, false⟩

/-- the widths of the two counters are `cw` and 4 bits -/
def step (reset resetCounters : Bool) (c : Counters) : Counters where
  baudCounter :=
    if reset then 0
    else if resetCounters then 0
    else if c.baudCounter = p.baudTickCount then 0
    else (c.baudCounter + 1) % 2 ^ p.cw
  bitCounter :=
    if reset then 0
    else if resetCounters then 0
    else if c.bitCounter = p.tdw then 0
    else if c.baudCounter = p.baudTickCount then (c.bitCounter + 1) % 16
    else c.bitCounter
  baudClockRisingEdge := if reset then false else c.baudCounter == p.baudTickCount
  baudClockFallingEdge := if reset then false else c.baudCounter == p.halfBaudTickCount
  allBitsTransmitted := if reset then false else c.bitCounter == p.tdw

/-- the counters `k` cycles after `reset_counters` went low, up to the cycle after the one that reports the end -/
def after (k : ℕ) : Counters :=
  if k ≤ p.allBits then
    ⟨k % p.bitTime, k / p.bitTime, decide (0 < k ∧ k % p.bitTime = 0),
      decide (0 < k ∧ (k - 1) % p.bitTime = p.halfBaudTickCount), false⟩
  else if k = p.allBits + 1 then ⟨1, 0, false, false, true⟩
  else ⟨2, 0, false, false, false⟩

/-- the counters while `reset_counters` is high -/
def Idle (c : Counters) : Prop :=
  c.baudCounter < 3 ∧ c.bitCounter = 0 ∧ c.baudClockRisingEdge = false ∧ c.baudClockFallingEdge = false ∧
    c.allBitsTransmitted = false

variable {p} {k : ℕ} {c : Counters}

@[simp] theorem step_reset (resetCounters : Bool) : c.step p true resetCounters = init := rfl

theorem after_of_le (h : k ≤ p.allBits) :
    after p k = ⟨k % p.bitTime, k / p.bitTime, decide (0 < k ∧ k % p.bitTime = 0),
      decide (0 < k ∧ (k - 1) % p.bitTime = p.halfBaudTickCount), false⟩ := if_pos h

theorem after_allBits_succ : after p (p.allBits + 1) = ⟨1, 0, false, false, true⟩ := by
  rw [after, if_neg (by omega), if_pos rfl]

theorem after_allBits_add_two : after p (p.allBits + 2) = ⟨2, 0, false, false, false⟩ := by
  rw [after, if_neg (by omega), if_neg (by omega)]

theorem after_zero : after p 0 = init := by
  rw [after_of_le (Nat.zero_le _)]
  simp [init]

theorem idle_init : Idle init := ⟨by decide, rfl, rfl, rfl, rfl⟩

theorem idle_after : Idle (after p (p.allBits + 2)) := by
  rw [after_allBits_add_two]
  exact ⟨by decide, rfl, rfl, rfl, rfl⟩

/-- while `reset_counters` is high the counters are at the start, one cycle later at the latest -/
theorem Idle.step (h : c.Idle) : c.step p false true = after p 0 := by
  obtain ⟨hbaud, hbit, -, -, -⟩ := h
  have := p.half_gt
  have := p.half_lt
  have := p.word_fits
  have h₁ : c.baudCounter ≠ p.baudTickCount := by omega
  have h₂ : c.baudCounter ≠ p.halfBaudTickCount := by omega
  have h₃ : c.bitCounter ≠ p.tdw := by omega
  rw [after_zero]
  simp [Counters.step, init, h₁, h₂, h₃]

theorem step_after_of_lt (h : k < p.allBits) : (after p k).step p false false = after p (k + 1) := by
  have htdw : k / p.bitTime < p.tdw := Nat.div_lt_of_lt_mul (by rwa [Nat.mul_comm])
  have hsixteen := p.frame_fits
  rw [after_of_le h.le, after_of_le (show k + 1 ≤ p.allBits from h), step]
  by_cases hlast : k % p.bitTime = p.baudTickCount
  · obtain ⟨hmod, hdiv⟩ := Params.succ_of_last hlast
    have hhalf : p.baudTickCount ≠ p.halfBaudTickCount := p.half_lt.ne'
    simp [hlast, hmod, hdiv, htdw.ne, hhalf, Nat.mod_eq_of_lt (show k / p.bitTime + 1 < 16 by omega)]
  · obtain ⟨hmod, hdiv⟩ := Params.succ_of_not_last hlast
    have hcw : k % p.bitTime + 1 < 2 ^ p.cw := by
      have := Nat.mod_lt k p.bitTime_pos
      have := p.baud_fits
      rw [Params.bitTime] at *
      omega
    simp [hlast, hmod, hdiv, htdw.ne, Nat.mod_eq_of_lt hcw, beq_eq_decide]

theorem step_after_allBits : (after p p.allBits).step p false false = after p (p.allBits + 1) := by
  have hmod : p.allBits % p.bitTime = 0 := Nat.mul_mod_left _ _
  have hdiv : p.allBits / p.bitTime = p.tdw := Nat.mul_div_cancel _ p.bitTime_pos
  have hhalf := p.half_gt
  have hlt := p.half_lt
  have hcw : 1 < 2 ^ p.cw := by
    have := p.baud_fits
    omega
  rw [after_of_le le_rfl, after_allBits_succ, step]
  simp [hmod, hdiv, show 0 ≠ p.baudTickCount by omega, show 0 ≠ p.halfBaudTickCount by omega, Nat.mod_eq_of_lt hcw]

theorem step_after_allBits_succ : (after p (p.allBits + 1)).step p false false = after p (p.allBits + 2) := by
  have hhalf := p.half_gt
  have hlt := p.half_lt
  have hword := p.word_fits
  have hcw : 2 < 2 ^ p.cw := by
    have := p.baud_fits
    omega
  rw [after_allBits_succ, after_allBits_add_two, step]
  simp [show 1 ≠ p.baudTickCount by omega, show 1 ≠ p.halfBaudTickCount by omega, show 0 ≠ p.tdw by omega,
    Nat.mod_eq_of_lt hcw]

/-- **The counters of a frame**, cycle by cycle. -/
theorem step_after (h : k ≤ p.allBits + 1) : (after p k).step p false false = after p (k + 1) := by
  rcases Nat.lt_trichotomy k p.allBits with hlt | rfl | hgt
  · exact step_after_of_lt hlt
  · exact step_after_allBits
  · obtain rfl : k = p.allBits + 1 := by omega
    exact step_after_allBits_succ

theorem allBitsTransmitted_after : (after p k).allBitsTransmitted = decide (k = p.allBits + 1) := by
  rw [after]
  split
  · simp; omega
  · split <;> simp_all

/-! ## Counting the flags -/

variable (p)

/-- how often the flag in the middle of a bit has been seen before cycle `k` -/
def falls (k : ℕ) : ℕ := (k + p.bitTime - (p.halfBaudTickCount + 2)) / p.bitTime

/-- how often the flag at the end of a bit has been seen before cycle `k` -/
def rises (k : ℕ) : ℕ := (k - 1) / p.bitTime

variable {p}

theorem falls_zero : falls p 0 = 0 := by
  have := p.bitTime_pos
  exact Nat.div_eq_of_lt (by omega)

theorem falls_end : falls p (p.allBits + 1) = p.tdw := by
  have := p.half_add_two_le
  rw [falls, show p.allBits + 1 + p.bitTime - (p.halfBaudTickCount + 2) =
    p.bitTime - (p.halfBaudTickCount + 1) + p.tdw * p.bitTime by rw [Params.allBits]; omega,
    Nat.add_mul_div_right _ _ p.bitTime_pos, Nat.div_eq_of_lt (by omega), Nat.zero_add]

theorem falls_succ (h : k ≤ p.allBits) :
    falls p (k + 1) = falls p k + if (after p k).baudClockFallingEdge then 1 else 0 := by
  have hhalf := p.half_add_two_le
  have hle : k + 1 + p.bitTime - (p.halfBaudTickCount + 2) = k + p.bitTime - (p.halfBaudTickCount + 2) + 1 := by omega
  rw [after_of_le h, falls, falls, hle]
  simp only [decide_eq_true_eq]
  split
  · next hc =>
    obtain ⟨hpos, hmod⟩ := hc
    refine (Params.succ_of_last ?_).2
    have hk := Nat.div_add_mod (k - 1) p.bitTime
    rw [show k + p.bitTime - (p.halfBaudTickCount + 2) = p.baudTickCount + p.bitTime * ((k - 1) / p.bitTime) by
      rw [Params.bitTime] at *; omega, Nat.add_mul_mod_self_left, Nat.mod_eq_of_lt p.lt_bitTime]
  · next hc =>
    refine (Params.succ_of_not_last fun hmod => hc ?_).2
    have hk := Nat.div_add_mod (k + p.bitTime - (p.halfBaudTickCount + 2)) p.bitTime
    generalize (k + p.bitTime - (p.halfBaudTickCount + 2)) / p.bitTime = q at hk
    have hhalf' := p.half_lt
    have hpos : 0 < k := by rw [Params.bitTime] at *; omega
    refine ⟨hpos, ?_⟩
    rw [show k - 1 = p.halfBaudTickCount + p.bitTime * q by rw [Params.bitTime] at *; omega, Nat.add_mul_mod_self_left,
      Nat.mod_eq_of_lt (by omega)]

/-- the flag of bit `j` comes in the middle of bit `j` -/
theorem falls_middle (j : ℕ) : falls p (p.halfBaudTickCount + 1 + j * p.bitTime) = j := by
  have := p.half_add_two_le
  have := p.bitTime_pos
  rw [falls, show p.halfBaudTickCount + 1 + j * p.bitTime + p.bitTime - (p.halfBaudTickCount + 2) =
    p.bitTime - 1 + j * p.bitTime by omega, Nat.add_mul_div_right _ _ p.bitTime_pos, Nat.div_eq_of_lt (by omega),
    Nat.zero_add]

theorem middle_of_fall (h : k ≤ p.allBits) (hf : (after p k).baudClockFallingEdge = true) :
    k = p.halfBaudTickCount + 1 + falls p k * p.bitTime := by
  rw [after_of_le h, decide_eq_true_eq] at hf
  obtain ⟨hpos, hmod⟩ := hf
  have hk := Nat.div_add_mod (k - 1) p.bitTime
  have heq : k = p.halfBaudTickCount + 1 + (k - 1) / p.bitTime * p.bitTime := by
    rw [Nat.mul_comm]
    omega
  rw [heq, falls_middle]

theorem rises_succ (h : k ≤ p.allBits) :
    rises p (k + 1) = rises p k + if (after p k).baudClockRisingEdge then 1 else 0 := by
  rw [after_of_le h, rises, rises, Nat.add_sub_cancel]
  cases k with
  | zero => simp
  | succ k =>
    rw [Nat.add_sub_cancel]
    by_cases hlast : k % p.bitTime = p.baudTickCount
    · obtain ⟨hmod, hdiv⟩ := Params.succ_of_last hlast
      simp [hmod, hdiv]
    · obtain ⟨hmod, hdiv⟩ := Params.succ_of_not_last hlast
      simp [hmod, hdiv]

end Counters

end FpgaLearning.Uart
