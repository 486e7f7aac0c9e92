/-
Model of the clock (`Clock/Counter.sv`, `Clock/Clock.sv`, and their wiring in `Clock/baseline_c5gx.v`).

Every counter raises `overflow` when it starts again, and the next counter of the chain is clocked by the rising edge of
that flag. A prescaler makes seconds out of the 50 MHz clock.

- `Counter.overflow_rises`: the flag rises at every `MAX_VAL + 1`st edge and at no other;
- `Clock.clock_shows_time`: after any number of cycles the four digits are the minutes and seconds that have passed.
-/
import FpgaLearning.Core.Clocked

namespace FpgaLearning.Labs

/-! ## Counter -/

/-- `Counter #(WIDTH, MAX_VAL)` -/
structure Counter (width : ℕ) where
  out : BitVec width
  overflow : Bool
deriving DecidableEq, Repr

namespace Counter

variable {width : ℕ}

def reset : Counter width := ⟨0, false⟩

/-- a rising edge of `clk` -/
def tick (maxVal : ℕ) (c : Counter width) : Counter width :=
  if c.out.toNat = maxVal then ⟨0, true⟩ else ⟨c.out + 1, false⟩

/-- after `n` edges -/
def after (maxVal n : ℕ) : Counter width := (tick maxVal)^[n] reset

variable {maxVal : ℕ}

theorem after_succ (n : ℕ) : (after maxVal (n + 1) : Counter width) = (after maxVal n).tick maxVal :=
  Function.iterate_succ_apply' _ _ _

theorem out_after (hwidth : maxVal < 2 ^ width) (n : ℕ) : (after maxVal n : Counter width).out.toNat = n % (maxVal + 1) := by
  induction n with
  | zero => rw [Nat.zero_mod]; rfl
  | succ n ih =>
    rw [after_succ, tick, ih]
    split
    · next h => exact (Clocked.succ_of_last h).1.symm
    · next h =>
      have hlt := Nat.mod_lt n (show 0 < maxVal + 1 from Nat.succ_pos maxVal)
      have hadd : ((after maxVal n : Counter width).out + 1).toNat =
          ((after maxVal n : Counter width).out.toNat + 1 % 2 ^ width) % 2 ^ width := BitVec.toNat_add _ _
      rw [(Clocked.succ_of_not_last h).1, hadd, ih, Nat.add_mod_mod, Nat.mod_eq_of_lt (by omega)]

theorem overflow_after (hwidth : maxVal < 2 ^ width) (n : ℕ) :
    (after maxVal n : Counter width).overflow = decide (0 < n ∧ n % (maxVal + 1) = 0) := by
  cases n with
  | zero => rfl
  | succ n =>
    rw [after_succ, tick, out_after hwidth]
    split
    · next h => simp [(Clocked.succ_of_last h).1]
    · next h => simp [(Clocked.succ_of_not_last h).1]

/-- **Carry.** The flag rises at every `maxVal + 1`st edge and at no other. -/
theorem overflow_rises (hwidth : maxVal < 2 ^ width) (hmax : 0 < maxVal) (n : ℕ) :
    (!(after maxVal n : Counter width).overflow && (after maxVal (n + 1) : Counter width).overflow) =
      decide (n % (maxVal + 1) = maxVal) := by
  rw [overflow_after hwidth, overflow_after hwidth]
  by_cases h : n % (maxVal + 1) = maxVal
  · have hn : n % (maxVal + 1) ≠ 0 := by omega
    simp [h, (Clocked.succ_of_last h).1, hmax.ne']
  · simp [h, (Clocked.succ_of_not_last h).1]

end Counter

/-! ## Clock -/

/-- the counters of `Clock` and the prescaler in front of it -/
structure Clock where
  cd : Counter 26
  cntSec0 : Counter 4
  cntSec1 : Counter 4
  cntMin0 : Counter 4
  cntMin1 : Counter 4
deriving DecidableEq, Repr

namespace Clock

/-- a counter whose clock is the `overflow` of another one, which goes from `c` to `c'` -/
def ripple {w v : ℕ} (maxVal : ℕ) (c c' : Counter w) (next : Counter v) : Counter v :=
  if !c.overflow && c'.overflow then next.tick maxVal else next

def reset : Clock := ⟨.reset, .reset, .reset, .reset, .reset⟩

/-- a rising edge of the 50 MHz clock, and the edges that follow from it -/
def step (s : Clock) : Clock :=
  let cd := s.cd.tick 49999999
  let cntSec0 := ripple 9 s.cd cd s.cntSec0
  let cntSec1 := ripple 5 s.cntSec0 cntSec0 s.cntSec1
  let cntMin0 := ripple 9 s.cntSec1 cntSec1 s.cntMin0
  let cntMin1 := ripple 9 s.cntMin0 cntMin0 s.cntMin1
  ⟨cd, cntSec0, cntSec1, cntMin0, cntMin1⟩

def after (n : ℕ) : Clock := step^[n] reset

/-- the same number, or the next one -/
def Next (k k' : ℕ) : Prop := k' = k ∨ k' = k + 1

theorem Next.div {k k' : ℕ} (h : Next k k') (m : ℕ) : Next (k / (m + 1)) (k' / (m + 1)) := by
  rcases h with rfl | rfl
  · exact .inl rfl
  · by_cases hlast : k % (m + 1) = m
    · exact .inr (Clocked.succ_of_last hlast).2
    · exact .inl (Clocked.succ_of_not_last hlast).2

/-- a counter that is clocked by another one has had one edge for each of its turns -/
theorem ripple_after {w v m m' k k' : ℕ} (hwidth : m < 2 ^ w) (hmax : 0 < m) (h : Next k k') :
    ripple m' (.after m k : Counter w) (.after m k') (.after m' (k / (m + 1)) : Counter v) =
      .after m' (k' / (m + 1)) := by
  rw [ripple]
  rcases h with rfl | rfl
  · rw [Bool.not_and_self, if_neg Bool.false_ne_true]
  · rw [Counter.overflow_rises hwidth hmax]
    by_cases hlast : k % (m + 1) = m
    · rw [decide_eq_true hlast, if_pos rfl, (Clocked.succ_of_last hlast).2, Counter.after_succ]
    · rw [decide_eq_false hlast, if_neg Bool.false_ne_true, (Clocked.succ_of_not_last hlast).2]

theorem after_eq (n : ℕ) : after n =
    ⟨.after 49999999 n, .after 9 (n / 50000000), .after 5 (n / 50000000 / 10), .after 9 (n / 50000000 / 10 / 6),
      .after 9 (n / 50000000 / 10 / 6 / 10)⟩ := by
  induction n with
  | zero => rfl
  | succ n ih =>
    have hcd : Next n (n + 1) := .inr rfl
    have hsec0 := hcd.div 49999999
    have hsec1 := hsec0.div 9
    have hmin0 := hsec1.div 5
    rw [after, Function.iterate_succ_apply', ← after, ih, step]
    simp only [← Counter.after_succ]
    rw [ripple_after (by decide) (by decide) hcd, ripple_after (by decide) (by decide) hsec0,
      ripple_after (by decide) (by decide) hsec1, ripple_after (by decide) (by decide) hmin0]

/-- **The clock.** After any number of cycles at 50 MHz it shows the minutes and seconds that have passed, up to 99:59. -/
theorem clock_shows_time (n : ℕ) :
    (after n).cntMin1.out.toNat * 10 + (after n).cntMin0.out.toNat = n / 50000000 / 60 % 100 ∧
      (after n).cntSec1.out.toNat * 10 + (after n).cntSec0.out.toNat = n / 50000000 % 60 ∧
      (after n).cntMin1.out.toNat ≤ 9 ∧ (after n).cntMin0.out.toNat ≤ 9 ∧ (after n).cntSec1.out.toNat ≤ 5 ∧
      (after n).cntSec0.out.toNat ≤ 9 := by
  have h9 : ∀ k, (Counter.after 9 k : Counter 4).out.toNat = k % 10 := Counter.out_after (by decide)
  have h5 : ∀ k, (Counter.after 5 k : Counter 4).out.toNat = k % 6 := Counter.out_after (by decide)
  simp only [after_eq, h9, h5]
  omega

end Clock

end FpgaLearning.Labs
