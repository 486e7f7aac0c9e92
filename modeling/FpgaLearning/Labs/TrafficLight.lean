/-
Model of the pedestrian crossing (`TrafficLight/TrafficLightControl.sv`, `Button.sv`, `TrafficLight.sv`, and their wiring in
`TrafficLight/baseline_c5gx.v`). A tick is a rising edge of the 32 Hz clock.

The control counts down the seconds of the phase it is in. A press of the button during the green of the cars is kept until
the control sees it, and the control then goes to three seconds if there are more left.

- `count_run`: a countdown that is not cut short ends after exactly `32 * T` ticks;
- `phases`: whatever the button does, the phases alternate for ever, the people have green for exactly 10 s, and the cars
  for 20 s or until about three seconds after the first press, whichever is earlier;
- `lights`: never two greens, and always a red.
-/
import FpgaLearning.Core.Clocked

namespace FpgaLearning.Labs

/-! ## TrafficLightControl -/

/-- `SCars`, `SPeople` -/
inductive Phase where
  | cars | people
deriving DecidableEq, Repr

namespace Phase

def other : Phase → Phase
  | cars => people
  | people => cars

/-- `TimeCars`, `TimePeople` -/
def time : Phase → ℕ
  | cars => 20
  | people => 10

end Phase

structure TrafficLightControl where
  state : Phase
  ticks : BitVec 5
  timeToNextState : BitVec 5
deriving DecidableEq, Repr

namespace TrafficLightControl

def reset : TrafficLightControl := ⟨.cars, 0, .ofNat 5 Phase.cars.time⟩

/-- the request is taken in this tick -/
def accepts (s : TrafficLightControl) (btn : Bool) : Bool := s.state == .cars && 3 < s.timeToNextState && btn

def step (s : TrafficLightControl) (btn : Bool) : TrafficLightControl :=
  if s.accepts btn then { s with timeToNextState := 3, ticks := 0 }
  else if s.ticks = 31 then
    if s.timeToNextState = 1 then ⟨s.state.other, s.ticks + 1, .ofNat 5 s.state.other.time⟩
    else { s with timeToNextState := s.timeToNextState - 1, ticks := s.ticks + 1 }
  else { s with ticks := s.ticks + 1 }

def btnEnable (s : TrafficLightControl) : Bool := s.state == .cars

def oneHz (s : TrafficLightControl) : Bool := s.ticks.getLsbD 4

end TrafficLightControl

/-! ## Button -/

structure Button where
  btnDelay : Bool
  pressed : Bool
deriving DecidableEq, Repr

namespace Button

def reset : Button := ⟨false, false⟩

/-- the case `10` is missing in the table: the register keeps its value -/
def step (s : Button) (enable button : Bool) : Button where
  btnDelay := button
  pressed :=
    match enable, button && !s.btnDelay with
    | false, _ => false
    | true, true => true
    | true, false => s.pressed

end Button

/-! ## TrafficLight -/

namespace TrafficLight

/-- `ledG` of the light that is green in phase `green`; it blinks with `clk` at the end -/
def ledG (green : Phase) (clk : Bool) (state : Phase) (remainingTime : BitVec 5) : Bool :=
  state == green && (3 < remainingTime || clk)

def ledR (green state : Phase) : Bool := state != green

end TrafficLight

/-! ## The crossing -/

structure Crossing where
  control : TrafficLightControl
  btn : Button
deriving DecidableEq, Repr

namespace Crossing

def reset : Crossing := ⟨.reset, .reset⟩

def step (s : Crossing) (button : Bool) : Crossing where
  control := s.control.step s.btn.pressed
  btn := s.btn.step s.control.btnEnable button

/-- after `n` ticks -/
def after (button : ℕ → Bool) (n : ℕ) : Crossing := Clocked.run step button reset n

/-- the button goes down in tick `n` -/
def press (button : ℕ → Bool) : ℕ → Bool
  | 0 => button 0
  | n + 1 => button (n + 1) && !button n

end Crossing

/-! ## Countdowns -/

namespace TrafficLightControl

/-- `i` ticks into the `T` seconds left of a phase -/
def count (p : Phase) (T i : ℕ) : TrafficLightControl := ⟨p, .ofNat 5 (i % 32), .ofNat 5 (T - i / 32)⟩

theorem count_zero (p : Phase) (T : ℕ) : count p T 0 = ⟨p, 0, .ofNat 5 T⟩ := rfl

variable {p : Phase} {T i : ℕ} {btn : Bool}

theorem timeToNextState_count (hT : T < 32) : (count p T i).timeToNextState.toNat = T - i / 32 := by
  rw [count, BitVec.toNat_ofNat]
  exact Nat.mod_eq_of_lt (by omega)

/-- a countdown that is not cut short goes on, and then the other phase starts -/
theorem step_count (hT : T < 32) (hi : i < 32 * T) (hno : (count p T i).accepts btn = false) :
    (count p T i).step btn = if i + 1 < 32 * T then count p T (i + 1) else count p.other p.other.time 0 := by
  have htime := timeToNextState_count (p := p) (i := i) hT
  have hticks : (count p T i).ticks.toNat = i % 32 := by
    rw [count, BitVec.toNat_ofNat]
    exact Nat.mod_eq_of_lt (Nat.mod_lt _ (by decide))
  rw [step, hno, if_neg Bool.false_ne_true]
  by_cases hlast : i % 32 = 31
  · have h31 : (count p T i).ticks = 31 := BitVec.eq_of_toNat_eq (by rw [hticks, hlast]; rfl)
    rw [if_pos h31]
    by_cases hone : T - i / 32 = 1
    · have h1 : (count p T i).timeToNextState = 1 := BitVec.eq_of_toNat_eq (by rw [htime, hone]; rfl)
      rw [if_pos h1, if_neg (by omega), h31, count_zero]
      rfl
    · have h1 : (count p T i).timeToNextState ≠ 1 := fun h => hone (by rw [← htime, h]; rfl)
      rw [if_neg h1, if_pos (by omega), h31]
      simp only [count, TrafficLightControl.mk.injEq, true_and]
      refine ⟨?_, BitVec.eq_of_toNat_eq ?_⟩
      · rw [show (i + 1) % 32 = 0 by omega]
        rfl
      · have hval : (1 : BitVec 5).toNat = 1 := rfl
        rw [BitVec.toNat_sub, hval]
        simp only [BitVec.toNat_ofNat]
        omega
  · have h31 : (count p T i).ticks ≠ 31 := fun h => hlast (by rw [← hticks, h]; rfl)
    rw [if_neg h31, if_pos (by omega)]
    simp only [count, TrafficLightControl.mk.injEq, true_and]
    refine ⟨BitVec.eq_of_toNat_eq ?_, ?_⟩
    · have hval : (1 : BitVec 5).toNat = 1 := rfl
      rw [BitVec.toNat_add, hval]
      simp only [BitVec.toNat_ofNat]
      omega
    · rw [show (i + 1) / 32 = i / 32 by omega]

theorem accepts_count (hT : T < 32) : (count p T i).accepts btn = (p == .cars && decide (3 < T - i / 32) && btn) := by
  have hlt : (3 < (count p T i).timeToNextState) ↔ 3 < T - i / 32 := by
    rw [BitVec.lt_def, timeToNextState_count hT]
    rfl
  rw [accepts, decide_eq_decide.2 hlt]
  rfl

end TrafficLightControl

/-! ## Phases -/

namespace Crossing

open TrafficLightControl

variable {button : ℕ → Bool} {p : Phase} {T c n : ℕ}

theorem after_succ (n : ℕ) : after button (n + 1) = (after button n).step (button n) := rfl

/-- **A countdown.** If the control takes no request, it counts down its `T` seconds and then starts the other phase. -/
theorem count_run (hT : T < 32) (hpos : 0 < T) (hc : (after button c).control = count p T 0)
    (hno : ∀ i < 32 * T, (count p T i).accepts (after button (c + i)).btn.pressed = false) :
    (∀ i < 32 * T, (after button (c + i)).control = count p T i) ∧
      (after button (c + 32 * T)).control = count p.other p.other.time 0 := by
  have hrun : ∀ i < 32 * T, (after button (c + i)).control = count p T i := by
    intro i hi
    induction i with
    | zero => exact hc
    | succ i ih =>
      rw [← Nat.add_assoc, after_succ, step, ih (by omega), step_count hT (by omega) (hno i (by omega)), if_pos hi]
  refine ⟨hrun, ?_⟩
  obtain ⟨i, hi⟩ : ∃ i, 32 * T = i + 1 := ⟨32 * T - 1, by omega⟩
  rw [hi, ← Nat.add_assoc, after_succ, step, hrun i (by omega), step_count hT (by omega) (hno i (by omega)),
    if_neg (by omega)]

theorem press_eq (n : ℕ) : (button n && !(after button n).btn.btnDelay) = press button n := by
  cases n with
  | zero => exact Bool.and_true _
  | succ n => rfl

/-- the button is kept while the cars have green -/
theorem pressed_succ (h : (after button n).control.state = .cars) :
    (after button (n + 1)).btn.pressed = ((after button n).btn.pressed || press button n) := by
  have hen : (after button n).control.btnEnable = true := by rw [btnEnable, h]; rfl
  change ((after button n).btn.step (after button n).control.btnEnable (button n)).pressed = _
  simp only [Button.step, hen, press_eq]
  cases press button n <;> cases (after button n).btn.pressed <;> rfl

/-- and forgotten while the people have green -/
theorem pressed_people (h : (after button n).control.state = .people) : (after button (n + 1)).btn.pressed = false := by
  have hen : (after button n).control.btnEnable = false := by rw [btnEnable, h]; rfl
  change ((after button n).btn.step (after button n).control.btnEnable (button n)).pressed = _
  simp only [Button.step, hen]

/-- the cars get green in tick `c` -/
structure CarsStart (button : ℕ → Bool) (c : ℕ) : Prop where
  control : (after button c).control = count .cars 20 0
  pressed : (after button c).btn.pressed = false

/-- the cars have green from tick `c` to tick `q`: 20 s, or up to 98 ticks after the first press if that is earlier -/
structure CarsPhase (button : ℕ → Bool) (c q : ℕ) : Prop where
  cars : ∀ n, c ≤ n → n < q → (after button n).control.state = .cars
  atMost : q ≤ c + 640
  soon : ∀ j, press button (c + j) = true → q ≤ c + j + 98
  notSooner : q = c + 640 ∨ ∃ j, press button (c + j) = true ∧ q = c + j + 98

theorem carsStart_zero : CarsStart button 0 := ⟨rfl, rfl⟩

/-- up to the first press -/
theorem CarsStart.waits (h : CarsStart button c) {m : ℕ} (hm : m < 640) (hquiet : ∀ j < m, press button (c + j) = false) :
    ∀ i ≤ m, (after button (c + i)).control = count .cars 20 i ∧ (after button (c + i)).btn.pressed = false := by
  intro i hi
  induction i with
  | zero => exact ⟨h.control, h.pressed⟩
  | succ i ih =>
    obtain ⟨hcontrol, hpressed⟩ := ih (by omega)
    constructor
    · rw [← Nat.add_assoc, after_succ, step, hcontrol, hpressed, step_count (by decide) (by omega)
        (by rw [accepts_count (by decide), Bool.and_false]), if_pos (by omega)]
    · rw [← Nat.add_assoc, pressed_succ (by rw [hcontrol]; rfl), hpressed, hquiet i (by omega)]
      rfl

/-- a press before the last three seconds -/
theorem CarsStart.pressed_phase (h : CarsStart button c) {j : ℕ} (hj : j ≤ 542) (hpress : press button (c + j) = true)
    (hquiet : ∀ i < j, press button (c + i) = false) :
    CarsPhase button c (c + j + 98) ∧ (after button (c + j + 98)).control = count .people 10 0 := by
  have hwait := h.waits (by omega) hquiet
  obtain ⟨hcontrol, hfalse⟩ := hwait j le_rfl
  have hnext : (after button (c + j + 1)).control = count .cars 20 (j + 1) ∧
      (after button (c + j + 1)).btn.pressed = true := by
    constructor
    · rw [after_succ, step, hcontrol, hfalse, step_count (by decide) (by omega)
        (by rw [accepts_count (by decide), Bool.and_false]), if_pos (by omega)]
    · rw [pressed_succ (by rw [hcontrol]; rfl), hpress, Bool.or_true]
  have hgranted : (after button (c + j + 2)).control = count .cars 3 0 := by
    have haccepts : (count .cars 20 (j + 1)).accepts true = true := by
      rw [accepts_count (by decide), decide_eq_true (by omega)]
      rfl
    rw [after_succ, step, hnext.1, hnext.2, TrafficLightControl.step, if_pos haccepts]
    rfl
  obtain ⟨hcount, hend⟩ := count_run (by decide) (by decide) hgranted fun i _ => by
    rw [accepts_count (by decide), decide_eq_false (by omega), Bool.and_false, Bool.false_and]
  refine ⟨⟨fun n hcn hn => ?_, by omega, fun i hi => ?_, .inr ⟨j, hpress, rfl⟩⟩, hend⟩
  · obtain ⟨i, rfl⟩ := Nat.exists_eq_add_of_le hcn
    rcases Nat.lt_trichotomy i (j + 1) with hlt | rfl | hgt
    · rw [(hwait i (by omega)).1]
      rfl
    · rw [← Nat.add_assoc, hnext.1]
      rfl
    · obtain ⟨k, rfl⟩ := Nat.exists_eq_add_of_le (Nat.succ_le_of_lt hgt)
      rw [show c + (j + 1 + 1 + k) = c + j + 2 + k by omega, hcount k (by omega)]
      rfl
  · have : j ≤ i := by
      by_contra hlt
      rw [hquiet i (by omega)] at hi
      cases hi
    omega

/-- no press before the last three seconds -/
theorem CarsStart.quiet_phase (h : CarsStart button c) (hquiet : ∀ j < 543, press button (c + j) = false) :
    CarsPhase button c (c + 640) ∧ (after button (c + 640)).control = count .people 10 0 := by
  obtain ⟨hcount, hend⟩ := @count_run button _ _ _ (by decide) (by decide) h.control fun i hi => by
    rw [accepts_count (by decide)]
    by_cases hlate : i ≤ 543
    · rw [(h.waits (by decide) hquiet i hlate).2, Bool.and_false]
    · rw [decide_eq_false (by omega), Bool.and_false, Bool.false_and]
  refine ⟨⟨fun n hcn hn => ?_, le_rfl, fun j hj => ?_, .inl rfl⟩, hend⟩
  · obtain ⟨i, rfl⟩ := Nat.exists_eq_add_of_le hcn
    rw [hcount i (by omega)]
    rfl
  · have : 543 ≤ j := by
      by_contra hlt
      rw [hquiet j (by omega)] at hj
      cases hj
    omega

theorem CarsStart.phase (h : CarsStart button c) :
    ∃ q, CarsPhase button c q ∧ (after button q).control = count .people 10 0 := by
  by_cases hpress : ∃ j, press button (c + j) = true
  · have hfirst := Nat.find_spec hpress
    have hbefore : ∀ i < Nat.find hpress, press button (c + i) = false := fun i hi =>
      Bool.eq_false_iff.2 (Nat.find_min hpress hi)
    by_cases hlate : Nat.find hpress ≤ 542
    · exact ⟨_, h.pressed_phase hlate hfirst hbefore⟩
    · exact ⟨_, h.quiet_phase fun j hj => hbefore j (by omega)⟩
  · exact ⟨_, h.quiet_phase fun j _ => Bool.eq_false_iff.2 fun hj => hpress ⟨j, hj⟩⟩

/-- the people have green for 10 s, whatever the button does -/
theorem people_phase {q : ℕ} (h : (after button q).control = count .people 10 0) :
    (∀ n, q ≤ n → n < q + 320 → (after button n).control.state = .people) ∧ CarsStart button (q + 320) := by
  obtain ⟨hcount, hend⟩ := @count_run button _ _ _ (by decide) (by decide) h fun i _ => by
    rw [accepts_count (by decide)]
    rfl
  refine ⟨fun n hqn hn => ?_, hend, pressed_people (n := q + 319) ?_⟩
  · obtain ⟨i, rfl⟩ := Nat.exists_eq_add_of_le hqn
    rw [hcount i (by omega)]
    rfl
  · rw [hcount 319 (by decide)]
    rfl

/-- **Phases.** For every behaviour of the button the phases alternate for ever: the cars have green from `c k` to `q k`,
and then the people for exactly 320 ticks. -/
theorem phases (button : ℕ → Bool) : ∃ c q : ℕ → ℕ, c 0 = 0 ∧ ∀ k, CarsPhase button (c k) (q k) ∧ c (k + 1) = q k + 320 ∧
    ∀ n, q k ≤ n → n < c (k + 1) → (after button n).control.state = .people := by
  have hnext : ∀ c, ∃ q, CarsStart button c → CarsPhase button c q ∧ (after button q).control = count .people 10 0 := by
    intro c
    by_cases hc : CarsStart button c
    · obtain ⟨q, hq⟩ := hc.phase
      exact ⟨q, fun _ => hq⟩
    · exact ⟨0, fun h => absurd h hc⟩
  choose q hq using hnext
  have hstart : ∀ k, CarsStart button ((fun c => q c + 320)^[k] 0) := by
    intro k
    induction k with
    | zero => exact carsStart_zero
    | succ k ih =>
      rw [Function.iterate_succ_apply']
      exact (people_phase (hq _ ih).2).2
  refine ⟨fun k => (fun c => q c + 320)^[k] 0, fun k => q ((fun c => q c + 320)^[k] 0), rfl, fun k => ?_⟩
  have hcycle := hq _ (hstart k)
  refine ⟨hcycle.1, Function.iterate_succ_apply' _ _ _, fun n hqn hn => ?_⟩
  simp only [Function.iterate_succ_apply'] at hn
  exact (people_phase hcycle.2).1 n hqn hn

/-- never two greens, and one of the lights is red -/
theorem lights (s : TrafficLightControl) :
    (TrafficLight.ledG .cars s.oneHz s.state s.timeToNextState && TrafficLight.ledG .people s.oneHz s.state s.timeToNextState) =
        false ∧
      (TrafficLight.ledR .cars s.state ^^ TrafficLight.ledR .people s.state) = true := by
  cases h : s.state <;> simp [TrafficLight.ledG, TrafficLight.ledR]

end Crossing

end FpgaLearning.Labs
