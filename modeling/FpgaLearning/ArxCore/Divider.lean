/-
The divider, cycle by cycle.

- `Loop n d k w`: the registers after `k` busy steps on the magnitudes `n` and `d`. The divisor starts 31 bits to the left
  and the counter runs for 33 cycles, so 32 steps are done when the result is captured.
- `after_running`: for 32 cycles after it has taken an operation the divider is busy, whatever its inputs do.
- `restoring_loop`: the invariant of the loop in every one of these cycles, and the result it ends with.
-/
import FpgaLearning.ArxCore.Mdu

namespace FpgaLearning.ArxCore.IDIV

open FpgaLearning.Memory FpgaLearning.Clocked FpgaLearning.RestoringDivision

/-! ## Cycles -/

/-- the inputs of one cycle -/
structure Inputs where
  validIn : Bool
  readyOut : Bool
  opcodeIn : MduOp
  arg1In : Word
  arg2In : Word

def handshakeIn (s : St) (i : Inputs) : Bool := i.validIn && readyIn s i.readyOut

def edge (s : St) (i : Inputs) : St := next s i.validIn i.readyOut i.opcodeIn i.arg1In i.arg2In

/-- the divider `k` cycles after cycle `i`, in which it takes an operation -/
def after (s : St) (i : Inputs) (inp : ℕ → Inputs) (k : ℕ) : St := run edge inp (edge s i) k

def remainder (w : Work) : Word := w.dividendWide.extractLsb' 0 32

variable {s : St} {i : Inputs} {inp : ℕ → Inputs} {w : Work} {n d k : ℕ}

theorem edge_of_handshake (h : handshakeIn s i = true) :
    (edge s i).cnt = 33 ∧ (edge s i).validOut = false ∧ (edge s i).work = load i.opcodeIn i.arg1In i.arg2In := by
  have hb : busy s = false := by
    have hr := (Bool.and_eq_true_iff.1 h).2
    rw [readyIn, Bool.and_eq_true_iff, Bool.not_eq_true'] at hr
    exact hr.1
  rw [handshakeIn] at h
  simp [edge, next, h, hb]

/-- a busy divider does not look at its inputs -/
theorem edge_of_busy (hc : s.cnt ≠ 0) (hv : s.validOut = false) : edge s i =
    { s with
      cnt := s.cnt - 1, work := busyStep s.work, validOut := decide (s.cnt = 1)
      resOut := if s.cnt = 1 then result s.work else s.resOut } := by
  have hb : busy s = true := by simpa [busy] using hc
  simp [edge, next, readyIn, hb, hv]

theorem toNat_cnt_sub_one {c : BitVec 6} (hc : c ≠ 0) : (c - 1).toNat = c.toNat - 1 := by
  have hpos : 0 < c.toNat := Nat.pos_of_ne_zero fun h => hc (BitVec.eq_of_toNat_eq (by simpa using h))
  exact BitVec.toNat_sub_of_le (BitVec.le_def.2 hpos)

/-- `k` busy steps are done and the result is not there yet -/
structure Running (op : MduOp) (a b : Word) (k : ℕ) (s : St) : Prop where
  cnt : s.cnt.toNat = 33 - k
  validOut : s.validOut = false
  work : s.work = busyStep^[k] (load op a b)

variable {op : MduOp} {a b : Word}

theorem Running.start (h : handshakeIn s i = true) : Running i.opcodeIn i.arg1In i.arg2In 0 (edge s i) := by
  obtain ⟨hcnt, hvalid, hwork⟩ := edge_of_handshake h
  exact ⟨by rw [hcnt]; rfl, hvalid, hwork⟩

theorem Running.cnt_ne (h : Running op a b k s) (hk : k ≤ 32) : s.cnt ≠ 0 := by
  intro h0
  have hcnt := h.cnt
  rw [h0] at hcnt
  change 0 = 33 - k at hcnt
  omega

/-- **Cycle.** One more busy step, and not the last cycle. -/
theorem Running.step (h : Running op a b k s) (hk : k < 32) : Running op a b (k + 1) (edge s i) := by
  have hc := h.cnt_ne hk.le
  have hcnt := h.cnt
  have h1 : s.cnt ≠ 1 := by
    intro h1
    rw [h1] at hcnt
    change 1 = 33 - k at hcnt
    omega
  rw [edge_of_busy hc h.validOut]
  refine ⟨?_, decide_eq_false h1, ?_⟩
  · show (s.cnt - 1).toNat = 33 - (k + 1)
    rw [toNat_cnt_sub_one hc]
    omega
  · show busyStep s.work = _
    rw [h.work, Function.iterate_succ_apply']

/-- **Last cycle.** The result of the registers before the step is captured. -/
theorem Running.last (h : Running op a b 32 s) :
    (edge s i).cnt = 0 ∧ (edge s i).validOut = true ∧ (edge s i).resOut = result s.work := by
  have h1 : s.cnt = 1 := BitVec.eq_of_toNat_eq h.cnt
  rw [edge_of_busy (h.cnt_ne le_rfl) h.validOut]
  exact ⟨by rw [h1]; rfl, decide_eq_true h1, if_pos h1⟩

theorem after_running (h : handshakeIn s i = true) (hk : k ≤ 32) :
    Running i.opcodeIn i.arg1In i.arg2In k (after s i inp k) := by
  induction k with
  | zero => exact .start h
  | succ k ih => exact (ih (by omega)).step hk

/-- the 33rd cycle -/
theorem after_last (h : handshakeIn s i = true) : (after s i inp 33).cnt = 0 ∧ (after s i inp 33).validOut = true ∧
    (after s i inp 33).resOut = result (after s i inp 32).work := by
  have hlast : after s i inp 33 = edge (after s i inp 32) (inp 32) := run_succ edge inp (edge s i) 32
  rw [hlast]
  exact (after_running h le_rfl).last

/-! ## The loop -/

/-- the registers after `k` busy steps -/
structure Loop (n d k : ℕ) (w : Work) : Prop where
  sum : w.quotient.toNat * 2 ^ (32 - k) * d + w.dividendWide.toNat = n
  small : w.dividendWide.toNat < 2 ^ (32 - k) * d
  divisor : w.divisorWide.toNat = d * 2 ^ 31 / 2 ^ k
  quotient : w.quotient.toNat < 2 ^ k
  borrow : (diffWide w).getLsbD 63 = true ↔ w.dividendWide.toNat < w.divisorWide.toNat

/-- the quotient has `k` bits -/
theorem quotient_lt {q r : ℕ} (hn : n < 2 ^ 32) (hd : 0 < d) (hk : k ≤ 32) (h : Partial n d (32 - k) q r) : q < 2 ^ k := by
  by_contra hle
  have hsum := h.sum
  have hpow : 2 ^ 32 ≤ q * (d * 2 ^ (32 - k)) :=
    calc 2 ^ 32 = 2 ^ k * (1 * 2 ^ (32 - k)) := by rw [one_mul, ← pow_add, Nat.add_sub_cancel' hk]
      _ ≤ q * (d * 2 ^ (32 - k)) := Nat.mul_le_mul (not_lt.1 hle) (Nat.mul_le_mul_right _ hd)
  omega

theorem Loop.of_division (hn : n < 2 ^ 32) (hd : 0 < d) (hd' : d < 2 ^ 32) (hk : k ≤ 32)
    (h : Partial n d (32 - k) w.quotient.toNat w.dividendWide.toNat) (hw : w.divisorWide.toNat = d * 2 ^ 31 / 2 ^ k) :
    Loop n d k w where
  sum := by
    rw [mul_assoc, mul_comm (2 ^ (32 - k)) d]
    exact h.sum.symm
  small := by
    rw [mul_comm]
    exact h.small
  divisor := hw
  quotient := quotient_lt hn hd hk h
  borrow := by
    have hsum := h.sum
    have hle : d * 2 ^ 31 / 2 ^ k ≤ d * 2 ^ 31 := Nat.div_le_self _ _
    exact borrow_iff (by omega) (by omega)

theorem iterate_divisor_toNat (op : MduOp) (a b : Word) (k : ℕ) :
    (busyStep^[k] (load op a b)).divisorWide.toNat = (absArg op b).toNat * 2 ^ 31 / 2 ^ k := by
  rw [iterate_divisor, BitVec.toNat_ushiftRight, load_divisor, Nat.shiftRight_eq_div_pow]

theorem loop_iterate (op : MduOp) (a : Word) {b : Word} (hb : absArg op b ≠ 0) (hk : k ≤ 32) :
    Loop (absArg op a).toNat (absArg op b).toNat k (busyStep^[k] (load op a b)) := by
  have hd : 0 < (absArg op b).toNat := Nat.pos_of_ne_zero fun h => hb (BitVec.eq_of_toNat_eq (by simpa using h))
  have hdivision := loop_partial op a hb k (32 - k) (by omega)
  exact .of_division (absArg op a).isLt hd (absArg op b).isLt hk hdivision (iterate_divisor_toNat op a b k)

/-! ## The result -/

/-- quotient and remainder of the magnitudes as they are captured; against zero the quotient is all ones -/
structure Divided (n d q r : ℕ) : Prop where
  nonzero : d ≠ 0 → n = q * d + r ∧ r < d
  zero : d = 0 → q = 2 ^ 32 - 1 ∧ r = n

theorem remainder_toNat (h : w.dividendWide.toNat < 2 ^ 32) : (remainder w).toNat = w.dividendWide.toNat := by
  rw [remainder, BitVec.extractLsb'_toNat, Nat.shiftRight_zero, Nat.mod_eq_of_lt h]

theorem divided_iterate (op : MduOp) (a b : Word) :
    Divided (absArg op a).toNat (absArg op b).toNat (busyStep^[32] (load op a b)).quotient.toNat
      (remainder (busyStep^[32] (load op a b))).toNat := by
  have hn := (absArg op a).isLt
  constructor
  · intro hd
    have hb : absArg op b ≠ 0 := fun h => hd (by rw [h]; rfl)
    have hloop := loop_iterate op a hb (k := 32) le_rfl
    have hsum := hloop.sum
    have hsmall := hloop.small
    rw [Nat.sub_self, pow_zero, mul_one] at hsum
    rw [Nat.sub_self, pow_zero, one_mul] at hsmall
    rw [remainder_toNat (by omega)]
    exact ⟨hsum.symm, hsmall⟩
  · intro hd
    have hb : b = 0 := by
      by_contra hb
      exact absArg_ne_zero hb (BitVec.eq_of_toNat_eq hd)
    subst hb
    obtain ⟨hq, hr⟩ := loop_zero op a 32 le_rfl
    rw [remainder_toNat (by omega)]
    exact ⟨by omega, hr⟩

/-- what the divider does with the operation of cycle `i` in the 33 cycles after it -/
structure Divides (s : St) (i : Inputs) (inp : ℕ → Inputs) : Prop where
  running : ∀ k ≤ 32, (after s i inp k).cnt.toNat = 33 - k ∧ (after s i inp k).validOut = false
  loop : absArg i.opcodeIn i.arg2In ≠ 0 → ∀ k ≤ 32, Loop (absArg i.opcodeIn i.arg1In).toNat
    (absArg i.opcodeIn i.arg2In).toNat k (after s i inp k).work
  divided : Divided (absArg i.opcodeIn i.arg1In).toNat (absArg i.opcodeIn i.arg2In).toNat
    (after s i inp 32).work.quotient.toNat (remainder (after s i inp 32).work).toNat
  done : (after s i inp 33).cnt = 0 ∧ (after s i inp 33).validOut = true
  captured : (after s i inp 33).resOut =
    let r := if isResQuotient i.opcodeIn then (after s i inp 32).work.quotient else remainder (after s i inp 32).work
    if signRes i.opcodeIn i.arg1In i.arg2In then -r else r

/-- **Restoring division.** The invariant holds after every number of busy steps, and the result captured in the last busy
cycle is that of the division of the magnitudes. -/
theorem restoring_loop (s : St) (i : Inputs) (inp : ℕ → Inputs) (h : handshakeIn s i = true) : Divides s i inp where
  running k hk := ⟨(after_running h hk).cnt, (after_running h hk).validOut⟩
  loop hb k hk := by
    rw [(after_running h hk).work]
    exact loop_iterate _ _ hb hk
  divided := by
    rw [(after_running h le_rfl).work]
    exact divided_iterate _ _ _
  done := ⟨(after_last h).1, (after_last h).2.1⟩
  captured := by
    have hres : (after s i inp 33).resOut = _ := (after_last h).2.2
    obtain ⟨hsign, hquot⟩ := iterate_flags (load i.opcodeIn i.arg1In i.arg2In) 32
    rw [hres, (after_running h le_rfl).work, result, absResult, hsign, hquot]
    rfl

/-- -7 by 2 on a divider that is idle -/
theorem restoring_loop_neg_seven : Divides ⟨0, load .divu 0 0, false, 0⟩ ⟨true, false, .div, -7, 2⟩
    fun _ => ⟨true, true, .remu, 5, 0⟩ := restoring_loop _ _ _ rfl

end FpgaLearning.ArxCore.IDIV
