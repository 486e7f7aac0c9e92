/-
The multiply/divide unit against RV32M.

`IDIV.value` is read off the restoring loop (`IDIV.loop_partial`, `IDIV.value_eq`), `IMUL.mulResult` off the 66-bit
product. `IMDU.value_eq_rv32m_iff` compares the two with the instruction set: they agree everywhere except on DIV of a
negative dividend by zero, where the unit negates the all-ones quotient and answers 1.

The stream part runs the unit under an arbitrary environment. `MduSession` logs the accepted operations and the results taken;
`MduSession.run_inv` is the conservation law (accepted = taken, then at most one pending), and `meets_rv32m_iff` the contract.
-/
import FpgaLearning.ArxCore.StageLemmas
import FpgaLearning.Core.Clocked
import FpgaLearning.Core.RestoringDivision
import FpgaLearning.Core.Rv32m

namespace FpgaLearning.ArxCore

open FpgaLearning.Memory FpgaLearning.Clocked FpgaLearning.RestoringDivision ExecStage

/-! ## The product -/

namespace IMUL

/-- a slice of a wrapped integer is a slice of the integer -/
theorem extract_ofInt (p : ℤ) : (BitVec.ofInt 66 p).extractLsb' 32 32 = BitVec.ofInt 32 (p / 2 ^ 32) := by
  apply BitVec.eq_of_toNat_eq
  rw [BitVec.extractLsb'_toNat, BitVec.toNat_ofInt, BitVec.toNat_ofInt, Nat.shiftRight_eq_div_pow]
  omega

theorem extract_ofInt_low (p : ℤ) : (BitVec.ofInt 66 p).extractLsb' 0 32 = BitVec.ofInt 32 p := by
  apply BitVec.eq_of_toNat_eq
  rw [BitVec.extractLsb'_toNat, BitVec.toNat_ofInt, BitVec.toNat_ofInt, Nat.shiftRight_zero]
  omega

theorem cons_msb_toInt (a : Word) : ((BitVec.ofBool a.msb ++ a).signExtend 66).toInt = a.toInt := by
  rw [BitVec.toInt_signExtend_of_le (by decide), BitVec.toInt_append]
  rcases hm : a.msb
  · rw [BitVec.toInt_eq_toNat_of_msb hm]
    simp
  · rw [BitVec.toInt_eq_msb_cond, hm]
    simp
    omega

theorem cons_false_toInt (a : Word) : ((BitVec.ofBool false ++ a).signExtend 66).toInt = a.toNat := by
  rw [BitVec.toInt_signExtend_of_le (by decide), BitVec.toInt_append]
  simp

/-- the wide product of the operands read with the signedness of the operation -/
theorem mulResultWide_eq (op : MduOp) {a b : Word} {x y : ℤ}
    (hx : ((BitVec.ofBool (msbArg1 op a) ++ a).signExtend 66).toInt = x)
    (hy : ((BitVec.ofBool (msbArg2 op b) ++ b).signExtend 66).toInt = y) :
    mulResultWide op a b = BitVec.ofInt 66 (x * y) := by
  rw [← hx, ← hy, BitVec.ofInt_mul, BitVec.ofInt_toInt, BitVec.ofInt_toInt]
  rfl

theorem mulResult_mul (a b : Word) : mulResult .mul a b = Rv32m.mul a b := by
  show (mulResultWide .mul a b).extractLsb' 0 32 = _
  rw [mulResultWide_eq .mul (cons_msb_toInt a) (cons_msb_toInt b), extract_ofInt_low]
  rfl

theorem mulResult_mulh (a b : Word) : mulResult .mulh a b = Rv32m.mulh a b := by
  show (mulResultWide .mulh a b).extractLsb' 32 32 = _
  rw [mulResultWide_eq .mulh (cons_msb_toInt a) (cons_msb_toInt b), extract_ofInt]
  rfl

theorem mulResult_mulhsu (a b : Word) : mulResult .mulhsu a b = Rv32m.mulhsu a b := by
  show (mulResultWide .mulhsu a b).extractLsb' 32 32 = _
  rw [mulResultWide_eq .mulhsu (cons_msb_toInt a) (cons_false_toInt b), extract_ofInt]
  rfl

theorem mulResult_mulhu (a b : Word) : mulResult .mulhu a b = Rv32m.mulhu a b := by
  show (mulResultWide .mulhu a b).extractLsb' 32 32 = _
  rw [mulResultWide_eq .mulhu (cons_false_toInt a) (cons_false_toInt b), extract_ofInt]
  unfold Rv32m.mulhu
  rw [← BitVec.ofInt_natCast]
  norm_num

end IMUL

/-! ## The quotient loop -/

namespace IDIV

theorem iterate_flags (w : Work) (k : ℕ) :
    (busyStep^[k] w).signResReg = w.signResReg ∧ (busyStep^[k] w).isResQuotientReg = w.isResQuotientReg := by
  induction k with
  | zero => exact ⟨rfl, rfl⟩
  | succ k ih =>
    rw [Function.iterate_succ_apply']
    unfold busyStep
    split <;> exact ih

theorem busyStep_divisor (w : Work) : (busyStep w).divisorWide = w.divisorWide >>> 1 := by
  unfold busyStep
  split <;> rfl

theorem iterate_divisor (w : Work) (k : ℕ) : (busyStep^[k] w).divisorWide = w.divisorWide >>> k := by
  induction k with
  | zero => simp
  | succ k ih =>
    rw [Function.iterate_succ_apply', busyStep_divisor, ih, BitVec.shiftRight_add]

/-- bit 63 of the difference is the borrow -/
theorem borrow_iff {w : Work} (hn : w.dividendWide.toNat < 2 ^ 32) (hd : w.divisorWide.toNat < 2 ^ 63) :
    (diffWide w).getLsbD 63 = true ↔ w.dividendWide.toNat < w.divisorWide.toNat := by
  have h : (diffWide w).getLsbD 63 = decide (2 ^ 63 ≤ (diffWide w).toNat) := by
    rw [show 2 ^ 63 = 2 ^ (64 - 1) from rfl, ← BitVec.msb_eq_decide, BitVec.msb_eq_getLsbD_last]
  rw [h, decide_eq_true_iff]
  unfold diffWide
  rw [BitVec.toNat_sub]
  omega

theorem diffWide_toNat {w : Work} (hle : w.divisorWide.toNat ≤ w.dividendWide.toNat) :
    (diffWide w).toNat = w.dividendWide.toNat - w.divisorWide.toNat := by
  unfold diffWide
  exact BitVec.toNat_sub_of_le hle

theorem append_bit_toNat {q : Word} (hq : q.toNat < 2 ^ 31) (c : BitVec 1) :
    (q.extractLsb' 0 31 ++ c).toNat = 2 * q.toNat + c.toNat := by
  have hc := c.isLt
  rw [BitVec.toNat_append, BitVec.extractLsb'_toNat, Nat.shiftRight_zero, Nat.mod_eq_of_lt hq,
    ← Nat.shiftLeft_add_eq_or_of_lt (by omega), Nat.shiftLeft_eq]
  omega

/-- **Loop step.** One busy cycle moves the partial division one position down. -/
theorem busyStep_partial {w : Work} {n d k : ℕ} (hn : n < 2 ^ 32) (hd : 0 < d) (hw : w.divisorWide.toNat < 2 ^ 63)
    (hdiv : w.divisorWide.toNat = d * 2 ^ k) (h : Partial n d (k + 1) w.quotient.toNat w.dividendWide.toNat) :
    Partial n d k (busyStep w).quotient.toNat (busyStep w).dividendWide.toNat := by
  have hr : w.dividendWide.toNat ≤ n := by
    have := h.sum
    omega
  -- the quotient leaves room for one more bit
  have hq : w.quotient.toNat < 2 ^ 31 := by
    have hpos : 2 ≤ d * 2 ^ (k + 1) := by
      have : 0 < d * 2 ^ k := Nat.mul_pos hd (Nat.two_pow_pos k)
      rw [pow_succ, ← mul_assoc]
      omega
    have hle : w.quotient.toNat * 2 ≤ w.quotient.toNat * (d * 2 ^ (k + 1)) := Nat.mul_le_mul_left _ hpos
    have := h.sum
    omega
  unfold busyStep
  split
  case isTrue hb =>
    rw [borrow_iff (by omega) hw, hdiv] at hb
    rw [append_bit_toNat hq]
    exact h.keep hb
  case isFalse hb =>
    rw [borrow_iff (by omega) hw, hdiv, not_lt] at hb
    rw [append_bit_toNat hq, diffWide_toNat (by omega), hdiv]
    exact h.subtract hb

theorem load_dividend (op : MduOp) (a b : Word) : (load op a b).dividendWide.toNat = (absArg op a).toNat := by
  show (0#32 ++ absArg op a).toNat = _
  rw [BitVec.toNat_append]
  simp

theorem load_divisor (op : MduOp) (a b : Word) :
    (load op a b).divisorWide.toNat = (absArg op b).toNat * 2 ^ 31 := by
  show (0#1 ++ absArg op b ++ 0#31).toNat = _
  rw [BitVec.toNat_append, BitVec.toNat_append]
  simp [Nat.shiftLeft_eq]

/-- **Loop run.** `k` busy cycles leave a partial division at position `32 - k`. -/
theorem loop_partial (op : MduOp) (a : Word) {b : Word} (hb : absArg op b ≠ 0) :
    ∀ k j, k + j = 32 → Partial (absArg op a).toNat (absArg op b).toNat j
      (busyStep^[k] (load op a b)).quotient.toNat (busyStep^[k] (load op a b)).dividendWide.toNat := by
  have hd : 0 < (absArg op b).toNat := Nat.pos_of_ne_zero fun h => hb (BitVec.eq_of_toNat_eq (by simpa using h))
  have hn := (absArg op a).isLt
  have hlt := (absArg op b).isLt
  intro k
  induction k with
  | zero =>
    intro j hj
    obtain rfl : j = 32 := by omega
    rw [Function.iterate_zero_apply, load_dividend]
    exact Partial.start (by omega)
  | succ k ih =>
    intro j hj
    rw [Function.iterate_succ_apply']
    have hdiv : (busyStep^[k] (load op a b)).divisorWide.toNat = (absArg op b).toNat * 2 ^ j := by
      rw [iterate_divisor, BitVec.toNat_ushiftRight, load_divisor, Nat.shiftRight_eq_div_pow,
        show 31 = j + k by omega, pow_add, ← mul_assoc, Nat.mul_div_cancel _ (Nat.two_pow_pos k)]
    refine busyStep_partial hn hd ?_ hdiv (ih (j + 1) (by omega))
    rw [hdiv]
    calc (absArg op b).toNat * 2 ^ j < 2 ^ 32 * 2 ^ j := Nat.mul_lt_mul_of_pos_right hlt (Nat.two_pow_pos j)
      _ ≤ 2 ^ 32 * 2 ^ 31 := Nat.mul_le_mul_left _ (Nat.pow_le_pow_right (by decide) (by omega))
      _ = 2 ^ 63 := by norm_num

/-- a busy cycle against a zero divisor: the quotient bit is one and the dividend is not reduced -/
theorem busyStep_zero {w : Work} {k : ℕ} (hk : k < 32) (hdiv : w.divisorWide.toNat = 0)
    (hn : w.dividendWide.toNat < 2 ^ 32) (hq : w.quotient.toNat + 1 = 2 ^ k) :
    (busyStep w).quotient.toNat + 1 = 2 ^ (k + 1) ∧ (busyStep w).dividendWide.toNat = w.dividendWide.toNat := by
  have hpow : 2 ^ k ≤ 2 ^ 31 := Nat.pow_le_pow_right (by decide) (by omega)
  unfold busyStep
  split
  case isTrue hb =>
    rw [borrow_iff hn (by omega), hdiv] at hb
    omega
  case isFalse hb =>
    rw [append_bit_toNat (by omega), diffWide_toNat (by omega), hdiv]
    exact ⟨zero_divisor hq, rfl⟩

theorem loop_zero (op : MduOp) (a : Word) : ∀ k ≤ 32,
    (busyStep^[k] (load op a 0)).quotient.toNat + 1 = 2 ^ k ∧
      (busyStep^[k] (load op a 0)).dividendWide.toNat = (absArg op a).toNat := by
  have habs : absArg op 0 = 0 := by
    unfold absArg
    split <;> rfl
  have hn := (absArg op a).isLt
  intro k
  induction k with
  | zero =>
    intro _
    exact ⟨rfl, load_dividend op a 0⟩
  | succ k ih =>
    intro hk
    obtain ⟨hq, hr⟩ := ih (by omega)
    have hdiv : (busyStep^[k] (load op a 0)).divisorWide.toNat = 0 := by
      rw [iterate_divisor, BitVec.toNat_ushiftRight, load_divisor, habs]
      simp
    rw [Function.iterate_succ_apply', ← hr]
    exact busyStep_zero (by omega) hdiv (by omega) hq

/-- **Divider, nonzero divisor.** Unsigned division of the magnitudes, then the sign. -/
theorem value_eq (op : MduOp) (a : Word) {b : Word} (hb : absArg op b ≠ 0) :
    value op a b =
      let r := if isResQuotient op then absArg op a / absArg op b else absArg op a % absArg op b
      if signRes op a b then -r else r := by
  have hp := loop_partial op a hb 32 0 rfl
  obtain ⟨hsign, hquot⟩ := iterate_flags (load op a b) 32
  have hq : (busyStep^[32] (load op a b)).quotient = absArg op a / absArg op b :=
    BitVec.eq_of_toNat_eq (by rw [hp.quotient_eq, BitVec.toNat_udiv])
  have hr : (busyStep^[32] (load op a b)).dividendWide.extractLsb' 0 32 = absArg op a % absArg op b := by
    apply BitVec.eq_of_toNat_eq
    rw [BitVec.extractLsb'_toNat, Nat.shiftRight_zero, hp.remainder_eq, BitVec.toNat_umod]
    exact Nat.mod_eq_of_lt (lt_of_le_of_lt (Nat.mod_le _ _) (absArg op a).isLt)
  unfold value result absResult
  rw [hsign, hquot, hq, hr]
  rfl

/-- **Divider, zero divisor.** All ones or the magnitude of the dividend, then the sign. -/
theorem value_zero (op : MduOp) (a : Word) :
    value op a 0 =
      let r := if isResQuotient op then BitVec.allOnes 32 else absArg op a
      if signRes op a 0 then -r else r := by
  obtain ⟨hq', hr'⟩ := loop_zero op a 32 le_rfl
  obtain ⟨hsign, hquot⟩ := iterate_flags (load op a 0) 32
  have hq : (busyStep^[32] (load op a 0)).quotient = BitVec.allOnes 32 :=
    BitVec.eq_of_toNat_eq (by rw [BitVec.toNat_allOnes]; omega)
  have hr : (busyStep^[32] (load op a 0)).dividendWide.extractLsb' 0 32 = absArg op a := by
    apply BitVec.eq_of_toNat_eq
    rw [BitVec.extractLsb'_toNat, Nat.shiftRight_zero, hr', Nat.mod_eq_of_lt (absArg op a).isLt]
  unfold value result absResult
  rw [hsign, hquot, hq, hr]
  rfl

/-! ### Signs -/

theorem value_divu (a b : Word) : value .divu a b = Rv32m.divu a b := by
  by_cases hb : b = 0
  · subst hb
    rw [value_zero]
    rfl
  · rw [value_eq .divu a hb, Rv32m.divu_eq_udiv hb]
    rfl

theorem value_remu (a b : Word) : value .remu a b = Rv32m.remu a b := by
  by_cases hb : b = 0
  · subst hb
    rw [value_zero]
    rfl
  · rw [value_eq .remu a hb, Rv32m.remu_eq_umod hb]
    rfl

theorem absArg_ne_zero {op : MduOp} {b : Word} (hb : b ≠ 0) : absArg op b ≠ 0 := by
  unfold absArg
  split
  · exact fun h => hb (BitVec.neg_eq_zero_iff.1 h)
  · exact hb

theorem value_rem (a b : Word) : value .rem a b = Rv32m.rem a b := by
  by_cases hb : b = 0
  · subst hb
    rw [value_zero]
    cases hm : a.msb <;> simp [isResQuotient, signRes, absArg, signArg, hm, Rv32m.rem]
  · rw [value_eq .rem a (absArg_ne_zero hb), Rv32m.rem_eq_srem hb, BitVec.srem_eq]
    cases hm : a.msb <;> cases hm' : b.msb <;> simp [isResQuotient, signRes, absArg, signArg, hm, hm']

theorem value_div (a : Word) {b : Word} (hb : b ≠ 0) : value .div a b = Rv32m.div a b := by
  rw [value_eq .div a (absArg_ne_zero hb), Rv32m.div_eq_sdiv hb, BitVec.sdiv_eq]
  cases hm : a.msb <;> cases hm' : b.msb <;> simp [isResQuotient, signRes, absArg, signArg, hm, hm']

/-- the sign of the dividend is applied to the all-ones quotient as well -/
theorem value_div_zero (a : Word) : value .div a 0 = if a.msb then 1 else BitVec.allOnes 32 := by
  rw [value_zero]
  cases hm : a.msb <;> simp [isResQuotient, signRes, hm]

end IDIV

namespace IMDU

/-- the instruction set's value of an operation -/
def rv32m : MduOp → Word → Word → Word
  | .mul => Rv32m.mul
  | .mulh => Rv32m.mulh
  | .mulhsu => Rv32m.mulhsu
  | .mulhu => Rv32m.mulhu
  | .div => Rv32m.div
  | .divu => Rv32m.divu
  | .rem => Rv32m.rem
  | .remu => Rv32m.remu

/-- DIV of a negative dividend by zero -/
def NegByZero (op : MduOp) (a b : Word) : Prop := op = .div ∧ b = 0 ∧ a.msb = true

theorem value_of_negByZero {op : MduOp} {a b : Word} (h : NegByZero op a b) : value op a b = 1 := by
  obtain ⟨rfl, rfl, ha⟩ := h
  show IDIV.value .div a 0 = 1
  rw [IDIV.value_div_zero, if_pos ha]

/-- **Values.** The unit computes RV32M except for DIV of a negative dividend by zero. -/
theorem value_eq_rv32m_iff (op : MduOp) (a b : Word) : value op a b = rv32m op a b ↔ ¬ NegByZero op a b := by
  cases op with
  | mul => exact iff_of_true (IMUL.mulResult_mul a b) fun h => by cases h.1
  | mulh => exact iff_of_true (IMUL.mulResult_mulh a b) fun h => by cases h.1
  | mulhsu => exact iff_of_true (IMUL.mulResult_mulhsu a b) fun h => by cases h.1
  | mulhu => exact iff_of_true (IMUL.mulResult_mulhu a b) fun h => by cases h.1
  | divu => exact iff_of_true (IDIV.value_divu a b) fun h => by cases h.1
  | rem => exact iff_of_true (IDIV.value_rem a b) fun h => by cases h.1
  | remu => exact iff_of_true (IDIV.value_remu a b) fun h => by cases h.1
  | div =>
    by_cases hb : b = 0
    · subst hb
      show IDIV.value .div a 0 = Rv32m.div a 0 ↔ _
      rw [IDIV.value_div_zero]
      cases hm : a.msb <;> simp [Rv32m.div, NegByZero, hm]
    · exact iff_of_true (IDIV.value_div a hb) fun h => hb h.2.1

/-! ## The handshakes -/

/-- an operation with its operands -/
structure Operation where
  op : MduOp
  a : Word
  b : Word
deriving DecidableEq, Repr

namespace Operation

def value (o : Operation) : Word := IMDU.value o.op o.a o.b

def rv32m (o : Operation) : Word := IMDU.rv32m o.op o.a o.b

def NegByZero (o : Operation) : Prop := IMDU.NegByZero o.op o.a o.b

end Operation

/-- what the unit holds: nothing, or one operation in one of the two units -/
inductive Pending (s : St) : List Operation → Prop
  | none (hmul : s.mul.validOut = false) (hdiv : IDIV.Idle s.div) : Pending s []
  | mul (o : Operation) (hop : mulOp o.op = true) (hmul : s.mul.validOut = true) (hres : s.mul.resOut = o.value)
      (hdiv : IDIV.Idle s.div) : Pending s [o]
  | div (o : Operation) (hop : mulOp o.op = false) (hmul : s.mul.validOut = false)
      (hdiv : IDIV.Holds s.div o.op o.a o.b) : Pending s [o]

theorem Pending.reset (s : St) : Pending (IMDU.reset s) [] := .none rfl ⟨rfl, rfl⟩

variable {s : St} {p : List Operation}

/-- the result on the output is the one of the operation held -/
theorem Pending.resOut_eq (h : Pending s p) (hv : validOut s = true) : ∃ o, p = [o] ∧ resOut s = o.value := by
  unfold validOut at hv
  cases h with
  | none hmul hdiv => rw [hmul, hdiv.2] at hv; cases hv
  | mul o hop hmul hres hdiv => exact ⟨o, rfl, by rw [resOut, if_pos hmul, hres]⟩
  | div o hop hmul hdiv =>
    rw [hmul, Bool.false_or] at hv
    refine ⟨o, rfl, ?_⟩
    rcases hdiv with ⟨_, _, hv', _⟩ | ⟨_, _, hres⟩
    · rw [hv] at hv'; cases hv'
    · unfold resOut Operation.value value
      rw [hmul, hv, hop, hres]
      rfl

/-- **Accept.** A new operation is taken only when the unit is empty or its result leaves. -/
theorem Pending.accept (h : Pending s p) {readyOut : Bool} (hr : readyIn s readyOut = true) (o : Operation) :
    Pending (next s true readyOut o.op o.a o.b) [o] ∧ (p ≠ [] → (validOut s && readyOut) = true) := by
  obtain ⟨hm, hd⟩ : IMUL.readyIn s.mul readyOut = true ∧ IDIV.readyIn s.div readyOut = true := by
    simpa [readyIn] using hr
  have hcnt : s.div.cnt = 0 := by simpa [IDIV.busy] using (Bool.and_eq_true_iff.1 hd).1
  have hmulOut : s.mul.validOut = true → readyOut = true := by
    intro hv; simpa [IMUL.readyIn, hv] using hm
  have hdivOut : s.div.validOut = true → readyOut = true := by
    intro hv; simpa [IDIV.readyIn, hv] using (Bool.and_eq_true_iff.1 hd).2
  constructor
  · cases hop : mulOp o.op with
    | true =>
      refine .mul o hop ?_ ?_ ?_
      · simp [next, hr, hop, IMUL.next, hm]
      · simp [next, hr, hop, IMUL.next, hm, Operation.value, value]
      · simpa [next, hr, hop] using idiv_drop hcnt hdivOut
    | false =>
      refine .div o hop ?_ ?_
      · simpa [next, hr, hop] using imul_drop hmulOut
      · simpa [next, hr, hop] using IDIV.next_load hd
  · intro hne
    cases h with
    | none => exact absurd rfl hne
    | mul o' hop hmul => simp [validOut, hmul, hmulOut hmul]
    | div o' hop hmul hdiv =>
      have hv : s.div.validOut = true := by
        rcases hdiv with ⟨hc, _⟩ | ⟨_, hv, _⟩
        · exact absurd hcnt hc
        · exact hv
      simp [validOut, hv, hdivOut hv]

theorem idiv_keep {s : IDIV.St} {op : MduOp} {a b : Word} {r : Bool} (hc : s.cnt = 0)
    (h : s.validOut = true → r = false) : IDIV.next s false r op a b = s := by
  have hb : IDIV.busy s = false := by simp [IDIV.busy, hc]
  cases hv : s.validOut
  · simp [IDIV.next, hb, hv]
  · simp [IDIV.next, hb, h hv]

/-- an operation that is not accepted leaves no trace -/
theorem next_refused {validIn readyOut : Bool} (h : (validIn && readyIn s readyOut) = false) (op op' : MduOp)
    (a b a' b' : Word) : next s validIn readyOut op a b = next s false readyOut op' a' b' := by
  unfold next
  rw [h]
  simp only [Bool.false_and]
  simp only [IMUL.next, IDIV.next, Bool.false_and, Bool.false_eq_true, ite_false]

/-- with a result on the output no division is in progress -/
theorem Pending.cnt_eq_zero (h : Pending s p) (hv : validOut s = true) : s.div.cnt = 0 := by
  unfold validOut at hv
  cases h with
  | none hmul hdiv => exact hdiv.1
  | mul o hop hmul hres hdiv => exact hdiv.1
  | div o hop hmul hdiv =>
    rw [hmul, Bool.false_or] at hv
    rcases hdiv with ⟨_, _, hv', _⟩ | ⟨hc, _⟩
    · rw [hv] at hv'; cases hv'
    · exact hc

/-- **Take.** The result leaves and the unit is empty. -/
theorem Pending.take (h : Pending s p) (hv : validOut s = true) (op : MduOp) (a b : Word) :
    Pending (next s false true op a b) [] := by
  refine .none ?_ ?_
  · simpa [next] using imul_drop fun _ => rfl
  · simpa [next] using idiv_drop (h.cnt_eq_zero hv) fun _ => rfl

/-- **Wait.** Without a new operation and without a taker, what is held stays held, a result on the output unchanged. -/
theorem Pending.wait (h : Pending s p) {readyOut : Bool} (hout : (validOut s && readyOut) = false) (op : MduOp)
    (a b : Word) : Pending (next s false readyOut op a b) p ∧
      (validOut s = true → validOut (next s false readyOut op a b) = true ∧
        resOut (next s false readyOut op a b) = resOut s) := by
  have hmulOut : s.mul.validOut = true → readyOut = false := by
    intro hv; simpa [validOut, hv] using hout
  have hdivOut : s.div.validOut = true → readyOut = false := by
    intro hv; simpa [validOut, hv] using hout
  have hmulNext : (next s false readyOut op a b).mul = s.mul := by
    simpa [next] using imul_keep hmulOut
  have hdivNext : (next s false readyOut op a b).div = IDIV.next s.div false readyOut op a b := by simp [next]
  have hnext : Pending (next s false readyOut op a b) p := by
    cases h with
    | none hmul hdiv =>
      refine .none (by rw [hmulNext, hmul]) ?_
      rw [hdivNext]
      exact idiv_drop hdiv.1 fun hv => by rw [hdiv.2] at hv; cases hv
    | mul o hop hmul hres hdiv =>
      refine .mul o hop (by rw [hmulNext, hmul]) (by rw [hmulNext, hres]) ?_
      rw [hdivNext]
      exact idiv_drop hdiv.1 fun hv => by rw [hdiv.2] at hv; cases hv
    | div o hop hmul hdiv =>
      refine .div o hop (by rw [hmulNext, hmul]) ?_
      rw [hdivNext]
      exact IDIV.next_holds hdiv readyOut op a b hdivOut
  refine ⟨hnext, fun hv => ?_⟩
  have hvn : validOut (next s false readyOut op a b) = true := by
    unfold validOut at hv ⊢
    rw [hmulNext, hdivNext]
    rcases Bool.or_eq_true_iff.1 hv with hm | hd
    · rw [hm, Bool.true_or]
    · rw [idiv_keep (h.cnt_eq_zero hv) hdivOut, hd, Bool.or_true]
  obtain ⟨o, rfl, hres⟩ := h.resOut_eq hv
  obtain ⟨o', ho, hres'⟩ := hnext.resOut_eq hvn
  rw [List.cons.injEq] at ho
  exact ⟨hvn, by rw [hres', hres, ho.1]⟩

/-- a division in progress comes one cycle closer to its result and takes nothing in -/
theorem Pending.countdown {o : Operation} (h : Pending s [o]) (hv : validOut s = false) (readyOut : Bool) :
    readyIn s readyOut = false ∧ s.div.cnt.toNat ≤ 33 ∧ ∀ op a b,
      (next s false readyOut op a b).div.cnt.toNat + 1 = s.div.cnt.toNat := by
  unfold validOut at hv
  cases h with
  | mul o hop hmul hres hdiv => rw [hmul] at hv; cases hv
  | div o hop hmul hdiv =>
    rcases hdiv with ⟨hc, hle, _, _⟩ | ⟨_, hv', _⟩
    · have hb : IDIV.busy s.div = true := by simpa [IDIV.busy] using hc
      have hpos : 0 < s.div.cnt.toNat := Nat.pos_of_ne_zero fun h0 => hc (BitVec.eq_of_toNat_eq (by simpa using h0))
      refine ⟨by simp [readyIn, IDIV.readyIn, hb], hle, fun op a b => ?_⟩
      have hcnt : (next s false readyOut op a b).div.cnt = s.div.cnt - 1 := by simp [next, IDIV.next, hb]
      have hone : (1 : BitVec 6) ≤ s.div.cnt := by
        rw [BitVec.le_def]
        exact hpos
      rw [hcnt, BitVec.toNat_sub_of_le hone]
      exact Nat.sub_add_cancel hpos
    · rw [hv', Bool.or_true] at hv; cases hv

end IMDU

/-! ## Sessions -/

/-- what the environment drives in one cycle -/
structure MduIn where
  validIn : Bool
  request : IMDU.Operation
  readyOut : Bool

/-- the unit with the operations it accepted and the results it handed out, oldest first -/
structure MduSession where
  unit : IMDU.St
  accepted : List IMDU.Operation
  taken : List Word

namespace MduSession

def accepts (s : MduSession) (i : MduIn) : Bool := i.validIn && IMDU.readyIn s.unit i.readyOut

def hands (s : MduSession) (i : MduIn) : Bool := IMDU.validOut s.unit && i.readyOut

def step (s : MduSession) (i : MduIn) : MduSession where
  unit := IMDU.next s.unit i.validIn i.readyOut i.request.op i.request.a i.request.b
  accepted := if s.accepts i then s.accepted ++ [i.request] else s.accepted
  taken := if s.hands i then s.taken ++ [IMDU.resOut s.unit] else s.taken

/-- out of reset, from any register contents -/
def start (u : IMDU.St) : MduSession := ⟨IMDU.reset u, [], []⟩

def after (u : IMDU.St) (inp : ℕ → MduIn) (n : ℕ) : MduSession := run step inp (start u) n

/-- **Conservation.** Every accepted operation has been answered with its value, except the one the unit holds. -/
structure Inv (s : MduSession) (p : List IMDU.Operation) : Prop where
  pending : IMDU.Pending s.unit p
  answered : s.accepted.map IMDU.Operation.value = s.taken ++ p.map IMDU.Operation.value

variable {s : MduSession} {p : List IMDU.Operation}

theorem Inv.start (u : IMDU.St) : Inv (start u) [] := ⟨IMDU.Pending.reset u, rfl⟩

theorem Inv.length_le_one (h : Inv s p) : p.length ≤ 1 := by
  cases h.pending <;> simp

/-- handing a result out moves it from the pending side to the taken side -/
theorem Inv.hand_over (h : Inv s p) (i : MduIn) :
    (s.step i).taken ++ (if s.hands i then [] else p).map IMDU.Operation.value =
      s.accepted.map IMDU.Operation.value := by
  rw [h.answered]
  cases hh : s.hands i with
  | true =>
    obtain ⟨o, rfl, hres⟩ := h.pending.resOut_eq (Bool.and_eq_true_iff.1 hh).1
    simp [MduSession.step, hh, hres]
  | false => simp [MduSession.step, hh]

/-- **MduSession step.** An accepted operation becomes the pending one; without one, a result handed out leaves nothing
pending. -/
theorem Inv.step (h : Inv s p) (i : MduIn) :
    Inv (s.step i) (if s.accepts i then [i.request] else if s.hands i then [] else p) := by
  have hover := h.hand_over i
  cases hacc : s.accepts i with
  | true =>
    obtain ⟨hv, hr⟩ : i.validIn = true ∧ IMDU.readyIn s.unit i.readyOut = true := by
      simpa [accepts] using hacc
    obtain ⟨hnext, hleave⟩ := h.pending.accept hr i.request
    refine ⟨by simpa [MduSession.step, hv] using hnext, ?_⟩
    have hempty : (if s.hands i then [] else p) = [] := by
      split_ifs with hh
      · rfl
      · by_contra hp
        exact hh (hleave hp)
    rw [hempty, List.map_nil, List.append_nil] at hover
    simp [MduSession.step, hacc, ← hover]
  | false =>
    refine ⟨?_, by simpa [MduSession.step, hacc] using hover.symm⟩
    have hunit : (s.step i).unit = IMDU.next s.unit false i.readyOut i.request.op i.request.a i.request.b :=
      IMDU.next_refused hacc _ _ _ _ _ _
    rw [hunit]
    cases hh : s.hands i with
    | true =>
      obtain ⟨hv, hr⟩ := Bool.and_eq_true_iff.1 hh
      rw [hr]
      exact h.pending.take hv _ _ _
    | false => exact (h.pending.wait hh _ _ _).1

/-- a result that is not taken stays on the output -/
theorem Inv.held (h : Inv s p) {i : MduIn} (hv : IMDU.validOut s.unit = true) (hr : i.readyOut = false) :
    IMDU.validOut (s.step i).unit = true ∧ IMDU.resOut (s.step i).unit = IMDU.resOut s.unit := by
  have hout : (IMDU.validOut s.unit && i.readyOut) = false := by rw [hr, Bool.and_false]
  have hacc : s.accepts i = false := by
    by_contra hne
    obtain ⟨_, hready⟩ : i.validIn = true ∧ IMDU.readyIn s.unit i.readyOut = true := by
      simpa [accepts] using hne
    obtain ⟨o, rfl, _⟩ := h.pending.resOut_eq hv
    have := (h.pending.accept hready i.request).2 (List.cons_ne_nil _ _)
    rw [hout] at this
    cases this
  have hunit : (s.step i).unit = IMDU.next s.unit false i.readyOut i.request.op i.request.a i.request.b :=
    IMDU.next_refused hacc _ _ _ _ _ _
  rw [hunit]
  exact (h.pending.wait hout _ _ _).2 hv

/-! ### Runs -/

variable (u : IMDU.St) (inp : ℕ → MduIn)

theorem run_inv (n : ℕ) : ∃ p, Inv (after u inp n) p := by
  refine Clocked.run_inv (fun s => ∃ p, Inv s p) (fun _ _ => True) ⟨[], Inv.start u⟩ ?_ (fun _ => trivial) n
  rintro s i ⟨p, h⟩ -
  exact ⟨_, h.step i⟩

theorem accepted_mono {n m : ℕ} (hnm : n ≤ m) : (after u inp n).accepted <+: (after u inp m).accepted := by
  refine log_prefix MduSession.accepted (fun s i => ?_) hnm
  show s.accepted <+: if s.accepts i then s.accepted ++ [i.request] else s.accepted
  split_ifs
  · exact List.prefix_append _ _
  · exact List.prefix_refl _

/-- **Latency.** An operation pending has its result on the output within 33 cycles, whatever the environment does. -/
theorem answered_within {n : ℕ} {o : IMDU.Operation} (h : Inv (after u inp n) [o]) :
    ∃ k ≤ 33, IMDU.validOut (after u inp (n + k)).unit = true := by
  -- induction on the counter of the divider at the starting cycle
  have key : ∀ c n, Inv (after u inp n) [o] → (after u inp n).unit.div.cnt.toNat = c →
      ∃ k ≤ c, IMDU.validOut (after u inp (n + k)).unit = true := by
    intro c
    induction c with
    | zero =>
      intro n h hc
      refine ⟨0, le_rfl, ?_⟩
      by_contra hv
      have := (h.pending.countdown (Bool.eq_false_iff.2 hv) false).2.2 .mul 0 0
      omega
    | succ c ih =>
      intro n h hc
      by_cases hv : IMDU.validOut (after u inp n).unit = true
      · exact ⟨0, Nat.zero_le _, hv⟩
      · obtain ⟨hready, _, hnext⟩ := h.pending.countdown (Bool.eq_false_iff.2 hv) (inp n).readyOut
        have hacc : (after u inp n).accepts (inp n) = false := by simp [accepts, hready]
        have hhand : (after u inp n).hands (inp n) = false := by simp [hands, hv]
        have hstep := h.step (inp n)
        rw [hacc, hhand] at hstep
        have hunit : (after u inp (n + 1)).unit = _ := IMDU.next_refused hacc _ (inp n).request.op _ _
          (inp n).request.a (inp n).request.b
        obtain ⟨k, hk, hvk⟩ := ih (n + 1) hstep (by
          have := hnext (inp n).request.op (inp n).request.a (inp n).request.b
          rw [hunit]
          omega)
        exact ⟨k + 1, by omega, by rwa [show n + (k + 1) = n + 1 + k by omega]⟩
  obtain ⟨k, hk, hv⟩ := key _ n h rfl
  by_cases hv0 : IMDU.validOut (after u inp n).unit = true
  · exact ⟨0, Nat.zero_le _, hv0⟩
  · exact ⟨k, hk.trans (h.pending.countdown (Bool.eq_false_iff.2 hv0) false).2.1, hv⟩

/-! ### The contract -/

/-- results in acceptance order, one for each accepted operation and equal to its RV32M value; a result offered is the one
of the oldest unanswered operation, stays until it is taken, and comes within 33 cycles -/
structure MeetsRv32m : Prop where
  inOrder : ∀ n, ∃ p : List Word, p.length ≤ 1 ∧
    (after u inp n).accepted.map IMDU.Operation.rv32m = (after u inp n).taken ++ p ∧
    (IMDU.validOut (after u inp n).unit = true → p = [IMDU.resOut (after u inp n).unit])
  held : ∀ n, IMDU.validOut (after u inp n).unit = true → (inp n).readyOut = false →
    IMDU.validOut (after u inp (n + 1)).unit = true ∧
      IMDU.resOut (after u inp (n + 1)).unit = IMDU.resOut (after u inp n).unit
  answered : ∀ n, (after u inp n).taken.length < (after u inp n).accepted.length →
    ∃ k ≤ 33, IMDU.validOut (after u inp (n + k)).unit = true

/-- in a cycle with a result on the output, the answers are the unit's values and the ISA's at once -/
theorem MeetsRv32m.values_eq {u : IMDU.St} {inp : ℕ → MduIn} (h : MeetsRv32m u inp) {n : ℕ}
    (hv : IMDU.validOut (after u inp n).unit = true) :
    (after u inp n).accepted.map IMDU.Operation.value = (after u inp n).accepted.map IMDU.Operation.rv32m := by
  obtain ⟨p, hinv⟩ := run_inv u inp n
  obtain ⟨o, rfl, hres⟩ := hinv.pending.resOut_eq hv
  obtain ⟨q, _, hq, hvq⟩ := h.inOrder n
  rw [hinv.answered, hq, hvq hv, hres]
  rfl

/-- in a run that meets the contract every accepted operation has its RV32M value -/
theorem MeetsRv32m.value_eq {u : IMDU.St} {inp : ℕ → MduIn} (h : MeetsRv32m u inp) {n : ℕ} {o : IMDU.Operation}
    (ho : o ∈ (after u inp n).accepted) : o.value = o.rv32m := by
  -- at cycle `m` nothing accepted is left without an answer
  obtain ⟨m, hnm, hm⟩ : ∃ m, n ≤ m ∧ (after u inp m).accepted.map IMDU.Operation.value =
      (after u inp m).accepted.map IMDU.Operation.rv32m := by
    obtain ⟨p, hinv⟩ := run_inv u inp n
    have hlen := congrArg List.length hinv.answered
    rw [List.length_map, List.length_append, List.length_map] at hlen
    cases hp : p with
    | nil =>
      obtain ⟨q, _, hq, _⟩ := h.inOrder n
      have hlenq := congrArg List.length hq
      rw [List.length_map, List.length_append] at hlenq
      obtain rfl : q = [] := List.eq_nil_of_length_eq_zero (by simp [hp] at hlen; omega)
      exact ⟨n, le_rfl, by rw [hinv.answered, hq, hp]; rfl⟩
    | cons o' p' =>
      obtain ⟨k, _, hv⟩ := h.answered n (by rw [hp, List.length_cons] at hlen; omega)
      exact ⟨n + k, Nat.le_add_right _ _, h.values_eq hv⟩
  have hmem : o ∈ (after u inp m).accepted := (accepted_mono u inp hnm).subset ho
  exact List.map_inj_left.1 hm o hmem

/-- **The multiply/divide unit.** From reset, under every stream of operations and every valid and ready pattern, the
unit meets RV32M exactly when no accepted operation divides a negative number by zero with DIV. -/
theorem meets_rv32m_iff : MeetsRv32m u inp ↔ ∀ n, ∀ o ∈ (after u inp n).accepted, ¬ o.NegByZero := by
  constructor
  · intro h n o ho
    exact (IMDU.value_eq_rv32m_iff o.op o.a o.b).1 (h.value_eq ho)
  · intro hok
    have hval : ∀ n, (after u inp n).accepted.map IMDU.Operation.rv32m =
        (after u inp n).accepted.map IMDU.Operation.value := fun n =>
      List.map_congr_left fun o ho => ((IMDU.value_eq_rv32m_iff o.op o.a o.b).2 (hok n o ho)).symm
    constructor
    · intro n
      obtain ⟨p, hinv⟩ := run_inv u inp n
      refine ⟨p.map IMDU.Operation.value, ?_, (hval n).trans hinv.answered, fun hv => ?_⟩
      · rw [List.length_map]; exact hinv.length_le_one
      · obtain ⟨o, rfl, hres⟩ := hinv.pending.resOut_eq hv
        rw [hres]
        rfl
    · intro n hv hr
      obtain ⟨p, hinv⟩ := run_inv u inp n
      exact hinv.held hv hr
    · intro n hlt
      obtain ⟨p, hinv⟩ := run_inv u inp n
      have hlen := congrArg List.length hinv.answered
      rw [List.length_map, List.length_append, List.length_map] at hlen
      have hone := hinv.length_le_one
      obtain ⟨o, rfl⟩ := List.length_eq_one_iff.1 (show p.length = 1 by omega)
      exact answered_within u inp hinv

/-- all registers zero -/
def zeroUnit : IMDU.St := ⟨⟨false, 0⟩, ⟨0, IDIV.load .divu 0 0, false, 0⟩⟩

/-- DIV of -1 by 0 offered in every cycle: the unit answers 1 -/
theorem not_meets_rv32m_div_neg_one :
    ¬ MeetsRv32m zeroUnit fun _ => ⟨true, ⟨.div, -1, 0⟩, true⟩ := by
  intro h
  have ho : (⟨.div, -1, 0⟩ : IMDU.Operation) ∈ (after zeroUnit (fun _ => ⟨true, ⟨.div, -1, 0⟩, true⟩) 1).accepted := by
    decide
  have hval := h.value_eq ho
  rw [IMDU.Operation.value, IMDU.value_of_negByZero ⟨rfl, rfl, rfl⟩] at hval
  exact absurd hval (by decide)

end MduSession

end FpgaLearning.ArxCore
