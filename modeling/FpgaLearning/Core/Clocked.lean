/-
Synchronous machines: a state updated at every clock edge from the inputs of that cycle.

Nothing in this file is about a particular circuit. It gives the run of a step function over an infinite input stream
and the rules used everywhere else:
- `run_inv`: an invariant that every step keeps holds after any number of edges;
- `log_prefix`: a log that every step only extends grows by prefixes along a run;
- `eventually_of_rank`: progress from a rank that drops at every step except while waiting, with fairness;
- `lasts_until`: what lasts until a recurring event is there when it comes;
- `succ_of_last`, `succ_of_not_last`: a counter that starts again after `m`.
-/
import Mathlib.Tactic

namespace FpgaLearning.Clocked

variable {σ ι α : Type*}

/-! ## Runs -/

/-- the state after `n` clock edges from `s`, fed with the input stream `inp` -/
def run (step : σ → ι → σ) (inp : ℕ → ι) (s : σ) : ℕ → σ
  | 0 => s
  | n + 1 => step (run step inp s n) (inp n)

@[simp] theorem run_zero (step : σ → ι → σ) (inp : ℕ → ι) (s : σ) : run step inp s 0 = s := rfl

theorem run_succ (step : σ → ι → σ) (inp : ℕ → ι) (s : σ) (n : ℕ) :
    run step inp s (n + 1) = step (run step inp s n) (inp n) := rfl

theorem run_add (step : σ → ι → σ) (inp : ℕ → ι) (s : σ) (n m : ℕ) :
    run step inp s (n + m) = run step (fun k => inp (n + k)) (run step inp s n) m := by
  induction m with
  | zero => rfl
  | succ m ih => rw [← Nat.add_assoc, run_succ, ih, run_succ]

/-! ## Invariants and logs -/

/-- **Invariant rule.** `ok n` is what the environment promises in cycle `n`. -/
theorem run_inv {step : σ → ι → σ} {inp : ℕ → ι} {s : σ} (P : σ → Prop) (ok : σ → ι → Prop) (h0 : P s)
    (hstep : ∀ s i, P s → ok s i → P (step s i)) (hok : ∀ n, ok (run step inp s n) (inp n)) (n : ℕ) :
    P (run step inp s n) := by
  induction n with
  | zero => exact h0
  | succ n ih => exact hstep _ _ ih (hok n)

/-- a log that every step extends only grows along a run -/
theorem log_prefix {step : σ → ι → σ} {inp : ℕ → ι} {s : σ} (log : σ → List α)
    (hstep : ∀ s i, log s <+: log (step s i)) {n m : ℕ} (hnm : n ≤ m) :
    log (run step inp s n) <+: log (run step inp s m) := by
  induction hnm with
  | refl => exact List.prefix_refl _
  | step _ ih => exact ih.trans (hstep _ _)

/-! ## Progress -/

/-- **Progress by rank.** In every cycle the goal is reached, or the rank drops, or the machine waits with the rank
unchanged. If it never waits for ever, the goal is reached again and again. -/
theorem eventually_of_rank (rank : ℕ → ℕ) (goal wait : ℕ → Prop)
    (hstep : ∀ n, goal n ∨ rank (n + 1) < rank n ∨ (wait n ∧ rank (n + 1) = rank n))
    (hfair : ∀ n, ¬ ∀ m, n ≤ m → wait m ∧ rank m = rank n) (n : ℕ) : ∃ m, n ≤ m ∧ goal m := by
  -- induction on the rank at the starting cycle; the start itself varies
  induction hr : rank n using Nat.strong_induction_on generalizing n with
  | _ r ih =>
    by_contra hno
    have hnext : ∀ m, n ≤ m → rank m = rank n → wait m ∧ rank (m + 1) = rank n := by
      intro m hm hrm
      rcases hstep m with hg | hlt | ⟨hw, heq⟩
      · exact absurd ⟨m, hm, hg⟩ hno
      · obtain ⟨k, hk, hg⟩ := ih (rank (m + 1)) (by omega) (m + 1) rfl
        exact absurd ⟨k, by omega, hg⟩ hno
      · exact ⟨hw, by omega⟩
    have hconst : ∀ d, rank (n + d) = rank n := by
      intro d
      induction d with
      | zero => rfl
      | succ d ihd => exact (hnext (n + d) (by omega) ihd).2
    refine hfair n fun m hm => ?_
    obtain ⟨d, rfl⟩ := Nat.exists_eq_add_of_le hm
    exact ⟨(hnext (n + d) hm (hconst d)).1, hconst d⟩

/-- **Waiting for an event.** What lasts until an event that comes again and again is there when it comes. -/
theorem lasts_until {P Q : ℕ → Prop} (hstep : ∀ n, P n → ¬ Q n → P (n + 1)) (hfair : ∀ n, ∃ m, n ≤ m ∧ Q m) {n : ℕ}
    (h : P n) : ∃ m, n ≤ m ∧ P m ∧ Q m := by
  obtain ⟨m, hnm, hm⟩ := hfair n
  obtain ⟨d, rfl⟩ := Nat.exists_eq_add_of_le hnm
  clear hnm
  -- induction on the distance to one occurrence of the event
  induction d generalizing n with
  | zero => exact ⟨n, le_rfl, h, hm⟩
  | succ d ih =>
    by_cases hq : Q n
    · exact ⟨n, le_rfl, h, hq⟩
    · rw [show n + (d + 1) = n + 1 + d by omega] at hm
      obtain ⟨k, hk, hpq⟩ := ih (hstep n h hq) hm
      exact ⟨k, by omega, hpq⟩

/-- a counter that never drops and grows again and again passes every bound -/
theorem unbounded_of_growth (c : ℕ → ℕ) (hmono : ∀ n, c n ≤ c (n + 1))
    (hgrow : ∀ n, ∃ m, n ≤ m ∧ c m < c (m + 1)) (k : ℕ) : ∃ n, k ≤ c n := by
  induction k with
  | zero => exact ⟨0, Nat.zero_le _⟩
  | succ k ih =>
    obtain ⟨n, hn⟩ := ih
    obtain ⟨m, hm, hlt⟩ := hgrow n
    have hle : c n ≤ c m := monotone_nat_of_le_succ hmono hm
    exact ⟨m + 1, by omega⟩

/-! ## Counting modulo -/

/-- the counter starts again -/
theorem succ_of_last {m k : ℕ} (h : k % (m + 1) = m) : (k + 1) % (m + 1) = 0 ∧ (k + 1) / (m + 1) = k / (m + 1) + 1 := by
  have hk : k + 1 = (m + 1) * (k / (m + 1) + 1) := by
    have hdiv := Nat.div_add_mod k (m + 1)
    rw [h] at hdiv
    rw [Nat.mul_succ]
    omega
  rw [hk]
  exact ⟨Nat.mul_mod_right _ _, Nat.mul_div_cancel_left _ (Nat.succ_pos m)⟩

/-- the counter counts on -/
theorem succ_of_not_last {m k : ℕ} (h : k % (m + 1) ≠ m) :
    (k + 1) % (m + 1) = k % (m + 1) + 1 ∧ (k + 1) / (m + 1) = k / (m + 1) := by
  have hlt : k % (m + 1) + 1 < m + 1 := by
    have := Nat.mod_lt k (show 0 < m + 1 from Nat.succ_pos m)
    omega
  have hk : k + 1 = k % (m + 1) + 1 + (m + 1) * (k / (m + 1)) := by
    have hdiv := Nat.div_add_mod k (m + 1)
    omega
  constructor
  · conv_lhs => rw [hk]
    rw [Nat.add_mul_mod_self_left, Nat.mod_eq_of_lt hlt]
  · conv_lhs => rw [hk]
    rw [Nat.add_mul_div_left _ _ (Nat.succ_pos m), Nat.div_eq_of_lt hlt, Nat.zero_add]

end FpgaLearning.Clocked
