/-
Deterministic machines that write.

Nothing in this file is about a particular machine. `Runs n s w s'` says that `n` steps lead from `s` to `s'` and write
`w`. Runs compose by `Runs.trans`; `Always P s` is a property of every state a run from `s` comes through, and goes over
to each of these states by `Always.after`.
-/
import Mathlib.Tactic

namespace FpgaLearning.Traced

/-- what a step does, and what it writes -/
structure Machine (σ β : Type*) where
  step : σ → σ
  emit : σ → List β

namespace Machine

variable {σ β : Type*} {M : Machine σ β} {s s' s'' : σ} {w w' : List β} {n m : ℕ} {P : σ → Prop}

/-- everything written in `n` steps -/
def trace (M : Machine σ β) : ℕ → σ → List β
  | 0, _ => []
  | n + 1, s => M.emit s ++ M.trace n (M.step s)

theorem trace_add (M : Machine σ β) (n m : ℕ) (s : σ) :
    M.trace (n + m) s = M.trace n s ++ M.trace m (M.step^[n] s) := by
  induction n generalizing s with
  | zero => simp [trace]
  | succ n ih => rw [Nat.succ_add, trace, trace, ih, List.append_assoc, Function.iterate_succ_apply]

theorem trace_mono (M : Machine σ β) (s : σ) (h : n ≤ m) : M.trace n s <+: M.trace m s := by
  obtain ⟨k, rfl⟩ := Nat.exists_eq_add_of_le h
  rw [trace_add]
  exact List.prefix_append _ _

/-! ## Runs -/

/-- `n` steps lead from `s` to `s'` and write `w` -/
structure Runs (M : Machine σ β) (n : ℕ) (s : σ) (w : List β) (s' : σ) : Prop where
  state : M.step^[n] s = s'
  trace : M.trace n s = w

theorem Runs.refl (M : Machine σ β) (s : σ) : M.Runs 0 s [] s := ⟨rfl, rfl⟩

theorem Runs.one (hstep : M.step s = s') (hemit : M.emit s = w) : M.Runs 1 s w s' :=
  ⟨hstep, by simp [Machine.trace, hemit]⟩

theorem Runs.trans (h : M.Runs n s w s') (h' : M.Runs m s' w' s'') : M.Runs (n + m) s (w ++ w') s'' := by
  constructor
  · rw [Nat.add_comm, Function.iterate_add_apply, h.state, h'.state]
  · rw [trace_add, h.trace, h.state, h'.trace]

/-! ## Every state of a run -/

def Always (M : Machine σ β) (P : σ → Prop) (s : σ) : Prop := ∀ n, P (M.step^[n] s)

theorem Always.now (h : M.Always P s) : P s := h 0

theorem Always.after (h : M.Always P s) (hr : M.Runs n s w s') : M.Always P s' := by
  intro k
  rw [← hr.state, ← Function.iterate_add_apply]
  exact h (k + n)

theorem Always.last (h : M.Always P s) (hr : M.Runs n s w s') : P s' := (h.after hr).now

/-- **Invariants.** What every step keeps holds for ever; when these steps write nothing, nothing is written. -/
theorem silent_of_inv (hstep : ∀ s, P s → ∃ s', M.Runs 1 s [] s' ∧ P s') (h : P s) (n : ℕ) :
    ∃ s', M.Runs n s [] s' ∧ P s' := by
  induction n with
  | zero => exact ⟨s, .refl M s, h⟩
  | succ n ih =>
    obtain ⟨s₁, hrun₁, h₁⟩ := ih
    obtain ⟨s₂, hrun₂, h₂⟩ := hstep s₁ h₁
    exact ⟨s₂, hrun₁.trans hrun₂, h₂⟩

end Machine

end FpgaLearning.Traced
