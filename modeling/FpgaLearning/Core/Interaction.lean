/-
Programs that talk to something: they ask, wait for the answer, and go on with it.

Nothing in this file is about a particular program. A `Dialogue` is the tree of what a program asks for each answer it may
get. A `Responder` says which questions are allowed, and what it may answer and become.
- `wp_bind`, `wp_mono`: the rules of the weakest precondition;
- `after_append`: where a program stands after some answers.
-/
import Mathlib.Tactic

namespace FpgaLearning.Interaction

/-- `ι` are the questions, `ρ` the answers -/
inductive Dialogue (ι ρ α : Type*) where
  | done (a : α)
  | ask (q : ι) (k : ρ → Dialogue ι ρ α)

/-- the other side, with states `σ` -/
structure Responder (σ ι ρ : Type*) where
  legal : σ → ι → Prop
  step : σ → ι → ρ → σ → Prop

namespace Dialogue

variable {σ ι ρ α β : Type*}

def bind (x : Dialogue ι ρ α) (f : α → Dialogue ι ρ β) : Dialogue ι ρ β :=
  match x with
  | done a => f a
  | ask q k => ask q fun r => (k r).bind f

/-- what is left of a program after some answers -/
def after : Dialogue ι ρ α → List ρ → Dialogue ι ρ α
  | ask _ k, r :: rs => (k r).after rs
  | x, _ => x

@[simp] theorem after_nil (x : Dialogue ι ρ α) : x.after [] = x := by cases x <;> rfl

theorem after_append (x : Dialogue ι ρ α) (rs rs' : List ρ) : x.after (rs ++ rs') = (x.after rs).after rs' := by
  induction rs generalizing x with
  | nil => rw [List.nil_append, after_nil]
  | cons r rs ih =>
    cases x with
    | done a => cases rs' <;> rfl
    | ask q k => exact ih (k r)

/-- every question is allowed, and the result and the state at the end meet `Q` -/
def wp (R : Responder σ ι ρ) : Dialogue ι ρ α → (α → σ → Prop) → σ → Prop
  | done a, Q, s => Q a s
  | ask q k, Q, s => R.legal s q ∧ ∀ r s', R.step s q r s' → (k r).wp R Q s'

variable {R : Responder σ ι ρ} {Q Q' : α → σ → Prop} {s : σ}

theorem wp_mono (x : Dialogue ι ρ α) (hQ : ∀ a s, Q a s → Q' a s) (h : x.wp R Q s) : x.wp R Q' s := by
  induction x generalizing s with
  | done a => exact hQ a s h
  | ask q k ih => exact ⟨h.1, fun r s' hstep => ih r (h.2 r s' hstep)⟩

theorem wp_bind (x : Dialogue ι ρ α) (f : α → Dialogue ι ρ β) {Q : β → σ → Prop}
    (h : x.wp R (fun a s' => (f a).wp R Q s') s) : (x.bind f).wp R Q s := by
  induction x generalizing s with
  | done a => exact h
  | ask q k ih => exact ⟨h.1, fun r s' hstep => ih r (h.2 r s' hstep)⟩

end Dialogue

end FpgaLearning.Interaction
