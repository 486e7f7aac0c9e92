/-
Interpreters with fuel, and machines that do the same.

Nothing in this file is about a particular language or machine. A `Run` is what an interpretation writes and where it ends:
in a state, out of fuel, or stuck. `Simulates M k post s r` says that the machine, from `s`, writes what `r` writes; that
it takes `k` steps at least when `r` is out of fuel; and that `r` is not stuck.

- Simulations compose as runs do: `Simulates.after` puts steps of the machine in front, `Simulates.andThen` a run.
- `Simulates.same_output`: an interpreter that is simulated with every amount of fuel writes exactly what the machine
  writes, whether it ends or not.
-/
import FpgaLearning.Core.Traced

namespace FpgaLearning.Traced

/-! ## Runs of an interpreter -/

/-- why an interpretation ends early -/
inductive Stop where
  | outOfFuel | stuck
deriving DecidableEq, Repr

/-- what is written, and the state afterwards -/
abbrev Run (τ β : Type*) := List β × Except Stop τ

namespace Run

variable {τ τ' β : Type*}

def done (t : τ) : Run τ β := ([], .ok t)

def stop (e : Stop) : Run τ β := ([], .error e)

def andThen (r : Run τ β) (f : τ → Run τ' β) : Run τ' β :=
  match r.2 with
  | .ok t => (r.1 ++ (f t).1, (f t).2)
  | .error e => (r.1, .error e)

end Run

/-! ## Simulation -/

variable {σ τ τ' β : Type*} {M : Machine σ β} {k k' n : ℕ} {s s' : σ} {w : List β} {r : Run τ β} {P : σ → Prop}
  {post post₁ : τ → σ → Prop} {post' : τ' → σ → Prop} {f : τ → Run τ' β} {t : τ}

/-- the machine does from `s` what `r` says, with `k` steps or more when `r` is out of fuel -/
def Simulates (M : Machine σ β) (k : ℕ) (post : τ → σ → Prop) (s : σ) (r : Run τ β) : Prop :=
  match r.2 with
  | .ok t => ∃ n s', M.Runs n s r.1 s' ∧ post t s'
  | .error .outOfFuel => ∃ n s', k ≤ n ∧ M.Runs n s r.1 s'
  | .error .stuck => False

namespace Simulates

theorem done (h : post t s) : Simulates M k post s (.done t) := ⟨0, s, .refl M s, h⟩

theorem outOfFuel : Simulates M 0 post s (.stop .outOfFuel) := ⟨0, s, le_rfl, .refl M s⟩

theorem mono (hk : k' ≤ k) (hpost : ∀ t s, post t s → post₁ t s) (h : Simulates M k post s r) :
    Simulates M k' post₁ s r := by
  obtain ⟨w, e⟩ := r
  cases e with
  | ok t =>
    obtain ⟨n, s', hr, hp⟩ := h
    exact ⟨n, s', hr, hpost t s' hp⟩
  | error e =>
    cases e with
    | outOfFuel =>
      obtain ⟨n, s', hn, hr⟩ := h
      exact ⟨n, s', hk.trans hn, hr⟩
    | stuck => exact h

/-- steps of the machine first -/
theorem after (hr : M.Runs n s w s') (h : Simulates M k post s' r) : Simulates M (n + k) post s (w ++ r.1, r.2) := by
  obtain ⟨w', e⟩ := r
  cases e with
  | ok t =>
    obtain ⟨m, s'', hr', hp⟩ := h
    exact ⟨n + m, s'', hr.trans hr', hp⟩
  | error e =>
    cases e with
    | outOfFuel =>
      obtain ⟨m, s'', hm, hr'⟩ := h
      exact ⟨n + m, s'', by omega, hr.trans hr'⟩
    | stuck => exact h

/-- steps that write nothing -/
theorem after_silent (hr : M.Runs n s [] s') (h : Simulates M k post s' r) : Simulates M (n + k) post s r := h.after hr

/-- steps that nobody counts -/
theorem later (hr : M.Runs n s [] s') (h : Simulates M k post s' r) : Simulates M k post s r :=
  (h.after_silent hr).mono (Nat.le_add_left k n) fun _ _ hp => hp

/-- a run that ends after some steps -/
theorem ended (hr : M.Runs n s w s') (hp : post t s') : Simulates M k post s (w, .ok t) := ⟨n, s', hr, hp⟩

/-- one run after another -/
theorem andThen (hs : M.Always P s) (h : Simulates M k post s r)
    (hf : ∀ t s', M.Always P s' → post t s' → Simulates M k post' s' (f t)) : Simulates M k post' s (r.andThen f) := by
  obtain ⟨w, e⟩ := r
  cases e with
  | ok t =>
    obtain ⟨n, s', hr, hp⟩ := h
    exact ((hf t s' (hs.after hr) hp).after hr).mono (Nat.le_add_left k n) fun _ _ hp => hp
  | error e =>
    cases e with
    | outOfFuel => exact h
    | stuck => exact h

/-- silent steps after the end of a run -/
theorem extend (hs : M.Always P s) (h : Simulates M k post s r)
    (hf : ∀ t s', M.Always P s' → post t s' → ∃ n s'', M.Runs n s' [] s'' ∧ post₁ t s'') : Simulates M k post₁ s r := by
  obtain ⟨w, e⟩ := r
  cases e with
  | ok t =>
    obtain ⟨n, s', hr, hp⟩ := h
    obtain ⟨m, s'', hr', hp'⟩ := hf t s' (hs.after hr) hp
    have hall := hr.trans hr'
    rw [List.append_nil] at hall
    exact ⟨n + m, s'', hall, hp'⟩
  | error e =>
    cases e with
    | outOfFuel => exact h
    | stuck => exact h

/-- the state in which a run ends -/
theorem of_ok (h : Simulates M k post s r) (hr : r.2 = .ok t) : ∃ n s', M.Runs n s r.1 s' ∧ post t s' := by
  rw [Simulates, hr] at h
  exact h

theorem not_stuck (h : Simulates M k post s r) : r.2 ≠ .error .stuck := by
  intro hr
  rw [Simulates, hr] at h
  exact h

/-- **Output.** The machine writes what the interpreter writes, when it writes nothing after the end of a run. -/
theorem same_output {r : ℕ → Run τ β} (h : ∀ k, Simulates M k post s (r k))
    (hsilent : ∀ t s', post t s' → ∀ n, M.trace n s' = []) :
    (∀ k, ∃ n, M.trace n s = (r k).1) ∧ ∀ n, ∃ k, M.trace n s <+: (r k).1 := by
  constructor
  · intro k
    have hk := h k
    cases hr : (r k).2 with
    | ok t =>
      obtain ⟨n, s', hruns, -⟩ := hk.of_ok hr
      exact ⟨n, hruns.trace⟩
    | error e =>
      cases e with
      | outOfFuel =>
        rw [Simulates, hr] at hk
        obtain ⟨n, s', -, hruns⟩ := hk
        exact ⟨n, hruns.trace⟩
      | stuck => exact absurd hr hk.not_stuck
  · intro n
    have hn := h n
    refine ⟨n, ?_⟩
    cases hr : (r n).2 with
    | ok t =>
      obtain ⟨m, s', hruns, hp⟩ := hn.of_ok hr
      have hmore : M.trace (m + n) s = (r n).1 := by
        rw [Machine.trace_add, hruns.state, hruns.trace, hsilent t s' hp n, List.append_nil]
      exact hmore ▸ M.trace_mono s (Nat.le_add_left n m)
    | error e =>
      cases e with
      | outOfFuel =>
        rw [Simulates, hr] at hn
        obtain ⟨m, s', hm, hruns⟩ := hn
        exact hruns.trace ▸ M.trace_mono s hm
      | stuck => exact absurd hr hn.not_stuck

end Simulates

end FpgaLearning.Traced
