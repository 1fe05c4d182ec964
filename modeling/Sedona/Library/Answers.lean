import Mathlib.Data.List.Basic

/-!
# Machines with Answers

A machine that takes a call in each state and answers it. A machine that simulates another one
gives its answers, whatever the calls are.

## Main results

* `answers_eq_of_simulation`: the answers of two machines, one of which simulates the other.
-/

namespace Answers

variable {σ τ α β : Type}

/-- The answers to some calls. -/
def answers (step : σ → α → σ × β) : σ → List α → List β
  | _, [] => []
  | s, a :: calls => (step s a).2 :: answers step (step s a).1 calls

/-- `R` is kept by every call, and related states answer alike. -/
def Simulates (step : σ → α → σ × β) (step' : τ → α → τ × β) (R : σ → τ → Prop) : Prop :=
  ∀ s t a, R s t → (step s a).2 = (step' t a).2 ∧ R (step s a).1 (step' t a).1

variable {step : σ → α → σ × β} {step' : τ → α → τ × β} {R : σ → τ → Prop}

/-- **The answers of a machine that simulates another one.** -/
theorem answers_eq_of_simulation (h : Simulates step step' R) {s : σ} {t : τ} (hst : R s t)
    (calls : List α) : answers step s calls = answers step' t calls := by
  induction calls generalizing s t with
  | nil => rfl
  | cons a calls ih =>
    obtain ⟨hanswer, hnext⟩ := h s t a hst
    rw [answers, answers, hanswer, ih hnext]

end Answers
