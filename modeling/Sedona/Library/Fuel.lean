import Mathlib.Order.Nat

/-!
# Running With Enough Fuel

A loop without a termination measure is a function of its fuel that is `none` when the fuel
runs out. `Returns run b` says that with enough fuel the run ends with `b`.

## Main results

* `Returns.unique`: a run has at most one result.
* `Returns.bind`: runs in sequence.
* `returns_succ`: a unit of fuel more or less does not matter.
-/

namespace Fuel

variable {β γ : Type*} {run : ℕ → Option β} {b b' : β}

/-- With enough fuel, the run ends with the result `b`. -/
def Returns (run : ℕ → Option β) (b : β) : Prop :=
  ∃ n, ∀ fuel, n ≤ fuel → run fuel = some b

/-- A run has at most one result. -/
theorem Returns.unique (h : Returns run b) (h' : Returns run b') : b = b' := by
  obtain ⟨n, hn⟩ := h
  obtain ⟨n', hn'⟩ := h'
  have h₁ := hn (max n n') (le_max_left n n')
  have h₂ := hn' (max n n') (le_max_right n n')
  exact Option.some.inj (h₁.symm.trans h₂)

/-- A step that needs no fuel. -/
theorem returns_const {x : Option β} (h : x = some b) : Returns (fun _ => x) b :=
  ⟨0, fun _ _ => h⟩

/-- One run after the other. -/
theorem Returns.bind {f : ℕ → Option β} {g : ℕ → β → Option γ} {c : γ} (hf : Returns f b)
    (hg : Returns (fun n => g n b) c) : Returns (fun n => (f n).bind (g n)) c := by
  obtain ⟨n, hn⟩ := hf
  obtain ⟨m, hm⟩ := hg
  refine ⟨max n m, fun fuel hfuel => ?_⟩
  simp only [hn fuel (le_trans (le_max_left n m) hfuel), Option.bind_some]
  exact hm fuel (le_trans (le_max_right n m) hfuel)

theorem returns_succ : Returns (fun n => run (n + 1)) b ↔ Returns run b := by
  constructor
  · rintro ⟨n, hn⟩
    refine ⟨n + 1, ?_⟩
    rintro (_ | fuel) hfuel
    · exact absurd hfuel (Nat.not_succ_le_zero n)
    · exact hn fuel (Nat.le_of_succ_le_succ hfuel)
  · rintro ⟨n, hn⟩
    exact ⟨n, fun fuel hfuel => hn (fuel + 1) (Nat.le_succ_of_le hfuel)⟩

/-- A run that takes one unit of fuel for its first step. -/
theorem returns_of_succ (n : ℕ) (h : ∀ fuel, n ≤ fuel → run (fuel + 1) = some b) :
    Returns run b :=
  returns_succ.mp ⟨n, h⟩

/-- Two runs that agree on all large fuels have the same results. -/
theorem Returns.congr {run' : ℕ → Option β} (h : Returns run b)
    (heq : ∀ fuel, run fuel = some b → run' fuel = some b) : Returns run' b := by
  obtain ⟨n, hn⟩ := h
  exact ⟨n, fun fuel hfuel => heq fuel (hn fuel hfuel)⟩

end Fuel
