import Mathlib.Logic.Basic

/-!
# Runs in Lockstep

Two computations that can fail, one of which says less about the state than the other. They run
in lockstep if they fail together and otherwise end in related results.

## Main results

* `Lockstep.bind`, `Lockstep.foldlM`: sequences and loops.
* `Lockstep.ok_right`, `Lockstep.ok_left`: what the end of one run says about the other.
-/

variable {α β α' β' ε γ : Type}

/-- Both fail, or both end in related results. -/
inductive Lockstep (R : α → β → Prop) : Except ε α → Except ε β → Prop where
  | ok {a : α} {b : β} (h : R a b) : Lockstep R (.ok a) (.ok b)
  | error (e e' : ε) : Lockstep R (.error e) (.error e')

namespace Lockstep

variable {R : α → β → Prop} {R' : α' → β' → Prop} {x : Except ε α} {y : Except ε β}

theorem mono {S : α → β → Prop} (h : Lockstep R x y) (hRS : ∀ a b, R a b → S a b) :
    Lockstep S x y := by
  cases h with
  | ok h => exact .ok (hRS _ _ h)
  | error e e' => exact .error e e'

/-- A computation with itself. -/
theorem self (x : Except ε α) : Lockstep Eq x x := by
  cases x with
  | ok a => exact .ok rfl
  | error e => exact .error e e

/-- The results are those of the two computations. -/
theorem with_eq (h : Lockstep R x y) :
    Lockstep (fun a b => R a b ∧ x = .ok a ∧ y = .ok b) x y := by
  cases h with
  | ok h => exact .ok ⟨h, rfl, rfl⟩
  | error e e' => exact .error e e'

/-- Two steps in sequence. -/
theorem bind {f : α → Except ε α'} {g : β → Except ε β'} (h : Lockstep R x y)
    (hfg : ∀ a b, R a b → Lockstep R' (f a) (g b)) : Lockstep R' (x >>= f) (y >>= g) := by
  cases h with
  | ok h => exact hfg _ _ h
  | error e e' => exact .error e e'

/-- A loop over a list. -/
theorem foldlM {f : α → γ → Except ε α} {g : β → γ → Except ε β} (as : List γ) {a : α} {b : β}
    (h : R a b) (hstep : ∀ c ∈ as, ∀ a b, R a b → Lockstep R (f a c) (g b c)) :
    Lockstep R (as.foldlM f a) (as.foldlM g b) := by
  induction as generalizing a b with
  | nil => exact .ok h
  | cons c as ih =>
    rw [List.foldlM_cons, List.foldlM_cons]
    refine (hstep c (List.mem_cons_self ..) a b h).bind fun a' b' h' => ?_
    exact ih h' fun c' hc' => hstep c' (List.mem_cons_of_mem _ hc')

theorem ok_left {a : α} (h : Lockstep R x y) (hx : x = .ok a) : ∃ b, y = .ok b ∧ R a b := by
  cases h with
  | ok h => exact ⟨_, rfl, Except.ok.inj hx ▸ h⟩
  | error e e' => cases hx

theorem ok_right {b : β} (h : Lockstep R x y) (hy : y = .ok b) : ∃ a, x = .ok a ∧ R a b := by
  cases h with
  | ok h => exact ⟨_, rfl, Except.ok.inj hy ▸ h⟩
  | error e e' => cases hy

/-- A sequence that ends well consists of two steps that do. -/
theorem bind_eq_ok {f : α → Except ε β} {b : β} :
    x >>= f = .ok b ↔ ∃ a, x = .ok a ∧ f a = .ok b := by
  cases x with
  | ok a =>
    constructor
    · exact fun h => ⟨a, rfl, h⟩
    · rintro ⟨_, ⟨⟩, h⟩
      exact h
  | error e =>
    constructor
    · rintro ⟨⟩
    · rintro ⟨_, ⟨⟩, _⟩

theorem bind_congr_ok {f g : α → Except ε β} (h : ∀ a, x = .ok a → f a = g a) :
    x >>= f = x >>= g := by
  cases x with
  | ok a => exact h a rfl
  | error e => rfl

/-- A check that both make. -/
theorem ite {p q : Prop} [Decidable p] [Decidable q] {x' : Except ε α} {y' : Except ε β}
    (hpq : p ↔ q) (h : p → Lockstep R x y) (h' : ¬p → Lockstep R x' y') :
    Lockstep R (if p then x else x') (if q then y else y') := by
  by_cases hp : p
  · rw [if_pos hp, if_pos (hpq.mp hp)]
    exact h hp
  · rw [if_neg hp, if_neg (mt hpq.mpr hp)]
    exact h' hp

end Lockstep
