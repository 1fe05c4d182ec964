import Mathlib.Data.Bool.Basic
import Mathlib.Data.Nat.Basic
import Mathlib.Order.Nat

/-!
# Edges of a Sampled Signal

A signal is a sequence of samples. `HeldSince x b j n` says that the signal has the value `b` from
sample `j + 1`, where it took it, to sample `n`; `Always x b n` that it has it from the first
sample on. Both are known at a sample from the one before.

## Main results

* `heldSince_succ`, `always_succ`: the next sample.
* `always_or_heldSince`: one of the two holds where the signal has the value; not both
  (`Always.not_heldSince`), and since one edge only (`HeldSince.unique`).
-/

namespace Signal

variable {x : ℕ → Bool} {b : Bool} {j n : ℕ}

/-- The signal takes the value `b` at sample `j + 1`. -/
def Edge (x : ℕ → Bool) (b : Bool) (j : ℕ) : Prop := x j = !b ∧ x (j + 1) = b

/-- The signal took the value `b` at sample `j + 1` and has had it up to sample `n`. -/
def HeldSince (x : ℕ → Bool) (b : Bool) (j n : ℕ) : Prop :=
  x j = !b ∧ j < n ∧ ∀ i, j < i → i ≤ n → x i = b

/-- The signal has had the value `b` since the first sample. -/
def Always (x : ℕ → Bool) (b : Bool) (n : ℕ) : Prop := ∀ i ≤ n, x i = b

theorem HeldSince.value (h : HeldSince x b j n) : x n = b := h.2.2 n h.2.1 le_rfl

theorem Always.value (h : Always x b n) : x n = b := h n le_rfl

theorem HeldSince.edge (h : HeldSince x b j n) : Edge x b j :=
  ⟨h.1, h.2.2 (j + 1) (Nat.lt_succ_self j) h.2.1⟩

theorem not_heldSince_zero : ¬ HeldSince x b j 0 := fun h => Nat.not_lt_zero j h.2.1

/-- **The next sample**: the value is taken there, or it is kept. -/
theorem heldSince_succ :
    HeldSince x b j (n + 1) ↔
      (j = n ∧ Edge x b n) ∨ (HeldSince x b j n ∧ x (n + 1) = b) := by
  constructor
  · intro h
    rcases Nat.lt_succ_iff_lt_or_eq.mp h.2.1 with hlt | rfl
    · exact Or.inr ⟨⟨h.1, hlt, fun i hji hin => h.2.2 i hji (hin.trans n.le_succ)⟩, h.value⟩
    · exact Or.inl ⟨rfl, h.edge⟩
  · rintro (⟨rfl, hold, hnew⟩ | ⟨h, hnew⟩)
    · refine ⟨hold, Nat.lt_succ_self j, fun i hji hin => ?_⟩
      obtain rfl : i = j + 1 := Nat.le_antisymm hin hji
      exact hnew
    · refine ⟨h.1, h.2.1.trans (Nat.lt_succ_self n), fun i hji hin => ?_⟩
      rcases Nat.le_succ_iff.mp hin with hle | rfl
      · exact h.2.2 i hji hle
      · exact hnew

theorem always_succ : Always x b (n + 1) ↔ Always x b n ∧ x (n + 1) = b := by
  constructor
  · exact fun h => ⟨fun i hi => h i (hi.trans n.le_succ), h.value⟩
  · rintro ⟨h, hnew⟩ i hi
    rcases Nat.le_succ_iff.mp hi with hle | rfl
    · exact h i hle
    · exact hnew

/-- A signal that has a value has had it always, or since some sample. -/
theorem always_or_heldSince (h : x n = b) : Always x b n ∨ ∃ j, HeldSince x b j n := by
  induction n with
  | zero =>
      refine Or.inl fun i hi => ?_
      rwa [Nat.le_zero.mp hi]
  | succ n ih =>
      by_cases hprev : x n = b
      · rcases ih hprev with halways | ⟨j, hj⟩
        · exact Or.inl (always_succ.mpr ⟨halways, h⟩)
        · exact Or.inr ⟨j, heldSince_succ.mpr (Or.inr ⟨hj, h⟩)⟩
      · exact Or.inr ⟨n, heldSince_succ.mpr (Or.inl ⟨rfl, by simpa using Bool.eq_not.mpr hprev, h⟩)⟩

/-- A value is held since one edge only. -/
theorem HeldSince.unique {i : ℕ} (hi : HeldSince x b i n) (hj : HeldSince x b j n) : i = j := by
  rcases lt_trichotomy i j with hlt | heq | hgt
  · have hvalue := hi.2.2 j hlt hj.2.1.le
    simp [hj.1] at hvalue
  · exact heq
  · have hvalue := hj.2.2 i hgt hi.2.1.le
    simp [hi.1] at hvalue

theorem Always.not_heldSince (h : Always x b n) : ¬ HeldSince x b j n := by
  intro hj
  have hvalue := h j hj.2.1.le
  simp [hj.1] at hvalue

end Signal
