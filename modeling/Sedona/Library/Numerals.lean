import Mathlib.Data.List.Basic

/-!
# Numerals

Numbers that are written as digits, the highest one first.

## Main results

* `numeral_append_singleton`: one digit more.
* `numeral_eq_none`: a character that is no digit.
-/

namespace Numerals

variable {α : Type} (base : ℕ) (digit : α → Option ℕ)

/-- The number that the digits are, if they are digits. No digits are zero. -/
def numeral (cs : List α) : Option ℕ :=
  cs.foldlM (fun v c => (digit c).map (v * base + ·)) 0

variable {base digit}

theorem numeral_append_singleton (cs : List α) (c : α) :
    numeral base digit (cs ++ [c]) =
      (numeral base digit cs).bind fun v => (digit c).map (v * base + ·) := by
  rw [numeral, List.foldlM_append, ← numeral]
  rcases numeral base digit cs with _ | v
  · rfl
  · simp only [List.foldlM_cons, List.foldlM_nil]
    rcases digit c with _ | d <;> rfl

/-- With a character that is no digit, the characters are no number. -/
theorem numeral_eq_none {c : α} (hc : digit c = none) (cs ds : List α) :
    numeral base digit (cs ++ c :: ds) = none := by
  rw [numeral, List.foldlM_append, ← numeral]
  rcases numeral base digit cs with _ | v
  · rfl
  · simp only [List.foldlM_cons, hc]
    rfl

theorem digit_ne_none {cs : List α} {n : ℕ} (h : numeral base digit cs = some n) {c : α}
    (hc : c ∈ cs) : digit c ≠ none := by
  obtain ⟨as, bs, rfl⟩ := List.append_of_mem hc
  intro hnone
  rw [numeral_eq_none hnone] at h
  cases h

end Numerals
