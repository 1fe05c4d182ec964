import Mathlib.Data.List.TakeWhile
import Mathlib.Order.Nat

/-!
# Runs of Symbols and Numerals

A scanner takes the longest run of symbols of a kind. A text made of a run of the kind and of something
that does not go on with it is split in this way only.

## Main results

* `append_inj`: a text has one such run at its start.
* `foldl_toDigits`, `forall_mem_toDigits`: the value of a numeral, and its digits.
-/

namespace Spans

variable {σ : Type} {p : σ → Bool} {l l' r r' : List σ}

/-- The text does not go on with a symbol of the kind. -/
def Stops (p : σ → Bool) (r : List σ) : Prop := r.head?.any p = false

theorem stops_nil : Stops p [] := rfl

theorem stops_cons {c : σ} (h : p c = false) : Stops p (c :: r) := h

theorem takeWhile_of_stops (h : Stops p r) : r.takeWhile p = [] := by
  cases r with
  | nil => rfl
  | cons c r => exact List.takeWhile_cons_of_neg (by simpa [Stops] using h)

theorem dropWhile_of_stops (h : Stops p r) : r.dropWhile p = r := by
  cases r with
  | nil => rfl
  | cons c r => exact List.dropWhile_cons_of_neg (by simpa [Stops] using h)

theorem takeWhile_append (hl : ∀ x ∈ l, p x = true) (hr : Stops p r) :
    (l ++ r).takeWhile p = l := by
  rw [List.takeWhile_append_of_pos hl, takeWhile_of_stops hr, List.append_nil]

theorem dropWhile_append (hl : ∀ x ∈ l, p x = true) (hr : Stops p r) :
    (l ++ r).dropWhile p = r := by
  rw [List.dropWhile_append_of_pos hl, dropWhile_of_stops hr]

/-- **One run** at the start of a text. -/
theorem append_inj (hl : ∀ x ∈ l, p x = true) (hl' : ∀ x ∈ l', p x = true) (hr : Stops p r)
    (hr' : Stops p r') (h : l ++ r = l' ++ r') : l = l' ∧ r = r' := by
  have ht := congrArg (List.takeWhile p) h
  have hd := congrArg (List.dropWhile p) h
  rw [takeWhile_append hl hr, takeWhile_append hl' hr'] at ht
  rw [dropWhile_append hl hr, dropWhile_append hl' hr'] at hd
  exact ⟨ht, hd⟩

/-! ### Numerals -/

/-- The value of a numeral that is read digit by digit, if `val n` stands for `n`. -/
theorem foldl_toDigits {α : Type} {b : ℕ} (hb : 1 < b) {f : α → Char → α} (val : ℕ → α)
    (hf : ∀ n, ∀ d < b, f (val n) d.digitChar = val (n * b + d)) (n : ℕ) :
    (Nat.toDigits b n).foldl f (val 0) = val n := by
  induction n using Nat.strong_induction_on with
  | _ n ih =>
    rcases Nat.lt_or_ge n b with hlt | hle
    · rw [Nat.toDigits_of_lt_base hlt]
      simpa using hf 0 n hlt
    · have hpos : 0 < n := by omega
      rw [Nat.toDigits_of_base_le hb hle, List.foldl_append, ih _ (Nat.div_lt_self hpos hb),
        List.foldl_cons, List.foldl_nil, hf _ _ (Nat.mod_lt n (by omega)), Nat.div_add_mod' n b]

/-- What holds of the digits holds of the characters of a numeral. -/
theorem forall_mem_toDigits {b : ℕ} (hb : 1 < b) {P : Char → Prop} (h : ∀ d < b, P d.digitChar)
    (n : ℕ) : ∀ c ∈ Nat.toDigits b n, P c := by
  induction n using Nat.strong_induction_on with
  | _ n ih =>
    rcases Nat.lt_or_ge n b with hlt | hle
    · rw [Nat.toDigits_of_lt_base hlt]
      simpa using h n hlt
    · have hpos : 0 < n := by omega
      rw [Nat.toDigits_of_base_le hb hle, List.forall_mem_append]
      exact ⟨ih _ (Nat.div_lt_self hpos hb), by simpa using h _ (Nat.mod_lt n (by omega))⟩

end Spans
