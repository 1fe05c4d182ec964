import Mathlib.Logic.Basic

/-!
# How a Computation Ends

A computation that can fail ends in a result or in an error, and a postcondition is given for
each.

## Main results

* `Ends.bind`: two steps in sequence.
* `Ends.ok`, `Ends.error`: what holds at the end.
-/

variable {α β ε : Type}

/-- The computation ends with a result that satisfies `Q`, or with an error that satisfies
`R`. -/
inductive Ends (Q : α → Prop) (R : ε → Prop) : Except ε α → Prop where
  | ok {a : α} (h : Q a) : Ends Q R (.ok a)
  | error {e : ε} (h : R e) : Ends Q R (.error e)

namespace Ends

variable {Q : α → Prop} {R : ε → Prop} {x : Except ε α}

theorem mono {Q' : α → Prop} (h : Ends Q R x) (hQ : ∀ a, Q a → Q' a) : Ends Q' R x := by
  cases h with
  | ok h => exact .ok (hQ _ h)
  | error h => exact .error h

/-- Two steps in sequence. -/
theorem bind {Q' : β → Prop} {f : α → Except ε β} (h : Ends Q R x)
    (hf : ∀ a, Q a → Ends Q' R (f a)) : Ends Q' R (x >>= f) := by
  cases h with
  | ok h => exact hf _ h
  | error h => exact .error h

/-- A check. -/
theorem ite {c : Prop} [Decidable c] {y : Except ε α} (h : c → Ends Q R x)
    (h' : ¬c → Ends Q R y) : Ends Q R (if c then x else y) := by
  split
  · exact h ‹c›
  · exact h' ‹¬c›

theorem of_ok {a : α} (h : Ends Q R x) (hx : x = .ok a) : Q a := by
  cases h with
  | ok h => exact Except.ok.inj hx ▸ h
  | error h => cases hx

theorem of_error {e : ε} (h : Ends Q R x) (hx : x = .error e) : R e := by
  cases h with
  | ok h => cases hx
  | error h => exact Except.error.inj hx ▸ h

end Ends
