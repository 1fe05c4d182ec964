import Mathlib.Data.List.Basic

/-!
# Iterated Hashes

A hash that takes a message block by block: a compression function is applied to the hash of the
blocks so far and the next block of `n` elements. What does not fill a block is kept. The elements
can also be fed one by one, and it makes no difference where a message is cut.

## Main results

* `absorb_append`: a message in two parts.
* `feed_eq`: a message fed element by element.
-/

namespace IteratedHash

variable {α H : Type} (compress : H → List α → H) (n : ℕ)

/-- The hash of the full blocks of a message, and what is left. -/
def absorb (h : H) (as : List α) : H × List α :=
  if _hn : n = 0 ∨ as.length < n then (h, as) else absorb (compress h (as.take n)) (as.drop n)
termination_by as.length
decreasing_by
  simp only [List.length_drop]
  omega

variable {compress n} {as : List α}

theorem absorb_of_lt {h : H} (has : as.length < n) : absorb compress n h as = (h, as) := by
  rw [absorb, dif_pos (.inr has)]

variable (compress) in
/-- A block. -/
theorem absorb_block (hn : 0 < n) (h : H) (has : as.length = n) (bs : List α) :
    absorb compress n h (as ++ bs) = absorb compress n (compress h as) bs := by
  rw [absorb, dif_neg (by rw [List.length_append]; omega), List.take_left' has, List.drop_left' has]

variable (compress) in
theorem length_absorb_lt (hn : 0 < n) (h : H) (as : List α) :
    (absorb compress n h as).2.length < n := by
  fun_induction absorb compress n h as with
  | case1 h as hlt => exact hlt.resolve_left (Nat.ne_of_gt hn)
  | case2 h as hge ih => exact ih

/-- **A message in two parts.** -/
theorem absorb_append (hn : 0 < n) (h : H) (as bs : List α) :
    absorb compress n h (as ++ bs) =
      absorb compress n (absorb compress n h as).1 ((absorb compress n h as).2 ++ bs) := by
  fun_induction absorb compress n h as with
  | case1 h as hlt => rfl
  | case2 h as hge ih =>
    have hlen : (as.take n).length = n := by
      rw [List.length_take]
      omega
    rw [← ih, ← absorb_block compress hn h hlen, ← List.append_assoc, List.take_append_drop]

variable (compress) in
/-- The length of what is left. -/
theorem length_absorb (hn : 0 < n) (h : H) (as : List α) :
    (absorb compress n h as).2.length = as.length % n := by
  fun_induction absorb compress n h as with
  | case1 h as hlt => exact (Nat.mod_eq_of_lt (hlt.resolve_left (Nat.ne_of_gt hn))).symm
  | case2 h as hge ih => rw [ih, List.length_drop, ← Nat.mod_eq_sub_mod (by omega)]

variable (compress n)

/-- One element more. -/
def feed (s : H × List α) (a : α) : H × List α :=
  if s.2.length + 1 = n then (compress s.1 (s.2 ++ [a]), []) else (s.1, s.2 ++ [a])

variable {compress n}

theorem feed_eq (hn : 0 < n) (h : H) (as : List α) (a : α) :
    feed compress n (absorb compress n h as) a = absorb compress n h (as ++ [a]) := by
  have hlt := length_absorb_lt compress hn h as
  rw [absorb_append hn, feed]
  generalize absorb compress n h as = s at hlt
  split
  · next hfull =>
    rw [← List.append_nil (s.2 ++ [a]), absorb_block compress hn s.1 (by simpa using hfull),
      absorb_of_lt (by simpa using hn), List.append_nil]
  · next hrest =>
    rw [absorb_of_lt]
    simp only [List.length_append, List.length_singleton]
    omega

end IteratedHash
