import Mathlib.Algebra.BigOperators.Group.List.Basic
import Mathlib.Algebra.Group.Basic
import Mathlib.Data.List.GetD
import Mathlib.Logic.Function.Basic
import Mathlib.Tactic.Abel

/-!
# Rings that Keep the Latest Values

A ring of `n` cells with a cursor on the oldest one: `Holds n cells cursor h` says that the ring
holds the latest `n` values of the history `h`, newest first, and the default where the history
is shorter. The sum over the latest values follows from what a push overwrites.

## Main results

* `Holds.push`: overwriting the cell under the cursor and moving on.
* `Holds.oldest`: the cell under the cursor holds the value that leaves.
* `sum_take_cons`: the sum of the latest values after a push.
-/

namespace RingHistory

variable {K : Type*}

/-- The ring holds the latest values of the history `h`, and its cursor is on the oldest. -/
def Holds [Zero K] (n : ℕ) (cells : ℕ → K) (cursor : ℕ) (h : List K) : Prop :=
  cursor = h.length % n ∧ ∀ j < n, cells ((cursor + (n - 1 - j)) % n) = h.getD j 0

section Cells

variable [Zero K] {n : ℕ} {cells : ℕ → K} {cursor : ℕ} {h : List K}

/-- A ring of defaults holds nothing. -/
theorem Holds.empty (hn : 0 < n) (hcells : ∀ i < n, cells i = 0) : Holds n cells 0 [] :=
  ⟨(Nat.zero_mod n).symm, fun _ _ => by simpa using hcells _ (Nat.mod_lt _ hn)⟩

theorem Holds.cursor_lt (hh : Holds n cells cursor h) (hn : 0 < n) : cursor < n :=
  hh.1 ▸ Nat.mod_lt _ hn

/-- The cell under the cursor holds the value that leaves. -/
theorem Holds.oldest (hh : Holds n cells cursor h) (hn : 0 < n) :
    cells cursor = h.getD (n - 1) 0 := by
  have hcell := hh.2 (n - 1) (by omega)
  rwa [Nat.sub_self, Nat.add_zero, Nat.mod_eq_of_lt (hh.cursor_lt hn)] at hcell

/-- **A push**: the cell under the cursor takes the value, and the cursor moves on. -/
theorem Holds.push (hh : Holds n cells cursor h) (hn : 0 < n) (v : K) :
    Holds n (Function.update cells cursor v) (if cursor + 1 ≥ n then 0 else cursor + 1)
      (v :: h) := by
  have hlt : cursor < n := hh.cursor_lt hn
  have hnext : (if cursor + 1 ≥ n then 0 else cursor + 1) = (cursor + 1) % n := by
    split
    · rw [show cursor + 1 = n by omega, Nat.mod_self]
    · rw [Nat.mod_eq_of_lt (by omega)]
  rw [hnext]
  refine ⟨by rw [hh.1, List.length_cons, Nat.mod_add_mod], fun j hj => ?_⟩
  -- the cells behind the new cursor are those behind the old one, moved by one place
  have hcell : ((cursor + 1) % n + (n - 1 - j)) % n = (cursor + (n - j)) % n := by
    rw [Nat.mod_add_mod]
    congr 1
    omega
  rw [hcell]
  cases j with
  | zero =>
      rw [Nat.sub_zero, Nat.add_mod_right, Nat.mod_eq_of_lt hlt, Function.update_self]
      rfl
  | succ j =>
      have hother : (cursor + (n - (j + 1))) % n ≠ cursor := by
        by_cases hwrap : cursor + (n - (j + 1)) < n
        · rw [Nat.mod_eq_of_lt hwrap]
          omega
        · rw [Nat.mod_eq_sub_mod (by omega), Nat.mod_eq_of_lt (by omega)]
          omega
      rw [Function.update_of_ne hother, List.getD_cons_succ, ← hh.2 j (by omega)]
      congr 2
      omega

end Cells

/-- **The sum of the latest values after a push**: what leaves goes, what comes is added. -/
theorem sum_take_cons [AddCommGroup K] (n : ℕ) (v : K) (h : List K) :
    ((v :: h).take (n + 1)).sum = (h.take (n + 1)).sum - h.getD n 0 + v := by
  have hsplit : (h.take (n + 1)).sum = (h.take n).sum + h.getD n 0 := by
    by_cases hn : n < h.length
    · rw [List.sum_take_succ h n hn, List.getD_eq_getElem _ _ hn]
    · rw [List.take_of_length_le (by omega), List.take_of_length_le (by omega),
        List.getD_eq_default _ _ (by omega), add_zero]
  rw [List.take_succ_cons, List.sum_cons, hsplit]
  abel

end RingHistory
