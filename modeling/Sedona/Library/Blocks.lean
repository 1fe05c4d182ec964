import Mathlib.Algebra.Order.Ring.Int
import Mathlib.Tactic.Linarith

/-!
# Blocks in a Range of Offsets

Objects with an offset and a size that are laid out in a range, no two of which overlap, and the
rounding of an offset to a multiple of an alignment.

## Main results

* `Blocks.union`: ranges that follow one another.
* `dvd_alignUp`, `le_alignUp`, `alignUp_le`: the next multiple.
-/

namespace Blocks

variable {α : Type} {offset size offset' size' : α → ℤ} {lo mid hi : ℤ} {p q : α → Prop}

/-- Two objects do not overlap. -/
def Apart (offset size : α → ℤ) (a b : α) : Prop :=
  offset a + size a ≤ offset b ∨ offset b + size b ≤ offset a

theorem Apart.symm {a b : α} (h : Apart offset size a b) : Apart offset size b a := Or.symm h

/-- The objects of `p` lie between `lo` and `hi`, no two of them overlapping. -/
structure Segment (offset size : α → ℤ) (lo hi : ℤ) (p : α → Prop) : Prop where
  le : lo ≤ hi
  within {a : α} (h : p a) : lo ≤ offset a ∧ offset a + size a ≤ hi
  apart {a b : α} (ha : p a) (hb : p b) (hne : a ≠ b) : Apart offset size a b

namespace Segment

/-- No object. -/
theorem empty (h : lo ≤ hi) (hp : ∀ a, ¬p a) : Segment offset size lo hi p where
  le := h
  within ha := absurd ha (hp _)
  apart ha := absurd ha (hp _)

/-- One object at the start of the range. -/
theorem single (a : α) (hoff : offset a = lo) (hsize : 0 ≤ size a) (hhi : lo + size a ≤ hi) :
    Segment offset size lo hi (· = a) where
  le := by omega
  within := by
    rintro _ rfl
    omega
  apart := by
    rintro _ _ rfl rfl hne
    exact absurd rfl hne

/-- Two ranges that follow one another. -/
theorem union (h : Segment offset size lo mid p) (h' : Segment offset size mid hi q) :
    Segment offset size lo hi fun a => p a ∨ q a where
  le := h.le.trans h'.le
  within := by
    have := h.le
    have := h'.le
    rintro a (ha | ha)
    · have := h.within ha
      omega
    · have := h'.within ha
      omega
  apart := by
    rintro a b (ha | ha) (hb | hb) hne
    · exact h.apart ha hb hne
    · exact .inl ((h.within ha).2.trans (h'.within hb).1)
    · exact .inr ((h.within hb).2.trans (h'.within ha).1)
    · exact h'.apart ha hb hne

/-- What holds of more objects, and of those that are laid out alike. -/
theorem mono (h : Segment offset size lo hi p) (hq : ∀ a, q a → p a)
    (hoff : ∀ a, q a → offset' a = offset a) (hsize : ∀ a, q a → size' a = size a) :
    Segment offset' size' lo hi q where
  le := h.le
  within ha := by
    rw [hoff _ ha, hsize _ ha]
    exact h.within (hq _ ha)
  apart ha hb hne := by
    rw [Apart, hoff _ ha, hsize _ ha, hoff _ hb, hsize _ hb]
    exact h.apart (hq _ ha) (hq _ hb) hne

theorem of_imp (h : Segment offset size lo hi p) (hq : ∀ a, q a → p a) :
    Segment offset size lo hi q :=
  h.mono hq (fun _ _ => rfl) fun _ _ => rfl

theorem widen (h : Segment offset size lo mid p) (hhi : mid ≤ hi) :
    Segment offset size lo hi p where
  le := h.le.trans hhi
  within ha := ⟨(h.within ha).1, (h.within ha).2.trans hhi⟩
  apart := h.apart

end Segment

/-! ### Alignment -/

/-- The next multiple of `n`. -/
def alignUp (n off : ℤ) : ℤ := off + -off % n

variable {n off : ℤ}

theorem dvd_alignUp (n off : ℤ) : n ∣ alignUp n off := by
  have h : alignUp n off = -(n * (-off / n)) := by
    have := Int.emod_add_mul_ediv (-off) n
    unfold alignUp
    linarith
  rw [h, Int.dvd_neg]
  exact Dvd.intro _ rfl

theorem le_alignUp (hn : 0 < n) (off : ℤ) : off ≤ alignUp n off :=
  le_add_of_nonneg_right (Int.emod_nonneg _ hn.ne')

theorem alignUp_lt (hn : 0 < n) (off : ℤ) : alignUp n off < off + n :=
  Int.add_lt_add_left (Int.emod_lt_of_pos _ hn) _

theorem alignUp_eq (h : n ∣ off) : alignUp n off = off := by
  rw [alignUp, Int.emod_eq_zero_of_dvd (Int.dvd_neg.mpr h), add_zero]

/-- A multiple of the alignment in front does not matter. -/
theorem alignUp_add (h : n ∣ off) (k : ℤ) : alignUp n (off + k) = off + alignUp n k := by
  obtain ⟨m, rfl⟩ := h
  rw [alignUp, alignUp, neg_add, ← mul_neg, Int.mul_add_emod_self_left, add_assoc]

theorem alignUp_le (hn : 0 < n) {m : ℤ} (hm : n ∣ m) (h : off ≤ m) : alignUp n off ≤ m := by
  obtain ⟨k, hk⟩ := dvd_alignUp n off
  obtain ⟨j, rfl⟩ := hm
  have hlt := alignUp_lt hn off
  rw [hk] at hlt ⊢
  have hkj : n * k < n * (j + 1) := by linarith
  have := lt_of_mul_lt_mul_left hkj hn.le
  exact mul_le_mul_of_nonneg_left (by omega) hn.le

end Blocks
