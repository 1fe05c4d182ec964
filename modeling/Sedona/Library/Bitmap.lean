import Mathlib.Data.BitVec

/-!
# Bit Sets in a Machine Word

A word of `w` bits read as the set of its one-bits. The lemmas turn the masks programs
build with a shifted one into statements about single bits.
-/

namespace Bitmap

variable {w : ℕ}

/-- The word `1 << k` has exactly bit `k` set. -/
theorem getLsbD_one_shiftLeft {k : ℕ} (hk : k < w) (i : ℕ) :
    (1#w <<< k).getLsbD i = decide (i = k) := by
  simp only [BitVec.getLsbD_shiftLeft, BitVec.getLsbD_one]
  by_cases h : i = k
  · subst h
    simp [hk]
    omega
  · by_cases hlt : i < k
    · simp [hlt, h]
    · simp only [hlt, h, decide_false, Bool.not_false, Bool.and_true]
      have : i - k ≠ 0 := by omega
      simp [this]

/-- Masking with `1 << k` tests bit `k`. -/
theorem and_one_shiftLeft_ne_zero_iff (m : BitVec w) {k : ℕ} (hk : k < w) :
    m &&& (1#w <<< k) ≠ 0#w ↔ m.getLsbD k = true := by
  constructor
  · intro h
    by_contra hb
    apply h
    apply BitVec.eq_of_getLsbD_eq
    intro i _
    rw [BitVec.getLsbD_and, getLsbD_one_shiftLeft hk]
    by_cases hik : i = k
    · subst hik
      simp [hb]
    · simp [hik]
  · intro h h0
    have hbit : (m &&& (1#w <<< k)).getLsbD k = false := by
      rw [h0]
      simp
    rw [BitVec.getLsbD_and, getLsbD_one_shiftLeft hk, h] at hbit
    simp at hbit

/-- Or-ing with `1 << k` adds bit `k`. -/
theorem getLsbD_or_one_shiftLeft (m : BitVec w) {k : ℕ} (hk : k < w) (i : ℕ) :
    (m ||| (1#w <<< k)).getLsbD i = (m.getLsbD i || decide (i = k)) := by
  rw [BitVec.getLsbD_or, getLsbD_one_shiftLeft hk]

end Bitmap
