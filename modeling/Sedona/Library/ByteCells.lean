import Mathlib.Data.List.Basic

/-!
# Cells in a Byte Buffer

Two-byte cells that are written into a buffer of bytes, at its end or over what is there.

## Main results

* `u2At_append`, `u2At_overwrite_of_disjoint`: what is written elsewhere leaves a cell alone.
* `u2At_append_u2Bytes`, `u2At_overwrite_u2Bytes`: a cell holds the low 16 bits of what was
  written to it.
-/

namespace ByteCells

abbrev Byte := BitVec 8

/-! ### Writing over bytes -/

/-- `bs` written over the bytes of `l` from `pos` on. -/
def overwrite (l : List Byte) (pos : ℕ) : List Byte → List Byte
  | [] => l
  | b :: bs => overwrite (l.set pos b) (pos + 1) bs

@[simp] theorem length_overwrite (l : List Byte) (pos : ℕ) (bs : List Byte) :
    (overwrite l pos bs).length = l.length := by
  induction bs generalizing l pos with
  | nil => rfl
  | cons b bs ih => rw [overwrite, ih, List.length_set]

/-- The bytes outside the range are left alone. -/
theorem getElem?_overwrite_of_disjoint {l bs : List Byte} {pos i : ℕ}
    (h : i < pos ∨ pos + bs.length ≤ i) : (overwrite l pos bs)[i]? = l[i]? := by
  induction bs generalizing l pos with
  | nil => rfl
  | cons b bs ih =>
    simp only [List.length_cons] at h
    rw [overwrite, ih (by omega), List.getElem?_set_ne (by omega)]

/-- The bytes inside the range are the written ones. -/
theorem getElem?_overwrite {l bs : List Byte} {pos i : ℕ} (hi : i < bs.length)
    (hpos : pos + bs.length ≤ l.length) : (overwrite l pos bs)[pos + i]? = bs[i]? := by
  induction bs generalizing l pos i with
  | nil => exact absurd hi (Nat.not_lt_zero _)
  | cons b bs ih =>
    simp only [List.length_cons] at hi hpos
    rw [overwrite]
    rcases i with _ | i
    · rw [getElem?_overwrite_of_disjoint (by omega), Nat.add_zero,
        List.getElem?_set_self (by omega), List.getElem?_cons_zero]
    · have h : (overwrite (l.set pos b) (pos + 1) bs)[pos + 1 + i]? = bs[i]? :=
        ih (by omega) (by rw [List.length_set]; omega)
      rw [List.getElem?_cons_succ, ← h, Nat.add_right_comm, Nat.add_assoc]

/-! ### Cells -/

/-- The two bytes of a cell, in the order of the byte order. -/
def u2Bytes (bigEndian : Bool) (v : BitVec 32) : List Byte :=
  if bigEndian then [(v >>> 8).truncate 8, v.truncate 8] else [v.truncate 8, (v >>> 8).truncate 8]

@[simp] theorem length_u2Bytes (big : Bool) (v : BitVec 32) : (u2Bytes big v).length = 2 := by
  cases big <;> rfl

/-- The value of two bytes. -/
def pairToNat (bigEndian : Bool) (b₀ b₁ : Byte) : ℕ :=
  if bigEndian then 256 * b₀.toNat + b₁.toNat else b₀.toNat + 256 * b₁.toNat

/-- The value of the cell at `pos`. -/
def u2At (bigEndian : Bool) (l : List Byte) (pos : ℕ) : ℕ :=
  pairToNat bigEndian (l[pos]?.getD 0#8) (l[pos + 1]?.getD 0#8)

variable {big : Bool} {l bs : List Byte} {pos off : ℕ}

theorem pairToNat_u2Bytes (big : Bool) (v : BitVec 32) :
    pairToNat big ((u2Bytes big v)[0]?.getD 0#8) ((u2Bytes big v)[1]?.getD 0#8) =
      v.toNat % 65536 := by
  have hv := v.isLt
  cases big <;>
    simp [pairToNat, u2Bytes, BitVec.toNat_ushiftRight, Nat.shiftRight_eq_div_pow] <;> omega

theorem u2At_congr {l' : List Byte} (h₀ : l'[off]? = l[off]?)
    (h₁ : l'[off + 1]? = l[off + 1]?) : u2At big l' off = u2At big l off := by
  rw [u2At, u2At, h₀, h₁]

theorem u2At_append (h : off + 2 ≤ l.length) : u2At big (l ++ bs) off = u2At big l off :=
  u2At_congr (List.getElem?_append_left (by omega)) (List.getElem?_append_left (by omega))

theorem u2At_append_u2Bytes (v : BitVec 32) :
    u2At big (l ++ u2Bytes big v) l.length = v.toNat % 65536 := by
  rw [← pairToNat_u2Bytes big v, u2At, List.getElem?_append_right (Nat.le_refl _),
    List.getElem?_append_right (Nat.le_add_right _ 1), Nat.sub_self, Nat.add_sub_cancel_left]

theorem u2At_overwrite_of_disjoint (h : off + 2 ≤ pos ∨ pos + bs.length ≤ off) :
    u2At big (overwrite l pos bs) off = u2At big l off :=
  u2At_congr (getElem?_overwrite_of_disjoint (by omega))
    (getElem?_overwrite_of_disjoint (by omega))

theorem u2At_overwrite_u2Bytes {v : BitVec 32} (h : off + 2 ≤ l.length) :
    u2At big (overwrite l off (u2Bytes big v)) off = v.toNat % 65536 := by
  have h₀ : (overwrite l off (u2Bytes big v))[off + 0]? = (u2Bytes big v)[0]? :=
    getElem?_overwrite (by simp) (by simpa using h)
  have h₁ : (overwrite l off (u2Bytes big v))[off + 1]? = (u2Bytes big v)[1]? :=
    getElem?_overwrite (by simp) (by simpa using h)
  rw [← pairToNat_u2Bytes big v, ← h₁, ← h₀, Nat.add_zero, u2At]

end ByteCells
