import Mathlib.Data.List.Basic

/-!
# Line Breaks

A text of which every line is full before the next one begins, and texts that hold the characters of
another one with separators in front of them: anywhere but at the end.

## Main results

* `spaced_wrapped`: the lines hold the characters of the text.
* `length_wrapped`: how long the text with its line breaks is.
-/

namespace LineBreaks

variable {α : Type*} {sep : α → Prop} {nl c : α} {cs t : List α} {len pos : ℕ}

/-- The text `t` holds the characters `cs`, none of which is a separator, each behind any number of
separators. -/
inductive Spaced (sep : α → Prop) : List α → List α → Prop
  | nil : Spaced sep [] []
  | cons (br : List α) {cs t : List α} {c : α} (hbr : ∀ x ∈ br, sep x) (hc : ¬ sep c)
      (h : Spaced sep cs t) : Spaced sep (c :: cs) (br ++ c :: t)

/-- A text without separators holds its own characters. -/
theorem Spaced.refl (h : ∀ c ∈ cs, ¬ sep c) : Spaced sep cs cs := by
  induction cs with
  | nil => exact .nil
  | cons c cs ih =>
    rw [List.forall_mem_cons] at h
    exact .cons [] (List.forall_mem_nil _) h.1 (ih h.2)

/-- The next character, behind its separators. -/
theorem Spaced.uncons (h : Spaced sep (c :: cs) t) :
    ∃ br t', t = br ++ c :: t' ∧ (∀ x ∈ br, sep x) ∧ ¬ sep c ∧ Spaced sep cs t' := by
  cases h with
  | cons br hbr hc h => exact ⟨br, _, rfl, hbr, hc, h⟩

theorem Spaced.eq_nil (h : Spaced sep [] t) : t = [] := by
  cases h
  rfl

theorem Spaced.length_le (h : Spaced sep cs t) : cs.length ≤ t.length := by
  induction h with
  | nil => exact Nat.le_refl _
  | cons br hbr hc h ih =>
    rw [List.length_append, List.length_cons, List.length_cons]
    omega

/-- The text in lines of `len` characters, with a line break between any two of them; `pos`
characters are already in the first one. -/
def wrapped (nl : α) (len : ℕ) : ℕ → List α → List α
  | _, [] => []
  | pos, c :: cs =>
      if pos = len then nl :: c :: wrapped nl len 1 cs else c :: wrapped nl len (pos + 1) cs

theorem spaced_wrapped (hnl : sep nl) (h : ∀ c ∈ cs, ¬ sep c) :
    Spaced sep cs (wrapped nl len pos cs) := by
  induction cs generalizing pos with
  | nil => exact .nil
  | cons c cs ih =>
    rw [List.forall_mem_cons] at h
    rw [wrapped]
    split
    · exact .cons [nl] (List.forall_mem_singleton.mpr hnl) h.1 (ih h.2)
    · exact .cons [] (List.forall_mem_nil _) h.1 (ih h.2)

/-- What is in the text in lines was there, or is a line break. -/
theorem forall_wrapped {p : α → Prop} (hnl : p nl) (h : ∀ c ∈ cs, p c) :
    ∀ c ∈ wrapped nl len pos cs, p c := by
  induction cs generalizing pos with
  | nil => exact List.forall_mem_nil _
  | cons c cs ih =>
    rw [List.forall_mem_cons] at h
    rw [wrapped]
    split
    · exact List.forall_mem_cons.mpr ⟨hnl, List.forall_mem_cons.mpr ⟨h.1, ih h.2⟩⟩
    · exact List.forall_mem_cons.mpr ⟨h.1, ih h.2⟩

/-- There is a break after every `len` characters, but none at the end. -/
theorem length_wrapped (hlen : 0 < len) (hpos : pos ≤ len) :
    (wrapped nl len pos cs).length = cs.length + (pos + cs.length - 1) / len := by
  induction cs generalizing pos with
  | nil =>
    have hzero : (pos - 1) / len = 0 := Nat.div_eq_of_lt (by omega)
    simp [wrapped, hzero]
  | cons c cs ih =>
    rw [wrapped]
    split
    · have hnext : (pos + (cs.length + 1) - 1) / len = cs.length / len + 1 := by
        rw [show pos + (cs.length + 1) - 1 = cs.length + len by omega,
          Nat.add_div_right _ hlen]
      simp only [List.length_cons, ih (Nat.succ_le_of_lt hlen), hnext, Nat.add_sub_cancel_left]
      omega
    · simp only [List.length_cons, @ih (pos + 1) (by omega)]
      rw [show pos + 1 + cs.length - 1 = pos + (cs.length + 1) - 1 by omega]
      omega

end LineBreaks
