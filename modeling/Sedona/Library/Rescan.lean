import Mathlib.Data.List.Basic
import Mathlib.Data.List.Induction

/-!
# Scans That Start Again

A scan reads the values that have arrived and marks, in place, the separators that it finds. When
the values run out it fails, and is started again from the beginning once more have arrived, over
what it has left behind. A marked separator counts as any separator.

## Main results

* `Resumes`: a scan that has failed and is started again ends as it would have on all values at
  once; `resumes_token`, `resumes_expect` and `resumes_branch` build such scans.
* `Extends`: what follows does not change the result.
* `Resumes.runs`: any number of failed attempts leaves no trace in the result.
-/

namespace Rescan

variable {α β ε : Type}

/-- A scan: its result or how far it has come, and what it leaves of the values. -/
abbrev Scan (α β ε : Type) := List β → Except ε α × List β

/-- Starting again after a failure is the same as starting late. -/
def Resumes (f : Scan α β ε) : Prop :=
  ∀ s t e, (f s).1 = .error e → f ((f s).2 ++ t) = f (s ++ t)

/-- The result depends on no more than what has been scanned. -/
def Extends (f : Scan α β ε) : Prop :=
  ∀ s t a, (f s).1 = .ok a → (f (s ++ t)).1 = .ok a

theorem extends_ok (a : α) : Extends (fun s => (.ok a, s) : Scan α β ε) :=
  fun _ _ _ h => h

theorem resumes_ok (a : α) : Resumes (fun s => (.ok a, s) : Scan α β ε) := by
  rintro s t e h
  cases h

theorem resumes_error (e : ε) : Resumes (fun s => (.error e, s) : Scan α β ε) :=
  fun _ _ _ _ => rfl

theorem extends_error (e : ε) : Extends (fun s => (.error e, s) : Scan α β ε) := by
  rintro s t a h
  cases h

/-! ### Tokens -/

section

variable [DecidableEq β] (mark : β)

/-- The values up to the first separator or mark, and those behind it. -/
def cut (sep : β) : List β → Option (List β × List β)
  | [] => none
  | c :: s =>
      if c = sep ∨ c = mark then some ([], s) else (cut sep s).map fun r => (c :: r.1, r.2)

variable {mark} {sep c : β} {s t r : List β}

theorem cut_append (u : List β) (h : cut mark sep s = some (t, r)) :
    cut mark sep (s ++ u) = some (t, r ++ u) := by
  induction s generalizing t with
  | nil => cases h
  | cons x s ih =>
      rw [List.cons_append, cut]
      rw [cut] at h
      split
      · rw [if_pos ‹_›] at h
        cases h
        rfl
      · rw [if_neg ‹_›] at h
        obtain ⟨⟨t', r'⟩, hcut, heq⟩ := Option.map_eq_some_iff.mp h
        cases heq
        rw [ih hcut]
        rfl

/-- Nothing in a token is a separator. -/
theorem not_sep_of_cut (h : cut mark sep s = some (t, r)) : ∀ x ∈ t, x ≠ sep ∧ x ≠ mark := by
  induction s generalizing t with
  | nil => cases h
  | cons x s ih =>
      rw [cut] at h
      split at h
      · cases h
        exact fun x hx => absurd hx List.not_mem_nil
      · rename_i hx
        obtain ⟨⟨t', r'⟩, hcut, heq⟩ := Option.map_eq_some_iff.mp h
        cases heq
        intro y hy
        obtain rfl | hy := List.mem_cons.mp hy
        · exact not_or.mp hx
        · exact ih hcut y hy

theorem cut_eq (ht : ∀ x ∈ t, x ≠ sep ∧ x ≠ mark) (hc : c = sep ∨ c = mark) :
    cut mark sep (t ++ c :: r) = some (t, r) := by
  induction t with
  | nil => rw [List.nil_append, cut, if_pos hc]
  | cons x t ih =>
      rw [List.cons_append, cut, if_neg (not_or.mpr (ht x List.mem_cons_self)),
        ih fun y hy => ht y (List.mem_cons_of_mem _ hy)]
      rfl

/-- **What is cut into a token and a rest.** -/
theorem cut_eq_some_iff : cut mark sep s = some (t, r) ↔
    ∃ c, (c = sep ∨ c = mark) ∧ s = t ++ c :: r ∧ ∀ x ∈ t, x ≠ sep ∧ x ≠ mark := by
  constructor
  · intro h
    have ht := not_sep_of_cut h
    induction s generalizing t with
    | nil => cases h
    | cons x s ih =>
        rw [cut] at h
        split at h
        · rename_i hx
          cases h
          exact ⟨x, hx, rfl, ht⟩
        · obtain ⟨⟨t', r'⟩, hcut, heq⟩ := Option.map_eq_some_iff.mp h
          cases heq
          obtain ⟨c, hc, rfl, -⟩ := ih hcut (not_sep_of_cut hcut)
          exact ⟨c, hc, rfl, ht⟩
  · rintro ⟨c, hc, rfl, ht⟩
    exact cut_eq ht hc

/-! ### Scans -/

variable (mark sep)

/-- A token, and what follows it. -/
def token (e : ε) (f : List β → Scan α β ε) : Scan α β ε := fun s =>
  match cut mark sep s with
  | none => (.error e, s)
  | some (t, r) => ((f t r).1, t ++ mark :: (f t r).2)

end

section

variable [DecidableEq β] (c : β) (e : ε)

/-- A certain value, and what follows it. -/
def expect (f : Scan α β ε) : Scan α β ε
  | [] => (.error e, [])
  | x :: s => if x = c then ((f s).1, x :: (f s).2) else (.error e, x :: s)

/-- One of two scans, after a look at the first value. -/
def branch (f g : Scan α β ε) : Scan α β ε
  | [] => (.error e, [])
  | x :: s => if x = c then f (x :: s) else g (x :: s)

end

section

variable [DecidableEq β] {mark sep c : β} {e : ε} {f g : Scan α β ε} {h : List β → Scan α β ε}

theorem extends_token (hh : ∀ t, Extends (h t)) : Extends (token mark sep e h) := by
  intro s u a ha
  rw [token] at ha ⊢
  cases hcut : cut mark sep s with
  | none =>
      rw [hcut] at ha
      cases ha
  | some p =>
      rw [hcut] at ha
      rw [cut_append u hcut]
      exact hh p.1 p.2 u a ha

theorem resumes_token (hh : ∀ t, Resumes (h t)) : Resumes (token mark sep e h) := by
  intro s u e' he
  cases hcut : cut mark sep s with
  | none => simp only [token, hcut]
  | some p =>
      obtain ⟨t, r⟩ := p
      simp only [token, hcut] at he
      have hagain := hh t r u e' he
      have hmarked : cut mark sep (t ++ mark :: ((h t r).2 ++ u)) = some (t, (h t r).2 ++ u) :=
        cut_eq (not_sep_of_cut hcut) (.inr rfl)
      simp only [token, hcut, cut_append u hcut, List.append_assoc, List.cons_append, hmarked,
        hagain]

theorem extends_expect (hf : Extends f) : Extends (expect c e f) := by
  intro s u a ha
  cases s with
  | nil => cases ha
  | cons x s =>
      rw [List.cons_append]
      rw [expect] at ha ⊢
      split at ha
      · rw [if_pos ‹_›]
        exact hf s u a ha
      · cases ha

theorem resumes_expect (hf : Resumes f) : Resumes (expect c e f) := by
  intro s u e' he
  cases s with
  | nil => rfl
  | cons x s =>
      by_cases hx : x = c
      · simp only [expect, hx, if_true] at he
        simp only [expect, hx, if_true, List.cons_append, hf s u e' he]
      · simp only [expect, hx, if_false, List.cons_append]

theorem extends_branch (hf : Extends f) (hg : Extends g) : Extends (branch c e f g) := by
  intro s u a ha
  cases s with
  | nil => cases ha
  | cons x s =>
      rw [List.cons_append]
      rw [branch] at ha ⊢
      split at ha
      · rw [if_pos ‹_›]
        exact hf (x :: s) u a ha
      · rw [if_neg ‹_›]
        exact hg (x :: s) u a ha

/-- The look at the first value is repeated: it must still lead to the same scan. -/
theorem resumes_branch (hf : Resumes f) (hg : Resumes g)
    (hkeep : ∀ s, ∃ s', (f (c :: s)).2 = c :: s')
    (hleave : ∀ x s, x ≠ c → ∃ y s', (g (x :: s)).2 = y :: s' ∧ y ≠ c) :
    Resumes (branch c e f g) := by
  intro s u e' he
  cases s with
  | nil => rfl
  | cons x s =>
      by_cases hx : x = c
      · subst hx
        simp only [branch, if_true] at he
        obtain ⟨s', hs'⟩ := hkeep s
        have hagain := hf (x :: s) u e' he
        rw [hs', List.cons_append, List.cons_append] at hagain
        simp only [branch, if_true, hs', List.cons_append, hagain]
      · simp only [branch, hx, if_false] at he
        obtain ⟨y, s', hs', hy⟩ := hleave x s hx
        have hagain := hg (x :: s) u e' he
        rw [hs', List.cons_append, List.cons_append] at hagain
        simp only [branch, hx, if_false, hs', List.cons_append, hy, hagain]

/-- A value that is expected is left as it is. -/
theorem expect_keeps (s : List β) : ∃ s', (expect c e f (c :: s)).2 = c :: s' := by
  simp only [expect, if_true]
  exact ⟨_, rfl⟩

/-- A token begins with its first value, or with a mark. -/
theorem token_leaves (hmark : mark ≠ c) {x : β} (hx : x ≠ c) (s : List β) :
    ∃ y s', (token mark sep e h (x :: s)).2 = y :: s' ∧ y ≠ c := by
  simp only [token]
  split
  · exact ⟨x, s, rfl, hx⟩
  · rename_i t r hcut
    obtain ⟨c', -, hs, -⟩ := cut_eq_some_iff.mp hcut
    cases t with
    | nil => exact ⟨mark, _, rfl, hmark⟩
    | cons y t =>
        obtain ⟨rfl, -⟩ := List.cons.inj hs
        exact ⟨x, _, rfl, hx⟩

end

/-! ### Attempts -/

/-- What is left of the pieces that have arrived, when there has been an attempt after each. -/
def left (f : Scan α β ε) (ps : List (List β)) : List β :=
  ps.foldl (fun l p => (f (l ++ p)).2) []

theorem left_concat (f : Scan α β ε) (ps : List (List β)) (p : List β) :
    left f (ps ++ [p]) = (f (left f ps ++ p)).2 := by
  rw [left, List.foldl_append]
  rfl

/-- **Attempts that fail leave no trace in the result.** -/
theorem Resumes.runs {f : Scan α β ε} (hf : Resumes f) {ps : List (List β)}
    (hfail : ∀ n ≤ ps.length, ∃ e, (f (ps.take n).flatten).1 = .error e) (t : List β) :
    f (left f ps ++ t) = f (ps.flatten ++ t) := by
  induction ps using List.reverseRecOn generalizing t with
  | nil => rfl
  | append_singleton ps p ih =>
      have hfail' : ∀ n ≤ ps.length, ∃ e, (f (ps.take n).flatten).1 = .error e := by
        intro n hn
        have := hfail n (by rw [List.length_append]; omega)
        rwa [List.take_append_of_le_length hn] at this
      obtain ⟨e, he⟩ := hfail (ps.length + 1) (by simp)
      rw [List.take_of_length_le (by simp), List.flatten_concat] at he
      rw [left_concat, hf _ t e (by rw [ih hfail' p]; exact he), List.append_assoc, ih hfail' (p ++ t),
        List.flatten_concat, List.append_assoc]

end Rescan
