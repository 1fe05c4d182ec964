import Mathlib.Algebra.Order.Field.Basic
import Mathlib.Data.Fin.SuccPred
import Mathlib.Order.Fin.Basic
import Mathlib.Order.Interval.Set.UnorderedInterval
import Mathlib.Tactic.FieldSimp
import Mathlib.Tactic.Ring
import Mathlib.Tactic.LinearCombination

/-!
# Piecewise Linear Curves

The curve through a table of points over an ordered field, as the relation between an
abscissa and an ordinate, and the chains of tests that programs find a segment with.

## Main results

* `OnCurve.unique`: through a table with strictly monotone abscissae there is at most one value
  at each place, shared end points included.
* `exists_onCurve`: there is one everywhere between the two ends.
* `onCurve_point`: at a point of the table the curve has the table's value.
* `cascade_eq_some`: a chain of tests in which every test that fires brings the same value ends
  with it.
-/

namespace PiecewiseLinear

variable {K : Type*} [Field K]

/-- The line through `(x₁, y₁)` and `(x₂, y₂)` at `t`. -/
def lineAt (x₁ y₁ x₂ y₂ t : K) : K := (y₂ - y₁) / (x₂ - x₁) * (t - x₁) + y₁

@[simp] theorem lineAt_left (x₁ y₁ x₂ y₂ : K) : lineAt x₁ y₁ x₂ y₂ x₁ = y₁ := by
  simp [lineAt]

theorem lineAt_right {x₁ x₂ : K} (y₁ y₂ : K) (h : x₁ ≠ x₂) : lineAt x₁ y₁ x₂ y₂ x₂ = y₂ := by
  have hne : x₂ - x₁ ≠ 0 := sub_ne_zero.mpr h.symm
  rw [lineAt, div_mul_cancel₀ _ hne]
  ring

/-- Away from the second point, the ordinate of the first decides the line's value. -/
theorem lineAt_left_inj {x₁ x₂ y₂ t a b : K} (hx : x₁ ≠ x₂) (ht : t ≠ x₂)
    (h : lineAt x₁ a x₂ y₂ t = lineAt x₁ b x₂ y₂ t) : a = b := by
  have hne : x₂ - x₁ ≠ 0 := sub_ne_zero.mpr hx.symm
  have hprod : (a - b) * (x₂ - t) = 0 := by
    simp only [lineAt] at h
    field_simp at h
    linear_combination h
  rcases mul_eq_zero.mp hprod with hab | hend
  · exact sub_eq_zero.mp hab
  · exact absurd (sub_eq_zero.mp hend).symm ht

variable [LinearOrder K] {n : ℕ}

/-- `v` is the value at `t` of the curve through the points `(x i, y i)`. -/
def OnCurve (x y : Fin (n + 1) → K) (t v : K) : Prop :=
  ∃ i : Fin n, t ∈ Set.uIcc (x i.castSucc) (x i.succ) ∧
    v = lineAt (x i.castSucc) (y i.castSucc) (x i.succ) (y i.succ) t

/-- The abscissae grow all along the table, or fall all along it. -/
def Sorted (x : Fin (n + 1) → K) : Prop := StrictMono x ∨ StrictAnti x

omit [Field K] in
/-- Two segments of a sorted table that share a place are the same one or neighbours, and then
the place is their common end. -/
theorem Sorted.shared {x : Fin (n + 1) → K} (hx : Sorted x) {i j : Fin n} (hij : i < j) {t : K}
    (hi : t ∈ Set.uIcc (x i.castSucc) (x i.succ))
    (hj : t ∈ Set.uIcc (x j.castSucc) (x j.succ)) : i.succ = j.castSucc ∧ t = x i.succ := by
  have hle : i.succ ≤ j.castSucc := by
    rw [Fin.le_def, Fin.val_succ, Fin.val_castSucc]
    exact hij
  rcases hx with hmono | hanti
  · rw [Set.uIcc_of_le (hmono.monotone i.castSucc_lt_succ.le)] at hi
    rw [Set.uIcc_of_le (hmono.monotone j.castSucc_lt_succ.le)] at hj
    have heq : x i.succ = x j.castSucc :=
      le_antisymm (hmono.monotone hle) (hj.1.trans hi.2)
    exact ⟨hmono.injective heq, le_antisymm hi.2 (heq ▸ hj.1)⟩
  · rw [Set.uIcc_of_ge (hanti.antitone i.castSucc_lt_succ.le)] at hi
    rw [Set.uIcc_of_ge (hanti.antitone j.castSucc_lt_succ.le)] at hj
    have heq : x i.succ = x j.castSucc :=
      le_antisymm (hi.1.trans hj.2) (hanti.antitone hle)
    exact ⟨hanti.injective heq, le_antisymm (heq ▸ hj.2) hi.1⟩

omit [Field K] in
theorem Sorted.injective {x : Fin (n + 1) → K} (hx : Sorted x) : Function.Injective x :=
  hx.elim StrictMono.injective StrictAnti.injective

/-- On a segment and on a later one the curve has the same value. -/
theorem Sorted.agree {x : Fin (n + 1) → K} (hx : Sorted x) (y : Fin (n + 1) → K) {i j : Fin n}
    (hij : i < j) {t : K} (hi : t ∈ Set.uIcc (x i.castSucc) (x i.succ))
    (hj : t ∈ Set.uIcc (x j.castSucc) (x j.succ)) :
    lineAt (x i.castSucc) (y i.castSucc) (x i.succ) (y i.succ) t =
      lineAt (x j.castSucc) (y j.castSucc) (x j.succ) (y j.succ) t := by
  obtain ⟨hend, rfl⟩ := hx.shared hij hi hj
  have hne : x i.castSucc ≠ x i.succ := fun h => i.castSucc_lt_succ.ne (hx.injective h)
  rw [lineAt_right _ _ hne, hend, lineAt_left]

/-- **The curve is a function**: at most one value at each place. -/
theorem OnCurve.unique {x y : Fin (n + 1) → K} (hx : Sorted x) {t v w : K}
    (hv : OnCurve x y t v) (hw : OnCurve x y t w) : v = w := by
  obtain ⟨i, hi, rfl⟩ := hv
  obtain ⟨j, hj, rfl⟩ := hw
  rcases lt_trichotomy i j with hij | rfl | hji
  · exact hx.agree y hij hi hj
  · rfl
  · exact (hx.agree y hji hj hi).symm

/-- The place of a value lies between the two ends of the table. -/
theorem OnCurve.mem_range {x y : Fin (n + 1) → K} (hx : Sorted x) {t v : K}
    (h : OnCurve x y t v) : t ∈ Set.uIcc (x 0) (x (Fin.last n)) := by
  obtain ⟨i, hi, -⟩ := h
  rcases hx with hmono | hanti
  · rw [Set.uIcc_of_le (hmono.monotone i.castSucc_lt_succ.le)] at hi
    rw [Set.uIcc_of_le (hmono.monotone (Fin.zero_le _))]
    exact ⟨(hmono.monotone (Fin.zero_le _)).trans hi.1,
      hi.2.trans (hmono.monotone (Fin.le_last _))⟩
  · rw [Set.uIcc_of_ge (hanti.antitone i.castSucc_lt_succ.le)] at hi
    rw [Set.uIcc_of_ge (hanti.antitone (Fin.zero_le _))]
    exact ⟨(hanti.antitone (Fin.le_last _)).trans hi.1,
      hi.2.trans (hanti.antitone (Fin.zero_le _))⟩

/-- A property of the first place and not of the last is lost from some place to the next. -/
theorem crossing {P : Fin (n + 1) → Prop} (hfirst : P 0) (hlast : ¬ P (Fin.last n)) :
    ∃ i : Fin n, P i.castSucc ∧ ¬ P i.succ := by
  by_contra hnone
  push Not at hnone
  exact hlast (Fin.induction hfirst (fun i hi => hnone i hi) (Fin.last n))

omit [Field K] in
/-- Every place between two ends lies in a segment, however the abscissae run between them. -/
theorem exists_segment (x : Fin (n + 2) → K) {t : K}
    (ht : t ∈ Set.uIcc (x 0) (x (Fin.last (n + 1)))) :
    ∃ i : Fin (n + 1), t ∈ Set.uIcc (x i.castSucc) (x i.succ) := by
  by_cases hend : t = x 0
  · exact ⟨0, hend ▸ Set.left_mem_uIcc⟩
  · rcases Set.mem_uIcc.mp ht with ⟨hleft, hright⟩ | ⟨hright, hleft⟩
    · obtain ⟨i, hbelow, habove⟩ := crossing (P := fun j => x j < t)
        (lt_of_le_of_ne hleft (Ne.symm hend)) (not_lt.mpr hright)
      exact ⟨i, Set.mem_uIcc_of_le hbelow.le (not_lt.mp habove)⟩
    · obtain ⟨i, habove, hbelow⟩ := crossing (P := fun j => t < x j)
        (lt_of_le_of_ne hleft hend) (not_lt.mpr hright)
      exact ⟨i, Set.mem_uIcc_of_ge (not_lt.mp hbelow) habove.le⟩

/-- **The curve has a value everywhere between its ends.** -/
theorem exists_onCurve (x y : Fin (n + 2) → K) {t : K}
    (ht : t ∈ Set.uIcc (x 0) (x (Fin.last (n + 1)))) : ∃ v, OnCurve x y t v := by
  obtain ⟨i, hi⟩ := exists_segment x ht
  exact ⟨_, i, hi, rfl⟩

/-- **At a point of the table the curve has the table's value.** -/
theorem onCurve_point {x : Fin (n + 2) → K} (hx : Sorted x) (y : Fin (n + 2) → K)
    (i : Fin (n + 2)) : OnCurve x y (x i) (y i) := by
  obtain ⟨j, rfl⟩ | rfl := i.eq_castSucc_or_eq_last
  · exact ⟨j, Set.left_mem_uIcc, (lineAt_left _ _ _ _).symm⟩
  · have hne : x (Fin.last n).castSucc ≠ x (Fin.last n).succ :=
      fun h => (Fin.last n).castSucc_lt_succ.ne (hx.injective h)
    exact ⟨Fin.last n, Set.right_mem_uIcc, (lineAt_right _ _ hne).symm⟩

/-! ### Chains of tests -/

/-- A chain of tests in the order of a program: each that fires overwrites the value. -/
def cascade {α : Type*} (start : α) (tests : List (Bool × α)) : α :=
  tests.foldl (fun v test => if test.1 then test.2 else v) start

/-- A chain in which no test fires keeps the value it started with. -/
theorem cascade_eq_start {α : Type*} {start : α} {tests : List (Bool × α)}
    (h : ∀ test ∈ tests, test.1 = false) : cascade start tests = start := by
  induction tests generalizing start with
  | nil => rfl
  | cons test tests ih =>
      have hhead : test.1 = false := h test List.mem_cons_self
      have htail : cascade start tests = start :=
        ih fun t ht => h t (List.mem_cons_of_mem _ ht)
      simpa [cascade, hhead] using htail

/-- **A chain in which every test that fires brings the same value ends with it**, when one
does fire. -/
theorem cascade_eq_some {α : Type*} {start v : α} {tests : List (Bool × α)}
    (hagree : ∀ test ∈ tests, test.1 = true → test.2 = v)
    (hfires : start = v ∨ ∃ test ∈ tests, test.1 = true) : cascade start tests = v := by
  induction tests generalizing start with
  | nil => simpa [cascade] using hfires
  | cons test tests ih =>
      have htail := fun t ht => hagree t (List.mem_cons_of_mem _ ht)
      rw [cascade, List.foldl_cons]
      refine ih htail ?_
      by_cases hhead : test.1 = true
      · exact Or.inl (by rw [if_pos hhead]; exact hagree test List.mem_cons_self hhead)
      · rw [if_neg hhead]
        refine hfires.imp_right ?_
        rintro ⟨t, ht, hfire⟩
        refine ⟨t, ?_, hfire⟩
        rcases List.mem_cons.mp ht with rfl | hmem
        · exact absurd hfire hhead
        · exact hmem

end PiecewiseLinear
