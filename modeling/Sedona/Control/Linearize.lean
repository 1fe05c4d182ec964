import Mathlib.Data.Rat.Defs
import Mathlib.Algebra.Order.Field.Rat
import Sedona.Library.PiecewiseLinear

/-!
# Linearize

`control::Linearize` interpolates a table of ten points `(x0, y0) .. (x9, y9)`: `execute` finds
the segment of the table that holds `in` with one chain of nine tests for a table that rises and
one for a table that falls, and `convert` computes the line of a segment there. Float arithmetic
is exact: the values are those of an ordered field, with `none` for the one value outside it that
the component uses, NaN, with which every comparison is false.

The chain of the falling table has two slips. Its test of the segment between `x6` and `x5` brings
the line from `(x5, y4)`, and no test of it holds at the end point `x9`.

## Main results

* `interpolates_iff`: `execute` leaves the value of the piecewise linear curve on `out` exactly
  when neither slip is met; `Interpolates.point`: such an output has the table's value at each of
  its points.
-/

namespace Sedona.Control

open PiecewiseLinear

variable {K : Type*}

/-- The slots of the component; `none` is NaN. -/
structure Linearize (K : Type*) where
  input : Option K
  x : Fin 10 → K
  y : Fin 10 → K
  out : Option K

namespace Linearize

/-- The value at `in` of the line through two points. -/
def convert [Field K] (l : Linearize K) (Y2 Y1 X2 X1 : K) : Option K :=
  let m := (Y2 - Y1) / (X2 - X1)
  let b := Y1 - m * X1
  l.input.map fun t => m * t + b

/-- `convert` computes the line through the two points it is given. -/
theorem convert_eq [Field K] {l : Linearize K} {t : K} (ht : l.input = some t) (Y2 Y1 X2 X1 : K) :
    l.convert Y2 Y1 X2 X1 = some (lineAt X1 Y1 X2 Y2 t) := by
  simp only [convert, ht, Option.map_some, lineAt]
  congr 1
  ring

variable [LinearOrder K]

/-- `in >= v`. -/
def ge (l : Linearize K) (v : K) : Bool := l.input.any fun t => decide (v ≤ t)

/-- `in > v`. -/
def gt (l : Linearize K) (v : K) : Bool := l.input.any fun t => decide (v < t)

/-- `in <= v`. -/
def le (l : Linearize K) (v : K) : Bool := l.input.any fun t => decide (t ≤ v)

@[simp] theorem gt_eq_true {l : Linearize K} {v : K} : l.gt v = true ↔ ∃ t ∈ l.input, v < t := by
  simp [gt, Option.any_eq_true]

@[simp] theorem ge_eq_true {l : Linearize K} {v : K} : l.ge v = true ↔ ∃ t ∈ l.input, v ≤ t := by
  simp [ge, Option.any_eq_true]

@[simp] theorem le_eq_true {l : Linearize K} {v : K} : l.le v = true ↔ ∃ t ∈ l.input, t ≤ v := by
  simp [le, Option.any_eq_true]

variable [Field K]

/-- One scan. -/
def execute (l : Linearize K) : Linearize K :=
  let tmp : Option K := none
  let tmp :=
    if l.x 1 > l.x 0 then
      -- positive slope
      let tmp := if l.ge (l.x 0) && l.le (l.x 1) then
        l.convert (l.y 1) (l.y 0) (l.x 1) (l.x 0) else tmp
      let tmp := if l.gt (l.x 1) && l.le (l.x 2) then
        l.convert (l.y 2) (l.y 1) (l.x 2) (l.x 1) else tmp
      let tmp := if l.gt (l.x 2) && l.le (l.x 3) then
        l.convert (l.y 3) (l.y 2) (l.x 3) (l.x 2) else tmp
      let tmp := if l.gt (l.x 3) && l.le (l.x 4) then
        l.convert (l.y 4) (l.y 3) (l.x 4) (l.x 3) else tmp
      let tmp := if l.gt (l.x 4) && l.le (l.x 5) then
        l.convert (l.y 5) (l.y 4) (l.x 5) (l.x 4) else tmp
      let tmp := if l.gt (l.x 5) && l.le (l.x 6) then
        l.convert (l.y 6) (l.y 5) (l.x 6) (l.x 5) else tmp
      let tmp := if l.gt (l.x 6) && l.le (l.x 7) then
        l.convert (l.y 7) (l.y 6) (l.x 7) (l.x 6) else tmp
      let tmp := if l.gt (l.x 7) && l.le (l.x 8) then
        l.convert (l.y 8) (l.y 7) (l.x 8) (l.x 7) else tmp
      if l.gt (l.x 8) && l.le (l.x 9) then
        l.convert (l.y 9) (l.y 8) (l.x 9) (l.x 8) else tmp
    else if l.x 1 < l.x 0 then
      -- negative slope
      let tmp := if l.gt (l.x 9) && l.le (l.x 8) then
        l.convert (l.y 9) (l.y 8) (l.x 9) (l.x 8) else tmp
      let tmp := if l.gt (l.x 8) && l.le (l.x 7) then
        l.convert (l.y 8) (l.y 7) (l.x 8) (l.x 7) else tmp
      let tmp := if l.gt (l.x 7) && l.le (l.x 6) then
        l.convert (l.y 7) (l.y 6) (l.x 7) (l.x 6) else tmp
      -- the source has `y4` here
      let tmp := if l.gt (l.x 6) && l.le (l.x 5) then
        l.convert (l.y 6) (l.y 4) (l.x 6) (l.x 5) else tmp
      let tmp := if l.gt (l.x 5) && l.le (l.x 4) then
        l.convert (l.y 5) (l.y 4) (l.x 5) (l.x 4) else tmp
      let tmp := if l.gt (l.x 4) && l.le (l.x 3) then
        l.convert (l.y 4) (l.y 3) (l.x 4) (l.x 3) else tmp
      let tmp := if l.gt (l.x 3) && l.le (l.x 2) then
        l.convert (l.y 3) (l.y 2) (l.x 3) (l.x 2) else tmp
      let tmp := if l.gt (l.x 2) && l.le (l.x 1) then
        l.convert (l.y 2) (l.y 1) (l.x 2) (l.x 1) else tmp
      if l.gt (l.x 1) && l.le (l.x 0) then
        l.convert (l.y 1) (l.y 0) (l.x 1) (l.x 0) else tmp
    else tmp
  { l with out := tmp }

/-! ### The two chains -/

/-- The chain of the rising table: the segment from `x i` to `x (i + 1)` is tested with its right
end, and the first one with both. -/
def risingTests (l : Linearize K) : List (Bool × Option K) :=
  (List.finRange 9).map fun i =>
    ((if i = 0 then l.ge (l.x i.castSucc) else l.gt (l.x i.castSucc)) && l.le (l.x i.succ),
      l.convert (l.y i.succ) (l.y i.castSucc) (l.x i.succ) (l.x i.castSucc))

/-- The point whose ordinate the falling chain takes for the upper end of a segment. -/
def fallingFrom (i : Fin 9) : Fin 10 := if i = 5 then 4 else i.castSucc

/-- The chain of the falling table: each segment is tested with its upper end. -/
def fallingTests (l : Linearize K) : List (Bool × Option K) :=
  (List.finRange 9).reverse.map fun i =>
    (l.gt (l.x i.succ) && l.le (l.x i.castSucc),
      l.convert (l.y i.succ) (l.y (fallingFrom i)) (l.x i.succ) (l.x i.castSucc))

theorem execute_rising {l : Linearize K} (h : l.x 0 < l.x 1) :
    l.execute.out = cascade none l.risingTests := by
  simp only [execute, gt_iff_lt, if_pos h]
  rfl

theorem execute_falling {l : Linearize K} (h : l.x 1 < l.x 0) :
    l.execute.out = cascade none l.fallingTests := by
  simp only [execute, gt_iff_lt, if_neg h.not_gt, if_pos h]
  rfl

/-! ### What `execute` is for -/

/-- The place lies between the two ends of the table, and the input is a number. -/
def InRange (l : Linearize K) (t : K) : Prop := l.input = some t ∧ t ∈ Set.uIcc (l.x 0) (l.x 9)

/-- `out` is the value of the curve through the table where `in` lies between the ends of the
table, and NaN elsewhere. -/
structure Interpolates (l : Linearize K) (out : Option K) : Prop where
  inside : ∀ t, l.InRange t → ∃ v, OnCurve l.x l.y t v ∧ out = some v
  outside : (∀ t, ¬ l.InRange t) → out = none

/-- At a point of the table an output that interpolates is the point's ordinate. -/
theorem Interpolates.point {l : Linearize K} {out : Option K} (h : Interpolates l out)
    (hx : Sorted l.x) (i : Fin 10) (hin : l.input = some (l.x i)) : out = some (l.y i) := by
  have hpoint : OnCurve l.x l.y (l.x i) (l.y i) := onCurve_point hx l.y i
  obtain ⟨v, hv, hout⟩ := h.inside _ ⟨hin, hpoint.mem_range hx⟩
  rw [hout, hv.unique hx hpoint]

/-- The table falls, and either `in` is its last point, or it lies between `x6` and `x5` and the
ordinate taken in place of `y5` is another one. -/
def Slips (l : Linearize K) : Prop :=
  l.x 1 < l.x 0 ∧
    (l.input = some (l.x 9) ∨
      ∃ t, l.input = some t ∧ l.x 6 < t ∧ t ≤ l.x 5 ∧ l.y 4 ≠ l.y 5)

/-- A chain brings the curve's value when each test that fires does and one fires at every place
between the ends. -/
theorem interpolates_of_tests {l : Linearize K} {tests : List (Bool × Option K)}
    (hx : Sorted l.x)
    (hsound : ∀ test ∈ tests, test.1 = true →
      ∃ t v, l.input = some t ∧ OnCurve l.x l.y t v ∧ test.2 = some v)
    (hcomplete : ∀ t, l.InRange t → ∃ test ∈ tests, test.1 = true) :
    Interpolates l (cascade none tests) := by
  refine ⟨fun t ht => ?_, fun hout => ?_⟩
  · obtain ⟨v, hv⟩ : ∃ v, OnCurve l.x l.y t v := exists_onCurve l.x l.y ht.2
    refine ⟨v, hv, cascade_eq_some (fun test hmem hfires => ?_) (Or.inr (hcomplete t ht))⟩
    obtain ⟨t', w, hin, hw, hvalue⟩ := hsound test hmem hfires
    obtain rfl : t = t' := Option.some.inj (ht.1.symm.trans hin)
    rw [hvalue, hw.unique hx hv]
  · refine cascade_eq_start fun test hmem => eq_false_of_ne_true fun hfires => ?_
    obtain ⟨t, v, hin, hv, -⟩ := hsound test hmem hfires
    exact hout t ⟨hin, hv.mem_range hx⟩

/-! ### The rising table -/

/-- What a test of the rising chain brings lies on the curve. -/
theorem rising_sound {l : Linearize K} (test : Bool × Option K) (hmem : test ∈ l.risingTests)
    (hfires : test.1 = true) :
    ∃ t v, l.input = some t ∧ OnCurve l.x l.y t v ∧ test.2 = some v := by
  obtain ⟨i, -, rfl⟩ := List.mem_map.mp hmem
  obtain ⟨hlow, hhigh⟩ := Bool.and_eq_true_iff.mp hfires
  obtain ⟨t, hin, hright⟩ := le_eq_true.mp hhigh
  have hleft : l.x i.castSucc ≤ t := by
    split at hlow
    · obtain ⟨t', hin', h⟩ := ge_eq_true.mp hlow
      exact Option.some.inj (hin'.symm.trans hin) ▸ h
    · obtain ⟨t', hin', h⟩ := gt_eq_true.mp hlow
      exact Option.some.inj (hin'.symm.trans hin) ▸ h.le
  exact ⟨t, _, hin, ⟨i, Set.mem_uIcc_of_le hleft hright, rfl⟩, convert_eq hin _ _ _ _⟩

/-- A test of the rising chain fires at every place between the ends. -/
theorem rising_complete {l : Linearize K} (hx : StrictMono l.x) {t : K} (ht : l.InRange t) :
    ∃ test ∈ l.risingTests, test.1 = true := by
  obtain ⟨hin, hrange⟩ := ht
  rw [Set.uIcc_of_le (hx.monotone (Fin.zero_le _))] at hrange
  by_cases hend : t = l.x 0
  · -- the first test holds at its lower end too
    refine ⟨_, List.mem_map.mpr ⟨0, List.mem_finRange _, rfl⟩, ?_⟩
    simp [hin, hend, hx.monotone (Fin.zero_le 1)]
  · obtain ⟨i, hbelow, habove⟩ := crossing (P := fun j => l.x j < t)
      (lt_of_le_of_ne hrange.1 (Ne.symm hend)) (not_lt.mpr hrange.2)
    refine ⟨_, List.mem_map.mpr ⟨i, List.mem_finRange _, rfl⟩, ?_⟩
    split <;> simp [hin, hbelow, hbelow.le, not_lt.mp habove]

/-! ### The falling table -/

omit [Field K] in
/-- A test of the falling chain fires at the places of its segment, but for the lower end. -/
theorem falling_fires {l : Linearize K} {t : K} (hin : l.input = some t) (i : Fin 9) :
    (l.gt (l.x i.succ) && l.le (l.x i.castSucc)) = true ↔
      l.x i.succ < t ∧ t ≤ l.x i.castSucc := by
  simp [hin]

/-- Where the table does not slip, what a test of the falling chain brings lies on the curve. -/
theorem falling_sound {l : Linearize K} (hfall : l.x 1 < l.x 0) (hslip : ¬ l.Slips)
    (test : Bool × Option K) (hmem : test ∈ l.fallingTests) (hfires : test.1 = true) :
    ∃ t v, l.input = some t ∧ OnCurve l.x l.y t v ∧ test.2 = some v := by
  obtain ⟨i, -, rfl⟩ := List.mem_map.mp hmem
  obtain ⟨t, hin, -⟩ := gt_eq_true.mp (Bool.and_eq_true_iff.mp hfires).1
  obtain ⟨hlow, hhigh⟩ := (falling_fires hin i).mp hfires
  have hfrom : l.y (fallingFrom i) = l.y i.castSucc := by
    by_cases hi : i = 5
    · subst hi
      by_contra hne
      exact hslip ⟨hfall, Or.inr ⟨t, hin, hlow, hhigh, hne⟩⟩
    · rw [fallingFrom, if_neg hi]
  refine ⟨t, _, hin, ⟨i, Set.mem_uIcc_of_ge hlow.le hhigh, rfl⟩, ?_⟩
  rw [convert_eq hin, hfrom]

/-- A test of the falling chain fires at every place between the ends but the last point. -/
theorem falling_complete {l : Linearize K} (hx : StrictAnti l.x) (hslip : ¬ l.Slips) {t : K}
    (ht : l.InRange t) : ∃ test ∈ l.fallingTests, test.1 = true := by
  obtain ⟨hin, hrange⟩ := ht
  rw [Set.uIcc_of_ge (hx.antitone (Fin.zero_le _))] at hrange
  have hend : t ≠ l.x 9 := by
    rintro rfl
    exact hslip ⟨hx Fin.zero_lt_one, Or.inl hin⟩
  obtain ⟨i, habove, hbelow⟩ := crossing (P := fun j => t ≤ l.x j) hrange.2
    (not_le.mpr (lt_of_le_of_ne hrange.1 (Ne.symm hend)))
  refine ⟨_, List.mem_map.mpr ⟨i, by simp, rfl⟩, ?_⟩
  exact (falling_fires hin i).mpr ⟨not_le.mp hbelow, habove⟩

/-- At the last point of a falling table no test fires. -/
theorem falling_at_end {l : Linearize K} (hx : StrictAnti l.x) (hin : l.input = some (l.x 9)) :
    cascade none l.fallingTests = none := by
  refine cascade_eq_start fun test hmem => eq_false_of_ne_true fun hfires => ?_
  obtain ⟨i, -, rfl⟩ := List.mem_map.mp hmem
  have hlow := ((falling_fires hin i).mp hfires).1
  exact hlow.not_ge (hx.antitone (Fin.le_last _))

/-- Between `x6` and `x5` a falling table brings the line from `(x5, y4)`. -/
theorem falling_at_slip {l : Linearize K} (hx : StrictAnti l.x) {t : K} (hin : l.input = some t)
    (hlow : l.x 6 < t) (hhigh : t ≤ l.x 5) :
    cascade none l.fallingTests = some (lineAt (l.x 5) (l.y 4) (l.x 6) (l.y 6) t) := by
  refine cascade_eq_some (fun test hmem hfires => ?_) (Or.inr ?_)
  · -- the segments are disjoint: the test is the one of this segment
    obtain ⟨i, -, rfl⟩ := List.mem_map.mp hmem
    obtain ⟨hlow', hhigh'⟩ := (falling_fires hin i).mp hfires
    have hbefore : i.castSucc < 6 := hx.lt_iff_gt.mp (hlow.trans_le hhigh')
    have hbehind : 5 < i.succ := hx.lt_iff_gt.mp (hlow'.trans_le hhigh)
    obtain rfl : i = 5 := by
      rw [Fin.lt_def] at hbefore hbehind
      rw [Fin.val_castSucc] at hbefore
      rw [Fin.val_succ] at hbehind
      exact Fin.ext (by simp at *; omega)
    exact convert_eq hin _ _ _ _
  · exact ⟨_, List.mem_map.mpr ⟨5, by simp, rfl⟩, (falling_fires hin 5).mpr ⟨hlow, hhigh⟩⟩

/-! ### The component -/

/-- **`execute` interpolates its table exactly when the table does not slip.** -/
theorem interpolates_iff (l : Linearize K) (hx : Sorted l.x) :
    Interpolates l l.execute.out ↔ ¬ l.Slips := by
  rcases hx with hmono | hanti
  · -- a rising table: no slip, and the chain is right
    have hrise : l.x 0 < l.x 1 := hmono Fin.zero_lt_one
    rw [execute_rising hrise]
    refine iff_of_true ?_ fun hslip => hslip.1.not_gt hrise
    exact interpolates_of_tests (Or.inl hmono) rising_sound fun t => rising_complete hmono
  · have hfall : l.x 1 < l.x 0 := hanti Fin.zero_lt_one
    rw [execute_falling hfall]
    refine ⟨fun hinter => ?_, fun hslip => ?_⟩
    · rintro ⟨-, hin | ⟨t, hin, hlow, hhigh, hne⟩⟩
      · obtain ⟨v, -, hout⟩ := hinter.inside _ ⟨hin, Set.right_mem_uIcc⟩
        rw [falling_at_end hanti hin] at hout
        cases hout
      · have hseg : t ∈ Set.uIcc (l.x 5) (l.x 6) := Set.mem_uIcc_of_ge hlow.le hhigh
        have hcurve : OnCurve l.x l.y t (lineAt (l.x 5) (l.y 5) (l.x 6) (l.y 6) t) :=
          ⟨5, hseg, rfl⟩
        obtain ⟨v, hv, hout⟩ := hinter.inside t ⟨hin, hcurve.mem_range (Or.inr hanti)⟩
        rw [falling_at_slip hanti hin hlow hhigh, hv.unique (Or.inr hanti) hcurve] at hout
        exact hne (lineAt_left_inj (hanti.injective.ne (by decide)) hlow.ne'
          (Option.some.inj hout))
    · exact interpolates_of_tests (Or.inr hanti) (falling_sound hfall hslip)
        fun t => falling_complete hanti hslip

/-- The points `(0, 0) .. (9, 9)`, read between two of them. -/
theorem interpolates_iff_rising :
    let l : Linearize ℚ :=
      { input := some (1 / 2), x := fun i => i.val, y := fun i => i.val, out := none }
    StrictMono l.x ∧ (Interpolates l l.execute.out ↔ ¬ l.Slips) := by
  have hmono : StrictMono fun i : Fin 10 => (i.val : ℚ) := by
    intro i j hij
    simpa using hij
  exact ⟨hmono, interpolates_iff _ (Or.inl hmono)⟩

/-- A falling table read at its last point: NaN, though the point is in the table. -/
theorem not_interpolates :
    ¬ ∀ l : Linearize ℚ, Sorted l.x → Interpolates l l.execute.out := by
  intro h
  have hanti : StrictAnti fun i : Fin 10 => (9 - i.val : ℚ) := by
    intro i j hij
    simpa using hij
  have hinter := h { input := some 0, x := fun i => 9 - i.val, y := fun i => i.val, out := none }
    (Or.inr hanti)
  obtain ⟨v, -, hout⟩ := hinter.inside 0 ⟨rfl, by norm_num⟩
  rw [execute_falling (hanti Fin.zero_lt_one), falling_at_end hanti (by norm_num)] at hout
  cases hout

end Linearize

end Sedona.Control
