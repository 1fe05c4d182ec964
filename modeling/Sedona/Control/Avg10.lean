import Mathlib.Algebra.Field.Rat
import Mathlib.Tactic.NormNum
import Sedona.Library.RingHistory

/-!
# Avg10

`control::Avg10` keeps a running average of its last ten samples in a total, a ring of ten slots
and a flag for the first ten. `start` clears the ring but sets the total to the input, and a scan
divides by the number of samples even when none has been taken. Float arithmetic is exact, over a
field of characteristic zero; a quotient by zero is no number (`none`). Ticks are 64-bit.

A run is `start` followed by scans, each with the input, the `maxTime` and the ticks it finds;
`taken` is the history of the samples it has taken, newest first.

## Main results

* `Inv`: the ring holds the latest ten samples, and the total is their sum and the input at start.
* `averages_iff`: the output is the mean of the latest samples after every scan exactly when the
  input at start is zero and the first scan takes a sample.
-/

namespace Sedona.Control

open RingHistory

variable {K : Type*} [Field K]

/-- Float division: no number when the divisor is zero. -/
def divide [DecidableEq K] (a b : K) : Option K := if b = 0 then none else some (a / b)

/-- The slots and the private fields of the component. -/
structure Avg10 (K : Type*) where
  out : Option K
  input : K
  maxTime : BitVec 32
  total : K
  lastValue : K
  index : ℕ
  lastSampleTime : BitVec 64
  maxSampleTime : BitVec 64
  samples : ℕ → K
  firstTen : Bool

namespace Avg10

/-- The slots that `changed` tells apart. -/
inductive Slot
  | input
  | maxTime
  deriving DecidableEq

/-- `(long)maxTime * 1ms`. -/
def millis (maxTime : BitVec 32) : BitVec 64 := maxTime.signExtend 64 * 1000000#64

/-- Callback when the component is first started. -/
def start (s : Avg10 K) : Avg10 K :=
  { s with
    samples := fun i => if i < 10 then 0 else s.samples i
    total := s.input
    index := 0
    firstTen := true
    maxSampleTime := millis s.maxTime
    lastValue := s.input }

/-- Callback when a property is changed. -/
def changed (s : Avg10 K) (slot : Slot) : Avg10 K :=
  if slot = .maxTime then { s with maxSampleTime := millis s.maxTime } else s

/-- Whether the maximum sample time is exceeded. -/
def forceSample (s : Avg10 K) (now : BitVec 64) : Bool :=
  if (0#32).slt s.maxTime then s.maxSampleTime.sle (now - s.lastSampleTime) else false

variable [DecidableEq K]

/-- Whether a scan processes a new sample. -/
def takesSample (s : Avg10 K) (now : BitVec 64) : Bool :=
  decide (s.input ≠ s.lastValue) || s.forceSample now

/-- Add the current sample to the total and remove the oldest. -/
def takeSample (s : Avg10 K) (now : BitVec 64) : Avg10 K :=
  let cv := s.input
  let total := s.total - s.samples s.index + cv
  let samples := Function.update s.samples s.index cv
  let index := s.index + 1
  let firstTen := if index ≥ 10 then false else s.firstTen
  let index := if index ≥ 10 then 0 else index
  { s with total, samples, firstTen, index, lastValue := cv, lastSampleTime := now }

/-- One scan. -/
def execute (s : Avg10 K) (now : BitVec 64) : Avg10 K :=
  let s := if s.takesSample now then s.takeSample now else s
  { s with out := if s.firstTen then divide s.total (s.index : K) else divide s.total 10 }

/-! ### Runs -/

/-- What a scan finds: the input, the `maxTime` and the ticks. -/
structure Scan (K : Type*) where
  input : K
  maxTime : BitVec 32
  ticks : BitVec 64

/-- The slots are written, `changed` is called for both, and the component executes. -/
def write (s : Avg10 K) (scan : Scan K) : Avg10 K :=
  ({ ({ s with input := scan.input }.changed .input) with maxTime := scan.maxTime }).changed
    .maxTime

/-- One scan of a run. -/
def scan (s : Avg10 K) (scan : Scan K) : Avg10 K := (s.write scan).execute scan.ticks

/-- The state after a run of scans. -/
def run (s : Avg10 K) (scans : List (Scan K)) : Avg10 K := scans.foldl Avg10.scan s

/-- The samples that a run of scans takes, newest first, on top of those taken before. -/
def taken (s : Avg10 K) (before : List K) : List (Scan K) → List K
  | [] => before
  | scan :: scans =>
      taken (s.scan scan)
        (if (s.write scan).takesSample scan.ticks then scan.input :: before else before) scans

/-- The output is the mean of the latest samples, ten or fewer, of a history that has some. -/
def Averaged (out : Option K) (h : List K) : Prop :=
  h ≠ [] ∧ out = some ((h.take 10).sum / ((h.take 10).length : K))

/-! ### The invariant -/

/-- The ring holds the latest samples of `h`, and the total is their sum and `in₀`. -/
structure Inv (s : Avg10 K) (in₀ : K) (h : List K) : Prop where
  holds : Holds 10 s.samples s.index h
  total : s.total = in₀ + (h.take 10).sum
  first : s.firstTen = decide (h.length < 10)

omit [DecidableEq K] in
theorem Inv.start (s : Avg10 K) : Inv s.start s.input [] where
  holds := Holds.empty (by decide) fun i hi => if_pos hi
  total := (add_zero _).symm
  first := rfl

omit [Field K] [DecidableEq K] in
/-- Writing the slots touches neither the ring nor the total. -/
theorem write_eq (s : Avg10 K) (scan : Scan K) :
    s.write scan = { s with
      input := scan.input, maxTime := scan.maxTime, maxSampleTime := millis scan.maxTime } := rfl

omit [DecidableEq K] in
theorem takeSample_total (s : Avg10 K) (now : BitVec 64) :
    (s.takeSample now).total = s.total - s.samples s.index + s.input := rfl

omit [DecidableEq K] in
theorem takeSample_firstTen (s : Avg10 K) (now : BitVec 64) :
    (s.takeSample now).firstTen = if s.index + 1 ≥ 10 then false else s.firstTen := rfl

omit [DecidableEq K] in
/-- A sample enters the history. -/
theorem Inv.takeSample {s : Avg10 K} {in₀ : K} {h : List K} (hs : Inv s in₀ h)
    (now : BitVec 64) : Inv (s.takeSample now) in₀ (s.input :: h) where
  holds := hs.holds.push (by decide) s.input
  total := by
    rw [takeSample_total, hs.total, hs.holds.oldest (by decide), sum_take_cons]
    abel
  first := by
    have hcursor : s.index = h.length % 10 := hs.holds.1
    rw [takeSample_firstTen, hs.first, List.length_cons]
    -- the cursor wraps at the tenth sample for the first time
    split <;> simp <;> omega

theorem Inv.executed {s : Avg10 K} {in₀ : K} {h : List K} (hs : Inv s in₀ h)
    (now : BitVec 64) :
    Inv (s.execute now) in₀ (if s.takesSample now then s.input :: h else h) := by
  have hsample : Inv (if s.takesSample now then s.takeSample now else s) in₀
      (if s.takesSample now then s.input :: h else h) := by
    split
    · exact hs.takeSample now
    · exact hs
  exact ⟨hsample.holds, hsample.total, hsample.first⟩

theorem Inv.scanned {s : Avg10 K} {in₀ : K} {h : List K} (hs : Inv s in₀ h) (scan : Scan K) :
    Inv (s.scan scan) in₀
      (if (s.write scan).takesSample scan.ticks then scan.input :: h else h) := by
  have hwrite : Inv (s.write scan) in₀ h := ⟨hs.holds, hs.total, hs.first⟩
  exact hwrite.executed scan.ticks

theorem Inv.run {s : Avg10 K} {in₀ : K} {h : List K} (hs : Inv s in₀ h)
    (scans : List (Scan K)) : Inv (s.run scans) in₀ (s.taken h scans) := by
  induction scans generalizing s h with
  | nil => exact hs
  | cons scan scans ih => exact ih (hs.scanned scan)

/-! ### What is on the output -/

/-- A scan leaves the quotient of its total and of its count of samples. -/
theorem execute_out (s : Avg10 K) (now : BitVec 64) :
    (s.execute now).out =
      if (s.execute now).firstTen then
        divide (s.execute now).total ((s.execute now).index : K)
      else divide (s.execute now).total 10 := rfl

/-- With the invariant the output is the mean of the latest samples and of what the total
started with: no number before the first sample. -/
theorem Inv.out {s : Avg10 K} {in₀ : K} {h : List K} {now : BitVec 64}
    (hs : Inv (s.execute now) in₀ h) :
    (s.execute now).out =
      divide (in₀ + (h.take 10).sum) ((h.take 10).length : K) := by
  have hcursor : (s.execute now).index = h.length % 10 := hs.holds.1
  rw [execute_out, hs.first, hs.total, hcursor, List.length_take]
  by_cases hfew : h.length < 10
  · rw [if_pos (decide_eq_true hfew), Nat.mod_eq_of_lt hfew, min_eq_right hfew.le]
  · rw [if_neg (by simpa using hfew), min_eq_left (by omega), Nat.cast_ofNat]

variable [CharZero K]

/-- The output is the mean of the latest samples exactly when there are some and the total
started with zero. -/
theorem Inv.averaged_iff {s : Avg10 K} {in₀ : K} {h : List K} {now : BitVec 64}
    (hs : Inv (s.execute now) in₀ h) :
    Averaged (s.execute now).out h ↔ h ≠ [] ∧ in₀ = 0 := by
  refine and_congr_right fun hsome => ?_
  have hpos : ((h.take 10).length : K) ≠ 0 := by
    have := List.length_pos_of_ne_nil hsome
    rw [Nat.cast_ne_zero, List.length_take]
    omega
  rw [hs.out, divide, if_neg hpos, Option.some_inj, div_left_inj' hpos]
  exact add_eq_right

/-- After a run that has executed, the same holds of the samples of the run. -/
theorem averaged_run_iff {s : Avg10 K} {in₀ : K} {h : List K} (hs : Inv s in₀ h)
    {scans : List (Scan K)} (hscans : scans ≠ []) :
    Averaged (s.run scans).out (s.taken h scans) ↔ s.taken h scans ≠ [] ∧ in₀ = 0 := by
  induction scans generalizing s h with
  | nil => exact absurd rfl hscans
  | cons scan scans ih =>
      cases scans with
      | nil => exact (hs.scanned scan).averaged_iff
      | cons next scans => exact ih (hs.scanned scan) (List.cons_ne_nil _ _)

omit [CharZero K] in
/-- A run never forgets that a sample has been taken. -/
theorem taken_ne_nil (s : Avg10 K) {before : List K} (hsome : before ≠ [])
    (scans : List (Scan K)) : s.taken before scans ≠ [] := by
  induction scans generalizing s before with
  | nil => exact hsome
  | cons scan scans ih =>
      refine ih _ ?_
      split
      · exact List.cons_ne_nil _ _
      · exact hsome

/-- The first scan takes a sample: the input has changed since start, or `maxTime` is set and has
passed since the last sample. -/
def FirstSampled (s : Avg10 K) (first : Scan K) : Prop :=
  first.input ≠ s.input ∨
    ((0#32).slt first.maxTime = true ∧
      (millis first.maxTime).sle (first.ticks - s.lastSampleTime) = true)

omit [CharZero K] in
theorem takesSample_first (s : Avg10 K) (first : Scan K) :
    (s.start.write first).takesSample first.ticks = true ↔ s.FirstSampled first := by
  rw [takesSample, Bool.or_eq_true, decide_eq_true_iff]
  refine or_congr_right ?_
  rw [write_eq, forceSample]
  simp [start]

/-- **The output is a running average exactly when the input at start is zero and the first scan
takes a sample.** -/
theorem averages_iff (s : Avg10 K) (first : Scan K) (rest : List (Scan K)) :
    (∀ scans, scans ≠ [] → scans <+: first :: rest →
        Averaged (s.start.run scans).out (s.start.taken [] scans)) ↔
      s.input = 0 ∧ s.FirstSampled first := by
  have hstart : Inv s.start s.input [] := Inv.start s
  rw [← takesSample_first]
  constructor
  · intro h
    have hone := h [first] (List.cons_ne_nil _ _) ⟨rest, rfl⟩
    obtain ⟨hsome, hzero⟩ := (averaged_run_iff hstart (List.cons_ne_nil _ _)).mp hone
    refine ⟨hzero, ?_⟩
    by_contra hnone
    exact hsome (if_neg hnone)
  · rintro ⟨hzero, hsample⟩ scans hne hpre
    refine (averaged_run_iff hstart hne).mpr ⟨?_, hzero⟩
    obtain ⟨scan, scans, rfl⟩ := List.exists_cons_of_ne_nil hne
    obtain rfl : scan = first := (List.cons_prefix_cons.mp hpre).1
    refine taken_ne_nil _ ?_ scans
    rw [if_pos hsample]
    exact List.cons_ne_nil _ _

/-- Zero at start, and two scans that find six and seven. -/
theorem averages_iff_zero :
    let s : Avg10 ℚ := ⟨none, 0, 0, 0, 0, 0, 0, 0, fun _ => 0, true⟩
    (∀ scans, scans ≠ [] → scans <+: [⟨6, 0, 0⟩, ⟨7, 0, 1⟩] →
        Averaged (s.start.run scans).out (s.start.taken [] scans)) ↔
      s.input = 0 ∧ s.FirstSampled ⟨6, 0, 0⟩ :=
  averages_iff _ _ _

/-- A component whose input is five at start, with two scans that find six and seven. -/
theorem not_averages :
    ¬ ∀ (s : Avg10 ℚ) (first : Scan ℚ) (rest : List (Scan ℚ)),
      ∀ scans, scans ≠ [] → scans <+: first :: rest →
        Averaged (s.start.run scans).out (s.start.taken [] scans) := by
  intro h
  have hone := h ⟨none, 5, 0, 0, 0, 0, 0, 0, fun _ => 0, true⟩ ⟨6, 0, 0⟩ [⟨7, 0, 0⟩] [⟨6, 0, 0⟩]
    (List.cons_ne_nil _ _) ⟨_, rfl⟩
  have hzero := ((averaged_run_iff (Inv.start _) (List.cons_ne_nil _ _)).mp hone).2
  norm_num at hzero

end Avg10

end Sedona.Control
