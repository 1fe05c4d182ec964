import Mathlib.Tactic

/-!
# Daily Schedules

`DailySchedule` has two periods of the day, each with a start and a duration in minutes. `execute`
compares the time of day with the start and the end of each, where the end is taken modulo a day.

## Main results

* `isActive_iff`: for starts within the day, the minutes at which a period is active.
* `execute_iff`: the settings and times for which `execute` reports the right period.
* `reports_of_proper`: settings that are right all day long.
-/

namespace Sedona.DailySchedule

def minsInDay : ℕ := 24 * 60

def outputDefault : ℕ := 0
def output1 : ℕ := 1
def output2 : ℕ := 2

/-- The start and the duration of a period: both are shorts. -/
structure Period where
  start : BitVec 16
  dur : BitVec 16
deriving DecidableEq

/-- The configuration of a `DailySchedule`. -/
structure Settings where
  period1 : Period
  period2 : Period
deriving DecidableEq

/-- The time of day as the `DateTimeService` has it. -/
structure TimeOfDay where
  hour : ℕ
  minute : ℕ
  hour_lt : hour < 24
  minute_lt : minute < 60

/-- `timeOfDay`: minutes past midnight. -/
def TimeOfDay.mins (t : TimeOfDay) : ℕ := t.hour * 60 + t.minute

theorem TimeOfDay.mins_lt (t : TimeOfDay) : t.mins < 1440 := by
  have h₁ := t.hour_lt
  have h₂ := t.minute_lt
  unfold mins
  omega

/-- `isActive`. -/
def isActive (now start end_ : ℕ) : Bool :=
  if end_ = start then false
  else if end_ > start then
    if now < start then false
    else if now ≥ end_ then false
    else true
  else if end_ < start then
    if now < end_ then true
    else if now ≥ start then true
    else false
  else false

namespace Period

variable (p : Period) (now : ℕ)

/-- `end1` and `end2`. -/
def endMins : ℕ := (p.start.toNat + p.dur.toNat) % minsInDay

/-- `s1active` and `s2active`. -/
def active : Bool := isActive now p.start.toNat p.endMins

/-- The minutes that have passed since the last start of the period. -/
def elapsed : ℕ := (((now : ℤ) - p.start.toNat) % 1440).toNat

/-- The period covers this minute. -/
def Covers : Prop := 0 < p.dur.toNat ∧ p.elapsed now < p.dur.toNat

instance : Decidable (p.Covers now) := inferInstanceAs (Decidable (_ ∧ _))

/-- What is needed of a period for its comparisons to come out right. With a start within the day
this is a duration below a day, or a minute within what is left of the duration without its whole
days. A start behind the day is not reduced, and only one side of it is right. -/
def Fits : Prop :=
  if p.start.toNat < minsInDay then
    p.dur.toNat < minsInDay ∨ p.elapsed now < p.dur.toNat % minsInDay
  else if minsInDay ≤ p.dur.toNat then now < (p.start.toNat + p.dur.toNat) % minsInDay
  else if p.start.toNat % minsInDay + p.dur.toNat < minsInDay then
    p.start.toNat % minsInDay ≤ now
  else now < p.start.toNat % minsInDay

instance : Decidable (p.Fits now) := by
  unfold Fits
  infer_instance

end Period

/-- The value that `execute` hands to `setOutValue`. -/
def execute (s : Settings) (t : TimeOfDay) : ℕ :=
  if s.period1.dur = 0 ∧ s.period2.dur = 0 then outputDefault
  else if s.period1.active t.mins then output1
  else if s.period2.active t.mins then output2
  else outputDefault

/-- The period that covers the minute, where the first takes precedence. -/
def covering (s : Settings) (now : ℕ) : ℕ :=
  if s.period1.Covers now then output1
  else if s.period2.Covers now then output2
  else outputDefault

/-! ### One period -/

theorem isActive_eq_true {now start end_ : ℕ} :
    isActive now start end_ = true ↔
      start < end_ ∧ start ≤ now ∧ now < end_ ∨ end_ < start ∧ (now < end_ ∨ start ≤ now) := by
  unfold isActive
  split_ifs <;> simp only [true_iff, false_iff] <;> omega

variable {p : Period} {now : ℕ}

/-- The elapsed minutes, with the start reduced to the day. -/
theorem Period.elapsed_eq (p : Period) (hnow : now < 1440) :
    p.elapsed now =
      if p.start.toNat % 1440 ≤ now then now - p.start.toNat % 1440
      else now + 1440 - p.start.toNat % 1440 := by
  unfold Period.elapsed
  split <;> omega

theorem Period.elapsed_lt (p : Period) (now : ℕ) : p.elapsed now < 1440 := by
  unfold Period.elapsed
  omega

/-- A period that starts within the day is active in its first minutes, as many as its duration has
beyond whole days. -/
theorem isActive_iff (hstart : p.start.toNat < 1440) (hnow : now < 1440) :
    p.active now = true ↔ p.elapsed now < p.dur.toNat % 1440 := by
  have hend : p.endMins = (p.start.toNat + p.dur.toNat) % 1440 := rfl
  rw [Period.active, isActive_eq_true, p.elapsed_eq hnow, Nat.mod_eq_of_lt hstart, hend]
  split <;> omega

/-- A period that starts behind the day is active from midnight to its end. -/
theorem isActive_late_iff (hstart : 1440 ≤ p.start.toNat) (hnow : now < 1440) :
    p.active now = true ↔ now < (p.start.toNat + p.dur.toNat) % 1440 := by
  have hend : p.endMins = (p.start.toNat + p.dur.toNat) % 1440 := rfl
  rw [Period.active, isActive_eq_true, hend]
  omega

/-- A period is active when it covers the minute, if and only if it fits. -/
theorem active_iff_covers_iff (p : Period) (hnow : now < 1440) :
    (p.active now = true ↔ p.Covers now) ↔ p.Fits now := by
  have hday := p.elapsed_lt now
  rw [Period.Covers, Period.Fits]
  simp only [show minsInDay = 1440 from rfl]
  rcases Nat.lt_or_ge p.start.toNat 1440 with hstart | hstart
  · rw [isActive_iff hstart hnow, if_pos hstart]
    omega
  · have helapsed := p.elapsed_eq hnow
    rw [isActive_late_iff hstart hnow, if_neg (by omega)]
    split at helapsed <;> split_ifs <;> omega

/-! ### The schedule -/

/-- `execute` reports the right period if and only if neither period has a duration, or the first
one fits and so does the second, unless the first covers the minute. -/
theorem execute_iff (s : Settings) (t : TimeOfDay) :
    execute s t = covering s t.mins ↔
      s.period1.dur = 0 ∧ s.period2.dur = 0 ∨
        s.period1.Fits t.mins ∧ (s.period1.Covers t.mins ∨ s.period2.Fits t.mins) := by
  rw [← active_iff_covers_iff _ t.mins_lt, ← active_iff_covers_iff _ t.mins_lt]
  unfold execute covering
  by_cases hoff : s.period1.dur = 0 ∧ s.period2.dur = 0
  · rw [if_pos hoff]
    have hnone : ∀ p : Period, p.dur = 0 → ¬ p.Covers t.mins := by
      rintro p hp ⟨hpos, -⟩
      rw [hp] at hpos
      exact absurd hpos (lt_irrefl 0)
    rw [if_neg (hnone _ hoff.1), if_neg (hnone _ hoff.2)]
    exact iff_of_true rfl (.inl hoff)
  · rw [if_neg hoff, or_iff_right hoff]
    by_cases h₁ : s.period1.Covers t.mins <;> by_cases h₂ : s.period2.Covers t.mins <;>
      cases s.period1.active t.mins <;> cases s.period2.active t.mins <;>
      simp [h₁, h₂, output1, output2, outputDefault]

/-- Periods that start within the day and last less than a day are reported right all day long. -/
theorem reports_of_proper (s : Settings)
    (h₁ : s.period1.start.toNat < minsInDay ∧ s.period1.dur.toNat < minsInDay)
    (h₂ : s.period2.start.toNat < minsInDay ∧ s.period2.dur.toNat < minsInDay) (t : TimeOfDay) :
    execute s t = covering s t.mins := by
  have hactive : ∀ p : Period, p.start.toNat < minsInDay ∧ p.dur.toNat < minsInDay →
      (p.active t.mins = true ↔ p.Covers t.mins) := by
    intro p hp
    refine (active_iff_covers_iff p t.mins_lt).mpr ?_
    rw [Period.Fits, if_pos hp.1]
    exact .inl hp.2
  have hnone : ∀ p : Period, p.dur = 0 → ¬ p.Covers t.mins := by
    rintro p hp ⟨hpos, -⟩
    rw [hp] at hpos
    exact absurd hpos (lt_irrefl 0)
  rw [execute, covering]
  simp only [hactive _ h₁, hactive _ h₂]
  split
  · next hoff => rw [if_neg (hnone _ hoff.1), if_neg (hnone _ hoff.2)]
  · rfl

/-- The longest duration that the settings allow, from eight o'clock on, is no time at all. -/
theorem not_reports : ¬ ∀ s t, execute s t = covering s t.mins := by
  intro h
  have hnoon := h ⟨⟨480, 1440⟩, ⟨0, 0⟩⟩ ⟨12, 0, by decide, by decide⟩
  exact absurd hnoon (by decide)

end Sedona.DailySchedule
