import Sedona.Library.Calendar
import Mathlib.Tactic

/-!
# Date and Time

`DateTime` converts between nanoseconds since the first of January 2000 and the fields of a local
time, which is the time in UTC moved by an offset. A count of nanoseconds and an offset of 32 bits
add up to less than 2 to the 63rd, so that a `long` of the source is an integer here.

## Main results

* `fromNanos_spec`: the fields that `fromNanos` sets, when local time does not lie before 2000.
* `IsOn.toNanos_eq`: the nanoseconds of a date and a time of day.
* `conversion_exact`: the two conversions undo each other.
* `not_conversion_exact`: not beyond their range, and the nanoseconds are not cut off.
-/

namespace Sedona

open Calendar

/-- `DateTime`. -/
@[ext] structure DateTime where
  year : ℕ
  month : ℕ
  day : ℕ
  dayOfWeek : ℕ
  hour : ℕ
  minute : ℕ
  second : ℕ
  nanosecond : ℤ
  utcOffset : BitVec 32
deriving DecidableEq

namespace DateTime

/-! ### The source -/

/-- The literals `1sec`, `1min`, `1hr` and `1days`. -/
def sec : ℤ := 1000000000
def min : ℤ := 60 * sec
def hr : ℤ := 60 * min
def days : ℤ := 24 * hr

/-- `DateTime.nanosMax`. -/
def nanosMax : ℤ := 100 * (365 * days) + 25 * days - 1

/-- `DateTime.invalid`. -/
def invalid : ℤ := -1

/-- `DateTime.epochDayOfWeek`. -/
def epochDayOfWeek : ℤ := 6

/-- `DateTime.daysPerMonth`. -/
def daysPerMonth : List ℕ := [31, 28, 31, 30, 31, 30, 31, 31, 30, 31, 30, 31]

/-- `Month.feb` and `Month.dec`. -/
def feb : ℕ := 2
def dec : ℕ := 12

/-- `DateTime.isLeapYear`. -/
def isLeapYear (year : ℕ) : Bool :=
  year % 4 == 0 && (year % 100 != 0 || year % 400 == 0)

/-- Storing an `int` in a `byte` and in a `short`. -/
def toByte (v : ℤ) : ℕ := (v % 256).toNat
def toShort (v : ℤ) : ℕ := (v % 65536).toNat

/-- The nanoseconds and the days of the year `y` of the epoch. -/
def nanosInYear (y : ℕ) : ℤ := if isLeapYear (y + 2000) then 366 * days else 365 * days
def daysInYear (y : ℕ) : ℤ := if isLeapYear (y + 2000) then 366 else 365

theorem nanosInYear_pos (y : ℕ) : 0 < nanosInYear y := by
  rw [nanosInYear]
  split <;> decide

/-- The loop of `fromNanos` that determines the year: the year, the days before it and what is left
of the nanoseconds. -/
def yearLoop (y : ℕ) (daysSinceEpoch rem : ℤ) : ℕ × ℤ × ℤ :=
  if rem < nanosInYear y then (y, daysSinceEpoch, rem)
  else yearLoop (y + 1) (daysSinceEpoch + daysInYear y) (rem - nanosInYear y)
termination_by rem.toNat
decreasing_by
  have hpos := nanosInYear_pos y
  omega

/-- The loop of `fromNanos` that determines the month, over the entries of `daysPerMonth` from `m`
on. There is no result when it goes beyond them. -/
def monthLoop (isLeap : Bool) : List ℕ → ℕ → ℤ → ℤ → Option (ℕ × ℤ × ℤ)
  | [], _, _, _ => none
  | entry :: entries, m, daysSinceEpoch, rem =>
      let leapDay := m = feb ∧ isLeap
      let daysInMonth : ℤ := if leapDay then entry + 1 else entry
      let nanosInMonth := if leapDay then entry * days + days else entry * days
      if rem < nanosInMonth then some (m, daysSinceEpoch, rem)
      else monthLoop isLeap entries (m + 1) (daysSinceEpoch + daysInMonth) (rem - nanosInMonth)

/-- `DateTime.fromNanos`: what it returns, and the object. -/
def fromNanos (dt : DateTime) (nanos : ℤ) : Option (ℤ × DateTime) := do
  if nanos < 0 ∨ nanos > nanosMax then some (-1, dt)
  else
    let rem := nanos + dt.utcOffset.toInt * sec
    let (y, daysSinceEpoch, rem) := yearLoop 0 0 rem
    let (m, daysSinceEpoch, rem) ←
      monthLoop (isLeapYear (y + 2000)) daysPerMonth 1 daysSinceEpoch rem
    let day := toByte (rem.tdiv days + 1)
    let rem := rem.tmod days
    let hour := toByte (rem.tdiv hr)
    let rem := rem.tmod hr
    let minute := toByte (rem.tdiv min)
    let rem := rem.tmod min
    let second := toByte (rem.tdiv sec)
    let rem := rem.tmod sec
    let daysSinceEpoch := daysSinceEpoch + day
    some (0,
      { year := toShort (y + 2000), month := toByte m, day := day, hour := hour, minute := minute,
        second := second, nanosecond := rem, utcOffset := dt.utcOffset,
        dayOfWeek := toByte ((daysSinceEpoch - 1 + epochDayOfWeek).tmod 7) })

/-- The checks of `DateTime.toNanos`. -/
def inRange (dt : DateTime) : Bool :=
  !(dt.year < 2000 || dt.year > 2099) && !(dt.month < 1 || dt.month > dec) && !(dt.day < 1) &&
    !(dt.day > daysPerMonth.getD (dt.month - 1) 0 &&
      (dt.month != feb || dt.day != 29 || !isLeapYear dt.year)) &&
    !(dt.hour > 23) && !(dt.minute > 59) && !(dt.second > 59) &&
    !(dt.nanosecond < 0 || dt.nanosecond > 999999999)

/-- The days before `dt` in its year, as `toNanos` counts them. -/
def dayOfYear (dt : DateTime) : ℕ :=
  let dayOfYear := (List.range' 1 (dt.month - 1)).foldl
    (fun dayOfYear i => dayOfYear + daysPerMonth.getD (i - 1) 0) (dt.day - 1)
  if dt.month > feb ∧ isLeapYear dt.year then dayOfYear + 1 else dayOfYear

/-- `DateTime.toNanos`. -/
def toNanos (dt : DateTime) : ℤ :=
  if !dt.inRange then invalid
  else
    let yse := dt.year - 2000
    let nse := dt.nanosecond + dt.second * sec + dt.minute * min + dt.hour * hr
    let nse := nse + (dt.dayOfYear * days + yse * (365 * days))
    let nse := (List.range yse).foldl
      (fun nse i => if isLeapYear (i + 2000) then nse + days else nse) nse
    nse - dt.utcOffset.toInt * sec

/-! ### Days and months -/

theorem isLeapYear_iff (y : ℕ) : isLeapYear y = true ↔ IsLeap y := by
  simp [isLeapYear, IsLeap]

theorem daysInYear_eq (y : ℕ) : daysInYear y = Calendar.daysInYear (y + 2000) := by
  rw [daysInYear, Calendar.daysInYear, ← Bool.cond_eq_ite]
  by_cases hleap : IsLeap (y + 2000)
  · rw [(isLeapYear_iff _).mpr hleap, if_pos hleap]
    rfl
  · rw [Bool.eq_false_iff.mpr (mt (isLeapYear_iff _).mp hleap), if_neg hleap]
    rfl

theorem nanosInYear_eq (y : ℕ) : nanosInYear y = daysInYear y * days := by
  rw [nanosInYear, daysInYear]
  split <;> rfl

/-- The table of months, with the leap day. -/
theorem daysPerMonth_drop (y : ℕ) {m : ℕ} (hm : 1 ≤ m) (hm' : m ≤ 12) :
    ∃ entry, daysPerMonth.drop (m - 1) = entry :: daysPerMonth.drop m ∧
      daysInMonth y m = if m = feb ∧ isLeapYear y = true then entry + 1 else entry := by
  simp only [isLeapYear_iff]
  interval_cases m <;> refine ⟨_, rfl, ?_⟩ <;>
    by_cases hleap : IsLeap y <;> simp [daysInMonth, feb, hleap]

/-- The loop ends in the year in which the day lies. -/
theorem yearLoop_spec (y : ℕ) (d rem : ℤ) (hrem : 0 ≤ rem) :
    ∃ y' d' rem', yearLoop y d rem = (y', d', rem') ∧ 0 ≤ rem' ∧
      rem' < daysInYear y' * days ∧ d' * days + rem' = d * days + rem ∧
      d' - d = (daysBeforeYear (y' + 2000) : ℤ) - daysBeforeYear (y + 2000) := by
  induction y, d, rem using yearLoop.induct with
  | case1 y d rem hlt =>
      rw [yearLoop, if_pos hlt]
      exact ⟨y, d, rem, rfl, hrem, nanosInYear_eq y ▸ hlt, rfl, by omega⟩
  | case2 y d rem hge ih =>
      rw [yearLoop, if_neg hge]
      obtain ⟨y', d', rem', heq, hnonneg, hlt, hsum, hdays⟩ := ih (sub_nonneg.mpr (not_lt.mp hge))
      refine ⟨y', d', rem', heq, hnonneg, hlt, ?_, ?_⟩
      · rw [hsum, nanosInYear_eq]
        ring
      · rw [Nat.add_right_comm, daysBeforeYear_succ (y + 2000)] at hdays
        rw [daysInYear_eq] at hdays
        omega

/-- One turn of the loop. -/
theorem monthLoop_drop (y : ℕ) {m : ℕ} (hm : 1 ≤ m) (hm' : m ≤ 12) (d rem : ℤ) :
    monthLoop (isLeapYear y) (daysPerMonth.drop (m - 1)) m d rem =
      if rem < daysInMonth y m * days then some (m, d, rem)
      else monthLoop (isLeapYear y) (daysPerMonth.drop m) (m + 1) (d + daysInMonth y m)
        (rem - daysInMonth y m * days) := by
  obtain ⟨entry, hdrop, hentry⟩ := daysPerMonth_drop y hm hm'
  rw [hdrop, hentry, monthLoop]
  by_cases hleap : m = feb ∧ isLeapYear y = true
  · simp only [if_pos hleap, Nat.cast_add, Nat.cast_one, add_mul, one_mul]
  · simp only [if_neg hleap]

/-- The loop ends in the month in which the day lies. -/
theorem monthLoop_spec (y : ℕ) {m : ℕ} (hm : 1 ≤ m) (hm' : m ≤ 12) (d rem : ℤ) (hrem : 0 ≤ rem)
    (hlt : rem < ((daysBeforeMonth y 13 : ℤ) - daysBeforeMonth y m) * days) :
    ∃ m' d' rem', monthLoop (isLeapYear y) (daysPerMonth.drop (m - 1)) m d rem =
        some (m', d', rem') ∧ 1 ≤ m' ∧ m' ≤ 12 ∧ 0 ≤ rem' ∧ rem' < daysInMonth y m' * days ∧
      d' * days + rem' = d * days + rem ∧
      d' - d = (daysBeforeMonth y m' : ℤ) - daysBeforeMonth y m := by
  -- By induction on the months that are left.
  induction hk : 12 - m generalizing m d rem with
  | zero =>
      obtain rfl : m = 12 := by omega
      rw [daysBeforeMonth_succ (by decide), Nat.cast_add, add_sub_cancel_left] at hlt
      rw [monthLoop_drop y hm hm', if_pos hlt]
      exact ⟨12, d, rem, rfl, hm, hm', hrem, hlt, rfl, by omega⟩
  | succ k ih =>
      rw [monthLoop_drop y hm hm']
      split
      · rename_i hmonth
        exact ⟨m, d, rem, rfl, hm, hm', hrem, hmonth, rfl, by omega⟩
      · rename_i hmonth
        have hlt' : rem - daysInMonth y m * days <
            ((daysBeforeMonth y 13 : ℤ) - daysBeforeMonth y (m + 1)) * days := by
          rw [daysBeforeMonth_succ hm, Nat.cast_add, ← sub_sub, sub_mul]
          exact Int.sub_lt_sub_right hlt _
        obtain ⟨m', d', rem', heq, hpos, hle, hnonneg, hin, hsum, hdays⟩ :=
          ih (by omega) (by omega) (d + daysInMonth y m) _ (sub_nonneg.mpr (not_lt.mp hmonth)) hlt'
            (by omega)
        rw [daysBeforeMonth_succ hm] at hdays
        refine ⟨m', d', rem', heq, hpos, hle, hnonneg, hin, ?_, ?_⟩
        · rw [hsum]
          ring
        · omega

/-! ### Dates and times -/

/-- The first of January 2000. -/
def epoch : Date where
  year := 2000
  month := 1
  day := 1
  month_pos := Nat.le_refl 1
  month_le := Nat.le_of_ble_eq_true rfl
  day_pos := Nat.le_refl 1
  day_le := Nat.le_of_ble_eq_true rfl

/-- The fields hold the date, the day of the week of the date and a time of day. -/
structure IsOn (dt : DateTime) (d : Date) : Prop where
  year_eq : dt.year = d.year
  month_eq : dt.month = d.month
  day_eq : dt.day = d.day
  dayOfWeek_eq : dt.dayOfWeek = d.weekday
  hour_lt : dt.hour < 24
  minute_lt : dt.minute < 60
  second_lt : dt.second < 60
  nanosecond_nonneg : 0 ≤ dt.nanosecond
  nanosecond_lt : dt.nanosecond < sec

/-- The nanoseconds since midnight. -/
def timeOfDay (dt : DateTime) : ℤ :=
  dt.nanosecond + dt.second * sec + dt.minute * min + dt.hour * hr

/-- The nanoseconds of local time since the epoch. -/
def localNanos (dt : DateTime) (d : Date) : ℤ :=
  ((d.ordinal : ℤ) - epoch.ordinal) * days + dt.timeOfDay

theorem daysBeforeYear_epoch : daysBeforeYear 2000 = 730485 := by
  have h := daysBeforeYear_eq 2000
  omega

theorem ordinal_epoch : epoch.ordinal = 730485 := by
  simp only [Date.ordinal, epoch, daysBeforeMonth_one, daysBeforeYear_epoch]

variable {dt dt' : DateTime} {d d' : Date}

theorem IsOn.timeOfDay_nonneg (h : IsOn dt d) : 0 ≤ dt.timeOfDay := by
  have h₁ := h.nanosecond_nonneg
  rw [timeOfDay, hr, min, sec]
  omega

theorem IsOn.timeOfDay_lt (h : IsOn dt d) : dt.timeOfDay < days := by
  have h₁ := h.nanosecond_lt
  have h₂ := h.second_lt
  have h₃ := h.minute_lt
  have h₄ := h.hour_lt
  rw [timeOfDay, days, hr, min]
  rw [sec] at *
  omega

/-- The two digits of a number. -/
theorem digits_unique {b a a' q q' : ℤ} (ha : 0 ≤ a ∧ a < b) (ha' : 0 ≤ a' ∧ a' < b)
    (h : a + b * q = a' + b * q') : a = a' ∧ q = q' := by
  have hb : 0 < b := ha.1.trans_lt ha.2
  have h₁ : (a + b * q) / b = q ∧ (a + b * q) % b = a :=
    (Int.ediv_emod_unique hb).mpr ⟨rfl, ha⟩
  have h₂ : (a + b * q) / b = q' ∧ (a + b * q) % b = a' :=
    (Int.ediv_emod_unique hb).mpr ⟨h.symm, ha'⟩
  exact ⟨h₁.2.symm.trans h₂.2, h₁.1.symm.trans h₂.1⟩

/-- The fields are known from local time. -/
theorem IsOn.eq_of_localNanos (h : IsOn dt d) (h' : IsOn dt' d')
    (hoff : dt.utcOffset = dt'.utcOffset) (hlocal : dt.localNanos d = dt'.localNanos d') :
    dt = dt' := by
  have split (dt : DateTime) (d : Date) : dt.localNanos d =
      dt.timeOfDay + days * ((d.ordinal : ℤ) - epoch.ordinal) := by
    rw [localNanos]
    ring
  rw [split, split] at hlocal
  obtain ⟨htime, hday⟩ := digits_unique ⟨h.timeOfDay_nonneg, h.timeOfDay_lt⟩
    ⟨h'.timeOfDay_nonneg, h'.timeOfDay_lt⟩ hlocal
  obtain rfl : d = d' := Date.ordinal_injective (by omega)
  have digits (dt : DateTime) : dt.timeOfDay =
      dt.nanosecond + sec * (dt.second + 60 * (dt.minute + 60 * dt.hour)) := by
    rw [timeOfDay, hr, min]
    ring
  rw [digits, digits] at htime
  obtain ⟨hnano, htime⟩ := digits_unique ⟨h.nanosecond_nonneg, h.nanosecond_lt⟩
    ⟨h'.nanosecond_nonneg, h'.nanosecond_lt⟩ htime
  have h₁ := h.second_lt
  have h₁' := h'.second_lt
  obtain ⟨hsecond, htime⟩ := digits_unique (by omega) (by omega) htime
  have h₂ := h.minute_lt
  have h₂' := h'.minute_lt
  obtain ⟨hminute, hhour⟩ := digits_unique (by omega) (by omega) htime
  exact DateTime.ext (h.year_eq.trans h'.year_eq.symm) (h.month_eq.trans h'.month_eq.symm)
    (h.day_eq.trans h'.day_eq.symm) (h.dayOfWeek_eq.trans h'.dayOfWeek_eq.symm)
    (Nat.cast_injective hhour) (Nat.cast_injective hminute) (Nat.cast_injective hsecond) hnano hoff

/-! ### The conversions -/

theorem days_pos : 0 < days := by decide

/-- The first digit of a number, and the others. -/
theorem tdiv_tmod_spec {rem b : ℤ} {k : ℕ} (hb : 0 < b) (hrem : 0 ≤ rem) (hlt : rem < k * b) :
    ∃ q : ℕ, rem.tdiv b = q ∧ q < k ∧ rem = q * b + rem.tmod b ∧ 0 ≤ rem.tmod b ∧
      rem.tmod b < b := by
  obtain ⟨q, hq⟩ := Int.eq_ofNat_of_zero_le (Int.tdiv_nonneg hrem hb.le)
  have hsum : rem = q * b + rem.tmod b := by
    rw [← hq, mul_comm]
    exact (Int.mul_tdiv_add_tmod rem b).symm
  have hnonneg : 0 ≤ rem.tmod b := Int.tmod_nonneg _ hrem
  have hmul : (q : ℤ) * b < k * b := (Int.le_add_of_nonneg_right hnonneg).trans_lt (hsum ▸ hlt)
  exact ⟨q, hq, Nat.cast_lt.mp (lt_of_mul_lt_mul_right hmul hb.le), hsum, hnonneg,
    Int.tmod_lt_of_pos _ hb⟩

theorem toByte_natCast {v : ℕ} (h : v < 256) : toByte v = v := by
  rw [toByte]
  omega

theorem toShort_natCast {v : ℕ} (h : v < 65536) : toShort v = v := by
  rw [toShort]
  omega

theorem daysInMonth_le (y m : ℕ) : daysInMonth y m ≤ 31 := by
  rw [daysInMonth]
  split_ifs <;> decide

/-- The year of a time that `fromNanos` takes. -/
theorem year_lt {y : ℕ} (rem : ℤ) {n : ℤ} (off : BitVec 32) (hmax : n ≤ nanosMax) (hrem : 0 ≤ rem)
    (hsum : ((daysBeforeYear (y + 2000) : ℤ) - daysBeforeYear 2000) * days + rem =
      n + off.toInt * sec) :
    y + 2000 < 65536 := by
  have hoff : off.toInt < 2147483648 := by
    have := BitVec.toInt_lt (x := off)
    norm_num at this
    exact this
  have hyear := daysBeforeYear_eq (y + 2000)
  rw [daysBeforeYear_epoch] at hsum
  simp only [nanosMax, days, hr, min, sec] at *
  omega

/-- The fields that `fromNanos` sets. -/
theorem fromNanos_spec (dt : DateTime) {n : ℤ} (hn : 0 ≤ n) (hmax : n ≤ nanosMax)
    (hlocal : 0 ≤ n + dt.utcOffset.toInt * sec) :
    ∃ dt' d, dt.fromNanos n = some (0, dt') ∧ dt'.utcOffset = dt.utcOffset ∧ IsOn dt' d ∧
      dt'.localNanos d = n + dt.utcOffset.toInt * sec := by
  obtain ⟨y, dy, r, hyear, hr₀, hr₁, hysum, hydays⟩ := yearLoop_spec 0 0 _ hlocal
  have hleft : r < ((daysBeforeMonth (y + 2000) 13 : ℤ) - daysBeforeMonth (y + 2000) 1) * days := by
    rw [daysBeforeMonth_thirteen, daysBeforeMonth_one, Nat.cast_zero, sub_zero, ← daysInYear_eq]
    exact hr₁
  obtain ⟨m, dm, r', hmonth, hm, hm', hr'₀, hr'₁, hmsum, hmdays⟩ :=
    monthLoop_spec (y + 2000) le_rfl (by decide) dy r hr₀ hleft
  rw [Nat.sub_self, List.drop_zero] at hmonth
  rw [zero_mul, zero_add] at hysum
  rw [zero_add, sub_zero] at hydays
  have hbefore : (dm : ℤ) = daysBeforeYear (y + 2000) - daysBeforeYear 2000 +
      daysBeforeMonth (y + 2000) m := by
    rw [daysBeforeMonth_one, Nat.cast_zero, sub_zero] at hmdays
    rw [← hmdays, ← hydays]
    ring
  obtain ⟨q, hq, hq_lt, hqsum, hq₀, hq₁⟩ := tdiv_tmod_spec days_pos hr'₀ hr'₁
  obtain ⟨h, hh, hh_lt, hhsum, hh₀, hh₁⟩ :=
    tdiv_tmod_spec (b := hr) (k := 24) (by decide) hq₀ hq₁
  obtain ⟨mn, hmn, hmn_lt, hmnsum, hmn₀, hmn₁⟩ :=
    tdiv_tmod_spec (b := min) (k := 60) (by decide) hh₀ hh₁
  obtain ⟨s, hs, hs_lt, hssum, hs₀, hs₁⟩ :=
    tdiv_tmod_spec (b := sec) (k := 60) (by decide) hmn₀ hmn₁
  have hy_lt : y + 2000 < 65536 := by
    refine year_lt r dt.utcOffset hmax hr₀ ?_
    rw [← hydays, hysum]
  have hq_le := daysInMonth_le (y + 2000) m
  let d : Date :=
    { year := y + 2000, month := m, day := q + 1, month_pos := hm, month_le := hm',
      day_pos := Nat.le_add_left .., day_le := hq_lt }
  have hordinal : (d.ordinal : ℤ) = dm + q + 730485 := by
    rw [hbefore, daysBeforeYear_epoch]
    simp only [d, Date.ordinal, Nat.add_sub_cancel]
    omega
  have hweekday : toByte ((dm + ((q + 1 : ℕ) : ℤ) - 1 + epochDayOfWeek).tmod 7) = d.weekday := by
    have hdm : 0 ≤ dm := by
      rw [hbefore]
      have := daysBeforeYear_mono (Nat.le_add_left 2000 y)
      omega
    rw [Date.weekday, toByte, epochDayOfWeek, Int.tmod_eq_emod_of_nonneg (by omega)]
    omega
  let dt' : DateTime :=
    { year := y + 2000, month := m, day := q + 1, dayOfWeek := d.weekday, hour := h, minute := mn,
      second := s, nanosecond := (((r'.tmod days).tmod hr).tmod min).tmod sec,
      utcOffset := dt.utcOffset }
  refine ⟨dt', d, ?_, rfl, ⟨rfl, rfl, rfl, rfl, hh_lt, hmn_lt, hs_lt, hs₀, hs₁⟩, ?_⟩
  · have hday : toByte ((q : ℤ) + 1) = q + 1 := toByte_natCast (v := q + 1) (by omega)
    have hyear' : toShort ((y : ℤ) + 2000) = y + 2000 := toShort_natCast (v := y + 2000) hy_lt
    rw [fromNanos, if_neg (not_or.mpr ⟨not_lt.mpr hn, not_lt.mpr hmax⟩)]
    simp only [hyear, hmonth, hq, hh, hmn, hs, hday, hyear', Option.bind_eq_bind, Option.bind_some]
    rw [hweekday, toByte_natCast (by omega), toByte_natCast (by omega), toByte_natCast (by omega),
      toByte_natCast (by omega)]
  · have htime : dt'.timeOfDay = r' - q * days := by
      simp only [timeOfDay, dt']
      omega
    rw [localNanos, htime, hordinal, ordinal_epoch, ← hysum, ← hmsum]
    push_cast
    ring

theorem IsOn.inRange (h : IsOn dt d) (hyear : 2000 ≤ d.year ∧ d.year ≤ 2099) :
    dt.inRange = true := by
  have h₁ := h.nanosecond_nonneg
  have h₂ : dt.nanosecond < 1000000000 := h.nanosecond_lt
  have h₃ := h.second_lt
  have h₄ := h.minute_lt
  have h₅ := h.hour_lt
  have hmonth := d.month_pos
  have hmonth' := d.month_le
  have hday := d.day_pos
  have hday' := d.day_le
  obtain ⟨entry, hdrop, hentry⟩ := daysPerMonth_drop d.year hmonth hmonth'
  have hget : daysPerMonth.getD (d.month - 1) 0 = entry := by
    rw [List.getD_eq_getElem?_getD, ← List.head?_drop, hdrop]
    rfl
  -- Only the leap day goes beyond the table.
  have hleap : ¬d.day > entry ∨ d.month = feb ∧ d.day = 29 ∧ isLeapYear d.year = true := by
    by_cases hleap : d.month = feb ∧ isLeapYear d.year = true
    · have hfeb : entry = 28 := by
        rw [hleap.1] at hdrop
        exact (List.cons.inj hdrop).1.symm
      rw [hentry, if_pos hleap, hfeb] at hday'
      by_cases h29 : d.day = 29
      · exact .inr ⟨hleap.1, h29, hleap.2⟩
      · exact .inl (by omega)
    · rw [hentry, if_neg hleap] at hday'
      exact .inl (not_lt.mpr hday')
  simp only [DateTime.inRange, h.year_eq, h.month_eq, h.day_eq, hget, dec]
  rcases hleap with hleap | ⟨hleap, h29, hyear'⟩
  · simp
    omega
  · simp [hleap, h29, hyear', feb]
    omega

/-- The days of the months before `m`, from the table. -/
theorem foldl_daysPerMonth (y n : ℕ) {m : ℕ} (hm : 1 ≤ m) (hm' : m ≤ 12) :
    (if m > feb ∧ isLeapYear y = true then
        (List.range' 1 (m - 1)).foldl (fun n i => n + daysPerMonth.getD (i - 1) 0) n + 1
      else (List.range' 1 (m - 1)).foldl (fun n i => n + daysPerMonth.getD (i - 1) 0) n) =
      daysBeforeMonth y m + n := by
  simp only [isLeapYear_iff]
  interval_cases m <;> by_cases hleap : IsLeap y <;>
    simp [daysBeforeMonth_succ, daysBeforeMonth_one, daysInMonth, daysPerMonth, List.range', feb,
      hleap] <;> omega

/-- The days of the years. -/
theorem foldl_leapYears (k : ℕ) (nse : ℤ) :
    (List.range k).foldl (fun nse i => if isLeapYear (i + 2000) then nse + days else nse)
        (nse + k * (365 * days)) =
      nse + ((daysBeforeYear (k + 2000) : ℤ) - daysBeforeYear 2000) * days := by
  induction k generalizing nse with
  | zero =>
      rw [Nat.zero_add, sub_self, Nat.cast_zero, zero_mul, zero_mul]
      rfl
  | succ k ih =>
      have hinit : nse + ((k + 1 : ℕ) : ℤ) * (365 * days) =
          nse + 365 * days + k * (365 * days) := by
        push_cast
        ring
      rw [List.range_succ, List.foldl_append, hinit, ih, Nat.add_right_comm,
        daysBeforeYear_succ (k + 2000), Nat.cast_add, ← daysInYear_eq, daysInYear]
      simp only [List.foldl_cons, List.foldl_nil]
      split <;> ring

/-- The nanoseconds that `toNanos` returns. -/
theorem IsOn.toNanos_eq (h : IsOn dt d) (hyear : 2000 ≤ d.year ∧ d.year ≤ 2099) :
    dt.toNanos = dt.localNanos d - dt.utcOffset.toInt * sec := by
  have hdays : dt.dayOfYear = daysBeforeMonth d.year d.month + (d.day - 1) := by
    rw [dayOfYear, h.year_eq, h.month_eq, h.day_eq]
    exact foldl_daysPerMonth d.year _ d.month_pos d.month_le
  have hyears := foldl_leapYears (d.year - 2000) (dt.timeOfDay + dt.dayOfYear * days)
  rw [Nat.sub_add_cancel hyear.1] at hyears
  rw [toNanos, h.inRange hyear, h.year_eq]
  simp only [Bool.not_true, Bool.false_eq_true, if_false]
  rw [← add_assoc, ← timeOfDay, hyears, hdays, localNanos, ordinal_epoch, Date.ordinal,
    daysBeforeYear_epoch]
  push_cast
  ring

/-- A day whose local time `fromNanos` takes lies in the years of the service. -/
theorem IsOn.year_mem (h : IsOn dt d) (hnonneg : 0 ≤ dt.localNanos d)
    (hmax : dt.localNanos d ≤ nanosMax) : 2000 ≤ d.year ∧ d.year ≤ 2099 := by
  have htime := h.timeOfDay_nonneg
  have htime' := h.timeOfDay_lt
  have hordinal : daysBeforeYear 2000 ≤ d.ordinal ∧ d.ordinal < daysBeforeYear 2100 := by
    have hend := daysBeforeYear_eq 2100
    rw [localNanos, ordinal_epoch] at hnonneg hmax
    rw [daysBeforeYear_epoch]
    simp only [nanosMax, days, hr, min, sec] at htime' hnonneg hmax
    omega
  constructor
  · by_contra hlt
    have h₁ := d.ordinal_lt_year
    have h₂ : daysBeforeYear (d.year + 1) ≤ _ := daysBeforeYear_mono (not_le.mp hlt)
    omega
  · by_contra hlt
    have h₁ := d.le_ordinal_year
    have h₂ : daysBeforeYear 2100 ≤ _ := daysBeforeYear_mono (not_le.mp hlt)
    omega

theorem IsOn.localNanos_nonneg (h : IsOn dt d) (hyear : 2000 ≤ d.year) : 0 ≤ dt.localNanos d := by
  have htime := h.timeOfDay_nonneg
  have hbefore := (daysBeforeYear_mono hyear).trans d.le_ordinal_year
  rw [daysBeforeYear_epoch] at hbefore
  have hdays : 0 ≤ ((d.ordinal : ℤ) - epoch.ordinal) * days := by
    rw [ordinal_epoch]
    exact mul_nonneg (by omega) days_pos.le
  exact add_nonneg hdays htime

/-- `fromNanos` refuses what lies outside its range. -/
theorem fromNanos_nonneg {n : ℤ} (h : dt.fromNanos n = some (0, dt')) : 0 ≤ n ∧ n ≤ nanosMax := by
  rw [fromNanos] at h
  split at h
  · cases h
  · rename_i hrange
    rw [not_or, not_lt, not_lt] at hrange
    exact hrange

/-- While local time does not lie before 2000, `fromNanos` sets a date of the calendar and a time of
day, from which `toNanos` has the nanoseconds back while local time does not lie beyond 2099. Of any
date and time of the years from 2000 to 2099 that lies in the range of `fromNanos` in UTC, the two
conversions restore all fields. -/
theorem conversion_exact :
    (∀ (dt dt' : DateTime) (n : ℤ), dt.fromNanos n = some (0, dt') →
      0 ≤ n + dt.utcOffset.toInt * sec →
        ∃ d, IsOn dt' d ∧ (n + dt.utcOffset.toInt * sec ≤ nanosMax → dt'.toNanos = n)) ∧
    (∀ (dt : DateTime) (d : Date), IsOn dt d → 2000 ≤ d.year → d.year ≤ 2099 →
      0 ≤ dt.toNanos → dt.toNanos ≤ nanosMax →
        ∀ dt₀ : DateTime, dt₀.utcOffset = dt.utcOffset →
          dt₀.fromNanos dt.toNanos = some (0, dt)) := by
  refine ⟨fun dt dt' n hfrom hlocal => ?_, fun dt d hon hge hle hnonneg hmax dt₀ hoff => ?_⟩
  · obtain ⟨hn, hmax⟩ := fromNanos_nonneg hfrom
    obtain ⟨dt₁, d, hfrom₁, hoff, hon, hnanos⟩ := fromNanos_spec dt hn hmax hlocal
    obtain rfl : dt₁ = dt' := congrArg Prod.snd (Option.some.inj (hfrom₁.symm.trans hfrom))
    refine ⟨d, hon, fun hlocal' => ?_⟩
    rw [hon.toNanos_eq (hon.year_mem (hnanos ▸ hlocal) (hnanos ▸ hlocal')), hnanos, hoff,
      add_sub_cancel_right]
  · have hnanos := hon.toNanos_eq ⟨hge, hle⟩
    have hlocal : dt.toNanos + dt₀.utcOffset.toInt * sec = dt.localNanos d := by
      rw [hnanos, hoff, sub_add_cancel]
    obtain ⟨dt₁, d₁, hfrom₁, hoff₁, hon₁, hnanos₁⟩ := fromNanos_spec dt₀ hnonneg hmax
      (hlocal ▸ hon.localNanos_nonneg hge)
    rw [hon₁.eq_of_localNanos hon (hoff₁.trans hoff) (hnanos₁.trans hlocal)] at hfrom₁
    exact hfrom₁

/-- The years that the service does not have. -/
theorem toNanos_of_lt_year (hyear : 2099 < dt.year) : dt.toNanos = invalid := by
  have hrange : dt.inRange = false := by
    simp only [inRange, decide_eq_true hyear, Bool.or_true, Bool.not_true, Bool.false_and]
  rw [toNanos, hrange]
  rfl

theorem IsOn.lt_year (h : IsOn dt d) (hmax : nanosMax < dt.localNanos d) : 2099 < d.year := by
  by_contra hle
  have htime' := h.timeOfDay_lt
  have hend := daysBeforeYear_eq 2100
  have h₁ := d.ordinal_lt_year
  have h₂ : daysBeforeYear (d.year + 1) ≤ daysBeforeYear 2100 :=
    daysBeforeYear_mono (Nat.succ_le_succ (not_lt.mp hle))
  rw [localNanos, ordinal_epoch] at hmax
  simp only [nanosMax, days, hr, min, sec] at htime' hmax
  omega

/-- Noon of the first of January 2000, one hour ahead of UTC. -/
def noon : DateTime where
  year := 2000
  month := 1
  day := 1
  dayOfWeek := 6
  hour := 12
  minute := 0
  second := 0
  nanosecond := 0
  utcOffset := 3600

theorem isOn_noon : IsOn noon epoch where
  year_eq := rfl
  month_eq := rfl
  day_eq := rfl
  dayOfWeek_eq := by
    rw [Date.weekday, ordinal_epoch]
    rfl
  hour_lt := by decide
  minute_lt := by decide
  second_lt := by decide
  nanosecond_nonneg := by decide
  nanosecond_lt := by decide

theorem toNanos_noon : noon.toNanos = 11 * hr := by decide

theorem conversion_exact_noon :
    noon.fromNanos (11 * hr) = some (0, noon) ∧ ∃ d, IsOn noon d ∧ noon.toNanos = 11 * hr := by
  have hfrom : noon.fromNanos (11 * hr) = some (0, noon) := by
    have h := conversion_exact.2 noon epoch isOn_noon (by decide) (by decide) (by decide)
      (by decide) noon rfl
    rwa [toNanos_noon] at h
  obtain ⟨d, hon, hto⟩ := conversion_exact.1 noon noon (11 * hr) hfrom (by decide)
  exact ⟨hfrom, d, hon, hto (by decide)⟩

/-- The first of January 2000, `off` seconds ahead of UTC. -/
def newYear (off : BitVec 32) : DateTime :=
  { noon with hour := 0, utcOffset := off }

theorem isOn_newYear (off : BitVec 32) : IsOn (newYear off) epoch :=
  { isOn_noon with hour_lt := Nat.zero_lt_succ _ }

/-- A second behind UTC, the second before 2000 is the second 255 of the first minute. -/
theorem fromNanos_beforeEpoch :
    (newYear (-1)).fromNanos 0 = some (0, { newYear (-1) with second := 255 }) := by
  have hyear : yearLoop 0 0 (0 + (newYear (-1)).utcOffset.toInt * sec) = (0, 0, -sec) := by
    rw [yearLoop, if_pos (by decide)]
    rfl
  rw [fromNanos, if_neg (by decide)]
  simp only [hyear]
  rfl

/-- The nanosecond is not cut off, a local time before 2000 gives no time of day, one after 2099 is
not converted back, and neither is one that lies before 2000 in UTC. -/
theorem not_conversion_exact :
    (∃ (dt dt' : DateTime) (n : ℤ), dt.fromNanos n = some (0, dt') ∧ dt'.toNanos ≠ n - n % sec) ∧
    (∃ (dt dt' : DateTime) (n : ℤ), dt.fromNanos n = some (0, dt') ∧ ∀ d, ¬IsOn dt' d) ∧
    (∃ (dt dt' : DateTime) (n : ℤ), dt.fromNanos n = some (0, dt') ∧
      0 ≤ n + dt.utcOffset.toInt * sec ∧ dt'.toNanos ≠ n) ∧
    (∃ (dt : DateTime) (d : Date), IsOn dt d ∧ 2000 ≤ d.year ∧ d.year ≤ 2099 ∧
      dt.fromNanos dt.toNanos ≠ some (0, dt)) := by
  refine ⟨?_, ?_, ?_, ?_⟩
  · obtain ⟨dt', d, hfrom, hoff, hon, hnanos⟩ := fromNanos_spec (newYear 0) (n := 1)
      (by decide) (by decide) (by decide)
    refine ⟨newYear 0, dt', 1, hfrom, ?_⟩
    rw [hon.toNanos_eq (hon.year_mem (hnanos ▸ by decide) (hnanos ▸ by decide)), hnanos, hoff]
    decide
  · exact ⟨newYear (-1), _, 0, fromNanos_beforeEpoch, fun d hon => absurd hon.second_lt (by decide)⟩
  · obtain ⟨dt', d, hfrom, hoff, hon, hnanos⟩ := fromNanos_spec (newYear 1) (n := nanosMax)
      (by decide) le_rfl (by decide)
    refine ⟨newYear 1, dt', nanosMax, hfrom, by decide, ?_⟩
    rw [toNanos_of_lt_year (hon.year_eq ▸ hon.lt_year (hnanos ▸ by decide))]
    decide
  · refine ⟨newYear 1, epoch, isOn_newYear 1, by decide, by decide, ?_⟩
    rw [fromNanos, if_pos (.inl (by decide))]
    rintro ⟨⟩

end DateTime

end Sedona
