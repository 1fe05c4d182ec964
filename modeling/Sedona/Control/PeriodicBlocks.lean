import Mathlib.Data.Int.Init
import Mathlib.Algebra.Order.Field.Rat
import Mathlib.Tactic.IntervalCases
import Sedona.Library.GuardedRuns

/-!
# TickTock and Ramp

The two periodic blocks of the control kit divide the ticks by a cached length of their period.
`LongDiv` and `LongMod` of the SVM do not guard the divisor: a zero stops the device, and so the
step functions here give no state then. Everything may happen in any order: the network writes a
property (its facets are not checked), `start`, `changed` for any slot, and `execute`. `long` is
64-bit; the float operations of Ramp are a parameter.

## Main results

* `TickTock.run_isSome_iff`, `Ramp.run_isSome_iff`: the runs without a division by zero.
* `TickTock.square_wave`: the output for one to ten ticks a second.
* `periodic_blocks`: the three together.
-/

namespace Sedona.Control

open Transition GuardedRuns

/-- `LongDiv`: the device stops when the divisor is zero. -/
def longDiv (a b : BitVec 64) : Option (BitVec 64) := if b = 0#64 then none else some (a.sdiv b)

/-- `LongMod`: the device stops when the divisor is zero. -/
def longMod (a b : BitVec 64) : Option (BitVec 64) := if b = 0#64 then none else some (a.srem b)

/-- A long that is not negative. -/
def NonNeg (a : BitVec 64) : Prop := a.toNat < 0x8000000000000000

theorem NonNeg.msb {a : BitVec 64} (h : NonNeg a) : a.msb = false := by
  rw [BitVec.msb_eq_false_iff_two_mul_lt]
  rw [NonNeg] at h
  omega

/-- Division of longs that are not negative is division of naturals. -/
theorem longDiv_of_nonNeg {a b : BitVec 64} (ha : NonNeg a) (hb : NonNeg b) (hne : b ≠ 0#64) :
    longDiv a b = some (a / b) := by
  rw [longDiv, if_neg hne, BitVec.sdiv_eq, ha.msb, hb.msb]
  rfl

theorem longMod_of_nonNeg {a b : BitVec 64} (ha : NonNeg a) (hb : NonNeg b) (hne : b ≠ 0#64) :
    longMod a b = some (a % b) := by
  rw [longMod, if_neg hne, BitVec.srem_eq, ha.msb, hb.msb]

/-! ### TickTock -/

/-- The slots of the component and its cached half period. -/
structure TickTock where
  out : Bool
  ticksPerSec : BitVec 32
  halfPeriod : BitVec 64

namespace TickTock

/-- The slots, as `changed` receives them. -/
inductive Slot
  | out
  | ticksPerSec
  deriving DecidableEq

/-- `halfPeriod = 500ms / (long)ticksPerSec`. -/
def setHalfPeriod (s : TickTock) : Option TickTock := do
  let halfPeriod ← longDiv 500000000 (s.ticksPerSec.signExtend 64)
  some { s with halfPeriod }

/-- Callback when the component is first started. -/
def start (s : TickTock) : Option TickTock := s.setHalfPeriod

/-- One scan: the output is on in the first half of the period. -/
def execute (s : TickTock) (ticks : BitVec 64) : Option TickTock := do
  let halves ← longDiv ticks s.halfPeriod
  let parity ← longMod halves 2#64
  some { s with out := parity == 0#64 }

/-- Callback when a property is changed. -/
def changed (s : TickTock) (slot : Slot) : Option TickTock :=
  if slot = .ticksPerSec then s.setHalfPeriod else some s

/-- What may happen to the component. -/
inductive Event
  | write (ticksPerSec : BitVec 32)
  | start
  | changed (slot : Slot)
  | execute (ticks : BitVec 64)

/-- One event. -/
def step (s : TickTock) : Event → Option TickTock
  | .write ticksPerSec => some { s with ticksPerSec }
  | .start => s.start
  | .changed slot => s.changed slot
  | .execute ticks => s.execute ticks

/-- A component with a value of its property, before it is started. -/
def created (ticksPerSec : BitVec 32) : TickTock := ⟨false, ticksPerSec, 0#64⟩

/-- What the events before say: the latest value written, and the value at the latest `start` or
`changed` of the property. -/
structure History where
  written : BitVec 32
  computed : Option (BitVec 32)

/-- The history after one more event. -/
def note (h : History) : Event → History
  | .write ticksPerSec => { h with written := ticksPerSec }
  | .start => { h with computed := some h.written }
  | .changed slot => if slot = .ticksPerSec then { h with computed := some h.written } else h
  | .execute _ => h

/-- `start` and `changed` need a value that is not zero, `execute` needs one of them before it,
with a value that is not more than the nanoseconds of half a second. -/
def Allowed (h : History) : Event → Prop
  | .write _ => True
  | .start => h.written ≠ 0#32
  | .changed slot => slot = .ticksPerSec → h.written ≠ 0#32
  | .execute _ => ∃ n, h.computed = some n ∧ n.toInt.natAbs ≤ 500000000

/-- The half period of a value. -/
def halfPeriodOf (n : BitVec 32) : BitVec 64 := (500000000 : BitVec 64).sdiv (n.signExtend 64)

/-- The history describes the state. -/
structure Describes (h : History) (s : TickTock) : Prop where
  written : s.ticksPerSec = h.written
  computed : s.halfPeriod = (h.computed.map halfPeriodOf).getD 0#64
  nonzero : ∀ n, h.computed = some n → n ≠ 0#32

theorem signExtend_eq_zero (n : BitVec 32) : n.signExtend 64 = 0#64 ↔ n = 0#32 := by
  rw [← BitVec.toInt_inj, BitVec.toInt_signExtend_of_le (by decide), ← BitVec.toInt_inj]
  simp

/-- A half period is zero for the values beyond the nanoseconds of half a second. -/
theorem halfPeriodOf_ne_zero {n : BitVec 32} (hn : n ≠ 0#32) :
    halfPeriodOf n ≠ 0#64 ↔ n.toInt.natAbs ≤ 500000000 := by
  have hdiv : (halfPeriodOf n).toInt = (500000000 : ℤ).tdiv n.toInt := by
    rw [halfPeriodOf, BitVec.toInt_sdiv_of_ne_or_ne _ _ (Or.inl (by decide)),
      BitVec.toInt_signExtend_of_le (by decide)]
    rfl
  have hpos : 0 < n.toInt.natAbs := by
    rw [Int.natAbs_pos, ne_eq, ← BitVec.toInt_zero (w := 32), BitVec.toInt_inj]
    exact hn
  have hzero : (0#64).toInt = 0 := rfl
  rw [ne_eq, ← BitVec.toInt_inj, hdiv, hzero, ← Int.natAbs_eq_zero, Int.natAbs_tdiv]
  exact (not_congr (Nat.div_eq_zero_iff_lt hpos)).trans not_lt

theorem setHalfPeriod_eq (s : TickTock) :
    s.setHalfPeriod = if s.ticksPerSec = 0#32 then none
      else some { s with halfPeriod := halfPeriodOf s.ticksPerSec } := by
  simp only [setHalfPeriod, longDiv, signExtend_eq_zero]
  split <;> rfl

theorem execute_isSome (s : TickTock) (ticks : BitVec 64) :
    (s.execute ticks).isSome = true ↔ s.halfPeriod ≠ 0#64 := by
  by_cases h : s.halfPeriod = 0#64 <;> simp [execute, longDiv, longMod, h]

theorem execute_halfPeriod {s t : TickTock} {ticks : BitVec 64} (h : s.execute ticks = some t) :
    t.ticksPerSec = s.ticksPerSec ∧ t.halfPeriod = s.halfPeriod := by
  obtain ⟨halves, -, hrest⟩ := Option.bind_eq_some_iff.mp h
  obtain ⟨parity, -, hstate⟩ := Option.bind_eq_some_iff.mp hrest
  obtain rfl := Option.some.inj hstate
  exact ⟨rfl, rfl⟩

theorem describes_created (n : BitVec 32) : Describes ⟨n, none⟩ (created n) :=
  ⟨rfl, rfl, fun _ h => absurd h (by simp)⟩

theorem setHalfPeriod_isSome {h : History} {s : TickTock} (hd : Describes h s) :
    s.setHalfPeriod.isSome = true ↔ h.written ≠ 0#32 := by
  rw [setHalfPeriod_eq, hd.written]
  split <;> simp_all

/-- A step is possible exactly when its history allows it. -/
theorem step_isSome {h : History} {s : TickTock} (e : Event) (hd : Describes h s) :
    (s.step e).isSome = true ↔ Allowed h e := by
  cases e with
  | write n => exact iff_of_true rfl trivial
  | start => exact setHalfPeriod_isSome hd
  | changed slot =>
      by_cases hslot : slot = .ticksPerSec
      · simpa [step, changed, Allowed, hslot] using setHalfPeriod_isSome hd
      · simp [step, changed, Allowed, hslot]
  | execute ticks =>
      refine (execute_isSome s ticks).trans ?_
      rw [hd.computed, Allowed]
      cases hcomp : h.computed with
      | none => simp
      | some n => simpa using halfPeriodOf_ne_zero (hd.nonzero n hcomp)

theorem Describes.setHalfPeriod {h : History} {s t : TickTock} (hd : Describes h s)
    (ht : s.setHalfPeriod = some t) : Describes { h with computed := some h.written } t := by
  rw [setHalfPeriod_eq] at ht
  split at ht
  · cases ht
  · rename_i hne
    obtain rfl := Option.some.inj ht
    refine ⟨hd.written, by rw [hd.written]; rfl, fun n hn => ?_⟩
    rwa [← Option.some.inj hn, ← hd.written]

/-- A step leaves a state that its history describes. -/
theorem Describes.step {h : History} {s t : TickTock} (e : Event) (hd : Describes h s)
    (ht : s.step e = some t) : Describes (note h e) t := by
  cases e with
  | write n =>
      obtain rfl := Option.some.inj ht
      exact ⟨rfl, hd.computed, hd.nonzero⟩
  | start => exact hd.setHalfPeriod ht
  | changed slot =>
      by_cases hslot : slot = .ticksPerSec
      · simp only [TickTock.step, changed, note, if_pos hslot] at ht ⊢
        exact hd.setHalfPeriod ht
      · simp only [TickTock.step, changed, note, if_neg hslot] at ht ⊢
        obtain rfl := Option.some.inj ht
        exact hd
  | execute ticks =>
      obtain ⟨hwritten, hhalf⟩ := execute_halfPeriod ht
      exact ⟨hwritten.trans hd.written, hhalf.trans hd.computed, hd.nonzero⟩

/-- **A run divides by zero nowhere exactly when every event is allowed** by those before it. -/
theorem run_isSome_iff (n : BitVec 32) (events : List Event) :
    (run step (created n) events).isSome = true ↔ AllAllowed note Allowed ⟨n, none⟩ events :=
  GuardedRuns.run_isSome_iff (R := Describes) (fun _ _ e hd => step_isSome e hd)
    (fun _ _ e _ hd ht => hd.step e ht) (describes_created n) events

/-! The wave -/

/-- The output over the ticks is a square wave of `n` whole periods of `2 * half` nanoseconds a
second: on in the first half of each period, with less than `2 * n` nanoseconds of the second
left after the `n` periods. Ticks are below `2 ^ 63`. -/
structure SquareWave (n half : ℕ) (out : ℕ → Option Bool) : Prop where
  wave : ∀ t < 0x8000000000000000, out t = some (decide (t % (2 * half) < half))
  whole : 1000000000 / (2 * half) = n
  rest : 1000000000 % (2 * half) < 2 * n

/-- What a scan at a time leaves on the output, if the device goes on. -/
def outAt (s : TickTock) (t : ℕ) : Option Bool := (s.execute (BitVec.ofNat 64 t)).map (·.out)

theorem halfPeriodOf_small {n : BitVec 32} (hlow : 1 ≤ n.toNat) (hhigh : n.toNat ≤ 10) :
    (halfPeriodOf n).toNat = 500000000 / n.toNat := by
  have hall : ∀ m : Fin 11, 1 ≤ m.val →
      (halfPeriodOf (BitVec.ofNat 32 m.val)).toNat = 500000000 / m.val := by decide
  have hn := hall ⟨n.toNat, by omega⟩ hlow
  rwa [BitVec.ofNat_toNat, BitVec.setWidth_eq] at hn

/-- A scan leaves the parity of the half period it is in. -/
theorem outAt_eq {s : TickTock} (hhalf : NonNeg s.halfPeriod) (hne : s.halfPeriod ≠ 0#64) {t : ℕ}
    (ht : t < 0x8000000000000000) :
    s.outAt t = some (decide (t / s.halfPeriod.toNat % 2 = 0)) := by
  have htoNat : (BitVec.ofNat 64 t).toNat = t := by
    rw [BitVec.toNat_ofNat]
    omega
  have hnow : NonNeg (BitVec.ofNat 64 t) := by rwa [NonNeg, htoNat]
  have hquot : NonNeg (BitVec.ofNat 64 t / s.halfPeriod) := by
    rw [NonNeg, BitVec.toNat_udiv, htoNat]
    exact lt_of_le_of_lt (Nat.div_le_self _ _) ht
  rw [outAt, execute, longDiv_of_nonNeg hnow hhalf hne, Option.bind_eq_bind, Option.bind_some,
    longMod_of_nonNeg hquot (by simp [NonNeg]) (by decide), Option.bind_some,
    Option.map_some, Option.some_inj]
  rw [Bool.eq_iff_iff, beq_iff_eq, decide_eq_true_iff, ← BitVec.toNat_inj, BitVec.toNat_umod,
    BitVec.toNat_udiv, htoNat]
  rfl

/-- **One to ten ticks a second give a square wave** of as many whole periods a second. -/
theorem square_wave {n₀ : BitVec 32} {events : List Event} {s : TickTock} {n : BitVec 32}
    (hrun : run step (created n₀) events = some s)
    (hcomp : (events.foldl note ⟨n₀, none⟩).computed = some n)
    (hlow : 1 ≤ n.toNat) (hhigh : n.toNat ≤ 10) :
    SquareWave n.toNat (500000000 / n.toNat) s.outAt := by
  have hd : Describes (events.foldl note ⟨n₀, none⟩) s :=
    GuardedRuns.run_related (R := Describes) (fun _ _ e _ hd ht => hd.step e ht)
      (describes_created n₀) hrun
  have hhalf : s.halfPeriod.toNat = 500000000 / n.toNat := by
    rw [hd.computed, hcomp, Option.map_some, Option.getD_some]
    exact halfPeriodOf_small hlow hhigh
  generalize n.toNat = m at hlow hhigh hhalf ⊢
  have hpos : 0 < 500000000 / m := Nat.div_pos (by omega) hlow
  have hle : 500000000 / m ≤ 500000000 := Nat.div_le_self _ _
  refine ⟨fun t ht => ?_, ?_, ?_⟩
  · have hne : s.halfPeriod ≠ 0#64 := by
      rintro hzero
      rw [hzero] at hhalf
      exact hpos.ne hhalf
    rw [outAt_eq (by rw [NonNeg, hhalf]; omega) hne ht, hhalf]
    -- the parity of the half period says which half of the period it is
    refine congrArg some (decide_eq_decide.mpr ?_)
    rw [← Nat.mod_mul_right_div_self, Nat.mul_comm, Nat.div_eq_zero_iff_lt hpos]
  · interval_cases m <;> rfl
  · interval_cases m <;> decide

end TickTock

/-! ### Ramp -/

/-- The float operations of the device. -/
structure FloatOps (F : Type) where
  zero : F
  half : F
  one : F
  two : F
  add : F → F → F
  sub : F → F → F
  mul : F → F → F
  div : F → F → F
  eq : F → F → Bool
  gt : F → F → Bool
  ofLong : BitVec 64 → F
  toLong : F → BitVec 64

/-- The slots of the component and its cached range and period. -/
structure Ramp (F : Type) where
  out : F
  min : F
  max : F
  period : F
  rampType : Bool
  range : F
  periodInNanos : BitVec 64

namespace Ramp

variable {F : Type} (ops : FloatOps F)

/-- The slots, as `changed` receives them. -/
inductive Slot
  | out
  | min
  | max
  | period
  | rampType
  deriving DecidableEq

/-- `(long)(period * (float)1sec)`. -/
def nanos (period : F) : BitVec 64 := ops.toLong (ops.mul period (ops.ofLong 1000000000#64))

/-- Compute the internal constants at startup. -/
def start (s : Ramp F) : Ramp F :=
  { s with periodInNanos := nanos ops s.period, range := ops.sub s.max s.min }

/-- Recompute the internal constants when a parameter changes. -/
def changed (s : Ramp F) (slot : Slot) : Ramp F :=
  let s := if slot = .period then { s with periodInNanos := nanos ops s.period } else s
  if slot = .min ∨ slot = .max then { s with range := ops.sub s.max s.min } else s

/-- One scan. -/
def execute (s : Ramp F) (now : BitVec 64) : Option (Ramp F) :=
  if ops.eq s.period ops.zero then some { s with out := s.min }
  else do
    let ticksThisCycle ← longMod now s.periodInNanos
    let fracOfCycle := ops.div (ops.ofLong ticksThisCycle) (ops.ofLong s.periodInNanos)
    let fracOfCycle :=
      if s.rampType then
        let fracOfCycle :=
          if ops.gt fracOfCycle ops.half then ops.sub ops.one fracOfCycle else fracOfCycle
        ops.mul fracOfCycle ops.two
      else fracOfCycle
    some { s with out := ops.add (ops.mul fracOfCycle s.range) s.min }

/-- What may happen to the component. -/
inductive Event (F : Type)
  | writePeriod (period : F)
  | writeMin (min : F)
  | writeMax (max : F)
  | writeRampType (rampType : Bool)
  | start
  | changed (slot : Slot)
  | execute (ticks : BitVec 64)

/-- One event. -/
def step (s : Ramp F) : Event F → Option (Ramp F)
  | .writePeriod period => some { s with period }
  | .writeMin min => some { s with min }
  | .writeMax max => some { s with max }
  | .writeRampType rampType => some { s with rampType }
  | .start => some (s.start ops)
  | .changed slot => some (s.changed ops slot)
  | .execute ticks => s.execute ops ticks

/-- The component before it is started: its cached period is zero. -/
def created (s : Ramp F) : Ramp F := { s with periodInNanos := 0#64 }

/-- What the events before say: the latest period written, and the period at the latest `start`
or `changed` of that slot. -/
structure History (F : Type) where
  written : F
  computed : Option F

/-- The history after one more event. -/
def note (h : History F) : Event F → History F
  | .writePeriod period => { h with written := period }
  | .start => { h with computed := some h.written }
  | .changed slot => if slot = .period then { h with computed := some h.written } else h
  | _ => h

/-- `execute` needs a period of zero, or one before it that is some nanoseconds. -/
def Allowed (h : History F) : Event F → Prop
  | .execute _ =>
      ops.eq h.written ops.zero = true ∨ ∃ p, h.computed = some p ∧ nanos ops p ≠ 0#64
  | _ => True

/-- The history describes the state. -/
structure Describes (h : History F) (s : Ramp F) : Prop where
  written : s.period = h.written
  computed : s.periodInNanos = (h.computed.map (nanos ops)).getD 0#64

variable {ops}

theorem execute_isSome (s : Ramp F) (now : BitVec 64) :
    (s.execute ops now).isSome = true ↔
      ops.eq s.period ops.zero = true ∨ s.periodInNanos ≠ 0#64 := by
  by_cases hzero : ops.eq s.period ops.zero = true
  · simp [execute, hzero]
  · by_cases hnanos : s.periodInNanos = 0#64 <;> simp [execute, longMod, hzero, hnanos]

theorem execute_cached {s t : Ramp F} {now : BitVec 64} (h : s.execute ops now = some t) :
    t.period = s.period ∧ t.periodInNanos = s.periodInNanos := by
  rw [execute] at h
  split at h
  · obtain rfl := Option.some.inj h
    exact ⟨rfl, rfl⟩
  · obtain ⟨ticks, -, hstate⟩ := Option.bind_eq_some_iff.mp h
    obtain rfl := Option.some.inj hstate
    exact ⟨rfl, rfl⟩

/-- A step is possible exactly when its history allows it. -/
theorem step_isSome {h : History F} {s : Ramp F} (e : Event F) (hd : Describes ops h s) :
    (s.step ops e).isSome = true ↔ Allowed ops h e := by
  cases e with
  | execute ticks =>
      refine (execute_isSome s ticks).trans ?_
      rw [hd.written, hd.computed, Allowed]
      cases h.computed <;> simp
  | _ => exact iff_of_true rfl trivial

/-- A step leaves a state that its history describes. -/
theorem Describes.step {h : History F} {s t : Ramp F} (e : Event F) (hd : Describes ops h s)
    (ht : s.step ops e = some t) : Describes ops (note h e) t := by
  cases e with
  | execute ticks =>
      obtain ⟨hperiod, hnanos⟩ := execute_cached ht
      exact ⟨hperiod.trans hd.written, hnanos.trans hd.computed⟩
  | start =>
      obtain rfl := Option.some.inj ht
      exact ⟨hd.written, congrArg (nanos ops) hd.written⟩
  | changed slot =>
      obtain rfl := Option.some.inj ht
      cases slot with
      | period => exact ⟨hd.written, congrArg (nanos ops) hd.written⟩
      | _ => exact ⟨hd.written, hd.computed⟩
  | writePeriod period =>
      obtain rfl := Option.some.inj ht
      exact ⟨rfl, hd.computed⟩
  | _ =>
      obtain rfl := Option.some.inj ht
      exact ⟨hd.written, hd.computed⟩

/-- **A run divides by zero nowhere exactly when every event is allowed** by those before it. -/
theorem run_isSome_iff (s : Ramp F) (events : List (Event F)) :
    (run (step ops) s.created events).isSome = true ↔
      AllAllowed note (Allowed ops) ⟨s.period, none⟩ events :=
  GuardedRuns.run_isSome_iff (R := Describes ops) (fun _ _ e hd => step_isSome e hd)
    (fun _ _ e _ hd ht => hd.step e ht) ⟨rfl, rfl⟩ events

end Ramp

/-! ### The two blocks -/

/-- **The periodic blocks**: the runs of TickTock and of Ramp without a division by zero, and the
square wave of TickTock. -/
theorem periodic_blocks {F : Type} (ops : FloatOps F) :
    (∀ n events, (run TickTock.step (TickTock.created n) events).isSome = true ↔
      AllAllowed TickTock.note TickTock.Allowed ⟨n, none⟩ events) ∧
    (∀ (s : Ramp F) events, (run (Ramp.step ops) s.created events).isSome = true ↔
      AllAllowed Ramp.note (Ramp.Allowed ops) ⟨s.period, none⟩ events) ∧
    (∀ n₀ events s n, run TickTock.step (TickTock.created n₀) events = some s →
      (events.foldl TickTock.note ⟨n₀, none⟩).computed = some n →
      1 ≤ n.toNat → n.toNat ≤ 10 →
      TickTock.SquareWave n.toNat (500000000 / n.toNat) s.outAt) :=
  ⟨TickTock.run_isSome_iff, Ramp.run_isSome_iff, fun _ _ _ _ => TickTock.square_wave⟩

/-- Exact floats: rationals, cut off towards zero. -/
def exactOps : FloatOps ℚ where
  zero := 0
  half := 1 / 2
  one := 1
  two := 2
  add := (· + ·)
  sub := (· - ·)
  mul := (· * ·)
  div := (· / ·)
  eq a b := a == b
  gt a b := decide (b < a)
  ofLong a := a.toInt
  toLong a := BitVec.ofInt 64 (a.num.tdiv a.den)

/-- Four ticks a second: periods of a quarter of a second. -/
theorem periodic_blocks_four :
    TickTock.SquareWave 4 125000000 (TickTock.outAt ⟨false, 4#32, 125000000#64⟩) :=
  (periodic_blocks exactOps).2.2 4#32 [.start] _ 4#32 rfl rfl (by decide) (by decide)

/-- A tick rate of zero, written by the network: the callback divides by it. -/
theorem not_guarded :
    ¬ ∀ n events, (run TickTock.step (TickTock.created n) events).isSome = true := by
  intro h
  have hrun := h 1#32 [.start, .write 0#32, .changed .ticksPerSec]
  revert hrun
  decide

end Sedona.Control
