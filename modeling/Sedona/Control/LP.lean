import Mathlib.Algebra.Order.Field.Basic
import Mathlib.Algebra.Order.Field.Rat
import Mathlib.Tactic.FieldSimp
import Mathlib.Tactic.Linarith
import Mathlib.Tactic.NormNum
import Mathlib.Tactic.Ring

/-!
# LP

`control::LP` is a PID loop. The integral is kept as a sum of errors; its limits are constants
that `changed` recomputes when a tuning property changes, and a change of `kp` or `ki` rescales
the sum. Float arithmetic is exact, over an ordered field; ticks are 64-bit.

A run is `start`, then executions and changes of properties in any order, each change followed by
its callback.

## Main results

* `Inv`: the cached gains and limits belong to the current properties, in every state of a run.
* `loop_limits`: after a call that runs the loop the integral term lies between the limits and the
  output follows the limited demand; a change of a gain between two values that are not zero leaves
  the integral term.
-/

namespace Sedona.Control

variable {K : Type*} [Field K] [LinearOrder K]

/-- The slots and the private fields of the component. -/
structure LP (K : Type*) where
  enable : Bool
  sp : K
  cv : K
  out : K
  kp : K
  ki : K
  kd : K
  max : K
  min : K
  bias : K
  maxDelta : K
  direct : Bool
  exTime : BitVec 32
  executeTime : BitVec 64
  kPkIconst : K
  kpOld : K
  kiOld : K
  scaledMax : K
  scaledMin : K
  lastExecTime : BitVec 64
  errorSum : K
  lastError : K

namespace LP

/-- `(long)exTime * 1ms`. -/
def millis (exTime : BitVec 32) : BitVec 64 := exTime.signExtend 64 * 1000000#64

/-- The execution time and the limits of the error sum. -/
def computeConstants (s : LP K) : LP K :=
  let kPkIconst := s.kp * s.ki / 60
  { s with
    executeTime := millis s.exTime
    kPkIconst
    scaledMax := if kPkIconst = 0 then 0 else s.max / kPkIconst
    scaledMin := if kPkIconst = 0 then 0 else s.min / kPkIconst }

/-- Callback when the component is first started. -/
def start (s : LP K) : LP K := { s with kiOld := s.ki, kpOld := s.kp }.computeConstants

/-- A value between two limits: the upper one is tested first. -/
def limit (max min v : K) : K := if v > max then max else if v < min then min else v

/-- The error sum after one more error, constrained to prevent integral windup. -/
def integrate (s : LP K) (iError : K) : K :=
  let errorSum := s.errorSum + iError
  if s.direct then
    if -errorSum > s.scaledMax then -s.scaledMax
    else if -errorSum < s.scaledMin then -s.scaledMin else errorSum
  else
    if errorSum > s.scaledMax then s.scaledMax
    else if errorSum < s.scaledMin then s.scaledMin else errorSum

/-- The demand of the loop within its limits. -/
def demand (s : LP K) (error deltaSecs : K) : K :=
  let proportionalGain := error * s.kp
  let integralGain := s.kp * s.ki * s.errorSum / 60
  let derivativeGain := s.kp * s.kd * (error - s.lastError) / deltaSecs
  let pv := proportionalGain + integralGain + derivativeGain
  let pv := if s.direct then -pv else pv
  let pv := if s.ki = 0 then pv + s.bias else pv
  limit s.max s.min pv

/-- The output on its way to the demand: a `maxDelta` of zero disables the check. -/
def follow (out pv maxDelta : K) : K :=
  if maxDelta ≠ 0 then
    if out > pv then
      if out - pv > maxDelta then out - maxDelta else pv
    else
      if pv - out > maxDelta then out + maxDelta else pv
  else pv

/-- The loop runs: it is enabled, its time has come, and the gain is not zero. -/
def Runs (s : LP K) (now : BitVec 64) : Prop :=
  s.enable = true ∧ ¬ (now - s.lastExecTime).slt s.executeTime = true ∧ s.kp ≠ 0

/-- The seconds since the last execution. -/
def deltaSecs (s : LP K) (now : BitVec 64) : K :=
  ((now - s.lastExecTime).toInt : K) / 1000000000

/-- The time and the error sum of a call that runs the loop, before it computes its demand. -/
def accumulate (s : LP K) (now : BitVec 64) : LP K :=
  { s with
    lastExecTime := now
    errorSum := if s.ki ≠ 0 then s.integrate (s.deltaSecs now * (s.sp - s.cv)) else s.errorSum }

/-- The limited demand of a call that runs the loop. -/
def loopDemand (s : LP K) (now : BitVec 64) : K :=
  (s.accumulate now).demand (s.sp - s.cv) (s.deltaSecs now)

/-- One scan. -/
def execute (s : LP K) (now : BitVec 64) : LP K :=
  if !s.enable then s
  else if (now - s.lastExecTime).slt s.executeTime then s
  else if s.kp = 0 then { s with lastExecTime := now }
  else
    { s.accumulate now with
      lastError := s.sp - s.cv
      out := follow s.out (s.loopDemand now) s.maxDelta }

/-- A new value for a property, with the slot it goes to. -/
inductive Write (K : Type*)
  | enable (v : Bool)
  | sp (v : K)
  | cv (v : K)
  | kp (v : K)
  | ki (v : K)
  | kd (v : K)
  | max (v : K)
  | min (v : K)
  | bias (v : K)
  | maxDelta (v : K)
  | direct (v : Bool)
  | exTime (v : BitVec 32)

/-- The property takes its value. -/
def set (s : LP K) : Write K → LP K
  | .enable v => { s with enable := v }
  | .sp v => { s with sp := v }
  | .cv v => { s with cv := v }
  | .kp v => { s with kp := v }
  | .ki v => { s with ki := v }
  | .kd v => { s with kd := v }
  | .max v => { s with max := v }
  | .min v => { s with min := v }
  | .bias v => { s with bias := v }
  | .maxDelta v => { s with maxDelta := v }
  | .direct v => { s with direct := v }
  | .exTime v => { s with exTime := v }

/-- The slots whose change recomputes the constants. -/
def Write.tunes : Write K → Bool
  | .kp _ | .ki _ | .kd _ | .max _ | .min _ | .exTime _ => true
  | _ => false

/-- Callback when the property of a write is changed. -/
def changed (s : LP K) (slot : Write K) : LP K :=
  let s := if slot.tunes then s.computeConstants else s
  match slot with
  | .kp _ =>
      { s with
        errorSum := if s.kp ≠ 0 ∧ s.kpOld ≠ 0 then s.errorSum * s.kpOld / s.kp else s.errorSum
        kpOld := s.kp }
  | .ki _ =>
      { s with
        errorSum := if s.ki ≠ 0 ∧ s.kiOld ≠ 0 then s.errorSum * s.kiOld / s.ki else s.errorSum
        kiOld := s.ki }
  | _ => s

/-- A change of a property: the new value and the callback. -/
def write (s : LP K) (w : Write K) : LP K := (s.set w).changed w

/-- What may happen to the component. -/
inductive Event (K : Type*)
  | write (w : Write K)
  | execute (now : BitVec 64)

/-- One event. -/
def step (s : LP K) : Event K → LP K
  | .write w => s.write w
  | .execute now => s.execute now

/-- The state after a run of events. -/
def run (s : LP K) (events : List (Event K)) : LP K := events.foldl step s

/-- The part of the integral in the demand. -/
def integralTerm (s : LP K) : K := s.kp * s.ki * s.errorSum / 60

/-! ### The cached values -/

/-- The cached values belong to the properties. -/
structure Inv (s : LP K) : Prop where
  kpOld : s.kpOld = s.kp
  kiOld : s.kiOld = s.ki
  executeTime : s.executeTime = millis s.exTime
  scaledMax : s.scaledMax = if s.kp * s.ki / 60 = 0 then 0 else s.max / (s.kp * s.ki / 60)
  scaledMin : s.scaledMin = if s.kp * s.ki / 60 = 0 then 0 else s.min / (s.kp * s.ki / 60)

theorem Inv.start (s : LP K) : Inv s.start := ⟨rfl, rfl, rfl, rfl, rfl⟩

/-- A change of a property leaves cached values that belong to the new properties. -/
theorem Inv.write {s : LP K} (hs : Inv s) (w : Write K) : Inv (s.write w) := by
  cases w with
  | kp v => exact ⟨rfl, hs.kiOld, rfl, rfl, rfl⟩
  | ki v => exact ⟨hs.kpOld, rfl, rfl, rfl, rfl⟩
  | kd v | max v | min v | exTime v => exact ⟨hs.kpOld, hs.kiOld, rfl, rfl, rfl⟩
  | _ => exact ⟨hs.kpOld, hs.kiOld, hs.executeTime, hs.scaledMax, hs.scaledMin⟩

/-- A scan touches the output, the error sum, the last error and the time, and nothing else. -/
theorem execute_eq (s : LP K) (now : BitVec 64) :
    ∃ out errorSum lastError lastExecTime,
      s.execute now = { s with out, errorSum, lastError, lastExecTime } := by
  simp only [execute]
  split_ifs <;> exact ⟨_, _, _, _, rfl⟩

theorem Inv.execute {s : LP K} (hs : Inv s) (now : BitVec 64) : Inv (s.execute now) := by
  obtain ⟨out, errorSum, lastError, lastExecTime, heq⟩ := execute_eq s now
  rw [heq]
  exact ⟨hs.kpOld, hs.kiOld, hs.executeTime, hs.scaledMax, hs.scaledMin⟩

/-- **The cached values belong to the properties in every state of a run.** -/
theorem Inv.run {s : LP K} (hs : Inv s) (events : List (Event K)) : Inv (s.run events) := by
  induction events generalizing s with
  | nil => exact hs
  | cons e events ih =>
      cases e with
      | write w => exact ih (hs.write w)
      | execute now => exact ih (hs.execute now)

/-! ### A call that runs the loop -/

theorem execute_of_runs {s : LP K} {now : BitVec 64} (h : s.Runs now) :
    s.execute now =
      { s.accumulate now with
        lastError := s.sp - s.cv
        out := follow s.out (s.loopDemand now) s.maxDelta } := by
  obtain ⟨henable, htime, hkp⟩ := h
  rw [execute, henable, if_neg (by decide), if_neg htime, if_neg hkp]

/-- The integral and the demand have the opposite sign for direct action. -/
def acting (direct : Bool) (v : K) : K := if direct then -v else v

/-- What a call that runs the loop keeps within the limits. -/
structure LoopLimits (s t : LP K) (pv : K) : Prop where
  integral : t.min ≤ acting t.direct t.integralTerm ∧ acting t.direct t.integralTerm ≤ t.max
  demand : t.min ≤ pv ∧ pv ≤ t.max
  exact : t.maxDelta = 0 → t.out = pv
  toward : t.maxDelta ≠ 0 → t.out ∈ Set.uIcc s.out pv ∧ |t.out - s.out| ≤ t.maxDelta

omit [Field K] in
theorem limit_mem {max min : K} (h : min ≤ max) (v : K) :
    min ≤ limit max min v ∧ limit max min v ≤ max := by
  rw [limit]
  split_ifs with hhigh hlow
  · exact ⟨h, le_rfl⟩
  · exact ⟨le_rfl, h⟩
  · exact ⟨not_lt.mp hlow, not_lt.mp hhigh⟩

/-- Anti-windup is one limit on the sum as it acts. -/
theorem acting_integrate (s : LP K) (iError : K) :
    acting s.direct (s.integrate iError) =
      limit s.scaledMax s.scaledMin (acting s.direct (s.errorSum + iError)) := by
  cases hdirect : s.direct <;> simp only [acting, integrate, limit, hdirect] <;>
    split_ifs <;> simp_all

variable [IsStrictOrderedRing K]

/-- **The integral term of a call that runs the loop lies between the limits.** -/
theorem Inv.integral_mem {s : LP K} (hs : Inv s) (hlim : s.min ≤ s.max) (hkp : 0 < s.kp)
    (hki : 0 < s.ki) (now : BitVec 64) :
    s.min ≤ acting s.direct (s.accumulate now).integralTerm ∧
      acting s.direct (s.accumulate now).integralTerm ≤ s.max := by
  set c := s.kp * s.ki / 60 with hc
  have hpos : 0 < c := by positivity
  have hmax : s.scaledMax = s.max / c := by rw [hs.scaledMax, ← hc, if_neg hpos.ne']
  have hmin : s.scaledMin = s.min / c := by rw [hs.scaledMin, ← hc, if_neg hpos.ne']
  have hscaled : s.scaledMin ≤ s.scaledMax := by
    rw [hmax, hmin]
    exact div_le_div_of_nonneg_right hlim hpos.le
  -- the term is the constant times the error sum, and the sum is limited as it acts
  have hterm : acting s.direct (s.accumulate now).integralTerm =
      c * limit s.scaledMax s.scaledMin
        (acting s.direct (s.errorSum + s.deltaSecs now * (s.sp - s.cv))) := by
    rw [← acting_integrate]
    simp only [integralTerm, accumulate, if_pos hki.ne', acting, hc]
    split <;> ring
  obtain ⟨hlow, hhigh⟩ := limit_mem hscaled
    (acting s.direct (s.errorSum + s.deltaSecs now * (s.sp - s.cv)))
  rw [hterm]
  exact ⟨(div_le_iff₀' hpos).mp (hmin.ge.trans hlow), (le_div_iff₀' hpos).mp (hhigh.trans hmax.le)⟩

/-- The output moves towards the demand, by `maxDelta` at most. -/
theorem follow_mem {out pv maxDelta : K} (hdelta : 0 < maxDelta) :
    follow out pv maxDelta ∈ Set.uIcc out pv ∧ |follow out pv maxDelta - out| ≤ maxDelta := by
  rw [follow, if_pos hdelta.ne', Set.mem_uIcc, abs_le]
  split_ifs with hdown hfar hfar
  · exact ⟨Or.inr ⟨by linarith, by linarith⟩, by linarith, by linarith⟩
  · exact ⟨Or.inr ⟨le_rfl, hdown.le⟩, by linarith, by linarith⟩
  · exact ⟨Or.inl ⟨by linarith, by linarith⟩, by linarith, by linarith⟩
  · exact ⟨Or.inl ⟨not_lt.mp hdown, le_rfl⟩, by linarith [not_lt.mp hdown], by linarith⟩

/-- What a call that runs the loop keeps, from a state whose cached values belong to its
properties. -/
theorem Inv.loopLimits {s : LP K} (hs : Inv s) (hlim : s.min ≤ s.max) (hkp : 0 ≤ s.kp)
    (hki : 0 ≤ s.ki) (hdelta : 0 ≤ s.maxDelta) {now : BitVec 64} (hruns : s.Runs now)
    (hne : s.ki ≠ 0) : LoopLimits s (s.execute now) (s.loopDemand now) := by
  rw [execute_of_runs hruns]
  have hkp' : 0 < s.kp := lt_of_le_of_ne hkp (Ne.symm hruns.2.2)
  have hki' : 0 < s.ki := lt_of_le_of_ne hki (Ne.symm hne)
  refine ⟨hs.integral_mem hlim hkp' hki' now, limit_mem hlim _, fun hzero => ?_, fun hset => ?_⟩
  · exact if_neg (not_not.mpr hzero)
  · exact follow_mem (lt_of_le_of_ne hdelta (Ne.symm hset))

theorem millis_toInt (exTime : BitVec 32) : (millis exTime).toInt = exTime.toInt * 1000000 := by
  have hlow := exTime.le_toInt
  have hhigh := exTime.toInt_lt
  rw [millis, BitVec.toInt_mul, BitVec.toInt_signExtend_of_le (by decide)]
  exact Int.bmod_eq_of_le (by simp at *; omega) (by simp at *; omega)

/-- A call that runs the loop does so some time after the last one. -/
theorem Inv.deltaSecs_pos {s : LP K} (hs : Inv s) (hex : 0 < s.exTime.toInt) {now : BitVec 64}
    (hruns : s.Runs now) : 0 < s.deltaSecs now := by
  have htime : s.executeTime.toInt ≤ (now - s.lastExecTime).toInt := by
    simpa [BitVec.slt_eq_decide] using hruns.2.1
  rw [hs.executeTime, millis_toInt] at htime
  have hpos : 0 < (now - s.lastExecTime).toInt := by omega
  have hcast : (0 : K) < ((now - s.lastExecTime).toInt : K) := by exact_mod_cast hpos
  exact div_pos hcast (by norm_num)

omit [IsStrictOrderedRing K] in
/-- **A change of `kp` between two values that are not zero leaves the integral term.** -/
theorem Inv.write_kp {s : LP K} (hs : Inv s) {v : K} (hold : s.kp ≠ 0) (hnew : v ≠ 0) :
    (s.write (.kp v)).integralTerm = s.integralTerm := by
  have hsum : (s.write (.kp v)).errorSum = s.errorSum * s.kp / v := by
    rw [← hs.kpOld] at hold ⊢
    exact if_pos ⟨hnew, hold⟩
  have hterm : (s.write (.kp v)).integralTerm = v * s.ki * (s.write (.kp v)).errorSum / 60 := rfl
  rw [hterm, hsum, integralTerm]
  field_simp

omit [IsStrictOrderedRing K] in
/-- **A change of `ki` between two values that are not zero leaves the integral term.** -/
theorem Inv.write_ki {s : LP K} (hs : Inv s) {v : K} (hold : s.ki ≠ 0) (hnew : v ≠ 0) :
    (s.write (.ki v)).integralTerm = s.integralTerm := by
  have hsum : (s.write (.ki v)).errorSum = s.errorSum * s.ki / v := by
    rw [← hs.kiOld] at hold ⊢
    exact if_pos ⟨hnew, hold⟩
  have hterm : (s.write (.ki v)).integralTerm = s.kp * v * (s.write (.ki v)).errorSum / 60 := rfl
  rw [hterm, hsum, integralTerm]
  field_simp

/-- **The limits of the loop**, in every state that a run of executions and changes of properties
leads to: what a call that runs the loop keeps, and what a change of a gain leaves. -/
theorem loop_limits (s₀ : LP K) (events : List (Event K)) :
    let s := s₀.start.run events
    (∀ now, s.min ≤ s.max → 0 ≤ s.kp → 0 ≤ s.ki → 0 < s.exTime.toInt → 0 ≤ s.maxDelta →
      s.Runs now → s.ki ≠ 0 →
        0 < s.deltaSecs now ∧ LoopLimits s (s.execute now) (s.loopDemand now)) ∧
    (∀ v, s.kp ≠ 0 → v ≠ 0 → (s.write (.kp v)).integralTerm = s.integralTerm) ∧
    (∀ v, s.ki ≠ 0 → v ≠ 0 → (s.write (.ki v)).integralTerm = s.integralTerm) := by
  have hs : Inv (s₀.start.run events) := (Inv.start s₀).run events
  exact ⟨fun now hlim hkp hki hex hdelta hruns hne =>
      ⟨hs.deltaSecs_pos hex hruns, hs.loopLimits hlim hkp hki hdelta hruns hne⟩,
    fun v => hs.write_kp, fun v => hs.write_ki⟩

/-- A loop with both gains one, limits of a hundred and an output of ten that it has to leave for
zero, by `maxDelta` at most. -/
def settling (maxDelta : ℚ) : LP ℚ :=
  ⟨true, 0, 0, 10, 1, 1, 0, 100, -100, 0, maxDelta, true, 1000#32, 0, 0, 0, 0, 0, 0, 0, 0, 0⟩

theorem settling_runs (maxDelta : ℚ) : (settling maxDelta).start.Runs 2000000000#64 :=
  ⟨rfl, (by decide : ¬ (2000000000#64 - 0#64).slt (millis 1000#32) = true), one_ne_zero⟩

/-- The loop settles by one a call. -/
theorem loop_limits_settling :
    let s := (settling 1).start.run []
    0 < s.deltaSecs 2000000000#64 ∧
      LoopLimits s (s.execute 2000000000#64) (s.loopDemand 2000000000#64) := by
  refine (loop_limits (settling 1) []).1 2000000000#64 ?_ ?_ ?_ ?_ ?_ (settling_runs 1) ?_ <;>
    decide

/-- A negative `maxDelta` drives the output away from its demand. -/
theorem not_loop_limits :
    ¬ ∀ (s₀ : LP ℚ) (events : List (Event ℚ)) (now : BitVec 64),
      let s := s₀.start.run events
      s.min ≤ s.max → 0 ≤ s.kp → 0 ≤ s.ki → 0 < s.exTime.toInt → s.Runs now → s.ki ≠ 0 →
        LoopLimits s (s.execute now) (s.loopDemand now) := by
  intro h
  have hlimits := h (settling (-1)) [] 2000000000#64 (by decide) (by decide) (by decide) (by decide)
    (settling_runs (-1)) (by decide)
  obtain ⟨out, errorSum, lastError, lastExecTime, heq⟩ :=
    execute_eq ((settling (-1)).start.run []) 2000000000#64
  rw [heq] at hlimits
  have hmoved : |out - 10| ≤ (-1 : ℚ) := (hlimits.toward (by decide : (-1 : ℚ) ≠ 0)).2
  exact absurd (hmoved.trans_lt (by norm_num)) (abs_nonneg _).not_gt

end LP

end Sedona.Control
