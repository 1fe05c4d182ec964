import Mathlib.Algebra.Order.Group.Int
import Mathlib.Tactic.Set
import Sedona.Library.Signal

/-!
# DlyOn, DlyOff and OneShot

The three timed blocks of the control kit keep the history of their input in two fields: the input
of the last scan and a deadline, with zero for none. Ticks are 64-bit; the conversion of a float
number of seconds to a long number of nanoseconds is the parameter `nanos`.

A run is given by its samples: the input at `start` is sample `0`, and scan `n + 1` finds the input
and the ticks of that number, with ticks that never go back.

DlyOn and DlyOff delay one level of the input each (`Delay`), with a deadline that is over after
its tick or at it. OneShot decides about a new pulse by the output of the scan before: a rising
edge in the very scan that finds the pulse over is not taken.

## Main results

* `Delay.after_out`: when the delay of a level is over, in every scan of a run.
* `DlyOn.keepsTime`, `DlyOff.keepsTime`, `OneShot.keepsTime`: what is on the output in every scan.
* `timed_blocks`: the three together.
-/

namespace Sedona.Control

open Signal

/-- Ticks that never go back. -/
def Forward (ticks : ℕ → BitVec 64) : Prop := ∀ n, (ticks n).toInt ≤ (ticks (n + 1)).toInt

/-- The sum of two longs is the sum of their values when that is a long. -/
theorem toInt_add_of_lt {a b : BitVec 64} (ha : 0 ≤ a.toInt)
    (h : a.toInt + b.toInt < 0x8000000000000000) : (a + b).toInt = a.toInt + b.toInt := by
  have hlow := b.le_toInt
  rw [BitVec.toInt_add]
  exact Int.bmod_eq_of_le (by simp at *; omega) (by simp at *; omega)

theorem toInt_ofNat_of_lt {n : ℕ} (h : n < 0x8000000000000000) :
    (BitVec.ofNat 64 n).toInt = n := by
  have hmod : (BitVec.ofNat 64 n).toNat = n := by
    rw [BitVec.toNat_ofNat]
    omega
  rw [BitVec.toInt_eq_toNat_of_lt (by omega), hmod]

/-! ### DlyOn and DlyOff -/

/-- The slots and the private fields of DlyOn and of DlyOff. -/
structure Dly (F : Type) where
  out : Bool
  input : Bool
  delayTime : F
  hold : BitVec 32
  delayEnd : BitVec 64
  lastIn : Bool

namespace Dly

variable {F : Type}

/-- Callback when the component is first started. -/
def start (s : Dly F) : Dly F := { s with lastIn := s.input }

/-- The milliseconds until the deadline. -/
def holdOf (delayEnd now : BitVec 64) : BitVec 32 :=
  if delayEnd == 0#64 then 0#32 else ((delayEnd - now).sdiv 1000000#64).setWidth 32

/-- A component before it is started. -/
def created (input : Bool) (delayTime : F) : Dly F := ⟨false, input, delayTime, 0, 0, false⟩

/-- The state after scan `n` of a component with the given `execute`. -/
def after (execute : Dly F → BitVec 64 → Dly F) (delayTime : F) (input : ℕ → Bool)
    (ticks : ℕ → BitVec 64) : ℕ → Dly F
  | 0 => (created (input 0) delayTime).start
  | n + 1 =>
      execute { after execute delayTime input ticks n with input := input (n + 1) } (ticks (n + 1))

end Dly

namespace DlyOn

variable {F : Type}

/-- One scan of DlyOn. -/
def execute (nanos : F → BitVec 64) (s : Dly F) (now : BitVec 64) : Dly F :=
  let delayEnd := if s.input && !s.lastIn then now + nanos s.delayTime else s.delayEnd
  let out := if !s.input then false else delayEnd.slt now
  let delayEnd := if !s.input then 0#64 else if out then 0#64 else delayEnd
  { s with delayEnd, out, hold := Dly.holdOf delayEnd now, lastIn := s.input }

end DlyOn

namespace DlyOff

variable {F : Type}

/-- One scan of DlyOff. -/
def execute (nanos : F → BitVec 64) (s : Dly F) (now : BitVec 64) : Dly F :=
  let delayEnd := if !s.input && s.lastIn then now + nanos s.delayTime else s.delayEnd
  let out := if s.input then true else now.slt delayEnd
  let delayEnd := if s.input then 0#64 else if !out then 0#64 else delayEnd
  { s with delayEnd, out, hold := Dly.holdOf delayEnd now, lastIn := s.input }

end DlyOff

/-- A delay of one level of the input: the level, and whether a deadline is over at a tick. -/
structure Delay where
  level : Bool
  isOver : BitVec 64 → BitVec 64 → Bool
  mono : ∀ {d t t'}, isOver d t = true → t.toInt ≤ t'.toInt → isOver d t' = true

/-- DlyOn: the deadline is over after its tick. -/
def Delay.on : Delay where
  level := true
  isOver d t := d.slt t
  mono h ht := by
    rw [BitVec.slt_iff_toInt_lt] at *
    exact Int.lt_of_lt_of_le h ht

/-- DlyOff: the deadline is over at its tick. -/
def Delay.off : Delay where
  level := false
  isOver d t := !t.slt d
  mono h ht := by
    rw [Bool.not_eq_true', BitVec.slt_eq_decide, decide_eq_false_iff_not, Int.not_lt] at *
    exact Int.le_trans h ht

namespace Delay

@[simp] theorem on_level : Delay.on.level = true := rfl

@[simp] theorem off_level : Delay.off.level = false := rfl

@[simp] theorem on_isOver (d t : BitVec 64) : Delay.on.isOver d t = d.slt t := rfl

@[simp] theorem off_isOver (d t : BitVec 64) : Delay.off.isOver d t = !t.slt d := rfl

variable {F : Type} (k : Delay)

/-- An edge to the level starts the delay. -/
def armed (nanos : F → BitVec 64) (s : Dly F) (now : BitVec 64) : BitVec 64 :=
  if s.input = k.level ∧ s.lastIn ≠ k.level then now + nanos s.delayTime else s.delayEnd

/-- The input has the level, and the delay is over. -/
def elapsed (nanos : F → BitVec 64) (s : Dly F) (now : BitVec 64) : Bool :=
  s.input == k.level && k.isOver (k.armed nanos s now) now

/-- One scan: the output takes the level when the delay of the level is over. -/
def execute (nanos : F → BitVec 64) (s : Dly F) (now : BitVec 64) : Dly F :=
  let delayEnd := if s.input == k.level && !k.elapsed nanos s now then k.armed nanos s now else 0#64
  { s with
    delayEnd
    out := k.elapsed nanos s now == k.level
    hold := Dly.holdOf delayEnd now
    lastIn := s.input }

end Delay

/-- DlyOn delays the level on. -/
theorem DlyOn.execute_eq {F : Type} (nanos : F → BitVec 64) (s : Dly F) (now : BitVec 64) :
    DlyOn.execute nanos s now = Delay.on.execute nanos s now := by
  have harmed : (if s.input && !s.lastIn then now + nanos s.delayTime else s.delayEnd) =
      Delay.on.armed nanos s now := by
    cases hin : s.input <;> cases hlast : s.lastIn <;> simp [Delay.armed, hin, hlast]
  simp only [DlyOn.execute, harmed, Delay.execute, Delay.elapsed]
  rcases Bool.eq_false_or_eq_true s.input with hin | hin <;>
    rcases Bool.eq_false_or_eq_true ((Delay.on.armed nanos s now).slt now) with hover | hover <;>
    simp [hin, hover]

/-- DlyOff delays the level off. -/
theorem DlyOff.execute_eq {F : Type} (nanos : F → BitVec 64) (s : Dly F) (now : BitVec 64) :
    DlyOff.execute nanos s now = Delay.off.execute nanos s now := by
  have harmed : (if !s.input && s.lastIn then now + nanos s.delayTime else s.delayEnd) =
      Delay.off.armed nanos s now := by
    cases hin : s.input <;> cases hlast : s.lastIn <;> simp [Delay.armed, hin, hlast]
  simp only [DlyOff.execute, harmed, Delay.execute, Delay.elapsed]
  rcases Bool.eq_false_or_eq_true s.input with hin | hin <;>
    rcases Bool.eq_false_or_eq_true (now.slt (Delay.off.armed nanos s now)) with hover | hover <;>
    simp [hin, hover]

namespace Delay

variable {F : Type} {k : Delay} {nanos : F → BitVec 64} {delayTime : F} {input : ℕ → Bool}
  {ticks : ℕ → BitVec 64}

/-- What the fields say of the history after scan `n`: no deadline where the level was always
there or the delay since its edge is over, and else the deadline of the edge. -/
structure Inv (k : Delay) (delay : BitVec 64) (input : ℕ → Bool) (ticks : ℕ → BitVec 64) (n : ℕ)
    (s : Dly F) : Prop where
  last : s.lastIn = input n
  always : Always input k.level n → s.delayEnd = 0#64
  held : ∀ j, HeldSince input k.level j n →
    s.delayEnd = if k.isOver (ticks (j + 1) + delay) (ticks n) then 0#64
      else ticks (j + 1) + delay

/-- The deadline that scan `n + 1` compares with: that of the last edge to the level, or zero when
it was over before. -/
theorem Inv.armed_held {n : ℕ} {s : Dly F} (hs : Inv k (nanos delayTime) input ticks n s)
    (hdelay : s.delayTime = delayTime) (hforward : Forward ticks) {j : ℕ}
    (hheld : HeldSince input k.level j (n + 1)) :
    let d := k.armed nanos { s with input := input (n + 1) } (ticks (n + 1))
    let deadline := ticks (j + 1) + nanos delayTime
    d = deadline ∨ (d = 0#64 ∧ k.isOver deadline (ticks (n + 1)) = true) := by
  intro d deadline
  rcases heldSince_succ.mp hheld with ⟨rfl, hold, hnew⟩ | ⟨hprev, hnow⟩
  · left
    simp [d, deadline, armed, hs.last, hold, hnew, hdelay]
  · have hd : d = s.delayEnd := by simp [d, armed, hs.last, hprev.value]
    rw [hd, hs.held j hprev]
    by_cases hover : k.isOver deadline (ticks n) = true
    · exact Or.inr ⟨if_pos hover, k.mono hover (hforward n)⟩
    · exact Or.inl (if_neg hover)

/-- A level that was always there has no deadline. -/
theorem Inv.armed_always {n : ℕ} {s : Dly F} (hs : Inv k (nanos delayTime) input ticks n s)
    (halways : Always input k.level (n + 1)) :
    k.armed nanos { s with input := input (n + 1) } (ticks (n + 1)) = 0#64 := by
  have hprev := (always_succ.mp halways).1
  simp [armed, hs.last, hprev.value, hs.always hprev]

/-- **When the delay is over** in a scan, with no deadline left over. -/
theorem Inv.elapsed_iff {n : ℕ} {s : Dly F} (hs : Inv k (nanos delayTime) input ticks n s)
    (hdelay : s.delayTime = delayTime) (hforward : Forward ticks)
    (hzero : k.isOver 0#64 (ticks (n + 1)) = true) :
    k.elapsed nanos { s with input := input (n + 1) } (ticks (n + 1)) = true ↔
      Always input k.level (n + 1) ∨ ∃ j, HeldSince input k.level j (n + 1) ∧
        k.isOver (ticks (j + 1) + nanos delayTime) (ticks (n + 1)) = true := by
  rw [elapsed, Bool.and_eq_true, beq_iff_eq]
  constructor
  · rintro ⟨hlevel, hover⟩
    rcases always_or_heldSince hlevel with halways | ⟨j, hj⟩
    · exact Or.inl halways
    · refine Or.inr ⟨j, hj, ?_⟩
      rcases hs.armed_held hdelay hforward hj with hd | ⟨-, hlater⟩
      · rwa [hd] at hover
      · exact hlater
  · rintro (halways | ⟨j, hj, hover⟩)
    · exact ⟨halways.value, by rwa [hs.armed_always halways]⟩
    · refine ⟨hj.value, ?_⟩
      rcases hs.armed_held hdelay hforward hj with hd | ⟨hd, -⟩
      · rwa [hd]
      · rwa [hd]

/-- **The step lemma**: a scan keeps the invariant. -/
theorem Inv.scan {n : ℕ} {s : Dly F} (hs : Inv k (nanos delayTime) input ticks n s)
    (hdelay : s.delayTime = delayTime) (hforward : Forward ticks)
    (hzero : k.isOver 0#64 (ticks (n + 1)) = true) :
    Inv k (nanos delayTime) input ticks (n + 1)
      (k.execute nanos { s with input := input (n + 1) } (ticks (n + 1))) := by
  have hover := hs.elapsed_iff hdelay hforward hzero
  refine ⟨rfl, fun halways => ?_, fun j hj => ?_⟩
  · simp [execute, hover.mpr (Or.inl halways)]
  · by_cases hlater : k.isOver (ticks (j + 1) + nanos delayTime) (ticks (n + 1)) = true
    · rw [if_pos hlater]
      simp [execute, hover.mpr (Or.inr ⟨j, hj, hlater⟩)]
    · rw [if_neg hlater]
      have hd : k.armed nanos { s with input := input (n + 1) } (ticks (n + 1)) =
          ticks (j + 1) + nanos delayTime :=
        (hs.armed_held hdelay hforward hj).resolve_right fun h => hlater h.2
      simp only [execute, elapsed, hd]
      simp [hj.value, hlater]

theorem after_delayTime (k : Delay) (nanos : F → BitVec 64) (delayTime : F) (input : ℕ → Bool)
    (ticks : ℕ → BitVec 64) (n : ℕ) :
    (Dly.after (k.execute nanos) delayTime input ticks n).delayTime = delayTime := by
  induction n with
  | zero => rfl
  | succ n ih => exact ih

variable (k nanos delayTime input) in
theorem Inv.after (hforward : Forward ticks)
    (hzero : ∀ n, k.isOver 0#64 (ticks (n + 1)) = true) (n : ℕ) :
    Inv k (nanos delayTime) input ticks n
      (Dly.after (k.execute nanos) delayTime input ticks n) := by
  induction n with
  | zero =>
      exact ⟨rfl, fun _ => rfl, fun j hj => absurd hj not_heldSince_zero⟩
  | succ n ih => exact ih.scan (after_delayTime k nanos delayTime input ticks n) hforward (hzero n)

variable (k nanos delayTime input) in
/-- **The output of every scan of a run** has the level exactly when the delay of the level is
over. -/
theorem after_out (hforward : Forward ticks)
    (hzero : ∀ n, k.isOver 0#64 (ticks (n + 1)) = true) (n : ℕ) :
    (Dly.after (k.execute nanos) delayTime input ticks (n + 1)).out = k.level ↔
      Always input k.level (n + 1) ∨ ∃ j, HeldSince input k.level j (n + 1) ∧
        k.isOver (ticks (j + 1) + nanos delayTime) (ticks (n + 1)) = true := by
  have hover := (Inv.after k nanos delayTime input hforward hzero n).elapsed_iff
    (after_delayTime k nanos delayTime input ticks n) hforward (hzero n)
  rw [← hover, Dly.after, execute]
  cases k.level <;> simp

end Delay

/-! ### What the outputs are for -/

section Delays

variable {F : Type} {nanos : F → BitVec 64} {delayTime : F} {input : ℕ → Bool}
  {ticks : ℕ → BitVec 64}

/-- DlyOn is on in the scans whose tick is more than the delay after a rising edge since which the
input stayed on, or when it was always on. -/
def DlyOn.KeepsTime (nanos : F → BitVec 64) (delayTime : F) (input : ℕ → Bool)
    (ticks : ℕ → BitVec 64) : Prop :=
  ∀ n, (Dly.after (DlyOn.execute nanos) delayTime input ticks (n + 1)).out = true ↔
    Always input true (n + 1) ∨ ∃ j, HeldSince input true j (n + 1) ∧
      (ticks (j + 1)).toInt + (nanos delayTime).toInt < (ticks (n + 1)).toInt

/-- DlyOff is on when the input is on, and when less than the delay has passed since the falling
edge that ended it. -/
def DlyOff.KeepsTime (nanos : F → BitVec 64) (delayTime : F) (input : ℕ → Bool)
    (ticks : ℕ → BitVec 64) : Prop :=
  ∀ n, (Dly.after (DlyOff.execute nanos) delayTime input ticks (n + 1)).out = true ↔
    input (n + 1) = true ∨ ∃ j, HeldSince input false j (n + 1) ∧
      (ticks (n + 1)).toInt < (ticks (j + 1)).toInt + (nanos delayTime).toInt

/-- The deadline of every edge to a level is a long. -/
def Deadlines (level : Bool) (delay : BitVec 64) (input : ℕ → Bool) (ticks : ℕ → BitVec 64) :
    Prop :=
  ∀ n, Edge input level n → (ticks (n + 1)).toInt + delay.toInt < 0x8000000000000000

/-- **DlyOn keeps its time** when the ticks are positive and its deadlines are longs. -/
theorem DlyOn.keepsTime (hforward : Forward ticks) (hpos : ∀ n, 0 < (ticks (n + 1)).toInt)
    (hlong : Deadlines true (nanos delayTime) input ticks) :
    KeepsTime nanos delayTime input ticks := by
  intro n
  have hexec : DlyOn.execute nanos = Delay.on.execute nanos :=
    funext fun s => funext fun now => execute_eq nanos s now
  have hzero : ∀ n, Delay.on.isOver 0#64 (ticks (n + 1)) = true := fun n => by
    simpa [BitVec.slt_iff_toInt_lt] using hpos n
  have hout := Delay.after_out Delay.on nanos delayTime input hforward hzero n
  rw [hexec]
  refine hout.trans (or_congr_right (exists_congr fun j => and_congr_right fun hj => ?_))
  rw [Delay.on_isOver, BitVec.slt_iff_toInt_lt, toInt_add_of_lt (hpos j).le (hlong j hj.edge)]

/-- **DlyOff keeps its time** when the ticks are not negative and its deadlines are longs. -/
theorem DlyOff.keepsTime (hforward : Forward ticks) (hnonneg : ∀ n, 0 ≤ (ticks (n + 1)).toInt)
    (hlong : Deadlines false (nanos delayTime) input ticks) :
    KeepsTime nanos delayTime input ticks := by
  intro n
  have hexec : DlyOff.execute nanos = Delay.off.execute nanos :=
    funext fun s => funext fun now => execute_eq nanos s now
  have hzero : ∀ n, Delay.off.isOver 0#64 (ticks (n + 1)) = true := fun n => by
    simpa [BitVec.slt_eq_decide] using hnonneg n
  have hout := Delay.after_out Delay.off nanos delayTime input hforward hzero n
  have hover : ∀ j, HeldSince input false j (n + 1) →
      (Delay.off.isOver (ticks (j + 1) + nanos delayTime) (ticks (n + 1)) = true ↔
        (ticks (j + 1)).toInt + (nanos delayTime).toInt ≤ (ticks (n + 1)).toInt) := fun j hj => by
    rw [Delay.off_isOver, BitVec.slt_eq_decide, Bool.not_eq_true', decide_eq_false_iff_not,
      not_lt, toInt_add_of_lt (hnonneg j) (hlong j hj.edge)]
  rw [hexec, ← Bool.not_eq_false, ← Delay.off_level, hout, Delay.off_level]
  cases hx : input (n + 1) with
  | true =>
      refine iff_of_true ?_ (Or.inl rfl)
      rintro (halways | ⟨j, hj, -⟩)
      · simp [halways.value] at hx
      · simp [hj.value] at hx
  | false =>
      rcases always_or_heldSince hx with halways | ⟨j, hj⟩
      · refine iff_of_false (not_not.mpr (Or.inl halways)) ?_
        rintro (h | ⟨j, hj, -⟩)
        · cases h
        · exact halways.not_heldSince hj
      · constructor
        · intro hnot
          exact Or.inr ⟨j, hj, not_le.mp fun hle => hnot (Or.inr ⟨j, hj, (hover j hj).mpr hle⟩)⟩
        · rintro (h | ⟨i, hi, hlt⟩)
          · cases h
          · rintro (halways | ⟨i', hi', hle⟩)
            · exact halways.not_heldSince hj
            · obtain rfl := hi.unique hi'
              exact hlt.not_ge ((hover i hi).mp hle)

end Delays

/-! ### OneShot -/

/-- The slots and the private fields of the component. -/
structure OneShot (F : Type) where
  out : Bool
  input : Bool
  pulseWidth : F
  canRetrig : Bool
  pulseEnd : BitVec 64
  lastIn : Bool

namespace OneShot

variable {F : Type}

/-- Clear the output immediately, cancelling any pulse in progress. -/
def clear (s : OneShot F) : OneShot F := { s with pulseEnd := 0#64, out := false }

/-- Callback when the component is first started. -/
def start (s : OneShot F) : OneShot F := { s with lastIn := s.input }

/-- One scan. -/
def execute (nanos : F → BitVec 64) (s : OneShot F) (now : BitVec 64) : OneShot F :=
  let pulseEnd :=
    if s.input && !s.lastIn then
      if !s.out || s.canRetrig then now + nanos s.pulseWidth else s.pulseEnd
    else s.pulseEnd
  { s with pulseEnd, out := now.slt pulseEnd, lastIn := s.input }

/-- A component before it is started. -/
def created (input : Bool) (pulseWidth : F) (canRetrig : Bool) : OneShot F :=
  ⟨false, input, pulseWidth, canRetrig, 0, false⟩

/-- What a run finds: the samples of the input, the ticks, and whether `clear` is invoked after a
scan. -/
structure Trace where
  input : ℕ → Bool
  ticks : ℕ → BitVec 64
  cleared : ℕ → Bool

/-- The state after scan `n`. -/
def after (nanos : F → BitVec 64) (pulseWidth : F) (canRetrig : Bool) (tr : Trace) :
    ℕ → OneShot F
  | 0 => (created (tr.input 0) pulseWidth canRetrig).start
  | n + 1 =>
      let s := after nanos pulseWidth canRetrig tr n
      let s := if tr.cleared n then s.clear else s
      { s with input := tr.input (n + 1) }.execute nanos (tr.ticks (n + 1))

/-- What a scan at `now` makes of the pulse before, if there is one: a rising edge starts a pulse
when the one before is over, or, with `canRetrig`, in any case. -/
def startPulse (width : ℤ) (canRetrig rising : Bool) (now : ℤ) (before : Option ℤ) : Option ℤ :=
  if rising && (canRetrig || before.all fun s => decide (s + width ≤ now)) then some now else before

/-- The tick at which the latest pulse of scan `n` started; `clear` takes a pulse away. -/
def pulse (width : ℤ) (canRetrig : Bool) (tr : Trace) : ℕ → Option ℤ
  | 0 => none
  | n + 1 =>
      startPulse width canRetrig (tr.input (n + 1) && !tr.input n) (tr.ticks (n + 1)).toInt
        (if tr.cleared n then none else pulse width canRetrig tr n)

/-- The output is on in the scans less than the pulse width after the start of a pulse. -/
def KeepsTime (nanos : F → BitVec 64) (pulseWidth : F) (canRetrig : Bool) (tr : Trace) : Prop :=
  ∀ n, (after nanos pulseWidth canRetrig tr (n + 1)).out = true ↔
    ∃ s, pulse (nanos pulseWidth).toInt canRetrig tr (n + 1) = some s ∧
      (tr.ticks (n + 1)).toInt < s + (nanos pulseWidth).toInt

/-- Without `canRetrig`, no rising edge comes in the scan that finds a pulse over which the scan
before has found going on. -/
def NoLostEdge (width : ℤ) (canRetrig : Bool) (tr : Trace) : Prop :=
  canRetrig = false → ∀ n, Edge tr.input true n → tr.cleared n = false →
    ∀ s, pulse width canRetrig tr n = some s →
      (tr.ticks n).toInt < s + width → (tr.ticks (n + 1)).toInt < s + width

/-- The fields of a state by the pulse that is left before a scan. -/
structure Pending (width : ℤ) (now : ℤ) (p : Option ℤ) (s : OneShot F) : Prop where
  deadline : s.pulseEnd.toInt = (p.map (· + width)).getD 0
  out : s.out = true ↔ ∃ t, p = some t ∧ now < t + width

/-- `clear` leaves no pulse. -/
theorem pending_clear (width now : ℤ) (s : OneShot F) : Pending width now none s.clear :=
  ⟨rfl, by simp [clear]⟩

/-- **The step lemma**: a scan that loses no edge starts the pulses it is to start. -/
theorem Pending.execute {nanos : F → BitVec 64} {s : OneShot F} {before : ℤ} {p : Option ℤ}
    (hs : Pending (nanos s.pulseWidth).toInt before p s) {now : BitVec 64}
    (hforward : before ≤ now.toInt) (hnonneg : 0 ≤ now.toInt)
    (hlong : s.input = true → s.lastIn = false →
      now.toInt + (nanos s.pulseWidth).toInt < 0x8000000000000000)
    (hlost : s.canRetrig = false → s.input = true → s.lastIn = false → ∀ t, p = some t →
      before < t + (nanos s.pulseWidth).toInt → now.toInt < t + (nanos s.pulseWidth).toInt) :
    Pending (nanos s.pulseWidth).toInt now.toInt
      (startPulse (nanos s.pulseWidth).toInt s.canRetrig (s.input && !s.lastIn) now.toInt p)
      (s.execute nanos now) := by
  set w := (nanos s.pulseWidth).toInt with hw
  -- the deadline after the scan says everything
  suffices hend : (s.execute nanos now).pulseEnd.toInt =
      ((startPulse w s.canRetrig (s.input && !s.lastIn) now.toInt p).map (· + w)).getD 0 by
    refine ⟨hend, ?_⟩
    have hout : (s.execute nanos now).out = true ↔
        now.toInt < (s.execute nanos now).pulseEnd.toInt := by
      rw [← BitVec.slt_iff_toInt_lt]
      rfl
    rw [hout, hend]
    cases startPulse w s.canRetrig (s.input && !s.lastIn) now.toInt p with
    | none => simpa using hnonneg
    | some t => simp
  have hexec : (s.execute nanos now).pulseEnd =
      if s.input && !s.lastIn then
        if !s.out || s.canRetrig then now + nanos s.pulseWidth else s.pulseEnd
      else s.pulseEnd := rfl
  rw [hexec, startPulse]
  by_cases hrise : (s.input && !s.lastIn) = true
  · obtain ⟨hin, hlast⟩ : s.input = true ∧ s.lastIn = false := by simpa using hrise
    -- the output of the scan before says whether the pulse is over
    have hfires : (!s.out || s.canRetrig) = true ↔
        (s.canRetrig || p.all fun t => decide (t + w ≤ now.toInt)) = true := by
      cases hre : s.canRetrig with
      | true => simp
      | false =>
          have hover := hlost hre hin hlast
          cases p with
          | none => simpa using hs.out
          | some t =>
              have hon : s.out = true ↔ before < t + w := by simpa using hs.out
              have hkeeps := hover t rfl
              rw [Bool.or_false, Bool.not_eq_true', ← Bool.not_eq_true, hon]
              simp only [Bool.false_or, Option.all_some, decide_eq_true_eq]
              omega
    rw [if_pos hrise, hrise, Bool.true_and]
    by_cases hfire : (!s.out || s.canRetrig) = true
    · rw [if_pos hfire, if_pos (hfires.mp hfire), toInt_add_of_lt hnonneg (hlong hin hlast)]
      rfl
    · rw [if_neg hfire, if_neg (fun h => hfire (hfires.mpr h)), hs.deadline]
  · rw [if_neg hrise, Bool.eq_false_of_not_eq_true hrise, Bool.false_and, if_neg (by simp),
      hs.deadline]

variable {nanos : F → BitVec 64} {pulseWidth : F} {canRetrig : Bool} {tr : Trace}

/-- What every state of a run keeps. -/
structure Inv (nanos : F → BitVec 64) (pulseWidth : F) (canRetrig : Bool) (tr : Trace) (n : ℕ)
    (s : OneShot F) : Prop where
  last : s.lastIn = tr.input n
  width : s.pulseWidth = pulseWidth
  retrig : s.canRetrig = canRetrig
  pulse : Pending (nanos pulseWidth).toInt (tr.ticks n).toInt
    (pulse (nanos pulseWidth).toInt canRetrig tr n) s

/-- The conditions on a run: the ticks are not negative, a deadline is a long, and no edge is
lost. -/
structure Regular (width : BitVec 64) (canRetrig : Bool) (tr : Trace) : Prop where
  nonneg : ∀ n, 0 ≤ (tr.ticks (n + 1)).toInt
  deadlines : Deadlines true width tr.input tr.ticks
  noLostEdge : NoLostEdge width.toInt canRetrig tr

/-- The pulse that is left before a scan, with `clear` in between or not. -/
theorem Inv.left {n : ℕ} {s : OneShot F} (hs : Inv nanos pulseWidth canRetrig tr n s) :
    Pending (nanos pulseWidth).toInt (tr.ticks n).toInt
      (if tr.cleared n then none else OneShot.pulse (nanos pulseWidth).toInt canRetrig tr n)
      (if tr.cleared n then s.clear else s) := by
  split
  · exact pending_clear _ _ s
  · exact hs.pulse

/-- `clear` leaves the last input and the configuration. -/
theorem clear_fields (cleared : Bool) (s : OneShot F) :
    (if cleared then s.clear else s).lastIn = s.lastIn ∧
      (if cleared then s.clear else s).pulseWidth = s.pulseWidth ∧
      (if cleared then s.clear else s).canRetrig = s.canRetrig := by
  cases cleared <;> exact ⟨rfl, rfl, rfl⟩

/-- The invariant holds after every scan. -/
theorem Inv.after (hforward : Forward tr.ticks) (hreg : Regular (nanos pulseWidth) canRetrig tr)
    (n : ℕ) : Inv nanos pulseWidth canRetrig tr n (after nanos pulseWidth canRetrig tr n) := by
  induction n with
  | zero => exact ⟨rfl, rfl, rfl, ⟨rfl, by simp [OneShot.after, start, created, OneShot.pulse]⟩⟩
  | succ n ih =>
      have hleft := ih.left
      obtain ⟨hlast, hwidth, hretrig⟩ :=
        clear_fields (tr.cleared n) (OneShot.after nanos pulseWidth canRetrig tr n)
      rw [ih.last] at hlast
      rw [ih.width] at hwidth
      rw [ih.retrig] at hretrig
      generalize hs : (if tr.cleared n then (OneShot.after nanos pulseWidth canRetrig tr n).clear
        else OneShot.after nanos pulseWidth canRetrig tr n) = s at hleft hlast hwidth hretrig
      have hafter : OneShot.after nanos pulseWidth canRetrig tr (n + 1) =
          ({ s with input := tr.input (n + 1) } : OneShot F).execute nanos (tr.ticks (n + 1)) := by
        rw [OneShot.after, hs]
      subst hwidth hretrig
      rw [hafter]
      refine ⟨rfl, rfl, rfl, ?_⟩
      have hfields : Pending (nanos s.pulseWidth).toInt (tr.ticks n).toInt
          (if tr.cleared n then none else OneShot.pulse (nanos s.pulseWidth).toInt s.canRetrig tr n)
          ({ s with input := tr.input (n + 1) } : OneShot F) := ⟨hleft.deadline, hleft.out⟩
      have hstep := Pending.execute (s := { s with input := tr.input (n + 1) }) hfields
        (hforward n) (hreg.nonneg n)
        (fun hin hlow => hreg.deadlines n ⟨by simpa [hlast] using hlow, hin⟩)
        (fun hre hin hlow t ht => ?_)
      · rw [OneShot.pulse, ← hlast]
        exact hstep
      · by_cases hclear : tr.cleared n = true
        · rw [if_pos hclear] at ht
          cases ht
        · rw [if_neg hclear] at ht
          exact hreg.noLostEdge hre n ⟨by simpa [hlast] using hlow, hin⟩ (by simpa using hclear) t ht

/-- **OneShot keeps its time** when no edge is lost. -/
theorem keepsTime (hforward : Forward tr.ticks) (hreg : Regular (nanos pulseWidth) canRetrig tr) :
    KeepsTime nanos pulseWidth canRetrig tr :=
  fun n => (Inv.after hforward hreg (n + 1)).pulse.out

end OneShot

/-! ### The three blocks -/

/-- **The timed blocks keep their time** in every run with ticks that never go back, under the
conditions of each block. -/
theorem timed_blocks {F : Type} (nanos : F → BitVec 64) (delayTime : F) (canRetrig : Bool)
    (tr : OneShot.Trace) (hforward : Forward tr.ticks) :
    ((∀ n, 0 < (tr.ticks (n + 1)).toInt) →
      Deadlines true (nanos delayTime) tr.input tr.ticks →
        DlyOn.KeepsTime nanos delayTime tr.input tr.ticks) ∧
    ((∀ n, 0 ≤ (tr.ticks (n + 1)).toInt) →
      Deadlines false (nanos delayTime) tr.input tr.ticks →
        DlyOff.KeepsTime nanos delayTime tr.input tr.ticks) ∧
    (OneShot.Regular (nanos delayTime) canRetrig tr →
      OneShot.KeepsTime nanos delayTime canRetrig tr) :=
  ⟨DlyOn.keepsTime hforward, DlyOff.keepsTime hforward, OneShot.keepsTime hforward⟩

/-- An input that is on in the first scan only, ticks that stop at a hundred, and a delay of two. -/
def blip : OneShot.Trace where
  input n := n == 1
  ticks n := BitVec.ofNat 64 (min n 100)
  cleared _ := false

theorem blip_ticks (n : ℕ) : (blip.ticks n).toInt = min n 100 := by
  have hofNat : blip.ticks n = BitVec.ofNat 64 (min n 100) := rfl
  rw [hofNat, toInt_ofNat_of_lt (by omega)]

theorem blip_forward : Forward blip.ticks := fun n => by
  rw [blip_ticks, blip_ticks]
  omega

theorem blip_deadlines (level : Bool) : Deadlines level 2#64 blip.input blip.ticks := fun n _ => by
  have hdelay : (2#64).toInt = 2 := rfl
  rw [blip_ticks, hdelay]
  omega

/-- The three blocks on one blip. -/
theorem timed_blocks_blip :
    DlyOn.KeepsTime id 2#64 blip.input blip.ticks ∧ DlyOff.KeepsTime id 2#64 blip.input blip.ticks ∧
      OneShot.KeepsTime id 2#64 false blip := by
  obtain ⟨hon, hoff, hshot⟩ := timed_blocks id 2#64 false blip blip_forward
  have hpos : ∀ n, 0 < (blip.ticks (n + 1)).toInt := fun n => by
    rw [blip_ticks]
    omega
  refine ⟨hon hpos (blip_deadlines true), hoff (fun n => (hpos n).le) (blip_deadlines false),
    hshot ⟨fun n => (hpos n).le, blip_deadlines true, ?_⟩⟩
  rintro - n ⟨-, hrise⟩ - s hs hlt
  -- the only edge comes first, when there has been no pulse
  obtain rfl : n = 0 := by simpa [blip] using hrise
  cases hs

/-- An input with two rising edges, the second in the scan that finds the first pulse over. -/
def twice : OneShot.Trace where
  input n := n % 2 == 1
  ticks n := BitVec.ofNat 64 (5 * min n 3)
  cleared _ := false

/-- The second edge starts no pulse. -/
theorem not_keepsTime :
    ¬ ∀ tr : OneShot.Trace, Forward tr.ticks → (∀ n, tr.cleared n = false) →
      OneShot.KeepsTime id 8#64 false tr := by
  intro h
  have hforward : Forward twice.ticks := fun n => by
    have hticks : ∀ n, (twice.ticks n).toInt = 5 * min n 3 := fun n => by
      have hofNat : twice.ticks n = BitVec.ofNat 64 (5 * min n 3) := rfl
      rw [hofNat, toInt_ofNat_of_lt (by omega)]
      omega
    rw [hticks, hticks]
    omega
  have hout := (h twice hforward (fun _ => rfl) 2).mpr ⟨15, by decide, by decide⟩
  revert hout
  decide

end Sedona.Control
