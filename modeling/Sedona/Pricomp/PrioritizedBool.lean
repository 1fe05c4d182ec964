import Mathlib.Algebra.Order.Ring.Int

/-!
# PrioritizedBool

The arbitration of `pricomp::PrioritizedBool`: `out` is the first of sixteen inputs that is not
null. When it changes to a value with a minimum time, the value is written to `in6` as well, which
`execute` clears once no minimum time is running, so that only the five levels above it can take
the output away before.

A scan is given by the inputs and settings that it finds, and by the clock readings that it makes;
a run is a sequence of scans.

## Main results

* `out_of_not_holding`: where no minimum time is running, `out` is the first input that is not
  null, or the fallback.
* `level_of_change`: a change before the minimum time is over comes from `in1` to `in5`.
* `arbitration`: both, for every run.
-/

namespace Sedona.PrioritizedBool

/-! ### State -/

/-- The properties that are set from outside; `none` is the null value. -/
structure Inputs where
  in1 : Option Bool := none
  in2 : Option Bool := none
  in3 : Option Bool := none
  in4 : Option Bool := none
  in5 : Option Bool := none
  in6 : Option Bool := none
  in7 : Option Bool := none
  in8 : Option Bool := none
  in9 : Option Bool := none
  in10 : Option Bool := none
  in11 : Option Bool := none
  in12 : Option Bool := none
  in13 : Option Bool := none
  in14 : Option Bool := none
  in15 : Option Bool := none
  in16 : Option Bool := none
  fallback : Option Bool := none
  minActiveTime : Int32 := 0
  minInactiveTime : Int32 := 0
  /-- When the value of `in8` expires, or 0. -/
  overrideExpTime : ℤ := 0
deriving DecidableEq

structure State extends Inputs where
  out : Option Bool := some false
  sourceLevel : ℕ := 17
  prevOut : Option Bool := none
  minActiveEndTime : ℤ := 0
  minInactiveEndTime : ℤ := 0
deriving DecidableEq

/-- The readings of `Sys.ticks` that `execute` makes, one after another. -/
structure Reads where
  override : ℤ
  active : ℤ
  inactive : ℤ
  start : ℤ

/-- A `long`. -/
def int64 (x : ℤ) : ℤ := x.bmod 0x10000000000000000

/-- Nanoseconds of a minimum time. -/
def nanos (time : Int32) : ℤ := time.toInt * 1000000

/-! ### Execute -/

/-- Expires a manual override, if any (`manualAuto`). -/
def Inputs.expireOverride (c : Reads) (i : Inputs) : Inputs :=
  if 0 < i.overrideExpTime ∧ i.overrideExpTime < c.override then
    { i with in8 := none, overrideExpTime := 0 }
  else i

namespace State

def expireOverride (c : Reads) (s : State) : State :=
  { s with toInputs := s.toInputs.expireOverride c }

def expireActive (c : Reads) (s : State) : State :=
  if 0 < s.minActiveEndTime ∧ s.minActiveEndTime < c.active then
    { s with minActiveEndTime := 0 }
  else s

def expireInactive (c : Reads) (s : State) : State :=
  if 0 < s.minInactiveEndTime ∧ s.minInactiveEndTime < c.inactive then
    { s with minInactiveEndTime := 0 }
  else s

/-- If both minimum times have expired, `in6` is not used any more. -/
def clearIn6 (s : State) : State :=
  if s.minActiveEndTime = 0 ∧ s.minInactiveEndTime = 0 then { s with in6 := none } else s

/-- The big if/else if block. -/
def choose (s : State) : Option Bool × ℕ :=
  if s.in1 ≠ none then (s.in1, 1)
  else if s.in2 ≠ none then (s.in2, 2)
  else if s.in3 ≠ none then (s.in3, 3)
  else if s.in4 ≠ none then (s.in4, 4)
  else if s.in5 ≠ none then (s.in5, 5)
  else if s.in6 ≠ none then (s.in6, 6)
  else if s.in7 ≠ none then (s.in7, 7)
  else if s.in8 ≠ none then (s.in8, 8)
  else if s.in9 ≠ none then (s.in9, 9)
  else if s.in10 ≠ none then (s.in10, 10)
  else if s.in11 ≠ none then (s.in11, 11)
  else if s.in12 ≠ none then (s.in12, 12)
  else if s.in13 ≠ none then (s.in13, 13)
  else if s.in14 ≠ none then (s.in14, 14)
  else if s.in15 ≠ none then (s.in15, 15)
  else if s.in16 ≠ none then (s.in16, 16)
  else (s.fallback, 17)

/-- Starts the minimum time of the value. -/
def startTimer (c : Reads) (value : Option Bool) (s : State) : State :=
  if value = s.prevOut then s
  else
    let s :=
      match value with
      | some true =>
          if 0 < s.minActiveTime then
            { s with
              in6 := some true
              minActiveEndTime := int64 (c.start + nanos s.minActiveTime) }
          else s
      | some false =>
          if 0 < s.minInactiveTime then
            { s with
              in6 := some false
              minInactiveEndTime := int64 (c.start + nanos s.minInactiveTime) }
          else s
      | none => s
    { s with prevOut := value }

/-- What `execute` does before it chooses the value. -/
def prepare (c : Reads) (s : State) : State :=
  (((s.expireOverride c).expireActive c).expireInactive c).clearIn6

def execute (c : Reads) (s : State) : State :=
  let s := s.prepare c
  let (value, level) := s.choose
  let s := s.startTimer c value
  { s with out := value, sourceLevel := level }

end State

/-! ### Levels -/

/-- The inputs in the order of their priority. -/
def Inputs.levels (i : Inputs) : List (Option Bool) :=
  [i.in1, i.in2, i.in3, i.in4, i.in5, i.in6, i.in7, i.in8, i.in9, i.in10, i.in11, i.in12, i.in13,
    i.in14, i.in15, i.in16]

/-- The value of the first input that is not null, or the fallback. -/
def Inputs.highest (i : Inputs) : Option Bool := (i.levels.findSome? id).or i.fallback

/-- The first input that is not null, with its level, which is counted from `n`. -/
def chooseFrom (fallback : Option Bool) (n : ℕ) : List (Option Bool) → Option Bool × ℕ
  | [] => (fallback, n)
  | x :: xs => if x ≠ none then (x, n) else chooseFrom fallback (n + 1) xs

theorem chooseFrom_fst (fallback : Option Bool) (n : ℕ) (l : List (Option Bool)) :
    (chooseFrom fallback n l).1 = (l.findSome? id).or fallback := by
  induction l generalizing n with
  | nil => rfl
  | cons x xs ih =>
    cases x with
    | none => exact ih (n + 1)
    | some v => rfl

theorem le_chooseFrom_snd (fallback : Option Bool) (n : ℕ) (l : List (Option Bool)) :
    n ≤ (chooseFrom fallback n l).2 := by
  induction l generalizing n with
  | nil => exact le_refl n
  | cons x xs ih =>
    cases x with
    | none => exact (Nat.le_succ n).trans (ih (n + 1))
    | some v => exact le_refl n

/-- An input that is not null decides, or one before it. -/
theorem chooseFrom_of_some {fallback : Option Bool} {n k : ℕ} {l : List (Option Bool)} {v : Bool}
    (h : l[k]? = some (some v)) : (chooseFrom fallback n l).2 < n + k ∨
      (chooseFrom fallback n l).1 = some v := by
  induction l generalizing n k with
  | nil => cases h
  | cons x xs ih =>
    cases k with
    | zero =>
      obtain rfl := Option.some.inj h
      exact .inr rfl
    | succ k =>
      cases x with
      | none =>
        refine (ih (n := n + 1) h).imp_left fun hlt => ?_
        change (chooseFrom fallback (n + 1) xs).2 < n + (k + 1)
        omega
      | some w =>
        left
        change n < n + (k + 1)
        omega

namespace State

theorem choose_eq (s : State) : s.choose = chooseFrom s.fallback 1 s.levels := rfl

theorem choose_fst (s : State) : s.choose.1 = s.highest :=
  chooseFrom_fst s.fallback 1 s.levels

theorem one_le_choose_snd (s : State) : 1 ≤ s.choose.2 :=
  le_chooseFrom_snd s.fallback 1 s.levels

/-- Against the value of `in6`, only the levels above it can decide. -/
theorem choose_of_in6 {s : State} {b : Bool} (h : s.in6 = some b) :
    s.choose.2 ≤ 5 ∨ s.choose.1 = some b := by
  have hlevel : s.levels[5]? = some (some b) := by rw [← h]; rfl
  refine (chooseFrom_of_some hlevel).imp_left fun hlt => ?_
  rw [choose_eq]
  omega

end State

/-! ### Active and inactive -/

/-- The minimum time of a value. -/
def Inputs.minTime (i : Inputs) : Bool → Int32
  | true => i.minActiveTime
  | false => i.minInactiveTime

/-- When the minimum time of a value ends, or 0. -/
def State.endTime (s : State) : Bool → ℤ
  | true => s.minActiveEndTime
  | false => s.minInactiveEndTime

/-- The reading for the end of a minimum time. -/
def Reads.expiry (c : Reads) : Bool → ℤ
  | true => c.active
  | false => c.inactive

namespace State

variable {c : Reads} {s : State} {b : Bool}

@[simp] theorem expireOverride_endTime : (s.expireOverride c).endTime b = s.endTime b := by
  cases b <;> rfl

theorem expireActive_endTime : (s.expireActive c).endTime b =
    if b ∧ 0 < s.endTime b ∧ s.endTime b < c.expiry b then 0 else s.endTime b := by
  unfold expireActive
  cases b with
  | true => simp only [endTime, Reads.expiry, true_and]; split <;> rfl
  | false => simp only [Bool.false_eq_true, false_and, if_false]; split <;> rfl

theorem expireInactive_endTime : (s.expireInactive c).endTime b =
    if ¬b ∧ 0 < s.endTime b ∧ s.endTime b < c.expiry b then 0 else s.endTime b := by
  unfold expireInactive
  cases b with
  | true => simp only [not_true_eq_false, false_and, if_false]; split <;> rfl
  | false =>
    simp only [endTime, Reads.expiry, Bool.false_eq_true, not_false_eq_true, true_and]
    split <;> rfl

@[simp] theorem clearIn6_endTime : s.clearIn6.endTime b = s.endTime b := by
  unfold clearIn6
  split <;> cases b <;> rfl

/-- A minimum time that is over is not running any more. -/
theorem prepare_endTime (c : Reads) (s : State) (b : Bool) : (s.prepare c).endTime b =
    if 0 < s.endTime b ∧ s.endTime b < c.expiry b then 0 else s.endTime b := by
  simp only [prepare, clearIn6_endTime, expireInactive_endTime, expireActive_endTime,
    expireOverride_endTime]
  cases b <;> simp

/-- What the expiry leaves alone. -/
theorem expire_frame (c : Reads) (s : State) :
    (((s.expireOverride c).expireActive c).expireInactive c).toInputs =
      s.toInputs.expireOverride c ∧
    (((s.expireOverride c).expireActive c).expireInactive c).prevOut = s.prevOut := by
  unfold expireInactive expireActive
  split <;> split <;> exact ⟨rfl, rfl⟩

theorem prepare_prevOut (c : Reads) (s : State) : (s.prepare c).prevOut = s.prevOut := by
  rw [← (expire_frame c s).2]
  unfold prepare clearIn6
  split <;> rfl

/-- `in6` is cleared where no minimum time is running. -/
theorem prepare_toInputs (c : Reads) (s : State) : (s.prepare c).toInputs =
    if ∀ b, (s.prepare c).endTime b = 0 then { s.toInputs.expireOverride c with in6 := none }
    else s.toInputs.expireOverride c := by
  rw [← (expire_frame c s).1]
  simp only [Bool.forall_bool, prepare, endTime]
  unfold clearIn6
  simp only [and_comm]
  split <;> rfl

/-- The minimum time of a value is started. -/
theorem startTimer_of_ne (hne : some b ≠ s.prevOut) (hm : 0 < s.minTime b) :
    (s.startTimer c (some b)).in6 = some b ∧
      (s.startTimer c (some b)).endTime b = int64 (c.start + nanos (s.minTime b)) ∧
      (s.startTimer c (some b)).endTime (!b) = s.endTime (!b) := by
  unfold startTimer
  rw [if_neg hne]
  cases b with
  | true =>
    simp only [Inputs.minTime] at hm
    simp only [hm, if_true]
    exact ⟨trivial, rfl, rfl⟩
  | false =>
    simp only [Inputs.minTime] at hm
    simp only [hm, if_true]
    exact ⟨trivial, rfl, rfl⟩

/-- No minimum time is started. -/
theorem startTimer_of_eq {value : Option Bool}
    (h : ∀ b, value = some b → value ≠ s.prevOut → ¬0 < s.minTime b) :
    (s.startTimer c value).in6 = s.in6 ∧ ∀ b, (s.startTimer c value).endTime b = s.endTime b := by
  unfold startTimer
  split
  · exact ⟨rfl, fun _ => rfl⟩
  · next hne =>
    cases value with
    | none => exact ⟨rfl, fun b => by cases b <;> rfl⟩
    | some v =>
      have hm := h v rfl hne
      cases v with
      | true =>
        simp only [Inputs.minTime] at hm
        simp only [hm, if_false]
        exact ⟨trivial, fun b => by cases b <;> rfl⟩
      | false =>
        simp only [Inputs.minTime] at hm
        simp only [hm, if_false]
        exact ⟨trivial, fun b => by cases b <;> rfl⟩

theorem startTimer_prevOut (c : Reads) (value : Option Bool) (s : State) :
    (s.startTimer c value).prevOut = value := by
  unfold startTimer
  split
  · next heq => exact heq.symm
  · rfl

theorem prepare_minTime (c : Reads) (s : State) (b : Bool) :
    (s.prepare c).minTime b = s.minTime b := by
  rw [prepare_toInputs]
  unfold Inputs.expireOverride
  split <;> split <;> cases b <;> rfl

/-! ### One scan -/

theorem execute_prevOut (c : Reads) (s : State) : (s.execute c).prevOut = (s.execute c).out :=
  startTimer_prevOut c _ _

/-- The end of a minimum time is that of a new one, unless it stays. -/
theorem execute_endTime (c : Reads) (s : State) (b : Bool) :
    (s.execute c).endTime b = (s.prepare c).endTime b ∨
      ((s.execute c).out = some b ∧ s.prevOut ≠ some b ∧ 0 < s.minTime b ∧
        (s.execute c).endTime b = int64 (c.start + nanos (s.minTime b))) := by
  have hout : (s.execute c).out = (s.prepare c).choose.1 := rfl
  have hend : (s.execute c).endTime b =
      ((s.prepare c).startTimer c (s.prepare c).choose.1).endTime b := by cases b <;> rfl
  rw [hend, hout]
  by_cases h : ∀ v, (s.prepare c).choose.1 = some v → (s.prepare c).choose.1 ≠ (s.prepare c).prevOut →
      ¬0 < (s.prepare c).minTime v
  · exact .inl ((startTimer_of_eq h).2 b)
  · push Not at h
    obtain ⟨v, hv, hne, hm⟩ := h
    rw [hv] at hne ⊢
    obtain ⟨-, hself, hother⟩ := startTimer_of_ne (c := c) hne hm
    rw [prepare_prevOut] at hne
    rw [prepare_minTime] at hm hself
    by_cases hb : b = v
    · subst hb
      exact .inr ⟨rfl, hne.symm, hm, hself⟩
    · rw [← Bool.eq_not_of_ne hb] at hother
      exact .inl hother

/-- A value with a minimum time is written to `in6`. -/
theorem execute_of_change (h : s.prevOut ≠ some b) (hout : (s.execute c).out = some b)
    (hm : 0 < s.minTime b) : (s.execute c).in6 = some b ∧
      (s.execute c).endTime b = int64 (c.start + nanos (s.minTime b)) := by
  have hvalue : (s.prepare c).choose.1 = some b := hout
  rw [← prepare_prevOut c] at h
  rw [← prepare_minTime c] at hm
  obtain ⟨h6, hend, -⟩ := startTimer_of_ne (c := c) h.symm hm
  rw [prepare_minTime] at hend
  constructor
  · rw [← h6, ← hvalue]
    rfl
  · rw [← hend, ← hvalue]
    cases b <;> rfl

/-- While a minimum time is running, `in6` keeps the value against lower levels. -/
theorem execute_of_hold (h6 : s.in6 = some b) (hprev : s.prevOut = some b)
    (hpos : 0 < s.endTime b) (hle : c.expiry b ≤ s.endTime b) :
    ((s.execute c).out = some b →
      (s.execute c).in6 = some b ∧ (s.execute c).endTime b = s.endTime b) ∧
    ((s.execute c).out ≠ some b →
      1 ≤ (s.execute c).sourceLevel ∧ (s.execute c).sourceLevel ≤ 5) := by
  have hend : (s.prepare c).endTime b = s.endTime b := by
    rw [prepare_endTime, if_neg (by omega)]
  -- The minimum time is running, so that `in6` is kept.
  have h6' : (s.prepare c).in6 = some b := by
    have hne : ¬∀ v, (s.prepare c).endTime v = 0 := fun h => by
      have := h b
      omega
    rw [prepare_toInputs, if_neg hne, ← h6]
    unfold Inputs.expireOverride
    split <;> rfl
  constructor
  · intro hout
    have hvalue : (s.prepare c).choose.1 = some b := hout
    have hsame : ∀ v, (s.prepare c).choose.1 = some v →
        (s.prepare c).choose.1 ≠ (s.prepare c).prevOut → ¬0 < (s.prepare c).minTime v :=
      fun v _ hne => absurd (by rw [hvalue, prepare_prevOut, hprev]) hne
    obtain ⟨hin6, htime⟩ := startTimer_of_eq (c := c) hsame
    refine ⟨hin6.trans h6', ?_⟩
    rw [← hend, ← htime b]
    cases b <;> rfl
  · intro hout
    exact ⟨one_le_choose_snd _, (choose_of_in6 h6').resolve_right hout⟩

end State

/-! ### Runs -/

section Runs

variable (u : ℕ → Inputs) (c : ℕ → Reads)

/-- The state that a scan finds. -/
def before : ℕ → State
  | 0 => { toInputs := u 0 }
  | n + 1 => { (before n).execute (c n) with toInputs := u (n + 1) }

/-- The state after a scan. -/
def after (n : ℕ) : State := (before u c n).execute (c n)

/-- The readings of a clock that counts nanoseconds since some earlier moment. -/
structure Clock : Prop where
  nonneg : 0 ≤ (c 0).override
  active (n : ℕ) : (c n).override ≤ (c n).active
  inactive (n : ℕ) : (c n).active ≤ (c n).inactive
  start (n : ℕ) : (c n).inactive ≤ (c n).start
  next (n : ℕ) : (c n).start ≤ (c (n + 1)).override
  /-- The end of a minimum time is a `long`. -/
  fits (n : ℕ) : (c n).start + 0x80000000 * 1000000 < 0x8000000000000000

/-- Nothing but `execute` writes `in6`. -/
structure Untouched : Prop where
  first : (u 0).in6 = none
  next (n : ℕ) : (u (n + 1)).in6 = (after u c n).in6

/-- The minimum time that the change to `b` in the scan `k` started is not over in the scan
`n`. -/
structure Holding (b : Bool) (k n : ℕ) : Prop where
  changed : (before u c k).prevOut ≠ some b
  out : (after u c k).out = some b
  minTime : 0 < (u k).minTime b
  running : (c n).expiry b ≤ (c k).start + nanos ((u k).minTime b)

variable {u c} {b : Bool}

theorem before_toInputs (n : ℕ) : (before u c n).toInputs = u n := by
  cases n <;> rfl

theorem before_endTime_succ (n : ℕ) (b : Bool) :
    (before u c (n + 1)).endTime b = (after u c n).endTime b := by
  cases b <;> rfl

theorem before_prevOut {n : ℕ} (h : (before u c n).prevOut = some b) :
    (before u c n).out = some b := by
  cases n with
  | zero => cases h
  | succ n => exact (State.execute_prevOut (c n) _).symm.trans h

theorem nanos_pos {m : Int32} (hm : 0 < m) : 0 < nanos m ∧ nanos m < 0x80000000 * 1000000 := by
  have h₀ : 0 < m.toInt := Int32.lt_iff_toInt_lt.mp hm
  have h₁ := m.toInt_lt
  unfold nanos
  omega

theorem Clock.expiry_le (hc : Clock c) (n : ℕ) (b : Bool) : (c n).expiry b ≤ (c n).start := by
  have := hc.inactive n
  have := hc.start n
  cases b <;> simp only [Reads.expiry] <;> omega

theorem Clock.start_nonneg (hc : Clock c) (n : ℕ) : 0 ≤ (c n).start := by
  have horder : ∀ n, (c n).override ≤ (c n).start := fun n =>
    (hc.active n).trans ((hc.inactive n).trans (hc.start n))
  induction n with
  | zero => exact hc.nonneg.trans (horder 0)
  | succ n ih => exact ih.trans ((hc.next n).trans (horder (n + 1)))

/-- The end of a minimum time does not overflow. -/
theorem Clock.int64_eq (hc : Clock c) (n : ℕ) {m : Int32} (hm : 0 < m) :
    int64 ((c n).start + nanos m) = (c n).start + nanos m := by
  have h₀ := hc.start_nonneg n
  have h₁ := hc.fits n
  obtain ⟨h₂, h₃⟩ := nanos_pos hm
  rw [int64, Int.bmod_def, Int.emod_eq_of_lt (by omega) (by omega), if_pos (by omega)]

/-- A minimum time that is set was started by an earlier scan. -/
theorem endTime_before (hc : Clock c) (n : ℕ) (b : Bool) : (before u c n).endTime b = 0 ∨
    ∃ k < n, (before u c k).prevOut ≠ some b ∧ (after u c k).out = some b ∧
      0 < (u k).minTime b ∧
      (before u c n).endTime b = (c k).start + nanos ((u k).minTime b) := by
  induction n with
  | zero => cases b <;> exact .inl rfl
  | succ n ih =>
    rw [before_endTime_succ]
    rcases State.execute_endTime (c n) (before u c n) b with h | ⟨hout, hprev, hm, h⟩
    · rw [after, h, State.prepare_endTime]
      split
      · exact .inl rfl
      · refine ih.imp_right ?_
        rintro ⟨k, hk, hstart⟩
        exact ⟨k, hk.trans (Nat.lt_succ_self n), hstart⟩
    · rw [before_toInputs] at hm h
      rw [hc.int64_eq n hm] at h
      exact .inr ⟨n, Nat.lt_succ_self n, hprev, hout, hm, h⟩

/-- Where no minimum time is running, the first input that is not null decides. -/
theorem out_of_not_holding (hc : Clock c) {n : ℕ} (h : ∀ b, ∀ k < n, ¬Holding u c b k n) :
    (after u c n).out =
      ({ (u n).expireOverride (c n) with in6 := none } : Inputs).highest := by
  have hend : ∀ b, ((before u c n).prepare (c n)).endTime b = 0 := by
    intro b
    rw [State.prepare_endTime]
    rcases endTime_before hc n b with hzero | ⟨k, hk, hprev, hout, hm, hend⟩
    · rw [hzero]
      split <;> rfl
    · have hover : ¬(c n).expiry b ≤ (c k).start + nanos ((u k).minTime b) := fun hle =>
        h b k hk ⟨hprev, hout, hm, hle⟩
      have := hc.start_nonneg k
      obtain ⟨hpos, -⟩ := nanos_pos hm
      rw [hend, if_pos (by omega)]
  have hinputs := State.prepare_toInputs (c n) (before u c n)
  rw [if_pos hend, before_toInputs] at hinputs
  rw [← hinputs]
  exact State.choose_fst _

theorem Clock.start_mono (hc : Clock c) {m n : ℕ} (h : m ≤ n) : (c m).start ≤ (c n).start := by
  induction n, h using Nat.le_induction with
  | base => exact le_rfl
  | succ n _ ih =>
      have := hc.next n
      have := hc.active (n + 1)
      have := hc.inactive (n + 1)
      have := hc.start (n + 1)
      omega

/-- `in6` holds the value `b`, whose minimum time ends at `e`. -/
structure Held (s : State) (b : Bool) (e : ℤ) : Prop where
  in6 : s.in6 = some b
  endTime : s.endTime b = e

/-- The next scan, while the minimum time is running. -/
theorem Held.next (hc : Clock c) (h6 : Untouched u c) {n : ℕ} {e : ℤ}
    (h : Held (after u c n) b e) (hout : (after u c n).out = some b) (hpos : 0 < e)
    (htime : (c (n + 1)).start ≤ e) :
    ((after u c (n + 1)).out = some b → Held (after u c (n + 1)) b e) ∧
      ((after u c (n + 1)).out ≠ some b →
        1 ≤ (after u c (n + 1)).sourceLevel ∧ (after u c (n + 1)).sourceLevel ≤ 5) := by
  have hin6 : (before u c (n + 1)).in6 = some b := (h6.next n).trans h.in6
  have hprev : (before u c (n + 1)).prevOut = some b :=
    (State.execute_prevOut (c n) _).trans hout
  have hend : (before u c (n + 1)).endTime b = e := (before_endTime_succ n b).trans h.endTime
  have hexpiry := hc.expiry_le (n + 1) b
  obtain ⟨hstay, haway⟩ := State.execute_of_hold (c := c (n + 1)) hin6 hprev (by omega) (by omega)
  refine ⟨fun hout' => ?_, haway⟩
  obtain ⟨h₁, h₂⟩ := hstay hout'
  exact ⟨h₁, h₂.trans hend⟩

/-- The value is kept in `in6` as long as it stays and its minimum time is running. -/
theorem held_of_stay (hc : Clock c) (h6 : Untouched u c) {k n : ℕ} (hkn : k ≤ n)
    (hbefore : (before u c k).out ≠ some b) (hm : 0 < (u k).minTime b)
    (hstay : ∀ i, k ≤ i → i ≤ n → (after u c i).out = some b)
    (htime : (c n).start ≤ (c k).start + nanos ((u k).minTime b)) :
    Held (after u c n) b ((c k).start + nanos ((u k).minTime b)) := by
  induction n, hkn using Nat.le_induction with
  | base =>
    have hm' : 0 < (before u c k).minTime b := by rwa [before_toInputs]
    have h := State.execute_of_change (mt before_prevOut hbefore) (hstay k le_rfl le_rfl) hm'
    rw [before_toInputs, hc.int64_eq k hm] at h
    exact ⟨h.1, h.2⟩
  | succ n hkn ih =>
    have hheld := ih (fun i h h' => hstay i h (h'.trans (Nat.le_succ n)))
      ((hc.start_mono (Nat.le_succ n)).trans htime)
    have hpos := nanos_pos hm
    have hstart := hc.start_nonneg k
    refine (hheld.next hc h6 (hstay n hkn (Nat.le_succ n)) (by omega) htime).1 ?_
    exact hstay (n + 1) (hkn.trans (Nat.le_succ n)) le_rfl

/-- A change before the minimum time is over comes from one of the first five levels. -/
theorem level_of_change (hc : Clock c) (h6 : Untouched u c) {k n : ℕ}
    (hbefore : (before u c k).out ≠ some b) (hm : 0 < (u k).minTime b) (hkn : k < n)
    (hstay : ∀ i, k ≤ i → i < n → (after u c i).out = some b)
    (haway : (after u c n).out ≠ some b)
    (htime : (c n).start < (c k).start + nanos ((u k).minTime b)) :
    1 ≤ (after u c n).sourceLevel ∧ (after u c n).sourceLevel ≤ 5 := by
  obtain ⟨n, rfl⟩ := Nat.exists_eq_add_one_of_ne_zero (Nat.ne_of_gt (Nat.zero_lt_of_lt hkn))
  have hheld := held_of_stay hc h6 (Nat.le_of_lt_succ hkn) hbefore hm
    (fun i h h' => hstay i h (Nat.lt_succ_of_le h'))
    ((hc.start_mono (Nat.le_succ n)).trans htime.le)
  have hpos := nanos_pos hm
  have hstart := hc.start_nonneg k
  have hout := hstay n (Nat.le_of_lt_succ hkn) (Nat.lt_succ_self n)
  exact (hheld.next hc h6 hout (by omega) htime.le).2 haway

/-- The output is the first input that is not null, or the fallback, unless a minimum time is
running. After a change to a value with a minimum time, the output leaves the value before the
time is over only by one of the first five levels. -/
theorem arbitration (hc : Clock c) (h6 : Untouched u c) :
    (∀ n, (∀ b, ∀ k < n, ¬Holding u c b k n) → (after u c n).out =
      ({ (u n).expireOverride (c n) with in6 := none } : Inputs).highest) ∧
    ∀ b k n, (before u c k).out ≠ some b → (after u c k).out = some b → 0 < (u k).minTime b →
      k < n → (∀ i, k ≤ i → i < n → (after u c i).out = some b) → (after u c n).out ≠ some b →
      (c n).start < (c k).start + nanos ((u k).minTime b) →
      1 ≤ (after u c n).sourceLevel ∧ (after u c n).sourceLevel ≤ 5 :=
  ⟨fun _ => out_of_not_holding hc, fun _ _ _ hbefore _ hm hkn => level_of_change hc h6 hbefore hm hkn⟩

end Runs

/-! ### Examples -/

/-- A value of `in7` for one scan, with a minimum time of ten milliseconds, and of `in2` later. -/
def pulse : ℕ → Inputs
  | 0 => { in7 := some true, minActiveTime := 10 }
  | 1 => { in6 := some true }
  | _ + 2 => { in2 := some false, in6 := some true }

/-- A clock that stands still. -/
def still : ℕ → Reads := fun _ => ⟨0, 0, 0, 0⟩

theorem clock_still : Clock still where
  nonneg := le_rfl
  active _ := le_rfl
  inactive _ := le_rfl
  start _ := le_rfl
  next _ := le_rfl
  fits _ := show (0 : ℤ) + 0x80000000 * 1000000 < 0x8000000000000000 by decide

theorem after_pulse (n : ℕ) : after pulse still (n + 2) = after pulse still 2 := by
  induction n with
  | zero => rfl
  | succ n ih =>
    have hstep : after pulse still (n + 3) =
        { after pulse still (n + 2) with toInputs := pulse (n + 3) }.execute ⟨0, 0, 0, 0⟩ := rfl
    rw [hstep, ih, pulse]
    decide +kernel

theorem untouched_pulse : Untouched pulse still where
  first := rfl
  next n := by
    match n with
    | 0 | 1 => decide +kernel
    | n + 2 =>
      rw [after_pulse, pulse]
      decide +kernel

/-- The output is held in the second scan, and `in2` takes it away in the third one. -/
theorem arbitration_pulse :
    1 ≤ (after pulse still 2).sourceLevel ∧ (after pulse still 2).sourceLevel ≤ 5 := by
  refine (arbitration clock_still untouched_pulse).2 true 0 2 (by decide +kernel)
    (by decide +kernel) (by decide +kernel) (by decide) (fun i _ hi => ?_) (by decide +kernel)
    (by decide +kernel)
  match i, hi with
  | 0, _ | 1, _ => decide +kernel

/-- `in6` is where the value is held: a link or a client that writes it takes the output away. -/
def written : ℕ → Inputs
  | 0 => { in7 := some true, minActiveTime := 10 }
  | _ + 1 => { in6 := some false }

theorem not_held_if_written : ¬∀ (u : ℕ → Inputs) (c : ℕ → Reads), Clock c → ∀ b k n,
    (before u c k).out ≠ some b → (after u c k).out = some b → 0 < (u k).minTime b → k < n →
    (∀ i, k ≤ i → i < n → (after u c i).out = some b) → (after u c n).out ≠ some b →
    (c n).start < (c k).start + nanos ((u k).minTime b) →
    1 ≤ (after u c n).sourceLevel ∧ (after u c n).sourceLevel ≤ 5 := by
  intro h
  have hlevel := h written still clock_still true 0 1 (by decide +kernel) (by decide +kernel)
    (by decide +kernel) (by decide) (fun i _ hi => ?_) (by decide +kernel) (by decide +kernel)
  · revert hlevel
    decide +kernel
  · match i, hi with
    | 0, _ => decide +kernel

end Sedona.PrioritizedBool
