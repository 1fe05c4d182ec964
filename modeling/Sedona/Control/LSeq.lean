import Mathlib.Algebra.Order.Floor.Ring
import Mathlib.Data.Rat.Floor
import Mathlib.Order.Interval.Finset.Fin
import Mathlib.Tactic.Linarith
import Mathlib.Tactic.IntervalCases

/-!
# LSeq

`control::LSeq` switches one to sixteen loads on, one for each `delta` by which the input exceeds
the minimum, with half a `delta` of hysteresis before a load goes off. Float arithmetic is exact,
over an ordered field with a floor; the conversion of a float to an int is a parameter that cuts
off towards zero where the result fits into 32 bits.

Below `min - delta` the number of stages is negative. No output is on then, but the number is
stored in the byte `dOn`, and the next scan compares with it.

## Main results

* `Staged`, `Switches`: what `dOn` and the outputs say, and when an output may change.
* `stages_run`: both hold after every scan of a run whose inputs are at no place where the stored
  number of stages is not the number itself.
-/

namespace Sedona.Control

variable {K : Type*} [Field K] [LinearOrder K]

/-- The slots and the private fields of the component. -/
structure LSeq (K : Type*) where
  input : K
  inMin : K
  inMax : K
  numOuts : ℤ
  delta : K
  dOn : BitVec 8
  outs : Fin 16 → Bool
  ovfl : Bool
  min : K
  max : K
  invalidConfig : Bool

namespace LSeq

/-- Compute the delta value. -/
def updateDelta (s : LSeq K) : LSeq K :=
  let s := if s.inMax > s.inMin then { s with min := s.inMin, max := s.inMax }
    else { s with min := s.inMax, max := s.inMin }
  { s with
    invalidConfig := decide (s.numOuts = 0 ∨ s.min = s.max)
    delta := (s.max - s.min) / ((s.numOuts + 1 : ℤ) : K) }

/-- Callback when the component is first started. -/
def start (s : LSeq K) : LSeq K := s.updateDelta

/-- The stages that the input asks for, with the hysteresis before a stage is turned off; `toInt`
converts a float to an int. -/
def hysteresis (toInt : K → ℤ) (s : LSeq K) : ℤ :=
  let requiredStages := toInt ((s.input - s.min) / s.delta)
  if (s.dOn.toNat : ℤ) > requiredStages ∧ requiredStages ≥ 0 then
    if s.input > s.min + ((requiredStages : K) + 1 / 2) * s.delta then requiredStages + 1
    else requiredStages
  else requiredStages

/-- The stages limited to the number of outputs configured. -/
def requiredStages (toInt : K → ℤ) (s : LSeq K) : ℤ :=
  let requiredStages := s.hysteresis toInt
  let requiredStages := if requiredStages > s.numOuts then s.numOuts else requiredStages
  if s.invalidConfig then 0 else requiredStages

/-- One scan. -/
def execute (toInt : K → ℤ) (s : LSeq K) : LSeq K :=
  let requiredStages := s.requiredStages toInt
  { s with
    outs := fun i => decide ((i.val : ℤ) + 1 ≤ requiredStages)
    dOn := BitVec.ofInt 8 requiredStages
    ovfl := decide (s.input > s.max) }

/-- A scan that finds the given input. -/
def scan (toInt : K → ℤ) (s : LSeq K) (v : K) : LSeq K := { s with input := v }.execute toInt

/-- The state after a run of scans. -/
def run (toInt : K → ℤ) (s : LSeq K) (inputs : List K) : LSeq K := inputs.foldl (scan toInt) s

/-- A component with a configuration, before it is started. -/
def created (inMin inMax : K) (numOuts : ℤ) : LSeq K :=
  ⟨0, inMin, inMax, numOuts, 0, 0, fun _ => false, false, 0, 0, false⟩

/-! ### What the outputs are for -/

/-- `dOn` is the number of the outputs that are on, at most `numOuts`, and they are the first. -/
structure Staged (s : LSeq K) : Prop where
  count : s.dOn.toNat = (Finset.univ.filter fun i => s.outs i = true).card
  bound : (s.dOn.toNat : ℤ) ≤ s.numOuts
  first : ∀ i, s.outs i = true ↔ i.val + 1 ≤ s.dOn.toNat

/-- From `s` to `t` output `k` goes on only from `min + k * delta`, and off only to
`min + (k - 1/2) * delta`; `k` is one more than the index. -/
structure Switches (s t : LSeq K) : Prop where
  on : ∀ i, s.outs i = false → t.outs i = true → t.input ≥ t.min + ((i.val : K) + 1) * t.delta
  off : ∀ i, s.outs i = true → t.outs i = false →
    t.input ≤ t.min + ((i.val : K) + 1 - 1 / 2) * t.delta

/-- The lower end of the input range. -/
def low (inMin inMax : K) : K := Min.min inMin inMax

/-- The range of one output. -/
def width (inMin inMax : K) (numOuts : ℤ) : K := |inMax - inMin| / ((numOuts + 1 : ℤ) : K)

/-- The component is configured: what `start` has computed, and what the facets ask for. -/
structure Configured (s : LSeq K) (lo δ : K) : Prop where
  min : s.min = lo
  delta : s.delta = δ
  valid : s.invalidConfig = false
  some_outs : 1 ≤ s.numOuts
  few_outs : s.numOuts ≤ 16

/-- The place of a threshold against the number of ranges above the minimum. -/
theorem threshold_le_iff [IsStrictOrderedRing K] {lo δ v x : K} (hδ : 0 < δ) :
    lo + x * δ ≤ v ↔ x ≤ (v - lo) / δ := by
  rw [le_div_iff₀ hδ, le_sub_iff_add_le']

/-- A scan leaves the configuration. -/
theorem Configured.scan {s : LSeq K} {lo δ : K} (hs : Configured s lo δ) (toInt : K → ℤ) (v : K) :
    Configured (s.scan toInt v) lo δ := ⟨hs.min, hs.delta, hs.valid, hs.some_outs, hs.few_outs⟩

variable [FloorRing K]

/-- A number cut off towards zero. -/
def trunc (x : K) : ℤ := if 0 ≤ x then ⌊x⌋ else ⌈x⌉

/-- The conversion from float to int: cut off towards zero where that fits into 32 bits. -/
def Converts (toInt : K → ℤ) : Prop := ∀ x : K, |x| < 2147483648 → toInt x = trunc x

/-- The number of stages for the input fits into an int, and it is not negative or its low byte
is zero. -/
def Fits (lo δ v : K) : Prop :=
  |(v - lo) / δ| < 2147483648 ∧ (lo - δ < v ∨ 256 ∣ trunc ((v - lo) / δ))

/-- The stages that `execute` stores, by the number `q` of ranges above the minimum: `d` outputs
after `d₀`, with the thresholds that were passed. -/
structure Steps (q : K) (d₀ d : ℕ) : Prop where
  up : ∀ k : ℕ, d₀ < k → k ≤ d → (k : K) ≤ q
  down : ∀ k : ℕ, d < k → k ≤ d₀ → q ≤ (k : K) - 1 / 2

/-- The stages before the hysteresis, for an input above `min - delta`. -/
theorem trunc_of_gt {q : K} (hq : -1 < q) :
    ∃ r : ℕ, trunc q = r ∧ ((r : K) ≤ q ∨ r = 0) ∧ q < r + 1 := by
  rw [trunc]
  by_cases hneg : 0 ≤ q
  · obtain ⟨r, hr⟩ := Int.eq_ofNat_of_zero_le (Int.floor_nonneg.mpr hneg)
    have hcast : ((⌊q⌋ : ℤ) : K) = (r : K) := by rw [hr, Int.cast_natCast]
    rw [if_pos hneg]
    exact ⟨r, hr, Or.inl (hcast ▸ Int.floor_le q), hcast ▸ Int.lt_floor_add_one q⟩
  · have hceil : ⌈q⌉ = 0 := by
      rw [Int.ceil_eq_iff]
      exact ⟨by simpa using hq, by simpa using (not_le.mp hneg).le⟩
    rw [if_neg hneg]
    exact ⟨0, by simpa using hceil, Or.inr rfl, by simpa using (not_le.mp hneg).trans one_pos⟩

variable [IsStrictOrderedRing K]

/-- The stages after the hysteresis, for an input above `min - delta`. -/
theorem hysteresis_of_gt {toInt : K → ℤ} (hconv : Converts toInt) {s : LSeq K} {lo δ : K}
    (hδ : 0 < δ) (hs : Configured s lo δ) (hfit : |(s.input - lo) / δ| < 2147483648)
    (hgt : lo - δ < s.input) :
    ∃ r : ℕ, s.hysteresis toInt = r ∧ Steps ((s.input - lo) / δ) s.dOn.toNat r := by
  have hlow : -1 < (s.input - lo) / δ := by
    rw [lt_div_iff₀ hδ]
    linarith
  obtain ⟨r, hr, hle, hlt⟩ := trunc_of_gt hlow
  have hstages : toInt ((s.input - s.min) / s.delta) = r := by
    rw [hs.min, hs.delta, hconv _ hfit, hr]
  have hhalf : s.input > s.min + (((r : ℤ) : K) + 1 / 2) * s.delta ↔
      (r : K) + 1 / 2 < (s.input - lo) / δ := by
    rw [hs.min, hs.delta, Int.cast_natCast, gt_iff_lt, lt_div_iff₀ hδ, lt_sub_iff_add_lt']
  generalize (s.input - lo) / δ = q at hle hlt hhalf ⊢
  simp only [hysteresis, hstages, hhalf]
  by_cases hmore : s.dOn.toNat > r
  · -- more stages are on than required: the hysteresis decides about one of them
    rw [if_pos ⟨by exact_mod_cast hmore, Int.natCast_nonneg r⟩]
    by_cases hkeep : (r : K) + 1 / 2 < q
    · rw [if_pos hkeep]
      refine ⟨r + 1, by push_cast; rfl, fun k hk hkr => by omega, fun k hk _ => ?_⟩
      have hnext : (r : K) + 1 + 1 ≤ k := by exact_mod_cast hk
      linarith
    · rw [if_neg hkeep]
      refine ⟨r, rfl, fun k hk hkr => by omega, fun k hk _ => ?_⟩
      have hnext : (r : K) + 1 ≤ k := by exact_mod_cast hk
      linarith
  · -- no stage is turned off
    rw [if_neg (by omega)]
    refine ⟨r, rfl, fun k hk hkr => ?_, fun k hk hkd => by omega⟩
    have hcast : (k : K) ≤ r := by exact_mod_cast hkr
    exact hcast.trans (hle.resolve_right (by omega))

/-- **The stages of an input above `min - delta`**: from zero to `numOuts`, by their thresholds. -/
theorem requiredStages_of_gt {toInt : K → ℤ} (hconv : Converts toInt) {s : LSeq K} {lo δ : K}
    (hδ : 0 < δ) (hs : Configured s lo δ) (hd : (s.dOn.toNat : ℤ) ≤ s.numOuts)
    (hfit : |(s.input - lo) / δ| < 2147483648) (hgt : lo - δ < s.input) :
    ∃ d : ℕ, s.requiredStages toInt = d ∧ (d : ℤ) ≤ s.numOuts ∧
      Steps ((s.input - lo) / δ) s.dOn.toNat d := by
  obtain ⟨r, hr, hsteps⟩ := hysteresis_of_gt hconv hδ hs hfit hgt
  have hone := hs.some_outs
  simp only [requiredStages, hr, hs.valid, Bool.false_eq_true, if_false]
  by_cases hclamp : (r : ℤ) > s.numOuts
  · obtain ⟨n, hn⟩ := Int.eq_ofNat_of_zero_le (by omega : 0 ≤ s.numOuts)
    rw [if_pos hclamp]
    exact ⟨n, hn, by omega, fun k hk hkn => hsteps.up k hk (by omega), fun k hk hkd => by omega⟩
  · rw [if_neg hclamp]
    exact ⟨r, rfl, by omega, hsteps⟩

/-- The stages of an input below that are a negative number whose low byte is zero. -/
theorem requiredStages_of_le {toInt : K → ℤ} (hconv : Converts toInt) {s : LSeq K} {lo δ : K}
    (hδ : 0 < δ) (hs : Configured s lo δ) (hfit : |(s.input - lo) / δ| < 2147483648)
    (hle : s.input ≤ lo - δ) (hbyte : 256 ∣ trunc ((s.input - lo) / δ)) :
    s.requiredStages toInt < 0 ∧ 256 ∣ s.requiredStages toInt := by
  have hq : (s.input - lo) / δ ≤ -1 := by
    rw [div_le_iff₀ hδ]
    linarith
  have hneg : trunc ((s.input - lo) / δ) < 0 := by
    rw [trunc, if_neg (by linarith), ← Int.cast_lt (R := K)]
    have hceil := Int.ceil_lt_add_one ((s.input - lo) / δ)
    rw [Int.cast_zero]
    linarith
  have hstages : toInt ((s.input - s.min) / s.delta) = trunc ((s.input - lo) / δ) := by
    rw [hs.min, hs.delta, hconv _ hfit]
  have hsame : s.requiredStages toInt = trunc ((s.input - lo) / δ) := by
    have hone := hs.some_outs
    have hkept : s.hysteresis toInt = trunc ((s.input - lo) / δ) := by
      simp only [hysteresis, hstages]
      rw [if_neg (by omega)]
    simp only [requiredStages, hkept, hs.valid, Bool.false_eq_true, if_false]
    rw [if_neg (by omega)]
  rw [hsame]
  exact ⟨hneg, hbyte⟩

/-! ### Scans -/

/-- **A scan**: `d` outputs are on after it, and the thresholds say which went on or off. -/
theorem scan_spec {toInt : K → ℤ} (hconv : Converts toInt) {s : LSeq K} {lo δ v : K} (hδ : 0 < δ)
    (hs : Configured s lo δ) (hd : (s.dOn.toNat : ℤ) ≤ s.numOuts) (hfits : Fits lo δ v) :
    ∃ d : ℕ, (s.scan toInt v).dOn.toNat = d ∧ (d : ℤ) ≤ s.numOuts ∧
      (∀ i, (s.scan toInt v).outs i = true ↔ i.val + 1 ≤ d) ∧
      Steps ((v - lo) / δ) s.dOn.toNat d := by
  have hs' : Configured { s with input := v } lo δ :=
    ⟨hs.min, hs.delta, hs.valid, hs.some_outs, hs.few_outs⟩
  have hfew := hs.few_outs
  have houts : ∀ i, (s.scan toInt v).outs i =
      decide ((i.val : ℤ) + 1 ≤ ({ s with input := v } : LSeq K).requiredStages toInt) :=
    fun _ => rfl
  have hdOn : (s.scan toInt v).dOn =
      BitVec.ofInt 8 (({ s with input := v } : LSeq K).requiredStages toInt) := rfl
  by_cases hgt : lo - δ < v
  · obtain ⟨d, hr, hle, hsteps⟩ := requiredStages_of_gt hconv hδ hs' hd hfits.1 hgt
    refine ⟨d, ?_, hle, fun i => ?_, hsteps⟩
    · rw [hdOn, hr, BitVec.ofInt_natCast, BitVec.toNat_ofNat]
      have hle' : (d : ℤ) ≤ s.numOuts := hle
      exact Nat.mod_eq_of_lt (by omega)
    · rw [houts, hr, decide_eq_true_iff]
      omega
  · -- no stage, and none is stored
    have hbyte := hfits.2.resolve_left hgt
    obtain ⟨hneg, hlow⟩ := requiredStages_of_le hconv hδ hs' hfits.1 (not_lt.mp hgt) hbyte
    have hq : (v - lo) / δ ≤ 0 := by
      rw [div_le_iff₀ hδ]
      linarith
    refine ⟨0, ?_, by have := hs.some_outs; omega, fun i => ?_, fun k hk hk0 => by omega,
      fun k hk _ => ?_⟩
    · rw [hdOn, BitVec.toNat_ofInt]
      omega
    · rw [houts, decide_eq_true_iff]
      omega
    · have hone : (1 : K) ≤ k := by exact_mod_cast hk
      linarith

theorem card_first {d : ℕ} (hd : d ≤ 16) {outs : Fin 16 → Bool}
    (houts : ∀ i, outs i = true ↔ i.val + 1 ≤ d) :
    (Finset.univ.filter fun i => outs i = true).card = d := by
  have hfilter : (Finset.univ.filter fun i => outs i = true) =
      Finset.univ.filter fun i : Fin 16 => i.val < d :=
    Finset.filter_congr fun i _ => (houts i).trans Nat.succ_le_iff
  rw [hfilter]
  interval_cases d <;> rfl

/-- What every state of a run keeps. -/
structure Inv (s : LSeq K) (lo δ : K) : Prop where
  config : Configured s lo δ
  staged : Staged s

/-- **The step lemma**: a scan that fits keeps the invariant and switches at the thresholds. -/
theorem Inv.scan {toInt : K → ℤ} (hconv : Converts toInt) {s : LSeq K} {lo δ v : K} (hδ : 0 < δ)
    (hs : Inv s lo δ) (hfits : Fits lo δ v) :
    Inv (s.scan toInt v) lo δ ∧ Switches s (s.scan toInt v) := by
  obtain ⟨d, hdOn, hle, houts, hsteps⟩ := scan_spec hconv hδ hs.config hs.staged.bound hfits
  have hfew := hs.config.few_outs
  have hcard := card_first (by omega) houts
  have hconfig := hs.config.scan toInt v
  refine ⟨⟨hconfig, ⟨hdOn.trans hcard.symm, by rw [hdOn]; exact hle, fun i => ?_⟩⟩,
    ⟨fun i hoff hon => ?_, fun i hon hoff => ?_⟩⟩
  · rw [hdOn]
    exact houts i
  · have hk := hsteps.up (i.val + 1)
      (by have := (hs.staged.first i).not.mp (by simpa using hoff); omega) ((houts i).mp hon)
    rw [hconfig.min, hconfig.delta, ge_iff_le, threshold_le_iff hδ]
    exact_mod_cast hk
  · have hk := hsteps.down (i.val + 1)
      (by have := (houts i).not.mp (by simpa using hoff); omega) ((hs.staged.first i).mp hon)
    rw [hconfig.min, hconfig.delta, ← sub_le_iff_le_add', ← div_le_iff₀ hδ]
    exact_mod_cast hk

/-- The invariant holds along a run whose inputs fit. -/
theorem Inv.run {toInt : K → ℤ} (hconv : Converts toInt) {s : LSeq K} {lo δ : K} (hδ : 0 < δ)
    (hs : Inv s lo δ) {inputs : List K} (hfits : ∀ v ∈ inputs, Fits lo δ v) :
    Inv (s.run toInt inputs) lo δ := by
  induction inputs generalizing s with
  | nil => exact hs
  | cons v inputs ih =>
      have hstep := (hs.scan hconv hδ (hfits v List.mem_cons_self)).1
      exact ih hstep fun w hw => hfits w (List.mem_cons_of_mem v hw)

theorem width_pos {inMin inMax : K} {numOuts : ℤ} (hne : inMin ≠ inMax) (hone : 1 ≤ numOuts) :
    0 < width inMin inMax numOuts := by
  have hdiff : 0 < |inMax - inMin| := abs_pos.mpr (sub_ne_zero.mpr hne.symm)
  have hcount : (0 : K) < ((numOuts + 1 : ℤ) : K) := by exact_mod_cast (by omega : 0 < numOuts + 1)
  exact div_pos hdiff hcount

omit [FloorRing K] in
/-- What `start` computes: the ends in their order. -/
theorem start_eq (inMin inMax : K) (numOuts : ℤ) :
    (created inMin inMax numOuts).start =
      { created inMin inMax numOuts with
        min := low inMin inMax
        max := Max.max inMin inMax
        invalidConfig := decide (numOuts = 0 ∨ low inMin inMax = Max.max inMin inMax)
        delta := width inMin inMax numOuts } := by
  rcases le_or_gt inMax inMin with hle | hlt
  · simp [LSeq.start, updateDelta, created, low, width, hle, hle.not_gt, abs_of_nonpos]
  · simp [LSeq.start, updateDelta, created, low, width, hlt, hlt.le, abs_of_pos]

omit [FloorRing K] in
/-- After `start` a valid configuration holds, and no output is on. -/
theorem Inv.start {inMin inMax : K} {numOuts : ℤ} (hne : inMin ≠ inMax) (hone : 1 ≤ numOuts)
    (hfew : numOuts ≤ 16) :
    Inv (created inMin inMax numOuts).start (low inMin inMax) (width inMin inMax numOuts) := by
  have hends : ¬ (numOuts = 0 ∨ low inMin inMax = Max.max inMin inMax) := by
    rintro (hzero | hsame)
    · omega
    · exact hne (inf_eq_sup.mp hsame)
  rw [start_eq, decide_eq_false hends]
  refine ⟨⟨rfl, rfl, rfl, hone, hfew⟩, ⟨by simp [created], ?_, fun i => by simp [created]⟩⟩
  simp only [created, BitVec.ofNat_eq_ofNat, BitVec.toNat_ofNat]
  omega

/-- **LSeq stages its loads** in every run whose inputs all fit: after each scan `dOn` outputs are
on, the first ones, and an output has changed only at its thresholds. -/
theorem stages_run {toInt : K → ℤ} (hconv : Converts toInt) {inMin inMax : K} {numOuts : ℤ}
    (hne : inMin ≠ inMax) (hone : 1 ≤ numOuts) (hfew : numOuts ≤ 16) {inputs : List K}
    (hfits : ∀ v ∈ inputs, Fits (low inMin inMax) (width inMin inMax numOuts) v) {front : List K}
    {v : K} (hpre : front ++ [v] <+: inputs) :
    let s := (created inMin inMax numOuts).start
    Inv (s.run toInt (front ++ [v])) (low inMin inMax) (width inMin inMax numOuts) ∧
      Switches (s.run toInt front) (s.run toInt (front ++ [v])) := by
  intro s
  have hδ := width_pos hne hone
  have hmem : ∀ w ∈ front ++ [v], Fits (low inMin inMax) (width inMin inMax numOuts) w :=
    fun w hw => hfits w (hpre.subset hw)
  have hfront : Inv (s.run toInt front) (low inMin inMax) (width inMin inMax numOuts) :=
    (Inv.start hne hone hfew).run hconv hδ fun w hw => hmem w (List.mem_append_left _ hw)
  have hlast : s.run toInt (front ++ [v]) = (s.run toInt front).scan toInt v := by
    rw [run, List.foldl_append]
    rfl
  rw [hlast]
  exact hfront.scan hconv hδ (hmem v (by simp))

/-- Four outputs between zero and a hundred, with the input going to fifty and back to zero. -/
theorem stages_run_back :
    let s : LSeq ℚ := (created 0 100 4).start
    Inv (s.run trunc [50, 0]) (low 0 100) (width 0 100 4) ∧
      Switches (s.run trunc [50]) (s.run trunc [50, 0]) := by
  have hpre : ([50] : List ℚ) ++ [0] <+: [50, 0] := List.prefix_refl _
  refine stages_run (fun _ _ => rfl) (by norm_num) (by norm_num) (by norm_num) ?_ hpre
  intro v hv
  have hcases : v = 50 ∨ v = 0 := by simpa using hv
  rcases hcases with rfl | rfl <;> norm_num [Fits, low, width, abs_of_pos]

/-- An input at the lower end less one range: no output is on, and `dOn` is 255. -/
theorem not_staged :
    ¬ ∀ (inMin inMax : ℚ) (numOuts : ℤ), inMin ≠ inMax → 1 ≤ numOuts → numOuts ≤ 16 →
      ∀ v, Staged ((created inMin inMax numOuts).start.run trunc [v]) := by
  intro h
  have hbound := (h 0 100 4 (by norm_num) (by norm_num) (by norm_num) (-20)).bound
  have hstages : ({ (created 0 100 4).start with input := -20 } : LSeq ℚ).requiredStages trunc =
      -1 := by
    norm_num [requiredStages, hysteresis, LSeq.start, updateDelta, created, trunc]
  have hdOn : ((created (0 : ℚ) 100 4).start.run trunc [-20]).dOn = BitVec.ofInt 8 (-1) :=
    congrArg (BitVec.ofInt 8) hstages
  rw [hdOn] at hbound
  revert hbound
  simp [LSeq.start, updateDelta, created, run, scan, execute]

end LSeq

end Sedona.Control
