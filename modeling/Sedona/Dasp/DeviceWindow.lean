import Sedona.Library.Transition
import Sedona.Dasp.ReceiveWindow

/-!
# Soundness of the Device's Receive Window

The device's window holds `max = 32` numbers on a bitmap of 32 bits, and brings the end of
a window that passes `0xffff` back by `0xffff` instead of `0x10000`. Together the two let
a number through that lies 33 past the start of a window starting at 65504 or later; its
bit is `1 << 33`, which is bit 1, so the window then claims that the number right after its
start was received. `Aliases` names that case.

## Main results

* `device_window_sound`: in every run that never meets the aliased case, a number that is
  marked received inside the window is rejected, and the ack headers report only numbers
  that were received (or the number before the first one expected); and on numbers within
  the Java window both implementations accept the same ones.
* `receive_aliased`: the aliased case always goes wrong: the number is accepted and the mark
  is set on the number after the start.
* `device_window_unsound`: a run of three calls that reaches it.
-/

open Transition

namespace Sedona.Dasp

/-! ### Reading an ack header -/

/-- The numbers ack headers report as received: the ack number and, for every bit `d` of
`ackMore`, the number `d` after it. -/
def AckFields.Reports (h : AckFields) (num : ℤ) : Prop :=
  num = h.ack ∨
    ∃ bytes d, h.ackMore = some bytes ∧ ackMoreBit bytes d = true ∧ num = (h.ack + d) % 65536

/-! ### Runs of the device's window -/

/-- A call on a window. -/
inductive WindowOp where
  | init (num : ℤ)
  | receive (num : ℤ)
  | setAckHeaders
deriving DecidableEq, Repr

/-- The device's window together with the history the ack headers are judged by. -/
structure Watched where
  window : ReceiveWindow
  /-- The number given to the last `init`, the first number the window expects. A window
  that was never initialised expects 0. -/
  start : ℤ
  /-- The numbers for which `receive` returned true since. -/
  accepted : List ℤ

/-- Sixteen-bit numbers. -/
def IsU2 (num : ℤ) : Prop := 0 ≤ num ∧ num ≤ 0xffff

/-- Record the result of `receive`. -/
def Watched.receive (s : Watched) (num : ℤ) : Watched :=
  let r := Device.receive s.window num
  { s with window := r.2, accepted := if r.1 then num :: s.accepted else s.accepted }

/-- All runs of calls on the device's window from its construction. -/
def deviceSystem : System Watched WindowOp where
  init s := s = { window := Device.fresh, start := 0, accepted := [] }
  step s op t :=
    match op with
    | .init num =>
        IsU2 num ∧ t = { window := Device.init s.window num, start := num, accepted := [] }
    | .receive num => IsU2 num ∧ t = s.receive num
    | .setAckHeaders => t = { s with window := (Device.setAckHeaders s.window).2 }

theorem deviceSystem_step_init (s : Watched) (num : ℤ) (hnum : IsU2 num) :
    deviceSystem.step s (.init num)
      { window := Device.init s.window num, start := num, accepted := [] } :=
  ⟨hnum, rfl⟩

theorem deviceSystem_step_receive (s : Watched) (num : ℤ) (hnum : IsU2 num) :
    deviceSystem.step s (.receive num) (s.receive num) :=
  ⟨hnum, rfl⟩

/-- The number is marked received inside the current window. -/
def Marked (w : ReceiveWindow) (num : ℤ) : Prop :=
  1 ≤ offset w num ∧ offset w num ≤ 31 ∧ w.seqMore.getLsbD (offset w num).toNat = true

/-- `receive` returns false for every number that is marked already. -/
def MarkedRejected (w : ReceiveWindow) : Prop :=
  ∀ num, IsU2 num → Marked w num → (Device.receive w num).1 = false

/-- Every number the ack headers report was received, or is the number before the first
one expected. -/
def ReportsReceived (s : Watched) : Prop :=
  ∀ h num, (Device.setAckHeaders s.window).1 = some h → h.Reports num →
    num ∈ s.accepted ∨ num = (s.start - 1) % 65536

/-- The aliased case: the window's end passes `0xffff` and the number lies 33 past its
start. -/
def Aliases (w : ReceiveWindow) (num : ℤ) : Prop := 65504 ≤ w.seqNum ∧ offset w num = 33

/-- The condition on a call under which the device's window is sound. -/
def NoAlias (s : Watched) : WindowOp → Prop
  | .receive num => ¬ Aliases s.window num
  | _ => True

/-! ### The invariant -/

/-- The window is well formed, its start was received (or nothing was yet), and so was
every number marked beyond the next one. -/
structure WindowInv (s : Watched) : Prop where
  wellFormed : WellFormed s.window
  start_received : s.window.seqNum % 65536 ∈ s.accepted ∨
    s.window.seqNum % 65536 = (s.start - 1) % 65536
  marked_received : ∀ d : ℕ, 2 ≤ d → s.window.seqMore.getLsbD d = true →
    (s.window.seqNum + d) % 65536 ∈ s.accepted

theorem getLsbD_one_eq_false {d : ℕ} (hd : 1 ≤ d) : (0x1#32).getLsbD d = false := by
  have := Bitmap.getLsbD_one_shiftLeft (show 0 < 32 by omega) d
  rw [BitVec.shiftLeft_zero] at this
  rw [this]
  simp
  omega

/-- Sliding keeps a window well formed. -/
theorem WellFormed.slide {w : ReceiveWindow} : WellFormed (slide w) := by
  obtain ⟨k, hk, -, hseq, hbits, -, hend⟩ := slide_spec w
  refine ⟨by omega, by omega, ?_⟩
  rw [hbits 1, hend]
  rfl

/-- Marking a number other than the next one keeps a window well formed. -/
theorem WellFormed.mark {w : ReceiveWindow} (hw : WellFormed w) {d : ℕ} (hd : d ≠ 1)
    (hlt : d < 32) :
    WellFormed { w with seqMore := w.seqMore ||| (1#32 <<< d), acked := false } := by
  refine ⟨hw.neg_one_le, hw.le_max, ?_⟩
  rw [Bitmap.getLsbD_or_one_shiftLeft _ hlt, hw.next_unmarked]
  simpa using hd.symm

theorem windowInv_init (s : Watched) {num : ℤ} (hnum : IsU2 num) :
    WindowInv { window := Device.init s.window num, start := num, accepted := [] } := by
  obtain ⟨h0, h1⟩ := hnum
  refine ⟨⟨?_, ?_, getLsbD_one_eq_false (le_refl 1)⟩, Or.inr rfl, ?_⟩
  · simp only [Device.init]
    omega
  · simp only [Device.init]
    omega
  · intro d hd hbit
    simp only [Device.init, getLsbD_one_eq_false (show 1 ≤ d by omega)] at hbit
    simp at hbit

/-- The next number in order arrives: the numbers the window slides over are received. -/
theorem windowInv_slide {s : Watched} (hs : WindowInv s) {num : ℤ} (hnum : IsU2 num)
    (hone : offset s.window num = 1) :
    WindowInv { s with window := slide s.window, accepted := num :: s.accepted } := by
  obtain ⟨k, hk, hk31, hseq, hbits, hrun, -⟩ := slide_spec s.window
  have hnumEq : num = (s.window.seqNum + 1) % 65536 := by
    obtain ⟨h0, h1⟩ := hnum
    have := hs.wellFormed.neg_one_le
    have := hs.wellFormed.le_max
    unfold offset at hone
    omega
  refine ⟨WellFormed.slide, Or.inl ?_, ?_⟩
  · by_cases h1 : k = 1
    · subst h1
      simp [hseq, hnumEq]
    · have := hs.marked_received k (by omega) (hrun k (by omega) (le_refl k))
      rw [hseq]
      simpa using Or.inr this
  · intro d hd hbit
    simp only [hbits, show d ≠ 0 by omega, decide_false, Bool.false_or] at hbit
    have := hs.marked_received (k + d) (by omega) hbit
    refine List.mem_cons_of_mem _ ?_
    simp only [hseq]
    convert this using 1
    push_cast
    omega

/-- A number that is newly marked is received. -/
theorem windowInv_mark {s : Watched} (hs : WindowInv s) {num : ℤ} (hnum : IsU2 num) {d : ℕ}
    (hd : offset s.window num % 32 = d) (hne : d ≠ 1)
    (hmod : d = 0 ∨ offset s.window num = d) :
    WindowInv { s with window := { s.window with seqMore := s.window.seqMore ||| (1#32 <<< d),
                                                 acked := false },
                       accepted := num :: s.accepted } := by
  have hlt : d < 32 := by omega
  refine ⟨hs.wellFormed.mark hne hlt, ?_, ?_⟩
  · exact hs.start_received.imp_left (List.mem_cons_of_mem _)
  · intro e he hbit
    simp only [Bitmap.getLsbD_or_one_shiftLeft _ hlt, Bool.or_eq_true, decide_eq_true_eq]
      at hbit
    rcases hbit with hbit | rfl
    · exact List.mem_cons_of_mem _ (hs.marked_received e he hbit)
    · have hoff : offset s.window num = e := by omega
      obtain ⟨h0, h1⟩ := hnum
      unfold offset at hoff
      have : (s.window.seqNum + e) % 65536 = num := by omega
      simp [this]

/-- The receive step keeps the invariant away from the aliased case. -/
theorem windowInv_receive {s : Watched} (hs : WindowInv s) {num : ℤ} (hnum : IsU2 num)
    (hal : ¬ Aliases s.window num) : WindowInv (s.receive num) := by
  have hw := hs.wellFormed
  have heq := receiveWith_eq hw (show 0 < Device.max ∧ Device.max ≤ 100 by decide) hnum
  have h0 := offset_nonneg s.window num
  unfold Watched.receive Device.receive
  rw [heq]
  by_cases hout : offset s.window num = 0 ∨ reach Device.max s.window < offset s.window num
  · rw [if_pos hout]
    exact ⟨⟨hw.neg_one_le, hw.le_max, hw.next_unmarked⟩, hs.start_received, hs.marked_received⟩
  rw [if_neg hout]
  by_cases hone : offset s.window num = 1
  · rw [if_pos hone]
    exact windowInv_slide hs hnum hone
  rw [if_neg hone]
  by_cases hbit : s.window.seqMore.getLsbD (offset s.window num % 32).toNat = true
  · rw [if_pos hbit]
    exact hs
  rw [if_neg hbit]
  -- away from the aliased case the offset is at most 32, so its bit is its own or bit 0
  have hle : offset s.window num ≤ 32 := by
    unfold Aliases at hal
    unfold reach Device.max at hout
    split at hout <;> omega
  exact windowInv_mark hs hnum (by omega) (by omega) (by omega)

/-- Every state of a run that avoids the aliased case satisfies the invariant. -/
theorem windowInv_of_reachable {s : Watched} (h : (deviceSystem.restrict NoAlias).Reachable s) :
    WindowInv s := by
  refine h.invariant ?_ ?_
  · rintro s rfl
    refine ⟨⟨by decide, by decide, by decide⟩, Or.inr (by decide), ?_⟩
    intro d _ hbit
    simp [Device.fresh] at hbit
  · rintro s op t hs ⟨hcond, hstep⟩
    cases op with
    | init num =>
        obtain ⟨hnum, rfl⟩ := hstep
        exact windowInv_init s hnum
    | receive num =>
        obtain ⟨hnum, rfl⟩ := hstep
        exact windowInv_receive hs hnum hcond
    | setAckHeaders =>
        obtain rfl := hstep
        unfold Device.setAckHeaders
        split
        · exact hs
        · exact ⟨⟨hs.wellFormed.neg_one_le, hs.wellFormed.le_max, hs.wellFormed.next_unmarked⟩,
            hs.start_received, hs.marked_received⟩

/-! ### What the invariant gives -/

/-- A marked number is never accepted again, in any well-formed window. -/
theorem markedRejected_of_wellFormed {w : ReceiveWindow} (hw : WellFormed w) :
    MarkedRejected w := by
  rintro num hnum ⟨h1, h31, hbit⟩
  have hne : offset w num ≠ 1 := by
    intro h
    rw [h] at hbit
    have := hw.next_unmarked
    simp_all
  unfold Device.receive
  rw [receiveWith_eq hw (by decide) hnum]
  by_cases hout : offset w num = 0 ∨ reach Device.max w < offset w num
  · rw [if_pos hout]
  · rw [if_neg hout, if_neg hne, show offset w num % 32 = offset w num by omega, if_pos hbit]

theorem ackMoreBit_singleton (b : BitVec 8) (d : ℕ) :
    ackMoreBit [b] d = (decide (d < 8) && b.getLsbD d) := by
  unfold ackMoreBit
  by_cases h : d < 8
  · simp [h, Nat.div_eq_of_lt h, Nat.mod_eq_of_lt h]
  · obtain ⟨n, hn⟩ : ∃ n, d / 8 = n + 1 := ⟨d / 8 - 1, by omega⟩
    simp [h, hn]

/-- The ack headers of a window report only numbers that were received. -/
theorem reportsReceived_of_windowInv {s : Watched} (hs : WindowInv s) : ReportsReceived s := by
  intro h num hset hrep
  unfold Device.setAckHeaders at hset
  split at hset
  · simp at hset
  simp only [Option.some.injEq] at hset
  subst hset
  rcases hrep with rfl | ⟨bytes, d, hmore, hbit, rfl⟩
  · exact hs.start_received
  simp only at hmore hbit ⊢
  split at hmore
  · obtain rfl : [s.window.seqMore.setWidth 8] = bytes := Option.some.inj hmore
    rw [ackMoreBit_singleton, Bool.and_eq_true, decide_eq_true_eq, BitVec.getLsbD_setWidth,
      Bool.and_eq_true] at hbit
    obtain ⟨-, -, hbit⟩ := hbit
    -- bit 0 is the ack number itself, bit 1 is never set, the others are marks
    rcases Nat.lt_or_ge d 2 with hlt | hge
    · have hd : d = 0 := by
        by_contra h0
        obtain rfl : d = 1 := by omega
        rw [hs.wellFormed.next_unmarked] at hbit
        exact absurd hbit (by decide)
      subst hd
      simpa using hs.start_received
    · have := hs.marked_received d hge hbit
      left
      rwa [show (s.window.seqNum % 65536 + d) % 65536 = (s.window.seqNum + d) % 65536 by omega]
  · simp at hmore

/-! ### Agreement with the Java window -/

/-- The results of a sequence of `receive` calls of a window that holds `max` numbers. -/
def results (max : ℤ) : ReceiveWindow → List ℤ → List Bool
  | _, [] => []
  | w, num :: nums =>
      let r := receiveWith max w num
      r.1 :: results max r.2 nums

/-- Every number of the sequence lies within the smaller window at the time it arrives at
the device. -/
def WithinJava : ReceiveWindow → List ℤ → Prop
  | _, [] => True
  | w, num :: nums =>
      IsU2 num ∧ 1 ≤ offset w num ∧ offset w num ≤ Java.max ∧
        WithinJava (Device.receive w num).2 nums

/-- Two windows that differ at most in how they write the start. -/
structure Twin (d j : ReceiveWindow) : Prop where
  device : WellFormed d
  java : WellFormed j
  seqNum : j.seqNum % 65536 = d.seqNum % 65536
  seqMore : j.seqMore = d.seqMore

/-- The loop carries the start along and looks only at the bitmap. -/
theorem slideLoop_add (n : ℕ) (s t : ℤ) (m : BitVec 32) :
    slideLoop n (s + t) m = ((slideLoop n s m).1 + t, (slideLoop n s m).2) := by
  induction n generalizing s m with
  | zero => rfl
  | succ n ih =>
      simp only [slideLoop]
      rw [show s + t + 1 = s + 1 + t by ring]
      split
      · exact ih _ _
      · rfl

theorem Twin.offset_eq {d j : ReceiveWindow} (h : Twin d j) (num : ℤ) :
    offset j num = offset d num := by
  have := h.seqNum
  unfold offset
  omega

theorem Twin.slide {d j : ReceiveWindow} (h : Twin d j) : Twin (slide d) (slide j) := by
  have hloop : slideLoop 32 j.seqNum j.seqMore =
      ((slideLoop 32 d.seqNum d.seqMore).1 + (j.seqNum - d.seqNum),
        (slideLoop 32 d.seqNum d.seqMore).2) := by
    rw [← slideLoop_add, h.seqMore]
    ring_nf
  refine ⟨WellFormed.slide, WellFormed.slide, ?_, ?_⟩
  · have := h.seqNum
    simp only [Dasp.slide, hloop]
    omega
  · simp only [Dasp.slide, hloop]

/-- A number within the smaller window gets the same answer from both, and they stay
twins. -/
theorem Twin.receive {d j : ReceiveWindow} (h : Twin d j) {num : ℤ} (hnum : IsU2 num)
    (h1 : 1 ≤ offset d num) (h31 : offset d num ≤ Java.max) :
    (Java.receive j num).1 = (Device.receive d num).1 ∧
      Twin (Device.receive d num).2 (Java.receive j num).2 := by
  unfold Java.receive Device.receive
  have hmax : Java.max = 31 := rfl
  have hmax' : Device.max = 32 := rfl
  rw [receiveWith_eq h.java (by decide) hnum, receiveWith_eq h.device (by decide) hnum,
    h.offset_eq, h.seqMore]
  have hreach : ∀ (max : ℤ) (w : ReceiveWindow), 31 ≤ max → ¬ (reach max w < offset d num) := by
    intro max w hle
    unfold reach
    split <;> omega
  have hj : ¬ (offset d num = 0 ∨ reach Java.max j < offset d num) := by
    rintro (h0 | hlt)
    · omega
    · exact hreach _ _ (by omega) hlt
  have hd : ¬ (offset d num = 0 ∨ reach Device.max d < offset d num) := by
    rintro (h0 | hlt)
    · omega
    · exact hreach _ _ (by omega) hlt
  rw [if_neg hj, if_neg hd]
  by_cases hone : offset d num = 1
  · rw [if_pos hone, if_pos hone]
    exact ⟨rfl, h.slide⟩
  rw [if_neg hone, if_neg hone]
  split
  · exact ⟨rfl, h⟩
  · have hne : (offset d num % 32).toNat ≠ 1 := by omega
    have hlt : (offset d num % 32).toNat < 32 := by omega
    have hj := h.java.mark hne hlt
    rw [h.seqMore] at hj
    exact ⟨rfl, h.device.mark hne hlt, hj, h.seqNum, rfl⟩

theorem Twin.results_eq {d j : ReceiveWindow} (h : Twin d j) {nums : List ℤ}
    (hin : WithinJava d nums) : results Java.max j nums = results Device.max d nums := by
  induction nums generalizing d j with
  | nil => rfl
  | cons num nums ih =>
      obtain ⟨hnum, h1, h31, hrest⟩ := hin
      obtain ⟨hres, htwin⟩ := h.receive hnum h1 h31
      simp only [results]
      exact congrArg₂ List.cons hres (ih htwin hrest)

/-- After the handshake both windows are twins. -/
theorem twin_init (w : ReceiveWindow) {num : ℤ} (hnum : IsU2 num) {j : ReceiveWindow}
    (hj : Java.init Java.fresh num = some j) : Twin (Device.init w num) j := by
  obtain ⟨h0, h1⟩ := hnum
  have hbit := getLsbD_one_eq_false (le_refl 1)
  simp only [Java.init, Java.fresh, ge_iff_le, Int.reduceNeg, Int.reduceLE, if_false,
    Option.some.injEq] at hj
  subst hj
  unfold Device.init
  exact ⟨⟨by simp only; omega, by simp only; omega, hbit⟩,
    ⟨by simp only; omega, by simp only; omega, hbit⟩, by simp only; omega, rfl⟩

/-! ### The aliased case -/

/-- **The aliased case always goes wrong.** The number is accepted, and the mark is set on
the number right after the start instead. -/
theorem receive_aliased {w : ReceiveWindow} (hw : WellFormed w) {num : ℤ} (hnum : IsU2 num)
    (hal : Aliases w num) :
    Device.receive w num =
      (true, { w with seqMore := w.seqMore ||| (1#32 <<< 1), acked := false }) := by
  obtain ⟨hlo, hoff⟩ := hal
  have hreach : reach Device.max w = 33 := by
    unfold reach Device.max
    rw [if_neg (by omega)]
    rfl
  have hbit : w.seqMore.getLsbD (33 % 32 : ℤ).toNat ≠ true := by
    rw [show (33 % 32 : ℤ).toNat = 1 by decide, hw.next_unmarked]
    decide
  unfold Device.receive
  rw [receiveWith_eq hw (by decide) hnum, hreach, hoff, if_neg (by decide), if_neg (by decide),
    if_neg hbit]
  rfl

/-- After an aliased number the window claims that the next number was received, and yet
accepts it. -/
theorem not_markedRejected_of_aliases {w : ReceiveWindow} (hw : WellFormed w) {num : ℤ}
    (hnum : IsU2 num) (hal : Aliases w num) : ¬ MarkedRejected (Device.receive w num).2 := by
  intro hrej
  have hlo := hw.neg_one_le
  have hhi := hw.le_max
  rw [receive_aliased hw hnum hal] at hrej
  set w' : ReceiveWindow := { w with seqMore := w.seqMore ||| (1#32 <<< 1), acked := false }
    with hw'
  have hnext : offset w' ((w.seqNum + 1) % 65536) = 1 := by
    simp only [offset, hw']
    omega
  have hu2 : IsU2 ((w.seqNum + 1) % 65536) := by
    unfold IsU2
    omega
  have hmarked : Marked w' ((w.seqNum + 1) % 65536) := by
    refine ⟨by omega, by omega, ?_⟩
    rw [hnext]
    simp only [hw']
    rw [show (1 : ℤ).toNat = 1 by decide, Bitmap.getLsbD_or_one_shiftLeft _ (by omega)]
    simp
  have hfalse := hrej _ hu2 hmarked
  unfold Device.receive receiveWith at hfalse
  have hrange : outOfRange Device.max w'.seqNum ((w.seqNum + 1) % 65536) = false := by
    obtain ⟨h65504, -⟩ := hal
    simp only [outOfRange, Device.max, hw']
    split <;> simp <;> omega
  rw [hrange, if_neg (by decide), if_pos (by simp only [hw']; omega)] at hfalse
  exact Bool.noConfusion hfalse

/-! ### The device's window -/

/-- **Soundness of the device's window, and its exact limit.** In every state of every run
that avoids the aliased case, marked numbers are rejected and the ack headers report only
received numbers; the next number keeps it so exactly when it is not aliased; and after any
initialisation the device accepts, among numbers within the Java window, exactly those a
Java window accepts. -/
theorem device_window_sound {s : Watched}
    (hs : (deviceSystem.restrict NoAlias).Reachable s) :
    (MarkedRejected s.window ∧ ReportsReceived s) ∧
    (∀ num, IsU2 num →
      ((MarkedRejected (s.receive num).window ∧ ReportsReceived (s.receive num)) ↔
        ¬ Aliases s.window num)) ∧
    (∀ w num nums j, IsU2 num → Java.init Java.fresh num = some j →
      WithinJava (Device.init w num) nums →
        results Device.max (Device.init w num) nums = results Java.max j nums) := by
  have hinv := windowInv_of_reachable hs
  refine ⟨⟨markedRejected_of_wellFormed hinv.wellFormed, reportsReceived_of_windowInv hinv⟩,
    ?_, ?_⟩
  · intro num hnum
    constructor
    · rintro ⟨hrej, -⟩ hal
      exact not_markedRejected_of_aliases hinv.wellFormed hnum hal hrej
    · intro hal
      have hinv' := windowInv_receive hinv hnum hal
      exact ⟨markedRejected_of_wellFormed hinv'.wellFormed, reportsReceived_of_windowInv hinv'⟩
  · intro w num nums j hnum hj hin
    exact ((twin_init w hnum hj).results_eq hin).symm

/-- A window opened at 10 that received 12 out of order: 12 is rejected from then on, and
the header reports 9 and 12 only; the same three calls give the same answers in Java. -/
theorem device_window_sound_reordered :
    (MarkedRejected { seqNum := 9, seqMore := 9#32, acked := false } ∧
      ReportsReceived { window := { seqNum := 9, seqMore := 9#32, acked := false },
                        start := 10, accepted := [12] }) ∧
    results Device.max (Device.init Device.fresh 10) [12, 10, 11] = [true, true, true] := by
  have hreach : (deviceSystem.restrict NoAlias).Reachable
      { window := { seqNum := 9, seqMore := 9#32, acked := false }, start := 10,
        accepted := [12] } := by
    have h₀ : (deviceSystem.restrict NoAlias).Reachable _ := System.Reachable.start rfl
    have hfree : NoAlias { window := Device.fresh, start := 0, accepted := [] } (.init 10) :=
      trivial
    have h₁ := h₀.tail ⟨hfree, deviceSystem_step_init _ 10 ⟨by decide, by decide⟩⟩
    refine h₁.tail ⟨?_, deviceSystem_step_receive _ 12 ⟨by decide, by decide⟩⟩
    rintro ⟨hlo, -⟩
    exact absurd hlo (by decide)
  have hwithin : WithinJava (Device.init Device.fresh 10) [12, 10, 11] := by
    refine ⟨⟨by decide, by decide⟩, by decide, by decide, ?_⟩
    refine ⟨⟨by decide, by decide⟩, by decide, by decide, ?_⟩
    exact ⟨⟨by decide, by decide⟩, by decide, by decide, trivial⟩
  obtain ⟨hsound, -, hjava⟩ := device_window_sound hreach
  refine ⟨hsound, ?_⟩
  rw [hjava Device.fresh 10 [12, 10, 11] _ ⟨by decide, by decide⟩ rfl hwithin]
  decide

/-- A window opened at 65505 accepts 1, which lies 33 past its start, and from then on
claims to have received 65505. -/
theorem device_window_unsound :
    ¬ ∀ s, deviceSystem.Reachable s → MarkedRejected s.window ∧ ReportsReceived s := by
  intro h
  have h₀ : deviceSystem.Reachable _ := System.Reachable.start rfl
  have h₁ := h₀.tail (deviceSystem_step_init _ 65505 ⟨by decide, by decide⟩)
  have h₂ := h₁.tail (deviceSystem_step_receive _ 1 ⟨by decide, by decide⟩)
  have hfalse := (h _ h₂).1 65505 ⟨by decide, by decide⟩ ⟨by decide, by decide, by decide⟩
  exact absurd hfalse (by decide)

end Sedona.Dasp
