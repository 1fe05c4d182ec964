import Mathlib.Tactic.Ring
import Sedona.Library.Bitmap

/-!
# The DASP Receive Window

The sliding receive window exists twice: in the Java client library
(`sedona.dasp.ReceiveWindow`) and on the device (`sox::ReceiveWindow`). The two bodies of
`receive` are the same text over a different constant `max`, so `receiveWith` is written
once and `Java.receive` and `Device.receive` are its instances.

A window is a sequence number `seqNum`, the exclusive start of the window, and a 32-bit
bitmap `seqMore` whose bit `d` says that `seqNum + d` was received. `seqNum` is an `int`
in both sources, and on the device it may be `-1`. Shift counts are reduced modulo 32, as
Java does and as the device's virtual machine does on a 32-bit word.

## Main results

* `slide_spec`: sliding advances `seqNum` over the run of marked numbers and shifts the
  bitmap by the same amount.
* `receiveWith_eq`: what `receive` does, as a function of the offset of the number from
  the start of the window alone.
-/

namespace Sedona.Dasp

/-- The state of a receive window, with the fields both implementations have. -/
@[ext] structure ReceiveWindow where
  /-- Last number of the received prefix: the exclusive start of the window. -/
  seqNum : ℤ
  /-- Bit `d` marks `seqNum + d` as received out of order. -/
  seqMore : BitVec 32
  /-- Have `seqNum` and `seqMore` been acknowledged. -/
  acked : Bool
deriving DecidableEq, Repr

/-- The acknowledgement fields of a message: `ack` is `-1` and `ackMore` is null when the
header is absent. -/
structure AckFields where
  /-- The `ack` header. -/
  ack : ℤ := -1
  /-- The `ackMore` header, most significant byte first. -/
  ackMore : Option (List (BitVec 8)) := none
deriving DecidableEq, Repr

/-! ### Receiving -/

/-- The `do … while` loop of `receive`: each round moves the start of the window by one
and shifts the bitmap right; it goes on while the next number is marked. A bitmap of 32
bits is used up after at most 32 rounds, which is the fuel `slide` passes. -/
def slideLoop : ℕ → ℤ → BitVec 32 → ℤ × BitVec 32
  | 0, seqNum, seqMore => (seqNum, seqMore)
  | fuel + 1, seqNum, seqMore =>
      let seqNum := seqNum + 1
      let seqMore := seqMore.sshiftRight 1 &&& 0x7fffffff#32
      if seqMore &&& 0x2#32 ≠ 0#32 then slideLoop fuel seqNum seqMore else (seqNum, seqMore)

/-- Slide the window after its next number arrived. -/
def slide (w : ReceiveWindow) : ReceiveWindow :=
  let r := slideLoop 32 w.seqNum w.seqMore
  { seqNum := r.1 % 65536, seqMore := r.2 ||| 0x1#32, acked := false }

/-- Is `num` out of range of a window of `max` numbers that starts after `start`. When
the window's end passes `0xffff` it is brought back by subtracting `0xffff`. -/
def outOfRange (max start num : ℤ) : Bool :=
  if start + max ≤ 0xffff then num ≤ start || num > start + max
  else num ≤ start && num > start + max - 0xffff

/-- Receive the number `num` in a window of `max` numbers: `true` if the message should be
processed. -/
def receiveWith (max : ℤ) (w : ReceiveWindow) (num : ℤ) : Bool × ReceiveWindow :=
  if outOfRange max w.seqNum num then
    -- clearing `acked` forces the next outgoing message to carry the ack header
    (false, { w with acked := false })
  else if num = w.seqNum + 1 ∨ (num = 0 ∧ w.seqNum = 0xffff) then
    (true, slide w)
  else
    let bit := 1#32 <<< ((num - w.seqNum) % 65536 % 32).toNat
    if w.seqMore &&& bit ≠ 0#32 then (false, w)
    else (true, { w with seqMore := w.seqMore ||| bit, acked := false })

/-! ### The Java window -/

namespace Java

/-- `DaspConst.RECEIVE_MAX_VAL`. -/
def max : ℤ := 31

/-- A window as constructed, before the handshake. -/
def fresh : ReceiveWindow := { seqNum := -1, seqMore := BitVec.allOnes 32, acked := false }

/-- `ReceiveWindow.init`; a second call throws. -/
def init (w : ReceiveWindow) (num : ℤ) : Option ReceiveWindow :=
  if w.seqNum ≥ 0 then none
  else some { seqNum := (num - 1) % 65536, seqMore := 0x1#32, acked := false }

/-- `ReceiveWindow.receive`, for a number in `0..0xffff` and a window that is initialised
(otherwise the method throws). -/
def receive (w : ReceiveWindow) (num : ℤ) : Bool × ReceiveWindow := receiveWith max w num

/-- `ReceiveWindow.toAckMore`: the low bytes of the bitmap, at most `max` of them. The
comparisons are on the signed `int`. -/
def toAckMore (seqMore : BitVec 32) (max : ℤ) : List (BitVec 8) :=
  let byte (k : ℕ) : BitVec 8 := (seqMore >>> (8 * k)).setWidth 8
  if seqMore.toInt ≤ 0xff ∨ max ≤ 1 then [byte 0]
  else if seqMore.toInt ≤ 0xffff ∨ max ≤ 2 then [byte 1, byte 0]
  else if seqMore.toInt ≤ 0xffffff ∨ max ≤ 3 then [byte 2, byte 1, byte 0]
  else [byte 3, byte 2, byte 1, byte 0]

/-- `ReceiveWindow.setAckHeaders` for a message with `payloadLen` bytes of payload in a
session tuned to `idealMax` bytes a packet. -/
def setAckHeaders (w : ReceiveWindow) (payloadLen idealMax : ℤ) :
    AckFields × ReceiveWindow :=
  if payloadLen + 8 ≤ idealMax then
    if w.seqMore.toInt > 0x1 ∧ payloadLen + 11 ≤ idealMax then
      ({ ack := w.seqNum, ackMore := some (toAckMore w.seqMore (idealMax - payloadLen - 10)) },
        { w with acked := true })
    else ({ ack := w.seqNum }, { w with acked := true })
  else ({}, w)

end Java

/-! ### The device's window -/

namespace Device

/-- `ReceiveWindow.max` of the device. -/
def max : ℤ := 32

/-- A window as constructed: the field initialisers and zeroed memory. -/
def fresh : ReceiveWindow := { seqNum := -1, seqMore := 0#32, acked := false }

/-- `ReceiveWindow.init`: the field is an `int`, so nothing masks the result. -/
def init (w : ReceiveWindow) (num : ℤ) : ReceiveWindow :=
  { w with seqNum := num - 1, seqMore := 0x1#32, acked := false }

/-- `ReceiveWindow.receive`. -/
def receive (w : ReceiveWindow) (num : ℤ) : Bool × ReceiveWindow := receiveWith max w num

/-- `ReceiveWindow.setAckHeaders`: nothing when the window is acknowledged already,
otherwise the low sixteen bits of `seqNum` and, when more than bit 0 is set, the low
eight bits of the bitmap. -/
def setAckHeaders (w : ReceiveWindow) : Option AckFields × ReceiveWindow :=
  if w.acked then (none, w)
  else
    (some { ack := w.seqNum % 65536,
            ackMore := if w.seqMore.toInt > 0x1 then some [w.seqMore.setWidth 8] else none },
      { w with acked := true })

end Device

/-! ### Reading an ack header -/

/-- Bit `d` of an `ackMore` header: the last byte holds bits 0 to 7. -/
def ackMoreBit (bytes : List (BitVec 8)) (d : ℕ) : Bool :=
  match bytes.reverse[d / 8]? with
  | some b => b.getLsbD (d % 8)
  | none => false

/-- An `ackMore` header built by `toAckMore` repeats bits of the bitmap and adds none. -/
theorem getLsbD_of_ackMoreBit_toAckMore {m : BitVec 32} {max : ℤ} {d : ℕ}
    (h : ackMoreBit (Java.toAckMore m max) d = true) : m.getLsbD d = true := by
  have hbyte : ∀ k, d / 8 = k → ((m >>> (8 * k)).setWidth 8).getLsbD (d % 8) = true →
      m.getLsbD d = true := by
    intro k hk hb
    rw [BitVec.getLsbD_setWidth, BitVec.getLsbD_ushiftRight, Bool.and_eq_true,
      show 8 * k + d % 8 = d by omega] at hb
    exact hb.2
  unfold ackMoreBit Java.toAckMore at h
  split at h
  case h_2 => exact absurd h (by decide)
  case h_1 b hget =>
    have hlt := (List.getElem?_eq_some_iff.mp hget).1
    have h4 : d / 8 = 0 ∨ d / 8 = 1 ∨ d / 8 = 2 ∨ d / 8 = 3 := by
      split_ifs at hlt <;> simp at hlt <;> omega
    rcases h4 with hd | hd | hd | hd <;> rw [hd] at hget <;> split_ifs at hget <;>
      simp at hget <;> subst hget <;> exact hbyte _ hd (by simpa using h)

/-! ### Sliding -/

/-- One round of the loop is a logical shift by one. -/
theorem sshiftRight_and_mask (m : BitVec 32) :
    m.sshiftRight 1 &&& 0x7fffffff#32 = m >>> 1 := by
  apply BitVec.eq_of_getLsbD_eq
  intro i hi
  have hmask : (0x7fffffff#32).getLsbD i = decide (i < 31) := by
    revert i
    decide
  rw [BitVec.getLsbD_and, BitVec.getLsbD_sshiftRight, BitVec.getLsbD_ushiftRight, hmask]
  by_cases h : i < 31
  · have hbit : 1 + i < 32 := by omega
    simp [h, hi, hbit]
  · obtain rfl : i = 31 := by omega
    simp

/-- The loop's test looks at bit 1. -/
theorem and_two_ne_zero_iff (m : BitVec 32) : m &&& 0x2#32 ≠ 0#32 ↔ m.getLsbD 1 = true :=
  Bitmap.and_one_shiftLeft_ne_zero_iff m (show 1 < 32 by omega)

/-- With fuel for every bit of the map, the loop moves by `k ≥ 1`, where `k` ends the run
of marked numbers `2..k`. -/
theorem slideLoop_spec (n : ℕ) (s : ℤ) (m : BitVec 32)
    (hhigh : ∀ i, n + 1 ≤ i → m.getLsbD i = false) :
    ∃ k : ℕ, 1 ≤ k ∧ slideLoop (n + 1) s m = (s + k, m >>> k) ∧
      (∀ j, 2 ≤ j → j ≤ k → m.getLsbD j = true) ∧ m.getLsbD (k + 1) = false := by
  induction n generalizing s m with
  | zero =>
      refine ⟨1, le_refl 1, ?_, by omega, hhigh 2 (by omega)⟩
      have hbit : ¬ (m >>> 1 &&& 0x2#32 ≠ 0#32) := by
        rw [and_two_ne_zero_iff, BitVec.getLsbD_ushiftRight, hhigh 2 (by omega)]
        simp
      rw [slideLoop, sshiftRight_and_mask, if_neg hbit]
      simp
  | succ n ih =>
      rw [slideLoop, sshiftRight_and_mask]
      by_cases hbit : m >>> 1 &&& 0x2#32 ≠ 0#32
      · -- the next number is marked: the rest of the loop is a run over the shifted map
        have hhigh' : ∀ i, n + 1 ≤ i → (m >>> 1).getLsbD i = false := by
          intro i hi
          rw [BitVec.getLsbD_ushiftRight]
          exact hhigh _ (by omega)
        obtain ⟨k, hk, hrun, hbits, hend⟩ := ih (s + 1) (m >>> 1) hhigh'
        rw [if_pos hbit]
        rw [and_two_ne_zero_iff, BitVec.getLsbD_ushiftRight] at hbit
        refine ⟨k + 1, by omega, ?_, ?_, ?_⟩
        · rw [hrun, Nat.add_comm k 1, BitVec.shiftRight_add]
          push_cast
          ring_nf
        · intro j hj hjk
          by_cases h2 : j = 2
          · subst h2
            exact hbit
          · have := hbits (j - 1) (by omega) (by omega)
            rw [BitVec.getLsbD_ushiftRight] at this
            rwa [show 1 + (j - 1) = j by omega] at this
        · rw [BitVec.getLsbD_ushiftRight] at hend
          rwa [show k + 1 + 1 = 1 + (k + 1) by omega]
      · rw [if_neg hbit]
        rw [and_two_ne_zero_iff, BitVec.getLsbD_ushiftRight] at hbit
        refine ⟨1, le_refl 1, by simp, by omega, ?_⟩
        simpa using hbit

/-- What sliding does: for some `k ≥ 1`, the start moves by `k`, every number passed on
the way beyond the first was marked, and the bits above move down by `k`. -/
theorem slide_spec (w : ReceiveWindow) :
    ∃ k : ℕ, 1 ≤ k ∧ k ≤ 31 ∧ (slide w).seqNum = (w.seqNum + k) % 65536 ∧
      (∀ i, (slide w).seqMore.getLsbD i = (decide (i = 0) || w.seqMore.getLsbD (k + i))) ∧
      (∀ j, 2 ≤ j → j ≤ k → w.seqMore.getLsbD j = true) ∧
      w.seqMore.getLsbD (k + 1) = false := by
  obtain ⟨k, hk, hrun, hbits, hend⟩ := slideLoop_spec 31 w.seqNum w.seqMore
    (fun i hi => BitVec.getLsbD_of_ge _ _ (by omega))
  have hk31 : k ≤ 31 := by
    by_contra hlt
    have := hbits k (by omega) (le_refl k)
    rw [BitVec.getLsbD_of_ge _ _ (by omega)] at this
    simp at this
  refine ⟨k, hk, hk31, ?_, ?_, hbits, hend⟩
  · rw [slide, hrun]
  · intro i
    have hone : (0x1#32).getLsbD i = decide (i = 0) :=
      Bitmap.getLsbD_one_shiftLeft (show 0 < 32 by omega) i
    rw [slide, hrun, BitVec.getLsbD_or, BitVec.getLsbD_ushiftRight, hone, Bool.or_comm]

/-! ### What `receive` does -/

/-- How far a number lies ahead of the start of the window, modulo `2 ^ 16`. -/
def offset (w : ReceiveWindow) (num : ℤ) : ℤ := (num - w.seqNum) % 65536

theorem offset_nonneg (w : ReceiveWindow) (num : ℤ) : 0 ≤ offset w num :=
  Int.emod_nonneg _ (by decide)

/-- The states a window takes: `seqNum` is a 16-bit number or `-1`, and the number right
after the start is never marked, since the window would have slid over it. -/
structure WellFormed (w : ReceiveWindow) : Prop where
  neg_one_le : -1 ≤ w.seqNum
  le_max : w.seqNum ≤ 0xffff
  next_unmarked : w.seqMore.getLsbD 1 = false

/-- The largest offset the range check lets through: one too many when the end of the
window passes `0xffff`. -/
def reach (max : ℤ) (w : ReceiveWindow) : ℤ :=
  if w.seqNum + max ≤ 0xffff then max else max + 1

section Receive

variable {max : ℤ} {w : ReceiveWindow} {num : ℤ}

theorem outOfRange_iff (hw : WellFormed w) (hmax : 0 < max ∧ max ≤ 100)
    (hnum : 0 ≤ num ∧ num ≤ 0xffff) :
    outOfRange max w.seqNum num = true ↔ offset w num = 0 ∨ reach max w < offset w num := by
  have h1 := hw.neg_one_le
  have h2 := hw.le_max
  unfold outOfRange reach offset
  by_cases hend : w.seqNum + max ≤ 0xffff
  · simp only [hend, if_true, Bool.or_eq_true, decide_eq_true_eq]
    omega
  · simp only [hend, if_false, Bool.and_eq_true, decide_eq_true_eq]
    omega

theorem isNext_iff (hw : WellFormed w) (hnum : 0 ≤ num ∧ num ≤ 0xffff) :
    (num = w.seqNum + 1 ∨ (num = 0 ∧ w.seqNum = 0xffff)) ↔ offset w num = 1 := by
  have h1 := hw.neg_one_le
  have h2 := hw.le_max
  unfold offset
  omega

/-- **The receive step**, by the offset of the number: out of range, next in order, a
duplicate of a marked number, or newly marked. -/
theorem receiveWith_eq (hw : WellFormed w) (hmax : 0 < max ∧ max ≤ 100)
    (hnum : 0 ≤ num ∧ num ≤ 0xffff) :
    receiveWith max w num =
      if offset w num = 0 ∨ reach max w < offset w num then (false, { w with acked := false })
      else if offset w num = 1 then (true, slide w)
      else if w.seqMore.getLsbD (offset w num % 32).toNat then (false, w)
      else (true, { w with seqMore := w.seqMore ||| (1#32 <<< (offset w num % 32).toNat),
                           acked := false }) := by
  have hbit : (offset w num % 32).toNat < 32 := by omega
  have hmark := Bitmap.and_one_shiftLeft_ne_zero_iff w.seqMore hbit
  unfold receiveWith
  rw [if_congr (outOfRange_iff hw hmax hnum) rfl rfl, if_congr (isNext_iff hw hnum) rfl rfl]
  unfold offset at hmark ⊢
  simp only [hmark]

end Receive

end Sedona.Dasp
