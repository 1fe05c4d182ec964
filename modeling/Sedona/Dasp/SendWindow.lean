import Sedona.Dasp.ReceiveWindow

/-!
# The DASP Send Window

The queue of outgoing datagrams of the Java client library (`sedona.dasp.SendWindow`): a
datagram is numbered from a 32-bit counter, queued until it is acknowledged, and dropped
from the head of the queue once it is. Time is left out: a retry may come at any moment,
and `send` is enabled only while the window has room, since the method blocks otherwise.

## Main results

* `isAcked_iff`: a number counts as acknowledged exactly when it lies outside the 10001
  numbers after the ack number or its bit of the `ackMore` header is set.
* `checkAckHeaders_spec`: an ack header drops acknowledged packets from the head of the
  queue, flags acknowledged packets behind it and changes nothing else.
-/

namespace Sedona.Dasp

/-- A queued datagram (`SendWindow.Packet`, without its times). -/
structure Packet (α : Type*) where
  seqNum : ℤ
  payload : α
  acked : Bool := false
deriving DecidableEq, Repr

/-- The send window: the linked list from `head` to `tail`, its size, the counter of the
next sequence number and the number of packets the window has room for. -/
structure SendWindow (α : Type*) where
  packets : List (Packet α) := []
  size : ℕ := 0
  seqNum : BitVec 32
  sendSize : ℕ := 8
deriving DecidableEq, Repr

variable {α : Type*}

namespace SendWindow

/-! ### Sending -/

/-- `SendWindow.curSeqNum`: the number the next datagram gets. -/
def curSeqNum (w : SendWindow α) : ℤ := ((w.seqNum &&& 0xffff#32).toNat : ℤ)

/-- `SendWindow.full`. -/
def full (w : SendWindow α) : Bool := w.size ≥ w.sendSize

/-- `SendWindow.send`: number the datagram and append it to the queue. `none` while the
window is full, where the method blocks; the counter is read by no other method, so it is
immaterial that the method numbers the datagram before it blocks. -/
def send (w : SendWindow α) (payload : α) : Option (Packet α × SendWindow α) :=
  if w.full then none
  else
    let p : Packet α := { seqNum := w.curSeqNum, payload := payload }
    some (p, { w with packets := w.packets ++ [p], size := w.size + 1, seqNum := w.seqNum + 1 })

/-! ### Acknowledgements -/

/-- `SendWindow.isAcked`: is the number outside the unacknowledged range, or flagged in
the `ackMore` header. -/
def isAcked (unackStart unackEnd : ℤ) (msg : AckFields) (seqNum : ℤ) : Bool :=
  if (if unackStart ≤ unackEnd then seqNum < unackStart || seqNum > unackEnd
      else seqNum < unackStart && seqNum > unackEnd) then true
  else
    match msg.ackMore with
    | none => false
    | some ackMore =>
        let diff := ((seqNum - msg.ack) % 65536).toNat
        let index : ℤ := ackMore.length - (diff / 8 : ℕ) - 1
        if 0 ≤ index ∧ index < ackMore.length then
          match ackMore[index.toNat]? with
          | some byte => (1#32 <<< (diff % 8)) &&& byte.setWidth 32 ≠ 0#32
          | none => false
        else false

/-- Flag a packet that is not acknowledged yet. -/
def mark (acks : ℤ → Bool) (p : Packet α) : Packet α :=
  if !p.acked && acks p.seqNum then { p with acked := true } else p

/-- The loop of `checkAckHeaders` over the packets from `p` on, where `isHead` says whether
`p` is the head of the queue. It returns the packets that stay and how many left. -/
def ackLoop (acks : ℤ → Bool) : Bool → List (Packet α) → List (Packet α) × ℕ
  | _, [] => ([], 0)
  | isHead, p :: rest =>
      let p := mark acks p
      if isHead && p.acked then
        let r := ackLoop acks true rest
        (r.1, r.2 + 1)
      else
        let r := ackLoop acks false rest
        (p :: r.1, r.2)

/-- `SendWindow.checkAckHeaders`. -/
def checkAckHeaders (w : SendWindow α) (msg : AckFields) : SendWindow α :=
  if msg.ack < 0 ∨ w.packets = [] then w
  else
    let unackStart := (msg.ack + 1) % 65536
    let unackEnd := (unackStart + 10000) % 65536
    let r := ackLoop (isAcked unackStart unackEnd msg) true w.packets
    { w with packets := r.1, size := w.size - r.2 }

/-- The packets `sendRetries` may send again. -/
def retries (w : SendWindow α) : List (Packet α) := w.packets.filter (fun p => !p.acked)

/-! ### What an ack header acknowledges -/

/-- The byte `isAcked` looks at holds the bit `ackMoreBit` reads. -/
theorem ackMoreBit_eq (bytes : List (BitVec 8)) (d : ℕ) :
    ackMoreBit bytes d =
      (let index : ℤ := bytes.length - (d / 8 : ℕ) - 1
       if 0 ≤ index ∧ index < bytes.length then
         match bytes[index.toNat]? with
         | some byte => decide ((1#32 <<< (d % 8)) &&& byte.setWidth 32 ≠ 0#32)
         | none => false
       else false) := by
  have h8 : d % 8 < 8 := Nat.mod_lt _ (by omega)
  simp only
  unfold ackMoreBit
  by_cases hlt : d / 8 < bytes.length
  · have hindex : ((bytes.length : ℤ) - (d / 8 : ℕ) - 1).toNat = bytes.length - 1 - d / 8 := by
      omega
    rw [if_pos (by omega), hindex, List.getElem?_reverse hlt]
    cases bytes[bytes.length - 1 - d / 8]? with
    | none => rfl
    | some byte =>
        simp only [BitVec.and_comm,
          Bitmap.and_one_shiftLeft_ne_zero_iff _ (show d % 8 < 32 by omega),
          BitVec.getLsbD_setWidth, show d % 8 < 32 by omega, decide_true, Bool.true_and,
          Bool.decide_eq_true]
  · rw [if_neg (by omega), List.getElem?_eq_none (by simpa using hlt)]

/-- **What counts as acknowledged.** -/
theorem isAcked_iff {msg : AckFields} {seqNum : ℤ} (hnum : 0 ≤ seqNum ∧ seqNum ≤ 0xffff) :
    isAcked ((msg.ack + 1) % 65536) (((msg.ack + 1) % 65536 + 10000) % 65536) msg seqNum = true ↔
      10000 < (seqNum - (msg.ack + 1)) % 65536 ∨
        ∃ bytes, msg.ackMore = some bytes ∧
          ackMoreBit bytes ((seqNum - msg.ack) % 65536).toNat = true := by
  have hrange : (if (msg.ack + 1) % 65536 ≤ ((msg.ack + 1) % 65536 + 10000) % 65536 then
        decide (seqNum < (msg.ack + 1) % 65536) ||
          decide (seqNum > ((msg.ack + 1) % 65536 + 10000) % 65536)
      else decide (seqNum < (msg.ack + 1) % 65536) &&
          decide (seqNum > ((msg.ack + 1) % 65536 + 10000) % 65536)) = true ↔
      10000 < (seqNum - (msg.ack + 1)) % 65536 := by
    split
    · simp only [Bool.or_eq_true, decide_eq_true_eq]
      omega
    · simp only [Bool.and_eq_true, decide_eq_true_eq]
      omega
  unfold isAcked
  rw [if_congr hrange rfl rfl]
  by_cases hout : 10000 < (seqNum - (msg.ack + 1)) % 65536
  · simp [hout]
  rw [if_neg hout]
  simp only [hout, false_or]
  cases msg.ackMore with
  | none => simp
  | some bytes =>
      simp only [Option.some.injEq, exists_eq_left']
      rw [ackMoreBit_eq]

/-! ### What an ack header does to the queue -/

@[simp] theorem mark_seqNum (acks : ℤ → Bool) (p : Packet α) : (mark acks p).seqNum = p.seqNum := by
  unfold mark
  split <;> rfl

@[simp] theorem mark_payload (acks : ℤ → Bool) (p : Packet α) :
    (mark acks p).payload = p.payload := by
  unfold mark
  split <;> rfl

theorem mark_acked (acks : ℤ → Bool) (p : Packet α) :
    (mark acks p).acked = (p.acked || acks p.seqNum) := by
  unfold mark
  cases h : p.acked <;> cases h' : acks p.seqNum <;> simp [h]

/-- Behind the head, the loop only marks. -/
theorem ackLoop_false (acks : ℤ → Bool) (ps : List (Packet α)) :
    ackLoop acks false ps = (ps.map (mark acks), 0) := by
  induction ps with
  | nil => rfl
  | cons p rest ih => simp [ackLoop, ih]

/-- From the head on, the loop removes a run of acknowledged packets and marks the rest. -/
theorem ackLoop_true (acks : ℤ → Bool) (ps : List (Packet α)) :
    ∃ gone stay, ps = gone ++ stay ∧ (∀ p ∈ gone, (mark acks p).acked = true) ∧
      ackLoop acks true ps = (stay.map (mark acks), gone.length) := by
  induction ps with
  | nil => exact ⟨[], [], rfl, by simp, rfl⟩
  | cons p rest ih =>
      by_cases hacked : (mark acks p).acked = true
      · obtain ⟨gone, stay, hsplit, hgone, hrun⟩ := ih
        refine ⟨p :: gone, stay, by rw [hsplit, List.cons_append], ?_, ?_⟩
        · exact List.forall_mem_cons.mpr ⟨hacked, hgone⟩
        · simp [ackLoop, hacked, hrun]
      · refine ⟨[], p :: rest, rfl, by simp, ?_⟩
        simp [ackLoop, hacked, ackLoop_false]

/-- **The ack step.** A run of packets at the head leaves, the others are marked, and every
packet that left or is flagged was flagged before or is acknowledged by the header. -/
theorem checkAckHeaders_spec (w : SendWindow α) (msg : AckFields) :
    ∃ gone stay acks, w.packets = gone ++ stay ∧
      w.checkAckHeaders msg = { w with packets := stay.map (mark acks),
                                       size := w.size - gone.length } ∧
      (∀ p ∈ gone, (mark acks p).acked = true) ∧
      (∀ num, acks num = true → 0 ≤ msg.ack ∧
        isAcked ((msg.ack + 1) % 65536) (((msg.ack + 1) % 65536 + 10000) % 65536) msg num
          = true) := by
  unfold checkAckHeaders
  by_cases hskip : msg.ack < 0 ∨ w.packets = []
  · have hmark : mark (fun _ => false) = (id : Packet α → Packet α) := by
      funext p
      simp [mark]
    exact ⟨[], w.packets, fun _ => false, rfl, by simp [if_pos hskip, hmark], by simp, by simp⟩
  · rw [if_neg hskip]
    obtain ⟨gone, stay, hsplit, hgone, hrun⟩ := ackLoop_true
      (isAcked ((msg.ack + 1) % 65536) (((msg.ack + 1) % 65536 + 10000) % 65536) msg) w.packets
    refine ⟨gone, stay, _, hsplit, by simp only [hrun], hgone, ?_⟩
    intro num hnum
    exact ⟨by omega, hnum⟩

end SendWindow

end Sedona.Dasp
