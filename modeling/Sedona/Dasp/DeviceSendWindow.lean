import Sedona.Library.Transition
import Sedona.Sys.BufInStream

/-!
# The Device's Send Window

`sox::SendWindow`: eight slots for messages that were sent and not acknowledged yet. A slot is
free when its age is zero; the age also counts the ticks until the message is sent again. It is
a byte, so a tick count can bring it back to zero.

## Main results

* `send_window_accounting`: in every run in which no age comes back to zero, the window counts
  its messages right, a slot becomes free only when its message is acknowledged or the session
  is closed, and a datagram that is let through finds a free slot for its response.
* `accounted_sendRetries_iff`: that condition is exact.
* `isAcked_iff`: which numbers the ack headers of a message acknowledge.
* `send_window_loses_count`: a run of three calls after which a message is counted that no slot
  holds.
-/

open Transition

namespace Sedona.Dasp

/-! ### The window -/

/-- `sox::SendPacket`: a slot for a message. -/
structure SendPacket where
  seqNum : BitVec 16
  /-- Zero if unused, else one more than the ticks since it was sent. -/
  age : BitVec 8
  cmd : BitVec 8
deriving DecidableEq, Repr

/-- `sox::SendWindow`. -/
structure DeviceSendWindow where
  seqNum : BitVec 16
  numUnacked : BitVec 8
  packets : List SendPacket
deriving DecidableEq, Repr

namespace DeviceSendWindow

/-- `SendWindow.max`. -/
def max : ℕ := 8

/-- The number of ticks after which a message is sent again: `PKT_RETRY_INTERVAL` over
`HOUSE_KEEPING_INTERVAL`. -/
def retryTicks : ℕ := 1000 / 100

/-- `SendWindow.reset`, with the random number it starts from. -/
def reset (w : DeviceSendWindow) (rand : BitVec 16) : DeviceSendWindow :=
  { seqNum := rand, numUnacked := 0#8, packets := w.packets.map fun p => { p with age := 0#8 } }

/-- The loop of `nextPacket`: the slots with the first free one taken. -/
def takeFree (seqNum : BitVec 16) : List SendPacket → Option (List SendPacket)
  | [] => none
  | p :: ps =>
      if p.age = 0#8 then some ({ cmd := 0x3f#8, age := 1#8, seqNum := seqNum } :: ps)
      else (takeFree seqNum ps).map (p :: ·)

/-- `SendWindow.nextPacket`: the window with a slot taken, or null. -/
def nextPacket (w : DeviceSendWindow) : Option DeviceSendWindow :=
  (takeFree w.seqNum w.packets).map fun packets =>
    { seqNum := w.seqNum + 1#16, numUnacked := w.numUnacked + 1#8, packets := packets }

/-! ### Acknowledgements -/

/-- The ack headers of a message: the ack number, or -1, and where the mask is in the packet. -/
structure AckHeaders where
  ackNum : ℤ := -1
  ackMoreOff : ℕ := 0
  ackMoreLen : ℤ := 0
deriving DecidableEq, Repr

/-- `SoxSession.skipHeader` for a string: up to the zero, or the end of the stream. -/
def skipStr : ℕ → StateM BufInStream Unit
  | 0 => pure ()
  | n + 1 => do
      let c ← BufInStream.read
      if c ≤ 0 then pure () else skipStr n

/-- `SoxSession.skipHeader`. -/
def skipHeader (typeId : ℤ) : StateM BufInStream Unit := do
  if typeId = 1 then BufInStream.skip 2
  else if typeId = 2 then
    let s ← get
    skipStr (s.size - s.pos + 1)
  else if typeId = 3 then
    let len ← BufInStream.read
    if 0 < len then BufInStream.skip len

/-- The loop of `checkAckHeaders` over the header fields. -/
def parseAckHeaders : ℕ → AckHeaders → StateM BufInStream AckHeaders
  | 0, h => pure h
  | n + 1, h => do
      let headerId ← BufInStream.read
      let typeId := headerId % 4
      if headerId / 4 = 0x09 then
        let ackNum ← BufInStream.readU2
        parseAckHeaders n { h with ackNum := ackNum }
      else if headerId / 4 = 0x0a then
        let len ← BufInStream.read
        let s ← get
        BufInStream.skip len
        parseAckHeaders n { h with ackMoreOff := s.pos, ackMoreLen := len }
      else
        skipHeader typeId
        parseAckHeaders n h

/-- The part of `isAcked` for the mask of messages received out of order. -/
def isMarked (bytes : ℕ → BitVec 8) (h : AckHeaders) (seqNum : ℤ) : Bool :=
  if 0 < h.ackMoreLen then
    let diff := ((seqNum - h.ackNum) % 65536).toNat
    let index : ℤ := h.ackMoreLen - (diff / 8 : ℕ) - 1
    if 0 ≤ index ∧ index < h.ackMoreLen then
      (1#32 <<< (diff % 8)) &&& (bytes (h.ackMoreOff + index.toNat)).setWidth 32 ≠ 0#32
    else false
  else false

/-- `SendWindow.isAcked`. -/
def isAcked (bytes : ℕ → BitVec 8) (h : AckHeaders) (seqNum : ℤ) : Bool :=
  let unackStart := (h.ackNum + 1) % 65536
  let unackEnd := (unackStart + 10000) % 65536
  if (if unackStart ≤ unackEnd then seqNum < unackStart || seqNum > unackEnd
      else seqNum < unackStart && seqNum > unackEnd) then true
  else isMarked bytes h seqNum

/-- A number is acknowledged exactly if it is not among the 10001 numbers after the ack number,
or it is marked. -/
theorem isAcked_iff (bytes : ℕ → BitVec 8) {h : AckHeaders} {seqNum : ℤ}
    (hseq : 0 ≤ seqNum ∧ seqNum < 65536) :
    isAcked bytes h seqNum = true ↔
      10000 < (seqNum - (h.ackNum + 1)) % 65536 ∨ isMarked bytes h seqNum = true := by
  have hout : (if (h.ackNum + 1) % 65536 ≤ ((h.ackNum + 1) % 65536 + 10000) % 65536 then
        decide (seqNum < (h.ackNum + 1) % 65536) ||
          decide (seqNum > ((h.ackNum + 1) % 65536 + 10000) % 65536)
      else decide (seqNum < (h.ackNum + 1) % 65536) &&
          decide (seqNum > ((h.ackNum + 1) % 65536 + 10000) % 65536)) = true ↔
      10000 < (seqNum - (h.ackNum + 1)) % 65536 := by
    split
    · simp only [Bool.or_eq_true, decide_eq_true_eq]
      omega
    · simp only [Bool.and_eq_true, decide_eq_true_eq]
      omega
  rw [← hout]
  simp only [isAcked]
  by_cases h : 10000 < (seqNum - (h.ackNum + 1)) % 65536
  · rw [if_pos (hout.mpr h)]
    exact iff_of_true rfl (Or.inl (hout.mpr h))
  · rw [if_neg fun hc => h (hout.mp hc)]
    exact (or_iff_right fun hc => h (hout.mp hc)).symm

/-- Free the slot of a message that is acknowledged. -/
def free (acked : ℤ → Bool) (p : SendPacket) : SendPacket :=
  if p.age ≠ 0#8 ∧ acked p.seqNum.toNat then { p with age := 0#8 } else p

/-- The loop of `checkAckHeaders` over the slots: how many messages it frees the slots of. -/
def numFreed (acked : ℤ → Bool) (ps : List SendPacket) : ℕ :=
  ps.countP fun p => p.age ≠ 0#8 ∧ acked p.seqNum.toNat

/-- The numbers that the ack headers of a message acknowledge. -/
def acks (input : BufInStream) (numFields : ℕ) : ℤ → Bool :=
  let h := (parseAckHeaders numFields {}).run input
  if numFields = 0 ∨ h.1.ackNum < 0 then fun _ => false else isAcked input.bytes h.1

/-- `SendWindow.checkAckHeaders`, of a message whose headers start at the position of the
stream: whether the window has room left, and the window. -/
def checkAckHeaders (w : DeviceSendWindow) (input : BufInStream) (numFields : ℕ) :
    Bool × DeviceSendWindow :=
  let acked := acks input numFields
  let w := { w with
    numUnacked := w.numUnacked - BitVec.ofNat 8 (numFreed acked w.packets)
    packets := w.packets.map (free acked) }
  (w.numUnacked.toNat < max, w)

/-! ### Retries -/

/-- The ticks that `SoxService.houseKeeping` counts in so many milliseconds. -/
def houseKeepingTicks (deltaMs : ℕ) : ℕ :=
  deltaMs / 100 + if deltaMs % 100 > 50 then 1 else 0

/-- The body of the loop of `sendRetries`, for a slot that is used: whether the message is sent
again, and the slot. -/
def retry (ticks : ℕ) (p : SendPacket) : Bool × SendPacket :=
  let age := p.age + BitVec.ofNat 8 ticks
  if age.toNat > retryTicks then (true, { p with age := 1#8 }) else (false, { p with age := age })

/-- `SendWindow.sendRetries`: the messages that are sent again, and the window. -/
def sendRetries (w : DeviceSendWindow) (ticks : ℕ) : List SendPacket × DeviceSendWindow :=
  if w.numUnacked = 0#8 then ([], w)
  else
    (w.packets.filter fun p => p.age ≠ 0#8 ∧ (retry ticks p).1,
      { w with packets := w.packets.map fun p => if p.age = 0#8 then p else (retry ticks p).2 })

/-! ### Runs -/

/-- A call on the window. -/
inductive Call where
  /-- The session is opened again, `rand` is the number it starts from. -/
  | reset (rand : BitVec 16)
  | nextPacket
  /-- Housekeeping, after `deltaMs` milliseconds. -/
  | sendRetries (deltaMs : ℕ)
  /-- A message arrives. -/
  | checkAckHeaders (input : BufInStream) (numFields : ℕ)

/-- The window as it is before the first session. -/
def initial : DeviceSendWindow :=
  { seqNum := 0
    numUnacked := 0#8
    packets := List.replicate max { seqNum := 0, age := 0#8, cmd := 0 } }

/-- The milliseconds that `SoxService.houseKeeping` goes on with: an int, and no less than
`HOUSE_KEEPING_INTERVAL`. -/
def IsDelta (deltaMs : ℕ) : Prop := 100 ≤ deltaMs ∧ deltaMs < 0x80000000

instance (deltaMs : ℕ) : Decidable (IsDelta deltaMs) := inferInstanceAs (Decidable (_ ∧ _))

/-- The window after a call. A call of `nextPacket` that finds no slot leaves it as it is. -/
def next (w : DeviceSendWindow) : Call → Option DeviceSendWindow
  | .reset rand => some (w.reset rand)
  | .nextPacket => some (w.nextPacket.getD w)
  | .sendRetries deltaMs =>
      if IsDelta deltaMs then some (w.sendRetries (houseKeepingTicks deltaMs)).2 else none
  | .checkAckHeaders input numFields => some (w.checkAckHeaders input numFields).2

/-- All runs of calls on the window of a session. -/
def system : System DeviceSendWindow Call := System.ofNext (· = initial) next

/-- How many slots are used. -/
def numUsed (ps : List SendPacket) : ℕ := ps.countP fun p => p.age ≠ 0#8

/-- The window has its eight slots and counts the used ones. -/
def Accounted (w : DeviceSendWindow) : Prop :=
  w.packets.length = max ∧ w.numUnacked.toNat = numUsed w.packets

/-- What may free the slot of a message: an ack of it, or the end of the session. -/
def FreedBy (p : SendPacket) : Call → Prop
  | .reset _ => True
  | .checkAckHeaders input numFields => acks input numFields p.seqNum.toNat = true
  | _ => False

/-- The slots that a call frees, taking the window to `w'`, may be freed by it. -/
def FreesAcked (w : DeviceSendWindow) (c : Call) (w' : DeviceSendWindow) : Prop :=
  ∀ (i : ℕ) (p p' : SendPacket), w.packets[i]? = some p → w'.packets[i]? = some p' →
    p.age ≠ 0#8 → p'.age = 0#8 → FreedBy p c

/-- No age comes back to zero in so many ticks. -/
def NoWrap (w : DeviceSendWindow) (ticks : ℕ) : Prop :=
  ∀ p ∈ w.packets, p.age ≠ 0#8 → (p.age.toNat + ticks) % 256 ≠ 0

/-- The condition on a call under which the window is sound. -/
def NoAgeWrap (w : DeviceSendWindow) : Call → Prop
  | .sendRetries deltaMs => NoWrap w (houseKeepingTicks deltaMs)
  | _ => True

instance (w : DeviceSendWindow) (ticks : ℕ) : Decidable (NoWrap w ticks) :=
  inferInstanceAs (Decidable (∀ p ∈ w.packets, _))

instance : (w : DeviceSendWindow) → (c : Call) → Decidable (NoAgeWrap w c)
  | w, .sendRetries deltaMs => inferInstanceAs (Decidable (NoWrap w (houseKeepingTicks deltaMs)))
  | _, .reset _ => isTrue trivial
  | _, .nextPacket => isTrue trivial
  | _, .checkAckHeaders _ _ => isTrue trivial

/-! ### One call -/

@[simp] theorem numUsed_nil : numUsed [] = 0 := rfl

@[simp] theorem numUsed_cons (p : SendPacket) (ps : List SendPacket) :
    numUsed (p :: ps) = numUsed ps + if p.age = 0#8 then 0 else 1 := by
  simp only [numUsed, List.countP_cons]
  by_cases h : p.age = 0#8 <;> simp [h]

theorem numUsed_le (ps : List SendPacket) : numUsed ps ≤ ps.length := List.countP_le_length

theorem numUsed_eq_zero {ps : List SendPacket} (h : numUsed ps = 0) : ∀ p ∈ ps, p.age = 0#8 := by
  simpa [numUsed, List.countP_eq_zero] using h

/-- A change of the slots that leaves free ones free keeps their number exactly if it leaves
used ones used. -/
theorem numUsed_map_eq_iff {f : SendPacket → SendPacket} {ps : List SendPacket}
    (hf : ∀ p ∈ ps, p.age = 0#8 → (f p).age = 0#8) :
    numUsed (ps.map f) ≤ numUsed ps ∧
      (numUsed (ps.map f) = numUsed ps ↔ ∀ p ∈ ps, p.age ≠ 0#8 → (f p).age ≠ 0#8) := by
  induction ps with
  | nil => simp
  | cons p ps ih =>
      obtain ⟨hle, hiff⟩ := ih fun q hq => hf q (List.mem_cons_of_mem p hq)
      have hp := hf p List.mem_cons_self
      simp only [List.map_cons, numUsed_cons, List.forall_mem_cons, ← hiff]
      by_cases h : p.age = 0#8
      · simp [h, hp h, hle]
      · by_cases h' : (f p).age = 0#8
        · rw [if_neg h, if_pos h']
          refine ⟨by omega, iff_of_false (by omega) ?_⟩
          exact fun hall => hall.1 h h'
        · simp [h, h', hle]

/-- Taking a slot: one more is used, and no slot is freed. -/
theorem takeFree_spec {seqNum : BitVec 16} {ps qs : List SendPacket}
    (h : takeFree seqNum ps = some qs) :
    qs.length = ps.length ∧ numUsed qs = numUsed ps + 1 ∧
      ∀ (i : ℕ) (p q : SendPacket), ps[i]? = some p → qs[i]? = some q →
        p.age ≠ 0#8 → q.age ≠ 0#8 := by
  induction ps generalizing qs with
  | nil => simp [takeFree] at h
  | cons p ps ih =>
      rw [takeFree] at h
      by_cases hp : p.age = 0#8
      · rw [if_pos hp, Option.some.injEq] at h
        subst h
        refine ⟨rfl, by simp [hp], ?_⟩
        rintro (_ | i) a b ha hb hne
        · simp only [List.getElem?_cons_zero, Option.some.injEq] at hb
          subst hb
          simp
        · simp only [List.getElem?_cons_succ] at ha hb
          rw [ha] at hb
          rwa [← Option.some.inj hb]
      · rw [if_neg hp] at h
        obtain ⟨rest, hrest, rfl⟩ := Option.map_eq_some_iff.mp h
        obtain ⟨hlen, hcount, hkeep⟩ := ih hrest
        refine ⟨by simp [hlen], ?_, ?_⟩
        · simp [hcount, hp]
        · rintro (_ | i) a b ha hb hne
          · simp only [List.getElem?_cons_zero, Option.some.injEq] at ha hb
            rwa [← hb, ha]
          · exact hkeep i a b (by simpa using ha) (by simpa using hb) hne

/-- With a free slot left, one is taken. -/
theorem takeFree_isSome {seqNum : BitVec 16} {ps : List SendPacket}
    (h : numUsed ps < ps.length) : (takeFree seqNum ps).isSome := by
  induction ps with
  | nil => simp at h
  | cons p ps ih =>
      rw [takeFree]
      by_cases hp : p.age = 0#8
      · simp [hp]
      · rw [if_neg hp, Option.isSome_map]
        refine ih ?_
        simpa [hp] using h

/-- Freeing slots: those freed are counted. -/
theorem numUsed_free (acked : ℤ → Bool) (ps : List SendPacket) :
    numUsed (ps.map (free acked)) + numFreed acked ps = numUsed ps := by
  induction ps with
  | nil => rfl
  | cons p ps ih =>
      rw [numFreed] at ih ⊢
      simp only [List.map_cons, numUsed_cons, List.countP_cons, decide_eq_true_eq]
      by_cases h : p.age ≠ 0#8 ∧ acked p.seqNum.toNat = true
      · simp only [free, if_pos h, if_neg h.1, if_pos]
        omega
      · simp only [free, if_neg h]
        omega

theorem accounted_reset {w : DeviceSendWindow} (hw : Accounted w) (rand : BitVec 16) :
    Accounted (w.reset rand) := by
  refine ⟨by simpa [reset] using hw.1, ?_⟩
  have : numUsed (w.packets.map fun p => { p with age := 0#8 }) = 0 := by
    simp [numUsed, List.countP_map, List.countP_eq_zero]
  exact this.symm

theorem accounted_nextPacket {w w' : DeviceSendWindow} (hw : Accounted w)
    (h : w.nextPacket = some w') : Accounted w' := by
  obtain ⟨qs, hqs, rfl⟩ := Option.map_eq_some_iff.mp h
  obtain ⟨hlen, hcount, -⟩ := takeFree_spec hqs
  have hle := numUsed_le qs
  have hmax : w.packets.length = 8 := hw.1
  refine ⟨hlen.trans hw.1, ?_⟩
  have := hw.2
  simp only [BitVec.toNat_add, BitVec.toNat_ofNat]
  omega

theorem accounted_checkAckHeaders {w : DeviceSendWindow} (hw : Accounted w)
    (input : BufInStream) (numFields : ℕ) :
    Accounted (w.checkAckHeaders input numFields).2 := by
  have hcount := numUsed_free (acks input numFields) w.packets
  have hle := numUsed_le w.packets
  have hmax : w.packets.length = 8 := hw.1
  have := hw.2
  refine ⟨by simpa [checkAckHeaders] using hw.1, ?_⟩
  simp only [checkAckHeaders, BitVec.toNat_sub, BitVec.toNat_ofNat]
  omega

/-- A retry leaves a slot used unless its age comes back to zero. -/
theorem retry_age_eq_zero_iff (ticks : ℕ) (p : SendPacket) :
    (retry ticks p).2.age = 0#8 ↔ (p.age.toNat + ticks) % 256 = 0 := by
  have hage : (p.age + BitVec.ofNat 8 ticks).toNat = (p.age.toNat + ticks) % 256 := by
    simp [BitVec.toNat_add]
  unfold retry
  simp only
  split
  · rename_i h
    simp only [retryTicks] at h
    simp
    omega
  · rw [← BitVec.toNat_inj, hage]
    rfl

/-- What `sendRetries` does to the slots, when the window counts the used ones. -/
theorem sendRetries_packets {w : DeviceSendWindow} (hw : Accounted w) (ticks : ℕ) :
    (w.sendRetries ticks).2 = { w with
      packets := w.packets.map fun p => if p.age = 0#8 then p else (retry ticks p).2 } := by
  unfold sendRetries
  split
  · rename_i h
    have hzero : numUsed w.packets = 0 := by
      rw [← hw.2, h]
      rfl
    have hfree := numUsed_eq_zero hzero
    have hsame : (w.packets.map fun p => if p.age = 0#8 then p else (retry ticks p).2) =
        w.packets.map id := List.map_congr_left fun p hp => if_pos (hfree p hp)
    rw [hsame, List.map_id]
  · rfl

/-- **The condition is exact.** Retries keep the count right exactly if no age comes back to
zero. -/
theorem accounted_sendRetries_iff {w : DeviceSendWindow} (hw : Accounted w) (ticks : ℕ) :
    Accounted (w.sendRetries ticks).2 ↔ NoWrap w ticks := by
  have hfree : ∀ p ∈ w.packets, p.age = 0#8 →
      (if p.age = 0#8 then p else (retry ticks p).2).age = 0#8 := by
    intro p _ hp
    simp [hp]
  have hiff := (numUsed_map_eq_iff hfree).2
  rw [sendRetries_packets hw, Accounted, hw.2, List.length_map, eq_comm (a := numUsed _), hiff]
  constructor
  · rintro ⟨-, hkeep⟩ p hp hne hwrap
    have := hkeep p hp hne
    rw [if_neg hne] at this
    exact this ((retry_age_eq_zero_iff ticks p).mpr hwrap)
  · intro hwrap
    refine ⟨hw.1, ?_⟩
    intro p hp hne
    rw [if_neg hne, ne_eq, retry_age_eq_zero_iff]
    exact hwrap p hp hne

/-- Every call whose condition holds keeps the count right. -/
theorem accounted_next {w w' : DeviceSendWindow} {c : Call} (hw : Accounted w)
    (hcond : NoAgeWrap w c) (h : next w c = some w') : Accounted w' := by
  cases c with
  | reset rand =>
      obtain rfl := Option.some.inj h
      exact accounted_reset hw rand
  | nextPacket =>
      obtain rfl := Option.some.inj h
      cases hnext : w.nextPacket with
      | none => exact hw
      | some w' => exact accounted_nextPacket hw hnext
  | sendRetries deltaMs =>
      simp only [next] at h
      split at h
      · obtain rfl := Option.some.inj h
        exact (accounted_sendRetries_iff hw _).mpr hcond
      · simp at h
  | checkAckHeaders input numFields =>
      obtain rfl := Option.some.inj h
      exact accounted_checkAckHeaders hw input numFields

/-- Every call whose condition holds frees only slots it may free. -/
theorem freesAcked_next {w w' : DeviceSendWindow} {c : Call} (hw : Accounted w)
    (hcond : NoAgeWrap w c) (h : next w c = some w') : FreesAcked w c w' := by
  intro i p p' hp hp' hne hfree
  cases c with
  | reset rand => trivial
  | nextPacket =>
      obtain rfl := Option.some.inj h
      cases hnext : w.nextPacket with
      | none =>
          rw [hnext, Option.getD_none, hp] at hp'
          obtain rfl := Option.some.inj hp'
          exact absurd hfree hne
      | some w' =>
          rw [hnext, Option.getD_some] at hp'
          obtain ⟨qs, hqs, rfl⟩ := Option.map_eq_some_iff.mp hnext
          exact absurd hfree ((takeFree_spec hqs).2.2 i p p' hp hp' hne)
  | sendRetries deltaMs =>
      simp only [next] at h
      split at h
      · obtain rfl := Option.some.inj h
        rw [sendRetries_packets hw, List.getElem?_map, hp, Option.map_some, if_neg hne,
          Option.some.injEq] at hp'
        rw [← hp', retry_age_eq_zero_iff] at hfree
        exact absurd hfree (hcond p (List.mem_of_getElem? hp) hne)
      · simp at h
  | checkAckHeaders input numFields =>
      obtain rfl := Option.some.inj h
      simp only [checkAckHeaders, List.getElem?_map, hp, Option.map_some, Option.some.injEq]
        at hp'
      by_cases hack : acks input numFields p.seqNum.toNat = true
      · exact hack
      · simp only [free, hack, and_false, Bool.false_eq_true, if_false] at hp'
        rw [← hp'] at hfree
        exact absurd hfree hne

/-! ### Every run -/

theorem accounted_of_reachable {w : DeviceSendWindow}
    (h : (system.restrict NoAgeWrap).Reachable w) : Accounted w := by
  refine h.invariant ?_ ?_
  · rintro w rfl
    exact ⟨rfl, rfl⟩
  · rintro w c w' hw ⟨hcond, hstep⟩
    exact accounted_next hw hcond hstep

/-- A window with room left has a free slot. -/
theorem nextPacket_isSome {w : DeviceSendWindow} (hw : Accounted w)
    (hroom : w.numUnacked.toNat < max) : w.nextPacket.isSome := by
  rw [nextPacket, Option.isSome_map]
  refine takeFree_isSome ?_
  rw [← hw.2, hw.1]
  exact hroom

/-- **Send window accounting.** In every run in which no retry brings an age back to zero, in
every state: the window counts the used slots; the next call frees a slot only if its message
is acknowledged or the session ends; and a message that is let through finds a free slot. What
the next retries do to the count depends on exactly this condition. -/
theorem send_window_accounting {w : DeviceSendWindow}
    (h : (system.restrict NoAgeWrap).Reachable w) :
    w.numUnacked.toNat = numUsed w.packets ∧
      (∀ c w', (system.restrict NoAgeWrap).step w c w' → FreesAcked w c w') ∧
      (∀ input numFields, (w.checkAckHeaders input numFields).1 = true →
        (w.checkAckHeaders input numFields).2.nextPacket.isSome) ∧
      ∀ deltaMs w', system.step w (.sendRetries deltaMs) w' →
        (w'.numUnacked.toNat = numUsed w'.packets ↔ NoAgeWrap w (.sendRetries deltaMs)) := by
  have hw := accounted_of_reachable h
  refine ⟨hw.2, ?_, ?_, ?_⟩
  · rintro c w' ⟨hcond, hstep⟩
    exact freesAcked_next hw hcond hstep
  · intro input numFields hroom
    have hnext := accounted_checkAckHeaders hw input numFields
    exact nextPacket_isSome hnext (by simpa [checkAckHeaders] using hroom)
  · intro deltaMs w' hstep
    simp only [system, System.ofNext, next] at hstep
    split at hstep
    · obtain rfl := Option.some.inj hstep
      have hiff := accounted_sendRetries_iff hw (houseKeepingTicks deltaMs)
      rw [Accounted, sendRetries_packets hw, List.length_map] at hiff
      rw [sendRetries_packets hw]
      exact (and_iff_right hw.1).symm.trans hiff
    · simp at hstep

/-- Eight slots, the first with this message in it. -/
def slots (seqNum : BitVec 16) (age cmd : BitVec 8) : List SendPacket :=
  { seqNum := seqNum, age := age, cmd := cmd } ::
    List.replicate 7 { seqNum := 0, age := 0, cmd := 0 }

/-- A message is sent, housekeeping is on time, and the message is acknowledged by an ack
number of 7. -/
def ackedRun : List Call :=
  [.reset 7, .nextPacket, .sendRetries 100,
    .checkAckHeaders { bytes := fun i => [0x25#8, 0, 7].getD i 0, size := 3 } 1]

theorem send_window_accounting_ackedRun :
    numUsed (slots 7 0 0x3f) = 0 ∧
      (nextPacket { seqNum := 8, numUnacked := 0, packets := slots 7 0 0x3f }).isSome := by
  have hrun : run (fun w c => if NoAgeWrap w c then next w c else none) initial ackedRun =
      some { seqNum := 8, numUnacked := 0, packets := slots 7 0 0x3f } := by decide
  have hreach := System.Reachable.of_guarded
    ((System.Reachable.start (show (System.ofNext (· = initial) _).init initial from rfl)).of_run
      hrun)
  obtain ⟨hcount, -, hfinds, -⟩ := send_window_accounting hreach
  refine ⟨hcount.symm, ?_⟩
  -- a message without headers changes nothing
  exact hfinds { bytes := fun _ => 0, size := 0 } 0 (by decide)

/-! ### A run that loses count -/

/-- A message is sent, and the next housekeeping is 25.5 seconds later. -/
def lateRun : List Call := [.reset 7, .nextPacket, .sendRetries 25500]

/-- The age 1 and 255 ticks make 0: the slot is free, the message still counted, and it is
never sent again. -/
theorem send_window_loses_count :
    ∃ w, system.Reachable w ∧ w.numUnacked.toNat ≠ numUsed w.packets ∧
      run next initial lateRun = some w := by
  have hrun : run next initial lateRun =
      some { seqNum := 8, numUnacked := 1, packets := slots 7 0 0x3f } := by decide
  refine ⟨_, ?_, ?_, hrun⟩
  · exact (System.Reachable.start (show system.init initial from rfl)).of_run hrun
  · decide

end DeviceSendWindow

end Sedona.Dasp
