import Sedona.Library.Transition
import Sedona.Dasp.SendWindow

/-!
# Exactly-Once Delivery

One direction of a DASP session between two Java endpoints: a sender with a `SendWindow`, a
receiver with a `ReceiveWindow`, and between them a network that drops, duplicates and
reorders datagrams and ack headers. A datagram's payload is its identity: the position
among the datagrams sent, which no endpoint looks at.

The one assumption about the network is `maxLate`: no copy, of a datagram or of an ack
header, is delivered after more than that many newer datagrams were sent.

## Main results

* `deliverySystem_inv`: the invariant that ties the queue, the bitmap and every copy in
  flight to the set of accepted datagrams.
* `exactly_once`: in every reachable state no datagram was accepted twice, and every
  datagram the sender no longer holds as unacknowledged was accepted.
-/

open Transition

namespace Sedona.Dasp

/-! ### The system -/

/-- A datagram message in flight. -/
structure Datagram where
  seqNum : ℤ
  payload : ℕ
deriving DecidableEq, Repr

/-- The ack headers of a message in flight, and how many datagrams had been sent when the
receiver wrote them. -/
structure AckMsg where
  fields : AckFields
  stamp : ℕ
deriving DecidableEq, Repr

/-- Both endpoints and the network between them. -/
structure Session where
  sendWindow : SendWindow ℕ
  receiveWindow : ReceiveWindow
  /-- How many datagrams the sender has sent. -/
  sent : ℕ := 0
  datagrams : List Datagram := []
  acks : List AckMsg := []
  /-- The datagrams for which `receive` returned true, the latest first. -/
  accepted : List ℕ := []
deriving DecidableEq, Repr

/-- No copy is delivered after more than this many newer datagrams were sent. -/
def maxLate : ℕ := 9000

/-- What an endpoint or the network does next. -/
inductive Event where
  /-- The sender sends a new datagram. -/
  | send
  /-- The sender sends a queued packet again. -/
  | retry (p : Packet ℕ)
  | dropDatagram (d : Datagram)
  | duplicateDatagram (d : Datagram)
  /-- A copy of a datagram arrives. -/
  | receive (d : Datagram)
  /-- The receiver sends a message with this much payload, whose headers may carry acks. -/
  | ack (payloadLen idealMax : ℤ)
  | dropAck (a : AckMsg)
  | duplicateAck (a : AckMsg)
  /-- A copy of a message with ack headers arrives. -/
  | checkAck (a : AckMsg)

/-- A packet as a message (`SendWindow.toMsg`). -/
def toMsg (p : Packet ℕ) : Datagram := { seqNum := p.seqNum, payload := p.payload }

namespace Session

/-- The copy `d` arrives at the receiver. -/
def receive (s : Session) (d : Datagram) : Session :=
  let r := Java.receive s.receiveWindow d.seqNum
  { s with receiveWindow := r.2, datagrams := s.datagrams.erase d,
           accepted := if r.1 then d.payload :: s.accepted else s.accepted }

/-- The receiver writes ack headers into a message. -/
def ack (s : Session) (payloadLen idealMax : ℤ) : Session :=
  let r := Java.setAckHeaders s.receiveWindow payloadLen idealMax
  { s with receiveWindow := r.2, acks := { fields := r.1, stamp := s.sent } :: s.acks }

/-- The copy `a` of ack headers arrives at the sender. -/
def checkAck (s : Session) (a : AckMsg) : Session :=
  { s with sendWindow := s.sendWindow.checkAckHeaders a.fields, acks := s.acks.erase a }

end Session

/-- A fresh session: the sender has sent nothing and has room for at most as many packets
as the receiver's window holds, and the receiver is initialised to the sender's number. -/
def Session.Opens (s : Session) : Prop :=
  s.sendWindow.packets = [] ∧ s.sendWindow.size = 0 ∧ (s.sendWindow.sendSize : ℤ) ≤ Java.max ∧
    Java.init Java.fresh s.sendWindow.curSeqNum = some s.receiveWindow ∧
    s.sent = 0 ∧ s.datagrams = [] ∧ s.acks = [] ∧ s.accepted = []

/-- The next state, if the event is enabled: a window that is full sends nothing, only
queued packets are sent again, and a copy must be in flight and not too late to arrive. -/
def Session.next (s : Session) : Event → Option Session
  | .send =>
      (s.sendWindow.send s.sent).map fun (p, w) =>
        { s with sendWindow := w, sent := s.sent + 1, datagrams := toMsg p :: s.datagrams }
  | .retry p =>
      if p ∈ s.sendWindow.retries then some { s with datagrams := toMsg p :: s.datagrams } else none
  | .dropDatagram d => some { s with datagrams := s.datagrams.erase d }
  | .duplicateDatagram d =>
      if d ∈ s.datagrams then some { s with datagrams := d :: s.datagrams } else none
  | .receive d =>
      if d ∈ s.datagrams ∧ s.sent - (d.payload + 1) ≤ maxLate then some (s.receive d) else none
  | .ack payloadLen idealMax => some (s.ack payloadLen idealMax)
  | .dropAck a => some { s with acks := s.acks.erase a }
  | .duplicateAck a => if a ∈ s.acks then some { s with acks := a :: s.acks } else none
  | .checkAck a =>
      if a ∈ s.acks ∧ s.sent - a.stamp ≤ maxLate then some (s.checkAck a) else none

/-- All runs of a session. -/
def deliverySystem : System Session Event := System.ofNext Session.Opens Session.next

/-! ### The invariant -/

/-- The number of the datagram `k` of a session that starts at `start`. -/
def numberOf (start : ℤ) (k : ℕ) : ℤ := (start + k) % 65536

/-- The sender's queue holds the datagrams from `head` on, numbered consecutively; those
before `head` and those flagged were accepted. -/
structure QueueInv (start : ℤ) (s : Session) (head : ℕ) : Prop where
  size : s.sendWindow.size = s.sendWindow.packets.length
  length_le : s.sendWindow.packets.length ≤ s.sendWindow.sendSize
  sendSize_le : s.sendWindow.sendSize ≤ 31
  counter : s.sendWindow.curSeqNum = numberOf start s.sent
  payloads : s.sendWindow.packets.map Packet.payload = List.range' head (s.sent - head)
  head_le : head ≤ s.sent
  numbered : ∀ p ∈ s.sendWindow.packets, p.seqNum = numberOf start p.payload
  gone_accepted : ∀ k < head, k ∈ s.accepted
  acked_accepted : ∀ p ∈ s.sendWindow.packets, p.acked = true → p.payload ∈ s.accepted

/-- `base` is the first datagram that was not accepted, the window starts just before it,
and its bitmap is the set of accepted datagrams beyond it. -/
structure BaseInv (start : ℤ) (w : ReceiveWindow) (accepted : List ℕ) (base : ℕ) : Prop where
  seqNum : w.seqNum = (start + base - 1) % 65536
  before : ∀ k < base, k ∈ accepted
  missing : base ∉ accepted
  marked : ∀ d, w.seqMore.getLsbD (d + 1) = true ↔ base + d ∈ accepted

/-- What an ack header in flight says is true: it was written when the first datagram not
accepted was `base`, at most 31 datagrams behind the last one sent. -/
def TrueAck (start : ℤ) (accepted : List ℕ) (a : AckMsg) : Prop :=
  0 ≤ a.fields.ack → ∃ base, base ≤ a.stamp ∧ a.stamp ≤ base + 31 ∧
    a.fields.ack = (start + base - 1) % 65536 ∧ (∀ k < base, k ∈ accepted) ∧
    ∀ bytes d, a.fields.ackMore = some bytes → ackMoreBit bytes (d + 1) = true →
      base + d ∈ accepted

/-- The invariant of a session that starts at `start`. -/
structure SessionInv (start : ℤ) (s : Session) : Prop where
  queue : ∃ head, QueueInv start s head
  base : ∃ base, BaseInv start s.receiveWindow s.accepted base
  nodup : s.accepted.Nodup
  accepted_lt : ∀ k ∈ s.accepted, k < s.sent
  numbered : ∀ d ∈ s.datagrams, d.payload < s.sent ∧ d.seqNum = numberOf start d.payload
  true_acks : ∀ a ∈ s.acks, a.stamp ≤ s.sent ∧ TrueAck start s.accepted a

/-! ### The receiver -/

theorem numberOf_u2 (start : ℤ) (k : ℕ) : 0 ≤ numberOf start k ∧ numberOf start k ≤ 0xffff := by
  unfold numberOf
  omega

section Receiver

variable {start : ℤ} {w : ReceiveWindow} {accepted : List ℕ} {base k : ℕ}

theorem BaseInv.wellFormed (h : BaseInv start w accepted base) : WellFormed w := by
  have hseq := h.seqNum
  refine ⟨by omega, by omega, ?_⟩
  have hmarked := h.marked 0
  have hmissing := h.missing
  simpa [hmissing] using hmarked

/-- The offset of a datagram is its distance from `base`, plus one. -/
theorem BaseInv.offset_eq (h : BaseInv start w accepted base) (k : ℕ) :
    offset w (numberOf start k) = ((k : ℤ) - base + 1) % 65536 := by
  have hseq := h.seqNum
  unfold offset numberOf
  omega

/-- The window slides when `base` arrives. -/
theorem BaseInv.slide (h : BaseInv start w accepted base) :
    ∃ base', BaseInv start (slide w) (base :: accepted) base' := by
  obtain ⟨n, hn, -, hseq, hbits, hrun, hend⟩ := slide_spec w
  have hseq' := h.seqNum
  refine ⟨base + n, by omega, ?_, ?_, ?_⟩
  · intro k hk
    rcases Nat.lt_trichotomy k base with hlt | rfl | hgt
    · exact List.mem_cons_of_mem _ (h.before k hlt)
    · exact List.mem_cons_self
    · -- a datagram the window slid over was marked
      have hbit := hrun (k - base + 1) (by omega) (by omega)
      rw [h.marked, show base + (k - base) = k by omega] at hbit
      exact List.mem_cons_of_mem _ hbit
  · intro hmem
    rcases List.mem_cons.mp hmem with heq | hmem
    · omega
    · rw [(h.marked n).mpr hmem] at hend
      exact Bool.noConfusion hend
  · intro d
    rw [hbits, show n + (d + 1) = n + d + 1 by omega, List.mem_cons,
      show base + n + d = base + (n + d) by omega, ← h.marked]
    have hbase : ¬ base + (n + d) = base := by omega
    rw [or_iff_right hbase, show decide (d + 1 = 0) = false by simp, Bool.false_or]

/-- A datagram within the window but not next in order is marked. -/
theorem BaseInv.mark (h : BaseInv start w accepted base) (hlt : base < k) (hle : k < base + 31) :
    BaseInv start { w with seqMore := w.seqMore ||| (1#32 <<< (k - base + 1)), acked := false }
      (k :: accepted) base := by
  refine ⟨h.seqNum, ?_, ?_, ?_⟩
  · exact fun i hi => List.mem_cons_of_mem _ (h.before i hi)
  · intro hmem
    rcases List.mem_cons.mp hmem with heq | hmem
    · omega
    · exact h.missing hmem
  · intro d
    rw [Bitmap.getLsbD_or_one_shiftLeft _ (by omega), Bool.or_eq_true, h.marked, List.mem_cons,
      decide_eq_true_eq, or_comm]
    refine or_congr_left ?_
    omega

/-- **The receive step.** A datagram that is not too late is accepted exactly when it was
not accepted before, and the window goes on describing the accepted datagrams. -/
theorem BaseInv.receive (h : BaseInv start w accepted base) (hlate : base ≤ k + 1 + maxLate)
    (hle : k < base + 31) :
    ((Java.receive w (numberOf start k)).1 = true ↔ k ∉ accepted) ∧
      ∃ base', BaseInv start (Java.receive w (numberOf start k)).2
        (if (Java.receive w (numberOf start k)).1 then k :: accepted else accepted) base' := by
  have hoff := h.offset_eq k
  have hmaxLate : maxLate = 9000 := rfl
  have hmax : Java.max = 31 := rfl
  have hreach : 31 ≤ reach Java.max w ∧ reach Java.max w ≤ 32 := by
    unfold reach
    split <;> omega
  unfold Java.receive
  rw [receiveWith_eq h.wellFormed (by decide) (numberOf_u2 start k)]
  rcases Nat.lt_trichotomy k base with hlt | heq | hgt
  · -- behind the window: a duplicate of an accepted datagram
    rw [if_pos (by omega)]
    refine ⟨by simpa using h.before k hlt, base, h.seqNum, h.before, h.missing, h.marked⟩
  · subst heq
    rw [if_neg (by omega), if_pos (by omega)]
    exact ⟨by simpa using h.missing, by simpa using h.slide⟩
  · have hoff' : offset w (numberOf start k) = k - base + 1 := by omega
    have hbit : (offset w (numberOf start k) % 32).toNat = k - base + 1 := by omega
    have hmarked := h.marked (k - base)
    rw [show base + (k - base) = k by omega] at hmarked
    rw [if_neg (by omega), if_neg (by omega), hbit]
    by_cases hmem : k ∈ accepted
    · rw [if_pos (hmarked.mpr hmem)]
      exact ⟨by simpa using hmem, base, h⟩
    · rw [if_neg (fun hset => hmem (hmarked.mp hset))]
      exact ⟨by simpa using hmem, base, by simpa using h.mark hgt hle⟩

/-- Ack headers written by a window that describes the accepted datagrams are true. -/
theorem BaseInv.trueAck (h : BaseInv start w accepted base) {stamp : ℕ} (hle : base ≤ stamp)
    (hstamp : stamp ≤ base + 31) (payloadLen idealMax : ℤ) :
    TrueAck start accepted
      { fields := (Java.setAckHeaders w payloadLen idealMax).1, stamp := stamp } := by
  unfold Java.setAckHeaders TrueAck
  split
  · split
    · intro _
      refine ⟨base, hle, hstamp, h.seqNum, h.before, ?_⟩
      rintro bytes d hmore hbit
      obtain rfl := Option.some.inj hmore
      exact (h.marked d).mp (getLsbD_of_ackMoreBit_toAckMore hbit)
    · intro _
      exact ⟨base, hle, hstamp, h.seqNum, h.before, by simp⟩
  · simp

theorem setAckHeaders_window (w : ReceiveWindow) (payloadLen idealMax : ℤ) :
    (Java.setAckHeaders w payloadLen idealMax).2.seqNum = w.seqNum ∧
      (Java.setAckHeaders w payloadLen idealMax).2.seqMore = w.seqMore := by
  unfold Java.setAckHeaders
  split
  · split <;> exact ⟨rfl, rfl⟩
  · exact ⟨rfl, rfl⟩

end Receiver

/-! ### The sender -/

theorem SendWindow.curSeqNum_eq {α : Type*} (w : SendWindow α) :
    w.curSeqNum = (w.seqNum.toNat : ℤ) % 65536 := by
  unfold SendWindow.curSeqNum
  rw [BitVec.toNat_and, show (0xffff#32).toNat = 2 ^ 16 - 1 by rfl, Nat.and_two_pow_sub_one_eq_mod]
  omega

/-- The counter steps to the next number modulo `2 ^ 16`, also where it overflows. -/
theorem SendWindow.curSeqNum_succ {α : Type*} (w w' : SendWindow α)
    (h : w'.seqNum = w.seqNum + 1) : w'.curSeqNum = (w.curSeqNum + 1) % 65536 := by
  rw [w'.curSeqNum_eq, w.curSeqNum_eq, h, BitVec.toNat_add]
  have : BitVec.toNat (1 : BitVec 32) = 1 := rfl
  omega

section Sender

variable {start : ℤ} {s : Session} {head : ℕ}

theorem QueueInv.length_eq (h : QueueInv start s head) :
    s.sendWindow.packets.length = s.sent - head := by
  rw [← List.length_map Packet.payload, h.payloads, List.length_range']

/-- The queue spans at most 31 datagrams. -/
theorem QueueInv.sent_le (h : QueueInv start s head) : s.sent ≤ head + 31 := by
  have := h.length_eq
  have := h.length_le
  have := h.sendSize_le
  omega

theorem QueueInv.mem_payload (h : QueueInv start s head) {p : Packet ℕ}
    (hp : p ∈ s.sendWindow.packets) : head ≤ p.payload ∧ p.payload < s.sent := by
  have hmem : p.payload ∈ s.sendWindow.packets.map Packet.payload := List.mem_map_of_mem hp
  rw [h.payloads, List.mem_range'_1] at hmem
  have := h.head_le
  omega

/-- A queued datagram that a true ack header acknowledges was accepted, if the header is
not too late. -/
theorem QueueInv.accepted_of_isAcked (h : QueueInv start s head) {a : AckMsg}
    (ha : TrueAck start s.accepted a) (hstamp : a.stamp ≤ s.sent)
    (hlate : s.sent ≤ a.stamp + maxLate) {k : ℕ} (hhead : head ≤ k) (hsent : k < s.sent)
    (hack : 0 ≤ a.fields.ack)
    (hacked : SendWindow.isAcked ((a.fields.ack + 1) % 65536)
      (((a.fields.ack + 1) % 65536 + 10000) % 65536) a.fields (numberOf start k) = true) :
    k ∈ s.accepted := by
  obtain ⟨base, hle, hstamp', hseq, hbefore, hmore⟩ := ha hack
  have hspan := h.sent_le
  have hmaxLate : maxLate = 9000 := rfl
  rw [SendWindow.isAcked_iff (numberOf_u2 start k), hseq] at hacked
  rcases Nat.lt_or_ge k base with hlt | hge
  · exact hbefore k hlt
  -- the datagram is at most 9031 after `base`, so only `ackMore` can acknowledge it
  unfold numberOf at hacked
  rcases hacked with hout | ⟨bytes, hbytes, hbit⟩
  · omega
  · rw [show (((start + k) % 65536 - (start + base - 1) % 65536) % 65536).toNat =
      k - base + 1 by omega] at hbit
    have := hmore bytes (k - base) hbytes hbit
    rwa [show base + (k - base) = k by omega] at this

/-- The send step. -/
theorem QueueInv.send (h : QueueInv start s head) {p : Packet ℕ} {w : SendWindow ℕ}
    (hsend : s.sendWindow.send s.sent = some (p, w)) (ds : List Datagram) :
    (toMsg p).payload = s.sent ∧ (toMsg p).seqNum = numberOf start s.sent ∧
      QueueInv start { s with sendWindow := w, sent := s.sent + 1, datagrams := ds } head := by
  unfold SendWindow.send at hsend
  split at hsend
  · simp at hsend
  rename_i hroom
  obtain ⟨rfl, rfl⟩ := Prod.mk.inj (Option.some.inj hsend)
  have hsize := h.size
  have hhead := h.head_le
  have hnum := h.counter
  simp only [SendWindow.full, ge_iff_le, decide_eq_true_eq, not_le] at hroom
  refine ⟨rfl, hnum, ⟨?_, ?_, h.sendSize_le, ?_, ?_, by simp only; omega, ?_, h.gone_accepted,
    ?_⟩⟩
  · simpa using hsize
  · simp only [List.length_append, List.length_singleton]
    omega
  · rw [SendWindow.curSeqNum_succ s.sendWindow _ rfl, hnum]
    unfold numberOf
    push_cast
    omega
  · rw [show s.sent + 1 - head = s.sent - head + 1 by omega, List.range'_1_concat, List.map_append,
      h.payloads, List.map_singleton, show head + (s.sent - head) = s.sent by omega]
  · intro q hq
    rcases List.mem_append.mp hq with hq | hq
    · exact h.numbered q hq
    · obtain rfl := List.mem_singleton.mp hq
      exact hnum
  · intro q hq hacked
    rcases List.mem_append.mp hq with hq | hq
    · exact h.acked_accepted q hq hacked
    · obtain rfl := List.mem_singleton.mp hq
      exact Bool.noConfusion hacked

/-- The ack step: what leaves the queue or is flagged was accepted. -/
theorem QueueInv.checkAck (h : QueueInv start s head) {a : AckMsg}
    (ha : TrueAck start s.accepted a) (hstamp : a.stamp ≤ s.sent)
    (hlate : s.sent ≤ a.stamp + maxLate) : ∃ head', QueueInv start (s.checkAck a) head' := by
  obtain ⟨gone, stay, acks, hsplit, hrun, hgone, hacks⟩ :=
    SendWindow.checkAckHeaders_spec s.sendWindow a.fields
  have hlen := h.length_eq
  rw [hsplit, List.length_append] at hlen
  have hhead := h.head_le
  -- a packet that is flagged after the loop was flagged or is acknowledged by the header
  have hmark : ∀ p ∈ s.sendWindow.packets, (SendWindow.mark acks p).acked = true →
      p.payload ∈ s.accepted := by
    intro p hp hacked
    rw [SendWindow.mark_acked, Bool.or_eq_true] at hacked
    rcases hacked with hflag | hack
    · exact h.acked_accepted p hp hflag
    · obtain ⟨hpos, hacked⟩ := hacks _ hack
      obtain ⟨hge, hlt⟩ := h.mem_payload hp
      rw [h.numbered p hp] at hacked
      exact h.accepted_of_isAcked ha hstamp hlate hge hlt hpos hacked
  have hpayloads := h.payloads
  rw [hsplit, List.map_append] at hpayloads
  have hstay : stay.map Packet.payload =
      List.range' (head + gone.length) (s.sent - (head + gone.length)) := by
    have hdrop := congrArg (List.drop gone.length) hpayloads
    rw [List.drop_left' (by simp), List.drop_range'] at hdrop
    rw [hdrop, Nat.mul_one, Nat.sub_sub]
  refine ⟨head + gone.length, ?_⟩
  unfold Session.checkAck
  rw [hrun]
  refine ⟨?_, ?_, h.sendSize_le, h.counter, ?_, by simp only; omega, ?_, ?_, ?_⟩
  · have hsize := h.size
    rw [hsplit, List.length_append] at hsize
    simp only [List.length_map]
    omega
  · have hle := h.length_le
    rw [hsplit, List.length_append] at hle
    simp only [List.length_map]
    omega
  · have hcomp : Packet.payload ∘ SendWindow.mark acks = (Packet.payload : Packet ℕ → ℕ) := by
      funext p
      exact SendWindow.mark_payload acks p
    simp only [List.map_map, hcomp]
    exact hstay
  · intro p hp
    obtain ⟨q, hq, rfl⟩ := List.mem_map.mp hp
    simpa using h.numbered q (by rw [hsplit]; exact List.mem_append_right _ hq)
  · intro k hk
    rcases Nat.lt_or_ge k head with hlt | hge
    · exact h.gone_accepted k hlt
    -- between the old head and the new one lie the packets that left
    have hmem : k ∈ gone.map Packet.payload ++ stay.map Packet.payload := by
      rw [hpayloads, List.mem_range'_1]
      omega
    rcases List.mem_append.mp hmem with hmem | hmem
    · obtain ⟨p, hp, rfl⟩ := List.mem_map.mp hmem
      exact hmark p (by rw [hsplit]; exact List.mem_append_left _ hp) (hgone p hp)
    · rw [hstay, List.mem_range'_1] at hmem
      omega
  · intro p hp hacked
    obtain ⟨q, hq, rfl⟩ := List.mem_map.mp hp
    rw [SendWindow.mark_payload]
    exact hmark q (by rw [hsplit]; exact List.mem_append_right _ hq) hacked

end Sender

/-! ### Every reachable state -/

section Steps

variable {start : ℤ} {s : Session}

theorem TrueAck.mono {accepted accepted' : List ℕ} {a : AckMsg} (h : TrueAck start accepted a)
    (hsub : accepted ⊆ accepted') : TrueAck start accepted' a := by
  intro hack
  obtain ⟨base, hle, hstamp, hseq, hbefore, hmore⟩ := h hack
  exact ⟨base, hle, hstamp, hseq, fun k hk => hsub (hbefore k hk),
    fun bytes d hbytes hbit => hsub (hmore bytes d hbytes hbit)⟩

/-- The queue's invariant speaks of the receiver only through the accepted datagrams. -/
theorem QueueInv.mono {head : ℕ} {t : Session} (h : QueueInv start s head)
    (hwindow : t.sendWindow = s.sendWindow) (hsent : t.sent = s.sent)
    (hsub : s.accepted ⊆ t.accepted) : QueueInv start t head := by
  obtain ⟨sendWindow, receiveWindow, sent, datagrams, acks, accepted⟩ := t
  obtain rfl : sendWindow = s.sendWindow := hwindow
  obtain rfl : sent = s.sent := hsent
  exact ⟨h.size, h.length_le, h.sendSize_le, h.counter, h.payloads, h.head_le, h.numbered,
    fun k hk => hsub (h.gone_accepted k hk), fun p hp hacked => hsub (h.acked_accepted p hp hacked)⟩

/-- The first datagram not accepted lies in the sender's queue or is the next one sent. -/
theorem SessionInv.base_bounds (h : SessionInv start s) {base : ℕ}
    (hbase : BaseInv start s.receiveWindow s.accepted base) :
    base ≤ s.sent ∧ s.sent ≤ base + 31 := by
  obtain ⟨head, hqueue⟩ := h.queue
  have hspan := hqueue.sent_le
  have hhead : head ≤ base := by
    by_contra hlt
    exact hbase.missing (hqueue.gone_accepted base (by omega))
  have hsent : base ≤ s.sent := by
    by_contra hlt
    exact absurd (h.accepted_lt s.sent (hbase.before s.sent (by omega))) (lt_irrefl _)
  omega

theorem SessionInv.receive (h : SessionInv start s) {d : Datagram} (hd : d ∈ s.datagrams)
    (hlate : s.sent - (d.payload + 1) ≤ maxLate) : SessionInv start (s.receive d) := by
  obtain ⟨hlt, hnum⟩ := h.numbered d hd
  obtain ⟨base, hbase⟩ := h.base
  obtain ⟨hle, hspan⟩ := h.base_bounds hbase
  obtain ⟨hres, hbase'⟩ := hbase.receive (show base ≤ d.payload + 1 + maxLate by omega)
    (show d.payload < base + 31 by omega)
  rw [← hnum] at hres hbase'
  have hsub : s.accepted ⊆ (s.receive d).accepted := by
    intro k hk
    simp only [Session.receive]
    split
    · exact List.mem_cons_of_mem _ hk
    · exact hk
  obtain ⟨head, hqueue⟩ := h.queue
  refine ⟨⟨head, hqueue.mono rfl rfl hsub⟩, hbase', ?_, ?_, ?_, ?_⟩
  · simp only [Session.receive]
    split
    · rename_i hnew
      exact List.nodup_cons.mpr ⟨hres.mp hnew, h.nodup⟩
    · exact h.nodup
  · intro k hk
    simp only [Session.receive] at hk ⊢
    split at hk
    · rcases List.mem_cons.mp hk with rfl | hk
      · exact hlt
      · exact h.accepted_lt k hk
    · exact h.accepted_lt k hk
  · exact fun e he => h.numbered e (List.mem_of_mem_erase he)
  · intro a ha
    obtain ⟨hstamp, htrue⟩ := h.true_acks a ha
    exact ⟨hstamp, htrue.mono hsub⟩

theorem SessionInv.ack (h : SessionInv start s) (payloadLen idealMax : ℤ) :
    SessionInv start (s.ack payloadLen idealMax) := by
  obtain ⟨base, hbase⟩ := h.base
  obtain ⟨hle, hspan⟩ := h.base_bounds hbase
  obtain ⟨hseq, hmore⟩ := setAckHeaders_window s.receiveWindow payloadLen idealMax
  obtain ⟨head, hqueue⟩ := h.queue
  refine ⟨⟨head, hqueue.mono rfl rfl (List.Subset.refl _)⟩, ⟨base, ?_⟩, h.nodup, h.accepted_lt,
    h.numbered, ?_⟩
  · refine ⟨?_, hbase.before, hbase.missing, ?_⟩
    · simp only [Session.ack, hseq]
      exact hbase.seqNum
    · simp only [Session.ack, hmore]
      exact hbase.marked
  · intro a ha
    rcases List.mem_cons.mp ha with rfl | ha
    · exact ⟨le_refl _, hbase.trueAck hle hspan payloadLen idealMax⟩
    · exact h.true_acks a ha

theorem SessionInv.send (h : SessionInv start s) {p : Packet ℕ} {w : SendWindow ℕ}
    (hsend : s.sendWindow.send s.sent = some (p, w)) :
    SessionInv start { s with sendWindow := w, sent := s.sent + 1,
                              datagrams := toMsg p :: s.datagrams } := by
  obtain ⟨head, hqueue⟩ := h.queue
  obtain ⟨hpayload, hnum, hqueue'⟩ := hqueue.send hsend (toMsg p :: s.datagrams)
  refine ⟨⟨head, hqueue'⟩, h.base, h.nodup, ?_, ?_, ?_⟩
  · exact fun k hk => Nat.lt_succ_of_lt (h.accepted_lt k hk)
  · intro d hd
    rcases List.mem_cons.mp hd with rfl | hd
    · exact ⟨by simp only; omega, by rw [hnum, hpayload]⟩
    · obtain ⟨hlt, hd⟩ := h.numbered d hd
      exact ⟨Nat.lt_succ_of_lt hlt, hd⟩
  · intro a ha
    obtain ⟨hstamp, htrue⟩ := h.true_acks a ha
    exact ⟨Nat.le_succ_of_le hstamp, htrue⟩

/-- Copies that the network or a retry puts in flight carry a queued or earlier number. -/
theorem SessionInv.withDatagrams (h : SessionInv start s) {ds : List Datagram}
    (hds : ∀ d ∈ ds, d.payload < s.sent ∧ d.seqNum = numberOf start d.payload) :
    SessionInv start { s with datagrams := ds } := by
  obtain ⟨head, hqueue⟩ := h.queue
  exact ⟨⟨head, hqueue.mono rfl rfl (List.Subset.refl _)⟩, h.base, h.nodup, h.accepted_lt, hds,
    h.true_acks⟩

theorem SessionInv.withAcks (h : SessionInv start s) {acks : List AckMsg}
    (hacks : acks ⊆ s.acks) : SessionInv start { s with acks := acks } := by
  obtain ⟨head, hqueue⟩ := h.queue
  exact ⟨⟨head, hqueue.mono rfl rfl (List.Subset.refl _)⟩, h.base, h.nodup, h.accepted_lt,
    h.numbered, fun a ha => h.true_acks a (hacks ha)⟩

theorem SessionInv.checkAck (h : SessionInv start s) {a : AckMsg} (ha : a ∈ s.acks)
    (hlate : s.sent - a.stamp ≤ maxLate) : SessionInv start (s.checkAck a) := by
  obtain ⟨hstamp, htrue⟩ := h.true_acks a ha
  obtain ⟨head, hqueue⟩ := h.queue
  exact ⟨hqueue.checkAck htrue hstamp (by omega), h.base, h.nodup, h.accepted_lt, h.numbered,
    fun b hb => h.true_acks b (List.mem_of_mem_erase hb)⟩

/-- The step lemma. -/
theorem SessionInv.step (h : SessionInv start s) {e : Event} {t : Session}
    (hstep : s.next e = some t) : SessionInv start t := by
  cases e with
  | send =>
      obtain ⟨⟨p, w⟩, hsend, rfl⟩ := Option.map_eq_some_iff.mp hstep
      exact h.send hsend
  | retry p =>
      obtain ⟨hp, ⟨⟩⟩ := Option.ite_none_right_eq_some.mp hstep
      obtain ⟨head, hqueue⟩ := h.queue
      have hmem := List.mem_of_mem_filter hp
      exact h.withDatagrams (List.forall_mem_cons.mpr
        ⟨⟨(hqueue.mem_payload hmem).2, hqueue.numbered p hmem⟩, h.numbered⟩)
  | dropDatagram d =>
      obtain rfl := Option.some.inj hstep
      exact h.withDatagrams fun e he => h.numbered e (List.mem_of_mem_erase he)
  | duplicateDatagram d =>
      obtain ⟨hd, ⟨⟩⟩ := Option.ite_none_right_eq_some.mp hstep
      exact h.withDatagrams (List.forall_mem_cons.mpr ⟨h.numbered d hd, h.numbered⟩)
  | receive d =>
      obtain ⟨⟨hd, hlate⟩, ⟨⟩⟩ := Option.ite_none_right_eq_some.mp hstep
      exact h.receive hd hlate
  | ack payloadLen idealMax =>
      obtain rfl := Option.some.inj hstep
      exact h.ack payloadLen idealMax
  | dropAck a =>
      obtain rfl := Option.some.inj hstep
      exact h.withAcks List.erase_subset
  | duplicateAck a =>
      obtain ⟨ha, ⟨⟩⟩ := Option.ite_none_right_eq_some.mp hstep
      exact h.withAcks (List.cons_subset.mpr ⟨ha, List.Subset.refl _⟩)
  | checkAck a =>
      obtain ⟨⟨ha, hlate⟩, ⟨⟩⟩ := Option.ite_none_right_eq_some.mp hstep
      exact h.checkAck ha hlate

/-- A session that opens satisfies the invariant from its own starting number. -/
theorem Session.Opens.inv (h : s.Opens) : SessionInv s.sendWindow.curSeqNum s := by
  obtain ⟨hpackets, hsize, hsendSize, hinit, hsent, hdatagrams, hacks, haccepted⟩ := h
  have hmax : Java.max = 31 := rfl
  have hcur := s.sendWindow.curSeqNum_eq
  simp only [Java.init, Java.fresh, ge_iff_le, Int.reduceNeg, Int.reduceLE, if_false,
    Option.some.injEq] at hinit
  refine ⟨⟨0, ?_⟩, ⟨0, ?_⟩, ?_, ?_, ?_, ?_⟩
  · refine ⟨by simp [hpackets, hsize], by simp [hpackets], by omega, ?_, ?_, by omega, ?_, ?_, ?_⟩
    · unfold numberOf
      omega
    · simp [hpackets, hsent]
    · simp [hpackets]
    · exact fun k hk => absurd hk (Nat.not_lt_zero k)
    · simp [hpackets]
  · refine ⟨?_, fun k hk => absurd hk (Nat.not_lt_zero k), by simp [haccepted], ?_⟩
    · rw [← hinit]
      simp
    · intro d
      have hbit := Bitmap.getLsbD_one_shiftLeft (show 0 < 32 by omega) (d + 1)
      rw [BitVec.shiftLeft_zero] at hbit
      rw [← hinit, haccepted, hbit]
      simp
  · simp [haccepted]
  · simp [haccepted]
  · simp [hdatagrams]
  · simp [hacks]

/-- The invariant, for the number the run started at. -/
def SomeSessionInv (s : Session) : Prop := ∃ start, SessionInv start s

/-- Every reachable state satisfies the invariant. -/
theorem deliverySystem_inv {s : Session} (h : deliverySystem.Reachable s) : SomeSessionInv s := by
  refine h.invariant ?_ ?_
  · exact fun s hs => ⟨_, hs.inv⟩
  · rintro s e t ⟨start, hinv⟩ hstep
    exact ⟨start, hinv.step hstep⟩

end Steps

/-! ### Exactly once -/

/-- **Exactly-once delivery.** Whatever the network does, no datagram is accepted twice, and
every datagram sent that the sender does not hold as unacknowledged was accepted. -/
theorem exactly_once (s : Session) (h : deliverySystem.Reachable s) :
    s.accepted.Nodup ∧ (∀ k ∈ s.accepted, k < s.sent) ∧
      ∀ k < s.sent, (∀ p ∈ s.sendWindow.packets, p.payload = k → p.acked = true) →
        k ∈ s.accepted := by
  obtain ⟨start, hinv⟩ := deliverySystem_inv h
  obtain ⟨head, hqueue⟩ := hinv.queue
  refine ⟨hinv.nodup, hinv.accepted_lt, ?_⟩
  intro k hk hacked
  rcases Nat.lt_or_ge k head with hlt | hge
  · exact hqueue.gone_accepted k hlt
  -- the datagram is still queued, and flagged
  have hmem : k ∈ s.sendWindow.packets.map Packet.payload := by
    rw [hqueue.payloads, List.mem_range'_1]
    omega
  obtain ⟨p, hp, rfl⟩ := List.mem_map.mp hmem
  exact hqueue.acked_accepted p hp (hacked p hp rfl)

/-- A session whose sender starts at 65534 with room for four packets. -/
def sessionAt65534 : Session :=
  { sendWindow := { seqNum := 65534#32, sendSize := 4 },
    receiveWindow := { seqNum := 65533, seqMore := 0x1#32, acked := false } }

/-- Three datagrams numbered 65534, 65535 and 0 are sent; the second arrives twice, before
the first, and the receiver's ack header reaches the sender. -/
def reordering : List Event :=
  let second : Datagram := { seqNum := 65535, payload := 1 }
  [.send, .send, .send, .duplicateDatagram second, .receive second, .receive second, .ack 0 512,
    .checkAck { fields := { ack := 65533, ackMore := some [0x5#8] }, stamp := 3 }]

theorem reordering_runs : (run Session.next sessionAt65534 reordering).isSome := by
  decide

/-- The second datagram is accepted once and flagged, while the first stays queued. -/
theorem exactly_once_reordered :
    ∃ s, run Session.next sessionAt65534 reordering = some s ∧ s.accepted = [1] ∧
      s.sendWindow.packets.map (fun p => (p.seqNum, p.acked)) =
        [(65534, false), (65535, true), (0, false)] ∧
      s.accepted.Nodup ∧ (∀ k ∈ s.accepted, k < s.sent) ∧ 1 ∈ s.accepted := by
  have hopens : sessionAt65534.Opens := ⟨rfl, rfl, by decide, by decide, rfl, rfl, rfl, rfl⟩
  have hrun := (Option.some_get reordering_runs).symm
  obtain ⟨hnodup, hlt, hreported⟩ :=
    exactly_once _ ((System.Reachable.start hopens).of_run hrun)
  exact ⟨_, hrun, by decide, by decide, hnodup, hlt, hreported 1 (by decide) (by decide)⟩

end Sedona.Dasp
