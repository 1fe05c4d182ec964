import Sedona.Sox.SlotReuse

/-!
# Isolation of the Sessions of a Slot

A slot of the device is opened in two states that differ only in what its last session has left
there. From then on both states do the same, as long as nothing of that shows: `SoxSession.reset`
leaves the subscription to all tree events in place, the reply to a DISCOVER has the id that the
last client had, and the answer to a request for all tree events has a number that nobody has
written.

## Main results

* `blind_program`: one step of two devices that agree on the slot.
* `slot_isolation`: whole runs, from the message that opens the slot.
* `not_slot_isolation`: a session gets the events that the last one has subscribed to.
-/

namespace Sedona.Sox.Slots

open Function OutStream BufInStream

variable {P : Platform} {i j : Fin watchMax} {v : View}

/-! ### Messages -/

/-- Whether a message is a datagram that the session of the slot accepts. -/
structure Accepts (i : Fin watchMax) (sessionId seqNum msgType : ℤ) (closed : Bool)
    (rand : BitVec 8) (w : Dasp.ReceiveWindow) : Prop where
  datagram : msgType = 6
  id : (watchId i rand).toNat = sessionId
  live : closed = false
  accepted : (Dasp.Device.receive w seqNum).1 = true

/-- The request in a datagram: its command, its reply number and what follows. -/
def requestOf (numFields : ℕ) (input : BufInStream) : (ℤ × ℤ) × BufInStream :=
  (readPair read read).run ((Dasp.DeviceSendWindow.parseAckHeaders numFields {}).run input).2

/-- What is left in the packet that a datagram is answered with does not show, once the ack headers
are processed. -/
def Unseen (numFields : ℕ) (input : BufInStream) (x y : SendWindow) : Prop :=
  AsksAllTree (requestOf numFields input).1.1 (requestOf numFields input).2 →
    SameAnswer (x.acknowledge input numFields) (y.acknowledge input numFields)

/-- The view before the session of a datagram is known, with `F` for the datagram being accepted
by the slot. -/
def View.before (i : Fin watchMax) (F : Prop) (sessionId seqNum : ℤ) (numFields : ℕ)
    (msgType : ℤ) (input : BufInStream) : View where
  window x y := F → Unseen numFields input x y
  seen closed rand w := Accepts i sessionId seqNum msgType closed rand w → F

/-- The view once the session `j` of a datagram is known. -/
def View.found (i j : Fin watchMax) (F : Prop) (seqNum : ℤ) (numFields : ℕ) (msgType : ℤ)
    (input : BufInStream) : View where
  live := some j
  window x y := F → Unseen numFields input x y
  seen _ _ w := j = i → msgType = 6 → (Dasp.Device.receive w seqNum).1 = true → F

/-- What is known of the session is forgotten. -/
theorem Agree.unaware {d e : Device P} (h : Agree i v d e)
    (hstage : v.stage = fun _ => 3 := by rfl) (hhand : v.hand = fun _ _ => none := by rfl)
    (hactive : v.active = none := by rfl) (hclosing : v.closing = false := by rfl) :
    Agree i {} d e := by
  obtain ⟨stage, live, hand, active, closing, window, seen⟩ := v
  subst hstage hhand hactive hclosing
  exact h.weaken fun _ _ hst => { hst with
    live := fun hc => nomatch hc
    window := trivial
    seen := trivial }

/-- What is known once the session is found. -/
theorem Agree.found {F : Prop} {sessionId seqNum msgType : ℤ} {numFields : ℕ} {input : BufInStream}
    {d e : Device P} (h : Agree i (.before i F sessionId seqNum numFields msgType input) d e)
    (hid : (watchId j (d.sessions j).rand).toNat = sessionId)
    (hlive : (d.sessions j).closed = false) :
    Agree i (.found i j F seqNum numFields msgType input) d e := by
  refine ⟨h.shared, h.others, { h.slot with live := fun hj => ?_, seen := fun hj htype hacc => ?_ }⟩
  · exact Option.some.inj hj ▸ hlive
  · subst hj
    exact h.slot.seen ⟨htype, hid, hlive, hacc⟩

/-- A field is read, and what is known stays known. -/
theorem blind_field_and {α : Type} {R : Device P → Device P → Prop} {f : SoxSession P → α}
    (hR : ∀ d e, R d e → Agree i v d e) (h : j = i → ∀ s t, SlotAlike v i s t → f s = f t) :
    Blind R (field j f) fun a d e => R d e ∧ f (d.sessions j) = a := by
  refine Blind.post (Blind.read (f := fun d : Device P => f (d.sessions j)) fun d e hde => ?_)
    fun _ _ _ h => ⟨h.1, h.2.1⟩
  by_cases hj : j = i
  · subst hj
    exact h rfl _ _ (hR d e hde).slot
  · rw [(hR d e hde).others hj]

/-- The session of a message is looked up. -/
theorem blind_session {F : Prop} {sessionId seqNum msgType : ℤ} {numFields : ℕ} {input : BufInStream} :
    Blind (Agree (P := P) i (.before i F sessionId seqNum numFields msgType input)) (session sessionId) fun
      | none => Agree i {}
      | some j => Agree i (.found i j F seqNum numFields msgType input) := by
  unfold session
  split
  case isFalse => exact .pure fun _ _ h => h.unaware
  case isTrue hlt =>
    generalize (⟨(sessionId % 256).toNat, hlt⟩ : Fin watchMax) = j
    refine .bind (blind_field fun _ _ _ h => h.rand) fun rand => ?_
    refine .bind (blind_field_and (fun _ _ h => h.1) fun _ _ _ h => h.closed) fun closed => ?_
    refine .ite (fun hfound => ?_) fun _ => .pure fun _ _ h => h.1.1.unaware
    refine Blind.pre (R := Agree i (.found i j F seqNum numFields msgType input)) ?_ fun d e h => ?_
    · exact .bind keeps_ticks fun _ =>
        .bind (keeps_assign fun _ s t h => { h with lastReceiveTicks := rfl }) fun _ =>
          .pure fun _ _ h => h
    · obtain ⟨⟨hde, hrand, -⟩, hclosed⟩ := h
      refine hde.found (hrand ▸ hfound.1) ?_
      simpa only [hclosed, Bool.not_eq_true', Bool.not_eq_eq_eq_not, Bool.not_true] using hfound.2

/-! ### Datagrams -/

theorem free_age (acked : ℤ → Bool) (p : Dasp.SendPacket) :
    (Dasp.DeviceSendWindow.free acked p).age = if acked p.seqNum.toNat then 0 else p.age := by
  unfold Dasp.DeviceSendWindow.free
  by_cases hage : p.age = 0#8
  · rw [if_neg fun hc => hc.1 hage, hage]
    exact (ite_self _).symm
  · by_cases hacked : acked p.seqNum.toNat
    · rw [if_pos ⟨hage, hacked⟩, if_pos hacked]
      rfl
    · rw [if_neg fun hc => hacked hc.2, if_neg hacked]

/-- A packet that is in use still is not acknowledged. -/
theorem free_of_age {acked : ℤ → Bool} {p : Dasp.SendPacket}
    (h : (Dasp.DeviceSendWindow.free acked p).age ≠ 0) :
    Dasp.DeviceSendWindow.free acked p = p := by
  unfold Dasp.DeviceSendWindow.free at h ⊢
  by_cases hfree : p.age ≠ 0#8 ∧ acked p.seqNum.toNat
  · rw [if_pos hfree] at h
    exact absurd rfl h
  · rw [if_neg hfree]

/-- The packets that are acknowledged are freed in both states. -/
theorem SendPacket.Alike.free {p q : SendPacket} (h : p.Alike q) (acked : ℤ → Bool) :
    SendPacket.Alike
      { p with toSendPacket := Dasp.DeviceSendWindow.free acked p.toSendPacket }
      { q with toSendPacket := Dasp.DeviceSendWindow.free acked q.toSendPacket } := by
  have hages : (Dasp.DeviceSendWindow.free acked p.toSendPacket).age =
      (Dasp.DeviceSendWindow.free acked q.toSendPacket).age := by
    rw [free_age, free_age, ← h.age]
    by_cases hage : p.age = 0
    · rw [hage, ite_self, ite_self]
    · rw [h.seqNum hage]
  by_cases hused : (Dasp.DeviceSendWindow.free acked p.toSendPacket).age = 0
  · exact ⟨hages, fun hc => absurd hused hc, fun hc => absurd hused hc, fun hc => absurd hused hc,
      fun hc => absurd hused hc, fun hc => absurd hused hc, fun hc => absurd hused hc⟩
  · rw [free_of_age hused, free_of_age (hages ▸ hused)]
    exact h

/-- As many packets are freed in one state as in the other. -/
theorem countP_acked {x y : SendWindow} (h : ∀ k, (x.packets k).Alike (y.packets k))
    (acked : ℤ → Bool) (ks : List (Fin sendMax)) :
    ks.countP (fun k => (x.packets k).age ≠ 0 ∧ acked (x.packets k).seqNum.toNat) =
      ks.countP fun k => (y.packets k).age ≠ 0 ∧ acked (y.packets k).seqNum.toNat := by
  refine List.countP_congr fun k _ => ?_
  rw [← (h k).age]
  by_cases hage : (x.packets k).age = 0
  · simp [hage]
  · rw [(h k).seqNum hage]

/-- The view once the headers of a datagram are processed. -/
def View.acknowledged (i j : Fin watchMax) (F : Prop) (seqNum msgType cmd : ℤ)
    (input : BufInStream) : View where
  live := some j
  window x y := j = i → F → AsksAllTree cmd input → SameAnswer x y
  seen _ _ w := j = i → msgType = 6 → (Dasp.Device.receive w seqNum).1 = true → F

/-- The ack headers of a datagram are processed. -/
theorem blind_acknowledge {F : Prop} {seqNum msgType : ℤ} {numFields : ℕ} {input : BufInStream} :
    Blind (Agree (P := P) i (.found i j F seqNum numFields msgType input))
      (assign j fun s => { s with sendWindow := s.sendWindow.acknowledge input numFields })
      fun _ => Agree i (.acknowledged i j F seqNum msgType
        (requestOf numFields input).1.1 (requestOf numFields input).2) := by
  refine blind_assign (fun hj s t h => ?_) fun hj s t h => ?_
  · have hfreed := fun k => SendPacket.Alike.free (h.packets k)
      (Dasp.DeviceSendWindow.acks input numFields)
    refine { h with
      numUnacked := ?_
      packets := hfreed
      transfer := ?_
      window := fun _ hF => h.window hF }
    · simp only [SendWindow.acknowledge, h.numUnacked, countP_acked h.packets]
    · rcases h.transfer with heq | ⟨hactive, hs, ht, hall⟩
      · exact Or.inl heq
      · refine Or.inr ⟨hactive, hs, ht, fun k hcmd hage => ?_⟩
        have hk := free_of_age hage
        simp only [SendWindow.acknowledge, hk] at hage ⊢
        exact hall k hcmd hage
  · exact { h with window := fun hc => absurd hc hj }

/-- The request of a datagram that is accepted is processed. -/
theorem Agree.ready {F : Prop} {seqNum msgType cmd : ℤ} {input : BufInStream} {d e : Device P}
    (h : Agree i (.acknowledged i j F seqNum msgType cmd input) d e) (htype : msgType = 6)
    (haccepted : (Dasp.Device.receive (d.sessions j).receiveWindow seqNum).1 = true) :
    Agree i { live := some j, window := Ready i j cmd input } d e := by
  refine ⟨h.shared, h.others, { h.slot with window := fun hj hasks => ?_, seen := trivial }⟩
  subst hj
  exact h.slot.window rfl (h.slot.seen rfl htype haccepted) hasks

/-- The receive window moves on. -/
theorem keeps_receive {seqNum : ℤ} (hseen : v.seen = fun _ _ _ => True) :
    Keeps (P := P) i v (assign j fun s =>
      { s with receiveWindow := (Dasp.Device.receive s.receiveWindow seqNum).2 }) := by
  refine keeps_assign fun _ s t h => { h with receiveWindow := fun h3 hc => ?_, seen := ?_ }
  · rw [h.receiveWindow h3 hc]
  · rw [hseen]
    trivial

/-- **A datagram of a session.** -/
theorem blind_dispatchDatagram {F : Prop} {seqNum msgType : ℤ} {numFields : ℕ}
    {input : BufInStream} :
    Blind (Agree (P := P) i (.found i j F seqNum numFields msgType input))
      (dispatchDatagram j seqNum numFields msgType input) fun _ => Agree i {} := by
  refine .bind blind_acknowledge fun _ => ?_
  refine .bind (keeps_field fun _ _ _ h => h.numUnacked) fun _ => .ite (fun htype => ?_) fun _ =>
    .pure fun _ _ h => h.unaware
  refine .bind (blind_field_and (fun _ _ h => h) fun hj s t h => ?_) fun accepted => ?_
  · subst hj
    rw [h.receiveWindow le_rfl (h.live rfl)]
  cases accepted with
  | true =>
      refine Blind.pre (R := Agree i { live := some j, window := Ready i j _ _ }) ?_
        fun d e h => h.1.ready htype.2 h.2
      exact .bind (keeps_receive rfl) fun _ =>
        (blind_answerReq _ _ _).post fun _ _ _ h => h.unaware
  | false =>
      refine Blind.pre (R := Agree i { live := some j }) ?_ fun d e h => ?_
      · exact .bind (keeps_receive rfl) fun _ => .pure fun _ _ h => h.unaware
      · exact h.1.weaken fun _ _ hst => { hst with window := trivial, seen := trivial }

/-! ### The switch -/

theorem keeps_lastReceiveTicks (now : ℤ) :
    Keeps (P := P) i v (assign j fun s => { s with lastReceiveTicks := now }) :=
  keeps_assign fun _ _ _ h => { h with lastReceiveTicks := rfl }

/-- A message of a session that is open. -/
theorem blind_handleMsg {F : Prop} {seqNum msgType : ℤ} {numFields : ℕ} {input : BufInStream}
    (hopens : ¬(msgType = 1 ∨ msgType = 0)) :
    Blind (Agree (P := P) i (.found i j F seqNum numFields msgType input))
      (handleMsg j seqNum numFields msgType input) fun _ => Agree i {} := by
  refine .bind keeps_ticks fun _ => .bind (keeps_lastReceiveTicks _) fun _ => ?_
  refine .ite (fun h => absurd (Or.inl h) hopens) fun _ => .ite (fun _ => ?_) fun _ => ?_
  · refine (blind_welcome _ _).pre fun d e h => h.weaken fun _ _ hst => ?_
    exact { hst with window := trivial, seen := trivial }
  refine .ite (fun _ => ?_) fun _ => .ite (fun h => absurd (Or.inr h) hopens) fun _ =>
    blind_dispatchDatagram
  exact (blind_closeSession (by decide) fun _ _ => le_rfl).pre fun _ _ h => h.unaware

theorem young_mono {m n : ℕ} (h : m ≤ n) (l : Fin watchMax) : young j m l ≤ young j n l := by
  unfold young
  split
  · exact h
  · exact le_rfl

theorem one_le_young {n : ℕ} (h : 1 ≤ n) (l : Fin watchMax) : 1 ≤ young j n l := by
  unfold young
  split
  · exact h
  · decide

/-- A session that is opened is not known to be open any more. -/
theorem Agree.younger {m n : ℕ} (hmn : m ≤ n) {d e : Device P}
    (h : Agree i { stage := young j n, live := some j } d e) :
    Agree i { stage := young j m } d e :=
  h.weaken fun _ _ hst => hst.weaken (young_mono hmn i) (fun hc => nomatch hc)
    (fun l => ⟨hst.packets l, id⟩) (fun hc => nomatch hc) id trivial (fun _ _ _ h => h)

/-- The receive window of a session that has been challenged is that of its first message. -/
theorem blind_init {seqNum : ℤ} : Blind (Agree (P := P) i { stage := young j 2 })
    (assign j fun s => { s with receiveWindow := Dasp.Device.init s.receiveWindow seqNum })
    fun _ => Agree i {} := by
  refine blind_assign (fun hj s t h => ?_) fun hj s t h => ?_
  · subst hj
    exact { h with
      remoteId := fun _ => h.remoteId (one_le_young (by decide) j)
      nonce := fun _ => h.nonce (if_pos rfl).ge
      receiveWindow := fun _ _ => rfl }
  · exact h.weaken (if_neg (Ne.symm hj)).ge (fun hc => nomatch hc) (fun l => ⟨h.packets l, id⟩)
      (fun hc => nomatch hc) id trivial (fun _ _ _ h => h)

/-- The message that opens a session. -/
theorem blind_handleOpening {n : ℕ} {seqNum msgType : ℤ} {numFields : ℕ} {input : BufInStream}
    (hopens : msgType = 1 ∨ msgType = 0 ∧ 1 ≤ n) :
    Blind (Agree (P := P) i { stage := young j n, live := some j })
      (handleMsg j seqNum numFields msgType input) fun _ => Agree i {} := by
  refine .bind keeps_ticks fun _ => .bind (keeps_lastReceiveTicks _) fun _ => ?_
  refine .ite (fun _ => ?_) fun h1 => ?_
  · refine .bind ?_ fun _ => blind_init
    exact (blind_challenge _ _).pre fun _ _ h => h.younger (Nat.zero_le n)
  · obtain ⟨rfl, hn⟩ := hopens.resolve_left h1
    refine .ite (fun h => absurd h (by decide)) fun _ => .ite (fun h => absurd h (by decide)) fun _ =>
      .ite (fun _ => ?_) fun h => absurd rfl h
    refine .bind (keeps_discoverResponse (one_le_young hn i)) fun _ => ?_
    refine (blind_closeSession (one_le_young le_rfl j) fun l hl => ?_).pre fun _ _ h => h.younger hn
    exact (if_neg hl).ge

/-! ### Steps -/

/-- The packet that the device reads once it has received some bytes. -/
def receivedPacket (sh : Shared P) (bs : Bytes) : ℕ → BitVec 8 := fun n =>
  bs.getD n (sh.out.getD n (sh.packet n))

/-- The message in a packet: the id of its session, its number, its type with the number of
fields, and what follows. -/
def messageOf (packet : ℕ → BitVec 8) (size : ℕ) : (ℤ × ℤ × ℤ) × BufInStream :=
  SoxService.parseHeader.run { bytes := packet, size }

/-- A message does not show what is left in the packets of the slot: if the slot accepts it as a
datagram, it does not ask for all tree events, or the packet for the answer has the same number in
both states. -/
def Discreet (i : Fin watchMax) (d e : Device P) (message : (ℤ × ℤ × ℤ) × BufInStream) : Prop :=
  let (sessionId, seqNum, typeAndFields) := message.1
  Accepts i sessionId seqNum (typeAndFields / 16 % 16) (d.sessions i).closed (d.sessions i).rand
    (d.sessions i).receiveWindow →
  Unseen (typeAndFields % 16).toNat message.2 (d.sessions i).sendWindow (e.sessions i).sendWindow

theorem blind_opening {addr : P.Addr} {sessionId seqNum typeAndFields : ℤ} {input : BufInStream}
    (hopens : typeAndFields / 16 % 16 = 1 ∨ typeAndFields / 16 % 16 = 0) :
    Blind (Agree (P := P) i {}) (dispatchMsg addr sessionId seqNum typeAndFields input)
      fun _ => Agree i {} := by
  refine .ite (fun _ => .bind (blind_openSession addr) fun found => ?_) fun h => absurd hopens h
  cases found with
  | none => exact keeps_pure _
  | some j => exact blind_handleOpening (hopens.imp_right fun h => ⟨h, le_rfl⟩)

theorem blind_known {F : Prop} {addr : P.Addr} {sessionId seqNum typeAndFields : ℤ}
    {input : BufInStream}
    (hopens : ¬(typeAndFields / 16 % 16 = 1 ∨ typeAndFields / 16 % 16 = 0)) :
    Blind (Agree (P := P) i (.before i F sessionId seqNum (typeAndFields % 16).toNat
        (typeAndFields / 16 % 16) input))
      (dispatchMsg addr sessionId seqNum typeAndFields input) fun _ => Agree i {} := by
  refine .ite (fun h => absurd h hopens) fun _ => .bind blind_session fun found => ?_
  cases found with
  | none => exact keeps_pure _
  | some j => exact blind_handleMsg hopens

/-- **A message is handled alike.** -/
theorem blind_dispatchMsg {addr : P.Addr} {sessionId seqNum typeAndFields : ℤ}
    {input : BufInStream} :
    Blind (fun d e : Device P => Agree i {} d e ∧
        Discreet i d e ((sessionId, seqNum, typeAndFields), input))
      (dispatchMsg addr sessionId seqNum typeAndFields input) fun _ => Agree i {} := by
  by_cases hopens : typeAndFields / 16 % 16 = 1 ∨ typeAndFields / 16 % 16 = 0
  · exact (blind_opening hopens).pre fun _ _ h => h.1
  · intro d e ⟨h, hdiscreet⟩
    refine blind_known (F := Accepts i sessionId seqNum (typeAndFields / 16 % 16)
      (d.sessions i).closed (d.sessions i).rand (d.sessions i).receiveWindow) hopens d e ?_
    exact ⟨h.shared, h.others, { h.slot with window := hdiscreet, seen := id }⟩

/-- The packet that the device has received is dispatched alike. -/
theorem blind_dispatch {addr : P.Addr} {size : ℕ} :
    Blind (fun d e : Device P => Agree i {} d e ∧
        Discreet i d e (messageOf d.shared.packet size)) (dispatch addr size)
      fun _ => Agree i {} := by
  refine .bind (Blind.read (f := fun d : Device P => d.shared.packet) fun d e h => ?_)
    fun packet => ?_
  · rw [h.1.shared]
  · refine blind_dispatchMsg.pre fun d e h => ⟨h.1.1, ?_⟩
    obtain ⟨⟨-, hdiscreet⟩, hpacket, -⟩ := h
    rw [hpacket] at hdiscreet
    exact hdiscreet

/-- The message of a step. -/
def StepDiscreet (i : Fin watchMax) (d e : Device P) : Step P → Prop
  | .work (some (_, bs)) => Discreet i d e (messageOf (receivedPacket d.shared bs) bs.length)
  | _ => True

theorem blind_receive {bs : Bytes} {size : ℕ} :
    Blind (fun d e : Device P => Agree i {} d e ∧
        Discreet i d e (messageOf (receivedPacket d.shared bs) size)) (receive bs)
      fun _ d e => Agree i {} d e ∧ Discreet i d e (messageOf d.shared.packet size) :=
  Blind.write (f := fun d : Device P => { d with
    shared := { d.shared with packet := receivedPacket d.shared bs, out := [] } }) fun d e h =>
      ⟨⟨by rw [h.1.shared], h.1.others, h.1.slot⟩, h.2⟩

/-- What the service does besides the packet it receives. -/
theorem keeps_restOfWork (received : Bool) : Keeps (P := P) i {} (do
    let _ ← houseKeeping
    let worked ← (List.finRange watchMax).foldlM checkFileTransfer false
    if worked then pure true
    else if received then pure true
    else
      let eventsPerSec ← shared fun sh => P.eventsPerSec sh.app
      let numEvents ← shared (·.numEventsThisPeriod.toNat)
      if numEvents < (if eventsPerSec < 4 then eventsPerSec else eventsPerSec / 4) then
        let fired ← checkForEvents
        if fired then
          assignShared fun sh => { sh with numEventsThisPeriod := sh.numEventsThisPeriod + 1 }
        pure fired
      else pure false) := by
  refine .bind keeps_houseKeeping fun _ =>
    .bind (.foldlM _ (fun _ _ _ => keeps_checkFileTransfer _) _) fun _ => ?_
  refine .ite (fun _ => keeps_pure _) fun _ => .ite (fun _ => keeps_pure _) fun _ => ?_
  refine .bind (keeps_shared _) fun _ => .bind (keeps_shared _) fun _ => .ite (fun _ => ?_) fun _ =>
    keeps_pure _
  exact .bind keeps_checkForEvents fun _ => .ite (fun _ => .bind (keeps_assignShared _) fun _ =>
    keeps_pure _) fun _ => keeps_pure _

/-- A call of the service. -/
theorem blind_work (received : Option (P.Addr × Bytes)) :
    Blind (fun d e : Device P => Agree i {} d e ∧ StepDiscreet i d e (.work received))
      (work received) fun _ => Agree i {} := by
  cases received with
  | none => exact (keeps_restOfWork false).pre fun _ _ h => h.1
  | some received =>
      exact .bind blind_receive fun _ => .bind blind_dispatch fun _ => keeps_restOfWork true

theorem keeps_execute : Keeps (P := P) i {} execute :=
  .bind keeps_ticks fun _ => keeps_assignShared _

/-- **One step** of two devices that agree on the slot. -/
theorem blind_program (c : Step P) :
    Blind (fun d e : Device P => Agree i {} d e ∧ StepDiscreet i d e c) c.program
      fun _ => Agree i {} := by
  cases c with
  | work received => exact .bind (blind_work received) fun _ => keeps_pure _
  | execute => exact keeps_execute.pre fun _ _ h => h.1
  | other f => exact (keeps_changeApp f).pre fun _ _ h => h.1

theorem Blind.next {R : Device P → Device P → Prop} {c : Step P}
    (h : Blind R c.program fun _ => Agree i {}) {d e : Device P} (hR : R d e) :
    Option.Rel (Agree i {}) (d.next c) (e.next c) := by
  have hrun := h d e hR
  unfold Device.next
  generalize c.program d = rd at hrun ⊢
  generalize c.program e = re at hrun ⊢
  cases hrun with
  | none => exact .none
  | some h => exact .some h.2

/-! ### Opening the slot -/

/-- What the last session has left in the slot does not show: `n` is 1 if the id of its client is
read before the new one is there. -/
structure Cleared (i : Fin watchMax) (n : ℕ) (d e : Device P) : Prop where
  leftover : Leftover i d e
  forgotten : Forgotten i d e
  idle : (d.sessions i).transfer.Idle ∧ (e.sessions i).transfer.Idle
  remoteId (h : 1 ≤ n) : (d.sessions i).remoteId = (e.sessions i).remoteId

theorem blind_reopen {n : ℕ} (hn : n ≤ 1) (addr : P.Addr) :
    Blind (Cleared i n) (openSession addr) fun slot d e =>
      slot = some i ∧ Agree i { stage := young i n, live := some i } d e := by
  intro d e h
  rw [openSession_eq h.leftover.free.1 h.idle.1.2, openSession_eq h.leftover.free.2 h.idle.2.2]
  exact .some ⟨rfl, rfl, agree_opened h.leftover h.forgotten h.idle.1 h.idle.2 hn h.remoteId⟩

/-- How many of the fields of the new session a message needs: see `young`. -/
def needs (msgType : ℤ) : ℕ := if msgType = 1 then 0 else 1

theorem blind_reopening {addr : P.Addr} {sessionId seqNum typeAndFields : ℤ}
    {input : BufInStream} (hopens : typeAndFields / 16 % 16 = 1 ∨ typeAndFields / 16 % 16 = 0) :
    Blind (Cleared (P := P) i (needs (typeAndFields / 16 % 16)))
      (dispatchMsg addr sessionId seqNum typeAndFields input) fun _ => Agree i {} := by
  have hneeds : needs (typeAndFields / 16 % 16) ≤ 1 := by
    unfold needs
    split <;> decide
  refine .ite (fun _ => .bind (blind_reopen hneeds addr) fun found => ?_) fun h => absurd hopens h
  refine .of_fact (fun _ _ h => h.1) fun hfound => ?_
  subst hfound
  refine (blind_handleOpening ?_).pre fun _ _ h => h.2
  refine hopens.imp_right fun h => ⟨h, ?_⟩
  rw [h]
  decide

/-- The type of the message that a step receives. -/
def Step.msgType (sh : Shared P) : Step P → Option ℤ
  | .work (some (_, bs)) => some ((messageOf (receivedPacket sh bs) bs.length).1.2.2 / 16 % 16)
  | _ => none

theorem blind_receiveOpening {n : ℕ} {bs : Bytes} {msgType : ℤ} :
    Blind (fun d e : Device P => Cleared i n d e ∧
        (messageOf (receivedPacket d.shared bs) bs.length).1.2.2 / 16 % 16 = msgType) (receive bs)
      fun _ d e => Cleared i n d e ∧
        (messageOf d.shared.packet bs.length).1.2.2 / 16 % 16 = msgType := by
  refine Blind.write (f := fun d : Device P => { d with
    shared := { d.shared with packet := receivedPacket d.shared bs, out := [] } }) fun d e h => ?_
  obtain ⟨⟨hleft, hforgot, hidle, hremote⟩, htype⟩ := h
  have hshared := congrArg (fun sh : Shared P =>
    { sh with packet := receivedPacket sh bs, out := [] }) hleft.shared
  exact ⟨⟨⟨hshared, hleft.others, hleft.free⟩, ⟨hforgot.allTreeEvents, hforgot.rand⟩, hidle,
    hremote⟩, htype⟩

/-- The step that opens the slot. -/
theorem blind_firstProgram (c : Step P) {msgType : ℤ} (hopens : msgType = 1 ∨ msgType = 0) :
    Blind (fun d e : Device P => Cleared i (needs msgType) d e ∧
      c.msgType d.shared = some msgType) c.program fun _ => Agree i {} := by
  match c with
  | .execute => exact fun _ _ h => nomatch h.2
  | .other _ => exact fun _ _ h => nomatch h.2
  | .work none => exact fun _ _ h => nomatch h.2
  | .work (some (addr, bs)) =>
      refine .bind (.bind (blind_receiveOpening.pre fun d e h => ⟨h.1, Option.some.inj h.2⟩) fun _ =>
        .bind ?_ fun _ => keeps_restOfWork true) fun _ => keeps_pure _
      refine .bind (Blind.read (f := fun d : Device P => d.shared.packet) fun d e h => ?_)
        fun packet => .of_fact (p := (messageOf packet bs.length).1.2.2 / 16 % 16 = msgType)
          (fun d e h => h.2.1 ▸ h.1.2) fun htype => ?_
      · exact (congrArg Shared.packet h.1.leftover.shared :)
      · subst htype
        exact (blind_reopening hopens).pre fun _ _ h => h.1.1

/-- The sessions of a device that has not been used. -/
structure SoxSession.Unused (s : SoxSession P) : Prop where
  watched : s.watched = false
  closed : s.closed = true
  rand : s.rand = 0
  remoteId : s.remoteId = 0
  allTreeEvents : s.allTreeEvents = false
  user : s.user = none
  transfer : s.transfer.Idle

/-- The device as `App.initWatches` leaves it. -/
def Device.Initial (d : Device P) : Prop := ∀ j, (d.sessions j).Unused

/-- The states of a device after runs of any steps. -/
def Device.Reachable (d : Device P) : Prop :=
  ∃ (d₀ : Device P) (tr : List (Step P)), d₀.Initial ∧ tr.foldlM Device.next d₀ = some d

/-- A device agrees with itself, and a slot that is free has no transfer. -/
theorem Device.Initial.agree {d : Device P} (h : d.Initial) : Agree i {} d d where
  shared := rfl
  others _ := rfl
  slot :=
    { watched := rfl
      rand := rfl
      closed := rfl
      addr := rfl
      receiveTimeout := rfl
      lastReceiveTicks := rfl
      lastSendTicks := rfl
      allTreeEvents := rfl
      user := rfl
      sync := by rw [(h i).watched, (h i).closed]; rfl
      live := fun hc => nomatch hc
      remoteId := fun _ => rfl
      nonce := fun _ _ => rfl
      receiveWindow := fun _ _ => rfl
      seqNum := rfl
      numUnacked := rfl
      packets := fun _ => ⟨rfl, fun _ => rfl, fun _ => rfl, fun _ => rfl, fun _ _ => rfl,
        fun _ _ => rfl, fun _ _ => rfl⟩
      transfer := Or.inl rfl
      freed := fun _ _ => ⟨(h i).transfer, (h i).transfer⟩
      window := trivial
      seen := trivial }

/-- A message that is not a datagram shows nothing. -/
theorem stepDiscreet_of_msgType {d e : Device P} {c : Step P}
    (h : c.msgType d.shared ≠ some 6) : StepDiscreet i d e c := by
  match c with
  | .execute => trivial
  | .other _ => trivial
  | .work none => trivial
  | .work (some _) => exact fun haccepts => absurd (congrArg some haccepts.datagram) h

theorem discreet_self (d : Device P) (message : (ℤ × ℤ × ℤ) × BufInStream) :
    Discreet i d d message := by
  obtain ⟨⟨sessionId, seqNum, typeAndFields⟩, input⟩ := message
  exact fun _ _ _ _ => rfl

theorem stepDiscreet_self (d : Device P) (c : Step P) : StepDiscreet i d d c := by
  match c with
  | .execute => trivial
  | .other _ => trivial
  | .work none => trivial
  | .work (some _) => exact discreet_self d _

theorem Device.Reachable.agree {d : Device P} (h : d.Reachable) : Agree i {} d d := by
  obtain ⟨d₀, tr, hd₀, hrun⟩ := h
  have hinit : Agree i {} d₀ d₀ := hd₀.agree
  clear hd₀
  induction tr generalizing d₀ with
  | nil => exact Option.some.inj hrun ▸ hinit
  | cons c tr ih =>
      rw [List.foldlM_cons] at hrun
      have hnext := Blind.next (blind_program c) ⟨hinit, stepDiscreet_self d₀ c⟩
      cases hd : d₀.next c with
      | none => rw [hd] at hrun; cases hrun
      | some d₁ =>
          rw [hd] at hnext hrun
          cases hnext with
          | some hrel => exact ih d₁ hrun hrel

/-! ### The main result -/

/-- **What a session may not show** of the last one in its slot: two states of the device that have
sent the same packets, have the same application and the same other sessions, and whose slot is the
same in all that is read of it. -/
structure Same (i : Fin watchMax) (d e : Device P) : Prop where
  shared : d.shared = e.shared
  others {j : Fin watchMax} (h : j ≠ i) : d.sessions j = e.sessions j
  closed : (d.sessions i).closed = (e.sessions i).closed
  rand : (d.sessions i).rand = (e.sessions i).rand
  addr : (d.sessions i).addr = (e.sessions i).addr
  remoteId : (d.sessions i).remoteId = (e.sessions i).remoteId
  receiveTimeout : (d.sessions i).receiveTimeout = (e.sessions i).receiveTimeout
  allTreeEvents : (d.sessions i).allTreeEvents = (e.sessions i).allTreeEvents
  user : (d.sessions i).user = (e.sessions i).user
  receiveWindow (h : (d.sessions i).closed = false) :
    (d.sessions i).receiveWindow = (e.sessions i).receiveWindow
  numUnacked : (d.sessions i).sendWindow.numUnacked = (e.sessions i).sendWindow.numUnacked
  seqNum : (d.sessions i).sendWindow.seqNum = (e.sessions i).sendWindow.seqNum
  packets (k : Fin sendMax) :
    ((d.sessions i).sendWindow.packets k).Alike ((e.sessions i).sendWindow.packets k)
  transfer : (d.sessions i).transfer = (e.sessions i).transfer ∨
    (d.sessions i).transfer.Idle ∧ (e.sessions i).transfer.Idle

theorem Agree.same {d e : Device P} (h : Agree i {} d e) : Same i d e where
  shared := h.shared
  others := h.others
  closed := h.slot.closed
  rand := h.slot.rand
  addr := h.slot.addr
  remoteId := h.slot.remoteId (by decide : 1 ≤ 3)
  receiveTimeout := h.slot.receiveTimeout
  allTreeEvents := h.slot.allTreeEvents
  user := h.slot.user
  receiveWindow := h.slot.receiveWindow le_rfl
  numUnacked := h.slot.numUnacked
  seqNum := h.slot.seqNum
  packets := h.slot.packets
  transfer := h.slot.transfer.imp_right fun h => ⟨h.2.1, h.2.2.1⟩

theorem same_of_agree {x y : Option (Device P)} (h : Option.Rel (Agree i {}) x y) :
    Option.Rel (Same i) x y := by
  cases h with
  | none => exact .none
  | some h => exact .some h.same

/-- What the last session of the slot has left does not matter to the step that opens it. -/
structure Unmarked (i : Fin watchMax) (d e : Device P) (c : Step P) : Prop where
  allTreeEvents : (d.sessions i).allTreeEvents = (e.sessions i).allTreeEvents
  rand : (d.sessions i).rand = (d.shared.rands 0).setWidth 8 ↔
    (e.sessions i).rand = (d.shared.rands 0).setWidth 8
  /-- The reply to a DISCOVER has the id of the last client. -/
  remoteId (h : c.msgType d.shared = some 0) : (d.sessions i).remoteId = (e.sessions i).remoteId

/-- **Isolation of a slot.** A slot is opened in two reachable states of the device that differ only
in what the last session of the slot has left there. If it left no subscription to all tree events,
nor the random byte that is drawn, nor, for a DISCOVER, the id of its client, and no answer to a
request for all tree events shows what is in its packet, then the states do the same in every run:
both fail, or they send the same packets and the new session is in the same state. -/
theorem slot_isolation {d e : Device P} (hd : d.Reachable) (he : e.Reachable)
    (hleft : Leftover i d e) {c : Step P}
    (hopens : c.msgType d.shared = some 1 ∨ c.msgType d.shared = some 0)
    (hmark : Unmarked i d e c) {tr : List (Step P)}
    (hmeets : Meets Device.next (StepDiscreet i) d e (c :: tr)) :
    Option.Rel (Same i) ((c :: tr).foldlM Device.next d) ((c :: tr).foldlM Device.next e) := by
  have hidle : ∀ {d : Device P}, d.Reachable → freeSlot d = some i → (d.sessions i).transfer.Idle :=
    fun h hfree => (h.agree.leftover hfree).2.2.1
  have hcleared : ∀ msgType, c.msgType d.shared = some msgType → msgType = 1 ∨ msgType = 0 →
      Cleared i (needs msgType) d e ∧ c.msgType d.shared = some msgType := by
    refine fun msgType htype hor => ⟨⟨hleft, ⟨hmark.allTreeEvents, hmark.rand⟩,
      ⟨hidle hd hleft.free.1, hidle he hleft.free.2⟩, fun hn => hmark.remoteId ?_⟩, htype⟩
    rcases hor with rfl | rfl
    · exact absurd hn (by decide)
    · exact htype
  have hfirst : Option.Rel (Agree i {}) (d.next c) (e.next c) := by
    rcases hopens with htype | htype
    · exact Blind.next (blind_firstProgram c (Or.inl rfl)) (hcleared 1 htype (Or.inl rfl))
    · exact Blind.next (blind_firstProgram c (Or.inr rfl)) (hcleared 0 htype (Or.inr rfl))
  rw [List.foldlM_cons, List.foldlM_cons]
  have hrest := hmeets.2
  generalize d.next c = rd at hfirst hrest
  generalize e.next c = re at hfirst hrest
  cases hfirst with
  | none => exact .none
  | some hagree =>
      exact same_of_agree ((hrest _ _ rfl rfl).rel
        (fun d e c h hp => Blind.next (blind_program c) ⟨h, hp⟩) hagree)

/-! ### A slot with a subscription -/

/-- A platform without users, whose commands do nothing. -/
def bare : Platform where
  Body := Unit
  World := Unit
  User := Unit
  Addr := ℕ
  Store := Unit
  Handle := Unit
  addrEquals a b := a = b
  lookupByName _ _ := none
  isUser _ _ := false
  cred _ _ := []
  sha1 := id
  has _ _ _ _ := false
  canProv _ _ _ := false
  eventsPerSec _ := 100
  receiveMax _ := 8
  platformId _ := []
  readPropRes _ _ _ _ := none
  writeComp _ _ _ _ := some []
  queryRes _ _ _ := .ok []
  versionRes _ := []
  versionMoreRes _ := []
  edit _ _ _ _ := none
  addReq _ _ _ := none
  notify _ app := app
  fileSize _ _ := 0
  toStore _ _ := ()
  doOpen _ _ _ app := (none, app)
  doClose _ _ app := app
  doSeek _ _ _ app := app
  doReadBytes _ _ _ app := ([], app)
  doWriteBytes _ _ _ app := app

/-- The session of a slot that has not been used. -/
def unused : SoxSession bare where
  watched := false
  rand := 0
  closed := true
  addr := (0 : ℕ)
  remoteId := 0
  idealMax := 0
  receiveTimeout := 0
  lastReceiveTicks := 0
  lastSendTicks := 0
  allTreeEvents := false
  nonce := 0
  user := none
  receiveWindow := { seqNum := 0, seqMore := 0, acked := false }
  sendWindow :=
    { seqNum := 0
      numUnacked := 0
      packets := fun _ =>
        { seqNum := 0, age := 0, cmd := 0, replyNum := 0, refData := [], u2Data1 := 0,
          u2Data2 := 0 } }
  transfer :=
    { mode := .unused
      file := { name := none, store := (), fp := none }
      fileSize := 0
      offset := 0
      numChunks := 0
      chunkSize := 0
      nextChunk := 0 }

/-- A device with one component. -/
def started : Device bare where
  shared :=
    { app := { comps := [some { watchFlags := fun _ => 0, body := () }], world := () }
      packet := fun _ => 0
      out := []
      ticks := fun _ => 0
      rands := fun n => BitVec.ofNat 32 (n + 5)
      lastHouseKeeping := 0
      lastCompId := 0
      periodEnd := 1
      numEventsThisPeriod := 0
      sent := [] }
  sessions _ := unused

/-- A packet comes in. -/
def arrival (bs : Bytes) : Step bare := .work (some ((0 : ℕ), bs))

/-- A HELLO of the client 7. -/
def hello : Step bare := arrival [0xff, 0xff, 0, 0, 0x12, 0x05, 1, 0, 0x09, 0, 7]

/-- The session asks for all tree events. -/
def subscribeAll : Step bare := arrival [0x05, 0, 0, 0, 0x60, 0x73, 0, 0xff, 0]

def bye : Step bare := arrival [0x05, 0, 0, 0, 0x70]

/-- The tree changes at all components, as `Component.changed` marks it. -/
def treeChange : Step bare := .other fun app =>
  { app with
    comps := app.comps.map fun c? => c?.map fun c =>
      { c with watchFlags := fun j => c.watchFlags j ||| 0x01 } }

/-- The first slot. -/
def slot : Fin watchMax := ⟨0, by decide⟩

/-- The device after its first slot has been used. -/
def usedBy (history : List (Step bare)) : Device bare :=
  (history.foldlM Device.next started).getD started

/-- The same device, with a slot that has not been used. -/
def refreshed (d : Device bare) : Device bare :=
  { d with sessions := update d.sessions slot unused }

theorem started_initial : started.Initial := fun _ => ⟨rfl, rfl, rfl, rfl, rfl, rfl, rfl, rfl⟩

theorem usedBy_reachable {history : List (Step bare)}
    (h : (history.foldlM Device.next started).isSome) : (usedBy history).Reachable := by
  obtain ⟨d, hd⟩ := Option.isSome_iff_exists.mp h
  refine ⟨started, history, started_initial, ?_⟩
  rw [usedBy, hd, Option.getD_some]

/-- What is checked of the other slots. -/
def Untouched (s : SoxSession bare) : Bool :=
  !s.watched && s.closed && s.rand == 0 && s.remoteId == 0 && !s.allTreeEvents &&
    s.user.isNone && (s.transfer.mode == .unused && s.transfer.file.fp.isNone)

theorem Untouched.unused {s : SoxSession bare} (h : Untouched s) : s.Unused := by
  simp only [Untouched, Bool.and_eq_true, Bool.not_eq_true', beq_iff_eq, Option.isNone_iff_eq_none]
    at h
  obtain ⟨⟨⟨⟨⟨⟨hw, hc⟩, hr⟩, hid⟩, ht⟩, hu⟩, hm, hf⟩ := h
  exact ⟨hw, hc, hr, hid, ht, hu, hm, hf⟩

theorem refreshed_reachable {d : Device bare}
    (h : ∀ j, j ≠ slot → Untouched (d.sessions j)) : (refreshed d).Reachable := by
  refine ⟨refreshed d, [], fun j => ?_, rfl⟩
  by_cases hj : j = slot
  · subst hj
    simp only [refreshed, update_self]
    exact ⟨rfl, rfl, rfl, rfl, rfl, rfl, rfl, rfl⟩
  · simp only [refreshed, update_of_ne hj]
    exact Untouched.unused (h j hj)

theorem refreshed_leftover {d : Device bare}
    (hfree : freeSlot (refreshed d) = some slot ∧ freeSlot d = some slot) :
    Leftover slot (refreshed d) d :=
  ⟨rfl, fun hj => update_of_ne hj .., hfree⟩

/-- The isolation holds for a slot whose last session has said HELLO and has been closed. -/
theorem slot_isolation_bye :
    Option.Rel (Same slot)
      ([hello, treeChange, .work none].foldlM Device.next (refreshed (usedBy [hello, bye])))
      ([hello, treeChange, .work none].foldlM Device.next (usedBy [hello, bye])) := by
  have htype : hello.msgType (refreshed (usedBy [hello, bye])).shared = some 1 := by
    decide +kernel
  refine slot_isolation (refreshed_reachable (by decide +kernel))
    (usedBy_reachable (by decide +kernel)) (refreshed_leftover (by decide +kernel))
    (Or.inl htype) ⟨by decide +kernel, by decide +kernel, fun h => ?_⟩ ?_
  · exact absurd (htype.symm.trans h) (by decide)
  · refine ⟨stepDiscreet_of_msgType (htype ▸ by decide), fun _ _ _ _ => ?_⟩
    exact ⟨trivial, fun _ _ _ _ => ⟨trivial, fun _ _ _ _ => trivial⟩⟩

/-- **A slot is not isolated.** The last session has asked for all tree events; the new one gets
them. -/
theorem not_slot_isolation : ¬∀ (P : Platform) (i : Fin watchMax) (d e : Device P), d.Reachable →
    e.Reachable → Leftover i d e → ∀ c : Step P,
    c.msgType d.shared = some 1 ∨ c.msgType d.shared = some 0 → ∀ tr : List (Step P),
    Option.Rel (Same i) ((c :: tr).foldlM Device.next d) ((c :: tr).foldlM Device.next e) := by
  intro h
  have hrel := h bare slot (refreshed (usedBy [hello, subscribeAll, bye]))
    (usedBy [hello, subscribeAll, bye]) (refreshed_reachable (by decide +kernel))
    (usedBy_reachable (by decide +kernel)) (refreshed_leftover (by decide +kernel)) hello
    (Or.inl (by decide +kernel)) [treeChange, .work none]
  have hsent : ∀ {x y : Option (Device bare)}, Option.Rel (Same slot) x y →
      x.map (·.shared.sent.length) = y.map (·.shared.sent.length) := by
    intro x y hxy
    cases hxy with
    | none => rfl
    | some hsame => exact congrArg some (congrArg (·.sent.length) hsame.shared)
  exact absurd (hsent hrel) (by decide +kernel)

end Sedona.Sox.Slots
