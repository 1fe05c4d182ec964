import Sedona.Sox.SlotRequests

/-!
# Slots that Are Used Again

What the device does for its sessions, beside a single request, keeps the agreement of two states
on a slot: the house keeping, the transfers and the events that it begins by itself, and the
handshake. A session that is opened in a slot reads what the last one has left there in two places
only, `Forgotten`.

## Main results

* `blind_answerReq`: a datagram is answered alike.
* `keeps_houseKeeping`, `keeps_checkFileTransfer`, `keeps_checkForEvents`: the work of the service.
* `agree_opened`, `blind_openSession`: the slot is opened.
* `blind_challenge`, `blind_welcome`: the handshake.
-/

namespace Sedona.Sox.Slots

open Function OutStream BufInStream

variable {P : Platform} {i j : Fin watchMax} {k : Fin sendMax} {v : View} {c : BitVec 8}

/-! ### Datagrams -/

/-- The packet that the answer to a request for all tree events gets has the same number in both
states. -/
def SameAnswer (x y : SendWindow) : Prop :=
  ∀ k, x.firstFree = some k → (x.packets k).u2Data1 = (y.packets k).u2Data1

theorem blind_request {W : SendWindow → SendWindow → Prop} (input : BufInStream)
    (hW : ∀ x y, W x y → W (x.modify k fun p => { p with cmd := code 'S' })
      (y.modify k fun p => { p with cmd := code 'S' }))
    (hall : c = code 's' → AllTree input → j = i → ∀ x y : SendWindow, W x y →
      (x.packets k).u2Data1 = (y.packets k).u2Data1) :
    Blind (Agree (P := P) i { View.at j k .pending with window := W }) (request j k c input)
      fun _ => Agree i (View.at j k .ready) := by
  have hpre : ∀ {x : M P Unit},
      Blind (Agree i (View.at j k .pending)) x (fun _ => Agree i (View.at j k .ready)) →
      Blind (Agree i { View.at j k .pending with window := W }) x
        fun _ => Agree i (View.at j k .ready) := fun h =>
    h.pre fun d e hde => hde.weaken fun _ _ hst => { hst with window := trivial }
  refine .ite (fun _ => hpre (blind_readReq (Or.inl rfl) input)) fun _ => ?_
  refine .ite (fun _ => hpre (blind_readReq (Or.inr rfl) input)) fun _ => ?_
  refine .ite (fun _ => hpre (blind_editReq (by decide) _ input)) fun _ => ?_
  refine .ite (fun _ => hpre (blind_editReq (by decide) _ input)) fun _ => ?_
  refine .ite (fun h => blind_subscribeReq input hW (hall h)) fun _ => ?_
  refine .ite (fun _ => hpre (blind_unsubscribeReq input)) fun _ => ?_
  refine .ite (fun _ => hpre (blind_addReq input)) fun _ => ?_
  refine .ite (fun _ => hpre (blind_editReq (by decide) _ input)) fun _ => ?_
  refine .ite (fun _ => hpre (blind_editReq (by decide) _ input)) fun _ => ?_
  refine .ite (fun _ => hpre (blind_editReq (by decide) _ input)) fun _ => ?_
  refine .ite (fun _ => hpre (blind_editReq (by decide) _ input)) fun _ => ?_
  refine .ite (fun _ => hpre (blind_queryReq input)) fun _ => ?_
  refine .ite (fun _ => hpre (blind_plain (by decide))) fun _ => ?_
  refine .ite (fun _ => hpre (blind_plain (by decide))) fun _ => ?_
  refine .ite (fun _ => hpre (blind_fileOpenReq input)) fun _ => ?_
  refine .ite (fun _ => hpre blind_fileCloseReq) fun _ => ?_
  refine .ite (fun _ => hpre (blind_editReq (by decide) _ input)) fun _ => ?_
  exact hpre (blind_refused _)

/-- The packet of a datagram gets its reply number. -/
theorem blind_replyNum {W : SendWindow → SendWindow → Prop} (replyNum : BitVec 8)
    (hW : ∀ x y, W x y → W (x.modify k fun p => { p with replyNum })
      (y.modify k fun p => { p with replyNum })) :
    Blind (Agree (P := P) i { View.at j k .taken with window := W })
      (assignPacket j k fun p => { p with replyNum }) fun _ =>
        Agree i { View.at j k .pending with window := W } :=
  blind_assignPacket rfl rfl (fun _ _ h => ⟨h.1, h.2.1, h.2.2, rfl⟩)
    (Or.inr fun _ _ _ hc => hc.elim) hW fun _ _ _ h => h

/-- A request for all tree events, by its command. -/
def AsksAllTree (cmd : ℤ) (input : BufInStream) : Prop :=
  BitVec.ofInt 8 cmd = code 's' ∧ AllTree input

/-- The condition on the answers, before the packet is taken. -/
def Ready (i j : Fin watchMax) (cmd : ℤ) (input : BufInStream) (x y : SendWindow) : Prop :=
  j = i → AsksAllTree cmd input → SameAnswer x y

/-- The condition on the answers, once the packet is taken. -/
def Answers (i j : Fin watchMax) (k : Fin sendMax) (cmd : ℤ) (input : BufInStream)
    (x y : SendWindow) : Prop :=
  j = i → AsksAllTree cmd input → (x.packets k).u2Data1 = (y.packets k).u2Data1

theorem Answers.modify {cmd : ℤ} {input : BufInStream} {x y : SendWindow}
    {f : SendPacket → SendPacket} (h : Answers i j k cmd input x y)
    (hf : ∀ p, (f p).u2Data1 = p.u2Data1) :
    Answers i j k cmd input (x.modify k f) (y.modify k f) := by
  intro hj hasks
  rw [SendWindow.modify_self, SendWindow.modify_self, hf, hf]
  exact h hj hasks

/-- **A datagram** is answered alike, if its answer does not depend on what is left in the
packet. -/
theorem blind_answerReq (cmd replyNum : ℤ) (input : BufInStream) :
    Blind (Agree (P := P) i { live := some j, window := Ready i j cmd input })
      (answer j cmd replyNum input) fun _ => Agree i { live := some j } := by
  refine .ite (fun _ => (keeps_fileReceiveChunk _).pre fun d e h => ?_) fun _ => ?_
  · exact h.weaken fun _ _ hst => { hst with window := trivial }
  refine .bind (blind_nextPacket (W := fun _ _ => True) (T := fun k => Answers i j k cmd input) rfl
    (fun x y k hxy hfree hj hasks => ?_) (fun hj x y k _ h => absurd h hj)
    fun _ _ _ => trivial) fun free => ?_
  · rw [SendWindow.take_self, SendWindow.take_self]
    exact hxy hj hasks k hfree
  cases free with
  | none => exact .failure
  | some k =>
      refine .bind (blind_replyNum (W := Answers i j k cmd input) _ fun x y h =>
        h.modify fun _ => rfl) fun _ => ?_
      refine .bind (blind_request (W := Answers i j k cmd input) _ (fun x y h =>
        h.modify fun _ => rfl) fun hc hall hj x y h => h hj ⟨hc, hall⟩) fun _ => ?_
      exact blind_send.post fun _ _ _ h => h.release

/-! ### House keeping -/

/-- The session is not known to be open any more. -/
theorem Agree.forget {d e : Device P} (h : Agree i { live := some j } d e) : Agree i {} d e :=
  h.weaken fun _ _ hst => { hst with live := fun hc => nomatch hc }

/-- Whether the session is closed is read. -/
theorem blind_closed : Blind (Agree (P := P) i {}) (field j (·.closed)) fun
    | true => Agree i {}
    | false => Agree i { live := some j } := by
  refine Blind.post (blind_field (f := (·.closed)) fun _ _ _ h => h.closed) fun closed d e h => ?_
  cases closed with
  | true => exact h.1
  | false =>
      refine ⟨h.1.shared, h.1.others, { h.1.slot with live := fun hj => ?_ }⟩
      exact Option.some.inj hj ▸ h.2.1

/-- A packet that is in use has all that its command needs. -/
theorem Agree.toUsed {d e : Device P} (h : Agree i { live := some j } d e)
    (hage : ((d.sessions j).sendWindow.packets k).age ≠ 0) :
    Agree i (View.at j k .ready) d e := by
  refine ⟨h.shared, h.others, h.slot.weaken le_rfl h.slot.live (fun l => ?_)
    (fun hc => nomatch hc) id trivial (fun _ _ _ h => h)⟩
  have hl := h.slot.packets l
  by_cases hlk : j = i ∧ l = k
  · obtain ⟨rfl, rfl⟩ := hlk
    simp only [View.at_hand, hold_self]
    exact ⟨⟨hage, hl⟩, fun _ => trivial⟩
  · simp only [View.at_hand, hold_of_not hlk]
    exact ⟨hl, id⟩

/-- The age of a packet that is in use is set. -/
theorem blind_assignAge {age : BitVec 8} (hage : age ≠ 0) :
    Keeps (P := P) i (View.at j k .ready) (assignPacket j k fun p => { p with age }) :=
  blind_assignPacket rfl rfl
    (fun _ _ h => ⟨hage, rfl, fun _ => h.2.seqNum h.1, fun _ => h.2.cmd h.1,
      fun _ => h.2.replyNum h.1, fun _ => h.2.refData h.1, fun _ => h.2.u2Data1 h.1,
      fun _ => h.2.u2Data2 h.1⟩)
    (Or.inr fun _ _ hp _ => hp trivial) (fun _ _ h => h) fun _ _ _ h => h

/-- A count of ticks can free a packet. -/
theorem keeps_freeAge :
    Keeps (P := P) i { live := some j } (assignPacket j k fun p => { p with age := 0 }) := by
  refine keeps_assign fun hj s t h => { h with packets := fun l => ?_, transfer := ?_ }
  · by_cases hl : l = k
    · subst hl
      rw [SendWindow.modify_self, SendWindow.modify_self]
      exact ⟨rfl, fun h => absurd rfl h, fun h => absurd rfl h, fun h => absurd rfl h,
        fun h => absurd rfl h, fun h => absurd rfl h, fun h => absurd rfl h⟩
    · rw [SendWindow.modify_of_ne hl, SendWindow.modify_of_ne hl]
      exact h.packets l
  · rcases h.transfer with heq | ⟨hactive, hs, ht, hall⟩
    · exact Or.inl heq
    · refine Or.inr ⟨hactive, hs, ht, fun l hcmd hage => ?_⟩
      by_cases hl : l = k
      · subst hl
        rw [SendWindow.modify_self] at hage
        exact absurd rfl hage
      · rw [SendWindow.modify_of_ne hl] at hage ⊢
        exact hall l hcmd hage

/-- A packet in use is sent again. -/
theorem keeps_retry (houseKeepingTicks : BitVec 32) (work : Bool) :
    Keeps (P := P) i { live := some j } (retry j houseKeepingTicks work k) := by
  refine .bind (blind_field (f := fun s => (s.sendWindow.packets k).age) fun hj s t h => ?_)
    fun age => .ite (fun _ => .pure fun _ _ h => h.1) fun hage => ?_
  · exact SendPacket.Alike.age (h.packets k)
  refine Blind.pre (R := Agree i (View.at j k .ready)) ?_ fun d e h => h.1.toUsed (h.2.1 ▸ hage)
  by_cases hzero : age + houseKeepingTicks.setWidth 8 = 0
  · rw [hzero]
    refine .bind (keeps_freeAge.pre fun _ _ h => h.release) fun _ => .ite (fun h => ?_) fun _ =>
      keeps_pure _
    exact absurd h (by decide)
  · refine .bind (blind_assignAge hzero) fun _ => .ite (fun _ => ?_) fun _ =>
      .pure fun _ _ h => h.release
    exact .bind blind_send fun _ => .bind (blind_assignAge (by decide)) fun _ =>
      .pure fun _ _ h => h.release

theorem keeps_sendRetries (houseKeepingTicks : BitVec 32) :
    Keeps (P := P) i { live := some j } (sendRetries j houseKeepingTicks) :=
  .bind (keeps_field fun _ _ _ h => h.numUnacked) fun _ =>
    .ite (fun _ => keeps_pure _) fun _ => .foldlM _ (fun _ _ _ => keeps_retry _ _) _

theorem keeps_keepSession (now : ℤ) (houseKeepingTicks : BitVec 32) (worked : Bool) :
    Keeps (P := P) i {} (keepSession now houseKeepingTicks worked j) := by
  refine .bind blind_closed fun closed => ?_
  cases closed with
  | true => exact keeps_pure _
  | false =>
      refine .bind (keeps_field fun _ _ _ h => h.lastReceiveTicks) fun _ => ?_
      refine .bind (keeps_field fun _ _ _ h => h.receiveTimeout) fun _ => .ite (fun _ => ?_) fun _ => ?_
      · exact .bind ((blind_close (by decide) (by decide) (fun _ _ => le_rfl) _).pre
          fun _ _ h => h.forget) fun _ => keeps_pure _
      · refine .bind (keeps_sendRetries _) fun retried => .ite (fun _ => ?_) fun _ => ?_
        · exact .pure fun _ _ h => h.forget
        · refine .bind (keeps_field fun hj s t h => ?_) fun acked => ?_
          · subst hj
            rw [h.receiveWindow le_rfl (h.live rfl)]
          · refine .bind (keeps_field fun _ _ _ h => h.lastSendTicks) fun _ => .ite (fun _ => ?_)
              fun _ => .pure fun _ _ h => h.forget
            exact .bind (keeps_keepAlive le_rfl rfl rfl) fun _ => .pure fun _ _ h => h.forget

theorem keeps_houseKeeping : Keeps (P := P) i {} houseKeeping := by
  refine .bind keeps_ticks fun now => .bind (keeps_shared _) fun last => ?_
  refine .ite (fun _ => keeps_pure _) fun _ => ?_
  exact .bind (.foldlM _ (fun _ _ _ => keeps_keepSession _ _ _) _) fun _ =>
    .bind (keeps_assignShared _) fun _ => keeps_pure _

/-! ### File transfers and events -/

/-- A packet is taken for a message that the device begins. -/
theorem blind_takePacket {v : View} (hhand : v.hand = fun _ _ => none)
    (hwindow : v.window = fun _ _ => True) :
    Blind (Agree (P := P) i v) (nextPacket j) fun
      | none => Agree i v
      | some k => Agree i { v with hand := hold j k .taken } := by
  refine (blind_nextPacket (W := fun _ _ => True) (T := fun _ _ _ => True) hhand
    (fun _ _ _ _ _ => trivial) (fun _ _ _ _ _ => trivial) fun _ _ _ => trivial).post ?_
  rintro (_ | k) d e h
  · exact h.weaken fun _ _ hst => { hst with window := hwindow ▸ trivial }
  · exact h.weaken fun _ _ hst => { hst with window := hwindow ▸ trivial }

theorem keeps_checkGet :
    Blind (Agree (P := P) i { live := some j, active := some j }) (checkGet j) fun _ =>
      Agree i { live := some j } := by
  refine .bind (keeps_transfer rfl) fun chunkNum => .bind (keeps_transfer rfl) fun numChunks => ?_
  refine .ite (fun _ => .pure fun _ _ h => h.deactivateMode) fun _ => ?_
  refine .bind (blind_takePacket rfl rfl) fun free => ?_
  cases free with
  | none => exact .pure fun _ _ h => h.deactivateMode
  | some k =>
      refine .bind (keeps_assignTransfer (f := fun tx => { tx with nextChunk := tx.nextChunk + 1 })
        rfl fun _ h => h) fun _ => ?_
      refine .bind (keeps_transfer rfl) fun fileSize => .bind (keeps_transfer rfl) fun chunkSize => ?_
      refine .ite (fun _ => .failure) fun _ => ?_
      refine .bind (blind_command (w := { View.at j k (.sending (code 'k')) with active := some j })
        (code 'k') rfl rfl rfl (fun _ => rfl) (fun _ => ⟨rfl, rfl⟩) (fun _ _ _ => rfl)
        (fun h => absurd h (by decide)) (fun _ _ _ => rfl) (fun _ _ _ => rfl) (Or.inr rfl))
        fun _ => ?_
      refine .bind (blind_send.pre fun _ _ h => h.deactivate.toReady) fun _ =>
        .pure fun _ _ h => h.release

theorem keeps_checkPut :
    Blind (Agree (P := P) i { live := some j, active := some j }) (checkPut j) fun _ =>
      Agree i { live := some j } := by
  refine .bind (keeps_transfer rfl) fun numChunks => ?_
  refine .ite (fun _ => .pure fun _ _ h => h.deactivateMode) fun _ => ?_
  refine .bind (blind_takePacket rfl rfl) fun free => ?_
  cases free with
  | none => exact .pure fun _ _ h => h.deactivateMode
  | some k =>
      refine .bind keeps_closeFile fun _ => ?_
      refine .bind (keeps_assignTransfer (f := fun tx => { tx with mode := .unused }) rfl
        fun _ h => ⟨rfl, h.2⟩) fun _ => .bind (keeps_changeApp _) fun _ => ?_
      refine .bind (blind_command (w := { View.at j k (.sending (code 'z')) with active := some j })
        (code 'z') rfl rfl rfl (fun _ => rfl) (fun _ => ⟨rfl, rfl⟩) (fun _ _ _ => rfl)
        (fun h => absurd h (by decide)) (fun h => absurd h (by decide))
        (fun h => absurd h (by decide)) (Or.inl (by decide))) fun _ => ?_
      exact .bind (blind_send.pre fun _ _ h => h.deactivate.toReady) fun _ =>
        .pure fun _ _ h => h.release

theorem keeps_checkFileTransfer (worked : Bool) :
    Keeps (P := P) i {} (checkFileTransfer worked j) := by
  refine .bind blind_closed fun closed => ?_
  cases closed with
  | true => exact keeps_pure _
  | false =>
      refine .bind blind_mode fun mode => ?_
      cases mode with
      | unused => exact .pure fun _ _ h => h.1.forget
      | get =>
          exact .bind (keeps_checkGet.pre fun d e h => h.1.activateMode
            (h.2 ▸ TransferMode.noConfusion)) fun _ => .pure fun _ _ h => h.forget
      | put =>
          exact .bind (keeps_checkPut.pre fun d e h => h.1.activateMode
            (h.2 ▸ TransferMode.noConfusion)) fun _ => .pure fun _ _ h => h.forget

theorem keeps_enqueueEvent (id : ℕ) (events : BitVec 8) (fired : Bool) (bit : BitVec 8) :
    Keeps (P := P) i { live := some j } (enqueueEvent j id events fired bit) := by
  refine .ite (fun _ => keeps_pure _) fun _ => .bind (blind_takePacket rfl rfl) fun free => ?_
  cases free with
  | none => exact keeps_pure _
  | some k =>
      refine .bind (blind_command (w := View.at j k (.sending (code 'e'))) (code 'e') rfl rfl rfl
        (fun _ => rfl) (fun _ => ⟨rfl, rfl⟩) (fun _ _ _ => rfl) (fun h => absurd h (by decide))
        (fun _ _ _ => rfl) (fun _ _ _ => rfl) (Or.inl (by decide))) fun _ => ?_
      refine .bind (blind_send.pre fun _ _ h => h.toReady) fun _ => ?_
      exact .bind (keeps_changeApp _) fun _ => .pure fun _ _ h => h.release

theorem keeps_fireEvents (id : ℕ) (fired : Bool) : Keeps (P := P) i {} (fireEvents id fired j) := by
  refine .bind blind_closed fun closed => ?_
  cases closed with
  | true => exact keeps_pure _
  | false =>
      refine .bind (keeps_shared _) fun flags => .bind (keeps_field fun _ _ _ h => h.allTreeEvents)
        fun _ => ?_
      exact (Blind.foldlM _ (fun _ _ _ => keeps_enqueueEvent _ _ _ _) _).post fun _ _ _ h => h.forget

theorem keeps_checkComps (off compsLen : ℕ) (is : List ℕ) :
    Keeps (P := P) i {} (checkComps off compsLen is) := by
  induction is with
  | nil => exact keeps_pure _
  | cons n is ih =>
      refine .bind (keeps_shared _) fun c => .ite (fun _ => ih) fun _ => ?_
      refine .bind (.foldlM _ (fun _ _ _ => keeps_fireEvents _ _) _) fun fired => ?_
      exact .ite (fun _ => .bind (keeps_assignShared _) fun _ => keeps_pure _) fun _ => ih

theorem keeps_checkForEvents : Keeps (P := P) i {} checkForEvents :=
  .bind (keeps_shared _) fun _ => .bind (keeps_shared _) fun _ => keeps_checkComps _ _ _

/-! ### Opening a slot -/

/-- Two states of the device that differ only in what the last session of the slot `i` has left
there: the slot is free in both, and the next one to be used. -/
structure Leftover (i : Fin watchMax) (d e : Device P) : Prop where
  shared : { d.shared with app := d.shared.app.clearFlags i } =
    { e.shared with app := e.shared.app.clearFlags i }
  others {j : Fin watchMax} (h : j ≠ i) : d.sessions j = e.sessions j
  free : freeSlot d = some i ∧ freeSlot e = some i

/-- What the last session may not leave: its subscription to all tree events, or the random byte
that is drawn next. -/
structure Forgotten (i : Fin watchMax) (d e : Device P) : Prop where
  allTreeEvents : (d.sessions i).allTreeEvents = (e.sessions i).allTreeEvents
  rand : (d.sessions i).rand = (d.shared.rands 0).setWidth 8 ↔
    (e.sessions i).rand = (d.shared.rands 0).setWidth 8

/-- The session `j` has been opened just now. -/
def young (j : Fin watchMax) (n : ℕ) (l : Fin watchMax) : ℕ := if l = j then n else 3

/-- What `openSession` makes of the slot `i`. -/
def opened (i : Fin watchMax) (addr : P.Addr) (d : Device P) : Device P where
  shared :=
    { d.shared with
      app := d.shared.app.clearFlags i
      ticks := fun n => d.shared.ticks (n + 1)
      rands := fun n => d.shared.rands (n + 2) }
  sessions := update d.sessions i
    { d.sessions i with
      watched := true
      rand := if (d.sessions i).rand = (d.shared.rands 0).setWidth 8 then
        (d.shared.rands 0).setWidth 8 + 1 else (d.shared.rands 0).setWidth 8
      closed := false
      addr
      receiveTimeout := 2
      lastReceiveTicks := d.shared.ticks 0
      lastSendTicks := d.shared.ticks 0
      user := none
      receiveWindow := { (d.sessions i).receiveWindow with seqNum := -1 }
      sendWindow := (d.sessions i).sendWindow.reset (d.shared.rands 1)
      transfer := { (d.sessions i).transfer with mode := .unused } }

theorem pure_apply {α : Type} (a : α) (d : Device P) : (pure a : M P α) d = some (a, d) := rfl

theorem openSession_eq {d : Device P} {addr : P.Addr} (hfree : freeSlot d = some i)
    (hfp : (d.sessions i).transfer.file.fp = none) :
    openSession addr d = some (some i, opened i addr d) := by
  simp only [openSession, openWatch, reset, resetTransfer, closeFile, rand, ticks, onShared, assign,
    changeApp, assignShared, field, bind, StateT.bind, pure_apply, Option.bind, Option.map,
    hfree, update_self, update_idem, hfp, opened]

/-- **The slot is opened**: what the last session has left there is not read any more. -/
theorem agree_opened {d e : Device P} {addr : P.Addr} {n : ℕ} (h : Leftover i d e)
    (hforgot : Forgotten i d e) (hd : (d.sessions i).transfer.Idle)
    (he : (e.sessions i).transfer.Idle) (hn : n ≤ 1)
    (hremote : 1 ≤ n → (d.sessions i).remoteId = (e.sessions i).remoteId) :
    Agree i { stage := young i n, live := some i } (opened i addr d) (opened i addr e) := by
  have hticks := congrArg Shared.ticks h.shared
  have hrands := congrArg Shared.rands h.shared
  dsimp only at hticks hrands
  have hyoung : young i n i = n := if_pos rfl
  have hstage : young i n i ≤ 1 := hyoung.trans_le hn
  refine ⟨?_, fun {j} hj => ?_, ?_⟩
  · exact congrArg (fun sh : Shared P => { sh with
      ticks := fun n => sh.ticks (n + 1)
      rands := fun n => sh.rands (n + 2) }) h.shared
  · simp only [opened, update_of_ne hj, h.others hj]
  · simp only [opened, update_self]
    exact {
      watched := rfl
      rand := by
        rw [← hrands]
        by_cases hr : (d.sessions i).rand = (d.shared.rands 0).setWidth 8
        · rw [if_pos hr, if_pos (hforgot.rand.mp hr)]
        · rw [if_neg hr, if_neg fun hc => hr (hforgot.rand.mpr hc)]
      closed := rfl
      addr := rfl
      receiveTimeout := rfl
      lastReceiveTicks := by rw [hticks]
      lastSendTicks := by rw [hticks]
      allTreeEvents := hforgot.allTreeEvents
      user := rfl
      sync := rfl
      live := fun _ => rfl
      remoteId := fun h1 => hremote (hyoung ▸ h1)
      nonce := fun h2 => absurd (Nat.le_trans h2 hstage) (by decide)
      receiveWindow := fun h3 => absurd (Nat.le_trans h3 hstage) (by decide)
      seqNum := by rw [hrands]; rfl
      numUnacked := rfl
      packets := fun k => ⟨rfl, fun h => absurd rfl h, fun h => absurd rfl h,
        fun h => absurd rfl h, fun h => absurd rfl h, fun h => absurd rfl h, fun h => absurd rfl h⟩
      transfer := Or.inr ⟨fun hc => (nomatch hc), ⟨rfl, hd.2⟩, ⟨rfl, he.2⟩,
        fun k _ hage => absurd rfl hage⟩
      freed := fun _ hw => nomatch hw
      window := trivial
      seen := trivial }

theorem Agree.freeSlot {d e : Device P} (h : Agree i v d e) : freeSlot d = freeSlot e := by
  have hwatched : ∀ j, (d.sessions j).watched = (e.sessions j).watched := by
    intro j
    by_cases hj : j = i
    · subst hj
      exact h.slot.watched
    · rw [h.others hj]
  simp only [Slots.freeSlot, hwatched]

/-- A slot that both states agree on differs in what its last session has left. -/
theorem Agree.leftover {d e : Device P} (h : Agree i {} d e) (hfree : Slots.freeSlot d = some i) :
    Leftover i d e ∧ Forgotten i d e ∧ (d.sessions i).transfer.Idle ∧
      (e.sessions i).transfer.Idle := by
  have hsame := h.freeSlot
  have hwatched : (d.sessions i).watched = false := by
    simpa using List.find?_some hfree
  refine ⟨⟨by rw [h.shared], h.others, hfree, hsame ▸ hfree⟩,
    ⟨h.slot.allTreeEvents, by rw [h.slot.rand]⟩, h.slot.freed rfl hwatched⟩

theorem keeps_openWatch_of_ne (hji : j ≠ i) : Keeps (P := P) i v (openWatch j) :=
  .bind keeps_rand fun _ => .bind (keeps_assign fun hj => absurd hj hji) fun _ => keeps_changeApp _

theorem keeps_reset_of_ne (hji : j ≠ i) : Keeps (P := P) i v (reset j) :=
  .bind keeps_ticks fun _ => .bind (keeps_assign fun hj => absurd hj hji) fun _ =>
    .bind keeps_rand fun _ => .bind (keeps_assign fun hj => absurd hj hji) fun _ =>
      .bind (blind_resetTransfer.post fun _ _ _ h => h.1) fun _ =>
        keeps_assign fun hj => absurd hj hji

/-- A session is opened, the same one in both states. -/
theorem blind_openSession (addr : P.Addr) : Blind (Agree i {}) (openSession addr) fun
    | none => Agree i {}
    | some j => Agree i { stage := young j 1, live := some j } := by
  intro d e h
  have hsame := h.freeSlot
  cases hfree : freeSlot d with
  | none =>
      have hnone : ∀ d : Device P, freeSlot d = none → openSession addr d = some (none, d) := by
        intro d hd
        simp only [openSession, bind, StateT.bind, hd, Option.bind]
        rfl
      rw [hnone d hfree, hnone e (hsame ▸ hfree)]
      exact .some ⟨rfl, h⟩
  | some j =>
      by_cases hji : j = i
      · subst hji
        obtain ⟨hleft, hforgot, hd, he⟩ := h.leftover hfree
        rw [openSession_eq hfree hd.2, openSession_eq hleft.free.2 he.2]
        exact .some ⟨rfl, agree_opened hleft hforgot hd he le_rfl
          fun _ => h.slot.remoteId (by decide : 1 ≤ 3)⟩
      · have hopen : Blind (Agree (P := P) i {}) (do
            openWatch j
            reset j
            assign j fun s => { s with addr }
            pure (some j)) fun
              | none => Agree i {}
              | some j => Agree i { stage := young j 1, live := some j } := by
          refine .bind (keeps_openWatch_of_ne hji) fun _ => .bind (keeps_reset_of_ne hji) fun _ => ?_
          refine .bind (keeps_assign fun hj => absurd hj hji) fun _ => .pure fun d e h => ?_
          refine h.weaken fun _ _ hst => hst.weaken ?_ (fun hc => absurd (Option.some.inj hc) hji)
            (fun l => ⟨hst.packets l, id⟩) (fun hc => nomatch hc) id trivial (fun _ _ _ h => h)
          exact (if_neg (Ne.symm hji)).le
        have hrun : ∀ d : Device P, freeSlot d = some j → openSession addr d = (do
            openWatch j
            reset j
            assign j fun s => { s with addr }
            pure (some j) : M P (Option (Fin watchMax))) d := by
          intro d hd
          simp only [openSession, bind, StateT.bind, hd, Option.bind]
        rw [hrun d hfree, hrun e (hsame ▸ hfree)]
        exact hopen d e h

/-! ### The handshake -/

theorem keeps_closeDup (n : ℕ) (hn : 1 ≤ n) (ls : List (Fin watchMax)) :
    Keeps (P := P) i { stage := young j n } (closeDup j ls) := by
  have hstage : ∀ l, 1 ≤ young j n l := by
    intro l
    unfold young
    split <;> omega
  have hremote : ∀ l, Keeps (P := P) i { stage := young j n } (field l (·.remoteId)) := fun l =>
    keeps_field fun _ _ _ h => h.remoteId (hstage i)
  induction ls with
  | nil => exact keeps_pure _
  | cons l ls ih =>
      refine .bind (hremote l) fun _ => .bind (hremote j) fun _ => ?_
      refine .bind (keeps_field fun _ _ _ h => h.addr) fun _ => ?_
      refine .bind (keeps_field fun _ _ _ h => h.addr) fun _ => .ite (fun h => ?_) fun _ => ih
      exact blind_closeSession (hstage l) fun _ _ => le_rfl

/-- The challenge makes the id of the client and the nonce those of the new session. -/
theorem blind_challenge (numFields : ℕ) (input : BufInStream) :
    Blind (Agree (P := P) i { stage := young j 0 }) (challenge j numFields input) fun _ =>
      Agree i { stage := young j 2 } := by
  have hself : ∀ n, young j n j = n := fun n => if_pos rfl
  have hne : ∀ n l, l ≠ j → young j n l = 3 := fun n l hl => if_neg hl
  have hpos : ∀ l, 1 ≤ young j 1 l := by
    intro l
    unfold young
    split <;> omega
  refine .bind (blind_assign (w := { stage := young j 1 }) (fun hj s t h => ?_) fun hj s t h => ?_)
    fun _ => .ite (fun _ => ?_) fun _ => ?_
  · subst hj
    exact { h with
      receiveTimeout := rfl
      remoteId := fun _ => rfl
      nonce := fun h2 => absurd (Nat.le_trans h2 (hself 1).le) (by decide)
      receiveWindow := fun h3 => absurd (Nat.le_trans h3 (hself 1).le) (by decide) }
  · refine h.weaken ?_ h.live (fun l => ⟨h.packets l, id⟩) (fun hc => nomatch hc) id trivial (fun _ _ _ h => h)
    exact (hne 1 i (Ne.symm hj)).trans_le (hne 0 i (Ne.symm hj)).ge
  · refine blind_close (hpos i) (hpos j) (fun l hl => ?_) _
    exact (hne 2 l hl).trans_le (hne 1 l hl).ge
  · refine .bind (keeps_closeDup 1 le_rfl _) fun _ => .bind keeps_rand fun _ =>
      .bind keeps_rand fun _ => ?_
    refine .bind (blind_assign (w := { stage := young j 2 }) (fun hj s t h => ?_)
      fun hj s t h => ?_) fun _ => ?_
    · subst hj
      exact { h with
        remoteId := fun _ => h.remoteId (hpos j)
        nonce := fun _ _ => rfl
        receiveWindow := fun h3 => absurd (Nat.le_trans h3 (hself 2).le) (by decide) }
    · refine h.weaken ?_ h.live (fun l => ⟨h.packets l, id⟩) (fun hc => nomatch hc) id trivial (fun _ _ _ h => h)
      exact (hne 2 i (Ne.symm hj)).trans_le (hne 1 i (Ne.symm hj)).ge
    · refine .bind (keeps_field fun _ _ _ h => h.seqNum) fun _ => ?_
      refine .bind (keeps_prepare ?_ _ _ _) fun _ => .bind (keeps_field fun _ _ _ h => h.rand)
        fun _ => .bind (keeps_emit _) fun _ => keeps_sendPacket
      show 1 ≤ young j 2 i
      unfold young
      split <;> omega

theorem keeps_authenticate (username : Str) (digest : Bytes) :
    Keeps (P := P) i { live := some j } (authenticate j username digest) := by
  refine .bind (keeps_shared _) fun app => ?_
  refine .bind (keeps_assign fun _ s t h => { h with user := rfl }) fun _ => ?_
  split
  · exact keeps_pure _
  · refine .ite (fun _ => keeps_pure _) fun _ => .bind (keeps_field fun hj s t h => ?_) fun _ =>
      keeps_pure _
    subst hj
    exact h.nonce (by decide : 2 ≤ 3) (h.live rfl)

theorem blind_welcome (numFields : ℕ) (input : BufInStream) :
    Blind (Agree (P := P) i { live := some j }) (welcome j numFields input) fun _ =>
      Agree i {} := by
  unfold welcome
  dsimp only
  split
  · exact .pure fun _ _ h => h.forget
  · refine .ite (fun _ => .pure fun _ _ h => h.forget) fun _ => ?_
    refine .bind (keeps_authenticate _ _) fun ok => .ite (fun _ => ?_) fun _ => ?_
    · exact (blind_close (by decide) (by decide) (fun _ _ => le_rfl) _).pre fun _ _ h => h.forget
    · refine .bind (keeps_field fun _ _ _ h => h.seqNum) fun _ => ?_
      refine .bind (keeps_prepare (by decide : 1 ≤ 3) _ _ _) fun _ => .bind (keeps_shared _) fun _ => ?_
      refine .bind (keeps_field fun _ _ _ h => h.receiveTimeout) fun _ => ?_
      exact .bind (keeps_emit _) fun _ => keeps_sendPacket.post fun _ _ _ h => h.forget

theorem keeps_discoverResponse (hv : 1 ≤ v.stage i) :
    Keeps (P := P) i v (discoverResponse j) :=
  .bind (keeps_prepare hv _ _ _) fun _ => .bind (keeps_shared _) fun _ =>
    .bind (keeps_emit _) fun _ => keeps_sendPacket

end Sedona.Sox.Slots
