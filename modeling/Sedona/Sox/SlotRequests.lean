import Sedona.Sox.SlotAgreement

/-!
# Agreement over Requests and Responses

What the functions of `SoxCommands` make of two devices that agree on a slot: the packets that are
sent from both are the same, and the devices agree after it. The one exception is the request for
all tree events, whose answer reads a number of the packet that nothing has set.

## Main results

* `blind_send`: a packet that has all its command needs is sent from both.
* `blind_subscribeReq`: the request that needs a fact about the packet.
* `blind_nextPacket`: both devices take the same packet.
-/

namespace Sedona.Sox.Slots

open Function OutStream BufInStream

variable {P : Platform} {α : Type} {i j : Fin watchMax} {k : Fin sendMax} {v : View}

/-! ### Messages -/

theorem keeps_sendPacket : Keeps (P := P) i v (sendPacket j) :=
  .bind keeps_ticks fun _ =>
    .bind (keeps_assign fun _ _ _ h => { h with lastSendTicks := rfl }) fun _ =>
      .bind (keeps_field fun _ _ _ h => h.addr) fun _ => keeps_assignShared _

theorem keeps_prepare (hv : 1 ≤ v.stage i) (msgType seqNum : BitVec 32) (headers : BitVec 8) :
    Keeps (P := P) i v (prepare j msgType seqNum headers) :=
  .bind keeps_clear fun _ =>
    .bind (keeps_field fun _ _ _ h => h.remoteId hv) fun _ => keeps_emit _

theorem keeps_setAckHeaders (hv : 3 ≤ v.stage i) (hlive : v.live = some j)
    (hseen : v.seen = fun _ _ _ => True) :
    Keeps (P := P) i v (setAckHeaders j) := by
  have hwindow : j = i → ∀ s t : SoxSession P, SlotAlike v i s t →
      s.receiveWindow = t.receiveWindow := by
    rintro rfl s t h
    exact h.receiveWindow hv (h.live hlive)
  refine .bind (keeps_field fun hj s t h => by rw [hwindow hj s t h]) fun acked => ?_
  split
  · exact keeps_pure _
  · refine .bind (keeps_field hwindow) fun w => ?_
    refine .bind (keeps_assign fun hj s t h => ?_) fun _ => keeps_pure _
    exact { h with
      receiveWindow := fun _ _ => by rw [hwindow hj s t h]
      seen := hseen ▸ trivial }

theorem keeps_keepAlive (hv : 3 ≤ v.stage i) (hlive : v.live = some j)
    (hseen : v.seen = fun _ _ _ => True) :
    Keeps (P := P) i v (keepAlive j) := by
  refine .bind (keeps_assign fun hj s t h => ?_) fun _ => ?_
  · exact { h with
      receiveWindow := fun h3 hc => by rw [h.receiveWindow h3 hc]
      seen := hseen ▸ trivial }
  · refine .bind (keeps_setAckHeaders hv hlive hseen) fun headers => ?_
    exact .bind (keeps_prepare (Nat.le_trans (by decide) hv) _ _ _) fun _ =>
      .bind (keeps_emit _) fun _ => keeps_sendPacket

/-! ### Closing -/

/-- The slot is closed without a transfer. -/
def Shut (j : Fin watchMax) (d e : Device P) : Prop :=
  (d.sessions j).transfer.Idle ∧ (e.sessions j).transfer.Idle

/-- The file is closed, and the transfer stays as it was otherwise. -/
theorem blind_closeFile : Blind (Agree (P := P) i v) (closeFile j) fun _ d e => Agree i v d e ∧
    (d.sessions j).transfer.file.fp = none ∧ (e.sessions j).transfer.file.fp = none := by
  have hfp : j = i → ∀ s t : SoxSession P, SlotAlike v i s t →
      s.transfer.file.fp = t.transfer.file.fp := by
    intro _ s t h
    rcases h.transfer with heq | ⟨-, hs, ht, -⟩
    · rw [heq]
    · rw [hs.2, ht.2]
  refine .bind (blind_field hfp) fun fp => ?_
  cases fp with
  | none => exact .pure fun d e h => h
  | some fp =>
      -- a file that is open belongs to a transfer that both states have
      let w : View := { v with active := if j = i then some j else v.active }
      have hactive : ∀ d e : Device P, (Agree i v d e ∧
          (d.sessions j).transfer.file.fp = some fp ∧ (e.sessions j).transfer.file.fp = some fp) →
          Agree i w d e := by
        rintro d e ⟨h, hd, -⟩
        refine ⟨h.shared, h.others, h.slot.weaken le_rfl h.slot.live
          (fun k => ⟨h.slot.packets k, id⟩) (fun hw => ?_) id h.slot.window (fun _ _ _ h => h)⟩
        refine h.slot.transfer.resolve_right fun hc => ?_
        by_cases hj : j = i
        · subst hj
          rw [hc.2.1.2] at hd
          cases hd
        · exact hc.1 ((if_neg hj).symm.trans hw)
      refine Blind.pre ?_ hactive
      have hsame : j = i → ∀ s t : SoxSession P, SlotAlike w i s t → s.transfer = t.transfer := by
        rintro rfl s t h
        exact h.transfer.resolve_right fun hc => hc.1 (if_pos rfl)
      refine .bind (keeps_field fun hj s t h => by rw [hsame hj s t h]) fun store => ?_
      refine .bind (keeps_changeApp _) fun _ => ?_
      refine blind_assign_and (v := w) (fun _ _ h => h) (fun hj s t h => ?_) (fun hj s t h => ?_) ?_
      · have heq := hsame hj s t h
        refine { h with live := h.live, transfer := Or.inl (by rw [heq]), freed := fun hc hw => ?_ }
        have hidle := h.freed hc hw
        exact ⟨⟨hidle.1.1, rfl⟩, hidle.2.1, rfl⟩
      · refine h.weaken le_rfl h.live (fun k => ⟨h.packets k, id⟩) (fun hv => ?_) id h.window (fun _ _ _ h => h)
        exact h.transfer.resolve_right fun hc => hc.1 ((if_neg hj).trans hv)
      · intro d e d' e' _ hd he
        rw [hd, he]
        exact ⟨rfl, rfl⟩

theorem keeps_closeFile : Keeps (P := P) i v (closeFile j) := blind_closeFile.post fun _ _ _ h => h.1

/-- The transfer is closed. -/
theorem blind_resetTransfer : Blind (Agree (P := P) i v) (resetTransfer j) fun _ d e =>
    Agree i v d e ∧ Shut j d e := by
  refine .bind blind_closeFile fun _ => blind_assign_and (fun _ _ h => h.1)
    (fun _ s t h => { h with transfer := ?_, freed := fun hc hw => ?_ }) (fun _ _ _ h => h) ?_
  · rcases h.transfer with heq | ⟨hactive, hs, ht, hcmd⟩
    · exact Or.inl (by rw [heq])
    · exact Or.inr ⟨hactive, ⟨rfl, hs.2⟩, ⟨rfl, ht.2⟩, hcmd⟩
  · have hidle := h.freed hc hw
    exact ⟨⟨rfl, hidle.1.2⟩, rfl, hidle.2.2⟩
  · intro d e d' e' h hd he
    unfold Shut
    rw [hd, he]
    exact ⟨⟨rfl, h.2.1⟩, rfl, h.2.2⟩

/-- A slot that is closed agrees on all that a closed slot has. -/
theorem blind_closeSession {f g : Fin watchMax → ℕ} (hj : 1 ≤ f j) (hne : ∀ l, l ≠ j → g l ≤ f l) :
    Blind (Agree (P := P) i { stage := f }) (closeSession j) fun _ => Agree i { stage := g } := by
  refine .bind (blind_assign (w := { stage := g, closing := decide (j = i) })
    (fun hji s t h => ?_) fun hji s t h => ?_) fun _ => blind_resetTransfer.post ?_
  · subst hji
    exact { h with
      closed := rfl
      watched := rfl
      sync := rfl
      live := fun hc => nomatch hc
      remoteId := fun _ => h.remoteId hj
      nonce := fun _ hc => nomatch hc
      receiveWindow := fun _ hc => nomatch hc
      freed := fun hc => absurd rfl (of_decide_eq_false hc) }
  · exact h.weaken (hne i (Ne.symm hji)) (fun hc => nomatch hc) (fun k => ⟨h.packets k, id⟩)
      (fun hc => nomatch hc) (fun _ => rfl) trivial (fun _ _ _ h => h)
  · rintro _ d e ⟨h, hshut⟩
    refine ⟨h.shared, h.others, { h.slot with freed := fun _ hw => ?_ }⟩
    by_cases hji : j = i
    · subst hji
      exact hshut
    · exact h.slot.freed (decide_eq_false hji) hw

theorem blind_close {f g : Fin watchMax → ℕ} (hi : 1 ≤ f i) (hj : 1 ≤ f j)
    (hne : ∀ l, l ≠ j → g l ≤ f l) (errorCode : BitVec 32) :
    Blind (Agree (P := P) i { stage := f }) (close j errorCode) fun _ => Agree i { stage := g } :=
  .bind (keeps_prepare hi _ _ _) fun _ => .bind (keeps_emit _) fun _ =>
    .bind keeps_sendPacket fun _ => blind_closeSession hj hne

/-! ### Responses -/

section Responses

variable {phase : Phase} {c : BitVec 8}

/-- A packet of the session `j` is worked on. -/
def View.at (j : Fin watchMax) (k : Fin sendMax) (phase : Phase) : View :=
  { live := some j, hand := hold j k phase }

theorem View.at_hand : (View.at j k phase).hand = hold j k phase := rfl

theorem keeps_prepareRes (hphase : phase = .ready ∨ ∃ c, phase = .sending c)
    (hhand : v.hand = hold j k phase) (hv : 3 ≤ v.stage i) (hlive : v.live = some j)
    (hseen : v.seen = fun _ _ _ => True) : Keeps (P := P) i v (prepareRes j k) := by
  have hknows : ∀ p q, Knows p q (some phase) → p.age ≠ 0 ∧ p.Alike q := by
    obtain rfl | ⟨c, rfl⟩ := hphase
    · exact fun p q h => h
    · exact fun p q h => ⟨h.1, h.2.1⟩
  refine .bind (keeps_setAckHeaders hv hlive hseen) fun headers => ?_
  refine .bind (keeps_packetField hhand fun p q h => (hknows p q h).2.seqNum (hknows p q h).1) fun _ => ?_
  refine .bind (keeps_prepare (Nat.le_trans (by decide) hv) _ _ _) fun _ => .bind (keeps_emit _) fun _ => ?_
  refine .bind (keeps_packetField hhand fun p q h => (hknows p q h).2.cmd (hknows p q h).1) fun _ => ?_
  refine .bind (keeps_packetField hhand fun p q h => (hknows p q h).2.replyNum (hknows p q h).1)
    fun _ => keeps_emit _

/-- The packet becomes an error, whatever it was. -/
theorem blind_error (hphase : phase ≠ .taken) (cause : Str) :
    Blind (Agree (P := P) i (View.at j k phase)) (error j k cause) fun _ =>
      Agree i (View.at j k (.sending (code '!'))) :=
  blind_command (code '!') rfl rfl rfl (fun _ => rfl) (fun _ => ⟨rfl, rfl⟩)
    (fun _ _ h => h.replyNum hphase) (fun _ _ _ => rfl) (fun hc => absurd hc (by decide))
    (fun hc => absurd hc (by decide)) (Or.inl (by decide))

theorem Knows.ready {p q : SendPacket} (h : Knows p q (some (.sending c))) :
    Knows p q (some .ready) := ⟨h.1, h.2.1⟩

/-- What is not needed any more is forgotten. -/
theorem Agree.toReady {d e : Device P} (h : Agree i (View.at j k (.sending c)) d e) :
    Agree i (View.at j k .ready) d e := by
  refine h.weaken fun s t hst => hst.weaken le_rfl hst.live (fun l => ?_) (fun hc => nomatch hc) id
    trivial (fun _ _ _ h => h)
  have hl := hst.packets l
  by_cases hlk : j = i ∧ l = k
  · obtain ⟨rfl, rfl⟩ := hlk
    simp only [View.at_hand, hold_self] at hl ⊢
    exact ⟨hl.ready, fun _ => trivial⟩
  · simp only [View.at_hand, hold_of_not hlk] at hl ⊢
    exact ⟨hl, id⟩

theorem Agree.release {d e : Device P} (h : Agree i (View.at j k .ready) d e) :
    Agree i { live := some j } d e := by
  refine h.weaken fun s t hst => hst.weaken le_rfl hst.live (fun l => ?_) (fun hc => nomatch hc) id
    trivial (fun _ _ _ h => h)
  have hl := hst.packets l
  by_cases hlk : j = i ∧ l = k
  · obtain ⟨rfl, rfl⟩ := hlk
    simp only [View.at_hand, hold_self] at hl ⊢
    exact ⟨hl.2, fun _ => trivial⟩
  · simp only [View.at_hand, hold_of_not hlk] at hl ⊢
    exact ⟨hl, id⟩

/-- The command of the packet is read. -/
theorem Agree.toSending {d e : Device P} (h : Agree i (View.at j k .ready) d e)
    (hd : ((d.sessions j).sendWindow.packets k).cmd = c) :
    Agree i (View.at j k (.sending c)) d e := by
  refine ⟨h.shared, h.others, h.slot.weaken le_rfl h.slot.live (fun l => ?_)
    (fun hc => nomatch hc) id trivial (fun _ _ _ h => h)⟩
  have hl := h.slot.packets l
  by_cases hlk : j = i ∧ l = k
  · obtain ⟨rfl, rfl⟩ := hlk
    simp only [View.at_hand, hold_self] at hl ⊢
    exact ⟨⟨hl.1, hl.2, hd⟩, fun _ => trivial⟩
  · simp only [View.at_hand, hold_of_not hlk] at hl ⊢
    exact ⟨hl, id⟩

/-- A packet that needs the transfer is sent in a session that has one. -/
theorem Agree.activate {d e : Device P} (h : Agree i (View.at j k (.sending c)) d e)
    (hc : c ∈ readsTransfer) :
    Agree i { View.at j k (.sending c) with active := some j } d e := by
  refine h.weaken fun s t hst => hst.weaken le_rfl hst.live (fun l => ⟨hst.packets l, id⟩)
    (fun hj => ?_) id trivial (fun _ _ _ h => h)
  obtain rfl := Option.some.inj hj
  refine hst.transfer.resolve_right fun hn => ?_
  have hk := hst.held rfl
  exact hn.2.2.2 k (by simp only [View.at_hand, hold_self, HasCmd]) hk.1 (hk.2.2 ▸ hc)

theorem Agree.deactivate {phase : Phase} {active : Option (Fin watchMax)} {d e : Device P}
    (h : Agree i { View.at j k phase with active } d e) : Agree i (View.at j k phase) d e :=
  h.weaken fun _ _ hst => hst.weaken le_rfl hst.live (fun l => ⟨hst.packets l, id⟩)
    (fun hc => nomatch hc) id trivial (fun _ _ _ h => h)

theorem blind_respond (res : Except Str Bytes) :
    Blind (Agree (P := P) i (View.at j k (.sending c))) (respond j k res) fun _ =>
      Agree i (View.at j k .ready) := by
  cases res with
  | error cause => exact (blind_error Phase.noConfusion cause).post fun _ _ _ h => h.toReady
  | ok payload =>
      exact .bind (keeps_prepareRes (Or.inr ⟨c, rfl⟩) rfl le_rfl rfl rfl) fun _ =>
        (keeps_emit _).post fun _ _ _ h => h.toReady

theorem keeps_user : Keeps (P := P) i v (field j (·.user)) := keeps_field fun _ _ _ h => h.user

theorem keeps_data1 (hc : c ∈ readsData1) :
    Keeps (P := P) i (View.at j k (.sending c)) (packetField j k (·.u2Data1)) :=
  keeps_packetField rfl fun _ _ h => h.2.1.u2Data1 h.1 (h.2.2 ▸ hc)

theorem keeps_data2 (hc : c ∈ readsData2) :
    Keeps (P := P) i (View.at j k (.sending c)) (packetField j k (·.u2Data2)) :=
  keeps_packetField rfl fun _ _ h => h.2.1.u2Data2 h.1 (h.2.2 ▸ hc)

theorem keeps_header : Keeps (P := P) i (View.at j k (.sending c)) (prepareRes j k) :=
  keeps_prepareRes (Or.inr ⟨c, rfl⟩) rfl le_rfl rfl rfl

/-- A payload is the last that a response writes. -/
theorem blind_payload (bs : Bytes) : Blind (Agree (P := P) i (View.at j k (.sending c))) (emit bs)
    fun _ => Agree i (View.at j k .ready) :=
  (keeps_emit _).post fun _ _ _ h => h.toReady

theorem blind_readPropRes :
    Blind (Agree (P := P) i (View.at j k (.sending (code 'R')))) (readPropRes j k) fun _ =>
      Agree i (View.at j k .ready) :=
  .bind (keeps_shared _) fun _ => .bind keeps_user fun _ =>
    .bind (keeps_data1 (by decide)) fun _ => .bind (keeps_data2 (by decide)) fun _ =>
      .bind (keeps_need _) fun _ => blind_respond _

theorem blind_readCompRes :
    Blind (Agree (P := P) i (View.at j k (.sending (code 'C')))) (readCompRes j k) fun _ =>
      Agree i (View.at j k .ready) := by
  refine .bind (keeps_shared _) fun app => .bind (keeps_data1 (by decide)) fun compId => ?_
  split
  · exact (blind_error Phase.noConfusion _).post fun _ _ _ h => h.toReady
  · refine .bind keeps_user fun user => .bind (keeps_need _) fun who => ?_
    split
    · exact (blind_error Phase.noConfusion _).post fun _ _ _ h => h.toReady
    · exact .bind keeps_header fun _ => .bind (keeps_emit _) fun _ =>
        .bind (keeps_data2 (by decide)) fun _ => .bind (keeps_need _) fun _ => blind_payload _

theorem blind_subscribeRes :
    Blind (Agree (P := P) i (View.at j k (.sending (code 'S')))) (subscribeRes j k) fun _ =>
      Agree i (View.at j k .ready) :=
  .bind keeps_header fun _ => .bind (keeps_data1 (by decide)) fun _ => blind_payload _

theorem blind_addRes :
    Blind (Agree (P := P) i (View.at j k (.sending (code 'A')))) (addRes j k) fun _ =>
      Agree i (View.at j k .ready) :=
  .bind keeps_header fun _ => .bind (keeps_data1 (by decide)) fun _ => blind_payload _

theorem blind_versionRes (payload : P.App → Bytes) :
    Blind (Agree i (View.at j k (.sending c))) (versionRes j k payload) fun _ =>
      Agree i (View.at j k .ready) :=
  .bind keeps_header fun _ => .bind (keeps_shared _) fun _ => blind_payload _

theorem blind_queryRes :
    Blind (Agree (P := P) i (View.at j k (.sending (code 'Q')))) (queryRes j k) fun _ =>
      Agree i (View.at j k .ready) :=
  .bind (keeps_shared _) fun _ => .bind (keeps_data1 (by decide)) fun _ =>
    .bind (keeps_data2 (by decide)) fun _ => blind_respond _

theorem blind_errorRes :
    Blind (Agree (P := P) i (View.at j k (.sending (code '!')))) (errorRes j k) fun _ =>
      Agree i (View.at j k .ready) :=
  .bind keeps_header fun _ =>
    .bind (keeps_packetField rfl fun _ _ h => h.2.1.refData h.1 h.2.2) fun _ => blind_payload _

/-- In a session that has a transfer both states have the same one. -/
theorem keeps_transfer {f : FileTransfer P → α} (hactive : v.active = some j) :
    Keeps i v (field j fun s => f s.transfer) := by
  refine keeps_field fun hj s t h => ?_
  subst hj
  rw [h.transfer.resolve_right fun hn => hn.1 hactive]

theorem blind_fileOpenRes :
    Blind (Agree (P := P) i (View.at j k (.sending (code 'F')))) (fileOpenRes j k) fun _ =>
      Agree i (View.at j k .ready) := by
  refine Blind.pre ?_ fun d e h => h.activate (by decide)
  refine .bind (keeps_prepareRes (Or.inr ⟨_, rfl⟩) rfl le_rfl rfl rfl) fun _ => ?_
  refine .bind (keeps_transfer rfl) fun _ => .bind (keeps_transfer rfl) fun _ => ?_
  exact (keeps_emit _).post fun _ _ _ h => h.deactivate.toReady

theorem blind_eventRes :
    Blind (Agree (P := P) i (View.at j k (.sending (code 'e')))) (eventRes j k) fun _ =>
      Agree i (View.at j k .ready) := by
  refine .bind (keeps_shared _) fun app => .bind (keeps_data1 (by decide)) fun compId => ?_
  split
  · exact .bind (blind_error Phase.noConfusion _) fun _ => blind_errorRes
  · exact .bind keeps_header fun _ => .bind (keeps_emit _) fun _ => .bind keeps_user fun _ =>
      .bind (keeps_data2 (by decide)) fun _ => .bind (keeps_need _) fun _ => blind_payload _

theorem blind_fileSendChunk :
    Blind (Agree (P := P) i (View.at j k (.sending (code 'k')))) (fileSendChunk j k) fun _ =>
      Agree i (View.at j k .ready) := by
  refine .bind (keeps_data1 (by decide)) fun _ => .bind (keeps_data2 (by decide)) fun _ => ?_
  refine Blind.pre ?_ fun d e h => h.activate (by decide)
  refine .bind (keeps_prepareRes (Or.inr ⟨_, rfl⟩) rfl le_rfl rfl rfl) fun _ => ?_
  refine .bind (keeps_emit _) fun _ => .bind (keeps_transfer (f := (·.file.store)) rfl) fun _ => ?_
  refine .bind (keeps_transfer (f := (·.file.fp)) rfl) fun _ => .bind (keeps_transfer rfl) fun _ => ?_
  refine .bind (keeps_transfer rfl) fun _ => .bind (keeps_changeApp _) fun _ => ?_
  refine .bind (keeps_onShared _) fun _ => .bind (keeps_shared _) fun _ => ?_
  exact (keeps_emit _).post fun _ _ _ h => h.deactivate.toReady

theorem keeps_known {β : Type} {R : Device P → Device P → Prop} {x : M P Unit} {b : β}
    {S : Device P → Device P → Prop} (h : Blind R x fun _ => S) :
    Blind R (do x; pure b) fun _ => S :=
  .bind h fun _ => .pure fun _ _ h => h

theorem blind_route :
    Blind (Agree (P := P) i (View.at j k (.sending c))) (route j k c) fun _ =>
      Agree i (View.at j k .ready) := by
  refine .ite (fun h => keeps_known (h ▸ blind_readPropRes)) fun _ => ?_
  refine .ite (fun h => keeps_known (h ▸ blind_readCompRes)) fun _ => ?_
  refine .ite (fun h => keeps_known (h ▸ blind_subscribeRes)) fun _ => ?_
  refine .ite (fun h => keeps_known (h ▸ blind_addRes)) fun _ => ?_
  refine .ite (fun _ => keeps_known (blind_versionRes _)) fun _ => ?_
  refine .ite (fun _ => keeps_known (blind_versionRes _)) fun _ => ?_
  refine .ite (fun h => keeps_known (h ▸ blind_queryRes)) fun _ => ?_
  refine .ite (fun h => keeps_known (h ▸ blind_fileOpenRes)) fun _ => ?_
  refine .ite (fun _ => keeps_known (keeps_header.post fun _ _ _ h => h.toReady)) fun _ => ?_
  refine .ite (fun h => keeps_known (h ▸ blind_eventRes)) fun _ => ?_
  refine .ite (fun h => keeps_known (h ▸ blind_fileSendChunk)) fun _ => ?_
  exact .pure fun _ _ h => h.toReady

/-- The command of the packet in hand is read. -/
theorem blind_readCmd : Blind (Agree (P := P) i (View.at j k .ready)) (packetField j k (·.cmd))
    fun c => Agree i (View.at j k (.sending c)) := by
  refine (blind_field (f := fun s => (s.sendWindow.packets k).cmd) fun hj s t h => ?_).post
    fun c d e h => h.1.toSending h.2.1
  subst hj
  exact (h.held rfl).2.cmd (h.held rfl).1

/-- **A packet is sent**, the same one from both states. -/
theorem blind_send : Blind (Agree (P := P) i (View.at j k .ready)) (send j k) fun _ =>
    Agree i (View.at j k .ready) := by
  refine .bind blind_readCmd fun c => .bind blind_route fun known => ?_
  split
  · refine .bind blind_readCmd fun c => ?_
    split
    · rename_i hc
      subst hc
      exact .bind blind_errorRes fun _ => keeps_sendPacket
    · exact keeps_sendPacket.post fun _ _ _ h => h.toReady
  · exact keeps_pure _

end Responses

/-! ### Requests -/

section Requests

variable {c : BitVec 8}

/-- The commands of responses without a payload. -/
def Plain (c : BitVec 8) : Prop :=
  c ≠ code '!' ∧ c ∉ readsData1 ∧ c ∉ readsData2 ∧ c ∉ readsTransfer

instance : Decidable (Plain c) := inferInstanceAs (Decidable (_ ∧ _))

/-- The packet of a request gets its command, with what the command needs. -/
theorem blind_answer {f : SendPacket → SendPacket} (hc : c ≠ code '!' ∧ c ∉ readsTransfer)
    (hcmd : ∀ p, (f p).cmd = c)
    (hkept : ∀ p, (f p).age = p.age ∧ (f p).seqNum = p.seqNum ∧ (f p).replyNum = p.replyNum)
    (hdata1 : c ∈ readsData1 → ∀ p q, (f p).u2Data1 = (f q).u2Data1)
    (hdata2 : c ∈ readsData2 → ∀ p q, (f p).u2Data2 = (f q).u2Data2) :
    Blind (Agree (P := P) i (View.at j k .pending)) (assignPacket j k f) fun _ =>
      Agree i (View.at j k .ready) := by
  refine Blind.post (blind_command c rfl rfl rfl hcmd (fun p => ⟨(hkept p).1, (hkept p).2.1⟩)
    (fun p q h => ?_) (fun h => absurd h hc.1) hdata1 hdata2 (Or.inl hc.2))
    fun _ _ _ h => h.toReady
  rw [(hkept p).2.2, (hkept q).2.2]
  exact h.replyNum Phase.noConfusion

theorem blind_plain (hc : Plain c) :
    Blind (Agree (P := P) i (View.at j k .pending)) (assignPacket j k fun p => { p with cmd := c })
      fun _ => Agree i (View.at j k .ready) :=
  blind_answer ⟨hc.1, hc.2.2.2⟩ (fun _ => rfl) (fun _ => ⟨rfl, rfl, rfl⟩)
    (fun h => absurd h hc.2.1) fun h => absurd h hc.2.2.1

theorem blind_refused (cause : Str) :
    Blind (Agree (P := P) i (View.at j k .pending)) (error j k cause) fun _ =>
      Agree i (View.at j k .ready) :=
  (blind_error Phase.noConfusion cause).post fun _ _ _ h => h.toReady

theorem blind_readReq (hc : c = code 'R' ∨ c = code 'C') (input : BufInStream) :
    Blind (Agree (P := P) i (View.at j k .pending)) (readReq j k c input) fun _ =>
      Agree i (View.at j k .ready) := by
  have hplain : c ≠ code '!' ∧ c ∉ readsTransfer := by
    rcases hc with rfl | rfl <;> decide
  exact blind_answer hplain (fun _ => rfl) (fun _ => ⟨rfl, rfl, rfl⟩) (fun _ _ _ => rfl)
    fun _ _ _ => rfl

theorem blind_queryReq (input : BufInStream) :
    Blind (Agree (P := P) i (View.at j k .pending)) (queryReq j k input) fun _ =>
      Agree i (View.at j k .ready) := by
  refine .ite (fun _ => blind_refused _) fun _ => ?_
  exact blind_answer (c := code 'Q') (by decide) (fun _ => rfl) (fun _ => ⟨rfl, rfl, rfl⟩)
    (fun _ _ _ => rfl) fun _ _ _ => rfl

theorem blind_editReq (hc : Plain c) (what : Edit) (input : BufInStream) :
    Blind (Agree (P := P) i (View.at j k .pending)) (editReq j k what c input) fun _ =>
      Agree i (View.at j k .ready) := by
  refine .bind keeps_user fun user => .bind (keeps_onShared _) fun res => ?_
  cases res with
  | ok _ => exact blind_plain hc
  | error cause => exact blind_refused cause

theorem blind_addReq (input : BufInStream) :
    Blind (Agree (P := P) i (View.at j k .pending)) (addReq j k input) fun _ =>
      Agree i (View.at j k .ready) := by
  refine .bind keeps_user fun user => .bind (keeps_onShared _) fun res => ?_
  cases res with
  | ok compId =>
      exact blind_answer (c := code 'A') (by decide) (fun _ => rfl) (fun _ => ⟨rfl, rfl, rfl⟩)
        (fun _ _ _ => rfl) fun h => absurd h (by decide)
  | error cause => exact blind_refused cause

theorem keeps_eachComp (f : BitVec 8 → BitVec 8) (ids : List ℤ) (n : ℕ) :
    Keeps (P := P) i v (eachComp j f ids n) := by
  induction ids generalizing n with
  | nil => exact keeps_pure n
  | cons id ids ih =>
      refine .bind (keeps_shared _) fun app => ?_
      split
      · exact ih n
      · refine .bind keeps_user fun user => .bind (keeps_need _) fun who => ?_
        exact .ite (fun _ => ih n) fun _ => .bind (keeps_changeApp _) fun _ => ih (n + 1)

/-- The requests for all tree events. -/
def AllTree (input : BufInStream) : Prop := (readMask input).1 = (0xff, 0)

/-- The command is written before what it needs. -/
theorem blind_named {W : SendWindow → SendWindow → Prop}
    (hW : ∀ x y, W x y → W (x.modify k fun p => { p with cmd := c })
      (y.modify k fun p => { p with cmd := c })) :
    Blind (Agree (P := P) i { View.at j k .pending with window := W })
      (assignPacket j k fun p => { p with cmd := c }) fun _ =>
        Agree i { View.at j k (.named c) with window := W } :=
  blind_assignPacket rfl rfl (fun _ _ h => ⟨⟨h.1, h.2.1, h.2.2.1⟩, h.2.2.2, rfl, rfl⟩)
    (Or.inr fun _ _ _ hc => hc.elim) hW fun _ _ _ h => h

/-- A command that has all it needs. -/
theorem Agree.complete {W : SendWindow → SendWindow → Prop} {d e : Device P}
    (h : Agree i { View.at j k (.named c) with window := W } d e)
    (hc : c ≠ code '!' ∧ c ∉ readsData2 ∧ c ∉ readsTransfer)
    (hdata1 : c ∈ readsData1 → j = i → ∀ x y : SendWindow, W x y →
      (x.packets k).u2Data1 = (y.packets k).u2Data1) : Agree i (View.at j k .ready) d e := by
  refine h.weaken fun s t hst => { hst with packets := fun l => ?_, transfer := ?_, window := trivial }
  · have hl := hst.packets l
    by_cases hlk : j = i ∧ l = k
    · obtain ⟨rfl, rfl⟩ := hlk
      simp only [View.at_hand, hold_self] at hl ⊢
      obtain ⟨⟨hage, hages, hseq⟩, hreply, hp, hq⟩ := hl
      exact ⟨hage, {
        age := hages
        seqNum := fun _ => hseq
        cmd := fun _ => hp.trans hq.symm
        replyNum := fun _ => hreply
        refData := fun _ hcmd => absurd (hp.symm.trans hcmd) hc.1
        u2Data1 := fun _ hcmd => hdata1 (hp ▸ hcmd) rfl _ _ hst.window
        u2Data2 := fun _ hcmd => absurd (hp ▸ hcmd) hc.2.1 }⟩
    · simp only [View.at_hand, hold_of_not hlk] at hl ⊢
      exact hl
  · rcases hst.transfer with heq | ⟨hactive, hs, ht, hall⟩
    · exact Or.inl heq
    · refine Or.inr ⟨hactive, hs, ht, fun l hcmd hage => ?_⟩
      by_cases hlk : j = i ∧ l = k
      · obtain ⟨rfl, rfl⟩ := hlk
        have hl := hst.packets l
        simp only [View.at_hand, hold_self] at hl
        rw [hl.2.2.1]
        exact hc.2.2
      · refine hall l ?_ hage
        simp only [View.at_hand, hold_of_not hlk] at hcmd ⊢
        exact hcmd

/-- **A request for all tree events** is answered with a number that it does not set: the packet
must have the same one in both states. -/
theorem blind_subscribeReq {W : SendWindow → SendWindow → Prop} (input : BufInStream)
    (hW : ∀ x y, W x y → W (x.modify k fun p => { p with cmd := code 'S' })
      (y.modify k fun p => { p with cmd := code 'S' }))
    (hall : AllTree input → j = i → ∀ x y : SendWindow, W x y →
      (x.packets k).u2Data1 = (y.packets k).u2Data1) :
    Blind (Agree (P := P) i { View.at j k .pending with window := W }) (subscribeReq j k input)
      fun _ => Agree i (View.at j k .ready) := by
  refine .bind (blind_named hW) fun _ => .ite (fun h => ?_) fun _ => ?_
  · refine Blind.post (keeps_assign fun _ s t h => { h with allTreeEvents := rfl }) fun _ d e hde => ?_
    exact hde.complete (by decide) fun _ => hall (Prod.ext h.2 h.1)
  · refine .bind (keeps_eachComp _ _ _) fun n => Blind.post (P := fun _ =>
      Agree i { View.at j k (.named (code 'S')) with
        window := fun x y => j = i → (x.packets k).u2Data1 = (y.packets k).u2Data1 })
      (blind_assignPacket rfl rfl (fun p q h => h) (Or.inr fun _ _ _ hc => hc.elim)
        (fun x y _ _ => ?_) fun hj _ _ _ h => absurd h hj) fun _ d e h => ?_
    · simp only [SendWindow.modify_self]
    · exact h.complete (by decide) fun _ hj x y hxy => hxy hj

theorem blind_unsubscribeReq (input : BufInStream) :
    Blind (Agree (P := P) i (View.at j k .pending)) (unsubscribeReq j k input) fun _ =>
      Agree i (View.at j k .ready) := by
  have hcomplete : ∀ (d e : Device P), Agree i (View.at j k (.named (code 'U'))) d e →
      Agree i (View.at j k .ready) d e := fun d e h =>
    Agree.complete (W := fun _ _ => True) h (by decide) fun hc => absurd hc (by decide)
  refine .bind (blind_named (W := fun _ _ => True) fun _ _ h => h) fun _ => .ite (fun _ => ?_)
    fun _ => ?_
  · exact Blind.post (keeps_assign fun _ s t h => { h with allTreeEvents := rfl }) fun _ d e h =>
      hcomplete d e h
  · exact .bind (keeps_eachComp _ _ _) fun n => .pure fun d e h => hcomplete d e h

/-! ### File transfers -/

theorem keeps_mode : Keeps (P := P) i v (field j (·.transfer.mode)) := by
  refine keeps_field fun hj s t h => ?_
  rcases h.transfer with heq | ⟨-, hs, ht, -⟩
  · rw [heq]
  · rw [hs.1, ht.1]

/-- An assignment to a transfer that both states have. -/
theorem keeps_assignTransfer {f : FileTransfer P → FileTransfer P} (hactive : v.active = some j)
    (hf : ∀ tx : FileTransfer P, tx.Idle → (f tx).Idle) :
    Keeps i v (assign j fun s => { s with transfer := f s.transfer }) := by
  refine keeps_assign fun hj s t h => ?_
  subst hj
  have heq : s.transfer = t.transfer := h.transfer.resolve_right fun hn => hn.1 hactive
  exact { h with
    transfer := Or.inl (by rw [heq])
    freed := fun hc hw => ⟨hf _ (h.freed hc hw).1, hf _ (h.freed hc hw).2⟩ }

/-- The file of a transfer is opened. -/
theorem blind_openFile (uri : Str) (o : Opening) :
    Blind (Agree (P := P) i (View.at j k .pending)) (openFile j k uri o) fun _ =>
      Agree i (View.at j k .ready) := by
  refine .bind (keeps_shared _) fun store => .bind (keeps_onShared _) fun fp => ?_
  cases fp with
  | none =>
      refine .bind (keeps_assign fun _ s t h => ?_) fun _ => blind_refused _
      refine { h with transfer := ?_, freed := fun hc hw => ?_ }
      · rcases h.transfer with heq | ⟨hactive, hs, ht, hcmd⟩
        · exact Or.inl (by rw [heq])
        · exact Or.inr ⟨hactive, ⟨hs.1, rfl⟩, ⟨ht.1, rfl⟩, hcmd⟩
      · have hidle := h.freed hc hw
        exact ⟨⟨hidle.1.1, rfl⟩, hidle.2.1, rfl⟩
  | some fp =>
      refine .ite (fun _ => .failure) fun _ => ?_
      -- from here on both states have the transfer that is opened
      refine .bind (blind_assign (w := { View.at j k .pending with active := some j })
        (fun hj s t h => ?_) fun hj s t h => ?_) fun _ => ?_
      · subst hj
        refine { h with transfer := Or.inl rfl, freed := fun _ hw => ?_ }
        rw [h.sync, h.live rfl] at hw
        cases hw
      · exact h.weaken le_rfl h.live (fun l => ⟨h.packets l, id⟩)
          (fun hc => absurd (Option.some.inj hc) hj) id trivial (fun _ _ _ h => h)
      · exact Blind.post (blind_command (w := { View.at j k (.sending (code 'F')) with
          active := some j }) (code 'F') rfl rfl rfl (fun _ => rfl) (fun _ => ⟨rfl, rfl⟩)
          (fun _ _ h => h.replyNum Phase.noConfusion) (fun h => absurd h (by decide))
          (fun h => absurd h (by decide)) (fun h => absurd h (by decide)) (Or.inr rfl))
          fun _ _ _ h => h.deactivate.toReady

theorem blind_openTransfer (uri : Str) (o : Opening) :
    Blind (Agree (P := P) i (View.at j k .pending)) (openTransfer j k uri o) fun _ =>
      Agree i (View.at j k .ready) :=
  .ite (fun _ => .bind (keeps_changeApp _) fun _ => blind_openFile uri o) fun _ =>
    blind_openFile uri o

theorem blind_fileOpenReq (input : BufInStream) :
    Blind (Agree (P := P) i (View.at j k .pending)) (fileOpenReq j k input) fun _ =>
      Agree i (View.at j k .ready) := by
  refine .bind keeps_user fun user => .bind (keeps_need _) fun who => ?_
  refine .bind (keeps_need _) fun uri => .bind (keeps_shared _) fun app => ?_
  refine .ite (fun _ => blind_refused _) fun _ => .bind keeps_mode fun mode => ?_
  refine .ite (fun _ => blind_refused _) fun _ => ?_
  refine .bind (keeps_assign fun _ s t h => ?_) fun _ => .bind (keeps_need _) fun method => ?_
  · refine { h with transfer := ?_ }
    rcases h.transfer with heq | ⟨hactive, hs, ht, hcmd⟩
    · exact Or.inl (by rw [heq])
    · exact Or.inr ⟨hactive, hs, ht, hcmd⟩
  · split
    · exact blind_refused _
    · exact blind_openTransfer _ _

theorem blind_fileCloseReq :
    Blind (Agree (P := P) i (View.at j k .pending)) (fileCloseReq j k) fun _ =>
      Agree i (View.at j k .ready) := by
  refine .bind (keeps_assign fun _ s t h => ?_) fun _ => .bind keeps_closeFile fun _ =>
    blind_plain (by decide)
  refine { h with transfer := ?_, freed := fun hc hw => ?_ }
  · rcases h.transfer with heq | ⟨hactive, hs, ht, hcmd⟩
    · exact Or.inl (by rw [heq])
    · exact Or.inr ⟨hactive, ⟨rfl, hs.2⟩, ⟨rfl, ht.2⟩, hcmd⟩
  · have hidle := h.freed hc hw
    exact ⟨⟨rfl, hidle.1.2⟩, rfl, hidle.2.2⟩

/-- A session whose mode is not unused has a transfer. -/
theorem Agree.activateMode {d e : Device P} (h : Agree i { live := some j } d e)
    (hmode : (d.sessions j).transfer.mode ≠ .unused) :
    Agree i { live := some j, active := some j } d e := by
  refine ⟨h.shared, h.others, h.slot.weaken le_rfl h.slot.live (fun l => ⟨h.slot.packets l, id⟩)
    (fun hj => ?_) id trivial (fun _ _ _ h => h)⟩
  obtain rfl := Option.some.inj hj
  exact h.slot.transfer.resolve_right fun hn => hmode hn.2.1.1

theorem Agree.deactivateMode {d e : Device P}
    (h : Agree i { live := some j, active := some j } d e) : Agree i { live := some j } d e :=
  h.weaken fun _ _ hst => hst.weaken le_rfl hst.live (fun l => ⟨hst.packets l, id⟩)
    (fun hc => nomatch hc) id trivial (fun _ _ _ h => h)

/-- The mode of the transfer is read. -/
theorem blind_mode : Blind (Agree (P := P) i { live := some j }) (field j (·.transfer.mode))
    fun mode d e => Agree i { live := some j } d e ∧ (d.sessions j).transfer.mode = mode := by
  refine (blind_field (f := (·.transfer.mode)) fun hj s t h => ?_).post fun _ _ _ h => ⟨h.1, h.2.1⟩
  rcases h.transfer with heq | ⟨-, hs, ht, -⟩
  · rw [heq]
  · rw [hs.1, ht.1]

theorem keeps_fileReceiveChunk (input : BufInStream) :
    Keeps (P := P) i { live := some j } (fileReceiveChunk j input) := by
  refine .bind blind_mode fun mode => .ite (fun _ => .pure fun _ _ h => h.1) fun hmode => ?_
  have hput : mode ≠ .unused := by
    rintro rfl
    exact hmode TransferMode.noConfusion
  refine Blind.pre ?_ fun d e h => h.1.activateMode (h.2 ▸ hput)
  refine .bind (keeps_transfer (f := (·.file.store)) rfl) fun _ => ?_
  refine .bind (keeps_transfer (f := (·.file.fp)) rfl) fun _ => ?_
  refine .bind (keeps_transfer rfl) fun _ => .bind (keeps_transfer rfl) fun _ => ?_
  refine .bind (keeps_changeApp _) fun _ => .bind (keeps_changeApp _) fun _ => ?_
  exact Blind.post (keeps_assignTransfer (f := fun tx => { tx with numChunks := tx.numChunks - 1 })
    rfl fun _ h => h) fun _ _ _ h => h.deactivateMode

/-! ### Taking a packet -/

theorem SendWindow.firstFree_congr {x y : SendWindow}
    (h : ∀ k, (x.packets k).age = (y.packets k).age) : x.firstFree = y.firstFree := by
  simp only [firstFree, h]

/-- **A packet is taken**, the same one from both states. -/
theorem blind_nextPacket {W : SendWindow → SendWindow → Prop}
    {T : Fin sendMax → SendWindow → SendWindow → Prop} (hhand : v.hand = fun _ _ => none)
    (hW : ∀ x y k, v.window x y → x.firstFree = some k → T k (x.take k) (y.take k))
    (hother : j ≠ i → ∀ x y k, v.window x y → T k x y)
    (hnone : ∀ x y, v.window x y → W x y) :
    Blind (Agree (P := P) i v) (nextPacket j) fun
      | none => Agree i { v with window := W }
      | some k => Agree i { v with hand := hold j k .taken, window := T k } := by
  refine .bind (blind_field (f := (·.sendWindow.firstFree)) fun hj s t h => ?_) fun free => ?_
  · refine SendWindow.firstFree_congr fun k => ?_
    have hk := h.packets k
    rw [hhand] at hk
    exact SendPacket.Alike.age hk
  cases free with
  | none =>
      refine .pure fun d e h => h.1.weaken fun s t hst => ?_
      exact { hst with window := hnone _ _ hst.window }
  | some k =>
      let w : View := { v with window := fun x y => v.window x y ∧ (j = i → x.firstFree = some k) }
      refine Blind.pre (R := Agree i w) ?_ fun d e h => ?_
      · refine .bind (blind_assign (w := { v with hand := hold j k .taken, window := T k })
          (fun hj s t h => ?_) fun hj s t h => ?_) fun _ => .pure fun _ _ h => h
        · subst hj
          refine { h with
            seqNum := congrArg (· + 1) h.seqNum
            numUnacked := congrArg (· + 1) h.numUnacked
            packets := fun l => ?_
            transfer := ?_
            window := hW _ _ k h.window.1 (h.window.2 rfl) }
          · by_cases hl : l = k
            · subst hl
              simp only [hold_self, SendWindow.take_self]
              exact ⟨(by decide : (1 : BitVec 8) ≠ 0), rfl, h.seqNum⟩
            · have hpacket := h.packets l
              simp only [w, hhand] at hpacket
              simpa only [hold_of_ne hl, SendWindow.take_of_ne hl] using hpacket
          · rcases h.transfer with heq | ⟨hactive, hs, ht, hall⟩
            · exact Or.inl heq
            · refine Or.inr ⟨hactive, hs, ht, fun l hcmd hage => ?_⟩
              by_cases hl : l = k
              · subst hl
                simp only [hold_self, HasCmd] at hcmd
              · simp only [SendWindow.take_of_ne hl] at hage ⊢
                refine hall l ?_ hage
                simp only [w, hhand, HasCmd]
        · refine { h with packets := fun l => ?_, transfer := ?_, window := hother hj _ _ k h.window.1 }
          · have hl := h.packets l
            simp only [w, hhand] at hl
            simpa only [hold_of_other hj] using hl
          · have htx := h.transfer
            simp only [w, hhand] at htx
            simpa only [hold_of_other hj] using htx
      · refine ⟨h.1.shared, h.1.others, { h.1.slot with window := ⟨h.1.slot.window, fun hj => ?_⟩ }⟩
        exact hj ▸ h.2.1

end Requests

end Sedona.Sox.Slots
