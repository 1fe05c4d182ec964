import Sedona.Library.TwoRuns
import Sedona.Sox.SoxCommands

/-!
# Agreement of Two Devices on a Slot

When a slot is opened again, some of what its last session left there stays: packets of the send
window that are free, the description of a transfer that is closed, and for a moment the id of the
last client. `Agree` relates two states of the device that differ only in such data of one slot,
and `View` says what is known of the slot while a function runs. The rules of this module are those
of `Blind` for the constructs that the functions of the device are made of.

## Main results

* `keeps_onShared`: what no session has a part in keeps the agreement.
* `keeps_field`, `blind_assign`: reading and writing the fields of a session.
* `blind_assignPacket`: writing the packet in hand.
-/

namespace Sedona.Sox.Slots

open Function OutStream BufInStream

variable {P : Platform} {α : Type}

/-! ### What two states of a slot agree on -/

/-- The responses that read `u2Data1`. -/
def readsData1 : List (BitVec 8) := ['R', 'C', 'S', 'A', 'Q', 'k', 'e'].map code

/-- The responses that read `u2Data2`. -/
def readsData2 : List (BitVec 8) := ['R', 'C', 'Q', 'k', 'e'].map code

/-- The responses that read the transfer. -/
def readsTransfer : List (BitVec 8) := ['F', 'k'].map code

/-- Packets that are free, or that are sent again as the same messages. -/
structure SendPacket.Alike (p q : SendPacket) : Prop where
  age : p.age = q.age
  seqNum (h : p.age ≠ 0) : p.seqNum = q.seqNum
  cmd (h : p.age ≠ 0) : p.cmd = q.cmd
  replyNum (h : p.age ≠ 0) : p.replyNum = q.replyNum
  refData (h : p.age ≠ 0) (hc : p.cmd = code '!') : p.refData = q.refData
  u2Data1 (h : p.age ≠ 0) (hc : p.cmd ∈ readsData1) : p.u2Data1 = q.u2Data1
  u2Data2 (h : p.age ≠ 0) (hc : p.cmd ∈ readsData2) : p.u2Data2 = q.u2Data2

/-- How far a function is with the packet it works on. -/
inductive Phase where
  /-- `nextPacket` has returned it. -/
  | taken
  /-- It has its reply number. -/
  | pending
  /-- It has its command, and not yet what the command needs. -/
  | named (cmd : BitVec 8)
  /-- It has all that its command needs. -/
  | ready
  /-- Its command is known. -/
  | sending (cmd : BitVec 8)

/-- What is known of a packet. -/
def Knows (p q : SendPacket) : Option Phase → Prop
  | none => p.Alike q
  | some .taken => p.age ≠ 0 ∧ p.age = q.age ∧ p.seqNum = q.seqNum
  | some .pending => p.age ≠ 0 ∧ p.age = q.age ∧ p.seqNum = q.seqNum ∧ p.replyNum = q.replyNum
  | some (.named cmd) => (p.age ≠ 0 ∧ p.age = q.age ∧ p.seqNum = q.seqNum) ∧
      p.replyNum = q.replyNum ∧ p.cmd = cmd ∧ q.cmd = cmd
  | some .ready => p.age ≠ 0 ∧ p.Alike q
  | some (.sending cmd) => p.age ≠ 0 ∧ p.Alike q ∧ p.cmd = cmd

/-- Whether the packet has a command. -/
def HasCmd : Option Phase → Prop
  | some .taken | some .pending | some (.named _) => False
  | _ => True

/-- The packet `k` of the session `j` is in hand. -/
def hold (j : Fin watchMax) (k : Fin sendMax) (phase : Phase) (i : Fin watchMax)
    (l : Fin sendMax) : Option Phase :=
  if j = i ∧ l = k then some phase else none

/-- No transfer is open. -/
def FileTransfer.Idle (tx : FileTransfer P) : Prop := tx.mode = .unused ∧ tx.file.fp = none

/-- What is known of the slot while a function runs. -/
structure View where
  /-- 0 after a slot is opened, 1 with the id of the client, 2 with the nonce, 3 with its receive
  window. -/
  stage : Fin watchMax → ℕ := fun _ => 3
  /-- The session that is known to be open. -/
  live : Option (Fin watchMax) := none
  hand : Fin watchMax → Fin sendMax → Option Phase := fun _ _ => none
  /-- The session that is known to have a transfer. -/
  active : Option (Fin watchMax) := none
  /-- Whether the slot is being closed. -/
  closing : Bool := false
  window : SendWindow → SendWindow → Prop := fun _ _ => True
  /-- What is known of the fields that say whether a datagram is processed. -/
  seen : Bool → BitVec 8 → Dasp.ReceiveWindow → Prop := fun _ _ _ => True

/-- Two states of the slot `i` that differ only in what is not read any more. -/
structure SlotAlike (v : View) (i : Fin watchMax) (s t : SoxSession P) : Prop where
  watched : s.watched = t.watched
  rand : s.rand = t.rand
  closed : s.closed = t.closed
  addr : s.addr = t.addr
  receiveTimeout : s.receiveTimeout = t.receiveTimeout
  lastReceiveTicks : s.lastReceiveTicks = t.lastReceiveTicks
  lastSendTicks : s.lastSendTicks = t.lastSendTicks
  allTreeEvents : s.allTreeEvents = t.allTreeEvents
  user : s.user = t.user
  sync : s.watched = !s.closed
  live (h : v.live = some i) : s.closed = false
  remoteId (h : 1 ≤ v.stage i) : s.remoteId = t.remoteId
  nonce (h : 2 ≤ v.stage i) (hc : s.closed = false) : s.nonce = t.nonce
  receiveWindow (h : 3 ≤ v.stage i) (hc : s.closed = false) : s.receiveWindow = t.receiveWindow
  seqNum : s.sendWindow.seqNum = t.sendWindow.seqNum
  numUnacked : s.sendWindow.numUnacked = t.sendWindow.numUnacked
  packets (k : Fin sendMax) :
    Knows (s.sendWindow.packets k) (t.sendWindow.packets k) (v.hand i k)
  transfer : s.transfer = t.transfer ∨ v.active ≠ some i ∧ s.transfer.Idle ∧ t.transfer.Idle ∧
    ∀ k, HasCmd (v.hand i k) → (s.sendWindow.packets k).age ≠ 0 →
      (s.sendWindow.packets k).cmd ∉ readsTransfer
  freed (h : v.closing = false) (hw : s.watched = false) : s.transfer.Idle ∧ t.transfer.Idle
  window : v.window s.sendWindow t.sendWindow
  seen : v.seen s.closed s.rand s.receiveWindow

/-- Two states of the device that differ only in what the slot `i` does not read any more. -/
structure Agree (i : Fin watchMax) (v : View) (d e : Device P) : Prop where
  shared : d.shared = e.shared
  others {j : Fin watchMax} (h : j ≠ i) : d.sessions j = e.sessions j
  slot : SlotAlike v i (d.sessions i) (e.sessions i)

/-! ### Rules for the device -/

section Rules

variable {i j : Fin watchMax} {v w : View}

/-- A program that keeps the agreement. -/
abbrev Keeps (i : Fin watchMax) (v : View) (x : M P α) : Prop :=
  Blind (Agree i v) x fun _ => Agree i v

theorem Agree.weaken {d e : Device P} (h : Agree i v d e)
    (hslot : ∀ s t : SoxSession P, SlotAlike v i s t → SlotAlike w i s t) : Agree i w d e :=
  ⟨h.shared, h.others, hslot _ _ h.slot⟩

theorem keeps_onShared (x : StateT (Shared P) Option α) : Keeps i v (onShared x) := by
  intro d e h
  change Option.Rel _ ((x d.shared).map _) ((x e.shared).map _)
  rw [← h.shared]
  cases x d.shared with
  | none => exact .none
  | some r => exact .some ⟨rfl, rfl, h.others, h.slot⟩

theorem keeps_shared (f : Shared P → α) : Keeps i v (shared f) := keeps_onShared _

theorem keeps_assignShared (f : Shared P → Shared P) : Keeps i v (assignShared f) :=
  keeps_onShared _

theorem keeps_changeApp (f : P.App → P.App) : Keeps i v (changeApp f) :=
  keeps_assignShared _

theorem keeps_ticks : Keeps i v (ticks : M P ℤ) := keeps_onShared _

theorem keeps_rand : Keeps i v (rand : M P (BitVec 32)) := keeps_onShared _

theorem keeps_clear : Keeps i v (clear : M P Unit) := keeps_assignShared _

theorem keeps_emit (bs : Bytes) : Keeps i v (emit bs : M P Unit) :=
  keeps_assignShared _

theorem keeps_pure (a : α) : Keeps i v (pure a : M P α) := .pure fun _ _ h => h

theorem keeps_need (a : Option α) : Keeps i v (need a : M P α) := by
  cases a with
  | none => exact .failure
  | some a => exact keeps_pure a

/-- A field that the states agree on is read. -/
theorem blind_field {f : SoxSession P → α}
    (h : j = i → ∀ s t, SlotAlike v i s t → f s = f t) :
    Blind (Agree i v) (field j f) fun a d e =>
      Agree i v d e ∧ f (d.sessions j) = a ∧ f (e.sessions j) = a := by
  refine .read fun d e hde => ?_
  by_cases hj : j = i
  · subst hj
    exact h rfl _ _ hde.slot
  · rw [hde.others hj]

theorem keeps_field {f : SoxSession P → α} (h : j = i → ∀ s t, SlotAlike v i s t → f s = f t) :
    Keeps i v (field j f) :=
  (blind_field h).post fun _ _ _ hde => hde.1

/-- An assignment after which the states of the slot still agree. -/
theorem Agree.assign {d e : Device P} (h : Agree i v d e) {f : SoxSession P → SoxSession P}
    (hslot : j = i → ∀ s t, SlotAlike v i s t → SlotAlike w i (f s) (f t))
    (hother : j ≠ i → ∀ s t : SoxSession P, SlotAlike v i s t → SlotAlike w i s t) :
    Agree i w { d with sessions := update d.sessions j (f (d.sessions j)) }
      { e with sessions := update e.sessions j (f (e.sessions j)) } := by
  refine ⟨h.shared, fun {l} hl => ?_, ?_⟩
  · by_cases hlj : l = j
    · subst hlj
      simp only [update_self, h.others hl]
    · simp only [update_of_ne hlj, h.others hl]
  · by_cases hj : j = i
    · subst hj
      simpa only [update_self] using hslot rfl _ _ h.slot
    · simpa only [update_of_ne (Ne.symm hj)] using hother hj _ _ h.slot

/-- An assignment, and what else it makes true of the session. -/
theorem blind_assign_and {f : SoxSession P → SoxSession P} {R Q : Device P → Device P → Prop}
    (hR : ∀ d e, R d e → Agree i v d e)
    (hslot : j = i → ∀ s t, SlotAlike v i s t → SlotAlike w i (f s) (f t))
    (hother : j ≠ i → ∀ s t : SoxSession P, SlotAlike v i s t → SlotAlike w i s t)
    (hQ : ∀ d e d' e', R d e → d'.sessions j = f (d.sessions j) →
      e'.sessions j = f (e.sessions j) → Q d' e') :
    Blind R (assign j f) fun _ d e => Agree i w d e ∧ Q d e :=
  .write fun d e h => ⟨(hR d e h).assign hslot hother,
    hQ d e _ _ h (update_self ..) (update_self ..)⟩

theorem blind_assign {f : SoxSession P → SoxSession P}
    (hslot : j = i → ∀ s t, SlotAlike v i s t → SlotAlike w i (f s) (f t))
    (hother : j ≠ i → ∀ s t : SoxSession P, SlotAlike v i s t → SlotAlike w i s t) :
    Blind (Agree i v) (assign j f) fun _ => Agree i w :=
  .write fun _ _ h => h.assign hslot hother

theorem keeps_assign {f : SoxSession P → SoxSession P}
    (h : j = i → ∀ s t, SlotAlike v i s t → SlotAlike v i (f s) (f t)) : Keeps i v (assign j f) :=
  blind_assign h fun _ _ _ h => h

end Rules

/-! ### Packets in hand -/

section Hands

variable {i j : Fin watchMax} {k l : Fin sendMax} {v w : View} {p q : SendPacket} {phase : Phase}

@[simp] theorem hold_self : hold i k phase i k = some phase := if_pos ⟨rfl, rfl⟩

theorem hold_of_not (h : ¬(j = i ∧ l = k)) : hold j k phase i l = none := if_neg h

theorem hold_of_ne (h : l ≠ k) : hold j k phase i l = none := hold_of_not fun hc => h hc.2

theorem hold_of_other (h : j ≠ i) : hold j k phase i l = none := hold_of_not fun hc => h hc.1

theorem Knows.alike {phase : Option Phase} (h : Knows p q phase) (hc : HasCmd phase) :
    p.Alike q := by
  match phase with
  | none => exact h
  | some .taken => exact hc.elim
  | some .pending => exact hc.elim
  | some (.named _) => exact hc.elim
  | some .ready => exact h.2
  | some (.sending _) => exact h.2.1

/-- What is known of the slot, seen in another way. -/
theorem SlotAlike.weaken {s t : SoxSession P} (h : SlotAlike v i s t)
    (hstage : w.stage i ≤ v.stage i) (hlive : w.live = some i → s.closed = false)
    (hhand : ∀ k, Knows (s.sendWindow.packets k) (t.sendWindow.packets k) (w.hand i k) ∧
      (HasCmd (w.hand i k) → HasCmd (v.hand i k)))
    (hactive : w.active = some i → s.transfer = t.transfer)
    (hclosing : w.closing = false → v.closing = false)
    (hwindow : w.window s.sendWindow t.sendWindow)
    (hseen : ∀ c r x, v.seen c r x → w.seen c r x) :
    SlotAlike w i s t :=
  { h with
    live := hlive
    remoteId := fun hw => h.remoteId (hw.trans hstage)
    nonce := fun hw => h.nonce (hw.trans hstage)
    receiveWindow := fun hw => h.receiveWindow (hw.trans hstage)
    packets := fun k => (hhand k).1
    transfer := by
      rcases h.transfer with heq | ⟨-, hs, ht, hcmd⟩
      · exact Or.inl heq
      · by_cases hw : w.active = some i
        · exact Or.inl (hactive hw)
        · exact Or.inr ⟨hw, hs, ht, fun k hk => hcmd k ((hhand k).2 hk)⟩
    freed := fun hw => h.freed (hclosing hw)
    window := hwindow
    seen := hseen _ _ _ h.seen }

/-- A packet in hand. -/
theorem SlotAlike.held {s t : SoxSession P} (h : SlotAlike v i s t)
    (hhand : v.hand = hold i k phase) :
    Knows (s.sendWindow.packets k) (t.sendWindow.packets k) (some phase) := by
  simpa only [hhand, hold_self] using h.packets k

theorem keeps_packetField {α : Type} {f : SendPacket → α} (hhand : v.hand = hold j k phase)
    (hf : ∀ p q, Knows p q (some phase) → f p = f q) :
    Keeps (P := P) i v (packetField j k f) := by
  refine keeps_field fun hj s t h => ?_
  subst hj
  exact hf _ _ (h.held hhand)

theorem SendWindow.modify_self {x : SendWindow} {f : SendPacket → SendPacket} :
    (x.modify k f).packets k = f (x.packets k) := update_self ..

theorem SendWindow.modify_of_ne {x : SendWindow} {f : SendPacket → SendPacket} (h : l ≠ k) :
    (x.modify k f).packets l = x.packets l := update_of_ne h ..

theorem SendWindow.take_self {x : SendWindow} : (x.take k).packets k =
    { x.packets k with cmd := code '?', age := 1, seqNum := x.seqNum } := update_self ..

theorem SendWindow.take_of_ne {x : SendWindow} (h : l ≠ k) :
    (x.take k).packets l = x.packets l := update_of_ne h ..

/-- The age and the number of a packet in hand are known in every phase. -/
theorem Knows.age (h : Knows p q (some phase)) : p.age ≠ 0 ∧ p.age = q.age ∧ p.seqNum = q.seqNum := by
  match phase with
  | .taken => exact h
  | .pending => exact ⟨h.1, h.2.1, h.2.2.1⟩
  | .named _ => exact h.1
  | .ready => exact ⟨h.1, h.2.age, h.2.seqNum h.1⟩
  | .sending _ => exact ⟨h.1, h.2.1.age, h.2.1.seqNum h.1⟩

theorem Knows.replyNum (h : Knows p q (some phase)) (hphase : phase ≠ .taken) :
    p.replyNum = q.replyNum := by
  match phase with
  | .taken => exact absurd rfl hphase
  | .pending => exact h.2.2.2
  | .named _ => exact h.2.1
  | .ready => exact h.2.replyNum h.1
  | .sending _ => exact h.2.1.replyNum h.1

/-- An assignment to the packet in hand. -/
theorem blind_assignPacket {f : SendPacket → SendPacket} {phase' : Phase}
    (hhand : v.hand = hold j k phase)
    (hw : w = { v with hand := hold j k phase', window := w.window })
    (hknows : ∀ p q, Knows p q (some phase) → Knows (f p) (f q) (some phase'))
    (hcmd : v.active = some j ∨ ∀ p, p.age ≠ 0 → (HasCmd (some phase) → p.cmd ∉ readsTransfer) →
      HasCmd (some phase') → (f p).cmd ∉ readsTransfer)
    (hwindow : ∀ x y, v.window x y → w.window (x.modify k f) (y.modify k f))
    (hother : j ≠ i → ∀ x y, v.window x y → w.window x y) :
    Blind (Agree (P := P) i v) (assignPacket j k f) fun _ => Agree i w := by
  rw [hw]
  refine blind_assign (fun hj s t h => ?_) (fun hj s t h => ?_)
  · subst hj
    refine { h with packets := fun l => ?_, transfer := ?_, window := hwindow _ _ h.window }
    · by_cases hl : l = k
      · subst hl
        simpa only [hold_self, SendWindow.modify_self] using hknows _ _ (h.held hhand)
      · simpa only [hhand, hold_of_ne hl, SendWindow.modify_of_ne hl] using h.packets l
    · rcases h.transfer with heq | ⟨hactive, hs, ht, hall⟩
      · exact Or.inl heq
      · refine Or.inr ⟨hactive, hs, ht, fun l => ?_⟩
        have hl := hall l
        rw [hhand] at hl
        by_cases hlk : l = k
        · subst hlk
          simp only [hold_self] at hl
          simp only [hold_self, SendWindow.modify_self]
          have hage := (h.held hhand).age.1
          exact fun hhas _ => (hcmd.resolve_left hactive) _ hage (fun hp => hl hp hage) hhas
        · simpa only [hold_of_ne hlk, SendWindow.modify_of_ne hlk] using hl
  · refine h.weaken le_rfl h.live (fun l => ?_) (fun hc => ?_) id (hother hj _ _ h.window) (fun _ _ _ h => h)
    · have hl := h.packets l
      simp only [hhand, hold_of_other hj] at hl ⊢
      exact ⟨hl, id⟩
    · exact h.transfer.resolve_right fun hn => hn.1 hc

/-- The packet gets its command, with what the command needs. -/
theorem blind_command {f : SendPacket → SendPacket} (c : BitVec 8)
    (hhand : v.hand = hold j k phase)
    (hw : w = { v with hand := hold j k (.sending c), window := w.window })
    (hwindow : w.window = fun _ _ => True)
    (hcmd : ∀ p, (f p).cmd = c)
    (hkept : ∀ p, (f p).age = p.age ∧ (f p).seqNum = p.seqNum)
    (hreply : ∀ p q, Knows p q (some phase) → (f p).replyNum = (f q).replyNum)
    (href : c = code '!' → ∀ p q, (f p).refData = (f q).refData)
    (hdata1 : c ∈ readsData1 → ∀ p q, (f p).u2Data1 = (f q).u2Data1)
    (hdata2 : c ∈ readsData2 → ∀ p q, (f p).u2Data2 = (f q).u2Data2)
    (htransfer : c ∉ readsTransfer ∨ v.active = some j) :
    Blind (Agree (P := P) i v) (assignPacket j k f) fun _ => Agree i w := by
  refine blind_assignPacket hhand hw (fun p q h => ?_) ?_ (fun _ _ _ => ?_) fun _ _ _ _ => ?_
  · obtain ⟨hage, hages, hseq⟩ := h.age
    refine ⟨by rwa [(hkept p).1], ?_, hcmd p⟩
    · exact {
        age := by rw [(hkept p).1, (hkept q).1, hages]
        seqNum := fun _ => by rw [(hkept p).2, (hkept q).2, hseq]
        cmd := fun _ => by rw [hcmd, hcmd]
        replyNum := fun _ => hreply p q h
        refData := fun _ hc => href ((hcmd p).symm.trans hc) p q
        u2Data1 := fun _ hc => hdata1 (hcmd p ▸ hc) p q
        u2Data2 := fun _ hc => hdata2 (hcmd p ▸ hc) p q }
  · rcases htransfer with hc | hactive
    · exact Or.inr fun p _ _ _ => by rwa [hcmd]
    · exact Or.inl hactive
  · rw [hwindow]
    trivial
  · rw [hwindow]
    trivial

end Hands

end Sedona.Sox.Slots
