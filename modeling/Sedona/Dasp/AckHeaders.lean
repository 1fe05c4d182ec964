import Sedona.Dasp.DaspMsg
import Sedona.Dasp.DeviceSendWindow
import Sedona.Dasp.DeviceWindow
import Sedona.Dasp.SendWindow
import Sedona.Sys.Stream

/-!
# Ack Headers on Both Sides

The ack headers are built by two receive windows and read by two send windows. Both readers take
the same numbers as acknowledged, and these are numbers that the window has received. What is
marked beyond the bytes that there is room for in `ackMore` is not acknowledged.

## Main results

* `Holds.acks`: the device reads ack headers as the client does.
* `ack_headers_exact`: the numbers that the headers of a window acknowledge.
* `not_ack_headers_exact`: the ninth number after the start is left out by the device.
-/

namespace Sedona

/-! ### Reading from a stream -/

/-- The bytes that come next in the stream. -/
structure BufInStream.Holds (s : BufInStream) (bs : List (BitVec 8)) : Prop where
  size : s.pos + bs.length ≤ s.size
  bytes (i : ℕ) (h : i < bs.length) : s.bytes (s.pos + i) = bs[i]

theorem bind_of_eq {α β : Type} {x : StateM BufInStream α} {f : α → StateM BufInStream β}
    {s t : BufInStream} {a : α} (h : x s = (a, t)) : (x >>= f) s = f a t := by
  change f (x s).1 (x s).2 = _
  rw [h]

namespace BufInStream.Holds

variable {s : BufInStream} {b : BitVec 8} {bs : List (BitVec 8)}

/-- The stream after `n` bytes. -/
def skipped (s : BufInStream) (n : ℕ) : BufInStream := { s with pos := s.pos + n }

theorem left {l : List (BitVec 8)} (h : s.Holds (l ++ bs)) : s.Holds l where
  size := by
    have := h.size
    rw [List.length_append] at this
    omega
  bytes i hi := (h.bytes i (by rw [List.length_append]; omega)).trans (List.getElem_append_left hi)

theorem read (h : s.Holds (b :: bs)) :
    BufInStream.read s = ((b.toNat : ℤ), skipped s 1) ∧ (skipped s 1).Holds bs := by
  have hsize := h.size
  rw [List.length_cons] at hsize
  refine ⟨?_, ⟨?_, fun i hi => ?_⟩⟩
  · have hb := h.bytes 0 (Nat.succ_pos _)
    unfold BufInStream.read
    rw [if_neg (by omega)]
    rw [Nat.add_zero, List.getElem_cons_zero] at hb
    rw [hb]
    rfl
  · change s.pos + 1 + bs.length ≤ s.size
    omega
  · have hb := h.bytes (i + 1) (by rw [List.length_cons]; omega)
    rw [List.getElem_cons_succ] at hb
    rw [← hb]
    exact congrArg s.bytes (by change s.pos + 1 + i = _; omega)

theorem readU2 {val : ℤ} (h : s.Holds (Dasp.DaspMsg.u2 val ++ bs)) :
    BufInStream.readU2 s = (val % 65536, skipped s 2) ∧ (skipped s 2).Holds bs := by
  obtain ⟨hhi, h₁⟩ := h.read
  obtain ⟨hlo, h₂⟩ := h₁.read
  have hpair : (if ((BitVec.ofInt 8 (val / 256)).toNat : ℤ) < 0 ∨ ((BitVec.ofInt 8 val).toNat : ℤ) < 0
      then -1 else ((BitVec.ofInt 8 (val / 256)).toNat : ℤ) * 256 + (BitVec.ofInt 8 val).toNat) =
      val % 65536 := by
    simp only [BitVec.toNat_ofInt]
    split <;> omega
  refine ⟨(bind_of_eq hhi).trans ((bind_of_eq hlo).trans ?_), h₂⟩
  exact Prod.ext hpair rfl

theorem skip {n : ℕ} (h : s.Holds bs) (hn : bs.length = n) :
    BufInStream.skip n s = ((), skipped s n) := by
  unfold BufInStream.skip
  rw [Int.toNat_natCast]
  induction n generalizing s bs with
  | zero => rfl
  | succ n ih =>
    cases bs with
    | nil => cases hn
    | cons b bs =>
      obtain ⟨hread, hrest⟩ := h.read
      refine (bind_of_eq hread).trans ?_
      rw [ih hrest (Nat.succ.inj hn)]
      simp only [skipped, Nat.add_assoc, Nat.add_comm 1 n]

end BufInStream.Holds

namespace Dasp

open DaspMsg

/-! ### Ack headers -/

/-- The message with these headers. -/
def AckFields.msg (h : AckFields) : DaspMsg := { ack := h.ack, ackMore := h.ackMore }

/-- The headers as they are encoded. -/
def AckFields.wire (h : AckFields) : Option (List (BitVec 8)) :=
  (h.msg.fields.mapM Field.encode).map List.flatten

/-- The bytes that `ReceiveWindow.setAckHeaders` of the device writes, and how many headers. -/
def Device.writeAckHeaders (w : ReceiveWindow) : List (BitVec 8) × ℕ :=
  let ack := OutStream.write (0x09#32 <<< 2 ||| 1) ++ OutStream.writeI2 (BitVec.ofInt 32 w.seqNum)
  if w.seqMore.toInt > 0x1 then
    (ack ++ (OutStream.write (0x0a#32 <<< 2 ||| 3) ++ OutStream.write 1 ++ OutStream.write w.seqMore),
      2)
  else (ack, 1)

/-- What the client takes as acknowledged: a message without an ack header says nothing. -/
def Java.acks (h : AckFields) (num : ℤ) : Bool :=
  if h.ack < 0 then false
  else SendWindow.isAcked ((h.ack + 1) % 65536) (((h.ack + 1) % 65536 + 10000) % 65536) h num

variable {h : AckFields} {w : ReceiveWindow} {num : ℤ}

theorem AckFields.fields_msg (hack : 0 ≤ h.ack) :
    h.msg.fields = ⟨.ack, .u2 h.ack⟩ :: bytesField .ackMore h.ackMore := by
  have hack : h.ack > -1 := by omega
  simp [fields, AckFields.msg, u2Field, defField, timeoutField, strField, hack]
  rfl

/-- The bytes of the `ackMore` header. -/
def AckFields.moreWire (h : AckFields) : List (BitVec 8) :=
  match h.ackMore with
  | none => []
  | some more => HeaderId.ackMore.byte :: DaspMsg.bytes more

theorem AckFields.wire_eq (hack : 0 ≤ h.ack) :
    h.wire = some (HeaderId.ack.byte :: u2 h.ack ++ h.moreWire) := by
  unfold AckFields.wire AckFields.moreWire
  rw [AckFields.fields_msg hack]
  cases h.ackMore with
  | none => rfl
  | some more => exact congrArg some (by simp [List.flatten])

theorem writeI2_ofInt (val : ℤ) : OutStream.writeI2 (BitVec.ofInt 32 val) = u2 (val % 65536) := by
  have hbyte : ∀ k, k + 8 ≤ 32 → (((BitVec.ofInt 32 val).sshiftRight k) &&& 0xff).setWidth 8 =
      BitVec.ofNat 8 ((val % 4294967296).toNat / 2 ^ k) := by
    intro k hk
    rw [byte_eq _ hk, ← BitVec.toNat_inj, BitVec.extractLsb'_toNat, BitVec.toNat_ofNat,
      BitVec.toNat_ofInt, Nat.shiftRight_eq_div_pow]
    rfl
  have hhi : BitVec.ofNat 8 ((val % 4294967296).toNat / 2 ^ 8) =
      BitVec.ofInt 8 (val % 65536 / 256) := by
    rw [← BitVec.toNat_inj, BitVec.toNat_ofNat, BitVec.toNat_ofInt]
    omega
  have hlo : BitVec.ofNat 8 ((val % 4294967296).toNat / 2 ^ 0) = BitVec.ofInt 8 (val % 65536) := by
    rw [← BitVec.toNat_inj, BitVec.toNat_ofNat, BitVec.toNat_ofInt]
    omega
  unfold u2
  rw [← hhi, ← hlo, ← hbyte 8 (by decide), ← hbyte 0 (by decide)]
  rfl

/-- The device writes its headers as they are encoded by the client. -/
theorem wire_writeAckHeaders (hw : (Device.setAckHeaders w).1 = some h) :
    h.wire = some (Device.writeAckHeaders w).1 ∧
      h.msg.fields.length = (Device.writeAckHeaders w).2 := by
  unfold Device.setAckHeaders at hw
  split at hw
  · cases hw
  obtain rfl := Option.some.inj hw
  have hack : 0 ≤ w.seqNum % 65536 := by omega
  rw [AckFields.wire_eq hack, AckFields.fields_msg hack]
  unfold Device.writeAckHeaders AckFields.moreWire
  dsimp only
  rw [writeI2_ofInt]
  by_cases hmore : w.seqMore.toInt > 0x1
  · simp only [hmore, if_true]
    exact ⟨rfl, rfl⟩
  · simp only [hmore, if_false]
    exact ⟨rfl, rfl⟩

/-! ### The readers agree -/

/-- The headers are read back by the device. -/
theorem parse_wire {s : BufInStream} {bs : List (BitVec 8)} (hack : 0 ≤ h.ack ∧ h.ack ≤ 0xffff)
    (hmore : ∀ more ∈ h.ackMore, more.length ≤ 255) (hwire : h.wire = some bs) (hs : s.Holds bs) :
    ∃ t, DeviceSendWindow.parseAckHeaders h.msg.fields.length {} s =
      ({ ackNum := h.ack
         ackMoreOff := match h.ackMore with
           | none => 0
           | some _ => s.pos + 5
         ackMoreLen := match h.ackMore with
           | none => 0
           | some more => more.length }, t) := by
  rw [AckFields.wire_eq hack.1] at hwire
  obtain rfl := Option.some.inj hwire
  rw [AckFields.fields_msg hack.1]
  obtain ⟨hid, hs₁⟩ := hs.read
  obtain ⟨hnum, hs₂⟩ := hs₁.readU2
  rw [Int.emod_eq_of_lt hack.1 (by omega)] at hnum
  unfold AckFields.moreWire at hs₂
  cases hackMore : h.ackMore with
  | none => exact ⟨_, (bind_of_eq hid).trans ((bind_of_eq hnum).trans rfl)⟩
  | some more =>
    have hlen : (BitVec.ofNat 8 more.length).toNat = more.length := by
      have := hmore more hackMore
      rw [BitVec.toNat_ofNat]
      omega
    rw [hackMore] at hs₂
    obtain ⟨hid', hs₃⟩ := hs₂.read
    obtain ⟨hblen, hs₄⟩ := hs₃.read
    rw [hlen] at hblen
    refine ⟨_, (bind_of_eq hid).trans ((bind_of_eq hnum).trans ((bind_of_eq hid').trans
      ((bind_of_eq hblen).trans ((bind_of_eq rfl).trans ((bind_of_eq (hs₄.skip rfl)).trans rfl)))))⟩

/-- The mask is read out of the bytes of the packet. -/
theorem isMarked_wire {bytes : ℕ → BitVec 8} {off : ℕ} {more : List (BitVec 8)} {ack : ℤ}
    (hbytes : ∀ (i : ℕ) (hi : i < more.length), bytes (off + i) = more[i]) :
    DeviceSendWindow.isMarked bytes { ackNum := ack, ackMoreOff := off, ackMoreLen := more.length }
      num = ackMoreBit more ((num - ack) % 65536).toNat := by
  rw [SendWindow.ackMoreBit_eq]
  unfold DeviceSendWindow.isMarked
  dsimp only
  generalize ((num - ack) % 65536).toNat = diff
  split
  · split
    · next hindex =>
      have hlt : ((more.length : ℤ) - (diff / 8 : ℕ) - 1).toNat < more.length := by omega
      rw [hbytes _ hlt, List.getElem?_eq_getElem hlt]
    · rfl
  · next hlen => rw [if_neg (by omega)]

/-- The marks lie behind the ack number, the id of the header and its length. -/
theorem bytes_of_wire {s : BufInStream} {bs more : List (BitVec 8)} (hack : 0 ≤ h.ack ∧ h.ack ≤ 0xffff)
    (hmore : h.ackMore = some more) (hwire : h.wire = some bs) (hs : s.Holds bs) (i : ℕ)
    (hi : i < more.length) : s.bytes (s.pos + 5 + i) = more[i] := by
  rw [AckFields.wire_eq hack.1, AckFields.moreWire, hmore] at hwire
  obtain rfl := Option.some.inj hwire
  exact ((hs.read.2.readU2).2.read.2.read.2).bytes i hi

theorem acks_of_parse {s t : BufInStream} {n : ℕ} {a : DeviceSendWindow.AckHeaders}
    (hparse : DeviceSendWindow.parseAckHeaders n {} s = (a, t)) : DeviceSendWindow.acks s n =
      if n = 0 ∨ a.ackNum < 0 then fun _ => false else DeviceSendWindow.isAcked s.bytes a := by
  have hrun : (DeviceSendWindow.parseAckHeaders n {}).run s = (a, t) := hparse
  simp only [DeviceSendWindow.acks, hrun]

/-- The device takes the same numbers as acknowledged as the client. -/
theorem acks_eq {s : BufInStream} {bs : List (BitVec 8)} (hack : 0 ≤ h.ack ∧ h.ack ≤ 0xffff)
    (hmore : ∀ more ∈ h.ackMore, more.length ≤ 255) (hwire : h.wire = some bs) (hs : s.Holds bs)
    (hnum : IsU2 num) :
    DeviceSendWindow.acks s h.msg.fields.length num = Java.acks h num := by
  obtain ⟨t, hparse⟩ := parse_wire hack hmore hwire hs
  have hfields : h.msg.fields.length ≠ 0 := by
    rw [AckFields.fields_msg hack.1]
    exact Nat.succ_ne_zero _
  have hnum' : 0 ≤ num ∧ num < 65536 := ⟨hnum.1, Int.lt_add_one_of_le hnum.2⟩
  rw [acks_of_parse hparse, Java.acks, if_neg (by dsimp only; omega), if_neg (by omega),
    Bool.eq_iff_iff, SendWindow.isAcked_iff hnum, DeviceSendWindow.isAcked_iff s.bytes hnum']
  refine or_congr_right ?_
  cases hackMore : h.ackMore with
  | none => simp [DeviceSendWindow.isMarked]
  | some more =>
    dsimp only
    rw [isMarked_wire (bytes_of_wire hack hackMore hwire hs)]
    simp

/-! ### What is acknowledged -/

/-- The number has been received: it is not ahead of the start of the window, or it is marked. -/
def Received (w : ReceiveWindow) (num : ℤ) : Prop :=
  offset w num = 0 ∨ 0x8000 ≤ offset w num ∨ Marked w num

/-- A number that the peer can have in its send window: not too far ahead. -/
def InSendWindow (w : ReceiveWindow) (num : ℤ) : Prop :=
  offset w num ≤ 10001 ∨ 0x8000 ≤ offset w num

/-- What ack headers mean that have been built from a window, with as many bytes for the marks. -/
structure Acknowledges (h : AckFields) (w : ReceiveWindow) (room : ℕ) : Prop where
  /-- Both readers agree. -/
  agree {s : BufInStream} {bs : List (BitVec 8)} (hwire : h.wire = some bs) (hs : s.Holds bs)
    {num : ℤ} (hnum : IsU2 num) : DeviceSendWindow.acks s h.msg.fields.length num = Java.acks h num
  /-- What is acknowledged has been received. -/
  sound {num : ℤ} (hnum : IsU2 num) (hnear : InSendWindow w num) (h : Java.acks h num = true) :
    Received w num
  /-- What has been received is acknowledged, as far as there is room for the marks. -/
  complete (htop : w.seqMore.msb = false) {num : ℤ} (hnum : IsU2 num)
    (hreceived : Received w num)
    (hroom : offset w num = 0 ∨ 0x8000 ≤ offset w num ∨ offset w num < 8 * room) :
    Java.acks h num = true

theorem lt_of_getLsbD {m : BitVec 32} {d k : ℕ} (hbit : m.getLsbD d = true)
    (hlt : m.toNat < 2 ^ k) : d < k := by
  by_contra hge
  have hle : 2 ^ d ≤ m.toNat := Nat.ge_two_pow_of_testBit hbit
  have := Nat.pow_le_pow_right (show 0 < 2 by decide) (Nat.le_of_not_lt hge)
  omega

/-- The bit of a mark, in the byte that holds it. -/
theorem ackMoreBit_of_getElem {bytes : List (BitVec 8)} {m : BitVec 32} {d : ℕ}
    (hbyte : bytes.reverse[d / 8]? = some ((m >>> (8 * (d / 8))).setWidth 8))
    (hbit : m.getLsbD d = true) : ackMoreBit bytes d = true := by
  unfold ackMoreBit
  rw [hbyte]
  simp only [BitVec.getLsbD_setWidth, BitVec.getLsbD_ushiftRight, Nat.div_add_mod, hbit,
    Nat.mod_lt d (show 0 < 8 by decide), decide_true, Bool.and_self]

/-- An `ackMore` header repeats the bits of the map that it has room for. -/
theorem ackMoreBit_toAckMore {m : BitVec 32} {max : ℤ} {d : ℕ} (htop : m.msb = false)
    (hd : d < 8 * max) (hbit : m.getLsbD d = true) :
    ackMoreBit (Java.toAckMore m max) d = true := by
  refine ackMoreBit_of_getElem ?_ hbit
  have hint : m.toInt = m.toNat := BitVec.toInt_eq_toNat_of_msb htop
  have h32 : d < 32 := lt_of_getLsbD hbit m.isLt
  have hsmall : ∀ k, m.toNat < 2 ^ k → d < k := fun k => lt_of_getLsbD hbit
  unfold Java.toAckMore
  rw [hint]
  have hcases : d / 8 = 0 ∨ d / 8 = 1 ∨ d / 8 = 2 ∨ d / 8 = 3 := by omega
  split_ifs with h₁ h₂ h₃
  · have : d < 8 := by
      have := hsmall 8
      omega
    obtain hd | hd | hd | hd := hcases
    · rw [hd]; rfl
    all_goals omega
  · have : d < 16 := by
      have := hsmall 16
      omega
    obtain hd | hd | hd | hd := hcases
    · rw [hd]; rfl
    · rw [hd]; rfl
    all_goals omega
  · have : d < 24 := by
      have := hsmall 24
      omega
    obtain hd | hd | hd | hd := hcases
    · rw [hd]; rfl
    · rw [hd]; rfl
    · rw [hd]; rfl
    all_goals omega
  · obtain hd | hd | hd | hd := hcases <;> rw [hd] <;> rfl

/-- What is acknowledged by headers with the start of the window as ack number. -/
theorem acks_iff (hw : IsU2 w.seqNum) (hack : h.ack = w.seqNum) (hnum : IsU2 num) :
    Java.acks h num = true ↔ offset w num = 0 ∨ 10001 < offset w num ∨
      ∃ more, h.ackMore = some more ∧ ackMoreBit more (offset w num).toNat = true := by
  have hpos := hw.1
  rw [Java.acks, if_neg (by omega), SendWindow.isAcked_iff hnum, hack, ← or_assoc]
  refine or_congr_left ?_
  unfold offset
  omega

/-- Headers that repeat the marks. -/
theorem acknowledges_of_marks {room : ℕ} (hw : IsU2 w.seqNum) (hack : h.ack = w.seqNum)
    (hlen : ∀ more ∈ h.ackMore, more.length ≤ 255)
    (hsound : ∀ more ∈ h.ackMore, ∀ d, ackMoreBit more d = true → w.seqMore.getLsbD d = true)
    (hcomplete : w.seqMore.msb = false → ∀ d : ℕ, 1 ≤ d → d < 8 * room →
      w.seqMore.getLsbD d = true → ∃ more, h.ackMore = some more ∧ ackMoreBit more d = true) :
    Acknowledges h w room := by
  constructor
  · intro s bs hwire hs num hnum
    exact acks_eq (by rw [hack]; exact hw) hlen hwire hs hnum
  · intro num hnum hnear hacks
    obtain hzero | hbehind | ⟨more, hmore, hbit⟩ := (acks_iff hw hack hnum).mp hacks
    · exact .inl hzero
    · exact .inr (.inl (hnear.resolve_left (by omega)))
    · have hmark := hsound more hmore _ hbit
      have hlt := lt_of_getLsbD hmark w.seqMore.isLt
      have hnonneg := offset_nonneg w num
      by_cases hzero : offset w num = 0
      · exact .inl hzero
      · exact .inr (.inr ⟨by omega, by omega, hmark⟩)
  · intro htop num hnum hreceived hroom
    refine (acks_iff hw hack hnum).mpr ?_
    obtain hzero | hbehind | ⟨hlow, hhigh, hmark⟩ := hreceived
    · exact .inl hzero
    · exact .inr (.inl (by omega))
    · exact .inr (.inr (hcomplete htop _ (by omega) (by omega) hmark))

/-- A mark beyond the start makes the map a number above one. -/
theorem one_lt_of_mark {m : BitVec 32} {d : ℕ} (htop : m.msb = false) (hd : 1 ≤ d)
    (hbit : m.getLsbD d = true) : m.toInt > 0x1 := by
  have hpow := Nat.pow_le_pow_right (show 0 < 2 by decide) hd
  have hge : 2 ^ d ≤ m.toNat := Nat.ge_two_pow_of_testBit hbit
  rw [BitVec.toInt_eq_toNat_of_msb htop]
  omega

/-- The ack headers of a window acknowledge what it has received and nothing else, as far as there
is room for the marks: one byte on the device, and what is left of a packet on the client. -/
theorem ack_headers_exact (hw : IsU2 w.seqNum) :
    (∀ h, (Device.setAckHeaders w).1 = some h → Acknowledges h w 1) ∧
      ∀ payloadLen idealMax : ℤ, payloadLen + 8 ≤ idealMax →
        Acknowledges (Java.setAckHeaders w payloadLen idealMax).1 w
          (idealMax - payloadLen - 10).toNat := by
  constructor
  · intro h hset
    unfold Device.setAckHeaders at hset
    split at hset
    · cases hset
    obtain rfl := Option.some.inj hset
    have hack : w.seqNum % 65536 = w.seqNum := by
      have := hw
      unfold IsU2 at this
      omega
    have hmem : ∀ more, (if w.seqMore.toInt > 0x1 then some [w.seqMore.setWidth 8] else none) =
        some more → [w.seqMore.setWidth 8] = more := fun more hmore => by
      split at hmore
      · exact Option.some.inj hmore
      · cases hmore
    refine acknowledges_of_marks hw hack ?_ ?_ ?_
    · intro more hmore
      obtain rfl := hmem more hmore
      rw [List.length_singleton]
      decide
    · intro more hmore d hbit
      obtain rfl := hmem more hmore
      rw [ackMoreBit_singleton, BitVec.getLsbD_setWidth, Bool.and_eq_true, Bool.and_eq_true] at hbit
      exact hbit.2.2
    · intro htop d hd hroom hbit
      refine ⟨_, if_pos (one_lt_of_mark htop hd hbit), ?_⟩
      rw [ackMoreBit_singleton, BitVec.getLsbD_setWidth, hbit]
      have hlt : d < 8 := by omega
      simp only [Bool.and_true, hlt, decide_true]
  · intro payloadLen idealMax hfits
    unfold Java.setAckHeaders
    rw [if_pos hfits]
    split
    · refine acknowledges_of_marks hw rfl ?_ ?_ ?_
      · intro more hmore
        obtain rfl := Option.some.inj hmore
        unfold Java.toAckMore
        split_ifs <;> simp
      · intro more hmore d hbit
        obtain rfl := Option.some.inj hmore
        exact getLsbD_of_ackMoreBit_toAckMore hbit
      · intro htop d _ hroom hbit
        exact ⟨_, rfl, ackMoreBit_toAckMore htop (by omega) hbit⟩
    · next hmore =>
      refine acknowledges_of_marks hw rfl ?_ ?_ ?_
      · exact fun _ hmem => absurd hmem (Option.not_mem_none _)
      · exact fun _ hmem => absurd hmem (Option.not_mem_none _)
      · intro htop d hd hroom hbit
        exact absurd ⟨one_lt_of_mark htop hd hbit, by omega⟩ hmore

/-- A window that straddles 0xffff, with the third and the tenth number after its start. -/
def straddling : ReceiveWindow := { seqNum := 0xfffe, seqMore := 0x409, acked := false }

theorem ack_headers_straddling :
    Acknowledges (Java.setAckHeaders straddling 100 512).1 straddling 402 :=
  (ack_headers_exact (w := straddling) ⟨by decide, by decide⟩).2 100 512 (by decide)

/-- The device leaves out the tenth number, which it has received. -/
theorem not_ack_headers_exact : ¬∀ (w : ReceiveWindow) (h : AckFields), IsU2 w.seqNum →
    w.seqMore.msb = false → (Device.setAckHeaders w).1 = some h → ∀ num, IsU2 num →
      InSendWindow w num → (Java.acks h num = true ↔ Received w num) := by
  intro hexact
  have hacks := (hexact straddling _ ⟨by decide, by decide⟩ (by decide) rfl 8 ⟨by decide, by decide⟩
    (Or.inl (by decide))).mpr (Or.inr (Or.inr ⟨by decide, by decide, by decide⟩))
  revert hacks
  decide

end Dasp

end Sedona
