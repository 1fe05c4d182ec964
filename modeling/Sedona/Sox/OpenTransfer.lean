import Mathlib.Data.Rat.Floor
import Sedona.Dasp.AckHeaders
import Sedona.Sox.PutTransfer

/-!
# Opening a Transfer

The arithmetic of `SoxCommands.fileOpenReq`, and what follows from it for a get: the chunks that
`FileTransfer.checkGet` and `SoxCommands.fileSendChunk` send, with the retries of the send window.
A file is read with the semantics of `sys_FileStore_std.c`, and what is not read is sent as it
stands in the packet.

## Main results

* `coversFile`: a get whose chunks are counted right sends every chunk once.
* `safe_iff`: requests that are opened safely.
* `not_safe`: a file that is too big.
-/

namespace Sedona.Sox.FileTransfer

open Slots ChunkedFile Transition OutStream

/-! ### The request -/

/-- `Dasp.ABS_MAX_VAL`, the size of the packet buffer. -/
def absMaxVal : ℕ := 512

/-- A `fileOpen` request, and what it meets. -/
structure OpenRequest (P : Platform) where
  app : P.App
  user : P.User
  /-- `tx.mode`. -/
  mode : TransferMode
  method : Str
  uri : Str
  fileSize : BitVec 32
  chunkSize : BitVec 16
  headers : BufInStream
  /-- Whether `File.open` succeeds. -/
  opens : Bool

variable {P : Platform}

/-- `SoxCommands.fileOpenReq`, with the bytes of the file: the transfer or the error, or nothing
where it divides by zero. -/
def fileOpenReq (r : OpenRequest P) (file : List Byte) : Option (Except Str Transfer) :=
  if !P.canProv r.app r.user r.uri then some (.error (text "denied"))
  else if r.mode ≠ .unused then some (.error (text "busy"))
  else
    match checkOpen r.app r.method r.uri r.fileSize (r.chunkSize.setWidth 32) r.headers with
    | .error cause => some (.error cause)
    | .ok o =>
        if !r.opens then some (.error (text "cannot open"))
        else if o.chunkSize = 0 then none
        else some (.ok (openTransfer o (openBytes o.openMode file)))

/-! ### Sending -/

/-- The fields of a `SendPacket` that are set for a chunk. -/
structure ChunkPacket where
  chunkNum : BitVec 16
  chunkSize : BitVec 16
deriving DecidableEq

/-- What a chunk is sent with: the header, the receive window, the file store, and the packet
buffer. -/
structure Sending where
  remoteId : BitVec 16
  seqNum : BitVec 16
  receiveWindow : Dasp.ReceiveWindow
  seeks : Bool
  stale : ℕ → Byte

/-- `SoxCommands.prepareRes`, of a chunk. -/
def prepareRes (io : Sending) : List Byte :=
  let (headers, n) :=
    if io.receiveWindow.acked then ([], 0) else Dasp.Device.writeAckHeaders io.receiveWindow
  writeI2 (io.remoteId.setWidth 32) ++ writeI2 (io.seqNum.setWidth 32) ++
    [6 <<< 4 ||| BitVec.ofNat 8 n] ++ headers ++ [Slots.code 'k', 0xff]

/-- The message with a chunk. -/
def chunkMessage (io : Sending) (p : ChunkPacket) (bs : List Byte) : List Byte :=
  prepareRes io ++ writeI2 (p.chunkNum.setWidth 32) ++ writeI2 (p.chunkSize.setWidth 32) ++ bs

/-- `FileStore.doReadBytes`. -/
def OpenFile.readBytes (f : OpenFile) (n : ℕ) : List Byte × OpenFile :=
  let bs := (f.bytes.drop f.pos).take n
  (bs, { f with pos := f.pos + bs.length })

/-- `SoxCommands.fileSendChunk`. -/
def fileSendChunk (tx : Transfer) (p : ChunkPacket) (io : Sending) : List Byte × Transfer :=
  let file := tx.file.seek (tx.offset + p.chunkNum.setWidth 32 * tx.chunkSize.setWidth 32)
    { seeks := io.seeks, written := 0 }
  let (bs, file) := file.readBytes p.chunkSize.toNat
  (chunkMessage io p ((List.range p.chunkSize.toNat).map fun i => bs.getD i (io.stale i)),
    { tx with file })

/-- `FileTransfer.checkGet` up to the packet that it sends, with whether there is one. -/
def checkGet (tx : Transfer) (free : Bool) : Transfer × Option ChunkPacket :=
  if tx.numChunks ≤ tx.nextChunk then (tx, none)
  else if !free then (tx, none)
  else
    let chunkNum := tx.nextChunk
    let tx := { tx with nextChunk := tx.nextChunk + 1 }
    let remainder := tx.fileSize.srem (tx.chunkSize.setWidth 32)
    let chunkSize :=
      if tx.nextChunk = tx.numChunks ∧ remainder ≠ 0 then remainder.setWidth 16 else tx.chunkSize
    (tx, some { chunkNum, chunkSize })

/-! ### Runs of a get -/

/-- A look at the transfer, or a retry of the packet with this index. -/
inductive GetEvent where
  | check (free : Bool) (io : Sending)
  | retry (i : ℕ) (io : Sending)

/-- A transfer, with the packets that have been taken and the messages that have been sent. -/
structure GetRun where
  tx : Transfer
  packets : List ChunkPacket
  messages : List (List Byte)

def GetRun.send (s : GetRun) (p : ChunkPacket) (io : Sending) : GetRun :=
  let (bs, tx) := fileSendChunk s.tx p io
  { s with tx, messages := s.messages ++ [bs] }

/-- The part of `SoxService.checkFileTransfers` for a get, and `SendWindow.sendRetries`. -/
def GetRun.next (s : GetRun) : GetEvent → GetRun
  | .check free io =>
      if s.tx.mode ≠ .get then s
      else
        match checkGet s.tx free with
        | (_, none) => s
        | (tx, some p) => { s with tx, packets := s.packets ++ [p] }.send p io
  | .retry i io =>
      match s.packets[i]? with
      | none => s
      | some p => s.send p io

/-- The seek succeeds if the position is not negative. -/
def GetEvent.Works : GetEvent → Prop
  | .check _ io => io.seeks = true
  | .retry _ io => io.seeks = true

/-- The runs of a transfer. -/
def getSystem (tx : Transfer) : System GetRun GetEvent :=
  .ofNext (· = { tx, packets := [], messages := [] }) fun s e => some (s.next e)

/-! ### What is promised -/

/-- The number of chunks. -/
def Transfer.chunks (tx : Transfer) : ℤ := ⌈(tx.fileSize.toInt : ℚ) / tx.chunkSize.toNat⌉

/-- The sizes of a transfer fit together. -/
structure Opened (tx : Transfer) : Prop where
  chunkSize : 0 < tx.chunkSize.toNat
  numChunks : (tx.numChunks.toNat : ℤ) = tx.chunks
  /-- Every chunk number fits in 16 bits. -/
  chunkNum (i : ℕ) (h : i < tx.chunks) : i < 2 ^ 16
  /-- Every chunk fits in the packet buffer. -/
  fits (io : Sending) (p : ChunkPacket) (bs : List Byte) (h : bs.length ≤ tx.chunkSize.toNat) :
    (chunkMessage io p bs).length ≤ absMaxVal

/-- The part of the file that a get is about. -/
def Transfer.range (tx : Transfer) : List Byte :=
  (tx.file.bytes.drop tx.offset.toNat).take tx.fileSize.toNat

/-- The get `tx` sends every chunk once, and all of them are the whole range. -/
structure Covers (tx : Transfer) (s : GetRun) : Prop where
  /-- The packets are the first chunks, each of them once. -/
  once : s.packets = (List.range s.packets.length).map fun i =>
    { chunkNum := BitVec.ofNat 16 i
      chunkSize := BitVec.ofNat 16 (chunk tx.chunkSize.toNat tx.range i).length }
  bound : (s.packets.length : ℤ) ≤ tx.chunks
  /-- A message fits in the packet buffer, and has the bytes of its chunk. -/
  message (m : List Byte) (h : m ∈ s.messages) : m.length ≤ absMaxVal ∧
    ∃ io p i, s.packets[i]? = some p ∧ m = chunkMessage io p (chunk tx.chunkSize.toNat tx.range i)
  /-- The chunks, once all have been sent, are the whole range. -/
  whole (h : (s.packets.length : ℤ) = tx.chunks) :
    (List.range s.packets.length).flatMap (chunk tx.chunkSize.toNat tx.range) = tx.range
  /-- Until then, the next one is sent when there is a packet. -/
  goesOn (h : (s.packets.length : ℤ) < tx.chunks) (io : Sending) :
    (s.next (.check true io)).packets.length = s.packets.length + 1

/-- A transfer is opened safely. -/
structure Safe (r : OpenRequest P) (file : List Byte) : Prop where
  divides : fileOpenReq r file ≠ none
  opened {tx : Transfer} (h : fileOpenReq r file = some (.ok tx)) : Opened tx
  covers {tx : Transfer} {s : GetRun} (h : fileOpenReq r file = some (.ok tx))
    (hget : tx.mode = .get) (hs : ((getSystem tx).restrict fun _ e => e.Works).Reachable s) :
    Covers tx s

/-! ### The condition -/

/-- The size of the file that the request names. -/
def OpenRequest.size (r : OpenRequest P) : BitVec 32 := P.fileSize r.app r.uri

/-- The size of a chunk that the request gets. -/
def OpenRequest.limit (r : OpenRequest P) : ℕ := min r.chunkSize.toNat 494

/-- What is left of the file behind the offset. -/
def OpenRequest.left (r : OpenRequest P) (offset : BitVec 32) : ℤ :=
  max 0 (r.size.toInt - offset.toInt)

/-- The headers of the request. -/
def OpenRequest.Headers (r : OpenRequest P) (openMode : Str) (offset : BitVec 32) : Prop :=
  ((readHeaders (r.headers.size + 1) (text "w") 0).run r.headers).1 = .ok (openMode, offset)

/-- The condition on a request that passes the checks in front: the size is not negative, and the
rest of a file that is asked for as a whole has few enough chunks. -/
def Sound (r : OpenRequest P) : Prop :=
  P.canProv r.app r.user r.uri = true → r.mode = .unused → r.opens = true →
    ∀ openMode offset, r.Headers openMode offset →
      (firstChar r.method = Slots.code 'p' →
        (firstChar openMode = Slots.code 'w' ∨ firstChar openMode = Slots.code 'm') →
        0 ≤ r.fileSize.toInt) ∧
      (firstChar r.method = Slots.code 'g' → 0 ≤ r.size.toInt →
        0 ≤ r.fileSize.toInt ∧
        (r.fileSize = 0 → 0 < r.limit → r.size.toInt - offset.toInt ≤ r.limit * 0xffff))

/-! ### Counting the chunks -/

theorem toNat_limitChunk {c : BitVec 32} (h : c.toNat < 2 ^ 16) :
    (limitChunk c).toNat = min c.toNat 494 := by
  have hsum : (c + 18).toNat = c.toNat + 18 := by
    rw [BitVec.toNat_add]
    exact Nat.mod_eq_of_lt (by change c.toNat + 18 < 2 ^ 32; omega)
  have hint : (c + 18).toInt = c.toNat + 18 := by
    rw [toInt_eq_toNat (by omega), hsum]
    rfl
  unfold limitChunk
  rw [BitVec.sle_eq_decide, hint, show (512#32).toInt = 512 from rfl]
  by_cases hle : (512 : ℤ) ≤ c.toNat + 18
  · rw [if_pos (decide_eq_true hle), Nat.min_eq_right (by omega)]
    rfl
  · rw [if_neg (by simp only [hle, decide_false, Bool.false_eq_true, not_false_eq_true]),
      Nat.min_eq_left (by omega)]

/-- The number of chunks is the quotient, rounded up. -/
theorem ceil_div_eq {n c : ℕ} (hc : 0 < c) :
    ⌈(n : ℚ) / c⌉ = (n / c + if n % c = 0 then 0 else 1 : ℕ) := by
  have hmod := Nat.div_add_mod n c
  have hlt := Nat.mod_lt n hc
  generalize n / c = q at hmod
  generalize n % c = m at hmod hlt
  subst hmod
  have hcq : (0 : ℚ) < c := by exact_mod_cast hc
  have hltq : (m : ℚ) < c := by exact_mod_cast hlt
  rw [Int.ceil_eq_iff, lt_div_iff₀ hcq, div_le_iff₀ hcq]
  split
  · rename_i hzero
    subst hzero
    push_cast
    constructor <;> nlinarith
  · rename_i hpos
    have hposq : (0 : ℚ) < m := by exact_mod_cast Nat.pos_of_ne_zero hpos
    push_cast
    constructor <;> nlinarith

variable {o : Opening} {file : List Byte}

theorem toNat_chunkSize (hle : o.chunkSize.toNat ≤ 494) :
    (openTransfer o file).chunkSize.toNat = o.chunkSize.toNat := by
  change (o.chunkSize.setWidth 16).toNat = _
  rw [BitVec.toNat_setWidth]
  omega

/-- The number of chunks of a negative size is not negative only where it is counted wrong. -/
theorem numChunks_ne_of_neg (hc : 0 < o.chunkSize.toNat ∧ o.chunkSize.toNat ≤ 494)
    (hneg : o.fileSize.toInt < 0) :
    ((openTransfer o file).numChunks.toNat : ℤ) ≠ (openTransfer o file).chunks := by
  intro heq
  have hcq : (0 : ℚ) < o.chunkSize.toNat := by exact_mod_cast hc.1
  have hsize : (openTransfer o file).fileSize = o.fileSize := rfl
  rw [Transfer.chunks, toNat_chunkSize hc.2, hsize] at heq
  have hnegq : (o.fileSize.toInt : ℚ) < 0 := by exact_mod_cast hneg
  have hle : ⌈(o.fileSize.toInt : ℚ) / o.chunkSize.toNat⌉ ≤ 0 := by
    rw [Int.ceil_le]
    exact_mod_cast (div_neg_of_neg_of_pos hnegq hcq).le
  have hceil : ⌈(o.fileSize.toInt : ℚ) / o.chunkSize.toNat⌉ = 0 := by omega
  have hsmall : -(o.chunkSize.toNat : ℤ) < o.fileSize.toInt := by
    obtain ⟨hlt, -⟩ := Int.ceil_eq_iff.mp hceil
    rw [lt_div_iff₀ hcq] at hlt
    push_cast at hlt
    have : -(o.chunkSize.toNat : ℚ) < o.fileSize.toInt := by linarith
    exact_mod_cast this
  -- the quotient is zero, and the remainder is not
  have hchunk : o.chunkSize.toInt = o.chunkSize.toNat := toInt_eq_toNat (by omega)
  have hdiv : o.fileSize.sdiv o.chunkSize = 0 := by
    rw [← BitVec.toInt_inj, BitVec.toInt_sdiv, hchunk, ← neg_neg o.fileSize.toInt, Int.neg_tdiv,
      Int.tdiv_eq_zero_of_lt (by omega) (by omega)]
    rfl
  have hrem : o.fileSize.srem o.chunkSize ≠ 0 := by
    rw [ne_eq, ← BitVec.toInt_inj, BitVec.toInt_srem, hchunk, ← neg_neg o.fileSize.toInt,
      Int.neg_tmod, Int.tmod_eq_of_lt (by omega) (by omega), neg_neg]
    have hzero : (0 : BitVec 32).toInt = 0 := rfl
    omega
  have hnum : (openTransfer o file).numChunks = 1 := by
    simp only [openTransfer, hdiv, if_neg hrem]
    rfl
  rw [hceil, hnum] at heq
  exact absurd heq (by decide)

theorem length_prepareRes_le (io : Sending) : (prepareRes io).length ≤ 13 := by
  have hheaders : (Dasp.Device.writeAckHeaders io.receiveWindow).1.length ≤ 6 := by
    unfold Dasp.Device.writeAckHeaders
    dsimp only
    split
    · exact le_rfl
    · exact Nat.le_add_left 3 3
  unfold prepareRes
  split
  rename_i headers n heq
  have hlen : headers.length ≤ 6 := by
    split at heq
    · obtain ⟨rfl, -⟩ := Prod.mk.inj heq
      exact Nat.zero_le 6
    · rw [heq] at hheaders
      exact hheaders
  simp only [List.length_append, List.length_cons, List.length_nil, writeI2, write]
  omega

theorem length_chunkMessage_le (io : Sending) (p : ChunkPacket) {bs : List Byte}
    (h : bs.length ≤ 494) : (chunkMessage io p bs).length ≤ absMaxVal := by
  have hhead := length_prepareRes_le io
  simp only [chunkMessage, List.length_append, writeI2, write, List.length_cons, List.length_nil,
    absMaxVal]
  omega

/-- **When the sizes fit together.** -/
theorem opened_iff (hc : 0 < o.chunkSize.toNat ∧ o.chunkSize.toNat ≤ 494) :
    Opened (openTransfer o file) ↔
      0 ≤ o.fileSize.toInt ∧ o.fileSize.toInt ≤ o.chunkSize.toNat * 0xffff := by
  have hsize : (openTransfer o file).fileSize = o.fileSize := rfl
  constructor
  · intro h
    have hnum := h.numChunks
    refine ⟨?_, ?_⟩ <;> by_contra hbad
    · exact numChunks_ne_of_neg hc (by omega) hnum
    · have hlt := (openTransfer o file).numChunks.isLt
      have hle : (openTransfer o file).chunks ≤ 0xffff := by omega
      rw [Transfer.chunks, Int.ceil_le, toNat_chunkSize hc.2, hsize,
        div_le_iff₀ (by exact_mod_cast hc.1)] at hle
      have : o.fileSize.toInt ≤ 0xffff * o.chunkSize.toNat := by exact_mod_cast hle
      omega
  · rintro ⟨hpos, hle⟩
    have hnat : (o.fileSize.toNat : ℤ) = o.fileSize.toInt := by
      have := BitVec.toInt_eq_toNat_cond o.fileSize
      split at this <;> omega
    have hsmall : o.fileSize.toNat ≤ o.chunkSize.toNat * 0xffff := by omega
    have hnum : ((openTransfer o file).numChunks.toNat : ℤ) = (openTransfer o file).chunks := by
      rw [toNat_numChunks_of hc hsmall, Transfer.chunks, toNat_chunkSize hc.2, hsize, ← hnat,
        Int.cast_natCast, ceil_div_eq hc.1]
    refine ⟨?_, hnum, fun i hi => ?_, fun io p bs hbs => ?_⟩
    · rw [toNat_chunkSize hc.2]
      exact hc.1
    · have := (openTransfer o file).numChunks.isLt
      omega
    · rw [toNat_chunkSize hc.2] at hbs
      exact length_chunkMessage_le io p (hbs.trans hc.2)

/-! ### The checks -/

/-- An offset that is accepted is not negative. -/
theorem offset_nonneg {n : ℕ} {openMode mode : Str} {offset offset' : BitVec 32}
    {input : BufInStream} (h : ((readHeaders n openMode offset).run input).1 = .ok (mode, offset'))
    (hpos : 0 ≤ offset.toInt) : 0 ≤ offset'.toInt := by
  induction n generalizing openMode offset input with
  | zero => cases h
  | succ n ih =>
      simp only [readHeaders, StateT.run_bind] at h
      generalize BufInStream.readStrInPlace.run input = k at h
      obtain ⟨_ | _ | ⟨c, key⟩, input⟩ := k
      · cases h
      · cases h
        exact hpos
      · simp only [StateT.run, bind, StateT.bind] at h
        generalize BufInStream.readStrInPlace input = v at h
        obtain ⟨_ | val, input⟩ := v
        · cases h
        simp only at h
        split at h
        · exact ih h hpos
        · split at h
          · split at h
            · cases h
            · rename_i hslt
              refine ih h ?_
              rw [BitVec.slt_eq_decide, decide_eq_true_eq] at hslt
              exact not_lt.mp hslt
          · exact ih h hpos

/-- What passes the checks: a get of what is left, or a put. -/
inductive Passes (r : OpenRequest P) (o : Opening) : Prop
  | get (hmethod : firstChar r.method = Slots.code 'g') (hsize : 0 ≤ r.size.toInt)
      (hmode : o.mode = .get) (hopen : o.openMode = text "r")
      (hfile : o.fileSize.toInt =
        if r.fileSize = 0 then r.left o.offset else min r.fileSize.toInt (r.left o.offset))
  | put (hmethod : firstChar r.method = Slots.code 'p') (hmode : o.mode = .put)
      (hopen : firstChar o.openMode = Slots.code 'w' ∨ firstChar o.openMode = Slots.code 'm')
      (hfile : o.fileSize = r.fileSize)

variable {r : OpenRequest P}

theorem toNat_limit : (limitChunk (r.chunkSize.setWidth 32)).toNat = r.limit := by
  have hlt := r.chunkSize.isLt
  have hwidth : (r.chunkSize.setWidth 32).toNat = r.chunkSize.toNat := by
    rw [BitVec.toNat_setWidth]
    omega
  rw [toNat_limitChunk (by omega), hwidth, OpenRequest.limit]

/-- The check for a file that is too big. -/
theorem tooBig_iff : (limitChunk (r.chunkSize.setWidth 32) * 0xffff).sle r.fileSize ↔
    (r.limit : ℤ) * 0xffff ≤ r.fileSize.toInt := by
  have hle : r.limit ≤ 494 := Nat.min_le_right _ _
  have hprod : (limitChunk (r.chunkSize.setWidth 32) * 0xffff).toNat = r.limit * 0xffff := by
    rw [BitVec.toNat_mul, toNat_limit]
    exact Nat.mod_eq_of_lt (by change r.limit * 65535 < 2 ^ 32; omega)
  rw [BitVec.sle_eq_decide, decide_eq_true_eq, toInt_eq_toNat (by omega), hprod]
  push_cast
  rfl

theorem toInt_left {size offset : BitVec 32} (hsize : 0 ≤ size.toInt) (hpos : 0 ≤ offset.toInt) :
    (if (size - offset).slt 0 then 0 else size - offset).toInt =
      max 0 (size.toInt - offset.toInt) := by
  have hsub : (size - offset).toInt = size.toInt - offset.toInt := by
    have hs := BitVec.toInt_lt (x := size)
    have ho := BitVec.toInt_lt (x := offset)
    rw [BitVec.toInt_sub]
    exact Int.bmod_eq_of_le (by omega) (by omega)
  have hzero : (0 : BitVec 32).toInt = 0 := rfl
  rw [BitVec.slt_eq_decide, hsub, hzero]
  split <;> rename_i hlt <;> rw [decide_eq_true_eq] at hlt
  · rw [hzero]
    omega
  · rw [hsub]
    omega

/-- The size of a get. -/
theorem toInt_least {size maxBytes : BitVec 32} :
    (if size = 0 then maxBytes else if size.slt maxBytes then size else maxBytes).toInt =
      if size = 0 then maxBytes.toInt else min size.toInt maxBytes.toInt := by
  rw [BitVec.slt_eq_decide]
  split
  · rfl
  · split <;> rename_i hlt <;> rw [decide_eq_true_eq] at hlt
    · exact (min_eq_left hlt.le).symm
    · exact (min_eq_right (not_lt.mp hlt)).symm

/-- **What passes the checks.** -/
theorem passes_of_checkOpen (h : checkOpen r.app r.method r.uri r.fileSize
    (r.chunkSize.setWidth 32) r.headers = .ok o) :
    o.chunkSize = limitChunk (r.chunkSize.setWidth 32) ∧
      r.fileSize.toInt < r.limit * 0xffff ∧ 0 ≤ o.offset.toInt ∧ Passes r o ∧
      ∃ openMode, r.Headers openMode o.offset ∧ (o.mode = .put → o.openMode = openMode) := by
  rw [checkOpen] at h
  split at h
  · cases h
  rename_i hsmall
  rw [tooBig_iff] at hsmall
  split at h
  · cases h
  rename_i openMode offset hheaders
  have hpos : 0 ≤ offset.toInt := offset_nonneg hheaders (by decide)
  rw [openMethod] at h
  refine ⟨?_, by omega, ?_⟩
  · split at h
    · split at h <;> cases h
      rfl
    · split at h
      · split at h <;> cases h
        rfl
      · cases h
  split at h
  · rename_i hget
    split at h
    · cases h
    rename_i hsize
    rw [BitVec.slt_eq_decide, decide_eq_true_eq] at hsize
    have hnonneg : 0 ≤ r.size.toInt := not_lt.mp hsize
    cases h
    refine ⟨hpos, .get hget hnonneg rfl rfl ?_, openMode, hheaders, by simp⟩
    have hleft := toInt_left hnonneg hpos
    exact toInt_least.trans (by rw [OpenRequest.left, ← hleft]; rfl)
  · split at h
    · rename_i hput
      split at h <;> cases h
      rename_i hopen
      exact ⟨hpos, .put hput rfl hopen rfl, openMode, hheaders, fun _ => rfl⟩
    · cases h

/-- A request with these headers passes the checks, unless the file is too big. -/
theorem exists_checkOpen {openMode : Str} {offset : BitVec 32}
    (hsmall : r.fileSize.toInt < r.limit * 0xffff) (hheaders : r.Headers openMode offset)
    (hmethod : firstChar r.method = Slots.code 'g' ∧ 0 ≤ r.size.toInt ∨
      firstChar r.method = Slots.code 'p' ∧
        (firstChar openMode = Slots.code 'w' ∨ firstChar openMode = Slots.code 'm')) :
    ∃ o, checkOpen r.app r.method r.uri r.fileSize (r.chunkSize.setWidth 32) r.headers = .ok o ∧
      o.offset = offset := by
  rw [checkOpen, if_neg (by rw [tooBig_iff]; omega), hheaders]
  dsimp only
  rw [openMethod]
  obtain ⟨hget, hsize⟩ | ⟨hput, hopen⟩ := hmethod
  · have hslt : ¬ (P.fileSize r.app r.uri).slt 0 := by
      rw [BitVec.slt_eq_decide, decide_eq_true_eq]
      exact not_lt.mpr hsize
    rw [if_pos hget, if_neg hslt]
    exact ⟨_, rfl, rfl⟩
  · have hne : firstChar r.method ≠ Slots.code 'g' := by
      rw [hput]
      decide
    rw [if_neg hne, if_pos hput, if_pos hopen]
    exact ⟨_, rfl, rfl⟩

/-- The request is to be opened with these sizes. -/
structure Granted (r : OpenRequest P) (o : Opening) : Prop where
  canProv : P.canProv r.app r.user r.uri = true
  unused : r.mode = .unused
  opens : r.opens = true
  checked : checkOpen r.app r.method r.uri r.fileSize (r.chunkSize.setWidth 32) r.headers = .ok o

theorem fileOpenReq_of_granted (h : Granted r o) : fileOpenReq r file =
    if o.chunkSize = 0 then none else some (.ok (openTransfer o (openBytes o.openMode file))) := by
  simp [fileOpenReq, h.canProv, h.unused, h.opens, h.checked]

theorem fileOpenReq_cases (r : OpenRequest P) (file : List Byte) :
    (∃ cause, fileOpenReq r file = some (.error cause)) ∨ ∃ o, Granted r o := by
  rw [fileOpenReq]
  split
  · exact .inl ⟨_, rfl⟩
  rename_i hprov
  split
  · exact .inl ⟨_, rfl⟩
  rename_i hmode
  split
  · exact .inl ⟨_, rfl⟩
  rename_i o hchecked
  split
  · exact .inl ⟨_, rfl⟩
  rename_i hopens
  exact .inr ⟨o, by simpa using hprov, not_not.mp hmode, by simpa using hopens, hchecked⟩

/-- **The condition,** on what the request is opened with. -/
theorem sound_iff : Sound r ↔ ∀ o, Granted r o →
    0 < o.chunkSize.toNat ∧ 0 ≤ o.fileSize.toInt ∧
      o.fileSize.toInt ≤ o.chunkSize.toNat * 0xffff := by
  constructor
  · rintro h o ⟨hprov, hmode, hopens, hchecked⟩
    obtain ⟨hchunk, hsmall, hpos, hpasses, openMode, hheaders, hput⟩ :=
      passes_of_checkOpen hchecked
    obtain ⟨hputs, hgets⟩ := h hprov hmode hopens openMode o.offset hheaders
    rw [hchunk, toNat_limit]
    obtain ⟨hmethod, hsize, -, -, hfile⟩ | ⟨hmethod, hmode, hopen, hfile⟩ := hpasses
    · obtain ⟨hnonneg, hleft⟩ := hgets hmethod hsize
      have hlimit : 0 < r.limit := by omega
      rw [hfile]
      simp only [OpenRequest.left]
      split
      · rename_i hzero
        have := hleft hzero hlimit
        omega
      · omega
    · rw [hput hmode] at hopen
      have hnonneg := hputs hmethod hopen
      rw [hfile]
      omega
  · intro h hprov hmode hopens openMode offset hheaders
    -- what is opened, if the sizes are small enough
    have hpass : (firstChar r.method = Slots.code 'g' ∧ 0 ≤ r.size.toInt ∨
        firstChar r.method = Slots.code 'p' ∧
          (firstChar openMode = Slots.code 'w' ∨ firstChar openMode = Slots.code 'm')) →
        r.fileSize.toInt < r.limit * 0xffff → ∃ o, Passes r o ∧
          o.offset = offset ∧ 0 ≤ o.fileSize.toInt ∧ o.fileSize.toInt ≤ r.limit * 0xffff := by
      intro hmethod hsmall
      obtain ⟨o, hchecked, hoffset⟩ := exists_checkOpen hsmall hheaders hmethod
      obtain ⟨hchunk, -, -, hpasses, -⟩ := passes_of_checkOpen hchecked
      obtain ⟨-, hnonneg, hle⟩ := h o ⟨hprov, hmode, hopens, hchecked⟩
      rw [hchunk, toNat_limit] at hle
      exact ⟨o, hpasses, hoffset, hnonneg, hle⟩
    have hne : Slots.code 'g' ≠ Slots.code 'p' := by decide
    refine ⟨fun hmethod hopen => ?_, fun hmethod hsize => ⟨?_, fun hzero hlimit => ?_⟩⟩
    · by_contra hneg
      obtain ⟨o, hpasses, -, hnonneg, -⟩ := hpass (.inr ⟨hmethod, hopen⟩) (by omega)
      obtain ⟨hget, -⟩ | ⟨-, -, -, hfile⟩ := hpasses
      · exact hne (hget.symm.trans hmethod)
      · rw [hfile] at hnonneg
        exact hneg hnonneg
    · by_contra hneg
      obtain ⟨o, hpasses, -, hnonneg, -⟩ := hpass (.inl ⟨hmethod, hsize⟩) (by omega)
      obtain ⟨-, -, -, -, hfile⟩ | ⟨hput, -⟩ := hpasses
      · rw [hfile, if_neg] at hnonneg
        · omega
        · rintro hzero
          rw [hzero] at hneg
          exact hneg (by decide)
      · exact hne (hmethod.symm.trans hput)
    · have hint : r.fileSize.toInt = 0 := by
        rw [hzero]
        rfl
      obtain ⟨o, hpasses, rfl, -, hle⟩ := hpass (.inl ⟨hmethod, hsize⟩) (by omega)
      obtain ⟨-, -, -, -, hfile⟩ | ⟨hput, -⟩ := hpasses
      · rw [hfile, if_pos hzero] at hle
        simp only [OpenRequest.left] at hle
        omega
      · exact absurd (hmethod.symm.trans hput) hne

/-! ### A get -/

/-- A transfer whose range is in the file. -/
structure InFile (tx : Transfer) : Prop where
  mode : tx.mode = .get
  start : tx.nextChunk = 0
  fileSize : 0 ≤ tx.fileSize.toInt
  size : tx.range.length = tx.fileSize.toNat
  /-- The positions of the range are ints. -/
  bound : tx.offset.toNat + tx.fileSize.toNat < 2 ^ 31
  chunkSize : 0 < tx.chunkSize.toNat
  numChunks : tx.numChunks.toNat = ChunkedFile.numChunks tx.chunkSize.toNat tx.range

/-- The packet of a chunk. -/
def Transfer.packet (tx : Transfer) (i : ℕ) : ChunkPacket where
  chunkNum := BitVec.ofNat 16 i
  chunkSize := BitVec.ofNat 16 (chunk tx.chunkSize.toNat tx.range i).length

/-- What every step keeps. -/
structure GetInv (tx : Transfer) (s : GetRun) : Prop where
  same : s.tx = { tx with file := s.tx.file, nextChunk := s.tx.nextChunk }
  bytes : s.tx.file.bytes = tx.file.bytes
  next : s.tx.nextChunk.toNat = s.packets.length
  le : s.packets.length ≤ tx.numChunks.toNat
  once : s.packets = (List.range s.packets.length).map tx.packet
  message (m : List Byte) (h : m ∈ s.messages) : ∃ io p i, s.packets[i]? = some p ∧
    m = chunkMessage io p (chunk tx.chunkSize.toNat tx.range i)

variable {tx : Transfer} {s : GetRun}

theorem InFile.fileSize_eq (h : InFile tx) : (tx.fileSize.toNat : ℤ) = tx.fileSize.toInt := by
  have hpos := h.fileSize
  have := BitVec.toInt_eq_toNat_cond tx.fileSize
  split at this <;> omega

/-- A chunk, as the file is read at its position. -/
theorem read_chunk (i : ℕ) :
    (tx.file.bytes.drop (tx.offset.toNat + i * tx.chunkSize.toNat)).take
      (chunk tx.chunkSize.toNat tx.range i).length = chunk tx.chunkSize.toNat tx.range i := by
  rw [chunk, Transfer.range, List.drop_take, List.drop_drop, List.take_take]
  refine List.take_eq_take_iff.mpr ?_
  rw [List.length_take]
  omega

/-- **A chunk is sent.** -/
theorem InFile.send (h : InFile tx) (hs : s.tx = { tx with
      file := s.tx.file, nextChunk := s.tx.nextChunk }) (hbytes : s.tx.file.bytes = tx.file.bytes)
    {i : ℕ} (hi : i < tx.numChunks.toNat) {io : Sending} (hio : io.seeks = true) :
    ∃ pos, fileSendChunk s.tx (tx.packet i) io =
      (chunkMessage io (tx.packet i) (chunk tx.chunkSize.toNat tx.range i),
        { s.tx with file := { bytes := tx.file.bytes, pos } }) := by
  have hlt := tx.numChunks.isLt
  have hchunk := tx.chunkSize.isLt
  have hnum : (tx.packet i).chunkNum.toNat = i := by
    rw [Transfer.packet, BitVec.toNat_ofNat]
    exact Nat.mod_eq_of_lt (by omega)
  have hsize : (tx.packet i).chunkSize.toNat = (chunk tx.chunkSize.toNat tx.range i).length := by
    have hle : (chunk tx.chunkSize.toNat tx.range i).length ≤ tx.chunkSize.toNat :=
      length_chunk_le i
    rw [Transfer.packet, BitVec.toNat_ofNat]
    exact Nat.mod_eq_of_lt (by omega)
  have hin : i * tx.chunkSize.toNat ≤ tx.fileSize.toNat :=
    h.size ▸ mul_le_length (h.numChunks ▸ hi)
  have hbound := h.bound
  have hpos : (tx.offset + (tx.packet i).chunkNum.setWidth 32 * tx.chunkSize.setWidth 32).toNat =
      tx.offset.toNat + i * tx.chunkSize.toNat := by
    rw [BitVec.toNat_add, BitVec.toNat_mul, BitVec.toNat_setWidth, BitVec.toNat_setWidth, hnum,
      Nat.mod_eq_of_lt (a := i) (by omega), Nat.mod_eq_of_lt (a := tx.chunkSize.toNat) (by omega),
      Nat.mod_eq_of_lt (a := i * tx.chunkSize.toNat) (by omega)]
    exact Nat.mod_eq_of_lt (by omega)
  have hseek : s.tx.file.seek
      (tx.offset + (tx.packet i).chunkNum.setWidth 32 * tx.chunkSize.setWidth 32)
      { seeks := io.seeks, written := 0 } =
      { s.tx.file with pos := tx.offset.toNat + i * tx.chunkSize.toNat } := by
    rw [OpenFile.seek, if_neg, hpos]
    rintro (hneg | hno)
    · rw [BitVec.slt_eq_decide, decide_eq_true_eq, toInt_eq_toNat (by omega)] at hneg
      have hzero : (0 : BitVec 32).toInt = 0 := rfl
      omega
    · simp [hio] at hno
  have hoffset : s.tx.offset = tx.offset := by rw [hs]
  have hcsize : s.tx.chunkSize = tx.chunkSize := by rw [hs]
  have hread : (List.range (chunk tx.chunkSize.toNat tx.range i).length).map (fun n =>
      (chunk tx.chunkSize.toNat tx.range i).getD n (io.stale n)) =
      chunk tx.chunkSize.toNat tx.range i := by
    refine List.ext_getElem (by simp) fun n hn hn' => ?_
    rw [List.getElem_map, List.getElem_range, List.getD_eq_getElem _ _ hn']
  simp only [fileSendChunk, hoffset, hcsize, hseek, OpenFile.readBytes, hbytes, hsize, read_chunk i,
    hread]
  exact ⟨_, rfl⟩

theorem getInv_start (h : InFile tx) : GetInv tx { tx, packets := [], messages := [] } where
  same := rfl
  bytes := rfl
  next := by rw [h.start]; rfl
  le := Nat.zero_le _
  once := rfl
  message m hm := absurd hm List.not_mem_nil

theorem GetInv.send (h : InFile tx) (hs : GetInv tx s) {i : ℕ} (hi : i < s.packets.length)
    {io : Sending} (hio : io.seeks = true) :
    s.packets[i]? = some (tx.packet i) ∧ GetInv tx (s.send (tx.packet i) io) := by
  have hp : s.packets[i]? = some (tx.packet i) := by
    rw [hs.once, List.getElem?_map, List.getElem?_range (by simpa using hi)]
    rfl
  have hlt : i < tx.numChunks.toNat := hi.trans_le hs.le
  obtain ⟨pos, hsend⟩ := h.send hs.same hs.bytes hlt hio
  have heq : s.send (tx.packet i) io =
      { s with
        tx := { s.tx with file := { bytes := tx.file.bytes, pos } }
        messages := s.messages ++
          [chunkMessage io (tx.packet i) (chunk tx.chunkSize.toNat tx.range i)] } := by
    rw [GetRun.send, hsend]
  rw [heq]
  refine ⟨hp, ?_, rfl, hs.next, hs.le, hs.once, fun m hm => ?_⟩
  · rw [hs.same]
  · obtain hm | hm := List.mem_append.mp hm
    · exact hs.message m hm
    · exact ⟨io, tx.packet i, i, hp, List.mem_singleton.mp hm⟩

/-- The packet of a chunk has the size of the chunk. -/
theorem InFile.packet_eq (h : InFile tx) {num : BitVec 16} (hlt : num < tx.numChunks) :
    tx.packet num.toNat = ⟨num, if num + 1 = tx.numChunks ∧
        tx.fileSize.srem (tx.chunkSize.setWidth 32) ≠ 0 then
      (tx.fileSize.srem (tx.chunkSize.setWidth 32)).setWidth 16 else tx.chunkSize⟩ := by
  rw [BitVec.lt_def] at hlt
  have hmax := tx.numChunks.isLt
  have hchunk := tx.chunkSize.isLt
  have hsize : (tx.chunkSize.setWidth 32).toNat = tx.chunkSize.toNat := by
    rw [BitVec.toNat_setWidth]
    omega
  have hrem : (tx.fileSize.srem (tx.chunkSize.setWidth 32)).toNat =
      tx.range.length % tx.chunkSize.toNat := by
    have hbound := h.bound
    rw [BitVec.srem_eq, (BitVec.msb_eq_false_iff_two_mul_lt).mpr (by omega),
      (BitVec.msb_eq_false_iff_two_mul_lt).mpr (by omega), BitVec.toNat_umod, hsize, h.size]
  have hlast : num + 1 = tx.numChunks ↔
      num.toNat + 1 = ChunkedFile.numChunks tx.chunkSize.toNat tx.range := by
    have hone : (1 : BitVec 16).toNat = 1 := rfl
    rw [← h.numChunks, ← BitVec.toNat_inj, BitVec.toNat_add, hone]
    omega
  have hzero : tx.fileSize.srem (tx.chunkSize.setWidth 32) = 0 ↔
      tx.range.length % tx.chunkSize.toNat = 0 := by
    rw [← BitVec.toNat_inj, hrem]
    rfl
  have hmod := Nat.mod_lt tx.range.length h.chunkSize
  rw [Transfer.packet, length_chunk h.chunkSize (h.numChunks ▸ hlt), BitVec.ofNat_toNat,
    BitVec.setWidth_eq]
  simp only [ne_eq, hlast, hzero]
  congr 1
  split
  · rw [← BitVec.toNat_inj, BitVec.toNat_setWidth, hrem, BitVec.toNat_ofNat]
  · rw [BitVec.ofNat_toNat, BitVec.setWidth_eq]

/-- What `checkGet` takes: the packet of the next chunk. -/
theorem checkGet_eq (h : InFile tx) (hs : GetInv tx s) (free : Bool) :
    checkGet s.tx free = if s.packets.length < tx.numChunks.toNat ∧ free = true then
      ({ s.tx with nextChunk := s.tx.nextChunk + 1 }, some (tx.packet s.packets.length))
      else (s.tx, none) := by
  have hnum : s.tx.numChunks = tx.numChunks := by rw [hs.same]
  have hfile : s.tx.fileSize = tx.fileSize := by rw [hs.same]
  have hchunk : s.tx.chunkSize = tx.chunkSize := by rw [hs.same]
  have hlt : s.tx.nextChunk < tx.numChunks ↔ s.packets.length < tx.numChunks.toNat := by
    rw [BitVec.lt_def, hs.next]
  rw [checkGet, hnum]
  by_cases hlen : s.packets.length < tx.numChunks.toNat
  · rw [if_neg (BitVec.not_le.mpr (hlt.mpr hlen))]
    cases free with
    | false => simp
    | true =>
        have hpacket := h.packet_eq (hlt.mpr hlen)
        rw [hs.next] at hpacket
        simp only [hlen, hpacket, hnum, hfile, hchunk, Bool.not_true, Bool.false_eq_true, if_false,
          and_self, if_true]
  · rw [if_pos (BitVec.not_lt.mp (mt hlt.mp hlen)), if_neg fun hboth => hlen hboth.1]

/-- **A look at the transfer.** -/
theorem getInv_check (h : InFile tx) (hs : GetInv tx s) {free : Bool} {io : Sending}
    (hio : io.seeks = true) : GetInv tx (s.next (.check free io)) := by
  have hmode : s.tx.mode = .get := by rw [hs.same]; exact h.mode
  rw [GetRun.next, if_neg (not_not.mpr hmode), checkGet_eq h hs]
  by_cases hlt : s.packets.length < tx.numChunks.toNat ∧ free = true
  · rw [if_pos hlt]
    have hmax := tx.numChunks.isLt
    have hone : (1 : BitVec 16).toNat = 1 := rfl
    have hnext : (s.tx.nextChunk + 1).toNat = s.packets.length + 1 := by
      rw [BitVec.toNat_add, hs.next, hone]
      omega
    have hlen : (s.packets ++ [tx.packet s.packets.length]).length = s.packets.length + 1 := by
      rw [List.length_append, List.length_singleton]
    have htaken : GetInv tx
        { s with
          tx := { s.tx with nextChunk := s.tx.nextChunk + 1 }
          packets := s.packets ++ [tx.packet s.packets.length] } := by
      refine ⟨?_, hs.bytes, hnext.trans hlen.symm, hlen.trans_le hlt.1, ?_, fun m hm => ?_⟩
      · rw [hs.same]
      · rw [hlen, List.range_succ, List.map_append, ← hs.once, List.map_singleton]
      · obtain ⟨io', p, i, hp, heq⟩ := hs.message m hm
        refine ⟨io', p, i, ?_, heq⟩
        rw [List.getElem?_append_left (List.getElem?_eq_some_iff.mp hp).1]
        exact hp
    exact (htaken.send h (by simp) hio).2
  · rw [if_neg hlt]
    exact hs

/-- The next chunk is sent when there is a packet. -/
theorem length_check (h : InFile tx) (hs : GetInv tx s) (hlt : s.packets.length < tx.numChunks.toNat)
    (io : Sending) : (s.next (.check true io)).packets.length = s.packets.length + 1 := by
  have hmode : s.tx.mode = .get := by rw [hs.same]; exact h.mode
  rw [GetRun.next, if_neg (not_not.mpr hmode), checkGet_eq h hs, if_pos ⟨hlt, rfl⟩]
  simp [GetRun.send]

theorem getInv_retry (h : InFile tx) (hs : GetInv tx s) {i : ℕ} {io : Sending}
    (hio : io.seeks = true) : GetInv tx (s.next (.retry i io)) := by
  rw [GetRun.next]
  split
  · exact hs
  · rename_i p hp
    obtain ⟨hi, -⟩ := List.getElem?_eq_some_iff.mp hp
    obtain ⟨hp', hinv⟩ := hs.send h hi hio
    rw [Option.some.inj (hp.symm.trans hp')]
    exact hinv

theorem getInv_of_reachable (h : InFile tx)
    (hs : ((getSystem tx).restrict fun _ e => e.Works).Reachable s) : GetInv tx s := by
  refine hs.invariant ?_ ?_
  · rintro _ rfl
    exact getInv_start h
  · rintro s e t hs ⟨hworks, hstep⟩
    obtain rfl : s.next e = t := Option.some.inj hstep
    cases e with
    | check free io => exact getInv_check h hs hworks
    | retry i io => exact getInv_retry h hs hworks

/-- **A get sends every chunk once.** -/
theorem coversFile (h : InFile tx) (hopened : Opened tx)
    (hs : ((getSystem tx).restrict fun _ e => e.Works).Reachable s) : Covers tx s := by
  have hinv := getInv_of_reachable h hs
  have hnum := hopened.numChunks
  refine ⟨hinv.once, ?_, fun m hm => ?_, fun hall => ?_, fun hlt io => ?_⟩
  · rw [← hnum]
    exact_mod_cast hinv.le
  · obtain ⟨io, p, i, hp, rfl⟩ := hinv.message m hm
    exact ⟨hopened.fits io p _ (length_chunk_le i), io, p, i, hp, rfl⟩
  · rw [← hnum, h.numChunks] at hall
    have hlen : s.packets.length = ChunkedFile.numChunks tx.chunkSize.toNat tx.range := by
      exact_mod_cast hall
    rw [hlen, flatMap_chunk h.chunkSize]
  · rw [← hnum] at hlt
    exact length_check h hinv (by exact_mod_cast hlt) io

theorem Granted.chunkSize_le (h : Granted r o) : o.chunkSize.toNat ≤ 494 := by
  rw [(passes_of_checkOpen h.checked).1, toNat_limit]
  exact Nat.min_le_right _ _

/-- A get that is granted is about a part of the file. -/
theorem Granted.inFile (h : Granted r o) (hfile : 0 ≤ r.size.toInt → r.size.toInt = file.length)
    (hget : o.mode = .get) (hsizes : 0 < o.chunkSize.toNat ∧ 0 ≤ o.fileSize.toInt ∧
      o.fileSize.toInt ≤ o.chunkSize.toNat * 0xffff) :
    InFile (openTransfer o (openBytes o.openMode file)) := by
  obtain ⟨hpos, hnonneg, hle⟩ := hsizes
  have hchunk := h.chunkSize_le
  obtain ⟨-, -, hoffset, hpasses, -⟩ := passes_of_checkOpen h.checked
  obtain ⟨-, hsize, -, hopen, hleft⟩ | ⟨-, hput, -, -⟩ := hpasses
  case put => rw [hget] at hput; cases hput
  have hlen := hfile hsize
  have hlt := BitVec.toInt_lt (x := r.size)
  have hbytes : openBytes o.openMode file = file := by
    rw [hopen]
    exact if_neg (by decide)
  have hoff : (o.offset.toNat : ℤ) = o.offset.toInt := by
    have := BitVec.toInt_eq_toNat_cond o.offset
    split at this <;> omega
  have hnat : (o.fileSize.toNat : ℤ) = o.fileSize.toInt := by
    have := BitVec.toInt_eq_toNat_cond o.fileSize
    split at this <;> omega
  have hmax : o.fileSize.toInt ≤ max 0 (file.length - o.offset.toInt) := by
    rw [hleft, OpenRequest.left, hlen]
    split
    · exact le_rfl
    · exact min_le_right _ _
  have hrange : (openTransfer o (openBytes o.openMode file)).range.length = o.fileSize.toNat := by
    rw [hbytes]
    change ((file.drop o.offset.toNat).take o.fileSize.toNat).length = _
    rw [List.length_take, List.length_drop]
    omega
  refine ⟨hget, rfl, hnonneg, hrange, ?_, ?_, ?_⟩
  · have hlt' := BitVec.toInt_lt (x := o.offset)
    change o.offset.toNat + o.fileSize.toNat < 2 ^ 31
    omega
  · rw [toNat_chunkSize hchunk]
    exact hpos
  · rw [toNat_numChunks_of ⟨hpos, hchunk⟩ (by omega), ChunkedFile.numChunks, hrange,
      toNat_chunkSize hchunk]

/-- **Requests that are opened safely.** -/
theorem safe_iff (hfile : 0 ≤ r.size.toInt → r.size.toInt = file.length) :
    Safe r file ↔ Sound r := by
  rw [sound_iff]
  constructor
  · intro h o ho
    have hopen : fileOpenReq r file = _ := fileOpenReq_of_granted ho
    have hne : o.chunkSize ≠ 0 := by
      intro hzero
      rw [if_pos hzero] at hopen
      exact h.divides hopen
    have hc : 0 < o.chunkSize.toNat ∧ o.chunkSize.toNat ≤ 494 :=
      ⟨Nat.pos_of_ne_zero fun hzero => hne (BitVec.eq_of_toNat_eq hzero), ho.chunkSize_le⟩
    rw [if_neg hne] at hopen
    exact ⟨hc.1, (opened_iff hc).mp (h.opened hopen)⟩
  · intro h
    -- what is opened has been granted
    have hinv : ∀ {x}, fileOpenReq r file = x → (∃ cause, x = some (.error cause)) ∨
        ∃ o, Granted r o ∧ 0 < o.chunkSize.toNat ∧
          x = some (.ok (openTransfer o (openBytes o.openMode file))) := by
      rintro x rfl
      obtain hcause | ⟨o, ho⟩ := fileOpenReq_cases r file
      · exact .inl hcause
      · have hpos := (h o ho).1
        rw [fileOpenReq_of_granted ho, if_neg (by rintro hzero; rw [hzero] at hpos; cases hpos)]
        exact .inr ⟨o, ho, hpos, rfl⟩
    refine ⟨fun hnone => ?_, fun {tx} htx => ?_, fun {tx s} htx hget hs => ?_⟩
    · obtain ⟨cause, hcause⟩ | ⟨o, -, -, ho⟩ := hinv hnone
      · cases hcause
      · cases ho
    · obtain ⟨cause, hcause⟩ | ⟨o, ho, hpos, heq⟩ := hinv htx
      · cases hcause
      · cases heq
        exact (opened_iff ⟨hpos, ho.chunkSize_le⟩).mpr (h o ho).2
    · obtain ⟨cause, hcause⟩ | ⟨o, ho, hpos, heq⟩ := hinv htx
      · cases hcause
      · cases heq
        exact coversFile (ho.inFile hfile hget (h o ho))
          ((opened_iff ⟨hpos, ho.chunkSize_le⟩).mpr (h o ho).2) hs

/-! ### Two requests -/

/-- A device that holds a file of five bytes, and lets the user write it. -/
def holder : Platform := { bare with canProv := fun _ _ _ => true, fileSize := fun _ _ => 5 }

/-- A request for that file without headers. -/
def request (method : String) (fileSize : BitVec 32) (chunkSize : BitVec 16) :
    OpenRequest holder where
  app := ⟨[], ()⟩
  user := ()
  mode := .unused
  method := text method
  uri := text "f"
  fileSize := fileSize
  chunkSize := chunkSize
  headers := headers []
  opens := true

theorem headers_request {method : String} {fileSize : BitVec 32} {chunkSize : BitVec 16} :
    (request method fileSize chunkSize).Headers (text "w") 0 := by
  change ((readHeaders ((headers []).size + 1) (text "w") 0).run (headers [])).1 = _
  decide +kernel

/-- The whole file in chunks of four. -/
theorem safe_hello : Safe (request "g" 0 4) hello := by
  refine (safe_iff fun _ => rfl).mpr fun _ _ _ openMode offset hheaders => ?_
  obtain ⟨rfl, rfl⟩ := Prod.mk.inj (Except.ok.inj (headers_request.symm.trans hheaders))
  exact ⟨fun hmethod => absurd hmethod (by decide), fun _ _ => ⟨by decide, fun _ _ => by decide⟩⟩

/-- A negative size in chunks of zero bytes. -/
theorem not_safe : ¬ ∀ (P : Platform) (r : OpenRequest P) (file : List Byte),
    (0 ≤ r.size.toInt → r.size.toInt = file.length) → Safe r file := by
  intro h
  obtain ⟨o, hchecked, -⟩ := exists_checkOpen (r := request "p" (-1) 0) (by decide)
    headers_request (.inr ⟨rfl, .inl (by decide)⟩)
  have hzero : o.chunkSize = 0 := (passes_of_checkOpen hchecked).1.trans (by decide)
  refine (h holder (request "p" (-1) 0) hello fun _ => rfl).divides ?_
  rw [fileOpenReq_of_granted ⟨rfl, rfl, rfl, hchecked⟩, if_pos hzero]

end Sedona.Sox.FileTransfer
