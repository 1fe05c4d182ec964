import Mathlib.Data.List.Perm.Subperm
import Mathlib.Tactic.IntervalCases
import Sedona.Library.ChunkedFile
import Sedona.Library.Transition
import Sedona.Sox.SlotIsolation

/-!
# Put Transfers

A file that a client sends in chunks (`SoxCommands.fileReceiveChunk`, `FileTransfer.checkPut`), from
the request that opens the transfer on. Chunks arrive in any order, and the service looks at any
time whether the transfer is complete.

The file has the semantics of `sys_FileStore_std.c`: a seek to a negative position fails, and where
a seek or a write fails for another reason is left open. What fails is not looked at.

## Main results

* `checkOpen_put`: what is known of a put that `fileOpenReq` accepts.
* `inv_next`: what every step keeps.
* `put_exact`: the file is assembled, as long as all positions are ints and the store does what it
  is asked to do.
* `not_put_exact`: an offset near the limit.
-/

namespace Sedona.Sox.FileTransfer

open Slots ChunkedFile Transition

abbrev Byte := BitVec 8

/-! ### Data -/

/-- A file that is open. -/
structure OpenFile where
  bytes : List Byte
  pos : ℕ
deriving DecidableEq

/-- How far the file store does what it is asked to do. -/
structure Outcome where
  /-- A seek to a position that is not negative succeeds. -/
  seeks : Bool
  /-- The number of bytes that can be written. -/
  written : ℕ

/-- `sox::FileTransfer`, with the number of close messages that have been sent. -/
structure Transfer where
  mode : TransferMode
  file : OpenFile
  fileSize : BitVec 32
  offset : BitVec 32
  numChunks : BitVec 16
  chunkSize : BitVec 16
  nextChunk : BitVec 16
  closes : ℕ

/-- What a chunk message holds behind its header. -/
structure Chunk where
  chunkNum : BitVec 16
  bytes : List Byte
deriving DecidableEq

/-! ### The device -/

/-- `FileStore.doOpen` for writing: the bytes of the file when it is open. -/
def openBytes (openMode : Str) (file : List Byte) : List Byte :=
  if firstChar openMode = Slots.code 'w' then [] else file

/-- The end of `SoxCommands.fileOpenReq`. -/
def openTransfer (o : Opening) (file : List Byte) : Transfer where
  mode := o.mode
  file := { bytes := file, pos := 0 }
  fileSize := o.fileSize
  offset := o.offset
  numChunks := (o.fileSize.sdiv o.chunkSize).setWidth 16 +
    if o.fileSize.srem o.chunkSize = 0 then 0 else 1
  chunkSize := o.chunkSize.setWidth 16
  nextChunk := 0
  closes := 0

/-- `File.seek`. -/
def OpenFile.seek (f : OpenFile) (pos : BitVec 32) (r : Outcome) : OpenFile :=
  if pos.slt 0 ∨ !r.seeks then f else { f with pos := pos.toNat }

/-- `FileOutStream.writeBytes`. -/
def OpenFile.writeBytes (f : OpenFile) (bs : List Byte) (r : Outcome) : OpenFile where
  bytes := writeAt 0 f.bytes f.pos (bs.take r.written)
  pos := f.pos + (bs.take r.written).length

/-- `SoxCommands.fileReceiveChunk`. -/
def fileReceiveChunk (tx : Transfer) (m : Chunk) (r : Outcome) : Transfer :=
  if tx.mode ≠ .put then tx
  else
    let file := tx.file.seek (tx.offset + m.chunkNum.setWidth 32 * tx.chunkSize.setWidth 32) r
    { tx with file := file.writeBytes m.bytes r, numChunks := tx.numChunks - 1 }

/-- `FileTransfer.checkPut`, with whether there is a packet for the close message. -/
def checkPut (tx : Transfer) (free : Bool) : Transfer :=
  if 0 < tx.numChunks then tx
  else if !free then tx
  else { tx with mode := .unused, closes := tx.closes + 1 }

/-- The part of `SoxService.checkFileTransfers` for a put. -/
def checkFileTransfer (tx : Transfer) (free : Bool) : Transfer :=
  match tx.mode with
  | .put => checkPut tx free
  | _ => tx

/-! ### Runs -/

/-- What happens to a transfer. -/
inductive Event where
  | chunk (m : Chunk) (r : Outcome)
  | check (free : Bool)

/-- A transfer, with the chunks that have arrived. -/
structure Run where
  tx : Transfer
  arrived : List Chunk

def Run.next (s : Run) : Event → Run
  | .chunk m r => { tx := fileReceiveChunk s.tx m r, arrived := s.arrived ++ [m] }
  | .check free => { s with tx := checkFileTransfer s.tx free }

variable (o : Opening) (data file : List Byte)

/-- The runs of a transfer of a file that exists already. -/
def system : System Run Event :=
  .ofNext (· = { tx := openTransfer o (openBytes o.openMode file), arrived := [] })
    fun s e => some (s.next e)

/-- The chunk message of a number, for the bytes to be sent. -/
def sent (i : ℕ) : Chunk where
  chunkNum := BitVec.ofNat 16 i
  bytes := chunk o.chunkSize.toNat data i

/-- What arrives is a chunk of the file that has not arrived before. -/
def Delivered (s : Run) : Event → Prop
  | .chunk m _ => m ∉ s.arrived ∧ ∃ i < numChunks o.chunkSize.toNat data, m = sent o data i
  | .check _ => True

/-- The position of a chunk is an int, and the store does what it is asked to do. -/
def Works : Event → Prop
  | .chunk m r => o.offset.toNat + m.chunkNum.toNat * o.chunkSize.toNat < 2 ^ 31 ∧
      r.seeks ∧ m.bytes.length ≤ r.written
  | .check _ => True

/-- The transfer assembles the file. -/
structure Exact (s : Run) : Prop where
  /-- The close message is sent once, when all chunks have arrived and the file is complete. -/
  closes : s.tx.closes = 0 ∨ s.tx.closes = 1 ∧
    s.arrived.Perm ((List.range (numChunks o.chunkSize.toNat data)).map (sent o data))
  /-- At the end the sent bytes are at their place, and everything else is as before. -/
  bytes (h : s.tx.mode = .unused) : s.tx.closes = 1 ∧
    s.tx.file.bytes = writeAt 0 (openBytes o.openMode file) o.offset.toNat data
  /-- The transfer ends once everything has arrived and there is a packet. -/
  ends (h : s.arrived.Perm ((List.range (numChunks o.chunkSize.toNat data)).map (sent o data))) :
    (s.next (.check true)).tx.mode = .unused

/-! ### The request -/

variable {o} {data file}

/-- **What is known of a put that `fileOpenReq` accepts.** -/
structure Accepted (o : Opening) (data : List Byte) : Prop where
  mode : o.mode = .put
  fileSize : o.fileSize.toNat = data.length
  chunkSize : 0 < o.chunkSize.toNat ∧ o.chunkSize.toNat ≤ 494
  small : data.length < o.chunkSize.toNat * 0xffff

theorem toInt_eq_toNat {x : BitVec 32} (h : x.toNat < 2 ^ 31) : x.toInt = x.toNat :=
  BitVec.toInt_eq_toNat_of_lt (by omega)

theorem limitChunk_le {c : BitVec 32} (h : c.toNat < 2 ^ 16) : (limitChunk c).toNat ≤ 494 := by
  have hsum : (c + 18).toNat = c.toNat + 18 := by
    rw [BitVec.toNat_add]
    exact Nat.mod_eq_of_lt (by change c.toNat + 18 < 2 ^ 32; omega)
  unfold limitChunk
  split
  · decide
  · rename_i hle
    rw [BitVec.sle_eq_decide, decide_eq_true_eq, toInt_eq_toNat (x := c + 18) (by omega), hsum] at hle
    have h512 : (512#32).toInt = 512 := by decide
    omega

theorem openMethod_put {P : Platform} {app : P.App} {method uri openMode : Str}
    {fileSize offset chunkSize : BitVec 32}
    (h : openMethod app method uri openMode fileSize offset chunkSize = .ok o)
    (hput : o.mode = .put) : o.fileSize = fileSize ∧ o.chunkSize = chunkSize := by
  unfold openMethod at h
  split at h
  · split at h
    · cases h
    · cases h
      cases hput
  · split at h
    · split at h
      · cases h
        exact ⟨rfl, rfl⟩
      · cases h
    · cases h

theorem checkOpen_put {P : Platform} {app : P.App} {method uri : Str}
    {fileSize chunkSize : BitVec 32} {input : BufInStream} (hchunk : chunkSize.toNat < 2 ^ 16)
    (h : checkOpen app method uri fileSize chunkSize input = .ok o) (hput : o.mode = .put)
    (hdata : fileSize.toInt = data.length) : Accepted o data := by
  unfold checkOpen at h
  split at h
  case isTrue => cases h
  case isFalse hsize =>
    split at h
    case h_1 => cases h
    case h_2 openMode offset _ =>
      obtain ⟨rfl, hc⟩ := openMethod_put h hput
      have hle := limitChunk_le hchunk
      rw [← hc] at hle hsize
      have hprod : (o.chunkSize * 0xffff).toNat = o.chunkSize.toNat * 0xffff := by
        rw [BitVec.toNat_mul]
        exact Nat.mod_eq_of_lt (by change o.chunkSize.toNat * 65535 < 2 ^ 32; omega)
      have hnat : o.fileSize.toNat = data.length := by
        have := BitVec.toInt_eq_toNat_cond o.fileSize
        split at this <;> omega
      rw [BitVec.sle_eq_decide, decide_eq_true_eq, toInt_eq_toNat (by omega), hprod, hdata] at hsize
      refine ⟨hput, hnat, ⟨?_, hle⟩, by omega⟩
      omega

/-- What is counted of a size that is not negative and has few enough chunks. -/
theorem toNat_numChunks_of (hc : 0 < o.chunkSize.toNat ∧ o.chunkSize.toNat ≤ 494)
    (hsmall : o.fileSize.toNat ≤ o.chunkSize.toNat * 0xffff) :
    (openTransfer o file).numChunks.toNat = o.fileSize.toNat / o.chunkSize.toNat +
      if o.fileSize.toNat % o.chunkSize.toNat = 0 then 0 else 1 := by
  obtain ⟨hpos, hle⟩ := hc
  have hfile : o.fileSize.msb = false := by
    rw [BitVec.msb_eq_false_iff_two_mul_lt]
    have := Nat.mul_le_mul_right 0xffff hle
    omega
  have hchunk : o.chunkSize.msb = false := by
    rw [BitVec.msb_eq_false_iff_two_mul_lt]
    omega
  have hdiv : (o.fileSize.sdiv o.chunkSize).toNat = o.fileSize.toNat / o.chunkSize.toNat := by
    rw [BitVec.sdiv_eq, hfile, hchunk, BitVec.udiv_eq, BitVec.toNat_udiv]
  have hrem : o.fileSize.srem o.chunkSize = 0 ↔ o.fileSize.toNat % o.chunkSize.toNat = 0 := by
    rw [BitVec.srem_eq, hfile, hchunk, ← BitVec.toNat_inj, BitVec.toNat_umod]
    rfl
  have hmax : o.fileSize.toNat / o.chunkSize.toNat +
      (if o.fileSize.toNat % o.chunkSize.toNat = 0 then 0 else 1) ≤ 0xffff := by
    have hmod := Nat.div_add_mod o.fileSize.toNat o.chunkSize.toNat
    have hq : o.fileSize.toNat / o.chunkSize.toNat ≤ 0xffff :=
      Nat.div_le_of_le_mul hsmall
    split
    · exact hq
    · rename_i hm
      rcases hq.lt_or_eq with hlt | heq
      · omega
      · rw [heq] at hmod
        omega
  simp only [openTransfer, BitVec.toNat_add, BitVec.toNat_setWidth, hdiv]
  have hzero : (0 : BitVec 16).toNat = 0 := rfl
  have hone : (1 : BitVec 16).toNat = 1 := rfl
  by_cases hm : o.fileSize.toNat % o.chunkSize.toNat = 0
  · rw [if_pos (hrem.mpr hm), if_pos hm, hzero]
    rw [if_pos hm] at hmax
    omega
  · rw [if_neg fun hz => hm (hrem.mp hz), if_neg hm, hone]
    rw [if_neg hm] at hmax
    omega

/-- There are as many chunks as the device counts, and fewer than `0xffff`. -/
theorem numChunks_lt (h : Accepted o data) : numChunks o.chunkSize.toNat data ≤ 0xffff := by
  have hlt : data.length / o.chunkSize.toNat < 0xffff := Nat.div_lt_of_lt_mul h.small
  unfold numChunks
  split <;> omega

theorem toNat_numChunks (file : List Byte) (h : Accepted o data) :
    (openTransfer o file).numChunks.toNat = numChunks o.chunkSize.toNat data := by
  rw [toNat_numChunks_of h.chunkSize (by rw [h.fileSize]; exact h.small.le), h.fileSize]
  rfl

/-! ### The invariant -/

/-- What holds between the steps, when the chunks of these numbers have arrived. -/
structure Inv (o : Opening) (data file : List Byte) (s : Run) (is : List ℕ) : Prop where
  offset : s.tx.offset = o.offset
  chunkSize : s.tx.chunkSize = o.chunkSize.setWidth 16
  arrived : s.arrived = is.map (sent o data)
  nodup : is.Nodup
  bound : ∀ i ∈ is, i < numChunks o.chunkSize.toNat data
  bytes : s.tx.file.bytes = writeChunks 0 (openBytes o.openMode file) o.offset.toNat
    o.chunkSize.toNat data is
  /-- The chunks that are still to come are counted. -/
  count : s.tx.mode = .put ∧ s.tx.closes = 0 ∧
      s.tx.numChunks.toNat + is.length = numChunks o.chunkSize.toNat data ∨
    s.tx.mode = .unused ∧ s.tx.closes = 1 ∧ is.length = numChunks o.chunkSize.toNat data

variable {s : Run} {is : List ℕ}

theorem Inv.subperm (h : Inv o data file s is) :
    is.Subperm (List.range (numChunks o.chunkSize.toNat data)) :=
  List.subperm_of_subset h.nodup fun i hi => List.mem_range.mpr (h.bound i hi)

/-- When as many chunks have arrived as there are, all of them have. -/
theorem Inv.perm (h : Inv o data file s is)
    (hlen : is.length = numChunks o.chunkSize.toNat data) :
    is.Perm (List.range (numChunks o.chunkSize.toNat data)) :=
  h.subperm.perm_of_length_le (by rw [List.length_range, hlen])

theorem inv_start (h : Accepted o data) :
    Inv o data file { tx := openTransfer o (openBytes o.openMode file), arrived := [] } [] where
  offset := rfl
  chunkSize := rfl
  arrived := rfl
  nodup := List.nodup_nil
  bound := by simp
  bytes := rfl
  count := .inl ⟨h.mode, rfl, toNat_numChunks (openBytes o.openMode file) h⟩

/-- **A chunk arrives.** -/
theorem inv_chunk (hacc : Accepted o data) (h : Inv o data file s is) {i : ℕ} {r : Outcome}
    (hnew : sent o data i ∉ s.arrived) (hi : i < numChunks o.chunkSize.toNat data)
    (hworks : Works o (.chunk (sent o data i) r)) :
    Inv o data file (s.next (.chunk (sent o data i) r)) (is ++ [i]) := by
  have hnotin : i ∉ is := fun hmem => hnew (h.arrived ▸ List.mem_map_of_mem hmem)
  have hnodup : (is ++ [i]).Nodup := by
    refine List.nodup_append.mpr ⟨h.nodup, List.nodup_singleton i, fun j hj k hk => ?_⟩
    rw [List.mem_singleton.mp hk]
    exact fun heq => hnotin (heq ▸ hj)
  have hbound : ∀ j ∈ is ++ [i], j < numChunks o.chunkSize.toNat data := by
    intro j hj
    rcases List.mem_append.mp hj with hj | hj
    · exact h.bound j hj
    · exact List.mem_singleton.mp hj ▸ hi
  have hmore : is.length + 1 ≤ numChunks o.chunkSize.toNat data := by
    have hsub := List.subperm_of_subset hnodup fun j hj => List.mem_range.mpr (hbound j hj)
    simpa using hsub.length_le
  -- the transfer cannot have ended yet
  obtain ⟨hmode, hcloses, hcount⟩ | ⟨-, -, hlen⟩ := h.count
  case inr => omega
  obtain ⟨hpos, hseeks, hwritten⟩ := hworks
  have hmax := numChunks_lt hacc
  have hnum : (sent o data i).chunkNum.toNat = i := by
    rw [sent, BitVec.toNat_ofNat]
    exact Nat.mod_eq_of_lt (by omega)
  rw [hnum] at hpos
  have hat : (s.tx.offset + (sent o data i).chunkNum.setWidth 32 *
      s.tx.chunkSize.setWidth 32).toNat = o.offset.toNat + i * o.chunkSize.toNat := by
    have hsize : (s.tx.chunkSize.setWidth 32).toNat = o.chunkSize.toNat := by
      have := hacc.chunkSize.2
      rw [h.chunkSize, BitVec.toNat_setWidth, BitVec.toNat_setWidth]
      omega
    rw [BitVec.toNat_add, BitVec.toNat_mul, BitVec.toNat_setWidth, hnum, hsize, h.offset]
    have hi16 : i % 2 ^ 32 = i := by omega
    rw [hi16]
    omega
  have hseek : (s.tx.file.seek (s.tx.offset + (sent o data i).chunkNum.setWidth 32 *
      s.tx.chunkSize.setWidth 32) r) =
      { s.tx.file with pos := o.offset.toNat + i * o.chunkSize.toNat } := by
    have hslt : ¬ (s.tx.offset + (sent o data i).chunkNum.setWidth 32 *
        s.tx.chunkSize.setWidth 32).slt 0 := by
      rw [BitVec.slt_eq_decide, decide_eq_true_eq, toInt_eq_toNat (by omega)]
      have hzero : (0 : BitVec 32).toInt = 0 := rfl
      omega
    rw [OpenFile.seek, if_neg, hat]
    rintro (hneg | hno)
    · exact hslt hneg
    · simp [hseeks] at hno
  have hnext : s.next (.chunk (sent o data i) r) =
      { tx := { s.tx with
          file := { s.tx.file with pos := o.offset.toNat + i * o.chunkSize.toNat }.writeBytes
            (sent o data i).bytes r
          numChunks := s.tx.numChunks - 1 }
        arrived := s.arrived ++ [sent o data i] } := by
    rw [Run.next, fileReceiveChunk, if_neg (not_not.mpr hmode), hseek]
  rw [hnext]
  exact {
    offset := h.offset
    chunkSize := h.chunkSize
    arrived := by rw [h.arrived, List.map_append, List.map_singleton]
    nodup := hnodup
    bound := hbound
    bytes := by
      rw [writeChunks_concat, ← h.bytes]
      simp only [OpenFile.writeBytes, List.take_of_length_le hwritten]
      rfl
    count := by
      refine .inl ⟨hmode, hcloses, ?_⟩
      have hone : (1 : BitVec 16).toNat = 1 := rfl
      simp only [BitVec.toNat_sub, List.length_append, List.length_singleton, hone]
      omega }

theorem inv_check (h : Inv o data file s is) (free : Bool) :
    Inv o data file (s.next (.check free)) is := by
  unfold Run.next checkFileTransfer
  dsimp only
  split
  case h_2 => exact h
  case h_1 hput =>
    unfold checkPut
    split
    · exact h
    · rename_i hnum
      split
      · exact h
      · obtain ⟨-, hcloses, hcount⟩ | ⟨hunused, -, -⟩ := h.count
        · have hzero : s.tx.numChunks.toNat = 0 := by
            rw [BitVec.lt_def] at hnum
            exact Nat.eq_zero_of_not_pos hnum
          exact { h with count := .inr ⟨rfl, by rw [hcloses], by omega⟩ }
        · rw [hput] at hunused
          cases hunused

/-- What every step keeps. -/
theorem inv_next (hacc : Accepted o data) (h : Inv o data file s is) {e : Event}
    (hdelivered : Delivered o data s e) (hworks : Works o e) :
    ∃ is', Inv o data file (s.next e) is' := by
  cases e with
  | chunk m r =>
      obtain ⟨hnew, i, hi, rfl⟩ := hdelivered
      exact ⟨_, inv_chunk hacc h hnew hi hworks⟩
  | check free => exact ⟨is, inv_check h free⟩

theorem inv_of_reachable (hacc : Accepted o data)
    (h : ((system o file).restrict fun s e => Delivered o data s e ∧ Works o e).Reachable s) :
    ∃ is, Inv o data file s is := by
  refine h.invariant (I := fun s => ∃ is, Inv o data file s is) ?_ ?_
  · rintro _ rfl
    exact ⟨[], inv_start hacc⟩
  · rintro s e u ⟨is, hs⟩ ⟨⟨hdelivered, hworks⟩, hstep⟩
    obtain rfl : s.next e = u := Option.some.inj hstep
    exact inv_next hacc hs hdelivered hworks

theorem Inv.exact (hacc : Accepted o data) (h : Inv o data file s is) : Exact o data file s := by
  have hperm : is.length = numChunks o.chunkSize.toNat data →
      s.arrived.Perm ((List.range (numChunks o.chunkSize.toNat data)).map (sent o data)) := by
    intro hlen
    rw [h.arrived]
    exact (h.perm hlen).map _
  constructor
  case closes =>
    obtain ⟨-, hcloses, -⟩ | ⟨-, hcloses, hlen⟩ := h.count
    · exact .inl hcloses
    · exact .inr ⟨hcloses, hperm hlen⟩
  case bytes =>
    intro hmode
    obtain ⟨hput, -, -⟩ | ⟨-, hcloses, hlen⟩ := h.count
    · rw [hmode] at hput
      cases hput
    · refine ⟨hcloses, ?_⟩
      rw [h.bytes]
      exact writeChunks_perm hacc.chunkSize.1 (h.perm hlen)
  case ends =>
    intro hall
    have hlen : is.length = numChunks o.chunkSize.toNat data := by
      have := hall.length_eq
      rwa [h.arrived, List.length_map, List.length_map, List.length_range] at this
    obtain ⟨hput, -, hcount⟩ | ⟨hunused, -, -⟩ := h.count
    · have hzero : ¬ 0 < s.tx.numChunks := by
        rw [BitVec.lt_def]
        change ¬ 0 < s.tx.numChunks.toNat
        omega
      rw [Run.next, checkFileTransfer, hput]
      dsimp only
      rw [checkPut, if_neg hzero]
      rfl
    · rw [Run.next, checkFileTransfer, hunused]
      exact hunused

/-- **A put transfer assembles the file,** in every run of an accepted transfer in which its chunks
arrive in any order, none of them twice, and in which every chunk has its position among the ints
and is written. -/
theorem put_exact {P : Platform} {app : P.App} {method uri : Str} {fileSize chunkSize : BitVec 32}
    {input : BufInStream} (hchunk : chunkSize.toNat < 2 ^ 16)
    (hopen : checkOpen app method uri fileSize chunkSize input = .ok o) (hput : o.mode = .put)
    (hdata : fileSize.toInt = data.length)
    (h : ((system o file).restrict fun s e => Delivered o data s e ∧ Works o e).Reachable s) :
    Exact o data file s := by
  have hacc := checkOpen_put hchunk hopen hput hdata
  obtain ⟨is, hs⟩ := inv_of_reachable hacc h
  exact hs.exact hacc

/-! ### Two transfers -/

/-- Headers of a request. -/
def headers (hs : List (String × String)) : BufInStream :=
  let bs := hs.flatMap (fun (name, val) => text name ++ [0] ++ text val ++ [0]) ++ [0]
  { bytes := fun n => bs.getD n 0, size := bs.length }

/-- Five bytes in chunks of four. -/
def hello : List Byte := text "hello"

def opening (offset : BitVec 32) : Opening where
  mode := .put
  openMode := text "w"
  fileSize := 5
  offset := offset
  chunkSize := 4

def done : Outcome where
  seeks := true
  written := 4

/-- The chunks arrive in the wrong order, and then the transfer is complete. -/
def after (o : Opening) : Run :=
  let start : Run := { tx := openTransfer o (openBytes o.openMode []), arrived := [] }
  ((start.next (.chunk (sent o hello 1) done)).next (.chunk (sent o hello 0) done)).next
    (.check true)

theorem opens {offset : BitVec 32} {hs : List (String × String)}
    (h : ((readHeaders ((headers hs).size + 1) (text "w") 0).run (headers hs)).1 =
      .ok (text "w", offset)) :
    checkOpen (P := bare) ⟨[], ()⟩ (text "p") (text "f") 5 4 (headers hs) =
      .ok (opening offset) := by
  have hlimit : limitChunk 4 = 4 := by decide
  have hsmall : ¬ (limitChunk 4 * 0xffff).sle 5 := by decide
  rw [checkOpen, if_neg hsmall, h, hlimit]
  rfl

theorem opens_zero : checkOpen (P := bare) ⟨[], ()⟩ (text "p") (text "f") 5 4 (headers []) =
    .ok (opening 0) :=
  opens (by decide +kernel)

theorem opens_limit : checkOpen (P := bare) ⟨[], ()⟩ (text "p") (text "f") 5 4
    (headers [("offset", "2147483647")]) = .ok (opening 2147483647) :=
  opens (by decide +kernel)

/-- All chunks arrive, each of them once. -/
theorem reachable_after {offset : BitVec 32} {p : Run → Event → Prop}
    (hchunk : ∀ s, ∀ i < 2, Delivered (opening offset) hello s
        (.chunk (sent (opening offset) hello i) done) →
      p s (.chunk (sent (opening offset) hello i) done))
    (hcheck : ∀ s, p s (.check true)) :
    ((system (opening offset) []).restrict p).Reachable (after (opening offset)) := by
  have hnum : numChunks (opening offset).chunkSize.toNat hello = 2 := by
    change numChunks 4 hello = 2
    decide
  have hnew : sent (opening offset) hello 0 ∉ [sent (opening offset) hello 1] := by
    intro hmem
    have heq := congrArg Chunk.chunkNum (List.mem_singleton.mp hmem)
    change (0 : BitVec 16) = 1 at heq
    exact absurd heq (by decide)
  refine System.Reachable.tail (.tail (.tail (.start rfl) ⟨hchunk _ 1 (by decide) ?_, rfl⟩)
    ⟨hchunk _ 0 (by decide) ?_, rfl⟩) ⟨hcheck _, rfl⟩
  · exact ⟨List.not_mem_nil, 1, hnum ▸ Nat.lt_succ_self 1, rfl⟩
  · exact ⟨hnew, 0, hnum ▸ Nat.zero_lt_succ 1, rfl⟩

theorem put_exact_hello : Exact (opening 0) hello [] (after (opening 0)) := by
  refine put_exact (by decide) opens_zero rfl (by decide) (reachable_after ?_ ?_)
  · rintro s i hi hdelivered
    refine ⟨hdelivered, ?_, rfl, ?_⟩
    · interval_cases i <;> decide
    · interval_cases i <;> decide
  · exact fun s => ⟨trivial, trivial⟩

/-- The position of the second chunk is behind the last int. -/
theorem not_put_exact :
    ¬ ∀ (o : Opening) (data file : List Byte) (P : Platform) (app : P.App) (method uri : Str)
        (fileSize chunkSize : BitVec 32) (input : BufInStream) (s : Run),
      chunkSize.toNat < 2 ^ 16 →
      checkOpen app method uri fileSize chunkSize input = .ok o → o.mode = .put →
      fileSize.toInt = data.length →
      ((system o file).restrict (Delivered o data)).Reachable s → Exact o data file s := by
  intro h
  have hreach : ((system (opening 2147483647) []).restrict
      (Delivered (opening 2147483647) hello)).Reachable (after (opening 2147483647)) :=
    reachable_after (fun _ _ _ h => h) fun _ => trivial
  have hexact := h _ hello [] bare ⟨[], ()⟩ (text "p") (text "f") 5 4 _ _ (by decide) opens_limit rfl
    (by decide) hreach
  have hbytes : (after (opening 2147483647)).tx.file.bytes =
      writeAt 0 (writeAt 0 [] 0 [0x6f]) 2147483647 [0x68, 0x65, 0x6c, 0x6c] := rfl
  have hlen := congrArg List.length (hbytes.symm.trans (hexact.bytes rfl).2)
  rw [length_writeAt, length_writeAt, length_writeAt] at hlen
  revert hlen
  decide

end Sedona.Sox.FileTransfer
