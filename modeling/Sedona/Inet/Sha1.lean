import Mathlib.Data.Int.Notation
import Sedona.Library.Answers
import Sedona.Library.ByteCells
import Sedona.Inet.SecureHash

/-!
# SHA-1 in the VM

The C code behind `inet::Crypto`: a context that takes a message in pieces, stores it byte by byte
in an array of 64 bytes, hashes the array when it is full, and counts the bits of the message in
two words. What lies behind the index in the array is left there by earlier blocks.

## Main results

* `sha1ProcessMessageBlock_eq`: the four loops hash in a block as the standard does.
* `simulates_session`, `answers_call`: the context is a message that grows, until its digest is
  asked for.
* `inet_Crypto_sha1_eq`: the native method stores the digest of the input bytes.
-/

open SecureHash Answers

namespace Sha1

/-! ### Return codes -/

def shaSuccess : ℕ := 0

/-- `SHA1Input` after `SHA1Result`. -/
def shaStateError : ℕ := 3

/-- `SHA1Context`. -/
structure SHA1Context where
  intermediateHash : Vector Word 5
  lengthLow : Word
  lengthHigh : Word
  messageBlockIndex : ℕ
  messageBlock : Vector Byte 64
  computed : Bool
  corrupted : ℕ
  deriving DecidableEq, Repr

/-! ### SHA1ProcessMessageBlock -/

/-- `SHA1CircularShift`. -/
def circularShift (bits : ℕ) (word : Word) : Word := (word <<< bits) ||| (word >>> (32 - bits))

/-- A word of the block as the first loop puts it together. -/
def blockWord (messageBlock : List Byte) (t : ℕ) : Word :=
  (((messageBlock.getD (t * 4) 0).zeroExtend 32 <<< 24) |||
    ((messageBlock.getD (t * 4 + 1) 0).zeroExtend 32 <<< 16)) |||
    ((messageBlock.getD (t * 4 + 2) 0).zeroExtend 32 <<< 8) |||
    (messageBlock.getD (t * 4 + 3) 0).zeroExtend 32

/-- The next word of the array `W`. -/
def nextWord (w : List Word) (t : ℕ) : Word :=
  circularShift 1 (w.getD (t - 3) 0 ^^^ w.getD (t - 8) 0 ^^^ w.getD (t - 14) 0 ^^^
    w.getD (t - 16) 0)

/-- The array `W` after the two loops that fill it. -/
def wordSequence (messageBlock : List Byte) : List Word :=
  (List.range' 16 64).foldl (fun w t => w ++ [nextWord w t])
    ((List.range 16).map (blockWord messageBlock))

/-- The body of the four loops over the word buffers. -/
def loopBody (f : Word → Word → Word → Word) (k w : Word) (r : Registers) : Registers :=
  let temp := circularShift 5 r.a + f r.b r.c r.d + r.e + w + k
  { e := r.d, d := r.c, c := circularShift 30 r.b, b := r.a, a := temp }

/-- One of the loops, from `t` on. -/
def loop (t : ℕ) (f : Word → Word → Word → Word) (k : Word) (w : List Word) (r : Registers) :
    Registers :=
  (List.range' t 20).foldl (fun r t => loopBody f k (w.getD t 0) r) r

def sha1ProcessMessageBlock (cx : SHA1Context) : SHA1Context :=
  let w := wordSequence cx.messageBlock.toList
  let h := cx.intermediateHash
  let r : Registers := ⟨h[0], h[1], h[2], h[3], h[4]⟩
  let r := loop 0 (fun b c d => (b &&& c) ||| (~~~b &&& d)) 0x5A827999 w r
  let r := loop 20 (fun b c d => b ^^^ c ^^^ d) 0x6ED9EBA1 w r
  let r := loop 40 (fun b c d => (b &&& c) ||| (b &&& d) ||| (c &&& d)) 0x8F1BBCDC w r
  let r := loop 60 (fun b c d => b ^^^ c ^^^ d) 0xCA62C1D6 w r
  { cx with
    intermediateHash := #v[h[0] + r.a, h[1] + r.b, h[2] + r.c, h[3] + r.d, h[4] + r.e]
    messageBlockIndex := 0 }

/-! ### The operations -/

/-- `Message_Block[Message_Block_Index++] = b`. -/
def SHA1Context.put (cx : SHA1Context) (b : Byte) : SHA1Context :=
  { cx with
    messageBlock := cx.messageBlock.setIfInBounds cx.messageBlockIndex b
    messageBlockIndex := cx.messageBlockIndex + 1 }

/-- `SHA1Reset` of a context whose array holds whatever was there before. -/
def sha1Reset (cx : SHA1Context) : SHA1Context where
  lengthLow := 0
  lengthHigh := 0
  messageBlockIndex := 0
  intermediateHash := #v[0x67452301, 0xEFCDAB89, 0x98BADCFE, 0x10325476, 0xC3D2E1F0]
  messageBlock := cx.messageBlock
  computed := false
  corrupted := 0

/-- `Length_Low += 8`, and the carry. -/
def SHA1Context.addLength (cx : SHA1Context) : SHA1Context :=
  let cx := { cx with lengthLow := cx.lengthLow + 8 }
  if cx.lengthLow = 0 then
    let cx := { cx with lengthHigh := cx.lengthHigh + 1 }
    if cx.lengthHigh = 0 then { cx with corrupted := 1 } else cx
  else cx

/-- The body of the loop of `SHA1Input`. -/
def inputByte (cx : SHA1Context) (b : Byte) : SHA1Context :=
  let cx := (cx.put b).addLength
  if cx.messageBlockIndex = 64 then sha1ProcessMessageBlock cx else cx

/-- The loop of `SHA1Input`. -/
def inputLoop (cx : SHA1Context) : List Byte → SHA1Context
  | [] => cx
  | b :: messageArray => if cx.corrupted ≠ 0 then cx else inputLoop (inputByte cx b) messageArray

def sha1Input (cx : SHA1Context) (messageArray : List Byte) : SHA1Context × ℕ :=
  if messageArray.length = 0 then (cx, shaSuccess)
  else if cx.computed then ({ cx with corrupted := shaStateError }, shaStateError)
  else if cx.corrupted ≠ 0 then (cx, cx.corrupted)
  else (inputLoop cx messageArray, shaSuccess)

/-- `while (Message_Block_Index < n) Message_Block[Message_Block_Index++] = 0`. -/
def SHA1Context.putZeros (cx : SHA1Context) (n : ℕ) : SHA1Context :=
  if cx.messageBlockIndex < n then (cx.put 0).putZeros n else cx
termination_by n - cx.messageBlockIndex
decreasing_by
  simp only [SHA1Context.put]
  omega

/-- The length of the message is stored as the last bytes of the block. -/
def SHA1Context.putLength (cx : SHA1Context) : SHA1Context :=
  let block := cx.messageBlock
  let block := block.set 56 ((cx.lengthHigh >>> 24).truncate 8)
  let block := block.set 57 ((cx.lengthHigh >>> 16).truncate 8)
  let block := block.set 58 ((cx.lengthHigh >>> 8).truncate 8)
  let block := block.set 59 (cx.lengthHigh.truncate 8)
  let block := block.set 60 ((cx.lengthLow >>> 24).truncate 8)
  let block := block.set 61 ((cx.lengthLow >>> 16).truncate 8)
  let block := block.set 62 ((cx.lengthLow >>> 8).truncate 8)
  let block := block.set 63 (cx.lengthLow.truncate 8)
  { cx with messageBlock := block }

def sha1PadMessage (cx : SHA1Context) : SHA1Context :=
  let cx :=
    if cx.messageBlockIndex > 55 then
      let cx := (cx.put 0x80).putZeros 64
      let cx := sha1ProcessMessageBlock cx
      cx.putZeros 56
    else (cx.put 0x80).putZeros 56
  sha1ProcessMessageBlock cx.putLength

/-- The bytes that `SHA1Result` stores in `Message_Digest`. -/
def messageDigest (h : Vector Word 5) : List Byte :=
  (List.range 20).map fun i => (h.toList.getD (i >>> 2) 0 >>> (8 * (3 - (i &&& 3)))).truncate 8

/-- What a call gives: the return code, or the digest along with `shaSuccess`. -/
inductive Answer
  | code (code : ℕ)
  | digest (messageDigest : List Byte)
  deriving DecidableEq, Repr

def sha1Result (cx : SHA1Context) : SHA1Context × Answer :=
  if cx.corrupted ≠ 0 then (cx, .code cx.corrupted)
  else
    let cx :=
      if cx.computed then cx
      else
        { sha1PadMessage cx with
          messageBlock := Vector.replicate 64 0
          lengthLow := 0
          lengthHigh := 0
          computed := true }
    (cx, .digest (messageDigest cx.intermediateHash))

/-! ### Hashing a block -/

/-- The bytes are put side by side. -/
theorem bytes_eq_append (a b c d : Byte) :
    ((a.zeroExtend 32 <<< 24) ||| (b.zeroExtend 32 <<< 16)) ||| (c.zeroExtend 32 <<< 8) |||
      d.zeroExtend 32 = a ++ b ++ c ++ d := by
  apply BitVec.eq_of_getLsbD_eq
  intro i hi
  simp only [BitVec.getLsbD_or, BitVec.getLsbD_shiftLeft, BitVec.getLsbD_append,
    BitVec.truncate_eq_setWidth, BitVec.getLsbD_setWidth]
  rcases Nat.lt_or_ge i 8 with h8 | h8
  · have h16 : i < 16 := by omega
    have h24 : i < 24 := by omega
    simp [h8, h16, h24, hi]
  · have hd : d.getLsbD i = false := BitVec.getLsbD_of_ge d i h8
    rcases Nat.lt_or_ge i 16 with h16 | h16
    · have h24 : i < 24 := by omega
      have hle : i - 8 < 8 := by omega
      have hle' : i - 8 < 32 := by omega
      simp [Nat.not_lt.mpr h8, h16, h24, hi, hd, hle, hle']
    · have hc : c.getLsbD (i - 8) = false := BitVec.getLsbD_of_ge c _ (by omega)
      have hge : ¬ i - 8 < 8 := by omega
      rcases Nat.lt_or_ge i 24 with h24 | h24
      · have hle : i - 16 < 8 := by omega
        have hle' : i - 16 < 32 := by omega
        simp [Nat.not_lt.mpr h8, Nat.not_lt.mpr h16, h24, hi, hd, hc, hge, hle, hle', Nat.sub_sub]
      · have hb : b.getLsbD (i - 16) = false := BitVec.getLsbD_of_ge b _ (by omega)
        have hge' : ¬ i - 16 < 8 := by omega
        have hle' : i - 24 < 32 := by omega
        simp [Nat.not_lt.mpr h8, Nat.not_lt.mpr h16, Nat.not_lt.mpr h24, hi, hd, hc, hb, hge, hge',
          hle', Nat.sub_sub]

theorem blockWord_eq (block : List Byte) (t : ℕ) :
    blockWord block t = SecureHash.blockWord block t := by
  rw [blockWord, bytes_eq_append, SecureHash.blockWord, Nat.mul_comm]

theorem wordSequence_eq (block : List Byte) :
    wordSequence block = (List.range 80).map (W block) := by
  have hfill (n : ℕ) : (List.range' 16 n).foldl (fun w t => w ++ [nextWord w t])
      ((List.range 16).map (blockWord block)) = (List.range (16 + n)).map (W block) := by
    induction n with
    | zero =>
      refine List.map_congr_left fun t ht => ?_
      rw [W, dif_pos (List.mem_range.mp ht), blockWord_eq]
    | succ n ih =>
      have hget {k : ℕ} (hk : 0 < k) (hk' : k ≤ 16) :
          ((List.range (16 + n)).map (W block)).getD (16 + n - k) 0 = W block (16 + n - k) := by
        rw [List.getD_eq_getElem?_getD, List.getElem?_map, List.getElem?_range (by omega)]
        rfl
      rw [← Nat.add_assoc, List.range_succ (n := 16 + n), List.map_append, List.range'_concat,
        List.foldl_append, ih, Nat.one_mul, List.map_singleton, W, dif_neg (by omega),
        List.foldl_cons, List.foldl_nil, nextWord, hget (by decide) (by decide),
        hget (by decide) (by decide), hget (by decide) (by decide), hget (by decide) (by decide)]
      rfl
  exact hfill 64

theorem getD_wordSequence (block : List Byte) {t : ℕ} (ht : t < 80) :
    (wordSequence block).getD t 0 = W block t := by
  rw [wordSequence_eq, List.getD_eq_getElem?_getD, List.getElem?_map, List.getElem?_range ht]
  rfl

/-- A loop is twenty of the steps. -/
theorem loop_eq {block : List Byte} {t : ℕ} {g : Word → Word → Word → Word} {k : Word} (ht : t ≤ 60)
    (hg : ∀ i, t ≤ i → i < t + 20 → f i = g ∧ K i = k) (r : Registers) :
    loop t g k (wordSequence block) r =
      (List.range' t 20).foldl (fun r t => SecureHash.round block t r) r := by
  refine List.foldl_ext _ _ _ fun r i hi => ?_
  obtain ⟨hle, hlt⟩ := List.mem_range'_1.mp hi
  obtain ⟨hf, hK⟩ := hg i hle hlt
  rw [getD_wordSequence block (by omega), SecureHash.round, hf, hK]
  rfl

theorem loop_0_eq (block : List Byte) (r : Registers) :
    loop 0 (fun b c d => (b &&& c) ||| (~~~b &&& d)) 0x5A827999 (wordSequence block) r =
      (List.range' 0 20).foldl (fun r t => SecureHash.round block t r) r := by
  refine loop_eq (by decide) (fun i _ hlt => ⟨?_, if_pos hlt⟩) r
  funext b c d
  exact if_pos hlt

theorem loop_20_eq (block : List Byte) (r : Registers) :
    loop 20 (fun b c d => b ^^^ c ^^^ d) 0x6ED9EBA1 (wordSequence block) r =
      (List.range' 20 20).foldl (fun r t => SecureHash.round block t r) r := by
  refine loop_eq (by decide) (fun i hle hlt => ⟨?_, ?_⟩) r
  · funext b c d
    rw [f, if_neg (by omega), if_pos hlt]
  · rw [K, if_neg (by omega), if_pos hlt]

theorem loop_40_eq (block : List Byte) (r : Registers) :
    loop 40 (fun b c d => (b &&& c) ||| (b &&& d) ||| (c &&& d)) 0x8F1BBCDC (wordSequence block) r =
      (List.range' 40 20).foldl (fun r t => SecureHash.round block t r) r := by
  refine loop_eq (by decide) (fun i hle hlt => ⟨?_, ?_⟩) r
  · funext b c d
    rw [f, if_neg (by omega), if_neg (by omega), if_pos hlt]
  · rw [K, if_neg (by omega), if_neg (by omega), if_pos hlt]

theorem loop_60_eq (block : List Byte) (r : Registers) :
    loop 60 (fun b c d => b ^^^ c ^^^ d) 0xCA62C1D6 (wordSequence block) r =
      (List.range' 60 20).foldl (fun r t => SecureHash.round block t r) r := by
  refine loop_eq (by decide) (fun i hle hlt => ⟨?_, ?_⟩) r
  · funext b c d
    rw [f, if_neg (by omega), if_neg (by omega), if_neg (by omega)]
  · rw [K, if_neg (by omega), if_neg (by omega), if_neg (by omega)]

theorem sha1ProcessMessageBlock_eq (cx : SHA1Context) :
    sha1ProcessMessageBlock cx =
      { cx with
        intermediateHash := compress cx.intermediateHash cx.messageBlock.toList
        messageBlockIndex := 0 } := by
  have hrange : List.range 80 =
      List.range' 0 20 ++ List.range' 20 20 ++ List.range' 40 20 ++ List.range' 60 20 := by decide
  rw [compress, hrange, List.foldl_append, List.foldl_append, List.foldl_append, ← loop_0_eq,
    ← loop_20_eq, ← loop_40_eq, ← loop_60_eq]
  rfl

/-! ### Bytes in the array -/

/-- What the index has passed. -/
def SHA1Context.stored (cx : SHA1Context) : List Byte :=
  cx.messageBlock.toList.take cx.messageBlockIndex

theorem take_succ_set {l : List Byte} {i : ℕ} (hi : i < l.length) (b : Byte) :
    (l.set i b).take (i + 1) = l.take i ++ [b] := by
  rw [List.take_add_one, List.take_set_of_le (Nat.le_refl _), List.getElem?_set_self hi]
  rfl

theorem SHA1Context.stored_put {cx : SHA1Context} (h : cx.messageBlockIndex < 64) (b : Byte) :
    (cx.put b).stored = cx.stored ++ [b] := by
  rw [stored, put, stored, Vector.toList_setIfInBounds,
    take_succ_set (by rwa [Vector.length_toList])]

theorem SHA1Context.length_stored {cx : SHA1Context} (h : cx.messageBlockIndex ≤ 64) :
    cx.stored.length = cx.messageBlockIndex := by
  rw [stored, List.length_take, Vector.length_toList, Nat.min_eq_left h]

theorem SHA1Context.stored_full {cx : SHA1Context} (h : cx.messageBlockIndex = 64) :
    cx.messageBlock.toList = cx.stored := by
  rw [stored, h, List.take_of_length_le (Nat.le_of_eq Vector.length_toList)]

/-- The hash of the full blocks, and what the array holds of the last one. -/
def SHA1Context.absorbed (cx : SHA1Context) : Vector Word 5 × List Byte :=
  (cx.intermediateHash, cx.stored)

/-! ### The count of the bits -/

/-- The two words of the length. -/
def SHA1Context.bits (cx : SHA1Context) : ℕ := cx.lengthLow.toNat + 2 ^ 32 * cx.lengthHigh.toNat

/-- The length of one more byte, as long as it fits in the two words. -/
theorem SHA1Context.addLength_spec (cx : SHA1Context) {n : ℕ} (hbits : cx.bits = 8 * n)
    (hn : n + 1 < 2 ^ 61) :
    ∃ low high, cx.addLength = { cx with lengthLow := low, lengthHigh := high } ∧
      low.toNat + 2 ^ 32 * high.toNat = 8 * (n + 1) := by
  have hlow := cx.lengthLow.isLt
  have hadd : (cx.lengthLow + 8).toNat = (cx.lengthLow.toNat + 8) % 2 ^ 32 := BitVec.toNat_add _ _
  have hadd' : (cx.lengthHigh + 1).toNat = (cx.lengthHigh.toNat + 1) % 2 ^ 32 :=
    BitVec.toNat_add _ _
  rw [bits] at hbits
  rw [addLength]
  dsimp only
  split
  · next hzero =>
    have hzero' : (cx.lengthLow + 8).toNat = 0 := by rw [hzero]; rfl
    rw [if_neg]
    · exact ⟨cx.lengthLow + 8, cx.lengthHigh + 1, rfl, by omega⟩
    · intro hhigh
      have hhigh' : (cx.lengthHigh + 1).toNat = 0 := by rw [hhigh]; rfl
      omega
  · next hzero =>
    refine ⟨cx.lengthLow + 8, cx.lengthHigh, rfl, ?_⟩
    have hzero' : (cx.lengthLow + 8).toNat ≠ 0 := fun h => hzero (BitVec.eq_of_toNat_eq h)
    omega

/-- The byte that makes 2^64 bits. -/
theorem SHA1Context.addLength_overflow (cx : SHA1Context) {n : ℕ} (hbits : cx.bits = 8 * n)
    (hn : n + 1 = 2 ^ 61) :
    cx.addLength.corrupted = 1 ∧ cx.addLength.computed = cx.computed := by
  have hlow := cx.lengthLow.isLt
  have hhigh := cx.lengthHigh.isLt
  rw [bits] at hbits
  have hlow' : cx.lengthLow + 8 = 0 := BitVec.eq_of_toNat_eq (by
    rw [BitVec.toNat_add]
    simp only [BitVec.ofNat_eq_ofNat, BitVec.toNat_ofNat]
    omega)
  have hhigh' : cx.lengthHigh + 1 = 0 := BitVec.eq_of_toNat_eq (by
    rw [BitVec.toNat_add]
    simp only [BitVec.ofNat_eq_ofNat, BitVec.toNat_ofNat]
    omega)
  rw [addLength]
  dsimp only
  rw [if_pos hlow', if_pos hhigh']
  exact ⟨rfl, rfl⟩

/-! ### Input -/

/-- The context has taken in a message. -/
structure Absorbing (cx : SHA1Context) (message : List Byte) : Prop where
  computed : cx.computed = false
  corrupted : cx.corrupted = 0
  index_lt : cx.messageBlockIndex < 64
  absorbed : (cx.intermediateHash, cx.stored) = absorb message
  bits : cx.bits = 8 * message.length
  length_lt : message.length < 2 ^ 61

theorem absorbing_sha1Reset (cx : SHA1Context) : Absorbing (sha1Reset cx) [] where
  computed := rfl
  corrupted := rfl
  index_lt := (by decide : 0 < 64)
  absorbed := (IteratedHash.absorb_of_lt (by decide : [].length < 64)).symm
  bits := rfl
  length_lt := by decide

/-- A message with one byte more. -/
theorem Absorbing.feed {cx : SHA1Context} {message : List Byte} (h : Absorbing cx message)
    (b : Byte) :
    absorb (message ++ [b]) =
      if (cx.put b).messageBlockIndex = 64 then
        (compress cx.intermediateHash (cx.put b).messageBlock.toList, [])
      else (cx.intermediateHash, (cx.put b).stored) := by
  have hfeed : absorb (message ++ [b]) =
      IteratedHash.feed compress 64 (cx.intermediateHash, cx.stored) b := by
    rw [h.absorbed]
    exact (IteratedHash.feed_eq (by decide) _ _ _).symm
  have hindex : cx.stored.length + 1 = (cx.put b).messageBlockIndex := by
    rw [SHA1Context.length_stored (Nat.le_of_lt h.index_lt)]
    rfl
  rw [IteratedHash.feed, hindex] at hfeed
  rw [hfeed, ← SHA1Context.stored_put h.index_lt]
  split
  · next hfull => rw [SHA1Context.stored_full hfull]
  · rfl

theorem Absorbing.inputByte {cx : SHA1Context} {message : List Byte} (h : Absorbing cx message)
    (b : Byte) (hlen : message.length + 1 < 2 ^ 61) :
    Absorbing (inputByte cx b) (message ++ [b]) := by
  obtain ⟨low, high, hadd, hbits⟩ := SHA1Context.addLength_spec (cx.put b) h.bits hlen
  have hlen' : (message ++ [b]).length = message.length + 1 := List.length_append
  have hfeed := h.feed b
  rw [Sha1.inputByte, hadd]
  dsimp only
  split
  · next hfull =>
    rw [if_pos hfull] at hfeed
    rw [sha1ProcessMessageBlock_eq]
    exact {
      computed := h.computed
      corrupted := h.corrupted
      index_lt := (by decide : 0 < 64)
      absorbed := hfeed.symm
      bits := by rwa [hlen']
      length_lt := by rwa [hlen'] }
  · next hfull =>
    rw [if_neg hfull] at hfeed
    exact {
      computed := h.computed
      corrupted := h.corrupted
      index_lt := Nat.lt_of_le_of_ne (Nat.succ_le_of_lt h.index_lt) hfull
      absorbed := hfeed.symm
      bits := by rwa [hlen']
      length_lt := by rwa [hlen'] }

/-- The message is too long. -/
def TooLong (cx : SHA1Context) : Prop := cx.corrupted = 1 ∧ cx.computed = false

theorem Absorbing.inputByte_tooLong {cx : SHA1Context} {message : List Byte}
    (h : Absorbing cx message) (b : Byte) (hlen : message.length + 1 = 2 ^ 61) :
    TooLong (Sha1.inputByte cx b) := by
  obtain ⟨hcorrupted, hcomputed⟩ :=
    SHA1Context.addLength_overflow (cx.put b) h.bits hlen
  rw [Sha1.inputByte]
  split
  · rw [sha1ProcessMessageBlock_eq]
    exact ⟨hcorrupted, hcomputed.trans h.computed⟩
  · exact ⟨hcorrupted, hcomputed.trans h.computed⟩

theorem inputLoop_of_tooLong {cx : SHA1Context} (h : TooLong cx) (messageArray : List Byte) :
    inputLoop cx messageArray = cx := by
  cases messageArray with
  | nil => rfl
  | cons b messageArray => rw [inputLoop, if_pos (by rw [h.1]; decide)]

theorem inputLoop_cons {cx : SHA1Context} {message : List Byte} (h : Absorbing cx message)
    (b : Byte) (messageArray : List Byte) :
    inputLoop cx (b :: messageArray) = inputLoop (Sha1.inputByte cx b) messageArray := by
  rw [inputLoop, if_neg (not_not_intro h.corrupted)]

/-- A piece of a message. -/
theorem Absorbing.inputLoop {cx : SHA1Context} {message : List Byte} (h : Absorbing cx message)
    (messageArray : List Byte) (hlen : (message ++ messageArray).length < 2 ^ 61) :
    Absorbing (Sha1.inputLoop cx messageArray) (message ++ messageArray) := by
  induction messageArray generalizing cx message with
  | nil =>
    rw [List.append_nil]
    exact h
  | cons b messageArray ih =>
    have hstep := h.inputByte b (by
      rw [List.length_append, List.length_cons] at hlen
      omega)
    rw [List.append_cons] at hlen ⊢
    rw [inputLoop_cons h]
    exact ih hstep hlen

theorem Absorbing.inputLoop_tooLong {cx : SHA1Context} {message : List Byte}
    (h : Absorbing cx message) (messageArray : List Byte)
    (hlen : 2 ^ 61 ≤ (message ++ messageArray).length) :
    TooLong (Sha1.inputLoop cx messageArray) := by
  induction messageArray generalizing cx message with
  | nil =>
    rw [List.append_nil] at hlen
    exact absurd h.length_lt (Nat.not_lt.mpr hlen)
  | cons b messageArray ih =>
    rw [inputLoop_cons h]
    rcases Nat.lt_or_ge (message.length + 1) (2 ^ 61) with hlt | hge
    · refine ih (h.inputByte b hlt) ?_
      rwa [← List.append_cons]
    · have htoo := h.inputByte_tooLong b (Nat.le_antisymm (Nat.succ_le_of_lt h.length_lt) hge)
      rwa [inputLoop_of_tooLong htoo]

/-! ### Padding -/

theorem SHA1Context.putZeros_spec (cx : SHA1Context) {n : ℕ} (hn : n ≤ 64)
    (h : cx.messageBlockIndex ≤ n) :
    ∃ block, cx.putZeros n = { cx with messageBlock := block, messageBlockIndex := n } ∧
      block.toList.take n = cx.stored ++ List.replicate (n - cx.messageBlockIndex) 0 := by
  fun_induction SHA1Context.putZeros cx n with
  | case1 cx hlt ih =>
    obtain ⟨block, heq, htake⟩ := ih hlt
    refine ⟨block, heq, ?_⟩
    rw [htake, stored_put (Nat.lt_of_lt_of_le hlt hn), List.append_assoc, List.singleton_append,
      ← List.replicate_succ]
    congr 2
    simp only [put]
    omega
  | case2 cx hge =>
    obtain rfl : cx.messageBlockIndex = n := Nat.le_antisymm h (Nat.le_of_not_lt hge)
    exact ⟨cx.messageBlock, rfl, by rw [Nat.sub_self, List.replicate_zero, List.append_nil]; rfl⟩

theorem SHA1Context.putLength_eq (cx : SHA1Context) :
    cx.putLength.messageBlock.toList =
      cx.messageBlock.toList.take 56 ++ (wordBytes cx.lengthHigh ++ wordBytes cx.lengthLow) := by
  have hlen : cx.messageBlock.toList.length = 64 := Vector.length_toList
  have hfull : cx.putLength.messageBlock.toList = cx.putLength.messageBlock.toList.take 64 :=
    (List.take_of_length_le (Nat.le_of_eq Vector.length_toList)).symm
  rw [hfull, putLength]
  simp only [Vector.toList_set]
  rw [take_succ_set (by simp [hlen]), take_succ_set (by simp [hlen]),
    take_succ_set (by simp [hlen]), take_succ_set (by simp [hlen]),
    take_succ_set (by simp [hlen]), take_succ_set (by simp [hlen]),
    take_succ_set (by simp [hlen]), take_succ_set (by simp [hlen])]
  simp only [List.append_assoc]
  rfl

theorem lengthBytes_bits (cx : SHA1Context) :
    lengthBytes cx.bits = wordBytes cx.lengthHigh ++ wordBytes cx.lengthLow := by
  have hlow := cx.lengthLow.isLt
  have hdiv : cx.bits / 2 ^ 32 = cx.lengthHigh.toNat := by
    rw [SHA1Context.bits]
    omega
  have hmod : BitVec.ofNat 32 cx.bits = cx.lengthLow := BitVec.eq_of_toNat_eq (by
    rw [BitVec.toNat_ofNat, SHA1Context.bits]
    omega)
  rw [lengthBytes, hdiv, hmod, BitVec.ofNat_toNat, BitVec.setWidth_eq]

theorem Absorbing.index {cx : SHA1Context} {message : List Byte} (h : Absorbing cx message) :
    message.length % 64 = cx.messageBlockIndex := by
  rw [← SHA1Context.length_stored (Nat.le_of_lt h.index_lt),
    ← IteratedHash.length_absorb compress (by decide) initial message]
  exact congrArg (fun s => s.2.length) h.absorbed.symm

theorem Absorbing.absorb_append {cx : SHA1Context} {message : List Byte}
    (h : Absorbing cx message) (rest : List Byte) :
    absorb (message ++ rest) =
      IteratedHash.absorb compress 64 cx.intermediateHash (cx.stored ++ rest) := by
  rw [absorb, IteratedHash.absorb_append (by decide)]
  exact congrArg (fun s => IteratedHash.absorb compress 64 s.1 (s.2 ++ rest)) h.absorbed.symm

/-- A block and nothing behind it. -/
theorem absorb_last {h : Hash} {block : List Byte} (hlen : block.length = 64) :
    IteratedHash.absorb compress 64 h block = (compress h block, []) := by
  have hblock := IteratedHash.absorb_block compress (by decide) h hlen []
  rwa [List.append_nil, IteratedHash.absorb_of_lt (by decide : [].length < 64)] at hblock

/-- The block with the length in it. -/
theorem hash_putLength {cx : SHA1Context} {bytes : List Byte}
    (hbytes : cx.messageBlock.toList.take 56 = bytes) :
    (sha1ProcessMessageBlock cx.putLength).intermediateHash =
      (IteratedHash.absorb compress 64 cx.intermediateHash
        (bytes ++ (wordBytes cx.lengthHigh ++ wordBytes cx.lengthLow))).1 := by
  rw [sha1ProcessMessageBlock_eq, ← hbytes, ← SHA1Context.putLength_eq,
    absorb_last Vector.length_toList]
  rfl

/-- What is left fits in the block with the length. -/
theorem hash_padMessage_of_le {cx : SHA1Context} (h : cx.messageBlockIndex ≤ 55) :
    (sha1PadMessage cx).intermediateHash =
      (IteratedHash.absorb compress 64 cx.intermediateHash (cx.stored ++ [0x80] ++
        List.replicate (55 - cx.messageBlockIndex) 0 ++
        (wordBytes cx.lengthHigh ++ wordBytes cx.lengthLow))).1 := by
  obtain ⟨block, heq, hblock⟩ := (cx.put 0x80).putZeros_spec (n := 56) (by decide)
    (Nat.succ_le_succ h)
  rw [SHA1Context.stored_put (by omega)] at hblock
  rw [sha1PadMessage, if_neg (Nat.not_lt.mpr h), heq, hash_putLength hblock]
  have hzeros : 56 - (cx.put 0x80).messageBlockIndex = 55 - cx.messageBlockIndex :=
    Nat.succ_sub_succ ..
  rw [hzeros]
  rfl

/-- What is left and the first bit fill a block, and the length goes to the next one. -/
theorem hash_padMessage_of_gt {cx : SHA1Context} (h : 55 < cx.messageBlockIndex)
    (hlt : cx.messageBlockIndex < 64) :
    (sha1PadMessage cx).intermediateHash =
      (IteratedHash.absorb compress 64 cx.intermediateHash (cx.stored ++ [0x80] ++
        List.replicate (63 - cx.messageBlockIndex) 0 ++ (List.replicate 56 0 ++
        (wordBytes cx.lengthHigh ++ wordBytes cx.lengthLow)))).1 := by
  obtain ⟨block, heq, hblock⟩ := (cx.put 0x80).putZeros_spec (Nat.le_refl 64)
    (Nat.succ_le_of_lt hlt)
  rw [SHA1Context.stored_put hlt, List.take_of_length_le (Nat.le_of_eq Vector.length_toList)]
    at hblock
  have hprocess := sha1ProcessMessageBlock_eq ((cx.put 0x80).putZeros 64)
  obtain ⟨block', heq', hblock'⟩ := SHA1Context.putZeros_spec
    (sha1ProcessMessageBlock ((cx.put 0x80).putZeros 64)) (n := 56) (by decide) (by
      rw [hprocess]
      exact Nat.zero_le _)
  have hzeros : 64 - (cx.put 0x80).messageBlockIndex = 63 - cx.messageBlockIndex :=
    Nat.succ_sub_succ ..
  rw [sha1PadMessage, if_pos h]
  dsimp only
  rw [heq', hash_putLength hblock', hprocess, heq, ← hzeros, ← hblock,
    IteratedHash.absorb_block compress (by decide) _ Vector.length_toList]
  rfl

/-- **The padding is that of the standard**, whether it fits in the block or not. -/
theorem Absorbing.hash_padMessage {cx : SHA1Context} {message : List Byte}
    (h : Absorbing cx message) :
    (sha1PadMessage cx).intermediateHash = (absorb (message ++ padding message.length)).1 := by
  have hlength : lengthBytes (8 * message.length) =
      wordBytes cx.lengthHigh ++ wordBytes cx.lengthLow := by
    rw [← h.bits, lengthBytes_bits]
  rw [h.absorb_append, padding, hlength, h.index]
  rcases Nat.lt_or_ge 55 cx.messageBlockIndex with hgt | hle
  · have hzeros : (119 - cx.messageBlockIndex) % 64 = 63 - cx.messageBlockIndex + 56 := by
      have hlt := h.index_lt
      omega
    rw [hash_padMessage_of_gt hgt h.index_lt, hzeros, ← List.replicate_append_replicate]
    simp only [List.append_assoc, List.cons_append, List.nil_append]
  · have hzeros : (119 - cx.messageBlockIndex) % 64 = 55 - cx.messageBlockIndex := by omega
    rw [hash_padMessage_of_le hle, hzeros]
    simp only [List.append_assoc, List.cons_append, List.nil_append]

theorem SHA1Context.putZeros_corrupted (cx : SHA1Context) (n : ℕ) :
    (cx.putZeros n).corrupted = cx.corrupted := by
  fun_induction SHA1Context.putZeros cx n with
  | case1 cx hlt ih => exact ih
  | case2 cx hge => rfl

theorem sha1PadMessage_corrupted (cx : SHA1Context) :
    (sha1PadMessage cx).corrupted = cx.corrupted := by
  have hput : (cx.put 0x80).corrupted = cx.corrupted := rfl
  rw [sha1PadMessage, sha1ProcessMessageBlock_eq, SHA1Context.putLength]
  split
  · simp only [SHA1Context.putZeros_corrupted, sha1ProcessMessageBlock_eq, hput]
  · simp only [SHA1Context.putZeros_corrupted, hput]

/-! ### The digest -/

theorem messageDigest_eq (h : Hash) : messageDigest h = h.toList.flatMap wordBytes := by
  have hwords : h = #v[h[0], h[1], h[2], h[3], h[4]] := by
    ext i hi
    rcases i with _ | _ | _ | _ | _ | i
    · rfl
    · rfl
    · rfl
    · rfl
    · rfl
    · omega
  rw [hwords]
  rfl

/-! ### What a context is for -/

/-- The calls between one `SHA1Reset` and the next. -/
inductive Call
  | input (messageArray : List Byte)
  | result

def call (cx : SHA1Context) : Call → SHA1Context × Answer
  | .input messageArray => ((sha1Input cx messageArray).1, .code (sha1Input cx messageArray).2)
  | .result => sha1Result cx

/-- A message that grows, a digest, or a misuse with its code. -/
inductive Session
  | absorbing (message : List Byte)
  | finished (digest : List Byte)
  | failed (code : ℕ)

/-- A piece of the message that is not empty. The piece that makes it too long is accepted. -/
def Session.append : Session → List Byte → Session × Answer
  | absorbing message, piece =>
    (if (message ++ piece).length < 2 ^ 61 then absorbing (message ++ piece) else failed 1,
      .code shaSuccess)
  | finished _, _ => (failed shaStateError, .code shaStateError)
  | failed code, _ => (failed code, .code code)

def Session.input (s : Session) (piece : List Byte) : Session × Answer :=
  if piece = [] then (s, .code shaSuccess) else s.append piece

def Session.result : Session → Session × Answer
  | absorbing message => (finished (digest message), .digest (digest message))
  | finished digest => (finished digest, .digest digest)
  | failed code => (failed code, .code code)

def Session.step (s : Session) : Call → Session × Answer
  | .input piece => s.input piece
  | .result => s.result

/-- A context in a state of the session. -/
def Represents (cx : SHA1Context) : Session → Prop
  | .absorbing message => Absorbing cx message
  | .finished digest =>
    cx.computed = true ∧ cx.corrupted = 0 ∧ messageDigest cx.intermediateHash = digest
  | .failed code =>
    cx.corrupted = code ∧ code ≠ 0 ∧ (cx.computed = true → code = shaStateError)

theorem input_represents {cx : SHA1Context} {s : Session} (h : Represents cx s)
    (piece : List Byte) :
    .code (sha1Input cx piece).2 = (s.input piece).2 ∧
      Represents (sha1Input cx piece).1 (s.input piece).1 := by
  rw [sha1Input, Session.input]
  rcases eq_or_ne piece [] with rfl | hpiece
  · exact ⟨rfl, h⟩
  · rw [if_neg (fun hlen => hpiece (List.eq_nil_of_length_eq_zero hlen)), if_neg hpiece]
    cases s with
    | absorbing message =>
      rw [if_neg (by rw [h.computed]; decide), if_neg (not_not_intro h.corrupted)]
      refine ⟨rfl, ?_⟩
      rw [Session.append]
      split
      · next hlt => exact Absorbing.inputLoop h piece hlt
      · next hge =>
        obtain ⟨hcorrupted, hcomputed⟩ := h.inputLoop_tooLong piece (Nat.le_of_not_lt hge)
        refine ⟨hcorrupted, by decide, fun hfinished => ?_⟩
        rw [hcomputed] at hfinished
        cases hfinished
    | finished digest =>
      rw [if_pos h.1]
      exact ⟨rfl, rfl, by decide, fun _ => rfl⟩
    | failed code =>
      obtain ⟨rfl, hne, hcode⟩ := h
      split
      · next hcomputed =>
        rw [hcode hcomputed]
        exact ⟨rfl, rfl, by decide, fun _ => rfl⟩
      · exact ⟨rfl, rfl, hne, hcode⟩

theorem result_represents {cx : SHA1Context} {s : Session} (h : Represents cx s) :
    (sha1Result cx).2 = s.result.2 ∧ Represents (sha1Result cx).1 s.result.1 := by
  rw [sha1Result]
  cases s with
  | absorbing message =>
    have hdigest : messageDigest (sha1PadMessage cx).intermediateHash = digest message := by
      rw [messageDigest_eq, h.hash_padMessage, digest]
    have hcorrupted : (sha1PadMessage cx).corrupted = 0 :=
      (sha1PadMessage_corrupted cx).trans h.corrupted
    rw [if_neg (not_not_intro h.corrupted)]
    dsimp only
    rw [if_neg (by rw [h.computed]; decide), Session.result, ← hdigest]
    exact ⟨rfl, rfl, hcorrupted, rfl⟩
  | finished digest =>
    obtain ⟨hcomputed, hcorrupted, rfl⟩ := h
    rw [if_neg (not_not_intro hcorrupted)]
    dsimp only
    rw [if_pos hcomputed]
    exact ⟨rfl, hcomputed, hcorrupted, rfl⟩
  | failed code =>
    obtain ⟨rfl, hne, hcode⟩ := h
    rw [if_pos hne]
    exact ⟨rfl, rfl, hne, hcode⟩

theorem simulates_session : Simulates call Session.step Represents := by
  intro cx s c h
  cases c with
  | input piece => exact input_represents h piece
  | result => exact result_represents h

/-- **The calls on a context.** Whatever the array held before, however the message is cut, and
whenever the digest is asked for, the answers are those of a message that grows. -/
theorem answers_call (cx : SHA1Context) (calls : List Call) :
    answers call (sha1Reset cx) calls = answers Session.step (.absorbing []) calls :=
  answers_eq_of_simulation simulates_session (t := .absorbing []) (absorbing_sha1Reset cx) calls

/-! ### The native method -/

/-- `inet_Crypto_sha1` on the memory of the VM, with a context on the stack that holds whatever was
there. A negative length is a large one. -/
def inet_Crypto_sha1 (cx : SHA1Context) (memory : List Byte) (input : ℤ) (inOff : ℤ)
    (len : BitVec 32) (output : ℤ) (outOff : ℤ) : List Byte :=
  let cx := sha1Reset cx
  let cx := (sha1Input cx ((memory.drop (input + inOff).toNat).take len.toNat)).1
  match (sha1Result cx).2 with
  | .digest messageDigest => ByteCells.overwrite memory (output + outOff).toNat messageDigest
  | .code _ => memory

/-- **The native method stores the digest of the input bytes.** It does so even where the output
lies over the input. -/
theorem inet_Crypto_sha1_eq (cx : SHA1Context) (memory : List Byte) (input inOff : ℤ)
    (len : BitVec 32) (output outOff : ℤ) :
    inet_Crypto_sha1 cx memory input inOff len output outOff =
      ByteCells.overwrite memory (output + outOff).toNat
        (digest ((memory.drop (input + inOff).toNat).take len.toNat)) := by
  have hlen : ((memory.drop (input + inOff).toNat).take len.toNat).length < 2 ^ 61 := by
    have hlt := len.isLt
    rw [List.length_take]
    omega
  rw [inet_Crypto_sha1]
  generalize (memory.drop (input + inOff).toNat).take len.toNat = message at hlen
  have hinput := (input_represents (s := .absorbing []) (absorbing_sha1Reset cx) message).2
  have hsession : (Session.input (.absorbing []) message).1 = .absorbing message := by
    rw [Session.input]
    split
    · next hnil => rw [hnil]
    · rw [Session.append, List.nil_append, if_pos hlen]
  rw [hsession] at hinput
  have hresult := (result_represents hinput).1
  rw [hresult, Session.result]

end Sha1
