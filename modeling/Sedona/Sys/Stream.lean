import Sedona.Library.Decoding
import Sedona.Sys.Meta

/-!
# Binary Streams

`sys::OutStream` and `sys::InStream`: an `int` is a 32-bit word, a writer returns the bytes it
writes, and a reader takes them off a list of bytes. `read` returns -1 at the end of the
stream, and the readers of wider integers return -1 when a byte is missing.

## Main results

* `decodes_readU2`, `decodes_readS4`, `decodes_readS8`, `decodes_readStr`: every reader gives
  back what its writer was given.
-/

namespace Sedona

open Decoding

/-- A computation that reads from an `InStream`. -/
abbrev Reader (m : Type → Type) := StateT (List (BitVec 8)) m

/-! ### Writers -/

namespace OutStream

/-- `OutStream.write`: the low byte. -/
def write (b : BitVec 32) : List (BitVec 8) := [b.setWidth 8]

/-- `OutStream.writeBool`: a bool cell is 0, 1, or 2 for null. -/
def writeBool (b : Option Bool) : List (BitVec 8) :=
  write (match b with
    | none => 2
    | some true => 1
    | some false => 0)

/-- `OutStream.writeStr`: the characters and a terminating zero. -/
def writeStr (s : Str) : List (BitVec 8) := s ++ write 0

/-- `OutStream.writeI2`: the low 16 bits, high byte first. -/
def writeI2 (v : BitVec 32) : List (BitVec 8) :=
  write ((v.sshiftRight 8) &&& 0xff) ++ write ((v.sshiftRight 0) &&& 0xff)

/-- `OutStream.writeI4`. -/
def writeI4 (v : BitVec 32) : List (BitVec 8) :=
  write ((v.sshiftRight 24) &&& 0xff) ++ write ((v.sshiftRight 16) &&& 0xff) ++
    write ((v.sshiftRight 8) &&& 0xff) ++ write ((v.sshiftRight 0) &&& 0xff)

/-- `OutStream.writeI8`. -/
def writeI8 (v : BitVec 64) : List (BitVec 8) :=
  writeI4 (((v.sshiftRight 32) &&& 0xffffffff).setWidth 32) ++
    writeI4 (((v.sshiftRight 0) &&& 0xffffffff).setWidth 32)

end OutStream

/-! ### Readers -/

namespace InStream

variable {m : Type → Type} [Monad m]

/-- `InStream.read`: the next byte, or -1. -/
def read : Reader m (BitVec 32) := fun s =>
  match s with
  | [] => pure (-1, [])
  | b :: s => pure (b.setWidth 32, s)

/-- `InStream.readBool`. -/
def readBool : Reader m (Option Bool) := do
  let x ← read
  if x = 2 then pure none else pure (some (x != 0))

/-- The loop of `readStr`: `n` characters may still be read, `s` are read so far. The string
held `old` before. -/
def readStrLoop (old : Str) : ℕ → Str → Reader m (Bool × Str)
  | 0, s => pure (false, s.dropLast)
  | n + 1, s => do
      let ch ← read
      if ch.slt 0 then pure (false, s ++ old.drop s.length)
      else if ch = 0 then pure (true, s)
      else readStrLoop old n (s ++ [ch.setWidth 8])

/-- `InStream.readStr`: whether a terminated string of less than `max` characters was read,
and what the string holds then. -/
def readStr (old : Str) (max : ℕ) : Reader m (Bool × Str) := readStrLoop old max []

/-- `InStream.readU2`. -/
def readU2 : Reader m (BitVec 32) := do
  let a ← read
  let b ← read
  if a.slt 0 || b.slt 0 then pure (-1) else pure ((a <<< 8) ||| b)

/-- `InStream.readS4`. -/
def readS4 : Reader m (BitVec 32) := do
  let a ← read
  let b ← read
  let c ← read
  let d ← read
  if a.slt 0 || b.slt 0 || c.slt 0 || d.slt 0 then pure (-1)
  else pure ((a <<< 24) ||| (b <<< 16) ||| (c <<< 8) ||| d)

/-- `InStream.readS8`. -/
def readS8 : Reader m (BitVec 64) := do
  let hi ← readS4
  let lo ← readS4
  pure ((hi.signExtend 64 <<< 32) ||| (lo.signExtend 64 &&& 0xffffffff))

/-- `InStream.readBytes` into a buffer: as many bytes as are left, at most `len`. -/
def readBytes (len : ℕ) : Reader m (List (BitVec 8)) := fun s => pure (s.take len, s.drop len)

/-- `InStream.skip`. -/
def skip (n : ℕ) : Reader m Unit := fun s => pure ((), s.drop n)

end InStream

/-! ### Words and their bytes -/

section Words

variable {k : ℕ}

/-- A byte is never taken for the end of the stream. -/
theorem setWidth_slt_zero (b : BitVec 8) : (b.setWidth 32).slt 0 = false := by
  revert b
  decide

/-- The low byte of a word shifted down is one of its bytes. -/
theorem byte_eq (v : BitVec 32) (hk : k + 8 ≤ 32) :
    ((v.sshiftRight k) &&& 0xff).setWidth 8 = v.extractLsb' k 8 := by
  have hmask : (0xff : BitVec 32).setWidth 8 = BitVec.allOnes 8 := by decide
  rw [BitVec.setWidth_and, hmask, BitVec.and_allOnes]
  ext i hi
  have hlt : k + i < 32 := by omega
  simp [BitVec.getElem_sshiftRight, hlt, show i < 32 by omega]

/-- So is the low half of a long shifted down. -/
theorem half_eq (v : BitVec 64) (hk : k + 32 ≤ 64) :
    ((v.sshiftRight k) &&& 0xffffffff).setWidth 32 = v.extractLsb' k 32 := by
  have hmask : (0xffffffff : BitVec 64).setWidth 32 = BitVec.allOnes 32 := by decide
  rw [BitVec.setWidth_and, hmask, BitVec.and_allOnes]
  ext i hi
  have hlt : k + i < 64 := by omega
  simp [BitVec.getElem_sshiftRight, hlt, show i < 64 by omega]

theorem join_two (v : BitVec 32) :
    ((v.extractLsb' 8 8).setWidth 32 <<< 8) ||| (v.extractLsb' 0 8).setWidth 32 =
      (v.setWidth 16).setWidth 32 := by
  ext i hi
  by_cases h8 : i < 8
  · simp [h8, show i < 16 by omega]
  · by_cases h16 : i < 16
    · simp [h8, h16, show i - 8 < 8 by omega, show 8 + (i - 8) = i by omega]
    · simp [h8, h16, show ¬ i - 8 < 8 by omega]

theorem join_four (v : BitVec 32) :
    ((v.extractLsb' 24 8).setWidth 32 <<< 24) ||| ((v.extractLsb' 16 8).setWidth 32 <<< 16) |||
      ((v.extractLsb' 8 8).setWidth 32 <<< 8) ||| (v.extractLsb' 0 8).setWidth 32 = v := by
  ext i hi
  have hget := BitVec.getLsbD_eq_getElem (x := v) hi
  by_cases h8 : i < 8
  · simp [h8, show i < 16 by omega, show i < 24 by omega, hget]
  · by_cases h16 : i < 16
    · simp [h8, h16, show i < 24 by omega, show i - 8 < 8 by omega, show 8 + (i - 8) = i by omega,
        hget]
    · by_cases h24 : i < 24
      · simp [h8, h16, h24, show i - 16 < 8 by omega, show ¬ i - 8 < 8 by omega,
          show 16 + (i - 16) = i by omega, hget]
      · simp [h8, h16, h24, show i - 24 < 8 by omega, show ¬ i - 8 < 8 by omega,
          show ¬ i - 16 < 8 by omega, show 24 + (i - 24) = i by omega, hget]

theorem join_halves (v : BitVec 64) :
    ((v.extractLsb' 32 32).signExtend 64 <<< 32) |||
      ((v.extractLsb' 0 32).signExtend 64 &&& 0xffffffff) = v := by
  have hmasks : ∀ j : Fin 64, (0xffffffff#64)[j.val] = decide (j.val < 32) := by decide
  ext i hi
  have hmask : (0xffffffff#64)[i] = decide (i < 32) := hmasks ⟨i, hi⟩
  by_cases h32 : i < 32
  · simp [h32, hmask, BitVec.getElem_signExtend, BitVec.getLsbD_eq_getElem (x := v) hi]
  · simp [h32, hmask, BitVec.getElem_signExtend, BitVec.getLsbD_eq_getElem (x := v) hi,
      show i - 32 < 32 by omega, show 32 + (i - 32) = i by omega]

end Words

/-! ### Round trips -/

section RoundTrip

open OutStream InStream

variable {m : Type → Type} [Monad m]

theorem decodes_read (b : BitVec 8) : Decodes (read (m := m)) [b] (b.setWidth 32) :=
  fun _ => rfl

theorem decodes_readBytes (l : List (BitVec 8)) : Decodes (readBytes (m := m) l.length) l l := by
  intro rest
  show pure _ = _
  rw [List.take_left, List.drop_left]

theorem decodes_skip (l : List (BitVec 8)) : Decodes (skip (m := m) l.length) l () := by
  intro rest
  show pure _ = _
  rw [List.drop_left]

variable [LawfulMonad m]

theorem decodes_readBool (b : Option Bool) : Decodes (readBool (m := m)) (writeBool b) b := by
  match b with
  | none => exact (decodes_read _).bind (Decodes.pure none)
  | some true => exact (decodes_read _).bind (Decodes.pure (some true))
  | some false => exact (decodes_read _).bind (Decodes.pure (some false))

theorem decodes_readU2 (v : BitVec 32) :
    Decodes (readU2 (m := m)) (writeI2 v) ((v.setWidth 16).setWidth 32) := by
  rw [← join_two v]
  refine (decodes_read _).bind ((decodes_read _).bind ?_)
  rw [byte_eq v (by decide), byte_eq v (by decide)]
  simp only [setWidth_slt_zero, Bool.or_self, Bool.false_eq_true, if_false]
  exact Decodes.pure _

theorem decodes_readS4 (v : BitVec 32) : Decodes (readS4 (m := m)) (writeI4 v) v := by
  have hread : Decodes (readS4 (m := m)) ([v.extractLsb' 24 8] ++ ([v.extractLsb' 16 8] ++
      ([v.extractLsb' 8 8] ++ ([v.extractLsb' 0 8] ++ [])))) v := by
    refine (decodes_read _).bind ((decodes_read _).bind ((decodes_read _).bind
      ((decodes_read _).bind ?_)))
    simp only [setWidth_slt_zero, Bool.or_self, Bool.false_eq_true, if_false, join_four v]
    exact Decodes.pure v
  rw [writeI4, write, write, write, write, byte_eq v (by decide), byte_eq v (by decide),
    byte_eq v (by decide), byte_eq v (by decide)]
  simpa using hread

theorem decodes_readS8 (v : BitVec 64) : Decodes (readS8 (m := m)) (writeI8 v) v := by
  rw [writeI8, half_eq v (by decide), half_eq v (by decide)]
  have hread : Decodes (readS8 (m := m)) (writeI4 (v.extractLsb' 32 32) ++
      (writeI4 (v.extractLsb' 0 32) ++ [])) v := by
    refine (decodes_readS4 _).bind ((decodes_readS4 _).bind ?_)
    rw [join_halves v]
    exact Decodes.pure v
  simpa using hread

/-- Terminated strings without zeros are read back if they are short enough. -/
theorem decodes_readStr (old : Str) {s : Str} (hs : 0 ∉ s) {max : ℕ} (hlen : s.length < max) :
    Decodes (readStr (m := m) old max) (writeStr s) (true, s) := by
  have hloop : ∀ n pre, s.length < n →
      Decodes (readStrLoop (m := m) old n pre) (writeStr s) (true, pre ++ s) := by
    clear hlen
    induction s with
    | nil =>
        rintro (_ | n) pre hn
        · simp at hn
        · rw [List.append_nil]
          exact (decodes_read 0).bind (Decodes.pure (true, pre))
    | cons ch s ih =>
        rintro (_ | n) pre hn
        · simp at hn
        · rw [List.mem_cons, not_or] at hs
          have hch : ch.setWidth 32 ≠ 0 := by
            intro h0
            have hback := congrArg (BitVec.setWidth 8) h0
            rw [BitVec.setWidth_setWidth_of_le ch (by decide), BitVec.setWidth_eq] at hback
            exact hs.1 hback.symm
          have hread : Decodes (readStrLoop (m := m) old (n + 1) pre)
              ([ch] ++ writeStr s) (true, (pre ++ [ch]) ++ s) := by
            refine (decodes_read ch).bind ?_
            rw [setWidth_slt_zero, if_neg Bool.false_ne_true, if_neg hch,
              BitVec.setWidth_setWidth_of_le ch (by decide), BitVec.setWidth_eq]
            exact ih hs.2 n (pre ++ [ch]) (by simpa using hn)
          rw [List.append_assoc] at hread
          exact hread
  exact hloop max [] hlen

end RoundTrip

end Sedona
