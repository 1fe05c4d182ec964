import Mathlib.Data.Int.Basic
import Sedona.Sys.Meta

/-!
# Streams over a Buffer

`sys::BufInStream`, as the SOX service reads its packet with it. The stream keeps the whole
buffer: what lies behind the size is not read, but array accesses may still see it.
-/

namespace Sedona

/-- A `BufInStream` and its `Buf`: the bytes of the buffer, how many are used, and the
position. -/
structure BufInStream where
  bytes : ℕ → BitVec 8
  size : ℕ
  pos : ℕ := 0

namespace BufInStream

/-- `BufInStream.read`: the next byte, or -1. -/
def read : StateM BufInStream ℤ := fun s =>
  if s.size ≤ s.pos then (-1, s)
  else ((s.bytes s.pos).toNat, { s with pos := s.pos + 1 })

/-- `InStream.readU2`. -/
def readU2 : StateM BufInStream ℤ := do
  let a ← read
  let b ← read
  pure (if a < 0 ∨ b < 0 then -1 else a * 256 + b)

/-- The loop of `skip`. -/
def skipLoop : ℕ → StateM BufInStream Unit
  | 0 => pure ()
  | n + 1 => do
      let _ ← read
      skipLoop n

/-- `InStream.skip`. -/
def skip (n : ℤ) : StateM BufInStream Unit := skipLoop n.toNat

/-- The loop of `readStrInPlace`; `str` has been read so far. The byte it looks at first may lie
behind the size. -/
def readStrLoop : ℕ → Str → StateM BufInStream (Option Str)
  | 0, _ => pure none
  | n + 1, str => do
      let s ← get
      set { s with pos := s.pos + 1 }
      if s.bytes s.pos = 0 then pure (some str)
      else if s.size ≤ s.pos + 1 then pure none
      else readStrLoop n (str ++ [s.bytes s.pos])

/-- `BufInStream.readStrInPlace`: the string up to the next zero, or null. -/
def readStrInPlace : StateM BufInStream (Option Str) := do
  let s ← get
  readStrLoop (s.size - s.pos + 1) []

/-- The bytes that are left to read. -/
def rest (s : BufInStream) : List (BitVec 8) :=
  (List.range (s.size - s.pos)).map fun i => s.bytes (s.pos + i)

end BufInStream

end Sedona
