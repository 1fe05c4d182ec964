import Mathlib.Algebra.Group.Nat.Defs
import Sedona.Library.IteratedHash

/-!
# The Secure Hash Algorithm

SHA-1 as the standard has it: the message is padded to blocks of 64 bytes, and the blocks are
hashed one after the other into five words. It says what the C code of `inet::Crypto` is for.

## Main results

* `length_padding`: a padded message is made of full blocks.
-/

namespace SecureHash

abbrev Byte := BitVec 8

abbrev Word := BitVec 32

/-- The four bytes of a word, the highest first. -/
def wordBytes (w : Word) : List Byte :=
  [(w >>> 24).truncate 8, (w >>> 16).truncate 8, (w >>> 8).truncate 8, w.truncate 8]

@[simp] theorem length_wordBytes (w : Word) : (wordBytes w).length = 4 := rfl

/-! ### One block -/

/-- The word buffers. -/
structure Registers where
  a : Word
  b : Word
  c : Word
  d : Word
  e : Word
  deriving DecidableEq, Repr

/-- The functions `f` of the standard. -/
def f (t : ℕ) (b c d : Word) : Word :=
  if t < 20 then (b &&& c) ||| (~~~b &&& d)
  else if t < 40 then b ^^^ c ^^^ d
  else if t < 60 then (b &&& c) ||| (b &&& d) ||| (c &&& d)
  else b ^^^ c ^^^ d

/-- The constants `K` of the standard. -/
def K (t : ℕ) : Word :=
  if t < 20 then 0x5A827999 else if t < 40 then 0x6ED9EBA1
  else if t < 60 then 0x8F1BBCDC else 0xCA62C1D6

/-- The `i`-th word of a block. -/
def blockWord (block : List Byte) (i : ℕ) : Word :=
  block.getD (4 * i) 0 ++ block.getD (4 * i + 1) 0 ++ block.getD (4 * i + 2) 0 ++
    block.getD (4 * i + 3) 0

/-- The word sequence of a block. -/
def W (block : List Byte) (t : ℕ) : Word :=
  if _ht : t < 16 then blockWord block t
  else (W block (t - 3) ^^^ W block (t - 8) ^^^ W block (t - 14) ^^^ W block (t - 16)).rotateLeft 1
termination_by t

/-- One step of the eighty. -/
def round (block : List Byte) (t : ℕ) (r : Registers) : Registers where
  a := r.a.rotateLeft 5 + f t r.b r.c r.d + r.e + W block t + K t
  b := r.a
  c := r.b.rotateLeft 30
  d := r.c
  e := r.d

/-- The words that are hashed into. -/
abbrev Hash := Vector Word 5

def Hash.registers (h : Hash) : Registers := ⟨h.get 0, h.get 1, h.get 2, h.get 3, h.get 4⟩

def Registers.hash (r : Registers) : Hash := #v[r.a, r.b, r.c, r.d, r.e]

def Hash.add (h : Hash) (r : Registers) : Hash :=
  #v[h.get 0 + r.a, h.get 1 + r.b, h.get 2 + r.c, h.get 3 + r.d, h.get 4 + r.e]

/-- A block is hashed in. -/
def compress (h : Hash) (block : List Byte) : Hash :=
  h.add ((List.range 80).foldl (fun r t => round block t r) h.registers)

/-! ### A message -/

def initial : Hash :=
  Registers.hash ⟨0x67452301, 0xEFCDAB89, 0x98BADCFE, 0x10325476, 0xC3D2E1F0⟩

/-- The full blocks of a message hashed in, and what is left. -/
def absorb (message : List Byte) : Hash × List Byte :=
  IteratedHash.absorb compress 64 initial message

/-- A number as two words. -/
def lengthBytes (n : ℕ) : List Byte :=
  wordBytes (BitVec.ofNat 32 (n / 2 ^ 32)) ++ wordBytes (BitVec.ofNat 32 n)

/-- What is put behind a message of `n` bytes: a bit, zeros up to the last eight bytes of a block,
and the number of bits. -/
def padding (n : ℕ) : List Byte :=
  0x80 :: List.replicate ((119 - n % 64) % 64) 0 ++ lengthBytes (8 * n)

/-- **A padded message is made of full blocks.** -/
theorem length_padding (n : ℕ) : 64 ∣ n + (padding n).length := by
  have hmod := Nat.mod_lt n (by decide : 0 < 64)
  simp only [padding, lengthBytes, List.length_append, List.length_cons, List.length_replicate,
    length_wordBytes]
  omega

/-- The digest of a message. -/
def digest (message : List Byte) : List Byte :=
  (absorb (message ++ padding message.length)).1.toList.flatMap wordBytes

/-- Nothing of a padded message is left. -/
theorem absorb_padded (message : List Byte) :
    (absorb (message ++ padding message.length)).2 = [] := by
  refine List.eq_nil_of_length_eq_zero ?_
  rw [absorb, IteratedHash.length_absorb compress (by decide), List.length_append]
  exact Nat.mod_eq_zero_of_dvd (length_padding _)

theorem length_digest (message : List Byte) : (digest message).length = 20 := by
  simp [digest, List.length_flatMap]

end SecureHash
