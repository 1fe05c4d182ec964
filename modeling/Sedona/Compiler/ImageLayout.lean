import Mathlib.Data.List.Basic
import Mathlib.Logic.Function.Basic
import Sedona.Library.ByteCells

/-!
# The Layout of an Image

What the image generator writes is a sequence of writes (`Write`), one for each call of the
source. It is read in two ways, by the two instances of `Emitter`: the generator itself, which
keeps bytes, block indices and a patch list, and the layout of this module, which keeps only
how many bytes are written, where each object starts, and which cells hold a block index.
-/

namespace Sedona.ImageGen

open ByteCells

/-- A Java `int`. -/
abbrev JInt := BitVec 32

/-! ### Addressable constructs -/

structure TypeName where
  kit : String
  name : String
deriving DecidableEq, Repr

structure SlotName where
  parent : TypeName
  name : String
deriving DecidableEq, Repr

namespace SlotName

/-- `Slot.qname`. -/
def qname (s : SlotName) : String := s.parent.kit ++ "::" ++ s.parent.name ++ "." ++ s.name

end SlotName

/-- `sedona.Buf` as a literal: its size and its bytes, the first one in the lowest bits. -/
structure Buf where
  size : ℕ
  bits : BitVec (8 * size)
deriving DecidableEq

/-- The bytes of a buffer. -/
def Buf.bytes (b : Buf) : List Byte :=
  (List.range b.size).map fun i => b.bits.extractLsb' (8 * i) 8

/-- The values of an array literal. Floating-point numbers are given by their bits. -/
inductive ArrayLit where
  | strs (vals : List String)
  | bytes (vals : List JInt)
  | shorts (vals : List JInt)
  | ints (vals : List JInt)
  | longs (vals : List (BitVec 64))
  | floats (vals : List JInt)
  | doubles (vals : List (BitVec 64))
deriving DecidableEq

/-- The implementors of `IrAddressable`: what has a block index. -/
inductive Addr where
  | kit (name : String)
  | type (t : TypeName)
  | primitive (id : ℕ)
  | vtable (t : TypeName)
  | reflect (s : SlotName)
  | storage (f : SlotName)
  | code (m : SlotName)
  | int (v : JInt)
  | long (v : BitVec 64)
  | float (bits : JInt)
  | double (bits : BitVec 64)
  | str (s : String)
  | buf (b : Buf)
  | array (a : ArrayLit)
  /-- An element of a literal of strings. -/
  | arrayStr (a : ArrayLit) (j : ℕ)
  | qnameType (t : TypeName)
  | qnameSlot (s : SlotName)
deriving DecidableEq

/-- `IrAddressable.alignBlockIndex`: only the indices of code may be unaligned. -/
def Addr.alignBlockIndex : Addr → Bool
  | .code _ => false
  | _ => true

/-! ### The constant pool -/

/-- `HashMap.put`, unless the key is there. -/
def put (pool : List Addr) (a : Addr) : List Addr :=
  if a ∈ pool then pool else pool ++ [a]

/-- `ConstPool.qnameType`. -/
def poolQnameType (pool : List Addr) (t : TypeName) : List Addr :=
  if .qnameType t ∈ pool then pool
  else put (put (put pool (.str t.kit)) (.str t.name)) (.qnameType t)

/-- `ConstPool.qnameSlot`. -/
def poolQnameSlot (pool : List Addr) (s : SlotName) : List Addr :=
  if .qnameSlot s ∈ pool then pool
  else put (put (poolQnameType pool s.parent) (.str s.name)) (.qnameSlot s)

/-- The pool after a constant is asked for. -/
def intern (pool : List Addr) (a : Addr) : List Addr :=
  match a with
  | .int _ | .long _ | .float _ | .double _ | .str _ | .buf _ | .array _ => put pool a
  | .qnameType t => poolQnameType pool t
  | .qnameSlot s => poolQnameSlot pool s
  | _ => pool

/-! ### Writes -/

/-- `sedonac.scode.SCodeImage`. -/
structure SCodeImage where
  bigEndian : Bool
  blockSize : ℕ
  refSize : JInt
  armDouble : Bool
  main : String
  resume : String
  debug : Bool
  test : Bool

/-- The cells of the header that hold a block index and are written where it is known. -/
inductive HeaderCell where
  | mainMethod | tests | kits
deriving DecidableEq, Repr

/-- The offset of a header cell. -/
def HeaderCell.off : HeaderCell → ℕ
  | .mainMethod => 16
  | .tests => 18
  | .kits => 20

/-- A call of the image generator that writes to the image, or that can fail. -/
inductive Write where
  /-- `code.u1(v)` -/
  | u1 (v : JInt)
  /-- `code.u2(v, checkAlign)` -/
  | u2 (v : JInt) (checkAlign : Bool := true)
  /-- `code.i4(v)` -/
  | i4 (v : JInt)
  /-- `code.i8(v)` -/
  | i8 (v : BitVec 64)
  /-- `code.append(b)` -/
  | append (b : Buf)
  /-- `code.align(a)` -/
  | align (a : ℕ)
  /-- `blockAlign()` -/
  | blockAlign
  /-- `padArg(a)` -/
  | padArg (a : ℕ)
  /-- `a.setBlockIndex(blockIndex())` -/
  | place (a : Addr)
  /-- `addBlockIndex(a)` -/
  | addBlockIndex (a : Addr)
  /-- `code.u2(c, blockIndex())` -/
  | headerIndex (c : HeaderCell)
  /-- `code.u2(c, 0)` -/
  | headerZero (c : HeaderCell)
  /-- `code.u2(a.blockIndex)` -/
  | u2BlockIndex (a : Addr)
  /-- `if (a.blockIndex <= 0) throw` -/
  | checkPlaced (a : Addr)
  /-- `if (code.size % a != 0) throw` -/
  | checkSize (a : ℕ)
  /-- `if (code.size % image.blockSize != 0) throw` -/
  | checkBlock
  | throw (msg : String)

/-- What a sequence of writes is read by. -/
class Emitter (σ : Type) where
  empty : σ
  write (img : SCodeImage) (s : σ) (w : Write) : Except String σ
  size (s : σ) : ℕ
  pool (s : σ) : List Addr
  /-- The state with the pool of a later one. -/
  withPool (s : σ) (pool : List Addr) : σ
  /-- `code.s1(pos, v)`: over what is written. -/
  patchS1 (s : σ) (pos : ℕ) (v : JInt) : σ
  /-- `code.s2(pos, v)`: over what is written. -/
  patchS2 (img : SCodeImage) (s : σ) (pos : ℕ) (v : JInt) : Except String σ

/-- A sequence of writes. -/
def emit {σ : Type} [Emitter σ] (img : SCodeImage) (s : σ) (ws : List Write) :
    Except String σ :=
  ws.foldlM (Emitter.write img) s

/-- The number of bytes to the next multiple of `a`. -/
def padding (a size : ℕ) : ℕ := if size % a = 0 then 0 else a - size % a

/-- The number of bytes before an opcode that align its argument. -/
def argPadding (a size : ℕ) : ℕ := if a < 2 then 0 else padding a (size + 1)

/-! ### The layout -/

/-- What a cell refers to: an object whose block index is filled in at the end, or the place of
one that is known; `unplaced` if there was none. -/
inductive Target where
  | obj (a : Addr)
  | at (offset : ℕ)
  | unplaced

/-- The layout of the bytes written so far. -/
structure Layout where
  size : ℕ
  /-- Where an object starts. -/
  start : Addr → Option ℕ
  pool : List Addr
  header : HeaderCell → Option ℕ
  /-- The cells with a block index outside the header, the last one first. -/
  cells : List (ℕ × Target)

namespace Layout

def empty : Layout :=
  { size := 0, start := fun _ => none, pool := [], header := fun _ => none, cells := [] }

def grow (l : Layout) (n : ℕ) : Layout := { l with size := l.size + n }

/-- `blockIndex`: an object can only start at a multiple of the block size. -/
def blockStart (img : SCodeImage) (l : Layout) : Except String ℕ :=
  if img.blockSize = 0 then throw "/ by zero"
  else if l.size % img.blockSize ≠ 0 then throw "IllegalStateException"
  else pure l.size

/-- The target of a cell that is written with the block index an object has. -/
def target (l : Layout) (a : Addr) : Target :=
  match l.start a with
  | some o => .at o
  | none => .unplaced

def write (img : SCodeImage) (l : Layout) : Write → Except String Layout
  | .u1 _ => pure (l.grow 1)
  | .u2 _ checkAlign =>
      if checkAlign && l.size % 2 ≠ 0 then throw "u2 not aligned" else pure (l.grow 2)
  | .i4 _ => if l.size % 4 ≠ 0 then throw "i4 not aligned" else pure (l.grow 4)
  | .i8 _ => if l.size % 8 ≠ 0 then throw "i8 not aligned" else pure (l.grow 8)
  | .append b => pure (l.grow b.size)
  | .align a => pure (l.grow (padding a l.size))
  | .blockAlign =>
      if img.blockSize = 0 then throw "/ by zero"
      else pure (l.grow (padding img.blockSize l.size))
  | .padArg a => pure (l.grow (argPadding a l.size))
  | .place a => do
      let o ← l.blockStart img
      pure { l with start := Function.update l.start a (some o) }
  | .addBlockIndex a =>
      if a.alignBlockIndex && l.size % 2 ≠ 0 then throw "u2 not aligned"
      else pure { l.grow 2 with
        pool := intern l.pool a
        cells := (l.size, .obj a) :: l.cells }
  | .headerIndex c => do
      let o ← l.blockStart img
      pure { l with header := Function.update l.header c (some o) }
  | .headerZero c => pure { l with header := Function.update l.header c none }
  | .u2BlockIndex a =>
      if l.size % 2 ≠ 0 then throw "u2 not aligned"
      else pure { l.grow 2 with cells := (l.size, l.target a) :: l.cells }
  | .checkPlaced a => if l.start a = none then throw "IllegalStateException" else pure l
  | .checkSize a => if l.size % a ≠ 0 then throw "IllegalStateException" else pure l
  | .checkBlock =>
      if img.blockSize = 0 then throw "/ by zero"
      else if l.size % img.blockSize ≠ 0 then throw "IllegalStateException" else pure l
  | .throw msg => throw msg

instance : Emitter Layout where
  empty := empty
  write := write
  size := size
  pool := pool
  withPool l pool := { l with pool }
  patchS1 l _ _ := l
  patchS2 _ l pos _ := if pos % 2 ≠ 0 then throw "u2 not aligned" else pure l

/-- Where the object of a cell starts. -/
def resolve (l : Layout) : Target → Option ℕ
  | .obj a => l.start a
  | .at o => some o
  | .unplaced => none

/-- All cells that hold a block index, with what they refer to. -/
def refs (l : Layout) : List (ℕ × Target) :=
  [HeaderCell.mainMethod, .tests, .kits].filterMap (fun c => (l.header c).map (c.off, .at ·)) ++
    l.cells

/-- The layout is complete: every object referred to has been placed. -/
def finish (l : Layout) : Except String Layout :=
  if l.cells.all fun c => match c.2 with
      | .obj a => (l.start a).isSome
      | _ => true
  then pure l
  else throw "Attempt to back patch IR with no block index"

end Layout

end Sedona.ImageGen
