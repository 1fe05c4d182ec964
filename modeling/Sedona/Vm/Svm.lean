import Mathlib.Logic.Function.Basic
import Sedona.Library.LabelledCode

/-!
# The Instructions of the SVM

The part of the instruction set (`sedonac.scode.SCode`, `vm.c`) that the optimizer looks at,
and all instructions that branch or return. The rest is `other`: an instruction that acts on
the frame and on memory in whatever way and goes on to the next one.

Cells have 32 bits, and so have references, as the optimizer assumes. The operand stack is a
function of the depth: there is always something further down.
-/

namespace Sedona

open LabelledCode

/-- A cell of the stack. -/
abbrev Cell := BitVec 32

/-- The qualified name of a type or slot. -/
abbrev QName := String

/-! ### Instructions -/

/-- The comparisons of ints: `IntEq` to `IntLtEq`. -/
inductive Cmp where
  | eq | notEq | gt | gtEq | lt | ltEq
deriving DecidableEq, Repr

/-- The kinds of jumps: `Jump`, `JumpNonZero`, `JumpZero`, `Foreach`, `JumpIntEq` and so on. -/
inductive JumpKind where
  | always | nonZero | zero | foreach
  | int (c : Cmp)
deriving DecidableEq, Repr

/-- An instruction with its argument. Labels are indices of instructions. -/
inductive Op where
  | loadI0 | loadNull | loadParam0 | loadDataAddr
  | loadInlineFieldU1 (field : QName)
  | loadDataInlineFieldU1 (field : QName)
  | loadParam0InlineFieldU1 (field : QName)
  | call (method : QName)
  | loadParam0Call (method : QName)
  | load8BitArray | store8BitArray
  | int (c : Cmp)
  | objEq | objNotEq | eqZero | notEqZero
  | jump (kind : JumpKind) (far : Bool) (label : ℕ)
  | switch (labels : List ℕ)
  | cast (type : QName)
  | returnVoid | returnPop | returnPopWide
  | other (opcode : ℕ) (arg : String)
deriving DecidableEq, Repr

namespace Op

/-- The labels of an instruction. -/
def labels : Op → List ℕ
  | jump _ _ l => [l]
  | switch ls => ls
  | _ => []

/-- The instruction with its labels renamed. -/
def relabel (f : ℕ → ℕ) : Op → Op
  | jump k far l => jump k far (f l)
  | switch ls => switch (ls.map f)
  | op => op

end Op

/-! ### Execution -/

/-- The frame of a method with its operand stack, from the top down, and the world: memory and
whatever native methods work on. -/
structure Frame (W : Type) where
  params : ℕ → Cell
  locals : ℕ → Cell
  stack : ℕ → Cell
  world : W

/-- How a method ends. -/
inductive Result where
  | void
  | value (v : Cell)
  | wide (hi lo : Cell)
  | error
deriving DecidableEq, Repr

/-- What the instructions depend on besides the frame: the image, memory and the methods. The
events are the stores and calls that can be observed. -/
structure Svm (W ε : Type) where
  /-- The address of static data. -/
  dataBase : Cell
  /-- The offsets of fields. -/
  offset : QName → Cell
  load8 : W → Cell → BitVec 8
  store8 : W → Cell → BitVec 8 → W × List ε
  /-- What a call of a method does, or `none` if the VM stops with an error. -/
  invoke : QName → Frame W → Option (Frame W × List ε)
  /-- What any other instruction does. -/
  other : ℕ → String → Frame W → Option (Frame W × List ε)

/-- Compare two ints. -/
def Cmp.test : Cmp → Cell → Cell → Bool
  | eq, a, b => a == b
  | notEq, a, b => a != b
  | gt, a, b => b.slt a
  | gtEq, a, b => b.sle a
  | lt, a, b => a.slt b
  | ltEq, a, b => a.sle b

/-- The cell of a bool. -/
def boolCell (b : Bool) : Cell := if b then 1 else 0

namespace Frame

variable {W : Type}

/-- Push a cell. -/
def push (v : Cell) (f : Frame W) : Frame W :=
  { f with stack := fun
      | 0 => v
      | i + 1 => f.stack i }

/-- Pop `n` cells. -/
def pop (n : ℕ) (f : Frame W) : Frame W := { f with stack := fun i => f.stack (i + n) }

/-- The cell at a depth. -/
def peek (i : ℕ) (f : Frame W) : Cell := f.stack i

end Frame

namespace Svm

variable {W ε : Type} (m : Svm W ε)

/-- Whether a jump of this kind is taken, and what it does to the stack. -/
def test {W : Type} (f : Frame W) : JumpKind → Bool × Frame W
  | .always => (true, f)
  | .nonZero => (f.peek 0 != 0, f.pop 1)
  | .zero => (f.peek 0 == 0, f.pop 1)
  | .int c => (c.test (f.peek 1) (f.peek 0), f.pop 2)
  | .foreach =>
      -- array, length and counter are on the stack
      let f := (f.pop 1).push (f.peek 0 + 1)
      if (f.peek 1).sle (f.peek 0) then (true, f)
      else (false, (f.push (f.peek 2)).push (f.peek 0))

/-- Load the byte with the index on top of the stack from the array below it. -/
def loadByte (f : Frame W) (offset : Cell) : Frame W :=
  (f.pop 2).push ((m.load8 f.world (f.peek 1 + offset + f.peek 0)).setWidth 32)

/-- Store the byte on top of the stack at the index below it in the array below that. -/
def storeByte (f : Frame W) (offset : Cell) : Frame W × List ε :=
  let (world, tr) := m.store8 f.world (f.peek 2 + offset + f.peek 1) ((f.peek 0).setWidth 8)
  ({ f.pop 3 with world := world }, tr)

/-- Call a method. `sys::Str.get` and `sys::Str.set` are an array access to the field `buf`. -/
def call (method : QName) (f : Frame W) : Option (Frame W × List ε) :=
  if method = "sys::Str.get" then some (m.loadByte f (m.offset "sys::Str.buf"), [])
  else if method = "sys::Str.set" then some (m.storeByte f (m.offset "sys::Str.buf"))
  else m.invoke method f

/-- Go on, or stop with an error. -/
def proceed (world : W) : Option (Frame W × List ε) → Outcome (Frame W) ε (Result × W)
  | some (f, tr) => .next f tr
  | none => .halt (.error, world) []

/-- What an instruction does. -/
def exec (op : Op) (f : Frame W) : Outcome (Frame W) ε (Result × W) :=
  match op with
  | .loadI0 => .next (f.push 0) []
  | .loadNull => .next (f.push 0) []
  | .loadParam0 => .next (f.push (f.params 0)) []
  | .loadDataAddr => .next (f.push m.dataBase) []
  | .loadInlineFieldU1 field => .next ((f.pop 1).push (f.peek 0 + m.offset field)) []
  | .loadDataInlineFieldU1 field => .next (f.push (m.dataBase + m.offset field)) []
  | .loadParam0InlineFieldU1 field => .next (f.push (f.params 0 + m.offset field)) []
  | .call method => proceed f.world (m.call method f)
  | .loadParam0Call method => proceed f.world (m.call method (f.push (f.params 0)))
  | .load8BitArray => .next (m.loadByte f 0) []
  | .store8BitArray =>
      let (f, tr) := m.storeByte f 0
      .next f tr
  | .int c => .next ((f.pop 2).push (boolCell (c.test (f.peek 1) (f.peek 0)))) []
  | .objEq => .next ((f.pop 2).push (boolCell (f.peek 1 == f.peek 0))) []
  | .objNotEq => .next ((f.pop 2).push (boolCell (f.peek 1 != f.peek 0))) []
  | .eqZero => .next ((f.pop 1).push (boolCell (f.peek 0 == 0))) []
  | .notEqZero => .next ((f.pop 1).push (boolCell (f.peek 0 != 0))) []
  | .jump kind _ label =>
      let (taken, f) := test f kind
      if taken then .goto label f [] else .next f []
  | .switch labels =>
      -- outside the table, the switch falls through
      if (f.peek 0).slt 0 then .next (f.pop 1) []
      else
        match labels[(f.peek 0).toNat]? with
        | some label => .goto label (f.pop 1) []
        | none => .next (f.pop 1) []
  -- a cast is only for Java bytecode
  | .cast _ => .next f []
  | .returnVoid => .halt (.void, f.world) []
  | .returnPop => .halt (.value (f.peek 0), f.world) []
  | .returnPopWide => .halt (.wide (f.peek 1) (f.peek 0), f.world) []
  | .other opcode arg => proceed f.world (m.other opcode arg f)

end Svm

end Sedona
