import Mathlib.Data.Int.DivMod
import Sedona.Compiler.ImageLayout
import Sedona.Library.Blocks

/-!
# FieldLayout

The layout of the fields of a type (`sedonac.steps.FieldLayout`). A type starts where its base
type ends. The fields of one byte come first, then those of two and of four, each pass with the
alignment of its size; inlined objects and arrays follow at multiples of four. The size of an
inlined object is that of its type, which is laid out on demand: the types that are being laid
out are marked, and a type that is met again while it is marked is reported.

Sizes and offsets are Java `int`s, which wrap around; -1 stands for one that is not known yet.
-/

namespace Sedona.FieldLayout

open ImageGen (TypeName SlotName)
open Blocks

/-! ### Types and fields -/

inductive Primitive where
  | bool | byte | short | int | long | float | double
deriving DecidableEq, Repr

def Primitive.sizeof : Primitive → ℤ
  | .bool | .byte => 1
  | .short => 2
  | .int | .float => 4
  | .long | .double => 8

/-- The type of a field. An array has a length, unless it is unsized. -/
inductive FieldType where
  | primitive (p : Primitive)
  | type (t : TypeName)
  | array (of : FieldType) (len : Option ℤ)
deriving DecidableEq

def FieldType.isRef : FieldType → Bool
  | .primitive _ => false
  | _ => true

/-- `sedonac.ir.IrField`. -/
structure IrField where
  id : SlotName
  type : FieldType
  isConst : Bool := false
  isInline : Bool := false
  /-- `{...}` array initialization -/
  arrayInit : Bool := false
  /-- The constructor parameter that is the length of the unsized array, or -1. -/
  ctorLengthParam : ℤ := -1
  /-- The value of the argument to `ctorLengthParam` of the field's type. -/
  ctorLengthArg : Option ℤ := none
deriving DecidableEq

/-- `sedonac.ir.IrType`. -/
structure IrType where
  name : TypeName
  base : Option TypeName := none
  instanceFields : List IrField

/-- `Type.isVirtual`. -/
def isVirtual (t : TypeName) : Bool := t = ⟨"sys", "Virtual"⟩

/-- The types in the order in which the compiler lays them out, the static fields, and the size
of a pointer. -/
structure Types where
  refSize : ℤ
  types : List IrType
  staticFields : List IrField

variable (P : Types)

def Types.find (t : TypeName) : Option IrType := P.types.find? fun u => u.name = t

/-! ### The state -/

/-- What the step has found out so far. -/
structure State where
  sizeof : TypeName → ℤ
  offset : SlotName → ℤ
  todo : List TypeName
  /-- The types that are being laid out, the last one first. -/
  processing : List TypeName
  /-- The types of the errors `Cyclic inline field in '...'`. -/
  errors : List TypeName

/-- An exception, with the errors reported before. -/
structure Crash where
  msg : String
  errors : List TypeName

namespace State

variable (st : State)

def crash {α : Type} (msg : String) : Except Crash α := throw ⟨msg, st.errors⟩

def setOffset (f : SlotName) (off : ℤ) : State :=
  { st with offset := Function.update st.offset f off }

/-- The unsized array, if there is one, is always laid out last. -/
def setUnsized (unsizedArray : Option IrField) (off : ℤ) : State :=
  match unsizedArray with
  | some f => st.setOffset f.id off
  | none => st

def err (t : TypeName) : State := { st with errors := t :: st.errors }

def start (t : TypeName) : State := { st with processing := t :: st.processing }

def finish (t : TypeName) (size : ℤ) : State :=
  { st with
    sizeof := Function.update st.sizeof t size
    processing := st.processing.erase t
    todo := st.todo.erase t }

/-- A Java `int`. -/
def int32 (x : ℤ) : ℤ := x.bmod 0x100000000

/-- `Type.sizeof`. -/
def typeSizeof : FieldType → Except Crash ℤ
  | .primitive p => pure p.sizeof
  | .type t => pure (st.sizeof t)
  | .array _ none => st.crash "sizeof unbounded array"
  | .array (.primitive p) (some len) => pure (int32 (p.sizeof * len))
  | .array _ (some _) => st.crash "array of refs is variable size"

end State

open State

/-! ### The fields of a type -/

/-- `sizeMatch` and `offIncr` of `layoutFields`: the size of a field that is laid out in the pass
for `sizeof`. -/
def sizeMatch (f : IrField) (sizeof : ℤ) : Option ℤ :=
  match f.type with
  | .primitive p =>
      if p.sizeof = 8 then if sizeof = 4 then some 8 else none
      else if p.sizeof = sizeof then some sizeof else none
  | _ =>
      if f.isConst && !f.isInline then if sizeof = 2 then some sizeof else none
      else if sizeof = P.refSize && !f.isInline then some sizeof else none

/-- `layoutFields`: one pass. -/
def layoutPass (sizeof : ℤ) (fields : List IrField) (st : State) (off : ℤ) : State × ℤ :=
  fields.foldl (fun s f =>
    match sizeMatch P f sizeof with
    | some incr => (s.1.setOffset f.id s.2, int32 (s.2 + incr))
    | none => s) (st, off)

/-- One pass, with the check of its start. -/
def checkedPass (sizeof : ℤ) (fields : List IrField) (st : State) (off : ℤ) :
    Except Crash (State × ℤ) :=
  if off % sizeof ≠ 0 then st.crash "IllegalStateException"
  else pure (layoutPass P sizeof fields st off)

/-- `while (off % n != 0) off++`. -/
def align (n off : ℤ) : ℤ := int32 (alignUp n off)

/-- The type that must be laid out before the field: for an array of references that of the
instances, if there are any. -/
def recurse (f : IrField) : Option FieldType :=
  match f.type with
  | .array of _ => if of.isRef then if f.arrayInit then some of else none else some f.type
  | t => some t

/-- `TypeUtil.getUnsizedArrayField`: such a type is final, and its base types have none. -/
def getUnsizedArrayField (t : FieldType) : Option IrField :=
  match t with
  | .type t => (P.find t).bind fun t => t.instanceFields.find? fun f => 0 < f.ctorLengthParam
  | _ => none

/-- The size of one item of an array. -/
def itemSize (st : State) (of : FieldType) : Except Crash ℤ :=
  if of.isRef then pure P.refSize else st.typeSizeof of

/-- `calcDynamicSize`. -/
def calcDynamicSize (st : State) (f : IrField) (len : ℤ) : Except Crash ℤ := do
  let baseSize ← st.typeSizeof f.type
  match (getUnsizedArrayField P f.type).map IrField.type with
  | some (.array of _) => do
      let unsizedOfSize ← itemSize P st of
      pure (int32 (baseSize + int32 (unsizedOfSize * len)))
  | _ => st.crash "NullPointerException"

/-- The size of an inline field. -/
def inlineSize (st : State) (f : IrField) : Except Crash ℤ :=
  match f.type with
  | .array of len =>
      if of.isRef then
        match len with
        | none => st.crash "NullPointerException"
        | some len =>
            if f.arrayInit then do
              let ofSize ← st.typeSizeof of
              pure (int32 (int32 (len * P.refSize) + int32 (len * ofSize)))
            else pure (int32 (len * P.refSize))
      else st.typeSizeof f.type
  | _ =>
      match f.ctorLengthArg with
      | some len => calcDynamicSize P st f len
      | none => st.typeSizeof f.type

section Recursion

-- `layoutInstanceFields` for the types inside.
variable (layoutType : State → TypeName → Except Crash State)

/-- Lays out a type that is needed, unless its size is known. The result says whether the size is
known then. -/
def layoutNeeded (st : State) (t : Option FieldType) : Except Crash (State × Bool) :=
  match t with
  | none => pure (st, true)
  | some t => do
      let size ← st.typeSizeof t
      if size < 0 then
        match t with
        | .type u => do
            let st ← layoutType st u
            pure (st, 0 ≤ st.sizeof u)
        | _ => st.crash "Cannot map to IrType"
      else pure (st, true)

/-- What is left over after the passes: odd sized inlines, and the unsized array at the end. -/
def layoutInlines (st : State) (off : ℤ) (unsizedArray : Option IrField) :
    List IrField → Except Crash (State × ℤ)
  | [] =>
      let st := st.setUnsized unsizedArray off
      if off % 4 ≠ 0 then st.crash "IllegalStateException" else pure (st, off)
  | f :: fields =>
      if st.offset f.id ≠ -1 then layoutInlines st off unsizedArray fields
      else if !f.isInline then st.crash "IllegalStateException"
      else if f.isConst then layoutInlines (st.setOffset f.id off) off unsizedArray fields
      else if 0 ≤ f.ctorLengthParam then
        if unsizedArray.isSome then st.crash "More than one unsized array?"
        else layoutInlines st off (some f) fields
      else do
        let (st, known) ← layoutNeeded layoutType st (recurse f)
        if !known then pure (st, -1)
        else do
          let size ← inlineSize P st f
          if size < 0 ∨ off % 4 ≠ 0 then st.crash "IllegalStateException"
          else
            layoutInlines (st.setOffset f.id off) (align 4 (int32 (off + size))) unsizedArray fields

/-- `layoutFields`. -/
def layoutFields (st : State) (off : ℤ) (fields : List IrField) : Except Crash (State × ℤ) := do
  let (st, off) ← checkedPass P 1 fields st off
  let (st, off) ← checkedPass P 2 fields st (align 2 off)
  let (st, off) ← checkedPass P 4 fields st (align 4 off)
  layoutInlines P layoutType st off none fields

/-- The offset at which the fields of a type start. -/
def startOffset (st : State) (t : IrType) : Except Crash (State × ℤ) :=
  match t.base with
  | none => pure (st, 0)
  | some b => do
      let st ← if st.sizeof b < 0 then layoutType st b else pure st
      if isVirtual b then pure (st, 2) else pure (st, st.sizeof b)

end Recursion

/-- `layoutInstanceFields` for a type. The first argument bounds the depth of the recursion:
types that are being laid out are marked, so that their number is enough. -/
def layoutType : ℕ → State → TypeName → Except Crash State
  | 0, st, _ => st.crash "StackOverflowError"
  | n + 1, st, name =>
      if name ∉ st.todo then pure st
      else if name ∈ st.processing then pure (st.err name)
      else
        match P.find name with
        | none => st.crash "Cannot map to IrType"
        | some t => do
            let (st, off) ← startOffset (layoutType n) (st.start name) t
            if off < 0 then st.crash "IllegalStateException"
            else do
              let (st, size) ← layoutFields P (layoutType n) st off t.instanceFields
              pure (st.finish name size)

/-! ### The step -/

def init : State where
  sizeof := fun _ => -1
  offset := fun _ => -1
  todo := P.types.map (·.name)
  processing := []
  errors := []

/-- `layoutInstanceFields`. -/
def layoutInstanceFields : Except Crash State := do
  let st ← (P.types.map (·.name)).foldlM (layoutType P (P.types.length + 1)) (init P)
  if st.errors ≠ [] then st.crash "CompilerException"
  else if P.types.any fun t => st.sizeof t.name < 0 then st.crash "IllegalStateException"
  else pure st

/-- `FieldLayout.run`: the sizes and offsets, and the size of the static data. -/
def run : Except Crash (State × ℤ) := do
  let st ← layoutInstanceFields P
  let (st, dataSize) ←
    layoutFields P (layoutType P (P.types.length + 1)) st 0 P.staticFields
  if dataSize < 0 then st.crash "Data size could not be computed"
  else if st.errors ≠ [] then st.crash "CompilerException"
  else pure (st, dataSize)

end Sedona.FieldLayout
