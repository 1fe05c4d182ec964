import Mathlib.Data.List.Sort
import Sedona.Compiler.ImageLayout
import Sedona.Library.Lockstep

/-!
# ImageGen

The image generator of the compiler (`sedonac.gen.ImageGen` with `sedonac.gen.ConstPool`). It
writes the objects of a program one after the other. A reference to an object is a two-byte
block index; where the object has not been written yet, the cell is put on a list, and
`backpatch` fills it in at the end.

The position at which the buffer is written next is its end, except in the calls that name
another one. Checks of the compiler against its own field layout are left out.
-/

namespace Sedona.ImageGen

open ByteCells

/-! ### The program -/

/-- `sedonac.namespace.Type`, as the generator tells types apart. -/
inductive TypeRef where
  | primitive (id : ℕ)
  | type (t : TypeName)
  | array (of : TypeRef)
deriving DecidableEq

namespace TypeRef

def intType : TypeRef := .primitive 4

def strType : TypeRef := .type ⟨"sys", "Str"⟩

/-- `Type.isWide`: a long or a double. -/
def isWide (t : TypeRef) : Bool := t = .primitive 5 || t = .primitive 7

end TypeRef

/-- The argument of an instruction, resolved. Labels are indices of instructions. -/
inductive OpArg where
  | noArg
  | u1 (v : JInt)
  | u2 (v : JInt)
  | int (v : JInt)
  | long (v : BitVec 64)
  | float (bits : JInt)
  | double (bits : BitVec 64)
  | str (s : String)
  | buf (b : Buf)
  | array (a : ArrayLit)
  | method (m : SlotName)
  | slot (s : SlotName)
  | type (t : TypeRef)
  /-- The vtable of the type: `InitVirt`. -/
  | vtable (t : TypeName)
  | field (offset : ℤ)
  | constStatic (f : SlotName)
  | callVirtual (vindex numParams : JInt)
  | callNative (kitId methodId numParams : JInt)
  | jump (label : ℕ)
  | jumpFar (label : ℕ)
  | switch (labels : List ℕ)
  /-- The id of the slot, for `LoadSlotId`. -/
  | slotId (id : ℕ)

/-- `sedonac.ir.IrOp` with its opcode of the SVM. -/
structure IrOp where
  opcode : ℕ
  arg : OpArg

structure IrMethod where
  slot : SlotName
  params : List TypeRef
  ret : TypeRef
  isStatic : Bool
  isNative : Bool
  isAbstract : Bool
  maxLocals : JInt
  code : Option (List IrOp)

/-- `TypeUtil.numParams`. -/
def IrMethod.numParams (m : IrMethod) : ℕ :=
  (m.params.map fun t => if t.isWide then 2 else 1).foldl (· + ·) 0 + if m.isStatic then 0 else 1

/-- A method, as the vtable of a type refers to it. -/
structure MethodRef where
  slot : SlotName
  isAbstract : Bool
deriving DecidableEq, Repr

structure IrVTable where
  type : TypeName
  methods : List MethodRef

/-- A kit, with its reflective types in the order of their ids. -/
structure IrKit where
  name : String
  version : String
  checksum : JInt
  types : List TypeName

structure IrPrimitive where
  id : ℕ
  name : String

/-- A type, with its base if that is a component, and its reflective slots with their ids. -/
structure IrType where
  type : TypeName
  id : JInt
  base : Option TypeName
  sizeof : JInt
  slots : List (SlotName × ℕ)

/-- What a reflective slot is: a property, or an action with its parameters. -/
inductive SlotKind where
  | field (type : TypeRef) (offset : JInt)
  | method (params : List TypeRef) (vindex : JInt)

structure IrSlot where
  slot : SlotName
  id : JInt
  rtFlags : JInt
  kind : SlotKind

/-- A define of type `sys::Log`. -/
structure IrLog where
  slot : SlotName
  logName : String

/-- `sedonac.ir.IrFlat`, with the size of the static data and the methods of the test cases. -/
structure IrFlat where
  kits : List IrKit
  primitives : List IrPrimitive
  reflectiveTypes : List IrType
  virtTypes : List IrVTable
  reflectiveSlots : List IrSlot
  logDefines : List IrLog
  methods : List IrMethod
  staticInits : List IrMethod
  testMethods : List IrMethod
  dataSize : JInt

/-! ### Writing the objects -/

open Write

/-- A check of the generator. -/
def failIf (cond : Bool) (msg : String) : List Write := if cond then [.throw msg] else []

/-- `ImageGen.findMain`. -/
def findMain (flat : IrFlat) (qname : String) : Except String IrMethod :=
  match flat.methods.find? fun m => m.slot.qname = qname with
  | none => throw ("Unresolved main method: " ++ qname)
  | some m =>
      if m.params ≠ [.array TypeRef.strType, TypeRef.intType] then
        throw ("Invalid signature for main, method must be (Str[], int): " ++ qname)
      else if m.ret ≠ TypeRef.intType then throw ("Main method must return int: " ++ qname)
      else if !m.isStatic then throw ("Main method must be static: " ++ qname)
      else if m.isNative then throw ("Main method cannot be static: " ++ qname)
      else pure m

/-- The writes that need the main method, or the error if there is none. -/
def withMain (flat : IrFlat) (qname : String) (f : IrMethod → List Write) : List Write :=
  match findMain flat qname with
  | .ok m => f m
  | .error msg => [.throw msg]

/-- `ImageGen.scodeFlags`. -/
def scodeFlags (img : SCodeImage) : JInt :=
  (if img.debug then 0x01#32 else 0#32) ||| (if img.test then 0x02#32 else 0#32)

/-- The fields of the header up to the block index of the resume method. -/
def headerFields (img : SCodeImage) (flat : IrFlat) : List Write :=
  [i4 0x5ED0BA07#32, u1 0x01#32, u1 0x05#32, u1 (BitVec.ofNat 32 img.blockSize), u1 img.refSize,
    i4 (-1), i4 flat.dataSize, u2 (-1), u2 (-1), u2 (-1),
    u1 (BitVec.ofNat 32 flat.kits.length), u1 (scodeFlags img)]

/-- The end of `ImageGen.header`. -/
def resumeBlockIndex (img : SCodeImage) (flat : IrFlat) : List Write :=
  withMain flat img.resume fun m => [addBlockIndex (.code m.slot), blockAlign]

/-- `MetaSlot` in front of the code of a method. -/
def metaSlot (img : SCodeImage) (m : SlotName) : List Write :=
  if img.debug then [padArg 2, u1 236#32, addBlockIndex (.qnameSlot m)] else []

/-- `ImageGen.bootstrap`. -/
def bootstrap (img : SCodeImage) (flat : IrFlat) : List Write :=
  [headerIndex .mainMethod, u1 2#32, u1 0#32] ++
    withMain flat img.main fun main =>
      metaSlot img main.slot ++
      flat.staticInits.flatMap (fun m => [padArg 2, u1 221#32, addBlockIndex (.code m.slot)]) ++
      [u1 29#32, u1 30#32, padArg 2, u1 221#32, addBlockIndex (.code main.slot), u1 227#32,
        blockAlign]

/-- `ImageGen.vtable`. -/
def vtable (vt : IrVTable) : List Write :=
  [align 2, place (.vtable vt.type)] ++
    vt.methods.map (fun m => if m.isAbstract then u2 0#32 else addBlockIndex (.code m.slot)) ++
    [blockAlign]

/-- `ImageGen.vtables`. -/
def vtables (flat : IrFlat) : List Write := flat.virtTypes.flatMap vtable

/-- `ImageGen.kit`. -/
def kit (flat : IrFlat) (id : ℕ) (k : IrKit) : List Write :=
  let primitives := if k.name = "sys" then flat.primitives else []
  let typesLen := k.types.length + primitives.length
  [align 4, place (.kit k.name)] ++
    failIf (255 ≤ typesLen) ("Too many types in kit '" ++ k.name ++ "'") ++
    [u1 (BitVec.ofNat 32 id), u1 (BitVec.ofNat 32 typesLen), addBlockIndex (.str k.name),
      addBlockIndex (.str k.version), u2 0#32, i4 k.checksum] ++
    primitives.map (fun p => addBlockIndex (.primitive p.id)) ++
    k.types.map (fun t => addBlockIndex (.type t)) ++
    [blockAlign]

/-- `Schema.sortKits`: `sys` first, then by name. -/
def sortKits (kits : List IrKit) : List IrKit :=
  kits.insertionSort fun a b => a.name = "sys" ∨ (b.name ≠ "sys" ∧ a.name ≤ b.name)

/-- The check that the kits have different names. -/
def kitsSorted : List IrKit → Bool
  | a :: b :: kits => (a.name = "sys" || a.name < b.name) && kitsSorted (b :: kits)
  | _ => true

/-- `ImageGen.kits`. -/
def kits (flat : IrFlat) : List Write :=
  let sorted := sortKits flat.kits
  failIf (255 ≤ flat.kits.length) "Too many kits" ++
    sorted.zipIdx.flatMap (fun k => kit flat k.2 k.1) ++
    failIf ((sorted.map (·.name)).head? ≠ some "sys") "Sys kit id not 0!" ++
    failIf (!kitsSorted sorted) "Kits are not sorted by name" ++
    [align 2, place (.storage ⟨⟨"sys", "Sys"⟩, "kits"⟩), headerIndex .kits] ++
    sorted.map (fun k => addBlockIndex (.kit k.name)) ++
    [blockAlign]

/-- `ImageGen.type` of a primitive. -/
def primitiveType (p : IrPrimitive) : List Write :=
  [align 2, place (.primitive p.id), u1 (BitVec.ofNat 32 p.id), u1 0#32,
    addBlockIndex (.str p.name), addBlockIndex (.kit "sys"), blockAlign]

/-- `ImageGen.type`. -/
def type (t : IrType) : List Write :=
  [align 2, place (.type t.type)] ++
    failIf (255 ≤ t.slots.length) "Too many slots in type" ++
    [u1 t.id, u1 (BitVec.ofNat 32 t.slots.length), addBlockIndex (.str t.type.name),
      addBlockIndex (.kit t.type.kit),
      match t.base with
        | none => u2 0#32
        | some base => addBlockIndex (.type base),
      u2 t.sizeof, addBlockIndex (.code ⟨t.type, "_iInit"⟩)] ++
    t.slots.zipIdx.flatMap (fun s =>
      failIf (s.1.2 ≠ s.2) "slot id mismatch" ++ [addBlockIndex (.reflect s.1.1)]) ++
    [blockAlign]

/-- `ImageGen.types`. -/
def types (flat : IrFlat) : List Write :=
  flat.primitives.flatMap primitiveType ++ flat.reflectiveTypes.flatMap type

/-- `ImageGen.addTypeBlockIndex`: an array type has no block index. -/
def addTypeBlockIndex : TypeRef → Write
  | .type t => addBlockIndex (.type t)
  | .primitive id => addBlockIndex (.primitive id)
  | .array _ => .throw "ClassCastException"

/-- `ImageGen.slot`. -/
def slot (s : IrSlot) : List Write :=
  [align 2, place (.reflect s.slot), u1 s.id, u1 s.rtFlags, addBlockIndex (.str s.slot.name)] ++
    (match s.kind with
      | .field t offset => [addTypeBlockIndex t, u2 offset]
      | .method [] vindex => [addTypeBlockIndex (.primitive 0), u2 vindex false]
      | .method [t] vindex => [addTypeBlockIndex t, u2 vindex false]
      | .method _ _ => [.throw "Invalid number of params for action: "]) ++
    [blockAlign]

/-- `ImageGen.slots`. -/
def slots (flat : IrFlat) : List Write := flat.reflectiveSlots.flatMap slot

/-- `ImageGen.log`. -/
def log (id : ℕ) (f : IrLog) : List Write :=
  [align 2, place (.storage f.slot), u2 (BitVec.ofNat 32 id), addBlockIndex (.str f.logName),
    blockAlign]

/-- `ImageGen.logs`. -/
def logs (flat : IrFlat) : List Write :=
  let sorted := flat.logDefines.insertionSort fun a b => a.slot.qname ≤ b.slot.qname
  failIf (0x7fff ≤ flat.logDefines.length) "Too many logs" ++
    sorted.zipIdx.flatMap (fun f => log f.2 f.1) ++
    [align 2, place (.storage ⟨⟨"sys", "Sys"⟩, "logs"⟩)] ++
    sorted.map (fun f => addBlockIndex (.storage f.slot)) ++
    [blockAlign]

/-- `ImageGen.tests`. -/
def tests (img : SCodeImage) (flat : IrFlat) : List Write :=
  align 2 ::
    if img.test then
      [headerIndex .tests, u2 (BitVec.ofNat 32 flat.testMethods.length)] ++
        flat.testMethods.flatMap (fun m =>
          [addBlockIndex (.qnameSlot m.slot), addBlockIndex (.code m.slot)]) ++
        [blockAlign]
    else [headerZero .tests]

/-! ### Instructions -/

/-- The opcodes of `ImageGen.fieldOp`: the field opcodes with a one-byte offset. -/
def fieldU1Opcodes : List ℕ :=
  [163, 167, 172, 176, 181, 185, 190, 194, 199, 203, 208, 212, 215, 218]

/-- `IrField.offsetWidth` of a field that is not constant. -/
def offsetWidth (offset : ℤ) : ℕ := if offset ≤ 0xff then 1 else if offset ≤ 0xffff then 2 else 4

/-- `ImageGen.argAlignment`. -/
def argAlignment : OpArg → ℕ
  | .noArg | .u1 _ | .method _ | .callVirtual .. | .callNative .. | .jump _ | .slotId _ => 0
  | .field offset => offsetWidth offset
  | _ => 2

/-- `ImageGen.fieldOp`. -/
def fieldOp (opcode : ℕ) (offset : ℤ) : List Write :=
  failIf (offset < 0) "Field offset not set" ++
    failIf (opcode ∉ fieldU1Opcodes) "Invalid field opcode used for IR" ++
    match offsetWidth offset with
    | 1 => [u1 (BitVec.ofNat 32 opcode), u1 (BitVec.ofInt 32 offset)]
    | 2 => [u1 (BitVec.ofNat 32 (opcode + 1)), checkSize 2, u2 (BitVec.ofInt 32 offset)]
    | _ => failIf (opcode = 208) "Const field too wide" ++
        [u1 (BitVec.ofNat 32 (opcode + 2)), checkSize 4, i4 (BitVec.ofInt 32 offset)]

/-- `ImageGen.op` after the padding, with `opArg` and the special cases. -/
def opBody (op : IrOp) : List Write :=
  let opcode := u1 (BitVec.ofNat 32 op.opcode)
  match op.arg with
  | .noArg => [opcode]
  | .u1 v => [opcode, u1 v]
  | .u2 v => [opcode, u2 v]
  | .int v => [opcode, addBlockIndex (.int v)]
  | .long v => [opcode, addBlockIndex (.long v)]
  | .float bits => [opcode, addBlockIndex (.float bits)]
  | .double bits => [opcode, addBlockIndex (.double bits)]
  | .str s => [opcode, addBlockIndex (.str s)]
  | .buf b => [opcode, addBlockIndex (.buf b)]
  | .array a => [u1 25#32, addBlockIndex (.array a)]
  | .method m => [opcode, addBlockIndex (.code m)]
  | .slot s => [opcode, addBlockIndex (.reflect s)]
  | .type t => [opcode, addTypeBlockIndex t]
  | .vtable t => [opcode, addBlockIndex (.vtable t)]
  | .field offset => fieldOp op.opcode offset
  | .constStatic f => [opcode, addBlockIndex (.storage f)]
  | .callVirtual vindex numParams =>
      failIf (vindex.toInt < 0) "Method not assigned vindex" ++
        [opcode, u2 vindex false, u1 numParams]
  | .callNative kitId methodId numParams => [opcode, u1 kitId, u1 methodId, u1 numParams]
  | .jump _ => [opcode, u1 0xff#32]
  | .jumpFar _ => [opcode, u2 0xffff#32]
  | .switch labels =>
      [opcode, u2 (BitVec.ofNat 32 labels.length)] ++ labels.map fun _ => u2 0xffff#32
  | .slotId id =>
      if id ≤ 5 then [u1 (BitVec.ofNat 32 (id + 2))] else [u1 8#32, u1 (BitVec.ofNat 32 id)]

section Ops

variable {σ : Type} [Emitter σ] (img : SCodeImage)

/-- Writes the instructions, with the position of each. -/
def emitOps (s : σ) : List IrOp → Except String (σ × List ℕ)
  | [] => pure (s, [])
  | op :: ops => do
      let s₁ ← Emitter.write img s (padArg (argAlignment op.arg))
      let s₂ ← emit img s₁ (opBody op)
      let (s₃, pos) ← emitOps s₂ ops
      pure (s₃, Emitter.size s₁ :: pos)

/-- `ImageGen.jumpTarget` and `jumpOffset`. -/
def jumpOffset (pos : List ℕ) (jumpPos label : ℕ) : Except String ℤ :=
  match pos[label]? with
  | none => throw "Invalid jump index"
  | some target =>
      let off : ℤ := (target : ℤ) - jumpPos
      if off < -32768 ∨ 32767 < off then throw "Jump too far" else pure off

/-- The far form of a jump. -/
def farOpcode (opcode : ℕ) : Except String ℕ :=
  if 142 ≤ opcode ∧ opcode ≤ 145 then pure (opcode + 4)
  else if 150 ≤ opcode ∧ opcode ≤ 155 then pure (opcode + 6)
  else throw "missing jmp to jmpfar"

/-- `ImageGen.patchJump`: the instruction as it is then. -/
def patchJump (pos : List ℕ) (s : σ) (jumpPos : ℕ) (op : IrOp) : Except String (σ × IrOp) :=
  match op.arg with
  | .jumpFar label => do
      let off ← jumpOffset pos jumpPos label
      let s ← Emitter.patchS2 img s (jumpPos + 1) (BitVec.ofInt 32 off)
      pure (s, op)
  | .jump label => do
      let off ← jumpOffset pos jumpPos label
      if off < -128 ∨ 127 < off then
        let opcode ← farOpcode op.opcode
        pure (s, { opcode, arg := .jumpFar label })
      else pure (Emitter.patchS1 s (jumpPos + 1) (BitVec.ofInt 32 off), op)
  | _ => pure (s, op)

/-- `ImageGen.patchJump` for all instructions. -/
def patchJumps (pos : List ℕ) (s : σ) : List ℕ → List IrOp → Except String (σ × List IrOp)
  | p :: ps, op :: ops => do
      let (s, op) ← patchJump img pos s p op
      let (s, ops) ← patchJumps pos s ps ops
      pure (s, op :: ops)
  | _, _ => pure (s, [])

/-- `ImageGen.patchSwitch`: the offsets of one table, from the entry at `cell` on. -/
def patchSwitch (pos : List ℕ) (switchPos : ℕ) (s : σ) : ℕ → List ℕ → Except String σ
  | _, [] => pure s
  | cell, label :: labels => do
      let off ← jumpOffset pos switchPos label
      let s ← Emitter.patchS2 img s cell (BitVec.ofInt 32 off)
      patchSwitch pos switchPos s (cell + 2) labels

/-- `ImageGen.patchSwitch` for all instructions. -/
def patchSwitches (pos : List ℕ) (s : σ) : List ℕ → List IrOp → Except String σ
  | p :: ps, op :: ops => do
      let s ← match op.arg with
        | .switch labels => patchSwitch img pos p s (p + 3) labels
        | _ => pure s
      patchSwitches pos s ps ops
  | _, _ => pure s

/-- The number of jumps that are not far. -/
def nearJumps (ops : List IrOp) : ℕ :=
  ops.countP fun op => match op.arg with
    | .jump _ => true
    | _ => false

/-- The loop of `ImageGen.ops`: it starts over, with the jumps that were too short made far.
Each round makes one jump far at least, so `nearJumps ops + 1` rounds are enough. -/
def opsLoop (s : σ) : ℕ → List IrOp → Except String σ
  | 0, _ => throw "unreachable"
  | rounds + 1, ops => do
      let (s₁, pos) ← emitOps img s ops
      let (s₂, ops') ← patchJumps img pos s₁ pos ops
      if nearJumps ops' ≠ nearJumps ops then
        opsLoop (Emitter.withPool s (Emitter.pool s₂)) rounds ops'
      else patchSwitches img pos s₂ pos ops

/-- `ImageGen.ops`. -/
def ops (s : σ) (ops : List IrOp) : Except String σ := opsLoop img s (nearJumps ops + 1) ops

theorem nearJumps_cons_le {op op' : IrOp} {ops ops' : List IrOp}
    (hop : ∀ label, op'.arg = .jump label → op = op') (hops : nearJumps ops' ≤ nearJumps ops) :
    nearJumps (op' :: ops') ≤ nearJumps (op :: ops) := by
  simp only [nearJumps, List.countP_cons] at hops ⊢
  obtain ⟨opcode, arg⟩ := op'
  cases arg with
  | jump label =>
    rw [hop label rfl]
    exact Nat.add_le_add_right hops _
  | _ => exact Nat.le_trans hops (Nat.le_add_right _ _)

/-- A jump that is not far after the step is the one that was there. -/
theorem eq_of_patchJump {img : SCodeImage} {pos : List ℕ} {s s' : σ} {p label : ℕ} {op op' : IrOp}
    (h : patchJump img pos s p op = .ok (s', op')) (hlabel : op'.arg = .jump label) : op = op' := by
  obtain ⟨opcode, arg⟩ := op
  cases arg with
  | jump label' =>
    obtain ⟨off, -, h⟩ := Lockstep.bind_eq_ok.mp h
    split at h
    · obtain ⟨far, -, h⟩ := Lockstep.bind_eq_ok.mp h
      obtain ⟨-, rfl⟩ := Prod.mk.inj (Except.ok.inj h)
      cases hlabel
    · exact (Prod.mk.inj (Except.ok.inj h)).2
  | jumpFar label' =>
    obtain ⟨off, -, h⟩ := Lockstep.bind_eq_ok.mp h
    obtain ⟨s₁, -, h⟩ := Lockstep.bind_eq_ok.mp h
    exact (Prod.mk.inj (Except.ok.inj h)).2
  | _ => exact (Prod.mk.inj (Except.ok.inj h)).2

/-- No jump becomes shorter. -/
theorem nearJumps_patchJumps {img : SCodeImage} {pos : List ℕ} {s s' : σ} {ps : List ℕ}
    {ops ops' : List IrOp} (h : patchJumps img pos s ps ops = .ok (s', ops')) :
    nearJumps ops' ≤ nearJumps ops := by
  induction ps generalizing s s' ops ops' with
  | nil =>
    obtain ⟨-, rfl⟩ := Prod.mk.inj (Except.ok.inj h)
    exact Nat.zero_le _
  | cons p ps ih =>
    cases ops with
    | nil =>
      obtain ⟨-, rfl⟩ := Prod.mk.inj (Except.ok.inj h)
      exact Nat.le_refl _
    | cons op ops =>
      obtain ⟨⟨s₁, op₁⟩, hop, h⟩ := Lockstep.bind_eq_ok.mp h
      obtain ⟨⟨s₂, ops₂⟩, hops, h⟩ := Lockstep.bind_eq_ok.mp h
      obtain ⟨-, rfl⟩ := Prod.mk.inj (Except.ok.inj h)
      exact nearJumps_cons_le (fun label hlabel => eq_of_patchJump hop hlabel) (ih hops)

/-- The loop ends for the reason it ends in the source: more rounds make no difference. -/
theorem opsLoop_eq {n m : ℕ} {s : σ} {ops : List IrOp} (hn : nearJumps ops < n)
    (hm : nearJumps ops < m) : opsLoop img s n ops = opsLoop img s m ops := by
  induction n generalizing m s ops with
  | zero => exact absurd hn (Nat.not_lt_zero _)
  | succ n ih =>
    obtain ⟨m, rfl⟩ := Nat.exists_eq_add_one_of_ne_zero (Nat.ne_zero_of_lt hm)
    rw [opsLoop, opsLoop]
    refine Lockstep.bind_congr_ok fun ⟨s₁, pos⟩ _ => ?_
    refine Lockstep.bind_congr_ok fun ⟨s₂, ops'⟩ hops => ?_
    have hle := nearJumps_patchJumps hops
    by_cases hne : nearJumps ops' = nearJumps ops
    · simp only [hne, ne_eq, not_true_eq_false, if_false]
    · simp only [hne, ne_eq, not_false_eq_true, if_true]
      exact ih (by omega) (by omega)

/-- `ImageGen.method`. -/
def method (s : σ) (m : IrMethod) : Except String σ :=
  if m.isAbstract || m.isNative then pure s
  else do
    let s ← emit img s ([place (.code m.slot), u1 (BitVec.ofNat 32 m.numParams), u1 m.maxLocals] ++
      metaSlot img m.slot)
    let s ← match m.code with
      | some code => ops img s code
      | none => pure s
    emit img s [blockAlign]

end Ops

/-! ### The constant pool -/

/-- `ConstPool.writeStrLiteral`. -/
def writeStrLiteral (val : String) : List Write :=
  val.toList.flatMap (fun ch =>
      failIf (0xff < ch.toNat) "Invalid string literal" ++ [u1 (BitVec.ofNat 32 ch.toNat)]) ++
    [u1 0#32, blockAlign]

/-- `code.f8`, or the two words of ARM. -/
def f8 (img : SCodeImage) (bits : BitVec 64) : List Write :=
  if img.armDouble then [i4 ((bits >>> 32).truncate 32), i4 (bits.truncate 32)] else [i8 bits]

def intEntry (a : Addr) : List Write :=
  match a with
  | .int v => [place a, i4 v, blockAlign]
  | _ => []

def floatEntry (a : Addr) : List Write :=
  match a with
  | .float bits => [place a, i4 bits, blockAlign]
  | _ => []

def longEntry (a : Addr) : List Write :=
  match a with
  | .long v => [place a, i8 v, blockAlign]
  | _ => []

def doubleEntry (img : SCodeImage) (a : Addr) : List Write :=
  match a with
  | .double bits => place a :: f8 img bits ++ [blockAlign]
  | _ => []

def strEntry (a : Addr) : List Write :=
  match a with
  | .str s => place a :: writeStrLiteral s
  | _ => []

def bufEntry (a : Addr) : List Write :=
  match a with
  | .buf b => [place a, u2 (BitVec.ofNat 32 b.size), u2 (BitVec.ofNat 32 b.size), append b,
      align 2, blockAlign]
  | _ => []

/-- The values of an array literal, and before them the strings of one of strings. -/
def arrayValues (img : SCodeImage) (a : ArrayLit) : List Write :=
  match a with
  | .strs vals =>
      vals.zipIdx.flatMap (fun s => place (.arrayStr a s.2) :: writeStrLiteral s.1) ++
        [align 2, place (.array a)] ++ vals.zipIdx.map fun s => u2BlockIndex (.arrayStr a s.2)
  | .bytes vals => place (.array a) :: vals.map u1
  | .shorts vals => [align 2, place (.array a)] ++ vals.map (u2 · true)
  | .ints vals => [align 4, place (.array a)] ++ vals.map i4
  | .longs vals => [align 8, place (.array a)] ++ vals.map i8
  | .floats vals => [align 4, place (.array a)] ++ vals.map i4
  | .doubles vals => [align 8, place (.array a)] ++ vals.flatMap (f8 img)

def arrayEntry (img : SCodeImage) (a : Addr) : List Write :=
  match a with
  | .array lit => blockAlign :: arrayValues img lit
  | _ => []

def qnameTypeEntry (a : Addr) : List Write :=
  match a with
  | .qnameType t => [place a, checkPlaced (.str t.kit), u2BlockIndex (.str t.kit),
      u2BlockIndex (.str t.name), blockAlign]
  | _ => []

def qnameSlotEntry (a : Addr) : List Write :=
  match a with
  | .qnameSlot s => [place a, checkPlaced (.qnameType s.parent), checkPlaced (.str s.name),
      u2BlockIndex (.qnameType s.parent), u2BlockIndex (.str s.name), blockAlign]
  | _ => []

/-- The start of a table whose entries are aligned. -/
def tableStart (a : ℕ) : List Write := [align a, checkBlock, checkSize a]

/-- The tables of the numbers, for the keys in the order in which they are written. -/
def numberTables (img : SCodeImage) (keys : List Addr) : List Write :=
  tableStart 4 ++ keys.flatMap intEntry ++
  (tableStart 4 ++ keys.flatMap floatEntry) ++
  (tableStart 8 ++ keys.flatMap longEntry) ++
  (tableStart 8 ++ keys.flatMap (doubleEntry img))

/-- The tables of `ConstPool`. -/
def constTables (img : SCodeImage) (keys : List Addr) : List Write :=
  numberTables img keys ++
  keys.flatMap strEntry ++
  (tableStart 2 ++ keys.flatMap bufEntry) ++
  (keys.flatMap (arrayEntry img) ++ [blockAlign]) ++
  (align 2 :: keys.flatMap qnameTypeEntry) ++
  (align 2 :: keys.flatMap qnameSlotEntry)

/-- The order in which the entries of the pool are written: sorted, or as the hash map has
them. -/
structure PoolOrder where
  keys : List Addr → List Addr
  perm (pool : List Addr) : (keys pool).Perm pool

/-! ### The image -/

/-- `ImageGen.generate` up to `backpatch`. -/
def generateCode {σ : Type} [Emitter σ] (img : SCodeImage) (order : PoolOrder) (flat : IrFlat) :
    Except String σ := do
  let s ← emit img Emitter.empty (headerFields img flat)
  let s ← emit img s (resumeBlockIndex img flat ++ bootstrap img flat)
  let s ← emit img s (vtables flat)
  let s ← emit img s (kits flat ++ types flat ++ slots flat ++ logs flat)
  let s ← flat.methods.foldlM (method img) s
  let s ← emit img s (tests img flat)
  emit img s (constTables img (order.keys (Emitter.pool s)))

/-- The layout of the image of a program. -/
def layout (img : SCodeImage) (order : PoolOrder) (flat : IrFlat) : Except String Layout := do
  let l : Layout ← generateCode img order flat
  l.finish

/-- The state of `ImageGen`: the code, the block indices of the objects, the cells to be filled
in, the last one first, and the pool. -/
structure Gen where
  code : List Byte
  blockIndex : Addr → ℕ
  backpatch : List (ℕ × Addr)
  pool : List Addr

namespace Gen

variable (img : SCodeImage)

def u1Bytes (v : JInt) : List Byte := [v.truncate 8]

/-- The bytes of `Buf.i4`. -/
def i4Bytes (v : JInt) : List Byte :=
  let bytes : List Byte :=
    [(v >>> 24).truncate 8, (v >>> 16).truncate 8, (v >>> 8).truncate 8, v.truncate 8]
  if img.bigEndian then bytes else bytes.reverse

/-- The bytes of `Buf.i8`. -/
def i8Bytes (v : BitVec 64) : List Byte :=
  let bytes : List Byte :=
    [(v >>> 56).truncate 8, (v >>> 48).truncate 8, (v >>> 40).truncate 8, (v >>> 32).truncate 8,
      (v >>> 24).truncate 8, (v >>> 16).truncate 8, (v >>> 8).truncate 8, v.truncate 8]
  if img.bigEndian then bytes else bytes.reverse

def append (s : Gen) (bytes : List Byte) : Gen := { s with code := s.code ++ bytes }

/-- `Buf.pad`. -/
def pad (s : Gen) (num : ℕ) : Gen := s.append (List.replicate num 0#8)

/-- `code.u2(v, checkAlign)`. -/
def u2 (s : Gen) (v : JInt) (checkAlign : Bool) : Except String Gen :=
  if checkAlign && s.code.length % 2 ≠ 0 then throw "u2 not aligned"
  else pure (s.append (u2Bytes img.bigEndian v))

/-- `Buf.u2(pos, v, checkAlign)`: over what is written. -/
def u2At (s : Gen) (pos : ℕ) (v : JInt) (checkAlign : Bool) : Except String Gen :=
  if checkAlign && pos % 2 ≠ 0 then throw "u2 not aligned"
  else pure { s with code := overwrite s.code pos (u2Bytes img.bigEndian v) }

/-- `ImageGen.blockIndex`. -/
def blockIndexHere (s : Gen) : Except String ℕ :=
  if img.blockSize = 0 then throw "/ by zero"
  else if s.code.length % img.blockSize ≠ 0 then throw "IllegalStateException"
  else pure (s.code.length / img.blockSize)

def write (s : Gen) : Write → Except String Gen
  | .u1 v => pure (s.append (u1Bytes v))
  | .u2 v checkAlign => s.u2 img v checkAlign
  | .i4 v =>
      if s.code.length % 4 ≠ 0 then throw "i4 not aligned" else pure (s.append (i4Bytes img v))
  | .i8 v =>
      if s.code.length % 8 ≠ 0 then throw "i8 not aligned" else pure (s.append (i8Bytes img v))
  | .append b => pure (s.append b.bytes)
  | .align a => pure (s.pad (padding a s.code.length))
  | .blockAlign =>
      if img.blockSize = 0 then throw "/ by zero"
      else pure (s.pad (padding img.blockSize s.code.length))
  | .padArg a => pure (s.pad (argPadding a s.code.length))
  | .place a => do
      let ix ← s.blockIndexHere img
      pure { s with blockIndex := Function.update s.blockIndex a ix }
  | .addBlockIndex a => do
      let s' := { s with
        pool := intern s.pool a
        backpatch := (s.code.length, a) :: s.backpatch }
      s'.u2 img 0xffff#32 a.alignBlockIndex
  | .headerIndex c => do
      let ix ← s.blockIndexHere img
      s.u2At img c.off (BitVec.ofNat 32 ix) true
  | .headerZero c => s.u2At img c.off 0#32 true
  | .u2BlockIndex a => s.u2 img (BitVec.ofNat 32 (s.blockIndex a)) true
  | .checkPlaced a => if s.blockIndex a ≤ 0 then throw "IllegalStateException" else pure s
  | .checkSize a => if s.code.length % a ≠ 0 then throw "IllegalStateException" else pure s
  | .checkBlock =>
      if img.blockSize = 0 then throw "/ by zero"
      else if s.code.length % img.blockSize ≠ 0 then throw "IllegalStateException" else pure s
  | .throw msg => throw msg

instance : Emitter Gen where
  empty := { code := [], blockIndex := fun _ => 0, backpatch := [], pool := [] }
  write := write
  size s := s.code.length
  pool := pool
  withPool s pool := { s with pool }
  patchS1 s pos v := { s with code := overwrite s.code pos (u1Bytes v) }
  patchS2 img s pos v := s.u2At img pos v true

/-- `ImageGen.backpatch`. -/
def backpatchAll (s : Gen) : List (ℕ × Addr) → Except String Gen
  | [] => pure s
  | (off, a) :: cells => do
      if s.blockIndex a = 0 then throw "Attempt to back patch IR with no block index"
      let s ← s.u2At img off (BitVec.ofNat 32 (s.blockIndex a)) a.alignBlockIndex
      backpatchAll s cells

end Gen

/-- `ImageGen.generate`: the bytes of the image. -/
def generate (img : SCodeImage) (order : PoolOrder) (flat : IrFlat) : Except String (List Byte) := do
  let s : Gen ← generateCode img order flat
  let s ← s.backpatchAll img s.backpatch
  pure (overwrite s.code 8 (Gen.i4Bytes img (BitVec.ofNat 32 s.code.length)))

end Sedona.ImageGen
