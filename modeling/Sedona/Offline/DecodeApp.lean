import Mathlib.Data.Int.Notation
import Mathlib.Logic.Function.Basic
import Sedona.Library.Scanner

/-!
# Decoding a Binary Application

`OfflineApp.decodeAppBinary`: the header, the components, whose parents, children and siblings are ids
in the file, the loops that turn these into references and lists, and the links.

Components are named by their ids. The schema that `Schema.load` finds for the kits of the file is a
parameter, and so is the order in which a `HashMap` is iterated. The values that the texts of
exceptions name are left out. A loop over ids may not end: it is a function of its fuel.

## Main definitions

* `readComponents`, `finishDecode`, `readLinks`: the parts of a file.
* `decodeAppBinary`: all of it.
-/

namespace Sedona.Sab

open Function Scanner

/-! ### Data -/

/-- The predefined types of values. -/
inductive Kind where
  | bool
  | byte
  | short
  | int
  | long
  | float
  | double
  | str
  | buf
deriving DecidableEq, Repr

/-- `sedona.Value`. A null bool is `none`, and floating point values are bits. -/
inductive Value where
  | bool (val : Option Bool)
  | byte (val : BitVec 8)
  | short (val : BitVec 16)
  | int (val : BitVec 32)
  | long (val : BitVec 64)
  | float (val : BitVec 32)
  | double (val : BitVec 64)
  | str (val : List (BitVec 8))
  | buf (bytes : List (BitVec 8))
deriving DecidableEq, Repr

/-- `sedona.Slot`. Its type is `none` unless it is a predefined one. -/
structure Slot where
  isProp : Bool
  isConfig : Bool
  isAsStr : Bool := false
  type : Option Kind
  max : ℤ := -1
  defVal : Option Value
deriving DecidableEq, Repr

/-- `sedona.Type`. -/
structure CompType where
  slots : List Slot
deriving DecidableEq, Repr

/-- `sedona.Kit`. -/
structure Kit where
  types : List CompType
deriving DecidableEq, Repr

/-- `sedona.Schema`, with the type of applications. -/
structure Schema where
  kits : List Kit
  app : Option CompType
deriving DecidableEq, Repr

/-- `sedona.KitPart`. -/
structure KitPart where
  name : List (BitVec 8)
  checksum : BitVec 32
deriving DecidableEq, Repr

/-- `OfflineComponent`. -/
structure Component where
  type : CompType
  name : List (BitVec 8)
  slots : List (Option Value)
  parent : Option ℕ := none
  kids : Option (List ℕ) := none
  kidsByName : Option (List (BitVec 8) → Option ℕ) := none

/-- `OfflineLink`: ids of components and of slots. -/
structure Link where
  fromComp : ℕ
  fromSlot : ℕ
  toComp : ℕ
  toSlot : ℕ
deriving DecidableEq, Repr

/-- `OfflineApp`: the application itself is the component 0. -/
structure App where
  comps : ℕ → Option Component
  links : List Link

/-- `OfflineComponent.Decoded`. -/
structure Decoded where
  id : ℕ
  parentId : ℕ
  childrenId : ℕ
  nextSiblingId : ℕ
deriving DecidableEq, Repr

/-- What is thrown. -/
inductive Failure where
  | eof
  | io (message : String)
  | illegalArgument (message : String)
  | arrayIndex
  | nullPointer
  | missingKits
deriving DecidableEq, Repr

/-- The id of no component. -/
def nullId : ℕ := 0xffff

/-! ### Reading numbers and strings -/

/-- A reader of bytes. -/
abbrev In := Scan (BitVec 8) Failure

/-- `Buf.u1`. -/
def u1 : In (BitVec 8) := next .eof

/-- `Buf.u2`. -/
def u2 : In ℕ := do
  let a ← u1
  let b ← u1
  pure (a.toNat * 256 + b.toNat)

/-- `Buf.i4`. -/
def i4 : In (BitVec 32) := do
  let a ← u2
  let b ← u2
  pure (BitVec.ofNat 32 (a * 65536 + b))

/-- `Buf.i8`. -/
def i8 : In (BitVec 64) := do
  let a ← i4
  let b ← i4
  pure (a ++ b)

/-- The first bytes, as many as there are to be. -/
def bytes : ℕ → In (List (BitVec 8))
  | 0 => pure []
  | n + 1 => do
      let b ← u1
      let rest ← bytes n
      pure (b :: rest)

/-- `Buf.str`. -/
def str : In (List (BitVec 8))
  | [] => .error .eof
  | c :: r => if c = 0 then .ok ([], r) else (str r).map fun p => (c :: p.1, p.2)

/-! ### Values -/

/-- `Value.typeId`. -/
def Value.typeId : Value → Kind
  | bool _ => .bool
  | byte _ => .byte
  | short _ => .short
  | int _ => .int
  | long _ => .long
  | float _ => .float
  | double _ => .double
  | str _ => .str
  | buf _ => .buf

/-- `decodeBinary` of the value that the slot has. -/
def Value.decodeBinary (v : Value) : In Value :=
  match v with
  | bool _ => do
      let x ← u1
      pure (.bool (if x = 2 then none else some (x ≠ 0)))
  | byte _ => do pure (.byte (← u1))
  | short _ => do pure (.short (BitVec.ofNat 16 (← u2)))
  | int _ => do pure (.int (← i4))
  | long _ => do pure (.long (← i8))
  | float _ => do pure (.float (← i4))
  | double _ => do pure (.double (← i8))
  | str _ => do
      let size ← u2
      if size = 0 then pure (.str [])
      else do
        let buf ← bytes (size - 1)
        if (← u1) ≠ 0 then throw (.io "Str not null terminated") else pure (.str buf)
  | buf _ => do
      let size ← u2
      let r ← get
      if r.length < size then throw (.io "unexpected end of file")
      else pure (.buf (← bytes size))

/-- `Slot.checkValue`, for a value that is not null. -/
def Slot.checkValue (slot : Slot) (val : Value) : Option String :=
  let typeOk := if slot.isAsStr then val.typeId == .str else slot.type == some val.typeId
  if !typeOk then some "wrongType"
  else match val with
  | .str s =>
      if 0 < slot.max && slot.max ≤ s.length then some "strTooLong"
      else if s.any (0x7f < ·) then some "strNotAscii"
      else none
  | .buf b => if 0 < slot.max && slot.max < b.length then some "bufTooLong" else none
  | _ => none

/-- `Slot.assertValue`. -/
def Slot.assertValue (slot : Slot) (val : Value) : Except Failure Unit :=
  match slot.checkValue val with
  | none => .ok ()
  | some err => .error (.illegalArgument ("Invalid value for slot (" ++ err ++ ")"))

/-! ### Components -/

/-- The constructor of `OfflineComponent`. -/
def Component.make (type : CompType) (name : List (BitVec 8)) : Component where
  type
  name
  slots := type.slots.map Slot.defVal

/-- The constructor of `OfflineApp`. -/
def App.make (type : CompType) : App where
  comps := update (fun _ => none) 0 (some (Component.make type [0x61, 0x70, 0x70]))
  links := []

/-- `OfflineApp.lookup`. -/
def App.lookup (app : App) (id : ℕ) : Option Component := app.comps id

/-- An assignment to fields of a component. -/
def App.modify (app : App) (id : ℕ) (f : Component → Component) : App :=
  { app with comps := update app.comps id ((app.comps id).map f) }

/-- The loop body of `OfflineComponent.decodeBinaryProps`. -/
def decodeProp (slot : Slot) (val : Option Value) : In (Option Value) :=
  if slot.isProp && slot.isConfig then
    match val with
    | none => throw .nullPointer
    | some val => do
        let x ← val.decodeBinary
        lift (slot.assertValue x)
        pure (some x)
  else pure val

/-- `OfflineComponent.decodeBinaryProps`, over the slots and what is in them. -/
def decodeBinaryProps : List Slot → List (Option Value) → In (List (Option Value))
  | slot :: slots, val :: vals => do
      let val ← decodeProp slot val
      let vals ← decodeBinaryProps slots vals
      pure (val :: vals)
  | _, vals => pure vals

/-- The type with these ids. -/
def Schema.typeAt (schema : Schema) (kitId typeId : BitVec 8) : Except Failure CompType :=
  match schema.kits[kitId.toNat]? with
  | none => .error .arrayIndex
  | some kit =>
      match kit.types[typeId.toNat]? with
      | none => .error .arrayIndex
      | some type => .ok type

/-- `OfflineComponent.decodeBinary`. The component 0 is the application, whatever its type in the
file. -/
def decodeBinary (schema : Schema) (app : App) (id : ℕ) : In (Component × Decoded) := do
  let kitId ← u1
  let typeId ← u1
  let type ← lift (schema.typeAt kitId typeId)
  let name ← str
  let comp := (if id = 0 then app.lookup 0 else none).getD (Component.make type name)
  let parentId ← u2
  let childrenId ← u2
  let nextSiblingId ← u2
  let slots ← decodeBinaryProps comp.type.slots comp.slots
  if (← u1) ≠ 0x3b then throw (.io "Corrupted component")
  else pure ({ comp with name, slots }, { id, parentId, childrenId, nextSiblingId })

/-- `HashMap.put`. -/
def put (decoded : List Decoded) (d : Decoded) : List Decoded :=
  decoded.filter (fun x => x.id ≠ d.id) ++ [d]

/-- `HashMap.get`. -/
def getDecoded (decoded : List Decoded) (id : ℕ) : Option Decoded :=
  decoded.find? fun d => d.id = id

/-- A turn of the loop of `decodeAppBinary` over the components. -/
def componentTurn (schema : Schema) (s : App × List Decoded) :
    In ((App × List Decoded) ⊕ (App × List Decoded)) := do
  let id ← u2
  if id = nullId then pure (.inr s)
  else do
    let p ← decodeBinary schema s.1 id
    if id ≠ 0 && (s.1.lookup id).isSome then throw (.io "Duplicate id")
    else pure (.inl ({ s.1 with comps := update s.1.comps id (some p.1) }, put s.2 p.2))

/-- The loop of `Schema.decodeBinary`. -/
def kitParts : ℕ → In (List KitPart)
  | 0 => pure []
  | n + 1 => do
      let name ← str
      let checksum ← i4
      let parts ← kitParts n
      pure ({ name, checksum } :: parts)

section Decode

variable (load : List KitPart → Except Failure Schema) (values : List Decoded → List Decoded)

/-- The part of `decodeAppBinary` up to the last component. -/
def readComponents : In (App × List Decoded) := do
  let magic ← i4
  let version ← i4
  if magic ≠ 0x73617070 then throw (.io "Invalid magic")
  else if version ≠ 3 then throw (.io "Invalid version")
  else do
    let n ← u1
    let parts ← kitParts n.toNat
    let schema ← lift (load parts)
    let _maxId ← u2
    match schema.app with
    | none => throw .nullPointer
    | some type => loop .eof (componentTurn schema) (App.make type, [])

/-! ### Parents and children -/

/-- What `finishDecode` collects: the list and the map of the children. -/
structure Kids where
  kids : List ℕ
  kidsByName : List (BitVec 8) → Option ℕ

/-- The loop of `finishDecode`, from a child that there is. -/
def addKids (app : App) (decoded : List Decoded) : ℕ → ℕ → Component → Kids →
    Option (Except Failure Kids)
  | 0, _, _, _ => none
  | fuel + 1, id, kid, acc =>
      let acc : Kids := ⟨acc.kids ++ [id], update acc.kidsByName kid.name (some id)⟩
      match getDecoded decoded id with
      | none => some (.error .nullPointer)
      | some dKid =>
          if dKid.nextSiblingId = nullId then some (.ok acc)
          else
            match app.lookup dKid.nextSiblingId with
            | none => some (.error (.io "Missing nextSibling"))
            | some kid => addKids app decoded fuel dKid.nextSiblingId kid acc

/-- The part of `finishDecode` for the children. -/
def finishKids (fuel : ℕ) (app : App) (decoded : List Decoded) (d : Decoded) :
    Option (Except Failure App) :=
  if d.childrenId = nullId then some (.ok app)
  else
    match app.lookup d.childrenId with
    | none => some (.error (.io "Missing child"))
    | some kid =>
        (addKids app decoded fuel d.childrenId kid ⟨[], fun _ => none⟩).map fun r =>
          r.map fun acc => app.modify d.id fun comp =>
            { comp with kids := some acc.kids, kidsByName := some acc.kidsByName }

/-- `OfflineApp.finishDecode`. -/
def finishDecode (fuel : ℕ) (app : App) (decoded : List Decoded) (d : Decoded) :
    Option (Except Failure App) :=
  if d.parentId = nullId then finishKids fuel app decoded d
  else
    match app.lookup d.parentId with
    | none => some (.error (.io "Missing parent"))
    | some _ =>
        finishKids fuel (app.modify d.id fun comp => { comp with parent := some d.parentId })
          decoded d

/-- The loop of `decodeAppBinary` that matches up the parents and the children. -/
def finishAll (fuel : ℕ) (decoded : List Decoded) : App → List Decoded → Option (Except Failure App)
  | app, [] => some (.ok app)
  | app, d :: ds =>
      match finishDecode fuel app decoded d with
      | none => none
      | some (.error e) => some (.error e)
      | some (.ok app) => finishAll fuel decoded app ds

/-! ### Links -/

/-- `OfflineLink.decodeBinary`. -/
def decodeLink (app : App) (fromCompId : ℕ) : In Link := do
  let fromSlotId ← u1
  let toCompId ← u2
  let toSlotId ← u1
  match app.lookup fromCompId with
  | none => throw (.io "Invalid link from comp id")
  | some src =>
      match app.lookup toCompId with
      | none => throw (.io "Invalid link to comp id")
      | some dst =>
          if src.type.slots.length ≤ fromSlotId.toNat then throw (.io "Invalid link from slot id")
          else if dst.type.slots.length ≤ toSlotId.toNat then throw (.io "Invalid link to slot id")
          else pure ⟨fromCompId, fromSlotId.toNat, toCompId, toSlotId.toNat⟩

/-- A turn of the loop of `decodeAppBinary` over the links. -/
def linkTurn (app : App) (links : List Link) : In (List Link ⊕ List Link) := do
  let id ← u2
  if id = nullId then pure (.inr links)
  else do
    let link ← decodeLink app id
    pure (.inl (links ++ [link]))

/-- The part of `decodeAppBinary` behind the components. -/
def readLinks (app : App) : In App := do
  let links ← loop .eof (linkTurn app) app.links
  if (← u1) ≠ 0x2e then throw (.io "Invalid app end marker")
  else pure { app with links }

/-- `OfflineApp.decodeAppBinary`: `none` if there is not enough fuel. -/
def decodeAppBinary (fuel : ℕ) (file : List (BitVec 8)) : Option (Except Failure App) :=
  match readComponents load file with
  | .error e => some (.error e)
  | .ok (s, rest) =>
      match finishAll fuel s.2 s.1 (values s.2) with
      | none => none
      | some (.error e) => some (.error e)
      | some (.ok app) => some ((readLinks app rest).map Prod.fst)

end Decode

end Sedona.Sab
