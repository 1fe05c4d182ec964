import Sedona.Sox.TreeCommands
import Sedona.Sys.AppFile
import Sedona.Sys.BufInStream

/-!
# Requests that Change the Tree

The handlers `addReq`, `renameReq`, `reorderReq`, `deleteReq` and `linkReq` of `SoxCommands`, from
the bytes of the request to the packet that answers it. Ids are read as `int`s: what is missing in
the request is -1. Memory is a parameter, and the values behind the memory of a new component are
those that its initializer leaves there.
-/

namespace Sedona

open Function Fuel BufInStream

/-! ### Permissions -/

/-- `Component.meta`. -/
def metaSlot : Slot := { id := ⟨0, by decide⟩, type := .int, config := true }

/-- The permissions of a `User`: a byte for each of the four groups. -/
structure Permissions where
  perm : BitVec 32

namespace Permissions

/-- `User.ar`: admin read. -/
def ar : BitVec 32 := 0x08

/-- `User.aw`: admin write. -/
def aw : BitVec 32 := 0x10

/-- `User.ua`: user admin. -/
def ua : BitVec 32 := 0x40

/-- `User.permFor` a component in these groups. -/
def permFor (u : Permissions) (groups : BitVec 32) : BitVec 32 :=
  let perm := u.perm
  let x := if groups &&& 0x01 ≠ 0 then perm &&& 0xff else 0
  let x := if groups &&& 0x02 ≠ 0 then x ||| (perm.sshiftRight 8 &&& 0xff) else x
  let x := if groups &&& 0x04 ≠ 0 then x ||| (perm.sshiftRight 16 &&& 0xff) else x
  if groups &&& 0x08 ≠ 0 then x ||| (perm.sshiftRight 24 &&& 0xff) else x

/-- `User.has`, on a component of this type in these groups. -/
def has (u : Permissions) (userType type : CompType) (groups hasPerm : BitVec 32) : Bool :=
  let hasPerm := if type = userType then ua else hasPerm
  (u.permFor groups &&& hasPerm) != 0

end Permissions

/-! ### Looking up -/

/-- `Sys.kit`. -/
def kitAt (kits : List Kit) (id : ℤ) : Option Kit := if id < 0 then none else kits[id.toNat]?

/-- `Kit.type`. -/
def typeAt (kit : Kit) (id : ℤ) : Option CompType := if id < 0 then none else kit.types[id.toNat]?

/-- `Type.slot`. -/
def slotAt (t : CompType) (id : ℤ) : Option Slot := if id < 0 then none else t.slots[id.toNat]?

/-- `Type.maxPrimitiveId`. -/
def maxPrimitiveId : ℕ := 7

/-- `Type.isPrimitive`. -/
def CompType.isPrimitive (t : CompType) : Bool := t.kit == 0 && decide (t.id ≤ maxPrimitiveId)

/-- `App.lookup`, of an `int`. -/
def App.find {δ : Type} (a : App δ) (id : ℤ) : Ref := if id < 0 then 0 else a.lookup id.toNat

/-- `App.lookupLink`, of `int`s. -/
def App.findLink {δ : Type} (fuel : ℕ) (a : App δ) (fromComp fromSlot toComp toSlot : ℤ) :
    Option Ref := do
  if a.find toComp = 0 then some 0
  else
    let target ← a.objs (a.find toComp)
    a.linkWhere .into (fun x => decide ((x.toSlot.val : ℤ) = toSlot) &&
      decide ((x.fromComp : ℤ) = fromComp) && decide ((x.fromSlot.val : ℤ) = fromSlot)) fuel
      target.linksTo

namespace Sox

/-! ### The handlers -/

/-- The fields of a `SendPacket` that handlers set. -/
structure SendPacket where
  cmd : Char
  refData : Option String := none
  u2Data1 : ℕ := 0
deriving DecidableEq, Repr

/-- `SendPacket.error`. -/
def SendPacket.error (res : SendPacket) (cause : String) : SendPacket :=
  { res with cmd := '!', refData := some cause }

/-- The code of the device, as far as the handlers use it: the callbacks, the kits, and the type
`sys::User`. -/
structure Host where
  cb : Callbacks Props
  kits : List Kit
  userType : CompType

/-- What the next allocations return: whether the table can grow, a component, and a link. -/
structure Memory where
  ok : Bool
  comp : Ref
  link : Ref

variable (host : Host) (memory : Memory) (user : Permissions) (fuel : ℕ) (a : App Props)
  (res : SendPacket)

/-- `session.user.has` on the component `c` behind `r`. -/
def grants (r : Ref) (c : Component) (hasPerm : BitVec 32) : Bool :=
  user.has host.userType c.type (a.data r metaSlot) hasPerm

/-- What all handlers begin with: look the component up, and check the permission to write it. -/
def checked (compId : ℤ) (body : Ref → Component → Option (SendPacket × App Props)) :
    Option (SendPacket × App Props) := do
  let comp := a.find compId
  if comp = 0 then some (res.error "bad compId", a)
  else
    let c ← a.objs comp
    if !grants host user a comp c Permissions.aw then some (res.error "denied", a)
    else body comp c

/-- What `addReq` does with the request; `props` is what follows the name. -/
def addReq (parentId kitId typeId : ℤ) (name : Option Str) (props : List (BitVec 8)) :
    Option (SendPacket × App Props) :=
  checked host user a res parentId fun parent _ => do
    let kit := kitAt host.kits kitId
    let compType := kit.bind fun kit => typeAt kit typeId
    if kit.isSome && compType.all (·.isPrimitive) then some (res.error "bad type", a)
    else
      let (comp, a) ← match name, compType with
        | some name, some t => App.add host.cb fuel a memory.ok memory.comp parent name t
        | _, _ => some (0, a)
      if comp = 0 then some (res.error "app.add", a)
      else
        let c ← a.objs comp
        let (a, _) ← (App.loadProps host.cb 'c' comp c.type.slots a).run props
        let c ← a.objs comp
        some ({ res with cmd := 'A', u2Data1 := c.id }, a)

/-- What `renameReq` does with the request. A null name faults. -/
def renameReq (compId : ℤ) (name : Option Str) : Option (SendPacket × App Props) :=
  checked host user a res compId fun comp _ => do
    let name ← name
    let a ← a.write comp fun c => { c with name := name.take (App.nameLen - 1) }
    some ({ res with cmd := 'N' }, a.fire host.cb (.fireTreeChanged comp))

/-- What `reorderReq` does with the request. -/
def reorderReq (compId : ℤ) (ids : List ℤ) : Option (SendPacket × App Props) :=
  checked host user a res compId fun parent p => do
    -- verify the children first
    if !ids.all fun id => a.find id != 0 && (a.objs (a.find id)).any (·.parent == p.id) then
      some (res.error "bad childId", a)
    else
      let a ← App.thread parent 0 (ids.map Int.toNat) a
      let a := (a.fire host.cb (.reordered parent)).fire host.cb (.fireTreeChanged parent)
      some ({ res with cmd := 'O' }, a)

/-- What `deleteReq` does with the request. -/
def deleteReq (compId : ℤ) : Option (SendPacket × App Props) :=
  checked host user a res compId fun comp _ => do
    let (removed, a) ← App.remove host.cb fuel a comp
    if !removed then some (res.error "app.remove", a)
    else some ({ res with cmd := 'D' }, a)

/-- What `linkReq` does with the request. -/
def linkReq (command fromCompId fromSlotId toCompId toSlotId : ℤ) :
    Option (SendPacket × App Props) :=
  checked host user a res toCompId fun toComp t => do
    if command = 'a'.toNat then
      let fromComp := a.find fromCompId
      if fromComp ≠ 0 then
        let f ← a.objs fromComp
        if !grants host user a fromComp f Permissions.ar then some (res.error "denied", a)
        else
          let (link, a) ← match slotAt f.type fromSlotId, slotAt t.type toSlotId with
            | some fromSlot, some toSlot =>
                App.addLink host.cb fuel a memory.link fromComp fromSlot toComp toSlot
            | _, _ => some (0, a)
          if link = 0 then some (res.error "could not add link", a)
          else some ({ res with cmd := 'L' }, a)
      else some ({ res with cmd := 'L' }, a)
    else if command = 'd'.toNat then
      let link ← a.findLink fuel fromCompId fromSlotId toCompId toSlotId
      if link = 0 then some (res.error "could not find link", a)
      else
        let (success, a) ← App.removeLink host.cb fuel a link
        if !success then some (res.error "could not delete link", a)
        else some ({ res with cmd := 'L' }, a)
    else some ({ res with cmd := 'L' }, a)

/-! ### Requests -/

/-- The commands that change the tree. -/
inductive Command where
  | add | rename | reorder | delete | link
deriving DecidableEq, Repr

/-- A request as its handler reads it: what is missing is -1, and a string without its end is
null. -/
inductive Request where
  | add (parentId kitId typeId : ℤ) (name : Option Str) (props : List (BitVec 8))
  | rename (compId : ℤ) (name : Option Str)
  | reorder (compId : ℤ) (ids : List ℤ)
  | delete (compId : ℤ)
  | link (command fromCompId fromSlotId toCompId toSlotId : ℤ)
deriving DecidableEq, Repr

/-- The loop of `reorderReq` that reads the children, both times it is made. -/
def readIds : ℕ → StateM BufInStream (List ℤ)
  | 0 => pure []
  | n + 1 => do
      let id ← readU2
      let ids ← readIds n
      pure (id :: ids)

/-- What the handlers read from `service.in`. -/
def Command.read : Command → StateM BufInStream Request
  | add => do
      let parentId ← readU2
      let kitId ← BufInStream.read
      let typeId ← BufInStream.read
      let name ← BufInStream.readStrInPlace
      let s ← get
      pure (.add parentId kitId typeId name s.rest)
  | rename => do
      let compId ← readU2
      let name ← BufInStream.readStrInPlace
      pure (.rename compId name)
  | reorder => do
      let compId ← readU2
      let num ← BufInStream.read
      let ids ← readIds num.toNat
      pure (.reorder compId ids)
  | delete => do
      let compId ← readU2
      pure (.delete compId)
  | link => do
      let command ← BufInStream.read
      let fromCompId ← readU2
      let fromSlotId ← BufInStream.read
      let toCompId ← readU2
      let toSlotId ← BufInStream.read
      pure (.link command fromCompId fromSlotId toCompId toSlotId)

/-- The handler of the request. -/
def Request.handle : Request → Option (SendPacket × App Props)
  | .add parentId kitId typeId name props =>
      addReq host memory user fuel a res parentId kitId typeId name props
  | .rename compId name => renameReq host user a res compId name
  | .reorder compId ids => reorderReq host user a res compId ids
  | .delete compId => deleteReq host user fuel a res compId
  | .link command fromCompId fromSlotId toCompId toSlotId =>
      linkReq host memory user fuel a res command fromCompId fromSlotId toCompId toSlotId

/-- The request that follows the command in the stream. -/
def Command.request (cmd : Command) (stream : BufInStream) : Request := (cmd.read.run stream).1

/-- A command with the bytes that follow it. -/
def serve (cmd : Command) (stream : BufInStream) : Option (SendPacket × App Props) :=
  (cmd.request stream).handle host memory user fuel a res

end Sox

end Sedona
