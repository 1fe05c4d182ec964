import Sedona.Sys.Props

/-!
# The App File

`saveApp` and `loadApp` of `sys::App`, with the parts of `Component` and `Link` they use.
Memory is a parameter: `mem` and `linkMem` are what successive allocations return. So are the
kits of the runtime and the values that the properties of a new component start with.
-/

namespace Sedona

open OutStream InStream Function

/-! ### Error codes -/

namespace Err

def invalidMagic : ℕ := 43
def invalidVersion : ℕ := 44
def invalidSchema : ℕ := 45
def unexpectedEOF : ℕ := 46
def invalidKitId : ℕ := 47
def invalidTypeId : ℕ := 48
def cannotMalloc : ℕ := 49
def cannotInsert : ℕ := 50
def cannotLoadLink : ℕ := 51
def invalidAppEndMarker : ℕ := 52
def invalidCompEndMarker : ℕ := 60
def nameTooLong : ℕ := 61

end Err

/-- `Str.tempLen`. -/
def tempLen : ℕ := 32

namespace App

/-! ### Saving -/

/-- The loop of `App.maxId`, over the entries below `n`. -/
def maxIdBelow (a : App Props) : ℕ → ℕ
  | 0 => 0
  | n + 1 => if a.lookup n ≠ 0 then n else maxIdBelow a n

/-- `App.maxId`. -/
def maxId (a : App Props) : ℕ := a.maxIdBelow a.comps.length

/-- `App.saveSchema`. -/
def saveSchema (kits : List Kit) : List (BitVec 8) :=
  OutStream.write (BitVec.ofNat 32 kits.length) ++
    kits.flatMap fun kit => writeStr kit.name ++ writeI4 kit.checksum

/-- `Component.saveProps`. -/
def saveProps (filter : Char) (slots : List Slot) (values : (s : Slot) → Value s.type) :
    List (BitVec 8) :=
  (slots.filter (·.matchProp filter)).flatMap fun slot => saveValue (values slot)

/-- What `Component.saveAppComp` writes after the ids. -/
def saveBody (c : Component) (values : (s : Slot) → Value s.type) : List (BitVec 8) :=
  writeStr c.name ++ (writeI2 (BitVec.ofNat 32 c.parent) ++ (writeI2 (BitVec.ofNat 32 c.children) ++
    (writeI2 (BitVec.ofNat 32 c.nextSibling) ++ (saveProps 'c' c.type.slots values ++
      OutStream.write 0x3b))))

/-- `Component.saveAppComp`. -/
def saveAppComp (c : Component) (values : (s : Slot) → Value s.type) : List (BitVec 8) :=
  writeI2 (BitVec.ofNat 32 c.id) ++ (OutStream.write (BitVec.ofNat 32 c.type.kit) ++
    (OutStream.write (BitVec.ofNat 32 c.type.id) ++ saveBody c values))

/-- The loop of `saveApp` over the components. -/
def saveComps (a : App Props) : List Ref → Option (List (BitVec 8))
  | [] => some []
  | r :: refs =>
      if r = 0 then saveComps a refs
      else do
        let c ← a.objs r
        let bytes ← saveComps a refs
        some (saveAppComp c (a.data r) ++ bytes)

/-- `Link.save`. -/
def saveLink (l : Link) : List (BitVec 8) :=
  writeI2 (BitVec.ofNat 32 l.fromComp) ++ (OutStream.write (BitVec.ofNat 32 l.fromSlot.val) ++
    (writeI2 (BitVec.ofNat 32 l.toComp) ++ OutStream.write (BitVec.ofNat 32 l.toSlot.val)))

/-- The loop of `saveApp` along the links into a component. -/
def saveLinksTo (a : App Props) : ℕ → Ref → Option (List (BitVec 8))
  | 0, _ => none
  | fuel + 1, link =>
      if link = 0 then some []
      else do
        let l ← a.links link
        let bytes ← saveLinksTo a fuel l.nextTo
        some (saveLink l ++ bytes)

/-- The loop of `saveApp` over the links. -/
def saveLinks (a : App Props) (fuel : ℕ) : List Ref → Option (List (BitVec 8))
  | [] => some []
  | r :: refs =>
      if r = 0 then saveLinks a fuel refs
      else do
        let c ← a.objs r
        let here ← saveLinksTo a fuel c.linksTo
        let bytes ← saveLinks a fuel refs
        some (here ++ bytes)

/-- `App.saveApp`, to a stream that takes all bytes. -/
def saveApp (kits : List Kit) (fuel : ℕ) (a : App Props) : Option (List (BitVec 8)) := do
  let comps ← saveComps a a.comps
  let links ← saveLinks a fuel a.comps
  some (writeI4 0x73617070 ++ (writeI4 0x0003 ++ (saveSchema kits ++
    (writeI2 (BitVec.ofNat 32 a.maxId) ++ (comps ++ (writeI2 0xffff ++ (links ++
      (writeI2 0xffff ++ OutStream.write 0x2e))))))))

/-! ### Loading properties -/

/-- `Component.slotChanged`. -/
def slotChanged (cb : Callbacks Props) (c : Ref) (slot : Slot) (a : App Props) : App Props :=
  if a.running then a.fire cb (.changed c slot) else a

/-- Store a property value. -/
def store (a : App Props) (c : Ref) (slot : Slot) (v : Value slot.type) : App Props :=
  { a with data := update a.data c (update (a.data c) slot v) }

/-- `Component.setBool`, `setInt` and the others: nothing happens if the value stays. -/
def setValue (cb : Callbacks Props) (c : Ref) (slot : Slot) (v : Value slot.type)
    (a : App Props) : App Props :=
  if a.data c slot = v then a else slotChanged cb c slot (a.store c slot v)

/-- `Component.loadProp`. A buffer is written in place, and reported as changed even when the
bytes are the same. -/
def loadProp (cb : Callbacks Props) (c : Ref) (a : App Props) (slot : Slot) :
    Reader Option (App Props) := do
  let v ← loadValue slot.asStr (a.data c slot)
  if slot.type = .void then pure a
  else if slot.type = .buf then pure (slotChanged cb c slot (a.store c slot v))
  else pure (setValue cb c slot v a)

/-- `Component.loadProps`. -/
def loadProps (cb : Callbacks Props) (filter : Char) (c : Ref) (slots : List Slot)
    (a : App Props) : Reader Option (App Props) :=
  (slots.filter (·.matchProp filter)).foldlM (loadProp cb c) a

/-! ### Loading -/

/-- The name and the checksum of the next kit of the file; `none` if the name is too long. -/
def readKit (temp : Str) : Reader Option (Option (Str × BitVec 32)) := do
  let (ok, temp) ← readStr temp tempLen
  if !ok then pure none
  else
    let checksum ← readS4
    pure (some (temp, checksum))

/-- The loop of `App.loadSchema` over the kits of the runtime: `n` kits of the file are still
unread, `temp` and `checksum` are the one read last, and `kitIdMap` maps those that matched.
`none` stands for a mismatch. -/
def loadSchemaLoop (numkits : ℕ) : List Kit → ℕ → Str → BitVec 32 → Bool → List ℕ →
    Reader Option (Option (List ℕ))
  | [], _, _, _, gotMatch, kitIdMap => pure (if gotMatch then some kitIdMap else none)
  | kit :: kits, n, temp, checksum, gotMatch, kitIdMap => do
      let readNext := gotMatch && decide (0 < n)
      let n := if readNext then n - 1 else n
      match ← (if readNext then readKit temp else pure (some (temp, checksum))) with
      | none => pure none
      | some (temp, checksum) =>
          if kit.name ≠ temp then
            loadSchemaLoop numkits kits n temp checksum false kitIdMap
          else if kit.checksum ≠ checksum then pure none
          else
            let kitIdMap := kitIdMap.set (numkits - n - 1) kit.id
            if n = 0 then pure (some kitIdMap)
            else loadSchemaLoop numkits kits n temp checksum true kitIdMap

/-- `App.loadSchema`: the map from the kit ids of the file to those of the runtime. `temp` is
what `Str.temp` holds before. -/
def loadSchema (kits : List Kit) (temp : Str) : Reader Option (Option (List ℕ)) := do
  let numkits ← read
  if kits.length < numkits.toInt then pure none
  else if numkits.slt 0 then pure none
  else
    let len := numkits.toNat
    loadSchemaLoop len kits len temp 0 true (List.replicate len 0)

/-- `Component.loadAppComp`. -/
def loadAppComp (cb : Callbacks Props) (c : Ref) (a : App Props) :
    Reader Option (ℕ × App Props) := do
  let obj ← (a.objs c : Option Component)
  let (ok, name) ← readStr obj.name nameLen
  let a ← (a.write c fun c => { c with name := name } : Option (App Props))
  if !ok then pure (Err.nameTooLong, a)
  else
    let parent ← readU2
    let a ← (a.write c fun c => { c with parent := toShort parent.toNat } : Option (App Props))
    let children ← readU2
    let a ← (a.write c fun c => { c with children := toShort children.toNat } :
      Option (App Props))
    let nextSibling ← readU2
    let a ← (a.write c fun c => { c with nextSibling := toShort nextSibling.toNat } :
      Option (App Props))
    let a ← loadProps cb 'c' c obj.type.slots a
    let x ← read
    pure (if x = 0x3b then 0 else Err.invalidCompEndMarker, a)

/-- `Type.malloc`: a new component behind `r`, with the initial values of its properties. -/
def malloc (init : CompType → (s : Slot) → Value s.type) (t : CompType) (r : Ref)
    (a : App Props) : App Props :=
  { a with objs := update a.objs r (some { type := t }), data := update a.data r (init t) }

/-- The loop of `loadApp` over the components; `n` components were allocated before. The code
0 stands for the end of the loop. -/
def loadComps (cb : Callbacks Props) (kits : List Kit)
    (init : CompType → (s : Slot) → Value s.type) (mem : ℕ → Ref) (kitIdMap : List ℕ) :
    ℕ → ℕ → App Props → Reader Option (ℕ × App Props)
  | 0, _, _ => (none : Option _)
  | fuel + 1, n, a => do
      let compId ← readU2
      if compId = 0xffff then pure (0, a)
      else if compId.slt 0 then pure (Err.unexpectedEOF, a)
      else
        let kitid ← read
        -- an index behind the map reads whatever is there
        let kit ← (if kitid.slt 0 then some none
          else (kitIdMap[kitid.toNat]?).map fun id => kits[id]? : Option (Option Kit))
        match kit with
        | none => pure (Err.invalidKitId, a)
        | some kit => do
            let typeId ← read
            match if typeId.slt 0 then none else kit.types[typeId.toNat]? with
            | none => pure (Err.invalidTypeId, a)
            | some t =>
                if compId = 0 then do
                  let (code, a) ← loadAppComp cb a.self a
                  if code ≠ 0 then pure (code, a)
                  else loadComps cb kits init mem kitIdMap fuel n a
                else if mem n = 0 then pure (Err.cannotMalloc, a)
                else do
                  let (code, a) ← loadAppComp cb (mem n) (a.malloc init t (mem n))
                  if code ≠ 0 then pure (code, a)
                  else
                    let (inserted, a) ←
                      (a.insert compId.toNat (mem n) : Option (Bool × App Props))
                    if !inserted then pure (Err.cannotInsert, a)
                    else loadComps cb kits init mem kitIdMap fuel (n + 1) a

/-- The loop of `loadApp` over the links, with `Link.load`; `n` links were allocated before. -/
def loadLinks (linkMem : ℕ → Ref) : ℕ → ℕ → App Props → Reader Option (ℕ × App Props)
  | 0, _, _ => (none : Option _)
  | fuel + 1, n, a => do
      let compId ← readU2
      if compId = 0xffff then pure (0, a)
      else if compId.slt 0 then pure (Err.unexpectedEOF, a)
      else if linkMem n = 0 then pure (Err.cannotMalloc, a)
      else
        let fromSlot ← read
        let toComp ← readU2
        let toSlot ← read
        let link : Link :=
          { fromComp := toShort compId.toNat, fromSlot := (fromSlot.setWidth 8).toFin,
            toComp := toShort toComp.toNat, toSlot := (toSlot.setWidth 8).toFin }
        let a := { a with links := update a.links (linkMem n) (some link) }
        if toSlot.slt 0 then pure (Err.cannotLoadLink, a)
        else
          let (inserted, a) ← (a.insertLink (linkMem n) : Option (Bool × App Props))
          if !inserted then pure (Err.cannotLoadLink, a)
          else loadLinks linkMem fuel (n + 1) a

/-- `App.loadApp`: the error code, 0 for success, and the application. `ok` says whether the
table could be allocated. -/
def loadApp (cb : Callbacks Props) (kits : List Kit)
    (init : CompType → (s : Slot) → Value s.type) (mem linkMem : ℕ → Ref) (ok : Bool)
    (temp : Str) (fuel : ℕ) (a : App Props) : Reader Option (ℕ × App Props) := do
  let magic ← readS4
  if magic ≠ 0x73617070 then pure (Err.invalidMagic, a)
  else
    let version ← readS4
    if version ≠ 0x0003 then pure (Err.invalidVersion, a)
    else
      match ← loadSchema kits temp with
      | none => pure (Err.invalidSchema, a)
      | some kitIdMap => do
          let maxId ← readU2
          let (_, a) ← (a.initApp ok (maxId.toInt + 1).toNat : Option (Bool × App Props))
          let (code, a) ← loadComps cb kits init mem kitIdMap fuel 0 a
          if code ≠ 0 then pure (code, a)
          else
            let (code, a) ← loadLinks linkMem fuel 0 a
            if code ≠ 0 then pure (code, a)
            else
              let x ← read
              pure (if x = 0x2e then 0 else Err.invalidAppEndMarker, a)

end App

end Sedona
