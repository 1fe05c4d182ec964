import Mathlib.Logic.Function.Basic
import Sedona.Library.Chain
import Sedona.Sys.Meta

/-!
# The Application

`sys::App` owns the component tree: a sparse table of components by id, the sibling lists
threaded through the components by id, and the lists of links and services threaded by
reference. The model keeps the heap explicit: components and links are objects behind
references, reading or writing through null or a freed reference yields `none`, and so does
a loop that has not ended when its fuel is used up.

What a kit's own code does (the virtual callbacks, and the setters that change property
values and watch flags) is a parameter: `Callbacks` may change the application's `data` and
its `running` flag and nothing else.
-/

namespace Sedona

open Function

/-- A reference to an object on the heap; 0 is null. -/
abbrev Ref := ℕ

/-- `Component.nullId`. -/
def nullId : ℕ := 0xffff

/-- Storing an `int` in a `short` field. -/
def toShort (v : ℕ) : ℕ := v % 0x10000

/-- The fields of a component that place it in the tree, with their initial values. -/
structure Node where
  type : CompType
  id : ℕ := 0
  name : Str := []
  parent : ℕ := nullId
  children : ℕ := nullId
  nextSibling : ℕ := nullId
deriving DecidableEq, Repr

/-- A component object. `nextService` is a field of `Service`, and unused by others. -/
structure Component extends Node where
  linksTo : Ref := 0
  linksFrom : Ref := 0
  nextService : Ref := 0
deriving DecidableEq, Repr

/-- A link object. -/
structure Link where
  fromComp : ℕ
  fromSlot : Fin 256
  toComp : ℕ
  toSlot : Fin 256
  nextTo : Ref := 0
  nextFrom : Ref := 0
deriving DecidableEq, Repr

/-- The two lists of links a component heads: those into it and those out of it. -/
inductive Side where
  | into | outOf
deriving DecidableEq, Repr

namespace Side

/-- The field that links the list: `nextTo` or `nextFrom`. -/
def next : Side → Link → Ref
  | into, l => l.nextTo
  | outOf, l => l.nextFrom

/-- Assign that field. -/
def setNext : Side → Ref → Link → Link
  | into, r, l => { l with nextTo := r }
  | outOf, r, l => { l with nextFrom := r }

/-- The component field that heads the list: `linksTo` or `linksFrom`. -/
def head : Side → Component → Ref
  | into, c => c.linksTo
  | outOf, c => c.linksFrom

/-- Assign that field. -/
def setHead : Side → Ref → Component → Component
  | into, r, c => { c with linksTo := r }
  | outOf, r, c => { c with linksFrom := r }

end Side

/-- The application and the heap it lives on. -/
structure App (δ : Type) where
  /-- The app's own reference: `this` is the root component. -/
  self : Ref
  /-- The table `comps`, with `compsLen` entries. -/
  comps : List Ref := []
  objs : Ref → Option Component
  links : Ref → Option Link := fun _ => none
  services : Ref := 0
  running : Bool := false
  /-- Property values, watch flags and whatever else callbacks work on. -/
  data : δ

/-- What is called on components besides the structural code. -/
inductive Callback where
  | childEvent (added : Bool) (parent child : Ref)
  /-- `childEvent` with the event `REORDERED` and no child. -/
  | reordered (parent : Ref)
  | parentEvent (added : Bool) (child parent : Ref)
  | linkEvent (added : Bool) (comp link : Ref)
  | loaded (comp : Ref)
  | start (comp : Ref)
  | stop (comp : Ref)
  | changed (comp : Ref) (slot : Slot)
  | setToDefault (comp : Ref) (slot : Slot)
  | fireTreeChanged (comp : Ref)
  | fireLinksChanged (comp : Ref)
deriving DecidableEq, Repr

variable {δ : Type}

/-- The code behind the callbacks: the new `data` and `running`. -/
abbrev Callbacks (δ : Type) := Callback → App δ → δ × Bool

namespace App

/-! ### The heap -/

/-- Invoke a callback. -/
def fire (cb : Callbacks δ) (e : Callback) (a : App δ) : App δ :=
  { a with data := (cb e a).1, running := (cb e a).2 }

/-- Invoke a list of callbacks in order. -/
def fireAll (cb : Callbacks δ) (es : List Callback) (a : App δ) : App δ :=
  es.foldl (fun a e => a.fire cb e) a

/-- Invoke a list of callbacks if the app is running. -/
def whenRunning (cb : Callbacks δ) (es : List Callback) (a : App δ) : App δ :=
  if a.running then a.fireAll cb es else a

/-- Assign fields of the component behind `r`. -/
def write (a : App δ) (r : Ref) (f : Component → Component) : Option (App δ) :=
  (a.objs r).map fun c => { a with objs := update a.objs r (some (f c)) }

/-- Assign fields of the link behind `r`. -/
def writeLink (a : App δ) (r : Ref) (f : Link → Link) : Option (App δ) :=
  (a.links r).map fun l => { a with links := update a.links r (some (f l)) }

/-- `delete` of a component. -/
def delete (a : App δ) (r : Ref) : App δ := { a with objs := update a.objs r none }

/-- `delete` of a link. -/
def deleteLink (a : App δ) (r : Ref) : App δ := { a with links := update a.links r none }

/-! ### Looking up and walking -/

/-- `App.lookup`: the component with this id, or null. -/
def lookup (a : App δ) (id : ℕ) : Ref := a.comps.getD id 0

/-- The component object with this id. -/
def comp (a : App δ) (id : ℕ) : Option Component := a.objs (a.lookup id)

/-- `while (x != null && !stop(x)) x = lookup(x.nextSibling)`, starting at the component
with the id `first`; the id of the component it ends with. -/
def siblingWhere (a : App δ) (stop : Component → Bool) (fuel first : ℕ) : Option ℕ :=
  Intrusive.walk (fun id => a.lookup id == 0) a.comp (·.nextSibling) stop fuel first

/-- The same loop along the services. -/
def serviceWhere (a : App δ) (stop : Component → Bool) (fuel : ℕ) (first : Ref) : Option Ref :=
  Intrusive.walk (· == 0) a.objs (·.nextService) stop fuel first

/-- The same loop along the links on one side of a component. -/
def linkWhere (a : App δ) (side : Side) (stop : Link → Bool) (fuel : ℕ) (first : Ref) :
    Option Ref :=
  Intrusive.walk (· == 0) a.links side.next stop fuel first

/-! ### Init -/

/-- `App.ensureCompsCapacity`: grow the table if it is too small. `ok` says whether the new
array could be allocated. -/
def ensureCompsCapacity (a : App δ) (ok : Bool) (newLen : ℕ) : Bool × App δ :=
  if a.comps.length ≥ newLen then (true, a)
  else if !ok then (false, a)
  else (true, { a with comps := a.comps ++ List.replicate (newLen - a.comps.length) 0 })

/-- The name `"App"`. -/
def appName : Str := [0x41, 0x70, 0x70]

/-- `App.initApp`. Mapping the app itself faults while the table is null. -/
def initApp (a : App δ) (ok : Bool) (initCompsLen : ℕ) : Option (Bool × App δ) := do
  let a ← a.write a.self fun c => { c with id := 0, parent := nullId, name := appName }
  let (fits, a) := a.ensureCompsCapacity ok initCompsLen
  if !fits then some (false, a)
  else if a.comps = [] then none
  else some (true, { a with comps := a.comps.set 0 a.self })

/-! ### Adding components -/

/-- `App.allocCompId`: the first null entry of the table, or a new one behind it. `none`
stands for -1. -/
def allocCompId (a : App δ) (ok : Bool) : Option ℕ × App δ :=
  match a.comps.findIdx? (· == 0) with
  | some i => (some i, a)
  | none =>
      let (fits, a') := a.ensureCompsCapacity ok (a.comps.length + 8)
      if fits then (some a.comps.length, a') else (none, a')

/-- `App.insert`: enter the component into the table and, if it is a service, into the list
of services. -/
def insert (a : App δ) (id : ℕ) (c : Ref) : Option (Bool × App δ) := do
  if id ≥ a.comps.length then some (false, a)
  else if a.comps.getD id 0 ≠ 0 then some (false, a)
  else
    let a ← a.write c fun c => { c with id := toShort id }
    let a := { a with comps := a.comps.set id c }
    let obj ← a.objs c
    if obj.type.isService then
      let a ← a.write c fun s => { s with nextService := a.services }
      some (true, { a with services := c })
    else some (true, a)

/-- The component's maximum name length, terminator included. -/
def nameLen : ℕ := 8

/-- Append the component `c` with this id to the children of `parent`: the part of `add`
that sets up the parent/child relationship. `false` if the last child is not found. -/
def linkChild (fuel : ℕ) (a : App δ) (parent : Ref) (id : ℕ) (c : Ref) :
    Option (Bool × App δ) := do
  let p ← a.objs parent
  let a ← a.write c fun c => { c with parent := p.id }
  let p ← a.objs parent
  if p.children = nullId then
    let a ← a.write parent fun p => { p with children := toShort id }
    some (true, a)
  else
    let x ← a.siblingWhere (·.nextSibling == nullId) fuel p.children
    if a.lookup x = 0 then some (false, a)
    else
      let a ← a.write (a.lookup x) fun x => { x with nextSibling := toShort id }
      some (true, a)

/-- `App.add`: a new component of type `t` behind the children of `parent`, or null. `ok`
and `mem` are what the allocations of the table and of the component return. -/
def add (cb : Callbacks δ) (fuel : ℕ) (a : App δ) (ok : Bool) (mem : Ref) (parent : Ref)
    (name : Str) (t : CompType) : Option (Ref × App δ) := do
  if parent = 0 then some (0, a)
  else
    let p ← a.objs parent
    -- don't add if a sibling with the same name exists
    let sibling ← a.siblingWhere (·.name == name) fuel p.children
    if a.lookup sibling ≠ 0 then some (0, a)
    else
      match a.allocCompId ok with
      | (none, a) => some (0, a)
      | (some id, a) =>
          if mem = 0 then some (0, a)
          else
            let c : Component := { type := t, name := name.take (nameLen - 1) }
            let a := { a with objs := update a.objs mem (some c) }
            let (inserted, a) ← a.insert id mem
            if !inserted then some (0, a.delete mem)
            else
              let (linked, a) ← linkChild fuel a parent id mem
              if !linked then some (0, a.delete mem)
              else
                let a := a.whenRunning cb [.childEvent true parent mem,
                  .parentEvent true mem parent, .loaded mem, .start mem]
                some (mem, a.fire cb (.fireTreeChanged parent))

/-! ### Links -/

/-- `App.lookupLink`: the link with these ends, or null. -/
def lookupLink (fuel : ℕ) (a : App δ) (fromComp : ℕ) (fromSlot : Fin 256) (toComp : ℕ)
    (toSlot : Fin 256) : Option Ref := do
  if a.lookup toComp = 0 then some 0
  else
    let target ← a.comp toComp
    a.linkWhere .into (fun x => x.toSlot == toSlot && x.fromComp == fromComp &&
      x.fromSlot == fromSlot) fuel target.linksTo

/-- `App.insertLink`: register a link with both its ends; a link from a component to itself
only as a link into it. -/
def insertLink (a : App δ) (link : Ref) : Option (Bool × App δ) := do
  let l ← a.links link
  let src := a.lookup l.fromComp
  let dst := a.lookup l.toComp
  if src = 0 ∨ dst = 0 then some (false, a)
  else
    let target ← a.objs dst
    let a ← a.writeLink link fun l => { l with nextTo := target.linksTo }
    let a ← a.write dst fun c => { c with linksTo := link }
    if dst ≠ src then
      let obj ← a.objs src
      let a ← a.writeLink link fun l => { l with nextFrom := obj.linksFrom }
      let a ← a.write src fun c => { c with linksFrom := link }
      some (true, a)
    else some (true, a)

/-- `App.addLink`: a new link, or null. `mem` is what the allocation of the link returns;
the code does not test it, so null faults. -/
def addLink (cb : Callbacks δ) (fuel : ℕ) (a : App δ) (mem : Ref) (src : Ref)
    (fromSlot : Slot) (dst : Ref) (toSlot : Slot) : Option (Ref × App δ) := do
  if src = 0 ∨ dst = 0 then some (0, a)
  else
    let f ← a.objs src
    let t ← a.objs dst
    let dup ← a.lookupLink fuel f.id fromSlot.id t.id toSlot.id
    if dup ≠ 0 then some (0, a)
    else
      -- no fan-in: the slot must not be linked to already
      let fanIn ← a.linkWhere .into (fun x => x.toSlot == toSlot.id) fuel t.linksTo
      if fanIn ≠ 0 then some (0, a)
      else if mem = 0 then none
      else
        let link : Link :=
          { fromComp := f.id, fromSlot := fromSlot.id, toComp := t.id, toSlot := toSlot.id }
        let a := { a with links := update a.links mem (some link) }
        let (_, a) ← a.insertLink mem
        let a := a.whenRunning cb [.linkEvent true dst mem, .linkEvent true src mem]
        some (mem, a.fireAll cb [.fireLinksChanged src, .fireLinksChanged dst])

/-- Take the link out of the list on one side of the component `comp`. The search for the
link in front of it is made also after the head of the list moved on. -/
def unlink (side : Side) (fuel : ℕ) (a : App δ) (comp link : Ref) : Option (App δ) := do
  let l ← a.links link
  let c ← a.objs comp
  let a ← if side.head c = link then a.write comp (side.setHead (side.next l)) else some a
  let c ← a.objs comp
  let x ← a.linkWhere side (side.next · == link) fuel (side.head c)
  if x ≠ 0 then a.writeLink x (side.setNext (side.next l)) else some a

/-- Restore the default value of the slot a removed link went to, if it is a property. -/
def restoreDefault (cb : Callbacks δ) (a : App δ) (dst : Ref) (toSlot : Fin 256) :
    Option (App δ) := do
  let t ← a.objs dst
  match t.type.slot toSlot with
  | some s => if s.isProp then some (a.fire cb (.setToDefault dst s)) else some a
  | none => some a

/-- The part of `removeLink` for the `from` component, which may be null. -/
def removeLinkFrom (fuel : ℕ) (a : App δ) (src link : Ref) : Option (App δ) :=
  if src ≠ 0 then unlink .outOf fuel a src link else some a

/-- The part of `removeLink` for the `to` component, which may be null. -/
def removeLinkTo (cb : Callbacks δ) (fuel : ℕ) (a : App δ) (dst link : Ref)
    (toSlot : Fin 256) : Option (App δ) :=
  if dst ≠ 0 then (unlink .into fuel a dst link).bind fun a => restoreDefault cb a dst toSlot
  else some a

/-- Callbacks on an end of a link, none if the end is null. -/
def ifPresent (r : Ref) (e : Callback) : List Callback := if r = 0 then [] else [e]

/-- `App.removeLink`. -/
def removeLink (cb : Callbacks δ) (fuel : ℕ) (a : App δ) (link : Ref) :
    Option (Bool × App δ) := do
  if link = 0 then some (false, a)
  else
    let l ← a.links link
    let src := a.lookup l.fromComp
    let a ← removeLinkFrom fuel a src link
    let l ← a.links link
    let dst := a.lookup l.toComp
    let a ← removeLinkTo cb fuel a dst link l.toSlot
    let a := a.whenRunning cb (ifPresent src (.linkEvent false src link) ++
      ifPresent dst (.linkEvent false dst link))
    let a := a.fireAll cb (ifPresent src (.fireLinksChanged src) ++
      ifPresent dst (.fireLinksChanged dst))
    some (src ≠ 0 && dst ≠ 0, a.deleteLink link)

/-! ### Removing components -/

/-- Take the service out of the list of services. -/
def unlinkService (fuel : ℕ) (a : App δ) (s : Ref) : Option (Bool × App δ) := do
  let obj ← a.objs s
  if a.services = s then some (true, { a with services := obj.nextService })
  else
    let prev ← a.serviceWhere (·.nextService == s) fuel a.services
    if prev = 0 then some (false, a)
    else
      let a ← a.write prev fun p => { p with nextService := obj.nextService }
      some (true, a)

/-- Take the child with this id out of the children of `parent`. -/
def unlinkChild (fuel : ℕ) (a : App δ) (parent : Ref) (id : ℕ) (c : Ref) :
    Option (Bool × App δ) := do
  let obj ← a.objs c
  let p ← a.objs parent
  if p.children = id then
    let a ← a.write parent fun p => { p with children := obj.nextSibling }
    some (true, a)
  else
    let prev ← a.siblingWhere (·.nextSibling == id) fuel p.children
    if a.lookup prev = 0 then some (false, a)
    else
      let a ← a.write (a.lookup prev) fun p => { p with nextSibling := obj.nextSibling }
      some (true, a)

/-- `while (link != null) { next = link.next; removeLink(link); link = next }`, for the list
on one side. -/
def removeLinks (cb : Callbacks δ) (fuel : ℕ) (side : Side) :
    ℕ → App δ → Ref → Option (App δ)
  | 0, _, _ => none
  | n + 1, a, link =>
      if link = 0 then some a
      else do
        let l ← a.links link
        let (_, a) ← removeLink cb fuel a link
        removeLinks cb fuel side n a (side.next l)

/-- `while (kid != null) { next = lookup(kid.nextSibling); remove(kid); kid = next }`. -/
def removeKids (rm : App δ → Ref → Option (Bool × App δ)) : ℕ → App δ → Ref → Option (App δ)
  | 0, _, _ => none
  | n + 1, a, kid =>
      if kid = 0 then some a
      else do
        let k ← a.objs kid
        let nextKid := a.lookup k.nextSibling
        let (_, a) ← rm a kid
        removeKids rm n a nextKid

/-- The part of `remove` after the children are gone. -/
def removeLeaf (cb : Callbacks δ) (fuel : ℕ) (a : App δ) (id : ℕ) (c parent : Ref) :
    Option (Bool × App δ) := do
  let a := { a with comps := a.comps.set id 0 }
  let obj ← a.objs c
  let (ok, a) ← if obj.type.isService then unlinkService fuel a c else some (true, a)
  if !ok then some (false, a)
  else
    let (ok, a) ← unlinkChild fuel a parent id c
    if !ok then some (false, a)
    else
      let obj ← a.objs c
      let a ← removeLinks cb fuel .outOf fuel a obj.linksFrom
      let obj ← a.objs c
      let a ← removeLinks cb fuel .into fuel a obj.linksTo
      let a := a.whenRunning cb [.childEvent false parent c, .parentEvent false c parent]
      let a := a.fire cb (.fireTreeChanged parent)
      some (true, a.delete c)

/-- `App.remove`: remove the component, its children first. -/
def remove (cb : Callbacks δ) : ℕ → App δ → Ref → Option (Bool × App δ)
  | 0, _, _ => none
  | fuel + 1, a, c =>
      if c = 0 then some (false, a)
      else do
        let obj ← a.objs c
        let id := obj.id
        if a.lookup id ≠ c then some (false, a)
        else
          let parent := a.lookup obj.parent
          if parent = 0 then some (false, a)
          else
            let a := a.whenRunning cb [.stop c]
            let obj ← a.objs c
            let a ← removeKids (remove cb fuel) (fuel + 1) a (a.lookup obj.children)
            removeLeaf cb (fuel + 1) a id c parent

end App

end Sedona
