import Mathlib.Data.Int.Notation
import Mathlib.Data.List.Basic
import Mathlib.Data.Nat.Notation
import Mathlib.Logic.Function.Basic

/-!
# The Offline Application

`sedona.offline.OfflineApp` and its components: the tree, which is held as the list of the children
of each component and as a map from their names, the table of the components by their ids, and the
links.

Components are objects, named by the order in which they are created: the application itself is the
first. A call ends with a value or with an exception, and in a state in both cases. Arrays have any
length, and the components of other applications, which every call refuses, are left out; so are
property values.
-/

namespace Sedona.Offline

open Function

/-! ### Data -/

/-- A component, as an object. -/
abbrev Ref := ℕ

/-- The chars of a string. -/
abbrev JString := List (BitVec 16)

/-- The char of an ASCII character. -/
def char (c : Char) : BitVec 16 := BitVec.ofNat 16 c.toNat

/-- `sedona.Type`, as far as `OfflineApp.add` looks at it. -/
structure TypeFlags where
  isAbstract : Bool
  isPublic : Bool
deriving DecidableEq

/-- `sedona.Slot`: the object, and the field `id`. -/
structure Slot where
  object : ℕ
  id : ℤ
deriving DecidableEq

/-- `OfflineComponent`. -/
structure OfflineComponent where
  type : TypeFlags
  id : ℤ
  name : Option JString
  /-- Whether `app` is the application, and not null. -/
  app : Bool
  parent : Option Ref
  kids : Option (List Ref)
  kidsByName : Option (Option JString → Option Ref)

/-- `OfflineLink`. -/
structure OfflineLink where
  fromComp : Ref
  fromSlot : Slot
  toComp : Ref
  toSlot : Slot
deriving DecidableEq

/-- `OfflineApp`, with the components that have been created. -/
structure OfflineApp where
  comps : Ref → OfflineComponent
  /-- The number of components that have been created. -/
  size : ℕ
  lookup : List (Option Ref)
  lastId : ℕ
  links : List OfflineLink

/-- The application is a component. -/
def this : Ref := 0

/-- What is thrown; the components that a message names are left out. -/
inductive Failure where
  | illegalState (message : String)
  | illegalArgument (message : String)
  | nullPointer
  | stackOverflow
deriving DecidableEq

/-- How a call ends, and the state it leaves. -/
abbrev Outcome := Except Failure Unit × OfflineApp

namespace OfflineApp

variable (s : OfflineApp)

/-! ### Access -/

/-- An assignment to fields of a component. -/
def modify (c : Ref) (f : OfflineComponent → OfflineComponent) : OfflineApp :=
  { s with comps := update s.comps c (f (s.comps c)) }

/-- `OfflineApp.lookup`. -/
def lookupId (id : ℤ) : Option Ref :=
  if id < 0 then none else (s.lookup[id.toNat]?).join

/-- `OfflineComponent.children`. -/
def children (c : Ref) : List Ref := ((s.comps c).kids).getD []

/-- `OfflineComponent.child`. -/
def child (c : Ref) (name : Option JString) : Option Ref :=
  (s.comps c).kidsByName.bind fun m => m name

/-- A function of the children of a component, up to the first one that throws. -/
def eachKid (f : OfflineApp → Ref → Outcome) : OfflineApp → List Ref → Outcome
  | s, [] => (.ok (), s)
  | s, k :: ks =>
      match f s k with
      | (.error e, s) => (.error e, s)
      | (.ok _, s) => eachKid f s ks

/-! ### Ids -/

/-- `OfflineApp.generateId`. -/
def generateId : ℕ × OfflineApp :=
  let free := (List.range' s.lastId (s.lookup.length - s.lastId)).find? fun i =>
    (s.lookup[i]?).join.isNone
  let id := free.getD s.lookup.length
  (id, { s with lastId := id })

/-- `OfflineApp.addToLookupTable`. -/
def addToLookupTable (c : Ref) : OfflineApp :=
  let id := (s.comps c).id.toNat
  let lookup := if s.lookup.length ≤ id then
    s.lookup ++ List.replicate (max (s.lookup.length * 2) (id + 32) - s.lookup.length) none
  else s.lookup
  { s with lookup := lookup.set id (some c) }

/-- The part of `assignIds` for a component that has no id. -/
def assignId (c : Ref) : OfflineApp :=
  let (id, s) := s.generateId
  (s.modify c fun comp => { comp with id }).addToLookupTable c

/-- The recursion of `OfflineApp.assignIds`, of a depth. -/
def assignFrom : ℕ → OfflineApp → Ref → Outcome
  | 0, s, _ => (.error .stackOverflow, s)
  | depth + 1, s, c =>
      let s := if (s.comps c).id < 0 then s.assignId c else s
      eachKid (assignFrom depth) s (s.children c)

/-- `OfflineApp.assignIds`. -/
def assignIds : Outcome := assignFrom s.size s this

/-! ### Components -/

/-- `Component.maxChildren`. -/
def maxChildren : ℕ := 200

/-- The part of `OfflineApp.add` behind its checks. -/
def mount (parent kid : Ref) : Outcome :=
  let s := if 0 < (s.comps kid).id then s.addToLookupTable kid else s
  let s := if (s.comps parent).kids.isNone then
    s.modify parent fun c => { c with kids := some [], kidsByName := some fun _ => none } else s
  let s := s.modify kid fun c => { c with app := true, parent := some parent }
  let s := s.modify parent fun c => { c with kids := c.kids.map (· ++ [kid]) }
  match (s.comps parent).kidsByName with
  | none => (.error .nullPointer, s)
  | some m =>
      (.ok (), s.modify parent fun c =>
        { c with kidsByName := some (update m (s.comps kid).name (some kid)) })

/-- `OfflineApp.add`. -/
def add (parent : Option Ref) (kid : Ref) : Outcome :=
  if (s.lookupId (s.comps kid).id).isSome then (.error (.illegalState "Duplicate id"), s)
  else match parent with
  | none => (.error (.illegalState "Parent is null"), s)
  | some p =>
      if !(s.comps p).app then (.error (.illegalState "Parent not mounted under app"), s)
      else if (s.comps kid).parent.isSome then
        (.error (.illegalState "Kid already mounted"), s)
      else if (s.child p (s.comps kid).name).isSome then
        (.error (.illegalState "Duplicate name"), s)
      else if maxChildren ≤ (s.children p).length then
        (.error (.illegalArgument "Too many children under component"), s)
      else if (s.comps kid).type.isAbstract then
        (.error (.illegalArgument "Cannot add component with abstract type to app"), s)
      else if !(s.comps kid).type.isPublic then
        (.error (.illegalArgument "Cannot add component with non-public type to app"), s)
      else s.mount p kid

/-! ### Links -/

/-- `OfflineLink.equivalent`. -/
def equivalent (l z : OfflineLink) : Bool :=
  if (s.comps l.fromComp).id < 0 ∨ (s.comps l.toComp).id < 0 then
    l.fromComp = z.fromComp ∧ l.fromSlot = z.fromSlot ∧
      (s.comps l.toComp).id = (s.comps z.toComp).id ∧ l.toSlot.id = z.toSlot.id
  else
    (s.comps l.fromComp).id = (s.comps z.fromComp).id ∧ l.fromSlot.id = z.fromSlot.id ∧
      (s.comps l.toComp).id = (s.comps z.toComp).id ∧ l.toSlot.id = z.toSlot.id

/-- `OfflineApp.findLink`. -/
def findLink (l : OfflineLink) : Option OfflineLink := s.links.find? (s.equivalent l)

/-- `OfflineApp.addLink`. -/
def addLink (l : OfflineLink) : OfflineApp :=
  match s.findLink l with
  | none => { s with links := s.links ++ [l] }
  | some _ => s

/-- `OfflineApp.removeLink`. -/
def removeLink (l : OfflineLink) : OfflineApp :=
  match s.findLink l with
  | none => s
  | some z => { s with links := s.links.erase z }

/-- Whether a link references a component, by its id. -/
def references (l : OfflineLink) (kid : Ref) : Bool :=
  (s.comps kid).id = (s.comps l.fromComp).id ∨ (s.comps kid).id = (s.comps l.toComp).id

/-- `OfflineComponent.links`. -/
def linksOf (c : Ref) : List OfflineLink :=
  s.links.filter fun l => l.fromComp = c ∨ l.toComp = c

/-! ### Removing and reordering -/

/-- The part of `OfflineApp.remove` behind the recursion. -/
def unmount (kid : Ref) : Outcome :=
  let s := s.links.foldl (fun s z => if s.references z kid then s.removeLink z else s) s
  let s := { s with lookup := s.lookup.set (s.comps kid).id.toNat none }
  let parent := (s.comps kid).parent
  let s := s.modify kid fun c => { c with app := false, parent := none }
  match parent with
  | none => (.error .nullPointer, s)
  | some p =>
      match (s.comps p).kids, (s.comps p).kidsByName with
      | some kids, some m =>
          (.ok (), s.modify p fun c =>
            { c with
              kids := some (kids.erase kid)
              kidsByName := some (update m (s.comps kid).name none) })
      | some kids, none =>
          (.error .nullPointer, s.modify p fun c => { c with kids := some (kids.erase kid) })
      | none, _ => (.error .nullPointer, s)

/-- The recursion of `OfflineApp.remove`, of a depth. -/
def removeFrom : ℕ → OfflineApp → Ref → Outcome
  | 0, s, _ => (.error .stackOverflow, s)
  | depth + 1, s, kid =>
      if kid = this then (.error (.illegalState "Can't delete app itself!"), s)
      else if !(s.comps kid).app ∨ s.lookupId (s.comps kid).id ≠ some kid then
        (.error (.illegalState "Not in this app"), s)
      else
        match eachKid (removeFrom depth) s (s.children kid) with
        | (.error e, s) => (.error e, s)
        | (.ok _, s) => s.unmount kid

/-- `OfflineApp.remove`. -/
def remove (kid : Ref) : Outcome := removeFrom s.size s kid

/-- The loop of `OfflineApp.reorder` over the ids. -/
def reordered (kids : List Ref) (ids : List ℤ) : Option (List Ref) :=
  ids.mapM fun id => kids.find? fun k => (s.comps k).id = id

/-- `OfflineApp.reorder`. -/
def reorder (parent : Option Ref) (ids : List ℤ) : Outcome :=
  match parent with
  | none => (.error (.illegalState "Parent is null"), s)
  | some p =>
      if !(s.comps p).app ∨ s.lookupId (s.comps p).id ≠ some p then
        (.error (.illegalState "Not in this app"), s)
      else if (s.children p).length ≠ ids.length then
        (.error (.illegalArgument "childrenIds.length wrong"), s)
      else match s.reordered (s.children p) ids with
        | none => (.error (.illegalArgument "childrenId not found"), s)
        | some newList => (.ok (), s.modify p fun c => { c with kids := some newList })

/-! ### Names -/

/-- `Character` ranges of `Component.checkName`. -/
def isLetter (c : BitVec 16) : Bool :=
  (char 'A' ≤ c ∧ c ≤ char 'Z') ∨ (char 'a' ≤ c ∧ c ≤ char 'z')

/-- The loop of `Component.checkName` over the chars behind the first. -/
def checkRest : JString → Option String
  | [] => none
  | c :: cs =>
      if isLetter c then checkRest cs
      else if char '0' ≤ c ∧ c ≤ char '9' then checkRest cs
      else if c = char '_' then checkRest cs
      else some "invalidChar"

/-- `Component.checkName`. -/
def checkName (name : JString) : Option String :=
  if 7 < name.length then some "nameTooLong"
  else match name with
  | [] => some "nameEmpty"
  | c :: cs => if isLetter c then checkRest cs else some "invalidFirstChar"

/-- `OfflineComponent.rename`. -/
def rename (c : Ref) (newName : JString) : Outcome :=
  match checkName newName with
  | some err => (.error (.illegalArgument ("Invalid name (" ++ err ++ ")")), s)
  | none =>
      let name := (s.comps c).name
      let s := match (s.comps c).parent with
        | none => s
        | some p => s.modify p fun comp =>
            { comp with
              kidsByName := comp.kidsByName.map fun m =>
                update (update m name none) (some newName) (some c) }
      (.ok (), s.modify c fun comp => { comp with name := some newName })

/-! ### Runs -/

/-- The constructors of `OfflineComponent`. -/
def create (type : TypeFlags) (name : Option JString) (id : ℤ) : Outcome :=
  match name.bind checkName with
  | some err => (.error (.illegalArgument ("Invalid name (" ++ err ++ ")")), s)
  | none =>
      (.ok (), { s with
        comps := update s.comps s.size
          { type, id, name, app := false, parent := none, kids := none, kidsByName := none }
        size := s.size + 1 })

/-- The calls of a client. -/
inductive Call where
  | create (type : TypeFlags) (name : Option JString) (id : ℤ)
  | add (parent : Option Ref) (kid : Ref)
  | remove (kid : Ref)
  | rename (c : Ref) (newName : JString)
  | reorder (parent : Option Ref) (ids : List ℤ)
  | addLink (l : OfflineLink)
  | removeLink (l : OfflineLink)
  | assignIds

/-- The components that a call is given. -/
def Call.refs : Call → List Ref
  | .create .. | .assignIds => []
  | .add parent kid => kid :: parent.toList
  | .remove kid => [kid]
  | .rename c _ => [c]
  | .reorder parent _ => parent.toList
  | .addLink l | .removeLink l => [l.fromComp, l.toComp]

/-- How a call ends. -/
def perform : Call → Outcome
  | .create type name id => s.create type name id
  | .add parent kid => s.add parent kid
  | .remove kid => s.remove kid
  | .rename c newName => s.rename c newName
  | .reorder parent ids => s.reorder parent ids
  | .addLink l => (.ok (), s.addLink l)
  | .removeLink l => (.ok (), s.removeLink l)
  | .assignIds => s.assignIds

/-- The application after a call that succeeds, of components that there are. -/
def next (c : Call) : Option OfflineApp :=
  if ∀ r ∈ c.refs, r < s.size then
    match s.perform c with
    | (.ok _, s) => some s
    | (.error _, _) => none
  else none

/-- What there is before a component is created. -/
def absent : OfflineComponent where
  type := { isAbstract := false, isPublic := false }
  id := -1
  name := none
  app := false
  parent := none
  kids := none
  kidsByName := none

/-- The constructor of `OfflineApp`, with `sys::App`. -/
def empty (type : TypeFlags) : OfflineApp where
  comps := update (fun _ => absent) this
    { absent with type, id := 0, name := some ("app".toList.map char), app := true }
  size := 1
  lookup := some this :: List.replicate 255 none
  lastId := 0
  links := []

end OfflineApp

end Sedona.Offline
