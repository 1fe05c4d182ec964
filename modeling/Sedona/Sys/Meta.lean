import Mathlib.Data.Fintype.Basic

/-!
# Kits, Types and Slots

The reflection data of the runtime (`sys::Kit`, `sys::Type`, `sys::Slot`) as far as the
component tree, its serialisation and the SOX commands read it. Strings are the bytes before
the terminating zero.
-/

namespace Sedona

/-- A `Str`: its bytes up to the terminating zero, which is left out. -/
abbrev Str := List (BitVec 8)

/-- The types a slot may have (`Type.voidId` to `Type.bufId`). -/
inductive SlotType where
  | void | bool | byte | short | int | long | float | double | buf
deriving DecidableEq, Repr

/-- A `sys::Slot`: a property or an action of a component type, with its flags. -/
structure Slot where
  id : Fin 256
  type : SlotType
  /-- `Slot.ACTION`: an action, not a property. -/
  action : Bool := false
  /-- `Slot.CONFIG`: a property that is saved with the app. -/
  config : Bool := false
  /-- `Slot.AS_STR`: a `Buf` property that holds a string. -/
  asStr : Bool := false
  /-- `Slot.OPERATOR`: accessible on operator level, not only on admin level. -/
  operator : Bool := false
deriving DecidableEq, Repr

/-- `Slot.isProp`. -/
def Slot.isProp (s : Slot) : Bool := !s.action

/-- `Slot.isAction`. -/
def Slot.isAction (s : Slot) : Bool := s.action

/-- `Slot.matchProp`: is the slot a property that the filter selects? -/
def Slot.matchProp (s : Slot) (filter : Char) : Bool :=
  s.isProp && match filter with
    | '*' => true
    | 'c' => s.config
    | 'r' => !s.config
    | 'C' => s.config && s.operator
    | 'R' => !s.config && s.operator
    | _ => false

/-- A `sys::Type` of components: its kit's id, its own id, its slots, and whether it is
`sys::Service` or one of its subtypes (`type.is(Service.type)`). -/
structure CompType where
  kit : ℕ
  id : ℕ
  slots : List Slot := []
  isService : Bool := false
deriving DecidableEq, Repr

/-- `Type.slot`: the slot with this id, or null. -/
def CompType.slot (t : CompType) (id : Fin 256) : Option Slot := t.slots[id.val]?

/-- A `sys::Kit` of the runtime. -/
structure Kit where
  id : ℕ
  name : Str
  checksum : BitVec 32
  types : List CompType
deriving DecidableEq, Repr

end Sedona
