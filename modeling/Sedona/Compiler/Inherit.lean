import Sedona.Compiler.ImageGen

/-!
# Inherit

Which slots a type has, and what the compiler checks about them (`sedonac.steps.Inherit`, with
the flags of `sedonac.parser.Parser` and the checks of `sedonac.steps.CheckErrors` that concern
virtual methods).

A type comes with its base types: a `Class` is the list of a type, its base type and so on.
-/

namespace Sedona.Virtual

open ImageGen (TypeName SlotName TypeRef)

/-- A slot as a type declares it. A field has no signature. -/
structure SlotDef where
  name : String
  /-- The return type and the types of the parameters. -/
  sig : Option (TypeRef × List TypeRef)
  isAbstract : Bool := false
  isAction : Bool := false
  isInternal : Bool := false
  isNative : Bool := false
  isOverride : Bool := false
  isPrivate : Bool := false
  isStatic : Bool := false
  isVirtual : Bool := false
deriving DecidableEq

namespace SlotDef

def isMethod (d : SlotDef) : Bool := d.sig.isSome

/-- `Method.isInstanceInit` or `isStaticInit`. -/
def isInit (d : SlotDef) : Bool := d.isMethod && (d.name = "_iInit" || d.name = "_sInit")

/-- Calls to the method go through the vtable. -/
def isDispatched (d : SlotDef) : Bool := d.isMethod && (d.isVirtual || d.isOverride)

end SlotDef

/-- A type with the slots that it declares. -/
structure TypeDef where
  name : TypeName
  isAbstract : Bool := false
  declared : List SlotDef
deriving DecidableEq

/-- `Type.isVirtual`: `sys::Virtual` itself. -/
def TypeDef.isVirtual (t : TypeDef) : Bool := t.name = ⟨"sys", "Virtual"⟩

/-- The slot of the name that the type declares. -/
def TypeDef.slot (t : TypeDef) (name : String) : Option SlotDef :=
  t.declared.find? fun d => d.name = name

/-- A slot and the type that declares it. -/
structure Slot where
  parent : TypeName
  slot : SlotDef
deriving DecidableEq

namespace Slot

def name (s : Slot) : String := s.slot.name

/-- The qualified name. -/
def id (s : Slot) : SlotName := ⟨s.parent, s.slot.name⟩

/-- `TypeUtil.isInherited`. -/
def isInherited (s : Slot) (into : TypeDef) : Bool :=
  !s.slot.isPrivate && (!s.slot.isInternal || s.parent.kit = into.name.kit) && !s.slot.isInit

end Slot

/-- A type, its base type, and so on. -/
abbrev Class := List TypeDef

/-- `TypeUtil.isaVirtual`. -/
def isaVirtual (c : Class) : Bool := c.any TypeDef.isVirtual

/-- `Type.slots` after `Inherit.inherit`: what the type declares, and what it inherits. -/
def slots : Class → List Slot
  | [] => []
  | t :: bases =>
      t.declared.map (⟨t.name, ·⟩) ++
        (slots bases).filter fun s => s.isInherited t && (t.slot s.name).isNone

/-- `Inherit.doSignaturesMatch`. -/
def doSignaturesMatch (a b : SlotDef) : Bool := a.isMethod && b.isMethod && a.sig = b.sig

/-- `Inherit.inheritSlot`: whether there is no error for a slot of the base type. -/
def inheritSlot (t : TypeDef) (s : Slot) : Bool :=
  !s.isInherited t ||
    match t.slot s.name with
    | none => true
    | some d =>
        doSignaturesMatch s.slot d && d.isOverride && d.isAction == s.slot.isAction &&
          s.slot.isVirtual

/-- `SlotDef.overrides`: the slot of the base types that a slot of the type overrides. -/
def overrides (t : TypeDef) (bases : Class) (d : SlotDef) : Option Slot :=
  (slots bases).find? fun s => s.isInherited t && s.name = d.name

/-- `Inherit.inherit` reports no error. -/
def inherit (t : TypeDef) (bases : Class) : Bool :=
  (slots bases).all (inheritSlot t) &&
    t.declared.all fun d => !d.isOverride || (overrides t bases d).isSome

/-- The flags that `Parser.slotFlags` leaves and that `CheckErrors.checkProtectionFlags` and
`checkMethodFlags` let pass, in a type with the base types. -/
def checkFlags (c : Class) (d : SlotDef) : Bool :=
  (!d.isAbstract || d.isVirtual) && (!d.isAction || d.isVirtual) &&
    (!d.isPrivate || (!d.isInternal && !d.isVirtual)) &&
    (!d.isMethod ||
      ((!(d.isNative || d.isStatic) || (!d.isVirtual && !d.isOverride)) &&
        (!d.isAbstract || !d.isOverride) &&
        (!d.isVirtual || isaVirtual c)))

/-- `CheckErrors.checkAbstractMethods`. -/
def checkAbstractMethods (c : Class) : Bool :=
  match c with
  | [] => true
  | t :: _ => t.isAbstract || (slots c).all fun s => !s.slot.isAbstract

/-- The compiler accepts the type and its base types: no slot twice, no cyclic inheritance, and
no error of the steps above. -/
def accepted : Class → Bool
  | [] => true
  | t :: bases =>
      accepted bases && t.name ∉ bases.map (·.name) && (t.declared.map (·.name)).Nodup &&
        inherit t bases && t.declared.all (checkFlags (t :: bases)) &&
        checkAbstractMethods (t :: bases)

/-! ### What is accepted -/

section

variable {t : TypeDef} {bases : Class} {d : SlotDef} {s : Slot}

/-- What it says that a type is accepted. -/
structure Accepted (t : TypeDef) (bases : Class) : Prop where
  base : accepted bases
  name : t.name ∉ bases.map (·.name)
  nodup : (t.declared.map (·.name)).Nodup
  inherit {s : Slot} (h : s ∈ slots bases) : inheritSlot t s
  known {d : SlotDef} (h : d ∈ t.declared) (ho : d.isOverride) : (overrides t bases d).isSome
  flags {d : SlotDef} (h : d ∈ t.declared) : checkFlags (t :: bases) d
  concrete : checkAbstractMethods (t :: bases)

theorem accepted_cons : accepted (t :: bases) ↔ Accepted t bases := by
  simp only [accepted, Virtual.inherit, Bool.and_eq_true, decide_eq_true_eq, List.all_eq_true,
    Bool.or_eq_true, Bool.not_eq_true']
  constructor
  · rintro ⟨⟨⟨⟨⟨hb, hn⟩, hd⟩, hi, ho⟩, hf⟩, hc⟩
    exact ⟨hb, hn, hd, fun h => hi _ h,
      fun h ho' => (ho _ h).resolve_left (by rw [ho']; exact Bool.noConfusion), fun h => hf _ h, hc⟩
  · intro h
    refine ⟨⟨⟨⟨⟨h.base, h.name⟩, h.nodup⟩, fun _ => h.inherit, fun d hd => ?_⟩,
      fun _ => h.flags⟩, h.concrete⟩
    cases ho : d.isOverride with
    | true => exact .inr (h.known hd ho)
    | false => exact .inl rfl

/-- The base types of an accepted type are accepted. -/
theorem accepted_of_append {pre : List TypeDef} {c : Class} (h : accepted (pre ++ c)) :
    accepted c := by
  induction pre with
  | nil => exact h
  | cons u pre ih => exact ih (accepted_cons.mp h).base

theorem slot_eq_some (hn : (t.declared.map (·.name)).Nodup) (hd : d ∈ t.declared) :
    t.slot d.name = some d := by
  obtain ⟨e, he⟩ := Option.isSome_iff_exists.mp
    (List.find?_isSome.mpr ⟨d, hd, decide_eq_true rfl⟩ : (t.slot d.name).isSome)
  have hmem := List.mem_of_find?_eq_some he
  have hname : e.name = d.name := by simpa using List.find?_some he
  rw [TypeDef.slot, he, List.inj_on_of_nodup_map hn hmem hd hname]

theorem mem_of_slot {n : String} (h : t.slot n = some d) : d ∈ t.declared ∧ d.name = n :=
  ⟨List.mem_of_find?_eq_some h, by simpa using List.find?_some h⟩

theorem mem_slots_cons : s ∈ slots (t :: bases) ↔
    (s.parent = t.name ∧ s.slot ∈ t.declared) ∨
      (s ∈ slots bases ∧ s.isInherited t ∧ t.slot s.name = none) := by
  rw [slots, List.mem_append, List.mem_filter, List.mem_map, Bool.and_eq_true,
    Option.isNone_iff_eq_none]
  refine or_congr ⟨?_, ?_⟩ Iff.rfl
  · rintro ⟨d, hd, rfl⟩
    exact ⟨rfl, hd⟩
  · rintro ⟨hp, hd⟩
    exact ⟨s.slot, hd, by rw [← hp]⟩

theorem overrides_eq_some (h : overrides t bases d = some s) :
    s ∈ slots bases ∧ s.isInherited t ∧ s.name = d.name := by
  have hp := List.find?_some h
  rw [Bool.and_eq_true, decide_eq_true_eq] at hp
  exact ⟨List.mem_of_find?_eq_some h, hp⟩

/-- An inherited slot of the name of a declared one is a virtual method, overridden by it. -/
theorem Accepted.overridden (h : Accepted t bases) (hd : d ∈ t.declared) (hs : s ∈ slots bases)
    (hi : s.isInherited t) (hname : s.name = d.name) :
    s.slot.isMethod ∧ s.slot.isVirtual ∧ d.isMethod ∧ d.isOverride := by
  have hok := h.inherit hs
  simp only [inheritSlot, hi, Bool.not_true, Bool.false_or, hname, slot_eq_some h.nodup hd,
    doSignaturesMatch, Bool.and_eq_true] at hok
  obtain ⟨⟨⟨⟨⟨hm, hm'⟩, -⟩, ho⟩, -⟩, hv⟩ := hok
  exact ⟨hm, hv, hm', ho⟩

end

end Sedona.Virtual
