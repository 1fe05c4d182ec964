import Sedona.Compiler.Inherit
import Mathlib.Data.List.Induction
import Mathlib.Data.List.Sort

/-!
# The step Inherit

How the compiler fills the slot tables of the types, type after type
(`sedonac.steps.Inherit`, with the order of `sedonac.steps.OrderTypes`).

The step visits the types of the kits that were read in the order of the kits and of the files in
each of them, and then the types of the source in the order of their inheritance. A slot goes
from the table of a type into the table of a type that extends it, so a table is complete only if
the table of the base type was.

## Main results

* `slot_slots` — the table that `Virtual.slots` describes has for each name the nearest slot;
* `exact_iff` — each table has the nearest slots and the errors are the wrong slots, exactly if
  nothing is lost where a base type comes after a type that extends it.
-/

namespace Sedona.InheritStep

open Virtual (TypeDef SlotDef Slot doSignaturesMatch)
open ImageGen (TypeName SlotName)

/-- A type with its base types. -/
structure TypeEntry where
  type : TypeDef
  bases : Virtual.Class
deriving DecidableEq

namespace TypeEntry

def name (e : TypeEntry) : TypeName := e.type.name

/-- `Type.qname`. -/
def qname (e : TypeEntry) : String := e.name.kit ++ "::" ++ e.name.name

def cls (e : TypeEntry) : Virtual.Class := e.type :: e.bases

/-- `Type.base`. -/
def base (e : TypeEntry) : Option TypeEntry :=
  match e.bases with
  | [] => none
  | b :: bases => some ⟨b, bases⟩

/-- `Type.declared`. -/
def declared (e : TypeEntry) : List Slot := e.type.declared.map (⟨e.name, ·⟩)

end TypeEntry

/-- The types that the compiler works on when it comes to the step. No two have a name in common
and no type declares a name twice, and the base type of a type that was read was read too. -/
structure Program where
  /-- `Compiler.kits`: the types of each kit, in the order of the files of the kit. -/
  kits : List (List TypeEntry)
  /-- `Compiler.ast.types`: the types of the source. -/
  ast : List TypeEntry
  nodup : ((kits.flatten ++ ast).map (·.name)).Nodup
  declared : ∀ e ∈ kits.flatten ++ ast, (e.type.declared.map (·.name)).Nodup
  irBase : ∀ e ∈ kits.flatten, ∀ b ∈ e.base, b ∈ kits.flatten
  astBase : ∀ e ∈ ast, ∀ b ∈ e.base, b ∈ kits.flatten ++ ast

namespace Program

def irTypes (P : Program) : List TypeEntry := P.kits.flatten

def types (P : Program) : List TypeEntry := P.irTypes ++ P.ast

/-- The type is an instance of `TypeDef`. -/
def isSource (P : Program) (n : TypeName) : Bool := P.ast.any fun e => e.name = n

end Program

/-! ### OrderTypes -/

/-- `OrderTypes.todo` and `OrderTypes.ordered`. -/
structure Ordered where
  todo : List TypeName
  ordered : List TypeEntry

/-- `OrderTypes.process`. -/
def process : Virtual.Class → Ordered → Ordered
  | [], o => o
  | t :: bases, o =>
      if t.name ∈ o.todo then
        let o := process bases o
        { todo := o.todo.erase t.name, ordered := o.ordered ++ [⟨t, bases⟩] }
      else o

/-- `OrderTypes.order`. -/
def order (types : List TypeEntry) : List TypeEntry :=
  ((types.insertionSort fun a b => a.qname ≤ b.qname).foldl (fun o e => process e.cls o)
    { todo := types.map (·.name), ordered := [] }).ordered

/-! ### Inherit -/

/-- What the step changes. -/
structure State where
  /-- `Type.slots`. -/
  slots : TypeName → List Slot
  /-- `SlotDef.overrides`. -/
  overrides : SlotName → Option Slot
  errors : List String

namespace State

/-- `Type.slot`. -/
def slot (st : State) (t : TypeName) (name : String) : Option Slot :=
  (st.slots t).find? fun s => s.name = name

/-- `Type.addSlot`. -/
def addSlot (st : State) (t : TypeName) (s : Slot) : State :=
  { st with slots := Function.update st.slots t (st.slots t ++ [s]) }

def setOverrides (st : State) (d s : Slot) : State :=
  { st with overrides := Function.update st.overrides d.id (some s) }

def err (st : State) (msg : String) : State := { st with errors := st.errors ++ [msg] }

end State

/-- `Inherit.inheritSlot` for a slot `d` of the source with the name of an inherited one. -/
def checkOverride (st : State) (d slot : Slot) : State :=
  if !doSignaturesMatch slot.slot d.slot then
    if d.slot.isOverride then
      (st.err ("Overridden method '" ++ slot.name ++ "' has different signature than '" ++
        slot.id.qname ++ "'")).setOverrides d d
    else
      (st.err ("Slot name '" ++ slot.name ++ "' conflicts with inherited slot '" ++
        slot.id.qname ++ "'")).setOverrides d d
  else if !d.slot.isOverride then
    (st.err ("Must use 'override' keyword to override '" ++ slot.id.qname ++ "'")).setOverrides d d
  else if d.slot.isAction && !slot.slot.isAction then
    st.err ("'" ++ d.id.qname ++ "' cannot be declared an action because it overrides non-action '"
      ++ slot.id.qname ++ "'")
  else if slot.slot.isAction && !d.slot.isAction then
    st.err ("'" ++ d.id.qname ++ "' must be decalred as an action because it overrides action '" ++
      slot.id.qname ++ "'")
  else if !slot.slot.isVirtual then
    (st.err ("Cannot override non-virtual method '" ++ slot.id.qname ++ "'")).setOverrides d d
  else st.setOverrides d slot

/-- `Inherit.inheritSlot`. -/
def inheritSlot (isSource : TypeName → Bool) (t : TypeDef) (st : State) (slot : Slot) : State :=
  if !slot.isInherited t then st
  else
    match st.slot t.name slot.name with
    | none => st.addSlot t.name slot
    | some declared => if isSource declared.parent then checkOverride st declared slot else st

/-- `Inherit.inherit`: everything that is marked override has to override something. -/
def checkUnknown (st : State) (d : Slot) : State :=
  if d.slot.isOverride && (st.overrides d.id).isNone then
    st.err ("Override of unknown method '" ++ d.name ++ "'")
  else st

/-- `Inherit.inherit`. -/
def inherit (isSource : TypeName → Bool) (st : State) (e : TypeEntry) : State :=
  match e.base with
  | none => st
  | some b =>
      let st := (st.slots b.name).foldl (inheritSlot isSource e.type) st
      if isSource e.name then
        ((st.slots e.name).filter fun s => s.parent = e.name).foldl checkUnknown st
      else st

namespace Program

variable (P : Program)

/-- The types have the slots that they declare. -/
def start : State where
  slots n := ((P.types.find? fun e => e.name = n).map (·.declared)).getD []
  overrides _ := none
  errors := []

/-- The types in the order in which the step comes to them. The order by inheritance of
`OrderIrTypes` is not the order of the kits, and the step does not use it. -/
def sequence : List TypeEntry := P.irTypes ++ order P.ast

/-- `Inherit.run`. -/
def run : State := P.sequence.foldl (inherit P.isSource) P.start

end Program

/-! ### What the step is for -/

/-- The slot that the nearest type at or above the first one declares, of those from which the
name is inherited type by type. -/
inductive IsNearest : Virtual.Class → String → Slot → Prop
  | declared {t : TypeDef} {bases : Virtual.Class} {d : SlotDef} (h : d ∈ t.declared) :
      IsNearest (t :: bases) d.name ⟨t.name, d⟩
  | inherited {t : TypeDef} {bases : Virtual.Class} {n : String} {s : Slot}
      (hn : ∀ d ∈ t.declared, d.name ≠ n) (hs : IsNearest bases n s) (hi : s.isInherited t) :
      IsNearest (t :: bases) n s

/-- The slot of the name comes into the type from its base type. -/
def Inherits (e : TypeEntry) (n : String) (s : Slot) : Prop :=
  IsNearest e.bases n s ∧ s.isInherited e.type

/-- The method may override the inherited slot. -/
structure Overrides (d : SlotDef) (s : Slot) : Prop where
  signature : doSignaturesMatch s.slot d
  override : d.isOverride
  action : d.isAction = s.slot.isAction
  virtual : s.slot.isVirtual

/-- The slot has the name of an inherited slot that it may not override, or it is marked override
and there is nothing to override. -/
def Wrong (e : TypeEntry) (d : SlotDef) : Prop :=
  (∃ s, Inherits e d.name s ∧ ¬ Overrides d s) ∨ (d.isOverride ∧ ∀ s, ¬ Inherits e d.name s)

/-- The tables have the nearest slots, and there is an error if a slot of the source is wrong. -/
structure Program.Exact (P : Program) : Prop where
  slots : ∀ e ∈ P.types, ∀ n s, P.run.slot e.name n = some s ↔ IsNearest e.cls n s
  errors : P.run.errors ≠ [] ↔ ∃ e ∈ P.ast, ∃ d ∈ e.type.declared, Wrong e d

/-- Where a base type comes after a type that extends it, what the base type inherits does not go
into the type; and of the slots of a type of the source without base type, one is marked override
only if a slot of a type with a base type is wrong. -/
structure Program.InOrder (P : Program) : Prop where
  bases {pre post : List TypeEntry} {e b : TypeEntry} (h : P.irTypes = pre ++ e :: post)
    (hb : e.base = some b) (hpost : b ∈ post) {n : String} {s : Slot} (hs : Inherits b n s)
    (hn : ∀ d ∈ b.type.declared, d.name ≠ n) (hi : s.isInherited e.type) :
    ∃ d ∈ e.type.declared, d.name = n
  roots {e : TypeEntry} (he : e ∈ P.ast) (hb : e.base = none) {d : SlotDef}
    (hd : d ∈ e.type.declared) (ho : d.isOverride) :
    ∃ e ∈ P.ast, e.base ≠ none ∧ ∃ d ∈ e.type.declared, Wrong e d

/-! ### The nearest slot -/

section

variable {t : TypeDef} {bases c : Virtual.Class} {n : String} {s : Slot} {d : SlotDef}
  {e b : TypeEntry}

theorem base_eq_some (h : e.base = some b) : e.bases = b.cls := by
  obtain ⟨t, _ | ⟨u, us⟩⟩ := e
  · cases h
  · cases h
    rfl

theorem base_eq_none : e.base = none ↔ e.bases = [] := by
  obtain ⟨t, _ | ⟨u, us⟩⟩ := e <;> simp [TypeEntry.base]

/-- The table of `Virtual.slots` has exactly the nearest slots. -/
theorem mem_slots_iff : s ∈ Virtual.slots c ∧ s.name = n ↔ IsNearest c n s := by
  constructor
  · rintro ⟨hs, rfl⟩
    induction c with
    | nil => cases hs
    | cons t bases ih =>
        obtain ⟨hp, hd⟩ | ⟨hs, hi, hn⟩ := Virtual.mem_slots_cons.mp hs
        · obtain ⟨p, d⟩ := s
          cases hp
          exact .declared hd
        · refine .inherited (fun d hd heq => ?_) (ih hs) hi
          simpa [heq] using List.find?_eq_none.mp hn d hd
  · intro h
    induction h with
    | declared hd => exact ⟨Virtual.mem_slots_cons.mpr (.inl ⟨rfl, hd⟩), rfl⟩
    | @inherited t bases n s hn hs hi ih =>
        refine ⟨Virtual.mem_slots_cons.mpr (.inr ⟨ih.1, hi, ?_⟩), ih.2⟩
        refine List.find?_eq_none.mpr fun d hd heq => hn d hd ?_
        rw [of_decide_eq_true heq, ih.2]

/-- No two slots of a table have a name in common. -/
theorem nodup_slots (h : ∀ t ∈ c, (t.declared.map (·.name)).Nodup) :
    ((Virtual.slots c).map (·.name)).Nodup := by
  induction c with
  | nil => exact .nil
  | cons t bases ih =>
      rw [Virtual.slots, List.map_append, List.nodup_append]
      refine ⟨?_, ?_, ?_⟩
      · rw [List.map_map]
        exact h t List.mem_cons_self
      · refine (ih fun u hu => h u (List.mem_cons_of_mem _ hu)).sublist ?_
        exact List.filter_sublist.map _
      · intro x hx y hy heq
        obtain ⟨s, hs, rfl⟩ := List.mem_map.mp hx
        obtain ⟨d, hd, rfl⟩ := List.mem_map.mp hs
        obtain ⟨s', hs', rfl⟩ := List.mem_map.mp hy
        have hnone := (List.mem_filter.mp hs').2
        rw [Bool.and_eq_true, Option.isNone_iff_eq_none] at hnone
        have := List.find?_eq_none.mp hnone.2 d hd
        exact this (decide_eq_true heq)

theorem find?_eq_some_iff {l : List Slot} (h : (l.map (·.name)).Nodup) :
    l.find? (fun s => s.name = n) = some s ↔ s ∈ l ∧ s.name = n := by
  constructor
  · intro hs
    exact ⟨List.mem_of_find?_eq_some hs, by simpa using List.find?_some hs⟩
  · rintro ⟨hs, rfl⟩
    obtain ⟨s', hs'⟩ := Option.isSome_iff_exists.mp
      (List.find?_isSome.mpr ⟨s, hs, decide_eq_true rfl⟩ :
        (l.find? fun x => x.name = s.name).isSome)
    have hname : s'.name = s.name := by simpa using List.find?_some hs'
    rw [hs', List.inj_on_of_nodup_map h (List.mem_of_find?_eq_some hs') hs hname]

theorem slot_slots (h : ∀ t ∈ c, (t.declared.map (·.name)).Nodup) :
    (Virtual.slots c).find? (fun s => s.name = n) = some s ↔ IsNearest c n s :=
  (find?_eq_some_iff (nodup_slots h)).trans mem_slots_iff

end

/-! ### What a type inherits -/

namespace State

variable {st : State} {t u : TypeName} {d s : Slot} {m : String}

@[simp] theorem addSlot_slots :
    (st.addSlot t s).slots = Function.update st.slots t (st.slots t ++ [s]) := rfl

@[simp] theorem addSlot_overrides : (st.addSlot t s).overrides = st.overrides := rfl

@[simp] theorem addSlot_errors : (st.addSlot t s).errors = st.errors := rfl

@[simp] theorem setOverrides_slots : (st.setOverrides d s).slots = st.slots := rfl

@[simp] theorem setOverrides_overrides :
    (st.setOverrides d s).overrides = Function.update st.overrides d.id (some s) := rfl

@[simp] theorem setOverrides_errors : (st.setOverrides d s).errors = st.errors := rfl

@[simp] theorem err_slots : (st.err m).slots = st.slots := rfl

@[simp] theorem err_overrides : (st.err m).overrides = st.overrides := rfl

@[simp] theorem err_errors : (st.err m).errors = st.errors ++ [m] := rfl

end State

/-- What a check of a slot of the source can change: there is an error if it finds something
wrong, and only the slot itself gets to know what it overrides. -/
structure Checked (ok : Prop) (d : Slot) (st st' : State) : Prop where
  slots : st'.slots = st.slots
  errors : st'.errors = [] ↔ st.errors = [] ∧ ok
  overrides (ho : (st.overrides d.id).isSome ∨ ok) : (st'.overrides d.id).isSome
  others (id : SlotName) (hid : id ≠ d.id) : st'.overrides id = st.overrides id

section

variable {isSource : TypeName → Bool} {st : State} {e : TypeEntry} {d s : Slot} {B : List Slot}

/-- An override of the slot of the base type. -/
theorem checked_checkOverride : Checked (Overrides d.slot s) d st (checkOverride st d s) := by
  have hid : ∀ (st : State) (x : Slot) (id : SlotName), id ≠ d.id →
      (st.setOverrides d x).overrides id = st.overrides id :=
    fun st x id h => Function.update_of_ne h _ _
  have hself : ∀ (st : State) (x : Slot), ((st.setOverrides d x).overrides d.id).isSome :=
    fun st x => by rw [State.setOverrides_overrides, Function.update_self, Option.isSome_some]
  unfold checkOverride
  split
  · rename_i hsig
    have hno : ¬ Overrides d.slot s := fun h => by simp [h.signature] at hsig
    split <;> exact ⟨rfl, by simp [hno], fun _ => hself _ _, fun _ h => hid _ _ _ h⟩
  split
  · rename_i hov
    have hno : ¬ Overrides d.slot s := fun h => by simp [h.override] at hov
    exact ⟨rfl, by simp [hno], fun _ => hself _ _, fun _ h => hid _ _ _ h⟩
  split
  · rename_i hact
    have hno : ¬ Overrides d.slot s := fun h => by simp [h.action] at hact
    exact ⟨rfl, by simp [hno], fun h => h.resolve_right hno, fun _ _ => rfl⟩
  split
  · rename_i hact
    have hno : ¬ Overrides d.slot s := fun h => by simp [h.action] at hact
    exact ⟨rfl, by simp [hno], fun h => h.resolve_right hno, fun _ _ => rfl⟩
  split
  · rename_i hvirt
    have hno : ¬ Overrides d.slot s := fun h => by simp [h.virtual] at hvirt
    exact ⟨rfl, by simp [hno], fun _ => hself _ _, fun _ h => hid _ _ _ h⟩
  · rename_i hsig hov hact hact' hvirt
    have hok : Overrides d.slot s := by
      refine ⟨by simpa using hsig, by simpa using hov, ?_, by simpa using hvirt⟩
      cases hd : d.slot.isAction <;> cases hs : s.slot.isAction <;> simp_all
    exact ⟨rfl, by simp [hok], fun _ => hself _ _, fun _ h => hid _ _ _ h⟩

/-- The slots of the base type that go into the type. -/
def inherited (t : TypeDef) (B : List Slot) : List Slot :=
  B.filter fun s => s.isInherited t && (t.slot s.name).isNone

/-- The type and the step have come to the slots `B` of the base type. -/
structure Filled (isSource : TypeName → Bool) (e : TypeEntry) (B : List Slot)
    (st st' : State) : Prop where
  slots : st'.slots = Function.update st.slots e.name (e.declared ++ inherited e.type B)
  errors : st'.errors = [] ↔
    st.errors = [] ∧ (isSource e.name → ∀ s ∈ B, Virtual.inheritSlot e.type s)
  ours {d : SlotDef} (h : (st'.overrides ⟨e.name, d.name⟩).isSome) :
    ∃ s ∈ B, s.isInherited e.type ∧ s.name = d.name
  known (h : isSource e.name) (hok : ∀ s ∈ B, Virtual.inheritSlot e.type s) {d : SlotDef}
    (hd : d ∈ e.type.declared) {s : Slot} (hs : s ∈ B) (hi : s.isInherited e.type)
    (hn : s.name = d.name) : (st'.overrides ⟨e.name, d.name⟩).isSome
  others (id : SlotName) (hid : id.parent ≠ e.name) : st'.overrides id = st.overrides id

theorem slot_declared {n : String} (h : st.slots e.name = e.declared ++ inherited e.type B)
    (hn : n ∉ B.map (·.name)) : st.slot e.name n = (e.type.slot n).map (⟨e.name, ·⟩) := by
  have hnone : (inherited e.type B).find? (fun s => s.name = n) = none := by
    refine List.find?_eq_none.mpr fun s hs heq => hn ?_
    exact List.mem_map.mpr ⟨s, (List.mem_filter.mp hs).1, of_decide_eq_true heq⟩
  rw [State.slot, h, List.find?_append, hnone, Option.or_none, TypeEntry.declared, List.find?_map]
  rfl

theorem virtual_inheritSlot {d : SlotDef} (hi : s.isInherited e.type)
    (hd : e.type.slot s.name = some d) : Virtual.inheritSlot e.type s ↔ Overrides d s := by
  simp only [Virtual.inheritSlot, hi, hd, Bool.not_true, Bool.false_or, Bool.and_eq_true,
    beq_iff_eq]
  constructor
  · rintro ⟨⟨⟨hsig, hover⟩, haction⟩, hvirtual⟩
    exact ⟨hsig, hover, haction, hvirtual⟩
  · exact fun h => ⟨⟨⟨h.signature, h.override⟩, h.action⟩, h.virtual⟩

theorem inherited_append_of_neg
    (h : (s.isInherited e.type && (e.type.slot s.name).isNone) = false) :
    inherited e.type (B ++ [s]) = inherited e.type B := by
  rw [inherited, List.filter_append, List.filter_cons_of_neg (by simp [h]), List.filter_nil,
    List.append_nil, ← inherited]

/-- A slot of the base type that changes nothing: the step goes on as if it was not there. -/
theorem Filled.skip {st' : State} (h : Filled isSource e B st st')
    (hf : (s.isInherited e.type && (e.type.slot s.name).isNone) = false)
    (hok : isSource e.name → Virtual.inheritSlot e.type s)
    (hsrc : isSource e.name → ¬ s.isInherited e.type) : Filled isSource e (B ++ [s]) st st' where
  slots := by rw [inherited_append_of_neg hf, h.slots]
  errors := by
    rw [h.errors]
    refine and_congr_right fun _ => forall_congr' fun hs => ?_
    rw [List.forall_mem_append, List.forall_mem_singleton]
    exact (and_iff_left (hok hs)).symm
  ours ho := by
    obtain ⟨x, hx, hi⟩ := h.ours ho
    exact ⟨x, List.mem_append_left _ hx, hi⟩
  known hs hok d hd x hx hi hn := by
    obtain hx | hx := List.mem_append.mp hx
    · exact h.known hs (fun y hy => hok y (List.mem_append_left _ hy)) hd hx hi hn
    · rw [List.mem_singleton.mp hx] at hi
      exact absurd hi (hsrc hs)
  others := h.others

/-- A slot of the base type that the type does not declare. -/
theorem Filled.add {st' : State} (h : Filled isSource e B st st') (hi : s.isInherited e.type)
    (hd : e.type.slot s.name = none) :
    Filled isSource e (B ++ [s]) st (st'.addSlot e.name s) where
  slots := by
    have hf : inherited e.type (B ++ [s]) = inherited e.type B ++ [s] := by
      rw [inherited, List.filter_append, List.filter_cons_of_pos (by simp [hi, hd]),
        List.filter_nil, ← inherited]
    rw [State.addSlot_slots, h.slots, Function.update_self, Function.update_idem, hf,
      List.append_assoc]
  errors := by
    rw [State.addSlot_errors, h.errors]
    refine and_congr_right fun _ => forall_congr' fun hs => ?_
    rw [List.forall_mem_append, List.forall_mem_singleton]
    exact (and_iff_left (by simp [Virtual.inheritSlot, hd])).symm
  ours ho := by
    obtain ⟨x, hx, hi⟩ := h.ours ho
    exact ⟨x, List.mem_append_left _ hx, hi⟩
  known hs hok d hd' x hx hi hn := by
    obtain hx | hx := List.mem_append.mp hx
    · exact h.known hs (fun y hy => hok y (List.mem_append_left _ hy)) hd' hx hi hn
    · rw [List.mem_singleton.mp hx] at hn
      exact absurd (decide_eq_true hn.symm) (List.find?_eq_none.mp hd d hd')
  others := h.others

/-- A slot of the base type that the type overrides, or tries to. -/
theorem Filled.check {st' : State} (h : Filled isSource e B st st') {d : SlotDef}
    (hs : isSource e.name) (hi : s.isInherited e.type) (hd : e.type.slot s.name = some d) :
    Filled isSource e (B ++ [s]) st (checkOverride st' ⟨e.name, d⟩ s) := by
  have hc : Checked (Overrides d s) ⟨e.name, d⟩ st' (checkOverride st' ⟨e.name, d⟩ s) :=
    @checked_checkOverride st' ⟨e.name, d⟩ s
  have hname : d.name = s.name := (Virtual.mem_of_slot hd).2
  refine ⟨?_, ?_, fun {d'} ho => ?_, fun _ hok d' hd' x hx hix hn => ?_, fun id hid => ?_⟩
  · rw [hc.slots, h.slots, inherited_append_of_neg (by simp [hd])]
  · rw [hc.errors, h.errors, and_assoc]
    refine and_congr_right fun _ => ?_
    simp only [hs, true_imp_iff, List.forall_mem_append, List.forall_mem_singleton,
      virtual_inheritSlot hi hd]
  · by_cases heq : d'.name = d.name
    · exact ⟨s, List.mem_append_right _ (List.mem_singleton_self s), hi, by rw [heq, hname]⟩
    · rw [hc.others _ fun h => heq (congrArg SlotName.name h)] at ho
      obtain ⟨x, hx, hi⟩ := h.ours ho
      exact ⟨x, List.mem_append_left _ hx, hi⟩
  · have hok' : ∀ y ∈ B, Virtual.inheritSlot e.type y :=
      fun y hy => hok y (List.mem_append_left _ hy)
    have hov := (virtual_inheritSlot hi hd).mp
      (hok s (List.mem_append_right _ (List.mem_singleton_self s)))
    by_cases heq : d'.name = d.name
    · rw [heq]
      exact hc.overrides (.inr hov)
    · rw [hc.others _ fun h => heq (congrArg SlotName.name h)]
      obtain hx | hx := List.mem_append.mp hx
      · exact h.known hs hok' hd' hx hix hn
      · rw [List.mem_singleton.mp hx] at hn
        exact absurd (hn.symm.trans hname.symm) heq
  · rw [hc.others id fun h => hid (congrArg SlotName.parent h), h.others id hid]

/-- What the type has after the slots of the base type were visited. -/
theorem filled_foldl (hB : (B.map (·.name)).Nodup) (h : st.slots e.name = e.declared)
    (ho : ∀ n, st.overrides ⟨e.name, n⟩ = none) :
    Filled isSource e B st (B.foldl (inheritSlot isSource e.type) st) := by
  induction B using List.reverseRecOn with
  | nil =>
      refine ⟨?_, by simp, fun hd => ?_, fun _ _ _ _ s hs => absurd hs List.not_mem_nil,
        fun _ _ => rfl⟩
      · rw [inherited, List.filter_nil, List.append_nil, ← h, Function.update_eq_self]
        rfl
      · rw [List.foldl_nil, ho, Option.isSome_none] at hd
        exact Bool.noConfusion hd
  | append_singleton B s ih =>
      rw [List.map_append, List.nodup_append] at hB
      have hfill := ih hB.1
      have hs : s.name ∉ B.map (·.name) := fun hs => hB.2.2 _ hs _ (List.mem_singleton_self _) rfl
      rw [List.foldl_append, List.foldl_cons, List.foldl_nil]
      generalize B.foldl (inheritSlot isSource e.type) st = st' at hfill
      have hslot : st'.slot e.name s.name = (e.type.slot s.name).map (⟨e.name, ·⟩) :=
        slot_declared (by rw [hfill.slots, Function.update_self]) hs
      unfold inheritSlot
      split
      · rename_i hi
        rw [Bool.not_eq_true'] at hi
        refine hfill.skip (by rw [hi, Bool.false_and]) (fun _ => ?_) (fun _ => by simp [hi])
        simp [Virtual.inheritSlot, hi]
      rename_i hi
      rw [Bool.not_eq_true', Bool.not_eq_false] at hi
      rw [show e.type.name = e.name from rfl, hslot]
      cases hd : e.type.slot s.name with
      | none => exact hfill.add hi hd
      | some d =>
          simp only [Option.map_some]
          split
          · rename_i hsrc
            exact hfill.check hsrc hi hd
          · rename_i hsrc
            exact hfill.skip (by simp [hd]) (fun h => absurd h hsrc) fun h => absurd h hsrc

/-- `Inherit.inherit` checks that everything that is marked override overrides something. -/
theorem foldl_checkUnknown {l : List Slot} :
    (l.foldl checkUnknown st).slots = st.slots ∧
      (l.foldl checkUnknown st).overrides = st.overrides ∧
        ((l.foldl checkUnknown st).errors = [] ↔
          st.errors = [] ∧ ∀ d ∈ l, d.slot.isOverride → (st.overrides d.id).isSome) := by
  induction l generalizing st with
  | nil => simp
  | cons d l ih =>
      have hstep : (checkUnknown st d).slots = st.slots ∧
          (checkUnknown st d).overrides = st.overrides ∧
            ((checkUnknown st d).errors = [] ↔
              st.errors = [] ∧ (d.slot.isOverride → (st.overrides d.id).isSome)) := by
        unfold checkUnknown
        cases hd : d.slot.isOverride <;> cases ho : st.overrides d.id <;> simp
      obtain ⟨hslots, hover, herr⟩ := hstep
      rw [List.foldl_cons, ih.1, ih.2.1, ih.2.2, hslots, hover, herr, List.forall_mem_cons,
        and_assoc]
      exact ⟨rfl, rfl, Iff.rfl⟩

/-- The table of the base type. -/
def baseSlots (st : State) (e : TypeEntry) : List Slot :=
  match e.base with
  | none => []
  | some b => st.slots b.name

/-- There is no error about the type if its base type has the slots `B`. -/
structure Fine (t : TypeDef) (B : List Slot) : Prop where
  overridden : ∀ s ∈ B, Virtual.inheritSlot t s
  known : ∀ d ∈ t.declared, d.isOverride → ∃ s ∈ B, s.isInherited t ∧ s.name = d.name

/-- What the step does with one type. -/
structure Inherited (isSource : TypeName → Bool) (e : TypeEntry) (st st' : State) : Prop where
  slots : st'.slots = Function.update st.slots e.name
    (e.declared ++ inherited e.type (baseSlots st e))
  errors : st'.errors = [] ↔
    st.errors = [] ∧ (e.base ≠ none → isSource e.name → Fine e.type (baseSlots st e))
  others (id : SlotName) (hid : id.parent ≠ e.name) : st'.overrides id = st.overrides id

theorem inherited_inherit (hB : ((baseSlots st e).map (·.name)).Nodup)
    (hp : ∀ s ∈ baseSlots st e, s.parent ≠ e.name) (h : st.slots e.name = e.declared)
    (ho : ∀ n, st.overrides ⟨e.name, n⟩ = none) :
    Inherited isSource e st (inherit isSource st e) := by
  unfold inherit
  cases hb : e.base with
  | none =>
      have hbase : baseSlots st e = [] := by rw [baseSlots, hb]
      refine ⟨?_, by simp [hb], fun _ _ => rfl⟩
      rw [hbase, inherited, List.filter_nil, List.append_nil, ← h, Function.update_eq_self]
  | some b =>
      have hbase : baseSlots st e = st.slots b.name := by rw [baseSlots, hb]
      rw [hbase] at hB hp
      have hfill : Filled isSource e _ st _ := filled_foldl hB h ho
      dsimp only
      generalize (st.slots b.name).foldl (inheritSlot isSource e.type) st = st' at hfill ⊢
      split
      · rename_i hsrc
        have hdefs : (st'.slots e.name).filter (fun s => s.parent = e.name) = e.declared := by
          rw [hfill.slots, Function.update_self, List.filter_append,
            List.filter_eq_self.mpr (by simp [TypeEntry.declared]),
            List.filter_eq_nil_iff.mpr, List.append_nil]
          intro s hs
          simpa using hp s (List.mem_filter.mp hs).1
        rw [hdefs]
        have hslots := (@foldl_checkUnknown st' e.declared).1
        obtain ⟨hover, herr⟩ := (@foldl_checkUnknown st' e.declared).2
        refine ⟨by rw [hslots, hfill.slots, hbase], ?_, fun id hid => ?_⟩
        · rw [herr, hfill.errors, hbase, and_assoc]
          refine and_congr_right fun _ => ?_
          simp only [hb, hsrc, ne_eq, reduceCtorEq, not_false_eq_true, true_imp_iff]
          constructor
          · rintro ⟨hok, hall⟩
            refine ⟨hok, fun d hd hov => hfill.ours (hall ⟨e.name, d⟩ ?_ hov)⟩
            exact List.mem_map_of_mem hd
          · rintro ⟨hok, hall⟩
            refine ⟨hok, fun x hx hov => ?_⟩
            obtain ⟨d, hd, rfl⟩ := List.mem_map.mp hx
            obtain ⟨s, hs, hi, hn⟩ := hall d hd hov
            exact hfill.known hsrc hok hd hs hi hn
        · rw [hover, hfill.others id hid]
      · rename_i hsrc
        refine ⟨by rw [hfill.slots, hbase], ?_, hfill.others⟩
        rw [hfill.errors]
        simp [hsrc]

end

/-! ### The order -/

section

variable {P : Program} {e e' b : TypeEntry} {c : Virtual.Class} {o : Ordered}

theorem eq_of_name (he : e ∈ P.types) (he' : e' ∈ P.types) (h : e.name = e'.name) : e = e' :=
  List.inj_on_of_nodup_map P.nodup he he' h

theorem base_mem (he : e ∈ P.types) (hb : e.base = some b) : b ∈ P.types := by
  obtain he | he := List.mem_append.mp he
  · exact List.mem_append_left _ (P.irBase e he b hb)
  · exact P.astBase e he b hb

/-- The base types of a type of the program are types of the program. -/
theorem mem_types_of_append {pre bases : List TypeDef} {t : TypeDef} (he : e ∈ P.types)
    (h : e.bases = pre ++ t :: bases) : ⟨t, bases⟩ ∈ P.types := by
  induction pre generalizing e with
  | nil => exact base_mem he (by rw [TypeEntry.base, h, List.nil_append])
  | cons u pre ih =>
      have hb : e.base = some ⟨u, pre ++ t :: bases⟩ := by rw [TypeEntry.base, h, List.cons_append]
      exact ih (base_mem he hb) rfl

theorem exists_of_mem_bases {t : TypeDef} (he : e ∈ P.types) (ht : t ∈ e.bases) :
    ∃ bases, ⟨t, bases⟩ ∈ P.types ∧ bases.length < e.bases.length := by
  obtain ⟨pre, bases, heq⟩ := List.append_of_mem ht
  refine ⟨bases, mem_types_of_append he heq, ?_⟩
  rw [heq, List.length_append, List.length_cons]
  omega

/-- No type extends itself. -/
theorem name_ne_of_mem_bases {t : TypeDef} (he : e ∈ P.types) (ht : t ∈ e.bases) :
    t.name ≠ e.name := by
  obtain ⟨bases, hmem, hlt⟩ := exists_of_mem_bases he ht
  intro heq
  rw [← eq_of_name hmem he heq] at hlt
  exact lt_irrefl _ hlt

theorem declared_of_mem_cls {t : TypeDef} (he : e ∈ P.types) (ht : t ∈ e.cls) :
    (t.declared.map (·.name)).Nodup := by
  obtain rfl | ht := List.mem_cons.mp ht
  · exact P.declared e he
  · obtain ⟨bases, hmem, -⟩ := exists_of_mem_bases he ht
    exact P.declared _ hmem

/-- What is so after each call of `process`: the types of the source are in the one list or in the
other, and each of those in order comes after its base type. -/
structure Ordered.Inv (P : Program) (o : Ordered) : Prop where
  mem {e : TypeEntry} (he : e ∈ P.ast) : e.name ∈ o.todo ∨ e ∈ o.ordered
  ordered {e : TypeEntry} (he : e ∈ o.ordered) : e ∈ P.ast ∧ e.name ∉ o.todo
  todo {n : TypeName} (hn : n ∈ o.todo) : n ∈ P.ast.map (·.name)
  nodup : o.todo.Nodup ∧ o.ordered.Nodup
  bases {pre post : List TypeEntry} {e b : TypeEntry} (h : o.ordered = pre ++ e :: post)
    (hb : e.base = some b) (hast : b ∈ P.ast) : b ∈ pre

theorem mem_todo_process {n : TypeName} (hn : n ∈ o.todo) (hc : n ∉ c.map (·.name)) :
    n ∈ (process c o).todo := by
  induction c generalizing o with
  | nil => exact hn
  | cons t bases ih =>
      rw [List.map_cons, List.mem_cons, not_or] at hc
      unfold process
      split
      · exact (List.mem_erase_of_ne hc.1).mpr (ih hn hc.2)
      · exact hn

/-- A type comes last, after its base type. -/
theorem Ordered.Inv.add (h : o.Inv P) (he : e ∈ P.ast) (hin : e.name ∈ o.todo)
    (hbase : ∀ b ∈ e.base, b.name ∉ o.todo) :
    Inv P { todo := o.todo.erase e.name, ordered := o.ordered ++ [e] } where
  mem {x} hx := by
    rw [List.mem_append]
    by_cases heq : x.name = e.name
    · have hxe : x = e :=
        eq_of_name (List.mem_append_right _ hx) (List.mem_append_right _ he) heq
      exact .inr (.inr (List.mem_singleton.mpr hxe))
    · exact (h.mem hx).imp (List.mem_erase_of_ne heq).mpr .inl
  ordered {x} hx := by
    obtain hx | hx := List.mem_append.mp hx
    · exact ⟨(h.ordered hx).1, fun hn => (h.ordered hx).2 (List.mem_of_mem_erase hn)⟩
    · rw [List.mem_singleton.mp hx]
      exact ⟨he, h.nodup.1.not_mem_erase⟩
  todo hn := h.todo (List.mem_of_mem_erase hn)
  nodup := by
    refine ⟨h.nodup.1.erase _, List.nodup_append.mpr ⟨h.nodup.2, List.nodup_singleton _, ?_⟩⟩
    rintro x hx y hy rfl
    rw [List.mem_singleton.mp hy] at hx
    exact (h.ordered hx).2 hin
  bases {pre post x b} heq hb hast := by
    obtain rfl | ⟨post', y, rfl⟩ := List.eq_nil_or_concat post
    · obtain ⟨rfl, rfl⟩ := List.append_inj' heq rfl
        |>.imp id fun h => (List.cons.inj h).1
      exact (h.mem hast).resolve_left (hbase b hb)
    · rw [List.concat_eq_append, ← List.cons_append, ← List.append_assoc] at heq
      exact h.bases (List.append_inj' heq rfl).1 hb hast

theorem Ordered.Inv.process (h : o.Inv P) (hc : c = [] ∨ ∃ e ∈ P.types, e.cls = c) :
    (process c o).Inv P ∧ (process c o).todo ⊆ o.todo ∧
      ∀ t bases, c = t :: bases → t.name ∉ (process c o).todo := by
  induction c generalizing o with
  | nil => exact ⟨h, fun _ => id, fun _ _ h => (List.cons_ne_nil _ _ h.symm).elim⟩
  | cons t bases ih =>
      obtain ⟨e, he, hcls⟩ := hc.resolve_left (List.cons_ne_nil _ _)
      obtain ⟨rfl, rfl⟩ := List.cons.inj hcls
      unfold InheritStep.process
      split
      · rename_i hin
        have hbases : e.bases = [] ∨ ∃ b ∈ P.types, b.cls = e.bases := by
          cases hb : e.base with
          | none => exact .inl (base_eq_none.mp hb)
          | some b => exact .inr ⟨b, base_mem he hb, (base_eq_some hb).symm⟩
        obtain ⟨hinv, hsub, hnot⟩ := ih h hbases
        dsimp only
        have hkept : e.name ∈ (InheritStep.process e.bases o).todo := by
          refine mem_todo_process hin fun hmem => ?_
          obtain ⟨t, ht, hname⟩ := List.mem_map.mp hmem
          exact name_ne_of_mem_bases he ht hname
        obtain ⟨x, hx, hname⟩ := List.mem_map.mp (h.todo hin)
        have hast : e ∈ P.ast := by
          rwa [← eq_of_name (List.mem_append_right _ hx) he hname]
        refine ⟨hinv.add hast hkept fun b hb => ?_, fun n hn => ?_, fun t bases heq => ?_⟩
        · exact hnot b.type b.bases (base_eq_some hb)
        · exact hsub (List.mem_of_mem_erase hn)
        · rw [← (List.cons.inj heq).1]
          exact hinv.nodup.1.not_mem_erase
      · rename_i hin
        refine ⟨h, fun _ => id, fun t bases heq => ?_⟩
        rwa [← (List.cons.inj heq).1]

theorem inv_order : (⟨[], order P.ast⟩ : Ordered).Inv P := by
  set sorted := P.ast.insertionSort fun a b => a.qname ≤ b.qname with hs
  have hmem : ∀ e, e ∈ sorted ↔ e ∈ P.ast := fun e => (List.perm_insertionSort _ _).mem_iff
  have hstart : (⟨P.ast.map (·.name), []⟩ : Ordered).Inv P := by
    refine ⟨fun he => .inl (List.mem_map_of_mem he), fun he => absurd he List.not_mem_nil,
      fun hn => hn, ⟨?_, .nil⟩, fun heq => ?_⟩
    · exact (List.nodup_append.mp (List.map_append ▸ P.nodup)).2.1
    · exact absurd heq (by simp)
  have hfold : ∀ (l : List TypeEntry) (o : Ordered), (∀ e ∈ l, e ∈ P.ast) → o.Inv P →
      (l.foldl (fun o e => process e.cls o) o).Inv P ∧
        (l.foldl (fun o e => process e.cls o) o).todo ⊆ o.todo ∧
        ∀ e ∈ l, e.name ∉ (l.foldl (fun o e => process e.cls o) o).todo := by
    intro l
    induction l with
    | nil => exact fun o _ ho => ⟨ho, fun _ => id, fun e he => absurd he List.not_mem_nil⟩
    | cons e l ih =>
        intro o hl ho
        rw [List.forall_mem_cons] at hl
        obtain ⟨hinv, hsub, hnot⟩ :=
          ho.process (.inr ⟨e, List.mem_append_right _ hl.1, rfl⟩)
        obtain ⟨ihinv, ihsub, ihnot⟩ := ih (process e.cls o) hl.2 hinv
        refine ⟨ihinv, fun n hn => hsub (ihsub hn), ?_⟩
        exact List.forall_mem_cons.mpr ⟨fun h => hnot _ _ rfl (ihsub h), ihnot⟩
  obtain ⟨hinv, -, hnot⟩ := hfold sorted _ (fun e he => (hmem e).mp he) hstart
  have htodo : ∀ n, n ∉ (sorted.foldl (fun o e => process e.cls o)
      (⟨P.ast.map (·.name), []⟩ : Ordered)).todo := by
    intro n hn
    obtain ⟨e, he, rfl⟩ := List.mem_map.mp (hinv.todo hn)
    exact hnot e ((hmem e).mpr he) hn
  rw [← List.eq_nil_iff_forall_not_mem] at htodo
  rwa [order, ← hs, ← htodo]

end

/-! ### The run -/

section

variable {P : Program} {e b : TypeEntry} {pre post : List TypeEntry} {st : State}

theorem isSource_iff (he : e ∈ P.types) : P.isSource e.name ↔ e ∈ P.ast := by
  rw [Program.isSource, List.any_eq_true]
  constructor
  · rintro ⟨x, hx, heq⟩
    rwa [← eq_of_name (List.mem_append_right _ hx) he (of_decide_eq_true heq)]
  · exact fun h => ⟨e, h, decide_eq_true rfl⟩

theorem mem_sequence : e ∈ P.sequence ↔ e ∈ P.types := by
  rw [Program.sequence, Program.types, List.mem_append, List.mem_append]
  refine or_congr_right ⟨fun h => (inv_order.ordered h).1, fun h => ?_⟩
  exact (inv_order.mem h).resolve_left List.not_mem_nil

theorem nodup_types : P.types.Nodup := P.nodup.of_map

theorem nodup_sequence : P.sequence.Nodup := by
  obtain ⟨hir, -, hdisj⟩ := List.nodup_append.mp (nodup_types (P := P))
  exact List.nodup_append.mpr
    ⟨hir, inv_order.nodup.2, fun a ha b hb => hdisj a ha b (inv_order.ordered hb).1⟩

/-- A type of the source comes after its base type. -/
theorem base_mem_pre (h : P.sequence = pre ++ e :: post) (he : e ∈ P.ast)
    (hb : e.base = some b) : b ∈ pre := by
  obtain ⟨l, hl, hpost⟩ | ⟨l, hl, hpost⟩ := List.append_eq_append_iff.mp h
  · obtain hir | hast := List.mem_append.mp (P.astBase e he b hb)
    · rw [hl]
      exact List.mem_append_left _ hir
    · rw [hl]
      exact List.mem_append_right _ (inv_order.bases hpost hb hast)
  · cases l with
    | nil =>
        rw [List.append_nil] at hl
        obtain hir | hast := List.mem_append.mp (P.astBase e he b hb)
        · subst hl
          exact hir
        · have hmem : b ∈ [] := inv_order.bases hpost.symm hb hast
          exact absurd hmem List.not_mem_nil
    | cons x l =>
        obtain ⟨rfl, -⟩ := List.cons.inj hpost
        have hir : e ∈ P.irTypes := by rw [hl]; simp
        exact absurd rfl ((List.nodup_append.mp nodup_types).2.2 e hir e he)

/-- What is so after the step has come to the types of `pre`. -/
structure Run (P : Program) (pre : List TypeEntry) (st : State) : Prop where
  parents {e : TypeEntry} (he : e ∈ P.types) : ∀ s ∈ st.slots e.name, s.parent ∈ e.cls.map (·.name)
  nodup {e : TypeEntry} (he : e ∈ P.types) : ((st.slots e.name).map (·.name)).Nodup
  todo {e : TypeEntry} (he : e ∈ P.types) (hpre : e ∉ pre) :
    st.slots e.name = e.declared ∧ ∀ n, st.overrides ⟨e.name, n⟩ = none

theorem nodup_declared (he : e ∈ P.types) : (e.declared.map (·.name)).Nodup := by
  rw [TypeEntry.declared, List.map_map]
  exact P.declared e he

theorem run_start : Run P [] P.start := by
  have hslots : ∀ {e}, e ∈ P.types → P.start.slots e.name = e.declared := by
    intro e he
    obtain ⟨x, hx⟩ := Option.isSome_iff_exists.mp
      (List.find?_isSome.mpr ⟨e, he, decide_eq_true rfl⟩ :
        (P.types.find? fun x => x.name = e.name).isSome)
    have hname : x.name = e.name := by simpa using List.find?_some hx
    rw [eq_of_name (List.mem_of_find?_eq_some hx) he hname] at hx
    simp [Program.start, hx]
  refine ⟨fun he s hs => ?_, fun he => ?_, fun he _ => ⟨hslots he, fun _ => rfl⟩⟩
  · rw [hslots he] at hs
    obtain ⟨d, -, rfl⟩ := List.mem_map.mp hs
    exact List.mem_cons_self
  · rw [hslots he]
    exact nodup_declared he

theorem Run.base (h : Run P pre st) (he : e ∈ P.types) :
    ((baseSlots st e).map (·.name)).Nodup ∧
      ∀ s ∈ baseSlots st e, s.parent ∈ e.bases.map (·.name) := by
  unfold baseSlots
  cases hb : e.base with
  | none => exact ⟨.nil, fun s hs => absurd hs List.not_mem_nil⟩
  | some b =>
      rw [base_eq_some hb]
      exact ⟨h.nodup (base_mem he hb), h.parents (base_mem he hb)⟩

theorem Run.inherited (h : Run P pre st) (he : e ∈ P.types) (hpre : e ∉ pre) :
    Inherited P.isSource e st (inherit P.isSource st e) := by
  obtain ⟨hn, hp⟩ := h.base he
  refine inherited_inherit hn (fun s hs heq => ?_) (h.todo he hpre).1 (h.todo he hpre).2
  obtain ⟨t, ht, hname⟩ := List.mem_map.mp (hp s hs)
  exact name_ne_of_mem_bases he ht (hname.trans heq)

/-- The table of another type is as it was. -/
theorem Run.slots_of_ne {x : TypeEntry} (h : Run P pre st) (he : e ∈ P.types) (hpre : e ∉ pre)
    (hx : x ∈ P.types) (hne : x ≠ e) : (inherit P.isSource st e).slots x.name = st.slots x.name := by
  rw [(h.inherited he hpre).slots]
  exact Function.update_of_ne (fun heq => hne (eq_of_name hx he heq)) _ _

theorem Run.next (h : Run P pre st) (he : e ∈ P.types) (hpre : e ∉ pre) :
    Run P (pre ++ [e]) (inherit P.isSource st e) := by
  have hstep := h.inherited he hpre
  obtain ⟨hn, hp⟩ := h.base he
  have hself : (inherit P.isSource st e).slots e.name =
      e.declared ++ InheritStep.inherited e.type (baseSlots st e) := by
    rw [hstep.slots, Function.update_self]
  refine ⟨fun {x} hx s hs => ?_, fun {x} hx => ?_, fun {x} hx hxpre => ?_⟩
  · by_cases hxe : x = e
    · subst hxe
      rw [hself] at hs
      obtain hs | hs := List.mem_append.mp hs
      · obtain ⟨d, -, rfl⟩ := List.mem_map.mp hs
        exact List.mem_cons_self
      · exact List.mem_cons_of_mem _ (hp s (List.mem_filter.mp hs).1)
    · rw [h.slots_of_ne he hpre hx hxe] at hs
      exact h.parents hx s hs
  · by_cases hxe : x = e
    · subst hxe
      rw [hself, List.map_append, List.nodup_append]
      refine ⟨nodup_declared hx, hn.sublist (List.filter_sublist.map _), ?_⟩
      rintro a ha b hb rfl
      obtain ⟨s, hs, hname⟩ := List.mem_map.mp hb
      obtain ⟨y, hy, hyname⟩ := List.mem_map.mp ha
      obtain ⟨d, hd, rfl⟩ := List.mem_map.mp hy
      have hnone := (List.mem_filter.mp hs).2
      rw [Bool.and_eq_true, Option.isNone_iff_eq_none] at hnone
      exact List.find?_eq_none.mp hnone.2 d hd (decide_eq_true (hyname.trans hname.symm))
    · rw [h.slots_of_ne he hpre hx hxe]
      exact h.nodup hx
  · rw [List.mem_append, List.mem_singleton, not_or] at hxpre
    obtain ⟨hslots, hover⟩ := h.todo hx hxpre.1
    refine ⟨by rw [h.slots_of_ne he hpre hx hxpre.2, hslots], fun n => ?_⟩
    rw [hstep.others _ fun heq => hxpre.2 (eq_of_name hx he heq), hover]

/-- What the step has made when it has come to the types of `pre`. -/
def Program.after (P : Program) (pre : List TypeEntry) : State :=
  pre.foldl (inherit P.isSource) P.start

theorem Program.after_append : P.after (pre ++ [e]) = inherit P.isSource (P.after pre) e :=
  List.foldl_concat ..

theorem not_mem_pre (h : P.sequence = pre ++ e :: post) : e ∈ P.types ∧ e ∉ pre := by
  refine ⟨mem_sequence.mp (by rw [h]; simp), fun hpre => ?_⟩
  have := nodup_sequence (P := P)
  rw [h] at this
  exact (List.nodup_append.mp this).2.2 e hpre e List.mem_cons_self rfl

/-- **The step keeps to what it has come to.** -/
theorem run_after (h : P.sequence = pre ++ post) : Run P pre (P.after pre) := by
  induction pre using List.reverseRecOn generalizing post with
  | nil => exact run_start
  | append_singleton pre e ih =>
      rw [List.append_assoc] at h
      obtain ⟨he, hpre⟩ := not_mem_pre h
      rw [Program.after_append]
      exact (ih h).next he hpre

/-- A type keeps the table that it got. -/
theorem slots_run (h : P.sequence = pre ++ post) (he : e ∈ pre) :
    P.run.slots e.name = (P.after pre).slots e.name := by
  induction post generalizing pre with
  | nil =>
      rw [List.append_nil] at h
      rw [← h]
      rfl
  | cons x post ih =>
      obtain ⟨hx, hpre⟩ := not_mem_pre h
      have het : e ∈ P.types := mem_sequence.mp (by rw [h]; exact List.mem_append_left _ he)
      have hnext : P.sequence = (pre ++ [x]) ++ post := by rw [h, List.append_assoc]; rfl
      rw [ih hnext (List.mem_append_left _ he),
        Program.after_append,
        (run_after h).slots_of_ne hx hpre het fun heq => hpre (heq ▸ he)]

theorem slots_run_eq (h : P.sequence = pre ++ e :: post) :
    P.run.slots e.name = e.declared ++ inherited e.type (baseSlots (P.after pre) e) := by
  obtain ⟨he, hpre⟩ := not_mem_pre h
  have hnext : P.sequence = (pre ++ [e]) ++ post := by rw [h, List.append_assoc]; rfl
  rw [slots_run hnext (by simp),
    Program.after_append, ((run_after h).inherited he hpre).slots, Function.update_self]

/-- Where the base type comes later, both were read. -/
theorem ir_of_base_not_mem_pre (h : P.sequence = pre ++ e :: post) (hb : e.base = some b)
    (hpre : b ∉ pre) : ∃ post', P.irTypes = pre ++ e :: post' ∧ b ∈ post' := by
  obtain ⟨l, hl, hpost⟩ | ⟨l, hl, hpost⟩ := List.append_eq_append_iff.mp h
  · have he : e ∈ P.ast := (inv_order.ordered (by rw [hpost]; simp)).1
    exact absurd (base_mem_pre h he hb) hpre
  · cases l with
    | nil =>
        have he : e ∈ P.ast := (inv_order.ordered (e := e)
          (by rw [← List.nil_append (order P.ast), ← hpost]; exact List.mem_cons_self)).1
        exact absurd (base_mem_pre h he hb) hpre
    | cons x l =>
        obtain ⟨rfl, -⟩ := List.cons.inj hpost
        have hbir : b ∈ P.irTypes :=
          P.irBase e (show e ∈ P.irTypes by rw [hl]; simp) b hb
        have hne : b ≠ e := by
          rintro rfl
          have hlen := congrArg List.length (base_eq_some hb)
          simp [TypeEntry.cls] at hlen
        rw [hl, List.mem_append, List.mem_cons] at hbir
        exact ⟨l, hl, (hbir.resolve_left hpre).resolve_left hne⟩

theorem inherited_append {t : TypeDef} {B C : List Slot} :
    inherited t (B ++ C) = inherited t B ++ inherited t C := List.filter_append ..

/-- The tables are complete, if nothing is lost where a base type comes later. -/
theorem slots_after (hbases : ∀ {pre post : List TypeEntry} {e b : TypeEntry},
      P.irTypes = pre ++ e :: post → e.base = some b → b ∈ post →
        ∀ {n s}, Inherits b n s → (∀ d ∈ b.type.declared, d.name ≠ n) → s.isInherited e.type →
          ∃ d ∈ e.type.declared, d.name = n)
    (h : P.sequence = pre ++ post) : ∀ e ∈ pre, (P.after pre).slots e.name = Virtual.slots e.cls := by
  induction pre using List.reverseRecOn generalizing post with
  | nil => exact fun e he => absurd he List.not_mem_nil
  | append_singleton pre e ih =>
      rw [List.append_assoc] at h
      obtain ⟨he, hpre⟩ := not_mem_pre h
      have hrun := run_after h
      intro x hx
      rw [Program.after_append]
      obtain hx | hx := List.mem_append.mp hx
      · have hxt : x ∈ P.types := mem_sequence.mp (by rw [h]; exact List.mem_append_left _ hx)
        rw [hrun.slots_of_ne he hpre hxt fun heq => hpre (heq ▸ hx)]
        exact ih h x hx
      rw [List.mem_singleton.mp hx, (hrun.inherited he hpre).slots, Function.update_self]
      change _ = e.declared ++ inherited e.type (Virtual.slots e.bases)
      congr 1
      cases hb : e.base with
      | none => rw [baseSlots, hb, base_eq_none.mp hb, Virtual.slots]
      | some b =>
          rw [show baseSlots (P.after pre) e = (P.after pre).slots b.name by rw [baseSlots, hb],
            base_eq_some hb]
          by_cases hbpre : b ∈ pre
          · rw [ih h b hbpre]
          · obtain ⟨post', hir, hpost⟩ := ir_of_base_not_mem_pre h hb hbpre
            obtain ⟨hslots, -⟩ := hrun.todo (base_mem he hb) hbpre
            have hnone : inherited e.type (inherited b.type (Virtual.slots b.bases)) = [] := by
              refine List.filter_eq_nil_iff.mpr fun s hs hnot => ?_
              obtain ⟨hs, hsb⟩ := List.mem_filter.mp hs
              simp only [Bool.and_eq_true, Option.isNone_iff_eq_none] at hsb hnot
              obtain ⟨d, hd, hname⟩ := hbases hir hb hpost
                ⟨mem_slots_iff.mp ⟨hs, rfl⟩, hsb.1⟩
                (fun d hd heq => List.find?_eq_none.mp hsb.2 d hd (decide_eq_true heq)) hnot.1
              exact List.find?_eq_none.mp hnot.2 d hd (decide_eq_true hname)
            have hfull : Virtual.slots b.cls =
                b.declared ++ inherited b.type (Virtual.slots b.bases) := rfl
            rw [hslots, hfull, inherited_append, hnone, List.append_nil]

/-- The checks of the step are those of the purpose. -/
theorem fine_iff (he : e ∈ P.types) :
    Fine e.type (Virtual.slots e.bases) ↔ ∀ d ∈ e.type.declared, ¬ Wrong e d := by
  have hnodup := P.declared e he
  have hinh : ∀ {n s}, Inherits e n s ↔
      s ∈ Virtual.slots e.bases ∧ s.isInherited e.type ∧ s.name = n := by
    intro n s
    rw [Inherits, ← mem_slots_iff, and_assoc, and_comm (a := s.name = n)]
  constructor
  · rintro ⟨hok, hknown⟩ d hd (⟨s, hs, hno⟩ | ⟨hov, hno⟩)
    · obtain ⟨hs, hi, hname⟩ := hinh.mp hs
      exact hno ((virtual_inheritSlot hi (hname ▸ Virtual.slot_eq_some hnodup hd)).mp (hok s hs))
    · obtain ⟨s, hs, hi, hname⟩ := hknown d hd hov
      exact hno s (hinh.mpr ⟨hs, hi, hname⟩)
  · intro h
    refine ⟨fun s hs => ?_, fun d hd hov => ?_⟩
    · cases hi : s.isInherited e.type with
      | false => simp [Virtual.inheritSlot, hi]
      | true =>
          cases hd : e.type.slot s.name with
          | none => simp [Virtual.inheritSlot, hd]
          | some d =>
              obtain ⟨hmem, hname⟩ := Virtual.mem_of_slot hd
              refine (virtual_inheritSlot hi hd).mpr (not_not.mp fun hno => h d hmem ?_)
              exact .inl ⟨s, hinh.mpr ⟨hs, hi, hname.symm⟩, hno⟩
    · by_contra hno
      refine h d hd (.inr ⟨hov, fun s hs => hno ?_⟩)
      obtain ⟨hs, hi, hname⟩ := hinh.mp hs
      exact ⟨s, hs, hi, hname⟩

/-- There is an error if a slot of a type with a base type is wrong. -/
theorem errors_after
    (htables : ∀ {pre post}, P.sequence = pre ++ post →
      ∀ e ∈ pre, (P.after pre).slots e.name = Virtual.slots e.cls)
    (h : P.sequence = pre ++ post) : (P.after pre).errors = [] ↔
      ∀ e ∈ pre, e ∈ P.ast → e.base ≠ none → ∀ d ∈ e.type.declared, ¬ Wrong e d := by
  induction pre using List.reverseRecOn generalizing post with
  | nil => exact ⟨fun _ e he => absurd he List.not_mem_nil, fun _ => rfl⟩
  | append_singleton pre e ih =>
      rw [List.append_assoc] at h
      obtain ⟨he, hpre⟩ := not_mem_pre h
      rw [Program.after_append, ((run_after h).inherited he hpre).errors, ih h,
        List.forall_mem_append, List.forall_mem_singleton, isSource_iff he]
      refine and_congr_right fun _ => ?_
      refine Imp.swap.trans ?_
      refine forall_congr' fun hast => forall_congr' fun hne => ?_
      obtain ⟨b, hb⟩ := Option.ne_none_iff_exists'.mp hne
      have hbase : baseSlots (P.after pre) e = Virtual.slots e.bases := by
        rw [show baseSlots (P.after pre) e = (P.after pre).slots b.name by rw [baseSlots, hb],
          base_eq_some hb, htables h b (base_mem_pre h hast hb)]
      rw [hbase, fine_iff he]

/-- **The step gives each type the nearest slots and reports exactly what is wrong in the source,**
exactly if nothing is lost where a base type comes after a type that extends it. -/
theorem exact_iff (P : Program) : P.Exact ↔ P.InOrder := by
  have hseq : P.sequence = P.sequence ++ [] := (List.append_nil _).symm
  have herr : (∀ {pre post : List TypeEntry}, P.sequence = pre ++ post →
      ∀ e ∈ pre, (P.after pre).slots e.name = Virtual.slots e.cls) →
      (P.run.errors ≠ [] ↔ ∃ e ∈ P.ast, e.base ≠ none ∧ ∃ d ∈ e.type.declared, Wrong e d) := by
    intro htables
    rw [show P.run = P.after P.sequence from rfl, ne_eq, errors_after htables hseq]
    push Not
    constructor
    · rintro ⟨e, -, hast, hb, d, hd, hw⟩
      exact ⟨e, hast, hb, d, hd, hw⟩
    · rintro ⟨e, hast, hb, d, hd, hw⟩
      exact ⟨e, mem_sequence.mpr (List.mem_append_right _ hast), hast, hb, d, hd, hw⟩
  constructor
  · intro h
    have hbases : ∀ {pre post : List TypeEntry} {e b : TypeEntry},
        P.irTypes = pre ++ e :: post → e.base = some b → b ∈ post →
          ∀ {n s}, Inherits b n s → (∀ d ∈ b.type.declared, d.name ≠ n) →
            s.isInherited e.type → ∃ d ∈ e.type.declared, d.name = n := by
      intro pre post e b hir hb hpost n s hs hn hi
      have hseq : P.sequence = pre ++ e :: (post ++ order P.ast) := by
        rw [Program.sequence, hir, List.append_assoc, List.cons_append]
      obtain ⟨he, -⟩ := not_mem_pre hseq
      by_contra! hno
      have hnear : IsNearest e.cls n s := by
        refine .inherited hno ?_ hi
        rw [base_eq_some hb]
        exact .inherited hn hs.1 hs.2
      have hbpre : b ∉ pre := by
        have hnodup := nodup_sequence (P := P)
        rw [hseq] at hnodup
        intro hbpre
        refine (List.nodup_append.mp hnodup).2.2 b hbpre b ?_ rfl
        exact List.mem_cons_of_mem _ (List.mem_append_left _ hpost)
      have hslot := (h.slots e he n s).mpr hnear
      rw [State.slot, slots_run_eq hseq, baseSlots, hb] at hslot
      dsimp only at hslot
      rw [((run_after hseq).todo (base_mem he hb) hbpre).1] at hslot
      have hname : s.name = n := by simpa using List.find?_some hslot
      obtain hmem | hmem := List.mem_append.mp (List.mem_of_find?_eq_some hslot)
      · obtain ⟨d, hd, rfl⟩ := List.mem_map.mp hmem
        exact hno d hd hname
      · obtain ⟨d, hd, rfl⟩ := List.mem_map.mp (List.mem_filter.mp hmem).1
        exact hn d hd hname
    refine ⟨hbases, fun {e} hast hb d hd hov => ?_⟩
    refine (herr fun heq => slots_after hbases heq).mp (h.errors.mpr ⟨e, hast, d, hd, ?_⟩)
    refine .inr ⟨hov, fun s hs => ?_⟩
    have hnear := hs.1
    rw [base_eq_none.mp hb] at hnear
    cases hnear
  · intro h
    have htables : ∀ {pre post : List TypeEntry}, P.sequence = pre ++ post →
        ∀ e ∈ pre, (P.after pre).slots e.name = Virtual.slots e.cls :=
      fun heq => slots_after h.bases heq
    refine ⟨fun e he n s => ?_, (herr htables).trans ⟨?_, ?_⟩⟩
    · have hrun : P.run.slots e.name = Virtual.slots e.cls :=
        htables hseq e (mem_sequence.mpr he)
      rw [State.slot, hrun]
      exact slot_slots fun t ht => declared_of_mem_cls he ht
    · rintro ⟨e, hast, -, hw⟩
      exact ⟨e, hast, hw⟩
    · rintro ⟨e, hast, d, hd, hw⟩
      cases hb : e.base with
      | some b => exact ⟨e, hast, by simp [hb], d, hd, hw⟩
      | none =>
          obtain ⟨s, hs, -⟩ | ⟨hov, -⟩ := hw
          · have hnear := hs.1
            rw [base_eq_none.mp hb] at hnear
            cases hnear
          · exact h.roots hast hb hd hov

end

/-! ### A kit before the kit that it extends -/

def objType : TypeDef := { name := ⟨"sys", "Obj"⟩, declared := [] }

def virtualType : TypeDef := { name := ⟨"sys", "Virtual"⟩, isAbstract := true, declared := [] }

def componentType : TypeDef where
  name := ⟨"sys", "Component"⟩
  declared := [
    { name := "changed"
      sig := some (.primitive 0, [.type ⟨"sys", "Slot"⟩])
      isVirtual := true }]

def serviceType : TypeDef where
  name := ⟨"sys", "Service"⟩
  declared := [{ name := "work", sig := some (.primitive 1, []), isVirtual := true }]

def deviceNetworkType : TypeDef := { name := ⟨"driver", "DeviceNetwork"⟩, declared := [] }

/-- The kit `driver` before the kit `sys`. -/
def driverFirst : Program where
  kits := [
    [⟨deviceNetworkType, [serviceType, componentType, virtualType, objType]⟩],
    [⟨objType, []⟩, ⟨virtualType, [objType]⟩, ⟨componentType, [virtualType, objType]⟩,
      ⟨serviceType, [componentType, virtualType, objType]⟩]]
  ast := []
  nodup := by decide
  declared := by decide
  irBase := by decide
  astBase := by decide

/-- A `DeviceNetwork` does not get what a `Service` has from `Component`. -/
theorem not_exact : ¬ driverFirst.Exact := by
  intro h
  have hcomponent : IsNearest [componentType, virtualType, objType] "changed"
      ⟨componentType.name, componentType.declared.head (by decide)⟩ :=
    .declared (List.head_mem _)
  have hservice : ∀ d ∈ serviceType.declared, d.name ≠ "changed" := by decide
  have hdevice : ∀ d ∈ deviceNetworkType.declared, d.name ≠ "changed" := by decide
  have hnear := IsNearest.inherited hdevice (.inherited hservice hcomponent (by decide)) (by decide)
  have hslot := (h.slots ⟨deviceNetworkType, _⟩ (by decide) _ _).mpr hnear
  exact absurd hslot (by decide)

end Sedona.InheritStep
