import Sedona.Compiler.Inherit
import Sedona.Library.LastIndex

/-!
# VTableLayout

The layout of the virtual tables (`sedonac.steps.VTableLayout`): a type starts with the table of
its base type, puts its overrides in the place of what they override, and appends its new virtual
methods. The index of a method, `vindex`, is a field of the method; it is set again for every
table that the method is in.

What a method overrides is found by its name, in a map from names to indices. Slots that are not
inherited can leave more than one method of a name in a table.

## Main results

* `exists_isLast`: the visible method of a name is the last one of the name in the table.
* `vtable_dispatch`: each index of the table of a base type leads to the override of the method
  that the most derived type declares.
* `layoutAll_spec`: the step succeeds, and `vindex` is such an index.
-/

namespace Sedona.Virtual

open ImageGen (TypeName SlotName)
open LastIndex

/-! ### The step -/

/-- The table of a type while it is made, with the indices of all methods. -/
structure Table where
  methods : List Slot
  map : String → Option ℕ
  vindex : SlotName → Option ℕ

namespace Table

/-- `m.vindex = vtable.size(); map.put(m.name, m.vindex); vtable.add(m)`. -/
def add (tab : Table) (m : Slot) : Table where
  methods := tab.methods ++ [m]
  map := Function.update tab.map m.name (some tab.methods.length)
  vindex := Function.update tab.vindex m.id (some tab.methods.length)

/-- A slot that the type declares. -/
def declare (tab : Table) (m : Slot) : Except String Table :=
  if !m.slot.isMethod then pure tab
  else if m.slot.isOverride then
    match tab.map m.name with
    | none => throw "Unknown override"
    | some i => pure { tab with
        methods := tab.methods.set i m
        vindex := Function.update tab.vindex m.id (some i) }
  else if m.slot.isVirtual then pure (tab.add m)
  else pure tab

/-- The table before the slots that the type declares. -/
def inherit (vindex : SlotName → Option ℕ) (inherited : List Slot) : Table :=
  inherited.foldl add { methods := [], map := fun _ => none, vindex }

end Table

/-- The slots that a type declares. -/
def TypeDef.slots (t : TypeDef) : List Slot := t.declared.map (⟨t.name, ·⟩)

/-- The tables of the types, and the indices of the methods. -/
structure VTables where
  vtable : TypeName → Option (List Slot)
  vindex : SlotName → Option ℕ

/-- The table of the base type, which a type inherits. -/
def inheritedTable (st : VTables) (t : TypeDef) (bases : Class) : Except String (List Slot) :=
  if t.isVirtual then pure []
  else match (bases.head?.map (·.name)).bind st.vtable with
    | none => throw "IllegalStateException"
    | some vt => pure vt

/-- `VTableLayout.layout`. -/
def layout (st : VTables) : Class → Except String VTables
  | [] => pure st
  | t :: bases => do
      let inherited ← inheritedTable st t bases
      let tab ← t.slots.foldlM Table.declare (Table.inherit st.vindex inherited)
      pure
        { vtable := Function.update st.vtable t.name (some tab.methods)
          vindex := tab.vindex }

/-- `VTableLayout.run`. -/
def layoutAll (virtTypes : List Class) : Except String VTables :=
  virtTypes.foldlM layout { vtable := fun _ => none, vindex := fun _ => none }

/-! ### The slots that a type declares -/

namespace SlotDef

/-- The slot takes the place of what it overrides. -/
def isOverriding (d : SlotDef) : Bool := d.isMethod && d.isOverride

/-- The slot gets an index of its own. -/
def isNew (d : SlotDef) : Bool := d.isMethod && !d.isOverride && d.isVirtual

theorem isDispatched_iff (d : SlotDef) : d.isDispatched ↔ d.isOverriding ∨ d.isNew := by
  unfold isDispatched isOverriding isNew
  cases d.isMethod <;> cases d.isOverride <;> cases d.isVirtual <;> simp

theorem not_isOverriding {d : SlotDef} (h : d.isNew) : ¬d.isOverriding := by
  unfold isNew at h
  unfold isOverriding
  cases ho : d.isOverride <;> simp_all

end SlotDef

/-- What the table of the base type gives to a type. -/
structure Table.Fits (base : Table) (t : TypeDef) : Prop where
  indexes : Indexes Slot.name base.map base.methods
  nodup : base.methods.Nodup
  fresh {s : Slot} (h : s ∈ base.methods) : s.parent ≠ t.name

/-- The table `tab` when the slots `ds` of the type have been added to the table `base`. -/
structure Declared (t : TypeDef) (base tab : Table) (ds : List SlotDef) : Prop where
  indexes : Indexes Slot.name tab.map tab.methods
  nodup : tab.methods.Nodup
  map {n : String} (h : ∀ d ∈ ds, d.isNew → d.name ≠ n) : tab.map n = base.map n
  le : base.methods.length ≤ tab.methods.length
  /-- Where nothing is overridden, the method of the base type stays. -/
  kept {i : ℕ} {s : Slot} (h : base.methods[i]? = some s)
    (hn : ∀ d ∈ ds, d.isOverriding → base.map d.name ≠ some i) : tab.methods[i]? = some s
  overridden {i : ℕ} {d : SlotDef} (hd : d ∈ ds) (ho : d.isOverriding)
    (hi : base.map d.name = some i) :
    tab.methods[i]? = some ⟨t.name, d⟩ ∧ tab.vindex ⟨t.name, d.name⟩ = some i
  added {d : SlotDef} (hd : d ∈ ds) (hn : d.isNew) :
    ∃ i, base.methods.length ≤ i ∧ tab.methods[i]? = some ⟨t.name, d⟩ ∧
      tab.vindex ⟨t.name, d.name⟩ = some i
  new {i : ℕ} {s : Slot} (hi : base.methods.length ≤ i) (h : tab.methods[i]? = some s) :
    s.parent = t.name ∧ s.slot.isNew
  own {s : Slot} (h : s ∈ tab.methods) : s ∈ base.methods ∨ s.parent = t.name ∧ s.slot ∈ ds
  vindex {m : SlotName} (h : m.parent ≠ t.name) : tab.vindex m = base.vindex m

namespace Declared

variable {t : TypeDef} {base tab : Table} {ds : List SlotDef} {d : SlotDef}

theorem nil (h : base.Fits t) : Declared t base base [] where
  indexes := h.indexes
  nodup := h.nodup
  map _ := rfl
  le := Nat.le_refl _
  kept h _ := h
  overridden hd := absurd hd List.not_mem_nil
  added hd := absurd hd List.not_mem_nil
  new hi h := absurd (List.getElem?_eq_some_iff.mp h).1 (Nat.not_lt.mpr hi)
  own h := .inl h
  vindex _ := rfl

/-- A slot that has not been added is not in the table. -/
theorem not_mem (h : Declared t base tab ds) (hbase : base.Fits t) (hd : d ∉ ds) :
    ⟨t.name, d⟩ ∉ tab.methods := fun hmem =>
  (h.own hmem).elim (fun hb => hbase.fresh hb rfl) fun ho => hd ho.2

/-- A slot that has no place in the table. -/
theorem skip (h : Declared t base tab ds) (hov : ¬d.isOverriding) (hnew : ¬d.isNew) :
    Declared t base tab (ds ++ [d]) where
  __ := h
  map hn := h.map fun e he => hn e (List.mem_append_left _ he)
  kept hs hn := h.kept hs fun e he => hn e (List.mem_append_left _ he)
  overridden he ho := h.overridden ((List.mem_append.mp he).resolve_right fun he =>
    hov (List.mem_singleton.mp he ▸ ho)) ho
  added he hn := h.added ((List.mem_append.mp he).resolve_right fun he =>
    hnew (List.mem_singleton.mp he ▸ hn)) hn
  own hs := (h.own hs).imp_right (And.imp_right (List.mem_append_left _))

/-- A new virtual method. -/
theorem add (h : Declared t base tab ds) (hbase : base.Fits t) (hds : d.name ∉ ds.map (·.name))
    (hnew : d.isNew) : Declared t base (tab.add ⟨t.name, d⟩) (ds ++ [d]) where
  indexes := h.indexes.concat _
  nodup := by
    have hd : d ∉ ds := fun hd => hds (List.mem_map_of_mem hd)
    rw [Table.add, ← List.concat_eq_append]
    exact h.nodup.concat (h.not_mem hbase hd)
  map {n} hn := by
    have hne : n ≠ d.name :=
      (hn d (List.mem_append_right _ (List.mem_singleton_self d)) hnew).symm
    exact (Function.update_of_ne hne ..).trans
      (h.map fun e he => hn e (List.mem_append_left _ he))
  le := by
    rw [Table.add, List.length_append]
    exact Nat.le_add_right_of_le h.le
  kept {i s} hs hn := by
    have hi := h.kept hs fun e he => hn e (List.mem_append_left _ he)
    rw [Table.add, List.getElem?_append_left (List.getElem?_eq_some_iff.mp hi).1, hi]
  overridden {i e} he ho hi := by
    have he := (List.mem_append.mp he).resolve_right fun he =>
      SlotDef.not_isOverriding hnew (List.mem_singleton.mp he ▸ ho)
    obtain ⟨hm, hv⟩ := h.overridden he ho hi
    have hne : (⟨t.name, e.name⟩ : SlotName) ≠ ⟨t.name, d.name⟩ := fun heq =>
      hds (List.mem_map.mpr ⟨e, he, (SlotName.mk.inj heq).2⟩)
    constructor
    · rw [Table.add, List.getElem?_append_left (List.getElem?_eq_some_iff.mp hm).1, hm]
    · exact (Function.update_of_ne hne ..).trans hv
  added {e} he hn := by
    rcases List.mem_append.mp he with he | he
    · obtain ⟨i, hle, hm, hv⟩ := h.added he hn
      have hne : (⟨t.name, e.name⟩ : SlotName) ≠ ⟨t.name, d.name⟩ := fun heq =>
        hds (List.mem_map.mpr ⟨e, he, (SlotName.mk.inj heq).2⟩)
      refine ⟨i, hle, ?_, (Function.update_of_ne hne ..).trans hv⟩
      rw [Table.add, List.getElem?_append_left (List.getElem?_eq_some_iff.mp hm).1, hm]
    · obtain rfl := List.mem_singleton.mp he
      exact ⟨tab.methods.length, h.le, List.getElem?_concat_length, Function.update_self ..⟩
  new {i s} hi hs := by
    rcases Nat.lt_or_ge i tab.methods.length with hlt | hge
    · exact h.new hi (by rwa [Table.add, List.getElem?_append_left hlt] at hs)
    · have hlt := (List.getElem?_eq_some_iff.mp hs).1
      rw [Table.add, List.length_append, List.length_singleton] at hlt
      obtain rfl : i = tab.methods.length := by omega
      obtain rfl := Option.some.inj (List.getElem?_concat_length.symm.trans hs)
      exact ⟨rfl, hnew⟩
  own {s} hs := by
    rcases List.mem_append.mp hs with hs | hs
    · exact (h.own hs).imp_right (And.imp_right (List.mem_append_left _))
    · obtain rfl := List.mem_singleton.mp hs
      exact .inr ⟨rfl, List.mem_append_right _ (List.mem_singleton_self d)⟩
  vindex {m} hm := by
    have hne : m ≠ ⟨t.name, d.name⟩ := fun heq => hm (by rw [heq])
    exact (Function.update_of_ne hne ..).trans (h.vindex hm)

/-- A method that takes the place of another one. -/
theorem override (h : Declared t base tab ds) (hbase : base.Fits t)
    (hds : d.name ∉ ds.map (·.name)) (hov : d.isOverriding) {i : ℕ}
    (hi : base.map d.name = some i) :
    Declared t base
      { tab with
        methods := tab.methods.set i ⟨t.name, d⟩
        vindex := Function.update tab.vindex ⟨t.name, d.name⟩ (some i) } (ds ++ [d]) := by
  obtain ⟨⟨b, hb, hbn⟩, -⟩ := (hbase.indexes _ _).mp hi
  have hlt : i < base.methods.length := (List.getElem?_eq_some_iff.mp hb).1
  -- No other slot of the type has the name, so none has taken this place.
  have hplace : ∀ e ∈ ds, base.map e.name ≠ some i := fun e he heq => by
    obtain ⟨⟨b', hb', hbn'⟩, -⟩ := (hbase.indexes _ _).mp heq
    obtain rfl := Option.some.inj (hb.symm.trans hb')
    exact hds (List.mem_map.mpr ⟨e, he, hbn'.symm.trans hbn⟩)
  have hid : ∀ e ∈ ds, (⟨t.name, e.name⟩ : SlotName) ≠ ⟨t.name, d.name⟩ := fun e he heq =>
    hds (List.mem_map.mpr ⟨e, he, (SlotName.mk.inj heq).2⟩)
  exact
    { indexes := h.indexes.set (h.kept hb fun e he _ => hplace e he) hbn.symm
      nodup := h.nodup.set (h.not_mem hbase fun hd => hds (List.mem_map_of_mem hd))
      map := fun hn => h.map fun e he => hn e (List.mem_append_left _ he)
      le := by rw [List.length_set]; exact h.le
      kept := fun {j s} hs hn => by
        have hne : i ≠ j := by
          rintro rfl
          exact hn d (List.mem_append_right _ (List.mem_singleton_self d)) hov hi
        rw [List.getElem?_set_ne hne]
        exact h.kept hs fun e he => hn e (List.mem_append_left _ he)
      overridden := fun {j e} he ho hj => by
        rcases List.mem_append.mp he with he | he
        · obtain ⟨hm, hv⟩ := h.overridden he ho hj
          have hne : i ≠ j := fun heq => hplace e he (heq ▸ hj)
          exact ⟨(List.getElem?_set_ne hne).trans hm,
            (Function.update_of_ne (hid e he) ..).trans hv⟩
        · obtain rfl := List.mem_singleton.mp he
          obtain rfl := Option.some.inj (hi.symm.trans hj)
          exact ⟨List.getElem?_set_self (Nat.lt_of_lt_of_le hlt h.le), Function.update_self ..⟩
      added := fun {e} he hn => by
        have he := (List.mem_append.mp he).resolve_right fun he =>
          SlotDef.not_isOverriding hn (List.mem_singleton.mp he ▸ hov)
        obtain ⟨j, hle, hm, hv⟩ := h.added he hn
        refine ⟨j, hle, ?_, (Function.update_of_ne (hid e he) ..).trans hv⟩
        rw [List.getElem?_set_ne (by omega), hm]
      new := fun {j s} hj hs => by
        rw [List.getElem?_set_ne (by omega)] at hs
        exact h.new hj hs
      own := fun {s} hs => by
        rcases List.mem_or_eq_of_mem_set hs with hs | rfl
        · exact (h.own hs).imp_right (And.imp_right (List.mem_append_left _))
        · exact .inr ⟨rfl, List.mem_append_right _ (List.mem_singleton_self d)⟩
      vindex := fun {m} hm => by
        have hne : m ≠ ⟨t.name, d.name⟩ := fun heq => hm (by rw [heq])
        exact (Function.update_of_ne hne ..).trans (h.vindex hm) }

/-- One slot. What it overrides is in the table of the base type. -/
theorem declare (h : Declared t base tab ds) (hbase : base.Fits t)
    (hds : d.name ∉ ds.map (·.name)) (hov : d.isOverriding → ∃ i, base.map d.name = some i) :
    ∃ tab', tab.declare ⟨t.name, d⟩ = .ok tab' ∧ Declared t base tab' (ds ++ [d]) := by
  unfold Table.declare
  by_cases hm : d.isMethod
  · by_cases ho : d.isOverride
    · have hdo : d.isOverriding := by simp [SlotDef.isOverriding, hm, ho]
      obtain ⟨i, hi⟩ := hov hdo
      have hnew : ∀ e ∈ ds, e.isNew → e.name ≠ d.name := fun e he _ heq =>
        hds (List.mem_map.mpr ⟨e, he, heq⟩)
      have hmap : tab.map (Slot.name ⟨t.name, d⟩) = some i := (h.map hnew).trans hi
      refine ⟨_, ?_, h.override hbase hds hdo hi⟩
      simp only [hm, ho, Bool.not_true, Bool.false_eq_true, if_false, if_true, hmap]
      rfl
    · by_cases hv : d.isVirtual
      · refine ⟨_, ?_, h.add hbase hds (by simp [SlotDef.isNew, hm, ho, hv])⟩
        simp only [hm, ho, hv, Bool.not_true, Bool.false_eq_true, if_false, if_true]
        rfl
      · refine ⟨tab, ?_, h.skip (by simp [SlotDef.isOverriding, ho]) (by simp [SlotDef.isNew, hv])⟩
        simp only [hm, ho, hv, Bool.not_true, Bool.false_eq_true, if_false]
        rfl
  · refine ⟨tab, ?_, h.skip (by simp [SlotDef.isOverriding, hm]) (by simp [SlotDef.isNew, hm])⟩
    simp only [hm, Bool.not_false, if_true]
    rfl

/-- All slots. -/
theorem declareAll (hbase : base.Fits t) {ds' : List SlotDef} (h : Declared t base tab ds)
    (hnodup : ((ds ++ ds').map (·.name)).Nodup)
    (hov : ∀ d ∈ ds', d.isOverriding → ∃ i, base.map d.name = some i) :
    ∃ tab', (ds'.map (Slot.mk t.name)).foldlM Table.declare tab = .ok tab' ∧
      Declared t base tab' (ds ++ ds') := by
  induction ds' generalizing tab ds with
  | nil => exact ⟨tab, rfl, by rwa [List.append_nil]⟩
  | cons d ds' ih =>
    have hds : d.name ∉ ds.map (·.name) := by
      rw [List.map_append, List.nodup_append] at hnodup
      exact fun hmem => hnodup.2.2 _ hmem _ (List.mem_cons_self ..) rfl
    obtain ⟨tab₁, h₁, hd₁⟩ := h.declare hbase hds (hov d (List.mem_cons_self ..))
    rw [List.append_cons] at hnodup
    obtain ⟨tab₂, h₂, hd₂⟩ := ih hd₁ hnodup fun e he => hov e (List.mem_cons_of_mem _ he)
    refine ⟨tab₂, ?_, by rwa [List.append_assoc] at hd₂⟩
    rw [List.map_cons, List.foldlM_cons, h₁]
    exact h₂

end Declared

namespace Table

variable {vindex : SlotName → Option ℕ} {inherited : List Slot}

/-- What `add` does for a list of methods. -/
theorem inherit_spec (vindex : SlotName → Option ℕ) (inherited : List Slot) :
    (inherit vindex inherited).methods = inherited ∧
      Indexes Slot.name (inherit vindex inherited).map inherited ∧
      (∀ m, m ∉ inherited.map Slot.id → (inherit vindex inherited).vindex m = vindex m) ∧
      ∀ m ∈ inherited.map Slot.id, ∃ i s, (inherit vindex inherited).vindex m = some i ∧
        inherited[i]? = some s ∧ s.id = m := by
  induction inherited using List.reverseRecOn with
  | nil => exact ⟨rfl, Indexes.nil, fun _ _ => rfl, fun _ h => absurd h List.not_mem_nil⟩
  | append_singleton l a ih =>
    have hstep : inherit vindex (l ++ [a]) = (inherit vindex l).add a := by
      rw [inherit, List.foldl_append]
      rfl
    obtain ⟨hm, hi, hv, hall⟩ := ih
    rw [hstep, List.map_append]
    refine ⟨by rw [add, hm], ?_, fun m hmem => ?_, fun m hmem => ?_⟩
    · rw [add, hm]
      exact hi.concat a
    · rw [List.mem_append, not_or] at hmem
      have hne : m ≠ a.id := fun heq => hmem.2 (List.mem_singleton.mpr heq)
      exact (Function.update_of_ne hne ..).trans (hv m hmem.1)
    · rcases eq_or_ne m a.id with rfl | hne
      · exact ⟨_, a, Function.update_self .., by rw [hm]; exact List.getElem?_concat_length, rfl⟩
      · have hmem := (List.mem_append.mp hmem).resolve_right fun h => hne (List.mem_singleton.mp h)
        obtain ⟨i, s, hi, hs, hid⟩ := hall m hmem
        refine ⟨i, s, (Function.update_of_ne hne ..).trans hi, ?_, hid⟩
        rw [List.getElem?_append_left (List.getElem?_eq_some_iff.mp hs).1, hs]

end Table

/-! ### The table of a type -/

/-- The table of a type, as `layout` makes it from the table of its base type. -/
def vtable : Class → List Slot
  | [] => []
  | t :: bases =>
      match t.slots.foldlM Table.declare (Table.inherit (fun _ => none) (vtable bases)) with
      | .ok tab => tab.methods
      | .error _ => []

/-- The visible methods of a type are in its table, each as the last one of its name, and the
methods in the table are different and come from the type and its base types. -/
structure TableSpec (c : Class) : Prop where
  isLast {s : Slot} (hs : s ∈ slots c) (hd : s.slot.isDispatched) :
    ∃ i, (vtable c)[i]? = some s ∧ IsLast Slot.name (vtable c) s.name i
  nodup : (vtable c).Nodup
  parent {s : Slot} (h : s ∈ vtable c) : s.parent ∈ c.map (·.name)

section

variable {t : TypeDef} {bases : Class}

theorem TableSpec.fits (h : TableSpec bases) (hname : t.name ∉ bases.map (·.name))
    (vindex : SlotName → Option ℕ) : (Table.inherit vindex (vtable bases)).Fits t := by
  obtain ⟨hm, hi, -⟩ := Table.inherit_spec vindex (vtable bases)
  refine ⟨by rwa [hm], by rw [hm]; exact h.nodup, fun {s} hs heq => ?_⟩
  rw [hm] at hs
  exact hname (heq ▸ h.parent hs)

/-- What a method overrides is in the table of the base type, at the index in the map. -/
theorem TableSpec.overridden (h : TableSpec bases) (hacc : Accepted t bases) {d : SlotDef}
    (hd : d ∈ t.declared) (ho : d.isOverriding) {base : Table}
    (hbase : base.methods = vtable bases) (hidx : Indexes Slot.name base.map base.methods) :
    ∃ s i, overrides t bases d = some s ∧ base.map d.name = some i ∧
      (vtable bases)[i]? = some s := by
  have hov : d.isOverride := (Bool.and_eq_true_iff.mp ho).2
  obtain ⟨s, hs⟩ := Option.isSome_iff_exists.mp (hacc.known hd hov)
  obtain ⟨hmem, hinh, hname⟩ := overrides_eq_some hs
  obtain ⟨hm, hv, -⟩ := hacc.overridden hd hmem hinh hname
  obtain ⟨i, hi, hlast⟩ := h.isLast hmem (by simp [SlotDef.isDispatched, hm, hv])
  refine ⟨s, i, hs, (hidx _ _).mpr ?_, hi⟩
  rw [hbase, ← hname]
  exact hlast

/-- The slots of the type are added to the table of the base type. -/
theorem TableSpec.declareAll (h : TableSpec bases) (hacc : Accepted t bases)
    (vindex : SlotName → Option ℕ) :
    ∃ tab, t.slots.foldlM Table.declare (Table.inherit vindex (vtable bases)) = .ok tab ∧
      Declared t (Table.inherit vindex (vtable bases)) tab t.declared := by
  have hfits := h.fits hacc.name vindex
  have hmethods := (Table.inherit_spec vindex (vtable bases)).1
  refine Declared.declareAll hfits (Declared.nil hfits) hacc.nodup fun d hd ho => ?_
  obtain ⟨s, i, -, hi, -⟩ := h.overridden hacc hd ho hmethods hfits.indexes
  exact ⟨i, hi⟩

/-- The table of a type is that of its base type with the slots of the type. -/
theorem TableSpec.vtable_cons (h : TableSpec bases) (hacc : Accepted t bases) :
    ∃ base tab, base.methods = vtable bases ∧ base.Fits t ∧
      Declared t base tab t.declared ∧ vtable (t :: bases) = tab.methods := by
  obtain ⟨tab, hrun, hdecl⟩ := h.declareAll hacc fun _ => none
  refine ⟨_, tab, (Table.inherit_spec _ _).1, h.fits hacc.name _, hdecl, ?_⟩
  rw [vtable, hrun]

theorem mem_slots_self {d : SlotDef} (hd : d ∈ t.declared) : ⟨t.name, d⟩ ∈ slots (t :: bases) :=
  mem_slots_cons.mpr (.inl ⟨rfl, hd⟩)

/-- Two declared slots of one name are the same. -/
theorem Accepted.eq_of_name (hacc : Accepted t bases) {d e : SlotDef} (hd : d ∈ t.declared)
    (he : e ∈ t.declared) (hname : d.name = e.name) : d = e :=
  List.inj_on_of_nodup_map hacc.nodup hd he hname

/-- What holds of the table of the base type holds of that of the type. -/
theorem TableSpec.cons (h : TableSpec bases) (hacc : Accepted t bases) :
    TableSpec (t :: bases) := by
  obtain ⟨base, tab, hbase, hfits, hdecl, htab⟩ := h.vtable_cons hacc
  refine ⟨fun {s} hs hd => ?_, by rw [htab]; exact hdecl.nodup, fun {s} hs => ?_⟩
  · rw [htab]
    rcases mem_slots_cons.mp hs with ⟨hp, hs⟩ | ⟨hs, hinh, hnone⟩
    · have heq : s = ⟨t.name, s.slot⟩ := by rw [← hp]
      rcases (SlotDef.isDispatched_iff _).mp hd with ho | hn
      · -- An override: the index in the map of the base type, and no new method has the name.
        obtain ⟨s', i, -, hi, -⟩ := h.overridden hacc hs ho hbase hfits.indexes
        obtain ⟨hget, -⟩ := hdecl.overridden hs ho hi
        have hmap : tab.map s.name = some i := (hdecl.map fun e he hnew hname =>
          SlotDef.not_isOverriding (hacc.eq_of_name he hs hname ▸ hnew) ho).trans hi
        exact ⟨i, hget.trans (congrArg some heq.symm), (hdecl.indexes _ _).mp hmap⟩
      · -- A new method: the last one of the name cannot be before it.
        obtain ⟨i, hle, hget, -⟩ := hdecl.added hs hn
        rw [← heq] at hget
        obtain ⟨j, hj⟩ := hdecl.indexes.isSome (List.mem_of_getElem? hget)
        have hlast := (hdecl.indexes _ _).mp hj
        obtain ⟨s', hs', hname⟩ := hlast.here
        have hij : i ≤ j := Nat.le_of_not_lt fun hlt => hlast.after hlt hget rfl
        obtain ⟨hp', hnew'⟩ := hdecl.new (Nat.le_trans hle hij) hs'
        have hmem' := (hdecl.own (List.mem_of_getElem? hs')).resolve_left fun hb =>
          hfits.fresh hb hp'
        have hss : s' = s := by
          rw [heq, ← hacc.eq_of_name hmem'.2 hs hname, ← hp']
        exact ⟨j, hss ▸ hs', hlast⟩
    · -- Inherited: no slot of the type has the name.
      obtain ⟨i, hi, hlast⟩ := h.isLast hs hd
      have hother : ∀ e ∈ t.declared, e.name ≠ s.name := fun e he heq => by
        rw [← heq, slot_eq_some hacc.nodup he] at hnone
        cases hnone
      rw [← hbase] at hi hlast
      refine ⟨i, hdecl.kept hi fun e he _ heq => ?_, ?_⟩
      · obtain ⟨⟨s', hs', hname⟩, -⟩ := (hfits.indexes _ _).mp heq
        obtain rfl := Option.some.inj (hi.symm.trans hs')
        exact hother e he hname.symm
      · refine (hdecl.indexes _ _).mp ?_
        rw [hdecl.map fun e he _ => hother e he]
        exact (hfits.indexes _ _).mpr hlast
  · rw [htab] at hs
    rcases hdecl.own hs with hb | ⟨hp, -⟩
    · exact List.mem_cons_of_mem _ (h.parent (hbase ▸ hb))
    · exact hp ▸ List.mem_cons_self ..

end

/-- The visible method of a name is the last one of the name in the table. -/
theorem tableSpec {c : Class} (h : accepted c) : TableSpec c := by
  induction c with
  | nil =>
    exact ⟨fun hs => absurd hs List.not_mem_nil, List.nodup_nil,
      fun hs => absurd hs List.not_mem_nil⟩
  | cons t bases ih =>
    have hacc := accepted_cons.mp h
    exact (ih hacc.base).cons hacc

/-! ### Dispatch -/

/-- The override of the method `m` of the type `T` that the most derived of the types `pre` on
top of `T` declares: each type overrides what its base type sees under the name. -/
def override (T : Class) (m : Slot) : List TypeDef → Slot
  | [] => m
  | t :: pre =>
      let below := override T m pre
      match t.slot m.name with
      | some d =>
          if d.isOverriding && overrides t (pre ++ T) d = some below then ⟨t.name, d⟩ else below
      | none => below

theorem override_name (T : Class) (m : Slot) (pre : List TypeDef) :
    (override T m pre).name = m.name := by
  induction pre with
  | nil => rfl
  | cons t pre ih =>
    rw [override]
    split
    · next d hd =>
      split
      · exact (mem_of_slot hd).2
      · exact ih
    · exact ih

/-- Each index of the table of a base type leads to the override of the method there. -/
theorem vtable_dispatch {T : Class} {m : Slot} {i : ℕ} (hm : (vtable T)[i]? = some m)
    {pre : List TypeDef} (h : accepted (pre ++ T)) :
    (vtable (pre ++ T))[i]? = some (override T m pre) := by
  induction pre with
  | nil => exact hm
  | cons t pre ih =>
    rw [List.cons_append] at h ⊢
    have hacc := accepted_cons.mp h
    have hspec := tableSpec hacc.base
    obtain ⟨base, tab, hbase, hfits, hdecl, htab⟩ := hspec.vtable_cons hacc
    have hbelow := ih hacc.base
    have hname := override_name T m pre
    rw [htab]
    -- A slot that takes the place `i` has the name of `m`, and overrides what is there.
    have hplace : ∀ d ∈ t.declared, d.isOverriding → base.map d.name = some i →
        t.slot m.name = some d ∧ overrides t (pre ++ T) d = some (override T m pre) := by
      intro d hd ho hi
      obtain ⟨s, j, hs, hj, hget⟩ := hspec.overridden hacc hd ho hbase hfits.indexes
      obtain rfl := Option.some.inj (hi.symm.trans hj)
      obtain rfl := Option.some.inj (hbelow.symm.trans hget)
      have hdm : d.name = m.name := (overrides_eq_some hs).2.2.symm.trans hname
      exact ⟨hdm ▸ slot_eq_some hacc.nodup hd, hs⟩
    have hkept : (∀ d, t.slot m.name = some d → d.isOverriding →
        overrides t (pre ++ T) d ≠ some (override T m pre)) →
        tab.methods[i]? = some (override T m pre) := fun hno =>
      hdecl.kept (hbase ▸ hbelow) fun d hd ho hi =>
        hno d (hplace d hd ho hi).1 ho (hplace d hd ho hi).2
    rw [override]
    split
    · next d hd =>
      split
      · next hcond =>
        obtain ⟨ho, hover⟩ := Bool.and_eq_true_iff.mp hcond
        have hmem := (mem_of_slot hd).1
        obtain ⟨s, j, hs, hj, hget⟩ := hspec.overridden hacc hmem ho hbase hfits.indexes
        obtain rfl := Option.some.inj (hs.symm.trans (of_decide_eq_true hover))
        obtain rfl : j = i := (List.getElem?_inj (List.getElem?_eq_some_iff.mp hget).1
          hspec.nodup).mp (hget.trans hbelow.symm)
        exact (hdecl.overridden hmem ho hj).1
      · next hcond =>
        refine hkept fun d' hd' ho hover => hcond ?_
        obtain rfl := Option.some.inj (hd.symm.trans hd')
        rw [ho, hover]
        simp
    · next hnone =>
      refine hkept fun d' hd' => ?_
      rw [hnone] at hd'
      cases hd'

/-! ### All types -/

/-- A type that does not extend `sys::Virtual` has no virtual methods. -/
theorem slots_of_not_isaVirtual {c : Class} (h : accepted c) (hv : ¬isaVirtual c) {s : Slot}
    (hs : s ∈ slots c) : ¬s.slot.isDispatched := by
  induction c generalizing s with
  | nil => cases hs
  | cons t bases ih =>
    have hacc := accepted_cons.mp h
    have hvb : ¬isaVirtual bases := fun hb => hv (by
      rw [isaVirtual, List.any_cons, Bool.or_eq_true]
      exact .inr hb)
    rcases mem_slots_cons.mp hs with ⟨-, hd⟩ | ⟨hs, -, -⟩
    · intro hdisp
      rcases (SlotDef.isDispatched_iff _).mp hdisp with ho | hn
      · obtain ⟨s', hs'⟩ := Option.isSome_iff_exists.mp
          (hacc.known hd (Bool.and_eq_true_iff.mp ho).2)
        obtain ⟨hmem, hinh, hname⟩ := overrides_eq_some hs'
        obtain ⟨hm, hvirt, -⟩ := hacc.overridden hd hmem hinh hname
        exact ih hacc.base hvb hmem (by simp [SlotDef.isDispatched, hm, hvirt])
      · have hflags := hacc.flags hd
        simp only [SlotDef.isNew, Bool.and_eq_true] at hn
        simp [checkFlags, hn.1.1, hn.2, hv] at hflags
    · exact ih hacc.base hvb hs

/-- The method at an index comes from the table of the type that declares it. -/
theorem vtable_origin {c : Class} (h : accepted c) {i : ℕ} {s : Slot}
    (hs : (vtable c)[i]? = some s) :
    ∃ pre t bases, c = pre ++ t :: bases ∧ t.name = s.parent ∧ s.slot ∈ t.declared ∧
      s.slot.isDispatched ∧ (vtable (t :: bases))[i]? = some s := by
  induction c with
  | nil => cases hs
  | cons t bases ih =>
    have hacc := accepted_cons.mp h
    obtain ⟨base, tab, hbase, hfits, hdecl, htab⟩ := (tableSpec hacc.base).vtable_cons hacc
    have hget := hs
    rw [htab] at hget
    rcases Nat.lt_or_ge i base.methods.length with hlt | hge
    · obtain ⟨s₀, hs₀⟩ : ∃ s₀, base.methods[i]? = some s₀ := ⟨_, List.getElem?_eq_getElem hlt⟩
      by_cases hex : ∃ d ∈ t.declared, d.isOverriding ∧ base.map d.name = some i
      · obtain ⟨d, hd, ho, hi⟩ := hex
        obtain rfl := Option.some.inj ((hdecl.overridden hd ho hi).1.symm.trans hget)
        exact ⟨[], t, bases, rfl, rfl, hd, (SlotDef.isDispatched_iff d).mpr (.inl ho), hs⟩
      · have hkept := hdecl.kept hs₀ fun d hd ho hi => hex ⟨d, hd, ho, hi⟩
        obtain rfl := Option.some.inj (hkept.symm.trans hget)
        obtain ⟨pre, u, rest, rfl, h'⟩ := ih hacc.base (hbase ▸ hs₀)
        exact ⟨t :: pre, u, rest, rfl, h'⟩
    · obtain ⟨hp, hn⟩ := hdecl.new hge hget
      have hmem := (hdecl.own (List.mem_of_getElem? hget)).resolve_left fun hb => hfits.fresh hb hp
      exact ⟨[], t, bases, rfl, hp.symm, hmem.2, (SlotDef.isDispatched_iff _).mpr (.inr hn), hs⟩

/-- The table of a type that does not extend `sys::Virtual` is empty. -/
theorem vtable_of_not_isaVirtual {c : Class} (h : accepted c) (hv : ¬isaVirtual c) :
    vtable c = [] := by
  refine List.eq_nil_iff_forall_not_mem.mpr fun s hs => ?_
  obtain ⟨i, hi⟩ := List.mem_iff_getElem?.mp hs
  obtain ⟨pre, t, bases, rfl, -, hd, hdisp, -⟩ := vtable_origin h hi
  have hv' : ¬isaVirtual (t :: bases) := fun h' => hv (by
    rw [isaVirtual, List.any_append, Bool.or_eq_true]
    exact .inr h')
  exact slots_of_not_isaVirtual (accepted_of_append h) hv' (mem_slots_self hd) hdisp

/-- The types that extend `sys::Virtual`, each after its base type, and no two of one name. -/
inductive InOrder : List Class → Prop where
  | nil : InOrder []
  | snoc {cs : List Class} {t : TypeDef} {bases : Class} (h : InOrder cs)
      (hacc : accepted (t :: bases)) (hvirtual : isaVirtual (t :: bases))
      (hbase : t.isVirtual ∨ bases ∈ cs)
      (hname : ∀ u rest, u :: rest ∈ cs → u.name ≠ t.name) : InOrder (cs ++ [t :: bases])

namespace InOrder

variable {cs : List Class} {c : Class}

theorem accepted (h : InOrder cs) (hc : c ∈ cs) : accepted c := by
  induction h with
  | nil => cases hc
  | snoc h hacc hvirtual hbase hname ih =>
    rcases List.mem_append.mp hc with hc | hc
    · exact ih hc
    · exact List.mem_singleton.mp hc ▸ hacc

/-- Two types of one name are the same. -/
theorem eq_of_name (h : InOrder cs) {t u : TypeDef} {bases rest : Class} (ht : t :: bases ∈ cs)
    (hu : u :: rest ∈ cs) (hname : t.name = u.name) : t :: bases = u :: rest := by
  induction h with
  | nil => cases ht
  | snoc h hacc hvirtual hbase hfresh ih =>
    rcases List.mem_append.mp ht with ht' | ht' <;> rcases List.mem_append.mp hu with hu' | hu'
    · exact ih ht' hu'
    · obtain ⟨rfl, rfl⟩ := List.cons.inj (List.mem_singleton.mp hu')
      exact absurd hname (hfresh _ _ ht')
    · obtain ⟨rfl, rfl⟩ := List.cons.inj (List.mem_singleton.mp ht')
      exact absurd hname.symm (hfresh _ _ hu')
    · exact (List.mem_singleton.mp ht').trans (List.mem_singleton.mp hu').symm

theorem isaVirtual (h : InOrder cs) (hc : c ∈ cs) : isaVirtual c := by
  induction h with
  | nil => cases hc
  | snoc h hacc hvirtual hbase hname ih =>
    rcases List.mem_append.mp hc with hc | hc
    · exact ih hc
    · exact List.mem_singleton.mp hc ▸ hvirtual

theorem base_mem (h : InOrder cs) {t : TypeDef} {bases : Class} (ht : t :: bases ∈ cs) :
    t.isVirtual ∨ bases ∈ cs := by
  induction h with
  | nil => cases ht
  | snoc h hacc hvirtual hbase hname ih =>
    rcases List.mem_append.mp ht with ht | ht
    · exact (ih ht).imp_right (List.mem_append_left _)
    · obtain ⟨rfl, rfl⟩ := List.cons.inj (List.mem_singleton.mp ht)
      exact hbase.imp_right (List.mem_append_left _)

/-- Above `sys::Virtual` there is no other type that extends it. -/
theorem not_isaVirtual_bases {t : TypeDef} {bases : Class} (hacc : Accepted t bases)
    (ht : t.isVirtual) : ¬Virtual.isaVirtual bases := by
  intro hv
  obtain ⟨u, hu, hname⟩ := List.any_eq_true.mp hv
  refine hacc.name (List.mem_map.mpr ⟨u, hu, ?_⟩)
  exact (of_decide_eq_true hname).trans (of_decide_eq_true ht).symm

/-- The base types of a type are in the list, down to `sys::Virtual`. -/
theorem mem_of_suffix (h : InOrder cs) {pre : List TypeDef} {t : TypeDef} {bases : Class}
    (hc : pre ++ t :: bases ∈ cs) (hv : Virtual.isaVirtual (t :: bases)) : t :: bases ∈ cs := by
  induction pre with
  | nil => exact hc
  | cons u pre ih =>
    rcases h.base_mem hc with hu | hmem
    · have hv' : Virtual.isaVirtual (pre ++ t :: bases) := by
        rw [Virtual.isaVirtual, List.any_append, Bool.or_eq_true]
        exact .inr hv
      exact absurd hv' (not_isaVirtual_bases (accepted_cons.mp (h.accepted hc)) hu)
    · exact ih hmem

end InOrder

/-! ### The run -/

/-- Two tables that differ in the indices only. -/
def Table.Same (a b : Table) : Prop := a.methods = b.methods ∧ a.map = b.map

theorem Table.Same.declare {a b : Table} (h : a.Same b) (m : Slot) :
    Lockstep Table.Same (a.declare m) (b.declare m) := by
  obtain ⟨hm, hmap⟩ := h
  refine .ite Iff.rfl (fun _ => .ok ⟨hm, hmap⟩) fun _ => .ite Iff.rfl (fun _ => ?_) fun _ => ?_
  · rw [hmap]
    cases b.map m.name with
    | none => exact .error _ _
    | some i => exact .ok ⟨congrArg (·.set i m) hm, rfl⟩
  · refine .ite Iff.rfl (fun _ => .ok ?_) fun _ => .ok ⟨hm, hmap⟩
    simp only [Table.Same, Table.add, hm, hmap, and_self]

theorem Table.same_inherit (vindex vindex' : SlotName → Option ℕ) (inherited : List Slot) :
    (Table.inherit vindex inherited).Same (Table.inherit vindex' inherited) := by
  obtain ⟨hm, hi, -⟩ := Table.inherit_spec vindex inherited
  obtain ⟨hm', hi', -⟩ := Table.inherit_spec vindex' inherited
  refine ⟨hm.trans hm'.symm, funext fun k => Option.ext fun i => ?_⟩
  rw [hi k i, hi' k i]

/-- The table of a type does not depend on the indices that methods have. -/
theorem vtable_eq {t : TypeDef} {bases : Class} {vindex : SlotName → Option ℕ} {tab : Table}
    (h : t.slots.foldlM Table.declare (Table.inherit vindex (vtable bases)) = .ok tab) :
    vtable (t :: bases) = tab.methods := by
  have hlock := Lockstep.foldlM (ε := String) t.slots
    (Table.same_inherit vindex (fun _ => none) (vtable bases)) fun m _ _ _ h => h.declare m
  obtain ⟨tab', h', hsame⟩ := hlock.ok_left h
  rw [vtable, h']
  exact hsame.1.symm

/-- What `layoutAll` gives for the types so far: their tables, and for every method its index in
the table of the type that declares it. -/
structure LayoutSpec (cs : List Class) (st : VTables) : Prop where
  vtable {t : TypeDef} {bases : Class} (h : t :: bases ∈ cs) :
    st.vtable t.name = some (vtable (t :: bases))
  vindex {t : TypeDef} {bases : Class} {d : SlotDef} (h : t :: bases ∈ cs) (hd : d ∈ t.declared)
    (hdisp : d.isDispatched) :
    ∃ i, st.vindex ⟨t.name, d.name⟩ = some i ∧ (Virtual.vtable (t :: bases))[i]? = some ⟨t.name, d⟩

section

variable {cs : List Class} {st : VTables} {t : TypeDef} {bases : Class}

/-- What the type inherits is the table of its base type. -/
theorem LayoutSpec.inherited (hspec : LayoutSpec cs st) (h : InOrder cs) (hacc : Accepted t bases)
    (hbase : t.isVirtual ∨ bases ∈ cs) :
    inheritedTable st t bases = .ok (Virtual.vtable bases) := by
  unfold inheritedTable
  by_cases ht : t.isVirtual
  · rw [if_pos ht, vtable_of_not_isaVirtual hacc.base (InOrder.not_isaVirtual_bases hacc ht)]
    rfl
  · have hmem := hbase.resolve_left ht
    rw [if_neg ht]
    cases bases with
    | nil => exact absurd (h.isaVirtual hmem) Bool.false_ne_true
    | cons u rest =>
      rw [List.head?_cons, Option.map_some, Option.bind_some, hspec.vtable hmem]
      rfl

/-- A method in the table of the base type has the index that it has in the table of its own
type. -/
theorem InOrder.index_eq (h : InOrder cs) (hacc : Accepted t bases)
    (hbase : t.isVirtual ∨ bases ∈ cs) {u : TypeDef} {rest : Class} (hu : u :: rest ∈ cs)
    {d : SlotDef} (hd : d ∈ u.declared) {i : ℕ} {s : Slot} (hs : (vtable bases)[i]? = some s)
    (hid : s.id = ⟨u.name, d.name⟩) : (vtable (u :: rest))[i]? = some ⟨u.name, d⟩ := by
  obtain ⟨hparent, hname⟩ := SlotName.mk.inj hid
  obtain ⟨pre, t', rest', rfl, ht', hd', -, hget⟩ := vtable_origin hacc.base hs
  have hmem : pre ++ t' :: rest' ∈ cs := hbase.resolve_left fun ht => by
    rw [vtable_of_not_isaVirtual hacc.base (InOrder.not_isaVirtual_bases hacc ht)] at hs
    cases hs
  have hv : Virtual.isaVirtual (t' :: rest') := by
    by_contra hv
    rw [vtable_of_not_isaVirtual (accepted_of_append hacc.base) hv] at hget
    cases hget
  have heq := h.eq_of_name (h.mem_of_suffix hmem hv) hu (ht'.trans hparent)
  obtain ⟨rfl, rfl⟩ := List.cons.inj heq
  have hslot := (accepted_cons.mp (h.accepted hu)).eq_of_name hd' hd hname
  rw [hget, ← hslot, ht']

/-- The step for one type. -/
theorem LayoutSpec.layout (hspec : LayoutSpec cs st) (h : InOrder cs) (hacc : Accepted t bases)
    (hbase : t.isVirtual ∨ bases ∈ cs) (hname : ∀ u rest, u :: rest ∈ cs → u.name ≠ t.name) :
    ∃ st', Virtual.layout st (t :: bases) = .ok st' ∧ LayoutSpec (cs ++ [t :: bases]) st' := by
  have hbases := tableSpec hacc.base
  obtain ⟨tab, hrun, hdecl⟩ := hbases.declareAll hacc st.vindex
  obtain ⟨hm, hidx, hother, hset⟩ := Table.inherit_spec st.vindex (Virtual.vtable bases)
  have hfits := hbases.fits hacc.name st.vindex
  refine ⟨{ vtable := Function.update st.vtable t.name (some tab.methods)
            vindex := tab.vindex }, ?_, ?_⟩
  · rw [Virtual.layout, hspec.inherited h hacc hbase]
    exact Lockstep.bind_eq_ok.mpr ⟨_, rfl, Lockstep.bind_eq_ok.mpr ⟨tab, hrun, rfl⟩⟩
  · refine ⟨fun {u rest} hu => ?_, fun {u rest d} hu hd hdisp => ?_⟩
    · rcases List.mem_append.mp hu with hu | hu
      · exact (Function.update_of_ne (hname u rest hu) ..).trans (hspec.vtable hu)
      · obtain ⟨rfl, rfl⟩ := List.cons.inj (List.mem_singleton.mp hu)
        rw [vtable_eq hrun]
        exact Function.update_self ..
    · rcases List.mem_append.mp hu with hu | hu
      · have hv := hdecl.vindex (m := ⟨u.name, d.name⟩) (hname u rest hu)
        by_cases hmem : (⟨u.name, d.name⟩ : SlotName) ∈ (Virtual.vtable bases).map Slot.id
        · obtain ⟨i, s, hi, hs, hid⟩ := hset _ hmem
          exact ⟨i, hv.trans hi, h.index_eq hacc hbase hu hd hs hid⟩
        · obtain ⟨i, hi, hget⟩ := hspec.vindex hu hd hdisp
          exact ⟨i, hv.trans ((hother _ hmem).trans hi), hget⟩
      · obtain ⟨rfl, rfl⟩ := List.cons.inj (List.mem_singleton.mp hu)
        rw [vtable_eq hrun]
        rcases (SlotDef.isDispatched_iff d).mp hdisp with ho | hn
        · obtain ⟨s, i, -, hi, -⟩ := hbases.overridden hacc hd ho hm hfits.indexes
          obtain ⟨hget, hv⟩ := hdecl.overridden hd ho hi
          exact ⟨i, hv, hget⟩
        · obtain ⟨i, -, hget, hv⟩ := hdecl.added hd hn
          exact ⟨i, hv, hget⟩

end

/-- The step succeeds for all types. -/
theorem layoutAll_spec {cs : List Class} (h : InOrder cs) :
    ∃ st, layoutAll cs = .ok st ∧ LayoutSpec cs st := by
  induction h with
  | nil =>
    exact ⟨_, rfl, fun hu => absurd hu List.not_mem_nil, fun hu => absurd hu List.not_mem_nil⟩
  | snoc h hacc hvirtual hbase hname ih =>
    obtain ⟨st, hrun, hspec⟩ := ih
    obtain ⟨st', hlayout, hspec'⟩ := hspec.layout h (accepted_cons.mp hacc) hbase hname
    refine ⟨st', ?_, hspec'⟩
    rw [layoutAll, List.foldlM_append, ← layoutAll]
    exact Lockstep.bind_eq_ok.mpr ⟨st, hrun, Lockstep.bind_eq_ok.mpr ⟨st', hlayout, rfl⟩⟩

end Sedona.Virtual
