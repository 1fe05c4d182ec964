import Mathlib.Data.List.Nodup
import Sedona.Library.Threads
import Sedona.Library.Fuel
import Sedona.Offline.DecodeApp

/-!
# The Loops over Parents and Children

What `finishDecode` does with a component depends on the ids in the file alone: an id of no component
is an exception, siblings that come back to a component are a loop without an end, and otherwise the
children are the list that the siblings make.

## Main results

* `finishDecode_broken`, `finishDecode_endless`, `finishDecode_fine`: the three cases.
* `finishAll_fine`: all components, if each of them is of the last kind.
-/

namespace Sedona.Sab

open Function Intrusive

/-! ### The pointers in a file -/

section Pointers

variable (decoded : List Decoded)

def first (id : ℕ) : Option ℕ := (getDecoded decoded id).map Decoded.childrenId

def next (id : ℕ) : Option ℕ := (getDecoded decoded id).map Decoded.nextSiblingId

def parent (id : ℕ) : Option ℕ := (getDecoded decoded id).map Decoded.parentId

/-- There is no component with the id. -/
def Missing (id : ℕ) : Prop := id ≠ 0 ∧ ∀ d ∈ decoded, d.id ≠ id

/-- The parent is no component, or the children lead to an id that no component of the file has. -/
def Broken (d : Decoded) : Prop :=
  (d.parentId ≠ nullId ∧ Missing decoded d.parentId) ∨
    Dangles nullId (next decoded) d.childrenId

/-- The parent is a component, and the children come back to one of them. -/
def Endless (d : Decoded) : Prop :=
  ¬(d.parentId ≠ nullId ∧ Missing decoded d.parentId) ∧ Circular (next decoded) d.childrenId

/-- The parent is a component, and the list of the children ends. -/
def Fine (d : Decoded) : Prop :=
  ¬(d.parentId ≠ nullId ∧ Missing decoded d.parentId) ∧
    ∃ l, Chain nullId (next decoded) d.childrenId l

end Pointers

/-- The components of the application are those of the file and the application itself. -/
structure Ready (app : App) (decoded : List Decoded) : Prop where
  known : ∀ id, (∃ c, app.comps id = some c) ↔ id = 0 ∨ ∃ d ∈ decoded, d.id = id
  nodup : (decoded.map Decoded.id).Nodup
  ids : ∀ d ∈ decoded, d.id ≠ nullId

variable {app app' : App} {decoded : List Decoded} {d : Decoded} {id j : ℕ} {l : List ℕ}

theorem getDecoded_eq_some (h : getDecoded decoded id = some d) : d ∈ decoded ∧ d.id = id := by
  have hid := List.find?_some h
  exact ⟨List.mem_of_find?_eq_some h, by simpa using hid⟩

theorem getDecoded_of_mem (hnodup : (decoded.map Decoded.id).Nodup) (hd : d ∈ decoded) :
    getDecoded decoded d.id = some d := by
  cases h : getDecoded decoded d.id with
  | none =>
    have hne := List.find?_eq_none.mp h d hd
    simp at hne
  | some d' =>
    obtain ⟨hd', hid⟩ := getDecoded_eq_some h
    rw [List.inj_on_of_nodup_map hnodup hd' hd hid]

theorem Ready.next_nullId (h : Ready app decoded) : next decoded nullId = none := by
  cases hd : getDecoded decoded nullId with
  | none => rw [next, hd]; rfl
  | some d =>
    obtain ⟨hmem, hid⟩ := getDecoded_eq_some hd
    exact absurd hid (h.ids d hmem)

/-- A component with a next sibling is there. -/
theorem Ready.lookup_of_next (h : Ready app decoded) (hj : next decoded id = some j) :
    ∃ c, app.lookup id = some c := by
  obtain ⟨d, hd, -⟩ := Option.map_eq_some_iff.mp hj
  exact (h.known id).mpr (.inr ⟨d, getDecoded_eq_some hd⟩)

theorem Ready.lookup_eq_none_iff (h : Ready app decoded) :
    app.lookup id = none ↔ Missing decoded id := by
  rw [Missing, Option.eq_none_iff_forall_ne_some]
  constructor
  · intro hnone
    have hnot : ¬(id = 0 ∨ ∃ d ∈ decoded, d.id = id) := by
      rw [← h.known id]
      rintro ⟨c, hc⟩
      exact hnone c hc
    exact ⟨fun h0 => hnot (.inl h0), fun d hd hid => hnot (.inr ⟨d, hd, hid⟩)⟩
  · rintro ⟨h0, hall⟩ c hc
    rcases (h.known id).mp ⟨c, hc⟩ with hid | ⟨d, hd, hid⟩
    · exact h0 hid
    · exact hall d hd hid

/-! ### The children of a component -/

section Kids

variable (h : Ready app decoded)

include h

/-- A list that ends is collected. -/
theorem addKids_chain (hchain : Chain nullId (next decoded) id l) (hid : id ≠ nullId)
    (kid : Component) (acc : Kids) : ∃ acc' : Kids, acc'.kids = acc.kids ++ l ∧
      ∀ fuel, l.length ≤ fuel → addKids app decoded fuel id kid acc = some (.ok acc') := by
  induction l generalizing id kid acc with
  | nil => exact absurd (chain_nil.mp hchain) hid
  | cons x l ih =>
    obtain ⟨rfl, -, j, hj, hrest⟩ := chain_cons.mp hchain
    obtain ⟨d, hd, rfl⟩ := Option.map_eq_some_iff.mp hj
    by_cases hend : d.nextSiblingId = nullId
    · have hl : l = [] := by
        cases l with
        | nil => rfl
        | cons y l =>
          obtain ⟨heq, hne, -⟩ := chain_cons.mp hrest
          exact absurd (heq.symm.trans hend) hne
      subst hl
      refine ⟨⟨acc.kids ++ [id], update acc.kidsByName kid.name (some id)⟩, rfl, ?_⟩
      rintro (_ | fuel) hfuel
      · cases hfuel
      · rw [addKids, hd]
        simp only [hend, if_true]
    · obtain ⟨i, hi⟩ := hrest.next_isSome (hrest.head_mem hend)
      obtain ⟨kid', hkid'⟩ := h.lookup_of_next hi
      obtain ⟨acc', hacc', hrun⟩ := ih hrest hend kid'
        ⟨acc.kids ++ [id], update acc.kidsByName kid.name (some id)⟩
      refine ⟨acc', by simp [hacc'], ?_⟩
      rintro (_ | fuel) hfuel
      · cases hfuel
      · rw [addKids, hd]
        simp only [hend, if_false, hkid']
        exact hrun fuel (by simpa using hfuel)

/-- An id that no component of the file has is an exception. -/
theorem addKids_dangles (hdangles : Dangles nullId (next decoded) id) (kid : Component)
    (acc : Kids) : ∃ e n, ∀ fuel, n ≤ fuel → addKids app decoded fuel id kid acc =
      some (.error e) := by
  obtain ⟨x, ⟨l, hpath⟩, hx, hnone⟩ := hdangles
  induction l generalizing id kid acc with
  | nil =>
    obtain rfl := hpath
    refine ⟨.nullPointer, 1, ?_⟩
    rintro (_ | fuel) hfuel
    · cases hfuel
    · rw [addKids, Option.map_eq_none_iff.mp hnone]
  | cons y l ih =>
    obtain ⟨rfl, j, hj, hrest⟩ := hpath
    obtain ⟨d, hd, rfl⟩ := Option.map_eq_some_iff.mp hj
    have hne : d.nextSiblingId ≠ nullId := by
      intro hend
      rw [hend] at hrest
      cases l with
      | nil => exact hx hrest.symm
      | cons z l =>
        obtain ⟨rfl, i, hi, -⟩ := hrest
        rw [h.next_nullId] at hi
        cases hi
    cases hkid : app.lookup d.nextSiblingId with
    | none =>
      refine ⟨.io "Missing nextSibling", 1, ?_⟩
      rintro (_ | fuel) hfuel
      · cases hfuel
      · rw [addKids, hd]
        simp only [hne, if_false, hkid]
    | some kid' =>
      obtain ⟨e, n, hrun⟩ := ih kid'
        ⟨acc.kids ++ [id], update acc.kidsByName kid.name (some id)⟩ hrest
      refine ⟨e, n + 1, ?_⟩
      rintro (_ | fuel) hfuel
      · cases hfuel
      · rw [addKids, hd]
        simp only [hne, if_false, hkid]
        exact hrun fuel (Nat.le_of_succ_le_succ hfuel)

/-- Siblings that come back to a component are a loop without an end. -/
theorem addKids_circular (hcirc : Circular (next decoded) id) (fuel : ℕ) (kid : Component)
    (acc : Kids) : addKids app decoded fuel id kid acc = none := by
  induction fuel generalizing id kid acc with
  | zero => rfl
  | succ fuel ih =>
    obtain ⟨j, hj, hrest⟩ := hcirc.step
    obtain ⟨d, hd, rfl⟩ := Option.map_eq_some_iff.mp hj
    obtain ⟨i, hi, -⟩ := hrest.step
    obtain ⟨kid', hkid'⟩ := h.lookup_of_next hi
    have hne : d.nextSiblingId ≠ nullId := by
      intro hend
      rw [hend, h.next_nullId] at hi
      cases hi
    rw [addKids, hd]
    simp only [hne, if_false, hkid']
    exact ih hrest kid' _

end Kids

/-! ### One component -/

@[simp] theorem App.modify_self (f : Component → Component) :
    (app.modify id f).comps id = (app.comps id).map f := by
  simp [App.modify]

@[simp] theorem App.modify_ne (f : Component → Component) (hne : j ≠ id) :
    (app.modify id f).comps j = app.comps j := by
  simp [App.modify, update_of_ne hne]

@[simp] theorem App.modify_links (f : Component → Component) :
    (app.modify id f).links = app.links := rfl

theorem Ready.modify (h : Ready app decoded) (id : ℕ) (f : Component → Component) :
    Ready (app.modify id f) decoded where
  known j := by
    rw [← h.known j]
    by_cases hj : j = id
    · subst hj
      cases hc : app.comps j <;> simp [hc]
    · rw [App.modify_ne f hj]
  nodup := h.nodup
  ids := h.ids

/-- The parent of the component and its list of children are assigned, if there are any. -/
def Assigned (app app' : App) (d : Decoded) (l : List ℕ) : Prop :=
  ∃ f : Component → Component, app'.comps d.id = (app.comps d.id).map f ∧ ∀ c,
    (f c).type = c.type ∧ (f c).parent = (if d.parentId = nullId then c.parent else some d.parentId) ∧
      (f c).kids = if d.childrenId = nullId then c.kids else some l

section Finish

variable (h : Ready app decoded)

include h

/-- A parent that is no component, or children that lead to an id that no component has. -/
theorem finishDecode_broken (hd : Broken decoded d) :
    ∃ e n, ∀ fuel, n ≤ fuel → finishDecode fuel app decoded d = some (.error e) := by
  have hkids (app : App) (h : Ready app decoded)
      (hdangles : Dangles nullId (next decoded) d.childrenId) :
      ∃ e n, ∀ fuel, n ≤ fuel → finishKids fuel app decoded d = some (.error e) := by
    have hne : d.childrenId ≠ nullId := by
      intro hnil
      obtain ⟨x, hleads, hx, -⟩ := hdangles
      rcases hleads.cases with heq | ⟨j, hj, -⟩
      · exact hx (heq.symm.trans hnil)
      · rw [hnil, h.next_nullId] at hj
        cases hj
    cases hkid : app.lookup d.childrenId with
    | none => exact ⟨.io "Missing child", 0, fun fuel _ => by simp [finishKids, hne, hkid]⟩
    | some kid =>
      obtain ⟨e, n, hrun⟩ := addKids_dangles h hdangles kid ⟨[], fun _ => none⟩
      refine ⟨e, n, fun fuel hfuel => ?_⟩
      simp [finishKids, hne, hkid, hrun fuel hfuel, Except.map]
  by_cases hparent : d.parentId = nullId
  · rcases hd with ⟨hne, -⟩ | hdangles
    · exact absurd hparent hne
    · simp only [finishDecode, hparent, if_true]
      exact hkids app h hdangles
  · simp only [finishDecode, hparent, if_false]
    cases hp : app.lookup d.parentId with
    | none => exact ⟨_, 0, fun _ _ => rfl⟩
    | some p =>
      rcases hd with ⟨-, hmissing⟩ | hdangles
      · rw [← h.lookup_eq_none_iff, hp] at hmissing
        cases hmissing
      · exact hkids _ (h.modify _ _) hdangles

/-- Behind the check of the parent. -/
theorem finishDecode_of_parent (hparent : ¬(d.parentId ≠ nullId ∧ Missing decoded d.parentId)) :
    ∃ app', Ready app' decoded ∧ app'.links = app.links ∧
      (∀ id, id ≠ d.id → app'.comps id = app.comps id) ∧
      (∃ f : Component → Component, app'.comps d.id = (app.comps d.id).map f ∧ ∀ c,
        (f c).type = c.type ∧ (f c).kids = c.kids ∧
          (f c).parent = if d.parentId = nullId then c.parent else some d.parentId) ∧
      ∀ fuel, finishDecode fuel app decoded d = finishKids fuel app' decoded d := by
  by_cases hnil : d.parentId = nullId
  · refine ⟨app, h, rfl, fun _ _ => rfl, ⟨fun c => c, by simp, fun c => ?_⟩, fun fuel => ?_⟩
    · simp [hnil]
    · simp only [finishDecode, hnil, if_true]
  · cases hp : app.lookup d.parentId with
    | none => exact absurd ⟨hnil, (h.lookup_eq_none_iff).mp hp⟩ hparent
    | some p =>
      refine ⟨app.modify d.id fun comp => { comp with parent := some d.parentId }, h.modify _ _,
        rfl, fun id hid => App.modify_ne _ hid,
        ⟨fun comp => { comp with parent := some d.parentId }, App.modify_self _, fun c => ?_⟩,
        fun fuel => ?_⟩
      · simp [hnil]
      · simp only [finishDecode, hnil, if_false, hp]

/-- Children that come back to a component. -/
theorem finishDecode_endless (hd : Endless decoded d) (fuel : ℕ) :
    finishDecode fuel app decoded d = none := by
  obtain ⟨app', h', -, -, -, hrun⟩ := finishDecode_of_parent h hd.1
  obtain ⟨j, hj, -⟩ := hd.2.step
  have hne : d.childrenId ≠ nullId := by
    intro hnil
    rw [hnil, h.next_nullId] at hj
    cases hj
  obtain ⟨kid, hkid⟩ := h'.lookup_of_next hj
  rw [hrun]
  simp [finishKids, hne, hkid, addKids_circular h' hd.2]

/-- A parent that is a component, and a list of children that ends. -/
theorem finishDecode_fine (hparent : ¬(d.parentId ≠ nullId ∧ Missing decoded d.parentId))
    (hchain : Chain nullId (next decoded) d.childrenId l) :
    ∃ app', Ready app' decoded ∧ app'.links = app.links ∧
      (∀ id, id ≠ d.id → app'.comps id = app.comps id) ∧ Assigned app app' d l ∧
      ∀ fuel, l.length ≤ fuel → finishDecode fuel app decoded d = some (.ok app') := by
  obtain ⟨app₁, h₁, hlinks, hothers, ⟨f, hself, hf⟩, hrun⟩ := finishDecode_of_parent h hparent
  by_cases hnil : d.childrenId = nullId
  · refine ⟨app₁, h₁, hlinks, hothers, ⟨f, hself, fun c => ?_⟩, fun fuel _ => ?_⟩
    · obtain ⟨htype, hkids, hpar⟩ := hf c
      exact ⟨htype, hpar, by rw [hkids, if_pos hnil]⟩
    · rw [hrun, finishKids, if_pos hnil]
  · obtain ⟨i, hi⟩ := hchain.next_isSome (hchain.head_mem hnil)
    obtain ⟨kid, hkid⟩ := h₁.lookup_of_next hi
    obtain ⟨acc, hacc, hadd⟩ := addKids_chain h₁ hchain hnil kid ⟨[], fun _ => none⟩
    refine ⟨app₁.modify d.id fun comp =>
      { comp with kids := some acc.kids, kidsByName := some acc.kidsByName }, h₁.modify _ _,
      hlinks, fun id hid => ?_, ⟨fun c =>
        { f c with kids := some acc.kids, kidsByName := some acc.kidsByName }, ?_, fun c => ?_⟩,
      fun fuel hfuel => ?_⟩
    · rw [App.modify_ne _ hid, hothers id hid]
    · rw [App.modify_self, hself, Option.map_map]
      rfl
    · obtain ⟨htype, -, hpar⟩ := hf c
      exact ⟨htype, hpar, by rw [if_neg hnil, hacc]; rfl⟩
    · rw [hrun]
      simp only [finishKids, hnil, if_false, hkid, hadd fuel hfuel]
      rfl

end Finish

/-! ### All components -/

/-- **All components**, up to one that is not fine. -/
theorem finishAll_fine {order : List Decoded} (h : Ready app decoded)
    (hnodup : (order.map Decoded.id).Nodup) (hfine : ∀ d ∈ order, Fine decoded d) :
    ∃ app' n, Ready app' decoded ∧ app'.links = app.links ∧
      (∀ id, (∀ d ∈ order, d.id ≠ id) → app'.comps id = app.comps id) ∧
      (∀ d ∈ order, ∃ l, Chain nullId (next decoded) d.childrenId l ∧ Assigned app app' d l) ∧
      ∀ fuel, n ≤ fuel → ∀ rest,
        finishAll fuel decoded app (order ++ rest) = finishAll fuel decoded app' rest := by
  induction order generalizing app with
  | nil => exact ⟨app, 0, h, rfl, fun _ _ => rfl, by simp, fun _ _ _ => rfl⟩
  | cons d order ih =>
    rw [List.forall_mem_cons] at hfine
    rw [List.map_cons, List.nodup_cons, List.mem_map, not_exists] at hnodup
    obtain ⟨⟨hparent, l, hchain⟩, hrest⟩ := hfine
    obtain ⟨app₁, h₁, hlinks₁, hothers₁, hself₁, hrun₁⟩ := finishDecode_fine h hparent hchain
    obtain ⟨app', n, h', hlinks, hothers, hself, hrun⟩ := ih h₁ hnodup.2 hrest
    have hne : ∀ e ∈ order, e.id ≠ d.id := fun e he heq => hnodup.1 e ⟨he, heq⟩
    refine ⟨app', max n l.length, h', hlinks.trans hlinks₁, fun id hid => ?_, ?_, ?_⟩
    · rw [List.forall_mem_cons] at hid
      rw [hothers id hid.2, hothers₁ id (Ne.symm hid.1)]
    · refine List.forall_mem_cons.mpr ⟨⟨l, hchain, ?_⟩, fun e he => ?_⟩
      · obtain ⟨f, hf⟩ := hself₁
        exact ⟨f, (hothers d.id hne).trans hf.1, hf.2⟩
      · obtain ⟨k, hk, f, hf⟩ := hself e he
        rw [hothers₁ e.id (hne e he)] at hf
        exact ⟨k, hk, f, hf⟩
    · intro fuel hfuel rest
      have hd := hrun₁ fuel ((le_max_right n l.length).trans hfuel)
      rw [List.cons_append, finishAll, hd]
      exact hrun fuel ((le_max_left n l.length).trans hfuel) rest

end Sedona.Sab
