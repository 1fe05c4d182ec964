import Mathlib.Data.Finset.Card
import Mathlib.Data.Finset.Range
import Mathlib.Logic.Relation
import Mathlib.Tactic.Cases
import Sedona.Offline.OfflineApp

/-!
# The Tree of the Offline Application

The invariant of the application, `Inv`, and what each call makes of it. The recursions over the
tree go down from a component to its children; `below` counts the components that are left for
them.

## Main results

* `inv_mounted`, `inv_renamed`, `inv_reordered`: the calls that change one component.
* `inv_unmounted`: a component without children is removed with its links.
-/

namespace Sedona.Offline.OfflineApp

open Function

variable {s t : OfflineApp} {c p k kid : Ref} {id : ℤ} {name : Option JString}

/-! ### Small facts -/

@[simp] theorem modify_comps_self {f : OfflineComponent → OfflineComponent} :
    (s.modify c f).comps c = f (s.comps c) := update_self ..

theorem modify_comps_of_ne {f : OfflineComponent → OfflineComponent} (h : k ≠ c) :
    (s.modify c f).comps k = s.comps k := update_of_ne h ..

/-- An assignment leaves a field alone. -/
theorem modify_field {α : Type} {f : OfflineComponent → OfflineComponent}
    (g : OfflineComponent → α) (hg : g (f (s.comps c)) = g (s.comps c)) (k : Ref) :
    g ((s.modify c f).comps k) = g (s.comps k) := by
  by_cases hk : k = c
  · rw [hk, modify_comps_self, hg]
  · rw [modify_comps_of_ne hk]

theorem lookupId_of_neg (h : id < 0) : s.lookupId id = none := if_pos h

theorem lookupId_of_nonneg (h : 0 ≤ id) : s.lookupId id = (s.lookup[id.toNat]?).join :=
  if_neg (not_lt.mpr h)

theorem join_getElem?_append_replicate {α : Type} (xs : List (Option α)) (n i : ℕ) :
    ((xs ++ List.replicate n none)[i]?).join = (xs[i]?).join := by
  by_cases hi : i < xs.length
  · rw [List.getElem?_append_left hi]
  · rw [List.getElem?_append_right (not_lt.mp hi), List.getElem?_replicate,
      List.getElem?_eq_none (not_lt.mp hi)]
    split <;> rfl

/-- The table after a component has been added. -/
theorem lookupId_addToLookupTable (hid : 0 ≤ (s.comps c).id) :
    (s.addToLookupTable c).lookupId id = if id = (s.comps c).id then some c else s.lookupId id := by
  by_cases hneg : id < 0
  · rw [lookupId_of_neg hneg, lookupId_of_neg hneg, if_neg (by omega)]
  rw [lookupId_of_nonneg (not_lt.mp hneg), lookupId_of_nonneg (not_lt.mp hneg)]
  simp only [addToLookupTable]
  generalize hn : (s.comps c).id.toNat = n
  have hgrown : ∀ i : ℕ, ((if s.lookup.length ≤ n then s.lookup ++
      List.replicate (max (s.lookup.length * 2) (n + 32) - s.lookup.length) none
      else s.lookup)[i]?).join = (s.lookup[i]?).join := by
    intro i
    split
    · exact join_getElem?_append_replicate ..
    · rfl
  have hlength : n < (if s.lookup.length ≤ n then s.lookup ++
      List.replicate (max (s.lookup.length * 2) (n + 32) - s.lookup.length) none
      else s.lookup).length := by
    split
    · rw [List.length_append, List.length_replicate]
      omega
    · omega
  by_cases heq : id = (s.comps c).id
  · rw [if_pos heq, heq, hn, List.getElem?_set_self hlength]
    rfl
  · rw [if_neg heq, List.getElem?_set_ne (by omega), hgrown]

/-- The table after an entry has been cleared. -/
theorem lookupId_set_none {i : ℤ} (hi : 0 ≤ i) :
    ({ s with lookup := s.lookup.set i.toNat none } : OfflineApp).lookupId id =
      if id = i then none else s.lookupId id := by
  by_cases hneg : id < 0
  · rw [lookupId_of_neg hneg, lookupId_of_neg hneg, ite_self]
  rw [lookupId_of_nonneg (not_lt.mp hneg), lookupId_of_nonneg (not_lt.mp hneg)]
  by_cases heq : id = i
  · rw [if_pos heq, heq]
    simp only [List.getElem?_set_self']
    cases s.lookup[i.toNat]? <;> rfl
  · rw [if_neg heq, List.getElem?_set_ne (by omega)]

theorem generateId_free : (s.lookup[s.generateId.1]?).join = none := by
  simp only [generateId]
  cases hfind : (List.range' s.lastId (s.lookup.length - s.lastId)).find? fun i =>
      (s.lookup[i]?).join.isNone with
  | none =>
      rw [Option.getD_none, List.getElem?_eq_none le_rfl]
      rfl
  | some i =>
      have hfree := List.find?_some hfind
      exact Option.isNone_iff_eq_none.mp hfree

/-! ### The invariant -/

/-- What holds of an application between the calls. -/
structure Inv (s : OfflineApp) : Prop where
  root : (s.comps this).app = true ∧ (s.comps this).parent = none ∧ (s.comps this).id = 0
  mounted (c : Ref) : (s.comps c).app = true ↔ c = this ∨ (s.comps c).parent.isSome
  parent {c p : Ref} (h : (s.comps c).parent = some p) : (s.comps p).app = true
  children (c k : Ref) : k ∈ s.children c ↔ (s.comps k).parent = some c
  nodup (c : Ref) : (s.children c).Nodup
  child (c : Ref) (name : Option JString) (k : Ref) :
    s.child c name = some k ↔ k ∈ s.children c ∧ (s.comps k).name = name
  ranked : ∃ rank : Ref → ℕ, ∀ c p, (s.comps c).parent = some p → rank p < rank c
  created {c : Ref} (h : (s.comps c).app = true) : c < s.size
  lookup (id : ℤ) (c : Ref) : s.lookupId id = some c ↔
    (s.comps c).app = true ∧ (s.comps c).id = id ∧ 0 ≤ id
  links {l : OfflineLink} (h : l ∈ s.links) :
    (s.comps l.fromComp).app = true ∧ (s.comps l.toComp).app = true
  distinct : s.links.Nodup

namespace Inv

theorem not_mounted_of_parent (h : Inv s) (hk : (s.comps k).parent = none) (hne : k ≠ this) :
    (s.comps k).app = false := by
  rw [Bool.eq_false_iff]
  intro happ
  rcases (h.mounted k).mp happ with hthis | hsome
  · exact hne hthis
  · rw [hk] at hsome
    exact absurd hsome (by decide)

theorem parent_ne (h : Inv s) (hk : (s.comps k).parent = some p) : p ≠ k := by
  rintro rfl
  obtain ⟨rank, hrank⟩ := h.ranked
  exact lt_irrefl _ (hrank _ _ hk)

/-- The children of a component that is not mounted. -/
theorem children_eq_nil (h : Inv s) (hc : (s.comps c).app = false) : s.children c = [] := by
  refine List.eq_nil_iff_forall_not_mem.mpr fun k hk => ?_
  rw [h.parent ((h.children c k).mp hk)] at hc
  exact absurd hc (by decide)

theorem child_eq_none (h : Inv s) (hc : s.children c = []) : s.child c name = none := by
  cases hchild : s.child c name with
  | none => rfl
  | some k =>
      have hk := ((h.child c name k).mp hchild).1
      rw [hc] at hk
      exact absurd hk List.not_mem_nil

end Inv

/-! ### Mounting a component -/

/-- Assignments to fields of a component and of its parent. -/
def pair (s : OfflineApp) (kid p : Ref) (f g : OfflineComponent → OfflineComponent) :
    Ref → OfflineComponent :=
  update (update s.comps kid (f (s.comps kid))) p (g (s.comps p))

/-- A field that keeps its value in the parent. -/
theorem pair_field {α : Type} {f g : OfflineComponent → OfflineComponent}
    (field : OfflineComponent → α) (hne : kid ≠ p) (hp : ∀ comp, field (g comp) = field comp) :
    field (s.pair kid p f g c) = if c = kid then field (f (s.comps kid)) else field (s.comps c) := by
  unfold pair
  by_cases hcp : c = p
  · rw [hcp, update_self, hp, if_neg hne.symm]
  · rw [update_of_ne hcp]
    by_cases hc : c = kid
    · rw [if_pos hc, hc, update_self]
    · rw [if_neg hc, update_of_ne hc]

/-- A field that keeps its value in the component. -/
theorem pair_field_parent {α : Type} {f g : OfflineComponent → OfflineComponent}
    (field : OfflineComponent → α) (hkid : ∀ comp, field (f comp) = field comp) :
    field (s.pair kid p f g c) = if c = p then field (g (s.comps p)) else field (s.comps c) := by
  unfold pair
  by_cases hcp : c = p
  · rw [if_pos hcp, hcp, update_self]
  · rw [if_neg hcp, update_of_ne hcp]
    by_cases hc : c = kid
    · rw [hc, update_self, hkid]
    · rw [update_of_ne hc]

/-- A field that both assignments leave alone. -/
theorem pair_field_same {α : Type} {f g : OfflineComponent → OfflineComponent}
    (field : OfflineComponent → α) (hne : kid ≠ p) (hkid : ∀ comp, field (f comp) = field comp)
    (hp : ∀ comp, field (g comp) = field comp) :
    field (s.pair kid p f g c) = field (s.comps c) := by
  rw [pair_field field hne hp, hkid]
  split
  · next hc => rw [hc]
  · rfl

/-- The application with a component mounted. -/
def mounted (s : OfflineApp) (p kid : Ref) : OfflineApp :=
  { s with
    comps := s.pair kid p (fun comp => { comp with app := true, parent := some p }) fun comp =>
      { comp with
        kids := some (s.children p ++ [kid])
        kidsByName := some (update (s.child p) (s.comps kid).name (some kid)) }
    lookup := if 0 < (s.comps kid).id then (s.addToLookupTable kid).lookup else s.lookup }

theorem mount_eq (h : Inv s) (hne : kid ≠ p)
    (hmaps : (s.comps p).kids.isSome → (s.comps p).kidsByName.isSome) :
    s.mount p kid = (.ok (), s.mounted p kid) := by
  have htable : (if 0 < (s.comps kid).id then s.addToLookupTable kid else s) =
      { s with
        lookup := if 0 < (s.comps kid).id then (s.addToLookupTable kid).lookup else s.lookup } := by
    split <;> rfl
  unfold mount
  rw [htable]
  cases hkids : (s.comps p).kids with
  | none =>
      have hchildren : s.children p = [] := by rw [children, hkids, Option.getD_none]
      have hmap : s.child p = fun _ => none := funext fun _ => h.child_eq_none hchildren
      simp only [modify, mounted, pair, hkids, hchildren, hmap, Option.isNone_none, if_true, update_self,
        update_of_ne hne, update_of_ne hne.symm, Option.map_some, update_idem, List.nil_append]
      rw [update_comm hne, update_idem, update_comm hne.symm]
  | some kids =>
      obtain ⟨m, hm⟩ := Option.isSome_iff_exists.mp (hmaps (by rw [hkids]; rfl))
      have hchildren : s.children p = kids := by rw [children, hkids, Option.getD_some]
      have hmap : s.child p = m := funext fun _ => by rw [child, hm]; rfl
      simp only [modify, mounted, pair, hkids, hm, hchildren, hmap, Option.isNone_some, update_self,
        update_of_ne hne, update_of_ne hne.symm, Option.map_some, update_idem, Bool.false_eq_true,
        if_false]

section Mounted

variable (hne : kid ≠ p)
include hne

theorem mounted_parent : ((s.mounted p kid).comps c).parent =
    if c = kid then some p else (s.comps c).parent :=
  pair_field (·.parent) hne fun _ => rfl

theorem mounted_app : ((s.mounted p kid).comps c).app =
    if c = kid then true else (s.comps c).app :=
  pair_field (·.app) hne fun _ => rfl

theorem mounted_name : ((s.mounted p kid).comps c).name = (s.comps c).name :=
  pair_field_same (·.name) hne (fun _ => rfl) fun _ => rfl

theorem mounted_id : ((s.mounted p kid).comps c).id = (s.comps c).id :=
  pair_field_same (·.id) hne (fun _ => rfl) fun _ => rfl

end Mounted

theorem mounted_children : (s.mounted p kid).children c =
    if c = p then s.children p ++ [kid] else s.children c := by
  have hkids : ((s.mounted p kid).comps c).kids =
      if c = p then some (s.children p ++ [kid]) else (s.comps c).kids :=
    pair_field_parent (·.kids) fun _ => rfl
  unfold children at hkids ⊢
  rw [hkids]
  split <;> rfl

theorem mounted_child : (s.mounted p kid).child c name =
    if c = p then update (s.child p) (s.comps kid).name (some kid) name else s.child c name := by
  have hmap : ((s.mounted p kid).comps c).kidsByName =
      if c = p then some (update (s.child p) (s.comps kid).name (some kid))
      else (s.comps c).kidsByName :=
    pair_field_parent (·.kidsByName) fun _ => rfl
  unfold child at hmap ⊢
  rw [hmap]
  split <;> rfl

theorem mounted_lookupId : (s.mounted p kid).lookupId id =
    if id = (s.comps kid).id ∧ 0 < id then some kid else s.lookupId id := by
  by_cases hpos : 0 < (s.comps kid).id
  · have htable : (s.addToLookupTable kid).lookupId id =
        if id = (s.comps kid).id then some kid else s.lookupId id :=
      lookupId_addToLookupTable hpos.le
    have hsame : (s.mounted p kid).lookupId id = (s.addToLookupTable kid).lookupId id := by
      simp only [lookupId, mounted, if_pos hpos]
    rw [hsame, htable]
    by_cases heq : id = (s.comps kid).id
    · rw [if_pos heq, if_pos ⟨heq, heq ▸ hpos⟩]
    · rw [if_neg heq, if_neg fun hc => heq hc.1]
  · have hnot : ¬(id = (s.comps kid).id ∧ 0 < id) := fun hc => hpos (hc.1 ▸ hc.2)
    rw [if_neg hnot]
    simp only [lookupId, mounted, if_neg hpos]

/-- **A component is mounted**: it has no parent, and neither its name nor its id is in use. -/
theorem inv_mounted (h : Inv s) (hp : (s.comps p).app = true) (hkid : (s.comps kid).parent = none)
    (hfree : s.lookupId (s.comps kid).id = none) (hname : s.child p (s.comps kid).name = none)
    (hcreated : kid < s.size) : Inv (s.mounted p kid) := by
  have hthis : kid ≠ this := by
    rintro rfl
    rw [(h.lookup _ this).mpr ⟨h.root.1, rfl, h.root.2.2.ge⟩] at hfree
    cases hfree
  have happ : (s.comps kid).app = false := h.not_mounted_of_parent hkid hthis
  have hne : kid ≠ p := by
    rintro rfl
    rw [happ] at hp
    cases hp
  have hleaf : ∀ c, (s.comps c).parent ≠ some kid := fun c hc => by
    rw [h.parent hc] at happ
    cases happ
  have hnotin : ∀ c, kid ∉ s.children c := fun c hc => by
    rw [(h.children c kid).mp hc] at hkid
    cases hkid
  constructor
  case root =>
    rw [mounted_app hne, mounted_parent hne, mounted_id hne, if_neg hthis.symm, if_neg hthis.symm]
    exact h.root
  case mounted =>
    intro c
    rw [mounted_app hne, mounted_parent hne]
    by_cases hc : c = kid
    · rw [if_pos hc, if_pos hc]
      exact iff_of_true rfl (Or.inr rfl)
    · rw [if_neg hc, if_neg hc]
      exact h.mounted c
  case parent =>
    intro c q hq
    rw [mounted_parent hne] at hq
    rw [mounted_app hne]
    by_cases hc : c = kid
    · rw [if_pos hc] at hq
      rw [← Option.some.inj hq, if_neg hne.symm]
      exact hp
    · rw [if_neg hc] at hq
      have hqk : q ≠ kid := fun hqk => hleaf c (hqk ▸ hq)
      rw [if_neg hqk]
      exact h.parent hq
  case children =>
    intro c k
    rw [mounted_children, mounted_parent hne]
    by_cases hk : k = kid
    · rw [if_pos hk, hk]
      by_cases hc : c = p
      · rw [if_pos hc, hc]
        exact iff_of_true (List.mem_append_right _ (List.mem_singleton_self kid)) rfl
      · rw [if_neg hc]
        exact iff_of_false (hnotin c) fun hpc => hc (Option.some.inj hpc).symm
    · rw [if_neg hk, ← h.children c k]
      by_cases hc : c = p
      · rw [if_pos hc, hc, List.mem_append, List.mem_singleton]
        exact or_iff_left hk
      · rw [if_neg hc]
  case nodup =>
    intro c
    rw [mounted_children]
    by_cases hc : c = p
    · rw [if_pos hc, List.nodup_append]
      refine ⟨h.nodup p, List.nodup_singleton kid, fun a ha b hb => ?_⟩
      rw [List.mem_singleton.mp hb]
      rintro rfl
      exact hnotin p ha
    · rw [if_neg hc]
      exact h.nodup c
  case child =>
    intro c name k
    rw [mounted_child, mounted_children, mounted_name hne]
    by_cases hc : c = p
    · subst hc
      rw [if_pos rfl, if_pos rfl, List.mem_append, List.mem_singleton]
      by_cases hn : name = (s.comps kid).name
      · rw [hn, update_self]
        constructor
        · intro hk
          obtain rfl := Option.some.inj hk
          exact ⟨Or.inr rfl, rfl⟩
        · rintro ⟨hmem | rfl, hk⟩
          · rw [(h.child c _ k).mpr ⟨hmem, hk⟩] at hname
            cases hname
          · rfl
      · rw [update_of_ne hn, h.child c name k]
        constructor
        · exact fun hk => ⟨Or.inl hk.1, hk.2⟩
        · rintro ⟨hmem | rfl, hk⟩
          · exact ⟨hmem, hk⟩
          · exact absurd hk.symm hn
    · rw [if_neg hc, if_neg hc]
      exact h.child c name k
  case ranked =>
    obtain ⟨rank, hrank⟩ := h.ranked
    refine ⟨update rank kid (rank p + 1), fun c q hq => ?_⟩
    rw [mounted_parent hne] at hq
    by_cases hc : c = kid
    · rw [if_pos hc] at hq
      rw [hc, ← Option.some.inj hq, update_self, update_of_ne hne.symm]
      exact Nat.lt_succ_self _
    · rw [if_neg hc] at hq
      have hqk : q ≠ kid := fun hqk => hleaf c (hqk ▸ hq)
      rw [update_of_ne hc, update_of_ne hqk]
      exact hrank c q hq
  case created =>
    intro c hc
    rw [mounted_app hne] at hc
    by_cases hck : c = kid
    · exact hck ▸ hcreated
    · rw [if_neg hck] at hc
      exact h.created hc
  case lookup =>
    intro i c
    rw [mounted_lookupId, mounted_app hne, mounted_id hne]
    by_cases hi : i = (s.comps kid).id ∧ 0 < i
    · rw [if_pos hi]
      constructor
      · intro hc
        obtain rfl := Option.some.inj hc
        exact ⟨if_pos rfl, hi.1.symm, hi.2.le⟩
      · rintro ⟨hc, hid, -⟩
        by_cases hck : c = kid
        · rw [hck]
        · rw [if_neg hck] at hc
          rw [(h.lookup _ c).mpr ⟨hc, hid.trans hi.1, hi.1 ▸ hi.2.le⟩] at hfree
          cases hfree
    · rw [if_neg hi, h.lookup i c]
      by_cases hck : c = kid
      · subst hck
        rw [if_pos rfl]
        refine iff_of_false (fun hc => ?_) fun hc => hi ⟨hc.2.1.symm, ?_⟩
        · rw [happ] at hc
          cases hc.1
        · -- the id 0 is that of the application
          refine lt_of_le_of_ne hc.2.2 fun h0 => ?_
          rw [hc.2.1, ← h0, (h.lookup 0 this).mpr ⟨h.root.1, h.root.2.2, le_rfl⟩] at hfree
          cases hfree
      · rw [if_neg hck]
  case links =>
    intro l hl
    rw [mounted_app hne, mounted_app hne]
    constructor
    · split
      · rfl
      · exact (h.links hl).1
    · split
      · rfl
      · exact (h.links hl).2
  case distinct => exact h.distinct

/-! ### Calls that keep the tree -/

/-- The same components are mounted, in the same places up to the order of children. -/
structure SameTree (s t : OfflineApp) : Prop where
  app (c : Ref) : (t.comps c).app = (s.comps c).app
  parent (c : Ref) : (t.comps c).parent = (s.comps c).parent
  children (c : Ref) : (t.children c).Perm (s.children c)
  size : t.size = s.size

theorem SameTree.refl (s : OfflineApp) : SameTree s s :=
  ⟨fun _ => rfl, fun _ => rfl, fun _ => .refl _, rfl⟩

theorem SameTree.trans {u : OfflineApp} (h : SameTree s t) (h' : SameTree t u) : SameTree s u :=
  ⟨fun c => (h'.app c).trans (h.app c), fun c => (h'.parent c).trans (h.parent c),
    fun c => (h'.children c).trans (h.children c), h'.size.trans h.size⟩

/-- A call that keeps the tree keeps the invariant, if names, ids and links stay in order. -/
theorem Inv.transport (h : Inv s) (hsame : SameTree s t) (hroot : (t.comps this).id = 0)
    (hchild : ∀ c name k, t.child c name = some k ↔ k ∈ s.children c ∧ (t.comps k).name = name)
    (hlookup : ∀ id c, t.lookupId id = some c ↔
      (s.comps c).app = true ∧ (t.comps c).id = id ∧ 0 ≤ id)
    (hlinks : ∀ l ∈ t.links, (s.comps l.fromComp).app = true ∧ (s.comps l.toComp).app = true)
    (hdistinct : t.links.Nodup) : Inv t where
  root := ⟨(hsame.app _).trans h.root.1, (hsame.parent _).trans h.root.2.1, hroot⟩
  mounted c := by
    rw [hsame.app, hsame.parent]
    exact h.mounted c
  parent hp := by
    rw [hsame.parent] at hp
    rw [hsame.app]
    exact h.parent hp
  children c k := by
    rw [(hsame.children c).mem_iff, hsame.parent]
    exact h.children c k
  nodup c := (hsame.children c).nodup_iff.mpr (h.nodup c)
  child c name k := by
    rw [hchild c name k, (hsame.children c).mem_iff]
  ranked := by
    obtain ⟨rank, hrank⟩ := h.ranked
    exact ⟨rank, fun c p hp => hrank c p (hsame.parent c ▸ hp)⟩
  created hc := by
    rw [hsame.app] at hc
    rw [hsame.size]
    exact h.created hc
  lookup id c := by
    rw [hlookup id c, hsame.app]
  links hl := by
    rw [hsame.app, hsame.app]
    exact hlinks _ hl
  distinct := hdistinct

/-- An assignment that leaves the place of a component alone. -/
theorem sameTree_modify {f : OfflineComponent → OfflineComponent}
    (happ : (f (s.comps c)).app = (s.comps c).app)
    (hparent : (f (s.comps c)).parent = (s.comps c).parent)
    (hkids : (f (s.comps c)).kids = (s.comps c).kids) : SameTree s (s.modify c f) where
  app := modify_field (·.app) happ
  parent := modify_field (·.parent) hparent
  children k := by
    unfold OfflineApp.children
    rw [modify_field (·.kids) hkids]
  size := rfl

/-! ### Names -/

/-- A component that has no parent gets a name. -/
theorem inv_renamed_root (h : Inv s) (hc : (s.comps c).parent = none) (newName : JString) :
    Inv (s.modify c fun comp => { comp with name := some newName }) := by
  refine h.transport (sameTree_modify rfl rfl rfl) ?_ (fun d name k => ?_) (fun id k => ?_)
    (fun l hl => h.links hl) h.distinct
  · rw [modify_field (·.id) rfl]
    exact h.root.2.2
  · unfold OfflineApp.child
    rw [modify_field (·.kidsByName) rfl]
    refine (h.child d name k).trans (and_congr_right fun hk => ?_)
    have hkc : k ≠ c := by
      rintro rfl
      rw [(h.children d k).mp hk] at hc
      cases hc
    rw [modify_comps_of_ne hkc]
  · rw [modify_field (·.id) rfl]
    exact h.lookup id k

/-- A child gets a name. -/
def renamed (s : OfflineApp) (c p : Ref) (newName : JString) : OfflineApp :=
  (s.modify p fun comp =>
    { comp with
      kidsByName := comp.kidsByName.map fun m =>
        update (update m (s.comps c).name none) (some newName) (some c) }).modify c
    fun comp => { comp with name := some newName }

theorem renamed_child (h : Inv s) (hc : (s.comps c).parent = some p) (newName : JString)
    (d : Ref) : (s.renamed c p newName).child d name =
      if d = p then
        if name = some newName then some c
        else if name = (s.comps c).name then none
        else s.child p name
      else s.child d name := by
  have hkids : ((s.renamed c p newName).comps d).kidsByName = ((s.modify p fun comp =>
      { comp with
        kidsByName := comp.kidsByName.map fun m =>
          update (update m (s.comps c).name none) (some newName) (some c) }).comps d).kidsByName :=
    modify_field (·.kidsByName) rfl d
  unfold OfflineApp.child
  rw [hkids]
  by_cases hd : d = p
  · have hmap : s.child p (s.comps c).name = some c :=
      (h.child p _ c).mpr ⟨(h.children p c).mpr hc, rfl⟩
    unfold OfflineApp.child at hmap
    obtain ⟨m, hm, -⟩ := Option.bind_eq_some_iff.mp hmap
    rw [if_pos hd, hd, modify_comps_self]
    simp only [hm, Option.map_some, Option.bind_some, update_apply]
  · rw [if_neg hd, modify_comps_of_ne hd]

/-- **A child is renamed** to a name that none of the others has. -/
theorem inv_renamed (h : Inv s) (hc : (s.comps c).parent = some p) {newName : JString}
    (hfree : s.child p (some newName) = none ∨ s.child p (some newName) = some c) :
    Inv (s.renamed c p newName) := by
  have hsame : SameTree s (s.renamed c p newName) :=
    (sameTree_modify rfl rfl rfl).trans (sameTree_modify rfl rfl rfl)
  have hid : ∀ k, ((s.renamed c p newName).comps k).id = (s.comps k).id := fun k =>
    (modify_field (·.id) rfl k).trans (modify_field (·.id) rfl k)
  have hname : ∀ k, ((s.renamed c p newName).comps k).name =
      if k = c then some newName else (s.comps k).name := by
    intro k
    by_cases hk : k = c
    · rw [if_pos hk, hk, renamed, modify_comps_self]
    · rw [if_neg hk, renamed, modify_comps_of_ne hk]
      exact modify_field (·.name) rfl k
  have hcp : c ∈ s.children p := (h.children p c).mpr hc
  refine h.transport hsame ?_ (fun d name k => ?_) (fun id k => ?_) (fun l hl => h.links hl)
    h.distinct
  · rw [hid]
    exact h.root.2.2
  · rw [renamed_child h hc, hname]
    by_cases hd : d = p
    · subst hd
      rw [if_pos rfl]
      by_cases hk : k = c
      · subst hk
        rw [if_pos rfl]
        by_cases hnew : name = some newName
        · rw [if_pos hnew]
          exact iff_of_true rfl ⟨hcp, hnew.symm⟩
        · rw [if_neg hnew]
          refine iff_of_false (fun hchild => ?_) fun hn => hnew hn.2.symm
          split at hchild
          · cases hchild
          · next hold => exact hold ((h.child d name k).mp hchild).2.symm
      · rw [if_neg hk]
        by_cases hnew : name = some newName
        · rw [if_pos hnew]
          refine iff_of_false (fun hck => hk (Option.some.inj hck).symm) fun hn => ?_
          have hchild := (h.child d name k).mpr hn
          rw [hnew] at hchild
          rcases hfree with hnone | hself
          · rw [hnone] at hchild
            cases hchild
          · exact hk (Option.some.inj (hchild.symm.trans hself))
        · rw [if_neg hnew]
          by_cases hold : name = (s.comps c).name
          · rw [if_pos hold]
            refine iff_of_false (fun hn => nomatch hn) fun hn => hk ?_
            have hchild := (h.child d name k).mpr hn
            exact Option.some.inj (hchild.symm.trans ((h.child d name c).mpr ⟨hcp, hold.symm⟩))
          · rw [if_neg hold]
            exact h.child d name k
    · rw [if_neg hd, h.child d name k]
      refine and_congr_right fun hk => ?_
      have hkc : k ≠ c := by
        rintro rfl
        exact hd (Option.some.inj (((h.children d k).mp hk).symm.trans hc))
      rw [if_neg hkc]
  · rw [hid]
    exact h.lookup id k

/-! ### The order of the children -/

theorem reordered_spec {kids newList : List Ref} {ids : List ℤ}
    (hnew : s.reordered kids ids = some newList) :
    newList.map (fun k => (s.comps k).id) = ids ∧ newList ⊆ kids := by
  induction ids generalizing newList with
  | nil =>
      obtain rfl : [] = newList := Option.some.inj hnew
      exact ⟨rfl, List.nil_subset _⟩
  | cons id ids ih =>
      unfold reordered at hnew
      rw [List.mapM_cons] at hnew
      obtain ⟨kid, hkid, hrest⟩ := Option.bind_eq_some_iff.mp hnew
      obtain ⟨rest, hids, hlist⟩ := Option.bind_eq_some_iff.mp hrest
      obtain rfl : kid :: rest = newList := Option.some.inj hlist
      obtain ⟨hmap, hsub⟩ := ih hids
      have hfound := List.find?_some hkid
      refine ⟨?_, List.cons_subset.mpr ⟨List.mem_of_find?_eq_some hkid, hsub⟩⟩
      rw [List.map_cons, hmap, of_decide_eq_true hfound]

/-- The children of a component that are found by distinct ids. -/
theorem reordered_perm {kids newList : List Ref} {ids : List ℤ}
    (hids : ids.Nodup) (hlength : kids.length = ids.length)
    (hnew : s.reordered kids ids = some newList) : newList.Perm kids := by
  obtain ⟨hmap, hsub⟩ := reordered_spec hnew
  have hnodup : newList.Nodup := .of_map (fun k => (s.comps k).id) (hmap ▸ hids)
  refine (List.subperm_of_subset hnodup hsub).perm_of_length_le ?_
  rw [hlength, ← hmap, List.length_map]

/-- **The children of a component are reordered.** -/
theorem inv_reordered (h : Inv s) {newList : List Ref} (hperm : newList.Perm (s.children p)) :
    Inv (s.modify p fun comp => { comp with kids := some newList }) := by
  have hsame : SameTree s (s.modify p fun comp => { comp with kids := some newList }) := by
    refine ⟨modify_field (·.app) rfl, modify_field (·.parent) rfl, fun c => ?_, rfl⟩
    unfold OfflineApp.children
    by_cases hc : c = p
    · rw [hc, modify_comps_self]
      exact hperm
    · rw [modify_comps_of_ne hc]
  refine h.transport hsame ?_ (fun d name k => ?_) (fun id k => ?_) (fun l hl => h.links hl)
    h.distinct
  · rw [modify_field (·.id) rfl]
    exact h.root.2.2
  · unfold OfflineApp.child
    rw [modify_field (·.kidsByName) rfl, modify_field (·.name) rfl]
    exact h.child d name k
  · rw [modify_field (·.id) rfl]
    exact h.lookup id k

/-! ### Links -/

theorem equivalent_self (l : OfflineLink) : s.equivalent l l = true := by
  unfold equivalent
  split <;> simp

/-- Links that are equivalent reference the same components, by their ids. -/
theorem references_of_equivalent {l z : OfflineLink} (h : s.equivalent l z = true) :
    s.references l kid = s.references z kid := by
  unfold equivalent at h
  unfold references
  split at h
  · simp only [decide_eq_true_eq] at h
    rw [h.1, h.2.2.1]
  · simp only [decide_eq_true_eq] at h
    rw [h.1, h.2.2.1]

/-- **A link is added** between components that are mounted, unless there is an equivalent one. -/
theorem inv_addLink (h : Inv s) {l : OfflineLink}
    (hmounted : s.findLink l = none →
      (s.comps l.fromComp).app = true ∧ (s.comps l.toComp).app = true) : Inv (s.addLink l) := by
  unfold addLink
  cases hfind : s.findLink l with
  | some z => exact h
  | none =>
      have hnew : l ∉ s.links := fun hl =>
        List.find?_eq_none.mp hfind l hl (equivalent_self l)
      refine h.transport ⟨fun _ => rfl, fun _ => rfl, fun _ => .refl _, rfl⟩ h.root.2.2 h.child
        h.lookup (fun z hz => ?_) ?_
      · rcases List.mem_append.mp hz with hz | hz
        · exact h.links hz
        · rw [List.mem_singleton.mp hz]
          exact hmounted hfind
      · refine List.nodup_append.mpr ⟨h.distinct, List.nodup_singleton l, fun a ha b hb => ?_⟩
        rw [List.mem_singleton.mp hb]
        rintro rfl
        exact hnew ha

/-- A call that takes links away keeps the invariant. -/
theorem inv_sublist (h : Inv s) {links : List OfflineLink} (hsub : links.Sublist s.links) :
    Inv { s with links } :=
  h.transport ⟨fun _ => rfl, fun _ => rfl, fun _ => .refl _, rfl⟩ h.root.2.2 h.child h.lookup
    (fun _ hl => h.links (hsub.subset hl)) (h.distinct.sublist hsub)

theorem inv_removeLink (h : Inv s) (l : OfflineLink) : Inv (s.removeLink l) := by
  unfold removeLink
  cases s.findLink l with
  | none => exact h
  | some z => exact inv_sublist h List.erase_sublist

/-- The loop of `remove` over the links takes those away that reference the component. -/
theorem foldl_removeLink (done zs : List OfflineLink)
    (hdone : ∀ l ∈ done, s.references l kid = false) :
    zs.foldl (fun s z => if s.references z kid then s.removeLink z else s)
      { s with links := done ++ zs } =
      { s with links := done ++ zs.filter fun z => !s.references z kid } := by
  induction zs generalizing done with
  | nil => rfl
  | cons z zs ih =>
      rw [List.foldl_cons]
      have hrefs : ({ s with links := done ++ z :: zs } : OfflineApp).references z kid =
          s.references z kid := rfl
      rw [hrefs]
      by_cases hz : s.references z kid = true
      · have hnotin : z ∉ done := fun hmem => by
          rw [hdone z hmem] at hz
          cases hz
        have hfind : (done ++ z :: zs).find? (s.equivalent z) = some z := by
          rw [List.find?_append, List.find?_eq_none.mpr fun l hl heq => ?_, Option.none_or,
            List.find?_cons_of_pos (equivalent_self z)]
          rw [references_of_equivalent heq, hdone l hl] at hz
          cases hz
        have hremove : ({ s with links := done ++ z :: zs } : OfflineApp).removeLink z =
            { s with links := done ++ zs } := by
          have hlink : ({ s with links := done ++ z :: zs } : OfflineApp).findLink z = some z :=
            hfind
          unfold removeLink
          rw [hlink]
          simp only [List.erase_append_right _ hnotin, List.erase_cons_head]
        rw [if_pos hz, hremove, ih done hdone, List.filter_cons_of_neg]
        rw [hz]
        decide
      · have hfalse : s.references z kid = false := Bool.eq_false_iff.mpr hz
        have hlist : done ++ z :: zs = (done ++ [z]) ++ zs := by simp
        rw [if_neg hz, hlist, ih (done ++ [z]), List.filter_cons_of_pos, List.append_assoc]
        · rfl
        · rw [hfalse]
          rfl
        · intro l hl
          rcases List.mem_append.mp hl with hl | hl
          · exact hdone l hl
          · rw [List.mem_singleton.mp hl]
            exact hfalse

/-! ### Removing a component -/

/-- The application without a component. -/
def unmounted (s : OfflineApp) (p kid : Ref) : OfflineApp :=
  { s with
    comps := s.pair kid p (fun comp => { comp with app := false, parent := none }) fun comp =>
      { comp with
        kids := some ((s.children p).erase kid)
        kidsByName := some (update (s.child p) (s.comps kid).name none) }
    lookup := s.lookup.set (s.comps kid).id.toNat none
    links := s.links.filter fun l => !s.references l kid }

theorem unmount_eq (h : Inv s) (hkid : (s.comps kid).parent = some p) :
    s.unmount kid = (.ok (), s.unmounted p kid) := by
  have hne : p ≠ kid := h.parent_ne hkid
  have hmem : kid ∈ s.children p := (h.children p kid).mpr hkid
  have hmap := (h.child p _ kid).mpr ⟨hmem, rfl⟩
  unfold child at hmap
  obtain ⟨m, hm, -⟩ := Option.bind_eq_some_iff.mp hmap
  have hchild : s.child p = m := funext fun _ => by rw [child, hm]; rfl
  have hkids : (s.comps p).kids = some (s.children p) := by
    unfold children at hmem ⊢
    cases hsome : (s.comps p).kids with
    | none => rw [hsome] at hmem; exact absurd hmem List.not_mem_nil
    | some kids => rfl
  have hlinks : s.links.foldl (fun s z => if s.references z kid then s.removeLink z else s)
      { s with links := [] ++ s.links } =
      { s with links := [] ++ s.links.filter fun z => !s.references z kid } :=
    foldl_removeLink [] s.links fun _ hl => absurd hl List.not_mem_nil
  rw [List.nil_append, List.nil_append] at hlinks
  unfold unmount
  have hself : ({ s with links := s.links } : OfflineApp) = s := rfl
  rw [hself] at hlinks
  rw [hlinks]
  simp only [modify, unmounted, pair, hkid, update_self, update_of_ne hne, hkids, hm, hchild]

theorem unmounted_children : (s.unmounted p kid).children c =
    if c = p then (s.children p).erase kid else s.children c := by
  have hkids : ((s.unmounted p kid).comps c).kids =
      if c = p then some ((s.children p).erase kid) else (s.comps c).kids :=
    pair_field_parent (·.kids) fun _ => rfl
  unfold children at hkids ⊢
  rw [hkids]
  split <;> rfl

theorem unmounted_child : (s.unmounted p kid).child c name =
    if c = p then update (s.child p) (s.comps kid).name none name else s.child c name := by
  have hmap : ((s.unmounted p kid).comps c).kidsByName =
      if c = p then some (update (s.child p) (s.comps kid).name none)
      else (s.comps c).kidsByName :=
    pair_field_parent (·.kidsByName) fun _ => rfl
  unfold child at hmap ⊢
  rw [hmap]
  split <;> rfl

section Unmounted

variable (hne : kid ≠ p)
include hne

theorem unmounted_parent : ((s.unmounted p kid).comps c).parent =
    if c = kid then none else (s.comps c).parent :=
  pair_field (·.parent) hne fun _ => rfl

theorem unmounted_app : ((s.unmounted p kid).comps c).app =
    if c = kid then false else (s.comps c).app :=
  pair_field (·.app) hne fun _ => rfl

theorem unmounted_name : ((s.unmounted p kid).comps c).name = (s.comps c).name :=
  pair_field_same (·.name) hne (fun _ => rfl) fun _ => rfl

theorem unmounted_id : ((s.unmounted p kid).comps c).id = (s.comps c).id :=
  pair_field_same (·.id) hne (fun _ => rfl) fun _ => rfl

end Unmounted

theorem unmounted_lookupId (hid : 0 ≤ (s.comps kid).id) :
    (s.unmounted p kid).lookupId id = if id = (s.comps kid).id then none else s.lookupId id :=
  lookupId_set_none hid

/-- **A component without children is removed**, with the links that reference it. -/
theorem inv_unmounted (h : Inv s) (hkid : (s.comps kid).parent = some p)
    (hid : 0 ≤ (s.comps kid).id) (hleaf : s.children kid = []) : Inv (s.unmounted p kid) := by
  have hne : kid ≠ p := (h.parent_ne hkid).symm
  have hthis : kid ≠ this := by
    rintro rfl
    rw [h.root.2.1] at hkid
    cases hkid
  have happ : (s.comps kid).app = true := (h.mounted kid).mpr (Or.inr (hkid ▸ rfl))
  have horphan : ∀ c, (s.comps c).parent ≠ some kid := fun c hc => by
    have hmem := (h.children kid c).mpr hc
    rw [hleaf] at hmem
    exact absurd hmem List.not_mem_nil
  have hlookup : s.lookupId (s.comps kid).id = some kid := (h.lookup _ kid).mpr ⟨happ, rfl, hid⟩
  constructor
  case root =>
    rw [unmounted_app hne, unmounted_parent hne, unmounted_id hne, if_neg hthis.symm,
      if_neg hthis.symm]
    exact h.root
  case mounted =>
    intro c
    rw [unmounted_app hne, unmounted_parent hne]
    by_cases hc : c = kid
    · rw [if_pos hc, if_pos hc, hc]
      exact iff_of_false (by decide) (not_or.mpr ⟨hthis, by decide⟩)
    · rw [if_neg hc, if_neg hc]
      exact h.mounted c
  case parent =>
    intro c q hq
    rw [unmounted_parent hne] at hq
    rw [unmounted_app hne]
    by_cases hc : c = kid
    · rw [if_pos hc] at hq
      cases hq
    · rw [if_neg hc] at hq
      have hqk : q ≠ kid := fun hqk => horphan c (hqk ▸ hq)
      rw [if_neg hqk]
      exact h.parent hq
  case children =>
    intro c k
    rw [unmounted_children, unmounted_parent hne]
    by_cases hc : c = p
    · rw [if_pos hc, hc, (h.nodup p).mem_erase_iff, h.children p k]
      by_cases hk : k = kid
      · rw [if_pos hk]
        exact iff_of_false (fun hmem => hmem.1 hk) fun hq => nomatch hq
      · rw [if_neg hk]
        exact and_iff_right hk
    · rw [if_neg hc, h.children c k]
      by_cases hk : k = kid
      · rw [if_pos hk, hk, hkid]
        exact iff_of_false (fun hq => hc (Option.some.inj hq).symm) fun hq => nomatch hq
      · rw [if_neg hk]
  case nodup =>
    intro c
    rw [unmounted_children]
    split
    · exact (h.nodup p).erase kid
    · exact h.nodup c
  case child =>
    intro c name k
    rw [unmounted_child, unmounted_children, unmounted_name hne]
    by_cases hc : c = p
    · subst hc
      rw [if_pos rfl, if_pos rfl, (h.nodup c).mem_erase_iff]
      by_cases hn : name = (s.comps kid).name
      · rw [hn, update_self]
        refine iff_of_false (fun hk => nomatch hk) fun hk => hk.1.1 ?_
        have hchild := (h.child c _ k).mpr ⟨hk.1.2, hk.2⟩
        have hself := (h.child c _ kid).mpr ⟨(h.children c kid).mpr hkid, rfl⟩
        exact Option.some.inj (hchild.symm.trans hself)
      · rw [update_of_ne hn, h.child c name k]
        refine ⟨fun hk => ⟨⟨fun heq => hn ?_, hk.1⟩, hk.2⟩, fun hk => ⟨hk.1.2, hk.2⟩⟩
        rw [← heq, hk.2]
    · rw [if_neg hc, if_neg hc]
      exact h.child c name k
  case ranked =>
    obtain ⟨rank, hrank⟩ := h.ranked
    refine ⟨rank, fun c q hq => hrank c q ?_⟩
    rw [unmounted_parent hne] at hq
    split at hq
    · cases hq
    · exact hq
  case created =>
    intro c hc
    rw [unmounted_app hne] at hc
    split at hc
    · cases hc
    · exact h.created hc
  case lookup =>
    intro i c
    rw [unmounted_lookupId hid, unmounted_app hne, unmounted_id hne]
    by_cases hi : i = (s.comps kid).id
    · rw [if_pos hi]
      refine iff_of_false (fun hc => nomatch hc) ?_
      rintro ⟨hc, hci, hpos⟩
      split at hc
      · cases hc
      · next hck =>
          have hother := (h.lookup i c).mpr ⟨hc, hci, hpos⟩
          rw [hi, hlookup] at hother
          exact hck (Option.some.inj hother).symm
    · rw [if_neg hi, h.lookup i c]
      by_cases hck : c = kid
      · subst hck
        exact iff_of_false (fun hc => hi hc.2.1.symm) fun hc => hi hc.2.1.symm
      · rw [if_neg hck]
  case links =>
    intro l hl
    obtain ⟨hmem, hrefs⟩ := List.mem_filter.mp hl
    have hfrom : l.fromComp ≠ kid := by
      rintro hfrom
      simp [references, hfrom] at hrefs
    have hto : l.toComp ≠ kid := by
      rintro hto
      simp [references, hto] at hrefs
    rw [unmounted_app hne, unmounted_app hne, if_neg hfrom, if_neg hto]
    exact h.links hmem
  case distinct => exact h.distinct.filter _

end Sedona.Offline.OfflineApp
