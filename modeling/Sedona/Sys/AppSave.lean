import Sedona.Sys.AppFile
import Sedona.Sys.AppInv

/-!
# What Is Saved

The app file as one encoding for each component and each link.

## Main results

* `saveComps_eq`: the saved components are those in the table, each once.
* `saveLinks_spec`: the saved links are those of the app, each once.
-/

namespace Sedona

open Function Intrusive

namespace App

variable {a : App Props} {c : Component} {k : Ref}

/-- The components in the table, in the order of their ids. -/
def liveComps (a : App Props) : List Component := a.comps.filterMap a.objs

theorem lookup_of_mem_comps (ht : a.Table) {r : Ref} (hr : r ∈ a.comps) (hc : a.objs r = some c) :
    a.lookup c.id = r := by
  obtain ⟨i, hi, rfl⟩ := List.mem_iff_getElem.mp hr
  have hlookup : a.lookup i = a.comps[i] := by
    simp [lookup, List.getD_eq_getElem?_getD, hi]
  have hcomp : a.comp i = some c := by rw [comp, hlookup, hc]
  rw [ht.comp_id hcomp, hlookup]

theorem mem_liveComps (ht : a.Table) : c ∈ a.liveComps ↔ a.comp c.id = some c := by
  rw [liveComps, List.mem_filterMap]
  constructor
  · rintro ⟨r, hr, hc⟩
    rw [comp, lookup_of_mem_comps ht hr hc, hc]
  · intro hc
    refine ⟨a.lookup c.id, ?_, hc⟩
    have h0 := ht.lookup_ne hc
    rw [lookup, List.getD_eq_getElem?_getD] at h0 ⊢
    cases hget : a.comps[c.id]? with
    | none => simp [hget] at h0
    | some r => exact List.mem_of_getElem? hget

/-- Different entries of the table have different ids. -/
theorem nodup_liveComps (ht : a.Table) : (a.liveComps.map (·.id)).Nodup := by
  have hpair : a.comps.Pairwise fun r r' => r = 0 ∨ r ≠ r' := by
    rw [List.pairwise_iff_getElem]
    intro i j hi hj hij
    have hlookup : ∀ n (hn : n < a.comps.length), a.lookup n = a.comps[n] := by
      intro n hn
      simp [lookup, List.getD_eq_getElem?_getD, hn]
    by_cases h0 : a.comps[i] = 0
    · exact Or.inl h0
    · refine Or.inr fun heq => ?_
      rw [← hlookup i hi] at h0 heq
      rw [← hlookup j hj] at heq
      exact absurd (ht.inj h0 heq) (Nat.ne_of_lt hij)
  rw [List.Nodup, List.pairwise_map]
  refine (List.pairwise_filterMap.mpr ?_)
  refine hpair.imp_of_mem fun {r r'} hr hr' hne c hc c' hc' => ?_
  rcases hne with rfl | hne
  · exact absurd (ht.null.symm.trans hc) (by simp)
  · intro hid
    refine hne ?_
    rw [← lookup_of_mem_comps ht hr hc, hid, lookup_of_mem_comps ht hr' hc']

/-- **The saved components.** -/
theorem saveComps_eq (ht : a.Table) :
    saveComps a a.comps =
      some (a.liveComps.flatMap fun c => saveAppComp c (a.data (a.lookup c.id))) := by
  have hmem : ∀ refs, refs ⊆ a.comps → saveComps a refs =
      some ((refs.filterMap a.objs).flatMap fun c => saveAppComp c (a.data (a.lookup c.id))) := by
    intro refs hsub
    induction refs with
    | nil => rfl
    | cons r refs ih =>
        have hrest := ih fun x hx => hsub (List.mem_cons_of_mem _ hx)
        by_cases h0 : r = 0
        · subst h0
          rw [saveComps, if_pos rfl, hrest, List.filterMap_cons_none ht.null]
        · obtain ⟨i, hi, heq⟩ := List.mem_iff_getElem.mp (hsub List.mem_cons_self)
          have hlookup : a.lookup i = r := by
            simp [lookup, List.getD_eq_getElem?_getD, hi, heq]
          obtain ⟨c, hc, hid⟩ := ht.live i (hlookup ▸ h0)
          rw [hlookup] at hc
          rw [List.filterMap_cons_some hc, List.flatMap_cons, hid, hlookup]
          simp only [saveComps, if_neg h0, hc, hrest, Option.bind_eq_bind, Option.bind_some]
  exact hmem a.comps (List.Subset.refl _)

/-- The link behind this reference, as it is saved. -/
def linkBytes (a : App Props) (k : Ref) : List (BitVec 8) := (a.links k).elim [] saveLink

theorem saveLinksTo_eq {l : List Ref} (hchain : Chain 0 (a.nextOn .into) k l) :
    ∀ fuel, l.length < fuel → saveLinksTo a fuel k = some (l.flatMap a.linkBytes) := by
  induction l generalizing k with
  | nil =>
      obtain rfl := chain_nil.mp hchain
      rintro (_ | fuel) hfuel
      · simp at hfuel
      · simp [saveLinksTo]
  | cons y l ih =>
      obtain ⟨rfl, hk0, n, hn, hrest⟩ := chain_cons.mp hchain
      obtain ⟨x, hx, rfl⟩ := nextOn_eq_some.mp hn
      rintro (_ | fuel) hfuel
      · simp at hfuel
      · have hlen : l.length < fuel := by simpa using hfuel
        have hrun : saveLinksTo a fuel x.nextTo = _ := ih hrest fuel hlen
        simp only [saveLinksTo, if_neg hk0, hx, hrun, Option.bind_eq_bind, Option.bind_some,
          List.flatMap_cons, linkBytes, Option.elim_some]

/-- **The saved links.** -/
theorem saveLinks_spec (h : a.Inv) :
    ∃ refs : List Ref, refs.Nodup ∧ (∀ k, k ∈ refs ↔ (a.links k).isSome) ∧
      ∃ n, ∀ fuel, n ≤ fuel → saveLinks a fuel a.comps = some (refs.flatMap a.linkBytes) := by
  -- the links into the components of a part of the table
  have hpart : ∀ refs, refs ⊆ a.comps → ((refs.filterMap a.objs).map (·.id)).Nodup →
      ∃ ks : List Ref, ks.Nodup ∧
        (∀ k, k ∈ ks ↔ ∃ x, a.links k = some x ∧ x.toComp ∈ (refs.filterMap a.objs).map (·.id)) ∧
        ∃ n, ∀ fuel, n ≤ fuel → saveLinks a fuel refs = some (ks.flatMap a.linkBytes) := by
    intro refs hsub
    induction refs with
    | nil => exact fun _ => ⟨[], List.nodup_nil, by simp, 0, fun _ _ => rfl⟩
    | cons r refs ih =>
        intro hnodup
        have hsub' : refs ⊆ a.comps := fun x hx => hsub (List.mem_cons_of_mem _ hx)
        by_cases h0 : r = 0
        · subst h0
          rw [List.filterMap_cons_none h.table.null] at hnodup ⊢
          simpa only [saveLinks, if_true] using ih hsub' hnodup
        · obtain ⟨i, hi, heq⟩ := List.mem_iff_getElem.mp (hsub List.mem_cons_self)
          have hlookup : a.lookup i = r := by
            simp [lookup, List.getD_eq_getElem?_getD, hi, heq]
          obtain ⟨c, hc, hid⟩ := h.table.live i (hlookup ▸ h0)
          rw [hlookup] at hc
          rw [List.filterMap_cons_some hc, List.map_cons, List.nodup_cons] at hnodup
          obtain ⟨ks, hks, hmem, n, hn⟩ := ih hsub' hnodup.2
          have hcomp : a.comp i = some c := by rw [comp, hlookup, hc]
          obtain ⟨l, hchain, hl⟩ := h.links.lists .into i c.linksTo
            (by simp [headOn, hcomp, Side.head])
          have hmeml : ∀ k, k ∈ l ↔ ∃ x, a.links k = some x ∧ x.toComp = c.id := by
            intro k
            rw [hl, ownOn, Option.bind_eq_some_iff, hid]
            simp [Side.owner]
          refine ⟨l ++ ks, ?_, ?_, max n (l.length + 1), fun fuel hfuel => ?_⟩
          · refine List.nodup_append.mpr ⟨hchain.nodup, hks, ?_⟩
            rintro k hk k' hk' rfl
            obtain ⟨x, hx, hto⟩ := (hmeml k).mp hk
            obtain ⟨x', hx', hto'⟩ := (hmem k).mp hk'
            obtain rfl := Option.some.inj (hx.symm.trans hx')
            exact hnodup.1 (hto ▸ hto')
          · intro k
            rw [List.mem_append, hmeml, hmem, List.filterMap_cons_some hc, List.map_cons]
            simp only [List.mem_cons]
            constructor
            · rintro (⟨x, hx, hto⟩ | ⟨x, hx, hto⟩)
              · exact ⟨x, hx, Or.inl hto⟩
              · exact ⟨x, hx, Or.inr hto⟩
            · rintro ⟨x, hx, hto | hto⟩
              · exact Or.inl ⟨x, hx, hto⟩
              · exact Or.inr ⟨x, hx, hto⟩
          · have hhere := saveLinksTo_eq hchain fuel (by omega)
            have hthere := hn fuel (by omega)
            simp only [saveLinks, if_neg h0, hc, hhere, hthere, Option.bind_eq_bind,
              Option.bind_some, List.flatMap_append]
  obtain ⟨ks, hks, hmem, hrun⟩ := hpart a.comps (List.Subset.refl _) (nodup_liveComps h.table)
  refine ⟨ks, hks, fun k => ?_, hrun⟩
  rw [hmem, Option.isSome_iff_exists]
  refine exists_congr fun x => and_iff_left_of_imp fun hx => ?_
  obtain ⟨c, hc, hid⟩ := h.table.exists_comp (h.ends k x hx).2
  exact List.mem_map.mpr ⟨c, (mem_liveComps h.table).mpr (hid ▸ hc), hid⟩

end App

end Sedona
