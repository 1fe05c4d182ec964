import Sedona.Sys.AppAdd

/-!
# Removing Components

`remove` takes a component out with everything below it: the children first, then the entry
of the table, the list of services, the list of siblings and both lists of links.

## Main results

* `removeLeaf_spec`: a component without children is taken out.
* `Inv.remove_spec`, `Inv.remove`: a call of `remove` returns, keeps the invariant and removes the
  component and what is below it, and nothing else.
-/

namespace Sedona

open Function Intrusive Fuel

variable {δ : Type}

namespace App

variable {a a' : App δ} {id pid v d : ℕ} {r k : Ref} {c p : Component} {l l₁ l₂ : List ℕ}

/-! ### The entry of the table -/

/-- The application without the entry `id` of the table. -/
def withoutEntry (a : App δ) (id : ℕ) : App δ := { a with comps := a.comps.set id 0 }

theorem lt_length_of_lookup (h : a.lookup id ≠ 0) : id < a.comps.length := by
  by_contra hlen
  refine h ?_
  rw [lookup, List.getD_eq_getElem?_getD, List.getElem?_eq_none (Nat.not_lt.mp hlen)]
  rfl

theorem withoutEntry_lookup (h : a.lookup id ≠ 0) (j : ℕ) :
    (a.withoutEntry id).lookup j = if j = id then 0 else a.lookup j :=
  lookup_set (lt_length_of_lookup h) 0 j

theorem Table.withoutEntry (ht : a.Table) (h : a.lookup id ≠ 0) (hid : id ≠ 0) :
    (a.withoutEntry id).Table := by
  refine ⟨ht.null, ?_, ht.self_ne, fun j hj => ?_⟩
  · rw [withoutEntry_lookup h, if_neg hid.symm]
    exact ht.self
  · rw [withoutEntry_lookup h] at hj ⊢
    split at hj
    · exact absurd rfl hj
    · rename_i hne
      rw [if_neg hne]
      exact ht.live j hj

theorem withoutEntry_comp (ht : a.Table) (h : a.lookup id ≠ 0) :
    (a.withoutEntry id).comp = update a.comp id none := by
  funext j
  rw [comp, withoutEntry_lookup h]
  by_cases hj : j = id
  · subst hj
    rw [if_pos rfl, update_self]
    exact ht.null
  · rw [if_neg hj, update_of_ne hj]
    rfl

/-- No entry refers to the component any more. -/
theorem withoutEntry_dead (ht : a.Table) (h : a.lookup id ≠ 0) (j : ℕ) :
    (a.withoutEntry id).lookup j ≠ a.lookup id := by
  rw [withoutEntry_lookup h]
  split
  · exact h.symm
  · rename_i hj
    exact fun heq => hj (ht.inj h heq.symm).symm

theorem withoutEntry_svcOwn (ht : a.Table) (h : a.lookup id ≠ 0) (k : Ref) :
    (a.withoutEntry id).svcOwn k = if k = a.lookup id then none else a.svcOwn k := by
  have hdead := withoutEntry_dead ht h
  by_cases hk : k = a.lookup id
  · subst hk
    simp [svcOwn, hdead]
  · rw [if_neg hk]
    unfold svcOwn
    rw [show (a.withoutEntry id).objs = a.objs from rfl]
    cases hobj : a.objs k with
    | none => rfl
    | some c =>
        simp only [Option.bind_some, withoutEntry_lookup h]
        by_cases hcid : c.id = id
        · have hk0 : ¬ (0 : Ref) = k := by
            rintro rfl
            exact Option.some_ne_none c (hobj.symm.trans ht.null)
          rw [hcid]
          simp [hk0, Ne.symm hk]
        · rw [if_neg hcid]

/-! ### The list of services -/

/-- The applications differ only in the list of services. -/
structure SameViews (a a' : App δ) : Prop where
  comps : a'.comps = a.comps
  links : a'.links = a.links
  node : a'.node = a.node
  headOn : ∀ s, a'.headOn s = a.headOn s

theorem SameViews.refl (a : App δ) : SameViews a a := ⟨rfl, rfl, rfl, fun _ => rfl⟩

/-- **Unlinking a service** that is not in the table any more. -/
theorem unlinkService_spec (h : a.Inv) (hc : a.comp id = some c) (hid : id ≠ 0)
    (hsvc : c.type.isService = true) :
    ∃ a', Returns (fun fuel => unlinkService fuel (a.withoutEntry id) (a.lookup id)) (true, a') ∧
      SameViews (a.withoutEntry id) a' ∧ a'.Table ∧ a'.Services ∧
      a'.objs (a.lookup id) = some c := by
  have h0 := h.table.lookup_ne hc
  have ht₁ := h.table.withoutEntry h0 hid
  have hobj : a.objs (a.lookup id) = some c := hc
  set a₁ := a.withoutEntry id with ha₁
  set r := a.lookup id with hr
  have hobj₁ : a₁.objs r = some c := hobj
  have hownr : a.svcOwn r = some () := by
    simp [svcOwn, hobj, h.table.comp_id hc, hsvc, ← hr]
  have hown : ∀ a' : App δ, a'.svcOwn = a₁.svcOwn → a'.svcOwn r = none ∧
      ∀ k, k ≠ r → a'.svcOwn k = a.svcOwn k := by
    intro a' heq
    rw [heq]
    refine ⟨?_, fun k hk => ?_⟩
    · rw [ha₁, withoutEntry_svcOwn h.table h0, if_pos rfl]
    · rw [ha₁, withoutEntry_svcOwn h.table h0, if_neg hk]
  obtain ⟨l, hchain, hmem⟩ := h.services () a.services rfl
  have hrl := (hmem r).mpr hownr
  by_cases hfirst : a.services = r
  · -- the service heads the list
    set a₂ : App δ := { a₁ with services := c.nextService } with ha₂
    refine ⟨a₂, ⟨0, fun fuel _ => ?_⟩, ⟨rfl, rfl, rfl, fun _ => rfl⟩,
      ⟨ht₁.null, ht₁.self, ht₁.self_ne, ht₁.live⟩, ?_, hobj₁⟩
    · simp only [unlinkService, hobj₁, Option.bind_eq_bind, Option.bind_some]
      exact if_pos hfirst
    · have hown₂ := hown a₂ rfl
      exact h.services.unlink (i := ()) rfl hownr
        (Unlinked.atHead c.nextService (by rw [hfirst]) (by simp [svcNext, hobj]) rfl
          (fun j hj => absurd rfl hj) (fun _ _ => rfl)) hown₂.1 hown₂.2
  · have hnull : ∀ j ∈ l, (j == 0) = false := fun j hj => by simpa using hchain.ne_nil hj
    obtain ⟨prev, hwalk, hends⟩ := hchain.walk_pred (by rfl) hnull h0
    obtain ⟨l₁, l₂, rfl⟩ : ∃ l₁ l₂, l = l₁ ++ prev :: r :: l₂ := by
      rcases hends with ⟨-, hnone⟩ | hsplit
      · obtain ⟨l₂, rfl⟩ := hnone hrl
        exact absurd (chain_cons.mp hchain).1 hfirst
      · exact hsplit
    -- the service in front of it is in the table
    have hprev : prev ∈ l₁ ++ prev :: r :: l₂ := by simp
    have hownp := (hmem prev).mp hprev
    obtain ⟨q, hq, hqown⟩ := Option.bind_eq_some_iff.mp hownp
    have hne : prev ≠ r := by
      have hnodup := hchain.nodup
      simp only [List.nodup_append, List.nodup_cons, List.mem_cons] at hnodup
      grind
    have hqlookup : a.lookup q.id = prev := by
      by_contra hneg
      simp [hneg] at hqown
    have hqid : q.id ≠ id := by
      intro heq
      rw [heq] at hqlookup
      exact hne hqlookup.symm
    have hqlookup₁ : a₁.lookup q.id = prev := by
      rw [ha₁, withoutEntry_lookup h0, if_neg hqid, hqlookup]
    have hp0 : prev ≠ 0 := hchain.ne_nil hprev
    have hq₁ : a₁.objs prev = some q := hq
    have hqcomp : a₁.comp q.id = some q := by rw [comp, hqlookup₁, hq₁]
    set q' : Component := { q with nextService := c.nextService } with hq'
    have hnext : a.svcNext prev = some r := by
      obtain ⟨_, -, hsuffix⟩ := hchain.suffix
      obtain ⟨-, -, j, hj, hrest⟩ := chain_cons.mp hsuffix
      rw [hj, (chain_cons.mp hrest).1]
    refine ⟨a₁.put prev q', ⟨(l₁ ++ prev :: r :: l₂).length + 1, fun fuel hfuel => ?_⟩,
      ⟨rfl, rfl, ?_, fun s => ?_⟩, ht₁.put hq₁ rfl, ?_, ?_⟩
    · have hwalk₁ : a₁.serviceWhere (·.nextService == r) fuel a₁.services = some prev :=
        hwalk fuel hfuel
      simp only [unlinkService, hobj₁, Option.bind_eq_bind, Option.bind_some,
        show ¬ a₁.services = r from hfirst, if_false, hwalk₁, if_neg hp0, write_eq hq₁]
      rfl
    · rw [node_put ht₁ hqlookup₁ hp0]
      exact update_eq_self_iff.mpr (by simp [node, hqcomp, hq'])
    · rw [headOn_put ht₁ hqlookup₁ hp0]
      exact update_eq_self_iff.mpr (by cases s <;> simp [App.headOn, hqcomp, hq', Side.head])
    · have hown₂ := hown (a₁.put prev q') (by
        funext j
        unfold svcOwn
        by_cases hj : j = prev
        · subst hj
          simp [hq₁, hq']
        · rw [put_objs_of_ne hj]
          rfl)
      refine h.services.unlink (i := ()) rfl hownr
        (Unlinked.behind prev hownp hnext ?_ rfl ?_) hown₂.1 hown₂.2
      · simp [svcNext, hq', hobj]
      · intro j hj _
        rw [svcNext, svcNext, put_objs_of_ne hj]
        rfl
    · rw [put_objs_of_ne hne.symm, hobj₁]

/-! ### The lists of links -/

/-- Both loops of `remove` along the links of a component that is not in the table any more:
no link of the component is left, and other links keep their ends. -/
theorem removeBoth_spec (cb : Callbacks δ) (ht : a.Table) (hl : a.LinkLists)
    (hdead : ∀ j, a.lookup j ≠ r) (hid : a.lookup id = 0) (hobj : a.objs r = some c)
    (hlists : ∀ s, ∃ l, Chain 0 (a.nextOn s) (s.head c) l ∧ ∀ k, k ∈ l ↔ a.ownOn s k = some id) :
    ∃ a₁ a₂, (∃ n, ∀ fuel, n ≤ fuel →
        removeLinks cb fuel .outOf fuel a c.linksFrom = some a₁ ∧ a₁.objs r = some c ∧
        removeLinks cb fuel .into fuel a₁ c.linksTo = some a₂) ∧
      SameTree a a₂ ∧ a₂.LinkLists ∧
      ∀ k x, a₂.links k = some x →
        (∃ y, a.links k = some y ∧ y.core = x.core) ∧ x.fromComp ≠ id ∧ x.toComp ≠ id := by
  obtain ⟨lf, hchainf, hmemf⟩ := hlists .outOf
  obtain ⟨lt, hchaint, hmemt⟩ := hlists .into
  -- a link out of the component does not lead into it
  have hdisj : ∀ k, a.ownOn .outOf k = some id → a.ownOn .into k ≠ some id := by
    intro k hk hk'
    obtain ⟨x, hx, hown⟩ := Option.bind_eq_some_iff.mp hk
    rw [ownOn_eq hx] at hk'
    have hto : x.toComp = id := Option.some.inj hk'
    simp only [Side.owner] at hown
    split at hown
    · simp at hown
    · rename_i hne
      exact hne ((Option.some.inj hown).trans hto.symm)
  obtain ⟨a₁, ⟨n₁, hrun₁⟩, htree₁, hl₁, hgone₁, hcore₁, hframe₁⟩ :=
    removeLinks_spec (s := .outOf) cb ht hl hid hchainf fun j hj => by
      have hj' := (hmemf j).mp hj
      refine ⟨hj', fun t hts => ?_⟩
      cases t with
      | into => exact hdisj j hj'
      | outOf => exact absurd rfl hts
  have hown₁ : ∀ t k, k ∉ lf → a₁.ownOn t k = a.ownOn t k := by
    intro t k hk
    have h := hcore₁ k hk
    revert h
    unfold ownOn
    cases a.links k <;> cases a₁.links k <;> intro h
    · rfl
    · simp at h
    · simp at h
    · exact t.owner_congr _ _ (Option.some.inj h)
  have hnotf : ∀ k ∈ lt, k ∉ lf := fun k hk hk' =>
    hdisj k ((hmemf k).mp hk') ((hmemt k).mp hk)
  obtain ⟨a₂, ⟨n₂, hrun₂⟩, htree₂, hl₂, hgone₂, hcore₂, -⟩ :=
    removeLinks_spec (s := .into) (a := a₁) cb (htree₁.table ht) hl₁ (by rw [htree₁.lookup, hid])
      (hchaint.congr fun k hk =>
        hframe₁ .into (by decide) k (hnotf k hk) ((hmemt k).mp hk)) fun k hk => by
      refine ⟨by rw [hown₁ _ k (hnotf k hk), (hmemt k).mp hk], fun t hts => ?_⟩
      cases t with
      | into => exact absurd rfl hts
      | outOf =>
          rw [hown₁ _ k (hnotf k hk)]
          exact fun heq => hnotf k hk ((hmemf k).mpr heq)
  refine ⟨a₁, a₂, ⟨max n₁ n₂, fun fuel hfuel => ⟨hrun₁ fuel ?_ fuel ?_, ?_, hrun₂ fuel ?_ fuel ?_⟩⟩,
    htree₁.trans htree₂, hl₂, ?_⟩
  · exact le_trans (le_max_left _ _) hfuel
  · exact le_trans (le_max_left _ _) hfuel
  · rw [htree₁.dead r hdead, hobj]
  · exact le_trans (le_max_right _ _) hfuel
  · exact le_trans (le_max_right _ _) hfuel
  · intro k x hx
    have hkt : k ∉ lt := fun hk => Option.some_ne_none x (hx.symm.trans (hgone₂ k hk))
    have hx₁ := (hcore₂ k hkt).symm
    rw [hx] at hx₁
    obtain ⟨x₁, hx₁, heq₁⟩ := Option.map_eq_some_iff.mp hx₁
    have hkf : k ∉ lf := fun hk => Option.some_ne_none x₁ (hx₁.symm.trans (hgone₁ k hk))
    have hx₀ := (hcore₁ k hkf).symm
    rw [hx₁] at hx₀
    obtain ⟨x₀, hx₀, heq₀⟩ := Option.map_eq_some_iff.mp hx₀
    have heq : x₀.core = x.core := heq₀.trans heq₁
    have hto : x.toComp ≠ id := by
      intro hto
      refine hkt ((hmemt k).mpr ?_)
      rw [ownOn_eq hx₀, Side.into.owner_congr _ _ heq]
      exact congrArg some hto
    refine ⟨⟨x₀, hx₀, heq⟩, fun hfrom => hkf ((hmemf k).mpr ?_), hto⟩
    rw [ownOn_eq hx₀, Side.outOf.owner_congr _ _ heq]
    simp only [Side.owner, hfrom]
    exact if_neg fun h => hto h.symm

/-! ### Removing a leaf -/

/-- An object that nothing refers to may be freed. -/
theorem Inv.delete (h : a.Inv) (hdead : ∀ j, a.lookup j ≠ r) (hr0 : r ≠ 0) :
    (a.delete r).Inv := by
  have hobjs : ∀ j, j ≠ r → (a.delete r).objs j = a.objs j := fun j hj => update_of_ne hj _ _
  have hcomp : (a.delete r).comp = a.comp := funext fun j => hobjs _ (hdead j)
  have hnode : (a.delete r).node = a.node := by
    funext j
    rw [node, node, hcomp]
  have hhead : ∀ s, (a.delete r).headOn s = a.headOn s := by
    intro s
    funext j
    rw [headOn, headOn, hcomp]
  refine ⟨⟨?_, h.table.self, h.table.self_ne, fun j hj => ?_⟩, ?_, ⟨h.links.null, fun s => ?_⟩,
    h.ends, h.slots, ?_⟩
  · rw [hobjs 0 hr0.symm, h.table.null]
  · obtain ⟨c, hc, hcid⟩ := h.table.live j hj
    exact ⟨c, (hobjs _ (hdead j)).trans hc, hcid⟩
  · rw [hnode]
    exact h.tree
  · rw [hhead]
    exact h.links.lists s
  · have hself : (a.delete r).svcOwn r = none := by simp [svcOwn, App.delete]
    refine Lists.congr h.services (fun _ _ hh => hh) ?_ ?_
    · intro j _ _ _
      by_cases hj : j = r
      · subst hj
        rw [hself]
        cases hobj : a.objs j <;> simp [svcOwn, hobj, hdead]
      · rw [svcOwn, svcOwn, hobjs j hj]
        rfl
    · intro j _ _ _ hown
      have hj : j ≠ r := by
        rintro rfl
        cases hobj : a.objs j <;> simp [svcOwn, hobj, hdead] at hown
      rw [svcNext, svcNext, hobjs j hj]

/-- **Removing a leaf** takes it out of the table and out of every list. -/
theorem removeLeaf_spec (h : a.Inv) (cb : Callbacks δ) (hc : a.comp id = some c)
    (hl : KidsAt a.node c.parent (l₁ ++ id :: l₂)) (hleaf : KidsAt a.node id []) :
    ∃ a', Returns (fun fuel => removeLeaf cb fuel a id (a.lookup id) (a.lookup c.parent))
        (true, a') ∧ a'.Inv ∧ (∀ j, a'.lookup j = if j = id then 0 else a.lookup j) ∧
      a'.node = relink (update a.node id none) c.parent l₁ c.nextSibling := by
  have h0 := h.table.lookup_ne hc
  have hnode : a.node id = some c.toNode := node_eq_some.mpr ⟨c, hc, rfl⟩
  have hlc : KidsAt a.node c.toNode.parent (l₁ ++ id :: l₂) := hl
  obtain ⟨pn, hpn, hkids⟩ := hl
  have hid0 : id ≠ 0 := h.tree.ne_zero_of_parent hnode hpn
  have hne : c.parent ≠ id := by
    intro heq
    have hmem : id ∈ ([] : List ℕ) := hleaf.mem.mpr ⟨c.toNode, hnode, heq⟩
    simp at hmem
  -- the entry of the table
  have hlookup₁ := withoutEntry_lookup h0
  have hdead₁ := withoutEntry_dead h.table h0
  have ht₁ := h.table.withoutEntry h0 hid0
  have hcomp₁ := withoutEntry_comp h.table h0
  set a₁ := a.withoutEntry id with ha₁
  set r := a.lookup id with hr
  have hobj₁ : a₁.objs r = some c := hc
  have hnode₁ : a₁.node = update a.node id none := by
    funext j
    unfold node
    rw [hcomp₁]
    by_cases hj : j = id
    · subst hj
      simp
    · simp [update_of_ne hj]
  have hhead₁ : ∀ s, a₁.headOn s = update (a.headOn s) id none := by
    intro s
    funext j
    unfold headOn
    rw [hcomp₁]
    by_cases hj : j = id
    · subst hj
      simp
    · simp [update_of_ne hj]
  -- the list of services
  obtain ⟨a₂, hrun₂, hviews₂, ht₂, hsvc₂, hobj₂⟩ : ∃ a₂,
      Returns (fun fuel => if c.type.isService then unlinkService fuel a₁ r else some (true, a₁))
        (true, a₂) ∧ SameViews a₁ a₂ ∧ a₂.Table ∧ a₂.Services ∧ a₂.objs r = some c := by
    by_cases hsvc : c.type.isService = true
    · simpa only [hsvc, if_true] using unlinkService_spec h hc hid0 hsvc
    · refine ⟨a₁, ⟨0, fun _ _ => by simp [hsvc]⟩, SameViews.refl a₁, ht₁, ?_, hobj₁⟩
      have hown : a₁.svcOwn = a.svcOwn := by
        funext k
        rw [ha₁, withoutEntry_svcOwn h.table h0]
        split
        · rename_i hk
          rw [hk, svcOwn, show a.objs (a.lookup id) = some c from hc]
          simp [hsvc]
        · rfl
      unfold Services
      rw [hown]
      exact h.services
  have hlookup₂ : ∀ j, a₂.lookup j = a₁.lookup j := by
    intro j
    rw [lookup, lookup, hviews₂.comps]
  -- the list of siblings
  have hid₂ : a₂.lookup id = 0 := by rw [hlookup₂, hlookup₁, if_pos rfl]
  have hdead₂ : ∀ j, a₂.lookup j ≠ r := by
    intro j
    rw [hlookup₂]
    exact hdead₁ j
  have hnode₂ : a₂.node = update a.node id none := by rw [hviews₂.node, hnode₁]
  obtain ⟨p, hp, rfl⟩ : ∃ p, a₂.comp c.parent = some p ∧ p.toNode = pn := by
    refine node_eq_some.mp ?_
    rw [hnode₂, update_of_ne hne, hpn]
  have hchain₂ : Chain id (nextSib a₂.node) p.children l₁ := by
    obtain ⟨j, hpath, hlast⟩ := hkids.chain.suffix
    obtain ⟨rfl, -⟩ := chain_cons.mp hlast
    have hnotin : j ∉ l₁ := by
      intro hmem
      have hnodup := hkids.chain.nodup
      rw [List.nodup_append] at hnodup
      exact hnodup.2.2 j hmem j List.mem_cons_self rfl
    refine ⟨hpath.congr fun x hx => ?_, hnotin⟩
    rw [nextSib, nextSib, hnode₂, update_of_ne]
    rintro rfl
    exact hnotin hx
  have hrun₃ := unlinkChild_spec ht₂ hid₂ hp hobj₂ hchain₂
  set a₃ := a₂.relinkAt c.parent l₁ c.nextSibling with ha₃
  have hrest₃ : SameRest a₂ a₃ := relinkAt_sameRest _ _ _ _
  have ht₃ := hrest₃.table ht₂
  have hobj₃ : a₃.objs r = some c := by rw [ha₃, relinkAt_dead hdead₂, hobj₂]
  have hnode₃ : a₃.node = relink (update a.node id none) c.parent l₁ c.nextSibling := by
    rw [ha₃, relinkAt_node ht₂, hnode₂]
  have hlinks₃ : a₃.links = a.links := by rw [hrest₃.links, hviews₂.links]; rfl
  have hlookup₃ : ∀ j, a₃.lookup j = if j = id then 0 else a.lookup j := by
    intro j
    rw [hrest₃.lookup, hlookup₂, hlookup₁]
  have hl₃ : a₃.LinkLists := by
    refine hrest₃.linkLists ⟨by rw [hviews₂.links]; exact h.links.null, fun s => ?_⟩
    have hlists : Lists 0 (a.nextOn s) (update (a.headOn s) id none) (a.ownOn s) := by
      refine (h.links.lists s).congr ?_ (fun _ _ _ _ => Iff.rfl) (fun _ _ _ _ _ => rfl)
      intro i f hi
      by_cases hiid : i = id
      · subst hiid
        simp at hi
      · rwa [update_of_ne hiid] at hi
    unfold nextOn ownOn at hlists ⊢
    rw [hviews₂.headOn, hhead₁, hviews₂.links]
    exact hlists
  -- the lists of links
  obtain ⟨a₄, a₅, hrun₅, htree₅, hl₅, hlinks₅⟩ := removeBoth_spec cb ht₃ hl₃
    (fun j => by rw [hrest₃.lookup]; exact hdead₂ j) (by rw [hlookup₃, if_pos rfl]) hobj₃
    (fun s => by
      have hhead : a.headOn s id = some (s.head c) := by simp [headOn, hc]
      unfold nextOn ownOn
      rw [hlinks₃]
      exact h.links.lists s id _ hhead)
  have hinv₅ : a₅.Inv := by
    refine ⟨htree₅.table ht₃, ?_, hl₅, ?_, ?_, ?_⟩
    · rw [htree₅.node, hnode₃]
      exact h.tree.remove hnode hlc hleaf
    · intro k x hx
      obtain ⟨⟨y, hy, heq⟩, hfrom, hto⟩ := hlinks₅ k x hx
      rw [hlinks₃] at hy
      have hends := h.ends k y hy
      rw [htree₅.lookup, htree₅.lookup, hlookup₃, hlookup₃, if_neg hfrom, if_neg hto,
        ← show y.fromComp = x.fromComp from congrArg (fun l => l.fromComp) heq,
        ← show y.toComp = x.toComp from congrArg (fun l => l.toComp) heq]
      exact hends
    · intro k k' x x' hx hx' htoeq hsloteq
      obtain ⟨⟨y, hy, heq⟩, -, -⟩ := hlinks₅ k x hx
      obtain ⟨⟨y', hy', heq'⟩, -, -⟩ := hlinks₅ k' x' hx'
      rw [hlinks₃] at hy hy'
      refine h.slots k k' y y' hy hy' ?_ ?_
      · rw [show y.toComp = x.toComp from congrArg (fun l => l.toComp) heq,
          show y'.toComp = x'.toComp from congrArg (fun l => l.toComp) heq', htoeq]
      · rw [show y.toSlot = x.toSlot from congrArg (fun l => l.toSlot) heq,
          show y'.toSlot = x'.toSlot from congrArg (fun l => l.toSlot) heq', hsloteq]
    · rw [htree₅.services_iff, hrest₃.services_iff]
      exact hsvc₂
  set a₆ := (a₅.whenRunning cb [.childEvent false (a.lookup c.parent) r,
    .parentEvent false r (a.lookup c.parent)]).fire cb (.fireTreeChanged (a.lookup c.parent))
    with ha₆
  have hfired : Fired a₅ a₆ := (Fired.whenRunning cb _ a₅).trans (Fired.fire cb _ _)
  have hlookup₆ : ∀ j, a₆.lookup j = if j = id then 0 else a.lookup j := by
    intro j
    rw [hfired.sameTree.lookup, htree₅.lookup, hlookup₃]
  have hdead₆ : ∀ j, a₆.lookup j ≠ r := by
    intro j
    rw [hlookup₆, ← hlookup₁]
    exact hdead₁ j
  refine ⟨a₆.delete r, ?_, (hinv₅.fired hfired).delete hdead₆ h0, hlookup₆, ?_⟩
  · obtain ⟨n₂, hn₂⟩ := hrun₂
    obtain ⟨n₃, hn₃⟩ := hrun₃
    obtain ⟨n₅, hn₅⟩ := hrun₅
    refine ⟨max n₂ (max n₃ n₅), fun fuel hfuel => ?_⟩
    have hstep₂ := hn₂ fuel (by omega)
    have hstep₃ := hn₃ fuel (by omega)
    obtain ⟨hstep₄, hobj₄, hstep₅⟩ := hn₅ fuel (by omega)
    have hpl : a₂.lookup c.parent = a.lookup c.parent := by
      rw [hlookup₂, hlookup₁, if_neg hne]
    rw [hpl] at hstep₃
    have hrest : (unlinkChild fuel a₂ (a.lookup c.parent) id r).bind (fun b =>
        if !b.1 then some (false, b.2)
        else (b.2.objs r).bind fun obj =>
          (removeLinks cb fuel .outOf fuel b.2 obj.linksFrom).bind fun a =>
            (a.objs r).bind fun obj =>
              (removeLinks cb fuel .into fuel a obj.linksTo).bind fun b =>
                some (true, ((b.whenRunning cb [.childEvent false (a₁.lookup c.parent) r,
                  .parentEvent false r (a₁.lookup c.parent)]).fire cb
                    (.fireTreeChanged (a₁.lookup c.parent))).delete r)) =
        some (true, a₆.delete r) := by
      rw [ha₆, hlookup₁, if_neg hne]
      simp only [hstep₃, Option.bind_some, Bool.not_true, Bool.false_eq_true, if_false, hobj₃,
        hstep₄, hobj₄, hstep₅]
    rw [hlookup₁, if_neg hne] at hrest
    simp only [removeLeaf, Option.bind_eq_bind]
    change (a₁.objs r).bind _ = _
    rw [hobj₁, Option.bind_some]
    by_cases hsvc : c.type.isService = true
    · simp only [if_pos hsvc] at hstep₂
      rw [if_pos hsvc]
      change (unlinkService fuel a₁ r).bind _ = _
      rw [hstep₂]
      exact hrest
    · simp only [if_neg hsvc, Option.some.injEq, Prod.mk.injEq, true_and] at hstep₂
      rw [if_neg hsvc]
      rw [← hstep₂] at hrest
      exact hrest
  · have hcomp₆ : (a₆.delete r).comp = a₆.comp :=
      funext fun j => update_of_ne (hdead₆ j) _ _
    have hnode₆ : (a₆.delete r).node = a₆.node := by
      funext j
      rw [node, node, hcomp₆]
    rw [hnode₆, hfired.sameTree.node, htree₅.node, hnode₃]

/-! ### Removing a subtree -/

/-- What removing a component at depth `d` does to the components that are not deeper: they
stay where they are, and the component leaves the list of its parent. Other components only lose
siblings and children. -/
structure Removed (a a' : App δ) (id d : ℕ) : Prop where
  inv : a'.Inv
  gone : a'.lookup id = 0
  kept : ∀ j e, Depth a.node j e → e ≤ d → j ≠ id → a'.lookup j = a.lookup j
  kids : ∀ q e l, Depth a.node q e → e ≤ d → q ≠ id → KidsAt a.node q l →
    KidsAt a'.node q (l.erase id)
  back : ∀ j n', a'.node j = some n' → ∃ n, a.node j = some n ∧ n.face = n'.face
  others : ∀ j, ¬ Below a.node id j → (a'.node j).map Node.face = (a.node j).map Node.face

/-- What removing all children of a component at depth `d` does. -/
structure Emptied (a a' : App δ) (id d : ℕ) : Prop where
  inv : a'.Inv
  empty : KidsAt a'.node id []
  kept : ∀ j e, Depth a.node j e → e ≤ d → a'.lookup j = a.lookup j
  kids : ∀ q e l, Depth a.node q e → e ≤ d → q ≠ id → KidsAt a.node q l → KidsAt a'.node q l
  back : ∀ j n', a'.node j = some n' → ∃ n, a.node j = some n ∧ n.face = n'.face
  others : ∀ j, (j = id ∨ ¬ Below a.node id j) →
    (a'.node j).map Node.face = (a.node j).map Node.face

theorem Removed.depth (h : Removed a a' id d) (hn : Depth a.node id d) {j e : ℕ}
    (hj : Depth a.node j e) (he : e ≤ d) (hji : j ≠ id) (ht : Tree a.node) :
    Depth a'.node j e := by
  induction hj with
  | root => exact Depth.root
  | @step j e n h0 hnode hd ih =>
      have hpar : n.parent ≠ id := by
        intro heq
        have := hn.unique (heq ▸ hd)
        omega
      obtain ⟨pn, hpn⟩ := hd.live ht
      obtain ⟨l, hl⟩ := ht.kidsAt hpn
      -- the component is still in the list of its parent
      have hl' := h.kids _ _ l hd (by omega) hpar hl
      have hmem : j ∈ l.erase id := (List.mem_erase_of_ne hji).mpr (hl.mem.mpr ⟨n, hnode, rfl⟩)
      obtain ⟨m, hm, hmpar⟩ := hl'.mem.mp hmem
      exact Depth.step h0 hm (hmpar ▸ ih (by omega) hpar)

/-- **The loop along the children**, given that each child can be removed. -/
theorem removeKids_spec (rm : ℕ → App δ → Ref → Option (Bool × App δ)) (h : a.Inv)
    (hd : Depth a.node id d) (hl : KidsAt a.node id l)
    (hrm : ∀ (b : App δ) k, b.Inv → Depth b.node k (d + 1) → b.lookup k ≠ 0 →
      ∃ b', Returns (fun fuel => rm fuel b (b.lookup k)) (true, b') ∧ Removed b b' k (d + 1)) :
    ∃ a', (∃ n, ∀ fuel, n ≤ fuel → ∀ m, n ≤ m →
        removeKids (rm fuel) m a (a.lookup (l.headD nullId)) = some a') ∧ Emptied a a' id d := by
  induction l generalizing a with
  | nil =>
      refine ⟨a, ⟨1, fun fuel _ m hm => ?_⟩, h, hl, fun _ _ _ _ => rfl,
        fun _ _ _ _ _ _ hq => hq, fun _ n' hn' => ⟨n', hn', rfl⟩, fun _ _ => rfl⟩
      obtain ⟨m, rfl⟩ : ∃ m', m = m' + 1 := ⟨m - 1, by omega⟩
      simp [removeKids, h.lookup_nullId]
  | cons k l ih =>
      have hk := hl.mem.mp List.mem_cons_self
      have hdk := hd.kid h.tree hk
      obtain ⟨m, hm, hpar⟩ := hk
      obtain ⟨ck, hck, rfl⟩ := node_eq_some.mp hm
      have hk0 := h.table.lookup_ne hck
      have hki : k ≠ id := by
        rintro rfl
        have := hd.unique hdk
        omega
      have hnext : ck.nextSibling = l.headD nullId := by
        obtain ⟨n, hn, hkids⟩ := hl
        obtain ⟨rfl, -, j, hj, hrest⟩ := chain_cons.mp hkids.chain
        rw [← hrest.start_eq]
        simpa [nextSib, hm] using hj
      obtain ⟨b, ⟨n₁, hn₁⟩, hrem⟩ := hrm a k h hdk hk0
      have hl' : KidsAt b.node id l := by
        have := hrem.kids id d (k :: l) hd (by omega) hki.symm hl
        rwa [List.erase_cons_head] at this
      obtain ⟨a', ⟨n₂, hn₂⟩, hemp⟩ :=
        ih hrem.inv (hrem.depth hdk hd (by omega) hki.symm h.tree) hl'
      have hdeep : ∀ {j e : ℕ}, Depth a.node j e → e ≤ d → j ≠ k := by
        rintro j e hj he rfl
        have := hj.unique hdk
        omega
      have hhead : b.lookup (l.headD nullId) = a.lookup (l.headD nullId) := by
        cases l with
        | nil => exact hrem.inv.lookup_nullId.trans h.lookup_nullId.symm
        | cons k' l =>
            have hk' := hd.kid h.tree (hl.mem.mp (List.mem_cons_of_mem _ List.mem_cons_self))
            obtain ⟨n, -, hkids⟩ := hl
            have hnodup := hkids.chain.nodup
            refine hrem.kept k' (d + 1) hk' le_rfl ?_
            rintro rfl
            simp at hnodup
      refine ⟨a', ⟨max n₁ n₂ + 1, fun fuel hfuel m hm => ?_⟩, hemp.inv, hemp.empty, ?_, ?_, ?_,
        ?_⟩
      · obtain ⟨m, rfl⟩ : ∃ m', m = m' + 1 := ⟨m - 1, by omega⟩
        have hobj : a.objs (a.lookup k) = some ck := hck
        simp only [removeKids, List.headD_cons, if_neg hk0, hobj, Option.bind_eq_bind,
          Option.bind_some, hn₁ fuel (by omega), hnext, ← hhead]
        exact hn₂ fuel (by omega) m (by omega)
      · intro j e hj he
        rw [hemp.kept j e (hrem.depth hdk hj (by omega) (hdeep hj he) h.tree) he,
          hrem.kept j e hj (by omega) (hdeep hj he)]
      · intro q e lq hq he hqi hlq
        have hnot : k ∉ lq := by
          intro hmem
          obtain ⟨m', hm', hpar'⟩ := hlq.mem.mp hmem
          obtain rfl := Option.some.inj (hm.symm.trans hm')
          exact hqi (hpar'.symm.trans hpar)
        have hlq' := hrem.kids q e lq hq (by omega) (hdeep hq he) hlq
        rw [List.erase_of_not_mem hnot] at hlq'
        exact hemp.kids q e lq (hrem.depth hdk hq (by omega) (hdeep hq he) h.tree) he hqi hlq'
      · intro j n' hn'
        obtain ⟨n, hn, hface⟩ := hemp.back j n' hn'
        obtain ⟨n₀, hn₀, hface₀⟩ := hrem.back j n hn
        exact ⟨n₀, hn₀, hface₀.trans hface⟩
      · intro j hj
        have hk0 : k ≠ 0 := by
          cases hdk with
          | step hk0 => exact hk0
        -- what is not below the component is not below the child
        have hnotk : ¬ Below a.node k j := by
          intro hbelow
          rcases hj with rfl | hj
          · rcases hbelow.depth hdk hd with heq | hlt
            · exact hki heq.symm
            · omega
          · exact hj (hbelow.of_kid hk0 ⟨ck.toNode, hm, hpar⟩)
        rw [hemp.others j (hj.imp_right fun hnot hbelow => hnot (hbelow.mono hrem.back)),
          hrem.others j hnotk]

/-- **Removing a component** other than the root returns true, keeps the invariant, and
removes nothing but the component and what is below it. -/
theorem remove_spec (cb : Callbacks δ) (h : a.Inv) (hd : Depth a.node id (d + 1))
    (h0 : a.lookup id ≠ 0) :
    ∃ a', Returns (fun fuel => remove cb fuel a (a.lookup id)) (true, a') ∧
      Removed a a' id (d + 1) := by
  -- the induction goes down the tree: depths are less than `nullId`
  induction hm : nullId - d using Nat.strong_induction_on generalizing a id d with
  | _ m ih =>
    have hlt := hd.lt h.tree
    obtain ⟨c, hc, hcid⟩ := h.table.exists_comp h0
    have hobj : a.objs (a.lookup id) = some c := hc
    have hnode : a.node id = some c.toNode := node_eq_some.mpr ⟨c, hc, rfl⟩
    obtain ⟨hid0, hdp⟩ : id ≠ 0 ∧ Depth a.node c.parent d := by
      cases hd with
      | step hid0 hn hd =>
          obtain rfl := Option.some.inj (hnode.symm.trans hn)
          exact ⟨hid0, hd⟩
    obtain ⟨pn, hpn⟩ := hdp.live h.tree
    have hp0 := h.table.lookup_of_node hpn
    have hpi : c.parent ≠ id := by
      intro heq
      have := hd.unique (heq ▸ hdp)
      omega
    -- stopping the component
    set a₁ := a.whenRunning cb [.stop (a.lookup id)] with ha₁
    have hfired : Fired a a₁ := Fired.whenRunning cb _ a
    have h₁ := h.fired hfired
    have hnode₁ : a₁.node = a.node := hfired.sameTree.node
    have hlookup₁ : ∀ j, a₁.lookup j = a.lookup j := hfired.sameTree.lookup
    have hobj₁ : a₁.objs (a.lookup id) = some c := by rw [hfired.objs, hobj]
    -- the children
    obtain ⟨l, hl⟩ := h₁.tree.kidsAt (show a₁.node id = some c.toNode by rw [hnode₁, hnode])
    obtain ⟨a₂, ⟨n₂, hn₂⟩, hemp⟩ := removeKids_spec (remove cb) h₁ (hnode₁ ▸ hd) hl
      fun b k hb hdk hk0 => ih (nullId - (d + 1)) (by omega) hb hdk hk0 rfl
    have hfirst : l.headD nullId = c.children := by
      obtain ⟨n, hn, hkids⟩ := hl
      rw [hnode₁, hnode] at hn
      obtain rfl := Option.some.inj hn
      exact hkids.chain.start_eq.symm
    -- the component itself, now a leaf
    have hkeep : ∀ j e, Depth a.node j e → e ≤ d + 1 → a₂.lookup j = a.lookup j := by
      intro j e hj he
      rw [hemp.kept j e (hnode₁ ▸ hj) he, hlookup₁]
    have hid₂ := hkeep id (d + 1) hd le_rfl
    have hp₂ := hkeep _ d hdp (by omega)
    obtain ⟨lp, hlp⟩ := h.tree.kidsAt hpn
    have hlp₂ := hemp.kids _ d lp (hnode₁ ▸ hdp) (by omega) hpi (hnode₁ ▸ hlp)
    obtain ⟨l₁, l₂, rfl⟩ := List.append_of_mem (hlp.mem.mpr ⟨c.toNode, hnode, rfl⟩)
    obtain ⟨c₂, hc₂, hc₂id⟩ := hemp.inv.table.exists_comp (hid₂ ▸ h0)
    have hpar : c₂.parent = c.parent := by
      obtain ⟨n, hn, hnpar⟩ := hlp₂.mem.mp (show id ∈ l₁ ++ id :: l₂ by simp)
      obtain ⟨c', hc', rfl⟩ := node_eq_some.mp hn
      obtain rfl := Option.some.inj (hc₂.symm.trans hc')
      exact hnpar
    obtain ⟨a₃, ⟨n₃, hn₃⟩, hinv₃, hlookup₃, hnode₃⟩ :=
      removeLeaf_spec hemp.inv cb hc₂ (hpar ▸ hlp₂) hemp.empty
    rw [hid₂, hpar, hp₂] at hn₃
    have hnode₂ : a₂.node id = some c₂.toNode := node_eq_some.mpr ⟨c₂, hc₂, rfl⟩
    have hback₃ : ∀ j n', a₃.node j = some n' → j ≠ id ∧ ∃ n, a₂.node j = some n ∧
        n.face = n'.face := by
      intro j n' hn'
      have hface : (relink (update a₂.node id none) c₂.parent l₁ c₂.nextSibling j).map
          Node.face = (update a₂.node id none j).map Node.face := face_relink
      rw [← hnode₃, hn'] at hface
      obtain ⟨n, hn, hnface⟩ := Option.map_eq_some_iff.mp hface.symm
      have hji : j ≠ id := by
        rintro rfl
        simp at hn
      rw [update_of_ne hji] at hn
      exact ⟨hji, n, hn, hnface⟩
    refine ⟨a₃, ⟨max n₂ n₃ + 1, fun fuel hfuel => ?_⟩, hinv₃, ?_, ?_, ?_, ?_, ?_⟩
    · obtain ⟨fuel, rfl⟩ : ∃ f, fuel = f + 1 := ⟨fuel - 1, by omega⟩
      have hkids := hn₂ fuel (by omega) (fuel + 1) (by omega)
      rw [hfirst, hlookup₁] at hkids
      have hc₁ : a₁.lookup c.children = a.lookup c.children := hlookup₁ _
      simp only [remove, if_neg h0, hobj, Option.bind_eq_bind, Option.bind_some, hcid, ne_eq,
        not_true_eq_false, if_false, if_neg hp0, ← ha₁, hobj₁, hc₁, hkids]
      exact hn₃ (fuel + 1) (by omega)
    · rw [hlookup₃, if_pos rfl]
    · intro j e hj he hji
      rw [hlookup₃, if_neg hji, hkeep j e hj he]
    · intro q e lq hq he hqi hlq
      rw [hnode₃]
      refine KidsAt.remove hnode₂ (hpar ▸ hlp₂) (hpar ▸ hpi) hqi ?_
      exact hemp.kids q e lq (hnode₁ ▸ hq) he hqi (hnode₁ ▸ hlq)
    · intro j n' hn'
      obtain ⟨-, n, hn, hface⟩ := hback₃ j n' hn'
      obtain ⟨n₀, hn₀, hface₀⟩ := hemp.back j n hn
      exact ⟨n₀, hnode₁ ▸ hn₀, hface₀.trans hface⟩
    · intro j hj
      have hji : j ≠ id := by
        rintro rfl
        exact hj Below.self
      rw [hnode₃, face_relink, update_of_ne hji, hemp.others j (Or.inr (hnode₁ ▸ hj)), hnode₁]

/-- The component with this id and everything below it is gone; other components only lose
siblings and children. -/
structure SubtreeRemoved (a a' : App δ) (id : ℕ) : Prop where
  gone : ∀ j, Below a.node id j → a'.node j = none
  others : ∀ j, ¬ Below a.node id j → (a'.node j).map Node.face = (a.node j).map Node.face

theorem Removed.subtreeRemoved (h : Removed a a' id d) : SubtreeRemoved a a' id where
  gone _ hj := hj.gone h.back h.inv.tree (h.inv.table.node_eq_none h.gone)
  others := h.others

/-- **Removing a component**, the root included: `remove` of the root returns false. -/
theorem Inv.remove_spec (h : a.Inv) (cb : Callbacks δ) (h0 : a.lookup id ≠ 0) :
    ∃ b a', Returns (fun fuel => App.remove cb fuel a (a.lookup id)) (b, a') ∧ a'.Inv ∧
      (b = false ∧ a' = a ∨ b = true ∧ SubtreeRemoved a a' id) := by
  obtain ⟨c, hc, hcid⟩ := h.table.exists_comp h0
  obtain ⟨d, hd⟩ := (h.tree.rooted id c.toNode (node_eq_some.mpr ⟨c, hc, rfl⟩)).depth
  cases d with
  | succ d =>
      obtain ⟨a', hrun, hrem⟩ := App.remove_spec cb h hd h0
      exact ⟨true, a', hrun, hrem.inv, Or.inr ⟨rfl, hrem.subtreeRemoved⟩⟩
  | zero =>
      cases hd with
      | root =>
          obtain ⟨r, hr, hroot⟩ := h.tree.root
          obtain ⟨c', hc', rfl⟩ := node_eq_some.mp hr
          obtain rfl := Option.some.inj (hc.symm.trans hc')
          have hobj : a.objs (a.lookup 0) = some c := hc
          refine ⟨false, a, ⟨1, fun fuel hfuel => ?_⟩, h, Or.inl ⟨rfl, rfl⟩⟩
          obtain ⟨fuel, rfl⟩ : ∃ f, fuel = f + 1 := ⟨fuel - 1, by omega⟩
          simp [App.remove, h0, hobj, hcid, hroot, h.lookup_nullId]

/-- Removing a component returns and keeps the invariant. -/
theorem Inv.remove (h : a.Inv) (cb : Callbacks δ) (h0 : a.lookup id ≠ 0) :
    ∃ b a', Returns (fun fuel => App.remove cb fuel a (a.lookup id)) (b, a') ∧ a'.Inv := by
  obtain ⟨b, a', hrun, h', -⟩ := h.remove_spec cb h0
  exact ⟨b, a', hrun, h'⟩

end App

end Sedona
