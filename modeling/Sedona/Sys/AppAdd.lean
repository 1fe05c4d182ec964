import Sedona.Sys.AppInv

/-!
# Adding Components and Links

`add` and `addLink` keep the invariant and always return, whatever the allocations give.

## Main results

* `Inv.add_spec`, `Inv.add`: a call of `add` under a component in the table, when it refuses and
  what it adds otherwise.
* `Inv.addLink_spec`, `Inv.addLink`, `Inv.removeLink_spec`, `Inv.removeLink`: a call of `addLink`
  between two components in the table, and the removal of a link.
-/

namespace Sedona

open Function Intrusive Fuel

variable {δ : Type}

namespace App

variable {a a' : App δ} {id pid : ℕ} {r k mem : Ref} {c p leaf : Component} {comps : List Ref}
  {x : Link} {l : List ℕ}

/-! ### Allocating an id -/

/-- How many components the table holds. -/
def count (a : App δ) : ℕ := a.comps.countP (· != 0)

/-- Only what is looked up in the table matters. -/
theorem Inv.congr_comps (h : a.Inv) (heq : ∀ id, comps.getD id 0 = a.lookup id) :
    Inv { a with comps := comps } := by
  have hlookup : App.lookup { a with comps := comps } = a.lookup := funext heq
  have hcomp : App.comp { a with comps := comps } = a.comp := by
    funext id
    simp only [comp, hlookup]
  have hnode : App.node { a with comps := comps } = a.node := by
    funext id
    simp only [node, hcomp]
  have hhead : App.headOn { a with comps := comps } = a.headOn := by
    funext s id
    simp only [headOn, hcomp]
  have hown : App.svcOwn { a with comps := comps } = a.svcOwn := by
    funext r
    simp only [svcOwn, hlookup]
  refine ⟨⟨h.table.null, ?_, h.table.self_ne, ?_⟩, ?_, ⟨h.links.null, fun s => ?_⟩, ?_, h.slots,
    ?_⟩
  · rw [hlookup]
    exact h.table.self
  · rw [hlookup]
    exact h.table.live
  · rw [hnode]
    exact h.tree
  · rw [hhead]
    exact h.links.lists s
  · rw [hlookup]
    exact h.ends
  · unfold Services
    rw [hown]
    exact h.services

theorem lookup_append_replicate (a : App δ) (n id : ℕ) :
    (a.comps ++ List.replicate n 0).getD id 0 = a.lookup id := by
  simp only [lookup, List.getD_eq_getElem?_getD, List.getElem?_append]
  split
  · rfl
  · rename_i hlt
    rw [List.getElem?_eq_none (Nat.not_lt.mp hlt), List.getElem?_replicate]
    split <;> rfl

/-- With fewer than 65535 components, the id that is allocated is null in the table and less
than `nullId`. -/
theorem allocCompId_spec (h : a.Inv) (hcount : a.count < nullId) (ok : Bool) :
    ∃ a₁, (allocCompId a ok = (none, a₁) ∨ ∃ id, allocCompId a ok = (some id, a₁) ∧
      id < a₁.comps.length ∧ a₁.lookup id = 0 ∧ id < nullId) ∧ a₁.Inv ∧
      a₁.lookup = a.lookup ∧ a₁.objs = a.objs := by
  unfold allocCompId
  cases hfind : a.comps.findIdx? (· == 0) with
  | some i =>
      obtain ⟨hi, hzero, hbefore⟩ := List.findIdx?_eq_some_iff_getElem.mp hfind
      refine ⟨a, Or.inr ⟨i, rfl, hi, ?_, ?_⟩, h, rfl, rfl⟩
      · simpa [lookup, List.getD_eq_getElem?_getD, hi] using hzero
      · -- the entries in front of the first null one are components
        have htake : (a.comps.take i).countP (· != 0) = (a.comps.take i).length := by
          rw [List.countP_eq_length]
          intro r hr
          obtain ⟨j, hj, rfl⟩ := List.mem_iff_getElem.mp hr
          rw [List.length_take] at hj
          rw [List.getElem_take]
          simpa using hbefore j (by omega)
        have hsplit : a.count = (a.comps.take i).countP (· != 0) +
            (a.comps.drop i).countP (· != 0) := by
          rw [← List.countP_append, List.take_append_drop]
          rfl
        rw [htake, List.length_take] at hsplit
        omega
  | none =>
      have hall : a.comps.countP (· != 0) = a.comps.length := by
        rw [List.countP_eq_length]
        intro r hr
        have := List.findIdx?_eq_none_iff.mp hfind r hr
        simpa using this
      have hlen : a.comps.length < nullId := by
        rw [← hall]
        exact hcount
      have hgrow : ¬ a.comps.length ≥ a.comps.length + 8 := by omega
      simp only [ensureCompsCapacity, if_neg hgrow]
      cases ok with
      | false => exact ⟨a, Or.inl rfl, h, rfl, rfl⟩
      | true =>
          have heq := lookup_append_replicate a (a.comps.length + 8 - a.comps.length)
          refine ⟨_, Or.inr ⟨a.comps.length, rfl, ?_, ?_, hlen⟩, h.congr_comps heq, funext heq,
            rfl⟩
          · simp
          · refine (heq _).trans ?_
            simp [lookup]

theorem allocCompId_links (a : App δ) (ok : Bool) : (allocCompId a ok).2.links = a.links := by
  unfold allocCompId
  cases a.comps.findIdx? (· == 0) with
  | some i => rfl
  | none =>
      have hgrow : ¬ a.comps.length ≥ a.comps.length + 8 := by omega
      simp only [ensureCompsCapacity, if_neg hgrow]
      cases ok <;> rfl

/-- There is no id only if the table is full and cannot grow. -/
theorem allocCompId_isSome {ok : Bool} :
    (allocCompId a ok).1.isSome = true ↔ ok = true ∨ 0 ∈ a.comps := by
  unfold allocCompId
  cases hfind : a.comps.findIdx? (· == 0) with
  | some i =>
      obtain ⟨hi, hzero, -⟩ := List.findIdx?_eq_some_iff_getElem.mp hfind
      refine iff_of_true rfl (Or.inr ?_)
      rw [← show a.comps[i] = 0 by simpa using hzero]
      exact List.getElem_mem hi
  | none =>
      have hnone : 0 ∉ a.comps := by
        intro hmem
        simpa using List.findIdx?_eq_none_iff.mp hfind 0 hmem
      have hgrow : ¬ a.comps.length ≥ a.comps.length + 8 := by omega
      simp only [ensureCompsCapacity, if_neg hgrow]
      cases ok <;> simp [hnone]

/-! ### Adding a component -/

/-- The applications have the same components, in the same order, and the same links. -/
structure Unchanged (a a' : App δ) : Prop where
  node : a'.node = a.node
  links : a'.links = a.links

theorem Unchanged.refl (a : App δ) : Unchanged a a := ⟨rfl, rfl⟩

/-- The component with this id is the new last child of `pid`, and nothing else changed. -/
structure Added (a a' : App δ) (pid id : ℕ) (t : CompType) (name : Str) : Prop where
  fresh : a.node id = none
  face : (a'.node id).map Node.face = some (t, id, name, pid)
  childless : KidsAt a'.node id []
  last : ∀ l, KidsAt a.node pid l → KidsAt a'.node pid (l ++ [id])
  others : ∀ j, j ≠ id → (a'.node j).map Node.face = (a.node j).map Node.face
  kids : ∀ q l, q ≠ pid → KidsAt a.node q l → KidsAt a'.node q l
  links : a'.links = a.links

theorem Added.fired {a'' : App δ} {t : CompType} {name : Str} (h : Added a a' pid id t name)
    (hf : Fired a' a'') : Added a a'' pid id t name := by
  have hnode : a''.node = a'.node := hf.sameTree.node
  refine ⟨h.fresh, ?_, ?_, ?_, ?_, ?_, hf.links.trans h.links⟩ <;> rw [hnode]
  · exact h.face
  · exact h.childless
  · exact h.last
  · exact h.others
  · exact h.kids

/-- What `add` asks for: no sibling has the name, and there is memory for the component and for
its entry in the table. -/
structure Addable (a : App δ) (ok : Bool) (mem : Ref) (pid : ℕ) (name : Str) : Prop where
  free : ∀ k m, a.node k = some m → m.parent = pid → m.name ≠ name
  entry : ok = true ∨ 0 ∈ a.comps
  memory : mem ≠ 0

/-- An object that is not in the table may be put behind a reference. -/
theorem Table.put_dead (h : a.Table) (hdead : ∀ j, a.lookup j ≠ r) (hr0 : r ≠ 0) :
    (a.put r c).Table := by
  refine ⟨?_, h.self, h.self_ne, fun id h0 => ?_⟩
  · rw [put_objs_of_ne hr0.symm, h.null]
  · obtain ⟨d, hd, hdid⟩ := h.live id h0
    exact ⟨d, (put_objs_of_ne (hdead id)).trans hd, hdid⟩

theorem Services.put_fresh (h : a.Services) (hnone : a.objs r = none)
    (hdead : ∀ j, a.lookup j ≠ r) : (a.put r c).Services := by
  refine Lists.congr h (fun _ _ hh => hh) ?_ ?_
  · intro j i _ _
    by_cases hj : j = r
    · subst hj
      have hself : (a.put j c).svcOwn j = none := by
        simp [svcOwn, hdead]
      rw [hself]
      simp [svcOwn, hnone]
    · unfold svcOwn
      rw [put_objs_of_ne hj]
      rfl
  · intro j i _ _ hown
    have hj : j ≠ r := by
      rintro rfl
      simp [svcOwn, hnone] at hown
    rw [svcNext, svcNext, put_objs_of_ne hj]

/-- **A new component in the tree.** A component that was entered into the table and linked
behind its siblings keeps the invariant. -/
theorem Inv.withLeaf (h : a.Inv) (hobj : a.objs mem = none) (hmem0 : mem ≠ 0)
    (hid : a.lookup id = 0) (hlen : id < a.comps.length) (hlt : id < nullId)
    (hp : a.comp pid = some p) (hl : Kids a.node pid p.toNode l)
    (hleaf : c.children = nullId ∧ c.nextSibling = nullId ∧ c.linksTo = 0 ∧ c.linksFrom = 0) :
    ∃ a', (Returns (fun fuel => do
        let (inserted, b) ← (a.put mem c).insert id mem
        if !inserted then some (false, b) else linkChild fuel b (a.lookup pid) id mem)
        (true, a')) ∧ a'.Inv ∧ a'.lookup id = mem ∧ Added a a' pid id c.type c.name := by
  obtain ⟨hkids, hsib, hto, hfrom⟩ := hleaf
  have hdead : ∀ j, a.lookup j ≠ mem := by
    intro j hj
    by_cases h0 : a.lookup j = 0
    · exact hmem0 (hj.symm.trans h0)
    · obtain ⟨d, hd, -⟩ := h.table.live j h0
      rw [hj, hobj] at hd
      exact Option.some_ne_none d hd.symm
  set a₂ := a.put mem c with ha₂
  have ht₂ : a₂.Table := h.table.put_dead hdead hmem0
  have hobj₂ : a₂.objs mem = some c := put_objs_self
  have hid0 : id ≠ 0 := by
    rintro rfl
    exact h.table.self_ne (h.table.self.symm.trans hid)
  have hcomp₂ : a₂.comp = a.comp := comp_put_dead hdead
  have hdead₂ : ∀ j, a₂.lookup j ≠ mem := hdead
  have hlen₂ : id < a₂.comps.length := hlen
  have hid₂ : a₂.lookup id = 0 := hid
  set a₃ := a₂.withInserted id mem c with ha₃
  set c₃ := a₂.inserted id c with hc₃
  have hrun₃ : a₂.insert id mem = some (true, a₃) :=
    insert_spec hobj₂ hid₂ hlen₂ (by omega)
  have ht₃ : a₃.Table := withInserted_table ht₂ hobj₂ hdead₂ hid₂ hlen₂ hid0
  have hcomp₃ : a₃.comp = update a.comp id (some c₃) := by
    rw [ha₃, withInserted_comp hdead₂ hlen₂, hcomp₂]
  have hlookup₃ : ∀ j, a₃.lookup j = if j = id then mem else a.lookup j :=
    fun j => withInserted_lookup hlen₂ j
  have hne : pid ≠ id := by
    rintro rfl
    exact h.table.lookup_ne hp hid
  have hnode₃ : a₃.node = update a.node id (some c₃.toNode) := by
    funext j
    unfold node
    rw [hcomp₃]
    by_cases hj : j = id
    · subst hj
      simp
    · simp [update_of_ne hj]
  have hidl : id ∉ l := by
    intro hmem
    obtain ⟨m, hm, -⟩ := (hl.mem id).mp hmem
    exact absurd ((h.table.node_eq_none hid).symm.trans hm) (by simp)
  have hchain₃ : Chain nullId (nextSib a₃.node) p.children l := by
    refine hl.chain.congr fun y hy => ?_
    rw [nextSib, nextSib, hnode₃, update_of_ne]
    rintro rfl
    exact hidl hy
  have hself₃ : a₃.lookup id = mem := by rw [hlookup₃, if_pos rfl]
  have hpid₃ : a₃.lookup pid = a.lookup pid := by rw [hlookup₃, if_neg hne]
  have hc₃' : a₃.comp id = some c₃ := by rw [hcomp₃, update_self]
  have hlink := linkChild_spec ht₃ (by rw [hlookup₃, if_neg (by omega), h.lookup_nullId])
    (show a₃.comp pid = some p by rw [hcomp₃, update_of_ne hne, hp]) hc₃' hne (by omega) hchain₃
  set a₄ := (a₃.put (a₃.lookup id) { c₃ with parent := pid }).relinkAt pid l id with ha₄
  rw [hself₃, hpid₃] at hlink
  have hrest₃ : SameRest a₃ (a₃.put (a₃.lookup id) { c₃ with parent := pid }) :=
    SameRest.put hc₃' rfl
  have hrest : SameRest a₃ a₄ := hrest₃.trans (relinkAt_sameRest _ _ _ _)
  set leaf : Node := { c₃ with parent := pid }.toNode with hleaf
  have hnode₄ : a₄.node = relink (update a.node id (some leaf)) pid l id := by
    rw [ha₄, relinkAt_node (hrest₃.table ht₃), node_put ht₃ rfl (hself₃ ▸ hmem0), hnode₃,
      update_idem]
  have hleafFields : leaf.id = id ∧ leaf.parent = pid ∧ leaf.children = nullId ∧
      leaf.nextSibling = nullId := ⟨rfl, rfl, hkids, hsib⟩
  obtain ⟨hlast, hnone, hothers⟩ := h.tree.kidsAt_add (h.table.node_eq_none hid) hlt
    (node_eq_some.mpr ⟨p, hp, rfl⟩) hl hleafFields
  rw [← hnode₄] at hlast hnone hothers
  have hadded : Added a a₄ pid id c.type c.name := by
    refine ⟨h.table.node_eq_none hid, ?_, hnone, fun l' hl' => ?_, fun j hj => ?_, hothers,
      hrest.links⟩
    · rw [hnode₄, face_relink, update_self]
      rfl
    · rw [hl'.unique ⟨p.toNode, node_eq_some.mpr ⟨p, hp, rfl⟩, hl⟩]
      exact hlast
    · rw [hnode₄, face_relink, update_of_ne hj]
  refine ⟨a₄, ?_, ⟨hrest.table ht₃, ?_, hrest.linkLists ⟨h.links.null, fun s => ?_⟩, ?_, ?_, ?_⟩,
    by rw [hrest.lookup, hself₃], hadded⟩
  · obtain ⟨n, hn⟩ := hlink
    refine ⟨n, fun fuel hfuel => ?_⟩
    simp only [hrun₃, Option.bind_eq_bind, Option.bind_some, Bool.not_true, Bool.false_eq_true,
      if_false]
    exact hn fuel hfuel
  · rw [hnode₄]
    exact h.tree.add (h.table.node_eq_none hid) hlt (node_eq_some.mpr ⟨p, hp, rfl⟩) hl hleafFields
  · -- the new component has no links
    have hhead : ∀ j, a₃.headOn s j = if j = id then some 0 else a.headOn s j := by
      intro j
      unfold headOn
      rw [hcomp₃]
      by_cases hj : j = id
      · subst hj
        have h0 : s.head c₃ = 0 := by cases s <;> [exact hto; exact hfrom]
        simp [h0]
      · simp [hj]
    intro j first hj
    rw [hhead] at hj
    by_cases hjid : j = id
    · subst hjid
      rw [if_pos rfl] at hj
      obtain rfl := Option.some.inj hj
      refine ⟨[], chain_nil.mpr rfl, fun k => ?_⟩
      simp only [List.not_mem_nil, false_iff]
      intro hown
      obtain ⟨y, hy, howner⟩ := Option.bind_eq_some_iff.mp hown
      have hends := h.ends k y hy
      cases s with
      | into => exact hends.2 (by rw [Option.some.inj howner, hid])
      | outOf =>
          simp only [Side.owner] at howner
          split at howner
          · simp at howner
          · exact hends.1 (by rw [Option.some.inj howner, hid])
    · rw [if_neg hjid] at hj
      exact h.links.lists s j first hj
  · intro k y hy
    rw [hrest.links] at hy
    have hends := h.ends k y hy
    have hkeep : ∀ j, a.lookup j ≠ 0 → a₄.lookup j ≠ 0 := by
      intro j hj
      rw [hrest.lookup, hlookup₃, if_neg]
      · exact hj
      · rintro rfl
        exact hj hid
    exact ⟨hkeep _ hends.1, hkeep _ hends.2⟩
  · rw [hrest.links]
    exact h.slots
  · rw [hrest.services_iff]
    exact withInserted_services ht₂ hobj₂ hdead₂ hid₂ hlen₂ (h.services.put_fresh hobj hdead)

/-- **Adding a component** under a component of the table: `add` refuses and changes nothing, or
the component is there with the name cut to seven characters. -/
theorem Inv.add_spec (h : a.Inv) (cb : Callbacks δ) (ok : Bool) (name : Str) (t : CompType)
    (hp : a.comp pid = some p) (hmem : mem = 0 ∨ a.objs mem = none) (hcount : a.count < nullId) :
    ∃ r a', Returns (fun fuel => add cb fuel a ok mem (a.lookup pid) name t) (r, a') ∧ a'.Inv ∧
      (r = 0 ∧ ¬ Addable a ok mem pid name ∧ Unchanged a a' ∨
        r = mem ∧ Addable a ok mem pid name ∧
          ∃ id, a'.lookup id = mem ∧ Added a a' pid id t (name.take (nameLen - 1))) := by
  have hp0 := h.table.lookup_ne hp
  have hobj : a.objs (a.lookup pid) = some p := hp
  obtain ⟨l, hl⟩ := h.tree.kids pid p.toNode (node_eq_some.mpr ⟨p, hp, rfl⟩)
  obtain ⟨sibling, hwalk, hends⟩ :=
    siblingWhere_spec h.table h.lookup_nullId hl.chain (·.name == name)
  by_cases hsame : a.lookup sibling = 0
  swap
  · refine ⟨0, a, ⟨l.length + 1, fun fuel hfuel => ?_⟩, h, Or.inl ⟨rfl, ?_, Unchanged.refl a⟩⟩
    · simp [App.add, hp0, hobj, hwalk fuel hfuel, hsame]
    · rintro ⟨hfree, -, -⟩
      -- the loop along the siblings ended with a child of that name
      cases hends with
      | atEnd hr _ => exact hsame (hr ▸ h.lookup_nullId)
      | atNode l₁ l₂ v hl' hv hstop _ =>
          have hkid : sibling ∈ l := by simp [hl']
          obtain ⟨m, hm, hpar⟩ := (hl.mem sibling).mp hkid
          obtain ⟨v', hv', rfl⟩ := node_eq_some.mp hm
          obtain rfl := Option.some.inj (hv.symm.trans hv')
          exact hfree sibling _ hm hpar (by simpa using hstop)
  have hfree : ∀ k m, a.node k = some m → m.parent = pid → m.name ≠ name := by
    intro k m hk hpar hname
    obtain ⟨c, hc, rfl⟩ := node_eq_some.mp hk
    have hkid : k ∈ l := (hl.mem k).mpr ⟨_, hk, hpar⟩
    cases hends with
    | atEnd _ hnone => exact absurd (hnone k hkid c hc) (by simp [hname])
    | atNode _ _ v _ hv _ _ => exact h.table.lookup_ne hv hsame
  obtain ⟨a₁, halloc, h₁, hlookup₁, hobjs₁⟩ := allocCompId_spec h hcount ok
  have hcomp₁ : a₁.comp = a.comp := by
    funext j
    rw [comp, comp, hlookup₁, hobjs₁]
  have hnode₁ : a₁.node = a.node := by
    funext j
    rw [node, node, hcomp₁]
  have hlinks₁ : a₁.links = a.links := by
    have heq := allocCompId_links a ok
    rcases halloc with halloc | ⟨id, halloc, -⟩ <;> rwa [halloc] at heq
  have hsome : (allocCompId a ok).1.isSome = true ↔ ok = true ∨ 0 ∈ a.comps := allocCompId_isSome
  rcases halloc with halloc | ⟨id, halloc, hlen, hid, hlt⟩
  · refine ⟨0, a₁, ⟨l.length + 1, fun fuel hfuel => ?_⟩, h₁, Or.inl ⟨rfl, ?_, hnode₁, hlinks₁⟩⟩
    · simp [App.add, hp0, hobj, hwalk fuel hfuel, hsame, halloc]
    · rintro ⟨-, hentry, -⟩
      rw [halloc] at hsome
      exact absurd (hsome.mpr hentry) (by simp)
  by_cases hmem0 : mem = 0
  · refine ⟨0, a₁, ⟨l.length + 1, fun fuel hfuel => ?_⟩, h₁, Or.inl ⟨rfl, ?_, hnode₁, hlinks₁⟩⟩
    · simp [App.add, hp0, hobj, hwalk fuel hfuel, hsame, halloc, hmem0]
    · exact fun hadd => hadd.memory hmem0
  have hentry : ok = true ∨ 0 ∈ a.comps := by
    rw [halloc] at hsome
    exact hsome.mp rfl
  have hnone : a₁.objs mem = none := by
    rw [hobjs₁]
    exact hmem.resolve_left hmem0
  obtain ⟨a₄, hrun, h₄, hlookup₄, hadded⟩ := h₁.withLeaf
    (c := { type := t, name := name.take (nameLen - 1) })
    hnone hmem0 hid hlen hlt (hcomp₁ ▸ hp) (hnode₁ ▸ hl) ⟨rfl, rfl, rfl, rfl⟩
  have hfired := (Fired.whenRunning cb [.childEvent true (a.lookup pid) mem,
    .parentEvent true mem (a.lookup pid), .loaded mem, .start mem] a₄).trans
    (Fired.fire cb (.fireTreeChanged (a.lookup pid)) _)
  obtain ⟨n, hn⟩ := hrun
  have hadded' : Added a a₄ pid id t (name.take (nameLen - 1)) := by
    obtain ⟨hfresh, hface, hless, hlast, hothers, hkids, hlinks⟩ := hadded
    rw [hnode₁] at hfresh hlast hothers hkids
    exact ⟨hfresh, hface, hless, hlast, hothers, hkids, hlinks.trans hlinks₁⟩
  refine ⟨mem, _, ⟨max n (l.length + 1), fun fuel hfuel => ?_⟩, h₄.fired hfired,
    Or.inr ⟨rfl, ⟨hfree, hentry, hmem0⟩, id, (hfired.sameTree.lookup id).trans hlookup₄,
      hadded'.fired hfired⟩⟩
  have hstep := hn fuel (le_trans (le_max_left _ _) hfuel)
  have hw := hwalk fuel (le_trans (le_max_right _ _) hfuel)
  rw [hlookup₁] at hstep
  obtain ⟨⟨inserted, b⟩, hins, hstep⟩ := Option.bind_eq_some_iff.mp hstep
  cases inserted with
  | false => simp at hstep
  | true =>
      simp only [Bool.not_true, Bool.false_eq_true, if_false] at hstep
      simp only [App.add, if_neg hp0, hobj, hw, hsame, halloc, if_neg hmem0,
        Option.bind_eq_bind, Option.bind_some]
      simp only [put] at hins
      simp only [hins, hstep, ne_eq, not_true_eq_false, if_false, Option.bind_some, Bool.not_true,
        Bool.false_eq_true]

/-- Adding a component under a component of the table returns and keeps the invariant. -/
theorem Inv.add (h : a.Inv) (cb : Callbacks δ) (ok : Bool) (name : Str) (t : CompType)
    (hp : a.comp pid = some p) (hmem : mem = 0 ∨ a.objs mem = none) (hcount : a.count < nullId) :
    ∃ r a', Returns (fun fuel => add cb fuel a ok mem (a.lookup pid) name t) (r, a') ∧
      a'.Inv := by
  obtain ⟨r, a', hrun, h', -⟩ := h.add_spec cb ok name t hp hmem hcount
  exact ⟨r, a', hrun, h'⟩

/-! ### Adding and removing links -/

/-- The loop along a list of links. -/
theorem linkWhere_spec {s : Side} {first : Ref} {links : List Ref}
    (hchain : Chain 0 (a.nextOn s) first links) (stop : Link → Bool) :
    ∃ r, (∀ fuel, links.length < fuel → a.linkWhere s stop fuel first = some r) ∧
      WalkEnds 0 a.links stop links r :=
  hchain.walk_eq stop (by rfl) fun y hy => by simpa using hchain.ne_nil hy

/-- The links of an application whose list fields changed keep the properties of their ends. -/
theorem Inv.of_links (h : a.Inv) (htree : SameTree a a') (hlists : a'.LinkLists)
    (hcore : ∀ j y, a'.links j = some y → ∃ z, a.links j = some z ∧ z.core = y.core) :
    a'.Inv := by
  refine ⟨htree.table h.table, by rw [htree.node]; exact h.tree, hlists, ?_, ?_,
    htree.services_iff.mpr h.services⟩
  · intro j y hy
    obtain ⟨z, hz, heq⟩ := hcore j y hy
    have hfrom : z.fromComp = y.fromComp := congrArg (fun l => l.fromComp) heq
    have hto : z.toComp = y.toComp := congrArg (fun l => l.toComp) heq
    rw [htree.lookup, htree.lookup, ← hfrom, ← hto]
    exact h.ends j z hz
  · intro j j' y y' hy hy' hto hslot
    obtain ⟨z, hz, heq⟩ := hcore j y hy
    obtain ⟨z', hz', heq'⟩ := hcore j' y' hy'
    have h₁ : z.toComp = y.toComp := congrArg (fun l => l.toComp) heq
    have h₂ : z'.toComp = y'.toComp := congrArg (fun l => l.toComp) heq'
    have h₃ : z.toSlot = y.toSlot := congrArg (fun l => l.toSlot) heq
    have h₄ : z'.toSlot = y'.toSlot := congrArg (fun l => l.toSlot) heq'
    exact h.slots j j' z z' hz hz' (by rw [h₁, h₂, hto]) (by rw [h₃, h₄, hslot])

/-- A new link into a slot that no other link goes to keeps the invariant. -/
theorem Inv.withLink (h : a.Inv) (hk : a.links k = none) (hk0 : k ≠ 0)
    (hsrc : a.lookup x.fromComp ≠ 0) (hdst : a.lookup x.toComp ≠ 0)
    (hslot : ∀ j y, a.links j = some y → y.toComp = x.toComp → y.toSlot ≠ x.toSlot) :
    ∃ a', insertLink (a.putLink k x) k = some (true, a') ∧ SameTree a a' ∧ a'.Inv ∧
      (∀ j, j ≠ k → (a'.links j).map Link.core = (a.links j).map Link.core) ∧
      (a'.links k).map Link.core = some x.core := by
  obtain ⟨a', hrun, htree, hlists, hcore, hnew⟩ := insertLink_spec h.table h.links hk hk0 hsrc hdst
  have hold : ∀ j y, j ≠ k → a'.links j = some y → ∃ z, a.links j = some z ∧ z.core = y.core := by
    intro j y hj hy
    have heq := (hcore j hj).symm
    rw [hy] at heq
    obtain ⟨z, hz, hcore⟩ := Option.map_eq_some_iff.mp heq
    exact ⟨z, hz, hcore⟩
  have hself : ∀ y, a'.links k = some y → y.core = x.core := by
    intro y hy
    rw [hy] at hnew
    exact Option.some.inj hnew
  refine ⟨a', hrun, htree, ⟨htree.table h.table, by rw [htree.node]; exact h.tree, hlists, ?_, ?_,
    htree.services_iff.mpr h.services⟩, hcore, hnew⟩
  · intro j y hy
    rw [htree.lookup, htree.lookup]
    by_cases hj : j = k
    · subst hj
      have heq := hself y hy
      rw [show y.fromComp = x.fromComp from congrArg (fun l => l.fromComp) heq,
        show y.toComp = x.toComp from congrArg (fun l => l.toComp) heq]
      exact ⟨hsrc, hdst⟩
    · obtain ⟨z, hz, heq⟩ := hold j y hj hy
      rw [← show z.fromComp = y.fromComp from congrArg (fun l => l.fromComp) heq,
        ← show z.toComp = y.toComp from congrArg (fun l => l.toComp) heq]
      exact h.ends j z hz
  · -- two links of the same slot: neither is the new one unless both are
    have hnone : ∀ j (y y' : Link), j ≠ k → a'.links j = some y → y'.core = x.core →
        y.toComp = y'.toComp → y.toSlot ≠ y'.toSlot := by
      intro j y y' hj hy hy' hto
      obtain ⟨z, hz, heq⟩ := hold j y hj hy
      have h₁ : z.toComp = y.toComp := congrArg (fun l => l.toComp) heq
      have h₂ : z.toSlot = y.toSlot := congrArg (fun l => l.toSlot) heq
      have h₃ : y'.toComp = x.toComp := congrArg (fun l => l.toComp) hy'
      have h₄ : y'.toSlot = x.toSlot := congrArg (fun l => l.toSlot) hy'
      rw [← h₂, h₄]
      exact hslot j z hz (by rw [h₁, hto, h₃])
    intro j j' y y' hy hy' hto heq
    by_cases hj : j = k <;> by_cases hj' : j' = k
    · rw [hj, hj']
    · subst hj
      exact absurd heq.symm (hnone j' y' y hj' hy' (hself y hy) hto.symm)
    · subst hj'
      exact absurd heq (hnone j y y' hj hy (hself y' hy') hto)
    · obtain ⟨z, hz, hcz⟩ := hold j y hj hy
      obtain ⟨z', hz', hcz'⟩ := hold j' y' hj' hy'
      refine h.slots j j' z z' hz hz' ?_ ?_
      · rw [show z.toComp = y.toComp from congrArg (fun l => l.toComp) hcz,
          show z'.toComp = y'.toComp from congrArg (fun l => l.toComp) hcz', hto]
      · rw [show z.toSlot = y.toSlot from congrArg (fun l => l.toSlot) hcz,
          show z'.toSlot = y'.toSlot from congrArg (fun l => l.toSlot) hcz', heq]

/-- There is one more link, with these ends, and nothing else changed. -/
structure LinkAdded (a a' : App δ) (x : Link) : Prop where
  node : a'.node = a.node
  link : ∃ k, a.links k = none ∧ (a'.links k).map Link.core = some x ∧
    ∀ j, j ≠ k → (a'.links j).map Link.core = (a.links j).map Link.core

/-- A link with these ends is gone, and nothing else changed. -/
structure LinkRemoved (a a' : App δ) (x : Link) : Prop where
  node : a'.node = a.node
  link : ∃ k, (a.links k).map Link.core = some x ∧ a'.links k = none ∧
    ∀ j, j ≠ k → (a'.links j).map Link.core = (a.links j).map Link.core

/-- **Adding a link** between two components of the table: `addLink` refuses, or the link is
there. -/
theorem Inv.addLink_spec (h : a.Inv) (cb : Callbacks δ) {src dst : ℕ} {f t : Component}
    (hf : a.comp src = some f) (ht : a.comp dst = some t) (fromSlot toSlot : Slot)
    (hk0 : k ≠ 0) (hk : a.links k = none) :
    ∃ r a', Returns (fun fuel =>
      addLink cb fuel a k (a.lookup src) fromSlot (a.lookup dst) toSlot) (r, a') ∧ a'.Inv ∧
      (r = 0 ∧ a' = a ∨ r = k ∧ LinkAdded a a' (Link.mk src fromSlot.id dst toSlot.id 0 0)) := by
  have hf0 := h.table.lookup_ne hf
  have ht0 := h.table.lookup_ne ht
  have hfobj : a.objs (a.lookup src) = some f := hf
  have htobj : a.objs (a.lookup dst) = some t := ht
  obtain rfl := h.table.comp_id hf
  obtain rfl := h.table.comp_id ht
  obtain ⟨links, hchain, hmem⟩ := h.links.lists .into t.id t.linksTo
    (show a.headOn .into t.id = some t.linksTo by simp [headOn, ht, Side.head])
  obtain ⟨dup, hdup, -⟩ := linkWhere_spec hchain fun x => x.toSlot == toSlot.id &&
    x.fromComp == f.id && x.fromSlot == fromSlot.id
  obtain ⟨fan, hfan, hends⟩ := linkWhere_spec hchain fun x => x.toSlot == toSlot.id
  set x : Link := Link.mk f.id fromSlot.id t.id toSlot.id 0 0 with hx
  have hrun : ∀ fuel, links.length < fuel →
      App.addLink cb fuel a k (a.lookup f.id) fromSlot (a.lookup t.id) toSlot =
        if dup ≠ 0 then some (0, a) else if fan ≠ 0 then some (0, a)
        else (insertLink (a.putLink k x) k).bind fun b =>
          some (k, (b.2.whenRunning cb [.linkEvent true (a.lookup t.id) k,
            .linkEvent true (a.lookup f.id) k]).fireAll cb
              [.fireLinksChanged (a.lookup f.id), .fireLinksChanged (a.lookup t.id)]) := by
    intro fuel hfuel
    simp only [App.addLink, hf0, ht0, or_self, if_false, hfobj, htobj, Option.bind_eq_bind,
      Option.bind_some, lookupLink, ht, hdup fuel hfuel, hfan fuel hfuel, hk0]
    rfl
  by_cases hdup0 : dup = 0
  swap
  · refine ⟨0, a, ⟨links.length + 1, fun fuel hfuel => ?_⟩, h, Or.inl ⟨rfl, rfl⟩⟩
    simp only [hrun fuel hfuel, if_pos hdup0]
  by_cases hfan0 : fan = 0
  swap
  · refine ⟨0, a, ⟨links.length + 1, fun fuel hfuel => ?_⟩, h, Or.inl ⟨rfl, rfl⟩⟩
    simp only [hrun fuel hfuel, if_neg (not_not.mpr hdup0), if_pos hfan0]
  have hslot : ∀ j y, a.links j = some y → y.toComp = t.id → y.toSlot ≠ toSlot.id := by
    intro j y hy hto
    have hj : j ∈ links := (hmem j).mpr (by simp [ownOn, hy, Side.owner, hto])
    cases hends with
    | atEnd hr hnone => simpa using hnone j hj y hy
    | atNode l₁ l₂ v hl hv hstop hbefore =>
        refine absurd hfan0 (hchain.ne_nil ?_)
        rw [hl]
        simp
  obtain ⟨a', hins, htree, h', hothers, hnew⟩ := h.withLink (x := x) hk hk0 hf0 ht0 hslot
  have hfired := (Fired.whenRunning cb [.linkEvent true (a.lookup t.id) k,
    .linkEvent true (a.lookup f.id) k] a').trans
    (Fired.fireAll cb [.fireLinksChanged (a.lookup f.id), .fireLinksChanged (a.lookup t.id)] _)
  refine ⟨k, _, ⟨links.length + 1, fun fuel hfuel => ?_⟩, h'.fired hfired, Or.inr ⟨rfl, ?_, k, hk,
    ?_, fun j hj => ?_⟩⟩
  rotate_left
  · rw [hfired.sameTree.node, htree.node]
  · rw [hfired.links]
    exact hnew
  · rw [hfired.links]
    exact hothers j hj
  simp only [hrun fuel hfuel, if_neg (not_not.mpr hdup0), if_neg (not_not.mpr hfan0), hins,
    Option.bind_some]

/-- Adding a link between two components of the table returns and keeps the invariant. -/
theorem Inv.addLink (h : a.Inv) (cb : Callbacks δ) {src dst : ℕ} {f t : Component}
    (hf : a.comp src = some f) (ht : a.comp dst = some t) (fromSlot toSlot : Slot)
    (hk0 : k ≠ 0) (hk : a.links k = none) :
    ∃ r a', Returns (fun fuel =>
      addLink cb fuel a k (a.lookup src) fromSlot (a.lookup dst) toSlot) (r, a') ∧ a'.Inv := by
  obtain ⟨r, a', hrun, h', -⟩ := h.addLink_spec cb hf ht fromSlot toSlot hk0 hk
  exact ⟨r, a', hrun, h'⟩

/-- **Removing a link** of the app succeeds. -/
theorem Inv.removeLink_spec (h : a.Inv) (cb : Callbacks δ) (hx : a.links k = some x) :
    ∃ a', Returns (fun fuel => App.removeLink cb fuel a k) (true, a') ∧ a'.Inv ∧
      LinkRemoved a a' x.core := by
  obtain ⟨b, a', hrun, htree, hlists, hgone, hcore, -, -, htrue⟩ :=
    App.removeLink_spec cb h.table h.links hx
  obtain ⟨hfrom, hto⟩ := h.ends k x hx
  obtain rfl := htrue hfrom hto
  refine ⟨a', hrun, h.of_links htree hlists fun j y hy => ?_, htree.node, k, by rw [hx]; rfl,
    hgone, hcore⟩
  have hj : j ≠ k := by
    rintro rfl
    exact Option.some_ne_none y (hy.symm.trans hgone)
  have heq := (hcore j hj).symm
  rw [hy] at heq
  exact Option.map_eq_some_iff.mp heq

/-- Removing a link returns and keeps the invariant. -/
theorem Inv.removeLink (h : a.Inv) (cb : Callbacks δ) (hx : a.links k = some x) :
    ∃ b a', Returns (fun fuel => App.removeLink cb fuel a k) (b, a') ∧ a'.Inv := by
  obtain ⟨a', hrun, h', -⟩ := h.removeLink_spec cb hx
  exact ⟨true, a', hrun, h'⟩

end App

end Sedona
