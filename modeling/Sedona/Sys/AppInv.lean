import Sedona.Sys.LinkLists

/-!
# The Invariant of an Application

`Inv` is what holds of an application between any two calls: the table, the tree, both
families of link lists and the list of services agree with each other. The second half of
the file says what the writes that thread a component through its siblings, and the entry
of a new component into the table, do to these parts.

## Main results

* `insert_spec`: a component entered into the table appears in the views and, if it is a
  service, in front of the services.
* `linkChild_spec`: a component entered into the table is put behind its siblings.
-/

namespace Sedona

open Function Intrusive Fuel

variable {δ : Type}

namespace App

/-! ### Services -/

/-- The service behind this one. -/
def svcNext (a : App δ) (r : Ref) : Option Ref := (a.objs r).map (·.nextService)

/-- The list of services a component belongs to: the only one there is, if it is a service in
the table. -/
def svcOwn (a : App δ) (r : Ref) : Option Unit :=
  (a.objs r).bind fun c => if a.lookup c.id = r ∧ c.type.isService then some () else none

/-- The list of services holds exactly the services in the table. -/
def Services (a : App δ) : Prop := Lists 0 a.svcNext (fun _ => some a.services) a.svcOwn

/-! ### The invariant -/

/-- What holds of an application between calls. -/
structure Inv (a : App δ) : Prop where
  table : a.Table
  tree : Tree a.node
  links : a.LinkLists
  /-- Both ends of a link are in the table. -/
  ends : ∀ k x, a.links k = some x → a.lookup x.fromComp ≠ 0 ∧ a.lookup x.toComp ≠ 0
  /-- No two links go to the same slot. -/
  slots : ∀ k k' x x', a.links k = some x → a.links k' = some x' → x.toComp = x'.toComp →
    x.toSlot = x'.toSlot → k = k'
  services : a.Services

section Inv

variable {a a' : App δ} {id pid v : ℕ} {r k parent : Ref} {c p obj : Component} {n : Node}
  {l : List ℕ}

theorem Inv.lookup_nullId (h : a.Inv) : a.lookup nullId = 0 := by
  by_contra h0
  obtain ⟨c, hc, -⟩ := h.table.exists_comp h0
  exact absurd (h.tree.ids nullId c.toNode (node_eq_some.mpr ⟨c, hc, rfl⟩)).2 (lt_irrefl _)

theorem Table.node_eq_none (h : a.Table) (h0 : a.lookup id = 0) : a.node id = none := by
  rw [node, h.comp_eq_none h0]
  rfl

theorem Table.lookup_of_node (h : a.Table) (hn : a.node id = some n) : a.lookup id ≠ 0 := by
  obtain ⟨c, hc, -⟩ := node_eq_some.mp hn
  exact h.lookup_ne hc

/-- Callbacks keep the invariant. -/
theorem Inv.fired (h : a.Inv) (hf : Fired a a') : a'.Inv := by
  obtain ⟨d, b, rfl⟩ := hf
  exact ⟨⟨h.table.null, h.table.self, h.table.self_ne, h.table.live⟩, h.tree,
    ⟨h.links.null, h.links.lists⟩, h.ends, h.slots, h.services⟩

theorem SameTree.services_iff (h : SameTree a a') : a'.Services ↔ a.Services := by
  have hnext : a'.svcNext = a.svcNext := by
    funext r
    have hcore := congrArg (Option.map (fun c : Component => c.nextService)) (h.core r)
    rw [Option.map_map, Option.map_map] at hcore
    exact hcore
  have hown : a'.svcOwn = a.svcOwn := by
    funext r
    have hcore := h.core r
    revert hcore
    unfold svcOwn
    cases a.objs r <;> cases a'.objs r <;> intro hcore
    · rfl
    · simp at hcore
    · simp at hcore
    · have hnode := congrArg (fun c : Component => c.toNode) (Option.some.inj hcore)
      simp only [Component.core] at hnode
      simp only [Option.bind_some, hnode, h.lookup]
  unfold Services
  rw [hnext, hown, h.services]

/-- The list of services does not depend on other fields. -/
theorem Services.put_same (h : a.Services) (hr : a.objs r = some c) (hid : p.id = c.id)
    (htype : p.type = c.type) (hnext : p.nextService = c.nextService) : (a.put r p).Services := by
  have hobjs : ∀ j, j ≠ r → (a.put r p).objs j = a.objs j := fun j hj => put_objs_of_ne hj
  have hown : (a.put r p).svcOwn = a.svcOwn := by
    funext j
    by_cases hj : j = r
    · subst hj
      simp [svcOwn, hr, hid, htype]
    · rw [svcOwn, svcOwn, hobjs j hj]
      rfl
  have hlink : (a.put r p).svcNext = a.svcNext := by
    funext j
    by_cases hj : j = r
    · subst hj
      simp [svcNext, hr, hnext]
    · simp only [svcNext, hobjs j hj]
  unfold Services
  rw [hown, hlink]
  exact h

/-! ### Writes to tree fields -/

/-- The applications differ only in tree fields of components and in data. -/
structure SameRest (a a' : App δ) : Prop where
  self : a'.self = a.self
  comps : a'.comps = a.comps
  services : a'.services = a.services
  links : a'.links = a.links
  rest : ∀ r, (a'.objs r).map Component.rest = (a.objs r).map Component.rest

namespace SameRest

theorem refl (a : App δ) : SameRest a a := ⟨rfl, rfl, rfl, rfl, fun _ => rfl⟩

theorem trans {a'' : App δ} (h : SameRest a a') (h' : SameRest a' a'') : SameRest a a'' :=
  ⟨h'.self.trans h.self, h'.comps.trans h.comps, h'.services.trans h.services,
    h'.links.trans h.links, fun r => (h'.rest r).trans (h.rest r)⟩

theorem lookup (h : SameRest a a') (id : ℕ) : a'.lookup id = a.lookup id := by
  rw [App.lookup, App.lookup, h.comps]

theorem put (hr : a.objs r = some c) (hrest : p.rest = c.rest) : SameRest a (a.put r p) := by
  refine ⟨rfl, rfl, rfl, rfl, fun r' => ?_⟩
  by_cases h : r' = r
  · subst h
    simp [hr, hrest]
  · rw [put_objs_of_ne h]

/-- A field outside the tree fields, of every object. -/
theorem map_eq {β : Type} (h : SameRest a a') (f : Component → β)
    (hf : ∀ c : Component, f c.rest = f c) (r : Ref) : (a'.objs r).map f = (a.objs r).map f := by
  have hrest := congrArg (Option.map f) (h.rest r)
  rwa [Option.map_map, Option.map_map, show f ∘ Component.rest = f from funext hf] at hrest

theorem table (h : SameRest a a') (ht : a.Table) : a'.Table where
  null := by
    have hrest := h.rest 0
    rw [ht.null] at hrest
    simpa using hrest
  self := by rw [h.lookup, h.self, ht.self]
  self_ne := by rw [h.self]; exact ht.self_ne
  live id h0 := by
    rw [h.lookup] at h0 ⊢
    obtain ⟨c, hc, hid⟩ := ht.live id h0
    have hrest := h.map_eq (fun c => c.id) (fun _ => rfl) (a.lookup id)
    rw [hc] at hrest
    obtain ⟨c', hc', heq⟩ := Option.map_eq_some_iff.mp hrest
    exact ⟨c', hc', heq.trans hid⟩

theorem linkLists (h : SameRest a a') (hl : a.LinkLists) : a'.LinkLists := by
  have hhead : ∀ s, a'.headOn s = a.headOn s := by
    intro s
    funext id
    unfold headOn comp
    rw [h.lookup]
    exact h.map_eq s.head (by intro c; cases s <;> rfl) _
  refine ⟨by rw [h.links]; exact hl.null, fun s => ?_⟩
  have hlists := hl.lists s
  unfold nextOn ownOn at hlists ⊢
  rw [hhead, h.links]
  exact hlists

theorem services_iff (h : SameRest a a') : a'.Services ↔ a.Services := by
  have hnext : a'.svcNext = a.svcNext :=
    funext fun r => h.map_eq (fun c => c.nextService) (fun _ => rfl) r
  have hown : a'.svcOwn = a.svcOwn := by
    funext r
    have hpair := h.map_eq (fun c => (c.id, c.type)) (fun _ => rfl) r
    revert hpair
    unfold svcOwn
    cases a.objs r <;> cases a'.objs r <;> intro hpair
    · rfl
    · simp at hpair
    · simp at hpair
    · obtain ⟨hid, htype⟩ := Prod.mk.inj (Option.some.inj hpair)
      simp only [Option.bind_some, hid, htype, h.lookup]
  unfold Services
  rw [hnext, hown, h.services]

end SameRest

/-! ### Siblings -/

theorem nextSib_node (a : App δ) :
    nextSib a.node = fun id => (a.comp id).map (fun c => c.nextSibling) := by
  funext id
  simp only [nextSib, node, Option.map_map]
  rfl

/-- The loop along siblings, on a list of components in the table that ends in a null entry. -/
theorem siblingWhere_spec (ht : a.Table) {nil first : ℕ} (h0 : a.lookup nil = 0)
    (hchain : Chain nil (nextSib a.node) first l) (stop : Component → Bool) :
    ∃ r, (∀ fuel, l.length < fuel → a.siblingWhere stop fuel first = some r) ∧
      WalkEnds nil a.comp stop l r := by
  have hnull : ∀ x ∈ l, (a.lookup x == 0) = false := by
    intro x hx
    obtain ⟨j, hj⟩ := hchain.next_isSome hx
    obtain ⟨n, hn, -⟩ := Option.map_eq_some_iff.mp hj
    simpa using ht.lookup_of_node hn
  rw [nextSib_node] at hchain
  exact hchain.walk_eq stop (by simp [h0]) hnull

/-- The loop that searches the last component of a list ends there. -/
theorem siblingWhere_last (ht : a.Table) {nil first x : ℕ} (h0 : a.lookup nil = 0)
    (hchain : Chain nil (nextSib a.node) first (l ++ [x])) :
    ∀ fuel, l.length + 1 < fuel → a.siblingWhere (·.nextSibling == nil) fuel first = some x := by
  obtain ⟨r, hrun, hends⟩ := siblingWhere_spec ht h0 hchain (·.nextSibling == nil)
  have hlast : nextSib a.node x = some nil := by
    obtain ⟨_, -, hsuffix⟩ := hchain.suffix
    obtain ⟨-, -, j, hj, hrest⟩ := chain_cons.mp hsuffix
    rw [hj, chain_nil.mp hrest]
  rw [nextSib_node] at hlast
  obtain ⟨cx, hcx, hnext⟩ := Option.map_eq_some_iff.mp hlast
  have hrx : r = x := by
    cases hends with
    | atEnd hr hnone => exact absurd (hnone x (by simp) cx hcx) (by simp [hnext])
    | atNode l₁ l₂ v hl hv hstop hbefore =>
        have hmem : r ∈ l ++ [x] := by simp [hl]
        obtain ⟨l₁', l₂', hsplit, hrest⟩ := hchain.next_split (x := r) (y := nil) hmem
          (by rw [nextSib_node]; simpa [hv] using hstop)
        cases l₂' with
        | nil =>
            obtain ⟨-, heq⟩ := List.append_inj' hsplit rfl
            simpa using heq.symm
        | cons z l₂' =>
            obtain ⟨rfl, hne, -⟩ := chain_cons.mp hrest
            exact absurd rfl hne
  subst hrx
  intro fuel hfuel
  exact hrun fuel (by simpa using hfuel)

/-- Point the last component of `l` to `v`, or the first child of `pid` if `l` is empty: what
`relink` is on the tree, on the heap. -/
def relinkAt (a : App δ) (pid : ℕ) (l : List ℕ) (v : ℕ) : App δ :=
  match l.getLast? with
  | none => (a.comp pid).elim a fun p => a.put (a.lookup pid) { p with children := v }
  | some x => (a.comp x).elim a fun c => a.put (a.lookup x) { c with nextSibling := v }

theorem relinkAt_nil (hp : a.comp pid = some p) :
    a.relinkAt pid [] v = a.put (a.lookup pid) { p with children := v } := by
  simp [relinkAt, hp]

theorem relinkAt_concat {x : ℕ} (hc : a.comp x = some c) :
    a.relinkAt pid (l ++ [x]) v = a.put (a.lookup x) { c with nextSibling := v } := by
  simp [relinkAt, hc]

theorem relinkAt_sameRest (a : App δ) (pid : ℕ) (l : List ℕ) (v : ℕ) :
    SameRest a (a.relinkAt pid l v) := by
  unfold relinkAt
  cases l.getLast? with
  | none =>
      cases hp : a.comp pid with
      | none => exact SameRest.refl a
      | some p => exact SameRest.put hp rfl
  | some x =>
      cases hc : a.comp x with
      | none => simp only [Option.elim_none, hc]; exact SameRest.refl a
      | some c => simp only [Option.elim_some, hc]; exact SameRest.put hc rfl

/-- Components that are not in the table are not written to. -/
theorem relinkAt_dead (hr : ∀ id, a.lookup id ≠ r) : (a.relinkAt pid l v).objs r = a.objs r := by
  unfold relinkAt
  cases l.getLast? with
  | none =>
      cases hp : a.comp pid with
      | none => rfl
      | some p => exact put_objs_of_ne (hr pid).symm
  | some x =>
      cases hc : a.comp x with
      | none => simp only [hc, Option.elim_none]
      | some c => simp only [hc, Option.elim_some]; exact put_objs_of_ne (hr x).symm

theorem relinkAt_node (ht : a.Table) (pid : ℕ) (l : List ℕ) (v : ℕ) :
    (a.relinkAt pid l v).node = relink a.node pid l v := by
  have hsame : ∀ x, a.comp x = none → update a.node x none = a.node := by
    intro x hx
    rw [show (none : Option Node) = a.node x by simp [node, hx], update_eq_self]
  unfold relinkAt relink
  cases l.getLast? with
  | none =>
      cases hp : a.comp pid with
      | none => simp [node, hp, hsame]
      | some p => simp [node_put ht rfl (ht.lookup_ne hp), node, hp]
  | some x =>
      cases hc : a.comp x with
      | none => simp [node, hc, hsame]
      | some c => simp [node_put ht rfl (ht.lookup_ne hc), node, hc]

/-- **Linking a child**: the component gets its parent and is put behind its siblings. -/
theorem linkChild_spec (ht : a.Table) (hnull : a.lookup nullId = 0) (hp : a.comp pid = some p)
    (hc : a.comp id = some c) (hne : pid ≠ id) (hid : id ≤ nullId)
    (hchain : Chain nullId (nextSib a.node) p.children l) :
    Returns (fun fuel => linkChild fuel a (a.lookup pid) id (a.lookup id))
      (true, (a.put (a.lookup id) { c with parent := pid }).relinkAt pid l id) := by
  have hc0 := ht.lookup_ne hc
  have hp0 := ht.lookup_ne hp
  obtain rfl := ht.comp_id hp
  have hshort : toShort id = id := by
    unfold toShort nullId at *
    omega
  set a₁ := a.put (a.lookup id) { c with parent := p.id } with ha₁
  have ht₁ : a₁.Table := ht.put hc rfl
  have hrefs : a.lookup p.id ≠ a.lookup id := fun h => hne (ht.inj hp0 h)
  have hp₁ : a₁.comp p.id = some p := by
    rw [ha₁, comp_put ht rfl hc0, update_of_ne hne, hp]
  have hchain₁ : Chain nullId (nextSib a₁.node) p.children l := by
    refine hchain.congr fun x _ => ?_
    unfold nextSib
    rw [ha₁, node_put ht rfl hc0]
    by_cases hx : x = id
    · subst hx
      simp [node, hc]
    · rw [update_of_ne hx]
  have hobj : a.objs (a.lookup p.id) = some p := hp
  have hobj₁ : a₁.objs (a₁.lookup p.id) = some p := hp₁
  have hrun : ∀ fuel, linkChild fuel a (a.lookup p.id) id (a.lookup id) =
      if p.children = nullId then
        some (true, a₁.put (a₁.lookup p.id) { p with children := id })
      else (a₁.siblingWhere (·.nextSibling == nullId) fuel p.children).bind fun x =>
        if a₁.lookup x = 0 then some (false, a₁)
        else (a₁.write (a₁.lookup x) fun x => { x with nextSibling := id }).bind fun b =>
          some (true, b) := by
    intro fuel
    have hw := write_eq (a := a) (r := a.lookup id) (c := c) hc fun c => { c with parent := p.id }
    simp only [linkChild, hobj, Option.bind_eq_bind, Option.bind_some, hw, ← ha₁, hshort]
    rw [show a₁.objs (a.lookup p.id) = some p from hobj₁]
    simp only [Option.bind_some]
    split
    · rw [write_eq (show a₁.objs (a.lookup p.id) = some p from hobj₁)]
      rfl
    · rfl
  rcases List.eq_nil_or_concat l with rfl | ⟨l₀, x, rfl⟩
  · refine ⟨0, fun fuel _ => ?_⟩
    simp only [hrun, if_pos (chain_nil.mp hchain)]
    rw [relinkAt_nil hp₁]
  · rw [List.concat_eq_append] at *
    have hfirst : p.children ≠ nullId := by
      intro heq
      rw [heq] at hchain
      have := hchain.unique (chain_nil.mpr rfl)
      simp at this
    obtain ⟨cx, hcx⟩ : ∃ cx, a₁.comp x = some cx := by
      obtain ⟨j, hj⟩ := hchain₁.next_isSome (x := x) (by simp)
      obtain ⟨n, hn, -⟩ := Option.map_eq_some_iff.mp hj
      obtain ⟨cx, hcx, -⟩ := node_eq_some.mp hn
      exact ⟨cx, hcx⟩
    refine ⟨l₀.length + 2, fun fuel hfuel => ?_⟩
    simp only [hrun, if_neg hfirst, siblingWhere_last ht₁ (show a₁.lookup nullId = 0 from hnull)
      hchain₁ fuel hfuel, Option.bind_some, if_neg (ht₁.lookup_ne hcx),
      write_eq (show a₁.objs (a₁.lookup x) = some cx from hcx)]
    rw [relinkAt_concat hcx]

/-- **Unlinking a child** that is not in the table any more: `l` are the siblings in front of
it. -/
theorem unlinkChild_spec (ht : a.Table) (h0 : a.lookup id = 0) (hp : a.comp pid = some p)
    (hobj : a.objs r = some obj) (hchain : Chain id (nextSib a.node) p.children l) :
    Returns (fun fuel => unlinkChild fuel a (a.lookup pid) id r)
      (true, a.relinkAt pid l obj.nextSibling) := by
  have hpobj : a.objs (a.lookup pid) = some p := hp
  rcases List.eq_nil_or_concat l with rfl | ⟨l₀, x, rfl⟩
  · refine ⟨0, fun fuel _ => ?_⟩
    simp only [unlinkChild, hobj, hpobj, Option.bind_eq_bind, Option.bind_some,
      if_pos (chain_nil.mp hchain), write_eq hpobj]
    rw [relinkAt_nil hp]
  · rw [List.concat_eq_append] at *
    have hfirst : p.children ≠ id := by
      intro heq
      rw [heq] at hchain
      have := hchain.unique (chain_nil.mpr rfl)
      simp at this
    obtain ⟨cx, hcx⟩ : ∃ cx, a.comp x = some cx := by
      obtain ⟨j, hj⟩ := hchain.next_isSome (x := x) (by simp)
      obtain ⟨n, hn, -⟩ := Option.map_eq_some_iff.mp hj
      obtain ⟨cx, hcx, -⟩ := node_eq_some.mp hn
      exact ⟨cx, hcx⟩
    refine ⟨l₀.length + 2, fun fuel hfuel => ?_⟩
    simp only [unlinkChild, hobj, hpobj, Option.bind_eq_bind, Option.bind_some, if_neg hfirst,
      siblingWhere_last ht h0 hchain fuel hfuel, if_neg (ht.lookup_ne hcx),
      write_eq (show a.objs (a.lookup x) = some cx from hcx)]
    rw [relinkAt_concat hcx]

/-! ### Entering a component into the table -/

theorem lookup_set (hlen : id < a.comps.length) (r : Ref) (j : ℕ) :
    (a.comps.set id r).getD j 0 = if j = id then r else a.lookup j := by
  by_cases hj : j = id
  · subst hj
    simp [List.getD_eq_getElem?_getD, hlen]
  · simp [List.getD_eq_getElem?_getD, hj, lookup, List.getElem?_set_ne (Ne.symm hj)]

/-- The component `c` behind `r`, as `insert` leaves it. -/
def inserted (a : App δ) (id : ℕ) (c : Component) : Component :=
  { c with id := id, nextService := if c.type.isService then a.services else c.nextService }

/-- The application that `insert` leaves. -/
def withInserted (a : App δ) (id : ℕ) (r : Ref) (c : Component) : App δ :=
  { a with objs := update a.objs r (some (a.inserted id c)), comps := a.comps.set id r,
           services := if c.type.isService then r else a.services }

section Insert

variable (ht : a.Table) (hobj : a.objs r = some c) (hdead : ∀ j, a.lookup j ≠ r)
  (hid : a.lookup id = 0) (hlen : id < a.comps.length)

include hlen in
theorem withInserted_lookup (j : ℕ) :
    (a.withInserted id r c).lookup j = if j = id then r else a.lookup j :=
  lookup_set hlen r j

include hdead hlen in
theorem withInserted_comp :
    (a.withInserted id r c).comp = update a.comp id (some (a.inserted id c)) := by
  funext j
  rw [comp, withInserted_lookup hlen]
  by_cases hj : j = id
  · subst hj
    simp [withInserted]
  · rw [if_neg hj, update_of_ne hj]
    exact update_of_ne (hdead j) _ _

include ht hobj hdead hid hlen in
theorem withInserted_table (hid0 : id ≠ 0) : (a.withInserted id r c).Table := by
  have hr0 : r ≠ 0 := by
    rintro rfl
    exact Option.some_ne_none c (hobj.symm.trans ht.null)
  refine ⟨?_, ?_, ht.self_ne, fun j hj => ?_⟩
  · exact (update_of_ne hr0.symm _ _).trans ht.null
  · rw [withInserted_lookup hlen, if_neg hid0.symm]
    exact ht.self
  · rw [withInserted_lookup hlen] at hj ⊢
    by_cases hjid : j = id
    · subst hjid
      exact ⟨a.inserted j c, by simp [withInserted], rfl⟩
    · rw [if_neg hjid] at hj ⊢
      obtain ⟨d, hd, hdid⟩ := ht.live j hj
      exact ⟨d, (update_of_ne (hdead j) _ _).trans hd, hdid⟩

include ht hobj hdead hid hlen in
theorem withInserted_services (hs : a.Services) : (a.withInserted id r c).Services := by
  have hr0 : r ≠ 0 := by
    rintro rfl
    exact Option.some_ne_none c (hobj.symm.trans ht.null)
  have hobjs : ∀ j, j ≠ r → (a.withInserted id r c).objs j = a.objs j :=
    fun j hj => update_of_ne hj _ _
  have hself : (a.withInserted id r c).objs r = some (a.inserted id c) := by simp [withInserted]
  have hnone : a.svcOwn r = none := by
    simp [svcOwn, hobj, hdead]
  have hown : ∀ j, j ≠ r → (a.withInserted id r c).svcOwn j = a.svcOwn j := by
    intro j hj
    unfold svcOwn
    rw [hobjs j hj]
    cases hd : a.objs j with
    | none => rfl
    | some d =>
        simp only [Option.bind_some, withInserted_lookup hlen]
        by_cases hdid : d.id = id
        · have h₁ : ¬ r = j := fun h => hj h.symm
          have h₂ : ¬ (0 : Ref) = j := by
            rintro rfl
            exact Option.some_ne_none d (hd.symm.trans ht.null)
          simp [hdid, hid, h₁, h₂]
        · rw [if_neg hdid]
  by_cases hsvc : c.type.isService = true
  · refine hs.push (i := ()) (h := a.services) (k := r) rfl hnone hr0 ?_ ?_ ?_ hown ?_ ?_
    · simp [svcNext, hself, inserted, hsvc]
    · intro j hj
      rw [svcNext, svcNext, hobjs j hj]
    · simp [svcOwn, hself, inserted, withInserted_lookup hlen, hsvc]
    · simp [withInserted, hsvc]
    · exact fun j hj => absurd rfl hj
  · refine hs.congr ?_ ?_ ?_
    · rintro - h hh
      simpa [withInserted, hsvc] using hh
    · intro j _ _ _
      by_cases hj : j = r
      · subst hj
        simp [svcOwn, hself, inserted, hsvc, hobj]
      · rw [hown j hj]
    · intro j _ _ _ hownj
      have hj : j ≠ r := by
        rintro rfl
        simp [hnone] at hownj
      rw [svcNext, svcNext, hobjs j hj]

include hobj hid hlen in
/-- **Entering a component into the table** succeeds for a null entry. -/
theorem insert_spec (hshort : id ≤ nullId) :
    a.insert id r = some (true, a.withInserted id r c) := by
  have hmod : toShort id = id := by
    unfold toShort nullId at *
    omega
  have hentry : ¬ a.comps.getD id 0 ≠ 0 := not_not.mpr hid
  simp only [App.insert, ge_iff_le, Nat.not_le.mpr hlen, if_false, hentry, Option.bind_eq_bind,
    write_eq hobj, Option.bind_some, hmod]
  simp only [put, update_self, Option.bind_some]
  split
  · rename_i hsvc
    simp [write, withInserted, inserted, hsvc]
  · rename_i hsvc
    simp only [Bool.not_eq_true] at hsvc
    simp [withInserted, inserted, hsvc]

end Insert

end Inv

end App

end Sedona
