import Sedona.Sys.AppNames

/-!
# Renaming and Reordering

The SOX commands that change the tree without adding or removing components, and what they do to
the structure of the application: `renameReq` always keeps it, `reorderReq` keeps it if the
request lists every child exactly once. (It checks only that everything in the list is a child.)

## Main results

* `Inv.renameReq`, `Inv.reorderReq`.
* `renameReq_names`, `reorderReq_names`: what they do to names.
-/

namespace Sedona

open Function Intrusive

/-! ### Trees with reordered children -/

section Tree

variable {node node' : ℕ → Option Node} {pid : ℕ} {p p' : Node} {ids : List ℕ}

variable (hp : node' pid = some p') (hchain : Chain nullId (nextSib node') p'.children ids)
  (hids : ∀ k, k ∈ ids ↔ IsKid node pid k)
  (hfixed : ∀ k, (node' k).map (fun n => (n.id, n.parent)) =
    (node k).map fun n => (n.id, n.parent))
  (hchildren : ∀ k, k ≠ pid → (node' k).map (·.children) = (node k).map (·.children))
  (hnext : ∀ k, k ∉ ids → nextSib node' k = nextSib node k)

include hfixed in
theorem isKid_fixed {q k : ℕ} : IsKid node' q k ↔ IsKid node q k := by
  have hpair := congrArg (Option.map fun t : ℕ × ℕ => t.2) (hfixed k)
  simp only [Option.map_map, Function.comp_def] at hpair
  unfold IsKid
  constructor
  · rintro ⟨m, hm, rfl⟩
    rw [hm] at hpair
    exact Option.map_eq_some_iff.mp hpair.symm
  · rintro ⟨m, hm, rfl⟩
    rw [hm] at hpair
    exact Option.map_eq_some_iff.mp hpair

include hp hchain hids hfixed in
/-- The children of the component are those of the list, in its order. -/
theorem kidsAt_reorder : KidsAt node' pid ids :=
  ⟨p', hp, hchain, fun k => (hids k).trans (isKid_fixed hfixed).symm⟩

include hids hfixed hchildren hnext in
/-- The children of other components stay as they are. -/
theorem KidsAt.reorder {q : ℕ} {l : List ℕ} (h : KidsAt node q l) (hq : q ≠ pid) :
    KidsAt node' q l := by
  obtain ⟨n, hn, hl⟩ := h
  have hfirst := hchildren q hq
  rw [hn] at hfirst
  obtain ⟨n', hn', hchild⟩ := Option.map_eq_some_iff.mp hfirst
  refine ⟨n', hn', ?_, fun j => (hl.mem j).trans (isKid_fixed hfixed).symm⟩
  rw [hchild]
  -- the children of other components are not in the list
  refine hl.chain.congr fun j hj => hnext j fun hjids => ?_
  obtain ⟨m, hm, hpar⟩ := (hl.mem j).mp hj
  obtain ⟨m', hm', hpar'⟩ := (hids j).mp hjids
  obtain rfl := Option.some.inj (hm.symm.trans hm')
  exact hq (hpar.symm.trans hpar')

include hp hchain hids hfixed hchildren hnext in
/-- A tree in which the children of one component are threaded anew. -/
theorem Tree.reorder (h : Tree node) : Tree node' := by
  have hback : ∀ k m, node' k = some m →
      ∃ m₀, node k = some m₀ ∧ m₀.id = m.id ∧ m₀.parent = m.parent := by
    intro k m hm
    have hpair := hfixed k
    rw [hm] at hpair
    obtain ⟨m₀, hm₀, heq⟩ := Option.map_eq_some_iff.mp hpair.symm
    obtain ⟨hid, hpar⟩ := Prod.mk.inj heq
    exact ⟨m₀, hm₀, hid, hpar⟩
  have hforth : ∀ k m, node k = some m → ∃ m', node' k = some m' ∧ m'.parent = m.parent := by
    intro k m hm
    have hpair := hfixed k
    rw [hm] at hpair
    obtain ⟨m', hm', heq⟩ := Option.map_eq_some_iff.mp hpair
    exact ⟨m', hm', (Prod.mk.inj heq).2⟩
  refine ⟨?_, fun k m hm => ?_, fun k m hm => ?_, fun k m hm => ?_⟩
  · obtain ⟨r, hr, hroot⟩ := h.root
    obtain ⟨r', hr', hpar⟩ := hforth 0 r hr
    exact ⟨r', hr', hpar.trans hroot⟩
  · obtain ⟨m₀, hm₀, hid, -⟩ := hback k m hm
    rw [← hid]
    exact h.ids k m₀ hm₀
  · have hkids : ∃ l, KidsAt node' k l := by
      by_cases hk : k = pid
      · exact ⟨ids, by rw [hk]; exact kidsAt_reorder hp hchain hids hfixed⟩
      · obtain ⟨m₀, hm₀, -, -⟩ := hback k m hm
        obtain ⟨l, hl⟩ := h.kidsAt hm₀
        exact ⟨l, hl.reorder hids hfixed hchildren hnext hk⟩
    obtain ⟨l, m', hm', hl⟩ := hkids
    obtain rfl := Option.some.inj (hm.symm.trans hm')
    exact ⟨l, hl⟩
  · obtain ⟨m₀, hm₀, -, -⟩ := hback k m hm
    have hroot := h.rooted k m₀ hm₀
    clear hm hm₀
    induction hroot with
    | root => exact Rooted.root
    | @step j n hn _ ih =>
        obtain ⟨n', hn', hpar⟩ := hforth j n hn
        exact Rooted.step hn' (hpar ▸ ih)

end Tree

variable {δ : Type}

namespace App

/-! ### The commands -/

/-- What `SoxCommands.renameReq` does behind the permission check: the component gets the name,
cut to seven characters. A component that is not there is an error. -/
def renameReq (cb : Callbacks δ) (a : App δ) (compId : ℕ) (name : Str) : Option (App δ) := do
  let comp := a.lookup compId
  if comp = 0 then some a
  else
    let a ← a.write comp fun c => { c with name := name.take (nameLen - 1) }
    some (a.fire cb (.fireTreeChanged comp))

/-- The loop of `reorderReq` that threads the children; `last` is the child before. -/
def thread (parent : Ref) : Ref → List ℕ → App δ → Option (App δ)
  | last, [], a => if last ≠ 0 then a.write last fun c => { c with nextSibling := nullId } else some a
  | last, id :: ids, a => do
      let x := a.lookup id
      let c ← a.objs x
      let a ← if last = 0 then a.write parent fun p => { p with children := c.id }
        else a.write last fun l => { l with nextSibling := c.id }
      thread parent x ids a

/-- Everything in the list is a child of the component with this id. -/
def areChildren (a : App δ) (parentId : ℕ) (ids : List ℕ) : Bool :=
  ids.all fun id => (a.comp id).any (·.parent == parentId)

/-- What `SoxCommands.reorderReq` does behind the permission check. A component or a child that
is not there is an error. -/
def reorderReq (cb : Callbacks δ) (a : App δ) (compId : ℕ) (ids : List ℕ) : Option (App δ) := do
  let parent := a.lookup compId
  if parent = 0 then some a
  else
    let p ← a.objs parent
    if !a.areChildren p.id ids then some a
    else
      let a ← thread parent 0 ids a
      some ((a.fire cb (.reordered parent)).fire cb (.fireTreeChanged parent))

variable {a a' : App δ} {id pid : ℕ} {c p : Component}

/-! ### Renaming -/

/-- A name may change. -/
theorem Inv.rename (h : a.Inv) (hc : a.comp id = some c) (name : Str) :
    (a.put (a.lookup id) { c with name := name }).Inv := by
  have h0 := h.table.lookup_ne hc
  have hobj : a.objs (a.lookup id) = some c := hc
  have hrest : ∀ s : Side, (a.put (a.lookup id) { c with name := name }).headOn s = a.headOn s := by
    intro s
    rw [headOn_put h.table rfl h0]
    exact update_eq_self_iff.mpr (by cases s <;> simp [headOn, hc, Side.head])
  refine ⟨h.table.put hobj rfl, ?_, ⟨h.links.null, fun s => ?_⟩, h.ends, h.slots,
    h.services.put_same hobj rfl rfl rfl⟩
  · rw [node_put h.table rfl h0]
    exact tree_rename h.tree (node_eq_some.mpr ⟨c, hc, rfl⟩) name
  · rw [hrest]
    exact h.links.lists s

/-- **Renaming** keeps the structure. -/
theorem Inv.renameReq (h : a.Inv) (cb : Callbacks δ) (compId : ℕ) (name : Str) :
    ∃ a', App.renameReq cb a compId name = some a' ∧ a'.Inv := by
  by_cases h0 : a.lookup compId = 0
  · exact ⟨a, by simp [App.renameReq, h0], h⟩
  obtain ⟨c, hc, -⟩ := h.table.exists_comp h0
  refine ⟨_, ?_, (h.rename hc (name.take (nameLen - 1))).fired
    (Fired.fire cb (.fireTreeChanged (a.lookup compId)) _)⟩
  simp only [App.renameReq, if_neg h0, write_eq (show a.objs (a.lookup compId) = some c from hc),
    Option.bind_eq_bind, Option.bind_some]

/-- Renaming gives one component a new name, and no component a new parent. -/
theorem renameReq_names {cb : Callbacks δ} {compId : ℕ} {name : Str}
    (h : App.renameReq cb a compId name = some a') (hc : a.comp compId = some c) :
    a.lookup compId = 0 ∨
      Adds a (a.lookup compId) (fun n par => n = name.take (nameLen - 1) ∧ par = c.parent) a' := by
  by_cases h0 : a.lookup compId = 0
  · exact Or.inl h0
  simp only [App.renameReq, if_neg h0, write_eq (show a.objs (a.lookup compId) = some c from hc),
    Option.bind_eq_bind, Option.bind_some, Option.some.injEq] at h
  subst h
  exact Or.inr ((Adds.put a ⟨rfl, rfl⟩).after (SameNames.fired (Fired.fire cb _ _)))

/-! ### Reordering -/

/-- Components keep their faces, and links stay as they are. -/
structure SameFaces (a a' : App δ) : Prop where
  comps : a'.comps = a.comps
  links : a'.links = a.links
  objs : ∀ r, (a'.objs r).map (fun c => c.toNode.face) = (a.objs r).map fun c => c.toNode.face

namespace SameFaces

theorem refl (a : App δ) : SameFaces a a := ⟨rfl, rfl, fun _ => rfl⟩

theorem trans {b : App δ} (h : SameFaces a a') (h' : SameFaces a' b) : SameFaces a b :=
  ⟨h'.comps.trans h.comps, h'.links.trans h.links, fun r => (h'.objs r).trans (h.objs r)⟩

theorem fired (h : Fired a a') : SameFaces a a' := by
  obtain ⟨d, b, rfl⟩ := h
  exact ⟨rfl, rfl, fun _ => rfl⟩

theorem write {r : Ref} {f : Component → Component} (h : a.write r f = some a')
    (hf : ∀ c : Component, (f c).toNode.face = c.toNode.face) : SameFaces a a' := by
  obtain ⟨c, hc, rfl⟩ := Option.map_eq_some_iff.mp h
  refine ⟨rfl, rfl, fun r' => ?_⟩
  by_cases hr : r' = r
  · subst hr
    simp [hc, hf]
  · simp [update_of_ne hr]

theorem node (h : SameFaces a a') (k : ℕ) :
    (a'.node k).map Node.face = (a.node k).map Node.face := by
  have hobj := h.objs (a.lookup k)
  rw [App.node, App.node, comp, comp, Option.map_map, Option.map_map, App.lookup, h.comps]
  exact hobj

theorem isKid (h : SameFaces a a') {q k : ℕ} : IsKid a'.node q k ↔ IsKid a.node q k := by
  refine isKid_fixed fun j => ?_
  have hface := congrArg (Option.map fun f : CompType × ℕ × Str × ℕ => (f.2.1, f.2.2.2)) (h.node j)
  rwa [Option.map_map, Option.map_map] at hface

theorem sameNames (h : SameFaces a a') : SameNames a a' := by
  refine ⟨fun i _ => by rw [App.lookup, App.lookup, h.comps], fun r c' hc' => ?_⟩
  have hobj := h.objs r
  rw [hc'] at hobj
  obtain ⟨c, hc, heq⟩ := Option.map_eq_some_iff.mp hobj.symm
  exact ⟨c, hc, (congrArg (fun f => f.2.2.1) heq).symm, (congrArg (fun f => f.2.2.2) heq).symm⟩

end SameFaces

theorem thread_faces {parent last : Ref} {ids : List ℕ} (h : thread parent last ids a = some a') :
    SameFaces a a' := by
  induction ids generalizing a last with
  | nil =>
      rw [thread] at h
      split at h
      · exact SameFaces.write h fun _ => rfl
      · exact Option.some.inj h ▸ SameFaces.refl a
  | cons id ids ih =>
      simp only [thread, Option.bind_eq_bind] at h
      obtain ⟨c, -, h⟩ := Option.bind_eq_some_iff.mp h
      split at h
      · obtain ⟨b, hb, h⟩ := Option.bind_eq_some_iff.mp h
        exact (SameFaces.write hb fun _ => rfl).trans (ih h)
      · obtain ⟨b, hb, h⟩ := Option.bind_eq_some_iff.mp h
        exact (SameFaces.write hb fun _ => rfl).trans (ih h)

/-- The loop returns if the components are there, whatever the list is. -/
theorem thread_returns {parent last : Ref} {ids : List ℕ} (hp : (a.objs parent).isSome)
    (hlast : last ≠ 0 → (a.objs last).isSome) (hlive : ∀ k ∈ ids, (a.comp k).isSome) :
    ∃ a', thread parent last ids a = some a' := by
  have hwrite : ∀ {a : App δ} {r : Ref} (f : Component → Component), (a.objs r).isSome →
      (∀ c : Component, (f c).toNode.face = c.toNode.face) →
      ∃ b, a.write r f = some b ∧ SameFaces a b := by
    intro a r f hr hf
    obtain ⟨c, hc⟩ := Option.isSome_iff_exists.mp hr
    exact ⟨_, write_eq hc f, SameFaces.write (write_eq hc f) hf⟩
  induction ids generalizing a last with
  | nil =>
      by_cases h0 : last = 0
      · exact ⟨a, by simp [thread, h0]⟩
      · obtain ⟨b, hb, -⟩ := hwrite (fun c => { c with nextSibling := nullId }) (hlast h0)
          fun _ => rfl
        exact ⟨b, by rw [thread, if_pos h0, hb]⟩
  | cons id ids ih =>
      obtain ⟨c, hc⟩ := Option.isSome_iff_exists.mp (hlive id (by simp))
      have hobj : a.objs (a.lookup id) = some c := hc
      have hrest : ∀ b, SameFaces a b → ∃ a', thread parent (a.lookup id) ids b = some a' := by
        intro b hfaces
        have hsome : ∀ r, (a.objs r).isSome → (b.objs r).isSome := by
          intro r hr
          rwa [← Option.isSome_map (f := fun c : Component => c.toNode.face), hfaces.objs,
            Option.isSome_map]
        refine ih (hsome _ hp) (fun _ => hsome _ (by rw [hobj]; rfl)) fun k hk => ?_
        rw [comp, App.lookup, hfaces.comps]
        exact hsome _ (hlive k (List.mem_cons_of_mem id hk))
      by_cases h0 : last = 0
      · obtain ⟨b, hb, hfaces⟩ := hwrite (fun p => { p with children := c.id }) hp fun _ => rfl
        obtain ⟨a', ha'⟩ := hrest b hfaces
        refine ⟨a', ?_⟩
        simp only [thread, hobj, Option.bind_eq_bind, Option.bind_some, if_pos h0, hb]
        exact ha'
      · obtain ⟨b, hb, hfaces⟩ := hwrite (fun l => { l with nextSibling := c.id }) (hlast h0)
          fun _ => rfl
        obtain ⟨a', ha'⟩ := hrest b hfaces
        refine ⟨a', ?_⟩
        simp only [thread, hobj, Option.bind_eq_bind, Option.bind_some, if_neg h0, hb]
        exact ha'

/-- Reordering changes neither names nor parents. -/
theorem reorderReq_names {cb : Callbacks δ} {compId : ℕ} {ids : List ℕ}
    (h : reorderReq cb a compId ids = some a') : SameNames a a' := by
  simp only [reorderReq] at h
  split at h
  · exact Option.some.inj h ▸ SameNames.refl a
  obtain ⟨p, -, h⟩ := Option.bind_eq_some_iff.mp h
  split at h
  · exact Option.some.inj h ▸ SameNames.refl a
  obtain ⟨b, hb, h⟩ := Option.bind_eq_some_iff.mp h
  obtain rfl := Option.some.inj h
  exact (thread_faces hb).sameNames.trans (SameNames.fired
    ((Fired.fire cb _ b).trans (Fired.fire cb _ _)))

/-- What threading leaves alone: everything but the sibling links of the components in the
list. -/
structure Threaded (a a' : App δ) (ids : List ℕ) : Prop where
  rest : SameRest a a'
  others : ∀ k, k ∉ ids → a'.node k = a.node k
  fixed : ∀ k, (a'.node k).map (fun n => (n.id, n.parent, n.children)) =
    (a.node k).map fun n => (n.id, n.parent, n.children)

/-- One step of the loop: the sibling link of one component. -/
theorem Threaded.step {b : App δ} {ids : List ℕ} {v : ℕ} (ht : a.Table) (hc : a.comp id = some c)
    (h : Threaded (a.put (a.lookup id) { c with nextSibling := v }) b ids) :
    Threaded a b (id :: ids) := by
  have hnode := node_put (c := { c with nextSibling := v }) ht rfl (ht.lookup_ne hc)
  have hput : SameRest a (a.put (a.lookup id) { c with nextSibling := v }) := SameRest.put hc rfl
  refine ⟨hput.trans h.rest, fun k hk => ?_, fun k => ?_⟩
  · rw [List.mem_cons, not_or] at hk
    rw [h.others k hk.2, hnode, update_of_ne hk.1]
  · rw [h.fixed k, hnode]
    by_cases hk : k = id
    · subst hk
      simp [node, hc]
    · rw [update_of_ne hk]

/-- The loop from the second child on: the children so far are threaded up to `last`. -/
theorem thread_spec (parent : Ref) {first last : ℕ} {done ids : List ℕ} (ht : a.Table)
    (hlast : a.comp last = some c) (hlive : ∀ k ∈ ids, a.lookup k ≠ 0)
    (hnodup : (done ++ last :: ids).Nodup) (hnil : nullId ∉ done ++ last :: ids)
    (hpath : Path (nextSib a.node) first done last) :
    ∃ a', thread parent (a.lookup last) ids a = some a' ∧ Threaded a a' (last :: ids) ∧
      Chain nullId (nextSib a'.node) first (done ++ last :: ids) := by
  induction ids generalizing a c done last with
  | nil =>
      have h0 := ht.lookup_ne hlast
      have hnode := node_put (c := { c with nextSibling := nullId }) ht rfl h0
      have hlastdone : last ∉ done := fun hmem =>
        (List.nodup_append.mp hnodup).2.2 last hmem last (by simp) rfl
      refine ⟨a.put (a.lookup last) { c with nextSibling := nullId }, ?_,
        Threaded.step ht hlast ⟨SameRest.refl _, fun _ _ => rfl, fun _ => rfl⟩, ?_, hnil⟩
      · rw [thread, if_pos h0]
        exact write_eq (show a.objs (a.lookup last) = some c from hlast) _
      · refine path_append.mpr ⟨last, hpath.congr fun k hk => ?_, ?_⟩
        · rw [nextSib, nextSib, hnode, update_of_ne]
          rintro rfl
          exact hlastdone hk
        · exact ⟨rfl, nullId, by simp [nextSib, hnode], rfl⟩
  | cons x ids ih =>
      have h0 := ht.lookup_ne hlast
      have hnode := node_put (c := { c with nextSibling := x }) ht rfl h0
      obtain ⟨cx, hcx, hxid⟩ := ht.exists_comp (hlive x (by simp))
      have hlastdone : last ∉ done := fun hmem =>
        (List.nodup_append.mp hnodup).2.2 last hmem last (by simp) rfl
      have hxlast : x ≠ last := by
        have hnd := (List.nodup_append.mp hnodup).2.1
        rw [List.nodup_cons] at hnd
        rintro rfl
        exact hnd.1 (by simp)
      set a₁ := a.put (a.lookup last) { c with nextSibling := x } with ha₁
      have ht₁ : a₁.Table := ht.put hlast rfl
      have hcx₁ : a₁.comp x = some cx := by
        rw [ha₁, comp_put ht rfl h0, update_of_ne hxlast, hcx]
      have hpath₁ : Path (nextSib a₁.node) first (done ++ [last]) x := by
        refine path_append.mpr ⟨last, hpath.congr fun k hk => ?_, ?_⟩
        · rw [nextSib, nextSib, hnode, update_of_ne]
          rintro rfl
          exact hlastdone hk
        · exact ⟨rfl, x, by simp [nextSib, hnode], rfl⟩
      have hnodup₁ : (done ++ [last] ++ x :: ids).Nodup := by simpa using hnodup
      have hnil₁ : nullId ∉ done ++ [last] ++ x :: ids := by simpa using hnil
      obtain ⟨a', hrun, hthread, hchain⟩ := ih ht₁ hcx₁
        (fun k hk => hlive k (List.mem_cons_of_mem x hk)) hnodup₁ hnil₁ hpath₁
      refine ⟨a', ?_, Threaded.step ht hlast hthread, by simpa using hchain⟩
      have hobj : a.objs (a.lookup x) = some cx := hcx
      have hwrite := write_eq (show a.objs (a.lookup last) = some c from hlast)
        fun l => { l with nextSibling := x }
      simp only [thread, hobj, hxid, if_neg h0, hwrite, Option.bind_eq_bind, Option.bind_some]
      exact hrun

/-- The request lists every child of the component exactly once. -/
def ListsChildren (a : App δ) (pid : ℕ) (ids : List ℕ) : Prop :=
  ids.Nodup ∧ ∀ k, k ∈ ids ↔ IsKid a.node pid k

/-- The children of the component are those of the list, in its order, and nothing else
changed. -/
structure Reordered (a a' : App δ) (pid : ℕ) (ids : List ℕ) : Prop where
  kids : KidsAt a'.node pid ids
  faces : ∀ k, (a'.node k).map Node.face = (a.node k).map Node.face
  others : ∀ q l, q ≠ pid → KidsAt a.node q l → KidsAt a'.node q l
  links : a'.links = a.links

/-- **Reordering** keeps the structure if the request lists every child exactly once. -/
theorem Inv.reorderReq_spec (h : a.Inv) (cb : Callbacks δ) (hp : a.comp pid = some p)
    {ids : List ℕ} (hids : a.ListsChildren pid ids) :
    ∃ a', App.reorderReq cb a pid ids = some a' ∧ a'.Inv ∧ Reordered a a' pid ids := by
  have h0 := h.table.lookup_ne hp
  obtain ⟨hnodup, hmem⟩ := hids
  have hpid := h.table.comp_id hp
  have hkids : a.areChildren p.id ids = true := by
    rw [areChildren, List.all_eq_true]
    intro k hk
    obtain ⟨m, hm, hpar⟩ := (hmem k).mp hk
    obtain ⟨d, hd, rfl⟩ := node_eq_some.mp hm
    simpa [hd, hpid] using hpar
  have hrun : ∀ b, thread (a.lookup pid) 0 ids a = some b → App.reorderReq cb a pid ids =
      some ((b.fire cb (.reordered (a.lookup pid))).fire cb (.fireTreeChanged (a.lookup pid))) := by
    intro b hb
    simp only [App.reorderReq, if_neg h0, show a.objs (a.lookup pid) = some p from hp, hkids, hb,
      Option.bind_eq_bind, Option.bind_some, Bool.not_true, Bool.false_eq_true, if_false]
  have hfired : ∀ b : App δ, Fired b ((b.fire cb (.reordered (a.lookup pid))).fire cb
      (.fireTreeChanged (a.lookup pid))) :=
    fun b => (Fired.fire cb _ b).trans (Fired.fire cb _ _)
  cases ids with
  | nil =>
      obtain ⟨l, hl⟩ := h.tree.kidsAt (node_eq_some.mpr ⟨p, hp, rfl⟩)
      have hnone : l = [] := List.eq_nil_iff_forall_not_mem.mpr fun k hk =>
        absurd ((hmem k).mpr (hl.mem.mp hk)) (by simp)
      have hnode := (hfired a).sameTree.node
      refine ⟨_, hrun a rfl, h.fired (hfired a), ?_, fun k => ?_, fun q lq _ hlq => ?_,
        (hfired a).links⟩
      · rw [hnode, ← hnone]
        exact hl
      · rw [hnode]
      · rw [hnode]
        exact hlq
  | cons x ids =>
      have hlive : ∀ k ∈ x :: ids, a.lookup k ≠ 0 ∧ k ≠ pid ∧ k ≠ nullId := by
        intro k hk
        obtain ⟨m, hm, hpar⟩ := (hmem k).mp hk
        refine ⟨h.table.lookup_of_node hm, ?_, Nat.ne_of_lt (h.tree.ids k m hm).2⟩
        rintro rfl
        -- no component is its own parent
        obtain ⟨d, hd⟩ := (h.tree.rooted k m hm).depth
        have := hd.kid h.tree ⟨m, hm, hpar⟩
        exact absurd (hd.unique this) (by omega)
      obtain ⟨cx, hcx, hxid⟩ := h.table.exists_comp (hlive x (by simp)).1
      have hnode := node_put (c := { p with children := x }) h.table rfl h0
      set a₁ := a.put (a.lookup pid) { p with children := x } with ha₁
      have ht₁ : a₁.Table := h.table.put hp rfl
      have hcx₁ : a₁.comp x = some cx := by
        rw [ha₁, comp_put h.table rfl h0, update_of_ne (hlive x (by simp)).2.1, hcx]
      have hnil : nullId ∉ [] ++ x :: ids := fun hk => (hlive nullId hk).2.2 rfl
      have hpath : Path (nextSib a₁.node) x [] x := rfl
      obtain ⟨b, hb, hthread, hchain⟩ := thread_spec (a.lookup pid) ht₁ hcx₁
        (fun k hk => (hlive k (List.mem_cons_of_mem x hk)).1) hnodup hnil hpath
      have hthreadRun : thread (a.lookup pid) 0 (x :: ids) a = some b := by
        have hobj : a.objs (a.lookup x) = some cx := hcx
        have hwrite := write_eq (show a.objs (a.lookup pid) = some p from hp)
          fun q => { q with children := x }
        simp only [thread, hobj, hxid, if_true, hwrite, Option.bind_eq_bind, Option.bind_some]
        exact hb
      have hput : SameRest a a₁ := SameRest.put hp rfl
      have hrest : SameRest a b := hput.trans hthread.rest
      have hpid_not : pid ∉ x :: ids := fun hk => (hlive pid hk).2.1 rfl
      have hbp : b.node pid = some { p with children := x }.toNode := by
        rw [hthread.others pid hpid_not, hnode, update_self]
      have hfixed : ∀ k, (b.node k).map (fun n => (n.id, n.parent)) =
          (a.node k).map fun n => (n.id, n.parent) := by
        intro k
        have hfixed := congrArg (Option.map fun t : ℕ × ℕ × ℕ => (t.1, t.2.1)) (hthread.fixed k)
        simp only [Option.map_map, Function.comp_def, hnode] at hfixed
        rw [hfixed]
        by_cases hk : k = pid
        · subst hk
          simp [node, hp]
        · rw [update_of_ne hk]
      have hchildren : ∀ k, k ≠ pid →
          (b.node k).map (·.children) = (a.node k).map (·.children) := by
        intro k hk
        have hfixed := congrArg (Option.map fun t : ℕ × ℕ × ℕ => t.2.2) (hthread.fixed k)
        simpa only [Option.map_map, Function.comp_def, hnode, update_of_ne hk] using hfixed
      have hnext : ∀ k, k ∉ x :: ids → nextSib b.node k = nextSib a.node k := by
        intro k hk
        rw [nextSib, nextSib, hthread.others k hk, hnode]
        by_cases hkp : k = pid
        · subst hkp
          simp [node, hp]
        · rw [update_of_ne hkp]
      have hchain' : Chain nullId (nextSib b.node) x (x :: ids) := by simpa using hchain
      have hnodeb := (hfired b).sameTree.node
      refine ⟨_, hrun b hthreadRun, Inv.fired ?_ (hfired b), ?_, fun k => ?_,
        fun q lq hq hlq => ?_, ?_⟩
      rotate_left
      · rw [hnodeb]
        exact kidsAt_reorder hbp hchain' hmem hfixed
      · rw [hnodeb, (thread_faces hthreadRun).node]
      · rw [hnodeb]
        exact hlq.reorder hmem hfixed hchildren hnext hq
      · rw [(hfired b).links, (thread_faces hthreadRun).links]
      refine ⟨hrest.table h.table, h.tree.reorder hbp hchain' hmem hfixed hchildren hnext,
        hrest.linkLists h.links, ?_, ?_, hrest.services_iff.mpr h.services⟩
      · intro k y hy
        rw [hrest.links] at hy
        rw [hrest.lookup, hrest.lookup]
        exact h.ends k y hy
      · rw [hrest.links]
        exact h.slots

/-- Reordering returns and keeps the structure if the request lists every child exactly once. -/
theorem Inv.reorderReq (h : a.Inv) (cb : Callbacks δ) (hp : a.comp pid = some p) {ids : List ℕ}
    (hids : a.ListsChildren pid ids) :
    ∃ a', App.reorderReq cb a pid ids = some a' ∧ a'.Inv := by
  obtain ⟨a', hrun, h', -⟩ := h.reorderReq_spec cb hp hids
  exact ⟨a', hrun, h'⟩

end App

end Sedona
