import Sedona.Library.Transition
import Sedona.Sys.AppRemove

/-!
# The Structure of an Application

The calls that edit an application, as a transition system, and what holds in every state it
can reach: the table, the sibling lists, the link lists and the list of services fit together.

## Main results

* `consistent_of_reachable`: every reachable application is consistent.
* `Call.returns`: in a reachable application every call returns, unless it faults because the
  memory it needs is not there.
-/

namespace Sedona

open Function Intrusive Fuel Transition

variable {δ : Type}

/-- The calls that edit the structure. Components are given by id: an id without a component
stands for a null argument. -/
inductive Call (δ : Type) where
  | initApp (ok : Bool) (initCompsLen : ℕ)
  | add (ok : Bool) (mem : Ref) (parent : ℕ) (name : Str) (t : CompType)
  | addLink (mem : Ref) (src : ℕ) (fromSlot : Slot) (dst : ℕ) (toSlot : Slot)
  | removeLink (link : Ref)
  | remove (c : ℕ)
  /-- Whatever else the device does: property values change, the app starts or stops. -/
  | other (data : δ) (running : Bool)

namespace Call

/-- What the environment guarantees about a call: allocated memory is not in use, links are
links of the app, and a component is added only to less than 65535 others. -/
def Valid (a : App δ) : Call δ → Prop
  | add _ mem _ _ _ => (mem = 0 ∨ a.objs mem = none) ∧ a.count < nullId
  | addLink mem _ _ _ _ => a.links mem = none
  | removeLink link => link = 0 ∨ (a.links link).isSome
  | _ => True

/-- The memory a call needs is there: a table with a place for the app, and the new link. -/
def HasMemory : Call δ → Prop
  | initApp _ n => n ≠ 0
  | addLink mem _ _ _ _ => mem ≠ 0
  | _ => True

/-- Make the call; its result is left out. -/
def run (cb : Callbacks δ) (a : App δ) (fuel : ℕ) : Call δ → Option (App δ)
  | initApp ok n => (a.initApp ok n).map (·.2)
  | add ok mem parent name t =>
      (App.add cb fuel a ok mem (a.lookup parent) name t).map (·.2)
  | addLink mem src fromSlot dst toSlot =>
      (App.addLink cb fuel a mem (a.lookup src) fromSlot (a.lookup dst) toSlot).map (·.2)
  | removeLink link => (App.removeLink cb fuel a link).map (·.2)
  | remove c => (App.remove cb fuel a (a.lookup c)).map (·.2)
  | other data running => some { a with data := data, running := running }

end Call

namespace App

variable {a a' : App δ} {c : Component} {k : Ref}

/-- An application before `initApp`: it has no table, and nothing but itself. -/
structure Fresh (a : App δ) : Prop where
  comps : a.comps = []
  null : a.objs 0 = none
  self : ∃ c, a.objs a.self = some c ∧ c.children = nullId ∧ c.linksTo = 0 ∧ c.linksFrom = 0 ∧
    c.type.isService = false
  links : ∀ k, a.links k = none
  services : a.services = 0

/-- The transition system: a fresh application and its calls. -/
def editing (cb : Callbacks δ) : System (App δ) (Call δ) where
  init := Fresh
  step a call a' := call.Valid a ∧ Returns (fun fuel => call.run cb a fuel) a'

/-- The structure of an application fits together. -/
structure Consistent (a : App δ) : Prop where
  /-- `comps[i]` has the id `i`. -/
  ids : ∀ i, a.lookup i ≠ 0 → ∃ c, a.comp i = some c ∧ c.id = i
  /-- Sibling lists end in `nullId` and hold the children of a component, each once. -/
  siblings : ∀ i c, a.comp i = some c → ∃ l, Chain nullId (nextSib a.node) c.children l ∧
    l.Nodup ∧ ∀ k, k ∈ l ↔ ∃ d, a.comp k = some d ∧ d.parent = i
  /-- Every component but the root has a parent. -/
  parents : ∀ i c, a.comp i = some c → i ≠ 0 → ∃ p, a.comp c.parent = some p
  /-- Parent pointers lead to the root. -/
  rooted : ∀ i c, a.comp i = some c → Rooted a.node i
  /-- Every link is in the list of its `to` component once, and, unless that is also its
  `from` component, in the list of its `from` component once. -/
  links : ∀ s i c, a.comp i = some c → ∃ l, Chain 0 (a.nextOn s) (s.head c) l ∧ l.Nodup ∧
    ∀ k, k ∈ l ↔ ∃ x, a.links k = some x ∧ s.owner x = some i
  /-- Both ends of a link are components of the app. -/
  ends : ∀ k x, a.links k = some x →
    (∃ c, a.comp x.fromComp = some c) ∧ ∃ c, a.comp x.toComp = some c
  /-- No two links go to the same slot. -/
  slots : ∀ k k' x x', a.links k = some x → a.links k' = some x' → x.toComp = x'.toComp →
    x.toSlot = x'.toSlot → k = k'
  /-- The list of services holds the services of the app, each once. -/
  services : ∃ l, Chain 0 a.svcNext a.services l ∧ l.Nodup ∧
    ∀ r, r ∈ l ↔ ∃ i c, a.lookup i = r ∧ a.objs r = some c ∧ c.type.isService = true

/-! ### The invariant means consistency -/

theorem Inv.consistent (h : a.Inv) : a.Consistent where
  ids i hi := h.table.exists_comp hi
  siblings i c hc := by
    obtain ⟨l, hl⟩ := h.tree.kids i c.toNode (node_eq_some.mpr ⟨c, hc, rfl⟩)
    refine ⟨l, hl.chain, hl.chain.nodup, fun k => ?_⟩
    rw [hl.mem]
    constructor
    · rintro ⟨n, hn, hpar⟩
      obtain ⟨d, hd, rfl⟩ := node_eq_some.mp hn
      exact ⟨d, hd, hpar⟩
    · rintro ⟨d, hd, hpar⟩
      exact ⟨d.toNode, node_eq_some.mpr ⟨d, hd, rfl⟩, hpar⟩
  parents i c hc hi := by
    obtain ⟨n, hn⟩ := h.tree.parent_isSome (node_eq_some.mpr ⟨c, hc, rfl⟩) hi
    obtain ⟨p, hp, -⟩ := node_eq_some.mp hn
    exact ⟨p, hp⟩
  rooted i c hc := h.tree.rooted i c.toNode (node_eq_some.mpr ⟨c, hc, rfl⟩)
  links s i c hc := by
    obtain ⟨l, hchain, hmem⟩ := h.links.lists s i (s.head c) (by simp [headOn, hc])
    refine ⟨l, hchain, hchain.nodup, fun k => ?_⟩
    rw [hmem, ownOn, Option.bind_eq_some_iff]
  ends k x hx := by
    obtain ⟨hfrom, hto⟩ := h.ends k x hx
    obtain ⟨f, hf, -⟩ := h.table.exists_comp hfrom
    obtain ⟨t, ht, -⟩ := h.table.exists_comp hto
    exact ⟨⟨f, hf⟩, ⟨t, ht⟩⟩
  slots := h.slots
  services := by
    obtain ⟨l, hchain, hmem⟩ := h.services () a.services rfl
    refine ⟨l, hchain, hchain.nodup, fun r => ?_⟩
    rw [hmem]
    constructor
    · intro hown
      obtain ⟨c, hc, hcond⟩ := Option.bind_eq_some_iff.mp hown
      by_cases hsvc : a.lookup c.id = r ∧ c.type.isService = true
      · exact ⟨c.id, c, hsvc.1, hc, hsvc.2⟩
      · simp [hsvc] at hcond
    · rintro ⟨i, c, rfl, hc, hsvc⟩
      simp [svcOwn, hc, h.table.comp_id hc, hsvc]

theorem Fresh.lookup (h : a.Fresh) (i : ℕ) : a.lookup i = 0 := by simp [App.lookup, h.comps]

theorem Fresh.consistent (h : a.Fresh) : a.Consistent := by
  have hcomp : ∀ i, a.comp i = none := fun i => by rw [comp, h.lookup, h.null]
  refine ⟨fun i hi => absurd (h.lookup i) hi, ?_, ?_, ?_, ?_, ?_, ?_, [], ?_, List.nodup_nil, ?_⟩
  · simp [hcomp]
  · simp [hcomp]
  · simp [hcomp]
  · simp [hcomp]
  · simp [h.links]
  · simp [h.links]
  · exact chain_nil.mpr h.services
  · intro r
    simp only [List.not_mem_nil, h.lookup, false_iff]
    rintro ⟨_, c, rfl, hc, -⟩
    exact Option.some_ne_none c (hc.symm.trans h.null)

/-! ### `initApp` -/

/-- The tree does not depend on names. -/
theorem tree_rename {node : ℕ → Option Node} {id : ℕ} {n : Node} (h : Tree node)
    (hn : node id = some n) (name : Str) :
    Tree (update node id (some { n with name := name })) := by
  set node' := update node id (some { n with name := name }) with hnode'
  have hmap : ∀ {β : Type} (f : Node → β), (∀ m : Node, f { m with name := name } = f m) →
      ∀ k, (node' k).map f = (node k).map f := by
    intro β f hf k
    by_cases hk : k = id
    · subst hk
      simp [hnode', hn, hf]
    · simp [hnode', hk]
  have hback : ∀ {β : Type} (f : Node → β), (∀ m : Node, f { m with name := name } = f m) →
      ∀ k m, node' k = some m → ∃ m₀, node k = some m₀ ∧ f m₀ = f m := by
    intro β f hf k m hm
    have heq := (hmap f hf k).symm
    rw [hm] at heq
    exact Option.map_eq_some_iff.mp heq
  have hsib : nextSib node' = nextSib node := funext (hmap (·.nextSibling) fun _ => rfl)
  have hkid : ∀ q k, IsKid node' q k ↔ IsKid node q k := by
    intro q k
    have hpar := hmap (·.parent) (fun _ => rfl) k
    unfold IsKid
    constructor
    · rintro ⟨m, hm, rfl⟩
      exact hback (·.parent) (fun _ => rfl) k m hm
    · rintro ⟨m, hm, rfl⟩
      rw [hm] at hpar
      exact Option.map_eq_some_iff.mp hpar
  refine ⟨?_, ?_, ?_, ?_⟩
  · obtain ⟨r, hr, hroot⟩ := h.root
    obtain ⟨m, hm, hpar⟩ := Option.map_eq_some_iff.mp
      ((hmap (·.parent) (fun _ => rfl) 0).trans (by rw [hr]; rfl))
    exact ⟨m, hm, hpar.trans hroot⟩
  · intro k m hm
    obtain ⟨m₀, hm₀, heq⟩ := hback (·.id) (fun _ => rfl) k m hm
    rw [← heq]
    exact h.ids k m₀ hm₀
  · intro k m hm
    obtain ⟨m₀, hm₀, heq⟩ := hback (·.children) (fun _ => rfl) k m hm
    obtain ⟨l, hl⟩ := h.kids k m₀ hm₀
    refine ⟨l, ?_, fun j => (hl.mem j).trans (hkid k j).symm⟩
    rw [hsib, ← heq]
    exact hl.chain
  · intro k m hm
    obtain ⟨m₀, hm₀, -⟩ := hback (·.parent) (fun _ => rfl) k m hm
    have hroot := h.rooted k m₀ hm₀
    clear hm hm₀
    induction hroot with
    | root => exact Rooted.root
    | @step j i hj _ ih =>
        obtain ⟨i', hi', hpar⟩ := Option.map_eq_some_iff.mp
          ((hmap (·.parent) (fun _ => rfl) j).trans (by rw [hj]; rfl))
        exact Rooted.step hi' (hpar ▸ ih)

/-- `initApp` on a live application changes the name of the root and the size of the table. -/
theorem Inv.initApp (h : a.Inv) (ok : Bool) (n : ℕ) :
    ∃ b a', a.initApp ok n = some (b, a') ∧ a'.Inv := by
  obtain ⟨rn, hrn, hroot⟩ := h.tree.root
  obtain ⟨c, hc, rfl⟩ := node_eq_some.mp hrn
  have h0 := h.table.lookup_ne hc
  have hcid := h.table.comp_id hc
  have hobj : a.objs a.self = some c := by rw [← h.table.self]; exact hc
  set c' : Component := { c with id := 0, parent := nullId, name := appName } with hc'
  set a₁ := a.put a.self c' with ha₁
  have hrest : ∀ s : Side, a₁.headOn s = a.headOn s := by
    intro s
    rw [ha₁, headOn_put h.table h.table.self h.table.self_ne]
    exact update_eq_self_iff.mpr (by cases s <;> simp [headOn, hc, hc', Side.head])
  have h₁ : a₁.Inv := by
    refine ⟨h.table.put hobj hcid.symm, ?_, ⟨h.links.null, fun s => ?_⟩, h.ends, h.slots, ?_⟩
    · have hnode : a₁.node = update a.node 0 (some { c.toNode with name := appName }) := by
        rw [ha₁, node_put h.table h.table.self h.table.self_ne, hc', ← hroot, ← hcid]
      rw [hnode]
      exact tree_rename h.tree hrn appName
    · rw [hrest]
      exact h.links.lists s
    · exact h.services.put_same hobj hcid.symm rfl rfl
  have hne : a.comps ≠ [] := by
    intro hnil
    exact h0 (by simp [lookup, hnil])
  have hpos : 0 < a.comps.length := List.length_pos_iff.mpr hne
  -- entering the root into the table again changes nothing
  have hset : ∀ comps : List Ref, (∀ i, comps.getD i 0 = a₁.lookup i) → 0 < comps.length →
      Inv { a₁ with comps := comps.set 0 a.self } := by
    intro comps heq hlen
    refine h₁.congr_comps fun i => ?_
    have hlookup := lookup_set (a := { a₁ with comps := comps }) hlen a.self i
    refine hlookup.trans ?_
    split
    · rename_i hi
      rw [hi]
      exact h₁.table.self.symm
    · exact heq i
  simp only [App.initApp, write_eq hobj, Option.bind_eq_bind, Option.bind_some, ← hc', ← ha₁]
  by_cases hn : a.comps.length ≥ n
  · have hfits : a₁.ensureCompsCapacity ok n = (true, a₁) := if_pos hn
    refine ⟨true, _, ?_, hset a.comps (fun _ => rfl) hpos⟩
    simp only [hfits, Bool.not_true, Bool.false_eq_true, if_false]
    exact if_neg hne
  · cases ok with
    | false =>
        have hfits : a₁.ensureCompsCapacity false n = (false, a₁) := if_neg hn
        exact ⟨false, a₁, by simp only [hfits]; rfl, h₁⟩
    | true =>
        have hfits : a₁.ensureCompsCapacity true n = (true, { a₁ with
          comps := a.comps ++ List.replicate (n - a.comps.length) 0 }) := if_neg hn
        refine ⟨true, _, ?_, hset (a.comps ++ List.replicate (n - a.comps.length) 0)
          (lookup_append_replicate a _) (by rw [List.length_append]; omega)⟩
        simp only [hfits, Bool.not_true, Bool.false_eq_true, if_false]
        exact if_neg (by simp [hne])

/-- The root after `initApp`. -/
def initialRoot (c : Component) : Component :=
  { c with id := 0, parent := nullId, name := appName }

/-- What `initApp` leaves of a fresh application. -/
def initialApp (a : App δ) (n : ℕ) (c : Component) : App δ :=
  { a.put a.self (initialRoot c) with comps := (List.replicate n 0).set 0 a.self }

theorem initialApp_lookup {n : ℕ} (hn : n ≠ 0) (i : ℕ) :
    (a.initialApp n c).lookup i = if i = 0 then a.self else 0 := by
  have hlen : 0 < (List.replicate n (0 : Ref)).length := by
    simpa using Nat.pos_of_ne_zero hn
  refine (lookup_set (a := { a with comps := List.replicate n 0 }) hlen a.self i).trans ?_
  split
  · rfl
  · rw [App.lookup, List.getD_eq_getElem?_getD, List.getElem?_replicate]
    split <;> rfl

theorem Fresh.self_ne (h : a.Fresh) : a.self ≠ 0 := by
  obtain ⟨c, hc, -⟩ := h.self
  intro h0
  rw [h0, h.null] at hc
  exact Option.some_ne_none c hc.symm

theorem Fresh.initialApp_comp (h : a.Fresh) {n : ℕ} (hn : n ≠ 0) (i : ℕ) :
    (a.initialApp n c).comp i = if i = 0 then some (initialRoot c) else none := by
  rw [comp, initialApp_lookup hn]
  split
  · exact put_objs_self
  · exact (put_objs_of_ne h.self_ne.symm).trans h.null

/-- An application that consists of its root alone. -/
theorem Fresh.initialApp_inv (h : a.Fresh) (hc : a.objs a.self = some c) {n : ℕ} (hn : n ≠ 0) :
    (a.initialApp n c).Inv := by
  obtain ⟨c', hc', hkids, hto, hfrom, hsvc⟩ := h.self
  obtain rfl := Option.some.inj (hc.symm.trans hc')
  set a₁ := a.initialApp n c with ha₁
  have hlookup : ∀ i, a₁.lookup i = if i = 0 then a.self else 0 := initialApp_lookup hn
  have hcomp : ∀ i, a₁.comp i = if i = 0 then some (initialRoot c) else none :=
    h.initialApp_comp hn
  have hobj : a₁.objs a.self = some (initialRoot c) := put_objs_self
  have hnull : a₁.objs 0 = none := (put_objs_of_ne h.self_ne.symm).trans h.null
  have hnode : ∀ i m, a₁.node i = some m → i = 0 ∧ m = (initialRoot c).toNode := by
    intro i m hm
    rw [node, hcomp] at hm
    split at hm
    · rename_i hi
      exact ⟨hi, (Option.some.inj hm).symm⟩
    · simp at hm
  have hnokid : ∀ q k, q < nullId → ¬ IsKid a₁.node q k := by
    rintro q k hq ⟨m, hm, hpar⟩
    obtain ⟨-, rfl⟩ := hnode k m hm
    exact absurd hpar (Nat.ne_of_gt hq)
  have hroot : a₁.node 0 = some (initialRoot c).toNode := by simp [node, hcomp]
  refine ⟨⟨hnull, ?_, h.self_ne, ?_⟩, ⟨⟨_, hroot, rfl⟩, ?_, ?_, ?_⟩, ⟨h.links 0, fun s => ?_⟩,
    ?_, ?_, ?_⟩
  · rw [hlookup, if_pos rfl]
    rfl
  · intro i hi
    rw [hlookup] at hi ⊢
    split at hi
    · rename_i hi0
      exact ⟨initialRoot c, by rw [if_pos hi0]; exact hobj, hi0.symm⟩
    · exact absurd rfl hi
  · intro i m hm
    obtain ⟨rfl, rfl⟩ := hnode i m hm
    exact ⟨rfl, by decide⟩
  · intro i m hm
    obtain ⟨rfl, rfl⟩ := hnode i m hm
    refine ⟨[], chain_nil.mpr hkids, fun k => ?_⟩
    simp [hnokid 0 k (by decide)]
  · intro i m hm
    obtain ⟨rfl, rfl⟩ := hnode i m hm
    exact Rooted.root
  · intro i f hf
    rw [headOn, hcomp] at hf
    split at hf
    · obtain rfl := Option.some.inj hf
      refine ⟨[], chain_nil.mpr ?_, fun k => ?_⟩
      · cases s
        · exact hto
        · exact hfrom
      · simp [ownOn, show a₁.links k = none from h.links k]
    · simp at hf
  · intro k x hx
    exact absurd ((h.links k).symm.trans hx) (by simp)
  · intro k k' x x' hx
    exact absurd ((h.links k).symm.trans hx) (by simp)
  · intro u f hf
    obtain rfl := Option.some.inj hf
    refine ⟨[], chain_nil.mpr h.services, fun r => ?_⟩
    simp only [List.not_mem_nil, false_iff]
    intro hown
    obtain ⟨d, hd, hcond⟩ := Option.bind_eq_some_iff.mp hown
    by_cases hr : a₁.lookup d.id = r ∧ d.type.isService = true
    · obtain ⟨hr, hdsvc⟩ := hr
      rw [hlookup] at hr
      split at hr
      · subst hr
        obtain rfl := Option.some.inj (hobj.symm.trans hd)
        exact absurd hdsvc (by simp [initialRoot, hsvc])
      · subst hr
        exact absurd (hnull.symm.trans hd) (by simp)
    · simp [hr] at hcond

/-- What `initApp` does to a fresh application when there is memory for the table. -/
theorem Fresh.initApp_eq (h : a.Fresh) (hc : a.objs a.self = some c) {n : ℕ} (hn : n ≠ 0) :
    a.initApp true n = some (true, a.initialApp n c) := by
  set a₀ := a.put a.self (initialRoot c) with ha₀
  have hcomps₀ : a₀.comps = [] := h.comps
  have hgrow : ¬ a₀.comps.length ≥ n := by
    simpa [hcomps₀] using hn
  have hfits : a₀.ensureCompsCapacity true n =
      (true, { a₀ with comps := List.replicate n 0 }) := by
    refine (if_neg hgrow).trans ?_
    simp [hcomps₀]
  have hwrite : a.write a.self (fun c => { c with id := 0, parent := nullId, name := appName }) =
      some a₀ := write_eq hc initialRoot
  simp only [App.initApp, hwrite, Option.bind_eq_bind, Option.bind_some, hfits, Bool.not_true,
    Bool.false_eq_true, if_false, List.replicate_eq_nil_iff, hn]
  rfl

/-- `initApp` on a fresh application leaves a tree of the root alone, unless there is no
memory for a table. -/
theorem Fresh.initApp (h : a.Fresh) {ok b : Bool} {n : ℕ}
    (hrun : a.initApp ok n = some (b, a')) : a'.Fresh ∨ a'.Inv := by
  obtain ⟨c, hc, hkids, hto, hfrom, hsvc⟩ := h.self
  by_cases hn : n = 0
  · -- mapping the app into the null table faults
    subst hn
    have hwrite := write_eq hc fun c => { c with id := 0, parent := nullId, name := appName }
    simp [App.initApp, hwrite, ensureCompsCapacity, put, h.comps] at hrun
  · cases ok with
    | true =>
        rw [h.initApp_eq hc hn, Option.some.injEq, Prod.mk.injEq] at hrun
        exact Or.inr (hrun.2 ▸ h.initialApp_inv hc hn)
    | false =>
        have hwrite : a.write a.self
            (fun c => { c with id := 0, parent := nullId, name := appName }) =
            some (a.put a.self (initialRoot c)) := write_eq hc initialRoot
        have hfits : (a.put a.self (initialRoot c)).ensureCompsCapacity false n =
            (false, a.put a.self (initialRoot c)) := by
          refine if_neg ?_
          simpa [put, h.comps] using hn
        simp only [App.initApp, hwrite, Option.bind_eq_bind, Option.bind_some, hfits,
          Bool.not_false, if_true, Option.some.injEq, Prod.mk.injEq] at hrun
        obtain ⟨-, rfl⟩ := hrun
        exact Or.inl ⟨h.comps, (put_objs_of_ne h.self_ne.symm).trans h.null,
          ⟨initialRoot c, put_objs_self, hkids, hto, hfrom, hsvc⟩, h.links, h.services⟩

/-! ### Every call keeps the structure -/

/-- Without memory for the link, `addLink` can only refuse. -/
theorem addLink_null {cb : Callbacks δ} {fuel : ℕ} {src dst : Ref} {fromSlot toSlot : Slot}
    {r : Ref} (h : addLink cb fuel a 0 src fromSlot dst toSlot = some (r, a')) :
    r = 0 ∧ a' = a := by
  have hsame : ∀ {x : Ref × App δ}, some (0, a) = some x → x.1 = 0 ∧ x.2 = a := by
    rintro x hx
    rw [← Option.some.inj hx]
    exact ⟨rfl, rfl⟩
  unfold addLink at h
  split at h
  · exact hsame h
  · simp only [Option.bind_eq_bind, Option.bind_eq_some_iff] at h
    obtain ⟨f, -, t, -, dup, -, h⟩ := h
    split at h
    · exact hsame h
    · obtain ⟨fanIn, -, h⟩ := Option.bind_eq_some_iff.mp h
      split at h
      · exact hsame h
      · simp at h

/-- Calls with null arguments are refused. -/
theorem add_refused {cb : Callbacks δ} {fuel : ℕ} {ok : Bool} {mem : Ref} {name : Str}
    {t : CompType} : add cb fuel a ok mem 0 name t = some (0, a) := by simp [add]

theorem addLink_refused {cb : Callbacks δ} {fuel : ℕ} {mem src dst : Ref} {fromSlot toSlot : Slot}
    (h : src = 0 ∨ dst = 0) : addLink cb fuel a mem src fromSlot dst toSlot = some (0, a) := by
  simp [addLink, h]

/-- **Every call returns** and keeps the invariant. -/
theorem Inv.call (h : a.Inv) (cb : Callbacks δ) {call : Call δ} (hvalid : call.Valid a)
    (hmem : call.HasMemory) :
    ∃ a', Returns (fun fuel => call.run cb a fuel) a' ∧ a'.Inv := by
  have hmap : ∀ {β : Type} {run : ℕ → Option (β × App δ)} {b : β} {a' : App δ},
      Returns run (b, a') → Returns (fun fuel => (run fuel).map (·.2)) a' := by
    rintro β run b a' ⟨n, hn⟩
    exact ⟨n, fun fuel hfuel => by simp only [hn fuel hfuel, Option.map_some]⟩
  cases call with
  | initApp ok n =>
      obtain ⟨b, a', hrun, h'⟩ := h.initApp ok n
      refine ⟨a', ⟨0, fun fuel _ => ?_⟩, h'⟩
      simp only [Call.run, hrun, Option.map_some]
  | add ok mem parent name t =>
      by_cases h0 : a.lookup parent = 0
      · refine ⟨a, ⟨0, fun fuel _ => ?_⟩, h⟩
        simp only [Call.run, h0, add_refused, Option.map_some]
      · obtain ⟨p, hp, -⟩ := h.table.exists_comp h0
        obtain ⟨r, a', hrun, h'⟩ := h.add cb ok name t hp hvalid.1 hvalid.2
        exact ⟨a', hmap hrun, h'⟩
  | addLink mem src fromSlot dst toSlot =>
      by_cases h0 : a.lookup src = 0 ∨ a.lookup dst = 0
      · refine ⟨a, ⟨0, fun fuel _ => ?_⟩, h⟩
        simp only [Call.run, addLink_refused h0, Option.map_some]
      · rw [not_or] at h0
        obtain ⟨f, hf, -⟩ := h.table.exists_comp h0.1
        obtain ⟨t, ht, -⟩ := h.table.exists_comp h0.2
        obtain ⟨r, a', hrun, h'⟩ := h.addLink cb hf ht fromSlot toSlot hmem hvalid
        exact ⟨a', hmap hrun, h'⟩
  | removeLink link =>
      rcases hvalid with rfl | hlink
      · refine ⟨a, ⟨0, fun fuel _ => ?_⟩, h⟩
        simp only [Call.run, App.removeLink, if_true, Option.map_some]
      · obtain ⟨x, hx⟩ := Option.isSome_iff_exists.mp hlink
        obtain ⟨b, a', hrun, h'⟩ := h.removeLink cb hx
        exact ⟨a', hmap hrun, h'⟩
  | remove c =>
      by_cases h0 : a.lookup c = 0
      · refine ⟨a, ⟨1, fun fuel hfuel => ?_⟩, h⟩
        obtain ⟨fuel, rfl⟩ : ∃ f, fuel = f + 1 := ⟨fuel - 1, by omega⟩
        simp [Call.run, App.remove, h0]
      · obtain ⟨b, a', hrun, h'⟩ := h.remove cb h0
        exact ⟨a', hmap hrun, h'⟩
  | other data running =>
      exact ⟨_, returns_const rfl, h.fired ⟨data, running, rfl⟩⟩

/-- **One step**: what a call leaves satisfies the invariant. -/
theorem Inv.step (h : a.Inv) (cb : Callbacks δ) {call : Call δ}
    (hstep : (editing cb).step a call a') : a'.Inv := by
  obtain ⟨hvalid, hrun⟩ := hstep
  by_cases hmem : call.HasMemory
  · obtain ⟨b, hrun', h'⟩ := h.call cb hvalid hmem
    rwa [hrun.unique hrun']
  · cases call with
    | addLink mem src fromSlot dst toSlot =>
        obtain rfl : mem = 0 := by simpa [Call.HasMemory] using hmem
        obtain ⟨n, hn⟩ := hrun
        obtain ⟨⟨r, b⟩, hadd, rfl⟩ := Option.map_eq_some_iff.mp (hn n le_rfl)
        rw [(addLink_null hadd).2]
        exact h
    | initApp ok n =>
        obtain ⟨b, b', hrun', h'⟩ := h.initApp ok n
        have hreturns : Returns (fun fuel => (Call.initApp ok n).run cb a fuel) b' :=
          ⟨0, fun fuel _ => by simp only [Call.run, hrun', Option.map_some]⟩
        rwa [hrun.unique hreturns]
    | add | removeLink | remove | other => exact absurd trivial hmem

/-- A fresh application stays so until `initApp` gets its table. -/
theorem Fresh.step (h : a.Fresh) (cb : Callbacks δ) {call : Call δ}
    (hstep : (editing cb).step a call a') : a'.Fresh ∨ a'.Inv := by
  obtain ⟨hvalid, n, hn⟩ := hstep
  have hrun := hn (n + 1) (Nat.le_succ n)
  cases call with
  | initApp ok len =>
      obtain ⟨⟨b, a''⟩, hinit, rfl⟩ := Option.map_eq_some_iff.mp hrun
      exact h.initApp hinit
  | add ok mem parent name t =>
      simp only [Call.run, h.lookup, add_refused, Option.map_some, Option.some.injEq] at hrun
      exact Or.inl (hrun ▸ h)
  | addLink mem src fromSlot dst toSlot =>
      simp only [Call.run, h.lookup, addLink_refused (Or.inl rfl), Option.map_some,
        Option.some.injEq] at hrun
      exact Or.inl (hrun ▸ h)
  | removeLink link =>
      rcases hvalid with rfl | hlink
      · simp only [Call.run, App.removeLink, if_true, Option.map_some, Option.some.injEq] at hrun
        exact Or.inl (hrun ▸ h)
      · simp [h.links] at hlink
  | remove c =>
      simp only [Call.run, h.lookup, App.remove, if_true, Option.map_some,
        Option.some.injEq] at hrun
      exact Or.inl (hrun ▸ h)
  | other data running =>
      obtain rfl := Option.some.inj hrun
      exact Or.inl ⟨h.comps, h.null, h.self, h.links, h.services⟩

theorem inv_of_reachable {cb : Callbacks δ} (h : (editing cb).Reachable a) : a.Fresh ∨ a.Inv := by
  refine h.invariant (fun a ha => Or.inl ha) fun a call a' ha hstep => ?_
  rcases ha with ha | ha
  · exact ha.step cb hstep
  · exact Or.inr (ha.step cb hstep)

/-- **The structure of an application.** Whatever calls are made, in whatever order, the
application stays consistent. -/
theorem consistent_of_reachable {cb : Callbacks δ} (h : (editing cb).Reachable a) :
    a.Consistent := by
  rcases inv_of_reachable h with h | h
  · exact h.consistent
  · exact h.consistent

/-- A call that returns with any fuel from `n` on. -/
theorem reachable_call {cb : Callbacks δ} (call : Call δ) (n : ℕ)
    (h : (editing cb).Reachable a) (hvalid : call.Valid a) (hrun : ∀ fuel, call.run cb a (fuel + n) = some a') :
    (editing cb).Reachable a' := by
  refine h.tail (a := call) ⟨hvalid, n, fun fuel hfuel => ?_⟩
  obtain ⟨fuel, rfl⟩ := Nat.exists_eq_add_of_le' hfuel
  exact hrun fuel

/-! ### A run -/

/-- A fresh application behind the reference 1. -/
def bootApp : App Unit :=
  { self := 1, objs := fun r => if r = 1 then some { type := { kit := 0, id := 0 } } else none,
    data := () }

/-- Components with callbacks that do nothing. -/
def quiet : Callbacks δ := fun _ a => (a.data, a.running)

/-- A slot with a number. -/
def numberSlot : Slot := { id := 0, type := .int }

/-- A service and a component with a link from the service; then the service is removed. -/
def bootCall : ℕ → Call Unit
  | 0 => .initApp true 2
  | 1 => .add true 2 0 [0x73] { kit := 1, id := 1, isService := true }
  | 2 => .add true 3 0 [0x78] { kit := 1, id := 2, slots := [numberSlot] }
  | 3 => .addLink 1 1 numberSlot 2 numberSlot
  | _ => .remove 1

/-- The application after the first `n` calls, each with this much fuel. -/
def bootRun (fuel : ℕ) : ℕ → App Unit
  | 0 => bootApp
  | n + 1 => ((bootCall n).run quiet (bootRun fuel n) fuel).getD bootApp

/-- The application after the whole run, and that it is consistent. -/
theorem consistent_bootRun : (editing quiet).Reachable (bootRun 9 5) ∧
    (bootRun 9 5).comps.take 4 = [1, 0, 3, 0] ∧ (bootRun 9 5).Consistent := by
  have h₀ : (editing quiet).Reachable (bootRun 9 0) :=
    System.Reachable.start ⟨rfl, rfl, ⟨_, rfl, rfl, rfl, rfl, rfl⟩, fun _ => rfl, rfl⟩
  have h₁ := reachable_call (bootCall 0) 9 h₀ trivial fun _ => rfl
  have h₂ := reachable_call (bootCall 1) 9 h₁ ⟨Or.inr rfl, by decide⟩ fun _ => rfl
  have h₃ := reachable_call (bootCall 2) 9 h₂ ⟨Or.inr rfl, by decide⟩ fun _ => rfl
  have h₄ := reachable_call (bootCall 3) 9 h₃ rfl fun _ => rfl
  have h₅ := reachable_call (bootCall 4) 9 h₄ trivial fun _ => rfl
  exact ⟨h₅, rfl, consistent_of_reachable h₅⟩

end App

end Sedona
