import Sedona.Library.Fuel
import Sedona.Sys.Tree

/-!
# The Table and the Heap

Views of an application by component id, and what writing to the heap does to them. `Table`
says that every entry of the table refers to a component that carries the entry's index as
its id; it makes the references of different entries different, so that a write through one
entry is an update of the views at one id.

## Main results

* `comp_put`, `comp_put_dead`: a write to a component in the table, and to one outside.
* `SameTree`: the relation between applications that differ only in links, link fields and
  data, with `SameTree.trans` and the steps that keep it.
-/

namespace Sedona

open Function

variable {δ : Type}

/-- A component without its link lists. -/
def Component.core (c : Component) : Component := { c with linksTo := 0, linksFrom := 0 }

/-- A component without its place in the tree. -/
def Component.rest (c : Component) : Component :=
  { c with parent := 0, children := 0, nextSibling := 0 }

/-- A link without its list fields. -/
def Link.core (l : Link) : Link := { l with nextTo := 0, nextFrom := 0 }

/-- The component that a link's list on this side belongs to; a link from a component to
itself belongs to no list of links out of it. -/
def Side.owner : Side → Link → Option ℕ
  | into, l => some l.toComp
  | outOf, l => if l.fromComp = l.toComp then none else some l.fromComp

namespace Side

variable (s t : Side) (r : Ref) (l l' : Link) (c : Component)

@[simp] theorem next_setNext : s.next (s.setNext r l) = r := by cases s <;> rfl

@[simp] theorem head_setHead : s.head (s.setHead r c) = r := by cases s <;> rfl

@[simp] theorem core_setNext : (s.setNext r l).core = l.core := by cases s <;> rfl

@[simp] theorem core_setHead : (s.setHead r c).core = c.core := by cases s <;> rfl

theorem next_setNext_of_ne (h : t ≠ s) : t.next (s.setNext r l) = t.next l := by
  cases s <;> cases t <;> first | rfl | exact absurd rfl h

theorem head_setHead_of_ne (h : t ≠ s) : t.head (s.setHead r c) = t.head c := by
  cases s <;> cases t <;> first | rfl | exact absurd rfl h

theorem owner_core : s.owner l.core = s.owner l := by cases s <;> rfl

theorem owner_congr (h : l.core = l'.core) : s.owner l = s.owner l' := by
  rw [← owner_core, h, owner_core]

end Side

namespace App

/-! ### Views -/

/-- The tree fields of the component with this id. -/
def node (a : App δ) (id : ℕ) : Option Node := (a.comp id).map (·.toNode)

/-- The first link on this side of the component with this id. -/
def headOn (a : App δ) (s : Side) (id : ℕ) : Option Ref := (a.comp id).map s.head

/-- The link behind this one on this side. -/
def nextOn (a : App δ) (s : Side) (k : Ref) : Option Ref := (a.links k).map s.next

/-- The component whose list on this side the link belongs to. -/
def ownOn (a : App δ) (s : Side) (k : Ref) : Option ℕ := (a.links k).bind s.owner

/-- The application with this component behind `r`. -/
def put (a : App δ) (r : Ref) (c : Component) : App δ :=
  { a with objs := update a.objs r (some c) }

/-- The application with this link behind `r`. -/
def putLink (a : App δ) (r : Ref) (l : Link) : App δ :=
  { a with links := update a.links r (some l) }

theorem write_eq {a : App δ} {r : Ref} {c : Component} (h : a.objs r = some c)
    (f : Component → Component) : a.write r f = some (a.put r (f c)) := by
  simp [write, put, h]

theorem writeLink_eq {a : App δ} {r : Ref} {l : Link} (h : a.links r = some l)
    (f : Link → Link) : a.writeLink r f = some (a.putLink r (f l)) := by
  simp [writeLink, putLink, h]

/-- Every entry of the table refers to a component that knows its id, and the app itself is
entry 0. -/
structure Table (a : App δ) : Prop where
  null : a.objs 0 = none
  self : a.lookup 0 = a.self
  self_ne : a.self ≠ 0
  live : ∀ id, a.lookup id ≠ 0 → ∃ c, a.objs (a.lookup id) = some c ∧ c.id = id

section Views

variable {a a' : App δ} {id id' : ℕ} {r k : Ref} {c c' : Component} {l l' : Link}

/-- What a reference in the table refers to is the component with that id. -/
theorem comp_of_lookup (h : a.lookup id = r) : a.comp id = a.objs r := by rw [comp, h]

theorem Table.lookup_ne (h : a.Table) (hc : a.comp id = some c) : a.lookup id ≠ 0 := by
  intro h0
  rw [comp, h0, h.null] at hc
  exact Option.some_ne_none c hc.symm

theorem Table.comp_eq_none (h : a.Table) (h0 : a.lookup id = 0) : a.comp id = none := by
  rw [comp, h0, h.null]

theorem Table.exists_comp (h : a.Table) (h0 : a.lookup id ≠ 0) :
    ∃ c, a.comp id = some c ∧ c.id = id := h.live id h0

theorem Table.comp_id (h : a.Table) (hc : a.comp id = some c) : c.id = id := by
  obtain ⟨c', hc', hid⟩ := h.exists_comp (h.lookup_ne hc)
  obtain rfl := Option.some.inj (hc.symm.trans hc')
  exact hid

/-- Different entries refer to different components. -/
theorem Table.inj (h : a.Table) (h0 : a.lookup id ≠ 0) (heq : a.lookup id = a.lookup id') :
    id = id' := by
  obtain ⟨c, hc, hid⟩ := h.live id h0
  obtain ⟨c', hc', hid'⟩ := h.live id' (heq ▸ h0)
  rw [heq, hc'] at hc
  obtain rfl := Option.some.inj hc
  exact hid.symm.trans hid'

theorem node_eq_some {n : Node} :
    a.node id = some n ↔ ∃ c, a.comp id = some c ∧ c.toNode = n := by
  simp [node]

/-! ### Writing to a component -/

@[simp] theorem put_lookup : (a.put r c).lookup id = a.lookup id := rfl

@[simp] theorem put_links : (a.put r c).links = a.links := rfl

@[simp] theorem put_objs_self : (a.put r c).objs r = some c := by simp [put]

theorem put_objs_of_ne {r' : Ref} (h : r' ≠ r) : (a.put r c).objs r' = a.objs r' := by
  simp [put, update_of_ne h]

/-- A write to the component with this id. -/
theorem comp_put (h : a.Table) (hr : a.lookup id = r) (h0 : r ≠ 0) :
    (a.put r c).comp = update a.comp id (some c) := by
  subst hr
  funext j
  by_cases hj : j = id
  · subst hj
    rw [update_self]
    exact put_objs_self
  · have hne : a.lookup j ≠ a.lookup id := fun heq => hj (h.inj h0 heq.symm).symm
    rw [update_of_ne hj]
    exact put_objs_of_ne hne

/-- A write to a component that is not in the table. -/
theorem comp_put_dead (hr : ∀ id, a.lookup id ≠ r) : (a.put r c).comp = a.comp := by
  funext j
  exact put_objs_of_ne (hr j)

theorem Table.put (h : a.Table) (hr : a.objs r = some c) (hid : c'.id = c.id) :
    (a.put r c').Table := by
  refine ⟨?_, h.self, h.self_ne, fun id h0 => ?_⟩
  · rw [put_objs_of_ne, h.null]
    rintro rfl
    exact Option.some_ne_none c (hr.symm.trans h.null)
  · obtain ⟨d, hd, hdid⟩ := h.live id h0
    rw [put_lookup]
    by_cases heq : a.lookup id = r
    · rw [heq, put_objs_self]
      rw [heq, hr] at hd
      obtain rfl := Option.some.inj hd
      exact ⟨c', rfl, hid.trans hdid⟩
    · exact ⟨d, by rw [put_objs_of_ne heq, hd], hdid⟩

theorem headOn_put (h : a.Table) (hr : a.lookup id = r) (h0 : r ≠ 0) (s : Side) :
    (a.put r c).headOn s = update (a.headOn s) id (some (s.head c)) := by
  funext j
  unfold headOn
  rw [comp_put h hr h0]
  by_cases hj : j = id
  · subst hj
    simp
  · simp [update_of_ne hj]

theorem node_put (h : a.Table) (hr : a.lookup id = r) (h0 : r ≠ 0) :
    (a.put r c).node = update a.node id (some c.toNode) := by
  funext j
  unfold node
  rw [comp_put h hr h0]
  by_cases hj : j = id
  · subst hj
    simp
  · simp [update_of_ne hj]

/-! ### Writing to a link -/

@[simp] theorem putLink_lookup : (a.putLink r l).lookup id = a.lookup id := rfl

@[simp] theorem putLink_links_self : (a.putLink r l).links r = some l := by simp [putLink]

theorem putLink_links_of_ne (h : k ≠ r) : (a.putLink r l).links k = a.links k := by
  simp [putLink, update_of_ne h]

/-! ### Applications with the same tree -/

/-- The applications differ only in links, in link fields of components in the table, and in
data. -/
structure SameTree (a a' : App δ) : Prop where
  self : a'.self = a.self
  comps : a'.comps = a.comps
  services : a'.services = a.services
  core : ∀ r, (a'.objs r).map Component.core = (a.objs r).map Component.core
  dead : ∀ r, (∀ id, a.lookup id ≠ r) → a'.objs r = a.objs r

namespace SameTree

theorem refl (a : App δ) : SameTree a a := ⟨rfl, rfl, rfl, fun _ => rfl, fun _ _ => rfl⟩

theorem lookup (h : SameTree a a') (id : ℕ) : a'.lookup id = a.lookup id := by
  rw [App.lookup, App.lookup, h.comps]

theorem trans {a'' : App δ} (h : SameTree a a') (h' : SameTree a' a'') : SameTree a a'' where
  self := h'.self.trans h.self
  comps := h'.comps.trans h.comps
  services := h'.services.trans h.services
  core r := (h'.core r).trans (h.core r)
  dead r hr := by
    rw [h'.dead r fun id => by rw [h.lookup]; exact hr id, h.dead r hr]

/-- A link field of a component in the table. -/
theorem put (hr : a.objs r = some c) (hid : a.lookup id = r) (hcore : c'.core = c.core) :
    SameTree a (a.put r c') where
  self := rfl
  comps := rfl
  services := rfl
  core r' := by
    by_cases h : r' = r
    · subst h
      simp [hr, hcore]
    · rw [put_objs_of_ne h]
  dead r' hr' := put_objs_of_ne fun h => hr' id (hid.trans h.symm)

theorem putLink (a : App δ) (r : Ref) (l : Link) : SameTree a (a.putLink r l) :=
  ⟨rfl, rfl, rfl, fun _ => rfl, fun _ _ => rfl⟩

theorem deleteLink (a : App δ) (r : Ref) : SameTree a (a.deleteLink r) :=
  ⟨rfl, rfl, rfl, fun _ => rfl, fun _ _ => rfl⟩

/-- Components keep everything but their link lists. -/
theorem objs_eq (h : SameTree a a') (hr : a.objs r = some c) :
    ∃ c', a'.objs r = some c' ∧ c'.core = c.core := by
  have hcore := h.core r
  rw [hr] at hcore
  obtain ⟨c', hc', heq⟩ := Option.map_eq_some_iff.mp hcore
  exact ⟨c', hc', heq⟩

theorem symm_objs (h : SameTree a a') (hr : a'.objs r = some c) :
    ∃ c', a.objs r = some c' ∧ c'.core = c.core := by
  have hcore := (h.core r).symm
  rw [hr] at hcore
  obtain ⟨c', hc', heq⟩ := Option.map_eq_some_iff.mp hcore
  exact ⟨c', hc', heq⟩

theorem table (h : SameTree a a') (ht : a.Table) : a'.Table where
  null := by
    have hcore := h.core 0
    rw [ht.null] at hcore
    simpa using hcore
  self := by rw [h.lookup, h.self, ht.self]
  self_ne := by rw [h.self]; exact ht.self_ne
  live id h0 := by
    rw [h.lookup] at h0 ⊢
    obtain ⟨c, hc, hid⟩ := ht.live id h0
    obtain ⟨c', hc', hcore⟩ := h.objs_eq hc
    exact ⟨c', hc', (congrArg (fun c => c.id) hcore).trans hid⟩

theorem node (h : SameTree a a') : a'.node = a.node := by
  funext id
  have hcore := h.core (a.lookup id)
  have hmap := congrArg (Option.map (fun c : Component => c.toNode)) hcore
  rw [Option.map_map, Option.map_map] at hmap
  unfold App.node App.comp
  rw [h.lookup]
  exact hmap

end SameTree

/-! ### Callbacks -/

/-- The applications differ at most in `data` and `running`, as after a callback. -/
def Fired (a a' : App δ) : Prop := ∃ d b, a' = { a with data := d, running := b }

namespace Fired

theorem refl (a : App δ) : Fired a a := ⟨a.data, a.running, rfl⟩

theorem trans {a'' : App δ} (h : Fired a a') (h' : Fired a' a'') : Fired a a'' := by
  obtain ⟨d, b, rfl⟩ := h
  obtain ⟨d', b', rfl⟩ := h'
  exact ⟨d', b', rfl⟩

theorem fire (cb : Callbacks δ) (e : Callback) (a : App δ) : Fired a (a.fire cb e) :=
  ⟨_, _, rfl⟩

theorem fireAll (cb : Callbacks δ) (es : List Callback) (a : App δ) :
    Fired a (a.fireAll cb es) := by
  induction es generalizing a with
  | nil => exact refl a
  | cons e es ih => exact (fire cb e a).trans (ih (a.fire cb e))

theorem whenRunning (cb : Callbacks δ) (es : List Callback) (a : App δ) :
    Fired a (a.whenRunning cb es) := by
  unfold App.whenRunning
  split
  · exact fireAll cb es a
  · exact refl a

theorem sameTree (h : Fired a a') : SameTree a a' := by
  obtain ⟨d, b, rfl⟩ := h
  exact ⟨rfl, rfl, rfl, fun _ => rfl, fun _ _ => rfl⟩

theorem links (h : Fired a a') : a'.links = a.links := by
  obtain ⟨d, b, rfl⟩ := h
  rfl

theorem objs (h : Fired a a') : a'.objs = a.objs := by
  obtain ⟨d, b, rfl⟩ := h
  rfl

end Fired

/-- Restoring the default value of a property is a callback too. -/
theorem restoreDefault_fired (cb : Callbacks δ) (toSlot : Fin 256) (hc : a.objs r = some c) :
    ∃ a', restoreDefault cb a r toSlot = some a' ∧ Fired a a' := by
  simp only [restoreDefault, hc, Option.bind_eq_bind, Option.bind_some]
  split
  · split
    · exact ⟨_, rfl, Fired.fire cb _ a⟩
    · exact ⟨a, rfl, Fired.refl a⟩
  · exact ⟨a, rfl, Fired.refl a⟩

end Views

end App

end Sedona
