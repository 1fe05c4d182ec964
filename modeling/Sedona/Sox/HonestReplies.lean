import Sedona.Sox.SiblingNames
import Sedona.Sox.TreeRequests

/-!
# Honest Replies

A request that changes the tree is answered with its command in capitals if the change has been
made in full, and with an error if nothing has changed: that is what the replies are to mean.
`addReq` and `renameReq` cut a name to seven characters and reply as if they had not; `reorderReq`
checks that what is listed is a child, but not that every child is listed, and once; and `linkReq`
replies with success to a command it does not know, and when the component that the new link is
to come from does not exist.

## Main results

* `answers`: what a request does to an application whose structure fits together.
* `requests_honest`: in every run of calls and requests that meet the condition, the next reply is
  honest exactly if its request meets the condition.
* `not_honest_unknownLink`: a request that is answered with success and changes nothing.
-/

namespace Sedona

open Function Fuel Decoding Transition Intrusive

/-! ### Loading properties -/

section Loading

variable {cb : Callbacks Props} {a b : App Props} {r : Ref}

theorem total_read : Total (InStream.read (m := Option)) fun _ => True := by
  intro s
  cases s with
  | nil => exact ⟨-1, [], rfl, trivial⟩
  | cons b s => exact ⟨b.setWidth 32, s, rfl, trivial⟩

theorem total_readU2 : Total (InStream.readU2 (m := Option)) fun _ => True := by
  refine total_read.bind fun a _ => total_read.bind fun b _ => ?_
  split <;> exact Total.pure trivial

theorem total_readS4 : Total (InStream.readS4 (m := Option)) fun _ => True := by
  refine total_read.bind fun a _ => total_read.bind fun b _ => total_read.bind fun c _ =>
    total_read.bind fun d _ => ?_
  split <;> exact Total.pure trivial

theorem total_readS8 : Total (InStream.readS8 (m := Option)) fun _ => True :=
  total_readS4.bind fun _ _ => total_readS4.bind fun _ _ => Total.pure trivial

theorem total_readBool : Total (InStream.readBool (m := Option)) fun _ => True := by
  refine total_read.bind fun x _ => ?_
  split <;> exact Total.pure trivial

theorem total_loadBuf (asStr : Bool) (buf : Buf) :
    Total (loadBuf (m := Option) asStr buf) fun _ => True := by
  refine total_readU2.bind fun size _ => ?_
  refine Total.bind (p := fun _ => True) (fun s => ⟨_, _, rfl, trivial⟩) fun bytes _ => ?_
  refine Total.bind (p := fun _ => True) (fun s => ⟨_, _, rfl, trivial⟩) fun _ _ => ?_
  exact Total.pure trivial

theorem total_loadValue (asStr : Bool) {t : SlotType} (old : Value t) :
    Total (loadValue (m := Option) asStr old) fun _ => True := by
  cases t with
  | void => exact Total.pure trivial
  | bool => exact total_readBool
  | byte => exact total_read.bind fun _ _ => Total.pure trivial
  | short => exact total_readU2.bind fun _ _ => Total.pure trivial
  | int | float => exact total_readS4
  | long | double => exact total_readS8
  | buf => exact total_loadBuf asStr old

theorem App.slotChanged_fired (slot : Slot) : App.Fired a (App.slotChanged cb r slot a) := by
  unfold App.slotChanged
  split
  · exact App.Fired.fire cb _ a
  · exact App.Fired.refl a

theorem App.store_fired (slot : Slot) (v : Value slot.type) : App.Fired a (a.store r slot v) :=
  ⟨_, _, rfl⟩

/-- Loading a property changes nothing but values. -/
theorem total_loadProp (slot : Slot) : Total (App.loadProp cb r a slot) (App.Fired a) := by
  refine (total_loadValue _ _).bind fun v _ => ?_
  split
  · exact Total.pure (App.Fired.refl a)
  split
  · exact Total.pure ((App.store_fired slot v).trans (App.slotChanged_fired slot))
  · refine Total.pure ?_
    unfold App.setValue
    split
    · exact App.Fired.refl a
    · exact (App.store_fired slot v).trans (App.slotChanged_fired slot)

theorem total_loadProps (filter : Char) (slots : List Slot) :
    Total (App.loadProps cb filter r slots a) (App.Fired a) := by
  unfold App.loadProps
  induction slots.filter (·.matchProp filter) generalizing a with
  | nil => exact Total.pure (App.Fired.refl a)
  | cons slot slots ih =>
      rw [List.foldlM_cons]
      refine (total_loadProp slot).bind fun b hb => ?_
      intro s
      obtain ⟨c, rest, hrun, hc⟩ := ih (a := b) s
      exact ⟨c, rest, hrun, hb.trans hc⟩

end Loading

namespace Sox

/-! ### What a reply promises -/

/-- The component with this id has the name, and nothing else changed. -/
structure Renamed {δ : Type} (a a' : App δ) (id : ℕ) (name : Str) : Prop where
  node : a'.node = update a.node id ((a.node id).map fun n => { n with name := name })
  links : a'.links = a.links

/-- The type that an `addReq` asks for. -/
def typeOf (kits : List Kit) (kitId typeId : ℤ) : Option CompType :=
  (kitAt kits kitId).bind fun kit => typeAt kit typeId

/-- The command of the reply that promises success. -/
def Request.success : Request → Char
  | .add .. => 'A'
  | .rename .. => 'N'
  | .reorder .. => 'O'
  | .delete .. => 'D'
  | .link .. => 'L'

/-- The change has been made as requested; `newId` is the id in the reply. -/
def Made (host : Host) (a a' : App Props) (newId : ℕ) : Request → Prop
  | .add parentId kitId typeId name _ => ∃ (pid : ℕ) (t : CompType) (n : Str), parentId = pid ∧
      typeOf host.kits kitId typeId = some t ∧ name = some n ∧ App.Added a a' pid newId t n
  | .rename compId name => ∃ (id : ℕ) (n : Str), compId = id ∧ name = some n ∧ Renamed a a' id n
  | .reorder compId ids => ∃ (pid : ℕ) (l : List ℕ), compId = pid ∧ ids = l.map (fun k : ℕ => (k : ℤ)) ∧
      App.Reordered a a' pid l
  | .delete compId => ∃ id : ℕ, compId = id ∧ App.SubtreeRemoved a a' id
  | .link command fromCompId fromSlotId toCompId toSlotId =>
      command = 'a'.toNat ∧ (∃ (src dst : ℕ) (f t : Component) (fromSlot toSlot : Slot),
        fromCompId = src ∧ toCompId = dst ∧ a.comp src = some f ∧ a.comp dst = some t ∧
          slotAt f.type fromSlotId = some fromSlot ∧ slotAt t.type toSlotId = some toSlot ∧
          App.LinkAdded a a' (Link.mk src fromSlot.id dst toSlot.id 0 0)) ∨
      command = 'd'.toNat ∧ ∃ x : Link, (x.fromComp : ℤ) = fromCompId ∧
        (x.fromSlot.val : ℤ) = fromSlotId ∧ (x.toComp : ℤ) = toCompId ∧
        (x.toSlot.val : ℤ) = toSlotId ∧ App.LinkRemoved a a' x.core

variable (host : Host) (memory : Memory) (user : Permissions) (a : App Props)

/-- The component `c` has the id, and the user may write it. -/
def Granted (compId : ℤ) (id : ℕ) (c : Component) : Prop :=
  compId = id ∧ a.comp id = some c ∧ grants host user a (a.lookup id) c Permissions.aw = true

/-- The condition on a request under which its reply is honest. -/
def KeepsWord : Request → Prop
  | .add parentId kitId typeId name _ => ∀ (pid : ℕ) (p : Component) (t : CompType) (n : Str),
      Granted host user a parentId pid p → typeOf host.kits kitId typeId = some t →
      t.isPrimitive = false → name = some n → a.Addable memory.ok memory.comp pid n →
      n.length < App.nameLen
  | .rename compId name => ∀ (id : ℕ) (c : Component) (n : Str), Granted host user a compId id c →
      name = some n → n.length < App.nameLen
  | .reorder compId ids => ∀ (pid : ℕ) (p : Component) (l : List ℕ),
      Granted host user a compId pid p → ids = l.map (fun k : ℕ => (k : ℤ)) →
      (∀ k ∈ l, IsKid a.node pid k) → a.ListsChildren pid l
  | .delete _ => True
  | .link command fromCompId _ toCompId _ => ∀ (id : ℕ) (t : Component),
      Granted host user a toCompId id t →
      command = 'a'.toNat ∧ a.find fromCompId ≠ 0 ∨ command = 'd'.toNat

/-- Success is reported only if the change has been made as requested, and an error only if nothing
has changed. -/
def Honest (req : Request) : Prop :=
  ∀ res res' a', Returns (fun fuel => req.handle host memory user fuel a res) (res', a') →
    (res'.cmd = req.success → Made host a a' res'.u2Data1 req) ∧
      (res'.cmd = '!' → App.Unchanged a a')

/-- What the environment guarantees about memory: it is not in use, and there is room for an id
that is less than `nullId`. -/
structure Memory.Fits : Prop where
  comp : memory.comp = 0 ∨ a.objs memory.comp = none
  link : a.links memory.link = none
  count : a.count < nullId

/-- The ways a request can be answered: an error and no change; success, and the change is the one
that is requested exactly if `kept`; or no answer at all. -/
inductive Answers {a : App Props} (host : Host) (req : Request)
    (run : ℕ → Option (SendPacket × App Props)) (kept : Prop) : Prop
  | refused (res' : SendPacket) (a' : App Props) (hrun : Returns run (res', a'))
      (hcmd : res'.cmd = '!') (hsame : App.Unchanged a a') (hinv : a'.Inv) (hkept : kept)
  | done (res' : SendPacket) (a' : App Props) (hrun : Returns run (res', a'))
      (hcmd : res'.cmd = req.success) (hmade : Made host a a' res'.u2Data1 req ↔ kept)
      (hinv : kept → a'.Inv)
  | faults (hrun : ∀ x, ¬ Returns run x) (hkept : kept)

variable {host memory user a} {req : Request} {res : SendPacket}

theorem success_ne_error (req : Request) : req.success ≠ '!' := by
  cases req <;> simp [Request.success]

/-- If every request is answered in one of these ways, the replies are honest exactly if `kept`. -/
theorem honest_iff_of_answers {kept : Prop} (h : ∀ res, Answers (a := a) host req
    (fun fuel => req.handle host memory user fuel a res) kept) :
    Honest host memory user a req ↔ kept := by
  constructor
  · intro hhonest
    cases h { cmd := '!' } with
    | refused _ _ _ _ _ _ hkept => exact hkept
    | faults _ hkept => exact hkept
    | done _ _ hrun hcmd hmade _ => exact hmade.mp ((hhonest _ _ _ hrun).1 hcmd)
  · intro hkept res res' a' hrun'
    cases h res with
    | refused _ _ hrun hcmd hsame =>
        obtain ⟨rfl, rfl⟩ := Prod.mk.inj (hrun'.unique hrun)
        exact ⟨fun hsucc => absurd (hsucc.symm.trans hcmd) (success_ne_error req), fun _ => hsame⟩
    | done _ _ hrun hcmd hmade =>
        obtain ⟨rfl, rfl⟩ := Prod.mk.inj (hrun'.unique hrun)
        exact ⟨fun _ => hmade.mpr hkept,
          fun herr => absurd (hcmd.symm.trans herr) (success_ne_error req)⟩
    | faults hrun => exact absurd hrun' (hrun _)

/-! ### Looking a component up -/

theorem find_natCast (k : ℕ) : a.find (k : ℤ) = a.lookup k := by
  simp [App.find]

theorem find_ne {id : ℤ} (h : a.Inv) (h0 : a.find id ≠ 0) :
    ∃ (k : ℕ) (c : Component), id = k ∧ a.comp k = some c := by
  unfold App.find at h0
  split at h0
  · exact absurd rfl h0
  · rename_i hneg
    obtain ⟨c, hc, -⟩ := h.table.exists_comp h0
    exact ⟨id.toNat, c, (Int.toNat_of_nonneg (not_lt.mp hneg)).symm, hc⟩

/-- **The checks at the beginning** of a handler. -/
theorem Answers.checked {compId : ℤ} {kept : Prop}
    {body : ℕ → Ref → Component → Option (SendPacket × App Props)} (h : a.Inv)
    (hnone : (∀ id c, ¬ Granted host user a compId id c) → kept)
    (hbody : ∀ id c, Granted host user a compId id c →
      Answers (a := a) host req (fun fuel => body fuel (a.lookup id) c) kept) :
    Answers (a := a) host req (fun fuel => Sox.checked host user a res compId (body fuel)) kept := by
  by_cases h0 : a.find compId = 0
  · refine .refused (res.error "bad compId") a ⟨0, fun fuel _ => ?_⟩ rfl
      (App.Unchanged.refl a) h (hnone ?_)
    · simp [Sox.checked, h0]
    · rintro id c ⟨rfl, hc, -⟩
      exact h.table.lookup_ne hc ((find_natCast id).symm.trans h0)
  obtain ⟨k, c, rfl, hc⟩ := find_ne h h0
  rw [find_natCast] at h0
  have hobj : a.objs (a.lookup k) = some c := hc
  by_cases hgrants : grants host user a (a.lookup k) c Permissions.aw = true
  · have hrun : ∀ fuel, Sox.checked host user a res k (body fuel) = body fuel (a.lookup k) c := by
      intro fuel
      simp [Sox.checked, find_natCast, h0, hobj, hgrants]
    simp only [hrun]
    exact hbody k c ⟨rfl, hc, hgrants⟩
  · refine .refused (res.error "denied") a ⟨0, fun fuel _ => ?_⟩ rfl
      (App.Unchanged.refl a) h (hnone ?_)
    · simp [Sox.checked, find_natCast, h0, hobj, hgrants]
    · rintro id c' ⟨hid, hc', hgrants'⟩
      obtain rfl : k = id := by exact_mod_cast hid
      obtain rfl := Option.some.inj (hc.symm.trans hc')
      exact hgrants hgrants'

/-! ### Renaming and deleting -/

theorem take_nameLen_eq {n : Str} : n.take (App.nameLen - 1) = n ↔ n.length < App.nameLen := by
  rw [List.take_eq_self_iff]
  exact Nat.le_sub_one_iff_lt (by decide)

theorem renameReq_answers (h : a.Inv) (compId : ℤ) (name : Option Str) :
    Answers (a := a) host (.rename compId name)
      (fun _ => renameReq host user a res compId name)
      (KeepsWord host memory user a (.rename compId name)) := by
  refine Answers.checked h (fun hnone id c _ hg => absurd hg (hnone id c)) fun id c hg => ?_
  have hobj : a.objs (a.lookup id) = some c := hg.2.1
  cases name with
  | none =>
      refine .faults (fun x hx => ?_) fun _ _ _ _ hname => absurd hname (by simp)
      obtain ⟨n, hn⟩ := hx
      exact absurd (hn n le_rfl) (by simp)
  | some n =>
      set cut := n.take (App.nameLen - 1) with hcut
      set a₁ := a.put (a.lookup id) { c with name := cut } with ha₁
      set a' := a₁.fire host.cb (.fireTreeChanged (a.lookup id)) with ha'
      have hfired : App.Fired a₁ a' := App.Fired.fire _ _ _
      have hnode : a'.node = update a.node id (some { c.toNode with name := cut }) := by
        rw [hfired.sameTree.node, ha₁, App.node_put h.table rfl (h.table.lookup_ne hg.2.1)]
      have hold : a.node id = some c.toNode := App.node_eq_some.mpr ⟨c, hg.2.1, rfl⟩
      refine .done { res with cmd := 'N' } a' ⟨0, fun fuel _ => ?_⟩ rfl ?_ fun _ =>
        (h.rename hg.2.1 cut).fired hfired
      · simp only [App.write_eq hobj, Option.bind_eq_bind, Option.bind_some]
        rfl
      · constructor
        · rintro ⟨k, m, hk, hm, hrenamed⟩ k' c' m' hg' hm'
          obtain rfl := Option.some.inj (hm.symm.trans hm')
          obtain rfl := Option.some.inj hm
          obtain rfl : k = id := by exact_mod_cast hk.symm.trans hg.1
          have hself := congrFun (hnode.symm.trans hrenamed.node) k
          rw [update_self, update_self, hold] at hself
          have hname : cut = n := congrArg Node.name (Option.some.inj hself)
          exact take_nameLen_eq.mp hname
        · intro hkept
          have hname : cut = n := take_nameLen_eq.mpr (hkept id c n hg rfl)
          refine ⟨id, n, hg.1, rfl, ?_, hfired.links⟩
          rw [hnode, hold, hname]
          rfl

theorem deleteReq_answers (h : a.Inv) (compId : ℤ) :
    Answers (a := a) host (.delete compId)
      (fun fuel => deleteReq host user fuel a res compId)
      (KeepsWord host memory user a (.delete compId)) := by
  refine Answers.checked h (fun _ => trivial) fun id c hg => ?_
  obtain ⟨b, a', ⟨n, hn⟩, hinv, hb⟩ := h.remove_spec host.cb (h.table.lookup_ne hg.2.1)
  rcases hb with ⟨rfl, rfl⟩ | ⟨rfl, hremoved⟩
  · refine .refused (res.error "app.remove") a' ⟨n, fun fuel hfuel => ?_⟩ rfl
      (App.Unchanged.refl a') hinv trivial
    simp [hn fuel hfuel]
  · refine .done { res with cmd := 'D' } a' ⟨n, fun fuel hfuel => ?_⟩ rfl ?_ fun _ => hinv
    · simp [hn fuel hfuel]
    · exact iff_of_true ⟨id, hg.1, hremoved⟩ trivial

/-! ### Reordering -/

/-- What the check of the children leaves: a list of ids of children. -/
theorem exists_children {ids : List ℤ} {p : Component} (h : a.Inv)
    (hids : (ids.all fun id => a.find id != 0 &&
      (a.objs (a.find id)).any (·.parent == p.id)) = true) :
    ∃ l : List ℕ, ids = l.map (fun k : ℕ => (k : ℤ)) ∧ ∀ k ∈ l, IsKid a.node p.id k := by
  induction ids with
  | nil => exact ⟨[], rfl, by simp⟩
  | cons id ids ih =>
      rw [List.all_cons, Bool.and_eq_true] at hids
      obtain ⟨l, rfl, hl⟩ := ih hids.2
      have hid := hids.1
      rw [Bool.and_eq_true, bne_iff_ne] at hid
      obtain ⟨k, c, rfl, hc⟩ := find_ne h hid.1
      have hpar := hid.2
      rw [find_natCast, show a.objs (a.lookup k) = some c from hc] at hpar
      refine ⟨k :: l, rfl, fun j hj => ?_⟩
      rcases List.mem_cons.mp hj with rfl | hj
      · exact ⟨c.toNode, App.node_eq_some.mpr ⟨c, hc, rfl⟩, by simpa using hpar⟩
      · exact hl j hj

theorem all_children {l : List ℕ} {p : Component} (h : a.Inv)
    (hl : ∀ k ∈ l, IsKid a.node p.id k) :
    ((l.map fun k : ℕ => (k : ℤ)).all fun id => a.find id != 0 &&
      (a.objs (a.find id)).any (·.parent == p.id)) = true := by
  rw [List.all_map, List.all_eq_true]
  intro k hk
  obtain ⟨m, hm, hpar⟩ := hl k hk
  obtain ⟨c, hc, rfl⟩ := App.node_eq_some.mp hm
  simp [find_natCast, h.table.lookup_ne hc, show a.objs (a.lookup k) = some c from hc, hpar]

theorem map_natCast_inj {l l' : List ℕ} (h : l.map (fun k : ℕ => (k : ℤ)) = l'.map fun k : ℕ => (k : ℤ)) :
    l = l' :=
  List.map_injective_iff.mpr Int.ofNat_injective h

theorem reorderReq_answers (h : a.Inv) (compId : ℤ) (ids : List ℤ) :
    Answers (a := a) host (.reorder compId ids)
      (fun _ => reorderReq host user a res compId ids)
      (KeepsWord host memory user a (.reorder compId ids)) := by
  refine Answers.checked h (fun hnone id c _ hg => absurd hg (hnone id c)) fun id c hg => ?_
  have hobj : a.objs (a.lookup id) = some c := hg.2.1
  have hid : c.id = id := h.table.comp_id hg.2.1
  have hkey : ∀ {k : ℕ}, compId = k → k = id := fun hk => by exact_mod_cast hk.symm.trans hg.1
  by_cases hall : (ids.all fun id => a.find id != 0 &&
      (a.objs (a.find id)).any (·.parent == c.id)) = true
  swap
  · refine .refused (res.error "bad childId") a ⟨0, fun fuel _ => ?_⟩ rfl
      (App.Unchanged.refl a) h fun k p l hg' hl hkids => ?_
    · simp only [hall, Bool.not_false, if_true]
    · obtain rfl := hkey hg'.1
      exact absurd (hl ▸ all_children h fun j hj => hid ▸ hkids j hj) hall
  obtain ⟨l, rfl, hl⟩ := exists_children h hall
  rw [hid] at hl
  have hlive : ∀ k ∈ l, (a.comp k).isSome := by
    intro k hk
    obtain ⟨m, hm, -⟩ := hl k hk
    obtain ⟨d, hd, -⟩ := App.node_eq_some.mp hm
    exact Option.isSome_of_eq_some hd
  obtain ⟨b, hb⟩ := App.thread_returns (hobj ▸ rfl : (a.objs (a.lookup id)).isSome)
    (fun h0 => absurd rfl h0 : (0 : Ref) ≠ 0 → (a.objs 0).isSome) hlive
  set a' := (b.fire host.cb (.reordered (a.lookup id))).fire host.cb
    (.fireTreeChanged (a.lookup id)) with ha'
  have hfaces : App.SameFaces a a' := (App.thread_faces hb).trans (App.SameFaces.fired
    ((App.Fired.fire _ _ _).trans (App.Fired.fire _ _ _)))
  -- behind the permission check it is the command of the application
  have hcommand : App.reorderReq host.cb a id l = some a' := by
    have hkids : a.areChildren c.id l = true := by
      rw [App.areChildren, List.all_eq_true]
      intro k hk
      obtain ⟨m, hm, hpar⟩ := hl k hk
      obtain ⟨d, hd, rfl⟩ := App.node_eq_some.mp hm
      simp [hd, hid, hpar]
    simp only [App.reorderReq, if_neg (h.table.lookup_ne hg.2.1), hobj, hkids, hb,
      Option.bind_eq_bind, Option.bind_some, Bool.not_true, Bool.false_eq_true, if_false, ha']
  have hlists : a.ListsChildren id l → a'.Inv ∧ App.Reordered a a' id l := by
    intro hlists
    obtain ⟨a'', hrun, hinv, hreordered⟩ := h.reorderReq_spec host.cb hg.2.1 hlists
    obtain rfl := Option.some.inj (hcommand.symm.trans hrun)
    exact ⟨hinv, hreordered⟩
  refine .done { res with cmd := 'O' } a' ⟨0, fun fuel _ => ?_⟩ rfl ?_ fun hkept =>
    (hlists (hkept id c l hg rfl hl)).1
  · have htoNat : (l.map fun k : ℕ => (k : ℤ)).map Int.toNat = l := by
      rw [List.map_map]
      exact List.map_id l
    simp only [hall, htoNat, hb, Bool.not_true, Bool.false_eq_true, if_false,
      Option.bind_eq_bind, Option.bind_some, ha']
  · constructor
    · rintro ⟨k, l', hk, hl', hreordered⟩ k' p l'' hg' hl'' -
      obtain rfl := map_natCast_inj hl'
      obtain rfl := map_natCast_inj hl''
      obtain rfl := hkey hk
      obtain rfl := hkey hg'.1
      have hkids := hreordered.kids
      refine ⟨?_, fun j => hkids.mem.trans hfaces.isKid⟩
      obtain ⟨n, -, hn⟩ := hkids
      exact hn.chain.nodup
    · intro hkept
      exact ⟨id, l, hg.1, rfl, (hlists (hkept id c l hg rfl hl)).2⟩

/-! ### Adding a component -/

theorem addReq_answers (h : a.Inv) (hm : memory.Fits a) (parentId kitId typeId : ℤ)
    (name : Option Str) (props : List (BitVec 8)) :
    Answers (a := a) host (.add parentId kitId typeId name props)
      (fun fuel => addReq host memory user fuel a res parentId kitId typeId name props)
      (KeepsWord host memory user a (.add parentId kitId typeId name props)) := by
  refine Answers.checked h (fun hnone id c _ _ hg => absurd hg (hnone id c)) fun id p hg => ?_
  have hkey : ∀ {k : ℕ}, parentId = k → k = id := fun hk => by exact_mod_cast hk.symm.trans hg.1
  have htype : ((kitAt host.kits kitId).bind fun kit => typeAt kit typeId) =
      typeOf host.kits kitId typeId := rfl
  by_cases hbad : ((kitAt host.kits kitId).isSome &&
      (typeOf host.kits kitId typeId).all (·.isPrimitive)) = true
  · refine .refused (res.error "bad type") a ⟨0, fun fuel _ => ?_⟩ rfl
      (App.Unchanged.refl a) h fun _ _ t _ _ ht hprim _ _ => ?_
    · simp only [htype, hbad, if_true]
    · rw [ht, Bool.and_eq_true, Option.all_some, hprim] at hbad
      exact absurd hbad.2 (by simp)
  have hnone : (name = none ∨ typeOf host.kits kitId typeId = none) →
      Answers (a := a) host (.add parentId kitId typeId name props)
        (fun _ => some (res.error "app.add", a))
        (KeepsWord host memory user a (.add parentId kitId typeId name props)) := by
    intro hnone
    refine .refused (res.error "app.add") a (returns_const rfl) rfl (App.Unchanged.refl a) h
      fun _ _ t n _ ht _ hn _ => ?_
    rcases hnone with hname | htype
    · exact absurd (hname.symm.trans hn) (by simp)
    · exact absurd (htype.symm.trans ht) (by simp)
  simp only [htype, hbad, Bool.false_eq_true, if_false]
  cases hname : name with
  | none =>
      have hans := hnone (Or.inl hname)
      rw [hname] at hans
      simpa using hans
  | some n =>
  cases ht : typeOf host.kits kitId typeId with
  | none =>
      have hans := hnone (Or.inr ht)
      rw [hname] at hans
      simpa using hans
  | some t =>
  have hprim : t.isPrimitive = false := by
    have hkit : (kitAt host.kits kitId).isSome := by
      cases hkit : kitAt host.kits kitId with
      | none => simp [typeOf, hkit] at ht
      | some kit => rfl
    simpa [ht, hkit] using hbad
  obtain ⟨r, a₁, ⟨m, hrun⟩, hinv₁, hr⟩ :=
    h.add_spec host.cb memory.ok n t hg.2.1 hm.comp hm.count
  rcases hr with ⟨rfl, hnot, hsame⟩ | ⟨rfl, haddable, k, hk, hadded⟩
  · refine .refused (res.error "app.add") a₁ ⟨m, fun fuel hfuel => ?_⟩ rfl hsame hinv₁
      fun pid _ _ n' hg' _ _ hn' hadd => ?_
    · simp [hrun fuel hfuel]
    · obtain rfl := Option.some.inj hn'
      obtain rfl := hkey hg'.1
      exact absurd hadd hnot
  -- the new component
  obtain ⟨c, hc, hck, hct⟩ : ∃ c, a₁.comp k = some c ∧ c.id = k ∧ c.type = t := by
    obtain ⟨m', hm', hface⟩ := Option.map_eq_some_iff.mp hadded.face
    obtain ⟨c, hc, rfl⟩ := App.node_eq_some.mp hm'
    exact ⟨c, hc, congrArg (fun f => f.2.1) hface, congrArg (fun f => f.1) hface⟩
  have hobj : a₁.objs memory.comp = some c := hk ▸ hc
  obtain ⟨a', rest, hprops, hfired⟩ : ∃ a' rest, (App.loadProps host.cb 'c' memory.comp
      c.type.slots a₁).run props = some (a', rest) ∧ App.Fired a₁ a' :=
    total_loadProps 'c' c.type.slots props
  have hobj' : a'.objs memory.comp = some c := by rw [hfired.objs, hobj]
  refine .done { res with cmd := 'A', u2Data1 := c.id } a' ⟨m, fun fuel hfuel => ?_⟩ rfl ?_
    fun _ => hinv₁.fired hfired
  · simp only [hrun fuel hfuel, Option.bind_eq_bind, Option.bind_some, if_neg haddable.memory,
      hobj, hprops, hobj']
  · have hadded' := hadded.fired hfired
    constructor
    · rintro ⟨pid, t', n', hpid, ht', hn', hmade⟩ pid' p' t'' n'' hg' ht'' - hn'' -
      obtain rfl := Option.some.inj hn'
      obtain rfl := Option.some.inj hn''
      have hface := hmade.face
      rw [hck, hadded'.face] at hface
      have hcut := congrArg (fun f : CompType × ℕ × Str × ℕ => f.2.2.1) (Option.some.inj hface)
      exact take_nameLen_eq.mp hcut
    · intro hkept
      have hcut := take_nameLen_eq.mpr (hkept id p t n hg ht hprim rfl haddable)
      rw [hcut] at hadded'
      exact ⟨id, t, n, hg.1, ht, rfl, hck.symm ▸ hadded'⟩

/-! ### Links -/

theorem findLink_spec (h : a.Inv) {dst : ℕ} {t : Component} (ht : a.comp dst = some t)
    (fromComp fromSlot toSlot : ℤ) :
    ∃ r, Returns (fun fuel => a.findLink fuel fromComp fromSlot dst toSlot) r ∧
      (r = 0 ∨ ∃ x, a.links r = some x ∧ (x.fromComp : ℤ) = fromComp ∧
        (x.fromSlot.val : ℤ) = fromSlot ∧ x.toComp = dst ∧ (x.toSlot.val : ℤ) = toSlot) := by
  have hobj : a.objs (a.lookup dst) = some t := ht
  obtain ⟨l, hchain, hmem⟩ := h.links.lists .into dst t.linksTo
    (show a.headOn .into dst = some t.linksTo by simp [App.headOn, ht, Side.head])
  obtain ⟨r, hwalk, hends⟩ := App.linkWhere_spec hchain fun x =>
    decide ((x.toSlot.val : ℤ) = toSlot) && decide ((x.fromComp : ℤ) = fromComp) &&
      decide ((x.fromSlot.val : ℤ) = fromSlot)
  refine ⟨r, ⟨l.length + 1, fun fuel hfuel => ?_⟩, ?_⟩
  · simp only [App.findLink, find_natCast, if_neg (h.table.lookup_ne ht), hobj,
      Option.bind_eq_bind, Option.bind_some]
    exact hwalk fuel hfuel
  · cases hends with
    | atEnd hr _ => exact Or.inl hr
    | atNode l₁ l₂ x hl hx hstop _ =>
        have hown := (hmem r).mp (by simp [hl])
        rw [App.ownOn_eq hx] at hown
        simp only [Bool.and_eq_true, decide_eq_true_eq] at hstop
        exact Or.inr ⟨x, hx, hstop.1.2, hstop.2, Option.some.inj hown, hstop.1.1⟩

/-- The request to add a link between two components. -/
theorem addLink_answers {run : ℕ → Option (SendPacket × App Props)} {kept : Prop} (h : a.Inv)
    (hm : memory.Fits a) {src dst : ℕ} {f t : Component} (hf : a.comp src = some f)
    (ht : a.comp dst = some t) {fromSlot toSlot : ℤ} {fs ts : Slot}
    (hfs : slotAt f.type fromSlot = some fs) (hts : slotAt t.type toSlot = some ts)
    (hrun : ∀ fuel, run fuel = (App.addLink host.cb fuel a memory.link (a.lookup src) fs
      (a.lookup dst) ts).bind fun x => if x.1 = 0 then
        some (res.error "could not add link", x.2) else some ({ res with cmd := 'L' }, x.2))
    (hkept : kept) :
    Answers (a := a) host (.link 'a'.toNat src fromSlot dst toSlot) run kept := by
  by_cases hnull : memory.link = 0
  · -- without memory the code faults, unless it refuses the link before
    by_cases hreturns : ∃ x, Returns run x
    · obtain ⟨x, n, hn⟩ := hreturns
      obtain ⟨⟨r, a'⟩, hadd, hx⟩ := Option.bind_eq_some_iff.mp ((hrun n).symm.trans (hn n le_rfl))
      rw [hnull] at hadd
      obtain ⟨rfl, rfl⟩ := App.addLink_null hadd
      obtain rfl := Option.some.inj hx
      exact .refused _ a' ⟨n, hn⟩ rfl (App.Unchanged.refl a') h hkept
    · exact .faults (fun x hx => hreturns ⟨x, hx⟩) hkept
  obtain ⟨r, a', ⟨n, hn⟩, hinv, hr⟩ := h.addLink_spec host.cb hf ht fs ts hnull hm.link
  rcases hr with ⟨rfl, rfl⟩ | ⟨rfl, hadded⟩
  · refine .refused (res.error "could not add link") a' ⟨n, fun fuel hfuel => ?_⟩ rfl
      (App.Unchanged.refl a') h hkept
    simp only [hrun, hn fuel hfuel, Option.bind_some, if_true]
  · refine .done { res with cmd := 'L' } a' ⟨n, fun fuel hfuel => ?_⟩ rfl
      (iff_of_true (Or.inl ⟨rfl, src, dst, f, t, fs, ts, rfl, rfl, hf, ht, hfs, hts, hadded⟩) hkept)
      fun _ => hinv
    simp only [hrun, hn fuel hfuel, Option.bind_some, if_neg hnull]

/-- The request to remove a link. -/
theorem removeLink_answers {run : ℕ → Option (SendPacket × App Props)} {kept : Prop} (h : a.Inv)
    {dst : ℕ} {t : Component} (ht : a.comp dst = some t) {fromComp fromSlot toSlot : ℤ}
    (hrun : ∀ fuel, run fuel = (a.findLink fuel fromComp fromSlot dst toSlot).bind fun link =>
      if link = 0 then some (res.error "could not find link", a)
      else (App.removeLink host.cb fuel a link).bind fun x => if !x.1 then
        some (res.error "could not delete link", x.2) else some ({ res with cmd := 'L' }, x.2))
    (hkept : kept) :
    Answers (a := a) host (.link 'd'.toNat fromComp fromSlot dst toSlot) run kept := by
  obtain ⟨r, ⟨n, hn⟩, hr⟩ := findLink_spec h ht fromComp fromSlot toSlot
  by_cases h0 : r = 0
  · refine .refused (res.error "could not find link") a ⟨n, fun fuel hfuel => ?_⟩ rfl
      (App.Unchanged.refl a) h hkept
    simp only [hrun, hn fuel hfuel, Option.bind_some, if_pos h0]
  · obtain ⟨x, hx, hfrom, hfs, hto, hts⟩ := hr.resolve_left h0
    obtain ⟨a', ⟨m, hm⟩, hinv, hremoved⟩ := h.removeLink_spec host.cb hx
    refine .done { res with cmd := 'L' } a' ⟨max n m, fun fuel hfuel => ?_⟩ rfl
      (iff_of_true (Or.inr ⟨rfl, x, hfrom, hfs, by exact_mod_cast hto, hts, hremoved⟩) hkept)
      fun _ => hinv
    simp only [hrun, hn fuel (le_trans (le_max_left n m) hfuel), Option.bind_some, if_neg h0,
      hm fuel (le_trans (le_max_right n m) hfuel), Bool.not_true, Bool.false_eq_true, if_false]

/-- Success is reported although nothing was done: no change can be the one that was requested. -/
theorem not_made_link {command fromComp fromSlot toComp toSlot : ℤ} {newId : ℕ} {a' : App Props}
    (h : a.Inv) (hadd : command = 'a'.toNat → a.find fromComp = 0) (hdel : command ≠ 'd'.toNat) :
    ¬ Made host a a' newId (.link command fromComp fromSlot toComp toSlot) := by
  rintro (⟨hcmd, src, _, _, _, _, _, rfl, -, hf, -⟩ | ⟨hcmd, -⟩)
  · exact h.table.lookup_ne hf ((find_natCast src).symm.trans (hadd hcmd))
  · exact hdel hcmd

theorem linkReq_answers (h : a.Inv) (hm : memory.Fits a)
    (command fromCompId fromSlotId toCompId toSlotId : ℤ) :
    Answers (a := a) host (.link command fromCompId fromSlotId toCompId toSlotId)
      (fun fuel => linkReq host memory user fuel a res command fromCompId fromSlotId toCompId
        toSlotId)
      (KeepsWord host memory user a (.link command fromCompId fromSlotId toCompId toSlotId)) := by
  refine Answers.checked h (fun hnone id c hg => absurd hg (hnone id c)) fun id t hg => ?_
  have hgranted := hg
  obtain ⟨rfl, ht, -⟩ := hgranted
  have hnothing : (command = 'a'.toNat → a.find fromCompId = 0) → command ≠ 'd'.toNat →
      Answers (a := a) host (.link command fromCompId fromSlotId id toSlotId)
        (fun _ => some ({ res with cmd := 'L' }, a))
        (KeepsWord host memory user a (.link command fromCompId fromSlotId id toSlotId)) := by
    intro hadd hdel
    have hnot : ¬ KeepsWord host memory user a
        (.link command fromCompId fromSlotId id toSlotId) := by
      intro hkept
      rcases hkept id t hg with ⟨hcmd, hfrom⟩ | hcmd
      · exact hfrom (hadd hcmd)
      · exact hdel hcmd
    exact .done { res with cmd := 'L' } a (returns_const rfl) rfl
      (iff_of_false (not_made_link h hadd hdel) hnot) fun _ => h
  by_cases hadd : command = 'a'.toNat
  · by_cases hdel : command = 'd'.toNat
    · exact absurd (hadd.symm.trans hdel) (by decide)
    subst hadd
    by_cases h0 : a.find fromCompId = 0
    · simpa only [if_true, h0, ne_eq, not_true_eq_false, if_false] using
        hnothing (fun _ => h0) hdel
    have hkept : KeepsWord host memory user a
        (.link 'a'.toNat fromCompId fromSlotId id toSlotId) := fun _ _ _ => Or.inl ⟨rfl, h0⟩
    have hrefused : ∀ cause, Answers (a := a) host
        (.link 'a'.toNat fromCompId fromSlotId id toSlotId)
        (fun _ => some (res.error cause, a)) (KeepsWord host memory user a
          (.link 'a'.toNat fromCompId fromSlotId id toSlotId)) := fun cause =>
      .refused (res.error cause) a (returns_const rfl) rfl (App.Unchanged.refl a) h hkept
    obtain ⟨src, f, rfl, hf⟩ := find_ne h h0
    have hobj : a.objs (a.lookup src) = some f := hf
    have hsrc : a.lookup src ≠ 0 := h.table.lookup_ne hf
    simp only [if_true, find_natCast, ne_eq, hsrc, not_false_eq_true, hobj, Option.bind_eq_bind,
      Option.bind_some]
    by_cases hgrants : grants host user a (a.lookup src) f Permissions.ar = true
    swap
    · simpa only [hgrants, Bool.not_false, if_true] using hrefused "denied"
    simp only [hgrants, Bool.not_true, Bool.false_eq_true, if_false]
    cases hfs : slotAt f.type fromSlotId with
    | none => exact hrefused "could not add link"
    | some fs =>
        cases hts : slotAt t.type toSlotId with
        | none => exact hrefused "could not add link"
        | some ts => exact addLink_answers h hm hf ht hfs hts (fun _ => rfl) hkept
  · simp only [if_neg hadd]
    by_cases hdel : command = 'd'.toNat
    · subst hdel
      simp only [if_true]
      exact removeLink_answers h ht (fun _ => rfl) fun _ _ _ => Or.inr rfl
    · simpa only [if_neg hdel] using hnothing (fun hcmd => absurd hcmd hadd) hdel

/-- **What a request does** to an application whose structure fits together. -/
theorem answers (h : a.Inv) (hm : memory.Fits a) (req : Request) (res : SendPacket) :
    Answers (a := a) host req (fun fuel => req.handle host memory user fuel a res)
      (KeepsWord host memory user a req) := by
  cases req with
  | add parentId kitId typeId name props =>
      exact addReq_answers h hm parentId kitId typeId name props
  | rename compId name => exact renameReq_answers h compId name
  | reorder compId ids => exact reorderReq_answers h compId ids
  | delete compId => exact deleteReq_answers h compId
  | link command fromCompId fromSlotId toCompId toSlotId =>
      exact linkReq_answers h hm command fromCompId fromSlotId toCompId toSlotId

/-! ### Runs -/

/-- What may happen to the application of a device: it is edited, an app file is loaded, or a
request is served. -/
inductive ServiceEvent where
  | call (c : Call Props)
  | load (saved : App Props)
  | request (memory : Memory) (user : Permissions) (cmd : Command) (stream : BufInStream)

/-- All runs of a device. -/
def serving (host : Host) : System (App Props) ServiceEvent where
  init := App.Fresh
  step a e a' :=
    match e with
    | .call c => (App.editing host.cb).step a c a'
    | .load saved => App.Loads host.cb saved a a'
    | .request memory user cmd stream => memory.Fits a ∧
        ∃ res res', Returns (fun fuel => serve host memory user fuel a res cmd stream) (res', a')

/-- The condition on an event. -/
def ServiceEvent.KeepsWord (host : Host) (a : App Props) : ServiceEvent → Prop
  | .request memory user cmd stream => Sox.KeepsWord host memory user a (cmd.request stream)
  | _ => True

/-- Before the application is initialised every request is refused. -/
theorem handle_of_fresh (h : a.Fresh) (fuel : ℕ) :
    req.handle host memory user fuel a res = some (res.error "bad compId", a) := by
  have hfind : ∀ id, a.find id = 0 := by
    intro id
    unfold App.find
    split
    · rfl
    · exact h.lookup _
  cases req <;> simp only [Request.handle, addReq, renameReq, reorderReq, deleteReq, linkReq,
    Sox.checked, hfind, if_true]

theorem keepsWord_of_fresh (h : a.Fresh) : KeepsWord host memory user a req := by
  have hnone : ∀ compId id c, ¬ Granted host user a compId id c := by
    rintro compId id c ⟨-, hc, -⟩
    rw [App.comp, h.lookup, h.null] at hc
    exact absurd hc (by simp)
  cases req with
  | add => exact fun _ _ _ _ hg => absurd hg (hnone _ _ _)
  | rename => exact fun _ _ _ hg => absurd hg (hnone _ _ _)
  | reorder => exact fun _ _ _ hg => absurd hg (hnone _ _ _)
  | delete => trivial
  | link => exact fun _ _ hg => absurd hg (hnone _ _ _)

/-- **One event** that meets the condition keeps the structure. -/
theorem shape_step {a' : App Props} {e : ServiceEvent} (h : a.Fresh ∨ a.Inv) (hkept : e.KeepsWord host a)
    (hstep : (serving host).step a e a') : a'.Fresh ∨ a'.Inv := by
  cases e with
  | call c =>
      rcases h with hfresh | hinv
      · exact hfresh.step host.cb hstep
      · exact Or.inr (hinv.step host.cb hstep)
  | load saved => exact Or.inr (App.Loads.spec hstep).1
  | request memory user cmd stream =>
      obtain ⟨hm, res, res', hrun⟩ := hstep
      rcases h with hfresh | hinv
      · have hrefused := hrun.unique ⟨0, fun fuel _ => handle_of_fresh hfresh fuel⟩
        obtain ⟨-, rfl⟩ := Prod.mk.inj hrefused
        exact Or.inl hfresh
      · refine Or.inr ?_
        have hans : Answers (a := a) host (cmd.request stream)
            (fun fuel => (cmd.request stream).handle host memory user fuel a res)
            (KeepsWord host memory user a (cmd.request stream)) := answers hinv hm _ res
        cases hans with
        | refused _ _ hrun' _ _ hinv' =>
            obtain ⟨-, rfl⟩ := Prod.mk.inj (hrun.unique hrun')
            exact hinv'
        | done _ _ hrun' _ _ hinv' =>
            obtain ⟨-, rfl⟩ := Prod.mk.inj (hrun.unique hrun')
            exact hinv' hkept
        | faults hrun' => exact absurd hrun (hrun' _)

theorem shape_of_reachable (h : ((serving host).restrict (ServiceEvent.KeepsWord host)).Reachable a) :
    a.Fresh ∨ a.Inv := by
  refine h.invariant (fun a ha => Or.inl ha) ?_
  rintro a e a' ha ⟨hkept, hstep⟩
  exact shape_step ha hkept hstep

/-- **Replies are honest** in every run of events that meet the condition: whatever the next
request is, its reply is honest exactly if it meets the condition too. -/
theorem requests_honest (h : ((serving host).restrict (ServiceEvent.KeepsWord host)).Reachable a)
    (hm : memory.Fits a) (user : Permissions) (cmd : Command) (stream : BufInStream) :
    Honest host memory user a (cmd.request stream) ↔
      KeepsWord host memory user a (cmd.request stream) := by
  rcases shape_of_reachable h with hfresh | hinv
  · refine iff_of_true (fun res res' a' hrun => ?_) (keepsWord_of_fresh hfresh)
    have hrefused := hrun.unique ⟨0, fun fuel _ => handle_of_fresh hfresh fuel⟩
    obtain ⟨rfl, rfl⟩ := Prod.mk.inj hrefused
    exact ⟨fun hsucc => absurd hsucc.symm (success_ne_error _), fun _ => App.Unchanged.refl a'⟩
  · exact honest_iff_of_answers fun res => answers hinv hm _ res

/-! ### Two requests -/

theorem reachable_of_editing (host : Host) (h : (App.editing host.cb).Reachable a)
    (p : App Props → ServiceEvent → Prop) (hp : ∀ a c, p a (.call c)) :
    ((serving host).restrict p).Reachable a := by
  refine System.Reachable.invariant (S := App.editing host.cb)
    (I := ((serving host).restrict p).Reachable) (fun a ha => System.Reachable.start ha)
    (fun a c a' ha hstep => ?_) h
  exact ha.tail (a := .call c) ⟨hp a c, hstep⟩

/-- A value that puts a component into the first group. -/
def groupValue : (t : SlotType) → Value t
  | .int => 1
  | t => App.zeroValue t

/-- Two components under the app, all of them in the first group. -/
def groupApp : App Props := { App.pairRun 3 with data := fun _ s => groupValue s.type }

theorem reachable_groupApp : (App.editing App.quiet).Reachable groupApp := by
  have h₀ : (App.editing App.quiet).Reachable (App.pairRun 0) :=
    System.Reachable.start ⟨rfl, rfl, ⟨_, rfl, rfl, rfl, rfl, rfl⟩, fun _ => rfl, rfl⟩
  have h₁ := App.reachable_call (App.pairCall 0) 9 h₀ trivial fun _ => rfl
  have h₂ := App.reachable_call (App.pairCall 1) 9 h₁ ⟨Or.inr rfl, by decide⟩ fun _ => rfl
  have h₃ := App.reachable_call (App.pairCall 2) 9 h₂ ⟨Or.inr rfl, by decide⟩ fun _ => rfl
  exact App.reachable_call (.other (fun _ s => groupValue s.type) false) 9 h₃ trivial fun _ => rfl

/-- A device with callbacks that do nothing. -/
def quietHost : Host := { cb := App.quiet, kits := [], userType := { kit := 9, id := 9 } }

/-- A user with all permissions. -/
def allPermissions : Permissions := { perm := 0x7f7f7f7f }

/-- A stream of these bytes. -/
def streamOf (bytes : List (BitVec 8)) : BufInStream :=
  { bytes := fun i => bytes.getD i 0, size := bytes.length }

/-- Memory behind references that are not in use. -/
def freeMemory : Memory := { ok := true, comp := 9, link := 9 }

theorem fits_groupApp : freeMemory.Fits groupApp := ⟨Or.inr rfl, rfl, by decide⟩

/-- The component 1 is renamed to "c". -/
def shortName : BufInStream := streamOf [0, 1, 0x63, 0]

theorem honest_shortName : Honest quietHost freeMemory allPermissions groupApp
    (Command.rename.request shortName) := by
  have hreach : ((serving quietHost).restrict (ServiceEvent.KeepsWord quietHost)).Reachable groupApp :=
    reachable_of_editing quietHost reachable_groupApp _ fun _ _ => trivial
  refine (requests_honest hreach fits_groupApp allPermissions .rename shortName).mpr ?_
  rw [show Command.rename.request shortName = .rename 1 (some [0x63]) by decide +kernel]
  intro id c n _ hn
  obtain rfl := Option.some.inj hn
  decide

/-- A link is to be added from the component 99, which does not exist, to the component 1. -/
def unknownLink : BufInStream := streamOf [0x61, 0, 99, 0, 0, 1, 0]

/-- **Success without a change**: the request for that link is answered with success. -/
theorem not_honest_unknownLink : ¬ ∀ (host : Host) (a : App Props),
    (serving host).Reachable a → ∀ memory : Memory, memory.Fits a →
      ∀ (cmd : Command) (stream : BufInStream),
        Honest host memory allPermissions a (cmd.request stream) := by
  intro h
  have hreach : (serving quietHost).Reachable groupApp :=
    (reachable_of_editing quietHost reachable_groupApp (fun _ _ => True)
      fun _ _ => trivial).of_restrict
  have hhonest := h quietHost groupApp hreach freeMemory fits_groupApp .link unknownLink
  rw [show Command.link.request unknownLink = .link 97 99 0 1 0 by decide +kernel] at hhonest
  obtain ⟨c, hc⟩ : ∃ c, groupApp.objs (groupApp.find 1) = some c := ⟨_, rfl⟩
  have hgrants : grants quietHost allPermissions groupApp (groupApp.find 1) c Permissions.aw =
      true := by
    obtain rfl := Option.some.inj hc
    decide +kernel
  have hfind : groupApp.find 1 ≠ 0 := by decide
  have hfrom : groupApp.find 99 = 0 := by decide
  have hmade := (hhonest { cmd := '!' } { cmd := 'L' } groupApp ⟨0, fun fuel _ => by
    simp [Request.handle, linkReq, Sox.checked, hc, hgrants, hfind, hfrom]⟩).1 rfl
  rcases hmade with ⟨-, src, _, _, _, _, _, hsrc, -, hf, -⟩ | ⟨hcmd, -⟩
  · obtain rfl : 99 = src := by exact_mod_cast hsrc
    exact absurd hf (by simp [show groupApp.comp 99 = none from rfl])
  · exact absurd hcmd (by decide)

end Sox

end Sedona
