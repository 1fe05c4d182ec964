import Sedona.Library.Rethread
import Sedona.Sox.HonestReplies

/-!
# Reordering with Any List

What `reorderReq` does with a list that has every id of it checked to be a child, but may leave
children out and may have some of them more than once. The children that are left are those that
one visits on the list when one goes on each time behind the last occurrence.

## Main results

* `thread_links`: the sibling links that the loop leaves.
* `Inv.rethread`: the list of children after the loop, and when the structure is kept.
* `reorder_permutes_iff`: the reply `O` means a permutation, exactly if every child is visited.
-/

namespace Sedona

open Function Intrusive Fuel Transition

namespace App

variable {δ : Type} {a a' : App δ} {pid : ℕ} {c p : Component} {ids : List ℕ}

/-- The links behind the components of the list, whatever the list is. -/
theorem thread_links (parent : Ref) {last : ℕ} (ht : a.Table) (hlast : a.comp last = some c)
    (hlive : ∀ k ∈ ids, a.lookup k ≠ 0) :
    ∃ a', thread parent (a.lookup last) ids a = some a' ∧ Threaded a a' (last :: ids) ∧
      ∀ k ∈ last :: ids,
        nextSib a'.node k = some ((afterLast k (last :: ids)).headD nullId) := by
  have h0 := ht.lookup_ne hlast
  induction ids generalizing a c last with
  | nil =>
      have hnode := node_put (c := { c with nextSibling := nullId }) ht rfl h0
      refine ⟨a.put (a.lookup last) { c with nextSibling := nullId }, ?_,
        Threaded.step ht hlast ⟨SameRest.refl _, fun _ _ => rfl, fun _ => rfl⟩, fun k hk => ?_⟩
      · rw [thread, if_pos h0]
        exact write_eq (show a.objs (a.lookup last) = some c from hlast) _
      · rw [List.mem_singleton.mp hk, nextSib, hnode, update_self]
        rfl
  | cons x ids ih =>
      have hnode := node_put (c := { c with nextSibling := x }) ht rfl h0
      obtain ⟨cx, hcx, hxid⟩ := ht.exists_comp (hlive x (by simp))
      set a₁ := a.put (a.lookup last) { c with nextSibling := x } with ha₁
      have ht₁ : a₁.Table := ht.put hlast rfl
      have hx₁ : a₁.lookup x ≠ 0 := hlive x (by simp)
      obtain ⟨cx₁, hcx₁, -⟩ := ht₁.exists_comp hx₁
      obtain ⟨a', hrun, hthread, hlinks⟩ := ih ht₁ hcx₁
        (fun k hk => hlive k (List.mem_cons_of_mem x hk)) hx₁
      refine ⟨a', ?_, Threaded.step ht hlast hthread, fun k hk => ?_⟩
      · have hobj : a.objs (a.lookup x) = some cx := hcx
        have hwrite := write_eq (show a.objs (a.lookup last) = some c from hlast)
          fun l => { l with nextSibling := x }
        simp only [thread, hobj, hxid, if_neg h0, hwrite, Option.bind_eq_bind, Option.bind_some]
        exact hrun
      · by_cases hmem : k ∈ x :: ids
        · rw [hlinks k hmem, ← afterLast_append [last] hmem, List.singleton_append]
        · -- the component comes last here
          obtain rfl : k = last := (List.mem_cons.mp hk).resolve_right hmem
          rw [afterLast, if_neg hmem, nextSib, hthread.others k hmem, hnode, update_self]
          rfl

/-- **The list of children after the loop**, and when the structure is kept. -/
theorem Inv.rethread (h : a.Inv) (hp : a.comp pid = some p) {x : ℕ}
    (hkids : ∀ k ∈ x :: ids, IsKid a.node pid k) :
    ∃ b, thread (a.lookup pid) 0 (x :: ids) a = some b ∧
      (∃ n, b.node pid = some n ∧
        Chain nullId (nextSib b.node) n.children (visited (x :: ids))) ∧
      ((∀ k, IsKid a.node pid k → k ∈ visited (x :: ids)) → b.Inv) := by
  have h0 := h.table.lookup_ne hp
  have hlive : ∀ k ∈ x :: ids, a.lookup k ≠ 0 ∧ k ≠ pid ∧ k ≠ nullId := by
    intro k hk
    obtain ⟨m, hm, hpar⟩ := hkids k hk
    refine ⟨h.table.lookup_of_node hm, ?_, Nat.ne_of_lt (h.tree.ids k m hm).2⟩
    rintro rfl
    -- no component is its own parent
    obtain ⟨d, hd⟩ := (h.tree.rooted k m hm).depth
    have := hd.kid h.tree ⟨m, hm, hpar⟩
    exact absurd (hd.unique this) (by omega)
  obtain ⟨cx, hcx, hxid⟩ := h.table.exists_comp (hlive x (by simp)).1
  have hnode := node_put (c := { p with children := x }) h.table rfl h0
  set a₁ := a.put (a.lookup pid) { p with children := x } with ha₁
  have ht₁ : a₁.Table := h.table.put hp rfl
  have hcx₁ : a₁.comp x = some cx := by
    rw [ha₁, comp_put h.table rfl h0, update_of_ne (hlive x (by simp)).2.1, hcx]
  obtain ⟨b, hb, hthread, hlinks⟩ := thread_links (a.lookup pid) ht₁ hcx₁
    fun k hk => (hlive k (List.mem_cons_of_mem x hk)).1
  have hnil : nullId ∉ x :: ids := fun hk => (hlive nullId hk).2.2 rfl
  have hchain : Chain nullId (nextSib b.node) x (visited (x :: ids)) := chain_visited hnil hlinks
  have hthreadRun : thread (a.lookup pid) 0 (x :: ids) a = some b := by
    have hobj : a.objs (a.lookup x) = some cx := hcx
    have hwrite := write_eq (show a.objs (a.lookup pid) = some p from hp)
      fun q => { q with children := x }
    simp only [thread, hobj, hxid, if_true, hwrite, Option.bind_eq_bind, Option.bind_some]
    exact hb
  have hpid_not : pid ∉ x :: ids := fun hk => (hlive pid hk).2.1 rfl
  have hbp : b.node pid = some { p with children := x }.toNode := by
    rw [hthread.others pid hpid_not, hnode, update_self]
  refine ⟨b, hthreadRun, ⟨_, hbp, hchain⟩, fun hall => ?_⟩
  have hput : SameRest a a₁ := SameRest.put hp rfl
  have hrest : SameRest a b := hput.trans hthread.rest
  have hmem : ∀ k, k ∈ visited (x :: ids) ↔ IsKid a.node pid k :=
    fun k => ⟨fun hk => hkids k (visited_subset _ hk), hall k⟩
  have hfixed : ∀ k, (b.node k).map (fun n => (n.id, n.parent)) =
      (a.node k).map fun n => (n.id, n.parent) := by
    intro k
    have hfixed := congrArg (Option.map fun t : ℕ × ℕ × ℕ => (t.1, t.2.1)) (hthread.fixed k)
    simp only [Option.map_map, Function.comp_def, hnode] at hfixed
    rw [hfixed]
    by_cases hk : k = pid
    · subst hk
      simp [node, hp]
    · rw [update_of_ne hk]
  have hchildren : ∀ k, k ≠ pid →
      (b.node k).map (·.children) = (a.node k).map (·.children) := by
    intro k hk
    have hfixed := congrArg (Option.map fun t : ℕ × ℕ × ℕ => t.2.2) (hthread.fixed k)
    simpa only [Option.map_map, Function.comp_def, hnode, update_of_ne hk] using hfixed
  have hnext : ∀ k, k ∉ visited (x :: ids) → nextSib b.node k = nextSib a.node k := by
    intro k hk
    have hk' : k ∉ x :: ids := fun hmem' => hk (hall k (hkids k hmem'))
    rw [nextSib, nextSib, hthread.others k hk', hnode]
    by_cases hkp : k = pid
    · subst hkp
      simp [node, hp]
    · rw [update_of_ne hkp]
  refine ⟨hrest.table h.table, h.tree.reorder hbp hchain hmem hfixed hchildren hnext,
    hrest.linkLists h.links, ?_, ?_, hrest.services_iff.mpr h.services⟩
  · intro k y hy
    rw [hrest.links] at hy
    rw [hrest.lookup, hrest.lookup]
    exact h.ends k y hy
  · rw [hrest.links]
    exact h.slots

end App

namespace Sox

variable {host : Host} {user : Permissions} {a a' : App Props} {res : SendPacket} {compId : ℤ}
  {ids : List ℤ}

/-- The list of children of the component, followed from its first child on. -/
def ListAt (a : App Props) (pid : ℕ) (l : List ℕ) : Prop :=
  ∃ n, a.node pid = some n ∧ Chain nullId (nextSib a.node) n.children l

/-- Whatever calls are made then, removing the component takes out it and what is below it, and
leaves an application whose structure fits together. -/
def Removable (host : Host) (a : App Props) (k : ℕ) : Prop :=
  ∀ tr b, Runs (App.editing host.cb) a tr b → b.lookup k ≠ 0 →
    ∃ b', Returns (fun fuel => App.remove host.cb fuel b (b.lookup k)) (true, b') ∧
      App.SubtreeRemoved b b' k ∧ b'.Consistent

/-- The reply `O` means that the list of children was permuted, and an error that nothing has
changed. -/
structure OnlyPermutes (host : Host) (user : Permissions) (a : App Props) (compId : ℤ)
    (ids : List ℤ) : Prop where
  success {res res' : SendPacket} {a' : App Props}
    (hrun : reorderReq host user a res compId ids = some (res', a')) (hcmd : res'.cmd = 'O') :
    ∃ (pid : ℕ) (l l' : List ℕ), compId = pid ∧ KidsAt a.node pid l ∧ ListAt a' pid l' ∧
      l'.Perm l ∧ ∀ k ∈ l, Removable host a' k
  failure {res res' : SendPacket} {a' : App Props}
    (hrun : reorderReq host user a res compId ids = some (res', a')) (hcmd : res'.cmd = '!') :
    a' = a

/-- If the request gets past the checks, its list is empty, or every child of the component is
visited when one goes on, from the first id of the list, each time behind the last occurrence. -/
def VisitsAll (host : Host) (user : Permissions) (a : App Props) (compId : ℤ)
    (ids : List ℤ) : Prop :=
  ∀ (pid : ℕ) (p : Component) (l : List ℕ), Granted host user a compId pid p →
    ids = l.map (fun k : ℕ => (k : ℤ)) → (∀ k ∈ l, IsKid a.node pid k) →
    l = [] ∨ ∀ k, IsKid a.node pid k → k ∈ visited l

/-- The request gets past the checks with this list of children. -/
structure Passes (host : Host) (user : Permissions) (a : App Props) (compId : ℤ) (ids : List ℤ)
    (pid : ℕ) (p : Component) (l : List ℕ) : Prop where
  granted : Granted host user a compId pid p
  ids : ids = l.map fun k : ℕ => (k : ℤ)
  kids : ∀ k ∈ l, IsKid a.node pid k

/-- The application after the callbacks at the end of `reorderReq`. -/
def reorderEvents (host : Host) (pid : Ref) (b : App Props) : App Props :=
  (b.fire host.cb (.reordered pid)).fire host.cb (.fireTreeChanged pid)

theorem reorderEvents_fired (host : Host) (pid : Ref) (b : App Props) :
    App.Fired b (reorderEvents host pid b) :=
  (App.Fired.fire host.cb _ b).trans (App.Fired.fire host.cb _ _)

/-- **How the request ends.** -/
theorem reorderReq_cases (h : a.Inv) (host : Host) (user : Permissions) (res : SendPacket)
    (compId : ℤ) (ids : List ℤ) :
    ((∀ pid p l, ¬ Passes host user a compId ids pid p l) ∧
      ∃ cause, reorderReq host user a res compId ids = some (res.error cause, a)) ∨
    ∃ pid p l, Passes host user a compId ids pid p l ∧
      reorderReq host user a res compId ids = (App.thread (a.lookup pid) 0 l a).map fun b =>
        ({ res with cmd := 'O' }, reorderEvents host (a.lookup pid) b) := by
  by_cases h0 : a.find compId = 0
  · refine .inl ⟨fun pid p l hp => ?_, "bad compId", by simp [reorderReq, checked, h0]⟩
    obtain ⟨rfl, hc, -⟩ := hp.granted
    exact h.table.lookup_ne hc ((find_natCast pid).symm.trans h0)
  obtain ⟨k, c, rfl, hc⟩ := find_ne h h0
  have hobj : a.objs (a.lookup k) = some c := hc
  have hid : c.id = k := h.table.comp_id hc
  rw [find_natCast] at h0
  have hkey : ∀ {pid p l}, Passes host user a k ids pid p l → pid = k ∧ p = c := by
    intro pid p l hp
    obtain rfl : k = pid := by exact_mod_cast hp.granted.1
    exact ⟨rfl, (Option.some.inj (hc.symm.trans hp.granted.2.1)).symm⟩
  by_cases hgrants : grants host user a (a.lookup k) c Permissions.aw = true
  swap
  · refine .inl ⟨fun pid p l hp => ?_, "denied", by
      simp [reorderReq, checked, find_natCast, h0, hobj, hgrants]⟩
    obtain ⟨rfl, rfl⟩ := hkey hp
    exact hgrants hp.granted.2.2
  by_cases hall : (ids.all fun id => a.find id != 0 &&
      (a.objs (a.find id)).any (·.parent == c.id)) = true
  · obtain ⟨l, rfl, hl⟩ := exists_children h hall
    rw [hid] at hl
    refine .inr ⟨k, c, l, ⟨⟨rfl, hc, hgrants⟩, rfl, hl⟩, ?_⟩
    have htoNat : (l.map fun k : ℕ => (k : ℤ)).map Int.toNat = l := by
      rw [List.map_map]
      exact List.map_id l
    simp only [reorderReq, checked, find_natCast, if_neg h0, hobj, hgrants, hall, htoNat,
      Bool.not_true, Bool.false_eq_true, if_false, Option.bind_eq_bind, Option.bind_some]
    cases App.thread (a.lookup k) 0 l a <;> rfl
  · refine .inl ⟨fun pid p l hp => ?_, "bad childId", ?_⟩
    · obtain ⟨rfl, rfl⟩ := hkey hp
      refine hall ?_
      rw [hp.ids]
      exact all_children h fun j hj => hid ▸ hp.kids j hj
    · simp only [reorderReq, checked, find_natCast, if_neg h0, hobj, hgrants, hall,
        Bool.not_true, Bool.not_false, Bool.false_eq_true, if_false, if_true,
        Option.bind_eq_bind, Option.bind_some]

theorem listAt_unique {pid : ℕ} {l l' : List ℕ} (h : ListAt a pid l) (h' : ListAt a pid l') :
    l = l' := by
  obtain ⟨n, hn, hl⟩ := h
  obtain ⟨n', hn', hl'⟩ := h'
  obtain rfl := Option.some.inj (hn.symm.trans hn')
  exact hl.unique hl'

/-- A component other than the root can be removed from an application in order. -/
theorem removable (h : a.Inv) {k : ℕ} (hk : k ≠ 0) : Removable host a k := by
  intro tr b hruns h0
  have hb : b.Inv := hruns.invariant (I := App.Inv) (fun _ _ _ hi hs => hi.step host.cb hs) h
  obtain ⟨c, hc, -⟩ := hb.table.exists_comp h0
  obtain ⟨d, hd⟩ := (hb.tree.rooted k c.toNode (App.node_eq_some.mpr ⟨c, hc, rfl⟩)).depth
  cases d with
  | zero =>
      cases hd with
      | root => exact absurd rfl hk
  | succ d =>
      obtain ⟨b', hrun, hrem⟩ := App.remove_spec host.cb hb hd h0
      exact ⟨b', hrun, hrem.subtreeRemoved, hrem.inv.consistent⟩

/-- The root is no child. -/
theorem ne_zero_of_isKid (h : a.Inv) {pid k : ℕ} {p : Component} (hp : a.comp pid = some p)
    (hk : IsKid a.node pid k) : k ≠ 0 := by
  rintro rfl
  obtain ⟨m, hm, hpar⟩ := hk
  obtain ⟨r, hr, hroot⟩ := h.tree.root
  obtain rfl := Option.some.inj (hm.symm.trans hr)
  have h0 := h.table.lookup_ne hp
  rw [← hpar, hroot] at h0
  exact h0 h.lookup_nullId

/-- **A reordering only permutes, exactly if every child is visited.** -/
theorem onlyPermutes_iff (h : a.Inv) :
    OnlyPermutes host user a compId ids ↔ VisitsAll host user a compId ids := by
  have hlist : ∀ {r b pid l}, ListAt b pid l → ListAt (reorderEvents host r b) pid l := by
    intro r b pid l hl
    rw [ListAt, (reorderEvents_fired host r b).sameTree.node]
    exact hl
  constructor
  · intro hperm pid p l hg hids hkids
    obtain _ | ⟨x, l⟩ := l
    · exact .inl rfl
    refine .inr fun k hk => ?_
    obtain ⟨b, hb, hchain, -⟩ := h.rethread hg.2.1 hkids
    obtain ⟨hno, -⟩ | ⟨pid', p', l', hpass, hrun⟩ :=
      reorderReq_cases h host user { cmd := 'o' } compId ids
    · exact absurd ⟨hg, hids, hkids⟩ (hno pid p (x :: l))
    obtain rfl : pid = pid' := by exact_mod_cast hg.1.symm.trans hpass.granted.1
    obtain rfl := map_natCast_inj (hids.symm.trans hpass.ids)
    rw [hb] at hrun
    obtain ⟨q, m, m', hq, hm, hm', hpm, -⟩ := hperm.success hrun rfl
    obtain rfl : q = pid := by exact_mod_cast hq.symm.trans hg.1
    rw [← listAt_unique hm' (hlist hchain)]
    exact hpm.mem_iff.mpr (hm.mem.mpr hk)
  · intro hall
    refine ⟨fun {res res' a'} hrun hcmd => ?_, fun {res res' a'} hrun hcmd => ?_⟩
    · obtain ⟨-, cause, herr⟩ | ⟨pid, p, l, hpass, heq⟩ :=
        reorderReq_cases h host user res compId ids
      · rw [herr] at hrun
        obtain ⟨rfl, -⟩ := Prod.mk.inj (Option.some.inj hrun)
        exact absurd hcmd (by simp [SendPacket.error])
      have hp := hpass.granted.2.1
      obtain ⟨lk, hlk⟩ := h.tree.kidsAt (App.node_eq_some.mpr ⟨p, hp, rfl⟩)
      have hne : ∀ k ∈ lk, k ≠ 0 := fun k hk => ne_zero_of_isKid h hp (hlk.mem.mp hk)
      rw [heq] at hrun
      obtain ⟨b, hb, hpair⟩ := Option.map_eq_some_iff.mp hrun
      obtain ⟨-, rfl⟩ := Prod.mk.inj hpair
      obtain _ | ⟨x, l⟩ := l
      · obtain rfl := Option.some.inj hb
        refine ⟨pid, lk, lk, hpass.granted.1, hlk, hlist ?_, .refl lk, fun k hk => ?_⟩
        · obtain ⟨n, hn, hkids⟩ := hlk
          exact ⟨n, hn, hkids.chain⟩
        · exact removable (h.fired (reorderEvents_fired host _ _)) (hne k hk)
      · have hvisits := (hall pid p (x :: l) hpass.granted hpass.ids hpass.kids).resolve_left
          (List.cons_ne_nil _ _)
        obtain ⟨b', hb', hchain, hinv⟩ := h.rethread hp hpass.kids
        obtain rfl := Option.some.inj (hb.symm.trans hb')
        refine ⟨pid, lk, visited (x :: l), hpass.granted.1, hlk, hlist hchain, ?_, fun k hk => ?_⟩
        · have hnodup : lk.Nodup := by
            obtain ⟨n, -, hkids⟩ := hlk
            exact hkids.chain.nodup
          refine (List.perm_ext_iff_of_nodup (nodup_visited _) hnodup).mpr fun k => ?_
          rw [hlk.mem]
          exact ⟨fun hk => hpass.kids k (visited_subset _ hk), hvisits k⟩
        · exact removable ((hinv hvisits).fired (reorderEvents_fired host _ _)) (hne k hk)
    · obtain ⟨-, cause, herr⟩ | ⟨pid, p, l, hpass, heq⟩ :=
        reorderReq_cases h host user res compId ids
      · rw [herr] at hrun
        exact (Prod.mk.inj (Option.some.inj hrun)).2.symm
      · rw [heq] at hrun
        obtain ⟨b, -, hpair⟩ := Option.map_eq_some_iff.mp hrun
        obtain ⟨rfl, -⟩ := Prod.mk.inj hpair
        exact absurd hcmd (by simp)

/-! ### Two components -/

theorem inv_groupApp : groupApp.Inv :=
  (App.inv_of_reachable reachable_groupApp).resolve_left fun h =>
    absurd h.comps (by decide)

theorem isKid_groupApp {k : ℕ} : IsKid groupApp.node 0 k ↔ k = 1 ∨ k = 2 := by
  constructor
  · rintro ⟨m, hm, hpar⟩
    obtain _ | _ | _ | k := k
    · cases hm
      exact absurd hpar (by decide)
    · exact .inl rfl
    · exact .inr rfl
    · have hcomps : groupApp.comps = [1, 2, 3, 0] := by decide
      have hnone : groupApp.lookup (k + 3) = 0 := by
        rw [App.lookup, hcomps]
        cases k <;> rfl
      rw [inv_groupApp.table.node_eq_none hnone] at hm
      cases hm
  · rintro (rfl | rfl) <;> exact ⟨_, rfl, rfl⟩

/-- The two components in the other order. -/
theorem onlyPermutes_swap : OnlyPermutes quietHost allPermissions groupApp 0 [2, 1] := by
  refine (onlyPermutes_iff inv_groupApp).mpr fun pid p l hg hids hkids => .inr fun k hk => ?_
  obtain rfl : [2, 1] = l := map_natCast_inj hids
  obtain rfl : 0 = pid := by exact_mod_cast hg.1
  rw [visited_of_nodup (by decide)]
  obtain rfl | rfl := isKid_groupApp.mp hk <;> decide

/-- The request lists the first component only: the second one is lost. -/
theorem not_onlyPermutes : ¬ OnlyPermutes quietHost allPermissions groupApp 0 [1] := by
  intro h
  have hkids : ∀ k ∈ [1], IsKid groupApp.node 0 k := by
    intro k hk
    exact isKid_groupApp.mpr (.inl (List.mem_singleton.mp hk))
  obtain ⟨p, hp⟩ : ∃ p, groupApp.comp 0 = some p := ⟨_, rfl⟩
  obtain ⟨b, hb, hchain, -⟩ := inv_groupApp.rethread hp hkids
  have hgrants : grants quietHost allPermissions groupApp (groupApp.lookup 0) p Permissions.aw =
      true := by
    obtain rfl := Option.some.inj hp
    decide +kernel
  obtain ⟨hno, -⟩ | ⟨pid, p', l, hpass, hrun⟩ := reorderReq_cases inv_groupApp
    quietHost allPermissions { cmd := 'o' } 0 [1]
  · exact hno 0 p [1] ⟨⟨rfl, hp, hgrants⟩, rfl, hkids⟩
  obtain rfl : 0 = pid := by exact_mod_cast hpass.granted.1
  obtain rfl : [1] = l := map_natCast_inj hpass.ids
  rw [hb] at hrun
  obtain ⟨q, m, m', hq, hm, hm', hperm, -⟩ := h.success hrun rfl
  obtain rfl : q = 0 := by exact_mod_cast hq.symm
  have hlist : ListAt (reorderEvents quietHost (groupApp.lookup 0) b) 0 (visited [1]) := by
    rw [ListAt, (reorderEvents_fired quietHost _ b).sameTree.node]
    exact hchain
  have hlost : 2 ∈ m' := hperm.mem_iff.mpr (hm.mem.mpr (isKid_groupApp.mpr (.inr rfl)))
  rw [listAt_unique hm' hlist] at hlost
  exact absurd (visited_subset _ hlost) (by decide)

end Sox

end Sedona
