import Sedona.Sys.Heap

/-!
# The Lists of Links

Every link is in two lists, one on each side: in the list of links into its `to` component
and in the list of links out of its `from` component. `LinkLists` says so for the components
in the table, and does not ask that the ends of a link are in the table: while `remove` takes
a component apart, its links are still there and the component is not.

## Main results

* `insertLink_spec`: a new link is registered with both its ends.
* `removeLink_spec`: a link is taken out of the lists of those ends that are in the table.
-/

namespace Sedona

open Function Intrusive Fuel

variable {δ : Type}

namespace App

/-- On both sides, the lists of the components in the table hold exactly their links. -/
structure LinkLists (a : App δ) : Prop where
  null : a.links 0 = none
  lists : ∀ s, Lists 0 (a.nextOn s) (a.headOn s) (a.ownOn s)

/-- The lists on this side, when the link `k` has been taken out of them. -/
def ListsWithout (a : App δ) (s : Side) (k : Ref) : Prop :=
  Lists 0 (a.nextOn s) (a.headOn s) fun j => if j = k then none else a.ownOn s j

section Unlink

variable {a a' : App δ} {s t : Side} {id : ℕ} {r k : Ref} {c : Component} {x : Link}

theorem nextOn_eq_some {n : Ref} : a.nextOn s k = some n ↔ ∃ l, a.links k = some l ∧ s.next l = n := by
  simp [nextOn]

theorem ownOn_eq (hx : a.links k = some x) : a.ownOn s k = s.owner x := by simp [ownOn, hx]

/-- A list that does not hold `k` in the first place. -/
theorem ListsWithout.of_owner (h : Lists 0 (a.nextOn s) (a.headOn s) (a.ownOn s))
    (hk : ∀ id, a.ownOn s k = some id → a.comp id = none) : ListsWithout a s k := by
  refine h.congr (fun _ _ hi => hi) ?_ (fun _ _ _ _ _ => rfl)
  intro j i p hi
  by_cases hj : j = k
  · subst hj
    simp only [if_true, reduceCtorEq, false_iff]
    intro hown
    simp [headOn, hk i hown] at hi
  · rw [if_neg hj]

/-- The links after writing the list field of one of them. -/
theorem nextOn_putLink (s t : Side) (hx : a.links k = some x) (n : Ref) :
    (a.putLink k (s.setNext n x)).nextOn t =
      if t = s then update (a.nextOn t) k (some n) else a.nextOn t := by
  funext j
  unfold nextOn
  by_cases hj : j = k
  · subst hj
    rw [putLink_links_self]
    split
    · rename_i hts
      subst hts
      simp
    · rename_i hts
      simp only [hx, Option.map_some, Side.next_setNext_of_ne _ _ _ _ hts]
  · rw [putLink_links_of_ne hj]
    split
    · rw [update_of_ne hj]
    · rfl

theorem ownOn_putLink {l : Link} (s : Side) (hx : a.links k = some x) (hcore : l.core = x.core) :
    (a.putLink k l).ownOn s = a.ownOn s := by
  funext j
  unfold ownOn
  by_cases hj : j = k
  · subst hj
    rw [putLink_links_self, hx]
    exact s.owner_congr _ _ hcore
  · rw [putLink_links_of_ne hj]

/-- The links are the same except for their list fields. -/
def SameLinks (a a' : App δ) : Prop := ∀ j, (a'.links j).map Link.core = (a.links j).map Link.core

theorem SameLinks.ownOn (h : SameLinks a a') (s : Side) : a'.ownOn s = a.ownOn s := by
  funext j
  have hj := h j
  unfold App.ownOn
  revert hj
  cases a.links j <;> cases a'.links j <;> intro hj
  · rfl
  · simp at hj
  · simp at hj
  · exact s.owner_congr _ _ (Option.some.inj hj)

/-- **Unlinking on one side.** The link leaves the list of the component it belongs to, if it
belongs to one; the other side and everything else stay as they are. -/
theorem unlink_spec (ht : a.Table) (hlinks : a.links 0 = none)
    (hlists : Lists 0 (a.nextOn s) (a.headOn s) (a.ownOn s)) (hx : a.links k = some x)
    (hr : a.lookup id = r) (h0 : r ≠ 0) (hown : ∀ id', s.owner x = some id' → id' = id) :
    ∃ a', Returns (fun fuel => unlink s fuel a r k) a' ∧ SameTree a a' ∧ SameLinks a a' ∧
      (∀ t, t ≠ s → a'.nextOn t = a.nextOn t ∧ a'.headOn t = a.headOn t) ∧
      ListsWithout a' s k ∧ (∀ j, a.ownOn s j ≠ s.owner x → a'.nextOn s j = a.nextOn s j) := by
  have hk0 : k ≠ 0 := by
    rintro rfl
    exact absurd (hlinks.symm.trans hx) (by simp)
  obtain ⟨c, hc, -⟩ := ht.exists_comp (hr ▸ h0)
  have hcr : a.objs r = some c := by rw [← hc, comp_of_lookup hr]
  have hhead : a.headOn s id = some (s.head c) := by simp [headOn, hc]
  obtain ⟨l, hchain, hmem⟩ := hlists id _ hhead
  have hnull : ∀ j ∈ l, (j == 0) = false := fun j hj => by simpa using hchain.ne_nil hj
  have hmemk : k ∈ l ↔ s.owner x = some id := by rw [hmem, ownOn_eq hx]
  by_cases hfirst : s.head c = k
  · -- the link heads the list: the head moves on, and the search finds nothing
    have hstart := hchain.start_eq
    rw [hfirst] at hchain
    obtain ⟨l₂, rfl⟩ : ∃ l₂, l = k :: l₂ := by
      cases l with
      | nil => exact absurd (chain_nil.mp hchain) hk0
      | cons y l₂ => exact ⟨l₂, by rw [(chain_cons.mp hchain).1]⟩
    obtain ⟨-, -, n, hn, hrest⟩ := chain_cons.mp hchain
    obtain rfl : s.next x = n := by simpa [nextOn, hx] using hn
    have hnotin := (List.nodup_cons.mp hchain.nodup).1
    set c' := s.setHead (s.next x) c with hc'
    have hheads := headOn_put (c := c') ht hr h0
    obtain ⟨p, hwalk, hp⟩ := hrest.walk_pred (by rfl)
      (fun j hj => hnull j (List.mem_cons_of_mem _ hj)) hk0
    obtain rfl : p = 0 := by
      rcases hp with ⟨h, -⟩ | ⟨l₁, l₂', rfl⟩
      · exact h
      · simp at hnotin
    refine ⟨a.put r c', ⟨l₂.length + 1, fun fuel hfuel => ?_⟩, ?_, fun _ => rfl, ?_, ?_,
      fun _ _ => rfl⟩
    · simp only [unlink, hx, hcr, Option.bind_eq_bind, Option.bind_some, if_pos hfirst,
        write_eq hcr]
      rw [put_objs_self, Option.bind_some, hc', Side.head_setHead, linkWhere, put_links,
        hwalk fuel hfuel]
      simp
    · exact SameTree.put hcr hr (by simp [hc'])
    · intro t hts
      refine ⟨rfl, ?_⟩
      rw [hheads, hc', Side.head_setHead_of_ne _ _ _ _ hts]
      funext j
      by_cases hj : j = id
      · subst hj
        simp [headOn, hc]
      · rw [update_of_ne hj]
    · refine hlists.unlink (h := s.head c) hhead ((hmem k).mp List.mem_cons_self)
        (Unlinked.atHead (s.next x) (by rw [hhead, hfirst]) (by simp [nextOn, hx]) ?_ ?_ ?_)
        (by simp) (fun j hj => by simp [if_neg hj]; rfl)
      · rw [hheads]
        simp [hc']
      · intro j hj
        rw [hheads, update_of_ne hj]
      · exact fun _ _ => rfl
  · obtain ⟨p, hwalk, hp⟩ := hchain.walk_pred (by rfl) hnull hk0
    have hrun : ∀ fuel, l.length < fuel → unlink s fuel a r k =
        if p ≠ 0 then a.writeLink p (s.setNext (s.next x)) else some a := by
      intro fuel hfuel
      simp only [unlink, hx, hcr, Option.bind_eq_bind, Option.bind_some, if_neg hfirst]
      rw [linkWhere, hwalk fuel hfuel, Option.bind_some]
    rcases hp with ⟨rfl, hnone⟩ | ⟨l₁, l₂, rfl⟩
    · -- the link is not in the list
      have hnotin : k ∉ l := by
        intro hk
        obtain ⟨l₂, rfl⟩ := hnone hk
        exact hfirst (chain_cons.mp hchain).1
      refine ⟨a, ⟨l.length + 1, fun fuel hfuel => ?_⟩, SameTree.refl a, fun _ => rfl,
        fun _ _ => ⟨rfl, rfl⟩, ListsWithout.of_owner hlists fun id' hid' => ?_, fun _ _ => rfl⟩
      · simp only [hrun fuel hfuel]
        simp
      · rw [ownOn_eq hx] at hid'
        obtain rfl := hown id' hid'
        exact absurd (hmemk.mpr hid') hnotin
    · -- the link has another one in front of it
      have hpl : p ∈ l₁ ++ p :: k :: l₂ := by simp
      have hp0 : p ≠ 0 := hchain.ne_nil hpl
      obtain ⟨n, hn⟩ := hchain.next_isSome hpl
      obtain ⟨xp, hxp, rfl⟩ := nextOn_eq_some.mp hn
      have hpk : s.next xp = k := by
        obtain ⟨_, -, hsuffix⟩ := hchain.suffix
        obtain ⟨-, -, j, hj, hrest⟩ := chain_cons.mp hsuffix
        obtain rfl := Option.some.inj (hn.symm.trans hj)
        exact (chain_cons.mp hrest).1
      have hne : p ≠ k := by
        have hnodup := hchain.nodup
        simp only [List.nodup_append, List.nodup_cons, List.mem_cons] at hnodup
        grind
      have hnext := fun t => nextOn_putLink s t hxp (s.next x)
      have hsame : SameLinks a (a.putLink p (s.setNext (s.next x) xp)) := by
        intro j
        by_cases hj : j = p
        · subst hj
          simp [hxp]
        · rw [putLink_links_of_ne hj]
      refine ⟨a.putLink p (s.setNext (s.next x) xp),
        ⟨(l₁ ++ p :: k :: l₂).length + 1, fun fuel hfuel => ?_⟩,
        SameTree.putLink _ _ _, hsame, ?_, ?_, ?_⟩
      · simp only [hrun fuel hfuel, if_pos hp0, writeLink_eq hxp]
      · exact fun t hts => ⟨by rw [hnext t, if_neg hts], rfl⟩
      · refine hlists.unlink (h := s.head c) hhead ((hmem k).mp (by simp))
          (Unlinked.behind p ((hmem p).mp hpl) (by rw [hn, hpk]) ?_ rfl ?_) (by simp)
          (fun j hj => by simp [if_neg hj, hsame.ownOn s])
        · rw [hnext s, if_pos rfl, update_self]
          simp [nextOn, hx]
        · intro j hj _
          rw [hnext s, if_pos rfl, update_of_ne hj]
      · intro j hj
        rw [hnext s, if_pos rfl, update_of_ne]
        rintro rfl
        rw [(hmem j).mp hpl, hmemk.mp (by simp)] at hj
        exact hj rfl

/-! ### Removing a link -/

/-- Once the link is in no list, it can be freed. -/
theorem linkLists_deleteLink (hlinks : a.links 0 = none) (h : ∀ s, ListsWithout a s k) :
    (a.deleteLink k).LinkLists := by
  have hself : ∀ j, j ≠ k → (a.deleteLink k).links j = a.links j := by
    intro j hj
    simp [deleteLink, update_of_ne hj]
  refine ⟨?_, fun s => (h s).congr (fun _ _ hi => hi) ?_ ?_⟩
  · by_cases hk : (0 : Ref) = k
    · simp [deleteLink, hk]
    · rw [hself 0 hk, hlinks]
  · intro j i p _
    by_cases hj : j = k
    · subst hj
      simp [ownOn, deleteLink]
    · rw [if_neg hj, ownOn, ownOn, hself j hj]
  · intro j i p _ hown
    have hj : j ≠ k := by
      rintro rfl
      simp at hown
    rw [nextOn, nextOn, hself j hj]

/-- The part of `removeLink` for one end of the link, which may be null. -/
theorem unlink_end_spec (s : Side) (id : ℕ) (ht : a.Table) (hlinks : a.links 0 = none)
    (hlists : Lists 0 (a.nextOn s) (a.headOn s) (a.ownOn s)) (hx : a.links k = some x)
    (hown : ∀ id', s.owner x = some id' → id' = id) :
    ∃ a', Returns (fun fuel =>
        if a.lookup id ≠ 0 then unlink s fuel a (a.lookup id) k else some a) a' ∧
      SameTree a a' ∧ SameLinks a a' ∧
      (∀ t, t ≠ s → a'.nextOn t = a.nextOn t ∧ a'.headOn t = a.headOn t) ∧
      ListsWithout a' s k ∧ (∀ j, a.ownOn s j ≠ s.owner x → a'.nextOn s j = a.nextOn s j) ∧
      (a.lookup id = 0 → a' = a) := by
  by_cases h0 : a.lookup id = 0
  · refine ⟨a, ⟨0, fun fuel _ => by simp [h0]⟩, SameTree.refl a, fun _ => rfl,
      fun _ _ => ⟨rfl, rfl⟩, ListsWithout.of_owner hlists fun id' hid' => ?_, fun _ _ => rfl,
      fun _ => rfl⟩
    rw [ownOn_eq hx] at hid'
    rw [hown id' hid', ht.comp_eq_none h0]
  · obtain ⟨a', hrun, htree, hsame, hother, hwithout, hframe⟩ :=
      unlink_spec ht hlinks hlists hx rfl h0 hown
    refine ⟨a', ?_, htree, hsame, hother, hwithout, hframe, fun h => absurd h h0⟩
    simpa only [if_pos h0] using hrun

/-- **Removing a link.** It leaves the lists of its ends that are in the table and is freed;
other links keep their ends, and their places in the lists of components outside the table. -/
theorem removeLink_spec (cb : Callbacks δ) (ht : a.Table) (hl : a.LinkLists)
    (hx : a.links k = some x) :
    ∃ b a', Returns (fun fuel => removeLink cb fuel a k) (b, a') ∧ SameTree a a' ∧
      a'.LinkLists ∧ a'.links k = none ∧
      (∀ j, j ≠ k → (a'.links j).map Link.core = (a.links j).map Link.core) ∧
      (∀ s id, s.owner x = some id → a.lookup id = 0 → ∀ j, j ≠ k →
        a'.nextOn s j = a.nextOn s j) ∧
      (∀ s j, j ≠ k → a.ownOn s j ≠ s.owner x → a'.nextOn s j = a.nextOn s j) ∧
      (a.lookup x.fromComp ≠ 0 → a.lookup x.toComp ≠ 0 → b = true) := by
  have hk0 : k ≠ 0 := by
    rintro rfl
    exact absurd (hl.null.symm.trans hx) (by simp)
  -- the side of the `from` component
  obtain ⟨a₁, hrun₁, htree₁, hsame₁, hother₁, hwithout₁, hframe₁, hkeep₁⟩ :=
    unlink_end_spec .outOf x.fromComp ht hl.null (hl.lists .outOf) hx
      (by intro id' h; simp only [Side.owner] at h; split at h <;> simp_all)
  have ht₁ := htree₁.table ht
  have hlinks : ∀ {a' : App δ}, SameLinks a a' → a'.links 0 = none := by
    intro a' h
    have h0 := h 0
    rw [hl.null] at h0
    simpa using h0
  obtain ⟨x₁, hx₁, hcore₁⟩ : ∃ x₁, a₁.links k = some x₁ ∧ x₁.core = x.core := by
    have h := hsame₁ k
    rw [hx] at h
    exact Option.map_eq_some_iff.mp h
  have hto₁ : x₁.toComp = x.toComp := congrArg (fun l => l.toComp) hcore₁
  have hlists₁ : Lists 0 (a₁.nextOn .into) (a₁.headOn .into) (a₁.ownOn .into) := by
    obtain ⟨hn, hh⟩ := hother₁ .into (by decide)
    rw [hn, hh, hsame₁.ownOn]
    exact hl.lists .into
  -- the side of the `to` component
  obtain ⟨a₂, hrun₂, htree₂, hsame₂, hother₂, hwithout₂, hframe₂, hkeep₂⟩ :=
    unlink_end_spec .into x.toComp ht₁ (hlinks hsame₁) hlists₁ hx₁
      (by intro id' h; rw [← hto₁]; exact (Option.some.inj h).symm)
  have hsame : SameLinks a a₂ := fun j => (hsame₂ j).trans (hsame₁ j)
  have hwithout : ∀ s, ListsWithout a₂ s k := by
    intro s
    cases s with
    | into => exact hwithout₂
    | outOf =>
        obtain ⟨hn, hh⟩ := hother₂ .outOf (by decide)
        unfold ListsWithout
        rw [hn, hh, hsame₂.ownOn]
        exact hwithout₁
  -- restoring the default value and the callbacks do not touch the structure
  set src := a.lookup x.fromComp with hsrc
  set dst := a₁.lookup x.toComp with hdst
  obtain ⟨a₃, hdefault, hfired₃⟩ : ∃ a₃, (if dst ≠ 0 then restoreDefault cb a₂ dst x₁.toSlot
      else some a₂) = some a₃ ∧ Fired a₂ a₃ := by
    by_cases h0 : dst = 0
    · exact ⟨a₂, by simp [h0], Fired.refl a₂⟩
    · obtain ⟨c, hc, -⟩ := (htree₂.table ht₁).live x.toComp (by rwa [htree₂.lookup])
      rw [htree₂.lookup] at hc
      obtain ⟨a₃, hdefault, hfired⟩ := restoreDefault_fired cb x₁.toSlot hc
      exact ⟨a₃, by rw [if_pos h0, hdefault], hfired⟩
  set a₄ := a₃.whenRunning cb (ifPresent src (.linkEvent false src k) ++
    ifPresent dst (.linkEvent false dst k)) with ha₄
  set a₅ := a₄.fireAll cb (ifPresent src (.fireLinksChanged src) ++
    ifPresent dst (.fireLinksChanged dst)) with ha₅
  have hfired : Fired a₂ a₅ :=
    hfired₃.trans ((Fired.whenRunning cb _ a₃).trans (Fired.fireAll cb _ a₄))
  have hlinks₅ := hfired.links
  have hkeep : ∀ j, j ≠ k → (a₅.deleteLink k).links j = a₂.links j := by
    intro j hj
    simp [deleteLink, update_of_ne hj, hlinks₅]
  refine ⟨src ≠ 0 && dst ≠ 0, a₅.deleteLink k, ?_, ?_, ?_, ?_, ?_, ?_, ?_, fun h₀ h₁ => ?_⟩
  · obtain ⟨n₁, hn₁⟩ := hrun₁
    obtain ⟨n₂, hn₂⟩ := hrun₂
    refine ⟨max n₁ n₂, fun fuel hfuel => ?_⟩
    have h₁ := hn₁ fuel (le_trans (le_max_left _ _) hfuel)
    have h₂ := hn₂ fuel (le_trans (le_max_right _ _) hfuel)
    have h₃ : removeLinkTo cb fuel a₁ dst k x₁.toSlot = some a₃ := by
      unfold removeLinkTo
      by_cases h0 : dst = 0
      · rw [hkeep₂ h0] at hdefault
        simpa [h0] using hdefault
      · simp only [if_pos h0] at h₂ hdefault
        simp only [if_pos h0, h₂, Option.bind_some, hdefault]
    have h₁' : removeLinkFrom fuel a src k = some a₁ := h₁
    simp only [removeLink, if_neg hk0, hx, Option.bind_eq_bind, Option.bind_some, ← hsrc, h₁',
      hx₁, hto₁, ← hdst, h₃]
    rfl
  · exact htree₁.trans (htree₂.trans (hfired.sameTree.trans (SameTree.deleteLink _ _)))
  · refine linkLists_deleteLink ?_ fun s => ?_
    · rw [hlinks₅]
      exact hlinks hsame
    · obtain ⟨d, b, h⟩ := hfired
      rw [h]
      exact hwithout s
  · simp [deleteLink]
  · exact fun j hj => by rw [hkeep j hj, hsame j]
  · intro s id hown hdead j hj
    have hside : a₂.nextOn s = a.nextOn s := by
      cases s with
      | into =>
          obtain rfl := Option.some.inj hown
          have h0 : dst = 0 := by rw [hdst, htree₁.lookup, hdead]
          rw [hkeep₂ h0, (hother₁ .into (by decide)).1]
      | outOf =>
          have hid : x.fromComp = id := by
            simp only [Side.owner] at hown
            split at hown
            · simp at hown
            · exact Option.some.inj hown
          have h0 : src = 0 := by rw [hsrc, hid, hdead]
          rw [(hother₂ .outOf (by decide)).1, hkeep₁ h0]
    rw [← hside, nextOn, nextOn, hkeep j hj]
  · intro s j hj hown
    have hside : a₂.nextOn s j = a.nextOn s j := by
      cases s with
      | into =>
          rw [← Side.into.owner_congr _ _ hcore₁, ← hsame₁.ownOn] at hown
          rw [hframe₂ j hown, (hother₁ .into (by decide)).1]
      | outOf => rw [(hother₂ .outOf (by decide)).1, hframe₁ j hown]
    rw [← hside, nextOn, nextOn, hkeep j hj]
  · have h₁' : dst ≠ 0 := by rwa [hdst, htree₁.lookup]
    simp [h₀, h₁']

/-- **Removing a whole list** of a component that is not in the table any more. Other links
keep their ends, and the component's list on the other side stays as it is. -/
theorem removeLinks_spec (cb : Callbacks δ) {l : List Ref} (ht : a.Table) (hl : a.LinkLists)
    (hdead : a.lookup id = 0) (hchain : Chain 0 (a.nextOn s) k l)
    (hown : ∀ j ∈ l, a.ownOn s j = some id ∧ ∀ t, t ≠ s → a.ownOn t j ≠ some id) :
    ∃ a', (∃ n, ∀ fuel, n ≤ fuel → ∀ m, n ≤ m → removeLinks cb fuel s m a k = some a') ∧
      SameTree a a' ∧ a'.LinkLists ∧ (∀ j ∈ l, a'.links j = none) ∧
      (∀ j, j ∉ l → (a'.links j).map Link.core = (a.links j).map Link.core) ∧
      (∀ t, t ≠ s → ∀ j, j ∉ l → a.ownOn t j = some id → a'.nextOn t j = a.nextOn t j) := by
  induction l generalizing a k with
  | nil =>
      obtain rfl := chain_nil.mp hchain
      refine ⟨a, ⟨1, fun fuel _ m hm => ?_⟩, SameTree.refl a, hl, by simp, fun _ _ => rfl,
        fun _ _ _ _ _ => rfl⟩
      obtain ⟨m, rfl⟩ : ∃ m', m = m' + 1 := ⟨m - 1, by omega⟩
      simp [removeLinks]
  | cons y l ih =>
      obtain ⟨rfl, hk0, n, hn, hrest⟩ := chain_cons.mp hchain
      obtain ⟨x, hx, rfl⟩ := nextOn_eq_some.mp hn
      obtain ⟨hownk, hother⟩ := hown k List.mem_cons_self
      rw [ownOn_eq hx] at hownk
      obtain ⟨b, a₁, hrun, htree, hlists, hgone, hcore, hsame, hframe, -⟩ :=
        removeLink_spec cb ht hl hx
      have hnotin := (List.nodup_cons.mp hchain.nodup).1
      have hne : ∀ j ∈ l, j ≠ k := fun j hj heq => hnotin (heq ▸ hj)
      have hown₁ : ∀ t j, j ≠ k → a₁.ownOn t j = a.ownOn t j := by
        intro t j hj
        have h := hcore j hj
        revert h
        unfold ownOn
        cases a.links j <;> cases a₁.links j <;> intro h
        · rfl
        · simp at h
        · simp at h
        · exact t.owner_congr _ _ (Option.some.inj h)
      obtain ⟨a', ⟨m₂, hrun₂⟩, htree₂, hlists₂, hgone₂, hcore₂, hother₂⟩ :=
        ih (htree.table ht) hlists (by rw [htree.lookup, hdead])
          (hrest.congr fun j hj => hsame s id hownk hdead j (hne j hj))
          (fun j hj => by
            obtain ⟨h₁, h₂⟩ := hown j (List.mem_cons_of_mem _ hj)
            exact ⟨by rw [hown₁ s j (hne j hj), h₁],
              fun t ht => by rw [hown₁ t j (hne j hj)]; exact h₂ t ht⟩)
      obtain ⟨m₁, hrun₁⟩ := hrun
      refine ⟨a', ⟨max m₁ m₂ + 1, fun fuel hfuel m hm => ?_⟩, htree.trans htree₂, hlists₂, ?_, ?_,
        ?_⟩
      · obtain ⟨m, rfl⟩ : ∃ m', m = m' + 1 := ⟨m - 1, by omega⟩
        simp only [removeLinks, if_neg hk0, hx, Option.bind_eq_bind, Option.bind_some,
          hrun₁ fuel (by omega)]
        exact hrun₂ fuel (by omega) m (by omega)
      · intro j hj
        rcases List.mem_cons.mp hj with rfl | hj
        · have h := hcore₂ j hnotin
          rw [hgone] at h
          simpa using h
        · exact hgone₂ j hj
      · intro j hj
        rw [List.mem_cons, not_or] at hj
        rw [hcore₂ j hj.2, hcore j hj.1]
      · intro t hts j hj hownj
        rw [List.mem_cons, not_or] at hj
        rw [hother₂ t hts j hj.2 (by rw [hown₁ t j hj.1, hownj])]
        refine hframe t j hj.1 fun heq => hother t hts ?_
        rw [ownOn_eq hx, ← heq, hownj]

end Unlink

/-! ### Inserting a link -/

section Insert

variable {a : App δ} {s : Side} {id : ℕ} {r k : Ref} {c : Component} {x : Link}

/-- The link `x` behind `k` put in front of the list on this side of the component `c` behind
`r`: its list field takes the head of the list, and the head takes the link. -/
def pushOn (a : App δ) (s : Side) (r k : Ref) (c : Component) (x : Link) : App δ :=
  (a.putLink k (s.setNext (s.head c) x)).put r (s.setHead k c)

/-- **Registering a link on one side.** -/
theorem push_spec (ht : a.Table) (hlists : ListsWithout a s k) (hk0 : k ≠ 0)
    (hx : a.links k = some x) (hown : s.owner x = some id) (hr : a.lookup id = r)
    (hc : a.objs r = some c) (h0 : r ≠ 0) :
    SameTree a (a.pushOn s r k c x) ∧ SameLinks a (a.pushOn s r k c x) ∧
      Lists 0 ((a.pushOn s r k c x).nextOn s) ((a.pushOn s r k c x).headOn s)
        ((a.pushOn s r k c x).ownOn s) ∧
      ∀ t, t ≠ s → (a.pushOn s r k c x).nextOn t = a.nextOn t ∧
        (a.pushOn s r k c x).headOn t = a.headOn t := by
  set b := a.pushOn s r k c x with hb
  have hcomp : a.comp id = some c := by rw [comp_of_lookup hr, hc]
  have hsame : SameLinks a b := by
    intro j
    show ((a.putLink k (s.setNext (s.head c) x)).links j).map Link.core = _
    by_cases hj : j = k
    · subst hj
      simp [hx]
    · rw [putLink_links_of_ne hj]
  have hnext : ∀ t, b.nextOn t = if t = s then update (a.nextOn t) k (some (s.head c))
      else a.nextOn t := fun t => nextOn_putLink s t hx (s.head c)
  have hhead : ∀ t, b.headOn t = update (a.headOn t) id (some (t.head (s.setHead k c))) := by
    intro t
    have ht' : (a.putLink k (s.setNext (s.head c) x)).Table :=
      (SameTree.putLink a k _).table ht
    exact headOn_put ht' hr h0 t
  refine ⟨(SameTree.putLink a k _).trans (SameTree.put hc hr (by simp)), hsame, ?_, ?_⟩
  · refine hlists.push (i := id) (h := s.head c) (k := k) (by simp [headOn, hcomp]) (by simp) hk0
      ?_ ?_ ?_ ?_ ?_ ?_
    · rw [hnext, if_pos rfl, update_self]
    · intro j hj
      rw [hnext, if_pos rfl, update_of_ne hj]
    · rw [hsame.ownOn, ownOn_eq hx, hown]
    · intro j hj
      rw [hsame.ownOn, if_neg hj]
    · rw [hhead, update_self, Side.head_setHead]
    · intro j hj
      rw [hhead, update_of_ne hj]
  · intro t hts
    refine ⟨by rw [hnext, if_neg hts], ?_⟩
    rw [hhead, Side.head_setHead_of_ne _ _ _ _ hts]
    funext j
    by_cases hj : j = id
    · subst hj
      simp [headOn, hcomp]
    · rw [update_of_ne hj]

/-- **Inserting a new link** between two components of the table. -/
theorem insertLink_spec (ht : a.Table) (hl : a.LinkLists) (hk : a.links k = none) (hk0 : k ≠ 0)
    (hsrc : a.lookup x.fromComp ≠ 0) (hdst : a.lookup x.toComp ≠ 0) :
    ∃ a', insertLink (a.putLink k x) k = some (true, a') ∧ SameTree a a' ∧ a'.LinkLists ∧
      (∀ j, j ≠ k → (a'.links j).map Link.core = (a.links j).map Link.core) ∧
      (a'.links k).map Link.core = some x.core := by
  set a₁ := a.putLink k x with ha₁
  have ht₁ : a₁.Table := (SameTree.putLink a k x).table ht
  have hx₁ : a₁.links k = some x := putLink_links_self
  have hwithout : ∀ s, ListsWithout a₁ s k := by
    intro s
    refine (hl.lists s).congr (fun _ _ hi => hi) ?_ ?_
    · intro j i p _
      by_cases hj : j = k
      · subst hj
        simp [ownOn, hk]
      · rw [if_neg hj, ownOn, ownOn, ha₁, putLink_links_of_ne hj]
    · intro j i p _ hown
      have hj : j ≠ k := by
        rintro rfl
        simp [ownOn, hk] at hown
      rw [nextOn, nextOn, ha₁, putLink_links_of_ne hj]
  obtain ⟨d, hd, hdid⟩ := ht₁.live x.toComp hdst
  -- the list of the `to` component
  set x₂ := Side.into.setNext (Side.into.head d) x with hx₂
  set a₂ := a₁.pushOn .into (a₁.lookup x.toComp) k d x with ha₂
  obtain ⟨htree₂, hsame₂, hlists₂, hother₂⟩ :=
    push_spec (s := .into) ht₁ (hwithout .into) hk0 hx₁ rfl rfl hd hdst
  have hsame : ∀ {a' : App δ}, SameLinks a₁ a' →
      (∀ j, j ≠ k → (a'.links j).map Link.core = (a.links j).map Link.core) ∧
      (a'.links k).map Link.core = some x.core := by
    intro a' h
    refine ⟨fun j hj => by rw [h j, ha₁, putLink_links_of_ne hj], ?_⟩
    rw [h k, hx₁]
    rfl
  have hnull : ∀ {a' : App δ}, SameLinks a₁ a' → a'.links 0 = none := by
    intro a' h
    have h0 := (hsame h).1 0 hk0.symm
    rw [hl.null] at h0
    simpa using h0
  have hwithout₂ : ListsWithout a₂ .outOf k := by
    obtain ⟨hn, hh⟩ := hother₂ .outOf (by decide)
    have h := hwithout .outOf
    unfold ListsWithout at h ⊢
    rw [← hn, ← hh, ← hsame₂.ownOn] at h
    exact h
  have htable₂ := htree₂.table ht₁
  have hlinks₂ : a₂.links k = some x₂ := putLink_links_self
  have hrun₁ : insertLink a₁ k = if a.lookup x.toComp ≠ a.lookup x.fromComp then do
      let obj ← a₂.objs (a.lookup x.fromComp)
      let b ← a₂.writeLink k fun l => { l with nextFrom := obj.linksFrom }
      let b ← b.write (a.lookup x.fromComp) fun c => { c with linksFrom := k }
      some (true, b) else some (true, a₂) := by
    have hlookup : ∀ id, a₁.lookup id = a.lookup id := fun _ => rfl
    simp only [insertLink, hx₁, Option.bind_eq_bind, Option.bind_some, hlookup]
    rw [if_neg (by simp [hsrc, hdst])]
    rw [hlookup] at hd
    simp only [hd, Option.bind_some, writeLink_eq hx₁]
    rw [write_eq (a := a₁.putLink k _) hd]
    rfl
  by_cases hself : x.fromComp = x.toComp
  · -- a link from a component to itself is registered once
    refine ⟨a₂, ?_, (SameTree.putLink a k x).trans htree₂, ⟨hnull hsame₂, fun s => ?_⟩,
      hsame hsame₂⟩
    · rw [hrun₁, if_neg (by simp [hself])]
    · cases s with
      | into => exact hlists₂
      | outOf =>
          refine hwithout₂.congr (fun _ _ hi => hi) ?_ (fun _ _ _ _ _ => rfl)
          intro j i p _
          by_cases hj : j = k
          · subst hj
            simp [ownOn, hlinks₂, hx₂, Side.owner, Side.setNext, hself]
          · rw [if_neg hj]
  · -- the list of the `from` component
    have hne : a.lookup x.toComp ≠ a.lookup x.fromComp := fun h => hself (ht.inj hdst h).symm
    obtain ⟨c, hc, hcid⟩ := htable₂.live x.fromComp hsrc
    have hown : Side.outOf.owner x₂ = some x.fromComp := by
      simp [Side.owner, hx₂, Side.setNext, hself]
    obtain ⟨htree₃, hsame₃, hlists₃, hother₃⟩ :=
      push_spec (s := .outOf) htable₂ hwithout₂ hk0 hlinks₂ hown rfl hc hsrc
    set a₃ := a₂.pushOn .outOf (a₂.lookup x.fromComp) k c x₂ with ha₃
    have hsame₁₃ : SameLinks a₁ a₃ := fun j => (hsame₃ j).trans (hsame₂ j)
    refine ⟨a₃, ?_, (SameTree.putLink a k x).trans (htree₂.trans htree₃),
      ⟨hnull hsame₁₃, fun s => ?_⟩, hsame hsame₁₃⟩
    · rw [hrun₁, if_pos hne]
      have hc' : a₂.objs (a.lookup x.fromComp) = some c := hc
      simp only [hc', Option.bind_eq_bind, Option.bind_some, writeLink_eq hlinks₂]
      rw [write_eq (a := a₂.putLink k _) hc']
      rfl
    · cases s with
      | outOf => exact hlists₃
      | into =>
          obtain ⟨hn, hh⟩ := hother₃ .into (by decide)
          rw [hn, hh, hsame₃.ownOn]
          exact hlists₂

end Insert

end App

end Sedona
