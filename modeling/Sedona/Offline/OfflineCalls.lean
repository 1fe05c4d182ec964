import Sedona.Library.Transition
import Sedona.Offline.OfflineTree

/-!
# Runs of Calls on the Offline Application

The calls that go over the tree, and what holds after any run of calls. A run keeps the application
consistent as long as no component gets the name of a sibling, no child is listed twice in a new
order, no component is added to one that has lost its map of names, links are added between mounted
components, and a component is removed with components that have ids.

## Main results

* `removeFrom_spec`, `assignFrom_spec`: the recursions end, and what they do to the tree.
* `offline_consistent`: the application is consistent after any such run, and a call that throws
  leaves it as it was.
* `not_offline_consistent`: a component gets the name of its sibling.
-/

namespace Sedona.Offline.OfflineApp

open Function Relation Transition

variable {s t : OfflineApp} {c p k kid : Ref}

/-! ### What is below a component -/

/-- The component `x` is `c`, or a child of a component below `c`. -/
abbrev Below (s : OfflineApp) : Ref → Ref → Prop :=
  ReflTransGen fun x y => (s.comps x).parent = some y

theorem Below.mono (h : ∀ x y, (t.comps x).parent = some y → (s.comps x).parent = some y)
    {x : Ref} (hx : Below t x c) : Below s x c :=
  ReflTransGen.mono h _ _ hx

theorem Inv.rank_le {rank : Ref → ℕ}
    (hrank : ∀ c p, (s.comps c).parent = some p → rank p < rank c) {x : Ref} (h : Below s x c) :
    rank c ≤ rank x := by
  induction h with
  | refl => exact le_rfl
  | tail _ hstep ih => exact (hrank _ _ hstep).le.trans ih

/-- A component is not below its child. -/
theorem Inv.not_below_kid (h : Inv s) (hk : (s.comps k).parent = some c) : ¬Below s c k := by
  obtain ⟨rank, hrank⟩ := h.ranked
  intro hbelow
  exact absurd (rank_le hrank hbelow) (not_le.mpr (hrank _ _ hk))

open Classical in
/-- The components below `c`. -/
noncomputable def below (s : OfflineApp) (c : Ref) : Finset Ref :=
  (Finset.range s.size).filter (Below s · c)

theorem mem_below {x : Ref} : x ∈ s.below c ↔ x < s.size ∧ Below s x c := by
  classical
  rw [below, Finset.mem_filter, Finset.mem_range]

theorem card_below_le : (s.below c).card ≤ s.size := by
  classical
  exact (Finset.card_filter_le ..).trans (Finset.card_range _).le

/-- There are less components below a child. -/
theorem Inv.card_below_lt (h : Inv s) (hk : (s.comps k).parent = some c) :
    (s.below k).card < (s.below c).card := by
  have hsub : s.below k ⊆ s.below c := by
    intro x hx
    obtain ⟨hrange, hbelow⟩ := mem_below.mp hx
    exact mem_below.mpr ⟨hrange, hbelow.tail hk⟩
  have hc : c ∈ s.below c := mem_below.mpr ⟨h.created (h.parent hk), .refl⟩
  have hnot : c ∉ s.below k := fun hc => h.not_below_kid hk (mem_below.mp hc).2
  exact Finset.card_lt_card ((Finset.ssubset_iff_of_subset hsub).mpr ⟨c, hc, hnot⟩)

theorem card_below_mono (hsize : t.size = s.size)
    (h : ∀ x y, (t.comps x).parent = some y → (s.comps x).parent = some y) :
    (t.below c).card ≤ (s.below c).card := by
  refine Finset.card_le_card fun x hx => ?_
  obtain ⟨hrange, hbelow⟩ := mem_below.mp hx
  exact mem_below.mpr ⟨hsize ▸ hrange, hbelow.mono h⟩

/-! ### Removing -/

/-- What the removal of some components makes of the tree. -/
structure Removes (s t : OfflineApp) (kids : List Ref) : Prop where
  inv : Inv t
  size : t.size = s.size
  id (x : Ref) : (t.comps x).id = (s.comps x).id
  parent {x y : Ref} (h : (t.comps x).parent = some y) : (s.comps x).parent = some y
  gone {k : Ref} (hk : k ∈ kids) : (t.comps k).parent = none
  kept {x : Ref} (h : ∀ k ∈ kids, ¬Below s x k) : (t.comps x).parent = (s.comps x).parent

/-- All components below `c` have ids. -/
def Assigned (s : OfflineApp) (c : Ref) : Prop := ∀ x, Below s x c → 0 ≤ (s.comps x).id

/-- The loop over the children of a component. -/
theorem eachKid_removes {f : OfflineApp → Ref → Outcome} {n : ℕ}
    (hf : ∀ {s k c}, Inv s → (s.comps k).parent = some c → s.Assigned k → (s.below k).card ≤ n →
      ∃ t, f s k = (.ok (), t) ∧ Removes s t [k])
    (h : Inv s) {ks : List Ref} (hks : ∀ k ∈ ks, (s.comps k).parent = some c) (hnodup : ks.Nodup)
    (hassigned : ∀ k ∈ ks, s.Assigned k) (hcard : ∀ k ∈ ks, (s.below k).card ≤ n) :
    ∃ t, eachKid f s ks = (.ok (), t) ∧ Removes s t ks := by
  induction ks generalizing s with
  | nil =>
      exact ⟨s, rfl, h, rfl, fun _ => rfl, id, fun hk => absurd hk List.not_mem_nil, fun _ => rfl⟩
  | cons k ks ih =>
      have hk := hks k List.mem_cons_self
      obtain ⟨hknot, hnodup⟩ := List.nodup_cons.mp hnodup
      obtain ⟨u, hu, hremoves⟩ := hf h hk (hassigned k List.mem_cons_self)
        (hcard k List.mem_cons_self)
      -- the siblings are not below the child that is removed
      have hsibling : ∀ l ∈ ks, ¬Below s l k := by
        intro l hl hbelow
        have hlc := hks l (List.mem_cons_of_mem k hl)
        rcases ReflTransGen.cases_head hbelow with rfl | ⟨y, hy, hrest⟩
        · exact hknot hl
        · obtain rfl := Option.some.inj (hlc.symm.trans hy)
          exact h.not_below_kid hk hrest
      have hrest : ∀ l ∈ ks, (u.comps l).parent = some c := by
        intro l hl
        rw [hremoves.kept fun j hj => List.mem_singleton.mp hj ▸ hsibling l hl]
        exact hks l (List.mem_cons_of_mem k hl)
      obtain ⟨t, ht, htail⟩ := ih hremoves.inv hrest hnodup
        (fun l hl x hx => by
          rw [hremoves.id]
          exact hassigned l (List.mem_cons_of_mem k hl) x (hx.mono fun _ _ => hremoves.parent))
        (fun l hl => (card_below_mono hremoves.size fun _ _ => hremoves.parent).trans
          (hcard l (List.mem_cons_of_mem k hl)))
      refine ⟨t, by rw [eachKid, hu]; exact ht, ?_⟩
      constructor
      case inv => exact htail.inv
      case size => exact htail.size.trans hremoves.size
      case id => exact fun x => (htail.id x).trans (hremoves.id x)
      case parent => exact fun hx => hremoves.parent (htail.parent hx)
      case gone =>
        intro j hj
        rcases List.mem_cons.mp hj with rfl | hj
        · cases hpar : (t.comps j).parent with
          | none => rfl
          | some y =>
              have hu := htail.parent hpar
              rw [hremoves.gone (List.mem_singleton_self j)] at hu
              cases hu
        · exact htail.gone hj
      case kept =>
        intro x hx
        rw [htail.kept fun j hj hbelow => hx j (List.mem_cons_of_mem k hj)
          (hbelow.mono fun _ _ => hremoves.parent)]
        exact hremoves.kept fun j hj => List.mem_singleton.mp hj ▸ hx k List.mem_cons_self

/-- **The recursion of `remove`** removes a component with all below it, if these have ids. -/
theorem removeFrom_spec {n : ℕ} (h : Inv s) (hk : (s.comps kid).parent = some p)
    (hassigned : s.Assigned kid) (hcard : (s.below kid).card ≤ n) :
    ∃ t, removeFrom n s kid = (.ok (), t) ∧ Removes s t [kid] := by
  have happ : (s.comps kid).app = true := (h.mounted kid).mpr (Or.inr (hk ▸ rfl))
  induction n generalizing s kid p with
  | zero =>
      have hmem : kid ∈ s.below kid := mem_below.mpr ⟨h.created happ, .refl⟩
      exact absurd (Finset.card_pos.mpr ⟨kid, hmem⟩) (not_lt.mpr hcard)
  | succ n ih =>
      have hthis : kid ≠ this := by
        rintro rfl
        rw [h.root.2.1] at hk
        cases hk
      have hid := hassigned kid .refl
      have hlookup : s.lookupId (s.comps kid).id = some kid :=
        (h.lookup _ kid).mpr ⟨happ, rfl, hid⟩
      have hkids : ∀ k ∈ s.children kid, (s.comps k).parent = some kid := fun k =>
        (h.children kid k).mp
      obtain ⟨u, hu, hremoves⟩ := eachKid_removes (f := removeFrom n) (n := n)
        (fun hs hj ha hn => ih hs hj ha hn ((hs.mounted _).mpr (Or.inr (hj ▸ rfl)))) h hkids
        (h.nodup kid) (fun k hk x hx => hassigned x (hx.tail (hkids k hk)))
        fun k hk => Nat.le_of_lt_succ ((h.card_below_lt (hkids k hk)).trans_le hcard)
      have hparent : (u.comps kid).parent = some p :=
        (hremoves.kept fun k hk => h.not_below_kid (hkids k hk)).trans hk
      have hleaf : u.children kid = [] := by
        refine List.eq_nil_iff_forall_not_mem.mpr fun x hx => ?_
        have hx := (hremoves.inv.children kid x).mp hx
        have hgone := hremoves.gone ((h.children kid x).mpr (hremoves.parent hx))
        rw [hgone] at hx
        cases hx
      have huid : 0 ≤ (u.comps kid).id := by
        rw [hremoves.id]
        exact hid
      have hne : kid ≠ p := (h.parent_ne hk).symm
      refine ⟨u.unmounted p kid, ?_, ?_⟩
      · rw [removeFrom, if_neg hthis, if_neg, hu]
        · exact unmount_eq hremoves.inv hparent
        · simp [happ, hlookup]
      constructor
      case inv => exact inv_unmounted hremoves.inv hparent huid hleaf
      case size => exact hremoves.size
      case id => exact fun x => (unmounted_id hne).trans (hremoves.id x)
      case parent =>
        intro x y hx
        rw [unmounted_parent hne] at hx
        split at hx
        · cases hx
        · exact hremoves.parent hx
      case gone =>
        intro k hk
        rw [List.mem_singleton.mp hk, unmounted_parent hne, if_pos rfl]
      case kept =>
        intro x hx
        have hbelow := hx kid (List.mem_singleton_self kid)
        have hxk : x ≠ kid := by
          rintro rfl
          exact hbelow .refl
        rw [unmounted_parent hne, if_neg hxk]
        exact hremoves.kept fun k hk hxk => hbelow (hxk.tail (hkids k hk))

/-- The components that `remove` goes down to first come to one without an id: it throws before it
has removed any. -/
inductive Stuck (s : OfflineApp) : Ref → Prop
  | here {c : Ref} (h : (s.comps c).id < 0) : Stuck s c
  | first {c k : Ref} {ks : List Ref} (hc : s.children c = k :: ks) (hk : Stuck s k) : Stuck s c

/-- A call throws, and leaves the application as it was. -/
def Refused (o : Outcome) (s : OfflineApp) : Prop := ∃ e, o = (.error e, s)

theorem Stuck.refused (h : Stuck s c) (n : ℕ) : Refused (removeFrom n s c) s := by
  induction h generalizing n with
  | here hid =>
      cases n with
      | zero => exact ⟨_, rfl⟩
      | succ n =>
          rw [removeFrom]
          split
          · exact ⟨_, rfl⟩
          · rw [if_pos]
            · exact ⟨_, rfl⟩
            · rw [lookupId_of_neg hid]
              exact Or.inr nofun
  | first hc hk ih =>
      cases n with
      | zero => exact ⟨_, rfl⟩
      | succ n =>
          rw [removeFrom]
          split
          · exact ⟨_, rfl⟩
          split
          · exact ⟨_, rfl⟩
          · obtain ⟨e, he⟩ := ih n
            rw [hc, eachKid, he]
            exact ⟨e, rfl⟩

/-! ### Assigning ids -/

/-- **A component gets an id** that none has. -/
theorem inv_assignId (h : Inv s) (hc : (s.comps c).app = true) (hid : (s.comps c).id < 0) :
    Inv (s.assignId c) ∧ SameTree s (s.assignId c) := by
  have hsame : SameTree s (s.assignId c) := by
    have hmodify := sameTree_modify (s := s.generateId.2) (c := c)
      (f := fun comp => { comp with id := s.generateId.1 }) rfl rfl rfl
    exact ⟨hmodify.app, hmodify.parent, hmodify.children, hmodify.size⟩
  have hcomps : (s.assignId c).comps =
      (s.modify c fun comp => { comp with id := (s.generateId.1 : ℤ) }).comps := rfl
  have hids : ∀ k, ((s.assignId c).comps k).id =
      if k = c then (s.generateId.1 : ℤ) else (s.comps k).id := by
    intro k
    rw [hcomps]
    by_cases hk : k = c
    · rw [if_pos hk, hk, modify_comps_self]
    · rw [if_neg hk, modify_comps_of_ne hk]
  have hfree : s.lookupId s.generateId.1 = none := by
    rw [lookupId_of_nonneg (Int.natCast_nonneg _), Int.toNat_natCast]
    exact generateId_free
  have hnew : ((s.generateId.2.modify c fun comp =>
      { comp with id := (s.generateId.1 : ℤ) }).comps c).id = s.generateId.1 := by
    rw [modify_comps_self]
  have hlookup : ∀ i, (s.assignId c).lookupId i =
      if i = s.generateId.1 then some c else s.lookupId i := by
    intro i
    have htable : (s.assignId c).lookupId i =
        if i = ((s.generateId.2.modify c fun comp =>
          { comp with id := (s.generateId.1 : ℤ) }).comps c).id then some c else s.lookupId i :=
      lookupId_addToLookupTable (hnew.symm ▸ Int.natCast_nonneg _)
    rw [hnew] at htable
    exact htable
  have hthis : this ≠ c := by
    rintro rfl
    rw [h.root.2.2] at hid
    exact absurd hid (lt_irrefl 0)
  refine ⟨h.transport hsame ?_ (fun d name k => ?_) (fun i k => ?_) (fun l hl => h.links hl)
    h.distinct, hsame⟩
  · rw [hids, if_neg hthis]
    exact h.root.2.2
  · unfold OfflineApp.child
    rw [hcomps, modify_field (·.kidsByName) rfl, modify_field (·.name) rfl]
    exact h.child d name k
  · rw [hlookup, hids]
    by_cases hi : i = s.generateId.1
    · rw [if_pos hi]
      constructor
      · intro hk
        obtain rfl := Option.some.inj hk
        exact ⟨hc, (if_pos rfl).trans hi.symm, hi ▸ Int.natCast_nonneg _⟩
      · rintro ⟨happ, hk, hpos⟩
        by_cases hkc : k = c
        · rw [hkc]
        · rw [if_neg hkc] at hk
          have hused := (h.lookup _ k).mpr ⟨happ, hk, hpos⟩
          rw [hi, hfree] at hused
          cases hused
    · rw [if_neg hi, h.lookup i k]
      by_cases hkc : k = c
      · rw [if_pos hkc, hkc]
        exact iff_of_false (fun hk => absurd (hk.2.1 ▸ hk.2.2) (not_le.mpr hid))
          fun hk => hi hk.2.1.symm
      · rw [if_neg hkc]

theorem eachKid_sameTree {f : OfflineApp → Ref → Outcome} {n : ℕ}
    (hf : ∀ {s k}, Inv s → (s.comps k).app = true → (s.below k).card ≤ n →
      ∃ t, f s k = (.ok (), t) ∧ Inv t ∧ SameTree s t)
    (h : Inv s) {ks : List Ref} (hks : ∀ k ∈ ks, (s.comps k).app = true)
    (hcard : ∀ k ∈ ks, (s.below k).card ≤ n) :
    ∃ t, eachKid f s ks = (.ok (), t) ∧ Inv t ∧ SameTree s t := by
  induction ks generalizing s with
  | nil => exact ⟨s, rfl, h, .refl s⟩
  | cons k ks ih =>
      obtain ⟨u, hu, hinv, hsame⟩ := hf h (hks k List.mem_cons_self) (hcard k List.mem_cons_self)
      obtain ⟨t, ht, hinv', hsame'⟩ := ih hinv
        (fun l hl => (hsame.app l).trans (hks l (List.mem_cons_of_mem k hl)))
        fun l hl => (card_below_mono hsame.size fun x _ hx => hsame.parent x ▸ hx).trans
          (hcard l (List.mem_cons_of_mem k hl))
      exact ⟨t, by rw [eachKid, hu]; exact ht, hinv', hsame.trans hsame'⟩

/-- **The recursion of `assignIds`.** -/
theorem assignFrom_spec {n : ℕ} (h : Inv s) (hc : (s.comps c).app = true)
    (hcard : (s.below c).card ≤ n) :
    ∃ t, assignFrom n s c = (.ok (), t) ∧ Inv t ∧ SameTree s t := by
  induction n generalizing s c with
  | zero =>
      have hmem : c ∈ s.below c := mem_below.mpr ⟨h.created hc, .refl⟩
      exact absurd (Finset.card_pos.mpr ⟨c, hmem⟩) (not_lt.mpr hcard)
  | succ n ih =>
      rw [assignFrom]
      have hassigned : Inv (if (s.comps c).id < 0 then s.assignId c else s) ∧
          SameTree s (if (s.comps c).id < 0 then s.assignId c else s) := by
        split
        · next hid => exact inv_assignId h hc hid
        · exact ⟨h, .refl s⟩
      generalize (if (s.comps c).id < 0 then s.assignId c else s) = u at hassigned ⊢
      obtain ⟨hinv, hsame⟩ := hassigned
      have hkids : ∀ k ∈ u.children c, (u.comps k).parent = some c := fun k =>
        (hinv.children c k).mp
      have hu : (u.below c).card ≤ n + 1 :=
        (card_below_mono hsame.size fun x _ hx => hsame.parent x ▸ hx).trans hcard
      obtain ⟨t, ht, hinv', hsame'⟩ := eachKid_sameTree (f := assignFrom n) ih hinv
        (fun k hk => (hinv.mounted k).mpr (Or.inr (hkids k hk ▸ rfl)))
        fun k hk => Nat.le_of_lt_succ ((hinv.card_below_lt (hkids k hk)).trans_le hu)
      exact ⟨t, ht, hinv', hsame.trans hsame'⟩

/-! ### New components -/

theorem empty_lookupId (type : TypeFlags) (id : ℤ) :
    (empty type).lookupId id = if id = 0 then some this else none := by
  by_cases hneg : id < 0
  · rw [lookupId_of_neg hneg, if_neg (by omega)]
  rw [lookupId_of_nonneg (not_lt.mp hneg)]
  by_cases hid : id = 0
  · rw [if_pos hid, hid]
    rfl
  · obtain ⟨n, hn⟩ : ∃ n, id.toNat = n + 1 := ⟨id.toNat - 1, by omega⟩
    rw [if_neg hid, hn, empty, List.getElem?_cons_succ, List.getElem?_replicate]
    split <;> rfl

theorem inv_empty (type : TypeFlags) : Inv (empty type) := by
  have hparent : ∀ c, ((empty type).comps c).parent = none := by
    intro c
    by_cases hc : c = this
    · simp only [empty, hc, update_self, absent]
    · simp only [empty, update_of_ne hc, absent]
  have happ : ∀ c, ((empty type).comps c).app = true ↔ c = this := by
    intro c
    by_cases hc : c = this
    · simp only [empty, hc, update_self]
    · simp only [empty, update_of_ne hc, absent, Bool.false_eq_true, hc]
  have hkids : ∀ c, (empty type).children c = [] := by
    intro c
    by_cases hc : c = this
    · simp only [children, empty, hc, update_self, absent, Option.getD_none]
    · simp only [children, empty, update_of_ne hc, absent, Option.getD_none]
  have hmap : ∀ c name, (empty type).child c name = none := by
    intro c name
    by_cases hc : c = this
    · simp only [child, empty, hc, update_self, absent, Option.bind_none]
    · simp only [child, empty, update_of_ne hc, absent, Option.bind_none]
  have hid : ((empty type).comps this).id = 0 := by simp only [empty, update_self]
  constructor
  case root => exact ⟨(happ this).mpr rfl, hparent this, hid⟩
  case mounted =>
    intro c
    rw [happ, hparent]
    exact (or_iff_left (by decide)).symm
  case parent =>
    intro c p hp
    rw [hparent] at hp
    cases hp
  case children =>
    intro c k
    rw [hkids, hparent]
    exact iff_of_false List.not_mem_nil (Option.some_ne_none c).symm
  case nodup =>
    intro c
    rw [hkids]
    exact List.nodup_nil
  case child =>
    intro c name k
    rw [hmap, hkids]
    exact iff_of_false (Option.some_ne_none k).symm fun hk => absurd hk.1 List.not_mem_nil
  case ranked =>
    refine ⟨fun _ => 0, fun c p hp => ?_⟩
    rw [hparent] at hp
    cases hp
  case created =>
    intro c hc
    rw [(happ c).mp hc]
    exact Nat.one_pos
  case lookup =>
    intro id c
    rw [empty_lookupId, happ]
    by_cases hzero : id = 0
    · rw [if_pos hzero, hzero]
      constructor
      · intro hc
        obtain rfl := Option.some.inj hc
        exact ⟨rfl, hid, le_rfl⟩
      · rintro ⟨rfl, -⟩
        rfl
    · rw [if_neg hzero]
      refine iff_of_false (Option.some_ne_none c).symm ?_
      rintro ⟨rfl, hid', -⟩
      exact hzero (hid'.symm.trans hid)
  case links =>
    intro l hl
    exact absurd hl List.not_mem_nil
  case distinct => exact List.nodup_nil

/-- Whatever is not mounted can be made anew. -/
theorem inv_renew (h : Inv s) (hc : (s.comps c).app = false) (hparent : (s.comps c).parent = none)
    {x : OfflineComponent} (happ : x.app = false) (hroot : x.parent = none)
    (hkids : x.kids = none) (hmap : x.kidsByName = none) : Inv (s.modify c fun _ => x) := by
  have hsame : SameTree s (s.modify c fun _ => x) := by
    refine ⟨modify_field (·.app) (happ.trans hc.symm), modify_field (·.parent)
      (hroot.trans hparent.symm), fun k => ?_, rfl⟩
    by_cases hk : k = c
    · rw [hk, h.children_eq_nil hc]
      unfold OfflineApp.children
      rw [modify_comps_self, hkids]
      rfl
    · unfold OfflineApp.children
      rw [modify_comps_of_ne hk]
  have hother : ∀ k, (s.comps k).app = true → (s.modify c fun _ => x).comps k = s.comps k := by
    intro k hk
    refine modify_comps_of_ne ?_
    rintro rfl
    rw [hc] at hk
    cases hk
  refine h.transport hsame ?_ (fun d name k => ?_) (fun i k => ?_) (fun l hl => h.links hl)
    h.distinct
  · rw [hother this h.root.1]
    exact h.root.2.2
  · have hchild : (s.modify c fun _ => x).child d name = s.child d name := by
      by_cases hd : d = c
      · rw [hd, h.child_eq_none (h.children_eq_nil hc)]
        unfold OfflineApp.child
        rw [modify_comps_self, hmap]
        rfl
      · unfold OfflineApp.child
        rw [modify_comps_of_ne hd]
    rw [hchild, h.child d name k]
    refine and_congr_right fun hk => ?_
    rw [hother k ((h.mounted k).mpr (Or.inr ((h.children d k).mp hk ▸ rfl)))]
  · refine (h.lookup i k).trans (and_congr_right fun hk => ?_)
    rw [hother k hk]

/-! ### Runs -/

/-- What `add` checks. -/
structure Admits (s : OfflineApp) (p kid : Ref) : Prop where
  id : s.lookupId (s.comps kid).id = none
  app : (s.comps p).app = true
  parent : (s.comps kid).parent = none
  name : s.child p (s.comps kid).name = none
  size : (s.children p).length < maxChildren
  type : (s.comps kid).type.isAbstract = false ∧ (s.comps kid).type.isPublic = true

/-- The calls that keep the application consistent. -/
def Careful (s : OfflineApp) : Call → Prop
  -- the parent has a map of names if it has a list of children
  | .add parent kid => ∀ p, parent = some p → s.Admits p kid →
      (s.comps p).kids.isSome → (s.comps p).kidsByName.isSome
  -- all that is removed has an id, or nothing is removed
  | .remove kid => kid ≠ this → (s.comps kid).app = true → s.Assigned kid ∨ s.Stuck kid
  -- no sibling has the name
  | .rename c newName => checkName newName = none → ∀ p, (s.comps c).parent = some p →
      s.child p (some newName) = none ∨ s.child p (some newName) = some c
  -- no child is named twice, if all ids are those of children
  | .reorder parent ids => ∀ p, parent = some p → (s.children p).length = ids.length →
      (∀ id ∈ ids, ∃ k ∈ s.children p, (s.comps k).id = id) → ids.Nodup
  -- the link joins components that are mounted, or is there already
  | .addLink l => s.findLink l = none →
      (s.comps l.fromComp).app = true ∧ (s.comps l.toComp).app = true
  | .create .. | .removeLink _ | .assignIds => True

/-- What a call does: it keeps the invariant, and throws only if it changes nothing. -/
def Sound (s : OfflineApp) (o : Outcome) : Prop := Inv o.2 ∧ ∀ e, o.1 = .error e → o.2 = s

theorem Refused.sound {o : Outcome} (h : Inv s) (ho : Refused o s) : Sound s o := by
  obtain ⟨e, rfl⟩ := ho
  exact ⟨h, fun _ _ => rfl⟩

theorem sound_ok (h : Inv t) : Sound s (.ok (), t) := ⟨h, fun _ he => nomatch he⟩

/-- A component is created. -/
theorem sound_create (h : Inv s) (type : TypeFlags) (name : Option JString) (id : ℤ) :
    Sound s (s.create type name id) := by
  unfold create
  cases name.bind checkName with
  | some err => exact Refused.sound h ⟨_, rfl⟩
  | none =>
      have happ : (s.comps s.size).app = false := by
        rw [Bool.eq_false_iff]
        exact fun hc => lt_irrefl _ (h.created hc)
      have hparent : (s.comps s.size).parent = none := by
        cases hp : (s.comps s.size).parent with
        | none => rfl
        | some p =>
            rw [(h.mounted s.size).mpr (Or.inr (hp ▸ rfl))] at happ
            cases happ
      have hnew := inv_renew h happ hparent (x := { absent with type, id, name }) rfl rfl rfl rfl
      exact sound_ok { hnew with created := fun hc => Nat.lt_succ_of_lt (hnew.created hc) }

/-- A call of `add` is refused, or mounts the component. -/
theorem add_cases (s : OfflineApp) (parent : Option Ref) (kid : Ref) :
    Refused (s.add parent kid) s ∨
      ∃ p, parent = some p ∧ s.Admits p kid ∧ s.add parent kid = s.mount p kid := by
  unfold add
  split
  · exact Or.inl ⟨_, rfl⟩
  next hfree =>
    cases parent with
    | none => exact Or.inl ⟨_, rfl⟩
    | some p =>
        simp only
        split
        · exact Or.inl ⟨_, rfl⟩
        next happ =>
          split
          · exact Or.inl ⟨_, rfl⟩
          next hparent =>
            split
            · exact Or.inl ⟨_, rfl⟩
            next hname =>
              split
              · exact Or.inl ⟨_, rfl⟩
              next hsize =>
                split
                · exact Or.inl ⟨_, rfl⟩
                next habstract =>
                  split
                  · exact Or.inl ⟨_, rfl⟩
                  next hpublic =>
                    refine Or.inr ⟨p, rfl, ?_, rfl⟩
                    exact {
                      id := by simpa using hfree
                      app := by simpa using happ
                      parent := by simpa using hparent
                      name := by simpa using hname
                      size := not_le.mp hsize
                      type := ⟨by simpa using habstract, by simpa using hpublic⟩ }

theorem sound_add (h : Inv s) {parent : Option Ref} (hkid : kid < s.size)
    (hcareful : s.Careful (.add parent kid)) : Sound s (s.add parent kid) := by
  rcases add_cases s parent kid with hrefused | ⟨p, hp, hadmits, hmount⟩
  · exact hrefused.sound h
  · have hne : kid ≠ p := by
      rintro rfl
      have hfree := hadmits.id
      rcases (h.mounted kid).mp hadmits.app with rfl | hsome
      · rw [(h.lookup _ this).mpr ⟨hadmits.app, rfl, h.root.2.2.ge⟩] at hfree
        cases hfree
      · rw [hadmits.parent] at hsome
        cases hsome
    rw [hmount, mount_eq h hne (hcareful p hp hadmits)]
    exact sound_ok (inv_mounted h hadmits.app hadmits.parent hadmits.id hadmits.name hkid)

theorem sound_remove (h : Inv s) (hcareful : s.Careful (.remove kid)) :
    Sound s (s.remove kid) := by
  have hrefused : ∀ {n : ℕ}, 0 < n → (kid = this ∨ (s.comps kid).app = false) →
      Refused (removeFrom n s kid) s := by
    intro n hn hor
    obtain ⟨n, rfl⟩ := Nat.exists_eq_succ_of_ne_zero hn.ne'
    rw [removeFrom]
    split
    · exact ⟨_, rfl⟩
    next hthis =>
      rw [if_pos]
      · exact ⟨_, rfl⟩
      · rw [hor.resolve_left hthis]
        exact Or.inl rfl
  have hsize : 0 < s.size := (Nat.zero_le this).trans_lt (h.created h.root.1)
  by_cases happ : (s.comps kid).app = true
  · rcases (h.mounted kid).mp happ with hthis | hsome
    · exact (hrefused hsize (Or.inl hthis)).sound h
    · obtain ⟨p, hp⟩ := Option.isSome_iff_exists.mp hsome
      have hthis : kid ≠ this := by
        rintro rfl
        rw [h.root.2.1] at hp
        cases hp
      rcases hcareful hthis happ with hassigned | hstuck
      · obtain ⟨t, ht, hremoves⟩ := removeFrom_spec h hp hassigned card_below_le
        rw [remove, ht]
        exact sound_ok hremoves.inv
      · exact (hstuck.refused s.size).sound h
  · exact (hrefused hsize (Or.inr (Bool.eq_false_iff.mpr happ))).sound h

theorem sound_reorder (h : Inv s) {parent : Option Ref} {ids : List ℤ}
    (hcareful : s.Careful (.reorder parent ids)) : Sound s (s.reorder parent ids) := by
  unfold reorder
  cases parent with
  | none => exact Refused.sound h ⟨_, rfl⟩
  | some p =>
      simp only
      split
      · exact Refused.sound h ⟨_, rfl⟩
      split
      · exact Refused.sound h ⟨_, rfl⟩
      next hlength =>
        cases hnew : s.reordered (s.children p) ids with
        | none => exact Refused.sound h ⟨_, rfl⟩
        | some newList =>
            have hlength := not_not.mp hlength
            obtain ⟨hmap, hsub⟩ := reordered_spec hnew
            have hids : ids.Nodup := by
              refine hcareful p rfl hlength fun id hid => ?_
              rw [← hmap] at hid
              obtain ⟨k, hk, rfl⟩ := List.mem_map.mp hid
              exact ⟨k, hsub hk, rfl⟩
            exact sound_ok (inv_reordered h (reordered_perm hids hlength hnew))

theorem sound_rename (h : Inv s) {newName : JString} (hcareful : s.Careful (.rename c newName)) :
    Sound s (s.rename c newName) := by
  unfold rename
  cases hname : checkName newName with
  | some err => exact Refused.sound h ⟨_, rfl⟩
  | none =>
      cases hp : (s.comps c).parent with
      | none => exact sound_ok (inv_renamed_root h hp newName)
      | some p => exact sound_ok (inv_renamed h hp (hcareful hname p hp))

/-- **Every careful call is sound.** -/
theorem sound_perform (h : Inv s) (call : Call) (hrefs : ∀ r ∈ call.refs, r < s.size)
    (hcareful : s.Careful call) : Sound s (s.perform call) := by
  cases call with
  | create type name id => exact sound_create h type name id
  | add parent kid => exact sound_add h (hrefs kid List.mem_cons_self) hcareful
  | remove kid => exact sound_remove h hcareful
  | rename c newName => exact sound_rename h hcareful
  | reorder parent ids => exact sound_reorder h hcareful
  | addLink l => exact sound_ok (inv_addLink h hcareful)
  | removeLink l => exact sound_ok (inv_removeLink h l)
  | assignIds =>
      obtain ⟨t, ht, hinv, -⟩ := assignFrom_spec h h.root.1 card_below_le
      unfold perform assignIds
      rw [ht]
      exact sound_ok hinv

/-! ### The main result -/

/-- **The application is consistent**: what it holds several times agrees. -/
structure Consistent (s : OfflineApp) : Prop where
  /-- The list of the children and the map from their names hold the same components. -/
  byName (c : Ref) (name : Option JString) (k : Ref) :
    s.child c name = some k ↔ k ∈ s.children c ∧ (s.comps k).name = name
  names (c : Ref) : (s.children c).Pairwise fun a b => (s.comps a).name ≠ (s.comps b).name
  once {c : Ref} (h : (s.comps c).app = true) (hc : c ≠ this) :
    ∃ p, (s.comps c).parent = some p ∧ (s.children p).count c = 1
  /-- The chain of the parents of a component that is mounted. -/
  chain {c : Ref} (h : (s.comps c).app = true) : Below s c this
  /-- The table has the components that are mounted with an id; it is negative if there is none. -/
  byId (id : ℤ) (c : Ref) :
    s.lookupId id = some c ↔ (s.comps c).app = true ∧ (s.comps c).id = id ∧ 0 ≤ id
  linked {l : OfflineLink} (h : l ∈ s.links) :
    ((s.comps l.fromComp).app = true ∧ (s.comps l.toComp).app = true) ∧
      (s.linksOf l.fromComp).count l = 1 ∧ (s.linksOf l.toComp).count l = 1

theorem Inv.chain (h : Inv s) (hc : (s.comps c).app = true) : Below s c this := by
  obtain ⟨rank, hrank⟩ := h.ranked
  induction hn : rank c using Nat.strong_induction_on generalizing c with
  | _ n ih =>
      subst hn
      rcases (h.mounted c).mp hc with rfl | hsome
      · exact .refl
      · obtain ⟨p, hp⟩ := Option.isSome_iff_exists.mp hsome
        exact .head hp (ih _ (hrank c p hp) (h.parent hp) rfl)

theorem Inv.consistent (h : Inv s) : Consistent s where
  byName := h.child
  names c := by
    refine (List.nodup_iff_pairwise_ne.mp (h.nodup c)).imp_of_mem fun {a b} ha hb hab hname => ?_
    have hchild := (h.child c _ a).mpr ⟨ha, hname⟩
    exact hab (Option.some.inj (hchild.symm.trans ((h.child c _ b).mpr ⟨hb, rfl⟩)))
  once hc hthis := by
    obtain ⟨p, hp⟩ := Option.isSome_iff_exists.mp (((h.mounted _).mp hc).resolve_left hthis)
    exact ⟨p, hp, List.count_eq_one_of_mem (h.nodup p) ((h.children p _).mpr hp)⟩
  chain := h.chain
  byId := h.lookup
  linked {l} hl := by
    have hcount : ∀ c, (l.fromComp = c ∨ l.toComp = c) → (s.linksOf c).count l = 1 := by
      intro c hc
      refine List.count_eq_one_of_mem (h.distinct.filter _) (List.mem_filter.mpr ⟨hl, ?_⟩)
      exact decide_eq_true hc
    exact ⟨h.links hl, hcount _ (Or.inl rfl), hcount _ (Or.inr rfl)⟩

/-- The runs of calls that succeed, from an application of a type. -/
def system (type : TypeFlags) : System OfflineApp Call := .ofNext (· = empty type) next

theorem next_eq_some {call : Call} : s.next call = some t ↔
    (∀ r ∈ call.refs, r < s.size) ∧ s.perform call = (.ok (), t) := by
  unfold next
  split
  · next hrefs =>
    rw [and_iff_right hrefs]
    rcases s.perform call with ⟨e | ⟨⟩, u⟩
    · exact iff_of_false nofun nofun
    · exact ⟨fun h => Option.some.inj h ▸ rfl, fun h => congrArg some (Prod.ext_iff.mp h).2⟩
  · next hrefs => exact iff_of_false nofun fun h => hrefs h.1

theorem inv_of_reachable {type : TypeFlags} (h : ((system type).restrict Careful).Reachable s) :
    Inv s := by
  refine h.invariant ?_ ?_
  · rintro _ rfl
    exact inv_empty type
  · rintro s call t hs ⟨hcareful, hstep⟩
    obtain ⟨hrefs, hperform⟩ := next_eq_some.mp hstep
    have hsound := sound_perform hs call hrefs hcareful
    rw [hperform] at hsound
    exact hsound.1

/-- **The offline application is consistent** after every run of careful calls that succeed, and a
careful call that throws leaves it as it was. -/
theorem offline_consistent {type : TypeFlags}
    (h : ((system type).restrict Careful).Reachable s) :
    Consistent s ∧ ∀ call : Call, (∀ r ∈ call.refs, r < s.size) → Careful s call →
      ∀ e, (s.perform call).1 = .error e → (s.perform call).2 = s := by
  have hinv := inv_of_reachable h
  exact ⟨hinv.consistent, fun call hrefs hcareful =>
    (sound_perform hinv call hrefs hcareful).2⟩

/-! ### A name that is given twice -/

/-- A public type. -/
def plain : TypeFlags := { isAbstract := false, isPublic := true }

/-- A name of one letter. -/
def letter (c : Char) : JString := [char c]

/-- The application with a component that is not mounted. -/
def created : OfflineApp := ((empty plain).perform (.create plain (some (letter 'a')) (-1))).2

/-- The application with a component that is mounted. -/
def grown : OfflineApp := (created.perform (.add (some this) 1)).2

/-- The application is consistent after a component has been created and mounted. -/
theorem offline_consistent_grown :
    Consistent grown ∧ ∀ call : Call, (∀ r ∈ call.refs, r < grown.size) → Careful grown call →
      ∀ e, (grown.perform call).1 = .error e → (grown.perform call).2 = grown := by
  have hcreated : ((system plain).restrict Careful).Reachable created :=
    (System.Reachable.start rfl).tail (a := .create plain (some (letter 'a')) (-1))
      ⟨trivial, next_eq_some.mpr ⟨by decide, rfl⟩⟩
  have hcareful : Careful created (.add (some this) 1) := by
    rintro p hp -
    obtain rfl := Option.some.inj hp
    decide
  exact offline_consistent (hcreated.tail ⟨hcareful, next_eq_some.mpr ⟨by decide, rfl⟩⟩)

/-- A component is renamed to the name of its sibling. -/
def renames : List Call :=
  [.create plain (some (letter 'a')) 1, .create plain (some (letter 'b')) 2, .add (some this) 1,
    .add (some this) 2, .rename 2 (letter 'a')]

/-- **The offline application is not consistent** after every run: siblings can get one name. -/
theorem not_offline_consistent : ¬∀ (type : TypeFlags) (s : OfflineApp),
    (system type).Reachable s → Consistent s ∧
      ∀ call : Call, (∀ r ∈ call.refs, r < s.size) →
        ∀ e, (s.perform call).1 = .error e → (s.perform call).2 = s := by
  intro h
  have hrun : (run next (empty plain) renames).isSome := by decide +kernel
  obtain ⟨s, hs⟩ := Option.isSome_iff_exists.mp hrun
  have hnames : (run next (empty plain) renames).map (fun s => (s.children this).map fun k =>
      (s.comps k).name) = some [some (letter 'a'), some (letter 'a')] := by decide +kernel
  rw [hs] at hnames
  have hpairs := (h plain s (.of_run (.start rfl) hs)).1.names this
  have hmap := List.pairwise_map.mpr hpairs
  have hlist : (s.children this).map (fun k => (s.comps k).name) =
      [some (letter 'a'), some (letter 'a')] := Option.some.inj hnames
  rw [hlist] at hmap
  exact absurd hmap (by decide)

end Sedona.Offline.OfflineApp
