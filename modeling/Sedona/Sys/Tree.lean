import Mathlib.Data.Fintype.Card
import Sedona.Sys.App

/-!
# The Component Tree

What the parent, children and sibling fields of the components mean together, as a property
of the table of nodes alone: `Tree node` says that they form a tree with the app at its
root, whose sibling lists are finite and hold every child exactly once.

## Main results

* `Tree.add`, `Tree.kidsAt_add`: a new leaf linked behind the last child of a component keeps
  the tree, and becomes the last child.
* `Tree.remove`: so does a leaf that is unlinked and taken out of the table.
* `Depth.lt`: how deep the tree can be.
* `Below.gone`: once a component is out of the tree, so is everything below it.
-/

namespace Sedona

open Function Intrusive

variable {node : ℕ → Option Node} {id pid v k : ℕ} {c p n leaf : Node} {l l₁ l₂ : List ℕ}

/-- The sibling link of the component with this id. -/
def nextSib (node : ℕ → Option Node) (id : ℕ) : Option ℕ := (node id).map (·.nextSibling)

/-- Parent pointers lead from the component to the root. -/
inductive Rooted (node : ℕ → Option Node) : ℕ → Prop
  | root : Rooted node 0
  | step {id : ℕ} {n : Node} : node id = some n → Rooted node n.parent → Rooted node id

/-- The component `k` has the parent `id`. -/
def IsKid (node : ℕ → Option Node) (id k : ℕ) : Prop := ∃ m, node k = some m ∧ m.parent = id

/-- The list `l` is the sibling list of the component `n` with this id: it ends in `nullId`
and holds exactly the components whose parent is `n`. -/
structure Kids (node : ℕ → Option Node) (id : ℕ) (n : Node) (l : List ℕ) : Prop where
  chain : Chain nullId (nextSib node) n.children l
  mem : ∀ k, k ∈ l ↔ IsKid node id k

/-- The nodes form a tree whose root is the component 0. -/
structure Tree (node : ℕ → Option Node) : Prop where
  root : ∃ n, node 0 = some n ∧ n.parent = nullId
  ids : ∀ id n, node id = some n → n.id = id ∧ id < nullId
  kids : ∀ id n, node id = some n → ∃ l, Kids node id n l
  rooted : ∀ id n, node id = some n → Rooted node id

/-- Point the last component of `l` to `v`, or the first child of `pid` if `l` is empty. -/
def relink (node : ℕ → Option Node) (pid : ℕ) (l : List ℕ) (v : ℕ) : ℕ → Option Node :=
  match l.getLast? with
  | none => update node pid ((node pid).map fun n => { n with children := v })
  | some x => update node x ((node x).map fun n => { n with nextSibling := v })

/-! ### Reading a tree -/

theorem Rooted.cases (h : Rooted node id) :
    id = 0 ∨ ∃ n, node id = some n ∧ Rooted node n.parent := by
  cases h with
  | root => exact Or.inl rfl
  | step hn hroot => exact Or.inr ⟨_, hn, hroot⟩

/-- Every component but the root has a parent in the table. -/
theorem Tree.parent_isSome (h : Tree node) (hn : node id = some n) (hid : id ≠ 0) :
    ∃ p, node n.parent = some p := by
  obtain rfl | ⟨n', hn', hroot⟩ := (h.rooted id n hn).cases
  · exact absurd rfl hid
  · obtain rfl := Option.some.inj (hn.symm.trans hn')
    obtain hzero | ⟨p, hp, -⟩ := hroot.cases
    · obtain ⟨r, hr, -⟩ := h.root
      exact ⟨r, by rw [hzero, hr]⟩
    · exact ⟨p, hp⟩

/-- The root is nobody's child. -/
theorem Tree.ne_zero_of_parent (h : Tree node) (hn : node id = some n)
    (hp : node n.parent = some p) : id ≠ 0 := by
  rintro rfl
  obtain ⟨r, hr, hroot⟩ := h.root
  obtain rfl := Option.some.inj (hn.symm.trans hr)
  have := (h.ids _ _ hp).2
  omega

/-- A component that is not in the table is nobody's parent. -/
theorem Tree.not_isKid (h : Tree node) (hid : node id = none) (hlt : id < nullId) :
    ¬ IsKid node id k := by
  rintro ⟨m, hm, rfl⟩
  by_cases hk : k = 0
  · subst hk
    obtain ⟨r, hr, hroot⟩ := h.root
    obtain rfl := Option.some.inj (hm.symm.trans hr)
    omega
  · obtain ⟨p, hp⟩ := h.parent_isSome hm hk
    exact absurd (hid.symm.trans hp) (by simp)

/-! ### Relinking -/

/-- Relinking changes children and sibling fields only. -/
theorem relink_apply (node : ℕ → Option Node) (pid : ℕ) (l : List ℕ) (v k : ℕ) :
    ∃ f : Node → Node, relink node pid l v k = (node k).map f ∧
      (∀ n, (f n).parent = n.parent ∧ (f n).id = n.id ∧ (f n).type = n.type ∧
        (f n).name = n.name) ∧
      (l.getLast? ≠ some k → ∀ n, (f n).nextSibling = n.nextSibling) ∧
      ((l ≠ [] ∨ k ≠ pid) → ∀ n, (f n).children = n.children) := by
  unfold relink
  cases hl : l.getLast? with
  | none =>
      obtain rfl := List.getLast?_eq_none_iff.mp hl
      by_cases hk : k = pid
      · subst hk
        exact ⟨_, update_self _ _ _, by simp, by simp, by simp⟩
      · exact ⟨fun n => n, by simp [update_of_ne hk], by simp, by simp, by simp⟩
  | some x =>
      by_cases hk : k = x
      · subst hk
        exact ⟨_, update_self _ _ _, by simp, by simp, by simp⟩
      · exact ⟨fun n => n, by simp [update_of_ne hk], by simp, by simp, by simp⟩

/-- The fields of a component besides its links to other components of the tree. -/
def Node.face (n : Node) : CompType × ℕ × Str × ℕ := (n.type, n.id, n.name, n.parent)

theorem face_relink : (relink node pid l v k).map Node.face = (node k).map Node.face := by
  obtain ⟨f, hf, hsame, -⟩ := relink_apply node pid l v k
  rw [hf, Option.map_map]
  congr 1
  funext n
  obtain ⟨hpar, hid, htype, hname⟩ := hsame n
  simp only [Function.comp_apply, Node.face, hpar, hid, htype, hname]

theorem isKid_relink : IsKid (relink node pid l v) id k ↔ IsKid node id k := by
  obtain ⟨f, hf, hsame, -⟩ := relink_apply node pid l v k
  unfold IsKid
  rw [hf]
  constructor
  · rintro ⟨m, hm, rfl⟩
    obtain ⟨n, hn, rfl⟩ := Option.map_eq_some_iff.mp hm
    exact ⟨n, hn, (hsame n).1.symm⟩
  · rintro ⟨n, hn, rfl⟩
    exact ⟨f n, by rw [hn]; rfl, (hsame n).1⟩

theorem rooted_relink (h : Rooted node k) : Rooted (relink node pid l v) k := by
  induction h with
  | root => exact Rooted.root
  | @step j n hn _ ih =>
      obtain ⟨f, hf, hsame, -⟩ := relink_apply node pid l v j
      refine Rooted.step (by rw [hf, hn]; rfl) ?_
      rwa [(hsame n).1]

/-- The sibling links of components other than the last one of `l` stay. -/
theorem nextSib_relink (hk : l.getLast? ≠ some k) :
    nextSib (relink node pid l v) k = nextSib node k := by
  obtain ⟨f, hf, -, hsib, -⟩ := relink_apply node pid l v k
  unfold nextSib
  rw [hf]
  cases node k with
  | none => rfl
  | some n => simp [hsib hk]

/-- The last component of `l` gets the link. -/
theorem nextSib_relink_last (hn : node k = some n) :
    nextSib (relink node pid (l ++ [k]) v) k = some v := by
  simp [nextSib, relink, hn]

/-- Sibling lists of other parents stay as they are. -/
theorem Kids.relink_of_ne (h : Kids node id n l₂) (hl : ∀ k ∈ l, IsKid node pid k)
    (hne : id ≠ pid) (hn : node id = some n) :
    ∃ n', relink node pid l v id = some n' ∧ Kids (relink node pid l v) id n' l₂ := by
  obtain ⟨f, hf, hsame, -, hchild⟩ := relink_apply node pid l v id
  refine ⟨f n, by rw [hf, hn]; rfl, ?_, ?_⟩
  · rw [hchild (Or.inr hne)]
    refine h.chain.congr fun k hk => nextSib_relink ?_
    intro hlast
    -- a component of both lists would have two parents
    obtain ⟨m, hm, hpar⟩ := hl k (List.mem_of_getLast? hlast)
    obtain ⟨m', hm', hpar'⟩ := (h.mem k).mp hk
    obtain rfl := Option.some.inj (hm.symm.trans hm')
    exact hne (hpar'.symm.trans hpar)
  · intro k
    rw [isKid_relink]
    exact h.mem k

/-- The sibling list of the parent itself: whatever `v` starts follows `l`. -/
theorem chain_relink {nil : ℕ} (hp : node pid = some p) (hl : Path (nextSib node) p.children l k)
    (hnodup : l.Nodup) (hnil : nil ∉ l) (hrest : Chain nil (nextSib node) v l₂)
    (hdisj : ∀ x ∈ l₂, x ∉ l) :
    ∃ p', relink node pid l v pid = some p' ∧
      Chain nil (nextSib (relink node pid l v)) p'.children (l ++ l₂) := by
  obtain ⟨f, hf, hsame, -, hchild⟩ := relink_apply node pid l v pid
  have hrest' : Chain nil (nextSib (relink node pid l v)) v l₂ := by
    refine hrest.congr fun x hx => nextSib_relink ?_
    exact fun hlast => hdisj x hx (List.mem_of_getLast? hlast)
  refine ⟨f p, by rw [hf, hp]; rfl, ?_⟩
  rcases List.eq_nil_or_concat l with rfl | ⟨l₀, x, rfl⟩
  · have hfirst : (f p).children = v := by
      have hself : relink node pid [] v pid = some { p with children := v } := by
        simp [relink, hp]
      rw [hf, hp] at hself
      rw [Option.some.inj hself]
    rw [hfirst]
    exact hrest'
  · rw [List.concat_eq_append] at *
    rw [hchild (Or.inl (by simp))]
    obtain ⟨j, hpath, hlast⟩ := path_append.mp hl
    obtain ⟨rfl, i, hj, -⟩ := hlast
    obtain ⟨n, hn, -⟩ := Option.map_eq_some_iff.mp hj
    have hpath' : Path (nextSib (relink node pid (l₀ ++ [j]) v)) p.children l₀ j := by
      refine hpath.congr fun x hx => nextSib_relink ?_
      rintro hlast
      obtain rfl : j = x := by simpa using hlast
      rw [List.nodup_append] at hnodup
      exact hnodup.2.2 j hx j (by simp) rfl
    constructor
    · refine path_append.mpr ⟨v, path_append.mpr ⟨j, hpath', rfl, v, ?_, rfl⟩, hrest'.1⟩
      exact nextSib_relink_last hn
    · rw [List.mem_append, not_or]
      exact ⟨hnil, hrest.2⟩

/-! ### Lists of children -/

/-- The component with this id and its sibling list of children. -/
def KidsAt (node : ℕ → Option Node) (id : ℕ) (l : List ℕ) : Prop :=
  ∃ n, node id = some n ∧ Kids node id n l

theorem Tree.kidsAt (h : Tree node) (hn : node id = some n) : ∃ l, KidsAt node id l := by
  obtain ⟨l, hl⟩ := h.kids id n hn
  exact ⟨l, n, hn, hl⟩

theorem KidsAt.mem (h : KidsAt node id l) : k ∈ l ↔ IsKid node id k := by
  obtain ⟨n, -, hl⟩ := h
  exact hl.mem k

theorem KidsAt.unique (h : KidsAt node id l) (h' : KidsAt node id l₁) : l = l₁ := by
  obtain ⟨n, hn, hl⟩ := h
  obtain ⟨n', hn', hl'⟩ := h'
  obtain rfl := Option.some.inj (hn.symm.trans hn')
  exact hl.chain.unique hl'.chain

/-! ### Adding a leaf -/

section Leaf

variable (h : Tree node) (hid : node id = none) (hlt : id < nullId) (hp : node pid = some p)
  (hl : Kids node pid p l)
  (hleaf : leaf.id = id ∧ leaf.parent = pid ∧ leaf.children = nullId ∧ leaf.nextSibling = nullId)

include hid in
theorem update_leaf {m : Node} (hm : node k = some m) : update node id (some leaf) k = some m := by
  rw [update_of_ne, hm]
  rintro rfl
  exact absurd (hid.symm.trans hm) (by simp)

include hid hleaf in
theorem isKid_leaf {q : ℕ} :
    IsKid (update node id (some leaf)) q k ↔ IsKid node q k ∨ (q = pid ∧ k = id) := by
  by_cases hk : k = id
  · subst hk
    have hno : ¬ IsKid node q k := by
      rintro ⟨m, hm, -⟩
      exact absurd (hid.symm.trans hm) (by simp)
    have hnew : IsKid (update node k (some leaf)) q k ↔ q = pid := by
      simp [IsKid, hleaf.2.1, eq_comm]
    simp [hnew, hno]
  · simp [IsKid, hk]

include h hid hlt hp hl hleaf in
/-- The sibling lists with a new leaf: it is the last child of its parent and has none itself,
and the lists of others stay as they are. -/
theorem Tree.kidsAt_add :
    KidsAt (relink (update node id (some leaf)) pid l id) pid (l ++ [id]) ∧
      KidsAt (relink (update node id (some leaf)) pid l id) id [] ∧
      ∀ q lq, q ≠ pid → KidsAt node q lq →
        KidsAt (relink (update node id (some leaf)) pid l id) q lq := by
  have hkid : ∀ q k, IsKid (update node id (some leaf)) q k ↔
      IsKid node q k ∨ (q = pid ∧ k = id) := fun q k => isKid_leaf hid hleaf
  have hold : ∀ k m, node k = some m → update node id (some leaf) k = some m :=
    fun k m hm => update_leaf hid hm
  obtain ⟨-, -, hleafKids, hleafSib⟩ := hleaf
  set node₁ := update node id (some leaf) with hnode₁
  have hne : pid ≠ id := by
    rintro rfl
    exact absurd (hid.symm.trans hp) (by simp)
  have hsib : ∀ q k, IsKid node q k → nextSib node₁ k = nextSib node k := by
    rintro q k ⟨m, hm, -⟩
    simp [nextSib, hm, hold k m hm]
  have hlKids : ∀ k ∈ l, IsKid node₁ pid k :=
    fun k hk => (hkid _ _).mpr (Or.inl ((hl.mem k).mp hk))
  have hother : ∀ q n₁ lq, q ≠ pid → node₁ q = some n₁ → Kids node₁ q n₁ lq →
      KidsAt (relink node₁ pid l id) q lq :=
    fun q n₁ lq hqp hn₁ hkids => hkids.relink_of_ne hlKids hqp hn₁
  refine ⟨?_, ?_, fun q lq hqp hlq => ?_⟩
  · have hpath : Path (nextSib node₁) p.children l nullId :=
      hl.chain.1.congr fun x hx => hsib pid x ((hl.mem x).mp hx)
    have hleafChain : Chain nullId (nextSib node₁) id [id] := by
      rw [chain_cons]
      refine ⟨rfl, by omega, nullId, ?_, chain_nil.mpr rfl⟩
      simp [nextSib, hnode₁, hleafSib]
    have hidl : id ∉ l := by
      intro hmem
      obtain ⟨m, hm, -⟩ := (hl.mem id).mp hmem
      exact absurd (hid.symm.trans hm) (by simp)
    obtain ⟨p', hp', hchain⟩ := chain_relink (hold _ p hp) hpath hl.chain.nodup hl.chain.2
      hleafChain (by simpa using hidl)
    refine ⟨p', hp', hchain, fun k => ?_⟩
    rw [isKid_relink, hkid, List.mem_append, List.mem_singleton, hl.mem]
    simp
  · refine hother id leaf [] hne.symm (by simp [hnode₁]) ⟨by simp [hleafKids], fun k => ?_⟩
    rw [hkid]
    simp [h.not_isKid hid hlt, hne.symm]
  · obtain ⟨n, hn, hlq⟩ := hlq
    refine hother q n lq hqp (hold q n hn) ⟨?_, fun k => ?_⟩
    · exact hlq.chain.congr fun x hx => hsib q x ((hlq.mem x).mp hx)
    · rw [hkid, hlq.mem]
      simp [hqp]

include h hid hlt hp hl hleaf in
/-- **A new leaf** behind the last child of `pid` keeps the tree. -/
theorem Tree.add : Tree (relink (update node id (some leaf)) pid l id) := by
  have hold : ∀ k m, node k = some m → update node id (some leaf) k = some m :=
    fun k m hm => update_leaf hid hm
  obtain ⟨hlast, hnone, hkids⟩ := h.kidsAt_add hid hlt hp hl hleaf
  set node₁ := update node id (some leaf) with hnode₁
  -- a component of the new table, before relinking
  have hback : ∀ k n, relink node₁ pid l id k = some n →
      k = id ∧ n.id = leaf.id ∨ ∃ m, node k = some m ∧ n.id = m.id := by
    intro k n hk
    obtain ⟨f, hf, hsame, -⟩ := relink_apply node₁ pid l id k
    rw [hf] at hk
    obtain ⟨m, hm, rfl⟩ := Option.map_eq_some_iff.mp hk
    rw [(hsame m).2.1]
    by_cases hkid : k = id
    · subst hkid
      obtain rfl : leaf = m := by simpa [hnode₁] using hm
      exact Or.inl ⟨rfl, rfl⟩
    · rw [hnode₁, update_of_ne hkid] at hm
      exact Or.inr ⟨m, hm, rfl⟩
  refine ⟨?_, ?_, ?_, ?_⟩
  · obtain ⟨r, hr, hroot⟩ := h.root
    obtain ⟨f, hf, hsame, -⟩ := relink_apply node₁ pid l id 0
    exact ⟨f r, by rw [hf, hold 0 r hr]; rfl, by rw [(hsame r).1, hroot]⟩
  · intro k n hk
    rcases hback k n hk with ⟨rfl, hleafId⟩ | ⟨m, hm, hmid⟩
    · exact ⟨hleafId.trans hleaf.1, hlt⟩
    · rw [hmid]
      exact h.ids k m hm
  · intro q n hq
    have hkidsAt : ∃ lq, KidsAt (relink node₁ pid l id) q lq := by
      by_cases hqp : q = pid
      · exact ⟨l ++ [id], by rw [hqp]; exact hlast⟩
      · rcases hback q n hq with ⟨rfl, -⟩ | ⟨m, hm, -⟩
        · exact ⟨_, hnone⟩
        · obtain ⟨lq, hlq⟩ := h.kidsAt hm
          exact ⟨lq, hkids q lq hqp hlq⟩
    obtain ⟨lq, n', hn', hlq⟩ := hkidsAt
    obtain rfl := Option.some.inj (hq.symm.trans hn')
    exact ⟨lq, hlq⟩
  · intro k n hk
    apply rooted_relink
    have hmono : ∀ k, Rooted node k → Rooted node₁ k := by
      intro k hk
      induction hk with
      | root => exact Rooted.root
      | step hn _ ih => exact Rooted.step (hold _ _ hn) ih
    rcases hback k n hk with ⟨rfl, -⟩ | ⟨m, hm, -⟩
    · refine Rooted.step (show node₁ k = some leaf by simp [hnode₁]) ?_
      rw [hleaf.2.1]
      exact hmono _ (h.rooted _ p hp)
    · exact hmono _ (h.rooted k m hm)

end Leaf

/-! ### Removing a leaf -/

/-- The sibling lists of the components that stay lose the component that is taken out. -/
theorem KidsAt.remove (hc : node id = some c) (hl : KidsAt node c.parent (l₁ ++ id :: l₂))
    (hne : c.parent ≠ id) {q : ℕ} (hq : q ≠ id) (hlq : KidsAt node q l) :
    KidsAt (relink (update node id none) c.parent l₁ c.nextSibling) q (l.erase id) := by
  set node₁ := update node id none with hnode₁
  have hold : ∀ k, k ≠ id → node₁ k = node k := fun k hk => by rw [hnode₁, update_of_ne hk]
  have hsib : ∀ k, k ≠ id → nextSib node₁ k = nextSib node k := by
    intro k hk
    rw [nextSib, nextSib, hold k hk]
  have hkid : ∀ q k, IsKid node₁ q k ↔ IsKid node q k ∧ k ≠ id := by
    intro q k
    by_cases hk : k = id
    · subst hk
      simp [IsKid, hnode₁]
    · simp [IsKid, hold k hk, hk]
  obtain ⟨p, hp, hkids⟩ := hl
  have hnodup := hkids.chain.nodup
  have hsplit : l₁.Nodup ∧ id ∉ l₁ ∧ id ∉ l₂ ∧ ∀ x ∈ l₂, x ∉ l₁ := by
    rw [List.nodup_append, List.nodup_cons] at hnodup
    obtain ⟨h₁, ⟨h₂, -⟩, hdisj⟩ := hnodup
    exact ⟨h₁, fun hmem => hdisj id hmem id (by simp) rfl, h₂,
      fun x hx hx' => hdisj x hx' x (List.mem_cons_of_mem _ hx) rfl⟩
  obtain ⟨hnodup₁, hid₁, hid₂, hdisj⟩ := hsplit
  by_cases hqp : q = c.parent
  · -- the parent: its list loses the component
    subst hqp
    obtain rfl := hlq.unique ⟨p, hp, hkids⟩
    have herase : (l₁ ++ id :: l₂).erase id = l₁ ++ l₂ := by
      rw [List.erase_append_right _ hid₁, List.erase_cons_head]
    rw [herase]
    obtain ⟨j, hpath, hlast⟩ := hkids.chain.suffix
    obtain ⟨heq, -, i, hi, hrest⟩ := chain_cons.mp hlast
    rw [heq] at hpath
    obtain rfl : c.nextSibling = i := by simpa [nextSib, hc] using hi
    have hpath₁ : Path (nextSib node₁) p.children l₁ id := by
      refine hpath.congr fun x hx => hsib x ?_
      rintro rfl
      exact hid₁ hx
    have hrest₁ : Chain nullId (nextSib node₁) c.nextSibling l₂ := by
      refine hrest.congr fun x hx => hsib x ?_
      rintro rfl
      exact hid₂ hx
    have hnil : nullId ∉ l₁ := fun hmem => hkids.chain.2 (List.mem_append_left _ hmem)
    obtain ⟨p', hp', hchain⟩ :=
      chain_relink ((hold _ hq).trans hp) hpath₁ hnodup₁ hnil hrest₁ hdisj
    refine ⟨p', hp', hchain, fun k => ?_⟩
    rw [isKid_relink, hkid, ← hkids.mem]
    simp only [List.mem_append, List.mem_cons]
    constructor
    · rintro (hk | hk)
      · exact ⟨Or.inl hk, fun heq => hid₁ (heq ▸ hk)⟩
      · exact ⟨Or.inr (Or.inr hk), fun heq => hid₂ (heq ▸ hk)⟩
    · rintro ⟨hk | rfl | hk, hkid⟩
      · exact Or.inl hk
      · exact absurd rfl hkid
      · exact Or.inr hk
  · obtain ⟨nq, hnq, hkidsq⟩ := hlq
    have hmemq : ∀ x ∈ l, x ≠ id := by
      rintro x hx rfl
      obtain ⟨m, hm, hpar⟩ := (hkidsq.mem x).mp hx
      obtain rfl := Option.some.inj (hc.symm.trans hm)
      exact hqp hpar.symm
    have hlKids : ∀ k ∈ l₁, IsKid node₁ c.parent k := by
      intro k hk
      refine (hkid _ _).mpr ⟨(hkids.mem k).mp (List.mem_append_left _ hk), ?_⟩
      rintro rfl
      exact hid₁ hk
    have hkids₁ : Kids node₁ q nq l := by
      refine ⟨hkidsq.chain.congr fun x hx => hsib x (hmemq x hx), fun k => ?_⟩
      rw [hkid, ← hkidsq.mem]
      exact ⟨fun hk => ⟨hk, hmemq k hk⟩, fun hk => hk.1⟩
    rw [List.erase_of_not_mem fun hmem => hmemq id hmem rfl]
    exact hkids₁.relink_of_ne hlKids hqp ((hold q hq).trans hnq)

/-- **A leaf taken out** of its parent's list and of the table keeps the tree. -/
theorem Tree.remove (h : Tree node) (hc : node id = some c)
    (hl : KidsAt node c.parent (l₁ ++ id :: l₂)) (hleaf : KidsAt node id []) :
    Tree (relink (update node id none) c.parent l₁ c.nextSibling) := by
  have hnokid : ∀ k, ¬ IsKid node id k := fun k hk => by simpa using hleaf.mem.mpr hk
  have hne : c.parent ≠ id := fun heq => hnokid id ⟨c, hc, heq⟩
  have hpar : ∃ p, node c.parent = some p := by
    obtain ⟨p, hp, -⟩ := hl
    exact ⟨p, hp⟩
  obtain ⟨p, hp⟩ := hpar
  have hne0 := h.ne_zero_of_parent hc hp
  set node₁ := update node id none with hnode₁
  have hold : ∀ k, k ≠ id → node₁ k = node k := fun k hk => by rw [hnode₁, update_of_ne hk]
  have hself : node₁ id = none := by simp [hnode₁]
  -- what is left of a component of the new table, before relinking
  have hback : ∀ k n, relink node₁ c.parent l₁ c.nextSibling k = some n →
      k ≠ id ∧ ∃ n₁, node k = some n₁ ∧ n.id = n₁.id := by
    intro k n hk
    obtain ⟨f, hf, hsame, -⟩ := relink_apply node₁ c.parent l₁ c.nextSibling k
    rw [hf] at hk
    obtain ⟨n₁, hn₁, rfl⟩ := Option.map_eq_some_iff.mp hk
    have hkid : k ≠ id := by
      rintro rfl
      exact absurd (hself.symm.trans hn₁) (by simp)
    exact ⟨hkid, n₁, by rw [← hold k hkid, hn₁], (hsame n₁).2.1⟩
  refine ⟨?_, ?_, ?_, ?_⟩
  · obtain ⟨r, hr, hroot⟩ := h.root
    obtain ⟨f, hf, hsame, -⟩ := relink_apply node₁ c.parent l₁ c.nextSibling 0
    exact ⟨f r, by rw [hf, hold 0 hne0.symm, hr]; rfl, by rw [(hsame r).1, hroot]⟩
  · intro k n hk
    obtain ⟨-, n₁, hn₁, hids⟩ := hback k n hk
    rw [hids]
    exact h.ids k n₁ hn₁
  · intro q n hq
    obtain ⟨hqid, n₁, hn₁, -⟩ := hback q n hq
    obtain ⟨lq, hlq⟩ := h.kidsAt hn₁
    obtain ⟨n', hn', hkids⟩ := KidsAt.remove hc hl hne hqid hlq
    obtain rfl := Option.some.inj (hq.symm.trans hn')
    exact ⟨_, hkids⟩
  · intro k n hk
    apply rooted_relink
    have hmono : ∀ k, Rooted node k → k ≠ id → Rooted node₁ k := by
      intro k hk
      induction hk with
      | root => exact fun _ => Rooted.root
      | @step j m hn _ ih =>
          intro hj
          -- the removed leaf is nobody's parent
          exact Rooted.step (by rw [hold j hj, hn]) (ih fun heq => hnokid j ⟨m, hn, heq⟩)
    obtain ⟨hkid, n₁, hn₁, -⟩ := hback k n hk
    exact hmono k (h.rooted k n₁ hn₁) hkid

/-! ### Depth -/

/-- The number of components above this one. -/
inductive Depth (node : ℕ → Option Node) : ℕ → ℕ → Prop
  | root : Depth node 0 0
  | step {id d : ℕ} {n : Node} : id ≠ 0 → node id = some n → Depth node n.parent d →
      Depth node id (d + 1)

theorem Depth.unique {d e : ℕ} (h : Depth node id d) (h' : Depth node id e) : d = e := by
  induction h generalizing e with
  | root =>
      cases h' with
      | root => rfl
      | step h0 => exact absurd rfl h0
  | step h0 hn _ ih =>
      cases h' with
      | root => exact absurd rfl h0
      | step _ hn' hd =>
          obtain rfl := Option.some.inj (hn.symm.trans hn')
          rw [ih hd]

theorem Rooted.depth (h : Rooted node id) : ∃ d, Depth node id d := by
  induction h with
  | root => exact ⟨0, Depth.root⟩
  | @step j n hn _ ih =>
      obtain ⟨d, hd⟩ := ih
      by_cases hj : j = 0
      · subst hj
        exact ⟨0, Depth.root⟩
      · exact ⟨d + 1, Depth.step hj hn hd⟩

theorem Depth.live {d : ℕ} (h : Depth node id d) (ht : Tree node) : ∃ n, node id = some n := by
  cases h with
  | root =>
      obtain ⟨r, hr, -⟩ := ht.root
      exact ⟨r, hr⟩
  | step _ hn => exact ⟨_, hn⟩

/-- A child is one deeper than its parent. -/
theorem Depth.kid {d : ℕ} (h : Depth node id d) (ht : Tree node) (hk : IsKid node id k) :
    Depth node k (d + 1) := by
  obtain ⟨n, hn⟩ := h.live ht
  obtain ⟨m, hm, rfl⟩ := hk
  exact Depth.step (ht.ne_zero_of_parent hm hn) hm h

/-- There are components at every depth above a component. -/
theorem Depth.above {d e : ℕ} (h : Depth node id d) (he : e ≤ d) : ∃ j, Depth node j e := by
  induction h with
  | root => exact ⟨0, by rw [Nat.le_zero.mp he]; exact Depth.root⟩
  | @step j d n h0 hn hd ih =>
      rcases Nat.le_succ_iff.mp he with he | rfl
      · exact ih he
      · exact ⟨j, Depth.step h0 hn hd⟩

/-- Depths are bounded: different depths belong to different ids. -/
theorem Depth.lt {d : ℕ} (h : Depth node id d) (ht : Tree node) : d < nullId := by
  have hj : ∀ e : Fin (d + 1), ∃ j : Fin nullId, Depth node j e := by
    intro e
    obtain ⟨j, hj⟩ := h.above (Nat.le_of_lt_succ e.isLt)
    obtain ⟨n, hn⟩ := hj.live ht
    exact ⟨⟨j, (ht.ids j n hn).2⟩, hj⟩
  choose f hf using hj
  have hinj : Injective f := by
    intro e e' heq
    exact Fin.ext ((hf e).unique (heq ▸ hf e'))
  have hcard := Fintype.card_le_of_injective f hinj
  rw [Fintype.card_fin, Fintype.card_fin] at hcard
  exact hcard

/-! ### Subtrees -/

/-- The component is the one with this id or below it. -/
inductive Below (node : ℕ → Option Node) (id : ℕ) : ℕ → Prop
  | self : Below node id id
  | step {j : ℕ} {n : Node} : j ≠ 0 → node j = some n → Below node id n.parent → Below node id j

/-- What is below a child is below its parent. -/
theorem Below.of_kid {j : ℕ} (h : Below node k j) (h0 : k ≠ 0) (hk : IsKid node id k) :
    Below node id j := by
  induction h with
  | self =>
      obtain ⟨m, hm, rfl⟩ := hk
      exact Below.step h0 hm Below.self
  | step hj0 hj _ ih => exact Below.step hj0 hj ih

/-- What is below a component is deeper. -/
theorem Below.depth {j d e : ℕ} (h : Below node id j) (hd : Depth node id d)
    (hj : Depth node j e) : j = id ∨ d < e := by
  induction h generalizing e with
  | self => exact Or.inl rfl
  | step hj0 hn _ ih =>
      cases hj with
      | root => exact absurd rfl hj0
      | step _ hn' he =>
          obtain rfl := Option.some.inj (hn.symm.trans hn')
          rcases ih he with heq | hlt
          · rw [heq] at he
            exact Or.inr (Nat.lt_succ_of_le (hd.unique he).le)
          · exact Or.inr (Nat.lt_succ_of_lt hlt)

section Mono

variable {node' : ℕ → Option Node}
  (hback : ∀ j n', node' j = some n' → ∃ n, node j = some n ∧ n.face = n'.face)

include hback in
/-- With fewer components, no more is below a component. -/
theorem Below.mono {j : ℕ} (h : Below node' id j) : Below node id j := by
  induction h with
  | self => exact Below.self
  | @step j n' hj0 hn' _ ih =>
      obtain ⟨n, hn, hface⟩ := hback j n' hn'
      have hpar : n.parent = n'.parent := congrArg (fun f => f.2.2.2) hface
      exact Below.step hj0 hn (hpar ▸ ih)

include hback in
/-- In a tree that a component is not in, nothing below it is left. -/
theorem Below.gone {j : ℕ} (h : Below node id j) (ht : Tree node') (hid : node' id = none) :
    node' j = none := by
  induction h with
  | self => exact hid
  | @step j n hj0 hn _ ih =>
      by_contra hne
      obtain ⟨n', hn'⟩ := Option.ne_none_iff_exists'.mp hne
      obtain ⟨n₀, hn₀, hface⟩ := hback j n' hn'
      obtain rfl := Option.some.inj (hn.symm.trans hn₀)
      have hpar : n.parent = n'.parent := congrArg (fun f => f.2.2.2) hface
      obtain ⟨q, hq⟩ := ht.parent_isSome hn' hj0
      rw [← hpar, ih] at hq
      exact absurd hq (by simp)

end Mono

end Sedona
