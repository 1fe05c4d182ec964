import Sedona.Offline.DecodeRead

/-!
# The Tree in a Binary Application

Decoding returns an application whose components are a tree exactly if the ids in the file agree with
each other and lead everywhere, and it does not end if siblings come back to a component, unless an
exception comes first.

## Main results

* `isTree_iff`: when the components are a tree.
* `decodeAppBinary_iff`: when decoding throws or returns a tree.
-/

namespace Sedona.Sab

open Function Intrusive Fuel

/-! ### The tree of an application -/

/-- `OfflineComponent.children`, as ids. -/
def App.kidsOf (app : App) (id : ℕ) : List ℕ := ((app.comps id).bind Component.kids).getD []

def App.parentOf (app : App) (id : ℕ) : Option ℕ := (app.comps id).bind Component.parent

/-- The components are a tree: all but the application are children of exactly one, which is their
parent, their parents lead to the application, which is nobody's child, and links lead from components
to components. -/
structure App.IsTree (app : App) : Prop where
  kid : ∀ id c, id ≠ 0 → app.comps id = some c →
    ∃ p, c.parent = some p ∧ ∀ q, id ∈ app.kidsOf q ↔ q = p
  kids : ∀ q, (app.kidsOf q).Nodup ∧ ∀ id ∈ app.kidsOf q, ∃ c, app.comps id = some c
  root : (∀ q, 0 ∉ app.kidsOf q) ∧ ∀ c, app.comps 0 = some c → c.parent = none
  rooted : ∀ id c, app.comps id = some c → Rooted 0 app.parentOf id
  links : ∀ l ∈ app.links, LinkEnds app l

/-- The ids in the file agree with each other and lead to every component. -/
def Agree (decoded : List Decoded) : Prop :=
  Threaded nullId 0 (first decoded) (next decoded) (parent decoded)

/-! ### Behind the loops over parents and children -/

/-- What the loops over parents and children leave. -/
structure Finished (app : App) (decoded : List Decoded) : Prop where
  ready : Ready app decoded
  comp : ∀ d ∈ decoded, ∃ l c, Chain nullId (next decoded) d.childrenId l ∧
    app.comps d.id = some c ∧ c.parent = (if d.parentId = nullId then none else some d.parentId) ∧
      c.kids.getD [] = l
  root : (∀ d ∈ decoded, d.id ≠ 0) → ∀ c, app.comps 0 = some c → c.parent = none ∧ c.kids = none

variable {app app' : App} {decoded order : List Decoded} {d : Decoded} {id j p : ℕ} {l : List ℕ}

theorem Finished.of_assigned (h : Ready app decoded) (hfresh : Fresh app) (h' : Ready app' decoded)
    (hothers : ∀ id, (∀ d ∈ decoded, d.id ≠ id) → app'.comps id = app.comps id)
    (hself : ∀ d ∈ decoded, ∃ l, Chain nullId (next decoded) d.childrenId l ∧
      Assigned app app' d l) : Finished app' decoded where
  ready := h'
  comp d hd := by
    obtain ⟨l, hchain, f, hf, hc'⟩ := hself d hd
    obtain ⟨c, hc⟩ := (h.known d.id).mpr (.inr ⟨d, hd, rfl⟩)
    obtain ⟨-, hparent, hkids⟩ := hc' c
    refine ⟨l, f c, hchain, by rw [hf, hc]; rfl, ?_, ?_⟩
    · rw [hparent, hfresh.parent d.id c hc]
    · rw [hkids, hfresh.kids d.id c hc]
      split_ifs with hnil
      · rw [hnil] at hchain
        cases l with
        | nil => rfl
        | cons x l =>
          obtain ⟨heq, hne, -⟩ := chain_cons.mp hchain
          exact absurd heq.symm hne
      · rfl
  root hnone c hc := by
    rw [hothers 0 hnone] at hc
    exact ⟨hfresh.parent 0 c hc, hfresh.kids 0 c hc⟩

section Finished

variable (h : Finished app decoded)

include h

/-- A component of the file, or the application itself, which is not in it. -/
theorem Finished.cases {c : Component} (hc : app.comps id = some c) :
    (∃ d, getDecoded decoded id = some d ∧ d ∈ decoded ∧ d.id = id) ∨
      getDecoded decoded id = none ∧ id = 0 ∧ c.parent = none ∧ c.kids = none := by
  cases hd : getDecoded decoded id with
  | some d =>
    obtain ⟨hmem, hid⟩ := getDecoded_eq_some hd
    exact .inl ⟨d, rfl, hmem, hid⟩
  | none =>
    have hnone : ∀ d ∈ decoded, d.id ≠ id := by
      intro d hmem hid
      have hsome := getDecoded_of_mem h.ready.nodup hmem
      rw [hid, hd] at hsome
      cases hsome
    rcases (h.ready.known id).mp ⟨c, hc⟩ with rfl | ⟨d, hmem, hid⟩
    · exact .inr ⟨rfl, rfl, h.root hnone c hc⟩
    · exact absurd hid (hnone d hmem)

theorem Finished.parentOf_iff :
    app.parentOf id = some p ↔ parent decoded id = some p ∧ p ≠ nullId := by
  constructor
  · intro hp
    obtain ⟨c, hc, hparent⟩ := Option.bind_eq_some_iff.mp hp
    rcases h.cases hc with ⟨d, hd, hmem, rfl⟩ | ⟨-, -, hnone, -⟩
    · obtain ⟨l, c', -, hc', hcp, -⟩ := h.comp d hmem
      obtain rfl := Option.some.inj (hc.symm.trans hc')
      rw [hparent] at hcp
      split_ifs at hcp with hnil
      obtain rfl := Option.some.inj hcp
      exact ⟨by rw [parent, hd]; rfl, hnil⟩
    · rw [hnone] at hparent
      cases hparent
  · rintro ⟨hp, hne⟩
    obtain ⟨d, hd, rfl⟩ := Option.map_eq_some_iff.mp hp
    obtain ⟨hmem, rfl⟩ := getDecoded_eq_some hd
    obtain ⟨l, c, -, hc, hcp, -⟩ := h.comp d hmem
    rw [App.parentOf, hc, Option.bind_some, hcp, if_neg hne]

theorem Finished.listed :
    Listed nullId 0 (first decoded) (next decoded) (parent decoded) app.kidsOf where
  chain y k hk := by
    obtain ⟨d, hd, rfl⟩ := Option.map_eq_some_iff.mp hk
    obtain ⟨hmem, rfl⟩ := getDecoded_eq_some hd
    obtain ⟨l, c, hchain, hc, -, hkids⟩ := h.comp d hmem
    have hlist : app.kidsOf d.id = l := by
      rw [App.kidsOf, hc]
      exact hkids
    rwa [hlist]
  empty y hy := by
    have hnone := Option.map_eq_none_iff.mp hy
    cases hc : app.comps y with
    | none => rw [App.kidsOf, hc]; rfl
    | some c =>
      rcases h.cases hc with ⟨d, hd, -⟩ | ⟨-, -, -, hkids⟩
      · rw [hnone] at hd
        cases hd
      · rw [App.kidsOf, hc, Option.bind_some, hkids]
        rfl
  parent_first y := by rw [first, parent, Option.isSome_map, Option.isSome_map]
  parent_next y := by rw [next, parent, Option.isSome_map, Option.isSome_map]
  nil_free := by
    have hnext := h.ready.next_nullId
    rw [next, Option.map_eq_none_iff] at hnext
    rw [parent, hnext]
    rfl
  root_ne := by decide

theorem Finished.rooted_iff : Rooted 0 app.parentOf id ↔ Rooted 0 (parent decoded) id := by
  constructor
  · intro hroot
    induction hroot with
    | root => exact .root
    | step hp _ ih => exact .step (h.parentOf_iff.mp hp).1 ih
  · intro hroot
    induction hroot with
    | root => exact .root
    | step hp hroot ih =>
      refine .step (h.parentOf_iff.mpr ⟨hp, ?_⟩) ih
      rintro rfl
      cases hroot with
      | step hnil => exact h.listed.ne_nil hnil rfl

/-- A component of the file has its parent there. -/
theorem Finished.parent_eq {c : Component} (hc : app.comps id = some c) (hid : id ≠ 0) :
    ∃ p, parent decoded id = some p := by
  rcases h.cases hc with ⟨d, hd, -⟩ | ⟨-, hzero, -⟩
  · exact ⟨d.parentId, by rw [parent, hd]; rfl⟩
  · exact absurd hzero hid

theorem Finished.comp_of_parent (hp : parent decoded id = some p) :
    ∃ c, app.comps id = some c := by
  obtain ⟨d, hd, -⟩ := Option.map_eq_some_iff.mp hp
  exact (h.ready.known id).mpr (.inr ⟨d, getDecoded_eq_some hd⟩)

theorem Finished.isTree (hlinks : ∀ l ∈ app.links, LinkEnds app l)
    (htree : TreeLists nullId 0 (parent decoded) app.kidsOf) : app.IsTree where
  kid id c hid hc := by
    obtain ⟨p, hp⟩ := h.parent_eq hc hid
    have hmem := htree.mem id p hid hp
    have hne : p ≠ nullId := by
      rintro rfl
      obtain ⟨k, hk, -⟩ := h.listed.of_mem ((hmem nullId).mpr rfl)
      obtain ⟨q, hq⟩ := h.listed.node_of_first hk
      exact h.listed.ne_nil hq rfl
    have hparent := h.parentOf_iff.mpr ⟨hp, hne⟩
    rw [App.parentOf, hc] at hparent
    exact ⟨p, hparent, hmem⟩
  kids q := by
    refine ⟨?_, fun id hid => ?_⟩
    · cases hk : first decoded q with
      | none =>
        rw [h.listed.empty q hk]
        exact List.nodup_nil
      | some k => exact (h.listed.chain q k hk).nodup
    · obtain ⟨p, hp⟩ := h.listed.node_of_mem hid
      exact h.comp_of_parent hp
  root := by
    refine ⟨htree.root_free, fun c hc => ?_⟩
    rw [Option.eq_none_iff_forall_ne_some]
    intro p hp
    have hparent : app.parentOf 0 = some p := by
      rw [App.parentOf, hc]
      exact hp
    obtain ⟨hp', hne⟩ := h.parentOf_iff.mp hparent
    exact hne (htree.root_top p hp')
  rooted id c hc := by
    by_cases hid : id = 0
    · rw [hid]
      exact .root
    · obtain ⟨p, hp⟩ := h.parent_eq hc hid
      exact h.rooted_iff.mpr (htree.rooted id (Option.isSome_iff_exists.mpr ⟨p, hp⟩))
  links := hlinks

theorem Finished.treeLists (htree : app.IsTree) :
    TreeLists nullId 0 (parent decoded) app.kidsOf where
  mem id p hid hp := by
    obtain ⟨c, hc⟩ := h.comp_of_parent hp
    obtain ⟨p', hp', hmem⟩ := htree.kid id c hid hc
    have hparent : app.parentOf id = some p' := by
      rw [App.parentOf, hc]
      exact hp'
    obtain rfl := Option.some.inj (hp.symm.trans (h.parentOf_iff.mp hparent).1)
    exact hmem
  root_free := htree.root.1
  root_top p hp := by
    by_contra hne
    obtain ⟨c, hc⟩ := h.comp_of_parent hp
    have hparent := h.parentOf_iff.mpr ⟨hp, hne⟩
    rw [App.parentOf, hc, Option.bind_some, htree.root.2 c hc] at hparent
    cases hparent
  rooted id hid := by
    obtain ⟨p, hp⟩ := Option.isSome_iff_exists.mp hid
    obtain ⟨c, hc⟩ := h.comp_of_parent hp
    exact h.rooted_iff.mp (htree.rooted id c hc)

/-- **When the components are a tree.** -/
theorem Finished.isTree_iff (hlinks : ∀ l ∈ app.links, LinkEnds app l) :
    app.IsTree ↔ Agree decoded := by
  rw [Agree, threaded_iff_tree h.listed]
  exact ⟨h.treeLists, h.isTree hlinks⟩

end Finished

/-! ### How decoding ends -/

theorem Ready.cases (h : Ready app decoded) (d : Decoded) :
    Fine decoded d ∨ Broken decoded d ∨ Endless decoded d := by
  have hnodes : ∀ x j, next decoded x = some j → x ∈ decoded.map Decoded.id := by
    intro x j hj
    obtain ⟨e, he, -⟩ := Option.map_eq_some_iff.mp hj
    obtain ⟨hmem, rfl⟩ := getDecoded_eq_some he
    exact List.mem_map_of_mem hmem
  by_cases hparent : d.parentId ≠ nullId ∧ Missing decoded d.parentId
  · exact .inr (.inl (.inl hparent))
  · rcases ends_cases hnodes h.next_nullId d.childrenId with hchain | hdangles | hcirc
    · exact .inl ⟨hparent, hchain⟩
    · exact .inr (.inl (.inr hdangles))
    · exact .inr (.inr ⟨hparent, hcirc⟩)

section Exclusive

variable (h : Ready app decoded)

include h

theorem Ready.not_broken_of_fine (hd : Fine decoded d) : ¬Broken decoded d := by
  intro hbroken
  obtain ⟨hparent, l, hchain⟩ := hd
  obtain ⟨app', -, -, -, -, hok⟩ := finishDecode_fine h hparent hchain
  obtain ⟨e, n, herr⟩ := finishDecode_broken h hbroken
  have heq := (hok (max n l.length) (le_max_right ..)).symm.trans (herr _ (le_max_left ..))
  cases heq

theorem Ready.not_endless_of_fine (hd : Fine decoded d) : ¬Endless decoded d := by
  intro hendless
  obtain ⟨hparent, l, hchain⟩ := hd
  obtain ⟨app', -, -, -, -, hok⟩ := finishDecode_fine h hparent hchain
  have heq := (hok l.length le_rfl).symm.trans (finishDecode_endless h hendless _)
  cases heq

theorem Ready.not_endless_of_broken (hd : Broken decoded d) : ¬Endless decoded d := by
  intro hendless
  obtain ⟨e, n, herr⟩ := finishDecode_broken h hd
  have heq := (herr n le_rfl).symm.trans (finishDecode_endless h hendless n)
  cases heq

end Exclusive

/-- All are fine, or there is a first one that is not. -/
theorem fine_or_first (decoded order : List Decoded) : (∀ d ∈ order, Fine decoded d) ∨
    ∃ pre d post, order = pre ++ d :: post ∧ (∀ x ∈ pre, Fine decoded x) ∧ ¬Fine decoded d := by
  induction order with
  | nil => exact .inl fun d hd => absurd hd List.not_mem_nil
  | cons x order ih =>
    by_cases hx : Fine decoded x
    · rcases ih with hall | ⟨pre, d, post, rfl, hpre, hd⟩
      · exact .inl (List.forall_mem_cons.mpr ⟨hx, hall⟩)
      · exact .inr ⟨x :: pre, d, post, rfl, List.forall_mem_cons.mpr ⟨hx, hpre⟩, hd⟩
    · exact .inr ⟨[], x, order, rfl, fun y hy => absurd hy List.not_mem_nil, hx⟩

section Decode

variable {load : List KitPart → Except Failure Schema} {values : List Decoded → List Decoded}
  {file rest : List (BitVec 8)} {s : App × List Decoded}

/-- Decoding ends with an exception or with a tree. -/
def EndsInTree (load : List KitPart → Except Failure Schema)
    (values : List Decoded → List Decoded) (file : List (BitVec 8)) : Prop :=
  ∃ r, Returns (fun fuel => decodeAppBinary load values fuel file) r ∧
    ∀ app, r = .ok app → app.IsTree

variable (hread : readComponents load file = .ok (s, rest)) (hvalues : (values s.2).Perm s.2)

include hread hvalues

theorem order_nodup : ((values s.2).map Decoded.id).Nodup :=
  (hvalues.map _).nodup_iff.mpr (readComponents_ready hread).1.nodup

/-- All parents are components, and all lists of children end. -/
theorem decode_fine (hfine : ∀ d ∈ s.2, Fine s.2 d) : ∃ app', Finished app' s.2 ∧
    app'.links = [] ∧
    (∀ id, (app'.comps id).map Component.type = (s.1.comps id).map Component.type) ∧
    Returns (fun fuel => decodeAppBinary load values fuel file)
      ((readLinks app' rest).map Prod.fst) := by
  obtain ⟨hready, hfresh⟩ := readComponents_ready hread
  obtain ⟨app', n, h', hlinks, hothers, hself, hrun⟩ := finishAll_fine hready
    (order_nodup hread hvalues) fun d hd => hfine d (hvalues.mem_iff.mp hd)
  have hothers' : ∀ id, (∀ d ∈ s.2, d.id ≠ id) → app'.comps id = s.1.comps id :=
    fun id hid => hothers id fun d hd => hid d (hvalues.mem_iff.mp hd)
  have hself' : ∀ d ∈ s.2, ∃ l, Chain nullId (next s.2) d.childrenId l ∧ Assigned s.1 app' d l :=
    fun d hd => hself d (hvalues.mem_iff.mpr hd)
  refine ⟨app', .of_assigned hready hfresh h' hothers' hself', hlinks.trans hfresh.links,
    fun id => ?_, n, fun fuel hfuel => ?_⟩
  · by_cases hid : ∃ d ∈ s.2, d.id = id
    · obtain ⟨d, hd, rfl⟩ := hid
      obtain ⟨l, -, f, hf, htype⟩ := hself' d hd
      rw [hf, Option.map_map]
      exact Option.map_congr fun c _ => (htype c).1
    · rw [hothers' id fun d hd heq => hid ⟨d, hd, heq⟩]
  · have hall := hrun fuel hfuel []
    rw [List.append_nil, finishAll] at hall
    simp only [decodeAppBinary, hread, hall]

/-- The first component that is not fine decides. -/
theorem decode_first {pre post : List Decoded} {d : Decoded} (hsplit : values s.2 = pre ++ d :: post)
    (hpre : ∀ x ∈ pre, Fine s.2 x) : ∃ app' n, Ready app' s.2 ∧ ∀ fuel, n ≤ fuel →
      finishAll fuel s.2 s.1 (values s.2) = finishAll fuel s.2 app' (d :: post) := by
  obtain ⟨hready, -⟩ := readComponents_ready hread
  have hnodup := order_nodup hread hvalues
  rw [hsplit, List.map_append, List.nodup_append] at hnodup
  obtain ⟨app', n, h', -, -, -, hrun⟩ := finishAll_fine hready hnodup.1 hpre
  exact ⟨app', n, h', fun fuel hfuel => by rw [hsplit, hrun fuel hfuel]⟩

theorem decode_broken {pre post : List Decoded} {d : Decoded} (hsplit : values s.2 = pre ++ d :: post)
    (hpre : ∀ x ∈ pre, Fine s.2 x) (hd : Broken s.2 d) :
    ∃ e, Returns (fun fuel => decodeAppBinary load values fuel file) (.error e) := by
  obtain ⟨app', n, h', hrun⟩ := decode_first hread hvalues hsplit hpre
  obtain ⟨e, m, herr⟩ := finishDecode_broken h' hd
  refine ⟨e, max n m, fun fuel hfuel => ?_⟩
  have hall := hrun fuel ((le_max_left n m).trans hfuel)
  rw [finishAll, herr fuel ((le_max_right n m).trans hfuel)] at hall
  simp only [decodeAppBinary, hread, hall]

theorem decode_endless {pre post : List Decoded} {d : Decoded} (hsplit : values s.2 = pre ++ d :: post)
    (hpre : ∀ x ∈ pre, Fine s.2 x) (hd : Endless s.2 d) (r : Except Failure App) :
    ¬Returns (fun fuel => decodeAppBinary load values fuel file) r := by
  obtain ⟨app', n, h', hrun⟩ := decode_first hread hvalues hsplit hpre
  rintro ⟨m, hm⟩
  have hall := hrun (max n m) (le_max_left n m)
  rw [finishAll, finishDecode_endless h' hd] at hall
  have hreturns := hm (max n m) (le_max_right n m)
  simp only [decodeAppBinary, hread, hall] at hreturns
  cases hreturns

omit hread hvalues in
/-- What is in front of an element is in front of all elements behind it. -/
theorem mem_of_split {α : Type} {l pre pre' post post' : List α} {d d' : α}
    (h : l = pre ++ d :: post) (h' : l = pre' ++ d' :: post') (hne : d ≠ d') (hd' : d' ∉ pre) :
    d ∈ pre' := by
  rcases List.append_eq_append_iff.mp (h.symm.trans h') with ⟨a, rfl, ha⟩ | ⟨a, rfl, ha⟩
  · cases a with
    | nil => exact absurd (List.cons.inj ha).1 hne
    | cons x a =>
      rw [(List.cons.inj ha).1]
      simp
  · cases a with
    | nil => exact absurd (List.cons.inj ha).1.symm hne
    | cons x a =>
      rw [(List.cons.inj ha).1] at hd'
      simp at hd'

/-- Behind the components, decoding throws or returns a tree if and only if an exception comes in front
of every loop without an end, and the ids agree unless there is an exception. -/
theorem endsInTree_iff : EndsInTree load values file ↔
    (∀ pre d post, values s.2 = pre ++ d :: post → Endless s.2 d → ∃ b ∈ pre, Broken s.2 b) ∧
      ((∀ d ∈ s.2, ¬Broken s.2 d) → (∃ p, readLinks s.1 rest = .ok p) → Agree s.2) := by
  obtain ⟨hready, hfresh⟩ := readComponents_ready hread
  rcases fine_or_first s.2 (values s.2) with hall | ⟨pre, d, post, hsplit, hpre, hd⟩
  · have hfine : ∀ d ∈ s.2, Fine s.2 d := fun d hd => hall d (hvalues.mem_iff.mpr hd)
    obtain ⟨app', hfin, hlinks, htype, hreturns⟩ := decode_fine hread hvalues hfine
    have hcongr := readLinks_congr (r := rest) htype (hlinks.trans hfresh.links.symm)
    have hnoloop : ∀ pre d post, values s.2 = pre ++ d :: post → Endless s.2 d →
        ∃ b ∈ pre, Broken s.2 b := by
      intro pre d post hsplit hendless
      have hmem : d ∈ values s.2 := by simp [hsplit]
      exact absurd hendless (hready.not_endless_of_fine (hall d hmem))
    have htree {a : App} {r : List (BitVec 8)} (ha : readLinks app' rest = .ok (a, r)) :
        a.IsTree ↔ Agree s.2 := by
      obtain ⟨hcomps, hends⟩ := readLinks_links ha hlinks
      have hfin' : Finished a s.2 := by
        have hready' : Ready a s.2 := ⟨by rw [hcomps]; exact hfin.ready.known, hfin.ready.nodup,
          hfin.ready.ids⟩
        exact ⟨hready', by rw [hcomps]; exact hfin.comp, by rw [hcomps]; exact hfin.root⟩
      refine hfin'.isTree_iff fun l hl => ?_
      rw [LinkEnds, hcomps]
      exact hends l hl
    constructor
    · rintro ⟨r, hr, hok⟩
      refine ⟨hnoloop, fun _ hread' => ?_⟩
      obtain ⟨⟨a, r'⟩, ha⟩ := hcongr.mpr hread'
      rw [ha] at hreturns
      exact (htree ha).mp (hok a (hr.unique hreturns))
    · rintro ⟨-, hagree⟩
      refine ⟨_, hreturns, fun a ha => ?_⟩
      cases hlast : readLinks app' rest with
      | error e =>
        rw [hlast] at ha
        cases ha
      | ok p =>
        rw [hlast] at ha
        cases ha
        exact (htree hlast).mpr (hagree (fun d hd => hready.not_broken_of_fine (hfine d hd))
          (hcongr.mp ⟨p, hlast⟩))
  · rcases (hready.cases d).resolve_left hd with hbroken | hendless
    · obtain ⟨e, hreturns⟩ := decode_broken hread hvalues hsplit hpre hbroken
      have hmem : d ∈ s.2 := hvalues.mem_iff.mp (by simp [hsplit])
      constructor
      · refine fun _ => ⟨fun pre' d' post' hsplit' hendless => ?_, fun hnone => ?_⟩
        · have hne : d ≠ d' := by
            rintro rfl
            exact hready.not_endless_of_broken hbroken hendless
          have hd' : d' ∉ pre := fun hmem =>
            hready.not_endless_of_fine (hpre d' hmem) hendless
          exact ⟨d, mem_of_split hsplit hsplit' hne hd', hbroken⟩
        · exact absurd hbroken (hnone d hmem)
      · exact fun _ => ⟨_, hreturns, fun app happ => by cases happ⟩
    · constructor
      · rintro ⟨r, hr, -⟩
        exact absurd hr (decode_endless hread hvalues hsplit hpre hendless r)
      · rintro ⟨hloop, -⟩
        obtain ⟨b, hb, hbroken⟩ := hloop pre d post hsplit hendless
        exact absurd hbroken (hready.not_broken_of_fine (hpre b hb))

end Decode

/-- A kit with one type, that of applications. -/
def plainSchema : Schema where
  kits := [{ types := [{ slots := [] }] }]
  app := some { slots := [] }

/-- A file with the component 1 as the child of the application, and both bytes of its next
sibling. -/
def childFile (b c : BitVec 8) : List (BitVec 8) :=
  [0x73, 0x61, 0x70, 0x70, 0, 0, 0, 3, 0, 0, 1] ++
    [0, 0, 0, 0, 0x61, 0, 0xff, 0xff, 0, 1, 0xff, 0xff, 0x3b] ++
    [0, 1, 0, 0, 0x62, 0, 0, 0, 0xff, 0xff, b, c, 0x3b] ++ [0xff, 0xff, 0xff, 0xff, 0x2e]

/-- The application and its child. -/
def childDecoded (sibling : ℕ) : List Decoded :=
  [⟨0, nullId, 1, nullId⟩, ⟨1, 0, nullId, sibling⟩]

theorem getDecoded_child {sibling x : ℕ} {d : Decoded}
    (h : getDecoded (childDecoded sibling) x = some d) :
    (x = 0 ∧ d = ⟨0, nullId, 1, nullId⟩) ∨ (x = 1 ∧ d = ⟨1, 0, nullId, sibling⟩) := by
  obtain ⟨hmem, rfl⟩ := getDecoded_eq_some h
  simp only [childDecoded, List.mem_cons, List.not_mem_nil, or_false] at hmem
  rcases hmem with rfl | rfl
  · exact .inl ⟨rfl, rfl⟩
  · exact .inr ⟨rfl, rfl⟩

theorem agree_child : Agree (childDecoded nullId) where
  root_free y h := by
    rcases h with hy | ⟨-, hy⟩ <;>
      (obtain ⟨d, hd, heq⟩ := Option.map_eq_some_iff.mp hy
       rcases getDecoded_child hd with ⟨rfl, rfl⟩ | ⟨rfl, rfl⟩ <;> cases heq)
  root_top p hp := by
    cases hp
    rfl
  parent_first y x hy hx := by
    obtain ⟨d, hd, rfl⟩ := Option.map_eq_some_iff.mp hy
    rcases getDecoded_child hd with ⟨rfl, rfl⟩ | ⟨rfl, rfl⟩
    · rfl
    · exact absurd rfl hx
  parent_next y x _ hy hx := by
    obtain ⟨d, hd, rfl⟩ := Option.map_eq_some_iff.mp hy
    rcases getDecoded_child hd with ⟨rfl, rfl⟩ | ⟨rfl, rfl⟩ <;> exact absurd rfl hx
  led x hx := by
    obtain ⟨p, hp⟩ := Option.isSome_iff_exists.mp hx
    obtain ⟨d, hd, -⟩ := Option.map_eq_some_iff.mp hp
    rcases getDecoded_child hd with ⟨rfl, -⟩ | ⟨rfl, -⟩
    · exact .root
    · exact .step (.first rfl) .root

/-- No sibling follows. -/
theorem not_circular_child {x : ℕ} : ¬Circular (next (childDecoded nullId)) x := by
  intro h
  obtain ⟨j, hj, hrest⟩ := h.step
  obtain ⟨i, hi, -⟩ := hrest.step
  obtain ⟨d, hd, rfl⟩ := Option.map_eq_some_iff.mp hj
  rcases getDecoded_child hd with ⟨rfl, rfl⟩ | ⟨rfl, rfl⟩ <;> cases hi

end Sedona.Sab
