import Sedona.Sys.AppLoad
import Sedona.Sys.AppStructure

/-!
# Saving and Loading an Application

The round trip: what `saveApp` writes, `loadApp` reads into a fresh application, which then has
the same components, property values, links and services.

## Main results

* `LoadingLinks.links`: the loop over the links.
* `saveApp_loadApp`: the round trip of a reachable application, if the names of the kits have
  at most 31 characters.
* `not_roundTrips_longKit`: and why that is needed.
-/

namespace Sedona

open Function Intrusive Decoding OutStream InStream Fuel

namespace App

variable {a b b' : App Props} {k : Ref} {n : ℕ} {x : Link} {mem linkMem : ℕ → Ref}
  {kits : List Kit} {init : CompType → (s : Slot) → Value s.type}

/-! ### After the components -/

/-- The loaded components are those of the saved application. -/
theorem Loading.node_eq {done : List ℕ} (h : Loading a b mem n done) (hinv : a.Inv)
    (hdone : ∀ id, id ∈ done ↔ a.lookup id ≠ 0) : b.node = a.node := by
  funext id
  by_cases h0 : a.lookup id = 0
  · have hid : id ≠ 0 := by
      rintro rfl
      exact hinv.table.self_ne (hinv.table.self.symm.trans h0)
    have hnew : id ∉ done := fun hmem => (hdone id).mp hmem h0
    rw [hinv.table.node_eq_none h0, h.table.node_eq_none (h.fresh id hid hnew)]
  · obtain ⟨c, c', hc, hc', hnode, -⟩ := h.loaded id ((hdone id).mpr h0)
    rw [node, node, hc, hc', Option.map_some, Option.map_some, hnode]

theorem Loading.inv {done : List ℕ} (h : Loading a b mem n done) (hinv : a.Inv)
    (hdone : ∀ id, id ∈ done ↔ a.lookup id ≠ 0) : b.Inv := by
  refine ⟨h.table, ?_, ⟨h.links 0, fun s => ?_⟩, ?_, ?_, h.services⟩
  · rw [h.node_eq hinv hdone]
    exact hinv.tree
  · intro id f hf
    obtain ⟨c, hc, rfl⟩ := Option.map_eq_some_iff.mp hf
    obtain ⟨hto, hfrom⟩ := h.heads id c hc
    refine ⟨[], chain_nil.mpr ?_, fun k => by simp [ownOn, h.links k]⟩
    cases s
    · exact hto
    · exact hfrom
  · intro k x hx
    exact absurd ((h.links k).symm.trans hx) (by simp)
  · intro k k' x x' hx
    exact absurd ((h.links k).symm.trans hx) (by simp)

/-! ### The loop over the links -/

/-- Registering a link does not touch property values. -/
theorem insertLink_data {ok : Bool} (h : insertLink b k = some (ok, b')) :
    b'.data = b.data ∧ b'.running = b.running := by
  have hwrite : ∀ {b b' : App Props} {r : Ref} {f : Component → Component},
      b.write r f = some b' → b'.data = b.data ∧ b'.running = b.running := by
    intro b b' r f h
    obtain ⟨c, -, rfl⟩ := Option.map_eq_some_iff.mp h
    exact ⟨rfl, rfl⟩
  have hwriteLink : ∀ {b b' : App Props} {r : Ref} {f : Link → Link},
      b.writeLink r f = some b' → b'.data = b.data ∧ b'.running = b.running := by
    intro b b' r f h
    obtain ⟨c, -, rfl⟩ := Option.map_eq_some_iff.mp h
    exact ⟨rfl, rfl⟩
  simp only [insertLink, Option.bind_eq_bind] at h
  obtain ⟨l, -, h⟩ := Option.bind_eq_some_iff.mp h
  split at h
  · simp only [Option.some.injEq, Prod.mk.injEq] at h
    rw [← h.2]
    exact ⟨rfl, rfl⟩
  · obtain ⟨target, -, h⟩ := Option.bind_eq_some_iff.mp h
    obtain ⟨b₁, h₁, h⟩ := Option.bind_eq_some_iff.mp h
    obtain ⟨b₂, h₂, h⟩ := Option.bind_eq_some_iff.mp h
    have hd₂ := ((hwrite h₂).1.trans (hwriteLink h₁).1)
    have hr₂ := ((hwrite h₂).2.trans (hwriteLink h₁).2)
    split at h
    · obtain ⟨obj, -, h⟩ := Option.bind_eq_some_iff.mp h
      obtain ⟨b₃, h₃, h⟩ := Option.bind_eq_some_iff.mp h
      obtain ⟨b₄, h₄, h⟩ := Option.bind_eq_some_iff.mp h
      simp only [Option.some.injEq, Prod.mk.injEq] at h
      rw [← h.2]
      exact ⟨(hwrite h₄).1.trans ((hwriteLink h₃).1.trans hd₂),
        (hwrite h₄).2.trans ((hwriteLink h₃).2.trans hr₂)⟩
    · simp only [Option.some.injEq, Prod.mk.injEq] at h
      rw [← h.2]
      exact ⟨hd₂, hr₂⟩

/-- The application `b` while the links of `a` are loaded: those in `done` are, with `n`
allocations. The components are those of `b₀`. -/
structure LoadingLinks (a b₀ b : App Props) (linkMem : ℕ → Ref) (n : ℕ) (done : List Ref) :
    Prop where
  inv : b.Inv
  same : SameTree b₀ b
  data : b.data = b₀.data
  links : ∀ e : Link, (∃ k x, b.links k = some x ∧ x.core = e) ↔
    ∃ k ∈ done, ∃ x, a.links k = some x ∧ x.core = e
  memory : ∀ i, n ≤ i → b.links (linkMem i) = none

/-- What a link is read back as. -/
theorem toFin_u1 (s : Fin 256) :
    ((((BitVec.ofNat 32 s.val).setWidth 8).setWidth 32).setWidth 8).toFin = s := by
  have hlt := s.isLt
  apply Fin.ext
  simp only [BitVec.val_toFin, BitVec.toNat_setWidth, BitVec.toNat_ofNat]
  omega

section Links

variable {b₀ : App Props} {done : List Ref}

/-- **Loading a link.** -/
theorem LoadingLinks.link (h : LoadingLinks a b₀ b linkMem n done) (hinv : a.Inv)
    (hnode : b₀.node = a.node) (hmem : Injective linkMem) (hmem0 : ∀ i, linkMem i ≠ 0)
    (hx : a.links k = some x) (hnew : k ∉ done) :
    ∃ b', (∀ fuel bytes res, Decodes (loadLinks linkMem fuel (n + 1) b') bytes res →
        Decodes (loadLinks linkMem (fuel + 1) n b) (saveLink x ++ bytes) res) ∧
      LoadingLinks a b₀ b' linkMem (n + 1) (k :: done) := by
  have hlive : ∀ id, a.lookup id ≠ 0 → b.lookup id ≠ 0 ∧ id < nullId := by
    intro id h0
    obtain ⟨c, hc, -⟩ := hinv.table.exists_comp h0
    have hn : a.node id = some c.toNode := node_eq_some.mpr ⟨c, hc, rfl⟩
    refine ⟨h.inv.table.lookup_of_node (n := c.toNode) ?_, (hinv.tree.ids id _ hn).2⟩
    rw [h.same.node, hnode, hn]
  obtain ⟨hfrom, hto⟩ := hinv.ends k x hx
  obtain ⟨hfrom0, hfromlt⟩ := hlive _ hfrom
  obtain ⟨hto0, htolt⟩ := hlive _ hto
  have hslot : ∀ j y, b.links j = some y → y.toComp = x.core.toComp → y.toSlot ≠ x.core.toSlot := by
    intro j y hy htoeq hsloteq
    obtain ⟨k', hk', x', hx', hcore⟩ := (h.links y.core).mp ⟨j, y, hy, rfl⟩
    have htoComp : x'.toComp = y.toComp := congrArg (fun l => l.toComp) hcore
    have htoSlot : x'.toSlot = y.toSlot := congrArg (fun l => l.toSlot) hcore
    have heq := hinv.slots k' k x' x hx' hx (htoComp.trans htoeq) (htoSlot.trans hsloteq)
    exact hnew (heq ▸ hk')
  obtain ⟨b', hins, hsame, hinv', hcore, hcorek⟩ :=
    h.inv.withLink (x := x.core) (h.memory n le_rfl) (hmem0 n) hfrom0 hto0 hslot
  obtain ⟨hdata, -⟩ := insertLink_data hins
  refine ⟨b', fun fuel bytes res hrest => ?_, hinv', h.same.trans hsame, hdata.trans h.data, ?_,
    ?_⟩
  · have hlt : x.fromComp < 0x10000 := lt_trans hfromlt (by decide)
    have hlt' : x.fromComp < 0xffff := hfromlt
    have hnat := toNat_u2 hlt
    set v := ((BitVec.ofNat 32 x.fromComp).setWidth 16).setWidth 32 with hv
    have hmarker : v ≠ 0xffff := by
      intro heq
      rw [heq] at hnat
      have : (0xffff : BitVec 32).toNat = 0xffff := rfl
      omega
    have hsign : v.slt 0 = false := by
      have hint : v.toInt = x.fromComp := by
        rw [BitVec.toInt_eq_toNat_of_lt (by omega), hnat]
      rw [BitVec.slt, hint]
      simp
    rw [saveLink, List.append_assoc, List.append_assoc, List.append_assoc]
    refine (decodes_readU2 _).bind ?_
    rw [← hv, if_neg hmarker, hsign, if_neg Bool.false_ne_true, if_neg (hmem0 n)]
    refine (decodes_read _).bind ((decodes_readU2 _).bind ((decodes_read _).bind ?_))
    simp only [setWidth_slt_zero, Bool.false_eq_true, if_false, toFin_u1,
      toShort_u2 (lt_trans htolt (show nullId < 0x10000 by decide)), hv, toShort_u2 hlt]
    exact Decodes.lift_bind hins hrest
  · intro e
    constructor
    · rintro ⟨j, y, hy, rfl⟩
      by_cases hj : j = linkMem n
      · subst hj
        rw [hy] at hcorek
        exact ⟨k, List.mem_cons_self, x, hx, (Option.some.inj hcorek).symm⟩
      · have hold := (hcore j hj).symm
        rw [hy] at hold
        obtain ⟨z, hz, hzcore⟩ := Option.map_eq_some_iff.mp hold
        obtain ⟨k', hk', x', hx', hcore'⟩ := (h.links y.core).mp ⟨j, z, hz, hzcore⟩
        exact ⟨k', List.mem_cons_of_mem _ hk', x', hx', hcore'⟩
    · rintro ⟨k', hk', x', hx', rfl⟩
      rcases List.mem_cons.mp hk' with rfl | hk'
      · obtain rfl := Option.some.inj (hx.symm.trans hx')
        obtain ⟨y, hy, hycore⟩ := Option.map_eq_some_iff.mp hcorek
        exact ⟨linkMem n, y, hy, hycore⟩
      · obtain ⟨j, y, hy, hycore⟩ := (h.links x'.core).mpr ⟨k', hk', x', hx', rfl⟩
        have hj : j ≠ linkMem n := by
          rintro rfl
          exact absurd ((h.memory n le_rfl).symm.trans hy) (by simp)
        have hnew' := hcore j hj
        rw [hy] at hnew'
        obtain ⟨z, hz, hzcore⟩ := Option.map_eq_some_iff.mp hnew'
        exact ⟨j, z, hz, hzcore.trans hycore⟩
  · intro i hi
    have hne : linkMem i ≠ linkMem n := fun heq => absurd (hmem heq) (by omega)
    have hnone := hcore _ hne
    rw [h.memory i (by omega)] at hnone
    simpa using hnone

/-- **The loop over the links** loads all that are left. -/
theorem LoadingLinks.links_loop (h : LoadingLinks a b₀ b linkMem n done) (hinv : a.Inv)
    (hnode : b₀.node = a.node) (hmem : Injective linkMem) (hmem0 : ∀ i, linkMem i ≠ 0)
    {todo : List Ref} (hlive : ∀ k ∈ todo, (a.links k).isSome) (hnodup : todo.Nodup)
    (hnew : ∀ k ∈ todo, k ∉ done) :
    ∃ b' n' done', (∀ fuel, todo.length < fuel →
        Decodes (loadLinks linkMem fuel n b) (todo.flatMap a.linkBytes ++ writeI2 0xffff) (0, b')) ∧
      LoadingLinks a b₀ b' linkMem n' done' ∧ ∀ k, k ∈ done' ↔ k ∈ done ∨ k ∈ todo := by
  induction todo generalizing b n done with
  | nil =>
      refine ⟨b, n, done, ?_, h, by simp⟩
      rintro (_ | fuel) hfuel
      · simp at hfuel
      · exact (decodes_readU2 0xffff).bind (Decodes.pure (0, b))
  | cons k todo ih =>
      rw [List.nodup_cons] at hnodup
      obtain ⟨x, hx⟩ := Option.isSome_iff_exists.mp (hlive k List.mem_cons_self)
      obtain ⟨b', hstep, h'⟩ :=
        h.link hinv hnode hmem hmem0 hx (hnew k List.mem_cons_self)
      obtain ⟨b'', n'', done', hrest, h'', hdone⟩ := ih h'
        (fun j hj => hlive j (List.mem_cons_of_mem _ hj)) hnodup.2 (fun j hj hmem' => by
          rcases List.mem_cons.mp hmem' with rfl | hmem'
          · exact hnodup.1 hj
          · exact hnew j (List.mem_cons_of_mem _ hj) hmem')
      refine ⟨b'', n'', done', ?_, h'', fun j => ?_⟩
      · rintro (_ | fuel) hfuel
        · simp at hfuel
        · have hbytes : a.linkBytes k = saveLink x := by simp [linkBytes, hx]
          rw [List.flatMap_cons, List.append_assoc, hbytes]
          exact hstep fuel _ _ (hrest fuel (by simpa using hfuel))
      · rw [hdone, List.mem_cons, List.mem_cons]
        tauto

end Links

/-! ### The round trip -/

/-- The greatest id in the table. -/
theorem maxId_spec (a : App Props) :
    (∀ id, a.lookup id ≠ 0 → id ≤ a.maxId) ∧ (a.maxId = 0 ∨ a.lookup a.maxId ≠ 0) := by
  have hbelow : ∀ n, (∀ id < n, a.lookup id ≠ 0 → id ≤ a.maxIdBelow n) ∧
      (a.maxIdBelow n = 0 ∨ a.lookup (a.maxIdBelow n) ≠ 0) := by
    intro n
    induction n with
    | zero => exact ⟨fun id hid => absurd hid (Nat.not_lt_zero id), Or.inl rfl⟩
    | succ n ih =>
        rw [maxIdBelow]
        by_cases h0 : a.lookup n = 0
        · rw [if_neg (not_not.mpr h0)]
          refine ⟨fun id hid hlive => ih.1 id ?_ hlive, ih.2⟩
          refine lt_of_le_of_ne (Nat.le_of_lt_succ hid) ?_
          rintro rfl
          exact hlive h0
        · rw [if_pos h0]
          exact ⟨fun id hid _ => Nat.le_of_lt_succ hid, Or.inr h0⟩
  obtain ⟨hmax, hlive⟩ := hbelow a.comps.length
  exact ⟨fun id h0 => hmax id (lt_length_of_lookup h0) h0, hlive⟩

/-- The list of services holds the component with this id. -/
def Serves (a : App Props) (id : ℕ) : Prop :=
  ∃ l, Chain 0 a.svcNext a.services l ∧ a.lookup id ∈ l

/-- The applications are the same: the ids with their types, names, parents, children and next
siblings, the config properties, the links and the services; and the structure of the second
one fits together. -/
structure SameApp (a b : App Props) : Prop where
  nodes : b.node = a.node
  values : ∀ id c, a.comp id = some c → ∀ s ∈ c.type.slots, s.matchProp 'c' = true →
    SameValue s.asStr (a.data (a.lookup id) s) (b.data (b.lookup id) s)
  links : ∀ e : Link, (∃ k x, b.links k = some x ∧ x.core = e) ↔
    ∃ k x, a.links k = some x ∧ x.core = e
  services : ∀ id, Serves b id ↔ Serves a id
  consistent : b.Consistent

theorem Inv.serves_iff (h : a.Inv) {id : ℕ} :
    Serves a id ↔ ∃ m, a.node id = some m ∧ m.type.isService = true := by
  obtain ⟨l, hchain, hmem⟩ := h.services () a.services rfl
  constructor
  · rintro ⟨l', hchain', hmem'⟩
    obtain rfl := hchain.unique hchain'
    obtain ⟨c, hc, hcond⟩ := Option.bind_eq_some_iff.mp ((hmem _).mp hmem')
    have hsvc : c.type.isService = true := by
      by_contra hno
      simp [hno] at hcond
    exact ⟨c.toNode, node_eq_some.mpr ⟨c, hc, rfl⟩, hsvc⟩
  · rintro ⟨m, hm, hsvc⟩
    obtain ⟨c, hc, rfl⟩ := node_eq_some.mp hm
    refine ⟨l, hchain, (hmem _).mpr ?_⟩
    rw [svcOwn, show a.objs (a.lookup id) = some c from hc]
    simp [h.table.comp_id hc, hsvc]

/-- What the loading runtime provides: the kits of the one that saved the file, a fresh
application that is not running, whose root has the type and the buffers of the saved one, and
memory that is not in use. -/
structure Loader (kits : List Kit) (mem linkMem : ℕ → Ref) (a b : App Props) : Prop where
  scode : Scode kits
  fresh : b.Fresh
  running : b.running = false
  root : ∃ c c', a.comp 0 = some c ∧ b.objs b.self = some c' ∧ c'.type = c.type ∧
    Fits (c.type.slots.filter (·.matchProp 'c')) (a.data (a.lookup 0)) (b.data b.self)
  mem : Injective mem ∧ ∀ i, mem i ≠ 0 ∧ b.objs (mem i) = none
  linkMem : Injective linkMem ∧ ∀ i, linkMem i ≠ 0

/-- The table that `initApp` makes is ready for the components. -/
theorem Loader.start (h : Loader kits mem linkMem a b) :
    ∃ b₁, b.initApp true (a.maxId + 1) = some (true, b₁) ∧ Loading a b₁ mem 0 [] ∧
      b₁.data = b.data := by
  obtain ⟨c, c', hc, hc', htype, hfits⟩ := h.root
  obtain ⟨d, hd, -, hto, hfrom, -⟩ := h.fresh.self
  obtain rfl := Option.some.inj (hc'.symm.trans hd)
  have hn : a.maxId + 1 ≠ 0 := Nat.succ_ne_zero _
  have hlookup := initialApp_lookup (a := b) (c := c') hn
  have hcomp := h.fresh.initialApp_comp (c := c') hn
  have hinv₁ := h.fresh.initialApp_inv hc' hn
  refine ⟨_, h.fresh.initApp_eq hc' hn, ⟨hinv₁.table, ?_, ?_, fun _ => ?_, by simp, ?_,
    h.fresh.links, hinv₁.services, h.running, ?_⟩, rfl⟩
  · intro id hid _
    rw [hlookup, if_neg hid]
  · intro id h0
    have hle := (maxId_spec a).1 id h0
    have hlen : (b.initialApp (a.maxId + 1) c').comps.length = a.maxId + 1 := by
      simp [initialApp]
    omega
  · refine ⟨c, initialRoot c', hc, by rw [hcomp, if_pos rfl], htype, ?_⟩
    rw [hlookup, if_pos rfl]
    exact hfits
  · intro id e he
    rw [hcomp] at he
    split at he
    · obtain rfl := Option.some.inj he
      exact ⟨hto, hfrom⟩
    · simp at he
  · intro i _
    have hne : mem i ≠ b.self := by
      intro heq
      have hnone := (h.mem.2 i).2
      rw [heq, hc'] at hnone
      exact Option.some_ne_none c' hnone
    exact (put_objs_of_ne hne).trans (h.mem.2 i).2

/-- Saving `a` and loading it into `b` gives the same application, and takes up exactly the
bytes that were saved. -/
def RoundTrips (cb : Callbacks Props) (kits : List Kit)
    (init : CompType → (s : Slot) → Value s.type) (mem linkMem : ℕ → Ref) (temp : Str)
    (a b : App Props) : Prop :=
  ∃ bytes b', Returns (fun fuel => saveApp kits fuel a) bytes ∧ SameApp a b' ∧
    ∀ rest, Returns (fun fuel =>
      (loadApp cb kits init mem linkMem true temp fuel b).run (bytes ++ rest)) ((0, b'), rest)

/-- The round trip, from the invariant of the saved application; the loaded one has it too. -/
theorem Inv.loads (hinv : a.Inv) (cb : Callbacks Props) (temp : Str)
    (ha : Loadable kits init a) (h : Loader kits mem linkMem a b) (hshort : ShortNames kits) :
    ∃ bytes b', Returns (fun fuel => saveApp kits fuel a) bytes ∧ SameApp a b' ∧
      (∀ rest, Returns (fun fuel =>
        (loadApp cb kits init mem linkMem true temp fuel b).run (bytes ++ rest))
          ((0, b'), rest)) ∧ b'.Inv := by
  obtain ⟨refs, hrefs, hmemrefs, nl, hsavelinks⟩ := saveLinks_spec hinv
  obtain ⟨b₁, hinit, hload₁, hdata₁⟩ := h.start
  have hlivecomps : ∀ c ∈ a.liveComps, a.comp c.id = some c :=
    fun c hc => (mem_liveComps hinv.table).mp hc
  -- the components
  obtain ⟨b₂, n₂, done, hcomps, hload₂, hdone⟩ := hload₁.comps cb h.scode ha h.mem.1
    (fun i => (h.mem.2 i).1) hinv hlivecomps (nodup_liveComps hinv.table) (by simp)
  have hdone' : ∀ id, id ∈ done ↔ a.lookup id ≠ 0 := by
    intro id
    rw [hdone]
    constructor
    · rintro (hnil | hmem')
      · simp at hnil
      · obtain ⟨c, hc, rfl⟩ := List.mem_map.mp hmem'
        exact hinv.table.lookup_ne (hlivecomps c hc)
    · intro h0
      obtain ⟨c, hc, hcid⟩ := hinv.table.exists_comp h0
      exact Or.inr (List.mem_map.mpr ⟨c, (mem_liveComps hinv.table).mpr (hcid ▸ hc), hcid⟩)
  have hnode₂ := hload₂.node_eq hinv hdone'
  -- the links
  have hlinks₂ : LoadingLinks a b₂ b₂ linkMem 0 [] := by
    refine ⟨hload₂.inv hinv hdone', SameTree.refl b₂, rfl, fun e => ?_, fun i _ => hload₂.links _⟩
    simp [hload₂.links]
  obtain ⟨b₃, n₃, done₃, hlinks, hload₃, hdone₃⟩ := hlinks₂.links_loop hinv hnode₂ h.linkMem.1
    h.linkMem.2 (fun k hk => (hmemrefs k).mp hk) hrefs (by simp)
  set comps := a.liveComps.flatMap fun c => saveAppComp c (a.data (a.lookup c.id)) with hcompsdef
  set links := refs.flatMap a.linkBytes with hlinksdef
  refine ⟨writeI4 0x73617070 ++ (writeI4 0x0003 ++ (saveSchema kits ++
    (writeI2 (BitVec.ofNat 32 a.maxId) ++ (comps ++ (writeI2 0xffff ++ (links ++
      (writeI2 0xffff ++ OutStream.write 0x2e))))))), b₃, ⟨nl, fun fuel hfuel => ?_⟩,
    ⟨?_, ?_, ?_, ?_, hload₃.inv.consistent⟩,
    fun rest => ⟨a.liveComps.length + refs.length + 1, fun fuel hfuel => ?_⟩, hload₃.inv⟩
  · simp only [saveApp, saveComps_eq hinv.table, hsavelinks fuel hfuel, Option.bind_eq_bind,
      Option.bind_some]
    rfl
  · rw [hload₃.same.node, hnode₂]
  · intro id c hc s hs hmatch
    have h0 := hinv.table.lookup_ne hc
    obtain ⟨d, d', hd, -, -, hsame⟩ := hload₂.loaded id ((hdone' id).mpr h0)
    obtain rfl := Option.some.inj (hc.symm.trans hd)
    rw [hload₃.data, hload₃.same.lookup]
    exact hsame s hs hmatch
  · intro e
    rw [hload₃.links]
    constructor
    · rintro ⟨k, -, x, hx, hcore⟩
      exact ⟨k, x, hx, hcore⟩
    · rintro ⟨k, x, hx, hcore⟩
      refine ⟨k, ?_, x, hx, hcore⟩
      rw [hdone₃]
      exact Or.inr ((hmemrefs k).mpr (by simp [hx]))
  · intro id
    rw [hload₃.inv.serves_iff, hinv.serves_iff, hload₃.same.node, hnode₂]
  · have hmax : a.maxId < nullId := by
      rcases (maxId_spec a).2 with h0 | h0
      · rw [h0]
        decide
      · obtain ⟨c, hc, -⟩ := hinv.table.exists_comp h0
        exact (hinv.tree.ids _ _ (node_eq_some.mpr ⟨c, hc, rfl⟩)).2
    have hlt : a.maxId < 0xffff := hmax
    have hnat := toNat_u2 (n := a.maxId) (by omega)
    have hlen : (((BitVec.ofNat 32 a.maxId).setWidth 16).setWidth 32).toInt + 1 =
        (a.maxId + 1 : ℕ) := by
      rw [BitVec.toInt_eq_toNat_of_lt (by omega), hnat]
      rfl
    have hread : Decodes (loadApp cb kits init mem linkMem true temp fuel b)
        (writeI4 0x73617070 ++ (writeI4 0x0003 ++ (saveSchema kits ++
          (writeI2 (BitVec.ofNat 32 a.maxId) ++ ((comps ++ writeI2 0xffff) ++
            ((links ++ writeI2 0xffff) ++ OutStream.write 0x2e)))))) (0, b₃) := by
      refine (decodes_readS4 0x73617070).bind ?_
      rw [if_neg (not_not.mpr rfl)]
      refine (decodes_readS4 0x0003).bind ?_
      rw [if_neg (not_not.mpr rfl)]
      refine (decodes_loadSchema h.scode hshort temp).bind ((decodes_readU2 _).bind ?_)
      refine Decodes.lift_bind (v := (true, b₁)) (by rw [hlen]; exact hinit) ?_
      refine (hcomps fuel (by omega)).bind ?_
      simp only [ne_eq, not_true_eq_false, if_false]
      refine (hlinks fuel (by omega)).bind ?_
      simp only [not_true_eq_false, if_false]
      exact (decodes_read 0x2e).bind (Decodes.pure (0, b₃))
    simp only [List.append_assoc] at hread
    have hrun := hread rest
    simp only [List.append_assoc] at hrun ⊢
    exact hrun

/-- **The round trip.** Whatever calls made the application, saving and loading gives it back,
if every kit has a name of at most 31 characters. -/
theorem saveApp_loadApp {cb : Callbacks Props} (h : (editing cb).Reachable a)
    (hcomps : a.comps ≠ []) (cb' : Callbacks Props) (temp : Str) (ha : Loadable kits init a)
    (hb : Loader kits mem linkMem a b) (hshort : ShortNames kits) :
    RoundTrips cb' kits init mem linkMem temp a b := by
  rcases inv_of_reachable h with hfresh | hinv
  · exact absurd hfresh.comps hcomps
  · obtain ⟨bytes, b', hsave, hsame, hload, -⟩ := hinv.loads cb' temp ha hb hshort
    exact ⟨bytes, b', hsave, hsame, hload⟩

/-! ### A run, and a kit that is too long -/

/-- The value of a new property; buffers have four bytes. -/
def zeroValue : (t : SlotType) → Value t
  | .void => ()
  | .bool => some false
  | .byte | .short | .int | .long | .float | .double => 0
  | .buf => { bytes := [0, 0, 0, 0], size := 0 }

/-- The app, with a number that is not saved. -/
def rootType : CompType := { kit := 0, id := 0, slots := [numberSlot] }

/-- A component with a number and a string, which are saved. -/
def pointType : CompType :=
  { kit := 0, id := 1,
    slots := [{ numberSlot with config := true },
              { id := ⟨1, by decide⟩, type := .buf, config := true, asStr := true }] }

/-- A runtime with one kit of this name. -/
def kitNamed (name : Str) : List Kit :=
  [{ id := 0, name := name, checksum := 7, types := [rootType, pointType] }]

/-- The number 5 and the string "ab". -/
def pointValues (s : Slot) : Value s.type :=
  match s with
  | { type := .int, .. } => 5
  | { type := .buf, .. } => { bytes := [0x61, 0x62, 0, 0], size := 3 }
  | s => zeroValue s.type

/-- A fresh application behind the reference 1, with the values of its properties. -/
def freshApp : App Props :=
  { self := 1, objs := fun r => if r = 1 then some { type := rootType } else none,
    data := fun _ s => zeroValue s.type }

/-- A component is added and linked to the app, and its properties are set. -/
def savedCall : ℕ → Call Props
  | 0 => .initApp true 2
  | 1 => .add true 2 0 [0x78] pointType
  | 2 => .addLink 1 0 numberSlot 1 numberSlot
  | _ => .other (fun r s => if r = 2 then pointValues s else zeroValue s.type) false

/-- The application after the first `n` calls. -/
def savedRun : ℕ → App Props
  | 0 => freshApp
  | n + 1 => ((savedCall n).run quiet (savedRun n) 9).getD freshApp

theorem reachable_savedRun : (editing quiet).Reachable (savedRun 4) := by
  have h₀ : (editing quiet).Reachable (savedRun 0) :=
    Transition.System.Reachable.start ⟨rfl, rfl, ⟨_, rfl, rfl, rfl, rfl, rfl⟩, fun _ => rfl, rfl⟩
  have h₁ := reachable_call (savedCall 0) 9 h₀ trivial fun _ => rfl
  have h₂ := reachable_call (savedCall 1) 9 h₁ ⟨Or.inr rfl, by decide⟩ fun _ => rfl
  have h₃ := reachable_call (savedCall 2) 9 h₂ rfl fun _ => rfl
  exact reachable_call (savedCall 3) 9 h₃ trivial fun _ => rfl

/-- The components after the run. -/
theorem comp_savedRun {id : ℕ} {c : Component} (h : (savedRun 4).comp id = some c) :
    (id = 0 ∧ c = { type := rootType, name := appName, children := 1, linksFrom := 1 }) ∨
      (id = 1 ∧ c = { id := 1, name := [0x78], type := pointType, parent := 0, linksTo := 1 }) := by
  match id with
  | 0 => exact Or.inl ⟨rfl, (Option.some.inj h).symm⟩
  | 1 => exact Or.inr ⟨rfl, (Option.some.inj h).symm⟩
  | n + 2 => exact nomatch h

/-- New components have zero values. -/
def zeroInit : CompType → (s : Slot) → Value s.type := fun _ s => zeroValue s.type

/-- The app has nothing to load. -/
theorem fits_root (values old : (s : Slot) → Value s.type) :
    Fits (rootType.slots.filter (·.matchProp 'c')) values old := by
  have hnil : rootType.slots.filter (·.matchProp 'c') = [] := rfl
  rw [hnil]
  exact ⟨by simp, by simp, by simp⟩

theorem fits_point : Fits (pointType.slots.filter (·.matchProp 'c')) pointValues
    fun s => zeroValue s.type := by
  have hall : ∀ s ∈ pointType.slots.filter (·.matchProp 'c'),
      s = { numberSlot with config := true } ∨
        s = { id := ⟨1, by decide⟩, type := .buf, config := true, asStr := true } := by decide
  refine ⟨fun s hs => ?_, fun s hs => ?_, fun s hs => ?_⟩
  · rcases hall s hs with rfl | rfl
    · trivial
    · exact ⟨⟨by decide, by decide⟩, by decide⟩
  · rcases hall s hs with rfl | rfl
    · trivial
    · rfl
  · rcases hall s hs with rfl | rfl
    · decide
    · decide

theorem loadable_savedRun (name : Str) : Loadable (kitNamed name) zeroInit (savedRun 4) := by
  refine ⟨fun id c hc => ?_, fun id c hc => ?_, fun id c hc => ?_⟩
  · rcases comp_savedRun hc with ⟨-, rfl⟩ | ⟨-, rfl⟩
    · exact ⟨by decide, by decide, by decide, by decide⟩
    · exact ⟨by decide, by decide, by decide, by decide⟩
  · rcases comp_savedRun hc with ⟨-, rfl⟩ | ⟨-, rfl⟩
    · exact ⟨_, rfl, rfl⟩
    · exact ⟨_, rfl, rfl⟩
  · rcases comp_savedRun hc with ⟨rfl, rfl⟩ | ⟨rfl, rfl⟩
    · exact fits_root _ _
    · exact fits_point

theorem loader_savedRun {name : Str} (h0 : 0 ∉ name) :
    Loader (kitNamed name) (· + 5) (· + 1) (savedRun 4) freshApp where
  scode :=
    { length_lt := by simp [kitNamed]
      ids := fun i kit hkit => by
        cases i with
        | zero => exact Option.some.inj hkit ▸ rfl
        | succ i => exact nomatch hkit
      names := fun kit hkit => by
        obtain rfl := List.mem_singleton.mp hkit
        exact h0
      types := fun kit hkit => by
        obtain rfl := List.mem_singleton.mp hkit
        exact (by decide : 2 < 256) }
  fresh := ⟨rfl, rfl, ⟨_, rfl, rfl, rfl, rfl, rfl⟩, fun _ => rfl, rfl⟩
  running := rfl
  root := ⟨_, _, rfl, rfl, rfl, fits_root _ _⟩
  mem := ⟨fun i j h => by simpa using h, fun i => ⟨by simp, by simp [freshApp]⟩⟩
  linkMem := ⟨fun i j h => by simpa using h, fun i => by simp⟩

/-- The round trip of this application. -/
theorem saveApp_loadApp_savedRun :
    RoundTrips quiet (kitNamed [0x73]) zeroInit (· + 5) (· + 1) [] (savedRun 4) freshApp :=
  saveApp_loadApp reachable_savedRun (by decide) quiet [] (loadable_savedRun _)
    (loader_savedRun (by decide)) fun kit hkit => List.mem_singleton.mp hkit ▸ by decide

/-- **A kit with a name of 32 characters**: the runtime that saved the application does not
load it, as the name does not fit `Str.temp`. -/
theorem not_roundTrips_longKit : ∃ (cb : Callbacks Props) (kits : List Kit)
    (init : CompType → (s : Slot) → Value s.type) (mem linkMem : ℕ → Ref) (temp : Str)
    (a b : App Props), (editing cb).Reachable a ∧ a.comps ≠ [] ∧ Loadable kits init a ∧
      Loader kits mem linkMem a b ∧ ¬ RoundTrips cb kits init mem linkMem temp a b := by
  refine ⟨quiet, kitNamed (List.replicate 32 0x61), zeroInit, (· + 5), (· + 1), [], savedRun 4,
    freshApp, reachable_savedRun, by decide, loadable_savedRun _, loader_savedRun (by decide), ?_⟩
  rintro ⟨bytes, b', hsave, -, hload⟩
  have hbytes : Returns (fun fuel => saveApp (kitNamed (List.replicate 32 0x61)) fuel (savedRun 4))
      ((saveApp (kitNamed (List.replicate 32 0x61)) 9 (savedRun 4)).getD []) :=
    ⟨9, fun fuel hfuel => by
      obtain ⟨fuel, rfl⟩ := Nat.exists_eq_add_of_le' hfuel
      rfl⟩
  obtain rfl := hsave.unique hbytes
  have hrun : ∀ fuel, ((loadApp quiet (kitNamed (List.replicate 32 0x61)) zeroInit (· + 5) (· + 1)
      true [] fuel freshApp).run ((saveApp (kitNamed (List.replicate 32 0x61)) 9
        (savedRun 4)).getD [] ++ [])).map (·.1.1) = some Err.invalidSchema := fun fuel => rfl
  obtain ⟨n, hn⟩ := hload []
  have hcode : (some 0 : Option ℕ) = some Err.invalidSchema :=
    (congrArg (Option.map fun x : (ℕ × App Props) × List (BitVec 8) => x.1.1)
      (hn n le_rfl)).symm.trans (hrun n)
  exact absurd hcode (by decide)

end App

end Sedona
