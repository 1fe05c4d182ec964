import Mathlib.Data.Finset.Basic
import Mathlib.Data.Set.Card
import Mathlib.Logic.Function.Basic
import Mathlib.Logic.Relation
import Sedona.Compiler.ImageGen
import Sedona.Library.ComparatorSort

/-!
# OrderStaticInits

The order in which the bootstrap of an image calls the static initialisers
(`sedonac.steps.OrderStaticInits`): they are sorted with a comparator that looks up whether the kit
of the one depends on the kit of the other, and returns `0` if neither does.

## Main results

* `graphAll_spec`: the graph has all direct and transitive dependencies.
* `compare_pos_iff`: what compares greater.
* `staticInits_ordered`: every initial order comes out right exactly if the kits that have static
  initialisers can be put into layers.
* `not_staticInits_ordered`: three kits, one of them unrelated to the others.
-/

namespace Sedona.OrderStaticInits

open ImageGen ComparatorSort Function

/-! ### The program -/

/-- `KitManifest`, with the names of `depends`. -/
structure Kit where
  name : String
  depends : List String

/-- What the step reads: kits of different names, the base types of the types, and the flat program
with static initialisers of types of these kits. -/
structure Program where
  kits : List Kit
  nodup : (kits.map (·.name)).Nodup
  /-- The base types of a type, from its own base type up. -/
  bases : TypeName → List TypeName
  flat : IrFlat
  staticInits {m : IrMethod} (h : m ∈ flat.staticInits) : m.slot.parent.kit ∈ kits.map (·.name)

/-! ### The graph -/

/-- The map of `graphDependencies`, and the errors so far. -/
structure State where
  graph : String → Option (Finset String)
  errs : List String

/-- `kitsByName.get`. -/
def kitsByName (kits : List Kit) (name : String) : Option Kit := kits.find? fun k => k.name = name

/-- The loop of `graphDependencies`, with the recursive call `follow`. -/
def graphDepend (kits : List Kit)
    (follow : State → Kit → String → Option (State × Finset String)) (path : String) :
    State × Finset String → String → Option (State × Finset String)
  | (s, kitDepends), d =>
      match s.graph d with
      | some set => some (s, insert d kitDepends ∪ set)
      | none =>
          match kitsByName kits d with
          | none =>
              some ({ s with errs := s.errs ++
                ["Dependency on '" ++ d ++ "' required through '" ++ path ++ "'"] }, kitDepends)
          | some dependency => do
              let (s, set) ← follow s dependency (path ++ " -> " ++ d)
              some ({ s with graph := update s.graph d (some set) }, insert d kitDepends ∪ set)

/-- `OrderStaticInits.graphDependencies` of a kit. -/
def graphDependencies (kits : List Kit) :
    ℕ → State → Kit → String → Option (State × Finset String)
  | 0, _, _, _ => none
  | fuel + 1, s, kit, path =>
      kit.depends.foldlM (graphDepend kits (graphDependencies kits fuel) path) (s, ∅)

/-- `OrderStaticInits.graphDependencies`. -/
def graphAll (kits : List Kit) : Option State :=
  kits.foldlM (fun s kit => do
    let (s, set) ← graphDependencies kits (kits.length + 1) s kit kit.name
    some { s with graph := update s.graph kit.name (some set) }) ⟨fun _ => none, []⟩

/-! ### The step -/

def sysType : TypeName := ⟨"sys", "Sys"⟩

variable (P : Program)

/-- `TypeUtil.is` for the type `sys::Sys`. -/
def Program.isSys (t : TypeName) : Prop := t = sysType ∨ sysType ∈ P.bases t

instance (t : TypeName) : Decidable (P.isSys t) := inferInstanceAs (Decidable (_ ∨ _))

/-- `StaticInitComparator.compare`. -/
def compare (dependencies : String → Option (Finset String)) (s₁ s₂ : IrMethod) : ℤ :=
  if P.isSys s₁.slot.parent then -1
  else if P.isSys s₂.slot.parent then 1
  else
    let k₁ := s₁.slot.parent.kit
    let k₂ := s₂.slot.parent.kit
    if k₁ = k₂ then 0
    else if k₂ ∈ (dependencies k₁).getD ∅ then 1
    else if k₁ ∈ (dependencies k₂).getD ∅ then -1
    else 0

/-- `OrderStaticInits.run`: the array of static initialisers, unless there are errors. -/
def run (inits : List IrMethod) : Option (List IrMethod) := do
  let s ← graphAll P.kits
  let inits := arraysSort (compare P s.graph) inits
  if s.errs = [] then some inits else none

/-- The methods whose code a piece of code refers to. -/
def callees (ws : List Write) : List SlotName :=
  ws.filterMap fun
    | .addBlockIndex (.code m) => some m
    | _ => none

/-! ### Dependencies -/

/-- A kit has a dependency in its manifest. -/
def Program.Direct (k d : String) : Prop := ∃ kit ∈ P.kits, kit.name = k ∧ d ∈ kit.depends

/-- A kit depends on another one, directly or transitively. -/
def Program.DependsOn : String → String → Prop := Relation.TransGen P.Direct

def Program.Acyclic : Prop := ∀ k, ¬ P.DependsOn k k

/-- Every dependency is one of the kits. -/
def Program.Complete : Prop := ∀ kit ∈ P.kits, ∀ d ∈ kit.depends, d ∈ P.kits.map (·.name)

instance : Decidable P.Complete := inferInstanceAs (Decidable (∀ kit ∈ P.kits, _))

/-- The static initialiser of `sys::Sys` is called first, and no static initialiser before one of a
kit that its own kit depends on. -/
structure Program.InOrder (calls : List SlotName) : Prop where
  sys {m : SlotName} (h : m ∈ calls) (hsys : m.parent = sysType) : calls.head? = some m
  depends : calls.Pairwise fun m n => ¬ P.DependsOn m.parent.kit n.parent.kit

/-- The kits of the static initialisers can be put into layers. -/
structure Program.Layered : Prop where
  /-- Besides `sys::Sys`, no type that extends it has a static initialiser. -/
  sys {m n : IrMethod} (hm : m ∈ P.flat.staticInits) (hn : n ∈ P.flat.staticInits)
    (hsys : m.slot.parent = sysType) (his : P.isSys n.slot.parent) : n.slot = m.slot
  /-- The kit of `sys::Sys`, or of a type that extends it, depends on none of the kits. -/
  base {m n : IrMethod} (hm : m ∈ P.flat.staticInits) (hn : n ∈ P.flat.staticInits)
    (hsys : P.isSys m.slot.parent) : ¬ P.DependsOn m.slot.parent.kit n.slot.parent.kit
  /-- Of two kits of which one depends on the other, every third one is related to one. -/
  related {a b c : IrMethod} (ha : a ∈ P.flat.staticInits) (hb : b ∈ P.flat.staticInits)
    (hc : c ∈ P.flat.staticInits) (hbsys : ¬ P.isSys b.slot.parent)
    (hcsys : ¬ P.isSys c.slot.parent)
    (hab : P.DependsOn a.slot.parent.kit b.slot.parent.kit) :
    P.DependsOn a.slot.parent.kit c.slot.parent.kit ∨
      P.DependsOn c.slot.parent.kit b.slot.parent.kit

/-! ### The graph has all dependencies -/

variable {P} {s : State} {kit : Kit} {k d : String}

theorem kitsByName_eq_some_iff : kitsByName P.kits k = some kit ↔ kit ∈ P.kits ∧ kit.name = k := by
  constructor
  · intro h
    exact ⟨List.mem_of_find?_eq_some h, by simpa using List.find?_some h⟩
  · rintro ⟨hmem, rfl⟩
    cases h : kitsByName P.kits kit.name with
    | none => exact absurd (decide_eq_true rfl) (List.find?_eq_none.mp h kit hmem)
    | some kit' =>
        have hname : kit'.name = kit.name := by simpa using List.find?_some h
        exact congrArg some (List.inj_on_of_nodup_map P.nodup (List.mem_of_find?_eq_some h) hmem
          hname)

/-- What a kit depends on, one dependency first. -/
theorem dependsOn_iff (hkit : kit ∈ P.kits) :
    P.DependsOn kit.name d ↔ ∃ e ∈ kit.depends, d = e ∨ P.DependsOn e d := by
  have hdirect : ∀ e, P.Direct kit.name e ↔ e ∈ kit.depends := by
    intro e
    constructor
    · rintro ⟨kit', hmem, hname, he⟩
      rwa [← List.inj_on_of_nodup_map P.nodup hmem hkit hname]
    · exact fun he => ⟨kit, hkit, rfl, he⟩
  constructor
  · intro h
    obtain ⟨e, he, hed⟩ := Relation.TransGen.head'_iff.mp h
    exact ⟨e, (hdirect e).mp he, Relation.reflTransGen_iff_eq_or_transGen.mp hed⟩
  · rintro ⟨e, he, rfl | hed⟩
    · exact .single ((hdirect _).mpr he)
    · exact .head ((hdirect e).mpr he) hed

/-- The number of kits that a kit depends on. -/
noncomputable def Program.below (P : Program) (k : String) : ℕ :=
  {d | d ∈ P.kits.map (·.name) ∧ P.DependsOn k d}.ncard

theorem kits_subset (p : String → Prop) :
    {d | d ∈ P.kits.map (·.name) ∧ p d} ⊆ (P.kits.map (·.name)).toFinset :=
  fun _ hd => List.mem_toFinset.mpr hd.1

theorem below_le : P.below k ≤ P.kits.length := by
  refine (Set.ncard_le_ncard (kits_subset _) (Finset.finite_toSet _)).trans ?_
  rw [Set.ncard_coe_finset, ← List.length_map (f := Kit.name)]
  exact List.toFinset_card_le _

theorem below_lt (hacyclic : P.Acyclic) (hd : d ∈ P.kits.map (·.name))
    (h : P.DependsOn k d) : P.below d < P.below k := by
  refine Set.ncard_lt_ncard ⟨fun e he => ⟨he.1, h.trans he.2⟩, fun hsub => ?_⟩
    ((Finset.finite_toSet _).subset (kits_subset _))
  exact hacyclic d (hsub ⟨hd, h⟩).2

/-- The entries of the map are right, and there are no errors. -/
structure Sound (P : Program) (s : State) : Prop where
  errs : s.errs = []
  graph {k : String} {set : Finset String} (h : s.graph k = some set) (d : String) :
    d ∈ set ↔ P.DependsOn k d

/-- Entries stay. -/
def Keeps (s s' : State) : Prop := ∀ k, (s.graph k).isSome → (s'.graph k).isSome

theorem Sound.update (h : Sound P s) {set : Finset String}
    (hset : ∀ d, d ∈ set ↔ P.DependsOn k d) :
    Sound P { s with graph := update s.graph k (some set) } := by
  refine ⟨h.errs, fun {k' set'} hget => ?_⟩
  rcases eq_or_ne k' k with rfl | hne
  · obtain rfl : set = set' := by simpa using hget
    exact hset
  · exact h.graph (by simpa [hne] using hget)

theorem keeps_update {set : Finset String} :
    Keeps s { s with graph := update s.graph k (some set) } := by
  intro k' h
  rcases eq_or_ne k' k with rfl | hne
  · simp
  · simpa [hne] using h

/-- What a run from `s` that has followed a kit leaves. -/
structure Followed (P : Program) (s s' : State) (k : String) (set : Finset String) : Prop where
  sound : Sound P s'
  keeps : Keeps s s'
  mem (d : String) : d ∈ set ↔ P.DependsOn k d

/-- One dependency of a kit. -/
theorem graphDepend_spec {follow : State → Kit → String → Option (State × Finset String)}
    (path : String) (kitDepends : Finset String) (hs : Sound P s)
    (hd : d ∈ P.kits.map (·.name))
    (hfollow : ∀ {s : State} {dep : Kit} (path : String), dep ∈ P.kits → dep.name = d →
      Sound P s → ∃ s' set, follow s dep path = some (s', set) ∧ Followed P s s' d set) :
    ∃ s' set, graphDepend P.kits follow path (s, kitDepends) d =
      some (s', insert d kitDepends ∪ set) ∧ Followed P s s' d set := by
  cases hget : s.graph d with
  | some set =>
      exact ⟨s, set, by simp [graphDepend, hget], hs, fun _ h => h, hs.graph hget⟩
  | none =>
      obtain ⟨dep, hdep, hname⟩ := List.mem_map.mp hd
      have hby : kitsByName P.kits d = some dep := kitsByName_eq_some_iff.mpr ⟨hdep, hname⟩
      obtain ⟨s', set, hrun, hs', hkeeps, hset⟩ :=
        hfollow (path ++ " -> " ++ d) hdep hname hs
      refine ⟨{ s' with graph := update s'.graph d (some set) }, set, ?_, hs'.update hset,
        fun k hk => keeps_update k (hkeeps k hk), hset⟩
      simp [graphDepend, hget, hby, hrun]

/-- **A kit is followed down to its last dependency.** -/
theorem graphDependencies_spec (hacyclic : P.Acyclic) (hcomplete : P.Complete) {fuel : ℕ}
    (path : String) (hkit : kit ∈ P.kits) (hs : Sound P s) (hfuel : P.below kit.name < fuel) :
    ∃ s' set, graphDependencies P.kits fuel s kit path = some (s', set) ∧
      Followed P s s' kit.name set := by
  induction fuel generalizing s kit path with
  | zero => exact absurd hfuel (Nat.not_lt_zero _)
  | succ fuel ih =>
      -- the loop, from any point on
      have hloop : ∀ (ds : List String) (s : State) (kitDepends : Finset String), Sound P s →
          ds ⊆ kit.depends →
          ∃ s' set, ds.foldlM (graphDepend P.kits (graphDependencies P.kits fuel) path)
            (s, kitDepends) = some (s', set) ∧ Sound P s' ∧ Keeps s s' ∧
            ∀ d, d ∈ set ↔ d ∈ kitDepends ∨ ∃ e ∈ ds, d = e ∨ P.DependsOn e d := by
        intro ds
        induction ds with
        | nil => exact fun s kitDepends hs _ => ⟨s, kitDepends, rfl, hs, fun _ h => h, by simp⟩
        | cons e ds ihds =>
            intro s kitDepends hs hsub
            have hmem : e ∈ kit.depends := hsub List.mem_cons_self
            have hin : e ∈ P.kits.map (·.name) := hcomplete kit hkit e hmem
            have hlt := below_lt hacyclic hin (.single ⟨kit, hkit, rfl, hmem⟩)
            obtain ⟨s₁, set, hrun, hs₁, hkeeps, hset⟩ := graphDepend_spec path kitDepends hs hin
              fun path hdep hname hs => hname ▸ ih path hdep hs (by rw [hname]; omega)
            obtain ⟨s', r, hrest, hs', hkeeps', hr⟩ := ihds s₁ (insert e kitDepends ∪ set) hs₁
              fun d hd => hsub (List.mem_cons_of_mem _ hd)
            refine ⟨s', r, ?_, hs', fun k hk => hkeeps' k (hkeeps k hk), fun d => ?_⟩
            · rw [List.foldlM_cons, hrun]
              exact hrest
            · rw [hr, Finset.mem_union, Finset.mem_insert, hset]
              simp only [List.mem_cons, exists_eq_or_imp]
              rw [or_comm (a := d = e) (b := d ∈ kitDepends)]
              simp only [or_assoc]
      obtain ⟨s', set, hrun, hs', hkeeps, hset⟩ := hloop kit.depends s ∅ hs fun _ h => h
      refine ⟨s', set, hrun, hs', hkeeps, fun d => ?_⟩
      rw [hset, dependsOn_iff hkit]
      simp

/-- **The graph of the whole program.** -/
theorem graphAll_spec (hacyclic : P.Acyclic) (hcomplete : P.Complete) :
    ∃ s, graphAll P.kits = some s ∧ Sound P s ∧
      ∀ k ∈ P.kits.map (·.name), (s.graph k).isSome := by
  have hloop : ∀ (kits : List Kit) (s : State), Sound P s → kits ⊆ P.kits →
      ∃ s', kits.foldlM (fun s kit => do
          let (s, set) ← graphDependencies P.kits (P.kits.length + 1) s kit kit.name
          some { s with graph := update s.graph kit.name (some set) }) s = some s' ∧
        Sound P s' ∧ Keeps s s' ∧ ∀ kit ∈ kits, (s'.graph kit.name).isSome := by
    intro kits
    induction kits with
    | nil => exact fun s hs _ => ⟨s, rfl, hs, fun _ h => h, by simp⟩
    | cons kit kits ih =>
        intro s hs hsub
        have hkit : kit ∈ P.kits := hsub List.mem_cons_self
        obtain ⟨s₁, set, hrun, hs₁, hkeeps, hset⟩ := graphDependencies_spec hacyclic hcomplete
          kit.name hkit hs (Nat.lt_succ_of_le below_le)
        obtain ⟨s', hrest, hs', hkeeps', hin⟩ := ih
          { s₁ with graph := update s₁.graph kit.name (some set) } (hs₁.update hset)
          fun k hk => hsub (List.mem_cons_of_mem _ hk)
        refine ⟨s', ?_, hs', fun k hk => hkeeps' k (keeps_update k (hkeeps k hk)), ?_⟩
        · rw [List.foldlM_cons, hrun]
          exact hrest
        · intro kit' hmem
          rcases List.mem_cons.mp hmem with rfl | hmem
          · exact hkeeps' _ (by simp)
          · exact hin kit' hmem
  obtain ⟨s, hrun, hs, -, hin⟩ := hloop P.kits ⟨fun _ => none, []⟩
    ⟨rfl, fun h => absurd h (Option.some_ne_none _).symm⟩ (List.Subset.refl _)
  refine ⟨s, hrun, hs, fun k hk => ?_⟩
  obtain ⟨kit, hkit, rfl⟩ := List.mem_map.mp hk
  exact hin kit hkit

/-! ### What compares greater -/

/-- A static initialiser has to come after another one, as the comparator sees it. -/
def Program.Later (P : Program) (m n : IrMethod) : Prop :=
  ¬ P.isSys m.slot.parent ∧
    (P.isSys n.slot.parent ∨ P.DependsOn m.slot.parent.kit n.slot.parent.kit)

variable {a b c m n : IrMethod} {g : String → Option (Finset String)}

theorem later_irrefl (hacyclic : P.Acyclic) (m : IrMethod) : ¬ P.Later m m := by
  rintro ⟨hnot, hsys | hdep⟩
  · exact hnot hsys
  · exact hacyclic _ hdep

theorem later_trans (a b c : IrMethod) (hab : P.Later a b) (hbc : P.Later b c) : P.Later a c := by
  obtain ⟨ha, hab⟩ := hab
  obtain ⟨hb, hc | hbc⟩ := hbc
  · exact ⟨ha, .inl hc⟩
  · exact ⟨ha, .inr ((hab.resolve_left hb).trans hbc)⟩

/-- **What compares greater.** -/
theorem compare_pos_iff (hacyclic : P.Acyclic)
    (hg : ∀ k ∈ P.kits.map (·.name), ∀ d, d ∈ (g k).getD ∅ ↔ P.DependsOn k d)
    (hm : m ∈ P.flat.staticInits) : ¬ compare P g m n ≤ 0 ↔ P.Later m n := by
  have hd := hg _ (P.staticInits hm)
  unfold compare Program.Later
  by_cases hmsys : P.isSys m.slot.parent
  · simp [hmsys]
  by_cases hnsys : P.isSys n.slot.parent
  · simp [hmsys, hnsys]
  by_cases hkit : m.slot.parent.kit = n.slot.parent.kit
  · have hno := hacyclic n.slot.parent.kit
    simp [hmsys, hnsys, hkit, hno]
  by_cases hdep : P.DependsOn m.slot.parent.kit n.slot.parent.kit
  · simp [hmsys, hnsys, hkit, hd, hdep]
  · simp only [hmsys, hnsys, hkit, hd, hdep, if_false, not_false_eq_true, or_self, and_false,
      iff_false, not_not]
    split <;> decide

/-- The comparator is consistent on the static initialisers of a layered program. -/
theorem consistent_compare (hacyclic : P.Acyclic)
    (hg : ∀ k ∈ P.kits.map (·.name), ∀ d, d ∈ (g k).getD ∅ ↔ P.DependsOn k d)
    (hlayered : P.Layered) : Consistent (compare P g) (· ∈ P.flat.staticInits) := by
  have hpos := fun {m n : IrMethod} (hm : m ∈ P.flat.staticInits) =>
    compare_pos_iff (n := n) hacyclic hg hm
  constructor
  case total =>
    intro m n hm hn h
    by_contra h'
    exact later_irrefl hacyclic m
      (later_trans m n m ((hpos hm).mp h) ((hpos hn).mp h'))
  case trans =>
    intro a c b ha hc hb hac hcb
    by_contra hab
    obtain ⟨hasys, hlater⟩ := (hpos ha).mp hab
    -- the one in the middle would have to be related to one of the others
    have hcsys : ¬ P.isSys c.slot.parent := fun hsys =>
      absurd hac ((hpos ha).mpr ⟨hasys, .inl hsys⟩)
    have hbsys : ¬ P.isSys b.slot.parent := fun hsys =>
      absurd hcb ((hpos hc).mpr ⟨hcsys, .inl hsys⟩)
    rcases hlayered.related ha hb hc hbsys hcsys (hlater.resolve_left hbsys) with hdep | hdep
    · exact absurd hac ((hpos ha).mpr ⟨hasys, .inr hdep⟩)
    · exact absurd hcb ((hpos hc).mpr ⟨hcsys, .inr hdep⟩)

/-! ### The order of the calls -/

theorem callees_append (v w : List Write) : callees (v ++ w) = callees v ++ callees w :=
  List.filterMap_append

/-- The bootstrap calls the static initialisers in the order of the array, and then the main
method. -/
theorem callees_bootstrap {img : SCodeImage} {flat : IrFlat} {main : IrMethod}
    (hmain : findMain flat img.main = .ok main) :
    callees (bootstrap img flat) = flat.staticInits.map (·.slot) ++ [main.slot] := by
  have hmeta : callees (metaSlot img main.slot) = [] := by
    unfold metaSlot
    split <;> rfl
  have hinits : ∀ inits : List IrMethod,
      callees (inits.flatMap fun m =>
        [.padArg 2, .u1 221#32, .addBlockIndex (.code m.slot)]) = inits.map (·.slot) := by
    intro inits
    induction inits with
    | nil => rfl
    | cons m inits ih =>
        rw [List.flatMap_cons, callees_append, ih]
        rfl
  rw [bootstrap, withMain, hmain]
  simp only [callees_append, hmeta, hinits]
  rfl

/-- A sorted array of a layered program. -/
theorem inOrder_of_pairwise {r : List IrMethod} (hr : ∀ m ∈ r, m ∈ P.flat.staticInits)
    (hlayered : P.Layered) (h : r.Pairwise fun m n => ¬ P.Later m n) :
    P.InOrder (r.map (·.slot)) := by
  constructor
  case sys =>
    rintro _ hcall hsys
    obtain ⟨m, hm, rfl⟩ := List.mem_map.mp hcall
    cases r with
    | nil => exact absurd hm List.not_mem_nil
    | cons first rest =>
        refine congrArg some ?_
        rcases List.mem_cons.mp hm with hfirst | hrest
        · rw [hfirst]
        · refine hlayered.sys (hr m hm) (hr first List.mem_cons_self) hsys ?_
          by_contra hfirst
          exact List.rel_of_pairwise_cons h hrest ⟨hfirst, .inl (.inl hsys)⟩
  case depends =>
    refine List.pairwise_map.mpr (h.imp_of_mem fun {m n} hm hn hlater hdep => ?_)
    refine hlater ⟨fun hsys => ?_, .inr hdep⟩
    exact hlayered.base (hr m hm) (hr n hn) hsys hdep

/-- Only a layered program has all orders right in which no neighbours have to be exchanged. -/
theorem layered_of_isChain (hacyclic : P.Acyclic)
    (h : ∀ r : List IrMethod, r.Perm P.flat.staticInits → r.IsChain (¬ P.Later · ·) →
      P.InOrder (r.map (·.slot))) : P.Layered := by
  -- an initialiser that the comparator puts in front can be the first one
  have hfirst : ∀ n ∈ P.flat.staticInits, P.isSys n.slot.parent → ∃ rest : List IrMethod,
      (n :: rest).Perm P.flat.staticInits ∧ P.InOrder (n.slot :: rest.map (·.slot)) := by
    intro n hn hsys
    obtain ⟨p, q, heq⟩ := List.append_of_mem hn
    obtain ⟨rest, hperm, hrest⟩ :=
      exists_perm_pairwise (later_irrefl hacyclic) later_trans (p ++ q)
    have hall : (n :: rest).Perm P.flat.staticInits := by
      rw [heq]
      exact (hperm.cons n).trans List.perm_middle.symm
    refine ⟨rest, hall, h (n :: rest) hall (List.Pairwise.isChain ?_)⟩
    exact List.pairwise_cons.mpr ⟨fun m _ hlater => hlater.1 hsys, hrest⟩
  have hbase : ∀ m ∈ P.flat.staticInits, ∀ n ∈ P.flat.staticInits, P.isSys m.slot.parent →
      ¬ P.DependsOn m.slot.parent.kit n.slot.parent.kit := by
    intro m hm n hn hsys hdep
    obtain ⟨rest, hperm, horder⟩ := hfirst m hm hsys
    rcases List.mem_cons.mp (hperm.mem_iff.mpr hn) with rfl | hrest
    · exact hacyclic _ hdep
    · exact List.rel_of_pairwise_cons horder.depends (List.mem_map_of_mem hrest) hdep
  constructor
  case sys =>
    intro m n hm hn hsys his
    obtain ⟨rest, hperm, horder⟩ := hfirst n hn his
    have hmem : m.slot ∈ n.slot :: rest.map (·.slot) :=
      List.mem_map_of_mem (f := IrMethod.slot) (hperm.mem_iff.mpr hm)
    exact Option.some.inj (horder.sys hmem hsys)
  case base => exact fun hm hn hsys => hbase _ hm _ hn hsys
  case related =>
    intro a b c ha hb hc hbsys hcsys hab
    by_contra hnot
    obtain ⟨hac, hcb⟩ := not_or.mp hnot
    have hasys : ¬ P.isSys a.slot.parent := fun hsys => hbase a ha b hb hsys hab
    have hab' : ¬ P.Later b a := by
      rintro ⟨-, hsys | hba⟩
      · exact hasys hsys
      · exact hacyclic _ (hab.trans hba)
    -- `c` in the middle keeps the comparator from seeing `a` and `b`
    have hblock : [a, c, b].IsChain (¬ P.Later · ·) := by
      refine .cons_cons ?_ (.cons_cons ?_ (.singleton b))
      · rintro ⟨-, hsys | hdep⟩
        · exact hcsys hsys
        · exact hac hdep
      · rintro ⟨-, hsys | hdep⟩
        · exact hbsys hsys
        · exact hcb hdep
    have hnodup : [a, c, b].Nodup := by
      have h₁ : a ≠ c := fun heq => hcb (heq ▸ hab)
      have h₂ : a ≠ b := fun heq => hacyclic _ (heq ▸ hab)
      have h₃ : c ≠ b := fun heq => hac (heq ▸ hab)
      simp [h₁, h₂, h₃]
    have hsub : [a, c, b] ⊆ P.flat.staticInits := by
      simp [ha, hb, hc]
    obtain ⟨l', hl', hsub'⟩ := List.subperm_of_subset hnodup hsub
    obtain ⟨l, hrest⟩ := hsub'.exists_perm_append
    have hl := hrest.trans (hl'.append_right l)
    obtain ⟨p, q, hperm, hchain⟩ := exists_perm_block (later_irrefl hacyclic) later_trans
      [a, c, b] l rfl rfl hblock hab'
    have horder := (h _ (hperm.trans hl.symm) hchain).depends
    have hsublist : [a, b].Sublist (p ++ [a, c, b] ++ q) := by
      refine List.Sublist.trans ?_ (List.infix_append p [a, c, b] q).sublist
      exact .cons_cons a (.cons c (.refl [b]))
    have hpair := (horder.sublist (hsublist.map (·.slot)))
    exact List.rel_of_pairwise_cons hpair (List.mem_singleton_self _) hab

/-- The array of static initialisers in some order, and the calls of the bootstrap. -/
def Program.OrdersAll (P : Program) (img : SCodeImage) (main : IrMethod) : Prop :=
  ∀ inits : List IrMethod, inits.Perm P.flat.staticInits →
    ∃ r calls : _, run P inits = some r ∧ r.Perm inits ∧
      callees (bootstrap img { P.flat with staticInits := r }) = calls ++ [main.slot] ∧
      P.InOrder calls

theorem graph_of_program (hacyclic : P.Acyclic) (hcomplete : P.Complete) :
    ∃ g : String → Option (Finset String),
      (∀ k ∈ P.kits.map (·.name), ∀ d, d ∈ (g k).getD ∅ ↔ P.DependsOn k d) ∧
        ∀ inits, run P inits = some (arraysSort (compare P g) inits) := by
  obtain ⟨s, hgraph, hsound, hin⟩ := graphAll_spec hacyclic hcomplete
  refine ⟨s.graph, fun k hk d => ?_, fun inits => ?_⟩
  · obtain ⟨set, hset⟩ := Option.isSome_iff_exists.mp (hin k hk)
    rw [hset]
    exact hsound.graph hset d
  · simp [run, hgraph, hsound.errs]

/-- An order in which no neighbours have to be exchanged has to be right. -/
theorem inOrder_of_isChain {img : SCodeImage} {main : IrMethod}
    (hmain : findMain P.flat img.main = .ok main) (hacyclic : P.Acyclic) (hcomplete : P.Complete)
    (h : P.OrdersAll img main) {r : List IrMethod} (hperm : r.Perm P.flat.staticInits)
    (hchain : r.IsChain (¬ P.Later · ·)) : P.InOrder (r.map (·.slot)) := by
  obtain ⟨g, hg, hrun⟩ := graph_of_program hacyclic hcomplete
  obtain ⟨r', calls, hr', -, hcalls, horder⟩ := h r hperm
  have hsorted : arraysSort (compare P g) r = r := by
    refine arraysSort_of_isChain (hchain.imp_of_mem_imp fun m n hm _ hlater => ?_)
    exact not_not.mp fun hgt =>
      hlater ((compare_pos_iff hacyclic hg (hperm.mem_iff.mp hm)).mp hgt)
  obtain rfl : r = r' := by
    rw [hrun, hsorted] at hr'
    exact Option.some.inj hr'
  have hboot : callees (bootstrap img { P.flat with staticInits := r }) =
      r.map (·.slot) ++ [main.slot] := callees_bootstrap hmain
  rw [hboot] at hcalls
  rwa [List.append_cancel_right hcalls]

/-- **Static initialisers respect the dependencies, whatever their initial order,** exactly if the
kits can be put into layers. -/
theorem staticInits_ordered {img : SCodeImage} {main : IrMethod}
    (hmain : findMain P.flat img.main = .ok main) (hacyclic : P.Acyclic)
    (hcomplete : P.Complete) : P.OrdersAll img main ↔ P.Layered := by
  constructor
  · exact fun h => layered_of_isChain hacyclic fun r =>
      inOrder_of_isChain hmain hacyclic hcomplete h
  · intro hlayered inits hperm
    obtain ⟨g, hg, hrun⟩ := graph_of_program hacyclic hcomplete
    have hmem : ∀ m ∈ arraysSort (compare P g) inits, m ∈ P.flat.staticInits :=
      fun m hm => hperm.mem_iff.mp ((arraysSort_perm inits).mem_iff.mp hm)
    refine ⟨_, _, hrun inits, arraysSort_perm inits, callees_bootstrap hmain, ?_⟩
    refine inOrder_of_pairwise hmem hlayered ?_
    have hsorted := pairwise_arraysSort (consistent_compare hacyclic hg hlayered)
      fun m hm => hperm.mem_iff.mp hm
    exact hsorted.imp_of_mem fun {m n} hm _ hle hlater =>
      absurd hle ((compare_pos_iff hacyclic hg (hmem m hm)).mpr hlater)

/-! ### Two programs -/

/-- A method of a type, without code. -/
def method (t : TypeName) (name : String) (params : List TypeRef) (ret : TypeRef) : IrMethod where
  slot := ⟨t, name⟩
  params := params
  ret := ret
  isStatic := true
  isNative := false
  isAbstract := false
  maxLocals := 0#32
  code := none

def sInit (kit name : String) : IrMethod := method ⟨kit, name⟩ "_sInit" [] (.primitive 0)

def mainMethod : IrMethod :=
  method sysType "main" [.array TypeRef.strType, TypeRef.intType] TypeRef.intType

/-- A flat program with nothing but static initialisers and the main method. -/
def flatOf (inits : List IrMethod) : IrFlat where
  kits := []
  primitives := []
  reflectiveTypes := []
  virtTypes := []
  reflectiveSlots := []
  logDefines := []
  methods := [mainMethod]
  staticInits := inits
  testMethods := []
  dataSize := 0#32

/-- A kit on top of `sys`. -/
def layers : Program where
  kits := [⟨"a", ["sys"]⟩, ⟨"sys", []⟩]
  nodup := by decide
  bases _ := [⟨"sys", "Obj"⟩]
  flat := flatOf [sInit "a" "A", sInit "sys" "Sys"]
  staticInits h := by
    simp only [flatOf, List.mem_cons, List.not_mem_nil, or_false] at h
    rcases h with rfl | rfl <;> decide

/-- The kit `a` depends on `b`, and `c` is unrelated to both. -/
def unrelated : Program where
  kits := [⟨"a", ["sys", "b"]⟩, ⟨"c", ["sys"]⟩, ⟨"b", ["sys"]⟩, ⟨"sys", []⟩]
  nodup := by decide
  bases _ := [⟨"sys", "Obj"⟩]
  flat := flatOf [sInit "a" "A", sInit "c" "C", sInit "b" "B"]
  staticInits h := by
    simp only [flatOf, List.mem_cons, List.not_mem_nil, or_false] at h
    rcases h with rfl | rfl | rfl <;> decide

/-- A program is acyclic if the kits can be numbered along their dependencies. -/
theorem acyclic_of_rank (rank : String → ℕ)
    (h : ∀ kit ∈ P.kits, ∀ d ∈ kit.depends, rank d < rank kit.name) : P.Acyclic := by
  have hlt : ∀ {k d : String}, P.DependsOn k d → rank d < rank k := by
    intro k d hdep
    induction hdep with
    | single hdirect =>
        obtain ⟨kit, hkit, rfl, hd⟩ := hdirect
        exact h kit hkit _ hd
    | tail _ hdirect ih =>
        obtain ⟨kit, hkit, rfl, hd⟩ := hdirect
        exact (h kit hkit _ hd).trans ih
  exact fun k hk => absurd (hlt hk) (Nat.lt_irrefl _)

theorem layers_acyclic : layers.Acyclic :=
  acyclic_of_rank (fun k => if k = "a" then 1 else 0) (by decide)

theorem layers_complete : layers.Complete := by decide

theorem unrelated_acyclic : unrelated.Acyclic :=
  acyclic_of_rank (fun k => if k = "a" then 2 else if k = "sys" then 0 else 1) (by decide)

theorem unrelated_complete : unrelated.Complete := by decide

/-- An image with the usual main method. -/
def image : SCodeImage where
  bigEndian := false
  blockSize := 4
  refSize := 4#32
  armDouble := false
  main := "sys::Sys.main"
  resume := "sys::Sys.resume"
  debug := false
  test := false

theorem not_dependsOn_of_nil (hkit : ⟨k, []⟩ ∈ P.kits) : ¬ P.DependsOn k d := by
  intro h
  obtain ⟨e, he, -⟩ := (dependsOn_iff hkit).mp h
  exact List.not_mem_nil he

/-- A kit that depends on nothing but `sys`. -/
theorem eq_sys_of_dependsOn (hkit : ⟨k, ["sys"]⟩ ∈ P.kits) (hsys : ⟨"sys", []⟩ ∈ P.kits)
    (h : P.DependsOn k d) : d = "sys" := by
  obtain ⟨e, he, hed⟩ := (dependsOn_iff hkit).mp h
  obtain rfl := List.mem_singleton.mp he
  exact hed.resolve_right (not_dependsOn_of_nil hsys)

theorem layers_layered : layers.Layered := by
  have hsys : ⟨"sys", []⟩ ∈ layers.kits := by simp [layers]
  have hmem : ∀ m ∈ layers.flat.staticInits, m = sInit "a" "A" ∨ m = sInit "sys" "Sys" := by
    simp [layers, flatOf]
  have hA : ¬ layers.isSys ⟨"a", "A"⟩ := by decide
  constructor
  case sys =>
    intro m n hm hn hmsys hnsys
    rcases hmem m hm with rfl | rfl
    · exact absurd (.inl hmsys) hA
    · rcases hmem n hn with rfl | rfl
      · exact absurd hnsys hA
      · rfl
  case base =>
    intro m n hm hn hmsys
    rcases hmem m hm with rfl | rfl
    · exact absurd hmsys hA
    · exact not_dependsOn_of_nil hsys
  case related =>
    intro a b c ha hb hc hbsys hcsys hab
    rcases hmem b hb with rfl | rfl
    · rcases hmem a ha with rfl | rfl
      · exact absurd hab (layers_acyclic _)
      · exact absurd hab (not_dependsOn_of_nil hsys)
    · exact absurd (.inl rfl) hbsys

theorem staticInits_ordered_layers : layers.OrdersAll image mainMethod :=
  (staticInits_ordered rfl layers_acyclic layers_complete).mpr layers_layered

/-- With `c` between `a` and `b`, which it is unrelated to, `a` stays in front of `b`. -/
theorem not_staticInits_ordered :
    ¬ ∀ (P : Program) (img : SCodeImage) (main : IrMethod),
      findMain P.flat img.main = .ok main → P.Acyclic → P.Complete → P.OrdersAll img main := by
  intro h
  have hsys : ⟨"sys", []⟩ ∈ unrelated.kits := by simp [unrelated]
  have hb : ⟨"b", ["sys"]⟩ ∈ unrelated.kits := by simp [unrelated]
  have hc : ⟨"c", ["sys"]⟩ ∈ unrelated.kits := by simp [unrelated]
  have ha : ⟨"a", ["sys", "b"]⟩ ∈ unrelated.kits := by simp [unrelated]
  have hac : ¬ unrelated.DependsOn "a" "c" := by
    intro hdep
    obtain ⟨e, he, hed⟩ := (dependsOn_iff ha).mp hdep
    simp only [List.mem_cons, List.not_mem_nil, or_false] at he
    rcases he with rfl | rfl
    · exact hed.elim (by decide) (not_dependsOn_of_nil hsys)
    · exact hed.elim (by decide) fun hbc => absurd (eq_sys_of_dependsOn hb hsys hbc) (by decide)
  have hcb : ¬ unrelated.DependsOn "c" "b" := fun hdep =>
    absurd (eq_sys_of_dependsOn hc hsys hdep) (by decide)
  have hchain : unrelated.flat.staticInits.IsChain (¬ unrelated.Later · ·) := by
    refine .cons_cons ?_ (.cons_cons ?_ (.singleton _))
    · rintro ⟨-, hisSys | hdep⟩
      · exact absurd hisSys (by decide)
      · exact hac hdep
    · rintro ⟨-, hisSys | hdep⟩
      · exact absurd hisSys (by decide)
      · exact hcb hdep
  have horder := inOrder_of_isChain rfl unrelated_acyclic unrelated_complete
    (h unrelated image mainMethod rfl unrelated_acyclic unrelated_complete) (.refl _) hchain
  have hB : (⟨⟨"b", "B"⟩, "_sInit"⟩ : SlotName) ∈
      [(sInit "c" "C").slot, (sInit "b" "B").slot] := by decide
  exact List.rel_of_pairwise_cons horder.depends hB (.single ⟨_, ha, rfl, by decide⟩)

end Sedona.OrderStaticInits
