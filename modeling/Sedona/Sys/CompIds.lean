import Sedona.Sys.AppStructure

/-!
# Component Ids

`allocCompId` takes the first id that no component has, and grows the table when there is none in
it. Nothing keeps it from the value that stands for no component: in an application with 65535
components the next id is `nullId`.

## Main results

* `allocCompId_first`: the id that is allocated is the smallest that is free.
* `keepsIds_iff`: the states in which an id is allocated as it should be, or refused.
* `ids_of_reachable`: applications that are edited in such states only keep their ids apart.
* `not_keepsIds`: an application that runs out of ids.
-/

namespace Sedona

open Function Intrusive Fuel Transition

variable {δ : Type}

namespace App

variable {a a' : App δ} {cb : Callbacks δ} {ok : Bool} {id : ℕ}

/-! ### The smallest free id -/

/-- The table grows at its end. -/
theorem ensureCompsCapacity_grows (a : App δ) (ok : Bool) (n : ℕ) :
    a.comps <+: (a.ensureCompsCapacity ok n).2.comps := by
  unfold ensureCompsCapacity
  split
  · exact List.prefix_refl _
  · cases ok with
    | false => exact List.prefix_refl _
    | true => exact List.prefix_append _ _

/-- The id that is allocated is free, it is the smallest one, and it has an entry in the table. -/
theorem allocCompId_first (hid : (a.allocCompId ok).1 = some id) :
    a.lookup id = 0 ∧ (∀ j < id, a.lookup j ≠ 0) ∧ id < (a.allocCompId ok).2.comps.length := by
  unfold allocCompId at hid ⊢
  cases hfind : a.comps.findIdx? (· == 0) with
  | some i =>
      rw [hfind] at hid
      obtain rfl := Option.some.inj hid
      obtain ⟨hi, hzero, hbefore⟩ := List.findIdx?_eq_some_iff_getElem.mp hfind
      refine ⟨?_, fun j hj => ?_, hi⟩
      · simpa [lookup, List.getD_eq_getElem?_getD, hi] using hzero
      · have := hbefore j hj
        rw [lookup, List.getD_eq_getElem?_getD, List.getElem?_eq_getElem (hj.trans hi)]
        simpa using this
  | none =>
      have hgrow : ¬ a.comps.length ≥ a.comps.length + 8 := by omega
      cases ok with
      | false =>
          simp only [hfind, ensureCompsCapacity, if_neg hgrow] at hid
          cases hid
      | true =>
          simp only [hfind, ensureCompsCapacity, if_neg hgrow] at hid ⊢
          obtain rfl : a.comps.length = id := by simpa using hid
          refine ⟨by simp [lookup], fun j hj => ?_, by simp⟩
          have := List.findIdx?_eq_none_iff.mp hfind a.comps[j] (List.getElem_mem hj)
          rw [lookup, List.getD_eq_getElem?_getD, List.getElem?_eq_getElem hj]
          simpa using this

/-- Some id below `nullId` belongs to no component. -/
def IdsLeft (a : App δ) : Prop := ∃ id < nullId, a.lookup id = 0

/-- The table has at least as many entries as the ids that are in use from 0 on. -/
theorem le_length (h : ∀ j < id, a.lookup j ≠ 0) : id ≤ a.comps.length := by
  by_contra hlt
  refine h a.comps.length (by omega) ?_
  simp [lookup]

/-- An id that is left leaves room among 65535 components. -/
theorem Inv.count_lt (h : a.Inv) (hleft : a.IdsLeft) : a.count < nullId := by
  obtain ⟨i, hi, hzero⟩ := hleft
  -- behind `nullId` the table is empty
  have hdrop : (a.comps.drop nullId).countP (· != 0) = 0 := by
    rw [List.countP_eq_zero]
    intro r hr hne
    obtain ⟨j, hj, rfl⟩ := List.mem_iff_getElem.mp hr
    rw [List.length_drop] at hj
    rw [List.getElem_drop] at hne
    have hlive : a.lookup (nullId + j) ≠ 0 := by
      rw [lookup, List.getD_eq_getElem?_getD, List.getElem?_eq_getElem (by omega)]
      simpa using hne
    obtain ⟨c, hc, -⟩ := h.table.exists_comp hlive
    have := (h.tree.ids _ _ (node_eq_some.mpr ⟨c, hc, rfl⟩)).2
    omega
  have hsplit : a.count = (a.comps.take nullId).countP (· != 0) := by
    rw [count, ← List.take_append_drop nullId a.comps, List.countP_append,
      List.take_append_drop, hdrop, Nat.add_zero]
  rw [hsplit]
  have hle := List.countP_le_length (l := a.comps.take nullId) (p := (· != 0))
  rw [List.length_take] at hle
  by_cases hlen : i < a.comps.length
  · refine lt_of_le_of_ne (hle.trans (Nat.min_le_left _ _)) fun heq => ?_
    have hall : (a.comps.take nullId).countP (· != 0) = (a.comps.take nullId).length := by
      rw [List.length_take]
      omega
    have hmem : a.comps[i] ∈ a.comps.take nullId :=
      List.mem_iff_getElem.mpr ⟨i, by rw [List.length_take]; omega, by rw [List.getElem_take]⟩
    have hne := List.countP_eq_length.mp hall _ hmem
    rw [lookup, List.getD_eq_getElem?_getD, List.getElem?_eq_getElem hlen] at hzero
    simp only [Option.getD_some] at hzero
    simp [hzero] at hne
  · omega

/-! ### What is asked of a call -/

/-- What a call of `add` does with the ids of the application: the id that is allocated is not
`nullId`, no component has it and the table has an entry for it; the table keeps its entries when it
grows; and `add` returns null and changes nothing when there is no id left. -/
structure KeepsIds (cb : Callbacks δ) (a : App δ) (ok : Bool) : Prop where
  fresh : ∀ id, (a.allocCompId ok).1 = some id →
    id ≠ nullId ∧ (∀ i c, a.comp i = some c → c.id ≠ id) ∧
      id < (a.allocCompId ok).2.comps.length
  grows : ∀ n, a.comps <+: (a.ensureCompsCapacity ok n).2.comps
  refused : ¬ a.IdsLeft → ∀ mem pid name t,
    Returns (fun fuel => add cb fuel a ok mem (a.lookup pid) name t) (0, a)

/-- There is an id left, or the table is full and cannot be made larger. -/
def HasIdOrFull (a : App δ) (ok : Bool) : Prop := a.IdsLeft ∨ ok = false ∧ 0 ∉ a.comps

theorem allocCompId_full (hfull : 0 ∉ a.comps) : a.allocCompId false = (none, a) := by
  have hnone : a.comps.findIdx? (· == 0) = none := by
    rw [List.findIdx?_eq_none_iff]
    intro r hr
    simpa using fun h : r = 0 => hfull (h ▸ hr)
  have hgrow : ¬ a.comps.length ≥ a.comps.length + 8 := by omega
  simp only [allocCompId, hnone, ensureCompsCapacity, if_neg hgrow]
  rfl

/-- A full table that cannot grow: whatever `add` returns, it returns null and changes nothing. -/
theorem add_full (hfull : 0 ∉ a.comps) {fuel : ℕ} {mem parent r : Ref} {name : Str} {t : CompType}
    (h : add cb fuel a false mem parent name t = some (r, a')) : r = 0 ∧ a' = a := by
  have hsame : ∀ {x : Ref × App δ}, some (0, a) = some x → x.1 = 0 ∧ x.2 = a := by
    rintro x hx
    rw [← Option.some.inj hx]
    exact ⟨rfl, rfl⟩
  unfold add at h
  split at h
  · exact hsame h
  · obtain ⟨p, -, h⟩ := Option.bind_eq_some_iff.mp h
    obtain ⟨sibling, -, h⟩ := Option.bind_eq_some_iff.mp h
    split at h
    · exact hsame h
    · rw [allocCompId_full hfull] at h
      exact hsame h

/-- `add` ends: the loop along the siblings does. -/
theorem Inv.add_refused (h : a.Inv) (hfull : 0 ∉ a.comps) (mem : Ref) (pid : ℕ) (name : Str)
    (t : CompType) : Returns (fun fuel => App.add cb fuel a false mem (a.lookup pid) name t) (0, a) := by
  by_cases h0 : a.lookup pid = 0
  · exact ⟨0, fun fuel _ => by rw [h0]; exact if_pos rfl⟩
  · obtain ⟨p, hp, -⟩ := h.table.exists_comp h0
    obtain ⟨l, hl⟩ := h.tree.kids pid p.toNode (node_eq_some.mpr ⟨p, hp, rfl⟩)
    obtain ⟨sibling, hwalk, -⟩ :=
      siblingWhere_spec h.table h.lookup_nullId hl.chain (·.name == name)
    refine ⟨l.length + 1, fun fuel hfuel => ?_⟩
    have hobj : a.objs (a.lookup pid) = some p := hp
    by_cases hsame : a.lookup sibling = 0
    · simp [App.add, h0, hobj, hwalk fuel hfuel, allocCompId_full hfull]
    · simp [App.add, h0, hobj, hwalk fuel hfuel, hsame]

/-- An id is allocated as it should be, or refused, if and only if one is left or the table is full
and cannot be made larger. -/
theorem keepsIds_iff (h : a.Inv) : KeepsIds cb a ok ↔ HasIdOrFull a ok := by
  constructor
  · intro hk
    by_contra hno
    rw [HasIdOrFull, not_or, not_and_or, Bool.not_eq_false, not_not] at hno
    obtain ⟨hleft, hsome⟩ := hno
    obtain ⟨id, hid⟩ := Option.isSome_iff_exists.mp (allocCompId_isSome.mpr hsome)
    obtain ⟨hzero, hbefore, -⟩ := allocCompId_first hid
    have hge : nullId ≤ id := by
      by_contra hlt
      exact hleft ⟨id, by omega, hzero⟩
    have hle : id ≤ nullId := by
      by_contra hlt
      exact hbefore nullId (by omega) h.lookup_nullId
    exact (hk.fresh id hid).1 (by omega)
  · intro hcond
    refine ⟨fun id hid => ?_, ensureCompsCapacity_grows a ok, fun hleft mem pid name t => ?_⟩
    · obtain ⟨hzero, hbefore, hlen⟩ := allocCompId_first hid
      refine ⟨?_, fun i c hc heq => ?_, hlen⟩
      · rintro rfl
        rcases hcond with ⟨i, hi, hi0⟩ | ⟨rfl, hfull⟩
        · exact hbefore i hi hi0
        · rw [allocCompId_full hfull] at hid
          cases hid
      · rw [h.table.comp_id hc] at heq
        subst heq
        exact h.table.lookup_ne hc hzero
    · rcases hcond with hid | ⟨rfl, hfull⟩
      · exact absurd hid hleft
      · exact h.add_refused hfull mem pid name t

/-! ### Runs -/

end App

namespace Call

/-- What the memory guarantees about a call: what it allocates is not in use, and links are links of
the app. -/
def Allocated (a : App δ) : Call δ → Prop
  | add _ mem _ _ _ => mem = 0 ∨ a.objs mem = none
  | addLink mem _ _ _ _ => a.links mem = none
  | removeLink link => link = 0 ∨ (a.links link).isSome
  | _ => True

/-- A component is added where an id is left, or where the table is full and cannot grow. -/
def HasIdOrFull (a : App δ) : Call δ → Prop
  | add ok _ _ _ _ => a.HasIdOrFull ok
  | _ => True

end Call

namespace App

variable {a a' : App δ} {cb : Callbacks δ}

/-- A well-formed application and its calls, with as many components as there is memory for. -/
def unbounded (cb : Callbacks δ) : System (App δ) (Call δ) where
  init := Inv
  step a call a' := call.Allocated a ∧ Returns (fun fuel => call.run cb a fuel) a'

/-- **One step** where an id is left or the table is full. -/
theorem Inv.step_unbounded (h : a.Inv) {call : Call δ} (hcond : call.HasIdOrFull a)
    (hstep : (unbounded cb).step a call a') : a'.Inv := by
  obtain ⟨hmem, hrun⟩ := hstep
  cases call with
  | add ok mem parent name t =>
      rcases hcond with hleft | ⟨rfl, hfull⟩
      · exact h.step cb (show (editing cb).step a (.add ok mem parent name t) a' from
          ⟨⟨hmem, h.count_lt hleft⟩, hrun⟩)
      · obtain ⟨n, hn⟩ := hrun
        obtain ⟨⟨r, b⟩, hadd, rfl⟩ := Option.map_eq_some_iff.mp (hn n le_rfl)
        rw [(add_full hfull hadd).2]
        exact h
  | initApp ok n => exact h.step cb (show (editing cb).step a (.initApp ok n) a' from ⟨trivial, hrun⟩)
  | addLink mem src fromSlot dst toSlot =>
      exact h.step cb (show (editing cb).step a (.addLink mem src fromSlot dst toSlot) a' from
        ⟨hmem, hrun⟩)
  | removeLink link => exact h.step cb (show (editing cb).step a (.removeLink link) a' from ⟨hmem, hrun⟩)
  | remove c => exact h.step cb (show (editing cb).step a (.remove c) a' from ⟨trivial, hrun⟩)
  | other data running =>
      exact h.step cb (show (editing cb).step a (.other data running) a' from ⟨trivial, hrun⟩)

/-- **The ids of an application.** When components are only added where an id is left, or where the
table is full and cannot grow, then in every state that is reached ids are unambiguous: a component
is at its id in the table, which is below `nullId`, and no two have the same. The next call of `add`
keeps it so if and only if it meets the condition too. -/
theorem ids_of_reachable
    (h : ((unbounded cb).restrict fun a call => call.HasIdOrFull a).Reachable a) :
    (∀ i c, a.comp i = some c → c.id = i ∧ i < nullId) ∧
      (∀ i j c d, a.comp i = some c → a.comp j = some d → c.id = d.id → i = j) ∧
      ∀ ok, KeepsIds cb a ok ↔ HasIdOrFull a ok := by
  have hinv : a.Inv := h.invariant (fun _ ha => ha) fun a call a' (ha : a.Inv) hstep =>
    ha.step_unbounded hstep.1 hstep.2
  have hid : ∀ i c, a.comp i = some c → c.id = i := fun i c hc => hinv.table.comp_id hc
  refine ⟨fun i c hc => ⟨hid i c hc, ?_⟩, fun i j c d hc hd heq => ?_, fun ok => keepsIds_iff hinv⟩
  · exact (hinv.tree.ids i c.toNode (node_eq_some.mpr ⟨c, hc, rfl⟩)).2
  · rw [← hid i c hc, heq, hid j d hd]

/-! ### An application that runs out of ids -/

/-- The component behind the reference `r` of a chain of `n` components, in which every component
is the only child of the one before. -/
def chainComp (n r : ℕ) : Component where
  type := { kit := 0, id := 0 }
  id := r - 1
  name := if r = 1 then appName else []
  parent := if r = 1 then nullId else r - 2
  children := if r < n then r else nullId

/-- A chain of `n` components, with a table that has grown by eight entries at a time. -/
def chainApp (n : ℕ) : App Unit where
  self := 1
  comps := (List.range ((n + 7) / 8 * 8)).map fun i => if i < n then i + 1 else 0
  objs r := if 0 < r ∧ r ≤ n then some (chainComp n r) else none
  data := ()

variable {n : ℕ}

theorem chainApp_getElem? (n i : ℕ) : (chainApp n).comps[i]? =
    if i < (n + 7) / 8 * 8 then some (if i < n then i + 1 else 0) else none := by
  rw [chainApp, List.getElem?_map]
  split
  · rename_i hi
    rw [List.getElem?_range hi]
    rfl
  · rename_i hi
    rw [List.getElem?_eq_none (by rw [List.length_range]; omega)]
    rfl

theorem chainApp_lookup (n i : ℕ) : (chainApp n).lookup i = if i < n then i + 1 else 0 := by
  rw [lookup, List.getD_eq_getElem?_getD, chainApp_getElem?]
  split
  · rfl
  · rw [if_neg (by omega)]
    rfl

/-- The chain of the application alone is what `initApp` makes. -/
theorem chainApp_inv_one : (chainApp 1).Inv := by
  have hfresh : bootApp.Fresh := ⟨rfl, rfl, ⟨_, rfl, rfl, rfl, rfl, rfl⟩, fun _ => rfl, rfl⟩
  have hrun : bootApp.initApp true 8 = some (true, chainApp 1) := by
    rw [hfresh.initApp_eq (c := { type := { kit := 0, id := 0 } }) rfl (by decide)]
    have hobjs : update bootApp.objs 1 (some (chainComp 1 1)) = (chainApp 1).objs := by
      funext r
      by_cases hr : r = 1
      · subst hr
        rfl
      · have hno : ¬ (0 < r ∧ r ≤ 1) := fun h => hr (Nat.le_antisymm h.2 h.1)
        rw [update_of_ne hr]
        exact (if_neg hr).trans (if_neg hno).symm
    exact congrArg (fun objs => some (true,
      (⟨1, [1, 0, 0, 0, 0, 0, 0, 0], objs, fun _ => none, 0, false, ()⟩ : App Unit))) hobjs
  rcases hfresh.initApp hrun with h | h
  · exact absurd h.comps (by decide)
  · exact h

/-- The table with an entry for one more component. -/
def chainGrown (n : ℕ) : App Unit :=
  { chainApp n with
    comps := (List.range ((n + 8) / 8 * 8)).map fun i => if i < n then i + 1 else 0 }

theorem chainGrown_getElem? (n i : ℕ) : (chainGrown n).comps[i]? =
    if i < (n + 8) / 8 * 8 then some (if i < n then i + 1 else 0) else none := by
  rw [chainGrown, List.getElem?_map]
  split
  · rename_i hi
    rw [List.getElem?_range hi]
    rfl
  · rename_i hi
    rw [List.getElem?_eq_none (by rw [List.length_range]; omega)]
    rfl

theorem chainApp_allocCompId (n : ℕ) : (chainApp n).allocCompId true = (some n, chainGrown n) := by
  have hlen : (chainApp n).comps.length = (n + 7) / 8 * 8 := by simp [chainApp]
  unfold allocCompId
  by_cases hlt : n < (n + 7) / 8 * 8
  · have hfind : (chainApp n).comps.findIdx? (· == 0) = some n := by
      rw [List.findIdx?_eq_some_iff_getElem]
      refine ⟨hlen ▸ hlt, ?_, fun j hj => ?_⟩
      · simp [chainApp]
      · simp [chainApp, hj]
    rw [hfind, chainGrown, show (n + 8) / 8 * 8 = (n + 7) / 8 * 8 by omega]
    rfl
  · have hfind : (chainApp n).comps.findIdx? (· == 0) = none := by
      rw [List.findIdx?_eq_none_iff]
      intro r hr
      obtain ⟨i, hi, rfl⟩ := List.mem_map.mp hr
      rw [List.mem_range] at hi
      rw [if_pos (by omega)]
      rfl
    have hn : (n + 7) / 8 * 8 = n := by omega
    have hgrow : ¬ n ≥ n + 8 := by omega
    simp only [hfind, ensureCompsCapacity, hlen, hn, if_neg hgrow]
    refine congrArg (Prod.mk (some n)) ?_
    have hcomps : (chainApp n).comps ++ List.replicate (n + 8 - n) 0 = (chainGrown n).comps := by
      refine List.ext_getElem? fun i => ?_
      rw [chainGrown_getElem?, List.getElem?_append, chainApp_getElem?, hlen, hn]
      rw [List.getElem?_replicate]
      split_ifs <;> first | rfl | omega
    exact congrArg (fun comps => { chainApp n with comps := comps }) hcomps

theorem chainGrown_set (n : ℕ) : (chainGrown n).comps.set n (n + 1) = (chainApp (n + 1)).comps := by
  refine List.ext_getElem? fun i => ?_
  have hlen : (chainGrown n).comps.length = (n + 8) / 8 * 8 := by simp [chainGrown]
  rw [chainApp_getElem?, List.getElem?_set, chainGrown_getElem?, hlen]
  rcases Nat.lt_trichotomy i n with hi | rfl | hi
  · rw [if_neg (by omega), if_pos hi, if_pos (show i < n + 1 by omega)]
  · rw [if_pos rfl, if_pos (by omega), if_pos (by omega), if_pos (Nat.lt_succ_self i)]
  · rw [if_neg (by omega), if_neg (show ¬ i < n by omega), if_neg (show ¬ i < n + 1 by omega)]

/-- The objects of the next chain: the last component gets a child. -/
theorem chainApp_objs (hn : 0 < n) :
    update (update (chainApp n).objs (n + 1) (some (chainComp (n + 1) (n + 1)))) n
      (some (chainComp (n + 1) n)) = (chainApp (n + 1)).objs := by
  funext r
  by_cases hr : r = n
  · subst hr
    rw [update_self]
    exact (if_pos ⟨hn, Nat.le_succ r⟩).symm
  rw [update_of_ne hr]
  by_cases hr' : r = n + 1
  · subst hr'
    rw [update_self]
    exact (if_pos ⟨Nat.succ_pos n, le_rfl⟩).symm
  rw [update_of_ne hr']
  have hiff : (0 < r ∧ r ≤ n + 1) ↔ (0 < r ∧ r ≤ n) := by
    constructor
    · rintro ⟨h₁, h₂⟩
      exact ⟨h₁, Nat.le_of_lt_succ (lt_of_le_of_ne h₂ hr')⟩
    · rintro ⟨h₁, h₂⟩
      exact ⟨h₁, Nat.le_succ_of_le h₂⟩
  change (if 0 < r ∧ r ≤ n then _ else _) = if 0 < r ∧ r ≤ n + 1 then _ else _
  rw [if_congr hiff rfl rfl]
  split
  · rename_i hle
    have hne : (r < n) ↔ (r < n + 1) :=
      iff_of_true (lt_of_le_of_ne hle.2 hr) (Nat.lt_succ_of_le hle.2)
    simp only [chainComp, hne]
  · rfl

/-- The first child is linked without a walk. -/
theorem linkChild_first {a : App δ} {parent r : Ref} {p c : Component} {id : ℕ} (fuel : ℕ)
    (hp : a.objs parent = some p) (hc : a.objs r = some c) (hne : parent ≠ r)
    (hkids : p.children = nullId) (hid : id ≤ nullId) :
    linkChild fuel a parent id r =
      some (true, (a.put r { c with parent := p.id }).put parent { p with children := id }) := by
  have hshort : toShort id = id := by
    unfold toShort nullId at *
    omega
  have hp' : (a.put r { c with parent := p.id }).objs parent = some p :=
    (put_objs_of_ne hne).trans hp
  simp only [linkChild, hp, Option.bind_eq_bind, Option.bind_some, write_eq hc, hp', hkids,
    if_true, write_eq hp', hshort]

/-- A chain gets one longer. -/
theorem chainApp_step (hn : 0 < n) (hlt : n < nullId) :
    Returns (fun fuel => add quiet fuel (chainApp n) true (n + 1) ((chainApp n).lookup (n - 1)) []
      { kit := 0, id := 0 }) (n + 1, chainApp (n + 1)) := by
  have hparent : (chainApp n).lookup (n - 1) = n := by
    rw [chainApp_lookup, if_pos (by omega)]
    exact Nat.sub_add_cancel hn
  have hobj : (chainApp n).objs n = some (chainComp n n) := if_pos ⟨hn, le_rfl⟩
  have hchildren : (chainComp n n).children = nullId := if_neg (lt_irrefl n)
  have hnull : (chainApp n).lookup nullId = 0 := by
    rw [chainApp_lookup, if_neg (by omega)]
  refine ⟨1, fun fuel hfuel => ?_⟩
  obtain ⟨fuel, rfl⟩ : ∃ f, fuel = f + 1 := ⟨fuel - 1, by omega⟩
  have hwalk : ∀ (a : App Unit) stop, a.lookup nullId = 0 →
      a.siblingWhere stop (fuel + 1) nullId = some nullId := by
    intro a stop h0
    rw [siblingWhere, walk, if_pos (by simpa using h0)]
  -- the new component enters the table
  set c : Component := { type := { kit := 0, id := 0 }, name := List.take (nameLen - 1) [] } with hc
  set b := (chainGrown n).put (n + 1) c with hb
  have hins : b.insert n (n + 1) = some (true, b.withInserted n (n + 1) c) := by
    refine insert_spec (update_self _ _ _) ?_ ?_ hlt.le
    · change (chainGrown n).comps.getD n 0 = 0
      rw [List.getD_eq_getElem?_getD, chainGrown_getElem?, if_pos (by omega), if_neg (lt_irrefl n)]
      rfl
    · change n < (chainGrown n).comps.length
      simp only [chainGrown, List.length_map, List.length_range]
      omega
  -- and becomes the only child of the last one
  have hne : n ≠ n + 1 := (Nat.succ_ne_self n).symm
  have hlast : (b.withInserted n (n + 1) c).objs n = some (chainComp n n) :=
    (update_of_ne hne _ _).trans ((put_objs_of_ne hne).trans hobj)
  have hself : (b.withInserted n (n + 1) c).objs (n + 1) = some (b.inserted n c) :=
    update_self _ _ _
  have hleaf : { b.inserted n c with parent := (chainComp n n).id } =
      chainComp (n + 1) (n + 1) := by
    have h₁ : n + 1 ≠ 1 := by omega
    simp only [inserted, hc, chainComp, if_neg h₁, if_neg (lt_irrefl (n + 1))]
    rfl
  have hgrown : { chainComp n n with children := n } = chainComp (n + 1) n := by
    simp only [chainComp, if_pos (Nat.lt_succ_self n)]
  have hlink := linkChild_first (fuel + 1) hlast hself hne hchildren hlt.le
  rw [hleaf, hgrown] at hlink
  simp only [hparent, add, if_neg hn.ne', hobj, Option.bind_eq_bind, Option.bind_some, hchildren,
    hwalk _ _ hnull, hnull, chainApp_allocCompId, ne_eq, not_true_eq_false, if_false,
    Nat.succ_ne_zero]
  change ((b.insert n (n + 1)).bind _) = _
  rw [hins, Option.bind_some]
  change ((linkChild (fuel + 1) (b.withInserted n (n + 1) c) n n (n + 1)).bind _) = _
  rw [hlink]
  have hobjs : update (update (update (update (chainApp n).objs (n + 1) (some c)) (n + 1)
      (some (b.inserted n c))) (n + 1) (some (chainComp (n + 1) (n + 1)))) n
      (some (chainComp (n + 1) n)) = (chainApp (n + 1)).objs := by
    rw [update_idem, update_idem]
    exact chainApp_objs hn
  exact congrArg₂ (fun objs comps => some (n + 1,
    (⟨1, comps, objs, fun _ => none, 0, false, ()⟩ : App Unit))) hobjs (chainGrown_set n)

theorem chainApp_reachable (hn : 0 < n) (hle : n ≤ nullId) :
    (unbounded quiet).Reachable (chainApp n) := by
  induction n with
  | zero => exact absurd hn (lt_irrefl 0)
  | succ n ih =>
      rcases Nat.eq_zero_or_pos n with rfl | hpos
      · exact System.Reachable.start chainApp_inv_one
      · refine (ih hpos (by omega)).tail (a := .add true (n + 1) (n - 1) [] { kit := 0, id := 0 })
          ⟨.inr (if_neg fun hle => Nat.not_succ_le_self n hle.2), ?_⟩
        obtain ⟨k, hk⟩ := chainApp_step hpos (by omega)
        exact ⟨k, fun fuel hfuel => by simp only [Call.run, hk fuel hfuel, Option.map_some]⟩

/-- The application alone has ids left. -/
theorem keepsIds_chainApp : KeepsIds quiet (chainApp 1) true :=
  ((ids_of_reachable (System.Reachable.start chainApp_inv_one)).2.2 true).mpr
    (.inl ⟨1, by decide, rfl⟩)

/-- After 65534 components have been added to the application, the next one gets `nullId`. -/
theorem not_keepsIds :
    ¬ ∀ a : App Unit, (unbounded quiet).Reachable a → ∀ ok, KeepsIds quiet a ok := by
  intro h
  have hk := h _ (chainApp_reachable (n := nullId) (by decide) le_rfl) true
  obtain ⟨id, hid⟩ := Option.isSome_iff_exists.mp
    ((allocCompId_isSome (a := chainApp nullId)).mpr (.inl rfl : true = true ∨ _))
  obtain ⟨hzero, hbefore, -⟩ := allocCompId_first hid
  rw [chainApp_lookup] at hzero
  have hge : nullId ≤ id := by
    by_contra hlt
    rw [if_pos (by omega)] at hzero
    cases hzero
  have hle : id ≤ nullId := by
    by_contra hlt
    refine hbefore nullId (by omega) ?_
    rw [chainApp_lookup, if_neg (lt_irrefl _)]
  exact (hk.fresh id hid).1 (by omega)

end App

end Sedona
