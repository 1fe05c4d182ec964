import Sedona.Sys.AppRoundTrip
import Sedona.Sox.TreeCommands

/-!
# Names of Siblings

A component's name is to be unique within its parent. `App.add` compares the name as it is
given with those of the siblings and then stores the first seven characters of it; `renameReq`
compares nothing; and `reorderReq` may drop a child from the list that `add` looks through.

## Main results

* `siblingNames_of_reachable`: in every run in which no name that is cut or changed is taken by a
  sibling and no reordering drops a child, the names of siblings are unique, and so are paths.
* `uniqueNames_renameReq_iff`: for renaming, that condition is exact.
* `siblingNames_clash`: a run of four calls that ends with two children of the same name.
-/

open Transition

namespace Sedona.App

open Function Fuel

/-- What may happen to an application: the calls that edit it, the SOX commands that rename and
reorder, and the app file of another one is loaded. -/
inductive Edit where
  | call (c : Call Props)
  | rename (compId : ℕ) (name : Str)
  | reorder (compId : ℕ) (ids : List ℕ)
  | load (saved : App Props)

/-- `loadApp` reads what `saveApp` wrote for a valid application. -/
def Loads (cb : Callbacks Props) (saved a a' : App Props) : Prop :=
  ∃ (kits : List Kit) (init : CompType → (s : Slot) → Value s.type) (mem linkMem : ℕ → Ref)
    (temp : Str) (bytes rest : List (BitVec 8)),
    saved.Inv ∧ saved.UniqueNames ∧ Loadable kits init saved ∧
      Loader kits mem linkMem saved a ∧ ShortNames kits ∧
      Returns (fun fuel => saveApp kits fuel saved) bytes ∧
      Returns (fun fuel =>
        (loadApp cb kits init mem linkMem true temp fuel a).run (bytes ++ rest)) ((0, a'), rest)

/-- All runs of edits of an application. -/
def naming (cb : Callbacks Props) : System (App Props) Edit where
  init := Fresh
  step a e a' :=
    match e with
    | .call c => (editing cb).step a c a'
    | .rename compId name => renameReq cb a compId name = some a'
    | .reorder compId ids => reorderReq cb a compId ids = some a'
    | .load saved => Loads cb saved a a'

/-- The condition on an edit under which names stay unique. -/
def KeepsUnique (a : App Props) : Edit → Prop
  | .call c => a.KeepsNames c
  | .rename compId name => ∀ n, a.node compId = some n → ∀ k m, k ≠ compId → a.node k = some m →
      m.parent = n.parent → m.name ≠ name.take (nameLen - 1)
  | .reorder compId ids => ids = [] ∨ (∃ k ∈ ids, ¬ IsKid a.node compId k) ∨
      a.ListsChildren compId ids
  | .load _ => True

variable {a a' saved : App Props} {cb : Callbacks Props} {compId : ℕ}

/-! ### One edit -/

theorem Loads.spec (h : Loads cb saved a a') : a'.Inv ∧ a'.node = saved.node := by
  obtain ⟨kits, init, mem, linkMem, temp, bytes, rest, hinv, -, ha, hb, hshort, hsave, hload⟩ := h
  obtain ⟨bytes', b, hsave', hsame, hload', hinv'⟩ := hinv.loads cb temp ha hb hshort
  obtain rfl := hsave.unique hsave'
  obtain ⟨⟨-, rfl⟩, -⟩ : ((0, a').1 = (0, b).1 ∧ a' = b) ∧ rest = rest := by
    have hsame := hload.unique (hload' rest)
    exact ⟨⟨rfl, (Prod.mk.inj (Prod.mk.inj hsame).1).2⟩, rfl⟩
  exact ⟨hinv', hsame.nodes⟩

/-- A reordering that is refused, or of nothing, changes no component. -/
theorem reorderReq_fired {ids : List ℕ} (h : a.Inv)
    (hnone : ids = [] ∨ ∃ k ∈ ids, ¬ IsKid a.node compId k)
    (hrun : reorderReq cb a compId ids = some a') : Fired a a' := by
  by_cases h0 : a.lookup compId = 0
  · simp only [reorderReq, h0, if_true, Option.some.injEq] at hrun
    exact hrun ▸ Fired.refl a
  obtain ⟨p, hp, hpid⟩ := h.table.exists_comp h0
  simp only [reorderReq, if_neg h0, show a.objs (a.lookup compId) = some p from hp,
    Option.bind_eq_bind, Option.bind_some] at hrun
  rcases hnone with rfl | ⟨k, hk, hnot⟩
  · simp only [areChildren, List.all_nil, Bool.not_true, Bool.false_eq_true, if_false, thread,
      ne_eq, not_true_eq_false, Option.bind_some, Option.some.injEq] at hrun
    exact hrun ▸ (Fired.fire cb _ a).trans (Fired.fire cb _ _)
  · have hrefused : a.areChildren p.id ids = false := by
      rw [areChildren, List.all_eq_false]
      refine ⟨k, hk, fun hkid => hnot ?_⟩
      cases hd : a.comp k with
      | none => simp [hd] at hkid
      | some d =>
          rw [hd, Option.any_some, beq_iff_eq] at hkid
          exact ⟨d.toNode, node_eq_some.mpr ⟨d, hd, rfl⟩, hkid.trans hpid⟩
    simp only [hrefused, Bool.not_false, if_true, Option.some.injEq] at hrun
    exact hrun ▸ Fired.refl a

/-- Renaming a component that is there. -/
theorem renameReq_node (h : a.Inv) {c : Component} (hc : a.comp compId = some c) {name : Str}
    (hrun : renameReq cb a compId name = some a') :
    a'.node = update a.node compId (some { c.toNode with name := name.take (nameLen - 1) }) := by
  have h0 := h.table.lookup_ne hc
  simp only [renameReq, if_neg h0, write_eq (show a.objs (a.lookup compId) = some c from hc),
    Option.bind_eq_bind, Option.bind_some, Option.some.injEq] at hrun
  rw [← hrun, (Fired.fire cb (.fireTreeChanged (a.lookup compId)) _).sameTree.node]
  exact node_put h.table rfl h0

/-- **Renaming is safe exactly if** no sibling has the name as it will be stored. -/
theorem uniqueNames_renameReq_iff (h : a.Inv) (hu : a.UniqueNames) {name : Str}
    (hrun : renameReq cb a compId name = some a') (hinv : a'.Inv) :
    a'.UniqueNames ↔ KeepsUnique a (.rename compId name) := by
  by_cases h0 : a.lookup compId = 0
  · simp only [renameReq, h0, if_true, Option.some.injEq] at hrun
    subst hrun
    refine iff_of_true hu fun n hn => ?_
    exact absurd hn (by simp [h.table.node_eq_none h0])
  obtain ⟨c, hc, hcid⟩ := h.table.exists_comp h0
  have hnodec : a.node compId = some c.toNode := node_eq_some.mpr ⟨c, hc, rfl⟩
  constructor
  · rintro hu' n hn k m hk hm hpar hname
    obtain rfl := Option.some.inj (hnodec.symm.trans hn)
    have hnode := renameReq_node h hc hrun
    have hk0 : k ≠ 0 ∨ c.parent ≠ nullId := by
      by_contra hroot
      rw [not_or, not_not, not_not] at hroot
      obtain ⟨rfl, hcroot⟩ := hroot
      obtain ⟨q, hq⟩ := h.tree.parent_isSome hnodec (Ne.symm hk)
      rw [hcroot, h.table.node_eq_none h.lookup_nullId] at hq
      exact Option.some_ne_none q hq.symm
    have hroot : m.parent ≠ nullId := by
      rcases hk0 with hk0 | hc0
      · intro hmroot
        obtain ⟨q, hq⟩ := h.tree.parent_isSome hm hk0
        rw [hmroot, h.table.node_eq_none h.lookup_nullId] at hq
        exact Option.some_ne_none q hq.symm
      · rwa [hpar]
    have hmnode : a'.node k = some m := by rw [hnode, update_of_ne hk, hm]
    have hcnode : a'.node compId =
        some { c.toNode with name := name.take (nameLen - 1) } := by rw [hnode, update_self]
    exact hk (hu' k compId m _ hmnode hcnode hpar hroot hname)
  · intro hfree
    rcases renameReq_names hrun hc with hnone | hadds
    · exact absurd hnone h0
    · refine hu.of_adds hinv hadds ?_
      rintro _ _ k m ⟨rfl, rfl⟩ - hm hne hpar
      refine hfree c.toNode hnodec k m ?_ hm hpar
      rintro rfl
      exact hne rfl

/-- What holds of an application after any edits that meet the condition. -/
def Named (a : App Props) : Prop := (a.Fresh ∨ a.Inv) ∧ a.UniqueNames

/-- **One edit** that meets the condition keeps names unique. -/
theorem Named.step (h : a.Named) {e : Edit} (hkeeps : KeepsUnique a e)
    (hstep : (naming cb).step a e a') : a'.Named := by
  obtain ⟨hshape, hu⟩ := h
  cases e with
  | call c =>
      have hshape' : a'.Fresh ∨ a'.Inv := by
        rcases hshape with hfresh | hinv
        · exact hfresh.step cb hstep
        · exact Or.inr (hinv.step cb hstep)
      rcases hshape' with hfresh | hinv
      · exact ⟨Or.inl hfresh, hfresh.uniqueNames⟩
      · exact ⟨Or.inr hinv, hu.step hshape hinv hkeeps hstep⟩
  | rename compId name =>
      have hrun : renameReq cb a compId name = some a' := hstep
      rcases hshape with hfresh | hinv
      · simp only [renameReq, hfresh.lookup, if_true, Option.some.injEq] at hrun
        exact hrun ▸ ⟨Or.inl hfresh, hu⟩
      · obtain ⟨b, hb, hinv'⟩ := hinv.renameReq cb compId name
        obtain rfl := Option.some.inj (hb.symm.trans hrun)
        exact ⟨Or.inr hinv', (uniqueNames_renameReq_iff hinv hu hrun hinv').mpr hkeeps⟩
  | reorder compId ids =>
      have hrun : reorderReq cb a compId ids = some a' := hstep
      rcases hshape with hfresh | hinv
      · simp only [reorderReq, hfresh.lookup, if_true, Option.some.injEq] at hrun
        exact hrun ▸ ⟨Or.inl hfresh, hu⟩
      have hinv' : a'.Inv := by
        by_cases hlist : a.ListsChildren compId ids ∧ a.lookup compId ≠ 0
        · obtain ⟨p, hp, -⟩ := hinv.table.exists_comp hlist.2
          obtain ⟨b, hb, hinv'⟩ := hinv.reorderReq cb hp hlist.1
          obtain rfl := Option.some.inj (hb.symm.trans hrun)
          exact hinv'
        · refine hinv.fired ?_
          by_cases h0 : a.lookup compId = 0
          · simp only [reorderReq, h0, if_true, Option.some.injEq] at hrun
            exact hrun ▸ Fired.refl a
          · rcases hkeeps with hnil | hnot | hall
            · exact reorderReq_fired hinv (Or.inl hnil) hrun
            · exact reorderReq_fired hinv (Or.inr hnot) hrun
            · exact absurd ⟨hall, h0⟩ hlist
      exact ⟨Or.inr hinv', hu.of_sameNames hinv' (reorderReq_names hrun)⟩
  | load saved =>
      obtain ⟨hinv', hnode⟩ := Loads.spec hstep
      obtain ⟨_, _, _, _, _, _, _, -, hsaved, -⟩ := hstep
      refine ⟨Or.inr hinv', fun i j m n hi hj => ?_⟩
      rw [hnode] at hi hj
      exact hsaved i j m n hi hj

theorem named_of_reachable (h : ((naming cb).restrict KeepsUnique).Reachable a) : a.Named := by
  refine h.invariant (fun a ha => ⟨Or.inl ha, ha.uniqueNames⟩) ?_
  rintro a e a' ha ⟨hkeeps, hstep⟩
  exact ha.step hkeeps hstep

/-- **Names of siblings are unique**, and so are paths, in every run of edits that meet the
condition; and the next renaming keeps them so exactly if it meets the condition too. -/
theorem siblingNames_of_reachable (h : ((naming cb).restrict KeepsUnique).Reachable a) :
    a.UniqueNames ∧
      (∀ i j path, HasPath a.node i path → HasPath a.node j path → i = j) ∧
      ∀ compId name a', (naming cb).step a (.rename compId name) a' →
        (a'.UniqueNames ↔ KeepsUnique a (.rename compId name)) := by
  obtain ⟨hshape, hu⟩ := named_of_reachable h
  refine ⟨hu, fun i j path hi hj => hu.path_unique hshape hi hj, ?_⟩
  intro compId name a' hstep
  have hrun : renameReq cb a compId name = some a' := hstep
  rcases hshape with hfresh | hinv
  · simp only [renameReq, hfresh.lookup, if_true, Option.some.injEq] at hrun
    subst hrun
    refine iff_of_true hu fun n hn => ?_
    simp [node, comp, hfresh.lookup, hfresh.null] at hn
  · obtain ⟨b, hb, hinv'⟩ := hinv.renameReq cb compId name
    obtain rfl := Option.some.inj (hb.symm.trans hrun)
    exact uniqueNames_renameReq_iff hinv hu hrun hinv'

/-! ### Two runs -/

/-- Two components are added under the app. -/
def pairCall : ℕ → Call Props
  | 0 => .initApp true 4
  | 1 => .add true 2 0 [0x61] pointType
  | _ => .add true 3 0 [0x62] pointType

/-- The application after the first `n` calls. -/
def pairRun : ℕ → App Props
  | 0 => freshApp
  | n + 1 => ((pairCall n).run quiet (pairRun n) 9).getD freshApp

/-- And after the first of them is renamed. -/
def renamedRun (name : Str) : App Props := (renameReq quiet (pairRun 3) 1 name).getD freshApp

/-- The edits of that run meet the condition if the renaming does. -/
theorem renamedRun_reachable (p : App Props → Edit → Prop) (name : Str)
    (hp : ∀ a c, a.KeepsNames c → p a (.call c)) (hname : p (pairRun 3) (.rename 1 name)) :
    ((naming quiet).restrict p).Reachable (renamedRun name) := by
  have h₀ : ((naming quiet).restrict p).Reachable (pairRun 0) :=
    System.Reachable.start ⟨rfl, rfl, ⟨_, rfl, rfl, rfl, rfl, rfl⟩, fun _ => rfl, rfl⟩
  have hcall : ∀ n, ((naming quiet).restrict p).Reachable (pairRun n) →
      (pairRun n).KeepsNames (pairCall n) → (pairCall n).Valid (pairRun n) →
      (∀ fuel, (pairCall n).run quiet (pairRun n) (fuel + 9) = some (pairRun (n + 1))) →
      ((naming quiet).restrict p).Reachable (pairRun (n + 1)) := by
    intro n hn hkeeps hvalid hrun
    refine hn.tail (a := .call (pairCall n)) ⟨hp _ _ hkeeps, hvalid, 9, fun fuel hfuel => ?_⟩
    obtain ⟨fuel, rfl⟩ := Nat.exists_eq_add_of_le' hfuel
    exact hrun fuel
  have h₁ := hcall 0 h₀ trivial trivial fun _ => rfl
  have h₂ := hcall 1 h₁ (Or.inl (by decide)) ⟨Or.inr rfl, by decide⟩ fun _ => rfl
  have h₃ := hcall 2 h₂ (Or.inl (by decide)) ⟨Or.inr rfl, by decide⟩ fun _ => rfl
  exact h₃.tail (a := .rename 1 name) ⟨hname, rfl⟩

/-- The components before the renaming. -/
theorem node_pairRun {k : ℕ} {m : Node} (h : (pairRun 3).node k = some m) :
    (k = 0 ∧ m.parent = nullId) ∨ (k = 1 ∧ m.parent = 0) ∨ (k = 2 ∧ m.name = [0x62]) := by
  match k with
  | 0 => exact Or.inl ⟨rfl, Option.some.inj h ▸ rfl⟩
  | 1 => exact Or.inr (Or.inl ⟨rfl, Option.some.inj h ▸ rfl⟩)
  | 2 => exact Or.inr (Or.inr ⟨rfl, Option.some.inj h ▸ rfl⟩)
  | 3 => exact nomatch h
  | n + 4 => exact nomatch h

theorem siblingNames_renamedRun : (renamedRun [0x63]).UniqueNames := by
  have hfree : KeepsUnique (pairRun 3) (.rename 1 [0x63]) := by
    intro n hn k m hk hm hpar
    have hn0 : n.parent = 0 := Option.some.inj hn ▸ rfl
    rcases node_pairRun hm with ⟨-, hroot⟩ | ⟨rfl, -⟩ | ⟨-, hname⟩
    · rw [hroot, hn0] at hpar
      exact absurd hpar (by decide)
    · exact absurd rfl hk
    · rw [hname]
      decide
  exact (siblingNames_of_reachable
    (renamedRun_reachable KeepsUnique [0x63] (fun _ _ h => h) hfree)).1

/-- **Two children of one name**: the first of the children "a" and "b" is renamed to "b". -/
theorem siblingNames_clash : ¬ ∀ (cb : Callbacks Props) (a : App Props),
    (naming cb).Reachable a → a.UniqueNames := by
  intro h
  have hreach : (naming quiet).Reachable (renamedRun [0x62]) :=
    (renamedRun_reachable (fun _ _ => True) [0x62] (fun _ _ _ => trivial) trivial).of_restrict
  have heq : (1 : ℕ) = 2 := h quiet _ hreach 1 2 _ _ rfl rfl rfl (by decide) rfl
  exact absurd heq (by decide)

end Sedona.App
