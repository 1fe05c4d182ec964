import Mathlib.Data.List.Flatten
import Mathlib.Data.List.Forall2
import Mathlib.Data.List.Nodup
import Mathlib.Logic.Relation

/-!
# Visiting a Tree in Postorder

A tree is given by the relation between a node and its children. Some nodes allow their children to
be visited; a visit to a node lists what is visited below it, children before parents.

## Main results

* `visited_blocked`, `visited_node`: how visits are put together.
* `allowed_iff`: what is visited are the nodes all of whose ancestors allow it.
-/

namespace Postorder

open Relation

variable {ι : Type*} {kid : ι → ι → Prop} {allows allows' : ι → Prop} {i j k p : ι}
  {ks l : List ι} {ls : List (List ι)}

/-- Every node has one parent at most, and is not below itself. -/
structure IsForest (kid : ι → ι → Prop) : Prop where
  parent {p p' k : ι} : kid p k → kid p' k → p = p'
  acyclic (k : ι) : ¬ TransGen kid k k

/-- A parent is not below its child. -/
theorem IsForest.not_above (hf : IsForest kid) (hk : kid p k) : ¬ ReflTransGen kid k p :=
  fun h => hf.acyclic k (TransGen.tail' h hk)

/-- The subtrees of two siblings have nothing in common. -/
theorem IsForest.siblings {k' : ι} (hf : IsForest kid) (hk : kid p k) (hk' : kid p k')
    (hj : ReflTransGen kid k j) (hj' : ReflTransGen kid k' j) : k = k' := by
  have hunique : Relator.RightUnique (Function.swap kid) := fun _ _ _ h h' => hf.parent h h'
  have hbelow : ∀ {x y : ι}, kid p x → kid p y → ReflTransGen kid x y → x = y := by
    intro x y hx hy hxy
    obtain rfl | ⟨z, hxz, hzy⟩ := hxy.cases_tail
    · rfl
    · rw [hf.parent hzy hy] at hxz
      exact absurd hxz (hf.not_above hx)
  obtain h | h := ReflTransGen.total_of_right_unique hunique hj.swap hj'.swap
  · exact (hbelow hk' hk h.swap).symm
  · exact hbelow hk hk' h.swap

/-- From a node to a child of a node that allows it. -/
def Step (kid : ι → ι → Prop) (allows : ι → Prop) (p k : ι) : Prop := allows p ∧ kid p k

theorem Step.below (h : ReflTransGen (Step kid allows) i j) : ReflTransGen kid i j :=
  ReflTransGen.mono (fun _ _ hstep => hstep.2) _ _ h

/-- **What is visited** below a node: the nodes all of whose ancestors allow it. -/
theorem allowed_iff (hf : IsForest kid) : ReflTransGen (Step kid allows) i j ↔
    ReflTransGen kid i j ∧ ∀ p, ReflTransGen kid i p → TransGen kid p j → allows p := by
  constructor
  · intro h
    refine ⟨Step.below h, ?_⟩
    induction h with
    | refl => exact fun p hip hpi => absurd (TransGen.trans_right hip hpi) (hf.acyclic i)
    | @tail b c _ hstep ih =>
        intro p hip hpc
        obtain ⟨x, hpx, hxc⟩ := TransGen.tail'_iff.mp hpc
        obtain rfl := hf.parent hxc hstep.2
        obtain rfl | hpx := reflTransGen_iff_eq_or_transGen.mp hpx
        · exact hstep.1
        · exact ih p hip hpx
  · rintro ⟨h, hall⟩
    induction h with
    | refl => exact .refl
    | @tail b c hib hbc ih =>
        refine (ih fun p hip hpb => hall p hip (hpb.tail hbc)).tail ⟨?_, hbc⟩
        exact hall b hib (.single hbc)

/-- A visit to a node. -/
structure Visited (kid : ι → ι → Prop) (allows : ι → Prop) (i : ι) (l : List ι) : Prop where
  nodup : l.Nodup
  mem : ∀ j, j ∈ l ↔ ReflTransGen (Step kid allows) i j
  /-- Children come before their parents. -/
  order : ∀ p k, kid p k → p ∈ l → k ∈ l → List.Sublist [k, p] l

theorem Visited.below (h : Visited kid allows i l) (hj : j ∈ l) : ReflTransGen kid i j :=
  Step.below ((h.mem j).mp hj)

/-- It matters only what the nodes below allow. -/
theorem Visited.congr (h : Visited kid allows i l)
    (heq : ∀ p, ReflTransGen kid i p → (allows' p ↔ allows p)) : Visited kid allows' i l := by
  refine ⟨h.nodup, fun j => (h.mem j).trans ⟨fun hj => ?_, fun hj => ?_⟩, h.order⟩
  · induction hj with
    | refl => exact .refl
    | tail hib hstep ih => exact ih.tail ⟨(heq _ (Step.below hib)).mpr hstep.1, hstep.2⟩
  · induction hj with
    | refl => exact .refl
    | tail hib hstep ih => exact ih.tail ⟨(heq _ (Step.below hib)).mp hstep.1, hstep.2⟩

/-- A node below which nothing is visited. -/
theorem visited_blocked (hf : IsForest kid) (h : ∀ k, kid i k → ¬ allows i) :
    Visited kid allows i [i] := by
  refine ⟨List.nodup_singleton i, fun j => ?_, fun p k hk hp hk' => ?_⟩
  · rw [List.mem_singleton]
    constructor
    · rintro rfl
      exact .refl
    · intro hj
      obtain rfl | ⟨k, hstep, -⟩ := hj.cases_head
      · rfl
      · exact absurd hstep.1 (h k hstep.2)
  · obtain rfl := List.mem_singleton.mp hp
    obtain rfl := List.mem_singleton.mp hk'
    exact absurd (.single hk) (hf.acyclic k)

/-- Visits to some children of a node. -/
structure Siblings (kid : ι → ι → Prop) (allows : ι → Prop) (ks l : List ι) : Prop where
  nodup : l.Nodup
  mem : ∀ j, j ∈ l ↔ ∃ k ∈ ks, ReflTransGen (Step kid allows) k j
  order : ∀ p k, kid p k → p ∈ l → k ∈ l → List.Sublist [k, p] l

theorem visited_siblings (hf : IsForest kid) (hks : ∀ k ∈ ks, kid i k) (hnodup : ks.Nodup)
    (hls : List.Forall₂ (Visited kid allows) ks ls) : Siblings kid allows ks ls.flatten := by
  induction hls with
  | nil =>
      refine ⟨List.nodup_nil, fun j => ⟨fun h => (List.not_mem_nil h).elim, ?_⟩, ?_⟩
      · rintro ⟨k, hk, -⟩
        cases hk
      · intro p k _ hp
        cases hp
  | @cons k l ks ls hk _ ih =>
      rw [List.forall_mem_cons] at hks
      rw [List.nodup_cons] at hnodup
      obtain ⟨hn, hm, ho⟩ := ih hks.2 hnodup.2
      -- nothing is below both the first child and another one
      have hdisj : ∀ {x}, ReflTransGen kid k x → ∀ {k'}, k' ∈ ks → ¬ ReflTransGen kid k' x := by
        intro x hx k' hk' hx'
        rw [hf.siblings hks.1 (hks.2 k' hk') hx hx'] at hnodup
        exact hnodup.1 hk'
      rw [List.flatten_cons]
      refine ⟨List.nodup_append.mpr ⟨hk.nodup, hn, ?_⟩, fun j => ?_, fun p c hc hp hc' => ?_⟩
      · rintro x hx y hy rfl
        obtain ⟨k', hk', hbelow⟩ := (hm x).mp hy
        exact hdisj (hk.below hx) hk' (Step.below hbelow)
      · rw [List.mem_append, hk.mem, hm, List.exists_mem_cons_iff]
      · rw [List.mem_append] at hp hc'
        rcases hp with hp | hp <;> rcases hc' with hc' | hc'
        · exact (hk.order p c hc hp hc').trans (List.sublist_append_left _ _)
        · obtain ⟨k', hk', hbelow⟩ := (hm c).mp hc'
          exact absurd (Step.below hbelow) (hdisj ((hk.below hp).tail hc) hk')
        · obtain ⟨k', hk', hbelow⟩ := (hm p).mp hp
          exact absurd ((Step.below hbelow).tail hc) (hdisj (hk.below hc') hk')
        · exact (ho p c hc hp hc').trans (List.sublist_append_right _ _)

/-- **A node is visited behind its children.** -/
theorem visited_node (hf : IsForest kid) (hi : allows i) (hks : ∀ k, k ∈ ks ↔ kid i k)
    (hnodup : ks.Nodup) (hls : List.Forall₂ (Visited kid allows) ks ls) :
    Visited kid allows i (ls.flatten ++ [i]) := by
  obtain ⟨hn, hm, ho⟩ := visited_siblings hf (fun k hk => (hks k).mp hk) hnodup hls
  have hnot : i ∉ ls.flatten := by
    intro hmem
    obtain ⟨k, hk, hbelow⟩ := (hm i).mp hmem
    exact hf.not_above ((hks k).mp hk) (Step.below hbelow)
  refine ⟨?_, fun j => ?_, fun p c hc hp hc' => ?_⟩
  · refine List.nodup_append.mpr ⟨hn, List.nodup_singleton i, ?_⟩
    rintro x hx y hy rfl
    rw [List.mem_singleton.mp hy] at hx
    exact hnot hx
  · rw [List.mem_append, hm, List.mem_singleton]
    constructor
    · rintro (⟨k, hk, hbelow⟩ | rfl)
      · exact hbelow.head ⟨hi, (hks k).mp hk⟩
      · exact .refl
    · intro hj
      obtain rfl | ⟨k, hstep, hbelow⟩ := hj.cases_head
      · exact .inr rfl
      · exact .inl ⟨k, (hks k).mpr hstep.2, hbelow⟩
  · rw [List.mem_append, List.mem_singleton] at hp hc'
    rcases hp with hp | rfl <;> rcases hc' with hc' | rfl
    · exact (ho p c hc hp hc').trans (List.sublist_append_left _ _)
    · obtain ⟨k, hk, hbelow⟩ := (hm p).mp hp
      exact absurd ((Step.below hbelow).tail hc) (hf.not_above ((hks k).mp hk))
    · exact (List.singleton_sublist.mpr hc').append (List.Sublist.refl [p])
    · exact absurd (.single hc) (hf.acyclic c)

end Postorder
