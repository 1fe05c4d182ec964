import Mathlib.Data.List.Chain
import Mathlib.Data.List.DropRight

/-!
# Sorting with a Comparator

The merge sort of `java.util.Arrays`: short lists are sorted by insertion, longer ones are halved,
and the halves are merged unless they are in order already. The comparator is any function into
the integers. Where it is not consistent, the order that comes out depends on the order that goes
in.

## Main results

* `arraysSort_perm`: the elements are kept.
* `pairwise_arraysSort`: with a consistent comparator the result is sorted.
* `arraysSort_of_isChain`: where no element compares greater than the next one, nothing is moved.
* `exists_perm_pairwise`, `exists_perm_block`: arrangements that respect a strict order.
-/

variable {α : Type}

namespace ComparatorSort

variable (cmp : α → α → ℤ)

/-! ### The sort -/

/-- Move an element to the front of the elements at the end that compare greater. -/
def insertLast (l : List α) (x : α) : List α :=
  l.rdropWhile (fun y => 0 < cmp y x) ++ x :: l.rtakeWhile (fun y => 0 < cmp y x)

def insertionSort (l : List α) : List α := l.foldl (insertLast cmp) []

/-- Two sorted halves, merged if they are not in order. -/
def mergeHalves (a b : List α) : List α :=
  match a.getLast?, b.head? with
  | some x, some y => if cmp x y ≤ 0 then a ++ b else a.merge b fun x y => cmp x y ≤ 0
  | _, _ => a ++ b

/-- `Arrays.sort`. -/
def arraysSort (l : List α) : List α :=
  if l.length < 7 then insertionSort cmp l
  else
    mergeHalves cmp (arraysSort (l.take (l.length / 2))) (arraysSort (l.drop (l.length / 2)))
termination_by l.length
decreasing_by
  · rw [List.length_take]
    omega
  · rw [List.length_drop]
    omega

variable {cmp} {l : List α}

theorem arraysSort_of_short (h : l.length < 7) : arraysSort cmp l = insertionSort cmp l := by
  rw [arraysSort, if_pos h]

/-- What holds of insertion and of the halves holds of the sort. -/
theorem arraysSort_induction {motive : List α → List α → Prop}
    (short : ∀ l, motive l (insertionSort cmp l))
    (halves : ∀ l a b n, motive (l.take n) a → motive (l.drop n) b →
      motive l (mergeHalves cmp a b)) (l : List α) : motive l (arraysSort cmp l) := by
  induction l using arraysSort.induct with
  | case1 l h =>
      rw [arraysSort, if_pos h]
      exact short l
  | case2 l h htake hdrop =>
      rw [arraysSort, if_neg h]
      exact halves l _ _ _ htake hdrop

/-! ### The elements are kept -/

theorem insertLast_perm (l : List α) (x : α) : (insertLast cmp l x).Perm (l ++ [x]) := by
  refine List.perm_middle.trans ?_
  rw [List.rdropWhile_append_rtakeWhile]
  exact (List.perm_append_singleton x l).symm

theorem insertionSort_perm (l : List α) : (insertionSort cmp l).Perm l := by
  have hfold : ∀ l acc : List α, (l.foldl (insertLast cmp) acc).Perm (acc ++ l) := by
    intro l
    induction l with
    | nil => exact fun acc => by simp
    | cons x l ih =>
        intro acc
        refine (ih _).trans (((insertLast_perm acc x).append_right l).trans ?_)
        rw [List.append_assoc, List.singleton_append]
  exact hfold l []

theorem mergeHalves_perm (a b : List α) : (mergeHalves cmp a b).Perm (a ++ b) := by
  unfold mergeHalves
  split
  · split
    · exact .refl _
    · exact List.merge_perm_append _
  · exact .refl _

theorem arraysSort_perm (l : List α) : (arraysSort cmp l).Perm l := by
  refine arraysSort_induction (motive := fun l r => r.Perm l) insertionSort_perm
    (fun l a b n ha hb => ?_) l
  refine (mergeHalves_perm a b).trans ((ha.append hb).trans ?_)
  rw [List.take_append_drop]

/-! ### A consistent comparator -/

variable (cmp) in
/-- On the elements that satisfy `P`, not comparing greater is a total preorder. -/
structure Consistent (P : α → Prop) : Prop where
  total {a b : α} (ha : P a) (hb : P b) (h : ¬ cmp a b ≤ 0) : cmp b a ≤ 0
  trans {a b c : α} (ha : P a) (hb : P b) (hc : P c) (hab : cmp a b ≤ 0) (hbc : cmp b c ≤ 0) :
    cmp a c ≤ 0

variable {P : α → Prop}

/-- Everything in front of the last element of a sorted list, and this element itself, does not
compare greater than what the last element does not compare greater than. -/
theorem le_of_getLast (hc : Consistent cmp P) {a : List α} (ha : ∀ x ∈ a, P x)
    (hsorted : a.Pairwise (cmp · · ≤ 0)) {x y z : α} (hlast : a.getLast? = some x) (hy : P y)
    (hxy : cmp x y ≤ 0) (hz : z ∈ a) : cmp z y ≤ 0 := by
  obtain ⟨init, rfl⟩ := List.getLast?_eq_some_iff.mp hlast
  rcases List.mem_append.mp hz with hz' | hz'
  · have hzx : cmp z x ≤ 0 :=
      (List.pairwise_append.mp hsorted).2.2 z hz' x (List.mem_singleton_self x)
    exact hc.trans (ha z hz) (ha x (by simp)) hy hzx hxy
  · rw [List.mem_singleton.mp hz']
    exact hxy

theorem pairwise_insertLast (hc : Consistent cmp P) {l : List α} {x : α} (hl : ∀ y ∈ l, P y)
    (hx : P x) (h : l.Pairwise (cmp · · ≤ 0)) : (insertLast cmp l x).Pairwise (cmp · · ≤ 0) := by
  have hsplit : l.rdropWhile (fun y => 0 < cmp y x) ++ l.rtakeWhile (fun y => 0 < cmp y x) = l :=
    List.rdropWhile_append_rtakeWhile
  obtain ⟨hfront, hback, hbetween⟩ := List.pairwise_append.mp (hsplit.symm ▸ h)
  have hmem : ∀ y ∈ l.rdropWhile (fun y => 0 < cmp y x), y ∈ l :=
    fun y hy => (List.rdropWhile_prefix _ _).subset hy
  have hfrontx : ∀ y ∈ l.rdropWhile (fun y => 0 < cmp y x), cmp y x ≤ 0 := by
    intro y hy
    have hne := List.ne_nil_of_mem hy
    refine le_of_getLast hc (fun z hz => hl z (hmem z hz)) hfront
      (List.getLast?_eq_some_getLast hne) hx ?_ hy
    simpa using List.rdropWhile_last_not _ _ hne
  have hbackx : ∀ y ∈ l.rtakeWhile (fun y => 0 < cmp y x), cmp x y ≤ 0 := by
    intro y hy
    have hgt : 0 < cmp y x := by simpa using List.mem_rtakeWhile_imp hy
    exact hc.total (hl y ((List.rtakeWhile_suffix _ _).subset hy)) hx (by omega)
  refine List.pairwise_append.mpr ⟨hfront, List.pairwise_cons.mpr ⟨hbackx, hback⟩, ?_⟩
  intro y hy z hz
  rcases List.mem_cons.mp hz with rfl | hz
  · exact hfrontx y hy
  · exact hbetween y hy z hz

theorem pairwise_insertionSort (hc : Consistent cmp P) (hl : ∀ y ∈ l, P y) :
    (insertionSort cmp l).Pairwise (cmp · · ≤ 0) := by
  have hfold : ∀ l acc : List α, (∀ y ∈ acc ++ l, P y) → acc.Pairwise (cmp · · ≤ 0) →
      (l.foldl (insertLast cmp) acc).Pairwise (cmp · · ≤ 0) := by
    intro l
    induction l with
    | nil => exact fun acc _ h => h
    | cons x l ih =>
        intro acc hP h
        refine ih _ (fun y hy => hP y ?_) (pairwise_insertLast hc
          (fun y hy => hP y (List.mem_append_left _ hy)) (hP x (by simp)) h)
        rcases List.mem_append.mp hy with hy | hy
        · have := (insertLast_perm acc x).mem_iff.mp hy
          simp only [List.mem_append, List.mem_singleton] at this
          rcases this with hy | rfl
          · exact List.mem_append_left _ hy
          · simp
        · exact List.mem_append_right _ (List.mem_cons_of_mem _ hy)
  exact hfold l [] hl List.Pairwise.nil

theorem pairwise_merge (hc : Consistent cmp P) {a b : List α} (ha : ∀ x ∈ a, P x)
    (hb : ∀ x ∈ b, P x) (hsa : a.Pairwise (cmp · · ≤ 0)) (hsb : b.Pairwise (cmp · · ≤ 0)) :
    (a.merge b fun x y => cmp x y ≤ 0).Pairwise (cmp · · ≤ 0) := by
  induction a generalizing b with
  | nil => simpa using hsb
  | cons x a iha =>
    induction b with
    | nil => simpa using hsa
    | cons y b ihb =>
      have hx := ha x List.mem_cons_self
      have hy := hb y List.mem_cons_self
      by_cases hxy : cmp x y ≤ 0
      · rw [List.cons_merge_cons_pos _ _ _ (by simpa using hxy)]
        refine List.pairwise_cons.mpr ⟨fun z hz => ?_, iha
          (fun z hz => ha z (List.mem_cons_of_mem _ hz)) hb hsa.tail hsb⟩
        rcases List.mem_merge.mp hz with hz | hz
        · exact List.rel_of_pairwise_cons hsa hz
        · rcases List.mem_cons.mp hz with rfl | hz'
          · exact hxy
          · exact hc.trans hx hy (hb z hz) hxy (List.rel_of_pairwise_cons hsb hz')
      · rw [List.cons_merge_cons_neg _ _ _ (by simpa using hxy)]
        have hyx := hc.total hx hy hxy
        refine List.pairwise_cons.mpr ⟨fun z hz => ?_, ihb
          (fun z hz => hb z (List.mem_cons_of_mem _ hz)) hsb.tail⟩
        rcases List.mem_merge.mp hz with hz | hz
        · rcases List.mem_cons.mp hz with rfl | hz'
          · exact hyx
          · exact hc.trans hy hx (ha z hz) hyx (List.rel_of_pairwise_cons hsa hz')
        · exact List.rel_of_pairwise_cons hsb hz

theorem pairwise_mergeHalves (hc : Consistent cmp P) {a b : List α} (ha : ∀ x ∈ a, P x)
    (hb : ∀ x ∈ b, P x) (hsa : a.Pairwise (cmp · · ≤ 0)) (hsb : b.Pairwise (cmp · · ≤ 0)) :
    (mergeHalves cmp a b).Pairwise (cmp · · ≤ 0) := by
  unfold mergeHalves
  split
  case h_1 x y hx hy =>
    split
    case isTrue hxy =>
      obtain ⟨tail, rfl⟩ := List.head?_eq_some_iff.mp hy
      refine List.pairwise_append.mpr ⟨hsa, hsb, fun z hz w hw => ?_⟩
      have hzy := le_of_getLast hc ha hsa hx (hb y List.mem_cons_self) hxy hz
      rcases List.mem_cons.mp hw with rfl | hw'
      · exact hzy
      · exact hc.trans (ha z hz) (hb y List.mem_cons_self) (hb w hw) hzy
          (List.rel_of_pairwise_cons hsb hw')
    case isFalse => exact pairwise_merge hc ha hb hsa hsb
  case h_2 hnone =>
    refine List.pairwise_append.mpr ⟨hsa, hsb, fun z hz w hw => ?_⟩
    exact absurd (List.head?_eq_some_head (List.ne_nil_of_mem hw))
      (hnone _ _ (List.getLast?_eq_some_getLast (List.ne_nil_of_mem hz)))

/-- **A consistent comparator sorts.** -/
theorem pairwise_arraysSort (hc : Consistent cmp P) (hl : ∀ x ∈ l, P x) :
    (arraysSort cmp l).Pairwise (cmp · · ≤ 0) := by
  have hboth : (∀ x ∈ l, P x) → (∀ x ∈ arraysSort cmp l, P x) ∧
      (arraysSort cmp l).Pairwise (cmp · · ≤ 0) := by
    refine arraysSort_induction (motive := fun l r => (∀ x ∈ l, P x) →
      (∀ x ∈ r, P x) ∧ r.Pairwise (cmp · · ≤ 0)) (fun l hl => ?_) (fun l a b n ha hb hl => ?_) l
    · exact ⟨fun x hx => hl x ((insertionSort_perm l).mem_iff.mp hx), pairwise_insertionSort hc hl⟩
    · obtain ⟨hPa, hsa⟩ := ha fun x hx => hl x (List.mem_of_mem_take hx)
      obtain ⟨hPb, hsb⟩ := hb fun x hx => hl x (List.mem_of_mem_drop hx)
      refine ⟨fun x hx => ?_, pairwise_mergeHalves hc hPa hPb hsa hsb⟩
      exact (List.mem_append.mp ((mergeHalves_perm a b).mem_iff.mp hx)).elim (hPa x) (hPb x)
  exact (hboth hl).2

/-! ### Lists that are left as they are -/

theorem insertionSort_of_isChain (h : l.IsChain (cmp · · ≤ 0)) : insertionSort cmp l = l := by
  have hfold : ∀ l acc : List α, (acc ++ l).IsChain (cmp · · ≤ 0) →
      l.foldl (insertLast cmp) acc = acc ++ l := by
    intro l
    induction l with
    | nil => exact fun acc _ => (List.append_nil acc).symm
    | cons x l ih =>
        intro acc h
        have hlast : ∀ y ∈ acc.getLast?, cmp y x ≤ 0 := fun y hy =>
          (List.isChain_append.mp h).2.2 y hy x rfl
        have hstay : insertLast cmp acc x = acc ++ [x] := by
          have hnot : ∀ hne : acc ≠ [], ¬ decide (0 < cmp (acc.getLast hne) x) := by
            intro hne
            have := hlast _ (List.getLast?_eq_some_getLast hne)
            simpa using this
          rw [insertLast, List.rdropWhile_eq_self_iff.mpr hnot,
            List.rtakeWhile_eq_nil_iff.mpr hnot]
        rw [List.foldl_cons, hstay]
        rw [ih _ (by simpa using h), List.append_assoc, List.singleton_append]
  exact hfold l [] h

/-- **Where no element compares greater than the next one, nothing is moved.** -/
theorem arraysSort_of_isChain (h : l.IsChain (cmp · · ≤ 0)) : arraysSort cmp l = l := by
  refine arraysSort_induction (motive := fun l r => l.IsChain (cmp · · ≤ 0) → r = l)
    (fun l h => insertionSort_of_isChain h) (fun l a b n ha hb h => ?_) l h
  obtain rfl := ha (h.take n)
  obtain rfl := hb (h.drop n)
  have hends := (List.isChain_append.mp (l.take_append_drop n ▸ h)).2.2
  unfold mergeHalves
  split
  case h_1 x y hx hy => rw [if_pos (hends x hx y hy), List.take_append_drop]
  case h_2 => exact List.take_append_drop ..

/-! ### Arrangements -/

variable {gt : α → α → Prop}

/-- The elements of a list can be put in an order that respects a strict order. -/
theorem exists_perm_pairwise (hirrefl : ∀ a, ¬ gt a a)
    (htrans : ∀ a b c, gt a b → gt b c → gt a c) (l : List α) :
    ∃ r : List α, r.Perm l ∧ r.Pairwise (¬ gt · ·) := by
  classical
  induction l with
  | nil => exact ⟨[], .refl _, .nil⟩
  | cons x l ih =>
      obtain ⟨r, hperm, hr⟩ := ih
      -- in front of the first element that has to come later
      have hsplit := List.takeWhile_append_dropWhile (p := fun y => decide (¬ gt y x)) (l := r)
      obtain ⟨hfront, hback, hbetween⟩ := List.pairwise_append.mp (hsplit.symm ▸ hr)
      refine ⟨r.takeWhile (fun y => ¬ gt y x) ++ x :: r.dropWhile (fun y => ¬ gt y x), ?_, ?_⟩
      · refine List.perm_middle.trans (List.Perm.cons x ?_)
        rw [hsplit]
        exact hperm
      · have hx : ∀ z ∈ r.dropWhile (fun y => ¬ gt y x), ¬ gt x z := by
          intro z hz hxz
          cases hdrop : r.dropWhile (fun y => ¬ gt y x) with
          | nil => exact absurd (hdrop ▸ hz) List.not_mem_nil
          | cons w rest =>
              have hw : gt w x := by
                have := List.head?_dropWhile_not (fun y => decide (¬ gt y x)) r
                rw [hdrop] at this
                simpa using this
              rw [hdrop] at hz hback
              have hwz := htrans w x z hw hxz
              rcases List.mem_cons.mp hz with rfl | hz
              · exact hirrefl _ hwz
              · exact List.rel_of_pairwise_cons hback hz hwz
        refine List.pairwise_append.mpr ⟨hfront, List.pairwise_cons.mpr ⟨hx, hback⟩, ?_⟩
        intro y hy z hz
        rcases List.mem_cons.mp hz with rfl | hz
        · simpa using List.mem_takeWhile_imp hy
        · exact hbetween y hy z hz

/-- A block whose last element need not come after its first one can stand among the others, with
no neighbours in the wrong order. -/
theorem exists_perm_block (hirrefl : ∀ a, ¬ gt a a)
    (htrans : ∀ a b c, gt a b → gt b c → gt a c) (block l : List α) {x y : α}
    (hfirst : block.head? = some x) (hlast : block.getLast? = some y)
    (hblock : block.IsChain (¬ gt · ·)) (hends : ¬ gt y x) :
    ∃ p q : List α, (p ++ block ++ q).Perm (block ++ l) ∧
      (p ++ block ++ q).IsChain (¬ gt · ·) := by
  classical
  obtain ⟨p, hp, hpairp⟩ := exists_perm_pairwise hirrefl htrans (l.filter fun z => ¬ gt z x)
  obtain ⟨q, hq, hpairq⟩ := exists_perm_pairwise hirrefl htrans (l.filter fun z => gt z x)
  refine ⟨p, q, ?_, ?_⟩
  · have hpq : (p ++ q).Perm l := by
      refine (hp.append hq).trans (List.perm_append_comm.trans ?_)
      simpa using List.filter_append_perm (fun z => decide (gt z x)) l
    rw [List.append_assoc]
    refine (List.perm_append_comm_assoc p block q).trans (hpq.append_left block)
  · rw [List.append_assoc]
    refine List.isChain_append.mpr ⟨hpairp.isChain, List.isChain_append.mpr ⟨hblock,
      hpairq.isChain, fun t ht z hz => ?_⟩, fun z hz w hw => ?_⟩
    · obtain rfl : y = t := Option.some.inj (hlast.symm.trans ht)
      have hzx : gt z x := by
        simpa using (List.mem_filter.mp (hq.mem_iff.mp (List.mem_of_mem_head? hz))).2
      exact fun hyz => hends (htrans y z x hyz hzx)
    · have hwx : w = x := by
        rw [List.head?_append, hfirst] at hw
        exact (Option.some.inj hw).symm
      rw [hwx]
      simpa using (List.mem_filter.mp (hp.mem_iff.mp (List.mem_of_mem_getLast? hz))).2

end ComparatorSort
