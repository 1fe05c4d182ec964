import Sedona.Library.Chain

/-!
# Threading a List with Repetitions

A loop that goes through a list of nodes and lets each one point to the next, the last one to the
end, threads the list through the nodes if it has no repetitions. Otherwise the link written last
wins: following the links from the first node, one goes on each time behind the last occurrence.

## Main results

* `nodup_visited`: no node is visited twice, whatever the list.
* `visited_of_nodup`: without repetitions the whole list is visited, in its order.
* `chain_visited`: the links that the loop leaves are a chain of the nodes visited.
-/

namespace Intrusive

variable {κ : Type*} [DecidableEq κ]

/-- What stands behind the last occurrence of `k`. -/
def afterLast (k : κ) : List κ → List κ
  | [] => []
  | _ :: l => if k ∈ l then afterLast k l else l

theorem afterLast_suffix (k : κ) (l : List κ) : afterLast k l <:+ l := by
  induction l with
  | nil => exact List.suffix_rfl
  | cons x l ih =>
      rw [afterLast]
      split
      · exact ih.trans (List.suffix_cons x l)
      · exact List.suffix_cons x l

theorem length_afterLast_lt (k x : κ) (l : List κ) :
    (afterLast k (x :: l)).length < (x :: l).length := by
  rw [afterLast, List.length_cons]
  split
  · exact Nat.lt_succ_of_le (afterLast_suffix k l).length_le
  · exact Nat.lt_succ_self _

theorem not_mem_afterLast (k : κ) (l : List κ) : k ∉ afterLast k l := by
  induction l with
  | nil => exact List.not_mem_nil
  | cons x l ih =>
      rw [afterLast]
      split
      · exact ih
      · assumption

/-- What comes later in the list counts. -/
theorem afterLast_append {k : κ} {l : List κ} (l₁ : List κ) (hk : k ∈ l) :
    afterLast k (l₁ ++ l) = afterLast k l := by
  induction l₁ with
  | nil => rfl
  | cons x l₁ ih => rw [List.cons_append, afterLast, if_pos (List.mem_append_right _ hk), ih]

/-- The nodes that one visits from the first one on. -/
def visited : List κ → List κ
  | [] => []
  | x :: l => x :: visited (afterLast x (x :: l))
termination_by l => l.length
decreasing_by exact length_afterLast_lt x x l

@[simp] theorem visited_nil : visited ([] : List κ) = [] := by rw [visited]

theorem visited_cons (x : κ) (l : List κ) :
    visited (x :: l) = x :: visited (afterLast x (x :: l)) := by rw [visited]

/-- The induction along the visit. -/
theorem visited_induction {motive : List κ → Prop} (nil : motive [])
    (cons : ∀ x l, motive (afterLast x (x :: l)) → motive (x :: l)) (l : List κ) : motive l := by
  induction l using visited.induct with
  | case1 => exact nil
  | case2 x l ih => exact cons x l ih

theorem visited_subset (l : List κ) : visited l ⊆ l := by
  induction l using visited_induction with
  | nil => rw [visited_nil]; exact List.Subset.refl _
  | cons x l ih =>
      rw [visited_cons]
      refine List.cons_subset.mpr ⟨List.mem_cons_self, fun k hk => ?_⟩
      exact (afterLast_suffix x (x :: l)).subset (ih hk)

theorem nodup_visited (l : List κ) : (visited l).Nodup := by
  induction l using visited_induction with
  | nil => rw [visited_nil]; exact .nil
  | cons x l ih =>
      rw [visited_cons, List.nodup_cons]
      exact ⟨fun hx => not_mem_afterLast x (x :: l) (visited_subset _ hx), ih⟩

theorem visited_of_nodup {l : List κ} (h : l.Nodup) : visited l = l := by
  induction l with
  | nil => exact visited_nil
  | cons x l ih =>
      obtain ⟨hx, hl⟩ := List.nodup_cons.mp h
      rw [visited_cons, afterLast, if_neg hx, ih hl]

/-- **The links of the loop**: each node points to what stands behind its last occurrence. -/
theorem chain_visited {nil : κ} {next : κ → Option κ} {l : List κ} (hnil : nil ∉ l)
    (h : ∀ k ∈ l, next k = some ((afterLast k l).headD nil)) :
    Chain nil next (l.headD nil) (visited l) := by
  induction l using visited_induction with
  | nil => rw [visited_nil]; exact chain_nil.mpr rfl
  | cons x l ih =>
      have hsuffix := afterLast_suffix x (x :: l)
      rw [visited_cons, List.headD_cons]
      refine chain_cons.mpr ⟨rfl, fun heq => hnil (heq ▸ List.mem_cons_self), _,
        h x List.mem_cons_self, ih (fun hmem => hnil (hsuffix.subset hmem)) fun k hk => ?_⟩
      rw [h k (hsuffix.subset hk)]
      obtain ⟨l₁, hl₁⟩ := hsuffix
      rw [← afterLast_append l₁ hk, hl₁]

end Intrusive
