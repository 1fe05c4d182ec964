import Mathlib.Data.List.Perm.Subperm
import Sedona.Library.Chain

/-!
# Where Following Links Leads

In a store with finitely many nodes, following the links from a key arrives at the end of the list, at
a key that is no node, or at a node where one has been before.

## Main results

* `ends_cases`: one of the three.
* `Circular.step`: a list that comes back to a node has always a next one.
* `Chain.mem_iff`: the nodes of a list are the first one and those behind its nodes.
-/

namespace Intrusive

variable {κ : Type*} {next : κ → Option κ} {nil k j x y : κ} {l : List κ}

/-- Following the links from `k` arrives at `x`. -/
def Leads (next : κ → Option κ) (k x : κ) : Prop := ∃ l, Path next k l x

/-- Following the links from `k` arrives at a key that is neither a node nor the end. -/
def Dangles (nil : κ) (next : κ → Option κ) (k : κ) : Prop :=
  ∃ x, Leads next k x ∧ x ≠ nil ∧ next x = none

/-- Following the links from `k` comes back to a node. -/
def Circular (next : κ → Option κ) (k : κ) : Prop :=
  ∃ x l, Leads next k x ∧ l ≠ [] ∧ Path next x l x

theorem Leads.refl (next : κ → Option κ) (k : κ) : Leads next k k := ⟨[], rfl⟩

theorem Leads.cons (hj : next k = some j) (h : Leads next j x) : Leads next k x := by
  obtain ⟨l, hl⟩ := h
  exact ⟨k :: l, rfl, j, hj, hl⟩

/-- A step behind the key. -/
theorem Leads.cases (h : Leads next k x) : k = x ∨ ∃ j, next k = some j ∧ Leads next j x := by
  obtain ⟨l, hl⟩ := h
  cases l with
  | nil => exact .inl hl
  | cons z l =>
    obtain ⟨rfl, j, hj, hrest⟩ := hl
    exact .inr ⟨j, hj, l, hrest⟩

/-- **A list that comes back to a node** has a next one, which comes back to a node too. -/
theorem Circular.step (h : Circular next k) : ∃ j, next k = some j ∧ Circular next j := by
  obtain ⟨x, l, hleads, hne, hround⟩ := h
  rcases hleads.cases with rfl | ⟨j, hj, hrest⟩
  · cases l with
    | nil => exact absurd rfl hne
    | cons z l =>
      obtain ⟨rfl, j, hj, hl⟩ := hround
      exact ⟨j, hj, k, k :: l, ⟨l, hl⟩, List.cons_ne_nil _ _, rfl, j, hj, hl⟩
  · exact ⟨j, hj, x, l, hrest, hne, hround⟩

/-- A path that visits a node twice comes back to it. -/
theorem circular_of_path (h : Path next k l x) (hdup : ¬l.Nodup) : Circular next k := by
  induction l generalizing k with
  | nil => exact absurd List.nodup_nil hdup
  | cons z l ih =>
    obtain ⟨rfl, j, hj, hrest⟩ := h
    by_cases hmem : k ∈ l
    · obtain ⟨l₁, l₂, rfl⟩ := List.append_of_mem hmem
      obtain ⟨i, hround, hi⟩ := path_append.mp hrest
      obtain ⟨hik, -⟩ := path_cons.mp hi
      rw [hik] at hround
      exact ⟨k, k :: l₁, .refl next k, List.cons_ne_nil _ _, rfl, j, hj, hround⟩
    · obtain ⟨y, l', hleads, hne, hround⟩ := ih hrest fun hnodup =>
        hdup (List.nodup_cons.mpr ⟨hmem, hnodup⟩)
      exact ⟨y, l', hleads.cons hj, hne, hround⟩

/-- As long as a list neither ends nor leads to a missing node, one can go on. -/
theorem path_of_not_ends (hchain : ¬∃ l, Chain nil next k l) (hdangles : ¬Dangles nil next k)
    (hnil : next nil = none) (n : ℕ) : ∃ l x, Path next k l x ∧ l.length = n := by
  induction n generalizing k with
  | zero => exact ⟨[], k, rfl, rfl⟩
  | succ n ih =>
    have hk : k ≠ nil := by
      rintro rfl
      exact hchain ⟨[], chain_nil.mpr rfl⟩
    cases hj : next k with
    | none => exact absurd ⟨k, .refl next k, hk, hj⟩ hdangles
    | some j =>
      have hchain' : ¬∃ l, Chain nil next j l := by
        rintro ⟨l, hl⟩
        exact hchain ⟨k :: l, chain_cons.mpr ⟨rfl, hk, j, hj, hl⟩⟩
      have hdangles' : ¬Dangles nil next j := by
        rintro ⟨x, hleads, hx⟩
        exact hdangles ⟨x, hleads.cons hj, hx⟩
      obtain ⟨l, x, hpath, hlen⟩ := ih hchain' hdangles'
      exact ⟨k :: l, x, ⟨rfl, j, hj, hpath⟩, by rw [List.length_cons, hlen]⟩

/-- The nodes that a path visits are nodes. -/
theorem Path.isSome (h : Path next k l x) (hy : y ∈ l) : ∃ j, next y = some j := by
  induction l generalizing k with
  | nil => cases hy
  | cons z l ih =>
    obtain ⟨rfl, j, hj, hrest⟩ := h
    rcases List.mem_cons.mp hy with rfl | hy
    · exact ⟨j, hj⟩
    · exact ih hrest hy

/-- **Where following links leads** in a finite store. -/
theorem ends_cases {nodes : List κ} (hnodes : ∀ x j, next x = some j → x ∈ nodes)
    (hnil : next nil = none) (k : κ) :
    (∃ l, Chain nil next k l) ∨ Dangles nil next k ∨ Circular next k := by
  by_cases hchain : ∃ l, Chain nil next k l
  · exact .inl hchain
  by_cases hdangles : Dangles nil next k
  · exact .inr (.inl hdangles)
  obtain ⟨l, x, hpath, hlen⟩ := path_of_not_ends hchain hdangles hnil (nodes.length + 1)
  refine .inr (.inr (circular_of_path hpath fun hnodup => ?_))
  -- there are not that many nodes
  have hsub : l ⊆ nodes := by
    intro y hy
    obtain ⟨j, hj⟩ := hpath.isSome hy
    exact hnodes y j hj
  have hle := (hnodup.subperm hsub).length_le
  omega

/-! ### The nodes of a list -/

/-- A node is the first one or comes behind another one. -/
theorem Chain.mem_cases (h : Chain nil next k l) (hx : x ∈ l) :
    x = k ∨ ∃ z ∈ l, next z = some x := by
  induction l generalizing k with
  | nil => cases hx
  | cons z l ih =>
    obtain ⟨rfl, -, j, hj, hrest⟩ := chain_cons.mp h
    rcases List.mem_cons.mp hx with rfl | hx
    · exact .inl rfl
    · rcases ih hrest hx with rfl | ⟨z, hz, hnext⟩
      · exact .inr ⟨k, List.mem_cons_self .., hj⟩
      · exact .inr ⟨z, List.mem_cons_of_mem _ hz, hnext⟩

theorem Chain.head_mem (h : Chain nil next k l) (hk : k ≠ nil) : k ∈ l := by
  cases l with
  | nil => exact absurd (chain_nil.mp h) hk
  | cons z l =>
    obtain ⟨rfl, -⟩ := chain_cons.mp h
    exact List.mem_cons_self ..

/-- What comes behind a node of the list belongs to it. -/
theorem Chain.next_mem (h : Chain nil next k l) (hx : x ∈ l) (hnext : next x = some y)
    (hy : y ≠ nil) : y ∈ l := by
  obtain ⟨l₁, l₂, rfl, hrest⟩ := h.next_split hx hnext
  exact List.mem_append_right _ (List.mem_cons_of_mem _ (hrest.head_mem hy))

end Intrusive
