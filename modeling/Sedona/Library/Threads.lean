import Sedona.Library.ChainEnds

/-!
# Trees from Pointers

Nodes that point to their parent, to their first child and to their next sibling. The list of the
children of a node is what one gets by following the siblings from the first child. These lists are
those of a tree if the pointers agree with each other and lead everywhere.

## Main results

* `threaded_iff_tree`: when the lists are those of a tree.
-/

namespace Intrusive

variable {κ : Type*} (nil root : κ) (first next parent : κ → Option κ)

/-- A pointer of the node `y` names `x`: it is the first child, or the next sibling of a node other
than the root. -/
inductive Names (y x : κ) : Prop
  | first (h : first y = some x)
  | next (hy : y ≠ root) (h : next y = some x)

/-- The pointers lead from the root to the node. -/
inductive Led : κ → Prop
  | root : Led root
  | step {y x : κ} (h : Names root first next y x) (hy : Led y) : Led x

/-- The parents lead from the node to the root. -/
inductive Rooted : κ → Prop
  | root : Rooted root
  | step {x p : κ} (h : parent x = some p) (hp : Rooted p) : Rooted x

/-- The pointers agree: none names the root, which has no parent, a node is the parent of its first
child, the next sibling has the same parent, and the pointers lead to every node. -/
structure Threaded : Prop where
  root_free : ∀ y, ¬Names root first next y root
  root_top : ∀ p, parent root = some p → p = nil
  parent_first : ∀ y x, first y = some x → x ≠ nil → parent x = some y
  parent_next : ∀ y x, y ≠ root → next y = some x → x ≠ nil → parent x = parent y
  led : ∀ x, (parent x).isSome = true → Led root first next x

/-- The lists are those of a tree: every node but the root is in exactly one, that of its parent, and
the parents lead to the root. -/
structure TreeLists (lists : κ → List κ) : Prop where
  mem : ∀ x p, x ≠ root → parent x = some p → ∀ q, x ∈ lists q ↔ q = p
  root_free : ∀ q, root ∉ lists q
  root_top : ∀ p, parent root = some p → p = nil
  rooted : ∀ x, (parent x).isSome = true → Rooted root parent x

/-- What the lists of the children are. -/
structure Listed (lists : κ → List κ) : Prop where
  chain : ∀ y k, first y = some k → Chain nil next k (lists y)
  empty : ∀ y, first y = none → lists y = []
  parent_first : ∀ y, (first y).isSome = (parent y).isSome
  parent_next : ∀ y, (next y).isSome = (parent y).isSome
  nil_free : parent nil = none
  root_ne : root ≠ nil

variable {nil root first next parent} {lists : κ → List κ} {x y k p q : κ} {l : List κ}

/-! ### Lists -/

section Listed

variable (hl : Listed nil root first next parent lists)

include hl

/-- A list that is not empty has a first node. -/
theorem Listed.of_mem (hx : x ∈ lists y) : ∃ k, first y = some k ∧ Chain nil next k (lists y) := by
  cases hk : first y with
  | none =>
    rw [hl.empty y hk] at hx
    cases hx
  | some k => exact ⟨k, rfl, hl.chain y k hk⟩

theorem Listed.first_mem (hx : first y = some x) (hne : x ≠ nil) : x ∈ lists y :=
  (hl.chain y x hx).head_mem hne

theorem Listed.next_mem (hy : y ∈ lists q) (hx : next y = some x) (hne : x ≠ nil) : x ∈ lists q := by
  obtain ⟨k, -, hchain⟩ := hl.of_mem hy
  exact hchain.next_mem hy hx hne

/-- What is in a list is a node. -/
theorem Listed.node_of_mem (hx : x ∈ lists y) : ∃ p, parent x = some p := by
  obtain ⟨k, -, hchain⟩ := hl.of_mem hx
  obtain ⟨j, hj⟩ := hchain.next_isSome hx
  rw [← Option.isSome_iff_exists, ← hl.parent_next, hj]
  rfl

theorem Listed.node_of_first (hx : first y = some x) : ∃ p, parent y = some p := by
  rw [← Option.isSome_iff_exists, ← hl.parent_first, hx]
  rfl

theorem Listed.node_of_next (hx : next y = some x) : ∃ p, parent y = some p := by
  rw [← Option.isSome_iff_exists, ← hl.parent_next, hx]
  rfl

theorem Listed.ne_nil (hx : parent x = some p) : x ≠ nil := by
  rintro rfl
  rw [hl.nil_free] at hx
  cases hx

/-- What the pointers lead to is in a list. -/
theorem Listed.exists_list (hled : Led root first next x) :
    ∀ p, parent x = some p → x ≠ root → ∃ q, x ∈ lists q := by
  induction hled with
  | root => exact fun _ _ hne => absurd rfl hne
  | @step y x hnames _ ih =>
    intro p hp _
    cases hnames with
    | first hx => exact ⟨y, hl.first_mem hx (hl.ne_nil hp)⟩
    | next hy hx =>
      obtain ⟨p', hp'⟩ := hl.node_of_next hx
      obtain ⟨q, hq⟩ := ih p' hp' hy
      exact ⟨q, hl.next_mem hq hx (hl.ne_nil hp)⟩

end Listed

/-! ### Agreeing pointers give a tree -/

section Threaded

variable (h : Threaded nil root first next parent)

include h

/-- The nodes of a list have the parent of the first one, and are not the root. -/
theorem Threaded.of_chain (hchain : Chain nil next k l) (hk : k ≠ nil → parent k = some q)
    (hroot : k ≠ root) : ∀ x ∈ l, x ≠ root ∧ parent x = some q := by
  induction l generalizing k with
  | nil => exact fun x hx => absurd hx List.not_mem_nil
  | cons z l ih =>
    obtain ⟨rfl, hne, j, hj, hrest⟩ := chain_cons.mp hchain
    have hj' : j ≠ nil → parent j = some q := fun hjne =>
      (h.parent_next k j hroot hj hjne).trans (hk hne)
    have hjroot : j ≠ root := by
      rintro rfl
      exact h.root_free k (.next hroot hj)
    exact List.forall_mem_cons.mpr ⟨⟨hroot, hk hne⟩, ih hrest hj' hjroot⟩

variable (hl : Listed nil root first next parent lists)

include hl

theorem Threaded.of_mem (hx : x ∈ lists q) : x ≠ root ∧ parent x = some q := by
  obtain ⟨k, hk, hchain⟩ := hl.of_mem hx
  refine h.of_chain hchain (h.parent_first q k hk) ?_ x hx
  rintro rfl
  exact h.root_free q (.first hk)

theorem Threaded.rooted (hled : Led root first next x) :
    ∀ p, parent x = some p → Rooted root parent x := by
  induction hled with
  | root => exact fun _ _ => .root
  | @step y x hnames _ ih =>
    intro p hp
    cases hnames with
    | first hx =>
      obtain ⟨p', hp'⟩ := hl.node_of_first hx
      exact .step (h.parent_first y x hx (hl.ne_nil hp)) (ih p' hp')
    | next hy hx =>
      obtain ⟨p', hp'⟩ := hl.node_of_next hx
      cases ih p' hp' with
      | root => exact absurd rfl hy
      | step hpar hroot =>
        exact .step ((h.parent_next y x hy hx (hl.ne_nil hp)).trans hpar) hroot

theorem Threaded.treeLists : TreeLists nil root parent lists where
  mem x p hx hp q := by
    obtain ⟨q', hq'⟩ := hl.exists_list (h.led x (Option.isSome_iff_exists.mpr ⟨p, hp⟩)) p hp hx
    have hunique {q : κ} (hq : x ∈ lists q) : q = p :=
      Option.some.inj ((h.of_mem hl hq).2.symm.trans hp)
    constructor
    · exact hunique
    · rintro rfl
      rwa [hunique hq'] at hq'
  root_free q hq := (h.of_mem hl hq).1 rfl
  root_top := h.root_top
  rooted x hx := by
    obtain ⟨p, hp⟩ := Option.isSome_iff_exists.mp hx
    exact h.rooted hl (h.led x hx) p hp

end Threaded

/-! ### The pointers of a tree agree -/

/-- Along a list, the pointers lead from its first node to all of them. -/
theorem led_chain (hchain : Chain nil next k l) (hk : Led root first next k) (hroot : root ∉ l) :
    ∀ x ∈ l, Led root first next x := by
  induction l generalizing k with
  | nil => exact fun x hx => absurd hx List.not_mem_nil
  | cons z l ih =>
    obtain ⟨rfl, -, j, hj, hrest⟩ := chain_cons.mp hchain
    rw [List.mem_cons, not_or] at hroot
    exact List.forall_mem_cons.mpr
      ⟨hk, ih hrest (.step (.next (Ne.symm hroot.1) hj) hk) hroot.2⟩

theorem TreeLists.mem_parent (h : TreeLists nil root parent lists) (hx : x ≠ root)
    (hp : parent x = some p) : x ∈ lists p :=
  (h.mem x p hx hp p).mpr rfl

section TreeLists

variable (h : TreeLists nil root parent lists) (hl : Listed nil root first next parent lists)

include h hl

/-- A list is that of the parent of its nodes. -/
theorem TreeLists.parent_eq (hx : x ∈ lists q) : parent x = some q := by
  obtain ⟨p, hp⟩ := hl.node_of_mem hx
  have hne : x ≠ root := by
    rintro rfl
    exact h.root_free q hx
  rw [hp, (h.mem x p hne hp q).mp hx]

theorem TreeLists.led (hx : Rooted root parent x) :
    (parent x).isSome = true → Led root first next x := by
  induction hx with
  | root => exact fun _ => .root
  | @step x p hp _ ih =>
    intro _
    by_cases hne : x = root
    · rw [hne]
      exact .root
    · have hmem := h.mem_parent hne hp
      obtain ⟨k, hk, hchain⟩ := hl.of_mem hmem
      obtain ⟨p', hp'⟩ := hl.node_of_first hk
      have hled := ih (Option.isSome_iff_exists.mpr ⟨p', hp'⟩)
      exact led_chain hchain (.step (.first hk) hled) (h.root_free p) x hmem

theorem TreeLists.threaded : Threaded nil root first next parent where
  root_free y hy := by
    cases hy with
    | first hx => exact h.root_free y (hl.first_mem hx hl.root_ne)
    | next hne hx =>
      obtain ⟨p, hp⟩ := hl.node_of_next hx
      exact h.root_free p (hl.next_mem (h.mem_parent hne hp) hx hl.root_ne)
  root_top := h.root_top
  parent_first y x hx hne := h.parent_eq hl (hl.first_mem hx hne)
  parent_next y x hy hx hne := by
    obtain ⟨p, hp⟩ := hl.node_of_next hx
    rw [hp]
    exact h.parent_eq hl (hl.next_mem (h.mem_parent hy hp) hx hne)
  led x hx := h.led hl (h.rooted x hx) hx

end TreeLists

/-- **When the lists are those of a tree.** -/
theorem threaded_iff_tree (hl : Listed nil root first next parent lists) :
    Threaded nil root first next parent ↔ TreeLists nil root parent lists :=
  ⟨fun h => h.treeLists hl, fun h => h.threaded hl⟩

end Intrusive
