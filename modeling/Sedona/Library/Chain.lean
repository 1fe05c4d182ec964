import Mathlib.Data.List.Nodup

/-!
# Intrusive Linked Lists

A singly linked list threaded through the nodes of a store: `next x` is the link field of
the node `x`, `none` when there is no such node, and a distinguished key `nil` ends the
list. `Path next k l m` says that following the links from `k` visits exactly `l` and then
arrives at `m`; `Chain` is a path that ends at `nil`.

## Main results

* `Chain.unique`, `Chain.nodup`: a chain is determined by its first key and visits no node
  twice.
* `Chain.congr`, `Chain.push`, `Chain.concat`, `Chain.unlink`: what writing link fields does
  to a chain.
* `Chain.walk_eq`, `Chain.walk_pred`: the loop that follows the links until a test holds, and
  the one that searches the node in front of a given one.
-/

namespace Intrusive

variable {κ : Type*} {next next' : κ → Option κ} {nil k m x y : κ} {l l₁ l₂ : List κ}

/-- Following the links from `k` visits `l` and then arrives at the last key. -/
def Path (next : κ → Option κ) : κ → List κ → κ → Prop
  | k, [], m => k = m
  | k, x :: l, m => k = x ∧ ∃ j, next x = some j ∧ Path next j l m

/-- The list from `k` on: the nodes `l`, ended by `nil`. -/
def Chain (nil : κ) (next : κ → Option κ) (k : κ) (l : List κ) : Prop :=
  Path next k l nil ∧ nil ∉ l

@[simp] theorem path_nil : Path next k [] m ↔ k = m := Iff.rfl

theorem path_cons : Path next k (x :: l) m ↔ k = x ∧ ∃ j, next x = some j ∧ Path next j l m :=
  Iff.rfl

theorem path_append :
    Path next k (l₁ ++ l₂) m ↔ ∃ j, Path next k l₁ j ∧ Path next j l₂ m := by
  induction l₁ generalizing k with
  | nil => simp
  | cons x l₁ ih =>
      simp only [List.cons_append, path_cons]
      constructor
      · rintro ⟨rfl, j, hj, hpath⟩
        obtain ⟨i, hi, hm⟩ := ih.mp hpath
        exact ⟨i, ⟨rfl, j, hj, hi⟩, hm⟩
      · rintro ⟨i, ⟨rfl, j, hj, hi⟩, hm⟩
        exact ⟨rfl, j, hj, ih.mpr ⟨i, hi, hm⟩⟩

/-- Links of other nodes do not matter. -/
theorem Path.congr (h : Path next k l m) (heq : ∀ x ∈ l, next' x = next x) :
    Path next' k l m := by
  induction l generalizing k with
  | nil => exact h
  | cons x l ih =>
      obtain ⟨rfl, j, hj, hpath⟩ := h
      rw [List.forall_mem_cons] at heq
      exact ⟨rfl, j, by rw [heq.1, hj], ih hpath heq.2⟩

/-! ### Reading a chain -/

@[simp] theorem chain_nil : Chain nil next k [] ↔ k = nil := by
  simp [Chain]

theorem chain_cons :
    Chain nil next k (x :: l) ↔ k = x ∧ x ≠ nil ∧ ∃ j, next x = some j ∧ Chain nil next j l := by
  unfold Chain
  rw [path_cons, List.mem_cons, not_or]
  constructor
  · rintro ⟨⟨rfl, j, hj, hpath⟩, hne, hnil⟩
    exact ⟨rfl, Ne.symm hne, j, hj, hpath, hnil⟩
  · rintro ⟨rfl, hne, j, hj, hpath, hnil⟩
    exact ⟨⟨rfl, j, hj, hpath⟩, Ne.symm hne, hnil⟩

/-- A chain starts at its first node, or is empty. -/
theorem Chain.start_eq (h : Chain nil next k l) : k = l.headD nil := by
  cases l with
  | nil => exact chain_nil.mp h
  | cons x l => exact (chain_cons.mp h).1

theorem Chain.ne_nil (h : Chain nil next k l) (hx : x ∈ l) : x ≠ nil := by
  rintro rfl
  exact h.2 hx

/-- The nodes from some point of a chain on form a chain. -/
theorem Chain.suffix (h : Chain nil next k (l₁ ++ l₂)) :
    ∃ j, Path next k l₁ j ∧ Chain nil next j l₂ := by
  obtain ⟨j, h₁, h₂⟩ := path_append.mp h.1
  exact ⟨j, h₁, h₂, fun hmem => h.2 (List.mem_append_right _ hmem)⟩

/-- Every node of a chain can be read. -/
theorem Chain.next_isSome (h : Chain nil next k l) (hx : x ∈ l) : ∃ j, next x = some j := by
  obtain ⟨l₁, l₂, rfl⟩ := List.append_of_mem hx
  obtain ⟨_, -, hsuffix⟩ := h.suffix
  obtain ⟨-, -, j, hj, -⟩ := chain_cons.mp hsuffix
  exact ⟨j, hj⟩

/-- The first key determines the chain. -/
theorem Chain.unique (h : Chain nil next k l) (h' : Chain nil next k l₂) : l = l₂ := by
  induction l generalizing k l₂ with
  | nil =>
      obtain rfl := chain_nil.mp h
      cases l₂ with
      | nil => rfl
      | cons y l₂ =>
          obtain ⟨rfl, hne, -⟩ := chain_cons.mp h'
          exact absurd rfl hne
  | cons x l ih =>
      obtain ⟨rfl, hne, j, hj, hrest⟩ := chain_cons.mp h
      cases l₂ with
      | nil => exact absurd (chain_nil.mp h') hne
      | cons y l₂ =>
          obtain ⟨rfl, -, j', hj', hrest'⟩ := chain_cons.mp h'
          obtain rfl := Option.some.inj (hj.symm.trans hj')
          rw [ih hrest hrest']

/-- A chain visits no node twice: from both places on it would be the same list. -/
theorem Chain.nodup (h : Chain nil next k l) : l.Nodup := by
  induction l generalizing k with
  | nil => exact List.nodup_nil
  | cons x l ih =>
      obtain ⟨rfl, -, j, -, hrest⟩ := chain_cons.mp h
      refine List.nodup_cons.mpr ⟨?_, ih hrest⟩
      intro hmem
      obtain ⟨l₁, l₂, rfl⟩ := List.append_of_mem hmem
      obtain ⟨i, -, hsuffix⟩ := hrest.suffix
      obtain ⟨rfl, -⟩ := chain_cons.mp hsuffix
      have hlen := congrArg List.length (h.unique hsuffix)
      simp only [List.length_cons, List.length_append] at hlen
      omega

/-! ### Writing links -/

theorem Chain.congr (h : Chain nil next k l) (heq : ∀ x ∈ l, next' x = next x) :
    Chain nil next' k l :=
  ⟨h.1.congr heq, h.2⟩

/-- A node put before the first one. -/
theorem Chain.push (h : Chain nil next k l) (hx : x ≠ nil) (hnext : next' x = some k)
    (heq : ∀ y ∈ l, next' y = next y) : Chain nil next' x (x :: l) :=
  chain_cons.mpr ⟨rfl, hx, k, hnext, h.congr heq⟩

/-- A node put behind the last one. -/
theorem Chain.concat (h : Chain nil next k (l ++ [x])) (hy : y ≠ nil) (hx : next' x = some y)
    (hnext : next' y = some nil) (heq : ∀ z ∈ l, next' z = next z) :
    Chain nil next' k (l ++ [x] ++ [y]) := by
  obtain ⟨j, hpath, hlast⟩ := h.suffix
  obtain ⟨rfl, hne, -⟩ := chain_cons.mp hlast
  constructor
  · rw [List.append_assoc]
    exact path_append.mpr ⟨_, hpath.congr heq, rfl, y, hx, rfl, nil, hnext, rfl⟩
  · rw [List.mem_append, List.mem_singleton, not_or]
    exact ⟨h.2, hy.symm⟩

/-- A node taken out from behind another one. -/
theorem Chain.unlink (h : Chain nil next k (l₁ ++ x :: y :: l₂)) (hx : next' x = next y)
    (heq : ∀ z ∈ l₁ ++ l₂, next' z = next z) : Chain nil next' k (l₁ ++ x :: l₂) := by
  obtain ⟨j, hpath, hlast⟩ := h.suffix
  obtain ⟨rfl, hne, i, -, hlast⟩ := chain_cons.mp hlast
  obtain ⟨rfl, -, i, hi, hrest⟩ := chain_cons.mp hlast
  have h₁ := hpath.congr fun z hz => heq z (List.mem_append_left _ hz)
  have h₂ := hrest.congr fun z hz => heq z (List.mem_append_right _ hz)
  constructor
  · exact path_append.mpr ⟨_, h₁, rfl, i, hx.trans hi, h₂.1⟩
  · intro hmem
    refine h.2 ?_
    simp only [List.mem_append, List.mem_cons] at hmem ⊢
    rcases hmem with hmem | rfl | hmem
    · exact Or.inl hmem
    · exact Or.inr (Or.inl rfl)
    · exact Or.inr (Or.inr (Or.inr hmem))

/-! ### Walking along a chain -/

section Walk

variable {ν : Type*}

/-- The loop `while (k != null && !stop(k)) k = next(k)`: `none` when it runs out of fuel or
reads a node that is not there, otherwise the key it ends with. -/
def walk (isNull : κ → Bool) (read : κ → Option ν) (next : ν → κ) (stop : ν → Bool) :
    ℕ → κ → Option κ
  | 0, _ => none
  | fuel + 1, k =>
      if isNull k then some k
      else (read k).bind fun v =>
        if stop v then some k else walk isNull read next stop fuel (next v)

variable {isNull : κ → Bool} {read : κ → Option ν} {link : ν → κ} {stop : ν → Bool} {fuel : ℕ}

/-- Where a walk along the chain `l` ends: at the end if no node stops it, else at the first
node that does. -/
inductive WalkEnds (nil : κ) (read : κ → Option ν) (stop : ν → Bool) (l : List κ) (r : κ) : Prop
  | atEnd (hr : r = nil) (hnone : ∀ x ∈ l, ∀ v, read x = some v → stop v = false) :
      WalkEnds nil read stop l r
  | atNode (l₁ l₂ : List κ) (v : ν) (hl : l = l₁ ++ r :: l₂) (hv : read r = some v)
      (hstop : stop v = true) (hbefore : ∀ x ∈ l₁, ∀ v, read x = some v → stop v = false) :
      WalkEnds nil read stop l r

/-- **The walk on a chain** ends, whenever it has more fuel than there are nodes. -/
theorem Chain.walk_eq (stop : ν → Bool) (hnil : isNull nil = true) (hnull : ∀ x ∈ l, isNull x = false)
    (h : Chain nil (fun x => (read x).map link) k l) :
    ∃ r, (∀ fuel, l.length < fuel → walk isNull read link stop fuel k = some r) ∧
      WalkEnds nil read stop l r := by
  induction l generalizing k with
  | nil =>
      obtain rfl := chain_nil.mp h
      refine ⟨k, ?_, .atEnd rfl (by simp)⟩
      rintro (_ | fuel) hfuel
      · simp at hfuel
      · simp [walk, hnil]
  | cons x l ih =>
      obtain ⟨rfl, hne, j, hj, hrest⟩ := chain_cons.mp h
      rw [List.forall_mem_cons] at hnull
      obtain ⟨v, hv, rfl⟩ := Option.map_eq_some_iff.mp hj
      by_cases hstop : stop v = true
      · refine ⟨k, ?_, .atNode [] l v rfl hv hstop (by simp)⟩
        rintro (_ | fuel) hfuel
        · simp at hfuel
        · simp [walk, hnull.1, hv, hstop]
      · obtain ⟨r, hrun, hends⟩ := ih hnull.2 hrest
        have hfirst : ∀ w, read k = some w → stop w = false := by
          intro w hw
          obtain rfl := Option.some.inj (hv.symm.trans hw)
          simpa using hstop
        refine ⟨r, ?_, ?_⟩
        · rintro (_ | fuel) hfuel
          · simp at hfuel
          · rw [List.length_cons] at hfuel
            simp [walk, hnull.1, hv, hstop, hrun fuel (by omega)]
        · cases hends with
          | atEnd hr hnone => exact .atEnd hr (List.forall_mem_cons.mpr ⟨hfirst, hnone⟩)
          | atNode l₁ l₂ w hl hw hw' hbefore =>
              exact .atNode (k :: l₁) l₂ w (by rw [hl, List.cons_append]) hw hw'
                (List.forall_mem_cons.mpr ⟨hfirst, hbefore⟩)

/-- The node a chain reaches from one of its nodes is the next one in the list. -/
theorem Chain.next_split (h : Chain nil next k l) (hx : x ∈ l) (hnext : next x = some y) :
    ∃ l₁ l₂, l = l₁ ++ x :: l₂ ∧ Chain nil next y l₂ := by
  obtain ⟨l₁, l₂, rfl⟩ := List.append_of_mem hx
  obtain ⟨_, -, hsuffix⟩ := h.suffix
  obtain ⟨-, -, j, hj, hrest⟩ := chain_cons.mp hsuffix
  obtain rfl := Option.some.inj (hj.symm.trans hnext)
  exact ⟨l₁, l₂, rfl, hrest⟩

/-- **Searching the node before `y`**: the loop that stops at the node whose link is `y` finds
the one in front of it, and ends at the end of the list when there is none. -/
theorem Chain.walk_pred [DecidableEq κ] (hnil : isNull nil = true)
    (hnull : ∀ x ∈ l, isNull x = false) (h : Chain nil (fun x => (read x).map link) k l)
    (hy : y ≠ nil) :
    ∃ r, (∀ fuel, l.length < fuel → walk isNull read link (link · == y) fuel k = some r) ∧
      ((r = nil ∧ (y ∈ l → ∃ l₂, l = y :: l₂)) ∨ ∃ l₁ l₂, l = l₁ ++ r :: y :: l₂) := by
  obtain ⟨r, hrun, hends⟩ := h.walk_eq (link · == y) hnil hnull
  refine ⟨r, hrun, ?_⟩
  cases hends with
  | atEnd hr hnone =>
      refine Or.inl ⟨hr, fun hmem => ?_⟩
      obtain ⟨l₁, l₂, rfl⟩ := List.append_of_mem hmem
      rcases List.eq_nil_or_concat l₁ with rfl | ⟨l₀, x, rfl⟩
      · exact ⟨l₂, rfl⟩
      · -- the node in front of `y` would have stopped the walk
        rw [List.concat_eq_append, List.append_assoc] at h hnone
        obtain ⟨_, -, hsuffix⟩ := h.suffix
        obtain ⟨-, -, j, hj, hrest⟩ := chain_cons.mp hsuffix
        obtain ⟨rfl, -⟩ := chain_cons.mp hrest
        obtain ⟨v, hv, hlink⟩ := Option.map_eq_some_iff.mp hj
        have := hnone x (by simp) v hv
        simp [hlink] at this
  | atNode l₁ l₂ v hl hv hstop hbefore =>
      obtain ⟨l₁', l₂', rfl, hrest⟩ := h.next_split (x := r) (y := link v) (by simp [hl])
        (by simp [hv])
      rw [eq_of_beq hstop] at hrest
      cases l₂' with
      | nil => exact absurd (chain_nil.mp hrest) hy
      | cons z l₂' =>
          obtain ⟨rfl, -⟩ := chain_cons.mp hrest
          exact Or.inr ⟨l₁', l₂', rfl⟩

end Walk

/-! ### Families of lists

Many lists threaded through one store: the node `k` belongs to the list `own k`, if to any,
and `head i` is the first key of the list `i`, if there is such a list. -/

section Lists

variable {ι : Type*} {head head' : ι → Option κ} {own own' : κ → Option ι} {i : ι} {h n : κ}

/-- Every list of the family is a chain of exactly the nodes that belong to it. -/
def Lists (nil : κ) (next : κ → Option κ) (head : ι → Option κ) (own : κ → Option ι) : Prop :=
  ∀ i h, head i = some h → ∃ l, Chain nil next h l ∧ ∀ k, k ∈ l ↔ own k = some i

/-- The family depends on the links of nodes that belong to a list. -/
theorem Lists.congr (hl : Lists nil next head own)
    (hhead : ∀ i h, head' i = some h → head i = some h)
    (hown : ∀ k i h, head' i = some h → (own' k = some i ↔ own k = some i))
    (hnext : ∀ k i h, head' i = some h → own k = some i → next' k = next k) :
    Lists nil next' head' own' := by
  intro i h hi
  obtain ⟨l, hchain, hmem⟩ := hl i h (hhead i h hi)
  refine ⟨l, hchain.congr fun k hk => hnext k i h hi ((hmem k).mp hk), fun k => ?_⟩
  rw [hmem, hown k i h hi]

/-- A new node in front of a list. -/
theorem Lists.push (hl : Lists nil next head own) (hi : head i = some h) (hk : own k = none)
    (hne : k ≠ nil) (hnext : next' k = some h) (hnext' : ∀ j, j ≠ k → next' j = next j)
    (hown : own' k = some i) (hown' : ∀ j, j ≠ k → own' j = own j) (hhead : head' i = some k)
    (hhead' : ∀ j, j ≠ i → head' j = head j) : Lists nil next' head' own' := by
  have hnot : ∀ {j : ι} {l : List κ}, (∀ x, x ∈ l ↔ own x = some j) → ∀ x ∈ l, x ≠ k := by
    rintro j l hmem x hx rfl
    exact absurd (hk.symm.trans ((hmem x).mp hx)) (by simp)
  intro j h' hj
  by_cases hji : j = i
  · subst hji
    obtain rfl := Option.some.inj (hhead.symm.trans hj)
    obtain ⟨l, hchain, hmem⟩ := hl j h hi
    refine ⟨k :: l, hchain.push hne hnext fun x hx => hnext' x (hnot hmem x hx), fun x => ?_⟩
    by_cases hx : x = k
    · subst hx
      simp [hown]
    · rw [List.mem_cons, hown' x hx, hmem]
      simp [hx]
  · rw [hhead' j hji] at hj
    obtain ⟨l, hchain, hmem⟩ := hl j h' hj
    refine ⟨l, hchain.congr fun x hx => hnext' x (hnot hmem x hx), fun x => ?_⟩
    by_cases hx : x = k
    · subst hx
      rw [hown]
      simp only [Option.some.injEq]
      exact ⟨fun hmem' => absurd rfl (hnot hmem x hmem'), fun heq => absurd heq.symm hji⟩
    · rw [hown' x hx, hmem]

/-- What taking the node `k` out of its list may do: the first key moves on if it is `k`, and
otherwise the node in front of `k` gets its link. -/
inductive Unlinked (next next' : κ → Option κ) (head head' : ι → Option κ)
    (own : κ → Option ι) (k : κ) (i : ι) : Prop
  | atHead (n : κ) (hk : head i = some k) (hn : next k = some n) (hhead : head' i = some n)
      (hhead' : ∀ j, j ≠ i → head' j = head j) (hnext : ∀ j, j ≠ k → next' j = next j) :
      Unlinked next next' head head' own k i
  | behind (x : κ) (hx : own x = some i) (hk : next x = some k) (hnext : next' x = next k)
      (hhead : head' = head) (hnext' : ∀ j, j ≠ x → j ≠ k → next' j = next j) :
      Unlinked next next' head head' own k i

/-- A node that is taken out of its list and belongs to none from then on. -/
theorem Lists.unlink (hl : Lists nil next head own) (hi : head i = some h) (hk : own k = some i)
    (hun : Unlinked next next' head head' own k i) (hown : own' k = none)
    (hown' : ∀ j, j ≠ k → own' j = own j) : Lists nil next' head' own' := by
  obtain ⟨l, hchain, hmem⟩ := hl i h hi
  have hkl := (hmem k).mpr hk
  -- lists of other nodes do not hold `k`, nor any other node of its list
  have hother : ∀ {j : ι} {l' : List κ}, j ≠ i → (∀ x, x ∈ l' ↔ own x = some j) → ∀ x ∈ l', own x ≠ some i := by
    rintro j l' hji hmem' x hx heq
    exact hji (Option.some.inj (((hmem' x).mp hx).symm.trans heq))
  have hmem' : ∀ {j : ι} {l' : List κ}, j ≠ i → (∀ x, x ∈ l' ↔ own x = some j) →
      ∀ x, x ∈ l' ↔ own' x = some j := by
    intro j l' hji hm x
    by_cases hx : x = k
    · subst hx
      rw [hown, hm, hk]
      simp [Ne.symm hji]
    · rw [hown' x hx, hm]
  have hmemi : ∀ {l' : List κ}, (∀ x, x ∈ l' ↔ x ∈ l ∧ x ≠ k) →
      ∀ x, x ∈ l' ↔ own' x = some i := by
    intro l' hl' x
    rw [hl', hmem]
    by_cases hx : x = k
    · subst hx
      simp [hown]
    · rw [hown' x hx]
      simp [hx]
  have hnodup := hchain.nodup
  cases hun with
  | atHead n hki hn hhead hhead' hnext =>
      obtain rfl := Option.some.inj (hi.symm.trans hki)
      obtain ⟨l₁, l₂, rfl, hrest⟩ := hchain.next_split hkl hn
      obtain rfl : l₁ = [] := by
        cases l₁ with
        | nil => rfl
        | cons z l₁ =>
            obtain ⟨rfl, -⟩ := chain_cons.mp hchain
            simp at hnodup
      rw [List.nil_append] at *
      have hnk := (List.nodup_cons.mp hnodup).1
      intro j h' hj
      by_cases hji : j = i
      · subst hji
        obtain rfl := Option.some.inj (hhead.symm.trans hj)
        refine ⟨l₂, hrest.congr fun x hx => hnext x (fun heq => hnk (heq ▸ hx)), ?_⟩
        refine hmemi fun x => ?_
        rw [List.mem_cons]
        constructor
        · exact fun hx => ⟨Or.inr hx, fun heq => hnk (heq ▸ hx)⟩
        · rintro ⟨rfl | hx, hxk⟩
          · exact absurd rfl hxk
          · exact hx
      · rw [hhead' j hji] at hj
        obtain ⟨l', hchain', hm⟩ := hl j h' hj
        refine ⟨l', hchain'.congr fun x hx => hnext x ?_, hmem' hji hm⟩
        rintro rfl
        exact hother hji hm x hx hk
  | behind x hx hxk hnext hhead hnext' =>
      subst hhead
      obtain ⟨l₁, l₂, rfl, hrest⟩ := hchain.next_split ((hmem x).mpr hx) hxk
      cases l₂ with
      | nil => exact absurd (chain_nil.mp hrest) (hchain.ne_nil hkl)
      | cons z l₂ =>
          obtain ⟨rfl, -⟩ := chain_cons.mp hrest
          have hparts : x ∉ l₁ ∧ x ∉ l₂ ∧ k ∉ l₁ ∧ k ∉ l₂ ∧ x ≠ k := by
            simp only [List.nodup_append, List.nodup_cons, List.mem_cons] at hnodup
            grind
          obtain ⟨hx₁, hx₂, hk₁, hk₂, hne⟩ := hparts
          intro j h' hj
          by_cases hji : j = i
          · subst hji
            obtain rfl := Option.some.inj (hi.symm.trans hj)
            refine ⟨l₁ ++ x :: l₂, hchain.unlink hnext fun y hy => ?_, ?_⟩
            · refine hnext' y ?_ ?_ <;> rintro rfl <;>
                simp [hx₁, hx₂, hk₁, hk₂] at hy
            · refine hmemi fun y => ?_
              simp only [List.mem_append, List.mem_cons]
              grind
          · obtain ⟨l', hchain', hm⟩ := hl j h' hj
            refine ⟨l', hchain'.congr fun y hy => hnext' y ?_ ?_, hmem' hji hm⟩
            · rintro rfl
              exact hother hji hm y hy hx
            · rintro rfl
              exact hother hji hm y hy hk

end Lists

end Intrusive
