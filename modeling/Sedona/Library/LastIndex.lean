import Mathlib.Data.List.Induction
import Mathlib.Logic.Function.Basic

/-!
# The Last Index of a Key

A list of entries with keys, and a map from each key to the index of the last entry that has it:
what a loop makes that appends entries and puts them into a map, and that may exchange an entry
for one with the same key.

## Main results

* `Indexes.nil`, `Indexes.concat`, `Indexes.set`: the operations keep the map right.
* `IsLast.unique`, `IsLast.concat_iff`, `IsLast.set_iff`: the last index of a key.
-/

namespace LastIndex

variable {α κ : Type*} {key : α → κ} {l : List α} {k : κ} {i j : ℕ} {a b : α}

/-- The last entry with the key `k` is at `i`. -/
structure IsLast (key : α → κ) (l : List α) (k : κ) (i : ℕ) : Prop where
  here : ∃ a, l[i]? = some a ∧ key a = k
  after {j : ℕ} {a : α} (hij : i < j) (ha : l[j]? = some a) : key a ≠ k

namespace IsLast

theorem lt_length (h : IsLast key l k i) : i < l.length := by
  obtain ⟨a, ha, -⟩ := h.here
  exact (List.getElem?_eq_some_iff.mp ha).1

theorem unique (h : IsLast key l k i) (h' : IsLast key l k j) : i = j := by
  obtain ⟨a, ha, hak⟩ := h.here
  obtain ⟨b, hb, hbk⟩ := h'.here
  rcases Nat.lt_trichotomy i j with hij | hij | hij
  · exact absurd hbk (h.after hij hb)
  · exact hij
  · exact absurd hak (h'.after hij ha)

/-- The entry that has been appended is the last one with its key. -/
theorem concat_self : IsLast key (l ++ [a]) (key a) l.length where
  here := ⟨a, List.getElem?_concat_length, rfl⟩
  after {j b} hij hb := by
    have hj := (List.getElem?_eq_some_iff.mp hb).1
    rw [List.length_append, List.length_singleton] at hj
    omega

/-- An entry with another key does not matter. -/
theorem concat_iff (hk : key a ≠ k) : IsLast key (l ++ [a]) k i ↔ IsLast key l k i := by
  constructor
  · intro h
    have hi : i < l.length := by
      obtain ⟨b, hb, hbk⟩ := h.here
      by_contra hle
      have hlt := h.lt_length
      rw [List.length_append, List.length_singleton] at hlt
      obtain rfl : i = l.length := by omega
      rw [List.getElem?_concat_length] at hb
      exact hk (Option.some.inj hb ▸ hbk)
    refine ⟨?_, fun {j b} hij hb => h.after hij ?_⟩
    · obtain ⟨b, hb, hbk⟩ := h.here
      exact ⟨b, by rwa [List.getElem?_append_left hi] at hb, hbk⟩
    · rw [List.getElem?_append_left (List.getElem?_eq_some_iff.mp hb).1, hb]
  · intro h
    refine ⟨?_, fun {j b} hij hb => ?_⟩
    · obtain ⟨b, hb, hbk⟩ := h.here
      exact ⟨b, by rwa [List.getElem?_append_left h.lt_length], hbk⟩
    · rcases Nat.lt_or_ge j l.length with hj | hj
      · exact h.after hij (by rwa [List.getElem?_append_left hj] at hb)
      · have hlt := (List.getElem?_eq_some_iff.mp hb).1
        rw [List.length_append, List.length_singleton] at hlt
        obtain rfl : j = l.length := by omega
        rw [List.getElem?_concat_length] at hb
        exact Option.some.inj hb ▸ hk

/-- Keys of entries at the same index decide. -/
theorem congr {l' : List α} (h : l.map key = l'.map key) :
    IsLast key l k i ↔ IsLast key l' k i := by
  have hget : ∀ (m m' : List α), m.map key = m'.map key → ∀ {j : ℕ} {b : α},
      m'[j]? = some b → ∃ c, m[j]? = some c ∧ key c = key b := by
    intro m m' hm j b hb
    have hj : (m.map key)[j]? = some (key b) := by rw [hm, List.getElem?_map, hb]; rfl
    rw [List.getElem?_map] at hj
    exact Option.map_eq_some_iff.mp hj
  have himp : ∀ (m m' : List α), m.map key = m'.map key → IsLast key m k i →
      IsLast key m' k i := by
    intro m m' hm hlast
    refine ⟨?_, fun {j b} hij hb => ?_⟩
    · obtain ⟨b, hb, hbk⟩ := hlast.here
      obtain ⟨c, hc, hck⟩ := hget m' m hm.symm hb
      exact ⟨c, hc, hck.trans hbk⟩
    · obtain ⟨c, hc, hck⟩ := hget m m' hm hb
      exact hck ▸ hlast.after hij hc
  exact ⟨himp l l' h, himp l' l h.symm⟩

end IsLast

theorem map_key_set (hb : l[i]? = some b) (hab : key a = key b) :
    (l.set i a).map key = l.map key := by
  refine List.ext_getElem? fun j => ?_
  rw [List.getElem?_map, List.getElem?_map]
  rcases eq_or_ne i j with rfl | hne
  · rw [List.getElem?_set_self (List.getElem?_eq_some_iff.mp hb).1, hb, Option.map_some,
      Option.map_some, hab]
  · rw [List.getElem?_set_ne hne]

/-- The map takes each key to its last index. -/
def Indexes (key : α → κ) (map : κ → Option ℕ) (l : List α) : Prop :=
  ∀ k i, map k = some i ↔ IsLast key l k i

namespace Indexes

variable {map : κ → Option ℕ}

theorem nil : Indexes key (fun _ => none) ([] : List α) := by
  intro k i
  exact iff_of_false (fun h => nomatch h) fun h => absurd h.lt_length (Nat.not_lt_zero i)

theorem concat [DecidableEq κ] (h : Indexes key map l) (a : α) :
    Indexes key (Function.update map (key a) (some l.length)) (l ++ [a]) := by
  intro k i
  rcases eq_or_ne k (key a) with rfl | hne
  · rw [Function.update_self, Option.some.injEq]
    constructor
    · rintro rfl
      exact IsLast.concat_self
    · exact fun hi => IsLast.concat_self.unique hi
  · rw [Function.update_of_ne hne, h k i, IsLast.concat_iff hne.symm]

theorem set (h : Indexes key map l) (hb : l[i]? = some b) (hab : key a = key b) :
    Indexes key map (l.set i a) := by
  intro k j
  rw [h k j]
  exact IsLast.congr (map_key_set hb hab).symm

/-- Every entry has a last index for its key. -/
theorem isSome (h : Indexes key map l) (ha : a ∈ l) : ∃ i, map (key a) = some i := by
  suffices hlast : ∃ i, IsLast key l (key a) i by
    obtain ⟨i, hi⟩ := hlast
    exact ⟨i, (h _ i).mpr hi⟩
  clear h
  induction l using List.reverseRecOn with
  | nil => cases ha
  | append_singleton l c ih =>
    by_cases hc : key c = key a
    · exact ⟨l.length, hc ▸ IsLast.concat_self⟩
    · rcases List.mem_append.mp ha with ha | ha
      · obtain ⟨i, hi⟩ := ih ha
        exact ⟨i, (IsLast.concat_iff hc).mpr hi⟩
      · exact absurd (congrArg key (List.mem_singleton.mp ha).symm) hc

end Indexes

end LastIndex
