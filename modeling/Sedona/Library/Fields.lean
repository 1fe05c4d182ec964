import Mathlib.Data.List.Basic

/-!
# Fields

Texts whose parts are divided by a separator. `fields` divides a text at each separator. `sides`
reads two separators in a row as one division of its own, from left to right: it divides a text into
sides, and each side into fields.

## Main results

* `join_fields`, `fields_join`: dividing a text and joining the fields are inverse.
* `joinSides_sides`: the sides of a text are the text.
* `sides_join`, `sides_join_join`: the sides of a text are those it is joined from.
-/

namespace Fields

variable {α : Type} [DecidableEq α] (sep : α)

/-! ### Fields -/

/-- Characters in front of the first field. -/
def consHead (p : List α) : List (List α) → List (List α)
  | [] => []
  | f :: fs => (p ++ f) :: fs

/-- The fields of a text. There is one at least. -/
def fields : List α → List (List α)
  | [] => [[]]
  | c :: cs => if c = sep then [] :: fields cs else consHead [c] (fields cs)

/-- The text of the fields. -/
def join : List (List α) → List α
  | [] => []
  | [f] => f
  | f :: g :: fs => f ++ sep :: join (g :: fs)

variable {sep}

omit [DecidableEq α] in
theorem consHead_append (p q : List α) (fs : List (List α)) :
    consHead (p ++ q) fs = consHead p (consHead q fs) := by
  cases fs with
  | nil => rfl
  | cons f fs => rw [consHead, consHead, consHead, List.append_assoc]

theorem fields_ne_nil (sep : α) (cs : List α) : ∃ f fs, fields sep cs = f :: fs := by
  cases cs with
  | nil => exact ⟨[], [], rfl⟩
  | cons c cs =>
    obtain ⟨f, fs, h⟩ := fields_ne_nil sep cs
    rw [fields, h]
    split
    · exact ⟨_, _, rfl⟩
    · exact ⟨_, _, rfl⟩

omit [DecidableEq α] in
theorem join_consHead (p f : List α) (fs : List (List α)) :
    join sep (consHead p (f :: fs)) = p ++ join sep (f :: fs) := by
  cases fs with
  | nil => rfl
  | cons g fs => exact List.append_assoc ..

theorem join_fields (sep : α) (cs : List α) : join sep (fields sep cs) = cs := by
  induction cs with
  | nil => rfl
  | cons c cs ih =>
    obtain ⟨f, fs, h⟩ := fields_ne_nil sep cs
    rw [h] at ih
    rw [fields, h]
    split
    · next hc => rw [join, ih, List.nil_append, hc]
    · rw [join_consHead, ih, List.singleton_append]

/-- Characters that are no separators belong to the first field. -/
theorem fields_append {p : List α} (hp : sep ∉ p) (cs : List α) :
    fields sep (p ++ cs) = consHead p (fields sep cs) := by
  induction p with
  | nil =>
    obtain ⟨f, fs, h⟩ := fields_ne_nil sep cs
    rw [List.nil_append, h]
    rfl
  | cons c p ih =>
    rw [List.mem_cons, not_or] at hp
    rw [List.cons_append, fields, if_neg (Ne.symm hp.1), ih hp.2, ← consHead_append]
    rfl

theorem fields_join {fs : List (List α)} (hne : fs ≠ []) (hfs : ∀ f ∈ fs, sep ∉ f) :
    fields sep (join sep fs) = fs := by
  induction fs with
  | nil => exact absurd rfl hne
  | cons f fs ih =>
    rw [List.forall_mem_cons] at hfs
    cases fs with
    | nil =>
      have h := fields_append hfs.1 []
      rw [List.append_nil] at h
      rw [join, h]
      simp [fields, consHead]
    | cons g fs =>
      rw [join, fields_append hfs.1, fields, if_pos rfl, ih (List.cons_ne_nil g fs) hfs.2]
      simp [consHead]

omit [DecidableEq α] in
theorem mem_join {c : α} {fs : List (List α)} (h : c ∈ join sep fs) :
    c = sep ∨ ∃ f ∈ fs, c ∈ f := by
  induction fs with
  | nil => cases h
  | cons f fs ih =>
    cases fs with
    | nil => exact .inr ⟨f, List.mem_cons_self .., h⟩
    | cons g fs =>
      rcases List.mem_append.mp h with h | h
      · exact .inr ⟨f, List.mem_cons_self .., h⟩
      · rcases List.mem_cons.mp h with h | h
        · exact .inl h
        · obtain hsep | ⟨e, he, hc⟩ := ih h
          · exact .inl hsep
          · exact .inr ⟨e, List.mem_cons_of_mem _ he, hc⟩

omit [DecidableEq α] in
theorem mem_join_of_mem {c : α} {f : List α} {fs : List (List α)} (hf : f ∈ fs) (hc : c ∈ f) :
    c ∈ join sep fs := by
  induction fs with
  | nil => cases hf
  | cons g fs ih =>
    cases fs with
    | nil =>
      rw [List.mem_singleton.mp hf] at hc
      exact hc
    | cons e fs =>
      rcases List.mem_cons.mp hf with rfl | hf
      · exact List.mem_append_left _ hc
      · exact List.mem_append_right _ (List.mem_cons_of_mem _ (ih hf))

omit [DecidableEq α] in
theorem sep_mem_join {fs : List (List α)} (h : 2 ≤ fs.length) : sep ∈ join sep fs := by
  match fs, h with
  | f :: g :: fs, _ => exact List.mem_append_right _ (List.mem_cons_self ..)

omit [DecidableEq α] in
theorem length_join_le (sep : α) {k : ℕ} {fs : List (List α)} (h : ∀ f ∈ fs, f.length ≤ k) :
    (join sep fs).length ≤ fs.length * (k + 1) := by
  induction fs with
  | nil => exact Nat.zero_le _
  | cons f fs ih =>
    rw [List.forall_mem_cons] at h
    have hrest := ih h.2
    have hf := h.1
    cases fs with
    | nil =>
      rw [join, List.length_singleton, Nat.one_mul]
      exact Nat.le_succ_of_le hf
    | cons g fs =>
      rw [List.length_cons, Nat.succ_mul, join, List.length_append, List.length_cons]
      omega

/-! ### Sides -/

/-- Characters in front of the first field of the first side. -/
def consFirst (p : List α) : List (List (List α)) → List (List (List α))
  | [] => []
  | fs :: S => consHead p fs :: S

/-- An empty field in front of the first side. -/
def consField : List (List (List α)) → List (List (List α))
  | [] => []
  | fs :: S => ([] :: fs) :: S

variable (sep) in
/-- The sides of a text, with their fields. -/
def sides : List α → List (List (List α))
  | [] => [[[]]]
  | [c] => if c = sep then [[[], []]] else [[[c]]]
  | c :: c' :: cs =>
      if c = sep then if c' = sep then [[]] :: sides cs else consField (sides (c' :: cs))
      else consFirst [c] (sides (c' :: cs))

variable (sep) in
/-- The text of the sides. -/
def joinSides : List (List (List α)) → List α
  | [] => []
  | [fs] => join sep fs
  | fs :: gs :: S => join sep fs ++ sep :: sep :: joinSides (gs :: S)

omit [DecidableEq α] in
theorem mem_joinSides {c : α} {S : List (List (List α))} (h : c ∈ joinSides sep S) :
    c = sep ∨ ∃ fs ∈ S, ∃ f ∈ fs, c ∈ f := by
  induction S with
  | nil => cases h
  | cons fs S ih =>
    have hfirst : c ∈ join sep fs → c = sep ∨ ∃ gs ∈ fs :: S, ∃ f ∈ gs, c ∈ f := fun hc =>
      (mem_join hc).imp id fun hf => ⟨fs, List.mem_cons_self .., hf⟩
    cases S with
    | nil => exact hfirst h
    | cons gs S =>
      rcases List.mem_append.mp h with h | h
      · exact hfirst h
      · rcases List.mem_cons.mp h with h | h
        · exact .inl h
        · rcases List.mem_cons.mp h with h | h
          · exact .inl h
          · exact (ih h).imp id fun ⟨es, hes, hf⟩ => ⟨es, List.mem_cons_of_mem _ hes, hf⟩

theorem sides_sep_sep (sep : α) (cs : List α) :
    sides sep (sep :: sep :: cs) = [[]] :: sides sep cs := by
  rw [sides, if_pos rfl, if_pos rfl]

theorem sides_sep {cs : List α} (h : cs.head? ≠ some sep) :
    sides sep (sep :: cs) = consField (sides sep cs) := by
  cases cs with
  | nil => simp [sides, consField]
  | cons c cs => rw [sides, if_pos rfl, if_neg fun hc => h (by rw [hc]; rfl)]

theorem sides_cons {c : α} (hc : c ≠ sep) (cs : List α) :
    sides sep (c :: cs) = consFirst [c] (sides sep cs) := by
  cases cs with
  | nil => simp [sides, hc, consFirst, consHead]
  | cons c' cs => rw [sides, if_neg hc]

/-- Induction along the division of a text into sides. -/
theorem sides_induction (sep : α) {motive : List α → Prop} (nil : motive [])
    (sepSep : ∀ cs, motive cs → motive (sep :: sep :: cs))
    (sepOne : ∀ cs, cs.head? ≠ some sep → motive cs → motive (sep :: cs))
    (cons : ∀ c cs, c ≠ sep → motive cs → motive (c :: cs)) : ∀ cs, motive cs
  | [] => nil
  | [c] => by
      by_cases hc : c = sep
      · exact hc ▸ sepOne [] (by simp) nil
      · exact cons c [] hc nil
  | c :: c' :: cs => by
      have ih := sides_induction sep nil sepSep sepOne cons (c' :: cs)
      by_cases hc : c = sep
      · by_cases hc' : c' = sep
        · rw [hc, hc']
          exact sepSep cs (sides_induction sep nil sepSep sepOne cons cs)
        · rw [hc]
          exact sepOne _ (fun h => hc' (Option.some.inj h)) ih
      · exact cons c _ hc ih

theorem sides_eq_cons (sep : α) (cs : List α) : ∃ f fs S, sides sep cs = (f :: fs) :: S := by
  induction cs using sides_induction sep with
  | nil => exact ⟨_, _, _, rfl⟩
  | sepSep cs _ => exact ⟨_, _, _, sides_sep_sep sep cs⟩
  | sepOne cs hcs ih =>
    obtain ⟨f, fs, S, h⟩ := ih
    exact ⟨_, _, _, by rw [sides_sep hcs, h, consField]⟩
  | cons c cs hc ih =>
    obtain ⟨f, fs, S, h⟩ := ih
    exact ⟨_, _, _, by rw [sides_cons hc, h, consFirst, consHead]⟩

omit [DecidableEq α] in
theorem joinSides_cons_append {p : List α} {fs gs : List (List α)}
    (h : join sep gs = p ++ join sep fs) (S : List (List (List α))) :
    joinSides sep (gs :: S) = p ++ joinSides sep (fs :: S) := by
  cases S with
  | nil => exact h
  | cons hs S => rw [joinSides, joinSides, h, List.append_assoc]

/-- The sides of a text are the text. -/
theorem joinSides_sides (sep : α) (cs : List α) : joinSides sep (sides sep cs) = cs := by
  induction cs using sides_induction sep with
  | nil => rfl
  | sepSep cs ih =>
    obtain ⟨f, fs, S, h⟩ := sides_eq_cons sep cs
    rw [h] at ih
    rw [sides_sep_sep, h, joinSides, ih]
    rfl
  | sepOne cs hcs ih =>
    obtain ⟨f, fs, S, h⟩ := sides_eq_cons sep cs
    have hjoin : join sep ([] :: f :: fs) = [sep] ++ join sep (f :: fs) := rfl
    rw [h] at ih
    rw [sides_sep hcs, h, consField, joinSides_cons_append hjoin, ih, List.singleton_append]
  | cons c cs hc ih =>
    obtain ⟨f, fs, S, h⟩ := sides_eq_cons sep cs
    rw [h] at ih
    rw [sides_cons hc, h, consFirst, joinSides_cons_append (join_consHead [c] f fs), ih,
      List.singleton_append]

omit [DecidableEq α] in
theorem consFirst_append (p q : List α) (S : List (List (List α))) :
    consFirst (p ++ q) S = consFirst p (consFirst q S) := by
  cases S with
  | nil => rfl
  | cons fs S => rw [consFirst, consFirst, consFirst, consHead_append]

/-- Characters that are no separators belong to the first field. -/
theorem sides_append {p : List α} (hp : sep ∉ p) (cs : List α) :
    sides sep (p ++ cs) = consFirst p (sides sep cs) := by
  induction p with
  | nil =>
    obtain ⟨f, fs, S, h⟩ := sides_eq_cons sep cs
    rw [List.nil_append, h]
    rfl
  | cons c p ih =>
    rw [List.mem_cons, not_or] at hp
    rw [List.cons_append, sides_cons (Ne.symm hp.1), ih hp.2, ← consFirst_append]
    rfl

omit [DecidableEq α] in
theorem head_join_ne {fs : List (List α)} (hne : fs ≠ []) (hfs : ∀ f ∈ fs, f ≠ [] ∧ sep ∉ f)
    (rest : List α) : (join sep fs ++ rest).head? ≠ some sep := by
  cases fs with
  | nil => exact absurd rfl hne
  | cons f fs =>
    obtain ⟨hf, hsep⟩ := hfs f (List.mem_cons_self ..)
    obtain ⟨c, f, rfl⟩ := List.exists_cons_of_ne_nil hf
    rw [List.mem_cons, not_or] at hsep
    cases fs <;> exact fun h => hsep.1 (Option.some.inj h).symm

/-- The first side of a text, if its fields are not empty and nothing else is in it. -/
theorem sides_join_append {fs : List (List α)} (hne : fs ≠ [])
    (hfs : ∀ f ∈ fs, f ≠ [] ∧ sep ∉ f) {rest : List α} {S : List (List (List α))}
    (hrest : sides sep rest = [[]] :: S) : sides sep (join sep fs ++ rest) = fs :: S := by
  induction fs with
  | nil => exact absurd rfl hne
  | cons f fs ih =>
    rw [List.forall_mem_cons] at hfs
    cases fs with
    | nil => rw [join, sides_append hfs.1.2, hrest, consFirst, consHead, List.append_nil]
    | cons g fs =>
      rw [join, List.append_assoc, sides_append hfs.1.2, List.cons_append,
        sides_sep (head_join_ne (List.cons_ne_nil g fs) hfs.2 rest),
        ih (List.cons_ne_nil g fs) hfs.2, consField, consFirst, consHead, List.append_nil]

/-- The fields of a side: an empty side has an empty field. -/
def sideFields (fs : List (List α)) : List (List α) := if fs = [] then [[]] else fs

omit [DecidableEq α] in
theorem sideFields_of_ne {fs : List (List α)} (h : fs ≠ []) : sideFields fs = fs := if_neg h

theorem sides_join {fs : List (List α)} (hfs : ∀ f ∈ fs, f ≠ [] ∧ sep ∉ f) :
    sides sep (join sep fs) = [sideFields fs] := by
  by_cases hne : fs = []
  · rw [hne]
    rfl
  · rw [sideFields_of_ne hne, ← List.append_nil (join sep fs)]
    exact sides_join_append hne hfs rfl

theorem sides_join_join {fs gs : List (List α)} (hfs : ∀ f ∈ fs, f ≠ [] ∧ sep ∉ f)
    (hgs : ∀ f ∈ gs, f ≠ [] ∧ sep ∉ f) :
    sides sep (join sep fs ++ sep :: sep :: join sep gs) = [sideFields fs, sideFields gs] := by
  have hrest := sides_sep_sep sep (join sep gs)
  rw [sides_join hgs] at hrest
  by_cases hne : fs = []
  · rw [hne]
    exact hrest
  · rw [sides_join_append hne hfs hrest, sideFields_of_ne hne]

end Fields
