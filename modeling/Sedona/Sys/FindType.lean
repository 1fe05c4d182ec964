import Mathlib.Data.List.TakeWhile
import Mathlib.Data.List.Infix
import Mathlib.Data.List.Basic
import Mathlib.Data.List.GetD
import Mathlib.Data.List.Nodup
import Mathlib.Data.Nat.Find

/-!
# Types by their Qualified Names

`Sys.findType` splits a qualified name at its first colon and compares the names of the installed
kits, and then those of the types of the kit it has found, with the two parts of the name through
`Str.equalsRegion`. A `Str` is a place in memory: its characters up to a terminator, with whatever
follows behind.

`equalsRegion` ends as well when the region does, so a name that only starts with the region is
taken for it; and nothing checks what stands behind the first colon.

## Main results

* `Str.equalsRegion_iff`: what `equalsRegion` says of a string and a region.
* `findType_of_index`: what `findType` finds for a name with a colon.
* `lookup_exact_iff`: where the two are the comparisons they are documented as.
-/

namespace Sedona.FindType

/-! ### Strings -/

/-- A string in memory: `len` characters, a terminator, and the memory behind it. -/
structure Str where
  buf : ℕ → BitVec 8
  len : ℕ
  char_ne : ∀ i < len, buf i ≠ 0#8
  terminated : buf len = 0#8

namespace Str

/-- The loop of `equalsRegion`, with the number of characters that it still compares. -/
def equalsRegionLoop (this that : Str) (start : ℕ) : ℕ → ℕ → Bool
  | 0, _ => true
  | count + 1, i =>
      let thisChar := this.buf i
      let thatChar := that.buf (i + start)
      if thisChar ≠ thatChar then false
      else if thisChar = 0#8 then thatChar == 0#8
      else equalsRegionLoop this that start count (i + 1)

/-- Compare with the region of another string from `start` to `stop`. -/
def equalsRegion (this that : Str) (start stop : ℕ) : Bool :=
  equalsRegionLoop this that start (stop - start) 0

/-- The loop of `index`, which ends at the terminator. -/
def indexLoop (this : Str) (ch : BitVec 8) : ℕ → ℕ → Option ℕ
  | 0, _ => none
  | fuel + 1, i =>
      let x := this.buf i
      if x = ch then some i else if x = 0#8 then none else indexLoop this ch fuel (i + 1)

/-- The index of a character, or none. -/
def index (this : Str) (ch : BitVec 8) : Option ℕ := indexLoop this ch (this.len + 1) 0

/-- The characters. -/
def text (s : Str) : List (BitVec 8) := (List.range s.len).map s.buf

/-- The memory of a region from `start`, for `count` characters or up to a terminator. -/
def region (s : Str) (start : ℕ) : ℕ → List (BitVec 8)
  | 0 => []
  | count + 1 =>
      if s.buf start = 0#8 then [] else s.buf start :: region s (start + 1) count

@[simp] theorem text_length (s : Str) : s.text.length = s.len := by simp [text]

/-- The text from a character on. -/
theorem drop_text {s : Str} {i : ℕ} (h : i < s.len) :
    s.text.drop i = s.buf i :: s.text.drop (i + 1) := by
  rw [List.drop_eq_getElem_cons (by simpa using h)]
  simp [text]

theorem drop_text_len (s : Str) : s.text.drop s.len = [] :=
  List.drop_eq_nil_of_le (s.text_length.le)

/-- What a comparison of a text with a region finds: they are equal, or the region is full and the
text only starts with it. -/
def Starts (t r : List (BitVec 8)) (count : ℕ) : Prop := r = t ∨ (r.length = count ∧ r <+: t)

theorem equalsRegionLoop_iff (this that : Str) (start count i : ℕ) (hi : i ≤ this.len) :
    equalsRegionLoop this that start count i = true ↔
      Starts (this.text.drop i) (that.region (i + start) count) count := by
  induction count generalizing i with
  | zero => simp [equalsRegionLoop, Starts, region]
  | succ count ih =>
      rw [equalsRegionLoop, region]
      rcases Nat.lt_or_eq_of_le hi with hlt | rfl
      · -- a character: both go on, or they differ
        have hchar : this.buf i ≠ 0#8 := this.char_ne i hlt
        have hnext := ih (i + 1) hlt
        rw [drop_text hlt]
        by_cases hsame : this.buf i = that.buf (i + start)
        · have hthat : that.buf (i + start) ≠ 0#8 := hsame ▸ hchar
          simp only [ne_eq, hsame, not_true_eq_false, if_false, if_neg hthat]
          rw [hnext, Nat.add_right_comm i 1 start]
          simp [Starts, List.cons_prefix_cons]
        · simp only [ne_eq, hsame, not_false_eq_true, if_true]
          refine iff_of_false (by simp) ?_
          split
          · simp [Starts]
          · simp [Starts, Ne.symm hsame, List.cons_prefix_cons]
      · -- the terminator: the region has to end too
        rw [drop_text_len, this.terminated]
        by_cases hthat : that.buf (this.len + start) = 0#8
        · simp [hthat, Starts]
        · simp [hthat, Starts, Ne.symm hthat]

/-- **What `equalsRegion` says**: the region is the whole string, or the string goes on where the
region ends by its count. -/
theorem equalsRegion_iff (this that : Str) (start stop : ℕ) :
    equalsRegion this that start stop = true ↔
      Starts this.text (that.region start (stop - start)) (stop - start) := by
  rw [equalsRegion, equalsRegionLoop_iff this that start (stop - start) 0 (Nat.zero_le _),
    Nat.zero_add, List.drop_zero]

/-- A region that starts in the text is a piece of it. -/
theorem region_eq {s : Str} {start : ℕ} (h : start ≤ s.len) (count : ℕ) :
    s.region start count = (s.text.drop start).take count := by
  induction count generalizing start with
  | zero => simp [region]
  | succ count ih =>
      rw [region]
      rcases Nat.lt_or_eq_of_le h with hlt | rfl
      · rw [if_neg (s.char_ne start hlt), drop_text hlt, List.take_succ_cons, ih hlt]
      · rw [if_pos s.terminated, drop_text_len, List.take_nil]

/-- `index` finds the first place of a character. -/
theorem indexLoop_iff {s : Str} {ch : BitVec 8} (hch : ch ≠ 0#8) {fuel i c : ℕ}
    (hfuel : s.len < fuel + i) (hi : i ≤ s.len) :
    indexLoop s ch fuel i = some c ↔
      (i ≤ c ∧ c < s.len) ∧ s.buf c = ch ∧ ∀ j, i ≤ j → j < c → s.buf j ≠ ch := by
  induction fuel generalizing i with
  | zero => omega
  | succ fuel ih =>
      rw [indexLoop]
      by_cases hhere : s.buf i = ch
      · have hlt : i < s.len := lt_of_le_of_ne hi fun heq => hch (by rw [← hhere, heq, s.terminated])
        simp only [hhere, if_true, Option.some_inj]
        constructor
        · rintro rfl
          exact ⟨⟨le_rfl, hlt⟩, hhere, fun j hij hji => by omega⟩
        · rintro ⟨⟨hic, -⟩, -, hfirst⟩
          by_contra hne
          exact hfirst i le_rfl (by omega) hhere
      · simp only [if_neg hhere]
        rcases Nat.lt_or_eq_of_le hi with hlt | rfl
        · rw [if_neg (s.char_ne i hlt), ih (by omega) hlt]
          constructor
          · rintro ⟨⟨hic, hc⟩, hthere, hfirst⟩
            refine ⟨⟨by omega, hc⟩, hthere, fun j hij hjc => ?_⟩
            rcases Nat.lt_or_eq_of_le hij with hlt' | rfl
            · exact hfirst j hlt' hjc
            · exact hhere
          · rintro ⟨⟨hic, hc⟩, hthere, hfirst⟩
            have hne : i ≠ c := by
              rintro rfl
              exact hhere hthere
            exact ⟨⟨by omega, hc⟩, hthere, fun j hij hjc => hfirst j (by omega) hjc⟩
        · rw [if_pos s.terminated]
          refine iff_of_false (by simp) ?_
          rintro ⟨⟨hic, hc⟩, -⟩
          omega

theorem index_iff {s : Str} {ch : BitVec 8} (hch : ch ≠ 0#8) (c : ℕ) :
    s.index ch = some c ↔ c < s.len ∧ s.buf c = ch ∧ ∀ j < c, s.buf j ≠ ch := by
  rw [index, indexLoop_iff hch (by omega) (Nat.zero_le _)]
  simp

theorem mem_text {s : Str} {ch : BitVec 8} : ch ∈ s.text ↔ ∃ c < s.len, s.buf c = ch := by
  simp [text]

/-- Without an index the character is nowhere. -/
theorem not_mem_of_index_none {s : Str} {ch : BitVec 8} (hch : ch ≠ 0#8)
    (h : s.index ch = none) : ch ∉ s.text := by
  intro hmem
  have hex := mem_text.mp hmem
  obtain ⟨hlt, hthere⟩ := Nat.find_spec hex
  have hfirst : s.index ch = some (Nat.find hex) :=
    (index_iff hch _).mpr ⟨hlt, hthere, fun j hj heq => Nat.find_min hex hj ⟨hj.trans hlt, heq⟩⟩
  simp [h] at hfirst

/-- The text up to the first place of a character, and from it on. -/
theorem text_of_index {s : Str} {ch : BitVec 8} (hch : ch ≠ 0#8) {c : ℕ}
    (h : s.index ch = some c) :
    s.text = s.text.take c ++ ch :: s.text.drop (c + 1) ∧ ch ∉ s.text.take c := by
  obtain ⟨hlt, hthere, hfirst⟩ := (index_iff hch c).mp h
  refine ⟨?_, fun hmem => ?_⟩
  · rw [← hthere, ← drop_text hlt, List.take_append_drop]
  · obtain ⟨j, hj, hget⟩ := List.mem_take_iff_getElem.mp hmem
    have hj' : j < c := by
      rw [text_length] at hj
      omega
    exact hfirst j hj' (by simpa [text] using hget)

end Str

/-! ### Kits and types -/

/-- A type: the id of its kit and its name. -/
structure TypeDef where
  kit : ℕ
  name : Str

/-- A kit: its id, its name and its types. -/
structure Kit where
  id : ℕ
  name : Str
  types : List TypeDef

/-- The colon. -/
def colon : BitVec 8 := 58#8

/-- Find a type by its qualified name. -/
def findType (kits : List Kit) (qname : Str) : Option TypeDef := do
  let c ← qname.index colon
  let kit ← kits.find? fun k => k.name.equalsRegion qname 0 c
  kit.types.find? fun t => t.name.equalsRegion qname (c + 2) 100

/-- The installed kits: no two of one id or of one name, no colon in a name, and types that know
their kit and have names of their own in it. -/
structure Installed where
  kits : List Kit
  ids : (kits.map (·.id)).Nodup
  names : (kits.map (·.name.text)).Nodup
  no_colon : ∀ k ∈ kits, colon ∉ k.name.text
  kit_of : ∀ k ∈ kits, ∀ t ∈ k.types, t.kit = k.id
  type_names : ∀ k ∈ kits, (k.types.map (·.name.text)).Nodup

/-- The text is `kit::type`. -/
def IsName (q : Str) (k : Kit) (t : TypeDef) : Prop :=
  q.text = k.name.text ++ colon :: colon :: t.name.text

/-- The text is `kit::type` for an installed kit and the given type of it. -/
def Qualified (kits : List Kit) (q : Str) (t : TypeDef) : Prop :=
  ∃ k ∈ kits, t ∈ k.types ∧ IsName q k t

/-! ### What is found -/

/-- The first kit whose name starts with the part of a name before its colon. -/
def firstKit (kits : List Kit) (q : Str) (c : ℕ) : Option Kit :=
  kits.find? fun k => decide (q.text.take c <+: k.name.text)

/-- What `equalsRegion` compares the names of types with: the memory behind the colon and one more
character, up to character 100. -/
def typeRegion (q : Str) (c : ℕ) : List (BitVec 8) := q.region (c + 2) (100 - (c + 2))

instance (t r : List (BitVec 8)) (count : ℕ) : Decidable (Str.Starts t r count) :=
  inferInstanceAs (Decidable (_ ∨ _))

/-- The first type of a kit whose name starts with that. -/
def firstType (k : Kit) (q : Str) (c : ℕ) : Option TypeDef :=
  k.types.find? fun t => decide (Str.Starts t.name.text (typeRegion q c) (100 - (c + 2)))

theorem findType_of_index {kits : List Kit} {q : Str} {c : ℕ} (hc : q.index colon = some c) :
    findType kits q = (firstKit kits q c).bind fun k => firstType k q c := by
  have hlt : c < q.len := ((Str.index_iff (by decide) c).mp hc).1
  have hkit : (fun k : Kit => k.name.equalsRegion q 0 c) =
      fun k => decide (q.text.take c <+: k.name.text) := by
    funext k
    rw [Bool.eq_iff_iff, Str.equalsRegion_iff, decide_eq_true_iff, Nat.sub_zero,
      Str.region_eq (Nat.zero_le _), List.drop_zero]
    have hlen : (q.text.take c).length = c := by simp [hlt.le]
    exact ⟨fun h => h.elim (fun heq => heq ▸ List.prefix_rfl) (·.2), fun h => Or.inr ⟨hlen, h⟩⟩
  have htype : ∀ k : Kit, (k.types.find? fun t => t.name.equalsRegion q (c + 2) 100) =
      firstType k q c := by
    intro k
    rw [firstType]
    congr 1
    funext t
    rw [Bool.eq_iff_iff, Str.equalsRegion_iff, decide_eq_true_iff]
    rfl
  simp only [findType, hc, Option.bind_eq_bind, Option.bind_some, hkit, htype]
  rfl

theorem findType_of_no_colon {kits : List Kit} {q : Str} (hc : q.index colon = none) :
    findType kits q = none := by
  simp [findType, hc]

/-! ### What is to be found -/

/-- By the first colon of a name, it is `kit::type` when its parts are the two names. -/
theorem isName_iff {q : Str} {c : ℕ} (hc : q.index colon = some c) {k : Kit} {t : TypeDef}
    (hk : colon ∉ k.name.text) :
    IsName q k t ↔ k.name.text = q.text.take c ∧ q.buf (c + 1) = colon ∧
      t.name.text = q.text.drop (c + 2) := by
  have hlt : c < q.len := ((Str.index_iff (by decide) c).mp hc).1
  obtain ⟨htext, hbefore⟩ := Str.text_of_index (by decide) hc
  have hsplit : IsName q k t ↔
      k.name.text = q.text.take c ∧ colon :: t.name.text = q.text.drop (c + 1) := by
    rw [IsName]
    constructor
    · intro h
      have hsame := h.symm.trans htext
      have hlen : k.name.text.length = (q.text.take c).length := by
        have hindex := congrArg (List.idxOf colon) hsame
        rwa [List.idxOf_append_of_notMem hk, List.idxOf_append_of_notMem hbefore,
          List.idxOf_cons_self, List.idxOf_cons_self, Nat.add_zero, Nat.add_zero] at hindex
      obtain ⟨hkit, htype⟩ := List.append_inj hsame hlen
      exact ⟨hkit, (List.cons_eq_cons.mp htype).2⟩
    · rintro ⟨hkit, htype⟩
      rw [hkit, htype]
      exact htext
  rw [hsplit]
  refine and_congr_right fun _ => ?_
  rcases Nat.lt_or_eq_of_le (Nat.succ_le_of_lt hlt) with hnext | hend
  · rw [Str.drop_text hnext, List.cons_eq_cons]
    exact and_congr_left' eq_comm
  · -- the colon is the last character
    have hlen : c + 1 = q.len := hend
    rw [hlen, Str.drop_text_len, q.terminated]
    exact iff_of_false (by simp) fun h => absurd h.1 (by decide)

/-- A name with no colon is no qualified name. -/
theorem not_qualified_of_no_colon {kits : List Kit} {q : Str} (hc : q.index colon = none)
    (t : TypeDef) : ¬ Qualified kits q t := by
  rintro ⟨k, -, -, hname⟩
  refine Str.not_mem_of_index_none (by decide) hc ?_
  rw [hname]
  simp

/-! ### Where the lookup is exact -/

/-- The lookup of a name whose first colon is at `c`, in the kit that it finds: a type that it
finds is in a kit with no longer name, behind two colons, and has the same characters from
`100` on; and if it finds none, there is none in a kit of just that name. -/
structure Finds (kits : List Kit) (q : Str) (c : ℕ) (k : Kit) : Prop where
  found : ∀ t, firstType k q c = some t →
    k.name.len = c ∧ q.buf (c + 1) = colon ∧
      t.name.text.drop (100 - (c + 2)) = q.text.drop (max 100 (c + 2))
  missed : firstType k q c = none →
    k.name.len = c ∨ ∀ k' ∈ kits, k'.name.len = c → ∀ t ∈ k'.types, ¬ IsName q k' t

/-- The condition on the kits and a name. -/
def Exact (kits : List Kit) (q : Str) : Prop :=
  ∀ c, q.index colon = some c → ∀ k, firstKit kits q c = some k → Finds kits q c k

/-- In an installed kit a type that `equalsRegion` takes for the one of a name is that one under
the conditions of `Finds`. -/
theorem isName_of_starts {q : Str} {c : ℕ} (hc : q.index colon = some c) {k : Kit} {t : TypeDef}
    (hk : colon ∉ k.name.text) (hkit : q.text.take c <+: k.name.text)
    (htype : Str.Starts t.name.text (typeRegion q c) (100 - (c + 2))) :
    IsName q k t ↔ k.name.len = c ∧ q.buf (c + 1) = colon ∧
      t.name.text.drop (100 - (c + 2)) = q.text.drop (max 100 (c + 2)) := by
  have hlt : c < q.len := ((Str.index_iff (by decide) c).mp hc).1
  rw [isName_iff hc hk]
  have hname : k.name.text = q.text.take c ↔ k.name.len = c := by
    rw [← k.name.text_length]
    constructor
    · intro h
      rw [h, List.length_take, Str.text_length]
      omega
    · intro h
      refine (hkit.eq_of_length ?_).symm
      rw [List.length_take, Str.text_length, h]
      omega
  refine and_congr hname (and_congr_right fun hcolon => ?_)
  -- the second colon is in the text, and so is the region behind it
  have hnext : c + 2 ≤ q.len := by
    by_contra hover
    have hend : c + 1 = q.len := by omega
    rw [hend, q.terminated] at hcolon
    exact absurd hcolon (by decide)
  rw [typeRegion, Str.region_eq hnext] at htype
  have hdrop : q.text.drop (max 100 (c + 2)) = (q.text.drop (c + 2)).drop (100 - (c + 2)) := by
    rw [List.drop_drop]
    congr 1
    omega
  rw [hdrop]
  generalize q.text.drop (c + 2) = d at htype ⊢
  generalize 100 - (c + 2) = n at htype ⊢
  constructor
  · rintro rfl
    rfl
  · intro hrest
    have hfront : t.name.text.take n = d.take n := by
      rcases htype with heq | ⟨hfull, hpre⟩
      · rw [← heq, List.take_take, Nat.min_self]
      · rw [List.prefix_iff_eq_take.mp hpre, hfull]
    rw [← List.take_append_drop n t.name.text, hfront, hrest, List.take_append_drop]

/-- The kits and types of an installed environment are one where their names are. -/
theorem Installed.unique (env : Installed) {k k' : Kit} {t t' : TypeDef}
    (hk : k ∈ env.kits) (hk' : k' ∈ env.kits) (ht : t ∈ k.types) (ht' : t' ∈ k'.types)
    (hkit : k.name.text = k'.name.text) (htype : t.name.text = t'.name.text) : k = k' ∧ t = t' := by
  obtain rfl := List.inj_on_of_nodup_map env.names hk hk' hkit
  exact ⟨rfl, List.inj_on_of_nodup_map (env.type_names k hk) ht ht' htype⟩

/-- In the kit that the lookup finds. -/
theorem firstType_exact_iff (env : Installed) {q : Str} {c : ℕ} (hc : q.index colon = some c)
    {k : Kit} (hk : k ∈ env.kits) (hpre : q.text.take c <+: k.name.text) :
    (∀ t, firstType k q c = some t ↔ Qualified env.kits q t) ↔ Finds env.kits q c k := by
  have hlt : c < q.len := ((Str.index_iff (by decide) c).mp hc).1
  have hparts : ∀ k' ∈ env.kits, ∀ t, IsName q k' t →
      k'.name.text = q.text.take c ∧ q.buf (c + 1) = colon ∧ t.name.text = q.text.drop (c + 2) :=
    fun k' hk' t h => (isName_iff hc (env.no_colon k' hk')).mp h
  have hlen : ∀ k' ∈ env.kits, ∀ t, IsName q k' t → k'.name.len = c := fun k' hk' t h => by
    rw [← Str.text_length, (hparts k' hk' t h).1, List.length_take, Str.text_length]
    omega
  cases hfirst : firstType k q c with
  | some t =>
      have ht : t ∈ k.types := List.mem_of_find?_eq_some hfirst
      have hstarts : Str.Starts t.name.text (typeRegion q c) (100 - (c + 2)) := by
        simpa using List.find?_some hfirst
      have hname := isName_of_starts hc (env.no_colon k hk) hpre hstarts
      constructor
      · intro h
        obtain ⟨k', hk', ht', hname'⟩ := (h t).mp rfl
        -- a type knows its kit
        obtain rfl : k = k' := List.inj_on_of_nodup_map env.ids hk hk'
          ((env.kit_of k hk t ht).symm.trans (env.kit_of k' hk' t ht'))
        refine ⟨fun t' h' => ?_, fun hnone => by simp [hfirst] at hnone⟩
        obtain rfl : t = t' := Option.some.inj (hfirst.symm.trans h')
        exact hname.mp hname'
      · intro hfinds t'
        have hq := hname.mpr (hfinds.found t hfirst)
        constructor
        · intro heq
          obtain rfl := Option.some.inj heq
          exact ⟨k, hk, ht, hq⟩
        · rintro ⟨k', hk', ht', hq'⟩
          have hone := hparts k hk t hq
          have htwo := hparts k' hk' t' hq'
          rw [(env.unique hk hk' ht ht' (hone.1.trans htwo.1.symm)
            (hone.2.2.trans htwo.2.2.symm)).2]
  | none =>
      have hnone := List.find?_eq_none.mp hfirst
      constructor
      · intro h
        refine ⟨fun t ht => by simp [hfirst] at ht, fun _ => Or.inr fun k' hk' _ t ht hname => ?_⟩
        have hsome := (h t).mpr ⟨k', hk', ht, hname⟩
        cases hsome
      · intro hfinds t
        refine iff_of_false (by simp) ?_
        rintro ⟨k', hk', ht, hq⟩
        rcases hfinds.missed hfirst with hlenk | hnot
        · -- the kit of the name is the one found, and the type of the name is taken
          have hprefix : q.text.take c = k.name.text := hpre.eq_of_length (by
            rw [List.length_take, Str.text_length, Str.text_length, hlenk]
            omega)
          obtain ⟨hkit, hcolon, htype⟩ := hparts k' hk' t hq
          obtain rfl : k = k' := List.inj_on_of_nodup_map env.names hk hk'
            (hkit.trans hprefix).symm
          have hnext : c + 2 ≤ q.len := by
            by_contra hover
            have hend : c + 1 = q.len := by omega
            rw [hend, q.terminated] at hcolon
            exact absurd hcolon (by decide)
          refine hnone t ht ?_
          rw [decide_eq_true_iff, typeRegion, Str.region_eq hnext, ← htype]
          by_cases hfull : 100 - (c + 2) ≤ t.name.text.length
          · exact Or.inr ⟨List.length_take_of_le hfull, List.take_prefix _ _⟩
          · exact Or.inl (List.take_of_length_le (not_le.mp hfull).le)
        · exact hnot k' hk' (hlen k' hk' t hq) t ht hq

/-- **The lookup of a qualified name is exact** where the condition holds, and nowhere else. -/
theorem findType_exact_iff (env : Installed) (q : Str) :
    (∀ t, findType env.kits q = some t ↔ Qualified env.kits q t) ↔ Exact env.kits q := by
  cases hc : q.index colon with
  | none =>
      refine iff_of_true (fun t => ?_) fun c hsome => by simp [hc] at hsome
      rw [findType_of_no_colon hc]
      exact iff_of_false (by simp) (not_qualified_of_no_colon hc t)
  | some c =>
      have hkitName : ∀ k ∈ env.kits, ∀ t, IsName q k t → k.name.text = q.text.take c :=
        fun k hk t h => ((isName_iff hc (env.no_colon k hk)).mp h).1
      rw [findType_of_index hc]
      cases hkit : firstKit env.kits q c with
      | none =>
          refine iff_of_true (fun t => ?_) fun c' hc' k hk => ?_
          · refine iff_of_false (by simp) ?_
            rintro ⟨k, hk, -, hname⟩
            have hnone := List.find?_eq_none.mp hkit k hk
            exact hnone (by rw [hkitName k hk t hname]; simp)
          · obtain rfl : c = c' := Option.some.inj (hc.symm.trans hc')
            rw [hkit] at hk
            cases hk
      | some k =>
          have hmem : k ∈ env.kits := List.mem_of_find?_eq_some hkit
          have hpre : q.text.take c <+: k.name.text := by
            simpa using List.find?_some hkit
          have hone : Exact env.kits q ↔ Finds env.kits q c k := by
            constructor
            · exact fun h => h c hc k hkit
            · rintro h c' hc' k' hk'
              obtain rfl : c = c' := Option.some.inj (hc.symm.trans hc')
              obtain rfl : k = k' := Option.some.inj (hkit.symm.trans hk')
              exact h
          rw [hone, Option.bind_some]
          exact firstType_exact_iff env hc hmem hpre

/-- **`equalsRegion` is the comparison of a whole string with a region** but where the region is a
full one that the string starts with and does not end with. -/
theorem equalsRegion_exact_iff (this that : Str) (start stop : ℕ) :
    (this.equalsRegion that start stop = true ↔ that.region start (stop - start) = this.text) ↔
      ¬ ((that.region start (stop - start)).length = stop - start ∧
        that.region start (stop - start) <+: this.text ∧
        that.region start (stop - start) ≠ this.text) := by
  rw [Str.equalsRegion_iff, Str.Starts]
  constructor
  · rintro h ⟨hfull, hpre, hne⟩
    exact hne (h.mp (Or.inr ⟨hfull, hpre⟩))
  · intro h
    refine ⟨?_, Or.inl⟩
    rintro (heq | ⟨hfull, hpre⟩)
    · exact heq
    · by_contra hne
      exact h ⟨hfull, hpre, hne⟩

/-- **Where the lookup is exact**: the comparison of strings with regions, and the types that are
found by their qualified names. -/
theorem lookup_exact_iff (this that : Str) (start stop : ℕ) (env : Installed) (q : Str) :
    ((this.equalsRegion that start stop = true ↔ that.region start (stop - start) = this.text) ↔
      ¬ ((that.region start (stop - start)).length = stop - start ∧
        that.region start (stop - start) <+: this.text ∧
        that.region start (stop - start) ≠ this.text)) ∧
    ((∀ t, findType env.kits q = some t ↔ Qualified env.kits q t) ↔ Exact env.kits q) :=
  ⟨equalsRegion_exact_iff this that start stop, findType_exact_iff env q⟩

/-- A string with nothing but zeros behind it. -/
def Str.ofList (cs : List (BitVec 8)) (h : ∀ c ∈ cs, c ≠ 0#8) : Str where
  buf i := cs.getD i 0#8
  len := cs.length
  char_ne i hi := by
    rw [List.getD_eq_getElem _ _ hi]
    exact h _ (List.getElem_mem hi)
  terminated := List.getD_eq_default _ _ (Nat.le_refl _)

/-- The type `T` of the kit `ab`. -/
def typeT : TypeDef := ⟨0, Str.ofList [84#8] (by decide)⟩

/-- One installed kit, `ab`, with one type, `T`. -/
def kitAb : Installed where
  kits := [⟨0, Str.ofList [97#8, 98#8] (by decide), [typeT]⟩]
  ids := by simp
  names := by simp
  no_colon := by
    intro k hk
    obtain rfl := List.mem_singleton.mp hk
    decide
  kit_of := by
    intro k hk t ht
    obtain rfl := List.mem_singleton.mp hk
    obtain rfl := List.mem_singleton.mp ht
    rfl
  type_names := by
    intro k hk
    obtain rfl := List.mem_singleton.mp hk
    simp

/-- `a::T` is found in the kit `ab`. -/
theorem not_lookup_exact :
    ¬ ∀ (env : Installed) (q : Str) (t : TypeDef),
      findType env.kits q = some t ↔ Qualified env.kits q t := by
  intro h
  have hfound : findType kitAb.kits (Str.ofList [97#8, 58#8, 58#8, 84#8] (by decide)) =
      some typeT := rfl
  obtain ⟨k, hk, -, hname⟩ := (h _ _ _).mp hfound
  obtain rfl := List.mem_singleton.mp hk
  have hlen := congrArg List.length hname
  revert hlen
  decide

end Sedona.FindType
