import Mathlib.Algebra.GroupWithZero.Nat
import Mathlib.Algebra.Order.BigOperators.Group.List
import Sedona.Kits.DependMatch

/-!
# The Round Trip of Dependencies

The text of a dependency is that of its canonical layout, without spaces and with the digits of the
numbers, as long as no segment is negative. A minus sign is not part of the grammar, only the hyphen of
a range is: a text with a negative segment has more of them than ranges.

## Main results

* `parse_toString_iff`: when the text of a dependency is parsed to the same one.
* `depend_iff`: when parsing, the round trip and matching are as documented.
-/

namespace Sedona.Depend

open Spans

/-! ### The digits of a number -/

theorem isDigit_digitChar : ∀ d < 10, isDigit d.digitChar = true := by decide

theorem digit_digitChar : ∀ d < 10, digit d.digitChar = BitVec.ofNat 32 d := by decide

theorem hexDigit_digitChar : ∀ d < 16, hexDigit d.digitChar = some (BitVec.ofNat 32 d) := by decide

theorem number_toDigits (n : ℕ) : number (Nat.toDigits 10 n) = BitVec.ofNat 32 n := by
  refine foldl_toDigits (by decide) (BitVec.ofNat 32) (fun n d hd => ?_) n
  rw [digit_digitChar d hd, BitVec.ofNat_add, BitVec.ofNat_mul]
  rfl

theorem hexNumber_toDigits (n : ℕ) : hexNumber (Nat.toDigits 16 n) = BitVec.ofNat 32 n := by
  refine foldl_toDigits (by decide) (BitVec.ofNat 32) (fun n d hd => ?_) n
  have hshift : BitVec.ofNat 32 n <<< 4 = BitVec.ofNat 32 (n <<< 4) := by
    apply BitVec.eq_of_toNat_eq
    simp [BitVec.toNat_shiftLeft, Nat.shiftLeft_eq]
  have hor : n <<< 4 ||| d = n * 16 + d := by
    rw [← Nat.shiftLeft_add_eq_or_of_lt hd, Nat.shiftLeft_eq]
  rw [hexDigit_digitChar d hd, Option.getD_some, hshift, ← BitVec.ofNat_or, hor]

/-! ### Canonical layouts -/

/-- The digits of an int that is not negative. -/
def numeral (x : BitVec 32) : List Char := Nat.toDigits 10 x.toNat

theorem numeral_digits (x : BitVec 32) : ∀ c ∈ numeral x, isDigit c = true :=
  forall_mem_toDigits (by decide) isDigit_digitChar _

@[simp] theorem number_numeral (x : BitVec 32) : number (numeral x) = x := by
  rw [numeral, number_toDigits, BitVec.ofNat_toNat, BitVec.setWidth_eq]

theorem toDigits_ne_nil (b n : ℕ) : Nat.toDigits b n ≠ [] := by
  have h := Nat.length_toDigits_pos (b := b) (n := n)
  exact List.ne_nil_of_length_pos h

/-- The same segments without leading zeros. -/
def Segs.canon (s : Segs) : Segs where
  first := numeral (number s.first)
  rest := s.rest.map fun d => numeral (number d)
  first_ne := toDigits_ne_nil _ _
  first_digits := numeral_digits _
  rest_digits := by
    rw [List.forall_mem_map]
    exact fun d _ => numeral_digits _

def Tail.canon : Tail → Tail
  | plain => plain
  | plus _ => plus 0
  | exact _ => exact 0
  | range _ last _ => range 0 last.canon 0

/-- The digits of a checksum, without leading zeros. -/
def Hex.numeral (x : BitVec 32) : Hex :=
  ⟨Nat.toDigits 16 x.toNat, forall_mem_toDigits (by decide)
    (fun d hd => by rw [hexDigit_digitChar d hd]; rfl) _⟩

def Item.canon : Item → Item
  | checksum digits _ => checksum (Hex.numeral (hexNumber digits.1)) 0
  | version segs _ tail => version segs.canon 0 tail.canon

def Layout.canon (l : Layout) : Layout :=
  { l with gap := 0, first := l.first.canon, rest := l.rest.map fun p => (0, p.2.canon) }

@[simp] theorem Segs.value_canon (s : Segs) : s.canon.value = s.value := by
  simp [Segs.value, Segs.canon]

@[simp] theorem Tail.value_canon (t : Tail) (v : Version) : t.canon.value v = t.value v := by
  cases t <;> simp [Tail.canon, Tail.value]

@[simp] theorem Item.value_canon (i : Item) : i.canon.value = i.value := by
  cases i with
  | checksum digits n =>
    simp [Item.canon, Item.value, Hex.numeral, hexNumber_toDigits]
  | version s n t => simp [Item.canon, Item.value]

theorem Layout.items_canon (l : Layout) : l.canon.items = l.items.map Item.canon := by
  simp [Layout.items, Layout.canon]

theorem Layout.value_canon (l : Layout) : l.canon.value = l.value := by
  rw [Layout.value, Layout.value, l.items_canon]
  simp [Layout.canon]

theorem Segs.fits_canon {s : Segs} (h : s.Fits) : s.canon.Fits := by
  simpa [Segs.Fits, Segs.canon] using h

theorem Item.fits_canon {i : Item} (h : i.Fits) : i.canon.Fits := by
  rcases i with ⟨digits, n⟩ | ⟨s, n, _ | _ | _ | ⟨m, last, k⟩⟩
  · rfl
  · exact ⟨Segs.fits_canon h.1, trivial⟩
  · exact ⟨Segs.fits_canon h.1, trivial⟩
  · exact ⟨Segs.fits_canon h.1, trivial⟩
  · exact ⟨Segs.fits_canon h.1, Segs.fits_canon h.2⟩

theorem Layout.fits_canon {l : Layout} (h : l.Fits) : l.canon.Fits := by
  rw [Layout.Fits, l.items_canon, List.forall_mem_map]
  exact fun i hi => Item.fits_canon (h i hi)

/-! ### The text of a canonical layout -/

/-- No segment is negative. -/
def VersionNonneg (v : Version) : Prop := ∀ x ∈ v.versions, 0 ≤ x.toInt

def ConstraintNonneg (c : Constraint) : Prop :=
  (∀ v, c.version = some v → VersionNonneg v) ∧ ∀ v, c.endVersion = some v → VersionNonneg v

/-- No segment of a version in the dependency is negative. -/
def Nonneg (d : Depend) : Prop := ∀ c ∈ d.constraints, ConstraintNonneg c

theorem intChars_eq {x : BitVec 32} (h : 0 ≤ x.toInt) : Version.intChars x = numeral x := by
  have habs : x.toInt.natAbs = x.toNat := by
    rw [BitVec.toInt_eq_toNat_bmod] at h ⊢
    rw [Int.bmod_def] at h ⊢
    have hlt := x.isLt
    omega
  rw [Version.intChars, if_neg (by omega), habs, numeral]

theorem version_toString_eq {s : Segs} (h : VersionNonneg s.value) :
    s.value.toString = s.canon.chars := by
  have hall : ∀ x ∈ number s.first :: s.rest.map number, 0 ≤ x.toInt := h
  rw [List.forall_mem_cons, List.forall_mem_map] at hall
  have hrest : (s.rest.map number).flatMap (fun y => '.' :: Version.intChars y) =
      dotted (s.rest.map fun d => numeral (number d)) := by
    rw [dotted, List.flatMap_map, List.flatMap_map]
    exact List.flatMap_congr fun d hd => by rw [intChars_eq (hall.2 d hd)]
  have hfirst : s.value.toString = Version.intChars (number s.first) ++
    (s.rest.map number).flatMap fun y => '.' :: Version.intChars y := rfl
  rw [hfirst, hrest, intChars_eq hall.1]
  rfl

theorem constraintChars_eq {i : Item} (h : ConstraintNonneg i.value) :
    constraintChars i.value = i.canon.chars := by
  rcases i with ⟨digits, n⟩ | ⟨s, n, _ | _ | _ | ⟨m, last, k⟩⟩
  · simp [constraintChars, Item.value, Item.canon, Item.chars, Hex.numeral, spaces]
  · have hs := version_toString_eq (h.1 _ rfl)
    simp [constraintChars, Item.value, Tail.value, Item.canon, Tail.canon, Item.chars, Tail.chars,
      spaces, hs]
  · have hs := version_toString_eq (h.1 _ rfl)
    simp [constraintChars, Item.value, Tail.value, Item.canon, Tail.canon, Item.chars, Tail.chars,
      spaces, hs]
  · have hs := version_toString_eq (h.1 _ rfl)
    simp [constraintChars, Item.value, Tail.value, Item.canon, Tail.canon, Item.chars, Tail.chars,
      spaces, hs]
  · have hs := version_toString_eq (h.1 _ rfl)
    have hlast := version_toString_eq (h.2 _ rfl)
    simp [constraintChars, Item.value, Tail.value, Item.canon, Tail.canon, Item.chars, Tail.chars,
      spaces, hs, hlast]

theorem toString_value (l : Layout) : l.value.toString =
    l.name ++ ' ' :: (constraintChars l.first.value ++
      l.rest.flatMap fun p => ',' :: constraintChars p.2.value) := by
  simp [toString, Layout.value, Layout.items, List.flatMap_map]

/-- The text is that of the canonical layout. -/
theorem toString_eq {l : Layout} (h : l.value.Nonneg) : l.value.toString = l.canon.chars := by
  have hitems : ∀ i ∈ l.items, ConstraintNonneg i.value := by
    intro i hi
    exact h i.value (List.mem_map_of_mem hi)
  rw [Layout.items, List.forall_mem_cons, List.forall_mem_map] at hitems
  have hrest : (l.rest.flatMap fun p => ',' :: constraintChars p.2.value) = listed l.canon.rest := by
    rw [listed, Layout.canon, List.flatMap_map]
    exact List.flatMap_congr fun p hp => by rw [constraintChars_eq (hitems.2 p hp)]; rfl
  rw [toString_value, hrest, constraintChars_eq hitems.1]
  rfl

/-! ### Minus signs and hyphens -/

/-- The number of negative segments. -/
def versionSigns (v : Version) : ℕ := v.versions.countP fun x => x.toInt < 0

def signs (c : Constraint) : ℕ := c.version.elim 0 versionSigns + c.endVersion.elim 0 versionSigns

/-- The number of hyphens of a range. -/
def hyphens (c : Constraint) : ℕ := if c.endVersion.isSome then 1 else 0

theorem versionNonneg_iff {v : Version} : VersionNonneg v ↔ versionSigns v = 0 := by
  simp [VersionNonneg, versionSigns, List.countP_eq_zero]

theorem constraintNonneg_iff {c : Constraint} : ConstraintNonneg c ↔ signs c = 0 := by
  rw [ConstraintNonneg, signs, Nat.add_eq_zero_iff]
  refine and_congr ?_ ?_
  · cases c.version <;> simp [versionNonneg_iff]
  · cases c.endVersion <;> simp [versionNonneg_iff]

theorem count_toDigits {b : ℕ} (hb : 1 < b) (hd : ∀ d < b, d.digitChar ≠ '-') (n : ℕ) :
    (Nat.toDigits b n).count '-' = 0 := by
  have hall := forall_mem_toDigits (P := fun c => c ≠ '-') hb hd n
  exact List.count_eq_zero.mpr fun h => hall '-' h rfl

theorem count_intChars (x : BitVec 32) :
    (Version.intChars x).count '-' = if x.toInt < 0 then 1 else 0 := by
  have hdigits := count_toDigits (b := 10) (by decide) (by decide) x.toInt.natAbs
  rw [Version.intChars]
  split_ifs with h
  · rw [List.count_cons_self, hdigits]
  · exact hdigits

theorem count_version (v : Version) : v.toString.count '-' = versionSigns v := by
  rw [Version.toString, versionSigns]
  cases v.versions with
  | nil => rfl
  | cons x xs =>
    have hrest : (xs.flatMap fun y => '.' :: Version.intChars y).count '-' =
        xs.countP fun x => x.toInt < 0 := by
      induction xs with
      | nil => rfl
      | cons y ys ih =>
        rw [List.flatMap_cons, List.count_append, ih, List.countP_cons,
          List.count_cons_of_ne (by decide), count_intChars]
        simp [Nat.add_comm]
    rw [List.count_append, hrest, count_intChars, List.countP_cons]
    simp [Nat.add_comm]

/-- In the text of a constraint there are the signs and the hyphens. -/
theorem count_constraint (i : Item) :
    (constraintChars i.value).count '-' = hyphens i.value + signs i.value := by
  rcases i with ⟨digits, n⟩ | ⟨s, n, _ | _ | _ | ⟨m, last, k⟩⟩
  · have hdigits := count_toDigits (b := 16) (by decide) (by decide) (hexNumber digits.1).toNat
    simp [constraintChars, Item.value, hyphens, signs, hdigits]
  · simp [constraintChars, Item.value, Tail.value, hyphens, signs, count_version]
  · simp [constraintChars, Item.value, Tail.value, hyphens, signs, count_version]
  · simp [constraintChars, Item.value, Tail.value, hyphens, signs, count_version]
  · simp [constraintChars, Item.value, Tail.value, hyphens, signs, count_version]
    omega

theorem count_spaces (n : ℕ) : (spaces n).count '-' = 0 := by
  rw [List.count_eq_zero]
  intro h
  cases List.eq_of_mem_replicate h

theorem count_segs (s : Segs) : s.chars.count '-' = 0 := by
  rw [List.count_eq_zero, Segs.chars, List.mem_append, dotted, List.mem_flatMap]
  rintro (h | ⟨d, hd, h⟩)
  · cases s.first_digits _ h
  · rcases List.mem_cons.mp h with h | h
    · cases h
    · cases s.rest_digits d hd _ h

/-- In a layout there are the hyphens only. -/
theorem count_item (i : Item) : i.chars.count '-' = hyphens i.value := by
  rcases i with ⟨digits, n⟩ | ⟨s, n, _ | _ | _ | ⟨m, last, k⟩⟩
  · have hdigits : digits.1.count '-' = 0 :=
      List.count_eq_zero.mpr fun h => by cases digits.2 _ h
    simp [Item.chars, Item.value, hyphens, count_spaces, hdigits]
  · simp [Item.chars, Tail.chars, Item.value, Tail.value, hyphens, count_spaces, count_segs]
  · simp [Item.chars, Tail.chars, Item.value, Tail.value, hyphens, count_spaces, count_segs]
  · simp [Item.chars, Tail.chars, Item.value, Tail.value, hyphens, count_spaces, count_segs]
  · simp [Item.chars, Tail.chars, Item.value, Tail.value, hyphens, count_spaces, count_segs]

/-- A count over the items behind the first one. -/
theorem count_items {f : ℕ × Item → List Char} {k : Item → ℕ}
    (hf : ∀ p, (f p).count '-' = k p.2) (rest : List (ℕ × Item)) :
    (rest.flatMap fun p => ',' :: f p).count '-' = (rest.map fun p => k p.2).sum := by
  rw [List.count_flatMap]
  congr 1
  refine List.map_congr_left fun p _ => ?_
  rw [Function.comp_apply, List.count_cons_of_ne (by decide), hf]

theorem count_layout (l : Layout) : l.chars.count '-' =
    l.name.count '-' + (l.value.constraints.map hyphens).sum := by
  have hrest := count_items (f := fun p => spaces p.1 ++ p.2.chars)
    (k := fun i => hyphens i.value) (fun p => by simp [count_spaces, count_item]) l.rest
  have hitems : l.value.constraints.map hyphens =
      hyphens l.first.value :: l.rest.map fun p => hyphens p.2.value := by
    simp [Layout.value, Layout.items]
  rw [hitems, Layout.chars, listed, List.count_append, List.count_append, List.count_append, hrest,
    count_spaces, count_item, List.sum_cons, Nat.zero_add]

theorem count_toString (l : Layout) : l.value.toString.count '-' =
    l.name.count '-' + (l.value.constraints.map fun c => hyphens c + signs c).sum := by
  have hrest := count_items (f := fun p => constraintChars p.2.value)
    (k := fun i => hyphens i.value + signs i.value) (fun p => count_constraint p.2) l.rest
  have hitems : (l.value.constraints.map fun c => hyphens c + signs c) =
      (hyphens l.first.value + signs l.first.value) ::
        l.rest.map fun p => hyphens p.2.value + signs p.2.value := by
    simp [Layout.value, Layout.items]
  rw [hitems, toString_value, List.count_append, List.count_cons_of_ne (by decide),
    List.count_append, hrest, count_constraint, List.sum_cons]

/-- **The round trip**: the text of a dependency is parsed to the same one if no segment is
negative. -/
theorem parse_toString_iff {s : List Char} {d : Depend} (h : parse s = some d) :
    parse d.toString = some d ↔ d.Nonneg := by
  obtain ⟨l, -, hfits, rfl⟩ := exists_layout h
  constructor
  · intro hparse
    obtain ⟨l', htext, -, hvalue⟩ := exists_layout hparse
    have hname : l'.name = l.name := congrArg Depend.name hvalue
    have hcount := congrArg (List.count '-') htext
    rw [count_toString, count_layout, hname, hvalue, List.sum_map_add] at hcount
    have hsum : (l.value.constraints.map signs).sum = 0 := by omega
    have hall := List.sum_eq_zero_iff_forall_eq_nat.mp hsum
    intro c hc
    exact constraintNonneg_iff.mpr (hall _ (List.mem_map_of_mem hc))
  · intro hnonneg
    rw [toString_eq hnonneg, parse_chars, if_pos (Layout.fits_canon hfits), l.value_canon]

/-! ### Parsing, the round trip and matching -/

/-- It is made by `parse` or by `makeChecksum`. -/
def Built (d : Depend) : Prop :=
  (∃ s, parse s = some d) ∨ ∃ name checksum, d = makeChecksum name checksum

theorem Built.made {d : Depend} (h : d.Built) : (∀ c ∈ d.constraints, Made c) ∧
    d.constraints ≠ [] := by
  rcases h with ⟨s, h⟩ | ⟨name, checksum, rfl⟩
  · obtain ⟨l, -, -, rfl⟩ := exists_layout h
    refine ⟨?_, by simp [Layout.value, Layout.items]⟩
    rw [Layout.value, List.forall_mem_map]
    exact fun i _ => Made.of_item i
  · refine ⟨?_, by simp [makeChecksum]⟩
    intro c hc
    rw [List.mem_singleton.mp hc]
    exact .checksum checksum

/-- **Parsing, the round trip and matching**, and when they are as documented: a string, if it has no
layout that is of one grammar and not of the other one; the text of a dependency, if no segment is
negative; and matching, unless the checksum `0xffffffff` is taken for none. -/
theorem depend_iff (s : List Char) (d : Depend) :
    (((∃ d, parse s = some d) ↔ Documented s) ↔ ∀ l : Layout, s = l.chars → (l.Fits ↔ l.Proper)) ∧
      (parse s = some d → (parse d.toString = some d ↔ d.Nonneg)) ∧
      (d.Built → ∀ v checksum, (d.isMatch (some v) checksum = true ↔ d.DocumentedMatch v checksum) ↔
        ¬d.Confused v checksum) := by
  refine ⟨parse_iff_documented_iff s, parse_toString_iff, fun h v checksum => ?_⟩
  exact isMatch_iff h.made.1 h.made.2 v checksum

/-- A version and a range behind the name `a`. -/
theorem depend_iff_range : ∃ d, parse ['a', ' ', '1', ',', '2', '-', '3', '.', '4'] = some d ∧
    parse d.toString = some d ∧
    (d.isMatch (some ⟨[3, 4, 5]⟩) 7 = true ↔ d.DocumentedMatch ⟨[3, 4, 5]⟩ 7) := by
  have hparse : parse ['a', ' ', '1', ',', '2', '-', '3', '.', '4'] = some ⟨['a'],
      [{ version := some ⟨[1]⟩ }, { version := some ⟨[2]⟩, endVersion := some ⟨[3, 4]⟩ }]⟩ := by
    decide +kernel
  obtain ⟨-, hround, hmatch⟩ := depend_iff ['a', ' ', '1', ',', '2', '-', '3', '.', '4'] ⟨['a'],
      [{ version := some ⟨[1]⟩ }, { version := some ⟨[2]⟩, endVersion := some ⟨[3, 4]⟩ }]⟩
  refine ⟨_, hparse, (hround hparse).mpr ?_, (hmatch (.inl ⟨_, hparse⟩) _ _).mpr ?_⟩
  · simp [Nonneg, ConstraintNonneg, VersionNonneg]
  · simp [Confused, OnOnes]

/-- `1.1.1.1.1.1.1.1.1`. -/
def nineSegs : Segs where
  first := ['1']
  rest := List.replicate 8 ['1']
  first_ne := List.cons_ne_nil _ _
  first_digits c hc := by
    rw [List.mem_singleton.mp hc]
    rfl
  rest_digits s hs c hc := by
    rw [List.eq_of_mem_replicate hs] at hc
    rw [List.mem_singleton.mp hc]
    rfl

theorem documented_nineSegs : Documented ("a 1.1.1.1.1.1.1.1.1".toList) := by
  have hname : ∀ c ∈ ['a'], (c != ' ') = true := by
    intro c hc
    rw [List.mem_singleton.mp hc]
    rfl
  refine ⟨⟨['a'], 0, .version nineSegs 0 .plain, [], List.cons_ne_nil _ _, hname⟩, rfl, ?_, ?_⟩
  · intro i hi
    rw [List.mem_singleton.mp hi]
    refine ⟨fun d hd => ?_, trivial⟩
    rw [List.eq_of_mem_replicate hd]
    exact List.cons_ne_nil _ _
  · intro i hi
    cases hi
    rfl

/-- A version of nine segments is not parsed, a segment of 4294967295 is -1 in the text, and with the
checksum `0xffffffff`, all other ones are met. -/
theorem not_depend_iff :
    (¬((∃ d, parse ("a 1.1.1.1.1.1.1.1.1".toList) = some d) ↔
        Documented ("a 1.1.1.1.1.1.1.1.1".toList))) ∧
      (∃ d, parse ("a 4294967295".toList) = some d ∧ parse d.toString ≠ some d) ∧
      ∃ d, parse ("a 1,0xffffffff".toList) = some d ∧
        ¬(d.isMatch (some ⟨[1]⟩) 5 = true ↔ d.DocumentedMatch ⟨[1]⟩ 5) := by
  have hsegs : parse ("a 1.1.1.1.1.1.1.1.1".toList) = none := by decide +kernel
  have hminus : parse ("a 4294967295".toList) =
      some ⟨['a'], [{ version := some ⟨[-1]⟩ }]⟩ := by decide +kernel
  have htext : parse (toString ⟨['a'], [{ version := some ⟨[-1]⟩ }]⟩) = none := by decide +kernel
  have hones : parse ("a 1,0xffffffff".toList) =
      some ⟨['a'], [{ version := some ⟨[1]⟩ }, { checksum := -1 }]⟩ := by decide +kernel
  refine ⟨fun h => ?_, ⟨_, hminus, fun h => ?_⟩, _, hones, fun h => ?_⟩
  · obtain ⟨d, hd⟩ := h.mpr documented_nineSegs
    rw [hsegs] at hd
    cases hd
  · rw [htext] at h
    cases h
  · obtain ⟨c, hc, hversion, hchecksum⟩ := (h.mp (by decide +kernel)).1
      (.inr ⟨_, .tail _ (.head _), rfl, rfl⟩)
    simp only [List.mem_cons, List.not_mem_nil, or_false] at hc
    rcases hc with rfl | rfl
    · cases hversion
    · exact absurd hchecksum (by decide)

end Sedona.Depend
