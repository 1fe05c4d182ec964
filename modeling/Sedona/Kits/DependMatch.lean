import Sedona.Kits.DependText

/-!
# What Dependencies Match

The rules for versions are stated for lists of integers in lexicographic order. The checksum -1
stands for no checksum in a constraint and in a call, so that it cannot be told from the checksum
`0xffffffff`.

## Main results

* `matchVersion_iff`: the rules for versions.
* `isMatch_iff`: when a dependency matches as documented.
-/

namespace Sedona

namespace Version

/-- The segments as integers. -/
def segs (v : Version) : List ℤ := v.versions.map BitVec.toInt

/-- The first version does not come after the other one: they are compared segment by segment, and a
prefix comes first. -/
def NotAfter (xs ys : List ℤ) : Prop := xs = ys ∨ List.Lex (· < ·) xs ys

theorem notAfter_cons {x y : ℤ} {xs ys : List ℤ} :
    NotAfter (x :: xs) (y :: ys) ↔ x < y ∨ x = y ∧ NotAfter xs ys := by
  rw [NotAfter, NotAfter, List.cons_lex_cons_iff, List.cons.injEq]
  constructor
  · rintro (⟨hxy, htail⟩ | hlt | ⟨hxy, htail⟩)
    · exact .inr ⟨hxy, .inl htail⟩
    · exact .inl hlt
    · exact .inr ⟨hxy, .inr htail⟩
  · rintro (hlt | ⟨hxy, htail | htail⟩)
    · exact .inr (.inl hlt)
    · exact .inl ⟨hxy, htail⟩
    · exact .inr (.inr ⟨hxy, htail⟩)

theorem compareFrom_cases (xs ys : List (BitVec 32)) :
    (compareFrom xs ys ≤ 0 ↔ NotAfter (xs.map BitVec.toInt) (ys.map BitVec.toInt)) ∧
      (0 ≤ compareFrom xs ys ↔ NotAfter (ys.map BitVec.toInt) (xs.map BitVec.toInt)) ∧
      (compareFrom xs ys = 0 ↔ xs.map BitVec.toInt = ys.map BitVec.toInt) := by
  induction xs generalizing ys with
  | nil =>
    cases ys with
    | nil => simp [compareFrom, NotAfter]
    | cons y ys => simp [compareFrom, NotAfter]
  | cons x xs ih =>
    cases ys with
    | nil => simp [compareFrom, NotAfter]
    | cons y ys =>
      obtain ⟨hle, hge, heq⟩ := ih ys
      simp only [compareFrom, List.map_cons, notAfter_cons, List.cons.injEq, BitVec.slt]
      rcases Int.lt_trichotomy x.toInt y.toInt with h | h | h
      · have hnot : ¬y.toInt < x.toInt := by omega
        have hne : x.toInt ≠ y.toInt := by omega
        simp [h, hnot, hne, hne.symm]
      · simp [h, hle, hge, heq]
      · have hnot : ¬x.toInt < y.toInt := by omega
        have hne : x.toInt ≠ y.toInt := by omega
        simp [h, hnot, hne, hne.symm]

theorem compareTo_le_iff {a b : Version} : a.compareTo b ≤ 0 ↔ NotAfter a.segs b.segs :=
  (compareFrom_cases _ _).1

theorem le_compareTo_iff {a b : Version} : 0 ≤ a.compareTo b ↔ NotAfter b.segs a.segs :=
  (compareFrom_cases _ _).2.1

theorem compareTo_eq_iff {a b : Version} : a.compareTo b = 0 ↔ a.segs = b.segs :=
  (compareFrom_cases _ _).2.2

end Version

namespace Depend

theorem zip_iff (xs ys : List (BitVec 32)) :
    (xs.length ≤ ys.length && (xs.zip ys).all fun p => p.1 == p.2) = true ↔ xs <+: ys := by
  induction xs generalizing ys with
  | nil => simp
  | cons x xs ih =>
    cases ys with
    | nil => simp
    | cons y ys =>
      have htail := ih ys
      simp only [Bool.and_eq_true, decide_eq_true_eq] at htail
      simp only [List.length_cons, Nat.add_le_add_iff_right, List.zip_cons_cons, List.all_cons,
        Bool.and_eq_true, decide_eq_true_eq, beq_iff_eq, List.cons_prefix_cons, ← htail]
      constructor
      · rintro ⟨hlen, hxy, hall⟩
        exact ⟨hxy, hlen, hall⟩
      · rintro ⟨hxy, hlen, hall⟩
        exact ⟨hlen, hxy, hall⟩

theorem doMatch_iff {a b : Version} : doMatch a b = true ↔ a.segs <+: b.segs := by
  rw [doMatch, zip_iff, Version.segs, Version.segs]
  exact (List.prefix_map_iff_of_injective fun x y h => BitVec.eq_of_toInt_eq h).symm

/-! ### The rules for versions -/

/-- The version meets the constraint: a plain version is a prefix of it, one with a plus is not after
it, one with an equals sign is the same, and of a range, the first version is not after it, and the last
one is not before it or a prefix of it. -/
def Admits (c : Constraint) (v : Version) : Prop :=
  ∃ start, c.version = some start ∧
    (c.isPlus = true → Version.NotAfter start.segs v.segs) ∧
    (c.isExact = true → start.segs = v.segs) ∧
    (∀ last, c.endVersion = some last →
      Version.NotAfter start.segs v.segs ∧
        (Version.NotAfter v.segs last.segs ∨ last.segs <+: v.segs)) ∧
    (c.isPlus = false → c.isExact = false → c.endVersion = none → start.segs <+: v.segs)

/-- The constraints that the parser makes: one on the checksum, or one on the version of a single
kind. -/
inductive Made : Constraint → Prop
  | checksum (checksum : BitVec 32) : Made { checksum }
  | plain (version : Version) : Made { version }
  | plus (version : Version) : Made { version, isPlus := true }
  | exact (version : Version) : Made { version, isExact := true }
  | range (version endVersion : Version) : Made { version, endVersion }

theorem Made.of_item (i : Item) : Made i.value := by
  rcases i with ⟨digits, n⟩ | ⟨segs, n, _ | _ | _ | _⟩
  · exact .checksum _
  · exact .plain _
  · exact .plus _
  · exact .exact _
  · exact .range _ _

/-- **The rules for versions.** -/
theorem matchVersion_iff {c : Constraint} (h : Made c) (v : Version) :
    matchVersion c v = true ↔ Admits c v := by
  cases h with
  | checksum checksum => simp [matchVersion, Admits]
  | plain version => simp [matchVersion, Admits, doMatch_iff]
  | plus version => simp [matchVersion, Admits, Version.compareTo_le_iff]
  | exact version => simp [matchVersion, Admits, Version.compareTo_eq_iff]
  | range version endVersion =>
    simp [matchVersion, Admits, doMatch_iff, Version.compareTo_le_iff, Version.le_compareTo_iff]

/-- Constraints on the version have the checksum -1. -/
theorem Made.checksum_eq {c : Constraint} (h : Made c) (hc : c.version ≠ none) :
    c.checksum = -1 := by
  cases h with
  | checksum checksum => exact absurd rfl hc
  | _ => rfl

/-! ### Matching -/

/-- The variables of `match` behind its loop. -/
theorem foldl_matchTurn (cs : List Constraint) (v : Version) (checksum : BitVec 32) (t : Tests) :
    cs.foldl (matchTurn (some v) checksum) t =
      { verTest := t.verTest || cs.any fun c => c.checksum = -1
        checksumTest := if cs.any fun c => c.checksum ≠ -1 then checksum ≠ -1 else t.checksumTest
        verMatch := t.verMatch || cs.any (matchVersion · v)
        checksumMatch := t.checksumMatch ||
          cs.any fun c => checksum ≠ -1 && matchChecksum c checksum } := by
  induction cs generalizing t with
  | nil => simp
  | cons c cs ih =>
    rw [List.foldl_cons, ih]
    simp only [matchTurn, List.any_cons]
    generalize (-1 : BitVec 32) = m
    by_cases hc : c.checksum = m
    · simp [hc, Bool.or_assoc]
    · simp [hc, Bool.or_assoc]

/-- `match` in terms of the constraints. -/
theorem isMatch_eq (d : Depend) (v : Version) (checksum : BitVec 32) :
    d.isMatch (some v) checksum = true ↔
      ((d.constraints.any fun c => c.checksum = -1) = true →
        (d.constraints.any (matchVersion · v)) = true ∧
          ((d.constraints.any fun c => c.checksum ≠ -1) = true → checksum ≠ -1 →
            (d.constraints.any fun c => checksum ≠ -1 && matchChecksum c checksum) = true)) ∧
      (¬(d.constraints.any fun c => c.checksum = -1) = true →
        (d.constraints.any fun c => checksum ≠ -1 && matchChecksum c checksum) = true) := by
  rw [isMatch, foldl_matchTurn]
  generalize (-1 : BitVec 32) = one
  simp only [Bool.false_or]
  generalize (d.constraints.any fun c => decide (c.checksum = one)) = a
  generalize (d.constraints.any fun c => decide (c.checksum ≠ one)) = b
  generalize (d.constraints.any fun c => decide (checksum ≠ one) && matchChecksum c checksum) = m
  generalize (d.constraints.any (matchVersion · v)) = n
  by_cases hck : checksum = one
  · cases a <;> cases b <;> simp [hck]
  · cases a <;> cases b <;> simp [hck]

section Kinds

variable (d : Depend)

/-- There is a constraint on the version. -/
def OnVersion : Prop := ∃ c ∈ d.constraints, c.version ≠ none

/-- There is a constraint on the checksum other than `0xffffffff`. -/
def OnChecksum : Prop := ∃ c ∈ d.constraints, c.version = none ∧ c.checksum ≠ -1

/-- There is a constraint that the checksum is `0xffffffff`. -/
def OnOnes : Prop := ∃ c ∈ d.constraints, c.version = none ∧ c.checksum = -1

/-- The version meets a constraint. -/
def Admitted (v : Version) : Prop := ∃ c ∈ d.constraints, Admits c v

/-- A constraint is on this checksum. -/
def Demanded (checksum : BitVec 32) : Prop :=
  ∃ c ∈ d.constraints, c.version = none ∧ c.checksum = checksum

end Kinds

/-- The checksum is one of those that the dependency has, and the version meets one of its constraints
on the version; with no constraints of a kind, anything goes. -/
def DocumentedMatch (d : Depend) (v : Version) (checksum : BitVec 32) : Prop :=
  (d.OnChecksum ∨ d.OnOnes → d.Demanded checksum) ∧ (d.OnVersion → d.Admitted v)

/-- The checksum `0xffffffff` is taken for no checksum, which makes a difference: it is asked for, and
there are other constraints on the checksum and one on the version that is met, or there is one on
itself and none on the version; or another checksum is asked for, there is a constraint on
`0xffffffff`, and the version meets one and there are no other constraints on the checksum, or there is
none on the version and another one on the checksum that is met. -/
def Confused (d : Depend) (v : Version) (checksum : BitVec 32) : Prop :=
  if checksum = -1 then
    d.OnChecksum ∧ ¬d.OnOnes ∧ d.Admitted v ∨ d.OnOnes ∧ ¬d.OnVersion
  else
    d.OnOnes ∧ (d.Admitted v ∧ ¬d.OnChecksum ∨ ¬d.OnVersion ∧ d.Demanded checksum)

/-! ### The two cases of `match` -/

section Cases

variable {version other ones admitted demanded : Prop} (hadmitted : admitted → version)
  (hkinds : version ∨ other ∨ ones)

include hadmitted hkinds

/-- No checksum is asked for, or `0xffffffff`. -/
theorem asked_ones :
    (((version ∨ ones → admitted) ∧ (¬(version ∨ ones) → False) ↔
        (other ∨ ones → ones) ∧ (version → admitted)) ↔
      ¬(other ∧ ¬ones ∧ admitted ∨ ones ∧ ¬version)) := by
  by_cases hv : version
  · by_cases ho : ones <;> by_cases ha : admitted <;> simp [hv, ho, ha]
  · have ha : ¬admitted := mt hadmitted hv
    by_cases ho : ones
    · simp [hv, ho, ha]
    · have hk : other := by simpa [hv, ho] using hkinds
      simp [hv, ho, ha, hk]

/-- Another checksum is asked for. -/
theorem asked_other (hother : demanded → other) :
    (((version ∨ ones → admitted ∧ (other → demanded)) ∧ (¬(version ∨ ones) → demanded) ↔
        (other ∨ ones → demanded) ∧ (version → admitted)) ↔
      ¬(ones ∧ (admitted ∧ ¬other ∨ ¬version ∧ demanded))) := by
  by_cases hd : demanded
  · have hk := hother hd
    by_cases hv : version
    · by_cases ho : ones <;> by_cases ha : admitted <;> simp [hv, ho, ha, hd, hk]
    · have ha : ¬admitted := mt hadmitted hv
      by_cases ho : ones <;> simp [hv, ho, ha, hd]
  · by_cases hv : version
    · by_cases ho : ones <;> by_cases ha : admitted <;> by_cases hk : other <;>
        simp [hv, ho, ha, hd, hk]
    · have ha : ¬admitted := mt hadmitted hv
      by_cases ho : ones
      · simp [hv, ho, ha, hd]
      · have hk : other := by simpa [hv, ho] using hkinds
        simp [hv, ho, ha, hd, hk]

end Cases

section Made

variable {d : Depend} (h : ∀ c ∈ d.constraints, Made c)

include h

theorem any_ones_iff : (d.constraints.any fun c => c.checksum = -1) = true ↔
    d.OnVersion ∨ d.OnOnes := by
  simp only [List.any_eq_true, decide_eq_true_eq]
  constructor
  · rintro ⟨c, hc, hone⟩
    by_cases hversion : c.version = none
    · exact .inr ⟨c, hc, hversion, hone⟩
    · exact .inl ⟨c, hc, hversion⟩
  · rintro (⟨c, hc, hversion⟩ | ⟨c, hc, -, hone⟩)
    · exact ⟨c, hc, (h c hc).checksum_eq hversion⟩
    · exact ⟨c, hc, hone⟩

/-- A checksum other than -1 is that of a constraint on the checksum. -/
theorem version_eq_none {c : Constraint} (hc : c ∈ d.constraints) (hne : c.checksum ≠ -1) :
    c.version = none := by
  by_contra hversion
  exact hne ((h c hc).checksum_eq hversion)

theorem any_other_iff : (d.constraints.any fun c => c.checksum ≠ -1) = true ↔ d.OnChecksum := by
  simp only [List.any_eq_true, decide_eq_true_eq]
  constructor
  · rintro ⟨c, hc, hne⟩
    exact ⟨c, hc, version_eq_none h hc hne, hne⟩
  · rintro ⟨c, hc, -, hne⟩
    exact ⟨c, hc, hne⟩

theorem any_version_iff (v : Version) :
    (d.constraints.any (matchVersion · v)) = true ↔ d.Admitted v := by
  simp only [List.any_eq_true]
  constructor
  · rintro ⟨c, hc, hmatch⟩
    exact ⟨c, hc, (matchVersion_iff (h c hc) v).mp hmatch⟩
  · rintro ⟨c, hc, hadmits⟩
    exact ⟨c, hc, (matchVersion_iff (h c hc) v).mpr hadmits⟩

theorem any_checksum_iff (checksum : BitVec 32) :
    (d.constraints.any fun c => checksum ≠ -1 && matchChecksum c checksum) = true ↔
      checksum ≠ -1 ∧ d.Demanded checksum := by
  simp only [List.any_eq_true, Bool.and_eq_true, decide_eq_true_eq, matchChecksum, beq_iff_eq]
  constructor
  · rintro ⟨c, hc, hne, rfl⟩
    exact ⟨hne, c, hc, version_eq_none h hc hne, rfl⟩
  · rintro ⟨hne, c, hc, -, heq⟩
    exact ⟨c, hc, hne, heq⟩

/-- **When a dependency matches** as documented. -/
theorem isMatch_iff (hne : d.constraints ≠ []) (v : Version) (checksum : BitVec 32) :
    (d.isMatch (some v) checksum = true ↔ d.DocumentedMatch v checksum) ↔
      ¬d.Confused v checksum := by
  have hadmitted : d.Admitted v → d.OnVersion := by
    rintro ⟨c, hc, start, hstart, -⟩
    exact ⟨c, hc, by simp [hstart]⟩
  have hkinds : d.OnVersion ∨ d.OnChecksum ∨ d.OnOnes := by
    obtain ⟨c, hc⟩ := List.exists_mem_of_ne_nil d.constraints hne
    by_cases hversion : c.version = none
    · by_cases hone : c.checksum = -1
      · exact .inr (.inr ⟨c, hc, hversion, hone⟩)
      · exact .inr (.inl ⟨c, hc, hversion, hone⟩)
    · exact .inl ⟨c, hc, hversion⟩
  rw [isMatch_eq, any_ones_iff h, any_other_iff h, any_version_iff h, any_checksum_iff h,
    DocumentedMatch, Confused]
  by_cases hck : checksum = -1
  · have hones : d.Demanded checksum ↔ d.OnOnes := by rw [hck]; rfl
    have hnot : ¬checksum ≠ -1 := not_not_intro hck
    rw [if_pos hck, hones]
    simp only [hnot, false_and, false_implies, implies_true, and_true]
    exact asked_ones hadmitted hkinds
  · have hother : d.Demanded checksum → d.OnChecksum := by
      rintro ⟨c, hc, hversion, rfl⟩
      exact ⟨c, hc, hversion, hck⟩
    rw [if_neg hck]
    simp only [ne_eq, hck, not_false_eq_true, true_and, true_implies]
    exact asked_other hadmitted hkinds hother

end Made

end Depend

end Sedona
