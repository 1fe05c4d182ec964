import Mathlib.Logic.Relation
import Sedona.Compiler.FieldLayout

/-!
# Sizes of Types

The sizes that `FieldLayout` computes, without the limits of an `int`: the size of a type is
given in terms of the sizes of its base type and of the types that it has inside (`HasSize`).
A type has a size only if it is not inside of itself, directly or through others.

What the compiler has checked about the fields before is stated here too (`Accepted`).

## Main results

* `HasSize.nonneg`: sizes are not negative.
* `HasSize.acc`: a type with a size is not inside of itself.
-/

namespace Sedona.FieldLayout

open ImageGen (TypeName SlotName)
open Blocks

variable (P : Types) {σ τ : TypeName → ℤ}

/-! ### The room of a field -/

/-- The field is laid out in one of the passes. -/
def isFixed (f : IrField) : Bool :=
  (sizeMatch P f 1).isSome || (sizeMatch P f 2).isSome || (sizeMatch P f 4).isSome

/-- The field is an inlined object or array with room of its own. -/
def isSized (f : IrField) : Bool := !isFixed P f && !f.isConst && f.ctorLengthParam < 0

/-- The length of the array is a parameter of the constructor. -/
def isUnsized (f : IrField) : Bool := !f.isConst && 0 ≤ f.ctorLengthParam

/-- What a field adds to the offset in a pass. -/
def incr (sizeof : ℤ) (f : IrField) : ℤ := (sizeMatch P f sizeof).getD 0

/-- The size of a type, for the given sizes of classes. -/
def exactSizeof (σ : TypeName → ℤ) : FieldType → ℤ
  | .primitive p => p.sizeof
  | .type t => σ t
  | .array (.primitive p) (some len) => p.sizeof * len
  | _ => 0

/-- The size of an instance in an array. -/
def instanceSizeof (σ : TypeName → ℤ) : FieldType → ℤ
  | .type t => σ t
  | _ => 0

/-- The size of an item of the unsized array in a class. -/
def unsizedItem (t : FieldType) : ℤ :=
  match (getUnsizedArrayField P t).map IrField.type with
  | some (.array of _) => if of.isRef then P.refSize else exactSizeof (fun _ => 0) of
  | _ => 0

/-- The size of an inline field. -/
def exactInline (σ : TypeName → ℤ) (f : IrField) : ℤ :=
  match f.type with
  | .array of (some len) =>
      if of.isRef then
        len * P.refSize + if f.arrayInit then len * instanceSizeof σ of else 0
      else exactSizeof σ f.type
  | t => exactSizeof σ t + unsizedItem P t * f.ctorLengthArg.getD 0

/-- The end of a pass. -/
def passEnd (sizeof off : ℤ) : List IrField → ℤ
  | [] => off
  | f :: fields => passEnd sizeof (off + incr P sizeof f) fields

/-- The end of the passes. -/
def fixedEnd (off : ℤ) (fields : List IrField) : ℤ :=
  passEnd P 4 (alignUp 4 (passEnd P 2 (alignUp 2 (passEnd P 1 off fields)) fields)) fields

/-- The end of the inline fields. -/
def inlinesEnd (σ : TypeName → ℤ) (off : ℤ) : List IrField → ℤ
  | [] => off
  | f :: fields =>
      inlinesEnd σ (if isSized P f then alignUp 4 (off + exactInline P σ f) else off) fields

/-- The end of the fields. -/
def exactEnd (σ : TypeName → ℤ) (off : ℤ) (fields : List IrField) : ℤ :=
  inlinesEnd P σ (fixedEnd P off fields) fields

/-- Where the fields of a type start. -/
def startOf (σ : TypeName → ℤ) (t : IrType) : ℤ :=
  match t.base with
  | none => 0
  | some b => if isVirtual b then 2 else σ b

/-- The size of a type. -/
def exactSize (σ : TypeName → ℤ) (t : IrType) : ℤ :=
  exactEnd P σ (startOf σ t) t.instanceFields

/-! ### What a type needs -/

/-- The type whose size an inline field needs. -/
def need (f : IrField) : Option TypeName :=
  if isSized P f then
    match recurse f with
    | some (.type u) => some u
    | _ => none
  else none

/-- The type extends `u`, or has a `u` inside. -/
inductive Needs (a u : TypeName) : Prop where
  | base {t : IrType} (ht : t ∈ P.types) (hname : t.name = a) (h : t.base = some u)
  | inline {t : IrType} {f : IrField} (ht : t ∈ P.types) (hname : t.name = a)
      (hf : f ∈ t.instanceFields) (h : need P f = some u)

/-- A type is inside of itself, directly or through others. -/
def Cyclic : Prop := ∃ a, Relation.TransGen (Needs P) a a

/-- The size of a type, from the sizes of the types that it needs. -/
inductive HasSize : TypeName → ℤ → Prop where
  | mk {t : IrType} (σ : TypeName → ℤ) (ht : t ∈ P.types)
      (h : ∀ u, Needs P t.name u → HasSize u (σ u)) : HasSize t.name (exactSize P σ t)

/-! ### What the compiler has checked -/

/-- The forms of an inline field that is not constant. -/
inductive Inline (f : IrField) : Prop where
  | primitive {p : Primitive} (h : f.type = .primitive p)
  | object {u : TypeName} (h : f.type = .type u) (hu : u ∈ P.types.map (·.name))
      (hnone : getUnsizedArrayField P f.type = none) (harg : f.ctorLengthArg = none)
  | dynamic {u : TypeName} {g : IrField} {of : FieldType} {n : Option ℤ} {len : ℤ}
      (h : f.type = .type u) (hu : u ∈ P.types.map (·.name))
      (hg : getUnsizedArrayField P f.type = some g) (hof : g.type = .array of n)
      (harg : f.ctorLengthArg = some len)
  | values {p : Primitive} {len : ℤ} (h : f.type = .array (.primitive p) (some len))
  | refs {of : FieldType} {len : ℤ} (h : f.type = .array of (some len)) (href : of.isRef)
      (hinit : ¬f.arrayInit)
  | instances {u : TypeName} {len : ℤ} (h : f.type = .array (.type u) (some len))
      (hu : u ∈ P.types.map (·.name)) (hinit : f.arrayInit)

/-- The checks of `CheckErrors` (`checkFieldArray`, `checkFieldCtor`, `checkFieldInit`) for the
fields of a type, or the static ones. -/
structure FieldsOk (fields : List IrField) : Prop where
  nodup : (fields.map (·.id)).Nodup
  inline {f : IrField} (hf : f ∈ fields) (hi : f.isInline) (hc : ¬f.isConst)
    (hu : f.ctorLengthParam < 0) : Inline P f
  /-- Only an inline array can have its length assigned in the constructor. -/
  unsized {f : IrField} (hf : f ∈ fields) (hu : 0 ≤ f.ctorLengthParam) :
    f.isInline ∧ ∃ of, f.type = .array of none
  /-- A class can only have one unsized array. -/
  one : (fields.filter fun f => isUnsized f).length ≤ 1

/-- What holds of the types that come to the step. -/
structure Accepted : Prop where
  refSize : P.refSize = 1 ∨ P.refSize = 2 ∨ P.refSize = 4
  names : (P.types.map (·.name)).Nodup
  fields {t : IrType} (ht : t ∈ P.types) : FieldsOk P t.instanceFields
  parent {t : IrType} (ht : t ∈ P.types) {f : IrField} (hf : f ∈ t.instanceFields) :
    f.id.parent = t.name
  statics : FieldsOk P P.staticFields
  /-- The slots of a type have different names. -/
  static_ne {t : IrType} (ht : t ∈ P.types) {f g : IrField} (hf : f ∈ t.instanceFields)
    (hg : g ∈ P.staticFields) : f.id ≠ g.id
  /-- A class that declares a constructor is final, so that no base type has an unsized array. -/
  base {t : IrType} (ht : t ∈ P.types) {b : TypeName} (hb : t.base = some b) :
    ∃ u ∈ P.types, u.name = b ∧ ∀ f ∈ u.instanceFields, f.ctorLengthParam < 0
  /-- `sys::Virtual` extends `sys::Obj`, which has no fields, and declares `private Obj vtable`. -/
  virtual {t : IrType} (ht : t ∈ P.types) (hv : isVirtual t.name) :
    (∃ f, t.instanceFields = [f] ∧ f.type.isRef ∧ ¬f.isConst ∧ ¬f.isInline) ∧
      ∀ u ∈ P.types, t.base = some u.name → u.base = none ∧ u.instanceFields = []

/-- Lengths are not negative. -/
structure LengthsOk (fields : List IrField) : Prop where
  array {f : IrField} (hf : f ∈ fields) {of : FieldType} {len : ℤ}
    (h : f.type = .array of (some len)) : 0 ≤ len
  ctor {f : IrField} (hf : f ∈ fields) {len : ℤ} (h : f.ctorLengthArg = some len) : 0 ≤ len

/-- The sizes are those of types, as far as they are given. -/
def SizesOf (σ : TypeName → ℤ) : Prop := ∀ u, σ u = 0 ∨ HasSize P u (σ u)

/-- The sizes of types and of the static data are `int`s. -/
structure Fits : Prop where
  lengths {t : IrType} (ht : t ∈ P.types) : LengthsOk t.instanceFields
  staticLengths : LengthsOk P.staticFields
  sizes {t : IrType} (ht : t ∈ P.types) {σ : TypeName → ℤ} (h : SizesOf P σ) :
    exactSize P σ t < 0x80000000
  static {σ : TypeName → ℤ} (h : SizesOf P σ) : exactEnd P σ 0 P.staticFields < 0x80000000

variable {P}

/-! ### Passes -/

theorem sizeMatch_eq_some {f : IrField} {s n : ℤ} (h : sizeMatch P f s = some n) :
    n = s ∨ n = 8 ∧ s = 4 := by
  unfold sizeMatch at h
  split at h
  · split_ifs at h <;> simp_all
  · split_ifs at h <;> simp_all

theorem incr_nonneg {s : ℤ} (hs : 0 ≤ s) (f : IrField) : 0 ≤ incr P s f := by
  unfold incr
  cases h : sizeMatch P f s with
  | none => exact le_refl 0
  | some n =>
    rcases sizeMatch_eq_some h with rfl | ⟨rfl, -⟩
    · exact hs
    · decide

theorem dvd_incr (s : ℤ) (f : IrField) : s ∣ incr P s f := by
  unfold incr
  cases h : sizeMatch P f s with
  | none => exact Int.dvd_zero s
  | some n =>
    rcases sizeMatch_eq_some h with rfl | ⟨rfl, rfl⟩
    · exact Int.dvd_refl _
    · decide

theorem le_passEnd {s : ℤ} (hs : 0 ≤ s) (off : ℤ) (fields : List IrField) :
    off ≤ passEnd P s off fields := by
  induction fields generalizing off with
  | nil => exact le_refl off
  | cons f fields ih => exact (le_add_of_nonneg_right (incr_nonneg hs f)).trans (ih _)

theorem dvd_passEnd {s off : ℤ} (h : s ∣ off) (fields : List IrField) :
    s ∣ passEnd P s off fields := by
  induction fields generalizing off with
  | nil => exact h
  | cons f fields ih => exact ih (Int.dvd_add h (dvd_incr s f))

theorem le_fixedEnd (off : ℤ) (fields : List IrField) : off ≤ fixedEnd P off fields :=
  calc off ≤ passEnd P 1 off fields := le_passEnd (by decide) ..
    _ ≤ alignUp 2 (passEnd P 1 off fields) := le_alignUp (by decide) _
    _ ≤ passEnd P 2 (alignUp 2 (passEnd P 1 off fields)) fields := le_passEnd (by decide) ..
    _ ≤ alignUp 4 (passEnd P 2 (alignUp 2 (passEnd P 1 off fields)) fields) :=
      le_alignUp (by decide) _
    _ ≤ fixedEnd P off fields := le_passEnd (by decide) ..

theorem dvd_fixedEnd (off : ℤ) (fields : List IrField) : 4 ∣ fixedEnd P off fields :=
  dvd_passEnd (dvd_alignUp 4 _) fields

/-! ### Inline fields -/

theorem refSize_pos (hacc : Accepted P) : 0 < P.refSize := by
  rcases hacc.refSize with h | h | h <;> rw [h] <;> decide

theorem Primitive.sizeof_pos (p : Primitive) : 0 < p.sizeof := by cases p <;> decide

section

variable {f : IrField} {len : ℤ}

theorem exactInline_values {p : Primitive} (h : f.type = .array (.primitive p) (some len)) :
    exactInline P σ f = p.sizeof * len := by
  simp only [exactInline, h, FieldType.isRef, Bool.false_eq_true, if_false, exactSizeof]

theorem exactInline_refs {of : FieldType} (h : f.type = .array of (some len)) (href : of.isRef)
    (hinit : ¬f.arrayInit) : exactInline P σ f = len * P.refSize := by
  simp only [exactInline, h, href, hinit, if_true, Bool.false_eq_true, if_false, add_zero]

theorem exactInline_instances {u : TypeName} (h : f.type = .array (.type u) (some len))
    (hinit : f.arrayInit) : exactInline P σ f = len * P.refSize + len * σ u := by
  simp only [exactInline, h, FieldType.isRef, hinit, if_true, instanceSizeof]

theorem exactInline_object {u : TypeName} (h : f.type = .type u) (harg : f.ctorLengthArg = none) :
    exactInline P σ f = σ u := by
  simp only [exactInline, h, exactSizeof, harg, Option.getD_none, mul_zero, add_zero]

theorem exactInline_dynamic {u : TypeName} (h : f.type = .type u)
    (harg : f.ctorLengthArg = some len) :
    exactInline P σ f = σ u + unsizedItem P f.type * len := by
  simp only [exactInline, h, exactSizeof, harg, Option.getD_some]

end

theorem need_eq_none {f : IrField} (hs : ¬isSized P f) : need P f = none := if_neg hs

/-- The size of a field depends on the type that the field needs only. -/
theorem exactInline_congr {f : IrField} (hf : isSized P f)
    (h : ∀ u, need P f = some u → σ u = τ u) : exactInline P σ f = exactInline P τ f := by
  rw [need, if_pos hf] at h
  unfold recurse at h
  unfold exactInline
  cases ht : f.type with
  | primitive p => rfl
  | type t =>
    have ht' : σ t = τ t := h t (by rw [ht])
    simp only [exactSizeof, ht']
  | array of len =>
    cases len with
    | none => cases of <;> rfl
    | some len =>
      cases of with
      | primitive p => rfl
      | array => rfl
      | type t =>
        cases hinit : f.arrayInit with
        | false => rfl
        | true =>
          have ht' : σ t = τ t := h t (by simp only [ht, FieldType.isRef, hinit, if_true])
          simp only [instanceSizeof, ht', FieldType.isRef, if_true]

theorem exactSizeof_nonneg (hσ : ∀ u, 0 ≤ σ u) {t : FieldType}
    (hlen : ∀ of len, t = .array of (some len) → 0 ≤ len) : 0 ≤ exactSizeof σ t := by
  unfold exactSizeof
  split
  · exact (Primitive.sizeof_pos _).le
  · exact hσ _
  · exact mul_nonneg (Primitive.sizeof_pos _).le (hlen _ _ rfl)
  · exact le_refl 0

theorem unsizedItem_nonneg (hacc : Accepted P) (t : FieldType) : 0 ≤ unsizedItem P t := by
  unfold unsizedItem
  split
  · next of n h =>
    cases of with
    | primitive p => exact (Primitive.sizeof_pos p).le
    | type | array => exact (refSize_pos hacc).le
  · exact le_refl 0

theorem exactInline_nonneg (hacc : Accepted P) {fields : List IrField}
    (hlen : LengthsOk fields) {f : IrField} (hf : f ∈ fields) (hσ : ∀ u, 0 ≤ σ u) :
    0 ≤ exactInline P σ f := by
  have hsize : 0 ≤ exactSizeof σ f.type := exactSizeof_nonneg hσ fun of len => hlen.array hf
  unfold exactInline
  split
  · next of len h =>
    have hlen' : 0 ≤ len := hlen.array hf h
    split
    · refine add_nonneg (mul_nonneg hlen' (refSize_pos hacc).le) ?_
      split
      · refine mul_nonneg hlen' ?_
        cases of with
        | type u => exact hσ u
        | primitive | array => exact le_refl 0
      · exact le_refl 0
    · exact hsize
  · have harg : 0 ≤ f.ctorLengthArg.getD 0 := by
      cases h : f.ctorLengthArg with
      | none => exact le_refl 0
      | some len => exact hlen.ctor hf h
    exact add_nonneg hsize (mul_nonneg (unsizedItem_nonneg hacc _) harg)

theorem le_inlinesEnd (hacc : Accepted P) {all fields : List IrField} (hlen : LengthsOk all)
    (hσ : ∀ u, 0 ≤ σ u) (hsub : ∀ f ∈ fields, f ∈ all) (off : ℤ) :
    off ≤ inlinesEnd P σ off fields := by
  induction fields generalizing off with
  | nil => exact le_refl off
  | cons f fields ih =>
    obtain ⟨hf, hsub⟩ := List.forall_mem_cons.mp hsub
    refine le_trans ?_ (ih hsub _)
    split
    · exact (le_add_of_nonneg_right (exactInline_nonneg hacc hlen hf hσ)).trans
        (le_alignUp (by decide) _)
    · exact le_refl off

theorem dvd_inlinesEnd {off : ℤ} (h : 4 ∣ off) (fields : List IrField) :
    4 ∣ inlinesEnd P σ off fields := by
  induction fields generalizing off with
  | nil => exact h
  | cons f fields ih =>
    refine ih ?_
    split
    · exact dvd_alignUp 4 _
    · exact h

theorem inlinesEnd_congr {fields : List IrField} (off : ℤ)
    (h : ∀ f ∈ fields, ∀ u, need P f = some u → σ u = τ u) :
    inlinesEnd P σ off fields = inlinesEnd P τ off fields := by
  induction fields generalizing off with
  | nil => rfl
  | cons f fields ih =>
    obtain ⟨hf, h⟩ := List.forall_mem_cons.mp h
    rw [inlinesEnd, inlinesEnd, ih _ h]
    by_cases hs : isSized P f
    · rw [if_pos hs, if_pos hs, exactInline_congr hs hf]
    · rw [if_neg hs, if_neg hs]

/-! ### Types -/

theorem startOf_nonneg (hσ : ∀ u, 0 ≤ σ u) (t : IrType) : 0 ≤ startOf σ t := by
  unfold startOf
  split
  · exact le_refl 0
  · split
    · decide
    · exact hσ _

theorem startOf_congr {t : IrType} (h : ∀ b, t.base = some b → σ b = τ b) :
    startOf σ t = startOf τ t := by
  unfold startOf
  split
  · rfl
  · next b hb => rw [h b hb]

/-- A type ends behind where its fields start. -/
theorem startOf_le (hacc : Accepted P) {t : IrType} (hlen : LengthsOk t.instanceFields)
    (hσ : ∀ u, 0 ≤ σ u) : startOf σ t ≤ exactSize P σ t :=
  (le_fixedEnd _ _).trans (le_inlinesEnd hacc hlen hσ (fun _ h => h) _)

theorem dvd_exactSize (σ : TypeName → ℤ) (t : IrType) : 4 ∣ exactSize P σ t :=
  dvd_inlinesEnd (dvd_fixedEnd _ _) _

/-- The size of a type depends on the types that it needs only. -/
theorem exactSize_congr {t : IrType} (ht : t ∈ P.types)
    (h : ∀ u, Needs P t.name u → σ u = τ u) : exactSize P σ t = exactSize P τ t := by
  have hstart : startOf σ t = startOf τ t := startOf_congr fun b hb => h b (.base ht rfl hb)
  rw [exactSize, exactSize, hstart, exactEnd, exactEnd,
    inlinesEnd_congr _ fun f hf u hu => h u (.inline ht rfl hf hu)]

namespace HasSize

variable {a : TypeName} {n : ℤ}

theorem nonneg (hacc : Accepted P) (hfits : Fits P) (h : HasSize P a n) : 0 ≤ n := by
  induction h with
  | @mk t σ ht h ih =>
    have hcongr : exactSize P σ t = exactSize P (fun u => max 0 (σ u)) t :=
      exactSize_congr ht fun u hu => (max_eq_right (ih u hu)).symm
    have hσ : ∀ u, 0 ≤ max 0 (σ u) := fun u => le_max_left 0 (σ u)
    rw [hcongr]
    exact (startOf_nonneg hσ t).trans (startOf_le hacc (hfits.lengths ht) hσ)

theorem dvd (h : HasSize P a n) : 4 ∣ n := by
  cases h with
  | mk σ => exact dvd_exactSize σ _

/-- A type with a size is not inside of itself. -/
theorem acc (h : HasSize P a n) : Acc (fun u b => Needs P b u) a := by
  induction h with
  | mk σ ht h ih => exact ⟨_, ih⟩

end HasSize

/-- If all types that are needed have sizes, no type is inside of itself. -/
theorem not_cyclic (h : ∀ t ∈ P.types, ∃ n, HasSize P t.name n) : ¬Cyclic P := by
  rintro ⟨a, ha⟩
  obtain ⟨u, hau, -⟩ := Relation.TransGen.head'_iff.mp ha
  obtain ⟨t, ht, hname⟩ : ∃ t ∈ P.types, t.name = a := by
    cases hau with
    | base ht hname => exact ⟨_, ht, hname⟩
    | inline ht hname => exact ⟨_, ht, hname⟩
  obtain ⟨n, hn⟩ := h t ht
  rw [hname] at hn
  have hirrefl : ∀ b, Acc (Relation.TransGen fun u b => Needs P b u) b →
      ¬Relation.TransGen (fun u b => Needs P b u) b b := by
    intro b hb
    induction hb with
    | intro b _ ih => exact fun hbb => ih b hbb hbb
  exact hirrefl a hn.acc.transGen (Relation.transGen_swap.mpr ha)

end Sedona.FieldLayout
