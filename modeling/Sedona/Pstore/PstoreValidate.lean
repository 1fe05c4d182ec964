import Mathlib.Algebra.Order.Ring.Int
import Mathlib.Data.List.Nodup

/-!
# Validation of Pstore Files

A `PstoreService` models a block of storage, of which its `PstoreFile` children reserve ranges.
A file validates its range against the size of the storage and against the ranges of all other
files under the service, whatever their status. Offsets and sizes are `int`s, whose sum can
overflow.

## Main results

* `validateAll_children`: a file is validated against the reservations, which do not change.
* `within_of_ok`, `disjoint_of_ok`: the reservations of files with the status ok.
-/

namespace Sedona.Pstore

/-! ### Files -/

inductive Status where
  | ok | inactive | badParent | serviceErr | badOffset | badSize | dupRange | formatErr
deriving DecidableEq, Repr

structure PstoreFile where
  /-- The id of the component. -/
  id : ℕ
  resvOffset : Int32
  resvSize : Int32
  status : Status := .inactive
  /-- Whether `service` is set. -/
  mounted : Bool := false
deriving DecidableEq

/-- A child of the service. -/
inductive Kid where
  | file (f : PstoreFile)
  | other (id : ℕ)
deriving DecidableEq

def Kid.id : Kid → ℕ
  | .file f => f.id
  | .other id => id

/-- `PstoreService`. -/
structure Service where
  size : Int32
  children : List Kid

/-- If the component is a file, whether the ranges overlap. -/
def overlaps (f : PstoreFile) : Kid → Bool
  | .other _ => false
  | .file x =>
      if f.id = x.id then false
      else
        let s₁ := f.resvOffset
        let e₁ := s₁ + f.resvSize
        let s₂ := x.resvOffset
        let e₂ := s₂ + x.resvSize
        decide (s₂ < e₁) && decide (s₁ < e₂)

def PstoreFile.setStatus (f : PstoreFile) (status : Status) : PstoreFile :=
  { f with status, mounted := decide (status = .ok) }

/-- `PstoreFile.validate`, for the parent if it is a service. -/
def validate (parent : Option Service) (f : PstoreFile) : PstoreFile :=
  match parent with
  | none => f.setStatus .badParent
  | some service =>
      if service.size ≤ 0 then f.setStatus .serviceErr
      else if f.resvOffset < 0 ∨ service.size ≤ f.resvOffset then f.setStatus .badOffset
      else if f.resvSize ≤ 0 ∨ service.size ≤ f.resvOffset + f.resvSize then
        f.setStatus .badSize
      else if service.children.any (overlaps f) then f.setStatus .dupRange
      else f.setStatus .ok

/-- Validates the file with the given id. -/
def Service.validateFile (s : Service) (id : ℕ) : Service :=
  { s with
    children := s.children.map fun k =>
      match k with
      | .file f => if f.id = id then .file (validate (some s) f) else k
      | .other _ => k }

/-- `PstoreService.validateAll`. -/
def Service.validateAll (s : Service) : Service :=
  (s.children.map Kid.id).foldl Service.validateFile s

/-! ### Reservations do not change -/

/-- What the validation of other files reads of a child. -/
def Kid.reservation : Kid → Option (ℕ × Int32 × Int32)
  | .file f => some (f.id, f.resvOffset, f.resvSize)
  | .other _ => none

variable {s s' : Service} {f g : PstoreFile} {k : Kid}

theorem overlaps_congr {k k' : Kid} (h : k.reservation = k'.reservation) (f : PstoreFile) :
    overlaps f k = overlaps f k' := by
  cases k with
  | other => cases k' with
    | other => rfl
    | file => cases h
  | file x => cases k' with
    | other => cases h
    | file y =>
      simp only [Kid.reservation, Option.some.injEq, Prod.mk.injEq] at h
      obtain ⟨hid, hoff, hsize⟩ := h
      simp only [overlaps, hid, hoff, hsize]

/-- The same storage and the same reservations. -/
structure Same (s s' : Service) : Prop where
  size : s.size = s'.size
  reservations : s.children.map Kid.reservation = s'.children.map Kid.reservation

theorem any_overlaps_congr {l l' : List Kid} (h : l.map Kid.reservation = l'.map Kid.reservation)
    (f : PstoreFile) : l.any (overlaps f) = l'.any (overlaps f) := by
  induction l generalizing l' with
  | nil =>
    obtain rfl := List.map_eq_nil_iff.mp h.symm
    rfl
  | cons k l ih => cases l' with
    | nil => cases h
    | cons k' l' =>
      obtain ⟨hk, h⟩ := List.cons.inj h
      rw [List.any_cons, List.any_cons, overlaps_congr hk, ih h]

theorem validate_congr (h : Same s s') (f : PstoreFile) :
    validate (some s) f = validate (some s') f := by
  simp only [validate, h.size, any_overlaps_congr h.reservations]

/-- The status is all that a validation changes. -/
theorem validate_frame (parent : Option Service) (f : PstoreFile) :
    (validate parent f).id = f.id ∧ (validate parent f).resvOffset = f.resvOffset ∧
      (validate parent f).resvSize = f.resvSize := by
  unfold validate
  cases parent with
  | none => exact ⟨rfl, rfl, rfl⟩
  | some s =>
    dsimp only
    split_ifs <;> exact ⟨rfl, rfl, rfl⟩

/-- A child after it has been validated against `s`. -/
def validated (s : Service) : Kid → Kid
  | .file f => .file (validate (some s) f)
  | .other id => .other id

theorem validated_reservation (s : Service) (k : Kid) :
    (validated s k).reservation = k.reservation := by
  cases k with
  | other => rfl
  | file f =>
    obtain ⟨hid, hoff, hsize⟩ := validate_frame (some s) f
    simp only [validated, Kid.reservation, hid, hoff, hsize]

theorem validated_id (s : Service) (k : Kid) : (validated s k).id = k.id := by
  cases k with
  | other => rfl
  | file f => exact (validate_frame (some s) f).1

theorem validateFile_children (s : Service) (id : ℕ) : (s.validateFile id).children =
    s.children.map fun k => if k.id = id then validated s k else k := by
  refine List.map_congr_left fun k _ => ?_
  cases k with
  | other => simp [validated]
  | file f => rfl

theorem setStatus_setStatus (f : PstoreFile) (a b : Status) :
    (f.setStatus a).setStatus b = f.setStatus b := rfl

theorem exists_validate (parent : Option Service) (f : PstoreFile) :
    ∃ status, validate parent f = f.setStatus status := by
  unfold validate
  cases parent with
  | none => exact ⟨_, rfl⟩
  | some s =>
    dsimp only
    split_ifs <;> exact ⟨_, rfl⟩

/-- The status before does not matter. -/
theorem validate_setStatus (s : Service) (f : PstoreFile) (status : Status) :
    validate (some s) (f.setStatus status) = validate (some s) f := by
  have hoverlaps : overlaps (f.setStatus status) = overlaps f := rfl
  simp only [validate, hoverlaps]
  rfl

theorem validated_validated (s : Service) (k : Kid) :
    validated s (validated s k) = validated s k := by
  cases k with
  | other => rfl
  | file f =>
    obtain ⟨status, h⟩ := exists_validate (some s) f
    simp only [validated, h, validate_setStatus]

/-- The children after those with the given ids have been validated. -/
structure Validated (s : Service) (ids : List ℕ) (s' : Service) : Prop where
  size : s'.size = s.size
  children : s'.children = s.children.map fun k => if k.id ∈ ids then validated s k else k

theorem Validated.same {ids : List ℕ} (h : Validated s ids s') : Same s' s where
  size := h.size
  reservations := by
    rw [h.children, List.map_map]
    refine List.map_congr_left fun k _ => ?_
    change (if k.id ∈ ids then validated s k else k).reservation = k.reservation
    split
    · exact validated_reservation s k
    · rfl

theorem Validated.validateFile {ids : List ℕ} (h : Validated s ids s') (id : ℕ) :
    Validated s (id :: ids) (s'.validateFile id) where
  size := h.size
  children := by
    have hvalidated : validated s' = validated s := by
      funext k
      cases k with
      | other => rfl
      | file f => simp only [validated, validate_congr h.same]
    rw [validateFile_children, h.children, List.map_map, hvalidated]
    refine List.map_congr_left fun k _ => ?_
    by_cases hmem : k.id ∈ ids
    · simp only [Function.comp_apply, hmem, if_true, validated_id, validated_validated, ite_self,
        List.mem_cons, or_true]
    · simp only [Function.comp_apply, hmem, if_false, List.mem_cons, or_false]

theorem validateAll_children (s : Service) :
    s.validateAll.size = s.size ∧ s.validateAll.children = s.children.map (validated s) := by
  have hfold : ∀ (ids done : List ℕ) (s' : Service), Validated s done s' →
      Validated s (ids.reverse ++ done) (ids.foldl Service.validateFile s') := by
    intro ids
    induction ids with
    | nil => exact fun _ _ h => h
    | cons id ids ih =>
      intro done s' h
      have := ih (id :: done) _ (h.validateFile id)
      rwa [List.reverse_cons, List.append_assoc]
  have hinit : Validated s [] s := ⟨rfl, by simp⟩
  have hall := hfold (s.children.map Kid.id) [] s hinit
  refine ⟨hall.size, hall.children.trans (List.map_congr_left fun k hk => if_pos ?_)⟩
  rw [List.append_nil, List.mem_reverse]
  exact List.mem_map_of_mem hk

/-! ### Reservations of files with the status ok -/

/-- The end of a reservation, without the limit of an `int`. -/
def PstoreFile.resvEnd (f : PstoreFile) : ℤ := f.resvOffset.toInt + f.resvSize.toInt

/-- The end of a reservation is an `int`. -/
def PstoreFile.EndFits (f : PstoreFile) : Prop := f.resvEnd < 0x80000000

instance (f : PstoreFile) : Decidable f.EndFits := inferInstanceAs (Decidable (_ < _))

/-- The files of the service with the status ok. -/
def Service.Ok (s : Service) (f : PstoreFile) : Prop := .file f ∈ s.children ∧ f.status = .ok

/-- What a file with the status ok has passed. -/
structure Passed (s : Service) (f : PstoreFile) : Prop where
  offset : 0 ≤ f.resvOffset.toInt ∧ f.resvOffset.toInt < s.size.toInt
  size : 0 < f.resvSize.toInt ∧ (f.resvOffset + f.resvSize).toInt < s.size.toInt
  apart {k : Kid} (hk : k ∈ s.children) : ¬overlaps f k

theorem passed_of_validate (h : (validate (some s) f).status = .ok) : Passed s f := by
  unfold validate at h
  dsimp only at h
  split_ifs at h with hsize hoff hresv hany
  · cases h
  · cases h
  · cases h
  · cases h
  · simp only [not_or, Int32.le_iff_toInt_le, Int32.lt_iff_toInt_lt, not_lt, not_le,
      Int32.toInt_zero] at hoff hresv
    exact ⟨hoff, hresv, fun hk hover => hany (List.any_eq_true.mpr ⟨_, hk, hover⟩)⟩

/-- A file with the status ok has passed, against the service after the validation. -/
theorem passed_of_ok (h : s.validateAll.Ok f) : Passed s.validateAll f := by
  obtain ⟨hsize, hchildren⟩ := validateAll_children s
  obtain ⟨hmem, hok⟩ := h
  rw [hchildren] at hmem
  obtain ⟨k, -, hk⟩ := List.mem_map.mp hmem
  cases k with
  | other => cases hk
  | file f₀ =>
    obtain rfl : validate (some s) f₀ = f := Kid.file.inj hk
    have hpassed := passed_of_validate hok
    obtain ⟨hid, hoff, hresv⟩ := validate_frame (some s) f₀
    have hoverlaps : overlaps (validate (some s) f₀) = overlaps f₀ := by
      funext k
      cases k with
      | other => rfl
      | file x => simp only [overlaps, hid, hoff, hresv]
    refine ⟨?_, ?_, fun hk' => ?_⟩
    · rw [hoff, hsize]
      exact hpassed.offset
    · rw [hoff, hresv, hsize]
      exact hpassed.size
    · rw [hchildren] at hk'
      obtain ⟨k, hk, rfl⟩ := List.mem_map.mp hk'
      rw [hoverlaps, overlaps_congr (validated_reservation s k)]
      exact hpassed.apart hk

theorem Passed.end_eq (h : Passed s f) (hfits : f.EndFits) :
    (f.resvOffset + f.resvSize).toInt = f.resvEnd := by
  have h₀ := h.offset.1
  have h₁ := h.size.1
  unfold PstoreFile.EndFits PstoreFile.resvEnd at *
  rw [Int32.toInt_add, Int.bmod_def, Int.emod_eq_of_lt (by omega) (by omega), if_pos (by omega)]

/-- The reservation of a file with the status ok lies inside the storage. -/
theorem within_of_ok (h : s.validateAll.Ok f) (hfits : f.EndFits) :
    0 ≤ f.resvOffset.toInt ∧ f.resvEnd ≤ s.validateAll.size.toInt := by
  have hpassed := passed_of_ok h
  have hsize := hpassed.size.2
  rw [hpassed.end_eq hfits] at hsize
  exact ⟨hpassed.offset.1, hsize.le⟩

/-- The reservations of two files with the status ok are disjoint. -/
theorem disjoint_of_ok (hf : s.validateAll.Ok f) (hg : s.validateAll.Ok g) (hne : f.id ≠ g.id)
    (hffits : f.EndFits) (hgfits : g.EndFits) :
    f.resvEnd ≤ g.resvOffset.toInt ∨ g.resvEnd ≤ f.resvOffset.toInt := by
  have hapart := (passed_of_ok hf).apart hg.1
  simp only [overlaps, hne, if_false, Bool.and_eq_true, decide_eq_true_eq,
    Int32.lt_iff_toInt_lt, (passed_of_ok hf).end_eq hffits, (passed_of_ok hg).end_eq hgfits] at hapart
  omega

end Sedona.Pstore
