import Sedona.Compiler.FieldTypes

/-!
# Field Layout is Sound

The fields of an object, inherited ones included, do not overlap and lie within the size of its
type, unless a type is inside of itself: such a type is reported. The first field of a virtual
type is the exception to the size of a reference: only two bytes of `sys::Virtual.vtable` are
used, and the fields of its subtypes start behind these.

## Main results

* `Sound`: what the layout guarantees.
* `run_sound`: it holds if no type is inside of itself; otherwise the cycle is reported.
-/

namespace Sedona.FieldLayout

open ImageGen (TypeName SlotName)
open Blocks State

variable {P : Types} {st st' : State} {f : IrField} {fields : List IrField} {σ τ : TypeName → ℤ}

/-! ### Objects -/

/-- The fields of an object: those of its type, and those that it inherits. -/
inductive FieldOf (P : Types) : TypeName → IrField → Prop where
  | own {t : IrType} {f : IrField} (ht : t ∈ P.types) (hf : f ∈ t.instanceFields) :
      FieldOf P t.name f
  | inherited {t : IrType} {b : TypeName} {f : IrField} (ht : t ∈ P.types)
      (hb : t.base = some b) (h : FieldOf P b f) : FieldOf P t.name f

/-- The field takes up room in its object: it is no inlined constant, which the compiler lays out
in the code, and no unsized array. -/
def Stored (f : IrField) : Prop := ¬(f.isConst ∧ f.isInline) ∧ ¬isUnsized f

/-- The bytes that a field takes up, given the sizes of the types. -/
def storage (P : Types) (σ : TypeName → ℤ) (f : IrField) : ℤ :=
  match f.type with
  | .primitive p => p.sizeof
  | _ => if f.isInline then exactInline P σ f else if f.isConst then 2 else P.refSize

/-- The bytes that a field of an object takes up: `sys::Virtual.vtable` needs two only. -/
def objectStorage (P : Types) (σ : TypeName → ℤ) (f : IrField) : ℤ :=
  if isVirtual f.id.parent then 2 else storage P σ f

/-- Primitives and references are aligned by their size, and inlined objects by four. -/
def alignment (P : Types) (f : IrField) : ℤ :=
  match f.type with
  | .primitive p => min p.sizeof 4
  | _ => if f.isInline then 4 else if f.isConst then 2 else P.refSize

/-- The fields of an object or of the static data are stored in `size` bytes. -/
structure StoredIn (P : Types) (st : State) (size : ℤ) (storage : IrField → ℤ)
    (p : IrField → Prop) : Prop where
  dvd : 4 ∣ size
  /-- The ranges are disjoint and lie within the size. -/
  segment : Segment (fun f => st.offset f.id) storage 0 size fun f => p f ∧ Stored f
  aligned {f : IrField} (hf : p f) (h : Stored f) : alignment P f ∣ st.offset f.id

/-- What the layout guarantees. -/
structure Sound (P : Types) (st : State) (dataSize : ℤ) : Prop where
  objects {t : IrType} (ht : t ∈ P.types) :
    StoredIn P st (st.sizeof t.name) (objectStorage P st.sizeof) (FieldOf P t.name)
  /-- An unsized array follows the other fields. -/
  unsized {t : IrType} (ht : t ∈ P.types) {f : IrField} (hf : f ∈ t.instanceFields)
    (h : isUnsized f) : st.offset f.id = st.sizeof t.name
  base {t : IrType} (ht : t ∈ P.types) {b : TypeName} (hb : t.base = some b) :
    st.sizeof b ≤ st.sizeof t.name
  statics : StoredIn P st dataSize (storage P st.sizeof) (· ∈ P.staticFields)

/-! ### Rooms -/

theorem hasRoom_of_stored (hacc : Accepted P) (h : Stored f) : HasRoom P f := by
  by_cases hfix : isFixed P f
  · exact .inl hfix
  · have hi : f.isInline := Decidable.by_contra fun hi => hfix (isFixed_of_not_isInline hacc hi)
    have hc : ¬f.isConst := fun hc => h.1 ⟨hc, hi⟩
    have hu := h.2
    simp only [isUnsized, hc, Bool.not_false, Bool.true_and, decide_eq_true_eq] at hu
    refine .inr ?_
    simp only [isSized, hfix, hc, Bool.not_false, Bool.and_self, Bool.true_and,
      decide_eq_true_eq]
    omega

theorem fixedRoom_primitive {p : Primitive} (h : f.type = .primitive p) :
    fixedRoom P f = p.sizeof := by
  cases p <;> simp [fixedRoom, incr, sizeMatch, h, Primitive.sizeof]

/-- A reference, or the block index of a constant. -/
theorem fixedRoom_ref (hacc : Accepted P) (hp : ∀ p, f.type ≠ .primitive p) (hi : ¬f.isInline) :
    fixedRoom P f = if f.isConst then 2 else P.refSize := by
  cases ht : f.type with
  | primitive p => exact absurd ht (hp p)
  | type | array =>
    cases hc : f.isConst with
    | true => simp [fixedRoom, incr, sizeMatch, ht, hc, hi]
    | false =>
      rcases hacc.refSize with h | h | h <;> simp [fixedRoom, incr, sizeMatch, ht, hc, hi, h]

theorem not_isFixed (hp : ∀ p, f.type ≠ .primitive p) (hi : f.isInline) : ¬isFixed P f := by
  cases ht : f.type with
  | primitive p => exact absurd ht (hp p)
  | type | array => simp [isFixed, sizeMatch, ht, hi]

theorem room_eq (hacc : Accepted P) (f : IrField) : room P σ f = storage P σ f := by
  by_cases hp : ∃ p, f.type = .primitive p
  · obtain ⟨p, ht⟩ := hp
    rw [room, if_pos (isFixed_of_primitive ht), fixedRoom_primitive ht, storage, ht]
  have hp' : ∀ p, f.type ≠ .primitive p := fun p h => hp ⟨p, h⟩
  have hstorage : storage P σ f =
      if f.isInline then exactInline P σ f else if f.isConst then 2 else P.refSize := by
    unfold storage
    split
    · next p ht => exact absurd ht (hp' p)
    · rfl
  rw [hstorage]
  by_cases hi : f.isInline
  · rw [room, if_neg (not_isFixed hp' hi), if_pos hi]
  · rw [room, if_pos (isFixed_of_not_isInline hacc hi), fixedRoom_ref hacc hp' hi, if_neg hi]

theorem LaidOut.aligned (hacc : Accepted P) {lo hi : ℤ} (h : LaidOut P st fields lo hi)
    (hf : f ∈ fields) (hs : Stored f) : alignment P f ∣ st.offset f.id := by
  by_cases hp : ∃ p, f.type = .primitive p
  · obtain ⟨p, ht⟩ := hp
    have hfixed := h.fixed hf (isFixed_of_primitive ht)
    rw [fixedRoom_primitive ht] at hfixed
    rwa [alignment, ht]
  have hp' : ∀ p, f.type ≠ .primitive p := fun p h => hp ⟨p, h⟩
  have halign : alignment P f =
      if f.isInline then 4 else if f.isConst then 2 else P.refSize := by
    unfold alignment
    split
    · next p ht => exact absurd ht (hp' p)
    · rfl
  rw [halign]
  by_cases hi : f.isInline
  · rw [if_pos hi]
    exact h.sized hf ((hasRoom_of_stored hacc hs).resolve_left (not_isFixed hp' hi))
  · have hfixed := h.fixed hf (isFixed_of_not_isInline hacc hi)
    rw [fixedRoom_ref hacc hp' hi] at hfixed
    rw [if_neg hi]
    refine Int.dvd_trans ?_ hfixed
    split
    · decide
    · rcases hacc.refSize with h | h | h <;> rw [h] <;> decide

/-- The static fields, and those of a type that extends none. -/
theorem LaidOut.segment_storage (hacc : Accepted P) {lo hi : ℤ} (h : LaidOut P st fields lo hi) :
    Segment (fun f => st.offset f.id) (storage P st.sizeof) lo hi
      fun f => f ∈ fields ∧ Stored f :=
  h.segment.mono (fun _ hf => ⟨hf.1, hasRoom_of_stored hacc hf.2⟩) (fun _ _ => rfl)
    fun f _ => (room_eq hacc f).symm

theorem LaidOut.storedIn (hacc : Accepted P) {size : ℤ} (h : LaidOut P st fields 0 size) :
    StoredIn P st size (storage P st.sizeof) (· ∈ fields) where
  dvd := h.dvd
  segment := h.segment_storage hacc
  aligned hf hs := h.aligned hacc hf hs

/-! ### Types -/

/-- All types have been laid out. -/
def AllDone (P : Types) (st : State) : Prop := ∀ t ∈ P.types, Done P st t

section

variable {t u : IrType} {n : ℤ}

theorem FieldOf.exists {a : TypeName} (h : FieldOf P a f) : ∃ t ∈ P.types, f ∈ t.instanceFields := by
  induction h with
  | own ht hf => exact ⟨_, ht, hf⟩
  | inherited _ _ _ ih => exact ih

theorem fieldOf_iff (hacc : Accepted P) (ht : t ∈ P.types) : FieldOf P t.name f ↔
    f ∈ t.instanceFields ∨ ∃ b, t.base = some b ∧ FieldOf P b f := by
  constructor
  · generalize hname : t.name = a
    rintro (⟨hu, hf⟩ | ⟨hu, hb, h⟩)
    · exact .inl (hacc.eq_of_name ht hu hname ▸ hf)
    · obtain rfl := hacc.eq_of_name ht hu hname
      exact .inr ⟨_, hb, h⟩
  · rintro (hf | ⟨b, hb, h⟩)
    · exact .own ht hf
    · exact .inherited ht hb h

theorem HasSize.eq (hacc : Accepted P) (ht : t ∈ P.types) (h : HasSize P t.name n) :
    ∃ σ, n = exactSize P σ t ∧ ∀ b, t.base = some b → HasSize P b (σ b) := by
  generalize hname : t.name = a at h
  cases h with
  | mk σ hu h =>
    obtain rfl := hacc.eq_of_name ht hu hname
    exact ⟨σ, rfl, fun b hb => h b (.base ht rfl hb)⟩

/-- A type without fields, such as `sys::Obj`. -/
theorem HasSize.eq_zero (hacc : Accepted P) (ht : t ∈ P.types) (hbase : t.base = none)
    (hfields : t.instanceFields = []) (h : HasSize P t.name n) : n = 0 := by
  obtain ⟨σ, rfl, -⟩ := h.eq hacc ht
  rw [exactSize, startOf, hbase, hfields]
  rfl

/-- The fields of `sys::Virtual` start at the start. -/
theorem startOf_virtual (hacc : Accepted P) (ht : t ∈ P.types) (hv : isVirtual t.name)
    (hσ : ∀ b, t.base = some b → HasSize P b (σ b)) : startOf σ t = 0 := by
  unfold startOf
  split
  · rfl
  · next b hb =>
    obtain ⟨u, hu, rfl, -⟩ := hacc.base ht hb
    obtain ⟨hnone, hfields⟩ := (hacc.virtual ht hv).2 u hu hb
    have hne : ¬isVirtual u.name := by
      intro huv
      have hname : t.name = u.name := (of_decide_eq_true hv).trans (of_decide_eq_true huv).symm
      rw [hacc.eq_of_name ht hu hname, hnone] at hb
      cases hb
    rw [if_neg hne]
    exact (hσ _ hb).eq_zero hacc hu hnone hfields

/-- The only field is a reference. -/
theorem exactEnd_vtable (hacc : Accepted P) (hr : f.type.isRef) (hc : ¬f.isConst)
    (hi : ¬f.isInline) : exactEnd P σ 0 [f] = 4 := by
  have hs : ¬isSized P f := not_isSized_of_isFixed (isFixed_of_not_isInline hacc hi)
  rw [exactEnd, inlinesEnd, if_neg hs]
  have hincr : ∀ s, incr P s f = if s = P.refSize then s else 0 := by
    intro s
    cases ht : f.type with
    | primitive p =>
      rw [ht] at hr
      cases hr
    | type | array =>
      by_cases hsize : s = P.refSize <;> simp [incr, sizeMatch, ht, hc, hi, hsize]
  simp only [fixedEnd, passEnd, hincr]
  rcases hacc.refSize with h | h | h <;> rw [h] <;> rfl

/-- `sys::Virtual` has one field, the block index of the vtable, at the start. -/
theorem AllDone.virtual (hacc : Accepted P) (h : AllDone P st) (ht : t ∈ P.types)
    (hv : isVirtual t.name) : ∃ f, (∀ g, FieldOf P t.name g → g = f) ∧ f.id.parent = t.name ∧
      st.offset f.id = 0 ∧ st.sizeof t.name = 4 := by
  obtain ⟨⟨f, hf, hr, hc, hi⟩, hbase⟩ := hacc.virtual ht hv
  have hmem : f ∈ t.instanceFields := hf ▸ List.mem_singleton_self f
  obtain ⟨σ, hsize, hσ⟩ := (h t ht).hasSize.eq hacc ht
  have hsizes : ∀ b, t.base = some b → HasSize P b (st.sizeof b) := by
    intro b hb
    obtain ⟨u, hu, rfl, -⟩ := hacc.base ht hb
    exact (h u hu).hasSize
  refine ⟨f, fun g hg => ?_, hacc.parent ht hmem, ?_, ?_⟩
  · rcases (fieldOf_iff hacc ht).mp hg with hg | ⟨b, hb, hg⟩
    · rw [hf] at hg
      exact List.mem_singleton.mp hg
    · obtain ⟨u, hu, rfl, -⟩ := hacc.base ht hb
      obtain ⟨hnone, hempty⟩ := hbase u hu hb
      rcases (fieldOf_iff hacc hu).mp hg with hg | ⟨b, hb, -⟩
      · rw [hempty] at hg
        cases hg
      · rw [hnone] at hb
        cases hb
  · have hlaid := (h t ht).laidOut
    rw [startOf_virtual hacc ht hv hsizes] at hlaid
    exact hlaid.only (by decide) hf (isFixed_of_not_isInline hacc hi)
  · rw [hsize, exactSize, startOf_virtual hacc ht hv hσ, hf, exactEnd_vtable hacc hr hc hi]

/-- The fields of a type itself. -/
theorem AllDone.own (hacc : Accepted P) (h : AllDone P st) (ht : t ∈ P.types)
    (hv : ¬isVirtual t.name) :
    Segment (fun f => st.offset f.id) (objectStorage P st.sizeof) (startOf st.sizeof t)
      (st.sizeof t.name) fun f => f ∈ t.instanceFields ∧ Stored f := by
  refine ((h t ht).laidOut.segment_storage hacc).mono (fun _ hf => hf) (fun _ _ => rfl)
    fun f hf => ?_
  rw [objectStorage, hacc.parent ht hf.1, if_neg hv]

/-- The fields of an object, from those of the base type. -/
theorem AllDone.segment (hacc : Accepted P) (h : AllDone P st) (ht : t ∈ P.types) :
    Segment (fun f => st.offset f.id) (objectStorage P st.sizeof) 0 (st.sizeof t.name)
      fun f => FieldOf P t.name f ∧ Stored f := by
  have hvirtual : ∀ u ∈ P.types, isVirtual u.name →
      Segment (fun f => st.offset f.id) (objectStorage P st.sizeof) 0 2
        fun f => FieldOf P u.name f ∧ Stored f := by
    intro u hu hv
    obtain ⟨f, hall, hparent, hoff, -⟩ := h.virtual hacc hu hv
    have hsize : objectStorage P st.sizeof f = 2 := by rw [objectStorage, hparent, if_pos hv]
    refine (Segment.single f hoff ?_ ?_).of_imp fun g hg => hall g hg.1 <;> rw [hsize] <;> decide
  generalize hname : t.name = a
  induction (hname ▸ (h t ht).hasSize.acc : Acc _ a) generalizing t with
  | intro a _ ih =>
    subst hname
    by_cases hv : isVirtual t.name
    · obtain ⟨-, -, -, -, hsize⟩ := h.virtual hacc ht hv
      rw [hsize]
      exact (hvirtual t ht hv).widen (by decide)
    have hown := h.own hacc ht hv
    have hsplit : ∀ f, FieldOf P t.name f ∧ Stored f →
        (∃ b, t.base = some b ∧ FieldOf P b f ∧ Stored f) ∨ f ∈ t.instanceFields ∧ Stored f := by
      rintro f ⟨hf, hs⟩
      rcases (fieldOf_iff hacc ht).mp hf with hf | ⟨b, hb, hf⟩
      · exact .inr ⟨hf, hs⟩
      · exact .inl ⟨b, hb, hf, hs⟩
    -- The inherited fields lie before those of the type.
    have hbase : Segment (fun f => st.offset f.id) (objectStorage P st.sizeof) 0
        (startOf st.sizeof t) fun f => ∃ b, t.base = some b ∧ FieldOf P b f ∧ Stored f := by
      cases hb : t.base with
      | none =>
        rw [startOf, hb]
        refine .empty (le_refl 0) ?_
        rintro f ⟨b, hb', -⟩
        cases hb'
      | some b =>
        obtain ⟨u, hu, rfl, -⟩ := hacc.base ht hb
        rw [startOf, hb]
        have hsome : ∀ f, (∃ b, some u.name = some b ∧ FieldOf P b f ∧ Stored f) →
            FieldOf P u.name f ∧ Stored f := by
          rintro f ⟨b, hb', hf⟩
          obtain rfl := Option.some.inj hb'
          exact hf
        refine Segment.of_imp ?_ hsome
        by_cases hbv : isVirtual u.name
        · simp only [hbv, if_true]
          exact hvirtual u hu hbv
        · simp only [hbv, Bool.false_eq_true, if_false]
          exact ih u.name (.base ht rfl hb) hu rfl
    exact (hbase.union hown).of_imp hsplit

theorem AllDone.base_le (hacc : Accepted P) (h : AllDone P st) (ht : t ∈ P.types) {b : TypeName}
    (hb : t.base = some b) : st.sizeof b ≤ st.sizeof t.name := by
  have hle := (h t ht).laidOut.segment.le
  obtain ⟨u, hu, rfl, -⟩ := hacc.base ht hb
  rw [startOf, hb] at hle
  by_cases hv : isVirtual u.name
  · obtain ⟨-, -, -, -, hsize⟩ := h.virtual hacc hu hv
    have hdvd := (h t ht).laidOut.dvd
    simp only [hv, if_true] at hle
    omega
  · simpa only [hv, Bool.false_eq_true, if_false] using hle

/-- All types have been laid out, and the static fields. -/
theorem AllDone.sound (hacc : Accepted P) (h : AllDone P st) {dataSize : ℤ}
    (hstatics : LaidOut P st P.staticFields 0 dataSize) : Sound P st dataSize where
  objects {t} ht :=
    { dvd := (h t ht).laidOut.dvd
      segment := h.segment hacc ht
      aligned := fun hf hs => by
        obtain ⟨u, hu, hf⟩ := hf.exists
        exact (h u hu).laidOut.aligned hacc hf hs }
  unsized {t} ht _ hf hu := (h t ht).laidOut.unsized hf hu
  base ht _ hb := h.base_le hacc ht hb
  statics := hstatics.storedIn hacc

end

/-! ### The step -/

theorem inv_init (hacc : Accepted P) : Inv P (init P) where
  nodup := .nil
  todoNodup := hacc.names
  todo hu := absurd hu List.not_mem_nil
  names hu := List.mem_map.mp hu
  chain := .nil
  cyclic h := absurd h List.not_mem_nil
  unknown _ := rfl
  fresh _ _ _ _ _ := rfl
  done _ _ ht h := absurd (List.mem_map_of_mem ht) h

theorem layoutType_first (hacc : Accepted P) (hfits : Fits P) :
    LaysOut P [] (fun _ => True) (layoutType P (P.types.length + 1)) :=
  fun st u hinv hproc _ => layoutType_spec hacc hfits (P.types.length + 1) []
    (by rw [List.length_nil]; omega) st u hinv hproc fun _ ha => nomatch ha

/-- What the types in `names` have been laid out to. -/
structure Laying (P : Types) (st : State) (names : List TypeName) (st' : State) : Prop where
  inv : Inv P st'
  ext : Ext P (fun _ => False) st st'
  done (h : st'.errors = []) {u : TypeName} (hu : u ∈ names) : u ∉ st'.todo

theorem foldlM_layoutType (hacc : Accepted P) (hfits : Fits P) (names : List TypeName)
    (hinv : Inv P st) (hproc : st.processing = []) :
    Ends (Laying P st names) (Reported P) (names.foldlM (layoutType P (P.types.length + 1)) st) := by
  induction names generalizing st with
  | nil => exact .ok ⟨hinv, .refl st, fun _ _ hu => absurd hu List.not_mem_nil⟩
  | cons u names ih =>
    rw [List.foldlM_cons]
    have hone := layoutType_first hacc hfits st u hinv hproc trivial
    refine hone.bind fun st₁ ⟨hinv₁, hext₁, hu⟩ => ?_
    refine (ih hinv₁ (hext₁.processing.trans hproc)).mono fun st₂ h => ?_
    refine ⟨h.inv, hext₁.trans h.ext, fun he v hv => ?_⟩
    rcases List.mem_cons.mp hv with rfl | hv
    · exact mt h.ext.todo (hu (h.ext.errors he))
    · exact h.done he hv

theorem AllDone.of_laying (h : Laying P st (P.types.map (·.name)) st') (he : st'.errors = []) :
    AllDone P st' := fun _ ht => h.inv.done he ht (h.done he (List.mem_map_of_mem ht))

/-- Where all types have been laid out, none is inside of itself. -/
theorem AllDone.not_cyclic (h : AllDone P st) : ¬Cyclic P :=
  FieldLayout.not_cyclic fun t ht => ⟨_, (h t ht).hasSize⟩

theorem layoutInstanceFields_spec (hacc : Accepted P) (hfits : Fits P) :
    Ends (fun st => Laying P (init P) (P.types.map (·.name)) st ∧ st.errors = []) (Reported P)
      (layoutInstanceFields P) := by
  refine (foldlM_layoutType hacc hfits _ (inv_init hacc) rfl).bind fun st h => ?_
  refine .ite (fun he => h.inv.crash he _) fun he => ?_
  rw [Decidable.not_not] at he
  refine .ite (fun hneg => ?_) fun _ => .ok ⟨h, he⟩
  obtain ⟨t, ht, hneg⟩ := List.any_eq_true.mp hneg
  have := ((AllDone.of_laying h he t ht).hasSize.nonneg hacc hfits)
  simp only [decide_eq_true_eq] at hneg
  omega

/-- The step ends with a layout, or it reports types that are inside of themselves. -/
theorem run_spec (hacc : Accepted P) (hfits : Fits P) :
    Ends (fun r => ¬Cyclic P ∧ Sound P r.1 r.2) (Reported P) (run P) := by
  refine (layoutInstanceFields_spec hacc hfits).bind fun st ⟨h, he⟩ => ?_
  have hdone := AllDone.of_laying h he
  have hready : FieldsReady P [] (fun _ => True) P.staticFields :=
    ⟨hacc.statics, hfits.staticLengths, fun _ _ _ => trivial,
      fun hf _ ht _ _ hg => hacc.static_ne ht hg hf⟩
  have hfree : ∀ f ∈ P.staticFields, st.offset f.id = -1 := fun f hf =>
    h.ext.offset id fun t ht _ _ g hg => hacc.static_ne ht hg hf
  refine (layoutFields_spec hacc hfits (layoutType_first hacc hfits) h.inv h.ext.processing hready
    hfree (fun _ => le_refl 0) fun _ σ hσ _ => hfits.static hσ).bind fun ⟨st', dataSize⟩ hr => ?_
  -- No cycle can be left to be found.
  have he' : st'.errors = [] := List.eq_nil_iff_forall_not_mem.mpr fun a ha =>
    hdone.not_cyclic ⟨a, hr.inv.cyclic ha⟩
  have hdone' : AllDone P st' := fun t ht =>
    hr.inv.done he' ht (mt hr.ext.todo (h.done he (List.mem_map_of_mem ht)))
  have hlaid : LaidOut P st' P.staticFields 0 dataSize := hr.laidOut he'
  have hsize : 0 ≤ dataSize := hlaid.segment.le
  refine .ite (fun hneg => absurd hneg (not_lt.mpr hsize)) fun _ => ?_
  exact .ite (fun hne => absurd he' hne) fun _ => .ok ⟨hdone.not_cyclic, hdone'.sound hacc hlaid⟩

/-- If no type is inside of itself, directly or through others, then the step ends with a sound
layout. Otherwise it ends with an error, and each type that it has reported is inside of
itself. -/
theorem run_sound (hacc : Accepted P) (hfits : Fits P) :
    (¬Cyclic P → ∃ st dataSize, run P = .ok (st, dataSize) ∧ Sound P st dataSize) ∧
      (Cyclic P → ∃ c, run P = .error c ∧ c.errors ≠ [] ∧
        ∀ a ∈ c.errors, Relation.TransGen (Needs P) a a) := by
  have hspec := run_spec hacc hfits
  generalize run P = x at hspec
  cases hspec with
  | ok h => exact ⟨fun _ => ⟨_, _, rfl, h.2⟩, fun hc => absurd hc h.1⟩
  | error h =>
    refine ⟨fun hc => ?_, fun _ => ⟨_, rfl, h.errors, fun _ => h.cyclic⟩⟩
    obtain ⟨a, ha⟩ := List.exists_mem_of_ne_nil _ h.errors
    exact absurd ⟨a, h.cyclic ha⟩ hc

/-! ### An example -/

namespace Packet

def obj : IrType where
  name := ⟨"sys", "Obj"⟩
  instanceFields := []

def x : IrField where
  id := ⟨⟨"acme", "Point"⟩, "x"⟩
  type := .primitive .int

def point : IrType where
  name := ⟨"acme", "Point"⟩
  base := some obj.name
  instanceFields := [x]

def flag : IrField where
  id := ⟨⟨"acme", "Packet"⟩, "flag"⟩
  type := .primitive .byte

/-- `inline Point origin` -/
def origin : IrField where
  id := ⟨⟨"acme", "Packet"⟩, "origin"⟩
  type := .type point.name
  isInline := true

/-- `inline byte[3] bytes` -/
def bytes : IrField where
  id := ⟨⟨"acme", "Packet"⟩, "bytes"⟩
  type := .array (.primitive .byte) (some 3)
  isInline := true

def packet : IrType where
  name := ⟨"acme", "Packet"⟩
  base := some obj.name
  instanceFields := [flag, origin, bytes]

/-- `static short count` -/
def count : IrField where
  id := ⟨⟨"acme", "Packet"⟩, "count"⟩
  type := .primitive .short

def types : Types where
  refSize := 4
  types := [obj, point, packet]
  staticFields := [count]

theorem forall_types {p : IrType → Prop} (h : p obj ∧ p point ∧ p packet) :
    ∀ t ∈ types.types, p t := by
  simpa [types] using h

theorem fieldsOk : FieldsOk types [] ∧ FieldsOk types [x] ∧ FieldsOk types [flag, origin, bytes] ∧
    FieldsOk types [count] := by
  refine ⟨⟨by decide, ?_, ?_, by decide⟩, ⟨by decide, ?_, ?_, by decide⟩,
    ⟨by decide, ?_, ?_, by decide⟩, ⟨by decide, ?_, ?_, by decide⟩⟩
  · simp
  · simp
  · simp [x]
  · simp [x]
  · rintro f hf - - -
    simp only [List.mem_cons, List.not_mem_nil, or_false] at hf
    rcases hf with rfl | rfl | rfl
    · exact .primitive rfl
    · exact .object rfl (by decide) (by decide) rfl
    · exact .values rfl
  · simp [flag, origin, bytes]
  · simp [count]
  · simp [count]

theorem accepted : Accepted types where
  refSize := .inr (.inr rfl)
  names := by decide
  fields ht := forall_types (p := fun t => FieldsOk types t.instanceFields)
    ⟨fieldsOk.1, fieldsOk.2.1, fieldsOk.2.2.1⟩ _ ht
  parent ht := forall_types (p := fun t => ∀ {f}, f ∈ t.instanceFields → f.id.parent = t.name)
    (by simp [obj, point, packet, x, flag, origin, bytes]) _ ht
  statics := fieldsOk.2.2.2
  static_ne ht := forall_types
    (p := fun t => ∀ {f g}, f ∈ t.instanceFields → g ∈ types.staticFields → f.id ≠ g.id)
    (by simp [types, obj, point, packet, x, flag, origin, bytes, count]) _ ht
  base ht := forall_types (p := fun t => ∀ {b}, t.base = some b →
      ∃ u ∈ types.types, u.name = b ∧ ∀ f ∈ u.instanceFields, f.ctorLengthParam < 0)
    (by simp [types, obj, point, packet]) _ ht
  virtual ht := forall_types (p := fun t => isVirtual t.name → _)
    (by simp [isVirtual, obj, point, packet]) _ ht

theorem sizes {σ : TypeName → ℤ} (h : SizesOf types σ) :
    σ obj.name = 0 ∧ (σ point.name = 0 ∨ σ point.name = 4) := by
  have hobj : ∀ n, HasSize types obj.name n → n = 0 := fun n hn =>
    hn.eq_zero accepted (by simp [types]) rfl rfl
  refine ⟨(h _).elim id (hobj _), (h _).imp_right fun hn => ?_⟩
  obtain ⟨τ, hτ, hbase⟩ := hn.eq accepted (by simp [types])
  rw [hτ, exactSize, show startOf τ point = 0 from hobj _ (hbase _ rfl)]
  rfl

theorem fits : Fits types where
  lengths ht := forall_types (p := fun t => LengthsOk t.instanceFields) (by
    refine ⟨⟨?_, ?_⟩, ⟨?_, ?_⟩, ⟨?_, ?_⟩⟩ <;>
      simp [obj, point, packet, x, flag, origin, bytes]) _ ht
  staticLengths := by constructor <;> simp [types, count]
  sizes ht σ h := by
    obtain ⟨hobj, hpoint⟩ := sizes h
    have hstart : ∀ t : IrType, t.base = some obj.name → startOf σ t = 0 := fun t ht => by
      rw [startOf, ht]
      exact hobj
    have hpacket : exactSize types σ packet =
        alignUp 4 (alignUp 4 (4 + exactInline types σ origin) + 3) := by
      rw [exactSize, hstart packet rfl]
      rfl
    refine forall_types (p := fun t => exactSize types σ t < 0x80000000) ⟨?_, ?_, ?_⟩ _ ht
    · exact (show exactSize types σ obj = 0 from rfl).trans_lt (by decide)
    · rw [exactSize, hstart point rfl]
      exact (show exactEnd types σ 0 [x] = 4 from rfl).trans_lt (by decide)
    · rw [hpacket, exactInline_object rfl rfl]
      rcases hpoint with h | h <;> rw [h] <;> decide
  static {σ} _ := (show exactEnd types σ 0 [count] = 4 from rfl).trans_lt (by decide)

theorem run_types :
    ∃ st dataSize, run types = .ok (st, dataSize) ∧ st.offset bytes.id = 8 := by
  have h : (run types).toOption.map (fun r => r.1.offset bytes.id) = some 8 := by decide +kernel
  generalize run types = x at h
  cases x with
  | ok r => exact ⟨r.1, r.2, rfl, Option.some.inj h⟩
  | error c => cases h

theorem not_cyclic_types : ¬Cyclic types := by
  have hspec := run_spec accepted fits
  obtain ⟨st, dataSize, hok, -⟩ := run_types
  exact (hspec.of_ok hok).1

/-- No type is inside of itself here. -/
theorem run_packet : ∃ st dataSize, run types = .ok (st, dataSize) ∧ Sound types st dataSize :=
  (run_sound accepted fits).1 not_cyclic_types

/-- An inlined array is aligned by four, whatever its size: three bytes at the offset 8. -/
theorem not_aligned_by_size : ¬∀ P st dataSize, Accepted P → Fits P →
    run P = .ok (st, dataSize) → ∀ t ∈ P.types, ∀ f ∈ t.instanceFields, ¬f.isConst →
      min (storage P st.sizeof f) 4 ∣ st.offset f.id := by
  intro h
  obtain ⟨st, dataSize, hok, hoff⟩ := run_types
  have hdvd := h types st dataSize accepted fits hok packet (by simp [types]) bytes
    (by simp [packet]) (by decide)
  have hstorage : storage types st.sizeof bytes = 3 := rfl
  rw [hstorage, hoff] at hdvd
  exact absurd hdvd (by decide)

end Packet

end Sedona.FieldLayout
