import Mathlib.Data.List.Nodup
import Sedona.Compiler.FieldSizes

/-!
# The Passes of FieldLayout

Fields of one, two and four bytes are laid out in passes over the fields of a type. Where no
offset overflows, the fields of the passes follow one another without overlap, each at a multiple
of its size or of four.

## Main results

* `layoutPass_spec`: one pass.
* `FixedSpec.of_passes`: all passes, with the padding between them.
-/

namespace Sedona.FieldLayout

open ImageGen (TypeName SlotName)
open Blocks State

variable {P : Types} {st st' st'' : State} {f : IrField} {fields : List IrField} {off : ℤ}

theorem int32_eq {x : ℤ} (h : 0 ≤ x) (h' : x < 0x80000000) : int32 x = x := by
  rw [int32, Int.bmod_def, Int.emod_eq_of_lt h (by omega), if_pos (by omega)]

/-! ### One pass -/

/-- Only offsets of fields in `own` differ. -/
structure Frame (own : SlotName → Prop) (st st' : State) : Prop where
  sizeof : st'.sizeof = st.sizeof
  todo : st'.todo = st.todo
  processing : st'.processing = st.processing
  errors : st'.errors = st.errors
  offset {id : SlotName} (h : ¬own id) : st'.offset id = st.offset id

namespace Frame

variable {own own' : SlotName → Prop}

theorem refl (st : State) : Frame own st st := ⟨rfl, rfl, rfl, rfl, fun _ => rfl⟩

theorem trans (h : Frame own st st') (h' : Frame own st' st'') : Frame own st st'' where
  sizeof := h'.sizeof.trans h.sizeof
  todo := h'.todo.trans h.todo
  processing := h'.processing.trans h.processing
  errors := h'.errors.trans h.errors
  offset hid := (h'.offset hid).trans (h.offset hid)

theorem mono (h : Frame own st st') (hown : ∀ id, own id → own' id) : Frame own' st st' where
  __ := h
  offset hid := h.offset (mt (hown _) hid)

theorem setOffset (st : State) {id : SlotName} (hid : own id) (off : ℤ) :
    Frame own st (st.setOffset id off) where
  sizeof := rfl
  todo := rfl
  processing := rfl
  errors := rfl
  offset h := Function.update_of_ne (fun heq => h (by rwa [heq])) ..

end Frame

/-- The fields of a pass. -/
def Matches (P : Types) (s : ℤ) (fields : List IrField) (f : IrField) : Prop :=
  f ∈ fields ∧ (sizeMatch P f s).isSome

theorem Matches.cons_iff {s : ℤ} {g : IrField} :
    Matches P s (f :: fields) g ↔ g = f ∧ (sizeMatch P f s).isSome ∨ Matches P s fields g := by
  unfold Matches
  rw [List.mem_cons, or_and_right]
  refine or_congr_left (and_congr_right fun h => ?_)
  rw [h]

/-- What a pass does. -/
structure PassSpec (P : Types) (s off : ℤ) (fields : List IrField) (st st' : State) (off' : ℤ) :
    Prop where
  frame : Frame (fun id => ∃ f, Matches P s fields f ∧ f.id = id) st st'
  exact (h : 0 ≤ off) (h' : passEnd P s off fields < 0x80000000) : off' = passEnd P s off fields
  segment (h : 0 ≤ off) (h' : passEnd P s off fields < 0x80000000) :
    Segment (fun f => st'.offset f.id) (incr P s) off off' (Matches P s fields)
  aligned (h : 0 ≤ off) (h' : passEnd P s off fields < 0x80000000) (hoff : s ∣ off) {f : IrField}
    (hf : Matches P s fields f) : s ∣ st'.offset f.id

namespace PassSpec

variable {s off' n : ℤ}

theorem nil (st : State) (off : ℤ) : PassSpec P s off [] st st off where
  frame := .refl st
  exact _ _ := rfl
  segment _ _ := .empty (le_refl off) fun _ h => List.not_mem_nil h.1
  aligned _ _ _ _ hf := absurd hf.1 List.not_mem_nil

/-- A field of another size. -/
theorem skip (h : PassSpec P s off fields st st' off') (hm : sizeMatch P f s = none) :
    PassSpec P s off (f :: fields) st st' off' := by
  have hend : passEnd P s off (f :: fields) = passEnd P s off fields := by
    rw [passEnd, incr, hm, Option.getD_none, add_zero]
  have hiff : ∀ g, Matches P s (f :: fields) g ↔ Matches P s fields g := fun g => by
    rw [Matches.cons_iff, hm]
    simp
  refine ⟨h.frame.mono ?_, ?_, ?_, ?_⟩
  · rintro id ⟨g, hg, rfl⟩
    exact ⟨g, (hiff g).mpr hg, rfl⟩
  · rw [hend]
    exact h.exact
  · rw [hend]
    exact fun h₀ h₁ => (h.segment h₀ h₁).of_imp fun g => (hiff g).mp
  · rw [hend]
    exact fun h₀ h₁ hoff g hg => h.aligned h₀ h₁ hoff ((hiff g).mp hg)

/-- A field of the size of the pass. -/
theorem cons (hs : 0 ≤ s) (hf : f.id ∉ fields.map (·.id)) (hm : sizeMatch P f s = some n)
    (h : PassSpec P s (int32 (off + n)) fields (st.setOffset f.id off) st' off') :
    PassSpec P s off (f :: fields) st st' off' := by
  have hincr : incr P s f = n := by rw [incr, hm, Option.getD_some]
  have hend : passEnd P s off (f :: fields) = passEnd P s (off + n) fields := by
    rw [passEnd, hincr]
  have hself : st'.offset f.id = off := by
    refine (h.frame.offset ?_).trans (Function.update_self ..)
    rintro ⟨g, hg, heq⟩
    exact hf (List.mem_map.mpr ⟨g, hg.1, heq⟩)
  have hn : 0 ≤ n := hincr ▸ incr_nonneg hs f
  -- Without overflow the next field starts at `off + n`.
  have hnext : 0 ≤ off → passEnd P s off (f :: fields) < 0x80000000 →
      int32 (off + n) = off + n := by
    intro h₀ h₁
    rw [hend] at h₁
    exact int32_eq (add_nonneg h₀ hn) (lt_of_le_of_lt (le_passEnd hs _ _) h₁)
  refine ⟨?_, fun h₀ h₁ => ?_, fun h₀ h₁ => ?_, fun h₀ h₁ hoff g hg => ?_⟩
  · have hown : ∃ g, Matches P s (f :: fields) g ∧ g.id = f.id :=
      ⟨f, Matches.cons_iff.mpr (.inl ⟨rfl, by rw [hm]; rfl⟩), rfl⟩
    refine (Frame.setOffset st hown off).trans (h.frame.mono ?_)
    rintro id ⟨g, hg, rfl⟩
    exact ⟨g, Matches.cons_iff.mpr (.inr hg), rfl⟩
  · have hx := hnext h₀ h₁
    rw [hend] at h₁ ⊢
    rw [hx] at h
    exact h.exact (add_nonneg h₀ hn) h₁
  · have hx := hnext h₀ h₁
    rw [hend] at h₁
    rw [hx] at h
    have hone : Segment (fun f => st'.offset f.id) (incr P s) off (off + n) (· = f) :=
      .single f hself (hincr ▸ hn) (by rw [hincr])
    refine (hone.union (h.segment (add_nonneg h₀ hn) h₁)).of_imp fun g hg => ?_
    exact (Matches.cons_iff.mp hg).imp_left And.left
  · have hx := hnext h₀ h₁
    rw [hend] at h₁
    rw [hx] at h
    rcases Matches.cons_iff.mp hg with ⟨rfl, -⟩ | hg
    · exact hself ▸ hoff
    · exact h.aligned (add_nonneg h₀ hn) h₁ (Int.dvd_add hoff (hincr ▸ dvd_incr s f)) hg

end PassSpec

theorem layoutPass_cons (s : ℤ) (f : IrField) (fields : List IrField) (st : State) (off : ℤ) :
    layoutPass P s (f :: fields) st off =
      match sizeMatch P f s with
      | some n => layoutPass P s fields (st.setOffset f.id off) (int32 (off + n))
      | none => layoutPass P s fields st off := by
  unfold layoutPass
  rw [List.foldl_cons]
  cases sizeMatch P f s <;> rfl

theorem layoutPass_spec {s : ℤ} (hs : 0 ≤ s) (hnodup : (fields.map (·.id)).Nodup) (st : State)
    (off : ℤ) :
    PassSpec P s off fields st (layoutPass P s fields st off).1
      (layoutPass P s fields st off).2 := by
  induction fields generalizing st off with
  | nil => exact .nil st off
  | cons f fields ih =>
    obtain ⟨hf, hnodup⟩ := List.nodup_cons.mp hnodup
    rw [layoutPass_cons]
    cases hm : sizeMatch P f s with
    | none => exact (ih hnodup st off).skip hm
    | some n => exact .cons hs hf hm (ih hnodup _ _)

/-! ### The passes -/

/-- A field belongs to one pass. -/
theorem sizeMatch_unique {s s' n n' : ℤ} (h : sizeMatch P f s = some n)
    (h' : sizeMatch P f s' = some n') : s = s' := by
  unfold sizeMatch at h h'
  split at h
  · split_ifs at h h' <;> simp_all
  · split_ifs at h h' <;> simp_all

theorem incr_eq_zero {s : ℤ} (h : (sizeMatch P f s).isSome) (t : ℤ) (hne : s ≠ t) :
    incr P t f = 0 := by
  obtain ⟨n, hn⟩ := Option.isSome_iff_exists.mp h
  unfold incr
  cases h' : sizeMatch P f t with
  | none => rfl
  | some n' => exact absurd (sizeMatch_unique hn h') hne

/-- The size of a field of one of the passes. -/
def fixedRoom (P : Types) (f : IrField) : ℤ := incr P 1 f + incr P 2 f + incr P 4 f

theorem fixedRoom_eq {s : ℤ} (h : (sizeMatch P f s).isSome) (hs : s = 1 ∨ s = 2 ∨ s = 4) :
    fixedRoom P f = incr P s f := by
  unfold fixedRoom
  rcases hs with rfl | rfl | rfl
  · simp only [incr_eq_zero h 2 (by decide), incr_eq_zero h 4 (by decide), add_zero]
  · simp only [incr_eq_zero h 1 (by decide), incr_eq_zero h 4 (by decide), add_zero, zero_add]
  · simp only [incr_eq_zero h 1 (by decide), incr_eq_zero h 2 (by decide), zero_add]

/-- The alignment of a field is that of its pass. -/
theorem min_fixedRoom {s : ℤ} (h : (sizeMatch P f s).isSome) (hs : s = 1 ∨ s = 2 ∨ s = 4) :
    min (fixedRoom P f) 4 = s := by
  rw [fixedRoom_eq h hs]
  obtain ⟨n, hn⟩ := Option.isSome_iff_exists.mp h
  rw [incr, hn, Option.getD_some]
  rcases sizeMatch_eq_some hn with rfl | ⟨rfl, rfl⟩
  · rcases hs with rfl | rfl | rfl <;> rfl
  · rfl

theorem fixedRoom_nonneg (f : IrField) : 0 ≤ fixedRoom P f :=
  add_nonneg (add_nonneg (incr_nonneg (by decide) f) (incr_nonneg (by decide) f))
    (incr_nonneg (by decide) f)

theorem isFixed_iff : isFixed P f ↔
    (sizeMatch P f 1).isSome ∨ (sizeMatch P f 2).isSome ∨ (sizeMatch P f 4).isSome := by
  simp only [isFixed, Bool.or_eq_true, or_assoc]

/-- What the passes do. -/
structure FixedSpec (P : Types) (off : ℤ) (fields : List IrField) (st st' : State) (off' : ℤ) :
    Prop where
  frame : Frame (fun id => ∃ f ∈ fields, isFixed P f ∧ f.id = id) st st'
  exact (h : 0 ≤ off) (h' : fixedEnd P off fields < 0x80000000) : off' = fixedEnd P off fields
  segment (h : 0 ≤ off) (h' : fixedEnd P off fields < 0x80000000) :
    Segment (fun f => st'.offset f.id) (fixedRoom P) off off' fun f => f ∈ fields ∧ isFixed P f
  aligned (h : 0 ≤ off) (h' : fixedEnd P off fields < 0x80000000) {f : IrField} (hf : f ∈ fields)
    (hfix : isFixed P f) : min (fixedRoom P f) 4 ∣ st'.offset f.id
  /-- The only field is laid out at the start. -/
  only (h : 0 ≤ off) (h' : fixedEnd P off fields < 0x80000000) (hoff : 4 ∣ off) {f : IrField}
    (hf : fields = [f]) (hfix : isFixed P f) : st'.offset f.id = off

/-- Later passes leave the fields of a pass alone. -/
theorem PassSpec.offset_eq {s t off' : ℤ} (h : PassSpec P t off fields st st' off')
    (hnodup : (fields.map (·.id)).Nodup) (hne : s ≠ t) (hf : Matches P s fields f) :
    st'.offset f.id = st.offset f.id := by
  refine h.frame.offset ?_
  rintro ⟨g, hg, heq⟩
  obtain rfl := List.inj_on_of_nodup_map hnodup hg.1 hf.1 heq
  obtain ⟨n, hn⟩ := Option.isSome_iff_exists.mp hf.2
  obtain ⟨m, hm⟩ := Option.isSome_iff_exists.mp hg.2
  exact hne (sizeMatch_unique hn hm)

/-- Where the passes start, if no offset overflows. -/
structure Starts (P : Types) (off : ℤ) (fields : List IrField) (off₁ off₂ : ℤ) : Prop where
  fits₁ : passEnd P 1 off fields < 0x80000000
  nonneg₂ : 0 ≤ align 2 off₁
  start₂ : align 2 off₁ = alignUp 2 (passEnd P 1 off fields)
  le₂ : off₁ ≤ align 2 off₁
  fits₂ : passEnd P 2 (align 2 off₁) fields < 0x80000000
  nonneg₄ : 0 ≤ align 4 off₂
  start₄ : align 4 off₂ = alignUp 4 (passEnd P 2 (align 2 off₁) fields)
  le₄ : off₂ ≤ align 4 off₂
  fits₄ : passEnd P 4 (align 4 off₂) fields < 0x80000000
  fixedEnd : passEnd P 4 (align 4 off₂) fields = fixedEnd P off fields

section

variable {st₁ st₂ st₃ : State} {off₁ off₂ off₃ : ℤ}

theorem PassSpec.starts (h₁ : PassSpec P 1 off fields st st₁ off₁)
    (h₂ : PassSpec P 2 (align 2 off₁) fields st₁ st₂ off₂) (h : 0 ≤ off)
    (h' : fixedEnd P off fields < 0x80000000) : Starts P off fields off₁ off₂ := by
  have hle₁ : off ≤ passEnd P 1 off fields := le_passEnd (by decide) ..
  have hle₂ : passEnd P 1 off fields ≤ alignUp 2 (passEnd P 1 off fields) :=
    le_alignUp (by decide) _
  have hle₃ := le_passEnd (P := P) (s := 2) (by decide) (alignUp 2 (passEnd P 1 off fields)) fields
  have hle₄ : passEnd P 2 (alignUp 2 (passEnd P 1 off fields)) fields ≤
      alignUp 4 (passEnd P 2 (alignUp 2 (passEnd P 1 off fields)) fields) :=
    le_alignUp (by decide) _
  have hle₅ := le_passEnd (P := P) (s := 4) (by decide)
    (alignUp 4 (passEnd P 2 (alignUp 2 (passEnd P 1 off fields)) fields)) fields
  have hend : passEnd P 4 (alignUp 4 (passEnd P 2 (alignUp 2 (passEnd P 1 off fields)) fields))
      fields = fixedEnd P off fields := rfl
  have hoff₁ := h₁.exact h (by omega)
  have halign₂ : align 2 off₁ = alignUp 2 (passEnd P 1 off fields) := by
    rw [align, hoff₁, int32_eq (by omega) (by omega)]
  have hoff₂ := h₂.exact (by rw [halign₂]; omega) (by rw [halign₂]; omega)
  have halign₄ : align 4 off₂ = alignUp 4 (passEnd P 2 (align 2 off₁) fields) := by
    rw [align, hoff₂, halign₂, int32_eq (by omega) (by omega)]
  rw [← halign₂] at hle₂ hle₃ hle₄ hle₅ hend
  rw [← halign₄] at hle₄ hle₅ hend
  rw [← hoff₁] at hle₁ hle₂
  rw [← hoff₂] at hle₃ hle₄
  exact ⟨by omega, by omega, halign₂, hle₂, by omega, by omega, halign₄, hle₄, by omega, hend⟩

/-- The fields of the passes. -/
theorem isFixed_iff_matches : f ∈ fields ∧ isFixed P f ↔
    (Matches P 1 fields f ∨ Matches P 2 fields f) ∨ Matches P 4 fields f := by
  rw [isFixed_iff, and_or_left, and_or_left, or_assoc]
  rfl

/-- The only field of the passes starts where its pass does. -/
theorem PassSpec.only {s off' : ℤ} (h : PassSpec P s off [f] st st' off') (h₀ : 0 ≤ off)
    (h' : passEnd P s off [f] < 0x80000000) (hf : Matches P s [f] f) : st'.offset f.id = off := by
  have hend : off' = off + incr P s f := h.exact h₀ h'
  have := (h.segment h₀ h').within hf
  omega

/-- A pass with no field to lay out. -/
theorem passEnd_of_matches {s t : ℤ} (hf : Matches P s [f] f) (hne : s ≠ t) (off : ℤ) :
    passEnd P t off [f] = off := by
  rw [passEnd, passEnd, incr_eq_zero hf.2 t hne, add_zero]

theorem FixedSpec.of_passes (hnodup : (fields.map (·.id)).Nodup)
    (h₁ : PassSpec P 1 off fields st st₁ off₁)
    (h₂ : PassSpec P 2 (align 2 off₁) fields st₁ st₂ off₂)
    (h₃ : PassSpec P 4 (align 4 off₂) fields st₂ st₃ off₃) :
    FixedSpec P off fields st st₃ off₃ := by
  have hone : ∀ f, Matches P 1 fields f → st₃.offset f.id = st₁.offset f.id := fun f hf =>
    (h₃.offset_eq hnodup (by decide) hf).trans (h₂.offset_eq hnodup (by decide) hf)
  have htwo : ∀ f, Matches P 2 fields f → st₃.offset f.id = st₂.offset f.id := fun f hf =>
    h₃.offset_eq hnodup (by decide) hf
  refine ⟨?_, fun h h' => ?_, fun h h' => ?_, fun h h' f hf hfix => ?_,
    fun h h' hoff f hf hfix => ?_⟩
  · have hown : ∀ {s : ℤ}, s = 1 ∨ s = 2 ∨ s = 4 → ∀ id, (∃ f, Matches P s fields f ∧ f.id = id) →
        ∃ f ∈ fields, isFixed P f ∧ f.id = id := by
      rintro s hs id ⟨f, hf, rfl⟩
      refine ⟨f, hf.1, isFixed_iff.mpr ?_, rfl⟩
      rcases hs with rfl | rfl | rfl
      · exact .inl hf.2
      · exact .inr (.inl hf.2)
      · exact .inr (.inr hf.2)
    exact ((h₁.frame.mono (hown (.inl rfl))).trans (h₂.frame.mono (hown (.inr (.inl rfl))))).trans
      (h₃.frame.mono (hown (.inr (.inr rfl))))
  · have hs := h₁.starts h₂ h h'
    rw [h₃.exact hs.nonneg₄ hs.fits₄, hs.fixedEnd]
  · have hs := h₁.starts h₂ h h'
    have hs₁ : Segment (fun f => st₃.offset f.id) (fixedRoom P) off _ (Matches P 1 fields) :=
      ((h₁.segment h hs.fits₁).widen hs.le₂).mono (fun _ h => h) hone
        fun f hf => fixedRoom_eq hf.2 (.inl rfl)
    have hs₂ : Segment (fun f => st₃.offset f.id) (fixedRoom P) _ _ (Matches P 2 fields) :=
      ((h₂.segment hs.nonneg₂ hs.fits₂).widen hs.le₄).mono (fun _ h => h) htwo
        fun f hf => fixedRoom_eq hf.2 (.inr (.inl rfl))
    have hs₃ : Segment (fun f => st₃.offset f.id) (fixedRoom P) _ off₃ (Matches P 4 fields) :=
      (h₃.segment hs.nonneg₄ hs.fits₄).mono (fun _ h => h) (fun _ _ => rfl)
        fun f hf => fixedRoom_eq hf.2 (.inr (.inr rfl))
    exact ((hs₁.union hs₂).union hs₃).of_imp fun f => isFixed_iff_matches.mp
  · have hs := h₁.starts h₂ h h'
    rcases isFixed_iff_matches.mp ⟨hf, hfix⟩ with (hm | hm) | hm
    · rw [min_fixedRoom hm.2 (.inl rfl)]
      exact one_dvd _
    · rw [min_fixedRoom hm.2 (.inr (.inl rfl)), htwo f hm]
      exact h₂.aligned hs.nonneg₂ hs.fits₂ (hs.start₂ ▸ dvd_alignUp 2 _) hm
    · rw [min_fixedRoom hm.2 (.inr (.inr rfl))]
      exact h₃.aligned hs.nonneg₄ hs.fits₄ (hs.start₄ ▸ dvd_alignUp 4 _) hm
  · subst hf
    have hs := h₁.starts h₂ h h'
    have hoff₂ : 2 ∣ off := Int.dvd_trans (by decide) hoff
    rcases isFixed_iff_matches.mp ⟨List.mem_singleton_self f, hfix⟩ with (hm | hm) | hm
    · rw [hone f hm]
      exact h₁.only h hs.fits₁ hm
    · rw [htwo f hm, h₂.only hs.nonneg₂ hs.fits₂ hm, hs.start₂,
        passEnd_of_matches hm (by decide), alignUp_eq hoff₂]
    · rw [h₃.only hs.nonneg₄ hs.fits₄ hm, hs.start₄, passEnd_of_matches hm (by decide), hs.start₂,
        passEnd_of_matches hm (by decide), alignUp_eq hoff₂, alignUp_eq hoff]

end

end Sedona.FieldLayout
