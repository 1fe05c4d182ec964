import Sedona.Compiler.FieldPasses
import Sedona.Library.Ends

/-!
# Inlined Fields

The types that are being laid out, and the inlined objects and arrays behind the fields of the
passes. The type of an inlined object is laid out when the object is met, so that the invariant
of the whole layout is needed here: what has been laid out has its size and stays as it is, and
an error has been reported only if there is a cycle.

## Main results

* `Inv`, `Ext`: the invariant, and what may change while further types are laid out.
* `layoutInlines_spec`: the inlined objects and arrays of a type.
-/

namespace Sedona.FieldLayout

open ImageGen (TypeName SlotName)
open Blocks State

variable {P : Types} {st st' st'' : State} {f : IrField} {fields : List IrField} {off : ℤ}
  {σ τ : TypeName → ℤ}

/-! ### The invariant -/

/-- The size of a field with room of its own. -/
def room (P : Types) (σ : TypeName → ℤ) (f : IrField) : ℤ :=
  if isFixed P f then fixedRoom P f else exactInline P σ f

/-- The field has room of its own. -/
def HasRoom (P : Types) (f : IrField) : Prop := isFixed P f ∨ isSized P f

/-- The fields are laid out from `lo` to `hi`. -/
structure LaidOut (P : Types) (st : State) (fields : List IrField) (lo hi : ℤ) : Prop where
  segment : Segment (fun f => st.offset f.id) (room P st.sizeof) lo hi fun f =>
    f ∈ fields ∧ HasRoom P f
  fixed {f : IrField} (hf : f ∈ fields) (h : isFixed P f) :
    min (fixedRoom P f) 4 ∣ st.offset f.id
  sized {f : IrField} (hf : f ∈ fields) (h : isSized P f) : 4 ∣ st.offset f.id
  unsized {f : IrField} (hf : f ∈ fields) (h : isUnsized f) : st.offset f.id = hi
  only (h : 4 ∣ lo) {f : IrField} (hf : fields = [f]) (hfix : isFixed P f) : st.offset f.id = lo
  dvd : 4 ∣ hi

/-- The type has been laid out. -/
structure Done (P : Types) (st : State) (t : IrType) : Prop where
  hasSize : HasSize P t.name (st.sizeof t.name)
  needs {u : TypeName} (h : Needs P t.name u) : u ∉ st.todo
  laidOut : LaidOut P st t.instanceFields (startOf st.sizeof t) (st.sizeof t.name)

structure Inv (P : Types) (st : State) : Prop where
  nodup : st.processing.Nodup
  todoNodup : st.todo.Nodup
  todo {u : TypeName} (h : u ∈ st.processing) : u ∈ st.todo
  names {u : TypeName} (h : u ∈ st.todo) : ∃ t ∈ P.types, t.name = u
  /-- Each type that is being laid out is needed by the one before. -/
  chain : st.processing.IsChain fun a b => Needs P b a
  cyclic {a : TypeName} (h : a ∈ st.errors) : Relation.TransGen (Needs P) a a
  unknown {u : TypeName} (h : u ∈ st.todo) : st.sizeof u = -1
  fresh {t : IrType} (ht : t ∈ P.types) (h : t.name ∈ st.todo) (h' : t.name ∉ st.processing)
    {f : IrField} (hf : f ∈ t.instanceFields) : st.offset f.id = -1
  done (h : st.errors = []) {t : IrType} (ht : t ∈ P.types) (h' : t.name ∉ st.todo) : Done P st t

/-- What may change while further types are laid out, and the fields in `own`. -/
structure Ext (P : Types) (own : SlotName → Prop) (st st' : State) : Prop where
  sizeof {u : TypeName} (h : u ∉ st.todo ∨ u ∈ st.processing) : st'.sizeof u = st.sizeof u
  offset {id : SlotName} (h : ¬own id)
    (h' : ∀ t ∈ P.types, t.name ∈ st.todo → t.name ∉ st.processing →
      ∀ f ∈ t.instanceFields, f.id ≠ id) : st'.offset id = st.offset id
  todo {u : TypeName} (h : u ∈ st'.todo) : u ∈ st.todo
  processing : st'.processing = st.processing
  errors (h : st'.errors = []) : st.errors = []

/-- Types have been reported, all of which are inside of themselves. -/
structure Reported (P : Types) (c : Crash) : Prop where
  errors : c.errors ≠ []
  cyclic {a : TypeName} (h : a ∈ c.errors) : Relation.TransGen (Needs P) a a

namespace Ext

variable {own own' : SlotName → Prop}

theorem refl (st : State) : Ext P own st st := ⟨fun _ => rfl, fun _ _ => rfl, id, rfl, id⟩

theorem trans (h : Ext P own st st') (h' : Ext P own st' st'') : Ext P own st st'' where
  sizeof hu := by
    refine (h'.sizeof ?_).trans (h.sizeof hu)
    rw [h.processing]
    exact hu.imp_left (mt h.todo)
  offset hid hne := by
    refine (h'.offset hid fun t ht htodo hproc => ?_).trans (h.offset hid hne)
    rw [h.processing] at hproc
    exact hne t ht (h.todo htodo) hproc
  todo hu := h.todo (h'.todo hu)
  processing := h'.processing.trans h.processing
  errors he := h.errors (h'.errors he)

theorem mono (h : Ext P own st st') (hown : ∀ id, own id → own' id) : Ext P own' st st' where
  __ := h
  offset hid := h.offset (mt (hown _) hid)

theorem of_frame (h : Frame own st st') : Ext P own st st' where
  sizeof _ := by rw [h.sizeof]
  offset hid _ := h.offset hid
  todo hu := h.todo ▸ hu
  processing := h.processing
  errors he := h.errors ▸ he

end Ext

/-- A crash after an error. -/
theorem Inv.crash {α : Type} {Q : α → Prop} (hinv : Inv P st) (h : st.errors ≠ []) (msg : String) :
    Ends Q (Reported P) (st.crash msg) :=
  .error ⟨h, hinv.cyclic⟩

theorem room_congr (hf : HasRoom P f) (h : ∀ u, need P f = some u → σ u = τ u) :
    room P σ f = room P τ f := by
  unfold room
  split
  · rfl
  · next hfix => exact exactInline_congr (hf.resolve_left hfix) h

theorem LaidOut.congr {lo hi : ℤ} (h : LaidOut P st fields lo hi)
    (hneeds : ∀ f ∈ fields, ∀ u, need P f = some u → st'.sizeof u = st.sizeof u)
    (hoff : ∀ f ∈ fields, st'.offset f.id = st.offset f.id) : LaidOut P st' fields lo hi where
  segment := h.segment.mono (fun _ hf => hf) (fun f hf => hoff f hf.1) fun f hf =>
    room_congr hf.2 (hneeds f hf.1)
  fixed hf hfix := hoff _ hf ▸ h.fixed hf hfix
  sized hf hs := hoff _ hf ▸ h.sized hf hs
  unsized hf hu := hoff _ hf ▸ h.unsized hf hu
  only hlo _ hf hfix := (hoff _ (hf ▸ List.mem_singleton_self _)).trans (h.only hlo hf hfix)
  dvd := h.dvd

/-- What has been laid out stays so. -/
theorem Done.congr {t : IrType} (h : Done P st t) (ht : t ∈ P.types)
    (hsize : st'.sizeof t.name = st.sizeof t.name)
    (hneeds : ∀ u, Needs P t.name u → st'.sizeof u = st.sizeof u)
    (hoff : ∀ f ∈ t.instanceFields, st'.offset f.id = st.offset f.id)
    (htodo : ∀ u ∈ st'.todo, u ∈ st.todo) : Done P st' t where
  hasSize := hsize ▸ h.hasSize
  needs hu := mt (htodo _) (h.needs hu)
  laidOut := by
    have hstart : startOf st'.sizeof t = startOf st.sizeof t :=
      startOf_congr fun b hb => hneeds b (.base ht rfl hb)
    rw [hstart, hsize]
    exact h.laidOut.congr (fun f hf u hu => hneeds u (.inline ht rfl hf hu)) hoff

/-- Fields of types that are being laid out, and static fields. -/
def NotOwned (P : Types) (proc : List TypeName) (id : SlotName) : Prop :=
  ∀ t ∈ P.types, t.name ∉ proc → ∀ g ∈ t.instanceFields, g.id ≠ id

theorem Inv.frame {own : SlotName → Prop} (h : Inv P st) (hf : Frame own st st')
    (hown : ∀ id, own id → NotOwned P st.processing id) : Inv P st' where
  nodup := hf.processing ▸ h.nodup
  todoNodup := hf.todo ▸ h.todoNodup
  todo hu := hf.todo ▸ h.todo (hf.processing ▸ hu)
  names hu := h.names (hf.todo ▸ hu)
  chain := hf.processing ▸ h.chain
  cyclic he := h.cyclic (hf.errors ▸ he)
  unknown hu := by
    rw [hf.sizeof]
    exact h.unknown (hf.todo ▸ hu)
  fresh ht htodo hproc g hg := by
    rw [hf.todo] at htodo
    rw [hf.processing] at hproc
    rw [hf.offset fun hid => hown _ hid _ ht hproc g hg rfl]
    exact h.fresh ht htodo hproc hg
  done he t ht htodo := by
    rw [hf.todo] at htodo
    have hproc : t.name ∉ st.processing := fun hp => htodo (h.todo hp)
    refine (h.done (hf.errors ▸ he) ht htodo).congr ht (by rw [hf.sizeof])
      (fun _ _ => by rw [hf.sizeof]) (fun g hg => ?_) fun u hu => hf.todo ▸ hu
    exact hf.offset fun hid => hown _ hid _ ht hproc g hg rfl

/-- A type whose size is known. -/
def Known (P : Types) (st : State) (u : TypeName) : Prop :=
  u ∈ P.types.map (·.name) ∧ u ∉ st.todo

theorem Inv.hasSize (h : Inv P st) (he : st.errors = []) {u : TypeName} (hu : Known P st u) :
    HasSize P u (st.sizeof u) := by
  obtain ⟨⟨t, ht, rfl⟩, htodo⟩ := hu.imp_left List.mem_map.mp
  exact (h.done he ht htodo).hasSize

/-- The sizes agree with those that are known. -/
def Agrees (P : Types) (st : State) (σ : TypeName → ℤ) : Prop :=
  ∀ u, Known P st u → σ u = st.sizeof u

open Classical in
/-- The sizes that are known. -/
noncomputable def knownSizes (P : Types) (st : State) : TypeName → ℤ := fun u =>
  if Known P st u then st.sizeof u else 0

theorem Inv.sizesOf (h : Inv P st) (he : st.errors = []) : SizesOf P (knownSizes P st) := by
  intro u
  unfold knownSizes
  split
  · next hu => exact .inr (h.hasSize he hu)
  · exact .inl rfl

theorem agrees_knownSizes : Agrees P st (knownSizes P st) := fun _ hu => if_pos hu

theorem SizesOf.nonneg (hacc : Accepted P) (hfits : Fits P) (h : SizesOf P σ) (u : TypeName) :
    0 ≤ σ u :=
  (h u).elim (fun h => h.ge) fun h => h.nonneg hacc hfits

/-- What is known stays known, at the same size. -/
theorem Ext.known {own : SlotName → Prop} (h : Ext P own st st') {u : TypeName}
    (hu : Known P st u) : Known P st' u ∧ st'.sizeof u = st.sizeof u :=
  ⟨⟨hu.1, mt h.todo hu.2⟩, h.sizeof (.inl hu.2)⟩

theorem Ext.agrees {own : SlotName → Prop} (h : Ext P own st st') (hσ : Agrees P st' σ) :
    Agrees P st σ := fun u hu => (hσ u (h.known hu).1).trans (h.known hu).2

/-! ### Inline fields -/

/-- What a call for a type that is needed does, while the types `proc` are being laid out. -/
def LaysOut (P : Types) (proc : List TypeName) (needed : TypeName → Prop)
    (layoutType : State → TypeName → Except Crash State) : Prop :=
  ∀ st u, Inv P st → st.processing = proc → needed u →
    Ends (fun st' => Inv P st' ∧ Ext P (fun _ => False) st st' ∧ (st'.errors = [] → u ∉ st'.todo))
      (Reported P) (layoutType st u)

theorem isFixed_of_primitive {p : Primitive} (h : f.type = .primitive p) : isFixed P f := by
  rw [isFixed_iff]
  cases p <;> simp [sizeMatch, h, Primitive.sizeof]

/-- A field that is not inline is laid out in the pass of its size. -/
theorem isFixed_of_not_isInline (hacc : Accepted P) (h : ¬f.isInline) : isFixed P f := by
  rw [isFixed_iff]
  cases ht : f.type with
  | primitive p => exact isFixed_iff.mp (isFixed_of_primitive ht)
  | type | array =>
    cases hc : f.isConst with
    | true => simp [sizeMatch, ht, hc, h]
    | false =>
      rcases hacc.refSize with href | href | href <;> simp [sizeMatch, ht, hc, h, href]

theorem not_primitive (hs : isSized P f) {p : Primitive} : f.type ≠ .primitive p := fun h => by
  simp [isSized, isFixed_of_primitive h] at hs

/-- The state after a type has been laid out that the field needs, and whether its size is
known. -/
structure NeededSpec (P : Types) (f : IrField) (st : State) (r : State × Bool) : Prop where
  inv : Inv P r.1
  ext : Ext P (fun _ => False) st r.1
  known (h : r.1.errors = []) : r.2
  needs (h : r.1.errors = []) {u : TypeName} (hu : need P f = some u) : Known P r.1 u

section

variable {proc : List TypeName} {needed : TypeName → Prop}
  {layoutType : State → TypeName → Except Crash State}

theorem NeededSpec.refl (hinv : Inv P st) (hn : need P f = none) : NeededSpec P f st (st, true) where
  inv := hinv
  ext := .refl st
  known _ := rfl
  needs _ _ hu := by
    rw [hn] at hu
    cases hu

/-- The call for the type of a field. -/
theorem layoutNeeded_type (hacc : Accepted P) (hfits : Fits P)
    (hrec : LaysOut P proc needed layoutType) (hinv : Inv P st) (hproc : st.processing = proc)
    {u : TypeName} (hu : u ∈ P.types.map (·.name)) (hneed : needed u) (hn : need P f = some u) :
    Ends (NeededSpec P f st) (Reported P) (layoutNeeded layoutType st (some (.type u))) := by
  have hone : ∀ {st'}, Known P st' u → ∀ {v}, need P f = some v → Known P st' v := by
    intro st' hk v hv
    obtain rfl := Option.some.inj (hn.symm.trans hv)
    exact hk
  refine .ite (fun hneg => ?_) fun hnonneg => ?_
  · refine (hrec st u hinv hproc hneed).bind fun st' ⟨hinv', hext, htodo⟩ => ?_
    refine .ok ⟨hinv', hext, fun he => ?_, fun he => hone ⟨hu, htodo he⟩⟩
    exact decide_eq_true ((hinv'.hasSize he ⟨hu, htodo he⟩).nonneg hacc hfits)
  · refine .ok ⟨hinv, .refl st, fun _ => rfl, fun _ => hone ⟨hu, fun htodo => ?_⟩⟩
    rw [hinv.unknown htodo] at hnonneg
    exact hnonneg (by decide)

theorem layoutNeeded_spec (hacc : Accepted P) (hfits : Fits P)
    (hrec : LaysOut P proc needed layoutType) (hinv : Inv P st) (hproc : st.processing = proc)
    (hinl : Inline P f) (hs : isSized P f) (hneed : ∀ u, need P f = some u → needed u)
    (hvalues : st.errors = [] → ∀ p len, f.type = .array (.primitive p) (some len) →
      0 ≤ p.sizeof * len ∧ p.sizeof * len < 0x80000000) :
    Ends (NeededSpec P f st) (Reported P) (layoutNeeded layoutType st (recurse f)) := by
  have htype : ∀ u, u ∈ P.types.map (·.name) → recurse f = some (.type u) →
      Ends (NeededSpec P f st) (Reported P) (layoutNeeded layoutType st (recurse f)) := by
    intro u hu hr
    have hn : need P f = some u := by rw [need, if_pos hs, hr]
    rw [hr]
    exact layoutNeeded_type hacc hfits hrec hinv hproc hu (hneed u hn) hn
  cases hinl with
  | primitive h => exact absurd h (not_primitive hs)
  | object h hu | dynamic h hu => exact htype _ hu (by rw [recurse, h])
  | instances h hu hinit =>
    exact htype _ hu (by simp only [recurse, h, FieldType.isRef, hinit, if_true])
  | refs h href hinit =>
    have hr : recurse f = none := by
      simp only [recurse, h, href, hinit, if_true, Bool.false_eq_true, if_false]
    rw [hr]
    exact .ok (.refl hinv (by rw [need, if_pos hs, hr]))
  | values h =>
    have hr : recurse f = some f.type := by
      simp only [recurse, h, FieldType.isRef, Bool.false_eq_true, if_false]
    have hn : need P f = none := by rw [need, if_pos hs, hr, h]
    rw [hr, h]
    refine .ite (fun hneg => hinv.crash (fun he => ?_) _) fun _ => .ok (.refl hinv hn)
    obtain ⟨h₀, h₁⟩ := hvalues he _ _ h
    rw [int32_eq h₀ h₁] at hneg
    omega

end

/-- The size of a field, once the types that it needs have been laid out. -/
theorem inlineSize_spec (hacc : Accepted P) (hfits : Fits P) (hlen : LengthsOk fields)
    (hf : f ∈ fields) (hinv : Inv P st) (hinl : Inline P f) (hs : isSized P f)
    (hneeds : st.errors = [] → ∀ u, need P f = some u → Known P st u)
    (hfit : st.errors = [] → exactInline P st.sizeof f < 0x80000000) :
    Ends (fun n => st.errors = [] → n = exactInline P st.sizeof f) (Reported P)
      (inlineSize P st f) := by
  have hsize : ∀ u, need P f = some u → st.errors = [] → 0 ≤ st.sizeof u := fun u hu he =>
    (hinv.hasSize he (hneeds he u hu)).nonneg hacc hfits
  have href := refSize_pos hacc
  cases hinl with
  | primitive h => exact absurd h (not_primitive hs)
  | object h hu hnone harg =>
    unfold inlineSize
    rw [h, harg, exactInline_object h harg]
    exact .ok fun _ => rfl
  | values h =>
    rw [exactInline_values h] at hfit ⊢
    unfold inlineSize
    rw [h]
    refine .ok fun he => int32_eq ?_ (hfit he)
    exact mul_nonneg (Primitive.sizeof_pos _).le (hlen.array hf h)
  | refs h hisRef hinit =>
    rw [exactInline_refs h hisRef hinit] at hfit ⊢
    unfold inlineSize
    rw [h]
    simp only [hisRef, hinit, if_true, Bool.false_eq_true, if_false]
    exact .ok fun he => int32_eq (mul_nonneg (hlen.array hf h) href.le) (hfit he)
  | @instances u len h hu hinit =>
    rw [exactInline_instances h hinit] at hfit ⊢
    unfold inlineSize
    rw [h]
    simp only [FieldType.isRef, hinit, if_true]
    refine .ok fun he => ?_
    have hn : need P f = some u := by
      simp only [need, hs, recurse, h, FieldType.isRef, hinit, if_true]
    have h₁ : 0 ≤ len * P.refSize := mul_nonneg (hlen.array hf h) href.le
    have h₂ : 0 ≤ len * st.sizeof u := mul_nonneg (hlen.array hf h) (hsize u hn he)
    have := hfit he
    rw [int32_eq h₁ (by omega), int32_eq h₂ (by omega), int32_eq (by omega) this]
  | @dynamic u g of n len h hu hg hof harg =>
    have hitem : itemSize P st of = .ok (unsizedItem P f.type) := by
      unfold unsizedItem itemSize
      rw [hg, Option.map_some, hof]
      cases of <;> rfl
    rw [exactInline_dynamic h harg] at hfit ⊢
    have hcalc : inlineSize P st f =
        .ok (int32 (st.sizeof u + int32 (unsizedItem P f.type * len))) := by
      unfold inlineSize
      rw [h, harg]
      unfold calcDynamicSize
      rw [hg, Option.map_some, hof]
      simp only [hitem, h]
      rfl
    rw [hcalc]
    refine .ok fun he => ?_
    have hn : need P f = some u := by simp only [need, hs, recurse, h, if_true]
    have h₁ := hsize u hn he
    have h₂ : 0 ≤ unsizedItem P f.type * len :=
      mul_nonneg (unsizedItem_nonneg hacc _) (hlen.ctor hf harg)
    have := hfit he
    rw [int32_eq h₂ (by omega), int32_eq (by omega) this]

/-- A field of another kind than the first one. -/
theorem mem_tail {p : IrField → Prop} {g : IrField} (hg : g ∈ f :: fields) (h : p g) (hf : ¬p f) :
    g ∈ fields := by
  rcases List.mem_cons.mp hg with rfl | hg
  · exact absurd h hf
  · exact hg

/-- The fields that are left over, with the unsized array. -/
def Own (unsized : Option IrField) (fields : List IrField) (id : SlotName) : Prop :=
  ∃ f, (f ∈ fields ∨ unsized = some f) ∧ f.id = id

theorem Own.self (unsized : Option IrField) (f : IrField) (fields : List IrField) :
    Own unsized (f :: fields) f.id :=
  ⟨f, .inl (List.mem_cons_self ..), rfl⟩

theorem Own.cons {unsized : Option IrField} (f : IrField) (id : SlotName)
    (h : Own unsized fields id) : Own unsized (f :: fields) id :=
  h.imp fun _ h => h.imp_left (Or.imp_left (List.mem_cons_of_mem f))

/-- What the passes leave to `layoutInlines`: the fields without an offset are not fixed, and
there is room up to the end. -/
structure Rest (P : Types) (st : State) (off : ℤ) (fields : List IrField) : Prop where
  offset {f : IrField} (h : f ∈ fields) : st.offset f.id = -1 ↔ ¬isFixed P f
  nonneg : 0 ≤ off
  dvd : 4 ∣ off
  fits {σ : TypeName → ℤ} (h : SizesOf P σ) (h' : Agrees P st σ) :
    inlinesEnd P σ off fields < 0x80000000

/-- What `layoutInlines` does. -/
structure InlinesSpec (P : Types) (st : State) (off : ℤ) (unsized : Option IrField)
    (fields : List IrField) (r : State × ℤ) : Prop where
  inv : Inv P r.1
  ext : Ext P (Own unsized fields) st r.1
  exact (h : r.1.errors = []) : r.2 = inlinesEnd P r.1.sizeof off fields
  needs (h : r.1.errors = []) {f : IrField} (hf : f ∈ fields) {u : TypeName}
    (hu : need P f = some u) : Known P r.1 u
  segment (h : r.1.errors = []) : Segment (fun f => r.1.offset f.id) (exactInline P r.1.sizeof)
    off r.2 fun f => f ∈ fields ∧ isSized P f
  sized (h : r.1.errors = []) {f : IrField} (hf : f ∈ fields) (hs : isSized P f) :
    4 ∣ r.1.offset f.id
  unsized (h : r.1.errors = []) {f : IrField} (hf : f ∈ fields ∧ isUnsized f ∨ unsized = some f) :
    r.1.offset f.id = r.2
  fixed (h : r.1.errors = []) {f : IrField} (hf : f ∈ fields) (hfix : isFixed P f) :
    r.1.offset f.id = st.offset f.id

namespace InlinesSpec

variable {unsized : Option IrField} {r : State × ℤ}

/-- After an error nothing else is left to say. -/
theorem of_errors (hinv : Inv P r.1) (hext : Ext P (Own unsized fields) st r.1)
    (he : r.1.errors ≠ []) : InlinesSpec P st off unsized fields r where
  inv := hinv
  ext := hext
  exact h := absurd h he
  needs h := absurd h he
  segment h := absurd h he
  sized h := absurd h he
  unsized h := absurd h he
  fixed h := absurd h he

/-- A field with no room of its own here. -/
theorem skip (h : InlinesSpec P st off unsized fields r) (hs : ¬isSized P f) (hu : ¬isUnsized f)
    (hkeep : r.1.errors = [] → isFixed P f → r.1.offset f.id = st.offset f.id) :
    InlinesSpec P st off unsized (f :: fields) r where
  inv := h.inv
  ext := h.ext.mono (Own.cons f)
  exact he := by rw [inlinesEnd, if_neg hs, h.exact he]
  needs he g hg u hgu := by
    rcases List.mem_cons.mp hg with rfl | hg
    · rw [need_eq_none hs] at hgu
      cases hgu
    · exact h.needs he hg hgu
  segment he := (h.segment he).of_imp fun _ hg =>
    ⟨mem_tail (p := fun g => isSized P g) hg.1 hg.2 hs, hg.2⟩
  sized he _ hg hgs := h.sized he (mem_tail (p := fun g => isSized P g) hg hgs hs) hgs
  unsized he _ hg := h.unsized he (hg.imp_left fun hg =>
    ⟨mem_tail (p := fun g => isUnsized g) hg.1 hg.2 hu, hg.2⟩)
  fixed he g hg hfix := by
    rcases List.mem_cons.mp hg with rfl | hg
    · exact hkeep he hfix
    · exact h.fixed he hg hfix

end InlinesSpec

section

variable {proc : List TypeName} {needed : TypeName → Prop}
  {layoutType : State → TypeName → Except Crash State} {all : List IrField}
  {unsized : Option IrField}

/-- What `layoutInlines` needs of the fields and of the unsized array so far. -/
structure InlinesOk (P : Types) (proc : List TypeName) (needed : TypeName → Prop)
    (unsized : Option IrField) (fields : List IrField) : Prop where
  nodup : (fields.map (·.id)).Nodup
  inline {f : IrField} (hf : f ∈ fields) (hi : f.isInline) (hc : ¬f.isConst)
    (hu : f.ctorLengthParam < 0) : Inline P f
  free {f : IrField} (hf : f ∈ fields) (hu : isUnsized f) : ¬isFixed P f
  lengths : LengthsOk fields
  one : (fields.filter fun f => isUnsized f).length ≤ 1
  needed {f : IrField} (hf : f ∈ fields) {u : TypeName} (hu : need P f = some u) : needed u
  notOwned {id : SlotName} (h : Own unsized fields id) : NotOwned P proc id
  unsized_ne {f g : IrField} (hf : unsized = some f) (hg : g ∈ fields) : f.id ≠ g.id
  unsized_one {f g : IrField} (hf : unsized = some f) (hg : g ∈ fields) : ¬isUnsized g

theorem LengthsOk.of_subset {all : List IrField} (h : LengthsOk all) (hsub : ∀ f ∈ fields, f ∈ all) :
    LengthsOk fields where
  array hf _ _ ht := h.array (hsub _ hf) ht
  ctor hf _ ht := h.ctor (hsub _ hf) ht

namespace InlinesOk

theorem ne (h : InlinesOk P proc needed unsized (f :: fields)) {g : IrField} (hg : g ∈ fields) :
    g.id ≠ f.id := fun heq =>
  (List.nodup_cons.mp h.nodup).1 (List.mem_map.mpr ⟨g, hg, heq⟩)

theorem tail (h : InlinesOk P proc needed unsized (f :: fields)) :
    InlinesOk P proc needed unsized fields where
  nodup := (List.nodup_cons.mp h.nodup).2
  inline hg := h.inline (List.mem_cons_of_mem f hg)
  free hg := h.free (List.mem_cons_of_mem f hg)
  lengths := h.lengths.of_subset fun _ => List.mem_cons_of_mem f
  one := (((List.sublist_cons_self f fields).filter _).length_le).trans h.one
  needed hg := h.needed (List.mem_cons_of_mem f hg)
  notOwned hid := h.notOwned (hid.cons f _)
  unsized_ne hf hg := h.unsized_ne hf (List.mem_cons_of_mem f hg)
  unsized_one hf hg := h.unsized_one hf (List.mem_cons_of_mem f hg)

/-- The field is the unsized array. -/
theorem tail_unsized (h : InlinesOk P proc needed none (f :: fields)) (hu : isUnsized f) :
    InlinesOk P proc needed (some f) fields where
  __ := h.tail
  notOwned := by
    rintro id ⟨g, hg | hg, heq⟩
    · exact h.notOwned ⟨g, .inl (List.mem_cons_of_mem f hg), heq⟩
    · obtain rfl := Option.some.inj hg
      exact h.notOwned ⟨f, .inl (List.mem_cons_self ..), heq⟩
  unsized_ne hf hg := by
    obtain rfl := Option.some.inj hf
    exact (h.ne hg).symm
  unsized_one hf hg hgu := by
    have hone : (fields.filter fun f => isUnsized f).length + 1 ≤ 1 := by
      have h := h.one
      rwa [List.filter_cons_of_pos hu, List.length_cons] at h
    have hmem : _ ∈ fields.filter fun f => isUnsized f := List.mem_filter.mpr ⟨hg, hgu⟩
    have := List.length_pos_of_mem hmem
    omega

/-- A field that has been laid out is left alone. -/
theorem not_own (h : InlinesOk P proc needed unsized (f :: fields)) : ¬Own unsized fields f.id := by
  rintro ⟨g, hg | hg, heq⟩
  · exact h.ne hg heq
  · exact h.unsized_ne hg (List.mem_cons_self ..) heq

end InlinesOk

theorem not_isSized_of_isFixed (h : isFixed P f) : ¬isSized P f := by
  simp [isSized, h]

theorem Rest.tail (h : Rest P st off (f :: fields)) (hs : ¬isSized P f) :
    Rest P st off fields where
  offset hg := h.offset (List.mem_cons_of_mem f hg)
  nonneg := h.nonneg
  dvd := h.dvd
  fits hσ hagrees := by
    have := h.fits hσ hagrees
    rwa [inlinesEnd, if_neg hs] at this

/-- The offset of another field does not matter. -/
theorem Rest.setOffset (h : Rest P st off fields) {id : SlotName} (hid : ∀ g ∈ fields, g.id ≠ id)
    (k : ℤ) : Rest P (st.setOffset id k) off fields where
  __ := h
  offset hg := by
    rw [← h.offset hg]
    exact Eq.congr_left (Function.update_of_ne (hid _ hg) ..)

/-- There is room for the next field, and for the padding behind it. -/
theorem Rest.room (hacc : Accepted P) (hfits : Fits P) (h : Rest P st off (f :: fields))
    (hlen : LengthsOk (f :: fields)) (hs : isSized P f) (hσ : SizesOf P σ)
    (hagrees : Agrees P st σ) :
    0 ≤ exactInline P σ f ∧ off + exactInline P σ f ≤ alignUp 4 (off + exactInline P σ f) ∧
      alignUp 4 (off + exactInline P σ f) < 0x80000000 := by
  have hnonneg := hσ.nonneg hacc hfits
  refine ⟨exactInline_nonneg hacc hlen (List.mem_cons_self ..) hnonneg, le_alignUp (by decide) _, ?_⟩
  have hfit := h.fits hσ hagrees
  rw [inlinesEnd, if_pos hs] at hfit
  exact lt_of_le_of_lt
    (le_inlinesEnd hacc hlen hnonneg (fun g => List.mem_cons_of_mem f) _) hfit

section

variable {st₁ : State} {known : Bool}

/-- The same, once the type that the field needs has been laid out. -/
theorem Rest.room_needed (hacc : Accepted P) (hfits : Fits P) (h : Rest P st off (f :: fields))
    (hlen : LengthsOk (f :: fields)) (hs : isSized P f) (hn : NeededSpec P f st (st₁, known))
    (he : st₁.errors = []) :
    0 ≤ exactInline P st₁.sizeof f ∧
      off + exactInline P st₁.sizeof f ≤ alignUp 4 (off + exactInline P st₁.sizeof f) ∧
      alignUp 4 (off + exactInline P st₁.sizeof f) < 0x80000000 := by
  have hσ : exactInline P (knownSizes P st₁) f = exactInline P st₁.sizeof f :=
    exactInline_congr hs fun u hu => agrees_knownSizes u (hn.needs he hu)
  have hroom := h.room hacc hfits hlen hs (hn.inv.sizesOf he) (hn.ext.agrees agrees_knownSizes)
  rwa [hσ] at hroom

/-- What is left behind the field. -/
theorem Rest.next (hacc : Accepted P) (hfits : Fits P) (h : Rest P st off (f :: fields))
    (hok : InlinesOk P proc needed unsized (f :: fields)) (hs : isSized P f)
    (hn : NeededSpec P f st (st₁, known)) (he : st₁.errors = [])
    (hkeep : ∀ g ∈ fields, st₁.offset g.id = st.offset g.id) :
    Rest P (st₁.setOffset f.id off) (alignUp 4 (off + exactInline P st₁.sizeof f)) fields := by
  obtain ⟨h₀, h₁, -⟩ := h.room_needed hacc hfits hok.lengths hs hn he
  refine .setOffset ⟨fun {g} hg => ?_, ?_, dvd_alignUp 4 _, fun {σ} hσ hagrees => ?_⟩
    (fun g => hok.ne) off
  · rw [hkeep g hg]
    exact h.offset (List.mem_cons_of_mem f hg)
  · have := h.nonneg
    omega
  · have hfit := h.fits hσ (hn.ext.agrees hagrees)
    rwa [inlinesEnd, if_pos hs,
      exactInline_congr hs fun u hu => hagrees u (hn.needs he hu)] at hfit

end

namespace InlinesSpec

variable {r : State × ℤ}

/-- The unsized array is laid out at the end. -/
theorem nil (hinv : Inv P st) (hproc : st.processing = proc)
    (hok : InlinesOk P proc needed unsized []) :
    InlinesSpec P st off unsized [] (st.setUnsized unsized off, off) := by
  have hframe : Frame (Own unsized []) st (st.setUnsized unsized off) := by
    cases unsized with
    | some f => exact .setOffset st ⟨f, .inr rfl, rfl⟩ off
    | none => exact .refl st
  exact
    { inv := hinv.frame hframe fun id hid => hproc ▸ hok.notOwned hid
      ext := .of_frame hframe
      exact := fun _ => rfl
      needs := fun _ _ hf => absurd hf List.not_mem_nil
      segment := fun _ => .empty (le_refl off) fun _ hf => List.not_mem_nil hf.1
      sized := fun _ _ hf => absurd hf List.not_mem_nil
      unsized := fun _ f hf => by
        obtain rfl := hf.resolve_left fun h => List.not_mem_nil h.1
        exact Function.update_self ..
      fixed := fun _ _ hf => absurd hf List.not_mem_nil }

/-- A constant field is marked only. -/
theorem mark (hok : InlinesOk P proc needed unsized (f :: fields)) {k : ℤ}
    (h : InlinesSpec P (st.setOffset f.id k) off unsized fields r) (hs : ¬isSized P f)
    (hu : ¬isUnsized f) (hfix : r.1.errors = [] → ¬isFixed P f) :
    InlinesSpec P st off unsized (f :: fields) r where
  __ := h.skip hs hu fun he hf => absurd hf (hfix he)
  ext := by
    have hown : Own unsized (f :: fields) f.id := Own.self unsized f fields
    exact (Ext.of_frame (.setOffset st hown k)).trans
      (h.skip hs hu fun he hf => absurd hf (hfix he)).ext
  fixed he g hg hgf := by
    rcases List.mem_cons.mp hg with rfl | hg
    · exact absurd hgf (hfix he)
    · exact (h.fixed he hg hgf).trans (Function.update_of_ne (hok.ne hg) ..)

/-- The unsized array is found. -/
theorem found (h : InlinesSpec P st off (some f) fields r) (hs : ¬isSized P f)
    (hfix : ¬isFixed P f) : InlinesSpec P st off none (f :: fields) r where
  inv := h.inv
  ext := by
    refine h.ext.mono ?_
    rintro id ⟨g, hg | hg, heq⟩
    · exact ⟨g, .inl (List.mem_cons_of_mem f hg), heq⟩
    · exact ⟨f, .inl (List.mem_cons_self ..), Option.some.inj hg ▸ heq⟩
  exact he := by rw [inlinesEnd, if_neg hs, h.exact he]
  needs he g hg u hgu := by
    rcases List.mem_cons.mp hg with rfl | hg
    · rw [need_eq_none hs] at hgu
      cases hgu
    · exact h.needs he hg hgu
  segment he := (h.segment he).of_imp fun _ hg =>
    ⟨mem_tail (p := fun g => isSized P g) hg.1 hg.2 hs, hg.2⟩
  sized he _ hg hgs := h.sized he (mem_tail (p := fun g => isSized P g) hg hgs hs) hgs
  unsized he g hg := by
    obtain ⟨hg, hgu⟩ := hg.resolve_right (Option.some_ne_none g).symm
    rcases List.mem_cons.mp hg with rfl | hg
    · exact h.unsized he (.inr rfl)
    · exact h.unsized he (.inl ⟨hg, hgu⟩)
  fixed he g hg hgf := by
    rcases List.mem_cons.mp hg with rfl | hg
    · exact absurd hgf hfix
    · exact h.fixed he hg hgf

/-- An inlined object or array, after the type that it needs. -/
theorem cons {st₁ : State} {off' : ℤ} {known : Bool}
    (hok : InlinesOk P proc needed unsized (f :: fields)) (hs : isSized P f) (hu : ¬isUnsized f)
    (hproc : st.processing = proc) (hn : NeededSpec P f st (st₁, known))
    (hroom : st₁.errors = [] → 4 ∣ off ∧ 0 ≤ exactInline P st₁.sizeof f ∧
      off + exactInline P st₁.sizeof f ≤ off' ∧
      off' = alignUp 4 (off + exactInline P st₁.sizeof f))
    (hkeep : ∀ g ∈ fields, st₁.offset g.id = st.offset g.id)
    (h : InlinesSpec P (st₁.setOffset f.id off) off' unsized fields r) :
    InlinesSpec P st off unsized (f :: fields) r := by
  have hown : Own unsized (f :: fields) f.id := Own.self unsized f fields
  have hext : Ext P (Own unsized (f :: fields)) st₁ r.1 :=
    (Ext.of_frame (.setOffset st₁ hown off)).trans
      (h.ext.mono (Own.cons f))
  -- The field keeps its offset and its size.
  have hself : r.1.offset f.id = off := by
    refine (h.ext.offset hok.not_own fun t ht _ hp => ?_).trans (Function.update_self ..)
    exact hok.notOwned hown t ht (hn.ext.processing.trans hproc ▸ hp)
  have hsize : r.1.errors = [] → exactInline P r.1.sizeof f = exactInline P st₁.sizeof f :=
    fun he => exactInline_congr hs fun u hnu =>
      (hext.known (hn.needs (hext.errors he) hnu)).2
  refine ⟨h.inv, (hn.ext.mono fun _ h => h.elim).trans hext, fun he => ?_, fun he g hg u hgu => ?_,
    fun he => ?_, fun he g hg hgs => ?_, fun he g hg => ?_, fun he g hg hgf => ?_⟩
  · obtain ⟨-, -, -, hoff⟩ := hroom (hext.errors he)
    rw [inlinesEnd, if_pos hs, hsize he, ← hoff]
    exact h.exact he
  · rcases List.mem_cons.mp hg with rfl | hg
    · exact (hext.known (hn.needs (hext.errors he) hgu)).1
    · exact h.needs he hg hgu
  · obtain ⟨-, hnonneg, hle, -⟩ := hroom (hext.errors he)
    rw [← hsize he] at hnonneg hle
    have hone : Segment (fun f => r.1.offset f.id) (exactInline P r.1.sizeof) off off' (· = f) :=
      .single f hself hnonneg hle
    refine (hone.union (h.segment he)).of_imp fun g hg => ?_
    exact (List.mem_cons.mp hg.1).imp_right fun hmem => ⟨hmem, hg.2⟩
  · rcases List.mem_cons.mp hg with rfl | hg
    · exact hself ▸ (hroom (hext.errors he)).1
    · exact h.sized he hg hgs
  · exact h.unsized he (hg.imp_left fun hg =>
      ⟨mem_tail (p := fun g => isUnsized g) hg.1 hg.2 hu, hg.2⟩)
  · rcases List.mem_cons.mp hg with rfl | hg
    · exact absurd hs (not_isSized_of_isFixed hgf)
    · refine (h.fixed he hg hgf).trans ?_
      exact (Function.update_of_ne (hok.ne hg) ..).trans (hkeep g hg)

end InlinesSpec

/-- An inline field with an offset of its own, unless it belongs to a pass. -/
theorem isSized_or_primitive (P : Types) (hi : f.isInline) (hc : ¬f.isConst)
    (hu : f.ctorLengthParam < 0) : isSized P f ∨ ∃ p, f.type = .primitive p := by
  cases ht : f.type with
  | primitive p => exact .inr ⟨p, rfl⟩
  | type | array =>
    left
    simp [isSized, isFixed, sizeMatch, ht, hi, hc, hu]

theorem layoutInlines_spec (hacc : Accepted P) (hfits : Fits P)
    (hrec : LaysOut P proc needed layoutType) (hinv : Inv P st) (hproc : st.processing = proc)
    (hok : InlinesOk P proc needed unsized fields)
    (hfree : ∀ f ∈ fields, ¬isFixed P f → st.offset f.id = -1)
    (hrest : st.errors = [] → Rest P st off fields) :
    Ends (InlinesSpec P st off unsized fields) (Reported P)
      (layoutInlines P layoutType st off unsized fields) := by
  induction fields generalizing st off unsized with
  | nil =>
    have hnil : InlinesSpec P st off unsized [] (st.setUnsized unsized off, off) :=
      .nil hinv hproc hok
    unfold layoutInlines
    refine .ite (fun hoff => ?_) fun _ => .ok hnil
    refine hnil.inv.crash (fun he => hoff ?_) _
    exact Int.emod_eq_zero_of_dvd (hrest (hnil.ext.errors he)).dvd
  | cons f fields ih =>
    obtain ⟨hfree', hfreeTail⟩ := List.forall_mem_cons.mp hfree
    have hself := List.mem_cons_self (a := f) (l := fields)
    -- Without an offset, a field is not one of the passes.
    have hnotFixed : st.offset f.id = -1 → st.errors = [] → ¬isFixed P f := fun hset he =>
      ((hrest he).offset hself).mp hset
    have hfreeSet : ∀ {st₁ : State}, (∀ g ∈ fields, st₁.offset g.id = st.offset g.id) →
        ∀ g ∈ fields, ¬isFixed P g → (st₁.setOffset f.id off).offset g.id = -1 :=
      fun hkeep g hg hgf => (Function.update_of_ne (hok.ne hg) ..).trans
        ((hkeep g hg).trans (hfreeTail g hg hgf))
    have hinvSet : ∀ {st₁}, Inv P st₁ → st₁.processing = proc → Inv P (st₁.setOffset f.id off) :=
      fun h hp => h.frame (.setOffset _ (Own.self unsized f fields) off)
        fun id hid => hp ▸ hok.notOwned hid
    unfold layoutInlines
    refine .ite (fun hset => ?_) fun hset => ?_
    · have hfix : isFixed P f := Decidable.by_contra fun hfix => hset (hfree' hfix)
      have hs := not_isSized_of_isFixed hfix
      refine (ih hinv hproc hok.tail hfreeTail fun he => ?_).mono fun r h =>
        h.skip hs (fun hu => hok.free hself hu hfix) fun he _ => ?_
      · exact (hrest he).tail hs
      · exact h.ext.offset hok.not_own fun t ht _ hp =>
          hok.notOwned (Own.self unsized f fields) t ht (hproc ▸ hp)
    rw [Decidable.not_not] at hset
    refine .ite (fun hinl => ?_) fun hinl => ?_
    · refine hinv.crash (fun he => ?_) _
      rw [Bool.not_eq_true'] at hinl
      exact hnotFixed hset he (isFixed_of_not_isInline hacc (by rw [hinl]; exact Bool.false_ne_true))
    refine .ite (fun hconst => ?_) fun hconst => ?_
    · have hs : ¬isSized P f := by simp [isSized, hconst]
      have hu : ¬isUnsized f := by simp [isUnsized, hconst]
      refine (ih (hinvSet hinv hproc) hproc hok.tail (hfreeSet fun _ _ => rfl) fun he => ?_).mono
        fun r h => h.mark hok hs hu fun he => hnotFixed hset (h.ext.errors he)
      exact ((hrest he).tail hs).setOffset (fun g => hok.ne) off
    refine .ite (fun hunsized => ?_) fun hunsized => ?_
    · have hs : ¬isSized P f := by
        simp only [isSized, Bool.and_eq_true, decide_eq_true_eq]
        omega
      have hu : isUnsized f := by
        simpa [isUnsized, hunsized] using hconst
      cases unsized with
      | some g => exact absurd hu (hok.unsized_one rfl hself)
      | none =>
        refine (ih hinv hproc (hok.tail_unsized hu) hfreeTail fun he => ?_).mono fun r h =>
          h.found hs (hok.free hself hu)
        exact (hrest he).tail hs
    have hi : f.isInline := by simpa using hinl
    have hparam : f.ctorLengthParam < 0 := by omega
    have hinline : Inline P f := hok.inline hself hi hconst hparam
    have hu : ¬isUnsized f := by simp [isUnsized, hunsized]
    have hextend : ∀ {st₁}, Ext P (fun _ => False) st st₁ →
        Ext P (Own unsized (f :: fields)) st st₁ := fun h => h.mono fun _ => False.elim
    have hkeep : ∀ {st₁}, Ext P (fun _ => False) st st₁ → ∀ g ∈ fields,
        st₁.offset g.id = st.offset g.id := fun h g hg =>
      h.offset id fun t ht _ hp =>
        hok.notOwned ⟨g, .inl (List.mem_cons_of_mem f hg), rfl⟩ t ht (hproc ▸ hp)
    rcases isSized_or_primitive P hi hconst hparam with hs | ⟨p, hp⟩
    · refine (layoutNeeded_spec hacc hfits hrec hinv hproc hinline hs
        (fun u => hok.needed hself) fun he p len ht => ?_).bind fun ⟨st₁, known⟩ hn => ?_
      · obtain ⟨h₀, h₁, h₂⟩ := (hrest he).room hacc hfits hok.lengths hs (hinv.sizesOf he)
          agrees_knownSizes
        have hoff := (hrest he).nonneg
        rw [exactInline_values ht] at h₀ h₁ h₂
        exact ⟨h₀, by omega⟩
      have hinv₁ : Inv P st₁ := hn.inv
      have hproc₁ : st₁.processing = proc := hn.ext.processing.trans hproc
      have he₁ : st₁.errors = [] → st.errors = [] := hn.ext.errors
      have hkeep₁ := hkeep hn.ext
      refine .ite (fun hknown => ?_) fun hknown => ?_
      · refine .ok (.of_errors hinv₁ (hextend hn.ext) fun he => ?_)
        have : known := hn.known he
        simp [this] at hknown
      have hroom : st₁.errors = [] → _ := fun he =>
        (hrest (he₁ he)).room_needed hacc hfits hok.lengths hs hn he
      have hneeds : st₁.errors = [] → ∀ u, need P f = some u → Known P st₁ u :=
        fun he _ => hn.needs he
      refine (inlineSize_spec hacc hfits hok.lengths hself hinv₁ hinline hs hneeds
        fun he => ?_).bind fun size hsize => ?_
      · have hoff := (hrest (he₁ he)).nonneg
        obtain ⟨h₀, h₁, h₂⟩ := hroom he
        omega
      refine .ite (fun hneg => hinv₁.crash (fun he => ?_) _) fun hneg => ?_
      · have hdvd := (hrest (he₁ he)).dvd
        obtain ⟨h₀, -⟩ := hroom he
        rw [← hsize he] at h₀
        omega
      have hnext : st₁.errors = [] → align 4 (int32 (off + size)) =
          alignUp 4 (off + exactInline P st₁.sizeof f) := by
        intro he
        have hoff := (hrest (he₁ he)).nonneg
        obtain ⟨h₀, h₁, h₂⟩ := hroom he
        rw [hsize he, align, int32_eq (x := off + _) (by omega) (by omega),
          int32_eq (by omega) h₂]
      refine (ih (hinvSet hinv₁ hproc₁) hproc₁ hok.tail (hfreeSet hkeep₁) fun he => ?_).mono
        fun r h => ?_
      · rw [hnext he]
        exact (hrest (he₁ he)).next hacc hfits hok hs hn he hkeep₁
      · refine .cons hok hs hu hproc hn (fun he => ?_) hkeep₁ h
        obtain ⟨h₀, h₁, -⟩ := hroom he
        exact ⟨(hrest (he₁ he)).dvd, h₀, hnext he ▸ h₁, hnext he⟩
    · -- Without a cycle, such a field has got an offset in its pass.
      have he : st.errors ≠ [] := fun he => hnotFixed hset he (isFixed_of_primitive hp)
      have hneeded : layoutNeeded layoutType st (recurse f) = .ok (st, true) := by
        rw [recurse, hp]
        cases p <;> rfl
      have hsize : Ends (fun _ => True) (Reported P) (inlineSize P st f) := by
        unfold inlineSize calcDynamicSize
        rw [hp]
        cases f.ctorLengthArg with
        | none => exact .ok trivial
        | some len => exact hinv.crash he _
      rw [hneeded]
      refine hsize.bind fun size _ => .ite (fun _ => hinv.crash he _) fun _ => ?_
      refine (ih (hinvSet hinv hproc) hproc hok.tail (hfreeSet fun _ _ => rfl)
        fun he' => absurd he' he).mono fun r h => .of_errors h.inv ?_ (mt h.ext.errors he)
      exact (Ext.of_frame (.setOffset st (.self unsized f fields) off)).trans
        (h.ext.mono (Own.cons f))

end

end Sedona.FieldLayout
