import Mathlib.Data.List.Chain
import Mathlib.Data.List.Perm.Subperm
import Sedona.Compiler.FieldInlines

/-!
# The Layout of Types

The fields of a type, in all passes, and the recursion through the types that are needed: types
that are being laid out are needed by one another, so that a type that is met again is inside of
itself, and there are never more of them than types.

## Main results

* `layoutFields_spec`: the fields of a type, or the static ones.
* `layoutType_spec`: a type, with those that it needs.
-/

namespace Sedona.FieldLayout

open ImageGen (TypeName SlotName)
open Blocks State

variable {P : Types} {st st' st'' : State} {f : IrField} {fields : List IrField} {off : ℤ}
  {σ τ : TypeName → ℤ} {proc : List TypeName} {needed : TypeName → Prop}
  {layoutType : State → TypeName → Except Crash State}

/-! ### The fields of a type -/

theorem dvd_int32 {n x : ℤ} (hn : n ∣ 0x100000000) (h : n ∣ x) : n ∣ int32 x := by
  have hmod : int32 x = x - 0x100000000 * ((x - int32 x) / 0x100000000) := by
    have : (0x100000000 : ℤ) ∣ x - int32 x := by
      rw [int32]
      exact Int.dvd_self_sub_bmod
    rw [Int.mul_ediv_cancel' this]
    omega
  rw [hmod]
  exact Int.dvd_sub h (Dvd.dvd.mul_right hn _)

theorem checkedPass_eq {s : ℤ} (h : s ∣ off) :
    checkedPass P s fields st off = .ok (layoutPass P s fields st off) :=
  if_neg (not_not_intro (Int.emod_eq_zero_of_dvd h))

/-- The passes of `layoutFields`. -/
theorem layoutFields_eq (hnodup : (fields.map (·.id)).Nodup) (st : State) (off : ℤ) :
    ∃ st₁ off₁, FixedSpec P off fields st st₁ off₁ ∧
      layoutFields P layoutType st off fields =
        layoutInlines P layoutType st₁ off₁ none fields := by
  have h₂ : ∀ off, 2 ∣ align 2 off := fun off => dvd_int32 (by decide) (dvd_alignUp 2 off)
  have h₄ : ∀ off, 4 ∣ align 4 off := fun off => dvd_int32 (by decide) (dvd_alignUp 4 off)
  refine ⟨_, _, .of_passes hnodup (layoutPass_spec (by decide) hnodup _ _)
    (layoutPass_spec (by decide) hnodup _ _) (layoutPass_spec (by decide) hnodup _ _), ?_⟩
  unfold layoutFields
  rw [checkedPass_eq (one_dvd off)]
  change (checkedPass P 2 _ _ _ >>= _) = _
  rw [checkedPass_eq (h₂ _)]
  change (checkedPass P 4 _ _ _ >>= _) = _
  rw [checkedPass_eq (h₄ _)]
  rfl

/-- What `layoutFields` needs to know about the fields. -/
structure FieldsReady (P : Types) (proc : List TypeName) (needed : TypeName → Prop)
    (fields : List IrField) : Prop where
  ok : FieldsOk P fields
  lengths : LengthsOk fields
  needed {f : IrField} (hf : f ∈ fields) {u : TypeName} (hu : need P f = some u) : needed u
  notOwned {f : IrField} (hf : f ∈ fields) : NotOwned P proc f.id

theorem FieldsReady.inlinesOk (h : FieldsReady P proc needed fields) :
    InlinesOk P proc needed none fields where
  nodup := h.ok.nodup
  inline := h.ok.inline
  free {f} hf hu := by
    have hparam : 0 ≤ f.ctorLengthParam := by
      simp only [isUnsized, Bool.and_eq_true, decide_eq_true_eq] at hu
      exact hu.2
    obtain ⟨hi, of, ht⟩ := h.ok.unsized hf hparam
    simp [isFixed, sizeMatch, ht, hi]
  lengths := h.lengths
  one := h.ok.one
  needed := h.needed
  notOwned := by
    rintro id ⟨f, hf, rfl⟩
    exact h.notOwned (hf.resolve_right fun h => nomatch h)
  unsized_ne hf := nomatch hf
  unsized_one hf := nomatch hf

/-- What `layoutFields` does. -/
structure FieldsSpec (P : Types) (st : State) (off : ℤ) (fields : List IrField)
    (r : State × ℤ) : Prop where
  inv : Inv P r.1
  ext : Ext P (fun id => ∃ f ∈ fields, f.id = id) st r.1
  exact (h : r.1.errors = []) : r.2 = exactEnd P r.1.sizeof off fields
  needs (h : r.1.errors = []) {f : IrField} (hf : f ∈ fields) {u : TypeName}
    (hu : need P f = some u) : Known P r.1 u
  laidOut (h : r.1.errors = []) : LaidOut P r.1 fields off r.2

/-- The fields of the passes and the inlined ones. -/
theorem FixedSpec.laidOut {st₁ : State} {off₁ : ℤ} {r : State × ℤ}
    (hfixed : FixedSpec P off fields st st₁ off₁)
    (h : InlinesSpec P st₁ off₁ none fields r)
    (hbound : 0 ≤ off ∧ fixedEnd P off fields < 0x80000000) (he : r.1.errors = []) :
    LaidOut P r.1 fields off r.2 := by
  obtain ⟨h₀, h₁⟩ := hbound
  have hpasses : Segment (fun f => r.1.offset f.id) (room P r.1.sizeof) off off₁
      fun f => f ∈ fields ∧ isFixed P f :=
    (hfixed.segment h₀ h₁).mono (fun _ h => h) (fun f hf => h.fixed he hf.1 hf.2)
      fun f hf => if_pos hf.2
  have hinlines : Segment (fun f => r.1.offset f.id) (room P r.1.sizeof) off₁ r.2
      fun f => f ∈ fields ∧ isSized P f :=
    (h.segment he).mono (fun _ h => h) (fun _ _ => rfl)
      fun f hf => if_neg fun hfix => not_isSized_of_isFixed hfix hf.2
  refine ⟨(hpasses.union hinlines).of_imp fun f hf => ?_, fun hf hfix => ?_, h.sized he,
    fun hf hu => h.unsized he (.inl ⟨hf, hu⟩), fun hlo f hf hfix => ?_, ?_⟩
  · exact hf.2.imp (fun h => ⟨hf.1, h⟩) fun h => ⟨hf.1, h⟩
  · rw [h.fixed he hf hfix]
    exact hfixed.aligned h₀ h₁ hf hfix
  · rw [h.fixed he (hf ▸ List.mem_singleton_self f) hfix]
    exact hfixed.only h₀ h₁ hlo hf hfix
  · rw [h.exact he, hfixed.exact h₀ h₁]
    exact dvd_inlinesEnd (dvd_fixedEnd off fields) fields

theorem layoutFields_spec (hacc : Accepted P) (hfits : Fits P)
    (hrec : LaysOut P proc needed layoutType) (hinv : Inv P st) (hproc : st.processing = proc)
    (hready : FieldsReady P proc needed fields) (hfree : ∀ f ∈ fields, st.offset f.id = -1)
    (hoff : st.errors = [] → 0 ≤ off)
    (hend : st.errors = [] → ∀ σ, SizesOf P σ → Agrees P st σ →
      exactEnd P σ off fields < 0x80000000) :
    Ends (FieldsSpec P st off fields) (Reported P) (layoutFields P layoutType st off fields) := by
  obtain ⟨st₁, off₁, hfixed, heq⟩ : ∃ st₁ off₁, FixedSpec P off fields st st₁ off₁ ∧
      layoutFields P layoutType st off fields = layoutInlines P layoutType st₁ off₁ none fields :=
    layoutFields_eq hready.ok.nodup st off
  have hframe := hfixed.frame.mono fun id ⟨f, hf, _, hid⟩ => (⟨f, hf, hid⟩ : ∃ f ∈ fields, f.id = id)
  have hinv₁ : Inv P st₁ := hinv.frame hframe fun id ⟨f, hf, hid⟩ =>
    hid ▸ hproc ▸ hready.notOwned hf
  have hproc₁ : st₁.processing = proc := hframe.processing.trans hproc
  have hfree₁ : ∀ f ∈ fields, ¬isFixed P f → st₁.offset f.id = -1 := by
    intro f hf hfix
    refine (hfixed.frame.offset ?_).trans (hfree f hf)
    rintro ⟨g, hg, hgf, heq⟩
    exact hfix (List.inj_on_of_nodup_map hready.ok.nodup hg hf heq ▸ hgf)
  have hbound : st₁.errors = [] → 0 ≤ off ∧ fixedEnd P off fields < 0x80000000 := by
    intro he
    rw [hframe.errors] at he
    have hσ := hinv.sizesOf he
    refine ⟨hoff he, lt_of_le_of_lt ?_ (hend he _ hσ agrees_knownSizes)⟩
    exact le_inlinesEnd hacc hready.lengths (hσ.nonneg hacc hfits) (fun _ h => h) _
  rw [heq]
  refine (layoutInlines_spec hacc hfits hrec hinv₁ hproc₁ hready.inlinesOk hfree₁
    fun he => ?_).mono fun r h => ?_
  · obtain ⟨h₀, h₁⟩ := hbound he
    have hexact := hfixed.exact h₀ h₁
    refine ⟨fun {g} hg => ⟨fun hset hfix => ?_, hfree₁ g hg⟩, ?_, ?_, fun {σ} hσ hagrees => ?_⟩
    · have := ((hfixed.segment h₀ h₁).within ⟨hg, hfix⟩).1
      omega
    · exact hexact ▸ h₀.trans (le_fixedEnd off fields)
    · exact hexact ▸ dvd_fixedEnd off fields
    · rw [hexact]
      exact hend (hframe.errors ▸ he) σ hσ ((Ext.of_frame hframe).agrees hagrees)
  · refine ⟨h.inv, ?_, fun he => ?_, h.needs, fun he => ?_⟩
    · refine (Ext.of_frame hframe).trans (h.ext.mono fun id ⟨g, hg, hid⟩ => ⟨g, ?_, hid⟩)
      exact hg.resolve_right fun h => nomatch h
    · obtain ⟨h₀, h₁⟩ := hbound (h.ext.errors he)
      rw [exactEnd, ← hfixed.exact h₀ h₁]
      exact h.exact he
    · exact hfixed.laidOut h (hbound (h.ext.errors he)) he

/-! ### Types -/

theorem Known.of_nonneg (hinv : Inv P st) {u : TypeName} (hu : u ∈ P.types.map (·.name))
    (h : ¬st.sizeof u < 0) : Known P st u :=
  ⟨hu, fun htodo => h (by rw [hinv.unknown htodo]; decide)⟩

/-- What `startOffset` does. -/
structure StartSpec (P : Types) (st : State) (t : IrType) (r : State × ℤ) : Prop where
  inv : Inv P r.1
  ext : Ext P (fun _ => False) st r.1
  exact : r.2 = startOf r.1.sizeof t
  needs (h : r.1.errors = []) {b : TypeName} (hb : t.base = some b) : Known P r.1 b

theorem startOffset_spec (hacc : Accepted P) (hrec : LaysOut P proc needed layoutType)
    (hinv : Inv P st) (hproc : st.processing = proc) {t : IrType} (ht : t ∈ P.types)
    (hneed : ∀ b, t.base = some b → needed b) :
    Ends (StartSpec P st t) (Reported P) (startOffset layoutType st t) := by
  unfold startOffset
  cases hbase : t.base with
  | none =>
    refine .ok ⟨hinv, .refl st, ?_, fun _ b hb => ?_⟩
    · rw [startOf, hbase]
    · rw [hbase] at hb
      cases hb
  | some b =>
    obtain ⟨u, hu, rfl, -⟩ := hacc.base ht hbase
    have hname : u.name ∈ P.types.map (·.name) := List.mem_map_of_mem hu
    have hone : ∀ {st' : State}, Known P st' u.name → ∀ {b}, t.base = some b → Known P st' b := by
      intro st' hk b hb
      obtain rfl := Option.some.inj (hbase.symm.trans hb)
      exact hk
    -- The base type has been laid out.
    have hlaid : ∀ st', Inv P st' → Ext P (fun _ => False) st st' →
        (st'.errors = [] → Known P st' u.name) →
        Ends (StartSpec P st t) (Reported P)
          (if isVirtual u.name then pure (st', 2) else pure (st', st'.sizeof u.name)) := by
      intro st' hinv' hext hknown
      have hspec : ∀ off, off = startOf st'.sizeof t → StartSpec P st t (st', off) :=
        fun off h => ⟨hinv', hext, h, fun he => hone (hknown he)⟩
      refine .ite (fun hv => .ok (hspec _ ?_)) fun hv => .ok (hspec _ ?_)
      · rw [startOf, hbase]
        exact (if_pos hv).symm
      · rw [startOf, hbase]
        exact (if_neg hv).symm
    refine .ite (fun _ => ?_) fun hnonneg => ?_
    · refine (hrec st u.name hinv hproc (hneed _ hbase)).bind fun st' ⟨hinv', hext, htodo⟩ => ?_
      exact hlaid st' hinv' hext fun he => ⟨hname, htodo he⟩
    · exact hlaid st hinv (.refl st) fun _ => .of_nonneg hinv hname hnonneg

/-- Types with the same name are the same. -/
theorem Accepted.eq_of_name (hacc : Accepted P) {t u : IrType} (ht : t ∈ P.types)
    (hu : u ∈ P.types) (h : t.name = u.name) : t = u :=
  List.inj_on_of_nodup_map hacc.names ht hu h

theorem Accepted.find (hacc : Accepted P) {t : IrType} (ht : t ∈ P.types) :
    P.find t.name = some t := by
  unfold Types.find
  cases h : P.types.find? fun u => u.name = t.name with
  | none => simpa using List.find?_eq_none.mp h t ht
  | some u =>
    have hname : u.name = t.name := by simpa using List.find?_some h
    rw [hacc.eq_of_name (List.mem_of_find?_eq_some h) ht hname]

/-- A chain of types that are being laid out leads to its head. -/
theorem needs_of_chain {a b : TypeName} {l : List TypeName}
    (h : (a :: l).IsChain fun a b => Needs P b a) (hb : b ∈ a :: l) :
    Relation.ReflTransGen (Needs P) b a := by
  induction l generalizing a with
  | nil =>
    obtain rfl := List.mem_singleton.mp hb
    exact .refl
  | cons c l ih =>
    obtain ⟨hca, h⟩ := List.isChain_cons_cons.mp h
    rcases List.mem_cons.mp hb with rfl | hb
    · exact .refl
    · exact (ih h hb).tail hca

section

variable {name : TypeName}

/-- A type that is met while it is being laid out is inside of itself. -/
theorem Inv.err (hinv : Inv P st) (hmem : name ∈ st.processing)
    (hneed : ∀ a ∈ st.processing.head?, Needs P a name) : Inv P (st.err name) where
  __ := hinv
  cyclic {a} ha := by
    refine (List.mem_cons.mp ha).elim (fun heq => ?_) hinv.cyclic
    subst heq
    cases hp : st.processing with
    | nil =>
      rw [hp] at hmem
      cases hmem
    | cons a l =>
      have hchain := hinv.chain
      rw [hp] at hmem hneed hchain
      exact .tail' (needs_of_chain hchain hmem) (hneed _ rfl)
  done h := nomatch h

theorem Inv.start (hinv : Inv P st) (htodo : name ∈ st.todo) (hmem : name ∉ st.processing)
    (hneed : ∀ a ∈ st.processing.head?, Needs P a name) : Inv P (st.start name) where
  nodup := List.nodup_cons.mpr ⟨hmem, hinv.nodup⟩
  todoNodup := hinv.todoNodup
  todo hu := by
    rcases List.mem_cons.mp hu with rfl | hu
    · exact htodo
    · exact hinv.todo hu
  names := hinv.names
  chain := List.IsChain.cons hinv.chain hneed
  cyclic := hinv.cyclic
  unknown := hinv.unknown
  fresh ht h hproc := hinv.fresh ht h fun hp => hproc (List.mem_cons_of_mem name hp)
  done he t ht h := (hinv.done he ht h).congr ht rfl (fun _ _ => rfl) (fun _ _ => rfl) fun _ => id

/-- The state after the fields of a type have been laid out. -/
structure Laid (P : Types) (st : State) (t : IrType) (r : State × ℤ) : Prop where
  inv : Inv P r.1
  ext : Ext P (fun id => ∃ f ∈ t.instanceFields, f.id = id) (st.start t.name) r.1
  exact (h : r.1.errors = []) : r.2 = exactSize P r.1.sizeof t
  needs (h : r.1.errors = []) {u : TypeName} (hu : Needs P t.name u) : Known P r.1 u
  laidOut (h : r.1.errors = []) :
    LaidOut P r.1 t.instanceFields (startOf r.1.sizeof t) r.2

namespace Laid

variable {t : IrType} {r : State × ℤ}

theorem done (ht : t ∈ P.types) (h : Laid P st t r) (he : r.1.errors = []) :
    Done P (r.1.finish t.name r.2) t := by
  have htodo : t.name ∈ r.1.todo := h.inv.todo (h.ext.processing ▸ List.mem_cons_self ..)
  have hne : ∀ u, Needs P t.name u → u ≠ t.name := fun u hu heq =>
    (h.needs he hu).2 (heq ▸ htodo)
  have hsize : ∀ u, Needs P t.name u → (r.1.finish t.name r.2).sizeof u = r.1.sizeof u :=
    fun u hu => Function.update_of_ne (hne u hu) ..
  have hself : (r.1.finish t.name r.2).sizeof t.name = r.2 := Function.update_self ..
  have hstart : startOf (r.1.finish t.name r.2).sizeof t = startOf r.1.sizeof t :=
    startOf_congr fun b hb => hsize b (.base ht rfl hb)
  refine ⟨?_, fun hu => ?_, ?_⟩
  · rw [hself, h.exact he]
    exact .mk _ ht fun u hu => h.inv.hasSize he (h.needs he hu)
  · exact mt List.mem_of_mem_erase (h.needs he hu).2
  · rw [hself, hstart]
    exact (h.laidOut he).congr (fun f hf u hu => hsize u (.inline ht rfl hf hu)) fun _ _ => rfl

theorem inv_finish (hacc : Accepted P) (ht : t ∈ P.types) (h : Laid P st t r) :
    Inv P (r.1.finish t.name r.2) := by
  have hproc : r.1.processing = t.name :: st.processing := h.ext.processing
  have hmem : t.name ∈ r.1.todo := h.inv.todo (hproc ▸ List.mem_cons_self ..)
  have hproc' : (r.1.finish t.name r.2).processing = st.processing := by
    change r.1.processing.erase t.name = st.processing
    rw [hproc, List.erase_cons_head]
  have hnodup : t.name ∉ st.processing ∧ st.processing.Nodup :=
    List.nodup_cons.mp (hproc ▸ h.inv.nodup)
  have hchain := h.inv.chain
  rw [hproc] at hchain
  have htodo : ∀ {u}, u ∈ (r.1.finish t.name r.2).todo ↔ u ≠ t.name ∧ u ∈ r.1.todo :=
    h.inv.todoNodup.mem_erase_iff
  refine ⟨hproc' ▸ hnodup.2, h.inv.todoNodup.erase _, fun {u} hu => ?_, fun hu => ?_,
    hproc' ▸ hchain.tail, h.inv.cyclic, fun hu => ?_, fun {u} hu hut hup f hf => ?_,
    fun he u hu hut => ?_⟩
  · rw [hproc'] at hu
    refine htodo.mpr ⟨fun heq => hnodup.1 (heq ▸ hu), h.inv.todo ?_⟩
    exact hproc ▸ List.mem_cons_of_mem _ hu
  · exact h.inv.names (htodo.mp hu).2
  · refine (Function.update_of_ne (htodo.mp hu).1 ..).trans ?_
    exact h.inv.unknown (htodo.mp hu).2
  · rw [hproc'] at hup
    refine h.inv.fresh hu (htodo.mp hut).2 ?_ hf
    rw [hproc]
    exact List.not_mem_cons_of_ne_of_not_mem (htodo.mp hut).1 hup
  · by_cases hname : u.name = t.name
    · obtain rfl := hacc.eq_of_name hu ht hname
      exact h.done ht he
    · have hut' : u.name ∉ r.1.todo := fun h => hut (htodo.mpr ⟨hname, h⟩)
      have hdone := h.inv.done he hu hut'
      refine hdone.congr hu (Function.update_of_ne hname ..) (fun v hv => ?_) (fun _ _ => rfl)
        fun _ => List.mem_of_mem_erase
      refine Function.update_of_ne ?_ ..
      rintro rfl
      exact hdone.needs hv hmem

theorem ext_finish (hmem : t.name ∈ st.todo) (hproc : t.name ∉ st.processing) (ht : t ∈ P.types)
    (h : Laid P st t r) : Ext P (fun _ => False) st (r.1.finish t.name r.2) where
  sizeof {u} hu := by
    have hne : u ≠ t.name := by
      rintro rfl
      exact hu.elim (fun h => h hmem) hproc
    refine (Function.update_of_ne hne ..).trans (h.ext.sizeof ?_)
    exact hu.imp_right (List.mem_cons_of_mem _)
  offset {id} _ hne := by
    refine h.ext.offset ?_ fun u hu hut hup => hne u hu hut fun hp =>
      hup (List.mem_cons_of_mem _ hp)
    rintro ⟨f, hf, hid⟩
    exact hne t ht hmem hproc f hf hid
  todo hu := h.ext.todo (List.mem_of_mem_erase hu)
  processing := by
    change r.1.processing.erase t.name = st.processing
    rw [h.ext.processing]
    exact List.erase_cons_head ..
  errors := h.ext.errors

end Laid

/-- A type that is laid out. -/
theorem layoutType_laid (hacc : Accepted P) (hfits : Fits P) {t : IrType} (ht : t ∈ P.types)
    (hrec : LaysOut P (t.name :: st.processing) (Needs P t.name) layoutType) (hinv : Inv P st)
    (htodo : t.name ∈ st.todo) (hproc : t.name ∉ st.processing)
    (hneed : ∀ a ∈ st.processing.head?, Needs P a t.name) :
    Ends (fun st' => ∃ r, Laid P st t r ∧ st' = r.1.finish t.name r.2) (Reported P) (do
      let (st, off) ← startOffset layoutType (st.start t.name) t
      if off < 0 then st.crash "IllegalStateException"
      else do
        let (st, size) ← layoutFields P layoutType st off t.instanceFields
        pure (st.finish t.name size)) := by
  have hstart := startOffset_spec hacc hrec (hinv.start htodo hproc hneed) rfl ht
    fun b hb => .base ht rfl hb
  refine hstart.bind fun ⟨st₁, off⟩ h => ?_
  have hinv₁ : Inv P st₁ := h.inv
  have hproc₁ : st₁.processing = t.name :: st.processing := h.ext.processing
  have hexact : off = startOf st₁.sizeof t := h.exact
  have hbase : ∀ σ, st₁.errors = [] → Agrees P st₁ σ → off = startOf σ t := fun σ he hσ =>
    hexact.trans (startOf_congr fun b hb => (hσ b (h.needs he hb)).symm)
  have hoff : st₁.errors = [] → 0 ≤ off := by
    intro he
    rw [hbase _ he agrees_knownSizes]
    exact startOf_nonneg ((hinv₁.sizesOf he).nonneg hacc hfits) t
  have hown : ∀ f ∈ t.instanceFields, NotOwned P (t.name :: st.processing) f.id := by
    intro f hf u hu hup g hg heq
    have hname : u.name = t.name := by rw [← hacc.parent hu hg, heq, hacc.parent ht hf]
    exact hup (hname ▸ List.mem_cons_self ..)
  have hfree : ∀ f ∈ t.instanceFields, st₁.offset f.id = -1 := by
    intro f hf
    refine (h.ext.offset id fun u hu _ => hown f hf u hu).trans ?_
    exact hinv.fresh ht htodo hproc hf
  refine .ite (fun hneg => hinv₁.crash (fun he => ?_) _) fun _ => ?_
  · have := hoff he
    omega
  refine (layoutFields_spec hacc hfits hrec hinv₁ hproc₁ ⟨hacc.fields ht, hfits.lengths ht,
    fun hf _ hu => .inline ht rfl hf hu, fun hf => hown _ hf⟩ hfree hoff
    fun he σ hσ hagrees => ?_).bind fun r hr => .ok ⟨r, ?_, rfl⟩
  · rw [hbase σ he hagrees]
    exact hfits.sizes ht hσ
  have hbaseKnown : r.1.errors = [] → ∀ {b}, t.base = some b → Known P st₁ b := fun he _ hb =>
    h.needs (hr.ext.errors he) hb
  have hstart' : r.1.errors = [] → off = startOf r.1.sizeof t := fun he =>
    hexact.trans (startOf_congr fun b hb => (hr.ext.known (hbaseKnown he hb)).2.symm)
  refine ⟨hr.inv, (h.ext.mono fun _ => False.elim).trans hr.ext, fun he => ?_,
    fun he u hu => ?_, fun he => ?_⟩
  · rw [exactSize, ← hstart' he]
    exact hr.exact he
  · cases hu with
    | base hu hname hb =>
      obtain rfl := hacc.eq_of_name hu ht hname
      exact (hr.ext.known (hbaseKnown he hb)).1
    | inline hu hname hf hn =>
      obtain rfl := hacc.eq_of_name hu ht hname
      exact hr.needs he hf hn
  · rw [← hstart' he]
    exact hr.laidOut he

/-- The types that are being laid out are different types. -/
theorem Inv.length_le (hinv : Inv P st) : st.processing.length ≤ P.types.length := by
  have hsub : st.processing ⊆ P.types.map (·.name) := fun u hu =>
    List.mem_map.mpr (hinv.names (hinv.todo hu))
  have := (hinv.nodup.subperm hsub).length_le
  rwa [List.length_map] at this

/-- A type is laid out, unless it is inside of itself. -/
theorem layoutType_spec (hacc : Accepted P) (hfits : Fits P) (n : ℕ) (proc : List TypeName)
    (hn : P.types.length < n + proc.length) :
    LaysOut P proc (fun u => ∀ a ∈ proc.head?, Needs P a u) (FieldLayout.layoutType P n) := by
  induction n generalizing proc with
  | zero =>
    rintro st u hinv rfl -
    have := hinv.length_le
    omega
  | succ n ih =>
    rintro st u hinv rfl hneed
    refine .ite (fun htodo => ?_) fun htodo => ?_
    · exact .ok ⟨hinv, .refl st, fun _ => htodo⟩
    rw [Decidable.not_not] at htodo
    refine .ite (fun hproc => ?_) fun hproc => ?_
    · refine .ok ⟨hinv.err hproc hneed, ⟨fun _ => rfl, fun _ _ => rfl, id, rfl, ?_⟩, ?_⟩
      · exact fun h => nomatch h
      · exact fun h => nomatch h
    obtain ⟨t, ht, rfl⟩ := hinv.names htodo
    rw [hacc.find ht]
    have hrec : LaysOut P (t.name :: st.processing) (Needs P t.name) (FieldLayout.layoutType P n) := by
      intro st' u hinv' hproc' hu
      refine ih (t.name :: st.processing) ?_ st' u hinv' hproc' fun a ha => ?_
      · rw [List.length_cons]
        omega
      · obtain rfl := Option.some.inj ha
        exact hu
    refine (layoutType_laid hacc hfits ht hrec hinv htodo hproc hneed).mono ?_
    rintro _ ⟨r, h, rfl⟩
    refine ⟨h.inv_finish hacc ht, h.ext_finish htodo hproc ht, fun _ hmem => ?_⟩
    exact (h.inv.todoNodup.mem_erase_iff.mp hmem).1 rfl

end

end Sedona.FieldLayout
