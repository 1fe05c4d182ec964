import Sedona.Compiler.BlockIndices

/-!
# The Virtual Tables of an Image

Where the image generator puts the table of a type, and what the cells of the table refer to.
Whatever is written later leaves both alone: cells are only added, and no other object is placed
as the table.

## Main results

* `Layout.Grows.emit`, `Layout.Grows.method`: what is written behind the tables.
* `layout_vtables`: the tables in the complete layout.
-/

namespace Sedona.ImageGen

variable {img : SCodeImage} {t : TypeName} {l l' l'' : Layout}

/-- The layout `l'` has all cells of `l`, and the table of `t` where `l` has it. -/
structure Layout.Grows (t : TypeName) (l l' : Layout) : Prop where
  cells {c : ℕ × Target} (h : c ∈ l.cells) : c ∈ l'.cells
  start : l'.start (.vtable t) = l.start (.vtable t)

namespace Layout.Grows

theorem refl (l : Layout) : Grows t l l := ⟨id, rfl⟩

theorem trans (h : Grows t l l') (h' : Grows t l' l'') : Grows t l l'' :=
  ⟨h'.cells ∘ h.cells, h'.start.trans h.start⟩

theorem of_writeStep {w : Write} (h : l.WriteStep w l') (hw : w ≠ .place (.vtable t)) :
    Grows t l l' := by
  cases h with
  | grow | header => exact ⟨id, rfl⟩
  | addBlockIndex | u2BlockIndex => exact ⟨List.mem_cons_of_mem _, rfl⟩
  | place a =>
    have hne : Addr.vtable t ≠ a := fun heq => hw (heq ▸ rfl)
    exact ⟨id, Function.update_of_ne hne ..⟩

/-- A loop all of whose steps keep cells and table. -/
theorem foldlM {α : Type} {f : Layout → α → Except String Layout} {as : List α}
    (h : as.foldlM f l = .ok l')
    (hstep : ∀ a ∈ as, ∀ l l', f l a = .ok l' → Grows t l l') : Grows t l l' := by
  induction as generalizing l with
  | nil => exact Except.ok.inj h ▸ refl l
  | cons a as ih =>
    rw [List.foldlM_cons] at h
    obtain ⟨l₁, h₁, h⟩ := Lockstep.bind_eq_ok.mp h
    exact (hstep a (List.mem_cons_self ..) l l₁ h₁).trans
      (ih h fun b hb => hstep b (List.mem_cons_of_mem _ hb))

theorem emit {ws : List Write} (h : ImageGen.emit img l ws = .ok l')
    (hws : .place (.vtable t) ∉ ws) : Grows t l l' :=
  foldlM h fun _ hw _ _ h => of_writeStep (Layout.writeStep h) fun heq => hws (heq ▸ hw)

theorem emit_plain {ws : List Write} (h : ImageGen.emit img l ws = .ok l') (hws : Plain ws) :
    Grows t l l' :=
  emit h fun hw => (hws _ hw).2 t rfl

theorem emitOps {ops : List IrOp} {pos : List ℕ} (h : ImageGen.emitOps img l ops = .ok (l', pos)) :
    Grows t l l' := by
  induction ops generalizing l pos with
  | nil => exact (Prod.mk.inj (Except.ok.inj h)).1 ▸ refl l
  | cons op ops ih =>
    obtain ⟨l₁, h₁, h⟩ := Lockstep.bind_eq_ok.mp h
    obtain ⟨l₂, h₂, h⟩ := Lockstep.bind_eq_ok.mp h
    obtain ⟨⟨l₃, ps⟩, h₃, h⟩ := Lockstep.bind_eq_ok.mp h
    obtain ⟨rfl, -⟩ := Prod.mk.inj (Except.ok.inj h)
    have hpad : Grows t l l₁ := of_writeStep (Layout.writeStep h₁) Write.noConfusion
    exact (hpad.trans (emit_plain h₂ (Plain.opBody op))).trans (ih h₃)

/-- The layout has nothing to patch. -/
theorem patchS2_eq {pos : ℕ} {v : JInt} (h : Emitter.patchS2 img l pos v = .ok l') : l' = l := by
  unfold Emitter.patchS2 at h
  simp only [instEmitter] at h
  split at h
  · cases h
  · exact (Except.ok.inj h).symm

theorem patchJump_eq {pos : List ℕ} {p : ℕ} {op op' : IrOp}
    (h : ImageGen.patchJump img pos l p op = .ok (l', op')) : l' = l := by
  obtain ⟨opcode, arg⟩ := op
  cases arg with
  | jump label =>
    obtain ⟨off, -, h⟩ := Lockstep.bind_eq_ok.mp h
    split at h
    · obtain ⟨far, -, h⟩ := Lockstep.bind_eq_ok.mp h
      exact (Prod.mk.inj (Except.ok.inj h)).1.symm
    · exact (Prod.mk.inj (Except.ok.inj h)).1.symm
  | jumpFar label =>
    obtain ⟨off, -, h⟩ := Lockstep.bind_eq_ok.mp h
    obtain ⟨l₁, h₁, h⟩ := Lockstep.bind_eq_ok.mp h
    exact (Prod.mk.inj (Except.ok.inj h)).1.symm.trans (patchS2_eq h₁)
  | _ => exact (Prod.mk.inj (Except.ok.inj h)).1.symm

theorem patchJumps_eq {pos ps : List ℕ} {ops ops' : List IrOp}
    (h : ImageGen.patchJumps img pos l ps ops = .ok (l', ops')) : l' = l := by
  induction ps generalizing l ops ops' with
  | nil => exact (Prod.mk.inj (Except.ok.inj h)).1.symm
  | cons p ps ih =>
    cases ops with
    | nil => exact (Prod.mk.inj (Except.ok.inj h)).1.symm
    | cons op ops =>
      obtain ⟨⟨l₁, op₁⟩, h₁, h⟩ := Lockstep.bind_eq_ok.mp h
      obtain ⟨⟨l₂, ops₂⟩, h₂, h⟩ := Lockstep.bind_eq_ok.mp h
      obtain ⟨rfl, -⟩ := Prod.mk.inj (Except.ok.inj h)
      exact (ih h₂).trans (patchJump_eq h₁)

theorem patchSwitch_eq {pos : List ℕ} {p cell : ℕ} {labels : List ℕ}
    (h : ImageGen.patchSwitch img pos p l cell labels = .ok l') : l' = l := by
  induction labels generalizing l cell with
  | nil => exact (Except.ok.inj h).symm
  | cons label labels ih =>
    obtain ⟨off, -, h⟩ := Lockstep.bind_eq_ok.mp h
    obtain ⟨l₁, h₁, h⟩ := Lockstep.bind_eq_ok.mp h
    exact (ih h).trans (patchS2_eq h₁)

theorem patchSwitches_eq {pos ps : List ℕ} {ops : List IrOp}
    (h : ImageGen.patchSwitches img pos l ps ops = .ok l') : l' = l := by
  induction ps generalizing l ops with
  | nil => exact (Except.ok.inj h).symm
  | cons p ps ih =>
    cases ops with
    | nil => exact (Except.ok.inj h).symm
    | cons op ops =>
      obtain ⟨opcode, arg⟩ := op
      cases arg with
      | switch labels =>
        obtain ⟨l₁, h₁, h⟩ := Lockstep.bind_eq_ok.mp h
        exact (ih h).trans (patchSwitch_eq h₁)
      | _ => exact ih h

/-- A round that is not the last one leaves the pool only. -/
theorem opsLoop {rounds : ℕ} {ops : List IrOp} (h : ImageGen.opsLoop img l rounds ops = .ok l') :
    Grows t l l' := by
  induction rounds generalizing l ops with
  | zero => cases h
  | succ rounds ih =>
    obtain ⟨⟨l₁, pos⟩, h₁, h'⟩ := Lockstep.bind_eq_ok.mp h
    obtain ⟨⟨l₂, ops'⟩, h₂, hround⟩ := Lockstep.bind_eq_ok.mp h'
    obtain rfl := patchJumps_eq h₂
    dsimp only at hround
    split at hround
    · have hpool : Grows t l (Emitter.withPool l (Emitter.pool l₂)) := ⟨id, rfl⟩
      exact hpool.trans (ih hround)
    · exact patchSwitches_eq hround ▸ emitOps h₁

theorem method {m : IrMethod} (h : ImageGen.method img l m = .ok l') : Grows t l l' := by
  unfold ImageGen.method at h
  split at h
  · exact Except.ok.inj h ▸ refl l
  · obtain ⟨l₁, h₁, h⟩ := Lockstep.bind_eq_ok.mp h
    have hstart : Grows t l l₁ := emit_plain h₁ (Plain.append.mpr ⟨by simp, Plain.metaSlot _⟩)
    have hend : Plain [.blockAlign] := by simp
    cases hcode : m.code with
    | none =>
      rw [hcode] at h
      exact hstart.trans (emit_plain h hend)
    | some code =>
      rw [hcode] at h
      obtain ⟨l₂, h₂, h⟩ := Lockstep.bind_eq_ok.mp h
      exact (hstart.trans (opsLoop h₂)).trans (emit_plain h hend)

end Layout.Grows

/-! ### The constant pool -/

theorem Plain.not_mem {ws : List Write} (h : Plain ws) : .place (.vtable t) ∉ ws := fun hw =>
  (h _ hw).2 t rfl

theorem not_mem_arrayEntry (a : Addr) : .place (.vtable t) ∉ arrayEntry img a := by
  cases a with
  | array lit =>
    cases lit with
    | strs vals =>
      have hstr : ∀ s : String × ℕ, .place (.vtable t) ∉ writeStrLiteral s.1 := fun s =>
        (Plain.writeStrLiteral s.1).not_mem
      simp [arrayEntry, arrayValues, hstr]
    | doubles vals =>
      exact Plain.not_mem (by simp [arrayEntry, arrayValues, Plain.flatMap, Plain.f8])
    | _ => exact Plain.not_mem (by simp [arrayEntry, arrayValues])
  | _ => exact List.not_mem_nil

theorem not_mem_constTables (keys : List Addr) : .place (.vtable t) ∉ constTables img keys := by
  simp only [constTables, List.mem_append, List.mem_cons, List.mem_flatMap, not_or, not_exists,
    not_and, reduceCtorEq, not_false_eq_true, true_and, List.not_mem_nil, and_true]
  refine ⟨⟨⟨⟨⟨plain_numberTables.not_mem, fun a _ => (plain_strEntry a).not_mem⟩, ?_⟩,
    fun a _ => not_mem_arrayEntry a⟩, fun a _ => ?_⟩, fun a _ => ?_⟩
  · exact ⟨(Plain.tableStart 2).not_mem, fun a _ => (plain_bufEntry a).not_mem⟩
  · cases a <;> simp [qnameTypeEntry]
  · cases a <;> simp [qnameSlotEntry]

/-! ### The tables -/

/-- The table starts at `o` and has a cell for each method that is not abstract. -/
structure VTableAt (l : Layout) (vt : IrVTable) (o : ℕ) : Prop where
  start : l.start (.vtable vt.type) = some o
  cell {i : ℕ} {m : MethodRef} (h : vt.methods[i]? = some m) (hm : ¬m.isAbstract) :
    (o + 2 * i, .obj (.code m.slot)) ∈ l.cells

theorem VTableAt.grows {vt : IrVTable} {o : ℕ} (h : VTableAt l vt o)
    (hg : Layout.Grows vt.type l l') : VTableAt l' vt o where
  start := hg.start.trans h.start
  cell hi hm := hg.cells (h.cell hi hm)

/-- The write of an entry of a table. -/
def vtableEntry (m : MethodRef) : Write :=
  if m.isAbstract then .u2 0#32 else .addBlockIndex (.code m.slot)

theorem plain_vtableEntries (ms : List MethodRef) : Plain (ms.map vtableEntry) :=
  Plain.map fun m => by
    unfold vtableEntry
    split <;> simp

/-- An entry has two bytes. -/
theorem write_vtableEntry {m : MethodRef} (h : l.write img (vtableEntry m) = .ok l') :
    l'.size = l.size + 2 ∧
      (¬m.isAbstract → (l.size, .obj (.code m.slot)) ∈ l'.cells) := by
  unfold vtableEntry at h
  split at h
  · next habs =>
    simp only [Layout.write] at h
    split at h
    · cases h
    · exact ⟨Except.ok.inj h ▸ rfl, fun hm => absurd habs hm⟩
  · simp only [Layout.write, Addr.alignBlockIndex, Bool.false_and, Bool.false_eq_true,
      if_false] at h
    obtain rfl := Except.ok.inj h
    exact ⟨rfl, fun _ => List.mem_cons_self ..⟩

theorem emit_vtableEntries {ms : List MethodRef}
    (h : emit img l (ms.map vtableEntry) = .ok l') {i : ℕ} {m : MethodRef}
    (hi : ms[i]? = some m) (hm : ¬m.isAbstract) :
    (l.size + 2 * i, .obj (.code m.slot)) ∈ l'.cells := by
  induction ms generalizing l i with
  | nil => cases hi
  | cons m₀ ms ih =>
    rw [List.map_cons, emit, List.foldlM_cons] at h
    obtain ⟨l₁, h₁, h⟩ := Lockstep.bind_eq_ok.mp h
    obtain ⟨hsize, hcell⟩ := write_vtableEntry h₁
    cases i with
    | zero =>
      obtain rfl := Option.some.inj hi
      exact (Layout.Grows.emit_plain (t := m₀.slot.parent) h (plain_vtableEntries ms)).cells
        (hcell hm)
    | succ i =>
      have hrest := ih h hi
      rw [hsize] at hrest
      rwa [show l.size + 2 * (i + 1) = l.size + 2 + 2 * i by omega]

theorem emit_append {ws vs : List Write} (h : emit img l (ws ++ vs) = .ok l') :
    ∃ l₁, emit img l ws = .ok l₁ ∧ emit img l₁ vs = .ok l' := by
  rw [emit, List.foldlM_append] at h
  exact Lockstep.bind_eq_ok.mp h

theorem Layout.write_place {a : Addr} (h : l.write img (.place a) = .ok l') :
    l' = { l with start := Function.update l.start a (some l.size) } := by
  cases Layout.writeStep h with
  | place => rfl
  | grow n hw | header _ hw => exact absurd rfl (hw a)

/-- One table. -/
theorem vtable_spec {vt : IrVTable} (h : emit img l (vtable vt) = .ok l') :
    ∃ o, VTableAt l' vt o := by
  obtain ⟨l₃, h₃, hend⟩ := emit_append h
  obtain ⟨l₂, hstart, hentries⟩ := emit_append h₃
  have hsplit : emit img l ([.align 2] ++ [.place (.vtable vt.type)]) = .ok l₂ := hstart
  obtain ⟨l₁, -, hone⟩ := emit_append hsplit
  have hafter : Layout.Grows vt.type l₂ l' :=
    (Layout.Grows.emit_plain hentries (plain_vtableEntries vt.methods)).trans
      (Layout.Grows.emit_plain hend (by simp))
  rw [emit, List.foldlM_cons] at hone
  obtain ⟨l₁', hplace, hnil⟩ := Lockstep.bind_eq_ok.mp hone
  obtain rfl : l₁' = l₂ := Except.ok.inj hnil
  obtain rfl := Layout.write_place hplace
  refine ⟨l₁.size, hafter.start.trans (Function.update_self ..), fun hi hm => ?_⟩
  exact (Layout.Grows.emit_plain (t := vt.type) hend (by simp)).cells
    (emit_vtableEntries hentries hi hm)

theorem not_mem_vtable {vt : IrVTable} (hne : vt.type ≠ t) :
    .place (.vtable t) ∉ vtable vt := by
  have hentries := (plain_vtableEntries vt.methods).not_mem (t := t)
  simp only [vtable, List.mem_append, List.mem_cons, List.not_mem_nil, reduceCtorEq,
    Write.place.injEq, Addr.vtable.injEq, hne.symm, or_self, or_false, false_or]
  exact hentries

/-- All tables, of different types. -/
theorem vtables_spec {vts : List IrVTable} (hne : vts.Pairwise fun a b => a.type ≠ b.type)
    (h : emit img l (vts.flatMap vtable) = .ok l') {vt : IrVTable} (hvt : vt ∈ vts) :
    ∃ o, VTableAt l' vt o := by
  induction vts generalizing l with
  | nil => cases hvt
  | cons v vts ih =>
    rw [List.flatMap_cons] at h
    obtain ⟨l₁, h₁, hrest⟩ := emit_append h
    obtain ⟨hv, hne⟩ := List.pairwise_cons.mp hne
    rcases List.mem_cons.mp hvt with rfl | hvt
    · obtain ⟨o, ho⟩ := vtable_spec h₁
      refine ⟨o, ho.grows (Layout.Grows.emit hrest fun hw => ?_)⟩
      obtain ⟨u, hu, hw⟩ := List.mem_flatMap.mp hw
      exact not_mem_vtable (hv u hu).symm hw
    · exact ih hne hrest hvt

/-- The tables in the complete layout. -/
theorem layout_vtables {order : PoolOrder} {flat : IrFlat}
    (hne : flat.virtTypes.Pairwise fun a b => a.type ≠ b.type)
    (h : layout img order flat = .ok l) {vt : IrVTable} (hvt : vt ∈ flat.virtTypes) :
    ∃ o, VTableAt l vt o := by
  obtain ⟨l₆, hrun, hfinish⟩ := Lockstep.bind_eq_ok.mp h
  obtain rfl : l₆ = l := by
    unfold Layout.finish at hfinish
    split at hfinish
    · exact Except.ok.inj hfinish
    · cases hfinish
  obtain ⟨l₁, -, hrun⟩ := Lockstep.bind_eq_ok.mp hrun
  obtain ⟨l₂, -, hrun⟩ := Lockstep.bind_eq_ok.mp hrun
  obtain ⟨l₃, hvtables, hrun⟩ := Lockstep.bind_eq_ok.mp hrun
  obtain ⟨l₄, hmeta, hrun⟩ := Lockstep.bind_eq_ok.mp hrun
  obtain ⟨l₅, hmethods, hrun⟩ := Lockstep.bind_eq_ok.mp hrun
  obtain ⟨l₅', htests, hconst⟩ := Lockstep.bind_eq_ok.mp hrun
  obtain ⟨o, ho⟩ := vtables_spec hne hvtables hvt
  have hmeta : Layout.Grows vt.type l₃ l₄ := .emit_plain hmeta (Plain.metadata flat)
  have hmethods : Layout.Grows vt.type l₄ l₅ := .foldlM hmethods fun _ _ _ _ h => .method h
  have htests : Layout.Grows vt.type l₅ l₅' := .emit_plain htests (Plain.tests flat)
  have hconst : Layout.Grows vt.type l₅' l₆ := .emit hconst (not_mem_constTables _)
  exact ⟨o, ho.grows (((hmeta.trans hmethods).trans htests).trans hconst)⟩

end Sedona.ImageGen
