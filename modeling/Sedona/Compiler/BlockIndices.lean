import Mathlib.Data.List.Pairwise
import Mathlib.Tactic.IntervalCases
import Sedona.Compiler.ImageGen
import Sedona.Library.Lockstep

/-!
# The Block Indices of an Image

A cell of an image that refers to an object holds the block index of the object, its offset
divided by the block size. The cell has two bytes and is written without a look at the value.

The generator and the layout (`Sedona.Compiler.ImageLayout`) run in lockstep: they fail
together, and otherwise the block index that the generator has for an object is that of the
place the layout gives it. Cells do not overlap, and nothing else is written over one, so in
the end every cell holds the block index modulo 2¹⁶.

## Main results

* `Rel.write`, `Rel.ops`: one write and the code of a method keep the relation.
* `generate_lockstep`: generator and layout run in lockstep, and what the cells hold.
* `blockIndicesResolve_iff`: all cells resolve if and only if the objects start low enough.
-/

namespace Sedona.ImageGen

open ByteCells

variable {img : SCodeImage} {s : Gen} {l : Layout}

/-! ### The pool -/

/-- The names that an entry of the pool is made of are in the pool. -/
structure PoolClosed (pool : List Addr) : Prop where
  type {t : TypeName} (h : .qnameType t ∈ pool) : .str t.kit ∈ pool ∧ .str t.name ∈ pool
  slot {s : SlotName} (h : .qnameSlot s ∈ pool) : .qnameType s.parent ∈ pool ∧ .str s.name ∈ pool

theorem PoolClosed.nil : PoolClosed [] where
  type h := nomatch h
  slot h := nomatch h

theorem mem_put {pool : List Addr} {a b : Addr} : b ∈ put pool a ↔ b = a ∨ b ∈ pool := by
  unfold put
  split
  · next h => exact ⟨.inr, fun hb => hb.elim (· ▸ h) id⟩
  · simp only [List.mem_append, List.mem_singleton, or_comm]

theorem mem_poolQnameType {pool : List Addr} {t : TypeName} {b : Addr} (hb : b ∈ pool) :
    b ∈ poolQnameType pool t := by
  unfold poolQnameType
  split
  · exact hb
  · simp only [mem_put, hb, or_true]

theorem PoolClosed.put {pool : List Addr} (h : PoolClosed pool) (a : Addr)
    (ht : ∀ t, a = .qnameType t → .str t.kit ∈ pool ∧ .str t.name ∈ pool)
    (hs : ∀ s, a = .qnameSlot s → .qnameType s.parent ∈ pool ∧ .str s.name ∈ pool) :
    PoolClosed (put pool a) where
  type {t} hmem := by
    obtain ⟨hk, hn⟩ := (mem_put.mp hmem).elim (fun h' => ht t h'.symm) h.type
    exact ⟨mem_put.mpr (.inr hk), mem_put.mpr (.inr hn)⟩
  slot {s} hmem := by
    obtain ⟨hk, hn⟩ := (mem_put.mp hmem).elim (fun h' => hs s h'.symm) h.slot
    exact ⟨mem_put.mpr (.inr hk), mem_put.mpr (.inr hn)⟩

/-- A constant that is not made of names. -/
theorem PoolClosed.put_plain {pool : List Addr} (h : PoolClosed pool) {a : Addr}
    (ht : ∀ t, a ≠ .qnameType t) (hs : ∀ s, a ≠ .qnameSlot s) :
    PoolClosed (ImageGen.put pool a) :=
  h.put a (fun t ha => absurd ha (ht t)) fun s ha => absurd ha (hs s)

theorem PoolClosed.poolQnameType {pool : List Addr} (h : PoolClosed pool) (t : TypeName) :
    PoolClosed (poolQnameType pool t) ∧ .qnameType t ∈ poolQnameType pool t := by
  unfold ImageGen.poolQnameType
  split
  · next ht => exact ⟨h, ht⟩
  · refine ⟨((h.put_plain ?_ ?_).put_plain ?_ ?_).put _ ?_ ?_, mem_put.mpr (.inl rfl)⟩ <;>
      first
      | exact fun _ => Addr.noConfusion
      | rintro t' ⟨⟩
        simp only [mem_put, true_or, or_true, and_self]

theorem PoolClosed.poolQnameSlot {pool : List Addr} (h : PoolClosed pool) (s : SlotName) :
    PoolClosed (poolQnameSlot pool s) := by
  unfold ImageGen.poolQnameSlot
  split
  · exact h
  · obtain ⟨hclosed, hmem⟩ := h.poolQnameType s.parent
    refine (hclosed.put_plain ?_ ?_).put _ ?_ ?_ <;>
      first
      | exact fun _ => Addr.noConfusion
      | rintro s' ⟨⟩
        simp only [mem_put, hmem, true_or, or_true, and_self]

theorem PoolClosed.intern {pool : List Addr} (h : PoolClosed pool) (a : Addr) :
    PoolClosed (intern pool a) := by
  cases a with
  | qnameType t => exact (h.poolQnameType t).1
  | qnameSlot s => exact h.poolQnameSlot s
  | int | long | float | double | str | buf | array =>
    exact h.put_plain (fun _ => Addr.noConfusion) fun _ => Addr.noConfusion
  | _ => exact h

/-! ### The relation -/

/-- The cell at `off` holds the index of the block at `o`, modulo 2¹⁶. -/
structure Holds (img : SCodeImage) (code : List Byte) (off o : ℕ) : Prop where
  dvd : img.blockSize ∣ o
  pos : 24 ≤ o
  value : u2At img.bigEndian code off = o / img.blockSize % 65536

/-- The cells of the layout that the generator has on its list. -/
def patches (cells : List (ℕ × Target)) : List (ℕ × Addr) :=
  cells.filterMap fun c => match c.2 with
    | .obj a => some (c.1, a)
    | _ => none

@[simp] theorem patches_obj (off : ℕ) (a : Addr) (cells : List (ℕ × Target)) :
    patches ((off, .obj a) :: cells) = (off, a) :: patches cells := rfl

@[simp] theorem patches_at (off o : ℕ) (cells : List (ℕ × Target)) :
    patches ((off, .at o) :: cells) = patches cells := rfl

/-- How the state of the generator goes with the layout, once the fields of the header are
written. -/
structure Rel (img : SCodeImage) (s : Gen) (l : Layout) : Prop where
  size : s.code.length = l.size
  header_written : 24 ≤ l.size
  pool : s.pool = l.pool
  closed : PoolClosed l.pool
  placed {a : Addr} {o : ℕ} (h : l.start a = some o) :
    img.blockSize ∣ o ∧ 24 ≤ o ∧ s.blockIndex a = o / img.blockSize
  notPlaced {a : Addr} (h : l.start a = none) : s.blockIndex a = 0
  backpatch : s.backpatch = patches l.cells
  header {c : HeaderCell} {o : ℕ} (h : l.header c = some o) : Holds img s.code c.off o
  known {off o : ℕ} (h : (off, .at o) ∈ l.cells) : Holds img s.code off o
  noUnplaced {off : ℕ} : (off, .unplaced) ∉ l.cells
  bounds {c : ℕ × Target} (h : c ∈ l.cells) : 24 ≤ c.1 ∧ c.1 + 2 ≤ l.size
  spaced : l.cells.Pairwise fun c d => d.1 + 2 ≤ c.1
  aligned {off : ℕ} {a : Addr} (h : (off, .obj a) ∈ l.cells) (ha : a.alignBlockIndex) : off % 2 = 0

namespace Holds

variable {code : List Byte} {off o : ℕ}

theorem append (h : Holds img code off o) (hoff : off + 2 ≤ code.length) (bytes : List Byte) :
    Holds img (code ++ bytes) off o where
  __ := h
  value := by rw [u2At_append hoff, h.value]

theorem overwrite (h : Holds img code off o) {pos : ℕ} {bytes : List Byte}
    (hpos : off + 2 ≤ pos ∨ pos + bytes.length ≤ off) :
    Holds img (ByteCells.overwrite code pos bytes) off o where
  __ := h
  value := by rw [u2At_overwrite_of_disjoint hpos, h.value]

theorem ofNat_toNat (n : ℕ) : (BitVec.ofNat 32 n).toNat % 65536 = n % 65536 := by
  rw [BitVec.toNat_ofNat]
  omega

end Holds

theorem HeaderCell.off_bounds (c : HeaderCell) : 16 ≤ c.off ∧ c.off + 2 ≤ 24 ∧ c.off % 2 = 0 := by
  cases c <;> decide

theorem HeaderCell.disjoint {c d : HeaderCell} (h : c ≠ d) :
    c.off + 2 ≤ d.off ∨ d.off + 2 ≤ c.off := by
  cases c <;> cases d <;> first | exact absurd rfl h | decide

namespace Rel

/-- Bytes at the end that no cell is among. -/
theorem append (h : Rel img s l) (bytes : List Byte) :
    Rel img (s.append bytes) (l.grow bytes.length) where
  __ := h
  size := by simp only [Gen.append, Layout.grow, List.length_append, h.size]
  header_written := Nat.le_add_right_of_le h.header_written
  header {c o} hc := by
    refine (h.header hc).append ?_ bytes
    have := c.off_bounds
    have := h.header_written
    rw [h.size]
    omega
  known {off o} hc := (h.known hc).append (h.size ▸ (h.bounds hc).2) bytes
  bounds {c} hc := ⟨(h.bounds hc).1, Nat.le_add_right_of_le (h.bounds hc).2⟩

/-- A new cell at the end. -/
theorem cell (h : Rel img s l) {t : Target} {v : JInt} {pool : List Addr}
    (hpool : PoolClosed pool) (hunplaced : t ≠ .unplaced)
    (hobj : ∀ a, t = .obj a → a.alignBlockIndex → l.size % 2 = 0)
    (hknown : ∀ o, t = .at o →
      img.blockSize ∣ o ∧ 24 ≤ o ∧ v.toNat % 65536 = o / img.blockSize % 65536) :
    Rel img
      { s with
        code := s.code ++ u2Bytes img.bigEndian v
        pool
        backpatch := patches ((l.size, t) :: l.cells) }
      { l.grow 2 with pool, cells := (l.size, t) :: l.cells } where
  size := by simp only [Layout.grow, List.length_append, h.size, length_u2Bytes]
  header_written := Nat.le_add_right_of_le h.header_written
  pool := rfl
  closed := hpool
  placed := h.placed
  notPlaced := h.notPlaced
  backpatch := rfl
  header := (h.append (u2Bytes img.bigEndian v)).header
  known {off o} hc := by
    rcases List.mem_cons.mp hc with heq | hc
    · obtain ⟨rfl, rfl⟩ := Prod.mk.inj heq
      obtain ⟨hdvd, hpos, hv⟩ := hknown o rfl
      refine ⟨hdvd, hpos, ?_⟩
      rw [← hv, ← h.size, u2At_append_u2Bytes]
    · exact (h.append (u2Bytes img.bigEndian v)).known hc
  noUnplaced {off} hc := by
    rcases List.mem_cons.mp hc with heq | hc
    · exact hunplaced (Prod.mk.inj heq).2.symm
    · exact h.noUnplaced hc
  bounds {c} hc := by
    rcases List.mem_cons.mp hc with rfl | hc
    · exact ⟨h.header_written, Nat.le_refl _⟩
    · exact ⟨(h.bounds hc).1, Nat.le_add_right_of_le (h.bounds hc).2⟩
  spaced := List.pairwise_cons.mpr ⟨fun c hc => (h.bounds hc).2, h.spaced⟩
  aligned {off a} hc ha := by
    rcases List.mem_cons.mp hc with heq | hc
    · obtain ⟨rfl, rfl⟩ := Prod.mk.inj heq
      exact hobj a rfl ha
    · exact h.aligned hc ha

/-- Bytes written over a part in which no cell is that is known. -/
theorem overwrite (h : Rel img s l) {pos : ℕ} {bytes : List Byte} {base : ℕ} (hbase : 24 ≤ base)
    (hpos : base ≤ pos) (hknown : ∀ off o, (off, .at o) ∈ l.cells → off + 2 ≤ base) :
    Rel img { s with code := ByteCells.overwrite s.code pos bytes } l where
  __ := h
  size := by simp only [length_overwrite, h.size]
  header {c o} hc := by
    have := c.off_bounds
    exact (h.header hc).overwrite (.inl (by omega))
  known {off o} hc := (h.known hc).overwrite (.inl (Nat.le_trans (hknown off o hc) hpos))

/-- A cell of the header. -/
theorem setHeader (h : Rel img s l) (c : HeaderCell) {v : JInt} {o : Option ℕ}
    (ho : ∀ o', o = some o' →
      img.blockSize ∣ o' ∧ 24 ≤ o' ∧ v.toNat % 65536 = o' / img.blockSize % 65536) :
    Rel img { s with code := ByteCells.overwrite s.code c.off (u2Bytes img.bigEndian v) }
      { l with header := Function.update l.header c o } where
  __ := h
  size := by simp only [length_overwrite, h.size]
  header {d o'} hd := by
    rcases eq_or_ne d c with rfl | hne
    · simp only [Function.update_self] at hd
      obtain ⟨hdvd, hpos, hv⟩ := ho o' hd
      refine ⟨hdvd, hpos, ?_⟩
      rw [u2At_overwrite_u2Bytes, hv]
      have := d.off_bounds
      have := h.header_written
      rw [h.size]
      omega
    · simp only [Function.update_of_ne hne] at hd
      exact (h.header hd).overwrite (by simpa using HeaderCell.disjoint hne)
  known {off o'} hc := by
    have := c.off_bounds
    have := (h.bounds hc).1
    refine (h.known hc).overwrite (.inr ?_)
    rw [length_u2Bytes]
    omega

/-- An object is placed. -/
theorem place (h : Rel img s l) (a : Addr) (hdvd : img.blockSize ∣ l.size) :
    Rel img { s with blockIndex := Function.update s.blockIndex a (l.size / img.blockSize) }
      { l with start := Function.update l.start a (some l.size) } where
  __ := h
  placed {b o} hb := by
    rcases eq_or_ne b a with rfl | hne
    · simp only [Function.update_self] at hb ⊢
      obtain rfl := Option.some.inj hb
      exact ⟨hdvd, h.header_written, rfl⟩
    · simp only [Function.update_of_ne hne] at hb ⊢
      exact h.placed hb
  notPlaced {b} hb := by
    rcases eq_or_ne b a with rfl | hne
    · simp only [Function.update_self] at hb
      cases hb
    · simp only [Function.update_of_ne hne] at hb ⊢
      exact h.notPlaced hb

theorem blockIndexHere (h : Rel img s l) :
    Lockstep (fun ix o => o = l.size ∧ ix = l.size / img.blockSize ∧ img.blockSize ∣ l.size)
      (s.blockIndexHere img) (l.blockStart img) := by
  unfold Gen.blockIndexHere Layout.blockStart
  rw [h.size]
  refine .ite Iff.rfl (fun _ => .error _ _) fun _ => ?_
  exact .ite Iff.rfl (fun _ => .error _ _) fun hmod =>
    .ok ⟨rfl, rfl, Nat.dvd_of_mod_eq_zero (Decidable.not_not.mp hmod)⟩

/-- Bytes at the end, of which the layout knows the number. -/
theorem append_of_length (h : Rel img s l) {bytes : List Byte} {n : ℕ} (hn : bytes.length = n) :
    Rel img (s.append bytes) (l.grow n) :=
  hn ▸ h.append bytes

theorem pad (h : Rel img s l) (n : ℕ) : Rel img (s.pad n) (l.grow n) :=
  h.append_of_length List.length_replicate

theorem length_i4Bytes (v : JInt) : (Gen.i4Bytes img v).length = 4 := by
  unfold Gen.i4Bytes
  split <;> rfl

theorem length_i8Bytes (v : BitVec 64) : (Gen.i8Bytes img v).length = 8 := by
  unfold Gen.i8Bytes
  split <;> rfl

/-- The block index that is written for an object. -/
theorem known_of_placed (h : Rel img s l) {a : Addr} {o : ℕ} (ho : l.start a = some o) :
    img.blockSize ∣ o ∧ 24 ≤ o ∧
      (BitVec.ofNat 32 (s.blockIndex a)).toNat % 65536 = o / img.blockSize % 65536 := by
  obtain ⟨hdvd, hpos, hix⟩ := h.placed ho
  exact ⟨hdvd, hpos, by rw [Holds.ofNat_toNat, hix]⟩

/-- An object is placed in the layout if and only if it has a block index. -/
theorem blockIndex_eq_zero (h : Rel img s l) (a : Addr) :
    s.blockIndex a = 0 ↔ l.start a = none := by
  rcases hstart : l.start a with _ | o
  · exact iff_of_true (h.notPlaced hstart) rfl
  · obtain ⟨hdvd, hpos, hix⟩ := h.placed hstart
    have hbs : 0 < img.blockSize := Nat.pos_of_dvd_of_pos hdvd (by omega)
    have := Nat.div_pos (Nat.le_of_dvd (by omega) hdvd) hbs
    refine iff_of_false ?_ (by simp only [reduceCtorEq, not_false_eq_true])
    omega

/-- One write. A cell that is written with the block index of an object needs the object to be
placed. -/
theorem write (h : Rel img s l) (w : Write)
    (hw : ∀ a, w = .u2BlockIndex a → (l.start a).isSome) :
    Lockstep (Rel img) (s.write img w) (l.write img w) := by
  have hsize := h.size
  cases w with
  | u1 v => exact .ok (h.append_of_length rfl)
  | u2 v checkAlign =>
    exact .ite (by rw [hsize]) (fun _ => .error _ _) fun _ =>
      .ok (h.append_of_length (length_u2Bytes _ v))
  | i4 v =>
    exact .ite (by rw [hsize]) (fun _ => .error _ _) fun _ =>
      .ok (h.append_of_length (length_i4Bytes v))
  | i8 v =>
    exact .ite (by rw [hsize]) (fun _ => .error _ _) fun _ =>
      .ok (h.append_of_length (length_i8Bytes v))
  | append b => exact .ok (h.append_of_length (by rw [Buf.bytes, List.length_map, List.length_range]))
  | align a => exact .ok (hsize ▸ h.pad _)
  | blockAlign => exact .ite Iff.rfl (fun _ => .error _ _) fun _ => .ok (hsize ▸ h.pad _)
  | padArg a => exact .ok (hsize ▸ h.pad _)
  | place a =>
    refine h.blockIndexHere.bind fun ix o hix => ?_
    obtain ⟨rfl, rfl, hdvd⟩ := hix
    exact .ok (h.place a hdvd)
  | addBlockIndex a =>
    refine .ite (by simp only [hsize]) (fun _ => .error _ _) fun halign => .ok ?_
    have hcell := h.cell (t := .obj a) (v := 0xffff#32) (h.closed.intern a) Target.noConfusion
      ?_ fun o ho => Target.noConfusion ho
    · simpa only [Gen.append, patches_obj, h.pool, h.backpatch, hsize]
        using hcell
    · rintro b ⟨⟩ hb
      simpa only [hb, hsize, Bool.true_and, decide_eq_true_eq, Decidable.not_not] using halign
  | headerIndex c =>
    refine h.blockIndexHere.bind fun ix o hix => ?_
    obtain ⟨rfl, rfl, hdvd⟩ := hix
    have halign : ¬(true && c.off % 2 ≠ 0) := by simp [c.off_bounds]
    simp only [Gen.u2At, if_neg halign]
    refine .ok (h.setHeader c fun o' ho' => ?_)
    obtain rfl := Option.some.inj ho'
    exact ⟨hdvd, h.header_written, Holds.ofNat_toNat _⟩
  | headerZero c =>
    have halign : ¬(true && c.off % 2 ≠ 0) := by simp [c.off_bounds]
    simp only [Gen.write, Gen.u2At, if_neg halign]
    exact .ok (h.setHeader c fun o' ho' => nomatch ho')
  | u2BlockIndex a =>
    obtain ⟨o, ho⟩ := Option.isSome_iff_exists.mp (hw a rfl)
    refine .ite (by simp [hsize]) (fun _ => .error _ _) fun _ => .ok ?_
    have hcell := h.cell (t := .at o) h.closed Target.noConfusion
      (fun b hb => Target.noConfusion hb) fun o' ho' => by
        cases ho'
        exact h.known_of_placed ho
    simpa only [Gen.append, Layout.target, Layout.grow, ho, patches_at, h.pool, ← h.backpatch]
      using hcell
  | checkPlaced a =>
    refine .ite ?_ (fun _ => .error _ _) fun _ => .ok h
    rw [Nat.le_zero, h.blockIndex_eq_zero]
  | checkSize a => exact .ite (by rw [hsize]) (fun _ => .error _ _) fun _ => .ok h
  | checkBlock =>
    refine .ite Iff.rfl (fun _ => .error _ _) fun _ => ?_
    exact .ite (by rw [hsize]) (fun _ => .error _ _) fun _ => .ok h
  | throw msg => exact .error _ _

end Rel

/-! ### Cells that are filled in at the end -/

/-- The write neither holds a block index at once nor places a vtable. -/
@[simp] def Write.IsPlain (w : Write) : Prop :=
  (∀ a, w ≠ .u2BlockIndex a) ∧ ∀ t, w ≠ .place (.vtable t)

theorem Write.isPlain_addBlockIndex (a : Addr) : (addBlockIndex a).IsPlain :=
  ⟨fun _ => Write.noConfusion, fun _ => Write.noConfusion⟩

/-- The writes that most objects consist of. -/
def Plain (ws : List Write) : Prop := ∀ w ∈ ws, w.IsPlain

namespace Plain

variable {ws vs : List Write}

@[simp] theorem nil : Plain [] := fun _ hw => absurd hw List.not_mem_nil

@[simp] theorem cons {w : Write} : Plain (w :: ws) ↔ w.IsPlain ∧ Plain ws :=
  List.forall_mem_cons

@[simp] theorem append : Plain (ws ++ vs) ↔ Plain ws ∧ Plain vs :=
  List.forall_mem_append

@[simp] theorem failIf (c : Bool) (msg : String) : Plain (failIf c msg) := by
  cases c <;> simp [ImageGen.failIf]

@[simp] theorem map_iff {α : Type} {f : α → Write} {xs : List α} :
    Plain (xs.map f) ↔ ∀ x ∈ xs, (f x).IsPlain :=
  List.forall_mem_map

theorem map {α : Type} {f : α → Write} {xs : List α} (h : ∀ x, (f x).IsPlain) :
    Plain (xs.map f) :=
  map_iff.mpr fun x _ => h x

theorem flatMap {α : Type} {f : α → List Write} {xs : List α} (h : ∀ x, Plain (f x)) :
    Plain (xs.flatMap f) := by
  intro w hw
  obtain ⟨x, -, hw⟩ := List.mem_flatMap.mp hw
  exact h x w hw

@[simp] theorem addTypeBlockIndex (t : TypeRef) (a : Addr) :
    addTypeBlockIndex t ≠ .u2BlockIndex a := by
  cases t <;> exact Write.noConfusion

@[simp] theorem addTypeBlockIndex' (t : TypeRef) (u : TypeName) :
    ImageGen.addTypeBlockIndex t ≠ .place (.vtable u) := by
  cases t <;> exact Write.noConfusion

/-- The code of a method refers to objects by cells that are filled in at the end. -/
theorem opBody (op : IrOp) : Plain (opBody op) := by
  obtain ⟨opcode, arg⟩ := op
  cases arg with
  | switch labels => exact append.mpr ⟨by simp, map fun _ => by simp⟩
  | field offset =>
    unfold ImageGen.opBody fieldOp
    refine append.mpr ⟨by simp, ?_⟩
    split <;> simp
  | slotId id =>
    unfold ImageGen.opBody
    dsimp only
    split <;> simp
  | _ => simp [ImageGen.opBody]

theorem metaSlot (m : SlotName) : Plain (metaSlot img m) := by
  unfold ImageGen.metaSlot
  split <;> simp

end Plain

/-! ### Sequences of writes -/

/-- Every cell that is written with the block index of an object comes after the object, or
`P` holds of the object. -/
def WellPlaced (P : Addr → Prop) : List Write → Prop
  | [] => True
  | w :: ws => (∀ a, w = .u2BlockIndex a → P a) ∧ WellPlaced (fun b => w = .place b ∨ P b) ws

namespace WellPlaced

variable {P Q : Addr → Prop} {ws vs : List Write}

theorem mono (h : WellPlaced P ws) (hPQ : ∀ a, P a → Q a) : WellPlaced Q ws := by
  induction ws generalizing P Q with
  | nil => trivial
  | cons w ws ih => exact ⟨fun a ha => hPQ a (h.1 a ha), ih h.2 fun b hb => hb.imp_right (hPQ b)⟩

theorem append (h : WellPlaced P ws) (h' : WellPlaced (fun a => .place a ∈ ws ∨ P a) vs) :
    WellPlaced P (ws ++ vs) := by
  induction ws generalizing P with
  | nil => exact h'.mono fun a ha => ha.resolve_left List.not_mem_nil
  | cons w ws ih =>
    refine ⟨h.1, ih h.2 (h'.mono fun a ha => ?_)⟩
    rw [List.mem_cons] at ha
    tauto

theorem append' (h : WellPlaced P ws) (h' : WellPlaced P vs) : WellPlaced P (ws ++ vs) :=
  h.append (h'.mono fun _ => .inr)

theorem flatMap {α : Type} {f : α → List Write} {xs : List α}
    (h : ∀ x ∈ xs, WellPlaced P (f x)) : WellPlaced P (xs.flatMap f) := by
  induction xs with
  | nil => trivial
  | cons x xs ih =>
    rw [List.flatMap_cons]
    exact (h x (List.mem_cons_self ..)).append' (ih fun y hy => h y (List.mem_cons_of_mem _ hy))

/-- All objects that cells are written for are placed before. -/
theorem of_forall (h : ∀ a, .u2BlockIndex a ∈ ws → P a) : WellPlaced P ws := by
  induction ws generalizing P with
  | nil => trivial
  | cons w ws ih =>
    exact ⟨fun a ha => h a (ha ▸ List.mem_cons_self ..),
      ih fun a ha => .inr (h a (List.mem_cons_of_mem _ ha))⟩

theorem of_plain (h : Plain ws) : WellPlaced P ws :=
  of_forall fun a ha => absurd rfl ((h _ ha).1 a)

end WellPlaced

/-- What a write does to the layout. -/
inductive Layout.WriteStep (l : Layout) : Write → Layout → Prop where
  | grow {w : Write} (n : ℕ) (hw : ∀ a, w ≠ .place a) : WriteStep l w (l.grow n)
  | place (a : Addr) :
      WriteStep l (.place a) { l with start := Function.update l.start a (some l.size) }
  | header {w : Write} (header : HeaderCell → Option ℕ) (hw : ∀ a, w ≠ .place a) :
      WriteStep l w { l with header }
  | addBlockIndex (a : Addr) (pool : List Addr) :
      WriteStep l (.addBlockIndex a)
        { l.grow 2 with pool, cells := (l.size, .obj a) :: l.cells }
  | u2BlockIndex (a : Addr) :
      WriteStep l (.u2BlockIndex a) { l.grow 2 with cells := (l.size, l.target a) :: l.cells }

theorem Layout.writeStep {l' : Layout} {w : Write} (h : l.write img w = .ok l') :
    l.WriteStep w l' := by
  cases w <;>
    simp only [write, blockStart, bind, Except.bind, pure, Except.pure, throw, throwThe,
      MonadExceptOf.throw] at h <;>
    (try split_ifs at h) <;> cases h
  all_goals first
    | exact .grow _ fun _ => Write.noConfusion
    | exact .place _
    | exact .addBlockIndex _ _
    | exact .u2BlockIndex _
    | exact .header _ fun _ => Write.noConfusion

namespace Layout.WriteStep

variable {l' : Layout} {w : Write}

theorem size_le (h : l.WriteStep w l') : l.size ≤ l'.size := by
  cases h with
  | grow | addBlockIndex | u2BlockIndex => exact Nat.le_add_right _ _
  | place | header => exact Nat.le_refl _

/-- Objects stay placed. -/
theorem isSome_start (h : l.WriteStep w l') {a : Addr} (ha : w = .place a ∨ (l.start a).isSome) :
    (l'.start a).isSome := by
  cases h with
  | grow n hw | header _ hw => exact ha.resolve_left (hw a)
  | addBlockIndex | u2BlockIndex => exact ha.resolve_left Write.noConfusion
  | place b =>
    rcases eq_or_ne a b with rfl | hne
    · simp only [Function.update_self, Option.isSome_some]
    · simp only [Function.update_of_ne hne]
      exact ha.resolve_left fun hb => hne (Write.place.inj hb).symm

/-- A cell that is known is written for `u2BlockIndex` only. -/
theorem known (h : l.WriteStep w l') (hw : ∀ a, w ≠ .u2BlockIndex a) {off o : ℕ}
    (hc : (off, .at o) ∈ l'.cells) : (off, .at o) ∈ l.cells := by
  cases h with
  | grow | header | place => exact hc
  | addBlockIndex a pool => exact (List.mem_cons.mp hc).resolve_left (by simp)
  | u2BlockIndex a => exact absurd rfl (hw a)

end Layout.WriteStep

/-- Writes in sequence. -/
theorem Rel.emit (h : Rel img s l) {ws : List Write}
    (hws : WellPlaced (fun a => (l.start a).isSome) ws) :
    Lockstep (Rel img) (ImageGen.emit img s ws) (ImageGen.emit img l ws) := by
  induction ws generalizing s l with
  | nil => exact .ok h
  | cons w ws ih =>
    simp only [ImageGen.emit, List.foldlM_cons]
    refine (h.write w hws.1).with_eq.bind fun s' l' hw => ?_
    exact ih hw.1 (hws.2.mono fun a => (Layout.writeStep hw.2.2).isSome_start)

/-! ### The code of a method -/

/-- The relation while the code of a method is written, from `base` on: no cell in it is
known. -/
structure RelFrom (img : SCodeImage) (base : ℕ) (s : Gen) (l : Layout) : Prop extends
    Rel img s l where
  base_le : 24 ≤ base ∧ base ≤ l.size
  known_before {off o : ℕ} (h : (off, .at o) ∈ l.cells) : off + 2 ≤ base

/-- At the start of the code of a method. -/
theorem Rel.relFrom (h : Rel img s l) : RelFrom img l.size s l where
  __ := h
  base_le := ⟨h.header_written, Nat.le_refl _⟩
  known_before hc := (h.bounds hc).2

namespace RelFrom

variable {base : ℕ}

theorem write (h : RelFrom img base s l) {w : Write} (hw : ∀ a, w ≠ .u2BlockIndex a) :
    Lockstep (RelFrom img base) (s.write img w) (l.write img w) := by
  refine (h.toRel.write w fun a ha => absurd ha (hw a)).with_eq.mono fun s' l' h' => ?_
  have hstep := Layout.writeStep h'.2.2
  exact { h'.1 with
    base_le := ⟨h.base_le.1, Nat.le_trans h.base_le.2 hstep.size_le⟩
    known_before := fun hc => h.known_before (hstep.known hw hc) }

theorem emit (h : RelFrom img base s l) {ws : List Write}
    (hws : Plain ws) :
    Lockstep (RelFrom img base) (ImageGen.emit img s ws) (ImageGen.emit img l ws) :=
  Lockstep.foldlM ws h fun w hw _ _ h' => h'.write (hws w hw).1

/-- Bytes written over the code. -/
theorem patch (h : RelFrom img base s l) {pos : ℕ} (hpos : base ≤ pos) (bytes : List Byte) :
    RelFrom img base { s with code := ByteCells.overwrite s.code pos bytes } l where
  __ := h.toRel.overwrite h.base_le.1 hpos fun _ _ hc => h.known_before hc
  base_le := h.base_le
  known_before := h.known_before

theorem patchS2 (h : RelFrom img base s l) {pos : ℕ} (hpos : base ≤ pos) (v : JInt) :
    Lockstep (RelFrom img base) (Emitter.patchS2 img s pos v) (Emitter.patchS2 img l pos v) :=
  .ite (by simp) (fun _ => .error _ _) fun _ => .ok (h.patch hpos _)

theorem emitOps (h : RelFrom img base s l) (ops : List IrOp) :
    Lockstep (fun p q => RelFrom img base p.1 q.1 ∧ p.2 = q.2 ∧ ∀ pos ∈ q.2, base ≤ pos)
      (ImageGen.emitOps img s ops) (ImageGen.emitOps img l ops) := by
  induction ops generalizing s l with
  | nil => exact .ok ⟨h, rfl, fun _ hp => absurd hp List.not_mem_nil⟩
  | cons op ops ih =>
    refine (h.write fun _ => Write.noConfusion).bind fun s₁ l₁ h₁ => ?_
    refine (h₁.emit (Plain.opBody op)).bind fun s₂ l₂ h₂ => (ih h₂).bind ?_
    rintro ⟨s₃, ps⟩ ⟨l₃, ps'⟩ ⟨h₃, rfl, hps⟩
    have hsize : Emitter.size s₁ = Emitter.size l₁ := h₁.size
    exact .ok ⟨h₃, by rw [hsize], List.forall_mem_cons.mpr ⟨h₁.base_le.2, hps⟩⟩

theorem patchJump (h : RelFrom img base s l) (pos : List ℕ) {jumpPos : ℕ} (hpos : base ≤ jumpPos)
    (op : IrOp) :
    Lockstep (fun p q => RelFrom img base p.1 q.1 ∧ p.2 = q.2)
      (ImageGen.patchJump img pos s jumpPos op) (ImageGen.patchJump img pos l jumpPos op) := by
  have hnext : base ≤ jumpPos + 1 := Nat.le_succ_of_le hpos
  obtain ⟨opcode, arg⟩ := op
  cases arg with
  | jumpFar label =>
    refine (Lockstep.self (jumpOffset pos jumpPos label)).bind fun off _ hoff => ?_
    subst hoff
    exact (h.patchS2 hnext _).bind fun s₁ l₁ h₁ => .ok ⟨h₁, rfl⟩
  | jump label =>
    refine (Lockstep.self (jumpOffset pos jumpPos label)).bind fun off _ hoff => ?_
    subst hoff
    refine .ite Iff.rfl (fun _ => ?_) fun _ => .ok ⟨h.patch hnext _, rfl⟩
    refine (Lockstep.self (farOpcode opcode)).bind fun far _ hfar => ?_
    subst hfar
    exact .ok ⟨h, rfl⟩
  | _ => exact .ok ⟨h, rfl⟩

theorem patchJumps (h : RelFrom img base s l) (pos : List ℕ) {ps : List ℕ}
    (hps : ∀ p ∈ ps, base ≤ p) (ops : List IrOp) :
    Lockstep (fun p q => RelFrom img base p.1 q.1 ∧ p.2 = q.2)
      (ImageGen.patchJumps img pos s ps ops) (ImageGen.patchJumps img pos l ps ops) := by
  induction ps generalizing s l ops with
  | nil => exact .ok ⟨h, rfl⟩
  | cons p ps ih =>
    cases ops with
    | nil => exact .ok ⟨h, rfl⟩
    | cons op ops =>
      obtain ⟨hp, hps⟩ := List.forall_mem_cons.mp hps
      refine (h.patchJump pos hp op).bind ?_
      rintro ⟨s₁, op₁⟩ ⟨l₁, op₂⟩ ⟨h₁, rfl⟩
      refine (ih h₁ hps ops).bind ?_
      rintro ⟨s₂, ops₁⟩ ⟨l₂, ops₂⟩ ⟨h₂, rfl⟩
      exact .ok ⟨h₂, rfl⟩

theorem patchSwitch (h : RelFrom img base s l) (pos : List ℕ) (switchPos : ℕ) {cell : ℕ}
    (hcell : base ≤ cell) (labels : List ℕ) :
    Lockstep (RelFrom img base) (ImageGen.patchSwitch img pos switchPos s cell labels)
      (ImageGen.patchSwitch img pos switchPos l cell labels) := by
  induction labels generalizing s l cell with
  | nil => exact .ok h
  | cons label labels ih =>
    refine (Lockstep.self (jumpOffset pos switchPos label)).bind fun off _ hoff => ?_
    subst hoff
    exact (h.patchS2 hcell _).bind fun s₁ l₁ h₁ => ih h₁ (Nat.le_add_right_of_le hcell)

theorem patchSwitches (h : RelFrom img base s l) (pos : List ℕ) {ps : List ℕ}
    (hps : ∀ p ∈ ps, base ≤ p) (ops : List IrOp) :
    Lockstep (RelFrom img base) (ImageGen.patchSwitches img pos s ps ops)
      (ImageGen.patchSwitches img pos l ps ops) := by
  induction ps generalizing s l ops with
  | nil => exact .ok h
  | cons p ps ih =>
    cases ops with
    | nil => exact .ok h
    | cons op ops =>
      obtain ⟨hp, hps⟩ := List.forall_mem_cons.mp hps
      obtain ⟨opcode, arg⟩ := op
      cases arg with
      | switch labels =>
        exact (h.patchSwitch pos p (Nat.le_add_right_of_le hp) labels).bind fun s₁ l₁ h₁ =>
          ih h₁ hps ops
      | _ => exact ih h hps ops

theorem withPool (h : RelFrom img base s l) {pool : List Addr} (hpool : PoolClosed pool) :
    RelFrom img base (Emitter.withPool s pool) (Emitter.withPool l pool) where
  __ := h
  pool := rfl
  closed := hpool

/-- The loop keeps the relation, whatever the number of rounds. -/
theorem opsLoop (h : RelFrom img base s l) (rounds : ℕ) (ops : List IrOp) :
    Lockstep (RelFrom img base) (ImageGen.opsLoop img s rounds ops)
      (ImageGen.opsLoop img l rounds ops) := by
  induction rounds generalizing s l ops with
  | zero => exact .error _ _
  | succ rounds ih =>
    refine (h.emitOps ops).bind ?_
    rintro ⟨s₁, pos⟩ ⟨l₁, pos'⟩ ⟨h₁, rfl, hpos⟩
    refine (h₁.patchJumps pos hpos ops).bind ?_
    rintro ⟨s₂, ops₁⟩ ⟨l₂, ops₂⟩ ⟨h₂, rfl⟩
    refine .ite Iff.rfl (fun _ => ?_) fun _ => h₂.patchSwitches pos hpos ops
    have hpool : Emitter.pool s₂ = Emitter.pool l₂ := h₂.pool
    rw [hpool]
    exact ih (h.withPool h₂.closed) ops₁

end RelFrom

/-- The code of a method. -/
theorem Rel.ops (h : Rel img s l) (code : List IrOp) :
    Lockstep (Rel img) (ImageGen.ops img s code) (ImageGen.ops img l code) :=
  (h.relFrom.opsLoop _ code).mono fun _ _ h' => h'.toRel

theorem Rel.emit_plain (h : Rel img s l) {ws : List Write} (hws : Plain ws) :
    Lockstep (Rel img) (ImageGen.emit img s ws) (ImageGen.emit img l ws) :=
  h.emit (.of_plain hws)

theorem Rel.method (h : Rel img s l) (m : IrMethod) :
    Lockstep (Rel img) (ImageGen.method img s m) (ImageGen.method img l m) := by
  refine .ite Iff.rfl (fun _ => .ok h) fun _ => ?_
  have hstart : Plain ([.place (.code m.slot), .u1 (BitVec.ofNat 32 m.numParams),
      .u1 m.maxLocals] ++ ImageGen.metaSlot img m.slot) :=
    Plain.append.mpr ⟨by simp, Plain.metaSlot _⟩
  refine (h.emit_plain hstart).bind fun s₁ l₁ h₁ => ?_
  have hend : Plain [.blockAlign] := by simp
  cases m.code with
  | none => exact h₁.emit_plain hend
  | some code => exact (h₁.ops code).bind fun s₂ l₂ h₂ => h₂.emit_plain hend

/-! ### The objects of a program -/

namespace Plain

theorem withMain (flat : IrFlat) (qname : String) {f : IrMethod → List Write}
    (h : ∀ m, Plain (f m)) : Plain (withMain flat qname f) := by
  unfold ImageGen.withMain
  split
  · exact h _
  · simp

variable (flat : IrFlat)

theorem resumeBlockIndex : Plain (resumeBlockIndex img flat) :=
  withMain flat _ fun _ => by simp

theorem bootstrap : Plain (bootstrap img flat) := by
  refine append.mpr ⟨by simp, withMain flat _ fun m => ?_⟩
  exact append.mpr ⟨append.mpr ⟨metaSlot _, flatMap fun _ => by simp⟩, by simp⟩

theorem kits : Plain (kits flat) := by
  have hkit : ∀ k : IrKit × ℕ, Plain (kit flat k.2 k.1) := fun k => by
    simp only [kit, append, failIf, cons, nil, Write.IsPlain, Write.place.injEq, ne_eq,
    reduceCtorEq, not_false_eq_true,
      implies_true, and_true, true_and]
    exact ⟨map fun _ => Write.isPlain_addBlockIndex _, map fun _ => Write.isPlain_addBlockIndex _⟩
  simp only [ImageGen.kits, append, failIf, cons, nil, Write.IsPlain, Write.place.injEq, ne_eq,
    reduceCtorEq, not_false_eq_true,
    implies_true, and_true, true_and]
  exact ⟨flatMap hkit, map fun _ => Write.isPlain_addBlockIndex _⟩

theorem types : Plain (types flat) := by
  refine append.mpr ⟨flatMap fun p => by simp [primitiveType], flatMap fun t => ?_⟩
  simp only [type, append, failIf, cons, nil, Write.IsPlain, Write.place.injEq, ne_eq,
    reduceCtorEq, not_false_eq_true,
    implies_true, and_true, true_and]
  refine ⟨?_, flatMap fun s => by simp⟩
  split <;> simp

theorem slots : Plain (slots flat) := by
  refine flatMap fun s => append.mpr ⟨append.mpr ⟨by simp, ?_⟩, by simp⟩
  split <;> simp

theorem logs : Plain (logs flat) := by
  simp only [ImageGen.logs, append, failIf, cons, nil, Write.IsPlain, Write.place.injEq, ne_eq,
    reduceCtorEq, not_false_eq_true,
    implies_true, and_true, true_and]
  exact ⟨flatMap fun f => by simp [log], map fun _ => Write.isPlain_addBlockIndex _⟩

/-- The metadata. -/
theorem metadata : Plain (ImageGen.kits flat ++ ImageGen.types flat ++ ImageGen.slots flat ++
    ImageGen.logs flat) := by
  simp only [append, kits, types, slots, logs, and_self]

theorem tests : Plain (tests img flat) := by
  refine cons.mpr ⟨by simp, ?_⟩
  split
  · exact append.mpr ⟨append.mpr ⟨by simp, flatMap fun _ => by simp⟩, by simp⟩
  · simp

theorem writeStrLiteral (val : String) : Plain (writeStrLiteral val) :=
  append.mpr ⟨flatMap fun _ => by simp, by simp⟩

theorem f8 (bits : BitVec 64) : Plain (f8 img bits) := by
  unfold ImageGen.f8
  split <;> simp

theorem tableStart (a : ℕ) : Plain (tableStart a) := by simp [ImageGen.tableStart]

end Plain

/-! ### The constant pool -/

section ConstTables

variable {P : Addr → Prop} {keys : List Addr}

/-- The cells of a literal of strings come after the strings. -/
theorem wellPlaced_arrayEntry (a : Addr) : WellPlaced P (arrayEntry img a) := by
  cases a with
  | array lit =>
    cases lit with
    | strs vals =>
      have halign : WellPlaced P [.blockAlign] := ⟨fun _ => Write.noConfusion, trivial⟩
      refine halign.append' ?_
      refine .append (.of_plain (Plain.append.mpr
        ⟨Plain.flatMap fun s => by simp [Plain.writeStrLiteral], by simp⟩)) ?_
      refine .of_forall fun b hb => .inl ?_
      obtain ⟨s, hs, heq⟩ := List.mem_map.mp hb
      obtain rfl := Write.u2BlockIndex.inj heq
      exact List.mem_append_left _ (List.mem_flatMap.mpr ⟨s, hs, List.mem_cons_self ..⟩)
    | bytes | shorts | ints | longs | floats =>
      refine .of_plain ?_
      simp [arrayEntry, arrayValues]
    | doubles vals =>
      exact .of_plain (by simp [arrayEntry, arrayValues, Plain.flatMap, Plain.f8])
  | _ => trivial

theorem place_mem_strEntry {s : String} (h : .str s ∈ keys) :
    .place (.str s) ∈ keys.flatMap strEntry :=
  List.mem_flatMap.mpr ⟨_, h, List.mem_cons_self ..⟩

theorem place_mem_qnameTypeEntry {t : TypeName} (h : .qnameType t ∈ keys) :
    .place (.qnameType t) ∈ keys.flatMap qnameTypeEntry :=
  List.mem_flatMap.mpr ⟨_, h, List.mem_cons_self ..⟩

theorem plain_numberTables : Plain (numberTables img keys) := by
  simp only [numberTables, Plain.append, Plain.tableStart, true_and]
  refine ⟨⟨⟨Plain.flatMap fun a => ?_, Plain.flatMap fun a => ?_⟩,
    Plain.flatMap fun a => ?_⟩, Plain.flatMap fun a => ?_⟩ <;>
    cases a <;> simp [intEntry, floatEntry, longEntry, doubleEntry, Plain.f8]

theorem plain_strEntry (a : Addr) : Plain (strEntry a) := by
  cases a <;> simp [strEntry, Plain.writeStrLiteral]

theorem plain_bufEntry (a : Addr) : Plain (bufEntry a) := by
  cases a <;> simp [bufEntry]

/-- The names of types come after the strings, and those of slots after both. -/
theorem wellPlaced_constTables (h : PoolClosed keys) : WellPlaced P (constTables img keys) := by
  refine .append (.append (.append' (.append' (.append' ?_ ?_) ?_) ?_) ?_) ?_
  · exact .of_plain plain_numberTables
  · exact .of_plain (Plain.flatMap plain_strEntry)
  · exact .of_plain (Plain.append.mpr
      ⟨Plain.tableStart 2, Plain.flatMap plain_bufEntry⟩)
  · exact .append' (.flatMap fun a _ => wellPlaced_arrayEntry a) (.of_plain (by simp))
  · refine .of_forall fun b hb => .inl ?_
    obtain ⟨a, ha, hb⟩ := List.mem_flatMap.mp ((List.mem_cons.mp hb).resolve_left
      Write.noConfusion)
    have hstr : .place b ∈ keys.flatMap strEntry := by
      cases a with
      | qnameType t =>
        obtain ⟨hk, hn⟩ := h.type ha
        simp only [qnameTypeEntry, List.mem_cons, reduceCtorEq, Write.u2BlockIndex.injEq,
          List.not_mem_nil, or_false, false_or] at hb
        rcases hb with rfl | rfl
        · exact place_mem_strEntry hk
        · exact place_mem_strEntry hn
      | _ => exact absurd hb List.not_mem_nil
    simp only [List.mem_append, hstr, true_or, or_true]
  · refine .of_forall fun b hb => .inl ?_
    obtain ⟨a, ha, hb⟩ := List.mem_flatMap.mp ((List.mem_cons.mp hb).resolve_left
      Write.noConfusion)
    cases a with
    | qnameSlot s =>
      obtain ⟨hp, hn⟩ := h.slot ha
      simp only [qnameSlotEntry, List.mem_cons, reduceCtorEq, Write.u2BlockIndex.injEq,
        List.not_mem_nil, or_false, false_or] at hb
      rcases hb with rfl | rfl
      · simp only [List.mem_append, List.mem_cons, place_mem_qnameTypeEntry hp, or_true]
      · simp only [List.mem_append, place_mem_strEntry hn, true_or, or_true]
    | _ => exact absurd hb List.not_mem_nil

theorem PoolClosed.of_perm {pool keys : List Addr} (h : PoolClosed pool)
    (hperm : keys.Perm pool) : PoolClosed keys where
  type ht := (h.type (hperm.mem_iff.mp ht)).imp hperm.mem_iff.mpr hperm.mem_iff.mpr
  slot hs := (h.slot (hperm.mem_iff.mp hs)).imp hperm.mem_iff.mpr hperm.mem_iff.mpr

end ConstTables

/-! ### The image -/

theorem wellPlaced_vtables {P : Addr → Prop} (flat : IrFlat) : WellPlaced P (vtables flat) := by
  refine .flatMap fun vt _ => .of_forall fun a ha => ?_
  simp only [vtable, List.mem_append, List.mem_cons, List.mem_map, reduceCtorEq, List.not_mem_nil,
    or_false, false_or] at ha
  obtain ⟨m, -, hm⟩ := ha
  split at hm <;> cases hm

variable {order : PoolOrder} {flat : IrFlat}

/-- The writes of the fields of the header. -/
def Write.isField : Write → Bool
  | .u1 _ | .u2 .. | .i4 _ => true
  | _ => false

/-- Generator and layout before the first object. -/
structure Blank (s : Gen) (l : Layout) : Prop where
  size : s.code.length = l.size
  gen : s.blockIndex = (fun _ => 0) ∧ s.backpatch = [] ∧ s.pool = []
  layout : l = Layout.empty.grow l.size

namespace Blank

theorem append (h : Blank s l) {bytes : List Byte} {n : ℕ} (hn : bytes.length = n) :
    Blank (s.append bytes) (l.grow n) where
  size := by simp only [Gen.append, Layout.grow, List.length_append, h.size, hn]
  gen := h.gen
  layout := by
    rw [h.layout]
    simp [Layout.grow, Layout.empty]

theorem write (h : Blank s l) {w : Write} (hw : w.isField) :
    Lockstep Blank (s.write img w) (l.write img w) := by
  have hsize := h.size
  cases w with
  | u1 v => exact .ok (h.append rfl)
  | u2 v checkAlign =>
    exact .ite (by rw [hsize]) (fun _ => .error _ _) fun _ => .ok (h.append (length_u2Bytes _ v))
  | i4 v =>
    exact .ite (by rw [hsize]) (fun _ => .error _ _) fun _ =>
      .ok (h.append (Rel.length_i4Bytes v))
  | _ => cases hw

theorem rel (h : Blank s l) (hl : 24 ≤ l.size) : Rel img s l := by
  obtain ⟨hix, hpatch, hpool⟩ := h.gen
  have hcells : l.cells = [] := by rw [h.layout]; rfl
  have hstart : ∀ a, l.start a = none := by rw [h.layout]; exact fun _ => rfl
  have hheader : ∀ c, l.header c = none := by rw [h.layout]; exact fun _ => rfl
  have hlpool : l.pool = [] := by rw [h.layout]; rfl
  exact
    { size := h.size
      header_written := hl
      pool := hpool.trans hlpool.symm
      closed := by rw [hlpool]; exact .nil
      placed := fun ho => by rw [hstart] at ho; cases ho
      notPlaced := fun _ => by rw [hix]
      backpatch := by rw [hpatch, hcells]; rfl
      header := fun ho => by rw [hheader] at ho; cases ho
      known := fun hc => by rw [hcells] at hc; cases hc
      noUnplaced := fun hc => by rw [hcells] at hc; cases hc
      bounds := fun hc => by rw [hcells] at hc; cases hc
      spaced := by rw [hcells]; exact .nil
      aligned := fun hc => by rw [hcells] at hc; cases hc }

end Blank

/-- The fields of the header. -/
theorem headerFields_lockstep :
    Lockstep (Rel img) (emit img (Emitter.empty : Gen) (headerFields img flat))
      (emit img (Emitter.empty : Layout) (headerFields img flat)) := by
  have hfields : ∀ w ∈ headerFields img flat, w.isField := by
    simp [headerFields, Write.isField]
  have hblank : Blank (Emitter.empty : Gen) (Emitter.empty : Layout) := ⟨rfl, ⟨rfl, rfl, rfl⟩, rfl⟩
  have hlayout : emit img (Emitter.empty : Layout) (headerFields img flat) =
      .ok (Layout.empty.grow 24) := rfl
  have hrun : Lockstep Blank (emit img (Emitter.empty : Gen) (headerFields img flat))
      (emit img (Emitter.empty : Layout) (headerFields img flat)) :=
    Lockstep.foldlM _ hblank fun w hw _ _ h => h.write (hfields w hw)
  refine hrun.with_eq.mono ?_
  rintro s l ⟨h, -, hl⟩
  obtain rfl := Except.ok.inj (hlayout.symm.trans hl)
  exact h.rel (Nat.le_refl _)

/-- Generator and layout up to `backpatch`. -/
theorem generateCode_lockstep :
    Lockstep (Rel img) (generateCode img order flat : Except String Gen)
      (generateCode img order flat : Except String Layout) := by
  refine headerFields_lockstep.bind fun s₁ l₁ h₁ => ?_
  have hboot : Plain (resumeBlockIndex img flat ++ bootstrap img flat) :=
    Plain.append.mpr ⟨Plain.resumeBlockIndex flat, Plain.bootstrap flat⟩
  refine (h₁.emit_plain hboot).bind fun s₂ l₂ h₂ => ?_
  refine (h₂.emit (wellPlaced_vtables flat)).bind fun s₃ l₃ h₃ => ?_
  refine (h₃.emit_plain (Plain.metadata flat)).bind fun s₄ l₄ h₄ => ?_
  have hmethods := Lockstep.foldlM flat.methods h₄ fun m _ _ _ h => Rel.method h m
  refine hmethods.bind fun s₅ l₅ h₅ => ?_
  refine (h₅.emit_plain (Plain.tests flat)).bind fun s₆ l₆ h₆ => ?_
  have hpool : Emitter.pool s₆ = Emitter.pool l₆ := h₆.pool
  rw [hpool]
  exact h₆.emit (wellPlaced_constTables (h₆.closed.of_perm (order.perm _)))

/-! ### Backpatching -/

/-- An object without a block index stops the generator. -/
theorem backpatchAll_of_zero {cells : List (ℕ × Addr)} {c : ℕ × Addr} (hc : c ∈ cells)
    (hzero : s.blockIndex c.2 = 0) : ∃ e, s.backpatchAll img cells = .error e := by
  induction cells generalizing s with
  | nil => cases hc
  | cons d cells ih =>
    obtain ⟨off, a⟩ := d
    rcases eq_or_ne (s.blockIndex a) 0 with ha | ha
    · exact ⟨_, by rw [Gen.backpatchAll, if_pos ha]; rfl⟩
    · have hc := (List.mem_cons.mp hc).resolve_left fun heq => ha (by rw [heq] at hzero; exact hzero)
      rw [Gen.backpatchAll, if_neg ha]
      unfold Gen.u2At
      split
      · exact ⟨_, rfl⟩
      · exact ih hc hzero

/-- What is written over when all objects of the list have a block index. -/
structure Patched (img : SCodeImage) (s : Gen) (cells : List (ℕ × Addr)) (code : List Byte) :
    Prop where
  length : code.length = s.code.length
  frame {off : ℕ} (h : ∀ c ∈ cells, off + 2 ≤ c.1 ∨ c.1 + 2 ≤ off) :
    u2At img.bigEndian code off = u2At img.bigEndian s.code off
  value (hspaced : cells.Pairwise fun c d => d.1 + 2 ≤ c.1)
    (hbound : ∀ c ∈ cells, c.1 + 2 ≤ s.code.length) {c : ℕ × Addr} (hc : c ∈ cells) :
    u2At img.bigEndian code c.1 = s.blockIndex c.2 % 65536

theorem backpatchAll_of_ne_zero {cells : List (ℕ × Addr)}
    (hne : ∀ c ∈ cells, s.blockIndex c.2 ≠ 0)
    (halign : ∀ c ∈ cells, c.2.alignBlockIndex → c.1 % 2 = 0) :
    ∃ code, s.backpatchAll img cells = .ok { s with code } ∧ Patched img s cells code := by
  induction cells generalizing s with
  | nil => exact ⟨s.code, rfl, rfl, fun _ => rfl, fun _ _ _ hc => absurd hc List.not_mem_nil⟩
  | cons d cells ih =>
    obtain ⟨off, a⟩ := d
    obtain ⟨ha, hne⟩ := List.forall_mem_cons.mp hne
    obtain ⟨hoff, halign⟩ := List.forall_mem_cons.mp halign
    have hcheck : ¬(a.alignBlockIndex && off % 2 ≠ 0) := by
      simpa using hoff
    let code₁ := overwrite s.code off (u2Bytes img.bigEndian (BitVec.ofNat 32 (s.blockIndex a)))
    have hlength : code₁.length = s.code.length := length_overwrite ..
    obtain ⟨code, hrun, hcode⟩ := ih (s := { s with code := code₁ }) hne halign
    refine ⟨code, ?_, ?_, ?_, ?_⟩
    · rw [Gen.backpatchAll, if_neg ha]
      simp only [Gen.u2At, if_neg hcheck]
      exact hrun
    · exact hcode.length.trans hlength
    · intro off' hoff'
      obtain ⟨hd, hcells⟩ := List.forall_mem_cons.mp hoff'
      refine (hcode.frame hcells).trans (u2At_overwrite_of_disjoint ?_)
      rwa [length_u2Bytes]
    · intro hspaced hbound c hc
      obtain ⟨hd, hspaced⟩ := List.pairwise_cons.mp hspaced
      obtain ⟨hbd, hbound⟩ := List.forall_mem_cons.mp hbound
      rcases List.mem_cons.mp hc with rfl | hc
      · rw [hcode.frame fun c hc => .inr (hd c hc), u2At_overwrite_u2Bytes hbd,
          Holds.ofNat_toNat]
      · exact hcode.value hspaced (fun c hc => hlength ▸ hbound c hc) hc

/-- The end of the generator: every cell holds the index of its object, modulo 2¹⁶. -/
structure Final (img : SCodeImage) (code : List Byte) (l : Layout) : Prop where
  length : code.length = l.size
  bounds {c : ℕ × Target} (h : c ∈ l.refs) : 16 ≤ c.1
  refs {c : ℕ × Target} (h : c ∈ l.refs) : ∃ o, l.resolve c.2 = some o ∧ Holds img code c.1 o

theorem mem_patches {cells : List (ℕ × Target)} {off : ℕ} {a : Addr} :
    (off, a) ∈ patches cells ↔ (off, .obj a) ∈ cells := by
  simp only [patches, List.mem_filterMap]
  constructor
  · rintro ⟨⟨off', t⟩, hc, heq⟩
    cases t with
    | obj b =>
      obtain ⟨rfl, rfl⟩ := Prod.mk.inj (Option.some.inj heq)
      exact hc
    | _ => cases heq
  · exact fun hc => ⟨_, hc, rfl⟩

/-- Different cells do not overlap. -/
theorem Rel.disjoint (h : Rel img s l) {c d : ℕ × Target} (hc : c ∈ l.cells) (hd : d ∈ l.cells)
    (hne : c ≠ d) : c.1 + 2 ≤ d.1 ∨ d.1 + 2 ≤ c.1 := by
  have : Std.Symm fun c d : ℕ × Target => c.1 + 2 ≤ d.1 ∨ d.1 + 2 ≤ c.1 := ⟨fun _ _ => Or.symm⟩
  have hspaced : l.cells.Pairwise fun c d => c.1 + 2 ≤ d.1 ∨ d.1 + 2 ≤ c.1 :=
    h.spaced.imp Or.inr
  exact hspaced.forall hc hd hne

theorem Rel.spaced_patches (h : Rel img s l) :
    (patches l.cells).Pairwise fun c d => d.1 + 2 ≤ c.1 := by
  refine List.Pairwise.filterMap _ (fun c d hcd c' hc' d' hd' => ?_) h.spaced
  obtain ⟨off, t⟩ := c
  obtain ⟨off', t'⟩ := d
  cases t <;> cases t' <;> simp only [reduceCtorEq, Option.some.injEq] at hc' hd'
  subst hc' hd'
  exact hcd

/-- After `backpatch`, every cell holds the index of its object. -/
theorem Rel.final (h : Rel img s l) {code : List Byte}
    (hplaced : ∀ off a, (off, .obj a) ∈ l.cells → (l.start a).isSome)
    (hcode : Patched img s s.backpatch code) : Final img code l where
  length := hcode.length.trans h.size
  bounds {c} hc := by
    rcases List.mem_append.mp hc with hc | hc
    · obtain ⟨cell, -, heq⟩ := List.mem_filterMap.mp hc
      obtain ⟨o, -, rfl⟩ := Option.map_eq_some_iff.mp heq
      exact cell.off_bounds.1
    · exact Nat.le_trans (by decide) (h.bounds hc).1
  refs {c} hc := by
    rcases List.mem_append.mp hc with hc | hc
    · obtain ⟨cell, -, heq⟩ := List.mem_filterMap.mp hc
      obtain ⟨o, ho, rfl⟩ := Option.map_eq_some_iff.mp heq
      have hholds := h.header ho
      refine ⟨o, rfl, hholds.dvd, hholds.pos, (hcode.frame fun d hd => .inl ?_).trans hholds.value⟩
      obtain ⟨off, a⟩ := d
      exact Nat.le_trans cell.off_bounds.2.1 (h.bounds (mem_patches.mp (h.backpatch ▸ hd))).1
    · obtain ⟨off, t⟩ := c
      cases t with
      | obj a =>
        obtain ⟨o, ho⟩ := Option.isSome_iff_exists.mp (hplaced off a hc)
        obtain ⟨hdvd, hpos, hix⟩ := h.placed ho
        refine ⟨o, ho, hdvd, hpos, ?_⟩
        have hmem : (off, a) ∈ s.backpatch := by rw [h.backpatch]; exact mem_patches.mpr hc
        have hbound : ∀ c ∈ s.backpatch, c.1 + 2 ≤ s.code.length := by
          rintro ⟨off', b⟩ hb
          rw [h.backpatch] at hb
          exact h.size ▸ (h.bounds (mem_patches.mp hb)).2
        have hvalue := hcode.value (h.backpatch ▸ h.spaced_patches) hbound hmem
        rw [hvalue, hix]
      | «at» o =>
        have hholds := h.known hc
        refine ⟨o, rfl, hholds.dvd, hholds.pos, (hcode.frame ?_).trans hholds.value⟩
        rintro ⟨off', a⟩ ha
        exact h.disjoint hc (mem_patches.mp (h.backpatch ▸ ha)) (by simp)
      | unplaced => exact absurd hc h.noUnplaced

/-- The size of the image is written at last. -/
theorem Final.writeSize {code : List Byte} (h : Final img code l) (v : JInt) :
    Final img (overwrite code 8 (Gen.i4Bytes img v)) l where
  length := (length_overwrite ..).trans h.length
  bounds := h.bounds
  refs {c} hc := by
    obtain ⟨o, ho, hholds⟩ := h.refs hc
    have := h.bounds hc
    refine ⟨o, ho, hholds.overwrite (.inr ?_)⟩
    rw [Rel.length_i4Bytes]
    omega

/-- The generator and the layout run in lockstep. -/
theorem generate_lockstep :
    Lockstep (Final img) (generate img order flat) (layout img order flat) := by
  refine generateCode_lockstep.bind fun s l h => ?_
  unfold Layout.finish
  split
  · next hall =>
    have hplaced : ∀ off a, (off, .obj a) ∈ l.cells → (l.start a).isSome := fun off a hc =>
      List.all_eq_true.mp hall _ hc
    have hne : ∀ c ∈ s.backpatch, s.blockIndex c.2 ≠ 0 := by
      rintro ⟨off, a⟩ hc
      rw [h.backpatch] at hc
      have := hplaced off a (mem_patches.mp hc)
      rw [Ne, h.blockIndex_eq_zero]
      exact Option.isSome_iff_ne_none.mp this
    have halign : ∀ c ∈ s.backpatch, c.2.alignBlockIndex → c.1 % 2 = 0 := by
      rintro ⟨off, a⟩ hc
      rw [h.backpatch] at hc
      exact h.aligned (mem_patches.mp hc)
    obtain ⟨code, hrun, hcode⟩ := backpatchAll_of_ne_zero hne halign
    rw [hrun]
    exact .ok ((h.final hplaced hcode).writeSize _)
  · next hall =>
    obtain ⟨⟨off, t⟩, hc, hmissing⟩ := by
      simpa only [List.all_eq_true, not_forall, exists_prop] using hall
    cases t with
    | obj a =>
      have hzero : s.blockIndex a = 0 := by
        rw [h.blockIndex_eq_zero]
        simpa using hmissing
      have hmem : (off, a) ∈ s.backpatch := by rw [h.backpatch]; exact mem_patches.mpr hc
      obtain ⟨e, he⟩ := backpatchAll_of_zero hmem hzero
      rw [he]
      exact .error _ _
    | _ => exact absurd rfl hmissing

/-! ### When the cells resolve -/

/-- Either the generator fails, or each cell with a block index, times four, is the offset of the
object that it refers to. -/
def BlockIndicesResolve (img : SCodeImage) (order : PoolOrder) (flat : IrFlat) : Prop :=
  ∀ code, generate img order flat = .ok code →
    ∃ l, layout img order flat = .ok l ∧
      ∀ c ∈ l.refs, ∃ o, l.resolve c.2 = some o ∧ 4 * u2At img.bigEndian code c.1 = o

/-- Blocks have four bytes, and the objects that cells refer to start in the first 2¹⁶ blocks of
the layout. -/
def StartsInRange (img : SCodeImage) (order : PoolOrder) (flat : IrFlat) : Prop :=
  ∀ l, layout img order flat = .ok l →
    ∀ c ∈ l.refs, ∀ o, l.resolve c.2 = some o → img.blockSize = 4 ∧ o < 0x40000

/-- A block index of 16 bits, times four, is the offset of no block beyond the range, and of none
of another size. -/
theorem four_mul_mod {bs k : ℕ} (hbs : 0 < bs) (hk : 0 < k) :
    4 * (k % 65536) = bs * k ↔ bs = 4 ∧ bs * k < 0x40000 := by
  rcases Nat.lt_or_ge bs 5 with h | h
  · interval_cases bs <;> omega
  · have hle : 5 * k ≤ bs * k := Nat.mul_le_mul_right k h
    omega

/-- A cell resolves if and only if blocks have four bytes and the object is in range. -/
theorem Holds.resolves_iff {code : List Byte} {off o : ℕ} (h : Holds img code off o) :
    4 * u2At img.bigEndian code off = o ↔ img.blockSize = 4 ∧ o < 0x40000 := by
  obtain ⟨k, rfl⟩ := h.dvd
  have hpos := h.pos
  have hmul : 0 < img.blockSize * k := by omega
  have hbs := Nat.pos_of_mul_pos_right hmul
  have hk := Nat.pos_of_mul_pos_left hmul
  rw [h.value, Nat.mul_div_cancel_left k hbs]
  exact four_mul_mod hbs hk

theorem StartsInRange.of_resolve (h : BlockIndicesResolve img order flat) :
    StartsInRange img order flat := by
  intro l hl c hc o ho
  obtain ⟨code, hcode, hfinal⟩ := generate_lockstep.ok_right hl
  obtain ⟨l', hl', hresolve⟩ := h code hcode
  obtain rfl := Except.ok.inj (hl.symm.trans hl')
  obtain ⟨o₁, ho₁, hholds⟩ := hfinal.refs hc
  obtain ⟨o₂, ho₂, heq⟩ := hresolve c hc
  obtain rfl := Option.some.inj (ho.symm.trans ho₁)
  obtain rfl := Option.some.inj (ho.symm.trans ho₂)
  exact hholds.resolves_iff.mp heq

theorem StartsInRange.resolve (h : StartsInRange img order flat) :
    BlockIndicesResolve img order flat := by
  intro code hcode
  obtain ⟨l, hl, hfinal⟩ := generate_lockstep.ok_left hcode
  refine ⟨l, hl, fun c hc => ?_⟩
  obtain ⟨o, ho, hholds⟩ := hfinal.refs hc
  exact ⟨o, ho, hholds.resolves_iff.mpr (h l hl c hc o ho)⟩

/-- The cells of an image resolve if and only if blocks have four bytes and all objects start in
the first 2¹⁶ blocks. -/
theorem blockIndicesResolve_iff (img : SCodeImage) (order : PoolOrder) (flat : IrFlat) :
    BlockIndicesResolve img order flat ↔ StartsInRange img order flat :=
  ⟨StartsInRange.of_resolve, StartsInRange.resolve⟩

/-! ### A program that is too large -/

/-- An image for a device with little-endian byte order. -/
def littleImage : SCodeImage where
  bigEndian := false
  blockSize := 4
  refSize := 4#32
  armDouble := false
  main := "sys::Sys.main"
  resume := "sys::Sys.resume"
  debug := false
  test := false

/-- A static method of `sys::Sys` with the signature of a main method. -/
def entryMethod (name : String) (code : List IrOp) : IrMethod where
  slot := ⟨⟨"sys", "Sys"⟩, name⟩
  params := [.array TypeRef.strType, TypeRef.intType]
  ret := TypeRef.intType
  isStatic := true
  isNative := false
  isAbstract := false
  maxLocals := 0#32
  code := some code

/-- A program that loads buffers of the given sizes, then an array literal, which is laid out
behind them. -/
def bufferProgram (sizes : List ℕ) : IrFlat where
  kits := [{ name := "sys", version := "1.2", checksum := 0#32, types := [] }]
  primitives := []
  reflectiveTypes := []
  virtTypes := []
  reflectiveSlots := []
  logDefines := []
  methods :=
    [entryMethod "main" (sizes.map (fun n => ⟨25, .buf ⟨n, 0⟩⟩) ++
      [⟨238, .array (.ints [1#32])⟩, ⟨227, .noArg⟩]),
     entryMethod "resume" [⟨2, .noArg⟩, ⟨227, .noArg⟩]]
  staticInits := []
  testMethods := []
  dataSize := 0#32

/-- The pool in the order in which it is filled. -/
def insertionOrder : PoolOrder where
  keys := id
  perm := List.Perm.refl

/-- Whether an object that a cell refers to starts behind the range. -/
def Layout.beyondRange (l : Layout) : Bool :=
  l.refs.any fun c => match l.resolve c.2 with
    | some o => 0x40000 ≤ o
    | none => false

theorem exists_of_toOption_any {ε α : Type} {x : Except ε α} {p : α → Bool}
    (h : x.toOption.any p) : ∃ a, x = .ok a ∧ p a := by
  cases x with
  | ok a => exact ⟨a, rfl, h⟩
  | error e => cases h

/-- With five buffers of just under 64 kB the array literal starts behind block 65535. The image
is written, with an index that has lost its upper bits. -/
theorem not_blockIndicesResolve :
    ¬BlockIndicesResolve littleImage insertionOrder
      (bufferProgram [65535, 65534, 65533, 65532, 65531]) := by
  intro h
  have hlayout : ∃ l, layout littleImage insertionOrder
      (bufferProgram [65535, 65534, 65533, 65532, 65531]) = .ok l ∧ l.beyondRange :=
    exists_of_toOption_any (by decide +kernel)
  obtain ⟨l, hl, hbeyond⟩ := hlayout
  obtain ⟨c, hc, hle⟩ := List.any_eq_true.mp hbeyond
  split at hle
  · next o ho =>
    have hlt := (StartsInRange.of_resolve h l hl c hc o ho).2
    exact absurd (of_decide_eq_true hle) (Nat.not_le.mpr hlt)
  · cases hle

end Sedona.ImageGen
