import Mathlib.Data.List.GetD
import Sedona.Pstore.PstoreClaim

/-!
# Isolation of Pstore Files

The reservations of files with the status ok are disjoint. Reads and writes are not checked
against the end of a reservation: those that stay inside touch no other file.

## Main results

* `bytes_of_inside`, `reads_of_inside`: accesses inside a reservation.
* `storage_isolated`: the reservations, and the accesses inside of them.
-/

namespace Sedona.Pstore

variable {ι : Type} [DecidableEq ι] {fs : ι → PstoreFile} {st st' : State ι} {f : File} {i j : ι}
  {io : Io} {a : ℤ}

/-! ### What an operation touches -/

/-- Reads, writes and seeks of a file. -/
def Op.On (i : ι) : Op ι → Prop
  | .claim .. => False
  | .tell k _ | .seek k _ _ | .readBytes k _ _ | .write k _ _ | .writeBytes k _ _ => k = i

/-- The number of bytes that an operation of the owner touches, from the position on. Those that
it leaves in the buffer are touched later. -/
def File.extent (f : File) : Op ι → ℕ
  | .claim .. | .tell .. | .seek .. => f.fbuf.length
  | .readBytes _ len io => min len io.available
  | .write .. => f.fbuf.length + 1
  | .writeBytes _ bs _ => f.fbuf.length + bs.length

/-- The bytes that an operation reads. -/
def State.result (st : State ι) : Op ι → List UInt8
  | .readBytes i len io => if st.owner = some i then (st.file.readBytes io len).2 else []
  | _ => []

/-- What the operations read, one after another. -/
def State.results (fs : ι → PstoreFile) (st : State ι) : List (Op ι) → List (List UInt8)
  | [] => []
  | op :: ops => st.result op :: State.results fs (st.next fs op) ops

/-- All operations are those of the owner `i`, and touch its reservation only. -/
def Inside (fs : ι → PstoreFile) (i : ι) (st : State ι) : List (Op ι) → Prop
  | [] => True
  | op :: ops => op.On i ∧ (fs i).resvOffset.toInt ≤ st.file.pos ∧
      st.file.pos + st.file.extent op ≤ (fs i).resvEnd ∧ Inside fs i (st.next fs op) ops

/-! ### Frames -/

theorem putBytes_of_outside {m : ℤ → UInt8} {off : ℤ} {bs : List UInt8}
    (h : a < off ∨ off + bs.length ≤ a) : putBytes m off bs a = m a := by
  unfold putBytes
  split
  · exact List.getD_eq_default _ _ (by omega)
  · rfl

/-- What a file operation leaves alone: the bytes outside the next `n`. -/
structure File.Touches (f : File) (n : ℕ) (f' : File) : Prop where
  bytes {a : ℤ} (h : a < f.pos ∨ f.pos + n ≤ a) : f'.bytes a = f.bytes a
  pos : f.pos ≤ f'.pos ∧ f'.pos ≤ f.pos + n

namespace File

theorem Touches.refl (f : File) (n : ℕ) : f.Touches n f where
  bytes _ := rfl
  pos := by omega

theorem Touches.trans {f₁ f₂ : File} {n m : ℕ} (h : f.Touches n f₁) (h' : f₁.Touches m f₂) :
    f.Touches (n + m) f₂ where
  bytes ha := by
    have := h.pos
    rw [h'.bytes (by omega), h.bytes (by omega)]
  pos := by
    have := h.pos
    have := h'.pos
    omega

theorem Touches.mono {n m : ℕ} {f' : File} (h : f.Touches n f') (hle : n ≤ m) : f.Touches m f' where
  bytes ha := h.bytes (by omega)
  pos := by
    have := h.pos
    omega

theorem touches_storeWrite (f : File) (fail : Option ℕ) (bs : List UInt8) :
    f.Touches bs.length (f.storeWrite fail bs).1 := by
  have hwrite : ∀ stored : List UInt8, stored.length ≤ bs.length → f.Touches bs.length
      { f with bytes := putBytes f.bytes f.pos stored, pos := f.pos + stored.length } := by
    refine fun stored hle => ⟨fun ha => putBytes_of_outside (by omega), ?_⟩
    dsimp only
    omega
  cases fail with
  | none => exact hwrite bs le_rfl
  | some n => exact hwrite _ (List.length_take_le' n bs)

theorem touches_writeBufToFile (f : File) (io : Io) :
    f.Touches f.fbuf.length (f.writeBufToFile io).1 := by
  have hstore := f.touches_storeWrite io.flush f.fbuf
  have heq : (f.writeBufToFile io).1 = (f.storeWrite io.flush f.fbuf).1 ∨
      (f.writeBufToFile io).1 = { (f.storeWrite io.flush f.fbuf).1 with fbuf := [] } := by
    simp only [writeBufToFile]
    split
    · exact .inr rfl
    · exact .inl rfl
  obtain heq | heq := heq <;> rw [heq]
  · exact hstore
  · exact ⟨hstore.bytes, hstore.pos⟩

theorem touches_flush (f : File) (io : Io) : f.Touches f.fbuf.length (f.flush io) := by
  unfold flush
  split
  · exact f.touches_writeBufToFile io
  · exact .refl ..

theorem touches_write (f : File) (io : Io) (b : UInt8) :
    f.Touches (f.fbuf.length + 1) (f.write io b).1 := by
  have hbuf := (f.touches_writeBufToFile io).mono (Nat.le_succ _)
  simp only [write]
  split_ifs
  · exact ⟨hbuf.bytes, hbuf.pos⟩
  · exact hbuf
  · exact ⟨fun _ => rfl, by dsimp only; omega⟩

theorem touches_writeBytes (f : File) (io : Io) (bs : List UInt8) :
    f.Touches (f.fbuf.length + bs.length) (f.writeBytes io bs).1 := by
  simp only [writeBytes]
  split
  · exact (f.touches_writeBufToFile io).trans (touches_storeWrite ..)
  · exact ((touches_storeWrite ..).mono (Nat.le_add_left ..))

end File

/-- Only the bytes that an operation touches change. -/
theorem State.next_bytes (st : State ι) {op : Op ι} (hon : op.On i)
    (h : a < st.file.pos ∨ st.file.pos + st.file.extent op ≤ a) :
    (st.next fs op).file.bytes a = st.file.bytes a := by
  have hstream : ∀ op : File → File, (op st.file).bytes a = st.file.bytes a →
      (st.stream i op).file.bytes a = st.file.bytes a := by
    intro op hop
    unfold State.stream
    split
    · exact hop
    · rfl
  cases op with
  | claim => exact hon.elim
  | tell k io =>
    simp only [State.next, State.tell]
    split
    · rfl
    · exact (st.file.touches_flush io).bytes h
  | seek k pos io =>
    simp only [State.next, State.seek]
    split
    · rfl
    · have hflush := (st.file.touches_flush io).bytes h
      simp only [File.seek]
      split <;> exact hflush
  | readBytes k len io =>
    obtain rfl : k = i := hon
    exact hstream _ rfl
  | write k b io =>
    obtain rfl : k = i := hon
    exact hstream _ ((st.file.touches_write io b).bytes h)
  | writeBytes k bs io =>
    obtain rfl : k = i := hon
    exact hstream _ ((st.file.touches_writeBytes io bs).bytes h)

/-- Accesses inside a reservation leave all bytes outside of it alone. -/
theorem bytes_of_inside {ops : List (Op ι)} (h : Inside fs i st ops)
    (ha : a < (fs i).resvOffset.toInt ∨ (fs i).resvEnd ≤ a) :
    (ops.foldl (State.next fs) st).file.bytes a = st.file.bytes a := by
  induction ops generalizing st with
  | nil => rfl
  | cons op ops ih =>
    obtain ⟨hon, hlow, hhigh, hrest⟩ := h
    exact (ih hrest).trans (st.next_bytes hon (by omega))

/-! ### Reads -/

/-- The files differ in the bytes outside a range only. -/
structure File.Agree (lo hi : ℤ) (f f' : File) : Prop where
  pos : f.pos = f'.pos
  fbuf : f.fbuf = f'.fbuf
  bytes {a : ℤ} (h : lo ≤ a) (h' : a < hi) : f.bytes a = f'.bytes a

/-- The states differ in the bytes outside a reservation only. -/
structure Agree (p : PstoreFile) (st st' : State ι) : Prop where
  owner : st.owner = st'.owner
  saved : st.saved = st'.saved
  file : st.file.Agree p.resvOffset.toInt p.resvEnd st'.file

namespace File.Agree

variable {lo hi : ℤ} {f f' : File}

theorem storeWrite (h : f.Agree lo hi f') (fail : Option ℕ) (bs : List UInt8) :
    (f.storeWrite fail bs).1.Agree lo hi (f'.storeWrite fail bs).1 where
  pos := by
    simp only [File.storeWrite, h.pos]
  fbuf := h.fbuf
  bytes ha ha' := by
    simp only [File.storeWrite, putBytes, h.pos, h.bytes ha ha']

theorem setBuf (h : f.Agree lo hi f') (buf : List UInt8) :
    { f with fbuf := buf }.Agree lo hi { f' with fbuf := buf } :=
  ⟨h.pos, rfl, h.bytes⟩

theorem writeBufToFile (h : f.Agree lo hi f') (io : Io) :
    (f.writeBufToFile io).1.Agree lo hi (f'.writeBufToFile io).1 ∧
      (f.writeBufToFile io).2 = (f'.writeBufToFile io).2 := by
  have hstore := h.storeWrite io.flush f.fbuf
  simp only [File.writeBufToFile, ← h.fbuf]
  have hok : (f.storeWrite io.flush f.fbuf).2 = (f'.storeWrite io.flush f.fbuf).2 := rfl
  rw [← hok]
  split
  · exact ⟨hstore.setBuf [], rfl⟩
  · exact ⟨hstore, rfl⟩

theorem flush (h : f.Agree lo hi f') (io : Io) : (f.flush io).Agree lo hi (f'.flush io) := by
  simp only [File.flush, ← h.fbuf]
  split
  · exact (h.writeBufToFile io).1
  · exact h

theorem seek (h : f.Agree lo hi f') (io : Io) (pos : ℤ) :
    (f.seek io pos).1.Agree lo hi (f'.seek io pos).1 := by
  have hflush := h.flush io
  simp only [File.seek]
  split
  · exact ⟨rfl, hflush.fbuf, hflush.bytes⟩
  · exact hflush

theorem write (h : f.Agree lo hi f') (io : Io) (b : UInt8) :
    (f.write io b).1.Agree lo hi (f'.write io b).1 := by
  obtain ⟨hbuf, hok⟩ := h.writeBufToFile io
  simp only [File.write, ← h.fbuf, ← hok, ← hbuf.fbuf]
  split_ifs
  · exact hbuf.setBuf _
  · exact hbuf
  · exact h.setBuf _

theorem writeBytes (h : f.Agree lo hi f') (io : Io) (bs : List UInt8) :
    (f.writeBytes io bs).1.Agree lo hi (f'.writeBytes io bs).1 := by
  simp only [File.writeBytes, ← h.fbuf]
  split
  · exact (h.writeBufToFile io).1.storeWrite ..
  · exact h.storeWrite ..

/-- What is read inside the range is the same. -/
theorem readBytes (h : f.Agree lo hi f') (io : Io) (len : ℕ) (hlow : lo ≤ f.pos)
    (hhigh : f.pos + (min len io.available : ℕ) ≤ hi) :
    (f.readBytes io len).1.Agree lo hi (f'.readBytes io len).1 ∧
      (f.readBytes io len).2 = (f'.readBytes io len).2 := by
  refine ⟨⟨congrArg (· + _) h.pos, h.fbuf, h.bytes⟩, List.map_congr_left fun k hk => ?_⟩
  rw [List.mem_range] at hk
  rw [← h.pos]
  exact h.bytes (by omega) (by omega)

end File.Agree

namespace Agree

theorem stream (h : Agree (fs i) st st') (op : File → File)
    (hop : (op st.file).Agree (fs i).resvOffset.toInt (fs i).resvEnd (op st'.file)) :
    Agree (fs i) (st.stream i op) (st'.stream i op) := by
  unfold State.stream
  rw [← h.owner]
  split
  · exact ⟨rfl, h.saved, hop⟩
  · exact h

/-- An operation inside the reservation reads the same, and the states agree after it. -/
theorem next (h : Agree (fs i) st st') {op : Op ι} (hon : op.On i)
    (hlow : (fs i).resvOffset.toInt ≤ st.file.pos)
    (hhigh : st.file.pos + st.file.extent op ≤ (fs i).resvEnd) :
    Agree (fs i) (st.next fs op) (st'.next fs op) ∧ st.result op = st'.result op := by
  cases op with
  | claim => exact hon.elim
  | tell k io =>
    obtain rfl : k = i := hon
    refine ⟨?_, rfl⟩
    simp only [State.next, State.tell, ← h.owner]
    split
    · exact h
    · exact ⟨rfl, h.saved, h.file.flush io⟩
  | seek k pos io =>
    obtain rfl : k = i := hon
    refine ⟨?_, rfl⟩
    simp only [State.next, State.seek, ← h.owner]
    split
    · exact h
    · exact ⟨rfl, h.saved, h.file.seek io _⟩
  | readBytes k len io =>
    obtain rfl : k = i := hon
    have hread := h.file.readBytes io len hlow hhigh
    refine ⟨h.stream (fun f => (f.readBytes io len).1) hread.1, ?_⟩
    simp only [State.result, ← h.owner, hread.2]
  | write k b io =>
    obtain rfl : k = i := hon
    exact ⟨h.stream (fun f => (f.write io b).1) (h.file.write io b), rfl⟩
  | writeBytes k bs io =>
    obtain rfl : k = i := hon
    exact ⟨h.stream (fun f => (f.writeBytes io bs).1) (h.file.writeBytes io bs), rfl⟩

end Agree

/-- Accesses inside a reservation read nothing of the bytes outside of it. -/
theorem reads_of_inside {ops : List (Op ι)} (h : Inside fs i st ops)
    (hagree : Agree (fs i) st st') : st.results fs ops = st'.results fs ops := by
  induction ops generalizing st st' with
  | nil => rfl
  | cons op ops ih =>
    obtain ⟨hon, hlow, hhigh, hrest⟩ := h
    obtain ⟨hnext, hresult⟩ := hagree.next hon hlow hhigh
    simp only [State.results, hresult, ih hrest hnext]

/-! ### Isolation -/

/-- What isolates the reservations of the files from each other. -/
structure Isolated (s : Service) (fs : ι → PstoreFile) : Prop where
  within (i : ι) : 0 ≤ (fs i).resvOffset.toInt ∧ (fs i).resvEnd ≤ s.size.toInt
  disjoint {i j : ι} (h : i ≠ j) :
    (fs i).resvEnd ≤ (fs j).resvOffset.toInt ∨ (fs j).resvEnd ≤ (fs i).resvOffset.toInt
  bytes {i j : ι} (h : i ≠ j) {st : State ι} {ops : List (Op ι)} (hops : Inside fs i st ops)
    {a : ℤ} (ha : (fs j).resvOffset.toInt ≤ a ∧ a < (fs j).resvEnd) :
    (ops.foldl (State.next fs) st).file.bytes a = st.file.bytes a
  reads {i : ι} {st st' : State ι} {ops : List (Op ι)} (hops : Inside fs i st ops)
    (h : Agree (fs i) st st') : st.results fs ops = st'.results fs ops

/-- Files with the status ok are isolated, if the ends of their reservations are `int`s. -/
theorem storage_isolated {s : Service} (hok : ∀ i, s.validateAll.Ok (fs i))
    (hids : ∀ i j, i ≠ j → (fs i).id ≠ (fs j).id) (hfits : ∀ i, (fs i).EndFits) :
    Isolated s.validateAll fs := by
  have hdisjoint : ∀ i j, i ≠ j → (fs i).resvEnd ≤ (fs j).resvOffset.toInt ∨
      (fs j).resvEnd ≤ (fs i).resvOffset.toInt := fun i j hne =>
    disjoint_of_ok (hok i) (hok j) (hids i j hne) (hfits i) (hfits j)
  constructor
  · exact fun i => within_of_ok (hok i) (hfits i)
  · exact fun hne => hdisjoint _ _ hne
  · intro i j hne st ops hops a ha
    refine bytes_of_inside hops ?_
    have := hdisjoint i j hne
    omega
  · exact fun hops h => reads_of_inside hops h

namespace TwoFiles

theorem isolated_files : Isolated service.validateAll files :=
  storage_isolated ok (by decide) (by decide)

/-- The first file is claimed. -/
def claimed : State Bool := (opened.next files (.claim false {} {})).state

/-- Five bytes written to the first file change the first byte of the second one. -/
theorem not_isolated : ¬∀ (s : Service) (fs : Bool → PstoreFile),
    (∀ i, s.validateAll.Ok (fs i)) → (∀ i j, i ≠ j → (fs i).id ≠ (fs j).id) →
    ∀ (i j : Bool) (st : State Bool) (ops : List (Op Bool)), i ≠ j → st.owner = some i →
      st.file.pos = (fs i).resvOffset.toInt → st.file.fbuf = [] → (∀ op ∈ ops, op.On i) →
      ∀ a, (fs j).resvOffset.toInt ≤ a ∧ a < (fs j).resvEnd →
        (ops.foldl (State.next fs) st).file.bytes a = st.file.bytes a := by
  intro h
  have hbytes := h service files ok (by decide) false true claimed
    [.writeBytes false [1, 2, 3, 4, 5] {}] (by decide) (by decide) (by decide) (by decide)
    (by simp [Op.On]) 4 (by decide)
  revert hbytes
  decide +kernel

end TwoFiles

end Sedona.Pstore
