import Sedona.Sys.AppSaveStream

/-!
# Bytes and Blocks into a Buffer

`BufOutStream` has two ways to append to a `Buf`: `write` puts one byte and `writeBytes` a block.
The two compare the size with the capacity in different ways. Here the fields of `Buf` have their
own widths, so that the sums are those of the machine.

## Main results

* `writeEach_spec`: what is left of a buffer when bytes are written one at a time.
* `writeBytes_same_iff`: the blocks for which `writeBytes` does what `write` does byte by byte.
* `offer_byte`, `offer_block`: the stream of `saveApp` is this one.
-/

namespace Sedona

/-- The fields of a `Buf`: `bytesLen` and `size` are shorts, and the constructor makes `bytes` at
least `bytesLen` long. -/
structure BufFields where
  bytes : List (BitVec 8)
  bytesLen : BitVec 16
  size : BitVec 16
  bytesLen_le : bytesLen.toNat ≤ bytes.length
deriving DecidableEq

/-- The bytes `b[off] .. b[off+len-1]` of an array that is not the one of the buffer. -/
structure ByteBlock where
  b : List (BitVec 8)
  off : ℕ
  len : ℕ
  end_le : off + len ≤ b.length
  length_lt : b.length < 0x80000000

namespace ByteBlock

/-- The bytes of a block. -/
def content (p : ByteBlock) : List (BitVec 8) := (p.b.drop p.off).take p.len

theorem length_content (p : ByteBlock) : p.content.length = p.len := by
  have := p.end_le
  simp only [content, List.length_take, List.length_drop]
  omega

theorem getElem?_content (p : ByteBlock) {i : ℕ} (hi : i < p.len) :
    p.content[i]? = p.b[p.off + i]? := by
  rw [content, List.getElem?_take, if_pos hi, List.getElem?_drop]

end ByteBlock

/-- `Sys.copy`. Bytes that would come to lie behind `dest` are not part of it. -/
def copy (src : List (BitVec 8)) (srcOff : ℕ) (dest : List (BitVec 8)) (destOff num : ℕ) :
    List (BitVec 8) :=
  dest.mapIdx fun i x =>
    if destOff ≤ i ∧ i < destOff + num then src.getD (srcOff + (i - destOff)) x else x

@[simp] theorem length_copy (src dest : List (BitVec 8)) (srcOff destOff num : ℕ) :
    (copy src srcOff dest destOff num).length = dest.length := by
  simp [copy]

namespace BufFields

/-- `Buf.<init>`. -/
def new (maxBufLen : BitVec 31) : BufFields where
  bytes := List.replicate maxBufLen.toNat 0
  bytesLen := maxBufLen.setWidth 16
  size := 0
  bytesLen_le := by simpa using Nat.mod_le _ _

/-- `BufOutStream.write`. -/
def write (x : BitVec 32) (buf : BufFields) : Bool × BufFields :=
  if buf.bytesLen.toNat ≤ buf.size.toNat then (false, buf)
  else (true,
    { buf with
      bytes := buf.bytes.set buf.size.toNat (x.setWidth 8)
      size := buf.size + 1
      bytesLen_le := by simpa using buf.bytesLen_le })

/-- `BufOutStream.writeBytes`: the sum of `size` and `len` is an `int`, and `size` keeps its lower
half. -/
def writeBytes (p : ByteBlock) (buf : BufFields) : Bool × BufFields :=
  let newSize : BitVec 32 := buf.size.setWidth 32 + BitVec.ofNat 32 p.len
  if (buf.bytesLen.setWidth 32).sle newSize then (false, buf)
  else (true,
    { buf with
      bytes := copy p.b p.off buf.bytes buf.size.toNat p.len
      size := newSize.setWidth 16
      bytesLen_le := by simpa using buf.bytesLen_le })

/-- `write` for one byte after the other, until it fails. -/
def writeEach : List (BitVec 8) → BufFields → Bool × BufFields
  | [], buf => (true, buf)
  | x :: xs, buf =>
      let r := buf.write (x.setWidth 32)
      if r.1 then writeEach xs r.2 else (false, r.2)

/-! ### One byte after the other -/

variable {buf : BufFields} {p : ByteBlock}

theorem write_full (h : buf.bytesLen.toNat ≤ buf.size.toNat) (x : BitVec 32) :
    buf.write x = (false, buf) :=
  if_pos h

theorem write_fits (h : buf.size.toNat < buf.bytesLen.toNat) (x : BitVec 32) :
    (buf.write x).1 = true ∧ (buf.write x).2.bytesLen = buf.bytesLen ∧
      (buf.write x).2.size.toNat = buf.size.toNat + 1 ∧
      (buf.write x).2.bytes = buf.bytes.set buf.size.toNat (x.setWidth 8) := by
  rw [write, if_neg (Nat.not_le.mpr h)]
  refine ⟨rfl, rfl, ?_, rfl⟩
  have := buf.bytesLen.isLt
  rw [BitVec.toNat_add]
  exact Nat.mod_eq_of_lt (by change buf.size.toNat + 1 < _; omega)

/-- What is written one at a time fills the buffer from `size` on, and stops where it is full. -/
theorem writeEach_spec (xs : List (BitVec 8)) (buf : BufFields) :
    ((writeEach xs buf).1 = true ↔ buf.size.toNat + xs.length ≤ buf.bytesLen.toNat ∨ xs = []) ∧
      (writeEach xs buf).2.bytesLen = buf.bytesLen ∧
      (writeEach xs buf).2.size.toNat =
        buf.size.toNat + min xs.length (buf.bytesLen.toNat - buf.size.toNat) ∧
      ∀ i, (writeEach xs buf).2.bytes[i]? =
        if buf.size.toNat ≤ i ∧ i < buf.size.toNat + xs.length ∧ i < buf.bytesLen.toNat
        then xs[i - buf.size.toNat]? else buf.bytes[i]? := by
  induction xs generalizing buf with
  | nil => exact ⟨by simp [writeEach], rfl, by simp [writeEach], fun i => by
      rw [if_neg (by simp only [List.length_nil]; omega)]; rfl⟩
  | cons x xs ih =>
      rcases Nat.lt_or_ge buf.size.toNat buf.bytesLen.toNat with hlt | hge
      · obtain ⟨hok, hcap, hsize, hbytes⟩ := write_fits hlt (x.setWidth 32)
        obtain ⟨ihok, ihcap, ihsize, ihbytes⟩ := ih (buf.write (x.setWidth 32)).2
        rw [hcap, hsize] at ihok ihsize ihbytes
        rw [writeEach, if_pos hok, List.length_cons]
        refine ⟨ihok.trans ?_, ihcap.trans hcap, ihsize.trans (by omega), fun i => ?_⟩
        · constructor
          · rintro (h | rfl)
            · exact .inl (by omega)
            · exact .inl hlt
          · rintro (h | h)
            · exact .inl (by omega)
            · exact absurd h (List.cons_ne_nil _ _)
        · rw [ihbytes, hbytes]
          rcases Nat.lt_trichotomy i buf.size.toNat with hi | rfl | hi
          · rw [if_neg (by omega), if_neg (by omega), List.getElem?_set_ne (by omega)]
          · have hin : buf.size.toNat < buf.bytes.length := hlt.trans_le buf.bytesLen_le
            rw [if_neg (by omega), if_pos (by omega), List.getElem?_set_self hin, Nat.sub_self,
              List.getElem?_cons_zero, BitVec.setWidth_setWidth_of_le _ (by decide),
              BitVec.setWidth_eq]
          · obtain ⟨j, rfl⟩ : ∃ j, i = buf.size.toNat + 1 + j := ⟨i - (buf.size.toNat + 1), by omega⟩
            rw [List.getElem?_set_ne (by omega), show buf.size.toNat + 1 + j - buf.size.toNat = j + 1
              by omega, Nat.add_sub_cancel_left, List.getElem?_cons_succ]
            refine if_congr ?_ rfl rfl
            omega
      · rw [writeEach, write_full hge]
        refine ⟨iff_of_false (fun h => Bool.noConfusion h) ?_, rfl, ?_, fun i => ?_⟩
        · rintro (h | h)
          · rw [List.length_cons] at h
            omega
          · exact List.cons_ne_nil _ _ h
        · rw [Nat.sub_eq_zero_of_le hge, Nat.min_zero]
          rfl
        · change buf.bytes[i]? = _
          rw [if_neg (by omega)]

/-! ### The block -/

/-- The sum of a size and a length, as an `int`, against the capacity. -/
theorem sle_newSize (buf : BufFields) (p : ByteBlock) :
    (buf.bytesLen.setWidth 32).sle (buf.size.setWidth 32 + BitVec.ofNat 32 p.len) = true ↔
      buf.bytesLen.toNat ≤ buf.size.toNat + p.len ∧ buf.size.toNat + p.len < 0x80000000 := by
  have h₁ := buf.bytesLen.isLt
  have h₂ := buf.size.isLt
  have h₃ := p.end_le
  have h₄ := p.length_lt
  rw [BitVec.sle, decide_eq_true_iff, BitVec.toInt_eq_toNat_bmod, BitVec.toInt_eq_toNat_bmod]
  simp only [BitVec.toNat_setWidth, BitVec.toNat_add, BitVec.toNat_ofNat, Int.bmod_def]
  omega

theorem writeBytes_refused (h : buf.bytesLen.toNat ≤ buf.size.toNat + p.len)
    (hlt : buf.size.toNat + p.len < 0x80000000) : buf.writeBytes p = (false, buf) :=
  if_pos ((sle_newSize buf p).mpr ⟨h, hlt⟩)

theorem writeBytes_taken (h : buf.size.toNat + p.len < buf.bytesLen.toNat) :
    (buf.writeBytes p).1 = true ∧ (buf.writeBytes p).2.bytesLen = buf.bytesLen ∧
      (buf.writeBytes p).2.size.toNat = buf.size.toNat + p.len ∧
      (buf.writeBytes p).2.bytes = copy p.b p.off buf.bytes buf.size.toNat p.len := by
  have h₁ := buf.bytesLen.isLt
  rw [writeBytes, if_neg (mt (sle_newSize buf p).mp (by omega))]
  refine ⟨rfl, rfl, ?_, rfl⟩
  simp only [BitVec.toNat_setWidth, BitVec.toNat_add, BitVec.toNat_ofNat]
  omega

/-- The sum wraps: the block is taken although it cannot fit. -/
theorem writeBytes_wraps (h : 0x80000000 ≤ buf.size.toNat + p.len) : (buf.writeBytes p).1 = true := by
  rw [writeBytes, if_neg (mt (sle_newSize buf p).mp (by omega))]

theorem getElem?_copy {src dest : List (BitVec 8)} {srcOff destOff num : ℕ}
    (hsrc : srcOff + num ≤ src.length) (hdest : destOff + num ≤ dest.length) (i : ℕ) :
    (copy src srcOff dest destOff num)[i]? =
      if destOff ≤ i ∧ i < destOff + num then src[srcOff + (i - destOff)]? else dest[i]? := by
  rw [copy, List.getElem?_mapIdx]
  split
  · rename_i hi
    rw [List.getElem?_eq_getElem (show i < dest.length by omega), Option.map_some,
      List.getD_eq_getElem?_getD, List.getElem?_eq_getElem (by omega), Option.getD_some]
  · cases dest[i]? with
    | none => rfl
    | some x => rfl

theorem eq_of_fields {b₁ b₂ : BufFields} (hbytes : b₁.bytes = b₂.bytes)
    (hlen : b₁.bytesLen = b₂.bytesLen) (hsize : b₁.size.toNat = b₂.size.toNat) : b₁ = b₂ := by
  cases b₁
  cases b₂
  obtain rfl := hbytes
  obtain rfl := hlen
  obtain rfl := BitVec.eq_of_toNat_eq hsize
  rfl

/-- A block that leaves room behind it is written like its bytes. -/
theorem writeBytes_eq_writeEach (h : buf.size.toNat + p.len < buf.bytesLen.toNat) :
    buf.writeBytes p = buf.writeEach p.content := by
  obtain ⟨hok, hcap, hsize, hbytes⟩ := writeBytes_taken h
  obtain ⟨eok, ecap, esize, ebytes⟩ := writeEach_spec p.content buf
  rw [p.length_content] at eok esize ebytes
  have hle := buf.bytesLen_le
  refine Prod.ext (hok.trans (eok.mpr (.inl h.le)).symm) (eq_of_fields ?_ (hcap.trans ecap.symm)
    (hsize.trans (by omega)))
  refine List.ext_getElem? fun i => ?_
  rw [hbytes, ebytes, getElem?_copy p.end_le (by omega)]
  by_cases hi : buf.size.toNat ≤ i ∧ i < buf.size.toNat + p.len
  · rw [if_pos hi, if_pos (by omega), p.getElem?_content (by omega)]
  · rw [if_neg hi, if_neg (by omega)]

/-! ### The two compared -/

/-- The block is written as its bytes are: the same success, the same contents and size. -/
def SameWrite (p : ByteBlock) (buf : BufFields) : Prop :=
  buf.writeBytes p = buf.writeEach p.content

/-- The block is taken if and only if all its bytes are. -/
def SameFit (p : ByteBlock) (buf : BufFields) : Prop :=
  (buf.writeBytes p).1 = (buf.writeEach p.content).1

/-- When a block is written as its bytes are, and when it at least fits as they do. A block that
fills the buffer to its end is refused, and so is an empty block by a full buffer; a block that is
too long leaves the buffer as it is, where its bytes fill it first; a length that makes the sum wrap
is taken. -/
theorem writeBytes_same_iff (p : ByteBlock) (buf : BufFields) :
    (SameWrite p buf ↔
      buf.size.toNat + p.len < buf.bytesLen.toNat ∨
        buf.bytesLen.toNat ≤ buf.size.toNat ∧ 0 < p.len ∧ buf.size.toNat + p.len < 0x80000000) ∧
    (SameFit p buf ↔
      buf.size.toNat + p.len < buf.bytesLen.toNat ∨
        buf.bytesLen.toNat < buf.size.toNat + p.len ∧ 0 < p.len ∧
          buf.size.toNat + p.len < 0x80000000) := by
  obtain ⟨eok, -, esize, -⟩ := writeEach_spec p.content buf
  have hnil : p.content = [] ↔ p.len = 0 := by
    rw [← List.length_eq_zero_iff, p.length_content]
  rw [p.length_content, hnil] at eok
  rw [p.length_content] at esize
  have h₁ := buf.bytesLen.isLt
  rcases Nat.lt_or_ge (buf.size.toNat + p.len) buf.bytesLen.toNat with hfits | hover
  · have heq := writeBytes_eq_writeEach hfits
    exact ⟨iff_of_true heq (.inl hfits), iff_of_true (congrArg Prod.fst heq) (.inl hfits)⟩
  rcases Nat.lt_or_ge (buf.size.toNat + p.len) (0x80000000) with hint | hwrap
  · have hblock := writeBytes_refused hover hint
    rw [SameWrite, SameFit, hblock]
    constructor
    · constructor
      · intro h
        rw [← h] at eok esize
        have hno := mt eok.mpr Bool.false_ne_true
        have hsame : buf.size.toNat =
            buf.size.toNat + min p.len (buf.bytesLen.toNat - buf.size.toNat) := esize
        exact .inr ⟨by omega, by omega, hint⟩
      · rintro (h | ⟨hfull, hpos, -⟩)
        · omega
        · refine Prod.ext ?_ ?_
          · exact (Bool.eq_false_iff.mpr (mt eok.mp (by omega))).symm
          · cases hc : p.content with
            | nil => exact absurd (hnil.mp hc) (by omega)
            | cons x xs =>
                rw [writeEach, write_full hfull]
                rfl
    · constructor
      · intro h
        rw [← h] at eok
        have hno := mt eok.mpr Bool.false_ne_true
        exact .inr ⟨by omega, by omega, hint⟩
      · rintro (h | ⟨hlt, hpos, -⟩)
        · omega
        · exact (Bool.eq_false_iff.mpr (mt eok.mp (by omega))).symm
  · have hblock := writeBytes_wraps hwrap
    have hno : ¬ SameFit p buf := by
      intro h
      have := eok.mp (h.symm.trans hblock)
      omega
    exact ⟨iff_of_false (fun h => hno (congrArg Prod.fst h)) (by omega),
      iff_of_false hno (by omega)⟩

/-- Two bytes fit into an empty buffer for two, but the block of the two does not. -/
theorem not_sameFit : ¬ ∀ p buf, SameFit p buf := by
  intro h
  have hfit : false = true := h ⟨[1, 2], 0, 2, by decide, by decide⟩ (new 2)
  exact Bool.false_ne_true hfit

/-! ### The stream of `saveApp` -/

/-- The fields as the model of `saveApp` has them. -/
def toBuf (buf : BufFields) : Buf := ⟨buf.bytes, buf.size.toNat⟩

theorem offer_byte (hlen : buf.bytesLen.toNat = buf.bytes.length) (x : BitVec 32) :
    bufOutStream.offer (.byte (x.setWidth 8)) buf.toBuf =
      ((buf.write x).1, (buf.write x).2.toBuf) := by
  have hcap : buf.toBuf.bytesLen = buf.bytesLen.toNat := hlen.symm
  rcases Nat.lt_or_ge buf.size.toNat buf.bytesLen.toNat with hlt | hge
  · obtain ⟨hok, -, hsize, hbytes⟩ := write_fits hlt x
    change (if buf.size.toNat ≥ buf.toBuf.bytesLen then _ else _) = _
    rw [if_neg (by omega), hok]
    exact congrArg (Prod.mk true) (congrArg₂ Buf.mk hbytes.symm hsize.symm)
  · rw [write_full hge]
    exact if_pos (hcap.trans_le hge)

theorem offer_block (hlen : buf.bytesLen.toNat = buf.bytes.length)
    (hint : buf.size.toNat + p.len < 0x80000000) :
    bufOutStream.offer (.block p.content) buf.toBuf =
      ((buf.writeBytes p).1, (buf.writeBytes p).2.toBuf) := by
  have hcap : buf.toBuf.bytesLen = buf.bytesLen.toNat := hlen.symm
  have hp := p.length_content
  rcases Nat.lt_or_ge (buf.size.toNat + p.len) buf.bytesLen.toNat with hlt | hge
  · obtain ⟨hok, -, hsize, hbytes⟩ := writeBytes_taken hlt
    change (if buf.size.toNat + p.content.length ≥ buf.toBuf.bytesLen then _ else _) = _
    rw [if_neg (by omega), hok, hp]
    refine congrArg (Prod.mk true) (congrArg₂ Buf.mk (List.ext_getElem? fun i => ?_) hsize.symm)
    rw [hbytes, getElem?_copy p.end_le (by omega)]
    change (buf.bytes.take buf.size.toNat ++ p.content ++
      buf.bytes.drop (buf.size.toNat + p.len))[i]? = _
    rw [List.append_assoc, List.getElem?_append, List.getElem?_append, List.length_take, hp,
      Nat.min_eq_left (by omega), List.getElem?_take, List.getElem?_drop]
    split
    · rw [if_neg (by omega)]
    · split
      · rw [if_pos (by omega), p.getElem?_content (by omega)]
      · rw [if_neg (by omega)]
        congr 1
        omega
  · rw [writeBytes_refused hge hint]
    exact if_pos (by change buf.toBuf.bytesLen ≤ buf.size.toNat + p.content.length; omega)

end BufFields

end Sedona
