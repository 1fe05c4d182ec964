import Sedona.Compiler.ConstTables

/-!
# Reading the Literals of an Image

What the VM reads at the block index of a literal: words in the byte order of the device, strings up
to the zero byte, buffers by their size, arrays by their elements. Sizes and block indices are
written with two bytes, the elements of an array with those of their type, and no string is checked
for zero bytes.

## Main results

* `readsAt_iff`: when the bytes of a literal are read as its value.
* `literalsFaithful_iff`: all literals of an image are read back if and only if they fit.
-/

namespace Sedona.ImageGen

open ByteCells

variable {img : SCodeImage} {l : List Byte} {pos : ℕ}

/-! ### Words -/

theorem toNat_truncate {w : ℕ} (v : BitVec w) : (v.truncate 8 : Byte).toNat = v.toNat % 256 := by
  rw [BitVec.truncate_eq_setWidth, BitVec.toNat_setWidth]

theorem bytesToNat_i4Bytes (v : JInt) :
    bytesToNat (if img.bigEndian then Gen.i4Bytes img v else (Gen.i4Bytes img v).reverse) =
      v.toNat := by
  have hv := v.isLt
  rw [Gen.i4Bytes]
  split
  all_goals
    simp only [bytesToNat, List.reverse_reverse, List.foldl_cons, List.foldl_nil,
      toNat_truncate, BitVec.toNat_ushiftRight, Nat.shiftRight_eq_div_pow]
    omega

theorem bytesToNat_i8Bytes (v : BitVec 64) :
    bytesToNat (if img.bigEndian then Gen.i8Bytes img v else (Gen.i8Bytes img v).reverse) =
      v.toNat := by
  have hv := v.isLt
  rw [Gen.i8Bytes]
  split
  all_goals
    simp only [bytesToNat, List.reverse_reverse, List.foldl_cons, List.foldl_nil,
      toNat_truncate, BitVec.toNat_ushiftRight, Nat.shiftRight_eq_div_pow]
    omega

theorem wordAt_i4Bytes {v : JInt} (h : Gen.i4Bytes img v <+: l.drop pos) :
    wordAt img.bigEndian l pos 4 = v.toNat := by
  rw [wordAt_of_bytes h (Rel.length_i4Bytes v), bytesToNat_i4Bytes]

theorem wordAt_i8Bytes {v : BitVec 64} (h : Gen.i8Bytes img v <+: l.drop pos) :
    wordAt img.bigEndian l pos 8 = v.toNat := by
  rw [wordAt_of_bytes h (Rel.length_i8Bytes v), bytesToNat_i8Bytes]

theorem length_u1Bytes (v : JInt) : (Gen.u1Bytes v).length = 1 := rfl

theorem wordAt_u1Bytes {v : JInt} (h : Gen.u1Bytes v <+: l.drop pos) :
    wordAt img.bigEndian l pos 1 = v.toNat % 256 := by
  rw [wordAt_of_bytes (n := 1) h rfl]
  simp [Gen.u1Bytes, bytesToNat]

/-- The bits of the double at `pos`: on ARM the high word comes first. -/
def doubleAt (img : SCodeImage) (l : List Byte) (pos : ℕ) : ℕ :=
  if img.armDouble then
    2 ^ 32 * wordAt img.bigEndian l pos 4 + wordAt img.bigEndian l (pos + 4) 4
  else wordAt img.bigEndian l pos 8

theorem length_f8Bytes (bits : BitVec 64) : (f8Bytes img bits).length = 8 := by
  rw [f8Bytes]
  split
  · rw [List.length_append, Rel.length_i4Bytes, Rel.length_i4Bytes]
  · exact Rel.length_i8Bytes bits

theorem doubleAt_f8Bytes {bits : BitVec 64} (h : f8Bytes img bits <+: l.drop pos) :
    doubleAt img l pos = bits.toNat := by
  have hbits := bits.isLt
  rw [f8Bytes] at h
  rw [doubleAt]
  split at h
  · next harm =>
    have hhigh := wordAt_i4Bytes (prefix_of_append_left h)
    have hlow := wordAt_i4Bytes (prefix_of_append_right h)
    rw [Rel.length_i4Bytes] at hlow
    rw [if_pos harm, hhigh, hlow]
    simp only [BitVec.truncate_eq_setWidth, BitVec.toNat_setWidth, BitVec.toNat_ushiftRight,
      Nat.shiftRight_eq_div_pow]
    omega
  · next harm => rw [if_neg harm, wordAt_i8Bytes h]

/-! ### What the VM reads -/

/-- The elements of the array at `o`. The strings start at `start`. -/
def ReadsArray (img : SCodeImage) (image : List Byte) (start : Addr → Option ℕ) (o : ℕ)
    (a : ArrayLit) : Prop :=
  match a with
  | .strs vals => ∀ j s, vals[j]? = some s → ∃ p, start (.arrayStr a j) = some p ∧
      img.blockSize * u2At img.bigEndian image (o + 2 * j) = p ∧ stringAt image p = some s.toList
  | .bytes vals => ∀ j v, vals[j]? = some v → wordAt img.bigEndian image (o + 1 * j) 1 = v.toNat
  | .shorts vals => ∀ j v, vals[j]? = some v → u2At img.bigEndian image (o + 2 * j) = v.toNat
  | .ints vals => ∀ j v, vals[j]? = some v → wordAt img.bigEndian image (o + 4 * j) 4 = v.toNat
  | .longs vals => ∀ j v, vals[j]? = some v → wordAt img.bigEndian image (o + 8 * j) 8 = v.toNat
  | .floats vals => ∀ j v, vals[j]? = some v → wordAt img.bigEndian image (o + 4 * j) 4 = v.toNat
  | .doubles vals => ∀ j v, vals[j]? = some v → doubleAt img image (o + 8 * j) = v.toNat

/-- The literal at `o`. A buffer has its size, its capacity and its bytes. -/
def ReadsAt (img : SCodeImage) (image : List Byte) (start : Addr → Option ℕ) (o : ℕ) : Addr → Prop
  | .int v => wordAt img.bigEndian image o 4 = v.toNat
  | .long v => wordAt img.bigEndian image o 8 = v.toNat
  | .float bits => wordAt img.bigEndian image o 4 = bits.toNat
  | .double bits => doubleAt img image o = bits.toNat
  | .str s => stringAt image o = some s.toList
  | .buf b => u2At img.bigEndian image o = b.size ∧ u2At img.bigEndian image (o + 2) = b.size ∧
      ∀ i, i < b.size → image[o + 4 + i]? = b.bytes[i]?
  | .array a => ReadsArray img image start o a
  | _ => True

/-- The object starts in the first 2¹⁶ blocks of the layout. -/
def InBlocks (img : SCodeImage) (start : Addr → Option ℕ) (a : Addr) : Prop :=
  ∀ o, start a = some o → o < img.blockSize * 65536

/-- The elements have the width of their type, and strings have no zero bytes. -/
def ArrayFits (img : SCodeImage) (start : Addr → Option ℕ) (a : ArrayLit) : Prop :=
  match a with
  | .strs vals => ∀ j s, vals[j]? = some s →
      Char.ofNat 0 ∉ s.toList ∧ InBlocks img start (.arrayStr a j)
  | .bytes vals => ∀ v ∈ vals, v.toNat < 256
  | .shorts vals => ∀ v ∈ vals, v.toNat < 65536
  | _ => True

/-- The value of the literal can be written. -/
def ValueFits (img : SCodeImage) (start : Addr → Option ℕ) : Addr → Prop
  | .str s => Char.ofNat 0 ∉ s.toList
  | .buf b => b.size < 65536
  | .array a => ArrayFits img start a
  | _ => True

theorem length_bytes (b : Buf) : b.bytes.length = b.size := by
  rw [Buf.bytes, List.length_map, List.length_range]

theorem forall_getElem?_iff {α : Type} {as : List α} {P : ℕ → α → Prop} {Q : α → Prop}
    (h : ∀ j a, as[j]? = some a → (P j a ↔ Q a)) :
    (∀ j a, as[j]? = some a → P j a) ↔ ∀ a ∈ as, Q a := by
  constructor
  · intro hP a ha
    obtain ⟨j, hj⟩ := List.mem_iff_getElem?.mp ha
    exact (h j a hj).mp (hP j a hj)
  · exact fun hQ j a hj => (h j a hj).mpr (hQ a (List.mem_of_getElem? hj))

/-- A block index of two bytes is that of the block if and only if there are few enough blocks. -/
theorem mul_mod_iff {bs k : ℕ} (hbs : 0 < bs) : bs * (k % 65536) = bs * k ↔ bs * k < bs * 65536 := by
  rw [Nat.mul_right_inj hbs.ne', Nat.mul_lt_mul_left hbs]
  omega

/-! ### When a literal is read back -/

section Reading

variable {image : List Byte} {start : Addr → Option ℕ} {ix : Addr → ℕ} {o : ℕ}

/-- Numbers of one width. -/
theorem readsNumbers {α : Type} {width : ℕ} {f : α → List Byte} {as : List α}
    {read : ℕ → ℕ} {value : α → ℕ} (hwidth : ∀ a, (f a).length = width)
    (hread : ∀ a pos, f a <+: image.drop pos → read pos = value a)
    (h : as.flatMap f <+: image.drop o) {j : ℕ} {a : α} (hj : as[j]? = some a) :
    read (o + width * j) = value a :=
  hread a _ (prefix_of_flatMap hwidth h hj)

/-- An array of strings: the cells and the strings. -/
theorem readsStrings_iff {vals : List String} (hbs : 0 < img.blockSize)
    (hcells : arrayBytes img ix (.strs vals) <+: image.drop o)
    (hstrings : ∀ p ∈ stringParts img ix (.strs vals) vals.zipIdx, p.2 <+: image.drop p.1)
    (hstart : ∀ j, j < vals.length →
      start (.arrayStr (.strs vals) j) = some (img.blockSize * ix (.arrayStr (.strs vals) j)))
    (hchars : ∀ s ∈ vals, ∀ c ∈ s.toList, c.toNat ≤ 255) :
    ReadsArray img image start o (.strs vals) ↔ ArrayFits img start (.strs vals) := by
  refine forall_congr' fun j => forall_congr' fun s => imp_congr_right fun hj => ?_
  have hlt : j < vals.length := (List.getElem?_eq_some_iff.mp hj).1
  have hmem : (s, j) ∈ vals.zipIdx := List.mk_mem_zipIdx_iff_getElem?.mpr hj
  have hcell : u2At img.bigEndian image (o + 2 * j) = ix (.arrayStr (.strs vals) j) % 65536 := by
    have hzip : vals.zipIdx[j]? = some (s, j) := by
      rw [List.getElem?_zipIdx, hj, Option.map_some, Nat.zero_add]
    rw [u2At_of_bytes (prefix_of_flatMap (fun _ => length_u2Bytes _ _) hcells hzip),
      Holds.ofNat_toNat]
  have hstring := stringAt_eq_iff (hstrings _ (List.mem_map_of_mem hmem))
    (hchars s (List.mem_of_getElem? hj))
  rw [hcell, InBlocks, hstart j hlt]
  simp only [Option.some.injEq, exists_eq_left', forall_eq']
  rw [mul_mod_iff hbs, hstring, and_comm]

/-- The array at `o`. -/
theorem readsArray_iff {a : ArrayLit} (hbs : 0 < img.blockSize)
    (hbytes : arrayBytes img ix a <+: image.drop o)
    (hstrings : ∀ vals, a = .strs vals →
      ∀ p ∈ stringParts img ix (.strs vals) vals.zipIdx, p.2 <+: image.drop p.1)
    (hstart : ∀ vals, a = .strs vals → ∀ j, j < vals.length →
      start (.arrayStr a j) = some (img.blockSize * ix (.arrayStr a j)))
    (hchars : ∀ s ∈ (Addr.array a).strings, ∀ c ∈ s.toList, c.toNat ≤ 255) :
    ReadsArray img image start o a ↔ ArrayFits img start a := by
  cases a with
  | strs vals => exact readsStrings_iff hbs hbytes (hstrings _ rfl) (hstart _ rfl) hchars
  | bytes vals =>
    refine forall_getElem?_iff fun j v hj => ?_
    have hbyte : Gen.u1Bytes v <+: image.drop (o + 1 * j) :=
      prefix_of_flatMap length_u1Bytes hbytes hj
    rw [wordAt_u1Bytes hbyte]
    omega
  | shorts vals =>
    refine forall_getElem?_iff fun j v hj => ?_
    rw [u2At_of_bytes (prefix_of_flatMap (length_u2Bytes _) hbytes hj)]
    omega
  | ints vals | floats vals =>
    exact iff_of_true (fun j v hj => readsNumbers Rel.length_i4Bytes
      (fun _ _ h => wordAt_i4Bytes h) hbytes hj) trivial
  | longs vals =>
    exact iff_of_true (fun j v hj => readsNumbers Rel.length_i8Bytes
      (fun _ _ h => wordAt_i8Bytes h) hbytes hj) trivial
  | doubles vals =>
    exact iff_of_true (fun j v hj => readsNumbers length_f8Bytes
      (fun _ _ h => doubleAt_f8Bytes h) hbytes hj) trivial

/-- The buffer at `o`. -/
theorem readsBuf_iff {b : Buf} (h : literalBytes img ix (.buf b) <+: image.drop o) :
    ReadsAt img image start o (.buf b) ↔ b.size < 65536 := by
  rw [literalBytes] at h
  have hsizes := prefix_of_append_left h
  have hsize := u2At_of_bytes (prefix_of_append_left hsizes)
  have hlength := u2At_of_bytes (prefix_of_append_right hsizes)
  have hbytes := prefix_of_append_right h
  rw [Holds.ofNat_toNat] at hsize hlength
  simp only [List.length_append, length_u2Bytes] at hlength hbytes
  rw [ReadsAt, hsize, hlength]
  constructor
  · rintro ⟨heq, -, -⟩
    omega
  · intro hlt
    refine ⟨Nat.mod_eq_of_lt hlt, Nat.mod_eq_of_lt hlt, fun i hi => ?_⟩
    exact getElem?_of_bytes hbytes (by rw [length_bytes]; exact hi)

/-- **A literal is read back if and only if its value fits.** -/
theorem readsAt_iff {a : Addr} (ha : a.isLiteral) (hbs : 0 < img.blockSize)
    (hparts : ∀ p ∈ literalParts img ix a, p.2 <+: image.drop p.1)
    (hstart : ∀ vals, a = .array (.strs vals) → ∀ j, j < vals.length →
      start (.arrayStr (.strs vals) j) = some (img.blockSize * ix (.arrayStr (.strs vals) j)))
    (hchars : ∀ s ∈ a.strings, ∀ c ∈ s.toList, c.toNat ≤ 255) :
    ReadsAt img image start (img.blockSize * ix a) a ↔ ValueFits img start a := by
  have hbytes : literalBytes img ix a <+: image.drop (img.blockSize * ix a) :=
    hparts _ (List.mem_cons_self ..)
  cases a with
  | int v | float v => exact iff_of_true (wordAt_i4Bytes hbytes) trivial
  | long v => exact iff_of_true (wordAt_i8Bytes hbytes) trivial
  | double bits => exact iff_of_true (doubleAt_f8Bytes hbytes) trivial
  | str s => exact stringAt_eq_iff hbytes (hchars s (List.mem_singleton_self s))
  | buf b => exact readsBuf_iff hbytes
  | array a =>
    refine readsArray_iff hbs hbytes (fun vals hvals p hp => ?_) (fun vals hvals => ?_) hchars
    · subst hvals
      exact hparts p (List.mem_cons_of_mem _ hp)
    · subst hvals
      exact hstart vals rfl
  | _ => cases ha

end Reading

/-! ### The literals of a program -/

/-- The number of bytes of a literal, without the strings of an array. -/
def ArrayLit.size : ArrayLit → ℕ
  | .strs vals => 2 * vals.length
  | .bytes vals => vals.length
  | .shorts vals => 2 * vals.length
  | .ints vals | .floats vals => 4 * vals.length
  | .longs vals | .doubles vals => 8 * vals.length

def Addr.size : Addr → ℕ
  | .int _ | .float _ => 4
  | .long _ | .double _ => 8
  | .str s => s.toList.length + 1
  | .buf b => 4 + b.size
  | .array a => a.size
  | _ => 0

/-- The `n` bytes from `o` on are storage of the literal: its own, or that of one of its strings. -/
inductive Occupies (l : Layout) : Addr → ℕ → ℕ → Prop where
  | literal {a : Addr} {o : ℕ} (h : l.start a = some o) : Occupies l a o a.size
  | string {vals : List String} {j : ℕ} {s : String} {o : ℕ} (hs : vals[j]? = some s)
      (h : l.start (.arrayStr (.strs vals) j) = some o) :
      Occupies l (.array (.strs vals)) o (s.toList.length + 1)

/-- In the image, each reference of the code leads to storage that is aligned and is read as the
literal, and the storage of different literals is separate. -/
structure LiteralsRead (img : SCodeImage) (image : List Byte) (l : Layout) : Prop where
  literal {off : ℕ} {a : Addr} (h : (off, .obj a) ∈ l.cells) (ha : a.isLiteral) :
    ∃ o, l.start a = some o ∧ img.blockSize * u2At img.bigEndian image off = o ∧ a.unit ∣ o ∧
      ReadsAt img image l.start o a
  separate {off off' : ℕ} {a b : Addr} (ha : (off, .obj a) ∈ l.cells) (hb : (off', .obj b) ∈ l.cells)
    (hla : a.isLiteral) (hlb : b.isLiteral) {o n p m : ℕ} (hoa : Occupies l a o n)
    (hob : Occupies l b p m) : (a = b ∧ o = p) ∨ o + n ≤ p ∨ p + m ≤ o

/-- Either the generator fails, or the literals of the program are in the image. -/
def LiteralsFaithful (img : SCodeImage) (order : PoolOrder) (flat : IrFlat) : Prop :=
  ∀ image, generate img order flat = .ok image →
    ∃ l, layout img order flat = .ok l ∧ LiteralsRead img image l

/-- A double in two words stands at a multiple of eight. -/
def WordsAligned (img : SCodeImage) (start : Addr → Option ℕ) (a : Addr) : Prop :=
  ∀ bits, a = .double bits → img.armDouble = true → ∀ o, start a = some o → 8 ∣ o

/-- The literals that the code refers to start in the first 2¹⁶ blocks of the layout, their values
can be written, and doubles in two words are aligned. -/
def LiteralsFit (img : SCodeImage) (order : PoolOrder) (flat : IrFlat) : Prop :=
  ∀ l, layout img order flat = .ok l → ∀ off a, (off, .obj a) ∈ l.cells → a.isLiteral →
    InBlocks img l.start a ∧ ValueFits img l.start a ∧ WordsAligned img l.start a

/-! ### Sizes -/

theorem length_arrayBytes (ix : Addr → ℕ) (a : ArrayLit) : (arrayBytes img ix a).length = a.size := by
  cases a with
  | strs vals =>
    rw [arrayBytes, length_flatMap_of_width fun _ => length_u2Bytes _ _, List.length_zipIdx]
    rfl
  | bytes vals => exact (length_flatMap_of_width length_u1Bytes vals).trans (Nat.one_mul _)
  | shorts vals => exact length_flatMap_of_width (length_u2Bytes _) vals
  | ints vals | floats vals => exact length_flatMap_of_width Rel.length_i4Bytes vals
  | longs vals => exact length_flatMap_of_width Rel.length_i8Bytes vals
  | doubles vals => exact length_flatMap_of_width length_f8Bytes vals

theorem length_literalBytes (ix : Addr → ℕ) (a : Addr) : (literalBytes img ix a).length = a.size := by
  cases a with
  | int v | float v => exact Rel.length_i4Bytes v
  | long v => exact Rel.length_i8Bytes v
  | double bits => exact length_f8Bytes bits
  | str s => exact length_stringBytes s.toList
  | buf b =>
    rw [literalBytes, List.length_append, List.length_append, length_u2Bytes, length_bytes]
    rfl
  | array a => exact length_arrayBytes ix a
  | _ => rfl

/-! ### From the pool to the image -/

section Pool

variable {s₀ s : Gen} {l : Layout} {done : Addr → Prop}

/-- An object that is placed starts at its block index. -/
theorem Rel.start_eq (h : Rel img s l) {a : Addr} {o : ℕ} (ho : l.start a = some o) :
    o = img.blockSize * s.blockIndex a := by
  obtain ⟨hdvd, -, hix⟩ := h.placed ho
  rw [hix, Nat.mul_div_cancel' hdvd]

/-- What has a block index other than 0 is placed. -/
theorem Rel.start_of_pos (h : Rel img s l) {a : Addr} (ha : 0 < img.blockSize * s.blockIndex a) :
    l.start a = some (img.blockSize * s.blockIndex a) := by
  rcases hstart : l.start a with _ | o
  · rw [h.notPlaced hstart, Nat.mul_zero] at ha
    exact absurd ha (Nat.lt_irrefl 0)
  · rw [h.start_eq hstart]

/-- The storage of a literal is one of its parts. -/
theorem Occupies.part (h : Rel img s l) {a : Addr} {o n : ℕ} (hocc : Occupies l a o n) :
    ∃ bs, (o, bs) ∈ literalParts img s.blockIndex a ∧ bs.length = n := by
  cases hocc with
  | literal hstart =>
    refine ⟨literalBytes img s.blockIndex a, ?_, length_literalBytes _ a⟩
    rw [h.start_eq hstart]
    exact List.mem_cons_self ..
  | @string vals j str _ hstr hstart =>
    refine ⟨stringBytes str.toList, ?_, length_stringBytes _⟩
    rw [h.start_eq hstart]
    exact List.mem_cons_of_mem _ (List.mem_map_of_mem
      (f := fun v : String × ℕ => (img.blockSize * s.blockIndex (.arrayStr (.strs vals) v.2),
        stringBytes v.1.toList)) (List.mk_mem_zipIdx_iff_getElem?.mpr hstr))

theorem Pool.separate (h : Pool img s₀ s done) (hrel : Rel img s l) {a b : Addr} (ha : done a)
    (hb : done b) {o n p m : ℕ} (hoa : Occupies l a o n) (hob : Occupies l b p m) :
    (a = b ∧ o = p) ∨ o + n ≤ p ∨ p + m ≤ o := by
  obtain ⟨bs, hbs, rfl⟩ := hoa.part hrel
  obtain ⟨cs, hcs, rfl⟩ := hob.part hrel
  rcases eq_or_ne a b with rfl | hne
  · rcases eq_or_ne (o, bs) (p, cs) with heq | hpart
    · exact .inl ⟨rfl, (Prod.mk.inj heq).1⟩
    · have : Std.Symm PartsApart := ⟨fun _ _ => PartsApart.symm⟩
      exact .inr ((h.apart ha).forall hbs hcs hpart)
  · exact .inr (h.disjoint ha hb hne hbs hcs)

/-- A literal of the pool is read back from the image if and only if its value fits. -/
theorem Pool.readsAt_iff {image : List Byte} (h : Pool img s₀ s done) (hrel : Rel img s l)
    (h24 : 24 ≤ s₀.code.length) (himage : ∀ i, s₀.code.length ≤ i → image[i]? = s.code[i]?)
    {a : Addr} (ha : done a) :
    l.start a = some (img.blockSize * s.blockIndex a) ∧
      (ReadsAt img image l.start (img.blockSize * s.blockIndex a) a ↔ ValueFits img l.start a) := by
  have hpos : ∀ p ∈ literalParts img s.blockIndex a, 0 < p.1 := fun p hp =>
    Nat.lt_of_lt_of_le (by decide) (h24.trans (h.stored ha hp).1)
  have hself := hpos _ (List.mem_cons_self ..)
  refine ⟨hrel.start_of_pos hself, ?_⟩
  refine ImageGen.readsAt_iff (h.literal ha) (Nat.pos_of_mul_pos_right hself) (fun p hp => ?_)
    (fun vals hvals j hj => ?_) fun str hstr c hc => h.chars ha hstr hc
  · obtain ⟨hlo, hhi, hprefix⟩ := h.stored ha hp
    exact prefix_drop_congr hprefix fun i hi _ => himage i (hlo.trans hi)
  · subst hvals
    refine hrel.start_of_pos (hpos (_, stringBytes (vals[j]).toList) ?_)
    exact List.mem_cons_of_mem _ (List.mem_map_of_mem
      (f := fun v : String × ℕ => (img.blockSize * s.blockIndex (.arrayStr (.strs vals) v.2),
        stringBytes v.1.toList))
      (List.mk_mem_zipIdx_iff_getElem?.mpr (List.getElem?_eq_getElem hj)))

end Pool

/-! ### When the literals are faithful -/

variable {order : PoolOrder} {flat : IrFlat}

/-- The cell of a reference holds the block index of its object if and only if it is in range. -/
theorem Holds.index_iff {code : List Byte} {off o : ℕ} (h : Holds img code off o) :
    img.blockSize * u2At img.bigEndian code off = o ↔ o < img.blockSize * 65536 := by
  obtain ⟨k, rfl⟩ := h.dvd
  have hpos := h.pos
  have hbs : 0 < img.blockSize := Nat.pos_of_mul_pos_right (by omega : 0 < img.blockSize * k)
  rw [h.value, Nat.mul_div_cancel_left k hbs]
  exact mul_mod_iff hbs

/-- What the cell of a reference, the alignment and the bytes of a literal depend on. -/
theorem literal_iff {image : List Byte} (himage : generate img order flat = .ok image) :
    ∃ l, layout img order flat = .ok l ∧
      (∀ off a, (off, .obj a) ∈ l.cells → a.isLiteral →
        ((∃ o, l.start a = some o ∧ img.blockSize * u2At img.bigEndian image off = o ∧ a.unit ∣ o ∧
            ReadsAt img image l.start o a) ↔
          InBlocks img l.start a ∧ ValueFits img l.start a ∧ WordsAligned img l.start a)) ∧
      ∀ off off' a b, (off, .obj a) ∈ l.cells → (off', .obj b) ∈ l.cells → a.isLiteral →
        b.isLiteral → ∀ o n p m, Occupies l a o n → Occupies l b p m →
          (a = b ∧ o = p) ∨ o + n ≤ p ∨ p + m ≤ o := by
  obtain ⟨s₀, s, l, hl, hrel, h24, hpool, hbytes⟩ := generate_pool himage
  obtain ⟨l', hl', hfinal⟩ := generate_lockstep.ok_left himage
  obtain rfl := Except.ok.inj (hl.symm.trans hl')
  refine ⟨l, hl, fun off a hc ha => ?_, fun off off' a b hc hc' ha hb o n p m hoa hob =>
    hpool.separate hrel ⟨off, hc, ha⟩ ⟨off', hc', hb⟩ hoa hob⟩
  obtain ⟨hstart, hreads⟩ := hpool.readsAt_iff hrel h24 hbytes ⟨off, hc, ha⟩
  obtain ⟨o, ho, hholds⟩ := hfinal.refs (c := (off, .obj a)) (List.mem_append_right _ hc)
  obtain rfl : img.blockSize * s.blockIndex a = o := Option.some.inj (hstart.symm.trans ho)
  have halign : (∀ bits, a = .double bits → img.armDouble = false) →
      a.unit ∣ img.blockSize * s.blockIndex a := hpool.aligned ⟨off, hc, ha⟩
  rw [InBlocks, WordsAligned, hstart]
  simp only [Option.some.injEq, exists_eq_left', forall_eq']
  rw [hholds.index_iff, hreads]
  refine and_congr_right fun _ => ?_
  rw [and_comm]
  refine and_congr_right fun _ => ⟨?_, fun hwords => ?_⟩
  · rintro hdvd bits rfl -
    exact hdvd
  · by_cases hdouble : ∃ bits, a = .double bits ∧ img.armDouble = true
    · obtain ⟨bits, rfl, harm⟩ := hdouble
      exact hwords bits rfl harm
    · refine halign fun bits hbits => ?_
      rw [← Bool.not_eq_true]
      exact fun harm => hdouble ⟨bits, hbits, harm⟩

theorem LiteralsFit.of_faithful (h : LiteralsFaithful img order flat) :
    LiteralsFit img order flat := by
  intro l hl off a hc ha
  obtain ⟨image, himage, -⟩ := generate_lockstep.ok_right hl
  obtain ⟨l₁, hl₁, hread⟩ := h image himage
  obtain ⟨l₂, hl₂, hiff, -⟩ := literal_iff himage
  obtain rfl := Except.ok.inj (hl.symm.trans hl₁)
  obtain rfl := Except.ok.inj (hl.symm.trans hl₂)
  exact (hiff off a hc ha).mp (hread.literal hc ha)

theorem LiteralsFit.faithful (h : LiteralsFit img order flat) :
    LiteralsFaithful img order flat := by
  intro image himage
  obtain ⟨l, hl, hiff, hseparate⟩ := literal_iff himage
  refine ⟨l, hl, fun {off a} hc ha => (hiff off a hc ha).mpr (h l hl off a hc ha), ?_⟩
  exact fun {off off' a b} hc hc' ha hb {o n p m} hoa hob =>
    hseparate off off' a b hc hc' ha hb o n p m hoa hob

/-- A program that loads a string. -/
def stringProgram (s : String) : IrFlat :=
  { bufferProgram [] with
    methods := [entryMethod "main" [⟨24, .str s⟩, ⟨227, .noArg⟩],
      entryMethod "resume" [⟨2, .noArg⟩, ⟨227, .noArg⟩]] }

/-- Whether a cell refers to the object. -/
def Layout.refersTo (l : Layout) (a : Addr) : Bool :=
  l.cells.any fun c => match c.2 with
    | .obj b => a = b
    | _ => false

end Sedona.ImageGen
