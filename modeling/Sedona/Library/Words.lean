import Sedona.Library.ByteCells

/-!
# Words and Strings in a Byte Buffer

Integers of several bytes in either byte order, and strings that end with a zero byte, as they
are read at a position of a buffer of bytes.

## Main results

* `wordAt_of_bytes`: a word is read from the bytes at its position.
* `stringAt_eq_iff`: a string is read back if and only if it has no zero byte.
-/

namespace ByteCells

variable {big : Bool} {l l' bs : List Byte} {pos : ℕ}

/-! ### Bytes at a position -/

theorem getElem?_of_bytes (h : bs <+: l.drop pos) {i : ℕ} (hi : i < bs.length) :
    l[pos + i]? = bs[i]? := by
  obtain ⟨rest, hrest⟩ := h
  rw [← List.getElem?_drop, ← hrest, List.getElem?_append_left hi]

/-- The bytes that were written last. -/
theorem prefix_drop_append (l bs rest : List Byte) : bs <+: (l ++ bs ++ rest).drop l.length := by
  rw [List.append_assoc, List.drop_left]
  exact List.prefix_append _ _

/-- What is written behind them leaves bytes alone. -/
theorem prefix_drop_of_append (h : bs <+: l.drop pos) (hpos : pos ≤ l.length) (rest : List Byte) :
    bs <+: (l ++ rest).drop pos := by
  rw [List.drop_append_of_le_length hpos]
  exact h.trans (List.prefix_append _ _)

/-- A buffer that agrees with another one on a range has the same bytes there. -/
theorem prefix_drop_congr (h : bs <+: l.drop pos)
    (heq : ∀ i, pos ≤ i → i < pos + bs.length → l'[i]? = l[i]?) : bs <+: l'.drop pos := by
  rw [List.prefix_iff_getElem?]
  intro i hi
  rw [List.getElem?_drop, heq _ (Nat.le_add_right _ _) (Nat.add_lt_add_left hi _),
    getElem?_of_bytes h hi, List.getElem?_eq_getElem hi]

theorem prefix_of_append_left {cs : List Byte} (h : bs ++ cs <+: l.drop pos) : bs <+: l.drop pos :=
  (List.prefix_append bs cs).trans h

theorem prefix_of_append_right {cs : List Byte} (h : bs ++ cs <+: l.drop pos) :
    cs <+: l.drop (pos + bs.length) := by
  obtain ⟨rest, hrest⟩ := h
  refine ⟨rest, ?_⟩
  rw [← List.drop_drop, ← hrest, List.append_assoc, List.drop_left]

/-- One of several entries that have the same number of bytes. -/
theorem prefix_of_flatMap {α : Type} {f : α → List Byte} {as : List α} {width : ℕ}
    (hwidth : ∀ a, (f a).length = width) (h : as.flatMap f <+: l.drop pos) {j : ℕ} {a : α}
    (hj : as[j]? = some a) : f a <+: l.drop (pos + width * j) := by
  induction as generalizing pos j with
  | nil => cases hj
  | cons b as ih =>
    rw [List.flatMap_cons] at h
    cases j with
    | zero =>
      obtain rfl := Option.some.inj hj
      exact prefix_of_append_left h
    | succ j =>
      have hrest := ih (prefix_of_append_right h) hj
      rwa [hwidth, Nat.add_assoc, Nat.add_comm width, ← Nat.mul_succ] at hrest

theorem length_flatMap_of_width {α : Type} {f : α → List Byte} {width : ℕ}
    (hwidth : ∀ a, (f a).length = width) (as : List α) :
    (as.flatMap f).length = width * as.length := by
  induction as with
  | nil => rfl
  | cons a as ih =>
    rw [List.flatMap_cons, List.length_append, hwidth, ih, List.length_cons, Nat.mul_succ,
      Nat.add_comm]

/-! ### Words -/

/-- The value of bytes, the highest one first. -/
def bytesToNat (bs : List Byte) : ℕ := bs.foldl (fun n b => 256 * n + b.toNat) 0

/-- The word of `n` bytes at `pos`. -/
def wordAt (bigEndian : Bool) (l : List Byte) (pos n : ℕ) : ℕ :=
  let bs := (l.drop pos).take n
  bytesToNat (if bigEndian then bs else bs.reverse)

theorem wordAt_of_bytes {n : ℕ} (h : bs <+: l.drop pos) (hn : bs.length = n) :
    wordAt big l pos n = bytesToNat (if big then bs else bs.reverse) := by
  subst hn
  rw [wordAt, ← List.prefix_iff_eq_take.mp h]

theorem u2At_of_bytes {v : BitVec 32} (h : u2Bytes big v <+: l.drop pos) :
    u2At big l pos = v.toNat % 65536 := by
  have h₀ := getElem?_of_bytes h (i := 0) (by simp)
  have h₁ := getElem?_of_bytes h (i := 1) (by simp)
  rw [Nat.add_zero] at h₀
  rw [u2At, h₀, h₁, pairToNat_u2Bytes]

/-! ### Strings -/

/-- The bytes up to the first zero byte, if there is one. -/
def terminated : List Byte → Option (List Byte)
  | [] => none
  | b :: bs => if b = 0#8 then some [] else (terminated bs).map (b :: ·)

/-- The string at `pos`, a byte for each character. -/
def stringAt (l : List Byte) (pos : ℕ) : Option (List Char) :=
  (terminated (l.drop pos)).map (·.map fun b => Char.ofNat b.toNat)

/-- The bytes of a string with the zero byte at the end. -/
def stringBytes (s : List Char) : List Byte := s.map (fun c => BitVec.ofNat 8 c.toNat) ++ [0#8]

theorem length_stringBytes (s : List Char) : (stringBytes s).length = s.length + 1 := by
  simp [stringBytes]

theorem terminated_of_zero_notMem {bs : List Byte} (h : 0#8 ∉ bs) (rest : List Byte) :
    terminated (bs ++ 0#8 :: rest) = some bs := by
  induction bs with
  | nil => simp [terminated]
  | cons b bs ih =>
    rw [List.mem_cons, not_or] at h
    rw [List.cons_append, terminated, if_neg (Ne.symm h.1), ih h.2]
    rfl

theorem zero_notMem_of_terminated {l bs : List Byte} (h : terminated l = some bs) : 0#8 ∉ bs := by
  induction l generalizing bs with
  | nil => cases h
  | cons b l ih =>
    rw [terminated] at h
    split at h
    · obtain rfl := Option.some.inj h
      exact List.not_mem_nil
    · next hb =>
      obtain ⟨cs, hcs, rfl⟩ := Option.map_eq_some_iff.mp h
      rw [List.mem_cons, not_or]
      exact ⟨Ne.symm hb, ih hcs⟩

theorem char_ofNat_byte {c : Char} (hc : c.toNat ≤ 255) :
    Char.ofNat (BitVec.ofNat 8 c.toNat).toNat = c := by
  rw [BitVec.toNat_ofNat, Nat.mod_eq_of_lt (by omega), Char.ofNat_toNat]

theorem toNat_char_ofNat {n : ℕ} (hn : n < 256) : (Char.ofNat n).toNat = n := by
  have hval : n.isValidChar := .inl (by omega)
  rw [Char.ofNat, dif_pos hval]
  rfl

theorem char_byte_ne_zero {b : Byte} (hb : b ≠ 0#8) : Char.ofNat b.toNat ≠ Char.ofNat 0 := by
  intro h
  have htoNat := congrArg Char.toNat h
  rw [toNat_char_ofNat b.isLt] at htoNat
  exact hb (BitVec.eq_of_toNat_eq htoNat)

/-- A string of one-byte characters is read back if and only if none of them is zero. -/
theorem stringAt_eq_iff {s : List Char} (h : stringBytes s <+: l.drop pos)
    (hs : ∀ c ∈ s, c.toNat ≤ 255) : stringAt l pos = some s ↔ Char.ofNat 0 ∉ s := by
  constructor
  · intro hread hmem
    obtain ⟨bs, hbs, rfl⟩ := Option.map_eq_some_iff.mp hread
    obtain ⟨b, hb, hzero⟩ := List.mem_map.mp hmem
    exact char_byte_ne_zero (fun hb0 => zero_notMem_of_terminated hbs (hb0 ▸ hb)) hzero
  · intro hmem
    obtain ⟨rest, hrest⟩ := h
    have hzero : 0#8 ∉ s.map fun c => BitVec.ofNat 8 c.toNat := by
      intro h0
      obtain ⟨c, hc, heq⟩ := List.mem_map.mp h0
      refine hmem ?_
      have hbyte := char_ofNat_byte (hs c hc)
      rw [heq] at hbyte
      exact hbyte ▸ hc
    rw [stringAt, ← hrest, stringBytes, List.append_assoc, List.singleton_append,
      terminated_of_zero_notMem hzero, Option.map_some, List.map_map]
    refine congrArg some ?_
    conv_rhs => rw [← List.map_id s]
    exact List.map_congr_left fun c hc => char_ofNat_byte (hs c hc)

end ByteCells
