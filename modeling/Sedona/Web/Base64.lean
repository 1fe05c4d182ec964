import Sedona.Library.LineBreaks
import Sedona.Sys.Stream
import Mathlib.Tactic.Ring

/-!
# Base64

The encoder and the decoder of `sedona.util.Base64`, and the encoder of `web::Base64` on the device,
which was adapted from it. Both encoders take three bytes at a time and put a line break in front of
a character that does not fit into its line. The decoder skips everything that is not of the
alphabet; `index` and `bytesRemaining` slide together.

The text is written to a `StringBuffer`, which holds less than `2 ^ 31` characters, and the decoder
allocates its result for the number of bits of the text, which is an `int`.

## Main results

* `textLength`: how long the text for so many bytes is.
* `decode_of_spaced`: what the decoder makes of the text of some bytes with breaks anywhere in it.
* `round_trip_iff`: for which lengths the bytes come back.
-/

namespace Sedona

namespace Base64

open LineBreaks

/-- A `byte`. -/
abbrev Byte := BitVec 8

/-! ### Encoding -/

/-- `encodeTable`, of both. -/
def encodeTable : List Char :=
  ['A', 'B', 'C', 'D', 'E', 'F', 'G', 'H',
   'I', 'J', 'K', 'L', 'M', 'N', 'O', 'P', 'Q',
   'R', 'S', 'T', 'U', 'V', 'W', 'X', 'Y', 'Z',
   'a', 'b', 'c', 'd', 'e', 'f', 'g', 'h',
   'i', 'j', 'k', 'l', 'm', 'n', 'o', 'p', 'q',
   'r', 's', 't', 'u', 'v', 'w', 'x', 'y', 'z',
   '0', '1', '2', '3', '4', '5', '6', '7', '8',
   '9', '+', '/']

/-- `PAD`, of both. -/
def PAD : Char := '='

/-- The first of the four indices of a group of bytes. -/
def i0 (b0 : Byte) : ℕ := b0.toNat >>> 2

def i1 (b0 b1 : Byte) : ℕ := ((b0.toNat &&& 0x3) <<< 4) + (b1.toNat >>> 4)

def i2 (b1 b2 : Byte) : ℕ := ((b1.toNat &&& 0xf) <<< 2) + (b2.toNat >>> 6)

def i3 (b2 : Byte) : ℕ := b2.toNat &&& 0x3f

/-- `encodeTable[i]`; no index is 64 or more. -/
def letter (i : ℕ) : Char := encodeTable.getD i PAD

section Body

variable {S : Type} (append : Char → S → S)

/-- The end of the encoders, for less than three bytes. -/
def encodeLast (rest : List Byte) (s : S) : S :=
  if 0 < rest.length then
    let remainder := fun i => rest.getD i 0
    let lastOut := if rest.length = 1 then 2 else 3
    let s := append (letter (i0 (remainder 0))) s
    let s := if 1 < lastOut then append (letter (i1 (remainder 0) (remainder 1))) s else s
    let s := if 2 < lastOut then append (letter (i2 (remainder 1) (remainder 2))) s else s
    (append PAD)^[4 - lastOut] s
  else s

/-- The encoders, as far as they are the same. -/
def encodeBody : List Byte → S → S
  | b0 :: b1 :: b2 :: rest, s =>
      let s := append (letter (i0 b0)) s
      let s := append (letter (i1 b0 b1)) s
      let s := append (letter (i2 b1 b2)) s
      let s := append (letter (i3 b2)) s
      encodeBody rest s
  | rest, s => encodeLast append rest s

end Body

/-- What the methods of `sedona.util.Base64` throw. -/
inductive Thrown where
  /-- A `StringBuffer` is full: `OutOfMemoryError`. -/
  | outOfMemory
  /-- `new ByteArrayOutputStream(size)`: `IllegalArgumentException`, "Negative initial size". -/
  | negativeSize
  /-- `IllegalStateException`, "Unexpected end of input." -/
  | endOfInput
  /-- `String.charAt`: `StringIndexOutOfBoundsException`. -/
  | index
  | outOfFuel
deriving DecidableEq, Repr

/-- `Base64.append` of Java: the buffer, and `pos`. -/
def append (linelen : ℤ) (ch : Char) (s : List Char × ℤ) : List Char × ℤ :=
  if linelen ≠ -1 then
    let s := if s.2 = linelen then (s.1 ++ ['\n'], 0) else s
    (s.1 ++ [ch], s.2 + 1)
  else (s.1 ++ [ch], s.2)

/-- `Base64.encode` of Java. -/
def encode (buf : List Byte) (linelen : ℤ) : Except Thrown (List Char) :=
  let sbuf := (encodeBody (append linelen) buf ([], 0)).1
  if sbuf.length < 0x80000000 then .ok sbuf else .error .outOfMemory

namespace Device

/-- `web::Base64.append`: the bytes written so far, and `pos`. `OutStream.nl` flushes, too. -/
def append (linelen : ℤ) (ch : Char) (s : List Byte × ℤ) : List Byte × ℤ :=
  let s :=
    if 0 < linelen then
      let s := if s.2 = linelen then
        (s.1 ++ OutStream.write (BitVec.ofNat 32 '\n'.toNat), 0) else s
      (s.1, s.2 + 1)
    else s
  (s.1 ++ OutStream.write (BitVec.ofNat 32 ch.toNat), s.2)

/-- `web::Base64.encodeLen`, to a stream that takes all bytes. -/
def encodeLen (buf : List Byte) (linelen : ℤ) : List Byte :=
  (encodeBody (append linelen) buf ([], 0)).1

end Device

/-- The text of the bytes that a device has written. -/
def asText (bs : List Byte) : List Char := bs.map fun b => Char.ofNat b.toNat

/-! ### Decoding -/

/-- `Base64.getVal`. -/
def getVal (ch : Char) : ℤ :=
  if ch = PAD then -1
  else
    let val : ℤ := ch.toNat
    if 65 ≤ val ∧ val ≤ 90 then val - 65
    else if 97 ≤ val ∧ val ≤ 122 then val - 71
    else if 48 ≤ val ∧ val ≤ 57 then val + 4
    else if val = 43 then 62
    else if val = 47 then 63
    else -2

/-- `src.charAt(i)`. -/
def charAt (src : List Char) (i : ℕ) : Except Thrown Char :=
  match src[i]? with
  | some c => .ok c
  | none => .error .index

/-- The loop that skips the characters in front of the character `k` of a group: `val`, `index` and
`bytesRemaining` behind it. -/
def skipBreaks (src : List Char) (k : ℕ) : ℤ → ℕ → ℕ → Except Thrown (ℤ × ℕ × ℕ)
  | val, index, 0 => .ok (val, index, 0)
  | val, index, bytesRemaining + 1 =>
      if val = -2 then do
        let val ←
          if 0 < bytesRemaining then do
            let c ← charAt src (index + 1 + k)
            .ok (getVal c)
          else .ok val
        skipBreaks src k val (index + 1) bytesRemaining
      else .ok (val, index, bytesRemaining + 1)

/-- Read the character `k` of a group. -/
def readVal (src : List Char) (k index bytesRemaining : ℕ) : Except Thrown (ℤ × ℕ × ℕ) := do
  let c ← charAt src (index + k)
  let (val, index, bytesRemaining) ← skipBreaks src k (getVal c) index bytesRemaining
  if bytesRemaining = 0 then .error .endOfInput else .ok (val, index, bytesRemaining)

/-- `ByteArrayOutputStream.write`. -/
def byte (v : ℕ) : List Byte := [BitVec.ofNat 8 v]

/-- `group`, of the values that are not padding. -/
def groupOf (val0 val1 val2 val3 : ℤ) : ℕ :=
  let group := 0
  let group := if val0 ≠ -1 then group ||| (val0.toNat <<< 18) else group
  let group := if val1 ≠ -1 then group ||| (val1.toNat <<< 12) else group
  let group := if val2 ≠ -1 then group ||| (val2.toNat <<< 6) else group
  if val3 ≠ -1 then group ||| val3.toNat else group

/-- The bytes that are written for a group. -/
def writeGroup (val0 val1 val2 val3 : ℤ) : List Byte :=
  let group := groupOf val0 val1 val2 val3
  byte ((group &&& 0xFF0000) >>> 16) ++
    if val2 ≠ -1 then
      byte ((group &&& 0xFF00) >>> 8) ++ if val3 ≠ -1 then byte (group &&& 0xFF) else []
    else []

/-- `padCount`. -/
def padCount (val0 val1 val2 val3 : ℤ) : ℕ := [val0, val1, val2, val3].count (-1)

/-- The loop of `Base64.decode`. `bytesRemaining` may become negative at the end of a round, which
ends the loop as 0 does. -/
def decodeLoop (src : List Char) : ℕ → ℕ → ℕ → List Byte → Except Thrown (List Byte)
  | 0, _, _, _ => .error .outOfFuel
  | fuel + 1, index, bytesRemaining, res =>
      if 4 ≤ bytesRemaining then do
        let (val0, index, bytesRemaining) ← readVal src 0 index bytesRemaining
        let (val1, index, bytesRemaining) ← readVal src 1 index bytesRemaining
        let (val2, index, bytesRemaining) ← readVal src 2 index bytesRemaining
        let (val3, index, bytesRemaining) ← readVal src 3 index bytesRemaining
        let res := res ++ writeGroup val0 val1 val2 val3
        if 0 < padCount val0 val1 val2 val3 then .ok res
        else decodeLoop src fuel (index + 4) (bytesRemaining - 4) res
      else .ok res

/-- `src.length() * 6`, as an `int`. -/
def bits (n : ℕ) : ℤ := (n * 6 : ℤ).bmod 0x100000000

/-- `Base64.decode`. A round of the loop takes four characters at least, so there are fewer rounds
than characters. -/
def decode (src : List Char) : Except Thrown (List Byte) :=
  if (bits src.length).tdiv 8 < 0 then .error .negativeSize
  else decodeLoop src (src.length + 1) 0 src.length []

/-! ### The letters -/

/-- The text of some bytes, without line breaks. -/
def letters : List Byte → List Char
  | b0 :: b1 :: b2 :: rest =>
      letter (i0 b0) :: letter (i1 b0 b1) :: letter (i2 b1 b2) :: letter (i3 b2) :: letters rest
  | [b0, b1] => [letter (i0 b0), letter (i1 b0 b1), letter (i2 b1 0), PAD]
  | [b0] => [letter (i0 b0), letter (i1 b0 0), PAD, PAD]
  | [] => []

theorem encodeBody_eq {S : Type} (append : Char → S → S) (buf : List Byte) (s : S) :
    encodeBody append buf s = (letters buf).foldl (fun s c => append c s) s := by
  induction buf using letters.induct generalizing s with
  | case1 b0 b1 b2 rest ih => rw [encodeBody, ih, letters]; rfl
  | case2 b0 b1 => rfl
  | case3 b0 => rfl
  | case4 => rfl

theorem length_letters (buf : List Byte) : (letters buf).length = 4 * ((buf.length + 2) / 3) := by
  induction buf using letters.induct with
  | case1 b0 b1 b2 rest ih =>
    simp only [letters, List.length_cons, ih]
    omega
  | case2 b0 b1 => simp [letters]
  | case3 b0 => simp [letters]
  | case4 => rfl

theorem i0_eq (b0 : Byte) : i0 b0 = b0.toNat / 4 := Nat.shiftRight_eq_div_pow _ 2

theorem i1_eq (b0 b1 : Byte) : i1 b0 b1 = b0.toNat % 4 * 16 + b1.toNat / 16 := by
  rw [i1, Nat.shiftLeft_eq, Nat.shiftRight_eq_div_pow, Nat.and_two_pow_sub_one_eq_mod _ 2]

theorem i2_eq (b1 b2 : Byte) : i2 b1 b2 = b1.toNat % 16 * 4 + b2.toNat / 64 := by
  rw [i2, Nat.shiftLeft_eq, Nat.shiftRight_eq_div_pow, Nat.and_two_pow_sub_one_eq_mod _ 4]

theorem i3_eq (b2 : Byte) : i3 b2 = b2.toNat % 64 := Nat.and_two_pow_sub_one_eq_mod _ 6

/-- The decoder undoes the table. -/
theorem getVal_letter {i : ℕ} (h : i < 64) : getVal (letter i) = i := by
  revert i
  decide

theorem letter_lt {i : ℕ} (h : i < 64) : (letter i).toNat < 256 := by
  revert i
  decide

theorem getVal_newline : getVal '\n' = -2 := rfl

/-! ### Groups -/

theorem shiftLeft_or {a v : ℕ} (hv : v < 64) (k : ℕ) :
    a <<< (k + 6) ||| v <<< k = (a * 64 + v) <<< k := by
  have hlt : v <<< k < 2 ^ (k + 6) := by
    rw [Nat.shiftLeft_eq, pow_add, mul_comm (2 ^ k)]
    exact Nat.mul_lt_mul_of_pos_right hv (Nat.two_pow_pos k)
  rw [← Nat.shiftLeft_add_eq_or_of_lt hlt, Nat.shiftLeft_eq, Nat.shiftLeft_eq, Nat.shiftLeft_eq,
    pow_add]
  ring

theorem groupOf_eq (v0 : ℕ) {v1 v2 v3 : ℕ} (h1 : v1 < 64) (h2 : v2 < 64) (h3 : v3 < 64) :
    groupOf v0 v1 v2 v3 = ((v0 * 64 + v1) * 64 + v2) * 64 + v3 := by
  have hpos (v : ℕ) : (v : ℤ) ≠ -1 := by omega
  have hlast := shiftLeft_or (a := (v0 * 64 + v1) * 64 + v2) h3 0
  simp only [groupOf, if_pos (hpos _), Int.toNat_natCast, Nat.zero_or]
  rw [shiftLeft_or h1 12, shiftLeft_or h2 6]
  simpa using hlast

theorem groupOf_pad (v0 : ℕ) {v1 v2 : ℕ} (h1 : v1 < 64) (h2 : v2 < 64) :
    groupOf v0 v1 v2 (-1) = ((v0 * 64 + v1) * 64 + v2) * 64 := by
  have hpos (v : ℕ) : (v : ℤ) ≠ -1 := by omega
  simp only [groupOf, if_pos (hpos _), Int.toNat_natCast, Nat.zero_or]
  rw [shiftLeft_or h1 12, shiftLeft_or h2 6, Nat.shiftLeft_eq]
  rfl

theorem groupOf_pads (v0 : ℕ) {v1 : ℕ} (h1 : v1 < 64) :
    groupOf v0 v1 (-1) (-1) = (v0 * 64 + v1) * 4096 := by
  have hpos (v : ℕ) : (v : ℤ) ≠ -1 := by omega
  simp only [groupOf, if_pos (hpos _), Int.toNat_natCast, Nat.zero_or]
  rw [shiftLeft_or h1 12, Nat.shiftLeft_eq]
  rfl

theorem byte_eq {v : ℕ} {b : Byte} (h : v % 256 = b.toNat) : byte v = [b] := by
  rw [byte, List.singleton_inj]
  exact BitVec.eq_of_toNat_eq (by rw [BitVec.toNat_ofNat, h])

/-- The parts of a group that are written. -/
theorem high_part (group : ℕ) : (group &&& 0xFF0000) >>> 16 = group / 65536 % 256 := by
  have hmask : 0xFF0000 >>> 16 = 2 ^ 8 - 1 := rfl
  rw [Nat.shiftRight_and_distrib, hmask, Nat.and_two_pow_sub_one_eq_mod, Nat.shiftRight_eq_div_pow]

theorem middle_part (group : ℕ) : (group &&& 0xFF00) >>> 8 = group / 256 % 256 := by
  have hmask : 0xFF00 >>> 8 = 2 ^ 8 - 1 := rfl
  rw [Nat.shiftRight_and_distrib, hmask, Nat.and_two_pow_sub_one_eq_mod, Nat.shiftRight_eq_div_pow]

theorem low_part (group : ℕ) : group &&& 0xFF = group % 256 :=
  Nat.and_two_pow_sub_one_eq_mod group 8

section Indices

variable (b0 b1 b2 : Byte)

theorem i0_lt : i0 b0 < 64 := by
  rw [i0_eq]
  omega

theorem i1_lt : i1 b0 b1 < 64 := by
  rw [i1_eq]
  omega

theorem i2_lt : i2 b1 b2 < 64 := by
  rw [i2_eq]
  omega

theorem i3_lt : i3 b2 < 64 := by
  rw [i3_eq]
  omega

theorem writeGroup_three :
    writeGroup (i0 b0) (i1 b0 b1) (i2 b1 b2) (i3 b2) = [b0, b1, b2] := by
  have hpos (v : ℕ) : (v : ℤ) ≠ -1 := by omega
  have hgroup := groupOf_eq (i0 b0) (i1_lt b0 b1) (i2_lt b1 b2) (i3_lt b2)
  simp only [writeGroup, if_pos (hpos _), hgroup, high_part, middle_part, low_part]
  rw [byte_eq (b := b0), byte_eq (b := b1), byte_eq (b := b2)]
  · rfl
  all_goals
    rw [i0_eq, i1_eq, i2_eq, i3_eq]
    omega

theorem writeGroup_two : writeGroup (i0 b0) (i1 b0 b1) (i2 b1 0) (-1) = [b0, b1] := by
  have hpos (v : ℕ) : (v : ℤ) ≠ -1 := by omega
  have hgroup := groupOf_pad (i0 b0) (i1_lt b0 b1) (i2_lt b1 0)
  simp only [writeGroup, if_pos (hpos _), hgroup, high_part, middle_part]
  rw [byte_eq (b := b0), byte_eq (b := b1)]
  · rfl
  all_goals
    rw [i0_eq, i1_eq, i2_eq]
    omega

theorem writeGroup_one : writeGroup (i0 b0) (i1 b0 0) (-1) (-1) = [b0] := by
  have hgroup := groupOf_pads (i0 b0) (i1_lt b0 0)
  simp only [writeGroup, hgroup, high_part]
  rw [byte_eq (b := b0)]
  · rfl
  rw [i0_eq, i1_eq]
  omega

end Indices

/-! ### Reading one character -/

section Reading

variable {src br rest t : List Char} {c : Char} {k index bytesRemaining : ℕ}

theorem charAt_of_drop (h : src.drop index = c :: t) : charAt src index = .ok c := by
  have hget : src[index]? = some c := by
    rw [← List.head?_drop, h]
    rfl
  rw [charAt, hget]

/-- What the loop of the decoder knows in front of the character `k` of a group: the rest of the
text is `t`, and the sliding index counts it. -/
structure At (src : List Char) (k index bytesRemaining : ℕ) (t : List Char) : Prop where
  drop : src.drop (index + k) = t
  remaining : bytesRemaining = t.length + k

/-- The first of the characters that count is read. -/
theorem skipBreaks_spec (hbr : ∀ x ∈ br, getVal x = -2) (hc : getVal c ≠ -2)
    (h : At src k index bytesRemaining (br ++ c :: rest)) :
    ((charAt src (index + k)).bind fun x => skipBreaks src k (getVal x) index bytesRemaining) =
      .ok (getVal c, index + br.length, (c :: rest).length + k) := by
  induction br generalizing index bytesRemaining with
  | nil =>
    obtain ⟨hdrop, rfl⟩ := h
    rw [charAt_of_drop hdrop, Except.bind, List.nil_append, List.length_cons, Nat.succ_add,
      skipBreaks, if_neg hc]
    rfl
  | cons x br ih =>
    rw [List.forall_mem_cons] at hbr
    obtain ⟨hdrop, rfl⟩ := h
    have hnext : At src k (index + 1) ((br ++ c :: rest).length + k) (br ++ c :: rest) := by
      refine ⟨?_, rfl⟩
      rw [Nat.add_right_comm, ← List.tail_drop, hdrop]
      rfl
    have hmore : 0 < (br ++ c :: rest).length + k := by
      rw [List.length_append, List.length_cons]
      omega
    have hrec := ih hbr.2 hnext
    rw [charAt_of_drop hdrop, Except.bind, List.cons_append, List.length_cons, Nat.succ_add,
      skipBreaks, if_pos hbr.1, if_pos hmore]
    rw [List.length_cons, Nat.add_comm br.length, ← Nat.add_assoc]
    exact hrec

theorem readVal_spec (hbr : ∀ x ∈ br, getVal x = -2) (hc : getVal c ≠ -2)
    (h : At src k index bytesRemaining (br ++ c :: rest)) :
    ∃ index' bytesRemaining',
      readVal src k index bytesRemaining = .ok (getVal c, index', bytesRemaining') ∧
      At src (k + 1) index' bytesRemaining' rest := by
  have hskip := skipBreaks_spec hbr hc h
  refine ⟨index + br.length, (c :: rest).length + k, ?_, ?_, ?_⟩
  · have hread : readVal src k index bytesRemaining =
        ((charAt src (index + k)).bind fun x =>
          skipBreaks src k (getVal x) index bytesRemaining).bind fun p =>
            if p.2.2 = 0 then .error .endOfInput else .ok (p.1, p.2.1, p.2.2) := by
      rw [readVal]
      cases charAt src (index + k) <;> rfl
    rw [hread, hskip, Except.bind, if_neg (by simp)]
  · have hat : src.drop (index + k + br.length) = c :: rest := by
      rw [← List.drop_drop, h.drop, List.drop_left]
    rw [show index + br.length + (k + 1) = index + k + br.length + 1 by omega, ← List.tail_drop,
      hat]
    rfl
  · rw [List.length_cons]
    omega

/-- A character of a text with breaks in front of it. -/
theorem readVal_spaced {cs : List Char} (hs : Spaced (fun x => getVal x = -2) (c :: cs) t)
    (h : At src k index bytesRemaining t) :
    ∃ index' bytesRemaining' t',
      readVal src k index bytesRemaining = .ok (getVal c, index', bytesRemaining') ∧
      At src (k + 1) index' bytesRemaining' t' ∧ Spaced (fun x => getVal x = -2) cs t' := by
  obtain ⟨br, t', rfl, hbr, hc, hs'⟩ := hs.uncons
  obtain ⟨index', rem', hread, hat⟩ := readVal_spec hbr hc h
  exact ⟨index', rem', t', hread, hat, hs'⟩

/-- A round of the loop. -/
theorem decodeLoop_group (fuel : ℕ) (res : List Byte) {c0 c1 c2 c3 : Char} {cs : List Char}
    (hs : Spaced (fun x => getVal x = -2) (c0 :: c1 :: c2 :: c3 :: cs) t)
    (h : At src 0 index bytesRemaining t) :
    ∃ index' bytesRemaining' t', At src 0 index' bytesRemaining' t' ∧
      Spaced (fun x => getVal x = -2) cs t' ∧
      decodeLoop src (fuel + 1) index bytesRemaining res =
        let res := res ++ writeGroup (getVal c0) (getVal c1) (getVal c2) (getVal c3)
        if 0 < padCount (getVal c0) (getVal c1) (getVal c2) (getVal c3) then .ok res
        else decodeLoop src fuel index' bytesRemaining' res := by
  have hlen : 4 ≤ bytesRemaining := by
    have hle := hs.length_le
    rw [h.remaining]
    simp only [List.length_cons] at hle
    omega
  obtain ⟨i₁, r₁, t₁, h₁, hat₁, hs₁⟩ := readVal_spaced hs h
  obtain ⟨i₂, r₂, t₂, h₂, hat₂, hs₂⟩ := readVal_spaced hs₁ hat₁
  obtain ⟨i₃, r₃, t₃, h₃, hat₃, hs₃⟩ := readVal_spaced hs₂ hat₂
  obtain ⟨i₄, r₄, t₄, h₄, hat₄, hs₄⟩ := readVal_spaced hs₃ hat₃
  refine ⟨i₄ + 4, r₄ - 4, t₄, ⟨hat₄.drop, ?_⟩, hs₄, ?_⟩
  · rw [hat₄.remaining]
    omega
  · rw [decodeLoop, if_pos hlen, h₁]
    simp only [bind, Except.bind, h₂, h₃, h₄]

theorem padCount_eq_zero (v0 v1 v2 v3 : ℕ) : padCount v0 v1 v2 v3 = 0 := by
  rw [padCount, List.count_eq_zero]
  simp only [List.mem_cons, List.not_mem_nil, or_false]
  omega

theorem getVal_pad : getVal PAD = -1 := rfl

/-- The groups of the text are those that the bytes were taken in. -/
theorem decodeLoop_letters {buf res : List Byte} {fuel : ℕ}
    (hs : Spaced (fun x => getVal x = -2) (letters buf) t)
    (h : At src 0 index bytesRemaining t) (hfuel : buf.length < fuel) :
    decodeLoop src fuel index bytesRemaining res = .ok (res ++ buf) := by
  obtain _ | fuel := fuel
  · exact absurd hfuel (Nat.not_lt_zero _)
  induction buf using letters.induct generalizing t index bytesRemaining res fuel with
  | case1 b0 b1 b2 rest ih =>
    obtain ⟨index', rem', t', hat, hs', hround⟩ := decodeLoop_group fuel res hs h
    rw [hround, getVal_letter (i0_lt b0), getVal_letter (i1_lt b0 b1), getVal_letter (i2_lt b1 b2),
      getVal_letter (i3_lt b2), padCount_eq_zero, if_neg (lt_irrefl 0), writeGroup_three]
    simp only [List.length_cons] at hfuel
    obtain _ | fuel := fuel
    · omega
    · rw [ih hs' hat fuel (by omega), List.append_assoc]
      rfl
  | case2 b0 b1 =>
    obtain ⟨index', rem', t', -, -, hround⟩ := decodeLoop_group fuel res hs h
    rw [hround, getVal_letter (i0_lt b0), getVal_letter (i1_lt b0 b1), getVal_letter (i2_lt b1 0),
      getVal_pad, writeGroup_two, if_pos (by simp [padCount])]
  | case3 b0 =>
    obtain ⟨index', rem', t', -, -, hround⟩ := decodeLoop_group fuel res hs h
    rw [hround, getVal_letter (i0_lt b0), getVal_letter (i1_lt b0 0), getVal_pad, writeGroup_one,
      if_pos (by simp [padCount])]
  | case4 =>
    obtain rfl := hs.eq_nil
    rw [decodeLoop, if_neg (by simp [h.remaining]), List.append_nil]

end Reading

/-- The result can be allocated for a text of this length. -/
def Allocates (n : ℕ) : Prop := 0 ≤ (bits n).tdiv 8

instance : DecidablePred Allocates := fun n => inferInstanceAs (Decidable (0 ≤ (bits n).tdiv 8))

/-- Breaks may stand anywhere but at the end. -/
theorem decode_of_spaced {buf : List Byte} {src : List Char}
    (hs : Spaced (fun x => getVal x = -2) (letters buf) src) (h : Allocates src.length) :
    decode src = .ok buf := by
  have hat : At src 0 0 src.length src := ⟨rfl, rfl⟩
  have hfuel : buf.length < src.length + 1 := by
    have hle := hs.length_le
    rw [length_letters] at hle
    omega
  rw [decode, if_neg (not_lt.mpr h), decodeLoop_letters hs hat hfuel, List.nil_append]

/-! ### Lines -/

/-- The text in lines; there is one line only if the length is -1. -/
def broken (linelen : ℤ) (cs : List Char) : List Char :=
  if linelen = -1 then cs else wrapped '\n' linelen.toNat 0 cs

/-- How long the text of `n` bytes is: four characters for every three bytes or less, and a line
break after each line but the last one. -/
def textLength (n : ℕ) (linelen : ℤ) : ℕ :=
  let chars := 4 * ((n + 2) / 3)
  if linelen = -1 then chars else chars + (chars - 1) / linelen.toNat

section Lines

variable {linelen : ℤ} {len : ℕ} {cs : List Char}

theorem foldl_append_none (cs sbuf : List Char) (pos : ℤ) :
    (cs.foldl (fun s c => append (-1) c s) (sbuf, pos)).1 = sbuf ++ cs := by
  induction cs generalizing sbuf pos with
  | nil => rw [List.foldl_nil, List.append_nil]
  | cons c cs ih => 
    rw [List.foldl_cons, append, if_neg (by simp), ih, List.append_assoc]
    rfl

theorem foldl_append_len (cs sbuf : List Char) (pos : ℕ) :
    (cs.foldl (fun s c => append len c s) (sbuf, (pos : ℤ))).1 =
      sbuf ++ wrapped '\n' len pos cs := by
  induction cs generalizing sbuf pos with
  | nil => rw [List.foldl_nil, wrapped, List.append_nil]
  | cons c cs ih =>
    have hlen : (len : ℤ) ≠ -1 := by omega
    rw [List.foldl_cons, append, if_pos hlen, wrapped]
    by_cases hpos : pos = len
    · have hnext := ih (sbuf ++ ['\n'] ++ [c]) 1
      rw [if_pos hpos, if_pos (congrArg _ hpos)]
      exact hnext.trans (by simp)
    · have hnext := ih (sbuf ++ [c]) (pos + 1)
      rw [if_neg hpos, if_neg (fun h => hpos (Int.ofNat_inj.mp h))]
      exact hnext.trans (by simp)

/-- A byte of the text. -/
def ascii (c : Char) : Byte := BitVec.ofNat 8 c.toNat

theorem Device.write_char (c : Char) : OutStream.write (BitVec.ofNat 32 c.toNat) = [ascii c] := by
  rw [OutStream.write, ascii, BitVec.setWidth_ofNat_of_le (by omega)]

theorem Device.foldl_append_none (cs : List Char) (out : List Byte) (pos : ℤ) :
    (cs.foldl (fun s c => Device.append (-1) c s) (out, pos)).1 = out ++ cs.map ascii := by
  induction cs generalizing out pos with
  | nil => rw [List.foldl_nil, List.map_nil, List.append_nil]
  | cons c cs ih =>
    rw [List.foldl_cons, Device.append, if_neg (by omega), ih, write_char, List.append_assoc]
    rfl

theorem Device.foldl_append_len (h : 0 < len) (cs : List Char) (out : List Byte) (pos : ℕ) :
    (cs.foldl (fun s c => Device.append len c s) (out, (pos : ℤ))).1 =
      out ++ (wrapped '\n' len pos cs).map ascii := by
  induction cs generalizing out pos with
  | nil => rw [List.foldl_nil, wrapped, List.map_nil, List.append_nil]
  | cons c cs ih =>
    have hlen : 0 < (len : ℤ) := by omega
    rw [List.foldl_cons, Device.append, if_pos hlen, wrapped]
    by_cases hpos : pos = len
    · have hnext := ih (out ++ [ascii '\n'] ++ [ascii c]) 1
      rw [if_pos hpos, if_pos (congrArg _ hpos)]
      simp only [write_char]
      exact hnext.trans (by simp)
    · have hnext := ih (out ++ [ascii c]) (pos + 1)
      rw [if_neg hpos, if_neg (fun h => hpos (Int.ofNat_inj.mp h))]
      simp only [write_char]
      exact hnext.trans (by simp)

/-- The text of Java. -/
theorem encodeBody_append (buf : List Byte) (h : linelen = -1 ∨ 0 < linelen) :
    (encodeBody (append linelen) buf ([], 0)).1 = broken linelen (letters buf) := by
  rw [encodeBody_eq, broken]
  obtain rfl | hpos := h
  · rw [foldl_append_none, if_pos rfl, List.nil_append]
  · obtain ⟨len, rfl⟩ := Int.eq_ofNat_of_zero_le hpos.le
    rw [if_neg (by omega)]
    exact foldl_append_len _ _ 0

/-- The text of the device. -/
theorem encodeLen_eq (buf : List Byte) (h : linelen = -1 ∨ 0 < linelen) :
    Device.encodeLen buf linelen = (broken linelen (letters buf)).map ascii := by
  rw [Device.encodeLen, encodeBody_eq, broken]
  obtain rfl | hpos := h
  · rw [Device.foldl_append_none, if_pos rfl, List.nil_append]
  · obtain ⟨len, rfl⟩ := Int.eq_ofNat_of_zero_le hpos.le
    rw [if_neg (by omega)]
    exact Device.foldl_append_len (by omega) _ _ 0

theorem length_broken (buf : List Byte) (h : linelen = -1 ∨ 0 < linelen) :
    (broken linelen (letters buf)).length = textLength buf.length linelen := by
  rw [broken, textLength]
  obtain rfl | hpos := h
  · rw [if_pos rfl, if_pos rfl, length_letters]
  · rw [if_neg (by omega), if_neg (by omega), length_wrapped (by omega) (Nat.zero_le _),
      length_letters, Nat.zero_add]

/-- Every letter of a text is in the table or is a pad. -/
theorem forall_letters {p : Char → Prop} (hp : ∀ i < 64, p (letter i)) (hpad : p PAD)
    (buf : List Byte) : ∀ c ∈ letters buf, p c := by
  induction buf using letters.induct with
  | case1 b0 b1 b2 rest ih =>
    simp only [letters, List.forall_mem_cons]
    exact ⟨hp _ (i0_lt b0), hp _ (i1_lt b0 b1), hp _ (i2_lt b1 b2), hp _ (i3_lt b2), ih⟩
  | case2 b0 b1 =>
    simp only [letters, List.forall_mem_cons]
    exact ⟨hp _ (i0_lt b0), hp _ (i1_lt b0 b1), hp _ (i2_lt b1 0), hpad, List.forall_mem_nil _⟩
  | case3 b0 =>
    simp only [letters, List.forall_mem_cons]
    exact ⟨hp _ (i0_lt b0), hp _ (i1_lt b0 0), hpad, hpad, List.forall_mem_nil _⟩
  | case4 => exact List.forall_mem_nil _

theorem spaced_broken (buf : List Byte) (linelen : ℤ) :
    Spaced (fun x => getVal x = -2) (letters buf) (broken linelen (letters buf)) := by
  have hletters : ∀ c ∈ letters buf, ¬ getVal c = -2 := by
    refine forall_letters (fun i hi => ?_) (by decide) buf
    rw [getVal_letter hi]
    omega
  rw [broken]
  split
  · exact .refl hletters
  · exact spaced_wrapped getVal_newline hletters

theorem asText_ascii (h : ∀ c ∈ cs, c.toNat < 256) : asText (cs.map ascii) = cs := by
  rw [asText, List.map_map, List.map_congr_left (g := id), List.map_id]
  intro c hc
  rw [Function.comp_apply, ascii, BitVec.toNat_ofNat, Nat.mod_eq_of_lt (h c hc), Char.ofNat_toNat]
  rfl

/-- The device writes the same text. -/
theorem asText_encodeLen (buf : List Byte) (h : linelen = -1 ∨ 0 < linelen) :
    asText (Device.encodeLen buf linelen) = broken linelen (letters buf) := by
  have hletters : ∀ c ∈ letters buf, c.toNat < 256 :=
    forall_letters (fun i hi => letter_lt hi) (by decide) buf
  rw [encodeLen_eq buf h]
  refine asText_ascii ?_
  rw [broken]
  split
  · exact hletters
  · exact forall_wrapped (by decide) hletters

end Lines

/-! ### The round trip -/

/-- The two encoders make one text of the bytes, and it is decoded to them. -/
def RoundTrips (buf : List Byte) (linelen : ℤ) : Prop :=
  ∃ text, encode buf linelen = .ok text ∧ decode text = .ok buf ∧
    asText (Device.encodeLen buf linelen) = text ∧
    decode (asText (Device.encodeLen buf linelen)) = .ok buf

/-- The bytes come back if the text is not too long for the result to be allocated. -/
theorem round_trip_iff (buf : List Byte) (linelen : ℤ) (h : linelen = -1 ∨ 0 < linelen) :
    RoundTrips buf linelen ↔
      textLength buf.length linelen < 0x80000000 ∧ Allocates (textLength buf.length linelen) := by
  have htext := encodeBody_append buf h
  rw [RoundTrips, asText_encodeLen buf h, ← length_broken buf h]
  constructor
  · rintro ⟨text, hencode, hdecode, -⟩
    simp only [encode, htext] at hencode
    split at hencode
    · obtain rfl := Except.ok.inj hencode
      refine ⟨‹_›, not_lt.mp fun hneg => ?_⟩
      rw [decode, if_pos hneg] at hdecode
      cases hdecode
    · cases hencode
  · rintro ⟨hfits, halloc⟩
    have hdecode := decode_of_spaced (spaced_broken buf linelen) halloc
    refine ⟨_, ?_, hdecode, rfl, hdecode⟩
    simp only [encode, htext, if_pos hfits]

/-- Five bytes in lines of three characters: there is a break inside of both groups. -/
theorem round_trip_five : RoundTrips [1, 2, 3, 4, 5] 3 :=
  (round_trip_iff [1, 2, 3, 4, 5] 3 (.inr (by decide))).mpr (by decide)

/-- A text of 357913944 characters: their bits are a negative number. -/
theorem not_round_trip : ¬ ∀ (buf : List Byte) (linelen : ℤ), linelen = -1 ∨ 0 < linelen →
    RoundTrips buf linelen := by
  intro h
  obtain ⟨text, hencode, hdecode, -⟩ := h (List.replicate 268435456 0) (-1) (.inl rfl)
  have hlen : text.length = 357913944 := by
    have htext := encodeBody_append (List.replicate 268435456 0) (.inl (rfl : (-1 : ℤ) = -1))
    have hcount := length_broken (List.replicate 268435456 0) (.inl (rfl : (-1 : ℤ) = -1))
    simp only [encode, htext] at hencode
    split at hencode
    · obtain rfl := Except.ok.inj hencode
      rw [hcount, List.length_replicate]
      rfl
    · cases hencode
  have hneg : (bits text.length).tdiv 8 < 0 := by
    rw [hlen]
    decide
  rw [decode, if_pos hneg] at hdecode
  cases hdecode

end Base64
end Sedona
