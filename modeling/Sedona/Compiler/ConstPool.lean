import Sedona.Compiler.BlockIndices
import Sedona.Library.Words

/-!
# The Entries of the Constant Pool

The literals of a program are written behind its objects, one entry for each: its bytes in the
byte order of the device, from a block index on. An array of strings has the strings in front of
the cells with their block indices.

## Main results

* `emit_fixed`, `emit_entry`: what a sequence of writes appends.
* `Stores`: what the entry of a literal does, with a lemma for each kind (`stores_arrayEntry`).
-/

namespace Sedona.ImageGen

open ByteCells Write

/-! ### Literals -/

/-- The literals that the code of a program refers to. -/
def Addr.isLiteral : Addr → Bool
  | .int _ | .long _ | .float _ | .double _ | .str _ | .buf _ | .array _ => true
  | _ => false

/-- The size of the elements of an array. -/
def ArrayLit.unit : ArrayLit → ℕ
  | .bytes _ => 1
  | .strs _ | .shorts _ => 2
  | .ints _ | .floats _ => 4
  | .longs _ | .doubles _ => 8

/-- The size that a literal is aligned to. -/
def Addr.unit : Addr → ℕ
  | .int _ | .float _ => 4
  | .long _ | .double _ => 8
  | .buf _ => 2
  | .array a => a.unit
  | _ => 1

/-- The bytes of a double, in two words on ARM. -/
def f8Bytes (img : SCodeImage) (bits : BitVec 64) : List Byte :=
  if img.armDouble then
    Gen.i4Bytes img ((bits >>> 32).truncate 32) ++ Gen.i4Bytes img (bits.truncate 32)
  else Gen.i8Bytes img bits

/-- The bytes of an array, for the block indices of its strings. -/
def arrayBytes (img : SCodeImage) (ix : Addr → ℕ) (a : ArrayLit) : List Byte :=
  match a with
  | .strs vals => vals.zipIdx.flatMap fun s =>
      u2Bytes img.bigEndian (BitVec.ofNat 32 (ix (.arrayStr a s.2)))
  | .bytes vals => vals.flatMap Gen.u1Bytes
  | .shorts vals => vals.flatMap (u2Bytes img.bigEndian)
  | .ints vals => vals.flatMap (Gen.i4Bytes img)
  | .longs vals => vals.flatMap (Gen.i8Bytes img)
  | .floats vals => vals.flatMap (Gen.i4Bytes img)
  | .doubles vals => vals.flatMap (f8Bytes img)

/-- The bytes of a literal. -/
def literalBytes (img : SCodeImage) (ix : Addr → ℕ) : Addr → List Byte
  | .int v => Gen.i4Bytes img v
  | .long v => Gen.i8Bytes img v
  | .float bits => Gen.i4Bytes img bits
  | .double bits => f8Bytes img bits
  | .str s => stringBytes s.toList
  | .buf b => u2Bytes img.bigEndian (BitVec.ofNat 32 b.size) ++
      u2Bytes img.bigEndian (BitVec.ofNat 32 b.size) ++ b.bytes
  | .array a => arrayBytes img ix a
  | _ => []

/-- The strings of an array literal, with where they are. -/
def stringParts (img : SCodeImage) (ix : Addr → ℕ) (lit : ArrayLit) (vals : List (String × ℕ)) :
    List (ℕ × List Byte) :=
  vals.map fun s => (img.blockSize * ix (.arrayStr lit s.2), stringBytes s.1.toList)

/-- The parts of a literal in the image, each at its position. -/
def literalParts (img : SCodeImage) (ix : Addr → ℕ) (a : Addr) : List (ℕ × List Byte) :=
  (img.blockSize * ix a, literalBytes img ix a) ::
    match a with
    | .array (.strs vals) => stringParts img ix (.strs vals) vals.zipIdx
    | _ => []

/-- Two parts have no byte in common. -/
def PartsApart (p q : ℕ × List Byte) : Prop :=
  p.1 + p.2.length ≤ q.1 ∨ q.1 + q.2.length ≤ p.1

theorem PartsApart.symm {p q : ℕ × List Byte} (h : PartsApart p q) : PartsApart q p := Or.symm h

/-! ### What is appended -/

/-- Writes that append the same bytes at every position, and checks. -/
def Write.isFixed : Write → Bool
  | .u1 _ | .u2 .. | .i4 _ | .i8 _ | .append _ | .u2BlockIndex _ | .checkPlaced _ | .checkSize _
  | .checkBlock | .throw _ => true
  | _ => false

/-- The bytes of such a write. -/
def Write.bytes (img : SCodeImage) (ix : Addr → ℕ) : Write → List Byte
  | .u1 v => Gen.u1Bytes v
  | .u2 v _ => u2Bytes img.bigEndian v
  | .i4 v => Gen.i4Bytes img v
  | .i8 v => Gen.i8Bytes img v
  | .append b => b.bytes
  | .u2BlockIndex a => u2Bytes img.bigEndian (BitVec.ofNat 32 (ix a))
  | _ => []

/-- Writes of padding. -/
def Write.isPad : Write → Bool
  | .align _ | .blockAlign => true
  | _ => false

variable {img : SCodeImage} {s s' s₁ : Gen} {a : Addr}

theorem emit_split {σ : Type} [Emitter σ] {s s' : σ} {ws vs : List Write}
    (h : emit img s (ws ++ vs) = .ok s') :
    ∃ s₁, emit img s ws = .ok s₁ ∧ emit img s₁ vs = .ok s' := by
  rw [emit, List.foldlM_append] at h
  exact Lockstep.bind_eq_ok.mp h

theorem emit_first {w : Write} {ws : List Write} (h : emit img s (w :: ws) = .ok s') :
    ∃ s₁, s.write img w = .ok s₁ ∧ emit img s₁ ws = .ok s' := by
  rw [emit, List.foldlM_cons] at h
  exact Lockstep.bind_eq_ok.mp h

@[simp] theorem append_nil (s : Gen) : s.append [] = s := by
  rw [Gen.append, List.append_nil]

theorem append_append (s : Gen) (bs cs : List Byte) :
    (s.append bs).append cs = s.append (bs ++ cs) := by
  simp only [Gen.append, List.append_assoc]

theorem write_fixed {w : Write} (hw : w.isFixed) (h : s.write img w = .ok s') :
    s' = s.append (w.bytes img s.blockIndex) := by
  cases w with
  | u1 v | append b => exact (Except.ok.inj h).symm
  | u2 v checkAlign | u2BlockIndex b =>
    simp only [Gen.write, Gen.u2] at h
    split at h
    · cases h
    · exact (Except.ok.inj h).symm
  | i4 v | i8 v =>
    simp only [Gen.write] at h
    split at h
    · cases h
    · exact (Except.ok.inj h).symm
  | checkPlaced b | checkSize n =>
    simp only [Gen.write] at h
    split at h
    · cases h
    · obtain rfl := Except.ok.inj h
      exact (append_nil s).symm
  | checkBlock =>
    simp only [Gen.write] at h
    split at h
    · cases h
    · split at h
      · cases h
      · obtain rfl := Except.ok.inj h
        exact (append_nil s).symm
  | throw msg => cases h
  | _ => cases hw

/-- **What fixed writes append.** -/
theorem emit_fixed {ws : List Write} (hws : ∀ w ∈ ws, w.isFixed) (h : emit img s ws = .ok s') :
    s' = s.append (ws.flatMap (Write.bytes img s.blockIndex)) := by
  induction ws generalizing s with
  | nil => rw [List.flatMap_nil, append_nil, Except.ok.inj h]
  | cons w ws ih =>
    rw [List.forall_mem_cons] at hws
    obtain ⟨s₁, hw, hrest⟩ := emit_first h
    obtain rfl := write_fixed hws.1 hw
    rw [ih hws.2 hrest, append_append, List.flatMap_cons]
    rfl

theorem write_pad {w : Write} (hw : w.isPad) (h : s.write img w = .ok s') :
    ∃ n, s' = s.pad n := by
  cases w with
  | align n => exact ⟨_, (Except.ok.inj h).symm⟩
  | blockAlign =>
    simp only [Gen.write] at h
    split at h
    · cases h
    · exact ⟨_, (Except.ok.inj h).symm⟩
  | _ => cases hw

theorem emit_pads {ws : List Write} (hws : ∀ w ∈ ws, w.isPad) (h : emit img s ws = .ok s') :
    ∃ n, s' = s.pad n := by
  induction ws generalizing s with
  | nil => exact ⟨0, by rw [Gen.pad, List.replicate_zero, append_nil, Except.ok.inj h]⟩
  | cons w ws ih =>
    rw [List.forall_mem_cons] at hws
    obtain ⟨s₁, hw, hrest⟩ := emit_first h
    obtain ⟨n, rfl⟩ := write_pad hws.1 hw
    obtain ⟨m, rfl⟩ := ih hws.2 hrest
    exact ⟨n + m, by rw [Gen.pad, Gen.pad, Gen.pad, append_append, List.replicate_append_replicate]⟩

theorem dvd_add_padding {n : ℕ} (hn : 0 < n) (size : ℕ) : n ∣ size + padding n size := by
  rw [padding]
  split
  · next h => exact Nat.dvd_of_mod_eq_zero h
  · have hlt := Nat.mod_lt size hn
    refine ⟨size / n + 1, ?_⟩
    have hdiv := Nat.div_add_mod size n
    rw [Nat.mul_succ]
    omega

/-- `code.align(n)`. -/
theorem emit_align {n : ℕ} {ws : List Write} (hn : 0 < n)
    (h : emit img s (align n :: ws) = .ok s') :
    ∃ k, n ∣ (s.pad k).code.length ∧ emit img (s.pad k) ws = .ok s' := by
  obtain ⟨s₁, hw, hrest⟩ := emit_first h
  obtain rfl := Except.ok.inj hw
  refine ⟨_, ?_, hrest⟩
  simp only [Gen.pad, Gen.append, List.length_append, List.length_replicate]
  exact dvd_add_padding hn _

/-- The state in which an object has its block index. -/
def Gen.placeAt (s : Gen) (a : Addr) (k : ℕ) : Gen :=
  { s with blockIndex := Function.update s.blockIndex a k }

theorem placeAt_self (s : Gen) (a : Addr) (k : ℕ) : (s.placeAt a k).blockIndex a = k :=
  Function.update_self ..

theorem placeAt_ne (s : Gen) {a b : Addr} (k : ℕ) (h : b ≠ a) :
    (s.placeAt a k).blockIndex b = s.blockIndex b :=
  Function.update_of_ne h ..

/-- An object is placed where the buffer ends. -/
theorem emit_place {ws : List Write} (h : emit img s (place a :: ws) = .ok s') :
    ∃ k, img.blockSize * k = s.code.length ∧ emit img (s.placeAt a k) ws = .ok s' := by
  obtain ⟨s₁, hw, hrest⟩ := emit_first h
  obtain ⟨ix, hix, hw⟩ := Lockstep.bind_eq_ok.mp hw
  obtain rfl := Except.ok.inj hw
  refine ⟨ix, ?_, hrest⟩
  rw [Gen.blockIndexHere] at hix
  split at hix
  · cases hix
  · split at hix
    · cases hix
    · next hmod =>
      rw [← Except.ok.inj hix]
      exact Nat.mul_div_cancel' (Nat.dvd_of_mod_eq_zero (Decidable.not_not.mp hmod))

/-- An object, its bytes, and padding. -/
theorem emit_entry {body : List Write} (pads : List Write) (hbody : ∀ w ∈ body, w.isFixed)
    (hpads : ∀ w ∈ pads, w.isPad) (h : emit img s (place a :: (body ++ pads)) = .ok s') :
    ∃ k n, img.blockSize * k = s.code.length ∧
      s' = ((s.placeAt a k).append
        (body.flatMap (Write.bytes img (s.placeAt a k).blockIndex))).pad n := by
  obtain ⟨k, hk, h⟩ := emit_place h
  obtain ⟨s₁, hb, hp⟩ := emit_split h
  obtain rfl := emit_fixed hbody hb
  obtain ⟨n, rfl⟩ := emit_pads hpads hp
  exact ⟨k, n, hk, rfl⟩

/-! ### Entries -/

/-- The strings of a literal. -/
def Addr.strings : Addr → List String
  | .str s => [s]
  | .array (.strs vals) => vals
  | _ => []

/-- The parts `parts` are in what was appended to `s`. -/
structure Appended (s s' : Gen) (parts : List (ℕ × List Byte)) : Prop where
  code : ∃ bs, s'.code = s.code ++ bs
  backpatch : s'.backpatch = s.backpatch
  stored {p : ℕ × List Byte} (hp : p ∈ parts) :
    s.code.length ≤ p.1 ∧ p.1 + p.2.length ≤ s'.code.length ∧ p.2 <+: s'.code.drop p.1
  apart : parts.Pairwise PartsApart

namespace Appended

variable {ps qs : List (ℕ × List Byte)}

theorem length_le (h : Appended s s' ps) : s.code.length ≤ s'.code.length := by
  obtain ⟨bs, hbs⟩ := h.code
  rw [hbs, List.length_append]
  exact Nat.le_add_right _ _

theorem refl (s : Gen) : Appended s s [] where
  code := ⟨[], (List.append_nil _).symm⟩
  backpatch := rfl
  stored hp := absurd hp List.not_mem_nil
  apart := List.Pairwise.nil

/-- What is written later is behind. -/
theorem trans (h : Appended s s₁ ps) (h' : Appended s₁ s' qs) : Appended s s' (ps ++ qs) where
  code := by
    obtain ⟨bs, hbs⟩ := h.code
    obtain ⟨bs', hbs'⟩ := h'.code
    exact ⟨bs ++ bs', by rw [hbs', hbs, List.append_assoc]⟩
  backpatch := h'.backpatch.trans h.backpatch
  stored {p} hp := by
    rcases List.mem_append.mp hp with hp | hp
    · obtain ⟨hlo, hhi, hprefix⟩ := h.stored hp
      obtain ⟨bs, hbs⟩ := h'.code
      refine ⟨hlo, hhi.trans h'.length_le, ?_⟩
      rw [hbs]
      exact prefix_drop_of_append hprefix ((Nat.le_add_right _ _).trans hhi) bs
    · obtain ⟨hlo, hhi, hprefix⟩ := h'.stored hp
      exact ⟨h.length_le.trans hlo, hhi, hprefix⟩
  apart := List.pairwise_append.mpr ⟨h.apart, h'.apart, fun _ hp _ hq =>
    .inl ((h.stored hp).2.1.trans (h'.stored hq).1)⟩

theorem perm (h : Appended s s' ps) (hperm : ps.Perm qs) : Appended s s' qs where
  __ := h
  stored hp := h.stored (hperm.mem_iff.mpr hp)
  apart := (hperm.pairwise_iff PartsApart.symm).mp h.apart

/-- Bytes at the end that are not of interest. -/
theorem append (s : Gen) (bs : List Byte) : Appended s (s.append bs) [] where
  code := ⟨bs, rfl⟩
  backpatch := rfl
  stored hp := absurd hp List.not_mem_nil
  apart := List.Pairwise.nil

/-- A part that is placed at the end, and padding. -/
theorem part (s : Gen) (a : Addr) (k : ℕ) (bs : List Byte) (n : ℕ) :
    Appended s (((s.placeAt a k).append bs).pad n) [(s.code.length, bs)] where
  code := ⟨_, by simp only [Gen.pad, Gen.append, Gen.placeAt, List.append_assoc]; rfl⟩
  backpatch := rfl
  stored {p} hp := by
    obtain rfl := List.mem_singleton.mp hp
    refine ⟨le_rfl, ?_, prefix_drop_append _ _ _⟩
    simp only [Gen.pad, Gen.append, Gen.placeAt, List.length_append]
    exact Nat.le_add_right _ _
  apart := List.pairwise_singleton ..

end Appended

/-- What the entry of a literal does: its parts are appended, and nothing else is placed. -/
structure Stores (img : SCodeImage) (s s' : Gen) (a : Addr) : Prop extends
    Appended s s' (literalParts img s'.blockIndex a) where
  frame {b : Addr} (hne : b ≠ a) (hstr : ∀ lit j, a = .array lit → b ≠ .arrayStr lit j) :
    s'.blockIndex b = s.blockIndex b
  aligned (harm : ∀ bits, a = .double bits → img.armDouble = false) :
    a.unit ∣ img.blockSize * s'.blockIndex a
  chars {str : String} (hstr : str ∈ a.strings) {c : Char} (hc : c ∈ str.toList) : c.toNat ≤ 255

/-- The literal has no strings as its elements. -/
def Addr.isWhole : Addr → Bool
  | .array (.strs _) => false
  | _ => true

theorem literalParts_of_isWhole (ha : a.isWhole) (ix : Addr → ℕ) :
    literalParts img ix a = [(img.blockSize * ix a, literalBytes img ix a)] := by
  cases a with
  | array lit =>
    cases lit with
    | strs vals => cases ha
    | _ => rfl
  | _ => rfl

/-- Padding in front of an entry. -/
theorem Stores.pad {n : ℕ} (h : Stores img (s.pad n) s' a) : Stores img s s' a where
  __ := h
  toAppended := (Appended.append s _).trans h.toAppended

/-- The entry of a literal that has one part. -/
theorem stores_of_emit (body pads : List Write) (ha : a.isWhole)
    (h : emit img s (place a :: (body ++ pads)) = .ok s')
    (hbody : ∀ w ∈ body, w.isFixed) (hpads : ∀ w ∈ pads, w.isPad)
    (hbytes : ∀ ix, body.flatMap (Write.bytes img ix) = literalBytes img ix a)
    (haligned : (∀ bits, a = .double bits → img.armDouble = false) → a.unit ∣ s.code.length)
    (hchars : ∀ str ∈ a.strings, ∀ c ∈ str.toList, c.toNat ≤ 255) : Stores img s s' a := by
  obtain ⟨k, n, hk, rfl⟩ := emit_entry pads hbody hpads h
  have hix : ((((s.placeAt a k).append
      (body.flatMap (Write.bytes img (s.placeAt a k).blockIndex))).pad n).blockIndex a) = k :=
    placeAt_self s a k
  refine ⟨?_, fun hne _ => placeAt_ne s k hne, fun harm => ?_, fun hstr _ hc => hchars _ hstr _ hc⟩
  · rw [literalParts_of_isWhole ha, hix, hk, hbytes]
    exact .part s a k _ n
  · rw [hix, hk]
    exact haligned harm

/-- The address of a four-byte word. -/
theorem dvd_of_emit_i4 {v : JInt} {ws : List Write}
    (h : emit img s (place a :: i4 v :: ws) = .ok s') : 4 ∣ s.code.length := by
  obtain ⟨k, -, h⟩ := emit_place h
  obtain ⟨s₁, hw, -⟩ := emit_first h
  simp only [Gen.write] at hw
  split at hw
  · cases hw
  · next hmod => exact Nat.dvd_of_mod_eq_zero (Decidable.not_not.mp hmod)

theorem dvd_of_emit_i8 {v : BitVec 64} {ws : List Write}
    (h : emit img s (place a :: i8 v :: ws) = .ok s') : 8 ∣ s.code.length := by
  obtain ⟨k, -, h⟩ := emit_place h
  obtain ⟨s₁, hw, -⟩ := emit_first h
  simp only [Gen.write] at hw
  split at hw
  · cases hw
  · next hmod => exact Nat.dvd_of_mod_eq_zero (Decidable.not_not.mp hmod)

theorem dvd_of_emit_u2 {v : JInt} {ws : List Write}
    (h : emit img s (place a :: u2 v :: ws) = .ok s') : 2 ∣ s.code.length := by
  obtain ⟨k, -, h⟩ := emit_place h
  obtain ⟨s₁, hw, -⟩ := emit_first h
  simp only [Gen.write, Gen.u2, Bool.true_and] at hw
  split at hw
  · cases hw
  · next hmod =>
    rw [decide_eq_true_eq, Decidable.not_not] at hmod
    exact Nat.dvd_of_mod_eq_zero hmod

theorem stores_intEntry {v : JInt} (h : emit img s (intEntry (.int v)) = .ok s') :
    Stores img s s' (.int v) :=
  stores_of_emit [i4 v] [blockAlign] rfl h (by simp [Write.isFixed])
    (by simp [Write.isPad]) (fun _ => List.flatMap_singleton ..) (fun _ => dvd_of_emit_i4 h)
    (by simp [Addr.strings])

theorem stores_floatEntry {bits : JInt} (h : emit img s (floatEntry (.float bits)) = .ok s') :
    Stores img s s' (.float bits) :=
  stores_of_emit [i4 bits] [blockAlign] rfl h (by simp [Write.isFixed])
    (by simp [Write.isPad]) (fun _ => List.flatMap_singleton ..) (fun _ => dvd_of_emit_i4 h)
    (by simp [Addr.strings])

theorem stores_longEntry {v : BitVec 64} (h : emit img s (longEntry (.long v)) = .ok s') :
    Stores img s s' (.long v) :=
  stores_of_emit [i8 v] [blockAlign] rfl h (by simp [Write.isFixed])
    (by simp [Write.isPad]) (fun _ => List.flatMap_singleton ..) (fun _ => dvd_of_emit_i8 h)
    (by simp [Addr.strings])

theorem isFixed_f8 (bits : BitVec 64) : ∀ w ∈ f8 img bits, w.isFixed := by
  rw [f8]
  split <;> simp [Write.isFixed]

theorem bytes_f8 (ix : Addr → ℕ) (bits : BitVec 64) :
    (f8 img bits).flatMap (Write.bytes img ix) = f8Bytes img bits := by
  rw [f8, f8Bytes]
  split <;> simp [Write.bytes]

theorem stores_doubleEntry {bits : BitVec 64}
    (h : emit img s (doubleEntry img (.double bits)) = .ok s') : Stores img s s' (.double bits) := by
  refine stores_of_emit (f8 img bits) [blockAlign] rfl h (isFixed_f8 bits)
    (by simp [Write.isPad]) (fun ix => bytes_f8 ix bits) (fun harm => ?_) (by simp [Addr.strings])
  simp only [doubleEntry, f8, harm bits rfl, Bool.false_eq_true, if_false, List.cons_append] at h
  exact dvd_of_emit_i8 h

/-- A check that has failed ends the generator. -/
theorem throw_notMem {ws : List Write} (msg : String) (h : emit img s ws = .ok s') :
    .throw msg ∉ ws := by
  induction ws generalizing s with
  | nil => exact List.not_mem_nil
  | cons w ws ih =>
    obtain ⟨s₁, hw, hrest⟩ := emit_first h
    rw [List.mem_cons, not_or]
    refine ⟨?_, ih hrest⟩
    rintro rfl
    cases hw

/-- The writes of the characters of a string and of the zero byte. -/
def stringWrites (val : String) : List Write :=
  val.toList.flatMap (fun ch =>
      failIf (0xff < ch.toNat) "Invalid string literal" ++ [u1 (BitVec.ofNat 32 ch.toNat)]) ++
    [u1 0#32]

theorem writeStrLiteral_eq (val : String) :
    writeStrLiteral val = stringWrites val ++ [blockAlign] := by
  rw [writeStrLiteral, stringWrites, List.append_assoc]
  rfl

theorem isFixed_stringWrites (val : String) : ∀ w ∈ stringWrites val, w.isFixed := by
  intro w hw
  rcases List.mem_append.mp hw with hw | hw
  · obtain ⟨c, -, hw⟩ := List.mem_flatMap.mp hw
    rw [failIf] at hw
    split at hw <;> simp only [List.cons_append, List.nil_append, List.mem_cons, List.not_mem_nil,
      or_false] at hw
    · rcases hw with rfl | rfl <;> rfl
    · subst hw
      rfl
  · rw [List.mem_singleton.mp hw]
    rfl

theorem u1Bytes_toNat (n : ℕ) : Gen.u1Bytes (BitVec.ofNat 32 n) = [BitVec.ofNat 8 n] := by
  rw [Gen.u1Bytes, BitVec.truncate_eq_setWidth, BitVec.setWidth_ofNat_of_le (by decide)]

theorem bytes_stringWrites (ix : Addr → ℕ) (val : String) :
    (stringWrites val).flatMap (Write.bytes img ix) = stringBytes val.toList := by
  rw [stringWrites, List.flatMap_append, List.flatMap_assoc, stringBytes, List.map_eq_flatMap]
  congr 1
  refine List.flatMap_congr fun c _ => ?_
  rw [failIf]
  split <;> simp [Write.bytes, u1Bytes_toNat]

theorem chars_stringWrites {val : String} {ws : List Write}
    (h : emit img s (stringWrites val ++ ws) = .ok s') {c : Char} (hc : c ∈ val.toList) :
    c.toNat ≤ 255 := by
  by_contra hlt
  refine throw_notMem "Invalid string literal" h ?_
  refine List.mem_append_left _ (List.mem_append_left _ (List.mem_flatMap.mpr ⟨c, hc, ?_⟩))
  rw [failIf, if_pos (decide_eq_true (by omega))]
  exact List.mem_cons_self ..

theorem stores_strEntry {str : String} (h : emit img s (strEntry (.str str)) = .ok s') :
    Stores img s s' (.str str) := by
  rw [strEntry, writeStrLiteral_eq] at h
  refine stores_of_emit _ _ rfl h (isFixed_stringWrites str) (by simp [Write.isPad])
    (fun ix => bytes_stringWrites ix str) (fun _ => one_dvd _) ?_
  obtain ⟨k, -, h⟩ := emit_place h
  intro str' hstr c hc
  rw [Addr.strings, List.mem_singleton] at hstr
  exact chars_stringWrites h (hstr ▸ hc)

theorem stores_bufEntry {b : Buf} (h : emit img s (bufEntry (.buf b)) = .ok s') :
    Stores img s s' (.buf b) :=
  stores_of_emit [u2 (BitVec.ofNat 32 b.size), u2 (BitVec.ofNat 32 b.size), append b]
    [align 2, blockAlign] rfl h (by simp [Write.isFixed]) (by simp [Write.isPad])
    (fun _ => by simp [Write.bytes, literalBytes]) (fun _ => dvd_of_emit_u2 h)
    (by simp [Addr.strings])

/-! ### Arrays -/

theorem stores_numbers {lit : ArrayLit} {n : ℕ} {body : List Write} (hn : 0 < n)
    (hunit : lit.unit = n) (ha : (Addr.array lit).isWhole)
    (h : emit img s (blockAlign :: ([align n, place (.array lit)] ++ body)) = .ok s')
    (hbody : ∀ w ∈ body, w.isFixed)
    (hbytes : ∀ ix, body.flatMap (Write.bytes img ix) = arrayBytes img ix lit)
    (hchars : (Addr.array lit).strings = []) : Stores img s s' (.array lit) := by
  obtain ⟨s₁, hpad, h⟩ := emit_first h
  obtain ⟨m, rfl⟩ := write_pad rfl hpad
  obtain ⟨k, hdvd, h⟩ := emit_align hn h
  rw [← List.append_nil body] at h
  refine (stores_of_emit _ [] ha h hbody (by simp) hbytes (fun _ => ?_) ?_).pad.pad
  · rw [Addr.unit, hunit]
    exact hdvd
  · rw [hchars]
    simp

theorem flatMap_bytes_map {α : Type} {f : α → Write} {g : α → List Byte} {ix : Addr → ℕ}
    (hfg : ∀ a, (f a).bytes img ix = g a) (as : List α) :
    (as.map f).flatMap (Write.bytes img ix) = as.flatMap g := by
  rw [List.flatMap_map]
  exact List.flatMap_congr fun a _ => hfg a

theorem flatMap_bytes_flatMap {α : Type} {f : α → List Write} {g : α → List Byte} {ix : Addr → ℕ}
    (hfg : ∀ a, (f a).flatMap (Write.bytes img ix) = g a) (as : List α) :
    (as.flatMap f).flatMap (Write.bytes img ix) = as.flatMap g := by
  rw [List.flatMap_assoc]
  exact List.flatMap_congr fun a _ => hfg a

/-- The string of an element, placed and written. -/
theorem appended_string {str : String} (h : emit img s (place a :: writeStrLiteral str) = .ok s') :
    Appended s s' [(img.blockSize * s'.blockIndex a, stringBytes str.toList)] ∧
      (∀ b, b ≠ a → s'.blockIndex b = s.blockIndex b) ∧ ∀ c ∈ str.toList, c.toNat ≤ 255 := by
  rw [writeStrLiteral_eq] at h
  obtain ⟨k, n, hk, rfl⟩ := emit_entry _ (isFixed_stringWrites str) (by simp [Write.isPad]) h
  have hix : ((((s.placeAt a k).append ((stringWrites str).flatMap
      (Write.bytes img (s.placeAt a k).blockIndex))).pad n).blockIndex a) = k := placeAt_self s a k
  refine ⟨?_, fun b hb => placeAt_ne s k hb, fun c hc => ?_⟩
  · rw [hix, hk, bytes_stringWrites]
    exact .part s a k _ n
  · obtain ⟨k, -, h⟩ := emit_place h
    exact chars_stringWrites h hc

/-- The strings in front of an array. -/
theorem appended_strings {lit : ArrayLit} {vals : List (String × ℕ)}
    (hnodup : (vals.map Prod.snd).Nodup)
    (h : emit img s (vals.flatMap fun v => place (.arrayStr lit v.2) :: writeStrLiteral v.1) =
      .ok s') :
    Appended s s' (stringParts img s'.blockIndex lit vals) ∧
      (∀ b, (∀ v ∈ vals, b ≠ .arrayStr lit v.2) → s'.blockIndex b = s.blockIndex b) ∧
      ∀ v ∈ vals, ∀ c ∈ v.1.toList, c.toNat ≤ 255 := by
  induction vals generalizing s with
  | nil =>
    obtain rfl := Except.ok.inj h
    exact ⟨.refl s, fun _ _ => rfl, fun v hv => absurd hv List.not_mem_nil⟩
  | cons v vals ih =>
    rw [List.map_cons, List.nodup_cons] at hnodup
    rw [List.flatMap_cons] at h
    obtain ⟨s₁, hfirst, hrest⟩ := emit_split h
    obtain ⟨happ, hframe, hchars⟩ := appended_string hfirst
    obtain ⟨happ', hframe', hchars'⟩ := ih hnodup.2 hrest
    have hv : s'.blockIndex (.arrayStr lit v.2) = s₁.blockIndex (.arrayStr lit v.2) := by
      refine hframe' _ fun w hw heq => hnodup.1 ?_
      rw [(Addr.arrayStr.inj heq).2]
      exact List.mem_map_of_mem hw
    refine ⟨?_, fun b hb => ?_, List.forall_mem_cons.mpr ⟨hchars, hchars'⟩⟩
    · rw [stringParts, List.map_cons, hv]
      exact happ.trans happ'
    · rw [List.forall_mem_cons] at hb
      rw [hframe' b hb.2, hframe b hb.1]

/-- **The entry of an array of strings**: the strings, then the cells with their block indices. -/
theorem stores_strings {vals : List String}
    (h : emit img s (arrayEntry img (.array (.strs vals))) = .ok s') :
    Stores img s s' (.array (.strs vals)) := by
  obtain ⟨s₁, hpad, h⟩ := emit_first h
  obtain ⟨m, rfl⟩ := write_pad rfl hpad
  rw [arrayValues, List.append_assoc] at h
  obtain ⟨s₂, hstrings, h⟩ := emit_split h
  obtain ⟨happ, hframe, hchars⟩ := appended_strings
    (by rw [List.zipIdx_map_snd]; exact List.nodup_range') hstrings
  obtain ⟨j, hdvd, h⟩ := emit_align Nat.two_pos h
  have hcells : ∀ w ∈ vals.zipIdx.map fun s => u2BlockIndex (.arrayStr (.strs vals) s.2),
      w.isFixed := by
    intro w hw
    obtain ⟨v, -, rfl⟩ := List.mem_map.mp hw
    rfl
  obtain ⟨k, n, hk, rfl⟩ := emit_entry [] hcells (by simp) (by rwa [List.append_nil])
  set bytes := (vals.zipIdx.map fun s => u2BlockIndex (.arrayStr (.strs vals) s.2)).flatMap
    (Write.bytes img ((s₂.pad j).placeAt (.array (.strs vals)) k).blockIndex) with hbytes
  let sEnd := (((s₂.pad j).placeAt (.array (.strs vals)) k).append bytes).pad n
  have hself : sEnd.blockIndex (.array (.strs vals)) = k := placeAt_self (s₂.pad j) _ k
  have hother : ∀ b, b ≠ .array (.strs vals) → sEnd.blockIndex b = s₂.blockIndex b := fun b hb =>
    placeAt_ne (s₂.pad j) k hb
  have hbytesEq : bytes = arrayBytes img sEnd.blockIndex (.strs vals) :=
    flatMap_bytes_map (fun _ => rfl) _
  have hparts : stringParts img sEnd.blockIndex (.strs vals) vals.zipIdx =
      stringParts img s₂.blockIndex (.strs vals) vals.zipIdx :=
    List.map_congr_left fun v _ => by rw [hother _ Addr.noConfusion]
  have hall : Appended s sEnd (literalParts img sEnd.blockIndex (.array (.strs vals))) := by
    have hcell := (Appended.append s₂ _).trans
      (Appended.part (s₂.pad j) (.array (.strs vals)) k bytes n)
    have hrun := ((Appended.append s _).trans happ).trans hcell
    rw [literalParts, hself, hk, literalBytes, ← hbytesEq, hparts]
    exact hrun.perm (List.perm_append_singleton _ _)
  refine ⟨hall, fun {b} hne hstr => ?_, fun _ => ?_, fun {str} hstr {c} hc => ?_⟩
  · rw [hother b hne, hframe b fun v _ => hstr _ _ rfl]
    rfl
  · rw [hself, hk]
    exact hdvd
  · obtain ⟨i, hi, rfl⟩ := List.getElem_of_mem hstr
    exact hchars (vals[i], i) (List.mk_mem_zipIdx_iff_getElem?.mpr (List.getElem?_eq_getElem hi)) c hc

/-- **The entry of an array.** -/
theorem stores_arrayEntry {lit : ArrayLit}
    (h : emit img s (arrayEntry img (.array lit)) = .ok s') : Stores img s s' (.array lit) := by
  have hmap : ∀ {α : Type} {f : α → Write} {as : List α}, (∀ a, (f a).isFixed) →
      ∀ w ∈ as.map f, w.isFixed := fun hf w hw => by
    obtain ⟨a, -, rfl⟩ := List.mem_map.mp hw
    exact hf a
  cases lit with
  | strs vals => exact stores_strings h
  | bytes vals =>
    obtain ⟨s₁, hpad, h⟩ := emit_first h
    obtain ⟨m, rfl⟩ := write_pad rfl hpad
    rw [arrayValues, ← List.append_nil (vals.map u1)] at h
    exact (stores_of_emit _ [] rfl h (hmap fun _ => rfl) (by simp)
      (fun _ => flatMap_bytes_map (fun _ => rfl) _) (fun _ => one_dvd _)
      (by simp [Addr.strings])).pad
  | shorts vals =>
    exact stores_numbers Nat.two_pos rfl rfl h (hmap fun _ => rfl)
      (fun _ => flatMap_bytes_map (fun _ => rfl) _) rfl
  | ints vals | floats vals =>
    exact stores_numbers (by decide : 0 < 4) rfl rfl h (hmap fun _ => rfl)
      (fun _ => flatMap_bytes_map (fun _ => rfl) _) rfl
  | longs vals =>
    exact stores_numbers (by decide : 0 < 8) rfl rfl h (hmap fun _ => rfl)
      (fun _ => flatMap_bytes_map (fun _ => rfl) _) rfl
  | doubles vals =>
    refine stores_numbers (by decide : 0 < 8) rfl rfl h (fun w hw => ?_)
      (fun ix => flatMap_bytes_flatMap (bytes_f8 ix) _) rfl
    obtain ⟨bits, -, hw⟩ := List.mem_flatMap.mp hw
    exact isFixed_f8 bits w hw

end Sedona.ImageGen
