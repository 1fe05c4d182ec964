import Mathlib.Data.List.GetD
import Mathlib.Data.List.Range

/-!
# Files Written in Chunks

A file as a list of values, written at any position. What lies between its end and a write behind
it is filled. A value is cut into chunks of one size, the last one possibly shorter, which are
written at multiples of the size, in any order.

## Main results

* `getD_writeAt`, `length_writeAt`: what a write leaves.
* `writeAt_comm`: writes that do not overlap can be exchanged.
* `flatMap_chunk`: the chunks of a value in order are the value.
* `writeChunks_perm`: the chunks of a value, written in any order, are the value written at once.
-/

namespace ChunkedFile

variable {α : Type} (fill : α)

/-! ### Writing -/

/-- The values `bs` written from a position on. -/
def writeAt (file : List α) (pos : ℕ) (bs : List α) : List α :=
  if bs = [] then file
  else
    (file ++ List.replicate (pos - file.length) fill).take pos ++ bs ++
      file.drop (pos + bs.length)

variable {fill} {file bs cs : List α} {pos i : ℕ}

@[simp] theorem writeAt_nil : writeAt fill file pos [] = file := if_pos rfl

theorem length_writeAt :
    (writeAt fill file pos bs).length =
      if bs = [] then file.length else max file.length (pos + bs.length) := by
  unfold writeAt
  split
  · rfl
  · simp only [List.length_append, List.length_take, List.length_replicate, List.length_drop]
    omega

theorem getD_writeAt :
    (writeAt fill file pos bs).getD i fill =
      if pos ≤ i ∧ i < pos + bs.length then bs.getD (i - pos) fill else file.getD i fill := by
  unfold writeAt
  split
  case isTrue hbs =>
    rw [if_neg]
    rw [hbs, List.length_nil]
    omega
  case isFalse hbs =>
    have hlen : ((file ++ List.replicate (pos - file.length) fill).take pos).length = pos := by
      simp only [List.length_take, List.length_append, List.length_replicate]
      omega
    simp only [List.getD_eq_getElem?_getD, List.append_assoc]
    rcases Nat.lt_or_ge i pos with hi | hi
    · -- in front of what is written
      rw [if_neg (by omega), List.getElem?_append_left (by omega), List.getElem?_take_of_lt hi]
      rcases Nat.lt_or_ge i file.length with hfile | hfile
      · rw [List.getElem?_append_left hfile]
      · rw [List.getElem?_append_right hfile, List.getElem?_replicate_of_lt (by omega),
          List.getElem?_eq_none hfile]
        rfl
    · rw [List.getElem?_append_right (by omega), hlen]
      rcases Nat.lt_or_ge i (pos + bs.length) with hend | hend
      · rw [if_pos ⟨hi, hend⟩, List.getElem?_append_left (by omega)]
      · rw [if_neg (by omega), List.getElem?_append_right (by omega), List.getElem?_drop]
        congr 2
        omega

variable (fill) in
/-- Files of one length with the same values are the same. -/
theorem ext_getD {l l' : List α} (hlen : l.length = l'.length)
    (h : ∀ i, l.getD i fill = l'.getD i fill) : l = l' := by
  refine List.ext_getElem hlen fun i hi hi' => ?_
  have := h i
  rwa [List.getD_eq_getElem _ _ hi, List.getD_eq_getElem _ _ hi'] at this

/-- Writes that do not overlap can be exchanged. -/
theorem writeAt_comm {pos' : ℕ} (h : pos + bs.length ≤ pos' ∨ pos' + cs.length ≤ pos) :
    writeAt fill (writeAt fill file pos bs) pos' cs =
      writeAt fill (writeAt fill file pos' cs) pos bs := by
  refine ext_getD fill ?_ fun i => ?_
  · simp only [length_writeAt]
    split <;> split <;> omega
  · simp only [getD_writeAt]
    split <;> split <;> first | rfl | omega

/-- A write directly behind another one. -/
theorem writeAt_append :
    writeAt fill (writeAt fill file pos bs) (pos + bs.length) cs =
      writeAt fill file pos (bs ++ cs) := by
  refine ext_getD fill ?_ fun i => ?_
  · simp only [length_writeAt, List.append_eq_nil_iff, List.length_append]
    rcases eq_or_ne bs [] with rfl | hbs
    · simp
    · rcases eq_or_ne cs [] with rfl | hcs
      · simp
      · simp only [hbs, hcs, false_and, if_false]
        omega
  · simp only [getD_writeAt, List.length_append]
    rcases Nat.lt_or_ge i (pos + bs.length) with hi | hi
    · rw [if_neg (by omega)]
      by_cases hpos : pos ≤ i
      · rw [if_pos ⟨hpos, hi⟩, if_pos (by omega), List.getD_append _ _ _ _ (by omega)]
      · rw [if_neg (by omega), if_neg (by omega)]
    · rw [if_neg (c := pos ≤ i ∧ i < pos + bs.length) (by omega)]
      by_cases hend : i < pos + bs.length + cs.length
      · rw [if_pos ⟨hi, hend⟩, if_pos (by omega), List.getD_append_right _ _ _ _ (by omega)]
        congr 1
        omega
      · rw [if_neg (by omega), if_neg (by omega)]

/-! ### Chunks -/

/-- The chunk of a number. -/
def chunk (size : ℕ) (data : List α) (i : ℕ) : List α := (data.drop (i * size)).take size

/-- The number of chunks. -/
def numChunks (size : ℕ) (data : List α) : ℕ :=
  data.length / size + if data.length % size = 0 then 0 else 1

variable {size : ℕ} {data : List α}

theorem length_chunk_le (i : ℕ) : (chunk size data i).length ≤ size := by
  rw [chunk, List.length_take]
  omega

theorem length_le_numChunks (hsize : 0 < size) : data.length ≤ numChunks size data * size := by
  have hmod := Nat.div_add_mod data.length size
  have hlt := Nat.mod_lt data.length hsize
  unfold numChunks
  rw [Nat.add_mul, Nat.mul_comm _ size]
  split <;> omega

/-- Every chunk but the last one is full. -/
theorem mul_le_length (h : i < numChunks size data) : i * size ≤ data.length := by
  have hmod := Nat.div_add_mod data.length size
  have hle : i ≤ data.length / size := by
    unfold numChunks at h
    split at h <;> omega
  have := Nat.mul_le_mul_right size hle
  rw [Nat.mul_comm (data.length / size)] at this
  omega

/-- The last chunk is what remains, and the others are full. -/
theorem length_chunk (hsize : 0 < size) (h : i < numChunks size data) :
    (chunk size data i).length =
      if i + 1 = numChunks size data ∧ data.length % size ≠ 0 then data.length % size else size := by
  have hmod := Nat.div_add_mod data.length size
  have hlt := Nat.mod_lt data.length hsize
  have hlen : (chunk size data i).length = min size (data.length - i * size) := by
    rw [chunk, List.length_take, List.length_drop]
  rw [hlen]
  unfold numChunks at h ⊢
  by_cases hlast : i = data.length / size
  · subst hlast
    rw [Nat.mul_comm size] at hmod
    split at h
    · omega
    · rw [if_pos (by split <;> omega)]
      omega
  · have hle : (i + 1) * size ≤ data.length / size * size :=
      Nat.mul_le_mul_right size (by split at h <;> omega)
    rw [Nat.add_one_mul, Nat.mul_comm (data.length / size)] at hle
    rw [if_neg (by split <;> omega)]
    omega

/-- **All chunks, one after the other, are the value.** -/
theorem flatMap_chunk (hsize : 0 < size) :
    (List.range (numChunks size data)).flatMap (chunk size data) = data := by
  have hfirst : ∀ n, (List.range n).flatMap (chunk size data) = data.take (n * size) := by
    intro n
    induction n with
    | zero => simp
    | succ n ih =>
        rw [List.range_succ, List.flatMap_append, ih, List.flatMap_singleton, Nat.add_one_mul,
          List.take_add, chunk]
  rw [hfirst, List.take_of_length_le (length_le_numChunks hsize)]

variable (fill) in
/-- The chunks of these numbers, written one after the other. -/
def writeChunks (file : List α) (pos size : ℕ) (data : List α) (is : List ℕ) : List α :=
  is.foldl (fun file i => writeAt fill file (pos + i * size) (chunk size data i)) file

theorem writeChunks_concat {is : List ℕ} :
    writeChunks fill file pos size data (is ++ [i]) =
      writeAt fill (writeChunks fill file pos size data is) (pos + i * size)
        (chunk size data i) := by
  rw [writeChunks, List.foldl_append]
  rfl

/-- The chunks up to some number, in order. -/
theorem writeChunks_range {n : ℕ} (hn : n ≤ numChunks size data) :
    writeChunks fill file pos size data (List.range n) =
      writeAt fill file pos (data.take (n * size)) := by
  induction n with
  | zero => simp [writeChunks]
  | succ n ih =>
      have hlen : (data.take (n * size)).length = n * size :=
        List.length_take_of_le (mul_le_length hn)
      have hsplit : data.take ((n + 1) * size) =
          data.take (n * size) ++ chunk size data n := by
        rw [Nat.add_one_mul, List.take_add, chunk]
      rw [List.range_succ, writeChunks_concat, ih (by omega), hsplit, ← writeAt_append, hlen]

/-- **The chunks in any order are the value at once.** -/
theorem writeChunks_perm (hsize : 0 < size) {is : List ℕ}
    (h : is.Perm (List.range (numChunks size data))) :
    writeChunks fill file pos size data is = writeAt fill file pos data := by
  have hcomm : ∀ i j (file : List α),
      writeAt fill (writeAt fill file (pos + i * size) (chunk size data i)) (pos + j * size)
        (chunk size data j) =
      writeAt fill (writeAt fill file (pos + j * size) (chunk size data j)) (pos + i * size)
        (chunk size data i) := by
    intro i j file
    rcases Nat.lt_trichotomy i j with hij | rfl | hij
    · have hi : (chunk size data i).length ≤ size := length_chunk_le i
      have := Nat.mul_le_mul_right size (Nat.succ_le_of_lt hij)
      rw [Nat.succ_mul] at this
      exact writeAt_comm (.inl (by omega))
    · rfl
    · have hj : (chunk size data j).length ≤ size := length_chunk_le j
      have := Nat.mul_le_mul_right size (Nat.succ_le_of_lt hij)
      rw [Nat.succ_mul] at this
      exact writeAt_comm (.inr (by omega))
  rw [writeChunks, h.foldl_eq' fun i _ j _ file => hcomm i j file]
  have hrange : writeChunks fill file pos size data (List.range (numChunks size data)) = _ :=
    writeChunks_range le_rfl
  rw [writeChunks] at hrange
  rw [hrange, List.take_of_length_le (length_le_numChunks hsize)]

end ChunkedFile
