import Mathlib.Data.Int.DivMod
import Mathlib.Logic.Function.Basic
import Sedona.Library.Transition
import Sedona.Pstore.PstoreValidate

/-!
# Claiming the Backing File

All files under a `PstoreService` share one backing file with one position. A file becomes its
owner with `claim`, which saves the position of the owner before and restores the position of the
new one. What the store of the backing file answers is an input of each operation: it can fail at
any time.

## Main results

* `positioned_of_runs`: a claim restores the position, where the saved one is in the reservation.
* `not_positioned`: a file that was left at the end of its reservation is not restored.
-/

namespace Sedona.Pstore

open Transition

/-! ### The backing file -/

/-- What the store answers in an operation. -/
structure Io where
  tell : Bool := true
  seek : Bool := true
  /-- The number of bytes that the write of the buffer stores before it fails. -/
  flush : Option ℕ := none
  /-- The same for a write of bytes. -/
  write : Option ℕ := none
  /-- The number of bytes that there are to read. -/
  available : ℕ := 0
deriving DecidableEq

/-- The store succeeds. -/
def Io.Succeeds (io : Io) : Prop := io.tell ∧ io.seek ∧ io.flush = none

instance (io : Io) : Decidable io.Succeeds := inferInstanceAs (Decidable (_ ∧ _))

/-- `File`, with the contents of the store. -/
structure File where
  bytes : ℤ → UInt8
  pos : ℤ
  /-- The bytes that are buffered by `FileOutStream.write`. -/
  fbuf : List UInt8

/-- The contents after bytes have been written at an offset. -/
def putBytes (m : ℤ → UInt8) (off : ℤ) (bs : List UInt8) : ℤ → UInt8 := fun a =>
  if off ≤ a then bs.getD (a - off).toNat (m a) else m a

namespace File

variable (io : Io) (f : File)

/-- `FileStore.writeBytes`, which stores as many bytes before it fails. -/
def storeWrite (fail : Option ℕ) (bs : List UInt8) : File × Bool :=
  let stored := match fail with
    | none => bs
    | some n => bs.take n
  ({ f with bytes := putBytes f.bytes f.pos stored, pos := f.pos + stored.length }, fail.isNone)

/-- `FileOutStream.writeBufToFile`. -/
def writeBufToFile : File × Bool :=
  let (f, ok) := f.storeWrite io.flush f.fbuf
  if ok then ({ f with fbuf := [] }, true) else (f, false)

/-- `FileOutStream.flush`. -/
def flush : File := if f.fbuf ≠ [] then (f.writeBufToFile io).1 else f

def tell : File × ℤ :=
  let f := f.flush io
  (f, if io.tell then f.pos else -1)

def seek (pos : ℤ) : File × Bool :=
  let f := f.flush io
  if io.seek then ({ f with pos := pos }, true) else (f, false)

/-- `FileOutStream.write`. -/
def write (b : UInt8) : File × Bool :=
  if 32 ≤ f.fbuf.length then
    let (f, ok) := f.writeBufToFile io
    if ok then ({ f with fbuf := f.fbuf ++ [b] }, true) else (f, false)
  else ({ f with fbuf := f.fbuf ++ [b] }, true)

/-- `FileOutStream.writeBytes`. -/
def writeBytes (bs : List UInt8) : File × Bool :=
  let f := if f.fbuf ≠ [] then (f.writeBufToFile io).1 else f
  f.storeWrite io.write bs

/-- `FileInStream.readBytes`, or `read` for one byte: the bytes that have been read. -/
def readBytes (len : ℕ) : File × List UInt8 :=
  let n := min len io.available
  ({ f with pos := f.pos + n }, (List.range n).map fun k : ℕ => f.bytes (f.pos + k))

end File

/-! ### Operations of the files -/

/-- An `int`. -/
def int32 (x : ℤ) : ℤ := x.bmod 0x100000000

variable {ι : Type} [DecidableEq ι]

/-- The service, and the `pos` of its files. -/
structure State (ι : Type) where
  owner : Option ι
  saved : ι → ℤ
  file : File

namespace State

variable (fs : ι → PstoreFile) (i : ι) (io : Io) (st : State ι)

/-- `PstoreFile.tell`. -/
def tell : State ι × ℤ :=
  if st.owner ≠ some i then (st, -1)
  else
    let (file, pos) := st.file.tell io
    ({ st with file }, int32 (pos - (fs i).resvOffset.toInt))

/-- `PstoreFile.seek`. -/
def seek (pos : ℤ) : State ι × Bool :=
  if st.owner ≠ some i ∨ pos < 0 ∨ (fs i).resvSize.toInt ≤ pos then (st, false)
  else
    let (file, ok) := st.file.seek io (int32 ((fs i).resvOffset.toInt + pos))
    ({ st with file }, ok)

/-- Saves away the position of the old owner. -/
def saveOwner : State ι :=
  match st.owner with
  | none => st
  | some old =>
      let (st, pos) := st.tell fs old io
      { st with saved := Function.update st.saved old pos }

/-- `PstoreFile.claim`, with the answers of the store for the old owner and for the new one. -/
def claim (io' : Io) : State ι × Bool :=
  if st.owner = some i then (st, true)
  else
    let st := { st.saveOwner fs io with owner := some i }
    ((st.seek fs i io' (st.saved i)).1, true)

/-- An operation on one of the streams, which reach the backing file for the owner only. -/
def stream (op : File → File) : State ι :=
  if st.owner = some i then { st with file := op st.file } else st

end State

/-! ### Runs -/

inductive Op (ι : Type) where
  | claim (i : ι) (io io' : Io)
  | tell (i : ι) (io : Io)
  | seek (i : ι) (pos : ℤ) (io : Io)
  | readBytes (i : ι) (len : ℕ) (io : Io)
  | write (i : ι) (b : UInt8) (io : Io)
  | writeBytes (i : ι) (bs : List UInt8) (io : Io)

def State.next (fs : ι → PstoreFile) (st : State ι) : Op ι → State ι
  | .claim i io io' => (st.claim fs i io io').1
  | .tell i io => (st.tell fs i io).1
  | .seek i pos io => (st.seek fs i io pos).1
  | .readBytes i len io => st.stream i fun f => (f.readBytes io len).1
  | .write i b io => st.stream i fun f => (f.write io b).1
  | .writeBytes i bs io => st.stream i fun f => (f.writeBytes io bs).1

/-- A state with what a claim is judged by. -/
structure Track (ι : Type) where
  state : State ι
  /-- The position that a file had when it was last unclaimed, relative to its reservation. -/
  left : ι → ℤ
  /-- The file that the last operation has claimed, unless it was the owner before. -/
  claimed : Option ι

/-- The position of the owner, with the bytes that are still buffered. -/
def File.position (f : File) : ℤ := f.pos + f.fbuf.length

def Track.next (fs : ι → PstoreFile) (t : Track ι) (op : Op ι) : Track ι where
  state := t.state.next fs op
  left :=
    match op, t.state.owner with
    | .claim i _ _, some old =>
        if old = i then t.left
        else Function.update t.left old (t.state.file.position - (fs old).resvOffset.toInt)
    | _, _ => t.left
  claimed :=
    match op with
    | .claim i _ _ => if t.state.owner = some i then none else some i
    | _ => none

/-- The backing file has been opened. -/
structure Track.Init (t : Track ι) : Prop where
  owner : t.state.owner = none
  saved : t.state.saved = fun _ => 0
  left : t.left = fun _ => 0
  claimed : t.claimed = none

def system (fs : ι → PstoreFile) : System (Track ι) (Op ι) where
  init := Track.Init
  step t op t' := t' = t.next fs op

/-- The claimed file is where it was left, inside its reservation. -/
structure Positioned (fs : ι → PstoreFile) (t : Track ι) (i : ι) : Prop where
  pos : t.state.file.pos = (fs i).resvOffset.toInt + t.left i
  flushed : t.state.file.fbuf = []
  inside : 0 ≤ t.left i ∧ t.left i < (fs i).resvSize.toInt

/-- A claim of another file than the owner finds a saved position inside the reservation, the
store succeeds, and the positions are `int`s. -/
def Meets (fs : ι → PstoreFile) (t : Track ι) : Op ι → Prop
  | .claim i io io' =>
      t.state.owner = some i ∨
        (io.Succeeds ∧ io'.Succeeds ∧
          0 ≤ t.state.saved i ∧ t.state.saved i < (fs i).resvSize.toInt ∧
          (fs i).resvOffset.toInt + t.state.saved i < 0x80000000 ∧
          0 ≤ t.state.file.position ∧ t.state.file.position < 0x80000000)
  | _ => True

/-! ### One claim -/

theorem int32_eq {x : ℤ} (h : -0x80000000 ≤ x) (h' : x < 0x80000000) : int32 x = x := by
  rw [int32, Int.bmod_def]
  split <;> omega

section

variable {fs : ι → PstoreFile} {st : State ι} {f : File} {io io' : Io} {i : ι}

theorem File.flush_of_succeeds (f : File) (h : io.flush = none) :
    (f.flush io).pos = f.position ∧ (f.flush io).fbuf = [] := by
  unfold flush position
  split
  · unfold writeBufToFile storeWrite
    rw [h]
    exact ⟨rfl, rfl⟩
  · next hempty =>
    rw [Decidable.not_not] at hempty
    rw [hempty]
    exact ⟨(add_zero _).symm, rfl⟩

/-- The position of the old owner is saved, with the bytes that it has buffered. -/
theorem State.saveOwner_some {old : ι} (howner : st.owner = some old) (hio : io.Succeeds)
    (hoff : 0 ≤ (fs old).resvOffset.toInt) (hpos : 0 ≤ st.file.position)
    (hfits : st.file.position < 0x80000000) : (st.saveOwner fs io).saved =
      Function.update st.saved old (st.file.position - (fs old).resvOffset.toInt) := by
  have hflush := (st.file.flush_of_succeeds hio.2.2).1
  have hlt := (fs old).resvOffset.toInt_lt
  unfold saveOwner tell File.tell
  rw [howner]
  simp only [ne_eq, not_true_eq_false, if_false, hio.1, if_true, hflush]
  rw [int32_eq (by omega) (by omega)]

theorem State.saveOwner_none (howner : st.owner = none) : st.saveOwner fs io = st := by
  unfold saveOwner
  rw [howner]

/-- The new owner seeks to its saved position. -/
theorem State.seek_of_succeeds {pos : ℤ} (howner : st.owner = some i) (hio : io.Succeeds)
    (hoff : 0 ≤ (fs i).resvOffset.toInt) (hpos : 0 ≤ pos) (hsize : pos < (fs i).resvSize.toInt)
    (hfits : (fs i).resvOffset.toInt + pos < 0x80000000) :
    (st.seek fs i io pos).1.file.pos = (fs i).resvOffset.toInt + pos ∧
      (st.seek fs i io pos).1.file.fbuf = [] := by
  have hflush := (st.file.flush_of_succeeds hio.2.2).2
  unfold seek File.seek
  rw [if_neg (by simp only [howner, ne_eq, not_true_eq_false, false_or]; omega)]
  simp only [hio.2.1, if_true, hflush, and_true]
  exact int32_eq (by omega) hfits

/-- A seek does not change who owns the file, nor the saved positions. -/
theorem State.seek_frame (fs : ι → PstoreFile) (st : State ι) (i : ι) (io : Io) (pos : ℤ) :
    (st.seek fs i io pos).1.owner = st.owner ∧ (st.seek fs i io pos).1.saved = st.saved := by
  unfold seek
  split <;> exact ⟨rfl, rfl⟩

theorem State.tell_frame (fs : ι → PstoreFile) (st : State ι) (i : ι) (io : Io) :
    (st.tell fs i io).1.owner = st.owner ∧ (st.tell fs i io).1.saved = st.saved := by
  unfold tell
  split <;> exact ⟨rfl, rfl⟩

theorem State.stream_frame (st : State ι) (i : ι) (op : File → File) :
    (st.stream i op).owner = st.owner ∧ (st.stream i op).saved = st.saved := by
  unfold stream
  split <;> exact ⟨rfl, rfl⟩

end

/-! ### Runs of claims -/

/-- What holds in every run whose steps meet the condition. -/
structure Inv (fs : ι → PstoreFile) (t : Track ι) : Prop where
  saved {j : ι} (h : t.state.owner ≠ some j) : t.state.saved j = t.left j
  positioned {i : ι} (h : t.claimed = some i) : Positioned fs t i

section

variable {fs : ι → PstoreFile} {t t' : Track ι}

omit [DecidableEq ι] in
theorem inv_init (h : t.Init) : Inv fs t where
  saved _ := by rw [h.saved, h.left]
  positioned hc := by
    rw [h.claimed] at hc
    cases hc

/-- The other operations leave the owner and the saved positions alone. -/
theorem Inv.other (h : Inv fs t) {op : Op ι} (hstate : (t.state.next fs op).owner = t.state.owner ∧
      (t.state.next fs op).saved = t.state.saved) (hleft : (t.next fs op).left = t.left)
    (hclaimed : (t.next fs op).claimed = none) : Inv fs (t.next fs op) where
  saved {j} hj := by
    change (t.state.next fs op).owner ≠ some j at hj
    change (t.state.next fs op).saved j = (t.next fs op).left j
    rw [hstate.1] at hj
    rw [hstate.2, hleft]
    exact h.saved hj
  positioned hc := by
    rw [hclaimed] at hc
    cases hc

theorem Inv.claim (hoff : ∀ i, 0 ≤ (fs i).resvOffset.toInt) (h : Inv fs t) {i : ι} {io io' : Io}
    (hmeets : Meets fs t (.claim i io io')) : Inv fs (t.next fs (.claim i io io')) := by
  by_cases howner : t.state.owner = some i
  · have hstate : t.state.next fs (.claim i io io') = t.state := by
      simp only [State.next, State.claim, howner, if_true]
    refine h.other ⟨by rw [hstate], by rw [hstate]⟩ ?_ (if_pos howner)
    simp only [Track.next, howner, if_true]
  obtain ⟨hio, hio', hlow, hhigh, hfits, hpos, hposFits⟩ := hmeets.resolve_left howner
  -- All saved positions are where the files have been left, that of the old owner included.
  have hsaved : ∀ j, (t.state.saveOwner fs io).saved j =
      (t.next fs (.claim i io io')).left j := by
    intro j
    cases hold : t.state.owner with
    | none =>
      rw [State.saveOwner_none hold]
      simp only [Track.next, hold]
      exact h.saved (by rw [hold]; exact fun h => nomatch h)
    | some old =>
      have hne : old ≠ i := fun heq => howner (by rw [hold, heq])
      rw [State.saveOwner_some hold hio (hoff old) hpos hposFits]
      simp only [Track.next, hold, hne, if_false]
      by_cases hj : j = old
      · subst hj
        rw [Function.update_self, Function.update_self]
      · rw [Function.update_of_ne hj, Function.update_of_ne hj]
        exact h.saved fun heq => hj (Option.some.inj (heq.symm.trans hold))
  have hkeep : (t.state.saveOwner fs io).saved i = t.state.saved i := by
    cases hold : t.state.owner with
    | none => rw [State.saveOwner_none hold]
    | some old =>
      rw [State.saveOwner_some hold hio (hoff old) hpos hposFits]
      exact Function.update_of_ne (fun heq => howner (by rw [hold, heq])) ..
  have hstate : t.state.next fs (.claim i io io') =
      (({ t.state.saveOwner fs io with owner := some i } : State ι).seek fs i io'
        ((t.state.saveOwner fs io).saved i)).1 := by
    simp only [State.next, State.claim, howner, if_false]
  constructor
  · intro j _
    change (t.state.next fs (.claim i io io')).saved j = _
    rw [hstate, (State.seek_frame ..).2]
    exact hsaved j
  · intro k hk
    obtain rfl : i = k := by
      simp only [Track.next, howner, if_false] at hk
      exact Option.some.inj hk
    let st : State ι := { t.state.saveOwner fs io with owner := some i }
    have howned : st.owner = some i := rfl
    have hseek := State.seek_of_succeeds howned hio' (hoff i) hlow hhigh hfits
    rw [← hkeep] at hseek
    change ((st.seek fs i io' ((t.state.saveOwner fs io).saved i)).1.file.pos = _ ∧ _) at hseek
    rw [← hstate] at hseek
    refine ⟨?_, hseek.2, ?_⟩
    · rw [← hsaved i]
      exact hseek.1
    · rw [← hsaved i, hkeep]
      exact ⟨hlow, hhigh⟩

theorem Inv.step (hoff : ∀ i, 0 ≤ (fs i).resvOffset.toInt) (h : Inv fs t) {op : Op ι}
    (hmeets : Meets fs t op) : Inv fs (t.next fs op) := by
  cases op with
  | claim i io io' => exact h.claim hoff hmeets
  | tell i io => exact h.other (State.tell_frame fs _ i io) rfl rfl
  | seek i pos io => exact h.other (State.seek_frame fs _ i io pos) rfl rfl
  | readBytes i len io => exact h.other (State.stream_frame _ i _) rfl rfl
  | write i b io => exact h.other (State.stream_frame _ i _) rfl rfl
  | writeBytes i bs io => exact h.other (State.stream_frame _ i _) rfl rfl

/-- In every run whose claims find the saved position inside the reservation, a claimed file is
where it was left. -/
theorem positioned_of_runs {s : Service} (hok : ∀ i, s.validateAll.Ok (fs i))
    (h : ((system fs).restrict (Meets fs)).Reachable t) {i : ι} (hclaimed : t.claimed = some i) :
    Positioned fs t i := by
  have hoff : ∀ i, 0 ≤ (fs i).resvOffset.toInt := fun i => (passed_of_ok (hok i)).offset.1
  have hinv : Inv fs t := by
    refine h.invariant (I := Inv fs) (fun _ ht => inv_init ht) ?_
    rintro t op t' hinv ⟨hmeets, rfl⟩
    exact hinv.step hoff hmeets
  exact hinv.positioned hclaimed

end

/-! ### An example -/

namespace TwoFiles

def first : PstoreFile where
  id := 1
  resvOffset := 0
  resvSize := 4

def second : PstoreFile where
  id := 2
  resvOffset := 4
  resvSize := 4

def service : Service where
  size := 16
  children := [.file first, .file second]

def files : Bool → PstoreFile
  | false => first.setStatus .ok
  | true => second.setStatus .ok

theorem ok (i : Bool) : service.validateAll.Ok (files i) := by
  have hchildren : service.validateAll.children = [.file (files false), .file (files true)] := by
    decide
  cases i with
  | false => exact ⟨by rw [hchildren]; exact List.mem_cons_self .., rfl⟩
  | true => exact ⟨by rw [hchildren]; exact List.mem_cons_of_mem _ (List.mem_cons_self ..), rfl⟩

def opened : Track Bool where
  state := { owner := none, saved := fun _ => 0, file := ⟨fun _ => 0, 0, []⟩ }
  left := fun _ => 0
  claimed := none

theorem reachable_opened (p : Track Bool → Op Bool → Prop) :
    ((system files).restrict p).Reachable opened :=
  .start ⟨rfl, rfl, rfl, rfl⟩

/-- Both files are claimed in turn, the second one at its start. -/
theorem positioned_second : Positioned files
    ((opened.next files (.claim false {} {})).next files (.claim true {} {})) true := by
  refine positioned_of_runs ok ?_ rfl
  refine ((reachable_opened _).tail ⟨?_, rfl⟩).tail ⟨?_, rfl⟩
  · right
    decide
  · right
    decide

/-- The first file is read to its end, and claimed again after the second one has been read. -/
def reads : List (Op Bool) :=
  [.claim false {} {}, .readBytes false 4 { available := 4 }, .claim true {} {},
    .readBytes true 1 { available := 1 }, .claim false {} {}]

theorem reachable_reads : (system files).Reachable (reads.foldl (Track.next files) opened) := by
  have hstart : (system files).Reachable opened := .start ⟨rfl, rfl, rfl, rfl⟩
  generalize opened = t at hstart
  induction reads generalizing t with
  | nil => exact hstart
  | cons op ops ih => exact ih _ (hstart.tail rfl)

/-- It stays where the second file was: the seek to its end fails. -/
theorem not_positioned : ¬∀ (s : Service) (fs : Bool → PstoreFile),
    (∀ i, s.validateAll.Ok (fs i)) → ∀ t, (system fs).Reachable t → ∀ i, t.claimed = some i →
      Positioned fs t i := by
  intro h
  have hpos := (h service files ok _ reachable_reads false rfl).pos
  revert hpos
  decide +kernel

end TwoFiles

end Sedona.Pstore
