import Sedona.Library.ChunkedFile
import Sedona.Library.Transition

/-!
# Buffered Files

`sys::File` writes single bytes through a buffer of its `FileOutStream`, and everything else directly
to the `FileStore`. A file that writes every byte to the store at once is what it is compared with.

The store is a map from names to contents. It may refuse any call, and a write that it refuses may
have taken a part of the bytes. Whether it does is part of the input of a step.

## Main results

* `Behind.step`: a step of both that meets `Orderly` returns the same and keeps the buffered store
  behind by what the buffers hold.
* `contents_of_reachable`: what the store files hold after any run of such steps.
* `not_contents`: bytes of one file that end up in another one.
-/

set_option linter.unusedSectionVars false

namespace Sedona.FileStream

open Function Transition ChunkedFile

abbrev Byte := BitVec 8

/-! ### The store -/

/-- The mode strings of `File.open`. -/
inductive Mode where
  | r | w | m
deriving DecidableEq

def Mode.readable : Mode → Bool
  | .r => true
  | .w => false
  | .m => true

def Mode.writable : Mode → Bool
  | .r => false
  | .w => true
  | .m => true

/-- What `File.fp` refers to: an open store file and the position in it. -/
structure Handle (N : Type) where
  name : N
  mode : Mode
  pos : ℕ
deriving DecidableEq

/-- `File` with the buffer of its `FileOutStream`. -/
structure File (N : Type) where
  fp : Option (Handle N) := none
  fbuf : List Byte := []
deriving DecidableEq

/-- The `File` objects, and the store files with their contents. -/
structure Files (F N : Type) where
  file : F → File N
  content : N → Option (List Byte)

/-- What the store makes of a write: it takes all bytes, or fails after some of them. -/
inductive Outcome where
  | ok
  | failed (k : ℕ)
deriving DecidableEq

namespace Outcome

def isOk : Outcome → Bool
  | ok => true
  | failed _ => false

/-- The bytes that are taken. -/
def taken : Outcome → List Byte → List Byte
  | ok, bs => bs
  | failed k, bs => bs.take k

end Outcome

variable {F N : Type} [DecidableEq F] [DecidableEq N]

namespace Files

variable (s : Files F N) (f : F)

/-- Assign `fp`. -/
def setFp (fp : Option (Handle N)) : Files F N :=
  { s with file := update s.file f { s.file f with fp := fp } }

/-- Assign the contents of the buffer. -/
def setFbuf (bs : List Byte) : Files F N :=
  { s with file := update s.file f { s.file f with fbuf := bs } }

/-- `FileStore.open`. -/
def storeOpen (name : N) (mode : Mode) (ok : Bool) : Bool × Files F N :=
  if !ok || (mode == .r && (s.content name).isNone) then (false, s.setFp f none)
  else
    let old := if mode = .w then [] else (s.content name).getD []
    let s := { s with content := update s.content name (some old) }
    (true, s.setFp f (some ⟨name, mode, 0⟩))

/-- `FileStore.writeBytes`. -/
def storeWrite (bs : List Byte) (o : Outcome) : Bool × Files F N :=
  match (s.file f).fp with
  | none => (o.isOk, s)
  | some h =>
      if h.mode.writable then
        let content := (s.content h.name).map fun c => writeAt 0 c h.pos (o.taken bs)
        let s := { s with content := update s.content h.name content }
        (o.isOk, s.setFp f (some { h with pos := h.pos + (o.taken bs).length }))
      else (o.isOk, s)

/-- `FileStore.readBytes`. -/
def storeRead (len : ℕ) : List Byte × Files F N :=
  match (s.file f).fp with
  | none => ([], s)
  | some h =>
      if h.mode.readable then
        let bs := (((s.content h.name).getD []).drop h.pos).take len
        (bs, s.setFp f (some { h with pos := h.pos + bs.length }))
      else ([], s)

/-- `FileStore.seek`. -/
def storeSeek (pos : ℤ) (ok : Bool) : Bool × Files F N :=
  match (s.file f).fp with
  | none => (ok, s)
  | some h =>
      if ok && decide (0 ≤ pos) then (true, s.setFp f (some { h with pos := pos.toNat }))
      else (false, s)

/-- `FileStore.tell`. -/
def storeTell : ℤ :=
  match (s.file f).fp with
  | none => -1
  | some h => h.pos

/-- `FileStore.close`. -/
def storeClose (ok : Bool) : Bool × Files F N :=
  match (s.file f).fp with
  | none => (true, s)
  | some _ => (ok, s.setFp f none)

end Files

/-! ### Steps -/

/-- The calls on `File` objects and their streams. -/
inductive Op (F N : Type) where
  | open_ (f : F) (name : N) (mode : Mode)
  | write (f : F) (b : Byte)
  | writeBytes (f : F) (bs : List Byte)
  | read (f : F)
  | readBytes (f : F) (len : ℕ)
  | seek (f : F) (pos : ℤ)
  | tell (f : F)
  | flush (f : F)
  | close (f : F)

/-- What the store does in a step: with the bytes of the buffer, with a block, and otherwise. -/
structure Env where
  flushed : Outcome
  written : Outcome
  accepts : Bool

/-- What a call returns. -/
inductive Result where
  | void
  | bool (b : Bool)
  | int (i : ℤ)
  | bytes (bs : List Byte)
deriving DecidableEq

/-- A result that reports a failure. -/
def Result.failed (r : Result) : Prop := r = .bool false

/-- The value of `InStream.read`. -/
def readInt (bs : List Byte) : ℤ :=
  match bs with
  | [] => -1
  | b :: _ => b.toNat

/-- The capacity of `FileOutStream.fbuf`. -/
def bytesLen : ℕ := 32

namespace Files

variable (s : Files F N) (f : F)

/-- `FileOutStream.writeBufToFile`. -/
def writeBufToFile (o : Outcome) : Bool × Files F N :=
  let r := s.storeWrite f (s.file f).fbuf o
  if r.1 then (true, r.2.setFbuf f []) else (false, r.2)

/-- `if (fbuf.size > 0) writeBufToFile()`. -/
def flushBuf (o : Outcome) : Files F N :=
  if (s.file f).fbuf.length > 0 then (s.writeBufToFile f o).2 else s

/-- A step of the files with their buffers. -/
def buffered : Op F N → Env → Result × Files F N
  | .open_ f name mode, env =>
      let r := s.storeOpen f name mode env.accepts
      (.bool r.1, r.2)
  | .write f b, env =>
      if (s.file f).fbuf.length ≥ bytesLen then
        let r := s.writeBufToFile f env.flushed
        if r.1 then (.bool true, r.2.setFbuf f ((r.2.file f).fbuf ++ [b]))
        else (.bool false, r.2)
      else (.bool true, s.setFbuf f ((s.file f).fbuf ++ [b]))
  | .writeBytes f bs, env =>
      let r := (s.flushBuf f env.flushed).storeWrite f bs env.written
      (.bool r.1, r.2)
  | .read f, _ =>
      let r := s.storeRead f 1
      (.int (readInt r.1), r.2)
  | .readBytes f len, _ =>
      let r := s.storeRead f len
      (.bytes r.1, r.2)
  | .seek f pos, env =>
      let r := (s.flushBuf f env.flushed).storeSeek f pos env.accepts
      (.bool r.1, r.2)
  | .tell f, env =>
      let s := s.flushBuf f env.flushed
      (.int (s.storeTell f), s)
  | .flush f, env => (.void, s.flushBuf f env.flushed)
  | .close f, env =>
      let r := (s.flushBuf f env.flushed).storeClose f env.accepts
      (.bool r.1, r.2)

/-- The same step without buffers: every byte goes to the store at once, which takes it. -/
def unbuffered : Op F N → Env → Result × Files F N
  | .open_ f name mode, env =>
      let r := s.storeOpen f name mode env.accepts
      (.bool r.1, r.2)
  | .write f b, _ =>
      let r := s.storeWrite f [b] .ok
      (.bool r.1, r.2)
  | .writeBytes f bs, env =>
      let r := s.storeWrite f bs env.written
      (.bool r.1, r.2)
  | .read f, _ =>
      let r := s.storeRead f 1
      (.int (readInt r.1), r.2)
  | .readBytes f len, _ =>
      let r := s.storeRead f len
      (.bytes r.1, r.2)
  | .seek f pos, env =>
      let r := s.storeSeek f pos env.accepts
      (.bool r.1, r.2)
  | .tell f, _ => (.int (s.storeTell f), s)
  | .flush _, _ => (.void, s)
  | .close f, env =>
      let r := s.storeClose f env.accepts
      (.bool r.1, r.2)

end Files

/-! ### What the buffers hold back -/

/-- The position after some bytes are written. -/
def Handle.advance (h : Handle N) (n : ℕ) : Handle N :=
  if h.mode.writable then { h with pos := h.pos + n } else h

/-- The buffer of `f` holds bytes for the store file that `h` refers to. -/
def Owes (s : Files F N) (f : F) (h : Handle N) : Prop :=
  (s.file f).fp = some h ∧ h.mode.writable = true ∧ (s.file f).fbuf ≠ []

/-- No other file holds back bytes for this store file. -/
def Free (s : Files F N) (f : F) (name : N) : Prop :=
  ∀ g, g ≠ f → ∀ h, Owes s g h → h.name ≠ name

/-- The store of `b` is behind that of `u` by what the buffers hold: a store file lacks the bytes of
the one buffer with bytes for it, at the position of its handle, and is otherwise the same. -/
structure Behind (b u : Files F N) : Prop where
  fp : ∀ f, (u.file f).fp = (b.file f).fp.map (·.advance (b.file f).fbuf.length)
  clean : ∀ f, (u.file f).fbuf = []
  owed : ∀ f h, Owes b f h →
    u.content h.name = (b.content h.name).map fun c => writeAt 0 c h.pos (b.file f).fbuf
  kept : ∀ n, (∀ f h, Owes b f h → h.name ≠ n) → u.content n = b.content n
  alone : ∀ f h, Owes b f h → Free b f h.name

/-- What is asked of a step, so that the buffers make no difference. A file is opened with an empty
buffer; it is not read while its buffer holds bytes; the store takes the bytes of the buffer when
they are written before something else, and nothing of them when `flush` fails; and no other file
holds back bytes for a store file that is opened, read or written. -/
def Orderly (s : Files F N) : Op F N → Env → Prop
  | .open_ f name _, _ => (s.file f).fbuf = [] ∧ Free s f name
  | .write f _, _ => ∀ h, (s.file f).fp = some h → Free s f h.name
  | .writeBytes f _, env =>
      ((∃ h, Owes s f h) → env.flushed = .ok) ∧ ∀ h, (s.file f).fp = some h → Free s f h.name
  | .read f, _ => (∀ h, ¬ Owes s f h) ∧ ∀ h, (s.file f).fp = some h → Free s f h.name
  | .readBytes f _, _ => (∀ h, ¬ Owes s f h) ∧ ∀ h, (s.file f).fp = some h → Free s f h.name
  | .seek f _, env => (∃ h, Owes s f h) → env.flushed = .ok
  | .tell f, env => (∃ h, Owes s f h) → env.flushed = .ok
  | .flush f, env => (∃ h, Owes s f h) → env.flushed = .ok ∨ env.flushed = .failed 0
  | .close f, env => (∃ h, Owes s f h) → env.flushed = .ok

/-! ### One file at a time -/

variable {b u b' u' : Files F N} {f g : F} {h : Handle N} {bs : List Byte} {o : Outcome} {n : N}

@[simp] theorem file_setFp (s : Files F N) (f g : F) (fp : Option (Handle N)) :
    (s.setFp f fp).file g = if g = f then { s.file f with fp := fp } else s.file g := by
  exact update_apply ..

@[simp] theorem file_setFbuf (s : Files F N) (f g : F) (bs : List Byte) :
    (s.setFbuf f bs).file g = if g = f then { s.file f with fbuf := bs } else s.file g := by
  exact update_apply ..

@[simp] theorem content_setFp (s : Files F N) (f : F) (fp : Option (Handle N)) :
    (s.setFp f fp).content = s.content := rfl

@[simp] theorem content_setFbuf (s : Files F N) (f : F) (bs : List Byte) :
    (s.setFbuf f bs).content = s.content := rfl

theorem Owes.congr (heq : b'.file g = b.file g) : Owes b' g h ↔ Owes b g h := by
  rw [Owes, Owes, heq]

/-- A step on `f` that changes no store file, and before and after which `f` owes nothing. -/
theorem Behind.handle (hb : Behind b u) (hfile : ∀ g, g ≠ f → b'.file g = b.file g)
    (hfile' : ∀ g, g ≠ f → u'.file g = u.file g) (hcontent : b'.content = b.content)
    (hcontent' : u'.content = u.content) (hbefore : ∀ h, ¬ Owes b f h)
    (hafter : ∀ h, ¬ Owes b' f h)
    (hfp : (u'.file f).fp = (b'.file f).fp.map (·.advance (b'.file f).fbuf.length))
    (hclean : (u'.file f).fbuf = []) : Behind b' u' := by
  have howes : ∀ g h, Owes b' g h ↔ Owes b g h := by
    intro g h
    by_cases hg : g = f
    · subst hg
      exact iff_of_false (hafter h) (hbefore h)
    · exact Owes.congr (hfile g hg)
  have hne : ∀ g h, Owes b g h → g ≠ f := by
    rintro g h hg rfl
    exact hbefore h hg
  refine ⟨fun g => ?_, fun g => ?_, fun g h hg => ?_, fun n hn => ?_, fun g h hg g' hg' h' ho => ?_⟩
  · by_cases hg : g = f
    · rw [hg, hfp]
    · rw [hfile g hg, hfile' g hg, hb.fp]
  · by_cases hg : g = f
    · rw [hg, hclean]
    · rw [hfile' g hg, hb.clean]
  · rw [howes] at hg
    rw [hcontent, hcontent', hfile g (hne g h hg), hb.owed g h hg]
  · rw [hcontent, hcontent']
    exact hb.kept n fun g h hg => hn g h ((howes g h).mpr hg)
  · rw [howes] at hg ho
    exact hb.alone g h hg g' hg' h' ho

/-- A step on `f` and its store file, for which no other file holds back bytes. -/
theorem Behind.replace (hb : Behind b u) (hfree : Free b f n)
    (hfile : ∀ g, g ≠ f → b'.file g = b.file g) (hfile' : ∀ g, g ≠ f → u'.file g = u.file g)
    (hcontent : ∀ m, m ≠ n → b'.content m = b.content m)
    (hcontent' : ∀ m, m ≠ n → u'.content m = u.content m)
    (hbefore : ∀ h, Owes b f h → h.name = n) (hafter : ∀ h, Owes b' f h → h.name = n)
    (hfp : (u'.file f).fp = (b'.file f).fp.map (·.advance (b'.file f).fbuf.length))
    (hclean : (u'.file f).fbuf = [])
    (howed : ∀ h, Owes b' f h →
      u'.content n = (b'.content n).map fun c => writeAt 0 c h.pos (b'.file f).fbuf)
    (hkept : (∀ h, ¬ Owes b' f h) → u'.content n = b'.content n) : Behind b' u' := by
  have hothers : ∀ g h, g ≠ f → Owes b' g h → h.name ≠ n := by
    intro g h hg ho
    exact hfree g hg h ((Owes.congr (hfile g hg)).mp ho)
  refine ⟨fun g => ?_, fun g => ?_, fun g h ho => ?_, fun m hm => ?_, fun g h ho g' hg' h' ho' => ?_⟩
  · by_cases hg : g = f
    · rw [hg, hfp]
    · rw [hfile g hg, hfile' g hg, hb.fp]
  · by_cases hg : g = f
    · rw [hg, hclean]
    · rw [hfile' g hg, hb.clean]
  · by_cases hg : g = f
    · subst hg
      rw [hafter h ho]
      exact howed h ho
    · have hname := hothers g h hg ho
      rw [hcontent _ hname, hcontent' _ hname, hfile g hg]
      exact hb.owed g h ((Owes.congr (hfile g hg)).mp ho)
  · by_cases hmn : m = n
    · subst hmn
      exact hkept fun h ho => hm f h ho (hafter h ho)
    · rw [hcontent m hmn, hcontent' m hmn]
      refine hb.kept m fun g h ho => ?_
      by_cases hg : g = f
      · subst hg
        rw [hbefore h ho]
        exact Ne.symm hmn
      · exact hm g h ((Owes.congr (hfile g hg)).mpr ho)
  · by_cases hg : g = f
    · subst hg
      rw [hafter h ho]
      exact hothers g' h' hg' ho'
    · by_cases hgf : g' = f
      · subst hgf
        rw [hafter h' ho']
        exact (hothers g h hg ho).symm
      · exact hb.alone g h ((Owes.congr (hfile g hg)).mp ho) g' hg' h'
          ((Owes.congr (hfile g' hgf)).mp ho')

/-- A file that owes nothing has the same handle in both. -/
theorem Behind.fp_eq (hb : Behind b u) (hno : ∀ h, ¬ Owes b f h) :
    (u.file f).fp = (b.file f).fp := by
  rw [hb.fp]
  cases hfp : (b.file f).fp with
  | none => rfl
  | some h =>
      rw [Option.map_some, Handle.advance]
      split
      · rename_i hw
        have hnil : (b.file f).fbuf = [] := by
          by_contra hne
          exact hno h ⟨hfp, hw, hne⟩
        rw [hnil]
        rfl
      · rfl

/-- For a file that owes nothing and has its store file to itself, that store file is the same. -/
theorem Behind.content_eq (hb : Behind b u) (hno : ∀ h, ¬ Owes b f h) (hfree : Free b f n) :
    u.content n = b.content n := by
  refine hb.kept n fun g h ho => ?_
  by_cases hg : g = f
  · subst hg
    exact absurd ho (hno h)
  · exact hfree g hg h ho

theorem not_owes_of_nil (hnil : (b.file f).fbuf = []) (h : Handle N) : ¬ Owes b f h :=
  fun ho => ho.2.2 hnil

theorem not_owes_of_none (hfp : (b.file f).fp = none) (h : Handle N) : ¬ Owes b f h :=
  fun ho => by
    have := ho.1
    rw [hfp] at this
    cases this

/-! ### Writing -/

/-- A file that is not open for writing leaves the store alone. -/
theorem storeWrite_idle (hidle : ∀ h, (b.file f).fp = some h → h.mode.writable = false) :
    b.storeWrite f bs o = (o.isOk, b) := by
  unfold Files.storeWrite
  split
  · rfl
  · rename_i h hfp
    rw [if_neg (by rw [hidle h hfp]; exact Bool.false_ne_true)]

theorem storeWrite_fst (s : Files F N) (f : F) (bs : List Byte) (o : Outcome) :
    (s.storeWrite f bs o).1 = o.isOk := by
  unfold Files.storeWrite
  split
  · rfl
  · split <;> rfl

/-- The files after bytes are written through a handle. -/
def wrote (s : Files F N) (f : F) (h : Handle N) (bs : List Byte) : Files F N :=
  Files.setFp
    { s with content :=
        update s.content h.name ((s.content h.name).map fun c => writeAt 0 c h.pos bs) }
    f (some { h with pos := h.pos + bs.length })

theorem storeWrite_open (hfp : (b.file f).fp = some h) (hw : h.mode.writable = true) :
    b.storeWrite f bs o = (o.isOk, wrote b f h (o.taken bs)) := by
  unfold Files.storeWrite
  rw [hfp]
  exact if_pos hw

theorem file_wrote (s : Files F N) (f g : F) (h : Handle N) (bs : List Byte) :
    (wrote s f h bs).file g =
      if g = f then { s.file f with fp := some { h with pos := h.pos + bs.length } }
      else s.file g :=
  file_setFp ..

theorem content_wrote (s : Files F N) (f : F) (h : Handle N) (bs : List Byte) (n : N) :
    (wrote s f h bs).content n =
      if n = h.name then (s.content h.name).map fun c => writeAt 0 c h.pos bs
      else s.content n :=
  update_apply ..

/-- Nothing is written. -/
theorem wrote_nil (hfp : (b.file f).fp = some h) : wrote b f h [] = b := by
  have hfile : (wrote b f h []).file = b.file := by
    funext g
    rw [file_wrote]
    split
    · rename_i hg
      rw [hg, List.length_nil, Nat.add_zero, ← hfp]
    · rfl
  have hcontent : (wrote b f h []).content = b.content := by
    funext n
    rw [content_wrote]
    split
    · rename_i hn
      simp only [writeAt_nil, Option.map_id', hn]
    · rfl
  exact congrArg₂ Files.mk hfile hcontent

/-! ### The buffer -/

/-- What the files are after the bytes of the buffer went to the store. -/
theorem writeBufToFile_ok (ho : Owes b f h) :
    b.writeBufToFile f .ok = (true, (wrote b f h (b.file f).fbuf).setFbuf f []) := by
  unfold Files.writeBufToFile
  rw [storeWrite_open ho.1 ho.2.1]
  rfl

theorem Owes.idle (hno : ∀ h, ¬ Owes b f h) (hne : (b.file f).fbuf ≠ []) :
    ∀ h, (b.file f).fp = some h → h.mode.writable = false := by
  intro h hfp
  by_contra hw
  exact hno h ⟨hfp, by simpa using hw, hne⟩

/-- The bytes of the buffer reach the store file of `f`. -/
theorem Behind.flushed (hb : Behind b u) (ho : Owes b f h) :
    Behind ((wrote b f h (b.file f).fbuf).setFbuf f []) u := by
  have hfile : ∀ g, ((wrote b f h (b.file f).fbuf).setFbuf f []).file g =
      if g = f then ⟨some { h with pos := h.pos + (b.file f).fbuf.length }, []⟩ else b.file g := by
    intro g
    rw [file_setFbuf]
    split
    · rw [file_wrote, if_pos rfl]
    · rename_i hg
      rw [file_wrote, if_neg hg]
  have hself := hfile f
  rw [if_pos rfl] at hself
  have hnone : ∀ h', ¬ Owes ((wrote b f h (b.file f).fbuf).setFbuf f []) f h' :=
    not_owes_of_nil (by rw [hself])
  refine hb.replace (hb.alone f h ho) (fun g hg => (hfile g).trans (if_neg hg)) (fun _ _ => rfl)
    (fun m hm => (content_wrote b f h _ m).trans (if_neg hm)) (fun _ _ => rfl) (fun h' ho' => ?_)
    (fun h' ho' => absurd ho' (hnone h')) ?_ (hb.clean f) (fun h' ho' => absurd ho' (hnone h'))
    fun _ => ?_
  · rw [Option.some.inj (ho'.1.symm.trans ho.1)]
  · rw [hb.fp, ho.1, hself]
    simp only [Option.map_some, Handle.advance, ho.2.1, if_true, List.length_nil, Nat.add_zero]
  · rw [hb.owed f h ho]
    exact ((content_wrote b f h _ h.name).trans (if_pos rfl)).symm

/-- A buffer with bytes that go nowhere. -/
theorem Behind.dropped (hb : Behind b u) (hno : ∀ h, ¬ Owes b f h) : Behind (b.setFbuf f []) u := by
  have hfile : ∀ g, (b.setFbuf f []).file g = if g = f then ⟨(b.file f).fp, []⟩ else b.file g :=
    fun g => file_setFbuf ..
  have hself := hfile f
  rw [if_pos rfl] at hself
  refine hb.handle (fun g hg => (hfile g).trans (if_neg hg)) (fun _ _ => rfl) rfl rfl hno
    (not_owes_of_nil (by rw [hself])) ?_ (hb.clean f)
  rw [hb.fp_eq hno, hself]
  cases (b.file f).fp with
  | none => rfl
  | some h =>
      simp only [Option.map_some, Handle.advance, List.length_nil, Nat.add_zero]
      split <;> rfl

/-- What a flush of the buffer leaves, when the store takes the bytes. -/
structure Flushed (b b' : Files F N) (f : F) : Prop where
  owes : ∀ h, ¬ Owes b' f h
  others : ∀ g, g ≠ f → b'.file g = b.file g
  name : ∀ h', (b'.file f).fp = some h' → ∃ h, (b.file f).fp = some h ∧ h.name = h'.name

theorem Flushed.free {b' : Files F N} (h : Flushed b b' f) (hfree : Free b f n) : Free b' f n :=
  fun g hg h' ho => hfree g hg h' ((Owes.congr (h.others g hg)).mp ho)

theorem Flushed.refl (hno : ∀ h, ¬ Owes b f h) : Flushed b b f :=
  ⟨hno, fun _ _ => rfl, fun h hh => ⟨h, hh, rfl⟩⟩

/-- `writeBufToFile` of a buffer with bytes. -/
theorem Behind.writeBufToFile (hb : Behind b u) (hne : (b.file f).fbuf ≠ [])
    (hok : (∃ h, Owes b f h) → o = .ok) :
    Behind (b.writeBufToFile f o).2 u ∧ Flushed b (b.writeBufToFile f o).2 f ∧
      ((b.writeBufToFile f o).1 = true → ((b.writeBufToFile f o).2.file f).fbuf = []) := by
  by_cases ho : ∃ h, Owes b f h
  · obtain ⟨h, ho⟩ := ho
    rw [hok ⟨h, ho⟩, writeBufToFile_ok ho]
    have hfile : ((wrote b f h (b.file f).fbuf).setFbuf f []).file f =
        ⟨some { h with pos := h.pos + (b.file f).fbuf.length }, []⟩ := by
      rw [file_setFbuf, if_pos rfl, file_wrote, if_pos rfl]
    refine ⟨hb.flushed ho, ⟨not_owes_of_nil (by rw [hfile]), fun g hg => ?_, fun h' hh' => ?_⟩,
      fun _ => by rw [hfile]⟩
    · exact (file_setFbuf ..).trans ((if_neg hg).trans ((file_wrote ..).trans (if_neg hg)))
    · rw [hfile] at hh'
      exact ⟨h, ho.1, by rw [← Option.some.inj hh']⟩
  · rw [not_exists] at ho
    have hidle : b.writeBufToFile f o = if o.isOk then (true, b.setFbuf f []) else (false, b) := by
      unfold Files.writeBufToFile
      rw [storeWrite_idle (Owes.idle ho hne)]
    rw [hidle]
    split
    · have hfile : (b.setFbuf f []).file f = ⟨(b.file f).fp, []⟩ :=
        (file_setFbuf ..).trans (if_pos rfl)
      refine ⟨hb.dropped ho, ⟨not_owes_of_nil (by rw [hfile]), fun g hg => ?_, fun h hh => ?_⟩,
        fun _ => by rw [hfile]⟩
      · exact (file_setFbuf ..).trans (if_neg hg)
      · rw [hfile] at hh
        exact ⟨h, hh, rfl⟩
    · exact ⟨hb, .refl ho, fun h => Bool.noConfusion h⟩

/-- `if (fbuf.size > 0) writeBufToFile()`. -/
theorem Behind.flushBuf (hb : Behind b u) (hok : (∃ h, Owes b f h) → o = .ok) :
    Behind (b.flushBuf f o) u ∧ Flushed b (b.flushBuf f o) f := by
  unfold Files.flushBuf
  split
  · rename_i hpos
    obtain ⟨h₁, h₂, -⟩ := hb.writeBufToFile (List.ne_nil_of_length_pos hpos) hok
    exact ⟨h₁, h₂⟩
  · rename_i hpos
    have hnil : (b.file f).fbuf = [] := List.length_eq_zero_iff.mp (by omega)
    exact ⟨hb, .refl (not_owes_of_nil hnil)⟩

/-- A flush that fails with nothing written changes nothing. -/
theorem flushBuf_failed (ho : Owes b f h) : b.flushBuf f (.failed 0) = b := by
  have hpos : (b.file f).fbuf.length > 0 := List.length_pos_iff.mpr ho.2.2
  unfold Files.flushBuf Files.writeBufToFile
  rw [if_pos hpos, storeWrite_open ho.1 ho.2.1]
  exact wrote_nil ho.1

/-! ### Both stores -/

/-- The store file of a handle for writing lacks what the buffer holds, which may be nothing. -/
theorem Behind.content_owed (hb : Behind b u) (hfp : (b.file f).fp = some h)
    (hw : h.mode.writable = true) (hfree : Free b f h.name) :
    u.content h.name = (b.content h.name).map fun c => writeAt 0 c h.pos (b.file f).fbuf := by
  by_cases hnil : (b.file f).fbuf = []
  · rw [hnil, hb.content_eq (not_owes_of_nil hnil) hfree]
    simp only [writeAt_nil, Option.map_id']
  · exact hb.owed f h ⟨hfp, hw, hnil⟩

theorem not_owes_of_not_writable (hfp : (b.file f).fp = some h) (hw : ¬ h.mode.writable = true)
    (h' : Handle N) : ¬ Owes b f h' := by
  rintro ⟨hfp', hw', -⟩
  rw [Option.some.inj (hfp.symm.trans hfp')] at hw
  exact hw hw'

/-- A byte that waits in the buffer, and goes to the store at once in the other one. -/
theorem Behind.push (hb : Behind b u) (hfree : ∀ h, (b.file f).fp = some h → Free b f h.name)
    (x : Byte) :
    Behind (b.setFbuf f ((b.file f).fbuf ++ [x])) (u.storeWrite f [x] .ok).2 := by
  have hfile : ∀ g, (b.setFbuf f ((b.file f).fbuf ++ [x])).file g =
      if g = f then ⟨(b.file f).fp, (b.file f).fbuf ++ [x]⟩ else b.file g := fun g => file_setFbuf ..
  have hself := hfile f
  rw [if_pos rfl] at hself
  have hothers : ∀ g, g ≠ f → (b.setFbuf f ((b.file f).fbuf ++ [x])).file g = b.file g :=
    fun g hg => (hfile g).trans (if_neg hg)
  cases hfp : (b.file f).fp with
  | none =>
      have hu : (u.file f).fp = none := by rw [hb.fp, hfp, Option.map_none]
      rw [storeWrite_idle (by rw [hu]; rintro h ⟨⟩)]
      refine hb.handle hothers (fun _ _ => rfl) rfl rfl (not_owes_of_none hfp)
        (not_owes_of_none (by rw [hself, hfp])) ?_ (hb.clean f)
      rw [hu, hself, hfp, Option.map_none]
  | some h =>
      have hfp' : ((b.setFbuf f ((b.file f).fbuf ++ [x])).file f).fp = some h := by rw [hself, hfp]
      by_cases hw : h.mode.writable = true
      · have hu : (u.file f).fp = some { h with pos := h.pos + (b.file f).fbuf.length } := by
          rw [hb.fp, hfp, Option.map_some, Handle.advance, if_pos hw]
        rw [storeWrite_open hu hw]
        have hname : ∀ {s : Files F N}, (s.file f).fp = some h → ∀ h', Owes s f h' →
            h'.name = h.name := by
          intro s hs h' ho
          rw [Option.some.inj (hs.symm.trans ho.1)]
        have howes : Owes (b.setFbuf f ((b.file f).fbuf ++ [x])) f h :=
          ⟨hfp', hw, by rw [hself]; exact List.append_ne_nil_of_right_ne_nil _ (List.cons_ne_nil _ _)⟩
        refine hb.replace (hfree h hfp) hothers
          (fun g hg => (file_wrote ..).trans (if_neg hg)) (fun _ _ => rfl)
          (fun m hm => (content_wrote ..).trans (if_neg hm)) (hname hfp) (hname hfp') ?_ ?_
          (fun h' ho' => ?_) (fun hno => absurd howes (hno h))
        · rw [file_wrote, if_pos rfl, hself, hfp]
          simp only [Option.map_some, Handle.advance, hw, if_true, List.length_append,
            Outcome.taken, Nat.add_assoc]
        · rw [file_wrote, if_pos rfl]
          exact hb.clean f
        · -- the byte comes behind those that wait already
          rw [Option.some.inj (ho'.1.symm.trans hfp'), hself]
          refine (content_wrote u f { h with pos := h.pos + (b.file f).fbuf.length } _ h.name).trans
            ((if_pos rfl).trans ?_)
          rw [hb.content_owed hfp hw (hfree h hfp), Option.map_map]
          refine congrArg (fun k => Option.map k (b.content h.name)) (funext fun c => ?_)
          exact writeAt_append
      · have hno := not_owes_of_not_writable hfp hw
        have hu := hb.fp_eq hno
        have hidle : ∀ h', (u.file f).fp = some h' → h'.mode.writable = false := by
          intro h' hh'
          rw [hu, hfp] at hh'
          obtain rfl := Option.some.inj hh'
          simpa using hw
        rw [storeWrite_idle hidle]
        refine hb.handle hothers (fun _ _ => rfl) rfl rfl hno (not_owes_of_not_writable hfp' hw) ?_
          (hb.clean f)
        rw [hu, hself, hfp, Option.map_some, Handle.advance, if_neg hw]

/-- A block that goes to the store in both. -/
theorem Behind.storeWrite (hb : Behind b u) (hno : ∀ h, ¬ Owes b f h)
    (hfree : ∀ h, (b.file f).fp = some h → Free b f h.name) (bs : List Byte) (o : Outcome) :
    (u.storeWrite f bs o).1 = (b.storeWrite f bs o).1 ∧
      Behind (b.storeWrite f bs o).2 (u.storeWrite f bs o).2 := by
  have hfp := hb.fp_eq hno
  by_cases hidle : ∀ h, (b.file f).fp = some h → h.mode.writable = false
  · rw [storeWrite_idle hidle, storeWrite_idle (by rwa [hfp])]
    exact ⟨rfl, hb⟩
  · push Not at hidle
    obtain ⟨h, hh, hw⟩ := hidle
    rw [Bool.ne_false_iff] at hw
    rw [storeWrite_open hh hw, storeWrite_open (hfp.trans hh) hw]
    refine ⟨rfl, ?_⟩
    have hnil : (b.file f).fbuf = [] := by
      by_contra hne
      exact hno h ⟨hh, hw, hne⟩
    have hself : ∀ s : Files F N, (wrote s f h (o.taken bs)).file f =
        ⟨some { h with pos := h.pos + (o.taken bs).length }, (s.file f).fbuf⟩ :=
      fun s => (file_wrote ..).trans (if_pos rfl)
    have hafter : ∀ h', ¬ Owes (wrote b f h (o.taken bs)) f h' :=
      not_owes_of_nil (by rw [hself, hnil])
    refine hb.replace (hfree h hh) (fun g hg => (file_wrote ..).trans (if_neg hg))
      (fun g hg => (file_wrote ..).trans (if_neg hg))
      (fun m hm => (content_wrote ..).trans (if_neg hm))
      (fun m hm => (content_wrote ..).trans (if_neg hm)) (fun h' ho => absurd ho (hno h'))
      (fun h' ho => absurd ho (hafter h')) ?_ ?_ (fun h' ho => absurd ho (hafter h')) fun _ => ?_
    · rw [hself, hself, hnil]
      simp only [Option.map_some, Handle.advance, List.length_nil, Nat.add_zero]
      split <;> rfl
    · rw [hself]
      exact hb.clean f
    · rw [content_wrote, content_wrote, if_pos rfl, if_pos rfl,
        hb.content_eq hno (hfree h hh)]

/-- A handle that is assigned in both. -/
theorem Behind.setFp (hb : Behind b u) (hno : ∀ h, ¬ Owes b f h) {fp : Option (Handle N)}
    (hnew : ∀ h, fp = some h → h.mode.writable = true → (b.file f).fbuf = []) :
    Behind (b.setFp f fp) (u.setFp f fp) := by
  have hself : ∀ s : Files F N, (s.setFp f fp).file f = ⟨fp, (s.file f).fbuf⟩ :=
    fun s => (file_setFp ..).trans (if_pos rfl)
  refine hb.handle (fun g hg => (file_setFp ..).trans (if_neg hg))
    (fun g hg => (file_setFp ..).trans (if_neg hg)) rfl rfl hno ?_ ?_ ?_
  · rintro h ⟨hfp, hw, hne⟩
    rw [hself] at hfp hne
    exact hne (hnew h hfp hw)
  · rw [hself, hself]
    cases fp with
    | none => rfl
    | some h =>
        rw [Option.map_some, Handle.advance]
        split
        · rename_i hw
          rw [hnew h rfl hw]
          rfl
        · rfl
  · rw [hself]
    exact hb.clean f

/-- A store file that is created or emptied in both. -/
theorem Behind.create (hb : Behind b u) (hno : ∀ h, ¬ Owes b f h) (hfree : Free b f n)
    (c : Option (List Byte)) :
    Behind { b with content := update b.content n c } { u with content := update u.content n c } := by
  refine hb.replace hfree (fun _ _ => rfl) (fun _ _ => rfl) (fun m hm => update_of_ne hm ..)
    (fun m hm => update_of_ne hm ..) (fun h ho => absurd ho (hno h)) (fun h ho => absurd ho (hno h))
    (hb.fp f) (hb.clean f) (fun h ho => absurd ho (hno h)) fun _ => ?_
  exact (update_self n c u.content).trans (update_self n c b.content).symm

theorem Behind.storeOpen (hb : Behind b u) (hnil : (b.file f).fbuf = []) (hfree : Free b f n)
    (mode : Mode) (ok : Bool) :
    (u.storeOpen f n mode ok).1 = (b.storeOpen f n mode ok).1 ∧
      Behind (b.storeOpen f n mode ok).2 (u.storeOpen f n mode ok).2 := by
  have hno : ∀ h, ¬ Owes b f h := not_owes_of_nil hnil
  unfold Files.storeOpen
  rw [hb.content_eq hno hfree]
  split
  · exact ⟨rfl, hb.setFp hno fun _ _ _ => hnil⟩
  · exact ⟨rfl, (hb.create hno hfree _).setFp hno fun _ _ _ => hnil⟩

/-- A handle keeps its mode. -/
theorem fbuf_nil_of_mode (hno : ∀ h, ¬ Owes b f h) (hfp : (b.file f).fp = some h) {h₁ : Handle N}
    (hmode : h₁.mode = h.mode) :
    ∀ h₂, some h₁ = some h₂ → h₂.mode.writable = true → (b.file f).fbuf = [] := by
  rintro h₂ ⟨⟩ hw
  by_contra hne
  exact hno h ⟨hfp, hmode ▸ hw, hne⟩

theorem Behind.storeRead (hb : Behind b u) (hno : ∀ h, ¬ Owes b f h)
    (hfree : ∀ h, (b.file f).fp = some h → Free b f h.name) (len : ℕ) :
    (u.storeRead f len).1 = (b.storeRead f len).1 ∧
      Behind (b.storeRead f len).2 (u.storeRead f len).2 := by
  unfold Files.storeRead
  rw [hb.fp_eq hno]
  cases hfp : (b.file f).fp with
  | none => exact ⟨rfl, hb⟩
  | some h =>
      simp only [hb.content_eq hno (hfree h hfp)]
      split
      · exact ⟨rfl, hb.setFp hno (fbuf_nil_of_mode hno hfp rfl)⟩
      · exact ⟨rfl, hb⟩

theorem Behind.storeSeek (hb : Behind b u) (hno : ∀ h, ¬ Owes b f h) (pos : ℤ) (ok : Bool) :
    (u.storeSeek f pos ok).1 = (b.storeSeek f pos ok).1 ∧
      Behind (b.storeSeek f pos ok).2 (u.storeSeek f pos ok).2 := by
  unfold Files.storeSeek
  rw [hb.fp_eq hno]
  cases hfp : (b.file f).fp with
  | none => exact ⟨rfl, hb⟩
  | some h =>
      simp only
      split
      · exact ⟨rfl, hb.setFp hno (fbuf_nil_of_mode hno hfp rfl)⟩
      · exact ⟨rfl, hb⟩

theorem Behind.storeTell (hb : Behind b u) (hno : ∀ h, ¬ Owes b f h) :
    u.storeTell f = b.storeTell f := by
  unfold Files.storeTell
  rw [hb.fp_eq hno]

theorem Behind.storeClose (hb : Behind b u) (hno : ∀ h, ¬ Owes b f h) (ok : Bool) :
    (u.storeClose f ok).1 = (b.storeClose f ok).1 ∧
      Behind (b.storeClose f ok).2 (u.storeClose f ok).2 := by
  unfold Files.storeClose
  rw [hb.fp_eq hno]
  cases hfp : (b.file f).fp with
  | none => exact ⟨rfl, hb⟩
  | some h => exact ⟨rfl, hb.setFp hno (by rintro h' ⟨⟩)⟩

/-! ### Runs -/

/-- **One step** that is orderly and reports no failure. -/
theorem Behind.step (hb : Behind b u) {op : Op F N} {env : Env} (hord : Orderly b op env)
    (hok : ¬ (b.buffered op env).1.failed) :
    (u.unbuffered op env).1 = (b.buffered op env).1 ∧
      Behind (b.buffered op env).2 (u.unbuffered op env).2 := by
  have hfreeAfter : ∀ {f : F} {b' : Files F N}, Flushed b b' f →
      (∀ h, (b.file f).fp = some h → Free b f h.name) →
      ∀ h, (b'.file f).fp = some h → Free b' f h.name := by
    intro f b' hf hfree h hh
    obtain ⟨h₀, hh₀, hname⟩ := hf.name h hh
    exact hname ▸ hf.free (hfree h₀ hh₀)
  cases op with
  | open_ f name mode =>
      obtain ⟨hres, hbeh⟩ := hb.storeOpen hord.1 hord.2 mode env.accepts
      exact ⟨congrArg Result.bool hres, hbeh⟩
  | write f x =>
      have hret : ∀ s : Files F N, Result.bool (s.storeWrite f [x] .ok).1 = .bool true :=
        fun s => congrArg Result.bool (storeWrite_fst s f [x] .ok)
      by_cases hfull : (b.file f).fbuf.length ≥ bytesLen
      · have hne : (b.file f).fbuf ≠ [] :=
          List.ne_nil_of_length_pos (lt_of_lt_of_le (by decide) hfull)
        rcases hr : b.writeBufToFile f env.flushed with ⟨ok, b₁⟩
        have hrun : b.buffered (.write f x) env =
            if ok then (.bool true, b₁.setFbuf f ((b₁.file f).fbuf ++ [x])) else (.bool false, b₁) := by
          rw [Files.buffered, if_pos hfull, hr]
        cases ok with
        | false => exact absurd (by rw [hrun]; rfl) hok
        | true =>
            have hflushed : (∃ h, Owes b f h) → env.flushed = .ok := by
              intro _
              have hisOk : env.flushed.isOk = true := by
                by_contra hno
                have hfst : (b.writeBufToFile f env.flushed).1 = false := by
                  unfold Files.writeBufToFile
                  rw [if_neg (by rw [storeWrite_fst]; exact hno)]
                rw [hr] at hfst
                cases hfst
              cases ho : env.flushed with
              | ok => rfl
              | failed k => rw [ho] at hisOk; cases hisOk
            obtain ⟨hb₁, hf, -⟩ := hb.writeBufToFile hne hflushed
            rw [hr] at hb₁ hf
            rw [hrun]
            exact ⟨hret u, hb₁.push (hfreeAfter hf hord) x⟩
      · have hrun : b.buffered (.write f x) env =
            (.bool true, b.setFbuf f ((b.file f).fbuf ++ [x])) := by
          rw [Files.buffered, if_neg hfull]
        rw [hrun]
        exact ⟨hret u, hb.push hord x⟩
  | writeBytes f bs =>
      obtain ⟨hb₁, hf⟩ := hb.flushBuf hord.1
      obtain ⟨hres, hbeh⟩ := hb₁.storeWrite hf.owes (hfreeAfter hf hord.2) bs env.written
      exact ⟨congrArg Result.bool hres, hbeh⟩
  | read f =>
      obtain ⟨hres, hbeh⟩ := hb.storeRead hord.1 hord.2 1
      exact ⟨congrArg (fun bs => Result.int (readInt bs)) hres, hbeh⟩
  | readBytes f len =>
      obtain ⟨hres, hbeh⟩ := hb.storeRead hord.1 hord.2 len
      exact ⟨congrArg Result.bytes hres, hbeh⟩
  | seek f pos =>
      obtain ⟨hb₁, hf⟩ := hb.flushBuf hord
      obtain ⟨hres, hbeh⟩ := hb₁.storeSeek hf.owes pos env.accepts
      exact ⟨congrArg Result.bool hres, hbeh⟩
  | tell f =>
      obtain ⟨hb₁, hf⟩ := hb.flushBuf hord
      exact ⟨congrArg Result.int (hb₁.storeTell hf.owes), hb₁⟩
  | flush f =>
      refine ⟨rfl, ?_⟩
      by_cases ho : ∃ h, Owes b f h
      · obtain ⟨h, ho⟩ := ho
        rcases hord ⟨h, ho⟩ with hfl | hfl
        · exact (hb.flushBuf fun _ => hfl).1
        · change Behind (b.flushBuf f env.flushed) u
          rw [hfl, flushBuf_failed ho]
          exact hb
      · exact (hb.flushBuf fun h => absurd h ho).1
  | close f =>
      obtain ⟨hb₁, hf⟩ := hb.flushBuf hord
      obtain ⟨hres, hbeh⟩ := hb₁.storeClose hf.owes env.accepts
      exact ⟨congrArg Result.bool hres, hbeh⟩

/-- Files that are not open, with empty buffers and the same store, and the steps that are taken with
and without buffers, as long as no failure is reported. -/
def paired : System (Files F N × Files F N) (Op F N × Env) where
  init p := p.1 = p.2 ∧ ∀ f, p.1.file f = {}
  step p l q := ¬ (p.1.buffered l.1 l.2).1.failed ∧
    q = ((p.1.buffered l.1 l.2).2, (p.2.unbuffered l.1 l.2).2)

/-- What the claims of buffering come to in a state: a store file for which no buffer holds bytes is
the same, and any other lacks the bytes of one buffer at the position of its handle. -/
structure SameContents (b u : Files F N) : Prop where
  same : ∀ n, (∀ f h, Owes b f h → h.name ≠ n) → u.content n = b.content n
  lacks : ∀ f h, Owes b f h →
    u.content h.name = (b.content h.name).map fun c => writeAt 0 c h.pos (b.file f).fbuf

/-- **Buffered files are unbuffered ones**, over runs of orderly steps that report no failure: in
every state that is reached the store files have the same contents up to what the buffers hold, and
the next orderly step returns the same. -/
theorem contents_of_reachable {p : Files F N × Files F N}
    (h : (paired.restrict fun p l => Orderly p.1 l.1 l.2).Reachable p) :
    SameContents p.1 p.2 ∧
      ∀ op env, Orderly p.1 op env → ¬ (p.1.buffered op env).1.failed →
        (p.2.unbuffered op env).1 = (p.1.buffered op env).1 := by
  have hb : Behind p.1 p.2 := by
    refine h.invariant (I := fun p => Behind p.1 p.2) ?_ ?_
    · rintro ⟨b, u⟩ ⟨heq, hclosed⟩
      obtain rfl : b = u := heq
      replace hclosed : ∀ f, b.file f = {} := hclosed
      have hno : ∀ f h, ¬ Owes b f h := fun f => not_owes_of_nil (by rw [hclosed])
      exact ⟨fun f => by rw [hclosed]; rfl, fun f => by rw [hclosed],
        fun f h ho => absurd ho (hno f h), fun _ _ => rfl, fun f h ho => absurd ho (hno f h)⟩
    · rintro p l q hb ⟨hord, hok, rfl⟩
      exact (hb.step hord hok).2
  exact ⟨⟨hb.kept, hb.owed⟩, fun op env hord hok => (hb.step hord hok).1⟩

/-- One more orderly step. -/
theorem reachable_next {p : Files F N × Files F N}
    (h : (paired.restrict fun p l => Orderly p.1 l.1 l.2).Reachable p) (op : Op F N) (env : Env)
    (hord : Orderly p.1 op env) (hok : ¬ (p.1.buffered op env).1.failed) :
    (paired.restrict fun p l => Orderly p.1 l.1 l.2).Reachable
      ((p.1.buffered op env).2, (p.2.unbuffered op env).2) :=
  h.tail (a := (op, env)) ⟨hord, hok, rfl⟩

/-! ### Two runs -/

/-- One file object, not open, and a store without files. The names of store files are the two
booleans. -/
def noFiles : Files Unit Bool where
  file _ := {}
  content _ := none

/-- The states with and without buffers after these steps. -/
def runBoth (p : Files Unit Bool × Files Unit Bool) (ls : List (Op Unit Bool × Env)) :
    Files Unit Bool × Files Unit Bool :=
  ls.foldl (fun p l => ((p.1.buffered l.1 l.2).2, (p.2.unbuffered l.1 l.2).2)) p

/-- A store that takes everything. -/
def takes : Env := ⟨.ok, .ok, true⟩

/-- Bytes are written and flushed. -/
theorem contents_flushed :
    SameContents (runBoth (noFiles, noFiles)
        [(.open_ () false .w, takes), (.write () 1, takes), (.flush (), takes)]).1
      (runBoth (noFiles, noFiles)
        [(.open_ () false .w, takes), (.write () 1, takes), (.flush (), takes)]).2 := by
  have hfree : ∀ (s : Files Unit Bool) name, Free s () name := fun s name g hg => absurd rfl hg
  have h₀ : ((paired (F := Unit) (N := Bool)).restrict fun p l => Orderly p.1 l.1 l.2).Reachable
      (noFiles, noFiles) := System.Reachable.start ⟨rfl, fun _ => rfl⟩
  have h₁ := reachable_next h₀ (.open_ () false .w) takes ⟨rfl, hfree _ _⟩ (by rintro ⟨⟩)
  have h₂ := reachable_next h₁ (.write () 1) takes (fun _ _ => hfree _ _) (by rintro ⟨⟩)
  have h₃ := reachable_next h₂ (.flush ()) takes (fun _ => .inl rfl) (by rintro ⟨⟩)
  exact (contents_of_reachable h₃).1

/-- A byte that the store refuses when the file is closed goes to the file that is opened next. -/
theorem not_contents :
    ¬ ∀ p : Files Unit Bool × Files Unit Bool, paired.Reachable p → SameContents p.1 p.2 := by
  intro h
  have h₀ : paired.Reachable (noFiles, noFiles) := System.Reachable.start ⟨rfl, fun _ => rfl⟩
  have h₁ := h₀.tail (a := (.open_ () false .w, takes)) ⟨by rintro ⟨⟩, rfl⟩
  have h₂ := h₁.tail (a := (.write () 1, takes)) ⟨by rintro ⟨⟩, rfl⟩
  have h₃ := h₂.tail (a := (.close (), ⟨.failed 0, .ok, true⟩)) ⟨by rintro ⟨⟩, rfl⟩
  have h₄ := h₃.tail (a := (.open_ () true .w, takes)) ⟨by rintro ⟨⟩, rfl⟩
  have h₅ := h₄.tail (a := (.flush (), takes)) ⟨by rintro ⟨⟩, rfl⟩
  have hsame := (h _ h₅).same true fun f h => by
    refine fun ho => absurd ho.2.2 ?_
    exact not_not.mpr rfl
  exact absurd hsame (by decide)

end Sedona.FileStream
