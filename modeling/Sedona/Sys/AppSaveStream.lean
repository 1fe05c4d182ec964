import Sedona.Library.Sink
import Sedona.Sys.AppRoundTrip

/-!
# Saving to a Stream That May Refuse Bytes

`saveApp` with the stream that it writes to: the methods return whether the stream has taken
everything, and all that `saveApp` looks at is what the last of them returns.

## Main results

* `emits_saveApp`: what is offered to a stream does not depend on what it refuses.
* `saveApp_reports_iff`: when the result of `saveApp` tells whether the stream has the whole file.
-/

namespace Sedona

open Fuel Sink

/-- What a stream is offered: a byte, or a block of bytes. -/
inductive Chunk where
  | byte (b : BitVec 8)
  | block (bs : List (BitVec 8))
deriving DecidableEq

def Chunk.bytes : Chunk → List (BitVec 8)
  | .byte b => [b]
  | .block bs => bs

/-- The streams with `OutStream.write` and `OutStream.writeBytes`. -/
abbrev Stream (σ : Type) := Sink Chunk σ

/-- `BufOutStream`. -/
def bufOutStream : Stream Buf where
  offer
    | .byte b, buf =>
        if buf.size ≥ buf.bytesLen then (false, buf)
        else (true, { bytes := buf.bytes.set buf.size b, size := buf.size + 1 })
    | .block bs, buf =>
        if buf.size + bs.length ≥ buf.bytesLen then (false, buf)
        else (true, { bytes := buf.bytes.take buf.size ++ bs ++ buf.bytes.drop (buf.size + bs.length),
                      size := buf.size + bs.length })

namespace Stream

variable {σ : Type} (out : Stream σ)

/-- `OutStream.write`. -/
def write (b : BitVec 32) : Writer Chunk σ Bool := out.send (.byte (b.setWidth 8))

/-- `OutStream.writeBytes`. -/
def writeBytes (bs : List (BitVec 8)) : Writer Chunk σ Bool := out.send (.block bs)

/-- `OutStream.writeBool`. -/
def writeBool (b : Option Bool) : Writer Chunk σ Bool :=
  out.write (match b with
    | none => 2
    | some true => 1
    | some false => 0)

/-- `OutStream.writeStr`. -/
def writeStr : Str → Writer Chunk σ Bool
  | [] => out.write 0
  | ch :: s => do
      let _ ← out.write (ch.setWidth 32)
      writeStr s

/-- `OutStream.writeI2`. -/
def writeI2 (v : BitVec 32) : Writer Chunk σ Bool := do
  let b₁ ← out.write ((v.sshiftRight 8) &&& 0xff)
  let b₀ ← out.write ((v.sshiftRight 0) &&& 0xff)
  pure (b₁ && b₀)

/-- `OutStream.writeI4`. -/
def writeI4 (v : BitVec 32) : Writer Chunk σ Bool := do
  let b₃ ← out.write ((v.sshiftRight 24) &&& 0xff)
  let b₂ ← out.write ((v.sshiftRight 16) &&& 0xff)
  let b₁ ← out.write ((v.sshiftRight 8) &&& 0xff)
  let b₀ ← out.write ((v.sshiftRight 0) &&& 0xff)
  pure (b₃ && b₂ && b₁ && b₀)

/-- `OutStream.writeI8`. -/
def writeI8 (v : BitVec 64) : Writer Chunk σ Bool := do
  let hi ← out.writeI4 (((v.sshiftRight 32) &&& 0xffffffff).setWidth 32)
  let lo ← out.writeI4 (((v.sshiftRight 0) &&& 0xffffffff).setWidth 32)
  pure (hi && lo)

/-- `Component.saveProp`. -/
def saveValue : {t : SlotType} → Value t → Writer Chunk σ Unit
  | .void, _ => pure ()
  | .bool, b => discard (out.writeBool b)
  | .byte, v => discard (out.write (v.setWidth 32))
  | .short, v => discard (out.writeI2 (v.setWidth 32))
  | .int, v => discard (out.writeI4 v)
  | .long, v => discard (out.writeI8 v)
  | .float, v => discard (out.writeI4 v)
  | .double, v => discard (out.writeI8 v)
  | .buf, b => do
      let _ ← out.writeI2 (BitVec.ofNat 32 b.size)
      discard (out.writeBytes b.used)

/-- `Component.saveProps`. -/
def saveProps (filter : Char) (values : (s : Slot) → Value s.type) :
    List Slot → Writer Chunk σ Unit
  | [] => pure ()
  | slot :: slots => do
      if slot.matchProp filter then out.saveValue (values slot)
      saveProps filter values slots

/-- `Component.saveAppComp`. -/
def saveAppComp (c : Component) (values : (s : Slot) → Value s.type) : Writer Chunk σ Unit := do
  let _ ← out.writeI2 (BitVec.ofNat 32 c.id)
  let _ ← out.write (BitVec.ofNat 32 c.type.kit)
  let _ ← out.write (BitVec.ofNat 32 c.type.id)
  let _ ← out.writeStr c.name
  let _ ← out.writeI2 (BitVec.ofNat 32 c.parent)
  let _ ← out.writeI2 (BitVec.ofNat 32 c.children)
  let _ ← out.writeI2 (BitVec.ofNat 32 c.nextSibling)
  out.saveProps 'c' values c.type.slots
  discard (out.write 0x3b)

/-- `Link.save`. -/
def saveLink (l : Link) : Writer Chunk σ Unit := do
  let _ ← out.writeI2 (BitVec.ofNat 32 l.fromComp)
  let _ ← out.write (BitVec.ofNat 32 l.fromSlot.val)
  let _ ← out.writeI2 (BitVec.ofNat 32 l.toComp)
  discard (out.write (BitVec.ofNat 32 l.toSlot.val))

/-- The loop of `App.saveSchema`. -/
def saveKits : List Kit → Writer Chunk σ Unit
  | [] => pure ()
  | kit :: kits => do
      let _ ← out.writeStr kit.name
      let _ ← out.writeI4 kit.checksum
      saveKits kits

/-- `App.saveSchema`. -/
def saveSchema (kits : List Kit) : Writer Chunk σ Unit := do
  let _ ← out.write (BitVec.ofNat 32 kits.length)
  out.saveKits kits

/-- The loop of `App.saveApp` over the components. -/
def saveComps (a : App Props) : List Ref → Writer Chunk σ Unit
  | [] => pure ()
  | r :: refs => do
      if r ≠ 0 then
        let c ← (a.objs r : Option Component)
        out.saveAppComp c (a.data r)
      saveComps a refs

/-- The loop of `App.saveApp` along the links into a component. -/
def saveLinksTo (a : App Props) : ℕ → Ref → Writer Chunk σ Unit
  | 0, _ => (none : Option Unit)
  | fuel + 1, link =>
      if link = 0 then pure ()
      else do
        let l ← (a.links link : Option Link)
        out.saveLink l
        saveLinksTo a fuel l.nextTo

/-- The loop of `App.saveApp` over the links. -/
def saveLinks (a : App Props) (fuel : ℕ) : List Ref → Writer Chunk σ Unit
  | [] => pure ()
  | r :: refs => do
      if r ≠ 0 then
        let c ← (a.objs r : Option Component)
        out.saveLinksTo a fuel c.linksTo
      saveLinks a fuel refs

/-- `App.saveApp`. -/
def saveApp (kits : List Kit) (fuel : ℕ) (a : App Props) : Writer Chunk σ ℕ := do
  let _ ← out.writeI4 0x73617070
  let _ ← out.writeI4 0x0003
  out.saveSchema kits
  let _ ← out.writeI2 (BitVec.ofNat 32 a.maxId)
  out.saveComps a a.comps
  let _ ← out.writeI2 0xffff
  out.saveLinks a fuel a.comps
  let _ ← out.writeI2 0xffff
  let ok ← out.write 0x2e
  pure (if ok then 0 else 1)

/-! ### What is offered -/

/-- The chunks that `saveProp` offers. -/
def valueChunks : {t : SlotType} → Value t → List Chunk
  | .buf, b => (OutStream.writeI2 (BitVec.ofNat 32 b.size)).map .byte ++ [.block b.used]
  | _, v => (Sedona.saveValue v).map .byte

/-- The chunks that `saveProps` offers. -/
def propsChunks (filter : Char) (slots : List Slot) (values : (s : Slot) → Value s.type) :
    List Chunk :=
  (slots.filter (·.matchProp filter)).flatMap fun slot => valueChunks (values slot)

/-- The chunks that `saveAppComp` offers. -/
def compChunks (c : Component) (values : (s : Slot) → Value s.type) : List Chunk :=
  (OutStream.writeI2 (BitVec.ofNat 32 c.id) ++ OutStream.write (BitVec.ofNat 32 c.type.kit) ++
    OutStream.write (BitVec.ofNat 32 c.type.id) ++ OutStream.writeStr c.name ++
    OutStream.writeI2 (BitVec.ofNat 32 c.parent) ++ OutStream.writeI2 (BitVec.ofNat 32 c.children) ++
    OutStream.writeI2 (BitVec.ofNat 32 c.nextSibling)).map .byte ++
  propsChunks 'c' c.type.slots values ++ [.byte 0x3b]

variable {out} {a : App Props} {c : Component}

theorem emits_write (b : BitVec 32) :
    out.Emits (out.write b) ((OutStream.write b).map .byte) := emits_send _

theorem emits_writeI2 (v : BitVec 32) :
    out.Emits (out.writeI2 v) ((OutStream.writeI2 v).map .byte) :=
  (emits_send _).bind fun _ => (emits_send _).bind fun _ => Emits.pure _

theorem emits_writeI4 (v : BitVec 32) :
    out.Emits (out.writeI4 v) ((OutStream.writeI4 v).map .byte) :=
  (emits_send _).bind fun _ => (emits_send _).bind fun _ => (emits_send _).bind fun _ =>
    (emits_send _).bind fun _ => Emits.pure _

theorem emits_writeI8 (v : BitVec 64) :
    out.Emits (out.writeI8 v) ((OutStream.writeI8 v).map .byte) :=
  (emits_writeI4 _).bind fun _ => (emits_writeI4 _).bind fun _ => Emits.pure _

theorem emits_writeStr (s : Str) :
    out.Emits (out.writeStr s) ((OutStream.writeStr s).map .byte) := by
  induction s with
  | nil => exact emits_send _
  | cons ch s ih =>
    have hch : (ch.setWidth 32).setWidth 8 = ch := by
      rw [BitVec.setWidth_setWidth_of_le _ (by decide), BitVec.setWidth_eq]
    have h : out.Emits (out.writeStr (ch :: s)) ([.byte ((ch.setWidth 32).setWidth 8)] ++
        (OutStream.writeStr s).map .byte) := (emits_send _).bind fun _ => ih
    rw [hch] at h
    exact h

theorem emits_saveValue {t : SlotType} (v : Value t) :
    out.Emits (out.saveValue v) (valueChunks v) := by
  cases t with
  | void => exact Emits.pure _
  | bool => exact (emits_send _).discard
  | byte => exact (emits_send _).discard
  | short => exact (emits_writeI2 _).discard
  | int | float => exact (emits_writeI4 _).discard
  | long | double => exact (emits_writeI8 _).discard
  | buf => exact (emits_writeI2 _).bind fun _ => (emits_send _).discard

theorem emits_saveProps (filter : Char) (slots : List Slot) (values : (s : Slot) → Value s.type) :
    out.Emits (out.saveProps filter values slots) (propsChunks filter slots values) := by
  induction slots with
  | nil => exact Emits.pure _
  | cons slot slots ih =>
    unfold saveProps propsChunks
    by_cases hslot : slot.matchProp filter = true
    · have hfilter : (slot :: slots).filter (·.matchProp filter) =
          slot :: slots.filter (·.matchProp filter) := List.filter_cons_of_pos hslot
      rw [if_pos hslot, hfilter, List.flatMap_cons]
      exact (emits_saveValue _).bind fun _ => ih
    · have hfilter : (slot :: slots).filter (·.matchProp filter) =
          slots.filter (·.matchProp filter) := List.filter_cons_of_neg hslot
      rw [if_neg hslot, hfilter]
      exact ih

theorem emits_saveAppComp (c : Component) (values : (s : Slot) → Value s.type) :
    out.Emits (out.saveAppComp c values) (compChunks c values) := by
  have h : out.Emits (out.saveAppComp c values) _ :=
    (emits_writeI2 (BitVec.ofNat 32 c.id)).bind fun _ =>
    (emits_write (BitVec.ofNat 32 c.type.kit)).bind fun _ =>
    (emits_write (BitVec.ofNat 32 c.type.id)).bind fun _ =>
    (emits_writeStr c.name).bind fun _ =>
    (emits_writeI2 (BitVec.ofNat 32 c.parent)).bind fun _ =>
    (emits_writeI2 (BitVec.ofNat 32 c.children)).bind fun _ =>
    (emits_writeI2 (BitVec.ofNat 32 c.nextSibling)).bind fun _ =>
    (emits_saveProps 'c' c.type.slots values).bind fun _ => (emits_write 0x3b).discard
  unfold compChunks
  simp only [List.map_append, List.append_assoc]
  exact h

theorem emits_saveLink (l : Link) :
    out.Emits (out.saveLink l) ((App.saveLink l).map .byte) := by
  have h : out.Emits (out.saveLink l) _ :=
    (emits_writeI2 (BitVec.ofNat 32 l.fromComp)).bind fun _ =>
    (emits_write (BitVec.ofNat 32 l.fromSlot.val)).bind fun _ =>
    (emits_writeI2 (BitVec.ofNat 32 l.toComp)).bind fun _ =>
    (emits_write (BitVec.ofNat 32 l.toSlot.val)).discard
  unfold App.saveLink
  simp only [List.map_append]
  exact h

theorem emits_saveSchema (kits : List Kit) :
    out.Emits (out.saveSchema kits) ((App.saveSchema kits).map .byte) := by
  have hkits : out.Emits (out.saveKits kits) ((kits.flatMap fun kit =>
      OutStream.writeStr kit.name ++ OutStream.writeI4 kit.checksum).map .byte) := by
    induction kits with
    | nil => exact Emits.pure _
    | cons kit kits ih =>
      have h := (emits_writeStr kit.name).bind fun _ => (emits_writeI4 kit.checksum).bind fun _ => ih
      simp only [List.flatMap_cons, List.map_append, List.append_assoc]
      exact h
  unfold App.saveSchema
  rw [List.map_append]
  exact (emits_send _).bind fun _ => hkits

/-- The chunks that the loop over the components offers. -/
def compsChunks (a : App Props) (refs : List Ref) : List Chunk :=
  refs.flatMap fun r => if r = 0 then [] else (a.objs r).elim [] fun c => compChunks c (a.data r)

theorem emits_saveComps {refs : List Ref} {bs : List (BitVec 8)}
    (h : App.saveComps a refs = some bs) :
    out.Emits (out.saveComps a refs) (compsChunks a refs) := by
  induction refs generalizing bs with
  | nil => exact Emits.pure _
  | cons r refs ih =>
    unfold App.saveComps at h
    unfold saveComps compsChunks
    rw [List.flatMap_cons]
    by_cases h0 : r = 0
    · rw [if_pos h0] at h
      rw [if_neg (not_not_intro h0), if_pos h0]
      exact ih h
    · rw [if_neg h0] at h
      obtain ⟨c, hc, h⟩ := Option.bind_eq_some_iff.mp h
      obtain ⟨bs', hbs, -⟩ := Option.bind_eq_some_iff.mp h
      rw [if_pos h0, if_neg h0, hc]
      exact Emits.lift_bind rfl ((emits_saveAppComp c _).bind fun _ => ih hbs)

theorem emits_saveLinksTo {fuel : ℕ} {link : Ref} {bs : List (BitVec 8)}
    (h : App.saveLinksTo a fuel link = some bs) :
    out.Emits (out.saveLinksTo a fuel link) (bs.map .byte) := by
  induction fuel generalizing link bs with
  | zero => cases h
  | succ fuel ih =>
    unfold App.saveLinksTo at h
    unfold saveLinksTo
    by_cases h0 : link = 0
    · rw [if_pos h0] at h
      obtain rfl := Option.some.inj h
      rw [if_pos h0]
      exact Emits.pure _
    · rw [if_neg h0] at h
      obtain ⟨l, hl, h⟩ := Option.bind_eq_some_iff.mp h
      obtain ⟨bs', hbs, h⟩ := Option.bind_eq_some_iff.mp h
      obtain rfl := Option.some.inj h
      rw [if_neg h0, hl, List.map_append]
      exact Emits.lift_bind rfl ((emits_saveLink l).bind fun _ => ih hbs)

theorem emits_saveLinks {fuel : ℕ} {refs : List Ref} {bs : List (BitVec 8)}
    (h : App.saveLinks a fuel refs = some bs) :
    out.Emits (out.saveLinks a fuel refs) (bs.map .byte) := by
  induction refs generalizing bs with
  | nil =>
    obtain rfl := Option.some.inj h
    exact Emits.pure _
  | cons r refs ih =>
    unfold App.saveLinks at h
    unfold saveLinks
    by_cases h0 : r = 0
    · rw [if_pos h0] at h
      rw [if_neg (not_not_intro h0)]
      exact ih h
    · rw [if_neg h0] at h
      obtain ⟨c, hc, h⟩ := Option.bind_eq_some_iff.mp h
      obtain ⟨here, hhere, h⟩ := Option.bind_eq_some_iff.mp h
      obtain ⟨bs', hbs, h⟩ := Option.bind_eq_some_iff.mp h
      obtain rfl := Option.some.inj h
      rw [if_pos h0, hc, List.map_append]
      exact Emits.lift_bind rfl ((emits_saveLinksTo hhere).bind fun _ => ih hbs)

/-- The chunks before the end marker, with the links as bytes. -/
def appChunks (kits : List Kit) (a : App Props) (links : List (BitVec 8)) : List Chunk :=
  (OutStream.writeI4 0x73617070 ++ OutStream.writeI4 0x0003 ++ App.saveSchema kits ++
    OutStream.writeI2 (BitVec.ofNat 32 a.maxId)).map .byte ++ compsChunks a a.comps ++
  (OutStream.writeI2 0xffff ++ links ++ OutStream.writeI2 0xffff).map .byte

/-- What `saveApp` does with a stream: the chunks are offered one after the other, and the result
is whether the end marker was taken. -/
theorem run_saveApp {kits : List Kit} {fuel : ℕ} {comps links : List (BitVec 8)}
    (hcomps : App.saveComps a a.comps = some comps)
    (hlinks : App.saveLinks a fuel a.comps = some links) (l : Log Chunk σ) :
    (out.saveApp kits fuel a).run l =
      some (if (out.offer (.byte 0x2e) (out.after (appChunks kits a links) l.state)).1 then 0 else 1,
        out.sendAll (appChunks kits a links ++ [.byte 0x2e]) l) := by
  unfold saveApp
  refine (emits_writeI4 0x73617070).run_bind fun _ => ?_
  refine (emits_writeI4 0x0003).run_bind fun _ => ?_
  refine (emits_saveSchema kits).run_bind fun _ => ?_
  refine (emits_writeI2 (BitVec.ofNat 32 a.maxId)).run_bind fun _ => ?_
  refine (emits_saveComps hcomps).run_bind fun _ => ?_
  refine (emits_writeI2 0xffff).run_bind fun _ => ?_
  refine (emits_saveLinks hlinks).run_bind fun _ => ?_
  refine (emits_writeI2 0xffff).run_bind fun _ => ?_
  rw [sendAll_append, ← state_sendAll, appChunks]
  simp only [List.map_append, sendAll_append]
  exact run_send (Chunk.byte 0x2e) fun ok => if ok then 0 else 1

/-! ### The bytes -/

/-- The bytes of these chunks. -/
def bytes (ks : List Chunk) : List (BitVec 8) := ks.flatMap Chunk.bytes

@[simp] theorem bytes_append (ks ks' : List Chunk) : bytes (ks ++ ks') = bytes ks ++ bytes ks' :=
  List.flatMap_append

@[simp] theorem bytes_map (bs : List (BitVec 8)) : bytes (bs.map .byte) = bs := by
  induction bs with
  | nil => rfl
  | cons b bs ih => exact congrArg (b :: ·) ih

theorem bytes_concat (ks : List Chunk) (b : BitVec 8) :
    bytes (ks ++ [.byte b]) = bytes ks ++ [b] := bytes_append ks _

theorem bytes_valueChunks {t : SlotType} (v : Value t) :
    bytes (valueChunks v) = Sedona.saveValue v := by
  cases t with
  | buf =>
    rw [valueChunks, bytes_append, bytes_map, Sedona.saveValue]
    exact congrArg _ (List.append_nil _)
  | _ => exact bytes_map _

theorem bytes_propsChunks (filter : Char) (slots : List Slot)
    (values : (s : Slot) → Value s.type) :
    bytes (propsChunks filter slots values) = App.saveProps filter slots values := by
  unfold bytes propsChunks App.saveProps
  rw [List.flatMap_assoc]
  exact List.flatMap_congr fun slot _ => bytes_valueChunks (values slot)

theorem bytes_compChunks (c : Component) (values : (s : Slot) → Value s.type) :
    bytes (compChunks c values) = App.saveAppComp c values := by
  unfold compChunks App.saveAppComp App.saveBody
  rw [bytes_append, bytes_append, bytes_map, bytes_propsChunks]
  simp only [List.append_assoc]
  rfl

theorem bytes_compsChunks {refs : List Ref} {bs : List (BitVec 8)}
    (h : App.saveComps a refs = some bs) : bytes (compsChunks a refs) = bs := by
  induction refs generalizing bs with
  | nil => exact Option.some.inj h
  | cons r refs ih =>
    unfold App.saveComps at h
    unfold compsChunks
    rw [List.flatMap_cons, bytes_append]
    by_cases h0 : r = 0
    · rw [if_pos h0] at h
      rw [if_pos h0]
      exact ih h
    · rw [if_neg h0] at h
      obtain ⟨c, hc, h⟩ := Option.bind_eq_some_iff.mp h
      obtain ⟨bs', hbs, h⟩ := Option.bind_eq_some_iff.mp h
      obtain rfl := Option.some.inj h
      rw [if_neg h0, hc, Option.elim_some, bytes_compChunks]
      exact congrArg _ (ih hbs)

/-- The chunks make up the file. -/
theorem bytes_appChunks {kits : List Kit} {fuel : ℕ} {comps links : List (BitVec 8)}
    (hcomps : App.saveComps a a.comps = some comps)
    (hlinks : App.saveLinks a fuel a.comps = some links) :
    App.saveApp kits fuel a = some (bytes (appChunks kits a links ++ [.byte 0x2e])) := by
  unfold App.saveApp appChunks
  rw [hcomps, hlinks]
  simp only [bytes_append, bytes_map, bytes_compsChunks hcomps, List.append_assoc,
    Option.bind_eq_bind, Option.bind_some]
  rfl

end Stream

/-! ### What the result tells -/

namespace App

variable {σ : Type} {a b : App Props} {kits : List Kit} {ks : List Chunk} {file : List (BitVec 8)}

/-- If `saveApp` returns 0 then the stream has received the file, and it does not return 0 if the
stream has refused anything. -/
def Reports (kits : List Kit) (a : App Props) (out : Stream σ) (s : σ) : Prop :=
  ∃ result log file, Returns (fun fuel => (out.saveApp kits fuel a).run { state := s }) (result, log) ∧
    Returns (fun fuel => saveApp kits fuel a) file ∧
    (result = 0 → Stream.bytes log.taken = file) ∧ (log.refused = true → result ≠ 0)

/-- What is offered to every stream before the end marker: the file. -/
structure Offers (kits : List Kit) (a : App Props) (ks : List Chunk) (file : List (BitVec 8)) :
    Prop where
  run {σ : Type} (out : Stream σ) (l : Log Chunk σ) :
    Returns (fun fuel => (out.saveApp kits fuel a).run l)
      (if (out.offer (.byte 0x2e) (out.after ks l.state)).1 then 0 else 1,
        out.sendAll (ks ++ [.byte 0x2e]) l)
  saved : Returns (fun fuel => saveApp kits fuel a) file
  bytes : Stream.bytes ks ++ [0x2e] = file

theorem exists_offers {cb : Callbacks Props} (h : (editing cb).Reachable a) (kits : List Kit) :
    ∃ ks file, Offers kits a ks file := by
  obtain ⟨comps, links, n, hcomps, hlinks⟩ : ∃ comps links n, saveComps a a.comps = some comps ∧
      ∀ fuel, n ≤ fuel → saveLinks a fuel a.comps = some links := by
    rcases inv_of_reachable h with hfresh | hinv
    · rw [hfresh.comps]
      exact ⟨[], [], 0, rfl, fun _ _ => rfl⟩
    · obtain ⟨refs, -, -, n, hlinks⟩ := saveLinks_spec hinv
      exact ⟨_, _, n, saveComps_eq hinv.table, hlinks⟩
  refine ⟨Stream.appChunks kits a links, _, fun out l => ⟨n, fun fuel hfuel => ?_⟩,
    ⟨n, fun fuel hfuel => Stream.bytes_appChunks hcomps (hlinks fuel hfuel)⟩, (Stream.bytes_concat _ _).symm⟩
  exact Stream.run_saveApp hcomps (hlinks fuel hfuel) l

/-- A stream is told about in full unless it refuses something before an end marker that it takes. -/
theorem Offers.reports_iff (h : Offers kits a ks file) (out : Stream σ) (s : σ) :
    Reports kits a out s ↔
      out.Takes ks s ∨ (out.offer (.byte 0x2e) (out.after ks s)).1 = false := by
  have hrun := h.run out { state := s }
  have hrefused : (out.sendAll (ks ++ [.byte 0x2e]) { state := s }).refused = true ↔
      ¬ (out.Takes ks s ∧ (out.offer (.byte 0x2e) (out.after ks s)).1 = true) := by
    rw [refused_iff rfl, takes_append]
    exact not_congr (and_congr_right fun _ => and_iff_left trivial)
  constructor
  · rintro ⟨result, log, file', hrun', -, -, hresult⟩
    obtain ⟨rfl, rfl⟩ := Prod.mk.inj (hrun'.unique hrun)
    by_contra hnot
    obtain ⟨htakes, hend⟩ := not_or.mp hnot
    rw [Bool.not_eq_false] at hend
    refine hresult (hrefused.mpr fun hall => htakes hall.1) ?_
    rw [if_pos hend]
  · intro hcond
    refine ⟨_, _, file, hrun, h.saved, fun hzero => ?_, fun hany => ?_⟩
    · have hend : (out.offer (.byte 0x2e) (out.after ks s)).1 = true := by
        by_contra hend
        rw [if_neg hend] at hzero
        exact absurd hzero (by decide)
      have htakes : out.Takes ks s := hcond.resolve_right (by rw [hend]; decide)
      have hall : out.Takes (ks ++ [.byte 0x2e]) s := takes_append.mpr ⟨htakes, hend, trivial⟩
      rw [taken_of_takes hall, ← h.bytes]
      exact Stream.bytes_concat ks _
    · by_cases hend : (out.offer (.byte 0x2e) (out.after ks s)).1 = true
      · have htakes : out.Takes ks s := hcond.resolve_right (by rw [hend]; decide)
        exact absurd ⟨htakes, hend⟩ (hrefused.mp hany)
      · rw [if_neg hend]
        decide

/-! ### A buffer -/

/-- A chunk is put behind the others, or refused. -/
theorem offer_bufOutStream (k : Chunk) {buf : Buf} (hbuf : buf.size ≤ buf.bytesLen) :
    ((bufOutStream.offer k buf).1 = true ∧
      (bufOutStream.offer k buf).2.bytesLen = buf.bytesLen ∧
      (bufOutStream.offer k buf).2.size = buf.size + k.bytes.length ∧
      buf.size + k.bytes.length ≤ buf.bytesLen) ∨
    ((bufOutStream.offer k buf).1 = false ∧ (bufOutStream.offer k buf).2 = buf ∧
      buf.bytesLen ≤ buf.size + k.bytes.length) := by
  cases k with
  | byte b =>
    by_cases hfull : buf.size ≥ buf.bytesLen
    · have hoffer : bufOutStream.offer (.byte b) buf = (false, buf) := if_pos hfull
      rw [hoffer]
      exact .inr ⟨rfl, rfl, le_trans hfull (Nat.le_add_right ..)⟩
    · have hoffer : bufOutStream.offer (.byte b) buf =
          (true, { bytes := buf.bytes.set buf.size b, size := buf.size + 1 }) := if_neg hfull
      rw [hoffer]
      exact .inl ⟨rfl, List.length_set, rfl, Nat.lt_of_not_ge hfull⟩
  | block bs =>
    by_cases hfull : buf.size + bs.length ≥ buf.bytesLen
    · have hoffer : bufOutStream.offer (.block bs) buf = (false, buf) := if_pos hfull
      rw [hoffer]
      exact .inr ⟨rfl, rfl, hfull⟩
    · have hoffer : bufOutStream.offer (.block bs) buf =
          (true, { bytes := buf.bytes.take buf.size ++ bs ++ buf.bytes.drop (buf.size + bs.length),
                   size := buf.size + bs.length }) := if_neg hfull
      rw [hoffer]
      refine .inl ⟨rfl, ?_, rfl, Nat.le_of_not_ge hfull⟩
      simp only [Buf.bytesLen, List.length_append, List.length_take, List.length_drop] at hbuf hfull ⊢
      omega

theorem size_after (ks : List Chunk) {buf : Buf} (hbuf : buf.size ≤ buf.bytesLen) :
    (bufOutStream.after ks buf).bytesLen = buf.bytesLen ∧
      (bufOutStream.after ks buf).size ≤ buf.bytesLen := by
  induction ks generalizing buf with
  | nil => exact ⟨rfl, hbuf⟩
  | cons k ks ih =>
    change (bufOutStream.after ks (bufOutStream.offer k buf).2).bytesLen = buf.bytesLen ∧
      (bufOutStream.after ks (bufOutStream.offer k buf).2).size ≤ buf.bytesLen
    obtain ⟨-, hlen, hsize, hfits⟩ | ⟨-, hsame, -⟩ := offer_bufOutStream k hbuf
    · rw [← hlen]
      exact ih (by rw [hsize, hlen]; exact hfits)
    · rw [hsame]
      exact ih hbuf

theorem offer_end (buf : Buf) :
    (bufOutStream.offer (.byte 0x2e) buf).1 = false ↔ buf.bytesLen ≤ buf.size := by
  by_cases hfull : buf.size ≥ buf.bytesLen
  · have hoffer : bufOutStream.offer (.byte 0x2e) buf = (false, buf) := if_pos hfull
    rw [hoffer]
    exact iff_of_true rfl hfull
  · have hoffer : bufOutStream.offer (.byte 0x2e) buf =
        (true, { bytes := buf.bytes.set buf.size 0x2e, size := buf.size + 1 }) := if_neg hfull
    rw [hoffer]
    exact iff_of_false (fun h => by cases h) hfull

/-- A buffer takes all chunks if there is room for them and the end marker. -/
theorem takes_bufOutStream {buf : Buf} (hbuf : buf.size ≤ buf.bytesLen) :
    bufOutStream.Takes (ks ++ [.byte 0x2e]) buf ↔
      buf.size + ((Stream.bytes ks).length + 1) ≤ buf.bytesLen := by
  induction ks generalizing buf with
  | nil =>
    change ((bufOutStream.offer (.byte 0x2e) buf).1 = true ∧ True) ↔ buf.size + (0 + 1) ≤ _
    have hend := offer_end buf
    rw [and_iff_left trivial, ← Bool.not_eq_false, hend, Nat.zero_add, Nat.not_le]
    exact Iff.rfl
  | cons k ks ih =>
    have hlength : (Stream.bytes (k :: ks)).length = k.bytes.length + (Stream.bytes ks).length :=
      List.length_append
    rw [hlength]
    change ((bufOutStream.offer k buf).1 = true ∧ bufOutStream.Takes (ks ++ [.byte 0x2e]) _) ↔ _
    obtain ⟨hok, hlen, hsize, hfits⟩ | ⟨hok, -, hfull⟩ := offer_bufOutStream k hbuf
    · rw [ih (by rw [hsize, hlen]; exact hfits), hsize, hlen]
      exact ⟨fun h => by omega, fun h => ⟨hok, by omega⟩⟩
    · rw [hok]
      exact ⟨fun h => absurd h.1 (by decide), fun h => by omega⟩

/-- For a buffer: it has room for the file, or it is full in the end. -/
theorem Offers.reports_bufOutStream_iff (h : Offers kits a ks file) {buf : Buf}
    (hbuf : buf.size ≤ buf.bytesLen) :
    Reports kits a bufOutStream buf ↔
      buf.size + file.length ≤ buf.bytesLen ∨ (bufOutStream.after ks buf).size = buf.bytesLen := by
  obtain ⟨hlen, hsize⟩ := size_after ks hbuf
  have hfile : file.length = (Stream.bytes ks).length + 1 := by
    rw [← h.bytes, List.length_append]
    rfl
  have hend := offer_end (bufOutStream.after ks buf)
  have hall : bufOutStream.Takes ks buf ∧
      (bufOutStream.offer (.byte 0x2e) (bufOutStream.after ks buf)).1 = true ↔
        buf.size + file.length ≤ buf.bytesLen := by
    rw [hfile, ← takes_bufOutStream hbuf, takes_append]
    exact and_congr_right fun _ => (and_iff_left trivial).symm
  rw [h.reports_iff, ← hall]
  constructor
  · rintro (htakes | hfull)
    · by_cases hok : (bufOutStream.offer (.byte 0x2e) (bufOutStream.after ks buf)).1 = true
      · exact .inl ⟨htakes, hok⟩
      · exact .inr (le_antisymm hsize (hlen ▸ hend.mp (Bool.not_eq_true _ ▸ hok)))
    · exact .inr (le_antisymm hsize (hlen ▸ hend.mp hfull))
  · rintro (⟨htakes, -⟩ | hfull)
    · exact .inl htakes
    · exact .inr (hend.mpr (by rw [hlen, hfull]))

/-- **When the result of `saveApp` tells whether the stream has the file**: for any stream, if it
takes all chunks before the end marker or does not take the end marker; for a buffer, if there is
room for the file or the buffer is full in the end. -/
theorem saveApp_reports_iff {cb : Callbacks Props} (h : (editing cb).Reachable a) (kits : List Kit) :
    ∃ ks file, Offers kits a ks file ∧
      (∀ (σ : Type) (out : Stream σ) (s : σ), Reports kits a out s ↔
        out.Takes ks s ∨ (out.offer (.byte 0x2e) (out.after ks s)).1 = false) ∧
      ∀ buf : Buf, buf.size ≤ buf.bytesLen → (Reports kits a bufOutStream buf ↔
        buf.size + file.length ≤ buf.bytesLen ∨
          (bufOutStream.after ks buf).size = buf.bytesLen) := by
  obtain ⟨ks, file, hoffers⟩ := exists_offers h kits
  exact ⟨ks, file, hoffers, fun _ out s => hoffers.reports_iff out s,
    fun _ hbuf => hoffers.reports_bufOutStream_iff hbuf⟩

/-- What a stream that is told about in full has received is loaded as the file is. -/
theorem Reports.loads {σ : Type} {out : Stream σ} {s : σ} {log : Log Chunk σ} {b : App Props}
    {cb : Callbacks Props} {init : CompType → (s : Slot) → Value s.type} {mem linkMem : ℕ → Ref}
    {temp : Str} (h : Reports kits a out s)
    (hrun : Returns (fun fuel => (out.saveApp kits fuel a).run { state := s }) (0, log))
    (hload : RoundTrips cb kits init mem linkMem temp a b) :
    ∃ b', SameApp a b' ∧ Returns (fun fuel => (loadApp cb kits init mem linkMem true temp fuel b).run
      (Stream.bytes log.taken)) ((0, b'), []) := by
  obtain ⟨result, log', file, hrun', hsave, htaken, -⟩ := h
  obtain ⟨bytes, b', hsave', hsame, hloads⟩ := hload
  obtain ⟨rfl, rfl⟩ := Prod.mk.inj (hrun'.unique hrun)
  obtain rfl := hsave.unique hsave'
  refine ⟨b', hsame, ?_⟩
  rw [htaken rfl, ← List.append_nil file]
  exact hloads []

/-! ### A buffer that is too small for a string -/

/-- A string of 20 characters. -/
def longValues (s : Slot) : Value s.type :=
  match s with
  | { type := .buf, .. } => { bytes := List.replicate 20 0x61 ++ [0, 0, 0], size := 21 }
  | s => zeroValue s.type

/-- The application whose component has the long string. -/
def longApp : App Props :=
  ((Call.other (fun r s => if r = 2 then longValues s else zeroValue s.type) false).run quiet
    (savedRun 3) 9).getD freshApp

theorem reachable_longApp : (editing quiet).Reachable longApp := by
  have h₀ : (editing quiet).Reachable (savedRun 0) :=
    Transition.System.Reachable.start ⟨rfl, rfl, ⟨_, rfl, rfl, rfl, rfl, rfl⟩, fun _ => rfl, rfl⟩
  have h₁ := reachable_call (savedCall 0) 9 h₀ trivial fun _ => rfl
  have h₂ := reachable_call (savedCall 1) 9 h₁ ⟨Or.inr rfl, by decide⟩ fun _ => rfl
  have h₃ := reachable_call (savedCall 2) 9 h₂ rfl fun _ => rfl
  exact reachable_call (.other _ false) 9 h₃ trivial fun _ => rfl

/-- An empty buffer. -/
def emptyBuf (len : ℕ) : Buf := { bytes := List.replicate len 0, size := 0 }

/-- The log of the buffer after this much fuel. -/
def longLog (fuel : ℕ) : Option (ℕ × Log Chunk Buf) :=
  (bufOutStream.saveApp (kitNamed [0x73]) fuel longApp).run { state := emptyBuf 70 }

theorem longLog_eq (fuel : ℕ) : longLog (fuel + 9) = longLog 9 := by
  obtain ⟨comps, hcomps⟩ : ∃ comps, saveComps longApp longApp.comps = some comps := ⟨_, rfl⟩
  obtain ⟨links, hlinks⟩ : ∃ links, ∀ fuel, saveLinks longApp (fuel + 9) longApp.comps = some links :=
    ⟨_, fun fuel => rfl⟩
  exact (Stream.run_saveApp hcomps (hlinks fuel) _).trans
    (Stream.run_saveApp hcomps (hlinks 0) _).symm

/-- **A buffer of 70 bytes**: the string is refused, all that follows is taken, and the result is
0 for 62 bytes of a file of 83. -/
theorem not_reports_longApp : (editing quiet).Reachable longApp ∧
    (longLog 9).map (fun r => (r.1, r.2.refused, (Stream.bytes r.2.taken).length)) =
      some (0, true, 62) ∧
    (saveApp (kitNamed [0x73]) 9 longApp).map List.length = some 83 ∧
    ¬ Reports (kitNamed [0x73]) longApp bufOutStream (emptyBuf 70) := by
  have hlog : (longLog 9).map (fun r => (r.1, r.2.refused, (Stream.bytes r.2.taken).length)) =
      some (0, true, 62) := by decide +kernel
  refine ⟨reachable_longApp, hlog, by decide +kernel, ?_⟩
  rintro ⟨result, log, file, hrun, -, -, hresult⟩
  obtain ⟨n, hn⟩ : Returns longLog (result, log) := hrun
  have h9 := (longLog_eq n).symm.trans (hn (n + 9) (Nat.le_add_right n 9))
  rw [h9, Option.map_some, Option.some.injEq, Prod.mk.injEq, Prod.mk.injEq] at hlog
  exact hresult hlog.2.1 hlog.1

/-- A run in which the application is saved. -/
theorem saveApp_reports_savedRun : ∃ ks file, Offers (kitNamed [0x73]) (savedRun 4) ks file ∧
    (∀ (σ : Type) (out : Stream σ) (s : σ), Reports (kitNamed [0x73]) (savedRun 4) out s ↔
      out.Takes ks s ∨ (out.offer (.byte 0x2e) (out.after ks s)).1 = false) ∧
    ∀ buf : Buf, buf.size ≤ buf.bytesLen → (Reports (kitNamed [0x73]) (savedRun 4) bufOutStream buf ↔
      buf.size + file.length ≤ buf.bytesLen ∨
        (bufOutStream.after ks buf).size = buf.bytesLen) :=
  saveApp_reports_iff reachable_savedRun (kitNamed [0x73])

end App

end Sedona
