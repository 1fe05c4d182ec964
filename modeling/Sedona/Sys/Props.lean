import Sedona.Sys.App
import Sedona.Sys.Stream

/-!
# Property Values

The values of the properties of components, and `saveProp` and `loadProp` of `sys::Component`.
The value of a slot has the slot's type; a `Buf` is changed in place, so what is read depends
on the capacity of the buffer that is there.

## Main results

* `decodes_loadValue`: what `loadProp` reads from the bytes of `saveProp`.
* `sameValue_reloaded`: it is the value that was saved.
-/

namespace Sedona

open Decoding OutStream InStream Function

/-- A `sys::Buf`: `bytes` is the array of `bytesLen` bytes, of which `size` are used. -/
structure Buf where
  bytes : List (BitVec 8)
  size : ℕ
deriving DecidableEq, Repr

namespace Buf

/-- `bytesLen`, the capacity. -/
def bytesLen (b : Buf) : ℕ := b.bytes.length

/-- The bytes that are used. -/
def used (b : Buf) : List (BitVec 8) := b.bytes.take b.size

/-- The string in the bytes that are used. -/
def str (b : Buf) : Str := b.used.takeWhile (· != 0)

/-- `size` and `bytesLen` are shorts, and no more bytes are used than there are. -/
structure WellFormed (b : Buf) : Prop where
  size_le : b.size ≤ b.bytesLen
  len_lt : b.bytesLen < 0x10000

end Buf

/-- The values of a property of this type. Null is a third bool; floats are kept as bits. -/
@[reducible] def Value : SlotType → Type
  | .void => Unit
  | .bool => Option Bool
  | .byte => BitVec 8
  | .short => BitVec 16
  | .int => BitVec 32
  | .long => BitVec 64
  | .float => BitVec 32
  | .double => BitVec 64
  | .buf => Buf

instance : (t : SlotType) → DecidableEq (Value t)
  | .void => inferInstanceAs (DecidableEq Unit)
  | .bool => inferInstanceAs (DecidableEq (Option Bool))
  | .byte => inferInstanceAs (DecidableEq (BitVec 8))
  | .short => inferInstanceAs (DecidableEq (BitVec 16))
  | .int => inferInstanceAs (DecidableEq (BitVec 32))
  | .long => inferInstanceAs (DecidableEq (BitVec 64))
  | .float => inferInstanceAs (DecidableEq (BitVec 32))
  | .double => inferInstanceAs (DecidableEq (BitVec 64))
  | .buf => inferInstanceAs (DecidableEq Buf)

/-- The property values of every component. -/
abbrev Props := Ref → (s : Slot) → Value s.type

/-! ### Saving and loading a value -/

/-- `Component.saveProp`. -/
def saveValue : {t : SlotType} → Value t → List (BitVec 8)
  | .void, _ => []
  | .bool, b => writeBool b
  | .byte, v => write (v.setWidth 32)
  | .short, v => writeI2 (v.setWidth 32)
  | .int, v => writeI4 v
  | .long, v => writeI8 v
  | .float, v => writeI4 v
  | .double, v => writeI8 v
  | .buf, b => writeI2 (BitVec.ofNat 32 b.size) ++ b.used

variable {m : Type → Type} [Monad m]

/-- The `Buf` case of `Component.loadProp`: the bytes are read into the buffer `b`, and those
that do not fit are skipped. -/
def loadBuf (asStr : Bool) (b : Buf) : Reader m Buf := do
  let size ← readU2
  let used := if (b.bytesLen : ℤ) < size.toInt then b.bytesLen else (size.setWidth 16).toNat
  let bytes ← readBytes used
  skip (size.toInt - used).toNat
  let bytes := bytes ++ b.bytes.drop bytes.length
  -- always cap with a zero
  pure { bytes := if asStr then bytes.set (b.bytesLen - 1) 0 else bytes, size := used }

/-- What `Component.loadProp` reads for a property that has the value `old`. -/
def loadValue (asStr : Bool) : {t : SlotType} → Value t → Reader m (Value t)
  | .void, old => pure old
  | .bool, _ => readBool
  | .byte, _ => do
      let x ← read
      pure (x.setWidth 8)
  | .short, _ => do
      let x ← readU2
      pure (x.setWidth 16)
  | .int, _ => readS4
  | .long, _ => readS8
  | .float, _ => readS4
  | .double, _ => readS8
  | .buf, b => loadBuf asStr b

/-! ### The round trip -/

/-- The value is one that a property can have: buffers are well-formed, and strings are
terminated within their buffer. -/
def Sound (asStr : Bool) : {t : SlotType} → Value t → Prop
  | .buf, b => b.WellFormed ∧ (asStr = true → 0 ∈ b.bytes)
  | _, _ => True

/-- Buffers have the same capacity. -/
def SameSize : {t : SlotType} → Value t → Value t → Prop
  | .buf, b, b' => b.bytesLen = b'.bytesLen
  | _, _, _ => True

/-- The values are the same: of buffers, the bytes that are used, and of strings, the
characters. -/
def SameValue (asStr : Bool) : {t : SlotType} → Value t → Value t → Prop
  | .buf, b, b' => b'.size = b.size ∧
      if asStr then b'.str = b.str ∧ (b.size < b.bytesLen → b'.used = b.used)
      else b'.used = b.used
  | _, v, v' => v' = v

/-- What a buffer holds after the bytes used in `b` were loaded into it. -/
def Buf.reloaded (asStr : Bool) (old b : Buf) : Buf :=
  let bytes := b.used ++ old.bytes.drop b.size
  { bytes := if asStr then bytes.set (old.bytesLen - 1) 0 else bytes, size := b.size }

/-- What a property holds after the value `v` was saved and loaded. -/
def reloaded (asStr : Bool) : {t : SlotType} → Value t → Value t → Value t
  | .buf, old, b => old.reloaded asStr b
  | .void, old, _ => old
  | _, _, v => v

section RoundTrip

variable [LawfulMonad m] {asStr : Bool} {old b : Buf} {t : SlotType}

theorem Buf.WellFormed.length_used (hb : b.WellFormed) : b.used.length = b.size := by
  rw [Buf.used, List.length_take]
  exact min_eq_left hb.size_le

theorem decodes_loadBuf (hb : b.WellFormed) (hlen : b.bytesLen = old.bytesLen) :
    Decodes (loadBuf (m := m) asStr old) (saveValue (t := .buf) b) (old.reloaded asStr b) := by
  have hsize : b.size < 0x10000 := lt_of_le_of_lt hb.size_le hb.len_lt
  set n : BitVec 32 := ((BitVec.ofNat 32 b.size).setWidth 16).setWidth 32 with hn
  have hnat : n.toNat = b.size := by
    simp only [hn, BitVec.toNat_setWidth, BitVec.toNat_ofNat]
    omega
  have hint : n.toInt = b.size := by
    rw [BitVec.toInt_eq_toNat_of_lt (by rw [hnat]; omega), hnat]
  have hshort : (n.setWidth 16).toNat = b.size := by
    rw [BitVec.toNat_setWidth, hnat]
    omega
  have hfits : ¬ (old.bytesLen : ℤ) < n.toInt := by
    rw [hint, ← hlen]
    exact_mod_cast not_lt.mpr hb.size_le
  have hused := hb.length_used
  have hread : Decodes (loadBuf (m := m) asStr old)
      (writeI2 (BitVec.ofNat 32 b.size) ++ (b.used ++ ([] ++ []))) (old.reloaded asStr b) := by
    refine (decodes_readU2 _).bind ?_
    rw [← hn, if_neg hfits, hshort, hint]
    simp only [Int.sub_self, Int.toNat_zero]
    rw [← hused]
    refine (decodes_readBytes b.used).bind ((decodes_skip []).bind ?_)
    rw [Buf.reloaded, ← hused]
    exact Decodes.pure _
  rw [List.append_nil, List.append_nil] at hread
  exact hread

/-- **The round trip of a value.** -/
theorem decodes_loadValue {old v : Value t} (hv : Sound asStr v) (hsize : SameSize v old) :
    Decodes (loadValue (m := m) asStr old) (saveValue v) (reloaded asStr old v) := by
  cases t with
  | void => exact Decodes.pure old
  | bool => exact decodes_readBool v
  | byte =>
      have hread : Decodes (loadValue (m := m) (t := .byte) asStr old) ([v] ++ []) v := by
        refine (decodes_read v).bind ?_
        rw [BitVec.setWidth_setWidth_of_le v (by decide), BitVec.setWidth_eq]
        exact Decodes.pure v
      have hwrite : saveValue (t := .byte) v = [v] := by
        simp [saveValue, write]
      rw [hwrite]
      exact hread
  | short =>
      have hread : Decodes (loadValue (m := m) (t := .short) asStr old)
          (writeI2 (v.setWidth 32) ++ []) v := by
        refine (decodes_readU2 _).bind ?_
        rw [BitVec.setWidth_setWidth_of_le v (by decide), BitVec.setWidth_eq,
          BitVec.setWidth_setWidth_of_le v (by decide), BitVec.setWidth_eq]
        exact Decodes.pure v
      rw [List.append_nil] at hread
      exact hread
  | int => exact decodes_readS4 v
  | long => exact decodes_readS8 v
  | float => exact decodes_readS4 v
  | double => exact decodes_readS8 v
  | buf =>
      show Decodes (loadBuf (m := m) asStr old) _ _
      exact decodes_loadBuf (m := m) hv.1 hsize

/-- Capping a full buffer changes its last byte, and no other. -/
theorem Buf.used_reloaded (asStr : Bool) (hb : b.WellFormed) (hlen : b.bytesLen = old.bytesLen) :
    (old.reloaded asStr b).used = if asStr then b.used.set (b.bytesLen - 1) 0 else b.used := by
  have htake : (b.used ++ old.bytes.drop b.size).take b.size = b.used := by
    have hused := hb.length_used
    rw [← hused, List.take_left]
  cases asStr with
  | false => exact htake
  | true =>
      show ((b.used ++ old.bytes.drop b.size).set (old.bytesLen - 1) 0).take b.size = _
      rw [List.take_set, htake, hlen]
      rfl

/-- A zero at the end of a string that has one already does not change the string. -/
theorem takeWhile_set_last {l : List (BitVec 8)} {n : ℕ} (h0 : 0 ∈ l) (hn : l.length ≤ n + 1) :
    (l.set n 0).takeWhile (· != 0) = l.takeWhile (· != 0) := by
  induction l generalizing n with
  | nil => simp at h0
  | cons x l ih =>
      by_cases hx : x = 0
      · subst hx
        cases n <;> simp
      · cases n with
        | zero =>
            have hl : l = [] := List.eq_nil_of_length_eq_zero (by simpa using hn)
            subst hl
            exact absurd (List.mem_singleton.mp h0).symm hx
        | succ n =>
            have hmem : 0 ∈ l := (List.mem_cons.mp h0).resolve_left (Ne.symm hx)
            rw [List.set_cons_succ, List.takeWhile_cons, List.takeWhile_cons,
              ih hmem (by simpa using hn)]

/-- **The loaded value is the saved one.** -/
theorem sameValue_reloaded {old v : Value t} (hv : Sound asStr v) (hsize : SameSize v old)
    (ht : t ≠ .void) : SameValue asStr v (reloaded asStr old v) := by
  cases t with
  | void => exact absurd rfl ht
  | buf =>
      obtain ⟨hwf, hzero⟩ := hv
      have hused := Buf.used_reloaded asStr hwf hsize
      refine ⟨rfl, ?_⟩
      cases asStr with
      | false => exact hused
      | true =>
          rw [if_pos rfl] at hused
          have hpart : v.size < v.bytesLen → v.used.set (v.bytesLen - 1) 0 = v.used := by
            intro hlt
            exact List.set_eq_of_length_le (by rw [hwf.length_used]; omega)
          refine ⟨?_, fun hlt => hused.trans (hpart hlt)⟩
          show (Buf.used _).takeWhile _ = _
          rw [reloaded, hused]
          rcases Nat.lt_or_ge v.size v.bytesLen with hlt | hge
          · rw [hpart hlt]
            rfl
          · -- a full buffer holds its terminator
            have hfull : v.used = v.bytes := List.take_of_length_le hge
            rw [hfull]
            exact (takeWhile_set_last (hzero rfl) (by rw [Buf.bytesLen]; omega)).trans
              (by rw [Buf.str, hfull])
  | bool | byte | short | int | long | float | double => rfl

end RoundTrip

end Sedona
