import Mathlib.Algebra.Group.Nat.Defs
import Sedona.Sys.AppFile
import Sedona.Sys.AppStructure

/-!
# Propagating Links

`Link.propagate` reads the property at one end of a link with a getter and writes it to the
property at the other end with a setter, both chosen by the type of the target alone. A getter
answers zero for a property of another type, and a setter compares the int it is given with the
stored value before it cuts it to the width of the property.

The callback that a setter makes is the last thing it does: what is reported is returned beside the
stored values.

## Main results

* `reduce`, `carried`: the value that a link carries, and what propagating it is for.
* `propagate_carries_iff`: where `propagate` does just that.
-/

namespace Sedona

open Function

namespace Value

variable {s t : SlotType}

/-! ### The native getters and setters -/

/-- `Component.getBool`: zero, which is false, for a property of another type. -/
def getBool : {s : SlotType} → Value s → Option Bool
  | .bool, v => v
  | _, _ => some false

/-- `Component.getInt`: bytes and shorts are unsigned. -/
def getInt : {s : SlotType} → Value s → BitVec 32
  | .byte, v => BitVec.setWidth 32 v
  | .short, v => BitVec.setWidth 32 v
  | .int, v => v
  | _, _ => 0

/-- `Component.getLong`. -/
def getLong : {s : SlotType} → Value s → BitVec 64
  | .long, v => v
  | _, _ => 0

/-- `Component.getFloat`, as bits. -/
def getFloat : {s : SlotType} → Value s → BitVec 32
  | .float, v => v
  | _, _ => 0

/-- `Component.getDouble`, as bits. -/
def getDouble : {s : SlotType} → Value s → BitVec 64
  | .double, v => v
  | _, _ => 0

/-- `Component.doSetBool`: whether the value has changed, and the stored value. -/
def doSetBool : {t : SlotType} → Value t → Option Bool → Bool × Value t
  | .bool, old, v => if old = v then (false, old) else (true, v)
  | _, old, _ => (false, old)

/-- `Component.doSetInt`. -/
def doSetInt : {t : SlotType} → Value t → BitVec 32 → Bool × Value t
  | .byte, old, v => if BitVec.setWidth 32 old = v then (false, old) else (true, v.setWidth 8)
  | .short, old, v => if BitVec.setWidth 32 old = v then (false, old) else (true, v.setWidth 16)
  | .int, old, v => if old = v then (false, old) else (true, v)
  | _, old, _ => (false, old)

/-- `Component.doSetLong`. -/
def doSetLong : {t : SlotType} → Value t → BitVec 64 → Bool × Value t
  | .long, old, v => if old = v then (false, old) else (true, v)
  | _, old, _ => (false, old)

/-- `Component.doSetFloat`, which compares bits. -/
def doSetFloat : {t : SlotType} → Value t → BitVec 32 → Bool × Value t
  | .float, old, v => if old = v then (false, old) else (true, v)
  | _, old, _ => (false, old)

/-- `Component.doSetDouble`. -/
def doSetDouble : {t : SlotType} → Value t → BitVec 64 → Bool × Value t
  | .double, old, v => if old = v then (false, old) else (true, v)
  | _, old, _ => (false, old)

/-- The switch of `Link.propagate` on the type of the target. -/
def transfer : (t : SlotType) → Value t → Value s → Bool × Value t
  | .bool, old, v => doSetBool old v.getBool
  | .byte, old, v => doSetInt old v.getInt
  | .short, old, v => doSetInt old v.getInt
  | .int, old, v => doSetInt old v.getInt
  | .long, old, v => doSetLong old v.getLong
  | .float, old, v => doSetFloat old v.getFloat
  | .double, old, v => doSetDouble old v.getDouble
  | .void, old, _ => (false, old)
  | .buf, old, _ => (false, old)

/-! ### What a link carries -/

/-- The value of a property as one of the type `t`: bytes, shorts and ints are one kind, cut to the
width of the target; there is none for another kind. -/
def reduce : {s : SlotType} → (t : SlotType) → Value s → Option (Value t)
  | .void, .void, v => some v
  | .bool, .bool, v => some v
  | .long, .long, v => some v
  | .float, .float, v => some v
  | .double, .double, v => some v
  | .buf, .buf, v => some v
  | .byte, .byte, v => some v
  | .byte, .short, v => some (BitVec.setWidth 16 v)
  | .byte, .int, v => some (BitVec.setWidth 32 v)
  | .short, .byte, v => some (BitVec.setWidth 8 v)
  | .short, .short, v => some v
  | .short, .int, v => some (BitVec.setWidth 32 v)
  | .int, .byte, v => some (BitVec.setWidth 8 v)
  | .int, .short, v => some (BitVec.setWidth 16 v)
  | .int, .int, v => some v
  | _, _, _ => none

/-- The zero that a getter answers for a property of another type, as a value of the target; none
for the types that `propagate` leaves out. -/
def zero : (t : SlotType) → Option (Value t)
  | .bool => some (some false)
  | .byte => some 0#8
  | .short => some 0#16
  | .int => some 0#32
  | .long => some 0#64
  | .float => some 0#32
  | .double => some 0#64
  | _ => none

/-- The int of a property loses nothing when it is cut to the width of the target. -/
def Fits : {s : SlotType} → (t : SlotType) → Value s → Prop
  | .short, .byte, v => v.toNat < 256
  | .int, .byte, v => v.toNat < 256
  | .int, .short, v => v.toNat < 65536
  | _, _, _ => True

/-- The new value of the target, and whether it is another one. -/
def carry (old : Value t) (v : Value s) : Bool × Value t :=
  match v.reduce t with
  | none => (false, old)
  | some w => (decide (w ≠ old), w)

/-- The native functions do the same. A value of another kind leaves alone a target that holds zero
already; an int that is too wide is noticed as a change only where it makes one; buffers are left
out. -/
def Agrees (old : Value t) (v : Value s) : Prop :=
  match v.reduce t with
  | none => ∀ z ∈ zero t, z = old
  | some w => if t = .buf then w = old else v.Fits t ∨ w ≠ old

theorem transfer_fst {old : Value t} {v : Value s} (h : (transfer t old v).1 = false) :
    (transfer t old v).2 = old := by
  cases t <;> simp only [transfer, doSetBool, doSetInt, doSetLong, doSetFloat, doSetDouble] at h ⊢ <;>
    split at h <;> simp_all

theorem carry_fst {old : Value t} {v : Value s} (h : (carry old v).1 = false) :
    (carry old v).2 = old := by
  rw [carry] at h ⊢
  split at h <;> simp_all

/-- A setter that compares the value it stores. -/
theorem set_same {α : Type} (old v : α) [Decidable (old = v)] [Decidable (v ≠ old)] :
    (if old = v then (false, old) else (true, v)) = (decide (v ≠ old), v) := by
  by_cases h : v = old
  · simp [h]
  · simp [h, Ne.symm h]

theorem set_zero {α : Type} (old z : α) [Decidable (old = z)] :
    (if old = z then (false, old) else (true, z)) = (false, old) ↔ ∀ x ∈ some z, x = old := by
  by_cases h : z = old
  · simp [h]
  · simp [h, Ne.symm h]

section Width

variable {n m : ℕ} (hn : n ≤ 32) (old : BitVec n) (v : BitVec m) {i : BitVec 32} {w : BitVec n}

include hn

/-- A stored value widens to an int that it is not the lower bits of only if the int is too
wide. -/
theorem setWidth_eq_iff (i : BitVec 32) :
    old.setWidth 32 = i ↔ i.setWidth n = old ∧ i.toNat < 2 ^ n := by
  have ho : old.toNat < 2 ^ 32 := lt_of_lt_of_le old.isLt (Nat.pow_le_pow_right (by omega) hn)
  simp only [← BitVec.toNat_inj, BitVec.toNat_setWidth, Nat.mod_eq_of_lt ho]
  constructor
  · intro h
    have hlt : i.toNat < 2 ^ n := h ▸ old.isLt
    exact ⟨by rw [Nat.mod_eq_of_lt hlt, h], hlt⟩
  · rintro ⟨h, hlt⟩
    rw [← h, Nat.mod_eq_of_lt hlt]

/-- `doSetInt`: the stored value is compared with the whole int, and its lower bits are stored. -/
theorem set_int (i : BitVec 32) [Decidable (old.setWidth 32 = i)] [Decidable (i.setWidth n ≠ old)] :
    (if old.setWidth 32 = i then (false, old) else (true, i.setWidth n)) =
      (decide (i.setWidth n ≠ old), i.setWidth n) ↔ i.toNat < 2 ^ n ∨ i.setWidth n ≠ old := by
  have hback := setWidth_eq_iff hn old i
  by_cases hw : i.setWidth n = old
  · by_cases hlt : i.toNat < 2 ^ n
    · simp [hback, hw, hlt]
    · simp [hback, hw, hlt]
  · simp [hback, hw]

theorem set_int_zero [Decidable (old.setWidth 32 = 0#32)] :
    (if old.setWidth 32 = 0#32 then (false, old) else (true, (0#32).setWidth n)) = (false, old) ↔
      ∀ x ∈ some 0#n, x = old := by
  have hback : old.setWidth 32 = 0#32 ↔ 0#n = old := by
    simpa [Nat.two_pow_pos n] using setWidth_eq_iff hn old 0#32
  by_cases hz : 0#n = old
  · simp [hback, hz]
  · simp [hback, hz]

/-- The int is that of a value with another width. -/
theorem set_width (hm : m ≤ 32) (hi : v.setWidth 32 = i) (hw : v.setWidth n = w)
    [Decidable (old.setWidth 32 = i)] [Decidable (w ≠ old)] :
    (if old.setWidth 32 = i then (false, old) else (true, i.setWidth n)) =
      (decide (w ≠ old), w) ↔ v.toNat < 2 ^ n ∨ w ≠ old := by
  have hcut : i.setWidth n = w := by
    rw [← hi, ← hw]
    exact BitVec.setWidth_setWidth_of_le v hn
  have hnat : i.toNat = v.toNat := by
    rw [← hi, BitVec.toNat_setWidth]
    exact Nat.mod_eq_of_lt (lt_of_lt_of_le v.isLt (Nat.pow_le_pow_right (by omega) hm))
  subst hcut
  rw [← hnat]
  exact set_int hn old i

end Width

theorem Agrees.of_kind {old w : Value t} {v : Value s} (hr : v.reduce t = some w)
    (ht : t ≠ .buf) (hv : v.Fits t) : Agrees old v := by
  rw [Agrees, hr]
  exact (if_neg ht).mpr (.inl hv)

theorem Agrees.of_none {old : Value t} {v : Value s} (hr : v.reduce t = none)
    (hz : zero t = none) : Agrees old v := by
  rw [Agrees, hr, hz]
  exact fun z hmem => absurd hmem (Option.not_mem_none z)

/-- Ints of any width are of one kind; of the other types each is its own. -/
theorem transfer_eq_iff (old : Value t) (v : Value s) :
    transfer t old v = carry old v ↔ Agrees old v := by
  cases t with
  | void =>
    cases s with
    | void => exact iff_of_true rfl (.of_kind rfl (by decide) trivial)
    | _ => exact iff_of_true rfl (.of_none rfl rfl)
  | buf =>
    cases s with
    | buf =>
      constructor
      · intro h
        exact (Prod.mk.inj h).2.symm
      · intro (h : v = old)
        simp [transfer, carry, reduce, h]
    | _ => exact iff_of_true rfl (.of_none rfl rfl)
  | bool =>
    cases s with
    | bool => exact iff_of_true (set_same old v) (.inl trivial)
    | _ => exact set_zero old _
  | long =>
    cases s with
    | long => exact iff_of_true (set_same old v) (.inl trivial)
    | _ => exact set_zero old _
  | float =>
    cases s with
    | float => exact iff_of_true (set_same old v) (.inl trivial)
    | _ => exact set_zero old _
  | double =>
    cases s with
    | double => exact iff_of_true (set_same old v) (.inl trivial)
    | _ => exact set_zero old _
  | int =>
    cases s with
    | byte | short | int => exact iff_of_true (set_same old _) (.inl trivial)
    | _ => exact set_zero old _
  | byte =>
    have h8 : 8 ≤ 32 := by omega
    cases s with
    | byte =>
      have hset := set_width h8 old v h8 rfl (BitVec.setWidth_eq v)
      exact iff_of_true (hset.mpr (.inl v.isLt)) (.inl trivial)
    | short => exact set_width h8 old v (by omega) rfl rfl
    | int => exact set_int h8 old v
    | _ => exact set_int_zero h8 old
  | short =>
    have h16 : 16 ≤ 32 := by omega
    cases s with
    | byte =>
      have hset := set_width h16 old v (by omega) rfl rfl
      exact iff_of_true (hset.mpr (.inl (lt_trans v.isLt (by omega)))) (.inl trivial)
    | short =>
      have hset := set_width h16 old v h16 rfl (BitVec.setWidth_eq v)
      exact iff_of_true (hset.mpr (.inl v.isLt)) (.inl trivial)
    | int => exact set_int h16 old v
    | _ => exact set_int_zero h16 old

end Value

namespace App

variable {a : App Props} {c : Ref} {slot : Slot}

/-- A setter of `Component`: store the value and call `slotChanged`, if the native setter says so.
The call is returned. -/
def setTo (a : App Props) (c : Ref) (slot : Slot) (p : Bool × Value slot.type) :
    App Props × Option (Ref × Slot) :=
  if p.1 then (a.store c slot p.2, some (c, slot)) else (a, none)

theorem store_data (v : Value slot.type) : (a.store c slot v).data c slot = v := by
  simp [store]

/-- What is stored and reported says what the native setter has answered. -/
theorem setTo_inj {p q : Bool × Value slot.type} (hp : p.1 = false → p.2 = a.data c slot)
    (hq : q.1 = false → q.2 = a.data c slot) (h : a.setTo c slot p = a.setTo c slot q) : p = q := by
  obtain ⟨_ | _, v⟩ := p <;> obtain ⟨_ | _, w⟩ := q
  · exact Prod.ext rfl ((hp rfl).trans (hq rfl).symm)
  · cases congrArg Prod.snd h
  · cases congrArg Prod.snd h
  · have hdata := congrArg (fun r => r.1.data c slot) h
    exact Prod.ext rfl ((store_data v).symm.trans (hdata.trans (store_data w)))

end App

namespace Link

variable {x : Link} {a : App Props}

/-- `Link.propagate`. -/
def propagate (x : Link) (a : App Props) : App Props × Option (Ref × Slot) :=
  match a.comp x.fromComp, a.comp x.toComp with
  | some src, some dst =>
    match src.type.slot x.fromSlot, dst.type.slot x.toSlot with
    | some fromSlot, some toSlot =>
      if fromSlot.isProp then
        if toSlot.isProp then
          a.setTo (a.lookup x.toComp) toSlot
            (Value.transfer toSlot.type (a.data (a.lookup x.toComp) toSlot)
              (a.data (a.lookup x.fromComp) fromSlot))
        -- action links are disabled
        else (a, none)
      else (a, none)
    | _, _ => (a, none)
  | _, _ => (a, none)

/-- The properties at the two ends of a link, if there are such. -/
def ends (x : Link) (a : App Props) : Option (Slot × Slot) := do
  let src ← a.comp x.fromComp
  let dst ← a.comp x.toComp
  let fromSlot ← src.type.slot x.fromSlot
  let toSlot ← dst.type.slot x.toSlot
  if fromSlot.isProp ∧ toSlot.isProp then some (fromSlot, toSlot) else none

/-- The current value at the one end of a link. -/
def input (x : Link) (a : App Props) (fromSlot : Slot) : Value fromSlot.type :=
  a.data (a.lookup x.fromComp) fromSlot

/-- The stored value at its other end. -/
def stored (x : Link) (a : App Props) (toSlot : Slot) : Value toSlot.type :=
  a.data (a.lookup x.toComp) toSlot

/-- What propagating a link is for: a value of the kind of the target is stored and, if it is
another one, reported; in every other case nothing changes. -/
def carried (x : Link) (a : App Props) : App Props × Option (Ref × Slot) :=
  match x.ends a with
  | none => (a, none)
  | some (fromSlot, toSlot) =>
    match (x.input a fromSlot).reduce toSlot.type with
    | none => (a, none)
    | some v => (a.store (a.lookup x.toComp) toSlot v,
        if v = x.stored a toSlot then none else some (a.lookup x.toComp, toSlot))

/-- Where the native functions do that for the properties of the link. -/
def Carries (x : Link) (a : App Props) : Prop :=
  ∀ fromSlot toSlot, x.ends a = some (fromSlot, toSlot) →
    (x.stored a toSlot).Agrees (x.input a fromSlot)

theorem carried_of_none (he : x.ends a = none) : x.carried a = (a, none) := by
  rw [carried, he]

theorem propagate_of_none (he : x.ends a = none) : x.propagate a = (a, none) := by
  rw [propagate]
  split
  · split
    · split
      · split
        · simp_all [ends]
        · rfl
      · rfl
    · rfl
  · rfl

theorem propagate_of_ends {fromSlot toSlot : Slot} (he : x.ends a = some (fromSlot, toSlot)) :
    x.propagate a = a.setTo (a.lookup x.toComp) toSlot
      (Value.transfer toSlot.type (x.stored a toSlot) (x.input a fromSlot)) := by
  simp only [ends, Option.bind_eq_bind, Option.bind_eq_some_iff] at he
  obtain ⟨src, hsrc, dst, hdst, f, hf, t, ht, hprops⟩ := he
  split at hprops
  · obtain ⟨rfl, rfl⟩ := Prod.mk.inj (Option.some.inj hprops)
    simp_all [propagate, stored, input]
  · cases hprops

theorem carried_of_ends {fromSlot toSlot : Slot} (he : x.ends a = some (fromSlot, toSlot)) :
    x.carried a = a.setTo (a.lookup x.toComp) toSlot
      (Value.carry (x.stored a toSlot) (x.input a fromSlot)) := by
  simp only [carried, he, Value.carry]
  cases hr : (x.input a fromSlot).reduce toSlot.type with
  | none => rfl
  | some v =>
    by_cases hv : v = x.stored a toSlot
    · have hself : a.store (a.lookup x.toComp) toSlot (x.stored a toSlot) = a := by
        simp [App.store, stored]
      simp [App.setTo, hv, hself]
    · simp [App.setTo, hv]

/-- Propagating a link carries its value exactly if the native functions agree on it. -/
theorem propagate_carries_iff (x : Link) (a : App Props) :
    x.propagate a = x.carried a ↔ x.Carries a := by
  cases he : x.ends a with
  | none =>
    refine iff_of_true ((propagate_of_none he).trans (carried_of_none he).symm) ?_
    intro f t h
    cases he.symm.trans h
  | some p =>
    obtain ⟨f, t⟩ := p
    have hiff := Value.transfer_eq_iff (x.stored a t) (x.input a f)
    rw [propagate_of_ends he, carried_of_ends he]
    constructor
    · intro h f' t' h'
      obtain ⟨rfl, rfl⟩ := Prod.mk.inj (Option.some.inj (he.symm.trans h'))
      exact hiff.mp (App.setTo_inj Value.transfer_fst Value.carry_fst h)
    · intro h
      rw [hiff.mpr (h f t he)]

/-! ### A link between two kinds -/

theorem float_lt : 0 < 256 := by decide

theorem int_lt : 1 < 256 := by decide

/-- A component type with a float and an int. -/
def meterType : CompType :=
  { kit := 1, id := 1,
    slots := [{ id := ⟨0, float_lt⟩, type := .float }, { id := ⟨1, int_lt⟩, type := .int }] }

/-- The float is 1, the int 5. -/
def meterValue : (t : SlotType) → Value t
  | .void => ()
  | .bool => some false
  | .byte => 0#8
  | .short => 0#16
  | .int => 5#32
  | .long => 0#64
  | .float => 0x3f800000#32
  | .double => 0#64
  | .buf => { bytes := [], size := 0 }

/-- An application that is of that type itself. -/
def meterApp : App Props :=
  { self := 1, objs := fun r => if r = 1 then some { type := meterType } else none,
    data := fun _ s => meterValue s.type }

/-- It is started with a link from the float to the int. -/
def meterCall : ℕ → Call Props
  | 0 => .initApp true 2
  | 1 =>
      .addLink 1 0 { id := ⟨0, float_lt⟩, type := .float } 0 { id := ⟨1, int_lt⟩, type := .int }
  | _ => .other (fun _ s => meterValue s.type) true

/-- The application after the first `n` calls. -/
def meterRun : ℕ → App Props
  | 0 => meterApp
  | n + 1 => ((meterCall n).run App.quiet (meterRun n) 9).getD meterApp

theorem meterRun_reachable : (App.editing App.quiet).Reachable (meterRun 3) := by
  have h₀ : (App.editing App.quiet).Reachable (meterRun 0) :=
    Transition.System.Reachable.start ⟨rfl, rfl, ⟨_, rfl, rfl, rfl, rfl, rfl⟩, fun _ => rfl, rfl⟩
  have h₁ := App.reachable_call (meterCall 0) 9 h₀ trivial fun _ => rfl
  have h₂ := App.reachable_call (meterCall 1) 9 h₁ rfl fun _ => rfl
  exact App.reachable_call (meterCall 2) 9 h₂ trivial fun _ => rfl

/-- Zero is stored in the int. -/
theorem not_propagate_carries : ¬ ∀ (cb : Callbacks Props) (a : App Props) (k : Ref) (x : Link),
    (App.editing cb).Reachable a → a.links k = some x → x.propagate a = x.carried a := by
  intro h
  obtain ⟨x, hx⟩ : ∃ x, (meterRun 3).links 1 = some x := ⟨_, rfl⟩
  have hrun := h App.quiet (meterRun 3) 1 x meterRun_reachable hx
  obtain rfl := Option.some.inj hx
  have hreport := congrArg Prod.snd hrun
  exact absurd hreport (by decide)

end Link

end Sedona
