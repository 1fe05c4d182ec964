import Mathlib.Data.List.Basic
import Mathlib.Order.Nat

/-!
# Readers with a Cursor

A reader goes over a buffer that does not change, from a position on, and can fail. The buffer
may be longer than what has been put into it: a reader is local if its result depends only on
what lies before the position that it ends at.

## Main results

* `Local.bind`: readers in sequence are local.
* `Reads.bind`: readers in sequence read what has been written in sequence.
-/

namespace Cursor

variable {σ α β : Type}

/-- A reader: the buffer, the position, and what is read with the position after it. -/
abbrev Reader (σ α : Type) := ReaderT (List σ) (StateT ℕ Option) α

/-! ### Basic readers -/

/-- The symbol at the position. -/
def next : Reader σ σ := fun buf pos => buf[pos]?.map (·, pos + 1)

/-- The next `n` symbols. -/
def slice (n : ℕ) : Reader σ (List σ) := fun buf pos =>
  if pos + n ≤ buf.length then some ((buf.drop pos).take n, pos + n) else none

/-- The symbols up to the first one that meets `p`, which is read as well. -/
def until' (p : σ → Bool) : Reader σ (List σ) := fun buf pos =>
  ((buf.drop pos).findIdx? p).map fun n => ((buf.drop pos).take n, pos + n + 1)

/-- A computation that does not read. -/
def ofOption (x : Option α) : Reader σ α := fun _ pos => x.map (·, pos)

/-! ### Locality -/

/-- The reader moves on, and its result depends only on what lies before its last position. -/
def Local (r : Reader σ α) : Prop :=
  ∀ buf pos a pos', r buf pos = some (a, pos') →
    pos ≤ pos' ∧ ∀ buf' : List σ, buf'.take pos' = buf.take pos' → r buf' pos = some (a, pos')

theorem Local.pure (a : α) : Local (pure a : Reader σ α) := by
  intro buf pos b pos' h
  obtain ⟨rfl, rfl⟩ := Prod.mk.inj (Option.some.inj h)
  exact ⟨le_rfl, fun _ _ => rfl⟩

theorem Local.ofOption (x : Option α) : Local (ofOption x : Reader σ α) := by
  intro buf pos b pos' h
  obtain ⟨a, -, heq⟩ := Option.map_eq_some_iff.mp h
  obtain ⟨rfl, rfl⟩ := Prod.mk.inj heq
  exact ⟨le_rfl, fun _ _ => h⟩

theorem take_eq_of_le {l l' : List σ} {n m : ℕ} (h : l.take m = l'.take m) (hle : n ≤ m) :
    l.take n = l'.take n := by
  have := congrArg (List.take n) h
  rwa [List.take_take, List.take_take, min_eq_left hle] at this

theorem bind_apply (r : Reader σ α) (f : α → Reader σ β) (buf : List σ) (pos : ℕ) :
    (r >>= f) buf pos = (r buf pos).bind fun x => f x.1 buf x.2 := rfl

/-- **Readers in sequence are local.** -/
theorem Local.bind {r : Reader σ α} {f : α → Reader σ β} (hr : Local r) (hf : ∀ a, Local (f a)) :
    Local (r >>= f) := by
  intro buf pos b pos' h
  obtain ⟨⟨a, mid⟩, ha, hb⟩ := Option.bind_eq_some_iff.mp h
  obtain ⟨hle, hlocal⟩ := hr buf pos a mid ha
  obtain ⟨hle', hlocal'⟩ := hf a buf mid b pos' hb
  refine ⟨hle.trans hle', fun buf' heq => ?_⟩
  rw [bind_apply, hlocal buf' (take_eq_of_le heq hle')]
  exact hlocal' buf' heq

theorem Local.next : Local (next : Reader σ σ) := by
  intro buf pos a pos' h
  obtain ⟨x, hx, heq⟩ := Option.map_eq_some_iff.mp h
  obtain ⟨rfl, rfl⟩ := Prod.mk.inj heq
  refine ⟨Nat.le_succ pos, fun buf' htake => ?_⟩
  have hget : buf'[pos]? = buf[pos]? := by
    rw [← List.getElem?_take_of_lt (Nat.lt_succ_self pos), htake,
      List.getElem?_take_of_lt (Nat.lt_succ_self pos)]
  change buf'[pos]?.map _ = _
  rw [hget, hx]
  rfl

/-- Buffers that agree up to the end of a slice have the same slice. -/
theorem take_drop_eq {l l' : List σ} {pos n : ℕ} (h : l.take (pos + n) = l'.take (pos + n)) :
    (l.drop pos).take n = (l'.drop pos).take n := by
  rw [List.take_drop, List.take_drop, h]

theorem length_le_of_take {l l' : List σ} {n : ℕ} (h : l'.take n = l.take n)
    (hle : n ≤ l.length) : n ≤ l'.length := by
  have := congrArg List.length h
  rw [List.length_take, List.length_take] at this
  omega

theorem Local.slice (n : ℕ) : Local (slice n : Reader σ (List σ)) := by
  intro buf pos a pos' h
  unfold Cursor.slice at h ⊢
  split at h
  · next hle =>
    obtain ⟨rfl, rfl⟩ := Prod.mk.inj (Option.some.inj h)
    refine ⟨Nat.le_add_right pos n, fun buf' htake => ?_⟩
    rw [if_pos (length_le_of_take htake hle), take_drop_eq htake]
  · cases h

theorem Local.until' (p : σ → Bool) : Local (until' p) := by
  intro buf pos a pos' h
  obtain ⟨n, hn, heq⟩ := Option.map_eq_some_iff.mp h
  obtain ⟨rfl, rfl⟩ := Prod.mk.inj heq
  refine ⟨by omega, fun buf' htake => ?_⟩
  have hdrop : (buf'.drop pos).take (n + 1) = (buf.drop pos).take (n + 1) := take_drop_eq htake
  -- The first symbol that is found lies inside the common part.
  have hfind : (buf'.drop pos).findIdx? p = some n := by
    obtain ⟨hlt, hp, hall⟩ := List.findIdx?_eq_some_iff_getElem.mp hn
    have hget : ∀ k, k ≤ n → (buf'.drop pos)[k]? = (buf.drop pos)[k]? := by
      intro k hk
      rw [← List.getElem?_take_of_lt (Nat.lt_succ_of_le hk), hdrop,
        List.getElem?_take_of_lt (Nat.lt_succ_of_le hk)]
    have hlt' : n < (buf'.drop pos).length :=
      length_le_of_take hdrop hlt
    have heq : ∀ (k : ℕ) (hk : k ≤ n), (buf'.drop pos)[k] = (buf.drop pos)[k] := by
      intro k hk
      have := hget k hk
      rwa [List.getElem?_eq_getElem (by omega), List.getElem?_eq_getElem (by omega),
        Option.some.injEq] at this
    refine List.findIdx?_eq_some_iff_getElem.mpr ⟨hlt', ?_, fun k hk => ?_⟩
    · rw [heq n le_rfl]
      exact hp
    · rw [heq k hk.le]
      exact hall k hk
  change Option.map _ ((buf'.drop pos).findIdx? p) = _
  rw [hfind]
  change some ((buf'.drop pos).take n, _) = _
  rw [take_eq_of_le hdrop (Nat.le_succ n)]

/-! ### Reading what has been written -/

/-- Wherever `l` lies in a buffer, the reader returns `a` there and ends behind it. -/
def Reads (r : Reader σ α) (l : List σ) (a : α) : Prop :=
  ∀ pre rest, r (pre ++ l ++ rest) pre.length = some (a, pre.length + l.length)

theorem Reads.pure (a : α) : Reads (pure a : Reader σ α) [] a := fun _ _ => rfl

/-- **Readers in sequence.** -/
theorem Reads.bind {r : Reader σ α} {f : α → Reader σ β} {l k : List σ} {a : α} {b : β}
    (h : Reads r l a) (h' : Reads (f a) k b) : Reads (r >>= f) (l ++ k) b := by
  intro pre rest
  have h₁ := h pre (k ++ rest)
  have h₂ := h' (pre ++ l) rest
  rw [List.length_append] at h₂
  rw [bind_apply, ← List.append_assoc pre l k, List.append_assoc (pre ++ l) k rest, h₁]
  change f a _ _ = _
  rw [← List.append_assoc (pre ++ l) k rest, h₂, List.length_append, Nat.add_assoc]

theorem Reads.ofOption {x : Option α} {a : α} (h : x = some a) :
    Reads (ofOption x : Reader σ α) [] a := by
  rintro pre rest
  rw [h]
  rfl

theorem Reads.next (x : σ) : Reads next [x] x := by
  intro pre rest
  change Option.map _ ((pre ++ [x] ++ rest)[pre.length]?) = _
  rw [List.append_assoc, List.getElem?_append_right le_rfl, Nat.sub_self]
  rfl

theorem drop_length_append (pre l rest : List σ) :
    (pre ++ l ++ rest).drop pre.length = l ++ rest := by
  rw [List.append_assoc, List.drop_left]

theorem Reads.slice (l : List σ) : Reads (slice l.length) l l := by
  intro pre rest
  unfold Cursor.slice
  rw [if_pos (by simp), drop_length_append, List.take_left]

theorem Reads.until' {p : σ → Bool} {l : List σ} {x : σ} (hl : ∀ y ∈ l, p y = false)
    (hx : p x = true) : Reads (until' p) (l ++ [x]) l := by
  intro pre rest
  have hfind : (l ++ [x] ++ rest).findIdx? p = some l.length := by
    rw [List.append_assoc, List.findIdx?_append, List.findIdx?_eq_none_iff.mpr hl]
    simp [List.findIdx?_cons, hx]
  unfold Cursor.until'
  rw [drop_length_append, hfind]
  simp [List.append_assoc, Nat.add_assoc]

end Cursor
