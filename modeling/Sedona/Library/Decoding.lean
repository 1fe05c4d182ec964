import Mathlib.Control.Lawful

/-!
# Decoding What Was Encoded

A reader is a computation over the list of symbols that are left. `Decodes r l v` says that
on an input that starts with `l`, the reader `r` returns `v` and leaves exactly what follows
`l`. Round trips of composite formats are put together from those of their parts.

## Main results

* `Decodes.bind`: readers in sequence read encodings in sequence.
* `Decodes.lift_bind`: so do computations that do not read, and take up no symbols.
* `Total.bind`: readers in sequence return on every input if each of them does.
-/

namespace Decoding

variable {σ : Type} {m : Type → Type} [Monad m] {α β : Type}

/-- On an input that starts with `l`, the reader returns `v` and leaves the rest. -/
def Decodes (r : StateT (List σ) m α) (l : List σ) (v : α) : Prop :=
  ∀ rest, r.run (l ++ rest) = pure (v, rest)

theorem Decodes.pure (v : α) : Decodes (pure v : StateT (List σ) m α) [] v := fun _ => rfl

variable [LawfulMonad m] {r : StateT (List σ) m α} {l l' : List σ} {v : α} {w : β}

/-- **Readers in sequence.** -/
theorem Decodes.bind {f : α → StateT (List σ) m β} (h : Decodes r l v)
    (h' : Decodes (f v) l' w) : Decodes (r >>= f) (l ++ l') w := by
  intro rest
  rw [StateT.run_bind, List.append_assoc, h (l' ++ rest), pure_bind]
  exact h' rest

/-- **A step that does not read**, in front of a reader. -/
theorem Decodes.lift_bind {x : m α} {f : α → StateT (List σ) m β} (hx : x = Pure.pure v)
    (h : Decodes (f v) l w) : Decodes (StateT.lift x >>= f) l w := by
  intro rest
  rw [StateT.run_bind, StateT.run_lift, hx, pure_bind, pure_bind]
  exact h rest

/-! ### Readers that do not fail -/

/-- On every input the reader returns, and what it returns has the property. -/
def Total (r : StateT (List σ) Option α) (p : α → Prop) : Prop :=
  ∀ s, ∃ v rest, r.run s = some (v, rest) ∧ p v

theorem Total.pure {p : α → Prop} {v : α} (h : p v) :
    Total (Pure.pure v : StateT (List σ) Option α) p := fun s => ⟨v, s, rfl, h⟩

theorem Total.bind {r : StateT (List σ) Option α} {f : α → StateT (List σ) Option β}
    {p : α → Prop} {q : β → Prop} (h : Total r p) (h' : ∀ v, p v → Total (f v) q) :
    Total (r >>= f) q := by
  intro s
  obtain ⟨v, rest, hv, hp⟩ := h s
  obtain ⟨w, rest', hw, hq⟩ := h' v hp rest
  refine ⟨w, rest', ?_, hq⟩
  rw [StateT.run_bind, hv]
  exact hw

end Decoding
