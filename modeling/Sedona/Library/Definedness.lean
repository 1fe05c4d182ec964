import Mathlib.Data.List.Basic

/-!
# Partly Defined Programs

Programs on a state that need not have a result. One refines another if it has the results of the
other one, and perhaps more: this is what a translation keeps that may do anything where the
program it starts from has no result. A program is still if it leaves the state as it is.

## Main results

* `Refines.bind`: refinement in sequence.
* `Still.bind`: programs in sequence that leave the state as it is.
-/

namespace Definedness

variable {σ α β γ : Type}

/-- A program on the state `σ` that may have no result. -/
abbrev Partly (σ α : Type) := StateT σ Option α

section Sequence

variable {x : Partly σ α} {f : α → Partly σ β} {s s' : σ} {a : α} {b : β}

theorem bind_of_some (h : x s = some (a, s')) : (x >>= f) s = f a s' := by
  simp [bind, StateT.bind, h]

theorem bind_eq_some : (x >>= f) s = some (b, s') ↔
    ∃ a t, x s = some (a, t) ∧ f a t = some (b, s') := by
  cases h : x s with
  | none => simp [bind, StateT.bind, h]
  | some p =>
    obtain ⟨a, t⟩ := p
    rw [bind_of_some h]
    constructor
    · exact fun hb => ⟨a, t, rfl, hb⟩
    · rintro ⟨a', t', ha, hb⟩
      obtain ⟨rfl, rfl⟩ := Prod.mk.inj (Option.some.inj ha)
      exact hb

theorem lift_eq_some {r : Option α} :
    (StateT.lift r : Partly σ α) s = some (a, s') ↔ r = some a ∧ s' = s := by
  cases r with
  | none => simp [StateT.lift]
  | some a' =>
    simp only [StateT.lift, Option.bind_eq_bind, Option.bind_some, Option.pure_def,
      Option.some.injEq, Prod.mk.injEq]
    exact and_congr_right fun _ => eq_comm

end Sequence

/-! ### Refinement -/

/-- The second program has every result of the first one. -/
def Refines (x y : Partly σ α) : Prop := ∀ s r, x s = some r → y s = some r

namespace Refines

variable {x y z : Partly σ α} {f g : α → Partly σ β}

protected theorem refl (x : Partly σ α) : Refines x x := fun _ _ h => h

protected theorem trans (hxy : Refines x y) (hyz : Refines y z) : Refines x z :=
  fun s r h => hyz s r (hxy s r h)

protected theorem bind (hxy : Refines x y) (hfg : ∀ a, Refines (f a) (g a)) :
    Refines (x >>= f) (y >>= g) := by
  rintro s ⟨b, s'⟩ h
  obtain ⟨a, t, ha, hb⟩ := bind_eq_some.mp h
  exact bind_eq_some.mpr ⟨a, t, hxy s _ ha, hfg a t _ hb⟩

end Refines

/-! ### Programs that leave the state as it is -/

/-- Every result comes with the state from which the program started. -/
def Still (x : Partly σ α) : Prop := ∀ s a s', x s = some (a, s') → s' = s

namespace Still

variable {x y : Partly σ α} {f : α → Partly σ β}

protected theorem pure (a : α) : Still (pure a : Partly σ α) := by
  intro s a' s' h
  cases h
  rfl

protected theorem lift (r : Option α) : Still (StateT.lift r : Partly σ α) :=
  fun _ _ _ h => (lift_eq_some.mp h).2

protected theorem bind (hx : Still x) (hf : ∀ a, Still (f a)) : Still (x >>= f) := by
  intro s b s' h
  obtain ⟨a, t, ha, hb⟩ := bind_eq_some.mp h
  exact (hf a t b s' hb).trans (hx s a t ha)

end Still

end Definedness
