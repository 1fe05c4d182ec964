import Mathlib.Data.List.Basic

/-!
# Loops that Use Up Their State

Programs on a state that may fail, and loops of them that end because every turn but the last makes
the state smaller. Two programs are in step if they fail alike, and otherwise return the same value
and leave related states.

## Main results

* `loop_of_next`, `loop_of_done`, `loop_of_error`: what a turn says about the loop.
* `InStep.bind`, `InStep.loop`: programs in step, in sequence and in a loop.
-/

namespace Loops

variable {ρ ρ' ε α β γ : Type}

/-- A program on the state `ρ` that may fail with `ε`. -/
abbrev Prog (ρ ε : Type) := StateT ρ (Except ε)

section Sequence

variable {m : Prog ρ ε α} {f : α → Prog ρ ε β} {r s : ρ} {a : α} {b : β} {e : ε}

theorem bind_of_ok (h : m r = .ok (a, s)) : (m >>= f) r = f a s := by
  simp [bind, StateT.bind, Except.bind, h]

theorem bind_of_error (h : m r = .error e) : (m >>= f) r = .error e := by
  simp [bind, StateT.bind, Except.bind, h]

theorem bind_eq_ok : (m >>= f) r = .ok (b, s) ↔
    ∃ a r', m r = .ok (a, r') ∧ f a r' = .ok (b, s) := by
  cases h : m r with
  | error e => simp [bind, StateT.bind, Except.bind, h]
  | ok p =>
    obtain ⟨a, s⟩ := p
    rw [bind_of_ok h]
    constructor
    · exact fun hb => ⟨a, s, rfl, hb⟩
    · rintro ⟨a', s', ha, hb⟩
      obtain ⟨rfl, rfl⟩ := Prod.mk.inj (Except.ok.inj ha)
      exact hb

@[simp] theorem pure_apply (a : α) (r : ρ) : (pure a : Prog ρ ε α) r = .ok (a, r) := rfl

@[simp] theorem throw_apply (e : ε) (r : ρ) : (throw e : Prog ρ ε α) r = .error e := rfl

end Sequence

/-! ### Loops -/

section Loop

variable (size : ρ → ℕ) (body : β → Prog ρ ε (β ⊕ α))

/-- Every turn but the last makes the state smaller. -/
def Descends : Prop := ∀ b r b' r', body b r = .ok (.inl b', r') → size r' < size r

def loopFrom (h : Descends size body) (b : β) (r : ρ) : Except ε (α × ρ) :=
  match _hr : body b r with
  | .error e => .error e
  | .ok (.inr a, r') => .ok (a, r')
  | .ok (.inl b', r') => loopFrom h b' r'
termination_by size r
decreasing_by exact h b r b' r' (by assumption)

/-- Repeat the body until it returns a result. -/
def loop (h : Descends size body) (b : β) : Prog ρ ε α := loopFrom size body h b

variable {size body} {h : Descends size body} {b b' : β} {r r' : ρ} {a : α} {e : ε}

theorem loop_of_error (hb : body b r = .error e) : loop size body h b r = .error e := by
  rw [loop, loopFrom]
  split <;> simp_all

theorem loop_of_done (hb : body b r = .ok (.inr a, r')) : loop size body h b r = .ok (a, r') := by
  rw [loop, loopFrom]
  split <;> simp_all

theorem loop_of_next (hb : body b r = .ok (.inl b', r')) :
    loop size body h b r = loop size body h b' r' := by
  rw [loop, loopFrom]
  split <;> simp_all [loop]

/-- A loop starts with its first turn. -/
theorem loop_congr (hb : body b r = body b' r') :
    loop size body h b r = loop size body h b' r' := by
  rcases hbody : body b' r' with e | ⟨b'' | a, s⟩
  · rw [loop_of_error (hb.trans hbody), loop_of_error hbody]
  · rw [loop_of_next (hb.trans hbody), loop_of_next hbody]
  · rw [loop_of_done (hb.trans hbody), loop_of_done hbody]

/-- What every turn keeps of the state holds in the end. -/
theorem loop_ind {P : ρ → Prop} {Q : α → ρ → Prop}
    (hbody : ∀ b r x r', P r → body b r = .ok (x, r') → Sum.elim (fun _ => P) Q x r') (hr : P r)
    (hloop : loop size body h b r = .ok (a, r')) : Q a r' := by
  induction hn : size r using Nat.strongRecOn generalizing b r with
  | ind n ih =>
    subst hn
    rcases hb : body b r with e | ⟨b' | a', s⟩
    · rw [loop_of_error hb] at hloop
      cases hloop
    · rw [loop_of_next hb] at hloop
      exact ih _ (h b r b' s hb) (hbody b r _ s hr hb) hloop rfl
    · rw [loop_of_done hb] at hloop
      obtain ⟨rfl, rfl⟩ := Prod.mk.inj (Except.ok.inj hloop)
      exact hbody b r _ s hr hb

end Loop

/-! ### Programs in step -/

/-- From related states, both fail with the same error, or both return the same value and leave
related states. -/
def InStep (R : ρ → ρ' → Prop) (m : Prog ρ ε α) (m' : Prog ρ' ε α) : Prop :=
  ∀ r r', R r r' →
    (∃ e, m r = .error e ∧ m' r' = .error e) ∨
    ∃ a s s', m r = .ok (a, s) ∧ m' r' = .ok (a, s') ∧ R s s'

namespace InStep

variable {R : ρ → ρ' → Prop} {m : Prog ρ ε α} {m' : Prog ρ' ε α}

protected theorem pure (a : α) : InStep R (pure a : Prog ρ ε α) (pure a) :=
  fun r r' h => .inr ⟨a, r, r', rfl, rfl, h⟩

protected theorem throw (e : ε) : InStep R (throw e : Prog ρ ε α) (throw e) :=
  fun _ _ _ => .inl ⟨e, rfl, rfl⟩

protected theorem bind {f : α → Prog ρ ε β} {f' : α → Prog ρ' ε β} (hm : InStep R m m')
    (hf : ∀ a, InStep R (f a) (f' a)) : InStep R (m >>= f) (m' >>= f') := by
  intro r r' hr
  obtain ⟨e, he, he'⟩ | ⟨a, s, s', ha, ha', hs⟩ := hm r r' hr
  · exact .inl ⟨e, bind_of_error he, bind_of_error he'⟩
  · rw [bind_of_ok ha, bind_of_ok ha']
    exact hf a s s' hs

protected theorem ite {c : Prop} [Decidable c] {m₁ m₂ : Prog ρ ε α} {m₁' m₂' : Prog ρ' ε α}
    (h₁ : InStep R m₁ m₁') (h₂ : InStep R m₂ m₂') :
    InStep R (if c then m₁ else m₂) (if c then m₁' else m₂') := by
  split
  · exact h₁
  · exact h₂

/-- **Loops in step.** -/
protected theorem loop {size : ρ → ℕ} {size' : ρ' → ℕ} {body : β → Prog ρ ε (β ⊕ α)}
    {body' : β → Prog ρ' ε (β ⊕ α)} {h : Descends size body} {h' : Descends size' body'}
    (hbody : ∀ b, InStep R (body b) (body' b)) (b : β) :
    InStep R (loop size body h b) (loop size' body' h' b) := by
  intro r r' hr
  induction hn : size r using Nat.strongRecOn generalizing b r r' with
  | ind n ih =>
    subst hn
    obtain ⟨e, he, he'⟩ | ⟨b' | a, s, s', ha, ha', hs⟩ := hbody b r r' hr
    · exact .inl ⟨e, loop_of_error he, loop_of_error he'⟩
    · rw [loop_of_next ha, loop_of_next ha']
      exact ih _ (h b r b' s ha) b' s s' hs rfl
    · exact .inr ⟨a, s, s', loop_of_done ha, loop_of_done ha', hs⟩

end InStep

end Loops
