import Mathlib.Control.Lawful
import Mathlib.Data.Option.Basic

/-!
# Two Runs of One Program

A program over a state, which may fail, is run from two states that are related. `Blind R x P` says
that the runs do not tell the states apart: both fail, or both end with the same result and in
states related by `P`. The relations name what a program may depend on: what it reads must be the
same in related states, and what it writes must keep them related.

## Main results

* `Blind.bind`, `Blind.read`, `Blind.write`: the rules of the constructs.
* `Blind.forM`, `Blind.foldlM`: loops over a list, with an invariant.
* `Meets.rel`: runs of a step function, one label after another.
-/

variable {σ α β γ : Type}

/-- Two runs of the program from related states both fail, or end with the same result in related
states. -/
def Blind (R : σ → σ → Prop) (x : StateT σ Option α) (P : α → σ → σ → Prop) : Prop :=
  ∀ s t, R s t → Option.Rel (fun p q => p.1 = q.1 ∧ P p.1 p.2 q.2) (x s) (x t)

namespace Blind

variable {R S : σ → σ → Prop} {P : α → σ → σ → Prop} {Q : β → σ → σ → Prop}
  {x : StateT σ Option α}

/-- The rule of consequence. -/
theorem mono {P' : α → σ → σ → Prop} (h : Blind R x P) (hpre : ∀ s t, S s t → R s t)
    (hpost : ∀ a s t, P a s t → P' a s t) : Blind S x P' := by
  intro s t hst
  have hx := h s t (hpre s t hst)
  generalize x s = rs at hx
  generalize x t = rt at hx
  cases hx with
  | none => exact .none
  | some hrel => exact .some ⟨hrel.1, hpost _ _ _ hrel.2⟩

theorem pre (h : Blind R x P) (hpre : ∀ s t, S s t → R s t) : Blind S x P :=
  h.mono hpre fun _ _ _ h => h

theorem post {P' : α → σ → σ → Prop} (h : Blind R x P) (hpost : ∀ a s t, P a s t → P' a s t) :
    Blind R x P' :=
  h.mono (fun _ _ h => h) hpost

/-- A fact that the relation of the states implies. -/
theorem of_fact {p : Prop} (hp : ∀ s t, R s t → p) (h : p → Blind R x P) : Blind R x P :=
  fun s t hst => h (hp s t hst) s t hst

protected theorem pure {a : α} (h : ∀ s t, R s t → P a s t) :
    Blind R (pure a : StateT σ Option α) P :=
  fun s t hst => .some ⟨rfl, h s t hst⟩

protected theorem failure : Blind R (failure : StateT σ Option α) P := fun _ _ _ => .none

/-- Two programs in sequence. -/
protected theorem bind {f : α → StateT σ Option β} (h : Blind R x P)
    (hf : ∀ a, Blind (P a) (f a) Q) : Blind R (x >>= f) Q := by
  intro s t hst
  have hx := h s t hst
  change Option.Rel _ ((x s).bind fun p => f p.1 p.2) ((x t).bind fun p => f p.1 p.2)
  generalize x s = rs at hx
  generalize x t = rt at hx
  cases hx with
  | none => exact .none
  | @some p q hrel =>
      obtain ⟨a, s'⟩ := p
      obtain ⟨b, t'⟩ := q
      obtain ⟨rfl, hP⟩ := hrel
      exact hf a s' t' hP

/-- A condition that does not depend on the states. -/
protected theorem ite {p : Prop} [Decidable p] {y : StateT σ Option α} (h : p → Blind R x P)
    (h' : ¬p → Blind R y P) : Blind R (if p then x else y) P := by
  split
  · exact h ‹_›
  · exact h' ‹_›

/-- What is read is the same in related states. -/
theorem read {f : σ → α} (h : ∀ s t, R s t → f s = f t) :
    Blind R (fun s => some (f s, s)) fun a s t => R s t ∧ f s = a ∧ f t = a :=
  fun s t hst => .some ⟨h s t hst, hst, rfl, (h s t hst).symm⟩

/-- What is written keeps the states related. -/
theorem write {f : σ → σ} {P : PUnit → σ → σ → Prop}
    (h : ∀ s t, R s t → P ⟨⟩ (f s) (f t)) : Blind R (fun s => some (⟨⟩, f s)) P :=
  fun s t hst => .some ⟨rfl, h s t hst⟩

/-- A loop over a list, with an invariant. -/
theorem forM (l : List γ) {f : γ → StateT σ Option PUnit}
    (h : ∀ c ∈ l, Blind R (f c) fun _ => R) : Blind R (l.forM f) fun _ => R := by
  induction l with
  | nil => exact .pure fun _ _ h => h
  | cons c l ih =>
      exact (h c (List.mem_cons_self ..)).bind fun _ =>
        ih fun c hc => h c (List.mem_cons_of_mem _ hc)

/-- A loop over a list that carries a value along. -/
theorem foldlM (l : List γ) {f : α → γ → StateT σ Option α}
    (h : ∀ a, ∀ c ∈ l, Blind R (f a c) fun _ => R) (a : α) :
    Blind R (l.foldlM f a) fun _ => R := by
  induction l generalizing a with
  | nil => exact .pure fun _ _ h => h
  | cons c l ih =>
      rw [List.foldlM_cons]
      exact (h a c (List.mem_cons_self ..)).bind fun a =>
        ih (fun a c hc => h a c (List.mem_cons_of_mem _ hc)) a

end Blind

/-! ### Runs -/

/-- Every step of two runs with the same labels meets a condition on the states and the label. -/
def Meets (next : σ → γ → Option σ) (p : σ → σ → γ → Prop) : σ → σ → List γ → Prop
  | _, _, [] => True
  | s, t, c :: tr =>
      p s t c ∧ ∀ s' t', next s c = some s' → next t c = some t' → Meets next p s' t' tr

/-- Related states stay related along two runs, if every step that meets the condition keeps them
so. -/
theorem Meets.rel {R : σ → σ → Prop} {next : σ → γ → Option σ} {p : σ → σ → γ → Prop}
    (hstep : ∀ s t c, R s t → p s t c → Option.Rel R (next s c) (next t c)) {tr : List γ}
    {s t : σ} (h : Meets next p s t tr) (hst : R s t) :
    Option.Rel R (tr.foldlM next s) (tr.foldlM next t) := by
  induction tr generalizing s t with
  | nil => exact .some hst
  | cons c tr ih =>
      obtain ⟨hp, hrest⟩ := h
      have hone := hstep s t c hst hp
      rw [List.foldlM_cons, List.foldlM_cons]
      cases hs : next s c with
      | none =>
          rw [hs] at hone
          cases ht : next t c with
          | none => exact .none
          | some t' => rw [ht] at hone; cases hone
      | some s' =>
          rw [hs] at hone
          cases ht : next t c with
          | none => rw [ht] at hone; cases hone
          | some t' =>
              rw [ht] at hone
              cases hone with
              | some hrel => exact ih (hrest s' t' hs ht) hrel
