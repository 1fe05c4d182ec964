import Sedona.Library.Transition

/-!
# Runs that May Stop

A step function that stops (`none`) where it must not be taken, observed through a history that
is computed from the labels alone. When the history says at each step whether the step is
possible, a whole run goes through exactly when every label is allowed by the history before it.

## Main results

* `run_isSome_iff`: the rule for whole runs.
* `run_related`: the relation between history and state holds along a run.
-/

namespace GuardedRuns

open Transition

variable {σ α η : Type*} {next : σ → α → Option σ} {note : η → α → η} {R : η → σ → Prop}

/-- Every label of a run is allowed by the history of the labels before it. -/
def AllAllowed (note : η → α → η) (Allowed : η → α → Prop) (h : η) (labels : List α) : Prop :=
  ∀ front a, front ++ [a] <+: labels → Allowed (front.foldl note h) a

theorem allAllowed_nil (note : η → α → η) (Allowed : η → α → Prop) (h : η) :
    AllAllowed note Allowed h [] := by
  intro front a hpre
  exact absurd (List.prefix_nil.mp hpre) (by simp)

theorem allAllowed_cons {Allowed : η → α → Prop} {h : η} {a : α} {labels : List α} :
    AllAllowed note Allowed h (a :: labels) ↔
      Allowed h a ∧ AllAllowed note Allowed (note h a) labels := by
  constructor
  · intro hall
    exact ⟨hall [] a ⟨labels, rfl⟩, fun front b hpre =>
      hall (a :: front) b (List.cons_prefix_cons.mpr ⟨rfl, hpre⟩)⟩
  · rintro ⟨hhead, htail⟩ front b hpre
    cases front with
    | nil =>
        obtain rfl : b = a := (List.cons_prefix_cons.mp hpre).1
        exact hhead
    | cons c front =>
        obtain ⟨rfl, hrest⟩ := List.cons_prefix_cons.mp hpre
        exact htail front b hrest

/-- **The rule for whole runs**: a run goes through exactly when every label is allowed. -/
theorem run_isSome_iff {Allowed : η → α → Prop}
    (hallowed : ∀ h s a, R h s → ((next s a).isSome = true ↔ Allowed h a))
    (hnote : ∀ h s a t, R h s → next s a = some t → R (note h a) t)
    {h : η} {s : σ} (hR : R h s) (labels : List α) :
    (run next s labels).isSome = true ↔ AllAllowed note Allowed h labels := by
  induction labels generalizing h s with
  | nil => exact iff_of_true rfl (allAllowed_nil note Allowed h)
  | cons a labels ih =>
      rw [allAllowed_cons, ← hallowed h s a hR, run, List.foldlM_cons]
      cases hstep : next s a with
      | none => simp
      | some t => simpa [run] using ih (hnote h s a t hR hstep)

/-- The history and the state stay related along a run that goes through. -/
theorem run_related (hnote : ∀ h s a t, R h s → next s a = some t → R (note h a) t)
    {h : η} {s t : σ} (hR : R h s) {labels : List α} (hrun : run next s labels = some t) :
    R (labels.foldl note h) t := by
  induction labels generalizing h s with
  | nil =>
      obtain rfl : s = t := Option.some.inj hrun
      exact hR
  | cons a labels ih =>
      obtain ⟨u, hstep, hrest⟩ := Option.bind_eq_some_iff.mp hrun
      exact ih (hnote h s a u hR hstep) hrest

end GuardedRuns
