import Mathlib.Logic.Relation

/-!
# Labelled Transition Systems

Runs, reachability and the induction rule that turns a step lemma into a statement about
every reachable state. Nothing here mentions a particular program: a protocol, a store or
a parser instantiates `System` with its own states and labels.

## Main results

* `Runs.invariant`: a predicate kept by every step is kept by every run.
* `System.Reachable.invariant`: a predicate that holds initially and is kept by every step
  holds in every reachable state.
* `System.restrict`: the same system with only those steps whose source state and label
  meet a condition; `Reachable.of_restrict` forgets the condition.
* `System.Reachable.of_run`: a run of an executable step function is a run of its system;
  `of_guarded` is the rule for one that checks a condition on every step.
-/

namespace Transition

/-- A labelled transition system over states `σ` and labels `α`. -/
structure System (σ α : Type*) where
  /-- The states a run may start in. -/
  init : σ → Prop
  /-- `step s a t`: the label `a` may take the state `s` to `t`. -/
  step : σ → α → σ → Prop

variable {σ α : Type*}

/-- `Runs S s tr t`: the labels `tr`, taken in order, lead from `s` to `t`. -/
inductive Runs (S : System σ α) : σ → List α → σ → Prop
  | nil (s : σ) : Runs S s [] s
  | snoc {s t u : σ} {tr : List α} {a : α} :
      Runs S s tr t → S.step t a u → Runs S s (tr ++ [a]) u

/-- A predicate that every step keeps is kept by every run. -/
theorem Runs.invariant {S : System σ α} {I : σ → Prop}
    (hstep : ∀ s a t, I s → S.step s a t → I t)
    {s t : σ} {tr : List α} (h : Runs S s tr t) (hs : I s) : I t := by
  induction h with
  | nil => exact hs
  | snoc _ hlast ih => exact hstep _ _ _ ih hlast

/-- A state is reachable when some run leads to it from an initial state. -/
def System.Reachable (S : System σ α) (t : σ) : Prop :=
  ∃ s tr, S.init s ∧ Runs S s tr t

/-- Initial states are reachable. -/
theorem System.Reachable.start {S : System σ α} {s : σ} (h : S.init s) : S.Reachable s :=
  ⟨s, [], h, Runs.nil s⟩

/-- One more step from a reachable state. -/
theorem System.Reachable.tail {S : System σ α} {s t : σ} {a : α} (h : S.Reachable s)
    (hstep : S.step s a t) : S.Reachable t := by
  obtain ⟨s₀, tr, hinit, hrun⟩ := h
  exact ⟨s₀, tr ++ [a], hinit, Runs.snoc hrun hstep⟩

/-- **The invariant rule.** What holds initially and is kept by every step holds in every
reachable state. -/
theorem System.Reachable.invariant {S : System σ α} {I : σ → Prop}
    (hinit : ∀ s, S.init s → I s) (hstep : ∀ s a t, I s → S.step s a t → I t)
    {t : σ} (h : S.Reachable t) : I t := by
  obtain ⟨s, tr, hs, hrun⟩ := h
  exact hrun.invariant hstep (hinit s hs)

/-- The system that takes only the steps whose source state and label meet `p`. -/
def System.restrict (S : System σ α) (p : σ → α → Prop) : System σ α where
  init := S.init
  step s a t := p s a ∧ S.step s a t

/-- Forgetting the condition on the steps. -/
theorem System.Reachable.of_restrict {S : System σ α} {p : σ → α → Prop} {t : σ}
    (h : (S.restrict p).Reachable t) : S.Reachable t := by
  refine h.invariant ?_ ?_
  · exact fun _ hs => System.Reachable.start hs
  · rintro s a t hs ⟨-, hstep⟩
    exact hs.tail hstep

/-! ### Executable systems -/

/-- The system of a function that takes a state and a label to the next state, if the label
is enabled there. -/
def System.ofNext (init : σ → Prop) (next : σ → α → Option σ) : System σ α where
  init := init
  step s a t := next s a = some t

/-- Take the labels in order. -/
def run (next : σ → α → Option σ) (s : σ) (tr : List α) : Option σ := tr.foldlM next s

/-- What can be executed is reachable. -/
theorem System.Reachable.of_run {init : σ → Prop} {next : σ → α → Option σ} {s t : σ}
    {tr : List α} (hs : (System.ofNext init next).Reachable s) (h : run next s tr = some t) :
    (System.ofNext init next).Reachable t := by
  induction tr generalizing s with
  | nil =>
      obtain rfl : s = t := Option.some.inj h
      exact hs
  | cons a tr ih =>
      obtain ⟨u, hstep, hrest⟩ := Option.bind_eq_some_iff.mp h
      exact ih (hs.tail hstep) hrest

/-- What can be executed when every step is checked first is reachable by steps that meet the
condition. -/
theorem System.Reachable.of_guarded {init : σ → Prop} {next : σ → α → Option σ}
    {p : σ → α → Prop} [∀ s a, Decidable (p s a)] {t : σ}
    (h : (System.ofNext init fun s a => if p s a then next s a else none).Reachable t) :
    ((System.ofNext init next).restrict p).Reachable t := by
  refine h.invariant ?_ ?_
  · exact fun _ hs => System.Reachable.start hs
  · intro s a t hs hstep
    by_cases hp : p s a
    · exact hs.tail ⟨hp, by simpa [System.ofNext, hp] using hstep⟩
    · simp [System.ofNext, hp] at hstep

end Transition
