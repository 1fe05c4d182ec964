import Mathlib.Data.List.Basic
import Sedona.Library.Fuel

/-!
# Labelled Code

Programs that are lists of instructions, with jumps to the indices of others. An instruction
acts on a machine state and emits events; a program is observed through the events of its
runs and the results they end with.

## Main results

* `Simulates.refines`: a simulation keeps what can be observed.
* `ends_iff`: the result of a run can be computed.
* `Fuses.equivalent`: replacing two adjacent instructions by one keeps it, if the first one is
  silent and nothing jumps between the two.
-/

namespace LabelledCode

variable {ι σ ε ρ : Type*}

/-- What an instruction does: go on to the next one, go to a label, or end the run. -/
inductive Outcome (σ ε ρ : Type*) where
  | next (s : σ) (tr : List ε)
  | goto (l : ℕ) (s : σ) (tr : List ε)
  | halt (r : ρ) (tr : List ε)

/-- The same outcome with labels renamed. -/
def Outcome.relabel (f : ℕ → ℕ) : Outcome σ ε ρ → Outcome σ ε ρ
  | .next s tr => .next s tr
  | .goto l s tr => .goto (f l) s tr
  | .halt r tr => .halt r tr

variable (exec : ι → σ → Outcome σ ε ρ) (code o n : List ι)

/-- One step: from the index of an instruction and a machine state to the next ones. -/
def next (c : ℕ × σ) : Option ((ℕ × σ) × List ε) :=
  (code[c.1]?).bind fun i =>
    match exec i c.2 with
    | .next s tr => some ((c.1 + 1, s), tr)
    | .goto l s tr => some ((l, s), tr)
    | .halt _ _ => none

/-- The result of a run that ends here, with the last events. -/
def final (c : ℕ × σ) : Option (ρ × List ε) :=
  (code[c.1]?).bind fun i =>
    match exec i c.2 with
    | .halt r tr => some (r, tr)
    | _ => none

/-- `Runs exec code c tr d`: from `c` the run comes to `d` and has emitted `tr`. -/
inductive Runs (c : ℕ × σ) : List ε → ℕ × σ → Prop
  | nil : Runs c [] c
  | snoc {tr ev : List ε} {d e : ℕ × σ} :
      Runs c tr d → next exec code d = some (e, ev) → Runs c (tr ++ ev) e

/-- Some run from the start has emitted these events so far. -/
def Emits (s : σ) (tr : List ε) : Prop := ∃ d, Runs exec code (0, s) tr d

/-- The run from the start ends with this result and has emitted these events. -/
def Ends (s : σ) (r : ρ) (tr : List ε) : Prop :=
  ∃ d tr₁ tr₂, Runs exec code (0, s) tr₁ d ∧ final exec code d = some (r, tr₂) ∧
    tr = tr₁ ++ tr₂

/-- What can be observed of `o` can be observed of `n`. -/
structure Refines : Prop where
  emits : ∀ s tr, Emits exec o s tr → Emits exec n s tr
  ends : ∀ s r tr, Ends exec o s r tr → Ends exec n s r tr

/-- The same can be observed of both programs: the same events in the same order, and the same
results. -/
structure Equivalent : Prop where
  forward : Refines exec o n
  backward : Refines exec n o

variable {exec code o n}

theorem Equivalent.refl : Equivalent exec o o :=
  ⟨⟨fun _ _ h => h, fun _ _ _ h => h⟩, ⟨fun _ _ h => h, fun _ _ _ h => h⟩⟩

theorem Refines.trans {m : List ι} (h : Refines exec o m) (h' : Refines exec m n) :
    Refines exec o n :=
  ⟨fun s tr ho => h'.emits s tr (h.emits s tr ho), fun s r tr ho => h'.ends s r tr (h.ends s r tr ho)⟩

theorem Equivalent.trans {m : List ι} (h : Equivalent exec o m) (h' : Equivalent exec m n) :
    Equivalent exec o n :=
  ⟨h.forward.trans h'.forward, h'.backward.trans h.backward⟩

/-! ### Runs -/

theorem Runs.single {c d : ℕ × σ} {ev : List ε} (h : next exec code c = some (d, ev)) :
    Runs exec code c ev d := by
  have hrun : Runs exec code c ([] ++ ev) d := Runs.snoc Runs.nil h
  rwa [List.nil_append] at hrun

theorem Runs.trans {c d e : ℕ × σ} {tr tr' : List ε} (h : Runs exec code c tr d)
    (h' : Runs exec code d tr' e) : Runs exec code c (tr ++ tr') e := by
  induction h' with
  | nil => rwa [List.append_nil]
  | snoc _ hlast ih =>
      rw [← List.append_assoc]
      exact Runs.snoc ih hlast

/-! ### Results -/

variable (exec code) in
/-- The result of the run from a state, if it ends within so many steps. -/
def result : ℕ → ℕ × σ → Option ρ
  | 0, _ => none
  | fuel + 1, c =>
      match final exec code c with
      | some (r, _) => some r
      | none => (next exec code c).bind fun d => result fuel d.1

theorem final_of_next {c d : ℕ × σ} {ev : List ε} (h : next exec code c = some (d, ev)) :
    final exec code c = none := by
  obtain ⟨i, hi, h⟩ := Option.bind_eq_some_iff.mp h
  rw [final, hi, Option.bind_some]
  cases hout : exec i c.2 with
  | next | goto => rfl
  | halt => simp [hout] at h

theorem returns_of_next {c d : ℕ × σ} {ev : List ε} {r : ρ}
    (h : next exec code c = some (d, ev)) (hd : Fuel.Returns (fun k => result exec code k d) r) :
    Fuel.Returns (fun k => result exec code k c) r := by
  obtain ⟨k, hk⟩ := hd
  refine Fuel.returns_of_succ k fun fuel hfuel => ?_
  simp only [result, final_of_next h, h, Option.bind_some]
  exact hk fuel hfuel

theorem Runs.returns {c d : ℕ × σ} {tr : List ε} {r : ρ} (h : Runs exec code c tr d)
    (hd : Fuel.Returns (fun k => result exec code k d) r) :
    Fuel.Returns (fun k => result exec code k c) r := by
  induction h with
  | nil => exact hd
  | snoc _ hlast ih => exact ih (returns_of_next hlast hd)

theorem exists_runs_of_result {k : ℕ} {c : ℕ × σ} {r : ρ} (h : result exec code k c = some r) :
    ∃ d tr tr', Runs exec code c tr d ∧ final exec code d = some (r, tr') := by
  induction k generalizing c with
  | zero => simp [result] at h
  | succ k ih =>
      rw [result] at h
      split at h
      · rename_i r' tr' hfinal
        obtain rfl := Option.some.inj h
        exact ⟨c, [], tr', Runs.nil, hfinal⟩
      · obtain ⟨⟨d, ev⟩, hnext, hrest⟩ := Option.bind_eq_some_iff.mp h
        obtain ⟨e, tr, tr', hrun, hfinal⟩ := ih hrest
        exact ⟨e, ev ++ tr, tr', (Runs.single hnext).trans hrun, hfinal⟩

/-- **The result of a run** is what the computation returns. -/
theorem ends_iff {s : σ} {r : ρ} :
    (∃ tr, Ends exec code s r tr) ↔ Fuel.Returns (fun k => result exec code k (0, s)) r := by
  constructor
  · rintro ⟨tr, d, tr₁, tr₂, hrun, hfinal, -⟩
    refine hrun.returns ?_
    refine Fuel.returns_of_succ 0 fun fuel _ => ?_
    simp only [result, hfinal]
  · rintro ⟨k, hk⟩
    obtain ⟨d, tr, tr', hrun, hfinal⟩ := exists_runs_of_result (hk k le_rfl)
    exact ⟨tr ++ tr', d, tr, tr', hrun, hfinal, rfl⟩

/-- Equivalent programs have the same results. -/
theorem Equivalent.returns_iff (h : Equivalent exec o n) {s : σ} {r : ρ} :
    Fuel.Returns (fun k => result exec o k (0, s)) r ↔
      Fuel.Returns (fun k => result exec n k (0, s)) r := by
  rw [← ends_iff, ← ends_iff]
  constructor
  · rintro ⟨tr, htr⟩
    exact ⟨tr, h.forward.ends s r tr htr⟩
  · rintro ⟨tr, htr⟩
    exact ⟨tr, h.backward.ends s r tr htr⟩

/-! ### Simulations -/

variable (exec o n) in
/-- Related to a state of a run of `o`, a state of a run of `n` can do all that `o` does next,
in any number of steps. -/
structure Simulates (R : ℕ × σ → ℕ × σ → Prop) : Prop where
  start : ∀ s, R (0, s) (0, s)
  next : ∀ c d, R c d → ∀ c' ev, next exec o c = some (c', ev) →
    ∃ d', Runs exec n d ev d' ∧ R c' d'
  final : ∀ c d, R c d → ∀ r ev, final exec o c = some (r, ev) →
    ∃ d', Runs exec n d [] d' ∧ final exec n d' = some (r, ev)

variable {R : ℕ × σ → ℕ × σ → Prop}

theorem Simulates.runs (h : Simulates exec o n R) {s : σ} {tr : List ε} {c : ℕ × σ}
    (hrun : Runs exec o (0, s) tr c) : ∃ d, Runs exec n (0, s) tr d ∧ R c d := by
  induction hrun with
  | nil => exact ⟨(0, s), Runs.nil, h.start s⟩
  | snoc _ hlast ih =>
      obtain ⟨d, hd, hR⟩ := ih
      obtain ⟨d', hd', hR'⟩ := h.next _ d hR _ _ hlast
      exact ⟨d', hd.trans hd', hR'⟩

/-- **A simulation** keeps what can be observed. -/
theorem Simulates.refines (h : Simulates exec o n R) : Refines exec o n where
  emits s tr := by
    rintro ⟨c, hc⟩
    obtain ⟨d, hd, -⟩ := h.runs hc
    exact ⟨d, hd⟩
  ends s r tr := by
    rintro ⟨c, tr₁, tr₂, hc, hfinal, rfl⟩
    obtain ⟨d, hd, hR⟩ := h.runs hc
    obtain ⟨d', hd', hfinal'⟩ := h.final c d hR r tr₂ hfinal
    refine ⟨d', tr₁, tr₂, ?_, hfinal', rfl⟩
    have hrun := hd.trans hd'
    rwa [List.append_nil] at hrun

/-! ### The step of an instruction -/

theorem next_eq {c : ℕ × σ} {i : ι} (h : code[c.1]? = some i) :
    next exec code c = match exec i c.2 with
      | .next s tr => some ((c.1 + 1, s), tr)
      | .goto l s tr => some ((l, s), tr)
      | .halt _ _ => none := by
  rw [next, h, Option.bind_some]

theorem final_eq {c : ℕ × σ} {i : ι} (h : code[c.1]? = some i) :
    final exec code c = match exec i c.2 with
      | .halt r tr => some (r, tr)
      | _ => none := by
  rw [final, h, Option.bind_some]

/-- Replacing an instruction by one that does the same. -/
theorem equivalent_of_exec_eq
    (h : ∀ p : ℕ, (o[p]?).map exec = (n[p]?).map exec) : Equivalent exec o n := by
  have hnext : ∀ c, next exec o c = next exec n c := by
    intro c
    have hc := h c.1
    unfold next
    cases ho : o[c.1]? <;> cases hn : n[c.1]? <;> simp_all
  have hfinal : ∀ c, final exec o c = final exec n c := by
    intro c
    have hc := h c.1
    unfold final
    cases ho : o[c.1]? <;> cases hn : n[c.1]? <;> simp_all
  have hsim : Simulates exec o n Eq := by
    refine ⟨fun _ => rfl, ?_, ?_⟩
    · rintro c d rfl c' ev hstep
      exact ⟨c', Runs.single (hnext c ▸ hstep), rfl⟩
    · rintro c d rfl r ev hend
      exact ⟨c, Runs.nil, hfinal c ▸ hend⟩
  have hsim' : Simulates exec n o Eq := by
    refine ⟨fun _ => rfl, ?_, ?_⟩
    · rintro c d rfl c' ev hstep
      exact ⟨c', Runs.single ((hnext c).symm ▸ hstep), rfl⟩
    · rintro c d rfl r ev hend
      exact ⟨c, Runs.nil, (hfinal c).symm ▸ hend⟩
  exact ⟨hsim.refines, hsim'.refines⟩

/-! ### Fusing two instructions -/

/-- Where the instruction at `p` is after those at `k` and `k + 1` have become one. -/
def shift (k p : ℕ) : ℕ := if k < p then p - 1 else p

variable (exec o n) in
/-- `n` is `o` with the instructions `a` at `k` and `b` at `k + 1` fused into one: `a` has the
silent effect `e`, and the new instruction does what `b` does after it. Nothing jumps to `b`,
unless `a` does nothing at all. -/
structure Fuses (k : ℕ) (e : σ → σ) : Prop where
  fst : ∃ a, o[k]? = some a ∧ ∀ s, exec a s = .next (e s) []
  snd : ∃ b x, o[k + 1]? = some b ∧ n[k]? = some x ∧
    ∀ s, exec x s = (exec b (e s)).relabel (shift k)
  others : ∀ p, p ≠ k → p ≠ k + 1 →
    (n[shift k p]?).map exec = (o[p]?).map fun i s => (exec i s).relabel (shift k)
  target : (∀ i ∈ o, ∀ s l t tr, exec i s = .goto l t tr → l ≠ k + 1) ∨ ∀ s, e s = s

namespace Fuses

variable {k : ℕ} {e : σ → σ}

/-- The states of the runs correspond; between the two instructions, the run of `n` is still
in front of the new one. -/
def Rel (k : ℕ) (e : σ → σ) (c d : ℕ × σ) : Prop :=
  (c.1 ≠ k + 1 ∧ d = (shift k c.1, c.2)) ∨ (c.1 = k + 1 ∧ d.1 = k ∧ c.2 = e d.2)

theorem shift_succ (p : ℕ) (h : p ≠ k) : shift k (p + 1) = shift k p + 1 := by
  unfold shift
  split <;> split <;> omega

/-- A jump from corresponding states leads to corresponding states. -/
theorem rel_goto (h : Fuses exec o n k e) {p l : ℕ} {i : ι} {s t : σ} {tr : List ε}
    (hi : o[p]? = some i) (hgoto : exec i s = .goto l t tr) : Rel k e (l, t) (shift k l, t) := by
  by_cases hl : l = k + 1
  · rcases h.target with hno | hid
    · exact absurd hl (hno i (List.mem_of_getElem? hi) s l t tr hgoto)
    · refine Or.inr ⟨hl, ?_, (hid t).symm⟩
      simp [hl, shift]
  · exact Or.inl ⟨hl, rfl⟩

/-- The instruction that corresponds to the one at `p`, and what it does. -/
theorem other (h : Fuses exec o n k e) {p : ℕ} {i : ι} (hp : p ≠ k) (hp' : p ≠ k + 1)
    (hi : o[p]? = some i) :
    ∃ j, n[shift k p]? = some j ∧ ∀ s, exec j s = (exec i s).relabel (shift k) := by
  have heq := h.others p hp hp'
  rw [hi, Option.map_some] at heq
  obtain ⟨j, hj, hexec⟩ := Option.map_eq_some_iff.mp heq
  exact ⟨j, hj, fun s => congrFun hexec s⟩

/-- One step of two instructions that do the same up to labels. -/
theorem next_of_exec (h : Fuses exec o n k e) {p q : ℕ} {i j : ι} {s t : σ}
    (hi : o[p]? = some i) (hj : n[q]? = some j) (hpq : p ≠ k) (hq : q + 1 = shift k (p + 1))
    (hexec : exec j t = (exec i s).relabel (shift k)) :
    (∀ c' ev, next exec o (p, s) = some (c', ev) →
      ∃ d', next exec n (q, t) = some (d', ev) ∧ Rel k e c' d') ∧
    (∀ d' ev, next exec n (q, t) = some (d', ev) →
      ∃ c', next exec o (p, s) = some (c', ev) ∧ Rel k e c' d') ∧
    final exec n (q, t) = final exec o (p, s) := by
  rw [next_eq (c := (p, s)) hi, next_eq (c := (q, t)) hj, final_eq (c := (p, s)) hi,
    final_eq (c := (q, t)) hj, hexec]
  cases hout : exec i s with
  | next s' tr =>
      have hrel : Rel k e (p + 1, s') (q + 1, s') := Or.inl ⟨by omega, by rw [hq]⟩
      simp only [Outcome.relabel, Option.some.injEq, Prod.mk.injEq, and_true]
      refine ⟨?_, ?_⟩
      · rintro c' ev ⟨rfl, rfl⟩
        exact ⟨_, ⟨rfl, rfl⟩, hrel⟩
      · rintro d' ev ⟨rfl, rfl⟩
        exact ⟨_, ⟨rfl, rfl⟩, hrel⟩
  | goto l s' tr =>
      have hrel := h.rel_goto hi hout
      simp only [Outcome.relabel, Option.some.injEq, Prod.mk.injEq, and_true]
      refine ⟨?_, ?_⟩
      · rintro c' ev ⟨rfl, rfl⟩
        exact ⟨_, ⟨rfl, rfl⟩, hrel⟩
      · rintro d' ev ⟨rfl, rfl⟩
        exact ⟨_, ⟨rfl, rfl⟩, hrel⟩
  | halt r tr => simp [Outcome.relabel]

/-- **Corresponding states** do the same, unless the run of `o` is at the first one of the two
instructions. -/
theorem step_spec (h : Fuses exec o n k e) {c d : ℕ × σ} (hrel : Rel k e c d) (hc : c.1 ≠ k) :
    (∀ c' ev, next exec o c = some (c', ev) →
      ∃ d', next exec n d = some (d', ev) ∧ Rel k e c' d') ∧
    (∀ d' ev, next exec n d = some (d', ev) →
      ∃ c', next exec o c = some (c', ev) ∧ Rel k e c' d') ∧
    final exec n d = final exec o c := by
  obtain ⟨p, s⟩ := c
  obtain ⟨q, t⟩ := d
  rcases hrel with ⟨hp, hd⟩ | ⟨hp, hq, hs⟩
  · obtain ⟨rfl, rfl⟩ := Prod.mk.inj hd
    cases hi : o[p]? with
    | some i =>
        obtain ⟨j, hj, hexec⟩ := h.other hc hp hi
        exact h.next_of_exec hi hj hc (shift_succ p hc).symm (hexec t)
    | none =>
        have hj := h.others p hc hp
        rw [hi, Option.map_none, Option.map_eq_none_iff] at hj
        simp [next, final, hi, hj]
  · obtain ⟨b, x, hb, hx, hexec⟩ := h.snd
    simp only at hp hq hs
    subst hp hq hs
    exact h.next_of_exec hb hx hc (by rw [shift, if_pos (by omega)]; rfl) (hexec t)

/-- At the first one of the two instructions, the run of `o` goes on silently. -/
theorem next_fst (h : Fuses exec o n k e) (s : σ) :
    next exec o (k, s) = some ((k + 1, e s), []) ∧ final exec o (k, s) = none ∧
      Rel k e (k + 1, e s) (k, s) := by
  obtain ⟨a, ha, hexec⟩ := h.fst
  refine ⟨?_, ?_, Or.inr ⟨rfl, rfl, rfl⟩⟩
  · rw [next_eq (c := (k, s)) ha, hexec]
  · rw [final_eq (c := (k, s)) ha, hexec]

theorem rel_fst {c d : ℕ × σ} (hrel : Rel k e c d) (hc : c.1 = k) : c = d := by
  rcases hrel with ⟨-, rfl⟩ | ⟨hp, -⟩
  · exact Prod.ext (by simp [hc, shift]) rfl
  · omega

theorem rel_start (s : σ) : Rel k e (0, s) (0, s) :=
  Or.inl ⟨(Nat.succ_ne_zero k).symm, by simp [shift]⟩

theorem simulates (h : Fuses exec o n k e) : Simulates exec o n (Rel k e) where
  start := rel_start
  next c d hrel c' ev hstep := by
    by_cases hc : c.1 = k
    · obtain rfl := rel_fst hrel hc
      obtain ⟨p, s⟩ := c
      obtain rfl : p = k := hc
      obtain ⟨hnext, -, hrel'⟩ := h.next_fst s
      obtain ⟨rfl, rfl⟩ := Prod.mk.inj (Option.some.inj (hstep.symm.trans hnext))
      exact ⟨(p, s), Runs.nil, hrel'⟩
    · obtain ⟨d', hd', hrel'⟩ := (h.step_spec hrel hc).1 c' ev hstep
      exact ⟨d', Runs.single hd', hrel'⟩
  final c d hrel r ev hend := by
    by_cases hc : c.1 = k
    · obtain ⟨p, s⟩ := c
      obtain rfl : p = k := hc
      exact absurd (hend.symm.trans (h.next_fst s).2.1) (by simp)
    · exact ⟨d, Runs.nil, (h.step_spec hrel hc).2.2.trans hend⟩

theorem simulates_back (h : Fuses exec o n k e) :
    Simulates exec n o fun d c => Rel k e c d where
  start := rel_start
  next d c hrel d' ev hstep := by
    by_cases hc : c.1 = k
    · obtain rfl := rel_fst hrel hc
      obtain ⟨p, s⟩ := c
      obtain rfl : p = k := hc
      obtain ⟨hnext, -, hrel'⟩ := h.next_fst s
      obtain ⟨c', hc', hrel''⟩ := (h.step_spec hrel' (Nat.succ_ne_self p)).2.1 d' ev hstep
      exact ⟨c', (Runs.single hnext).trans (Runs.single hc'), hrel''⟩
    · obtain ⟨c', hc', hrel'⟩ := (h.step_spec hrel hc).2.1 d' ev hstep
      exact ⟨c', Runs.single hc', hrel'⟩
  final d c hrel r ev hend := by
    by_cases hc : c.1 = k
    · obtain rfl := rel_fst hrel hc
      obtain ⟨p, s⟩ := c
      obtain rfl : p = k := hc
      obtain ⟨hnext, -, hrel'⟩ := h.next_fst s
      exact ⟨_, Runs.single hnext,
        (h.step_spec hrel' (Nat.succ_ne_self p)).2.2.symm.trans hend⟩
    · exact ⟨c, Runs.nil, (h.step_spec hrel hc).2.2.symm.trans hend⟩

/-- **Fusing two instructions** keeps what can be observed. -/
theorem equivalent (h : Fuses exec o n k e) : Equivalent exec o n :=
  ⟨h.simulates.refines, h.simulates_back.refines⟩

end Fuses

end LabelledCode
