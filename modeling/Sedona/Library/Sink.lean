import Mathlib.Data.List.Basic

/-!
# Writing to a Sink That May Refuse

A sink takes or refuses each chunk that it is offered, and goes on either way. A computation that
ignores the refusals offers the same chunks to every sink.

## Main results

* `Emits.bind`: what two computations in sequence offer.
* `sublist_taken`: what has been taken is a part of what was offered, in order.
* `refused_iff`: everything has been taken unless a chunk was refused.
-/

/-- A sink: whether it takes a chunk, and its state afterwards. -/
structure Sink (κ σ : Type) where
  offer : κ → σ → Bool × σ

namespace Sink

variable {κ σ β γ : Type} (out : Sink κ σ)

/-- The state of a sink, with the chunks that it has taken, and whether it has refused one. -/
structure Log (κ σ : Type) where
  state : σ
  taken : List κ := []
  refused : Bool := false

/-- A computation that writes to a sink. -/
abbrev Writer (κ σ : Type) := StateT (Log κ σ) Option

/-- The log after a chunk. -/
def next (l : Log κ σ) (k : κ) : Log κ σ :=
  if (out.offer k l.state).1 then
    { l with state := (out.offer k l.state).2, taken := l.taken ++ [k] }
  else { l with state := (out.offer k l.state).2, refused := true }

/-- Offers a chunk, and returns whether it was taken. -/
def send (k : κ) : Writer κ σ Bool := fun l => some ((out.offer k l.state).1, out.next l k)

/-- The log after all these chunks. -/
def sendAll (ks : List κ) (l : Log κ σ) : Log κ σ := ks.foldl out.next l

/-- The state after all these chunks. -/
def after (ks : List κ) (s : σ) : σ := ks.foldl (fun s k => (out.offer k s).2) s

/-- The sink takes all these chunks. -/
def Takes : List κ → σ → Prop
  | [], _ => True
  | k :: ks, s => (out.offer k s).1 = true ∧ Takes ks (out.offer k s).2

/-- Whatever it returns, the computation offers these chunks. -/
def Emits (x : Writer κ σ β) (ks : List κ) : Prop :=
  ∀ l, (x.run l).map Prod.snd = some (out.sendAll ks l)

variable {out} {k : κ} {ks ks' : List κ} {l : Log κ σ}

/-! ### What is offered -/

theorem sendAll_append : out.sendAll (ks ++ ks') l = out.sendAll ks' (out.sendAll ks l) :=
  List.foldl_append

theorem Emits.pure (b : β) : out.Emits (pure b : Writer κ σ β) [] := fun _ => rfl

theorem emits_send (k : κ) : out.Emits (out.send k) [k] := fun _ => rfl

/-- What comes after a computation starts from its chunks. -/
theorem Emits.run_bind {x : Writer κ σ β} {f : β → Writer κ σ γ} {r : Option (γ × Log κ σ)}
    (h : out.Emits x ks) (h' : ∀ b, (f b).run (out.sendAll ks l) = r) : (x >>= f).run l = r := by
  obtain ⟨⟨b, l'⟩, hrun, hl' : l' = out.sendAll ks l⟩ := Option.map_eq_some_iff.mp (h l)
  rw [StateT.run_bind, hrun, ← h' b, ← hl']
  rfl

theorem Emits.bind {x : Writer κ σ β} {f : β → Writer κ σ γ} (h : out.Emits x ks)
    (h' : ∀ b, out.Emits (f b) ks') : out.Emits (x >>= f) (ks ++ ks') := by
  intro l
  obtain ⟨⟨b, l'⟩, hrun, hl' : l' = out.sendAll ks l⟩ := Option.map_eq_some_iff.mp (h l)
  rw [StateT.run_bind, hrun, sendAll_append, ← hl']
  exact h' b l'

/-- The result of the last chunk. -/
theorem run_send (k : κ) (f : Bool → β) :
    (out.send k >>= fun ok => Pure.pure (f ok) : Writer κ σ β).run l =
      some (f (out.offer k l.state).1, out.sendAll [k] l) := rfl

theorem Emits.map {x : Writer κ σ β} (f : β → γ) (h : out.Emits x ks) :
    out.Emits (f <$> x) ks := by
  intro l
  rw [StateT.run_map, Option.map_eq_map, Option.map_map]
  exact h l

theorem Emits.discard {x : Writer κ σ β} (h : out.Emits x ks) : out.Emits (discard x) ks :=
  h.map _

/-- A step that does not write, in front of a computation. -/
theorem Emits.lift_bind {x : Option β} {b : β} {f : β → Writer κ σ γ} (hx : x = some b)
    (h : out.Emits (f b) ks) : out.Emits (StateT.lift x >>= f) ks := by
  intro l
  rw [StateT.run_bind, StateT.run_lift, hx]
  exact h l

/-! ### What is taken -/

theorem state_sendAll : (out.sendAll ks l).state = out.after ks l.state := by
  induction ks generalizing l with
  | nil => rfl
  | cons k ks ih =>
    have hstate : (out.next l k).state = (out.offer k l.state).2 := by
      unfold next
      split <;> rfl
    exact ih.trans (congrArg (out.after ks) hstate)

/-- What has been taken is a part of what was offered, in order. -/
theorem sublist_taken : ∃ part, (out.sendAll ks l).taken = l.taken ++ part ∧ part.Sublist ks := by
  induction ks generalizing l with
  | nil => exact ⟨[], (List.append_nil _).symm, .slnil⟩
  | cons k ks ih =>
    obtain ⟨part, htaken, hpart⟩ := ih (l := out.next l k)
    change (out.sendAll ks (out.next l k)).taken = _ at htaken
    by_cases hoffer : (out.offer k l.state).1 = true
    · refine ⟨k :: part, htaken.trans ?_, hpart.cons_cons k⟩
      rw [next, if_pos hoffer, List.append_assoc]
      rfl
    · refine ⟨part, htaken.trans ?_, hpart.cons k⟩
      rw [next, if_neg hoffer]

theorem takes_append {s : σ} :
    out.Takes (ks ++ ks') s ↔ out.Takes ks s ∧ out.Takes ks' (out.after ks s) := by
  induction ks generalizing s with
  | nil => exact (and_iff_right trivial).symm
  | cons k ks ih => exact (and_congr_right fun _ => ih).trans and_assoc.symm

theorem refused_sendAll (h : l.refused = true) : (out.sendAll ks l).refused = true := by
  induction ks generalizing l with
  | nil => exact h
  | cons k ks ih =>
    refine ih (l := out.next l k) ?_
    unfold next
    split
    · exact h
    · rfl

/-- A chunk is refused unless the sink takes all of them. -/
theorem refused_iff (h : l.refused = false) :
    (out.sendAll ks l).refused = true ↔ ¬ out.Takes ks l.state := by
  induction ks generalizing l with
  | nil => exact ⟨fun hr => absurd (h.symm.trans hr) (by decide), fun hn => absurd trivial hn⟩
  | cons k ks ih =>
    by_cases hoffer : (out.offer k l.state).1 = true
    · have hnext : out.next l k =
          { l with state := (out.offer k l.state).2, taken := l.taken ++ [k] } := if_pos hoffer
      have hrest := ih (l := out.next l k) (by rw [hnext]; exact h)
      have htakes : out.Takes (k :: ks) l.state ↔ out.Takes ks (out.next l k).state := by
        rw [hnext]
        exact and_iff_right hoffer
      rw [htakes]
      exact hrest
    · have hnext : (out.next l k).refused = true := by rw [next, if_neg hoffer]
      have hrest : (out.sendAll ks (out.next l k)).refused = true := refused_sendAll hnext
      exact ⟨fun _ ht => hoffer ht.1, fun _ => hrest⟩

/-- Everything has been taken if nothing was refused. -/
theorem taken_of_takes (h : out.Takes ks l.state) :
    (out.sendAll ks l).taken = l.taken ++ ks := by
  induction ks generalizing l with
  | nil => exact (List.append_nil _).symm
  | cons k ks ih =>
    have hnext : out.next l k =
        { l with state := (out.offer k l.state).2, taken := l.taken ++ [k] } := if_pos h.1
    have hrest := ih (l := out.next l k) (by rw [hnext]; exact h.2)
    refine hrest.trans ?_
    rw [hnext, List.append_assoc]
    rfl

end Sink
