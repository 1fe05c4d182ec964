import Sedona.Sys.ScanTree

/-!
# The Work of a Cycle

A cycle of `App.resumeApp`: the tree is executed, and the services get rounds of work until their
time is up or nobody has more to do.

## Main results

* `cycleLaw_of_subtree`: what a cycle calls.
* `round_spec`: a round of work, and what `canHibernate` says behind it.
* `workLoop_spec`: the rounds of a cycle.
-/

namespace Sedona

open Relation Intrusive Postorder

variable {δ : Type}

/-! ### Cycles -/

/-- The reference is that of a service of the application. -/
def App.IsService (a : App δ) (s : Ref) : Prop :=
  ∃ i c, a.lookup i = s ∧ a.objs s = some c ∧ c.type.isService = true

namespace Event

/-- A call that belongs to the execution of the tree. -/
def scan : Notice → Bool
  | .propagate _ => true
  | .execute _ => true
  | _ => false

/-- An entry of the part of a cycle behind the execution of the tree. -/
def late : Event → Bool
  | asked (.allowChildExecute _) _ _ => false
  | told (.propagate _) _ => false
  | told (.execute _) _ => false
  | told (.onUnhibernate _) _ => false
  | resume => false
  | cycle => false
  | _ => true

end Event

/-- A cycle executes the components all of whose ancestors allow it, each once and behind its
children, and all services work, unless the app is stopped. -/
structure CycleLaw (a : App δ) (c : List Event) : Prop where
  scan : ∃ ids : List ℕ, ids.Nodup ∧
    (∀ id, id ∈ ids ↔ a.lookup id ≠ 0 ∧
      ∀ p, a.lookup p ≠ 0 → TransGen (IsKid a.node) p id → Engine.Allows a c p) ∧
    (∀ p k, IsKid a.node p k → p ∈ ids → k ∈ ids → List.Sublist [k, p] ids) ∧
    ∃ parts, List.Forall₂ (Engine.Executes a) ids parts ∧
      (c.filterMap Event.notice).filter Event.scan = parts.flatten
  work : (∀ s, a.IsService s → ∃ b ctl, .asked (.work s) b ctl ∈ c) ∨ ∃ ev ∈ c, ev.Stops
  quiet : ∀ ev ∈ c, ev ≠ .cycle ∧ ev ≠ .resume ∧ ∀ s ctl, ev ≠ .told (.onUnhibernate s) ctl

namespace Engine

open App

variable {w : World δ} {e e' e'' : Engine δ} {a : App δ} {l l' : List Event} {id k m n : ℕ}
  {ss : List Ref} {S : Ref → Prop}

theorem lookup_ne_iff (h : a.Inv) : a.lookup id ≠ 0 ↔ ReflTransGen (IsKid a.node) 0 id := by
  constructor
  · intro h0
    obtain ⟨c, hc, -⟩ := h.table.exists_comp h0
    have hrooted := h.tree.rooted id c.toNode (node_eq_some.mpr ⟨c, hc, rfl⟩)
    clear h0 hc
    induction hrooted with
    | root => exact .refl
    | step hn _ ih => exact ih.tail ⟨_, hn, rfl⟩
  · intro hbelow
    obtain rfl | ⟨p, -, n, hn, -⟩ := hbelow.cases_tail
    · rw [h.table.self]
      exact h.table.self_ne
    · exact h.table.lookup_of_node hn

theorem scan_of_executes {ids : List ℕ} {parts : List (List Notice)}
    (h : List.Forall₂ (Executes a) ids parts) : ∀ n ∈ parts.flatten, Event.scan n = true := by
  induction h with
  | nil => exact fun n hn => (List.not_mem_nil hn).elim
  | cons hp _ ih =>
      obtain ⟨c, links, -, -, rfl⟩ := hp
      intro n hn
      rw [List.flatten_cons, List.mem_append, List.mem_append] at hn
      obtain (hn | hn) | hn := hn
      · obtain ⟨k, -, rfl⟩ := List.mem_map.mp hn
        rfl
      · rw [List.mem_singleton.mp hn]
        rfl
      · exact ih n hn

/-- The execution of the tree, and what follows it. -/
theorem cycleLaw_of_subtree (h : a.Inv) {ids : List ℕ} {tail : List Event}
    (hs : Subtree a 0 ids l) (htail : ∀ ev ∈ tail, ev.late = true)
    (hwork : (∀ s, a.IsService s → ∃ b ctl, .asked (.work s) b ctl ∈ tail) ∨
      ∃ ev ∈ l, ev.Stops) : CycleLaw a (l ++ tail) := by
  have hallows : ∀ p, Allows a (l ++ tail) p ↔ Allows a l p := by
    intro p
    constructor
    · rintro ⟨c, hc⟩
      refine ⟨c, (List.mem_append.mp hc).resolve_right fun hc => ?_⟩
      exact absurd (htail _ hc) (by simp [Event.late])
    · rintro ⟨c, hc⟩
      exact ⟨c, List.mem_append_left _ hc⟩
  obtain ⟨parts, hparts, hnotices⟩ := hs.notices
  have hscan := scan_of_executes hparts
  refine ⟨⟨ids, hs.visited.nodup, fun id => ?_, hs.visited.order, parts, hparts, ?_⟩, ?_, ?_⟩
  · rw [hs.visited.mem, allowed_iff (isForest h.tree), lookup_ne_iff h]
    simp only [lookup_ne_iff h, hallows]
  · have hnone : (tail.filterMap Event.notice).filter Event.scan = [] := by
      rw [List.filter_eq_nil_iff]
      intro n hn
      obtain ⟨ev, hev, heq⟩ := List.mem_filterMap.mp hn
      have hlate := htail ev hev
      cases ev with
      | told n' c =>
          obtain rfl : n' = n := Option.some.inj heq
          cases n' <;> simp_all [Event.late, Event.scan]
      | _ => cases heq
    rw [List.filterMap_append, List.filter_append, hnotices, hnone, List.append_nil,
      List.filter_eq_self]
    exact hscan
  · refine hwork.imp (fun hw s hs => ?_) ?_
    · obtain ⟨b, c, hmem⟩ := hw s hs
      exact ⟨b, c, List.mem_append_right _ hmem⟩
    · rintro ⟨ev, hev, hstop⟩
      exact ⟨ev, List.mem_append_left _ hev, hstop⟩
  · intro ev hev
    obtain hev | hev := List.mem_append.mp hev
    · have hmark := hs.marks ev hev
      refine ⟨fun h => hmark (h ▸ rfl), fun h => hmark (h ▸ rfl), ?_⟩
      rintro s ctl rfl
      have hmem : Notice.onUnhibernate s ∈ l.filterMap Event.notice :=
        List.mem_filterMap.mpr ⟨_, hev, rfl⟩
      rw [hnotices] at hmem
      cases hscan _ hmem
    · have hlate := htail ev hev
      refine ⟨?_, ?_, ?_⟩
      · rintro rfl
        cases hlate
      · rintro rfl
        cases hlate
      · rintro s ctl rfl
        cases hlate

/-! ### Work -/

/-- The services of the application, each once. -/
def EveryService (a : App δ) (ss : List Ref) : Prop := ss.Nodup ∧ ∀ s, s ∈ ss ↔ a.IsService s

theorem exists_services (h : a.Inv) : ∃ ss, EveryService a ss ∧ Chain 0 a.svcNext a.services ss ∧
    ss.length < loopFuel := by
  obtain ⟨ss, hchain, hnodup, hmem⟩ := h.consistent.services
  refine ⟨ss, ⟨hnodup, hmem⟩, hchain, ?_⟩
  -- different services have different ids
  have hids : (ss.map fun s => ((a.objs s).map (·.id)).getD 0).Nodup := by
    refine List.Nodup.map_on (fun s hs s' hs' heq => ?_) hnodup
    obtain ⟨i, c, rfl, hc, -⟩ := (hmem s).mp hs
    obtain ⟨i', c', rfl, hc', -⟩ := (hmem s').mp hs'
    rw [hc, hc'] at heq
    rw [← h.table.comp_id hc, ← h.table.comp_id hc']
    exact congrArg _ heq
  have hlt := length_lt_loopFuel hids fun i hi => by
    obtain ⟨s, hs, rfl⟩ := List.mem_map.mp hi
    obtain ⟨i, c, rfl, hc, -⟩ := (hmem s).mp hs
    rw [hc]
    change c.id < nullId
    rw [h.table.comp_id hc]
    exact (h.tree.ids i c.toNode (node_eq_some.mpr ⟨c, hc, rfl⟩)).2
  rwa [List.length_map] at hlt

theorem svcNext_fired : ∀ a', Fired a a' → App.svcNext a' = App.svcNext a := by
  rintro a' ⟨d, b, rfl⟩
  rfl

/-- The services have had a turn. -/
structure Turns (ss : List Ref) (l : List Event) : Prop where
  late : ∀ ev ∈ l, ev.late = true
  work : ∀ s ∈ ss, ∃ b ctl, .asked (.work s) b ctl ∈ l
  polled : ∀ s ∈ ss, ∃ b ctl, .asked (.canHibernate s) b ctl ∈ l
  silent : ∀ ev ∈ l, ev.notice = none

/-- No service has vetoed hibernation. -/
def NoVeto (l : List Event) : Prop := ∀ s c, .asked (.canHibernate s) false c ∉ l

theorem noVeto_append : NoVeto (l ++ l') ↔ NoVeto l ∧ NoVeto l' := by
  constructor
  · exact fun h => ⟨fun s c hm => h s c (List.mem_append_left _ hm),
      fun s c hm => h s c (List.mem_append_right _ hm)⟩
  · rintro ⟨h, h'⟩ s c hm
    obtain hm | hm := List.mem_append.mp hm
    · exact h s c hm
    · exact h' s c hm

/-- The loop over the services. -/
theorem turns_spec (more can : Bool) {s : Ref} (hc : Chain 0 a.svcNext s ss) (hn : ss.length < n)
    (hf : Fired a e.app) : ∃ more' can' e' l, turns w n s more can e = some (more', can', e') ∧
      Steps S e e' l ∧ Turns ss l ∧ (can' = true → can = true ∧ NoVeto l) := by
  induction ss generalizing s n more can e with
  | nil =>
      obtain _ | n := n
      · cases hn
      have hnull : s = 0 := chain_nil.mp hc
      refine ⟨more, can, e, [], by rw [turns, if_pos hnull], .refl e, ⟨?_, ?_, ?_, ?_⟩,
        fun hcan => ⟨hcan, fun _ _ hm => List.not_mem_nil hm⟩⟩ <;>
      exact fun _ h => (List.not_mem_nil h).elim
  | cons s' ss ih =>
      obtain _ | n := n
      · cases hn
      obtain ⟨rfl, hne, t, ht, hrest⟩ := chain_cons.mp hc
      obtain ⟨ctl, hsteps⟩ := ask_steps (S := S) w e (.work s)
      rcases hans : e.ask w (.work s) with ⟨pending, e₁⟩
      rw [hans] at hsteps
      obtain ⟨ctl', hsteps'⟩ := ask_steps (S := S) w e₁ (.canHibernate s)
      rcases hans' : e₁.ask w (.canHibernate s) with ⟨b, e₂⟩
      rw [hans'] at hsteps'
      have hboth := hsteps.trans hsteps'
      have hf₂ := hf.trans hboth.fired
      obtain ⟨more', can', e', l, hrun, hsteps'', hturns, hcan⟩ := ih (more || pending)
        (can && b) hrest (Nat.lt_of_succ_lt_succ hn) hf₂
      refine ⟨more', can', e', _, ?_, hboth.trans hsteps'', ⟨?_, ?_, ?_, ?_⟩, fun htrue => ?_⟩
      · rw [turns, if_neg hne]
        simp only [hans, hans', svcNext_fired _ hf₂, ht, Option.bind_eq_bind, Option.bind_some]
        exact hrun
      · intro ev hev
        simp only [List.cons_append, List.nil_append, List.mem_cons] at hev
        obtain rfl | rfl | hev := hev
        · rfl
        · rfl
        · exact hturns.late ev hev
      · intro s' hs'
        obtain rfl | hs' := List.mem_cons.mp hs'
        · exact ⟨pending, ctl, by simp⟩
        · obtain ⟨b', c, hmem⟩ := hturns.work s' hs'
          exact ⟨b', c, List.mem_append_right _ hmem⟩
      · intro s' hs'
        obtain rfl | hs' := List.mem_cons.mp hs'
        · exact ⟨b, ctl', by simp⟩
        · obtain ⟨b', c, hmem⟩ := hturns.polled s' hs'
          exact ⟨b', c, List.mem_append_right _ hmem⟩
      · intro ev hev
        simp only [List.cons_append, List.nil_append, List.mem_cons] at hev
        obtain rfl | rfl | hev := hev
        · rfl
        · rfl
        · exact hturns.silent ev hev
      · obtain ⟨hboth, hveto⟩ := hcan htrue
        rw [Bool.and_eq_true] at hboth
        refine ⟨hboth.1, noVeto_append.mpr ⟨fun s' c hm => ?_, hveto⟩⟩
        obtain hm | hm := List.mem_append.mp hm
        · cases List.mem_singleton.mp hm
        · cases List.mem_singleton.mp hm
          cases hboth.2

/-- A service that has been asked, where none has vetoed. -/
theorem latest_of_noVeto {s : Ref} (hs : ∃ b c, .asked (.canHibernate s) b c ∈ l)
    (h : NoVeto l) (l₀ : List Event) : latest (l₀ ++ l) s = some true := by
  obtain ⟨b, c, hmem⟩ := hs
  have htrue : ∀ b ∈ l.filterMap (Event.can s), b = true := by
    intro b hb
    obtain ⟨ev, hev, heq⟩ := List.mem_filterMap.mp hb
    cases b with
    | true => rfl
    | false =>
        unfold Event.can at heq
        split at heq
        · split at heq
          · rw [Option.some.inj heq] at hev
            exact absurd hev (h _ _)
          · cases heq
        · cases heq
  have hcan : b ∈ l.filterMap (Event.can s) :=
    List.mem_filterMap.mpr ⟨_, hmem, if_pos rfl⟩
  have hne : l.filterMap (Event.can s) ≠ [] := List.ne_nil_of_mem hcan
  rw [latest, List.filterMap_append, List.getLast?_append_of_ne_nil _ hne,
    List.getLast?_eq_some_getLast hne, htrue _ (List.getLast_mem hne)]

theorem current_concat {ev : Event} (hev : ev ≠ .cycle) (l : List Event) :
    current (l ++ [ev]) = current l ++ [ev] := by
  rw [current, List.rtakeWhile_concat, if_pos (by simpa using hev)]
  rfl

theorem current_append (h : ∀ ev ∈ l', ev ≠ .cycle) (l : List Event) :
    current (l ++ l') = current l ++ l' := by
  induction l' using List.reverseRecOn with
  | nil => simp
  | append_singleton l' ev ih =>
      rw [← List.append_assoc, current_concat (h ev (by simp)),
        ih fun x hx => h x (List.mem_append_left _ hx), List.append_assoc]

theorem ne_cycle_of_late {ev : Event} (h : ev.late = true) : ev ≠ .cycle := by
  rintro rfl
  cases h

/-- A part of a cycle in which the services work. -/
structure Works (l : List Event) : Prop where
  late : ∀ ev ∈ l, ev.late = true
  silent : ∀ ev ∈ l, ev.notice = none

theorem Works.append (h : Works l) (h' : Works l') : Works (l ++ l') where
  late ev hev := (List.mem_append.mp hev).elim (h.late ev) (h'.late ev)
  silent ev hev := (List.mem_append.mp hev).elim (h.silent ev) (h'.silent ev)

/-- **A round of work.** -/
theorem round_spec (hc : Chain 0 a.svcNext a.services ss) (hlen : ss.length < loopFuel)
    (hS : ∀ s, S s → s ∈ ss) (deadline : Int64) {can : Bool} (hf : Fired a e.app)
    (hcan : can = true → NoVeto (current e.log)) :
    ∃ more can' ns e' l, round w deadline can e = some (more, can', ns, e') ∧ Steps S e e' l ∧
      Works l ∧ (∀ s ∈ ss, ∃ b ctl, .asked (.work s) b ctl ∈ l) ∧
      (can' = true → NoVeto (current e'.log)) := by
  have hservices : e.app.services = a.services := by
    obtain ⟨d, b, heq⟩ := hf
    rw [heq]
  obtain ⟨more, can', e₁, l, hrun, hsteps, hturns, hveto⟩ :=
    turns_spec (S := S) (w := w) false can hc hlen hf
  have hmark := mark_steps (S := S) e₁ .pass rfl (by decide)
  have hnocycle : ∀ ev ∈ l ++ [.pass], ev ≠ .cycle := by
    intro ev hev
    obtain hev | hev := List.mem_append.mp hev
    · exact ne_cycle_of_late (hturns.late ev hev)
    · rw [List.mem_singleton.mp hev]
      decide
  have hlog : (e₁.mark .pass).log = e.log ++ (l ++ [.pass]) := (hsteps.trans hmark).log
  have hagree : can' = true → NoVeto (current (e₁.mark .pass).log) := by
    intro htrue
    rw [hlog, current_append hnocycle]
    refine noVeto_append.mpr ⟨hcan (hveto htrue).1, noVeto_append.mpr ⟨(hveto htrue).2, ?_⟩⟩
    intro s c hm
    cases List.mem_singleton.mp hm
  -- all services have agreed
  have hset : Steps S (e₁.mark .pass)
      (if can' then { e₁.mark .pass with runStatus := hibernateStatus } else e₁.mark .pass) [] := by
    split
    · rename_i htrue
      refine ⟨Fired.refl _, (List.append_nil _).symm, .inl, fun _ _ => ?_⟩
      refine ⟨e₁.log, .pass, [], rfl, fun _ hx => (List.not_mem_nil hx).elim,
        .inr ⟨rfl, hagree htrue, fun s hs => ?_⟩⟩
      rw [hsteps.log]
      exact latest_of_noVeto (hturns.polled s (hS s hs)) (hveto htrue).2 _
    · exact .refl _
  have hall := (hsteps.trans hmark).trans hset
  rw [List.append_nil] at hall
  refine ⟨more, can', deadline - w.ticks (if can' then
      { e₁.mark .pass with runStatus := hibernateStatus } else e₁.mark .pass), _, _, ?_, hall,
    ⟨fun ev hev => ?_, fun ev hev => ?_⟩, fun s hs => ?_, ?_⟩
  · rw [round, hservices, hrun]
    rfl
  · obtain hev | hev := List.mem_append.mp hev
    · exact hturns.late ev hev
    · rw [List.mem_singleton.mp hev]
      rfl
  · obtain hev | hev := List.mem_append.mp hev
    · exact hturns.silent ev hev
    · rw [List.mem_singleton.mp hev]
      rfl
  · obtain ⟨b, c, hmem⟩ := hturns.work s hs
    exact ⟨b, c, List.mem_append_left _ hmem⟩
  · intro htrue
    rw [if_pos htrue]
    exact hagree htrue

theorem workLoop_stop {deadline : Int64} {more can : Bool} {ns : Int64}
    (hgo : ¬ (more && e.app.running) = true) :
    workLoop w deadline m more can ns e = some (some ns, e) := by
  cases m <;> exact if_neg hgo

theorem workLoop_round {deadline : Int64} {more can more' can' : Bool} {ns ns' : Int64}
    (hgo : (more && e.app.running) = true)
    (hround : round w deadline can e = some (more', can', ns', e')) :
    workLoop w deadline m more can ns e =
      if ns' < nanos e'.settings.guardTime then some (some ns', e')
      else match m with
        | 0 => some (none, (e'.ask w (.workDuringFreeTime ns')).2)
        | m + 1 => workLoop w deadline m ((e'.ask w (.workDuringFreeTime ns')).1 || more') can' ns'
            (e'.ask w (.workDuringFreeTime ns')).2 := by
  -- the kernel is not to evaluate the comparison
  cases m <;>
  · refine (if_pos hgo).trans ?_
    rw [hround]
    change Option.bind _ _ = _
    rw [Option.bind_some]
    rfl

/-- **The work of a cycle.** -/
theorem workLoop_spec (hc : Chain 0 a.svcNext a.services ss) (hlen : ss.length < loopFuel)
    (hS : ∀ s, S s → s ∈ ss) (deadline : Int64) (more can : Bool) (ns : Int64) (hf : Fired a e.app)
    (hcan : can = true → NoVeto (current e.log)) :
    ∃ done e' l, workLoop w deadline m more can ns e = some (done, e') ∧ Steps S e e' l ∧
      Works l ∧
      (more = true → e.app.running = true → ∀ s ∈ ss, ∃ b ctl, .asked (.work s) b ctl ∈ l) := by
  induction m using Nat.strong_induction_on generalizing more can ns e with
  | h m ih =>
      by_cases hgo : (more && e.app.running) = true
      swap
      · refine ⟨some ns, e, [], workLoop_stop hgo, .refl e, ⟨?_, ?_⟩, fun hmore hrun => ?_⟩
        · exact fun _ h => (List.not_mem_nil h).elim
        · exact fun _ h => (List.not_mem_nil h).elim
        · exact absurd (by rw [hmore, hrun]; rfl) hgo
      obtain ⟨more', can', ns', e₁, l, hround, hsteps, hworks, hall, hcan'⟩ :=
        round_spec (w := w) hc hlen hS deadline hf hcan
      obtain ⟨ctl, hask⟩ := ask_steps (S := S) w e₁ (.workDuringFreeTime ns')
      have hfree : Works [.asked (.workDuringFreeTime ns') (e₁.ask w (.workDuringFreeTime ns')).1
          ctl] := by
        constructor <;>
        · intro ev hev
          rw [List.mem_singleton.mp hev]
          rfl
      rw [workLoop_round hgo hround]
      split
      · exact ⟨some ns', e₁, l, rfl, hsteps, hworks, fun _ _ => hall⟩
      rcases m with _ | m
      · refine ⟨none, _, _, rfl, hsteps.trans hask, hworks.append hfree, fun _ _ s hs => ?_⟩
        obtain ⟨b, c, hmem⟩ := hall s hs
        exact ⟨b, c, List.mem_append_left _ hmem⟩
      · have hboth := hsteps.trans hask
        have hlog : (e₁.ask w (.workDuringFreeTime ns')).2.log = e₁.log ++ _ := hask.log
        obtain ⟨done, e₂, l', hrun, hsteps', hworks', -⟩ := ih m (Nat.lt_succ_self m)
          ((e₁.ask w (.workDuringFreeTime ns')).1 || more') can' ns'
          (hf.trans hboth.fired) fun htrue => by
            rw [hlog, current_append fun ev hev => ne_cycle_of_late (hfree.late ev hev)]
            refine noVeto_append.mpr ⟨hcan' htrue, fun s c hm => ?_⟩
            cases List.mem_singleton.mp hm
        refine ⟨done, e₂, _, hrun, hboth.trans hsteps', (hworks.append hfree).append hworks',
          fun _ _ s hs => ?_⟩
        obtain ⟨b, c, hmem⟩ := hall s hs
        exact ⟨b, c, List.mem_append_left _ (List.mem_append_left _ hmem)⟩

end Engine

end Sedona
