import Sedona.Sys.ScanWork

/-!
# The Law of the Scan Engine

What every run of `App.resumeApp` does, whatever the components, the services, the platform and the
clock answer.

## Main results

* `Heeded.latest`: where no veto is passed over, all services allow what has been decided.
* `runLoop_spec`: the cycles of a run, and how it comes to hibernation.
* `resumeApp_lawful`: a run is lawful if no veto is passed over in it.
* `not_lawful`: a service allows hibernation in a pass, and vetoes it in the next one.
-/

namespace Sedona

open Relation Intrusive Postorder

variable {δ : Type}

/-! ### Decisions -/

/-- The app has been stopped behind the work of a cycle. -/
def Stopped (l : List Event) : Prop :=
  ∃ p c, l = p ++ [.asked .yieldRequired false c] ∧ c.running = false

/-- No veto is passed over. If at the end of a pass all services had allowed hibernation in its
cycle, whoever has vetoed it since then allows it again; and where a callback has requested it, all
services `S` allow it. -/
structure Heeded (S : Ref → Prop) (l : List Event) : Prop where
  pass : ∀ p q, l = p ++ .pass :: q → (∀ x ∈ q, x.Quiet) → Agrees (p ++ [.pass]) →
    ∀ s, S s → latest q s ≠ some false
  request : ∀ p ev q, l = p ++ ev :: q → (∀ x ∈ q, x.Quiet) → ev.Requests →
    ∀ s, S s → latest l s = some true

theorem latest_append (l l' : List Event) (s : Ref) :
    latest (l ++ l') s = (latest l' s).or (latest l s) := by
  rw [latest, List.filterMap_append, List.getLast?_append]
  rfl

/-- **Whoever decides has been heard.** -/
theorem Heeded.latest {S : Ref → Prop} {l : List Event} (h : Heeded S l) (hd : Decided S l)
    {s : Ref} (hs : S s) : latest l s = some true := by
  obtain ⟨p, ev, q, rfl, hq, hreq | ⟨rfl, hagree, hall⟩⟩ := hd
  · exact h.request p ev q rfl hq hreq s hs
  · have hlast := h.pass p q rfl hq hagree s hs
    have hpass : p ++ .pass :: q = (p ++ [.pass]) ++ q := by simp
    rw [hpass, latest_append, latest_append]
    change (Sedona.latest q s).or (Option.or none (Sedona.latest p s)) = some true
    rw [hall s hs]
    cases hb : Sedona.latest q s with
    | none => rfl
    | some b =>
        cases b with
        | false => exact absurd hb hlast
        | true => rfl

namespace Event

/-- A callback of hibernation. -/
def Hibernates (ev : Event) : Prop := ∃ s c, ev = .told (.onHibernate s) c

/-- A callback of what comes after it. -/
def Unhibernates (ev : Event) : Prop := ∃ s c, ev = .told (.onUnhibernate s) c

end Event

/-- How a run comes to hibernation, if it does: it has been decided where the work of a cycle is
over, and nobody is asked any more; or the app is stopped. -/
inductive Fate (S : Ref → Prop) (l : List Event) : List Event → Option ℕ → Prop
  | hibernates {p t : List Event} {r : Option ℕ} : (∀ ev ∈ p, ¬ ev.Hibernates) →
      Decided S (l ++ p) → (∀ s, latest t s = none) → Fate S l (p ++ .endWork :: t) r
  | returns {p : List Event} {r : Option ℕ} : (∀ ev ∈ p, ¬ ev.Hibernates) →
      (r = some hibernateStatus → Decided S (l ++ p) ∧ Stopped (l ++ p)) → Fate S l p r

theorem Fate.prepend {S : Ref → Prop} {l c p : List Event} {r : Option ℕ}
    (h : Fate S (l ++ c) p r) (hc : ∀ ev ∈ c, ¬ ev.Hibernates) : Fate S l (c ++ p) r := by
  have happend : ∀ {p}, (∀ ev ∈ p, ¬ ev.Hibernates) → ∀ ev ∈ c ++ p, ¬ ev.Hibernates :=
    fun hp ev hev => (List.mem_append.mp hev).elim (hc ev) (hp ev)
  cases h with
  | hibernates hp hd ht =>
      rw [← List.append_assoc]
      rw [List.append_assoc] at hd
      exact .hibernates (happend hp) hd ht
  | returns hp hr =>
      rw [List.append_assoc] at hr
      exact .returns (happend hp) hr

/-- Where a run looks at `runStatus`: the work of a cycle is over, or the app has been stopped behind
it. -/
def Looks (l p : List Event) : Prop := p ++ [.endWork] <+: l ∨ p <+: l ∧ Stopped p

/-- A run enters hibernation only if every service has allowed it in its most recent answer. -/
structure Hibernation (S : Ref → Prop) (l new : List Event) (r : Option ℕ) : Prop where
  callbacks : ∀ p ev q, new = p ++ ev :: q → ev.Hibernates → ∀ s, S s →
    latest (l ++ p) s = some true
  returns : r = some hibernateStatus → ∀ s, S s → latest (l ++ new) s = some true

theorem Fate.hibernation {S : Ref → Prop} {l new : List Event} {r : Option ℕ} (h : Fate S l new r)
    (hheed : ∀ p, l <+: p → Looks (l ++ new) p → Heeded S p) : Hibernation S l new r := by
  cases h with
  | @hibernates p t r hp hd ht =>
      have hheeded := hheed (l ++ p) (List.prefix_append l p) (.inl ⟨t, by simp⟩)
      -- what is asked is asked before the end of the work
      have hsame : ∀ u s, u <+: t → S s → Sedona.latest (l ++ (p ++ .endWork :: u)) s = some true := by
        rintro u s ⟨v, rfl⟩ hs
        have hu : Sedona.latest u s = none := by
          have hnone := ht s
          rw [latest_append, Option.or_eq_none_iff] at hnone
          exact hnone.2
        have heq : l ++ (p ++ .endWork :: u) = (l ++ p) ++ [.endWork] ++ u := by simp
        rw [heq, latest_append, latest_append, hu]
        exact hheeded.latest hd hs
      refine ⟨fun p' ev q heq hev s hs => ?_, fun _ s hs => hsame t s (List.prefix_refl t) hs⟩
      obtain ⟨u, rfl, hu⟩ | ⟨u, rfl, hu⟩ := List.append_eq_append_iff.mp heq
      · cases u with
        | nil =>
            obtain ⟨s', c, rfl⟩ := hev
            cases hu
        | cons x u =>
            obtain ⟨rfl, rfl⟩ := List.cons.inj hu
            exact hsame u s ⟨ev :: q, rfl⟩ hs
      · cases u with
        | nil =>
            obtain ⟨s', c, rfl⟩ := hev
            cases hu
        | cons x u =>
            obtain ⟨rfl, -⟩ := List.cons.inj hu
            exact absurd hev (hp ev (by simp))
  | returns hp hr =>
      refine ⟨fun p ev q heq hev => ?_, fun hret s hs => ?_⟩
      · exact absurd hev (hp ev (heq ▸ by simp))
      · obtain ⟨hd, hstop⟩ := hr hret
        exact (hheed _ (List.prefix_append l new) (.inr ⟨List.prefix_refl _, hstop⟩)).latest hd hs

namespace Engine

open App

variable {w : World δ} {e e' : Engine δ} {a : App δ} {l l' : List Event} {m n : ℕ} {ss : List Ref}
  {S : Ref → Prop}

/-! ### The end of a cycle -/

theorem latest_eq_none {s : Ref} (h : ∀ ev ∈ l, ev.can s = none) : latest l s = none := by
  rw [latest, List.filterMap_eq_nil_iff.mpr h]
  rfl

theorem tellServices_spec (f : Ref → Notice) (hc : Chain 0 a.svcNext a.services ss)
    (hlen : ss.length < loopFuel) (hf : Fired a e.app) :
    ∃ e' l, tellServices w f e = some e' ∧ Steps S e e' l ∧ Told (ss.map f) l := by
  have hservices : e.app.services = a.services := by
    obtain ⟨d, b, heq⟩ := hf
    rw [heq]
  rw [tellServices, hservices]
  exact forEach_tell f svcNext_fired hc hlen hf

theorem yieldStatus_ne : yieldStatus ≠ hibernateStatus := by decide

theorem ask_running (w : World δ) (e : Engine δ) (q : Question) :
    ∃ c, (e.ask w q).2.log = e.log ++ [.asked q (e.ask w q).1 c] ∧
      c.running = (e.ask w q).2.app.running :=
  ⟨_, rfl, rfl⟩

/-- **The part of a cycle behind the work.** -/
theorem endCycle_spec (hc : Chain 0 a.svcNext a.services ss) (hlen : ss.length < loopFuel)
    (ns : Int64) (hf : Fired a e.app) :
    ∃ r e' l, endCycle w ns e = some (r, e') ∧ Steps S e e' l ∧ (∀ ev ∈ l, ev.late = true) ∧
      (∀ s, latest l s = none) ∧ (∀ s, r = some s → e'.runStatus = s) ∧
      (e.runStatus = hibernateStatus ∧ r ≠ none ∨
        (∀ ev ∈ l, ¬ ev.Hibernates) ∧ r ≠ some hibernateStatus ∧
          (r = none → e'.app.running = false → Stopped e'.log)) := by
  have hsame : Steps S e { e with lastEndWork := w.ticks e } [] :=
    same_steps (Fired.refl _) rfl rfl rfl
  rw [endCycle]
  by_cases hhib : e.runStatus = hibernateStatus
  · obtain ⟨e', l, hrun, hsteps, htold⟩ := tellServices_spec (S := S) (w := w) .onHibernate hc hlen
      (hf.trans hsame.fired)
    have honly : ∀ ev ∈ l, ∃ s c, ev = .told (.onHibernate s) c := by
      intro ev hev
      obtain ⟨n, hn, c, rfl⟩ := htold.mem hev
      obtain ⟨s, -, rfl⟩ := List.mem_map.mp hn
      exact ⟨s, c, rfl⟩
    refine ⟨some e'.runStatus, e', l, ?_, hsame.trans hsteps, fun ev hev => ?_, fun s => ?_, ?_,
      .inl ⟨hhib, Option.some_ne_none _⟩⟩
    · rw [if_pos hhib]
      simp only [hrun, Option.bind_eq_bind, Option.bind_some]
    · obtain ⟨s, c, rfl⟩ := honly ev hev
      rfl
    · refine latest_eq_none fun ev hev => ?_
      obtain ⟨s', c, rfl⟩ := honly ev hev
      rfl
    · exact fun s hs => Option.some.inj hs
  · obtain ⟨ctl, hask⟩ := ask_steps (S := S) w { e with lastEndWork := w.ticks e } .yieldRequired
    rcases hans : ({ e with lastEndWork := w.ticks e } : Engine δ).ask w .yieldRequired with
      ⟨_ | _, e₁⟩
    · rw [hans] at hask
      have hsleep : Steps S e₁ { e₁ with app := { e₁.app with data := w.sleep ns e₁ } } [] :=
        same_steps ⟨_, _, rfl⟩ rfl rfl rfl
      refine ⟨none, { e₁ with app := { e₁.app with data := w.sleep ns e₁ } }, _, ?_,
        hsame.trans (hask.trans hsleep), fun ev hev => ?_, fun s => rfl, fun s hs => (by cases hs),
        .inr ⟨fun ev hev => ?_, fun hr => (by cases hr), fun _ hstop => ?_⟩⟩
      · rw [if_neg hhib]
        rfl
      · rw [List.mem_singleton.mp hev]
        rfl
      · rw [List.mem_singleton.mp hev]
        rintro ⟨s, c, heq⟩
        cases heq
      · obtain ⟨c, hlog, hrun⟩ :=
          ask_running w ({ e with lastEndWork := w.ticks e } : Engine δ) .yieldRequired
        rw [hans] at hlog hrun
        exact ⟨e.log, c, hlog, hrun.trans hstop⟩
    · rw [hans] at hask
      obtain ⟨ctl', htell⟩ := tell_steps (S := S) w e₁ (.yield ns)
      have hstatus : Steps S (e₁.tell w (.yield ns))
          { e₁.tell w (.yield ns) with runStatus := yieldStatus } [] := by
        refine ⟨Fired.refl _, (List.append_nil _).symm, .inl, fun _ hs => ?_⟩
        exact absurd hs yieldStatus_ne
      have hlast := hask.trans (htell.trans hstatus)
      refine ⟨some yieldStatus, { e₁.tell w (.yield ns) with runStatus := yieldStatus }, _, ?_,
        hsame.trans hlast, fun ev hev => ?_, fun s => rfl, fun s hs => Option.some.inj hs,
        .inr ⟨fun ev hev => ?_, fun hr => ?_, fun hr => (by cases hr)⟩⟩
      · rw [if_neg hhib]
        rfl
      · simp only [List.nil_append, List.cons_append, List.mem_cons, List.not_mem_nil,
          or_false] at hev
        obtain rfl | rfl := hev <;> rfl
      · simp only [List.nil_append, List.cons_append, List.mem_cons, List.not_mem_nil,
          or_false] at hev
        rintro ⟨s, c, heq⟩
        obtain rfl | rfl := hev <;> cases heq
      · exact absurd (Option.some.inj hr) yieldStatus_ne

/-! ### Cycles -/

theorem current_cycle (h : ∀ ev ∈ l', ev ≠ .cycle) (l : List Event) :
    current (l ++ .cycle :: l') = l' := by
  have hnil : current (l ++ [.cycle]) = [] := by
    rw [current, List.rtakeWhile_concat, if_neg (by simp)]
  rw [← List.singleton_append, ← List.append_assoc, current_append h, hnil, List.nil_append]

/-- **A cycle up to the end of its work.** -/
theorem cycle_spec (h : a.Inv) (hss : EveryService a ss) (hc : Chain 0 a.svcNext a.services ss)
    (hlen : ss.length < loopFuel) (deadline ns : Int64) (hf : Fired a e.app)
    (hrun : e.app.running = true) {e₀ : Engine δ}
    (hbegin : Steps a.IsService e e₀ [.cycle]) :
    ∃ e₁ done e₂ l, executeTree w loopFuel e₀.app.self e₀ = some e₁ ∧
      workLoop w deadline m true true ns { e₁ with lastStartWork := w.ticks e₁ } = some (done, e₂) ∧
      Steps a.IsService e e₂ (.cycle :: l) ∧ (∀ ev ∈ l, ¬ ev.Hibernates) ∧
      ∀ tail : List Event, (∀ ev ∈ tail, ev.late = true) → CycleLaw a (l ++ tail) := by
  have hf₀ := hf.trans hbegin.fired
  have hself : e₀.app.self = a.lookup 0 := by
    obtain ⟨d, b, heq⟩ := hf₀
    rw [heq, h.table.self]
  obtain ⟨e₁, ids, l, hexec, hsteps, hsub⟩ :=
    executeTree_spec (S := a.IsService) (w := w) (n := loopFuel) h Depth.root (Nat.le_succ _) hf₀
  have hsame : Steps a.IsService e₁ { e₁ with lastStartWork := w.ticks e₁ } [] :=
    same_steps (Fired.refl _) rfl rfl rfl
  have hscan := hbegin.trans (hsteps.trans hsame)
  rw [List.append_nil] at hscan
  have hmarks : ∀ ev ∈ l, ev ≠ .cycle := by
    rintro ev hev rfl
    exact hsub.marks _ hev rfl
  have hveto : NoVeto (current ({ e₁ with lastStartWork := w.ticks e₁ } : Engine δ).log) := by
    rw [hscan.log, List.singleton_append, current_cycle hmarks]
    intro s c hmem
    obtain ⟨p, -, -, hq⟩ := hsub.asks _ _ _ hmem
    cases hq
  obtain ⟨done, e₂, lw, hwork, hsteps', hworks, hall⟩ := workLoop_spec (S := a.IsService) (w := w)
    (m := m) hc hlen (fun s hs => (hss.2 s).mpr hs) deadline true true ns
    (hf.trans hscan.fired) fun _ => hveto
  refine ⟨e₁, done, e₂, l ++ lw, by rw [hself]; exact hexec, hwork, hscan.trans hsteps', ?_, ?_⟩
  · rintro ev hev ⟨s, c, rfl⟩
    obtain ⟨parts, hparts, hnotices⟩ := hsub.notices
    obtain hev | hev := List.mem_append.mp hev
    · have hmem : Notice.onHibernate s ∈ l.filterMap Event.notice :=
        List.mem_filterMap.mpr ⟨_, hev, rfl⟩
      rw [hnotices] at hmem
      cases scan_of_executes hparts _ hmem
    · cases hworks.silent _ hev
  · intro tail htail
    rw [List.append_assoc]
    refine cycleLaw_of_subtree h hsub (fun ev hev => ?_) ?_
    · exact (List.mem_append.mp hev).elim (hworks.late ev) (htail ev)
    · cases hgo : e₁.app.running with
      | true =>
          refine .inl fun s hs => ?_
          obtain ⟨b, c, hmem⟩ := hall rfl hgo s ((hss.2 s).mpr hs)
          exact ⟨b, c, List.mem_append_left _ hmem⟩
      | false =>
          obtain hstop | ⟨ev, hev, hstop⟩ := hscan.running hgo
          · rw [hrun] at hstop
            cases hstop
          · obtain hev | hev := List.mem_append.mp hev
            · obtain ⟨c, hctl, -⟩ := hstop
              rw [List.mem_singleton.mp hev] at hctl
              cases hctl
            · exact .inr ⟨ev, hev, hstop⟩

/-! ### Runs -/

/-- The loop runs once more. -/
theorem runLoop_go (w : World δ) (m n : ℕ) (deadline ns : Int64) (hrun : e.app.running = true) :
    ∃ e₀ deadline', Steps S e e₀ [.cycle] ∧ runLoop w m (n + 1) deadline ns e =
      (executeTree w loopFuel e₀.app.self e₀).bind fun e =>
        (workLoop w deadline' m true true ns { e with lastStartWork := w.ticks e }).bind fun t =>
          match t.1 with
          | none => some (none, t.2)
          | some ns => (endCycle w ns (t.2.mark .endWork)).bind fun t =>
              match t.1 with
              | some status => some (some status, t.2)
              | none => runLoop w m n deadline' ns t.2 := by
  have hmark := mark_steps (S := S) e .cycle rfl (by simp)
  have hsame : Steps S (e.mark .cycle)
      { e.mark .cycle with
        cycleCount := e.cycleCount + 1
        lastStartExec := e.newStartExec
        newStartExec := w.ticks
          { e.mark .cycle with
            cycleCount := e.cycleCount + 1
            lastStartExec := e.newStartExec } } [] :=
    same_steps (Fired.refl _) rfl rfl rfl
  refine ⟨_, deadline + nanos e.settings.scanPeriod, hmark.trans hsame, ?_⟩
  rw [runLoop, hrun]
  rfl

/-- **The loop of `resumeApp`.** -/
theorem runLoop_spec (h : a.Inv) (hss : EveryService a ss) (hc : Chain 0 a.svcNext a.services ss)
    (hlen : ss.length < loopFuel) (deadline ns : Int64) (hf : Fired a e.app)
    (hdec : e.runStatus = hibernateStatus → Decided a.IsService e.log)
    (hstop : e.app.running = false → Stopped e.log) :
    ∃ r e', ∃ cs : List (List Event), runLoop w m n deadline ns e = some (r, e') ∧ Fired a e'.app ∧
      e'.log = e.log ++ cs.flatMap (.cycle :: ·) ∧ (∀ c ∈ cs, CycleLaw a c) ∧
      (∀ s, r = some s → e'.runStatus = s) ∧
      Fate a.IsService e.log (cs.flatMap (.cycle :: ·)) r := by
  induction n generalizing deadline ns e with
  | zero =>
      refine ⟨none, e, [], rfl, hf, (List.append_nil _).symm, fun _ hc => (List.not_mem_nil hc).elim,
        fun s hs => (by cases hs), .returns (fun _ hev => (List.not_mem_nil hev).elim) ?_⟩
      exact fun hr => by cases hr
  | succ n ih =>
      by_cases hrun : e.app.running = true
      swap
      · rw [Bool.not_eq_true] at hrun
        refine ⟨some e.runStatus, e, [], by rw [runLoop, hrun]; rfl, hf, (List.append_nil _).symm,
          fun _ hc => (List.not_mem_nil hc).elim, fun s hs => Option.some.inj hs,
          .returns (fun _ hev => (List.not_mem_nil hev).elim) fun hr => ?_⟩
        rw [List.flatMap_nil, List.append_nil]
        exact ⟨hdec (Option.some.inj hr), hstop hrun⟩
      obtain ⟨e₀, deadline', hbegin, hgo⟩ :=
        runLoop_go (S := a.IsService) w m n deadline ns hrun
      obtain ⟨e₁, done, e₂, l, hexec, hwork, hsteps, hsilent, hlaw⟩ :=
        cycle_spec (w := w) (m := m) h hss hc hlen deadline' ns hf hrun hbegin
      have hbefore : ∀ ev ∈ Event.cycle :: l, ¬ ev.Hibernates := by
        rw [List.forall_mem_cons]
        refine ⟨?_, hsilent⟩
        rintro ⟨s, c, hev⟩
        cases hev
      rw [hgo, hexec, Option.bind_some, hwork, Option.bind_some]
      cases done with
      | none =>
          have hlaw := hlaw [] fun _ hev => (List.not_mem_nil hev).elim
          rw [List.append_nil] at hlaw
          refine ⟨none, e₂, [l], rfl, hf.trans hsteps.fired, ?_, ?_, fun s hs => (by cases hs), ?_⟩
          · rw [hsteps.log, List.flatMap_singleton]
          · rintro c hc
            rwa [List.mem_singleton.mp hc]
          · rw [List.flatMap_singleton]
            exact .returns hbefore fun hr => by cases hr
      | some ns' =>
          have hmark := mark_steps (S := a.IsService) e₂ .endWork rfl (by simp)
          obtain ⟨r, e₃, t, hend, hsteps', hlate, hnone, hstatus, hfate⟩ :=
            endCycle_spec (S := a.IsService) (w := w) hc hlen ns'
              (hf.trans (hsteps.trans hmark).fired)
          have hcycle := hsteps.trans (hmark.trans hsteps')
          have hlaw := hlaw (.endWork :: t) fun ev hev =>
            (List.mem_cons.mp hev).elim (fun heq => heq ▸ rfl) (hlate ev)
          have hlog : e₃.log = e.log ++ .cycle :: (l ++ .endWork :: t) := by
            rw [hcycle.log]
            simp
          have hf₃ := hf.trans hcycle.fired
          simp only [hend, Option.bind_some]
          obtain ⟨hhib, hne⟩ | ⟨hquiet, hne, hstop'⟩ := hfate
          · obtain ⟨status, rfl⟩ := Option.ne_none_iff_exists'.mp hne
            have hd := hsteps.decided hdec hhib
            rw [hsteps.log] at hd
            refine ⟨some status, e₃, [l ++ .endWork :: t], rfl, hf₃, ?_, ?_, hstatus, ?_⟩
            · rw [hlog, List.flatMap_singleton]
            · rintro c hc
              rwa [List.mem_singleton.mp hc]
            · rw [List.flatMap_singleton]
              exact .hibernates hbefore hd hnone
          have hall : ∀ ev ∈ Event.cycle :: (l ++ .endWork :: t), ¬ ev.Hibernates := by
            intro ev hev
            rw [← List.cons_append, List.mem_append] at hev
            obtain hev | hev := hev
            · exact hbefore ev hev
            obtain rfl | hev := List.mem_cons.mp hev
            · rintro ⟨s, c, heq⟩
              cases heq
            · exact hquiet ev hev
          cases r with
          | some status =>
              refine ⟨some status, e₃, [l ++ .endWork :: t], rfl, hf₃, ?_, ?_, hstatus, ?_⟩
              · rw [hlog, List.flatMap_singleton]
              · rintro c hc
                rwa [List.mem_singleton.mp hc]
              · rw [List.flatMap_singleton]
                exact .returns hall fun hr => absurd hr hne
          | none =>
              obtain ⟨r, e', cs, hrest, hf', hlog', hlaws, hstatus', hfate⟩ :=
                ih deadline' ns' hf₃ (hcycle.decided hdec) (hstop' rfl)
              refine ⟨r, e', (l ++ .endWork :: t) :: cs, hrest, hf', ?_, ?_, hstatus', ?_⟩
              · rw [hlog', hlog, List.flatMap_cons, List.append_assoc]
              · exact List.forall_mem_cons.mpr ⟨hlaw, hlaws⟩
              · rw [hlog] at hfate
                rw [List.flatMap_cons]
                exact hfate.prepend hall

/-! ### The law -/

/-- Every service is told that hibernation is over, once. -/
def Wakes (a : App δ) (woken : List Event) : Prop :=
  ∃ ss, EveryService a ss ∧ Told (ss.map .onUnhibernate) woken

/-- The cycles of a run from `e` to `e'` that returns `r`, or nothing yet. Services are woken after
hibernation only. -/
structure Scans (a : App δ) (e e' : Engine δ) (r : Option ℕ) : Prop where
  cycles : ∃ woken, ∃ cs : List (List Event),
    e'.log = e.log ++ (woken ++ .resume :: cs.flatMap (.cycle :: ·)) ∧
      (∀ c ∈ cs, CycleLaw a c) ∧
      (e.runStatus = hibernateStatus → Wakes a woken) ∧
      (e.runStatus ≠ hibernateStatus → woken = [])
  status : ∀ s, r = some s → e'.runStatus = s

/-- **The law of the scan engine.** -/
structure Lawful (a : App δ) (e e' : Engine δ) (r : Option ℕ) : Prop extends Scans a e e' r where
  hibernation : ∃ new, e'.log = e.log ++ new ∧ Hibernation a.IsService e.log new r

/-- No veto is passed over in a run. -/
def Steadfast (a : App δ) (e e' : Engine δ) : Prop :=
  ∀ p, e.log <+: p → Looks e'.log p → Heeded a.IsService p

/-- The services are told that hibernation is over, and the app starts to run. -/
theorem resumeApp_go (h : a.Inv) (w : World δ) (m n : ℕ) (hf : Fired a e.app) :
    ∃ e₀ woken deadline, resumeApp w m n e = runLoop w m n deadline 0 e₀ ∧ Fired a e₀.app ∧
      e₀.log = e.log ++ (woken ++ [.resume]) ∧ e₀.app.running = true ∧ e₀.runStatus = 0 ∧
      (∀ ev ∈ woken, ev.Unhibernates) ∧ (e.runStatus = hibernateStatus → Wakes a woken) ∧
      (e.runStatus ≠ hibernateStatus → woken = []) := by
  have hrun : ∀ {a' : App δ} {b : Bool}, Fired a a' → Fired a { a' with running := b } := by
    rintro a' b ⟨d, b', rfl⟩
    exact ⟨d, b, rfl⟩
  by_cases hhib : e.runStatus = hibernateStatus
  · obtain ⟨ss, hss, hc, hlen⟩ := exists_services h
    obtain ⟨e₁, happ, hlog, hgo⟩ : ∃ e₁ : Engine δ, e₁.app = e.app ∧ e₁.log = e.log ∧
        resumeApp w m n e = (tellServices w .onUnhibernate e₁).bind fun e =>
          let e := { e.mark .resume with app := { e.app with running := true }, runStatus := 0 }
          runLoop w m n (w.ticks e) 0 { e with lastEndWork := w.ticks e } := by
      refine ⟨if e.settings.hibernationResetsSteadyState then
          { e with
            settings := { e.settings with atSteadyState := false }
            steadyAt := w.ticks e + nanos e.settings.timeToSteadyState }
        else e, ?_, ?_, ?_⟩
      · split <;> rfl
      · split <;> rfl
      · rw [resumeApp, if_pos hhib]
        rfl
    obtain ⟨e₂, woken, htell, hsteps, htold⟩ := tellServices_spec (S := a.IsService) (w := w)
      (e := e₁) .onUnhibernate hc hlen (happ ▸ hf)
    rw [hgo, htell, Option.bind_some]
    refine ⟨_, woken, _, rfl, hrun ((happ ▸ hf).trans hsteps.fired), ?_, rfl, rfl,
      fun ev hev => ?_, fun _ => ⟨ss, hss, htold⟩, fun hne => absurd hhib hne⟩
    · change e₂.log ++ [.resume] = _
      rw [hsteps.log, hlog, List.append_assoc]
    · obtain ⟨n, hn, c, rfl⟩ := htold.mem hev
      obtain ⟨s, -, rfl⟩ := List.mem_map.mp hn
      exact ⟨s, c, rfl⟩
  · have hgo : resumeApp w m n e =
        let e := { e.mark .resume with app := { e.app with running := true }, runStatus := 0 }
        runLoop w m n (w.ticks e) 0 { e with lastEndWork := w.ticks e } := by
      rw [resumeApp, if_neg hhib]
      rfl
    exact ⟨_, [], _, hgo, hrun hf, rfl, rfl, rfl, fun _ hev => (List.not_mem_nil hev).elim,
      fun h => absurd h hhib, fun _ => rfl⟩

/-- **`App.resumeApp`.** -/
theorem resumeApp_spec (h : a.Inv) (w : World δ) (m n : ℕ) (hf : Fired a e.app) :
    ∃ r e', resumeApp w m n e = some (r, e') ∧ Fired a e'.app ∧ Scans a e e' r ∧
      (Steadfast a e e' → Lawful a e e' r) := by
  obtain ⟨ss, hss, hc, hlen⟩ := exists_services h
  obtain ⟨e₀, woken, deadline, hgo, hf₀, hlog, hrun, hstatus, hun, hwakes, hnot⟩ :=
    resumeApp_go h w m n hf
  obtain ⟨r, e', cs, hloop, hf', hlog', hlaws, hstatus', hfate⟩ :=
    runLoop_spec (w := w) (m := m) (n := n) h hss hc hlen deadline 0 hf₀
      (fun hs => absurd (hstatus.symm.trans hs) (by decide))
      fun hs => absurd (hrun.symm.trans hs) (by decide)
  have hnew : e'.log = e.log ++ (woken ++ .resume :: cs.flatMap (.cycle :: ·)) := by
    rw [hlog', hlog]
    simp
  have hscans : Scans a e e' r := ⟨⟨woken, cs, hnew, hlaws, hwakes, hnot⟩, hstatus'⟩
  refine ⟨r, e', hgo.trans hloop, hf', hscans, fun hheed => ⟨hscans, _, hnew, ?_⟩⟩
  rw [hlog] at hfate
  have hstart : ∀ ev ∈ woken ++ [.resume], ¬ ev.Hibernates := by
    rintro ev hev ⟨s, c, rfl⟩
    obtain hev | hev := List.mem_append.mp hev
    · obtain ⟨s', c', heq⟩ := hun _ hev
      cases heq
    · cases List.mem_singleton.mp hev
  have hfate := hfate.prepend hstart
  rw [List.append_assoc, List.singleton_append] at hfate
  refine hfate.hibernation fun p hp hlooks => hheed p hp ?_
  rwa [hnew]

/-- **Every run is lawful in which no veto is passed over.** An application that hibernates wakes its
services when it is resumed, whatever it does then. -/
theorem resumeApp_lawful (h : e.app.Inv) (w : World δ) (m n : ℕ) :
    ∃ r e', resumeApp w m n e = some (r, e') ∧ e'.app.Inv ∧ (Steadfast e.app e e' →
      Lawful e.app e e' r ∧
        (r = some hibernateStatus → ∀ m' n', ∃ r' e'' woken rest,
          resumeApp w m' n' e' = some (r', e'') ∧ e''.log = e'.log ++ (woken ++ .resume :: rest) ∧
            Wakes e.app woken ∧ ∀ ev ∈ rest, ¬ ev.Unhibernates)) := by
  obtain ⟨r, e', hrun, hf, hscans, hlaw⟩ := resumeApp_spec h w m n (Fired.refl _)
  refine ⟨r, e', hrun, h.fired hf, fun hheed => ⟨hlaw hheed, fun hr m' n' => ?_⟩⟩
  obtain ⟨r', e'', hrun', -, hscans', -⟩ := resumeApp_spec h w m' n' hf
  obtain ⟨woken, cs, hlog, hlaws, hwakes, -⟩ := hscans'.cycles
  refine ⟨r', e'', woken, _, hrun', hlog, hwakes (hscans.status _ hr), ?_⟩
  rintro ev hev ⟨s, c, rfl⟩
  obtain ⟨cycle, hcycle, hmem⟩ := List.mem_flatMap.mp hev
  obtain heq | hmem := List.mem_cons.mp hmem
  · cases heq
  · exact ((hlaws cycle hcycle).quiet _ hmem).2.2 s c rfl

/-! ### A veto that is passed over -/

/-- An application with one service, in cycles of 50 ms. -/
def oneService : Engine Unit where
  app := App.bootRun 9 2
  settings :=
    { scanPeriod := 50
      guardTime := 5
      timeToSteadyState := 0
      hibernationResetsSteadyState := false
      atSteadyState := true }
  runStatus := 0
  steadyAt := 0
  cycleCount := 0
  lastStartExec := 0
  newStartExec := 0
  lastStartWork := 0
  lastEndWork := 0
  log := []

/-- A callback that leaves everything as it is. -/
def unchanged (e : Engine Unit) : Edit Unit where
  running := e.app.running
  runStatus := none
  data := ()
  settings := e.settings

/-- A world that answers like this. -/
def answering (answer : Question → List Event → Bool) : World Unit where
  ask q e := (answer q e.log, unchanged e)
  tell _ e := unchanged e
  ticks _ := 0
  sleep _ _ := ()

/-- The service has work in its first pass, and allows hibernation there. -/
def once : World Unit := answering fun q l =>
  match q with
  | .allowChildExecute _ => true
  | .work _ => .pass ∉ l
  | .canHibernate _ => .pass ∉ l
  | _ => false

theorem oneService_inv : oneService.app.Inv := by
  have h₀ : (editing quiet).Reachable (bootRun 9 0) :=
    Transition.System.Reachable.start ⟨rfl, rfl, ⟨_, rfl, rfl, rfl, rfl, rfl⟩, fun _ => rfl, rfl⟩
  have h₁ := reachable_call (bootCall 0) 9 h₀ trivial fun _ => rfl
  have h₂ := reachable_call (bootCall 1) 9 h₁ ⟨Or.inr rfl, by decide⟩ fun _ => rfl
  obtain hfresh | hinv := inv_of_reachable h₂
  · exact absurd (hfresh.lookup 0) (by decide)
  · exact hinv

/-- Neither a veto nor a request. -/
def agreeable : Event → Bool
  | .asked (.canHibernate _) false _ => false
  | .asked _ _ c => c.runStatus = none
  | .told _ c => c.runStatus = none
  | _ => true

theorem heeded_of_agreeable (h : ∀ ev ∈ l, agreeable ev = true) : Heeded S l where
  pass p q hl _ _ s _ := by
    have hq : ∀ ev ∈ q, agreeable ev = true := fun ev hev => h ev (by rw [hl]; simp [hev])
    intro hlast
    have hmem := List.mem_of_getLast? hlast
    obtain ⟨ev, hev, hcan⟩ := List.mem_filterMap.mp hmem
    have hgood := hq ev hev
    unfold Event.can at hcan
    split at hcan
    · split at hcan
      · rw [Option.some.inj hcan] at hgood
        cases hgood
      · cases hcan
    · cases hcan
  request p ev q hl _ hreq := by
    have hgood := h ev (by rw [hl]; simp)
    obtain ⟨c, hctl, hstatus⟩ := hreq
    exfalso
    unfold agreeable at hgood
    split at hgood
    · cases hgood
    · rw [Option.some.inj hctl] at hgood
      simp [hstatus] at hgood
    · rw [Option.some.inj hctl] at hgood
      simp [hstatus] at hgood
    · cases ev <;> simp_all [Event.control]

/-- The service has no work, and allows hibernation. -/
def idle : World Unit := answering fun q _ =>
  match q with
  | .allowChildExecute _ => true
  | .canHibernate _ => true
  | _ => false

/-- The application hibernates after its first cycle. -/
theorem idle_lawful : ∃ e', resumeApp idle 1 1 oneService = some (some hibernateStatus, e') ∧
    Lawful oneService.app oneService e' (some hibernateStatus) := by
  obtain ⟨r, e', hrun, -, hlaw⟩ := resumeApp_lawful oneService_inv idle 1 1
  have hend : (resumeApp idle 1 1 oneService).map (fun t => (t.1, t.2.log.all agreeable)) =
      some (some hibernateStatus, true) := by decide +kernel
  rw [hrun] at hend
  obtain ⟨rfl, hlog⟩ := Prod.mk.inj (Option.some.inj hend)
  rw [List.all_eq_true] at hlog
  refine ⟨e', hrun, (hlaw fun p _ hlooks => heeded_of_agreeable fun ev hev => hlog ev ?_).1⟩
  obtain ⟨t, ht⟩ | ⟨⟨t, ht⟩, -⟩ := hlooks <;>
  · rw [← ht]
    simp [hev]

theorem oneService_isService : oneService.app.IsService 2 := ⟨1, _, rfl, rfl, rfl⟩

/-- The law fails where the services have allowed hibernation in a pass, and veto it in the next
one. -/
theorem not_lawful : ¬ ∀ (w : World Unit) (m n : ℕ) (e : Engine Unit), e.app.Inv →
    ∃ r e', resumeApp w m n e = some (r, e') ∧ Lawful e.app e e' r := by
  intro hlaw
  obtain ⟨r, e', hrun, hlawful⟩ := hlaw once 2 1 oneService oneService_inv
  have hend : (resumeApp once 2 1 oneService).map (fun t => (t.1, latest t.2.log 2)) =
      some (some 255, some false) := by decide +kernel
  rw [hrun] at hend
  obtain ⟨hr, hveto⟩ := Prod.mk.inj (Option.some.inj hend)
  obtain ⟨new, hlog, hhib⟩ := hlawful.hibernation
  have htrue := hhib.returns hr 2 oneService_isService
  rw [← hlog] at htrue
  rw [htrue] at hveto
  cases hveto

end Engine

end Sedona
