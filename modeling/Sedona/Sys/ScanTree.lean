import Mathlib.Data.Fintype.Option
import Mathlib.Data.List.DropRight
import Sedona.Library.Postorder
import Sedona.Sys.AppStructure
import Sedona.Sys.RunApp

/-!
# The Tree Is Executed

What `App.executeTree` calls, for an application whose structure fits together.

## Main results

* `Steps.trans`, `ask_steps`, `tell_steps`: what happens between two points of a run.
* `forEach_spec`: a loop along a list of the application.
* `executeTree_spec`: what is executed is a visit of the tree.
-/

namespace Sedona

open Relation Intrusive Postorder

variable {δ : Type}

/-! ### The log -/

namespace Event

/-- What a call has assigned. -/
def control : Event → Option Control
  | asked _ _ c => some c
  | told _ c => some c
  | _ => none

/-- The method without an answer that was called. -/
def notice : Event → Option Notice
  | told n _ => some n
  | _ => none

/-- A call that stops the app. -/
def Stops (ev : Event) : Prop := ∃ c, ev.control = some c ∧ c.running = false

/-- Nothing but hibernation is requested. -/
def Quiet (ev : Event) : Prop :=
  ev ≠ resume ∧ ∀ c v, ev.control = some c → c.runStatus = some v → v = hibernateStatus

/-- A call that requests hibernation. -/
def Requests (ev : Event) : Prop :=
  ∃ c, ev.control = some c ∧ c.runStatus = some hibernateStatus

/-- The answer of a service to `canHibernate`. -/
def can (s : Ref) : Event → Option Bool
  | asked (.canHibernate s') b _ => if s' = s then some b else none
  | _ => none

end Event

/-- The most recent answer of a service to `canHibernate`. -/
def latest (l : List Event) (s : Ref) : Option Bool := (l.filterMap (Event.can s)).getLast?

/-- The entries behind the beginning of the last cycle. -/
def current (l : List Event) : List Event := l.rtakeWhile (· ≠ .cycle)

/-- No service has vetoed hibernation in this cycle. -/
def Agrees (l : List Event) : Prop := ∀ s c, .asked (.canHibernate s) false c ∉ current l

/-- Hibernation has been requested, or at the end of a pass all services `S` allow it and none has
vetoed it in this cycle; and nothing else has been requested since. -/
def Decided (S : Ref → Prop) (l : List Event) : Prop :=
  ∃ p ev q, l = p ++ ev :: q ∧ (∀ x ∈ q, x.Quiet) ∧
    (ev.Requests ∨ ev = .pass ∧ Agrees (p ++ [ev]) ∧ ∀ s, S s → latest p s = some true)

theorem Decided.concat {S : Ref → Prop} {l : List Event} (h : Decided S l) {ev : Event}
    (hev : ev.Quiet) : Decided S (l ++ [ev]) := by
  obtain ⟨p, x, q, rfl, hq, hx⟩ := h
  refine ⟨p, x, q ++ [ev], by simp, fun y hy => ?_, hx⟩
  obtain hy | hy := List.mem_append.mp hy
  · exact hq y hy
  · rwa [List.mem_singleton.mp hy]

namespace Engine

open App

variable {S : Ref → Prop} {w : World δ} {e e' e'' : Engine δ} {a : App δ} {l l' : List Event}
  {id k n : ℕ}

/-- From one point of a run to another one, with these entries of the log. -/
structure Steps (S : Ref → Prop) (e e' : Engine δ) (l : List Event) : Prop where
  fired : Fired e.app e'.app
  log : e'.log = e.log ++ l
  running : e'.app.running = false → e.app.running = false ∨ ∃ ev ∈ l, ev.Stops
  decided : (e.runStatus = hibernateStatus → Decided S e.log) →
    e'.runStatus = hibernateStatus → Decided S e'.log

theorem Steps.refl (e : Engine δ) : Steps S e e [] :=
  ⟨Fired.refl _, (List.append_nil _).symm, .inl, id⟩

theorem Steps.trans (h : Steps S e e' l) (h' : Steps S e' e'' l') : Steps S e e'' (l ++ l') := by
  refine ⟨h.fired.trans h'.fired, ?_, fun hr => ?_, fun hd => h'.decided (h.decided hd)⟩
  · rw [h'.log, h.log, List.append_assoc]
  · obtain hr | ⟨ev, hev, hs⟩ := h'.running hr
    · obtain hr | ⟨ev, hev, hs⟩ := h.running hr
      · exact .inl hr
      · exact .inr ⟨ev, List.mem_append_left _ hev, hs⟩
    · exact .inr ⟨ev, List.mem_append_right _ hev, hs⟩

/-- A callback has assigned something, and is entered in the log. -/
theorem edit_steps (d : Edit δ) {ev : Event} (hev : ev.control = some d.toControl)
    (hne : ev ≠ .resume) : Steps S e ((e.edit d).mark ev) [ev] := by
  refine ⟨⟨_, _, rfl⟩, rfl, fun hr => .inr ⟨ev, List.mem_singleton_self ev, _, hev, hr⟩,
    fun hd hs => ?_⟩
  change d.runStatus.getD e.runStatus = hibernateStatus at hs
  change Decided S (e.log ++ [ev])
  cases hv : d.runStatus with
  | none =>
      rw [hv] at hs
      refine (hd hs).concat ⟨hne, fun c v hc hcv => ?_⟩
      obtain rfl := Option.some.inj (hev.symm.trans hc)
      rw [hv] at hcv
      cases hcv
  | some v =>
      rw [hv] at hs
      obtain rfl : v = hibernateStatus := hs
      exact ⟨e.log, ev, [], rfl, fun _ hx => (List.not_mem_nil hx).elim, .inl ⟨_, hev, hv⟩⟩

theorem ask_steps (w : World δ) (e : Engine δ) (q : Question) :
    ∃ c, Steps S e (e.ask w q).2 [.asked q (e.ask w q).1 c] :=
  ⟨_, edit_steps _ rfl fun h => by cases h⟩

theorem tell_steps (w : World δ) (e : Engine δ) (n : Notice) :
    ∃ c, Steps S e (e.tell w n) [.told n c] :=
  ⟨_, edit_steps _ rfl fun h => by cases h⟩

/-- Fields that the rest of a run does not depend on. -/
theorem same_steps (happ : Fired e.app e'.app) (hrun : e'.app.running = e.app.running)
    (hlog : e'.log = e.log) (hstatus : e'.runStatus = e.runStatus) : Steps S e e' [] := by
  refine ⟨happ, by rw [hlog, List.append_nil], fun hr => .inl (hrun ▸ hr), fun hd hs => ?_⟩
  rw [hlog]
  exact hd (hstatus ▸ hs)

theorem mark_steps (e : Engine δ) (ev : Event) (hev : ev.control = none) (hne : ev ≠ .resume) :
    Steps S e (e.mark ev) [ev] := by
  refine ⟨Fired.refl _, rfl, .inl, fun hd hs => (hd hs).concat ⟨hne, fun c v hc => ?_⟩⟩
  rw [hev] at hc
  cases hc

/-! ### Loops -/

/-- A loop along a list of the application, whose body calls what `P` says. -/
theorem forEach_spec {κ : Type} {next : App δ → Ref → Option Ref}
    {body : Ref → Engine δ → Option (Engine δ)} {f : κ → Ref} {P : κ → List Event → Prop}
    {ks : List κ} (hnext : ∀ a', Fired a a' → next a' = next a)
    (hbody : ∀ k ∈ ks, ∀ e, Fired a e.app →
      ∃ e' l, body (f k) e = some e' ∧ Steps S e e' l ∧ P k l)
    {first : Ref} (hc : Chain 0 (next a) first (ks.map f)) (hn : ks.length < n)
    (hf : Fired a e.app) : ∃ e' ls, forEach next body n first e = some e' ∧
      Steps S e e' ls.flatten ∧ List.Forall₂ P ks ls := by
  induction ks generalizing first n e with
  | nil =>
      obtain _ | n := n
      · cases hn
      have hnull : first = 0 := chain_nil.mp hc
      exact ⟨e, [], by rw [forEach, if_pos hnull], .refl e, .nil⟩
  | cons k ks ih =>
      obtain _ | n := n
      · cases hn
      rw [List.map_cons, chain_cons] at hc
      obtain ⟨rfl, hne, y, hy, hrest⟩ := hc
      obtain ⟨e₁, l, hrun, hsteps, hp⟩ := hbody k List.mem_cons_self e hf
      have hf₁ := hf.trans hsteps.fired
      obtain ⟨e₂, ls, hrun₂, hsteps₂, hps⟩ := ih
        (fun k' hk' => hbody k' (List.mem_cons_of_mem _ hk')) hrest (Nat.lt_of_succ_lt_succ hn) hf₁
      refine ⟨e₂, l :: ls, ?_, hsteps.trans hsteps₂, .cons hp hps⟩
      rw [forEach, if_neg hne, hrun]
      simp only [Option.bind_eq_bind, Option.bind_some, hnext _ hf₁, hy]
      exact hrun₂

/-- These methods have been called, and no others. -/
def Told (ns : List Notice) (l : List Event) : Prop :=
  List.Forall₂ (fun n ev => ∃ c, ev = .told n c) ns l

theorem Told.append {ns ns' : List Notice} (h : Told ns l) (h' : Told ns' l') :
    Told (ns ++ ns') (l ++ l') := List.rel_append h h'

theorem Told.mem {ns : List Notice} (h : Told ns l) {ev : Event} (hev : ev ∈ l) :
    ∃ n ∈ ns, ∃ c, ev = .told n c := by
  induction h with
  | nil => cases hev
  | cons hn _ ih =>
      obtain rfl | hev := List.mem_cons.mp hev
      · exact ⟨_, List.mem_cons_self, hn⟩
      · obtain ⟨n, hn, hc⟩ := ih hev
        exact ⟨n, List.mem_cons_of_mem _ hn, hc⟩

/-- A loop that calls one method for everything in a list. -/
theorem forEach_tell {next : App δ → Ref → Option Ref} (f : Ref → Notice) {rs : List Ref}
    (hnext : ∀ a', Fired a a' → next a' = next a) {first : Ref} (hc : Chain 0 (next a) first rs)
    (hn : rs.length < n) (hf : Fired a e.app) :
    ∃ e' l, forEach next (fun r e => some (e.tell w (f r))) n first e = some e' ∧ Steps S e e' l ∧
      Told (rs.map f) l := by
  obtain ⟨e', ls, hrun, hsteps, hls⟩ := forEach_spec (S := S) (f := fun r => r)
    (P := fun r l => ∃ c, l = [.told (f r) c]) hnext
    (fun r _ e _ => by
      obtain ⟨c, hc⟩ := tell_steps (S := S) w e (f r)
      exact ⟨_, _, rfl, hc, c, rfl⟩) (by rwa [List.map_id']) hn hf
  refine ⟨e', ls.flatten, hrun, hsteps, ?_⟩
  clear hrun hsteps hc hn
  induction hls with
  | nil => exact .nil
  | cons hl _ ih =>
      obtain ⟨c, rfl⟩ := hl
      exact .cons ⟨c, rfl⟩ ih

theorem length_lt_loopFuel {ids : List ℕ} (hnodup : ids.Nodup) (hlt : ∀ i ∈ ids, i < nullId) :
    ids.length < loopFuel := by
  have hsub : ids ⊆ List.range nullId := fun i hi => List.mem_range.mpr (hlt i hi)
  have hlen := (hnodup.subperm hsub).length_le
  rw [List.length_range] at hlen
  exact Nat.lt_succ_of_le hlen

/-! ### A component -/

/-- The links into a component are propagated, and it is executed. -/
def Executes (a : App δ) (id : ℕ) (ns : List Notice) : Prop :=
  ∃ c links, a.comp id = some c ∧ Chain 0 (a.nextOn .into) c.linksTo links ∧
    ns = links.map .propagate ++ [.execute (a.lookup id)]

theorem length_links (h : a.Consistent) {c : Component} (hc : a.comp id = some c)
    {links : List Ref} (hl : Chain 0 (a.nextOn .into) c.linksTo links) :
    links.length < loopFuel := by
  obtain ⟨l, hchain, hnodup, hmem⟩ := h.links .into id c hc
  obtain rfl : links = l := hl.unique hchain
  -- the links go to different slots
  have hslots : (links.map fun k => (a.links k).map (·.toSlot)).Nodup := by
    refine List.Nodup.map_on (fun k hk k' hk' heq => ?_) hnodup
    obtain ⟨x, hx, hown⟩ := (hmem k).mp hk
    obtain ⟨x', hx', hown'⟩ := (hmem k').mp hk'
    rw [hx, hx'] at heq
    have hto : x.toComp = x'.toComp := Option.some.inj (hown.trans hown'.symm)
    exact h.slots k k' x x' hx hx' hto (Option.some.inj heq)
  have hcard := hslots.length_le_card
  rw [List.length_map, Fintype.card_option, Fintype.card_fin] at hcard
  exact hcard.trans_lt (by decide)

theorem propagateLinksTo_spec (h : a.Consistent) {c : Component} (hc : a.comp id = some c)
    (hf : Fired a e.app) : ∃ e' l links, propagateLinksTo w (a.lookup id) e = some e' ∧
      Steps S e e' l ∧ Chain 0 (a.nextOn .into) c.linksTo links ∧ Told (links.map .propagate) l := by
  obtain ⟨links, hchain, -⟩ := h.links .into id c hc
  have hnext : ∀ a', Fired a a' → App.nextOn a' .into = App.nextOn a .into := by
    rintro a' ⟨d, b, rfl⟩
    rfl
  obtain ⟨e', l, hrun, hsteps, htold⟩ := forEach_tell (S := S) (w := w) .propagate hnext hchain
    (length_links h hc hchain) hf
  refine ⟨e', l, links, ?_, hsteps, hchain, htold⟩
  rw [propagateLinksTo, hf.objs]
  change (a.objs (a.lookup id)).bind _ = _
  rw [show a.objs (a.lookup id) = some c from hc, Option.bind_some]
  exact hrun

/-! ### The tree -/

theorem Told.notices {ns : List Notice} (h : Told ns l) : l.filterMap Event.notice = ns := by
  induction h with
  | nil => rfl
  | cons hn _ ih =>
      obtain ⟨c, rfl⟩ := hn
      exact congrArg _ ih

theorem depth_above {d : ℕ} (ht : Tree a.node) (h : TransGen (IsKid a.node) id k)
    (hd : Depth a.node id d) : ∃ d', d < d' ∧ Depth a.node k d' := by
  induction h with
  | single hk => exact ⟨d + 1, Nat.lt_succ_self d, hd.kid ht hk⟩
  | tail _ hk ih =>
      obtain ⟨d', hlt, hd'⟩ := ih
      exact ⟨d' + 1, hlt.trans (Nat.lt_succ_self d'), hd'.kid ht hk⟩

theorem isForest (ht : Tree a.node) : IsForest (IsKid a.node) where
  parent := by
    rintro p p' k ⟨m, hm, rfl⟩ ⟨m', hm', rfl⟩
    rw [Option.some.inj (hm.symm.trans hm')]
  acyclic k hk := by
    obtain ⟨p, -, n, hn, -⟩ := TransGen.tail'_iff.mp hk
    obtain ⟨d, hd⟩ := (ht.rooted k n hn).depth
    obtain ⟨d', hlt, hd'⟩ := depth_above ht hk hd
    exact absurd (hd.unique hd') hlt.ne

/-- The component has allowed the execution of its children. -/
def Allows (a : App δ) (l : List Event) (id : ℕ) : Prop :=
  ∃ c, .asked (.allowChildExecute (a.lookup id)) true c ∈ l

/-- What is called for a component and what is below it. -/
structure Calls (a : App δ) (id : ℕ) (ids : List ℕ) (l : List Event) : Prop where
  notices : ∃ parts, List.Forall₂ (Executes a) ids parts ∧
    l.filterMap Event.notice = parts.flatten
  asks : ∀ q b c, .asked q b c ∈ l → ∃ p, ReflTransGen (IsKid a.node) id p ∧
    a.lookup p ≠ 0 ∧ q = .allowChildExecute (a.lookup p)
  marks : ∀ ev ∈ l, ev.control ≠ none

/-- **The tree below a component is executed.** -/
structure Subtree (a : App δ) (id : ℕ) (ids : List ℕ) (l : List Event) : Prop
    extends Calls a id ids l where
  visited : Visited (IsKid a.node) (Allows a l) id ids

/-- A component is executed behind its children. -/
theorem subtree_concat {ids : List ℕ} {lp le : List Event} {c : Component} {links : List Ref}
    (hcalls : Calls a id ids l)
    (hvisited : Visited (IsKid a.node) (Allows a l) id (ids ++ [id]))
    (hc : a.comp id = some c) (hlinks : Chain 0 (a.nextOn .into) c.linksTo links)
    (hp : Told (links.map .propagate) lp) (he : Told [.execute (a.lookup id)] le) :
    Subtree a id (ids ++ [id]) (l ++ (lp ++ le)) := by
  have htold := hp.append he
  have hasked : ∀ {q b c}, Event.asked q b c ∈ l ++ (lp ++ le) → Event.asked q b c ∈ l := by
    intro q b c hmem
    refine (List.mem_append.mp hmem).resolve_right fun hmem => ?_
    obtain ⟨n, -, c', heq⟩ := htold.mem hmem
    cases heq
  refine ⟨⟨?_, fun q b c hmem => hcalls.asks q b c (hasked hmem), fun ev hev => ?_⟩,
    hvisited.congr fun p _ => ⟨?_, ?_⟩⟩
  · obtain ⟨parts, hparts, heq⟩ := hcalls.notices
    refine ⟨parts ++ [links.map .propagate ++ [.execute (a.lookup id)]],
      List.rel_append hparts (.cons ⟨c, links, hc, hlinks, rfl⟩ .nil), ?_⟩
    rw [List.filterMap_append, heq, htold.notices, List.flatten_append]
    simp
  · obtain hev | hev := List.mem_append.mp hev
    · exact hcalls.marks ev hev
    · obtain ⟨n, -, c', rfl⟩ := htold.mem hev
      exact Option.some_ne_none c'
  · rintro ⟨c, hmem⟩
    exact ⟨c, hasked hmem⟩
  · rintro ⟨c, hmem⟩
    exact ⟨c, List.mem_append_left _ hmem⟩

/-- The results of a loop along a list without repetitions, as a function of its elements. -/
theorem exists_map_of_forall₂ {κ β : Type} [DecidableEq κ] [Inhabited β] {P : κ → β → Prop}
    {ks : List κ} {ls : List β} (h : List.Forall₂ P ks ls) (hnodup : ks.Nodup) :
    ∃ f : κ → β, ls = ks.map f ∧ ∀ k ∈ ks, P k (f k) := by
  induction h with
  | nil => exact ⟨default, rfl, fun k hk => (List.not_mem_nil hk).elim⟩
  | @cons k l ks ls hk _ ih =>
      rw [List.nodup_cons] at hnodup
      obtain ⟨f, rfl, hf⟩ := ih hnodup.2
      have hsame : ∀ k' ∈ ks, Function.update f k l k' = f k' := by
        intro k' hk'
        refine Function.update_of_ne (fun h => ?_) ..
        exact hnodup.1 (h ▸ hk')
      refine ⟨Function.update f k l, ?_, fun k' hk' => ?_⟩
      · rw [List.map_cons, Function.update_self, List.map_congr_left hsame]
      · obtain rfl | hk' := List.mem_cons.mp hk'
        · rwa [Function.update_self]
        · rw [hsame k' hk']
          exact hf k' hk'

theorem executes_flatMap {ks : List ℕ} {ids : ℕ → List ℕ} {parts : ℕ → List (List Notice)}
    (h : ∀ k ∈ ks, List.Forall₂ (Executes a) (ids k) (parts k)) :
    List.Forall₂ (Executes a) (ks.map ids).flatten (ks.map parts).flatten := by
  induction ks with
  | nil => exact .nil
  | cons k ks ih =>
      rw [List.forall_mem_cons] at h
      exact List.rel_append h.1 (ih h.2)

/-- The children have been executed, if they are allowed to be. -/
theorem subtree_kids (h : a.Inv) {c : Component} (hc : a.comp id = some c) {ks : List ℕ}
    (hks : KidsAt a.node id ks) (ctl : Control) {ids : ℕ → List ℕ} {ls : ℕ → List Event}
    (hkids : ∀ k ∈ ks, Subtree a k (ids k) (ls k)) :
    Calls a id (ks.map ids).flatten
        (.asked (.allowChildExecute (a.lookup id)) true ctl :: (ks.map ls).flatten) ∧
      Visited (IsKid a.node)
        (Allows a (.asked (.allowChildExecute (a.lookup id)) true ctl :: (ks.map ls).flatten)) id
        ((ks.map ids).flatten ++ [id]) := by
  have hf := isForest h.tree
  have hmem : ∀ k, k ∈ ks ↔ IsKid a.node id k := fun k => hks.mem
  have hnodup : ks.Nodup := by
    obtain ⟨n, -, hkids⟩ := hks
    exact hkids.chain.nodup
  have h0 : a.lookup id ≠ 0 := h.table.lookup_ne hc
  refine ⟨⟨?_, fun q b c' hask => ?_, fun ev hev => ?_⟩, ?_⟩
  · choose! parts hparts heq using fun k hk => (hkids k hk).notices
    refine ⟨(ks.map parts).flatten, executes_flatMap hparts, ?_⟩
    rw [List.filterMap_cons_none rfl, List.filterMap_flatten, List.flatten_flatten, List.map_map,
      List.map_map]
    exact congrArg _ (List.map_congr_left heq)
  · obtain heq | hask := List.mem_cons.mp hask
    · cases heq
      exact ⟨id, .refl, h0, rfl⟩
    · obtain ⟨l, hl, hask⟩ := List.mem_flatten.mp hask
      obtain ⟨k, hk, rfl⟩ := List.mem_map.mp hl
      obtain ⟨p, hbelow, hp, rfl⟩ := (hkids k hk).asks q b c' hask
      exact ⟨p, hbelow.head ((hmem k).mp hk), hp, rfl⟩
  · obtain rfl | hev := List.mem_cons.mp hev
    · exact Option.some_ne_none ctl
    · obtain ⟨l, hl, hev⟩ := List.mem_flatten.mp hev
      obtain ⟨k, hk, rfl⟩ := List.mem_map.mp hl
      exact (hkids k hk).marks ev hev
  · refine visited_node hf ⟨ctl, List.mem_cons_self⟩ hmem hnodup ?_
    rw [List.forall₂_map_right_iff, List.forall₂_same]
    intro k hk
    refine (hkids k hk).visited.congr fun p hp => ⟨?_, ?_⟩
    · -- nobody else asks the components below this child
      rintro ⟨c', hask⟩
      obtain heq | hask := List.mem_cons.mp hask
      · simp only [Event.asked.injEq, Question.allowChildExecute.injEq] at heq
        obtain rfl := h.table.inj h0 heq.1.symm
        exact absurd hp (hf.not_above ((hmem k).mp hk))
      · obtain ⟨l, hl, hask⟩ := List.mem_flatten.mp hask
        obtain ⟨k', hk', rfl⟩ := List.mem_map.mp hl
        obtain ⟨p', hp', h0', heq⟩ := (hkids k' hk').asks _ _ _ hask
        simp only [Question.allowChildExecute.injEq] at heq
        obtain rfl := h.table.inj h0' heq.symm
        obtain rfl := hf.siblings ((hmem k).mp hk) ((hmem k').mp hk') hp hp'
        exact ⟨c', hask⟩
    · rintro ⟨c', hask⟩
      exact ⟨c', List.mem_cons_of_mem _
        (List.mem_flatten.mpr ⟨ls k, List.mem_map.mpr ⟨k, hk, rfl⟩, hask⟩)⟩

/-- The references of a sibling list. -/
theorem chain_lookup (h : a.Inv) {first : ℕ} {ks : List ℕ}
    (hc : Chain nullId (nextSib a.node) first ks) :
    Chain 0 (nextKid a) (a.lookup first) (ks.map a.lookup) := by
  induction ks generalizing first with
  | nil =>
      rw [chain_nil.mp hc]
      exact chain_nil.mpr h.lookup_nullId
  | cons k ks ih =>
      obtain ⟨rfl, -, j, hj, hrest⟩ := chain_cons.mp hc
      obtain ⟨n, hn, rfl⟩ := Option.map_eq_some_iff.mp hj
      obtain ⟨d, hd, rfl⟩ := node_eq_some.mp hn
      refine chain_cons.mpr ⟨rfl, h.table.lookup_ne hd, _, ?_, ih hrest⟩
      exact congrArg _ hd

/-- **`App.executeTree`.** -/
theorem executeTree_spec (h : a.Inv) {d : ℕ} (hd : Depth a.node id d) (hn : nullId ≤ n + d)
    (hf : Fired a e.app) : ∃ e' ids l, executeTree w n (a.lookup id) e = some e' ∧ Steps S e e' l ∧
      Subtree a id ids l := by
  induction n generalizing id d e with
  | zero => exact absurd (hd.lt h.tree) (by omega)
  | succ n ih =>
      obtain ⟨m, hm⟩ := hd.live h.tree
      obtain ⟨c, hc, rfl⟩ := node_eq_some.mp hm
      obtain ⟨ks, hks⟩ := h.tree.kidsAt hm
      have hchain : Chain nullId (nextSib a.node) c.children ks := by
        obtain ⟨m', hm', hkids⟩ := hks
        obtain rfl := Option.some.inj (hm.symm.trans hm')
        exact hkids.chain
      -- the part before the links are propagated
      obtain ⟨e₁, ids, l, hrun, hsteps, hcalls, hvisited⟩ : ∃ e₁ ids l,
          (if c.children = nullId then some e
            else
              let r := e.ask w (.allowChildExecute (a.lookup id))
              if r.1 then
                forEach nextKid (executeTree w n) loopFuel (r.2.app.lookup c.children) r.2
              else some r.2) = some e₁ ∧ Steps S e e₁ l ∧ Calls a id ids l ∧
            Visited (IsKid a.node) (Allows a l) id (ids ++ [id]) := by
        split
        · rename_i hnull
          have hnone : ∀ k, ¬ IsKid a.node id k := by
            intro k hk
            rw [← hks.mem] at hk
            cases ks with
            | nil => cases hk
            | cons k' ks =>
                obtain ⟨heq, hne, -⟩ := chain_cons.mp hchain
                exact hne (heq.symm.trans hnull)
          exact ⟨e, [], [], rfl, .refl e, ⟨⟨[], .nil, rfl⟩, fun _ _ _ h => (List.not_mem_nil h).elim,
            fun _ h => (List.not_mem_nil h).elim⟩, visited_blocked (isForest h.tree)
            fun k hk => absurd hk (hnone k)⟩
        obtain ⟨ctl, hask⟩ := ask_steps (S := S) w e (.allowChildExecute (a.lookup id))
        rcases hans : e.ask w (.allowChildExecute (a.lookup id)) with ⟨_ | _, e₁⟩
        · rw [hans] at hask
          refine ⟨e₁, [], _, rfl, hask, ⟨⟨[], .nil, rfl⟩, ?_, ?_⟩,
            visited_blocked (isForest h.tree) ?_⟩
          · intro q b c' hmem
            cases List.mem_singleton.mp hmem
            exact ⟨id, .refl, h.table.lookup_ne hc, rfl⟩
          · intro ev hev
            rw [List.mem_singleton.mp hev]
            exact Option.some_ne_none ctl
          · rintro k - ⟨c', hmem⟩
            cases List.mem_singleton.mp hmem
        · rw [hans] at hask
          have hf₁ := hf.trans hask.fired
          have hnext : ∀ a', Fired a a' → nextKid a' = nextKid a := by
            rintro a' ⟨d, b, rfl⟩
            rfl
          have hlen : ks.length < loopFuel := by
            refine length_lt_loopFuel hchain.nodup fun k hk => ?_
            obtain ⟨m', hm', -⟩ := hks.mem.mp hk
            exact (h.tree.ids k m' hm').2
          obtain ⟨e₂, ls, hrun, hsteps, hls⟩ := forEach_spec (S := S) (f := a.lookup)
            (P := fun k l => ∃ ids, Subtree a k ids l) hnext
            (fun k hk e hf => by
              obtain ⟨e', ids, l, hrun, hsteps, hsub⟩ :=
                ih (hd.kid h.tree (hks.mem.mp hk)) (by omega) hf
              exact ⟨e', l, hrun, hsteps, ids, hsub⟩)
            (chain_lookup h hchain) hlen hf₁
          obtain ⟨L, rfl, hL⟩ := exists_map_of_forall₂ hls hchain.nodup
          choose! ids hids using hL
          obtain ⟨hcalls, hvisited⟩ := subtree_kids h hc hks ctl hids
          refine ⟨e₂, (ks.map ids).flatten, _, ?_, hask.trans hsteps, hcalls, hvisited⟩
          obtain ⟨d', b, heq⟩ := hf₁
          simp only [if_true]
          rw [← hrun, heq]
          rfl
      have hf₁ := hf.trans hsteps.fired
      obtain ⟨e₂, lp, links, hprop, hsteps₂, hlinks, hp⟩ :=
        propagateLinksTo_spec (S := S) (w := w) h.consistent hc hf₁
      obtain ⟨ctl, hsteps₃⟩ := tell_steps (S := S) w e₂ (.execute (a.lookup id))
      refine ⟨_, ids ++ [id], l ++ (lp ++ [.told (.execute (a.lookup id)) ctl]), ?_,
        hsteps.trans (hsteps₂.trans hsteps₃),
        subtree_concat hcalls hvisited hc hlinks hp (.cons ⟨ctl, rfl⟩ .nil)⟩
      rw [executeTree, hf.objs]
      change (a.objs (a.lookup id)).bind _ = _
      rw [show a.objs (a.lookup id) = some c from hc, Option.bind_some]
      change Option.bind _ _ = _
      rw [hrun, Option.bind_some]
      change Option.bind _ _ = _
      rw [hprop]
      rfl

end Engine

end Sedona
