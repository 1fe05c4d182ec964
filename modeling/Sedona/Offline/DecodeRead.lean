import Sedona.Offline.DecodeLoops

/-!
# Reading the Components and the Links

The loops that read a file end, since every turn takes bytes. Behind the components, the application
has those of the file, with no parents and no children yet.

## Main results

* `components_loop_eq`, `links_loop_eq`: the loops are not cut short.
* `readComponents_ready`: what is there behind the components.
* `readLinks_links`, `readLinks_congr`: the links lead from components to components.
-/

namespace Sedona.Sab

open Function Scanner

/-! ### Every turn takes bytes -/

/-- The reader gives no bytes back. -/
abbrev Shrinks {α : Type} (m : In α) : Prop := Tame (fun _ => True) [] [] m

theorem shrinks_u1 : Shrinks u1 := Tame.next trivial

theorem shrinks_u2 : Shrinks u2 :=
  shrinks_u1.bind fun _ => shrinks_u1.bind fun _ => Tame.pure _

theorem shrinks_i4 : Shrinks i4 :=
  shrinks_u2.bind fun _ => shrinks_u2.bind fun _ => Tame.pure _

theorem shrinks_i8 : Shrinks i8 :=
  shrinks_i4.bind fun _ => shrinks_i4.bind fun _ => Tame.pure _

theorem shrinks_bytes (n : ℕ) : Shrinks (bytes n) := by
  induction n with
  | zero => exact Tame.pure _
  | succ n ih => exact shrinks_u1.bind fun _ => ih.bind fun _ => Tame.pure _

theorem shrinks_str : Shrinks str := by
  refine Tame.of_shrinks fun r => ?_
  induction r with
  | nil => exact fun x r' h => by cases h
  | cons c r ih =>
    intro x r' h
    rw [str] at h
    split_ifs at h
    · cases h
      exact Nat.le_succ _
    · cases hs : str r with
      | error e =>
        rw [hs] at h
        cases h
      | ok p =>
        rw [hs] at h
        cases h
        exact (ih p.1 p.2 hs).trans (Nat.le_succ _)

theorem shrinks_get : Shrinks (get : In (List (BitVec 8))) :=
  Tame.of_shrinks fun r x r' h => by
    cases h
    exact le_rfl

theorem shrinks_value (v : Value) : Shrinks v.decodeBinary := by
  cases v with
  | bool => exact shrinks_u1.bind fun _ => Tame.pure _
  | byte => exact shrinks_u1.bind fun _ => Tame.pure _
  | short => exact shrinks_u2.bind fun _ => Tame.pure _
  | int => exact shrinks_i4.bind fun _ => Tame.pure _
  | long => exact shrinks_i8.bind fun _ => Tame.pure _
  | float => exact shrinks_i4.bind fun _ => Tame.pure _
  | double => exact shrinks_i8.bind fun _ => Tame.pure _
  | str =>
    refine shrinks_u2.bind fun size => Tame.ite (Tame.pure _) ?_
    exact (shrinks_bytes _).bind fun _ => shrinks_u1.bind fun _ =>
      Tame.ite (Tame.throw trivial) (Tame.pure _)
  | buf =>
    refine shrinks_u2.bind fun size => shrinks_get.bind fun r => Tame.ite (Tame.throw trivial) ?_
    exact (shrinks_bytes _).bind fun _ => Tame.pure _

theorem shrinks_prop (slot : Slot) (val : Option Value) : Shrinks (decodeProp slot val) := by
  refine Tame.ite ?_ (Tame.pure _)
  cases val with
  | none => exact Tame.throw trivial
  | some val =>
    exact (shrinks_value val).bind fun _ => (Tame.lift fun _ _ => trivial).bind fun _ =>
      Tame.pure _

theorem shrinks_props (slots : List Slot) (vals : List (Option Value)) :
    Shrinks (decodeBinaryProps slots vals) := by
  induction slots generalizing vals with
  | nil => exact Tame.pure _
  | cons slot slots ih =>
    cases vals with
    | nil => exact Tame.pure _
    | cons val vals => exact (shrinks_prop slot val).bind fun _ => (ih vals).bind fun _ => Tame.pure _

theorem shrinks_component (schema : Schema) (app : App) (id : ℕ) :
    Shrinks (decodeBinary schema app id) := by
  refine shrinks_u1.bind fun _ => shrinks_u1.bind fun _ => Tame.bind (Tame.lift fun _ _ => trivial)
    fun _ => shrinks_str.bind fun _ => shrinks_u2.bind fun _ => shrinks_u2.bind fun _ =>
    shrinks_u2.bind fun _ => (shrinks_props _ _).bind fun _ => shrinks_u1.bind fun _ => ?_
  exact Tame.ite (Tame.throw trivial) (Tame.pure _)

theorem takes_u2 : Takes u2 := by
  have h : Takes u1 := takes_next Failure.eof
  exact h.bind fun _ => shrinks_u1.bind fun _ => Tame.pure _

theorem componentTurn_advances (schema : Schema) : Advances (componentTurn schema) := by
  intro s r s' r' h
  have hrest (id : ℕ) : Shrinks (if id = nullId then pure (.inr s) else do
      let p ← decodeBinary schema s.1 id
      if id ≠ 0 && (s.1.lookup id).isSome then throw (.io "Duplicate id")
      else pure (.inl ({ s.1 with comps := update s.1.comps id (some p.1) }, put s.2 p.2)) :
      In ((App × List Decoded) ⊕ (App × List Decoded))) :=
    Tame.ite (Tame.pure _) ((shrinks_component schema s.1 id).bind fun _ =>
      Tame.ite (Tame.throw trivial) (Tame.pure _))
  exact takes_u2.bind hrest r _ r' h

theorem shrinks_link (app : App) (id : ℕ) : Shrinks (decodeLink app id) := by
  refine shrinks_u1.bind fun _ => shrinks_u2.bind fun toId => shrinks_u1.bind fun _ => ?_
  cases app.lookup id with
  | none => exact Tame.throw trivial
  | some src =>
    cases app.lookup toId with
    | none => exact Tame.throw trivial
    | some dst => exact Tame.ite (Tame.throw trivial) (Tame.ite (Tame.throw trivial) (Tame.pure _))

theorem linkTurn_advances (app : App) : Advances (linkTurn app) := by
  intro links r links' r' h
  have hrest (id : ℕ) : Shrinks (if id = nullId then pure (.inr links) else do
      let link ← decodeLink app id
      pure (.inl (links ++ [link])) : In (List Link ⊕ List Link)) :=
    Tame.ite (Tame.pure _) ((shrinks_link app id).bind fun _ => Tame.pure _)
  exact takes_u2.bind hrest r _ r' h

/-- The loop over the components is one turn and the rest of the loop. -/
theorem components_loop_eq (schema : Schema) (s : App × List Decoded) :
    loop .eof (componentTurn schema) s =
      componentTurn schema s >>= Sum.elim (loop .eof (componentTurn schema)) pure :=
  loop_eq (componentTurn_advances schema) s

/-- The loop over the links is one turn and the rest of the loop. -/
theorem links_loop_eq (app : App) (links : List Link) :
    loop .eof (linkTurn app) links = linkTurn app links >>= Sum.elim (loop .eof (linkTurn app)) pure :=
  loop_eq (linkTurn_advances app) links

/-! ### The components -/

/-- There are no parents, no children and no links yet. -/
structure Fresh (app : App) : Prop where
  parent : ∀ id c, app.comps id = some c → c.parent = none
  kids : ∀ id c, app.comps id = some c → c.kids = none
  links : app.links = []

variable {schema : Schema} {app : App} {decoded : List Decoded} {id : ℕ}

theorem decodeBinary_spec {p : Component × Decoded} {r r' : List (BitVec 8)} (h : Fresh app)
    (hp : decodeBinary schema app id r = .ok (p, r')) :
    p.2.id = id ∧ p.1.parent = none ∧ p.1.kids = none := by
  obtain ⟨kitId, _, -, hp⟩ := bind_eq_ok.mp hp
  obtain ⟨typeId, _, -, hp⟩ := bind_eq_ok.mp hp
  obtain ⟨type, _, -, hp⟩ := bind_eq_ok.mp hp
  obtain ⟨name, _, -, hp⟩ := bind_eq_ok.mp hp
  obtain ⟨parentId, _, -, hp⟩ := bind_eq_ok.mp hp
  obtain ⟨childrenId, _, -, hp⟩ := bind_eq_ok.mp hp
  obtain ⟨nextSiblingId, _, -, hp⟩ := bind_eq_ok.mp hp
  obtain ⟨slots, _, -, hp⟩ := bind_eq_ok.mp hp
  obtain ⟨mark, _, -, hp⟩ := bind_eq_ok.mp hp
  have hcomp : ((if id = 0 then app.lookup 0 else none).getD (Component.make type name)).parent = none ∧
      ((if id = 0 then app.lookup 0 else none).getD (Component.make type name)).kids = none := by
    cases hold : (if id = 0 then app.lookup 0 else none) with
    | none => exact ⟨rfl, rfl⟩
    | some c =>
      split_ifs at hold
      exact ⟨h.parent 0 c hold, h.kids 0 c hold⟩
  split at hp
  · cases hp
  · cases hp
    exact ⟨rfl, hcomp⟩

theorem mem_put {d x : Decoded} : x ∈ put decoded d ↔ (x ∈ decoded ∧ x.id ≠ d.id) ∨ x = d := by
  simp [put]

theorem nodup_put {d : Decoded} (h : (decoded.map Decoded.id).Nodup) :
    ((put decoded d).map Decoded.id).Nodup := by
  have hfilter : ((decoded.filter fun x => x.id ≠ d.id).map Decoded.id).Nodup :=
    h.sublist (List.filter_sublist.map _)
  rw [put, List.map_append, List.nodup_append]
  refine ⟨hfilter, List.nodup_singleton _, ?_⟩
  intro i hi j hj heq
  obtain ⟨x, hx, rfl⟩ := List.mem_map.mp hi
  rw [List.map_singleton, List.mem_singleton] at hj
  have hne := (List.mem_filter.mp hx).2
  simp [heq.trans hj] at hne

/-- A component is read. -/
theorem Ready.put (h : Ready app decoded) {d : Decoded} (hd : d.id ≠ nullId) (c : Component) :
    Ready { app with comps := update app.comps d.id (some c) } (put decoded d) where
  known j := by
    have hmem : (∃ x ∈ Sab.put decoded d, x.id = j) ↔ j = d.id ∨ ∃ x ∈ decoded, x.id = j := by
      constructor
      · rintro ⟨x, hx, rfl⟩
        rcases mem_put.mp hx with ⟨hx, -⟩ | rfl
        · exact .inr ⟨x, hx, rfl⟩
        · exact .inl rfl
      · intro hj
        by_cases hjd : j = d.id
        · exact ⟨d, mem_put.mpr (.inr rfl), hjd.symm⟩
        · obtain ⟨x, hx, rfl⟩ := hj.resolve_left hjd
          exact ⟨x, mem_put.mpr (.inl ⟨hx, hjd⟩), rfl⟩
    rw [hmem]
    by_cases hj : j = d.id
    · simp [hj]
    · simp only [update_of_ne hj, h.known j, hj, false_or]
  nodup := nodup_put h.nodup
  ids x hx := by
    rcases mem_put.mp hx with ⟨hx, -⟩ | rfl
    · exact h.ids x hx
    · exact hd

theorem Fresh.put (h : Fresh app) {c : Component} (hparent : c.parent = none)
    (hkids : c.kids = none) (id : ℕ) : Fresh { app with comps := update app.comps id (some c) } where
  parent j c' hc' := by
    by_cases hj : j = id
    · subst hj
      obtain rfl : c = c' := by simpa using hc'
      exact hparent
    · exact h.parent j c' (by rwa [← update_of_ne hj (some c) app.comps])
  kids j c' hc' := by
    by_cases hj : j = id
    · subst hj
      obtain rfl : c = c' := by simpa using hc'
      exact hkids
    · exact h.kids j c' (by rwa [← update_of_ne hj (some c) app.comps])
  links := h.links

/-- What every turn of the loop over the components keeps. -/
theorem componentTurn_keeps {s : App × List Decoded} {r r' : List (BitVec 8)}
    {x : (App × List Decoded) ⊕ (App × List Decoded)} (hs : Ready s.1 s.2 ∧ Fresh s.1)
    (h : componentTurn schema s r = .ok (x, r')) :
    Sum.elim (fun s => Ready s.1 s.2 ∧ Fresh s.1) (fun s => Ready s.1 s.2 ∧ Fresh s.1) x := by
  obtain ⟨id, _, -, h⟩ := bind_eq_ok.mp h
  split at h
  · cases h
    exact hs
  · next hid =>
    obtain ⟨p, _, hp, h⟩ := bind_eq_ok.mp h
    obtain ⟨rfl, hparent, hkids⟩ := decodeBinary_spec hs.2 hp
    split at h
    · cases h
    · cases h
      exact ⟨hs.1.put hid p.1, hs.2.put hparent hkids p.2.id⟩

/-- **Behind the components.** -/
theorem readComponents_ready {load : List KitPart → Except Failure Schema} {s : App × List Decoded}
    {file rest : List (BitVec 8)} (h : readComponents load file = .ok (s, rest)) :
    Ready s.1 s.2 ∧ Fresh s.1 := by
  obtain ⟨magic, _, -, h⟩ := bind_eq_ok.mp h
  obtain ⟨version, _, -, h⟩ := bind_eq_ok.mp h
  split at h
  · cases h
  split at h
  · cases h
  obtain ⟨n, _, -, h⟩ := bind_eq_ok.mp h
  obtain ⟨parts, _, -, h⟩ := bind_eq_ok.mp h
  obtain ⟨schema, _, -, h⟩ := bind_eq_ok.mp h
  obtain ⟨maxId, r, -, h⟩ := bind_eq_ok.mp h
  cases happ : schema.app with
  | none =>
    simp only [happ] at h
    cases h
  | some type =>
    simp only [happ] at h
    refine loop_ind (P := fun s => Ready s.1 s.2 ∧ Fresh s.1) (Q := fun s => Ready s.1 s.2 ∧ Fresh s.1)
      (fun s r x r' hs hx => componentTurn_keeps hs hx) ⟨⟨fun j => ?_, ?_, ?_⟩, ?_⟩ h
    · by_cases hj : j = 0
      · simp [App.make, hj]
      · simp [App.make, hj]
    · exact List.nodup_nil
    · exact fun d hd => absurd hd List.not_mem_nil
    · have hcomp (j : ℕ) (c : Component) (hc : (App.make type).comps j = some c) :
          c = Component.make type [0x61, 0x70, 0x70] := by
        by_cases hj : j = 0
        · subst hj
          simpa [App.make, eq_comm] using hc
        · simp [App.make, hj] at hc
      exact ⟨fun j c hc => by rw [hcomp j c hc]; rfl, fun j c hc => by rw [hcomp j c hc]; rfl, rfl⟩

/-! ### The links -/

variable {app' : App}

/-- Links are read by the types of the components. -/
theorem decodeLink_congr (h : ∀ id, (app'.comps id).map Component.type =
    (app.comps id).map Component.type) (id : ℕ) : decodeLink app' id = decodeLink app id := by
  rw [decodeLink, decodeLink]
  refine bind_congr fun fromSlotId => bind_congr fun toCompId => bind_congr fun toSlotId => ?_
  have hsrc := h id
  have hdst := h toCompId
  cases hs : app.comps id <;> cases hs' : app'.comps id <;>
    cases hd : app.comps toCompId <;> cases hd' : app'.comps toCompId <;>
    simp_all [App.lookup]

theorem linkTurn_congr (h : ∀ id, (app'.comps id).map Component.type =
    (app.comps id).map Component.type) : linkTurn app' = linkTurn app := by
  funext links
  refine bind_congr fun id => ?_
  rw [decodeLink_congr h]

/-- Whether the links can be read depends on the types of the components. -/
theorem readLinks_congr {r : List (BitVec 8)} (h : ∀ id, (app'.comps id).map Component.type =
    (app.comps id).map Component.type) (hlinks : app'.links = app.links) :
    (∃ p, readLinks app' r = .ok p) ↔ ∃ p, readLinks app r = .ok p := by
  have hread (a : App) : (∃ p, readLinks a r = .ok p) ↔
      ∃ links s s', loop .eof (linkTurn a) a.links r = .ok (links, s) ∧ u1 s = .ok (0x2e, s') := by
    constructor
    · rintro ⟨p, hp⟩
      obtain ⟨links, s, hloop, hp⟩ := bind_eq_ok.mp hp
      obtain ⟨mark, s', hmark, hp⟩ := bind_eq_ok.mp hp
      split at hp
      · cases hp
      · next hne =>
        rw [not_not.mp hne] at hmark
        exact ⟨links, s, s', hloop, hmark⟩
    · rintro ⟨links, s, s', hloop, hmark⟩
      refine ⟨({ a with links }, s'), ?_⟩
      rw [readLinks, bind_of_ok hloop, bind_of_ok hmark]
      rfl
  rw [hread, hread, linkTurn_congr h, hlinks]

/-- Both ends of a link are components. -/
def LinkEnds (app : App) (l : Link) : Prop :=
  (∃ c, app.comps l.fromComp = some c) ∧ ∃ c, app.comps l.toComp = some c

theorem decodeLink_ends {l : Link} {r r' : List (BitVec 8)} (h : decodeLink app id r = .ok (l, r')) :
    LinkEnds app l := by
  obtain ⟨fromSlotId, _, -, h⟩ := bind_eq_ok.mp h
  obtain ⟨toCompId, _, -, h⟩ := bind_eq_ok.mp h
  obtain ⟨toSlotId, _, -, h⟩ := bind_eq_ok.mp h
  cases hsrc : app.lookup id with
  | none =>
    simp only [hsrc] at h
    cases h
  | some src =>
    cases hdst : app.lookup toCompId with
    | none =>
      simp only [hsrc, hdst] at h
      cases h
    | some dst =>
      simp only [hsrc, hdst] at h
      split at h
      · cases h
      split at h
      · cases h
      cases h
      exact ⟨⟨src, hsrc⟩, dst, hdst⟩

/-- **The links that are read.** -/
theorem readLinks_links {a : App} {r r' : List (BitVec 8)} (h : readLinks app r = .ok (a, r'))
    (hlinks : app.links = []) : a.comps = app.comps ∧ ∀ l ∈ a.links, LinkEnds app l := by
  obtain ⟨links, s, hloop, h⟩ := bind_eq_ok.mp h
  obtain ⟨mark, s', -, h⟩ := bind_eq_ok.mp h
  split at h
  · cases h
  cases h
  refine ⟨rfl, loop_ind (P := fun links => ∀ l ∈ links, LinkEnds app l)
    (Q := fun links => ∀ l ∈ links, LinkEnds app l) (fun links r x r' hkeep hx => ?_) ?_ hloop⟩
  · obtain ⟨id, _, -, hx⟩ := bind_eq_ok.mp hx
    split at hx
    · cases hx
      exact hkeep
    · obtain ⟨link, _, hlink, hx⟩ := bind_eq_ok.mp hx
      cases hx
      exact List.forall_mem_append.mpr ⟨hkeep, List.forall_mem_singleton.mpr (decodeLink_ends hlink)⟩
  · rw [hlinks]
    exact fun l hl => absurd hl List.not_mem_nil

end Sedona.Sab
