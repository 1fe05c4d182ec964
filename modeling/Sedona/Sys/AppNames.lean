import Sedona.Sys.AppStructure

/-!
# Names and Parents

What the calls that edit an application do to the names and the parents of its components. They
are written when a component is added and, for the app itself, by `initApp`; every other write
leaves them alone, so this needs no invariant.

## Main results

* `Call.run_names`: no call other than `initApp` and `add` gives a component a new name or parent.
* `add_names`: the one component that `add` may leave has the name and the parent it was given.
* `UniqueNames.of_adds`: names of siblings stay unique if a new name is not yet among them.
* `UniqueNames.path_unique`: and then a path of names leads to at most one component.
-/

namespace Sedona

open Function Fuel

variable {δ : Type}

namespace App

variable {a a' b : App δ} {c : Component} {r mem : Ref} {new new' : Str → ℕ → Prop}

/-! ### Writes that leave names alone -/

/-- Components keep their names and parents, and no id gets another component, except for one
component behind `mem`, whose name and parent are new. -/
structure Adds (a : App δ) (mem : Ref) (new : Str → ℕ → Prop) (a' : App δ) : Prop where
  lookup : ∀ i, a'.lookup i ≠ 0 → a'.lookup i = mem ∨ a'.lookup i = a.lookup i
  others : ∀ r c', a'.objs r = some c' → r ≠ mem →
    ∃ c, a.objs r = some c ∧ c'.name = c.name ∧ c'.parent = c.parent
  added : ∀ c', a'.objs mem = some c' → new c'.name c'.parent

/-- Components keep their names and parents, and no id gets another component. -/
structure SameNames (a a' : App δ) : Prop where
  lookup : ∀ i, a'.lookup i ≠ 0 → a'.lookup i = a.lookup i
  objs : ∀ r c', a'.objs r = some c' →
    ∃ c, a.objs r = some c ∧ c'.name = c.name ∧ c'.parent = c.parent

namespace SameNames

theorem refl (a : App δ) : SameNames a a := ⟨fun _ _ => rfl, fun _ c' h => ⟨c', h, rfl, rfl⟩⟩

theorem trans (h : SameNames a a') (h' : SameNames a' b) : SameNames a b := by
  refine ⟨fun i hi => ?_, fun r c' hc' => ?_⟩
  · have heq := h'.lookup i hi
    rw [heq]
    exact h.lookup i (heq ▸ hi)
  · obtain ⟨c₁, hc₁, hname₁, hpar₁⟩ := h'.objs r c' hc'
    obtain ⟨c₀, hc₀, hname₀, hpar₀⟩ := h.objs r c₁ hc₁
    exact ⟨c₀, hc₀, hname₁.trans hname₀, hpar₁.trans hpar₀⟩

theorem of_eq (hcomps : a'.comps = a.comps) (hobjs : a'.objs = a.objs) : SameNames a a' :=
  ⟨fun i _ => by rw [App.lookup, App.lookup, hcomps], fun _ c' h => ⟨c', hobjs ▸ h, rfl, rfl⟩⟩

theorem fired (h : Fired a a') : SameNames a a' := by
  obtain ⟨d, b, rfl⟩ := h
  exact of_eq rfl rfl

theorem write {f : Component → Component} (h : a.write r f = some a')
    (hf : ∀ c : Component, (f c).name = c.name ∧ (f c).parent = c.parent) : SameNames a a' := by
  obtain ⟨c, hc, rfl⟩ := Option.map_eq_some_iff.mp h
  refine ⟨fun _ _ => rfl, fun r' c' hc' => ?_⟩
  by_cases hr : r' = r
  · subst hr
    simp only [update_self, Option.some.injEq] at hc'
    subst hc'
    exact ⟨c, hc, (hf c).1, (hf c).2⟩
  · simp only [update_of_ne hr] at hc'
    exact ⟨c', hc', rfl, rfl⟩

theorem writeLink {f : Link → Link} (h : a.writeLink r f = some a') : SameNames a a' := by
  obtain ⟨l, -, rfl⟩ := Option.map_eq_some_iff.mp h
  exact of_eq rfl rfl

theorem delete (a : App δ) (r : Ref) : SameNames a (a.delete r) := by
  refine ⟨fun _ _ => rfl, fun r' c' hc' => ?_⟩
  by_cases hr : r' = r
  · subst hr
    simp [App.delete] at hc'
  · simp only [App.delete, update_of_ne hr] at hc'
    exact ⟨c', hc', rfl, rfl⟩

theorem withoutEntry (a : App δ) (id : ℕ) : SameNames a { a with comps := a.comps.set id 0 } := by
  refine ⟨fun i hi => ?_, fun _ c' h => ⟨c', h, rfl, rfl⟩⟩
  simp only [App.lookup, List.getD_eq_getElem?_getD, List.getElem?_set] at hi ⊢
  split at hi
  · split at hi <;> exact absurd rfl hi
  · rename_i hne
    rw [if_neg hne]

end SameNames

/-! ### Links -/

/-- The part of `unlink` behind the head of the list. -/
theorem unlinkRest_names {side : Side} {fuel : ℕ} {comp link next : Ref}
    (h : ((a.objs comp).bind fun c =>
      (a.linkWhere side (side.next · == link) fuel (side.head c)).bind fun x =>
        if x ≠ 0 then a.writeLink x (side.setNext next) else some a) = some a') :
    SameNames a a' := by
  simp only [Option.bind_eq_some_iff] at h
  obtain ⟨c, -, x, -, h⟩ := h
  split at h
  · exact SameNames.writeLink h
  · exact Option.some.inj h ▸ SameNames.refl a

theorem unlink_names {side : Side} {fuel : ℕ} {comp link : Ref}
    (h : unlink side fuel a comp link = some a') : SameNames a a' := by
  simp only [unlink, Option.bind_eq_bind] at h
  obtain ⟨l, -, h⟩ := Option.bind_eq_some_iff.mp h
  obtain ⟨c, -, h⟩ := Option.bind_eq_some_iff.mp h
  split at h
  · obtain ⟨b, hb, h⟩ := Option.bind_eq_some_iff.mp h
    refine (SameNames.write hb fun c => ?_).trans (unlinkRest_names h)
    cases side <;> exact ⟨rfl, rfl⟩
  · exact unlinkRest_names h

theorem restoreDefault_names {cb : Callbacks δ} {dst : Ref} {toSlot : Fin 256}
    (h : restoreDefault cb a dst toSlot = some a') : SameNames a a' := by
  obtain ⟨t, -, h⟩ := Option.bind_eq_some_iff.mp h
  cases hslot : t.type.slot toSlot with
  | none =>
      simp only [hslot, Option.some.injEq] at h
      exact h ▸ SameNames.refl a
  | some s =>
      simp only [hslot] at h
      split at h
      · obtain rfl := Option.some.inj h
        exact SameNames.fired (Fired.fire cb _ a)
      · obtain rfl := Option.some.inj h
        exact SameNames.refl a

theorem insertLink_names {ok : Bool} {link : Ref} (h : insertLink a link = some (ok, a')) :
    SameNames a a' := by
  simp only [insertLink, Option.bind_eq_bind, Option.bind_eq_some_iff] at h
  obtain ⟨l, -, h⟩ := h
  split at h
  · obtain ⟨-, rfl⟩ := Prod.mk.inj (Option.some.inj h)
    exact SameNames.refl a
  · simp only [Option.bind_eq_some_iff] at h
    obtain ⟨target, -, a₁, h₁, a₂, h₂, h⟩ := h
    have hto : SameNames a a₂ :=
      (SameNames.writeLink h₁).trans (SameNames.write h₂ fun _ => ⟨rfl, rfl⟩)
    split at h
    · simp only [Option.bind_eq_some_iff] at h
      obtain ⟨obj, -, a₃, h₃, a₄, h₄, h⟩ := h
      obtain ⟨-, rfl⟩ := Prod.mk.inj (Option.some.inj h)
      exact hto.trans ((SameNames.writeLink h₃).trans (SameNames.write h₄ fun _ => ⟨rfl, rfl⟩))
    · obtain ⟨-, rfl⟩ := Prod.mk.inj (Option.some.inj h)
      exact hto

theorem addLink_names {cb : Callbacks δ} {fuel : ℕ} {src dst res : Ref} {fromSlot toSlot : Slot}
    (h : addLink cb fuel a mem src fromSlot dst toSlot = some (res, a')) : SameNames a a' := by
  have hsame : ∀ {x : Ref × App δ} {k : Ref}, some (k, a) = some x → SameNames a x.2 := by
    rintro x k hx
    rw [← Option.some.inj hx]
    exact SameNames.refl a
  unfold addLink at h
  split at h
  · exact hsame h
  · simp only [Option.bind_eq_bind, Option.bind_eq_some_iff] at h
    obtain ⟨f, -, t, -, dup, -, h⟩ := h
    split at h
    · exact hsame h
    · obtain ⟨fanIn, -, h⟩ := Option.bind_eq_some_iff.mp h
      split at h
      · exact hsame h
      · split at h
        · simp at h
        · obtain ⟨⟨ok, b⟩, hins, h⟩ := Option.bind_eq_some_iff.mp h
          obtain ⟨-, rfl⟩ := Prod.mk.inj (Option.some.inj h)
          have hput : SameNames a { a with links := update a.links mem (some
              { fromComp := f.id, fromSlot := fromSlot.id, toComp := t.id,
                toSlot := toSlot.id }) } := SameNames.of_eq rfl rfl
          exact (hput.trans (insertLink_names hins)).trans (SameNames.fired
            ((Fired.whenRunning cb _ b).trans (Fired.fireAll cb _ _)))

theorem removeLink_names {cb : Callbacks δ} {fuel : ℕ} {link : Ref} {ok : Bool}
    (h : removeLink cb fuel a link = some (ok, a')) : SameNames a a' := by
  simp only [removeLink] at h
  split at h
  · obtain ⟨-, rfl⟩ := Prod.mk.inj (Option.some.inj h)
    exact SameNames.refl a
  · simp only [Option.bind_eq_bind, Option.bind_eq_some_iff] at h
    obtain ⟨l, -, a₁, h₁, l', -, a₂, h₂, h⟩ := h
    obtain ⟨-, rfl⟩ := Prod.mk.inj (Option.some.inj h)
    have hfrom : SameNames a a₁ := by
      unfold removeLinkFrom at h₁
      split at h₁
      · exact unlink_names h₁
      · exact Option.some.inj h₁ ▸ SameNames.refl a
    have hto : SameNames a₁ a₂ := by
      unfold removeLinkTo at h₂
      split at h₂
      · obtain ⟨b, hb, h₂⟩ := Option.bind_eq_some_iff.mp h₂
        exact (unlink_names hb).trans (restoreDefault_names h₂)
      · exact Option.some.inj h₂ ▸ SameNames.refl a₁
    exact ((hfrom.trans hto).trans (SameNames.fired
      ((Fired.whenRunning cb _ a₂).trans (Fired.fireAll cb _ _)))).trans (SameNames.of_eq rfl rfl)

/-! ### Removing components -/

theorem removeLinks_names {cb : Callbacks δ} {fuel n : ℕ} {side : Side} {link : Ref}
    (h : removeLinks cb fuel side n a link = some a') : SameNames a a' := by
  induction n generalizing a link with
  | zero => simp [removeLinks] at h
  | succ n ih =>
      rw [removeLinks] at h
      split at h
      · exact Option.some.inj h ▸ SameNames.refl a
      · simp only [Option.bind_eq_bind, Option.bind_eq_some_iff] at h
        obtain ⟨l, -, ⟨ok, b⟩, hb, h⟩ := h
        exact (removeLink_names hb).trans (ih h)

theorem unlinkService_names {fuel : ℕ} {s : Ref} {ok : Bool}
    (h : unlinkService fuel a s = some (ok, a')) : SameNames a a' := by
  simp only [unlinkService, Option.bind_eq_bind, Option.bind_eq_some_iff] at h
  obtain ⟨obj, -, h⟩ := h
  split at h
  · obtain ⟨-, rfl⟩ := Prod.mk.inj (Option.some.inj h)
    exact SameNames.of_eq rfl rfl
  · obtain ⟨prev, -, h⟩ := Option.bind_eq_some_iff.mp h
    split at h
    · obtain ⟨-, rfl⟩ := Prod.mk.inj (Option.some.inj h)
      exact SameNames.refl a
    · obtain ⟨b, hb, h⟩ := Option.bind_eq_some_iff.mp h
      obtain ⟨-, rfl⟩ := Prod.mk.inj (Option.some.inj h)
      exact SameNames.write hb fun _ => ⟨rfl, rfl⟩

theorem unlinkChild_names {fuel id : ℕ} {parent child : Ref} {ok : Bool}
    (h : unlinkChild fuel a parent id child = some (ok, a')) : SameNames a a' := by
  simp only [unlinkChild, Option.bind_eq_bind, Option.bind_eq_some_iff] at h
  obtain ⟨obj, -, p, -, h⟩ := h
  split at h
  · obtain ⟨b, hb, h⟩ := Option.bind_eq_some_iff.mp h
    obtain ⟨-, rfl⟩ := Prod.mk.inj (Option.some.inj h)
    exact SameNames.write hb fun _ => ⟨rfl, rfl⟩
  · obtain ⟨prev, -, h⟩ := Option.bind_eq_some_iff.mp h
    split at h
    · obtain ⟨-, rfl⟩ := Prod.mk.inj (Option.some.inj h)
      exact SameNames.refl a
    · obtain ⟨b, hb, h⟩ := Option.bind_eq_some_iff.mp h
      obtain ⟨-, rfl⟩ := Prod.mk.inj (Option.some.inj h)
      exact SameNames.write hb fun _ => ⟨rfl, rfl⟩

/-- The part of `removeLeaf` behind the services. -/
theorem removeLeafRest_names {cb : Callbacks δ} {fuel id : ℕ} {parent : Ref} {ok w : Bool}
    (h : (if (!w) = true then some (false, a) else
      (unlinkChild fuel a parent id r).bind fun x =>
        if (!x.1) = true then some (false, x.2) else
          (x.2.objs r).bind fun c => (removeLinks cb fuel .outOf fuel x.2 c.linksFrom).bind fun a =>
            (a.objs r).bind fun c => (removeLinks cb fuel .into fuel a c.linksTo).bind fun a =>
              some (true, ((a.whenRunning cb [.childEvent false parent r,
                .parentEvent false r parent]).fire cb (.fireTreeChanged parent)).delete r)) =
      some (ok, a')) : SameNames a a' := by
  split at h
  · obtain ⟨-, rfl⟩ := Prod.mk.inj (Option.some.inj h)
    exact SameNames.refl a
  · obtain ⟨⟨ok₁, a₁⟩, h₁, h⟩ := Option.bind_eq_some_iff.mp h
    have hchild : SameNames a a₁ := unlinkChild_names h₁
    split at h
    · obtain ⟨-, rfl⟩ := Prod.mk.inj (Option.some.inj h)
      exact hchild
    · simp only [Option.bind_eq_some_iff] at h
      obtain ⟨c₁, -, a₂, h₂, c₂, -, a₃, h₃, h⟩ := h
      obtain ⟨-, rfl⟩ := Prod.mk.inj (Option.some.inj h)
      have hlinks := hchild.trans ((removeLinks_names h₂).trans (removeLinks_names h₃))
      exact hlinks.trans ((SameNames.fired
        ((Fired.whenRunning cb _ a₃).trans (Fired.fire cb _ _))).trans (SameNames.delete _ r))

theorem removeLeaf_names {cb : Callbacks δ} {fuel id : ℕ} {parent : Ref} {ok : Bool}
    (h : removeLeaf cb fuel a id r parent = some (ok, a')) : SameNames a a' := by
  simp only [removeLeaf, Option.bind_eq_bind] at h
  obtain ⟨obj, -, h⟩ := Option.bind_eq_some_iff.mp h
  refine (SameNames.withoutEntry a id).trans ?_
  split at h
  · obtain ⟨⟨ok₁, a₁⟩, h₁, h⟩ := Option.bind_eq_some_iff.mp h
    exact (unlinkService_names h₁).trans (removeLeafRest_names h)
  · exact removeLeafRest_names (w := true) h

theorem removeKids_names {rm : App δ → Ref → Option (Bool × App δ)} {n : ℕ} {kid : Ref}
    (hrm : ∀ {b b' : App δ} {k ok}, rm b k = some (ok, b') → SameNames b b')
    (h : removeKids rm n a kid = some a') : SameNames a a' := by
  induction n generalizing a kid with
  | zero => simp [removeKids] at h
  | succ n ih =>
      rw [removeKids] at h
      split at h
      · exact Option.some.inj h ▸ SameNames.refl a
      · simp only [Option.bind_eq_bind, Option.bind_eq_some_iff] at h
        obtain ⟨k, -, ⟨ok, b⟩, hb, h⟩ := h
        exact (hrm hb).trans (ih h)

theorem remove_names {cb : Callbacks δ} {fuel : ℕ} {ok : Bool}
    (h : remove cb fuel a r = some (ok, a')) : SameNames a a' := by
  induction fuel generalizing a a' r ok with
  | zero => simp [remove] at h
  | succ fuel ih =>
      have hsame : ∀ {b : App δ} {ok' : Bool}, some (ok', b) = some (ok, a') → a' = b := by
        intro b ok' hx
        exact (Prod.mk.inj (Option.some.inj hx)).2.symm
      rw [remove] at h
      split at h
      · exact hsame h ▸ SameNames.refl a
      simp only [Option.bind_eq_bind, Option.bind_eq_some_iff] at h
      obtain ⟨obj, -, h⟩ := h
      split at h
      · exact hsame h ▸ SameNames.refl a
      split at h
      · exact hsame h ▸ SameNames.refl a
      simp only [Option.bind_eq_some_iff] at h
      obtain ⟨c, -, b, hkids, h⟩ := h
      have hstop : SameNames a (a.whenRunning cb [.stop r]) :=
        SameNames.fired (Fired.whenRunning cb _ a)
      exact hstop.trans ((removeKids_names ih hkids).trans (removeLeaf_names h))

/-! ### Adding components -/

namespace Adds

theorem before (h : SameNames a b) (h' : Adds b mem new a') : Adds a mem new a' := by
  refine ⟨fun i hi => ?_, fun r c' hc' hr => ?_, h'.added⟩
  · rcases h'.lookup i hi with heq | heq
    · exact Or.inl heq
    · exact Or.inr (heq.trans (h.lookup i (heq ▸ hi)))
  · obtain ⟨c₁, hc₁, hname₁, hpar₁⟩ := h'.others r c' hc' hr
    obtain ⟨c₀, hc₀, hname₀, hpar₀⟩ := h.objs r c₁ hc₁
    exact ⟨c₀, hc₀, hname₁.trans hname₀, hpar₁.trans hpar₀⟩

theorem after (h : Adds a mem new b) (h' : SameNames b a') : Adds a mem new a' := by
  refine ⟨fun i hi => ?_, fun r c' hc' hr => ?_, fun c' hc' => ?_⟩
  · have heq := h'.lookup i hi
    rw [heq]
    exact h.lookup i (heq ▸ hi)
  · obtain ⟨c₁, hc₁, hname₁, hpar₁⟩ := h'.objs r c' hc'
    obtain ⟨c₀, hc₀, hname₀, hpar₀⟩ := h.others r c₁ hc₁ hr
    exact ⟨c₀, hc₀, hname₁.trans hname₀, hpar₁.trans hpar₀⟩
  · obtain ⟨c₁, hc₁, hname₁, hpar₁⟩ := h'.objs mem c' hc'
    rw [hname₁, hpar₁]
    exact h.added c₁ hc₁

/-- A write to the component itself. -/
theorem write {f : Component → Component} (h : Adds a mem new b) (hw : b.write mem f = some a')
    (hf : ∀ c, new c.name c.parent → new' (f c).name (f c).parent) : Adds a mem new' a' := by
  obtain ⟨c, hc, rfl⟩ := Option.map_eq_some_iff.mp hw
  refine ⟨h.lookup, fun r c' hc' hr => ?_, fun c' hc' => ?_⟩
  · simp only [update_of_ne hr] at hc'
    exact h.others r c' hc' hr
  · simp only [update_self, Option.some.injEq] at hc'
    exact hc' ▸ hf c (h.added c hc)

/-- A write that names the component. -/
theorem ofWrite {f : Component → Component} (hw : a.write mem f = some a')
    (hf : ∀ c : Component, new (f c).name (f c).parent) : Adds a mem new a' := by
  obtain ⟨c, hc, rfl⟩ := Option.map_eq_some_iff.mp hw
  refine ⟨fun _ _ => Or.inr rfl, fun r c' hc' hr => ?_, fun c' hc' => ?_⟩
  · simp only [update_of_ne hr] at hc'
    exact ⟨c', hc', rfl, rfl⟩
  · simp only [update_self, Option.some.injEq] at hc'
    exact hc' ▸ hf c

/-- A new component behind `mem`. -/
theorem put (a : App δ) (hnew : new c.name c.parent) : Adds a mem new (a.put mem c) := by
  refine ⟨fun _ _ => Or.inr rfl, fun r c' hc' hr => ?_, fun c' hc' => ?_⟩
  · rw [put_objs_of_ne hr] at hc'
    exact ⟨c', hc', rfl, rfl⟩
  · rw [put_objs_self, Option.some.injEq] at hc'
    exact hc' ▸ hnew

/-- The component gets an entry in the table. -/
theorem entry (h : Adds a mem new b) (id : ℕ) :
    Adds a mem new { b with comps := b.comps.set id mem } := by
  refine ⟨fun i hi => ?_, h.others, h.added⟩
  by_cases hlt : i = id ∧ id < b.comps.length
  · obtain ⟨rfl, hlen⟩ := hlt
    exact Or.inl (by simp [App.lookup, List.getD_eq_getElem?_getD, hlen])
  · have hsame : ({ b with comps := b.comps.set id mem } : App δ).lookup i = b.lookup i := by
      simp only [App.lookup, List.getD_eq_getElem?_getD, List.getElem?_set]
      by_cases hi : id = i
      · subst hi
        have hlen : ¬ id < b.comps.length := fun hlen => hlt ⟨rfl, hlen⟩
        simp [hlen]
      · rw [if_neg hi]
    rw [hsame] at hi ⊢
    exact h.lookup i hi

end Adds

/-- Entering a component into the table does not change its name or parent. -/
theorem insert_names {id : ℕ} {ok : Bool} (h : Adds a mem new b)
    (hins : b.insert id mem = some (ok, a')) : Adds a mem new a' := by
  simp only [App.insert] at hins
  split at hins
  · obtain ⟨-, rfl⟩ := Prod.mk.inj (Option.some.inj hins)
    exact h
  split at hins
  · obtain ⟨-, rfl⟩ := Prod.mk.inj (Option.some.inj hins)
    exact h
  simp only [Option.bind_eq_bind, Option.bind_eq_some_iff] at hins
  obtain ⟨b₁, h₁, obj, -, hins⟩ := hins
  have hentry := (h.write h₁ fun _ hc => hc).entry id
  split at hins
  · obtain ⟨b₂, h₂, hins⟩ := Option.bind_eq_some_iff.mp hins
    obtain ⟨-, rfl⟩ := Prod.mk.inj (Option.some.inj hins)
    exact (hentry.write h₂ fun _ hc => hc).after (SameNames.of_eq rfl rfl)
  · obtain ⟨-, rfl⟩ := Prod.mk.inj (Option.some.inj hins)
    exact hentry

/-- Linking the component as a child gives it its parent. -/
theorem linkChild_names {fuel id : ℕ} {parent : Ref} {p : Component} {ok : Bool}
    (h : Adds a mem new b) (hp : b.objs parent = some p)
    (hlink : linkChild fuel b parent id mem = some (ok, a'))
    (hnew : ∀ name par, new name par → new' name p.id) : Adds a mem new' a' := by
  simp only [linkChild, hp, Option.bind_eq_bind, Option.bind_some, Option.bind_eq_some_iff] at hlink
  obtain ⟨b₁, h₁, q, -, hlink⟩ := hlink
  have hpar : Adds a mem new' b₁ := h.write h₁ fun c hc => hnew _ _ hc
  split at hlink
  · obtain ⟨b₂, h₂, hlink⟩ := Option.bind_eq_some_iff.mp hlink
    obtain ⟨-, rfl⟩ := Prod.mk.inj (Option.some.inj hlink)
    exact hpar.after (SameNames.write h₂ fun _ => ⟨rfl, rfl⟩)
  · obtain ⟨x, -, hlink⟩ := Option.bind_eq_some_iff.mp hlink
    split at hlink
    · obtain ⟨-, rfl⟩ := Prod.mk.inj (Option.some.inj hlink)
      exact hpar
    · obtain ⟨b₂, h₂, hlink⟩ := Option.bind_eq_some_iff.mp hlink
      obtain ⟨-, rfl⟩ := Prod.mk.inj (Option.some.inj hlink)
      exact hpar.after (SameNames.write h₂ fun _ => ⟨rfl, rfl⟩)

/-- Entering a component into the table writes to no other component. -/
theorem insert_others {id : ℕ} {ok : Bool} (hins : b.insert id mem = some (ok, a')) (hr : r ≠ mem) :
    a'.objs r = b.objs r := by
  have hwrite : ∀ {b b' : App δ} {f : Component → Component}, b.write mem f = some b' →
      b'.objs r = b.objs r := by
    intro b b' f h
    obtain ⟨c, -, rfl⟩ := Option.map_eq_some_iff.mp h
    exact update_of_ne hr _ _
  simp only [App.insert] at hins
  split at hins
  · obtain ⟨-, rfl⟩ := Prod.mk.inj (Option.some.inj hins)
    rfl
  split at hins
  · obtain ⟨-, rfl⟩ := Prod.mk.inj (Option.some.inj hins)
    rfl
  simp only [Option.bind_eq_bind, Option.bind_eq_some_iff] at hins
  obtain ⟨b₁, h₁, obj, -, hins⟩ := hins
  have hold : b₁.objs r = b.objs r := hwrite h₁
  split at hins
  · obtain ⟨b₂, h₂, hins⟩ := Option.bind_eq_some_iff.mp hins
    obtain ⟨-, rfl⟩ := Prod.mk.inj (Option.some.inj hins)
    exact (hwrite h₂).trans hold
  · obtain ⟨-, rfl⟩ := Prod.mk.inj (Option.some.inj hins)
    exact hold

/-- **What `add` leaves**: nothing new, or a component with the given name, cut to seven
characters, under the given parent; then no sibling has the name as it was given. -/
theorem add_names {cb : Callbacks δ} {ok : Bool} {name : Str} {t : CompType} {pid : ℕ} {res : Ref}
    (h : a.Inv) (hp : a.lookup pid ≠ 0) (hmem : mem = 0 ∨ a.objs mem = none)
    (hcount : a.count < nullId)
    (hrun : Returns (fun fuel => add cb fuel a ok mem (a.lookup pid) name t) (res, a')) :
    SameNames a a' ∨
      (∀ k m, a.node k = some m → m.parent = pid → m.name ≠ name) ∧
        Adds a mem (fun n par => n = name.take (nameLen - 1) ∧ par = pid) a' := by
  obtain ⟨p, hp, hpid⟩ := h.table.exists_comp hp
  have hobj : a.objs (a.lookup pid) = some p := hp
  obtain ⟨l, hl⟩ := h.tree.kids pid p.toNode (node_eq_some.mpr ⟨p, hp, rfl⟩)
  obtain ⟨sibling, hwalk, hends⟩ :=
    siblingWhere_spec h.table h.lookup_nullId hl.chain (·.name == name)
  obtain ⟨n, hn⟩ := hrun
  have hadd := hn (max n (l.length + 1)) (le_max_left _ _)
  have hw := hwalk (max n (l.length + 1)) (lt_max_of_lt_right (Nat.lt_succ_self _))
  simp only [App.add, if_neg (h.table.lookup_ne hp), hobj, hw, Option.bind_eq_bind,
    Option.bind_some] at hadd
  split at hadd
  · obtain ⟨-, rfl⟩ := Prod.mk.inj (Option.some.inj hadd)
    exact Or.inl (SameNames.refl a)
  rename_i hsame
  obtain ⟨a₁, halloc, -, hlookup₁, hobjs₁⟩ := allocCompId_spec h hcount ok
  have hgrown : SameNames a a₁ :=
    ⟨fun i _ => congrFun hlookup₁ i, fun _ c' hc' => ⟨c', hobjs₁ ▸ hc', rfl, rfl⟩⟩
  rcases halloc with halloc | ⟨id, halloc, -, -, -⟩
  · simp only [halloc, Option.some.injEq, Prod.mk.injEq] at hadd
    exact Or.inl (hadd.2 ▸ hgrown)
  simp only [halloc] at hadd
  split at hadd
  · obtain ⟨-, rfl⟩ := Prod.mk.inj (Option.some.inj hadd)
    exact Or.inl hgrown
  rename_i hmem0
  have hnone := hmem.resolve_left hmem0
  refine Or.inr ⟨fun k m hk hpar hname => ?_, ?_⟩
  · -- the loop along the siblings passed every child
    obtain ⟨c, hc, rfl⟩ := node_eq_some.mp hk
    have hmemk : k ∈ l := (hl.mem k).mpr ⟨_, hk, hpar⟩
    cases hends with
    | atEnd hr hnone => exact absurd (hnone k hmemk c hc) (by simp [hname])
    | atNode l₁ l₂ v hl' hv hstop hbefore =>
        exact hsame (h.table.lookup_ne hv)
  have hne : a.lookup pid ≠ mem := by
    intro heq
    rw [heq, hnone] at hobj
    exact Option.some_ne_none p hobj.symm
  have hput : Adds a mem (fun n _ => n = name.take (nameLen - 1))
      (a₁.put mem { type := t, name := name.take (nameLen - 1) }) :=
    (Adds.put a₁ rfl).before hgrown
  simp only [Option.bind_eq_some_iff] at hadd
  obtain ⟨⟨inserted, b⟩, hins, hadd⟩ := hadd
  have hb := insert_names hput hins
  have hpobj : b.objs (a.lookup pid) = some p := by
    rw [insert_others hins hne]
    exact (update_of_ne hne _ _).trans (hobjs₁ ▸ hobj)
  split at hadd
  · obtain ⟨-, rfl⟩ := Prod.mk.inj (Option.some.inj hadd)
    have hgone := hb.after (SameNames.delete b mem)
    exact ⟨hgone.lookup, hgone.others, fun c' hc' => by simp [App.delete] at hc'⟩
  obtain ⟨⟨linked, b'⟩, hlink, hadd⟩ := Option.bind_eq_some_iff.mp hadd
  have hb' : Adds a mem (fun n par => n = name.take (nameLen - 1) ∧ par = pid) b' :=
    linkChild_names hb hpobj hlink fun _ _ hname => ⟨hname, hpid⟩
  split at hadd
  · obtain ⟨-, rfl⟩ := Prod.mk.inj (Option.some.inj hadd)
    exact hb'.after (SameNames.delete b' mem)
  · obtain ⟨-, rfl⟩ := Prod.mk.inj (Option.some.inj hadd)
    exact hb'.after (SameNames.fired
      ((Fired.whenRunning cb _ b').trans (Fired.fire cb _ _)))

/-- `initApp` names the app. -/
theorem initApp_names {ok res : Bool} {n : ℕ} (h : a.initApp ok n = some (res, a')) :
    Adds a a.self (fun _ par => par = nullId) a' := by
  simp only [App.initApp, Option.bind_eq_bind, Option.bind_eq_some_iff] at h
  obtain ⟨b, hb, h⟩ := h
  have hself : b.self = a.self := by
    obtain ⟨c, -, rfl⟩ := Option.map_eq_some_iff.mp hb
    rfl
  have hroot : Adds a a.self (fun _ par => par = nullId) b := Adds.ofWrite hb fun _ => rfl
  rw [← hself] at hroot ⊢
  -- the table grows behind its end, if at all
  obtain ⟨fits, b', hcap, hgrown⟩ : ∃ fits b', b.ensureCompsCapacity ok n = (fits, b') ∧
      b'.self = b.self ∧ SameNames b b' := by
    unfold ensureCompsCapacity
    split
    · exact ⟨true, b, rfl, rfl, SameNames.refl b⟩
    split
    · exact ⟨false, b, rfl, rfl, SameNames.refl b⟩
    · refine ⟨true, _, rfl, rfl, fun i _ => lookup_append_replicate b _ i, ?_⟩
      exact fun _ c' hc' => ⟨c', hc', rfl, rfl⟩
  rw [hcap] at h
  have hall := hroot.after hgrown.2
  split at h
  · obtain ⟨-, rfl⟩ := Prod.mk.inj (Option.some.inj h)
    exact hall
  split at h
  · simp at h
  · obtain ⟨-, rfl⟩ := Prod.mk.inj (Option.some.inj h)
    have hentry := hall.entry 0
    rwa [← hgrown.1] at hentry ⊢

/-! ### Unique names -/

/-- No two children of the same parent have equal names. -/
def UniqueNames (a : App δ) : Prop :=
  ∀ i j m n, a.node i = some m → a.node j = some n → m.parent = n.parent → m.parent ≠ nullId →
    m.name = n.name → i = j

/-- A component of the table behind `r`. -/
theorem Inv.node_cases (h : a'.Inv) {i : ℕ} {m : Node} (hm : a'.node i = some m) :
    ∃ c, a'.objs (a'.lookup i) = some c ∧ c.toNode = m ∧ a'.lookup i ≠ 0 := by
  obtain ⟨c, hc, rfl⟩ := node_eq_some.mp hm
  exact ⟨c, hc, rfl, h.table.lookup_ne hc⟩

/-- **Names stay unique** if a new one is not yet the name of another component under its
parent. -/
theorem UniqueNames.of_adds (hu : a.UniqueNames) (hinv : a'.Inv) (h : Adds a mem new a')
    (hnew : ∀ name par k m, new name par → par ≠ nullId → a.node k = some m → a.lookup k ≠ mem →
      m.parent = par → m.name ≠ name) : a'.UniqueNames := by
  -- a component of the result is the new one, or one that was there under the same id
  have hcases : ∀ i m, a'.node i = some m → (a'.lookup i = mem ∧ new m.name m.parent) ∨
      (a'.lookup i ≠ mem ∧ a.lookup i ≠ mem ∧
        ∃ m₀, a.node i = some m₀ ∧ m.name = m₀.name ∧ m.parent = m₀.parent) := by
    intro i m hm
    obtain ⟨c, hc, rfl⟩ := node_eq_some.mp hm
    have hi := hinv.table.lookup_ne hc
    by_cases hmem : a'.lookup i = mem
    · exact Or.inl ⟨hmem, h.added c (hmem ▸ hc)⟩
    · have hold := (h.lookup i hi).resolve_left hmem
      obtain ⟨c₀, hc₀, hname, hpar⟩ := h.others _ c hc hmem
      rw [hold] at hmem hc₀
      exact Or.inr ⟨hold ▸ hmem, hmem, c₀.toNode, node_eq_some.mpr ⟨c₀, hc₀, rfl⟩, hname, hpar⟩
  intro i j m n hi hj hpar hroot hname
  have hlive : ∀ k m, a'.node k = some m → a'.lookup k ≠ 0 :=
    fun k m hk => hinv.table.lookup_of_node hk
  rcases hcases i m hi with ⟨himem, hinew⟩ | ⟨-, himem, m₀, him₀, hin, hip⟩
  · rcases hcases j n hj with ⟨hjmem, -⟩ | ⟨-, hjmem, n₀, hjn₀, hjn, hjp⟩
    · exact hinv.table.inj (hlive i m hi) (himem.trans hjmem.symm)
    · exact absurd (hjn.symm.trans hname.symm)
        (hnew _ _ j n₀ hinew hroot hjn₀ hjmem (hjp.symm.trans hpar.symm))
  · rcases hcases j n hj with ⟨hjmem, hjnew⟩ | ⟨-, hjmem, n₀, hjn₀, hjn, hjp⟩
    · exact absurd (hin.symm.trans hname)
        (hnew _ _ i m₀ hjnew (hpar ▸ hroot) him₀ himem (hip.symm.trans hpar))
    · exact hu i j m₀ n₀ him₀ hjn₀ (hip.symm.trans (hpar.trans hjp)) (hip ▸ hroot)
        (hin.symm.trans (hname.trans hjn))

theorem UniqueNames.of_sameNames (hu : a.UniqueNames) (hinv : a'.Inv) (h : SameNames a a') :
    a'.UniqueNames := by
  have hnode : ∀ i m, a'.node i = some m →
      ∃ m₀, a.node i = some m₀ ∧ m.name = m₀.name ∧ m.parent = m₀.parent := by
    intro i m hm
    obtain ⟨c, hc, rfl⟩ := node_eq_some.mp hm
    obtain ⟨c₀, hc₀, hname, hpar⟩ := h.objs _ c hc
    rw [h.lookup i (hinv.table.lookup_ne hc)] at hc₀
    exact ⟨c₀.toNode, node_eq_some.mpr ⟨c₀, hc₀, rfl⟩, hname, hpar⟩
  intro i j m n hi hj hpar hroot hname
  obtain ⟨m₀, hm₀, hmn, hmp⟩ := hnode i m hi
  obtain ⟨n₀, hn₀, hnn, hnp⟩ := hnode j n hj
  exact hu i j m₀ n₀ hm₀ hn₀ (hmp.symm.trans (hpar.trans hnp)) (hmp ▸ hroot)
    (hmn.symm.trans (hname.trans hnn))

/-- The condition on a call under which names stay unique: a name that `add` cuts is, after the
cut, not yet the name of a child. -/
def KeepsNames (a : App δ) : Call δ → Prop
  | .add _ _ parent name _ => name.length < nameLen ∨
      ∀ k m, a.node k = some m → m.parent = parent → m.name ≠ name.take (nameLen - 1)
  | _ => True

/-- A fresh application has no names. -/
theorem Fresh.uniqueNames (h : a.Fresh) : a.UniqueNames := by
  intro i j m n hi
  rw [node, comp, h.lookup, h.null] at hi
  simp at hi

/-- **One call** keeps the names of siblings unique. -/
theorem UniqueNames.step (hu : a.UniqueNames) (h : a.Fresh ∨ a.Inv) (hinv : a'.Inv)
    {cb : Callbacks δ} {call : Call δ} (hkeeps : a.KeepsNames call)
    (hstep : (editing cb).step a call a') : a'.UniqueNames := by
  obtain ⟨hvalid, hrun⟩ := hstep
  have hsame : ∀ {β : Type} {run : ℕ → Option (β × App δ)},
      Returns (fun fuel => (run fuel).map (·.2)) a' →
      ∃ n b, run n = some (b, a') := by
    rintro β run ⟨n, hn⟩
    obtain ⟨⟨b, b'⟩, hb, rfl⟩ := Option.map_eq_some_iff.mp (hn n le_rfl)
    exact ⟨n, b, hb⟩
  cases call with
  | initApp ok n =>
      obtain ⟨-, b, hb⟩ := hsame hrun
      refine hu.of_adds hinv (initApp_names hb) fun name par k m hpar hroot => ?_
      exact absurd hpar hroot
  | add ok mem parent name t =>
      obtain ⟨n, b, hb⟩ := hsame hrun
      rcases h with h | h
      · rw [h.lookup, add_refused, Option.some.injEq, Prod.mk.injEq] at hb
        exact hb.2 ▸ h.uniqueNames
      by_cases hp : a.lookup parent = 0
      · rw [hp, add_refused, Option.some.injEq, Prod.mk.injEq] at hb
        exact hb.2 ▸ hu
      obtain ⟨p, hpc, -⟩ := h.table.exists_comp hp
      obtain ⟨res, b', hrun', -⟩ := h.add cb ok name t hpc hvalid.1 hvalid.2
      obtain ⟨n', hn'⟩ := hrun'
      obtain rfl : b' = a' := by
        obtain ⟨n, hn⟩ := hrun
        have hadd := hn (max n n') (le_max_left _ _)
        simp only [Call.run, hn' _ (le_max_right _ _), Option.map_some, Option.some.injEq] at hadd
        exact hadd
      rcases add_names h hp hvalid.1 hvalid.2 ⟨n', hn'⟩ with hnames | ⟨hfree, hadds⟩
      · exact hu.of_sameNames hinv hnames
      · refine hu.of_adds hinv hadds ?_
        rintro _ par k m ⟨rfl, rfl⟩ - hk - hpar
        rcases hkeeps with hshort | hcut
        · rw [List.take_of_length_le (Nat.le_sub_one_of_lt hshort)]
          exact hfree k m hk hpar
        · exact hcut k m hk hpar
  | addLink mem src fromSlot dst toSlot =>
      obtain ⟨n, b, hb⟩ := hsame hrun
      exact hu.of_sameNames hinv (addLink_names hb)
  | removeLink link =>
      obtain ⟨n, b, hb⟩ := hsame hrun
      exact hu.of_sameNames hinv (removeLink_names hb)
  | remove c =>
      obtain ⟨n, b, hb⟩ := hsame hrun
      exact hu.of_sameNames hinv (remove_names hb)
  | other data running =>
      obtain ⟨n, hn⟩ := hrun
      obtain rfl := Option.some.inj (hn n le_rfl)
      exact hu.of_sameNames hinv (SameNames.of_eq rfl rfl)

/-! ### Paths -/

/-- The names on the way from a component up to the app. -/
inductive HasPath (node : ℕ → Option Node) : ℕ → List Str → Prop
  | root : HasPath node 0 []
  | child {k : ℕ} {n : Node} {path : List Str} :
      node k = some n → HasPath node n.parent path → HasPath node k (n.name :: path)

/-- **A path leads to at most one component.** -/
theorem UniqueNames.path_unique (hu : a.UniqueNames) (h : a.Fresh ∨ a.Inv) {i j : ℕ}
    {path : List Str} (hi : HasPath a.node i path) (hj : HasPath a.node j path) : i = j := by
  have hlive : ∀ k p, HasPath a.node k p → k ≠ nullId := by
    intro k p hk
    cases hk with
    | root => decide
    | child hn =>
        rintro rfl
        rcases h with h | h
        · simp [node, comp, h.lookup, h.null] at hn
        · exact h.table.lookup_of_node hn h.lookup_nullId
  induction hi generalizing j with
  | root =>
      cases hj with
      | root => rfl
  | @child k n p hk hp ih =>
      generalize hq : n.name :: p = q at hj
      cases hj with
      | root => simp at hq
      | @child _ m q hm hmq =>
          obtain ⟨hname, rfl⟩ := List.cons.inj hq
          exact hu k j n m hk hm (ih hmq) (hlive _ _ hp) hname

end App

end Sedona
