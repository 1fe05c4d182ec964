import Sedona.Sys.AppAdd
import Sedona.Sys.AppSave

/-!
# What Is Loaded

`loadApp` on the parts of an app file, each from the state the parts before it leave.

## Main results

* `decodes_loadSchema`: the runtime that saved the file is recognised.
* `decodes_loadAppComp`: a component gets its saved fields and property values.
* `Loading.comps`, `LoadingLinks.links`: the loops over the components and over the links.
-/

namespace Sedona

open Function Intrusive Decoding OutStream InStream

namespace App

variable {a b : App Props} {c obj : Component} {r k : Ref} {id n : ℕ}
  {values : (s : Slot) → Value s.type}

/-! ### The schema -/

/-- The kits of a runtime: at most 255 with their indices as ids, names without a zero, and at
most 255 types each. -/
structure Scode (kits : List Kit) : Prop where
  length_lt : kits.length < 256
  ids : ∀ (i : ℕ) (kit : Kit), kits[i]? = some kit → kit.id = i
  names : ∀ kit ∈ kits, 0 ∉ kit.name
  types : ∀ kit ∈ kits, kit.types.length < 256

theorem decodes_readKit {kit : Kit} (temp : Str) (hname : 0 ∉ kit.name ∧ kit.name.length < tempLen) :
    Decodes (readKit temp) (writeStr kit.name ++ writeI4 kit.checksum)
      (some (kit.name, kit.checksum)) := by
  refine (decodes_readStr temp hname.1 hname.2).bind ?_
  have hread : Decodes (m := Option) (readS4 >>= fun checksum =>
      pure (some (kit.name, checksum))) (writeI4 kit.checksum ++ []) _ :=
    (decodes_readS4 kit.checksum).bind (Decodes.pure (some (kit.name, kit.checksum)))
  rw [List.append_nil] at hread
  exact hread

/-- The loop of `loadSchema`, from the kit with the index `i` on. -/
theorem decodes_loadSchemaLoop {kits : List Kit} {i : ℕ} (temp : Str) (checksum : BitVec 32)
    (hids : ∀ (j : ℕ) (kit : Kit), kits[j]? = some kit → kit.id = i + j)
    (hnames : ∀ kit ∈ kits, 0 ∉ kit.name ∧ kit.name.length < tempLen) :
    Decodes (loadSchemaLoop (i + kits.length) kits kits.length temp checksum true
        (List.range i ++ List.replicate kits.length 0))
      (kits.flatMap fun kit => writeStr kit.name ++ writeI4 kit.checksum)
      (some (List.range (i + kits.length))) := by
  induction kits generalizing i temp checksum with
  | nil =>
      simp only [loadSchemaLoop, if_true, List.length_nil, List.replicate_zero, List.append_nil,
        Nat.add_zero]
      exact Decodes.pure _
  | cons kit kits ih =>
      have hset : (List.range i ++ List.replicate (kits.length + 1) 0).set i (i + 0) =
          List.range (i + 1) ++ List.replicate kits.length 0 := by
        rw [List.set_append_right _ _ (by simp), List.length_range, Nat.sub_self,
          List.replicate_succ, List.set_cons_zero, List.range_succ, List.append_assoc]
        rfl
      have hindex : i + (kits.length + 1) - kits.length - 1 = i := by omega
      rw [List.length_cons, loadSchemaLoop, List.flatMap_cons]
      simp only [Bool.true_and, Nat.zero_lt_succ, decide_true, if_true, Nat.add_sub_cancel]
      refine (decodes_readKit temp (hnames kit List.mem_cons_self)).bind ?_
      simp only [ne_eq, not_true_eq_false, if_false, hindex, hids 0 kit rfl, hset]
      by_cases hlast : kits.length = 0
      · rw [if_pos hlast]
        have hnil := List.eq_nil_of_length_eq_zero hlast
        subst hnil
        simp only [List.length_nil, List.replicate_zero, List.append_nil, List.flatMap_nil]
        exact Decodes.pure _
      · rw [if_neg hlast]
        have hrest := ih (i := i + 1) kit.name kit.checksum
          (fun j kit' hkit => by rw [hids (j + 1) kit' hkit]; omega)
          (fun kit' hkit => hnames kit' (List.mem_cons_of_mem _ hkit))
        rw [show i + 1 + kits.length = i + (kits.length + 1) by omega] at hrest
        exact hrest

/-- The names of the kits fit `Str.temp`. -/
def ShortNames (kits : List Kit) : Prop := ∀ kit ∈ kits, kit.name.length < tempLen

theorem decodes_loadSchema {kits : List Kit} (hs : Scode kits) (hshort : ShortNames kits)
    (temp : Str) :
    Decodes (loadSchema kits temp) (saveSchema kits) (some (List.range kits.length)) := by
  have hlen := hs.length_lt
  set v : BitVec 32 := ((BitVec.ofNat 32 kits.length).setWidth 8).setWidth 32 with hv
  have hnat : v.toNat = kits.length := by
    simp only [hv, BitVec.toNat_setWidth, BitVec.toNat_ofNat]
    omega
  have hint : v.toInt = kits.length := by
    rw [BitVec.toInt_eq_toNat_of_lt (by rw [hnat]; omega), hnat]
  refine (decodes_read _).bind ?_
  rw [← hv, if_neg (by rw [hint]; exact lt_irrefl _), if_neg (by rw [BitVec.slt, hint]; simp)]
  have hloop := decodes_loadSchemaLoop (i := 0) temp 0
    (fun j kit hkit => by rw [hs.ids j kit hkit, Nat.zero_add])
    fun kit hkit => ⟨hs.names kit hkit, hshort kit hkit⟩
  rw [Nat.zero_add] at hloop
  simp only [hnat]
  exact hloop

/-! ### Properties -/

/-- Outside a running app, a changed slot is not reported. -/
theorem slotChanged_eq (cb : Callbacks Props) (hrun : a.running = false) (slot : Slot) :
    slotChanged cb r slot a = a := by
  simp [slotChanged, hrun]

/-- Outside a running app, setting a property only stores it. -/
theorem setValue_eq (cb : Callbacks Props) (hrun : a.running = false) (slot : Slot)
    (v : Value slot.type) : setValue cb r slot v a = a.store r slot v := by
  rw [setValue]
  split
  · rename_i heq
    rw [store, ← heq, update_eq_self, update_eq_self]
  · exact slotChanged_eq (a := a.store r slot v) cb hrun slot

theorem decodes_loadProp (cb : Callbacks Props) (hrun : a.running = false) {slot : Slot}
    {v : Value slot.type} (hv : Sound slot.asStr v) (hsize : SameSize v (a.data r slot))
    (ht : slot.type ≠ .void) :
    Decodes (loadProp cb r a slot) (saveValue v)
      (a.store r slot (reloaded slot.asStr (a.data r slot) v)) := by
  have hread : Decodes (loadProp cb r a slot) (saveValue v ++ [])
      (a.store r slot (reloaded slot.asStr (a.data r slot) v)) := by
    refine (decodes_loadValue hv hsize).bind ?_
    rw [if_neg ht]
    split
    · rw [slotChanged_eq (a := a.store r slot _) cb hrun]
      exact Decodes.pure _
    · rw [setValue_eq cb hrun]
      exact Decodes.pure _
  rw [List.append_nil] at hread
  exact hread

/-- Reloading keeps the capacity of a buffer. -/
theorem sameSize_reloaded {t : SlotType} {asStr : Bool} {v w old : Value t}
    (hv : Sound asStr v) (hsize : SameSize v old) (hw : SameSize w old) :
    SameSize w (reloaded asStr old v) := by
  cases t with
  | buf =>
      have hlen : (v.used ++ old.bytes.drop v.size).length = old.bytesLen := by
        rw [List.length_append, hv.1.length_used, List.length_drop]
        have hle := hv.1.size_le
        have heq : v.bytesLen = old.bytesLen := hsize
        unfold Buf.bytesLen at *
        omega
      refine Eq.trans hw ?_
      cases asStr with
      | false => exact hlen.symm
      | true => exact hlen.symm.trans (List.length_set).symm
  | void | bool | byte | short | int | long | float | double => trivial

/-- The application with these property values of a component. -/
def withProps (a : App Props) (r : Ref) (values : (s : Slot) → Value s.type) : App Props :=
  { a with data := update a.data r values }

/-- What loading asks of the property values of a component: each can be the value of its
property, and the buffers to load it into have its capacity. -/
structure Fits (slots : List Slot) (values old : (s : Slot) → Value s.type) : Prop where
  sound : ∀ s ∈ slots, Sound s.asStr (values s)
  size : ∀ s ∈ slots, SameSize (values s) (old s)
  type : ∀ s ∈ slots, s.type ≠ .void

theorem decodes_loadProps (cb : Callbacks Props) {filter : Char} {slots : List Slot}
    (hrun : a.running = false)
    (hfits : Fits (slots.filter (·.matchProp filter)) values (a.data r)) :
    ∃ new, Decodes (loadProps cb filter r slots a) (saveProps filter slots values)
        (a.withProps r new) ∧
      ∀ s ∈ slots, s.matchProp filter = true → SameValue s.asStr (values s) (new s) := by
  have hall : ∀ l : List Slot, ∀ a : App Props, a.running = false → Fits l values (a.data r) →
      ∃ new, Decodes (l.foldlM (loadProp cb r) a) (l.flatMap fun s => saveValue (values s))
          (a.withProps r new) ∧
        (∀ s ∈ l, SameValue s.asStr (values s) (new s)) ∧ ∀ s ∉ l, new s = a.data r s := by
    intro l
    induction l with
    | nil =>
        intro a _ _
        refine ⟨a.data r, ?_, by simp, fun _ _ => rfl⟩
        rw [withProps, update_eq_self]
        exact Decodes.pure a
    | cons s l ih =>
        intro a hrun hfits
        have hsound := hfits.sound s List.mem_cons_self
        have hsize := hfits.size s List.mem_cons_self
        set v := reloaded s.asStr (a.data r s) (values s) with hv
        have hdata : (a.store r s v).data r = update (a.data r) s v := update_self ..
        have hfits' : Fits l values ((a.store r s v).data r) := by
          refine ⟨fun t ht => hfits.sound t (List.mem_cons_of_mem _ ht), fun t ht => ?_,
            fun t ht => hfits.type t (List.mem_cons_of_mem _ ht)⟩
          rw [hdata]
          by_cases hts : t = s
          · subst hts
            rw [update_self]
            exact sameSize_reloaded hsound hsize hsize
          · rw [update_of_ne hts]
            exact hfits.size t (List.mem_cons_of_mem _ ht)
        obtain ⟨new, hread, hsame, hother⟩ := ih (a.store r s v) hrun hfits'
        refine ⟨new, ?_, ?_, ?_⟩
        · rw [List.foldlM_cons, List.flatMap_cons]
          refine (decodes_loadProp cb hrun hsound hsize (hfits.type s List.mem_cons_self)).bind ?_
          have hstore : (a.store r s v).withProps r new = a.withProps r new := by
            simp only [store, withProps, update_idem]
          rw [← hstore]
          exact hread
        · intro t ht
          by_cases htl : t ∈ l
          · exact hsame t htl
          · obtain rfl := (List.mem_cons.mp ht).resolve_right htl
            rw [hother t htl, hdata, update_self]
            exact sameValue_reloaded hsound hsize (hfits.type t List.mem_cons_self)
        · intro t ht
          rw [List.mem_cons, not_or] at ht
          rw [hother t ht.2, hdata, update_of_ne ht.1]
  obtain ⟨new, hread, hsame, -⟩ := hall _ a hrun hfits
  exact ⟨new, hread, fun s hs hmatch => hsame s (List.mem_filter.mpr ⟨hs, hmatch⟩)⟩

/-! ### A component -/

/-- What `readU2` gives back of a short. -/
theorem toNat_u2 (h : n < 0x10000) :
    (((BitVec.ofNat 32 n).setWidth 16).setWidth 32).toNat = n := by
  simp only [BitVec.toNat_setWidth, BitVec.toNat_ofNat]
  omega

theorem toShort_u2 (h : n < 0x10000) :
    toShort (((BitVec.ofNat 32 n).setWidth 16).setWidth 32).toNat = n := by
  rw [toNat_u2 h, toShort]
  omega

/-- The component `obj` with the saved fields of `c`. -/
def loadedFrom (obj c : Component) : Component :=
  { obj with name := c.name, parent := c.parent, children := c.children,
             nextSibling := c.nextSibling }

/-- What loading asks of the fields of a component: a name of at most 7 characters, and ids
that fit a short. -/
structure Component.Storable (c : Component) : Prop where
  name : 0 ∉ c.name ∧ c.name.length < nameLen
  parent : c.parent < 0x10000
  children : c.children < 0x10000
  nextSibling : c.nextSibling < 0x10000

/-- **Loading a component** gives it the saved fields and the saved property values. -/
theorem decodes_loadAppComp (cb : Callbacks Props) (hrun : a.running = false)
    (hobj : a.objs r = some obj) (htype : obj.type = c.type) (hc : Component.Storable c)
    (hfits : Fits (c.type.slots.filter (·.matchProp 'c')) values (a.data r)) :
    ∃ new, Decodes (loadAppComp cb r a) (saveBody c values)
        (0, (a.put r (loadedFrom obj c)).withProps r new) ∧
      ∀ s ∈ c.type.slots, s.matchProp 'c' = true → SameValue s.asStr (values s) (new s) := by
  have hput : ∀ (b : App Props) (d : Component) (f : Component → Component),
      (b.put r d).write r f = some (b.put r (f d)) := by
    intro b d f
    rw [write_eq put_objs_self]
    simp only [put, update_idem]
  rw [saveBody, ← htype] at *
  obtain ⟨new, hprops, hsame⟩ := decodes_loadProps (a := a.put r (loadedFrom obj c)) cb hrun hfits
  refine ⟨new, ?_, hsame⟩
  refine Decodes.lift_bind (x := a.objs r) hobj ((decodes_readStr _ hc.name.1 hc.name.2).bind ?_)
  refine Decodes.lift_bind (write_eq hobj _) ?_
  simp only [Bool.not_true, Bool.false_eq_true, if_false]
  refine (decodes_readU2 _).bind (Decodes.lift_bind (hput _ _ _) ?_)
  refine (decodes_readU2 _).bind (Decodes.lift_bind (hput _ _ _) ?_)
  refine (decodes_readU2 _).bind (Decodes.lift_bind (hput _ _ _) ?_)
  simp only [toShort_u2 hc.parent, toShort_u2 hc.children, toShort_u2 hc.nextSibling]
  refine hprops.bind ?_
  exact (decodes_read 0x3b).bind (Decodes.pure _)

/-! ### The loop over the components -/

/-- What loading asks of a saved application: names and ids that fit their fields, types of
the runtime's kits, and property values that fit the buffers of a new component. -/
structure Loadable (kits : List Kit) (init : CompType → (s : Slot) → Value s.type)
    (a : App Props) : Prop where
  storable : ∀ id c, a.comp id = some c → Component.Storable c
  types : ∀ id c, a.comp id = some c →
    ∃ kit, kits[c.type.kit]? = some kit ∧ kit.types[c.type.id]? = some c.type
  values : ∀ id c, a.comp id = some c →
    Fits (c.type.slots.filter (·.matchProp 'c')) (a.data (a.lookup id)) (init c.type)

/-- The component `id` has the same fields and config properties in both applications. -/
def SameComp (a b : App Props) (id : ℕ) : Prop :=
  ∃ c c', a.comp id = some c ∧ b.comp id = some c' ∧ c'.toNode = c.toNode ∧
    ∀ s ∈ c.type.slots, s.matchProp 'c' = true →
      SameValue s.asStr (a.data (a.lookup id) s) (b.data (b.lookup id) s)

/-- The application `b` while the components of `a` are loaded into it: those in `done` are,
with `n` allocations. -/
structure Loading (a b : App Props) (mem : ℕ → Ref) (n : ℕ) (done : List ℕ) : Prop where
  table : b.Table
  fresh : ∀ id, id ≠ 0 → id ∉ done → b.lookup id = 0
  room : ∀ id, a.lookup id ≠ 0 → id < b.comps.length
  root : 0 ∉ done → ∃ c c', a.comp 0 = some c ∧ b.comp 0 = some c' ∧ c'.type = c.type ∧
    Fits (c.type.slots.filter (·.matchProp 'c')) (a.data (a.lookup 0)) (b.data (b.lookup 0))
  loaded : ∀ id ∈ done, SameComp a b id
  heads : ∀ id c, b.comp id = some c → c.linksTo = 0 ∧ c.linksFrom = 0
  links : ∀ k, b.links k = none
  services : b.Services
  running : b.running = false
  memory : ∀ i, n ≤ i → b.objs (mem i) = none

section Comps

variable {cb : Callbacks Props} {kits : List Kit}
  {init : CompType → (s : Slot) → Value s.type} {mem : ℕ → Ref} {done : List ℕ}

/-- The loop over the components, for the kits of the runtime that saved the file. -/
abbrev loadCompsSame (cb : Callbacks Props) (kits : List Kit)
    (init : CompType → (s : Slot) → Value s.type) (mem : ℕ → Ref) :
    ℕ → ℕ → App Props → Reader Option (ℕ × App Props) :=
  loadComps cb kits init mem (List.range kits.length)

/-- Up to the component itself, the loop reads what was saved. -/
theorem decodes_loadComps (hs : Scode kits) (ha : Loadable kits init a)
    (hc : a.comp id = some c) (hid : c.id = id) (hlt : id < nullId) {fuel : ℕ}
    {bytes : List (BitVec 8)} {res : ℕ × App Props}
    (hrest : Decodes (if id = 0 then do
        let (code, b) ← loadAppComp cb b.self b
        if code ≠ 0 then pure (code, b) else loadCompsSame cb kits init mem fuel n b
      else if mem n = 0 then pure (Err.cannotMalloc, b)
      else do
        let (code, b) ← loadAppComp cb (mem n) (b.malloc init c.type (mem n))
        if code ≠ 0 then pure (code, b)
        else
          let (inserted, b) ← (b.insert id (mem n) : Option (Bool × App Props))
          if !inserted then pure (Err.cannotInsert, b)
          else loadCompsSame cb kits init mem fuel (n + 1) b) (saveBody c values ++ bytes) res) :
    Decodes (loadCompsSame cb kits init mem (fuel + 1) n b) (saveAppComp c values ++ bytes) res := by
  obtain ⟨kit, hkit, htype⟩ := ha.types id c hc
  have hkitlt : c.type.kit < kits.length := (List.getElem?_eq_some_iff.mp hkit).1
  have htypelt : c.type.id < kit.types.length := (List.getElem?_eq_some_iff.mp htype).1
  have hbyte : ∀ m, m < 256 → (((BitVec.ofNat 32 m).setWidth 8).setWidth 32).toNat = m := by
    intro m hm
    simp only [BitVec.toNat_setWidth, BitVec.toNat_ofNat]
    omega
  have hkitnat := hbyte c.type.kit (lt_trans hkitlt hs.length_lt)
  have htypenat := hbyte c.type.id (lt_trans htypelt (hs.types kit (List.mem_of_getElem? hkit)))
  have hlt' : id < 0xffff := hlt
  have hidnat := toNat_u2 (n := id) (by omega)
  set v := ((BitVec.ofNat 32 id).setWidth 16).setWidth 32 with hv
  have hmarker : v ≠ 0xffff := by
    intro heq
    rw [heq] at hidnat
    have : (0xffff : BitVec 32).toNat = 0xffff := rfl
    omega
  have hsign : v.slt 0 = false := by
    have hint : v.toInt = id := by
      rw [BitVec.toInt_eq_toNat_of_lt (by omega), hidnat]
    rw [BitVec.slt, hint]
    simp
  have hzero : v = 0 ↔ id = 0 := by
    rw [← BitVec.toNat_inj, hidnat]
    rfl
  rw [saveAppComp, hid, List.append_assoc, List.append_assoc, List.append_assoc]
  refine (decodes_readU2 _).bind ?_
  rw [← hv, if_neg hmarker, hsign, if_neg Bool.false_ne_true]
  refine (decodes_read _).bind ?_
  simp only [setWidth_slt_zero, Bool.false_eq_true, if_false, hkitnat, List.getElem?_range hkitlt,
    Option.map_some, hkit]
  refine Decodes.lift_bind rfl ((decodes_read _).bind ?_)
  simp only [setWidth_slt_zero, Bool.false_eq_true, if_false, htypenat, htype, hzero, hidnat]
  exact hrest

/-- Components that were loaded before keep their values. -/
theorem SameComp.mono {b' : App Props} (h : SameComp a b id) (hcomp : b'.comp id = b.comp id)
    (hdata : b'.data (b'.lookup id) = b.data (b.lookup id)) : SameComp a b' id := by
  obtain ⟨c, c', hc, hc', hnode, hsame⟩ := h
  refine ⟨c, c', hc, by rw [hcomp, hc'], hnode, fun s hs hmatch => ?_⟩
  rw [hdata]
  exact hsame s hs hmatch

/-- **Loading a component** other than the root. -/
theorem Loading.child (h : Loading a b mem n done) (cb : Callbacks Props) (hs : Scode kits)
    (ha : Loadable kits init a)
    (hmem : Injective mem) (hmem0 : ∀ i, mem i ≠ 0) (hinv : a.Inv) (hc : a.comp id = some c)
    (hid0 : id ≠ 0) (hnew : id ∉ done) :
    ∃ b', (∀ fuel bytes res, Decodes (loadCompsSame cb kits init mem fuel (n + 1) b') bytes res →
        Decodes (loadCompsSame cb kits init mem (fuel + 1) n b)
          (saveAppComp c (a.data (a.lookup id)) ++ bytes) res) ∧
      Loading a b' mem (n + 1) (id :: done) := by
  have hcid := hinv.table.comp_id hc
  have hlt : id < nullId := (hinv.tree.ids id _ (node_eq_some.mpr ⟨c, hc, rfl⟩)).2
  have hnone := h.memory n le_rfl
  have hdead : ∀ j, b.lookup j ≠ mem n := by
    intro j hj
    obtain ⟨d, hd, -⟩ := h.table.live j (hj ▸ hmem0 n)
    rw [hj, hnone] at hd
    exact Option.some_ne_none d hd.symm
  have hid := h.fresh id hid0 hnew
  have hlen := h.room id (hinv.table.lookup_ne hc)
  set r := mem n with hr
  -- the component after `malloc` and `loadAppComp`
  set c₁ := loadedFrom { type := c.type } c with hc₁
  obtain ⟨new, hload, hsame⟩ := decodes_loadAppComp (a := b.malloc init c.type r) (c := c) cb
    h.running (update_self ..) rfl (ha.storable id c hc)
    (show Fits _ (a.data (a.lookup id)) _ by
      rw [show (b.malloc init c.type r).data r = init c.type from update_self ..]
      exact ha.values id c hc)
  have heq : ((b.malloc init c.type r).put r c₁).withProps r new =
      (b.put r c₁).withProps r new := by
    simp only [malloc, put, withProps, update_idem]
  rw [heq] at hload
  set b₂ := (b.put r c₁).withProps r new with hb₂
  have hfired : Fired (b.put r c₁) b₂ := ⟨_, _, rfl⟩
  have ht₂ : b₂.Table := hfired.sameTree.table (h.table.put_dead hdead (hmem0 n))
  have hobj₂ : b₂.objs r = some c₁ := put_objs_self
  have hcomp₂ : b₂.comp = b.comp := comp_put_dead hdead
  have hsvc₂ : b₂.Services :=
    (hfired.sameTree.services_iff).mpr (h.services.put_fresh hnone hdead)
  have hdead₂ : ∀ j, b₂.lookup j ≠ r := hdead
  have hid₂ : b₂.lookup id = 0 := hid
  have hlen₂ : id < b₂.comps.length := hlen
  have hins := insert_spec hobj₂ hid₂ hlen₂ (le_of_lt hlt)
  set b₃ := b₂.withInserted id r c₁ with hb₃
  have hcomp₃ : b₃.comp = update b.comp id (some (b₂.inserted id c₁)) := by
    rw [hb₃, withInserted_comp hdead₂ hlen₂, hcomp₂]
  have hlookup₃ : ∀ j, b₃.lookup j = if j = id then r else b.lookup j :=
    fun j => withInserted_lookup hlen₂ j
  have hother : ∀ j, j ≠ id → b₃.comp j = b.comp j ∧
      b₃.data (b₃.lookup j) = b.data (b.lookup j) := by
    intro j hj
    rw [hcomp₃, update_of_ne hj, hlookup₃, if_neg hj]
    exact ⟨rfl, update_of_ne (hdead j) _ _⟩
  refine ⟨b₃, fun fuel bytes res hrest => ?_, ⟨?_, ?_, ?_, ?_, ?_, ?_, ?_, ?_, ?_, ?_⟩⟩
  · refine decodes_loadComps hs ha hc hcid hlt ?_
    rw [if_neg hid0, if_neg (hmem0 n)]
    refine hload.bind ?_
    simp only [ne_eq, not_true_eq_false, if_false]
    exact Decodes.lift_bind hins hrest
  · exact withInserted_table ht₂ hobj₂ hdead₂ hid₂ hlen₂ hid0
  · intro j hj0 hj
    rw [List.mem_cons, not_or] at hj
    rw [hlookup₃, if_neg hj.1]
    exact h.fresh j hj0 hj.2
  · intro j hj
    have hlen₃ : b₃.comps.length = b.comps.length := List.length_set
    rw [hlen₃]
    exact h.room j hj
  · intro hroot
    rw [List.mem_cons, not_or] at hroot
    obtain ⟨d, d', hd, hd', htype, hfits⟩ := h.root hroot.2
    obtain ⟨hcomp0, hdata0⟩ := hother 0 hroot.1
    exact ⟨d, d', hd, by rw [hcomp0, hd'], htype, by rw [hdata0]; exact hfits⟩
  · intro j hj
    by_cases hji : j = id
    · subst hji
      refine ⟨c, b₂.inserted j c₁, hc, by rw [hcomp₃, update_self], ?_, fun s hs hmatch => ?_⟩
      · simp only [inserted, hc₁, loadedFrom]
        rw [← hcid]
      · rw [hlookup₃, if_pos rfl]
        rw [show b₃.data r = new from update_self ..]
        exact hsame s hs hmatch
    · have hold := h.loaded j ((List.mem_cons.mp hj).resolve_left hji)
      exact hold.mono (hother j hji).1 (hother j hji).2
  · intro j d hd
    rw [hcomp₃] at hd
    by_cases hji : j = id
    · subst hji
      rw [update_self] at hd
      obtain rfl := Option.some.inj hd
      exact ⟨rfl, rfl⟩
    · rw [update_of_ne hji] at hd
      exact h.heads j d hd
  · exact h.links
  · exact withInserted_services ht₂ hobj₂ hdead₂ hid₂ hlen₂ hsvc₂
  · exact h.running
  · intro i hi
    have hne : mem i ≠ r := fun heq => absurd (hmem heq) (by omega)
    show update (b.put r c₁).objs r _ (mem i) = none
    rw [update_of_ne hne, put_objs_of_ne hne]
    exact h.memory i (by omega)

/-- **Loading the root**, which is the application itself. -/
theorem Loading.app (h : Loading a b mem n done) (cb : Callbacks Props) (hs : Scode kits)
    (ha : Loadable kits init a)
    (hinv : a.Inv) (hc : a.comp 0 = some c) (hnew : 0 ∉ done) :
    ∃ b', (∀ fuel bytes res, Decodes (loadCompsSame cb kits init mem fuel n b') bytes res →
        Decodes (loadCompsSame cb kits init mem (fuel + 1) n b)
          (saveAppComp c (a.data (a.lookup 0)) ++ bytes) res) ∧
      Loading a b' mem n (0 :: done) := by
  obtain ⟨d, d', hd, hd', htype, hfits⟩ := h.root hnew
  obtain rfl := Option.some.inj (hc.symm.trans hd)
  have hcid := hinv.table.comp_id hc
  have hself := h.table.self
  have hobj : b.objs b.self = some d' := by rw [← hself]; exact hd'
  rw [hself] at hfits
  set c₁ := loadedFrom d' c with hc₁
  obtain ⟨new, hload, hsame⟩ := decodes_loadAppComp (a := b) cb h.running hobj htype
    (ha.storable 0 c hc) hfits
  set b₂ := (b.put b.self c₁).withProps b.self new with hb₂
  have hfired : Fired (b.put b.self c₁) b₂ := ⟨_, _, rfl⟩
  have hd'id := h.table.comp_id hd'
  have hcomp₂ : b₂.comp = update b.comp 0 (some c₁) := comp_put h.table hself h.table.self_ne
  have hother : ∀ j, j ≠ 0 → b₂.comp j = b.comp j ∧
      b₂.data (b₂.lookup j) = b.data (b.lookup j) := by
    intro j hj
    have hne : b.lookup j ≠ b.self := by
      rw [← hself]
      exact fun heq => hj (h.table.inj (hself ▸ h.table.self_ne) heq.symm).symm
    rw [hcomp₂, update_of_ne hj]
    exact ⟨rfl, update_of_ne hne _ _⟩
  refine ⟨b₂, fun fuel bytes res hrest => ?_, ⟨?_, fun j hj0 hj =>
    h.fresh j hj0 fun hmem => hj (List.mem_cons_of_mem _ hmem), h.room, ?_, ?_, ?_, h.links, ?_,
    h.running, ?_⟩⟩
  · refine decodes_loadComps hs ha hc hcid (by decide) ?_
    rw [if_pos rfl]
    refine hload.bind ?_
    simp only [ne_eq, not_true_eq_false, if_false]
    exact hrest
  · exact hfired.sameTree.table (h.table.put hobj rfl)
  · exact fun hroot => absurd List.mem_cons_self hroot
  · intro j hj
    by_cases hj0 : j = 0
    · subst hj0
      refine ⟨c, c₁, hc, by rw [hcomp₂, update_self], ?_, fun s hs hmatch => ?_⟩
      · simp only [hc₁, loadedFrom]
        rw [htype, hd'id, ← hcid]
      · rw [show b₂.lookup 0 = b.self from hself]
        rw [show b₂.data b.self = new from update_self ..]
        exact hsame s hs hmatch
    · have hold := h.loaded j ((List.mem_cons.mp hj).resolve_left hj0)
      exact hold.mono (hother j hj0).1 (hother j hj0).2
  · intro j e he
    rw [hcomp₂] at he
    by_cases hj0 : j = 0
    · subst hj0
      rw [update_self] at he
      obtain rfl := Option.some.inj he
      exact h.heads 0 d' hd'
    · rw [update_of_ne hj0] at he
      exact h.heads j e he
  · exact hfired.sameTree.services_iff.mpr (h.services.put_same hobj rfl rfl rfl)
  · intro i hi
    have hne : mem i ≠ b.self := by
      intro heq
      have hnone := h.memory i hi
      rw [heq, hobj] at hnone
      exact Option.some_ne_none d' hnone
    exact (put_objs_of_ne hne).trans (h.memory i hi)

/-- **The loop over the components** loads all that are left. -/
theorem Loading.comps (h : Loading a b mem n done) (cb : Callbacks Props) (hs : Scode kits)
    (ha : Loadable kits init a)
    (hmem : Injective mem) (hmem0 : ∀ i, mem i ≠ 0) (hinv : a.Inv) {todo : List Component}
    (hlive : ∀ c ∈ todo, a.comp c.id = some c) (hnodup : (todo.map (·.id)).Nodup)
    (hnew : ∀ c ∈ todo, c.id ∉ done) :
    ∃ b' n' done', (∀ fuel, todo.length < fuel →
        Decodes (loadCompsSame cb kits init mem fuel n b)
          (todo.flatMap (fun c => saveAppComp c (a.data (a.lookup c.id))) ++ writeI2 0xffff)
          (0, b')) ∧
      Loading a b' mem n' done' ∧ (∀ id, id ∈ done' ↔ id ∈ done ∨ id ∈ todo.map (·.id)) := by
  induction todo generalizing b n done with
  | nil =>
      refine ⟨b, n, done, ?_, h, by simp⟩
      rintro (_ | fuel) hfuel
      · simp at hfuel
      · exact (decodes_readU2 0xffff).bind (Decodes.pure (0, b))
  | cons c todo ih =>
      rw [List.map_cons, List.nodup_cons] at hnodup
      have hc := hlive c List.mem_cons_self
      have hcnew := hnew c List.mem_cons_self
      obtain ⟨b', n', hstep, h'⟩ : ∃ b' n', (∀ fuel bytes res,
          Decodes (loadCompsSame cb kits init mem fuel n' b') bytes res →
          Decodes (loadCompsSame cb kits init mem (fuel + 1) n b)
            (saveAppComp c (a.data (a.lookup c.id)) ++ bytes) res) ∧
          Loading a b' mem n' (c.id :: done) := by
        by_cases hc0 : c.id = 0
        · rw [hc0] at hc hcnew ⊢
          obtain ⟨b', hstep, h'⟩ := h.app cb hs ha hinv hc hcnew
          exact ⟨b', n, hstep, h'⟩
        · obtain ⟨b', hstep, h'⟩ := h.child cb hs ha hmem hmem0 hinv hc hc0 hcnew
          exact ⟨b', n + 1, hstep, h'⟩
      obtain ⟨b'', n'', done', hrest, h'', hdone⟩ := ih h'
        (fun d hd => hlive d (List.mem_cons_of_mem _ hd)) hnodup.2 (fun d hd hmem' => by
          rcases List.mem_cons.mp hmem' with heq | hmem'
          · exact hnodup.1 (heq ▸ List.mem_map_of_mem hd)
          · exact hnew d (List.mem_cons_of_mem _ hd) hmem')
      refine ⟨b'', n'', done', ?_, h'', fun id => ?_⟩
      · rintro (_ | fuel) hfuel
        · simp at hfuel
        · rw [List.flatMap_cons, List.append_assoc]
          exact hstep fuel _ _ (hrest fuel (by simpa using hfuel))
      · rw [hdone, List.map_cons, List.mem_cons, List.mem_cons]
        tauto

end Comps

end App

end Sedona
