import Sedona.Sys.AppLoad

/-!
# The Schema Check

What `loadSchema` makes of a file that was saved by another runtime. It walks along its own kits
and takes the next kit of the file whenever the last one was found, so with distinct names it
follows the only way in which the kits of the file can lie among its own.

It stops at the end of its own kits and asks only whether the last kit it read was found, not
whether it read them all; and it compares with what it read last before it has read anything.

## Main results

* `run_loadSchema`: the loop is `scan`.
* `scan_eq_some_iff`: what is found, and what is left unread.
* `checksSchema_iff`: the check is right exactly if the file does not go on behind the last kit of
  the runtime, its names fit the buffer, and it has a kit at all.
-/

namespace Sedona.App

open Decoding OutStream InStream

/-- What a file says about a kit: its name and checksum. -/
abbrev SavedKit := Str × BitVec 32

/-- What a file says about this kit. -/
def savedKit (kit : Kit) : SavedKit := (kit.name, kit.checksum)

/-- The kits of a file: their number is a byte and their names are without a zero. -/
structure SavedKits where
  kits : List SavedKit
  count : kits.length < 256
  names : ∀ k ∈ kits, 0 ∉ k.1

/-- The bytes of a kit in the file. -/
def kitBytes (k : SavedKit) : List (BitVec 8) := writeStr k.1 ++ writeI4 k.2

/-- The bytes of the kits, as `saveSchema` writes them. -/
def SavedKits.bytes (s : SavedKits) : List (BitVec 8) :=
  OutStream.write (BitVec.ofNat 32 s.kits.length) ++ s.kits.flatMap kitBytes

theorem saveSchema_eq {kits : List Kit} {s : SavedKits} (h : s.kits = kits.map savedKit) :
    saveSchema kits = s.bytes := by
  rw [saveSchema, SavedKits.bytes, h, List.length_map, List.flatMap_map]
  rfl

/-- The kits of a runtime have distinct names. -/
structure Installed (kits : List Kit) : Prop extends Scode kits where
  distinct : (kits.map (·.name)).Nodup

/-! ### The walk -/

/-- The name does not fit `Str.temp`. -/
def IsLong (k : SavedKit) : Prop := tempLen ≤ k.1.length

instance (k : SavedKit) : Decidable (IsLong k) := inferInstanceAs (Decidable (_ ≤ _))

/-- Looking for `x` and then the kits of `s` among the kits of the runtime: the ids of those that
were found, and what was not read. -/
def scan : List Kit → SavedKit → List SavedKit → Option (List ℕ × List SavedKit)
  | [], _, _ => none
  | kit :: kits, x, s =>
      if kit.name ≠ x.1 then scan kits x s
      else if kit.checksum ≠ x.2 then none
      else
        match s with
        | [] => some ([kit.id], [])
        | y :: s =>
            if kits = [] then some ([kit.id], y :: s)
            else if IsLong y then none
            else (scan kits y s).map fun r => (kit.id :: r.1, r.2)

section

variable {kits : List Kit} {x y : SavedKit} {s rest : List (BitVec 8)} {l : List SavedKit}

theorem run_readStrLoop_long (old : Str) (rest : List (BitVec 8)) {s : Str} (hs : 0 ∉ s) {n : ℕ}
    (hlen : n ≤ s.length) (pre : Str) : ∃ v left,
      (readStrLoop (m := Option) old n pre).run (s ++ rest) = some ((false, v), left) := by
  induction n generalizing s pre with
  | zero => exact ⟨_, _, rfl⟩
  | succ n ih =>
      obtain _ | ⟨ch, s⟩ := s
      · simp at hlen
      · rw [List.mem_cons, not_or] at hs
        have hch : ch.setWidth 32 ≠ 0 := by
          intro h0
          have hback := congrArg (BitVec.setWidth 8) h0
          rw [BitVec.setWidth_setWidth_of_le ch (by decide), BitVec.setWidth_eq] at hback
          exact hs.1 hback.symm
        obtain ⟨v, left, hrun⟩ := ih hs.2 (by simpa using hlen)
          (pre ++ [(ch.setWidth 32).setWidth 8])
        refine ⟨v, left, ?_⟩
        rw [readStrLoop, List.cons_append, StateT.run_bind]
        change (if (ch.setWidth 32).slt 0 then _ else _ : Reader Option _).run _ = _
        rw [setWidth_slt_zero, if_neg Bool.false_ne_true, if_neg hch]
        exact hrun

/-- A kit with a name that fits the buffer. -/
theorem run_readKit (temp : Str) (hx : 0 ∉ x.1) (hshort : ¬ IsLong x) :
    (readKit temp).run (kitBytes x ++ rest) = some (some x, rest) := by
  have hread : Decodes (readKit temp) (kitBytes x) (some x) := by
    refine (decodes_readStr temp hx (not_le.mp hshort)).bind ?_
    have hread : Decodes (m := Option) (readS4 >>= fun checksum =>
        pure (some (x.1, checksum))) (writeI4 x.2 ++ []) _ :=
      (decodes_readS4 x.2).bind (Decodes.pure (some (x.1, x.2)))
    rw [List.append_nil] at hread
    exact hread
  exact hread rest

/-- A kit with a name that does not. -/
theorem run_readKit_long (temp : Str) (rest : List (BitVec 8)) (hx : 0 ∉ x.1) (hlong : IsLong x) :
    ∃ left, (readKit temp).run (kitBytes x ++ rest) = some (none, left) := by
  obtain ⟨v, left, hrun⟩ := run_readStrLoop_long temp
    (OutStream.write 0 ++ (writeI4 x.2 ++ rest)) hx hlong []
  refine ⟨left, ?_⟩
  rw [readKit, readStr, kitBytes, writeStr, List.append_assoc, List.append_assoc,
    StateT.run_bind, hrun]
  rfl

/-- What the loop returns where the walk has this result; `found` was found before. -/
def LoopGives (found : List ℕ) (rest : List (BitVec 8))
    (out : Option (Option (List ℕ) × List (BitVec 8))) : Option (List ℕ × List SavedKit) → Prop
  | none => ∃ left, out = some (none, left)
  | some (ids, left) => out =
      some (some (found ++ ids ++ List.replicate left.length 0), left.flatMap kitBytes ++ rest)

theorem set_replicate (found : List ℕ) (n id : ℕ) :
    (found ++ List.replicate (n + 1) 0).set found.length id =
      (found ++ [id]) ++ List.replicate n 0 := by
  rw [List.set_append_right _ _ le_rfl, Nat.sub_self, List.replicate_succ, List.set_cons_zero,
    List.append_assoc]
  rfl

/-- The loop reads the next kit and then looks for it. -/
theorem loadSchemaLoop_read (hk : kits ≠ []) (n m : ℕ) (temp : Str) (checksum : BitVec 32)
    (kitIdMap : List ℕ) :
    loadSchemaLoop n kits (m + 1) temp checksum true kitIdMap = (do
      match ← readKit temp with
      | none => pure none
      | some (temp, checksum) => loadSchemaLoop n kits m temp checksum false kitIdMap) := by
  obtain ⟨kit, kits, rfl⟩ := List.exists_cons_of_ne_nil hk
  rw [loadSchemaLoop]
  simp only [Bool.true_and, Nat.zero_lt_succ, decide_true, if_true, Nat.add_sub_cancel]
  refine bind_congr fun r => ?_
  obtain _ | ⟨temp', checksum'⟩ := r
  · rfl
  · dsimp only
    rw [loadSchemaLoop]
    simp only [Bool.false_and, Bool.false_eq_true, if_false, pure_bind]

/-- The loop looks for the kit that it read last. -/
theorem run_pending {found : List ℕ} {n : ℕ} (hn : n = found.length + (l.length + 1))
    (hl : ∀ k ∈ l, 0 ∉ k.1) :
    LoopGives found rest ((loadSchemaLoop n kits l.length x.1 x.2 false
      (found ++ List.replicate (l.length + 1) 0)).run (l.flatMap kitBytes ++ rest))
        (scan kits x l) := by
  induction kits generalizing x l found with
  | nil => exact ⟨_, rfl⟩
  | cons kit kits ih =>
      rw [loadSchemaLoop, scan.eq_def]
      simp only [Bool.false_and, Bool.false_eq_true, if_false, pure_bind]
      split
      · exact ih hn hl
      split
      · exact ⟨_, rfl⟩
      have hindex : n - l.length - 1 = found.length := by omega
      rw [hindex, set_replicate]
      cases l with
      | nil => simp [LoopGives]
      | cons y l =>
          rw [List.length_cons, if_neg (Nat.succ_ne_zero _)]
          rw [List.forall_mem_cons] at hl
          dsimp only
          by_cases hk : kits = []
          · rw [if_pos hk, hk]
            simp only [loadSchemaLoop, if_true, LoopGives, List.length_cons]
            rfl
          · rw [if_neg hk, loadSchemaLoop_read hk, StateT.run_bind, List.flatMap_cons,
              List.append_assoc]
            by_cases hlong : IsLong y
            · rw [if_pos hlong]
              obtain ⟨left, hrun⟩ := run_readKit_long x.1
                (l.flatMap kitBytes ++ rest) hl.1 hlong
              exact ⟨left, by rw [hrun]; rfl⟩
            · rw [if_neg hlong, run_readKit x.1 hl.1 hlong]
              have hnext := @ih y l (found ++ [kit.id]) (by simp at hn ⊢; omega) hl.2
              cases hscan : scan kits y l with
              | none =>
                  rw [hscan] at hnext
                  exact hnext
              | some r =>
                  rw [hscan] at hnext
                  rw [Option.map_some, LoopGives, List.append_cons found kit.id r.1]
                  exact hnext

/-- The number of kits that is read. -/
theorem run_loadSchema_eq (s : SavedKits) (temp : Str) :
    (loadSchema kits temp).run (s.bytes ++ rest) =
      if kits.length < s.kits.length then some (none, s.kits.flatMap kitBytes ++ rest)
      else (loadSchemaLoop s.kits.length kits s.kits.length temp 0 true
        (List.replicate s.kits.length 0)).run (s.kits.flatMap kitBytes ++ rest) := by
  have hcount := s.count
  set v : BitVec 32 := ((BitVec.ofNat 32 s.kits.length).setWidth 8).setWidth 32 with hv
  have hnat : v.toNat = s.kits.length := by
    simp only [hv, BitVec.toNat_setWidth, BitVec.toNat_ofNat]
    omega
  have hint : v.toInt = s.kits.length := by
    rw [BitVec.toInt_eq_toNat_of_lt (by rw [hnat]; omega), hnat]
  rw [loadSchema, StateT.run_bind, SavedKits.bytes, List.append_assoc, OutStream.write,
    decodes_read _ _]
  change StateT.run (if kits.length < v.toInt then _ else _ : Reader Option _) _ = _
  rw [hint, BitVec.slt, hint]
  by_cases hlt : kits.length < s.kits.length
  · rw [if_pos hlt, if_pos (by exact_mod_cast hlt)]
    rfl
  · rw [if_neg hlt, if_neg (by exact_mod_cast hlt), if_neg (by simp), hnat]

/-- **The loop is the walk.** -/
theorem run_loadSchema {s : SavedKits} (hx : s.kits = x :: l) (hlong : ¬ IsLong x)
    (hlen : s.kits.length ≤ kits.length) (temp : Str) :
    LoopGives [] rest ((loadSchema kits temp).run (s.bytes ++ rest)) (scan kits x l) := by
  have hnames := s.names
  rw [hx, List.forall_mem_cons] at hnames
  have hk : kits ≠ [] := by
    rintro rfl
    simp [hx] at hlen
  rw [run_loadSchema_eq, if_neg (not_lt.mpr hlen), hx, List.length_cons, loadSchemaLoop_read hk,
    StateT.run_bind, List.flatMap_cons, List.append_assoc, run_readKit temp hnames.1 hlong]
  exact run_pending (by simp) hnames.2

end

/-! ### What is found -/

section

variable {kits ks : List Kit} {kit : Kit} {x : SavedKit} {s left : List SavedKit} {ids : List ℕ}

/-- The kits `ks` of the runtime are what the file begins with. The file ends with them, or the
runtime does. -/
structure Finds (kits ks : List Kit) (s left : List SavedKit) : Prop where
  ne_nil : ks ≠ []
  sublist : ks.Sublist kits
  eq : s = ks.map savedKit ++ left
  stop : left = [] ∨ ks.getLast? = kits.getLast?
  short : ∀ k ∈ ks.tail, ¬ IsLong (savedKit k)

theorem getLast?_cons_of_ne_nil (h : kits ≠ []) : (kit :: kits).getLast? = kits.getLast? := by
  rw [List.getLast?_cons, List.getLast?_eq_getLast_of_ne_nil h, Option.getD_some]

/-- A kit that is not what the file goes on with. -/
theorem finds_skip (hne : savedKit kit ≠ x) :
    Finds (kit :: kits) ks (x :: s) left ↔ Finds kits ks (x :: s) left := by
  constructor
  · intro h
    have hsub : ks.Sublist kits := by
      obtain hsub | ⟨r, rfl, -⟩ := List.sublist_cons_iff.mp h.sublist
      · exact hsub
      · exact absurd (List.cons.inj h.eq).1.symm hne
    have hkits : kits ≠ [] := by
      rintro rfl
      exact h.ne_nil (List.sublist_nil.mp hsub)
    refine ⟨h.ne_nil, hsub, h.eq, h.stop.imp_right fun hlast => ?_, h.short⟩
    rw [hlast, getLast?_cons_of_ne_nil hkits]
  · intro h
    have hkits : kits ≠ [] := by
      rintro rfl
      exact h.ne_nil (List.sublist_nil.mp h.sublist)
    refine ⟨h.ne_nil, h.sublist.cons kit, h.eq, h.stop.imp_right fun hlast => ?_, h.short⟩
    rw [hlast, getLast?_cons_of_ne_nil hkits]

/-- A kit that is: with distinct names there is no other. -/
theorem Finds.eq_cons (hdistinct : ((kit :: kits).map (·.name)).Nodup) (hname : kit.name = x.1)
    (h : Finds (kit :: kits) ks (x :: s) left) :
    ∃ r, ks = kit :: r ∧ r.Sublist kits ∧ x = savedKit kit ∧ s = r.map savedKit ++ left := by
  obtain ⟨k, r, rfl⟩ := List.exists_cons_of_ne_nil h.ne_nil
  obtain ⟨rfl, hs⟩ := List.cons.inj h.eq
  obtain hsub | ⟨r', hr', hsub⟩ := List.sublist_cons_iff.mp h.sublist
  · have hmem : k.name ∈ kits.map (·.name) :=
      List.mem_map_of_mem (hsub.subset List.mem_cons_self)
    rw [← show kit.name = k.name from hname] at hmem
    exact absurd hmem (List.nodup_cons.mp hdistinct).1
  · obtain ⟨rfl, rfl⟩ := List.cons.inj hr'
    exact ⟨r, rfl, hsub, rfl, hs⟩

/-- **What the walk finds, and where it stops.** -/
theorem scan_eq_some_iff (hdistinct : (kits.map (·.name)).Nodup) :
    scan kits x s = some (ids, left) ↔ ∃ ks, Finds kits ks (x :: s) left ∧ ids = ks.map (·.id) := by
  induction kits generalizing x s ids with
  | nil =>
      simp only [scan, reduceCtorEq, false_iff, not_exists, not_and]
      exact fun ks h => absurd (List.sublist_nil.mp h.sublist) h.ne_nil
  | cons kit kits ih =>
      have hrest := (List.nodup_cons.mp hdistinct).2
      rw [scan.eq_def]
      dsimp only
      split
      · rename_i hname
        rw [ih hrest]
        refine exists_congr fun ks => and_congr_left fun _ => (finds_skip fun heq => ?_).symm
        exact hname (congrArg Prod.fst heq)
      rename_i hname
      rw [ne_eq, not_not] at hname
      split
      · rename_i hsum
        simp only [reduceCtorEq, false_iff, not_exists, not_and]
        intro ks h
        obtain ⟨r, -, -, hx, -⟩ := h.eq_cons hdistinct hname
        exact absurd (congrArg Prod.snd hx).symm hsum
      rename_i hsum
      rw [ne_eq, not_not] at hsum
      obtain rfl : savedKit kit = x := Prod.ext hname hsum
      have hnew : kit ∉ kits := fun hmem =>
        (List.nodup_cons.mp hdistinct).1 (List.mem_map_of_mem hmem)
      cases s with
      | nil =>
          simp only [Option.some.injEq, Prod.mk.injEq]
          constructor
          · rintro ⟨rfl, rfl⟩
            exact ⟨[kit], ⟨List.cons_ne_nil _ _, by simp, rfl, .inl rfl, by simp⟩, rfl⟩
          · rintro ⟨ks, h, rfl⟩
            obtain ⟨r, rfl, -, -, hr⟩ := h.eq_cons hdistinct hname
            obtain ⟨hmap, hleft⟩ := List.append_eq_nil_iff.mp hr.symm
            rw [List.map_eq_nil_iff.mp hmap]
            exact ⟨rfl, hleft.symm⟩
      | cons y s =>
          dsimp only
          split
          · rename_i hkits
            subst hkits
            simp only [Option.some.injEq, Prod.mk.injEq]
            constructor
            · rintro ⟨rfl, rfl⟩
              exact ⟨[kit], ⟨List.cons_ne_nil _ _, .refl _, rfl, .inr rfl, by simp⟩, rfl⟩
            · rintro ⟨ks, h, rfl⟩
              obtain ⟨r, rfl, hsub, -, hr⟩ := h.eq_cons hdistinct hname
              obtain rfl := List.sublist_nil.mp hsub
              exact ⟨rfl, hr⟩
          rename_i hkits
          -- the file goes on, and so does the runtime: the next kit is read
          have hgoes : ∀ {r : List Kit},
              Finds (kit :: kits) (kit :: r) (savedKit kit :: y :: s) left →
                ∃ k r', r = k :: r' ∧ y = savedKit k := by
            intro r h
            obtain _ | ⟨k, r⟩ := r
            · have hleft : left = y :: s := (List.cons.inj h.eq).2.symm
              have hlast := h.stop.resolve_left (by rw [hleft]; exact List.cons_ne_nil _ _)
              rw [getLast?_cons_of_ne_nil hkits] at hlast
              exact absurd (List.mem_of_getLast? hlast.symm) hnew
            · exact ⟨k, r, rfl, (List.cons.inj (List.cons.inj h.eq).2).1⟩
          split
          · rename_i hlong
            simp only [reduceCtorEq, false_iff, not_exists, not_and]
            intro ks h
            obtain ⟨r, rfl, -, -, -⟩ := h.eq_cons hdistinct hname
            obtain ⟨k, r, rfl, rfl⟩ := hgoes h
            exact absurd hlong (h.short k List.mem_cons_self)
          · rename_i hshort
            rw [Option.map_eq_some_iff]
            constructor
            · rintro ⟨⟨ids', left'⟩, hscan, heq⟩
              obtain ⟨rfl, rfl⟩ := Prod.mk.inj heq
              obtain ⟨r, h, rfl⟩ := (ih hrest).mp hscan
              refine ⟨kit :: r, ⟨List.cons_ne_nil _ _, h.sublist.cons_cons kit, ?_, ?_, ?_⟩, rfl⟩
              · rw [h.eq, List.map_cons, List.cons_append]
              · refine h.stop.imp_right fun hlast => ?_
                rw [getLast?_cons_of_ne_nil h.ne_nil, hlast, getLast?_cons_of_ne_nil hkits]
              · intro k hk
                obtain ⟨k', r, rfl⟩ := List.exists_cons_of_ne_nil h.ne_nil
                obtain rfl | hk := List.mem_cons.mp hk
                · rwa [← (List.cons.inj h.eq).1]
                · exact h.short k hk
            · rintro ⟨ks, h, rfl⟩
              obtain ⟨r, rfl, hsub, -, hr⟩ := h.eq_cons hdistinct hname
              obtain ⟨k, r, rfl, rfl⟩ := hgoes h
              refine ⟨(_, left), (ih hrest).mpr ⟨k :: r, ⟨List.cons_ne_nil _ _, hsub, hr, ?_, ?_⟩,
                rfl⟩, rfl⟩
              · refine h.stop.imp_right fun hlast => ?_
                rwa [getLast?_cons_of_ne_nil (List.cons_ne_nil _ _),
                  getLast?_cons_of_ne_nil hkits] at hlast
              · exact fun k' hk' => h.short k' (List.mem_cons_of_mem _ hk')

end

/-! ### When the check is right -/

section

variable {kits : List Kit} {temp : Str} {s : SavedKits}

/-- The kits of the file are kits of the runtime, in the same order. -/
def KitsFit (kits : List Kit) (s : SavedKits) : Prop := s.kits.Sublist (kits.map savedKit)

instance : Decidable (KitsFit kits s) := inferInstanceAs (Decidable (List.Sublist _ _))

/-- What `loadSchema` is for, whatever follows in the file: if the kits fit, it maps each of them
to the same kit of the runtime and leaves what follows; otherwise it reports a mismatch. -/
structure ChecksSchema (kits : List Kit) (temp : Str) (s : SavedKits) : Prop where
  accepts (h : KitsFit kits s) (rest : List (BitVec 8)) : ∃ kitIdMap : List ℕ,
    (loadSchema kits temp).run (s.bytes ++ rest) = some (some kitIdMap, rest) ∧
      kitIdMap.map (fun id => (kits[id]?).map savedKit) = s.kits.map some
  refuses (h : ¬ KitsFit kits s) (rest : List (BitVec 8)) :
    ∃ left, (loadSchema kits temp).run (s.bytes ++ rest) = some (none, left)

/-- The file has a kit, the names of its kits fit the buffer if the kits fit, and it does not go on
where its kits up to one have led to the last kit of the runtime. A file without kits is right only
for a runtime without kits, or if the buffer happens to name a kit with the checksum 0. -/
structure Recognizable (kits : List Kit) (temp : Str) (s : SavedKits) : Prop where
  empty (h : s.kits = []) : kits = [] ∨ ∃ kit ∈ kits, savedKit kit = (temp, 0)
  short (h : KitsFit kits s) : ∀ k ∈ s.kits, ¬ IsLong k
  last {p l : List SavedKit} (h : s.kits = p ++ l) (hp : p.Sublist (kits.map savedKit))
    (hlast : p.getLast? = (kits.map savedKit).getLast?) (hne : p ≠ [])
    (hlen : s.kits.length ≤ kits.length) (hshort : ∀ k ∈ p, ¬ IsLong k) : l = []

/-- A file without kits: the runtime is searched for what the buffer held before. -/
theorem run_loop_empty (hdistinct : (kits.map (·.name)).Nodup) (gotMatch : Bool)
    (rest : List (BitVec 8)) : (loadSchemaLoop 0 kits 0 temp 0 gotMatch []).run rest =
      some (if (kits = [] ∧ gotMatch) ∨ ∃ kit ∈ kits, savedKit kit = (temp, 0) then some []
        else none, rest) := by
  induction kits generalizing gotMatch with
  | nil =>
      simp only [loadSchemaLoop, true_and, List.not_mem_nil, false_and, exists_false, or_false]
      rfl
  | cons kit kits ih =>
      obtain ⟨hnew, hrest⟩ := List.nodup_cons.mp hdistinct
      rw [loadSchemaLoop]
      simp only [lt_irrefl, decide_false, Bool.and_false, Bool.false_eq_true, if_false, pure_bind,
        reduceCtorEq, false_and, false_or, List.exists_mem_cons_iff]
      by_cases hname : kit.name = temp
      · have hno : ¬ ∃ k ∈ kits, savedKit k = (temp, 0) := by
          rintro ⟨k, hk, heq⟩
          have hk' : k.name = kit.name := (congrArg Prod.fst heq).trans hname.symm
          exact hnew (List.mem_map.mpr ⟨k, hk, hk'⟩)
        rw [if_neg (not_not.mpr hname)]
        by_cases hsum : kit.checksum = 0
        · rw [if_neg (not_not.mpr hsum), if_pos trivial, if_pos (.inl (Prod.ext hname hsum))]
          rfl
        · rw [if_pos hsum, if_neg]
          · rfl
          · exact not_or.mpr ⟨fun h => hsum (congrArg Prod.snd h), hno⟩
      · rw [if_pos hname, ih hrest]
        simp [savedKit, hname]

theorem run_empty (h : s.kits = []) (hdistinct : (kits.map (·.name)).Nodup)
    (rest : List (BitVec 8)) : (loadSchema kits temp).run (s.bytes ++ rest) =
      some (if kits = [] ∨ ∃ kit ∈ kits, savedKit kit = (temp, 0) then some [] else none,
        rest) := by
  rw [run_loadSchema_eq, h, if_neg (by simp)]
  have hloop := @run_loop_empty kits temp hdistinct true rest
  simpa using hloop

/-- The kit with an id. -/
theorem getElem?_id {kit : Kit} (hinst : Installed kits) (h : kit ∈ kits) :
    kits[kit.id]? = some kit := by
  obtain ⟨i, hi⟩ := List.getElem?_of_mem h
  rwa [hinst.ids i kit hi]

theorem eq_nil_of_flatMap_kitBytes {l : List SavedKit} {rest : List (BitVec 8)}
    (h : l.flatMap kitBytes ++ rest = rest) : l = [] := by
  have hnil := List.append_left_eq_self.mp h
  cases l with
  | nil => rfl
  | cons k l => simp [kitBytes, writeStr, OutStream.write] at hnil

/-- The last kits are the same if what a file says about them is. -/
theorem getLast?_map_iff {ks : List Kit} (hdistinct : (kits.map (·.name)).Nodup)
    (hsub : ks.Sublist kits) :
    (ks.map savedKit).getLast? = (kits.map savedKit).getLast? ↔ ks.getLast? = kits.getLast? := by
  rw [List.getLast?_map, List.getLast?_map]
  refine ⟨fun h => ?_, fun h => by rw [h]⟩
  cases hk : ks.getLast? with
  | none =>
      rw [hk, Option.map_none] at h
      rw [Option.map_eq_none_iff.mp h.symm]
  | some k =>
      rw [hk, Option.map_some] at h
      obtain ⟨k', hk', heq⟩ := Option.map_eq_some_iff.mp h.symm
      have hmem : k ∈ kits := hsub.subset (List.mem_of_getLast? hk)
      rw [hk', List.inj_on_of_nodup_map hdistinct (List.mem_of_getLast? hk') hmem
        (congrArg Prod.fst heq)]

/-- A file with a kit whose name fits the buffer, read by a runtime with enough kits. -/
theorem checksSchema_cons {x : SavedKit} {l : List SavedKit} (hinst : Installed kits)
    (hx : s.kits = x :: l) (hshort : ¬ IsLong x) (hlen : s.kits.length ≤ kits.length) :
    ChecksSchema kits temp s ↔ Recognizable kits temp s := by
  have hrun : ∀ rest, LoopGives [] rest ((loadSchema kits temp).run (s.bytes ++ rest))
      (scan kits x l) := fun rest => run_loadSchema hx hshort hlen temp
  have hfinds : ∀ {ids left}, scan kits x l = some (ids, left) ↔
      ∃ ks, Finds kits ks s.kits left ∧ ids = ks.map (·.id) := by
    rw [hx]
    exact scan_eq_some_iff hinst.distinct
  have hallshort : ∀ {ks left}, Finds kits ks s.kits left → ∀ k ∈ ks.map savedKit, ¬ IsLong k := by
    intro ks left h
    obtain ⟨k, r, rfl⟩ := List.exists_cons_of_ne_nil h.ne_nil
    rw [List.forall_mem_map, List.forall_mem_cons]
    refine ⟨?_, h.short⟩
    rwa [← (List.cons.inj (hx.symm.trans h.eq)).1]
  constructor
  · intro h
    refine ⟨fun hnil => absurd (hx.symm.trans hnil) (List.cons_ne_nil _ _), fun hfit => ?_,
      fun {p left} hp hsub hlast hne _ hps => ?_⟩
    · obtain ⟨kitIdMap, hload, -⟩ := h.accepts hfit []
      have hret := hrun []
      rw [hload] at hret
      cases hscan : scan kits x l with
      | none => simp [hscan, LoopGives] at hret
      | some r =>
          obtain ⟨ids, left⟩ := r
          obtain ⟨ks, hks, -⟩ := hfinds.mp hscan
          rw [hscan, LoopGives, Option.some.injEq, Prod.mk.injEq] at hret
          obtain rfl := eq_nil_of_flatMap_kitBytes hret.2.symm
          have hall := hallshort hks
          rwa [← List.append_nil (ks.map savedKit), ← hks.eq] at hall
    · obtain ⟨ks, hks, rfl⟩ := List.sublist_map_iff.mp hsub
      have hf : Finds kits ks s.kits left := by
        refine ⟨fun h => hne (by rw [h, List.map_nil]), hks, hp,
          .inr ((getLast?_map_iff hinst.distinct hks).mp hlast), fun k hk => ?_⟩
        exact hps _ (List.mem_map_of_mem (List.mem_of_mem_tail hk))
      have hret := hrun []
      rw [hfinds.mpr ⟨ks, hf, rfl⟩, LoopGives] at hret
      by_cases hfit : KitsFit kits s
      · obtain ⟨kitIdMap, hload, -⟩ := h.accepts hfit []
        rw [hload, Option.some.injEq, Prod.mk.injEq] at hret
        exact eq_nil_of_flatMap_kitBytes hret.2.symm
      · obtain ⟨left', hload⟩ := h.refuses hfit []
        rw [hload] at hret
        simp at hret
  · intro h
    refine ⟨fun hfit rest => ?_, fun hfit rest => ?_⟩
    · obtain ⟨ks, hks, hmap⟩ := List.sublist_map_iff.mp hfit
      have hne : ks ≠ [] := by
        rintro rfl
        exact absurd (hx.symm.trans hmap) (List.cons_ne_nil _ _)
      have hf : Finds kits ks s.kits [] := by
        refine ⟨hne, hks, by rw [hmap, List.append_nil], .inl rfl, fun k hk => ?_⟩
        refine h.short hfit _ ?_
        rw [hmap]
        exact List.mem_map_of_mem (List.mem_of_mem_tail hk)
      have hret := hrun rest
      rw [hfinds.mpr ⟨ks, hf, rfl⟩, LoopGives] at hret
      refine ⟨_, hret, ?_⟩
      rw [hmap]
      simp only [List.nil_append, List.length_nil, List.replicate_zero, List.append_nil,
        List.map_map]
      refine List.map_congr_left fun kit hkit => ?_
      simp only [Function.comp_apply, getElem?_id hinst (hks.subset hkit), Option.map_some]
    · have hret := hrun rest
      cases hscan : scan kits x l with
      | none => rwa [hscan] at hret
      | some r =>
          obtain ⟨ids, left⟩ := r
          obtain ⟨ks, hks, -⟩ := hfinds.mp hscan
          have hsub : (ks.map savedKit).Sublist (kits.map savedKit) := hks.sublist.map _
          have hleft : left = [] := by
            obtain hleft | hlast := hks.stop
            · exact hleft
            · exact h.last hks.eq hsub ((getLast?_map_iff hinst.distinct hks.sublist).mpr hlast)
                (fun hnil => hks.ne_nil (List.map_eq_nil_iff.mp hnil)) hlen (hallshort hks)
          refine absurd ?_ hfit
          rwa [KitsFit, hks.eq, hleft, List.append_nil]

/-- A file that is refused in any case. -/
theorem checksSchema_of_none
    (h : ∀ rest, ∃ left, (loadSchema kits temp).run (s.bytes ++ rest) = some (none, left)) :
    ChecksSchema kits temp s ↔ ¬ KitsFit kits s := by
  constructor
  · intro hc hfit
    obtain ⟨kitIdMap, hload, -⟩ := hc.accepts hfit []
    obtain ⟨left, hnone⟩ := h []
    rw [hload] at hnone
    simp at hnone
  · exact fun hno => ⟨fun hfit => absurd hfit hno, fun _ => h⟩

/-- **The check is right exactly if the file is recognizable.** -/
theorem checksSchema_iff (hinst : Installed kits) :
    ChecksSchema kits temp s ↔ Recognizable kits temp s := by
  cases hs : s.kits with
  | nil =>
      have hfit : KitsFit kits s := by
        rw [KitsFit, hs]
        exact List.nil_sublist _
      constructor
      · intro h
        refine ⟨fun _ => ?_, fun _ => by simp [hs], fun {p l} hp _ _ hne _ _ => ?_⟩
        · obtain ⟨kitIdMap, hload, -⟩ := h.accepts hfit []
          rw [run_empty hs hinst.distinct] at hload
          by_contra hno
          rw [if_neg hno] at hload
          simp at hload
        · exact absurd (List.append_eq_nil_iff.mp (hp.symm.trans hs)).1 hne
      · intro h
        refine ⟨fun _ rest => ⟨[], ?_, by rw [hs]; rfl⟩, fun hno => absurd hfit hno⟩
        rw [run_empty hs hinst.distinct, if_pos (h.empty hs)]
  | cons x l =>
      by_cases hlen : s.kits.length ≤ kits.length
      · by_cases hlong : IsLong x
        · have hnames := s.names
          rw [hs, List.forall_mem_cons] at hnames
          have hk : kits ≠ [] := by
            rintro rfl
            simp [hs] at hlen
          rw [checksSchema_of_none fun rest => ?_]
          · refine ⟨fun hno => ⟨?_, fun hfit => absurd hfit hno, ?_⟩, fun h hfit => ?_⟩
            · exact fun hnil => absurd (hs.symm.trans hnil) (List.cons_ne_nil _ _)
            · intro p l' hp _ _ hne _ hps
              obtain ⟨y, p, rfl⟩ := List.exists_cons_of_ne_nil hne
              obtain ⟨rfl, -⟩ := List.cons.inj (hs.symm.trans hp)
              exact absurd hlong (hps x List.mem_cons_self)
            · exact h.short hfit x (by rw [hs]; exact List.mem_cons_self) hlong
          · obtain ⟨left, hrun⟩ := run_readKit_long temp (l.flatMap kitBytes ++ rest)
              hnames.1 hlong
            refine ⟨left, ?_⟩
            rw [run_loadSchema_eq, if_neg (not_lt.mpr hlen), hs, List.length_cons,
              loadSchemaLoop_read hk, StateT.run_bind, List.flatMap_cons, List.append_assoc, hrun]
            rfl
        · exact checksSchema_cons hinst hs hlong hlen
      · have hnofit : ¬ KitsFit kits s := fun hfit => by
          have := hfit.length_le
          rw [List.length_map] at this
          exact hlen this
        rw [checksSchema_of_none fun rest => ?_]
        · refine ⟨fun hno => ⟨?_, fun hfit => absurd hfit hno, ?_⟩, fun _ => hnofit⟩
          · exact fun hnil => absurd (hs.symm.trans hnil) (List.cons_ne_nil _ _)
          · exact fun _ _ _ _ hlen' => absurd hlen' hlen
        · exact ⟨_, by rw [run_loadSchema_eq, if_pos (not_le.mp hlen)]⟩

end

/-! ### A file that goes on behind the last kit -/

/-- The kits `sys` and `web`. -/
def sysWeb : List Kit :=
  [⟨0, [0x73, 0x79, 0x73], 1, []⟩, ⟨1, [0x77, 0x65, 0x62], 2, []⟩]

theorem installed_sysWeb : Installed sysWeb where
  length_lt := by decide
  ids i kit h := by
    obtain _ | _ | i := i
    · cases h
      rfl
    · cases h
      rfl
    · simp [sysWeb] at h
  names := by decide
  types := by decide
  distinct := by decide

/-- The kits `web` and `pid`. -/
def webPid : SavedKits where
  kits := [([0x77, 0x65, 0x62], 2), ([0x70, 0x69, 0x64], 3)]
  count := by decide
  names := by decide

/-- The kits `sys` and `pid`. -/
def sysPid : SavedKits where
  kits := [([0x73, 0x79, 0x73], 1), ([0x70, 0x69, 0x64], 3)]
  count := by decide
  names := by decide

/-- A file that does not fit is refused if it does not go on behind the last kit. -/
theorem checksSchema_sysPid : ChecksSchema sysWeb [] sysPid := by
  refine (checksSchema_iff installed_sysWeb).mpr ⟨by decide, by decide, ?_⟩
  intro p l hp _ hlast _ _ _
  -- the last kit is `web`, which is not in the file
  have hweb : ([0x77, 0x65, 0x62], 2) ∈ sysPid.kits := by
    rw [hp]
    exact List.mem_append_left _ (List.mem_of_getLast? hlast)
  exact absurd hweb (by decide)

/-- The kit `pid` is not installed, and the file is accepted. -/
theorem not_checksSchema : ¬ ChecksSchema sysWeb [] webPid := by
  intro h
  obtain ⟨left, hload⟩ := h.refuses (by decide) []
  have hrun : (loadSchema sysWeb []).run (webPid.bytes ++ []) =
      some (some [1, 0], [0x70, 0x69, 0x64, 0, 0, 0, 0, 3]) := by decide
  rw [hrun] at hload
  simp at hload

end Sedona.App
