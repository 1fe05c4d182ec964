import Sedona.Compiler.ConstPool
import Sedona.Compiler.JumpTargets
import Sedona.Compiler.VTableImage

/-!
# The Tables of the Constant Pool

The entries of the literals stand one behind the other, behind everything that has a cell for a
block index. So the parts of a literal stay as they were written, and are apart from those of every
other literal. Every literal that the code refers to is in the pool.

## Main results

* `pool_constTables`: the literals after all tables are written.
* `generate_pool`: the literals in the image, and what the cells of the code refer to.
-/

namespace Sedona.ImageGen

open ByteCells Write

variable {img : SCodeImage} {s s' s₀ s₁ : Gen}

/-! ### The literals that are written -/

/-- The literals, and the strings of an array. -/
def Addr.isConst : Addr → Bool
  | .arrayStr .. => true
  | a => a.isLiteral

/-- The literals of `done` are in what was written since `s₀`. -/
structure Pool (img : SCodeImage) (s₀ s : Gen) (done : Addr → Prop) : Prop where
  size_le : s₀.code.length ≤ s.code.length
  code : ∃ bs, s.code = s₀.code ++ bs
  backpatch : s.backpatch = s₀.backpatch
  literal {a : Addr} (ha : done a) : a.isLiteral
  stored {a : Addr} (ha : done a) {p : ℕ × List Byte} (hp : p ∈ literalParts img s.blockIndex a) :
    s₀.code.length ≤ p.1 ∧ p.1 + p.2.length ≤ s.code.length ∧ p.2 <+: s.code.drop p.1
  apart {a : Addr} (ha : done a) : (literalParts img s.blockIndex a).Pairwise PartsApart
  disjoint {a b : Addr} (ha : done a) (hb : done b) (hne : a ≠ b) {p q : ℕ × List Byte}
    (hp : p ∈ literalParts img s.blockIndex a) (hq : q ∈ literalParts img s.blockIndex b) :
    PartsApart p q
  aligned {a : Addr} (ha : done a) (harm : ∀ bits, a = .double bits → img.armDouble = false) :
    a.unit ∣ img.blockSize * s.blockIndex a
  chars {a : Addr} (ha : done a) {str : String} (hstr : str ∈ a.strings) {c : Char}
    (hc : c ∈ str.toList) : c.toNat ≤ 255

/-- The parts of a literal depend on the block indices of its own. -/
theorem literalParts_congr {a : Addr} {ix ix' : Addr → ℕ} (ha : ix' a = ix a)
    (hstr : ∀ lit j, a = .array lit → ix' (.arrayStr lit j) = ix (.arrayStr lit j)) :
    literalParts img ix' a = literalParts img ix a := by
  cases a with
  | array lit =>
    cases lit with
    | strs vals =>
      have hbytes : arrayBytes img ix' (.strs vals) = arrayBytes img ix (.strs vals) :=
        List.flatMap_congr fun v _ => by rw [hstr _ _ rfl]
      have hparts : stringParts img ix' (.strs vals) vals.zipIdx =
          stringParts img ix (.strs vals) vals.zipIdx :=
        List.map_congr_left fun v _ => by rw [hstr _ _ rfl]
      rw [literalParts, literalParts, ha, literalBytes, literalBytes, hbytes, hparts]
    | _ =>
      rw [literalParts_of_isWhole rfl, literalParts_of_isWhole rfl, ha]
      rfl
  | _ =>
    rw [literalParts_of_isWhole rfl, literalParts_of_isWhole rfl, ha]
    rfl

namespace Pool

variable {done : Addr → Prop}

theorem start (img : SCodeImage) (s : Gen) : Pool img s s fun _ => False where
  size_le := le_rfl
  code := ⟨[], (List.append_nil _).symm⟩
  backpatch := rfl
  literal := False.elim
  stored := False.elim
  apart := False.elim
  disjoint := False.elim
  aligned := False.elim
  chars := False.elim

theorem mono {done' : Addr → Prop} (h : Pool img s₀ s done) (hdone : ∀ a, done' a → done a) :
    Pool img s₀ s done' where
  __ := h
  literal ha := h.literal (hdone _ ha)
  stored ha := h.stored (hdone _ ha)
  apart ha := h.apart (hdone _ ha)
  disjoint ha hb := h.disjoint (hdone _ ha) (hdone _ hb)
  aligned ha := h.aligned (hdone _ ha)
  chars ha := h.chars (hdone _ ha)

/-- More bytes, and no literal placed. -/
theorem extend (h : Pool img s₀ s done) (hcode : ∃ bs, s'.code = s.code ++ bs)
    (hback : s'.backpatch = s.backpatch)
    (hix : ∀ a, done a → literalParts img s'.blockIndex a = literalParts img s.blockIndex a)
    (hself : ∀ a, done a → s'.blockIndex a = s.blockIndex a) : Pool img s₀ s' done := by
  obtain ⟨bs, hbs⟩ := hcode
  have hlen : s.code.length ≤ s'.code.length := by
    rw [hbs, List.length_append]
    exact Nat.le_add_right _ _
  exact
    { size_le := h.size_le.trans hlen
      code := by
        obtain ⟨cs, hcs⟩ := h.code
        exact ⟨cs ++ bs, by rw [hbs, hcs, List.append_assoc]⟩
      backpatch := hback.trans h.backpatch
      literal := h.literal
      stored := fun ha p hp => by
        rw [hix _ ha] at hp
        obtain ⟨hlo, hhi, hprefix⟩ := h.stored ha hp
        rw [hbs, ← hbs]
        refine ⟨hlo, hhi.trans hlen, ?_⟩
        rw [hbs]
        exact prefix_drop_of_append hprefix ((Nat.le_add_right _ _).trans hhi) bs
      apart := fun ha => hix _ ha ▸ h.apart ha
      disjoint := fun ha hb hne p q hp hq => by
        rw [hix _ ha] at hp
        rw [hix _ hb] at hq
        exact h.disjoint ha hb hne hp hq
      aligned := fun ha harm => hself _ ha ▸ h.aligned ha harm
      chars := h.chars }

/-- The entry of one literal more. -/
theorem store {a : Addr} (h : Pool img s₀ s done) (ha : a.isLiteral) (hs : Stores img s s' a) :
    Pool img s₀ s' fun b => b = a ∨ done b := by
  have hne : ∀ lit j, a ≠ .arrayStr lit j := by
    rintro lit j rfl
    cases ha
  have hother : ∀ b, b.isLiteral → b ≠ a → s'.blockIndex b = s.blockIndex b :=
    fun b hb hba => hs.frame hba fun lit j _ heq => by
      rw [heq] at hb
      cases hb
  have hstrs : ∀ b, b ≠ a → ∀ lit j, b = .array lit →
      s'.blockIndex (.arrayStr lit j) = s.blockIndex (.arrayStr lit j) := by
    rintro b hba lit j rfl
    refine hs.frame (hne lit j).symm fun lit' j' heq heq' => hba ?_
    rw [heq, (Addr.arrayStr.inj heq').1]
  have hparts : ∀ b, done b → b ≠ a →
      literalParts img s'.blockIndex b = literalParts img s.blockIndex b := fun b hb hba =>
    literalParts_congr (hother b (h.literal hb) hba) (hstrs b hba)
  have hold : Pool img s₀ s' fun b => done b ∧ b ≠ a :=
    (h.mono fun _ hb => hb.1).extend hs.code hs.backpatch (fun b hb => hparts b hb.1 hb.2)
      fun b hb => hother b (h.literal hb.1) hb.2
  have hbehind : ∀ b, done b → b ≠ a → ∀ p ∈ literalParts img s'.blockIndex b,
      ∀ q ∈ literalParts img s'.blockIndex a, PartsApart p q := fun b hb hba p hp q hq => by
    rw [hparts b hb hba] at hp
    exact .inl ((h.stored hb hp).2.1.trans (hs.stored hq).1)
  exact
    { size_le := hold.size_le
      code := hold.code
      backpatch := hold.backpatch
      literal := fun {b} hb => hb.elim (fun heq => heq ▸ ha) h.literal
      stored := fun {b} hb p hp => by
        rcases eq_or_ne b a with rfl | hba
        · obtain ⟨hlo, hrest⟩ := hs.stored hp
          exact ⟨h.size_le.trans hlo, hrest⟩
        · exact hold.stored ⟨hb.resolve_left hba, hba⟩ hp
      apart := fun {b} hb => by
        rcases eq_or_ne b a with rfl | hba
        · exact hs.apart
        · exact hold.apart ⟨hb.resolve_left hba, hba⟩
      disjoint := fun {b c} hb hc hbc p q hp hq => by
        rcases eq_or_ne b a with rfl | hba
        · exact (hbehind c (hc.resolve_left hbc.symm) hbc.symm q hq p hp).symm
        · rcases eq_or_ne c a with rfl | hca
          · exact hbehind b (hb.resolve_left hba) hba p hp q hq
          · exact hold.disjoint ⟨hb.resolve_left hba, hba⟩ ⟨hc.resolve_left hca, hca⟩ hbc hp hq
      aligned := fun {b} hb harm => by
        rcases eq_or_ne b a with rfl | hba
        · exact hs.aligned harm
        · exact hold.aligned ⟨hb.resolve_left hba, hba⟩ harm
      chars := fun {b} hb str hstr c hc => by
        rcases eq_or_ne b a with rfl | hba
        · exact hs.chars hstr hc
        · exact h.chars (hb.resolve_left hba) hstr hc }

/-- Padding, checks, and objects that are no constants. -/
theorem skip (h : Pool img s₀ s done) (hcode : ∃ bs, s'.code = s.code ++ bs)
    (hback : s'.backpatch = s.backpatch)
    (hix : ∀ a : Addr, a.isConst → s'.blockIndex a = s.blockIndex a) : Pool img s₀ s' done := by
  have hself : ∀ a, done a → s'.blockIndex a = s.blockIndex a := fun a ha => hix a <| by
    have hlit := h.literal ha
    cases a <;> first | rfl | cases hlit
  exact h.extend hcode hback
    (fun a ha => literalParts_congr (hself a ha) fun lit j _ => hix _ rfl) hself

theorem skip_fixed (h : Pool img s₀ s done) {ws : List Write} (hws : ∀ w ∈ ws, w.isFixed)
    (hrun : emit img s ws = .ok s') : Pool img s₀ s' done := by
  obtain rfl := emit_fixed hws hrun
  exact h.skip ⟨_, rfl⟩ rfl fun _ _ => rfl

theorem skip_pads (h : Pool img s₀ s done) {ws : List Write} (hws : ∀ w ∈ ws, w.isPad)
    (hrun : emit img s ws = .ok s') : Pool img s₀ s' done := by
  obtain ⟨n, rfl⟩ := emit_pads hws hrun
  exact h.skip ⟨_, rfl⟩ rfl fun _ _ => rfl

theorem skip_tableStart (h : Pool img s₀ s done) {n : ℕ}
    (hrun : emit img s (tableStart n) = .ok s') : Pool img s₀ s' done := by
  have hsplit : emit img s ([.align n] ++ [.checkBlock, .checkSize n]) = .ok s' := hrun
  obtain ⟨s₁, hpad, hcheck⟩ := emit_split hsplit
  exact (h.skip_pads (by simp [Write.isPad]) hpad).skip_fixed (by simp [Write.isFixed]) hcheck

/-- An object that is no constant, with its cells. -/
theorem skip_object {b : Addr} (h : Pool img s₀ s done) (body : List Write) (hb : ¬b.isConst)
    (hbody : ∀ w ∈ body, w.isFixed)
    (hrun : emit img s (place b :: (body ++ [blockAlign])) = .ok s') : Pool img s₀ s' done := by
  obtain ⟨k, n, -, rfl⟩ := emit_entry _ hbody (by simp [Write.isPad]) hrun
  refine h.skip ⟨_, by simp only [Gen.pad, Gen.append, Gen.placeAt, List.append_assoc]; rfl⟩ rfl
    fun a ha => placeAt_ne s k ?_
  rintro rfl
  exact hb ha

/-! ### The tables -/

/-- A table of literals, with an entry for each key of its kind. -/
theorem entries {entry : Addr → List Write} {keys : List Addr}
    (hentry : ∀ a s s', emit img s (entry a) = .ok s' → entry a ≠ [] →
      a.isLiteral ∧ Stores img s s' a)
    (h : Pool img s₀ s done) (hrun : emit img s (keys.flatMap entry) = .ok s') :
    Pool img s₀ s' fun a => done a ∨ a ∈ keys ∧ entry a ≠ [] := by
  induction keys generalizing s done with
  | nil =>
    obtain rfl := Except.ok.inj hrun
    exact h.mono fun a ha => ha.resolve_right fun hk => List.not_mem_nil hk.1
  | cons k keys ih =>
    rw [List.flatMap_cons] at hrun
    obtain ⟨s₁, hfirst, hrest⟩ := emit_split hrun
    by_cases hk : entry k = []
    · rw [hk] at hfirst
      obtain rfl := Except.ok.inj hfirst
      refine (ih h hrest).mono fun a ha => ha.imp_right fun h => ⟨?_, h.2⟩
      exact (List.mem_cons.mp h.1).resolve_left fun heq => h.2 (heq ▸ hk)
    · obtain ⟨hlit, hstores⟩ := hentry k s s₁ hfirst hk
      refine (ih (h.store hlit hstores) hrest).mono fun a ha => ?_
      rcases ha with ha | ⟨hmem, hne⟩
      · exact .inl (.inr ha)
      · rcases List.mem_cons.mp hmem with rfl | hmem
        · exact .inl (.inl rfl)
        · exact .inr ⟨hmem, hne⟩

/-- A table of objects that are no constants. -/
theorem skip_entries {entry : Addr → List Write} {keys : List Addr}
    (hentry : ∀ a s s', Pool img s₀ s done → emit img s (entry a) = .ok s' → Pool img s₀ s' done)
    (h : Pool img s₀ s done) (hrun : emit img s (keys.flatMap entry) = .ok s') :
    Pool img s₀ s' done := by
  induction keys generalizing s with
  | nil => exact Except.ok.inj hrun ▸ h
  | cons k keys ih =>
    rw [List.flatMap_cons] at hrun
    obtain ⟨s₁, hfirst, hrest⟩ := emit_split hrun
    exact ih (hentry k s s₁ h hfirst) hrest

/-- The tables of the numbers. -/
theorem numbers {keys : List Addr} (h : Pool img s₀ s done)
    (hrun : emit img s (numberTables img keys) = .ok s') :
    Pool img s₀ s' fun a => done a ∨ a ∈ keys ∧
      (intEntry a ≠ [] ∨ floatEntry a ≠ [] ∨ longEntry a ≠ [] ∨ doubleEntry img a ≠ []) := by
  obtain ⟨s₃, hrun, hdouble⟩ := emit_split hrun
  obtain ⟨s₂, hrun, hlong⟩ := emit_split hrun
  obtain ⟨s₁, hint, hfloat⟩ := emit_split hrun
  obtain ⟨t₁, hstart₁, hint⟩ := emit_split hint
  obtain ⟨t₂, hstart₂, hfloat⟩ := emit_split hfloat
  obtain ⟨t₃, hstart₃, hlong⟩ := emit_split hlong
  obtain ⟨t₄, hstart₄, hdouble⟩ := emit_split hdouble
  have hints := (h.skip_tableStart hstart₁).entries (fun a s s' h ha => by
    cases a with
    | int v => exact ⟨rfl, stores_intEntry h⟩
    | _ => exact absurd rfl ha) hint
  have hfloats := (hints.skip_tableStart hstart₂).entries (fun a s s' h ha => by
    cases a with
    | float bits => exact ⟨rfl, stores_floatEntry h⟩
    | _ => exact absurd rfl ha) hfloat
  have hlongs := (hfloats.skip_tableStart hstart₃).entries (fun a s s' h ha => by
    cases a with
    | long v => exact ⟨rfl, stores_longEntry h⟩
    | _ => exact absurd rfl ha) hlong
  have hdoubles := (hlongs.skip_tableStart hstart₄).entries (fun a s s' h ha => by
    cases a with
    | double bits => exact ⟨rfl, stores_doubleEntry h⟩
    | _ => exact absurd rfl ha) hdouble
  exact hdoubles.mono fun a ha => by tauto

/-- **All tables.** -/
theorem constTables {keys : List Addr} (hrun : emit img s (constTables img keys) = .ok s') :
    Pool img s s' fun a => a ∈ keys ∧ a.isLiteral := by
  obtain ⟨s₅, hrun, hslots⟩ := emit_split hrun
  obtain ⟨s₄, hrun, htypes⟩ := emit_split hrun
  obtain ⟨s₃, hrun, harrays⟩ := emit_split hrun
  obtain ⟨s₂, hrun, hbufs⟩ := emit_split hrun
  obtain ⟨s₁, hnumbers, hstrings⟩ := emit_split hrun
  obtain ⟨t₃, hstart, hbufs⟩ := emit_split hbufs
  obtain ⟨t₄, harrays, hend⟩ := emit_split harrays
  obtain ⟨t₅, halign, htypes⟩ := @emit_split img _ _ _ _ [.align 2] _ htypes
  obtain ⟨t₆, halign', hslots⟩ := @emit_split img _ _ _ _ [.align 2] _ hslots
  have h₁ := (Pool.start img s).numbers hnumbers
  have h₂ := h₁.entries (fun a s s' h ha => by
    cases a with
    | str v => exact ⟨rfl, stores_strEntry h⟩
    | _ => exact absurd rfl ha) hstrings
  have h₃ := (h₂.skip_tableStart hstart).entries (fun a s s' h ha => by
    cases a with
    | buf b => exact ⟨rfl, stores_bufEntry h⟩
    | _ => exact absurd rfl ha) hbufs
  have h₄ := h₃.entries (fun a s s' h ha => by
    cases a with
    | array lit => exact ⟨rfl, stores_arrayEntry h⟩
    | _ => exact absurd rfl ha) harrays
  have h₅ := ((h₄.skip_pads (by simp [Write.isPad]) hend).skip_pads (by simp [Write.isPad])
    halign).skip_entries (fun a s s' hp h => by
      cases a with
      | qnameType t =>
        exact hp.skip_object [checkPlaced (.str t.kit), u2BlockIndex (.str t.kit),
          u2BlockIndex (.str t.name)] (by simp [Addr.isConst, Addr.isLiteral])
          (by simp [Write.isFixed]) h
      | _ => exact Except.ok.inj h ▸ hp) htypes
  have h₆ := (h₅.skip_pads (by simp [Write.isPad]) halign').skip_entries (fun a s s' hp h => by
      cases a with
      | qnameSlot t =>
        exact hp.skip_object [checkPlaced (.qnameType t.parent),
          checkPlaced (.str t.name), u2BlockIndex (.qnameType t.parent),
          u2BlockIndex (.str t.name)] (by simp [Addr.isConst, Addr.isLiteral])
          (by simp [Write.isFixed]) h
      | _ => exact Except.ok.inj h ▸ hp) hslots
  refine h₆.mono fun a ha => ?_
  obtain ⟨hmem, hlit⟩ := ha
  cases a with
  | int v => exact .inl (.inl (.inl (.inr ⟨hmem, .inl (List.cons_ne_nil _ _)⟩)))
  | float v => exact .inl (.inl (.inl (.inr ⟨hmem, .inr (.inl (List.cons_ne_nil _ _))⟩)))
  | long v => exact .inl (.inl (.inl (.inr ⟨hmem, .inr (.inr (.inl (List.cons_ne_nil _ _)))⟩)))
  | double v => exact .inl (.inl (.inl (.inr ⟨hmem, .inr (.inr (.inr (List.cons_ne_nil _ _)))⟩)))
  | str v => exact .inl (.inl (.inr ⟨hmem, List.cons_ne_nil _ _⟩))
  | buf b => exact .inl (.inr ⟨hmem, List.cons_ne_nil _ _⟩)
  | array lit => exact .inr ⟨hmem, List.cons_ne_nil _ _⟩
  | _ => cases hlit

end Pool

/-! ### What the code refers to -/

theorem mem_intern {pool : List Addr} {a b : Addr} (hb : b ∈ pool) : b ∈ intern pool a := by
  cases a with
  | qnameType t => exact mem_poolQnameType hb
  | qnameSlot t =>
    rw [intern, poolQnameSlot]
    split
    · exact hb
    · simp only [mem_put, mem_poolQnameType hb, or_true]
  | int | long | float | double | str | buf | array => exact mem_put.mpr (.inr hb)
  | _ => exact hb

theorem self_mem_intern {pool : List Addr} {a : Addr} (ha : a.isLiteral) : a ∈ intern pool a := by
  cases a with
  | int | long | float | double | str | buf | array => exact mem_put.mpr (.inl rfl)
  | _ => cases ha

/-- The pool of `l'` has the literals that its new cells refer to. -/
structure Layout.Asks (l l' : Layout) : Prop where
  pool {a : Addr} (h : a ∈ l.pool) : a ∈ l'.pool
  cells {off : ℕ} {a : Addr} (h : (off, .obj a) ∈ l'.cells) (ha : a.isLiteral) :
    (off, .obj a) ∈ l.cells ∨ a ∈ l'.pool

namespace Layout.Asks

variable {l l' l'' : Layout}

theorem refl (l : Layout) : Asks l l := ⟨id, fun h _ => .inl h⟩

theorem trans (h : Asks l l') (h' : Asks l' l'') : Asks l l'' where
  pool ha := h'.pool (h.pool ha)
  cells hc ha := (h'.cells hc ha).elim (fun hc => (h.cells hc ha).imp_right h'.pool) .inr

theorem write {w : Write} (h : l.write img w = .ok l') : Asks l l' := by
  have hstep := Layout.writeStep h
  cases hstep with
  | grow | header | place => exact ⟨id, fun hc _ => .inl hc⟩
  | u2BlockIndex a =>
    refine ⟨id, fun {off b} hc _ => .inl ((List.mem_cons.mp hc).resolve_left fun heq => ?_)⟩
    have htarget : l.target a = .obj b := (Prod.mk.inj heq).2.symm
    rw [Layout.target] at htarget
    split at htarget <;> cases htarget
  | addBlockIndex a pool =>
    simp only [Layout.write] at h
    split at h
    · cases h
    · have hpool : pool = intern l.pool a :=
        congrArg Layout.pool (Except.ok.inj h).symm
      subst hpool
      refine ⟨mem_intern, fun {off b} hc hb => ?_⟩
      rcases List.mem_cons.mp hc with heq | hc
      · obtain rfl := Target.obj.inj (Prod.mk.inj heq).2
        exact .inr (self_mem_intern hb)
      · exact .inl hc

theorem foldlM {α : Type} {f : Layout → α → Except String Layout} {as : List α}
    (h : as.foldlM f l = .ok l') (hstep : ∀ a l l', f l a = .ok l' → Asks l l') : Asks l l' := by
  induction as generalizing l with
  | nil => exact Except.ok.inj h ▸ refl l
  | cons a as ih =>
    rw [List.foldlM_cons] at h
    obtain ⟨l₁, h₁, h⟩ := Lockstep.bind_eq_ok.mp h
    exact (hstep a l l₁ h₁).trans (ih h)

theorem emit {ws : List Write} (h : ImageGen.emit img l ws = .ok l') : Asks l l' :=
  foldlM h fun _ _ _ h => write h

theorem emitOps {ops : List IrOp} {pos : List ℕ} (h : ImageGen.emitOps img l ops = .ok (l', pos)) :
    Asks l l' := by
  induction ops generalizing l pos with
  | nil => exact (Prod.mk.inj (Except.ok.inj h)).1 ▸ refl l
  | cons op ops ih =>
    obtain ⟨l₁, h₁, h⟩ := Lockstep.bind_eq_ok.mp h
    obtain ⟨l₂, h₂, h⟩ := Lockstep.bind_eq_ok.mp h
    obtain ⟨⟨l₃, ps⟩, h₃, h⟩ := Lockstep.bind_eq_ok.mp h
    obtain ⟨rfl, -⟩ := Prod.mk.inj (Except.ok.inj h)
    exact ((write h₁).trans (emit h₂)).trans (ih h₃)

/-- A round that is not the last one leaves its pool. -/
theorem opsLoop {rounds : ℕ} {ops : List IrOp} (h : ImageGen.opsLoop img l rounds ops = .ok l') :
    Asks l l' := by
  induction rounds generalizing l ops with
  | zero => cases h
  | succ rounds ih =>
    obtain ⟨⟨l₁, pos⟩, h₁, h'⟩ := Lockstep.bind_eq_ok.mp h
    obtain ⟨⟨l₂, ops'⟩, h₂, hround⟩ := Lockstep.bind_eq_ok.mp h'
    obtain rfl := Grows.patchJumps_eq h₂
    dsimp only at hround
    split at hround
    · have hpool : Asks l (Emitter.withPool l (Emitter.pool l₂)) :=
        ⟨(emitOps h₁).pool, fun hc _ => .inl hc⟩
      exact hpool.trans (ih hround)
    · exact Grows.patchSwitches_eq hround ▸ emitOps h₁

theorem method {m : IrMethod} (h : ImageGen.method img l m = .ok l') : Asks l l' := by
  unfold ImageGen.method at h
  split at h
  · exact Except.ok.inj h ▸ refl l
  · obtain ⟨l₁, h₁, h⟩ := Lockstep.bind_eq_ok.mp h
    cases hcode : m.code with
    | none =>
      rw [hcode] at h
      exact (emit h₁).trans (emit h)
    | some code =>
      rw [hcode] at h
      obtain ⟨l₂, h₂, h⟩ := Lockstep.bind_eq_ok.mp h
      exact ((emit h₁).trans (opsLoop h₂)).trans (emit h)

end Layout.Asks

/-! ### The image -/

variable {order : PoolOrder} {flat : IrFlat}

/-- `ImageGen.generate` up to the constant pool. -/
def generateObjects {σ : Type} [Emitter σ] (img : SCodeImage) (flat : IrFlat) : Except String σ := do
  let s ← emit img Emitter.empty (headerFields img flat)
  let s ← emit img s (resumeBlockIndex img flat ++ bootstrap img flat)
  let s ← emit img s (vtables flat)
  let s ← emit img s (kits flat ++ types flat ++ slots flat ++ logs flat)
  let s ← flat.methods.foldlM (method img) s
  emit img s (tests img flat)

theorem generateCode_eq {σ : Type} [Emitter σ] : (generateCode img order flat : Except String σ) =
    (generateObjects img flat : Except String σ) >>= fun s =>
      emit img s (constTables img (order.keys (Emitter.pool s))) := by
  simp only [generateCode, generateObjects, bind_assoc]

theorem generateObjects_lockstep :
    Lockstep (Rel img) (generateObjects img flat : Except String Gen)
      (generateObjects img flat : Except String Layout) := by
  refine headerFields_lockstep.bind fun s₁ l₁ h₁ => ?_
  have hboot : Plain (resumeBlockIndex img flat ++ bootstrap img flat) :=
    Plain.append.mpr ⟨Plain.resumeBlockIndex flat, Plain.bootstrap flat⟩
  refine (h₁.emit_plain hboot).bind fun s₂ l₂ h₂ => ?_
  refine (h₂.emit (wellPlaced_vtables flat)).bind fun s₃ l₃ h₃ => ?_
  refine (h₃.emit_plain (Plain.metadata flat)).bind fun s₄ l₄ h₄ => ?_
  have hmethods := Lockstep.foldlM flat.methods h₄ fun m _ _ _ h => Rel.method h m
  exact hmethods.bind fun s₅ l₅ h₅ => h₅.emit_plain (Plain.tests flat)

theorem generateObjects_asks {l : Layout} (h : generateObjects img flat = .ok l) {off : ℕ}
    {a : Addr} (hc : (off, .obj a) ∈ l.cells) (ha : a.isLiteral) : a ∈ l.pool := by
  obtain ⟨l₁, h₁, h⟩ := Lockstep.bind_eq_ok.mp h
  obtain ⟨l₂, h₂, h⟩ := Lockstep.bind_eq_ok.mp h
  obtain ⟨l₃, h₃, h⟩ := Lockstep.bind_eq_ok.mp h
  obtain ⟨l₄, h₄, h⟩ := Lockstep.bind_eq_ok.mp h
  obtain ⟨l₅, h₅, h⟩ := Lockstep.bind_eq_ok.mp h
  have hall := (((((Layout.Asks.emit h₁).trans (.emit h₂)).trans (.emit h₃)).trans
    (.emit h₄)).trans (.foldlM h₅ fun _ _ _ h => .method h)).trans (.emit h)
  exact (hall.cells hc ha).resolve_left List.not_mem_nil

/-- **The literals of an image.** The code refers to literals of the pool only, and these are in the
image as they were written. -/
theorem generate_pool {image : List Byte} (h : generate img order flat = .ok image) :
    ∃ (s₀ s : Gen) (l : Layout), layout img order flat = .ok l ∧ Rel img s l ∧
      24 ≤ s₀.code.length ∧
      Pool img s₀ s (fun a => ∃ off, (off, .obj a) ∈ l.cells ∧ a.isLiteral) ∧
      ∀ i, s₀.code.length ≤ i → image[i]? = s.code[i]? := by
  obtain ⟨l, hl, -⟩ := generate_lockstep.ok_left h
  obtain ⟨s, hgen, hbytes⟩ := generate_bytes h
  have hgen' := hgen
  rw [generateCode_eq] at hgen'
  obtain ⟨s₀, hobjects, hconst⟩ := Lockstep.bind_eq_ok.mp hgen'
  obtain ⟨l₀, hobjects', hrel₀⟩ := generateObjects_lockstep.ok_left hobjects
  obtain ⟨l', hgenl, hrel⟩ := generateCode_lockstep.ok_left hgen
  obtain rfl : l' = l := by
    obtain ⟨l₁, hl₁, hfinish⟩ := Lockstep.bind_eq_ok.mp hl
    obtain rfl := Except.ok.inj (hgenl.symm.trans hl₁)
    unfold Layout.finish at hfinish
    split at hfinish
    · exact Except.ok.inj hfinish
    · cases hfinish
  have hpool := Pool.constTables hconst
  have hcells : ∀ off a, (off, .obj a) ∈ l'.cells ↔ (off, .obj a) ∈ l₀.cells := fun off a => by
    rw [← mem_patches, ← mem_patches, ← hrel.backpatch, ← hrel₀.backpatch, hpool.backpatch]
  refine ⟨s₀, s, l', hl, hrel, hrel₀.size ▸ hrel₀.header_written, hpool.mono ?_, fun i hi => ?_⟩
  · rintro a ⟨off, hc, ha⟩
    have hmem := generateObjects_asks hobjects' ((hcells off a).mp hc) ha
    rw [← hrel₀.pool] at hmem
    exact ⟨(order.perm _).mem_iff.mpr hmem, ha⟩
  · refine hbytes i ((hrel₀.size ▸ hrel₀.header_written).trans hi) fun c hc => .inr ?_
    rw [hpool.backpatch, hrel₀.backpatch] at hc
    have hbound := (hrel₀.bounds (mem_patches.mp hc)).2
    rw [← hrel₀.size] at hbound
    exact hbound.trans hi

end Sedona.ImageGen
