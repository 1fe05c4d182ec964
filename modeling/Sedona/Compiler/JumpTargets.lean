import Sedona.Compiler.JumpPatch

/-!
# Where Jumps Lead

The code of a method is written with its jumps and tables patched. What the generator writes after
that is behind it, in the header, or in a cell for a block index, and such cells are in no
instruction that jumps. So in the image the VM goes from each jump to the instruction of its label.

## Main results

* `Keeps.write`, `Keeps.method`: what is written stays, but for the header.
* `jumpEncoding`: all jumps and tables lead to the instructions of their labels.
* `not_jumpEncoding`: the entries of a table are not relative to the method.
-/

namespace Sedona.ImageGen

open ByteCells Write

variable {img : SCodeImage} {s s' s₁ : Gen} {i : ℕ}

/-! ### What stays -/

/-- What is written stays, but for the header, and new cells are behind it. -/
structure Keeps (s s' : Gen) : Prop where
  le : s.code.length ≤ s'.code.length
  bytes {i : ℕ} (hlo : 24 ≤ i) (hhi : i < s.code.length) : s'.code[i]? = s.code[i]?
  cells : ∃ new, s'.backpatch = new ++ s.backpatch ∧
    ∀ c ∈ new, s.code.length ≤ c.1 ∧ c.1 + 2 ≤ s'.code.length

namespace Keeps

theorem refl (s : Gen) : Keeps s s where
  le := le_rfl
  bytes _ _ := rfl
  cells := ⟨[], rfl, fun _ hc => absurd hc List.not_mem_nil⟩

theorem trans (h : Keeps s s₁) (h' : Keeps s₁ s') : Keeps s s' where
  le := h.le.trans h'.le
  bytes hlo hhi := (h'.bytes hlo (hhi.trans_le h.le)).trans (h.bytes hlo hhi)
  cells := by
    obtain ⟨new, hnew, hcells⟩ := h.cells
    obtain ⟨new', hnew', hcells'⟩ := h'.cells
    refine ⟨new' ++ new, by rw [hnew', hnew, List.append_assoc], fun c hc => ?_⟩
    rcases List.mem_append.mp hc with hc | hc
    · exact ⟨h.le.trans (hcells' c hc).1, (hcells' c hc).2⟩
    · exact ⟨(hcells c hc).1, (hcells c hc).2.trans h'.le⟩

theorem append (s : Gen) (bs : List Byte) : Keeps s (s.append bs) where
  le := by simp [Gen.append]
  bytes _ hhi := List.getElem?_append_left hhi
  cells := ⟨[], rfl, fun _ hc => absurd hc List.not_mem_nil⟩

theorem u2 {v : JInt} {checkAlign : Bool} (h : s.u2 img v checkAlign = .ok s') : Keeps s s' := by
  rw [Gen.u2] at h
  split at h
  · cases h
  · cases h
    exact append s _

/-- A cell of the header. -/
theorem header {c : HeaderCell} {v : JInt} (h : s.u2At img c.off v true = .ok s') :
    Keeps s s' := by
  rw [Gen.u2At] at h
  split at h
  · cases h
  · cases h
    refine ⟨(length_overwrite ..).ge, fun hlo _ => ?_, [], rfl,
      fun _ hc => absurd hc List.not_mem_nil⟩
    have := c.off_bounds
    exact getElem?_overwrite_of_disjoint (by rw [length_u2Bytes]; omega)

/-- One write. -/
theorem write {w : Write} (h : s.write img w = .ok s') : Keeps s s' := by
  cases w with
  | u1 v =>
    cases h
    exact append s _
  | u2 v checkAlign => exact u2 h
  | i4 v | i8 v =>
    simp only [Gen.write] at h
    split at h
    · cases h
    · cases h
      exact append s _
  | append b =>
    cases h
    exact append s _
  | align a | padArg a =>
    cases h
    exact append s _
  | blockAlign =>
    simp only [Gen.write] at h
    split at h
    · cases h
    · cases h
      exact append s _
  | place a =>
    obtain ⟨ix, -, h⟩ := Lockstep.bind_eq_ok.mp h
    cases h
    exact ⟨le_rfl, fun _ _ => rfl, [], rfl, fun _ hc => absurd hc List.not_mem_nil⟩
  | addBlockIndex a =>
    simp only [Gen.write] at h
    obtain ⟨hle, hbytes, new, hnew, hcells⟩ := u2 h
    rw [Gen.u2] at h
    split at h
    · cases h
    · cases h
      refine ⟨hle, hbytes, [(s.code.length, a)], rfl, fun c hc => ?_⟩
      rw [List.mem_singleton.mp hc]
      exact ⟨le_rfl, by simp [Gen.append]⟩
  | headerIndex c =>
    obtain ⟨ix, -, h⟩ := Lockstep.bind_eq_ok.mp h
    exact header h
  | headerZero c => exact header h
  | u2BlockIndex a => exact u2 h
  | checkPlaced a | checkSize a =>
    simp only [Gen.write] at h
    split at h
    · cases h
    · cases h
      exact refl _
  | checkBlock =>
    simp only [Gen.write] at h
    split at h
    · cases h
    · split at h
      · cases h
      · cases h
        exact refl _
  | throw msg => cases h

theorem emit {ws : List Write} (h : emit img s ws = .ok s') : Keeps s s' := by
  induction ws generalizing s with
  | nil =>
    cases h
    exact refl _
  | cons w ws ih =>
    obtain ⟨s₁, hw, hrest⟩ := emit_cons.mp h
    exact (write hw).trans (ih hrest)

/-- The code of a method. -/
theorem coded {ops : List IrOp} (h : Coded img s s' ops) : Keeps s s' where
  le := h.length ▸ le_endOf _ ops
  bytes _ hhi := h.keep hhi
  cells := by
    obtain ⟨new, hnew, hcells⟩ := h.cells
    refine ⟨new, hnew, fun c hc => ?_⟩
    obtain ⟨x, hx, -, hlo, hhi⟩ := hcells c hc
    obtain ⟨hstart, hend⟩ := placed_bounds hx
    exact ⟨hstart.trans hlo.le, h.length ▸ hhi.trans hend⟩

end Keeps

/-- What stands in front of the code of a method. -/
def methodHead (img : SCodeImage) (m : IrMethod) : List Write :=
  [place (.code m.slot), u1 (BitVec.ofNat 32 m.numParams), u1 m.maxLocals] ++ metaSlot img m.slot

/-- A method that has code: its head, its code, and padding. -/
theorem method_code {m : IrMethod} {code : List IrOp} (habstract : m.isAbstract = false)
    (hnative : m.isNative = false) (hcode : m.code = some code) (h : method img s m = .ok s') :
    ∃ s₁ s₂ code', emit img s (methodHead img m) = .ok s₁ ∧ List.Forall₂ Widened code code' ∧
      Coded img s₁ s₂ code' ∧ Keeps s₂ s' := by
  rw [method, habstract, hnative, hcode] at h
  obtain ⟨s₁, hhead, h⟩ := Lockstep.bind_eq_ok.mp h
  obtain ⟨s₂, hops, h⟩ := Lockstep.bind_eq_ok.mp h
  obtain ⟨code', hwiden, hcoded⟩ := ops_spec hops
  exact ⟨s₁, s₂, code', hhead, hwiden, hcoded, Keeps.emit h⟩

theorem Keeps.method {m : IrMethod} (h : method img s m = .ok s') : Keeps s s' := by
  by_cases hnone : m.isAbstract || m.isNative
  · rw [ImageGen.method, if_pos hnone] at h
    cases h
    exact .refl _
  · rw [Bool.or_eq_true, not_or, Bool.not_eq_true, Bool.not_eq_true] at hnone
    rcases hcode : m.code with _ | code
    · rw [ImageGen.method, hnone.1, hnone.2, hcode] at h
      obtain ⟨s₁, hhead, h⟩ := Lockstep.bind_eq_ok.mp h
      exact (Keeps.emit hhead).trans (Keeps.emit h)
    · obtain ⟨s₁, s₂, code', hhead, -, hcoded, hkeeps⟩ := method_code hnone.1 hnone.2 hcode h
      exact ((Keeps.emit hhead).trans (.coded hcoded)).trans hkeeps

theorem Keeps.methods {ms : List IrMethod} (h : ms.foldlM (ImageGen.method img) s = .ok s') :
    Keeps s s' := by
  induction ms generalizing s with
  | nil =>
    cases h
    exact .refl _
  | cons m ms ih =>
    rw [List.foldlM_cons] at h
    obtain ⟨s₁, hm, hrest⟩ := Lockstep.bind_eq_ok.mp h
    exact (Keeps.method hm).trans (ih hrest)

/-- `backpatch` writes only into the cells. -/
theorem backpatchAll_keep {cells : List (ℕ × Addr)} (h : s.backpatchAll img cells = .ok s')
    (hi : ∀ c ∈ cells, i < c.1 ∨ c.1 + 2 ≤ i) : s'.code[i]? = s.code[i]? := by
  induction cells generalizing s with
  | nil =>
    cases h
    rfl
  | cons c cells ih =>
    obtain ⟨off, a⟩ := c
    rw [List.forall_mem_cons] at hi
    rw [Gen.backpatchAll] at h
    split at h
    · cases h
    · obtain ⟨s₁, hcell, h⟩ := Lockstep.bind_eq_ok.mp h
      rw [ih h hi.2]
      rw [Gen.u2At] at hcell
      split at hcell
      · cases hcell
      · cases hcell
        exact getElem?_overwrite_of_disjoint (by rw [length_u2Bytes]; exact hi.1)

/-! ### The image -/

/-- The kind of the argument is given by the opcode: `SCode.argType`. -/
def IrOp.Typed (op : IrOp) : Prop :=
  match op.arg with
  | .jump _ => isNearOpcode op.opcode = true
  | .jumpFar _ => isFarOpcode op.opcode = true
  | .switch _ => op.opcode = 235
  | _ => True

/-- The label of a jump. -/
def IrOp.label? (op : IrOp) : Option ℕ :=
  match op.arg with
  | .jump label | .jumpFar label => some label
  | _ => none

/-- In the bytes of the image, the instructions `xs` of a method are at their positions, and each
jump and each entry of a table leads to the instruction of its label. The entries of the table at
`cp` are relative to `tableBase cp`. -/
structure Lands (bigEndian : Bool) (image : List Byte) (tableBase : ℕ → ℕ) (xs : List (ℕ × IrOp)) :
    Prop where
  lead {x : ℕ × IrOp} (hx : x ∈ xs) : image[x.1]? = some (BitVec.ofNat 8 (leadOpcode x.2))
  jump {x : ℕ × IrOp} {label : ℕ} (hx : x ∈ xs) (hlabel : x.2.label? = some label) :
    ∃ y : ℕ × IrOp, xs[label]? = some y ∧ vmJump bigEndian image x.1 = some (y.1 : ℤ)
  count {x : ℕ × IrOp} {labels : List ℕ} (hx : x ∈ xs) (hlabels : x.2.arg = .switch labels) :
    u2At bigEndian image (x.1 + 1) = labels.length % 65536
  table {x : ℕ × IrOp} {labels : List ℕ} (hx : x ∈ xs) (hlabels : x.2.arg = .switch labels)
    {j label : ℕ} (hlabel : labels[j]? = some label) : ∃ y : ℕ × IrOp, xs[label]? = some y ∧
      tableBase x.1 + s2At bigEndian image (x.1 + 3 + j * 2) = (y.1 : ℤ)
  switch {x : ℕ × IrOp} {labels : List ℕ} (hx : x ∈ xs) (hlabels : x.2.arg = .switch labels)
    {j label : ℕ} (hlabel : labels[j]? = some label) (hj : j < labels.length % 65536) :
    ∃ y : ℕ × IrOp, xs[label]? = some y ∧
      switchFrom bigEndian image (tableBase x.1) x.1 j = (y.1 : ℤ)

/-- `ImageGen.generate` up to some of the methods. -/
def generateMethods (img : SCodeImage) (flat : IrFlat) (ms : List IrMethod) :
    Except String Gen := do
  let s : Gen ← emit img Emitter.empty (headerFields img flat)
  let s ← emit img s (resumeBlockIndex img flat ++ bootstrap img flat)
  let s ← emit img s (vtables flat)
  let s ← emit img s (kits flat ++ types flat ++ slots flat ++ logs flat)
  ms.foldlM (method img) s

/-- The loop that makes jumps far comes to an end, and in an image the VM goes from each jump, and
from each entry of a table, to the instruction of its label. The entries of a table in a method that
starts at `start` are relative to `tableBase start cp`. -/
def JumpEncoding (img : SCodeImage) (order : PoolOrder) (flat : IrFlat)
    (tableBase : ℕ → ℕ → ℕ) : Prop :=
  WellFounded (fun y x => Restarts img x y) ∧
  (∀ (s : Gen) ops n, nearJumps ops < n → opsLoop img s n ops = ImageGen.ops img s ops) ∧
  ∀ image, generate img order flat = .ok image →
    ∀ before m after code, flat.methods = before ++ m :: after → m.isAbstract = false →
      m.isNative = false → m.code = some code →
      ∃ s s₁ code', generateMethods img flat before = .ok s ∧
        emit img s (methodHead img m) = .ok s₁ ∧ List.Forall₂ Widened code code' ∧
        Lands img.bigEndian image (tableBase s.code.length) (placed s₁.code.length code')

/-! ### The rest of the image -/

theorem farOpcode_far {opcode far : ℕ} (h : farOpcode opcode = .ok far) :
    isFarOpcode far = true := by
  rw [farOpcode] at h
  split_ifs at h with hjump hcompare
  · obtain rfl := Except.ok.inj h
    simp only [isFarOpcode, Bool.or_eq_true, Bool.and_eq_true, decide_eq_true_eq]
    omega
  · obtain rfl := Except.ok.inj h
    simp only [isFarOpcode, Bool.or_eq_true, Bool.and_eq_true, decide_eq_true_eq]
    omega

theorem Widened.typed {op op' : IrOp} (h : Widened op op') (hop : op.Typed) : op'.Typed := by
  cases h with
  | same => exact hop
  | far h => exact farOpcode_far h

theorem forall₂_widened_typed {code code' : List IrOp} (h : List.Forall₂ Widened code code')
    (htyped : ∀ op ∈ code, op.Typed) : ∀ op ∈ code', op.Typed := by
  induction h with
  | nil => exact fun op hop => absurd hop List.not_mem_nil
  | cons hop _ ih =>
    rw [List.forall_mem_cons] at htyped ⊢
    exact ⟨hop.typed htyped.1, ih htyped.2⟩

theorem mem_of_placed {start : ℕ} {ops : List IrOp} {x : ℕ × IrOp} (hx : x ∈ placed start ops) :
    x.2 ∈ ops := by
  induction ops generalizing start with
  | nil => cases hx
  | cons op ops ih =>
    rcases List.mem_cons.mp hx with rfl | hx
    · exact List.mem_cons_self ..
    · exact List.mem_cons_of_mem _ (ih hx)

theorem positions_getElem? {start i p : ℕ} {ops : List IrOp}
    (h : (positions start ops)[i]? = some p) : ∃ y, (placed start ops)[i]? = some y ∧ y.1 = p := by
  rw [positions, List.getElem?_map] at h
  exact Option.map_eq_some_iff.mp h

/-- A typed jump that reads its label is one from which the VM goes there. -/
theorem vmJump_of_reads {big : Bool} {image : List Byte} {pos : List ℕ} {x : ℕ × IrOp} {label : ℕ}
    (hlead : image[x.1]? = some (BitVec.ofNat 8 (leadOpcode x.2))) (htyped : x.2.Typed)
    (hreads : Reads big pos image x) (hlabel : x.2.label? = some label) :
    ∃ target : ℕ, pos[label]? = some target ∧ vmJump big image x.1 = some (target : ℤ) := by
  obtain ⟨p, opcode, arg⟩ := x
  cases arg with
  | jump label' =>
    obtain rfl := Option.some.inj hlabel
    obtain ⟨target, htarget, hread⟩ := hreads
    refine ⟨target, htarget, ?_⟩
    have hnear : isNearOpcode opcode = true := htyped
    have hbyte : opcode % 2 ^ 8 = opcode := by
      simp only [isNearOpcode, Bool.or_eq_true, Bool.and_eq_true, decide_eq_true_eq] at hnear
      omega
    simp only [vmJump, hlead, Option.getD_some, leadOpcode, BitVec.toNat_ofNat, hbyte, hnear,
      if_true]
    rw [hread]
  | jumpFar label' =>
    obtain rfl := Option.some.inj hlabel
    obtain ⟨target, htarget, hread⟩ := hreads
    refine ⟨target, htarget, ?_⟩
    have hfar : isFarOpcode opcode = true := htyped
    have hnear : isNearOpcode opcode = false ∧ opcode % 2 ^ 8 = opcode := by
      simp only [isFarOpcode, isNearOpcode, Bool.or_eq_true, Bool.and_eq_true, decide_eq_true_eq,
        Bool.or_eq_false_iff, Bool.and_eq_false_iff, decide_eq_false_iff_not] at hfar ⊢
      omega
    simp only [vmJump, hlead, Option.getD_some, leadOpcode, BitVec.toNat_ofNat, hnear.1, hnear.2,
      hfar, Bool.false_eq_true, if_false, if_true]
    rw [hread]
  | _ => cases hlabel

/-- The bytes of an image that are those of the code of a method. -/
structure InImage (image : List Byte) (s s' : Gen) : Prop where
  before {c : ℕ × Addr} (hc : c ∈ s.backpatch) : c.1 + 2 ≤ s.code.length
  bytes {i : ℕ} (hlo : s.code.length ≤ i) (hhi : i < s'.code.length)
    (hcells : ∀ c ∈ s'.backpatch, i < c.1 ∨ c.1 + 2 ≤ i) : image[i]? = s'.code[i]?

/-- In the image, an instruction is as it was written, but for the cells of one that does not
jump. -/
theorem InImage.instr {image : List Byte} {ops : List IrOp} (h : InImage image s s')
    (hcoded : Coded img s s' ops) {x : ℕ × IrOp} (hx : x ∈ placed s.code.length ops)
    (hlo : x.1 ≤ i) (hhi : i < x.1 + opSize x.2) (hbranch : i = x.1 ∨ x.2.isBranch = true) :
    image[i]? = s'.code[i]? := by
  obtain ⟨hstart, hend⟩ := placed_bounds hx
  obtain ⟨new, hnew, hcells⟩ := hcoded.cells
  refine h.bytes (hstart.trans hlo) (by rw [hcoded.length]; omega) fun c hc => ?_
  rw [hnew] at hc
  rcases List.mem_append.mp hc with hc | hc
  · obtain ⟨y, hy, hnot, hylo, hyhi⟩ := hcells c hc
    rcases placed_disjoint hx hy with rfl | hxy | hyx
    · rcases hbranch with rfl | hbranch
      · exact .inl hylo
      · rw [hbranch] at hnot
        cases hnot
    · exact .inl (by omega)
    · exact .inr (by omega)
  · have := h.before hc
    exact .inr (by omega)

/-- Jumps and tables lead to their labels in the image, as they do in the code of the method. -/
theorem InImage.lands {image : List Byte} {ops : List IrOp} (h : InImage image s s')
    (hcoded : Coded img s s' ops) (htyped : ∀ op ∈ ops, op.Typed) :
    Lands img.bigEndian image (fun cp => cp) (placed s.code.length ops) := by
  have hlead : ∀ {x : ℕ × IrOp}, x ∈ placed s.code.length ops →
      image[x.1]? = some (BitVec.ofNat 8 (leadOpcode x.2)) := fun {x} hx => by
    have hpos := opSize_pos x.2
    rw [h.instr hcoded hx le_rfl (by omega) (.inl rfl), hcoded.lead hx]
  have hreads : ∀ {x : ℕ × IrOp}, x ∈ placed s.code.length ops → x.2.isBranch = true →
      Reads img.bigEndian (positions s.code.length ops) image x := fun {x} hx hbranch =>
    (hcoded.reads hx).congr fun i hlo hhi => h.instr hcoded hx hlo.le hhi (.inr hbranch)
  have hbranch : ∀ {x : ℕ × IrOp} {labels : List ℕ}, x.2.arg = .switch labels →
      x.2.isBranch = true := fun hlabels => by rw [IrOp.isBranch, hlabels]
  have hcount : ∀ {x : ℕ × IrOp} {labels : List ℕ}, x ∈ placed s.code.length ops →
      x.2.arg = .switch labels → u2At img.bigEndian image (x.1 + 1) = labels.length % 65536 :=
    fun {x labels} hx hlabels => by
      have hsize : opSize x.2 = 3 + 2 * labels.length := by rw [opSize, hlabels]
      rw [← hcoded.count hx hlabels]
      exact u2At_congr
        (h.instr hcoded hx (by omega) (by omega) (.inr (hbranch hlabels)))
        (h.instr hcoded hx (by omega) (by omega) (.inr (hbranch hlabels)))
  have htable : ∀ {x : ℕ × IrOp} {labels : List ℕ}, x ∈ placed s.code.length ops →
      x.2.arg = .switch labels → ∀ {j label : ℕ}, labels[j]? = some label →
      ∃ y : ℕ × IrOp, (placed s.code.length ops)[label]? = some y ∧
        x.1 + s2At img.bigEndian image (x.1 + 3 + j * 2) = (y.1 : ℤ) :=
    fun {x labels} hx hlabels {j label} hlabel => by
      have hx' := hreads hx (hbranch hlabels)
      rw [Reads, hlabels] at hx'
      obtain ⟨target, htarget, hread⟩ := hx' j label hlabel
      obtain ⟨y, hy, rfl⟩ := positions_getElem? htarget
      exact ⟨y, hy, hread⟩
  refine ⟨hlead, fun {x label} hx hlabel => ?_, hcount, htable, fun {x labels} hx hlabels {j label}
    hlabel hj => ?_⟩
  · have hjump : x.2.isBranch = true := by
      obtain ⟨p, opcode, arg⟩ := x
      cases arg <;> first | rfl | cases hlabel
    obtain ⟨target, htarget, hgoto⟩ := vmJump_of_reads (hlead hx) (htyped _ (mem_of_placed hx))
      (hreads hx hjump) hlabel
    obtain ⟨y, hy, rfl⟩ := positions_getElem? htarget
    exact ⟨y, hy, hgoto⟩
  · obtain ⟨y, hy, hread⟩ := htable hx hlabels hlabel
    refine ⟨y, hy, ?_⟩
    rw [switchFrom, hcount hx hlabels, if_neg (by omega), Int.toNat_natCast]
    exact hread

/-! ### The whole program -/

variable {flat : IrFlat} {order : PoolOrder}

/-- What is written in front of a method: the header, and no cell that is not written. -/
theorem generateMethods_bounds {ms : List IrMethod} (h : generateMethods img flat ms = .ok s) :
    24 ≤ s.code.length ∧ ∀ c ∈ s.backpatch, c.1 + 2 ≤ s.code.length := by
  obtain ⟨s₁, hheader, h⟩ := Lockstep.bind_eq_ok.mp h
  obtain ⟨s₂, hboot, h⟩ := Lockstep.bind_eq_ok.mp h
  obtain ⟨s₃, hvtables, h⟩ := Lockstep.bind_eq_ok.mp h
  obtain ⟨s₄, hmeta, h⟩ := Lockstep.bind_eq_ok.mp h
  have hkeeps : Keeps s₁ s :=
    (((Keeps.emit hboot).trans (.emit hvtables)).trans (.emit hmeta)).trans (.methods h)
  have hlen := (emit_instr (by simp [headerFields, Write.isInstr]) hheader).length
  have hlen' : s₁.code.length = 24 := hlen
  obtain ⟨new, hnew, hcells⟩ := ((Keeps.emit hheader).trans hkeeps).cells
  refine ⟨hlen' ▸ hkeeps.le, fun c hc => (hcells c ?_).2⟩
  rw [hnew] at hc
  exact (List.mem_append.mp hc).resolve_right List.not_mem_nil

/-- The generator comes through the methods one by one. -/
theorem generateCode_split {before after : List IrMethod} {m : IrMethod}
    (hms : flat.methods = before ++ m :: after)
    (h : (generateCode img order flat : Except String Gen) = .ok s) :
    ∃ s₀ s₁, generateMethods img flat before = .ok s₀ ∧ method img s₀ m = .ok s₁ ∧ Keeps s₁ s := by
  obtain ⟨a₁, hheader, h⟩ := Lockstep.bind_eq_ok.mp h
  obtain ⟨a₂, hboot, h⟩ := Lockstep.bind_eq_ok.mp h
  obtain ⟨a₃, hvtables, h⟩ := Lockstep.bind_eq_ok.mp h
  obtain ⟨a₄, hmeta, h⟩ := Lockstep.bind_eq_ok.mp h
  obtain ⟨a₅, hmethods, h⟩ := Lockstep.bind_eq_ok.mp h
  obtain ⟨a₆, htests, h⟩ := Lockstep.bind_eq_ok.mp h
  rw [hms, List.foldlM_append] at hmethods
  obtain ⟨s₀, hbefore, hmethods⟩ := Lockstep.bind_eq_ok.mp hmethods
  rw [List.foldlM_cons] at hmethods
  obtain ⟨s₁, hm, hafter⟩ := Lockstep.bind_eq_ok.mp hmethods
  refine ⟨s₀, s₁, ?_, hm, ((Keeps.methods hafter).trans (.emit htests)).trans (.emit h)⟩
  exact Lockstep.bind_eq_ok.mpr ⟨a₁, hheader, Lockstep.bind_eq_ok.mpr ⟨a₂, hboot,
    Lockstep.bind_eq_ok.mpr ⟨a₃, hvtables, Lockstep.bind_eq_ok.mpr ⟨a₄, hmeta, hbefore⟩⟩⟩⟩

/-- The bytes of an image behind the header, but for the cells. -/
theorem generate_bytes {image : List Byte} (h : generate img order flat = .ok image) :
    ∃ s : Gen, generateCode img order flat = .ok s ∧ ∀ i, 24 ≤ i →
      (∀ c ∈ s.backpatch, i < c.1 ∨ c.1 + 2 ≤ i) → image[i]? = s.code[i]? := by
  obtain ⟨s, hcode, h⟩ := Lockstep.bind_eq_ok.mp h
  obtain ⟨s', hpatch, h⟩ := Lockstep.bind_eq_ok.mp h
  obtain rfl := Except.ok.inj h
  refine ⟨s, hcode, fun i hlo hcells => ?_⟩
  rw [getElem?_overwrite_of_disjoint (by rw [Rel.length_i4Bytes]; omega),
    backpatchAll_keep hpatch hcells]

/-- **Jumps lead to their labels.** -/
theorem jumpEncoding (img : SCodeImage) (order : PoolOrder) (flat : IrFlat)
    (htyped : ∀ m ∈ flat.methods, ∀ code, m.code = some code → ∀ op ∈ code, op.Typed) :
    JumpEncoding img order flat (fun _ cp => cp) := by
  refine ⟨wellFounded_restarts img, fun s ops n hn => opsLoop_eq img hn (Nat.lt_succ_self _),
    fun image himage before m after code hms habstract hnative hcode => ?_⟩
  obtain ⟨sEnd, hgenerate, hbytes⟩ := generate_bytes himage
  obtain ⟨s, s₃, hbefore, hm, hafter⟩ := generateCode_split hms hgenerate
  obtain ⟨s₁, s₂, code', hhead, hwiden, hcoded, hpad⟩ := method_code habstract hnative hcode hm
  obtain ⟨hheader, hbounds⟩ := generateMethods_bounds hbefore
  have hheadKeeps := Keeps.emit hhead
  have hrest := hpad.trans hafter
  have hin : InImage image s₁ s₂ := by
    refine ⟨fun {c} hc => ?_, fun {i} hlo hhi hcells => ?_⟩
    · obtain ⟨new, hnew, hheadCells⟩ := hheadKeeps.cells
      rw [hnew] at hc
      rcases List.mem_append.mp hc with hc | hc
      · exact (hheadCells c hc).2
      · exact (hbounds c hc).trans hheadKeeps.le
    · obtain ⟨new, hnew, hrestCells⟩ := hrest.cells
      have h24 : 24 ≤ i := (hheader.trans hheadKeeps.le).trans hlo
      rw [hbytes i h24 fun c hc => ?_, hrest.bytes h24 hhi]
      rw [hnew] at hc
      rcases List.mem_append.mp hc with hc | hc
      · exact .inl (hhi.trans_le (hrestCells c hc).1)
      · exact hcells c hc
  refine ⟨s, s₁, code', hbefore, hhead, hwiden, hin.lands hcoded ?_⟩
  have hmem : m ∈ flat.methods := by
    rw [hms]
    exact List.mem_append_right _ (List.mem_cons_self ..)
  exact forall₂_widened_typed hwiden (htyped m hmem code hcode)

/-! ### A program with tables -/

/-- Two tables, one behind the other: the entry of each is for the instruction that follows. -/
def switchCode : List IrOp :=
  [⟨2, .noArg⟩, ⟨235, .switch [2]⟩, ⟨2, .noArg⟩, ⟨235, .switch [4]⟩, ⟨2, .noArg⟩, ⟨227, .noArg⟩]

def switchProgram : IrFlat :=
  { bufferProgram [] with
    methods := [entryMethod "main" switchCode,
      entryMethod "resume" [⟨2, .noArg⟩, ⟨227, .noArg⟩]] }

/-- Without near jumps, no jump can have become far. -/
theorem eq_of_widened {code code' : List IrOp} (h : List.Forall₂ Widened code code')
    (hnear : nearJumps code = 0) : code' = code := by
  induction h with
  | nil => rfl
  | cons hop _ ih =>
    rw [nearJumps_cons, Nat.add_eq_zero_iff] at hnear
    cases hop with
    | same op => rw [ih hnear.2]
    | far _ => exact nomatch hnear.1

theorem jumpEncoding_switchProgram :
    (generate littleImage insertionOrder switchProgram).toOption.isSome ∧
      JumpEncoding littleImage insertionOrder switchProgram (fun _ cp => cp) := by
  refine ⟨by decide +kernel, jumpEncoding _ _ _ fun m hm code hcode => ?_⟩
  simp only [switchProgram, List.mem_cons, List.not_mem_nil, or_false] at hm
  rcases hm with rfl | rfl <;> obtain rfl := Option.some.inj hcode <;>
    simp [switchCode, IrOp.Typed]

/-- The entries of both tables are the same, so they are not relative to the method, or to any
other position that is the same for both. -/
theorem not_jumpEncoding :
    ¬∃ base : ℕ → ℕ, JumpEncoding littleImage insertionOrder switchProgram
      (fun start _ => base start) := by
  rintro ⟨base, -, -, h⟩
  have himage : ∃ image, generate littleImage insertionOrder switchProgram = .ok image ∧
      (s2At false image (59 + 3 + 0 * 2) = 5 && s2At false image (65 + 3 + 0 * 2) = 5) :=
    exists_of_toOption_any (by decide +kernel)
  have hstart : ∃ s₁, (generateMethods littleImage switchProgram [] >>= fun s =>
      emit littleImage s (methodHead littleImage (entryMethod "main" switchCode))) = .ok s₁ ∧
      decide (s₁.code.length = 58) :=
    exists_of_toOption_any (by decide +kernel)
  obtain ⟨image, himage, hoffsets⟩ := himage
  obtain ⟨s₁, hrun, hlen⟩ := hstart
  rw [Bool.and_eq_true, decide_eq_true_eq, decide_eq_true_eq] at hoffsets
  obtain ⟨s, s₂, code', hs, hs₂, hwiden, hlands⟩ := h image himage [] _ _ switchCode rfl rfl rfl rfl
  obtain rfl : s₂ = s₁ :=
    Except.ok.inj ((Lockstep.bind_eq_ok.mpr ⟨s, hs, hs₂⟩).symm.trans hrun)
  obtain rfl := eq_of_widened hwiden rfl
  rw [of_decide_eq_true hlen] at hlands
  obtain ⟨y₁, hy₁, htable₁⟩ := hlands.table (x := (59, ⟨235, .switch [2]⟩)) (j := 0)
    (.tail _ (.head _)) rfl rfl
  obtain ⟨y₂, hy₂, htable₂⟩ := hlands.table (x := (65, ⟨235, .switch [4]⟩)) (j := 0)
    (.tail _ (.tail _ (.tail _ (.head _)))) rfl rfl
  obtain rfl := Option.some.inj hy₁
  obtain rfl := Option.some.inj hy₂
  have hfirst : (base s.code.length : ℤ) + s2At false image (59 + 3 + 0 * 2) = (64 : ℕ) := htable₁
  have hsecond : (base s.code.length : ℤ) + s2At false image (65 + 3 + 0 * 2) = (70 : ℕ) := htable₂
  omega

end Sedona.ImageGen
