import Sedona.Compiler.BlockIndices

/-!
# Where Instructions Stand

The instructions of a method stand one behind the other, each with the padding that aligns its
argument in front of it. What `ImageGen.op` writes begins with the opcode of the instruction, and
the cells for block indices are in the arguments of instructions that do not jump.

## Main results

* `emit_opBody`: what one instruction writes.
* `emitOps_spec`: what all of them write, and where.
-/

namespace Sedona.ImageGen

open ByteCells Write

/-! ### Sizes and positions -/

/-- The number of bytes of an instruction. -/
def opSize (op : IrOp) : ℕ :=
  match op.arg with
  | .noArg => 1
  | .u1 _ | .jump _ => 2
  | .field offset => 1 + offsetWidth offset
  | .callVirtual .. | .callNative .. => 4
  | .switch labels => 3 + 2 * labels.length
  | .slotId id => if id ≤ 5 then 1 else 2
  | _ => 3

/-- The opcode that is written for an instruction. -/
def leadOpcode (op : IrOp) : ℕ :=
  match op.arg with
  | .array _ => 25
  | .field offset =>
      match offsetWidth offset with
      | 1 => op.opcode
      | 2 => op.opcode + 1
      | _ => op.opcode + 2
  | .slotId id => if id ≤ 5 then id + 2 else 8
  | _ => op.opcode

/-- The instruction has the labels of others as its argument. -/
def IrOp.isBranch (op : IrOp) : Bool :=
  match op.arg with
  | .jump _ | .jumpFar _ | .switch _ => true
  | _ => false

/-- Where an instruction starts that is written from `at` on. -/
def opStart (start : ℕ) (op : IrOp) : ℕ := start + argPadding (argAlignment op.arg) start

/-- The instructions with their positions, if they are written from `start` on. -/
def placed : ℕ → List IrOp → List (ℕ × IrOp)
  | _, [] => []
  | start, op :: ops => (opStart start op, op) :: placed (opStart start op + opSize op) ops

/-- The position of each instruction. -/
def positions (start : ℕ) (ops : List IrOp) : List ℕ := (placed start ops).map Prod.fst

/-- Where the instructions end. -/
def endOf : ℕ → List IrOp → ℕ
  | start, [] => start
  | start, op :: ops => endOf (opStart start op + opSize op) ops

theorem opSize_pos (op : IrOp) : 0 < opSize op := by
  obtain ⟨opcode, arg⟩ := op
  cases arg with
  | slotId id =>
    simp only [opSize]
    split <;> omega
  | _ => simp only [opSize]; omega

theorem le_opStart (start : ℕ) (op : IrOp) : start ≤ opStart start op := Nat.le_add_right _ _

theorem le_endOf (start : ℕ) (ops : List IrOp) : start ≤ endOf start ops := by
  induction ops generalizing start with
  | nil => exact le_rfl
  | cons op ops ih =>
    exact ((le_opStart start op).trans (Nat.le_add_right _ _)).trans (ih _)

/-- All instructions are between the start and the end. -/
theorem placed_bounds {start : ℕ} {ops : List IrOp} {x : ℕ × IrOp} (hx : x ∈ placed start ops) :
    start ≤ x.1 ∧ x.1 + opSize x.2 ≤ endOf start ops := by
  induction ops generalizing start with
  | nil => cases hx
  | cons op ops ih =>
    rcases List.mem_cons.mp hx with rfl | hx
    · exact ⟨le_opStart start op, le_endOf _ ops⟩
    · obtain ⟨hle, hend⟩ := ih hx
      exact ⟨((le_opStart start op).trans (Nat.le_add_right _ _)).trans hle, hend⟩

/-- An instruction ends in front of the next ones. -/
theorem placed_pairwise (start : ℕ) (ops : List IrOp) :
    (placed start ops).Pairwise fun x y => x.1 + opSize x.2 ≤ y.1 := by
  induction ops generalizing start with
  | nil => exact List.Pairwise.nil
  | cons op ops ih => exact List.pairwise_cons.mpr ⟨fun y hy => (placed_bounds hy).1, ih _⟩

/-- Different instructions have no byte in common. -/
theorem placed_disjoint {start : ℕ} {ops : List IrOp} {x y : ℕ × IrOp} (hx : x ∈ placed start ops)
    (hy : y ∈ placed start ops) : x = y ∨ x.1 + opSize x.2 ≤ y.1 ∨ y.1 + opSize y.2 ≤ x.1 := by
  induction ops generalizing start with
  | nil => cases hx
  | cons op ops ih =>
    rcases List.mem_cons.mp hx with rfl | hx
    · rcases List.mem_cons.mp hy with rfl | hy
      · exact .inl rfl
      · exact .inr (.inl (placed_bounds hy).1)
    · rcases List.mem_cons.mp hy with rfl | hy
      · exact .inr (.inr (placed_bounds hx).1)
      · exact ih hx hy

@[simp] theorem length_placed (start : ℕ) (ops : List IrOp) :
    (placed start ops).length = ops.length := by
  induction ops generalizing start with
  | nil => rfl
  | cons op ops ih => rw [placed, List.length_cons, ih, List.length_cons]

/-! ### Writes of instructions -/

/-- Writes that append bytes, and checks. -/
def Write.isInstr : Write → Bool
  | .u1 _ | .u2 .. | .i4 _ | .addBlockIndex _ | .checkSize _ | .throw _ => true
  | _ => false

/-- The number of bytes that such a write appends. -/
def Write.len : Write → ℕ
  | .u1 _ => 1
  | .u2 .. | .addBlockIndex _ => 2
  | .i4 _ => 4
  | _ => 0

def Write.isIndex : Write → Bool
  | .addBlockIndex _ => true
  | _ => false

def lens : List Write → ℕ
  | [] => 0
  | w :: ws => w.len + lens ws

/-- Bytes are appended, with cells for block indices in them if there are to be any. -/
structure Appends (s s' : Gen) (n : ℕ) (index : Bool) : Prop where
  code : ∃ bs : List Byte, s'.code = s.code ++ bs ∧ bs.length = n
  cells : ∃ new, s'.backpatch = new ++ s.backpatch ∧ ∀ c ∈ new, index = true ∧
    s.code.length ≤ c.1 ∧ c.1 + 2 ≤ s'.code.length

variable {img : SCodeImage} {s s' s₁ : Gen} {n m : ℕ} {b c : Bool}

namespace Appends

theorem refl (s : Gen) : Appends s s 0 false where
  code := ⟨[], (List.append_nil _).symm, rfl⟩
  cells := ⟨[], rfl, fun _ hc => absurd hc List.not_mem_nil⟩

theorem length (h : Appends s s' n b) : s'.code.length = s.code.length + n := by
  obtain ⟨bs, hcode, hbs⟩ := h.code
  rw [hcode, List.length_append, hbs]

theorem trans (h : Appends s s₁ n b) (h' : Appends s₁ s' m c) : Appends s s' (n + m) (b || c) where
  code := by
    obtain ⟨bs, hcode, hbs⟩ := h.code
    obtain ⟨bs', hcode', hbs'⟩ := h'.code
    exact ⟨bs ++ bs', by rw [hcode', hcode, List.append_assoc],
      by rw [List.length_append, hbs, hbs']⟩
  cells := by
    obtain ⟨new, hnew, hcells⟩ := h.cells
    obtain ⟨new', hnew', hcells'⟩ := h'.cells
    have hlen := h.length
    have hlen' := h'.length
    refine ⟨new' ++ new, by rw [hnew', hnew, List.append_assoc], fun x hx => ?_⟩
    rcases List.mem_append.mp hx with hx | hx
    · obtain ⟨hc, hlo, hhi⟩ := hcells' x hx
      exact ⟨by rw [hc, Bool.or_true], by omega, hhi⟩
    · obtain ⟨hb, hlo, hhi⟩ := hcells x hx
      exact ⟨by rw [hb, Bool.true_or], hlo, by omega⟩

theorem append (s : Gen) (bs : List Byte) (index : Bool) :
    Appends s (s.append bs) bs.length index where
  code := ⟨bs, rfl, rfl⟩
  cells := ⟨[], rfl, fun _ hc => absurd hc List.not_mem_nil⟩

end Appends

theorem write_instr {w : Write} (hw : w.isInstr) (h : s.write img w = .ok s') :
    Appends s s' w.len w.isIndex := by
  cases w with
  | u1 v =>
    cases h
    exact .append s _ _
  | u2 v checkAlign =>
    simp only [Gen.write, Gen.u2] at h
    split at h
    · cases h
    · cases h
      have happ := Appends.append s (u2Bytes img.bigEndian v) false
      rwa [length_u2Bytes] at happ
  | i4 v =>
    simp only [Gen.write] at h
    split at h
    · cases h
    · cases h
      have happ := Appends.append s (Gen.i4Bytes img v) false
      rwa [Rel.length_i4Bytes] at happ
  | addBlockIndex a =>
    simp only [Gen.write, Gen.u2] at h
    split at h
    · cases h
    · cases h
      refine ⟨⟨u2Bytes img.bigEndian 0xffff#32, rfl, length_u2Bytes _ _⟩, [(s.code.length, a)], rfl,
        fun x hx => ?_⟩
      rw [List.mem_singleton.mp hx]
      refine ⟨rfl, le_rfl, ?_⟩
      simp [Gen.append]
  | checkSize a =>
    simp only [Gen.write] at h
    split at h
    · cases h
    · cases h
      exact .refl s
  | throw msg => cases h
  | _ => cases hw

theorem emit_cons {w : Write} {ws : List Write} :
    emit img s (w :: ws) = .ok s' ↔ ∃ s₁, s.write img w = .ok s₁ ∧ emit img s₁ ws = .ok s' := by
  rw [emit, List.foldlM_cons]
  exact Lockstep.bind_eq_ok

theorem emit_failIf {cond : Bool} {msg : String} {ws : List Write}
    (h : emit img s (failIf cond msg ++ ws) = .ok s') : emit img s ws = .ok s' := by
  cases cond with
  | false => exact h
  | true => cases h

theorem emit_instr {ws : List Write} (hws : ∀ w ∈ ws, w.isInstr = true)
    (h : emit img s ws = .ok s') : Appends s s' (lens ws) (ws.any Write.isIndex) := by
  induction ws generalizing s with
  | nil =>
    cases h
    exact .refl _
  | cons w ws ih =>
    rw [List.forall_mem_cons] at hws
    obtain ⟨s₁, hw, hrest⟩ := emit_cons.mp h
    rw [lens, List.any_cons]
    exact (write_instr hws.1 hw).trans (ih hws.2 hrest)

/-! ### What an instruction writes -/

/-- The bytes and cells of one instruction. -/
structure Written (img : SCodeImage) (s s' : Gen) (op : IrOp) : Prop where
  code : ∃ bs : List Byte, s'.code = s.code ++ BitVec.ofNat 8 (leadOpcode op) :: bs ∧
    bs.length + 1 = opSize op
  cells : ∃ new, s'.backpatch = new ++ s.backpatch ∧ ∀ c ∈ new, op.isBranch = false ∧
    s.code.length < c.1 ∧ c.1 + 2 ≤ s'.code.length
  count : ∀ labels, op.arg = .switch labels → ∃ bs : List Byte, s'.code =
    s.code ++ BitVec.ofNat 8 (leadOpcode op) ::
      (u2Bytes img.bigEndian (BitVec.ofNat 32 labels.length) ++ bs)

theorem u1Bytes_ofNat (n : ℕ) : Gen.u1Bytes (BitVec.ofNat 32 n) = [BitVec.ofNat 8 n] := by
  rw [Gen.u1Bytes, BitVec.truncate_eq_setWidth, BitVec.setWidth_ofNat_of_le (by decide)]

/-- An opcode and what follows it. -/
theorem emit_lead {op : IrOp} (rest : List Write)
    (h : emit img s (u1 (BitVec.ofNat 32 (leadOpcode op)) :: rest) = .ok s')
    (hrest : ∀ w ∈ rest, w.isInstr = true) (hsize : lens rest + 1 = opSize op)
    (hindex : rest.any Write.isIndex = true → op.isBranch = false)
    (hswitch : ∀ labels, op.arg ≠ .switch labels) : Written img s s' op := by
  obtain ⟨s₁, hlead, hemit⟩ := emit_cons.mp h
  obtain rfl : s.append [BitVec.ofNat 8 (leadOpcode op)] = s₁ := by
    rw [← u1Bytes_ofNat]
    exact Except.ok.inj hlead
  have happ := emit_instr hrest hemit
  obtain ⟨bs, hcode, hbs⟩ := happ.code
  obtain ⟨new, hnew, hcells⟩ := happ.cells
  refine ⟨⟨bs, ?_, by rw [hbs, hsize]⟩, ⟨new, hnew, fun c hc => ?_⟩,
    fun labels hlabels => absurd hlabels (hswitch labels)⟩
  · rw [hcode]
    simp [Gen.append]
  · obtain ⟨hany, hlo, hhi⟩ := hcells c hc
    simp only [Gen.append, List.length_append, List.length_singleton] at hlo
    exact ⟨hindex hany, by omega, hhi⟩

theorem emit_field {opcode : ℕ} {offset : ℤ} (h : emit img s (fieldOp opcode offset) = .ok s') :
    Written img s s' ⟨opcode, .field offset⟩ := by
  rw [fieldOp, List.append_assoc] at h
  have hbody := emit_failIf (emit_failIf h)
  have hwidth : offsetWidth offset = 1 ∨ offsetWidth offset = 2 ∨ offsetWidth offset = 4 := by
    rw [offsetWidth]
    split_ifs <;> simp
  rcases hwidth with hw | hw | hw
  · simp only [hw] at hbody
    refine emit_lead [u1 (BitVec.ofInt 32 offset)] ?_ (by simp [Write.isInstr])
      (by simp only [opSize, hw]; rfl) (by simp [Write.isIndex]) (fun _ => OpArg.noConfusion)
    simpa only [leadOpcode, hw] using hbody
  · simp only [hw] at hbody
    refine emit_lead [checkSize 2, u2 (BitVec.ofInt 32 offset)] ?_ (by simp [Write.isInstr])
      (by simp only [opSize, hw]; rfl) (by simp [Write.isIndex]) (fun _ => OpArg.noConfusion)
    simpa only [leadOpcode, hw] using hbody
  · simp only [hw] at hbody
    refine emit_lead [checkSize 4, i4 (BitVec.ofInt 32 offset)] ?_ (by simp [Write.isInstr])
      (by simp only [opSize, hw]; rfl) (by simp [Write.isIndex]) (fun _ => OpArg.noConfusion)
    simpa only [leadOpcode, hw] using emit_failIf hbody

theorem lens_map (labels : List ℕ) (w : Write) :
    lens (labels.map fun _ => w) = labels.length * w.len := by
  induction labels with
  | nil => rw [List.map_nil, lens, List.length_nil, Nat.zero_mul]
  | cons label labels ih =>
    rw [List.map_cons, lens, ih, List.length_cons, Nat.succ_mul, Nat.add_comm]

theorem emit_switch {opcode : ℕ} {labels : List ℕ}
    (h : emit img s (opBody ⟨opcode, .switch labels⟩) = .ok s') :
    Written img s s' ⟨opcode, .switch labels⟩ := by
  obtain ⟨s₁, hlead, hcount⟩ := emit_cons.mp h
  obtain rfl : s.append [BitVec.ofNat 8 opcode] = s₁ := by
    rw [← u1Bytes_ofNat]
    exact Except.ok.inj hlead
  obtain ⟨s₂, hcount, htable⟩ := emit_cons.mp hcount
  simp only [Gen.write, Gen.u2] at hcount
  split at hcount
  · cases hcount
  cases hcount
  have htable' : emit img _ (labels.map fun _ => u2 0xffff#32) = .ok s' := htable
  have happ := emit_instr (by simp [Write.isInstr]) htable'
  obtain ⟨bs, hcode, hbs⟩ := happ.code
  obtain ⟨new, hnew, hcells⟩ := happ.cells
  rw [lens_map] at hbs
  have hbytes : s'.code = s.code ++ BitVec.ofNat 8 opcode ::
      (u2Bytes img.bigEndian (BitVec.ofNat 32 labels.length) ++ bs) := by
    rw [hcode]
    simp [Gen.append]
  refine ⟨⟨_, hbytes, ?_⟩, ⟨new, hnew, fun c hc => ?_⟩, fun labels' hlabels => ?_⟩
  · simp only [List.length_append, length_u2Bytes, hbs, opSize, Write.len]
    omega
  · have hfalse := (hcells c hc).1
    simp [Write.isIndex] at hfalse
  · cases hlabels
    exact ⟨bs, hbytes⟩

/-- **What one instruction writes.** -/
theorem emit_opBody {op : IrOp} (h : emit img s (opBody op) = .ok s') : Written img s s' op := by
  obtain ⟨opcode, arg⟩ := op
  cases arg with
  | field offset => exact emit_field h
  | slotId id =>
    simp only [opBody] at h
    by_cases hid : id ≤ 5
    · rw [if_pos hid] at h
      refine emit_lead [] ?_ (by simp) (by simp [opSize, hid, lens]) (by simp)
        (fun _ => OpArg.noConfusion)
      simpa only [leadOpcode, hid, if_true] using h
    · rw [if_neg hid] at h
      refine emit_lead [u1 (BitVec.ofNat 32 id)] ?_ (by simp [Write.isInstr])
        (by simp [opSize, hid, lens, Write.len]) (by simp [Write.isIndex])
        (fun _ => OpArg.noConfusion)
      simpa only [leadOpcode, hid, if_false] using h
  | switch labels => exact emit_switch h
  | callVirtual vindex numParams =>
    exact emit_lead _ (emit_failIf h) (by simp [Write.isInstr]) rfl (by simp [Write.isIndex])
      (fun _ => OpArg.noConfusion)
  | type t =>
    cases t with
    | array of =>
      obtain ⟨s₁, -, hthrow⟩ := emit_cons.mp h
      cases hthrow
    | _ =>
      exact emit_lead _ h (by simp [addTypeBlockIndex, Write.isInstr]) rfl (by simp [IrOp.isBranch])
        (fun _ => OpArg.noConfusion)
  | _ =>
    exact emit_lead _ h (by simp [Write.isInstr]) rfl (by simp [Write.isIndex, IrOp.isBranch])
      (fun _ => OpArg.noConfusion)

theorem Written.length {op : IrOp} (h : Written img s s' op) :
    s'.code.length = s.code.length + opSize op := by
  obtain ⟨bs, hcode, hsize⟩ := h.code
  rw [hcode, List.length_append, List.length_cons, hsize]

/-! ### What the instructions of a method write -/

/-- What the instructions `xs`, with their positions, write. -/
structure Emitted (img : SCodeImage) (s s' : Gen) (xs : List (ℕ × IrOp)) : Prop where
  code : ∃ bs : List Byte, s'.code = s.code ++ bs
  lead {x : ℕ × IrOp} (hx : x ∈ xs) : s'.code[x.1]? = some (BitVec.ofNat 8 (leadOpcode x.2))
  count {x : ℕ × IrOp} {labels : List ℕ} (hx : x ∈ xs) (hlabels : x.2.arg = .switch labels) :
    u2At img.bigEndian s'.code (x.1 + 1) = labels.length % 65536
  cells : ∃ new, s'.backpatch = new ++ s.backpatch ∧ ∀ c ∈ new, ∃ x ∈ xs, x.2.isBranch = false ∧
    x.1 < c.1 ∧ c.1 + 2 ≤ x.1 + opSize x.2

namespace Emitted

variable {op : IrOp} {xs : List (ℕ × IrOp)}

theorem nil (s : Gen) : Emitted img s s [] where
  code := ⟨[], (List.append_nil _).symm⟩
  lead hx := absurd hx List.not_mem_nil
  count hx := absurd hx List.not_mem_nil
  cells := ⟨[], rfl, fun _ hc => absurd hc List.not_mem_nil⟩

/-- One instruction more in front: its bytes stay. -/
theorem cons (hop : Written img s s₁ op) (h : Emitted img s₁ s' xs) :
    Emitted img s s' ((s.code.length, op) :: xs) where
  code := by
    obtain ⟨bs, hbs⟩ := h.code
    obtain ⟨bs₁, hbs₁, -⟩ := hop.code
    exact ⟨_, by rw [hbs, hbs₁, List.append_assoc]⟩
  lead {x} hx := by
    rcases List.mem_cons.mp hx with rfl | hx
    · obtain ⟨bs, hbs⟩ := h.code
      obtain ⟨bs₁, hbs₁, -⟩ := hop.code
      rw [hbs, hbs₁, List.append_assoc, List.getElem?_append_right le_rfl, Nat.sub_self]
      rfl
    · exact h.lead hx
  count {x labels} hx hlabels := by
    rcases List.mem_cons.mp hx with rfl | hx
    · obtain ⟨bs, hbs⟩ := h.code
      obtain ⟨bs₁, hbs₁⟩ := hop.count labels hlabels
      have hcell := @u2At_append_u2Bytes img.bigEndian (s.code ++ [BitVec.ofNat 8 (leadOpcode op)])
        (BitVec.ofNat 32 labels.length)
      rw [Holds.ofNat_toNat, List.length_append] at hcell
      rw [hbs, hbs₁, ← hcell, ← List.singleton_append, ← List.append_assoc, ← List.append_assoc,
        List.append_assoc _ bs₁]
      exact u2At_append (by simp)
    · exact h.count hx hlabels
  cells := by
    obtain ⟨new, hnew, hcells⟩ := h.cells
    obtain ⟨new₁, hnew₁, hcells₁⟩ := hop.cells
    refine ⟨new ++ new₁, by rw [hnew, hnew₁, List.append_assoc], fun c hc => ?_⟩
    rcases List.mem_append.mp hc with hc | hc
    · obtain ⟨x, hx, hrest⟩ := hcells c hc
      exact ⟨x, List.mem_cons_of_mem _ hx, hrest⟩
    · obtain ⟨hbranch, hlo, hhi⟩ := hcells₁ c hc
      exact ⟨_, List.mem_cons_self .., hbranch, hlo, hop.length ▸ hhi⟩

/-- Padding in front. -/
theorem pad {n : ℕ} (h : Emitted img (s.pad n) s' xs) : Emitted img s s' xs where
  __ := h
  code := by
    obtain ⟨bs, hbs⟩ := h.code
    exact ⟨_, by rw [hbs, Gen.pad, Gen.append, List.append_assoc]⟩

end Emitted

/-- **What all instructions of a method write**, and where. -/
theorem emitOps_spec {ops : List IrOp} {pos : List ℕ} (h : emitOps img s ops = .ok (s', pos)) :
    Emitted img s s' (placed s.code.length ops) ∧ s'.code.length = endOf s.code.length ops ∧
      pos = positions s.code.length ops := by
  induction ops generalizing s pos with
  | nil =>
    obtain ⟨rfl, rfl⟩ := Prod.mk.inj (Except.ok.inj h)
    exact ⟨.nil s, rfl, rfl⟩
  | cons op ops ih =>
    obtain ⟨s₁, hpad, h⟩ := Lockstep.bind_eq_ok.mp h
    obtain rfl : s.pad (argPadding (argAlignment op.arg) s.code.length) = s₁ := Except.ok.inj hpad
    obtain ⟨s₂, hbody, h⟩ := Lockstep.bind_eq_ok.mp h
    obtain ⟨⟨s₃, pos'⟩, hrest, h⟩ := Lockstep.bind_eq_ok.mp h
    obtain ⟨rfl, rfl⟩ := Prod.mk.inj (Except.ok.inj h)
    have hop := emit_opBody hbody
    have hstart : (s.pad (argPadding (argAlignment op.arg) s.code.length)).code.length =
        opStart s.code.length op := by
      simp only [Gen.pad, Gen.append, List.length_append, List.length_replicate, opStart]
    obtain ⟨hemit, hend, hpos⟩ := ih hrest
    have hcons := (Emitted.cons hop hemit).pad
    rw [hop.length, hstart] at hcons hend hpos
    exact ⟨hcons, hend, congrArg₂ List.cons hstart hpos⟩

end Sedona.ImageGen
