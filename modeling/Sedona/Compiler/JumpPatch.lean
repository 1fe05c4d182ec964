import Sedona.Compiler.JumpLayout

/-!
# Patched Jumps

After the instructions of a method are written, `ImageGen.ops` writes the offsets of the jumps and
of the tables over the placeholders, or makes the jumps far that are too short and starts over.

The offsets are written into the arguments of the instructions that jump, which have no byte in
common with another instruction. So all of them are there in the end.

## Main results

* `wellFounded_restarts`: the loop comes to an end.
* `ops_spec`: what the code of a method is in the end.
-/

namespace Sedona.ImageGen

open ByteCells

/-! ### What the VM reads -/

/-- `*(int8_t*)(cp)`. -/
def s1At (code : List Byte) (cp : ℕ) : ℤ := (code[cp]?.getD 0#8).toInt

/-- `*(int16_t*)(cp)`. -/
def s2At (bigEndian : Bool) (code : List Byte) (cp : ℕ) : ℤ :=
  (BitVec.ofNat 16 (u2At bigEndian code cp)).toInt

/-- `Jump` to `Foreach` and `JumpIntEq` to `JumpIntLtEq`. -/
def isNearOpcode (opcode : ℕ) : Bool :=
  (142 ≤ opcode && opcode ≤ 145) || (150 ≤ opcode && opcode ≤ 155)

/-- `JumpFar` to `ForeachFar` and `JumpFarIntEq` to `JumpFarIntLtEq`. -/
def isFarOpcode (opcode : ℕ) : Bool :=
  (146 ≤ opcode && opcode ≤ 149) || (156 ≤ opcode && opcode ≤ 161)

/-- Where `vmCall` goes from a jump at `cp` if it is taken. -/
def vmJump (bigEndian : Bool) (code : List Byte) (cp : ℕ) : Option ℤ :=
  let opcode := (code[cp]?.getD 0#8).toNat
  if isNearOpcode opcode then some (cp + s1At code (cp + 1))
  else if isFarOpcode opcode then some (cp + s2At bigEndian code (cp + 1))
  else none

/-- Where a `Switch` at `cp` leads with `ival` on the stack, if the entries of its table are
relative to `base`. In `vmCall` they are relative to `cp`. -/
def switchFrom (bigEndian : Bool) (code : List Byte) (base cp : ℕ) (ival : ℤ) : ℤ :=
  let num := u2At bigEndian code (cp + 1)
  if num ≤ ival ∨ ival < 0 then cp + (3 + num * 2)
  else base + s2At bigEndian code (cp + 3 + ival.toNat * 2)

variable {img : SCodeImage} {s s' : Gen} {code code' : List Byte} {pos : List ℕ} {cp : ℕ} {off : ℤ}
  {big : Bool}

theorem s1At_overwrite (hcp : cp < code.length) (hoff : -128 ≤ off ∧ off ≤ 127) :
    s1At (overwrite code cp (Gen.u1Bytes (BitVec.ofInt 32 off))) cp = off := by
  have hbyte : (overwrite code cp (Gen.u1Bytes (BitVec.ofInt 32 off)))[cp + 0]? =
      (Gen.u1Bytes (BitVec.ofInt 32 off))[0]? := getElem?_overwrite Nat.zero_lt_one hcp
  rw [Nat.add_zero] at hbyte
  rw [s1At, hbyte]
  simp only [Gen.u1Bytes, List.getElem?_cons_zero, Option.getD_some, BitVec.truncate_eq_setWidth,
    BitVec.toInt_setWidth, BitVec.toNat_ofInt, Int.bmod]
  omega

theorem s2At_overwrite (hcp : cp + 2 ≤ code.length) (hoff : -32768 ≤ off ∧ off ≤ 32767) :
    s2At big (overwrite code cp (u2Bytes big (BitVec.ofInt 32 off))) cp = off := by
  rw [s2At, u2At_overwrite_u2Bytes hcp]
  simp only [BitVec.toInt_ofNat', BitVec.toNat_ofInt, Int.bmod]
  omega

/-! ### Arguments -/

/-- The instruction is a jump, near or far. -/
def IrOp.isJump (op : IrOp) : Bool :=
  match op.arg with
  | .jump _ | .jumpFar _ => true
  | _ => false

/-- The instruction has a table. -/
def IrOp.isSwitch (op : IrOp) : Bool :=
  match op.arg with
  | .switch _ => true
  | _ => false

/-- The offsets of the instruction, added to its position, are the positions of its labels. -/
def Reads (big : Bool) (pos : List ℕ) (code : List Byte) (x : ℕ × IrOp) : Prop :=
  match x.2.arg with
  | .jump label => ∃ target : ℕ, pos[label]? = some target ∧ x.1 + s1At code (x.1 + 1) = target
  | .jumpFar label =>
      ∃ target : ℕ, pos[label]? = some target ∧ x.1 + s2At big code (x.1 + 1) = target
  | .switch labels => ∀ j label, labels[j]? = some label →
      ∃ target : ℕ, pos[label]? = some target ∧ x.1 + s2At big code (x.1 + 3 + j * 2) = target
  | _ => True

/-- The offsets are in the argument of the instruction. -/
theorem Reads.congr {x : ℕ × IrOp} (h : Reads big pos code x)
    (hcode : ∀ i, x.1 < i → i < x.1 + opSize x.2 → code'[i]? = code[i]?) :
    Reads big pos code' x := by
  obtain ⟨p, opcode, arg⟩ := x
  cases arg with
  | jump label =>
    obtain ⟨target, htarget, hp⟩ := h
    refine ⟨target, htarget, ?_⟩
    rw [← hp, s1At, s1At, hcode (p + 1) (by omega) (by simp [opSize])]
  | jumpFar label =>
    obtain ⟨target, htarget, hp⟩ := h
    refine ⟨target, htarget, ?_⟩
    rw [← hp, s2At, s2At, u2At_congr (hcode (p + 1) (by omega) (by simp [opSize]))
      (hcode (p + 1 + 1) (by omega) (by simp [opSize]))]
  | switch labels =>
    intro j label hlabel
    obtain ⟨target, htarget, hp⟩ := h j label hlabel
    have hj : j < labels.length := (List.getElem?_eq_some_iff.mp hlabel).1
    refine ⟨target, htarget, ?_⟩
    rw [← hp, s2At, s2At, u2At_congr (hcode (p + 3 + j * 2) (by omega) (by simp [opSize]; omega))
      (hcode (p + 3 + j * 2 + 1) (by omega) (by simp [opSize]; omega))]
  | _ => exact trivial

/-- The number of bytes in front of the offsets: the opcode, and the size of a table. -/
def IrOp.leadSize (op : IrOp) : ℕ := if op.isSwitch then 3 else 1

/-- Offsets are written into the instructions for which `q` is, and nothing else. -/
structure Repatched (q : IrOp → Bool) (xs : List (ℕ × IrOp)) (code code' : List Byte) : Prop where
  length : code'.length = code.length
  keep {i : ℕ} (h : ∀ x ∈ xs, q x.2 = true → i < x.1 + x.2.leadSize ∨ x.1 + opSize x.2 ≤ i) :
    code'[i]? = code[i]?

namespace Repatched

variable {q : IrOp → Bool} {x : ℕ × IrOp} {xs : List (ℕ × IrOp)} {code₁ : List Byte}

theorem refl (q : IrOp → Bool) (xs : List (ℕ × IrOp)) (code : List Byte) :
    Repatched q xs code code := ⟨rfl, fun _ => rfl⟩

theorem cons (hx : Repatched q [x] code code₁) (h : Repatched q xs code₁ code') :
    Repatched q (x :: xs) code code' where
  length := h.length.trans hx.length
  keep {i} hi := by
    rw [List.forall_mem_cons] at hi
    rw [h.keep hi.2, hx.keep (List.forall_mem_singleton.mpr hi.1)]

/-- Offsets of one instruction. -/
theorem overwrite {p : ℕ} {op : IrOp} {bs : List Byte} {at' : ℕ} (hop : q op = true)
    (hlo : p + op.leadSize ≤ at') (hhi : at' + bs.length ≤ p + opSize op) (code : List Byte) :
    Repatched q [(p, op)] code (overwrite code at' bs) where
  length := length_overwrite ..
  keep {i} hi := by
    have hdisjoint := List.forall_mem_singleton.mp hi hop
    refine getElem?_overwrite_of_disjoint ?_
    simp only at hdisjoint
    omega

/-- An instruction keeps what it reads if the others have no byte in common with it. -/
theorem reads (h : Repatched q xs code code') (hreads : Reads big pos code x)
    (hdisjoint : ∀ y ∈ xs, q y.2 = true → x.1 + opSize x.2 ≤ y.1 ∨ y.1 + opSize y.2 ≤ x.1) :
    Reads big pos code' x := by
  refine hreads.congr fun i hlo hhi => h.keep fun y hy hq => ?_
  have := hdisjoint y hy hq
  omega

end Repatched

/-! ### One jump -/

/-- A jump may have become far. -/
inductive Widened : IrOp → IrOp → Prop where
  | same (op : IrOp) : Widened op op
  | far {opcode far label : ℕ} (h : farOpcode opcode = .ok far) :
      Widened ⟨opcode, .jump label⟩ ⟨far, .jumpFar label⟩

theorem Widened.trans {a b c : IrOp} (h : Widened a b) (h' : Widened b c) : Widened a c := by
  cases h with
  | same op => exact h'
  | far h =>
    cases h'
    exact .far h

theorem jumpOffset_ok {p label : ℕ} (h : jumpOffset pos p label = .ok off) :
    ∃ target : ℕ, pos[label]? = some target ∧ (p : ℤ) + off = target ∧
      -32768 ≤ off ∧ off ≤ 32767 := by
  rw [jumpOffset] at h
  split at h
  · cases h
  · next target htarget =>
    dsimp only at h
    split at h
    · cases h
    · next hrange =>
      obtain rfl : (target : ℤ) - p = off := Except.ok.inj h
      exact ⟨target, htarget, by omega, by omega, by omega⟩

theorem patchS2_ok {p : ℕ} {v : JInt} (h : Emitter.patchS2 img s p v = .ok s') :
    s' = { s with code := overwrite s.code p (u2Bytes img.bigEndian v) } := by
  simp only [Emitter.patchS2, Gen.u2At] at h
  split at h
  · cases h
  · exact (Except.ok.inj h).symm

/-- The jump is patched and stays as it is, or it becomes far. -/
inductive Patch (img : SCodeImage) (pos : List ℕ) (s : Gen) (p : ℕ) (op : IrOp) :
    Gen → IrOp → Prop where
  | done {code : List Byte} (h : Repatched IrOp.isJump [(p, op)] s.code code)
      (hreads : op.isJump = true → p + opSize op ≤ s.code.length →
        Reads img.bigEndian pos code (p, op)) :
      Patch img pos s p op { s with code } op
  | widen {opcode far label : ℕ} (h : farOpcode opcode = .ok far)
      (hop : op = ⟨opcode, .jump label⟩) : Patch img pos s p op s ⟨far, .jumpFar label⟩

theorem patchJump_spec {p : ℕ} {op op' : IrOp} (h : patchJump img pos s p op = .ok (s', op')) :
    Patch img pos s p op s' op' := by
  obtain ⟨opcode, arg⟩ := op
  cases arg with
  | jump label =>
    obtain ⟨off, hoff, h⟩ := Lockstep.bind_eq_ok.mp h
    obtain ⟨target, htarget, hp, -⟩ := jumpOffset_ok hoff
    split at h
    · obtain ⟨far, hfar, h⟩ := Lockstep.bind_eq_ok.mp h
      obtain ⟨rfl, rfl⟩ := Prod.mk.inj (Except.ok.inj h)
      exact .widen hfar rfl
    · next hrange =>
      obtain ⟨rfl, rfl⟩ := Prod.mk.inj (Except.ok.inj h)
      refine .done (.overwrite rfl (Nat.le_refl (p + 1)) (by simp [opSize, Gen.u1Bytes]) _)
        fun _ hlen => ⟨target, htarget, ?_⟩
      rw [s1At_overwrite (by simp only [opSize] at hlen; omega) (by omega), hp]
  | jumpFar label =>
    obtain ⟨off, hoff, h⟩ := Lockstep.bind_eq_ok.mp h
    obtain ⟨target, htarget, hp, hrange⟩ := jumpOffset_ok hoff
    obtain ⟨s₁, hpatch, h⟩ := Lockstep.bind_eq_ok.mp h
    obtain ⟨rfl, rfl⟩ := Prod.mk.inj (Except.ok.inj h)
    rw [patchS2_ok hpatch]
    refine .done (.overwrite rfl (Nat.le_refl (p + 1)) (by simp [opSize]) _)
      fun _ hlen => ⟨target, htarget, ?_⟩
    rw [s2At_overwrite (by simp only [opSize] at hlen; omega) hrange, hp]
  | _ =>
    obtain ⟨rfl, rfl⟩ := Prod.mk.inj (Except.ok.inj h)
    exact .done (.refl ..) fun hjump => absurd hjump (by simp [IrOp.isJump])

/-! ### All jumps -/

theorem nearJumps_cons (op : IrOp) (ops : List IrOp) :
    nearJumps (op :: ops) = nearJumps [op] + nearJumps ops := by
  rw [nearJumps, nearJumps, nearJumps, ← List.singleton_append, List.countP_append]

/-- The instructions have no byte in common, and all bytes are written. -/
structure Apart (xs : List (ℕ × IrOp)) (size : ℕ) : Prop where
  spaced : xs.Pairwise fun x y => x.1 + opSize x.2 ≤ y.1
  bound {x : ℕ × IrOp} (hx : x ∈ xs) : x.1 + opSize x.2 ≤ size

theorem Apart.tail {x : ℕ × IrOp} {xs : List (ℕ × IrOp)} {size : ℕ} (h : Apart (x :: xs) size) :
    Apart xs size where
  spaced := (List.pairwise_cons.mp h.spaced).2
  bound hx := h.bound (List.mem_cons_of_mem _ hx)

theorem placed_apart (start : ℕ) (ops : List IrOp) :
    Apart (placed start ops) (endOf start ops) where
  spaced := placed_pairwise start ops
  bound hx := (placed_bounds hx).2

theorem positions_zip (start : ℕ) (ops : List IrOp) :
    (positions start ops).zip ops = placed start ops := by
  induction ops generalizing start with
  | nil => rfl
  | cons op ops ih => exact congrArg _ (ih _)

/-- All jumps are patched if none of them has become far. -/
theorem patchJumps_spec {ps : List ℕ} {ops ops' : List IrOp} (hlen : ps.length = ops.length)
    (h : patchJumps img pos s ps ops = .ok (s', ops')) :
    List.Forall₂ Widened ops ops' ∧ (nearJumps ops' = nearJumps ops → ops' = ops ∧
      ∃ code, s' = { s with code } ∧ Repatched IrOp.isJump (ps.zip ops) s.code code ∧
        (Apart (ps.zip ops) s.code.length → ∀ x ∈ ps.zip ops, x.2.isJump = true →
          Reads img.bigEndian pos code x)) := by
  induction ps generalizing s s' ops ops' with
  | nil =>
    obtain rfl : ops = [] := List.eq_nil_of_length_eq_zero hlen.symm
    obtain ⟨rfl, rfl⟩ := Prod.mk.inj (Except.ok.inj h)
    exact ⟨.nil, fun _ => ⟨rfl, s.code, rfl, .refl .., fun _ x hx => absurd hx List.not_mem_nil⟩⟩
  | cons p ps ih =>
    cases ops with
    | nil => cases hlen
    | cons op ops =>
      obtain ⟨⟨s₁, op₁⟩, hop, h⟩ := Lockstep.bind_eq_ok.mp h
      obtain ⟨⟨s₂, ops₂⟩, hops, h⟩ := Lockstep.bind_eq_ok.mp h
      obtain ⟨rfl, rfl⟩ := Prod.mk.inj (Except.ok.inj h)
      have hlen' : ps.length = ops.length := Nat.succ.inj hlen
      obtain ⟨hwiden, hdone⟩ := ih hlen' hops
      have hle := nearJumps_patchJumps hops
      cases patchJump_spec hop with
      | widen hfar heq =>
        subst heq
        refine ⟨.cons (.far hfar) hwiden, fun hcount => ?_⟩
        rw [nearJumps_cons, nearJumps_cons _ ops] at hcount
        simp only [nearJumps, List.countP_singleton] at hcount hle
        simp at hcount
        omega
      | done hpatch hreads =>
        refine ⟨.cons (.same op) hwiden, fun hcount => ?_⟩
        rw [nearJumps_cons, nearJumps_cons _ ops] at hcount
        obtain ⟨rfl, code', rfl, hrest, hrestReads⟩ := hdone (Nat.add_left_cancel hcount)
        refine ⟨rfl, code', rfl, hpatch.cons hrest, fun hapart x hx hjump => ?_⟩
        rcases List.mem_cons.mp hx with rfl | hx
        · have hx := hreads hjump (hapart.bound (List.mem_cons_self ..))
          exact hrest.reads hx fun y hy _ =>
            .inl ((List.pairwise_cons.mp hapart.spaced).1 y hy)
        · refine hrestReads ?_ x hx hjump
          have := hapart.tail
          rwa [← hpatch.length] at this

/-! ### Tables -/

theorem patchSwitch_spec {p cell k opcode : ℕ} {labels table : List ℕ}
    (h : patchSwitch img pos p s cell labels = .ok s') (hcell : cell = p + 3 + k * 2)
    (htable : k + labels.length = table.length)
    (hlen : p + opSize ⟨opcode, .switch table⟩ ≤ s.code.length) :
    ∃ code, s' = { s with code } ∧
      Repatched IrOp.isSwitch [(p, ⟨opcode, .switch table⟩)] s.code code ∧
      (∀ i < cell, code[i]? = s.code[i]?) ∧
      ∀ j label, labels[j]? = some label → ∃ target : ℕ, pos[label]? = some target ∧
        p + s2At img.bigEndian code (cell + j * 2) = target := by
  induction labels generalizing s cell k with
  | nil =>
    obtain rfl := Except.ok.inj h
    exact ⟨s.code, rfl, .refl .., fun _ _ => rfl, fun j label hlabel => by cases hlabel⟩
  | cons label labels ih =>
    obtain ⟨off, hoff, h⟩ := Lockstep.bind_eq_ok.mp h
    obtain ⟨target, htarget, hp, hrange⟩ := jumpOffset_ok hoff
    obtain ⟨s₁, hpatch, h⟩ := Lockstep.bind_eq_ok.mp h
    have hs₁ := patchS2_ok hpatch
    subst hs₁
    simp only [opSize] at hlen
    simp only [List.length_cons] at htable
    obtain ⟨code, rfl, hrest, hkeep, hreads⟩ := ih (k := k + 1) h (by omega) (by omega)
      (by simp only [opSize, length_overwrite]; omega)
    refine ⟨code, rfl, ⟨?_, fun {i} hi => ?_⟩, fun i hi => ?_, fun j label' hlabel => ?_⟩
    · rw [hrest.length, length_overwrite]
    · rw [hrest.keep hi]
      have hdisjoint : i < p + 3 ∨ p + opSize ⟨opcode, .switch table⟩ ≤ i :=
        List.forall_mem_singleton.mp hi rfl
      simp only [opSize] at hdisjoint
      exact getElem?_overwrite_of_disjoint (by rw [length_u2Bytes]; omega)
    · rw [hkeep i (by omega)]
      exact getElem?_overwrite_of_disjoint (.inl hi)
    · cases j with
      | zero =>
        obtain rfl := Option.some.inj hlabel
        refine ⟨target, htarget, ?_⟩
        rw [Nat.zero_mul, Nat.add_zero, s2At, u2At_congr (hkeep cell (by omega))
          (hkeep (cell + 1) (by omega)), ← s2At, s2At_overwrite (by omega) hrange, hp]
      | succ j =>
        obtain ⟨target', htarget', hread⟩ := hreads j label' hlabel
        refine ⟨target', htarget', ?_⟩
        rw [← hread]
        congr 2
        omega

/-- All tables are patched. -/
theorem patchSwitches_spec {ps : List ℕ} {ops : List IrOp} (hlen : ps.length = ops.length)
    (h : patchSwitches img pos s ps ops = .ok s') (hapart : Apart (ps.zip ops) s.code.length) :
    ∃ code, s' = { s with code } ∧ Repatched IrOp.isSwitch (ps.zip ops) s.code code ∧
      ∀ x ∈ ps.zip ops, x.2.isSwitch = true → Reads img.bigEndian pos code x := by
  induction ps generalizing s s' ops with
  | nil =>
    obtain rfl := Except.ok.inj h
    exact ⟨s.code, rfl, .refl .., fun x hx => absurd hx List.not_mem_nil⟩
  | cons p ps ih =>
    cases ops with
    | nil => cases hlen
    | cons op ops =>
      have hone : ∃ code, Repatched IrOp.isSwitch [(p, op)] s.code code ∧
          (op.isSwitch = true → Reads img.bigEndian pos code (p, op)) ∧
          patchSwitches img pos { s with code } ps ops = .ok s' := by
        obtain ⟨opcode, arg⟩ := op
        cases arg with
        | switch labels =>
          obtain ⟨s₁, hop, h⟩ := Lockstep.bind_eq_ok.mp h
          obtain ⟨code, rfl, hpatch, -, hreads⟩ := patchSwitch_spec (k := 0) hop rfl
            (Nat.zero_add _) (hapart.bound (List.mem_cons_self ..))
          exact ⟨code, hpatch, fun _ => hreads, h⟩
        | _ =>
          exact ⟨s.code, .refl .., fun hswitch => absurd hswitch (by simp [IrOp.isSwitch]), h⟩
      obtain ⟨code₁, hpatch, hreads, h⟩ := hone
      have htail := hapart.tail
      rw [← hpatch.length] at htail
      obtain ⟨code, rfl, hrest, hrestReads⟩ := ih (Nat.succ.inj hlen) h htail
      refine ⟨code, rfl, hpatch.cons hrest, fun x hx hswitch => ?_⟩
      rcases List.mem_cons.mp hx with rfl | hx
      · exact hrest.reads (hreads hswitch) fun y hy _ =>
          .inl ((List.pairwise_cons.mp hapart.spaced).1 y hy)
      · exact hrestReads x hx hswitch

/-! ### The loop -/

/-- A round of the loop in `ImageGen.ops` that starts over: what it starts over with. -/
def Restarts (img : SCodeImage) (x y : Gen × List IrOp) : Prop :=
  ∃ s₁ pos s₂, emitOps img x.1 x.2 = .ok (s₁, pos) ∧
    patchJumps img pos s₁ pos x.2 = .ok (s₂, y.2) ∧ nearJumps y.2 ≠ nearJumps x.2 ∧
    y.1 = Emitter.withPool x.1 (Emitter.pool s₂)

/-- Whenever the loop starts over, fewer jumps are near: it comes to an end. -/
theorem wellFounded_restarts (img : SCodeImage) :
    WellFounded fun y x => Restarts img x y := by
  refine Subrelation.wf (r := InvImage (· < ·) fun x : Gen × List IrOp => nearJumps x.2) ?_
    (InvImage.wf _ Nat.lt_wfRel.wf)
  rintro y x ⟨s₁, pos, s₂, -, hpatch, hne, -⟩
  exact lt_of_le_of_ne (nearJumps_patchJumps hpatch) hne

/-- The code of a method whose instructions are `ops` in the end. -/
structure Coded (img : SCodeImage) (s s' : Gen) (ops : List IrOp) : Prop where
  length : s'.code.length = endOf s.code.length ops
  keep {i : ℕ} (hi : i < s.code.length) : s'.code[i]? = s.code[i]?
  lead {x : ℕ × IrOp} (hx : x ∈ placed s.code.length ops) :
    s'.code[x.1]? = some (BitVec.ofNat 8 (leadOpcode x.2))
  count {x : ℕ × IrOp} {labels : List ℕ} (hx : x ∈ placed s.code.length ops)
    (hlabels : x.2.arg = .switch labels) :
    u2At img.bigEndian s'.code (x.1 + 1) = labels.length % 65536
  reads {x : ℕ × IrOp} (hx : x ∈ placed s.code.length ops) :
    Reads img.bigEndian (positions s.code.length ops) s'.code x
  cells : ∃ new, s'.backpatch = new ++ s.backpatch ∧ ∀ c ∈ new,
    ∃ x ∈ placed s.code.length ops, x.2.isBranch = false ∧
      x.1 < c.1 ∧ c.1 + 2 ≤ x.1 + opSize x.2

theorem IrOp.leadSize_pos (op : IrOp) : 0 < op.leadSize := by
  rw [IrOp.leadSize]
  split <;> omega

theorem IrOp.leadSize_le (op : IrOp) : op.leadSize ≤ opSize op := by
  have hpos := opSize_pos op
  obtain ⟨opcode, arg⟩ := op
  cases arg with
  | switch labels => exact Nat.le_add_right 3 _
  | _ => exact hpos

/-- What is in front of the offsets is not patched. -/
theorem Repatched.keep_lead {q : IrOp → Bool} {start : ℕ} {ops : List IrOp}
    (h : Repatched q (placed start ops) code code') {x : ℕ × IrOp} (hx : x ∈ placed start ops)
    {i : ℕ} (hlo : x.1 ≤ i) (hhi : i < x.1 + x.2.leadSize) : code'[i]? = code[i]? := by
  refine h.keep fun y hy _ => ?_
  have := x.2.leadSize_le
  have := y.2.leadSize_pos
  rcases placed_disjoint hx hy with rfl | hxy | hyx
  · exact .inl hhi
  · exact .inl (by omega)
  · exact .inr (hyx.trans hlo)

theorem length_positions (start : ℕ) (ops : List IrOp) :
    (positions start ops).length = ops.length := by
  rw [positions, List.length_map, length_placed]

theorem IrOp.isSwitch_of_switch {op : IrOp} {labels : List ℕ} (h : op.arg = .switch labels) :
    op.leadSize = 3 := by
  rw [IrOp.leadSize, IrOp.isSwitch, h]
  rfl

/-- A last round of the loop: jumps and tables are patched over what is written. -/
theorem Emitted.coded {ops : List IrOp} {code₁ : List Byte}
    (h : Emitted img s s' (placed s.code.length ops))
    (hend : s'.code.length = endOf s.code.length ops)
    (hjumps : Repatched IrOp.isJump (placed s.code.length ops) s'.code code₁)
    (hswitches : Repatched IrOp.isSwitch (placed s.code.length ops) code₁ code)
    (hjreads : ∀ x ∈ placed s.code.length ops, x.2.isJump = true →
      Reads img.bigEndian (positions s.code.length ops) code₁ x)
    (hsreads : ∀ x ∈ placed s.code.length ops, x.2.isSwitch = true →
      Reads img.bigEndian (positions s.code.length ops) code x) :
    Coded img s { s' with code } ops where
  length := (hswitches.length.trans hjumps.length).trans hend
  keep {i} hi := by
    obtain ⟨bs, hbs⟩ := h.code
    have hbefore : ∀ x ∈ placed s.code.length ops, i < x.1 + x.2.leadSize := fun x hx =>
      (hi.trans_le (placed_bounds hx).1).trans_le (Nat.le_add_right _ _)
    rw [hswitches.keep fun x hx _ => .inl (hbefore x hx),
      hjumps.keep fun x hx _ => .inl (hbefore x hx), hbs, List.getElem?_append_left hi]
  lead {x} hx := by
    have hlt : x.1 < x.1 + x.2.leadSize := Nat.lt_add_of_pos_right x.2.leadSize_pos
    rw [hswitches.keep_lead hx le_rfl hlt, hjumps.keep_lead hx le_rfl hlt, h.lead hx]
  count {x labels} hx hlabels := by
    have hlead := IrOp.isSwitch_of_switch hlabels
    have hkeep : ∀ i, x.1 ≤ i → i < x.1 + 3 → code[i]? = s'.code[i]? := fun i hlo hhi => by
      rw [← hlead] at hhi
      rw [hswitches.keep_lead hx hlo hhi, hjumps.keep_lead hx hlo hhi]
    rw [← h.count hx hlabels]
    exact u2At_congr (hkeep _ (by omega) (by omega)) (hkeep _ (by omega) (by omega))
  reads {x} hx := by
    rcases hswitch : x.2.isSwitch with _ | _
    · rcases hjump : x.2.isJump with _ | _
      · obtain ⟨p, opcode, arg⟩ := x
        cases arg with
        | jump label | jumpFar label => exact nomatch (hjump : true = false)
        | switch labels => exact nomatch (hswitch : true = false)
        | _ => exact trivial
      · refine hswitches.reads (hjreads x hx hjump) fun y hy hyswitch => ?_
        rcases placed_disjoint hx hy with rfl | hxy
        · rw [hswitch] at hyswitch
          cases hyswitch
        · exact hxy
    · exact hsreads x hx hswitch
  cells := h.cells

theorem forall₂_widened_trans {a b c : List IrOp} (h : List.Forall₂ Widened a b)
    (h' : List.Forall₂ Widened b c) : List.Forall₂ Widened a c := by
  induction h generalizing c with
  | nil => exact h'
  | cons hop _ ih =>
    cases h' with
    | cons hop' hrest => exact .cons (hop.trans hop') (ih hrest)

theorem opsLoop_spec {n : ℕ} {ops : List IrOp} (h : opsLoop img s n ops = .ok s') :
    ∃ ops', List.Forall₂ Widened ops ops' ∧ Coded img s s' ops' := by
  induction n generalizing s ops with
  | zero => cases h
  | succ n ih =>
    obtain ⟨⟨s₁, pos⟩, hemit, h⟩ := Lockstep.bind_eq_ok.mp h
    obtain ⟨⟨s₂, ops₂⟩, hpatch, h⟩ := Lockstep.bind_eq_ok.mp h
    obtain ⟨hemitted, hend, rfl⟩ := emitOps_spec hemit
    have hlen := length_positions s.code.length ops
    obtain ⟨hwiden, hdone⟩ := patchJumps_spec hlen hpatch
    dsimp only at h
    split at h
    · obtain ⟨ops', hwiden', hcoded⟩ := ih h
      refine ⟨ops', ?_, hcoded.length, hcoded.keep, hcoded.lead, hcoded.count, hcoded.reads,
        hcoded.cells⟩
      exact forall₂_widened_trans hwiden hwiden'
    · next hcount =>
      obtain ⟨rfl, code₁, rfl, hjumps, hjreads⟩ := hdone (Decidable.not_not.mp hcount)
      rw [positions_zip] at hjumps hjreads
      have hapart := placed_apart s.code.length ops₂
      rw [← hend] at hapart
      have hapart' := hapart
      rw [← hjumps.length, ← positions_zip] at hapart'
      obtain ⟨code₂, rfl, hswitches, hsreads⟩ := patchSwitches_spec hlen h hapart'
      rw [positions_zip] at hswitches hsreads
      exact ⟨ops₂, hwiden, hemitted.coded hend hjumps hswitches (hjreads hapart) hsreads⟩

/-- **The code of a method**: a jump may have become far, and each offset leads to its label. -/
theorem ops_spec {code : List IrOp} (h : ops img s code = .ok s') :
    ∃ ops', List.Forall₂ Widened code ops' ∧ Coded img s s' ops' := opsLoop_spec h

end Sedona.ImageGen
