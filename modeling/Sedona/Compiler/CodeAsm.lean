import Mathlib.Tactic
import Sedona.Library.Lockstep

/-!
# CodeAsm

The assembler of statements (`sedonac.asm.CodeAsm`). The statements of a block become a list of
operations whose jumps name the indices of others. The operations of an expression stand as one
operation here, and jumps for `goto` keep their label, since only `finish` patches them.

## Main results

* `block_inside`: control stays in the code of a block until it comes to its end, but for breaks.
* `block_escapes_iff`: the blocks that `isExit` accepts although control can come to their end.
-/

namespace Sedona.CodeAsm

open Lockstep

/-! ### Statements -/

/-- `Stmt.ExprStmt` and `Stmt.LocalDef`. -/
inductive Simple (ε : Type) where
  | expr (e : ε)
  | localDef (init : Option ε)

/-- The condition of an `if`: `ifStmt` has `or` and `and` branch on their own. -/
inductive Cond (ε : Type) where
  | expr (e : ε)
  | or (operands : List ε)
  | and (operands : List ε)

mutual

/-- `Stmt`. -/
inductive Stmt (ε : Type) where
  | simple (s : Simple ε)
  | assert (cond : ε)
  | ifs (cond : Cond ε) (trueBlock : List (Stmt ε)) (falseBlock : Option (List (Stmt ε)))
  | ret (foreachDepth : ℕ) (expr : Option ε)
  | fors (init : Option (Simple ε)) (cond update : Option ε) (block : List (Stmt ε))
  | foreach (array length : ε) (block : List (Stmt ε))
  | whiles (cond : ε) (block : List (Stmt ε))
  | doWhile (block : List (Stmt ε)) (cond : ε)
  | breaks
  | continues
  | goto (destLabel : String)
  | switch (cond : ε) (cases : List (Case ε)) (defaultBlock : Option (List (Stmt ε)))

/-- `Stmt.Case`, without a block when no statement follows the label. -/
inductive Case (ε : Type) where
  | mk (label : BitVec 32) (block : Option (List (Stmt ε)))

end

variable {ε : Type}

def Case.label : Case ε → BitVec 32
  | .mk label _ => label

def Case.block : Case ε → Option (List (Stmt ε))
  | .mk _ block => block

mutual

/-- `Stmt.isExit`. -/
def Stmt.isExit : Stmt ε → Bool
  | .ret .. => true
  | .goto _ => true
  | .ifs _ t f => blockIsExit t && optIsExit f
  | .switch _ cases d => casesAreExits cases && optIsExit d
  | _ => false

/-- `Block.isExit`. -/
def blockIsExit : List (Stmt ε) → Bool
  | [] => false
  | s :: rest => if rest.isEmpty then s.isExit else blockIsExit rest

/-- Without a block that is `false`. -/
def optIsExit : Option (List (Stmt ε)) → Bool
  | none => false
  | some b => blockIsExit b

/-- The loop over the cases of a switch. -/
def casesAreExits : List (Case ε) → Bool
  | [] => true
  | .mk _ none :: rest => casesAreExits rest
  | .mk _ (some b) :: rest => blockIsExit b && casesAreExits rest

end

/-! ### Operations -/

/-- `IrOp`. -/
inductive IrOp (ε : Type) where
  | eval (e : ε)
  | exec (e : ε)
  | storeLocal
  | assert
  | loadInt (v : BitVec 32)
  | intSub
  | loadArray
  | pop3
  | ret
  | jump (mark : ℕ)
  | jumpZero (mark : ℕ)
  | jumpNonZero (mark : ℕ)
  | foreach (mark : ℕ)
  | goto (destLabel : String)
  | switch (jumps : List ℕ)

/-- Code that has been written, with the jumps that wait for the end of the loop around it. -/
structure Frag (ε : Type) where
  ops : List (IrOp ε)
  breaks : List ℕ := []
  continues : List ℕ := []

/-- The two kinds of `Loop.stmt` that are told apart. -/
inductive LoopKind where
  | loop | switch
deriving DecidableEq

/-- What the compiler reports, and an exception of its own. -/
inductive Fail where
  | err (msg : String)
  | crash

/-- `backpatch` of the operations at these indices of a code that begins at `mark`. -/
def backpatch (mark : ℕ) (indices : List ℕ) (target : ℕ) (ops : List (IrOp ε)) : List (IrOp ε) :=
  ops.mapIdx fun k op => if mark + k ∈ indices then .jump target else op

/-- `exprStmt` and `localDefStmt`. -/
def simple : Simple ε → List (IrOp ε)
  | .expr e => [.exec e]
  | .localDef none => []
  | .localDef (some e) => [.eval e, .storeLocal]

/-- `or`: the last operand decides alone. -/
def orOps (trueMark falseMark : ℕ) : List ε → List (IrOp ε)
  | [] => []
  | e :: es =>
      .eval e :: (if es.isEmpty then .jumpZero falseMark else .jumpNonZero trueMark) ::
        orOps trueMark falseMark es

/-- The condition of an `if`: the value of the expression, `or`, or `and`. -/
def condOps (trueMark falseMark : ℕ) : Cond ε → List (IrOp ε)
  | .expr e => [.eval e, .jumpZero falseMark]
  | .or es => orOps trueMark falseMark es
  | .and es => es.flatMap fun e => [.eval e, .jumpZero falseMark]

def Cond.size : Cond ε → ℕ
  | .expr _ => 2
  | .or es => 2 * es.length
  | .and es => 2 * es.length

/-! ### Switches -/

/-- `calculateRange`. -/
def calculateRange (labels : List (BitVec 32)) : BitVec 32 × BitVec 32 :=
  if labels.isEmpty then (0, 0)
  else (labels.foldl (fun min label => if label.slt min then label else min) 0x7fffffff,
    labels.foldl (fun max label => if max.slt label then label else max) 0x80000000)

/-- The beginning of `switchStmt`, in front of the switch operation. -/
def switchHead (cond : ε) (labels : List (BitVec 32)) : Except Fail (List (IrOp ε)) :=
  let num := labels.length
  let (min, max) := calculateRange labels
  let delta := max - min + 1
  if delta.toInt > 30 ∧ (num * 3 : ℕ) < delta.toInt then
    .error (.err (s!"Switch cases too sparse: only {num} cases from {min.toInt} to {max.toInt}" ++
      "; use if/else"))
  else if delta.toInt < 0 then .error .crash
  else if min = 0 then .ok [.eval cond]
  else .ok [.eval cond, .loadInt min, .intSub]

/-- `jumps[label-min] = mark`. -/
def setJump (min : BitVec 32) (jumps : List ℕ) (label : BitVec 32) (mark : ℕ) :
    Except Fail (List ℕ) :=
  let i := (label - min).toInt
  if 0 ≤ i ∧ i < jumps.length then .ok (jumps.set i.toNat mark) else .error .crash

/-- The table: the marks of the cases, and the default block for what has none. -/
def jumpTable (labels : List (BitVec 32)) (marks : List (BitVec 32 × ℕ)) (defStart : ℕ) :
    Except Fail (List ℕ) := do
  let (min, max) := calculateRange labels
  let jumps ← marks.foldlM (fun jumps (label, mark) => setJump min jumps label mark)
    (List.replicate (max - min + 1).toInt.toNat 0)
  .ok (jumps.map fun mark => if mark = 0 then defStart else mark)

/-- Whether the case is the last one and has to jump to the default block. -/
def jumpsToDefault (isLast : Bool) (b : Option (List (Stmt ε))) : Except Fail Bool :=
  if isLast then
    match b.bind List.getLast? with
    | none => .error .crash
    | some .breaks => .ok false
    | some _ => .ok true
  else .ok false

/-- Where the case begins and where the code of its block ends. -/
structure CaseMark where
  label : BitVec 32
  start : ℕ
  stop : ℕ

/-- The end of `switchStmt`: the code from its parts. -/
def switchOps (start : ℕ) (head : List (IrOp ε)) (f : Frag ε) (defEnd : Bool) (g : Frag ε)
    (jumps : List ℕ) : List (IrOp ε) :=
  let defStart := start + head.length + 1
  let casesStart := defStart + f.ops.length + defEnd.toNat
  let done := casesStart + g.ops.length
  head ++ .switch jumps :: (backpatch defStart f.breaks done f.ops ++
    ((if defEnd then [.jump done] else []) ++ backpatch casesStart g.breaks done g.ops))

/-! ### Assembly -/

mutual

/-- `stmt`, at the mark `i`, with the kind of the loop on top of the stack. -/
def stmt (loop : Option LoopKind) (i : ℕ) : Stmt ε → Except Fail (Frag ε)
  | .simple s => .ok { ops := simple s }
  | .assert cond => .ok { ops := [.eval cond, .assert] }
  | .ifs cond trueBlock falseBlock => do
      let trueMark := i + cond.size
      let t ← block loop trueMark trueBlock
      let endJump := falseBlock.isSome && !blockIsExit trueBlock
      let falseMark := trueMark + t.ops.length + endJump.toNat
      let f ← optBlock loop falseMark falseBlock
      let done := falseMark + f.ops.length
      .ok
        { ops := condOps trueMark falseMark cond ++
            (t.ops ++ ((if endJump then [.jump done] else []) ++ f.ops)),
          breaks := t.breaks ++ f.breaks, continues := t.continues ++ f.continues }
  | .ret foreachDepth expr =>
      .ok { ops := List.replicate foreachDepth .pop3 ++ (expr.toList.map .eval ++ [.ret]) }
  | .fors init cond update body => do
      let init := (init.map simple).getD []
      let condMark := i + init.length
      let bodyMark := condMark + 2 * cond.toList.length
      let f ← block (some .loop) bodyMark body
      let updateMark := bodyMark + f.ops.length
      let done := updateMark + update.toList.length + 1
      .ok
        { ops := init ++ (cond.toList.flatMap (fun e => [.eval e, .jumpZero done]) ++
            (backpatch bodyMark f.continues updateMark (backpatch bodyMark f.breaks done f.ops) ++
              (update.toList.map .exec ++ [.jump condMark]))) }
  | .foreach array length body => do
      let loopMark := i + 3
      let f ← block (some .loop) (loopMark + 3) body
      let done := loopMark + 3 + f.ops.length + 1
      .ok
        { ops := .eval array :: .eval length :: .loadInt (-1) :: .foreach done :: .loadArray ::
            .storeLocal ::
              (backpatch (loopMark + 3) f.continues loopMark
                (backpatch (loopMark + 3) f.breaks done f.ops) ++ [.jump loopMark, .pop3]) }
  | .whiles cond body => do
      let f ← block (some .loop) (i + 2) body
      let done := i + 2 + f.ops.length + 1
      .ok
        { ops := .eval cond :: .jumpZero done ::
            (backpatch (i + 2) f.continues i (backpatch (i + 2) f.breaks done f.ops) ++
              [.jump i]) }
  | .doWhile body cond => do
      let f ← block (some .loop) i body
      let condMark := i + f.ops.length
      let done := condMark + 2
      .ok
        { ops := backpatch i f.continues condMark (backpatch i f.breaks done f.ops) ++
            [.eval cond, .jumpNonZero i] }
  | .breaks =>
      match loop with
      | none => .error (.err "Break outside of loop")
      | some _ => .ok { ops := [.jump 0], breaks := [i] }
  | .continues =>
      match loop with
      | none => .error (.err "Continue outside of loop")
      | some .switch => .error (.err "continue outside of loop")
      | some .loop => .ok { ops := [.jump 0], continues := [i] }
  | .goto destLabel => .ok { ops := [.goto destLabel] }
  | .switch cond cases defaultBlock => do
      let labels := cases.map Case.label
      let head ← switchHead cond labels
      let defStart := i + head.length + 1
      let f ← optBlock (some .switch) defStart defaultBlock
      let defEnd := !optIsExit defaultBlock
      let (marks, g) ← caseBlocks defStart (defStart + f.ops.length + defEnd.toNat) cases
      let jumps ← jumpTable labels (marks.map fun m => (m.label, m.start)) defStart
      .ok { ops := switchOps i head f defEnd g jumps }

/-- `block`, at the mark `i`. -/
def block (loop : Option LoopKind) (i : ℕ) : List (Stmt ε) → Except Fail (Frag ε)
  | [] => .ok { ops := [] }
  | s :: rest => do
      let f ← stmt loop i s
      let g ← block loop (i + f.ops.length) rest
      .ok
        { ops := f.ops ++ g.ops, breaks := f.breaks ++ g.breaks,
          continues := f.continues ++ g.continues }

/-- A block that may be missing. -/
def optBlock (loop : Option LoopKind) (i : ℕ) : Option (List (Stmt ε)) → Except Fail (Frag ε)
  | none => .ok { ops := [] }
  | some b => block loop i b

/-- The loop of `switchStmt` over the cases. -/
def caseBlocks (defStart i : ℕ) : List (Case ε) → Except Fail (List CaseMark × Frag ε)
  | [] => .ok ([], { ops := [] })
  | .mk label b :: rest => do
      let f ← optBlock (some .switch) i b
      let stop := i + f.ops.length
      let toDefault ← jumpsToDefault rest.isEmpty b
      let (marks, g) ← caseBlocks defStart (stop + toDefault.toNat) rest
      .ok (⟨label, i, stop⟩ :: marks,
        { ops := f.ops ++ ((if toDefault then [.jump defStart] else []) ++ g.ops),
          breaks := f.breaks ++ g.breaks, continues := f.continues ++ g.continues })

end

/-! ### Successors -/

/-- The indices of the operations that may run after the one at `pc`. -/
def IrOp.succs (pc : ℕ) : IrOp ε → List ℕ
  | .jump mark => [mark]
  | .jumpZero mark => [pc + 1, mark]
  | .jumpNonZero mark => [pc + 1, mark]
  | .foreach mark => [pc + 1, mark]
  | .switch jumps => (pc + 1) :: jumps
  | .ret => []
  | .goto _ => []
  | _ => [pc + 1]

/-- Control stays between `lo` and `hi`, but for the jumps that wait to be patched. -/
def Inside (mark : ℕ) (waiting : List ℕ) (lo hi : ℕ) (ops : List (IrOp ε)) : Prop :=
  ∀ k op, ops[k]? = some op → mark + k ∉ waiting →
    ∀ t ∈ op.succs (mark + k), lo ≤ t ∧ t ≤ hi

section Inside

variable {mark lo hi lo' hi' target : ℕ} {waiting waiting' indices : List ℕ}
  {ops ops' : List (IrOp ε)} {op : IrOp ε}

theorem Inside.nil : Inside mark waiting lo hi ([] : List (IrOp ε)) := by
  intro k op hop
  rw [List.getElem?_nil] at hop
  cases hop

theorem Inside.append (h : Inside mark waiting lo hi ops)
    (h' : Inside (mark + ops.length) waiting lo hi ops') :
    Inside mark waiting lo hi (ops ++ ops') := by
  intro k op hop hwaiting
  rcases Nat.lt_or_ge k ops.length with hlt | hge
  · rw [List.getElem?_append_left hlt] at hop
    exact h k op hop hwaiting
  · rw [List.getElem?_append_right hge] at hop
    have hk : mark + k = mark + ops.length + (k - ops.length) := by omega
    rw [hk] at hwaiting ⊢
    exact h' _ op hop hwaiting

theorem Inside.cons (hop : ∀ t ∈ op.succs mark, lo ≤ t ∧ t ≤ hi)
    (h : Inside (mark + 1) waiting lo hi ops) : Inside mark waiting lo hi (op :: ops) := by
  intro k op' hop' hwaiting
  cases k with
  | zero =>
      obtain rfl : op = op' := Option.some.inj hop'
      exact hop
  | succ k =>
      rw [List.getElem?_cons_succ] at hop'
      rw [show mark + (k + 1) = mark + 1 + k from by omega] at hwaiting ⊢
      exact h k op' hop' hwaiting

theorem Inside.mono (h : Inside mark waiting lo hi ops) (hlo : lo' ≤ lo) (hhi : hi ≤ hi')
    (hw : ∀ p ∈ waiting, p ∈ waiting') : Inside mark waiting' lo' hi' ops := by
  intro k op hop hwaiting t ht
  have hin := h k op hop (fun hmem => hwaiting (hw _ hmem)) t ht
  omega

/-- Jumps that are patched wait no longer. -/
theorem Inside.backpatch (h : Inside mark waiting lo hi ops) (htarget : lo ≤ target ∧ target ≤ hi)
    (hw : ∀ p ∈ waiting, p ∈ indices ∨ p ∈ waiting') :
    Inside mark waiting' lo hi (backpatch mark indices target ops) := by
  intro k op hop hwaiting t ht
  rw [CodeAsm.backpatch, List.getElem?_mapIdx] at hop
  obtain ⟨op', hop', rfl⟩ := Option.map_eq_some_iff.mp hop
  by_cases hmem : mark + k ∈ indices
  · rw [if_pos hmem] at ht
    obtain rfl : t = target := List.mem_singleton.mp ht
    exact htarget
  · rw [if_neg hmem] at ht
    exact h k op' hop' (fun hin => (hw _ hin).elim hmem hwaiting) t ht

@[simp] theorem length_backpatch :
    (backpatch mark indices target ops).length = ops.length := List.length_mapIdx

end Inside

/-- The size of the code of a condition. -/
@[simp] theorem length_condOps (t f : ℕ) (c : Cond ε) : (condOps t f c).length = c.size := by
  cases c with
  | expr e => rfl
  | or es =>
      change (orOps t f es).length = 2 * es.length
      induction es with
      | nil => rfl
      | cons e es ih =>
          rw [orOps, List.length_cons, List.length_cons, ih, List.length_cons]
          omega
  | and es => simp [condOps, Cond.size, mul_comm]

/-- Operations that go on to the next one, or to none. -/
theorem Inside.straight {mark lo hi : ℕ} {waiting : List ℕ} {ops : List (IrOp ε)}
    (h : ∀ op ∈ ops, ∀ pc, ∀ t ∈ op.succs pc, t = pc + 1) (hlo : lo ≤ mark)
    (hhi : mark + ops.length ≤ hi) : Inside mark waiting lo hi ops := by
  intro k op hop _ t ht
  obtain ⟨hk, -⟩ := List.getElem?_eq_some_iff.mp hop
  rw [h op (List.mem_of_getElem? hop) _ t ht]
  omega

theorem simple_straight (s : Simple ε) : ∀ op ∈ simple s, ∀ pc, ∀ t ∈ op.succs pc, t = pc + 1 := by
  rcases s with e | _ | e <;> simp [simple, IrOp.succs]

/-- An operand and its jump. -/
theorem Inside.operand {i lo hi target : ℕ} {waiting : List ℕ} {e : ε} {op : IrOp ε}
    {ops : List (IrOp ε)} (hop : op.succs (i + 1) = [i + 2, target])
    (hi' : lo ≤ i + 1 ∧ i + 2 ≤ hi) (htarget : lo ≤ target ∧ target ≤ hi)
    (h : Inside (i + 2) waiting lo hi ops) : Inside i waiting lo hi (.eval e :: op :: ops) := by
  refine .cons ?_ (.cons ?_ h)
  · simp only [IrOp.succs, List.mem_singleton, forall_eq]
    omega
  · simp only [hop, List.mem_cons, List.not_mem_nil, or_false, forall_eq_or_imp, forall_eq]
    omega

theorem inside_orOps {i t f lo hi : ℕ} (es : List ε) (waiting : List ℕ) (hlo : lo ≤ i)
    (ht : i + 2 * es.length = t) (hf : t ≤ f) (hhi : f ≤ hi) :
    Inside i waiting lo hi (orOps t f es) := by
  induction es generalizing i with
  | nil => exact .nil
  | cons e es ih =>
      rw [List.length_cons] at ht
      have hrest : Inside (i + 2) waiting lo hi (orOps t f es) := ih (by omega) (by omega)
      rw [orOps]
      split
      · exact .operand rfl (by omega) ⟨by omega, hhi⟩ hrest
      · exact .operand rfl (by omega) ⟨by omega, by omega⟩ hrest

theorem inside_condOps {i t f lo hi : ℕ} (c : Cond ε) (waiting : List ℕ) (hlo : lo ≤ i)
    (ht : i + c.size = t) (hf : t ≤ f) (hhi : f ≤ hi) :
    Inside i waiting lo hi (condOps t f c) := by
  cases c with
  | expr e =>
      rw [Cond.size] at ht
      exact .operand rfl (by omega) ⟨by omega, hhi⟩ .nil
  | or es => exact inside_orOps es waiting hlo ht hf hhi
  | and es =>
      rw [Cond.size] at ht
      change Inside i waiting lo hi (es.flatMap _)
      induction es generalizing i with
      | nil => exact .nil
      | cons e es ih =>
          rw [List.length_cons] at ht
          exact .operand rfl (by omega) ⟨by omega, hhi⟩ (ih (by omega) (by omega))

/-- The code of a statement or a block. -/
structure Fits (loop : Option LoopKind) (i : ℕ) (f : Frag ε) : Prop where
  inside : Inside i (f.breaks ++ f.continues) i (i + f.ops.length) f.ops
  bounds : ∀ p ∈ f.breaks ++ f.continues, i ≤ p ∧ p < i + f.ops.length
  continues_nil : loop ≠ some .loop → f.continues = []

theorem Fits.append {loop : Option LoopKind} {i : ℕ} {f g : Frag ε} (hf : Fits loop i f)
    (hg : Fits loop (i + f.ops.length) g) :
    Fits loop i ⟨f.ops ++ g.ops, f.breaks ++ g.breaks, f.continues ++ g.continues⟩ := by
  have hmem : ∀ p, p ∈ f.breaks ++ g.breaks ++ (f.continues ++ g.continues) ↔
      p ∈ f.breaks ++ f.continues ∨ p ∈ g.breaks ++ g.continues := by
    intro p
    simp only [List.mem_append]
    tauto
  constructor
  · simp only [List.length_append]
    refine .append (hf.inside.mono le_rfl (by omega) fun p hp => (hmem p).mpr (.inl hp)) ?_
    exact hg.inside.mono (by omega) (by omega) fun p hp => (hmem p).mpr (.inr hp)
  · intro p hp
    simp only [List.length_append]
    rcases (hmem p).mp hp with hp | hp
    · have := hf.bounds p hp
      omega
    · have := hg.bounds p hp
      omega
  · intro hloop
    rw [hf.continues_nil hloop, hg.continues_nil hloop]
    rfl

/-- Operations that wait for nothing. -/
theorem Fits.of_inside {loop : Option LoopKind} {i : ℕ} {ops : List (IrOp ε)}
    (h : Inside i [] i (i + ops.length) ops) : Fits loop i { ops := ops } where
  inside := h
  bounds := by
    rintro p ⟨⟩
  continues_nil _ := rfl

/-- A jump that waits. -/
theorem Fits.waiting {loop : Option LoopKind} {i : ℕ} {breaks continues : List ℕ}
    (hi : i ∈ breaks ++ continues) (hw : ∀ p ∈ breaks ++ continues, p = i)
    (hloop : loop ≠ some .loop → continues = []) :
    Fits loop i (⟨[.jump 0], breaks, continues⟩ : Frag ε) where
  inside := by
    intro k op hop hwaiting
    cases k with
    | zero => exact absurd hi hwaiting
    | succ k => cases hop
  bounds := by
    intro p hp
    rw [hw p hp]
    exact ⟨le_rfl, Nat.lt_succ_self i⟩
  continues_nil := hloop

/-- The two blocks of an `if`. -/
theorem Fits.ifs {loop : Option LoopKind} {i : ℕ} (cond : Cond ε) {t f : Frag ε} (endJump : Bool)
    (ht : Fits loop (i + cond.size) t)
    (hf : Fits loop (i + cond.size + t.ops.length + endJump.toNat) f) :
    let falseMark := i + cond.size + t.ops.length + endJump.toNat
    Fits loop i
      { ops := condOps (i + cond.size) falseMark cond ++
          (t.ops ++ ((if endJump then [.jump (falseMark + f.ops.length)] else []) ++ f.ops)),
        breaks := t.breaks ++ f.breaks, continues := t.continues ++ f.continues } := by
  intro falseMark
  have hmem : ∀ p, p ∈ t.breaks ++ f.breaks ++ (t.continues ++ f.continues) ↔
      p ∈ t.breaks ++ t.continues ∨ p ∈ f.breaks ++ f.continues := by
    intro p
    simp only [List.mem_append]
    tauto
  have hlen : ((if endJump then [.jump (falseMark + f.ops.length)] else []) :
      List (IrOp ε)).length = endJump.toNat := by
    cases endJump <;> rfl
  constructor
  · simp only [List.length_append, length_condOps, hlen]
    refine .append (inside_condOps cond _ le_rfl rfl (by omega) (by omega)) ?_
    rw [length_condOps]
    refine .append (ht.inside.mono (by omega) (by omega) fun p hp => (hmem p).mpr (.inl hp))
      (.append ?_ ?_)
    · cases endJump with
      | false => exact .nil
      | true =>
          have hone : true.toNat = 1 := rfl
          exact .cons (by simp only [IrOp.succs, List.mem_singleton, forall_eq]; omega) .nil
    · rw [hlen]
      exact hf.inside.mono (by omega) (by omega) fun p hp => (hmem p).mpr (.inr hp)
  · intro p hp
    simp only [List.length_append, length_condOps, hlen]
    rcases (hmem p).mp hp with hp | hp
    · have := ht.bounds p hp
      omega
    · have := hf.bounds p hp
      omega
  · intro hloop
    rw [ht.continues_nil hloop, hf.continues_nil hloop]
    rfl

/-! ### Tables -/

theorem setJump_mem {min label : BitVec 32} {jumps jumps' : List ℕ} {mark t : ℕ}
    (h : setJump min jumps label mark = .ok jumps') (ht : t ∈ jumps') : t ∈ jumps ∨ t = mark := by
  rw [setJump] at h
  split at h
  · obtain rfl := Except.ok.inj h
    exact List.mem_or_eq_of_mem_set ht
  · cases h

/-- The entries of the table. -/
theorem jumpTable_mem {labels : List (BitVec 32)} {marks : List (BitVec 32 × ℕ)} {defStart t : ℕ}
    {jumps : List ℕ} (h : jumpTable labels marks defStart = .ok jumps) (ht : t ∈ jumps) :
    t = defStart ∨ ∃ m ∈ marks, t = m.2 := by
  obtain ⟨jumps₀, h₀, h⟩ := bind_eq_ok.mp h
  obtain rfl := Except.ok.inj h
  obtain ⟨t₀, ht₀, rfl⟩ := List.mem_map.mp ht
  have hfill : ∀ (marks : List (BitVec 32 × ℕ)) (jumps jumps₀ : List ℕ),
      marks.foldlM (fun jumps m => setJump (calculateRange labels).1 jumps m.1 m.2) jumps =
        .ok jumps₀ → ∀ t ∈ jumps₀, t ∈ jumps ∨ ∃ m ∈ marks, t = m.2 := by
    intro marks
    induction marks with
    | nil =>
        intro jumps jumps₀ h t ht
        obtain rfl := Except.ok.inj h
        exact .inl ht
    | cons m marks ih =>
        intro jumps jumps₀ h t ht
        rw [List.foldlM_cons] at h
        obtain ⟨jumps₁, h₁, h⟩ := bind_eq_ok.mp h
        rcases ih jumps₁ jumps₀ h t ht with ht | ⟨m', hm', rfl⟩
        · rcases setJump_mem h₁ ht with ht | rfl
          · exact .inl ht
          · exact .inr ⟨m, List.mem_cons_self, rfl⟩
        · exact .inr ⟨m', List.mem_cons_of_mem _ hm', rfl⟩
  rcases hfill marks _ jumps₀ h₀ t₀ ht₀ with ht₀ | ⟨m, hm, rfl⟩
  · obtain rfl := List.eq_of_mem_replicate ht₀
    exact .inl rfl
  · split
    · exact .inl rfl
    · exact .inr ⟨m, hm, rfl⟩

/-! ### Control stays inside -/

/-- The code of the cases, from which control may also go to the default block. -/
structure CasesFit (defStart i : ℕ) (cases : List (Case ε)) (marks : List CaseMark) (g : Frag ε) :
    Prop where
  inside : ∀ lo ≤ defStart, defStart ≤ i → Inside i g.breaks lo (i + g.ops.length) g.ops
  bounds : ∀ p ∈ g.breaks, i ≤ p ∧ p < i + g.ops.length
  continues_nil : g.continues = []
  marks_mem : ∀ m ∈ marks, i ≤ m.start ∧ m.start ≤ m.stop ∧ m.stop ≤ i + g.ops.length
  ops_ne_nil : g.ops ≠ [] ↔ cases ≠ []
  start_lt : ∀ m ∈ marks, m.start < i + g.ops.length

/-- A loop around a block: its jumps wait no longer. -/
theorem Fits.patched {i lo hi t₁ t₂ : ℕ} {loop : Option LoopKind} {f : Frag ε} (h : Fits loop i f)
    (hlo : lo ≤ i) (hhi : i + f.ops.length ≤ hi) (h₁ : lo ≤ t₁ ∧ t₁ ≤ hi)
    (h₂ : lo ≤ t₂ ∧ t₂ ≤ hi) (waiting : List ℕ) :
    Inside i waiting lo hi (backpatch i f.continues t₂ (backpatch i f.breaks t₁ f.ops)) := by
  have hfirst : Inside i f.continues lo hi (backpatch i f.breaks t₁ f.ops) :=
    .backpatch (h.inside.mono hlo hhi fun p hp => hp) h₁ fun p hp => List.mem_append.mp hp
  exact .backpatch hfirst h₂ fun p hp => .inl hp

theorem switchHead_ok {cond : ε} {labels : List (BitVec 32)} {head : List (IrOp ε)}
    (h : switchHead cond labels = .ok head) :
    head = .eval cond :: (if (calculateRange labels).1 = 0 then []
      else [.loadInt (calculateRange labels).1, .intSub]) := by
  simp only [switchHead] at h
  split at h
  · cases h
  · split at h
    · cases h
    · split at h
      · rename_i hmin
        rw [if_pos hmin]
        exact (Except.ok.inj h).symm
      · rename_i hmin
        rw [if_neg hmin]
        exact (Except.ok.inj h).symm

theorem switchHead_straight {cond : ε} {labels : List (BitVec 32)} {head : List (IrOp ε)}
    (h : switchHead cond labels = .ok head) :
    ∀ op ∈ head, ∀ pc, ∀ t ∈ op.succs pc, t = pc + 1 := by
  rw [switchHead_ok h]
  split <;> simp [IrOp.succs]

/-- The code of a switch. -/
theorem inside_switchOps {i : ℕ} {head : List (IrOp ε)} {f g : Frag ε} {defEnd : Bool}
    {jumps : List ℕ} {cases : List (Case ε)} {marks : List CaseMark}
    (hhead : ∀ op ∈ head, ∀ pc, ∀ t ∈ op.succs pc, t = pc + 1)
    (hf : Fits (some .switch) (i + head.length + 1) f)
    (hg : CasesFit (i + head.length + 1) (i + head.length + 1 + f.ops.length + defEnd.toNat)
      cases marks g)
    (hjumps : ∀ t ∈ jumps, t = i + head.length + 1 ∨
      ∃ m ∈ marks.map fun m => (m.label, m.start), t = m.2) :
    Inside i [] i (i + (switchOps i head f defEnd g jumps).length)
      (switchOps i head f defEnd g jumps) := by
  have hlen : ∀ k, ((if defEnd then [.jump k] else []) : List (IrOp ε)).length = defEnd.toNat := by
    cases defEnd <;> exact fun _ => rfl
  have hinside := hf.inside
  rw [hf.continues_nil (by decide), List.append_nil] at hinside
  have htotal : (switchOps i head f defEnd g jumps).length =
      head.length + (f.ops.length + (defEnd.toNat + g.ops.length) + 1) := by
    simp only [switchOps, List.length_append, List.length_cons, length_backpatch, hlen]
  rw [htotal]
  refine .append (.straight hhead le_rfl (by omega)) (.cons ?_ (.append ?_ (.append ?_ ?_)))
  · intro t ht
    rcases List.mem_cons.mp ht with rfl | ht
    · omega
    · rcases hjumps t ht with rfl | ⟨m, hm, rfl⟩
      · omega
      · obtain ⟨c, hc, rfl⟩ := List.mem_map.mp hm
        have := hg.marks_mem c hc
        simp only
        omega
  · exact .backpatch (hinside.mono (by omega) (by omega) fun p hp => hp) (by omega)
      fun p hp => .inl hp
  · cases defEnd with
    | false => exact .nil
    | true => exact .cons (by simp only [IrOp.succs, List.mem_singleton, forall_eq]; omega) .nil
  · rw [length_backpatch, hlen]
    exact .backpatch ((hg.inside i (by omega) (by omega)).mono le_rfl (by omega) fun p hp => hp)
      (by omega) fun p hp => .inl hp

/-- A block that ends with a break has code. -/
theorem block_ne_nil {loop : Option LoopKind} {i : ℕ} {b : List (Stmt ε)} {f : Frag ε}
    (h : block loop i b = .ok f) (hlast : b.getLast? = some .breaks) : f.ops ≠ [] := by
  induction b generalizing i f with
  | nil => cases hlast
  | cons s rest ih =>
      rw [block] at h
      obtain ⟨f, hf, h⟩ := bind_eq_ok.mp h
      obtain ⟨g, hg, h⟩ := bind_eq_ok.mp h
      obtain rfl := Except.ok.inj h
      cases rest with
      | nil =>
          obtain rfl : s = .breaks := Option.some.inj hlast
          cases loop with
          | none => cases hf
          | some k =>
              obtain rfl := Except.ok.inj hf
              exact List.cons_ne_nil _ _
      | cons s' rest => exact List.append_ne_nil_of_right_ne_nil _ (ih hg hlast)

/-- The last case has code behind its mark. -/
theorem lastCase_ne_nil {i : ℕ} {b : Option (List (Stmt ε))} {f : Frag ε} {toDefault : Bool}
    (hb : optBlock (some .switch) i b = .ok f) (hto : jumpsToDefault true b = .ok toDefault) :
    f.ops ≠ [] ∨ toDefault = true := by
  rw [jumpsToDefault, if_pos rfl] at hto
  split at hto
  · cases hto
  · rename_i hlast
    obtain ⟨b', rfl, hlast⟩ := Option.bind_eq_some_iff.mp hlast
    exact .inl (block_ne_nil hb hlast)
  · exact .inr (Except.ok.inj hto).symm

/-- One more case in front. -/
theorem CasesFit.cons {defStart i : ℕ} {toDefault : Bool} {rest : List (Case ε)}
    {marks : List CaseMark} {f g : Frag ε} (label : BitVec 32) (b : Option (List (Stmt ε)))
    (hg : CasesFit defStart (i + f.ops.length + toDefault.toNat) rest marks g)
    (hf : Fits (some .switch) i f) (hb : optBlock (some .switch) i b = .ok f)
    (hto : jumpsToDefault rest.isEmpty b = .ok toDefault) :
    CasesFit defStart i (.mk label b :: rest) (⟨label, i, i + f.ops.length⟩ :: marks)
      ⟨f.ops ++ ((if toDefault then [.jump defStart] else []) ++ g.ops), f.breaks ++ g.breaks,
        f.continues ++ g.continues⟩ := by
  have hlen : ((if toDefault then [.jump defStart] else []) : List (IrOp ε)).length =
      toDefault.toNat := by
    cases toDefault <;> rfl
  have hcont := hf.continues_nil (by decide)
  have hne : 0 < f.ops.length + (toDefault.toNat + g.ops.length) := by
    cases hrest : rest with
    | nil =>
        rw [hrest] at hto
        rcases lastCase_ne_nil hb hto with hne | rfl
        · have := List.length_pos_iff.mpr hne
          omega
        · have hone : true.toNat = 1 := rfl
          omega
    | cons c rest' =>
        have := List.length_pos_iff.mpr (hg.ops_ne_nil.mpr (hrest ▸ List.cons_ne_nil _ _))
        omega
  constructor <;> simp only [List.length_append, hlen]
  · intro lo hlo hdef
    have hinside := hf.inside
    rw [hcont, List.append_nil] at hinside
    refine .append (hinside.mono (by omega) (by omega) fun p hp =>
      List.mem_append_left _ hp) (.append ?_ ?_)
    · cases toDefault with
      | false => exact .nil
      | true => exact .cons (by simp only [IrOp.succs, List.mem_singleton, forall_eq]; omega) .nil
    · rw [hlen]
      exact (hg.inside lo hlo (by omega)).mono le_rfl (by omega) fun p hp =>
        List.mem_append_right _ hp
  · intro p hp
    rcases List.mem_append.mp hp with hp | hp
    · have := hf.bounds p (List.mem_append_left _ hp)
      omega
    · have := hg.bounds p hp
      omega
  · rw [hcont, hg.continues_nil]
    rfl
  · intro m hm
    rcases List.mem_cons.mp hm with rfl | hm
    · exact ⟨le_rfl, Nat.le_add_right _ _, Nat.add_le_add_left (Nat.le_add_right _ _) i⟩
    · have := hg.marks_mem m hm
      omega
  · refine iff_of_true (fun hnil => ?_) (List.cons_ne_nil _ _)
    rw [← List.length_eq_zero_iff, List.length_append, List.length_append, hlen] at hnil
    omega
  · intro m hm
    rcases List.mem_cons.mp hm with rfl | hm
    · exact Nat.lt_add_of_pos_right hne
    · have := hg.start_lt m hm
      omega

mutual

theorem stmt_fits (loop : Option LoopKind) (i : ℕ) (s : Stmt ε) {f : Frag ε}
    (h : stmt loop i s = .ok f) : Fits loop i f :=
  match s with
  | .simple s => by
      obtain rfl := Except.ok.inj h
      exact .of_inside (.straight (simple_straight s) le_rfl le_rfl)
  | .assert cond => by
      obtain rfl := Except.ok.inj h
      exact .of_inside (.straight (by simp [IrOp.succs]) le_rfl le_rfl)
  | .ifs cond trueBlock falseBlock => by
      rw [stmt] at h
      obtain ⟨t, ht, h⟩ := bind_eq_ok.mp h
      obtain ⟨f, hf, h⟩ := bind_eq_ok.mp h
      have htfits := block_fits loop _ trueBlock ht
      have hffits := optBlock_fits loop _ falseBlock hf
      obtain rfl := Except.ok.inj h
      exact Fits.ifs cond _ htfits hffits
  | .ret foreachDepth expr => by
      obtain rfl := Except.ok.inj h
      refine .of_inside (.straight ?_ le_rfl le_rfl)
      intro op hop
      rcases List.mem_append.mp hop with hop | hop
      · obtain rfl := List.eq_of_mem_replicate hop
        simp [IrOp.succs]
      · cases expr <;> simp at hop <;> rcases hop with rfl | rfl <;> simp [IrOp.succs]
  | .fors init cond update body => by
      rw [stmt] at h
      obtain ⟨f, hf, h⟩ := bind_eq_ok.mp h
      have hfits := block_fits _ _ body hf
      obtain rfl := Except.ok.inj h
      have hinit : ∀ op ∈ (init.map simple).getD [], ∀ pc, ∀ t ∈ op.succs pc, t = pc + 1 := by
        cases init with
        | none => rintro op ⟨⟩
        | some s => exact simple_straight s
      have hjump : ∀ {j k hi : ℕ}, i ≤ k → k ≤ hi → Inside j [] i hi [(.jump k : IrOp ε)] :=
        fun hk hhi => .cons (by simp [IrOp.succs, hk, hhi]) .nil
      cases cond with
      | none =>
          cases update with
          | none =>
              refine .of_inside (.append (.straight hinit le_rfl ?_) (.append .nil (.append
                (hfits.patched ?_ ?_ ?_ ?_ []) (.append .nil (hjump ?_ ?_))))) <;> simp <;> omega
          | some e =>
              refine .of_inside (.append (.straight hinit le_rfl ?_) (.append .nil (.append
                (hfits.patched ?_ ?_ ?_ ?_ []) (.append (.straight ?_ ?_ ?_) (hjump ?_ ?_))))) <;>
                simp [IrOp.succs] <;> omega
      | some c =>
          cases update with
          | none =>
              refine .of_inside (.append (.straight hinit le_rfl ?_) (.append
                (.operand rfl ?_ ?_ .nil) (.append (hfits.patched ?_ ?_ ?_ ?_ [])
                  (.append .nil (hjump ?_ ?_))))) <;> simp <;> omega
          | some e =>
              refine .of_inside (.append (.straight hinit le_rfl ?_) (.append
                (.operand rfl ?_ ?_ .nil) (.append (hfits.patched ?_ ?_ ?_ ?_ [])
                  (.append (.straight ?_ ?_ ?_) (hjump ?_ ?_))))) <;> simp [IrOp.succs] <;> omega
  | .foreach array length body => by
      rw [stmt] at h
      obtain ⟨f, hf, h⟩ := bind_eq_ok.mp h
      have hfits := block_fits _ _ body hf
      obtain rfl := Except.ok.inj h
      refine .of_inside (.cons ?_ (.cons ?_ (.cons ?_ (.cons ?_ (.cons ?_ (.cons ?_ (.append
        (hfits.patched ?_ ?_ ?_ ?_ []) (.cons ?_ (.cons ?_ .nil))))))))) <;>
        (try simp [IrOp.succs]) <;> omega
  | .whiles cond body => by
      rw [stmt] at h
      obtain ⟨f, hf, h⟩ := bind_eq_ok.mp h
      have hfits := block_fits _ _ body hf
      obtain rfl := Except.ok.inj h
      refine .of_inside (.operand rfl ?_ ?_ (.append (hfits.patched ?_ ?_ ?_ ?_ []) (.cons ?_ .nil))) <;>
        simp [IrOp.succs] <;> omega
  | .doWhile body cond => by
      rw [stmt] at h
      obtain ⟨f, hf, h⟩ := bind_eq_ok.mp h
      have hfits := block_fits _ _ body hf
      obtain rfl := Except.ok.inj h
      refine .of_inside (.append (hfits.patched ?_ ?_ ?_ ?_ []) (.operand rfl ?_ ?_ .nil)) <;>
        simp <;> omega
  | .breaks => by
      cases loop with
      | none => cases h
      | some k =>
          obtain rfl := Except.ok.inj h
          exact .waiting (by simp) (by simp) fun _ => rfl
  | .continues => by
      rcases loop with _ | _ | _
      · cases h
      · obtain rfl := Except.ok.inj h
        exact .waiting (by simp) (by simp) fun hloop => absurd rfl hloop
      · cases h
  | .goto destLabel => by
      obtain rfl := Except.ok.inj h
      exact .of_inside (.cons (by rintro t ⟨⟩) .nil)
  | .switch cond cases defaultBlock => by
      rw [stmt] at h
      obtain ⟨head, hhead, h⟩ := bind_eq_ok.mp h
      obtain ⟨f, hf, h⟩ := bind_eq_ok.mp h
      obtain ⟨⟨marks, g⟩, hg, h⟩ := bind_eq_ok.mp h
      obtain ⟨jumps, hjumps, h⟩ := bind_eq_ok.mp h
      have hfits := optBlock_fits _ _ defaultBlock hf
      have hcases := caseBlocks_fit _ _ cases hg
      obtain rfl := Except.ok.inj h
      exact .of_inside (inside_switchOps (switchHead_straight hhead) hfits hcases
        fun t ht => jumpTable_mem hjumps ht)

theorem block_fits (loop : Option LoopKind) (i : ℕ) (b : List (Stmt ε)) {f : Frag ε}
    (h : block loop i b = .ok f) : Fits loop i f :=
  match b with
  | [] => by
      obtain rfl := Except.ok.inj h
      exact .of_inside .nil
  | s :: rest => by
      rw [block] at h
      obtain ⟨f, hf, h⟩ := bind_eq_ok.mp h
      obtain ⟨g, hg, h⟩ := bind_eq_ok.mp h
      obtain rfl := Except.ok.inj h
      exact (stmt_fits loop i s hf).append (block_fits loop _ rest hg)

theorem optBlock_fits (loop : Option LoopKind) (i : ℕ) (b : Option (List (Stmt ε))) {f : Frag ε}
    (h : optBlock loop i b = .ok f) : Fits loop i f :=
  match b with
  | none => by
      obtain rfl := Except.ok.inj h
      exact .of_inside .nil
  | some b => block_fits loop i b h

theorem caseBlocks_fit (defStart i : ℕ) (cases : List (Case ε)) {marks : List CaseMark} {g : Frag ε}
    (h : caseBlocks defStart i cases = .ok (marks, g)) : CasesFit defStart i cases marks g :=
  match cases with
  | [] => by
      obtain ⟨rfl, rfl⟩ := Prod.mk.inj (Except.ok.inj h)
      exact ⟨fun _ _ _ => .nil, by rintro p ⟨⟩, rfl, by rintro m ⟨⟩,
        iff_of_false (fun hne => hne rfl) (fun hne => hne rfl), by rintro m ⟨⟩⟩
  | .mk label b :: rest => by
      rw [caseBlocks] at h
      obtain ⟨f, hf, h⟩ := bind_eq_ok.mp h
      obtain ⟨toDefault, hto, h⟩ := bind_eq_ok.mp h
      obtain ⟨⟨marks, g⟩, hg, h⟩ := bind_eq_ok.mp h
      obtain ⟨rfl, rfl⟩ := Prod.mk.inj (Except.ok.inj h)
      exact (caseBlocks_fit _ _ rest hg).cons label b (optBlock_fits _ _ b hf) hf hto

end

/-! ### Exits -/

mutual

/-- A break of the loop or switch around the statement. -/
def Stmt.hasBreak : Stmt ε → Bool
  | .breaks => true
  | .ifs _ t f => blockHasBreak t || optHasBreak f
  | _ => false

def blockHasBreak : List (Stmt ε) → Bool
  | [] => false
  | s :: rest => s.hasBreak || blockHasBreak rest

def optHasBreak : Option (List (Stmt ε)) → Bool
  | none => false
  | some b => blockHasBreak b

end

def casesHaveBreak (cases : List (Case ε)) : Bool := cases.any fun c => optHasBreak c.block

mutual

/-- Of a statement that `isExit` accepts: control can come to its end. That is by a break of a
switch. -/
def Stmt.escapes : Stmt ε → Bool
  | .ifs _ _ f => optEscapes f
  | .switch _ cases d =>
      casesHaveBreak cases || optHasBreak d || (cases.isEmpty && optEscapes d)
  | _ => false

def blockEscapes : List (Stmt ε) → Bool
  | [] => false
  | s :: rest => if rest.isEmpty then s.escapes else blockEscapes rest

def optEscapes : Option (List (Stmt ε)) → Bool
  | none => false
  | some b => blockEscapes b

end

mutual

theorem stmt_breaks (loop : Option LoopKind) (i : ℕ) (s : Stmt ε) {f : Frag ε}
    (h : stmt loop i s = .ok f) : f.breaks ≠ [] ↔ s.hasBreak = true :=
  match s with
  | .ifs cond t f => by
      rw [stmt] at h
      obtain ⟨t', ht, h⟩ := bind_eq_ok.mp h
      obtain ⟨f', hf, h⟩ := bind_eq_ok.mp h
      obtain rfl := Except.ok.inj h
      rw [Stmt.hasBreak, Bool.or_eq_true, ← block_breaks loop _ t ht, ← optBlock_breaks loop _ f hf]
      simp only [ne_eq, List.append_eq_nil_iff]
      tauto
  | .breaks => by
      cases loop with
      | none => cases h
      | some k =>
          obtain rfl := Except.ok.inj h
          simp [Stmt.hasBreak]
  | .continues => by
      rcases loop with _ | _ | _
      · cases h
      · obtain rfl := Except.ok.inj h
        simp [Stmt.hasBreak]
      · cases h
  | .simple s => by
      obtain rfl := Except.ok.inj h
      simp [Stmt.hasBreak]
  | .assert cond => by
      obtain rfl := Except.ok.inj h
      simp [Stmt.hasBreak]
  | .ret foreachDepth expr => by
      obtain rfl := Except.ok.inj h
      simp [Stmt.hasBreak]
  | .fors init cond update body => by
      rw [stmt] at h
      obtain ⟨f, -, h⟩ := bind_eq_ok.mp h
      obtain rfl := Except.ok.inj h
      simp [Stmt.hasBreak]
  | .foreach array length body => by
      rw [stmt] at h
      obtain ⟨f, -, h⟩ := bind_eq_ok.mp h
      obtain rfl := Except.ok.inj h
      simp [Stmt.hasBreak]
  | .whiles cond body => by
      rw [stmt] at h
      obtain ⟨f, -, h⟩ := bind_eq_ok.mp h
      obtain rfl := Except.ok.inj h
      simp [Stmt.hasBreak]
  | .doWhile body cond => by
      rw [stmt] at h
      obtain ⟨f, -, h⟩ := bind_eq_ok.mp h
      obtain rfl := Except.ok.inj h
      simp [Stmt.hasBreak]
  | .goto destLabel => by
      obtain rfl := Except.ok.inj h
      simp [Stmt.hasBreak]
  | .switch cond cases d => by
      rw [stmt] at h
      obtain ⟨_, -, h⟩ := bind_eq_ok.mp h
      obtain ⟨_, -, h⟩ := bind_eq_ok.mp h
      obtain ⟨_, -, h⟩ := bind_eq_ok.mp h
      obtain ⟨_, -, h⟩ := bind_eq_ok.mp h
      obtain rfl := Except.ok.inj h
      simp [Stmt.hasBreak]

theorem block_breaks (loop : Option LoopKind) (i : ℕ) (b : List (Stmt ε)) {f : Frag ε}
    (h : block loop i b = .ok f) : f.breaks ≠ [] ↔ blockHasBreak b = true :=
  match b with
  | [] => by
      obtain rfl := Except.ok.inj h
      simp [blockHasBreak]
  | s :: rest => by
      rw [block] at h
      obtain ⟨f, hf, h⟩ := bind_eq_ok.mp h
      obtain ⟨g, hg, h⟩ := bind_eq_ok.mp h
      obtain rfl := Except.ok.inj h
      rw [blockHasBreak, Bool.or_eq_true, ← stmt_breaks loop i s hf, ← block_breaks loop _ rest hg]
      simp only [ne_eq, List.append_eq_nil_iff]
      tauto

theorem optBlock_breaks (loop : Option LoopKind) (i : ℕ) (b : Option (List (Stmt ε))) {f : Frag ε}
    (h : optBlock loop i b = .ok f) : f.breaks ≠ [] ↔ optHasBreak b = true :=
  match b with
  | none => by
      obtain rfl := Except.ok.inj h
      simp [optHasBreak]
  | some b => block_breaks loop i b h

end

theorem caseBlocks_breaks {defStart i : ℕ} {cases : List (Case ε)} {marks : List CaseMark}
    {g : Frag ε} (h : caseBlocks defStart i cases = .ok (marks, g)) :
    g.breaks ≠ [] ↔ casesHaveBreak cases = true := by
  induction cases generalizing i marks g with
  | nil =>
      obtain ⟨rfl, rfl⟩ := Prod.mk.inj (Except.ok.inj h)
      simp [casesHaveBreak]
  | cons c rest ih =>
      obtain ⟨label, b⟩ := c
      rw [caseBlocks] at h
      obtain ⟨f, hf, h⟩ := bind_eq_ok.mp h
      obtain ⟨toDefault, -, h⟩ := bind_eq_ok.mp h
      obtain ⟨⟨marks, g⟩, hg, h⟩ := bind_eq_ok.mp h
      obtain ⟨rfl, rfl⟩ := Prod.mk.inj (Except.ok.inj h)
      have hrest := ih hg
      rw [casesHaveBreak] at hrest ⊢
      rw [List.any_cons, Bool.or_eq_true, ← hrest, Case.block, ← optBlock_breaks _ i b hf]
      simp only [ne_eq, List.append_eq_nil_iff]
      tauto

/-- Some operation that does not wait goes on to `stop`. -/
def Leaves (mark : ℕ) (waiting : List ℕ) (stop : ℕ) (ops : List (IrOp ε)) : Prop :=
  ∃ k op, ops[k]? = some op ∧ mark + k ∉ waiting ∧ stop ∈ op.succs (mark + k)

section Leaves

variable {mark stop lo hi : ℕ} {waiting waiting' indices : List ℕ} {ops ops' : List (IrOp ε)}

theorem leaves_append : Leaves mark waiting stop (ops ++ ops') ↔
    Leaves mark waiting stop ops ∨ Leaves (mark + ops.length) waiting stop ops' := by
  constructor
  · rintro ⟨k, op, hop, hwaiting, hstop⟩
    rcases Nat.lt_or_ge k ops.length with hlt | hge
    · rw [List.getElem?_append_left hlt] at hop
      exact .inl ⟨k, op, hop, hwaiting, hstop⟩
    · rw [List.getElem?_append_right hge] at hop
      have hk : mark + k = mark + ops.length + (k - ops.length) := by omega
      rw [hk] at hwaiting hstop
      exact .inr ⟨_, op, hop, hwaiting, hstop⟩
  · rintro (⟨k, op, hop, hwaiting, hstop⟩ | ⟨k, op, hop, hwaiting, hstop⟩)
    · have hlt := (List.getElem?_eq_some_iff.mp hop).1
      exact ⟨k, op, by rwa [List.getElem?_append_left hlt], hwaiting, hstop⟩
    · rw [Nat.add_assoc] at hwaiting hstop
      exact ⟨ops.length + k, op, by rwa [List.getElem?_append_right (Nat.le_add_right _ _),
        Nat.add_sub_cancel_left], hwaiting, hstop⟩

theorem not_leaves (h : Inside mark waiting lo hi ops) (hstop : hi < stop) :
    ¬Leaves mark waiting stop ops := by
  rintro ⟨k, op, hop, hwaiting, hmem⟩
  have := h k op hop hwaiting stop hmem
  omega

theorem leaves_congr (h : ∀ p, mark ≤ p → p < mark + ops.length → (p ∈ waiting ↔ p ∈ waiting')) :
    Leaves mark waiting stop ops ↔ Leaves mark waiting' stop ops := by
  have hmem : ∀ k op, ops[k]? = some op → (mark + k ∈ waiting ↔ mark + k ∈ waiting') := by
    intro k op hop
    have := (List.getElem?_eq_some_iff.mp hop).1
    exact h _ (Nat.le_add_right _ _) (by omega)
  constructor
  · rintro ⟨k, op, hop, hwaiting, hstop⟩
    exact ⟨k, op, hop, mt (hmem k op hop).mpr hwaiting, hstop⟩
  · rintro ⟨k, op, hop, hwaiting, hstop⟩
    exact ⟨k, op, hop, mt (hmem k op hop).mp hwaiting, hstop⟩

/-- Jumps that are patched go to their target. -/
theorem leaves_backpatch (h : ∀ p ∈ indices, mark ≤ p ∧ p < mark + ops.length) :
    Leaves mark [] stop (backpatch mark indices stop ops) ↔
      indices ≠ [] ∨ Leaves mark indices stop ops := by
  constructor
  · rintro ⟨k, op, hop, -, hstop⟩
    rw [backpatch, List.getElem?_mapIdx] at hop
    obtain ⟨op', hop', rfl⟩ := Option.map_eq_some_iff.mp hop
    by_cases hmem : mark + k ∈ indices
    · exact .inl (List.ne_nil_of_mem hmem)
    · rw [if_neg hmem] at hstop
      exact .inr ⟨k, op', hop', hmem, hstop⟩
  · rintro (hne | ⟨k, op, hop, hmem, hstop⟩)
    · obtain ⟨p, hp⟩ := List.exists_mem_of_ne_nil _ hne
      obtain ⟨hge, hlt⟩ := h p hp
      refine ⟨p - mark, .jump stop, ?_, List.not_mem_nil, List.mem_singleton_self _⟩
      rw [backpatch, List.getElem?_mapIdx, List.getElem?_eq_getElem (by omega), Option.map_some,
        if_pos (by rwa [Nat.add_sub_cancel' hge])]
    · refine ⟨k, op, ?_, List.not_mem_nil, hstop⟩
      rw [backpatch, List.getElem?_mapIdx, hop, Option.map_some, if_neg hmem]

end Leaves

/-- What holds of the code of a statement or a block that `isExit` accepts. -/
structure Exits (i : ℕ) (f : Frag ε) (escapes : Bool) : Prop where
  ops_ne_nil : f.ops ≠ []
  leaves_iff : Leaves i (f.breaks ++ f.continues) (i + f.ops.length) f.ops ↔ escapes = true

/-- Code in front changes nothing. -/
theorem Exits.after {i : ℕ} {pre : List (IrOp ε)} {f : Frag ε} {e : Bool}
    {breaks continues : List ℕ} (waiting : List ℕ) (hpre : Inside i waiting i (i + pre.length) pre)
    (hbounds : ∀ p ∈ waiting, i ≤ p ∧ p < i + pre.length)
    (hexits : Exits (i + pre.length) f e)
    (hmem : ∀ p, p ∈ breaks ++ continues ↔ p ∈ waiting ∨ p ∈ f.breaks ++ f.continues) :
    Exits i ⟨pre ++ f.ops, breaks, continues⟩ e where
  ops_ne_nil := List.append_ne_nil_of_right_ne_nil _ hexits.ops_ne_nil
  leaves_iff := by
    have hpos := List.length_pos_iff.mpr hexits.ops_ne_nil
    have hright : Leaves (i + pre.length) (breaks ++ continues) (i + (pre ++ f.ops).length) f.ops ↔
        e = true := by
      rw [List.length_append, ← Nat.add_assoc, ← hexits.leaves_iff]
      refine leaves_congr fun p hge _ => ?_
      rw [hmem]
      refine or_iff_right fun hp => ?_
      have := hbounds p hp
      omega
    rw [leaves_append, hright]
    refine or_iff_right (not_leaves (hpre.mono le_rfl le_rfl fun p hp => (hmem p).mpr (.inl hp)) ?_)
    rw [List.length_append]
    omega

/-- Code that ends with an operation that has no successor. -/
theorem Exits.of_last {i : ℕ} (pre : List (IrOp ε)) (op : IrOp ε)
    (hpre : ∀ op ∈ pre, ∀ pc, ∀ t ∈ op.succs pc, t = pc + 1) (hop : ∀ pc, op.succs pc = []) :
    Exits i ({ ops := pre ++ [op] } : Frag ε) false where
  ops_ne_nil := List.append_ne_nil_of_right_ne_nil _ (List.cons_ne_nil _ _)
  leaves_iff := by
    refine iff_of_false ?_ Bool.false_ne_true
    rw [leaves_append, not_or]
    refine ⟨not_leaves (.straight hpre le_rfl le_rfl) ?_, ?_⟩
    · simp
    · rintro ⟨k, op', hop', -, hstop⟩
      obtain rfl : op' = op := List.mem_singleton.mp (List.mem_of_getElem? hop')
      rw [hop] at hstop
      cases hstop

/-- An `if` whose first block does not jump over the second. -/
theorem Exits.ifs {loop : Option LoopKind} {i : ℕ} {t f : Frag ε} {e : Bool} (cond : Cond ε)
    (ht : Fits loop (i + cond.size) t) (hf : Exits (i + cond.size + t.ops.length) f e) :
    Exits i ⟨condOps (i + cond.size) (i + cond.size + t.ops.length) cond ++ (t.ops ++ f.ops),
      t.breaks ++ f.breaks, t.continues ++ f.continues⟩ e := by
  have hlen : i + (condOps (i + cond.size) (i + cond.size + t.ops.length) cond ++ t.ops).length =
      i + cond.size + t.ops.length := by
    rw [List.length_append, length_condOps, Nat.add_assoc]
  rw [← hlen] at hf
  rw [← List.append_assoc]
  refine .after (t.breaks ++ t.continues) (.append ?_ ?_) (fun p hp => ?_) hf fun p => ?_
  · exact inside_condOps cond _ le_rfl rfl (by omega) (by omega)
  · rw [length_condOps, hlen]
    exact ht.inside.mono (by omega) le_rfl fun p hp => hp
  · have := ht.bounds p hp
    omega
  · simp only [List.mem_append]
    tauto

theorem getLast?_ne_breaks {b : List (Stmt ε)} (h : blockIsExit b = true) :
    b.getLast? ≠ some .breaks := by
  induction b with
  | nil => exact fun hlast => by cases hlast
  | cons s rest ih =>
      rw [blockIsExit] at h
      cases rest with
      | nil =>
          intro hlast
          obtain rfl : s = .breaks := Option.some.inj hlast
          cases h
      | cons s' rest => exact ih h

theorem casesAreExits_cons {label : BitVec 32} {b : Option (List (Stmt ε))} {rest : List (Case ε)}
    (h : casesAreExits (.mk label b :: rest) = true) :
    (∀ b' ∈ b, blockIsExit b' = true) ∧ casesAreExits rest = true := by
  cases b with
  | none => exact ⟨by rintro b' ⟨⟩, h⟩
  | some b =>
      rw [casesAreExits, Bool.and_eq_true] at h
      exact ⟨fun b' hb' => Option.some.inj hb' ▸ h.1, h.2⟩

theorem jumpsToDefault_exit {b : Option (List (Stmt ε))} {toDefault : Bool}
    (h : jumpsToDefault true b = .ok toDefault) (hexit : ∀ b' ∈ b, blockIsExit b' = true) :
    toDefault = true := by
  rw [jumpsToDefault, if_pos rfl] at h
  split at h
  · cases h
  · rename_i hlast
    obtain ⟨b', rfl, hlast⟩ := Option.bind_eq_some_iff.mp hlast
    exact absurd hlast (getLast?_ne_breaks (hexit b' rfl))
  · exact (Except.ok.inj h).symm

/-- Cases of which all blocks are exits. -/
theorem caseBlocks_not_leaves {defStart i : ℕ} {cases : List (Case ε)} {marks : List CaseMark}
    {g : Frag ε} (h : caseBlocks defStart i cases = .ok (marks, g)) (hdef : defStart < i)
    (hexit : casesAreExits cases = true) :
    ¬Leaves i g.breaks (i + g.ops.length) g.ops := by
  induction cases generalizing i marks g with
  | nil =>
      obtain ⟨rfl, rfl⟩ := Prod.mk.inj (Except.ok.inj h)
      rintro ⟨k, op, hop, -⟩
      cases hop
  | cons c rest ih =>
      obtain ⟨label, b⟩ := c
      rw [caseBlocks] at h
      obtain ⟨f, hf, h⟩ := bind_eq_ok.mp h
      obtain ⟨toDefault, hto, h⟩ := bind_eq_ok.mp h
      obtain ⟨⟨marks, g⟩, hg, h⟩ := bind_eq_ok.mp h
      obtain ⟨rfl, rfl⟩ := Prod.mk.inj (Except.ok.inj h)
      have hfits := optBlock_fits _ _ b hf
      have hcases := caseBlocks_fit _ _ rest hg
      have hlen : ((if toDefault then [.jump defStart] else []) : List (IrOp ε)).length =
          toDefault.toNat := by
        cases toDefault <;> rfl
      have hinside := hfits.inside
      rw [hfits.continues_nil (by decide), List.append_nil] at hinside
      obtain ⟨hb, hrest⟩ := casesAreExits_cons hexit
      have hpos : 0 < toDefault.toNat + g.ops.length := by
        cases rest with
        | nil =>
            rw [jumpsToDefault_exit hto hb]
            exact Nat.add_pos_left Nat.zero_lt_one _
        | cons c rest =>
            exact Nat.add_pos_right _ (List.length_pos_iff.mpr
              (hcases.ops_ne_nil.mpr (List.cons_ne_nil _ _)))
      simp only [List.length_append, hlen]
      rw [leaves_append, leaves_append, hlen, not_or, not_or]
      refine ⟨not_leaves (hinside.mono le_rfl le_rfl fun p hp => List.mem_append_left _ hp)
        (by omega), ?_, ?_⟩
      · cases toDefault with
        | false =>
            rintro ⟨k, op, hop, -⟩
            cases hop
        | true =>
            rintro ⟨k, op, hop, -, hstop⟩
            obtain rfl := List.mem_singleton.mp (List.mem_of_getElem? hop)
            have := List.mem_singleton.mp hstop
            omega
      · intro hleaves
        have hstop : i + (f.ops.length + (toDefault.toNat + g.ops.length)) =
            i + f.ops.length + toDefault.toNat + g.ops.length := by omega
        rw [hstop] at hleaves
        refine ih hg (by omega) hrest ((leaves_congr fun p hge _ => ?_).mp hleaves)
        refine List.mem_append.trans (or_iff_right fun hp => ?_)
        have := hfits.bounds p (List.mem_append_left _ hp)
        omega

/-- A switch of which all blocks are exits: control comes to its end by a break. -/
theorem Exits.switch {i : ℕ} {head : List (IrOp ε)} {f g : Frag ε} {jumps : List ℕ}
    {cases : List (Case ε)} {marks : List CaseMark} {b b' e : Bool}
    (hb : g.breaks ≠ [] ↔ b = true) (hb' : f.breaks ≠ [] ↔ b' = true)
    (hhead : ∀ op ∈ head, ∀ pc, ∀ t ∈ op.succs pc, t = pc + 1)
    (hf : Fits (some .switch) (i + head.length + 1) f)
    (hexits : Exits (i + head.length + 1) f e)
    (hg : CasesFit (i + head.length + 1) (i + head.length + 1 + f.ops.length) cases marks g)
    (hg' : ¬Leaves (i + head.length + 1 + f.ops.length) g.breaks
      (i + head.length + 1 + f.ops.length + g.ops.length) g.ops)
    (hjumps : ∀ t ∈ jumps, t = i + head.length + 1 ∨
      ∃ m ∈ marks.map fun m => (m.label, m.start), t = m.2) :
    Exits i ({ ops := switchOps i head f false g jumps } : Frag ε)
      (b || b' || (cases.isEmpty && e)) where
  ops_ne_nil := List.append_ne_nil_of_right_ne_nil _ (List.cons_ne_nil _ _)
  leaves_iff := by
    have hpos := List.length_pos_iff.mpr hexits.ops_ne_nil
    have hcont := hf.continues_nil (by decide)
    have htotal : i + (switchOps i head f false g jumps).length =
        i + head.length + 1 + f.ops.length + g.ops.length := by
      simp only [switchOps, List.length_append, List.length_cons, length_backpatch,
        Bool.false_eq_true, if_false, List.length_nil]
      omega
    have hfinside := hf.inside
    have hfleaves := hexits.leaves_iff
    rw [hcont, List.append_nil] at hfinside hfleaves
    have hhead' : ¬Leaves i [] (i + head.length + 1 + f.ops.length + g.ops.length) head :=
      not_leaves (.straight hhead le_rfl le_rfl) (by omega)
    have hswitch : ¬Leaves (i + head.length) [] (i + head.length + 1 + f.ops.length + g.ops.length)
        [(.switch jumps : IrOp ε)] := by
      rintro ⟨k, op, hop, -, hstop⟩
      obtain rfl := List.mem_singleton.mp (List.mem_of_getElem? hop)
      have hk := (List.getElem?_eq_some_iff.mp hop).1
      rw [List.length_singleton] at hk
      rcases List.mem_cons.mp hstop with hstop | hstop
      · omega
      · rcases hjumps _ hstop with hstop | ⟨m, hm, hstop⟩
        · omega
        · obtain ⟨c, hc, rfl⟩ := List.mem_map.mp hm
          exact absurd hstop (hg.start_lt c hc).ne'
    have hdefault : Leaves (i + head.length + 1) []
        (i + head.length + 1 + f.ops.length + g.ops.length)
        (backpatch (i + head.length + 1) f.breaks
          (i + head.length + 1 + f.ops.length + g.ops.length) f.ops) ↔
          f.breaks ≠ [] ∨ (cases.isEmpty = true ∧ e = true) := by
      rw [leaves_backpatch fun p hp => hf.bounds p (List.mem_append_left _ hp)]
      refine or_congr_right ?_
      cases cases with
      | nil =>
          have hnil : g.ops = [] := not_not.mp (mt hg.ops_ne_nil.mp fun hne => hne rfl)
          simp only [hnil, List.length_nil, Nat.add_zero, hfleaves, List.isEmpty_nil, true_and]
      | cons c rest =>
          have hne := List.length_pos_iff.mpr (hg.ops_ne_nil.mpr (List.cons_ne_nil c rest))
          exact iff_of_false (not_leaves hfinside (by omega)) fun h => by cases h.1
    have hcases : Leaves (i + head.length + 1 + f.ops.length) []
        (i + head.length + 1 + f.ops.length + g.ops.length)
        (backpatch (i + head.length + 1 + f.ops.length) g.breaks
          (i + head.length + 1 + f.ops.length + g.ops.length) g.ops) ↔ g.breaks ≠ [] := by
      rw [leaves_backpatch hg.bounds]
      exact or_iff_left hg'
    have hops : switchOps i head f false g jumps = head ++ ([.switch jumps] ++
        (backpatch (i + head.length + 1) f.breaks
            (i + head.length + 1 + f.ops.length + g.ops.length) f.ops ++
          backpatch (i + head.length + 1 + f.ops.length) g.breaks
            (i + head.length + 1 + f.ops.length + g.ops.length) g.ops)) := rfl
    change Leaves i [] _ (switchOps i head f false g jumps) ↔ _
    rw [htotal, hops, leaves_append, leaves_append, leaves_append, List.length_singleton,
      length_backpatch, hdefault, hcases, or_iff_right hhead', or_iff_right hswitch, hb, hb']
    simp only [Bool.or_eq_true, Bool.and_eq_true]
    tauto

mutual

/-- Of a statement that `isExit` accepts, control comes to the end where `escapes` tells. -/
theorem stmt_exits (loop : Option LoopKind) (i : ℕ) (s : Stmt ε) {f : Frag ε}
    (h : stmt loop i s = .ok f) (hexit : s.isExit = true) : Exits i f s.escapes :=
  match s with
  | .ret foreachDepth expr => by
      obtain rfl := Except.ok.inj h
      have hret := Exits.of_last (i := i)
        (List.replicate foreachDepth .pop3 ++ expr.toList.map .eval) .ret ?_ fun _ => rfl
      · rw [List.append_assoc] at hret
        exact hret
      · intro op hop
        rcases List.mem_append.mp hop with hop | hop
        · obtain rfl := List.eq_of_mem_replicate hop
          simp [IrOp.succs]
        · obtain ⟨e, -, rfl⟩ := List.mem_map.mp hop
          simp [IrOp.succs]
  | .goto destLabel => by
      obtain rfl := Except.ok.inj h
      exact .of_last [] _ (by rintro op ⟨⟩) fun _ => rfl
  | .ifs cond t f => by
      rw [stmt] at h
      obtain ⟨t', ht, h⟩ := bind_eq_ok.mp h
      obtain ⟨f', hf, h⟩ := bind_eq_ok.mp h
      rw [Stmt.isExit, Bool.and_eq_true] at hexit
      have htfits := block_fits loop _ t ht
      have hfexits := optBlock_exits loop _ f hf hexit.2
      obtain rfl := Except.ok.inj h
      simp only [hexit.1, Bool.not_true, Bool.and_false, Bool.toNat_false, Nat.add_zero,
        Bool.false_eq_true, if_false, List.nil_append] at hfexits ⊢
      exact .ifs cond htfits hfexits
  | .switch cond cases d => by
      rw [stmt] at h
      obtain ⟨head, hhead, h⟩ := bind_eq_ok.mp h
      obtain ⟨f, hf, h⟩ := bind_eq_ok.mp h
      obtain ⟨⟨marks, g⟩, hg, h⟩ := bind_eq_ok.mp h
      obtain ⟨jumps, hjumps, h⟩ := bind_eq_ok.mp h
      obtain rfl := Except.ok.inj h
      rw [Stmt.isExit, Bool.and_eq_true] at hexit
      have hfits := optBlock_fits _ _ d hf
      have hfexits := optBlock_exits _ _ d hf hexit.2
      simp only [hexit.2, Bool.not_true, Bool.toNat_false, Nat.add_zero] at hg ⊢
      have hcases := caseBlocks_fit _ _ cases hg
      have hnot := caseBlocks_not_leaves hg
        (Nat.lt_add_of_pos_right (List.length_pos_iff.mpr hfexits.ops_ne_nil)) hexit.1
      exact .switch (caseBlocks_breaks hg) (optBlock_breaks _ _ d hf) (switchHead_straight hhead)
        hfits hfexits hcases hnot fun t ht => jumpTable_mem hjumps ht
  | .simple _ => by cases hexit
  | .assert _ => by cases hexit
  | .fors .. => by cases hexit
  | .foreach .. => by cases hexit
  | .whiles .. => by cases hexit
  | .doWhile .. => by cases hexit
  | .breaks => by cases hexit
  | .continues => by cases hexit

theorem block_exits (loop : Option LoopKind) (i : ℕ) (b : List (Stmt ε)) {f : Frag ε}
    (h : block loop i b = .ok f) (hexit : blockIsExit b = true) : Exits i f (blockEscapes b) :=
  match b with
  | [] => by cases hexit
  | s :: rest => by
      rw [block] at h
      obtain ⟨f, hf, h⟩ := bind_eq_ok.mp h
      obtain ⟨g, hg, h⟩ := bind_eq_ok.mp h
      obtain rfl := Except.ok.inj h
      have hffits := stmt_fits loop i s hf
      rw [blockIsExit] at hexit
      rw [blockEscapes]
      split at hexit
      · rename_i hnil
        obtain rfl := List.isEmpty_iff.mp hnil
        obtain rfl := Except.ok.inj hg
        have hfexits := stmt_exits loop i s hf hexit
        rw [if_pos hnil]
        simp only [List.append_nil]
        exact hfexits
      · rename_i hcons
        have hgexits := block_exits loop _ rest hg hexit
        rw [if_neg hcons]
        refine .after _ hffits.inside hffits.bounds hgexits fun p => ?_
        simp only [List.mem_append]
        tauto

theorem optBlock_exits (loop : Option LoopKind) (i : ℕ) (b : Option (List (Stmt ε))) {f : Frag ε}
    (h : optBlock loop i b = .ok f) (hexit : optIsExit b = true) : Exits i f (optEscapes b) :=
  match b with
  | none => by cases hexit
  | some b => block_exits loop i b h hexit

end

end Sedona.CodeAsm
