import Mathlib.Tactic.Ring
import Sedona.Compiler.OptimizeIr
import Sedona.Library.Fuel

/-!
# What OptimizeIr Preserves

Every rewrite keeps what can be observed of the code, and every label still designates the
same instruction, as long as nothing jumps to the second one of two instructions that are
joined: then `join` undoes a relabelling that it did not finish, and the labels are wrong.

## Main results

* `exec_peephole`: two instructions and what they are joined to do the same.
* `rewrite_preserves`: a rewrite of two instructions that nothing jumps between.
* `not_labelsKept`: a rewrite that is abandoned.
* `optimize_preserves`: runs of the optimizer.
-/

namespace Sedona

open LabelledCode Transition Fuel

variable {W ε : Type} {m : Svm W ε} {ns : Namespace}

/-! ### The operand stack -/

namespace Frame

variable {f : Frame W} {v : Cell} {i n : ℕ}

@[simp] theorem peek_push_zero : (f.push v).peek 0 = v := rfl

@[simp] theorem peek_push_succ : (f.push v).peek (i + 1) = f.peek i := rfl

@[simp] theorem pop_push : (f.push v).pop (n + 1) = f.pop n := rfl

@[simp] theorem pop_zero : f.pop 0 = f := rfl

@[simp] theorem params_push : (f.push v).params = f.params := rfl

@[simp] theorem world_push : (f.push v).world = f.world := rfl

@[simp] theorem world_pop : (f.pop n).world = f.world := rfl

@[simp] theorem push_pop : (f.pop 1).push (f.peek 0) = f := by
  have hstack : ((f.pop 1).push (f.peek 0)).stack = f.stack := by
    funext i
    cases i <;> rfl
  cases f
  simp only [push, pop, peek, mk.injEq, true_and, and_true] at hstack ⊢
  exact hstack

end Frame

/-! ### One instruction -/

/-- A label only matters as the target of the jump. -/
theorem Svm.exec_relabel (g : ℕ → ℕ) (op : Op) (f : Frame W) :
    m.exec (op.relabel g) f = (m.exec op f).relabel g := by
  have hproceed : ∀ (w : W) (x : Option (Frame W × List ε)),
      (Svm.proceed w x).relabel g = Svm.proceed w x := by
    rintro w (_ | ⟨f, tr⟩) <;> rfl
  cases op with
  | jump kind far l =>
      simp only [Op.relabel, Svm.exec]
      split <;> rfl
  | switch ls =>
      simp only [Op.relabel, Svm.exec, List.getElem?_map]
      split
      · rfl
      · cases ls[(f.peek 0).toNat]? <;> rfl
  | call | loadParam0Call | other => exact (hproceed _ _).symm
  | _ => rfl

/-- An instruction goes only to its labels. -/
theorem Svm.mem_labels_of_goto {op : Op} {f f' : Frame W} {l : ℕ} {tr : List ε}
    (h : m.exec op f = .goto l f' tr) : l ∈ op.labels := by
  have hproceed : ∀ (w : W) (x : Option (Frame W × List ε)), Svm.proceed w x ≠ .goto l f' tr := by
    rintro w (_ | ⟨f, tr⟩) <;> simp [Svm.proceed]
  cases op with
  | jump kind far l' =>
      simp only [Svm.exec] at h
      split at h
      · simp only [Outcome.goto.injEq] at h
        simp [Op.labels, h.1]
      · simp at h
  | switch ls =>
      simp only [Svm.exec] at h
      split at h
      · simp at h
      · split at h
        · rename_i label hl
          simp only [Outcome.goto.injEq] at h
          exact h.1 ▸ List.mem_of_getElem? hl
        · simp at h
  | call | loadParam0Call | other => exact absurd h (hproceed _ _)
  | _ => simp [Svm.exec] at h

namespace OptimizeIr

/-- What the image guarantees about fields: the only field of a class that extends `sys::Obj`
is at the offset zero, and `sys::Str` is such a class. -/
structure Layout (ns : Namespace) (m : Svm W ε) : Prop where
  zero : ∀ field, isFieldAtZero ns field = true → (ns field).isStatic = false →
    m.offset field = 0
  strBuf : m.offset "sys::Str.buf" = 0

/-- **`optimizeOp`** puts an instruction in the place of one that does the same. -/
theorem exec_optimizeOp (h : Layout ns m) {a x : Op} (hx : optimizeOp a = some x) :
    m.exec x = m.exec a := by
  cases a with
  | call method =>
      simp only [optimizeOp] at hx
      split at hx
      · rename_i hget
        obtain rfl := Option.some.inj hx
        funext f
        simp only [Svm.exec, Svm.call, if_pos hget, h.strBuf, Svm.proceed]
      · split at hx
        · rename_i hget hset
          obtain rfl := Option.some.inj hx
          funext f
          simp only [Svm.exec, Svm.call, if_neg hget, if_pos hset, h.strBuf, Svm.proceed]
        · simp at hx
  | _ => simp [optimizeOp] at hx

/-! ### Two instructions -/

/-- The instruction that `a` and `b` are joined to. -/
def Join.op (b : Op) : Join → Op
  | .second => b
  | .fresh op => op

@[simp] theorem boolCell_ne_zero (b : Bool) : (boolCell b != 0) = b := by cases b <;> decide

@[simp] theorem boolCell_eq_zero (b : Bool) : (boolCell b == 0) = !b := by cases b <;> decide

/-- A jump on the result of a comparison. -/
@[simp] theorem test_push_nonZero (f : Frame W) (b : Bool) :
    Svm.test (f.push (boolCell b)) .nonZero = (b, f) := by
  rw [Svm.test, Frame.peek_push_zero, Frame.pop_push, Frame.pop_zero, boolCell_ne_zero]

@[simp] theorem test_push_zero (f : Frame W) (b : Bool) :
    Svm.test (f.push (boolCell b)) .zero = (!b, f) := by
  rw [Svm.test, Frame.peek_push_zero, Frame.pop_push, Frame.pop_zero, boolCell_eq_zero]

/-- Inverse comparisons. -/
@[simp] theorem test_inverse (c : Cmp) (a b : Cell) : (inverse c).test a b = !c.test a b := by
  cases c <;> simp [inverse, Cmp.test, BitVec.sle_eq_not_slt, bne]

/-- Jumps that are taken in the same cases. -/
theorem exec_jump_congr {kind kind' : JumpKind} {l : ℕ} {f g : Frame W}
    (h : Svm.test f kind = Svm.test g kind') :
    m.exec (.jump kind false l) f = m.exec (.jump kind' false l) g := by
  simp only [Svm.exec, h]

/-- **Two instructions and what they are joined to** do the same. A cast does nothing at all. -/
theorem exec_peephole (h : Layout ns m) {a b : Op} {x : Join} (hx : peepholeOp ns a b = some x)
    (hstatic : ∀ field, a = .loadInlineFieldU1 field → (ns field).isStatic = false) :
    ∃ e : Frame W → Frame W, (∀ f, m.exec a f = .next (e f) []) ∧
      (∀ f, m.exec (x.op b) f = m.exec b (e f)) ∧ (isCast a = true → ∀ f, e f = f) := by
  unfold peepholeOp at hx
  split at hx
  · obtain rfl := Option.some.inj hx
    exact ⟨id, fun f => rfl, fun f => rfl, fun _ f => rfl⟩
  · rename_i field
    split at hx
    · rename_i hzero
      obtain rfl := Option.some.inj hx
      refine ⟨id, fun f => ?_, fun f => rfl, fun _ f => rfl⟩
      simp [Svm.exec, h.zero field hzero (hstatic field rfl)]
    · simp at hx
  · obtain rfl := Option.some.inj hx
    exact ⟨_, fun f => rfl, fun f => rfl, by simp [isCast]⟩
  · obtain rfl := Option.some.inj hx
    exact ⟨_, fun f => rfl, fun f => rfl, by simp [isCast]⟩
  · obtain rfl := Option.some.inj hx
    exact ⟨_, fun f => rfl, fun f => rfl, by simp [isCast]⟩
  · obtain rfl := Option.some.inj hx
    exact ⟨_, fun f => rfl, fun f => exec_jump_congr (test_push_nonZero _ _).symm, by simp [isCast]⟩
  · obtain rfl := Option.some.inj hx
    exact ⟨_, fun f => rfl, fun f => exec_jump_congr (test_push_nonZero _ _).symm, by simp [isCast]⟩
  · obtain rfl := Option.some.inj hx
    exact ⟨_, fun f => rfl, fun f => exec_jump_congr (test_push_nonZero _ _).symm, by simp [isCast]⟩
  · obtain rfl := Option.some.inj hx
    exact ⟨_, fun f => rfl, fun f => exec_jump_congr (by rw [test_push_zero, Svm.test, test_inverse]), by simp [isCast]⟩
  · obtain rfl := Option.some.inj hx
    exact ⟨_, fun f => rfl, fun f => exec_jump_congr (test_push_zero _ _).symm, by simp [isCast]⟩
  · obtain rfl := Option.some.inj hx
    exact ⟨_, fun f => rfl, fun f => exec_jump_congr (by rw [test_push_zero, bne, Bool.not_not, Svm.test]), by simp [isCast]⟩
  · obtain rfl := Option.some.inj hx
    exact ⟨_, fun f => rfl, fun f => exec_jump_congr rfl, by simp [isCast]⟩
  · obtain rfl := Option.some.inj hx
    exact ⟨_, fun f => rfl, fun f => exec_jump_congr rfl, by simp [isCast]⟩
  · obtain rfl := Option.some.inj hx
    exact ⟨_, fun f => rfl, fun f => rfl, by simp [isCast]⟩
  · obtain rfl := Option.some.inj hx
    exact ⟨_, fun f => rfl, fun f => rfl, by simp [isCast]⟩
  · obtain rfl := Option.some.inj hx
    exact ⟨_, fun f => rfl, fun f => rfl, by simp [isCast]⟩
  · obtain rfl := Option.some.inj hx
    exact ⟨_, fun f => rfl, fun f => rfl, by simp [isCast]⟩
  · simp at hx

/-! ### Finding a rewrite -/

/-- Every instruction has the index of its place. -/
def Indexed (code : List IrOp) : Prop := ∀ (i : ℕ) (x : IrOp), code[i]? = some x → x.index = i

/-- The rewrite is one of instructions of the code. -/
def Rewrite.Fits (ns : Namespace) (code : List IrOp) : Rewrite → Prop
  | .replace k op => ∃ x, code[k]? = some x ∧ optimizeOp x.op = some op
  | .join k a b x => code[k]? = some a ∧ code[k + 1]? = some b ∧ peephole ns a b = some x

theorem scan_fits {code : List IrOp} {r : Rewrite} (h : scan ns 0 code = .rewrite r) :
    r.Fits ns code := by
  have hfrom : ∀ (l : List IrOp) (i : ℕ), (∀ j, l[j]? = code[i + j]?) →
      scan ns i l = .rewrite r → r.Fits ns code := by
    intro l
    induction l with
    | nil => intro i _ h; simp [scan] at h
    | cons a l ih =>
        intro i hl h
        cases l with
        | nil => simp [scan] at h
        | cons b rest =>
            have ha : code[i]? = some a := (hl 0).symm
            have hb : code[i + 1]? = some b := (hl 1).symm
            rw [scan] at h
            split at h
            · simp at h
            · split at h
              · rename_i op hop
                obtain rfl := Scan.rewrite.inj h
                exact ⟨a, ha, hop⟩
              · split at h
                · rename_i x hx
                  obtain rfl := Scan.rewrite.inj h
                  exact ⟨ha, hb, hx⟩
                · refine ih (i + 1) (fun j => ?_) h
                  rw [Nat.add_assoc, Nat.add_comm 1 j]
                  exact hl (j + 1)
  exact hfrom code 0 (fun j => by rw [Nat.zero_add]) h

theorem scan_ne_badIndex {code : List IrOp} (h : Indexed code) : scan ns 0 code ≠ .badIndex := by
  have hfrom : ∀ (l : List IrOp) (i : ℕ), (∀ j x, l[j]? = some x → x.index = i + j) →
      scan ns i l ≠ .badIndex := by
    intro l
    induction l with
    | nil => intro i _; simp [scan]
    | cons a l ih =>
        intro i hl
        cases l with
        | nil => simp [scan]
        | cons b rest =>
            rw [scan, if_neg (not_not.mpr ((hl 0 a rfl).trans (Nat.add_zero i)))]
            split
            · simp
            · split
              · simp
              · refine ih (i + 1) fun j x hx => ?_
                rw [hl (j + 1) x hx]
                omega
  exact hfrom code 0 fun j x hx => (h j x hx).trans (Nat.zero_add j).symm

/-! ### Relabelling -/

/-- Does the instruction keep `join` from relabelling: does it go to `k + 1`? After a cast,
only a switch does. -/
def blocks (k : ℕ) (cast : Bool) : Op → Bool
  | .jump _ _ l => l == k + 1 && !cast
  | .switch ls => ls.contains (k + 1)
  | _ => false

theorem relabelOp_eq {k : ℕ} {cast : Bool} {op : Op} (h : blocks k cast op = false) :
    relabelOp k cast op = (op.relabel (shift k), .done) := by
  cases op with
  | jump kind far l =>
      rw [relabelOp, if_neg]
      · rfl
      · simpa [blocks] using h
  | switch ls =>
      rw [relabelOp, if_neg]
      · rfl
      · simpa [blocks] using h
  | _ => rfl

/-- An instruction that blocks the relabelling is a jump, or ends in an exception. -/
theorem relabelOp_blocked {k : ℕ} {cast : Bool} {op : Op} (h : blocks k cast op = true) :
    relabelOp k cast op = (op, .switchTarget) ∨
      (relabelOp k cast op = (op, .jumpTarget) ∧ ∃ kind far, op = .jump kind far (k + 1)) := by
  cases op with
  | jump kind far l =>
      simp only [blocks, Bool.and_eq_true, beq_iff_eq] at h
      obtain ⟨rfl, hcast⟩ := h
      exact Or.inr ⟨by rw [relabelOp, if_pos ⟨rfl, hcast⟩], kind, far, rfl⟩
  | switch ls =>
      refine Or.inl ?_
      rw [relabelOp, if_pos (by simpa [blocks] using h)]
  | _ => simp [blocks] at h

/-- The instruction with its new labels and its new index. -/
def relabelled (k i : ℕ) (x : IrOp) : IrOp :=
  { x with op := x.op.relabel (shift k), index := i }

theorem relabelAll_done {k : ℕ} {cast : Bool} {xs : List IrOp}
    (h : ∀ x ∈ xs, blocks k cast x.op = false) (i : ℕ) :
    ∃ ys, relabelAll k cast i xs = (ys, .done) ∧
      ∀ p, ys[p]? = (xs[p]?).map (relabelled k (i + p)) := by
  induction xs generalizing i with
  | nil => exact ⟨[], rfl, by simp⟩
  | cons x xs ih =>
      obtain ⟨ys, hys, hget⟩ := ih (fun y hy => h y (List.mem_cons_of_mem _ hy)) (i + 1)
      refine ⟨relabelled k i x :: ys, ?_, ?_⟩
      · simp only [relabelAll, relabelOp_eq (h x List.mem_cons_self), hys]
        rfl
      · rintro (_ | p)
        · rfl
        · rw [List.getElem?_cons_succ, List.getElem?_cons_succ, hget p]
          congr 2
          omega

theorem length_relabelAll (k : ℕ) (cast : Bool) (i : ℕ) (xs : List IrOp) :
    (relabelAll k cast i xs).1.length = xs.length := by
  induction xs generalizing i with
  | nil => rfl
  | cons x xs ih =>
      rw [relabelAll]
      split
      · simpa using ih (i + 1)
      · simp

theorem relabelAll_blocked {k : ℕ} {cast : Bool} {xs : List IrOp}
    (h : ∃ x ∈ xs, blocks k cast x.op = true) (i : ℕ) :
    (relabelAll k cast i xs).2 = .switchTarget ∨
      ((relabelAll k cast i xs).2 = .jumpTarget ∧ ∃ (p : ℕ) (x y : IrOp) (kind : JumpKind) (far : Bool), xs[p]? = some x ∧
        x.op = .jump kind far (k + 1) ∧ (relabelAll k cast i xs).1[p]? = some y ∧
        y.op = .jump kind far (k + 1)) := by
  induction xs generalizing i with
  | nil => simp at h
  | cons x xs ih =>
      cases hx : blocks k cast x.op with
      | true =>
          rcases relabelOp_blocked hx with hop | ⟨hop, kind, far, heq⟩
          · exact Or.inl (by simp only [relabelAll, hop])
          · refine Or.inr ⟨by simp only [relabelAll, hop], 0, x, { x with index := i }, kind, far,
              rfl, heq, ?_, heq⟩
            simp only [relabelAll, hop]
            rfl
      | false =>
          obtain ⟨y, hy, hblocks⟩ := h
          have hrest : ∃ y ∈ xs, blocks k cast y.op = true := by
            rcases List.mem_cons.mp hy with rfl | hy
            · simp [hx] at hblocks
            · exact ⟨y, hy, hblocks⟩
          simp only [relabelAll, relabelOp_eq hx]
          rcases ih hrest (i + 1) with hstop | ⟨hstop, p, x', y', kind, far, hp, hop, hp', hop'⟩
          · exact Or.inl hstop
          · exact Or.inr ⟨hstop, p + 1, x', y', kind, far, hp, hop, hp', hop'⟩

/-! ### Joining two instructions -/

/-- The instruction in the place of `b`. -/
def Join.irOp (b : IrOp) : Join → IrOp
  | .second => b
  | .fresh op => { op := op, index := 0 }

theorem Join.op_irOp (b : IrOp) (x : Join) : (x.irOp b).op = x.op b.op := by
  cases x <;> rfl

/-- The merged code, before its labels are updated. -/
def merged (k : ℕ) (x : IrOp) (o : List IrOp) : List IrOp := o.take k ++ x :: o.drop (k + 2)

section Merged

variable {k p q : ℕ} {a b x : IrOp} {o : List IrOp}

theorem merged_self (h : k < o.length) : (merged k x o)[k]? = some x := by
  have hlen : (o.take k).length = k := by simp; omega
  rw [merged, List.getElem?_append_right (by omega), hlen, Nat.sub_self]
  rfl

theorem merged_shift (h : k + 1 < o.length) (hp : p ≠ k) (hp' : p ≠ k + 1) :
    (merged k x o)[shift k p]? = o[p]? := by
  have hlen : (o.take k).length = k := by simp; omega
  by_cases hlt : k < p
  · rw [shift, if_pos hlt, merged, List.getElem?_append_right (by omega), hlen,
      show p - 1 - k = (p - 2 - k) + 1 by omega, List.getElem?_cons_succ, List.getElem?_drop]
    congr 1
    omega
  · rw [shift, if_neg hlt, merged, List.getElem?_append_left (by omega),
      List.getElem?_take_of_lt (by omega)]

theorem length_merged (h : k + 1 < o.length) : (merged k x o).length + 1 = o.length := by
  simp only [merged, List.length_append, List.length_take, List.length_cons, List.length_drop]
  omega

theorem exists_shift (k q : ℕ) (h : q ≠ k) : ∃ p, shift k p = q ∧ p ≠ k ∧ p ≠ k + 1 := by
  by_cases hlt : k < q
  · exact ⟨q + 1, by rw [shift, if_pos (by omega)]; omega, by omega, by omega⟩
  · exact ⟨q, by rw [shift, if_neg hlt], h, by omega⟩

theorem mem_merged {y : IrOp} (hy : y ∈ merged k x o) :
    y = x ∨ y ∈ o := by
  rw [merged, List.mem_append, List.mem_cons] at hy
  rcases hy with hy | hy | hy
  · exact Or.inr (List.mem_of_mem_take hy)
  · exact Or.inl hy
  · exact Or.inr (List.mem_of_mem_drop hy)

end Merged

/-- What follows the first instruction in the old code. -/
def unmergedTail (k : ℕ) (b : IrOp) (x : Join) (n : List IrOp) : List IrOp :=
  match x with
  | .second => n.drop k
  | .fresh _ => b :: n.drop (k + 1)

/-- The old code with the instructions it shares with the merged code `n`. -/
def unmerged (k : ℕ) (a b : IrOp) (x : Join) (n : List IrOp) : List IrOp :=
  n.take k ++ { a with noPeephole := true } :: unmergedTail k b x n

section Unmerged

variable {k p : ℕ} {a b : IrOp} {x : Join} {n : List IrOp}

theorem unmerged_of_lt (hp : p < k) (h : k < n.length) :
    (unmerged k a b x n)[p]? = n[p]? := by
  rw [unmerged, List.getElem?_append_left (by simp; omega), List.getElem?_take_of_lt hp]

theorem unmerged_of_gt (hp : k < p) (h : k < n.length) :
    (unmerged k a b x n)[p + 1]? = n[p]? := by
  have hlen : (n.take k).length = k := by simp; omega
  rw [unmerged, List.getElem?_append_right (by omega), hlen,
    show p + 1 - k = (p - k - 1) + 1 + 1 by omega, List.getElem?_cons_succ]
  cases x with
  | second =>
      rw [unmergedTail, List.getElem?_drop]
      congr 1
      omega
  | fresh =>
      rw [unmergedTail, List.getElem?_cons_succ, List.getElem?_drop]
      congr 1
      omega

theorem unmerged_succ (h : k < n.length) :
    (unmerged k a b x n)[k + 1]? = match x with
      | .second => n[k]?
      | .fresh _ => some b := by
  have hlen : (n.take k).length = k := by simp; omega
  rw [unmerged, List.getElem?_append_right (by omega), hlen,
    show k + 1 - k = 0 + 1 by omega, List.getElem?_cons_succ]
  cases x with
  | second => simp [unmergedTail]
  | fresh => rfl

theorem length_unmerged (h : k < n.length) : (unmerged k a b x n).length = n.length + 1 := by
  cases x <;> simp [unmerged, unmergedTail] <;> omega

end Unmerged

/-- The second instruction branches like the one that the two are joined to, and the first
does not branch. -/
theorem labels_peephole {a b : Op} {x : Join} (h : peepholeOp ns a b = some x) :
    a.labels = [] ∧ (x.op b).labels = b.labels ∧
      (∀ k cast, blocks k cast (x.op b) = blocks k cast b) ∧
      ∀ kind far l, x.op b = .jump kind far l → ∃ kind far, b = .jump kind far l := by
  have hsecond : ∀ kind far l, Join.second.op b = .jump kind far l →
      ∃ kind far, b = .jump kind far l := fun kind far l h => ⟨kind, far, h⟩
  unfold peepholeOp at h
  split at h
  · obtain rfl := Option.some.inj h
    exact ⟨rfl, rfl, fun _ _ => rfl, hsecond⟩
  · split at h
    · obtain rfl := Option.some.inj h
      exact ⟨rfl, rfl, fun _ _ => rfl, hsecond⟩
    · simp at h
  all_goals
    first
      | (obtain rfl := Option.some.inj h
         exact ⟨rfl, rfl, fun _ _ => rfl, by simp [Join.op]⟩)
      | simp at h

theorem peephole_eq {a b : IrOp} {x : Join} (h : peephole ns a b = some x) :
    a.noPeephole = false ∧ peepholeOp ns a.op b.op = some x := by
  rw [peephole] at h
  split at h
  · simp at h
  · rename_i hflag
    exact ⟨by simpa using hflag, h⟩

theorem join_eq (k : ℕ) (a b : IrOp) (x : Join) (o : List IrOp) :
    join k a b x o =
      match relabelAll k (isCast a.op) 0 (merged k (x.irOp b) o) with
      | (n, .done) => some n
      | (_, .switchTarget) => none
      | (n, .jumpTarget) => some ((unmerged k a b x n).mapIdx fun z y =>
          { y with op := restoreOp k y.op, index := z }) := by
  cases x <;> rfl

section Join

variable {k : ℕ} {a b : IrOp} {x : Join} {o : List IrOp}

theorem Rewrite.Fits.length_lt (h : (Rewrite.join k a b x).Fits ns o) : k + 1 < o.length :=
  (List.getElem?_eq_some_iff.mp h.2.1).1

/-- **Joining two instructions** that no label goes between. -/
theorem join_done (h : (Rewrite.join k a b x).Fits ns o)
    (hno : ∀ y ∈ o, blocks k (isCast a.op) y.op = false) :
    ∃ n, join k a b x o = some n ∧
      ∀ q, n[q]? = ((merged k (x.irOp b) o)[q]?).map (relabelled k q) := by
  have hpeephole := (peephole_eq h.2.2).2
  have hmerged : ∀ y ∈ merged k (x.irOp b) o, blocks k (isCast a.op) y.op = false := by
    intro y hy
    rcases mem_merged hy with rfl | hy
    · rw [Join.op_irOp, (labels_peephole hpeephole).2.2.1]
      exact hno b (List.mem_of_getElem? h.2.1)
    · exact hno y hy
  obtain ⟨n, hn, hget⟩ := relabelAll_done hmerged 0
  refine ⟨n, ?_, fun q => ?_⟩
  · rw [join_eq, hn]
  · rw [hget q, Nat.zero_add]

/-- The labels of each instruction are those of the same instruction of `n`, where `pos` says
where the instructions went. -/
def LabelsKept (o n : List IrOp) (pos : ℕ → ℕ) : Prop :=
  ∀ (i : ℕ) (y : IrOp), o[i]? = some y → y.op.labels ≠ [] →
    ∃ z, n[pos i]? = some z ∧ z.op.labels = y.op.labels.map pos

/-- The semantics of the instructions. -/
abbrev execIr (m : Svm W ε) (x : IrOp) := m.exec x.op

/-- The same can be observed of both codes, and the labels are kept. -/
structure Preserved (m : Svm W ε) (o n : List IrOp) (pos : ℕ → ℕ) : Prop where
  equivalent : Equivalent (execIr m) o n
  labels : LabelsKept o n pos

theorem labels_relabel (f : ℕ → ℕ) (op : Op) : (op.relabel f).labels = op.labels.map f := by
  cases op <;> rfl

theorem not_mem_labels {op : Op} (h : blocks k false op = false) : k + 1 ∉ op.labels := by
  cases op with
  | jump kind far l =>
      rw [Op.labels, List.mem_singleton]
      rintro rfl
      simp [blocks] at h
  | switch ls => simpa [blocks, Op.labels] using h
  | _ => exact List.not_mem_nil

theorem blocks_of_labels_nil {op : Op} (h : op.labels = []) (cast : Bool) :
    blocks k cast op = false := by
  cases op <;> simp_all [blocks, Op.labels]

theorem LabelsKept.trans {n r : List IrOp} {f g : ℕ → ℕ} (h : LabelsKept o n f)
    (h' : LabelsKept n r g) : LabelsKept o r (g ∘ f) := by
  intro i y hy hlabels
  obtain ⟨z, hz, hzlabels⟩ := h i y hy hlabels
  obtain ⟨w, hw, hwlabels⟩ := h' (f i) z hz (by rw [hzlabels]; simpa using hlabels)
  exact ⟨w, hw, by rw [hwlabels, hzlabels, List.map_map]⟩

theorem Preserved.refl : Preserved m o o id :=
  ⟨Equivalent.refl, fun _ y hy _ => ⟨y, hy, (List.map_id _).symm⟩⟩

theorem Preserved.trans {n r : List IrOp} {f g : ℕ → ℕ} (h : Preserved m o n f)
    (h' : Preserved m n r g) : Preserved m o r (g ∘ f) :=
  ⟨h.equivalent.trans h'.equivalent, h.labels.trans h'.labels⟩

theorem replace_labelsKept {op : Op} (h : (Rewrite.replace k op).Fits ns o) :
    LabelsKept o (o.set k { op := op, index := k }) id := by
  obtain ⟨y, hy, hop⟩ := h
  intro i z hz hlabels
  by_cases hi : k = i
  · subst hi
    obtain rfl := Option.some.inj (hy.symm.trans hz)
    have hcall : y.op.labels = [] := by
      cases hyop : y.op <;> simp_all [optimizeOp, Op.labels]
    exact absurd hcall hlabels
  · exact ⟨z, by rw [id, List.getElem?_set_ne hi, hz], (List.map_id _).symm⟩

/-- **Replacing an instruction.** -/
theorem replace_preserves {op : Op} (hl : Layout ns m) (h : (Rewrite.replace k op).Fits ns o) :
    Preserved m o (o.set k { op := op, index := k }) id := by
  have hkept := replace_labelsKept h
  obtain ⟨y, hy, hop⟩ := h
  have hlt : k < o.length := (List.getElem?_eq_some_iff.mp hy).1
  refine ⟨equivalent_of_exec_eq fun p => ?_, hkept⟩
  by_cases hp : k = p
  · subst hp
    rw [List.getElem?_set_self hlt, hy, Option.map_some, Option.map_some]
    exact congrArg some (exec_optimizeOp hl hop).symm
  · rw [List.getElem?_set_ne hp]

theorem join_labelsKept {n : List IrOp} (h : (Rewrite.join k a b x).Fits ns o)
    (hn : ∀ q, n[q]? = ((merged k (x.irOp b) o)[q]?).map (relabelled k q)) :
    LabelsKept o n (shift k) := by
  obtain ⟨halabels, hxlabels, -, -⟩ := labels_peephole (peephole_eq h.2.2).2
  have hlt := h.length_lt
  intro i y hy hlabels
  by_cases hi : i = k
  · subst hi
    obtain rfl := Option.some.inj (h.1.symm.trans hy)
    exact absurd halabels hlabels
  · by_cases hi' : i = k + 1
    · subst hi'
      obtain rfl := Option.some.inj (h.2.1.symm.trans hy)
      have hnk : n[k]? = some (relabelled k k (x.irOp b)) := by
        rw [hn, merged_self (by omega), Option.map_some]
      refine ⟨_, by rw [shift, if_pos (by omega)]; exact hnk, ?_⟩
      rw [relabelled, labels_relabel, Join.op_irOp, hxlabels]
    · refine ⟨relabelled k (shift k i) y, by rw [hn, merged_shift hlt hi hi', hy]; rfl, ?_⟩
      rw [relabelled, labels_relabel]

/-- **Joining two instructions** keeps what the code does, if no label goes between them and a
field that is taken to be at the offset zero is not static. -/
theorem join_preserves {n : List IrOp} (hl : Layout ns m) (h : (Rewrite.join k a b x).Fits ns o)
    (hno : ∀ y ∈ o, blocks k (isCast a.op) y.op = false)
    (hstatic : ∀ field, a.op = .loadInlineFieldU1 field → (ns field).isStatic = false)
    (hn : ∀ q, n[q]? = ((merged k (x.irOp b) o)[q]?).map (relabelled k q)) :
    Preserved m o n (shift k) := by
  obtain ⟨e, ha, hb, hcast⟩ := exec_peephole hl (peephole_eq h.2.2).2 hstatic
  have hlt := h.length_lt
  refine ⟨Fuses.equivalent (k := k) (e := e) ⟨⟨a, h.1, ha⟩, ⟨b, relabelled k k (x.irOp b), h.2.1,
    ?_, fun f => ?_⟩, ?_, ?_⟩, join_labelsKept h hn⟩
  · rw [hn, merged_self (by omega), Option.map_some]
  · rw [execIr, relabelled, Svm.exec_relabel, Join.op_irOp, hb]
  · intro p hp hp'
    rw [hn, merged_shift hlt hp hp']
    cases o[p]? with
    | none => rfl
    | some y =>
        refine congrArg some (funext fun f => ?_)
        exact Svm.exec_relabel (shift k) y.op f
  · cases hc : isCast a.op with
    | true => exact Or.inr (hcast hc)
    | false =>
        refine Or.inl fun y hy f l f' tr hgoto hl => ?_
        rw [hc] at hno
        exact not_mem_labels (hno y hy) (hl ▸ Svm.mem_labels_of_goto hgoto)

/-- **An attempt that is abandoned**, or ends in an exception. A jump to the second
instruction then goes behind it. -/
theorem not_labelsKept (h : (Rewrite.join k a b x).Fits ns o)
    (hblocks : ∃ y ∈ o, blocks k (isCast a.op) y.op = true) :
    join k a b x o = none ∨
      ∃ n, join k a b x o = some n ∧ n.length = o.length ∧ ¬ LabelsKept o n id := by
  have hlt := h.length_lt
  obtain ⟨halabels, hxlabels, hxblocks, hxjump⟩ := labels_peephole (peephole_eq h.2.2).2
  have hmerged : ∃ y ∈ merged k (x.irOp b) o, blocks k (isCast a.op) y.op = true := by
    obtain ⟨y, hy, hyblocks⟩ := hblocks
    obtain ⟨i, hi⟩ := List.mem_iff_getElem?.mp hy
    have hik : i ≠ k := by
      rintro rfl
      obtain rfl := Option.some.inj (h.1.symm.trans hi)
      simp [blocks_of_labels_nil halabels] at hyblocks
    by_cases hik' : i = k + 1
    · subst hik'
      obtain rfl := Option.some.inj (h.2.1.symm.trans hi)
      refine ⟨x.irOp b, List.mem_of_getElem? (merged_self (by omega)), ?_⟩
      rwa [Join.op_irOp, hxblocks]
    · exact ⟨y, List.mem_of_getElem? ((merged_shift hlt hik hik').trans hi), hyblocks⟩
  rw [join_eq]
  have hlen := length_relabelAll k (isCast a.op) 0 (merged k (x.irOp b) o)
  have hlen' := length_merged (x := x.irOp b) hlt
  rcases relabelAll_blocked hmerged 0 with hstop | ⟨hstop, p, y, z, kind, far, hy, hyop, hz, hzop⟩
  · left
    generalize relabelAll k (isCast a.op) 0 (merged k (x.irOp b) o) = result at *
    obtain ⟨n, stop⟩ := result
    obtain rfl : stop = .switchTarget := hstop
    rfl
  · right
    generalize relabelAll k (isCast a.op) 0 (merged k (x.irOp b) o) = result at *
    obtain ⟨n, stop⟩ := result
    obtain rfl : stop = .jumpTarget := hstop
    simp only at hlen hz
    refine ⟨_, rfl, ?_, fun hkept => ?_⟩
    · rw [List.length_mapIdx, length_unmerged (by omega)]
      omega
    -- the jump that blocked the attempt, and where it is found again
    have hcontra : ∀ (i : ℕ) (w v : IrOp) (kind : JumpKind) (far : Bool), o[i]? = some w →
        w.op.labels = [k + 1] → (unmerged k a b x n)[i]? = some v →
        v.op = .jump kind far (k + 1) → False := by
      intro i w v kind far hw hwlabels hv hvop
      obtain ⟨u, hu, hulabels⟩ := hkept i w hw (by simp [hwlabels])
      rw [id, List.getElem?_mapIdx, hv, Option.map_some, Option.some.injEq] at hu
      subst hu
      rw [hwlabels, hvop, restoreOp, Op.labels] at hulabels
      simp at hulabels
    have hylabels : y.op.labels = [k + 1] := by rw [hyop, Op.labels]
    by_cases hp : p = k
    · subst hp
      obtain rfl := Option.some.inj ((merged_self (by omega)).symm.trans hy)
      rw [Join.op_irOp] at hyop hylabels
      have hsucc := unmerged_succ (a := a) (b := b) (x := x) (n := n) (k := p) (by omega)
      cases x with
      | second =>
          exact hcontra (p + 1) b z kind far h.2.1 hylabels (hsucc.trans hz) hzop
      | fresh op =>
          obtain ⟨kind', far', hb⟩ := hxjump kind far (p + 1) hyop
          exact hcontra (p + 1) b b kind' far' h.2.1 (by rw [hb, Op.labels]) hsucc hb
    · obtain ⟨i, hi, hik, hik'⟩ := exists_shift k p hp
      have hoi := (merged_shift (x := x.irOp b) hlt hik hik').symm.trans (hi ▸ hy)
      by_cases hkp : k < p
      · obtain rfl : i = p + 1 := by
          rw [shift] at hi
          split at hi <;> omega
        exact hcontra (p + 1) y z kind far hoi hylabels
          ((unmerged_of_gt hkp (by omega)).trans hz) hzop
      · obtain rfl : i = p := by
          rw [shift] at hi
          split at hi <;> omega
        exact hcontra i y z kind far hoi hylabels
          ((unmerged_of_lt (by omega) (by omega)).trans hz) hzop

end Join

/-! ### The optimizer ends -/

/-- Does the instruction call a method? -/
def isCall : Op → Bool
  | .call _ => true
  | _ => false

/-- What an instruction counts for: each rewrite makes the code lighter. -/
def weight (x : IrOp) : ℕ := (if isCall x.op then 4 else 2) + if x.noPeephole then 0 else 1

/-- What the code counts for. -/
def codeWeight (code : List IrOp) : ℕ := (code.map weight).sum

theorem isCall_relabelOp (k : ℕ) (cast : Bool) (op : Op) :
    isCall (relabelOp k cast op).1 = isCall op := by
  cases op with
  | jump | switch =>
      rw [relabelOp]
      split <;> rfl
  | _ => rfl

theorem map_weight_relabelAll (k : ℕ) (cast : Bool) (i : ℕ) (xs : List IrOp) :
    (relabelAll k cast i xs).1.map weight = xs.map weight := by
  induction xs generalizing i with
  | nil => rfl
  | cons x xs ih =>
      have hcall := isCall_relabelOp k cast x.op
      rw [relabelAll]
      split
      · rename_i op hop
        rw [hop] at hcall
        simp only [List.map_cons, ih, weight, hcall]
      · rename_i op stop _ hop
        rw [hop] at hcall
        simp only [List.map_cons, weight, hcall]

section Weight

variable {k : ℕ} {a b : IrOp} {x : Join} {o n : List IrOp}

theorem eq_take_append (ha : o[k]? = some a) (hb : o[k + 1]? = some b) :
    o = o.take k ++ a :: b :: o.drop (k + 2) := by
  obtain ⟨hk, rfl⟩ := List.getElem?_eq_some_iff.mp ha
  obtain ⟨hk', rfl⟩ := List.getElem?_eq_some_iff.mp hb
  rw [← List.drop_eq_getElem_cons hk', ← List.drop_eq_getElem_cons hk, List.take_append_drop]

theorem weight_pos (x : IrOp) : 2 ≤ weight x := by
  unfold weight
  split <;> omega

/-- What is put in the place of two instructions is lighter than both. -/
theorem weight_irOp {x : Join} (h : peephole ns a b = some x) :
    weight (x.irOp b) < weight a + weight b := by
  obtain ⟨hflag, hx⟩ := peephole_eq h
  have ha : 3 ≤ weight a := by
    unfold weight
    rw [hflag]
    split <;> simp
  have hb := weight_pos b
  cases x with
  | second =>
      rw [Join.irOp]
      omega
  | fresh op =>
      have hop : isCall op = false := by
        unfold peepholeOp at hx
        split at hx
        · simp at hx
        · split at hx <;> simp at hx
        all_goals
          first
            | (obtain rfl := Join.fresh.inj (Option.some.inj hx); rfl)
            | simp at hx
      simp only [Join.irOp, weight, hop]
      unfold weight at ha hb
      simp only [Bool.false_eq_true, if_false]
      omega

theorem codeWeight_merged (h : (Rewrite.join k a b x).Fits ns o) :
    codeWeight (merged k (x.irOp b) o) < codeWeight o := by
  have hx := weight_irOp h.2.2
  have ho := congrArg codeWeight (eq_take_append h.1 h.2.1)
  rw [ho]
  simp only [codeWeight, merged, List.map_append, List.map_cons, List.sum_append, List.sum_cons]
  omega

theorem weight_restored (k z : ℕ) (y : IrOp) :
    weight { y with op := restoreOp k y.op, index := z } = weight y := by
  have hcall : isCall (restoreOp k y.op) = isCall y.op := by
    cases y.op <;> rfl
  simp only [weight, hcall]

/-- The code that comes back from an attempt is lighter: it will not be made again. -/
theorem codeWeight_unmerged (h : (Rewrite.join k a b x).Fits ns o)
    (hn : n.map weight = (merged k (x.irOp b) o).map weight) :
    codeWeight (unmerged k a b x n) < codeWeight o := by
  have hlt := h.length_lt
  have hflag := (peephole_eq h.2.2).1
  have ha : weight { a with noPeephole := true } < weight a := by
    simp only [weight, hflag]
    simp
  have hlen : (o.take k).length = k := by simp; omega
  have htake : (n.take k).map weight = (o.take k).map weight := by
    rw [List.map_take, hn, ← List.map_take, merged, List.take_left' hlen]
  have hdrop : (n.drop k).map weight = weight (x.irOp b) :: (o.drop (k + 2)).map weight := by
    rw [List.map_drop, hn, ← List.map_drop, merged, List.drop_left' hlen, List.map_cons]
  have htail : (unmergedTail k b x n).map weight = weight b :: (o.drop (k + 2)).map weight := by
    cases x with
    | second => exact hdrop
    | fresh op =>
        have hdrop' := congrArg List.tail hdrop
        rw [← List.map_tail, List.tail_drop, List.tail_cons] at hdrop'
        rw [unmergedTail, List.map_cons, hdrop']
  have ho := congrArg codeWeight (eq_take_append h.1 h.2.1)
  rw [ho]
  simp only [codeWeight, unmerged, List.map_append, List.map_cons, List.sum_append,
    List.sum_cons, htake, htail]
  omega

theorem codeWeight_join (h : (Rewrite.join k a b x).Fits ns o)
    (hn : join k a b x o = some n) : codeWeight n < codeWeight o := by
  have hweight := map_weight_relabelAll k (isCast a.op) 0 (merged k (x.irOp b) o)
  rw [join_eq] at hn
  generalize relabelAll k (isCast a.op) 0 (merged k (x.irOp b) o) = result at hn hweight
  obtain ⟨n', stop⟩ := result
  cases stop with
  | done =>
      obtain rfl := Option.some.inj hn
      rw [codeWeight, hweight]
      exact codeWeight_merged h
  | switchTarget => simp at hn
  | jumpTarget =>
      obtain rfl := Option.some.inj hn
      have hmap : ∀ l : List IrOp, (l.mapIdx fun z y =>
          ({ y with op := restoreOp k y.op, index := z } : IrOp)).map weight = l.map weight := by
        intro l
        refine List.ext_getElem? fun i => ?_
        simp only [List.getElem?_map, List.getElem?_mapIdx, Option.map_map]
        exact congrArg (fun f => Option.map f l[i]?) (funext (weight_restored k i))
      rw [codeWeight, hmap]
      exact codeWeight_unmerged h hweight

end Weight

/-- **Every change makes the code lighter.** -/
theorem codeWeight_doOptimize {code n : List IrOp} (h : doOptimize ns code = .changed n) :
    codeWeight n < codeWeight code := by
  rw [doOptimize] at h
  split at h
  · simp at h
  · simp at h
  · rename_i r hr
    have hfits := scan_fits hr
    split at h
    · rename_i n' hn
      obtain rfl := Step.changed.inj h
      cases r with
      | join k a b x => exact codeWeight_join hfits hn
      | replace k op =>
          obtain rfl := Option.some.inj hn
          obtain ⟨y, hy, hop⟩ := hfits
          obtain ⟨hk, rfl⟩ := List.getElem?_eq_some_iff.mp hy
          have hcall : isCall code[k].op = true ∧ isCall op = false := by
            cases hyop : code[k].op with
            | call method =>
                rw [hyop, optimizeOp] at hop
                split at hop
                · exact ⟨rfl, Option.some.inj hop ▸ rfl⟩
                · split at hop
                  · exact ⟨rfl, Option.some.inj hop ▸ rfl⟩
                  · simp at hop
            | _ => simp [hyop, optimizeOp] at hop
          have hw : weight { op := op, index := k } < weight code[k] := by
            simp only [weight, hcall.1, hcall.2]
            simp
            omega
          have hcode : code = code.take k ++ code[k] :: code.drop (k + 1) := by
            rw [← List.drop_eq_getElem_cons hk, List.take_append_drop]
          have ho := congrArg codeWeight hcode
          rw [ho, List.set_eq_take_append_cons_drop, if_pos hk]
          simp only [codeWeight, List.map_append, List.map_cons, List.sum_append, List.sum_cons]
          omega
    · simp at h

/-- The loop ends with an exception, or with code that has nothing left to rewrite. -/
theorem optimizeLoop_returns (ns : Namespace) (code : List IrOp) :
    ∃ r, Returns (fun fuel => optimizeLoop ns fuel code) r ∧
      ∀ n, r = some n → doOptimize ns n = .fixpoint := by
  induction hw : codeWeight code using Nat.strong_induction_on generalizing code with
  | _ w ih =>
      subst hw
      cases hcode : doOptimize ns code with
      | fixpoint =>
          refine ⟨some code, returns_of_succ 0 fun fuel _ => ?_, fun n hn => ?_⟩
          · simp only [optimizeLoop, hcode]
          · rw [← Option.some.inj hn, hcode]
      | exception =>
          refine ⟨none, returns_of_succ 0 fun fuel _ => ?_, fun n hn => ?_⟩
          · simp only [optimizeLoop, hcode]
          · cases hn
      | changed n =>
          obtain ⟨r, ⟨k, hr⟩, hfix⟩ := ih (codeWeight n) (codeWeight_doOptimize hcode) n rfl
          exact ⟨r, returns_of_succ k fun fuel hfuel => by
            simp only [optimizeLoop, hcode, hr fuel hfuel], hfix⟩

/-- **The optimizer ends** on every method: with an exception, or at a fixpoint. -/
theorem optimize_returns (ns : Namespace) (code : List IrOp) :
    ∃ r, Returns (fun fuel => optimize ns fuel code) r ∧
      ∀ n, r = some n → if code.length < 2 then n = code else doOptimize ns n = .fixpoint := by
  by_cases hlen : code.length < 2
  · refine ⟨some code, ⟨0, fun fuel _ => ?_⟩, fun n hn => ?_⟩
    · simp only [optimize, if_pos hlen]
    · rw [if_pos hlen]
      exact (Option.some.inj hn).symm
  · obtain ⟨r, ⟨k, hk⟩, hfix⟩ :=
      optimizeLoop_returns ns (code.map fun x => { x with noPeephole := false })
    refine ⟨r, ⟨k, fun fuel hfuel => ?_⟩, fun n hn => ?_⟩
    · simp only [optimize, if_neg hlen]
      exact hk fuel hfuel
    · rw [if_neg hlen]
      exact hfix n hn

/-! ### Runs of the optimizer -/

/-- Where the instructions of `code` are in `n`, after the next rewrite. -/
def moved (ns : Namespace) (code n : List IrOp) : ℕ → ℕ :=
  match scan ns 0 code with
  | .rewrite (.join k _ _ _) => if n.length < code.length then shift k else id
  | _ => id

/-- No label goes to the second one of two instructions that are joined next. Jumps may, if
the first one is a cast. -/
def Untargeted (ns : Namespace) (code : List IrOp) : Prop :=
  ∀ k a b x, scan ns 0 code = .rewrite (.join k a b x) →
    ∀ y ∈ code, blocks k (isCast a.op) y.op = false

/-- A field that is taken to be at the offset zero next is not static. -/
def InstanceField (ns : Namespace) (code : List IrOp) : Prop :=
  ∀ k a b x field, scan ns 0 code = .rewrite (.join k a b x) →
    a.op = .loadInlineFieldU1 field → (ns field).isStatic = false

/-- The condition on the next rewrite. -/
def Clear (ns : Namespace) (code : List IrOp) : Prop := Untargeted ns code ∧ InstanceField ns code

/-- `doOptimize` returns, and the labels still designate the same instructions. -/
def NextKeepsLabels (ns : Namespace) (code : List IrOp) : Prop :=
  doOptimize ns code = .fixpoint ∨
    ∃ n, doOptimize ns code = .changed n ∧ LabelsKept code n (moved ns code n)

/-- The code of a method when `noPeephole` has been cleared. -/
def cleared (code : List IrOp) : List IrOp := code.map fun x => { x with noPeephole := false }

/-- The optimizer at work on a method: the code, and where the instructions went. -/
def optimizing (ns : Namespace) (code : List IrOp) : System (List IrOp × (ℕ → ℕ)) Unit where
  init s := s = (cleared code, id)
  step s _ t := doOptimize ns s.1 = .changed t.1 ∧ t.2 = moved ns s.1 t.1 ∘ s.2

theorem doOptimize_eq {code n : List IrOp} {r : Rewrite} (h : scan ns 0 code = .rewrite r)
    (hn : rewrite code r = some n) : doOptimize ns code = .changed n := by
  simp only [doOptimize, h, hn]

theorem doOptimize_exception {code : List IrOp} {r : Rewrite} (h : scan ns 0 code = .rewrite r)
    (hn : rewrite code r = none) : doOptimize ns code = .exception := by
  simp only [doOptimize, h, hn]

/-- **The step** of a rewrite that meets the condition. -/
theorem doOptimize_spec {code : List IrOp} (h : Indexed code) (hclear : Untargeted ns code) :
    doOptimize ns code = .fixpoint ∨ ∃ n, doOptimize ns code = .changed n ∧ Indexed n ∧
      LabelsKept code n (moved ns code n) ∧ ∀ {W ε : Type} {m : Svm W ε}, Layout ns m →
        InstanceField ns code → Preserved m code n (moved ns code n) := by
  cases hscan : scan ns 0 code with
  | fixpoint => exact Or.inl (by rw [doOptimize, hscan])
  | badIndex => exact absurd hscan (scan_ne_badIndex h)
  | rewrite r =>
    right
    have hfits := scan_fits hscan
    cases r with
    | replace k op =>
        have hmoved : ∀ n, moved ns code n = id := fun n => by rw [moved, hscan]
        refine ⟨_, doOptimize_eq hscan rfl, ?_, ?_, fun hl _ => ?_⟩
        · intro i y hy
          by_cases hi : k = i
          · subst hi
            have hk := (List.getElem?_eq_some_iff.mp hy).1
            rw [List.length_set] at hk
            rw [List.getElem?_set_self hk] at hy
            exact Option.some.inj hy ▸ rfl
          · rw [List.getElem?_set_ne hi] at hy
            exact h i y hy
        · rw [hmoved]
          exact replace_labelsKept hfits
        · rw [hmoved]
          exact replace_preserves hl hfits
    | join k a b x =>
        have hno := hclear k a b x hscan
        obtain ⟨n, hn, hget⟩ := join_done hfits hno
        have hlen : n.length + 1 = code.length := by
          have hmerged : n.length = (merged k (x.irOp b) code).length := by
            refine le_antisymm ?_ ?_
            · by_contra hlt
              have hq := hget (merged k (x.irOp b) code).length
              rw [List.getElem?_eq_none le_rfl, Option.map_none, List.getElem?_eq_none_iff] at hq
              omega
            · by_contra hlt
              have hq := hget n.length
              rw [List.getElem?_eq_none le_rfl, eq_comm, Option.map_eq_none_iff,
                List.getElem?_eq_none_iff] at hq
              omega
          rw [hmerged, length_merged hfits.length_lt]
        have hmoved : moved ns code n = shift k := by
          rw [moved, hscan]
          exact if_pos (by omega)
        refine ⟨n, doOptimize_eq hscan hn, ?_, ?_, fun hl hfield => ?_⟩
        · intro i y hy
          rw [hget] at hy
          obtain ⟨z, -, rfl⟩ := Option.map_eq_some_iff.mp hy
          rfl
        · rw [hmoved]
          exact join_labelsKept hfits hget
        · rw [hmoved]
          exact join_preserves hl hfits hno (fun field => hfield k a b x field hscan) hget

/-- **The condition is exact**: labels are kept if and only if no label goes between the two
instructions. -/
theorem nextKeepsLabels_iff {code : List IrOp} (h : Indexed code) :
    NextKeepsLabels ns code ↔ Untargeted ns code := by
  constructor
  · intro hnext k a b x hscan y hy
    by_contra hblocks
    rw [Bool.not_eq_false] at hblocks
    rcases not_labelsKept (scan_fits hscan) ⟨y, hy, hblocks⟩ with hnone | ⟨n, hn, hlen, hnot⟩
    · have hdo := doOptimize_exception hscan hnone
      rcases hnext with hfix | ⟨n, hn, -⟩
      · simp [hfix] at hdo
      · simp [hn] at hdo
    · have hdo := doOptimize_eq hscan hn
      rcases hnext with hfix | ⟨n', hn', hkept⟩
      · simp [hfix] at hdo
      · obtain rfl := Step.changed.inj (hn'.symm.trans hdo)
        have hmoved : moved ns code n' = id := by
          rw [moved, hscan]
          exact if_neg (by omega)
        rw [hmoved] at hkept
        exact hnot hkept
  · intro hclear
    rcases doOptimize_spec h hclear with hfix | ⟨n, hn, -, hkept, -⟩
    · exact Or.inl hfix
    · exact Or.inr ⟨n, hn, hkept⟩

theorem indexed_cleared {code : List IrOp} (h : Indexed code) : Indexed (cleared code) := by
  intro i y hy
  rw [cleared, List.getElem?_map] at hy
  obtain ⟨z, hz, rfl⟩ := Option.map_eq_some_iff.mp hy
  exact h i z hz

theorem preserved_cleared (code : List IrOp) : Preserved m code (cleared code) id := by
  refine ⟨equivalent_of_exec_eq fun p => ?_, fun i y hy _ => ?_⟩
  · rw [cleared, List.getElem?_map, Option.map_map]
    rfl
  · refine ⟨{ y with noPeephole := false }, ?_, (List.map_id _).symm⟩
    rw [id, cleared, List.getElem?_map, hy, Option.map_some]

/-- **A run whose rewrites meet the condition** keeps what the code does. -/
theorem preserved_of_reachable (hl : Layout ns m) {code : List IrOp} (h : Indexed code)
    {s : List IrOp × (ℕ → ℕ)}
    (hs : ((optimizing ns code).restrict fun s _ => Clear ns s.1).Reachable s) :
    Indexed s.1 ∧ Preserved m code s.1 s.2 := by
  refine hs.invariant (I := fun s => Indexed s.1 ∧ Preserved m code s.1 s.2) ?_ ?_
  · rintro s rfl
    exact ⟨indexed_cleared h, preserved_cleared code⟩
  · rintro s a t ⟨hindexed, hkept⟩ ⟨hclear, hstep, hmoved⟩
    rcases doOptimize_spec hindexed hclear.1 with hfix | ⟨n, hn, hindexed', -, hpres⟩
    · simp [hfix] at hstep
    · obtain rfl := Step.changed.inj (hn.symm.trans hstep)
      rw [hmoved]
      exact ⟨hindexed', hkept.trans (hpres hl hclear.2)⟩

/-- If all rewrites meet the condition, the loop ends at a fixpoint that such a run leads to. -/
theorem optimizeLoop_reachable {code : List IrOp}
    (hclear : ∀ s, ((optimizing ns code).restrict fun s _ => Clear ns s.1).Reachable s →
      Clear ns s.1) {s : List IrOp × (ℕ → ℕ)}
    (hs : ((optimizing ns code).restrict fun s _ => Clear ns s.1).Reachable s)
    (hindexed : Indexed s.1) :
    ∃ t, Returns (fun fuel => optimizeLoop ns fuel s.1) (some t.1) ∧
      doOptimize ns t.1 = .fixpoint ∧
      ((optimizing ns code).restrict fun s _ => Clear ns s.1).Reachable t := by
  induction hw : codeWeight s.1 using Nat.strong_induction_on generalizing s with
  | _ w ih =>
      subst hw
      rcases doOptimize_spec hindexed (hclear s hs).1 with hfix | ⟨n, hn, hindexed', -, -⟩
      · refine ⟨s, ?_, hfix, hs⟩
        refine returns_of_succ 0 fun fuel _ => ?_
        simp only [optimizeLoop, hfix]
      · have hs' := hs.tail (a := ()) (t := (n, moved ns s.1 n ∘ s.2)) ⟨hclear s hs, hn, rfl⟩
        obtain ⟨t, ⟨k, hk⟩, hfix, ht⟩ := ih _ (codeWeight_doOptimize hn) hs' hindexed' rfl
        refine ⟨t, ?_, hfix, ht⟩
        refine returns_of_succ k fun fuel hfuel => ?_
        simp only [optimizeLoop, hn]
        exact hk fuel hfuel

/-- **OptimizeIr.** In every run whose rewrites meet the condition, the code that is reached
does what the method did, and its labels designate the instructions they did; of the next
rewrite this holds of the labels exactly if none of them goes to the second instruction. If
all rewrites of the run meet the condition, it ends at a fixpoint. -/
theorem optimize_preserves (hl : Layout ns m) {code : List IrOp} (h : Indexed code) :
    (∀ s, ((optimizing ns code).restrict fun s _ => Clear ns s.1).Reachable s →
      Preserved m code s.1 s.2 ∧ (NextKeepsLabels ns s.1 ↔ Untargeted ns s.1)) ∧
    ((∀ s, ((optimizing ns code).restrict fun s _ => Clear ns s.1).Reachable s → Clear ns s.1) →
      ∃ n pos, Returns (fun fuel => optimize ns fuel code) (some n) ∧ Preserved m code n pos ∧
        (2 ≤ code.length → doOptimize ns n = .fixpoint)) := by
  refine ⟨fun s hs => ?_, fun hclear => ?_⟩
  · obtain ⟨hindexed, hkept⟩ := preserved_of_reachable hl h hs
    exact ⟨hkept, nextKeepsLabels_iff hindexed⟩
  · by_cases hlen : code.length < 2
    · refine ⟨code, id, ⟨0, fun fuel _ => ?_⟩, Preserved.refl, fun hlen' => by omega⟩
      simp only [optimize, if_pos hlen]
    · have hstart : ((optimizing ns code).restrict fun s _ => Clear ns s.1).Reachable
          (cleared code, id) := System.Reachable.start rfl
      obtain ⟨t, ⟨k, hk⟩, hfix, ht⟩ :=
        optimizeLoop_reachable hclear hstart (indexed_cleared h)
      refine ⟨t.1, t.2, ⟨k, fun fuel hfuel => ?_⟩, (preserved_of_reachable hl h ht).2, fun _ => hfix⟩
      simp only [optimize, if_neg hlen]
      exact hk fuel hfuel

/-! ### Two methods -/

/-- A machine without memory, whose other instructions are `LoadI1` and `LoadParam1`. -/
def tiny : Svm Unit Unit where
  dataBase := 0
  offset _ := 0
  load8 _ _ := 0
  store8 w _ _ := (w, [()])
  invoke _ f := some (f, [()])
  other opcode _ f :=
    if opcode = 3 then some (f.push 1, [])
    else if opcode = 30 then some (f.push (f.params 1), [])
    else none

/-- Fields that are not the only ones of their class. -/
def plain : Namespace := fun _ =>
  { isField := true, isStatic := false, parentSlots := [], parentBaseIsObj := true }

theorem layout_plain : Layout plain tiny := ⟨fun _ _ _ => rfl, rfl⟩

/-- Instructions at their places. -/
def assemble (ops : List Op) : List IrOp := ops.mapIdx fun i op => { op := op, index := i }

theorem indexed_assemble (ops : List Op) : Indexed (assemble ops) := by
  intro i x hx
  rw [assemble, List.getElem?_mapIdx] at hx
  obtain ⟨op, -, rfl⟩ := Option.map_eq_some_iff.mp hx
  rfl

/-- `bool f(int a) { return a == 0 }`. -/
def isZeroCode : List IrOp := assemble [.loadParam0, .loadI0, .int .eq, .returnPop]

/-- The two instructions of a comparison with zero are joined. -/
theorem optimize_preserves_isZero : ∃ n pos,
    Returns (fun fuel => optimize plain fuel isZeroCode) (some n) ∧
      Preserved tiny isZeroCode n pos := by
  have hmain := (optimize_preserves layout_plain (indexed_assemble
    [.loadParam0, .loadI0, .int .eq, .returnPop])).2
  have hclear : ∀ s, ((optimizing plain isZeroCode).restrict fun s _ => Clear plain s.1).Reachable
      s → s.1 = isZeroCode ∨ s.1 = assemble [.loadParam0, .eqZero, .returnPop] := by
    intro s hs
    refine hs.invariant (I := fun s => s.1 = isZeroCode ∨
      s.1 = assemble [.loadParam0, .eqZero, .returnPop]) ?_ ?_
    · rintro s rfl
      exact Or.inl rfl
    · rintro s a t hs ⟨-, hstep, -⟩
      rcases hs with hs | hs
      · rw [hs] at hstep
        exact Or.inr (Step.changed.inj hstep).symm
      · rw [hs] at hstep
        exact nomatch hstep
  obtain ⟨n, pos, hreturns, hkept, -⟩ := hmain fun s hs => by
    rcases hclear s hs with heq | heq
    · rw [heq]
      refine ⟨fun k a b x hscan y hy => ?_, fun k a b x field hscan ha => ?_⟩
      · have hlabels : y.op.labels = [] := by
          revert y
          decide
        exact blocks_of_labels_nil hlabels _
      · obtain ⟨-, rfl, -⟩ := Rewrite.join.inj (Scan.rewrite.inj hscan)
        exact nomatch ha
    · rw [heq]
      exact ⟨fun k a b x hscan => (nomatch hscan), fun k a b x field hscan => (nomatch hscan)⟩
  exact ⟨n, pos, hreturns, hkept⟩

/-- `bool f(int a, bool c) { return a == (c ? 1 : 0) }`. -/
def choiceCode : List IrOp :=
  assemble [.loadParam0, .other 30 "", .jump .zero false 5, .other 3 "", .jump .always false 6,
    .loadI0, .int .eq, .returnPop]

/-- What the optimizer makes of it: the first branch jumps over the comparison. -/
def choiceOptimized : List IrOp :=
  (assemble [.loadParam0, .other 30 "", .jump .zero false 6, .other 3 "", .jump .always false 7,
    .loadI0, .int .eq, .returnPop]).modify 5 fun x => { x with noPeephole := true }

/-- **A jump to the second one of two instructions**: `f(7, true)` returns true. -/
theorem not_preserved_choice : Layout plain tiny ∧ Indexed choiceCode ∧
    (∀ x ∈ choiceCode, ∀ l ∈ x.op.labels, l < choiceCode.length) ∧
    ¬ ∃ n pos, Returns (fun fuel => optimize plain fuel choiceCode) (some n) ∧
      Preserved tiny choiceCode n pos := by
  refine ⟨layout_plain, indexed_assemble _, by decide, ?_⟩
  rintro ⟨n, pos, hreturns, hkept⟩
  have hopt : Returns (fun fuel => optimize plain fuel choiceCode) (some choiceOptimized) :=
    ⟨2, fun fuel hfuel => by
      obtain ⟨fuel, rfl⟩ := Nat.exists_eq_add_of_le' hfuel
      rfl⟩
  obtain rfl := Option.some.inj (hreturns.unique hopt)
  -- a is 7 and c is true
  let start : Frame Unit :=
    { params := fun i => if i = 0 then 7 else 1, locals := fun _ => 0, stack := fun _ => 0,
      world := () }
  have hresult : Returns (fun k => result (execIr tiny) choiceCode k (0, start))
      (.value 0, ()) :=
    ⟨9, fun fuel hfuel => by
      obtain ⟨fuel, rfl⟩ := Nat.exists_eq_add_of_le' hfuel
      rfl⟩
  have hresult' : Returns (fun k => result (execIr tiny) choiceOptimized k (0, start))
      (.value 1, ()) :=
    ⟨9, fun fuel hfuel => by
      obtain ⟨fuel, rfl⟩ := Nat.exists_eq_add_of_le' hfuel
      rfl⟩
  have heq := (hkept.equivalent.returns_iff.mp hresult).unique hresult'
  exact absurd heq (by decide)

end OptimizeIr

end Sedona
