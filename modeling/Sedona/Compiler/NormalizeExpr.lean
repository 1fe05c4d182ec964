import Mathlib.Tactic

/-!
# NormalizeExpr

The step of the compiler that replaces a comparison of a slot with a slot literal by a comparison of
slot ids (`sedonac.steps.NormalizeExpr.optimizeSlotLiteralComparison`). An id tells the slots of one
type apart. The compared expression may yield any slot, or null.

## Main results

* `optimize_iff`: the states in which one rewritten comparison evaluates as before.
* `normalize_preserves`: expressions whose comparisons are all of this kind keep their meaning.
-/

namespace Sedona.NormalizeExpr

/-! ### Expressions -/

/-- The type of an expression that can be compared with a slot, and the type of an id. -/
inductive Ty where
  | slot | obj | byte
deriving DecidableEq

/-- A field: `sys::Slot.id`, or another one with its type. -/
inductive Field where
  | slotId
  | other (index : ℕ) (type : Ty)
deriving DecidableEq

/-- `Field.type`. -/
def Field.type : Field → Ty
  | .slotId => .byte
  | .other _ type => type

/-- `type.slot("id")`; `sys::Obj` has no such slot. -/
def Ty.slotNamedId : Ty → Option Field
  | .slot => some .slotId
  | _ => none

/-- The two comparisons. -/
inductive EqOp where
  | eq | notEq
deriving DecidableEq

/-- `Expr.Literal`, with the kinds that matter here. -/
inductive Literal (Slot : Type) where
  | null
  | slot (s : Slot)
  | slotId (s : Slot)
deriving DecidableEq

mutual

/-- `Expr`. All the kinds that the rewriting leaves as they are come as `other`, with their
operands. -/
inductive Expr (Slot : Type) where
  | param (index : ℕ) (type : Ty)
  | localVar (index : ℕ) (type : Ty)
  | literal (l : Literal Slot)
  | staticField (f : Field)
  | field (target : Expr Slot) (f : Field) (safeNav : Bool)
  | binary (op : EqOp) (lhs rhs : Expr Slot)
  | other (kind : ℕ) (operands : Exprs Slot)

/-- The operands of an expression. -/
inductive Exprs (Slot : Type) where
  | nil
  | cons (e : Expr Slot) (es : Exprs Slot)

end

variable {Slot : Type}

/-! ### The rewriting -/

/-- `idQname`: the field `id` of what is compared with a slot literal, which must be a parameter, a
local or a field. Everything else is an exception in the compiler. -/
def idField : Expr Slot → Option Field
  | .param _ type => type.slotNamedId
  | .localVar _ type => type.slotNamedId
  | .staticField f => f.type.slotNamedId
  | .field _ f _ => f.type.slotNamedId
  | .literal _ => none
  | .binary .. => none
  | .other .. => none

/-- The end of `optimizeSlotLiteralComparison`: `slotExpr.id`, and the id of the literal. -/
def rewrite (op : EqOp) (s : Slot) (slotExpr : Expr Slot) : Option (Expr Slot) :=
  (idField slotExpr).map fun f =>
    .binary op (.field slotExpr f false) (.literal (.slotId s))

/-- `optimizeSlotLiteralComparison`. -/
def optimizeSlotLiteralComparison (op : EqOp) : Expr Slot → Expr Slot → Option (Expr Slot)
  | .literal (.slot s), rhs => rewrite op s rhs
  | lhs, .literal (.slot s) => rewrite op s lhs
  | lhs, rhs => some (.binary op lhs rhs)

mutual

/-- `NormalizeExpr.expr` after a walk to the operands, in a method that is not an initializer. -/
def normalize : Expr Slot → Option (Expr Slot)
  | .param i t => some (.param i t)
  | .localVar i t => some (.localVar i t)
  | .literal l => some (.literal l)
  | .staticField f => some (.staticField f)
  | .field target f safeNav => do
      let target ← normalize target
      some (.field target f safeNav)
  | .binary op lhs rhs => do
      let lhs ← normalize lhs
      let rhs ← normalize rhs
      optimizeSlotLiteralComparison op lhs rhs
  | .other k es => do
      let es ← normalizeAll es
      some (.other k es)

/-- The walk to the operands. -/
def normalizeAll : Exprs Slot → Option (Exprs Slot)
  | .nil => some .nil
  | .cons e es => do
      let e ← normalize e
      let es ← normalizeAll es
      some (.cons e es)

end

/-! ### Evaluation -/

/-- What an expression yields. -/
inductive Value (Slot : Type) where
  | null
  | slot (s : Slot)
  | obj (ref : ℕ)
  | int (v : BitVec 32)
deriving DecidableEq

/-- An evaluation: it may change the state, and ends without a value when it goes through null. -/
abbrev Eval (Slot State : Type) := State → Option (Value Slot × State)

/-- The runtime: the ids of the slots, the variables, the fields, and the other operations, which
decide themselves what they evaluate of their operands and in which order. -/
structure Machine (Slot State : Type) where
  id : Slot → BitVec 8
  param : ℕ → State → Value Slot
  localVar : ℕ → State → Value Slot
  staticField : Field → State → Value Slot
  instanceField : ℕ → Value Slot → State → Value Slot
  other : ℕ → List (Eval Slot State) → Eval Slot State

variable {State : Type} [DecidableEq Slot] (m : Machine Slot State)

/-- `Load8BitField` and the other loads: null has no fields, and only a slot has the field
`sys::Slot.id`. -/
def load (f : Field) (v : Value Slot) (st : State) : Option (Value Slot) :=
  match f, v with
  | _, .null => none
  | .slotId, .slot s => some (.int ((m.id s).setWidth 32))
  | .slotId, _ => none
  | .other i _, v => some (m.instanceField i v st)

/-- The value of a literal: `LoadNull`, `LoadSlot` and `LoadSlotId`. -/
def literalValue : Literal Slot → Value Slot
  | .null => .null
  | .slot s => .slot s
  | .slotId s => .int ((m.id s).setWidth 32)

/-- `ObjEq` and `IntEq`, `ObjNotEq` and `IntNotEq`. -/
def compare (op : EqOp) (a b : Value Slot) : Value Slot :=
  match op with
  | .eq => .int (if a = b then 1 else 0)
  | .notEq => .int (if a = b then 0 else 1)

mutual

/-- What the code of an expression does. -/
def eval : Expr Slot → Eval Slot State
  | .param i _, st => some (m.param i st, st)
  | .localVar i _, st => some (m.localVar i st, st)
  | .literal l, st => some (literalValue m l, st)
  | .staticField f, st => some (m.staticField f st, st)
  | .field target f safeNav, st => do
      let (v, st) ← eval target st
      if safeNav = true ∧ v = .null then some (.null, st)
      else
        let v ← load m f v st
        some (v, st)
  | .binary op lhs rhs, st => do
      let (a, st) ← eval lhs st
      let (b, st) ← eval rhs st
      some (compare op a b, st)
  | .other k es, st => m.other k (evalAll es) st

/-- The evaluations of operands. -/
def evalAll : Exprs Slot → List (Eval Slot State)
  | .nil => []
  | .cons e es => eval e :: evalAll es

end

/-! ### One comparison -/

/-- The value is a slot, and if it has the id of the literal it is the literal. -/
def ToldById (s : Slot) (v : Value Slot) : Prop :=
  ∃ t, v = .slot t ∧ (m.id t = m.id s → t = s)

variable {m} {op : EqOp} {s : Slot} {x lhs rhs e e' : Expr Slot} {st st' : State} {v : Value Slot}

omit [DecidableEq Slot] in
theorem idField_eq_some {f : Field} (h : idField x = some f) : f = .slotId := by
  have hid : ∀ t : Ty, t.slotNamedId = some f → f = .slotId := by
    rintro (_ | _ | _) ht
    · exact (Option.some.inj ht).symm
    · cases ht
    · cases ht
  cases x with
  | param i t => exact hid t h
  | localVar i t => exact hid t h
  | staticField g => exact hid _ h
  | field y g n => exact hid _ h
  | literal l => cases h
  | binary o a b => cases h
  | other k es => cases h

omit [DecidableEq Slot] in
theorem rewrite_eq_some (h : rewrite op s x = some e') :
    e' = .binary op (.field x .slotId false) (.literal (.slotId s)) := by
  obtain ⟨f, hf, rfl⟩ := Option.map_eq_some_iff.mp h
  rw [idField_eq_some hf]

/-- The rewritten comparison evaluates the operand first, whose id is compared. -/
theorem eval_rewritten (st : State) :
    eval m (.binary op (.field x .slotId false) (.literal (.slotId s))) st =
      (eval m x st).bind fun r => (load m .slotId r.1 r.2).bind fun i =>
        some (compare op i (.int ((m.id s).setWidth 32)), r.2) := by
  rw [eval, eval]
  cases eval m x st with
  | none => rfl
  | some r =>
      obtain ⟨v, st'⟩ := r
      change Option.bind (if false = true ∧ v = Value.null then some (Value.null, st')
        else (load m .slotId v st').bind fun v => some (v, st')) _ = _
      rw [if_neg (fun h => Bool.noConfusion h.1)]
      change _ = (load m .slotId v st').bind _
      cases load m .slotId v st' <;> rfl

theorem eval_slot_right (st : State) :
    eval m (.binary op x (.literal (.slot s))) st =
      (eval m x st).bind fun r => some (compare op r.1 (.slot s), r.2) := by
  rw [eval]
  rfl

theorem compare_comm (op : EqOp) (a b : Value Slot) : compare op a b = compare op b a := by
  cases op <;> simp only [compare, eq_comm (a := a)]

/-- A literal on the left is evaluated first, which makes no difference. -/
theorem eval_slot_left (st : State) :
    eval m (.binary op (.literal (.slot s)) x) st =
      eval m (.binary op x (.literal (.slot s))) st := by
  rw [eval_slot_right, eval]
  change ((eval m x st).bind fun r => some (compare op (.slot s) r.1, r.2)) = _
  simp only [compare_comm op (.slot s)]

theorem compare_inj {a b c d : Value Slot} :
    compare op a b = compare op c d ↔ (a = b ↔ c = d) := by
  cases op <;> by_cases h₁ : a = b <;> by_cases h₂ : c = d <;> simp [compare, h₁, h₂]

/-- The comparison of the ids of two slots comes out as that of the slots. -/
theorem load_iff (v : Value Slot) (st : State) :
    ((load m .slotId v st).bind fun i => some (compare op i (.int ((m.id s).setWidth 32)), st)) =
      some (compare op v (.slot s), st) ↔ ToldById m s v := by
  cases v with
  | slot t =>
      change some (compare op (.int ((m.id t).setWidth 32)) _, st) = _ ↔ _
      rw [Option.some.injEq, Prod.mk.injEq, and_iff_left rfl, compare_inj, Value.int.injEq,
        Value.slot.injEq]
      have hid : (m.id t).setWidth 32 = (m.id s).setWidth 32 ↔ m.id t = m.id s := by
        constructor
        · intro h
          have := congrArg (BitVec.setWidth 8) h
          rwa [BitVec.setWidth_setWidth_of_le _ (by decide), BitVec.setWidth_eq,
            BitVec.setWidth_setWidth_of_le _ (by decide), BitVec.setWidth_eq] at this
        · exact congrArg _
      rw [hid]
      constructor
      · intro h
        exact ⟨t, rfl, h.mp⟩
      · rintro ⟨t', ht, h⟩
        obtain rfl := Value.slot.inj ht
        exact ⟨h, congrArg m.id⟩
  | null => exact iff_of_false (by rintro ⟨⟩) (by rintro ⟨t, ht, -⟩; cases ht)
  | obj r => exact iff_of_false (by rintro ⟨⟩) (by rintro ⟨t, ht, -⟩; cases ht)
  | int i => exact iff_of_false (by rintro ⟨⟩) (by rintro ⟨t, ht, -⟩; cases ht)

/-- The rewritten comparison evaluates as the comparison, with the same side effects, if and only if
the operand does not yield null and no other slot with the id of the literal. -/
theorem rewritten_iff (st : State) :
    eval m (.binary op (.field x .slotId false) (.literal (.slotId s))) st =
        eval m (.binary op x (.literal (.slot s))) st ↔
      ∀ v st', eval m x st = some (v, st') → ToldById m s v := by
  rw [eval_rewritten, eval_slot_right]
  cases hx : eval m x st with
  | none => exact iff_of_true rfl (by rintro v st' ⟨⟩)
  | some r =>
      obtain ⟨v, st'⟩ := r
      rw [Option.bind_some, Option.bind_some, load_iff]
      constructor
      · intro h v' st'' heq
        obtain ⟨rfl, rfl⟩ := Prod.mk.inj (Option.some.inj heq)
        exact h
      · exact fun h => h v st' rfl

omit [DecidableEq Slot] in
/-- What `optimizeSlotLiteralComparison` returns: the comparison itself, or the one of the ids. -/
theorem optimize_cases (h : optimizeSlotLiteralComparison op lhs rhs = some e') :
    (∃ s x, (lhs = .literal (.slot s) ∧ x = rhs ∨ rhs = .literal (.slot s) ∧ x = lhs) ∧
      e' = .binary op (.field x .slotId false) (.literal (.slotId s))) ∨
    e' = .binary op lhs rhs := by
  unfold optimizeSlotLiteralComparison at h
  split at h
  · exact .inl ⟨_, _, .inl ⟨rfl, rfl⟩, rewrite_eq_some h⟩
  · exact .inl ⟨_, _, .inr ⟨rfl, rfl⟩, rewrite_eq_some h⟩
  · exact .inr (Option.some.inj h).symm

/-- The comparison of an expression with a slot literal, which stands on either side. -/
def Compares (s : Slot) (x lhs rhs : Expr Slot) : Prop :=
  lhs = .literal (.slot s) ∧ x = rhs ∨ rhs = .literal (.slot s) ∧ x = lhs

omit [DecidableEq Slot] in
theorem optimize_of_compares (hcmp : Compares s x lhs rhs)
    (h : optimizeSlotLiteralComparison op lhs rhs = some e') :
    e' = .binary op (.field x .slotId false) (.literal (.slotId s)) := by
  obtain ⟨rfl, rfl⟩ | ⟨rfl, rfl⟩ := hcmp
  · exact rewrite_eq_some h
  · unfold optimizeSlotLiteralComparison at h
    split at h
    · -- two literals: the second one is no operand that can be rewritten
      cases h
    · rename_i heq
      cases heq
      exact rewrite_eq_some h
    · rename_i hno
      exact absurd rfl (hno s)

/-- A comparison that is rewritten means the same in a state, with the same side effects, if and
only if its operand yields neither null there nor a slot other than the literal that has its id. -/
theorem optimize_iff (m : Machine Slot State) (hcmp : Compares s x lhs rhs)
    (h : optimizeSlotLiteralComparison op lhs rhs = some e') (st : State) :
    eval m e' st = eval m (.binary op lhs rhs) st ↔
      ∀ v st', eval m x st = some (v, st') → ToldById m s v := by
  obtain rfl := optimize_of_compares hcmp h
  obtain ⟨rfl, rfl⟩ | ⟨rfl, rfl⟩ := hcmp
  · rw [eval_slot_left]
    exact rewritten_iff st
  · exact rewritten_iff st

/-- A machine with two slots of the id 0, such as those of two unrelated types. The local variable
holds what the state is. -/
def twoTypes : Machine Bool (Value Bool) where
  id _ := 0
  param _ st := st
  localVar _ st := st
  staticField _ st := st
  instanceField _ v _ := v
  other _ _ st := some (.null, st)

/-- `slot == T.s` for a local variable that holds `T.s`. -/
theorem optimize_iff_local :
    eval twoTypes (.binary .eq (.field (.localVar 0 .slot) .slotId false)
        (.literal (.slotId true))) (.slot true) =
      eval twoTypes (.binary .eq (.localVar 0 .slot) (.literal (.slot true))) (.slot true) :=
  (optimize_iff twoTypes (.inr ⟨rfl, rfl⟩) rfl (.slot true)).mpr fun _ _ h => by
    cases h
    exact ⟨true, rfl, fun _ => rfl⟩

/-- The other slot is taken for the literal, and null ends without a value. -/
theorem not_optimize :
    ¬ ∀ (op : EqOp) (s : Bool) (x lhs rhs e' : Expr Bool), Compares s x lhs rhs →
      optimizeSlotLiteralComparison op lhs rhs = some e' →
      ∀ st, eval twoTypes e' st = eval twoTypes (.binary op lhs rhs) st := by
  intro h
  have hother := h .eq true (.localVar 0 .slot) (.localVar 0 .slot) (.literal (.slot true)) _
    (.inr ⟨rfl, rfl⟩) rfl (.slot false)
  exact absurd hother (by decide)

/-! ### Whole expressions -/

mutual

/-- In every comparison with a slot literal the operand yields a slot that its id tells from the
others. -/
def Told (m : Machine Slot State) : Expr Slot → Prop
  | .param .. => True
  | .localVar .. => True
  | .literal _ => True
  | .staticField _ => True
  | .field target _ _ => Told m target
  | .binary _ lhs rhs => Told m lhs ∧ Told m rhs ∧
      ∀ s x, Compares s x lhs rhs → ∀ st v st', eval m x st = some (v, st') → ToldById m s v
  | .other _ es => ToldAll m es

/-- `Told` for operands. -/
def ToldAll (m : Machine Slot State) : Exprs Slot → Prop
  | .nil => True
  | .cons e es => Told m e ∧ ToldAll m es

end

omit [DecidableEq Slot] in
/-- Only a literal is normalized to a literal. -/
theorem normalize_literal {l : Literal Slot} (h : normalize e = some (.literal l)) :
    e = .literal l := by
  cases e with
  | literal l' => exact Option.some.inj h
  | param i t => cases h
  | localVar i t => cases h
  | staticField f => cases h
  | field y f n =>
      obtain ⟨y', -, hy⟩ := Option.bind_eq_some_iff.mp h
      cases hy
  | binary o a b =>
      obtain ⟨a', -, h⟩ := Option.bind_eq_some_iff.mp h
      obtain ⟨b', -, h⟩ := Option.bind_eq_some_iff.mp h
      rcases optimize_cases h with ⟨s, x, -, heq⟩ | heq <;> cases heq
  | other k es =>
      obtain ⟨es', -, hes⟩ := Option.bind_eq_some_iff.mp h
      cases hes

/-- A comparison whose operands are normalized is normalized as a whole. -/
theorem eval_optimize {lhs' rhs' : Expr Slot} (hl : normalize lhs = some lhs')
    (hr : normalize rhs = some rhs') (h : optimizeSlotLiteralComparison op lhs' rhs' = some e')
    (hlhs : eval m lhs' = eval m lhs) (hrhs : eval m rhs' = eval m rhs)
    (htold : ∀ s x, Compares s x lhs rhs → ∀ st v st', eval m x st = some (v, st') →
      ToldById m s v) : eval m e' = eval m (.binary op lhs rhs) := by
  have hsame : eval m (.binary op lhs' rhs') = eval m (.binary op lhs rhs) := by
    funext st
    rw [eval, eval, hlhs, hrhs]
  rcases optimize_cases h with ⟨s, x, hcmp, -⟩ | rfl
  · rw [← hsame]
    funext st
    obtain rfl := optimize_of_compares hcmp h
    obtain ⟨rfl, rfl⟩ | ⟨rfl, rfl⟩ := hcmp
    · rw [eval_slot_left]
      refine (rewritten_iff st).mpr fun v st' hx => ?_
      rw [hrhs] at hx
      exact htold s rhs (.inl ⟨normalize_literal hl, rfl⟩) st v st' hx
    · refine (rewritten_iff st).mpr fun v st' hx => ?_
      rw [hlhs] at hx
      exact htold s lhs (.inr ⟨normalize_literal hr, rfl⟩) st v st' hx
  · exact hsame

mutual

/-- Normalized expressions evaluate as before, when ids tell the slots that are compared. -/
theorem eval_normalize (m : Machine Slot State) : ∀ (e : Expr Slot) (e' : Expr Slot),
    normalize e = some e' → Told m e → eval m e' = eval m e
  | .param .., _, h, _ => by rw [Option.some.inj h]
  | .localVar .., _, h, _ => by rw [Option.some.inj h]
  | .literal _, _, h, _ => by rw [Option.some.inj h]
  | .staticField _, _, h, _ => by rw [Option.some.inj h]
  | .field target f n, e', h, ht => by
      obtain ⟨target', htarget, heq⟩ := Option.bind_eq_some_iff.mp h
      obtain rfl := Option.some.inj heq
      funext st
      rw [eval, eval, eval_normalize m target target' htarget ht]
  | .binary op lhs rhs, e', h, ht => by
      obtain ⟨lhs', hl, h⟩ := Option.bind_eq_some_iff.mp h
      obtain ⟨rhs', hr, h⟩ := Option.bind_eq_some_iff.mp h
      obtain ⟨htl, htr, hcmp⟩ := ht
      exact eval_optimize hl hr h (eval_normalize m lhs lhs' hl htl)
        (eval_normalize m rhs rhs' hr htr) hcmp
  | .other k es, e', h, ht => by
      obtain ⟨es', hes, heq⟩ := Option.bind_eq_some_iff.mp h
      obtain rfl := Option.some.inj heq
      funext st
      rw [eval, eval, evalAll_normalize m es es' hes ht]

/-- Operands evaluate as before. -/
theorem evalAll_normalize (m : Machine Slot State) : ∀ (es : Exprs Slot) (es' : Exprs Slot),
    normalizeAll es = some es' → ToldAll m es → evalAll m es' = evalAll m es
  | .nil, _, h, _ => by rw [Option.some.inj h]
  | .cons e es, es', h, ht => by
      obtain ⟨e', he, h⟩ := Option.bind_eq_some_iff.mp h
      obtain ⟨es'', hes, heq⟩ := Option.bind_eq_some_iff.mp h
      obtain rfl := Option.some.inj heq
      rw [evalAll, evalAll, eval_normalize m e e' he ht.1, evalAll_normalize m es es'' hes ht.2]

end

/-- **NormalizeExpr.** A normalized expression evaluates as before, with the same side effects, and
so do operands, when every comparison with a slot literal has an operand that yields a slot which
its id tells from the others. -/
theorem normalize_preserves (m : Machine Slot State) :
    (∀ e e', normalize e = some e' → Told m e → eval m e' = eval m e) ∧
      ∀ es es', normalizeAll es = some es' → ToldAll m es → evalAll m es' = evalAll m es :=
  ⟨eval_normalize m, evalAll_normalize m⟩

/-- A machine with two slots of one type. The local variable holds the slot that the state is. -/
def oneType : Machine Bool Bool where
  id s := if s then 1 else 0
  param _ st := .slot st
  localVar _ st := .slot st
  staticField _ st := .slot st
  instanceField _ v _ := v
  other _ _ st := some (.null, st)

/-- `slot == T.s` as an operand. -/
theorem normalize_preserves_operand :
    eval oneType (.other 0 (.cons (.binary .eq (.field (.localVar 0 .slot) .slotId false)
        (.literal (.slotId true))) .nil)) =
      eval oneType (.other 0 (.cons (.binary .eq (.localVar 0 .slot)
        (.literal (.slot true))) .nil)) := by
  refine (normalize_preserves oneType).1 _ _ rfl ⟨⟨trivial, trivial, ?_⟩, trivial⟩
  rintro s x (⟨hl, rfl⟩ | ⟨hr, rfl⟩) st v st' hx
  · cases hl
  · cases hr
    cases hx
    refine ⟨st, rfl, fun hid => ?_⟩
    cases st
    · exact absurd hid (by decide)
    · rfl

end Sedona.NormalizeExpr
