import Sedona.Library.Transition
import Sedona.Vm.Svm

/-!
# OptimizeIr

The peephole optimizer of the compiler (`sedonac.steps.OptimizeIr`). It rewrites the code of a
method until nothing is left to rewrite: `replace` exchanges one instruction, `join` merges two
and renumbers the labels, or abandons the attempt.

Instructions are objects that are updated in place; the set `noPeephole` holds some of them.
Here an instruction says itself whether it is in the set.
-/

namespace Sedona

open Transition

/-- `sedonac.ir.IrOp`: an instruction, its index, and whether it is in `noPeephole`. -/
structure IrOp where
  op : Op
  index : ℕ
  noPeephole : Bool := false
deriving DecidableEq, Repr

/-- A slot of a type, as `isFieldAtZero` looks at it. -/
structure SlotInfo where
  isField : Bool
  isStatic : Bool
deriving DecidableEq, Repr

/-- A field, with the slots of its parent type and whether that extends `sys::Obj`. -/
structure FieldInfo extends SlotInfo where
  parentSlots : List SlotInfo
  parentBaseIsObj : Bool
deriving DecidableEq, Repr

/-- The fields of the compiled kits by qualified name. -/
abbrev Namespace := QName → FieldInfo

namespace OptimizeIr

/-! ### Peephole -/

/-- `OptimizeIr.optimizeOp`. -/
def optimizeOp : Op → Option Op
  | .call method =>
      if method = "sys::Str.get" then some .load8BitArray
      else if method = "sys::Str.set" then some .store8BitArray
      else none
  | _ => none

/-- `OptimizeIr.isFieldAtZero`. -/
def isFieldAtZero (ns : Namespace) (field : QName) : Bool :=
  let numFields := (ns field).parentSlots.countP fun s => s.isField && !s.isStatic
  numFields == 1 && (ns field).parentBaseIsObj

/-- What two instructions are merged into: the second one, or a new one. -/
inductive Join where
  | second
  | fresh (op : Op)
deriving DecidableEq, Repr

/-- The comparison that a jump makes instead of the comparison `c` and `JumpZero`. -/
def inverse : Cmp → Cmp
  | .eq => .notEq
  | .notEq => .eq
  | .lt => .gtEq
  | .ltEq => .gt
  | .gt => .ltEq
  | .gtEq => .lt

/-- `OptimizeIr.peephole`, for instructions that are not in `noPeephole`. -/
def peepholeOp (ns : Namespace) : Op → Op → Option Join
  | .cast _, _ => some .second
  | .loadInlineFieldU1 field, _ => if isFieldAtZero ns field then some .second else none
  | .loadDataAddr, .loadInlineFieldU1 field => some (.fresh (.loadDataInlineFieldU1 field))
  | .loadParam0, .loadInlineFieldU1 field => some (.fresh (.loadParam0InlineFieldU1 field))
  | .loadParam0, .call method => some (.fresh (.loadParam0Call method))
  | .int c, .jump .nonZero false l => some (.fresh (.jump (.int c) false l))
  | .eqZero, .jump .nonZero false l => some (.fresh (.jump .zero false l))
  | .notEqZero, .jump .nonZero false l => some (.fresh (.jump .nonZero false l))
  | .int c, .jump .zero false l => some (.fresh (.jump (.int (inverse c)) false l))
  | .eqZero, .jump .zero false l => some (.fresh (.jump .nonZero false l))
  | .notEqZero, .jump .zero false l => some (.fresh (.jump .zero false l))
  | .loadI0, .jump (.int .eq) false l => some (.fresh (.jump .zero false l))
  | .loadI0, .jump (.int .notEq) false l => some (.fresh (.jump .nonZero false l))
  | .loadI0, .int .eq => some (.fresh .eqZero)
  | .loadI0, .int .notEq => some (.fresh .notEqZero)
  | .loadNull, .objEq => some (.fresh .eqZero)
  | .loadNull, .objNotEq => some (.fresh .notEqZero)
  | _, _ => none

/-- `OptimizeIr.peephole`. -/
def peephole (ns : Namespace) (a b : IrOp) : Option Join :=
  if a.noPeephole then none else peepholeOp ns a.op b.op

/-! ### Relabelling -/

/-- How the relabelling of an instruction, or of the whole code, comes out. -/
inductive Stop where
  /-- The labels are updated. -/
  | done
  /-- A jump goes to the second instruction. -/
  | jumpTarget
  /-- A switch goes to the second instruction: an `IllegalStateException`. -/
  | switchTarget
deriving DecidableEq, Repr

/-- The body of the loop of `join` over the merged code. -/
def relabelOp (k : ℕ) (isCast : Bool) : Op → Op × Stop
  | .jump kind far l =>
      if l = k + 1 ∧ !isCast then (.jump kind far l, .jumpTarget)
      else (.jump kind far (if k < l then l - 1 else l), .done)
  | .switch ls =>
      if k + 1 ∈ ls then (.switch ls, .switchTarget)
      else (.switch (ls.map fun l => if k < l then l - 1 else l), .done)
  | op => (op, .done)

/-- The loop of `join` over the merged code from the index `i` on: the code as it is when the
loop ends. -/
def relabelAll (k : ℕ) (isCast : Bool) : ℕ → List IrOp → List IrOp × Stop
  | _, [] => ([], .done)
  | i, x :: xs =>
      match relabelOp k isCast x.op with
      | (op, .done) =>
          let (ys, stop) := relabelAll k isCast (i + 1) xs
          ({ x with op := op, index := i } :: ys, stop)
      | (op, stop) => ({ x with op := op, index := i } :: xs, stop)

/-- The label that `join` gives back to a jump when it abandons the attempt. -/
def restoreOp (k : ℕ) : Op → Op
  | .jump kind far l => .jump kind far (if k ≤ l then l + 1 else l)
  | op => op

/-- Is the instruction a cast? -/
def isCast : Op → Bool
  | .cast _ => true
  | _ => false

/-- `OptimizeIr.join`: merge the instructions `a` at `k` and `b` at `k + 1`. `none` stands for
the exception. -/
def join (k : ℕ) (a b : IrOp) (x : Join) (o : List IrOp) : Option (List IrOp) :=
  let merged : IrOp := match x with
    | .second => b
    | .fresh op => { op := op, index := 0 }
  match relabelAll k (isCast a.op) 0 (o.take k ++ merged :: o.drop (k + 2)) with
  | (n, .done) => some n
  | (_, .switchTarget) => none
  | (n, .jumpTarget) =>
      -- the old code, but its instructions are shared with the new one
      let second := match x with
        | .second => n.drop k
        | .fresh _ => b :: n.drop (k + 1)
      let o := n.take k ++ { a with noPeephole := true } :: second
      some (o.mapIdx fun z x => { x with op := restoreOp k x.op, index := z })

/-! ### The optimizer -/

/-- A rewrite of the instruction at an index, or of that and the next one. -/
inductive Rewrite where
  | replace (k : ℕ) (op : Op)
  | join (k : ℕ) (a b : IrOp) (x : Join)
deriving DecidableEq, Repr

/-- What the loop of `doOptimize` comes to. -/
inductive Scan where
  | fixpoint
  | rewrite (r : Rewrite)
  /-- An index does not fit: an `IllegalStateException`. -/
  | badIndex
deriving DecidableEq, Repr

/-- The loop of `OptimizeIr.doOptimize` from the index `i` on. -/
def scan (ns : Namespace) : ℕ → List IrOp → Scan
  | i, a :: b :: rest =>
      if a.index ≠ i then .badIndex
      else
        match optimizeOp a.op with
        | some op => .rewrite (.replace i op)
        | none =>
            match peephole ns a b with
            | some x => .rewrite (.join i a b x)
            | none => scan ns (i + 1) (b :: rest)
  | _, _ => .fixpoint

/-- `OptimizeIr.replace` and `join`. -/
def rewrite (code : List IrOp) : Rewrite → Option (List IrOp)
  | .replace k op => some (code.set k { op := op, index := k })
  | .join k a b x => join k a b x code

/-- What a call of `doOptimize` ends with. -/
inductive Step where
  | fixpoint
  | changed (code : List IrOp)
  | exception
deriving DecidableEq, Repr

/-- `OptimizeIr.doOptimize`. -/
def doOptimize (ns : Namespace) (code : List IrOp) : Step :=
  match scan ns 0 code with
  | .fixpoint => .fixpoint
  | .badIndex => .exception
  | .rewrite r =>
      match rewrite code r with
      | some code => .changed code
      | none => .exception

/-- The loop of `OptimizeIr.optimize`: the optimized code, or `none` for an exception. -/
def optimizeLoop (ns : Namespace) : ℕ → List IrOp → Option (Option (List IrOp))
  | 0, _ => none
  | fuel + 1, code =>
      match doOptimize ns code with
      | .fixpoint => some (some code)
      | .exception => some none
      | .changed code => optimizeLoop ns fuel code

/-- `OptimizeIr.optimize`, with `noPeephole` cleared. -/
def optimize (ns : Namespace) (fuel : ℕ) (code : List IrOp) : Option (Option (List IrOp)) :=
  if code.length < 2 then some (some code)
  else optimizeLoop ns fuel (code.map fun x => { x with noPeephole := false })

end OptimizeIr

end Sedona
