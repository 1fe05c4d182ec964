import Mathlib.Data.Int.Notation
import Mathlib.Data.List.Forall2
import Mathlib.Order.Nat
import Sedona.Library.Definedness

/-!
# ConstFolding

The step of the compiler that replaces expressions of literals by literals
(`sedonac.steps.ConstFolding`): negations, casts, operators with two literals or with a zero on the
right, and adjacent parts of a string. The compiler computes as Java does and the virtual machine as
C does, which leaves some results undefined; there the compiler may fold to anything.

Folding a product with zero drops the other factor, with what its evaluation does.

## Main results

* `fold`: the step on an expression.
* `eval`: what the code of an expression does.
-/

open Definedness

namespace Sedona.ConstFolding

/-! ### Numbers -/

/-- A floating point type. The compiler and the virtual machine compute with it alike; a conversion
to an integer is defined everywhere in Java, and in C only where the integer has room. -/
structure Floating (F : Type) where
  add : F → F → F
  sub : F → F → F
  mul : F → F → F
  div : F → F → F
  rem : F → F → F
  neg : F → F
  isZero : F → Bool
  ofInt : BitVec 32 → F
  ofLong : BitVec 64 → F
  intValue : F → BitVec 32
  longValue : F → BitVec 64
  toInt : F → Option (BitVec 32)
  toLong : F → Option (BitVec 64)
  intValue_eq : ∀ {f v}, toInt f = some v → intValue f = v
  longValue_eq : ∀ {f v}, toLong f = some v → longValue f = v

/-- `float` and `double`. -/
structure Floats (F D : Type) where
  float : Floating F
  double : Floating D
  toDouble : F → D
  toFloat : D → F

variable {F D σ : Type}

/-- A `java.lang.Number` of a literal. -/
inductive Number (F D : Type) where
  | int (v : BitVec 32)
  | long (v : BitVec 64)
  | float (v : F)
  | double (v : D)

section Java

variable (A : Floats F D)

def Number.intValue : Number F D → BitVec 32
  | .int v => v
  | .long v => v.setWidth 32
  | .float v => A.float.intValue v
  | .double v => A.double.intValue v

def Number.longValue : Number F D → BitVec 64
  | .int v => v.signExtend 64
  | .long v => v
  | .float v => A.float.longValue v
  | .double v => A.double.longValue v

def Number.floatValue : Number F D → F
  | .int v => A.float.ofInt v
  | .long v => A.float.ofLong v
  | .float v => v
  | .double v => A.toFloat v

def Number.doubleValue : Number F D → D
  | .int v => A.double.ofInt v
  | .long v => A.double.ofLong v
  | .float v => A.toDouble v
  | .double v => v

/-- An operator on all numbers, by the type of the left one. -/
def arithmetic (intOp : BitVec 32 → BitVec 32 → Option (BitVec 32))
    (longOp : BitVec 64 → BitVec 64 → Option (BitVec 64)) (floatOp : F → F → F)
    (doubleOp : D → D → D) (a b : Number F D) : Option (Number F D) :=
  match a with
  | .int x => (intOp x (b.intValue A)).map .int
  | .long x => (longOp x (b.longValue A)).map .long
  | .float x => some (.float (floatOp x (b.floatValue A)))
  | .double x => some (.double (doubleOp x (b.doubleValue A)))

/-- An operator on integers. -/
def bitwise (intOp : BitVec 32 → BitVec 32 → BitVec 32) (longOp : BitVec 64 → BitVec 64 → BitVec 64)
    (a b : Number F D) : Option (Number F D) :=
  match a with
  | .int x => some (.int (intOp x (b.intValue A)))
  | .long x => some (.long (longOp x (b.longValue A)))
  | .float _ => none
  | .double _ => none

/-- A shift: Java takes the low bits of the number of places. -/
def shift (intOp : BitVec 32 → ℕ → BitVec 32) (longOp : BitVec 64 → ℕ → BitVec 64)
    (a b : Number F D) : Option (Number F D) :=
  match a with
  | .int x => some (.int (intOp x ((b.intValue A).toNat % 32)))
  | .long x => some (.long (longOp x ((b.intValue A).toNat % 64)))
  | .float _ => none
  | .double _ => none

/-- `/` on integers; zero is an `ArithmeticException`. -/
def javaDiv {w : ℕ} (a b : BitVec w) : Option (BitVec w) :=
  if b = 0 then none else some (a.sdiv b)

/-- `%` on integers. -/
def javaMod {w : ℕ} (a b : BitVec w) : Option (BitVec w) :=
  if b = 0 then none else some (a.srem b)

def add : Number F D → Number F D → Option (Number F D) :=
  arithmetic A (fun x y => some (x + y)) (fun x y => some (x + y)) A.float.add A.double.add

def mul : Number F D → Number F D → Option (Number F D) :=
  arithmetic A (fun x y => some (x * y)) (fun x y => some (x * y)) A.float.mul A.double.mul

def div : Number F D → Number F D → Option (Number F D) :=
  arithmetic A javaDiv javaDiv A.float.div A.double.div

def mod : Number F D → Number F D → Option (Number F D) :=
  arithmetic A javaMod javaMod A.float.rem A.double.rem

def sub : Number F D → Number F D → Option (Number F D) :=
  arithmetic A (fun x y => some (x - y)) (fun x y => some (x - y)) A.float.sub A.double.sub

def bitOr : Number F D → Number F D → Option (Number F D) := bitwise A (· ||| ·) (· ||| ·)

def bitAnd : Number F D → Number F D → Option (Number F D) := bitwise A (· &&& ·) (· &&& ·)

def bitXor : Number F D → Number F D → Option (Number F D) := bitwise A (· ^^^ ·) (· ^^^ ·)

def lshift : Number F D → Number F D → Option (Number F D) := shift A (· <<< ·) (· <<< ·)

def rshift : Number F D → Number F D → Option (Number F D) :=
  shift A BitVec.sshiftRight BitVec.sshiftRight

end Java

/-! ### Expressions -/

/-- `Type`, as far as a cast or an operator looks at it. -/
inductive Ty where
  | byte | short | int | long | float | double | str
  | other (index : ℕ)
deriving DecidableEq

/-- `Type.isInteger`. -/
def Ty.isInteger : Ty → Bool
  | .byte => true
  | .short => true
  | .int => true
  | _ => false

/-- The operators that are folded. -/
inductive Op where
  | bitOr | bitXor | bitAnd | lshift | rshift | mul | div | mod | add | sub
deriving DecidableEq

/-- `Token.isShift`. -/
def Op.isShift : Op → Bool
  | .lshift => true
  | .rshift => true
  | _ => false

/-- `Expr.Literal`. The literals without a number and without a text come as `other`. -/
inductive Literal (F D : Type) where
  | int (v : BitVec 32)
  | long (v : BitVec 64)
  | time (v : BitVec 64)
  | float (v : F)
  | double (v : D)
  | str (s : List Char)
  | other (kind : ℕ) (type : Ty)

def Literal.type : Literal F D → Ty
  | .int _ => .int
  | .long _ => .long
  | .time _ => .long
  | .float _ => .float
  | .double _ => .double
  | .str _ => .str
  | .other _ type => type

/-- `Expr`. What is not folded itself comes as `other`, with the expressions in it. -/
inductive Expr (F D : Type) where
  | literal (l : Literal F D)
  | negate (type : Ty) (operand : Expr F D)
  | binary (type : Ty) (op : Op) (lhs rhs : Expr F D)
  | cast (type : Ty) (target : Expr F D)
  | interpolation (callOk : Bool) (parts : List (Expr F D))
  | other (kind : ℕ) (type : Ty) (operands : List (Expr F D))

def Expr.type : Expr F D → Ty
  | .literal l => l.type
  | .negate type _ => type
  | .binary type _ _ _ => type
  | .cast type _ => type
  | .interpolation _ _ => .str
  | .other _ type _ => type

/-- The expressions that are printed in parts. -/
def Expr.isText : Expr F D → Bool
  | .literal (.str _) => true
  | .interpolation _ _ => true
  | _ => false

/-! ### The folding -/

section Folding

variable (A : Floats F D) (optimize : Bool)

/-- `(Number)value`. -/
def Literal.number : Literal F D → Option (Number F D)
  | .int v => some (.int v)
  | .long v => some (.long v)
  | .time v => some (.long v)
  | .float v => some (.float v)
  | .double v => some (.double v)
  | .str _ => none
  | .other _ _ => none

/-- A literal with the id and type of another one. -/
def Literal.withValue : Literal F D → Number F D → Option (Literal F D)
  | .int _, .int v => some (.int v)
  | .long _, .long v => some (.long v)
  | .time _, .long v => some (.time v)
  | .float _, .float v => some (.float v)
  | .double _, .double v => some (.double v)
  | _, _ => none

/-- `Literal.isZero`. -/
def Literal.isZero : Literal F D → Bool
  | .int v => v == 0
  | .long v => v == 0
  | .time v => v == 0
  | .float v => A.float.isZero v
  | .double v => A.double.isZero v
  | .str _ => false
  | .other _ _ => false

/-- `Literal.negate`. -/
def Literal.negate : Literal F D → Option (Literal F D)
  | .int v => some (.int (-v))
  | .long v => some (.long (-v))
  | .time v => some (.time (-v))
  | .float v => some (.float (A.float.neg v))
  | .double v => some (.double (A.double.neg v))
  | .str _ => none
  | .other _ _ => none

/-- What a folding throws: an exception that `expr` ignores, or the error that it also reports. -/
inductive Failure where
  | ignored
  | divideByZero
deriving DecidableEq

abbrev Folded (F D : Type) := Except Failure (Expr F D)

/-- A literal, if there was no exception. -/
def Folded.ofOption : Option (Literal F D) → Folded F D
  | some l => .ok (.literal l)
  | none => .error .ignored

/-- `fold(Expr.Unary)`. -/
def foldUnary (type : Ty) : Expr F D → Folded F D
  | .literal l => Folded.ofOption (l.negate A)
  | operand => .ok (.negate type operand)

/-- The loop of `fold(Expr.Interpolation)`. -/
def merge (folded : List (Expr F D)) (cur : Expr F D) : List (Expr F D) :=
  match folded.getLast?, cur with
  | some (.literal (.str s)), .literal (.str t) => folded.dropLast ++ [.literal (.str (s ++ t))]
  | _, cur => folded ++ [cur]

/-- `fold(Expr.Interpolation)`. -/
def foldInterpolation (callOk : Bool) (parts : List (Expr F D)) : Folded F D :=
  if !optimize && callOk then .ok (.interpolation callOk parts)
  else
    match parts with
    | .literal (.str s) :: rest =>
      match rest.foldl merge [.literal (.str s)] with
      | [e] => .ok e
      | folded => .ok (.interpolation callOk folded)
    | _ => .error .ignored

/-- `fold(Expr.Cast)`. -/
def foldCast (type : Ty) : Expr F D → Folded F D
  | .literal l =>
    if type.isInteger then
      if !optimize && (type = .byte || type = .short) then .ok (.cast type (.literal l))
      else Folded.ofOption (l.number.map fun n => .int (n.intValue A))
    else if type = .long then Folded.ofOption (l.number.map fun n => .long (n.longValue A))
    else if type = .float then Folded.ofOption (l.number.map fun n => .float (n.floatValue A))
    else if type = .double then Folded.ofOption (l.number.map fun n => .double (n.doubleValue A))
    else .ok (.cast type (.literal l))
  | target => .ok (.cast type target)

/-- The operator on two numbers. -/
def Op.fold : Op → Number F D → Number F D → Option (Number F D)
  | .add => ConstFolding.add A
  | .mul => ConstFolding.mul A
  | .div => ConstFolding.div A
  | .mod => ConstFolding.mod A
  | .sub => ConstFolding.sub A
  | .bitOr => ConstFolding.bitOr A
  | .bitXor => ConstFolding.bitXor A
  | .bitAnd => ConstFolding.bitAnd A
  | .lshift => ConstFolding.lshift A
  | .rshift => ConstFolding.rshift A

def foldLiterals (op : Op) (lhs rhs : Literal F D) : Option (Literal F D) := do
  let r ← rhs.number
  let l ← lhs.number
  let n ← op.fold A l r
  lhs.withValue n

def foldZero (type : Ty) (op : Op) (lhs rhs : Expr F D) : Folded F D :=
  match op with
  | .add | .sub | .bitOr | .bitXor | .lshift | .rshift => .ok lhs
  | .mul | .bitAnd => .ok rhs
  | .div => .error .divideByZero
  | .mod => .ok (.binary type op lhs rhs)

/-- `fold(Expr.Binary)`. -/
def foldBinary (type : Ty) (op : Op) (lhs rhs : Expr F D) : Folded F D :=
  if lhs.type ≠ rhs.type ∧ op.isShift = false then .ok (.binary type op lhs rhs)
  else
    match lhs, rhs with
    | .literal l, .literal r => Folded.ofOption (foldLiterals A op l r)
    | lhs, .literal r =>
      if r.isZero A then foldZero type op lhs (.literal r)
      else .ok (.binary type op lhs (.literal r))
    | lhs, rhs => .ok (.binary type op lhs rhs)

/-- `expr`, for an expression whose operands are folded. There is no result where an error is
reported: the compiler quits after the step. -/
def visit (e : Expr F D) : Option (Expr F D) :=
  let folded := match e with
    | .negate type operand => foldUnary A type operand
    | .interpolation callOk parts => foldInterpolation optimize callOk parts
    | .cast type target => foldCast A optimize type target
    | .binary type op lhs rhs => if optimize then foldBinary A type op lhs rhs else .ok e
    | .literal _ => .ok e
    | .other _ _ _ => .ok e
  match folded with
  | .ok e' => some e'
  | .error .ignored => some e
  | .error .divideByZero => none

mutual

/-- `Expr.walk` with `expr`. -/
def fold : Expr F D → Option (Expr F D)
  | .literal l => visit A optimize (.literal l)
  | .negate type operand => do
    let operand ← fold operand
    visit A optimize (.negate type operand)
  | .binary type op lhs rhs => do
    let lhs ← fold lhs
    let rhs ← fold rhs
    visit A optimize (.binary type op lhs rhs)
  | .cast type target => do
    let target ← fold target
    visit A optimize (.cast type target)
  | .interpolation callOk parts => do
    let parts ← foldAll parts
    visit A optimize (.interpolation callOk parts)
  | .other kind type operands => do
    let operands ← foldAll operands
    visit A optimize (.other kind type operands)

def foldAll : List (Expr F D) → Option (List (Expr F D))
  | [] => some []
  | e :: es => do
    let e ← fold e
    let es ← foldAll es
    some (e :: es)

end

end Folding

/-! ### What an expression does -/

/-- A value of the virtual machine; a bool is an int. -/
inductive Value (F D : Type) where
  | int (v : BitVec 32)
  | long (v : BitVec 64)
  | float (v : F)
  | double (v : D)
  | ref (r : ℕ)

section Svm

variable (A : Floats F D)

/-- `IntAdd`, `LongAdd` and the other opcodes on two integers of one type. The quotient of the least
integer and -1 has no room. -/
def svmInt {w : ℕ} (op : Op) (a b : BitVec w) : Option (BitVec w) :=
  match op with
  | .bitOr => some (a ||| b)
  | .bitXor => some (a ^^^ b)
  | .bitAnd => some (a &&& b)
  | .mul => some (a * b)
  | .add => some (a + b)
  | .sub => some (a - b)
  | .div => if b = 0 ∨ a = BitVec.intMin w ∧ b = -1 then none else some (a.sdiv b)
  | .mod => if b = 0 ∨ a = BitVec.intMin w ∧ b = -1 then none else some (a.srem b)
  | .lshift => none
  | .rshift => none

/-- `IntShiftL`, `LongShiftL` and the shifts to the right, of fewer places than there are. -/
def svmShift {w : ℕ} (op : Op) (a : BitVec w) (b : BitVec 32) : Option (BitVec w) :=
  match op with
  | .lshift => if b.toNat < w then some (a <<< b.toNat) else none
  | .rshift => if b.toNat < w then some (a.sshiftRight b.toNat) else none
  | _ => none

/-- `FloatAdd`, `DoubleAdd` and the other opcodes on floating point numbers. -/
def svmFloating {R : Type} (R' : Floating R) (op : Op) (a b : R) : Option R :=
  match op with
  | .mul => some (R'.mul a b)
  | .div => some (R'.div a b)
  | .add => some (R'.add a b)
  | .sub => some (R'.sub a b)
  | _ => none

/-- `CodeAsm.binary`: the opcode by the type of the operands. -/
def svmBinary (op : Op) : Value F D → Value F D → Option (Value F D)
  | .int a, .int b => (if op.isShift then svmShift op a b else svmInt op a b).map .int
  | .long a, .int b => if op.isShift then (svmShift op a b).map .long else none
  | .long a, .long b => (svmInt op a b).map .long
  | .float a, .float b => (svmFloating A.float op a b).map .float
  | .double a, .double b => (svmFloating A.double op a b).map .double
  | _, _ => none

/-- `CodeAsm.unary` with `NEGATE`. -/
def svmNegate : Value F D → Option (Value F D)
  | .int v => some (.int (-v))
  | .long v => some (.long (-v))
  | .float v => some (.float (A.float.neg v))
  | .double v => some (.double (A.double.neg v))
  | .ref _ => none

/-- `CodeAsm.castOpcode`; a cast to an integer type is a cast to int. -/
def svmCast (type : Ty) : Value F D → Option (Value F D)
  | .int v =>
    if type.isInteger then some (.int v)
    else if type = .long then some (.long (v.signExtend 64))
    else if type = .float then some (.float (A.float.ofInt v))
    else if type = .double then some (.double (A.double.ofInt v))
    else some (.int v)
  | .long v =>
    if type.isInteger then some (.int (v.setWidth 32))
    else if type = .long then some (.long v)
    else if type = .float then some (.float (A.float.ofLong v))
    else if type = .double then some (.double (A.double.ofLong v))
    else none
  | .float v =>
    if type.isInteger then (A.float.toInt v).map .int
    else if type = .long then (A.float.toLong v).map .long
    else if type = .float then some (.float v)
    else if type = .double then some (.double (A.toDouble v))
    else none
  | .double v =>
    if type.isInteger then (A.double.toInt v).map .int
    else if type = .long then (A.double.toLong v).map .long
    else if type = .float then some (.float (A.toFloat v))
    else if type = .double then some (.double v)
    else none
  | .ref r => some (.ref r)

end Svm

/-- A character of a text that is printed, or something that is evaluated and printed. -/
abbrev Piece (F D σ : Type) := Char ⊕ Partly σ (Value F D)

/-- The pieces of one text are those of the other one, or refined by them. -/
abbrev PiecesRefine : List (Piece F D σ) → List (Piece F D σ) → Prop :=
  List.Forall₂ (Sum.LiftRel Eq Refines)

/-- The runtime: the numbers, the other literals, and the other expressions, which decide themselves
what they evaluate of their operands and in which order. A text is printed character by character
where it is passed. -/
structure Machine (F D σ : Type) where
  numbers : Floats F D
  literal : ℕ → Value F D
  text : List (Piece F D σ) → Partly σ (Value F D)
  other : ℕ → List (Partly σ (Value F D)) → Partly σ (Value F D)
  text_mono : ∀ {ps qs}, PiecesRefine ps qs → Refines (text ps) (text qs)
  other_mono : ∀ k {xs ys}, List.Forall₂ Refines xs ys → Refines (other k xs) (other k ys)

def Number.value : Number F D → Value F D
  | .int v => .int v
  | .long v => .long v
  | .float v => .float v
  | .double v => .double v

variable (m : Machine F D σ)

/-- `loadLiteral`, `loadLong` and the others. -/
def evalLiteral : Literal F D → Partly σ (Value F D)
  | .int v => pure (.int v)
  | .long v => pure (.long v)
  | .time v => pure (.long v)
  | .float v => pure (.float v)
  | .double v => pure (.double v)
  | .str s => m.text (s.map .inl)
  | .other kind _ => pure (m.literal kind)

mutual

/-- What the code of an expression does. -/
def eval : Expr F D → Partly σ (Value F D)
  | .literal l => evalLiteral m l
  | .negate _ operand => eval operand >>= fun v => StateT.lift (svmNegate m.numbers v)
  | .binary _ op lhs rhs =>
    eval lhs >>= fun a => eval rhs >>= fun b => StateT.lift (svmBinary m.numbers op a b)
  | .cast type target => eval target >>= fun v => StateT.lift (svmCast m.numbers type v)
  | .interpolation _ parts => m.text (pieces parts)
  | .other kind _ operands => m.other kind (evalAll operands)

def evalAll : List (Expr F D) → List (Partly σ (Value F D))
  | [] => []
  | e :: es => eval e :: evalAll es

/-- The parts of a text, with the literals among them and texts in the text taken apart. -/
def pieces : List (Expr F D) → List (Piece F D σ)
  | [] => []
  | .literal (.str s) :: es => s.map .inl ++ pieces es
  | .interpolation _ parts :: es => pieces parts ++ pieces es
  | e :: es => .inr (eval e) :: pieces es

end

end Sedona.ConstFolding
