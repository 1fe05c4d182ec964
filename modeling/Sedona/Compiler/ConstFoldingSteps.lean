import Sedona.Compiler.ConstFolding

/-!
# The Foldings of ConstFolding

What one folding does: the literal of two literals, of a cast or of a negation has the value that
the virtual machine computes, where it computes one, an operand behind a zero is kept or dropped,
and a text stays the same text.

## Main results

* `Op.fold_value`: an operator on two literals.
* `refines_foldUnary`, `refines_foldCast`, `refines_foldBinary`: the folded expression has every
  result of the expression.
* `foldInterpolation_spec`: a folded text.
-/

open Definedness

namespace Sedona.ConstFolding

variable {F D σ : Type}

/-! ### Two numbers -/

section Numbers

variable {A : Floats F D} {op : Op} {a b n : Number F D} {v : Value F D}

theorem arithmetic_value {intOp : BitVec 32 → BitVec 32 → Option (BitVec 32)}
    {longOp : BitVec 64 → BitVec 64 → Option (BitVec 64)} {floatOp : F → F → F}
    {doubleOp : D → D → D} (hn : arithmetic A intOp longOp floatOp doubleOp a b = some n)
    (hv : svmBinary A op a.value b.value = some v) (hop : op.isShift = false)
    (hint : ∀ x y r z, intOp x y = some r → svmInt op x y = some z → r = z)
    (hlong : ∀ x y r z, longOp x y = some r → svmInt op x y = some z → r = z)
    (hfloat : ∀ x y z, svmFloating A.float op x y = some z → floatOp x y = z)
    (hdouble : ∀ x y z, svmFloating A.double op x y = some z → doubleOp x y = z) :
    n.value = v := by
  rcases a with x | x | x | x <;> rcases b with y | y | y | y <;>
    simp only [Number.value, svmBinary, hop, Bool.false_eq_true, if_false, reduceCtorEq,
      Option.map_eq_some_iff] at hv
  · obtain ⟨z, hz, rfl⟩ := hv
    obtain ⟨r, hr, rfl⟩ := Option.map_eq_some_iff.mp hn
    exact congrArg Value.int (hint x y r z hr hz)
  · obtain ⟨z, hz, rfl⟩ := hv
    obtain ⟨r, hr, rfl⟩ := Option.map_eq_some_iff.mp hn
    exact congrArg Value.long (hlong x y r z hr hz)
  · obtain ⟨z, hz, rfl⟩ := hv
    cases hn
    exact congrArg Value.float (hfloat x y z hz)
  · obtain ⟨z, hz, rfl⟩ := hv
    cases hn
    exact congrArg Value.double (hdouble x y z hz)

theorem bitwise_value {intOp : BitVec 32 → BitVec 32 → BitVec 32}
    {longOp : BitVec 64 → BitVec 64 → BitVec 64} (hn : bitwise A intOp longOp a b = some n)
    (hv : svmBinary A op a.value b.value = some v) (hop : op.isShift = false)
    (hint : ∀ x y, svmInt op x y = some (intOp x y))
    (hlong : ∀ x y, svmInt op x y = some (longOp x y)) : n.value = v := by
  rcases a with x | x | x | x
  · rcases b with y | y | y | y <;>
      simp only [Number.value, svmBinary, hop, Bool.false_eq_true, if_false, reduceCtorEq,
        Option.map_eq_some_iff] at hv
    obtain ⟨z, hz, rfl⟩ := hv
    cases hn
    exact congrArg Value.int (Option.some.inj ((hint x y).symm.trans hz))
  · rcases b with y | y | y | y <;>
      simp only [Number.value, svmBinary, hop, Bool.false_eq_true, if_false, reduceCtorEq,
        Option.map_eq_some_iff] at hv
    obtain ⟨z, hz, rfl⟩ := hv
    cases hn
    exact congrArg Value.long (Option.some.inj ((hlong x y).symm.trans hz))
  · cases hn
  · cases hn

theorem shift_value {intOp : BitVec 32 → ℕ → BitVec 32} {longOp : BitVec 64 → ℕ → BitVec 64}
    (hn : shift A intOp longOp a b = some n) (hv : svmBinary A op a.value b.value = some v)
    (hop : op.isShift = true)
    (hint : ∀ x (y : BitVec 32) z, svmShift op x y = some z → intOp x (y.toNat % 32) = z)
    (hlong : ∀ x (y : BitVec 32) z, svmShift op x y = some z → longOp x (y.toNat % 64) = z) :
    n.value = v := by
  have hnone : ∀ x y : BitVec 64, svmInt op x y = none := by
    intro x y
    cases op with
    | lshift => rfl
    | rshift => rfl
    | _ => cases hop
  rcases a with x | x | x | x
  · rcases b with y | y | y | y <;>
      simp only [Number.value, svmBinary, hop, if_true, reduceCtorEq,
        Option.map_eq_some_iff] at hv
    obtain ⟨z, hz, rfl⟩ := hv
    cases hn
    exact congrArg Value.int (hint x y z hz)
  · rcases b with y | y | y | y <;>
      simp only [Number.value, svmBinary, hop, hnone, if_true, reduceCtorEq, false_and,
        exists_false, Option.map_eq_some_iff] at hv
    obtain ⟨z, hz, rfl⟩ := hv
    cases hn
    exact congrArg Value.long (hlong x y z hz)
  · cases hn
  · cases hn

theorem svmShift_eq {w : ℕ} {x z : BitVec w} {y : BitVec 32} (h : svmShift op x y = some z) :
    y.toNat % w = y.toNat ∧
      ((op = .lshift ∧ z = x <<< y.toNat) ∨ (op = .rshift ∧ z = x.sshiftRight y.toNat)) := by
  cases op with
  | lshift =>
    rw [svmShift] at h
    split at h
    · next hlt => exact ⟨Nat.mod_eq_of_lt hlt, .inl ⟨rfl, (Option.some.inj h).symm⟩⟩
    · cases h
  | rshift =>
    rw [svmShift] at h
    split at h
    · next hlt => exact ⟨Nat.mod_eq_of_lt hlt, .inr ⟨rfl, (Option.some.inj h).symm⟩⟩
    · cases h
  | _ => cases h

theorem javaDiv_eq {w : ℕ} {x y r z : BitVec w} (hr : javaDiv x y = some r)
    (hz : svmInt .div x y = some z) : r = z := by
  rw [javaDiv] at hr
  rw [svmInt] at hz
  split at hr
  · cases hr
  · split at hz
    · cases hz
    · exact (Option.some.inj hr).symm.trans (Option.some.inj hz)

theorem javaMod_eq {w : ℕ} {x y r z : BitVec w} (hr : javaMod x y = some r)
    (hz : svmInt .mod x y = some z) : r = z := by
  rw [javaMod] at hr
  rw [svmInt] at hz
  split at hr
  · cases hr
  · split at hz
    · cases hz
    · exact (Option.some.inj hr).symm.trans (Option.some.inj hz)

/-- **An operator on two literals** has the value of the virtual machine, where it has one. -/
theorem Op.fold_value (hn : op.fold A a b = some n)
    (hv : svmBinary A op a.value b.value = some v) : n.value = v := by
  cases op with
  | bitOr => exact bitwise_value hn hv rfl (fun _ _ => rfl) fun _ _ => rfl
  | bitXor => exact bitwise_value hn hv rfl (fun _ _ => rfl) fun _ _ => rfl
  | bitAnd => exact bitwise_value hn hv rfl (fun _ _ => rfl) fun _ _ => rfl
  | lshift =>
    refine shift_value hn hv rfl (fun x y z hz => ?_) fun x y z hz => ?_
    · obtain ⟨hmod, ⟨-, rfl⟩ | ⟨hop, -⟩⟩ := svmShift_eq hz
      · rw [hmod]
      · cases hop
    · obtain ⟨hmod, ⟨-, rfl⟩ | ⟨hop, -⟩⟩ := svmShift_eq hz
      · rw [hmod]
      · cases hop
  | rshift =>
    refine shift_value hn hv rfl (fun x y z hz => ?_) fun x y z hz => ?_
    · obtain ⟨hmod, ⟨hop, -⟩ | ⟨-, rfl⟩⟩ := svmShift_eq hz
      · cases hop
      · rw [hmod]
    · obtain ⟨hmod, ⟨hop, -⟩ | ⟨-, rfl⟩⟩ := svmShift_eq hz
      · cases hop
      · rw [hmod]
  | mul =>
    rw [Op.fold, ConstFolding.mul] at hn
    exact arithmetic_value hn hv rfl (fun _ _ _ _ hr hz => Option.some.inj (hr.symm.trans hz))
      (fun _ _ _ _ hr hz => Option.some.inj (hr.symm.trans hz)) (fun _ _ _ => Option.some.inj)
      fun _ _ _ => Option.some.inj
  | div =>
    exact arithmetic_value hn hv rfl (fun _ _ _ _ => javaDiv_eq) (fun _ _ _ _ => javaDiv_eq)
      (fun _ _ _ => Option.some.inj) fun _ _ _ => Option.some.inj
  | mod =>
    exact arithmetic_value hn hv rfl (fun _ _ _ _ => javaMod_eq) (fun _ _ _ _ => javaMod_eq)
      (fun _ _ _ h => absurd h (Option.some_ne_none _).symm)
      fun _ _ _ h => absurd h (Option.some_ne_none _).symm
  | add =>
    rw [Op.fold, ConstFolding.add] at hn
    exact arithmetic_value hn hv rfl (fun _ _ _ _ hr hz => Option.some.inj (hr.symm.trans hz))
      (fun _ _ _ _ hr hz => Option.some.inj (hr.symm.trans hz)) (fun _ _ _ => Option.some.inj)
      fun _ _ _ => Option.some.inj
  | sub =>
    rw [Op.fold, ConstFolding.sub] at hn
    exact arithmetic_value hn hv rfl (fun _ _ _ _ hr hz => Option.some.inj (hr.symm.trans hz))
      (fun _ _ _ _ hr hz => Option.some.inj (hr.symm.trans hz)) (fun _ _ _ => Option.some.inj)
      fun _ _ _ => Option.some.inj

end Numbers

/-! ### Literals -/

section Literals

variable {m : Machine F D σ} {l l' : Literal F D} {n : Number F D} {v : Value F D}

theorem evalLiteral_of_number (h : l.number = some n) : evalLiteral m l = pure n.value := by
  cases l with
  | str => cases h
  | other => cases h
  | _ =>
    obtain rfl := Option.some.inj h
    rfl

theorem Literal.number_withValue (h : l.withValue n = some l') : l'.number = some n := by
  rw [Literal.withValue.eq_def] at h
  split at h
  · cases h
    rfl
  · cases h
    rfl
  · cases h
    rfl
  · cases h
    rfl
  · cases h
    rfl
  · cases h

/-- A negated literal. -/
theorem Literal.negate_value (h : l.negate m.numbers = some l') :
    ∃ n n' : Number F D, l.number = some n ∧ l'.number = some n' ∧
      svmNegate m.numbers n.value = some n'.value := by
  cases l with
  | str => cases h
  | other => cases h
  | _ =>
    cases h
    exact ⟨_, _, rfl, rfl, rfl⟩

variable {type : Ty} {A : Floats F D}

/-- A cast to an integer type, and to the other types of numbers. -/
theorem svmCast_integer (htype : type.isInteger = true) (h : svmCast A type n.value = some v) :
    v = .int (n.intValue A) := by
  cases n with
  | int x =>
    rw [Number.value, svmCast, if_pos htype] at h
    exact (Option.some.inj h).symm
  | long x =>
    rw [Number.value, svmCast, if_pos htype] at h
    exact (Option.some.inj h).symm
  | float x =>
    rw [Number.value, svmCast, if_pos htype] at h
    obtain ⟨i, hi, rfl⟩ := Option.map_eq_some_iff.mp h
    exact congrArg Value.int (A.float.intValue_eq hi).symm
  | double x =>
    rw [Number.value, svmCast, if_pos htype] at h
    obtain ⟨i, hi, rfl⟩ := Option.map_eq_some_iff.mp h
    exact congrArg Value.int (A.double.intValue_eq hi).symm

theorem svmCast_long (h : svmCast A .long n.value = some v) : v = .long (n.longValue A) := by
  cases n with
  | int x => exact (Option.some.inj h).symm
  | long x => exact (Option.some.inj h).symm
  | float x =>
    obtain ⟨i, hi, rfl⟩ := Option.map_eq_some_iff.mp h
    exact congrArg Value.long (A.float.longValue_eq hi).symm
  | double x =>
    obtain ⟨i, hi, rfl⟩ := Option.map_eq_some_iff.mp h
    exact congrArg Value.long (A.double.longValue_eq hi).symm

theorem svmCast_float (h : svmCast A .float n.value = some v) : v = .float (n.floatValue A) := by
  cases n <;> exact (Option.some.inj h).symm

theorem svmCast_double (h : svmCast A .double n.value = some v) :
    v = .double (n.doubleValue A) := by
  cases n <;> exact (Option.some.inj h).symm

end Literals

/-! ### One folding -/

section Foldings

variable {m : Machine F D σ} {A : Floats F D} {optimize : Bool} {type : Ty} {op : Op}
  {e e' lhs rhs : Expr F D} {l r z : Literal F D}

theorem ofOption_eq_ok {o : Option (Literal F D)} (h : Folded.ofOption o = .ok e') :
    ∃ l, o = some l ∧ e' = .literal l := by
  cases o with
  | none => cases h
  | some l =>
    cases h
    exact ⟨l, rfl, rfl⟩

theorem refines_foldUnary (h : foldUnary m.numbers type e = .ok e') :
    Refines (eval m (.negate type e)) (eval m e') := by
  rw [foldUnary.eq_def] at h
  split at h
  · next l =>
    obtain ⟨l', hl', rfl⟩ := ofOption_eq_ok h
    obtain ⟨n, n', hn, hn', hneg⟩ := Literal.negate_value hl'
    rw [eval, eval, eval, evalLiteral_of_number hn, evalLiteral_of_number hn', pure_bind, hneg]
    exact Refines.refl _
  · cases h
    exact Refines.refl _

/-- A cast of a literal to a type of numbers. -/
theorem refines_cast {f : Number F D → Literal F D} (h : Folded.ofOption (l.number.map f) = .ok e')
    (hf : ∀ n v, svmCast m.numbers type n.value = some v →
      ∃ n', (f n).number = some n' ∧ n'.value = v) :
    Refines (eval m (.cast type (.literal l))) (eval m e') := by
  obtain ⟨l', hl', rfl⟩ := ofOption_eq_ok h
  obtain ⟨n, hn, rfl⟩ := Option.map_eq_some_iff.mp hl'
  rw [eval, eval, eval, evalLiteral_of_number hn, pure_bind]
  rintro s ⟨v, s'⟩ hs
  obtain ⟨hcast, rfl⟩ := lift_eq_some.mp hs
  obtain ⟨n', hn', rfl⟩ := hf n v hcast
  rw [evalLiteral_of_number hn']
  rfl

theorem refines_foldCast (h : foldCast m.numbers optimize type e = .ok e') :
    Refines (eval m (.cast type e)) (eval m e') := by
  rw [foldCast.eq_def] at h
  split at h
  · next l =>
    split_ifs at h with hint hbyte hlong hfloat hdouble
    · cases h
      exact Refines.refl _
    · exact refines_cast h fun n v hv => ⟨_, rfl, (svmCast_integer hint hv).symm⟩
    · subst hlong
      exact refines_cast h fun n v hv => ⟨_, rfl, (svmCast_long hv).symm⟩
    · subst hfloat
      exact refines_cast h fun n v hv => ⟨_, rfl, (svmCast_float hv).symm⟩
    · subst hdouble
      exact refines_cast h fun n v hv => ⟨_, rfl, (svmCast_double hv).symm⟩
    · cases h
      exact Refines.refl _
  · cases h
    exact Refines.refl _

/-- Two literals. -/
theorem refines_foldLiterals (h : foldLiterals m.numbers op l r = some z) :
    Refines (eval m (.binary type op (.literal l) (.literal r))) (eval m (.literal z)) := by
  obtain ⟨b, hb, h⟩ := Option.bind_eq_some_iff.mp h
  obtain ⟨a, ha, h⟩ := Option.bind_eq_some_iff.mp h
  obtain ⟨n, hn, hz⟩ := Option.bind_eq_some_iff.mp h
  rw [eval, eval, eval, eval, evalLiteral_of_number ha, evalLiteral_of_number hb,
    evalLiteral_of_number (Literal.number_withValue hz), pure_bind, pure_bind]
  rintro s ⟨v, s'⟩ hs
  obtain ⟨hv, rfl⟩ := lift_eq_some.mp hs
  rw [Op.fold_value hn hv]
  rfl

/-- What `z` is for the operators that are folded with a zero. -/
def Floating.Neutral {R : Type} (R' : Floating R) (op : Op) (x z : R) : Prop :=
  match op with
  | .mul => R'.mul x z = z
  | .add => R'.add x z = x
  | .sub => R'.sub x z = x
  | _ => True

variable (m) in
/-- Nothing is lost when the operator with the zero `z` on the right of `lhs` is dropped. -/
structure ZeroSafe (op : Op) (lhs : Expr F D) (z : Literal F D) : Prop where
  number : op.isShift = true → lhs.isText = false
  still : op = .mul ∨ op = .bitAnd → Still (eval m lhs)
  float : ∀ a, z = .float a → ∀ s x s', eval m lhs s = some (.float x, s') →
    m.numbers.float.Neutral op x a
  double : ∀ a, z = .double a → ∀ s x s', eval m lhs s = some (.double x, s') →
    m.numbers.double.Neutral op x a

/-- An operator on an integer and a zero: it absorbs the integer or keeps it. -/
theorem svmInt_zero {w : ℕ} {x y : BitVec w} (h : svmInt op x 0 = some y) :
    y = if op = .mul ∨ op = .bitAnd then 0 else x := by
  cases op with
  | bitOr => exact (Option.some.inj h).symm.trans BitVec.or_zero
  | bitXor => exact (Option.some.inj h).symm.trans BitVec.xor_zero
  | bitAnd => exact (Option.some.inj h).symm.trans BitVec.and_zero
  | mul => exact (Option.some.inj h).symm.trans BitVec.mul_zero
  | add => exact (Option.some.inj h).symm.trans (BitVec.add_zero x)
  | sub => exact (Option.some.inj h).symm.trans (BitVec.sub_zero x)
  | div =>
    rw [svmInt, if_pos (.inl rfl)] at h
    cases h
  | mod =>
    rw [svmInt, if_pos (.inl rfl)] at h
    cases h
  | lshift => cases h
  | rshift => cases h

theorem svmShift_zero {w : ℕ} {x y : BitVec w} (h : svmShift op x 0 = some y) : y = x := by
  obtain ⟨-, ⟨-, rfl⟩ | ⟨-, rfl⟩⟩ := svmShift_eq h
  · exact BitVec.shiftLeft_zero x
  · exact BitVec.sshiftRight_zero

theorem svmFloating_zero {R : Type} {R' : Floating R} {x a y : R} (ha : R'.Neutral op x a)
    (hop : op ≠ .div) (h : svmFloating R' op x a = some y) :
    y = if op = .mul ∨ op = .bitAnd then a else x := by
  cases op with
  | mul => exact (Option.some.inj h).symm.trans ha
  | add => exact (Option.some.inj h).symm.trans ha
  | sub => exact (Option.some.inj h).symm.trans ha
  | div => exact absurd rfl hop
  | _ => cases h

/-- What an operator with a zero on the right yields. -/
theorem svmBinary_zero {v w : Value F D} {n : Number F D} (hz : z.isZero A = true)
    (hn : z.number = some n) (hop : op ≠ .div)
    (hfloat : ∀ a x, z = .float a → v = .float x → A.float.Neutral op x a)
    (hdouble : ∀ a x, z = .double a → v = .double x → A.double.Neutral op x a)
    (h : svmBinary A op v n.value = some w) :
    w = if op = .mul ∨ op = .bitAnd then n.value else v := by
  have hlong : ∀ y : BitVec 64, (y == 0) = true → svmBinary A op v (.long y) = some w →
      w = if op = .mul ∨ op = .bitAnd then .long y else v := by
    intro y hy hw
    obtain rfl : y = 0 := eq_of_beq hy
    cases v with
    | long x =>
      obtain ⟨b, hb, rfl⟩ := Option.map_eq_some_iff.mp hw
      rw [svmInt_zero hb]
      split <;> rfl
    | _ => cases hw
  cases z with
  | int y =>
    cases hn
    obtain rfl : y = 0 := eq_of_beq hz
    cases v with
    | int x =>
      obtain ⟨b, hb, rfl⟩ := Option.map_eq_some_iff.mp h
      split at hb
      · next hshift =>
        rw [svmShift_zero hb, if_neg]
        rintro (rfl | rfl) <;> cases hshift
      · rw [svmInt_zero hb]
        split <;> rfl
    | long x =>
      rw [Number.value, svmBinary] at h
      split at h
      · next hshift =>
        obtain ⟨b, hb, rfl⟩ := Option.map_eq_some_iff.mp h
        rw [svmShift_zero hb, if_neg]
        rintro (rfl | rfl) <;> cases hshift
      · cases h
    | _ => cases h
  | long y =>
    cases hn
    exact hlong y hz h
  | time y =>
    cases hn
    exact hlong y hz h
  | float y =>
    cases hn
    cases v with
    | float x =>
      obtain ⟨b, hb, rfl⟩ := Option.map_eq_some_iff.mp h
      rw [svmFloating_zero (hfloat y x rfl rfl) hop hb]
      split <;> rfl
    | _ => cases h
  | double y =>
    cases hn
    cases v with
    | double x =>
      obtain ⟨b, hb, rfl⟩ := Option.map_eq_some_iff.mp h
      rw [svmFloating_zero (hdouble y x rfl rfl) hop hb]
      split <;> rfl
    | _ => cases h
  | str => cases hn
  | other => cases hn

theorem number_of_isZero (h : z.isZero A = true) : ∃ n, z.number = some n := by
  cases z with
  | str => cases h
  | other => cases h
  | _ => exact ⟨_, rfl⟩

/-- What `foldZero` returns. -/
theorem foldZero_eq_ok (h : foldZero type op lhs rhs = .ok e') :
    op ≠ .div ∧ (e' = .binary type op lhs rhs ∨
      e' = if op = .mul ∨ op = .bitAnd then rhs else lhs) := by
  cases op with
  | div => cases h
  | mod =>
    cases h
    exact ⟨Op.noConfusion, .inl rfl⟩
  | _ =>
    cases h
    exact ⟨Op.noConfusion, .inr rfl⟩

/-- A zero on the right. -/
theorem refines_foldZero (hz : z.isZero m.numbers = true) (hsafe : ZeroSafe m op lhs z)
    (h : foldZero type op lhs (.literal z) = .ok e') :
    Refines (eval m (.binary type op lhs (.literal z))) (eval m e') := by
  obtain ⟨hop, rfl | rfl⟩ := foldZero_eq_ok h
  · exact Refines.refl _
  · obtain ⟨n, hn⟩ := number_of_isZero hz
    rintro s ⟨w, s'⟩ hs
    rw [eval] at hs
    obtain ⟨v, t, hv, hs⟩ := bind_eq_some.mp hs
    rw [eval, evalLiteral_of_number hn, pure_bind] at hs
    obtain ⟨hw, rfl⟩ := lift_eq_some.mp hs
    have hval := svmBinary_zero hz hn hop (fun a x ha hx => hsafe.float a ha s x _ (hx ▸ hv))
      (fun a x ha hx => hsafe.double a ha s x _ (hx ▸ hv)) hw
    split
    · next hdrop =>
      rw [if_pos hdrop] at hval
      rw [eval, evalLiteral_of_number hn, hsafe.still hdrop s v _ hv, hval]
      rfl
    · next hkeep =>
      rw [if_neg hkeep] at hval
      rw [hval, hv]

/-- Two operands. -/
theorem refines_foldBinary
    (hsafe : ∀ z, rhs = .literal z → z.isZero m.numbers = true → ZeroSafe m op lhs z)
    (h : foldBinary m.numbers type op lhs rhs = .ok e') :
    Refines (eval m (.binary type op lhs rhs)) (eval m e') := by
  rw [foldBinary.eq_def] at h
  split at h
  · cases h
    exact Refines.refl _
  · split at h
    · obtain ⟨z, hz, rfl⟩ := ofOption_eq_ok h
      exact refines_foldLiterals hz
    · next r _ _ =>
      split at h
      · next hzero => exact refines_foldZero hzero (hsafe r rfl hzero) h
      · cases h
        exact Refines.refl _
    · cases h
      exact Refines.refl _

/-! ### The parts of a text -/

theorem pieces_cons (e : Expr F D) (es : List (Expr F D)) :
    pieces m (e :: es) = pieces m [e] ++ pieces m es := by
  cases e with
  | literal l =>
    cases l with
    | str s => rw [pieces, pieces, pieces, List.append_nil]
    | _ => rfl
  | interpolation callOk parts => rw [pieces, pieces, pieces, List.append_nil]
  | _ => rfl

theorem pieces_interpolation (callOk : Bool) (parts : List (Expr F D)) :
    pieces m [.interpolation callOk parts] = pieces m parts := by
  rw [pieces, pieces, List.append_nil]

theorem pieces_append (es es' : List (Expr F D)) :
    pieces m (es ++ es') = pieces m es ++ pieces m es' := by
  induction es with
  | nil => rw [List.nil_append, pieces, List.nil_append]
  | cons e es ih => rw [List.cons_append, pieces_cons, ih, ← List.append_assoc, ← pieces_cons]

/-- Two texts. -/
def BothStrings (e e' : Expr F D) : Prop := ∃ s t, e = .literal (.str s) ∧ e' = .literal (.str t)

/-- What `merge` does: it adds a part, or puts a text behind the last one. -/
theorem merge_cases (folded : List (Expr F D)) (cur : Expr F D) :
    (merge folded cur = folded ++ [cur] ∧ ∀ e ∈ folded.getLast?, ¬ BothStrings e cur) ∨
    ∃ es s t, folded = es ++ [.literal (.str s)] ∧ cur = .literal (.str t) ∧
      merge folded cur = es ++ [.literal (.str (s ++ t))] := by
  rw [merge.eq_def]
  split
  · next s t hlast =>
    obtain ⟨es, rfl⟩ := List.getLast?_eq_some_iff.mp hlast
    rw [List.dropLast_concat]
    exact .inr ⟨es, s, t, rfl, rfl, rfl⟩
  · next hne =>
    refine .inl ⟨rfl, fun e he hboth => ?_⟩
    obtain ⟨s, t, rfl, rfl⟩ := hboth
    exact hne s t he rfl

/-- The pieces stay the same. -/
theorem pieces_merge (folded : List (Expr F D)) (cur : Expr F D) :
    pieces m (merge folded cur) = pieces m folded ++ pieces m [cur] := by
  obtain ⟨hadd, -⟩ | ⟨es, s, t, rfl, rfl, hmerge⟩ := merge_cases folded cur
  · rw [hadd, pieces_append]
  · rw [hmerge, pieces_append, pieces_append, List.append_assoc]
    simp only [pieces, List.map_append, List.append_nil]

theorem pieces_foldl_merge (folded rest : List (Expr F D)) :
    pieces m (rest.foldl merge folded) = pieces m folded ++ pieces m rest := by
  induction rest generalizing folded with
  | nil => rw [List.foldl_nil, pieces, List.append_nil]
  | cons cur rest ih =>
    rw [List.foldl_cons, ih, pieces_merge, List.append_assoc, ← pieces_cons]

/-- The first part is a text. -/
def StartsWithText (es : List (Expr F D)) : Prop := ∃ s es', es = .literal (.str s) :: es'

theorem startsWithText_merge {folded : List (Expr F D)} (h : StartsWithText folded)
    (cur : Expr F D) : StartsWithText (merge folded cur) := by
  obtain ⟨s, es', rfl⟩ := h
  obtain ⟨hadd, -⟩ | ⟨es, a, b, hes, rfl, hmerge⟩ := merge_cases (.literal (.str s) :: es') cur
  · exact ⟨s, es' ++ [cur], hadd⟩
  · rw [hmerge]
    cases es with
    | nil => exact ⟨a ++ b, [], rfl⟩
    | cons e es =>
      obtain ⟨rfl, -⟩ := List.cons.inj hes
      exact ⟨s, es ++ [.literal (.str (a ++ b))], rfl⟩

theorem startsWithText_foldl_merge {folded : List (Expr F D)} (h : StartsWithText folded)
    (rest : List (Expr F D)) : StartsWithText (rest.foldl merge folded) := by
  induction rest generalizing folded with
  | nil => exact h
  | cons cur rest ih => exact ih (startsWithText_merge h cur)

/-- A folded text: it is printed as before. -/
theorem foldInterpolation_spec {callOk : Bool} {parts : List (Expr F D)}
    (h : foldInterpolation optimize callOk parts = .ok e') :
    eval m e' = eval m (.interpolation callOk parts) ∧ pieces m [e'] = pieces m parts := by
  rw [foldInterpolation.eq_def] at h
  split at h
  · cases h
    exact ⟨rfl, pieces_interpolation callOk parts⟩
  · split at h
    · next s rest =>
      have hpieces := pieces_foldl_merge (m := m) [.literal (.str s)] rest
      have hstart := startsWithText_foldl_merge ⟨s, [], rfl⟩ rest
      rw [← pieces_cons] at hpieces
      split at h
      · next e hsingle =>
        cases h
        rw [hsingle] at hpieces hstart
        obtain ⟨t, es, ht⟩ := hstart
        obtain ⟨rfl, -⟩ := List.cons.inj ht
        refine ⟨?_, hpieces⟩
        rw [eval, evalLiteral, eval, ← hpieces, pieces, pieces, List.append_nil]
      · cases h
        refine ⟨?_, ?_⟩
        · rw [eval, eval, hpieces]
        · rw [pieces_interpolation, hpieces]
    · cases h

/-! ### All expressions -/

theorem isText_foldUnary (h : foldUnary A type e = .ok e') : e'.isText = false := by
  rw [foldUnary.eq_def] at h
  split at h
  · next l =>
    obtain ⟨l', hl', rfl⟩ := ofOption_eq_ok h
    cases l with
    | str => cases hl'
    | other => cases hl'
    | _ =>
      cases hl'
      rfl
  · cases h
    rfl

theorem isText_ofOption {f : Number F D → Literal F D} {o : Option (Number F D)}
    (h : Folded.ofOption (o.map f) = .ok e') (hf : ∀ n, (Expr.literal (f n)).isText = false) :
    e'.isText = false := by
  obtain ⟨l', hl', rfl⟩ := ofOption_eq_ok h
  obtain ⟨n, -, rfl⟩ := Option.map_eq_some_iff.mp hl'
  exact hf n

theorem isText_foldCast (h : foldCast A optimize type e = .ok e') : e'.isText = false := by
  rw [foldCast.eq_def] at h
  split at h
  · split_ifs at h
    · cases h
      rfl
    · exact isText_ofOption h fun _ => rfl
    · exact isText_ofOption h fun _ => rfl
    · exact isText_ofOption h fun _ => rfl
    · exact isText_ofOption h fun _ => rfl
    · cases h
      rfl
  · cases h
    rfl

theorem isText_of_number {n : Number F D} (h : z.number = some n) :
    (Expr.literal z).isText = false := by
  cases z with
  | str => cases h
  | _ => rfl

theorem type_of_isText (h : e.isText = true) : e.type = .str := by
  cases e with
  | literal l =>
    cases l with
    | str => rfl
    | _ => cases h
  | interpolation => rfl
  | _ => cases h

theorem type_of_isZero (h : z.isZero A = true) : z.type ≠ .str := by
  cases z with
  | str => cases h
  | other => cases h
  | _ => exact Ty.noConfusion

/-- A text is nothing that an operator is folded to. -/
theorem isText_foldBinary (h : foldBinary A type op lhs rhs = .ok e')
    (hsafe : ∀ z, rhs = .literal z → z.isZero A = true → op.isShift = true → lhs.isText = false) :
    e'.isText = false := by
  rw [foldBinary.eq_def] at h
  split at h
  · cases h
    rfl
  · next htype =>
    split at h
    · next l r =>
      obtain ⟨z, hz, rfl⟩ := ofOption_eq_ok h
      obtain ⟨b, -, hz⟩ := Option.bind_eq_some_iff.mp hz
      obtain ⟨a, -, hz⟩ := Option.bind_eq_some_iff.mp hz
      obtain ⟨n, -, hz⟩ := Option.bind_eq_some_iff.mp hz
      exact isText_of_number (Literal.number_withValue hz)
    · next r _ =>
      split at h
      · next hzero =>
        obtain ⟨n, hn⟩ := number_of_isZero hzero
        obtain ⟨-, rfl | rfl⟩ := foldZero_eq_ok h
        · rfl
        · split
          · exact isText_of_number hn
          · cases hshift : op.isShift with
            | true => exact hsafe r rfl hzero hshift
            | false =>
              by_contra htext
              have hstr := type_of_isText (eq_true_of_ne_false htext)
              exact htype ⟨fun heq => type_of_isZero hzero (heq.symm.trans hstr), hshift⟩
      · cases h
        rfl
    · cases h
      rfl

end Foldings

end Sedona.ConstFolding
