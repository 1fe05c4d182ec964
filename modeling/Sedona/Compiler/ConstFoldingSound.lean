import Sedona.Compiler.ConstFoldingSteps

/-!
# Soundness of ConstFolding

A folded expression has the results of the one that it replaces, as long as a factor that is dropped
with a zero leaves the state as it is, and a floating point zero behaves as a zero.

## Main results

* `refines_fold`: the folded expression has every result of the expression.
* `refines_mul_zero_iff`: when a product with zero keeps its meaning.
-/

open Definedness

namespace Sedona.ConstFolding

variable {F D σ : Type}

section Trees

variable (m : Machine F D σ) (optimize : Bool)

mutual

/-- Nothing is lost with a zero anywhere in the expression. -/
def Safe : Expr F D → Prop
  | .literal _ => True
  | .negate _ operand => Safe operand
  | .binary _ op lhs rhs => Safe lhs ∧ Safe rhs ∧ ∀ lhs' z, optimize = true →
      fold m.numbers optimize lhs = some lhs' →
      fold m.numbers optimize rhs = some (.literal z) → z.isZero m.numbers = true →
      ZeroSafe m op lhs' z
  | .cast _ target => Safe target
  | .interpolation _ parts => SafeAll parts
  | .other _ _ operands => SafeAll operands

def SafeAll : List (Expr F D) → Prop
  | [] => True
  | e :: es => Safe e ∧ SafeAll es

end

variable {m optimize} {e e' : Expr F D}

/-- What `visit` returns: the expression itself, or what it is folded to. -/
theorem visit_eq_some {A : Floats F D} (h : visit A optimize e = some e') :
    e' = e ∨
    (∃ type operand, e = .negate type operand ∧ foldUnary A type operand = .ok e') ∨
    (∃ callOk parts, e = .interpolation callOk parts ∧
      foldInterpolation optimize callOk parts = .ok e') ∨
    (∃ type target, e = .cast type target ∧
      foldCast A optimize type target = .ok e') ∨
    ∃ type op lhs rhs, e = .binary type op lhs rhs ∧ optimize = true ∧
      foldBinary A type op lhs rhs = .ok e' := by
  cases e with
  | literal l => exact .inl (Option.some.inj h).symm
  | other kind type operands => exact .inl (Option.some.inj h).symm
  | negate type operand =>
    rw [visit.eq_def] at h
    dsimp only at h
    split at h
    · next hok =>
      obtain rfl := Option.some.inj h
      exact .inr (.inl ⟨type, operand, rfl, hok⟩)
    · exact .inl (Option.some.inj h).symm
    · cases h
  | interpolation callOk parts =>
    rw [visit.eq_def] at h
    dsimp only at h
    split at h
    · next hok =>
      obtain rfl := Option.some.inj h
      exact .inr (.inr (.inl ⟨callOk, parts, rfl, hok⟩))
    · exact .inl (Option.some.inj h).symm
    · cases h
  | cast type target =>
    rw [visit.eq_def] at h
    dsimp only at h
    split at h
    · next hok =>
      obtain rfl := Option.some.inj h
      exact .inr (.inr (.inr (.inl ⟨type, target, rfl, hok⟩)))
    · exact .inl (Option.some.inj h).symm
    · cases h
  | binary type op lhs rhs =>
    rw [visit.eq_def] at h
    dsimp only at h
    cases optimize with
    | false => exact .inl (Option.some.inj h).symm
    | true =>
      rw [if_pos rfl] at h
      split at h
      · next hok =>
        obtain rfl := Option.some.inj h
        exact .inr (.inr (.inr (.inr ⟨type, op, lhs, rhs, rfl, rfl, hok⟩)))
      · exact .inl (Option.some.inj h).symm
      · cases h

theorem PiecesRefine.refl (ps : List (Piece F D σ)) : PiecesRefine ps ps := by
  refine List.forall₂_same.mpr fun p _ => ?_
  cases p with
  | inl c => exact .inl rfl
  | inr x => exact .inr (Refines.refl x)

theorem PiecesRefine.trans {ps qs rs : List (Piece F D σ)} (hpq : PiecesRefine ps qs)
    (hqr : PiecesRefine qs rs) : PiecesRefine ps rs := by
  induction hpq generalizing rs with
  | nil => exact hqr
  | cons hp _ ih =>
    cases hqr with
    | cons hq hqr =>
      refine .cons ?_ (ih hqr)
      cases hp with
      | inl h =>
        cases hq with
        | inl h' => exact .inl (h.trans h')
      | inr h =>
        cases hq with
        | inr h' => exact .inr (h.trans h')

/-- The second expression does what the first one does, also as a part of a text. -/
structure Better (m : Machine F D σ) (e e' : Expr F D) : Prop where
  refines : Refines (eval m e) (eval m e')
  pieces : PiecesRefine (pieces m [e]) (pieces m [e'])

theorem Better.refl (e : Expr F D) : Better m e e := ⟨Refines.refl _, PiecesRefine.refl _⟩

theorem Better.trans {e₁ e₂ e₃ : Expr F D} (h : Better m e₁ e₂) (h' : Better m e₂ e₃) :
    Better m e₁ e₃ :=
  ⟨h.refines.trans h'.refines, PiecesRefine.trans h.pieces h'.pieces⟩

theorem pieces_of_not_text (h : e.isText = false) : pieces m [e] = [.inr (eval m e)] := by
  cases e with
  | literal l =>
    cases l with
    | str => cases h
    | _ => rfl
  | interpolation => cases h
  | _ => rfl

theorem Better.of_not_text (h : Refines (eval m e) (eval m e')) (he : e.isText = false)
    (he' : e'.isText = false) : Better m e e' where
  refines := h
  pieces := by
    rw [pieces_of_not_text he, pieces_of_not_text he']
    exact .cons (.inr h) .nil

variable (m optimize) in
/-- Nothing is lost with a zero on the right of the expression itself. -/
def TopSafe : Expr F D → Prop
  | .binary _ op lhs rhs => ∀ z, optimize = true → rhs = .literal z →
      z.isZero m.numbers = true → ZeroSafe m op lhs z
  | _ => True

/-- **One visit.** -/
theorem better_visit (hvisit : visit m.numbers optimize e = some e')
    (hsafe : TopSafe m optimize e) : Better m e e' := by
  obtain rfl | ⟨type, operand, rfl, h⟩ | ⟨callOk, parts, rfl, h⟩ | ⟨type, target, rfl, h⟩ |
    ⟨type, op, lhs, rhs, rfl, hopt, h⟩ := visit_eq_some hvisit
  · exact Better.refl _
  · exact .of_not_text (refines_foldUnary h) rfl (isText_foldUnary h)
  · obtain ⟨heval, hpieces⟩ := foldInterpolation_spec (m := m) h
    refine ⟨?_, ?_⟩
    · rw [heval]
      exact Refines.refl _
    · rw [hpieces, pieces_interpolation]
      exact PiecesRefine.refl _
  · exact .of_not_text (refines_foldCast h) rfl (isText_foldCast h)
  · exact .of_not_text (refines_foldBinary (fun z => hsafe z hopt) h) rfl
      (isText_foldBinary h fun z hz hzero => (hsafe z hopt hz hzero).number)

mutual

theorem better_fold : (e : Expr F D) → {e' : Expr F D} → Safe m optimize e →
    fold m.numbers optimize e = some e' → Better m e e'
  | .literal l, e', hsafe, h => better_visit h trivial
  | .negate type operand, e', hsafe, h => by
    obtain ⟨x, hx, h⟩ := Option.bind_eq_some_iff.mp h
    have ih := better_fold operand hsafe hx
    refine Better.trans (.of_not_text ?_ rfl rfl) (better_visit h trivial)
    rw [eval, eval]
    exact ih.refines.bind fun v => Refines.refl _
  | .binary type op lhs rhs, e', hsafe, h => by
    obtain ⟨x, hx, h⟩ := Option.bind_eq_some_iff.mp h
    obtain ⟨y, hy, h⟩ := Option.bind_eq_some_iff.mp h
    obtain ⟨hlhs, hrhs, hzero⟩ := hsafe
    have ihx := better_fold lhs hlhs hx
    have ihy := better_fold rhs hrhs hy
    refine Better.trans (.of_not_text ?_ rfl rfl) (better_visit h ?_)
    · rw [eval, eval]
      exact ihx.refines.bind fun a => ihy.refines.bind fun b => Refines.refl _
    · rintro z hopt rfl hz
      exact hzero x z hopt hx hy hz
  | .cast type target, e', hsafe, h => by
    obtain ⟨x, hx, h⟩ := Option.bind_eq_some_iff.mp h
    have ih := better_fold target hsafe hx
    refine Better.trans (.of_not_text ?_ rfl rfl) (better_visit h trivial)
    rw [eval, eval]
    exact ih.refines.bind fun v => Refines.refl _
  | .interpolation callOk parts, e', hsafe, h => by
    obtain ⟨ps, hps, h⟩ := Option.bind_eq_some_iff.mp h
    obtain ⟨-, ih⟩ := better_foldAll parts hsafe hps
    refine Better.trans ⟨?_, ?_⟩ (better_visit h trivial)
    · rw [eval, eval]
      exact m.text_mono ih
    · rw [pieces_interpolation, pieces_interpolation]
      exact ih
  | .other kind type operands, e', hsafe, h => by
    obtain ⟨es, hes, h⟩ := Option.bind_eq_some_iff.mp h
    obtain ⟨ih, -⟩ := better_foldAll operands hsafe hes
    refine Better.trans (.of_not_text ?_ rfl rfl) (better_visit h trivial)
    rw [eval, eval]
    exact m.other_mono kind ih

theorem better_foldAll : (es : List (Expr F D)) → {es' : List (Expr F D)} →
    SafeAll m optimize es → foldAll m.numbers optimize es = some es' →
    List.Forall₂ Refines (evalAll m es) (evalAll m es') ∧ PiecesRefine (pieces m es) (pieces m es')
  | [], es', _, h => by
    cases h
    exact ⟨.nil, PiecesRefine.refl _⟩
  | e :: es, es', hsafe, h => by
    obtain ⟨x, hx, h⟩ := Option.bind_eq_some_iff.mp h
    obtain ⟨xs, hxs, h⟩ := Option.bind_eq_some_iff.mp h
    cases h
    have ih := better_fold e hsafe.1 hx
    obtain ⟨hall, hpieces⟩ := better_foldAll es hsafe.2 hxs
    refine ⟨.cons ih.refines hall, ?_⟩
    rw [pieces_cons, pieces_cons x]
    exact List.rel_append ih.pieces hpieces

end

theorem Still.binary {type : Ty} {op : Op} {lhs rhs : Expr F D} (hlhs : Still (eval m lhs))
    (hrhs : Still (eval m rhs)) : Still (eval m (.binary type op lhs rhs)) := by
  rw [eval]
  exact hlhs.bind fun a => hrhs.bind fun b => Still.lift _

theorem still_literal {l : Literal F D} (h : (Expr.literal l).isText = false) :
    Still (eval m (.literal l)) := by
  rw [eval]
  cases l with
  | str => cases h
  | _ => exact Still.pure _

end Trees

/-! ### A machine -/

/-- Java's conversion to an integer type, which has the nearest integer where there is no room. -/
def clamp (w : ℕ) (x : ℤ) : BitVec w :=
  if x < (BitVec.intMin w).toInt then BitVec.intMin w
  else if (BitVec.intMax w).toInt < x then BitVec.intMax w
  else BitVec.ofInt w x

/-- C's conversion. -/
def narrow (w : ℕ) (x : ℤ) : Option (BitVec w) :=
  if (BitVec.intMin w).toInt ≤ x ∧ x ≤ (BitVec.intMax w).toInt then some (BitVec.ofInt w x)
  else none

theorem clamp_of_narrow {w : ℕ} {x : ℤ} {v : BitVec w} (h : narrow w x = some v) :
    clamp w x = v := by
  rw [narrow] at h
  split at h
  · next hroom =>
    rw [clamp, if_neg (Int.not_lt.mpr hroom.1), if_neg (Int.not_lt.mpr hroom.2)]
    exact Option.some.inj h
  · cases h

/-- The arithmetic of a floating point type on whole numbers that it holds exactly. -/
def whole : Floating ℤ where
  add := (· + ·)
  sub := (· - ·)
  mul := (· * ·)
  div := Int.tdiv
  rem := Int.tmod
  neg := (- ·)
  isZero := (· == 0)
  ofInt := BitVec.toInt
  ofLong := BitVec.toInt
  intValue := clamp 32
  longValue := clamp 64
  toInt := narrow 32
  toLong := narrow 64
  intValue_eq := clamp_of_narrow
  longValue_eq := clamp_of_narrow

/-- A machine on one int: the expression of kind 0 reads it, and the one of kind 1 counts it up and
returns it. -/
def counter : Machine ℤ ℤ (BitVec 32) where
  numbers := ⟨whole, whole, id, id⟩
  literal _ := .int 0
  text _ := pure (.ref 0)
  other k _ s := some (.int s, if k = 0 then s else s + 1)
  text_mono _ := Refines.refl _
  other_mono _ _ _ _ := Refines.refl _

/-- `(x + 1) * 0 + 2 * 3`. -/
def sample : Expr ℤ ℤ :=
  .binary .int .add
    (.binary .int .mul (.binary .int .add (.other 0 .int []) (.literal (.int 1)))
      (.literal (.int 0)))
    (.binary .int .mul (.literal (.int 2)) (.literal (.int 3)))

theorem still_read : Still (eval counter (.other 0 .int [])) := by
  intro s v s' h
  exact (Prod.mk.inj (Option.some.inj h)).2.symm

theorem zeroSafe_of_int {op : Op} {lhs : Expr ℤ ℤ} {v : BitVec 32} (hop : op.isShift = false)
    (hstill : Still (eval counter lhs)) : ZeroSafe counter op lhs (.int v) where
  number h := absurd h (by rw [hop]; exact Bool.false_ne_true)
  still _ := hstill
  float a ha := by cases ha
  double a ha := by cases ha

theorem safe_sample : Safe counter true sample := by
  refine ⟨⟨⟨trivial, trivial, ?_⟩, trivial, ?_⟩, ⟨trivial, trivial, ?_⟩, ?_⟩
  · rintro lhs' z - - hz hzero
    cases hz
    cases hzero
  · rintro lhs' z - hlhs hz -
    cases hlhs
    cases hz
    exact zeroSafe_of_int rfl (Still.binary still_read (still_literal rfl))
  · rintro lhs' z - - hz hzero
    cases hz
    cases hzero
  · rintro lhs' z - - hz hzero
    cases hz
    cases hzero

/-! ### The results -/

section Results

variable {m : Machine F D σ} {optimize : Bool} {e e' : Expr F D}

/-- **The folded expression has every result of the expression**, if nothing is lost with a zero. -/
theorem refines_fold (hsafe : Safe m optimize e) (h : fold m.numbers optimize e = some e') :
    Refines (eval m e) (eval m e') :=
  (better_fold e hsafe h).refines

theorem refines_fold_sample :
    Refines (eval counter sample) (eval counter (.literal (.int 6))) :=
  refines_fold safe_sample rfl

/-- What is a literal, and what is not. -/
theorem literal_or (e : Expr F D) : (∃ l, e = .literal l) ∨ ∀ l, e ≠ .literal l := by
  cases e with
  | literal l => exact .inl ⟨l, rfl⟩
  | _ =>
    refine .inr fun l h => ?_
    cases h

theorem foldBinary_int_zero {A : Floats F D} {type : Ty} {op : Op} {x : Expr F D}
    (hx : ∀ l, x ≠ .literal l) (htype : x.type = .int) :
    foldBinary A type op x (.literal (.int 0)) = foldZero type op x (.literal (.int 0)) := by
  cases x with
  | literal l => exact absurd rfl (hx l)
  | _ =>
    rw [foldBinary.eq_def, if_neg fun h => h.1 htype]
    exact if_pos rfl

/-- **A product with zero keeps its meaning** if and only if the other factor leaves the state as it
is. -/
theorem refines_mul_zero_iff {type : Ty} {op : Op} {x : Expr F D}
    (hop : op = .mul ∨ op = .bitAnd) (htype : x.type = .int)
    (hint : ∀ s v s', eval m x s = some (v, s') → ∃ i, v = .int i)
    (h : visit m.numbers true (.binary type op x (.literal (.int 0))) = some e') :
    Refines (eval m (.binary type op x (.literal (.int 0)))) (eval m e') ↔ Still (eval m x) := by
  have hshift : op.isShift = false := by
    obtain rfl | rfl := hop
    · rfl
    · rfl
  constructor
  · intro hrefines s v s' hv
    obtain ⟨l, rfl⟩ | hx := literal_or x
    · refine still_literal ?_ s v s' hv
      by_contra htext
      rw [type_of_isText (eq_true_of_ne_false htext)] at htype
      cases htype
    · have hvisit : visit m.numbers true (.binary type op x (.literal (.int 0))) =
          some (.literal (.int 0)) := by
        rw [visit.eq_def]
        dsimp only
        rw [if_pos rfl, foldBinary_int_zero hx htype]
        obtain rfl | rfl := hop
        · rfl
        · rfl
      obtain rfl := Option.some.inj (hvisit.symm.trans h)
      obtain ⟨i, rfl⟩ := hint s v s' hv
      have hbinary : ∃ w, eval m (.binary type op x (.literal (.int 0))) s = some (w, s') := by
        rw [eval, bind_of_some hv]
        obtain rfl | rfl := hop
        · exact ⟨_, rfl⟩
        · exact ⟨_, rfl⟩
      obtain ⟨w, hw⟩ := hbinary
      have hzero := hrefines s _ hw
      rw [eval, evalLiteral] at hzero
      exact (Prod.mk.inj (Option.some.inj hzero)).2.symm
  · intro hstill
    refine (better_visit h ?_).refines
    rintro z - hz -
    cases hz
    exact {
      number := fun h => absurd h (by rw [hshift]; exact Bool.false_ne_true)
      still := fun _ => hstill
      float := fun a ha => by cases ha
      double := fun a ha => by cases ha }

/-- The call has an effect, so that its product with zero does not keep its meaning. -/
theorem refines_mul_zero_iff_call :
    Refines (eval counter (.binary .int .mul (.other 1 .int []) (.literal (.int 0))))
        (eval counter (.literal (.int 0))) ↔ Still (eval counter (.other 1 .int [])) :=
  refines_mul_zero_iff (.inl rfl) rfl
    (fun s _ _ h => ⟨s, (Prod.mk.inj (Option.some.inj h)).1.symm⟩) rfl

end Results

end Sedona.ConstFolding
