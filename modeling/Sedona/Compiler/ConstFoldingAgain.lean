import Mathlib.Data.List.Chain
import Sedona.Compiler.ConstFoldingSound

/-!
# ConstFolding Is Done in One Pass

A folded expression has nothing left to fold: its operators have no two literals that can be folded
and no zero, and its texts no two literals in a row.

## Main results

* `fold_fold`: folding a second time changes nothing.
-/

namespace Sedona.ConstFolding

variable {F D : Type}

section Twice

variable {A : Floats F D} {optimize : Bool} {e e' : Expr F D}

theorem foldAll_self {es : List (Expr F D)} :
    foldAll A optimize es = some es ↔ ∀ e ∈ es, fold A optimize e = some e := by
  induction es with
  | nil => exact iff_of_true rfl (List.forall_mem_nil _)
  | cons e es ih =>
    rw [List.forall_mem_cons, ← ih, foldAll]
    constructor
    · intro h
      obtain ⟨x, hx, h⟩ := Option.bind_eq_some_iff.mp h
      obtain ⟨xs, hxs, h⟩ := Option.bind_eq_some_iff.mp h
      cases h
      exact ⟨hx, hxs⟩
    · rintro ⟨he, hes⟩
      rw [he, hes]
      rfl

theorem fold_literal (l : Literal F D) :
    fold A optimize (.literal l) = some (.literal l) := rfl

/-- No text stands behind a text. -/
abbrev Merged : List (Expr F D) → Prop := List.IsChain fun e e' => ¬ BothStrings e e'

theorem merged_merge {folded : List (Expr F D)} (h : Merged folded) (cur : Expr F D) :
    Merged (merge folded cur) := by
  obtain ⟨hadd, hlast⟩ | ⟨es, s, t, rfl, rfl, hmerge⟩ := merge_cases folded cur
  · rw [hadd]
    refine List.isChain_append.mpr ⟨h, List.isChain_singleton _, fun a ha b hb => ?_⟩
    obtain rfl : cur = b := Option.some.inj hb
    exact hlast a ha
  · rw [hmerge]
    obtain ⟨hes, -, hrel⟩ := List.isChain_append.mp h
    refine List.isChain_append.mpr ⟨hes, List.isChain_singleton _, fun a ha b hb hboth => ?_⟩
    obtain ⟨u, v, rfl, -⟩ := hboth
    exact hrel _ ha _ rfl ⟨u, s, rfl, rfl⟩

theorem merged_foldl_merge {folded : List (Expr F D)} (h : Merged folded)
    (rest : List (Expr F D)) : Merged (rest.foldl merge folded) := by
  induction rest generalizing folded with
  | nil => exact h
  | cons cur rest ih => exact ih (merged_merge h cur)

/-- Where no text stands behind a text, nothing is merged. -/
theorem foldl_merge_of_merged {folded rest : List (Expr F D)} (h : Merged (folded ++ rest)) :
    rest.foldl merge folded = folded ++ rest := by
  induction rest generalizing folded with
  | nil => exact (List.append_nil _).symm
  | cons cur rest ih =>
    have hadd : merge folded cur = folded ++ [cur] := by
      obtain ⟨hadd, -⟩ | ⟨es, s, t, rfl, rfl, -⟩ := merge_cases folded cur
      · exact hadd
      · obtain ⟨-, -, hrel⟩ := List.isChain_append.mp h
        exact absurd ⟨s, t, rfl, rfl⟩ (hrel _ List.getLast?_concat _ rfl)
    rw [List.foldl_cons, hadd, ih, List.append_assoc, List.singleton_append]
    rwa [List.append_assoc, List.singleton_append]

theorem fixed_merge {folded : List (Expr F D)} {cur : Expr F D}
    (h : ∀ e ∈ folded, fold A optimize e = some e) (hcur : fold A optimize cur = some cur) :
    ∀ e ∈ merge folded cur, fold A optimize e = some e := by
  obtain ⟨hadd, -⟩ | ⟨es, s, t, rfl, rfl, hmerge⟩ := merge_cases folded cur
  · rw [hadd]
    exact List.forall_mem_append.mpr ⟨h, List.forall_mem_singleton.mpr hcur⟩
  · rw [hmerge]
    exact List.forall_mem_append.mpr ⟨(List.forall_mem_append.mp h).1,
      List.forall_mem_singleton.mpr (fold_literal _)⟩

theorem fixed_foldl_merge {folded rest : List (Expr F D)}
    (h : ∀ e ∈ folded, fold A optimize e = some e)
    (hrest : ∀ e ∈ rest, fold A optimize e = some e) :
    ∀ e ∈ rest.foldl merge folded, fold A optimize e = some e := by
  induction rest generalizing folded with
  | nil => exact h
  | cons cur rest ih =>
    obtain ⟨hcur, hrest⟩ := List.forall_mem_cons.mp hrest
    exact ih (fixed_merge h hcur) hrest

/-- The text that comes out of a folding is folded to itself. -/
theorem fold_foldInterpolation {callOk : Bool} {parts : List (Expr F D)}
    (hparts : ∀ e ∈ parts, fold A optimize e = some e)
    (h : foldInterpolation optimize callOk parts = .ok e') : fold A optimize e' = some e' := by
  have hvisit : ∀ ps : List (Expr F D), (∀ e ∈ ps, fold A optimize e = some e) →
      foldInterpolation optimize callOk ps = .ok (.interpolation callOk ps) →
      fold A optimize (.interpolation callOk ps) = some (.interpolation callOk ps) := by
    intro ps hps hfold
    rw [fold, foldAll_self.mpr hps]
    change visit A optimize (.interpolation callOk ps) = _
    rw [visit.eq_def]
    dsimp only
    rw [hfold]
  rw [foldInterpolation.eq_def] at h
  split at h
  · next hkeep =>
    cases h
    exact hvisit parts hparts (if_pos hkeep)
  · next hfold =>
    split at h
    · next s rest =>
      have hfixed := fixed_foldl_merge (List.forall_mem_singleton.mpr (fold_literal (.str s)))
        (List.forall_mem_cons.mp hparts).2
      have hmerged := merged_foldl_merge (List.isChain_singleton (.literal (.str s))) rest
      obtain ⟨t, es, ht⟩ := startsWithText_foldl_merge ⟨s, [], rfl⟩ rest
      split at h
      · next e hsingle =>
        cases h
        rw [hsingle] at ht
        obtain ⟨rfl, -⟩ := List.cons.inj ht
        exact fold_literal _
      · next hne =>
        cases h
        refine hvisit _ hfixed ?_
        have hagain : es.foldl merge [.literal (.str t)] = [.literal (.str t)] ++ es :=
          foldl_merge_of_merged (by rwa [ht] at hmerged)
        rw [ht] at hne ⊢
        rw [foldInterpolation.eq_def, if_neg hfold]
        dsimp only
        rw [hagain, List.singleton_append]
        split
        · next e hsingle => exact absurd hsingle (hne e)
        · rfl
    · cases h

theorem foldUnary_cases {type : Ty} (h : foldUnary A type e = .ok e') :
    (∃ l, e' = .literal l) ∨ e' = .negate type e := by
  rw [foldUnary.eq_def] at h
  split at h
  · obtain ⟨l', -, rfl⟩ := ofOption_eq_ok h
    exact .inl ⟨l', rfl⟩
  · cases h
    exact .inr rfl

theorem foldCast_cases {type : Ty} (h : foldCast A optimize type e = .ok e') :
    (∃ l, e' = .literal l) ∨ e' = .cast type e := by
  rw [foldCast.eq_def] at h
  split at h
  · split_ifs at h
    · cases h
      exact .inr rfl
    · exact .inl ((ofOption_eq_ok h).imp fun _ => And.right)
    · exact .inl ((ofOption_eq_ok h).imp fun _ => And.right)
    · exact .inl ((ofOption_eq_ok h).imp fun _ => And.right)
    · exact .inl ((ofOption_eq_ok h).imp fun _ => And.right)
    · cases h
      exact .inr rfl
  · cases h
    exact .inr rfl

theorem foldBinary_cases {type : Ty} {op : Op} {lhs rhs : Expr F D}
    (h : foldBinary A type op lhs rhs = .ok e') :
    (∃ l, e' = .literal l) ∨ e' = .binary type op lhs rhs ∨ e' = lhs := by
  rw [foldBinary.eq_def] at h
  split at h
  · cases h
    exact .inr (.inl rfl)
  · split at h
    · exact .inl ((ofOption_eq_ok h).imp fun _ => And.right)
    · next r _ _ =>
      split at h
      · obtain ⟨-, rfl | rfl⟩ := foldZero_eq_ok h
        · exact .inr (.inl rfl)
        · split
          · exact .inl ⟨r, rfl⟩
          · exact .inr (.inr rfl)
      · cases h
        exact .inr (.inl rfl)
    · cases h
      exact .inr (.inl rfl)

mutual

theorem fold_again : (e : Expr F D) → {e' : Expr F D} → fold A optimize e = some e' →
    fold A optimize e' = some e'
  | .literal l, e', h => by
    cases h
    rfl
  | .negate type operand, e', h => by
    obtain ⟨x, hx, h⟩ := Option.bind_eq_some_iff.mp h
    have ih := fold_again operand hx
    have hself : fold A optimize (.negate type x) = visit A optimize (.negate type x) := by
      rw [fold, ih]
      rfl
    obtain rfl | ⟨_, _, he, hfold⟩ | ⟨_, _, he, -⟩ | ⟨_, _, he, -⟩ | ⟨_, _, _, _, he, -⟩ :=
      visit_eq_some h
    · exact hself.trans h
    · cases he
      obtain ⟨l, rfl⟩ | rfl := foldUnary_cases hfold
      · exact fold_literal l
      · exact hself.trans h
    · cases he
    · cases he
    · cases he
  | .binary type op lhs rhs, e', h => by
    obtain ⟨x, hx, h⟩ := Option.bind_eq_some_iff.mp h
    obtain ⟨y, hy, h⟩ := Option.bind_eq_some_iff.mp h
    have ihx := fold_again lhs hx
    have ihy := fold_again rhs hy
    have hself : fold A optimize (.binary type op x y) =
        visit A optimize (.binary type op x y) := by
      rw [fold, ihx, ihy]
      rfl
    obtain rfl | ⟨_, _, he, -⟩ | ⟨_, _, he, -⟩ | ⟨_, _, he, -⟩ | ⟨_, _, _, _, he, -, hfold⟩ :=
      visit_eq_some h
    · exact hself.trans h
    · cases he
    · cases he
    · cases he
    · cases he
      obtain ⟨l, rfl⟩ | rfl | rfl := foldBinary_cases hfold
      · exact fold_literal l
      · exact hself.trans h
      · exact ihx
  | .cast type target, e', h => by
    obtain ⟨x, hx, h⟩ := Option.bind_eq_some_iff.mp h
    have ih := fold_again target hx
    have hself : fold A optimize (.cast type x) = visit A optimize (.cast type x) := by
      rw [fold, ih]
      rfl
    obtain rfl | ⟨_, _, he, -⟩ | ⟨_, _, he, -⟩ | ⟨_, _, he, hfold⟩ | ⟨_, _, _, _, he, -⟩ :=
      visit_eq_some h
    · exact hself.trans h
    · cases he
    · cases he
    · cases he
      obtain ⟨l, rfl⟩ | rfl := foldCast_cases hfold
      · exact fold_literal l
      · exact hself.trans h
    · cases he
  | .interpolation callOk parts, e', h => by
    obtain ⟨ps, hps, h⟩ := Option.bind_eq_some_iff.mp h
    have ih := foldAll_again parts hps
    have hself : fold A optimize (.interpolation callOk ps) =
        visit A optimize (.interpolation callOk ps) := by
      rw [fold, ih]
      rfl
    obtain rfl | ⟨_, _, he, -⟩ | ⟨_, _, he, hfold⟩ | ⟨_, _, he, -⟩ | ⟨_, _, _, _, he, -⟩ :=
      visit_eq_some h
    · exact hself.trans h
    · cases he
    · cases he
      exact fold_foldInterpolation (foldAll_self.mp ih) hfold
    · cases he
    · cases he
  | .other kind type operands, e', h => by
    obtain ⟨es, hes, h⟩ := Option.bind_eq_some_iff.mp h
    cases h
    rw [fold, foldAll_again operands hes]
    rfl

theorem foldAll_again : (es : List (Expr F D)) → {es' : List (Expr F D)} →
    foldAll A optimize es = some es' → foldAll A optimize es' = some es'
  | [], es', h => by
    cases h
    rfl
  | e :: es, es', h => by
    obtain ⟨x, hx, h⟩ := Option.bind_eq_some_iff.mp h
    obtain ⟨xs, hxs, h⟩ := Option.bind_eq_some_iff.mp h
    cases h
    rw [foldAll, fold_again e hx, foldAll_again es hxs]
    rfl

end

/-- **Folding a second time changes nothing.** -/
theorem fold_fold (h : fold A optimize e = some e') : fold A optimize e' = some e' :=
  fold_again e h

end Twice

theorem fold_fold_sum :
    fold counter.numbers true (.binary .int .add (.other 0 .int []) (.literal (.int 6))) =
      some (.binary .int .add (.other 0 .int []) (.literal (.int 6))) :=
  fold_fold (e := .binary .int .add (.other 0 .int [])
    (.binary .int .mul (.literal (.int 2)) (.literal (.int 3)))) rfl

end Sedona.ConstFolding
