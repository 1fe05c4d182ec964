import Sedona.Web.RequestText

/-!
# What an Attempt Spoils

The spaces at the end of a name or a value are trimmed in place. The zeros that are left end the name
or the value earlier when the request is read again.

## Main results

* `known_append`: lines that are complete stay complete.
* `Spoiled.of_trim`: a line of which something has been trimmed is spoiled.
* `Spoiled.ok`: a request with a spoiled line is never complete, or it has lost a value.
-/

namespace Sedona.Web

open Rescan

/-- The line with this number can no longer be read as it has arrived. It never ends, or, if `p`, its
value has been lost. -/
inductive Spoiled (p : Prop) : ℕ → List Byte → Prop
  | stuck {x y : Byte} {s r w name value : List Byte} (hx : x ≠ code '\r')
      (hname : cut 0 (code ':') (x :: s) = some (name, r))
      (hvalue : cut 0 (code '\r') r = some (value, y :: w)) (hy : y ≠ code '\n') :
      Spoiled p 0 (x :: s)
  | lost {x : Byte} {s r name : List Byte} (hp : p) (hx : x ≠ code '\r')
      (hline : line (x :: s) = some ((name, []), r)) (hname : body name = name) :
      Spoiled p 0 (x :: s)
  | next {x : Byte} {s r : List Byte} {l : Line} {m : ℕ} (hx : x ≠ code '\r')
      (hline : line (x :: s) = some (l, r)) (hl : Clean l) (hr : Spoiled p m r) :
      Spoiled p (m + 1) (x :: s)

variable {method uri version name value : List Byte} {lines : List Line} {m n i : ℕ} {x y : Byte}
  {s r w : List Byte} {l : Line}

theorem line_append (u : List Byte) (h : line s = some (l, r)) : line (s ++ u) = some (l, r ++ u) := by
  obtain ⟨c, d, -, hname, hvalue⟩ := line_eq_some h
  have hname' := cut_append u hname
  have hvalue' := cut_append u hvalue
  rw [line, hname', List.append_assoc, List.cons_append, List.cons_append] at *
  simp only [hvalue', if_true]

/-- A line whose separators have been replaced. -/
theorem line_spent (hname : ∀ x ∈ name, x ≠ code ':' ∧ x ≠ 0)
    (hvalue : ∀ x ∈ value, x ≠ code '\r' ∧ x ≠ 0) :
    line (name ++ 0 :: (value ++ 0 :: code '\n' :: r)) = some ((name, value), r) := by
  rw [line, cut_eq hname (.inr rfl)]
  simp only [cut_eq hvalue (.inr rfl), if_true]

theorem line_clean (h : line s = some (l, r)) :
    line (l.1 ++ 0 :: (l.2 ++ 0 :: code '\n' :: w)) = some (l, w) := by
  obtain ⟨c, d, -, hname, hvalue⟩ := line_eq_some h
  exact line_spent (not_sep_of_cut hname) (not_sep_of_cut hvalue)

/-- A line does not begin with a carriage return once its name has been ended. -/
theorem spent_cons (hx : x ≠ code '\r') (hname : name <+: x :: s) :
    ∃ x' s', name ++ 0 :: w = x' :: s' ∧ x' ≠ code '\r' := by
  cases name with
  | nil => exact ⟨0, w, rfl, by decide⟩
  | cons y name =>
      obtain ⟨rfl, -⟩ := List.cons_prefix_cons.mp hname
      exact ⟨y, name ++ 0 :: w, rfl, hx⟩

theorem name_prefix_of_cut {sep : Byte} (h : cut 0 sep s = some (name, r)) : name <+: s := by
  obtain ⟨c, -, rfl, -⟩ := cut_eq_some_iff.mp h
  exact List.prefix_append _ _

/-- A round that does not find a line. -/
theorem known_of_no_line (n : ℕ) (lines : List Line) (s : List Byte) :
    known (headers method uri version (n + 1) lines s).1 = lines ∨
      ∃ x s' l r, s = x :: s' ∧ x ≠ code '\r' ∧ line (x :: s') = some (l, r) := by
  obtain _ | ⟨x, s⟩ := s
  · exact .inl rfl
  by_cases hx : x = code '\r'
  · subst hx
    by_cases hend : ∃ s', s = code '\n' :: s'
    · obtain ⟨s', rfl⟩ := hend
      rw [headers_end]
      exact .inl rfl
    · rw [headers_unended fun s' hs => hend ⟨s', hs⟩]
      exact .inl rfl
  cases hline : line (x :: s) with
  | none =>
      rw [headers_stuck hx hline]
      exact .inl rfl
  | some p => exact .inr ⟨x, s, p.1, p.2, rfl, hx, hline⟩

/-- **Lines that are complete stay complete.** -/
theorem known_headers_append (n : ℕ) (lines : List Line) (s u : List Byte) :
    known (headers method uri version n lines s).1 <+:
      known (headers method uri version n lines (s ++ u)).1 := by
  induction n generalizing lines s with
  | zero => exact List.prefix_rfl
  | succ n ih =>
      obtain hnone | ⟨x, s, l, r, rfl, hx, hline⟩ := @known_of_no_line method uri version n lines s
      · rw [hnone]
        exact prefix_known _ _ _
      · have hmore := line_append u hline
        rw [List.cons_append] at hmore ⊢
        rw [headers_line hx hline, headers_line hx hmore]
        exact ih _ r

/-- More bytes do not help. -/
theorem Spoiled.append (h : Spoiled p m s) (u : List Byte) : Spoiled p m (s ++ u) := by
  induction h with
  | stuck hx hname hvalue hy =>
      exact .stuck hx (cut_append u hname) (cut_append u hvalue) hy
  | lost hp hx hline hname => exact .lost hp hx (line_append u hline) hname
  | next hx hline hl _ ih => exact .next hx (line_append u hline) hl ih

theorem spendLines_clean (hx : x ≠ code '\r') (hline : line (x :: s) = some (l, r)) (hl : Clean l) :
    ∃ x' s', spendLines (n + 1) (x :: s) = x' :: s' ∧ x' ≠ code '\r' ∧
      line (x' :: s') = some (l, spendLines n r) := by
  obtain ⟨c, d, -, hname, -⟩ := line_eq_some hline
  obtain ⟨x', s', heq, hx'⟩ := spent_cons (w := l.2 ++ 0 :: code '\n' :: spendLines n r) hx
    (name_prefix_of_cut hname)
  refine ⟨x', s', ?_, hx', heq ▸ line_clean hline⟩
  rw [spendLines_line hx hline, blank_of_body hl.1, blank_of_body hl.2, heq]

/-- Another attempt does not help. -/
theorem Spoiled.spend (h : Spoiled p m s) (n : ℕ) : Spoiled p m (spendLines n s) := by
  induction h generalizing n with
  | @stuck x y s r w name value hx hname hvalue hy =>
      obtain _ | n := n
      · exact .stuck hx hname hvalue hy
      obtain ⟨x', s', heq, hx'⟩ := spent_cons (w := value ++ 0 :: y :: w) hx (name_prefix_of_cut hname)
      have hname' := cut_eq (r := value ++ 0 :: y :: w) (not_sep_of_cut hname) (.inr rfl)
      rw [heq] at hname'
      simp only [spendLines, hx, hname, hvalue, hy, if_false, heq]
      exact .stuck hx' hname' (cut_eq (not_sep_of_cut hvalue) (.inr rfl)) hy
  | lost hp hx hline hname =>
      obtain _ | n := n
      · exact .lost hp hx hline hname
      obtain ⟨x', s', heq, hx', hline'⟩ := spendLines_clean (n := n) hx hline ⟨hname, rfl⟩
      rw [heq]
      exact .lost hp hx' hline' hname
  | next hx hline hl _ ih =>
      obtain _ | n := n
      · exact .next hx hline hl (ih 0)
      obtain ⟨x', s', heq, hx', hline'⟩ := spendLines_clean (n := n) hx hline hl
      rw [heq]
      exact .next hx' hline' hl (ih n)

/-- **What becomes of a request with a spoiled line.** -/
theorem Spoiled.ok (h : Spoiled p m s) {t : Text}
    (ht : (headers method uri version n lines s).1 = .ok t) :
    p ∧ ∃ name, t.lines[lines.length + m]? = some (name, []) := by
  induction h generalizing n lines with
  | @stuck x y s r w name value hx hname hvalue hy =>
      obtain _ | n := n
      · cases ht
      have hline : line (x :: s) = none := by
        rw [line, hname]
        simp only [hvalue, hy, if_false]
      rw [headers_stuck hx hline] at ht
      cases ht
  | @lost x s r name hp hx hline hname =>
      obtain _ | n := n
      · cases ht
      rw [headers_line hx hline] at ht
      obtain ⟨rest, hrest⟩ := @prefix_known method uri version n (lines ++ [(name, [])]) r
      change _ = Except.ok t at ht
      rw [ht] at hrest
      have hlines : lines ++ [(name, [])] ++ rest = t.lines := hrest
      refine ⟨hp, name, ?_⟩
      rw [← hlines, List.append_assoc, List.getElem?_append_right (Nat.le_add_right _ _),
        Nat.add_sub_cancel_left]
      rfl
  | next hx hline hl _ ih =>
      obtain _ | n := n
      · cases ht
      rw [headers_line hx hline] at ht
      obtain ⟨hp, name, hat⟩ := ih ht
      refine ⟨hp, name, ?_⟩
      rw [List.length_append, List.length_singleton] at hat
      rw [← hat]
      congr 1
      omega

/-- What is left of a trimmed name, and of the value behind it. -/
theorem spoiled_name (hx : x ≠ code '\r') (hpre : name <+: x :: s) (hclean : body name = name)
    (hname : ∀ x ∈ name, x ≠ code ':' ∧ x ≠ 0) (hp : y = code '\n' → p) :
    Spoiled p 0 (name ++ 0 :: 0 :: y :: w) := by
  obtain ⟨x', s', heq, hx'⟩ := spent_cons (w := 0 :: y :: w) hx hpre
  have hcut := cut_eq (r := 0 :: y :: w) hname (.inr rfl)
  have hempty : cut 0 (code '\r') (0 :: y :: w) = some ([], y :: w) := by
    rw [cut, if_pos (.inr rfl)]
  rw [heq] at hcut ⊢
  by_cases hy : y = code '\n'
  · refine .lost (r := w) (hp hy) hx' ?_ hclean
    rw [line, hcut]
    simp only
    rw [hempty]
    simp only [hy, if_true]
  · exact .stuck hx' hcut hempty hy

theorem body_body (v : List Byte) : body (body v) = body v := List.rdropWhile_idempotent _ _

theorem blank_of_trim {v : List Byte} (h : body v ≠ v) :
    ∃ k, blank v = body v ++ 0 :: List.replicate k 0 := by
  have hpre : body v <+: v := List.rdropWhile_prefix _ v
  have hlt : (body v).length < v.length :=
    hpre.length_le.lt_of_ne fun heq => h (hpre.eq_of_length heq)
  refine ⟨v.length - (body v).length - 1, ?_⟩
  rw [blank, ← List.replicate_succ]
  congr 2
  omega

theorem zeros_cons (k : ℕ) (w : List Byte) :
    ∃ w', List.replicate k (0 : Byte) ++ 0 :: w = 0 :: w' := by
  cases k with
  | zero => exact ⟨w, rfl⟩
  | succ k => exact ⟨_, by rw [List.replicate_succ, List.cons_append]⟩

/-- What is left of a value begins with a line feed only if the value does. -/
theorem blank_cons (v w : List Byte) :
    ∃ y w', blank v ++ 0 :: w = y :: w' ∧ (y = code '\n' → strip v ≠ []) := by
  rw [blank, strip]
  cases body v with
  | nil =>
      obtain ⟨w', heq⟩ := zeros_cons (v.length - 0) w
      exact ⟨0, w', heq, fun h => absurd h (by decide)⟩
  | cons y b =>
      refine ⟨y, _, rfl, ?_⟩
      rintro rfl
      rw [List.dropWhile_cons_of_neg (by decide)]
      exact List.cons_ne_nil _ _

/-- **A line of which something has been trimmed is spoiled.** -/
theorem Spoiled.of_trim (hx : x ≠ code '\r') (hline : line (x :: s) = some (l, r))
    (hl : ¬ Clean l) (n : ℕ) : Spoiled (strip l.2 ≠ []) 0 (spendLines (n + 1) (x :: s)) := by
  obtain ⟨c, d, -, hname, hvalue⟩ := line_eq_some hline
  have hpre := name_prefix_of_cut hname
  have hseps := not_sep_of_cut hname
  have hbody : body l.1 <+: l.1 := List.rdropWhile_prefix _ l.1
  rw [spendLines_line hx hline]
  by_cases hclean : body l.1 = l.1
  · have hv : body l.2 ≠ l.2 := fun hv => hl ⟨hclean, hv⟩
    obtain ⟨k, hk⟩ := blank_of_trim hv
    obtain ⟨w', hw⟩ := zeros_cons k (code '\n' :: spendLines n r)
    have hbodyv : body l.2 <+: l.2 := List.rdropWhile_prefix _ l.2
    rw [blank_of_body hclean, hk, List.append_assoc, List.cons_append, hw]
    obtain ⟨x', s', heq, hx'⟩ := spent_cons (w := body l.2 ++ 0 :: 0 :: w') hx hpre
    have hcut := cut_eq (r := body l.2 ++ 0 :: 0 :: w') hseps (.inr rfl)
    have hcut' := cut_eq (r := 0 :: w') (fun y hy => not_sep_of_cut hvalue y (hbodyv.subset hy))
      (.inr rfl)
    rw [heq] at hcut ⊢
    exact .stuck hx' hcut hcut' (by decide)
  · obtain ⟨k, hk⟩ := blank_of_trim hclean
    rw [hk, List.append_assoc, List.cons_append]
    obtain ⟨y, w', hw, hy⟩ := blank_cons l.2 (code '\n' :: spendLines n r)
    obtain _ | k := k
    · rw [List.replicate_zero, List.nil_append, hw]
      exact spoiled_name hx (hbody.trans hpre) (body_body _)
        (fun z hz => hseps z (hbody.subset hz)) hy
    · obtain ⟨u, hu⟩ := zeros_cons k (blank l.2 ++ 0 :: code '\n' :: spendLines n r)
      rw [List.replicate_succ, List.cons_append, hu]
      exact spoiled_name hx (hbody.trans hpre) (body_body _)
        (fun z hz => hseps z (hbody.subset hz)) fun h => absurd h (by decide)

/-- The first line of which something is trimmed. -/
theorem spoiled_spendLines (method uri version : List Byte) (n m : ℕ) (lines : List Line)
    (s : List Byte)
    (hfirst : ∀ i < m, ∀ l',
      (known (headers method uri version n lines s).1)[lines.length + i]? = some l' → Clean l')
    (hat : (known (headers method uri version n lines s).1)[lines.length + m]? = some l)
    (hl : ¬ Clean l) : Spoiled (strip l.2 ≠ []) m (spendLines n s) := by
  have hend : lines[lines.length + m]? = none := List.getElem?_eq_none (Nat.le_add_right _ _)
  induction n generalizing m lines s with
  | zero =>
      rw [show known (headers method uri version 0 lines s).1 = lines from rfl, hend] at hat
      cases hat
  | succ n ih =>
      obtain hnone | ⟨x, s, l', r, rfl, hx, hline⟩ := @known_of_no_line method uri version n lines s
      · rw [hnone, hend] at hat
        cases hat
      rw [headers_line hx hline] at hat hfirst
      obtain ⟨rest, hrest⟩ := @prefix_known method uri version n (lines ++ [l']) r
      have hhead : (known (headers method uri version n (lines ++ [l']) r).1)[lines.length]? =
          some l' := by
        rw [← hrest, List.append_assoc, List.getElem?_append_right le_rfl, Nat.sub_self]
        rfl
      cases m with
      | zero =>
          obtain rfl : l' = l := Option.some.inj (hhead.symm.trans hat)
          exact .of_trim hx hline hl n
      | succ m =>
          have hclean : Clean l' := hfirst 0 (Nat.succ_pos m) l' hhead
          obtain ⟨x', s', heq, hx', hline'⟩ := spendLines_clean (n := n) hx hline hclean
          rw [heq]
          have hlen : (lines ++ [l']).length = lines.length + 1 := by simp
          refine .next hx' hline' hclean (ih m (lines ++ [l']) r (fun i hi l'' hl'' => ?_) ?_ ?_)
          · refine hfirst (i + 1) (Nat.succ_lt_succ hi) l'' ?_
            rw [← hl'', hlen, Nat.add_assoc, Nat.add_comm 1]
          · rw [hlen, Nat.add_assoc, Nat.add_comm 1]
            exact hat
          · exact List.getElem?_eq_none (Nat.le_add_right _ _)

/-! ### Requests -/

/-- The request-line is complete, and the lines come next. -/
def Begun (s method uri version w : List Byte) : Prop :=
  ∃ s₁ s₂, cut 0 (code ' ') s = some (method, s₁) ∧ cut 0 (code ' ') s₁ = some (uri, s₂) ∧
    cut 0 (code '\r') s₂ = some (version, code '\n' :: w)

theorem Begun.text (h : Begun s method uri version w) :
    (text s).1 = (headers method uri version bufLen [] w).1 := by
  obtain ⟨s₁, s₂, hm, hu, hv⟩ := h
  simp only [Web.text, token, expect, hm, hu, hv, if_true]

theorem Begun.append (h : Begun s method uri version w) (u : List Byte) :
    Begun (s ++ u) method uri version (w ++ u) := by
  obtain ⟨s₁, s₂, hm, hu, hv⟩ := h
  exact ⟨_, _, cut_append u hm, cut_append u hu, cut_append u hv⟩

theorem Begun.spend (h : Begun s method uri version w) :
    Begun (spend s) method uri version (spendLines bufLen w) := by
  obtain ⟨s₁, s₂, hm, hu, hv⟩ := h
  simp only [Begun, Web.spend, hm, hu, hv, if_true]
  exact ⟨_, _, cut_eq (not_sep_of_cut hm) (.inr rfl), cut_eq (not_sep_of_cut hu) (.inr rfl),
    cut_eq (not_sep_of_cut hv) (.inr rfl)⟩

/-- Lines are known once the request-line is complete. -/
theorem begun_of_known (h : known (text s).1 ≠ []) : ∃ method uri version w,
    Begun s method uri version w := by
  cases hm : cut 0 (code ' ') s with
  | none =>
      simp only [text, token, hm] at h
      exact absurd rfl h
  | some p =>
  obtain ⟨method, s₁⟩ := p
  cases hu : cut 0 (code ' ') s₁ with
  | none =>
      simp only [text, token, hm, hu] at h
      exact absurd rfl h
  | some p =>
  obtain ⟨uri, s₂⟩ := p
  cases hv : cut 0 (code '\r') s₂ with
  | none =>
      simp only [text, token, hm, hu, hv] at h
      exact absurd rfl h
  | some p =>
  obtain ⟨version, _ | ⟨y, w⟩⟩ := p
  · simp only [text, token, expect, hm, hu, hv] at h
    exact absurd rfl h
  by_cases hy : y = code '\n'
  · exact ⟨method, uri, version, w, s₁, s₂, hm, hu, hy ▸ hv⟩
  · simp only [text, token, expect, hm, hu, hv, hy, if_false] at h
    exact absurd rfl h

/-- A request with a spoiled line. -/
def SpoiledText (p : Prop) (m : ℕ) (s : List Byte) : Prop :=
  ∃ method uri version w, Begun s method uri version w ∧ Spoiled p m w

theorem SpoiledText.append (h : SpoiledText p m s) (u : List Byte) : SpoiledText p m (s ++ u) := by
  obtain ⟨method, uri, version, w, hb, hw⟩ := h
  exact ⟨method, uri, version, w ++ u, hb.append u, hw.append u⟩

theorem SpoiledText.spend (h : SpoiledText p m s) : SpoiledText p m (spend s) := by
  obtain ⟨method, uri, version, w, hb, hw⟩ := h
  exact ⟨method, uri, version, _, hb.spend, hw.spend bufLen⟩

theorem SpoiledText.ok (h : SpoiledText p m s) {t : Text} (ht : (text s).1 = .ok t) :
    p ∧ ∃ name, t.lines[m]? = some (name, []) := by
  obtain ⟨method, uri, version, w, hb, hw⟩ := h
  have hok := hw.ok (hb.text ▸ ht)
  rwa [List.length_nil, Nat.zero_add] at hok

theorem known_append (s u : List Byte) : known (text s).1 <+: known (text (s ++ u)).1 := by
  by_cases h : known (text s).1 = []
  · rw [h]
    exact List.nil_prefix
  · obtain ⟨method, uri, version, w, hb⟩ := begun_of_known h
    rw [hb.text, (hb.append u).text]
    exact known_headers_append _ _ _ _

/-- **An attempt that trims a line spoils it.** -/
theorem spoiledText_spend (h : ∃ l ∈ known (text s).1, ¬ Clean l) :
    ∃ m l, (known (text s).1)[m]? = some l ∧ SpoiledText (strip l.2 ≠ []) m (spend s) := by
  classical
  obtain ⟨l, hl, htrim⟩ := h
  obtain ⟨i, hi⟩ := List.mem_iff_getElem?.mp hl
  have hex : ∃ i l, (known (text s).1)[i]? = some l ∧ ¬ Clean l := ⟨i, l, hi, htrim⟩
  obtain ⟨l, hat, htrim⟩ := Nat.find_spec hex
  obtain ⟨method, uri, version, w, hb⟩ := begun_of_known (List.ne_nil_of_mem hl)
  refine ⟨Nat.find hex, l, hat, method, uri, version, _, hb.spend, ?_⟩
  refine spoiled_spendLines method uri version bufLen _ [] w
    (fun i hi l' hl' => ?_) ?_ htrim
  · by_contra hno
    refine Nat.find_min hex hi ⟨l', ?_, hno⟩
    rw [hb.text, ← hl', List.length_nil, Nat.zero_add]
  · rw [← hb.text, List.length_nil, Nat.zero_add]
    exact hat

end Sedona.Web
