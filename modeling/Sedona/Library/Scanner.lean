import Mathlib.Order.Nat

/-!
# Scanners

A scanner takes symbols off the front of a text and fails or returns a value; it may look at the
first two. A `Tame` scanner takes symbols off the front only, fails with certain errors only, and does
the same in front of two texts `w` and `w'`: whatever it does to a text that ends with `w`, of which it
leaves all of `w`, it does to the text that ends with `w'` in its place.

## Main results

* `Tame.bind`, `Tame.loop`: scanners in sequence, and in a loop.
* `loop_eq`: a loop in which every turn takes a symbol at least.
-/

namespace Scanner

variable {σ ε α β γ : Type}

/-- A scanner of the symbols `σ` that may fail with `ε`. -/
abbrev Scan (σ ε : Type) := StateT (List σ) (Except ε)

/-! ### The primitives -/

/-- The first symbol is one of these. -/
def curIs (p : σ → Bool) : Scan σ ε Bool := fun r => .ok (r.head?.any p, r)

/-- The first symbol, if there is one. -/
def cur : Scan σ ε (Option σ) := fun r => .ok (r.head?, r)

/-- The first two symbols are of these kinds. -/
def look (p q : σ → Bool) : Scan σ ε Bool :=
  fun r => .ok (r.head?.any p && r.tail.head?.any q, r)

/-- Take the first symbol; `e` if there is none. -/
def next (e : ε) : Scan σ ε σ
  | [] => .error e
  | c :: r => .ok (c, r)

/-- Take symbols as long as they are of these. -/
def takeWhile (p : σ → Bool) : Scan σ ε (List σ) := fun r => .ok (r.takeWhile p, r.dropWhile p)

/-- Take the first symbol if it is one of these. -/
def skipIf (p : σ → Bool) : Scan σ ε Unit :=
  fun r => .ok ((), if r.head?.any p then r.tail else r)

/-- A result or an error, whatever the text. -/
def lift (x : Except ε α) : Scan σ ε α := fun r => x.map fun a => (a, r)

/-- Repeat the body until it returns a result; `e` if the fuel runs out. -/
def iter (e : ε) (body : β → Scan σ ε (β ⊕ α)) : ℕ → β → Scan σ ε α
  | 0, _ => throw e
  | n + 1, b => body b >>= Sum.elim (iter e body n) pure

/-- Repeat the body until it returns a result, with a turn for each symbol of the text and one
more. -/
def loop (e : ε) (body : β → Scan σ ε (β ⊕ α)) (b : β) : Scan σ ε α :=
  fun r => iter e body (r.length + 1) b r

/-! ### Sequences -/

variable {m : Scan σ ε α} {f : α → Scan σ ε β} {r r' : List σ} {x : α} {y : β} {e : ε}

theorem bind_eq_ok : (m >>= f) r = .ok (y, r') ↔
    ∃ x s, m r = .ok (x, s) ∧ f x s = .ok (y, r') := by
  cases h : m r with
  | error e => simp [bind, StateT.bind, Except.bind, h]
  | ok p =>
    obtain ⟨x, s⟩ := p
    have hbind : (m >>= f) r = f x s := by simp [bind, StateT.bind, Except.bind, h]
    rw [hbind]
    constructor
    · exact fun hy => ⟨x, s, rfl, hy⟩
    · rintro ⟨x', s', hx, hy⟩
      obtain ⟨rfl, rfl⟩ := Prod.mk.inj (Except.ok.inj hx)
      exact hy

theorem bind_of_ok {s : List σ} (h : m r = .ok (x, s)) : (m >>= f) r = f x s := by
  simp [bind, StateT.bind, Except.bind, h]

theorem bind_of_error (h : m r = .error e) : (m >>= f) r = .error e := by
  simp [bind, StateT.bind, Except.bind, h]

@[simp] theorem pure_apply (x : α) (r : List σ) : (pure x : Scan σ ε α) r = .ok (x, r) := rfl

@[simp] theorem throw_apply (e : ε) (r : List σ) : (throw e : Scan σ ε α) r = .error e := rfl

/-! ### Loops -/

section Loop

variable {body : β → Scan σ ε (β ⊕ α)} {b : β}

/-- Every turn that is not the last one takes a symbol. -/
def Advances (body : β → Scan σ ε (β ⊕ α)) : Prop :=
  ∀ b r b' r', body b r = .ok (.inl b', r') → r'.length < r.length

/-- More fuel than symbols does not matter. -/
theorem iter_fuel (h : Advances body) (n : ℕ) : ∀ (m : ℕ) (b : β) (r : List σ), r.length < n →
    r.length < m → iter e body n b r = iter e body m b r := by
  induction n with
  | zero => exact fun m b r hn _ => absurd hn (Nat.not_lt_zero _)
  | succ n ih =>
    intro m b r hn hm
    cases m with
    | zero => exact absurd hm (Nat.not_lt_zero _)
    | succ m =>
      cases hb : body b r with
      | error e' => rw [iter, iter, bind_of_error hb, bind_of_error hb]
      | ok p =>
        obtain ⟨b' | x, s⟩ := p
        · have hs := h b r b' s hb
          rw [iter, iter, bind_of_ok hb, bind_of_ok hb]
          exact ih m b' s (by omega) (by omega)
        · rw [iter, iter, bind_of_ok hb, bind_of_ok hb]
          rfl

/-- One turn, and the rest of the loop. -/
theorem loop_eq (h : Advances body) (b : β) :
    loop e body b = body b >>= Sum.elim (loop e body) pure := by
  funext r
  cases hb : body b r with
  | error e' => rw [loop, iter, bind_of_error hb, bind_of_error hb]
  | ok p =>
    obtain ⟨b' | x, s⟩ := p
    · have hs := h b r b' s hb
      rw [loop, iter, bind_of_ok hb, bind_of_ok hb]
      exact iter_fuel h _ _ b' s hs (Nat.lt_succ_self _)
    · rw [loop, iter, bind_of_ok hb, bind_of_ok hb]
      rfl

/-- What every turn keeps holds of the result. -/
theorem iter_ind {P : β → Prop} {Q : α → Prop}
    (hbody : ∀ b r x r', P b → body b r = .ok (x, r') → Sum.elim P Q x) (n : ℕ) :
    ∀ b r y r', P b → iter e body n b r = .ok (y, r') → Q y := by
  induction n with
  | zero => exact fun b r y r' _ h => by cases h
  | succ n ih =>
    intro b r y r' hb h
    obtain ⟨x, s, hx, hy⟩ := bind_eq_ok.mp h
    have hkeep := hbody b r x s hb hx
    cases x with
    | inl b' => exact ih b' s y r' hkeep hy
    | inr z =>
      cases hy
      exact hkeep

theorem loop_ind {P : β → Prop} {Q : α → Prop}
    (hbody : ∀ b r x r', P b → body b r = .ok (x, r') → Sum.elim P Q x) (hb : P b)
    (h : loop e body b r = .ok (x, r')) : Q x :=
  iter_ind hbody _ b r x r' hb h

end Loop

/-! ### Tame scanners -/

/-- What is left is shorter than the text. -/
def Takes (m : Scan σ ε α) : Prop := ∀ r x r', m r = .ok (x, r') → r'.length < r.length

/-- The text gets no longer, the errors are those in `P`, and as long as `m` leaves all of `w`, it
does the same in front of `w'`. -/
structure Tame (P : ε → Prop) (w w' : List σ) (m : Scan σ ε α) : Prop where
  shrinks : ∀ r x r', m r = .ok (x, r') → r'.length ≤ r.length
  fails : ∀ r e, m r = .error e → P e
  same : ∀ q x r', m (q ++ w) = .ok (x, r') → w.length ≤ r'.length →
    ∃ q', r' = q' ++ w ∧ m (q ++ w') = .ok (x, q' ++ w')

section Tame

variable {P : ε → Prop} {w w' : List σ} {p p' : σ → Bool}

/-- At the end of the text, only the length matters. -/
theorem Tame.of_shrinks (h : ∀ r x r', m r = .ok (x, r') → r'.length ≤ r.length) :
    Tame (fun _ => True) [] [] m where
  shrinks := h
  fails _ _ _ := trivial
  same q x r' hx _ := ⟨r', (List.append_nil r').symm, by rw [hx, List.append_nil]⟩

theorem Tame.pure (x : α) : Tame P w w' (pure x : Scan σ ε α) where
  shrinks r y r' h := by
    cases h
    exact le_rfl
  fails r e h := by cases h
  same q y r' h _ := by
    cases h
    exact ⟨q, rfl, rfl⟩

theorem Tame.throw (h : P e) : Tame P w w' (throw e : Scan σ ε α) where
  shrinks r y r' h := by cases h
  fails r e' he := by
    cases he
    exact h
  same q y r' h _ := by cases h

theorem Tame.bind (hm : Tame P w w' m) (hf : ∀ x, Tame P w w' (f x)) : Tame P w w' (m >>= f) where
  shrinks r y r' h := by
    obtain ⟨x, s, hx, hy⟩ := bind_eq_ok.mp h
    exact ((hf x).shrinks s y r' hy).trans (hm.shrinks r x s hx)
  fails r e h := by
    cases hx : m r with
    | error e' =>
      rw [bind_of_error hx] at h
      cases h
      exact hm.fails r e hx
    | ok t =>
      obtain ⟨x, s⟩ := t
      rw [bind_of_ok hx] at h
      exact (hf x).fails s e h
  same q y r' h hlen := by
    obtain ⟨x, s, hx, hy⟩ := bind_eq_ok.mp h
    obtain ⟨q₁, rfl, hx'⟩ := hm.same q x s hx (hlen.trans ((hf x).shrinks s y r' hy))
    obtain ⟨q₂, rfl, hy'⟩ := (hf x).same q₁ y r' hy hlen
    exact ⟨q₂, rfl, (bind_of_ok hx').trans hy'⟩

theorem Tame.ite {c : Prop} [Decidable c] {m₁ m₂ : Scan σ ε α} (h₁ : Tame P w w' m₁)
    (h₂ : Tame P w w' m₂) : Tame P w w' (if c then m₁ else m₂) := by
  split
  · exact h₁
  · exact h₂

theorem Tame.lift {x : Except ε α} (h : ∀ e, x = .error e → P e) :
    Tame P w w' (lift x : Scan σ ε α) where
  shrinks r y r' hx := by
    cases x with
    | error e => cases hx
    | ok a =>
      cases hx
      exact le_rfl
  fails r e hx := by
    cases x with
    | error e' =>
      cases hx
      exact h e rfl
    | ok a => cases hx
  same q y r' hx _ := by
    cases x with
    | error e => cases hx
    | ok a =>
      cases hx
      exact ⟨q, rfl, rfl⟩

/-- A symbol of `w` itself cannot be taken. -/
theorem Tame.next (h : P e) : Tame P w w' (next e : Scan σ ε σ) where
  shrinks r x r' hx := by
    cases r with
    | nil => cases hx
    | cons c r =>
      cases hx
      exact Nat.le_succ _
  fails r e' he := by
    cases r with
    | nil =>
      cases he
      exact h
    | cons c r => cases he
  same q x r' hx hlen := by
    cases q with
    | nil =>
      cases w with
      | nil => cases hx
      | cons c w =>
        cases hx
        exact absurd hlen (Nat.not_succ_le_self _)
    | cons c q =>
      cases hx
      exact ⟨q, rfl, rfl⟩

theorem Tame.curIs (h : w.head?.any p = w'.head?.any p) :
    Tame P w w' (curIs p : Scan σ ε Bool) where
  shrinks r x r' hx := by
    cases hx
    exact le_rfl
  fails r e hx := by cases hx
  same q x r' hx _ := by
    cases hx
    refine ⟨q, rfl, ?_⟩
    cases q with
    | nil => simp [Scanner.curIs, h]
    | cons c q => rfl

theorem Tame.look (hp : w.head?.any p = false) (hp' : w'.head?.any p = false)
    (hq : w.head?.any p' = false) (hq' : w'.head?.any p' = false) :
    Tame P w w' (look p p' : Scan σ ε Bool) where
  shrinks r x r' hx := by
    cases hx
    exact le_rfl
  fails r e hx := by cases hx
  same q x r' hx _ := by
    cases hx
    refine ⟨q, rfl, ?_⟩
    rcases q with _ | ⟨c, _ | ⟨d, q⟩⟩
    · simp [Scanner.look, hp, hp']
    · simp [Scanner.look, hq, hq']
    · rfl

/-- Symbols of `w` itself cannot be taken. -/
theorem Tame.takeWhile (h : w'.head?.any p = false) :
    Tame P w w' (takeWhile p : Scan σ ε (List σ)) where
  shrinks r x r' hx := by
    cases hx
    exact (List.dropWhile_sublist p).length_le
  fails r e hx := by cases hx
  same q x r' hx hlen := by
    cases hx
    induction q with
    | nil =>
      have hend : w'.takeWhile p = [] ∧ w'.dropWhile p = w' := by
        cases w' with
        | nil => exact ⟨rfl, rfl⟩
        | cons c v =>
          have hc : p c = false := h
          simp [hc]
      cases w with
      | nil => exact ⟨[], rfl, by simp [Scanner.takeWhile, hend]⟩
      | cons c w =>
        cases hc : p c with
        | false => exact ⟨[], by simp [hc], by simp [Scanner.takeWhile, hc, hend]⟩
        | true =>
          have hle := (List.dropWhile_sublist p (l := w)).length_le
          simp only [List.nil_append, List.dropWhile_cons, hc, if_true, List.length_cons] at hlen
          omega
    | cons c q ih =>
      cases hc : p c with
      | false => exact ⟨c :: q, by simp [hc], by simp [Scanner.takeWhile, hc]⟩
      | true =>
        obtain ⟨q', hq, hq'⟩ := ih (by simpa [hc] using hlen)
        refine ⟨q', by simpa [hc] using hq, ?_⟩
        simp only [Scanner.takeWhile, Except.ok.injEq, Prod.mk.injEq] at hq' ⊢
        simp [hc, hq'.1, hq'.2]

theorem Tame.skipIf (h : w'.head?.any p = false) : Tame P w w' (skipIf p : Scan σ ε Unit) where
  shrinks r x r' hx := by
    cases hx
    split
    · rw [List.length_tail]
      exact Nat.sub_le _ _
    · exact le_rfl
  fails r e hx := by cases hx
  same q x r' hx hlen := by
    cases hx
    cases q with
    | nil =>
      cases hp : w.head?.any p with
      | false => exact ⟨[], by simp [hp], by simp [Scanner.skipIf, h]⟩
      | true =>
        cases w with
        | nil => cases hp
        | cons c w =>
          rw [List.nil_append, if_pos hp] at hlen
          exact absurd hlen (Nat.not_succ_le_self _)
    | cons c q =>
      cases hp : p c with
      | false => exact ⟨c :: q, by simp [hp], by simp [Scanner.skipIf, hp]⟩
      | true => exact ⟨q, by simp [hp], by simp [Scanner.skipIf, hp]⟩

/-- A scanner that looks at the first symbol: it is tame at the end of a text, in front of every
symbol, and in front of `w` and `w'`. -/
theorem Tame.cur_bind {f : Option σ → Scan σ ε β} (hnone : Tame P w w' (f none))
    (hsome : ∀ c, Tame P w w' (f (some c)))
    (hend : ∀ y r', f w.head? w = .ok (y, r') → w.length ≤ r'.length →
      ∃ q', r' = q' ++ w ∧ f w'.head? w' = .ok (y, q' ++ w')) :
    Tame P w w' (cur >>= f) := by
  have hf : ∀ o, Tame P w w' (f o) := fun o => by
    cases o with
    | none => exact hnone
    | some c => exact hsome c
  refine ⟨fun r => (hf r.head?).shrinks r, fun r => (hf r.head?).fails r, ?_⟩
  intro q y r' h hlen
  cases q with
  | nil => exact hend y r' h hlen
  | cons c q => exact (hsome c).same (c :: q) y r' h hlen

theorem Tame.loop {body : β → Scan σ ε (β ⊕ α)} (hadv : Advances body)
    (hb : ∀ b, Tame P w w' (body b)) (b : β) : Tame P w w' (loop e body b) := by
  have hshrinks : ∀ n, ∀ r : List σ, r.length = n → ∀ b x r',
      Scanner.loop e body b r = .ok (x, r') → r'.length ≤ r.length := by
    intro n
    induction n using Nat.strong_induction_on with
    | _ n ih =>
      rintro r rfl b x r' h
      rw [loop_eq hadv] at h
      obtain ⟨s, r₁, hs, hrest⟩ := bind_eq_ok.mp h
      cases s with
      | inl b' =>
        have hlt := hadv b r b' r₁ hs
        exact (ih r₁.length hlt r₁ rfl b' x r' hrest).trans hlt.le
      | inr y =>
        cases hrest
        exact (hb b).shrinks r _ r' hs
  refine ⟨fun r x r' h => hshrinks r.length r rfl b x r' h, ?_, ?_⟩
  · intro r
    induction hn : r.length using Nat.strong_induction_on generalizing r b with
    | _ n ih =>
      intro e' h
      rw [loop_eq hadv] at h
      cases hs : body b r with
      | error e₁ =>
        rw [bind_of_error hs] at h
        cases h
        exact (hb b).fails r e' hs
      | ok t =>
        obtain ⟨b' | x, r₁⟩ := t
        · rw [bind_of_ok hs] at h
          exact ih r₁.length (hn ▸ hadv b r b' r₁ hs) b' r₁ rfl e' h
        · rw [bind_of_ok hs] at h
          cases h
  · intro q
    induction hn : q.length using Nat.strong_induction_on generalizing q b with
    | _ n ih =>
      intro x r' h hlen
      rw [loop_eq hadv] at h ⊢
      obtain ⟨s, r, hs, hrest⟩ := bind_eq_ok.mp h
      cases s with
      | inl b' =>
        obtain ⟨q₁, rfl, hq₁⟩ := (hb b).same q _ r hs
          (hlen.trans (hshrinks r.length r rfl b' x r' hrest))
        have hlt := hadv b _ b' _ hs
        simp only [List.length_append] at hlt
        obtain ⟨q₂, rfl, hq₂⟩ := ih q₁.length (by omega) b' q₁ rfl x r' hrest hlen
        exact ⟨q₂, rfl, (bind_of_ok hq₁).trans hq₂⟩
      | inr y =>
        cases hrest
        obtain ⟨q₁, rfl, hq₁⟩ := (hb b).same q _ r' hs hlen
        exact ⟨q₁, rfl, bind_of_ok hq₁⟩

/-- What follows does not give anything back. -/
theorem Takes.bind (hm : Takes m) (hf : ∀ x, Tame P w w' (f x)) : Takes (m >>= f) := by
  intro r y r' h
  obtain ⟨x, s, hx, hy⟩ := bind_eq_ok.mp h
  exact ((hf x).shrinks s y r' hy).trans_lt (hm r x s hx)

theorem Takes.bind_pure (hm : Takes m) (g : α → β) : Takes (m >>= fun x => Pure.pure (g x)) := by
  intro r y r' h
  obtain ⟨x, s, hx, hy⟩ := bind_eq_ok.mp h
  obtain ⟨-, rfl⟩ := Prod.mk.inj (Except.ok.inj hy)
  exact hm r x s hx

theorem takes_next (e : ε) : Takes (next e : Scan σ ε σ) := by
  intro r x r' hx
  cases r with
  | nil => cases hx
  | cons c r =>
    cases hx
    exact Nat.lt_succ_self _

end Tame

end Scanner
