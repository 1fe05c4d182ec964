import Sedona.Compiler.Tokenizer

/-!
# Scanning a Token

What the scanners of the tokenizer take, and how they behave in front of white space and of a comment
in its place: the same as long as they leave it alone, but for a slash in front of it.

## Main results

* `Cut.blanks`, `Cut.read`: scanning in front of white space and of a comment.
* `read_spec`: every token but the end of the file takes a character.
-/

namespace Sedona

namespace Tokenizer

open Scanner Fuel

variable {F : Floats} {P : Fail → Prop} {w w' : List Char}

/-! ### Comments take symbols -/

theorem lineBody_takes : Takes lineBody := by
  intro r
  induction r with
  | nil =>
    intro x r' h
    cases h
  | cons c r ih =>
    intro x r' h
    rw [lineBody] at h
    split at h
    · cases h
      exact Nat.lt_succ_self _
    · exact (ih x r' h).trans (Nat.lt_succ_self _)

theorem lastSlash_takes : Takes lastSlash := by
  intro r x r' h
  cases r with
  | nil => cases h
  | cons c r =>
    cases h
    exact Nat.lt_succ_self _

theorem blockBody_takes (depth : ℕ) : Takes (blockBody depth) := by
  intro r
  induction r generalizing depth with
  | nil =>
    intro x r' h
    cases h
  | cons c r ih =>
    intro x r' h
    have hlast (h : lastSlash r = .ok (x, r')) : r'.length < (c :: r).length :=
      (lastSlash_takes r x r' h).trans (Nat.lt_succ_self _)
    have hrec (d : ℕ) (h : blockBody d r = .ok (x, r')) : r'.length < (c :: r).length :=
      (ih d x r' h).trans (Nat.lt_succ_self _)
    simp only [blockBody] at h
    split_ifs at h
    · exact hlast h
    · exact hlast h
    · exact hrec _ h
    · exact hrec _ h
    · exact hrec _ h

/-- The first two characters of a text. -/
def starts (c d : Char) (r : List Char) : Bool :=
  r.head?.any (· == c) && r.tail.head?.any (· == d)

theorem starts_iff {c d : Char} {r : List Char} :
    starts c d r = true ↔ ∃ r', r = c :: d :: r' := by
  rcases r with _ | ⟨x, _ | ⟨y, r⟩⟩ <;> simp [starts]

/-- What a turn of the loop of `next` does. -/
theorem blank_eq (doc : Bool) (r : List Char) : blank doc r =
    if r.head?.any isSpace then (consume >>= fun _ => pure true) r
    else if starts '/' '/' r then (lineComment >>= fun _ => pure true) r
    else if starts '/' '*' r then (blockComment >>= fun _ => pure true) r
    else if !doc && starts '*' '*' r then (lineComment >>= fun _ => pure true) r
    else .ok (false, r) := by
  have hcur : curIs isSpace r = (.ok (r.head?.any isSpace, r) : Except Fail _) := rfl
  have hahead (c d : Char) : ahead c d r = .ok (starts c d r, r) := rfl
  rw [blank, bind_of_ok hcur]
  split_ifs with h₁ h₂ h₃ h₄
  · rfl
  all_goals rw [bind_of_ok (hahead _ _)]
  · rw [if_pos h₂]
  all_goals rw [if_neg h₂, bind_of_ok (hahead _ _)]
  · rw [if_pos h₃]
  all_goals rw [if_neg h₃, bind_of_ok (hahead _ _)]
  · rw [if_pos h₄]
  · rw [if_neg h₄]
    rfl

theorem consume_takes : Takes consume := takes_next _

/-! ### In front of white space and of a comment -/

/-- The one text goes on with white space, the other one with a comment. -/
structure Cut (P : Fail → Prop) (w w' : List Char) : Prop where
  compiler : ∀ msg, P (.compiler msg)
  null : P .nullPointer
  space : ∃ c v, w = c :: v ∧ isSpace c = true
  slash : ∃ v, w' = '/' :: v

/-- White space, and the slash. -/
def stops : List Char := [' ', '\t', '\n', '\r', '/']

theorem forall_stops {p : Char → Prop} (h : p ' ' ∧ p '\t' ∧ p '\n' ∧ p '\r' ∧ p '/') :
    ∀ c ∈ stops, p c := by
  simpa [stops] using h

/-- The test fails for white space and for a slash. -/
def Quiet (p : Char → Bool) : Prop := stops.all (fun c => !p c) = true

instance (p : Char → Bool) : Decidable (Quiet p) :=
  inferInstanceAs (Decidable (stops.all (fun c => !p c) = true))

theorem Quiet.eq_false {p : Char → Bool} {c : Char} (h : Quiet p) (hc : c ∈ stops) :
    p c = false := by
  simpa using List.all_eq_true.mp h c hc

theorem mem_of_isSpace {c : Char} (h : isSpace c = true) : c ∈ stops := by
  simp only [isSpace, Bool.or_eq_true, beq_iff_eq] at h
  rcases h with ((rfl | rfl) | rfl) | rfl <;> simp [stops]

theorem slash_mem_stops : '/' ∈ stops := by simp [stops]

theorem ne_of_isSpace {c : Char} (h : isSpace c = true) : c ≠ '/' ∧ c ≠ '*' := by
  simp only [isSpace, Bool.or_eq_true, beq_iff_eq] at h
  rcases h with ((rfl | rfl) | rfl) | rfl <;> decide

/-- Some texts. -/
theorem cut_any : Cut (fun _ => True) [' '] ['/'] :=
  ⟨fun _ => trivial, trivial, ⟨' ', [], rfl, rfl⟩, ⟨[], rfl⟩⟩

namespace Cut

variable (h : Cut P w w') {p p' : Char → Bool}

include h

theorem left (hp : Quiet p) : w.head?.any p = false := by
  obtain ⟨c, v, rfl, hc⟩ := h.space
  exact hp.eq_false (mem_of_isSpace hc)

theorem right (hp : Quiet p) : w'.head?.any p = false := by
  obtain ⟨v, rfl⟩ := h.slash
  exact hp.eq_false slash_mem_stops

theorem curIs (hp : Quiet p) : Tame P w w' (curIs p : Scan Char Fail Bool) :=
  .curIs ((h.left hp).trans (h.right hp).symm)

theorem ahead {c d : Char} (hc : Quiet (· == c)) (hd : Quiet (· == d)) :
    Tame P w w' (ahead c d) :=
  .look (h.left hc) (h.right hc) (h.left hd) (h.right hd)

theorem takeWhile (hp : p '/' = false) :
    Tame P w w' (takeWhile p : Scan Char Fail (List Char)) := by
  obtain ⟨v, rfl⟩ := h.slash
  exact .takeWhile hp

theorem skipIf (hp : p '/' = false) : Tame P w w' (skipIf p : Scan Char Fail Unit) := by
  obtain ⟨v, rfl⟩ := h.slash
  exact .skipIf hp

theorem consume : Tame P w w' consume := .next (h.compiler _)

theorem err {α : Type} (msg : String) : Tame P w w' (err msg : Scan Char Fail α) :=
  .throw (h.compiler msg)

/-! ### Literals -/

theorem idOrKeyword : Tame P w w' (idOrKeyword : Scan Char Fail (Token F)) :=
  .bind h.consume fun _ => .bind (h.takeWhile rfl) fun _ => .pure _

theorem exponentialPart : Tame P w w' exponentialPart := by
  have hdigits (sign : List Char) : Tame P w w' (do
      let digits ← Scanner.takeWhile fun c => c == '_' || isDigit c
      pure (sign ++ digits.filter (· != '_')) : Scan Char Fail (List Char)) :=
    .bind (h.takeWhile rfl) fun _ => .pure _
  refine .bind (h.takeWhile rfl) fun _ => .bind (h.curIs (by decide)) fun b => ?_
  cases b with
  | true => exact .bind (.bind h.consume fun _ => .pure _) hdigits
  | false => exact hdigits []

theorem numberChars (hex : Bool) (s : List Char) (isFloat : Bool) :
    Tame P w w' (numberChars hex s isFloat) where
  shrinks r := by
    induction r generalizing s isFloat with
    | nil =>
      intro x r' hx
      cases hx
      exact le_rfl
    | cons c r ih =>
      intro x r' hx
      simp only [Tokenizer.numberChars] at hx
      have hle (s isFloat) (hx : Tokenizer.numberChars hex s isFloat r = .ok (x, r')) :
          r'.length ≤ (c :: r).length := (ih s isFloat x r' hx).trans (Nat.le_succ _)
      split_ifs at hx
      · exact hle _ _ hx
      · exact hle _ _ hx
      · cases hx
        exact Nat.le_succ _
      · exact hle _ _ hx
      · cases hx
        exact le_rfl
  fails r := by
    induction r generalizing s isFloat with
    | nil =>
      intro e hx
      cases hx
    | cons c r ih =>
      intro e hx
      simp only [Tokenizer.numberChars] at hx
      split_ifs at hx
      · exact ih _ _ e hx
      · cases hx
        exact h.compiler _
      · exact ih _ _ e hx
      · exact ih _ _ e hx
  same q := by
    induction q generalizing s isFloat with
    | nil =>
      intro x r' hx _
      obtain ⟨c, v, rfl, hc⟩ := h.space
      obtain ⟨v', rfl⟩ := h.slash
      have hstop : ∀ c ∈ stops, ∀ v,
          Tokenizer.numberChars hex s isFloat (c :: v) = .ok ((s, isFloat, false), c :: v) := by
        intro c hc v
        simp only [stops, List.mem_cons, List.not_mem_nil, or_false] at hc
        rcases hc with rfl | rfl | rfl | rfl | rfl <;> simp [Tokenizer.numberChars, isDigit, isHex]
      rw [List.nil_append, hstop c (mem_of_isSpace hc) v] at hx
      cases hx
      exact ⟨[], rfl, hstop '/' slash_mem_stops v'⟩
    | cons c q ih =>
      intro x r' hx hlen
      simp only [Tokenizer.numberChars, List.cons_append] at hx ⊢
      split_ifs at hx ⊢
      · exact ih _ _ x r' hx hlen
      · exact ih _ _ x r' hx hlen
      · cases hx
        exact ⟨q, rfl, rfl⟩
      · exact ih _ _ x r' hx hlen
      · cases hx
        exact ⟨c :: q, rfl, rfl⟩

theorem consume_twice {α : Type} {m : Scan Char Fail α} (hm : Tame P w w' m) :
    Tame P w w' (do
      let _ ← Tokenizer.consume
      let _ ← Tokenizer.consume
      m) :=
  .bind h.consume fun _ => .bind h.consume fun _ => hm

theorem timeUnit : Tame P w w' timeUnit := by
  refine .bind (h.ahead (by decide) (by decide)) fun b => .ite (h.consume_twice (.pure _)) ?_
  refine .bind (h.ahead (by decide) (by decide)) fun b => .ite (h.consume_twice (.pure _)) ?_
  refine .bind (h.ahead (by decide) (by decide)) fun b => .ite (h.consume_twice ?_) ?_
  · exact .bind (h.curIs (by decide)) fun b => .ite (.bind h.consume fun _ => .pure _) (h.err _)
  refine .bind (h.ahead (by decide) (by decide)) fun b => .ite (h.consume_twice ?_) ?_
  · exact .bind (h.curIs (by decide)) fun b => .ite (.bind h.consume fun _ => .pure _) (h.err _)
  refine .bind (h.ahead (by decide) (by decide)) fun b => .ite (h.consume_twice (.pure _)) ?_
  refine .bind (h.ahead (by decide) (by decide)) fun b => .ite (h.consume_twice ?_) (.pure _)
  exact .bind (h.ahead (by decide) (by decide)) fun b => .ite (h.consume_twice (.pure _)) (h.err _)

theorem suffix (str : List Char) (isFloat : Bool) : Tame P w w' (suffix str isFloat) := by
  refine .bind (h.curIs (by decide)) fun b => .ite (.bind h.consume fun _ => .pure _) ?_
  refine .bind (h.curIs (by decide)) fun b => .ite (.bind h.consume fun _ => .pure _) ?_
  refine .bind (h.curIs (by decide)) fun b => .ite (.bind h.consume fun _ => ?_) (.pure _)
  exact .ite (h.err _) (.pure _)

theorem numberValue {str : List Char} {hex isFloat isWide : Bool} {time : Option ℕ} {e : Fail}
    (he : (numberValue str hex isFloat isWide time : Except Fail (Token F)) = .error e) : P e := by
  have hmsg : ∃ msg, e = .compiler msg := by
    simp only [Tokenizer.numberValue] at he
    repeat' split at he
    all_goals cases he <;> exact ⟨_, rfl⟩
  obtain ⟨msg, rfl⟩ := hmsg
  exact h.compiler msg

/-- What follows the characters of a number. -/
theorem number_eq (hex : Bool) : ∃ f, (number hex : Scan Char Fail (Token F)) =
    Tokenizer.numberChars hex [] false >>= f ∧ ∀ t, Tame P w w' (f t) := by
  have hvalue (str : List Char) (time : Option ℕ) (isFloat : Bool) :
      Tame P w w' (Tokenizer.suffix str isFloat >>= fun t =>
        lift (Tokenizer.numberValue str hex t.1 t.2 time) : Scan Char Fail (Token F)) :=
    .bind (h.suffix str isFloat) fun t => .lift fun e he => h.numberValue he
  refine ⟨_, rfl, fun t => ?_⟩
  rcases t with ⟨s, isFloat, _ | _⟩
  · refine .bind (.pure s) fun str => ?_
    cases hex with
    | true => exact hvalue str none isFloat
    | false => exact .bind h.timeUnit fun time => hvalue str time isFloat
  · refine .bind (.bind h.exponentialPart fun _ => .pure _) fun str => ?_
    cases hex with
    | true => exact hvalue str none isFloat
    | false => exact .bind h.timeUnit fun time => hvalue str time isFloat

theorem number (hex : Bool) : Tame P w w' (number hex : Scan Char Fail (Token F)) := by
  obtain ⟨f, heq, hf⟩ := h.number_eq (F := F) hex
  rw [heq]
  exact .bind (h.numberChars hex [] false) hf

theorem nibble : Tame P w w' nibble :=
  .bind (h.curIs (by decide)) fun _ => .ite (.bind h.consume fun _ => .pure _) (h.err _)

/-- The character behind the backslash. -/
theorem escaped : Tame P w w' (do
    let c ← cur
    match escapes.find? (fun p => c == some p.1) with
    | some p =>
        let _ ← Tokenizer.consume
        pure p.2
    | none => Tokenizer.err ("Invalid escape sequence " ++ String.singleton (charOf c))) := by
  refine .cur_bind (h.err _) (fun c => ?_) ?_
  · split
    · exact .bind h.consume fun _ => .pure _
    · exact h.err _
  · intro y r' hy
    obtain ⟨c, v, rfl, hc⟩ := h.space
    have hnone : escapes.find? (fun p => some c == some p.1) = none := by
      have hall : ∀ c ∈ stops, escapes.find? (fun p => some c == some p.1) = none :=
        forall_stops (by decide)
      exact hall c (mem_of_isSpace hc)
    simp only [List.head?_cons, hnone] at hy
    cases hy

theorem escape : Tame P w w' escape := .bind h.consume fun _ => h.escaped

/-- What follows the first apostrophe. -/
theorem charLiteral_eq : ∃ f, (charLiteral : Scan Char Fail (Token F)) =
    Tokenizer.consume >>= f ∧ ∀ c, Tame P w w' (f c) := by
  refine ⟨_, rfl, fun _ => .bind (h.curIs (by decide)) fun b => ?_⟩
  rcases b with _ | _
  · refine .bind h.consume fun c => .bind (h.curIs (by decide)) fun _ => ?_
    refine .ite (.bind h.consume fun _ => .pure _) (.cur_bind (h.err _) (fun _ => h.err _) ?_)
    rintro y r' ⟨⟩
  · refine .bind h.escape fun c => .bind (h.curIs (by decide)) fun _ => ?_
    refine .ite (.bind h.consume fun _ => .pure _) (.cur_bind (h.err _) (fun _ => h.err _) ?_)
    rintro y r' ⟨⟩

theorem charLiteral : Tame P w w' (charLiteral : Scan Char Fail (Token F)) := by
  obtain ⟨f, heq, hf⟩ := h.charLiteral_eq (F := F)
  rw [heq]
  exact .bind h.consume hf

/-! ### Comments -/

theorem lineBody : Tame P w w' lineBody where
  shrinks r x r' hx := (lineBody_takes r x r' hx).le
  fails r := by
    induction r with
    | nil =>
      intro e hx
      cases hx
      exact h.compiler _
    | cons c r ih =>
      intro e hx
      rw [Tokenizer.lineBody] at hx
      split at hx
      · cases hx
      · exact ih e hx
  same q := by
    induction q with
    | nil =>
      intro x r' hx hlen
      exact absurd hlen (lineBody_takes w x r' hx).not_ge
    | cons c q ih =>
      intro x r' hx hlen
      rw [List.cons_append, Tokenizer.lineBody] at hx ⊢
      split_ifs at hx ⊢
      · cases hx
        exact ⟨q, rfl, rfl⟩
      · exact ih x r' hx hlen

theorem lineComment : Tame P w w' lineComment := h.consume_twice h.lineBody

/-- A comment ends in front of `w` only if it does not depend on `w`. -/
theorem blockBody (depth : ℕ) : Tame P w w' (blockBody depth) where
  shrinks r x r' hx := (blockBody_takes depth r x r' hx).le
  fails r := by
    induction r generalizing depth with
    | nil =>
      intro e hx
      cases hx
      exact h.compiler _
    | cons c r ih =>
      intro e hx
      have hlast (hx : lastSlash r = .error e) : P e := by
        cases r with
        | nil =>
          cases hx
          exact h.compiler _
        | cons d r => cases hx
      simp only [Tokenizer.blockBody] at hx
      split_ifs at hx
      · exact hlast hx
      · exact hlast hx
      · exact ih _ e hx
      · exact ih _ e hx
      · exact ih _ e hx
  same q := by
    induction q generalizing depth with
    | nil =>
      intro x r' hx hlen
      exact absurd hlen (blockBody_takes depth w x r' hx).not_ge
    | cons c q ih =>
      intro x r' hx hlen
      cases q with
      | nil =>
        -- the last character is not one of two that end or begin a comment
        obtain ⟨d, v, rfl, hd⟩ := h.space
        have hne := ne_of_isSpace hd
        have hlast (hx : lastSlash (d :: v) = .ok (x, r')) : False :=
          (lastSlash_takes _ x r' hx).not_ge hlen
        have hrec (n : ℕ) (hx : Tokenizer.blockBody n (d :: v) = .ok (x, r')) : False :=
          (blockBody_takes n _ x r' hx).not_ge hlen
        rw [List.cons_append, List.nil_append, Tokenizer.blockBody] at hx
        simp only [List.head?_cons, Option.some.injEq, hne.1, hne.2, and_false, if_false] at hx
        split_ifs at hx
        · exact (hlast hx).elim
        · exact (hrec _ hx).elim
      | cons d q =>
        have hlast (hx : lastSlash (d :: q ++ w) = .ok (x, r')) :
            ∃ q', r' = q' ++ w ∧ lastSlash (d :: q ++ w') = .ok (x, q' ++ w') := by
          cases hx
          exact ⟨q, rfl, rfl⟩
        have hhead (u : List Char) : (d :: q ++ u).head? = some d := rfl
        rw [List.cons_append, Tokenizer.blockBody, hhead] at hx ⊢
        split_ifs at hx ⊢
        · exact hlast hx
        · exact hlast hx
        · exact ih _ x r' hx hlen
        · exact ih _ x r' hx hlen
        · exact ih _ x r' hx hlen

theorem blockComment : Tame P w w' blockComment := h.consume_twice (h.blockBody 1)

/-- A turn of the loop of `next`, as long as it does not see that a slash in front of `w` begins a
comment in front of `w'`. -/
theorem blank (doc : Bool) {q : List Char} {b : Bool} {r' : List Char}
    (hx : blank doc (q ++ w) = .ok (b, r')) (hlen : w.length ≤ r'.length) :
    ∃ q', r' = q' ++ w ∧ (blank doc (q ++ w') = .ok (b, q' ++ w') ∨ b = false ∧ q' = ['/']) := by
  have hskip {α : Type} {m : Scan Char Fail α} (hm : Tame P w w' m)
      (hx : (m >>= fun _ => pure true) (q ++ w) = .ok (b, r')) :
      ∃ q', r' = q' ++ w ∧ ((m >>= fun _ => pure true) (q ++ w') = .ok (b, q' ++ w') ∨
        b = false ∧ q' = ['/']) := by
    obtain ⟨q', hq', hx'⟩ := (Tame.bind hm fun _ => .pure true).same q b r' hx hlen
    exact ⟨q', hq', .inl hx'⟩
  rw [blank_eq] at hx
  rw [blank_eq]
  rcases q with _ | ⟨x, _ | ⟨y, q⟩⟩
  · obtain ⟨c, v, rfl, hc⟩ := h.space
    rw [if_pos (by simpa using hc)] at hx
    cases hx
    exact absurd hlen (Nat.not_succ_le_self _)
  · have hhead (u : List Char) : ([x] ++ u).head?.any isSpace = isSpace x := rfl
    rw [hhead] at hx ⊢
    cases hx₀ : isSpace x with
    | true =>
      rw [hx₀] at hx
      exact hskip h.consume hx
    | false =>
      -- the last character in front of white space
      obtain ⟨c, v, rfl, hc⟩ := h.space
      obtain ⟨v', rfl⟩ := h.slash
      have hne := ne_of_isSpace hc
      simp [hx₀, starts, hne.1, hne.2] at hx
      obtain ⟨rfl, rfl⟩ := hx
      refine ⟨[x], rfl, ?_⟩
      by_cases hslash : x = '/'
      · exact .inr ⟨rfl, by rw [hslash]⟩
      · refine .inl ?_
        simp [starts, hslash]
  · have hhead (u : List Char) : (x :: y :: q ++ u).head?.any isSpace = isSpace x := rfl
    have hstarts (c d : Char) (u : List Char) : starts c d (x :: y :: q ++ u) =
        (x == c && y == d) := rfl
    simp only [hhead, hstarts] at hx ⊢
    split_ifs at hx ⊢
    · exact hskip h.consume hx
    · exact hskip h.lineComment hx
    · exact hskip h.blockComment hx
    · exact hskip h.lineComment hx
    · cases hx
      exact ⟨x :: y :: q, rfl, .inl rfl⟩

end Cut

/-! ### The turns of the loop -/

section Blanks

variable {doc : Bool} {r r' : List Char}

theorem blank_true (h : blank doc r = .ok (true, r')) : r'.length < r.length := by
  have hskip {α : Type} {m : Scan Char Fail α} (hm : Takes m)
      (h : (m >>= fun _ => pure true) r = .ok (true, r')) : r'.length < r.length :=
    hm.bind_pure (fun _ => true) r true r' h
  have hcomment {m : Scan Char Fail Unit} (hm : Tame (fun _ => True) [' '] ['/'] m) : Takes (do
      let _ ← consume
      let _ ← consume
      m) :=
    consume_takes.bind fun _ => .bind cut_any.consume fun _ => hm
  rw [blank_eq] at h
  split_ifs at h
  · exact hskip consume_takes h
  · exact hskip (hcomment cut_any.lineBody) h
  · exact hskip (hcomment (cut_any.blockBody 1)) h
  · exact hskip (hcomment cut_any.lineBody) h
  · cases h

theorem blank_false (h : blank doc r = .ok (false, r')) : r' = r := by
  rw [blank_eq] at h
  have hskip {α : Type} {m : Scan Char Fail α}
      (h : (m >>= fun _ => pure true) r = .ok (false, r')) : r' = r := by
    obtain ⟨x, s, -, hy⟩ := bind_eq_ok.mp h
    cases hy
  split_ifs at h
  · exact hskip h
  · exact hskip h
  · exact hskip h
  · exact hskip h
  · cases h
    rfl

theorem Cut.blank_fails (hcut : Cut P w w') {e : Fail} (h : Tokenizer.blank doc r = .error e) :
    P e := by
  have hskip {α : Type} {m : Scan Char Fail α} (hm : Tame P w w' m)
      (h : (m >>= fun _ => pure true) r = .error e) : P e :=
    (Tame.bind hm fun _ => .pure true).fails r e h
  rw [blank_eq] at h
  split_ifs at h
  · exact hskip hcut.consume h
  · exact hskip hcut.lineComment h
  · exact hskip hcut.blockComment h
  · exact hskip hcut.lineComment h

/-- One turn, and the rest of them. -/
theorem blanks_eq (doc : Bool) :
    blanks doc = blank doc >>= fun b => if b then blanks doc else pure () := by
  have hadv : Advances fun _ : Unit => (do
      if ← blank doc then pure (.inl ()) else pure (.inr ()) : Scan Char Fail (Unit ⊕ Unit)) := by
    intro _ r b r' h
    obtain ⟨x, s, hx, hy⟩ := bind_eq_ok.mp h
    cases x with
    | true =>
      cases hy
      exact blank_true hx
    | false => cases hy
  conv_lhs => rw [blanks, loop_eq hadv]
  funext r
  cases hx : blank doc r with
  | error e =>
    rw [bind_of_error hx, bind_of_error (bind_of_error hx)]
  | ok t =>
    obtain ⟨b, s⟩ := t
    rw [bind_of_ok hx]
    cases b with
    | true => rw [bind_of_ok ((bind_of_ok hx).trans rfl)]; rfl
    | false => rw [bind_of_ok ((bind_of_ok hx).trans rfl)]; rfl

theorem blanks_of_true (h : blank doc r = .ok (true, r')) : blanks doc r = blanks doc r' := by
  rw [blanks_eq, bind_of_ok h, if_pos rfl, ← blanks_eq]

theorem blanks_of_false (h : blank doc r = .ok (false, r')) : blanks doc r = .ok ((), r) := by
  obtain rfl := blank_false h
  rw [blanks_eq, bind_of_ok h]
  rfl

theorem blanks_of_error {e : Fail} (h : blank doc r = .error e) : blanks doc r = .error e := by
  rw [blanks_eq, bind_of_error h]

/-- The loop ends in front of something that is not skipped, and nothing is given back. -/
theorem blanks_spec {u : Unit} (h : blanks doc r = .ok (u, r')) :
    r'.length ≤ r.length ∧ blank doc r' = .ok (false, r') := by
  induction hn : r.length using Nat.strong_induction_on generalizing r with
  | _ n ih =>
    subst hn
    cases hb : blank doc r with
    | error e =>
      rw [blanks_of_error hb] at h
      cases h
    | ok t =>
      obtain ⟨b, s⟩ := t
      cases b with
      | true =>
        rw [blanks_of_true hb] at h
        obtain ⟨hle, hend⟩ := ih s.length (blank_true hb) h rfl
        exact ⟨hle.trans (blank_true hb).le, hend⟩
      | false =>
        rw [blanks_of_false hb] at h
        cases h
        obtain rfl := blank_false hb
        exact ⟨le_rfl, hb⟩

theorem Cut.blanks_fails (hcut : Cut P w w') {e : Fail} (h : blanks doc r = .error e) : P e := by
  induction hn : r.length using Nat.strong_induction_on generalizing r with
  | _ n ih =>
    subst hn
    cases hb : Tokenizer.blank doc r with
    | error e' =>
      rw [blanks_of_error hb] at h
      cases h
      exact hcut.blank_fails hb
    | ok t =>
      obtain ⟨b, s⟩ := t
      cases b with
      | true =>
        rw [blanks_of_true hb] at h
        exact ih s.length (blank_true hb) h rfl
      | false =>
        rw [blanks_of_false hb] at h
        cases h

/-- The same of the whole loop. -/
theorem Cut.blanks (hcut : Cut P w w') {q : List Char} {u : Unit}
    (h : blanks doc (q ++ w) = .ok (u, r')) (hlen : w.length ≤ r'.length) :
    ∃ q', r' = q' ++ w ∧ (blanks doc (q ++ w') = .ok (u, q' ++ w') ∨
      q' = ['/'] ∧ blanks doc (q ++ w') = blanks doc ('/' :: w')) := by
  induction hn : q.length using Nat.strong_induction_on generalizing q with
  | _ n ih =>
    subst hn
    cases hb : Tokenizer.blank doc (q ++ w) with
    | error e' =>
      rw [blanks_of_error hb] at h
      cases h
    | ok t =>
      obtain ⟨b, s⟩ := t
      cases b with
      | true =>
        rw [blanks_of_true hb] at h
        have hs : w.length ≤ s.length := hlen.trans (blanks_spec h).1
        obtain ⟨q₁, rfl, hq₁ | ⟨hf, -⟩⟩ := hcut.blank doc hb hs
        · have hlt := blank_true hb
          simp only [List.length_append] at hlt
          obtain ⟨q₂, rfl, hq₂⟩ := ih q₁.length (by omega) h rfl
          rw [blanks_of_true hq₁]
          exact ⟨q₂, rfl, hq₂⟩
        · cases hf
      | false =>
        rw [blanks_of_false hb] at h
        cases h
        obtain rfl := blank_false hb
        obtain ⟨q₁, hq, hq₁⟩ := hcut.blank doc hb hlen
        obtain rfl := List.append_cancel_right hq
        rcases hq₁ with hq₁ | ⟨-, rfl⟩
        · exact ⟨q, rfl, .inl (blanks_of_false hq₁)⟩
        · exact ⟨['/'], rfl, .inr ⟨rfl, rfl⟩⟩

end Blanks

/-- The two branches of a test of the next character. -/
theorem curIs_bind {α : Type} {p : Char → Bool} {m₁ m₂ : Scan Char Fail α} {r : List Char} :
    (curIs p >>= fun b => if b = true then m₁ else m₂) r =
      if r.head?.any p then m₁ r else m₂ r := by
  rw [bind_of_ok rfl]
  split <;> rfl

theorem nibble_takes : Takes nibble := by
  intro r x r' hx
  rw [nibble, curIs_bind] at hx
  split at hx
  · exact consume_takes.bind_pure hexCharToInt r x r' hx
  · cases hx

theorem bufTurn_advances : Advances (bufTurn (F := F)) := by
  intro buf r buf' r' hx
  rw [bufTurn, curIs_bind] at hx
  split at hx
  · obtain ⟨c, s, -, hlast⟩ := bind_eq_ok.mp hx
    cases hlast
  · obtain ⟨b, s, hb, hrest⟩ := bind_eq_ok.mp hx
    cases b with
    | true =>
      cases hrest
      exact blank_true hb
    | false =>
      obtain rfl := blank_false hb
      exact (nibble_takes.bind fun _ => .bind cut_any.nibble fun _ => .pure _) _ _ _ hrest

namespace Cut

variable (h : Cut P w w')

include h

theorem bufByte (buf : List (BitVec 8)) :
    Tame P w w' (bufByte buf : Scan Char Fail (_ ⊕ Token F)) :=
  .bind h.nibble fun _ => .bind h.nibble fun _ => .pure _

/-- A slash that does not begin a comment does not belong into a buffer literal. -/
theorem bufBlank (buf : List (BitVec 8)) : Tame P w w' (do
    if ← Tokenizer.blank false then pure (.inl buf) else Tokenizer.bufByte buf :
    Scan Char Fail (_ ⊕ Token F)) where
  shrinks r x r' hx := by
    obtain ⟨b, s, hb, hrest⟩ := bind_eq_ok.mp hx
    cases b with
    | true =>
      cases hrest
      exact (blank_true hb).le
    | false =>
      obtain rfl := blank_false hb
      exact (h.bufByte buf).shrinks _ _ _ hrest
  fails r e hx := by
    cases hb : Tokenizer.blank false r with
    | error e' =>
      rw [bind_of_error hb] at hx
      cases hx
      exact h.blank_fails hb
    | ok t =>
      obtain ⟨b, s⟩ := t
      rw [bind_of_ok hb] at hx
      cases b with
      | true => cases hx
      | false => exact (h.bufByte buf).fails _ _ hx
  same q x r' hx hlen := by
    obtain ⟨b, s, hb, hrest⟩ := bind_eq_ok.mp hx
    cases b with
    | true =>
      cases hrest
      obtain ⟨q₁, rfl, hq₁ | ⟨hf, -⟩⟩ := h.blank false hb hlen
      · exact ⟨q₁, rfl, bind_of_ok hq₁⟩
      · cases hf
    | false =>
      obtain rfl := blank_false hb
      obtain ⟨q₁, hq, hq₁⟩ := h.blank false hb (by simp)
      obtain rfl := List.append_cancel_right hq
      rcases hq₁ with hq₁ | ⟨-, rfl⟩
      · obtain ⟨q₂, rfl, hq₂⟩ := (h.bufByte buf).same q x r' hrest hlen
        exact ⟨q₂, rfl, (bind_of_ok hq₁).trans hq₂⟩
      · cases hrest

theorem bufLiteral : Tame P w w' (bufLiteral : Scan Char Fail (Token F)) := by
  refine .bind h.consume fun _ => .loop bufTurn_advances (fun buf => ?_) []
  exact .bind (h.curIs (by decide)) fun _ => .ite (.bind h.consume fun _ => .pure _) (h.bufBlank buf)

/-- What follows the first character of `0x`. -/
theorem hexLiteral : Tame P w w' (do
    let _ ← Tokenizer.consume
    if ← Scanner.curIs (· == '[') then Tokenizer.bufLiteral
    else if ← Scanner.curIs (fun c => isDigit c || isHex c) then Tokenizer.number true
    else Tokenizer.err "Invalid hex literal" : Scan Char Fail (Token F)) :=
  .bind h.consume fun _ => .bind (h.curIs (by decide)) fun _ => .ite h.bufLiteral <|
    .bind (h.curIs (by decide)) fun _ => .ite (h.number true) (h.err _)

theorem numberLiteral : Tame P w w' (numberLiteral : Scan Char Fail (Token F)) :=
  .bind (h.ahead (by decide) (by decide)) fun _ =>
    .ite (.bind h.consume fun _ => h.hexLiteral) (h.number false)

theorem docLine (s : List Char) : Tame P w w' (docLine s) := by
  refine .bind (h.takeWhile rfl) fun _ => .bind (h.ahead (by decide) (by decide)) fun _ => ?_
  exact .ite (.bind (h.takeWhile rfl) fun _ => .bind (h.skipIf rfl) fun _ => .pure _) (.pure _)

theorem docTurn (s : List Char) : Tame P w w' (docTurn s) := by
  have hzero : w.head?.any (· != '\x00') = w'.head?.any (· != '\x00') := by
    obtain ⟨c, v, rfl, hc⟩ := h.space
    obtain ⟨v', rfl⟩ := h.slash
    have hall : ∀ c ∈ stops, (c != '\x00') = true := forall_stops (by decide)
    exact hall c (mem_of_isSpace hc)
  exact .bind (.curIs hzero) fun _ =>
    .ite (.bind h.consume fun c => .ite (h.docLine _) (.pure _)) (.pure _)

end Cut

theorem docTurn_advances : Advances docTurn := by
  intro s r s' r' hx
  rw [docTurn, curIs_bind] at hx
  split at hx
  · exact (consume_takes.bind fun c => .ite (cut_any.docLine _) (.pure _)) r _ r' hx
  · cases hx

namespace Cut

variable (h : Cut P w w')

include h

theorem docComment : Tame P w w' (docComment : Scan Char Fail (Token F)) :=
  .bind (h.takeWhile rfl) fun _ => .bind (h.skipIf rfl) fun _ =>
    .bind (.loop docTurn_advances h.docTurn []) fun _ => .pure _

/-! ### Symbols -/

/-- A row of characters that may follow: neither white space nor a slash is among them. -/
theorem pick {α : Type} (s : Symbol) (row : List (Char × α)) (f : Char × α → Scan Char Fail Symbol)
    (hrow : ∀ p ∈ row, p.1 ∉ stops) (hf : ∀ p ∈ row, Tame P w w' (f p)) :
    Tame P w w' (cur >>= fun c => (row.find? fun p => c == some p.1).elim (pure s) fun p =>
      Tokenizer.consume >>= fun _ => f p) := by
  have hfound (c : Option Char) : Tame P w w' ((row.find? fun p => c == some p.1).elim (pure s)
      fun p => Tokenizer.consume >>= fun _ => f p) := by
    cases hp : row.find? fun p => c == some p.1 with
    | some p => exact .bind h.consume fun _ => hf p (List.mem_of_find?_eq_some hp)
    | none => exact .pure s
  have hstop : ∀ c ∈ stops,
      row.find? (fun p => some c == some p.1) = none := by
    intro c hc
    rw [List.find?_eq_none]
    intro p hp heq
    exact hrow p hp (Option.some.inj (eq_of_beq heq) ▸ hc)
  refine .cur_bind (hfound none) (fun c => hfound (some c)) ?_
  intro y r' hy _
  obtain ⟨c, v, rfl, hc⟩ := h.space
  obtain ⟨v', rfl⟩ := h.slash
  rw [List.head?_cons, hstop c (mem_of_isSpace hc)] at hy
  cases hy
  exact ⟨[], rfl, by rw [List.head?_cons, hstop '/' slash_mem_stops]; rfl⟩

theorem third (s : Symbol) (row : List (Char × Symbol))
    (hrow : ∀ p ∈ row, p.1 ∉ stops) : Tame P w w' (third s row) := by
  have heq : Tokenizer.third s row = cur >>= fun c =>
      (row.find? fun p => c == some p.1).elim (pure s) fun p =>
        Tokenizer.consume >>= fun _ => pure p.2 := by
    refine congrArg _ (funext fun c => ?_)
    cases row.find? fun p => c == some p.1 <;> rfl
  rw [heq]
  exact h.pick s row _ hrow fun _ _ => .pure _

theorem second (s : Symbol) (row : List (Char × Symbol × List (Char × Symbol)))
    (hrow : ∀ p ∈ row, p.1 ∉ stops)
    (hsub : ∀ p ∈ row, ∀ x ∈ p.2.2, x.1 ∉ stops) :
    Tame P w w' (second s row) := by
  have heq : Tokenizer.second s row = cur >>= fun c =>
      (row.find? fun p => c == some p.1).elim (pure s) fun p =>
        Tokenizer.consume >>= fun _ => Tokenizer.third p.2.1 p.2.2 := by
    refine congrArg _ (funext fun c => ?_)
    cases row.find? fun p => c == some p.1 <;> rfl
  rw [heq]
  exact h.pick s row _ hrow fun p hp => h.third p.2.1 p.2.2 (hsub p hp)

/-- What follows the first character of a symbol. -/
theorem symbol_eq (c : Char) : (∃ f, (symbol c : Scan Char Fail (Token F)) =
    Tokenizer.consume >>= f ∧ ∀ c, Tame P w w' (f c)) ∨
    ∃ msg, (symbol c : Scan Char Fail (Token F)) = Tokenizer.err msg := by
  have hcheck : symbols.all (fun p => p.2.2.all fun x => !stops.contains x.1 &&
      x.2.2.all fun y => !stops.contains y.1) = true := by decide
  have hrows : ∀ p ∈ symbols, (∀ x ∈ p.2.2, x.1 ∉ stops) ∧ ∀ x ∈ p.2.2, ∀ y ∈ x.2.2, y.1 ∉ stops := by
    simp only [List.all_eq_true, Bool.and_eq_true, Bool.not_eq_true', List.contains_eq_mem,
      decide_eq_false_iff_not] at hcheck
    exact fun p hp => ⟨fun x hx => (hcheck p hp x hx).1, fun x hx => (hcheck p hp x hx).2⟩
  rw [Tokenizer.symbol]
  split
  · next p hp =>
      obtain ⟨hrow, hsub⟩ := hrows p (List.mem_of_find?_eq_some hp)
      exact .inl ⟨_, rfl, fun _ => .bind (h.second p.2.1 p.2.2 hrow hsub) fun _ => .pure _⟩
  · exact .inr ⟨_, rfl⟩

theorem symbol (c : Char) : Tame P w w' (symbol c : Scan Char Fail (Token F)) := by
  obtain ⟨f, heq, hf⟩ | ⟨msg, heq⟩ := h.symbol_eq (F := F) c
  · rw [heq]
    exact .bind h.consume hf
  · rw [heq]
    exact h.err msg

/-! ### String literals -/

theorem strTurn (s : List Char) : Tame P w w' (strTurn s) := by
  have hchar (c : Option Char) : Tame P w w' (do
      let c ← if c = some backslash then Tokenizer.escape else Tokenizer.consume
      pure (.inl (s ++ [c])) : Scan Char Fail (_ ⊕ List Char × Bool)) := by
    split
    · exact .bind h.escape fun _ => .pure _
    · exact .bind h.consume fun _ => .pure _
  have hturn (c : Option Char) : Tame P w w' (if c = some quote then (do
        let _ ← Tokenizer.consume
        pure (.inr (s, true)))
      else if c = some '\n' then Tokenizer.err "Unexpected end of string literal"
      else if c = some '$' then pure (.inr (s, false))
      else (do
        let c ← if c = some backslash then Tokenizer.escape else Tokenizer.consume
        pure (.inl (s ++ [c]))) : Scan Char Fail (_ ⊕ List Char × Bool)) :=
    .ite (.bind h.consume fun _ => .pure _) (.ite (h.err _) (.ite (.pure _) (hchar c)))
  refine .cur_bind (hturn none) (fun c => hturn (some c)) ?_
  intro y r' hy hlen
  obtain ⟨c, v, rfl, hc⟩ := h.space
  -- a newline is an error, and any other white space is taken
  have hne : some c ≠ some quote ∧ some c ≠ some '$' ∧ some c ≠ some backslash := by
    have hall : ∀ c ∈ stops, some c ≠ some quote ∧ some c ≠ some '$' ∧ some c ≠ some backslash :=
      forall_stops (by decide)
    exact hall c (mem_of_isSpace hc)
  rw [List.head?_cons, if_neg hne.1, if_neg hne.2.1, if_neg hne.2.2] at hy
  split at hy
  · cases hy
  · cases hy
    exact absurd hlen (Nat.not_succ_le_self _)

end Cut

theorem strTurn_advances : Advances strTurn := by
  have hescape : Takes escape := consume_takes.bind fun _ => cut_any.escaped
  intro s r s' r' hx
  have hchar {m : Scan Char Fail Char} (hm : Takes m)
      (hx : (m >>= fun c => pure (.inl (s ++ [c]) : List Char ⊕ List Char × Bool)) r =
        .ok (.inl s', r')) : r'.length < r.length :=
    hm.bind_pure _ r _ r' hx
  rw [strTurn, bind_of_ok rfl] at hx
  split_ifs at hx
  · obtain ⟨c, r₁, -, hlast⟩ := bind_eq_ok.mp hx
    cases hlast
  · cases hx
  · cases hx
  · exact hchar hescape hx
  · exact hchar consume_takes hx

namespace Cut

variable (h : Cut P w w')

include h

theorem strChars : Tame P w w' strChars := .loop strTurn_advances h.strTurn []

theorem returnNull (fs : List Frame) (acc : List (Token F)) : Tame P w w' (returnNull fs acc) :=
  .ite (.pure _) (.throw h.null)

theorem inBraces (fs : List Frame) (acc : List (Token F)) : Tame P w w' (inBraces fs acc) :=
  .bind (h.curIs (by decide)) fun _ => .ite (h.err _) (.pure _)

theorem strInterpolation (fs : List Frame) (acc : List (Token F)) (s : List Char) :
    Tame P w w' (strInterpolation fs acc s) :=
  .bind h.consume fun _ => .bind (h.curIs (by decide)) fun _ =>
    .ite (.bind h.consume fun _ => h.inBraces _ _) (.pure _)

theorem strLoop (interpolated : Bool) (fs : List Frame) (acc : List (Token F)) :
    Tame P w w' (strLoop interpolated fs acc) := by
  refine .bind h.strChars fun t => ?_
  obtain ⟨s, ended⟩ := t
  exact .ite (h.returnNull _ _) (h.strInterpolation _ _ s)

theorem strLiteral (fs : List Frame) (acc : List (Token F)) : Tame P w w' (strLiteral fs acc) :=
  .bind h.consume fun _ => h.strLoop _ _ _

theorem endInterpolation (fs : List Frame) (acc : List (Token F)) :
    Tame P w w' (endInterpolation fs acc) :=
  .bind (h.curIs (by decide)) fun _ =>
    .ite (.bind h.consume fun _ => h.returnNull _ _) (h.strLoop _ _ _)

theorem accessors (fs : List Frame) (acc : List (Token F)) : Tame P w w' (accessors fs acc) :=
  .bind (h.curIs (by decide)) fun _ =>
    .ite (.bind h.consume fun _ => .pure _) (h.endInterpolation _ _)

theorem returnToken (tok : Token F) (c : Control F) : Tame P w w' (returnToken tok c) := by
  obtain ⟨_ | ⟨frame, fs⟩, acc⟩ := c
  · cases tok <;> exact .pure _
  · have hbraces := h.inBraces fs (acc ++ [tok])
    cases frame with
    | braces =>
      cases tok with
      | symbol s =>
        cases s with
        | rbrace => exact h.endInterpolation fs _
        | _ => exact hbraces
      | _ => exact hbraces
    | first =>
      cases tok with
      | id name => exact h.accessors fs _
      | _ => exact h.err _
    | field =>
      cases tok with
      | id name => exact h.accessors fs _
      | _ => exact h.err _

end Cut

/-! ### Tokens -/

/-- The first character of a token. -/
def readAt : Option Char → Scan Char Fail (Option (Token F))
  | none => pure (some .eof)
  | some c =>
      if isIdStart c then (do pure (some (← idOrKeyword)))
      else if isDigit c then (do pure (some (← numberLiteral)))
      else if c = apostrophe then (do pure (some (← charLiteral)))
      else if c = quote then pure none
      else (do pure (some (← symbol c)))

theorem read_eq (doc : Bool) (r : List Char) : (read doc : Scan Char Fail (Option (Token F))) r =
    if doc && starts '*' '*' r then (docComment >>= fun tok => pure (some tok)) r
    else (cur >>= readAt) r := by
  have hahead : ahead '*' '*' r = .ok (starts '*' '*' r, r) := rfl
  have hat : (cur >>= readAt : Scan Char Fail (Option (Token F))) r = readAt r.head? r := rfl
  rw [read, bind_of_ok hahead, hat]
  split_ifs with hdoc
  · rfl
  · rw [bind_of_ok rfl]
    cases r.head? with
    | none => rfl
    | some c => rfl

namespace Cut

variable (h : Cut P w w')

include h

theorem readAt : Tame P w w' (cur >>= readAt : Scan Char Fail (Option (Token F))) := by
  refine .cur_bind (.pure _) (fun c => ?_) ?_
  · exact .ite (.bind h.idOrKeyword fun _ => .pure _) <|
      .ite (.bind h.numberLiteral fun _ => .pure _) <|
      .ite (.bind h.charLiteral fun _ => .pure _) <|
      .ite (.pure _) (.bind (h.symbol c) fun _ => .pure _)
  · intro y r' hy _
    obtain ⟨c, v, rfl, hc⟩ := h.space
    have hall : ∀ c ∈ stops, isSpace c = true →
        (isIdStart c = false ∧ isDigit c = false ∧ c ≠ apostrophe ∧ c ≠ quote) ∧
          symbols.find? (fun p => c == p.1) = none := forall_stops (by decide)
    obtain ⟨⟨hid, hdigit, hchar, hstr⟩, hsymbol⟩ := hall c (mem_of_isSpace hc) hc
    have herr : (Tokenizer.symbol c : Scan Char Fail (Token F)) (c :: v) =
        Tokenizer.err ("Unexpected token '" ++ String.singleton c ++ "'") (c :: v) := by
      rw [Tokenizer.symbol, hsymbol]
    rw [List.head?_cons, Tokenizer.readAt, hid, hdigit, if_neg Bool.false_ne_true,
      if_neg Bool.false_ne_true, if_neg hchar, if_neg hstr, bind_of_error herr] at hy
    cases hy

theorem read (doc : Bool) : Tame P w w' (read doc : Scan Char Fail (Option (Token F))) := by
  have hdoc : Tame P w w' (Tokenizer.docComment >>= fun tok => pure (some tok) :
      Scan Char Fail (Option (Token F))) := .bind h.docComment fun _ => .pure _
  have hread : (Tokenizer.read doc : Scan Char Fail (Option (Token F))) =
      (Tokenizer.ahead '*' '*' >>= fun b => if doc && b then
        Tokenizer.docComment >>= fun tok => pure (some tok) else cur >>= Tokenizer.readAt) := by
    funext r
    rw [read_eq]
    rw [bind_of_ok (x := starts '*' '*' r) (s := r) rfl]
    split <;> rfl
  rw [hread]
  exact .bind (h.ahead (by decide) (by decide)) fun _ => .ite hdoc h.readAt

end Cut

/-- At a digit, a number takes the digit. -/
theorem number_takes {c : Char} {r r' : List Char} {tok : Token F} (hc : isDigit c = true)
    (hx : number false (c :: r) = .ok (tok, r')) : r'.length < (c :: r).length := by
  have hne : c ≠ '_' ∧ c ≠ '.' ∧ c ≠ 'E' ∧ c ≠ 'e' := by
    refine ⟨?_, ?_, ?_, ?_⟩ <;> rintro rfl <;> cases hc
  have hfirst : numberChars false [] false (c :: r) = numberChars false [c] false r := by
    simp [numberChars, hne.1, hne.2.1, hne.2.2.1, hne.2.2.2, hc]
  obtain ⟨f, heq, hf⟩ := cut_any.number_eq (F := F) false
  rw [heq] at hx
  obtain ⟨t, s, ht, hrest⟩ := bind_eq_ok.mp hx
  rw [hfirst] at ht
  have hle := (cut_any.numberChars false [c] false).shrinks r t s ht
  exact Nat.lt_succ_of_le (((hf t).shrinks s tok r' hrest).trans hle)

theorem numberLiteral_takes {c : Char} {r r' : List Char} {tok : Token F} (hc : isDigit c = true)
    (hx : numberLiteral (c :: r) = .ok (tok, r')) : r'.length < (c :: r).length := by
  have hahead : ahead '0' 'x' (c :: r) = .ok (starts '0' 'x' (c :: r), c :: r) := rfl
  rw [numberLiteral, bind_of_ok hahead] at hx
  split at hx
  · exact (consume_takes.bind fun _ => cut_any.hexLiteral) _ _ _ hx
  · exact number_takes hc hx

theorem docComment_takes {r r' : List Char} {tok : Token F} (hr : starts '*' '*' r = true)
    (hx : docComment r = .ok (tok, r')) : r'.length < r.length := by
  obtain ⟨v, rfl⟩ := starts_iff.mp hr
  have hstars : (Scanner.takeWhile (· == '*') : Scan Char Fail (List Char)) ('*' :: '*' :: v) =
      .ok ('*' :: '*' :: v.takeWhile (· == '*'), v.dropWhile (· == '*')) := rfl
  rw [docComment, bind_of_ok hstars] at hx
  have hrest : Tame (fun _ => True) [' '] ['/'] (do
      skipIf (· == ' ')
      let s ← loop .outOfFuel docTurn []
      pure (.docComment (trim s)) : Scan Char Fail (Token F)) :=
    .bind (cut_any.skipIf rfl) fun _ =>
      .bind (.loop docTurn_advances cut_any.docTurn []) fun _ => .pure _
  have hle := hrest.shrinks _ _ _ hx
  have hdrop := (List.dropWhile_sublist (· == '*') (l := v)).length_le
  simp only [List.length_cons]
  omega

/-- What `read` returns: the end of the file at the end, nothing at a string literal, and else a
token that takes a character. -/
theorem read_spec {doc : Bool} {r r' : List Char} {o : Option (Token F)}
    (hx : read doc r = .ok (o, r')) :
    (o = some .eof ∧ r = [] ∧ r' = []) ∨ (o = none ∧ r' = r ∧ r.head? = some quote) ∨
      (∃ tok, o = some tok ∧ r'.length < r.length) := by
  have htoken {m : Scan Char Fail (Token F)}
      (hm : ∀ tok, m r = .ok (tok, r') → r'.length < r.length)
      (hx : (m >>= fun tok => pure (some tok)) r = .ok (o, r')) :
      ∃ tok, o = some tok ∧ r'.length < r.length := by
    obtain ⟨tok, s, htok, hlast⟩ := bind_eq_ok.mp hx
    cases hlast
    exact ⟨tok, rfl, hm tok htok⟩
  rw [read_eq] at hx
  split_ifs at hx with hdoc
  · rw [Bool.and_eq_true] at hdoc
    exact .inr (.inr (htoken (fun tok h => docComment_takes hdoc.2 h) hx))
  · rw [bind_of_ok rfl] at hx
    cases r with
    | nil =>
      cases hx
      exact .inl ⟨rfl, rfl, rfl⟩
    | cons c v =>
      rw [List.head?_cons, readAt] at hx
      split_ifs at hx with hid hdigit hchar hquote
      · refine .inr (.inr (htoken (fun tok => ?_) hx))
        exact (consume_takes.bind fun _ => .bind (cut_any.takeWhile rfl) fun _ => .pure _) _ tok r'
      · exact .inr (.inr (htoken (fun tok h => numberLiteral_takes hdigit h) hx))
      · refine .inr (.inr (htoken (fun tok => ?_) hx))
        obtain ⟨f, heq, hf⟩ := cut_any.charLiteral_eq (F := F)
        rw [heq]
        exact consume_takes.bind hf _ tok r'
      · cases hx
        exact .inr (.inl ⟨rfl, rfl, by rw [hquote]; rfl⟩)
      · refine .inr (.inr (htoken (fun tok => ?_) hx))
        obtain ⟨f, heq, hf⟩ | ⟨msg, heq⟩ := cut_any.symbol_eq (F := F) c
        · rw [heq]
          exact consume_takes.bind hf _ tok r'
        · rw [heq]
          rintro ⟨⟩

end Tokenizer

end Sedona
