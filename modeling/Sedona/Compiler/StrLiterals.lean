import Sedona.Compiler.Comments

/-!
# String Literals

`TextUtil.toLiteral` writes the characters of a string for the code and the application files that
the tools print. They are read in two ways: by `TextUtil.fromLiteral`, which is given the characters
of the literal alone, and by the tokenizer, which has to find the end of the literal and takes a `$`
for an interpolation. Strings are without surrogates, as the texts of the tokenizer are.

## Main results

* `literal_round_trip`: which strings have a literal, and that both readers read it.
-/

namespace Sedona

open Tokenizer Scanner

namespace TextUtil

/-! ### The two functions -/

/-- The cases of `TextUtil.toLiteral`, each with the character that is put behind a backslash. -/
def literalEscapes : List (Char × Char) :=
  [('\x00', '0'), ('\n', 'n'), ('\r', 'r'), ('\t', 't'), (backslash, backslash), (quote, quote),
   ('$', '$')]

/-- The switch of `TextUtil.toLiteral`; none for the exception. -/
def literalChar (c : Char) : Option (List Char) :=
  match literalEscapes.find? (·.1 == c) with
  | some p => some [backslash, p.2]
  | none => if c < ' ' then none else some [c]

/-- `TextUtil.toLiteral`. -/
def toLiteral : List Char → Option (List Char)
  | [] => some []
  | c :: str => do
      let s ← literalChar c
      let rest ← toLiteral str
      return s ++ rest

/-- The loop of `TextUtil.fromLiteral`; none for an exception, also at the end of the string. -/
def unescape : List Char → Option (List Char)
  | [] => some []
  | ch :: str =>
      if ch ≠ backslash then (unescape str).map (ch :: ·)
      else match str with
        | [] => none
        | ch :: str => do
            let p ← literalEscapes.find? (·.2 == ch)
            let rest ← unescape str
            return p.1 :: rest

/-- `TextUtil.fromLiteral`. -/
def fromLiteral (str : List Char) : Option (List Char) :=
  if backslash ∈ str then unescape str else some str

/-! ### What is written for a character -/

variable {c : Char} {s str lit : List Char}

/-- A character that stands for itself ends nothing and begins nothing in a literal. -/
structure Plain (c : Char) : Prop where
  ne_backslash : c ≠ backslash
  ne_quote : c ≠ quote
  ne_newline : c ≠ '\n'
  ne_dollar : c ≠ '$'

theorem ne_of_not_found (h : literalEscapes.find? (·.1 == c) = none) :
    ∀ p ∈ literalEscapes, c ≠ p.1 := by
  intro p hp hc
  have hp' := List.find?_eq_none.mp h p hp
  rw [hc] at hp'
  exact hp' (beq_self_eq_true _)

theorem literalChar_cases (h : literalChar c = some s) :
    (∃ e, (c, e) ∈ literalEscapes ∧ s = [backslash, e]) ∨ Plain c ∧ s = [c] := by
  rw [literalChar] at h
  split at h
  · next p hp =>
    obtain rfl : p.1 = c := by simpa using List.find?_some hp
    exact .inl ⟨p.2, List.mem_of_find?_eq_some hp, (Option.some.inj h).symm⟩
  · next hnone =>
    have hne := ne_of_not_found hnone
    split at h
    · cases h
    · refine .inr ⟨⟨?_, ?_, ?_, ?_⟩, (Option.some.inj h).symm⟩
      · exact hne (backslash, backslash) (by simp [literalEscapes])
      · exact hne (quote, quote) (by simp [literalEscapes])
      · exact hne ('\n', 'n') (by simp [literalEscapes])
      · exact hne ('$', '$') (by simp [literalEscapes])

/-- There is no literal for the other control characters. -/
theorem literalChar_eq_none : literalChar c = none ↔
    c < ' ' ∧ c ≠ '\x00' ∧ c ≠ '\n' ∧ c ≠ '\r' ∧ c ≠ '\t' := by
  have hother : c < ' ' → c ≠ backslash ∧ c ≠ quote ∧ c ≠ '$' := by
    intro hc
    refine ⟨?_, ?_, ?_⟩ <;> rintro rfl <;> exact absurd hc (by decide)
  rw [literalChar]
  split
  · next p hp =>
    obtain rfl : p.1 = c := by simpa using List.find?_some hp
    have hmem := List.mem_of_find?_eq_some hp
    refine iff_of_false (by simp) ?_
    rintro ⟨hc, h₀, hn, hr, ht⟩
    obtain ⟨hb, hq, hd⟩ := hother hc
    simp only [literalEscapes, List.mem_cons, List.not_mem_nil, or_false] at hmem
    rcases hmem with rfl | rfl | rfl | rfl | rfl | rfl | rfl <;> contradiction
  · next hnone =>
    have hne := ne_of_not_found hnone
    split
    · next hc =>
      refine iff_of_true rfl ⟨hc, ?_, ?_, ?_, ?_⟩
      · exact hne ('\x00', '0') (by simp [literalEscapes])
      · exact hne ('\n', 'n') (by simp [literalEscapes])
      · exact hne ('\r', 'r') (by simp [literalEscapes])
      · exact hne ('\t', 't') (by simp [literalEscapes])
    · next hc => exact iff_of_false (by simp) fun h => hc h.1

theorem toLiteral_cons (h : toLiteral (c :: str) = some lit) :
    ∃ s rest, literalChar c = some s ∧ toLiteral str = some rest ∧ lit = s ++ rest := by
  rw [toLiteral] at h
  obtain ⟨s, hs, h⟩ := Option.bind_eq_some_iff.mp h
  obtain ⟨rest, hrest, h⟩ := Option.bind_eq_some_iff.mp h
  exact ⟨s, rest, hs, hrest, (Option.some.inj h).symm⟩

/-- A string has a literal if all its characters have. -/
theorem toLiteral_eq_none (str : List Char) :
    toLiteral str = none ↔ ∃ c ∈ str, literalChar c = none := by
  induction str with
  | nil => simp [toLiteral]
  | cons c str ih =>
    rw [List.exists_mem_cons_iff, ← ih, toLiteral]
    cases hc : literalChar c with
    | none => simp
    | some s => cases hstr : toLiteral str <;> simp

/-! ### Reading the literal alone -/

theorem unescape_plain (h : Plain c) (str : List Char) :
    unescape (c :: str) = (unescape str).map (c :: ·) := by
  rw [unescape.eq_def]
  exact if_pos h.ne_backslash

theorem unescape_escaped {e : Char} (h : (c, e) ∈ literalEscapes) (str : List Char) :
    unescape (backslash :: e :: str) = (unescape str).map (c :: ·) := by
  have hfind : literalEscapes.all
      (fun p => literalEscapes.find? (·.2 == p.2) == some p) = true := by decide
  have hp := List.all_eq_true.mp hfind _ h
  rw [beq_iff_eq] at hp
  rw [unescape, if_neg (by simp), hp]
  cases unescape str <;> rfl

theorem unescape_toLiteral (h : toLiteral str = some lit) : unescape lit = some str := by
  induction str generalizing lit with
  | nil =>
    cases h
    rfl
  | cons c str ih =>
    obtain ⟨s, rest, hs, hrest, rfl⟩ := toLiteral_cons h
    obtain ⟨e, he, rfl⟩ | ⟨hplain, rfl⟩ := literalChar_cases hs
    · rw [List.cons_append, List.singleton_append, unescape_escaped he, ih hrest]
      rfl
    · rw [List.singleton_append, unescape_plain hplain, ih hrest]
      rfl

theorem unescape_of_not_mem (h : backslash ∉ lit) : unescape lit = some lit := by
  induction lit with
  | nil => rfl
  | cons c lit ih =>
    rw [List.mem_cons, not_or] at h
    rw [unescape.eq_def]
    dsimp only
    rw [if_pos (Ne.symm h.1), ih h.2]
    rfl

/-- A string without a backslash is returned as it is, which makes no difference. -/
theorem fromLiteral_eq (lit : List Char) : fromLiteral lit = unescape lit := by
  rw [fromLiteral]
  split
  · rfl
  · next h => exact (unescape_of_not_mem h).symm

/-! ### Reading the literal in a text -/

theorem strTurn_plain (h : Plain c) (s r : List Char) :
    strTurn s (c :: r) = .ok (.inl (s ++ [c]), r) := by
  simp [strTurn, cur, consume, Scanner.next, bind, StateT.bind, Except.bind, h.ne_quote,
    h.ne_newline, h.ne_dollar, h.ne_backslash]

theorem strTurn_quote (s r : List Char) : strTurn s (quote :: r) = .ok (.inr (s, true), r) := by
  simp [strTurn, cur, consume, Scanner.next, bind, StateT.bind, Except.bind]

theorem strTurn_escaped {e : Char} (h : (c, e) ∈ literalEscapes) (s r : List Char) :
    strTurn s (backslash :: e :: r) = .ok (.inl (s ++ [c]), r) := by
  have hfind : literalEscapes.all
      (fun p => escapes.find? (fun q => some p.2 == some q.1) == some (p.2, p.1)) = true := by
    decide
  have hp := List.all_eq_true.mp hfind _ h
  rw [beq_iff_eq] at hp
  have hescape : escape (backslash :: e :: r) = .ok (c, r) := by
    simp only [escape, cur, consume, Scanner.next, bind, StateT.bind, Except.bind, List.head?_cons]
    rw [hp]
    rfl
  have hquote : backslash ≠ quote := by decide
  have hnewline : backslash ≠ '\n' := by decide
  have hdollar : backslash ≠ '$' := by decide
  simp [strTurn, cur, bind, StateT.bind, Except.bind, hescape, hquote, hnewline, hdollar]

/-- The loop of the tokenizer goes on to the closing quote. -/
theorem strLoop_toLiteral (h : toLiteral str = some lit) (s r : List Char) :
    loop .outOfFuel strTurn s (lit ++ quote :: r) = .ok ((s ++ str, true), r) := by
  induction str generalizing lit s with
  | nil =>
    cases h
    rw [loop_eq strTurn_advances, List.nil_append, bind_of_ok (strTurn_quote s r), List.append_nil]
    rfl
  | cons c str ih =>
    obtain ⟨w, rest, hw, hrest, rfl⟩ := toLiteral_cons h
    have hturn : strTurn s (w ++ (rest ++ quote :: r)) =
        .ok (.inl (s ++ [c]), rest ++ quote :: r) := by
      obtain ⟨e, he, rfl⟩ | ⟨hplain, rfl⟩ := literalChar_cases hw
      · exact strTurn_escaped he s _
      · exact strTurn_plain hplain s _
    rw [loop_eq strTurn_advances, List.append_assoc, bind_of_ok hturn]
    refine (ih hrest (s ++ [c])).trans ?_
    rw [List.append_assoc, List.singleton_append]

variable {F : Floats}

theorem strLiteral_toLiteral (h : toLiteral str = some lit) (acc : List (Token F))
    (r : List Char) : strLiteral [] acc (quote :: (lit ++ quote :: r)) =
      .ok (.go ⟨[], acc ++ [.strLiteral str]⟩, r) := by
  have hchars : strChars (lit ++ quote :: r) = .ok ((str, true), r) := strLoop_toLiteral h [] r
  have hconsume : consume (quote :: (lit ++ quote :: r)) = .ok (quote, lit ++ quote :: r) := rfl
  rw [strLiteral, bind_of_ok hconsume, strLoop, bind_of_ok hchars]
  simp [returnNull]

/-- No token and no comment begins with a quote: `next` returns null in front of it. -/
theorem next_quote (doc : Bool) (r : List Char) :
    (Tokenizer.next doc : Scan Char Fail (Option (Token F))) (quote :: r) =
      .ok (none, quote :: r) := by
  have hspace : isSpace quote = false := by decide
  have hslash : quote ≠ '/' := by decide
  have hstar : quote ≠ '*' := by decide
  have hblank : blank doc (quote :: r) = .ok (false, quote :: r) := by
    rw [blank_eq]
    simp [starts, hspace, hslash, hstar]
  have hat : readAt (F := F) (some quote) (quote :: r) = .ok (none, quote :: r) := by
    have hid : isIdStart quote = false := by decide
    have hdigit : isDigit quote = false := by decide
    have hchar : quote ≠ apostrophe := by decide
    simp [readAt, hid, hdigit, hchar]
  have hdoc : (doc && starts '*' '*' (quote :: r)) = false := by
    simp [starts, hstar]
  rw [Tokenizer.next, bind_of_ok (blanks_of_false hblank), read_eq, hdoc]
  exact hat

theorem step_toLiteral (h : toLiteral str = some lit) (doc : Bool) (acc : List (Token F))
    (r : List Char) : step doc ⟨[], acc⟩ (quote :: (lit ++ quote :: r)) =
      .ok (.go ⟨[], acc ++ [.strLiteral str]⟩, r) := by
  rw [step, bind_of_ok (next_quote doc _)]
  exact strLiteral_toLiteral h acc r

/-- **String literals.** A string has a literal unless it holds a control character other than the
four that have an escape. `fromLiteral` reads the string from the literal, and the tokenizer finds
the end of the literal and reads the same string, whatever stands in front of it and behind it. -/
theorem literal_round_trip (F : Floats) (doc : Bool) (str : List Char) :
    (toLiteral str = none ↔
      ∃ c ∈ str, c < ' ' ∧ c ≠ '\x00' ∧ c ≠ '\n' ∧ c ≠ '\r' ∧ c ≠ '\t') ∧
    ∀ lit, toLiteral str = some lit → fromLiteral lit = some str ∧
      ∀ (fuel : ℕ) (acc : List (Token F)) (r : List Char),
        run doc (fuel + 1) ⟨[], acc⟩ (quote :: (lit ++ quote :: r)) =
          run doc fuel ⟨[], acc ++ [.strLiteral str]⟩ r := by
  refine ⟨?_, fun lit h => ⟨?_, fun fuel acc r => ?_⟩⟩
  · rw [toLiteral_eq_none]
    simp only [literalChar_eq_none]
  · rw [fromLiteral_eq, unescape_toLiteral h]
  · rw [run, step_toLiteral h]

/-- A price in quotes, on a line. -/
theorem literal_round_trip_price :
    fromLiteral [backslash, quote, backslash, '$', '1', backslash, quote, backslash, 'n'] =
      some [quote, '$', '1', quote, '\n'] :=
  ((literal_round_trip ⟨Unit, Unit, fun _ => none, fun _ => none, fun _ _ => 0⟩ false
    [quote, '$', '1', quote, '\n']).2 _ rfl).1

end TextUtil

end Sedona
