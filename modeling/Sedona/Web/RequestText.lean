import Mathlib.Data.List.DropRight
import Sedona.Library.Rescan
import Sedona.Web.Handler

/-!
# The Text of a Request

What `Handler.work` makes of the bytes that have arrived, without offsets and without the fixed sizes
of its arrays.

## Main results

* `resumes_text`: an incomplete request leaves no trace, as long as nothing is trimmed.
* `spend_eq`: what an attempt leaves, if it trims nothing.
-/

namespace Sedona.Web

open Rescan

/-- The name and the value of a parameter. -/
abbrev Line := List Byte × List Byte

/-- A request that has arrived. -/
structure Text where
  method : List Byte
  uri : List Byte
  version : List Byte
  lines : List Line

/-- How far a request has arrived: the lines that are complete, and whether another one has
begun. -/
structure Waiting where
  lines : List Line
  begun : Bool

/-- The lines that are complete. -/
def known : Except Waiting Text → List Line
  | .error w => w.lines
  | .ok t => t.lines

/-- The number of lines that have begun. -/
def begun : Except Waiting Text → ℕ
  | .error w => w.lines.length + w.begun.toNat
  | .ok t => t.lines.length

/-- The lines of a request, behind those that are known. -/
def headers (method uri version : List Byte) : ℕ → List Line → Scan Text Byte Waiting
  | 0, lines => fun s => (.error ⟨lines, false⟩, s)
  | n + 1, lines =>
      branch (code '\r') ⟨lines, false⟩
        (expect (code '\r') ⟨lines, false⟩ (expect (code '\n') ⟨lines, false⟩ fun s =>
          (.ok ⟨method, uri, version, lines⟩, s)))
        (token 0 (code ':') ⟨lines, true⟩ fun name => token 0 (code '\r') ⟨lines, true⟩ fun value =>
          expect (code '\n') ⟨lines, true⟩ (headers method uri version n (lines ++ [(name, value)])))

/-- A request. -/
def text : Scan Text Byte Waiting :=
  token 0 (code ' ') ⟨[], false⟩ fun method => token 0 (code ' ') ⟨[], false⟩ fun uri =>
    token 0 (code '\r') ⟨[], false⟩ fun version =>
      expect (code '\n') ⟨[], false⟩ (headers method uri version bufLen [])

/-! ### Trimming -/

/-- A string without the spaces at its end. -/
def body (t : List Byte) : List Byte := t.rdropWhile (· = code ' ')

/-- What `Str.trim` leaves of a string. -/
def blank (t : List Byte) : List Byte := body t ++ List.replicate (t.length - (body t).length) 0

/-- What `Str.trim` makes of a string. -/
def strip (t : List Byte) : List Byte := (body t).dropWhile (· = code ' ')

/-- A line of which nothing is trimmed at an end. -/
def Clean (l : Line) : Prop := body l.1 = l.1 ∧ body l.2 = l.2

/-- What is left of the lines after an attempt. -/
def spendLines : ℕ → List Byte → List Byte
  | 0, s => s
  | _ + 1, [] => []
  | n + 1, x :: s =>
      if x = code '\r' then x :: s
      else
        match cut 0 (code ':') (x :: s) with
        | none => x :: s
        | some (name, s) =>
            match cut 0 (code '\r') s with
            | none => name ++ 0 :: s
            | some (value, s) =>
                match s with
                | [] => name ++ 0 :: (value ++ [0])
                | y :: s =>
                    if y = code '\n' then
                      blank name ++ 0 :: (blank value ++ 0 :: y :: spendLines n s)
                    else name ++ 0 :: (value ++ 0 :: y :: s)

/-- What is left of the bytes after an attempt. -/
def spend (s : List Byte) : List Byte :=
  match cut 0 (code ' ') s with
  | none => s
  | some (method, s) =>
      match cut 0 (code ' ') s with
      | none => method ++ 0 :: s
      | some (uri, s) =>
          match cut 0 (code '\r') s with
          | none => method ++ 0 :: (uri ++ 0 :: s)
          | some (version, s) =>
              match s with
              | [] => method ++ 0 :: (uri ++ 0 :: (version ++ [0]))
              | y :: s =>
                  method ++ 0 :: (uri ++ 0 :: (version ++ 0 :: y ::
                    if y = code '\n' then spendLines bufLen s else s))

/-! ### Attempts -/

variable {method uri version : List Byte} {lines : List Line}

theorem extends_headers (n : ℕ) (lines : List Line) :
    Extends (headers method uri version n lines) := by
  induction n generalizing lines with
  | zero => exact extends_error _
  | succ n ih =>
      exact extends_branch (extends_expect (extends_expect (extends_ok _)))
        (extends_token fun name => extends_token fun value => extends_expect (ih _))

theorem resumes_headers (n : ℕ) (lines : List Line) :
    Resumes (headers method uri version n lines) := by
  induction n generalizing lines with
  | zero => exact resumes_error _
  | succ n ih =>
      exact resumes_branch (resumes_expect (resumes_expect (resumes_ok _)))
        (resumes_token fun name => resumes_token fun value => resumes_expect (ih _))
        (fun s => expect_keeps s) (fun x s hx => token_leaves (by decide) hx s)

/-- What follows a request does not change it. -/
theorem extends_text : Extends text :=
  extends_token fun _ => extends_token fun _ => extends_token fun _ =>
    extends_expect (extends_headers _ _)

/-- **An incomplete request leaves no trace.** -/
theorem resumes_text : Resumes text :=
  resumes_token fun _ => resumes_token fun _ => resumes_token fun _ =>
    resumes_expect (resumes_headers _ _)

/-- A line that is complete, and what follows it. -/
def line (s : List Byte) : Option (Line × List Byte) :=
  match cut 0 (code ':') s with
  | none => none
  | some (name, s) =>
      match cut 0 (code '\r') s with
      | none => none
      | some (value, s) =>
          match s with
          | [] => none
          | y :: s => if y = code '\n' then some ((name, value), s) else none

theorem line_eq_some {s r : List Byte} {l : Line} (h : line s = some (l, r)) : ∃ c d,
    s = l.1 ++ c :: (l.2 ++ d :: code '\n' :: r) ∧
    cut 0 (code ':') s = some (l.1, l.2 ++ d :: code '\n' :: r) ∧
    cut 0 (code '\r') (l.2 ++ d :: code '\n' :: r) = some (l.2, code '\n' :: r) := by
  rw [line] at h
  split at h
  · cases h
  rename_i name s₁ hname
  split at h
  · cases h
  rename_i value s₂ hvalue
  split at h
  · cases h
  rename_i y s₃
  split at h
  · rename_i hy
    subst hy
    cases h
    obtain ⟨c, -, hs, -⟩ := cut_eq_some_iff.mp hname
    obtain ⟨d, -, rfl, -⟩ := cut_eq_some_iff.mp hvalue
    exact ⟨c, d, hs, hname, hvalue⟩
  · cases h

variable {n : ℕ} {x : Byte} {s r : List Byte} {l : Line}

/-- The line is incomplete. -/
theorem headers_stuck (hx : x ≠ code '\r') (hline : line (x :: s) = none) :
    headers method uri version (n + 1) lines (x :: s) =
      (.error ⟨lines, true⟩, spendLines (n + 1) (x :: s)) := by
  rw [line] at hline
  cases hname : cut 0 (code ':') (x :: s) with
  | none => simp only [headers, branch, token, spendLines, hx, hname, if_false]
  | some p =>
  obtain ⟨name, s₁⟩ := p
  simp only [hname] at hline
  cases hvalue : cut 0 (code '\r') s₁ with
  | none => simp only [headers, branch, token, spendLines, hx, hname, hvalue, if_false]
  | some p =>
  obtain ⟨value, _ | ⟨y, s₂⟩⟩ := p
  · simp only [headers, branch, token, expect, spendLines, hx, hname, hvalue, if_false]
  simp only [hvalue] at hline
  have hy : y ≠ code '\n' := by
    rintro rfl
    rw [if_pos rfl] at hline
    cases hline
  simp only [headers, branch, token, expect, spendLines, hx, hname, hvalue, hy, if_false]

/-- The line is complete. -/
theorem headers_line (hx : x ≠ code '\r') (hline : line (x :: s) = some (l, r)) :
    headers method uri version (n + 1) lines (x :: s) =
      ((headers method uri version n (lines ++ [l]) r).1, l.1 ++ 0 :: (l.2 ++ 0 ::
        code '\n' :: (headers method uri version n (lines ++ [l]) r).2)) := by
  obtain ⟨c, d, -, hname, hvalue⟩ := line_eq_some hline
  simp only [headers, branch, token, expect, hx, hname, hvalue, if_false, if_true]

theorem spendLines_line (hx : x ≠ code '\r') (hline : line (x :: s) = some (l, r)) :
    spendLines (n + 1) (x :: s) =
      blank l.1 ++ 0 :: (blank l.2 ++ 0 :: code '\n' :: spendLines n r) := by
  obtain ⟨c, d, -, hname, hvalue⟩ := line_eq_some hline
  simp only [spendLines, hx, hname, hvalue, if_false, if_true]

/-- The lines end, and the request with them. -/
theorem headers_end : headers method uri version (n + 1) lines (code '\r' :: code '\n' :: s) =
    (.ok ⟨method, uri, version, lines⟩, code '\r' :: code '\n' :: s) := by
  simp only [headers, branch, expect, if_true]

/-- The lines end, and the request does not. -/
theorem headers_unended (hx : ∀ s', s ≠ code '\n' :: s') :
    headers method uri version (n + 1) lines (code '\r' :: s) =
      (.error ⟨lines, false⟩, code '\r' :: s) := by
  obtain _ | ⟨y, s⟩ := s
  · simp only [headers, branch, expect, if_true]
  · have hy : y ≠ code '\n' := by
      rintro rfl
      exact hx s rfl
    simp only [headers, branch, expect, hy, if_true, if_false]

theorem spendLines_cr : spendLines (n + 1) (code '\r' :: s) = code '\r' :: s := by
  simp only [spendLines, if_true]

/-- **What a round does:** the lines end, a line is incomplete, or there is a line. -/
theorem headers_cases (n : ℕ) (lines : List Line) (s : List Byte) :
    ((∃ r, headers method uri version (n + 1) lines s = (r, s) ∧
        (r = .error ⟨lines, false⟩ ∨ r = .ok ⟨method, uri, version, lines⟩)) ∧
      spendLines (n + 1) s = s) ∨
    headers method uri version (n + 1) lines s = (.error ⟨lines, true⟩, spendLines (n + 1) s) ∨
    ∃ l r, line s = some (l, r) ∧ headers method uri version (n + 1) lines s =
        ((headers method uri version n (lines ++ [l]) r).1, l.1 ++ 0 :: (l.2 ++ 0 ::
          code '\n' :: (headers method uri version n (lines ++ [l]) r).2)) ∧
      spendLines (n + 1) s =
        blank l.1 ++ 0 :: (blank l.2 ++ 0 :: code '\n' :: spendLines n r) := by
  obtain _ | ⟨x, s⟩ := s
  · exact .inl ⟨⟨_, rfl, .inl rfl⟩, rfl⟩
  by_cases hx : x = code '\r'
  · subst hx
    refine .inl ⟨?_, spendLines_cr⟩
    by_cases hend : ∃ s', s = code '\n' :: s'
    · obtain ⟨s', rfl⟩ := hend
      exact ⟨_, headers_end, .inr rfl⟩
    · exact ⟨_, headers_unended fun s' hs => hend ⟨s', hs⟩, .inl rfl⟩
  cases hline : line (x :: s) with
  | none => exact .inr (.inl (headers_stuck hx hline))
  | some p =>
      exact .inr (.inr ⟨p.1, p.2, rfl, headers_line hx hline, spendLines_line hx hline⟩)

theorem blank_of_body {t : List Byte} (h : body t = t) : blank t = t := by
  rw [blank, h, Nat.sub_self, List.replicate_zero, List.append_nil]

/-- The lines that are known stay known. -/
theorem prefix_known (n : ℕ) (lines : List Line) (s : List Byte) :
    lines <+: known (headers method uri version n lines s).1 := by
  induction n generalizing lines s with
  | zero => exact List.prefix_rfl
  | succ n ih =>
      obtain ⟨⟨r, h, rfl | rfl⟩, -⟩ | h | ⟨l, r, -, h, -⟩ :=
        headers_cases n lines s <;> rw [h]
      · exact List.prefix_rfl
      · exact List.prefix_rfl
      · exact List.prefix_rfl
      · exact (List.prefix_append _ _).trans (ih _ r)

/-- The request-line is that of the request. -/
theorem headers_ok (n : ℕ) (lines : List Line) (s : List Byte) {t : Text}
    (h : (headers method uri version n lines s).1 = .ok t) :
    t.method = method ∧ t.uri = uri ∧ t.version = version := by
  induction n generalizing lines s with
  | zero => cases h
  | succ n ih =>
      obtain ⟨⟨r, heq, rfl | rfl⟩, -⟩ | heq | ⟨l, r, -, heq, -⟩ :=
        @headers_cases method uri version n lines s <;>
        rw [heq] at h
      · cases h
      · cases h
        exact ⟨rfl, rfl, rfl⟩
      · cases h
      · exact ih _ r h

theorem length_known_le (r : Except Waiting Text) : (known r).length ≤ begun r := by
  cases r with
  | error w => exact Nat.le_add_right _ _
  | ok t => exact le_rfl

/-- What is left of the lines, if nothing is trimmed. -/
theorem spendLines_eq (n : ℕ) (lines : List Line) (s : List Byte)
    (hclean : ∀ l ∈ known (headers method uri version n lines s).1, Clean l) :
    spendLines n s = (headers method uri version n lines s).2 := by
  induction n generalizing lines s with
  | zero => rfl
  | succ n ih =>
      obtain ⟨⟨r, h, -⟩, hspend⟩ | h | ⟨l, r, -, h, hspend⟩ :=
        @headers_cases method uri version n lines s
      · rw [h, hspend]
      · rw [h]
      · rw [h] at hclean
        have hline : Clean l :=
          hclean l ((prefix_known n (lines ++ [l]) r).subset (by simp))
        rw [h, hspend, ih _ r hclean, blank_of_body hline.1, blank_of_body hline.2]

/-- **What is left, if nothing is trimmed.** -/
theorem spend_eq {s : List Byte} (hclean : ∀ l ∈ known (text s).1, Clean l) :
    spend s = (text s).2 := by
  cases hm : cut 0 (code ' ') s with
  | none => simp only [text, token, spend, hm]
  | some p =>
  obtain ⟨method, s₁⟩ := p
  cases hu : cut 0 (code ' ') s₁ with
  | none => simp only [text, token, spend, hm, hu]
  | some p =>
  obtain ⟨uri, s₂⟩ := p
  cases hv : cut 0 (code '\r') s₂ with
  | none => simp only [text, token, spend, hm, hu, hv]
  | some p =>
  obtain ⟨version, s₃⟩ := p
  obtain _ | ⟨y, s₄⟩ := s₃
  · simp only [text, token, expect, spend, hm, hu, hv]
  by_cases hy : y = code '\n'
  · simp only [text, token, expect, hm, hu, hv, hy, if_true] at hclean
    simp only [text, token, expect, spend, hm, hu, hv, hy, if_true, spendLines_eq _ _ _ hclean]
  · simp only [text, token, expect, spend, hm, hu, hv, hy, if_false]

end Sedona.Web
