import Sedona.Kits.Depend
import Sedona.Library.Spans

/-!
# The Grammar of Dependencies

A layout is how a dependency is written: with the segments as digits and all spaces. The parser reads
every layout whose versions have eight segments at most and in which no space follows a checksum; the
documented grammar is of the layouts without empty segments, with eight digits in a checksum and
without spaces at the end.

## Main results

* `parse_chars`: what the parser does with a layout.
* `exists_layout`: it accepts layouts only.
* `Layout.chars_injective`: a string has one layout at most.
* `parse_iff_documented_iff`: when the parser and the documented grammar agree on a string.
-/

namespace Sedona.Depend

open Scanner Spans

/-! ### Layouts -/

def spaces (n : ℕ) : List Char := List.replicate n ' '

/-- Digits of a checksum. -/
def Hex := { digits : List Char // ∀ c ∈ digits, (hexDigit c).isSome = true }

/-- The segments of a version as they are written. The first one has a digit. -/
@[ext] structure Segs where
  first : List Char
  rest : List (List Char)
  first_ne : first ≠ []
  first_digits : ∀ c ∈ first, isDigit c = true
  rest_digits : ∀ s ∈ rest, ∀ c ∈ s, isDigit c = true

/-- What follows the first version of a constraint, with the numbers of spaces. -/
inductive Tail where
  | plain
  | plus (after : ℕ)
  | exact (after : ℕ)
  | range (before : ℕ) (last : Segs) (after : ℕ)

/-- A constraint, with the spaces behind it. -/
inductive Item where
  | checksum (digits : Hex) (after : ℕ)
  | version (segs : Segs) (between : ℕ) (tail : Tail)

/-- A dependency: `gap` is the number of further spaces behind the name, and the number with an item is
that of the spaces in front of it. -/
@[ext] structure Layout where
  name : List Char
  gap : ℕ
  first : Item
  rest : List (ℕ × Item)
  name_ne : name ≠ []
  name_chars : ∀ c ∈ name, (c != ' ') = true

/-! ### The characters of a layout -/

/-- Further segments. -/
def dotted (rest : List (List Char)) : List Char := rest.flatMap fun s => '.' :: s

def Segs.chars (s : Segs) : List Char := s.first ++ dotted s.rest

def Tail.chars : Tail → List Char
  | plain => []
  | plus after => '+' :: spaces after
  | exact after => '=' :: spaces after
  | range before last after => '-' :: (spaces before ++ (last.chars ++ spaces after))

def Item.chars : Item → List Char
  | checksum digits after => '0' :: 'x' :: (digits.1 ++ spaces after)
  | version segs between tail => segs.chars ++ (spaces between ++ tail.chars)

/-- Further items. -/
def listed (rest : List (ℕ × Item)) : List Char :=
  rest.flatMap fun p => ',' :: (spaces p.1 ++ p.2.chars)

def Layout.chars (l : Layout) : List Char :=
  l.name ++ (spaces (l.gap + 1) ++ (l.first.chars ++ listed l.rest))

/-! ### What a layout means -/

def number (digits : List Char) : BitVec 32 := digits.foldl (fun x c => x * 10 + digit c) 0

def hexNumber (digits : List Char) : BitVec 32 :=
  digits.foldl (fun x c => (x <<< 4) ||| (hexDigit c).getD 0) 0

def Segs.value (s : Segs) : Version := ⟨(s.first :: s.rest).map number⟩

def Tail.value (version : Version) : Tail → Constraint
  | plain => { version }
  | plus _ => { version, isPlus := true }
  | exact _ => { version, isExact := true }
  | range _ last _ => { version, endVersion := last.value }

def Item.value : Item → Constraint
  | checksum digits _ => { checksum := hexNumber digits.1 }
  | version segs _ tail => tail.value segs.value

def Layout.items (l : Layout) : List Item := l.first :: l.rest.map Prod.snd

def Layout.value (l : Layout) : Depend := ⟨l.name, l.items.map Item.value⟩

/-! ### What the parser takes -/

/-- There are eight segments at most. -/
def Segs.Fits (s : Segs) : Prop := s.rest.length < 8

/-- A version at the end of a range has eight segments at most. -/
def Tail.Fits : Tail → Prop
  | range _ last _ => last.Fits
  | _ => True

/-- Versions have eight segments at most, and no space follows a checksum. -/
def Item.Fits : Item → Prop
  | checksum _ after => after = 0
  | version segs _ tail => segs.Fits ∧ tail.Fits

def Layout.Fits (l : Layout) : Prop := ∀ i ∈ l.items, i.Fits

/-! ### The documented grammar -/

/-- All segments have digits. -/
def Segs.Proper (s : Segs) : Prop := ∀ d ∈ s.rest, d ≠ []

def Tail.Proper : Tail → Prop
  | range _ last _ => last.Proper
  | _ => True

/-- A checksum has eight digits, and all segments have digits. -/
def Item.Proper : Item → Prop
  | checksum digits _ => digits.1.length = 8
  | version segs _ tail => segs.Proper ∧ tail.Proper

def Tail.after (between : ℕ) : Tail → ℕ
  | plain => between
  | plus after => after
  | exact after => after
  | range _ _ after => after

/-- The number of spaces behind a constraint. -/
def Item.after : Item → ℕ
  | checksum _ after => after
  | version _ between tail => tail.after between

/-- All constraints are of the grammar, and no space follows the last one. -/
def Layout.Proper (l : Layout) : Prop :=
  (∀ i ∈ l.items, i.Proper) ∧ ∀ i ∈ l.items.getLast?, i.after = 0

/-- The string is in the documented grammar. -/
def Documented (s : List Char) : Prop := ∃ l : Layout, s = l.chars ∧ l.Proper

/-! ### Spaces -/

theorem spaces_all (n : ℕ) : ∀ c ∈ spaces n, (c == ' ') = true := by
  intro c hc
  rw [List.eq_of_mem_replicate hc]
  rfl

theorem consumeSpaces_spaces {n : ℕ} {r : List Char} (hr : Stops (· == ' ') r) :
    consumeSpaces (spaces n ++ r) = .ok ((), r) := by
  have hdrop := dropWhile_append (spaces_all n) hr
  have htake : Scanner.takeWhile (· == ' ') (spaces n ++ r) =
      (.ok ((spaces n ++ r).takeWhile (· == ' '), r) : Except Unit _) := by
    rw [Scanner.takeWhile, hdrop]
  rw [consumeSpaces, bind_of_ok htake]
  rfl

theorem spaces_inj {n m : ℕ} {r r' : List Char} (hr : Stops (· == ' ') r)
    (hr' : Stops (· == ' ') r') (h : spaces n ++ r = spaces m ++ r') : n = m ∧ r = r' := by
  obtain ⟨hnm, hrr⟩ := append_inj (spaces_all n) (spaces_all m) hr hr' h
  have hlen := congrArg List.length hnm
  rw [spaces, spaces, List.length_replicate, List.length_replicate] at hlen
  exact ⟨hlen, hrr⟩

/-- The spaces that `consumeSpaces` takes. -/
theorem of_consumeSpaces {s r : List Char} {u : Unit} (h : consumeSpaces s = .ok (u, r)) :
    ∃ n, s = spaces n ++ r := by
  obtain ⟨t, r', ht, hr⟩ := bind_eq_ok.mp h
  obtain ⟨rfl, rfl⟩ := Prod.mk.inj (Except.ok.inj ht)
  obtain ⟨-, rfl⟩ := Prod.mk.inj (Except.ok.inj hr)
  have hall : s.takeWhile (· == ' ') = spaces (s.takeWhile (· == ' ')).length := by
    refine List.eq_replicate_iff.mpr ⟨rfl, fun c hc => ?_⟩
    have hspace := List.mem_takeWhile_imp hc
    exact eq_of_beq hspace
  exact ⟨_, by rw [← hall, List.takeWhile_append_dropWhile]⟩

/-! ### Versions -/

/-- What may follow a version: neither a digit nor a dot. -/
def Follow (r : List Char) : Prop := Stops (fun c => isDigit c || c == '.') r

theorem Follow.digit {r : List Char} (h : Follow r) : Stops isDigit r := by
  cases r with
  | nil => rfl
  | cons c r =>
    have hc : (isDigit c || c == '.') = false := h
    exact stops_cons (Bool.or_eq_false_iff.mp hc).1

theorem Follow.dot {c : Char} {r : List Char} (h : Follow (c :: r)) : c ≠ '.' := by
  have hc : (isDigit c || c == '.') = false := h
  exact fun heq => by simp [heq] at hc

theorem dotted_stops (rest : List (List Char)) {r : List Char} (hr : Follow r) :
    Stops isDigit (dotted rest ++ r) := by
  cases rest with
  | nil => exact hr.digit
  | cons s rest => rfl

theorem segments_digits {segs : List (BitVec 32)} {seg : BitVec 32} {s r : List Char}
    (hs : ∀ c ∈ s, isDigit c = true) :
    segments segs seg (s ++ r) = segments segs (s.foldl (fun x c => x * 10 + digit c) seg) r := by
  induction s generalizing seg with
  | nil => rfl
  | cons c s ih =>
    rw [List.cons_append, segments, if_pos (hs c (List.mem_cons_self ..))]
    exact ih fun d hd => hs d (List.mem_cons_of_mem c hd)

/-- Behind the first segment, the ninth one is an error. -/
theorem segments_dotted {rest : List (List Char)} {segs : List (BitVec 32)} {seg : BitVec 32}
    {r : List Char} (hrest : ∀ s ∈ rest, ∀ c ∈ s, isDigit c = true) (hr : Follow r) :
    segments segs seg (dotted rest ++ r) = if segs.length + rest.length < 8 then
      .ok (segs ++ seg :: rest.map number, r) else .error () := by
  induction rest generalizing segs seg with
  | nil =>
    have hend : segments segs seg r = (push segs seg).map (·, r) := by
      cases r with
      | nil => cases h : push segs seg <;> simp [segments, h] <;> rfl
      | cons c r =>
        have hc : isDigit c = false := hr.digit
        cases h : push segs seg <;> simp [segments, h, hc, hr.dot] <;> rfl
    rw [dotted, List.flatMap_nil, List.nil_append, hend, push, List.length_nil, Nat.add_zero]
    split_ifs <;> rfl
  | cons s rest ih =>
    have hdot : isDigit '.' = false := rfl
    have hs := hrest s (List.mem_cons_self ..)
    have hnext (segs : List (BitVec 32)) : segments segs 0 (s ++ (dotted rest ++ r)) =
        if segs.length + rest.length < 8 then
          .ok (segs ++ number s :: rest.map number, r) else .error () := by
      rw [segments_digits hs]
      exact ih fun t ht => hrest t (List.mem_cons_of_mem s ht)
    have hchars : dotted (s :: rest) ++ r = '.' :: (s ++ (dotted rest ++ r)) := by
      simp [dotted]
    rw [hchars, segments, hdot, push]
    by_cases hlen : segs.length < 8
    · have happ := hnext (segs ++ [seg])
      simp only [if_pos hlen, List.length_append, List.length_singleton] at happ ⊢
      refine happ.trans ?_
      simp [Nat.add_assoc, Nat.add_comm 1]
    · have hmore : ¬segs.length + (s :: rest).length < 8 := by
        rw [List.length_cons]
        omega
      rw [if_neg hlen, if_neg hmore]
      rfl

instance (s : Segs) : Decidable s.Fits := inferInstanceAs (Decidable (s.rest.length < 8))

theorem parseVersion_chars (s : Segs) {r : List Char} (hr : Follow r) :
    parseVersion (s.chars ++ r) = if s.Fits then .ok (s.value, r) else .error () := by
  obtain ⟨c, first, hfirst⟩ := List.exists_cons_of_ne_nil s.first_ne
  have hall := s.first_digits
  rw [hfirst] at hall
  have hdigit : consumeDigit (s.chars ++ r) = .ok (digit c, first ++ (dotted s.rest ++ r)) := by
    rw [Segs.chars, hfirst, List.cons_append, List.cons_append, List.append_assoc, consumeDigit,
      if_pos (hall c (List.mem_cons_self ..))]
  have hnumber : first.foldl (fun x c => x * 10 + digit c) (digit c) = number s.first := by
    rw [hfirst, number, List.foldl_cons]
    simp
  have hsegs : segments [] (digit c) (first ++ (dotted s.rest ++ r)) =
      if s.rest.length < 8 then .ok (number s.first :: s.rest.map number, r) else .error () := by
    rw [segments_digits fun d hd => hall d (List.mem_cons_of_mem c hd), hnumber,
      segments_dotted s.rest_digits hr]
    simp
  rw [parseVersion, bind_of_ok hdigit]
  by_cases hlen : s.rest.length < 8
  · rw [if_pos hlen] at hsegs
    have hfits : s.Fits := hlen
    rw [bind_of_ok hsegs, if_pos hfits]
    rfl
  · rw [if_neg hlen] at hsegs
    have hfits : ¬s.Fits := hlen
    rw [bind_of_error hsegs, if_neg hfits]

/-! ### Constraints -/

/-- What may follow a constraint. -/
def Comma (r : List Char) : Prop := r = [] ∨ ∃ v, r = ',' :: v

theorem Comma.stops {p : Char → Bool} {r : List Char} (h : Comma r) (hp : p ',' = false) :
    Stops p r := by
  rcases h with rfl | ⟨v, rfl⟩
  · rfl
  · exact stops_cons hp

/-- Behind a version there are spaces, a sign, a comma or the end. -/
theorem follow_spaces {n : ℕ} {r : List Char} (hr : Follow r) : Follow (spaces n ++ r) := by
  cases n with
  | zero => exact hr
  | succ n => rfl

theorem Comma.follow {r : List Char} (h : Comma r) : Follow r := h.stops rfl

theorem tail_stops {t : Tail} {r : List Char} (hr : Comma r) :
    Stops (· == ' ') (t.chars ++ r) ∧ Follow (t.chars ++ r) := by
  cases t with
  | plain => exact ⟨hr.stops rfl, hr.follow⟩
  | plus n => exact ⟨rfl, rfl⟩
  | exact n => exact ⟨rfl, rfl⟩
  | range n s m => exact ⟨rfl, rfl⟩

/-- Versions begin with a digit. -/
theorem segs_stops {s : Segs} {p : Char → Bool} (hp : ∀ c, isDigit c = true → p c = false)
    (r : List Char) : Stops p (s.chars ++ r) := by
  obtain ⟨c, first, hfirst⟩ := List.exists_cons_of_ne_nil s.first_ne
  have hc := s.first_digits c (by rw [hfirst]; exact List.mem_cons_self ..)
  rw [Segs.chars, hfirst]
  exact stops_cons (hp c hc)

theorem space_of_digit (c : Char) (h : isDigit c = true) : (c == ' ') = false := by
  rw [beq_eq_false_iff_ne]
  rintro rfl
  cases h

/-- `constraint` behind the first version. -/
def constraintTail (version : Version) : Scan Char Unit Constraint := do
  consumeSpaces
  if ← curIs (· == '+') then
    consume
    consumeSpaces
    pure { version, isPlus := true }
  else if ← curIs (· == '=') then
    consume
    consumeSpaces
    pure { version, isExact := true }
  else if ← curIs (· == '-') then
    consume
    consumeSpaces
    let endVersion ← parseVersion
    consumeSpaces
    pure { version, endVersion }
  else pure { version }

theorem constraint_eq : constraint = (look (· == '0') (· == 'x') >>= fun b =>
    if b then parseChecksum >>= fun checksum => pure { checksum }
    else parseVersion >>= constraintTail) := rfl

section Test

variable {α : Type} {p : Char → Bool} {m₁ m₂ : Scan Char Unit α} {r : List Char}

/-- A test of the next character. -/
theorem curIs_then (h : r.head?.any p = true) :
    (curIs p >>= fun b => if b = true then m₁ else m₂) r = m₁ r := by
  rw [bind_of_ok rfl, if_pos h]

theorem curIs_else (h : r.head?.any p = false) :
    (curIs p >>= fun b => if b = true then m₁ else m₂) r = m₂ r := by
  rw [bind_of_ok rfl, h]
  rfl

end Test

instance (t : Tail) : Decidable t.Fits := by
  cases t <;> unfold Tail.Fits <;> infer_instance

theorem constraintTail_chars (version : Version) (n : ℕ) (t : Tail) {r : List Char} (hr : Comma r) :
    constraintTail version (spaces n ++ (t.chars ++ r)) =
      if t.Fits then .ok (t.value version, r) else .error () := by
  have hafter (m : ℕ) : consumeSpaces (spaces m ++ r) = .ok ((), r) :=
    consumeSpaces_spaces (hr.stops rfl)
  rw [constraintTail, bind_of_ok (consumeSpaces_spaces (tail_stops hr).1)]
  cases t with
  | plain =>
    rw [Tail.chars, List.nil_append, curIs_else (hr.stops rfl), curIs_else (hr.stops rfl),
      curIs_else (hr.stops rfl)]
    rfl
  | plus after =>
    have hsign : consume ((Tail.plus after).chars ++ r) = .ok ((), spaces after ++ r) := rfl
    rw [curIs_then rfl, bind_of_ok hsign, bind_of_ok (hafter after)]
    rfl
  | exact after =>
    have hsign : consume ((Tail.exact after).chars ++ r) = .ok ((), spaces after ++ r) := rfl
    rw [curIs_else rfl, curIs_then rfl, bind_of_ok hsign, bind_of_ok (hafter after)]
    rfl
  | range before last after =>
    have hsign : consume ((Tail.range before last after).chars ++ r) =
        .ok ((), spaces before ++ (last.chars ++ (spaces after ++ r))) := by
      simp [consume, Tail.chars]
    have hversion := parseVersion_chars last (follow_spaces hr.follow (n := after))
    rw [curIs_else rfl, curIs_else rfl, curIs_then rfl, bind_of_ok hsign,
      bind_of_ok (consumeSpaces_spaces (segs_stops space_of_digit _))]
    by_cases hfits : last.Fits
    · rw [if_pos hfits] at hversion
      have htail : (Tail.range before last after).Fits := hfits
      rw [bind_of_ok hversion, bind_of_ok (hafter after), if_pos htail]
      rfl
    · rw [if_neg hfits] at hversion
      have htail : ¬(Tail.range before last after).Fits := hfits
      rw [bind_of_error hversion, if_neg htail]

/-- A digit of a checksum, and what stops the loop over them. -/
theorem hexDigits_chars {digits : List Char} (h : ∀ c ∈ digits, (hexDigit c).isSome = true)
    {r : List Char} (hr : Stops (fun c => (hexDigit c).isSome) r) (v : BitVec 32) :
    hexDigits v (digits ++ r) =
      .ok (digits.foldl (fun x c => (x <<< 4) ||| (hexDigit c).getD 0) v, r) := by
  induction digits generalizing v with
  | nil =>
    cases r with
    | nil => rfl
    | cons c r =>
      have hc : (hexDigit c).isSome = false := hr
      have hnone : hexDigit c = none := by simpa using hc
      rw [List.nil_append, hexDigits, hnone]
      rfl
  | cons c digits ih =>
    obtain ⟨d, hd⟩ := Option.isSome_iff_exists.mp (h c (List.mem_cons_self ..))
    rw [List.cons_append, hexDigits, hd]
    refine (ih (fun x hx => h x (List.mem_cons_of_mem c hx)) _).trans ?_
    rw [List.foldl_cons, hd]
    rfl

theorem hex_stops {n : ℕ} {r : List Char} (hr : Comma r) :
    Stops (fun c => (hexDigit c).isSome) (spaces n ++ r) := by
  cases n with
  | zero => exact hr.stops rfl
  | succ n => rfl

theorem constraint_checksum (digits : Hex) (n : ℕ) {r : List Char} (hr : Comma r) :
    constraint ((Item.checksum digits n).chars ++ r) =
      .ok ((Item.checksum digits n).value, spaces n ++ r) := by
  have hlook : (look (· == '0') (· == 'x') : Scan Char Unit Bool)
      ((Item.checksum digits n).chars ++ r) = .ok (true, (Item.checksum digits n).chars ++ r) := rfl
  have hdigits : parseChecksum ((Item.checksum digits n).chars ++ r) =
      .ok (hexNumber digits.1, spaces n ++ r) := by
    have hhex := hexDigits_chars digits.2 (hex_stops hr (n := n)) 0
    rw [← List.append_assoc] at hhex
    exact hhex
  rw [constraint_eq, bind_of_ok hlook, if_pos rfl, bind_of_ok hdigits]
  rfl

/-- A version is not taken for a checksum. -/
theorem not_checksum (s : Segs) (n : ℕ) (t : Tail) {r : List Char} (hr : Comma r) :
    ((s.chars ++ (spaces n ++ (t.chars ++ r))).head?.any (· == '0') &&
      (s.chars ++ (spaces n ++ (t.chars ++ r))).tail.head?.any (· == 'x')) = false := by
  obtain ⟨c, first, hfirst⟩ := List.exists_cons_of_ne_nil s.first_ne
  have hchars : (s.chars ++ (spaces n ++ (t.chars ++ r))).tail =
      first ++ (dotted s.rest ++ (spaces n ++ (t.chars ++ r))) := by
    simp [Segs.chars, hfirst]
  have hstops : Stops (· == 'x') (first ++ (dotted s.rest ++ (spaces n ++ (t.chars ++ r)))) := by
    cases hcase : first with
    | cons d first =>
      have hd := s.first_digits d (by simp [hfirst, hcase])
      refine stops_cons (beq_eq_false_iff_ne.mpr ?_)
      rintro rfl
      cases hd
    | nil =>
      cases s.rest with
      | cons u rest => exact stops_cons rfl
      | nil =>
        cases n with
        | succ n => exact stops_cons rfl
        | zero =>
          cases t with
          | plain => exact hr.stops rfl
          | _ => exact stops_cons rfl
  rw [hchars, Bool.and_eq_false_iff]
  exact .inr hstops

theorem constraint_version (s : Segs) (n : ℕ) (t : Tail) {r : List Char} (hr : Comma r) :
    constraint ((Item.version s n t).chars ++ r) =
      if s.Fits ∧ t.Fits then .ok ((Item.version s n t).value, r) else .error () := by
  have hchars : (Item.version s n t).chars ++ r = s.chars ++ (spaces n ++ (t.chars ++ r)) := by
    simp [Item.chars]
  have hfollow : Follow (spaces n ++ (t.chars ++ r)) := follow_spaces (tail_stops hr).2
  have hlook : (look (· == '0') (· == 'x') : Scan Char Unit Bool)
      (s.chars ++ (spaces n ++ (t.chars ++ r))) =
        .ok (false, s.chars ++ (spaces n ++ (t.chars ++ r))) := by
    rw [look, not_checksum s n t hr]
  have hversion := parseVersion_chars s hfollow
  rw [hchars, constraint_eq, bind_of_ok hlook, if_neg Bool.false_ne_true]
  by_cases hfits : s.Fits
  · rw [if_pos hfits] at hversion
    rw [bind_of_ok hversion, constraintTail_chars s.value n t hr]
    simp only [hfits, true_and]
    rfl
  · rw [if_neg hfits] at hversion
    rw [bind_of_error hversion, if_neg fun h => hfits h.1]

/-! ### Layouts only -/

theorem of_segments {s r : List Char} {segs segs' : List (BitVec 32)} {seg : BitVec 32}
    (h : segments segs seg s = .ok (segs', r)) : ∃ d rest, s = d ++ (dotted rest ++ r) ∧
      (∀ c ∈ d, isDigit c = true) ∧ ∀ t ∈ rest, ∀ c ∈ t, isDigit c = true := by
  induction s generalizing segs seg with
  | nil =>
    rw [segments, push] at h
    split at h
    · cases h
      exact ⟨[], [], rfl, by simp, by simp⟩
    · cases h
  | cons c s ih =>
    rw [segments, push] at h
    split_ifs at h with hc hlen hdot
    · obtain ⟨d, rest, rfl, hd, hrest⟩ := ih h
      exact ⟨c :: d, rest, rfl, List.forall_mem_cons.mpr ⟨hc, hd⟩, hrest⟩
    · obtain ⟨d, rest, rfl, hd, hrest⟩ := ih h
      refine ⟨[], d :: rest, ?_, by simp, List.forall_mem_cons.mpr ⟨hd, hrest⟩⟩
      simp [dotted, hdot]
    · cases h
      exact ⟨[], [], rfl, by simp, by simp⟩
    · cases h
    · cases h

theorem of_parseVersion {s r : List Char} {v : Version} (h : parseVersion s = .ok (v, r)) :
    ∃ segs : Segs, s = segs.chars ++ r := by
  obtain ⟨seg, s₁, hdigit, h⟩ := bind_eq_ok.mp h
  obtain ⟨segs, s₂, hsegs, hlast⟩ := bind_eq_ok.mp h
  cases hlast
  obtain ⟨d, rest, rfl, hd, hrest⟩ := of_segments hsegs
  cases s with
  | nil => cases hdigit
  | cons c s =>
    rw [consumeDigit] at hdigit
    split at hdigit
    · next hc =>
        cases hdigit
        refine ⟨⟨c :: d, rest, List.cons_ne_nil c d, List.forall_mem_cons.mpr ⟨hc, hd⟩, hrest⟩, ?_⟩
        simp [Segs.chars]
    · cases hdigit

theorem of_hexDigits {s r : List Char} {v v' : BitVec 32} (h : hexDigits v s = .ok (v', r)) :
    ∃ digits : Hex, s = digits.1 ++ r := by
  induction s generalizing v with
  | nil =>
    cases h
    exact ⟨⟨[], by simp⟩, rfl⟩
  | cons c s ih =>
    rw [hexDigits] at h
    cases hc : hexDigit c with
    | none =>
      rw [hc] at h
      cases h
      exact ⟨⟨[], by simp⟩, rfl⟩
    | some d =>
      rw [hc] at h
      obtain ⟨digits, rfl⟩ := ih h
      have hsome : (hexDigit c).isSome = true := by rw [hc]; rfl
      exact ⟨⟨c :: digits.1, List.forall_mem_cons.mpr ⟨hsome, digits.2⟩⟩, rfl⟩

theorem of_curIs {α : Type} {p : Char → Bool} {m₁ m₂ : Scan Char Unit α} {s r : List Char} {x : α}
    (h : (curIs p >>= fun b => if b = true then m₁ else m₂) s = .ok (x, r)) :
    (∃ c v, s = c :: v ∧ p c = true ∧ m₁ s = .ok (x, r)) ∨ m₂ s = .ok (x, r) := by
  cases hs : s.head?.any p with
  | false =>
    rw [curIs_else hs] at h
    exact .inr h
  | true =>
    rw [curIs_then hs] at h
    cases s with
    | nil => cases hs
    | cons c v => exact .inl ⟨c, v, rfl, hs, h⟩

theorem of_constraintTail {s r : List Char} {v : Version} {c : Constraint}
    (h : constraintTail v s = .ok (c, r)) : ∃ n, ∃ t : Tail, s = spaces n ++ (t.chars ++ r) := by
  obtain ⟨u, s₁, hspaces, hsign⟩ := bind_eq_ok.mp h
  obtain ⟨n, rfl⟩ := of_consumeSpaces hspaces
  refine ⟨n, ?_⟩
  rcases of_curIs hsign with ⟨x, w, rfl, hx, hplus⟩ | hsign
  · obtain ⟨_, _, hcons, hplus⟩ := bind_eq_ok.mp hplus
    obtain ⟨_, _, hafter, hlast⟩ := bind_eq_ok.mp hplus
    cases hcons
    cases hlast
    obtain ⟨m, hm⟩ := of_consumeSpaces hafter
    exact ⟨.plus m, by rw [Tail.chars, eq_of_beq hx, List.cons_append, ← hm]; rfl⟩
  rcases of_curIs hsign with ⟨x, w, rfl, hx, hexact⟩ | hsign
  · obtain ⟨_, _, hcons, hexact⟩ := bind_eq_ok.mp hexact
    obtain ⟨_, _, hafter, hlast⟩ := bind_eq_ok.mp hexact
    cases hcons
    cases hlast
    obtain ⟨m, hm⟩ := of_consumeSpaces hafter
    exact ⟨.exact m, by rw [Tail.chars, eq_of_beq hx, List.cons_append, ← hm]; rfl⟩
  rcases of_curIs hsign with ⟨x, w, rfl, hx, hrange⟩ | hplain
  · obtain ⟨_, _, hcons, hrange⟩ := bind_eq_ok.mp hrange
    obtain ⟨_, _, hbefore, hrange⟩ := bind_eq_ok.mp hrange
    obtain ⟨_, _, hversion, hrange⟩ := bind_eq_ok.mp hrange
    obtain ⟨_, _, hafter, hlast⟩ := bind_eq_ok.mp hrange
    cases hcons
    cases hlast
    obtain ⟨m, hm⟩ := of_consumeSpaces hbefore
    obtain ⟨segs, rfl⟩ := of_parseVersion hversion
    obtain ⟨k, rfl⟩ := of_consumeSpaces hafter
    refine ⟨.range m segs k, ?_⟩
    have hw : w = spaces m ++ (segs.chars ++ (spaces k ++ r)) := hm
    rw [Tail.chars, eq_of_beq hx, hw]
    simp
  · cases hplain
    exact ⟨.plain, rfl⟩

theorem of_constraint {s r : List Char} {c : Constraint} (h : constraint s = .ok (c, r)) :
    ∃ i : Item, s = i.chars ++ r := by
  rw [constraint_eq, bind_of_ok rfl] at h
  split at h
  · next hlook =>
      obtain ⟨v, s₁, hchecksum, hlast⟩ := bind_eq_ok.mp h
      cases hlast
      obtain ⟨x, w, rfl⟩ : ∃ x w, s = x :: w := by
        cases s with
        | nil => cases hlook
        | cons x w => exact ⟨x, w, rfl⟩
      obtain ⟨y, w, rfl⟩ : ∃ y w', w = y :: w' := by
        cases w with
        | nil => simp at hlook
        | cons y w => exact ⟨y, w, rfl⟩
      have hxy : x = '0' ∧ y = 'x' := by simpa using hlook
      obtain ⟨digits, hdigits⟩ := of_hexDigits (s := w) hchecksum
      refine ⟨.checksum digits 0, ?_⟩
      rw [hxy.1, hxy.2, hdigits]
      simp [Item.chars, spaces]
  · obtain ⟨v, s₁, hversion, htail⟩ := bind_eq_ok.mp h
    obtain ⟨segs, rfl⟩ := of_parseVersion hversion
    obtain ⟨n, t, rfl⟩ := of_constraintTail htail
    exact ⟨.version segs n t, by simp [Item.chars]⟩

/-! ### Lists of constraints -/

theorem constraintTurn_advances : Advances constraintTurn := by
  intro acc r acc' r' h
  rcases of_curIs h with ⟨x, w, rfl, -, hcomma⟩ | hother
  · obtain ⟨_, _, hcons, hcomma⟩ := bind_eq_ok.mp hcomma
    obtain ⟨_, _, hspaces, hcomma⟩ := bind_eq_ok.mp hcomma
    obtain ⟨_, _, hconstraint, hlast⟩ := bind_eq_ok.mp hcomma
    cases hcons
    cases hlast
    obtain ⟨n, hn⟩ := of_consumeSpaces hspaces
    obtain ⟨i, rfl⟩ := of_constraint hconstraint
    have hw : w = spaces n ++ (i.chars ++ r') := hn
    rw [hw]
    simp only [List.length_cons, List.length_append]
    omega
  · cases hother

/-- The loop of `parse`, and the test behind it. -/
def constraintsFrom (acc : List Constraint) : Scan Char Unit (List Constraint) := do
  let constraints ← loop () constraintTurn acc
  if ← more then fail else pure constraints

theorem constraintsFrom_nil (acc : List Constraint) : constraintsFrom acc [] = .ok (acc, []) := by
  have hloop : loop () constraintTurn acc [] = .ok (acc, []) := by
    rw [loop_eq constraintTurn_advances]
    rfl
  rw [constraintsFrom, bind_of_ok hloop]
  rfl

/-- Behind a comma there is a further constraint. -/
theorem constraintsFrom_comma (acc : List Constraint) (v : List Char) :
    constraintsFrom acc (',' :: v) =
      (consumeSpaces >>= fun _ => constraint >>= fun c => constraintsFrom (acc ++ [c])) v := by
  have hturn : constraintTurn acc (',' :: v) =
      (consumeSpaces >>= fun _ => constraint >>= fun c => pure (.inl (acc ++ [c]))) v := by
    rw [constraintTurn, curIs_then rfl]
    rfl
  cases hspaces : consumeSpaces v with
  | error e =>
    rw [bind_of_error hspaces] at hturn ⊢
    rw [constraintsFrom, loop_eq constraintTurn_advances, bind_of_error (bind_of_error hturn)]
  | ok t =>
    obtain ⟨_, w⟩ := t
    rw [bind_of_ok hspaces] at hturn ⊢
    cases hc : constraint w with
    | error e =>
      rw [bind_of_error hc] at hturn ⊢
      rw [constraintsFrom, loop_eq constraintTurn_advances, bind_of_error (bind_of_error hturn)]
    | ok t =>
      obtain ⟨c, w'⟩ := t
      rw [bind_of_ok hc] at hturn ⊢
      rw [constraintsFrom, loop_eq constraintTurn_advances, bind_assoc, bind_of_ok hturn]
      rfl

/-- Anything but a comma behind a constraint is an error. -/
theorem constraintsFrom_other {acc : List Constraint} {c : Char} {v : List Char} (hc : c ≠ ',') :
    constraintsFrom acc (c :: v) = .error () := by
  have hturn : constraintTurn acc (c :: v) = .ok (.inr acc, c :: v) := by
    rw [constraintTurn, curIs_else (by simpa using hc)]
    rfl
  have hloop : loop () constraintTurn acc (c :: v) = .ok (acc, c :: v) := by
    rw [loop_eq constraintTurn_advances, bind_of_ok hturn]
    rfl
  rw [constraintsFrom, bind_of_ok hloop]
  rfl

instance (i : Item) : Decidable i.Fits := by
  cases i <;> unfold Item.Fits <;> infer_instance

theorem item_stops (i : Item) (r : List Char) : Stops (· == ' ') (i.chars ++ r) := by
  cases i with
  | checksum digits n => exact stops_cons rfl
  | version segs n t =>
    rw [Item.chars, List.append_assoc]
    exact segs_stops space_of_digit _

theorem comma_listed (rest : List (ℕ × Item)) : Comma (listed rest) := by
  cases rest with
  | nil => exact .inl rfl
  | cons p rest => exact .inr ⟨_, rfl⟩

/-- A constraint, and the list behind it. -/
theorem constraint_listed (i : Item) {rest : List (ℕ × Item)} {acc : List Constraint}
    (ih : ∀ acc, constraintsFrom acc (listed rest) = if ∀ p ∈ rest, p.2.Fits then
      .ok (acc ++ rest.map fun p => p.2.value, []) else .error ()) :
    (constraint >>= fun c => constraintsFrom (acc ++ [c])) (i.chars ++ listed rest) =
      if i.Fits ∧ ∀ p ∈ rest, p.2.Fits then
        .ok (acc ++ i.value :: rest.map fun p => p.2.value, []) else .error () := by
  have hnext := ih (acc ++ [i.value])
  rw [List.append_assoc, List.singleton_append] at hnext
  cases i with
  | checksum digits n =>
    rw [bind_of_ok (constraint_checksum digits n (comma_listed rest))]
    cases n with
    | zero =>
      have hfits : (Item.checksum digits 0).Fits := rfl
      simp only [hfits, true_and]
      exact hnext
    | succ n =>
      have hfits : ¬(Item.checksum digits (n + 1)).Fits := Nat.succ_ne_zero n
      simp only [hfits, false_and]
      exact constraintsFrom_other (by decide)
  | version segs n t =>
    have hconstraint := constraint_version segs n t (comma_listed rest)
    by_cases hfits : segs.Fits ∧ t.Fits
    · have hitem : (Item.version segs n t).Fits := hfits
      rw [if_pos hfits] at hconstraint
      rw [bind_of_ok hconstraint]
      simp only [hitem, true_and]
      exact hnext
    · have hitem : ¬(Item.version segs n t).Fits := hfits
      rw [if_neg hfits] at hconstraint
      rw [bind_of_error hconstraint]
      simp only [hitem, false_and]
      rfl

/-- The loop of `parse` over the constraints of a layout. -/
theorem constraintsFrom_listed (rest : List (ℕ × Item)) (acc : List Constraint) :
    constraintsFrom acc (listed rest) = if ∀ p ∈ rest, p.2.Fits then
      .ok (acc ++ rest.map fun p => p.2.value, []) else .error () := by
  induction rest generalizing acc with
  | nil => simpa [listed] using constraintsFrom_nil acc
  | cons p rest ih =>
    have hchars : listed (p :: rest) = ',' :: (spaces p.1 ++ (p.2.chars ++ listed rest)) := by
      simp [listed]
    rw [hchars, constraintsFrom_comma, bind_of_ok (consumeSpaces_spaces (item_stops p.2 _)),
      constraint_listed p.2 ih]
    simp only [List.forall_mem_cons, List.map_cons]

/-- The list behind a constraint is one of a layout. -/
theorem of_constraintsFrom {s r : List Char} {acc cs : List Constraint}
    (h : constraintsFrom acc s = .ok (cs, r)) : ∃ rest, s = listed rest := by
  induction hn : s.length using Nat.strong_induction_on generalizing s acc with
  | _ n ih =>
    subst hn
    cases s with
    | nil => exact ⟨[], rfl⟩
    | cons c v =>
      by_cases hc : c = ','
      · subst hc
        rw [constraintsFrom_comma] at h
        obtain ⟨_, v₁, hspaces, hitem⟩ := bind_eq_ok.mp h
        obtain ⟨c, v₂, hconstraint, hlast⟩ := bind_eq_ok.mp hitem
        obtain ⟨n, rfl⟩ := of_consumeSpaces hspaces
        obtain ⟨i, rfl⟩ := of_constraint hconstraint
        obtain ⟨rest, rfl⟩ := ih v₂.length (by simp; omega) hlast rfl
        exact ⟨(n, i) :: rest, by simp [listed]⟩
      · rw [constraintsFrom_other hc] at h
        cases h

/-! ### Dependencies -/

theorem parser_eq : parser = parseName >>= fun name => constraint >>= fun c =>
    constraintsFrom [c] >>= fun constraints => pure ⟨name, constraints⟩ := by
  rw [parser]
  refine bind_congr fun name => bind_congr fun c => ?_
  rw [constraintsFrom, bind_assoc]
  refine bind_congr fun constraints => ?_
  rw [bind_assoc]
  refine bind_congr fun b => ?_
  cases b <;> rfl

theorem parseName_chars (l : Layout) :
    parseName l.chars = .ok (l.name, l.first.chars ++ listed l.rest) := by
  have hstops : Stops (· != ' ') (spaces (l.gap + 1) ++ (l.first.chars ++ listed l.rest)) := rfl
  have hname : (Scanner.takeWhile (· != ' ') : Scan Char Unit (List Char)) l.chars =
      .ok (l.name, spaces (l.gap + 1) ++ (l.first.chars ++ listed l.rest)) := by
    rw [Scanner.takeWhile, Layout.chars, takeWhile_append l.name_chars hstops,
      dropWhile_append l.name_chars hstops]
  rw [parseName, bind_of_ok hname, more, curIs_then rfl,
    bind_of_ok (consumeSpaces_spaces (item_stops l.first _)), if_neg l.name_ne]
  rfl

theorem of_parseName {s r name : List Char} (h : parseName s = .ok (name, r)) :
    ∃ n, s = name ++ (spaces (n + 1) ++ r) ∧ name ≠ [] ∧ ∀ c ∈ name, (c != ' ') = true := by
  obtain ⟨t, s₁, ht, hmore⟩ := bind_eq_ok.mp h
  obtain ⟨rfl, rfl⟩ := Prod.mk.inj (Except.ok.inj ht)
  rcases of_curIs hmore with ⟨c, v, hcv, -, hname⟩ | hend
  · obtain ⟨_, s₂, hspaces, hlast⟩ := bind_eq_ok.mp hname
    rw [hcv] at hspaces
    have hspace : c = ' ' := by
      have hc := List.head?_dropWhile_not (fun c => c != ' ') s
      rw [hcv] at hc
      simpa using hc
    subst hspace
    have hv : consumeSpaces v = .ok ((), s₂) := hspaces
    obtain ⟨n, rfl⟩ := of_consumeSpaces hv
    split at hlast
    · cases hlast
    · next hne =>
        cases hlast
        refine ⟨n, ?_, hne, fun c hc => List.mem_takeWhile_imp (p := fun c => c != ' ') hc⟩
        conv_lhs => rw [← List.takeWhile_append_dropWhile (p := fun c => c != ' ') (l := s), hcv]
        rfl
  · cases hend

instance (l : Layout) : Decidable l.Fits := inferInstanceAs (Decidable (∀ i ∈ l.items, i.Fits))

theorem parser_chars (l : Layout) :
    parser l.chars = if l.Fits then .ok (l.value, []) else .error () := by
  have hfits : l.Fits ↔ l.first.Fits ∧ ∀ p ∈ l.rest, p.2.Fits := by
    rw [Layout.Fits, Layout.items, List.forall_mem_cons, List.forall_mem_map]
  have hlist := @constraint_listed l.first l.rest [] (constraintsFrom_listed l.rest)
  simp only [List.nil_append] at hlist
  rw [parser_eq, bind_of_ok (parseName_chars l), ← bind_assoc]
  by_cases h : l.first.Fits ∧ ∀ p ∈ l.rest, p.2.Fits
  · rw [if_pos h] at hlist
    rw [bind_of_ok hlist, if_pos (hfits.mpr h)]
    simp [Layout.value, Layout.items]
  · rw [if_neg h] at hlist
    rw [bind_of_error hlist, if_neg (mt hfits.mp h)]

/-- What the parser does with a layout. -/
theorem parse_chars (l : Layout) : parse l.chars = if l.Fits then some l.value else none := by
  rw [parse, parser_chars]
  split_ifs <;> rfl

/-- The parser accepts layouts only. -/
theorem exists_layout {s : List Char} {d : Depend} (h : parse s = some d) :
    ∃ l : Layout, s = l.chars ∧ l.Fits ∧ l.value = d := by
  have hparser : ∃ r, parser s = .ok (d, r) := by
    rw [parse] at h
    split at h
    · next d' r hd =>
        cases h
        exact ⟨r, hd⟩
    · cases h
  obtain ⟨r, hparser⟩ := hparser
  rw [parser_eq] at hparser
  obtain ⟨name, s₁, hname, hrest⟩ := bind_eq_ok.mp hparser
  obtain ⟨c, s₂, hconstraint, hrest⟩ := bind_eq_ok.mp hrest
  obtain ⟨cs, s₃, hlist, hlast⟩ := bind_eq_ok.mp hrest
  obtain ⟨gap, rfl, hne, hchars⟩ := of_parseName hname
  obtain ⟨first, rfl⟩ := of_constraint hconstraint
  obtain ⟨rest, rfl⟩ := of_constraintsFrom hlist
  refine ⟨⟨name, gap, first, rest, hne, hchars⟩, rfl, ?_⟩
  have hparse := h.symm.trans (parse_chars ⟨name, gap, first, rest, hne, hchars⟩)
  split at hparse
  · next hfits => exact ⟨hfits, Option.some.inj hparse.symm⟩
  · cases hparse

/-! ### One layout -/

theorem dotted_inj {rest rest' : List (List Char)} {r r' : List Char}
    (hrest : ∀ s ∈ rest, ∀ c ∈ s, isDigit c = true)
    (hrest' : ∀ s ∈ rest', ∀ c ∈ s, isDigit c = true) (hr : Follow r) (hr' : Follow r')
    (h : dotted rest ++ r = dotted rest' ++ r') : rest = rest' ∧ r = r' := by
  have hends {s : List Char} {rest : List (List Char)} {r r' : List Char} (hr : Follow r)
      (h : r = dotted (s :: rest) ++ r') : False := by
    subst h
    exact Follow.dot hr rfl
  induction rest generalizing rest' with
  | nil =>
    cases rest' with
    | nil => exact ⟨rfl, h⟩
    | cons s rest' => exact (hends hr h).elim
  | cons s rest ih =>
    cases rest' with
    | nil => exact (hends hr' h.symm).elim
    | cons s' rest' =>
      rw [List.forall_mem_cons] at hrest hrest'
      have htail : s ++ (dotted rest ++ r) = s' ++ (dotted rest' ++ r') := by
        simpa [dotted] using h
      obtain ⟨rfl, hlast⟩ := append_inj hrest.1 hrest'.1 (dotted_stops rest hr)
        (dotted_stops rest' hr') htail
      obtain ⟨rfl, rfl⟩ := ih hrest.2 hrest'.2 hlast
      exact ⟨rfl, rfl⟩

theorem segs_inj {s s' : Segs} {r r' : List Char} (hr : Follow r) (hr' : Follow r')
    (h : s.chars ++ r = s'.chars ++ r') : s = s' ∧ r = r' := by
  rw [Segs.chars, Segs.chars, List.append_assoc, List.append_assoc] at h
  obtain ⟨hfirst, hlast⟩ := append_inj s.first_digits s'.first_digits (dotted_stops s.rest hr)
    (dotted_stops s'.rest hr') h
  obtain ⟨hrest, rfl⟩ := dotted_inj s.rest_digits s'.rest_digits hr hr' hlast
  exact ⟨Segs.ext hfirst hrest, rfl⟩

theorem tail_inj {t t' : Tail} {r r' : List Char} (hr : Comma r) (hr' : Comma r')
    (h : t.chars ++ r = t'.chars ++ r') : t = t' ∧ r = r' := by
  have hspaces {n m : ℕ} (h : spaces n ++ r = spaces m ++ r') : n = m ∧ r = r' :=
    spaces_inj (hr.stops rfl) (hr'.stops rfl) h
  -- a sign is not a comma
  have hsign {r v : List Char} {c : Char} (hr : Comma r) (hc : c ≠ ',') (h : r = c :: v) :
      False := by
    rcases hr with rfl | ⟨w, rfl⟩
    · cases h
    · exact hc (List.cons.inj h).1.symm
  cases t with
  | plain =>
    cases t' with
    | plain => exact ⟨rfl, h⟩
    | plus m => exact (hsign hr (by decide) h).elim
    | exact m => exact (hsign hr (by decide) h).elim
    | range m s k => exact (hsign hr (by decide) h).elim
  | plus n =>
    cases t' with
    | plain => exact (hsign hr' (by decide) h.symm).elim
    | plus m =>
      obtain ⟨rfl, hlast⟩ := hspaces (List.cons.inj h).2
      exact ⟨rfl, hlast⟩
    | exact m => simp [Tail.chars] at h
    | range m s k => simp [Tail.chars] at h
  | exact n =>
    cases t' with
    | plain => exact (hsign hr' (by decide) h.symm).elim
    | plus m => simp [Tail.chars] at h
    | exact m =>
      obtain ⟨rfl, hlast⟩ := hspaces (List.cons.inj h).2
      exact ⟨rfl, hlast⟩
    | range m s k => simp [Tail.chars] at h
  | range n s k =>
    cases t' with
    | plain => exact (hsign hr' (by decide) h.symm).elim
    | plus m => simp [Tail.chars] at h
    | exact m => simp [Tail.chars] at h
    | range n' s' k' =>
      have hrest : spaces n ++ (s.chars ++ (spaces k ++ r)) =
          spaces n' ++ (s'.chars ++ (spaces k' ++ r')) := by
        simpa [Tail.chars] using h
      obtain ⟨rfl, hsegs⟩ := spaces_inj (segs_stops space_of_digit _)
        (segs_stops space_of_digit _) hrest
      obtain ⟨rfl, hafter⟩ := segs_inj (follow_spaces hr.follow) (follow_spaces hr'.follow) hsegs
      obtain ⟨rfl, hlast⟩ := hspaces hafter
      exact ⟨rfl, hlast⟩

theorem item_inj {i i' : Item} {r r' : List Char} (hr : Comma r) (hr' : Comma r')
    (h : i.chars ++ r = i'.chars ++ r') : i = i' ∧ r = r' := by
  have hversion (s : Segs) (n : ℕ) (t : Tail) (r : List Char) :
      (Item.version s n t).chars ++ r = s.chars ++ (spaces n ++ (t.chars ++ r)) := by
    simp [Item.chars]
  -- a version is not taken for a checksum
  have hmixed {s : Segs} {n : ℕ} {t : Tail} {v r : List Char} (hr : Comma r)
      (h : (Item.version s n t).chars ++ r = '0' :: 'x' :: v) : False := by
    have hnot := not_checksum s n t hr
    rw [← hversion, h] at hnot
    cases hnot
  cases i with
  | checksum d n =>
    cases i' with
    | version s m t => exact (hmixed hr' h.symm).elim
    | checksum d' m =>
      have hrest : d.1 ++ (spaces n ++ r) = d'.1 ++ (spaces m ++ r') := by
        simpa [Item.chars] using h
      obtain ⟨hdigits, hspaces⟩ := append_inj d.2 d'.2 (hex_stops hr) (hex_stops hr') hrest
      obtain ⟨rfl, hlast⟩ := spaces_inj (hr.stops rfl) (hr'.stops rfl) hspaces
      rw [Subtype.ext hdigits]
      exact ⟨rfl, hlast⟩
  | version s n t =>
    cases i' with
    | checksum d m => exact (hmixed hr h).elim
    | version s' n' t' =>
      rw [hversion, hversion] at h
      obtain ⟨rfl, hspaces⟩ := segs_inj (follow_spaces (tail_stops hr).2)
        (follow_spaces (tail_stops hr').2) h
      obtain ⟨rfl, htail⟩ := spaces_inj (tail_stops hr).1 (tail_stops hr').1 hspaces
      obtain ⟨rfl, hlast⟩ := tail_inj hr hr' htail
      exact ⟨rfl, hlast⟩

theorem listed_inj {rest rest' : List (ℕ × Item)} (h : listed rest = listed rest') :
    rest = rest' := by
  induction rest generalizing rest' with
  | nil =>
    cases rest' with
    | nil => rfl
    | cons p rest' => cases h
  | cons p rest ih =>
    cases rest' with
    | nil => cases h
    | cons p' rest' =>
      have htail : spaces p.1 ++ (p.2.chars ++ listed rest) =
          spaces p'.1 ++ (p'.2.chars ++ listed rest') := by
        simpa [listed] using h
      obtain ⟨hn, hitem⟩ := spaces_inj (item_stops p.2 _) (item_stops p'.2 _) htail
      obtain ⟨hi, hrest⟩ := item_inj (comma_listed rest) (comma_listed rest') hitem
      rw [ih hrest, Prod.ext hn hi]

/-- A string has one layout at most. -/
theorem Layout.chars_injective {l l' : Layout} (h : l.chars = l'.chars) : l = l' := by
  have hstops (n : ℕ) (r : List Char) : Stops (· != ' ') (spaces (n + 1) ++ r) := rfl
  obtain ⟨hname, hrest⟩ := append_inj l.name_chars l'.name_chars (hstops _ _) (hstops _ _) h
  obtain ⟨hgap, hitems⟩ := spaces_inj (item_stops l.first _) (item_stops l'.first _) hrest
  obtain ⟨hfirst, hlast⟩ := item_inj (comma_listed l.rest) (comma_listed l'.rest) hitems
  exact Layout.ext hname (Nat.succ.inj hgap) hfirst (listed_inj hlast)

/-- **When the parser and the documented grammar agree** on a string. -/
theorem parse_iff_documented_iff (s : List Char) : ((∃ d, parse s = some d) ↔ Documented s) ↔
    ∀ l : Layout, s = l.chars → (l.Fits ↔ l.Proper) := by
  have hdoc (l : Layout) : Documented l.chars ↔ l.Proper := by
    constructor
    · rintro ⟨l', h, hproper⟩
      rwa [Layout.chars_injective h]
    · exact fun h => ⟨l, rfl, h⟩
  have hparse (l : Layout) : (∃ d, parse l.chars = some d) ↔ l.Fits := by
    rw [parse_chars]
    split_ifs with h <;> simp [h]
  constructor
  · rintro h l rfl
    rw [← hparse, ← hdoc]
    exact h
  · intro h
    constructor
    · rintro ⟨d, hd⟩
      obtain ⟨l, rfl, hfits, -⟩ := exists_layout hd
      exact ⟨l, rfl, (h l rfl).mp hfits⟩
    · rintro ⟨l, rfl, hproper⟩
      exact (hparse l).mpr ((h l rfl).mpr hproper)

end Sedona.Depend
