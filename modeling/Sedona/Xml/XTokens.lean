import Sedona.Library.Numerals
import Sedona.Xml.XReader

/-!
# The Tokens of an XML Document

What characters, names and texts look like in a document, and that the reader reads each of them up
to its end. The documents here have line breaks that need no normalization.

## Main results

* `toCharData_of_charText`, `parseString_of_pieces`, `parseText_of_pieces`: characters and entities.
* `parseName_of_name`, `skipSpace_of_space`: names and spaces.
-/

open Loops Numerals

namespace Sedona.Xml

/-- What the reader is about to read. -/
structure Reader.At (r : Reader) (cs : JString) : Prop where
  eq : r.pushback.toList ++ r.input = cs
  noReturn : char '\r' ∉ r.input

theorem Reader.at_none {cs : JString} (h : char '\r' ∉ cs) : Reader.At ⟨none, cs⟩ cs := ⟨rfl, h⟩

theorem Reader.at_some {cs : JString} (c : JChar) (h : char '\r' ∉ cs) :
    Reader.At ⟨some c, cs⟩ (c :: cs) := ⟨rfl, h⟩

theorem notMem_of_append {xs ys : JString} (h : char '\r' ∉ xs ++ ys) : char '\r' ∉ ys :=
  fun hmem => h (List.mem_append_right _ hmem)

theorem Reader.At.tail {r : Reader} {c : JChar} {cs : JString} (h : r.At (c :: cs)) :
    char '\r' ∉ cs := by
  obtain ⟨_ | d, input⟩ := r
  · obtain rfl : input = c :: cs := h.eq
    exact fun hmem => h.noReturn (List.mem_cons_of_mem _ hmem)
  · obtain ⟨rfl, rfl⟩ := List.cons.inj (h.eq : d :: input = c :: cs)
    exact h.noReturn

theorem Reader.At.rest {r : Reader} {xs cs : JString} {c : JChar} (h : r.At (xs ++ c :: cs)) :
    char '\r' ∉ cs := by
  cases xs with
  | nil => exact h.tail
  | cons x xs => exact @notMem_of_append (xs ++ [c]) cs (by simpa using h.tail)

theorem Reader.At.rest_of_ne_nil {r : Reader} {xs cs : JString} (h : r.At (xs ++ cs))
    (hne : xs ≠ []) : char '\r' ∉ cs := by
  obtain ⟨x, xs, rfl⟩ := List.exists_cons_of_ne_nil hne
  exact notMem_of_append h.tail

theorem read_at {r : Reader} {c : JChar} {cs : JString} (h : r.At (c :: cs)) :
    read r = .ok (c, ⟨none, cs⟩) := by
  obtain ⟨_ | d, input⟩ := r
  · obtain rfl : input = c :: cs := h.eq
    have hc : c ≠ char '\r' := fun heq => h.noReturn (heq ▸ List.mem_cons_self ..)
    rw [read]
    exact if_neg hc
  · obtain ⟨rfl, rfl⟩ := List.cons.inj (h.eq : d :: input = c :: cs)
    rfl

theorem tryRead_at {r : Reader} {c : JChar} {cs : JString} (h : r.At (c :: cs)) :
    tryRead r = .ok (some c, ⟨none, cs⟩) := by
  rw [tryRead, read_at h]

/-! ### Names and spaces -/

/-- A name. -/
structure Name (name : JString) : Prop where
  ne_nil : name ≠ []
  isName : ∀ c ∈ name, isName c = true

/-- Characters that are skipped between tokens. -/
def Space (ws : JString) : Prop := ∀ c ∈ ws, isSpace c = true

theorem nameLoop_of_name {name rest : JString} {c : JChar} (hname : ∀ c ∈ name, isName c = true)
    (hc : isName c = false) (buf : JString) {r : Reader} (h : r.At (name ++ c :: rest)) :
    loop Reader.size nameTurn descends_nameTurn buf r = .ok (buf ++ name, ⟨some c, rest⟩) := by
  induction name generalizing buf r with
  | nil =>
    refine (loop_of_done ?_).trans (by rw [List.append_nil])
    rw [nameTurn, bind_of_ok (read_at h), if_neg (by rw [hc]; decide)]
    rfl
  | cons d name ih =>
    have hturn : nameTurn buf r = .ok (.inl (buf ++ [d]), ⟨none, name ++ c :: rest⟩) := by
      rw [nameTurn, bind_of_ok (read_at h), if_pos (hname d (List.mem_cons_self ..))]
      rfl
    rw [loop_of_next hturn, ih (fun e he => hname e (List.mem_cons_of_mem _ he)) _
      (Reader.at_none h.tail), List.append_assoc, List.singleton_append]

theorem parseName_of_name {name rest : JString} {c d : JChar} (hname : Name (d :: name))
    (hc : isName c = false) {r : Reader} (h : r.At (name ++ c :: rest)) :
    parseName d r = .ok (d :: name, ⟨some c, rest⟩) := by
  rw [parseName, hname.isName d (List.mem_cons_self ..)]
  exact nameLoop_of_name (fun e he => hname.isName e (List.mem_cons_of_mem _ he)) hc [d] h

theorem parseQName_of_name {name rest : JString} {c d : JChar} (hname : Name (d :: name))
    (hc : isName c = false) (hcolon : c ≠ char ':') {r : Reader} (h : r.At (name ++ c :: rest)) :
    parseQName d r = .ok ((none, d :: name), ⟨some c, rest⟩) := by
  rw [parseQName, bind_of_ok (parseName_of_name hname hc h),
    bind_of_ok (read_at (Reader.at_some c h.rest)), if_neg hcolon]
  rfl

theorem spaceLoop_of_space {ws rest : JString} {c : JChar} (hws : Space ws)
    (hc : isSpace c = false) {r : Reader} (h : r.At (ws ++ c :: rest)) :
    loop Reader.size spaceTurn descends_spaceTurn () r = .ok ((), ⟨some c, rest⟩) := by
  induction ws generalizing r with
  | nil =>
    refine loop_of_done ?_
    rw [spaceTurn, bind_of_ok (read_at h), if_neg (by rw [hc]; decide)]
    rfl
  | cons d ws ih =>
    have hturn : spaceTurn () r = .ok (.inl (), ⟨none, ws ++ c :: rest⟩) := by
      rw [spaceTurn, bind_of_ok (read_at h), if_pos (hws d (List.mem_cons_self ..))]
      rfl
    rw [loop_of_next hturn]
    exact ih (fun e he => hws e (List.mem_cons_of_mem _ he)) (Reader.at_none h.tail)

/-- Spaces are skipped, and it is told whether there were any. -/
theorem skipSpace_of_space {ws rest : JString} {c : JChar} (hws : Space ws)
    (hc : isSpace c = false) {r : Reader} (h : r.At (ws ++ c :: rest)) :
    skipSpace r = .ok (!ws.isEmpty, ⟨some c, rest⟩) := by
  cases ws with
  | nil =>
    rw [skipSpace, bind_of_ok (read_at h), hc]
    rfl
  | cons d ws =>
    have hd : isSpace d = true := hws d (List.mem_cons_self ..)
    rw [List.cons_append] at h
    rw [skipSpace, bind_of_ok (read_at h), hd, if_neg (by decide), bind_of_ok (spaceLoop_of_space
      (fun e he => hws e (List.mem_cons_of_mem _ he)) hc (Reader.at_none h.tail))]
    rfl

theorem consume_at {s rest : JString} (d : JChar) (ds : JString) {r : Reader}
    (h : r.At (d :: ds ++ rest)) :
    consume s (d :: ds) r = .ok ((), ⟨none, rest⟩) := by
  induction ds generalizing d r with
  | nil =>
    rw [consume, bind_of_ok (read_at h), if_neg (not_not_intro rfl)]
    rfl
  | cons d' ds ih =>
    rw [consume, bind_of_ok (read_at h), if_neg (not_not_intro rfl)]
    exact ih _ (Reader.at_none h.tail)

/-! ### Characters and entities -/

/-- The value of a digit. -/
def digit (base : ℕ) (c : JChar) : Option ℕ :=
  if char '0' ≤ c && c ≤ char '9' then some (c - char '0').toNat
  else if base == 16 && (char 'a' ≤ c && c ≤ char 'f') then some (10 + (c - char 'a').toNat)
  else if base == 16 && (char 'A' ≤ c && c ≤ char 'F') then some (10 + (c - char 'A').toNat)
  else none

theorem toNum_of_digit {x base d : ℕ} {c : JChar} (h : digit base c = some d) (r : Reader) :
    toNum x base (some c) r = .ok (x * base + d, r) := by
  rw [digit] at h
  rw [toNum]
  split_ifs at h ⊢
  · cases h
    rfl
  · cases h
    rw [← Nat.add_assoc]
    rfl
  · cases h
    rw [← Nat.add_assoc]
    rfl

theorem numberLoop_of_digits {base : ℕ} {ds rest : JString} {x n : ℕ}
    (hsemi : digit base (char ';') = none)
    (h : ds.foldlM (fun v c => (digit base c).map (v * base + ·)) x = some n) :
    loop Reader.size (numberTurn base) (descends_numberTurn base) x
      ⟨none, ds ++ char ';' :: rest⟩ = .ok (BitVec.ofNat 16 n, ⟨none, rest⟩) := by
  induction ds generalizing x with
  | nil =>
    cases h
    refine loop_of_done ?_
    rw [numberTurn, bind_of_ok (a := some (char ';')) (s := ⟨none, rest⟩) rfl, if_pos rfl]
    rfl
  | cons c ds ih =>
    rw [List.foldlM_cons] at h
    obtain ⟨y, hy, hrest⟩ := Option.bind_eq_some_iff.mp h
    obtain ⟨d, hd, rfl⟩ := Option.map_eq_some_iff.mp hy
    have hne : some c ≠ some (char ';') := by
      rintro ⟨⟩
      rw [hsemi] at hd
      cases hd
    have hturn : numberTurn base x ⟨none, c :: ds ++ char ';' :: rest⟩ =
        .ok (.inl (x * base + d), ⟨none, ds ++ char ';' :: rest⟩) := by
      rw [numberTurn, bind_of_ok (a := some c) (s := ⟨none, ds ++ char ';' :: rest⟩) rfl,
        if_neg hne, bind_of_ok (toNum_of_digit hd _)]
      rfl
    rw [loop_of_next hturn]
    exact ih hrest

theorem entityLoop_of_name {name rest : JString} (hname : char ';' ∉ name) (buf : JString)
    {r : Reader} (h : r.At (name ++ char ';' :: rest)) :
    loop Reader.size entityTurn descends_entityTurn buf r = .ok (buf ++ name, ⟨none, rest⟩) := by
  induction name generalizing buf r with
  | nil =>
    refine (loop_of_done ?_).trans (by rw [List.append_nil])
    rw [entityTurn, bind_of_ok (read_at h), if_pos rfl]
    rfl
  | cons d name ih =>
    rw [List.mem_cons, not_or] at hname
    have hturn : entityTurn buf r = .ok (.inl (buf ++ [d]), ⟨none, name ++ char ';' :: rest⟩) := by
      rw [entityTurn, bind_of_ok (read_at h), if_neg (Ne.symm hname.1)]
      rfl
    rw [loop_of_next hturn, ih hname.2 _ (Reader.at_none h.tail), List.append_assoc,
      List.singleton_append]

/-- The named entities. -/
def entities : List (JString × JChar) :=
  [(lit "lt".toList, char '<'), (lit "gt".toList, char '>'), (lit "amp".toList, char '&'),
    (lit "quot".toList, char '"'), (lit "apos".toList, char '\'')]

/-- How a character can stand in a text. -/
inductive CharText : JChar → JString → Prop
  | plain {c : JChar} (hlt : c ≠ char '<') (hamp : c ≠ char '&') : CharText c [c]
  | entity (name : JString) {c : JChar} (h : (name, c) ∈ entities) :
    CharText c (char '&' :: (name ++ [char ';']))
  | hex {ds : JString} {n : ℕ} (h : numeral 16 (digit 16) ds = some n) :
    CharText (BitVec.ofNat 16 n) (char '&' :: char '#' :: char 'x' :: (ds ++ [char ';']))
  | decimal {ds : JString} {n : ℕ} (hds : ds ≠ []) (h : numeral 10 (digit 10) ds = some n) :
    CharText (BitVec.ofNat 16 n) (char '&' :: char '#' :: (ds ++ [char ';']))

theorem entityChar_of_entity {name : JString} {c : JChar} (h : (name, c) ∈ entities) (r : Reader) :
    entityChar name r = .ok (c, r) := by
  simp only [entities, List.mem_cons, List.not_mem_nil, or_false, Prod.mk.injEq] at h
  obtain ⟨rfl, rfl⟩ | ⟨rfl, rfl⟩ | ⟨rfl, rfl⟩ | ⟨rfl, rfl⟩ | ⟨rfl, rfl⟩ := h
  · rfl
  · rfl
  · rfl
  · rfl
  · rfl

theorem entities_names :
    ∀ e ∈ entities, char ';' ∉ e.1 ∧ e.1 ≠ [] ∧ e.1.head? ≠ some (char '#') := by
  decide

theorem toCharData_of_entity {name rest : JString} {c : JChar} (h : (name, c) ∈ entities)
    (hrest : char '\r' ∉ name ++ char ';' :: rest) :
    toCharData (char '&') ⟨none, name ++ char ';' :: rest⟩ = .ok (c, ⟨none, rest⟩) := by
  obtain ⟨hsemi, hne, hhash⟩ := entities_names _ h
  obtain ⟨d, ds, rfl⟩ := List.exists_cons_of_ne_nil hne
  have hd : d ≠ char '#' := fun heq => hhash (congrArg some heq)
  rw [List.cons_append] at hrest ⊢
  have hat := (Reader.at_none hrest).tail
  rw [toCharData, if_neg (by decide), if_neg (by decide),
    bind_of_ok (read_at (Reader.at_none hrest)), if_neg hd,
    bind_of_ok (entityLoop_of_name (fun hmem => hsemi (List.mem_cons_of_mem _ hmem)) [d]
      (Reader.at_none hat))]
  exact entityChar_of_entity h _

/-- A character is read as it stands in a text. -/
theorem toCharData_of_charText {x c : JChar} {t rest : JString} (h : CharText x (c :: t))
    (hrest : char '\r' ∉ t ++ rest) : toCharData c ⟨none, t ++ rest⟩ = .ok (x, ⟨none, rest⟩) := by
  generalize htext : c :: t = text at h
  cases h with
  | plain hlt hamp =>
    obtain ⟨rfl, rfl⟩ := List.cons.inj htext
    rw [toCharData, if_neg hlt, if_pos hamp]
    rfl
  | entity name h =>
    obtain ⟨rfl, rfl⟩ := List.cons.inj htext
    rw [List.append_assoc, List.singleton_append] at hrest ⊢
    exact toCharData_of_entity h hrest
  | hex h =>
    obtain ⟨rfl, rfl⟩ := List.cons.inj htext
    simp only [List.cons_append, List.append_assoc, List.nil_append] at hrest ⊢
    rw [toCharData, if_neg (by decide), if_neg (by decide),
      bind_of_ok (read_at (Reader.at_none hrest)), if_pos rfl,
      bind_of_ok (a := some (char 'x')) (s := ⟨none, _⟩) rfl, if_pos rfl]
    exact numberLoop_of_digits (by decide) h
  | @decimal ds n hds h =>
    obtain ⟨rfl, rfl⟩ := List.cons.inj htext
    obtain ⟨d, ds, rfl⟩ := List.exists_cons_of_ne_nil hds
    simp only [List.cons_append, List.append_assoc, List.nil_append] at hrest ⊢
    rw [numeral, List.foldlM_cons] at h
    obtain ⟨y, hy, hrest'⟩ := Option.bind_eq_some_iff.mp h
    obtain ⟨v, hv, rfl⟩ := Option.map_eq_some_iff.mp hy
    have hx : digit 10 (char 'x') = none := by decide
    have hne : some d ≠ some (char 'x') := by
      rintro ⟨⟩
      rw [hx] at hv
      cases hv
    rw [toCharData, if_neg (by decide), if_neg (by decide),
      bind_of_ok (read_at (Reader.at_none hrest)), if_pos rfl,
      bind_of_ok (a := some d) (s := ⟨none, _⟩) rfl, if_neg hne, bind_of_ok (toNum_of_digit hv _)]
    exact numberLoop_of_digits (by decide) hrest'

/-- A text up to the character `stop`, and whether there is more to it than space. -/
inductive TextOf (stop : JChar) : Bool → JString → JString → Prop
  | nil : TextOf stop false [] []
  | cons {x c : JChar} {t v ts : JString} {got : Bool} (h : CharText x (c :: t)) (hc : c ≠ stop)
    (hrest : TextOf stop got v ts) : TextOf stop (!isSpace c || got) (x :: v) (c :: t ++ ts)

theorem stringLoop_of_textOf {quote : JChar} {got : Bool} {v t rest : JString}
    (h : TextOf quote got v t) (buf : JString) {r : Reader} (hat : r.At (t ++ quote :: rest)) :
    loop Reader.size (stringTurn quote) (descends_stringTurn quote) buf r =
      .ok (buf ++ v, ⟨none, rest⟩) := by
  induction h generalizing buf r with
  | nil =>
    refine (loop_of_done ?_).trans (by rw [List.append_nil])
    rw [stringTurn, bind_of_ok (read_at hat), if_pos rfl]
    rfl
  | @cons x c t v ts got h hc hrest ih =>
    rw [List.cons_append, List.cons_append, List.append_assoc] at hat
    have hturn : stringTurn quote buf r = .ok (.inl (buf ++ [x]), ⟨none, ts ++ quote :: rest⟩) := by
      rw [stringTurn, bind_of_ok (read_at hat), if_neg hc,
        bind_of_ok (toCharData_of_charText h hat.tail)]
      rfl
    rw [loop_of_next hturn, ih _ (Reader.at_none (notMem_of_append hat.tail)), List.append_assoc,
      List.singleton_append]

/-- A string is read up to the quote. -/
theorem parseString_of_textOf {quote : JChar} {got : Bool} {v t rest : JString}
    (h : TextOf quote got v t) {r : Reader} (hat : r.At (t ++ quote :: rest)) :
    parseString quote r = .ok (v, ⟨none, rest⟩) :=
  stringLoop_of_textOf h [] hat

theorem textLoop_of_textOf {got : Bool} {v t rest : JString} (h : TextOf (char '<') got v t)
    (s : JString × Bool) {r : Reader} (hat : r.At (t ++ char '<' :: rest)) :
    loop Reader.size textTurn descends_textTurn s r =
      .ok ((s.1 ++ v, s.2 || got), ⟨some (char '<'), rest⟩) := by
  induction h generalizing s r with
  | nil =>
    refine (loop_of_done ?_).trans (by rw [List.append_nil, Bool.or_false])
    rw [textTurn, bind_of_ok (tryRead_at hat)]
    rfl
  | @cons x c t v ts got h hc hrest ih =>
    rw [List.cons_append, List.cons_append, List.append_assoc] at hat
    have hturn : textTurn s r =
        .ok (.inl (s.1 ++ [x], s.2 || !isSpace c), ⟨none, ts ++ char '<' :: rest⟩) := by
      rw [textTurn, bind_of_ok (tryRead_at hat)]
      dsimp only
      rw [if_neg hc, bind_of_ok (toCharData_of_charText h hat.tail)]
      rfl
    rw [loop_of_next hturn, ih _ (Reader.at_none (notMem_of_append hat.tail)), List.append_assoc,
      List.singleton_append, Bool.or_assoc]

/-- A text is read up to the next markup, after its first char. -/
theorem parseText_of_textOf {got : Bool} {x c : JChar} {v t ts rest : JString}
    (h : CharText x (c :: t)) (hrest : TextOf (char '<') got v ts)
    (hat : Reader.At ⟨none, t ++ (ts ++ char '<' :: rest)⟩ (t ++ (ts ++ char '<' :: rest))) :
    parseText c ⟨none, t ++ (ts ++ char '<' :: rest)⟩ =
      .ok ((x :: v, !isSpace c || got), ⟨some (char '<'), rest⟩) := by
  rw [parseText, bind_of_ok (toCharData_of_charText h hat.noReturn),
    textLoop_of_textOf hrest _ (Reader.at_none (notMem_of_append hat.noReturn))]
  rfl

/-! ### What is skipped -/

/-- The inside of a comment: no two hyphens in a row, and none at the end. -/
def CommentText (t : JString) : Prop :=
  (t ++ [char '-']).IsChain fun a b => ¬ (a = char '-' ∧ b = char '-')

/-- The inside of a processing instruction. -/
def PIText (t : JString) : Prop := t.IsChain fun a b => ¬ (a = char '?' ∧ b = char '>')

/-- The inside of a CDATA section. -/
def CDataText (t : JString) : Prop := ¬ lit "]]>".toList <:+: t ++ lit "]]".toList

theorem commentLoop_of_text {t rest : JString} {p q : Option JChar}
    (hpq : (p, q) ≠ (some (char '-'), some (char '-')))
    (ht : (q.toList ++ t ++ [char '-']).IsChain fun a b => ¬ (a = char '-' ∧ b = char '-'))
    {r : Reader} (hat : r.At (t ++ char '-' :: char '-' :: char '>' :: rest)) :
    loop Reader.size commentTurn descends_commentTurn (p, q) r = .ok ((), ⟨none, rest⟩) := by
  induction t generalizing p q r with
  | nil =>
    have hq : q ≠ some (char '-') := by
      rintro rfl
      exact (List.isChain_cons_cons.mp ht).1 ⟨rfl, rfl⟩
    have hturn : commentTurn (p, q) r =
        .ok (.inl (q, some (char '-')), ⟨none, char '-' :: char '>' :: rest⟩) := by
      rw [commentTurn, bind_of_ok (read_at hat), if_neg hpq]
      rfl
    have hturn' : commentTurn (q, some (char '-')) ⟨none, char '-' :: char '>' :: rest⟩ =
        .ok (.inl (some (char '-'), some (char '-')), ⟨none, char '>' :: rest⟩) := by
      rw [commentTurn, bind_of_ok (read_at (Reader.at_none hat.tail)),
        if_neg (fun heq => hq (Prod.mk.inj heq).1)]
      rfl
    rw [loop_of_next hturn, loop_of_next hturn']
    refine loop_of_done ?_
    rw [commentTurn, bind_of_ok (read_at (Reader.at_none (Reader.at_none hat.tail).tail)),
      if_pos rfl]
    rfl
  | cons d t ih =>
    have hturn : commentTurn (p, q) r =
        .ok (.inl (q, some d), ⟨none, t ++ char '-' :: char '-' :: char '>' :: rest⟩) := by
      rw [commentTurn, bind_of_ok (read_at hat), if_neg hpq]
      rfl
    rw [loop_of_next hturn]
    cases q with
    | none => exact ih (fun heq => by cases (Prod.mk.inj heq).1) ht (Reader.at_none hat.tail)
    | some e =>
      obtain ⟨hed, hchain⟩ := List.isChain_cons_cons.mp ht
      refine ih (q := some d) (fun heq => hed ?_) hchain (Reader.at_none hat.tail)
      exact ⟨Option.some.inj (Prod.mk.inj heq).1, Option.some.inj (Prod.mk.inj heq).2⟩

theorem skipComment_of_text {t rest : JString} (ht : CommentText t) {r : Reader}
    (hat : r.At (t ++ char '-' :: char '-' :: char '>' :: rest)) :
    skipComment r = .ok ((), ⟨none, rest⟩) :=
  commentLoop_of_text (p := none) (q := none) (by decide) ht hat

theorem piLoop_of_text {t rest : JString} {p : Option JChar}
    (ht : (p.toList ++ t).IsChain fun a b => ¬ (a = char '?' ∧ b = char '>'))
    {r : Reader} (hat : r.At (t ++ char '?' :: char '>' :: rest)) :
    loop Reader.size piTurn descends_piTurn p r = .ok ((), ⟨none, rest⟩) := by
  induction t generalizing p r with
  | nil =>
    have hturn : piTurn p r = .ok (.inl (some (char '?')), ⟨none, char '>' :: rest⟩) := by
      rw [piTurn, bind_of_ok (read_at hat), if_neg fun h => absurd h.2 (by decide)]
      rfl
    rw [loop_of_next hturn]
    refine loop_of_done ?_
    rw [piTurn, bind_of_ok (read_at (Reader.at_none hat.tail)), if_pos ⟨rfl, rfl⟩]
    rfl
  | cons d t ih =>
    have hturn : piTurn p r = .ok (.inl (some d), ⟨none, t ++ char '?' :: char '>' :: rest⟩) := by
      rw [piTurn, bind_of_ok (read_at hat), if_neg]
      · rfl
      · rintro ⟨rfl, rfl⟩
        exact (List.isChain_cons_cons.mp ht).1 ⟨rfl, rfl⟩
    rw [loop_of_next hturn]
    refine ih ?_ (Reader.at_none hat.tail)
    cases p with
    | none => exact ht
    | some e => exact (List.isChain_cons_cons.mp ht).2

theorem skipPI_of_text {t rest : JString} (ht : PIText t) {r : Reader}
    (hat : r.At (t ++ char '?' :: char '>' :: rest)) : skipPI r = .ok ((), ⟨none, rest⟩) :=
  piLoop_of_text (p := none) ht hat

/-- The last two characters of a text. -/
def lastTwo (u : JString) : Option JChar × Option JChar := (u.dropLast.getLast?, u.getLast?)

theorem lastTwo_append (u : JString) (c : JChar) :
    lastTwo (u ++ [c]) = ((lastTwo u).2, some c) := by
  rw [lastTwo, List.dropLast_concat, List.getLast?_concat, lastTwo]

theorem eq_append_of_lastTwo {u : JString} {a b : JChar} (h : lastTwo u = (some a, some b)) :
    ∃ w, u = w ++ [a, b] := by
  obtain ⟨ha, hb⟩ := Prod.mk.inj h
  obtain ⟨w, hw⟩ := List.getLast?_eq_some_iff.mp hb
  subst hw
  rw [List.dropLast_concat] at ha
  obtain ⟨w', rfl⟩ := List.getLast?_eq_some_iff.mp ha
  exact ⟨w', by simp⟩

theorem cdataLoop_of_text {v u w rest : JString} (hv : CDataText v)
    (huw : u ++ w = v ++ lit "]]".toList) {r : Reader} (hat : r.At (w ++ char '>' :: rest)) :
    loop Reader.size cdataTurn descends_cdataTurn (u, lastTwo u) r = .ok (v, ⟨none, rest⟩) := by
  induction w generalizing u r with
  | nil =>
    rw [List.append_nil] at huw
    subst huw
    refine loop_of_done ?_
    have hlast : lastTwo (v ++ lit "]]".toList) = (some (char ']'), some (char ']')) := by
      have hlit : v ++ lit "]]".toList = v ++ [char ']'] ++ [char ']'] := by
        rw [List.append_assoc]
        rfl
      rw [hlit, lastTwo_append, lastTwo_append]
    rw [cdataTurn, bind_of_ok (read_at hat), if_pos ⟨hlast, rfl⟩]
    dsimp only
    rw [List.length_append]
    simp [lit]
  | cons c w ih =>
    have hturn : cdataTurn (u, lastTwo u) r =
        .ok (.inl (u ++ [c], lastTwo (u ++ [c])), ⟨none, w ++ char '>' :: rest⟩) := by
      rw [cdataTurn, bind_of_ok (read_at hat), if_neg, lastTwo_append]
      · rfl
      · rintro ⟨hlast, rfl⟩
        obtain ⟨u', rfl⟩ := eq_append_of_lastTwo hlast
        refine hv ⟨u', w, ?_⟩
        rw [← huw]
        simp [lit]
    rw [loop_of_next hturn]
    exact ih (by rw [← huw, List.append_assoc, List.singleton_append]) (Reader.at_none hat.tail)

theorem parseCDATA_of_text {v rest : JString} (hv : CDataText v) {r : Reader}
    (hat : r.At (v ++ lit "]]".toList ++ char '>' :: rest)) :
    parseCDATA r = .ok (v, ⟨none, rest⟩) :=
  cdataLoop_of_text (u := []) hv rfl hat

end Sedona.Xml
