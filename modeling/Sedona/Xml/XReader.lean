import Mathlib.Order.Nat
import Sedona.Library.Loops

/-!
# Reading the Characters of an XML Document

The part of `sedona.xml.XParser` below its elements: the characters one by one, with a pushback
and with line breaks made one character, entities, names, strings and what is skipped.

The document is given as the chars that `XInputStreamReader` decodes. The line and column, which
only locate elements and errors, are left out, and so is the place where an element started in
the text of an error.

## Main results

* `keeps_toCharData`, `keeps_parseQName`, `keeps_parseText`: nothing is put back that was not read,
  so that every loop ends.
-/

open Loops

namespace Sedona.Xml

/-- A Java char. -/
abbrev JChar := BitVec 16

/-- The chars of a string. -/
abbrev JString := List JChar

/-- The char of an ASCII character. -/
def char (c : Char) : JChar := BitVec.ofNat 16 c.toNat

/-- A string of ASCII characters. -/
def lit (s : List Char) : JString := s.map char

/-- What the parser throws. -/
inductive XError
  | eof (message : String)
  | xException (message : JString)
  | arrayIndexOutOfBounds
  deriving DecidableEq

/-- `XParser.error`. -/
def error (message : String) : XError := .xException (lit message.toList)

/-! ### Characters -/

/-- `XParser.isName`. -/
def isName (c : JChar) : Bool :=
  if c < 128 then
    (char 'a' ≤ c && c ≤ char 'z') || (char 'A' ≤ c && c ≤ char 'Z') ||
      (char '0' ≤ c && c ≤ char '9') || c == char '-' || c == char '.' || c == char '_'
  else true

/-- `XParser.isSpace`. -/
def isSpace (c : JChar) : Bool :=
  c == char '\n' || c == char '\r' || c == char ' ' || c == char '\t'

/-! ### The reader -/

/-- `pushback`, and what is left of the document. -/
structure Reader where
  pushback : Option JChar
  input : JString
  deriving DecidableEq

abbrev Read := Prog Reader XError

/-- The number of chars that can still be read. -/
def Reader.size (r : Reader) : ℕ := r.input.length + if r.pushback.isSome then 1 else 0

/-- `XInputStreamReader.read`; -1 is `none`. -/
def rawRead : Read (Option JChar) := fun r => .ok (r.input.head?, { r with input := r.input.tail })

/-- `XParser.read`. -/
def read : Read JChar := fun r =>
  match r.pushback, r.input with
  | some c, input => .ok (c, ⟨none, input⟩)
  | none, [] => .error (.eof "Unexpected EOF in XML input")
  | none, c :: input =>
    if c = char '\r' then
      if input.head? = some (char '\n') then .ok (char '\n', ⟨none, input.tail⟩)
      else .ok (char '\n', ⟨input.head?, input.tail⟩)
    else .ok (c, ⟨none, input⟩)

/-- `read`, where the end of the document is caught. -/
def tryRead : Read (Option JChar) := fun r =>
  match read r with
  | .ok (c, r') => .ok (some c, r')
  | .error _ => .ok (none, r)

/-- `pushback = c`. -/
def pushBack (c : JChar) : Read Unit := fun r => .ok ((), { r with pushback := some c })

theorem size_of_rawRead {r r' : Reader} {c : JChar} (h : rawRead r = .ok (some c, r')) :
    r'.size < r.size := by
  obtain ⟨pushback, input⟩ := r
  cases input with
  | nil => cases h
  | cons d input =>
    cases h
    simp only [Reader.size, List.tail_cons, List.length_cons]
    omega

theorem size_of_read {r r' : Reader} {c : JChar} (h : read r = .ok (c, r')) :
    r'.size < r.size := by
  obtain ⟨_ | d, input⟩ := r
  · rcases input with _ | ⟨d, input⟩
    · cases h
    · rw [read] at h
      dsimp only at h
      split_ifs at h
      · cases h
        simp only [Reader.size, List.length_tail, List.length_cons]
        omega
      · cases h
        cases input <;> simp [Reader.size]
      · cases h
        simp [Reader.size]
  · cases h
    simp [Reader.size]

theorem size_of_pushBack {r r' : Reader} {c : JChar} {u : Unit} (h : pushBack c r = .ok (u, r')) :
    r'.size = r.input.length + 1 := by
  cases h
  rfl

theorem length_le_size (r : Reader) : r.input.length ≤ r.size := Nat.le_add_right _ _

theorem size_le_length (r : Reader) : r.size ≤ r.input.length + 1 := by
  rw [Reader.size]
  split <;> omega

/-- Nothing is put back that was not read. -/
def Keeps {α : Type} (m : Read α) : Prop := ∀ r a r', m r = .ok (a, r') → r'.size ≤ r.size

/-- At most one char is put back, in the place of another one. -/
def PutsBack {α : Type} (m : Read α) : Prop :=
  ∀ r a r', m r = .ok (a, r') → r'.size ≤ r.input.length + 1

section Sizes

variable {α β : Type} {m m₁ m₂ : Read α} {f : α → Read β}

theorem Keeps.putsBack (h : Keeps m) : PutsBack m :=
  fun r a r' hm => (h r a r' hm).trans (size_le_length r)

theorem Keeps.pure (a : α) : Keeps (pure a : Read α) := by
  intro r a' r' h
  cases h
  exact Nat.le_refl _

theorem Keeps.throw (e : XError) : Keeps (throw e : Read α) := by
  intro r a r' h
  cases h

theorem Keeps.bind (hm : Keeps m) (hf : ∀ a, Keeps (f a)) : Keeps (m >>= f) := by
  intro r b r' h
  obtain ⟨a, s, ha, hb⟩ := bind_eq_ok.mp h
  exact (hf a s b r' hb).trans (hm r a s ha)

theorem Keeps.ite {c : Prop} [Decidable c] (h₁ : Keeps m₁) (h₂ : Keeps m₂) :
    Keeps (if c then m₁ else m₂) := by
  split
  · exact h₁
  · exact h₂

theorem keeps_rawRead : Keeps rawRead := by
  intro r c r' h
  cases h
  simp only [Reader.size, List.length_tail]
  omega

theorem putsBack_pushBack (c : JChar) : PutsBack (pushBack c) := by
  intro r u r' h
  exact Nat.le_of_eq (size_of_pushBack h)

theorem PutsBack.bind (hm : PutsBack m) (hf : ∀ a, Keeps (f a)) : PutsBack (m >>= f) := by
  intro r b r' h
  obtain ⟨a, s, ha, hb⟩ := bind_eq_ok.mp h
  exact (hf a s b r' hb).trans (hm r a s ha)

theorem PutsBack.ite {c : Prop} [Decidable c] (h₁ : PutsBack m₁) (h₂ : PutsBack m₂) :
    PutsBack (if c then m₁ else m₂) := by
  split
  · exact h₁
  · exact h₂

/-- What was just read may be put back. -/
theorem keeps_read_bind {f : JChar → Read β} (hf : ∀ c, PutsBack (f c)) : Keeps (read >>= f) := by
  intro r b r' h
  obtain ⟨c, s, hc, hb⟩ := bind_eq_ok.mp h
  have hsize := size_of_read hc
  have hlen := length_le_size s
  have hback := hf c s b r' hb
  omega

theorem keeps_loop {body : β → Read (β ⊕ α)} {h : Descends Reader.size body}
    (hbody : ∀ b, Keeps (body b)) (b : β) : Keeps (loop Reader.size body h b) := by
  intro r a r' hloop
  refine loop_ind (P := fun s => s.size ≤ r.size) (Q := fun _ s => s.size ≤ r.size) ?_
    (Nat.le_refl _) hloop
  intro b s x s' hs hx
  have hle : s'.size ≤ r.size := (hbody b s x s' hx).trans hs
  cases x with
  | inl b' => exact hle
  | inr a => exact hle

/-- A loop that reads a char in every turn. -/
theorem descends_read {f : β → JChar → Read (β ⊕ α)}
    (hf : ∀ b c r b' r', f b c r = .ok (.inl b', r') → r'.size ≤ r.size) :
    Descends Reader.size fun b => read >>= f b := by
  intro b r b' r' h
  obtain ⟨c, s, hc, hb⟩ := bind_eq_ok.mp h
  exact Nat.lt_of_le_of_lt (hf b c s b' r' hb) (size_of_read hc)

end Sizes

/-! ### Character data -/

/-- `XParser.toNum`. -/
def toNum (x : ℕ) (base : ℕ) : Option JChar → Read ℕ
  | none => throw (error s!"Expected base {base} number")
  | some c =>
    if char '0' ≤ c && c ≤ char '9' then pure (x * base + (c - char '0').toNat)
    else if base == 16 && (char 'a' ≤ c && c ≤ char 'f') then
      pure (x * base + 10 + (c - char 'a').toNat)
    else if base == 16 && (char 'A' ≤ c && c ≤ char 'F') then
      pure (x * base + 10 + (c - char 'A').toNat)
    else throw (error s!"Expected base {base} number")

/-- The rest of a number up to the semicolon. -/
def numberTurn (base : ℕ) (x : ℕ) : Read (ℕ ⊕ JChar) := do
  let c ← rawRead
  if c = some (char ';') then return .inr (BitVec.ofNat 16 x)
  let x ← toNum x base c
  return .inl x

/-- The name of an entity up to the semicolon. -/
def entityTurn (ebuf : JString) : Read (JString ⊕ JString) := do
  let c ← read
  if c = char ';' then return .inr ebuf
  return .inl (ebuf ++ [c])

theorem keeps_toNum (x base : ℕ) (c : Option JChar) : Keeps (toNum x base c) := by
  cases c with
  | none => exact Keeps.throw _
  | some c => exact (Keeps.pure _).ite ((Keeps.pure _).ite ((Keeps.pure _).ite (Keeps.throw _)))

theorem descends_numberTurn (base : ℕ) : Descends Reader.size (numberTurn base) := by
  intro x r x' r' h
  obtain ⟨c, s, hc, hx⟩ := bind_eq_ok.mp h
  cases c with
  | none => cases hx
  | some c =>
    have hsize := size_of_rawRead hc
    split at hx
    · cases hx
    · obtain ⟨y, s', hy, hpure⟩ := bind_eq_ok.mp hx
      cases hpure
      exact Nat.lt_of_le_of_lt (keeps_toNum x base (some c) s _ _ hy) hsize

theorem descends_entityTurn : Descends Reader.size entityTurn := by
  refine descends_read fun ebuf c r b' r' h => ?_
  split at h
  · cases h
  · cases h
    exact Nat.le_refl _

/-- The char of a named entity. -/
def entityChar (entity : JString) : Read JChar :=
  if entity = lit "lt".toList then pure (char '<')
  else if entity = lit "gt".toList then pure (char '>')
  else if entity = lit "amp".toList then pure (char '&')
  else if entity = lit "quot".toList then pure (char '"')
  else if entity = lit "apos".toList then pure (char '\'')
  else throw (.xException (lit "Unsupported entity &".toList ++ entity ++ lit ";".toList))

/-- `XParser.toCharData`: the char, with an entity resolved. -/
def toCharData (c : JChar) : Read JChar :=
  if c = char '<' then throw (error "Invalid markup in char data")
  else if c ≠ char '&' then pure c
  else do
    let c ← read
    if c = char '#' then
      let c ← rawRead
      if c = some (char 'x') then loop Reader.size (numberTurn 16) (descends_numberTurn 16) 0
      else
        let x ← toNum 0 10 c
        loop Reader.size (numberTurn 10) (descends_numberTurn 10) x
    else
      let entity ← loop Reader.size entityTurn descends_entityTurn [c]
      entityChar entity

theorem keeps_read : Keeps read := fun _ _ _ h => Nat.le_of_lt (size_of_read h)

theorem keeps_numberTurn (base x : ℕ) : Keeps (numberTurn base x) :=
  keeps_rawRead.bind fun c =>
    (Keeps.pure _).ite ((keeps_toNum x base c).bind fun _ => Keeps.pure _)

theorem keeps_entityTurn (ebuf : JString) : Keeps (entityTurn ebuf) :=
  keeps_read.bind fun _ => (Keeps.pure _).ite (Keeps.pure _)

theorem keeps_toCharData (c : JChar) : Keeps (toCharData c) := by
  refine (Keeps.throw _).ite ((Keeps.pure _).ite (keeps_read.bind fun d => Keeps.ite ?_ ?_))
  · refine keeps_rawRead.bind fun d => Keeps.ite (keeps_loop (keeps_numberTurn 16) 0) ?_
    exact (keeps_toNum 0 10 d).bind fun x => keeps_loop (keeps_numberTurn 10) x
  · refine (keeps_loop keeps_entityTurn _).bind fun entity => ?_
    exact (Keeps.pure _).ite ((Keeps.pure _).ite ((Keeps.pure _).ite ((Keeps.pure _).ite
      ((Keeps.pure _).ite (Keeps.throw _)))))

/-! ### Tokens -/

/-- The loop of `XParser.parseString`. -/
def stringTurn (quote : JChar) (buf : JString) : Read (JString ⊕ JString) := do
  let c ← read
  if c = quote then return .inr buf
  let d ← toCharData c
  return .inl (buf ++ [d])

theorem keeps_stringTurn (quote : JChar) (buf : JString) : Keeps (stringTurn quote buf) :=
  keeps_read.bind fun c =>
    (Keeps.pure _).ite ((keeps_toCharData c).bind fun _ => Keeps.pure _)

theorem descends_stringTurn (quote : JChar) : Descends Reader.size (stringTurn quote) :=
  descends_read fun _ c r _ r' h =>
    (Keeps.ite (Keeps.pure _) ((keeps_toCharData c).bind fun _ => Keeps.pure _)) r _ r' h

/-- `XParser.parseString`. -/
def parseString (quote : JChar) : Read JString :=
  loop Reader.size (stringTurn quote) (descends_stringTurn quote) []

/-- The loop of `XParser.parseName`. -/
def nameTurn (buf : JString) : Read (JString ⊕ JString) := do
  let c ← read
  if isName c then return .inl (buf ++ [c])
  pushBack c
  return .inr buf

theorem keeps_nameTurn (buf : JString) : Keeps (nameTurn buf) :=
  keeps_read_bind fun c => PutsBack.ite (Keeps.pure _).putsBack
    ((putsBack_pushBack c).bind fun _ => Keeps.pure _)

theorem descends_nameTurn : Descends Reader.size nameTurn := by
  refine descends_read fun buf c r b' r' h => ?_
  split at h
  · cases h
    exact Nat.le_refl _
  · cases h

/-- `XParser.parseName`. -/
def parseName (c : JChar) : Read JString :=
  if !isName c then throw (error "Expected XML name")
  else loop Reader.size nameTurn descends_nameTurn [c]

/-- `XParser.parseQName`: the part in front of the colon, and the name. -/
def parseQName (c : JChar) : Read (Option JString × JString) := do
  let name ← parseName c
  let c ← read
  if c = char ':' then
    let c ← read
    let local' ← parseName c
    return (some name, local')
  pushBack c
  return (none, name)

theorem keeps_parseName (c : JChar) : Keeps (parseName c) :=
  (Keeps.throw _).ite (keeps_loop keeps_nameTurn [c])

theorem keeps_parseQName (c : JChar) : Keeps (parseQName c) :=
  (keeps_parseName c).bind fun _ => keeps_read_bind fun d => PutsBack.ite
    (keeps_read.bind fun c => (keeps_parseName c).bind fun _ => Keeps.pure _).putsBack
    ((putsBack_pushBack d).bind fun _ => Keeps.pure _)

/-- `XParser.consume`. -/
def consume (s : JString) : JString → Read Unit
  | [] => pure ()
  | d :: ds => do
    let c ← read
    if c ≠ d then throw (.xException (lit "Expected '".toList ++ s ++ lit "'".toList))
    consume s ds

theorem keeps_consume (s ds : JString) : Keeps (consume s ds) := by
  induction ds with
  | nil => exact Keeps.pure _
  | cons d ds ih => exact keeps_read.bind fun c => (Keeps.throw _).ite ih

/-- The second loop of `XParser.skipSpace`. -/
def spaceTurn (_ : Unit) : Read (Unit ⊕ Unit) := do
  let c ← read
  if isSpace c then return .inl ()
  pushBack c
  return .inr ()

theorem keeps_spaceTurn (u : Unit) : Keeps (spaceTurn u) :=
  keeps_read_bind fun c => PutsBack.ite (Keeps.pure _).putsBack
    ((putsBack_pushBack c).bind fun _ => Keeps.pure _)

theorem descends_spaceTurn : Descends Reader.size spaceTurn := by
  refine descends_read fun u c r b' r' h => ?_
  split at h
  · cases h
    exact Nat.le_refl _
  · cases h

/-- `XParser.skipSpace`. -/
def skipSpace : Read Bool := do
  let c ← read
  if !isSpace c then
    pushBack c
    return false
  loop Reader.size spaceTurn descends_spaceTurn ()
  return true

theorem keeps_skipSpace : Keeps skipSpace :=
  keeps_read_bind fun c => PutsBack.ite ((putsBack_pushBack c).bind fun _ => Keeps.pure _)
    ((keeps_loop keeps_spaceTurn ()).bind fun _ => Keeps.pure _).putsBack

/-! ### What is skipped -/

/-- The loop of `XParser.skipComment`, with the last two chars. -/
def commentTurn (last : Option JChar × Option JChar) :
    Read (Option JChar × Option JChar ⊕ Unit) := do
  let c ← read
  if last = (some (char '-'), some (char '-')) then
    if c ≠ char '>' then throw (error "Cannot have -- in middle of comment")
    return .inr ()
  return .inl (last.2, some c)

theorem keeps_commentTurn (last : Option JChar × Option JChar) : Keeps (commentTurn last) :=
  keeps_read.bind fun _ =>
    ((Keeps.throw _).ite (Keeps.pure _)).ite (Keeps.pure _)

theorem descends_commentTurn : Descends Reader.size commentTurn :=
  descends_read fun _ _ r _ r' h =>
    (Keeps.ite ((Keeps.throw _).ite (Keeps.pure _)) (Keeps.pure _)) r _ r' h

/-- `XParser.skipComment`. -/
def skipComment : Read Unit :=
  loop Reader.size commentTurn descends_commentTurn (none, none)

/-- The loop of `XParser.skipPI`, with the last char. -/
def piTurn (last : Option JChar) : Read (Option JChar ⊕ Unit) := do
  let c ← read
  if last = some (char '?') ∧ c = char '>' then return .inr ()
  return .inl (some c)

theorem keeps_piTurn (last : Option JChar) : Keeps (piTurn last) :=
  keeps_read.bind fun _ => (Keeps.pure _).ite (Keeps.pure _)

theorem descends_piTurn : Descends Reader.size piTurn :=
  descends_read fun _ _ r _ r' h => ((Keeps.pure _).ite (Keeps.pure _)) r _ r' h

/-- `XParser.skipPI`. -/
def skipPI : Read Unit := loop Reader.size piTurn descends_piTurn none

/-- The loop of `XParser.skipDocType`. -/
def docTypeTurn (depth : ℕ) : Read (ℕ ⊕ Unit) := do
  let c ← read
  let depth := if c = char '<' then depth + 1 else depth
  let depth := if c = char '>' then depth - 1 else depth
  if depth = 0 then return .inr ()
  return .inl depth

theorem keeps_docTypeTurn (depth : ℕ) : Keeps (docTypeTurn depth) :=
  keeps_read.bind fun _ => (Keeps.pure _).ite (Keeps.pure _)

theorem descends_docTypeTurn : Descends Reader.size docTypeTurn :=
  descends_read fun _ _ r _ r' h => ((Keeps.pure _).ite (Keeps.pure _)) r _ r' h

/-- `XParser.skipDocType`. -/
def skipDocType : Read Unit := loop Reader.size docTypeTurn descends_docTypeTurn 1

/-! ### Text -/

/-- The loop of `XParser.parseCDATA`, with the text and the last two chars. -/
def cdataTurn (s : JString × Option JChar × Option JChar) :
    Read (JString × Option JChar × Option JChar ⊕ JString) := do
  let c ← read
  if s.2 = (some (char ']'), some (char ']')) ∧ c = char '>' then
    return .inr (s.1.take (s.1.length - 2))
  return .inl (s.1 ++ [c], s.2.2, some c)

theorem keeps_cdataTurn (s : JString × Option JChar × Option JChar) : Keeps (cdataTurn s) :=
  keeps_read.bind fun _ => (Keeps.pure _).ite (Keeps.pure _)

theorem descends_cdataTurn : Descends Reader.size cdataTurn :=
  descends_read fun _ _ r _ r' h => ((Keeps.pure _).ite (Keeps.pure _)) r _ r' h

/-- `XParser.parseCDATA`. -/
def parseCDATA : Read JString :=
  loop Reader.size cdataTurn descends_cdataTurn ([], none, none)

/-- The loop of `XParser.parseText`, with the text and `gotText`. -/
def textTurn (s : JString × Bool) : Read (JString × Bool ⊕ JString × Bool) := do
  let c ← tryRead
  match c with
  | none => if s.2 then throw (.eof "Unexpected EOF in XML input") else return .inr (s.1, false)
  | some c =>
    if c = char '<' then
      pushBack c
      return .inr s
    let d ← toCharData c
    return .inl (s.1 ++ [d], s.2 || !isSpace c)

theorem tryRead_eq_ok {r r' : Reader} {c : Option JChar} (h : tryRead r = .ok (c, r')) :
    (c = none ∧ r' = r) ∨ ∃ d, c = some d ∧ read r = .ok (d, r') := by
  rw [tryRead] at h
  split at h
  · next d s hd =>
    cases h
    exact .inr ⟨d, rfl, hd⟩
  · cases h
    exact .inl ⟨rfl, rfl⟩

/-- A char that was read may be put back, and at the end of the document nothing is. -/
theorem keeps_tryRead_bind {β : Type} {f : Option JChar → Read β} (hnone : Keeps (f none))
    (hsome : ∀ c, PutsBack (f (some c))) : Keeps (tryRead >>= f) := by
  intro r b r' h
  obtain ⟨c, s, hc, hb⟩ := bind_eq_ok.mp h
  obtain ⟨rfl, rfl⟩ | ⟨d, rfl, hd⟩ := tryRead_eq_ok hc
  · exact hnone s b r' hb
  · exact keeps_read_bind hsome r b r' (bind_eq_ok.mpr ⟨d, s, hd, hb⟩)

theorem keeps_textTurn (s : JString × Bool) : Keeps (textTurn s) :=
  keeps_tryRead_bind ((Keeps.throw _).ite (Keeps.pure _)) fun c => PutsBack.ite
    ((putsBack_pushBack c).bind fun _ => Keeps.pure _)
    ((keeps_toCharData c).bind fun _ => Keeps.pure _).putsBack

theorem descends_textTurn : Descends Reader.size textTurn := by
  intro s r s' r' h
  obtain ⟨c, t, hc, hs⟩ := bind_eq_ok.mp h
  obtain ⟨rfl, rfl⟩ | ⟨d, rfl, hd⟩ := tryRead_eq_ok hc
  · dsimp only at hs
    split at hs
    · cases hs
    · cases hs
  · dsimp only at hs
    split at hs
    · cases hs
    · obtain ⟨x, u, hx, hpure⟩ := bind_eq_ok.mp hs
      cases hpure
      exact Nat.lt_of_le_of_lt (keeps_toCharData d t _ _ hx) (size_of_read hd)

/-- `XParser.parseText`: the text, and whether there is more to it than space. -/
def parseText (c : JChar) : Read (JString × Bool) := do
  let d ← toCharData c
  loop Reader.size textTurn descends_textTurn ([d], !isSpace c)

theorem keeps_parseText (c : JChar) : Keeps (parseText c) :=
  (keeps_toCharData c).bind fun _ => keeps_loop keeps_textTurn _

end Sedona.Xml
