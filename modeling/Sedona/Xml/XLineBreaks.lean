import Sedona.Xml.XParser

/-!
# Line Breaks in an XML Document

`XParser.read` makes one char of a line break, but the digits of a character reference are read
past it, and what was read is put back. Two documents whose lines end with `\n` in one and with
`\r\n` in the other, or with either in both, still give the same element, or the same error.

## Main results

* `parse_eq_of_sameLines`: the parser does not tell the two line breaks apart.
-/

open Loops

namespace Sedona.Xml

/-- A line break. -/
def IsBreak (b : JString) : Prop := b = [char '\n'] ∨ b = [char '\r', char '\n']

/-- Two texts with the same lines, each of which ends with a line break of its own. -/
inductive SameLines : JString → JString → Prop
  | nil : SameLines [] []
  | cons {c : JChar} {t t' : JString} (hc : c ≠ char '\r') (h : SameLines t t') :
      SameLines (c :: t) (c :: t')
  | newline {b b' t t' : JString} (hb : IsBreak b) (hb' : IsBreak b') (h : SameLines t t') :
      SameLines (b ++ t) (b' ++ t')

/-- The text with `\r\n` for `\n`. -/
def withCrLf (t : JString) : JString :=
  t.flatMap fun c => if c = char '\n' then [char '\r', char '\n'] else [c]

theorem sameLines_withCrLf {t : JString} (h : char '\r' ∉ t) : SameLines t (withCrLf t) := by
  induction t with
  | nil => exact .nil
  | cons c t ih =>
    rw [List.mem_cons, not_or] at h
    rw [withCrLf, List.flatMap_cons]
    split
    · next hc =>
      rw [hc]
      exact .newline (.inl rfl) (.inr rfl) (ih h.2)
    · exact .cons (Ne.symm h.1) (ih h.2)

/-! ### The reader -/

/-- Two readers with the same lines in front of them. -/
structure SameRest (r r' : Reader) : Prop where
  pushback : r.pushback = r'.pushback
  lines : SameLines r.input r'.input

theorem read_of_char {c : JChar} (hc : c ≠ char '\r') (t : JString) :
    read ⟨none, c :: t⟩ = .ok (c, ⟨none, t⟩) := by
  simp only [read, if_neg hc]

theorem read_of_break {b : JString} (hb : IsBreak b) (t : JString) :
    read ⟨none, b ++ t⟩ = .ok (char '\n', ⟨none, t⟩) := by
  obtain rfl | rfl := hb
  · exact read_of_char (by decide) t
  · simp [read]

theorem inStep_read : InStep SameRest read read := by
  rintro ⟨pushback, input⟩ ⟨pushback', input'⟩ ⟨hpush, hlines⟩
  dsimp only at hpush hlines
  subst hpush
  cases pushback with
  | some c => exact .inr ⟨c, _, _, rfl, rfl, rfl, hlines⟩
  | none =>
    cases hlines with
    | nil => exact .inl ⟨_, rfl, rfl⟩
    | cons hc h => exact .inr ⟨_, _, _, read_of_char hc _, read_of_char hc _, rfl, h⟩
    | newline hb hb' h => exact .inr ⟨_, _, _, read_of_break hb _, read_of_break hb' _, rfl, h⟩

theorem inStep_tryRead : InStep SameRest tryRead tryRead := by
  intro r r' h
  obtain ⟨e, he, he'⟩ | ⟨c, s, s', hc, hc', hs⟩ := inStep_read r r' h
  · exact .inr ⟨none, r, r', by rw [tryRead, he], by rw [tryRead, he'], h⟩
  · exact .inr ⟨some c, s, s', by rw [tryRead, hc], by rw [tryRead, hc'], hs⟩

theorem inStep_pushBack (c : JChar) : InStep SameRest (pushBack c) (pushBack c) :=
  fun _ _ h => .inr ⟨(), _, _, rfl, rfl, rfl, h.lines⟩

theorem head_of_break {b : JString} (hb : IsBreak b) :
    ∃ c s, b = c :: s ∧ (c = char '\n' ∨ c = char '\r') := by
  obtain rfl | rfl := hb
  · exact ⟨_, _, rfl, .inl rfl⟩
  · exact ⟨_, _, rfl, .inr rfl⟩

section Raw

variable {α : Type} {f : Option JChar → Read α}

/-- What is read past the line breaks must take both of them for the same error. -/
theorem inStep_rawRead_bind (e : XError) (hf : ∀ c, InStep SameRest (f c) (f c))
    (hbreak : ∀ c, c = char '\n' ∨ c = char '\r' → ∀ r, f (some c) r = .error e) :
    InStep SameRest (rawRead >>= f) (rawRead >>= f) := by
  rintro ⟨pushback, input⟩ ⟨pushback', input'⟩ ⟨hpush, hlines⟩
  dsimp only at hpush hlines
  subst hpush
  have hraw : ∀ input : JString, (rawRead >>= f) ⟨pushback, input⟩ =
      f input.head? ⟨pushback, input.tail⟩ := fun input => bind_of_ok rfl
  rw [hraw, hraw]
  cases hlines with
  | nil => exact hf none _ _ ⟨rfl, .nil⟩
  | cons hc h => exact hf _ _ _ ⟨rfl, h⟩
  | newline hb hb' h =>
    obtain ⟨c, s, rfl, hc⟩ := head_of_break hb
    obtain ⟨c', s', rfl, hc'⟩ := head_of_break hb'
    exact .inl ⟨e, hbreak c hc _, hbreak c' hc' _⟩

end Raw

theorem inStep_toNum (x base : ℕ) (c : Option JChar) :
    InStep SameRest (toNum x base c) (toNum x base c) := by
  cases c with
  | none => exact .throw _
  | some c => exact .ite (.pure _) (.ite (.pure _) (.ite (.pure _) (.throw _)))

/-- A line break is no digit. -/
theorem toNum_of_break {c : JChar} (hc : c = char '\n' ∨ c = char '\r') (x base : ℕ) (r : Reader) :
    toNum x base (some c) r = .error (error s!"Expected base {base} number") := by
  obtain rfl | rfl := hc <;> cases h : base == 16 <;> simp [toNum, h] <;> rfl

theorem inStep_numberTurn (base x : ℕ) :
    InStep SameRest (numberTurn base x) (numberTurn base x) := by
  refine inStep_rawRead_bind (error s!"Expected base {base} number") (fun c => .ite (.pure _)
    ((inStep_toNum x base c).bind fun _ => .pure _)) fun c hc r => ?_
  have hne : some c ≠ some (char ';') := by
    obtain rfl | rfl := hc <;> decide
  rw [if_neg hne]
  exact bind_of_error (toNum_of_break hc x base r)

theorem inStep_entityTurn (ebuf : JString) :
    InStep SameRest (entityTurn ebuf) (entityTurn ebuf) :=
  inStep_read.bind fun _ => .ite (.pure _) (.pure _)

theorem inStep_entityChar (entity : JString) :
    InStep SameRest (entityChar entity) (entityChar entity) :=
  .ite (.pure _) (.ite (.pure _) (.ite (.pure _) (.ite (.pure _) (.ite (.pure _) (.throw _)))))

theorem inStep_toCharData (c : JChar) : InStep SameRest (toCharData c) (toCharData c) := by
  refine .ite (.throw _) (.ite (.pure _) (inStep_read.bind fun d => .ite ?_ ?_))
  · refine inStep_rawRead_bind (error s!"Expected base {10} number") (fun d => .ite
      (.loop (inStep_numberTurn 16) 0)
      ((inStep_toNum 0 10 d).bind fun x => .loop (inStep_numberTurn 10) x)) fun d hd r => ?_
    have hne : some d ≠ some (char 'x') := by
      obtain rfl | rfl := hd <;> decide
    rw [if_neg hne]
    exact bind_of_error (toNum_of_break hd 0 10 r)
  · exact (InStep.loop inStep_entityTurn _).bind inStep_entityChar

theorem inStep_parseString (quote : JChar) :
    InStep SameRest (parseString quote) (parseString quote) :=
  .loop (fun _ => inStep_read.bind fun c => .ite (.pure _)
    ((inStep_toCharData c).bind fun _ => .pure _)) []

theorem inStep_parseName (c : JChar) : InStep SameRest (parseName c) (parseName c) :=
  .ite (.throw _) (.loop (fun _ => inStep_read.bind fun d => .ite (.pure _)
    ((inStep_pushBack d).bind fun _ => .pure _)) [c])

theorem inStep_parseQName (c : JChar) : InStep SameRest (parseQName c) (parseQName c) :=
  (inStep_parseName c).bind fun _ => inStep_read.bind fun d => .ite
    (inStep_read.bind fun c => (inStep_parseName c).bind fun _ => .pure _)
    ((inStep_pushBack d).bind fun _ => .pure _)

theorem inStep_consume (s ds : JString) : InStep SameRest (consume s ds) (consume s ds) := by
  induction ds with
  | nil => exact .pure _
  | cons d ds ih => exact inStep_read.bind fun c => .ite (.throw _) ih

theorem inStep_skipSpace : InStep SameRest skipSpace skipSpace := by
  refine inStep_read.bind fun c => .ite ((inStep_pushBack c).bind fun _ => .pure _) ?_
  refine (InStep.loop (fun _ => inStep_read.bind fun d => .ite (.pure _) ?_) ()).bind fun _ =>
    .pure _
  exact (inStep_pushBack d).bind fun _ => .pure _

theorem inStep_skipComment : InStep SameRest skipComment skipComment :=
  .loop (fun _ => inStep_read.bind fun _ => .ite (.ite (.throw _) (.pure _)) (.pure _)) _

theorem inStep_skipPI : InStep SameRest skipPI skipPI :=
  .loop (fun _ => inStep_read.bind fun _ => .ite (.pure _) (.pure _)) _

theorem inStep_skipDocType : InStep SameRest skipDocType skipDocType :=
  .loop (fun _ => inStep_read.bind fun _ => .ite (.pure _) (.pure _)) _

theorem inStep_parseCDATA : InStep SameRest parseCDATA parseCDATA :=
  .loop (fun _ => inStep_read.bind fun _ => .ite (.pure _) (.pure _)) _

theorem inStep_textTurn (s : JString × Bool) : InStep SameRest (textTurn s) (textTurn s) := by
  refine inStep_tryRead.bind fun c => ?_
  cases c with
  | none => exact .ite (.throw _) (.pure _)
  | some c =>
    exact .ite ((inStep_pushBack c).bind fun _ => .pure _)
      ((inStep_toCharData c).bind fun _ => .pure _)

theorem inStep_parseText (c : JChar) : InStep SameRest (parseText c) (parseText c) :=
  (inStep_toCharData c).bind fun _ => .loop inStep_textTurn _

/-! ### The pull parser -/

/-- Two parsers that differ in what is in front of them, and there only in their line breaks. -/
def SameParser (p p' : XParser) : Prop :=
  ∃ r, SameRest p.reader r ∧ p' = { p with reader := r }

section Pull

variable {α : Type}

theorem inStep_scan {m : Read α} (h : InStep SameRest m m) :
    InStep SameParser (scan m) (scan m) := by
  rintro p _ ⟨r, hr, rfl⟩
  obtain ⟨e, he, he'⟩ | ⟨a, s, s', ha, ha', hs⟩ := h p.reader r hr
  · exact .inl ⟨e, by rw [scan, he], by rw [scan, he']⟩
  · exact .inr ⟨a, { p with reader := s }, { p with reader := s' }, by rw [scan, ha],
      by rw [scan, ha'], s', hs, rfl⟩

/-- The reader is neither read nor written. -/
def Blind (m : Pull α) : Prop :=
  ∀ p r, m { p with reader := r } = (m p).map fun x => (x.1, { x.2 with reader := r })

theorem Blind.inStep {m : Pull α} (h : Blind m) : InStep SameParser m m := by
  rintro p _ ⟨r, hr, rfl⟩
  rw [h p r]
  have hkeep := h p p.reader
  cases hm : m p with
  | error e => exact .inl ⟨e, rfl, rfl⟩
  | ok x =>
    obtain ⟨a, q⟩ := x
    refine .inr ⟨a, q, _, rfl, rfl, r, ?_, rfl⟩
    have hreader : q.reader = p.reader := by
      have heq : m { p with reader := p.reader } = .ok (a, q) := hm
      rw [heq] at hkeep
      exact congrArg (fun x => x.2.reader) (Except.ok.inj hkeep)
    rw [hreader]
    exact hr

end Pull

theorem blind_push : Blind push := by
  intro p r
  simp only [push]
  split
  · rfl
  · rfl

theorem blind_pushNs (nsPrefix value : JString) : Blind (pushNs nsPrefix value) :=
  fun _ _ => rfl

theorem blind_setTag (tag : Tag) (emptyElem : Bool) : Blind (setTag tag emptyElem) :=
  fun _ _ => rfl

theorem blind_prefixToNs (nsPrefix : JString) : Blind (prefixToNs nsPrefix) := by
  intro p r
  simp only [prefixToNs, XParser.declared]
  split
  · rfl
  · rfl

theorem blind_checkEnd (ns : Option XNs) (name : JString) : Blind (checkEnd ns name) := by
  intro p r
  simp only [checkEnd]
  split
  · rfl
  · split
    · rfl
    · rfl

theorem inStep_resolve (nsPrefix : Option JString) (noPrefix : Option XNs) :
    InStep SameParser (resolve nsPrefix noPrefix) (resolve nsPrefix noPrefix) := by
  cases nsPrefix with
  | none => exact .pure _
  | some nsPrefix => exact (blind_prefixToNs nsPrefix).inStep.bind fun _ => .pure _

theorem inStep_resolveElem (nsPrefix : Option JString) :
    InStep SameParser (resolveElem nsPrefix) (resolveElem nsPrefix) := by
  rintro p _ ⟨r, hr, rfl⟩
  exact inStep_resolve nsPrefix p.defaultNs p _ ⟨r, hr, rfl⟩

theorem inStep_resolveAttrs (attrs : List RawAttr) :
    InStep SameParser (resolveAttrs attrs) (resolveAttrs attrs) := by
  induction attrs with
  | nil => exact .pure _
  | cons attr attrs ih => exact (inStep_resolve _ _).bind fun _ => ih.bind fun _ => .pure _

theorem inStep_skip : InStep SameParser (scan (skipSpace >>= fun _ => pure ()))
    (scan (skipSpace >>= fun _ => pure ())) :=
  inStep_scan (inStep_skipSpace.bind fun _ => .pure _)

theorem inStep_parseAttr (c : JChar) : InStep SameParser (parseAttr c) (parseAttr c) := by
  refine (inStep_scan (inStep_parseQName c)).bind fun q => inStep_skip.bind fun _ =>
    (inStep_scan inStep_read).bind fun c => .ite (.throw _) (inStep_skip.bind fun _ =>
      (inStep_scan inStep_read).bind fun c => .ite (.throw _)
        ((inStep_scan (inStep_parseString c)).bind fun value => ?_))
  obtain ⟨_ | nsPrefix, name⟩ := q
  · exact .ite ((blind_pushNs _ _).inStep.bind fun _ => .pure _) (.pure _)
  · exact .ite ((blind_pushNs _ _).inStep.bind fun _ => .pure _) (.ite (.pure _) (.pure _))

theorem inStep_attrTurn (attrs : List RawAttr) :
    InStep SameParser (attrTurn attrs) (attrTurn attrs) :=
  (inStep_scan inStep_skipSpace).bind fun _ => (inStep_scan inStep_read).bind fun c =>
    .ite (.pure _) (.ite ((inStep_scan inStep_read).bind fun _ => .ite (.throw _) (.pure _))
      (.ite (.throw _) ((inStep_parseAttr c).bind fun _ => .pure _)))

theorem inStep_parseElemStart (c : JChar) :
    InStep SameParser (parseElemStart c) (parseElemStart c) :=
  blind_push.inStep.bind fun _ => (inStep_scan (inStep_parseQName c)).bind fun _ =>
    (InStep.loop inStep_attrTurn []).bind fun _ => (inStep_resolveElem _).bind fun _ =>
      (inStep_resolveAttrs _).bind fun _ => (blind_setTag _ _).inStep

theorem inStep_parseElemEnd : InStep SameParser parseElemEnd parseElemEnd :=
  (inStep_scan inStep_read).bind fun c => (inStep_scan (inStep_parseQName c)).bind fun _ =>
    (inStep_resolveElem _).bind fun _ => (blind_checkEnd _ _).inStep.bind fun _ =>
      inStep_skip.bind fun _ => (inStep_scan inStep_read).bind fun _ =>
        .ite (.throw _) (.pure _)

theorem inStep_bangTurn : InStep SameParser bangTurn bangTurn := by
  refine (inStep_scan inStep_read).bind fun c => .ite ?_ (.ite ?_ (.ite ?_ (.throw _)))
  · exact (inStep_scan inStep_read).bind fun _ => .ite (.throw _)
      ((inStep_scan inStep_skipComment).bind fun _ => .pure _)
  · exact (inStep_scan (inStep_consume _ _)).bind fun _ =>
      (inStep_scan inStep_parseCDATA).bind fun _ => .pure _
  · exact (inStep_scan (inStep_consume _ _)).bind fun _ =>
      (inStep_scan inStep_skipDocType).bind fun _ => .pure _

theorem inStep_markupTurn : InStep SameParser markupTurn markupTurn := by
  refine (inStep_scan inStep_read).bind fun c => .ite inStep_bangTurn (.ite ?_ (.ite ?_
    ((inStep_parseElemStart c).bind fun _ => .pure _)))
  · exact (inStep_scan inStep_skipPI).bind fun _ => .pure _
  · refine inStep_parseElemEnd.bind fun _ => ?_
    rintro p _ ⟨r, hr, rfl⟩
    exact .inr ⟨_, _, _, rfl, rfl, r, hr, rfl⟩

theorem inStep_nextTurn (u : Unit) : InStep SameParser (nextTurn u) (nextTurn u) := by
  refine (inStep_scan inStep_tryRead).bind fun c => ?_
  cases c with
  | none => exact .pure _
  | some c =>
    exact .ite inStep_markupTurn ((inStep_scan (inStep_parseText c)).bind fun _ =>
      .ite (.pure _) (.pure _))

theorem settle_withReader (p : XParser) (r : Reader) :
    { p with reader := r }.settle = { p.settle with reader := r } := by
  simp only [XParser.settle]
  split
  · simp only [XParser.pop]
    split
    · rfl
    · split
      · rfl
      · rfl
  · rfl

theorem inStep_next : InStep SameParser next next := by
  rintro p _ ⟨r, hr, rfl⟩
  have hr' : SameRest p.settle.reader r := by
    rw [(settle_fields p).1]
    exact hr
  simp only [next, settle_withReader]
  split
  · exact .inr ⟨_, _, _, rfl, rfl, r, hr', rfl⟩
  · exact InStep.loop inStep_nextTurn () _ _ ⟨r, hr', rfl⟩

/-! ### Trees -/

theorem inStep_treeTurn (s : Open × List Open) :
    InStep SameParser (treeTurn s) (treeTurn s) := by
  intro p p' h
  obtain ⟨e, he, he'⟩ | ⟨ev, q, q', hev, hev', hq⟩ := inStep_next p p' h
  · exact .inl ⟨e, by rw [treeTurn, he], by rw [treeTurn, he']⟩
  · simp only [treeTurn, hev, hev']
    obtain ⟨r, hr, rfl⟩ := hq
    cases ev with
    | eof => exact .inl ⟨_, rfl, rfl⟩
    | elemStart => exact .inr ⟨_, _, _, rfl, rfl, r, hr, rfl⟩
    | elemEnd =>
      dsimp only
      split
      · exact .inr ⟨_, _, _, rfl, rfl, r, hr, rfl⟩
      · exact .inr ⟨_, _, _, rfl, rfl, r, hr, rfl⟩
    | text string cdata => exact .inr ⟨_, _, _, rfl, rfl, r, hr, rfl⟩

theorem inStep_parseCurrent : InStep SameParser parseCurrent parseCurrent := by
  rintro p _ ⟨r, hr, rfl⟩
  exact InStep.loop inStep_treeTurn (⟨p.elem, []⟩, []) _ _ ⟨r, hr, rfl⟩

theorem inStep_parseElem : InStep SameParser parseElem parseElem :=
  inStep_next.bind fun _ => .ite (.throw _) inStep_parseCurrent

/-- **The parser does not tell the two line breaks apart.** Only a `\r` with no `\n` behind it could
make a difference: the char behind it is put back, and what is put back later takes its place. -/
theorem parse_eq_of_sameLines {t t' : JString} (h : SameLines t t') : parse t = parse t' := by
  have hstart : SameParser (XParser.make t) (XParser.make t') := ⟨⟨none, t'⟩, ⟨rfl, h⟩, rfl⟩
  obtain ⟨e, he, he'⟩ | ⟨x, q, q', hx, hx', -⟩ := inStep_parseElem _ _ hstart
  · rw [parse, parse, he, he']
  · rw [parse, parse, hx, hx']

/-- An attribute on a line of its own. -/
def lineBreakSample : JString :=
  lit ['<', 'a', '\n', 'b', '=', '"', '\n', '"', '>', '\n', '<', '/', 'a', '>']

theorem parse_lineBreakSample : parse lineBreakSample = parse (withCrLf lineBreakSample) :=
  parse_eq_of_sameLines (sameLines_withCrLf (by decide))

end Sedona.Xml
