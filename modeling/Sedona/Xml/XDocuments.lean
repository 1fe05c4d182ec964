import Sedona.Xml.XParser
import Sedona.Xml.XTokens

/-!
# Documents Without Namespaces

The texts that stand for an element: a grammar of start tags, end tags, text, CDATA sections and
what is skipped, with the spaces that may stand between tokens. Every such text is parsed to the
element that it stands for.

## Main results

* `parseElemStart_of_text`, `parseElemEnd_of_text`: tags.
* `treeLoop_of_body`: the content of an element.
* `parse_of_bodyText`: a document.
-/

open Loops

namespace Sedona.Xml

/-! ### Attributes -/

/-- A character that ends a name. -/
def Delimiter (c : JChar) : Prop := isName c = false ∧ c ≠ char ':' ∧ isSpace c = false

theorem isName_of_isSpace {c : JChar} (h : isSpace c = true) : isName c = false := by
  simp only [isSpace, Bool.or_eq_true, beq_iff_eq] at h
  obtain ((rfl | rfl) | rfl) | rfl := h
  · rfl
  · rfl
  · rfl
  · rfl

theorem isSpace_of_isName {c : JChar} (h : isName c = true) : isSpace c = false := by
  cases hs : isSpace c with
  | false => rfl
  | true => rw [isName_of_isSpace hs] at h; cases h

theorem ne_of_isName {c x : JChar} (h : isName c = true) (hx : isName x = false) : c ≠ x := by
  rintro rfl
  rw [hx] at h
  cases h

/-- After a name and spaces, the first character is none of a name. -/
theorem exists_delimiter {ws : JString} {d : JChar} (hws : Space ws) (hd : Delimiter d)
    (rest : JString) :
    ∃ c cs, ws ++ d :: rest = c :: cs ∧ isName c = false ∧ c ≠ char ':' := by
  cases ws with
  | nil => exact ⟨d, rest, rfl, hd.1, hd.2.1⟩
  | cons w ws =>
    have hw : isSpace w = true := hws w (List.mem_cons_self ..)
    refine ⟨w, ws ++ d :: rest, rfl, isName_of_isSpace hw, ?_⟩
    rintro rfl
    cases hw

/-- An attribute that declares no namespace and is in none. -/
inductive AttrText : XAttr → JString → Prop
  | mk {ws name ws₁ ws₂ value t : JString} {quote : JChar} {got : Bool} (hne : ws ≠ [])
    (hws : Space ws) (hname : Name name) (hxmlns : name ≠ lit "xmlns".toList) (hws₁ : Space ws₁)
    (hws₂ : Space ws₂) (hquote : quote = char '"' ∨ quote = char '\'')
    (hvalue : TextOf quote got value t) :
    AttrText ⟨none, name, value⟩
      (ws ++ (name ++ (ws₁ ++ char '=' :: (ws₂ ++ quote :: (t ++ [quote])))))

theorem AttrText.ne_nil {attr : XAttr} {t : JString} (h : AttrText attr t) : t ≠ [] := by
  cases h with
  | mk hne => exact List.append_ne_nil_of_left_ne_nil hne _

theorem AttrText.ns_eq {attr : XAttr} {t : JString} (h : AttrText attr t) : attr.ns = none := by
  cases h with
  | mk => rfl

/-- Attributes in a row. -/
inductive AttrsText : List XAttr → JString → Prop
  | nil : AttrsText [] []
  | cons {attr : XAttr} {attrs : List XAttr} {t ts : JString} (h : AttrText attr t)
    (hrest : AttrsText attrs ts) : AttrsText (attr :: attrs) (t ++ ts)

theorem AttrsText.ns_eq {attrs : List XAttr} {ts : JString} (h : AttrsText attrs ts) :
    ∀ a ∈ attrs, a.ns = none := by
  induction h with
  | nil => exact fun _ ha => absurd ha List.not_mem_nil
  | cons h _ ih =>
    intro a ha
    obtain rfl | ha := List.mem_cons.mp ha
    · exact h.ns_eq
    · exact ih a ha

theorem scan_of_ok {α : Type} {m : Read α} {p : XParser} {a : α} {r : Reader}
    (h : m p.reader = .ok (a, r)) : scan m p = .ok (a, { p with reader := r }) := by
  rw [scan, h]

theorem skip_of_space {p : XParser} {ws rest : JString} {c : JChar} (hws : Space ws)
    (hc : isSpace c = false) (h : p.reader.At (ws ++ c :: rest)) :
    scan (skipSpace >>= fun _ => pure ()) p =
      .ok ((), { p with reader := ⟨some c, rest⟩ }) := by
  refine scan_of_ok ?_
  rw [bind_of_ok (skipSpace_of_space hws hc h)]
  rfl

theorem parseAttr_of_text {name ws₁ ws₂ value t rest : JString} {d quote : JChar} {got : Bool}
    (hname : Name (d :: name)) (hxmlns : d :: name ≠ lit "xmlns".toList) (hws₁ : Space ws₁)
    (hws₂ : Space ws₂) (hquote : quote = char '"' ∨ quote = char '\'')
    (hvalue : TextOf quote got value t) {p : XParser}
    (h : p.reader.At (name ++ (ws₁ ++ char '=' :: (ws₂ ++ quote :: (t ++ quote :: rest))))) :
    parseAttr d p = .ok (⟨none, d :: name, value⟩, { p with reader := ⟨none, rest⟩ }) := by
  have heq : Delimiter (char '=') := ⟨by decide, by decide, by decide⟩
  obtain ⟨c, cs, hcs, hc, hcolon⟩ := exists_delimiter hws₁ heq
    (ws₂ ++ quote :: (t ++ quote :: rest))
  have hquote' : isSpace quote = false := by
    obtain rfl | rfl := hquote
    · rfl
    · rfl
  have hno : char '\r' ∉ ws₂ ++ quote :: (t ++ quote :: rest) := by
    rw [← List.append_assoc] at h
    exact h.rest
  have hno' : char '\r' ∉ t ++ quote :: rest := (Reader.at_none hno).rest
  rw [hcs] at h
  have hat : Reader.At ⟨some c, cs⟩
      (ws₁ ++ char '=' :: (ws₂ ++ quote :: (t ++ quote :: rest))) := by
    rw [hcs]
    exact Reader.at_some c h.rest
  rw [parseAttr, bind_of_ok (scan_of_ok (parseQName_of_name hname hc hcolon h))]
  dsimp only
  rw [bind_of_ok (skip_of_space (c := char '=') hws₁ heq.2.2 hat),
    bind_of_ok (scan_of_ok (read_at (Reader.at_some _ hno))), if_neg (not_not_intro rfl),
    bind_of_ok (skip_of_space (c := quote) hws₂ hquote' (Reader.at_none hno)),
    bind_of_ok (scan_of_ok (read_at (Reader.at_some _ hno'))),
    if_neg (fun h => hquote.elim h.1 h.2),
    bind_of_ok (scan_of_ok (parseString_of_textOf hvalue (Reader.at_none hno')))]
  dsimp only
  rw [if_neg hxmlns]
  rfl

/-- An attribute of the loop, before its namespace is resolved. -/
def XAttr.raw (attr : XAttr) : RawAttr := ⟨none, attr.name, attr.value⟩

/-- The end of a start tag. -/
def close (empty : Bool) : JString := if empty then lit "/>".toList else lit ">".toList

theorem attrTurn_of_text {attr : XAttr} {t rest : JString} (ht : AttrText attr t)
    (attrs : List RawAttr) {p : XParser} (h : p.reader.At (t ++ rest)) :
    attrTurn attrs p = .ok (.inl (attrs ++ [attr.raw]), { p with reader := ⟨none, rest⟩ }) := by
  obtain @⟨ws, name, ws₁, ws₂, value, t, quote, got, hne, hws, hname, hxmlns, hws₁, hws₂, hquote,
    hvalue⟩ := ht
  obtain ⟨d, name, rfl⟩ := List.exists_cons_of_ne_nil hname.ne_nil
  have hd : isName d = true := hname.isName d (List.mem_cons_self ..)
  simp only [List.append_assoc, List.cons_append, List.nil_append] at h
  rw [attrTurn, bind_of_ok (scan_of_ok (skipSpace_of_space hws (isSpace_of_isName hd) h)),
    bind_of_ok (scan_of_ok (read_at (Reader.at_some _ h.rest))), if_neg (ne_of_isName hd rfl),
    if_neg (ne_of_isName hd rfl)]
  have hsp : (!(!ws.isEmpty)) = false := by
    cases ws with
    | nil => exact absurd rfl hne
    | cons w ws => rfl
  rw [hsp, if_neg (by decide)]
  dsimp only
  rw [bind_of_ok (parseAttr_of_text hname hxmlns hws₁ hws₂ hquote hvalue
    (Reader.at_none h.rest))]
  rfl

theorem delimiter_close (empty : Bool) :
    ∃ d ds, close empty = d :: ds ∧ Delimiter d := by
  cases empty with
  | false => exact ⟨char '>', [], rfl, by decide, by decide, by decide⟩
  | true => exact ⟨char '/', lit ">".toList, rfl, by decide, by decide, by decide⟩

theorem attrTurn_of_close {ws rest : JString} (hws : Space ws) (empty : Bool)
    (attrs : List RawAttr) {p : XParser} (h : p.reader.At (ws ++ (close empty ++ rest))) :
    attrTurn attrs p = .ok (.inr (attrs, empty), { p with reader := ⟨none, rest⟩ }) := by
  cases empty with
  | false =>
    have hat : p.reader.At (ws ++ char '>' :: rest) := h
    rw [attrTurn, bind_of_ok (scan_of_ok (skipSpace_of_space hws (by decide) hat)),
      bind_of_ok (scan_of_ok (read_at (Reader.at_some _ hat.rest))), if_pos rfl]
    rfl
  | true =>
    have hat : p.reader.At (ws ++ char '/' :: char '>' :: rest) := h
    rw [attrTurn, bind_of_ok (scan_of_ok (skipSpace_of_space hws (by decide) hat)),
      bind_of_ok (scan_of_ok (read_at (Reader.at_some _ hat.rest))), if_neg (by decide),
      if_pos rfl, bind_of_ok (scan_of_ok (read_at (Reader.at_none hat.rest))),
      if_neg (not_not_intro rfl)]
    rfl

theorem attrLoop_of_text {attrs : List XAttr} {ts ws rest : JString} (hts : AttrsText attrs ts)
    (hws : Space ws) (empty : Bool) (acc : List RawAttr) {p : XParser}
    (h : p.reader.At (ts ++ (ws ++ (close empty ++ rest)))) :
    loop size attrTurn descends_attrTurn acc p =
      .ok ((acc ++ attrs.map XAttr.raw, empty), { p with reader := ⟨none, rest⟩ }) := by
  induction hts generalizing acc p with
  | nil =>
    rw [List.map_nil, List.append_nil]
    exact loop_of_done (attrTurn_of_close hws empty acc h)
  | @cons attr attrs t ts ht _ ih =>
    rw [List.append_assoc] at h
    have hno := h.rest_of_ne_nil ht.ne_nil
    rw [loop_of_next (attrTurn_of_text ht acc h), ih _ (Reader.at_none hno), List.append_assoc]
    rfl

theorem resolveAttrs_of_raw (attrs : List XAttr) (hns : ∀ a ∈ attrs, a.ns = none) (p : XParser) :
    resolveAttrs (attrs.map XAttr.raw) p = .ok (attrs, p) := by
  induction attrs with
  | nil => rfl
  | cons attr attrs ih =>
    obtain ⟨ns, name, value⟩ := attr
    obtain rfl : ns = none := hns _ (List.mem_cons_self ..)
    rw [List.map_cons, resolveAttrs, bind_of_ok (a := none) (s := p) rfl,
      bind_of_ok (ih fun a ha => hns a (List.mem_cons_of_mem _ ha))]
    rfl

/-! ### Tags -/

/-- A parser between two calls of `next`, with nothing left to do and no namespace declared. -/
def idle (r : Reader) (st : List Frame) (n : ℕ) : XParser := ⟨r, st, none, n, false, false⟩

theorem scan_idle {α : Type} {m : Read α} {r r' : Reader} {a : α} (h : m r = .ok (a, r'))
    (st : List Frame) (n : ℕ) : scan m (idle r st n) = .ok (a, idle r' st n) :=
  scan_of_ok h

theorem exists_delimiter_attrs {attrs : List XAttr} {ts ws : JString}
    (hts : AttrsText attrs ts) (hws : Space ws) (empty : Bool) (rest : JString) :
    ∃ c cs, ts ++ (ws ++ (close empty ++ rest)) = c :: cs ∧ isName c = false ∧ c ≠ char ':' := by
  cases hts with
  | nil =>
    obtain ⟨d, ds, hclose, hd⟩ := delimiter_close empty
    rw [hclose]
    exact exists_delimiter hws hd (ds ++ rest)
  | @cons attr attrs t ts h hrest =>
    obtain @⟨ws, name, ws₁, ws₂, value, t, quote, got, hne, hws, -, -, -, -, -, -⟩ := h
    obtain ⟨w, ws, rfl⟩ := List.exists_cons_of_ne_nil hne
    have hw : isSpace w = true := hws w (List.mem_cons_self ..)
    refine ⟨w, _, rfl, isName_of_isSpace hw, ?_⟩
    rintro rfl
    cases hw

theorem parseElemStart_of_text {name ts ws rest : JString} {d : JChar} {attrs : List XAttr}
    (hname : Name (d :: name)) (hts : AttrsText attrs ts) (hws : Space ws) (empty : Bool)
    {r : Reader} {st : List Frame} (hst : st.length < 256) (n : ℕ)
    (h : r.At (name ++ (ts ++ (ws ++ (close empty ++ rest))))) :
    parseElemStart d (idle r st n) =
      .ok ((), { idle ⟨none, rest⟩ (⟨⟨none, d :: name, attrs⟩, []⟩ :: st) n with
        emptyElem := empty }) := by
  obtain ⟨c, cs, hcs, hc, hcolon⟩ := exists_delimiter_attrs hts hws empty rest
  have hpush : push (idle r st n) = .ok ((), idle r (⟨⟨none, [], []⟩, []⟩ :: st) n) := if_pos hst
  have hns := hts.ns_eq
  rw [hcs] at h
  have hat : Reader.At ⟨some c, cs⟩ (ts ++ (ws ++ (close empty ++ rest))) := by
    rw [hcs]
    exact Reader.at_some c h.rest
  rw [parseElemStart, bind_of_ok hpush,
    bind_of_ok (scan_of_ok (parseQName_of_name hname hc hcolon h))]
  dsimp only
  rw [bind_of_ok (attrLoop_of_text hts hws empty [] hat)]
  dsimp only
  rw [bind_of_ok (a := none) rfl, List.nil_append, bind_of_ok (resolveAttrs_of_raw attrs hns _)]
  rfl

theorem checkEnd_of_stack {p : XParser} (frame : Frame) {st : List Frame}
    (h : p.stack = frame :: st) : checkEnd frame.tag.ns frame.tag.name p = .ok ((), p) := by
  rw [checkEnd, h]
  exact if_neg fun hne => hne.elim (fun hname => hname rfl) fun hns => hns rfl

theorem parseElemEnd_of_text {name ws rest : JString} {attrs : List XAttr} (hname : Name name)
    (hws : Space ws) {r : Reader} (st : List Frame) (n : ℕ)
    (h : r.At (name ++ (ws ++ char '>' :: rest))) :
    parseElemEnd (idle r (⟨⟨none, name, attrs⟩, []⟩ :: st) n) =
      .ok ((), idle ⟨none, rest⟩ (⟨⟨none, name, attrs⟩, []⟩ :: st) n) := by
  have hclose : Delimiter (char '>') := ⟨by decide, by decide, by decide⟩
  obtain ⟨c, cs, hcs, hc, hcolon⟩ := exists_delimiter hws hclose rest
  obtain ⟨d, name, rfl⟩ := List.exists_cons_of_ne_nil hname.ne_nil
  rw [hcs] at h
  have hat : Reader.At ⟨some c, cs⟩ (ws ++ char '>' :: rest) := by
    rw [hcs]
    exact Reader.at_some c h.rest
  rw [parseElemEnd, bind_of_ok (scan_of_ok (read_at h)),
    bind_of_ok (scan_of_ok (parseQName_of_name hname hc hcolon (Reader.at_none h.tail)))]
  dsimp only
  rw [bind_of_ok (a := none) rfl,
    bind_of_ok (checkEnd_of_stack ⟨⟨none, d :: name, attrs⟩, []⟩ rfl),
    bind_of_ok (skip_of_space hws (by decide) hat),
    bind_of_ok (scan_of_ok (read_at (Reader.at_some _ hat.rest)))]
  rfl

/-! ### Content -/

/-- The start tag of an element that is not empty, or the whole of one that is. -/
inductive StartText (empty : Bool) : Tag → JString → Prop
  | mk {name ts ws : JString} {attrs : List XAttr} (hname : Name name) (hts : AttrsText attrs ts)
    (hws : Space ws) :
    StartText empty ⟨none, name, attrs⟩ (char '<' :: (name ++ (ts ++ (ws ++ close empty))))

/-- What stands between a start tag and its end tag, with at most `d` levels of elements in it.
A text is followed by markup, so it cannot start where `free` is false. -/
inductive BodyText : ℕ → Bool → List XContent → JString → Prop
  | nil {d : ℕ} {free : Bool} : BodyText d free [] []
  | blank {d : ℕ} {ws t : JString} {content : List XContent} (hne : ws ≠ []) (hws : Space ws)
    (hrest : BodyText d false content t) : BodyText d true content (ws ++ t)
  | comment {d : ℕ} {free : Bool} {c t : JString} {content : List XContent} (hc : CommentText c)
    (hrest : BodyText d true content t) :
    BodyText d free content (lit "<!--".toList ++ (c ++ (lit "-->".toList ++ t)))
  | pi {d : ℕ} {free : Bool} {c t : JString} {content : List XContent} (hc : PIText c)
    (hrest : BodyText d true content t) :
    BodyText d free content (lit "<?".toList ++ (c ++ (lit "?>".toList ++ t)))
  | text {d : ℕ} {v ts t : JString} {content : List XContent} (hv : TextOf (char '<') true v ts)
    (hrest : BodyText d false content t) : BodyText d true (.text v false :: content) (ts ++ t)
  | cdata {d : ℕ} {free : Bool} {v t : JString} {content : List XContent} (hv : CDataText v)
    (hrest : BodyText d true content t) :
    BodyText d free (.text v true :: content)
      (lit "<![CDATA[".toList ++ (v ++ (lit "]]>".toList ++ t)))
  | empty {d : ℕ} {free : Bool} {tag : Tag} {s t : JString} {content : List XContent}
    (hs : StartText true tag s) (hrest : BodyText (d + 1) true content t) :
    BodyText (d + 1) free (.elem tag [] :: content) (s ++ t)
  | elem {d : ℕ} {free : Bool} {tag : Tag} {s body ws t : JString} {kids content : List XContent}
    (hs : StartText false tag s) (hbody : BodyText d true kids body) (hws : Space ws)
    (hrest : BodyText (d + 1) true content t) :
    BodyText (d + 1) free (.elem tag kids :: content)
      (s ++ (body ++ (lit "</".toList ++ (tag.name ++ (ws ++ char '>' :: t)))))

/-- The parser is about to read `cs` with the elements `st` open. -/
structure Ready (p : XParser) (st : List Frame) (cs : JString) : Prop where
  settle : ∃ r n, p.settle = idle r st n ∧ r.At cs
  plain : ∀ frame ∈ st, frame.ns = []

theorem Ready.idle {r : Reader} {st : List Frame} {cs : JString} (h : r.At cs)
    (hst : ∀ frame ∈ st, frame.ns = []) (n : ℕ) : Ready (idle r st n) st cs :=
  ⟨⟨r, n, rfl, h⟩, hst⟩

/-- After the end of an element, it is popped. -/
theorem Ready.pop {r : Reader} {frame : Frame} {st : List Frame} {cs : JString} (h : r.At cs)
    (hst : ∀ f ∈ frame :: st, f.ns = []) (n : ℕ) :
    Ready { Xml.idle r (frame :: st) n with popStack := true } st cs := by
  have hns : frame.ns = [] := hst frame (List.mem_cons_self ..)
  refine ⟨⟨r, n, ?_, h⟩, fun f hf => hst f (List.mem_cons_of_mem _ hf)⟩
  rw [XParser.settle, if_pos rfl, XParser.pop]
  exact if_pos hns

theorem Ready.plain_cons {p : XParser} {st : List Frame} {cs : JString} (h : Ready p st cs)
    (tag : Tag) : ∀ frame ∈ ⟨tag, []⟩ :: st, frame.ns = [] := by
  intro f hf
  obtain rfl | hf := List.mem_cons.mp hf
  · rfl
  · exact h.plain f hf

theorem next_of_ready {p : XParser} {st : List Frame} {cs : JString} (h : Ready p st cs) :
    ∃ r n, r.At cs ∧ next p = loop size nextTurn descends_nextTurn () (Xml.idle r st n) := by
  obtain ⟨⟨r, n, hp, hat⟩, -⟩ := h
  refine ⟨r, n, hat, ?_⟩
  rw [next, hp]
  rfl

/-- A turn of the loop that finds nothing. -/
theorem next_of_skip {p : XParser} {st : List Frame} {cs cs' : JString} (h : Ready p st cs)
    (hturn : ∀ r n, r.At cs → ∃ r', r'.At cs' ∧
      nextTurn () (Xml.idle r st n) = .ok (.inl (), Xml.idle r' st n)) :
    ∃ p', Ready p' st cs' ∧ next p = next p' := by
  obtain ⟨r, n, hat, hnext⟩ := next_of_ready h
  obtain ⟨r', hat', heq⟩ := hturn r n hat
  exact ⟨Xml.idle r' st n, Ready.idle hat' h.plain n, hnext.trans (loop_of_next heq)⟩

/-- A turn of the loop that finds an event. -/
theorem next_of_event {p : XParser} {st : List Frame} {cs : JString} (h : Ready p st cs)
    {ev : Event} {Q : XParser → Prop}
    (hturn : ∀ r n, r.At cs → ∃ p', Q p' ∧ nextTurn () (Xml.idle r st n) = .ok (.inr ev, p')) :
    ∃ p', Q p' ∧ next p = .ok (ev, p') := by
  obtain ⟨r, n, hat, hnext⟩ := next_of_ready h
  obtain ⟨p', hQ, heq⟩ := hturn r n hat
  exact ⟨p', hQ, hnext.trans (loop_of_done heq)⟩

/-! ### Turns of the loop of `next` -/

section Turns

variable {r : Reader} {rest : JString} {st : List Frame} {n : ℕ}

theorem nextTurn_of_text {got : Bool} {v ts : JString} (hv : TextOf (char '<') got v ts)
    (hne : ts ≠ []) (h : r.At (ts ++ char '<' :: rest)) :
    nextTurn () (Xml.idle r st n) =
      .ok (if got then .inr (.text v false) else .inl (),
        Xml.idle ⟨some (char '<'), rest⟩ st n) := by
  cases hv with
  | nil => exact absurd rfl hne
  | @cons x c t v ts got hx hc hrest =>
    rw [List.cons_append, List.cons_append, List.append_assoc] at h
    rw [nextTurn, bind_of_ok (scan_idle (tryRead_at h) _ _)]
    dsimp only
    rw [if_neg hc,
      bind_of_ok (scan_idle (parseText_of_textOf hx hrest (Reader.at_none h.tail)) _ _)]
    dsimp only
    cases hgot : !isSpace c || got
    · rfl
    · rfl

theorem nextTurn_of_markup (h : r.At (char '<' :: rest)) :
    nextTurn () (Xml.idle r st n) = markupTurn (Xml.idle ⟨none, rest⟩ st n) := by
  rw [nextTurn, bind_of_ok (scan_idle (tryRead_at h) _ _)]
  rfl

theorem nextTurn_of_comment {c : JString} (hc : CommentText c)
    (h : r.At (lit "<!--".toList ++ (c ++ (lit "-->".toList ++ rest)))) :
    nextTurn () (Xml.idle r st n) = .ok (.inl (), Xml.idle ⟨none, rest⟩ st n) := by
  have hat : r.At (char '<' :: char '!' :: char '-' :: char '-' ::
    (c ++ char '-' :: char '-' :: char '>' :: rest)) := h
  have h₁ := Reader.at_none hat.tail
  have h₂ := Reader.at_none h₁.tail
  have h₃ := Reader.at_none h₂.tail
  rw [nextTurn_of_markup hat, markupTurn, bind_of_ok (scan_idle (read_at h₁) _ _), if_pos rfl,
    bangTurn, bind_of_ok (scan_idle (read_at h₂) _ _), if_pos rfl,
    bind_of_ok (scan_idle (read_at h₃) _ _), if_neg (not_not_intro rfl)]
  dsimp only
  rw [bind_of_ok (scan_idle (skipComment_of_text hc (Reader.at_none h₃.tail)) _ _)]
  rfl

theorem nextTurn_of_pi {c : JString} (hc : PIText c)
    (h : r.At (lit "<?".toList ++ (c ++ (lit "?>".toList ++ rest)))) :
    nextTurn () (Xml.idle r st n) = .ok (.inl (), Xml.idle ⟨none, rest⟩ st n) := by
  have hat : r.At (char '<' :: char '?' :: (c ++ char '?' :: char '>' :: rest)) := h
  have h₁ := Reader.at_none hat.tail
  rw [nextTurn_of_markup hat, markupTurn, bind_of_ok (scan_idle (read_at h₁) _ _),
    if_neg (by decide), if_pos rfl,
    bind_of_ok (scan_idle (skipPI_of_text hc (Reader.at_none h₁.tail)) _ _)]
  rfl

theorem nextTurn_of_cdata {v : JString} (hv : CDataText v)
    (h : r.At (lit "<![CDATA[".toList ++ (v ++ (lit "]]>".toList ++ rest)))) :
    nextTurn () (Xml.idle r st n) =
      .ok (.inr (.text v true), Xml.idle ⟨none, rest⟩ st n) := by
  have hat : r.At (char '<' :: char '!' :: char '[' :: (lit "CDATA[".toList ++
    (v ++ (lit "]]".toList ++ char '>' :: rest)))) := h
  have h₁ := Reader.at_none hat.tail
  have h₂ := Reader.at_none h₁.tail
  have h₃ := Reader.at_none h₂.tail
  have h₄ : Reader.At ⟨none, v ++ (lit "]]".toList ++ char '>' :: rest)⟩ _ :=
    Reader.at_none (notMem_of_append h₂.tail)
  have hconsume : consume (lit "CDATA[".toList) (lit "CDATA[".toList) ⟨none, lit "CDATA[".toList ++
      (v ++ (lit "]]".toList ++ char '>' :: rest))⟩ =
      .ok ((), ⟨none, v ++ (lit "]]".toList ++ char '>' :: rest)⟩) :=
    consume_at (char 'C') (lit "DATA[".toList) h₃
  rw [← List.append_assoc] at h₄
  rw [nextTurn_of_markup hat, markupTurn, bind_of_ok (scan_idle (read_at h₁) _ _), if_pos rfl,
    bangTurn, bind_of_ok (scan_idle (read_at h₂) _ _), if_neg (by decide), if_pos rfl,
    bind_of_ok (scan_idle hconsume _ _), ← List.append_assoc,
    bind_of_ok (scan_idle (parseCDATA_of_text hv h₄) _ _)]
  rfl

theorem nextTurn_of_start {empty : Bool} {tag : Tag} {s : JString} (hs : StartText empty tag s)
    (hst : st.length < 256) (h : r.At (s ++ rest)) :
    nextTurn () (Xml.idle r st n) =
      .ok (.inr .elemStart, { Xml.idle ⟨none, rest⟩ (⟨tag, []⟩ :: st) n with
        emptyElem := empty }) := by
  obtain @⟨name, ts, ws, attrs, hname, hts, hws⟩ := hs
  obtain ⟨d, name, rfl⟩ := List.exists_cons_of_ne_nil hname.ne_nil
  have hd : isName d = true := hname.isName d (List.mem_cons_self ..)
  simp only [List.append_assoc, List.cons_append] at h
  have h₁ := Reader.at_none h.tail
  rw [nextTurn_of_markup h, markupTurn, bind_of_ok (scan_idle (read_at h₁) _ _),
    if_neg (ne_of_isName hd rfl), if_neg (ne_of_isName hd rfl), if_neg (ne_of_isName hd rfl),
    bind_of_ok (parseElemStart_of_text hname hts hws empty hst n (Reader.at_none h₁.tail))]
  rfl

theorem nextTurn_of_end {tag : Tag} {ws : JString} (hname : Name tag.name) (hns : tag.ns = none)
    (hws : Space ws)
    (h : r.At (lit "</".toList ++ (tag.name ++ (ws ++ char '>' :: rest)))) :
    nextTurn () (Xml.idle r (⟨tag, []⟩ :: st) n) =
      .ok (.inr .elemEnd, { Xml.idle ⟨none, rest⟩ (⟨tag, []⟩ :: st) n with popStack := true }) := by
  obtain ⟨ns, name, attrs⟩ := tag
  obtain rfl : ns = none := hns
  have hat : r.At (char '<' :: char '/' :: (name ++ (ws ++ char '>' :: rest))) := h
  have h₁ := Reader.at_none hat.tail
  rw [nextTurn_of_markup hat, markupTurn, bind_of_ok (scan_idle (read_at h₁) _ _),
    if_neg (by decide), if_neg (by decide), if_pos rfl,
    bind_of_ok (parseElemEnd_of_text hname hws st n (Reader.at_none h₁.tail))]

end Turns

/-! ### Elements and their content -/

theorem textOf_of_space {ws : JString} (hws : Space ws) : TextOf (char '<') false ws ws := by
  induction ws with
  | nil => exact .nil
  | cons w ws ih =>
    have hw : isSpace w = true := hws w (List.mem_cons_self ..)
    have hlt : w ≠ char '<' := by
      rintro rfl
      cases hw
    have hamp : w ≠ char '&' := by
      rintro rfl
      cases hw
    have hcons := TextOf.cons (CharText.plain hlt hamp) hlt
      (ih fun e he => hws e (List.mem_cons_of_mem _ he))
    rwa [hw] at hcons

theorem TextOf.ne_nil {stop : JChar} {v t : JString} (h : TextOf stop true v t) : t ≠ [] := by
  generalize hgot : true = got at h
  cases h with
  | nil => cases hgot
  | cons => exact List.cons_ne_nil _ _

theorem StartText.name {empty : Bool} {tag : Tag} {s : JString} (h : StartText empty tag s) :
    Name tag.name ∧ tag.ns = none ∧ ∃ u, s = char '<' :: u := by
  obtain @⟨name, ts, ws, attrs, hname, hts, hws⟩ := h
  exact ⟨hname, rfl, _, rfl⟩

theorem StartText.ne_nil {empty : Bool} {tag : Tag} {s : JString} (h : StartText empty tag s) :
    s ≠ [] := by
  obtain ⟨-, -, u, rfl⟩ := h.name
  exact List.cons_ne_nil _ _

theorem Reader.At.rest_of_three {r : Reader} {xs ys zs cs : JString}
    (h : r.At (xs ++ (ys ++ (zs ++ cs)))) (hne : xs ≠ []) : char '\r' ∉ cs :=
  notMem_of_append (notMem_of_append (h.rest_of_ne_nil hne))

/-- What is not free starts with markup, if there is anything. -/
theorem BodyText.markup {d : ℕ} {content : List XContent} {t : JString}
    (h : BodyText d false content t) :
    (content = [] ∧ t = []) ∨ ∃ u, t = char '<' :: u := by
  cases h with
  | nil => exact .inl ⟨rfl, rfl⟩
  | comment => exact .inr ⟨_, rfl⟩
  | pi => exact .inr ⟨_, rfl⟩
  | cdata => exact .inr ⟨_, rfl⟩
  | empty hs =>
    obtain ⟨-, -, u, rfl⟩ := hs.name
    exact .inr ⟨_, rfl⟩
  | elem hs =>
    obtain ⟨-, -, u, rfl⟩ := hs.name
    exact .inr ⟨_, rfl⟩

theorem BodyText.markup_append {d : ℕ} {content : List XContent} {t : JString}
    (h : BodyText d false content t) (rest : JString) :
    ∃ u, t ++ char '<' :: rest = char '<' :: u := by
  obtain ⟨-, rfl⟩ | ⟨u, rfl⟩ := h.markup
  · exact ⟨rest, rfl⟩
  · exact ⟨u ++ char '<' :: rest, rfl⟩

def Open.addAll (o : Open) (cs : List XContent) : Open := { o with content := o.content ++ cs }

theorem Open.addAll_cons (o : Open) (c : XContent) (cs : List XContent) :
    o.addAll (c :: cs) = (o.add c).addAll cs := by
  rw [addAll, addAll, add, List.append_assoc, List.singleton_append]

/-- The loop of `parseCurrent`. -/
abbrev treeLoop := loop weight treeTurn descends_treeTurn

theorem treeLoop_of_skip {p p' : XParser} {s : Open × List Open} (h : next p = next p') :
    treeLoop s p = treeLoop s p' := by
  refine loop_congr ?_
  rw [treeTurn, treeTurn, h]

theorem treeLoop_of_start {p p' : XParser} {s : Open × List Open}
    (h : next p = .ok (.elemStart, p')) :
    treeLoop s p = treeLoop (⟨p'.elem, []⟩, s.1 :: s.2) p' := by
  refine loop_of_next ?_
  rw [treeTurn, h]

theorem treeLoop_of_text {p p' : XParser} {s : Open × List Open} {v : JString} {cdata : Bool}
    (h : next p = .ok (.text v cdata, p')) :
    treeLoop s p = treeLoop (s.1.add (.text v cdata), s.2) p' := by
  refine loop_of_next ?_
  rw [treeTurn, h]

theorem treeLoop_of_end {p p' : XParser} {cur parent : Open} {parents : List Open}
    (h : next p = .ok (.elemEnd, p')) :
    treeLoop (cur, parent :: parents) p =
      treeLoop (parent.add (.elem cur.tag cur.content), parents) p' := by
  refine loop_of_next ?_
  rw [treeTurn, h]

/-- **The content of an element is what its text stands for.** -/
theorem treeLoop_of_body {d : ℕ} {free : Bool} {content : List XContent} {t : JString}
    (h : BodyText d free content t) {p : XParser} {st : List Frame} {rest : JString}
    (hp : Ready p st (t ++ char '<' :: rest)) (hst : st.length + d ≤ 256) (o : Open)
    (os : List Open) :
    ∃ p', Ready p' st (char '<' :: rest) ∧
      treeLoop (o, os) p = treeLoop (o.addAll content, os) p' := by
  induction h generalizing p st rest o os with
  | nil =>
    refine ⟨p, hp, ?_⟩
    rw [Open.addAll, List.append_nil]
  | @blank d ws t content hne hws hrest ih =>
    obtain ⟨u, hu⟩ := hrest.markup_append rest
    rw [List.append_assoc, hu] at hp
    obtain ⟨p₁, hp₁, hnext⟩ := next_of_skip hp fun r n hat =>
      ⟨_, Reader.at_some (char '<') hat.rest, nextTurn_of_text (textOf_of_space hws) hne hat⟩
    rw [← hu] at hp₁
    obtain ⟨p', hp', hloop⟩ := ih hp₁ hst o os
    exact ⟨p', hp', (treeLoop_of_skip hnext).trans hloop⟩
  | @comment d free c t content hc hrest ih =>
    simp only [List.append_assoc] at hp
    obtain ⟨p₁, hp₁, hnext⟩ := next_of_skip hp fun r n hat =>
      ⟨_, Reader.at_none (hat.rest_of_three (by decide)), nextTurn_of_comment hc hat⟩
    obtain ⟨p', hp', hloop⟩ := ih hp₁ hst o os
    exact ⟨p', hp', (treeLoop_of_skip hnext).trans hloop⟩
  | @pi d free c t content hc hrest ih =>
    simp only [List.append_assoc] at hp
    obtain ⟨p₁, hp₁, hnext⟩ := next_of_skip hp fun r n hat =>
      ⟨_, Reader.at_none (hat.rest_of_three (by decide)), nextTurn_of_pi hc hat⟩
    obtain ⟨p', hp', hloop⟩ := ih hp₁ hst o os
    exact ⟨p', hp', (treeLoop_of_skip hnext).trans hloop⟩
  | @text d v ts t content hv hrest ih =>
    obtain ⟨u, hu⟩ := hrest.markup_append rest
    rw [List.append_assoc, hu] at hp
    obtain ⟨p₁, hp₁, hnext⟩ := next_of_event (Q := fun q => Ready q st (char '<' :: u)) hp
      fun r n hat => ⟨_, Ready.idle (Reader.at_some (char '<') hat.rest) hp.plain n,
        nextTurn_of_text hv hv.ne_nil hat⟩
    rw [← hu] at hp₁
    obtain ⟨p', hp', hloop⟩ := ih hp₁ hst (o.add (.text v false)) os
    rw [← Open.addAll_cons] at hloop
    exact ⟨p', hp', (treeLoop_of_text hnext).trans hloop⟩
  | @cdata d free v t content hv hrest ih =>
    simp only [List.append_assoc] at hp
    obtain ⟨p₁, hp₁, hnext⟩ := next_of_event (Q := fun q => Ready q st (t ++ char '<' :: rest)) hp
      fun r n hat => ⟨_, Ready.idle (Reader.at_none (hat.rest_of_three (by decide))) hp.plain n,
        nextTurn_of_cdata hv hat⟩
    obtain ⟨p', hp', hloop⟩ := ih hp₁ hst (o.add (.text v true)) os
    rw [← Open.addAll_cons] at hloop
    exact ⟨p', hp', (treeLoop_of_text hnext).trans hloop⟩
  | @empty d free tag s t content hs hrest ih =>
    rw [List.append_assoc] at hp
    obtain ⟨p₁, ⟨r, n, rfl, hat⟩, hnext⟩ := next_of_event (Q := fun q => ∃ r n,
      q = { Xml.idle r (⟨tag, []⟩ :: st) n with emptyElem := true } ∧
        r.At (t ++ char '<' :: rest)) hp fun r n hat =>
      ⟨_, ⟨_, _, rfl, Reader.at_none (hat.rest_of_ne_nil hs.ne_nil)⟩,
        nextTurn_of_start hs (by omega) hat⟩
    have hend : next { Xml.idle r (⟨tag, []⟩ :: st) n with emptyElem := true } =
        .ok (.elemEnd, { Xml.idle r (⟨tag, []⟩ :: st) n with popStack := true }) := rfl
    have hpop := Ready.pop hat (hp.plain_cons tag) n
    obtain ⟨p', hp', hloop⟩ := ih hpop hst (o.add (.elem tag [])) os
    rw [← Open.addAll_cons] at hloop
    exact ⟨p', hp', (treeLoop_of_start hnext).trans ((treeLoop_of_end hend).trans hloop)⟩
  | @elem d free tag s body ws t kids content hs hbody hws hrest ihbody ih =>
    simp only [List.append_assoc, List.cons_append] at hp
    obtain ⟨p₁, ⟨hp₁, helem⟩, hstart⟩ := next_of_event (Q := fun q => Ready q (⟨tag, []⟩ :: st)
      (body ++ (lit "</".toList ++ (tag.name ++ (ws ++ char '>' :: (t ++ char '<' :: rest))))) ∧
        q.elem = tag) hp fun r n hat =>
      ⟨_, ⟨Ready.idle (Reader.at_none (hat.rest_of_ne_nil hs.ne_nil)) (hp.plain_cons tag) n, rfl⟩,
        nextTurn_of_start hs (by omega) hat⟩
    obtain ⟨p₂, hp₂, hbodyLoop⟩ := ihbody hp₁ (by rw [List.length_cons]; omega) ⟨tag, []⟩ (o :: os)
    obtain ⟨p₃, hp₃, hend⟩ := next_of_event (Q := fun q => Ready q st (t ++ char '<' :: rest)) hp₂
      fun r n hat => ⟨_, Ready.pop (Reader.at_none
        (@Reader.At.rest r (lit "</".toList ++ (tag.name ++ ws)) _ (char '>')
          (by rwa [List.append_assoc, List.append_assoc])))
          (hp.plain_cons tag) n, nextTurn_of_end hs.name.1 hs.name.2.1 hws hat⟩
    obtain ⟨p', hp', hloop⟩ := ih hp₃ hst (o.add (.elem tag kids)) os
    rw [← Open.addAll_cons] at hloop
    refine ⟨p', hp', (treeLoop_of_start hstart).trans ?_⟩
    rw [helem]
    exact hbodyLoop.trans ((treeLoop_of_end hend).trans hloop)

/-! ### Documents -/

theorem parseElem_of_skip {p p' : XParser} (h : next p = next p') :
    parseElem p = parseElem p' := by
  rw [parseElem]
  rcases hnext : next p' with e | ⟨ev, q⟩
  · rw [bind_of_error (h.trans hnext), bind_of_error hnext]
  · rw [bind_of_ok (h.trans hnext), bind_of_ok hnext]

/-- An element that was found empty. -/
theorem parseElem_of_empty {p : XParser} {tag : Tag} {r : Reader} {n : ℕ}
    (h : next p = .ok (.elemStart, { idle r [⟨tag, []⟩] n with emptyElem := true })) :
    ∃ p', parseElem p = .ok (⟨tag, []⟩, p') := by
  refine ⟨{ idle r [⟨tag, []⟩] n with popStack := true }, ?_⟩
  rw [parseElem, bind_of_ok h]
  exact loop_of_done rfl

theorem parseElem_of_bodyText {d : ℕ} {free : Bool} {content : List XContent} {t : JString}
    (h : BodyText d free content t) {tag : Tag} {kids : List XContent}
    (hcontent : content = [.elem tag kids]) (hd : d ≤ 256) {p : XParser}
    (hp : Ready p [] t) : ∃ p', parseElem p = .ok (⟨tag, kids⟩, p') := by
  induction h generalizing p with
  | nil => cases hcontent
  | @blank d ws t content hne hws hrest ih =>
    obtain ⟨rfl, -⟩ | ⟨u, rfl⟩ := hrest.markup
    · cases hcontent
    · obtain ⟨p₁, hp₁, hnext⟩ := next_of_skip hp fun r n hat =>
        ⟨_, Reader.at_some (char '<') hat.rest, nextTurn_of_text (textOf_of_space hws) hne hat⟩
      rw [parseElem_of_skip hnext]
      exact ih hcontent hd hp₁
  | @comment d free c t content hc hrest ih =>
    obtain ⟨p₁, hp₁, hnext⟩ := next_of_skip hp fun r n hat =>
      ⟨_, Reader.at_none (hat.rest_of_three (by decide)), nextTurn_of_comment hc hat⟩
    rw [parseElem_of_skip hnext]
    exact ih hcontent hd hp₁
  | @pi d free c t content hc hrest ih =>
    obtain ⟨p₁, hp₁, hnext⟩ := next_of_skip hp fun r n hat =>
      ⟨_, Reader.at_none (hat.rest_of_three (by decide)), nextTurn_of_pi hc hat⟩
    rw [parseElem_of_skip hnext]
    exact ih hcontent hd hp₁
  | text => cases hcontent
  | cdata => cases hcontent
  | @empty d free tag' s t content hs hrest ih =>
    cases hcontent
    obtain ⟨p₁, ⟨r, n, rfl⟩, hnext⟩ := next_of_event (Q := fun q => ∃ r n,
      q = { Xml.idle r [⟨tag, []⟩] n with emptyElem := true }) hp fun r n hat =>
      ⟨_, ⟨_, _, rfl⟩, nextTurn_of_start hs (by decide) hat⟩
    exact parseElem_of_empty hnext
  | @elem d free tag' s body ws t kids' content hs hbody hws hrest ihbody ih =>
    cases hcontent
    obtain ⟨p₁, ⟨hp₁, helem⟩, hstart⟩ := next_of_event (Q := fun q => Ready q [⟨tag, []⟩]
      (body ++ (lit "</".toList ++ (tag.name ++ (ws ++ char '>' :: t)))) ∧ q.elem = tag) hp
      fun r n hat => ⟨_, ⟨Ready.idle (Reader.at_none (hat.rest_of_ne_nil hs.ne_nil))
        (hp.plain_cons tag) n, rfl⟩, nextTurn_of_start hs (by decide) hat⟩
    obtain ⟨p₂, hp₂, hbodyLoop⟩ := treeLoop_of_body hbody hp₁ (by
      rw [List.length_singleton]
      omega) ⟨tag, []⟩ []
    obtain ⟨p₃, -, hend⟩ := next_of_event (Q := fun _ => True) hp₂
      fun r n hat => ⟨_, trivial, nextTurn_of_end hs.name.1 hs.name.2.1 hws hat⟩
    refine ⟨p₃, ?_⟩
    rw [parseElem, bind_of_ok hstart]
    have hcurrent : parseCurrent p₁ = treeLoop (⟨tag, []⟩, []) p₁ := by rw [parseCurrent, helem]
    refine hcurrent.trans (hbodyLoop.trans (loop_of_done ?_))
    rw [treeTurn, hend]
    rfl

/-- **Every text that stands for an element is parsed to it**, as long as the elements are nested no
deeper than the stack of the parser. -/
theorem parse_of_bodyText {tag : Tag} {kids : List XContent} {t : JString}
    (h : BodyText 256 true [.elem tag kids] t) (hreturn : char '\r' ∉ t) :
    parse t = .ok ⟨tag, kids⟩ := by
  have hp : Ready (XParser.make t) [] t :=
    Ready.idle (Reader.at_none hreturn) (fun _ hf => absurd hf List.not_mem_nil) 0
  obtain ⟨p', hparse⟩ := parseElem_of_bodyText h rfl (Nat.le_refl _) hp
  rw [parse, hparse]

end Sedona.Xml
