import Sedona.Xml.XDocuments

/-!
# Writing XML

`XElem.write` and `XWriter.safe`: the text of a tree of elements, with indentation, and with the
characters escaped that have a meaning in XML or are not printable ASCII.

Not every tree survives. A text that is not the only content of its element gets the indentation
around it, a text of spaces is skipped, and a carriage return in a text is not escaped.

## Main results

* `charText_safe`: an escaped character stands for the character.
* `parse_write`: the text of a writable element is parsed to the element.
-/

open Numerals

namespace Sedona.Xml

/-! ### Characters -/

def hexChar (d : ℕ) : JChar :=
  if d < 10 then char '0' + BitVec.ofNat 16 d else char 'a' + BitVec.ofNat 16 (d - 10)

/-- `Integer.toHexString`. -/
def toHexString (n : ℕ) : JString :=
  if n < 16 then [hexChar n] else toHexString (n / 16) ++ [hexChar (n % 16)]

/-- `XWriter.safe`. -/
def safe (escapeWhitespace : Bool) (c : JChar) : JString :=
  if c < 0x20 ∨ 0x7e < c ∨ c = char '\'' ∨ c = char '"' then
    if !escapeWhitespace ∧ (c = char '\n' ∨ c = char '\r' ∨ c = char '\t') then [c]
    else lit "&#x".toList ++ toHexString c.toNat ++ [char ';']
  else if c = char '<' then lit "&lt;".toList
  else if c = char '>' then lit "&gt;".toList
  else if c = char '&' then lit "&amp;".toList
  else [c]

theorem digit_hexChar : ∀ d < 16, digit 16 (hexChar d) = some d := by decide

theorem numeral_toHexString (n : ℕ) : numeral 16 (digit 16) (toHexString n) = some n := by
  fun_induction toHexString n with
  | case1 n hlt =>
    rw [numeral, List.foldlM_cons, digit_hexChar n hlt]
    exact congrArg some (Nat.zero_add n)
  | case2 n hge ih =>
    rw [numeral_append_singleton, ih, Option.bind_some, digit_hexChar _ (Nat.mod_lt n (by decide))]
    exact congrArg some (Nat.div_add_mod' n 16)

theorem charText_hex (c : JChar) :
    CharText c (char '&' :: char '#' :: char 'x' :: (toHexString c.toNat ++ [char ';'])) := by
  have h := CharText.hex (numeral_toHexString c.toNat)
  rwa [BitVec.ofNat_toNat, BitVec.setWidth_eq] at h

/-- An escaped character starts with itself, where it is not escaped, or with an ampersand. -/
theorem charText_safe (escapeWhitespace : Bool) (c : JChar) :
    ∃ d t, safe escapeWhitespace c = d :: t ∧ CharText c (d :: t) ∧ d ≠ char '<' ∧
      d ≠ char '"' ∧ (escapeWhitespace = false → isSpace d = isSpace c) := by
  have hamp' : char '&' ≠ char '<' := by decide
  have hamp'' : char '&' ≠ char '"' := by decide
  rw [safe]
  split_ifs with h hws hlt hgt hamp
  · have hc : c ≠ char '<' ∧ c ≠ char '&' ∧ c ≠ char '"' := by
      obtain ⟨-, rfl | rfl | rfl⟩ := hws
      · decide
      · decide
      · decide
    exact ⟨c, [], rfl, .plain hc.1 hc.2.1, hc.1, hc.2.2, fun _ => rfl⟩
  · refine ⟨_, _, rfl, charText_hex c, hamp', hamp'', ?_⟩
    rintro rfl
    have hspace : c ≠ char ' ' := by
      rintro rfl
      revert h
      decide
    have hws' : c ≠ char '\n' ∧ c ≠ char '\r' ∧ c ≠ char '\t' := by
      simpa using hws
    have hc : isSpace c = false := by
      rw [isSpace, beq_eq_false_iff_ne.mpr hspace, beq_eq_false_iff_ne.mpr hws'.1,
        beq_eq_false_iff_ne.mpr hws'.2.1, beq_eq_false_iff_ne.mpr hws'.2.2]
      rfl
    exact hc.symm
  · subst hlt
    exact ⟨_, _, rfl, .entity (lit "lt".toList) (by decide), hamp', hamp'', fun _ => rfl⟩
  · subst hgt
    exact ⟨_, _, rfl, .entity (lit "gt".toList) (by decide), hamp', hamp'', fun _ => rfl⟩
  · subst hamp
    exact ⟨_, _, rfl, .entity (lit "amp".toList) (by decide), hamp', hamp'', fun _ => rfl⟩
  · simp only [not_or] at h
    exact ⟨c, [], rfl, .plain hlt hamp, hlt, h.2.2.2, fun _ => rfl⟩

/-- Text as it is written, with the characters escaped. -/
def safeText (escapeWhitespace : Bool) (v : JString) : JString := v.flatMap (safe escapeWhitespace)

theorem textOf_safeText (escapeWhitespace : Bool) (stop : JChar)
    (hstop : stop = char '<' ∨ stop = char '"') (v : JString) :
    ∃ got, TextOf stop got v (safeText escapeWhitespace v) ∧
      (escapeWhitespace = false → got = v.any (!isSpace ·)) := by
  induction v with
  | nil => exact ⟨false, .nil, fun _ => rfl⟩
  | cons c v ih =>
    obtain ⟨got, hrest, hgot⟩ := ih
    obtain ⟨d, t, hsafe, hc, hlt, hquote, hspace⟩ := charText_safe escapeWhitespace c
    have hd : d ≠ stop := by
      obtain rfl | rfl := hstop
      · exact hlt
      · exact hquote
    refine ⟨!isSpace d || got, ?_, fun hesc => ?_⟩
    · rw [safeText, List.flatMap_cons, hsafe]
      exact .cons hc hd hrest
    · rw [hgot hesc, hspace hesc, List.any_cons]

/-! ### Elements -/

/-- `XWriter.getSpaces`. -/
def spaces (indent : ℕ) : JString := List.replicate indent (char ' ')

def XAttr.write (attr : XAttr) : JString :=
  let nsPrefix := match attr.ns with
    | none => []
    | some ns => ns.nsPrefix ++ [char ':']
  char ' ' :: (nsPrefix ++ (attr.name ++ (char '=' :: char '"' :: (safeText true attr.value ++
    [char '"']))))

/-- `XText.write`. -/
def writeText (string : JString) (cdata : Bool) : JString :=
  if cdata then lit "<![CDATA[".toList ++ (string ++ lit "]]>".toList) else safeText false string

/-- The start tag, without its end. -/
def Tag.write (tag : Tag) : JString := char '<' :: (tag.qname ++ tag.attrs.flatMap XAttr.write)

/-- The end tag. -/
def Tag.writeEnd (tag : Tag) : JString := lit "</".toList ++ (tag.qname ++ lit ">\n".toList)

mutual

/-- `XElem.write` and `XText.write`. -/
def XContent.write (indent : ℕ) : XContent → JString
  | .text string cdata => writeText string cdata
  | .elem tag content => spaces indent ++ (tag.write ++ match content with
    | [] => lit "/>\n".toList
    | [.text string cdata] => char '>' :: (writeText string cdata ++ tag.writeEnd)
    | content => lit ">\n".toList ++ (writeAll (indent + 1) content ++
        (spaces indent ++ tag.writeEnd)))

def writeAll (indent : ℕ) : List XContent → JString
  | [] => []
  | c :: content => c.write indent ++ writeAll indent content

end

/-- `XElem.write` without indentation. -/
def XElem.write (e : XElem) : JString := (XContent.elem e.tag e.content).write 0

/-! ### Trees that survive -/

/-- A tag outside of namespaces that declares none. -/
structure PlainTag (tag : Tag) : Prop where
  ns : tag.ns = none
  name : Name tag.name
  attrs : ∀ attr ∈ tag.attrs, attr.ns = none ∧ Name attr.name ∧ attr.name ≠ lit "xmlns".toList

/-- Trees with at most `d` levels of elements. A text is the only content of its element, is not
only spaces and has no carriage return. -/
inductive Writable : ℕ → XContent → Prop
  | cdata {d : ℕ} {v : JString} (hv : CDataText v) (hreturn : char '\r' ∉ v) :
    Writable d (.text v true)
  | text {d : ℕ} {tag : Tag} {v : JString} (htag : PlainTag tag) (hreturn : char '\r' ∉ v)
    (hv : v.any (!isSpace ·) = true) : Writable (d + 1) (.elem tag [.text v false])
  | elem {d : ℕ} {tag : Tag} {kids : List XContent} (htag : PlainTag tag)
    (hkids : ∀ c ∈ kids, Writable d c) : Writable (d + 1) (.elem tag kids)

theorem PlainTag.qname {tag : Tag} (h : PlainTag tag) : tag.qname = tag.name := by
  rw [Tag.qname, h.ns]

theorem space_nil : Space [] := fun _ h => absurd h List.not_mem_nil

theorem space_newline : Space [char '\n'] := fun c hc => by
  rw [List.mem_singleton.mp hc]
  rfl

theorem space_spaces (indent : ℕ) : Space (spaces indent) := by
  intro c hc
  rw [List.eq_of_mem_replicate hc]
  rfl

theorem attrText_write {attr : XAttr} (hns : attr.ns = none) (hname : Name attr.name)
    (hxmlns : attr.name ≠ lit "xmlns".toList) : AttrText attr attr.write := by
  obtain ⟨ns, name, value⟩ := attr
  obtain rfl : ns = none := hns
  obtain ⟨got, hvalue, -⟩ := textOf_safeText true (char '"') (.inr rfl) value
  exact @AttrText.mk [char ' '] name [] [] value _ (char '"') got (by decide) (space_spaces 1)
    hname hxmlns space_nil space_nil (.inl rfl) hvalue

theorem attrsText_write {attrs : List XAttr}
    (h : ∀ attr ∈ attrs, attr.ns = none ∧ Name attr.name ∧ attr.name ≠ lit "xmlns".toList) :
    AttrsText attrs (attrs.flatMap XAttr.write) := by
  induction attrs with
  | nil => exact .nil
  | cons attr attrs ih =>
    obtain ⟨hns, hname, hxmlns⟩ := h attr (List.mem_cons_self ..)
    rw [List.flatMap_cons]
    exact .cons (attrText_write hns hname hxmlns) (ih fun a ha => h a (List.mem_cons_of_mem _ ha))

theorem startText_write {tag : Tag} (h : PlainTag tag) (empty : Bool) :
    StartText empty tag (tag.write ++ close empty) := by
  have hname := h.name
  have hattrs := attrsText_write h.attrs
  obtain ⟨ns, name, attrs⟩ := tag
  obtain rfl : ns = none := h.ns
  have hstart : StartText empty ⟨none, name, attrs⟩ _ := .mk hname hattrs space_nil
  rw [List.nil_append] at hstart
  rw [Tag.write, List.cons_append, List.append_assoc]
  exact hstart

/-- A text stands at the front. -/
def startsWithText : List XContent → Bool
  | .text _ false :: _ => true
  | _ => false

/-- Spaces in front of what does not start with a text. -/
theorem BodyText.space_append {d : ℕ} {content : List XContent} {t ws : JString}
    (h : BodyText d true content t) (htext : startsWithText content = false) (hws : Space ws) :
    BodyText d true content (ws ++ t) := by
  rcases eq_or_ne ws [] with rfl | hne
  · exact h
  · cases h with
    | nil => exact .blank hne hws .nil
    | @blank _ ws' t _ hne' hws' hrest =>
      rw [← List.append_assoc]
      refine .blank (List.append_ne_nil_of_left_ne_nil hne _) (fun c hc => ?_) hrest
      exact (List.mem_append.mp hc).elim (hws c) (hws' c)
    | comment hc hrest => exact .blank hne hws (.comment hc hrest)
    | pi hc hrest => exact .blank hne hws (.pi hc hrest)
    | text hv hrest => cases htext
    | cdata hv hrest => exact .blank hne hws (.cdata hv hrest)
    | empty hs hrest => exact .blank hne hws (.empty hs hrest)
    | elem hs hbody hws' hrest => exact .blank hne hws (.elem hs hbody hws' hrest)

/-- An element with content. -/
theorem bodyText_elem {d : ℕ} {tag : Tag} {kids content : List XContent} {body t : JString}
    (htag : PlainTag tag) (hbody : BodyText d true kids body) (h : BodyText (d + 1) true content t)
    (htext : startsWithText content = false) (indent : ℕ) :
    BodyText (d + 1) true (.elem tag kids :: content)
      (spaces indent ++ (tag.write ++ char '>' :: (body ++ tag.writeEnd)) ++ t) := by
  have hrest := h.space_append htext space_newline
  have helem : BodyText (d + 1) true (.elem tag kids :: content) _ :=
    .elem (startText_write htag false) hbody space_nil hrest
  have hspace := helem.space_append rfl (space_spaces indent)
  rw [Tag.writeEnd, htag.qname]
  simp only [List.append_assoc, List.cons_append, List.nil_append] at hspace ⊢
  exact hspace

/-- An element without content. -/
theorem bodyText_empty {d : ℕ} {tag : Tag} {content : List XContent} {t : JString}
    (htag : PlainTag tag) (h : BodyText (d + 1) true content t)
    (htext : startsWithText content = false) (indent : ℕ) :
    BodyText (d + 1) true (.elem tag [] :: content)
      (spaces indent ++ (tag.write ++ lit "/>\n".toList) ++ t) := by
  have hrest := h.space_append htext space_newline
  have helem : BodyText (d + 1) true (.elem tag [] :: content) _ :=
    .empty (startText_write htag true) hrest
  have hspace := helem.space_append rfl (space_spaces indent)
  simp only [List.append_assoc, List.cons_append, List.nil_append] at hspace ⊢
  exact hspace

theorem Writable.not_text {d : ℕ} {c : XContent} (h : Writable d c) (content : List XContent) :
    startsWithText (c :: content) = false := by
  cases h with
  | cdata => rfl
  | text => rfl
  | elem => rfl

theorem bodyText_writeAll {d : ℕ} {kids : List XContent} (hkids : ∀ c ∈ kids, Writable d c)
    (hwrite : ∀ c ∈ kids, ∀ content t indent, BodyText d true content t →
      startsWithText content = false → BodyText d true (c :: content) (c.write indent ++ t))
    {t : JString} (h : BodyText d true [] t) (indent : ℕ) :
    BodyText d true kids (writeAll indent kids ++ t) := by
  induction kids with
  | nil => exact h
  | cons c kids ih =>
    have hrest := ih (fun k hk => hkids k (List.mem_cons_of_mem _ hk))
      (fun k hk => hwrite k (List.mem_cons_of_mem _ hk))
    have htext : startsWithText kids = false := by
      cases kids with
      | nil => rfl
      | cons k kids => exact (hkids k (by simp)).not_text kids
    rw [writeAll, List.append_assoc]
    exact hwrite c (List.mem_cons_self ..) kids _ indent hrest htext

/-- The ways to write an element. -/
theorem write_elem (tag : Tag) (kids : List XContent) (indent : ℕ) :
    (kids = [] ∧ (XContent.elem tag kids).write indent =
      spaces indent ++ (tag.write ++ lit "/>\n".toList)) ∨
    (∃ v cdata, kids = [.text v cdata] ∧ (XContent.elem tag kids).write indent =
      spaces indent ++ (tag.write ++ char '>' :: (writeText v cdata ++ tag.writeEnd))) ∨
    (XContent.elem tag kids).write indent = spaces indent ++ (tag.write ++ (lit ">\n".toList ++
      (writeAll (indent + 1) kids ++ (spaces indent ++ tag.writeEnd)))) := by
  rcases kids with _ | ⟨_ | ⟨v, cdata⟩, _ | ⟨k, kids⟩⟩
  · exact .inl ⟨rfl, rfl⟩
  · exact .inr (.inr rfl)
  · exact .inr (.inr rfl)
  · exact .inr (.inl ⟨v, cdata, rfl, rfl⟩)
  · exact .inr (.inr rfl)

/-- What is written of a writable tree stands for it. -/
theorem bodyText_write {d : ℕ} {c : XContent} (hc : Writable d c) {content : List XContent}
    {t : JString} (indent : ℕ) (h : BodyText d true content t)
    (htext : startsWithText content = false) :
    BodyText d true (c :: content) (c.write indent ++ t) := by
  induction hc generalizing content t indent with
  | cdata hv =>
    have hcdata : BodyText _ true _ _ := .cdata hv h
    rw [XContent.write, writeText, if_pos rfl]
    simp only [List.append_assoc]
    exact hcdata
  | @text d tag v htag hreturn hv =>
    obtain ⟨got, hsafe, hgot⟩ := textOf_safeText false (char '<') (.inl rfl) v
    rw [hgot rfl, hv] at hsafe
    have hbody : BodyText d true [.text v false] _ := .text hsafe .nil
    rw [List.append_nil] at hbody
    exact bodyText_elem htag hbody h htext indent
  | @elem d tag kids htag hkids ih =>
    have hall := bodyText_writeAll hkids (fun c hc content t indent h htext =>
      ih c hc indent h htext) (BodyText.nil.space_append rfl (space_spaces indent)) (indent + 1)
    rcases write_elem tag kids indent with ⟨rfl, hwrite⟩ | ⟨v, cdata, rfl, hwrite⟩ | hwrite
    · rw [hwrite]
      exact bodyText_empty htag h htext indent
    · rw [hwrite]
      cases hkids _ (List.mem_singleton_self _) with
      | cdata hv =>
        have hbody : BodyText d true [.text v true] _ := .cdata hv .nil
        rw [List.append_nil] at hbody
        exact bodyText_elem htag hbody h htext indent
    · have htext' : startsWithText kids = false := by
        cases kids with
        | nil => rfl
        | cons k kids => exact (hkids k (List.mem_cons_self ..)).not_text kids
      have hbody := hall.space_append htext' space_newline
      have helem := bodyText_elem htag hbody h htext indent
      rw [hwrite]
      simp only [List.append_assoc, List.cons_append, List.nil_append] at helem ⊢
      exact helem

/-! ### No carriage return is written -/

theorem hexChar_ne_return : ∀ d < 16, char '\r' ≠ hexChar d := by decide

theorem noReturn_toHexString (n : ℕ) : char '\r' ∉ toHexString n := by
  fun_induction toHexString n with
  | case1 n hlt =>
    rw [List.mem_singleton]
    exact hexChar_ne_return n hlt
  | case2 n hge ih =>
    rw [List.mem_append, List.mem_singleton, not_or]
    exact ⟨ih, hexChar_ne_return _ (Nat.mod_lt n (by decide))⟩

theorem noReturn_safe {escapeWhitespace : Bool} {c : JChar}
    (h : escapeWhitespace = true ∨ c ≠ char '\r') : char '\r' ∉ safe escapeWhitespace c := by
  rw [safe]
  split_ifs with hesc hws hlt hgt hamp
  · rw [List.mem_singleton]
    rintro rfl
    obtain rfl | hne := h
    · cases hws.1
    · exact hne rfl
  · simp only [List.mem_append, not_or]
    exact ⟨⟨by decide, noReturn_toHexString _⟩, by decide⟩
  · decide
  · decide
  · decide
  · rw [List.mem_singleton]
    rintro rfl
    exact hesc (.inl (by decide))

theorem noReturn_safeText (escapeWhitespace : Bool) {v : JString}
    (h : escapeWhitespace = true ∨ char '\r' ∉ v) : char '\r' ∉ safeText escapeWhitespace v := by
  intro hmem
  obtain ⟨c, hc, hsafe⟩ := List.mem_flatMap.mp hmem
  refine noReturn_safe (h.imp_right fun hv => ?_) hsafe
  rintro rfl
  exact hv hc

theorem Name.noReturn {name : JString} (h : Name name) : char '\r' ∉ name := fun hmem => by
  cases h.isName _ hmem

theorem PlainTag.noReturn {tag : Tag} (h : PlainTag tag) :
    char '\r' ∉ tag.write ∧ char '\r' ∉ tag.writeEnd := by
  rw [Tag.write, Tag.writeEnd, h.qname]
  simp only [List.mem_cons, List.mem_append, not_or]
  refine ⟨⟨by decide, h.name.noReturn, fun hmem => ?_⟩, by decide, h.name.noReturn, by decide⟩
  obtain ⟨⟨ns, name, value⟩, hattr, hwrite⟩ := List.mem_flatMap.mp hmem
  obtain ⟨hns, hname, -⟩ := h.attrs _ hattr
  obtain rfl : ns = none := hns
  revert hwrite
  simp only [XAttr.write, List.mem_cons, List.mem_append, List.not_mem_nil, or_false, not_or,
    false_or, imp_false]
  exact ⟨by decide, hname.noReturn, by decide, by decide, noReturn_safeText true (.inl rfl),
    by decide⟩

theorem noReturn_spaces (indent : ℕ) : char '\r' ∉ spaces indent := fun hmem => by
  cases List.eq_of_mem_replicate hmem

theorem noReturn_writeAll {kids : List XContent} (indent : ℕ)
    (h : ∀ c ∈ kids, ∀ indent, char '\r' ∉ c.write indent) :
    char '\r' ∉ writeAll indent kids := by
  induction kids with
  | nil => exact List.not_mem_nil
  | cons c kids ih =>
    rw [writeAll, List.mem_append, not_or]
    exact ⟨h c (List.mem_cons_self ..) indent, ih fun k hk => h k (List.mem_cons_of_mem _ hk)⟩

theorem noReturn_write {d : ℕ} {c : XContent} (hc : Writable d c) (indent : ℕ) :
    char '\r' ∉ c.write indent := by
  induction hc generalizing indent with
  | cdata hv hreturn =>
    rw [XContent.write, writeText, if_pos rfl, List.mem_append, List.mem_append, not_or, not_or]
    exact ⟨by decide, hreturn, by decide⟩
  | @text d tag v htag hreturn hv =>
    obtain ⟨hstart, hend⟩ := htag.noReturn
    have hsafe := noReturn_safeText false (.inr hreturn)
    rw [XContent.write]
    simp only [List.mem_append, List.mem_cons, not_or]
    exact ⟨noReturn_spaces indent, hstart, by decide, hsafe, hend⟩
  | @elem d tag kids htag hkids ih =>
    obtain ⟨hstart, hend⟩ := htag.noReturn
    have hall := noReturn_writeAll (indent + 1) ih
    rcases write_elem tag kids indent with ⟨-, hwrite⟩ | ⟨v, cdata, rfl, hwrite⟩ | hwrite
    · rw [hwrite, List.mem_append, List.mem_append, not_or, not_or]
      exact ⟨noReturn_spaces indent, hstart, by decide⟩
    · have hv := ih _ (List.mem_singleton_self _) 0
      rw [hwrite]
      simp only [List.mem_append, List.mem_cons, not_or]
      exact ⟨noReturn_spaces indent, hstart, by decide, hv, hend⟩
    · rw [hwrite]
      simp only [List.mem_append, not_or]
      exact ⟨noReturn_spaces indent, hstart, by decide, hall, noReturn_spaces indent, hend⟩

/-- An element with an attribute that needs escapes, an element with a text of two lines and a CDATA
section in it. -/
def sample : XElem where
  tag := ⟨none, [char 'a'], [⟨none, [char 'b'], [char '<', char '\n', char '"']⟩]⟩
  content := [.elem ⟨none, [char 'c'], []⟩ [.text [char '&', char '\n'] false],
    .text [char ']', char ']'] true]

theorem name_singleton {c : JChar} (h : isName c = true) : Name [c] where
  ne_nil := List.cons_ne_nil _ _
  isName d hd := by rwa [List.mem_singleton.mp hd]

theorem writable_sample (d : ℕ) : Writable (d + 2) (.elem sample.tag sample.content) := by
  refine .elem ⟨rfl, name_singleton rfl, fun attr hattr => ?_⟩ fun c hc => ?_
  · rw [List.mem_singleton.mp hattr]
    exact ⟨rfl, name_singleton rfl, by decide⟩
  · obtain rfl | hc := List.mem_cons.mp hc
    · exact .text ⟨rfl, name_singleton rfl, fun _ h => absurd h List.not_mem_nil⟩ (by decide)
        (by decide)
    · rw [List.mem_singleton.mp hc]
      exact .cdata (fun h => absurd (h.subset (by decide : char '>' ∈ _)) (by decide)) (by decide)

end Sedona.Xml
