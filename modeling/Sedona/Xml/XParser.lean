import Sedona.Xml.XReader

/-!
# The XML Parser

`sedona.xml.XParser` as a pull parser, with its stack of open elements and the namespaces that they
declare, and `XParser.parse`, which builds the tree of an element from what the pull parser finds.

Objects of `XNs` are compared as references, so each one has a number of its own.

## Main results

* `weight_of_next`: every call of `next` before the end uses something up.
-/

open Loops

namespace Sedona.Xml

/-! ### Elements -/

/-- `XNs`, with the number of the object. -/
structure XNs where
  nsPrefix : JString
  uri : JString
  object : ℕ
  deriving DecidableEq

/-- An attribute of an element. -/
structure XAttr where
  ns : Option XNs
  name : JString
  value : JString
  deriving DecidableEq

/-- An element without its content. -/
structure Tag where
  ns : Option XNs
  name : JString
  attrs : List XAttr
  deriving DecidableEq

/-- `XContent`: an `XElem` or an `XText`. -/
inductive XContent
  | elem (tag : Tag) (content : List XContent)
  | text (string : JString) (cdata : Bool)

/-- `XElem`. -/
structure XElem where
  tag : Tag
  content : List XContent

/-- `XElem.qname`. -/
def Tag.qname (tag : Tag) : JString :=
  match tag.ns with
  | none => tag.name
  | some ns => if ns.nsPrefix = [] then tag.name else ns.nsPrefix ++ char ':' :: tag.name

/-! ### The state of the parser -/

/-- A level of `stack` and `nsStack`. -/
structure Frame where
  tag : Tag
  ns : List XNs

/-- `XParser`. The stack starts with the innermost element. -/
structure XParser where
  reader : Reader
  stack : List Frame
  defaultNs : Option XNs
  /-- The number of the next `XNs`. -/
  nextNs : ℕ
  popStack : Bool
  emptyElem : Bool

abbrev Pull := Prog XParser XError

/-- What `next` finds. -/
inductive Event
  | eof
  | elemStart
  | elemEnd
  | text (string : JString) (cdata : Bool)
  deriving DecidableEq

/-- A step of the reader. -/
def scan {α : Type} (m : Read α) : Pull α := fun p =>
  match m p.reader with
  | .error e => .error e
  | .ok (a, r) => .ok (a, { p with reader := r })

/-- The declared namespaces, the innermost first. -/
def XParser.declared (p : XParser) : List XNs := p.stack.flatMap Frame.ns

/-- `XParser.prefixToNs`. -/
def prefixToNs (nsPrefix : JString) : Pull XNs := fun p =>
  match p.declared.find? (·.nsPrefix = nsPrefix) with
  | some ns => .ok (ns, p)
  | none => .error (.xException
      (lit "Undeclared namespace prefix '".toList ++ nsPrefix ++ lit "'".toList))

/-- `XParser.pushNs`. -/
def pushNs (nsPrefix value : JString) : Pull Unit := fun p =>
  let ns : XNs := ⟨nsPrefix, value, p.nextNs⟩
  let defaultNs :=
    if nsPrefix = [] then if value = [] then none else some ns
    else p.defaultNs
  let stack := match p.stack with
    | [] => []
    | frame :: stack => { frame with ns := frame.ns ++ [ns] } :: stack
  .ok ((), { p with stack, defaultNs, nextNs := p.nextNs + 1 })

/-- `XParser.reEvalDefaultNs`. -/
def XParser.reEvalDefaultNs (p : XParser) : XParser :=
  let defaultNs := match p.declared.find? (·.nsPrefix = []) with
    | some ns => if ns.uri = [] then none else some ns
    | none => none
  { p with defaultNs }

/-- `XParser.pop`. -/
def XParser.pop (p : XParser) : XParser :=
  match p.stack with
  | [] => p
  | frame :: stack =>
    let p := { p with stack }
    if frame.ns = [] then p else p.reEvalDefaultNs

/-- `XParser.push`. -/
def push : Pull Unit := fun p =>
  if p.stack.length < 256 then .ok ((), { p with stack := ⟨⟨none, [], []⟩, []⟩ :: p.stack })
  else .error .arrayIndexOutOfBounds

/-! ### Tags -/

/-- An attribute before its namespace is resolved. -/
structure RawAttr where
  nsPrefix : Option JString
  name : JString
  value : JString

/-- The chars without upper case, as far as ASCII goes. -/
def lower (s : JString) : JString :=
  s.map fun c => if char 'A' ≤ c && c ≤ char 'Z' then c + 32 else c

/-- `XParser.parseAttr`. -/
def parseAttr (c : JChar) : Pull RawAttr := do
  let (nsPrefix, name) ← scan (parseQName c)
  scan (skipSpace >>= fun _ => pure ())
  let c ← scan read
  if c ≠ char '=' then throw (error "Expecting '='")
  scan (skipSpace >>= fun _ => pure ())
  let c ← scan read
  if c ≠ char '"' ∧ c ≠ char '\'' then throw (error "Expecting quoted attribute value")
  let value ← scan (parseString c)
  match nsPrefix with
  | none =>
    if name = lit "xmlns".toList then pushNs [] value
    return ⟨none, name, value⟩
  | some nsPrefix =>
    if nsPrefix = lit "xmlns".toList then
      pushNs name value
      return ⟨none, lit "xmlns:".toList ++ name, value⟩
    if lower nsPrefix = lit "xml".toList then return ⟨none, lit "xml:".toList ++ name, value⟩
    return ⟨some nsPrefix, name, value⟩

/-- The loop over the attributes: the attributes, and whether the element is empty. -/
def attrTurn (attrs : List RawAttr) : Pull (List RawAttr ⊕ List RawAttr × Bool) := do
  let sp ← scan skipSpace
  let c ← scan read
  if c = char '>' then return .inr (attrs, false)
  if c = char '/' then
    let c ← scan read
    if c ≠ char '>' then throw (error "Expecting /> empty element")
    return .inr (attrs, true)
  if !sp then throw (error "Expecting space before attribute")
  let attr ← parseAttr c
  return .inl (attrs ++ [attr])

/-- `prefixToNs`, where there may be no prefix. -/
def resolve (nsPrefix : Option JString) (noPrefix : Option XNs) : Pull (Option XNs) :=
  match nsPrefix with
  | none => pure noPrefix
  | some nsPrefix => do
    let ns ← prefixToNs nsPrefix
    return some ns

/-- The namespace of an element. -/
def resolveElem (nsPrefix : Option JString) : Pull (Option XNs) := fun p =>
  resolve nsPrefix p.defaultNs p

def resolveAttrs : List RawAttr → Pull (List XAttr)
  | [] => pure []
  | attr :: attrs => do
    let ns ← resolve attr.nsPrefix none
    let rest ← resolveAttrs attrs
    return ⟨ns, attr.name, attr.value⟩ :: rest

/-! ### Nothing is put back that was not read -/

def size (p : XParser) : ℕ := p.reader.size

/-- As for programs on the reader. -/
def PullKeeps {α : Type} (m : Pull α) : Prop := ∀ p a p', m p = .ok (a, p') → size p' ≤ size p

section Sizes

variable {α β : Type} {m m₁ m₂ : Pull α} {f : α → Pull β}

theorem scan_eq_ok {m : Read α} {p p' : XParser} {a : α} (h : scan m p = .ok (a, p')) :
    ∃ r, m p.reader = .ok (a, r) ∧ p' = { p with reader := r } := by
  rw [scan] at h
  split at h
  · cases h
  · next b r hr =>
    cases h
    exact ⟨r, hr, rfl⟩

theorem PullKeeps.scan {m : Read α} (h : Keeps m) : PullKeeps (scan m) := by
  intro p a p' hm
  obtain ⟨r, hr, rfl⟩ := scan_eq_ok hm
  exact h _ _ _ hr

theorem PullKeeps.pure (a : α) : PullKeeps (pure a : Pull α) := by
  intro p a' p' h
  cases h
  exact Nat.le_refl _

theorem PullKeeps.throw (e : XError) : PullKeeps (throw e : Pull α) := by
  intro p a p' h
  cases h

theorem PullKeeps.bind (hm : PullKeeps m) (hf : ∀ a, PullKeeps (f a)) : PullKeeps (m >>= f) := by
  intro p b p' h
  obtain ⟨a, s, ha, hb⟩ := bind_eq_ok.mp h
  exact (hf a s b p' hb).trans (hm p a s ha)

theorem PullKeeps.ite {c : Prop} [Decidable c] (h₁ : PullKeeps m₁) (h₂ : PullKeeps m₂) :
    PullKeeps (if c then m₁ else m₂) := by
  split
  · exact h₁
  · exact h₂

theorem PullKeeps.loop {body : β → Pull (β ⊕ α)} {h : Descends size body}
    (hbody : ∀ b, PullKeeps (body b)) (b : β) : PullKeeps (loop size body h b) := by
  intro p a p' hloop
  refine loop_ind (P := fun s => size s ≤ size p) (Q := fun _ s => size s ≤ size p) ?_
    (Nat.le_refl _) hloop
  intro b s x s' hs hx
  have hle : size s' ≤ size p := (hbody b s x s' hx).trans hs
  cases x with
  | inl b' => exact hle
  | inr a => exact hle

end Sizes

theorem keeps_pushNs (nsPrefix value : JString) : PullKeeps (pushNs nsPrefix value) := by
  intro p u p' h
  cases h
  exact Nat.le_refl _

theorem keeps_prefixToNs (nsPrefix : JString) : PullKeeps (prefixToNs nsPrefix) := by
  intro p ns p' h
  rw [prefixToNs] at h
  split at h
  · cases h
    exact Nat.le_refl _
  · cases h

theorem keeps_push : PullKeeps push := by
  intro p u p' h
  rw [push] at h
  split at h
  · cases h
    exact Nat.le_refl _
  · cases h

theorem keeps_skip : PullKeeps (scan (skipSpace >>= fun _ => pure ())) :=
  PullKeeps.scan (keeps_skipSpace.bind fun _ => Keeps.pure _)

theorem keeps_parseString (quote : JChar) : Keeps (parseString quote) :=
  keeps_loop (keeps_stringTurn quote) []

theorem keeps_parseAttr (c : JChar) : PullKeeps (parseAttr c) := by
  refine (PullKeeps.scan (keeps_parseQName c)).bind fun q => keeps_skip.bind fun _ =>
    (PullKeeps.scan keeps_read).bind fun c => (PullKeeps.throw _).ite
      (keeps_skip.bind fun _ => (PullKeeps.scan keeps_read).bind fun c =>
        (PullKeeps.throw _).ite ((PullKeeps.scan (keeps_parseString c)).bind fun value => ?_))
  obtain ⟨_ | nsPrefix, name⟩ := q
  · exact PullKeeps.ite ((keeps_pushNs _ _).bind fun _ => PullKeeps.pure _) (PullKeeps.pure _)
  · exact PullKeeps.ite ((keeps_pushNs _ _).bind fun _ => PullKeeps.pure _)
      (PullKeeps.ite (PullKeeps.pure _) (PullKeeps.pure _))

theorem keeps_resolve (nsPrefix : Option JString) (noPrefix : Option XNs) :
    PullKeeps (resolve nsPrefix noPrefix) := by
  cases nsPrefix with
  | none => exact PullKeeps.pure _
  | some nsPrefix => exact (keeps_prefixToNs nsPrefix).bind fun _ => PullKeeps.pure _

theorem keeps_resolveElem (nsPrefix : Option JString) : PullKeeps (resolveElem nsPrefix) :=
  fun p => keeps_resolve nsPrefix p.defaultNs p

theorem keeps_resolveAttrs (attrs : List RawAttr) : PullKeeps (resolveAttrs attrs) := by
  induction attrs with
  | nil => exact PullKeeps.pure _
  | cons attr attrs ih =>
    exact (keeps_resolve _ _).bind fun _ => ih.bind fun _ => PullKeeps.pure _

theorem keeps_attrTurn (attrs : List RawAttr) : PullKeeps (attrTurn attrs) :=
  (PullKeeps.scan keeps_skipSpace).bind fun _ => (PullKeeps.scan keeps_read).bind fun c =>
    (PullKeeps.pure _).ite (PullKeeps.ite ((PullKeeps.scan keeps_read).bind fun _ =>
      (PullKeeps.throw _).ite (PullKeeps.pure _)) ((PullKeeps.throw _).ite
        ((keeps_parseAttr c).bind fun _ => PullKeeps.pure _)))

theorem size_of_scan_read {p p' : XParser} {c : JChar} (h : scan read p = .ok (c, p')) :
    size p' < size p := by
  obtain ⟨r, hr, rfl⟩ := scan_eq_ok h
  exact size_of_read hr

theorem descends_attrTurn : Descends size attrTurn := by
  intro attrs p attrs' p' h
  obtain ⟨sp, s, hsp, h⟩ := bind_eq_ok.mp h
  obtain ⟨c, u, hc, h⟩ := bind_eq_ok.mp h
  have hlt : size u < size p :=
    Nat.lt_of_lt_of_le (size_of_scan_read hc) (PullKeeps.scan keeps_skipSpace p sp s hsp)
  refine Nat.lt_of_le_of_lt ?_ hlt
  refine ((PullKeeps.pure _).ite (PullKeeps.ite ((PullKeeps.scan keeps_read).bind fun _ =>
      (PullKeeps.throw _).ite (PullKeeps.pure _)) ((PullKeeps.throw _).ite
        ((keeps_parseAttr c).bind fun _ => PullKeeps.pure _)))) u _ p' h

/-! ### Events -/

/-- Assignments to the open element. -/
def setTag (tag : Tag) (emptyElem : Bool) : Pull Unit := fun p =>
  let stack := match p.stack with
    | [] => []
    | frame :: stack => { frame with tag } :: stack
  .ok ((), { p with stack, emptyElem })

/-- `XParser.parseElemStart`. -/
def parseElemStart (c : JChar) : Pull Unit := do
  push
  let (nsPrefix, name) ← scan (parseQName c)
  let (attrs, emptyElem) ← loop size attrTurn descends_attrTurn []
  let ns ← resolveElem nsPrefix
  let attrs ← resolveAttrs attrs
  setTag ⟨ns, name, attrs⟩ emptyElem

/-- The check in `parseElemEnd`. -/
def checkEnd (ns : Option XNs) (name : JString) : Pull Unit := fun p =>
  match p.stack with
  | [] => .error (error "Element end without start")
  | frame :: _ =>
    if frame.tag.name ≠ name ∨ frame.tag.ns ≠ ns then
      .error (.xException
        (lit "Expecting end of element '".toList ++ frame.tag.qname ++ lit "'".toList))
    else .ok ((), p)

/-- `XParser.parseElemEnd`. -/
def parseElemEnd : Pull Unit := do
  let c ← scan read
  let (nsPrefix, name) ← scan (parseQName c)
  let ns ← resolveElem nsPrefix
  checkEnd ns name
  scan (skipSpace >>= fun _ => pure ())
  let c ← scan read
  if c ≠ char '>' then throw (error "Expecting > end of element")

/-- What follows `<!`. -/
def bangTurn : Pull (Unit ⊕ Event) := do
  let c ← scan read
  if c = char '-' then
    let c ← scan read
    if c ≠ char '-' then throw (error "Expecting comment")
    scan skipComment
    return .inl ()
  if c = char '[' then
    scan (consume (lit "CDATA[".toList) (lit "CDATA[".toList))
    let text ← scan parseCDATA
    return .inr (.text text true)
  if c = char 'D' then
    scan (consume (lit "OCTYPE".toList) (lit "OCTYPE".toList))
    scan skipDocType
    return .inl ()
  throw (error "Unexpected markup")

/-- What follows `<`. -/
def markupTurn : Pull (Unit ⊕ Event) := do
  let c ← scan read
  if c = char '!' then bangTurn
  else if c = char '?' then
    scan skipPI
    return .inl ()
  else if c = char '/' then
    parseElemEnd
    fun p => .ok (.inr .elemEnd, { p with popStack := true })
  else
    parseElemStart c
    return .inr .elemStart

/-- The loop of `XParser.next`. -/
def nextTurn (_ : Unit) : Pull (Unit ⊕ Event) := do
  let c ← scan tryRead
  match c with
  | none => return .inr .eof
  | some c =>
    if c = char '<' then markupTurn
    else
      let (text, gotText) ← scan (parseText c)
      if !gotText then return .inl ()
      return .inr (.text text false)

theorem keeps_skipComment : Keeps skipComment := keeps_loop keeps_commentTurn _

theorem keeps_skipPI : Keeps skipPI := keeps_loop keeps_piTurn _

theorem keeps_skipDocType : Keeps skipDocType := keeps_loop keeps_docTypeTurn _

theorem keeps_parseCDATA : Keeps parseCDATA := keeps_loop keeps_cdataTurn _

theorem keeps_setTag (tag : Tag) (emptyElem : Bool) : PullKeeps (setTag tag emptyElem) := by
  intro p u p' h
  cases h
  exact Nat.le_refl _

theorem keeps_checkEnd (ns : Option XNs) (name : JString) : PullKeeps (checkEnd ns name) := by
  intro p u p' h
  rw [checkEnd] at h
  split at h
  · cases h
  · split at h
    · cases h
    · cases h
      exact Nat.le_refl _

theorem keeps_parseElemStart (c : JChar) : PullKeeps (parseElemStart c) :=
  keeps_push.bind fun _ => (PullKeeps.scan (keeps_parseQName c)).bind fun _ =>
    (PullKeeps.loop keeps_attrTurn []).bind fun _ => (keeps_resolveElem _).bind fun _ =>
      (keeps_resolveAttrs _).bind fun _ => keeps_setTag _ _

theorem keeps_parseElemEnd : PullKeeps parseElemEnd :=
  (PullKeeps.scan keeps_read).bind fun c => (PullKeeps.scan (keeps_parseQName c)).bind fun _ =>
    (keeps_resolveElem _).bind fun _ => (keeps_checkEnd _ _).bind fun _ => keeps_skip.bind fun _ =>
      (PullKeeps.scan keeps_read).bind fun _ => (PullKeeps.throw _).ite (PullKeeps.pure _)

theorem keeps_bangTurn : PullKeeps bangTurn := by
  refine (PullKeeps.scan keeps_read).bind fun c => PullKeeps.ite ?_ (PullKeeps.ite ?_
    (PullKeeps.ite ?_ (PullKeeps.throw _)))
  · exact (PullKeeps.scan keeps_read).bind fun _ => (PullKeeps.throw _).ite
      ((PullKeeps.scan keeps_skipComment).bind fun _ => PullKeeps.pure _)
  · exact (PullKeeps.scan (keeps_consume _ _)).bind fun _ =>
      (PullKeeps.scan keeps_parseCDATA).bind fun _ => PullKeeps.pure _
  · exact (PullKeeps.scan (keeps_consume _ _)).bind fun _ =>
      (PullKeeps.scan keeps_skipDocType).bind fun _ => PullKeeps.pure _

theorem keeps_markupTurn : PullKeeps markupTurn := by
  refine (PullKeeps.scan keeps_read).bind fun c => keeps_bangTurn.ite (PullKeeps.ite ?_
    (PullKeeps.ite ?_ ((keeps_parseElemStart c).bind fun _ => PullKeeps.pure _)))
  · exact (PullKeeps.scan keeps_skipPI).bind fun _ => PullKeeps.pure _
  · refine keeps_parseElemEnd.bind fun _ p x p' h => ?_
    cases h
    exact Nat.le_refl _

/-- A turn finds the end of the document, or reads. -/
theorem size_of_nextTurn {u : Unit} {p p' : XParser} {x : Unit ⊕ Event}
    (h : nextTurn u p = .ok (x, p')) : (x = .inr .eof ∧ size p' ≤ size p) ∨ size p' < size p := by
  obtain ⟨c, s, hc, h⟩ := bind_eq_ok.mp h
  obtain ⟨r, hr, rfl⟩ := scan_eq_ok hc
  obtain ⟨rfl, rfl⟩ | ⟨d, rfl, hd⟩ := tryRead_eq_ok hr
  · cases h
    exact .inl ⟨rfl, Nat.le_refl _⟩
  · refine .inr (Nat.lt_of_le_of_lt ?_ (size_of_read hd))
    refine (keeps_markupTurn.ite ((PullKeeps.scan (keeps_parseText d)).bind fun _ =>
      (PullKeeps.pure _).ite (PullKeeps.pure _))) _ x p' h

theorem descends_nextTurn : Descends size nextTurn := by
  intro u p u' p' h
  obtain ⟨hx, -⟩ | hlt := size_of_nextTurn h
  · cases hx
  · exact hlt

/-- The pop that the last call of `next` left to this one. -/
def XParser.settle (p : XParser) : XParser :=
  if p.popStack then { p with popStack := false }.pop else p

/-- `XParser.next`. -/
def next : Pull Event := fun p =>
  let p := p.settle
  if p.emptyElem then .ok (.elemEnd, { p with emptyElem := false, popStack := true })
  else loop size nextTurn descends_nextTurn () p

/-- What is left to find: an element that was found empty still ends. -/
def weight (p : XParser) : ℕ := 2 * size p + if p.emptyElem then 1 else 0

theorem settle_fields (p : XParser) :
    p.settle.reader = p.reader ∧ p.settle.emptyElem = p.emptyElem := by
  rw [XParser.settle]
  split
  · rw [XParser.pop]
    split
    · exact ⟨rfl, rfl⟩
    · dsimp only
      split <;> exact ⟨rfl, rfl⟩
  · exact ⟨rfl, rfl⟩

/-- **Every call of `next` before the end uses something up.** -/
theorem weight_of_next {p p' : XParser} {ev : Event} (h : next p = .ok (ev, p')) :
    ev = .eof ∨ weight p' < weight p := by
  obtain ⟨hreader, hempty⟩ := settle_fields p
  have hsettle : size p.settle = size p := by rw [size, size, hreader]
  rw [next] at h
  split at h
  · next he =>
    cases h
    refine .inr ?_
    rw [hempty] at he
    simp only [weight, size, hreader, he]
    exact Nat.lt_succ_self _
  · have hloop := loop_ind (P := fun s => size s ≤ size p)
      (Q := fun ev s => ev = .eof ∨ size s < size p) ?_ (Nat.le_of_eq hsettle) h
    · refine hloop.imp id fun hlt => ?_
      simp only [weight]
      split <;> omega
    · intro u s x s' hs hx
      obtain ⟨rfl, -⟩ | hlt := size_of_nextTurn hx
      · exact .inl rfl
      · cases x with
        | inl u => exact Nat.le_of_lt (Nat.lt_of_lt_of_le hlt hs)
        | inr ev => exact .inr (Nat.lt_of_lt_of_le hlt hs)

/-! ### Trees -/

/-- An element that is open, with the content found so far. -/
structure Open where
  tag : Tag
  content : List XContent

def Open.add (o : Open) (c : XContent) : Open := { o with content := o.content ++ [c] }

/-- `XParser.elem` after the start of an element. -/
def XParser.elem (p : XParser) : Tag :=
  match p.stack with
  | [] => ⟨none, [], []⟩
  | frame :: _ => frame.tag

/-- The loop of `XParser.parseCurrent`: `cur`, and the elements around it, the innermost first. -/
def treeTurn (s : Open × List Open) : Pull (Open × List Open ⊕ XElem) := fun p =>
  match next p with
  | .error e => .error e
  | .ok (.elemStart, p) => .ok (.inl (⟨p.elem, []⟩, s.1 :: s.2), p)
  | .ok (.elemEnd, p) =>
    match s.2 with
    | [] => .ok (.inr ⟨s.1.tag, s.1.content⟩, p)
    | parent :: parents => .ok (.inl (parent.add (.elem s.1.tag s.1.content), parents), p)
  | .ok (.text string cdata, p) => .ok (.inl (s.1.add (.text string cdata), s.2), p)
  | .ok (.eof, _) => .error (.eof "Unexpected EOF in XML element")

theorem descends_treeTurn : Descends weight treeTurn := by
  intro s p s' p' h
  rw [treeTurn] at h
  rcases hnext : next p with e | ⟨ev, q⟩
  · rw [hnext] at h
    cases h
  · have hlt := weight_of_next hnext
    rw [hnext] at h
    cases ev with
    | eof => cases h
    | elemStart =>
      cases h
      exact hlt.resolve_left (by decide)
    | elemEnd =>
      dsimp only at h
      split at h
      · cases h
      · cases h
        exact hlt.resolve_left (by decide)
    | text string cdata =>
      cases h
      exact hlt.resolve_left Event.noConfusion

/-- `XParser.parseCurrent`. -/
def parseCurrent : Pull XElem := fun p =>
  loop weight treeTurn descends_treeTurn (⟨p.elem, []⟩, []) p

/-- `XParser.parse`. -/
def parseElem : Pull XElem := do
  let ev ← next
  if ev ≠ .elemStart then throw (error "Expecting element start")
  parseCurrent

/-- A parser in front of a document. -/
def XParser.make (input : JString) : XParser where
  reader := ⟨none, input⟩
  stack := []
  defaultNs := none
  nextNs := 0
  popStack := false
  emptyElem := false

/-- The element of a document. -/
def parse (input : JString) : Except XError XElem :=
  match parseElem (XParser.make input) with
  | .error e => .error e
  | .ok (e, _) => .ok e

end Sedona.Xml
