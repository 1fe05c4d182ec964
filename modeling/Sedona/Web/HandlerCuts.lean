import Sedona.Web.HandlerBounds
import Sedona.Web.SpoiledText

/-!
# The Cuts of a Request

A request that arrives by several reads against the same bytes by one read.

## Main results

* `work_error`, `work_ok`: a read, on the bytes that are in the buffer.
* `after_fine`: reads that leave no trace.
* `same_iff`: when the reads dispatch what one read would dispatch.
* `not_same`: a header line that ends with a space before a cut.
-/

namespace Sedona.Web

open Rescan

variable {h : Handler} {bytes s u : List Byte} {ps qs : List (List Byte)} {j k m : ℕ} {t : Text}

/-! ### What an attempt leaves -/

theorem length_spendLines (n : ℕ) (s : List Byte) : (spendLines n s).length = s.length := by
  induction n generalizing s with
  | zero => rfl
  | succ n ih =>
      obtain _ | ⟨x, s⟩ := s
      · rfl
      by_cases hx : x = code '\r'
      · rw [hx, spendLines_cr]
      simp only [spendLines, hx, if_false]
      cases hname : cut 0 (code ':') (x :: s) with
      | none => rfl
      | some p =>
      obtain ⟨name, s₁⟩ := p
      obtain ⟨c, -, hs, -⟩ := cut_eq_some_iff.mp hname
      rw [hs]
      cases hvalue : cut 0 (code '\r') s₁ with
      | none => simp only [hvalue, List.length_append, List.length_cons]
      | some p =>
      obtain ⟨value, s₂⟩ := p
      obtain ⟨d, -, rfl, -⟩ := cut_eq_some_iff.mp hvalue
      obtain _ | ⟨y, s₂⟩ := s₂
      · simp only [hvalue, List.length_append, List.length_cons]
      by_cases hy : y = code '\n'
      · subst hy
        simp only [hvalue, if_true, List.length_append, List.length_cons, length_blank, ih]
      · simp only [hvalue, hy, if_false, List.length_append, List.length_cons]

theorem length_spend (s : List Byte) : (spend s).length = s.length := by
  rw [spend]
  cases hm : cut 0 (code ' ') s with
  | none => rfl
  | some p =>
  obtain ⟨method, s₁⟩ := p
  obtain ⟨c, -, rfl, -⟩ := cut_eq_some_iff.mp hm
  cases hu : cut 0 (code ' ') s₁ with
  | none => simp only [hu, List.length_append, List.length_cons]
  | some p =>
  obtain ⟨uri, s₂⟩ := p
  obtain ⟨d, -, rfl, -⟩ := cut_eq_some_iff.mp hu
  cases hv : cut 0 (code '\r') s₂ with
  | none => simp only [hu, hv, List.length_append, List.length_cons]
  | some p =>
  obtain ⟨version, s₃⟩ := p
  obtain ⟨e, -, rfl, -⟩ := cut_eq_some_iff.mp hv
  obtain _ | ⟨y, s₃⟩ := s₃
  · simp only [hu, hv, List.length_append, List.length_cons]
  by_cases hy : y = code '\n'
  · subst hy
    simp only [hu, hv, if_true, List.length_append, List.length_cons, length_spendLines]
  · simp only [hu, hv, hy, if_false, List.length_append, List.length_cons]

theorem Handler.contents_eq (hpos : h.pos = s.length) (hs : Holds h.buf 0 s) : h.contents = s := by
  refine List.ext_getElem (by rw [length_contents, hpos]) fun i hi hi' => ?_
  have hat := hs i _ (List.getElem?_eq_getElem hi')
  rw [Nat.zero_add] at hat
  simp only [contents, List.getElem_map, List.getElem_range, hat]

/-! ### A read -/

/-- A read whose bytes are parsed. -/
structure Handler.Parses (h : Handler) (bytes : List Byte) : Prop where
  opened : h.closed = false
  left : h.pos + 5 ≤ bufLen
  some : bytes ≠ []
  room : h.pos + bytes.length ≤ bufLen

theorem Handler.work_eq (hp : h.Parses bytes) : h.work bytes =
    let (complete, h) := Handler.parse { h.receive bytes with cur := 0 }
    if !complete then (none, h)
    else
      let (short, h) := h.route
      if !short then (none, h) else (some h.request, { h with closed := true }) := by
  obtain ⟨hopen, hleft, hsome, -⟩ := hp
  rw [work, hopen, if_neg (by decide), if_neg (by omega), if_neg hsome]

/-- An attempt that has not dispatched anything. -/
structure Handler.Waits (h h' : Handler) (s : List Byte) : Prop where
  opened : h'.closed = false
  contents : h'.contents = spend s
  uriBuf : h'.uriBuf = h.uriBuf
  path : h'.req.path = h.req.path

/-- **A read that does not complete the request.** -/
theorem Handler.work_error {w : Waiting} (hp : h.Parses bytes)
    (htext : (text (h.contents ++ bytes)).1 = .error w) :
    (h.work bytes).1 = none ∧ h.Waits (h.work bytes).2 (h.contents ++ bytes) := by
  obtain ⟨ok, h', hrun, hkept, hholds, -, herr, -⟩ :=
    parse_spec (window_contents (h := h) bytes) hp.room
  obtain rfl := herr w htext
  rw [work_eq hp]
  simp only [hrun, Bool.not_false, if_true, true_and]
  refine ⟨hkept.closed.trans hp.opened, contents_eq ?_ hholds, hkept.uriBuf, hkept.path⟩
  rw [hkept.pos, length_spend, List.length_append, length_contents]
  rfl

theorem Lies.str {a : Option ℕ} (hs : Lies h a s) (hcur : h.cur ≤ bufLen) : h.str a = s := by
  obtain ⟨a, rfl, hat, hlt⟩ := hs
  exact Handler.strAt_eq hat (hlt.trans_le hcur)

theorem StrAt.drop {buf : ℕ → Byte} {a : ℕ} (hs : StrAt buf a s) {i : ℕ} (hi : i ≤ s.length) :
    StrAt buf (a + i) (s.drop i) := by
  refine ⟨?_, fun x hx => hs.nonzero x (List.mem_of_mem_drop hx)⟩
  have hsplit := hs.holds
  rw [← List.take_append_drop i s, List.append_assoc, holds_append, List.length_take,
    Nat.min_eq_left hi] at hsplit
  exact hsplit.2

/-- The query of a uri. -/
def after (u : List Byte) : List Byte := u.drop ((before u).length + 1)

theorem Handler.str_queryAt {a : ℕ} (hs : StrAt h.buf a u) (hlen : a + u.length < bufLen) :
    h.str (queryAt none a u) = after u := by
  have hpre : before u <+: u := List.takeWhile_prefix _
  rw [queryAt, after]
  split
  · rename_i heq
    rw [heq, List.drop_of_length_le (Nat.le_succ _)]
    rfl
  · rename_i hne
    have hlt : (before u).length < u.length :=
      hpre.length_le.lt_of_ne fun heq => hne (hpre.eq_of_length heq)
    have hdrop := hs.drop (i := (before u).length + 1) hlt
    exact strAt_eq hdrop (by rw [List.length_drop]; omega)

/-- The parameters of a request, as far as there is room. -/
def paramsOf (t : Text) : List (List Byte × List Byte) :=
  (t.lines.take paramsMax).map fun l => (strip l.1, strip l.2)

theorem Recorded.params {lines : List Line} (hr : Recorded h lines) (hcur : h.cur ≤ bufLen) :
    ((List.range h.req.params.size).map fun i =>
      (h.str (h.req.params.names i), h.str (h.req.params.values i))) =
      (lines.take paramsMax).map fun l => (strip l.1, strip l.2) := by
  refine List.ext_getElem ?_ fun i hi hi' => ?_
  · simp only [List.length_map, List.length_range, List.length_take, hr.size, Nat.min_comm]
  · simp only [List.length_map, List.length_take] at hi'
    obtain ⟨hname, hvalue⟩ := hr.lies i lines[i] (by omega) (List.getElem?_eq_getElem (by omega))
    simp only [List.getElem_map, List.getElem_range, List.getElem_take, hname.str hcur,
      hvalue.str hcur]

/-- **A read that completes the request.** -/
theorem Handler.work_ok (uriBuf : ℕ → Byte) (path : Path)
    (hshort : (before t.uri).length < uriBufLen) :
    ∃ r : Request, r.params = paramsOf t ∧ ∀ h : Handler, h.uriBuf = uriBuf → h.req.path = path →
      ∀ bytes, h.Parses bytes → (text (h.contents ++ bytes)).1 = .ok t →
        (h.work bytes).1 = some r ∧ (h.work bytes).2.closed = true := by
  obtain ⟨uriBuf', path', hroute⟩ := route_short uriBuf path hshort
  refine ⟨{ method := t.method, uri := t.uri, version := t.version, params := paramsOf t
            path := (List.range path'.size).map fun i => strAt uriBuf' uriBufLen (path'.names i)
            query := after t.uri }, rfl, ?_⟩
  rintro h rfl rfl bytes hp htext
  obtain ⟨ok, h', hrun, hkept, -, -, -, hok⟩ :=
    parse_spec (window_contents (h := h) bytes) hp.room
  obtain ⟨rfl, hparsed⟩ := hok t htext
  have hcur : h'.cur ≤ bufLen := hkept.le.trans (hkept.pos.trans_le hp.room)
  obtain ⟨a, ha, hat, hlt⟩ := hparsed.uri
  obtain ⟨inside, heq, -⟩ := hroute h' hkept.uriBuf hkept.path a ha hat (hlt.trans_le hcur)
  rw [work_eq hp]
  simp only [hrun, heq, Bool.not_true, Bool.false_eq_true, if_false, and_true]
  refine congrArg some ?_
  have hmethod := hparsed.method.str hcur
  have huri := hparsed.uri.str hcur
  have hversion := hparsed.version.str hcur
  have hparams := hparsed.lines.params hcur
  have hquery := str_queryAt hat (hlt.trans_le hcur)
  simp only [str] at hmethod huri hversion hparams hquery
  simp only [request, str, hmethod, huri, hversion, hparams, hquery]
  rfl

/-- A uri that is too long. -/
theorem Handler.work_long (hp : h.Parses bytes) (htext : (text (h.contents ++ bytes)).1 = .ok t)
    (hlong : uriBufLen ≤ (before t.uri).length) :
    (h.work bytes).1 = none ∧ (h.work bytes).2.closed = false ∧
      (h.work bytes).2.contents = spend (h.contents ++ bytes) := by
  obtain ⟨ok, h', hrun, hkept, hholds, -, -, hok⟩ :=
    parse_spec (window_contents (h := h) bytes) hp.room
  obtain ⟨rfl, hparsed⟩ := hok t htext
  have hcur : h'.cur ≤ bufLen := hkept.le.trans (hkept.pos.trans_le hp.room)
  obtain ⟨a, ha, hat, hlt⟩ := hparsed.uri
  obtain ⟨uriBuf, heq⟩ := route_long ha hat (hlt.trans_le hcur) hlong
  rw [work_eq hp]
  simp only [hrun, heq, Bool.not_true, Bool.not_false, Bool.false_eq_true, if_false, if_true,
    true_and]
  refine ⟨hkept.closed.trans hp.opened, contents_eq ?_ hholds⟩
  change h'.pos = _
  rw [hkept.pos, length_spend, List.length_append, length_contents]
  rfl

/-! ### Reads in a row -/

/-- What successive reads dispatch. -/
def Handler.works : Handler → List (List Byte) → List (Option Request)
  | _, [] => []
  | h, p :: ps => (h.work p).1 :: works (h.work p).2 ps

/-- The handler behind the reads. -/
def Handler.behind (h : Handler) (ps : List (List Byte)) : Handler :=
  ps.foldl (fun h p => (h.work p).2) h

theorem Handler.works_append (h : Handler) (ps qs : List (List Byte)) :
    h.works (ps ++ qs) = h.works ps ++ (h.behind ps).works qs := by
  induction ps generalizing h with
  | nil => rfl
  | cons p ps ih => exact congrArg _ (ih _)

theorem Handler.behind_concat (h : Handler) (ps : List (List Byte)) (p : List Byte) :
    h.behind (ps ++ [p]) = ((h.behind ps).work p).2 := by
  rw [behind, List.foldl_append]
  rfl

theorem Handler.length_works (h : Handler) (ps : List (List Byte)) :
    (h.works ps).length = ps.length := by
  induction ps generalizing h with
  | nil => rfl
  | cons p ps ih => exact congrArg (· + 1) (ih _)

/-- A handler is closed. -/
theorem Handler.works_closed (hclosed : h.closed = true) :
    h.works ps = List.replicate ps.length none := by
  induction ps with
  | nil => rfl
  | cons p ps ih =>
      have hwork : h.work p = (none, h) := if_pos hclosed
      rw [works, hwork, ih]
      rfl

theorem Handler.work_empty (h : Handler) : (h.work []).1 = none ∧ (h.work []).2.closed = true := by
  rw [work]
  split
  · exact ⟨rfl, ‹_›⟩
  split <;> exact ⟨rfl, rfl⟩

/-- There is no room in the buffer. -/
theorem Handler.works_full (hfull : bufLen < h.pos + 5) :
    h.works ps = List.replicate ps.length none := by
  cases ps with
  | nil => rfl
  | cons p ps =>
      obtain ⟨hnone, hclosed⟩ : (h.work p).1 = none ∧ (h.work p).2.closed = true := by
        rw [work]
        split
        · exact ⟨rfl, ‹_›⟩
        rw [if_pos (by omega)]
        exact ⟨rfl, rfl⟩
      rw [works, hnone, works_closed hclosed]
      rfl

/-- **What a read does.** -/
theorem Handler.work_cases (h : Handler) (bytes : List Byte)
    (hroom : h.pos + bytes.length ≤ bufLen) :
    (h.work bytes).1 = none ∧ (h.work bytes).2.closed = true ∨
    (h.work bytes).1 = none ∧ (h.work bytes).2.contents = spend (h.contents ++ bytes) ∨
    ∃ t r, (text (h.contents ++ bytes)).1 = .ok t ∧ (before t.uri).length < uriBufLen ∧
      (h.work bytes).1 = some r ∧ r.params = paramsOf t ∧ (h.work bytes).2.closed = true := by
  by_cases hopen : h.closed = true
  · have hwork : h.work bytes = (none, h) := if_pos hopen
    rw [hwork]
    exact .inl ⟨rfl, hopen⟩
  by_cases hsome : bytes = []
  · subst hsome
    exact .inl (work_empty h)
  by_cases hleft : h.pos + 5 ≤ bufLen
  swap
  · have hwork : h.work bytes = (none, { h with closed := true }) := by
      rw [work, if_neg hopen, if_pos (by omega)]
    rw [hwork]
    exact .inl ⟨rfl, rfl⟩
  have hp : h.Parses bytes := ⟨Bool.eq_false_of_not_eq_true hopen, hleft, hsome, hroom⟩
  cases htext : (text (h.contents ++ bytes)).1 with
  | error w =>
      obtain ⟨hnone, hwaits⟩ := work_error hp htext
      exact .inr (.inl ⟨hnone, hwaits.contents⟩)
  | ok t =>
      rcases Nat.lt_or_ge (before t.uri).length uriBufLen with hshort | hlong
      · obtain ⟨r, hparams, hr⟩ := work_ok h.uriBuf h.req.path hshort
        obtain ⟨hdone, hclosed⟩ := hr h rfl rfl bytes hp htext
        exact .inr (.inr ⟨t, r, rfl, hshort, hdone, hparams, hclosed⟩)
      · obtain ⟨hnone, -, hcontents⟩ := work_long hp htext hlong
        exact .inr (.inl ⟨hnone, hcontents⟩)

/-- **A spoiled line is not dispatched as it has arrived.** -/
theorem Handler.works_spoiled {p : Prop} {r : Request} (hs : SpoiledText p m h.contents)
    (hroom : h.pos + qs.flatten.length ≤ bufLen) (hm : m < paramsMax) (hr : some r ∈ h.works qs) :
    p ∧ ∃ name, r.params[m]? = some (name, []) := by
  induction qs generalizing h with
  | nil => cases hr
  | cons q qs ih =>
      rw [List.flatten_cons, List.length_append] at hroom
      obtain hnow | hlater := List.mem_cons.mp hr
      all_goals obtain ⟨hnone, hclosed⟩ | ⟨hnone, hcontents⟩ |
          ⟨t, r', htext, -, hdone, hparams, hclosed⟩ :=
        work_cases h q (by omega)
      · rw [hnone] at hnow
        cases hnow
      · rw [hnone] at hnow
        cases hnow
      · rw [hdone] at hnow
        cases hnow
        obtain ⟨hp, name, hat⟩ := (hs.append q).ok htext
        refine ⟨hp, strip name, ?_⟩
        rw [hparams, paramsOf, List.getElem?_map, List.getElem?_take_of_lt hm, hat]
        rfl
      · rw [works_closed hclosed] at hlater
        cases List.eq_of_mem_replicate hlater
      · refine ih (hcontents ▸ (hs.append q).spend) ?_ hlater
        have hlen := congrArg List.length hcontents
        rw [length_contents, length_spend, List.length_append, length_contents] at hlen
        omega
      · rw [works_closed hclosed] at hlater
        cases List.eq_of_mem_replicate hlater

/-! ### Cuts -/

/-- The bytes of the first reads. -/
def arrived (ps : List (List Byte)) (k : ℕ) : List Byte := (ps.take k).flatten

theorem arrived_succ {q : List Byte} (hk : ps[k]? = some q) :
    arrived ps (k + 1) = arrived ps k ++ q := by
  rw [arrived, List.take_add_one, hk, List.flatten_append]
  simp [arrived]

theorem take_cons_drop {q : List Byte} (hk : ps[k]? = some q) :
    ps.take k ++ q :: ps.drop (k + 1) = ps := by
  obtain ⟨hlt, rfl⟩ := List.getElem?_eq_some_iff.mp hk
  rw [← List.drop_eq_getElem_cons hlt, List.take_append_drop]

theorem flatten_eq (ps : List (List Byte)) (k : ℕ) :
    ps.flatten = arrived ps k ++ (ps.drop k).flatten := by
  rw [arrived, ← List.flatten_append, List.take_append_drop]

theorem arrived_append (ps : List (List Byte)) (hjk : j ≤ k) : ∃ u, arrived ps k = arrived ps j ++ u := by
  refine ⟨((ps.take k).drop j).flatten, ?_⟩
  have hsplit := flatten_eq (ps.take k) j
  rwa [arrived, List.take_take, Nat.min_eq_left hjk] at hsplit

/-- A request that is complete stays complete. -/
theorem text_arrived_of_le (hjk : j ≤ k) (hj : (text (arrived ps j)).1 = .ok t) :
    (text (arrived ps k)).1 = .ok t := by
  obtain ⟨u, hu⟩ := arrived_append ps hjk
  rw [hu]
  exact extends_text _ u _ hj

theorem length_arrived_le (ps : List (List Byte)) (k : ℕ) :
    (arrived ps k).length ≤ ps.flatten.length := by
  rw [flatten_eq ps k, List.length_append]
  exact Nat.le_add_right _ _

/-- The request is not complete after this read, and the read leaves no trace: it delivers something,
there is room for another one, and it does not complete a line with a space at an end. -/
structure Fine (ps : List (List Byte)) (j : ℕ) : Prop where
  some : ps[j]? ≠ some []
  left : (arrived ps (j + 1)).length + 5 ≤ bufLen
  clean : ∀ l ∈ known (text (arrived ps (j + 1))).1, Clean l

/-- The handler behind reads that leave no trace. -/
structure Handler.Reached (h h' : Handler) (ps : List (List Byte)) (k : ℕ) : Prop where
  opened : h'.closed = false
  contents : h'.contents = left text (ps.take k)
  pos : h'.pos = (arrived ps k).length
  uriBuf : h'.uriBuf = h.uriBuf
  path : h'.req.path = h.req.path

/-- An incomplete request in the buffer is as good as its bytes. -/
theorem text_left (hfail : ∀ j < k, ∃ w, (text (arrived ps (j + 1))).1 = .error w) (u : List Byte) :
    text (left text (ps.take k) ++ u) = text (arrived ps k ++ u) := by
  refine resumes_text.runs (fun n hn => ?_) u
  rw [List.length_take] at hn
  rw [List.take_take]
  cases n with
  | zero => exact ⟨⟨[], false⟩, by rw [Nat.zero_min]; rfl⟩
  | succ n =>
      rw [Nat.min_eq_left (by omega)]
      exact hfail n (by omega)

theorem Handler.Reached.parses {h' : Handler} {q : List Byte} (hr : h.Reached h' ps k)
    (hk : ps[k]? = some q) (hq : q ≠ []) (hlen : ps.flatten.length ≤ bufLen)
    (hleft : ∀ j < k, (arrived ps (j + 1)).length + 5 ≤ bufLen) : h'.Parses q := by
  have hmore := length_arrived_le ps (k + 1)
  rw [arrived_succ hk, List.length_append] at hmore
  refine ⟨hr.opened, ?_, hq, by rw [hr.pos]; omega⟩
  rw [hr.pos]
  cases k with
  | zero =>
      rw [show arrived ps 0 = [] from rfl]
      decide
  | succ j => exact hleft j (Nat.lt_succ_self _)

/-- **Reads that leave no trace.** -/
theorem Handler.after_fine (hopen : h.closed = false) (hpos : h.pos = 0)
    (hlen : ps.flatten.length ≤ bufLen) (hk : k ≤ ps.length)
    (hfail : ∀ j < k, ∃ w, (text (arrived ps (j + 1))).1 = .error w)
    (hfine : ∀ j < k, Fine ps j) :
    h.works (ps.take k) = List.replicate k none ∧ h.Reached (h.behind (ps.take k)) ps k := by
  induction k with
  | zero =>
      refine ⟨rfl, hopen, ?_, hpos, rfl, rfl⟩
      exact contents_eq hpos holds_nil
  | succ k ih =>
      obtain ⟨hnone, hr⟩ := ih (by omega) (fun j hj => hfail j (by omega))
        (fun j hj => hfine j (by omega))
      obtain ⟨q, hq⟩ : ∃ q, ps[k]? = some q := ⟨_, List.getElem?_eq_getElem hk⟩
      have htake : ps.take (k + 1) = ps.take k ++ [q] := by
        rw [List.take_add_one, hq]
        rfl
      obtain ⟨hsome, -, hclean⟩ := hfine k (Nat.lt_succ_self k)
      have hp := hr.parses hq (fun h => hsome (h ▸ hq)) hlen
        (fun j hj => (hfine j (by omega)).left)
      have htext := text_left (k := k) (fun j hj => hfail j (by omega)) q
      rw [← arrived_succ hq] at htext
      obtain ⟨w, hw⟩ := hfail k (Nat.lt_succ_self k)
      obtain ⟨hwork, hwaits⟩ := work_error hp (w := w) (by rw [hr.contents, htext, hw])
      rw [htake, works_append, hnone, behind_concat]
      refine ⟨?_, hwaits.opened, ?_, ?_, hwaits.uriBuf.trans hr.uriBuf, hwaits.path.trans hr.path⟩
      · rw [works, hwork, List.replicate_succ']
        rfl
      · rw [hwaits.contents, htake, left_concat, hr.contents]
        exact spend_eq (by rwa [htext])
      · rw [← length_contents, hwaits.contents, length_spend, List.length_append, length_contents,
          hr.pos, arrived_succ hq, List.length_append]

/-- Read number `k` is the first one behind which one read of all bytes would dispatch a request. -/
def Handler.Completes (h : Handler) (ps : List (List Byte)) (k : ℕ) : Prop :=
  (h.work (arrived ps (k + 1))).1.isSome ∧ ∀ j < k, (h.work (arrived ps (j + 1))).1 = none

/-- What one read of all bytes dispatches is dispatched by the read that completes it, and nothing
else is dispatched. -/
def Handler.Same (h : Handler) (ps : List (List Byte)) : Prop :=
  ∀ r, (h.work ps.flatten).1 = some r → ∃ k, h.Completes ps k ∧
    h.works ps = List.replicate k none ++ some r :: List.replicate (ps.length - (k + 1)) none

/-- If the bytes are a request that is dispatched, the reads before it is complete leave no trace. -/
def Resumable (ps : List (List Byte)) : Prop :=
  ∀ t, (text ps.flatten).1 = .ok t → (before t.uri).length < uriBufLen →
    ∀ j < ps.length, ∀ w, (text (arrived ps (j + 1))).1 = .error w → Fine ps j

/-- One read of bytes that are not a request. -/
theorem Handler.work_first_error {w : Waiting} (hpos : h.pos = 0) (hlen : bytes.length ≤ bufLen)
    (htext : (text bytes).1 = .error w) : (h.work bytes).1 = none := by
  have hnil : h.contents = [] := List.eq_nil_of_length_eq_zero (length_contents.trans hpos)
  obtain ⟨hnone, -⟩ | ⟨hnone, -⟩ | ⟨t, r, ht, -⟩ := work_cases h bytes (by omega)
  · exact hnone
  · exact hnone
  · rw [hnil, List.nil_append, htext] at ht
    cases ht

/-- A read of something that is dispatched is one of a request. -/
theorem Handler.text_of_work {r : Request} (hpos : h.pos = 0) (hlen : bytes.length ≤ bufLen)
    (hr : (h.work bytes).1 = some r) :
    ∃ t, (text bytes).1 = .ok t ∧ (before t.uri).length < uriBufLen ∧ r.params = paramsOf t := by
  have hnil : h.contents = [] := List.eq_nil_of_length_eq_zero (length_contents.trans hpos)
  obtain ⟨hnone, -⟩ | ⟨hnone, -⟩ | ⟨t, r', ht, hshort, hsome, hparams, -⟩ :=
    work_cases h bytes (by omega)
  · rw [hnone] at hr
    cases hr
  · rw [hnone] at hr
    cases hr
  · rw [hsome] at hr
    cases hr
    exact ⟨t, by rwa [hnil] at ht, hshort, hparams⟩

theorem Handler.parses_first (hopen : h.closed = false) (hpos : h.pos = 0)
    (hlen : bytes.length ≤ bufLen) (htext : (text bytes).1 = .ok t) : h.Parses bytes := by
  refine ⟨hopen, by rw [hpos]; decide, ?_, by omega⟩
  rintro rfl
  cases htext

/-- **Reads that leave no trace dispatch the request.** -/
theorem Handler.same_of_resumable (hopen : h.closed = false) (hpos : h.pos = 0)
    (hlen : ps.flatten.length ≤ bufLen) (hres : Resumable ps) : h.Same ps := by
  classical
  intro r hr
  have hnil : h.contents = [] := List.eq_nil_of_length_eq_zero (length_contents.trans hpos)
  obtain ⟨t, ht, hshort, -⟩ := text_of_work hpos hlen hr
  have hex : ∃ k t, (text (arrived ps (k + 1))).1 = .ok t := by
    refine ⟨ps.length, t, ?_⟩
    rw [arrived, List.take_of_length_le (Nat.le_succ _), ht]
  -- the first read behind which the request is complete
  obtain ⟨t', ht'⟩ := Nat.find_spec hex
  generalize hkdef : Nat.find hex = k at ht'
  have hfail : ∀ j < k, ∃ w, (text (arrived ps (j + 1))).1 = .error w := by
    intro j hj
    cases htext : (text (arrived ps (j + 1))).1 with
    | error w => exact ⟨w, rfl⟩
    | ok t'' => exact absurd ⟨t'', htext⟩ (Nat.find_min hex (hkdef ▸ hj))
  obtain rfl : t' = t := by
    have hall := extends_text _ (ps.drop (k + 1)).flatten _ ht'
    rw [← flatten_eq, ht] at hall
    exact (Except.ok.inj hall).symm
  have hk : k < ps.length := by
    by_contra hge
    have hsame : arrived ps (k + 1) = arrived ps k := by
      rw [arrived, arrived, List.take_of_length_le (by omega), List.take_of_length_le (by omega)]
    cases k with
    | zero =>
        rw [hsame] at ht'
        cases ht'
    | succ j =>
        obtain ⟨w, hw⟩ := hfail j (Nat.lt_succ_self j)
        rw [hsame, hw] at ht'
        cases ht'
  have hfine : ∀ j < k, Fine ps j := by
    intro j hj
    obtain ⟨w, hw⟩ := hfail j hj
    exact hres t' ht hshort j (by omega) w hw
  obtain ⟨hnone, hreached⟩ := after_fine hopen hpos hlen hk.le hfail hfine
  obtain ⟨q, hq⟩ : ∃ q, ps[k]? = some q := ⟨_, List.getElem?_eq_getElem hk⟩
  have hne : q ≠ [] := by
    rintro rfl
    rw [arrived_succ hq, List.append_nil] at ht'
    cases k with
    | zero => cases ht'
    | succ j =>
        obtain ⟨w, hw⟩ := hfail j (Nat.lt_succ_self j)
        rw [hw] at ht'
        cases ht'
  have hp := hreached.parses hq hne hlen fun j hj => (hfine j hj).left
  obtain ⟨r', -, hdispatch⟩ := work_ok h.uriBuf h.req.path hshort
  obtain ⟨hall, -⟩ := hdispatch h rfl rfl ps.flatten (parses_first hopen hpos hlen ht)
    (by rwa [hnil])
  obtain rfl : r' = r := Option.some.inj (hall.symm.trans hr)
  have hle := (length_arrived_le ps (k + 1)).trans hlen
  obtain ⟨hcomplete, -⟩ := hdispatch h rfl rfl _ (parses_first hopen hpos hle ht') (by rwa [hnil])
  obtain ⟨hlast, hclosed⟩ := hdispatch _ hreached.uriBuf hreached.path q hp (by
    rw [hreached.contents, text_left hfail, ← arrived_succ hq, ht'])
  refine ⟨k, ⟨by rw [hcomplete]; rfl, fun j hj => ?_⟩, ?_⟩
  · obtain ⟨w, hw⟩ := hfail j hj
    exact work_first_error hpos ((length_arrived_le ps (j + 1)).trans hlen) hw
  · conv_lhs => rw [← take_cons_drop hq, works_append, hnone, works, hlast, works_closed hclosed,
      List.length_drop]

/-- **Reads that dispatch the request leave no trace.** -/
theorem Handler.resumable_of_same (hopen : h.closed = false) (hpos : h.pos = 0)
    (hlen : ps.flatten.length ≤ bufLen) (hlines : begun (text ps.flatten).1 ≤ paramsMax)
    (hsame : h.Same ps) : Resumable ps := by
  intro t ht hshort
  have hnil : h.contents = [] := List.eq_nil_of_length_eq_zero (length_contents.trans hpos)
  have hle := fun k => (length_arrived_le ps k).trans hlen
  obtain ⟨r, hparams, hdispatch⟩ := work_ok h.uriBuf h.req.path hshort
  obtain ⟨hall, -⟩ := hdispatch h rfl rfl ps.flatten (parses_first hopen hpos hlen ht)
    (by rwa [hnil])
  obtain ⟨k, ⟨hcomplete, -⟩, hworks⟩ := hsame r hall
  obtain ⟨r', hr'⟩ := Option.isSome_iff_exists.mp hcomplete
  obtain ⟨t', ht', -⟩ := text_of_work hpos (hle (k + 1)) hr'
  -- before the request is complete
  have hbefore : ∀ j, (∃ w, (text (arrived ps (j + 1))).1 = .error w) → j < k := by
    rintro j ⟨w, hw⟩
    by_contra hge
    rw [text_arrived_of_le (by omega) ht'] at hw
    cases hw
  intro j
  induction j using Nat.strong_induction_on with
  | _ j ih =>
  intro hj w hw
  have hjk := hbefore j ⟨w, hw⟩
  have hfail : ∀ i < j, ∃ w, (text (arrived ps (i + 1))).1 = .error w := by
    intro i hi
    cases htext : (text (arrived ps (i + 1))).1 with
    | error w => exact ⟨w, rfl⟩
    | ok t'' =>
        rw [text_arrived_of_le (by omega) htext] at hw
        cases hw
  have hfine : ∀ i < j, Fine ps i := by
    intro i hi
    obtain ⟨w, hw⟩ := hfail i hi
    exact ih i hi (hi.trans hj) w hw
  obtain ⟨hnone, hreached⟩ := after_fine hopen hpos hlen hj.le hfail hfine
  obtain ⟨q, hq⟩ : ∃ q, ps[j]? = some q := ⟨_, List.getElem?_eq_getElem hj⟩
  -- what is dispatched is dispatched by the reads behind this one
  have hlater : some r ∈ (((h.behind (ps.take j)).work q).2).works (ps.drop (j + 1)) := by
    have hat : (h.works ps)[k]? = some (some r) := by
      rw [hworks, List.getElem?_append_right (by simp)]
      simp
    rw [← take_cons_drop hq, works_append, hnone, works,
      List.getElem?_append_right (by rw [List.length_replicate]; omega), List.length_replicate] at hat
    obtain ⟨i, hi⟩ : ∃ i, k - j = i + 1 := ⟨k - j - 1, by omega⟩
    rw [hi, List.getElem?_cons_succ] at hat
    exact List.mem_of_getElem? hat
  have hne : q ≠ [] := by
    rintro rfl
    rw [works_closed (work_empty _).2] at hlater
    cases List.eq_of_mem_replicate hlater
  have hp := hreached.parses hq hne hlen fun i hi => (hfine i hi).left
  have htext := text_left hfail q
  rw [← arrived_succ hq] at htext
  obtain ⟨-, hwaits⟩ := work_error hp (w := w) (by rw [hreached.contents, htext, hw])
  have hpos' : ((h.behind (ps.take j)).work q).2.pos = (arrived ps (j + 1)).length := by
    rw [← length_contents, hwaits.contents, length_spend, List.length_append, length_contents,
      hreached.pos, arrived_succ hq, List.length_append]
  refine ⟨fun h => hne (Option.some.inj (hq.symm.trans h)), ?_, fun l hl => ?_⟩
  · by_contra hfull
    rw [works_full (by rw [hpos']; omega)] at hlater
    cases List.eq_of_mem_replicate hlater
  · by_contra htrim
    rw [← htext] at hl
    obtain ⟨m, l', hat, hspoiled⟩ := spoiledText_spend ⟨l, hl, htrim⟩
    rw [← hreached.contents, ← hwaits.contents] at hspoiled
    have hknown : t.lines[m]? = some l' := by
      obtain ⟨rest, hrest⟩ := known_append (arrived ps (j + 1)) (ps.drop (j + 1)).flatten
      rw [← flatten_eq, ht] at hrest
      rw [htext] at hat
      obtain ⟨hlt, -⟩ := List.getElem?_eq_some_iff.mp hat
      have hleft : (_ ++ rest)[m]? = _ := List.getElem?_append_left hlt
      rw [hrest, hat] at hleft
      exact hleft
    have hm : m < paramsMax := by
      obtain ⟨hlt, -⟩ := List.getElem?_eq_some_iff.mp hknown
      rw [ht] at hlines
      exact hlt.trans_le hlines
    obtain ⟨hvalue, name, hparam⟩ := works_spoiled hspoiled (by
      rw [hpos', ← List.length_append, ← flatten_eq]
      exact hlen) hm hlater
    rw [hparams, paramsOf, List.getElem?_map, List.getElem?_take_of_lt hm, hknown] at hparam
    exact hvalue (Prod.ext_iff.mp (Option.some.inj hparam)).2

/-- **A request that is cut.** The reads dispatch what one read would dispatch if they leave no trace
before it is complete; and only then, if there is room for the parameters. -/
theorem Handler.same_iff (h : Handler) (ps : List (List Byte)) (hlen : ps.flatten.length ≤ bufLen) :
    (Resumable ps → h.accepted.Same ps) ∧
      (begun (text ps.flatten).1 ≤ paramsMax → h.accepted.Same ps → Resumable ps) :=
  ⟨same_of_resumable rfl rfl hlen, resumable_of_same rfl rfl hlen⟩

/-- A request that is cut behind its first byte. -/
theorem same_first_byte :
    Handler.unused.accepted.Same [[code 'G'], "ET /a x\r\nh: v\r\n\r\n".toList.map code] := by
  refine (Handler.same_iff .unused _ (by decide)).1 fun _ _ _ j hj w hw => ?_
  obtain _ | _ | j := j
  · have hknown : known (text [code 'G']).1 = [] := by decide +kernel
    refine ⟨by decide, by decide, fun l hl => ?_⟩
    rw [show arrived _ (0 + 1) = [code 'G'] from rfl, hknown] at hl
    cases hl
  · have hok : (text (arrived [[code 'G'], "ET /a x\r\nh: v\r\n\r\n".toList.map code]
        (0 + 1 + 1))).1.toOption.isSome := by
      decide +kernel
    rw [hw] at hok
    cases hok
  · exact absurd hj (by simp)

/-- The value of a header line ends with a space, and the request is cut behind the line. -/
theorem not_same : ¬ ∀ (h : Handler) (ps : List (List Byte)),
    ps.flatten.length ≤ bufLen → h.accepted.Same ps := by
  intro hall
  have hsame := hall .unused
    ["GET /a x\r\nh: v \r\n".toList.map code, "\r\n".toList.map code] (by decide)
  have hsome : (Handler.unused.accepted.work
      ["GET /a x\r\nh: v \r\n".toList.map code, "\r\n".toList.map code].flatten).1.isSome := by
    decide +kernel
  have hnone : ∀ r ∈ Handler.unused.accepted.works
      ["GET /a x\r\nh: v \r\n".toList.map code, "\r\n".toList.map code], r = none := by
    decide +kernel
  obtain ⟨r, hr⟩ := Option.isSome_iff_exists.mp hsome
  obtain ⟨k, -, hworks⟩ := hsame r hr
  cases hnone (some r) (by rw [hworks]; simp)

end Sedona.Web
