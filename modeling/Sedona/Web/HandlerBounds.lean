import Sedona.Library.Transition
import Sedona.Web.HandlerText

/-!
# The Web Handler Stays in Its Buffers

Runs of a handler over any number of connections, with whatever the sockets deliver.

## Main results

* `copyUri_short`, `copyUri_long`: the copy of a uri.
* `stays_inside`: all accesses are inside, as long as a read ends in the buffer, there are not too
  many parameters, and there is a terminator for the path.
* `not_stays_inside`: a read that ends behind the buffer.
-/

namespace Sedona.Web

open Rescan Transition

variable {h : Handler} {u : List Byte} {a n i : ℕ}

/-! ### The uri -/

/-- A uri without its query. -/
def before (u : List Byte) : List Byte := u.takeWhile (· ≠ code '?')

/-- The bytes and a terminator, from an index on. -/
def overlay (uriBuf : ℕ → Byte) (i : ℕ) (p : List Byte) : ℕ → Byte := fun j =>
  if i ≤ j ∧ j < i + p.length then p.getD (j - i) 0
  else if j = i + p.length then 0 else uriBuf j

theorem overlay_nil (uriBuf : ℕ → Byte) (i : ℕ) :
    overlay uriBuf i [] = Function.update uriBuf i 0 := by
  funext j
  rw [overlay, List.length_nil, Nat.add_zero, if_neg (by omega), Function.update_apply]

theorem overlay_cons (uriBuf : ℕ → Byte) (i : ℕ) (x : Byte) (p : List Byte) :
    overlay (Function.update uriBuf i x) (i + 1) p = overlay uriBuf i (x :: p) := by
  funext j
  rw [overlay, overlay, List.length_cons]
  rcases Nat.lt_trichotomy j i with hlt | rfl | hgt
  · rw [if_neg (by omega), if_neg (by omega), if_neg (by omega), if_neg (by omega),
      Function.update_of_ne (by omega)]
  · rw [if_neg (by omega), if_neg (by omega), if_pos (by omega), Function.update_self,
      Nat.sub_self]
    rfl
  · by_cases hin : j < i + (p.length + 1)
    · rw [if_pos (by omega), if_pos (by omega)]
      have hj : j - i = (j - (i + 1)) + 1 := by omega
      rw [hj, List.getD_cons_succ]
    · have hin' : ¬ (i + 1 ≤ j ∧ j < i + (p.length + 1)) := by omega
      have hin'' : ¬ (i ≤ j ∧ j < i + (p.length + 1)) := by omega
      have hend : i + 1 + p.length = i + (p.length + 1) := by omega
      have hne : j ≠ i := by omega
      simp only [hin', hin'', hend, Function.update_of_ne hne, if_false]

theorem before_cons {x : Byte} (hx : x ≠ code '?') : before (x :: u) = x :: before u :=
  List.takeWhile_cons_of_pos (decide_eq_true hx)

theorem before_query : before (code '?' :: u) = [] :=
  List.takeWhile_cons_of_neg (by simp)

/-- The query of a uri at this offset. -/
def queryAt (query : Option ℕ) (a : ℕ) (u : List Byte) : Option ℕ :=
  if before u = u then query else some (a + (before u).length + 1)

theorem queryAt_cons {x : Byte} (hx : x ≠ code '?') (query : Option ℕ) :
    queryAt query a (x :: u) = queryAt query (a + 1) u := by
  rw [queryAt, queryAt, before_cons hx, List.length_cons]
  simp only [List.cons.injEq, true_and]
  rw [Nat.add_assoc a 1, Nat.add_comm 1]

theorem Handler.touchUri_eq (hi : i < uriBufLen) : h.touchUri i = h := by
  rw [Handler.touchUri, decide_eq_true hi, Bool.and_true]

/-- **The uri is short enough.** -/
theorem Handler.copyUri_short (hu : Holds h.buf (a + i) (u ++ [0])) (hz : ∀ x ∈ u, x ≠ 0)
    (hlen : a + i + u.length < bufLen) (hn : n + i = uriBufLen + 1)
    (hshort : i + (before u).length < uriBufLen) :
    copyUri a n i h = (true,
      { h with
        uriBuf := overlay h.uriBuf i (before u)
        req.query := queryAt h.req.query (a + i) u }) := by
  induction u generalizing h i n with
  | nil =>
      obtain _ | n := n
      · omega
      rw [show before [] = [] from rfl, List.length_nil, Nat.add_zero] at hshort
      rw [List.length_nil, Nat.add_zero] at hlen
      have hat : h.buf (a + i) = 0 := (holds_cons.mp hu).1
      have hcode : (0 : Byte) ≠ code '?' := by decide
      rw [copyUri, if_neg (by omega), touch_eq (by omega)]
      simp only [hat, hcode, if_false, putUri, touchUri_eq hshort, if_true]
      rw [show before [] = [] from rfl, overlay_nil]
      rfl
  | cons x u ih =>
      obtain _ | n := n
      · omega
      rw [List.length_cons] at hlen
      obtain ⟨hat, hu'⟩ := holds_cons.mp hu
      have hi : i < uriBufLen := by omega
      rw [copyUri, if_neg (by omega), touch_eq (by omega)]
      by_cases hx : x = code '?'
      · subst hx
        have hne : before (code '?' :: u) ≠ code '?' :: u := by rw [before_query]; simp
        simp only [hat, if_true, putUri, touchUri, hi, decide_true, Bool.and_true]
        rw [before_query, overlay_nil, queryAt, if_neg hne, before_query]
        rfl
      · rw [before_cons hx, List.length_cons] at hshort
        simp only [hat, hx, if_false, putUri, touchUri_eq hi, hz x List.mem_cons_self]
        rw [ih (h := { h with uriBuf := Function.update h.uriBuf i x }) hu'
          (fun y hy => hz y (List.mem_cons_of_mem _ hy)) (by omega) (by omega) (by omega)]
        simp only
        rw [overlay_cons, before_cons hx, queryAt_cons hx]
        rfl

/-- **The uri is too long.** -/
theorem Handler.copyUri_long (hu : Holds h.buf (a + i) (u ++ [0])) (hz : ∀ x ∈ u, x ≠ 0)
    (hlen : a + i + u.length < bufLen) (hn : n + i = uriBufLen + 1)
    (hlong : uriBufLen ≤ i + (before u).length) :
    ∃ uriBuf, copyUri a n i h = (false, { h with uriBuf }) := by
  induction u generalizing h i n with
  | nil =>
      obtain _ | n := n
      · exact ⟨h.uriBuf, rfl⟩
      rw [show before [] = [] from rfl, List.length_nil, Nat.add_zero] at hlong
      exact ⟨h.uriBuf, by rw [copyUri, if_pos hlong]⟩
  | cons x u ih =>
      obtain _ | n := n
      · exact ⟨h.uriBuf, rfl⟩
      rw [List.length_cons] at hlen
      obtain ⟨hat, hu'⟩ := holds_cons.mp hu
      by_cases hi : uriBufLen ≤ i
      · exact ⟨h.uriBuf, by rw [copyUri, if_pos hi]⟩
      have hx : x ≠ code '?' := by
        rintro rfl
        rw [before_query] at hlong
        exact hi hlong
      rw [before_cons hx, List.length_cons] at hlong
      rw [copyUri, if_neg hi, touch_eq (by omega)]
      simp only [hat, hx, if_false, putUri, touchUri_eq (Nat.lt_of_not_le hi),
        hz x List.mem_cons_self]
      exact ih (h := { h with uriBuf := Function.update h.uriBuf i x }) hu'
        (fun y hy => hz y (List.mem_cons_of_mem _ hy)) (by omega) (by omega) (by omega)

/-! ### The path -/

/-- A round that does not end the path. -/
theorem Handler.tokenizePath_step (hmore : h.uriBuf i ≠ 0) :
    tokenizePath (n + 1) i h = tokenizePath n (i + 1)
      (if h.uriBuf i = code '/' then
        if h.req.path.size + 1 < pathMax then
          Handler.putPath { (h.touchUri i).putUri i 0 with req.path.size := h.req.path.size + 1 }
            (h.req.path.size + 1) (i + 1)
        else (h.touchUri i).putUri i 0
      else h.touchUri i) := by
  rw [tokenizePath]
  exact if_neg hmore

/-- The path is made of what is in `uriBuf`. -/
theorem Handler.tokenizePath_eq (n i : ℕ) (uriBuf : ℕ → Byte) (path : Path) :
    ∃ uriBuf' path', ∀ h : Handler, h.uriBuf = uriBuf → h.req.path = path →
      ∃ inside, tokenizePath n i h =
        { h with uriBuf := uriBuf', req.path := path', inside := inside } := by
  induction n generalizing i uriBuf path with
  | zero =>
      refine ⟨uriBuf, path, ?_⟩
      rintro h rfl rfl
      exact ⟨false, rfl⟩
  | succ n ih =>
      by_cases hend : uriBuf i = 0
      · by_cases hlast : uriBuf (i - 1) = 0
        · refine ⟨uriBuf, path, ?_⟩
          rintro h rfl rfl
          refine ⟨(h.touchUri i).inside && decide (i - 1 < uriBufLen), ?_⟩
          simp only [tokenizePath, touchUri, hend, hlast, if_true, ne_eq, not_true, if_false]
        · refine ⟨uriBuf, { path with size := path.size + 1 }, ?_⟩
          rintro h rfl rfl
          refine ⟨(h.touchUri i).inside && decide (i - 1 < uriBufLen), ?_⟩
          simp only [tokenizePath, touchUri, hend, hlast, if_true, ne_eq, not_false_eq_true]
      by_cases hslash : uriBuf i = code '/'
      · by_cases hroom : path.size + 1 < pathMax
        · obtain ⟨uriBuf', path', hrest⟩ := ih (i + 1) (Function.update uriBuf i 0)
            { size := path.size + 1, names := Function.update path.names (path.size + 1) (i + 1) }
          refine ⟨uriBuf', path', ?_⟩
          rintro h rfl rfl
          obtain ⟨inside, heq⟩ := hrest (({ (h.touchUri i).putUri i 0 with
            req.path.size := h.req.path.size + 1 } : Handler).putPath (h.req.path.size + 1) (i + 1))
            rfl rfl
          refine ⟨inside, ?_⟩
          rw [tokenizePath_step hend, if_pos hslash, if_pos hroom]
          exact heq
        · obtain ⟨uriBuf', path', hrest⟩ := ih (i + 1) (Function.update uriBuf i 0) path
          refine ⟨uriBuf', path', ?_⟩
          rintro h rfl rfl
          obtain ⟨inside, heq⟩ := hrest ((h.touchUri i).putUri i 0) rfl rfl
          refine ⟨inside, ?_⟩
          rw [tokenizePath_step hend, if_pos hslash, if_neg hroom]
          exact heq
      · obtain ⟨uriBuf', path', hrest⟩ := ih (i + 1) uriBuf path
        refine ⟨uriBuf', path', ?_⟩
        rintro h rfl rfl
        obtain ⟨inside, heq⟩ := hrest (h.touchUri i) rfl rfl
        refine ⟨inside, ?_⟩
        rw [tokenizePath_step hend, if_neg hslash]
        exact heq

/-- **The path ends at a terminator.** -/
theorem Handler.tokenizePath_inside {z : ℕ} (hz : h.uriBuf z = 0) (hi : 0 < i) (hle : i ≤ z)
    (hlt : z < uriBufLen) (hn : z < n + i) (hsize : h.req.path.size < pathMax) :
    (tokenizePath n i h).inside = h.inside := by
  induction n generalizing h i with
  | zero => omega
  | succ n ih =>
      by_cases hend : h.uriBuf i = 0
      · rw [tokenizePath, touchUri_eq (by omega)]
        dsimp only
        rw [if_pos hend, touchUri_eq (by omega)]
        split <;> rfl
      have hne : z ≠ i := by
        rintro rfl
        exact hend hz
      rw [tokenizePath_step hend, putUri, touchUri_eq (by omega), touchUri_eq (by omega)]
      by_cases hslash : h.uriBuf i = code '/'
      · have hz' : Function.update h.uriBuf i 0 z = 0 := by
          rwa [Function.update_of_ne hne]
        rw [if_pos hslash]
        by_cases hroom : h.req.path.size + 1 < pathMax
        · rw [if_pos hroom, ih hz' (by omega) (by omega) (by omega) hroom, putPath]
          simp only [hroom, decide_true, Bool.and_true]
        · rw [if_neg hroom]
          exact ih hz' (by omega) (by omega) (by omega) hsize
      · rw [if_neg hslash]
        exact ih hz (by omega) (by omega) (by omega) hsize

theorem overlay_end (uriBuf : ℕ → Byte) (i : ℕ) (p : List Byte) :
    overlay uriBuf i p (i + p.length) = 0 := by
  rw [overlay, if_neg (by omega), if_pos rfl]

theorem overlay_behind {uriBuf : ℕ → Byte} {p : List Byte} {j : ℕ} (hj : i + p.length < j) :
    overlay uriBuf i p j = uriBuf j := by
  rw [overlay, if_neg (by omega), if_neg (by omega)]

/-- **A uri that is routed.** -/
theorem Handler.route_short (uriBuf : ℕ → Byte) (path : Path)
    (hshort : (before u).length < uriBufLen) :
    ∃ uriBuf' path', ∀ h : Handler, h.uriBuf = uriBuf → h.req.path = path →
      ∀ a, h.req.uri = some a → StrAt h.buf a u → a + u.length < bufLen →
        ∃ inside, h.route = (true,
          { h with
            uriBuf := uriBuf'
            req.query := queryAt none a u
            req.path := path'
            inside := inside }) ∧
          ((before u ≠ [] ∨ ∃ i, 0 < i ∧ i < uriBufLen ∧ uriBuf i = 0) → inside = h.inside) := by
  obtain ⟨uriBuf', path', htok⟩ := tokenizePath_eq uriBufLen 1 (overlay uriBuf 0 (before u))
    { size := 0, names := Function.update path.names 0 1 }
  refine ⟨uriBuf', path', ?_⟩
  rintro h rfl rfl a huri hat hlen
  have hcopy := copyUri_short (a := a) (i := 0) (n := uriBufLen + 1)
    (h := { h with req.query := none }) hat.holds hat.nonzero hlen rfl (by omega)
  generalize hh' : (({ h with
    uriBuf := overlay h.uriBuf 0 (before u)
    req.query := queryAt none a u
    req.path.size := 0 } : Handler).putPath 0 1) = h'
  have hu' : h'.uriBuf = overlay h.uriBuf 0 (before u) := by rw [← hh']; rfl
  obtain ⟨inside, heq⟩ := htok h' hu' (by rw [← hh']; rfl)
  have hroute : h.route = (true, tokenizePath uriBufLen 1 h') := by
    have hget : h.req.uri.getD 0 = a := by rw [huri]; rfl
    rw [route]
    simp only [hget, hcopy, Bool.not_true, Bool.false_eq_true, if_false]
    rw [← hh']
    rfl
  refine ⟨inside, ?_, fun hstop => ?_⟩
  · rw [hroute, heq, ← hh']
    rfl
  · have hpath : h'.req.path.size < pathMax := by rw [← hh']; exact Nat.zero_lt_succ _
    obtain ⟨z, hz, hle, hlt⟩ : ∃ z, h'.uriBuf z = 0 ∧ 1 ≤ z ∧ z < uriBufLen := by
      by_cases hempty : before u = []
      · obtain ⟨i, hi, hlt, hzero⟩ := hstop.resolve_left (not_not.mpr hempty)
        refine ⟨i, ?_, hi, hlt⟩
        rw [hu', overlay_behind (by rw [hempty]; simpa using hi), hzero]
      · refine ⟨(before u).length, ?_, List.length_pos_iff.mpr hempty, hshort⟩
        have := overlay_end h.uriBuf 0 (before u)
        rwa [Nat.zero_add, ← hu'] at this
    have hin := tokenizePath_inside hz Nat.one_pos hle hlt (n := uriBufLen) (by omega) hpath
    rw [heq] at hin
    rw [show inside = h'.inside from hin, ← hh']
    exact Bool.and_true _

/-- A uri that is not. -/
theorem Handler.route_long (hlies : h.req.uri = some a) (hat : StrAt h.buf a u)
    (hlen : a + u.length < bufLen) (hlong : uriBufLen ≤ (before u).length) :
    ∃ uriBuf, h.route = (false, { h with uriBuf, req.query := none }) := by
  obtain ⟨uriBuf, hcopy⟩ := copyUri_long (a := a) (i := 0) (n := uriBufLen + 1)
    (h := { h with req.query := none }) hat.holds hat.nonzero hlen rfl (by omega)
  refine ⟨uriBuf, ?_⟩
  have hget : h.req.uri.getD 0 = a := by rw [hlies]; rfl
  rw [route]
  simp only [hget, hcopy, Bool.not_false, if_true]

/-! ### A read -/

/-- The bytes that have been read so far. -/
def Handler.contents (h : Handler) : List Byte := (List.range h.pos).map h.buf

theorem Handler.length_contents : h.contents.length = h.pos := by simp [contents]

theorem Handler.window_contents (bytes : List Byte) :
    Window { h.receive bytes with cur := 0 } (h.contents ++ bytes) := by
  refine ⟨?_, holds_append.mpr ⟨fun i x hx => ?_, fun i x hx => ?_⟩⟩
  · rw [List.length_append, length_contents, Nat.zero_add]
    rfl
  · obtain ⟨hi, hx⟩ := List.getElem?_eq_some_iff.mp hx
    rw [length_contents] at hi
    rw [Nat.zero_add, ← hx]
    simp only [receive, contents, List.getElem_map, List.getElem_range]
    exact if_neg (by omega)
  · obtain ⟨hi, -⟩ := List.getElem?_eq_some_iff.mp hx
    rw [length_contents, Nat.zero_add]
    simp only [receive]
    rw [if_pos (by omega), Nat.add_sub_cancel_left, List.getD_eq_getElem?_getD, hx]
    rfl

/-- The bytes that are read do not leave the buffers: they end in `buf`, the lines that have begun
have room in the parameters, and a path without a terminator of its own has another one. -/
def Handler.Fits (h : Handler) : Event → Prop
  | .accept => True
  | .read bytes =>
      h.closed = false → 5 ≤ bufLen - h.pos → bytes ≠ [] →
        h.pos + bytes.length ≤ bufLen ∧
        begun (text (h.contents ++ bytes)).1 ≤ paramsMax ∧
        ∀ t, (text (h.contents ++ bytes)).1 = .ok t →
          before t.uri ≠ [] ∨ ∃ i, 0 < i ∧ i < uriBufLen ∧ h.uriBuf i = 0

/-- All accesses have been inside. -/
structure Handler.Inside (h : Handler) : Prop where
  inside : h.inside = true
  cur : h.cur ≤ h.pos
  pos : h.pos ≤ bufLen

/-- **A read stays inside.** -/
theorem Handler.Inside.work {bytes : List Byte} (hin : h.Inside)
    (hfits : h.Fits (.read bytes)) : (h.work bytes).2.Inside := by
  rw [Handler.work]
  split
  · exact hin
  rename_i hclosed
  split
  · exact ⟨hin.inside, hin.cur, hin.pos⟩
  rename_i hleft
  split
  · exact ⟨hin.inside, hin.cur, hin.pos⟩
  rename_i hsome
  obtain ⟨hroom, hlines, hpath⟩ :=
    hfits (Bool.eq_false_of_not_eq_true hclosed) (Nat.le_of_not_lt hleft) hsome
  have hw := window_contents (h := h) bytes
  obtain ⟨ok, h', hrun, hkept, -, hin', herr, hok⟩ := parse_spec hw hroom
  have hinside : h'.inside = true := by
    rw [hin' hlines]
    change (h.inside && decide (h.pos + bytes.length ≤ bufLen)) = true
    rw [hin.inside, decide_eq_true hroom]
    rfl
  have hpos : h'.pos ≤ bufLen := hkept.pos.trans_le hroom
  have hdone : h'.Inside := ⟨hinside, hkept.le, hpos⟩
  simp only [hrun]
  cases htext : (text (h.contents ++ bytes)).1 with
  | error w =>
      rw [herr w htext]
      exact hdone
  | ok t =>
      obtain ⟨rfl, hparsed⟩ := hok t htext
      obtain ⟨a, ha, hat, hlt⟩ := hparsed.uri
      have hend : a + t.uri.length < bufLen := by
        have := hkept.le
        omega
      simp only [Bool.not_true, Bool.false_eq_true, if_false]
      rcases Nat.lt_or_ge (before t.uri).length uriBufLen with hshort | hlong
      · obtain ⟨uriBuf, path, hroute⟩ := route_short h'.uriBuf h'.req.path hshort
        obtain ⟨inside, heq, hstop⟩ := hroute h' rfl rfl a ha hat hend
        have huri : h'.uriBuf = h.uriBuf := hkept.uriBuf
        simp only [heq, Bool.not_true, Bool.false_eq_true, if_false]
        exact ⟨(hstop (huri ▸ hpath t htext)).trans hinside, hkept.le, hpos⟩
      · obtain ⟨uriBuf, heq⟩ := route_long ha hat hend hlong
        simp only [heq, Bool.not_false, if_true]
        exact ⟨hinside, hkept.le, hpos⟩

/-! ### Runs -/

/-- A handler that has not been used yet. -/
def Handler.unused : Handler where
  closed := true
  pos := 0
  cur := 0
  buf := fun _ => 0
  uriBuf := fun _ => 0
  req :=
    { method := none
      uri := none
      version := none
      query := none
      params := { size := 0, names := fun _ => none, values := fun _ => none }
      path := { size := 0, names := fun _ => 0 } }
  inside := true

/-- A handler over any number of connections. -/
def handlerSystem : System Handler Event where
  init h := h = Handler.unused
  step h e h' := h' = h.next e

/-- **The handler stays inside its buffers**, as long as what is read fits. -/
theorem stays_inside (hr : (handlerSystem.restrict Handler.Fits).Reachable h) : h.Inside := by
  refine hr.invariant ?_ ?_
  · rintro h rfl
    exact ⟨rfl, le_rfl, Nat.zero_le _⟩
  · rintro h e h' hin ⟨hfits, rfl⟩
    cases e with
    | accept =>
        rw [Handler.next]
        split
        · exact ⟨hin.inside, le_rfl, Nat.zero_le _⟩
        · exact hin
    | read bytes => exact hin.work hfits

/-- A connection with these reads. -/
def connection (reads : List (List Byte)) : List Event := .accept :: reads.map .read

theorem reachable_run (es : List Event) :
    handlerSystem.Reachable (es.foldl Handler.next Handler.unused) := by
  induction es using List.reverseRecOn with
  | nil => exact System.Reachable.start rfl
  | append_singleton es e ih =>
      rw [List.foldl_append]
      exact ih.tail rfl

/-- A connection with one request. -/
theorem stays_inside_request :
    ((Handler.unused.next .accept).next (.read ("GET /a x\r\n\r\n".toList.map code))).Inside := by
  have huri : (text ((Handler.unused.next .accept).contents ++
      "GET /a x\r\n\r\n".toList.map code)).1.toOption.map Text.uri =
      some ("/a".toList.map code) := by
    decide +kernel
  refine stays_inside (System.Reachable.tail (System.Reachable.tail (System.Reachable.start rfl)
    (a := .accept) ⟨trivial, rfl⟩) (a := .read _) ⟨fun _ _ _ => ⟨?_, ?_, ?_⟩, rfl⟩)
  · decide
  · decide +kernel
  · intro t ht
    rw [ht] at huri
    obtain hslash : t.uri = "/a".toList.map code := Option.some.inj huri
    rw [hslash]
    exact .inl (by decide)

/-- A read asks for `bufLen` bytes behind those that have arrived. -/
theorem not_stays_inside : ¬ ∀ h, handlerSystem.Reachable h → h.Inside := by
  intro hall
  have hin := hall _ (reachable_run (connection [[code 'G'], [code ' ', code ' ', code '\r'] ++
    List.replicate 2045 (code 'x')]))
  have hpos : (List.foldl Handler.next Handler.unused (connection [[code 'G'],
      [code ' ', code ' ', code '\r'] ++ List.replicate 2045 (code 'x')])).pos = 2049 := by
    decide +kernel
  have := hin.pos
  rw [hpos] at this
  exact absurd this (by decide)

end Sedona.Web
