import Mathlib.Data.List.TakeWhile
import Sedona.Web.RequestText

/-!
# The Handler Parses the Text

`Handler.work` on the bytes in its buffer against `text` on a list of them.

## Main results

* `parse_spec`: what `Handler.parse` makes of the bytes, and what it leaves in the buffer.
-/

namespace Sedona.Web

open Rescan

/-! ### Bytes in the buffer -/

/-- The buffer has these bytes from an offset on. -/
def Holds (buf : ℕ → Byte) (off : ℕ) (l : List Byte) : Prop :=
  ∀ i x, l[i]? = some x → buf (off + i) = x

variable {buf buf' : ℕ → Byte} {off s n i : ℕ} {l l' t : List Byte} {x : Byte}

theorem holds_nil : Holds buf off [] := fun _ _ h => by cases h

theorem holds_cons : Holds buf off (x :: l) ↔ buf off = x ∧ Holds buf (off + 1) l := by
  constructor
  · refine fun h => ⟨h 0 x rfl, fun i y hy => ?_⟩
    rw [Nat.add_assoc, Nat.add_comm 1]
    exact h (i + 1) y hy
  · rintro ⟨hx, h⟩ (_ | i) y hy
    · exact hx.trans (Option.some.inj hy)
    · rw [← h i y hy, Nat.add_assoc, Nat.add_comm 1]

theorem holds_append :
    Holds buf off (l ++ l') ↔ Holds buf off l ∧ Holds buf (off + l.length) l' := by
  induction l generalizing off with
  | nil => simp [holds_nil]
  | cons x l ih =>
      rw [List.cons_append, holds_cons, holds_cons, ih, and_assoc, List.length_cons,
        Nat.add_assoc off 1, Nat.add_comm 1]

theorem Holds.congr (h : Holds buf off l)
    (heq : ∀ i, off ≤ i → i < off + l.length → buf' i = buf i) : Holds buf' off l := by
  intro i x hx
  obtain ⟨hi, -⟩ := List.getElem?_eq_some_iff.mp hx
  rw [heq _ (by omega) (by omega)]
  exact h i x hx

/-- A string lies at an offset. -/
structure StrAt (buf : ℕ → Byte) (s : ℕ) (t : List Byte) : Prop where
  holds : Holds buf s (t ++ [0])
  nonzero : ∀ x ∈ t, x ≠ 0

theorem Handler.strAt_eq {len : ℕ} (h : StrAt buf s t) (hlen : s + t.length < len) :
    Handler.strAt buf len s = t := by
  have hbytes : ((List.range (len - s)).map fun i => buf (s + i)) =
      t ++ 0 :: ((List.range (len - s)).map fun i => buf (s + i)).drop (t.length + 1) := by
    refine List.ext_getElem? fun i => ?_
    rcases Nat.lt_or_ge i (t.length + 1) with hi | hi
    · obtain ⟨x, hx⟩ : ∃ x, (t ++ [0])[i]? = some x :=
        ⟨_, List.getElem?_eq_getElem (by simpa using hi)⟩
      have hat := h.holds i x hx
      have hsplit : t ++ 0 :: ((List.range (len - s)).map fun i => buf (s + i)).drop (t.length + 1)
          = (t ++ [0]) ++ ((List.range (len - s)).map fun i => buf (s + i)).drop (t.length + 1) := by
        simp
      rw [hsplit, List.getElem?_append_left (by simpa using hi), hx, List.getElem?_map,
        List.getElem?_range (by omega), Option.map_some, hat]
    · have hsplit : t ++ 0 :: ((List.range (len - s)).map fun i => buf (s + i)).drop (t.length + 1)
          = (t ++ [0]) ++ ((List.range (len - s)).map fun i => buf (s + i)).drop (t.length + 1) := by
        simp
      rw [hsplit, List.getElem?_append_right (by simpa using hi), List.getElem?_drop]
      congr 1
      simp
      omega
  rw [Handler.strAt, hbytes, List.takeWhile_append_of_pos (by simpa using h.nonzero)]
  simp

/-- The bytes that are left to parse. -/
structure Window (h : Handler) (s : List Byte) : Prop where
  pos : h.pos = h.cur + s.length
  holds : Holds h.buf h.cur s

variable {h : Handler} {sep ch : Byte} {r : List Byte}

theorem Handler.touch_eq (hi : i < bufLen) : h.touch i = h := by
  rw [Handler.touch, decide_eq_true hi, Bool.and_true]

theorem Handler.atEnd (hcur : h.cur = h.pos) : { h with cur := h.pos } = h := by
  cases h
  cases hcur
  rfl

/-- A separator is replaced, and what follows it comes next. -/
def Handler.mark (h : Handler) (i : ℕ) : Handler :=
  { h with buf := Function.update h.buf i 0, cur := i + 1 }

theorem Window.mark {c : Byte} (hw : Window h (t ++ c :: r)) :
    Window (h.mark (h.cur + t.length)) r := by
  refine ⟨?_, ?_⟩
  · have hlen := hw.pos
    rw [List.length_append, List.length_cons] at hlen
    change h.pos = h.cur + t.length + 1 + r.length
    omega
  · have hr : Holds h.buf (h.cur + t.length + 1) r :=
      (holds_cons.mp (holds_append.mp hw.holds).2).2
    exact hr.congr fun i hi _ => Function.update_of_ne (by omega) ..

theorem Handler.tokenLoop_none (hw : Window h l) (hpos : h.pos ≤ bufLen)
    (hcut : cut 0 sep l = none) :
    tokenLoop sep l.length h = (false, { h with cur := h.pos }) := by
  induction l generalizing h with
  | nil =>
      have := hw.pos
      rw [List.length_nil, Nat.add_zero] at this
      rw [List.length_nil, tokenLoop, atEnd this.symm]
  | cons x l ih =>
      have hlen := hw.pos
      rw [List.length_cons] at hlen
      obtain ⟨hx, hl⟩ := holds_cons.mp hw.holds
      rw [cut] at hcut
      split at hcut
      · cases hcut
      rename_i hsep
      rw [List.length_cons, tokenLoop, touch_eq (by omega), hx, if_pos (not_or.mp hsep)]
      exact ih ⟨by change h.pos = h.cur + 1 + l.length; omega, hl⟩ hpos
        (Option.map_eq_none_iff.mp hcut)

theorem Handler.tokenLoop_some (hw : Window h l) (hpos : h.pos ≤ bufLen)
    (hcut : cut 0 sep l = some (t, r)) :
    tokenLoop sep l.length h = (true, h.mark (h.cur + t.length)) := by
  induction l generalizing h t with
  | nil => cases hcut
  | cons x l ih =>
      have hlen := hw.pos
      rw [List.length_cons] at hlen
      obtain ⟨hx, hl⟩ := holds_cons.mp hw.holds
      rw [cut] at hcut
      rw [List.length_cons, tokenLoop, touch_eq (by omega), hx]
      split at hcut
      · rename_i hsep
        cases hcut
        rw [if_neg fun hno => hsep.elim hno.1 hno.2, put, touch_eq (by omega)]
        rfl
      · rename_i hsep
        obtain ⟨⟨t', r'⟩, hcut', heq⟩ := Option.map_eq_some_iff.mp hcut
        cases heq
        rw [if_pos (not_or.mp hsep)]
        have := ih (h := { h with cur := h.cur + 1 })
          ⟨by change h.pos = h.cur + 1 + l.length; omega, hl⟩ hpos hcut'
        rw [this, mark, mark, List.length_cons]
        simp only [Nat.add_assoc, Nat.add_comm 1]

/-- **A token.** -/
theorem Handler.token_none (hw : Window h l) (hpos : h.pos ≤ bufLen)
    (hcut : cut 0 sep l = none) : h.token sep = (none, { h with cur := h.pos }) := by
  have hlen := hw.pos
  rw [token]
  split
  · rw [atEnd (by omega)]
  · have hsub : h.pos - h.cur = l.length := by omega
    rw [hsub, tokenLoop_none hw hpos hcut]
    rfl

theorem Handler.token_some (hw : Window h l) (hpos : h.pos ≤ bufLen)
    (hcut : cut 0 sep l = some (t, r)) :
    h.token sep = (some h.cur, h.mark (h.cur + t.length)) := by
  have hlen := hw.pos
  have hne : l ≠ [] := by
    rintro rfl
    cases hcut
  have := List.length_pos_iff.mpr hne
  have hsub : h.pos - h.cur = l.length := by omega
  rw [token, if_neg (by omega), hsub, tokenLoop_some hw hpos hcut]
  rfl

/-- **One byte.** -/
theorem Handler.consume_nil (hw : Window h []) : h.consume ch = (false, h) := by
  have hlen := hw.pos
  rw [List.length_nil] at hlen
  rw [consume, if_pos (by omega)]

theorem Handler.consume_cons (hw : Window h (x :: l)) (hpos : h.pos ≤ bufLen) :
    h.consume ch = if x = ch then (true, { h with cur := h.cur + 1 }) else (false, h) := by
  have hlen := hw.pos
  rw [List.length_cons] at hlen
  rw [consume, if_neg (by omega), touch_eq (by omega)]
  dsimp only
  rw [(holds_cons.mp hw.holds).1, ite_not]

theorem Window.tail (hw : Window h (x :: l)) : Window { h with cur := h.cur + 1 } l := by
  refine ⟨?_, (holds_cons.mp hw.holds).2⟩
  have := hw.pos
  rw [List.length_cons] at this
  change h.pos = h.cur + 1 + l.length
  omega

/-! ### Trimming -/

/-- Zeros from one index up to another one. -/
def clear (buf : ℕ → Byte) (a b : ℕ) : ℕ → Byte := fun i => if a ≤ i ∧ i < b then 0 else buf i

theorem clear_self (buf : ℕ → Byte) (a : ℕ) : clear buf a a = buf := by
  funext i
  exact if_neg (by omega)

theorem clear_update {a b : ℕ} (hab : a ≤ b) :
    clear (Function.update buf b 0) a b = clear buf a (b + 1) := by
  funext i
  rw [clear, clear]
  rcases eq_or_ne i b with rfl | hi
  · rw [if_neg (by omega), if_pos (by omega), Function.update_self]
  · rw [Function.update_of_ne hi]
    by_cases hin : a ≤ i ∧ i < b
    · rw [if_pos hin, if_pos (by omega)]
    · rw [if_neg hin, if_neg (by omega)]

theorem prefix_body (t : List Byte) : body t <+: t := List.rdropWhile_prefix _ t

theorem length_body_le (t : List Byte) : (body t).length ≤ t.length := (prefix_body t).length_le

theorem length_blank (t : List Byte) : (blank t).length = t.length := by
  have := length_body_le t
  rw [blank, List.length_append, List.length_replicate]
  omega

theorem body_concat (t : List Byte) (x : Byte) :
    body (t ++ [x]) = if x = code ' ' then body t else t ++ [x] := by
  rw [body, List.rdropWhile_concat]
  simp only [decide_eq_true_eq]
  rfl

theorem Handler.skipWhile_eq {p : Byte → Bool} (ht : Holds h.buf i t) (hp : ∀ x ∈ t, p x = true)
    (hstop : p (h.buf (i + t.length)) = false) (hlen : i + t.length < bufLen) (hn : t.length < n) :
    skipWhile p n i h = (i + t.length, h) := by
  induction t generalizing i n with
  | nil =>
      obtain _ | n := n
      · cases hn
      rw [List.length_nil, Nat.add_zero] at hstop hlen ⊢
      rw [skipWhile, touch_eq hlen]
      simp only [hstop, Bool.false_eq_true, if_false, Nat.add_zero]
  | cons x t ih =>
      obtain _ | n := n
      · cases hn
      rw [List.length_cons] at hstop hlen hn ⊢
      obtain ⟨hx, ht'⟩ := holds_cons.mp ht
      rw [skipWhile, touch_eq (by omega)]
      simp only [hx, hp x List.mem_cons_self, if_true]
      rw [ih ht' (fun y hy => hp y (List.mem_cons_of_mem _ hy)) (by rwa [Nat.add_assoc,
        Nat.add_comm 1]) (by omega) (by omega), Nat.add_assoc, Nat.add_comm 1]

theorem Handler.trimBack_eq (ht : Holds h.buf s t) (hlen : s + t.length ≤ bufLen) :
    trimBack s t.length h =
      { h with buf := clear h.buf (s + (body t).length) (s + t.length) } := by
  induction t using List.reverseRecOn generalizing h with
  | nil =>
      rw [List.length_nil, trimBack, show body [] = [] from rfl, List.length_nil, clear_self]
  | append_singleton t x ih =>
      rw [List.length_append, List.length_singleton] at hlen ⊢
      obtain ⟨ht', hx⟩ := holds_append.mp ht
      have hat : h.buf (s + t.length) = x := (holds_cons.mp hx).1
      rw [trimBack, touch_eq (by omega)]
      simp only [hat]
      have hle := length_body_le t
      rw [body_concat]
      split
      · rw [put, touch_eq (by omega)]
        have hrest : Holds (Function.update h.buf (s + t.length) 0) s t :=
          ht'.congr fun i _ hi => Function.update_of_ne (by omega) ..
        rw [ih (h := { h with buf := Function.update h.buf (s + t.length) 0 }) hrest (by omega)]
        simp only
        rw [clear_update (by omega), Nat.add_assoc]
      · rw [List.length_append, List.length_singleton, clear_self]

/-- The spaces in front of a string. -/
def leading (t : List Byte) : ℕ := (t.takeWhile (· = code ' ')).length

theorem holds_blank (ht : Holds buf s t) :
    Holds (clear buf (s + (body t).length) (s + t.length)) s (blank t) := by
  have hle := length_body_le t
  obtain ⟨u, hu⟩ := prefix_body t
  have hsplit := ht
  rw [← hu, holds_append] at hsplit
  rw [blank, holds_append]
  refine ⟨hsplit.1.congr fun i _ hi => if_neg fun hin => by omega, fun i x hx => ?_⟩
  · obtain ⟨hi, hx⟩ := List.getElem?_eq_some_iff.mp hx
    rw [List.length_replicate] at hi
    rw [List.getElem_replicate] at hx
    rw [clear, if_pos (by omega), hx]

/-- **`Str.trim`.** -/
theorem Handler.trim_eq (ht : StrAt h.buf s t) (hlen : s + t.length < bufLen) :
    h.trim s = (s + leading t,
      { h with buf := clear h.buf (s + (body t).length) (s + t.length) }) := by
  obtain ⟨hbytes, hend⟩ := holds_append.mp ht.holds
  have hzero : h.buf (s + t.length) = 0 := (holds_cons.mp hend).1
  have hlead : t.takeWhile (· = code ' ') ++ t.dropWhile (· = code ' ') = t :=
    List.takeWhile_append_dropWhile
  have hle : leading t ≤ t.length := (List.takeWhile_prefix _).length_le
  have hfront : skipWhile (· = code ' ') (bufLen + 1) s h = (s + leading t, h) := by
    rw [← hlead] at hbytes
    refine skipWhile_eq (holds_append.mp hbytes).1 (fun x hx => ?_) ?_
      (by rw [leading] at hle; omega) (by rw [leading] at hle; omega)
    · exact List.mem_takeWhile_imp (p := (· = code ' ')) hx
    -- the first byte behind the spaces, or the terminator
    obtain hnil | ⟨y, l, hcons⟩ : t.dropWhile (· = code ' ') = [] ∨
        ∃ y l, t.dropWhile (· = code ' ') = y :: l := by
      cases t.dropWhile (· = code ' ') with
      | nil => exact .inl rfl
      | cons y l => exact .inr ⟨y, l, rfl⟩
    · rw [hnil, List.append_nil] at hlead
      rw [hlead, hzero]
      decide
    · rw [hcons] at hbytes
      rw [(holds_cons.mp (holds_append.mp hbytes).2).1]
      have hhead := List.head_dropWhile_not (l := t) (· = code ' ') (by simp [hcons])
      simpa only [hcons, List.head_cons] using hhead
  have hback : skipWhile (· ≠ 0) (bufLen + 1) s h = (s + t.length, h) := by
    refine skipWhile_eq (holds_append.mp ht.holds).1 (fun x hx => ?_) ?_ hlen (by omega)
    · exact decide_eq_true (ht.nonzero x hx)
    · rw [hzero]
      rfl
  rw [trim, hfront]
  simp only
  rw [hback]
  simp only
  rw [Nat.add_sub_cancel_left, trimBack_eq (holds_append.mp ht.holds).1 (by omega)]

/-- The spaces in front are those of the string without its end, unless there is nothing else. -/
theorem leading_cases (t : List Byte) :
    body t = [] ∧ leading t = t.length ∨ leading t = leading (body t) := by
  have hsplit : body t ++ t.rtakeWhile (· = code ' ') = t := List.rdropWhile_append_rtakeWhile ..
  have hspaces : (t.rtakeWhile (· = code ' ')).takeWhile (· = code ' ') =
      t.rtakeWhile (· = code ' ') :=
    List.takeWhile_eq_self_iff.mpr fun x hx =>
      List.mem_rtakeWhile_imp (p := (· = code ' ')) hx
  by_cases hall : ((body t).takeWhile (· = code ' ')).length = (body t).length
  · left
    have hbody : body t = [] := by
      by_contra hne
      have hlast := List.rdropWhile_last_not (· = code ' ') t hne
      have hself := (List.takeWhile_prefix (l := body t) (· = code ' ')).eq_of_length hall
      exact hlast (List.takeWhile_eq_self_iff.mp hself _ (List.getLast_mem hne))
    refine ⟨hbody, ?_⟩
    rw [hbody, List.nil_append] at hsplit
    rw [hsplit] at hspaces
    rw [leading, hspaces]
  · right
    conv_lhs => rw [leading, ← hsplit, List.takeWhile_append, if_neg hall]
    rfl

/-- **What is trimmed is what is left.** -/
theorem strAt_strip (ht : StrAt buf s t) :
    StrAt (clear buf (s + (body t).length) (s + t.length)) (s + leading t) (strip t) ∧
      leading t + (strip t).length ≤ t.length := by
  obtain ⟨hbytes, hend⟩ := holds_append.mp ht.holds
  have hle := length_body_le t
  have hzero : clear buf (s + (body t).length) (s + t.length) (s + t.length) = 0 := by
    rw [clear, if_neg (by omega)]
    exact (holds_cons.mp hend).1
  obtain ⟨hnil, hlead⟩ | hlead := leading_cases t
  · have hstrip : strip t = [] := by rw [strip, hnil]; rfl
    rw [hstrip, hlead]
    exact ⟨⟨holds_cons.mpr ⟨hzero, holds_nil⟩, by simp⟩, le_rfl⟩
  · have hsplit : (body t).takeWhile (· = code ' ') ++ strip t = body t :=
      List.takeWhile_append_dropWhile
    have hlen := congrArg List.length hsplit
    rw [List.length_append] at hlen
    have hblank := holds_append.mp (holds_blank hbytes)
    have hstrip := hblank.1
    rw [← hsplit, holds_append, hsplit] at hstrip
    rw [hlead]
    refine ⟨⟨holds_append.mpr ⟨hstrip.2, ?_⟩, fun x hx => ?_⟩, by rw [leading]; omega⟩
    · refine holds_cons.mpr ⟨?_, holds_nil⟩
      rcases hle.lt_or_eq with hlt | heq
      · rw [leading, clear, if_pos (by omega)]
      · rw [← hzero, leading]
        congr 1
        omega
    · refine ht.nonzero x ((prefix_body t).subset ?_)
      rw [← hsplit]
      exact List.mem_append_right _ hx

theorem StrAt.congr (h : StrAt buf s t)
    (heq : ∀ i, s ≤ i → i ≤ s + t.length → buf' i = buf i) : StrAt buf' s t := by
  refine ⟨h.holds.congr fun i hi hlt => heq i hi ?_, h.nonzero⟩
  rw [List.length_append, List.length_singleton] at hlt
  omega

/-! ### A line -/

/-- What a parse leaves alone. -/
structure Kept (h h' : Handler) : Prop where
  pos : h'.pos = h.pos
  cur : h.cur ≤ h'.cur
  le : h'.cur ≤ h'.pos
  closed : h'.closed = h.closed
  uriBuf : h'.uriBuf = h.uriBuf
  path : h'.req.path = h.req.path
  before : ∀ i < h.cur, h'.buf i = h.buf i
  behind : ∀ i, h.pos ≤ i → h'.buf i = h.buf i

theorem Kept.refl (hw : Window h l) : Kept h h :=
  ⟨rfl, le_rfl, by have := hw.pos; omega, rfl, rfl, rfl, fun _ _ => rfl, fun _ _ => rfl⟩

theorem Kept.trans {h h' h'' : Handler} (hk : Kept h h') (hk' : Kept h' h'') : Kept h h'' where
  pos := hk'.pos.trans hk.pos
  cur := hk.cur.trans hk'.cur
  le := hk'.le
  closed := hk'.closed.trans hk.closed
  uriBuf := hk'.uriBuf.trans hk.uriBuf
  path := hk'.path.trans hk.path
  before i hi := (hk'.before i (hi.trans_le hk.cur)).trans (hk.before i hi)
  behind i hi := (hk'.behind i (hk.pos.trans_le hi)).trans (hk.behind i hi)

/-- A string lies in front of the cursor. -/
def Lies (h : Handler) (s : Option ℕ) (t : List Byte) : Prop :=
  ∃ a, s = some a ∧ StrAt h.buf a t ∧ a + t.length < h.cur

theorem Lies.kept {h h' : Handler} {s : Option ℕ} (hs : Lies h s t) (hk : Kept h h') :
    Lies h' s t := by
  obtain ⟨a, rfl, hat, hlt⟩ := hs
  exact ⟨a, rfl, hat.congr fun i _ hi => hk.before i (by omega), hlt.trans_le hk.cur⟩

/-- The request-line is left alone. -/
structure SameLine (h h' : Handler) : Prop where
  method : h'.req.method = h.req.method
  uri : h'.req.uri = h.req.uri
  version : h'.req.version = h.req.version

theorem SameLine.trans {h h' h'' : Handler} (hs : SameLine h h') (hs' : SameLine h' h'') :
    SameLine h h'' :=
  ⟨hs'.method.trans hs.method, hs'.uri.trans hs.uri, hs'.version.trans hs.version⟩

section

variable {name value : List Byte} {c d y : Byte} {a : ℕ}

/-- The buffer when the separators of a line have been replaced. -/
def split (buf : ℕ → Byte) (a n v : ℕ) : ℕ → Byte :=
  Function.update (Function.update buf (a + n) 0) (a + n + 1 + v) 0

/-- The buffer when the line has been trimmed too. -/
def trimmed (buf : ℕ → Byte) (a : ℕ) (name value : List Byte) : ℕ → Byte :=
  clear (clear (split buf a name.length value.length) (a + (body name).length) (a + name.length))
    (a + name.length + 1 + (body value).length) (a + name.length + 1 + value.length)

theorem split_eq {n v : ℕ} (hi : i ≠ a + n) (hi' : i ≠ a + n + 1 + v) :
    split buf a n v i = buf i := by
  rw [split, Function.update_of_ne hi', Function.update_of_ne hi]

theorem strAt_split (hb : Holds buf a (name ++ c :: (value ++ d :: r)))
    (hn : ∀ x ∈ name, x ≠ 0) (hv : ∀ x ∈ value, x ≠ 0) :
    StrAt (split buf a name.length value.length) a name ∧
      StrAt (split buf a name.length value.length) (a + name.length + 1) value := by
  obtain ⟨hname, hb⟩ := holds_append.mp hb
  obtain ⟨hvalue, -⟩ := holds_append.mp (holds_cons.mp hb).2
  refine ⟨⟨holds_append.mpr ⟨hname.congr fun i _ hi => split_eq (by omega) (by omega),
    holds_cons.mpr ⟨?_, holds_nil⟩⟩, hn⟩, ⟨holds_append.mpr ⟨hvalue.congr fun i hi hi' =>
      split_eq (by omega) (by omega), holds_cons.mpr ⟨?_, holds_nil⟩⟩, hv⟩⟩
  · rw [split, Function.update_of_ne (by omega), Function.update_self]
  · rw [split, Function.update_self]

theorem trimmed_eq (hi : i < a ∨ a + name.length + 1 + value.length < i) :
    trimmed buf a name value i = buf i := by
  rw [trimmed, clear, if_neg (by omega), clear, if_neg (by omega), split_eq (by omega) (by omega)]

/-- **A line that has been trimmed.** -/
theorem strAt_trimmed (hb : Holds buf a (name ++ c :: (value ++ d :: y :: r)))
    (hn : ∀ x ∈ name, x ≠ 0) (hv : ∀ x ∈ value, x ≠ 0) :
    StrAt (trimmed buf a name value) (a + leading name) (strip name) ∧
      StrAt (trimmed buf a name value) (a + name.length + 1 + leading value) (strip value) ∧
      Holds (trimmed buf a name value) a (blank name ++ 0 :: (blank value ++ [0, y])) := by
  obtain ⟨hname, hvalue⟩ := strAt_split hb hn hv
  obtain ⟨hstripn, hlen⟩ := strAt_strip hname
  have hvalue' : StrAt (clear (split buf a name.length value.length) (a + (body name).length)
      (a + name.length)) (a + name.length + 1) value :=
    hvalue.congr fun i hi _ => if_neg (by omega)
  have hlenv := length_body_le value
  have hafter : ∀ i, i ≤ a + name.length → trimmed buf a name value i =
      clear (split buf a name.length value.length) (a + (body name).length) (a + name.length) i :=
    fun i hi => if_neg (by omega)
  have hy : trimmed buf a name value (a + name.length + 1 + value.length + 1) = y := by
    rw [trimmed_eq (.inr (by omega))]
    obtain ⟨-, hb⟩ := holds_append.mp hb
    obtain ⟨-, hb⟩ := holds_append.mp (holds_cons.mp hb).2
    exact (holds_cons.mp (holds_cons.mp hb).2).1
  obtain ⟨hn', hzero⟩ := holds_append.mp hname.holds
  obtain ⟨hv', hzero'⟩ := holds_append.mp hvalue'.holds
  refine ⟨hstripn.congr fun i _ hi => hafter i (by omega), (strAt_strip hvalue').1,
    holds_append.mpr ⟨(holds_blank hn').congr fun i _ hi => hafter i ?_, ?_⟩⟩
  · rw [length_blank] at hi
    omega
  · rw [length_blank]
    refine holds_cons.mpr ⟨?_, holds_append.mpr ⟨holds_blank hv', ?_⟩⟩
    · rw [hafter _ le_rfl, clear, if_neg (by omega)]
      exact (holds_cons.mp hzero).1
    · rw [length_blank]
      refine holds_cons.mpr ⟨?_, holds_cons.mpr ⟨hy, holds_nil⟩⟩
      rw [trimmed, clear, if_neg (by omega)]
      exact (holds_cons.mp hzero').1

end

theorem nonzero_of_cut (hcut : cut 0 sep l = some (t, r)) : ∀ x ∈ t, x ≠ 0 :=
  fun x hx => (not_sep_of_cut hcut x hx).2

/-- A token that is found, with what is left behind it. -/
theorem Handler.token_cut {c : Byte} (hw : Window h (t ++ c :: r)) (hpos : h.pos ≤ bufLen)
    (hcut : cut 0 sep (t ++ c :: r) = some (t, r)) :
    h.token sep = (some h.cur, h.mark (h.cur + t.length)) ∧
      Window (h.mark (h.cur + t.length)) r :=
  ⟨token_some hw hpos hcut, hw.mark⟩

theorem holds_mark {buf : ℕ → Byte} {a : ℕ} {t r : List Byte} {c : Byte}
    (hb : Holds buf a (t ++ c :: r)) :
    Holds (Function.update buf (a + t.length) 0) a (t ++ 0 :: r) := by
  obtain ⟨ht, hr⟩ := holds_append.mp hb
  refine holds_append.mpr ⟨ht.congr fun i _ hi => Function.update_of_ne (by omega) ..,
    holds_cons.mpr ⟨Function.update_self .., ?_⟩⟩
  exact (holds_cons.mp hr).2.congr fun i hi _ => Function.update_of_ne (by omega) ..

theorem holds_split {buf : ℕ → Byte} {a : ℕ} {name value r : List Byte} {c d : Byte}
    (hb : Holds buf a (name ++ c :: (value ++ d :: r))) :
    Holds (split buf a name.length value.length) a (name ++ 0 :: (value ++ 0 :: r)) := by
  have hfirst := holds_mark hb
  have hlen : a + name.length + 1 + value.length = a + (name ++ 0 :: value).length := by
    rw [List.length_append, List.length_cons]
    omega
  have hassoc : ∀ x, name ++ 0 :: (value ++ x :: r) = (name ++ 0 :: value) ++ x :: r :=
    fun x => by simp
  rw [hassoc] at hfirst ⊢
  rw [split, hlen]
  exact holds_mark hfirst

/-- **A line that is complete.** -/
theorem Handler.parameter_some {name value : List Byte} (hw : Window h l) (hpos : h.pos ≤ bufLen)
    (hline : line l = some ((name, value), r)) :
    h.parameter = (true,
      { h with
        cur := h.cur + name.length + 1 + value.length + 1 + 1
        buf := trimmed h.buf h.cur name value
        req.params :=
          { size := if h.req.params.size < paramsMax then h.req.params.size + 1 else h.req.params.size
            names := Function.update h.req.params.names h.req.params.size
              (some (h.cur + leading name))
            values := Function.update h.req.params.values h.req.params.size
              (some (h.cur + name.length + 1 + leading value)) }
        inside := h.inside && decide (h.req.params.size < paramsMax) }) := by
  obtain ⟨c, d, rfl, hname, hvalue⟩ := line_eq_some hline
  dsimp only at hname hvalue hw
  obtain ⟨htok, hw₁⟩ := token_cut hw hpos hname
  have hlen := hw.pos
  simp only [List.length_append, List.length_cons] at hlen
  obtain ⟨htok₂, hw₂⟩ := token_cut (h := (h.mark (h.cur + name.length)).putName h.req.params.size
    (some h.cur)) ⟨hw₁.pos, hw₁.holds⟩ hpos hvalue
  -- the handler behind the second separator, and behind the line
  generalize hh₂ : ((h.mark (h.cur + name.length)).putName h.req.params.size (some h.cur)) = h₂ at htok₂ hw₂
  have hcur₂ : h₂.cur = h.cur + name.length + 1 := by rw [← hh₂]; rfl
  generalize hh₃ : (h₂.mark (h₂.cur + value.length)).putValue h.req.params.size (some h₂.cur) = h₃
  have hcur₃ : h₃.cur = h.cur + name.length + 1 + value.length + 1 := by
    rw [← hh₃, ← hcur₂]; rfl
  have hbuf₃ : h₃.buf = split h.buf h.cur name.length value.length := by
    rw [← hh₃, split, ← hcur₂, ← hh₂]; rfl
  have hpos₃ : h₃.pos = h.pos := by rw [← hh₃, ← hh₂]; rfl
  have hw₃ : Window h₃ (code '\n' :: r) := by rw [← hh₃]; exact ⟨hw₂.pos, hw₂.holds⟩
  have heol : h₃.consume (code '\n') = _ := consume_cons hw₃ (hpos₃.trans_le hpos)
  rw [if_pos rfl] at heol
  obtain ⟨hn, hv⟩ := strAt_split hw.holds (nonzero_of_cut hname) (nonzero_of_cut hvalue)
  have htrim := trim_eq (h := { h₃ with cur := h₃.cur + 1 }) (hbuf₃ ▸ hn) (by omega)
  have htrim₂ := trim_eq (s := h₂.cur) (t := value) (h := ({ h₃ with
      cur := h₃.cur + 1
      buf := clear h₃.buf (h.cur + (body name).length) (h.cur + name.length) } : Handler).putName
        h.req.params.size (some (h.cur + leading name)))
    (by
      rw [hcur₂]
      exact hv.congr fun i hi _ => hbuf₃ ▸ if_neg (by omega))
    (by omega)
  simp only [parameter, htok, hh₂, htok₂, hh₃, heol, htrim, htrim₂, Bool.not_true,
    Bool.false_eq_true, if_false]
  have hidem : ∀ b : Bool, (((h.inside && b) && b) && b && b) = (h.inside && b) := by
    rintro (_ | _) <;> simp
  subst hh₃ hh₂
  simp only [mark, putName, putValue, Function.update_idem, trimmed, split, hidem]
  split <;> rfl

/-- **A line that is not.** -/
theorem Handler.parameter_none (hw : Window h (x :: l)) (hpos : h.pos ≤ bufLen)
    (hx : x ≠ code '\r') (hline : line (x :: l) = none) :
    ∃ h', h.parameter = (false, h') ∧ Kept h h' ∧
      Holds h'.buf h.cur (spendLines (n + 1) (x :: l)) ∧
      h'.inside = (h.inside && decide (h.req.params.size < paramsMax)) := by
  have hlen := hw.pos
  have hidem : ∀ b : Bool, ((h.inside && b) && b) = (h.inside && b) := by
    rintro (_ | _) <;> simp
  rw [line] at hline
  cases hname : cut 0 (code ':') (x :: l) with
  | none =>
      have htok := token_none hw hpos hname
      have htok₂ : (({ h with cur := h.pos } : Handler).putName h.req.params.size none).token
          (code '\r') = (none, _) :=
        token_none (l := []) ⟨rfl, holds_nil⟩ hpos rfl
      simp only [parameter, htok, htok₂]
      refine ⟨_, rfl, ⟨rfl, by change h.cur ≤ h.pos; omega, le_rfl, rfl, rfl, rfl, fun _ _ => rfl,
        fun _ _ => rfl⟩, ?_, hidem _⟩
      simp only [spendLines, hx, hname, if_false]
      exact hw.holds
  | some p =>
  obtain ⟨name, l₁⟩ := p
  obtain ⟨c, -, hl, -⟩ := cut_eq_some_iff.mp hname
  rw [hl] at hw hlen
  have hname' := hl ▸ hname
  obtain ⟨htok, hw₁⟩ := token_cut hw hpos hname'
  simp only [hname] at hline
  simp only [List.length_append, List.length_cons] at hlen
  generalize hh₂ : ((h.mark (h.cur + name.length)).putName h.req.params.size (some h.cur)) = h₂
  have hw₂ : Window h₂ l₁ := by rw [← hh₂]; exact ⟨hw₁.pos, hw₁.holds⟩
  have hcur₂ : h₂.cur = h.cur + name.length + 1 := by rw [← hh₂]; rfl
  have hpos₂ : h₂.pos = h.pos := by rw [← hh₂]; rfl
  cases hvalue : cut 0 (code '\r') l₁ with
  | none =>
      have htok₂ := token_none hw₂ (hpos₂.trans_le hpos) hvalue
      simp only [parameter, htok, hh₂, htok₂]
      subst hh₂
      refine ⟨_, rfl, ⟨rfl, ?_, le_rfl, rfl, rfl, rfl, fun i hi => ?_, fun i hi => ?_⟩, ?_, hidem _⟩
      · change h.cur ≤ h.pos
        omega
      · exact Function.update_of_ne (by omega) ..
      · exact Function.update_of_ne (by omega) ..
      · simp only [spendLines, hx, hname, hvalue, if_false]
        exact holds_mark hw.holds
  | some p =>
      obtain ⟨value, l₂⟩ := p
      obtain ⟨d, -, rfl, -⟩ := cut_eq_some_iff.mp hvalue
      obtain ⟨htok₂, hw₃⟩ := token_cut hw₂ (hpos₂.trans_le hpos) hvalue
      generalize hh₃ : (h₂.mark (h₂.cur + value.length)).putValue h.req.params.size
        (some h₂.cur) = h₃
      have hw₃' : Window h₃ l₂ := by rw [← hh₃]; exact ⟨hw₃.pos, hw₃.holds⟩
      have hpos₃ : h₃.pos = h.pos := by rw [← hh₃]; exact hpos₂
      have hbuf₃ : h₃.buf = split h.buf h.cur name.length value.length := by
        rw [← hh₃, split, ← hcur₂, ← hh₂]
        rfl
      -- the end of the line is missing
      have heol : h₃.consume (code '\n') = (false, h₃) := by
        obtain _ | ⟨y, l₂⟩ := l₂
        · exact consume_nil hw₃'
        · rw [consume_cons hw₃' (hpos₃.trans_le hpos), if_neg]
          rintro rfl
          simp only [hvalue, if_true] at hline
          cases hline
      have hspend : spendLines (n + 1) (x :: l) = name ++ 0 :: (value ++ 0 :: l₂) := by
        obtain _ | ⟨y, l₂⟩ := l₂
        · simp only [spendLines, hx, hname, hvalue, if_false]
        · have hy : y ≠ code '\n' := by
            rintro rfl
            simp only [hvalue, if_true] at hline
            cases hline
          simp only [spendLines, hx, hname, hvalue, hy, if_false]
      simp only [List.length_append, List.length_cons] at hlen
      simp only [parameter, htok, hh₂, htok₂, hh₃, heol, Bool.not_false, if_true]
      refine ⟨h₃, rfl, ⟨hpos₃, ?_, ?_, ?_, ?_, ?_, fun i hi => ?_, fun i hi => ?_⟩, ?_, ?_⟩
      · rw [← hh₃]
        change h.cur ≤ h₂.cur + value.length + 1
        omega
      · rw [hpos₃, ← hh₃]
        change h₂.cur + value.length + 1 ≤ h.pos
        omega
      · rw [← hh₃, ← hh₂]; rfl
      · rw [← hh₃, ← hh₂]; rfl
      · rw [← hh₃, ← hh₂]; rfl
      · rw [hbuf₃]
        exact split_eq (by omega) (by omega)
      · rw [hbuf₃]
        exact split_eq (by omega) (by omega)
      · rw [hbuf₃, hspend]
        exact holds_split hw.holds
      · rw [← hh₃, ← hh₂]
        exact hidem _

/-! ### The lines -/

/-- The lines are in the parameters, as far as there is room. -/
structure Recorded (h : Handler) (lines : List Line) : Prop where
  size : h.req.params.size = min lines.length paramsMax
  lies (j : ℕ) (l : Line) (hj : j < paramsMax) (hl : lines[j]? = some l) :
    Lies h (h.req.params.names j) (strip l.1) ∧ Lies h (h.req.params.values j) (strip l.2)

/-- The part of `parse` from the parameters on. -/
def Handler.finish (n : ℕ) (h : Handler) : Bool × Handler :=
  let (complete, h) := parameters n h
  if !complete then (false, h)
  else
    let (cr, h) := h.consume (code '\r')
    if !cr then (false, h) else h.consume (code '\n')

/-- The handler behind a line. -/
theorem Handler.parameter_line {line' : Line} {lines : List Line} (hw : Window h l)
    (hpos : h.pos ≤ bufLen) (hline : line l = some (line', r)) (hrec : Recorded h lines) :
    ∃ h', h.parameter = (true, h') ∧ Kept h h' ∧ SameLine h h' ∧ Window h' r ∧
      Recorded h' (lines ++ [line']) ∧
      Holds h'.buf h.cur (blank line'.1 ++ 0 :: (blank line'.2 ++ [0, code '\n'])) ∧
      h'.cur = h.cur + line'.1.length + 1 + line'.2.length + 1 + 1 ∧
      h'.inside = (h.inside && decide (h.req.params.size < paramsMax)) := by
  obtain ⟨name, value⟩ := line'
  have hrun := parameter_some hw hpos hline
  obtain ⟨c, d, hl, hname, hvalue⟩ := line_eq_some hline
  dsimp only at hl hname hvalue
  have hlen := hw.pos
  have hbytes := hw.holds
  rw [hl] at hlen hbytes
  simp only [List.length_append, List.length_cons] at hlen
  obtain ⟨hn, hv, hholds⟩ := strAt_trimmed hbytes (nonzero_of_cut hname) (nonzero_of_cut hvalue)
  generalize hh' : ({ h with
    cur := h.cur + name.length + 1 + value.length + 1 + 1
    buf := trimmed h.buf h.cur name value
    req.params :=
      { size := if h.req.params.size < paramsMax then h.req.params.size + 1 else h.req.params.size
        names := Function.update h.req.params.names h.req.params.size (some (h.cur + leading name))
        values := Function.update h.req.params.values h.req.params.size
          (some (h.cur + name.length + 1 + leading value)) }
    inside := h.inside && decide (h.req.params.size < paramsMax) } : Handler) = h' at hrun
  have hcur : h'.cur = h.cur + name.length + 1 + value.length + 1 + 1 := by rw [← hh']
  have hbuf : h'.buf = trimmed h.buf h.cur name value := by rw [← hh']
  have hpos' : h'.pos = h.pos := by rw [← hh']
  have hparams : h'.req.params =
      { size := if h.req.params.size < paramsMax then h.req.params.size + 1 else h.req.params.size
        names := Function.update h.req.params.names h.req.params.size (some (h.cur + leading name))
        values := Function.update h.req.params.values h.req.params.size
          (some (h.cur + name.length + 1 + leading value)) } := by rw [← hh']
  have hkept : Kept h h' := by
    refine ⟨hpos', by omega, by omega, ?_, ?_, ?_, fun i hi => ?_, fun i hi => ?_⟩
    · rw [← hh']
    · rw [← hh']
    · rw [← hh']
    · rw [hbuf]
      exact trimmed_eq (.inl hi)
    · rw [hbuf]
      exact trimmed_eq (.inr (by omega))
  have hstrip : ∀ t : List Byte, leading t + (strip t).length ≤ t.length := by
    intro t
    have hbody := length_body_le t
    have hsplit := congrArg List.length
      (List.takeWhile_append_dropWhile (p := (· = code ' ')) (l := body t))
    rw [List.length_append] at hsplit
    obtain ⟨hnil, hlead⟩ | hlead := leading_cases t
    · rw [hlead, strip, hnil]
      exact le_rfl
    · rw [hlead, leading, strip]
      omega
  refine ⟨h', hrun, hkept, ?_, ⟨?_, ?_⟩, ⟨?_, fun j l' hj hl' => ?_⟩, hbuf ▸ hholds, hcur, ?_⟩
  · rw [← hh']
    exact ⟨rfl, rfl, rfl⟩
  · rw [hpos', hcur]
    omega
  · have hr := (holds_append.mp hbytes).2
    have hr := (holds_append.mp (holds_cons.mp hr).2).2
    have hr := (holds_cons.mp (holds_cons.mp hr).2).2
    rw [hcur, hbuf]
    exact hr.congr fun i hi _ => trimmed_eq (.inr (by omega))
  · rw [hparams, List.length_append, List.length_singleton, hrec.size]
    dsimp only
    split <;> omega
  · have hsize := hrec.size
    have hnlen := hstrip name
    have hvlen := hstrip value
    obtain hlt | hge := Nat.lt_or_ge j lines.length
    · rw [List.getElem?_append_left hlt] at hl'
      obtain ⟨hjn, hjv⟩ := hrec.lies j l' hj hl'
      have hne : j ≠ h.req.params.size := by omega
      rw [hparams]
      dsimp only
      rw [Function.update_of_ne hne, Function.update_of_ne hne]
      exact ⟨hjn.kept hkept, hjv.kept hkept⟩
    · have hj' : j = lines.length := by
        obtain ⟨hlt, -⟩ := List.getElem?_eq_some_iff.mp hl'
        rw [List.length_append, List.length_singleton] at hlt
        omega
      have heq : h.req.params.size = j := by omega
      rw [hj', List.getElem?_concat_length] at hl'
      cases hl'
      rw [hparams]
      dsimp only
      rw [heq, Function.update_self, Function.update_self]
      exact ⟨⟨_, rfl, hbuf ▸ hn, by omega⟩, ⟨_, rfl, hbuf ▸ hv, by omega⟩⟩
  · rw [← hh']

/-- **The lines of a request.** -/
theorem Handler.finish_spec (method uri version : List Byte) (n : ℕ) {lines : List Line}
    (hw : Window h l) (hpos : h.pos ≤ bufLen) (hrec : Recorded h lines) :
    ∃ ok h', finish n h = (ok, h') ∧ Kept h h' ∧ Holds h'.buf h.cur (spendLines n l) ∧
      (begun (headers method uri version n lines l).1 ≤ paramsMax → h'.inside = h.inside) ∧
      (∀ w, (headers method uri version n lines l).1 = .error w → ok = false) ∧
      ∀ t, (headers method uri version n lines l).1 = .ok t →
        ok = true ∧ SameLine h h' ∧ Recorded h' t.lines := by
  induction n generalizing h l lines with
  | zero =>
      refine ⟨false, h, rfl, Kept.refl hw, hw.holds, fun _ => rfl, fun _ _ => rfl, ?_⟩
      rintro t ht
      cases ht
  | succ n ih =>
      have hlen := hw.pos
      obtain _ | ⟨x, l⟩ := l
      · -- nothing is left
        have hend : h.pos ≤ h.cur := hlen.le
        refine ⟨false, h, ?_, Kept.refl hw, hw.holds, fun _ => rfl, fun _ _ => rfl, ?_⟩
        · simp only [finish, parameters, if_pos hend, consume_nil hw, Bool.not_true, Bool.not_false,
            Bool.false_eq_true, if_false, if_true]
        · rintro t ht
          cases ht
      rw [List.length_cons] at hlen
      have hmore : ¬ h.pos ≤ h.cur := by omega
      have htouch : h.touch h.cur = h := touch_eq (by omega)
      have hat : h.buf h.cur = x := (holds_cons.mp hw.holds).1
      by_cases hx : x = code '\r'
      · -- the lines end
        subst hx
        have hcr : h.consume (code '\r') = (true, { h with cur := h.cur + 1 }) := by
          rw [consume_cons hw hpos, if_pos rfl]
        have hrun : finish (n + 1) h =
            Handler.consume { h with cur := h.cur + 1 } (code '\n') := by
          simp only [finish, parameters, if_neg hmore, htouch, hat, if_true, hcr, Bool.not_true,
            Bool.false_eq_true, if_false]
        have hspend : Holds h.buf h.cur (spendLines (n + 1) (code '\r' :: l)) := by
          rw [spendLines_cr]
          exact hw.holds
        have hstuck : ∀ hne : ∀ l', l ≠ code '\n' :: l',
            (finish (n + 1) h) = (false, { h with cur := h.cur + 1 }) := by
          intro hne
          rw [hrun]
          obtain _ | ⟨y, l⟩ := l
          · exact consume_nil hw.tail
          · rw [consume_cons hw.tail hpos, if_neg]
            rintro rfl
            exact hne l rfl
        by_cases hend : ∃ l', l = code '\n' :: l'
        · obtain ⟨l', rfl⟩ := hend
          have hkept : Kept h { h with cur := h.cur + 1 + 1 } := by
            rw [List.length_cons] at hlen
            exact ⟨rfl, by change h.cur ≤ h.cur + 1 + 1; omega,
              by change h.cur + 1 + 1 ≤ h.pos; omega, rfl, rfl, rfl, fun _ _ => rfl, fun _ _ => rfl⟩
          rw [headers_end]
          refine ⟨true, _, hrun.trans (by rw [consume_cons hw.tail hpos, if_pos rfl]), hkept, hspend,
            fun _ => rfl, ?_, ?_⟩ <;> rintro t ⟨⟩
          exact ⟨rfl, ⟨rfl, rfl, rfl⟩, hrec.size, fun j l' hj hl' =>
            ⟨(hrec.lies j l' hj hl').1.kept hkept, (hrec.lies j l' hj hl').2.kept hkept⟩⟩
        · have hne : ∀ l', l ≠ code '\n' :: l' := fun l' hl' => hend ⟨l', hl'⟩
          have hkept : Kept h { h with cur := h.cur + 1 } :=
            ⟨rfl, by change h.cur ≤ h.cur + 1; omega, by change h.cur + 1 ≤ h.pos; omega, rfl, rfl,
              rfl, fun _ _ => rfl, fun _ _ => rfl⟩
          rw [headers_unended hne]
          exact ⟨false, _, hstuck hne, hkept, hspend, fun _ => rfl, fun _ _ => rfl,
            fun t ht => by cases ht⟩
      cases hline : line (x :: l) with
      | none =>
          obtain ⟨h', hrun, hkept, hholds, hin⟩ := parameter_none (n := n) hw hpos hx hline
          rw [headers_stuck hx hline]
          refine ⟨false, h', ?_, hkept, hholds, fun hle => ?_, fun _ _ => rfl, fun t ht => ?_⟩
          · simp only [finish, parameters, if_neg hmore, htouch, hat, if_neg hx, hrun,
              Bool.not_false, Bool.false_eq_true, if_false, if_true]
          · have hsize := hrec.size
            change lines.length + 1 ≤ paramsMax at hle
            rw [hin, decide_eq_true (by omega), Bool.and_true]
          · cases ht
      | some p =>
          obtain ⟨line', r⟩ := p
          obtain ⟨h', hrun, hkept, hsame, hw', hrec', hholds, hcur, hin⟩ :=
            parameter_line hw hpos hline hrec
          obtain ⟨ok, h'', hrun', hkept', hholds', hin', herr, hok⟩ :=
            ih hw' (hkept.pos.trans_le hpos) hrec'
          rw [headers_line hx hline]
          refine ⟨ok, h'', ?_, hkept.trans hkept', ?_, fun hle => ?_, herr, fun t ht => ?_⟩
          · simp only [finish, parameters, if_neg hmore, htouch, hat, if_neg hx, hrun, if_true]
            exact hrun'
          · have hassoc : spendLines (n + 1) (x :: l) =
                (blank line'.1 ++ 0 :: (blank line'.2 ++ [0, code '\n'])) ++ spendLines n r := by
              rw [spendLines_line hx hline]
              simp
            have hend : h'.cur =
                h.cur + (blank line'.1 ++ 0 :: (blank line'.2 ++ [0, code '\n'])).length := by
              simp only [List.length_append, List.length_cons, List.length_nil, length_blank]
              omega
            rw [hassoc, holds_append, ← hend]
            exact ⟨hholds.congr fun i _ hi => hkept'.before i (by omega), hholds'⟩
          · have hsize := hrec.size
            have hknown := (@prefix_known method uri version n
              (lines ++ [line']) r).length_le
            rw [List.length_append, List.length_singleton] at hknown
            have hbegun := length_known_le (headers method uri version n (lines ++ [line']) r).1
            dsimp only at hle
            rw [hin' hle, hin, decide_eq_true (by omega), Bool.and_true]
          · obtain ⟨rfl, hsame', hrec''⟩ := hok t ht
            exact ⟨rfl, hsame.trans hsame', hrec''⟩

/-! ### The request-line -/

/-- A handler behind a token, which may have been stored. -/
theorem Kept.of_token {g : Handler} {c : Byte} (hw : Window h (t ++ c :: r))
    (hpos : g.pos = h.pos) (hcur : g.cur = h.cur + t.length + 1)
    (hbuf : g.buf = Function.update h.buf (h.cur + t.length) 0) (hclosed : g.closed = h.closed)
    (huri : g.uriBuf = h.uriBuf) (hpath : g.req.path = h.req.path) :
    Kept h g ∧ Window g r ∧ Holds g.buf h.cur (t ++ [0]) := by
  have hlen := hw.pos
  rw [List.length_append, List.length_cons] at hlen
  have hw' := hw.mark
  refine ⟨⟨hpos, by omega, by omega, hclosed, huri, hpath, fun i hi => ?_, fun i hi => ?_⟩,
    ⟨hpos.trans (hw'.pos.trans (by rw [hcur]; rfl)), ?_⟩, ?_⟩
  · rw [hbuf, Function.update_of_ne (by omega)]
  · rw [hbuf, Function.update_of_ne (by omega)]
  · rw [hcur, hbuf]
    exact hw'.holds
  · rw [hbuf]
    have := holds_mark hw.holds
    rw [show t ++ 0 :: r = (t ++ [0]) ++ r by simp, holds_append] at this
    exact this.1

/-- A handler that has run out of bytes. -/
theorem Kept.of_end {h' : Handler} (hw : Window h l) (hpos : h'.pos = h.pos) (hcur : h'.cur = h.pos)
    (hbuf : h'.buf = h.buf) (hclosed : h'.closed = h.closed) (huri : h'.uriBuf = h.uriBuf)
    (hpath : h'.req.path = h.req.path) : Kept h h' := by
  have := hw.pos
  exact ⟨hpos, by omega, by omega, hclosed, huri, hpath, fun _ _ => by rw [hbuf],
    fun _ _ => by rw [hbuf]⟩

/-- Behind a token, the buffer holds the token and what the rest of the parse leaves. -/
theorem holds_token {h h' h'' : Handler} {l' : List Byte} (hk : Kept h' h'')
    (hcur : h'.cur = h.cur + t.length + 1) (hb : Holds h'.buf h.cur (t ++ [0]))
    (hrest : Holds h''.buf h'.cur l') : Holds h''.buf h.cur (t ++ 0 :: l') := by
  have hassoc : t ++ 0 :: l' = (t ++ [0]) ++ l' := by simp
  have hlen : (t ++ [0]).length = t.length + 1 := by simp
  rw [hassoc, holds_append, hlen, ← Nat.add_assoc, ← hcur]
  exact ⟨hb.congr fun i _ hi => hk.before i (by omega), hrest⟩

theorem Lies.of_token {h' : Handler} {c : Byte}
    (hcut : cut 0 sep (t ++ c :: r) = some (t, r)) (hcur : h'.cur = h.cur + t.length + 1)
    (hb : Holds h'.buf h.cur (t ++ [0])) : Lies h' (some h.cur) t :=
  ⟨_, rfl, ⟨hb, nonzero_of_cut hcut⟩, by omega⟩

/-- **The request-line.** -/
theorem Handler.requestLine_spec (hw : Window h l) (hpos : h.pos ≤ bufLen) :
    (∃ h', h.requestLine = (false, h') ∧ Kept h h' ∧ Holds h'.buf h.cur (spend l) ∧
      h'.inside = h.inside ∧ (text l).1 = .error ⟨[], false⟩) ∨
    ∃ h' method uri version r, h.requestLine = (true, h') ∧ Kept h h' ∧ Window h' r ∧
      h'.inside = h.inside ∧ Lies h' h'.req.method method ∧ Lies h' h'.req.uri uri ∧
      Lies h' h'.req.version version ∧
      (text l).1 = (headers method uri version bufLen [] r).1 ∧
      ∀ h'', Kept h' h'' → Holds h''.buf h'.cur (spendLines bufLen r) →
        Holds h''.buf h.cur (spend l) := by
  cases hm : cut 0 (code ' ') l with
  | none =>
      have htok := token_none hw hpos hm
      refine .inl ⟨{ h with cur := h.pos, req.method := none }, ?_,
        Kept.of_end hw rfl rfl rfl rfl rfl rfl, ?_, rfl, ?_⟩
      · simp only [requestLine, htok, Option.isNone_none, if_true]
      · simp only [spend, hm]
        exact hw.holds
      · simp only [text, Rescan.token, hm]
  | some p =>
  obtain ⟨method, l₁⟩ := p
  obtain ⟨c₁, -, rfl, -⟩ := cut_eq_some_iff.mp hm
  have htok₁ := token_some hw hpos hm
  generalize hh₁ : ({ h.mark (h.cur + method.length) with req.method := some h.cur } : Handler) = h₁
  have hcur₁ : h₁.cur = h.cur + method.length + 1 := by rw [← hh₁]; rfl
  obtain ⟨hk₁, hw₁, hb₁⟩ := Kept.of_token (g := h₁) hw (by rw [← hh₁]; rfl) hcur₁
    (by rw [← hh₁]; rfl) (by rw [← hh₁]; rfl) (by rw [← hh₁]; rfl) (by rw [← hh₁]; rfl)
  have hpos₁ := hk₁.pos.trans_le hpos
  have hin₁ : h₁.inside = h.inside := by rw [← hh₁]; rfl
  have hreq₁ : h₁.req.method = some h.cur := by rw [← hh₁]
  cases hu : cut 0 (code ' ') l₁ with
  | none =>
      have htok₂ := token_none hw₁ hpos₁ hu
      have hk₂ : Kept h₁ { h₁ with cur := h₁.pos, req.uri := none } :=
        Kept.of_end hw₁ rfl rfl rfl rfl rfl rfl
      refine .inl ⟨{ h₁ with cur := h₁.pos, req.uri := none }, ?_, hk₁.trans hk₂, ?_, hin₁, ?_⟩
      · simp only [requestLine, htok₁, hh₁, htok₂, Option.isNone_none, Option.isNone_some,
          Bool.false_eq_true, if_false, if_true]
      · have hb := holds_token hk₂ hcur₁ hb₁ (show Holds _ h₁.cur l₁ from hw₁.holds)
        simp only [spend, hm, hu]
        exact hb
      · simp only [text, Rescan.token, hm, hu]
  | some p =>
  obtain ⟨uri, l₂⟩ := p
  obtain ⟨c₂, -, rfl, -⟩ := cut_eq_some_iff.mp hu
  have htok₂ := token_some hw₁ hpos₁ hu
  generalize hh₂ : ({ h₁.mark (h₁.cur + uri.length) with req.uri := some h₁.cur } : Handler) = h₂
  have hcur₂ : h₂.cur = h₁.cur + uri.length + 1 := by rw [← hh₂]; rfl
  obtain ⟨hk₂, hw₂, hb₂⟩ := Kept.of_token (g := h₂) hw₁ (by rw [← hh₂]; rfl) hcur₂
    (by rw [← hh₂]; rfl) (by rw [← hh₂]; rfl) (by rw [← hh₂]; rfl) (by rw [← hh₂]; rfl)
  have hpos₂ := hk₂.pos.trans_le hpos₁
  have hin₂ : h₂.inside = h.inside := by rw [← hh₂]; exact hin₁
  have hreq₂ : h₂.req.method = some h.cur ∧ h₂.req.uri = some h₁.cur := by
    rw [← hh₂]
    exact ⟨hreq₁, rfl⟩
  cases hv : cut 0 (code '\r') l₂ with
  | none =>
      have htok₃ := token_none hw₂ hpos₂ hv
      have hk₃ : Kept h₂ { h₂ with cur := h₂.pos, req.version := none } :=
        Kept.of_end hw₂ rfl rfl rfl rfl rfl rfl
      refine .inl ⟨{ h₂ with cur := h₂.pos, req.version := none }, ?_,
        hk₁.trans (hk₂.trans hk₃), ?_, hin₂, ?_⟩
      · simp only [requestLine, htok₁, hh₁, htok₂, hh₂, htok₃, Option.isNone_none,
          Option.isNone_some, Bool.false_eq_true, if_false, if_true]
      · have hb := holds_token (hk₂.trans hk₃) hcur₁ hb₁
          (holds_token hk₃ hcur₂ hb₂ (show Holds _ h₂.cur l₂ from hw₂.holds))
        simp only [spend, hm, hu, hv]
        exact hb
      · simp only [text, Rescan.token, hm, hu, hv]
  | some p =>
  obtain ⟨version, l₃⟩ := p
  obtain ⟨c₃, -, rfl, -⟩ := cut_eq_some_iff.mp hv
  have htok₃ := token_some hw₂ hpos₂ hv
  generalize hh₃ : ({ h₂.mark (h₂.cur + version.length) with
    req.version := some h₂.cur } : Handler) = h₃
  have hcur₃ : h₃.cur = h₂.cur + version.length + 1 := by rw [← hh₃]; rfl
  obtain ⟨hk₃, hw₃, hb₃⟩ := Kept.of_token (g := h₃) hw₂ (by rw [← hh₃]; rfl) hcur₃
    (by rw [← hh₃]; rfl) (by rw [← hh₃]; rfl) (by rw [← hh₃]; rfl) (by rw [← hh₃]; rfl)
  have hpos₃ := hk₃.pos.trans_le hpos₂
  have hin₃ : h₃.inside = h.inside := by rw [← hh₃]; exact hin₂
  have hreq₃ : h₃.req.method = some h.cur ∧ h₃.req.uri = some h₁.cur ∧
      h₃.req.version = some h₂.cur := by
    rw [← hh₃]
    exact ⟨hreq₂.1, hreq₂.2, rfl⟩
  have hrun : h.requestLine = h₃.consume (code '\n') := by
    simp only [requestLine, htok₁, hh₁, htok₂, hh₂, htok₃, hh₃, Option.isNone_some,
      Bool.false_eq_true, if_false]
  by_cases hend : ∃ r, l₃ = code '\n' :: r
  · obtain ⟨r, rfl⟩ := hend
    have hk₄ : Kept h₃ { h₃ with cur := h₃.cur + 1 } := by
      have := hw₃.pos
      rw [List.length_cons] at this
      exact ⟨rfl, by change h₃.cur ≤ h₃.cur + 1; omega, by change h₃.cur + 1 ≤ h₃.pos; omega, rfl,
        rfl, rfl, fun _ _ => rfl, fun _ _ => rfl⟩
    have hlies₁ : Lies h₁ (some h.cur) method := Lies.of_token hm hcur₁ hb₁
    have hlies₂ : Lies h₂ (some h₁.cur) uri := Lies.of_token hu hcur₂ hb₂
    have hlies₃ : Lies h₃ (some h₂.cur) version := Lies.of_token hv hcur₃ hb₃
    refine .inr ⟨{ h₃ with cur := h₃.cur + 1 }, method, uri, version, r, ?_,
      hk₁.trans (hk₂.trans (hk₃.trans hk₄)), hw₃.tail, hin₃, ?_, ?_, ?_, ?_, fun h'' hk hr => ?_⟩
    · rw [hrun, consume_cons hw₃ hpos₃, if_pos rfl]
    · change Lies _ h₃.req.method method
      rw [hreq₃.1]
      exact hlies₁.kept (hk₂.trans (hk₃.trans hk₄))
    · change Lies _ h₃.req.uri uri
      rw [hreq₃.2.1]
      exact hlies₂.kept (hk₃.trans hk₄)
    · change Lies _ h₃.req.version version
      rw [hreq₃.2.2]
      exact hlies₃.kept hk₄
    · simp only [text, Rescan.token, expect, hm, hu, hv, if_true]
    · have hlf : Holds h''.buf h₃.cur (code '\n' :: spendLines bufLen r) := by
        refine holds_cons.mpr ⟨?_, hr⟩
        rw [hk.before h₃.cur (Nat.lt_succ_self _)]
        exact (holds_cons.mp hw₃.holds).1
      have hb := holds_token (hk₂.trans (hk₃.trans (hk₄.trans hk))) hcur₁ hb₁
        (holds_token (hk₃.trans (hk₄.trans hk)) hcur₂ hb₂
          (holds_token (hk₄.trans hk) hcur₃ hb₃ hlf))
      simp only [spend, hm, hu, hv, if_true]
      exact hb
  · have hfail : h₃.consume (code '\n') = (false, h₃) := by
      obtain _ | ⟨y, l₃⟩ := l₃
      · exact consume_nil hw₃
      · rw [consume_cons hw₃ hpos₃, if_neg]
        rintro rfl
        exact hend ⟨l₃, rfl⟩
    have hb := holds_token (hk₂.trans hk₃) hcur₁ hb₁
      (holds_token hk₃ hcur₂ hb₂ (holds_token (Kept.refl hw₃) hcur₃ hb₃ hw₃.holds))
    refine .inl ⟨h₃, hrun.trans hfail, hk₁.trans (hk₂.trans hk₃), ?_, hin₃, ?_⟩
    · obtain _ | ⟨y, l₃⟩ := l₃
      · simp only [spend, hm, hu, hv]
        exact hb
      · have hy : y ≠ code '\n' := by
          rintro rfl
          exact hend ⟨l₃, rfl⟩
        simp only [spend, hm, hu, hv, hy, if_false]
        exact hb
    · obtain _ | ⟨y, l₃⟩ := l₃
      · simp only [text, Rescan.token, expect, hm, hu, hv]
      · have hy : y ≠ code '\n' := by
          rintro rfl
          exact hend ⟨l₃, rfl⟩
        simp only [text, Rescan.token, expect, hm, hu, hv, hy, if_false]

/-- A request has been parsed. -/
structure Parsed (h : Handler) (t : Text) : Prop where
  method : Lies h h.req.method t.method
  uri : Lies h h.req.uri t.uri
  version : Lies h h.req.version t.version
  lines : Recorded h t.lines

/-- **A parse of the bytes.** -/
theorem Handler.parse_spec (hw : Window h l) (hpos : h.pos ≤ bufLen) :
    ∃ ok h', h.parse = (ok, h') ∧ Kept h h' ∧ Holds h'.buf h.cur (spend l) ∧
      (begun (text l).1 ≤ paramsMax → h'.inside = h.inside) ∧
      (∀ w, (text l).1 = .error w → ok = false) ∧
      ∀ t, (text l).1 = .ok t → ok = true ∧ Parsed h' t := by
  obtain ⟨h', hrun, hkept, hholds, hin, htext⟩ |
    ⟨h', method, uri, version, r, hrun, hkept, hw', hin, hm, hu, hv, htext, hspend⟩ :=
    requestLine_spec hw hpos
  · rw [htext]
    refine ⟨false, h', ?_, hkept, hholds, fun _ => hin, fun _ _ => rfl, fun t ht => by cases ht⟩
    simp only [parse, hrun, Bool.not_false, if_true]
  generalize hh₁ : ({ h' with req.params.size := 0 } : Handler) = h₁
  have hw₁ : Window h₁ r := by rw [← hh₁]; exact ⟨hw'.pos, hw'.holds⟩
  have hk₁ : Kept h' h₁ := by
    rw [← hh₁]
    exact ⟨rfl, le_rfl, (Kept.refl hw').le, rfl, rfl, rfl, fun _ _ => rfl, fun _ _ => rfl⟩
  have hrec : Recorded h₁ [] := by
    rw [← hh₁]
    exact ⟨rfl, fun j l' _ hl' => by cases hl'⟩
  obtain ⟨ok, h₂, hrun₂, hk₂, hholds₂, hin₂, herr, hok⟩ := finish_spec method uri version
    bufLen hw₁ ((hk₁.pos.trans hkept.pos).trans_le hpos) hrec
  have hcur : h₁.cur = h'.cur := by rw [← hh₁]
  rw [htext]
  refine ⟨ok, h₂, ?_, hkept.trans (hk₁.trans hk₂), hspend h₂ (hk₁.trans hk₂) (hcur ▸ hholds₂),
    fun hle => ?_, herr, fun t ht => ?_⟩
  · simp only [parse, hrun, hh₁, Bool.not_true, Bool.false_eq_true, if_false]
    exact hrun₂
  · rw [hin₂ hle, ← hh₁]
    exact hin
  · obtain ⟨rfl, hsame, hrec'⟩ := hok t ht
    obtain ⟨htm, htu, htv⟩ := headers_ok _ _ _ ht
    have hreq : h₁.req.method = h'.req.method ∧ h₁.req.uri = h'.req.uri ∧
        h₁.req.version = h'.req.version := by
      rw [← hh₁]
      exact ⟨rfl, rfl, rfl⟩
    refine ⟨rfl, ?_, ?_, ?_, hrec'⟩
    · rw [hsame.method, hreq.1, htm]
      exact hm.kept (hk₁.trans hk₂)
    · rw [hsame.uri, hreq.2.1, htu]
      exact hu.kept (hk₁.trans hk₂)
    · rw [hsame.version, hreq.2.2, htv]
      exact hv.kept (hk₁.trans hk₂)

end Sedona.Web
