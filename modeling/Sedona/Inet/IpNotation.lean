import Sedona.Inet.IpParse

/-!
# Parsing and Printing Addresses

`IpAddr.parse` reads what `IpAddr.toStr` writes. It accepts every text that denotes an address,
except where the last groups are written as a dotted quad, and it accepts more: empty fields count
as zero, numbers are those of an `int`, and `::` may stand for no group.

## Main results

* `accepts_of_denotes`, `denotes_of_accepts`: from the grammar to what is accepted, and back.
* `strict_of_correct`: `parse` is right about a text only if it is strict.
* `parse_correct`, `parse_correct_iff`: the round trip, and on which texts `parse` is right.
-/

namespace Sedona.Inet

open Fields Numerals

/-! ### Numbers in range -/

theorem asInt_of_le {n : ℕ} (h : n ≤ 0xffff) : asInt n = n := by
  rw [asInt, BitVec.toInt_ofNat', Int.bmod]
  omega

theorem intBytes_of_le {m : ℕ} (h : m ≤ 0xffff) :
    intBytes m = [BitVec.ofNat 8 (m / 256), BitVec.ofNat 8 m] := by
  have hm : m % 2 ^ 32 = m := Nat.mod_eq_of_lt (by omega)
  have hmsb : (BitVec.ofNat 32 m).msb = false := by
    rw [BitVec.msb_eq_false_iff_two_mul_lt, BitVec.toNat_ofNat, hm]
    omega
  have hmask : ∀ x : ℕ, x &&& 255 = x % 256 := fun x => Nat.and_two_pow_sub_one_eq_mod x 8
  rw [intBytes, BitVec.sshiftRight_eq_of_msb_false hmsb]
  refine congrArg₂ (fun a b => [a, b]) (BitVec.eq_of_toNat_eq ?_) (BitVec.eq_of_toNat_eq ?_)
  · simp only [BitVec.toNat_setWidth, BitVec.toNat_and, BitVec.toNat_ushiftRight,
      BitVec.toNat_ofNat, hm, Nat.shiftRight_eq_div_pow]
    rw [Nat.mod_eq_of_lt (by omega : 0xff < 2 ^ 32), hmask]
    omega
  · simp only [BitVec.toNat_setWidth, BitVec.toNat_and, BitVec.toNat_ofNat, hm]
    rw [Nat.mod_eq_of_lt (by omega : 0xff < 2 ^ 32), hmask]
    omega

theorem flatMap_intBytes {ms : List ℕ} (h : ∀ m ∈ ms, m ≤ 0xffff) :
    ms.flatMap intBytes = groupBytes ms := by
  induction ms with
  | nil => rfl
  | cons m ms ih =>
    rw [List.forall_mem_cons] at h
    rw [groupBytes, List.flatMap_cons, List.flatMap_cons, intBytes_of_le h.1, ih h.2]
    rfl

theorem groupBytes_append (ws vs : List ℕ) :
    groupBytes (ws ++ vs) = groupBytes ws ++ groupBytes vs := List.flatMap_append

theorem groupBytes_replicate (k : ℕ) :
    groupBytes (List.replicate k 0) = List.replicate (2 * k) 0#8 := by
  induction k with
  | zero => rfl
  | succ k ih =>
    rw [List.replicate_succ, groupBytes, List.flatMap_cons, ← groupBytes, ih, Nat.mul_succ,
      Nat.add_comm _ 2, ← List.replicate_append_replicate]
    rfl

/-! ### The sides of an address -/

/-- The numbers of a side: an empty side has the number of an empty field. -/
def sideWords (ws : List ℕ) : List ℕ := if ws = [] then [0] else ws

variable {base max : ℕ} {digit : Byte → Option ℕ}

theorem mapM_of_numbers {fs : List (List Byte)} {ws : List ℕ}
    (h : List.Forall₂ (IsNumber base digit max) fs ws) :
    fs.mapM (numeral base digit) = some ws := forall₂_of_mapM.mpr (h.imp fun _ _ hg => hg.2.1)

theorem le_of_numbers {fs : List (List Byte)} {ws : List ℕ}
    (h : List.Forall₂ (IsNumber base digit max) fs ws) : ∀ w ∈ ws, w ≤ max := by
  induction h with
  | nil => exact fun w hw => absurd hw List.not_mem_nil
  | cons hg _ ih => exact List.forall_mem_cons.mpr ⟨hg.2.2, ih⟩

theorem fields_of_numbers {fs : List (List Byte)} {ws : List ℕ} (sep : Byte)
    (h : List.Forall₂ (IsNumber base digit max) fs ws) (hsep : digit sep = none) :
    ∀ f ∈ fs, f ≠ [] ∧ sep ∉ f := by
  induction h with
  | nil => exact fun f hf => absurd hf List.not_mem_nil
  | cons hg _ ih =>
    exact List.forall_mem_cons.mpr ⟨⟨hg.1, fun hc => digit_ne_none hg.2.1 hc hsep⟩, ih⟩

theorem numbers_of_mapM {fs : List (List Byte)} {ws : List ℕ}
    (h : fs.mapM (numeral base digit) = some ws) (hne : ∀ f ∈ fs, f ≠ [])
    (hle : ∀ w ∈ ws, w ≤ max) : List.Forall₂ (IsNumber base digit max) fs ws := by
  induction forall₂_of_mapM.mp h with
  | nil => exact .nil
  | cons hab hrest ih =>
    rw [List.forall_mem_cons] at hne hle
    exact .cons ⟨hne.1, hab, hle.1⟩ (ih (forall₂_of_mapM.mpr hrest) hne.2 hle.2)

theorem mapM_sideFields {fs : List (List Byte)} {ws : List ℕ} (h : Groups fs ws) :
    (sideFields fs).mapM hexadecimal = some (sideWords ws) := by
  cases h with
  | nil => rfl
  | cons hg hrest => exact mapM_of_numbers (.cons hg hrest)

/-- The zero of an empty side is one of those that `::` stands for. -/
theorem groupBytes_sides {ws vs : List ℕ} (h : ws.length + vs.length ≤ 7) :
    groupBytes (sideWords ws) ++
        List.replicate (16 - 2 * ((sideWords ws).length + (sideWords vs).length)) 0#8 ++
        groupBytes (sideWords vs) =
      groupBytes (ws ++ List.replicate (8 - (ws.length + vs.length)) 0 ++ vs) := by
  have hzero : groupBytes (sideWords []) = List.replicate 2 0#8 := rfl
  have hcons : ∀ (w : ℕ) ws, sideWords (w :: ws) = w :: ws := fun _ _ => rfl
  rw [groupBytes_append, groupBytes_append, groupBytes_replicate]
  rcases ws with _ | ⟨w, ws⟩ <;> rcases vs with _ | ⟨v, vs⟩
  · rfl
  · have hlen : 2 * (8 - (([] : List ℕ).length + (v :: vs).length)) =
        2 + (16 - 2 * ((sideWords []).length + (v :: vs).length)) := by
      simp only [sideWords, if_true, List.length_cons, List.length_nil] at h ⊢
      omega
    rw [hzero, hcons, hlen, ← List.replicate_append_replicate]
    rfl
  · have hlen : 2 * (8 - ((w :: ws).length + ([] : List ℕ).length)) =
        16 - 2 * ((w :: ws).length + (sideWords []).length) + 2 := by
      simp only [sideWords, if_true, List.length_cons, List.length_nil] at h ⊢
      omega
    have hnil : groupBytes [] = [] := rfl
    rw [hzero, hcons, hlen, ← List.replicate_append_replicate, hnil, List.append_nil,
      List.append_assoc]
  · rw [hcons, hcons]
    congr 3
    omega

/-! ### From the grammar to what is accepted -/

theorem looseQuad_of_dottedQuad {text : List Byte} {ns : List ℕ} (h : DottedQuad text ns) :
    LooseQuad text (mappedPrefix ++ ns.map (BitVec.ofNat 8)) ∧ text.head? ≠ some dot := by
  obtain ⟨fs, hlen, hbytes, rfl⟩ := h
  have hfields := fields_of_numbers dot hbytes rfl
  have hne : fs ≠ [] := fun hnil => by rw [hnil] at hlen; cases hlen
  refine ⟨⟨ns, ?_, by rw [← hbytes.length_eq, hlen], fun n hn => ?_, rfl⟩, ?_⟩
  · rw [fields_join hne fun f hf => (hfields f hf).2]
    exact mapM_of_numbers hbytes
  · have hle := le_of_numbers hbytes n hn
    rw [asInt_of_le (by omega)]
    omega
  · have hhead := head_join_ne hne hfields []
    rwa [List.append_nil] at hhead

theorem sideWords_le {ws : List ℕ} (h : ∀ w ∈ ws, w ≤ 0xffff) : ∀ w ∈ sideWords ws, w ≤ 0xffff := by
  cases ws with
  | nil => simp [sideWords]
  | cons w ws => exact h

theorem asInt_le_of_le {ws : List ℕ} (h : ∀ w ∈ ws, w ≤ 0xffff) : ∀ w ∈ ws, asInt w ≤ 0xffff := by
  intro w hw
  have hle := h w hw
  rw [asInt_of_le hle]
  omega

theorem looseGroups_of_groups {text : List Byte} {ws : List ℕ} (h : IPv6Text Groups text ws) :
    LooseGroups text (groupBytes ws) := by
  cases h with
  | full h hlen =>
    have hle := le_of_numbers h
    have hsides := sides_join (fields_of_numbers colon h rfl)
    refine .inl ⟨ws, ?_, hlen, asInt_le_of_le hle, (flatMap_intBytes hle).symm⟩
    have hws : sideWords ws = ws := if_neg fun hnil => by rw [hnil] at hlen; cases hlen
    rw [hsides, readSides_cons, mapM_sideFields h, hws]
    rfl
  | @compressed fs gs ws vs h h' hlen =>
    have hle := sideWords_le (le_of_numbers h)
    have hle' := sideWords_le (le_of_numbers h')
    have hsides := sides_join_join (fields_of_numbers colon h rfl)
      (fields_of_numbers colon h' rfl)
    refine .inr ⟨sideWords ws, sideWords vs, ?_, ?_, ?_, ?_⟩
    · rw [hsides, readSides_cons, mapM_sideFields h, readSides_cons, mapM_sideFields h']
      rfl
    · rcases ws with _ | ⟨w, ws⟩ <;> rcases vs with _ | ⟨v, vs⟩ <;>
        simp only [sideWords, if_true, List.length_cons, List.length_nil, reduceCtorEq, if_false]
          at hlen ⊢ <;> omega
    · exact asInt_le_of_le (List.forall_mem_append.mpr ⟨hle, hle'⟩)
    · rw [flatMap_intBytes hle, flatMap_intBytes hle', groupBytes_sides hlen]

/-- **A text that denotes an address is accepted**, unless it ends in a dotted quad. -/
theorem accepts_of_denotes {text bytes : List Byte} (h : Denotes Groups text bytes) :
    Accepts text bytes := by
  cases h with
  | quad h => exact .inl (looseQuad_of_dottedQuad h)
  | ipv6 h => exact .inr (looseGroups_of_groups h)

/-! ### From what is accepted to the grammar -/

theorem join_sideFields (fs : List (List Byte)) : join colon (sideFields fs) = join colon fs := by
  cases fs with
  | nil => rfl
  | cons f fs => rfl

theorem readSides_one {S : List (List (List Byte))} {ns : List ℕ} (h : readSides S = some [ns]) :
    ∃ fs, S = [fs] ∧ fs.mapM hexadecimal = some ns := by
  cases forall₂_of_mapM.mp h with
  | cons hfs hrest =>
    cases hrest
    exact ⟨_, rfl, hfs⟩

theorem readSides_two {S : List (List (List Byte))} {ns ms : List ℕ}
    (h : readSides S = some [ns, ms]) : ∃ fs gs, S = [fs, gs] ∧
      fs.mapM hexadecimal = some ns ∧ gs.mapM hexadecimal = some ms := by
  cases forall₂_of_mapM.mp h with
  | cons hfs hrest =>
    cases hrest with
    | cons hgs hnil =>
      cases hnil
      exact ⟨_, _, rfl, hfs, hgs⟩

/-- The groups of a side. -/
theorem groups_of_sideFields {fs : List (List Byte)} {ns : List ℕ}
    (h : (sideFields fs).mapM hexadecimal = some ns) (hne : ∀ f ∈ fs, f ≠ [])
    (hle : ∀ n ∈ ns, n ≤ 0xffff) :
    ∃ ws, Groups fs ws ∧ ns = sideWords ws ∧ ws.length = fs.length := by
  cases fs with
  | nil =>
    obtain rfl := Option.some.inj h
    exact ⟨[], .nil, rfl, rfl⟩
  | cons f fs =>
    rw [sideFields_of_ne (List.cons_ne_nil f fs)] at h
    have hgroups : Groups (f :: fs) ns := numbers_of_mapM h hne hle
    have hns : sideWords ns = ns := if_neg fun hnil => by rw [hnil] at hgroups; cases hgroups
    exact ⟨ns, hgroups, hns.symm, hgroups.length_eq.symm⟩

/-- **What is accepted denotes an address**, if the text is strict. -/
theorem denotes_of_accepts {text bytes : List Byte} (hstrict : Strict text)
    (h : Accepts text bytes) : Denotes Groups text bytes := by
  rcases h with ⟨⟨ns, hns, hlen, hrange, rfl⟩, hhead⟩ | ⟨ns, hread, hlen, hrange, rfl⟩ |
    ⟨ns, ms, hread, hlen, hrange, rfl⟩
  · obtain ⟨hne, hle⟩ := hstrict.quad hns hlen hhead hrange
    have hbytes : List.Forall₂ IsByte _ ns := numbers_of_mapM hns hne hle
    exact .quad ⟨_, by rw [hbytes.length_eq, hlen], hbytes, (join_fields dot text).symm⟩
  · obtain ⟨fs, hsides, hfs⟩ := readSides_one hread
    obtain ⟨hne, hle⟩ := hstrict.full hsides hfs hlen hrange
    have htext := joinSides_sides colon text
    rw [hsides] at htext
    rw [← htext, flatMap_intBytes hle]
    exact .ipv6 (.full (numbers_of_mapM hfs hne hle) hlen)
  · obtain ⟨fs, gs, hsides, hfs, hgs⟩ := readSides_two hread
    obtain ⟨⟨fs', gs', rfl, rfl, hne, hcount⟩, hle⟩ :=
      hstrict.compressed hsides hfs hgs hlen hrange
    rw [List.forall_mem_append] at hne hle
    obtain ⟨ws, hws, rfl, hwslen⟩ := groups_of_sideFields hfs hne.1 hle.1
    obtain ⟨vs, hvs, rfl, hvslen⟩ := groups_of_sideFields hgs hne.2 hle.2
    have htext := joinSides_sides colon text
    rw [hsides, joinSides, joinSides, join_sideFields, join_sideFields] at htext
    rw [← htext, flatMap_intBytes hle.1, flatMap_intBytes hle.2, groupBytes_sides (by omega)]
    exact .ipv6 (.compressed hws hvs (by omega))

/-! ### On which texts it is right -/

theorem dot_mem_of_dottedQuad {text : List Byte} {ns : List ℕ} (h : DottedQuad text ns) :
    dot ∈ text := by
  obtain ⟨fs, hlen, -, rfl⟩ := h
  exact sep_mem_join (by omega)

/-- A text that ends in a dotted quad has dots and colons. -/
theorem mem_of_mixed {text : List Byte} {ws : List ℕ} (h : IPv6Text GroupsAndQuad text ws) :
    dot ∈ text ∧ colon ∈ text := by
  cases h with
  | full h hlen =>
    obtain ⟨gs, vs, q, n₀, n₁, n₂, n₃, hgs, hq, rfl, rfl⟩ := h
    have hcount : gs.length = 6 := by
      rw [hgs.length_eq]
      simpa using hlen
    exact ⟨mem_join_of_mem (List.mem_append_right _ (List.mem_singleton.mpr rfl))
      (dot_mem_of_dottedQuad hq), sep_mem_join (by simp [hcount])⟩
  | compressed h h' hlen =>
    obtain ⟨gs, vs, q, n₀, n₁, n₂, n₃, hgs, hq, rfl, rfl⟩ := h'
    refine ⟨List.mem_append_right _ (List.mem_cons_of_mem _ (List.mem_cons_of_mem _ ?_)),
      List.mem_append_right _ (List.mem_cons_self ..)⟩
    exact mem_join_of_mem (List.mem_append_right _ (List.mem_singleton.mpr rfl))
      (dot_mem_of_dottedQuad hq)

theorem text_of_denotes {text bytes : List Byte} (h : Denotes Groups text bytes) :
    (∃ ns, DottedQuad text ns) ∨ ∃ ws, IPv6Text Groups text ws := by
  cases h with
  | quad h => exact .inl ⟨_, h⟩
  | ipv6 h => exact .inr ⟨_, h⟩

/-- A text without dots that denotes an address. -/
theorem groups_of_denotes {text bytes : List Byte} (h : Denotes Groups text bytes)
    (hdot : dot ∉ text) : ∃ ws, IPv6Text Groups text ws := by
  rcases text_of_denotes h with ⟨ns, h⟩ | h
  · exact absurd (dot_mem_of_dottedQuad h) hdot
  · exact h

theorem Accepts.length {text bytes : List Byte} (h : Accepts text bytes) : bytes.length = 16 := by
  rcases h with ⟨⟨ns, -, hlen, -, rfl⟩, -⟩ | ⟨ns, -, hlen, -, rfl⟩ | ⟨ns, ms, -, hlen, -, rfl⟩
  · have hprefix : mappedPrefix.length = 12 := rfl
    rw [List.length_append, List.length_map, hlen, hprefix]
  · rw [length_intBytes, hlen]
  · rw [List.length_append, List.length_append, List.length_replicate, length_intBytes,
      length_intBytes]
    omega

/-- **A text on which `parse` is right is strict.** -/
theorem strict_of_correct {text : List Byte}
    (h : ∀ bytes, Accepts text bytes → ∃ bytes', Denotes Groups text bytes') : Strict text where
  quad {ns} hfields hlen hhead hrange := by
    obtain ⟨bytes, hdenotes⟩ := h _ (.inl ⟨⟨ns, hfields, hlen, hrange, rfl⟩, hhead⟩)
    rcases text_of_denotes hdenotes with ⟨ns', hquad⟩ | ⟨ws, hgroups⟩
    · obtain ⟨fs, hfslen, hbytes, rfl⟩ := hquad
      have hfs := fields_of_numbers dot hbytes rfl
      have hne : fs ≠ [] := fun hnil => by rw [hnil] at hfslen; cases hfslen
      rw [fields_join hne fun f hf => (hfs f hf).2, mapM_of_numbers hbytes] at hfields
      obtain rfl := Option.some.inj hfields
      rw [fields_join hne fun f hf => (hfs f hf).2]
      exact ⟨fun f hf => (hfs f hf).1, le_of_numbers hbytes⟩
    · exact absurd (dot_mem_of_fields hfields hlen)
        ((looseGroups_of_groups hgroups).not_mem rfl (by decide))
  full {fs ns} hsides hfs hlen hrange := by
    have hread : readSides (sides colon text) = some [ns] := by
      rw [hsides, readSides_cons, hfs]
      rfl
    obtain ⟨bytes, hdenotes⟩ := h _ (.inr (.inl ⟨ns, hread, hlen, hrange, rfl⟩))
    obtain ⟨ws, hgroups⟩ := groups_of_denotes hdenotes
      (not_mem_of_hexadecimal hread rfl (by decide))
    cases hgroups with
    | @full gs _ hgs hgslen =>
      have hnumbers := fields_of_numbers colon hgs rfl
      have hne : gs ≠ [] := fun hnil => by
        rw [hnil] at hgs
        cases hgs
        cases hgslen
      rw [sides_join hnumbers, sideFields_of_ne hne] at hsides
      obtain rfl := List.singleton_inj.mp hsides
      rw [mapM_of_numbers hgs] at hfs
      obtain rfl := Option.some.inj hfs
      exact ⟨fun f hf => (hnumbers f hf).1, le_of_numbers hgs⟩
    | compressed hgs hes _ =>
      rw [sides_join_join (fields_of_numbers colon hgs rfl)
        (fields_of_numbers colon hes rfl)] at hsides
      cases hsides
  compressed {fs gs ns ms} hsides hfs hgs hlen hrange := by
    have hread : readSides (sides colon text) = some [ns, ms] := by
      rw [hsides, readSides_cons, hfs, readSides_cons, hgs]
      rfl
    obtain ⟨bytes, hdenotes⟩ := h _ (.inr (.inr ⟨ns, ms, hread, hlen, hrange, rfl⟩))
    obtain ⟨ws, hgroups⟩ := groups_of_denotes hdenotes
      (not_mem_of_hexadecimal hread rfl (by decide))
    cases hgroups with
    | full hes _ =>
      rw [sides_join (fields_of_numbers colon hes rfl)] at hsides
      cases hsides
    | @compressed fs' gs' ws vs hws hvs hcount =>
      have hnumbers := fields_of_numbers colon hws rfl
      have hnumbers' := fields_of_numbers colon hvs rfl
      rw [sides_join_join hnumbers hnumbers'] at hsides
      obtain ⟨rfl, hrest⟩ := List.cons_eq_cons.mp hsides
      obtain rfl := List.singleton_inj.mp hrest
      rw [mapM_sideFields hws] at hfs
      rw [mapM_sideFields hvs] at hgs
      obtain rfl := Option.some.inj hfs
      obtain rfl := Option.some.inj hgs
      refine ⟨⟨fs', gs', rfl, rfl, ?_, by rw [hws.length_eq, hvs.length_eq]; exact hcount⟩, ?_⟩
      · exact List.forall_mem_append.mpr
          ⟨fun f hf => (hnumbers f hf).1, fun f hf => (hnumbers' f hf).1⟩
      · exact List.forall_mem_append.mpr
          ⟨sideWords_le (le_of_numbers hws), sideWords_le (le_of_numbers hvs)⟩

/-! ### Printing -/

theorem decimal_intStr : ∀ x : Byte, intStr x ≠ [] ∧ decimal (intStr x) = some x.toNat := by
  decide +kernel

theorem isByte_intStr (x : Byte) : IsByte (intStr x) x.toNat :=
  ⟨(decimal_intStr x).1, (decimal_intStr x).2, Nat.le_of_lt_succ x.isLt⟩

theorem hexadecimal_hexStr : ∀ x : Byte, hexStr x ≠ [] ∧ hexadecimal (hexStr x) = some x.toNat := by
  decide +kernel

/-- The second byte of a group, with two digits. -/
def lowDigits (y : Byte) : List Byte :=
  (if (hexStr y).getD 1 0#8 = 0#8 then [0x30#8] else []) ++ hexStr y

theorem map_lowDigits : ∀ y : Byte,
    (lowDigits y).map hexDigit = [some (y.toNat / 16), some (y.toNat % 16)] := by
  decide +kernel

/-- The text of a group. -/
def groupText (x y : Byte) : List Byte :=
  if x = 0#8 then hexStr y else hexStr x ++ lowDigits y

theorem appendGroup_eq (buf : List Byte) (x y : Byte) (addSep : Bool) :
    appendGroup buf x y addSep = append buf (groupText x y) addSep colon := by
  rw [appendGroup, groupText]
  split
  · rfl
  · rw [lowDigits]
    simp only [append, decide_eq_true_eq]
    split <;> simp

theorem hexadecimal_groupText (x y : Byte) :
    hexadecimal (groupText x y) = some (x.toNat * 256 + y.toNat) := by
  rw [groupText]
  split
  · next hx => rw [(hexadecimal_hexStr y).2, hx]; simp
  · obtain ⟨h, l, hlow⟩ : ∃ h l, lowDigits y = [h, l] := by
      have hlen := congrArg List.length (map_lowDigits y)
      rw [List.length_map] at hlen
      exact List.length_eq_two.mp hlen
    have hdigits := map_lowDigits y
    rw [hlow] at hdigits
    obtain ⟨hh, hrest⟩ := List.cons_eq_cons.mp hdigits
    obtain ⟨hl, -⟩ := List.cons_eq_cons.mp hrest
    have hsplit : hexStr x ++ [h, l] = hexStr x ++ [h] ++ [l] := by simp
    rw [hlow, hsplit, hexadecimal, numeral_append_singleton, numeral_append_singleton,
      ← hexadecimal, (hexadecimal_hexStr x).2, hh, hl]
    simp only [Option.bind_some, Option.map_some, Option.some.injEq]
    omega

theorem isGroup_groupText (x y : Byte) : IsGroup (groupText x y) (x.toNat * 256 + y.toNat) := by
  refine ⟨?_, hexadecimal_groupText x y, by omega⟩
  rw [groupText]
  split
  · exact (hexadecimal_hexStr y).1
  · exact fun h => (hexadecimal_hexStr x).1 (List.append_eq_nil_iff.mp h).1

theorem exists_bytes (a : IpAddr) : ∃ b₀ b₁ b₂ b₃ b₄ b₅ b₆ b₇ b₈ b₉ b₁₀ b₁₁ b₁₂ b₁₃ b₁₄ b₁₅,
    a = ⟨#v[b₀, b₁, b₂, b₃, b₄, b₅, b₆, b₇, b₈, b₉, b₁₀, b₁₁, b₁₂, b₁₃, b₁₄, b₁₅]⟩ := by
  obtain ⟨⟨⟨l⟩, hl⟩⟩ := a
  match l, hl with
  | [_, _, _, _, _, _, _, _, _, _, _, _, _, _, _, _], _ =>
    exact ⟨_, _, _, _, _, _, _, _, _, _, _, _, _, _, _, _, rfl⟩

/-- The text of an IPv4 address. -/
theorem toChars_quad {a : IpAddr} (h : a.isIPv4 = true) : ∃ x y z w : Byte,
    a.addr.toList = mappedPrefix ++ [x, y, z, w] ∧
      a.toChars = join dot [intStr x, intStr y, intStr z, intStr w] := by
  obtain ⟨b₀, b₁, b₂, b₃, b₄, b₅, b₆, b₇, b₈, b₉, b₁₀, b₁₁, b₁₂, b₁₃, b₁₄, b₁₅, rfl⟩ :=
    exists_bytes a
  refine ⟨b₁₂, b₁₃, b₁₄, b₁₅, ?_, ?_⟩
  · simp [IpAddr.isIPv4, List.range, List.range.loop] at h
    simp [mappedPrefix, h]
  · rw [IpAddr.toChars, if_pos h]
    simp [List.range', append, join]

/-- The text of any other address. -/
theorem toChars_groups {a : IpAddr} (h : ¬a.isIPv4 = true) : ∃ bs : List (Byte × Byte),
    bs.length = 8 ∧ a.addr.toList = bs.flatMap (fun b => [b.1, b.2]) ∧
      a.toChars = join colon (bs.map fun b => groupText b.1 b.2) := by
  obtain ⟨b₀, b₁, b₂, b₃, b₄, b₅, b₆, b₇, b₈, b₉, b₁₀, b₁₁, b₁₂, b₁₃, b₁₄, b₁₅, rfl⟩ :=
    exists_bytes a
  refine ⟨[(b₀, b₁), (b₂, b₃), (b₄, b₅), (b₆, b₇), (b₈, b₉), (b₁₀, b₁₁), (b₁₂, b₁₃), (b₁₄, b₁₅)],
    rfl, rfl, ?_⟩
  rw [IpAddr.toChars, if_neg h]
  simp only [appendGroup_eq]
  simp [List.range, List.range.loop, append, join]

/-- The number of a group. -/
def word (b : Byte × Byte) : ℕ := b.1.toNat * 256 + b.2.toNat

theorem groups_of_bytes (bs : List (Byte × Byte)) :
    Groups (bs.map fun b => groupText b.1 b.2) (bs.map word) := by
  induction bs with
  | nil => exact .nil
  | cons b bs ih => exact .cons (isGroup_groupText b.1 b.2) ih

theorem groupBytes_words (bs : List (Byte × Byte)) :
    groupBytes (bs.map word) = bs.flatMap fun b => [b.1, b.2] := by
  induction bs with
  | nil => rfl
  | cons b bs ih =>
    have hhigh : BitVec.ofNat 8 (word b / 256) = b.1 := by
      apply BitVec.eq_of_toNat_eq
      rw [BitVec.toNat_ofNat, word]
      omega
    have hlow : BitVec.ofNat 8 (word b) = b.2 := by
      apply BitVec.eq_of_toNat_eq
      rw [BitVec.toNat_ofNat, word]
      omega
    rw [List.map_cons, groupBytes, List.flatMap_cons, ← groupBytes, ih, List.flatMap_cons, hhigh,
      hlow]

/-- **The text of an address is accepted**, with the bytes of the address. -/
theorem accepts_toChars (a : IpAddr) : Accepts a.toChars a.addr.toList := by
  by_cases h : a.isIPv4 = true
  · obtain ⟨x, y, z, w, hbytes, htext⟩ := toChars_quad h
    have hquad : DottedQuad a.toChars [x.toNat, y.toNat, z.toNat, w.toNat] :=
      ⟨_, rfl, .cons (isByte_intStr x) (.cons (isByte_intStr y) (.cons (isByte_intStr z)
        (.cons (isByte_intStr w) .nil))), htext⟩
    have hmap : [x.toNat, y.toNat, z.toNat, w.toNat].map (BitVec.ofNat 8) = [x, y, z, w] := by
      simp
    rw [hbytes, ← hmap]
    exact .inl (looseQuad_of_dottedQuad hquad)
  · obtain ⟨bs, hlen, hbytes, htext⟩ := toChars_groups h
    rw [hbytes, htext, ← groupBytes_words]
    exact .inr (looseGroups_of_groups (.full (groups_of_bytes bs) (by rw [List.length_map, hlen])))

/-- The text fits into the buffer of 42 bytes, with its terminator. -/
theorem length_toChars_lt (a : IpAddr) : a.toChars.length < 42 := by
  have hint : ∀ x : Byte, (intStr x).length ≤ 4 := by decide +kernel
  have hhex : ∀ x : Byte, (hexStr x).length ≤ 2 := by decide +kernel
  by_cases h : a.isIPv4 = true
  · obtain ⟨x, y, z, w, -, htext⟩ := toChars_quad h
    have hfields : ∀ f ∈ [intStr x, intStr y, intStr z, intStr w], f.length ≤ 4 := by simp [hint]
    have hle : _ ≤ 4 * 5 := length_join_le dot hfields
    rw [htext]
    omega
  · obtain ⟨bs, hlen, -, htext⟩ := toChars_groups h
    have hgroup : ∀ x y, (groupText x y).length ≤ 4 := fun x y => by
      have hlow := congrArg List.length (map_lowDigits y)
      rw [List.length_map] at hlow
      rw [groupText]
      split
      · exact Nat.le_trans (hhex y) (by decide)
      · rw [List.length_append, hlow]
        exact Nat.add_le_add_right (hhex x) 2
    have hfields : ∀ f ∈ bs.map fun b => groupText b.1 b.2, f.length ≤ 4 := by
      intro f hf
      obtain ⟨b, -, rfl⟩ := List.mem_map.mp hf
      exact hgroup b.1 b.2
    have hle := length_join_le colon hfields
    rw [List.length_map, hlen] at hle
    rw [htext]
    omega

theorem toChars_nonzero (a : IpAddr) : ∀ c ∈ a.toChars, c ≠ 0#8 := by
  rintro c hc rfl
  rcases accepts_toChars a with h | h
  · exact h.1.not_mem rfl (by decide) hc
  · exact h.not_mem rfl (by decide) hc

/-- `IpAddr.toStr`. -/
def IpAddr.toStr (a : IpAddr) : Str where
  chars := a.toChars
  nonzero := toChars_nonzero a

/-! ### The round trip, and all texts -/

/-- `parse` is right about a text if and only if the text is strict. -/
theorem parse_correct_iff (a : IpAddr) (text : Str) :
    (∀ r, a.parse text = (true, r) ↔ Denotes Groups text.chars r.addr.toList) ↔
      Strict text.chars := by
  constructor
  · intro h
    refine strict_of_correct fun bytes haccepts => ⟨bytes, ?_⟩
    exact (h ⟨⟨bytes.toArray, haccepts.length⟩⟩).mp ((parse_spec ..).mpr haccepts)
  · intro hstrict r
    rw [parse_spec]
    exact ⟨denotes_of_accepts hstrict, accepts_of_denotes⟩

/-- A text that ends in a dotted quad behind groups is refused. -/
theorem parse_mixed (a : IpAddr) {text : Str} {ws : List ℕ}
    (h : IPv6Text GroupsAndQuad text.chars ws) (r : IpAddr) : a.parse text ≠ (true, r) := by
  obtain ⟨hdot, hcolon⟩ := mem_of_mixed h
  rw [Ne, parse_spec]
  rintro (hloose | hloose)
  · exact hloose.1.not_mem rfl (by decide) hcolon
  · exact hloose.not_mem rfl (by decide) hdot

/-- **`parse` gives back every address that `toStr` writes, and what a strict text denotes.** -/
theorem parse_correct (a b : IpAddr) {text : Str} (h : Strict text.chars) :
    a.parse b.toStr = (true, b) ∧
      ∀ r, a.parse text = (true, r) ↔ Denotes Groups text.chars r.addr.toList :=
  ⟨(parse_spec a _ b).mpr (accepts_toChars b), (parse_correct_iff a text).mpr h⟩

/-- The address `::`. -/
def unspecified : IpAddr := ⟨Vector.replicate 16 0#8⟩

/-- The text `::`. -/
def twoColons : Str where
  chars := [colon, colon]
  nonzero := by decide

theorem denotes_twoColons : Denotes Groups twoColons.chars unspecified.addr.toList :=
  .ipv6 (@IPv6Text.compressed Groups [] [] [] [] .nil .nil (Nat.zero_le 7))

theorem parse_correct_twoColons :
    unspecified.parse unspecified.toStr = (true, unspecified) ∧
      ∀ r, unspecified.parse twoColons = (true, r) ↔
        Denotes Groups twoColons.chars r.addr.toList :=
  parse_correct unspecified unspecified
    (strict_of_correct fun _ _ => ⟨_, denotes_twoColons⟩)

/-- The text `::0.0.0.0`. -/
def quadAtEnd : Str where
  chars := [colon, colon, 0x30#8, dot, 0x30#8, dot, 0x30#8, dot, 0x30#8]
  nonzero := by decide

/-- The last groups of an address may be a dotted quad, which is refused. -/
theorem not_parse_correct :
    ¬∀ (a : IpAddr) (text : Str) (r : IpAddr),
      a.parse text = (true, r) ↔ Denotes GroupsOrQuad text.chars r.addr.toList := by
  intro h
  have hzero : IsByte [0x30#8] 0 := ⟨List.cons_ne_nil _ _, rfl, Nat.zero_le _⟩
  have hquad : GroupsAndQuad [[0x30#8, dot, 0x30#8, dot, 0x30#8, dot, 0x30#8]] [0, 0] :=
    ⟨[], [], _, 0, 0, 0, 0, .nil,
      ⟨_, rfl, .cons hzero (.cons hzero (.cons hzero (.cons hzero .nil))), rfl⟩, rfl, rfl⟩
  have hmixed : IPv6Text GroupsAndQuad quadAtEnd.chars (List.replicate 8 0) :=
    .compressed .nil hquad (by decide)
  have hdenotes : Denotes GroupsOrQuad quadAtEnd.chars unspecified.addr.toList :=
    .ipv6 (@IPv6Text.compressed GroupsOrQuad [] _ [] [0, 0] .nil (.inr hquad) (by decide))
  exact parse_mixed unspecified hmixed unspecified ((h _ _ _).mpr hdenotes)

end Sedona.Inet
