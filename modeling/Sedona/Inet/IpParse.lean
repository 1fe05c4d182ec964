import Sedona.Inet.IpText

/-!
# How Addresses Are Parsed

The two loops of `IpAddr.parse`, field by field: what they store, and when they return `false`.

## Main results

* `parseIPv4Loop_spec`, `parseIPv6Loop_spec`: the loops, on any text.
* `parseIPv4_spec`, `parseIPv6_spec`: which texts are accepted, and with which bytes.
-/

namespace Sedona.Inet

open Fields Numerals

/-! ### Digits -/

theorem fromDigit_eq : ∀ c : Byte,
    fromDigit c = ((decDigit c).map (BitVec.ofNat 32)).getD (-1#32) := by decide +kernel

theorem fromHexDigit_eq : ∀ c : Byte,
    fromHexDigit c = ((hexDigit c).map (BitVec.ofNat 32)).getD (-1#32) := by decide +kernel

theorem decDigit_lt {c : Byte} {d : ℕ} (h : decDigit c = some d) : d < 16 := by
  have hall : ∀ c : Byte, (decDigit c).getD 0 < 16 := by decide +kernel
  have hc := hall c
  rwa [h] at hc

theorem hexDigit_lt {c : Byte} {d : ℕ} (h : hexDigit c = some d) : d < 16 := by
  have hall : ∀ c : Byte, (hexDigit c).getD 0 < 16 := by decide +kernel
  have hc := hall c
  rwa [h] at hc

theorem not_slt_digit : ∀ d < 16, (BitVec.ofNat 32 d).slt 0#32 = false := by decide

theorem ofNat_mul_ten (m d : ℕ) :
    BitVec.ofNat 32 m * 10#32 + BitVec.ofNat 32 d = BitVec.ofNat 32 (m * 10 + d) := by
  rw [BitVec.ofNat_add, BitVec.ofNat_mul]

theorem ofNat_shift_or {d : ℕ} (m : ℕ) (h : d < 16) :
    BitVec.ofNat 32 m <<< 4 ||| BitVec.ofNat 32 d = BitVec.ofNat 32 (m * 16 + d) := by
  apply BitVec.eq_of_toNat_eq
  have hd : d % 2 ^ 32 = d := by omega
  have hm : (m % 2 ^ 32) <<< 4 % 2 ^ 32 = (m % 2 ^ 28) <<< 4 := by
    rw [Nat.shiftLeft_eq, Nat.shiftLeft_eq]
    omega
  rw [BitVec.toNat_or, BitVec.toNat_shiftLeft, BitVec.toNat_ofNat, BitVec.toNat_ofNat,
    BitVec.toNat_ofNat, hd, hm, ← Nat.shiftLeft_add_eq_or_of_lt h, Nat.shiftLeft_eq]
  omega

/-! ### Storing -/

/-- The bytes that are stored. -/
def stored (n : ℕ) (addr : Vector Byte 16) : List Byte := addr.toList.take n

theorem length_stored {n : ℕ} (h : n ≤ 16) (addr : Vector Byte 16) :
    (stored n addr).length = n := by
  rw [stored, List.length_take, Vector.length_toList, Nat.min_eq_left h]

theorem stored_set {n : ℕ} (h : n < 16) (addr : Vector Byte 16) (b : Byte) :
    stored (n + 1) (addr.setIfInBounds n b) = stored n addr ++ [b] := by
  have hlen : n < addr.toList.length := by rwa [Vector.length_toList]
  rw [stored, stored, Vector.toList_setIfInBounds, List.take_add_one, List.getElem?_set_self hlen,
    List.take_set_of_le (Nat.le_refl n)]
  rfl

theorem stored_all (addr : Vector Byte 16) : stored 16 addr = addr.toList :=
  List.take_of_length_le (Nat.le_of_eq Vector.length_toList)

/-- Segments that are stored, unless the address is full or a number is out of range. -/
def store4 (bs : List Byte) (ns : List ℕ) : Option (List Byte) :=
  if (∀ n ∈ ns, asInt n ≤ 0xff) ∧ bs.length + ns.length ≤ 16 then
    some (bs ++ ns.map (BitVec.ofNat 8))
  else none

theorem storeByte_spec {n : ℕ} (hn : n ≤ 16) (m : ℕ) (addr : Vector Byte 16) :
    (storeByte n (BitVec.ofNat 32 m) addr).map (stored (n + 1)) = store4 (stored n addr) [m] := by
  have hlen := length_stored hn addr
  have hslt : (0xff#32).slt (BitVec.ofNat 32 m) = decide (0xff < asInt m) := rfl
  simp only [storeByte, store4, hslt, List.mem_singleton, forall_eq, hlen, List.length_singleton]
  by_cases hfull : n = 16
  · rw [if_pos hfull, if_neg (by omega)]
    rfl
  · by_cases hrange : 0xff < asInt m
    · rw [if_neg hfull, if_pos (decide_eq_true hrange), if_neg (by omega)]
      rfl
    · rw [if_neg hfull, if_neg (by simpa using hrange), if_pos (by omega), Option.map_some,
        stored_set (by omega), BitVec.setWidth_ofNat_of_le (by omega)]
      rfl

theorem store4_cons (bs : List Byte) (n : ℕ) (ns : List ℕ) :
    store4 bs (n :: ns) = (store4 bs [n]).bind fun bs => store4 bs ns := by
  simp only [store4, List.forall_mem_cons, List.mem_singleton, forall_eq, List.length_cons,
    List.length_nil]
  by_cases hn : asInt n ≤ 0xff ∧ bs.length + (0 + 1) ≤ 16
  · rw [if_pos hn, Option.bind_some, List.length_append, List.length_map, List.length_singleton]
    refine if_congr ?_ (by simp) rfl
    simp only [hn.1, true_and]
    constructor <;> exact fun h => ⟨h.1, by omega⟩
  · rw [if_neg hn, Option.bind_none, if_neg]
    exact fun h => hn ⟨h.1.1, by omega⟩

/-! ### The loop of IPv4 -/

/-- What a loop has stored at its end, with the index then. -/
def atEnd (r : Vector Byte 16 × Option ℕ) : Option (ℕ × List Byte) :=
  r.2.map fun n => (n, stored n r.1)

theorem stored_of_storeByte {n m : ℕ} (hn : n ≤ 16) {addr addr' : Vector Byte 16}
    (h : storeByte n (BitVec.ofNat 32 m) addr = some addr') :
    n + 1 ≤ 16 ∧ store4 (stored n addr) [m] = some (stored (n + 1) addr') := by
  have hspec := storeByte_spec hn m addr
  rw [h, Option.map_some] at hspec
  refine ⟨?_, hspec.symm⟩
  rw [storeByte] at h
  split at h
  · cases h
  · omega

theorem store4_of_storeByte_none {n m : ℕ} (hn : n ≤ 16) {addr : Vector Byte 16}
    (h : storeByte n (BitVec.ofNat 32 m) addr = none) : store4 (stored n addr) [m] = none := by
  rw [← storeByte_spec hn m addr, h]
  rfl

theorem decimal_nil : decimal [] = some 0 := rfl

/-- The loop on any text, with the digits `p` of the segment read before. -/
theorem parseIPv4Loop_spec (cs : List Byte) {p : List Byte} {m n : ℕ}
    (hm : decimal p = some m) (hn : n ≤ 16) (addr : Vector Byte 16) :
    atEnd (parseIPv4Loop cs n (BitVec.ofNat 32 m) addr) =
      (((consHead p (fields dot cs)).mapM decimal).bind (store4 (stored n addr))).map
        fun bs => (bs.length, bs) := by
  induction cs generalizing p m n addr with
  | nil =>
    rw [fields, consHead, List.append_nil, List.mapM_cons, hm, List.mapM_nil, parseIPv4Loop]
    rcases hstore : storeByte n (BitVec.ofNat 32 m) addr with _ | addr'
    · have hnone := store4_of_storeByte_none hn hstore
      change none = (store4 (stored n addr) [m]).map _
      rw [hnone]
      rfl
    · obtain ⟨hlt, hsome⟩ := stored_of_storeByte hn hstore
      change some (n + 1, stored (n + 1) addr') = (store4 (stored n addr) [m]).map _
      rw [hsome, Option.map_some, length_stored hlt]
  | cons c cs ih =>
    rw [parseIPv4Loop, fields]
    by_cases hc : c = dot
    · rw [if_pos hc, if_pos hc, consHead, List.append_nil, List.mapM_cons, hm]
      rcases hstore : storeByte n (BitVec.ofNat 32 m) addr with _ | addr'
      · have hnone := store4_of_storeByte_none hn hstore
        rcases (fields dot cs).mapM decimal with _ | ns
        · rfl
        · change none = (store4 (stored n addr) (m :: ns)).map _
          rw [store4_cons, hnone]
          rfl
      · obtain ⟨hlt, hsome⟩ := stored_of_storeByte hn hstore
        have hrest := ih decimal_nil hlt addr'
        obtain ⟨f, fs, hfields⟩ := fields_ne_nil dot cs
        rw [hfields, consHead, List.nil_append, ← hfields] at hrest
        refine hrest.trans ?_
        rcases (fields dot cs).mapM decimal with _ | ns
        · rfl
        · change _ = (store4 (stored n addr) (m :: ns)).map _
          rw [store4_cons, hsome]
          rfl
    · rw [if_neg hc, if_neg hc, ← consHead_append]
      rcases hd : decDigit c with _ | d
      · obtain ⟨f, fs, hfields⟩ := fields_ne_nil dot cs
        have hnone : decimal (p ++ [c] ++ f) = none := by
          rw [List.append_assoc]
          exact numeral_eq_none hd p f
        rw [hfields, consHead, List.mapM_cons, hnone, fromDigit_eq, hd]
        rfl
      · have hnum : decimal (p ++ [c]) = some (m * 10 + d) := by
          rw [decimal, numeral_append_singleton, ← decimal, hm, hd]
          rfl
        rw [← ih hnum hn addr, fromDigit_eq, hd]
        simp only [Option.map_some, Option.getD_some, not_slt_digit d (decDigit_lt hd),
          Bool.false_eq_true, if_false, ofNat_mul_ten]

/-! ### The loop of IPv6 -/

/-- The bytes of a group, as they are stored. -/
def intBytes (m : ℕ) : List Byte :=
  [((BitVec.ofNat 32 m).sshiftRight 8 &&& 0xff#32).setWidth 8,
    (BitVec.ofNat 32 m &&& 0xff#32).setWidth 8]

/-- Groups that are stored, unless the address is full or a number is out of range. -/
def store6 (bs : List Byte) (ms : List ℕ) : Option (List Byte) :=
  if (∀ m ∈ ms, asInt m ≤ 0xffff) ∧ bs.length + 2 * ms.length ≤ 16 then
    some (bs ++ ms.flatMap intBytes)
  else none

/-- The sides of a text that are stored, with the value of `shift`. -/
def store6Sides (bs : List Byte) (shift : Option ℕ) :
    List (List ℕ) → Option (List Byte × Option ℕ)
  | [] => none
  | [ms] => (store6 bs ms).map fun bs => (bs, shift)
  | ms :: ks :: S => (store6 bs ms).bind fun bs =>
      if shift.isSome then none else store6Sides bs (some bs.length) (ks :: S)

theorem store6_cons (bs : List Byte) (m : ℕ) (ms : List ℕ) :
    store6 bs (m :: ms) = (store6 bs [m]).bind fun bs => store6 bs ms := by
  simp only [store6, List.forall_mem_cons, List.mem_singleton, forall_eq, List.length_cons,
    List.length_nil]
  by_cases hm : asInt m ≤ 0xffff ∧ bs.length + 2 * (0 + 1) ≤ 16
  · rw [if_pos hm, Option.bind_some, List.length_append]
    refine if_congr ?_ (by simp) rfl
    have hlen : ([m].flatMap intBytes).length = 2 := rfl
    simp only [hm.1, true_and, hlen]
    constructor <;> exact fun h => ⟨h.1, by omega⟩
  · rw [if_neg hm, Option.bind_none, if_neg]
    exact fun h => hm ⟨h.1.1, by omega⟩

theorem store6Sides_cons (bs : List Byte) (shift : Option ℕ) (m : ℕ) (ms : List ℕ)
    (S : List (List ℕ)) : store6Sides bs shift ((m :: ms) :: S) =
      (store6 bs [m]).bind fun bs => store6Sides bs shift (ms :: S) := by
  cases S with
  | nil =>
    rw [store6Sides, store6_cons]
    rcases store6 bs [m] with _ | bs <;> rfl
  | cons ks S =>
    rw [store6Sides, store6_cons]
    rcases store6 bs [m] with _ | bs <;> rfl

theorem storeGroup_spec {n : ℕ} (hn : n ≤ 16) (heven : n % 2 = 0) (m : ℕ) (addr : Vector Byte 16) :
    (storeGroup n (BitVec.ofNat 32 m) addr).map (stored (n + 2)) = store6 (stored n addr) [m] := by
  have hlen := length_stored hn addr
  have hslt : (0xffff#32).slt (BitVec.ofNat 32 m) = decide (0xffff < asInt m) := rfl
  simp only [storeGroup, store6, hslt, List.mem_singleton, forall_eq, hlen, List.length_singleton]
  by_cases hfull : n = 16
  · rw [if_pos hfull, if_neg (by omega)]
    rfl
  · by_cases hrange : 0xffff < asInt m
    · rw [if_neg hfull, if_pos (decide_eq_true hrange), if_neg (by omega)]
      rfl
    · rw [if_neg hfull, if_neg (by simpa using hrange), if_pos (by omega), Option.map_some,
        stored_set (by omega), stored_set (by omega), List.append_assoc]
      rfl

theorem stored_of_storeGroup {n m : ℕ} (hn : n ≤ 16) (heven : n % 2 = 0)
    {addr addr' : Vector Byte 16} (h : storeGroup n (BitVec.ofNat 32 m) addr = some addr') :
    n + 2 ≤ 16 ∧ (n + 2) % 2 = 0 ∧ store6 (stored n addr) [m] = some (stored (n + 2) addr') := by
  have hspec := storeGroup_spec hn heven m addr
  rw [h, Option.map_some] at hspec
  refine ⟨?_, by omega, hspec.symm⟩
  rw [storeGroup] at h
  split at h
  · cases h
  · omega

theorem store6_of_storeGroup_none {n m : ℕ} (hn : n ≤ 16) (heven : n % 2 = 0)
    {addr : Vector Byte 16} (h : storeGroup n (BitVec.ofNat 32 m) addr = none) :
    store6 (stored n addr) [m] = none := by
  rw [← storeGroup_spec hn heven m addr, h]
  rfl

/-- What a loop has stored at its end, with the index and `shift` then. -/
def atEnd6 (r : Vector Byte 16 × Option (ℕ × Option ℕ)) : Option (ℕ × List Byte × Option ℕ) :=
  r.2.map fun e => (e.1, stored e.1 r.1, e.2)

/-- The numbers of the fields of all sides. -/
def readSides (S : List (List (List Byte))) : Option (List (List ℕ)) :=
  S.mapM fun fs => fs.mapM hexadecimal

theorem mapM_cons_eq {α β : Type} (f : α → Option β) (a : α) (as : List α) :
    (a :: as).mapM f = (f a).bind fun b => (as.mapM f).map (b :: ·) := by
  rw [List.mapM_cons]
  rcases f a with _ | b
  · rfl
  · rcases as.mapM f with _ | bs <;> rfl

theorem readSides_cons (fs : List (List Byte)) (S : List (List (List Byte))) :
    readSides (fs :: S) = (fs.mapM hexadecimal).bind fun ms => (readSides S).map (ms :: ·) :=
  mapM_cons_eq ..

/-- A text has a side, and that a field. -/
theorem readSides_sides {cs : List Byte} {T : List (List ℕ)}
    (h : readSides (sides colon cs) = some T) : ∃ m ms S, T = (m :: ms) :: S := by
  obtain ⟨f, fs, S, hsides⟩ := sides_eq_cons colon cs
  rw [hsides, readSides_cons] at h
  obtain ⟨ns, hns, h⟩ := Option.bind_eq_some_iff.mp h
  obtain ⟨T, -, rfl⟩ := Option.map_eq_some_iff.mp h
  rw [mapM_cons_eq] at hns
  obtain ⟨m, -, hns⟩ := Option.bind_eq_some_iff.mp hns
  obtain ⟨ms, -, rfl⟩ := Option.map_eq_some_iff.mp hns
  exact ⟨m, ms, T, rfl⟩

theorem consFirst_nil (cs : List Byte) : consFirst [] (sides colon cs) = sides colon cs := by
  obtain ⟨f, fs, S, hsides⟩ := sides_eq_cons colon cs
  rw [hsides]
  rfl

theorem hexadecimal_nil : hexadecimal [] = some 0 := rfl

theorem parseIPv6Loop_sepSep (cs : List Byte) (n : ℕ) (v : BitVec 32) (addr : Vector Byte 16)
    (shift : Option ℕ) : parseIPv6Loop (colon :: colon :: cs) n v addr shift =
      match storeGroup n v addr with
      | none => (addr, none)
      | some addr => if shift.isSome then (addr, none)
          else parseIPv6Loop cs (n + 2) 0#32 addr (some (n + 2)) := by
  rw [parseIPv6Loop, if_pos rfl]
  rcases storeGroup n v addr with _ | addr
  · rfl
  · dsimp only
    rw [if_pos rfl]

theorem parseIPv6Loop_sep {cs : List Byte} (hcs : cs.head? ≠ some colon) (n : ℕ) (v : BitVec 32)
    (addr : Vector Byte 16) (shift : Option ℕ) : parseIPv6Loop (colon :: cs) n v addr shift =
      match storeGroup n v addr with
      | none => (addr, none)
      | some addr => parseIPv6Loop cs (n + 2) 0#32 addr shift := by
  rw [parseIPv6Loop, if_pos rfl]
  rcases storeGroup n v addr with _ | addr
  · rfl
  · cases cs with
    | nil => rfl
    | cons c cs =>
      dsimp only
      rw [if_neg fun hc => hcs (by rw [hc]; rfl)]

theorem parseIPv6Loop_digit {c : Byte} (hc : c ≠ colon) (cs : List Byte) (n : ℕ) (v : BitVec 32)
    (addr : Vector Byte 16) (shift : Option ℕ) : parseIPv6Loop (c :: cs) n v addr shift =
      if (fromHexDigit c).slt 0#32 then (addr, none)
      else parseIPv6Loop cs n (v <<< 4 ||| fromHexDigit c) addr shift := by
  rw [parseIPv6Loop, if_neg hc]

/-- A group in front of those of the first side. -/
def consGroup (m : ℕ) : List (List ℕ) → List (List ℕ)
  | [] => []
  | ms :: T => (m :: ms) :: T

/-- The loop on any text, with the digits `p` of the group read before. -/
theorem parseIPv6Loop_spec (cs : List Byte) {p : List Byte} {m n : ℕ} (hm : hexadecimal p = some m)
    (hn : n ≤ 16) (heven : n % 2 = 0) (addr : Vector Byte 16) (shift : Option ℕ) :
    atEnd6 (parseIPv6Loop cs n (BitVec.ofNat 32 m) addr shift) =
      ((readSides (consFirst p (sides colon cs))).bind (store6Sides (stored n addr) shift)).map
        fun r => (r.1.length, r) := by
  induction cs using sides_induction colon generalizing p m n addr shift with
  | nil =>
    have hread : readSides (consFirst p (sides colon [])) = some [[m]] := by
      simp [sides, consFirst, consHead, readSides, hm]
    rw [hread, Option.bind_some, store6Sides, parseIPv6Loop]
    rcases hstore : storeGroup n (BitVec.ofNat 32 m) addr with _ | addr'
    · rw [store6_of_storeGroup_none hn heven hstore]
      rfl
    · obtain ⟨hlt, -, hsome⟩ := stored_of_storeGroup hn heven hstore
      rw [hsome, Option.map_some, Option.map_some, length_stored hlt]
      rfl
  | sepSep cs ih =>
    rw [parseIPv6Loop_sepSep, sides_sep_sep, consFirst, consHead, List.append_nil, readSides_cons,
      mapM_cons_eq, hm]
    rcases hstore : storeGroup n (BitVec.ofNat 32 m) addr with _ | addr'
    · rcases hread : readSides (sides colon cs) with _ | T
      · rfl
      · obtain ⟨k, ks, S, rfl⟩ := readSides_sides hread
        change none = (store6Sides (stored n addr) shift ([m] :: (k :: ks) :: S)).map _
        rw [store6Sides, store6_of_storeGroup_none hn heven hstore]
        rfl
    · obtain ⟨hlt, heven', hsome⟩ := stored_of_storeGroup hn heven hstore
      have hrest := ih hexadecimal_nil hlt heven' addr' (some (n + 2))
      rw [consFirst_nil] at hrest
      rcases hread : readSides (sides colon cs) with _ | T
      · rw [hread] at hrest
        cases shift with
        | none => exact hrest
        | some shift => rfl
      · obtain ⟨k, ks, S, rfl⟩ := readSides_sides hread
        rw [hread] at hrest
        change atEnd6 _ = (store6Sides (stored n addr) shift ([m] :: (k :: ks) :: S)).map _
        rw [store6Sides, hsome, Option.bind_some]
        cases shift with
        | none =>
          rw [length_stored hlt]
          exact hrest
        | some shift => rfl
  | sepOne cs hcs ih =>
    obtain ⟨f, fs, S, hsides⟩ := sides_eq_cons colon cs
    have hfields : readSides (consFirst p (consField (sides colon cs))) =
        (readSides (sides colon cs)).map (consGroup m) := by
      rw [hsides, consField, consFirst, consHead, List.append_nil, readSides_cons, readSides_cons,
        mapM_cons_eq, hm]
      rcases (f :: fs).mapM hexadecimal with _ | ms
      · rfl
      · rcases readSides S with _ | T <;> rfl
    rw [parseIPv6Loop_sep hcs, sides_sep hcs, hfields]
    rcases hstore : storeGroup n (BitVec.ofNat 32 m) addr with _ | addr'
    · rcases hread : readSides (sides colon cs) with _ | T
      · rfl
      · obtain ⟨k, ks, T, rfl⟩ := readSides_sides hread
        rw [Option.map_some, Option.bind_some, consGroup, store6Sides_cons,
          store6_of_storeGroup_none hn heven hstore]
        rfl
    · obtain ⟨hlt, heven', hsome⟩ := stored_of_storeGroup hn heven hstore
      have hrest := ih hexadecimal_nil hlt heven' addr' shift
      rw [consFirst_nil] at hrest
      refine hrest.trans ?_
      rcases hread : readSides (sides colon cs) with _ | T
      · rfl
      · obtain ⟨k, ks, T, rfl⟩ := readSides_sides hread
        rw [Option.map_some, Option.bind_some, Option.bind_some, consGroup, store6Sides_cons _ _ m,
          hsome]
        rfl
  | cons c cs hc ih =>
    obtain ⟨f, fs, S, hsides⟩ := sides_eq_cons colon cs
    rw [parseIPv6Loop_digit hc, sides_cons hc, ← consFirst_append]
    rcases hd : hexDigit c with _ | d
    · have hnone : hexadecimal (p ++ [c] ++ f) = none := by
        rw [List.append_assoc]
        exact numeral_eq_none hd p f
      rw [hsides, consFirst, consHead, readSides, List.mapM_cons, List.mapM_cons, hnone,
        fromHexDigit_eq, hd]
      rfl
    · have hnum : hexadecimal (p ++ [c]) = some (m * 16 + d) := by
        rw [hexadecimal, numeral_append_singleton, ← hexadecimal, hm, hd]
        rfl
      rw [← ih hnum hn heven addr shift, fromHexDigit_eq, hd]
      simp only [Option.map_some, Option.getD_some, not_slt_digit d (hexDigit_lt hd),
        Bool.false_eq_true, if_false, ofNat_shift_or m (hexDigit_lt hd)]

/-! ### The zeros of a compressed address -/

theorem stored_fill {n k : ℕ} (h : n + k ≤ 16) (addr : Vector Byte 16) (b : Byte) :
    stored (n + k) ((List.range' n k).foldl (fun addr n => addr.setIfInBounds n b) addr) =
      stored n addr ++ List.replicate k b := by
  induction k generalizing n addr with
  | zero => simp
  | succ k ih =>
    rw [List.range'_succ, List.foldl_cons, Nat.add_comm k, ← Nat.add_assoc, ih (by omega),
      stored_set (by omega), List.append_assoc, Nat.add_comm 1 k, List.replicate_succ]
    rfl

theorem moveUp_getElem? {shift off j : ℕ} (hj : j ≤ 16) (addr : Vector Byte 16) (i : ℕ) :
    (moveUp shift off j addr)[i]? =
      if shift + off ≤ i ∧ i < j then addr[i - off]? else addr[i]? := by
  induction j generalizing addr with
  | zero => rw [moveUp, if_neg (by omega)]
  | succ j ih =>
    rw [moveUp]
    by_cases hmove : shift + off ≤ j
    · rw [if_pos hmove, ih (by omega)]
      have hget : (addr[j - off]?.getD 0#8) = addr[j - off] := by
        rw [Vector.getElem?_eq_getElem, Option.getD_some]
      by_cases hi : i = j
      · subst hi
        rw [if_neg (by omega), if_pos (by omega),
          Vector.getElem?_setIfInBounds_self_of_lt (by omega), hget, Vector.getElem?_eq_getElem]
      · have hlt : (shift + off ≤ i ∧ i < j + 1) ↔ shift + off ≤ i ∧ i < j := by omega
        rw [if_congr hlt rfl rfl]
        split
        · exact Vector.getElem?_setIfInBounds_ne (by omega)
        · exact Vector.getElem?_setIfInBounds_ne (Ne.symm hi)
    · rw [if_neg hmove, if_neg (by omega)]

theorem clear_getElem? {shift off : ℕ} (h : shift + off ≤ 16) (addr : Vector Byte 16) (i : ℕ) :
    (clear shift off addr)[i]? =
      if shift ≤ i ∧ i < shift + off then some 0#8 else addr[i]? := by
  rw [clear]
  induction off generalizing shift addr with
  | zero => rw [if_neg (by omega)]; rfl
  | succ off ih =>
    rw [List.range'_succ, List.foldl_cons, ih (by omega)]
    by_cases hi : i = shift
    · subst hi
      rw [if_neg (by omega), if_pos (by omega), Vector.getElem?_setIfInBounds_self_of_lt (by omega)]
    · have hlt : (shift + 1 ≤ i ∧ i < shift + 1 + off) ↔ shift ≤ i ∧ i < shift + (off + 1) := by
        omega
      rw [if_congr hlt rfl rfl, Vector.getElem?_setIfInBounds_ne (Ne.symm hi)]

/-- The zeros are where `::` is. -/
theorem clear_moveUp {n shift : ℕ} (hn : n ≤ 16) (hshift : shift ≤ n) (addr : Vector Byte 16) :
    (clear shift (16 - n) (moveUp shift (16 - n) 16 addr)).toList =
      (stored n addr).take shift ++ List.replicate (16 - n) 0#8 ++ (stored n addr).drop shift := by
  have hlen := length_stored hn addr
  have hget : ∀ i, (stored n addr)[i]? = if i < n then addr[i]? else none := fun i => by
    rw [stored, List.getElem?_take, Vector.getElem?_toList]
  refine List.ext_getElem? fun i => ?_
  rw [Vector.getElem?_toList, clear_getElem? (by omega), moveUp_getElem? (Nat.le_refl 16)]
  rcases Nat.lt_or_ge i shift with hi | hi
  · rw [if_neg (by omega), if_neg (by omega), List.append_assoc,
      List.getElem?_append_left (by rw [List.length_take]; omega), List.getElem?_take_of_lt hi,
      hget, if_pos (by omega)]
  · rcases Nat.lt_or_ge i (shift + (16 - n)) with hi' | hi'
    · rw [if_pos ⟨hi, hi'⟩, List.append_assoc, List.getElem?_append_right
        (by rw [List.length_take]; omega), List.getElem?_append_left
        (by rw [List.length_take, List.length_replicate]; omega), List.getElem?_replicate,
        if_pos (by rw [List.length_take]; omega)]
    · rw [if_neg (by omega), List.getElem?_append_right
        (by rw [List.length_append, List.length_take, List.length_replicate]; omega),
        List.length_append, List.length_take, List.length_replicate, List.getElem?_drop, hget,
        Nat.min_eq_left (by omega)]
      have hpos : shift + (i - (shift + (16 - n))) = i - (16 - n) := by omega
      rw [hpos]
      by_cases hlt : i < 16
      · rw [if_pos ⟨hi', hlt⟩, if_pos (by omega)]
      · rw [if_neg (by omega), if_neg (by omega), Vector.getElem?_eq_none (by omega)]

/-! ### What is accepted -/

theorem store4_eq_some {bs bs' : List Byte} {ns : List ℕ} : store4 bs ns = some bs' ↔
    (∀ n ∈ ns, asInt n ≤ 0xff) ∧ bs.length + ns.length ≤ 16 ∧
      bs' = bs ++ ns.map (BitVec.ofNat 8) := by
  rw [store4, Option.ite_none_right_eq_some, Option.some.injEq, and_assoc, @eq_comm _ bs']

theorem store6_eq_some {bs bs' : List Byte} {ms : List ℕ} : store6 bs ms = some bs' ↔
    (∀ m ∈ ms, asInt m ≤ 0xffff) ∧ bs.length + 2 * ms.length ≤ 16 ∧
      bs' = bs ++ ms.flatMap intBytes := by
  rw [store6, Option.ite_none_right_eq_some, Option.some.injEq, and_assoc, @eq_comm _ bs']

theorem IpAddr.eq_of_toList {a b : IpAddr} (h : a.addr.toList = b.addr.toList) : a = b := by
  obtain ⟨a⟩ := a
  obtain ⟨b⟩ := b
  exact congrArg IpAddr.mk (Vector.toList_inj.mp h)

/-- **What `parseIPv4` accepts.** -/
theorem parseIPv4_spec (a : IpAddr) (text : Str) (r : IpAddr) :
    a.parseIPv4 text = (true, r) ↔ ∃ ns, (fields dot text.chars).mapM decimal = some ns ∧
      ns.length = 4 ∧ (∀ n ∈ ns, asInt n ≤ 0xff) ∧
      r.addr.toList = mappedPrefix ++ ns.map (BitVec.ofNat 8) := by
  rw [IpAddr.parseIPv4, List.range_eq_range']
  generalize hzeros : (List.range' 0 10).foldl (fun addr n => addr.setIfInBounds n 0#8) a.addr =
    zeros
  generalize hinit : (List.range' 10 2).foldl (fun addr n => addr.setIfInBounds n 0xff#8) zeros =
    init
  have hprefix : stored 12 init = mappedPrefix := by
    have h₁ := stored_fill (n := 10) (k := 2) (by omega) zeros 0xff#8
    have h₂ := stored_fill (n := 0) (k := 10) (by omega) a.addr 0#8
    rw [hinit] at h₁
    rw [hzeros] at h₂
    rw [h₁, h₂]
    rfl
  have hloop := parseIPv4Loop_spec text.chars decimal_nil (by omega : 12 ≤ 16) init
  obtain ⟨f, fs, hfields⟩ := fields_ne_nil dot text.chars
  rw [hfields, consHead, List.nil_append, ← hfields, hprefix] at hloop
  generalize hrun : parseIPv4Loop text.chars 12 (BitVec.ofNat 32 0) init = run at hloop
  obtain ⟨addr, e⟩ := run
  constructor
  · cases e with
    | none => intro h; cases h
    | some n =>
      intro h
      obtain ⟨hn, hr⟩ := Prod.mk.inj h
      have hn' := of_decide_eq_true hn
      subst hr hn'
      obtain ⟨bs, hbs, htag⟩ := Option.map_eq_some_iff.mp hloop.symm
      obtain ⟨hlen, hstored⟩ := Prod.mk.inj htag
      obtain ⟨ns, hns, hstore⟩ := Option.bind_eq_some_iff.mp hbs
      obtain ⟨hrange, -, hbytes⟩ := store4_eq_some.mp hstore
      refine ⟨ns, hns, ?_, hrange, ?_⟩
      · rw [hbytes, List.length_append, List.length_map] at hlen
        have hprefixLen : mappedPrefix.length = 12 := rfl
        omega
      · rw [← stored_all, ← hstored, hbytes]
  · rintro ⟨ns, hns, hlen, hrange, hr⟩
    have hstore : store4 mappedPrefix ns = some r.addr.toList :=
      store4_eq_some.mpr ⟨hrange, by rw [hlen]; decide, hr⟩
    rw [hns, Option.bind_some, hstore, Option.map_some, Vector.length_toList] at hloop
    obtain ⟨n, hn, hstored⟩ := Option.map_eq_some_iff.mp hloop
    obtain ⟨rfl, hbytes⟩ := Prod.mk.inj hstored
    dsimp only at hn
    subst hn
    rw [stored_all] at hbytes
    exact congrArg (Prod.mk true) (IpAddr.eq_of_toList hbytes)

theorem length_intBytes (ms : List ℕ) : (ms.flatMap intBytes).length = 2 * ms.length := by
  induction ms with
  | nil => rfl
  | cons m ms ih =>
    have hm : (intBytes m).length = 2 := rfl
    rw [List.flatMap_cons, List.length_append, ih, hm, List.length_cons]
    omega

/-- What the sides of a text give: groups in a row, or two sides. -/
theorem store6Sides_eq_some {T : List (List ℕ)} {bs : List Byte} {shift : Option ℕ} :
    store6Sides [] none T = some (bs, shift) ↔
      (∃ ns, T = [ns] ∧ shift = none ∧ (∀ n ∈ ns, asInt n ≤ 0xffff) ∧ ns.length ≤ 8 ∧
        bs = ns.flatMap intBytes) ∨
      ∃ ns ms, T = [ns, ms] ∧ shift = some (2 * ns.length) ∧ (∀ n ∈ ns ++ ms, asInt n ≤ 0xffff) ∧
        ns.length + ms.length ≤ 8 ∧ bs = ns.flatMap intBytes ++ ms.flatMap intBytes := by
  constructor
  · intro h
    match T with
    | [ns] =>
      obtain ⟨bs', hstore, heq⟩ := Option.map_eq_some_iff.mp h
      obtain ⟨rfl, rfl⟩ := Prod.mk.inj heq
      obtain ⟨hrange, hlen, rfl⟩ := store6_eq_some.mp hstore
      exact .inl ⟨ns, rfl, rfl, hrange, by rw [List.length_nil] at hlen; omega, rfl⟩
    | [ns, ms] =>
      obtain ⟨bs₁, hfirst, h⟩ := Option.bind_eq_some_iff.mp h
      obtain ⟨bs₂, hsecond, heq⟩ := Option.map_eq_some_iff.mp h
      obtain ⟨rfl, rfl⟩ := Prod.mk.inj heq
      obtain ⟨hrange, -, rfl⟩ := store6_eq_some.mp hfirst
      obtain ⟨hrange', hlen, rfl⟩ := store6_eq_some.mp hsecond
      rw [List.nil_append, length_intBytes] at hlen
      exact .inr ⟨ns, ms, rfl, by rw [List.nil_append, length_intBytes],
        List.forall_mem_append.mpr ⟨hrange, hrange'⟩, by omega, rfl⟩
    | ns :: ms :: ks :: S =>
      obtain ⟨bs₁, -, h⟩ := Option.bind_eq_some_iff.mp h
      obtain ⟨bs₂, -, h⟩ := Option.bind_eq_some_iff.mp h
      cases h
  · rintro (⟨ns, rfl, rfl, hrange, hlen, rfl⟩ | ⟨ns, ms, rfl, rfl, hrange, hlen, rfl⟩)
    · have hstore : store6 [] ns = some (ns.flatMap intBytes) :=
        store6_eq_some.mpr ⟨hrange, by rw [List.length_nil]; omega, rfl⟩
      rw [store6Sides, hstore, Option.map_some]
    · rw [List.forall_mem_append] at hrange
      have hfirst : store6 [] ns = some (ns.flatMap intBytes) :=
        store6_eq_some.mpr ⟨hrange.1, by rw [List.length_nil]; omega, rfl⟩
      have hsecond : store6 (ns.flatMap intBytes) ms =
          some (ns.flatMap intBytes ++ ms.flatMap intBytes) :=
        store6_eq_some.mpr ⟨hrange.2, by rw [length_intBytes]; omega, rfl⟩
      rw [store6Sides, hfirst, Option.bind_some, store6Sides, length_intBytes, hsecond]
      rfl

/-- **What `parseIPv6` accepts.** -/
theorem parseIPv6_spec (a : IpAddr) (text : Str) (r : IpAddr) :
    a.parseIPv6 text = (true, r) ↔
      (∃ ns, readSides (sides colon text.chars) = some [ns] ∧ ns.length = 8 ∧
        (∀ n ∈ ns, asInt n ≤ 0xffff) ∧ r.addr.toList = ns.flatMap intBytes) ∨
      ∃ ns ms, readSides (sides colon text.chars) = some [ns, ms] ∧ ns.length + ms.length ≤ 8 ∧
        (∀ n ∈ ns ++ ms, asInt n ≤ 0xffff) ∧
        r.addr.toList = ns.flatMap intBytes ++
          List.replicate (16 - 2 * (ns.length + ms.length)) 0#8 ++ ms.flatMap intBytes := by
  have hloop := parseIPv6Loop_spec text.chars hexadecimal_nil (Nat.zero_le 16) rfl a.addr none
  have hstored : stored 0 a.addr = [] := rfl
  rw [consFirst_nil, hstored] at hloop
  rw [IpAddr.parseIPv6]
  generalize hrun : parseIPv6Loop text.chars 0 (BitVec.ofNat 32 0) a.addr none = run at hloop
  obtain ⟨addr, e⟩ := run
  constructor
  · rcases e with _ | ⟨n, shift⟩
    · intro h
      cases h
    · intro h
      obtain ⟨⟨bs, shift'⟩, hbs, htag⟩ := Option.map_eq_some_iff.mp hloop.symm
      obtain ⟨hn, htag⟩ := Prod.mk.inj htag
      obtain ⟨hbytes, rfl⟩ := Prod.mk.inj htag
      dsimp only at hn hbytes
      subst hn
      obtain ⟨T, hT, hstore⟩ := Option.bind_eq_some_iff.mp hbs
      rcases store6Sides_eq_some.mp hstore with
        ⟨ns, rfl, rfl, hrange, hlen, rfl⟩ | ⟨ns, ms, rfl, rfl, hrange, hlen, rfl⟩
      · obtain ⟨hfull, hr⟩ := Prod.mk.inj h
        have hfull := of_decide_eq_true hfull
        rw [hfull, stored_all] at hbytes
        rw [length_intBytes] at hfull
        exact .inl ⟨ns, hT, by omega, hrange, by rw [← hr, hbytes]⟩
      · have hle : (ns.flatMap intBytes ++ ms.flatMap intBytes).length =
            2 * (ns.length + ms.length) := by
          rw [List.length_append, length_intBytes, length_intBytes, Nat.mul_add]
        obtain ⟨-, hr⟩ := Prod.mk.inj h
        refine .inr ⟨ns, ms, hT, hlen, hrange, ?_⟩
        rw [← hr]
        dsimp only
        rw [clear_moveUp (by omega) (by omega), ← hbytes, hle,
          List.take_left' (length_intBytes ns), List.drop_left' (length_intBytes ns)]
  · rintro (⟨ns, hT, hlen, hrange, hr⟩ | ⟨ns, ms, hT, hlen, hrange, hr⟩)
    · have hstore := store6Sides_eq_some.mpr (.inl ⟨ns, rfl, rfl, hrange, Nat.le_of_eq hlen, rfl⟩)
      rw [hT, Option.bind_some, hstore, Option.map_some, length_intBytes, hlen] at hloop
      obtain ⟨⟨n, shift⟩, he, htag⟩ := Option.map_eq_some_iff.mp hloop
      obtain ⟨rfl, htag⟩ := Prod.mk.inj htag
      obtain ⟨hbytes, rfl⟩ := Prod.mk.inj htag
      dsimp only at he hbytes
      subst he
      refine congrArg (Prod.mk true) (IpAddr.eq_of_toList ?_)
      rw [← stored_all, hr]
      exact hbytes
    · have hstore := store6Sides_eq_some.mpr (.inr ⟨ns, ms, rfl, rfl, hrange, hlen, rfl⟩)
      rw [hT, Option.bind_some, hstore, Option.map_some, List.length_append, length_intBytes,
        length_intBytes, ← Nat.mul_add] at hloop
      obtain ⟨⟨n, shift⟩, he, htag⟩ := Option.map_eq_some_iff.mp hloop
      obtain ⟨rfl, htag⟩ := Prod.mk.inj htag
      obtain ⟨hbytes, rfl⟩ := Prod.mk.inj htag
      dsimp only at he hbytes
      subst he
      refine congrArg (Prod.mk true) (IpAddr.eq_of_toList ?_)
      dsimp only
      rw [clear_moveUp (by omega) (by omega), hr, hbytes, List.take_left' (length_intBytes ns),
        List.drop_left' (length_intBytes ns)]

/-! ### Both forms -/

/-- A text of four fields of digits whose numbers are in the range of an `int`. -/
def LooseQuad (text bytes : List Byte) : Prop :=
  ∃ ns, (fields dot text).mapM decimal = some ns ∧ ns.length = 4 ∧ (∀ n ∈ ns, asInt n ≤ 0xff) ∧
    bytes = mappedPrefix ++ ns.map (BitVec.ofNat 8)

/-- A text of fields of hexadecimal digits, eight of them or two sides with eight at most. -/
def LooseGroups (text bytes : List Byte) : Prop :=
  (∃ ns, readSides (sides colon text) = some [ns] ∧ ns.length = 8 ∧
    (∀ n ∈ ns, asInt n ≤ 0xffff) ∧ bytes = ns.flatMap intBytes) ∨
  ∃ ns ms, readSides (sides colon text) = some [ns, ms] ∧ ns.length + ms.length ≤ 8 ∧
    (∀ n ∈ ns ++ ms, asInt n ≤ 0xffff) ∧
    bytes = ns.flatMap intBytes ++
      List.replicate (16 - 2 * (ns.length + ms.length)) 0#8 ++ ms.flatMap intBytes

theorem index_pos (text : Str) (c : Byte) :
    text.index c > 0 ↔ c ∈ text.chars ∧ text.chars.head? ≠ some c := by
  obtain ⟨chars, hzero⟩ := text
  cases chars with
  | nil => simp [Str.index]
  | cons d ds =>
    by_cases hd : d = c
    · simp [Str.index, List.idxOf?_cons, hd]
    · have hdc : ¬c = d := fun h => hd h.symm
      rcases hidx : ds.idxOf? c with _ | i
      · have hmem := List.idxOf?_eq_none_iff.mp hidx
        simp [Str.index, List.idxOf?_cons, hd, hdc, hidx, hmem]
      · have hmem : c ∈ ds := by
          by_contra hnot
          rw [List.idxOf?_eq_none_iff.mpr hnot] at hidx
          cases hidx
        simp [Str.index, List.idxOf?_cons, hd, hidx, hmem]

/-- The characters of a text with four fields: there is a dot. -/
theorem dot_mem_of_fields {text : List Byte} {ns : List ℕ}
    (h : (fields dot text).mapM decimal = some ns) (hlen : ns.length = 4) : dot ∈ text := by
  by_contra hdot
  have hfields := fields_append hdot []
  rw [List.append_nil] at hfields
  rw [hfields, fields, consHead, List.append_nil, mapM_cons_eq] at h
  obtain ⟨n, -, h⟩ := Option.bind_eq_some_iff.mp h
  obtain ⟨ns', hns', rfl⟩ := Option.map_eq_some_iff.mp h
  obtain rfl := Option.some.inj hns'
  cases hlen

theorem forall₂_of_mapM {α β : Type} {f : α → Option β} {as : List α} {bs : List β} :
    as.mapM f = some bs ↔ List.Forall₂ (fun a b => f a = some b) as bs := by
  induction as generalizing bs with
  | nil =>
    rw [List.mapM_nil, List.forall₂_nil_left_iff]
    exact ⟨fun h => (Option.some.inj h).symm, fun h => h ▸ rfl⟩
  | cons a as ih =>
    rw [mapM_cons_eq, List.forall₂_cons_left_iff]
    constructor
    · intro h
      obtain ⟨b, hb, h⟩ := Option.bind_eq_some_iff.mp h
      obtain ⟨bs', hbs, rfl⟩ := Option.map_eq_some_iff.mp h
      exact ⟨b, bs', hb, ih.mp hbs, rfl⟩
    · rintro ⟨b, bs', hb, hbs, rfl⟩
      rw [hb, Option.bind_some, ih.mpr hbs, Option.map_some]

theorem exists_of_mem_mapM {α β : Type} {f : α → Option β} {as : List α} {bs : List β}
    (h : as.mapM f = some bs) {a : α} (ha : a ∈ as) : ∃ b, f a = some b := by
  induction forall₂_of_mapM.mp h with
  | nil => cases ha
  | cons hab hrest ih =>
    rcases List.mem_cons.mp ha with rfl | ha
    · exact ⟨_, hab⟩
    · exact ih (forall₂_of_mapM.mpr hrest) ha

/-- The characters of a text with decimal fields. -/
theorem not_mem_of_decimal {text : List Byte} {ns : List ℕ}
    (h : (fields dot text).mapM decimal = some ns) {c : Byte} (hdigit : decDigit c = none)
    (hdot : c ≠ dot) : c ∉ text := by
  intro hc
  rw [← join_fields dot text] at hc
  rcases mem_join hc with heq | ⟨f, hf, hcf⟩
  · exact hdot heq
  · obtain ⟨n, hn⟩ := exists_of_mem_mapM h hf
    exact digit_ne_none hn hcf hdigit

/-- The characters of a text with hexadecimal fields. -/
theorem not_mem_of_hexadecimal {text : List Byte} {T : List (List ℕ)}
    (h : readSides (sides colon text) = some T) {c : Byte} (hdigit : hexDigit c = none)
    (hcolon : c ≠ colon) : c ∉ text := by
  intro hc
  rw [← joinSides_sides colon text] at hc
  rcases mem_joinSides hc with heq | ⟨fs, hfs, f, hf, hcf⟩
  · exact hcolon heq
  · obtain ⟨ns, hns⟩ := exists_of_mem_mapM h hfs
    obtain ⟨n, hn⟩ := exists_of_mem_mapM hns hf
    exact digit_ne_none hn hcf hdigit

theorem LooseQuad.not_mem {text bytes : List Byte} (h : LooseQuad text bytes) {c : Byte}
    (hdigit : decDigit c = none) (hdot : c ≠ dot) : c ∉ text := by
  obtain ⟨ns, hns, -⟩ := h
  exact not_mem_of_decimal hns hdigit hdot

theorem LooseGroups.not_mem {text bytes : List Byte} (h : LooseGroups text bytes) {c : Byte}
    (hdigit : hexDigit c = none) (hcolon : c ≠ colon) : c ∉ text := by
  rcases h with ⟨ns, hread, -⟩ | ⟨ns, ms, hread, -⟩
  · exact not_mem_of_hexadecimal hread hdigit hcolon
  · exact not_mem_of_hexadecimal hread hdigit hcolon

/-- A text that is accepted, with its bytes. -/
def Accepts (text bytes : List Byte) : Prop :=
  LooseQuad text bytes ∧ text.head? ≠ some dot ∨ LooseGroups text bytes

/-- **What `parse` accepts**, and with which bytes. -/
theorem parse_spec (a : IpAddr) (text : Str) (r : IpAddr) :
    a.parse text = (true, r) ↔ Accepts text.chars r.addr.toList := by
  rw [IpAddr.parse, Accepts]
  split
  · next hpos =>
    obtain ⟨hmem, hhead⟩ := (index_pos text dot).mp hpos
    rw [parseIPv4_spec]
    refine ⟨fun h => .inl ⟨h, hhead⟩, fun h => ?_⟩
    rcases h with h | h
    · exact h.1
    · exact absurd hmem (h.not_mem rfl (by decide))
  · next hpos =>
    rw [parseIPv6_spec]
    refine ⟨.inr, fun h => ?_⟩
    rcases h with ⟨⟨ns, hns, hlen, -⟩, hhead⟩ | h
    · exact absurd ((index_pos text dot).mpr ⟨dot_mem_of_fields hns hlen, hhead⟩) hpos
    · exact h

end Sedona.Inet
