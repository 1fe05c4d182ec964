import Mathlib.Data.List.Forall2
import Sedona.Inet.IpAddr
import Sedona.Library.Fields
import Sedona.Library.Numerals

/-!
# The Texts of Addresses

What the text of an address is, and which address it denotes: a dotted quad, or groups of
hexadecimal digits between colons, of which `::` stands for as many groups of zero as are missing.
The last two groups may be written as a dotted quad.
-/

namespace Sedona.Inet

open Fields Numerals

/-! ### Numbers -/

def decDigit (c : Byte) : Option ℕ :=
  if 0x30#8 ≤ c ∧ c ≤ 0x39#8 then some (c.toNat - 0x30) else none

def hexDigit (c : Byte) : Option ℕ :=
  if 0x30#8 ≤ c ∧ c ≤ 0x39#8 then some (c.toNat - 0x30)
  else if 0x61#8 ≤ c ∧ c ≤ 0x66#8 then some (c.toNat - 0x61 + 10)
  else if 0x41#8 ≤ c ∧ c ≤ 0x46#8 then some (c.toNat - 0x41 + 10)
  else none

/-- The number of a field, if its characters are decimal digits. -/
abbrev decimal (f : List Byte) : Option ℕ := numeral 10 decDigit f

/-- The number of a field, if its characters are hexadecimal digits. -/
abbrev hexadecimal (f : List Byte) : Option ℕ := numeral 16 hexDigit f

/-- Digits that are a number of at most `max`. -/
def IsNumber (base : ℕ) (digit : Byte → Option ℕ) (max : ℕ) (f : List Byte) (n : ℕ) : Prop :=
  f ≠ [] ∧ numeral base digit f = some n ∧ n ≤ max

/-- A decimal number from 0 to 255. -/
def IsByte : List Byte → ℕ → Prop := IsNumber 10 decDigit 0xff

/-- A hexadecimal number of at most `ffff`. -/
def IsGroup : List Byte → ℕ → Prop := IsNumber 16 hexDigit 0xffff

/-! ### Addresses -/

/-- Four numbers with dots between them. -/
def DottedQuad (text : List Byte) (ns : List ℕ) : Prop :=
  ∃ fs, fs.length = 4 ∧ List.Forall₂ IsByte fs ns ∧ text = join dot fs

def Groups (fs : List (List Byte)) (ws : List ℕ) : Prop := List.Forall₂ IsGroup fs ws

/-- Groups, the last two of which are written as a dotted quad. -/
def GroupsAndQuad (fs : List (List Byte)) (ws : List ℕ) : Prop :=
  ∃ gs vs q n₀ n₁ n₂ n₃, Groups gs vs ∧ DottedQuad q [n₀, n₁, n₂, n₃] ∧
    fs = gs ++ [q] ∧ ws = vs ++ [n₀ * 256 + n₁, n₂ * 256 + n₃]

/-- The text of an IPv6 address with its eight groups, where `Last` says what the last groups may be
written as. -/
inductive IPv6Text (Last : List (List Byte) → List ℕ → Prop) : List Byte → List ℕ → Prop where
  | full {fs : List (List Byte)} {ws : List ℕ} (h : Last fs ws) (hlen : ws.length = 8) :
      IPv6Text Last (join colon fs) ws
  /-- `::` stands for one group at least. -/
  | compressed {fs gs : List (List Byte)} {ws vs : List ℕ} (h : Groups fs ws) (h' : Last gs vs)
      (hlen : ws.length + vs.length ≤ 7) :
      IPv6Text Last (join colon fs ++ colon :: colon :: join colon gs)
        (ws ++ List.replicate (8 - (ws.length + vs.length)) 0 ++ vs)

/-- The bytes of groups. -/
def groupBytes (ws : List ℕ) : List Byte :=
  ws.flatMap fun w => [BitVec.ofNat 8 (w / 256), BitVec.ofNat 8 w]

/-- The bytes in front of an IPv4 address. -/
def mappedPrefix : List Byte := List.replicate 10 0#8 ++ [0xff#8, 0xff#8]

/-- Groups, the last two of which may be written as a dotted quad. -/
def GroupsOrQuad (fs : List (List Byte)) (ws : List ℕ) : Prop := Groups fs ws ∨ GroupsAndQuad fs ws

/-- The text denotes the address with the given bytes. -/
inductive Denotes (Last : List (List Byte) → List ℕ → Prop) : List Byte → List Byte → Prop where
  | quad {text : List Byte} {ns : List ℕ} (h : DottedQuad text ns) :
      Denotes Last text (mappedPrefix ++ ns.map (BitVec.ofNat 8))
  | ipv6 {text : List Byte} {ws : List ℕ} (h : IPv6Text Last text ws) :
      Denotes Last text (groupBytes ws)

/-! ### Texts that are almost addresses -/

/-- The value of a number in an `int`. -/
def asInt (n : ℕ) : ℤ := (BitVec.ofNat 32 n).toInt

/-- Where the text has the form of an address but for empty fields, numbers that are in range only
in an `int`, and a `::` that stands for no group, it has none of these. -/
structure Strict (text : List Byte) : Prop where
  quad {ns : List ℕ} (hfields : (fields dot text).mapM decimal = some ns) (hlen : ns.length = 4)
    (hhead : text.head? ≠ some dot) (hrange : ∀ n ∈ ns, asInt n ≤ 0xff) :
    (∀ f ∈ fields dot text, f ≠ []) ∧ ∀ n ∈ ns, n ≤ 0xff
  full {fs : List (List Byte)} {ns : List ℕ} (hsides : sides colon text = [fs])
    (hfs : fs.mapM hexadecimal = some ns) (hlen : ns.length = 8)
    (hrange : ∀ n ∈ ns, asInt n ≤ 0xffff) : (∀ f ∈ fs, f ≠ []) ∧ ∀ n ∈ ns, n ≤ 0xffff
  compressed {fs gs : List (List Byte)} {ns ms : List ℕ} (hsides : sides colon text = [fs, gs])
    (hfs : fs.mapM hexadecimal = some ns) (hgs : gs.mapM hexadecimal = some ms)
    (hlen : ns.length + ms.length ≤ 8) (hrange : ∀ n ∈ ns ++ ms, asInt n ≤ 0xffff) :
    (∃ fs' gs', fs = sideFields fs' ∧ gs = sideFields gs' ∧ (∀ f ∈ fs' ++ gs', f ≠ []) ∧
      fs'.length + gs'.length ≤ 7) ∧ ∀ n ∈ ns ++ ms, n ≤ 0xffff

end Sedona.Inet
