import Mathlib.Data.Int.Notation
import Mathlib.Data.List.Basic

/-!
# IpAddr

Addresses of the Internet (`inet::IpAddr`): the text of an address, and how a text is parsed. An
`int` has 32 bits. A string is the bytes in front of its terminator, which `get` gives as zero.
-/

namespace Sedona.Inet

abbrev Byte := BitVec 8

/-- `sys::Str`. -/
structure Str where
  chars : List Byte
  nonzero : ∀ c ∈ chars, c ≠ 0#8

/-- `IpAddr`: the address in network byte order. An IPv4 address has ten zero bytes and two bytes of
ones in front of it. -/
structure IpAddr where
  addr : Vector Byte 16
deriving DecidableEq

def dot : Byte := 0x2e#8

def colon : Byte := 0x3a#8

/-! ### sys::Sys and sys::Str -/

/-- `Sys.fromDigit`. -/
def fromDigit (digit : Byte) : BitVec 32 :=
  if 0x30#8 ≤ digit ∧ digit ≤ 0x39#8 then digit.setWidth 32 - 0x30#32 else -1#32

/-- `Sys.fromHexDigit`. -/
def fromHexDigit (digit : Byte) : BitVec 32 :=
  if 0x30#8 ≤ digit ∧ digit ≤ 0x39#8 then digit.setWidth 32 - 0x30#32
  else if 0x61#8 ≤ digit ∧ digit ≤ 0x66#8 then digit.setWidth 32 - 0x61#32 + 10#32
  else if 0x41#8 ≤ digit ∧ digit ≤ 0x46#8 then digit.setWidth 32 - 0x41#32 + 10#32
  else -1#32

/-- `Sys.intStr` of a byte. -/
def intStr (v : Byte) : List Byte := (Nat.toDigits 10 v.toNat).map fun c => BitVec.ofNat 8 c.toNat

/-- `Sys.hexStr` of a byte. -/
def hexStr (v : Byte) : List Byte := (Nat.toDigits 16 v.toNat).map fun c => BitVec.ofNat 8 c.toNat

/-- `Str.index`. -/
def Str.index (s : Str) (ch : Byte) : ℤ :=
  match s.chars.idxOf? ch with
  | some i => i
  | none => -1

/-! ### Parsing -/

/-- The end of a segment in `parseIPv4`. -/
def storeByte (n : ℕ) (v : BitVec 32) (addr : Vector Byte 16) : Option (Vector Byte 16) :=
  if n = 16 then none
  else if (0xff#32).slt v then none
  else some (addr.setIfInBounds n (v.setWidth 8))

/-- The loop of `parseIPv4`: the index into the address at its end, or nothing if it returns
`false` before. -/
def parseIPv4Loop : List Byte → ℕ → BitVec 32 → Vector Byte 16 → Vector Byte 16 × Option ℕ
  | [], n, v, addr =>
      match storeByte n v addr with
      | none => (addr, none)
      | some addr => (addr, some (n + 1))
  | c :: cs, n, v, addr =>
      if c = dot then
        match storeByte n v addr with
        | none => (addr, none)
        | some addr => parseIPv4Loop cs (n + 1) 0#32 addr
      else
        let d := fromDigit c
        if d.slt 0#32 then (addr, none) else parseIPv4Loop cs n (v * 10#32 + d) addr

/-- `IpAddr.parseIPv4`. -/
def IpAddr.parseIPv4 (a : IpAddr) (text : Str) : Bool × IpAddr :=
  -- the top 12 bytes are those of "::ffff"
  let addr := (List.range 10).foldl (fun addr n => addr.setIfInBounds n 0#8) a.addr
  let addr := (List.range' 10 2).foldl (fun addr n => addr.setIfInBounds n 0xff#8) addr
  match parseIPv4Loop text.chars 12 0#32 addr with
  | (addr, none) => (false, ⟨addr⟩)
  | (addr, some n) => (n = 16, ⟨addr⟩)

/-- The end of a group in `parseIPv6`. -/
def storeGroup (n : ℕ) (v : BitVec 32) (addr : Vector Byte 16) : Option (Vector Byte 16) :=
  if n = 16 then none
  else if (0xffff#32).slt v then none
  else
    let addr := addr.setIfInBounds n ((v.sshiftRight 8 &&& 0xff#32).setWidth 8)
    some (addr.setIfInBounds (n + 1) ((v &&& 0xff#32).setWidth 8))

/-- The loop of `parseIPv6`: the index into the address at its end and the value of `shift`, or
nothing if it returns `false` before. -/
def parseIPv6Loop :
    List Byte → ℕ → BitVec 32 → Vector Byte 16 → Option ℕ → Vector Byte 16 × Option (ℕ × Option ℕ)
  | [], n, v, addr, shift =>
      match storeGroup n v addr with
      | none => (addr, none)
      | some addr => (addr, some (n + 2, shift))
  | c :: cs, n, v, addr, shift =>
      if c = colon then
        match storeGroup n v addr with
        | none => (addr, none)
        | some addr =>
            match cs with
            | [] => parseIPv6Loop [] (n + 2) 0#32 addr shift
            | c' :: cs =>
                if c' = colon then
                  if shift.isSome then (addr, none)
                  else parseIPv6Loop cs (n + 2) 0#32 addr (some (n + 2))
                else parseIPv6Loop (c' :: cs) (n + 2) 0#32 addr shift
      else
        let d := fromHexDigit c
        if d.slt 0#32 then (addr, none) else parseIPv6Loop cs n (v <<< 4 ||| d) addr shift

/-- `for (int j=15; j-off>=shift; --j) addr[j] = addr[j-off]`, from `j - 1` on. -/
def moveUp (shift off : ℕ) : ℕ → Vector Byte 16 → Vector Byte 16
  | 0, addr => addr
  | j + 1, addr =>
      if shift + off ≤ j then moveUp shift off j (addr.setIfInBounds j (addr[j - off]?.getD 0#8))
      else addr

/-- `for (int j=shift; j<shift+off; ++j) addr[j] = 0`. -/
def clear (shift off : ℕ) (addr : Vector Byte 16) : Vector Byte 16 :=
  (List.range' shift off).foldl (fun addr j => addr.setIfInBounds j 0#8) addr

/-- `IpAddr.parseIPv6`. -/
def IpAddr.parseIPv6 (a : IpAddr) (text : Str) : Bool × IpAddr :=
  match parseIPv6Loop text.chars 0 0#32 a.addr none with
  | (addr, none) => (false, ⟨addr⟩)
  | (addr, some (n, none)) => (n = 16, ⟨addr⟩)
  | (addr, some (n, some shift)) =>
      let off := 16 - n
      (true, ⟨clear shift off (moveUp shift off 16 addr)⟩)

/-- `IpAddr.parse`: whether the text is an address, and the address then. -/
def IpAddr.parse (a : IpAddr) (text : Str) : Bool × IpAddr :=
  if text.index dot > 0 then a.parseIPv4 text else a.parseIPv6 text

/-! ### Text -/

/-- `IpAddr.isIPv4`. -/
def IpAddr.isIPv4 (a : IpAddr) : Bool :=
  if a.addr[10] ≠ 0xff#8 ∨ a.addr[11] ≠ 0xff#8 then false
  else (List.range 10).all fun i => a.addr[i]? = some 0#8

/-- `IpAddr.append`. -/
def append (buf s : List Byte) (addSep : Bool) (sep : Byte) : List Byte :=
  (if addSep then buf ++ [sep] else buf) ++ s

/-- One round of the loop in `toStr` for two bytes of an IPv6 address. -/
def appendGroup (buf : List Byte) (x y : Byte) (addSep : Bool) : List Byte :=
  if x = 0#8 then append buf (hexStr y) addSep colon
  else
    let buf := append buf (hexStr x) addSep colon
    let s := hexStr y
    append buf s (s.getD 1 0#8 = 0#8) 0x30#8

/-- The bytes that `IpAddr.toStr` writes in front of the terminator. -/
def IpAddr.toChars (a : IpAddr) : List Byte :=
  if a.isIPv4 then
    (List.range' 12 4).foldl
      (fun buf i => append buf (intStr (a.addr[i]?.getD 0#8)) (i ≠ 12) dot) []
  else
    (List.range 8).foldl
      (fun buf k =>
        appendGroup buf (a.addr[2 * k]?.getD 0#8) (a.addr[2 * k + 1]?.getD 0#8) (0 < k)) []

end Sedona.Inet
