import Mathlib.Data.Int.Notation
import Sedona.Library.Scanner

/-!
# Dependencies on Kits

`sedona.Depend` and `sedona.util.Version`: a kit name with constraints on the version and on the
checksum, its text format and what it matches. The characters that are not consumed yet are `cur` and
the rest of the string; at its end `cur` is -1.

## Main definitions

* `Depend.parse`, `Depend.toString`: the text format.
* `Depend.isMatch`: `match` for a version and a checksum.
-/

namespace Sedona

open Scanner

/-! ### Versions -/

/-- `sedona.util.Version`: its segments. -/
structure Version where
  versions : List (BitVec 32)
deriving DecidableEq, Repr

namespace Version

/-- The loop of `compareTo`, and the comparison of the lengths behind it. -/
def compareFrom : List (BitVec 32) → List (BitVec 32) → ℤ
  | x :: xs, y :: ys =>
      if y.slt x then 1
      else if x.slt y then -1
      else compareFrom xs ys
  | [], [] => 0
  | _ :: _, [] => 1
  | [], _ :: _ => -1

/-- `Version.compareTo`. -/
def compareTo (a b : Version) : ℤ := compareFrom a.versions b.versions

/-- `Integer.toString`. -/
def intChars (x : BitVec 32) : List Char :=
  if x.toInt < 0 then '-' :: Nat.toDigits 10 x.toInt.natAbs else Nat.toDigits 10 x.toInt.natAbs

/-- `Version.toString`. -/
def toString (v : Version) : List Char :=
  match v.versions with
  | [] => []
  | x :: xs => intChars x ++ xs.flatMap fun y => '.' :: intChars y

end Version

/-! ### Constraints -/

/-- `Depend.Constraint`: one on the checksum if `version` is null. -/
structure Constraint where
  version : Option Version := none
  isPlus : Bool := false
  isExact : Bool := false
  endVersion : Option Version := none
  checksum : BitVec 32 := -1
deriving DecidableEq, Repr

/-- `Depend`. -/
structure Depend where
  name : List Char
  constraints : List Constraint
deriving DecidableEq, Repr

namespace Depend

/-- `Depend.makeChecksum`. -/
def makeChecksum (name : List Char) (checksum : BitVec 32) : Depend := ⟨name, [{ checksum }]⟩

/-! ### The parser -/

/-- All exceptions of the parser are turned into one. -/
def fail {α : Type} : Scan Char Unit α := throw ()

/-- `Parser.consume`. -/
def consume : Scan Char Unit Unit := fun r => .ok ((), r.tail)

/-- `Parser.consumeSpaces`. -/
def consumeSpaces : Scan Char Unit Unit := do
  let _ ← Scanner.takeWhile (· == ' ')
  pure ()

/-- There is a character. -/
def more : Scan Char Unit Bool := curIs fun _ => true

def isDigit (c : Char) : Bool := '0' ≤ c && c ≤ '9'

def digit (c : Char) : BitVec 32 := BitVec.ofNat 32 (c.toNat - '0'.toNat)

/-- `Parser.consumeDigit`. -/
def consumeDigit : Scan Char Unit (BitVec 32)
  | [] => .error ()
  | c :: rest => if isDigit c then .ok (digit c, rest) else .error ()

/-- `Parser.consumeHexDigit`, which consumes nothing if it is -1. -/
def hexDigit (c : Char) : Option (BitVec 32) :=
  if isDigit c then some (digit c)
  else if 'a' ≤ c && c ≤ 'f' then some (BitVec.ofNat 32 (c.toNat - 'a'.toNat + 10))
  else if 'A' ≤ c && c ≤ 'F' then some (BitVec.ofNat 32 (c.toNat - 'A'.toNat + 10))
  else none

/-- `Parser.name`. -/
def parseName : Scan Char Unit (List Char) := do
  let s ← Scanner.takeWhile (· != ' ')
  if ← more then
    consumeSpaces
    if s = [] then fail else pure s
  else fail

/-- `segs[n++] = seg`, for an array of eight segments. -/
def push (segs : List (BitVec 32)) (seg : BitVec 32) : Except Unit (List (BitVec 32)) :=
  if segs.length < 8 then .ok (segs ++ [seg]) else .error ()

/-- The loop of `Parser.version`. -/
def segments (segs : List (BitVec 32)) (seg : BitVec 32) :
    List Char → Except Unit (List (BitVec 32) × List Char)
  | [] => do pure (← push segs seg, [])
  | c :: rest =>
      if isDigit c then segments segs (seg * 10 + digit c) rest
      else do
        let segs ← push segs seg
        if c = '.' then segments segs 0 rest else pure (segs, c :: rest)

/-- `Parser.version`. -/
def parseVersion : Scan Char Unit Version := do
  let seg ← consumeDigit
  let segs ← segments [] seg
  pure ⟨segs⟩

/-- The loop of `Parser.checksum`. -/
def hexDigits (v : BitVec 32) : List Char → Except Unit (BitVec 32 × List Char)
  | [] => .ok (v, [])
  | c :: rest =>
      match hexDigit c with
      | some digit => hexDigits ((v <<< 4) ||| digit) rest
      | none => .ok (v, c :: rest)

/-- `Parser.checksum`. -/
def parseChecksum : Scan Char Unit (BitVec 32) := do
  consume
  consume
  hexDigits 0

/-- `Parser.constraint`. -/
def constraint : Scan Char Unit Constraint := do
  if ← look (· == '0') (· == 'x') then
    let checksum ← parseChecksum
    pure { checksum }
  else
    let version ← parseVersion
    consumeSpaces
    if ← curIs (· == '+') then
      consume
      consumeSpaces
      pure { version, isPlus := true }
    else if ← curIs (· == '=') then
      consume
      consumeSpaces
      pure { version, isExact := true }
    else if ← curIs (· == '-') then
      consume
      consumeSpaces
      let endVersion ← parseVersion
      consumeSpaces
      pure { version, endVersion }
    else pure { version }

/-- A turn of the loop of `Parser.parse`. -/
def constraintTurn (acc : List Constraint) :
    Scan Char Unit (List Constraint ⊕ List Constraint) := do
  if ← curIs (· == ',') then
    consume
    consumeSpaces
    let c ← constraint
    pure (.inl (acc ++ [c]))
  else pure (.inr acc)

/-- `Parser.parse`. -/
def parser : Scan Char Unit Depend := do
  let name ← parseName
  let c ← constraint
  let constraints ← loop () constraintTurn [c]
  if ← more then fail else pure ⟨name, constraints⟩

/-- `Depend.parse`, none for an `IllegalArgumentException`. -/
def parse (s : List Char) : Option Depend :=
  match parser s with
  | .ok (d, _) => some d
  | .error _ => none

/-! ### The text of a dependency -/

/-- A constraint in `Depend.toString`. -/
def constraintChars (c : Constraint) : List Char :=
  match c.version with
  | none => '0' :: 'x' :: Nat.toDigits 16 c.checksum.toNat
  | some version =>
      version.toString ++ (if c.isPlus then ['+'] else []) ++ (if c.isExact then ['='] else []) ++
        (match c.endVersion with
        | some endVersion => '-' :: endVersion.toString
        | none => [])

/-- `Depend.toString`. -/
def toString (d : Depend) : List Char :=
  d.name ++ ' ' :: match d.constraints with
  | [] => []
  | c :: cs => constraintChars c ++ cs.flatMap fun c => ',' :: constraintChars c

/-! ### Matching -/

/-- `Depend.doMatch`. -/
def doMatch (a b : Version) : Bool :=
  a.versions.length ≤ b.versions.length && (a.versions.zip b.versions).all fun p => p.1 == p.2

/-- `Depend.matchVersion`. -/
def matchVersion (c : Constraint) (v : Version) : Bool :=
  match c.version with
  | none => false
  | some version =>
      if c.isPlus then version.compareTo v ≤ 0
      else if c.isExact then version.compareTo v = 0
      else
        match c.endVersion with
        | some endVersion =>
            version.compareTo v ≤ 0 && (0 ≤ endVersion.compareTo v || doMatch endVersion v)
        | none => doMatch version v

/-- `Depend.matchChecksum`. -/
def matchChecksum (c : Constraint) (checksum : BitVec 32) : Bool := c.checksum == checksum

/-- The variables of `Depend.match`. -/
structure Tests where
  verTest : Bool := false
  checksumTest : Bool := false
  verMatch : Bool := false
  checksumMatch : Bool := false

/-- A turn of the loop of `Depend.match`. -/
def matchTurn (v : Option Version) (checksum : BitVec 32) (t : Tests) (c : Constraint) : Tests where
  verTest := if c.checksum ≠ -1 then t.verTest else v.isSome
  checksumTest := if c.checksum ≠ -1 then checksum ≠ -1 else t.checksumTest
  checksumMatch := t.checksumMatch || (checksum ≠ -1 && matchChecksum c checksum)
  verMatch := t.verMatch || v.any (matchVersion c)

/-- `Depend.match`. -/
def isMatch (d : Depend) (v : Option Version) (checksum : BitVec 32) : Bool :=
  let t := d.constraints.foldl (matchTurn v checksum) {}
  if t.verTest then
    if t.checksumTest then t.verMatch && t.checksumMatch else t.verMatch
  else t.checksumMatch

end Depend

end Sedona
