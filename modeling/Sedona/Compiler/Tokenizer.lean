import Mathlib.Data.List.DropRight
import Sedona.Library.Fuel
import Sedona.Library.Scanner

/-!
# The Tokenizer

`sedonac.parser.Tokenizer`. The characters that are not consumed yet are `cur`, `peek` and the rest of
the buffer; at its end `cur` is -1. Newlines are `\n` already, and the locations of tokens and errors
are left out.

`next` calls `strLiteral` for a string literal, which calls `strInterpolation` for every `$` in it,
which calls `next` again for the tokens there. The calls under way are a stack of frames, and a step
goes from one turn of the loop of `next` that finds a token to the next call of `next`.

## Main definitions

* `blank`: a turn of the loop of `next` that skips white space or a comment.
* `step`, `run`: the tokens of a text.
-/

namespace Sedona

namespace Tokenizer

open Scanner

/-! ### Tokens -/

/-- The symbols of `Token`. -/
inductive Symbol where
  | dot | comma | semicolon | colon | plus | minus | star | slash | percent | amp | pipe
  | doubleAmp | doublePipe | doubleColon | caret | question | bang | tilde | at | lshift | rshift
  | eq | notEq | gt | gtEq | lt | ltEq | increment | decrement | arrow
  | lbrace | rbrace | lbracket | rbracket | lparen | rparen
  | assign | assignPlus | assignMinus | assignStar | assignSlash | assignPercent | assignAmp
  | assignPipe | assignCaret | assignLshift | assignRshift | safeNav | elvis | propAssign
deriving DecidableEq, Repr

/-- The names of the keywords. -/
def keywords : List String :=
  ["abstract", "action", "assert", "bool", "break", "byte", "case", "class", "const", "continue",
   "default", "define", "delete", "double", "do", "else", "enum", "extends", "false", "final",
   "float", "for", "foreach", "function", "goto", "if", "inline", "int", "internal", "long",
   "native", "new", "null", "override", "private", "property", "protected", "public", "return",
   "short", "static", "super", "switch", "this", "true", "virtual", "void", "while"]

/-- Floating point numbers: `Float(String)` and `Double(String)`, none for a
`NumberFormatException`, and `(long)((double)time * x)`. -/
structure Floats where
  Float : Type
  Double : Type
  parseFloat : List Char → Option Float
  parseDouble : List Char → Option Double
  scale : ℕ → Double → BitVec 64

/-- A `Token` with its value. -/
inductive Token (F : Floats) where
  | eof
  | id (name : String)
  | keyword (name : String)
  | docComment (doc : List Char)
  | intLiteral (v : BitVec 32)
  | longLiteral (v : BitVec 64)
  | floatLiteral (v : F.Float)
  | doubleLiteral (v : F.Double)
  | strLiteral (s : List Char)
  | timeLiteral (v : BitVec 64)
  | bufLiteral (bytes : List (BitVec 8))
  | symbol (s : Symbol)

/-- How tokenizing fails: with a `CompilerException`, or with a `NullPointerException`. -/
inductive Fail where
  | compiler (msg : String)
  | nullPointer
  | outOfFuel
deriving DecidableEq, Repr

/-- `Tokenizer.err`. -/
def err {α : Type} (msg : String) : Scan Char Fail α := throw (.compiler msg)

/-- The error of `consume`. -/
def endOfFile : Fail := .compiler "Unexpected end of file"

/-- `Tokenizer.consume`. -/
def consume : Scan Char Fail Char := Scanner.next endOfFile

/-- The characters that need an escape in most languages. -/
def quote : Char := '\x22'

def apostrophe : Char := '\x27'

def backslash : Char := '\x5c'

/-! ### The table of characters -/

def isIdStart (c : Char) : Bool :=
  ('A' ≤ c && c ≤ 'Z') || ('a' ≤ c && c ≤ 'z') || c == '_'

def isDigit (c : Char) : Bool := '0' ≤ c && c ≤ '9'

def isIdChar (c : Char) : Bool := isIdStart c || isDigit c

/-- The letters of hexadecimal numbers. -/
def isHex (c : Char) : Bool := ('a' ≤ c && c ≤ 'f') || ('A' ≤ c && c ≤ 'F')

def isSpace (c : Char) : Bool := c == ' ' || c == '\t' || c == '\n' || c == '\r'

/-! ### Comments -/

/-- The end of `lineComment`, from behind the slashes. The loop stops at a zero, too. -/
def lineBody : List Char → Except Fail (Unit × List Char)
  | [] => .error endOfFile
  | c :: rest => if c = '\n' ∨ c = '\x00' then .ok ((), rest) else lineBody rest

/-- `Tokenizer.lineComment`. -/
def lineComment : Scan Char Fail Unit := do
  let _ ← consume
  let _ ← consume
  lineBody

/-- The second of the two characters that `blockComment` consumes behind its loop. -/
def lastSlash : List Char → Except Fail (Unit × List Char)
  | [] => .error endOfFile
  | _ :: rest => .ok ((), rest)

/-- The loop of `blockComment`, and the two characters behind it. -/
def blockBody : ℕ → List Char → Except Fail (Unit × List Char)
  | _, [] => .error endOfFile
  | depth, c :: rest =>
      if c = '\x00' then lastSlash rest
      else if c = '*' ∧ rest.head? = some '/' then
        if depth - 1 = 0 then lastSlash rest else blockBody (depth - 1) rest
      else if c = '/' ∧ rest.head? = some '*' then blockBody (depth + 1) rest
      else blockBody depth rest

/-- `Tokenizer.blockComment`. -/
def blockComment : Scan Char Fail Unit := do
  let _ ← consume
  let _ ← consume
  blockBody 1

/-- These are the next two characters. -/
def ahead (c d : Char) : Scan Char Fail Bool := look (· == c) (· == d)

/-- A turn of the loop of `next` as far as it skips something; false is for everything else. A line
of `**` is a comment if no documentation is wanted. -/
def blank (doc : Bool) : Scan Char Fail Bool := do
  if ← curIs isSpace then
    let _ ← consume
    pure true
  else if ← ahead '/' '/' then
    lineComment
    pure true
  else if ← ahead '/' '*' then
    blockComment
    pure true
  else if !doc && (← ahead '*' '*') then
    lineComment
    pure true
  else pure false

/-- The turns of the loop of `next` that skip something. -/
def blanks (doc : Bool) : Scan Char Fail Unit :=
  loop .outOfFuel (fun _ => do if ← blank doc then pure (.inl ()) else pure (.inr ())) ()

/-! ### Literals -/

variable {F : Floats}

/-- `Tokenizer.idOrKeyword`. -/
def idOrKeyword : Scan Char Fail (Token F) := do
  let c ← consume
  let cs ← Scanner.takeWhile isIdChar
  let name := String.ofList (c :: cs)
  pure (if name ∈ keywords then .keyword name else .id name)

/-- `Tokenizer.exponentialPart`. -/
def exponentialPart : Scan Char Fail (List Char) := do
  let _ ← Scanner.takeWhile (· == '_')
  let sign ← if ← curIs (fun c => c == '+' || c == '-') then (do pure [← consume]) else pure []
  let digits ← Scanner.takeWhile (fun c => c == '_' || isDigit c)
  pure (sign ++ digits.filter (· != '_'))

/-- The loop of `numberLiteral` over the characters of the number: what is read and whether it is a
floating point number, and whether an exponent follows. -/
def numberChars (hex : Bool) (s : List Char) (isFloat : Bool) :
    List Char → Except Fail ((List Char × Bool × Bool) × List Char)
  | [] => .ok ((s, isFloat, false), [])
  | c :: rest =>
      if c = '_' then numberChars hex s isFloat rest
      else if c = '.' then
        if hex then .error (.compiler "Invalid hex literal")
        else numberChars hex (s ++ [c]) true rest
      else if !hex && (c == 'E' || c == 'e') then .ok ((s ++ [c], true, true), rest)
      else if isDigit c || (hex && isHex c) then numberChars hex (s ++ [c]) isFloat rest
      else .ok ((s, isFloat, false), c :: rest)

/-- The unit of a time literal, in nanoseconds. -/
def timeUnit : Scan Char Fail (Option ℕ) := do
  if ← ahead 'n' 's' then
    let _ ← consume
    let _ ← consume
    pure (some 1)
  else if ← ahead 'm' 's' then
    let _ ← consume
    let _ ← consume
    pure (some 1000000)
  else if ← ahead 's' 'e' then
    let _ ← consume
    let _ ← consume
    if ← curIs (· == 'c') then
      let _ ← consume
      pure (some 1000000000)
    else err "Expected 'sec' in Time literal"
  else if ← ahead 'm' 'i' then
    let _ ← consume
    let _ ← consume
    if ← curIs (· == 'n') then
      let _ ← consume
      pure (some 60000000000)
    else err "Expected 'min' in Time literal"
  else if ← ahead 'h' 'r' then
    let _ ← consume
    let _ ← consume
    pure (some 3600000000000)
  else if ← ahead 'd' 'a' then
    let _ ← consume
    let _ ← consume
    if ← ahead 'y' 's' then
      let _ ← consume
      let _ ← consume
      pure (some 86400000000000)
    else err "Expected 'days' in Time literal"
  else pure none

/-- The suffix of a number, for `isFloat` and `isWide`. -/
def suffix (str : List Char) (isFloat : Bool) : Scan Char Fail (Bool × Bool) := do
  if ← curIs (fun c => c == 'f' || c == 'F') then
    let _ ← consume
    pure (true, false)
  else if ← curIs (fun c => c == 'd' || c == 'D') then
    let _ ← consume
    pure (true, true)
  else if ← curIs (fun c => c == 'l' || c == 'L') then
    let _ ← consume
    if isFloat then
      err ("Type mismatch. Cannot convert from floating point number to long: " ++
        String.ofList str ++ "L")
    else pure (isFloat, true)
  else pure (isFloat, false)

/-- `Long.parseLong` of digits. -/
def parseLong (str : List Char) : Option ℕ :=
  let x := str.foldl (fun x c => x * 10 + (c.toNat - '0'.toNat)) 0
  if str ≠ [] ∧ x < 0x8000000000000000 then some x else none

/-- `TextUtil.hexCharToInt` of a hexadecimal digit. -/
def hexCharToInt (c : Char) : ℕ :=
  if isDigit c then c.toNat - '0'.toNat
  else if 'A' ≤ c && c ≤ 'F' then c.toNat - 'A'.toNat + 10
  else c.toNat - 'a'.toNat + 10

/-- `TextUtil.parseHexLong`. -/
def parseHexLong (str : List Char) : BitVec 64 :=
  str.foldl (fun x c => (x <<< 4) + BitVec.ofNat 64 (hexCharToInt c)) 0

/-- The value of a number. -/
def numberValue (str : List Char) (hex isFloat isWide : Bool) (time : Option ℕ) :
    Except Fail (Token F) :=
  let invalid : Except Fail (Token F) := .error (.compiler ("Invalid number: " ++ String.ofList str))
  match time with
  | some time =>
      if isFloat then
        match F.parseDouble str with
        | some x => .ok (.timeLiteral (F.scale time x))
        | none => invalid
      else
        match parseLong str with
        | some x => .ok (.timeLiteral (BitVec.ofNat 64 (time * x)))
        | none => invalid
  | none =>
      if isFloat then
        if isWide then
          match F.parseDouble str with
          | some x => .ok (.doubleLiteral x)
          | none => invalid
        else
          match F.parseFloat str with
          | some x => .ok (.floatLiteral x)
          | none => invalid
      else if hex then
        if 16 < str.length ∨ (!isWide ∧ 8 < str.length) then
          .error (.compiler ("Invalid range for int/long: 0x" ++ String.ofList str))
        else
          let x := parseHexLong str
          if !isWide ∧ 0xffffffff < x.toInt then
            .error (.compiler ("Invalid range for int: 0x" ++ String.ofList str))
          else if isWide then .ok (.longLiteral x)
          else .ok (.intLiteral (x.setWidth 32))
      else
        match parseLong str with
        | some x =>
            if !isWide ∧ 0x80000000 < x then
              .error (.compiler ("Invalid range for int: " ++ String.ofList str))
            else if isWide then .ok (.longLiteral (BitVec.ofNat 64 x))
            else .ok (.intLiteral (BitVec.ofNat 32 x))
        | none => invalid

/-- `numberLiteral` behind the `0x`, if there is one. -/
def number (hex : Bool) : Scan Char Fail (Token F) := do
  let (s, isFloat, exponent) ← numberChars hex [] false
  let str ← if exponent then (do pure (s ++ (← exponentialPart))) else pure s
  let time ← if hex then pure none else timeUnit
  let (isFloat, isWide) ← suffix str isFloat
  lift (numberValue str hex isFloat isWide time)

/-- `Tokenizer.nibble`. -/
def nibble : Scan Char Fail ℕ := do
  if ← curIs (fun c => isDigit c || isHex c) then (do pure (hexCharToInt (← consume)))
  else err "Expected hex digit"

/-- A byte of a buffer literal. -/
def bufByte (buf : List (BitVec 8)) : Scan Char Fail (List (BitVec 8) ⊕ Token F) := do
  let high ← nibble
  let low ← nibble
  pure (.inl (buf ++ [BitVec.ofNat 8 (high <<< 4 ||| low)]))

/-- A turn of the loop of `bufLiteral`. A line of `**` is a comment there in any case. -/
def bufTurn (buf : List (BitVec 8)) : Scan Char Fail (List (BitVec 8) ⊕ Token F) := do
  if ← curIs (· == ']') then
    let _ ← consume
    pure (.inr (.bufLiteral buf))
  else if ← blank false then pure (.inl buf)
  else bufByte buf

/-- `Tokenizer.bufLiteral`, at the bracket. -/
def bufLiteral : Scan Char Fail (Token F) := do
  let _ ← consume
  loop .outOfFuel bufTurn []

/-- `Tokenizer.numberLiteral`. -/
def numberLiteral : Scan Char Fail (Token F) := do
  if ← ahead '0' 'x' then
    let _ ← consume
    let _ ← consume
    if ← curIs (· == '[') then bufLiteral
    else if ← curIs (fun c => isDigit c || isHex c) then number true
    else err "Invalid hex literal"
  else number false

/-- `(char)cur`, which is the last of all characters at the end of the file. -/
def charOf (c : Option Char) : Char := c.getD '\uffff'

/-- The escapes, by the character behind the backslash. -/
def escapes : List (Char × Char) :=
  [('0', '\x00'), ('n', '\n'), ('r', '\r'), ('t', '\t'), (quote, quote), (apostrophe, apostrophe),
   (backslash, backslash), ('$', '$')]

/-- `Tokenizer.escape`, at the backslash. -/
def escape : Scan Char Fail Char := do
  let _ ← consume
  let c ← cur
  match escapes.find? (fun p => c == some p.1) with
  | some p =>
      let _ ← consume
      pure p.2
  | none => err ("Invalid escape sequence " ++ String.singleton (charOf c))

/-- `Tokenizer.charLiteral`. -/
def charLiteral : Scan Char Fail (Token F) := do
  let _ ← consume
  let c ← if ← curIs (· == backslash) then escape else consume
  if ← curIs (· == apostrophe) then
    let _ ← consume
    pure (.intLiteral (BitVec.ofNat 32 c.toNat))
  else
    let code : ℤ := match ← cur with
      | some c => c.toNat
      | none => -1
    err ("Invalid character literal " ++ toString code)

/-- `String.trim` of Java. -/
def trim (s : List Char) : List Char := (s.dropWhile (· ≤ ' ')).rdropWhile (· ≤ ' ')

/-- The begin of the next line, which belongs to a doc comment if it has two stars. -/
def docLine (s : List Char) : Scan Char Fail (List Char ⊕ List Char) := do
  let _ ← Scanner.takeWhile (fun c => c == ' ' || c == '\t')
  if ← ahead '*' '*' then
    let _ ← Scanner.takeWhile (· == '*')
    skipIf (fun c => c == ' ' || c == '\t')
    pure (.inl s)
  else pure (.inr s)

/-- A turn of the loop of `docComment`. -/
def docTurn (s : List Char) : Scan Char Fail (List Char ⊕ List Char) := do
  if ← curIs (· != '\x00') then
    let c ← consume
    if c = '\n' then docLine (s ++ [c]) else pure (.inl (s ++ [c]))
  else pure (.inr s)

/-- `Tokenizer.docComment`. -/
def docComment : Scan Char Fail (Token F) := do
  let _ ← Scanner.takeWhile (· == '*')
  skipIf (· == ' ')
  let s ← loop .outOfFuel docTurn []
  pure (.docComment (trim s))

/-! ### Symbols -/

/-- The symbols by their first, second and third characters. -/
def symbols : List (Char × Symbol × List (Char × Symbol × List (Char × Symbol))) :=
  [('.', .dot, []), (',', .comma, []), (';', .semicolon, []),
   (':', .colon, [(':', .doubleColon, []), ('=', .propAssign, [])]),
   ('+', .plus, [('+', .increment, []), ('=', .assignPlus, [])]),
   ('-', .minus, [('-', .decrement, []), ('=', .assignMinus, []), ('>', .arrow, [])]),
   ('*', .star, [('=', .assignStar, [])]), ('/', .slash, [('=', .assignSlash, [])]),
   ('%', .percent, [('=', .assignPercent, [])]),
   ('&', .amp, [('&', .doubleAmp, []), ('=', .assignAmp, [])]),
   ('|', .pipe, [('|', .doublePipe, []), ('=', .assignPipe, [])]),
   ('^', .caret, [('=', .assignCaret, [])]),
   ('?', .question, [('.', .safeNav, []), (':', .elvis, [])]),
   ('!', .bang, [('=', .notEq, [])]), ('~', .tilde, []),
   ('<', .lt, [('<', .lshift, [('=', .assignLshift)]), ('=', .ltEq, [])]),
   ('>', .gt, [('>', .rshift, [('=', .assignRshift)]), ('=', .gtEq, [])]),
   ('{', .lbrace, []), ('}', .rbrace, []), ('[', .lbracket, []), (']', .rbracket, []),
   ('(', .lparen, []), (')', .rparen, []), ('=', .assign, [('=', .eq, [])]), ('@', .at, [])]

/-- The third character of the symbol `s`, if it has one. -/
def third (s : Symbol) (row : List (Char × Symbol)) : Scan Char Fail Symbol := do
  let c ← cur
  match row.find? (fun p => c == some p.1) with
  | some p =>
      let _ ← consume
      pure p.2
  | none => pure s

/-- The second character of the symbol `s`, if it has one. -/
def second (s : Symbol) (row : List (Char × Symbol × List (Char × Symbol))) :
    Scan Char Fail Symbol := do
  let c ← cur
  match row.find? (fun p => c == some p.1) with
  | some p =>
      let _ ← consume
      third p.2.1 p.2.2
  | none => pure s

/-- `Tokenizer.symbol`, at the character `c`. -/
def symbol (c : Char) : Scan Char Fail (Token F) := do
  match symbols.find? (fun p => c == p.1) with
  | some p =>
      let _ ← consume
      pure (.symbol (← second p.2.1 p.2.2))
  | none => err ("Unexpected token '" ++ String.singleton c ++ "'")

/-! ### The tokens of a text -/

/-- The end of `next`, where nothing is skipped: a token, or none at a string literal. -/
def read (doc : Bool) : Scan Char Fail (Option (Token F)) := do
  if doc && (← ahead '*' '*') then pure (some (← docComment))
  else
    match ← cur with
    | none => pure (some .eof)
    | some c =>
        if isIdStart c then pure (some (← idOrKeyword))
        else if isDigit c then pure (some (← numberLiteral))
        else if c = apostrophe then pure (some (← charLiteral))
        else if c = quote then pure none
        else pure (some (← symbol c))

/-- `Tokenizer.next`. -/
def next (doc : Bool) : Scan Char Fail (Option (Token F)) := do
  blanks doc
  read doc

/-- Where in `strInterpolation` a call of `next` is made: between braces, for the identifier behind
the `$`, or for one behind a dot. -/
inductive Frame where
  | braces | first | field
deriving DecidableEq, Repr

/-- A call of `next`: the calls of `strInterpolation` under way, the innermost first, and the tokens
so far. Without frames, `tokenize` has made it. -/
structure Control (F : Floats) where
  frames : List Frame
  acc : List (Token F)

/-- The next call of `next`, or all tokens. -/
inductive Outcome (F : Floats) where
  | go (c : Control F)
  | stop (tokens : List (Token F))

/-- The loop of `strInterpolation` between braces. -/
def inBraces (fs : List Frame) (acc : List (Token F)) : Scan Char Fail (Outcome F) := do
  if ← curIs (· == quote) then err "Unexpected end of string, missing \x7d"
  else pure (.go ⟨.braces :: fs, acc⟩)

/-- `next` returns null, which only `tokenize` expects. -/
def returnNull (fs : List Frame) (acc : List (Token F)) : Scan Char Fail (Outcome F) :=
  if fs = [] then pure (.go ⟨[], acc⟩) else throw .nullPointer

/-- `Tokenizer.strInterpolation`, up to its first call of `next`. -/
def strInterpolation (fs : List Frame) (acc : List (Token F)) (s : List Char) :
    Scan Char Fail (Outcome F) := do
  let _ ← consume
  let acc := acc ++ [.strLiteral s, .symbol .plus]
  if ← curIs (· == '{') then
    let _ ← consume
    inBraces fs (acc ++ [.symbol .lparen])
  else pure (.go ⟨.first :: fs, acc⟩)

/-- A turn of the loop of `strLiteral` over characters, up to the end or to a `$`; the end is
taken. -/
def strTurn (s : List Char) : Scan Char Fail (List Char ⊕ List Char × Bool) := do
  let c ← cur
  if c = some quote then
    let _ ← consume
    pure (.inr (s, true))
  else if c = some '\n' then err "Unexpected end of string literal"
  else if c = some '$' then pure (.inr (s, false))
  else
    let c ← if c = some backslash then escape else consume
    pure (.inl (s ++ [c]))

/-- The characters of a string literal. -/
def strChars : Scan Char Fail (List Char × Bool) := loop .outOfFuel strTurn []

/-- The loop of `strLiteral`. -/
def strLoop (interpolated : Bool) (fs : List Frame) (acc : List (Token F)) :
    Scan Char Fail (Outcome F) := do
  let (s, ended) ← strChars
  if ended then
    returnNull fs (acc ++ [.strLiteral s] ++ if interpolated then [.symbol .rparen] else [])
  else strInterpolation fs (if interpolated then acc else acc ++ [.symbol .lparen]) s

/-- `Tokenizer.strLiteral`. -/
def strLiteral (fs : List Frame) (acc : List (Token F)) : Scan Char Fail (Outcome F) := do
  let _ ← consume
  strLoop false fs acc

/-- The end of `strInterpolation`, and what `strLiteral` does behind it. -/
def endInterpolation (fs : List Frame) (acc : List (Token F)) : Scan Char Fail (Outcome F) := do
  if ← curIs (· == quote) then
    let _ ← consume
    returnNull fs (acc ++ [.symbol .rparen])
  else strLoop true fs (acc ++ [.symbol .plus])

/-- The loop of `strInterpolation` over dotted accessors; `next` returns the dot. -/
def accessors (fs : List Frame) (acc : List (Token F)) : Scan Char Fail (Outcome F) := do
  if ← curIs (· == '.') then
    let _ ← consume
    pure (.go ⟨.field :: fs, acc ++ [.symbol .dot]⟩)
  else endInterpolation fs acc

/-- `next` returns a token. -/
def returnToken (tok : Token F) : Control F → Scan Char Fail (Outcome F)
  | ⟨[], acc⟩ => match tok with
      | .eof => pure (.stop (acc ++ [tok]))
      | _ => pure (.go ⟨[], acc ++ [tok]⟩)
  | ⟨.braces :: fs, acc⟩ => match tok with
      | .symbol .rbrace => endInterpolation fs (acc ++ [.symbol .rparen])
      | _ => inBraces fs (acc ++ [tok])
  | ⟨.first :: fs, acc⟩ => match tok with
      | .id _ => accessors fs (acc ++ [tok])
      | _ => err "Expected identifier after $"
  | ⟨.field :: fs, acc⟩ => match tok with
      | .id _ => accessors fs (acc ++ [tok])
      | _ => err "Expected identifier"

/-- From a call of `next` to the following one. -/
def step (doc : Bool) (c : Control F) : Scan Char Fail (Outcome F) := do
  match ← next doc with
  | some tok => returnToken tok c
  | none => strLiteral c.frames c.acc

/-- The calls of `next` from `c` on. -/
def run (doc : Bool) : ℕ → Control F → List Char → Option (Except Fail (List (Token F)))
  | 0, _, _ => none
  | fuel + 1, c, r =>
      match step doc c r with
      | .error e => some (.error e)
      | .ok (.stop tokens, _) => some (.ok tokens)
      | .ok (.go c', r') => run doc fuel c' r'

/-- `Tokenizer.tokenize`. -/
def tokenize (F : Floats) (doc : Bool) (text : List Char) (fuel : ℕ) :
    Option (Except Fail (List (Token F))) :=
  run doc fuel ⟨[], []⟩ text

end Tokenizer

end Sedona
