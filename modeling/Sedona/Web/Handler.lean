import Mathlib.Data.Nat.Notation
import Mathlib.Logic.Function.Basic
import Sedona.Library.Transition
import Sedona.Sys.Stream

/-!
# The Web Handler

`web::Handler.work`: a read of the socket, and the request that is parsed in place from the start of
the buffer. A `Str` is an offset into the buffer, and null is `none`. What lies behind an array is
memory like any other; `inside` says whether all accesses so far have been inside. Weblets and the
response do not use the buffers.
-/

namespace Sedona.Web

abbrev Byte := BitVec 8

/-- The byte of a character. -/
def code (c : Char) : Byte := BitVec.ofNat 8 c.toNat

/-! ### Data -/

def bufLen : ℕ := 2048

def uriBufLen : ℕ := 256

/-- `WebParams.max`. -/
def paramsMax : ℕ := 32

/-- `Path.max`. -/
def pathMax : ℕ := 32

/-- `WebParams`. -/
structure WebParams where
  size : ℕ
  names : ℕ → Option ℕ
  values : ℕ → Option ℕ

/-- `Path`, with offsets into `uriBuf`. -/
structure Path where
  size : ℕ
  names : ℕ → ℕ

/-- `WebReq`; the empty query is no offset. -/
structure WebReq where
  method : Option ℕ
  uri : Option ℕ
  version : Option ℕ
  query : Option ℕ
  params : WebParams
  path : Path

/-- `Handler`. -/
structure Handler where
  /-- `socket.isClosed`. -/
  closed : Bool
  pos : ℕ
  cur : ℕ
  buf : ℕ → Byte
  uriBuf : ℕ → Byte
  req : WebReq
  inside : Bool

namespace Handler

variable (h : Handler)

/-! ### The buffers -/

/-- An access to `buf`. -/
def touch (i : ℕ) : Handler := { h with inside := h.inside && decide (i < bufLen) }

/-- A store into `buf`. -/
def put (i : ℕ) (c : Byte) : Handler := { h.touch i with buf := Function.update h.buf i c }

/-- An access to `uriBuf`. -/
def touchUri (i : ℕ) : Handler := { h with inside := h.inside && decide (i < uriBufLen) }

/-- A store into `uriBuf`. -/
def putUri (i : ℕ) (c : Byte) : Handler :=
  { h.touchUri i with uriBuf := Function.update h.uriBuf i c }

/-- A store into `params.names`. -/
def putName (i : ℕ) (s : Option ℕ) : Handler :=
  { h with
    req.params.names := Function.update h.req.params.names i s
    inside := h.inside && decide (i < paramsMax) }

/-- A store into `params.values`. -/
def putValue (i : ℕ) (s : Option ℕ) : Handler :=
  { h with
    req.params.values := Function.update h.req.params.values i s
    inside := h.inside && decide (i < paramsMax) }

/-- A store into `path.names`. -/
def putPath (i : ℕ) (s : ℕ) : Handler :=
  { h with
    req.path.names := Function.update h.req.path.names i s
    inside := h.inside && decide (i < pathMax) }

/-- The bytes that have been read are stored from `pos` on. -/
def receive (bytes : List Byte) : Handler :=
  { h with
    buf := fun i => if h.pos ≤ i ∧ i < h.pos + bytes.length then bytes.getD (i - h.pos) 0 else h.buf i
    pos := h.pos + bytes.length
    inside := h.inside && decide (h.pos + bytes.length ≤ bufLen) }

/-! ### Tokens -/

/-- The loop of `token`. -/
def tokenLoop (sep : Byte) : ℕ → Handler → Bool × Handler
  | 0, h => (false, h)
  | n + 1, h =>
      let h := h.touch h.cur
      if h.buf h.cur ≠ sep ∧ h.buf h.cur ≠ 0 then tokenLoop sep n { h with cur := h.cur + 1 }
      else (true, { h.put h.cur 0 with cur := h.cur + 1 })

/-- `Handler.token`. -/
def token (sep : Byte) : Option ℕ × Handler :=
  if h.pos ≤ h.cur then (none, h)
  else
    let s := h.cur
    let (found, h) := tokenLoop sep (h.pos - h.cur) h
    (if found then some s else none, h)

/-- `Handler.consume`. -/
def consume (ch : Byte) : Bool × Handler :=
  if h.pos ≤ h.cur then (false, h)
  else
    let h := h.touch h.cur
    if h.buf h.cur ≠ ch then (false, h) else (true, { h with cur := h.cur + 1 })

/-! ### `Str.trim` -/

/-- The first index from `i` on whose byte does not meet `p`. A loop that runs through all of the
buffer has left it. -/
def skipWhile (p : Byte → Bool) : ℕ → ℕ → Handler → ℕ × Handler
  | 0, i, h => (i, { h with inside := false })
  | n + 1, i, h =>
      let h := h.touch i
      if p (h.buf i) then skipWhile p n (i + 1) h else (i, h)

/-- The loop of `Str.trim` from the end. -/
def trimBack (s : ℕ) : ℕ → Handler → Handler
  | 0, h => h
  | n + 1, h =>
      let h := h.touch (s + n)
      if h.buf (s + n) = code ' ' then trimBack s n (h.put (s + n) 0) else h

/-- `Str.trim`. -/
def trim (s : ℕ) : ℕ × Handler :=
  let (off, h) := skipWhile (· = code ' ') (bufLen + 1) s h
  let (stop, h) := skipWhile (· ≠ 0) (bufLen + 1) s h
  (off, trimBack s (stop - s) h)

/-! ### The request -/

/-- The request-line, and whether it is complete. -/
def requestLine : Bool × Handler :=
  let (method, h) := h.token (code ' ')
  let h := { h with req.method := method }
  if method.isNone then (false, h)
  else
    let (uri, h) := h.token (code ' ')
    let h := { h with req.uri := uri }
    if uri.isNone then (false, h)
    else
      let (version, h) := h.token (code '\r')
      let h := { h with req.version := version }
      if version.isNone then (false, h) else h.consume (code '\n')

/-- A line of the parameters, and whether it is complete. -/
def parameter : Bool × Handler :=
  let idx := h.req.params.size
  let (name, h) := h.token (code ':')
  let h := h.putName idx name
  let (value, h) := h.token (code '\r')
  let h := h.putValue idx value
  match name, value with
  | some name, some value =>
      let (eol, h) := h.consume (code '\n')
      if !eol then (false, h)
      else
        let (name, h) := h.trim name
        let h := h.putName idx (some name)
        let (value, h) := h.trim value
        let h := h.putValue idx (some value)
        if h.req.params.size < paramsMax then
          (true, { h with req.params.size := h.req.params.size + 1 })
        else (true, h)
  | _, _ => (false, h)

/-- The loop over the parameters. Every round takes three bytes at least. -/
def parameters : ℕ → Handler → Bool × Handler
  | 0, h => (false, h)
  | n + 1, h =>
      if h.pos ≤ h.cur then (true, h)
      else
        let h := h.touch h.cur
        if h.buf h.cur = code '\r' then (true, h)
        else
          let (complete, h) := h.parameter
          if complete then parameters n h else (false, h)

/-- The lines of a request, and whether all of it has arrived. -/
def parse : Bool × Handler :=
  let (complete, h) := h.requestLine
  if !complete then (false, h)
  else
    let h := { h with req.params.size := 0 }
    let (complete, h) := parameters bufLen h
    if !complete then (false, h)
    else
      let (cr, h) := h.consume (code '\r')
      if !cr then (false, h) else h.consume (code '\n')

/-! ### The path -/

/-- The loop that copies the uri from the index `i` on. -/
def copyUri (uri : ℕ) : ℕ → ℕ → Handler → Bool × Handler
  | 0, _, h => (false, h)
  | n + 1, i, h =>
      if uriBufLen ≤ i then (false, h)
      else
        let h := h.touch (uri + i)
        let c := h.buf (uri + i)
        let (c, h) :=
          if c = code '?' then ((0 : Byte), { h with req.query := some (uri + (i + 1)) }) else (c, h)
        let h := h.putUri i c
        if c = 0 then (true, h) else copyUri uri n (i + 1) h

/-- The loop that tokenizes the path from the index `i` on. -/
def tokenizePath : ℕ → ℕ → Handler → Handler
  | 0, _, h => { h with inside := false }
  | n + 1, i, h =>
      let h := h.touchUri i
      if h.uriBuf i = 0 then
        let h := h.touchUri (i - 1)
        if h.uriBuf (i - 1) ≠ 0 then { h with req.path.size := h.req.path.size + 1 } else h
      else
        let h :=
          if h.uriBuf i = code '/' then
            let h := h.putUri i 0
            if h.req.path.size + 1 < pathMax then
              let h := { h with req.path.size := h.req.path.size + 1 }
              h.putPath h.req.path.size (i + 1)
            else h
          else h
        tokenizePath n (i + 1) h

/-- The query and the path, and whether the uri has been short enough. -/
def route : Bool × Handler :=
  let h := { h with req.query := none }
  let (short, h) := copyUri (h.req.uri.getD 0) (uriBufLen + 1) 0 h
  if !short then (false, h)
  else
    let h := { h with req.path.size := 0 }
    let h := h.putPath 0 1
    (true, tokenizePath uriBufLen 1 h)

/-! ### Work -/

/-- The string at an offset. -/
def strAt (buf : ℕ → Byte) (len s : ℕ) : List Byte :=
  ((List.range (len - s)).map fun i => buf (s + i)).takeWhile (· ≠ 0)

/-- What a weblet gets to see. -/
structure Request where
  method : List Byte
  uri : List Byte
  version : List Byte
  params : List (List Byte × List Byte)
  path : List (List Byte)
  query : List Byte
deriving DecidableEq

/-- The string behind a reference. -/
def str (s : Option ℕ) : List Byte := (s.map (strAt h.buf bufLen)).getD []

/-- The request that has been parsed. -/
def request : Request where
  method := h.str h.req.method
  uri := h.str h.req.uri
  version := h.str h.req.version
  params := (List.range h.req.params.size).map fun i =>
    (h.str (h.req.params.names i), h.str (h.req.params.values i))
  path := (List.range h.req.path.size).map fun i => strAt h.uriBuf uriBufLen (h.req.path.names i)
  query := h.str h.req.query

/-- `Handler.accepted`, on a socket that has been opened. -/
def accepted : Handler := { h with closed := false, pos := 0, cur := 0 }

/-- `Handler.work`, with the bytes that are read; where none are, the read has failed. The request
is the one that is dispatched. -/
def work (bytes : List Byte) : Option Request × Handler :=
  if h.closed then (none, h)
  else if bufLen - h.pos < 5 then (none, { h with closed := true })
  else if bytes = [] then (none, { h with closed := true })
  else
    let h := { h.receive bytes with cur := 0 }
    let (complete, h) := h.parse
    if !complete then (none, h)
    else
      let (short, h) := h.route
      if !short then (none, h) else (some h.request, { h with closed := true })

end Handler

/-! ### Runs -/

/-- A connection is accepted, or the socket is read. -/
inductive Event where
  | accept
  | read (bytes : List Byte)

def Handler.next (h : Handler) : Event → Handler
  | .accept => if h.closed then h.accepted else h
  | .read bytes => (h.work bytes).2

end Sedona.Web
