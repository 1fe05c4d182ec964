import Sedona.Library.Cursor

/-!
# DASP Messages

`sedona.dasp.DaspMsg`: the fixed header, up to fourteen optional headers of three wire types, and
the payload. A datagram is decoded out of a buffer that can be longer than the datagram.

## Main results

* `decode_encode`: a message is decoded from its encoding.
* `decode_local`: what lies behind the datagram does not matter.
* `codec_exact`: both of them.
-/

namespace Sedona.Dasp

open Cursor

/-! ### Messages -/

/-- The ids of the headers, with the wire types in the low bits. -/
inductive HeaderId where
  | version | remoteId | digestAlgorithm | nonce | username | digest | idealMax | absMax | ack
  | ackMore | receiveMax | receiveTimeout | errorCode | platformId
deriving DecidableEq, Repr

/-- `DaspConst`. -/
def HeaderId.byte : HeaderId → BitVec 8
  | .version => 0x05
  | .remoteId => 0x09
  | .digestAlgorithm => 0x0e
  | .nonce => 0x13
  | .username => 0x16
  | .digest => 0x1b
  | .idealMax => 0x1d
  | .absMax => 0x21
  | .ack => 0x25
  | .ackMore => 0x2b
  | .receiveMax => 0x2d
  | .receiveTimeout => 0x31
  | .errorCode => 0x35
  | .platformId => 0x3a

namespace DaspConst

def idealMaxDef : ℤ := 512
def absMaxDef : ℤ := 512
def receiveMaxDef : ℤ := 31

/-- In milliseconds. -/
def receiveTimeoutDef : ℤ := 30000

end DaspConst

/-- `DaspMsg`: numbers are -1 and the others null if a header is not set. -/
structure DaspMsg where
  sessionId : ℤ := -1
  msgType : ℤ := -1
  seqNum : ℤ := -1
  version : ℤ := -1
  remoteId : ℤ := -1
  digestAlgorithm : Option String := none
  nonce : Option (List (BitVec 8)) := none
  username : Option String := none
  digest : Option (List (BitVec 8)) := none
  idealMax : ℤ := -1
  absMax : ℤ := -1
  ack : ℤ := -1
  ackMore : Option (List (BitVec 8)) := none
  receiveMax : ℤ := -1
  /-- In milliseconds. -/
  receiveTimeout : ℤ := -1
  errorCode : ℤ := -1
  platformId : Option String := none
  payload : List (BitVec 8) := []
deriving DecidableEq

namespace DaspMsg

/-- What the accessors of a message return. -/
structure Access where
  sessionId : ℤ
  msgType : ℤ
  seqNum : ℤ
  version : ℤ
  remoteId : ℤ
  digestAlgorithm : String
  nonce : Option (List (BitVec 8))
  username : Option String
  digest : Option (List (BitVec 8))
  idealMax : ℤ
  absMax : ℤ
  ack : ℤ
  ackMore : Option (List (BitVec 8))
  receiveMax : ℤ
  receiveTimeout : ℤ
  errorCode : ℤ
  platformId : Option String
  payload : List (BitVec 8)
deriving DecidableEq

/-- A header with a default value. -/
def orDefault (val default : ℤ) : ℤ := if val < 0 then default else val

def access (m : DaspMsg) : Access where
  sessionId := m.sessionId
  msgType := m.msgType
  seqNum := m.seqNum
  version := max (-1) m.version
  remoteId := max (-1) m.remoteId
  digestAlgorithm := m.digestAlgorithm.getD "SHA-1"
  nonce := m.nonce
  username := m.username
  digest := m.digest
  idealMax := orDefault m.idealMax DaspConst.idealMaxDef
  absMax := orDefault m.absMax DaspConst.absMaxDef
  ack := max (-1) m.ack
  ackMore := m.ackMore
  receiveMax := orDefault m.receiveMax DaspConst.receiveMaxDef
  receiveTimeout := orDefault m.receiveTimeout DaspConst.receiveTimeoutDef
  errorCode := max (-1) m.errorCode
  platformId := m.platformId
  payload := m.payload

/-! ### Encoding -/

/-- `DaspMsg.u2`. -/
def u2 (val : ℤ) : List (BitVec 8) := [BitVec.ofInt 8 (val / 256), BitVec.ofInt 8 val]

/-- `DaspMsg.bytes`. -/
def bytes (val : List (BitVec 8)) : List (BitVec 8) := BitVec.ofNat 8 val.length :: val

/-- `DaspMsg.str`, which throws for a string that is not ASCII. -/
def str (val : String) : Option (List (BitVec 8)) :=
  if val.toList.all (·.toNat ≤ 0x7f) then
    some (val.toList.map (fun c => BitVec.ofNat 8 c.toNat) ++ [0])
  else none

/-- The value of a header. -/
inductive Value where
  | u2 (val : ℤ)
  | str (val : String)
  | bytes (val : List (BitVec 8))
deriving DecidableEq

/-- A header. -/
structure Field where
  id : HeaderId
  value : Value
deriving DecidableEq

def Value.encode : Value → Option (List (BitVec 8))
  | .u2 val => some (DaspMsg.u2 val)
  | .str val => DaspMsg.str val
  | .bytes val => some (DaspMsg.bytes val)

def Field.encode (f : Field) : Option (List (BitVec 8)) := f.value.encode.map (f.id.byte :: ·)

/-- A number is encoded if it has been set. -/
def u2Field (id : HeaderId) (val : ℤ) : List Field :=
  if val > -1 then [⟨id, .u2 val⟩] else []

/-- A number with a default value is encoded if it is another one. -/
def defField (id : HeaderId) (val default : ℤ) : List Field :=
  if val > -1 ∧ val ≠ default then [⟨id, .u2 val⟩] else []

/-- The timeout is encoded in seconds. -/
def timeoutField (val : ℤ) : List Field :=
  if val > -1 ∧ val ≠ DaspConst.receiveTimeoutDef then [⟨.receiveTimeout, .u2 (val / 1000)⟩] else []

def strField (id : HeaderId) : Option String → List Field
  | some val => [⟨id, .str val⟩]
  | none => []

def bytesField (id : HeaderId) : Option (List (BitVec 8)) → List Field
  | some val => [⟨id, .bytes val⟩]
  | none => []

/-- The headers that are encoded, in order. -/
def fields (m : DaspMsg) : List Field :=
  u2Field .version m.version ++
  u2Field .remoteId m.remoteId ++
  strField .digestAlgorithm m.digestAlgorithm ++
  bytesField .nonce m.nonce ++
  strField .username m.username ++
  bytesField .digest m.digest ++
  defField .idealMax m.idealMax DaspConst.idealMaxDef ++
  defField .absMax m.absMax DaspConst.absMaxDef ++
  u2Field .ack m.ack ++
  bytesField .ackMore m.ackMore ++
  defField .receiveMax m.receiveMax DaspConst.receiveMaxDef ++
  timeoutField m.receiveTimeout ++
  u2Field .errorCode m.errorCode ++
  strField .platformId m.platformId

/-- The bytes of the message. -/
def toBytes (m : DaspMsg) : Option (List (BitVec 8)) := do
  let fields ← m.fields.mapM Field.encode
  some (u2 m.sessionId ++ u2 m.seqNum ++
    [BitVec.ofInt 8 (m.msgType * 16) ||| BitVec.ofNat 8 m.fields.length] ++ fields.flatten ++
    m.payload)

/-- `DaspMsg.encode`: the buffer and the length, if the buffer is long enough. -/
def encode (m : DaspMsg) (buf : List (BitVec 8)) : Option (List (BitVec 8) × ℕ) := do
  let out ← m.toBytes
  if out.length ≤ buf.length then some (out ++ buf.drop out.length, out.length) else none

/-! ### Decoding -/

/-- The locals `u2`, `str` and `bytes` of `doDecode`. -/
structure Raw where
  u2 : ℤ := 0
  str : Option String := none
  bytes : Option (List (BitVec 8)) := none

def readU2 : Reader (BitVec 8) ℤ := do
  let hi ← next
  let lo ← next
  pure (hi.toNat * 256 + lo.toNat)

/-- `new String` for UTF-8, which is not specified for bytes that are malformed. -/
def newString (malformed : List (BitVec 8) → String) (bs : List (BitVec 8)) : String :=
  (String.fromUTF8? (bs.map UInt8.ofBitVec).toByteArray).getD (malformed bs)

/-- Whether the byte is that of a header. -/
def headerId? (id : BitVec 8) : Option HeaderId :=
  [HeaderId.version, .remoteId, .digestAlgorithm, .nonce, .username, .digest, .idealMax, .absMax,
    .ack, .ackMore, .receiveMax, .receiveTimeout, .errorCode, .platformId].find? (·.byte = id)

def set (m : DaspMsg) (raw : Raw) : HeaderId → DaspMsg
  | .version => { m with version := raw.u2 }
  | .remoteId => { m with remoteId := raw.u2 }
  | .digestAlgorithm => { m with digestAlgorithm := raw.str }
  | .nonce => { m with nonce := raw.bytes }
  | .username => { m with username := raw.str }
  | .digest => { m with digest := raw.bytes }
  | .idealMax => { m with idealMax := raw.u2 }
  | .absMax => { m with absMax := raw.u2 }
  | .ack => { m with ack := raw.u2 }
  | .ackMore => { m with ackMore := raw.bytes }
  | .receiveMax => { m with receiveMax := raw.u2 }
  | .receiveTimeout => { m with receiveTimeout := raw.u2 * 1000 }
  | .errorCode => { m with errorCode := raw.u2 }
  | .platformId => { m with platformId := raw.str }

section

variable (malformed : List (BitVec 8) → String)

/-- The value of a header, by the wire type. -/
def readRaw (id : BitVec 8) : Reader (BitVec 8) Raw :=
  if id &&& 3 = 0 then pure {}
  else if id &&& 3 = 1 then do
    let u2 ← readU2
    pure { u2 }
  else if id &&& 3 = 2 then do
    let bs ← until' (· = 0)
    pure { str := newString malformed bs }
  else do
    let blen ← next
    let bytes ← slice blen.toNat
    pure { bytes }

/-- A header; that with an unknown id throws. -/
def readField (m : DaspMsg) : Reader (BitVec 8) DaspMsg := do
  let id ← next
  let raw ← readRaw malformed id
  ofOption ((headerId? id).map (m.set raw))

def readFields : ℕ → DaspMsg → Reader (BitVec 8) DaspMsg
  | 0, m => pure m
  | n + 1, m => do
      let m ← readField malformed m
      readFields n m

/-- The message without its payload. -/
def readHeaders : Reader (BitVec 8) DaspMsg := do
  let sessionId ← readU2
  let seqNum ← readU2
  let b ← next
  readFields malformed (b &&& 0xf).toNat { sessionId, seqNum, msgType := (b >>> 4).toNat }

/-- `DaspMsg.decode`: an array of negative length throws. -/
def decode (buf : List (BitVec 8)) (length : ℤ) : Option DaspMsg := do
  if buf.length < length then none
  else
    let (m, pos) ← readHeaders malformed buf 0
    if length < pos then none
    else some { m with payload := (buf.drop pos).take (length - pos).toNat }

end

/-! ### Reading the value of a header -/

/-- ASCII characters other than NUL. -/
def Plain (s : String) : Prop := ∀ c ∈ s.toList, 0 < c.toNat ∧ c.toNat ≤ 0x7f

instance (s : String) : Decidable (Plain s) :=
  List.decidableBAll (fun c : Char => 0 < c.toNat ∧ c.toNat ≤ 0x7f) s.toList

/-- A header with a value of its wire type, in range. -/
def Field.Fits (f : Field) : Prop :=
  match f.value with
  | .u2 val => f.id.byte &&& 3 = 1 ∧ 0 ≤ val ∧ val ≤ 0xffff
  | .str val => f.id.byte &&& 3 = 2 ∧ Plain val
  | .bytes val => f.id.byte &&& 3 = 3 ∧ val.length ≤ 255

def Value.raw : Value → Raw
  | .u2 val => { u2 := val }
  | .str val => { str := some val }
  | .bytes val => { bytes := some val }

variable (malformed : List (BitVec 8) → String) {m : DaspMsg} {f : Field} {id : HeaderId}

theorem reads_u2 {val : ℤ} (h : 0 ≤ val ∧ val ≤ 0xffff) : Reads readU2 (u2 val) val := by
  have hval : (BitVec.ofInt 8 (val / 256)).toNat * 256 + (BitVec.ofInt 8 val).toNat = val := by
    simp only [BitVec.toNat_ofInt]
    omega
  refine (Reads.next (BitVec.ofInt 8 (val / 256))).bind (k := [BitVec.ofInt 8 val]) ?_
  refine (Reads.next (BitVec.ofInt 8 val)).bind (k := []) ?_
  rw [hval]
  exact Reads.pure val

theorem reads_bytes {val : List (BitVec 8)} (h : val.length ≤ 255) :
    Reads (do
      let blen ← next
      let bytes ← slice blen.toNat
      pure ({ bytes } : Raw)) (bytes val) (Value.bytes val).raw := by
  have hlen : (BitVec.ofNat 8 val.length).toNat = val.length := by
    rw [BitVec.toNat_ofNat]
    omega
  have hslice : Reads (slice val.length >>= fun bytes => pure ({ bytes := some bytes } : Raw))
      (val ++ []) (Value.bytes val).raw := (Reads.slice val).bind (Reads.pure _)
  rw [List.append_nil] at hslice
  refine (Reads.next (BitVec.ofNat 8 val.length)).bind (k := val) ?_
  rw [hlen]
  exact hslice

/-- Characters up to 0x7f are encoded as themselves. -/
theorem utf8Encode_of_plain {l : List Char} (h : ∀ c ∈ l, c.toNat ≤ 0x7f) :
    ((l.map fun c => BitVec.ofNat 8 c.toNat).map UInt8.ofBitVec).toByteArray = l.utf8Encode := by
  have hchars : l.flatMap String.utf8EncodeChar =
      (l.map fun c => BitVec.ofNat 8 c.toNat).map UInt8.ofBitVec := by
    induction l with
    | nil => rfl
    | cons c l ih =>
      have hc : c.val.toNat ≤ 0x7f := h c (List.mem_cons_self ..)
      have hchar : String.utf8EncodeChar c = [UInt8.ofNat c.val.toNat] := if_pos hc
      rw [List.flatMap_cons, hchar, ih fun d hd => h d (List.mem_cons_of_mem _ hd)]
      rfl
  rw [← hchars]
  rfl

theorem newString_of_plain {s : String} (h : ∀ c ∈ s.toList, c.toNat ≤ 0x7f) :
    newString malformed (s.toList.map fun c => BitVec.ofNat 8 c.toNat) = s := by
  unfold newString
  rw [utf8Encode_of_plain h, String.utf8Encode_toList]
  unfold String.fromUTF8?
  rw [dif_pos s.isValidUTF8]
  rfl

theorem reads_str {val : String} (h : Plain val) :
    ∃ bs, str val = some bs ∧ Reads (do
      let bs ← until' (· = 0)
      pure ({ str := newString malformed bs } : Raw)) bs (Value.str val).raw := by
  have hascii : ∀ c ∈ val.toList, c.toNat ≤ 0x7f := fun c hc => (h c hc).2
  refine ⟨val.toList.map (fun c => BitVec.ofNat 8 c.toNat) ++ [0], if_pos ?_, ?_⟩
  · simpa [List.all_eq_true] using hascii
  have hzero : ∀ b ∈ val.toList.map (fun c => BitVec.ofNat 8 c.toNat), decide (b = 0) = false := by
    intro b hb
    obtain ⟨c, hc, rfl⟩ := List.mem_map.mp hb
    have := h c hc
    rw [decide_eq_false_iff_not, ← BitVec.toNat_inj, BitVec.toNat_ofNat]
    change c.toNat % 256 ≠ 0
    omega
  rw [← List.append_nil (_ ++ [0])]
  refine (Reads.until' hzero (decide_eq_true rfl)).bind ?_
  rw [newString_of_plain malformed hascii]
  exact Reads.pure _

/-- The value is read back by its wire type. -/
theorem reads_raw (h : f.Fits) : ∃ bs, f.value.encode = some bs ∧
    Reads (readRaw malformed f.id.byte) bs f.value.raw := by
  obtain ⟨id, value⟩ := f
  cases value with
  | u2 val =>
    obtain ⟨htype, hval⟩ := h
    refine ⟨_, rfl, ?_⟩
    have hread : Reads (readU2 >>= fun u2 => pure ({ u2 } : Raw)) (u2 val ++ [])
        (Value.u2 val).raw := (reads_u2 hval).bind (Reads.pure _)
    rw [List.append_nil] at hread
    unfold readRaw
    rw [htype]
    exact hread
  | str val =>
    obtain ⟨htype, hval⟩ := h
    obtain ⟨bs, henc, hread⟩ := reads_str malformed hval
    refine ⟨bs, henc, ?_⟩
    unfold readRaw
    rw [htype]
    exact hread
  | bytes val =>
    obtain ⟨htype, hval⟩ := h
    refine ⟨_, rfl, ?_⟩
    unfold readRaw
    rw [htype]
    exact reads_bytes hval

theorem headerId?_byte (id : HeaderId) : headerId? id.byte = some id := by
  cases id <;> rfl

theorem reads_field (h : f.Fits) (m : DaspMsg) : ∃ bs, f.encode = some bs ∧
    Reads (readField malformed m) bs (m.set f.value.raw f.id) := by
  obtain ⟨bs, henc, hread⟩ := reads_raw malformed h
  refine ⟨f.id.byte :: bs, by rw [Field.encode, henc]; rfl, ?_⟩
  refine (Reads.next f.id.byte).bind (k := bs) ?_
  rw [← List.append_nil bs]
  refine hread.bind (Reads.ofOption ?_)
  rw [headerId?_byte]
  rfl

/-- The message with the headers set one after another. -/
def setAll (m : DaspMsg) (fs : List Field) : DaspMsg :=
  fs.foldl (fun m f => m.set f.value.raw f.id) m

theorem payload_setAll (m : DaspMsg) (fs : List Field) : (m.setAll fs).payload = m.payload := by
  induction fs generalizing m with
  | nil => rfl
  | cons f fs ih =>
    refine (ih _).trans ?_
    obtain ⟨id, value⟩ := f
    cases id <;> rfl

theorem reads_fields {fs : List Field} (h : ∀ f ∈ fs, f.Fits) (m : DaspMsg) :
    ∃ bss, fs.mapM Field.encode = some bss ∧
      Reads (readFields malformed fs.length m) bss.flatten (m.setAll fs) := by
  induction fs generalizing m with
  | nil => exact ⟨[], rfl, Reads.pure m⟩
  | cons f fs ih =>
    obtain ⟨bs, henc, hread⟩ := reads_field malformed (h f (List.mem_cons_self ..)) m
    obtain ⟨bss, hencs, hreads⟩ := ih (fun g hg => h g (List.mem_cons_of_mem _ hg))
      (m.set f.value.raw f.id)
    refine ⟨bs :: bss, ?_, hread.bind hreads⟩
    rw [List.mapM_cons, henc, hencs]
    rfl

/-! ### The headers of a message -/

/-- A message that can be encoded: numbers of 16 bits, ASCII strings without NUL, short byte arrays
and a timeout in seconds. -/
structure Valid (m : DaspMsg) : Prop where
  sessionId : 0 ≤ m.sessionId ∧ m.sessionId ≤ 0xffff
  seqNum : 0 ≤ m.seqNum ∧ m.seqNum ≤ 0xffff
  msgType : 0 ≤ m.msgType ∧ m.msgType ≤ 0xf
  u2 : ∀ val ∈ [m.version, m.remoteId, m.idealMax, m.absMax, m.ack, m.receiveMax, m.errorCode],
    val ≤ 0xffff
  str : ∀ o ∈ [m.digestAlgorithm, m.username, m.platformId], ∀ val ∈ o, Plain val
  bytes : ∀ o ∈ [m.nonce, m.digest, m.ackMore], ∀ val ∈ o, val.length ≤ 255
  receiveTimeout : m.receiveTimeout < 0 ∨
    m.receiveTimeout % 1000 = 0 ∧ m.receiveTimeout / 1000 ≤ 0xffff

theorem mem_u2Field {val : ℤ} (h : f ∈ u2Field id val) : f = ⟨id, .u2 val⟩ ∧ 0 ≤ val := by
  unfold u2Field at h
  split at h
  · exact ⟨List.mem_singleton.mp h, by omega⟩
  · cases h

theorem mem_defField {val default : ℤ} (h : f ∈ defField id val default) :
    f = ⟨id, .u2 val⟩ ∧ 0 ≤ val := by
  unfold defField at h
  split at h
  · exact ⟨List.mem_singleton.mp h, by omega⟩
  · cases h

theorem mem_timeoutField {val : ℤ} (h : f ∈ timeoutField val) :
    f = ⟨.receiveTimeout, .u2 (val / 1000)⟩ ∧ 0 ≤ val := by
  unfold timeoutField at h
  split at h
  · exact ⟨List.mem_singleton.mp h, by omega⟩
  · cases h

theorem mem_strField {o : Option String} (h : f ∈ strField id o) :
    ∃ val ∈ o, f = ⟨id, .str val⟩ := by
  cases o with
  | none => cases h
  | some val => exact ⟨val, rfl, List.mem_singleton.mp h⟩

theorem mem_bytesField {o : Option (List (BitVec 8))} (h : f ∈ bytesField id o) :
    ∃ val ∈ o, f = ⟨id, .bytes val⟩ := by
  cases o with
  | none => cases h
  | some val => exact ⟨val, rfl, List.mem_singleton.mp h⟩

/-- Every header of a valid message has a value of its type. -/
theorem Valid.fits (h : m.Valid) : ∀ f ∈ m.fields, f.Fits := by
  have hu2 : ∀ id val, HeaderId.byte id &&& 3 = 1 → val ≤ 0xffff →
      ∀ f : Field, f = ⟨id, .u2 val⟩ ∧ 0 ≤ val → f.Fits := by
    rintro id val htype hle _ ⟨rfl, hpos⟩
    exact ⟨htype, hpos, hle⟩
  have hstr : ∀ id (o : Option String), HeaderId.byte id &&& 3 = 2 → (∀ val ∈ o, Plain val) →
      ∀ f : Field, (∃ val ∈ o, f = ⟨id, .str val⟩) → f.Fits := by
    rintro id o htype hplain _ ⟨val, hval, rfl⟩
    exact ⟨htype, hplain val hval⟩
  have hbytes : ∀ id (o : Option (List (BitVec 8))), HeaderId.byte id &&& 3 = 3 →
      (∀ val ∈ o, val.length ≤ 255) → ∀ f : Field, (∃ val ∈ o, f = ⟨id, .bytes val⟩) → f.Fits := by
    rintro id o htype hlen _ ⟨val, hval, rfl⟩
    exact ⟨htype, hlen val hval⟩
  have h₁ := h.u2
  have h₂ := h.str
  have h₃ := h.bytes
  simp only [List.forall_mem_cons] at h₁ h₂ h₃
  obtain ⟨hversion, hremoteId, hidealMax, habsMax, hack, hreceiveMax, herrorCode, -⟩ := h₁
  obtain ⟨hdigestAlgorithm, husername, hplatformId, -⟩ := h₂
  obtain ⟨hnonce, hdigest, hackMore, -⟩ := h₃
  intro f hf
  simp only [fields, List.mem_append, or_assoc] at hf
  rcases hf with hf | hf | hf | hf | hf | hf | hf | hf | hf | hf | hf | hf | hf | hf
  · exact hu2 _ _ rfl hversion f (mem_u2Field hf)
  · exact hu2 _ _ rfl hremoteId f (mem_u2Field hf)
  · exact hstr _ _ rfl hdigestAlgorithm f (mem_strField hf)
  · exact hbytes _ _ rfl hnonce f (mem_bytesField hf)
  · exact hstr _ _ rfl husername f (mem_strField hf)
  · exact hbytes _ _ rfl hdigest f (mem_bytesField hf)
  · exact hu2 _ _ rfl hidealMax f (mem_defField hf)
  · exact hu2 _ _ rfl habsMax f (mem_defField hf)
  · exact hu2 _ _ rfl hack f (mem_u2Field hf)
  · exact hbytes _ _ rfl hackMore f (mem_bytesField hf)
  · exact hu2 _ _ rfl hreceiveMax f (mem_defField hf)
  · obtain ⟨rfl, hpos⟩ := mem_timeoutField hf
    have htimeout := h.receiveTimeout
    exact hu2 _ (m.receiveTimeout / 1000) rfl (by omega) _ ⟨rfl, by omega⟩
  · exact hu2 _ _ rfl herrorCode f (mem_u2Field hf)
  · exact hstr _ _ rfl hplatformId f (mem_strField hf)

/-- The number of headers fits its four bits. -/
theorem length_fields (m : DaspMsg) : m.fields.length < 16 := by
  have hu2 : ∀ id val, (u2Field id val).length ≤ 1 := by
    intro id val
    unfold u2Field
    split <;> simp
  have hdef : ∀ id val default, (defField id val default).length ≤ 1 := by
    intro id val default
    unfold defField
    split <;> simp
  have hstr : ∀ id o, (strField id o).length ≤ 1 := by
    intro id o
    cases o <;> simp [strField]
  have hbytes : ∀ id o, (bytesField id o).length ≤ 1 := by
    intro id o
    cases o <;> simp [bytesField]
  have htimeout : (timeoutField m.receiveTimeout).length ≤ 1 := by
    unfold timeoutField
    split <;> simp
  have := hu2 .version m.version
  have := hu2 .remoteId m.remoteId
  have := hstr .digestAlgorithm m.digestAlgorithm
  have := hbytes .nonce m.nonce
  have := hstr .username m.username
  have := hbytes .digest m.digest
  have := hdef .idealMax m.idealMax DaspConst.idealMaxDef
  have := hdef .absMax m.absMax DaspConst.absMaxDef
  have := hu2 .ack m.ack
  have := hbytes .ackMore m.ackMore
  have := hdef .receiveMax m.receiveMax DaspConst.receiveMaxDef
  have := hu2 .errorCode m.errorCode
  have := hstr .platformId m.platformId
  simp only [fields, List.length_append]
  omega

theorem setAll_append (fs gs : List Field) : m.setAll (fs ++ gs) = (m.setAll fs).setAll gs :=
  List.foldl_append

theorem setAll_u2Field (val : ℤ) :
    m.setAll (u2Field id val) = if val > -1 then m.set { u2 := val } id else m := by
  unfold u2Field
  split <;> rfl

theorem setAll_defField (val default : ℤ) : m.setAll (defField id val default) =
    if val > -1 ∧ val ≠ default then m.set { u2 := val } id else m := by
  unfold defField
  split <;> rfl

theorem setAll_timeoutField (val : ℤ) : m.setAll (timeoutField val) =
    if val > -1 ∧ val ≠ DaspConst.receiveTimeoutDef then
      m.set { u2 := val / 1000 } .receiveTimeout else m := by
  unfold timeoutField
  split <;> rfl

theorem setAll_strField (o : Option String) :
    m.setAll (strField id o) = if o.isSome then m.set { str := o } id else m := by
  cases o <;> rfl

theorem setAll_bytesField (o : Option (List (BitVec 8))) :
    m.setAll (bytesField id o) = if o.isSome then m.set { bytes := o } id else m := by
  cases o <;> rfl

theorem ite_isSome {α : Type} (o : Option α) : (if o.isSome then o else none) = o := by
  cases o <;> rfl

theorem max_ite (val : ℤ) : max (-1) (if val > -1 then val else -1) = max (-1) val := by
  split <;> omega

theorem orDefault_ite (val default : ℤ) :
    orDefault (if val > -1 ∧ val ≠ default then val else -1) default = orDefault val default := by
  unfold orDefault
  split_ifs <;> omega

/-- A message without headers. -/
def blank (m : DaspMsg) : DaspMsg :=
  { sessionId := m.sessionId, seqNum := m.seqNum, msgType := m.msgType }

/-- The headers that are encoded determine what the accessors return. -/
theorem access_setAll (h : m.Valid) :
    { m.blank.setAll m.fields with payload := m.payload }.access = m.access := by
  simp only [blank, fields, setAll_append, setAll_u2Field, setAll_defField, setAll_strField,
    setAll_bytesField, setAll_timeoutField, set, access, Access.mk.injEq, apply_ite DaspMsg.version,
    apply_ite DaspMsg.remoteId, apply_ite DaspMsg.digestAlgorithm, apply_ite DaspMsg.nonce,
    apply_ite DaspMsg.username, apply_ite DaspMsg.digest, apply_ite DaspMsg.idealMax,
    apply_ite DaspMsg.absMax, apply_ite DaspMsg.ack, apply_ite DaspMsg.ackMore,
    apply_ite DaspMsg.receiveMax, apply_ite DaspMsg.receiveTimeout, apply_ite DaspMsg.errorCode,
    apply_ite DaspMsg.platformId, apply_ite DaspMsg.sessionId, apply_ite DaspMsg.seqNum,
    apply_ite DaspMsg.msgType, ite_self, ite_isSome, max_ite, orDefault_ite, true_and, and_true]
  have hseconds : ∀ c : Prop, [Decidable c] → (c → m.receiveTimeout > -1) →
      (if c then m.receiveTimeout / 1000 * 1000 else -1) = if c then m.receiveTimeout else -1 := by
    intro c _ hc
    have htimeout := h.receiveTimeout
    split
    · next hholds =>
      have := hc hholds
      omega
    · rfl
  rw [hseconds _ And.left]
  exact orDefault_ite ..

/-! ### Round trip -/

theorem toNat_typeByte {t n : ℕ} (ht : t < 16) (hn : n < 16) :
    (BitVec.ofInt 8 ((t : ℤ) * 16) ||| BitVec.ofNat 8 n).toNat = t * 16 + n := by
  have hlow : (BitVec.ofInt 8 ((t : ℤ) * 16)).toNat = 2 ^ 4 * t := by
    rw [BitVec.toNat_ofInt]
    omega
  rw [BitVec.toNat_or, hlow, BitVec.toNat_ofNat, Nat.mod_eq_of_lt (by omega),
    ← Nat.two_pow_add_eq_or_of_lt (show n < 2 ^ 4 by omega)]
  omega

/-- The headers of any message are read back. -/
theorem reads_message {sessionId seqNum : ℤ} {t : ℕ} {fs : List Field}
    (hsession : 0 ≤ sessionId ∧ sessionId ≤ 0xffff) (hseq : 0 ≤ seqNum ∧ seqNum ≤ 0xffff)
    (ht : t < 16) (hlen : fs.length < 16) (hfits : ∀ f ∈ fs, f.Fits) :
    ∃ bss, fs.mapM Field.encode = some bss ∧ Reads (readHeaders malformed)
      (u2 sessionId ++ (u2 seqNum ++ ([BitVec.ofInt 8 ((t : ℤ) * 16) ||| BitVec.ofNat 8 fs.length] ++
        bss.flatten))) (setAll { sessionId, seqNum, msgType := t } fs) := by
  obtain ⟨bss, henc, hreads⟩ := reads_fields malformed hfits { sessionId, seqNum, msgType := t }
  have hbyte := toNat_typeByte ht hlen
  refine ⟨bss, henc, (reads_u2 hsession).bind ((reads_u2 hseq).bind ((Reads.next _).bind ?_))⟩
  generalize BitVec.ofInt 8 ((t : ℤ) * 16) ||| BitVec.ofNat 8 fs.length = b at hbyte
  have hcount : (b &&& 0xf).toNat = fs.length := by
    rw [BitVec.toNat_and, hbyte]
    change (t * 16 + fs.length) &&& (2 ^ 4 - 1) = _
    rw [Nat.and_two_pow_sub_one_eq_mod]
    omega
  have htype : (b >>> 4).toNat = t := by
    rw [BitVec.toNat_ushiftRight, hbyte, Nat.shiftRight_eq_div_pow]
    omega
  rw [hcount, htype]
  exact hreads

/-- The headers of a valid message are read back. -/
theorem reads_headers (h : m.Valid) : ∃ bs, m.toBytes = some (bs ++ m.payload) ∧
    Reads (readHeaders malformed) bs (m.blank.setAll m.fields) := by
  obtain ⟨t, ht⟩ := Int.eq_ofNat_of_zero_le h.msgType.1
  have ht16 : t < 16 := by
    have := h.msgType.2
    omega
  obtain ⟨bss, henc, hreads⟩ := reads_message malformed h.sessionId h.seqNum ht16
    (length_fields m) h.fits
  refine ⟨_, ?_, by rw [blank, ht]; exact hreads⟩
  simp only [toBytes, henc, ht, List.append_assoc]
  rfl

/-- What has been read off a datagram is the message, with the rest as its payload. -/
theorem decode_of_reads {bs : List (BitVec 8)} (payload rest : List (BitVec 8)) {m : DaspMsg}
    (hreads : Reads (readHeaders malformed) bs m) :
    decode malformed (bs ++ payload ++ rest) (bs ++ payload).length = some { m with payload } := by
  have hread := hreads [] (payload ++ rest)
  rw [List.nil_append, ← List.append_assoc] at hread
  have hpayload : ((bs ++ payload ++ rest).drop bs.length).take
      ((bs ++ payload).length - bs.length) = payload := by
    rw [List.append_assoc, List.drop_left, List.length_append, Nat.add_sub_cancel_left,
      List.take_left]
  have hcount : (((bs ++ payload).length : ℤ) - bs.length).toNat =
      (bs ++ payload).length - bs.length := by omega
  unfold decode
  rw [if_neg (by simp only [List.length_append]; omega)]
  refine Option.bind_eq_some_iff.mpr ⟨_, hread, ?_⟩
  dsimp only [List.length_nil]
  rw [if_neg (by rw [List.length_append]; omega), Nat.zero_add, hcount, hpayload]

/-- A message is decoded from its encoding, out of the buffer that it has been encoded into. -/
theorem decode_encode (h : m.Valid) : ∃ n : ℕ, ∀ buf : List (BitVec 8), n ≤ buf.length →
    ∃ buf' m', m.encode buf = some (buf', n) ∧ decode malformed buf' n = some m' ∧
      m'.access = m.access := by
  obtain ⟨bs, hbytes, hreads⟩ := reads_headers malformed h
  refine ⟨(bs ++ m.payload).length, fun buf hlen => ?_⟩
  refine ⟨bs ++ m.payload ++ buf.drop (bs ++ m.payload).length,
    { m.blank.setAll m.fields with payload := m.payload }, ?_, ?_, access_setAll h⟩
  · rw [encode, hbytes]
    exact if_pos hlen
  · exact decode_of_reads malformed _ _ hreads

/-! ### Locality -/

theorem local_readU2 : Local readU2 :=
  .bind .next fun _ => .bind .next fun _ => .pure _

theorem local_readRaw (id : BitVec 8) : Local (readRaw malformed id) := by
  unfold readRaw
  split_ifs
  · exact .pure _
  · exact local_readU2.bind fun _ => .pure _
  · exact (Local.until' _).bind fun _ => .pure _
  · exact Local.next.bind fun _ => (Local.slice _).bind fun _ => .pure _

theorem local_readFields (n : ℕ) (m : DaspMsg) : Local (readFields malformed n m) := by
  induction n generalizing m with
  | zero => exact .pure m
  | succ n ih =>
    exact (Local.next.bind fun id => (local_readRaw malformed id).bind fun _ => .ofOption _).bind ih

theorem local_readHeaders : Local (readHeaders malformed) :=
  local_readU2.bind fun _ => local_readU2.bind fun _ => Local.next.bind fun _ =>
    local_readFields malformed _ _

/-- What lies behind the datagram does not matter. -/
theorem decode_local {buf buf' : List (BitVec 8)} {length : ℤ}
    (h : decode malformed buf length = some m) (hle : length ≤ buf'.length)
    (hbuf : buf'.take length.toNat = buf.take length.toNat) :
    decode malformed buf' length = some m := by
  unfold decode at h ⊢
  split at h
  · cases h
  obtain ⟨⟨m', pos⟩, hread, h⟩ := Option.bind_eq_some_iff.mp h
  dsimp only at h
  split at h
  · cases h
  -- All that has been read lies inside the datagram.
  have hpos : pos ≤ length.toNat := by omega
  have hlocal := (local_readHeaders malformed buf 0 m' pos hread).2 buf' (take_eq_of_le hbuf hpos)
  rw [if_neg (by omega)]
  refine Option.bind_eq_some_iff.mpr ⟨_, hlocal, ?_⟩
  dsimp only
  rw [if_neg ‹_›, ← h]
  have hlen : pos + (length - pos).toNat = length.toNat := by omega
  rw [← hlen] at hbuf
  rw [take_drop_eq hbuf]

/-- What a datagram means: a valid message is decoded from its encoding, and nothing is decoded
from the bytes behind a datagram. -/
theorem codec_exact : (∀ m : DaspMsg, m.Valid → ∃ n : ℕ, ∀ buf : List (BitVec 8), n ≤ buf.length →
      ∃ buf' m', m.encode buf = some (buf', n) ∧ decode malformed buf' n = some m' ∧
        m'.access = m.access) ∧
    ∀ (buf buf' : List (BitVec 8)) (length : ℤ) (m : DaspMsg),
      decode malformed buf length = some m → length ≤ buf'.length →
      buf'.take length.toNat = buf.take length.toNat → decode malformed buf' length = some m :=
  ⟨fun _ h => decode_encode malformed h, fun _ _ _ _ h hle hbuf => decode_local malformed h hle hbuf⟩

/-- An authenticate message. -/
def authenticateMsg : DaspMsg where
  sessionId := 0x1203
  msgType := 3
  seqNum := 0xffff
  username := some "admin"
  digest := some [1, 2, 3]
  payload := [0, 0]

theorem valid_authenticateMsg : authenticateMsg.Valid where
  sessionId := by decide
  seqNum := by decide
  msgType := by decide
  u2 := by decide
  str := by
    intro o ho val hval
    have hadmin : Plain "admin" := by decide
    simp only [authenticateMsg, List.mem_cons, List.not_mem_nil, or_false] at ho
    rcases ho with rfl | rfl | rfl
    · cases hval
    · exact Option.some.inj hval ▸ hadmin
    · cases hval
  bytes := by decide
  receiveTimeout := by decide

/-- It is decoded out of any buffer that is long enough. -/
theorem codec_authenticateMsg : ∃ n : ℕ, ∀ buf : List (BitVec 8), n ≤ buf.length →
    ∃ buf' m', authenticateMsg.encode buf = some (buf', n) ∧
      decode (fun _ => "") buf' n = some m' ∧ m'.access = authenticateMsg.access :=
  (codec_exact fun _ => "").1 authenticateMsg valid_authenticateMsg

end DaspMsg

end Sedona.Dasp
