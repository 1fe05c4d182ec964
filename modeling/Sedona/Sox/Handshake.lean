import Sedona.Dasp.AckHeaders
import Sedona.Dasp.DaspMsg
import Sedona.Sox.UniqueSessions

/-!
# The DASP Handshake

The hello, challenge, authenticate and welcome messages between the client library and the device,
as bytes. Each end tunes the session from what the other one sends.

## Main results

* `exchange_eq`: what both ends hold after a handshake with the right credentials.
* `completes_iff`: when both ends agree.
* `not_completes`: the minimum of the ideal maxima is not what the device holds.
-/

namespace Sedona.Sox

open Cursor Dasp DaspMsg

/-! ### The client -/

/-- `DaspSession` of a client. -/
structure Client where
  id : BitVec 16
  user : String
  pass : String
  idealMax : ℤ
  absMax : ℤ
  /-- In milliseconds. -/
  receiveTimeout : ℤ
  /-- `SendWindow.curSeqNum`. -/
  curSeqNum : BitVec 16
  remoteId : ℤ := 0
  /-- The size of the send window. -/
  sendSize : ℤ := 0

section

variable (sha1 : List (BitVec 8) → List (BitVec 8)) (malformed : List (BitVec 8) → String)

def utf8 (s : String) : List (BitVec 8) := s.toUTF8.data.toList.map UInt8.toBitVec

namespace Client

/-- `DaspSession.hello`. -/
def hello (c : Client) : DaspMsg where
  msgType := 1
  sessionId := 0xffff
  seqNum := c.curSeqNum.toNat
  remoteId := c.id.toNat
  version := 0x0100
  idealMax := c.idealMax
  absMax := c.absMax
  receiveMax := 31
  receiveTimeout := c.receiveTimeout

/-- The authenticate message. -/
def auth (c : Client) (digest : List (BitVec 8)) : DaspMsg where
  msgType := 3
  sessionId := c.remoteId
  seqNum := c.curSeqNum.toNat
  username := some c.user
  digest := some digest

/-- `DaspSession.authenticate`: the message, unless the algorithm is not supported. The comparison
with "SHA-1" is one of references: a header that has been decoded is never the same string. -/
def authenticate (c : Client) (challenge : DaspMsg) : Option DaspMsg :=
  if challenge.digestAlgorithm.isSome then none
  else
    challenge.nonce.map fun nonce =>
      c.auth (sha1 (sha1 (utf8 (c.user ++ ":" ++ c.pass)) ++ nonce))

/-- `DaspSession.tune`. -/
def tune (c : Client) (x : DaspMsg) : Client :=
  { c with
    idealMax := min x.access.idealMax c.idealMax
    absMax := min x.access.absMax c.absMax
    receiveTimeout := max x.access.receiveTimeout c.receiveTimeout
    sendSize := x.access.receiveMax }

end Client

/-! ### The exchange -/

/-- A packet with these bytes. -/
def packet (bytes : List (BitVec 8)) : BufInStream where
  bytes i := bytes.getD i 0
  size := bytes.length

variable {Addr : Type} [DecidableEq Addr]

/-- A message from the client, and the reply of the device. -/
def request (svc : SoxService Addr) (addr : Addr) (env : Env) (m : DaspMsg) :
    Option (DaspMsg × SoxService Addr) := do
  let bytes ← m.toBytes
  let (reply, svc) := svc.dispatch sha1 addr (packet bytes) env
  let res ← DaspMsg.decode malformed reply reply.length
  some (res, svc)

/-- `DaspSession.connect`: both ends after the handshake. A device may put the header for the digest
algorithm into its challenge, which that of `SoxSession` leaves out. -/
def exchange (c : Client) (svc : SoxService Addr) (addr : Addr) (env env' : Env)
    (digestAlgorithm : Option String) : Option (Client × SoxService Addr) := do
  let (res, svc) ← request sha1 malformed svc addr env c.hello
  let c := { c with remoteId := res.access.remoteId }
  if res.msgType = 4 then some (c.tune res, svc)
  else if res.msgType = 2 then
    let auth ← c.authenticate sha1 { res with digestAlgorithm }
    let (welcome, svc) ← request sha1 malformed svc addr env' auth
    if welcome.msgType = 4 then some (c.tune welcome, svc) else none
  else none

end

/-! ### Messages of the device -/

section

variable {malformed : List (BitVec 8) → String} {Addr : Type} {s : SoxSession Addr}

theorem writeI2_u2 (v : BitVec 32) (h : v.toNat ≤ 0xffff) : OutStream.writeI2 v = u2 v.toNat := by
  have heq := writeI2_ofInt v.toNat
  rw [BitVec.ofInt_natCast, BitVec.ofNat_toNat, BitVec.setWidth_eq] at heq
  rw [heq, Int.emod_eq_of_lt (by omega) (by omega)]

theorem writeI2_setWidth {w : ℕ} (v : BitVec w) (hw : w ≤ 16) :
    OutStream.writeI2 (v.setWidth 32) = u2 v.toNat := by
  have hlt : v.toNat < 2 ^ 16 := v.isLt.trans_le (Nat.pow_le_pow_right (by decide) hw)
  have hv : (v.setWidth 32).toNat = v.toNat := by
    rw [BitVec.toNat_setWidth]
    omega
  rw [writeI2_u2 _ (by omega), hv]

theorem with_payload {m : DaspMsg} (h : m.payload = []) : { m with payload := [] } = m := by
  cases m
  cases h
  rfl

/-- A message of the device is decoded by the client. -/
theorem decode_message {t : ℕ} {seqNum : BitVec 16} (fs : List Field) {bss : List (List (BitVec 8))}
    (ht : t < 16) (hlen : fs.length < 16) (hfits : ∀ f ∈ fs, f.Fits)
    (henc : fs.mapM Field.encode = some bss) :
    decode malformed (s.message (BitVec.ofNat 32 t) (seqNum.setWidth 32)
      (BitVec.ofNat 8 fs.length) bss.flatten) (s.message (BitVec.ofNat 32 t)
      (seqNum.setWidth 32) (BitVec.ofNat 8 fs.length) bss.flatten).length =
      some (setAll { sessionId := s.remoteId.toNat, seqNum := seqNum.toNat, msgType := t } fs) := by
  have hu2 : ∀ v : BitVec 16, OutStream.writeI2 (v.setWidth 32) = u2 v.toNat := fun v =>
    writeI2_setWidth v (Nat.le_refl 16)
  have hbyte : (BitVec.ofNat 32 t <<< 4).setWidth 8 = BitVec.ofInt 8 ((t : ℤ) * 16) := by
    rw [← BitVec.toNat_inj, BitVec.toNat_setWidth, BitVec.toNat_shiftLeft, BitVec.toNat_ofNat,
      BitVec.toNat_ofInt, Nat.shiftLeft_eq]
    omega
  have hrange : ∀ v : BitVec 16, (0 : ℤ) ≤ v.toNat ∧ (v.toNat : ℤ) ≤ 0xffff := fun v => by omega
  obtain ⟨bss', henc', hreads⟩ := reads_message malformed (hrange s.remoteId) (hrange seqNum) ht hlen
    hfits
  obtain rfl := Option.some.inj (henc.symm.trans henc')
  have hdecode := decode_of_reads malformed [] [] hreads
  simp only [List.append_nil] at hdecode
  have hmessage : s.message (BitVec.ofNat 32 t) (seqNum.setWidth 32) (BitVec.ofNat 8 fs.length)
      bss.flatten = u2 s.remoteId.toNat ++ (u2 seqNum.toNat ++
        ([BitVec.ofInt 8 ((t : ℤ) * 16) ||| BitVec.ofNat 8 fs.length] ++ bss.flatten)) := by
    simp only [SoxSession.message, hu2, hbyte, List.append_assoc]
  have hpayload := payload_setAll
    { sessionId := s.remoteId.toNat, seqNum := seqNum.toNat, msgType := t } fs
  rw [hmessage, hdecode, with_payload hpayload]

end

/-! ### Headers that the device reads -/

section

variable {h : Hello} {s : BufInStream} {bs : List (BitVec 8)}

/-- The bytes of headers with numbers. -/
def u2Wire (fs : List (HeaderId × ℤ)) : List (BitVec 8) :=
  fs.flatMap fun f => f.1.byte :: u2 f.2

/-- What a header with a number does to the fields of a hello. -/
def Hello.put (h : Hello) (f : HeaderId × ℤ) : Hello :=
  match f.1 with
  | .version => { h with version := f.2 % 65536 }
  | .remoteId => { h with remoteId := f.2 % 65536 }
  | .idealMax => { h with idealMax := BitVec.ofInt 16 (f.2 % 65536) }
  | .receiveTimeout => { h with remoteTimeout := f.2 % 65536 }
  | _ => h

open BufInStream.Holds in
theorem parse_header {n : ℕ} {id : HeaderId} {val : ℤ} (hid : id.byte &&& 3 = 1)
    (hs : s.Holds (id.byte :: u2 val ++ bs)) :
    parseHello (n + 1) h s = parseHello n (h.put (id, val)) (skipped s 3) ∧
      (skipped s 3).Holds bs := by
  obtain ⟨hread, hs₁⟩ := hs.read
  obtain ⟨hval, hs₂⟩ := hs₁.readU2
  refine ⟨(bind_of_eq hread).trans ?_, hs₂⟩
  have hskip : DeviceSendWindow.skipHeader 1 (skipped s 1) = ((), skipped s 3) := hs₁.left.skip rfl
  cases id with
  | version => exact (bind_of_eq hval).trans rfl
  | remoteId => exact (bind_of_eq hval).trans rfl
  | idealMax => exact (bind_of_eq hval).trans rfl
  | receiveTimeout => exact (bind_of_eq hval).trans rfl
  | absMax | ack | receiveMax | errorCode => exact (bind_of_eq hskip).trans rfl
  | _ => exact absurd hid (by decide)

theorem parse_headers {fs : List (HeaderId × ℤ)} (hfs : ∀ f ∈ fs, f.1.byte &&& 3 = 1)
    (hs : s.Holds (u2Wire fs)) :
    ((parseHello fs.length h).run s).1 = fs.foldl Hello.put h := by
  induction fs generalizing h s with
  | nil => rfl
  | cons f fs ih =>
    obtain ⟨hparse, hrest⟩ := parse_header (h := h) (n := fs.length)
      (hfs f (List.mem_cons_self ..)) hs
    have heq : (parseHello (f :: fs).length h).run s =
        (parseHello fs.length (h.put f)).run (BufInStream.Holds.skipped s 3) := hparse
    rw [heq]
    exact ih (fun g hg => hfs g (List.mem_cons_of_mem _ hg)) hrest

/-! ### The hello -/

/-- The headers of a hello: a number with a default value is left out if it is that one. -/
def Client.helloFields (c : Client) : List (HeaderId × ℤ) :=
  [(.version, 0x0100), (.remoteId, (c.id.toNat : ℤ))] ++
  (if c.idealMax > -1 ∧ c.idealMax ≠ 512 then [(.idealMax, c.idealMax)] else []) ++
  (if c.absMax > -1 ∧ c.absMax ≠ 512 then [(.absMax, c.absMax)] else []) ++
  (if c.receiveTimeout > -1 ∧ c.receiveTimeout ≠ 30000 then
    [(.receiveTimeout, c.receiveTimeout / 1000)] else [])

theorem mapM_encode (fs : List (HeaderId × ℤ)) :
    (fs.map fun f => (⟨f.1, .u2 f.2⟩ : Field)).mapM Field.encode =
      some (fs.map fun f => f.1.byte :: u2 f.2) := by
  induction fs with
  | nil => rfl
  | cons f fs ih =>
    rw [List.map_cons, List.mapM_cons, ih]
    rfl

theorem Client.fields_hello (c : Client) :
    c.hello.fields = c.helloFields.map fun f => ⟨f.1, .u2 f.2⟩ := by
  have hid : u2Field .remoteId (c.id.toNat : ℤ) = [⟨.remoteId, .u2 c.id.toNat⟩] :=
    if_pos (by omega)
  have hversion : u2Field .version 0x0100 = [⟨.version, .u2 0x0100⟩] := rfl
  have hmax : defField .receiveMax 31 DaspConst.receiveMaxDef = [] := rfl
  unfold fields helloFields Client.hello
  dsimp only
  rw [hid, hversion, hmax]
  unfold defField timeoutField DaspConst.idealMaxDef DaspConst.absMaxDef DaspConst.receiveTimeoutDef
  split_ifs <;> rfl

/-- The bytes of a hello. -/
def Client.helloBytes (c : Client) : List (BitVec 8) :=
  u2 0xffff ++ u2 c.curSeqNum.toNat ++
    [0x10 ||| BitVec.ofNat 8 c.helloFields.length] ++ u2Wire c.helloFields

theorem Client.toBytes_hello (c : Client) : c.hello.toBytes = some c.helloBytes := by
  unfold DaspMsg.toBytes
  rw [c.fields_hello, mapM_encode, List.length_map]
  change some (_ ++ []) = _
  rw [List.append_nil, helloBytes, u2Wire, List.flatMap_def]
  rfl

theorem holds_packet (bytes : List (BitVec 8)) : (packet bytes).Holds bytes where
  size := by rw [packet, Nat.zero_add]
  bytes i hi := by
    change bytes.getD (0 + i) 0 = _
    rw [Nat.zero_add, List.getD_eq_getElem?_getD, List.getElem?_eq_getElem hi, Option.getD_some]

open BufInStream.Holds in
/-- The standard header of a packet. -/
theorem parse_packet {sessionId seqNum : ℤ} {b : BitVec 8} (hsession : sessionId % 65536 = sessionId)
    (hseq : seqNum % 65536 = seqNum) :
    SoxService.parseHeader.run (packet (u2 sessionId ++ u2 seqNum ++ [b] ++ bs)) =
      ((sessionId, seqNum, (b.toNat : ℤ)),
        skipped (packet (u2 sessionId ++ u2 seqNum ++ [b] ++ bs)) 5) ∧
      (skipped (packet (u2 sessionId ++ u2 seqNum ++ [b] ++ bs)) 5).Holds bs := by
  have hpacket := holds_packet (u2 sessionId ++ u2 seqNum ++ [b] ++ bs)
  obtain ⟨hreadSession, h₁⟩ := hpacket.readU2
  obtain ⟨hreadSeq, h₂⟩ := h₁.readU2
  obtain ⟨hbyte, h₃⟩ := h₂.read
  rw [hsession] at hreadSession
  rw [hseq] at hreadSeq
  exact ⟨(bind_of_eq hreadSession).trans ((bind_of_eq hreadSeq).trans
    ((bind_of_eq hbyte).trans rfl)), h₃⟩

open BufInStream.Holds in
theorem readStrInPlace_of_holds {l : List (BitVec 8)} {n : ℕ} (hl : 0 ∉ l)
    (hs : s.Holds (l ++ 0 :: bs)) (hn : l.length < n) :
    readStrInPlace n s = (some l, skipped s (l.length + 1)) ∧
      (skipped s (l.length + 1)).Holds bs := by
  induction l generalizing s n with
  | nil =>
    obtain ⟨n, rfl⟩ : ∃ k, n = k + 1 := ⟨n - 1, by rw [List.length_nil] at hn; omega⟩
    have hzero : s.bytes s.pos = 0 := hs.bytes 0 (Nat.succ_pos _)
    refine ⟨?_, hs.read.2⟩
    change (if s.bytes s.pos = 0 then _ else _ : StateM BufInStream (Option Str)) _ = _
    rw [if_pos hzero]
    rfl
  | cons c l ih =>
    obtain ⟨n, rfl⟩ : ∃ k, n = k + 1 := ⟨n - 1, by rw [List.length_cons] at hn; omega⟩
    rw [List.mem_cons, not_or] at hl
    have hc : s.bytes s.pos = c := hs.bytes 0 (Nat.succ_pos _)
    have hmore : ¬ s.size ≤ s.pos + 1 := by
      have hsize := hs.size
      simp only [List.cons_append, List.length_cons, List.length_append] at hsize
      omega
    rw [List.length_cons] at hn
    have hn' : l.length < n := by omega
    obtain ⟨hrest, hs'⟩ := ih hl.2 hs.read.2 hn'
    have hskip : skipped (skipped s 1) (l.length + 1) = skipped s ((c :: l).length + 1) := by
      simp only [skipped, List.length_cons, Nat.add_assoc, Nat.add_comm 1]
    rw [hskip] at hrest hs'
    refine ⟨?_, hs'⟩
    change (if s.bytes s.pos = 0 then _ else if s.size ≤ s.pos + 1 then _ else _ :
      StateM BufInStream (Option Str)) _ = _
    rw [if_neg (by rw [hc]; exact Ne.symm hl.1), if_neg hmore, hc]
    exact (bind_of_eq hrest).trans rfl

end

/-! ### The challenge -/

section

variable {Addr : Type} {s : SoxSession Addr} {i : ℕ}

/-- The challenge of a session. -/
def SoxSession.challengeMsg (s : SoxSession Addr) (i : ℕ) : List (BitVec 8) :=
  s.message 2 (s.seqNum.setWidth 32) 2
    (OutStream.write (0x02#32 <<< 2 ||| 1) ++ OutStream.writeI2 (s.id i) ++
      (OutStream.write (0x04#32 <<< 2 ||| 3) ++ OutStream.write 8 ++ OutStream.writeI8 s.nonce))

theorem toNat_id (s : SoxSession Addr) (hi : i < 256) :
    (s.id i).toNat = s.rand.toNat * 256 + i := by
  have hrand := s.rand.isLt
  unfold SoxSession.id
  rw [BitVec.toNat_or, BitVec.toNat_shiftLeft, BitVec.toNat_setWidth, BitVec.toNat_ofNat,
    Nat.mod_eq_of_lt (by omega : s.rand.toNat < 2 ^ 32), Nat.mod_eq_of_lt (by omega : i < 2 ^ 32),
    Nat.mod_eq_of_lt (by rw [Nat.shiftLeft_eq]; omega), ← Nat.shiftLeft_add_eq_or_of_lt (b := i) hi,
    Nat.shiftLeft_eq]

/-- What the client makes of the challenge. -/
theorem decode_challengeMsg (malformed : List (BitVec 8) → String) (s : SoxSession Addr)
    (hi : i < 256) :
    decode malformed (s.challengeMsg i) (s.challengeMsg i).length =
      some { sessionId := s.remoteId.toNat, seqNum := s.seqNum.toNat, msgType := 2,
             remoteId := (s.id i).toNat, nonce := some (OutStream.writeI8 s.nonce) } := by
  have hid : (s.id i).toNat ≤ 0xffff := by
    rw [toNat_id s hi]
    omega
  have hbody : OutStream.write (0x02#32 <<< 2 ||| 1) ++ OutStream.writeI2 (s.id i) ++
      (OutStream.write (0x04#32 <<< 2 ||| 3) ++ OutStream.write 8 ++ OutStream.writeI8 s.nonce) =
      [HeaderId.remoteId.byte :: u2 (s.id i).toNat,
        HeaderId.nonce.byte :: bytes (OutStream.writeI8 s.nonce)].flatten := by
    rw [writeI2_u2 _ hid]
    rfl
  unfold SoxSession.challengeMsg
  rw [hbody]
  refine decode_message (t := 2) [⟨.remoteId, .u2 (s.id i).toNat⟩,
    ⟨.nonce, .bytes (OutStream.writeI8 s.nonce)⟩] (by decide) (Nat.le_of_ble_eq_true rfl) ?_ rfl
  intro f hf
  simp only [List.mem_cons, List.not_mem_nil, or_false] at hf
  rcases hf with rfl | rfl
  · exact ⟨(by decide : HeaderId.remoteId.byte &&& 3 = 1), by omega, by omega⟩
  · exact ⟨(by decide : HeaderId.nonce.byte &&& 3 = 3), (by decide : 8 ≤ 255)⟩

end

/-! ### User names -/

theorem utf8_of_plain {s : String} (h : Plain s) :
    utf8 s = s.toList.map fun c => BitVec.ofNat 8 c.toNat := by
  have hencode := utf8Encode_of_plain fun c hc => (h c hc).2
  rw [String.utf8Encode_toList] at hencode
  unfold utf8
  have : s.toUTF8 = s.toByteArray := rfl
  rw [this, ← hencode]
  simp

theorem zero_notMem_utf8 {s : String} (h : Plain s) : 0 ∉ utf8 s := by
  rw [utf8_of_plain h, List.mem_map]
  rintro ⟨c, hc, hzero⟩
  have hplain := h c hc
  rw [← BitVec.toNat_inj, BitVec.toNat_ofNat] at hzero
  change c.toNat % 256 = 0 at hzero
  omega

/-! ### The session after a hello -/

section

variable {sha1 : List (BitVec 8) → List (BitVec 8)} {malformed : List (BitVec 8) → String}
  {Addr : Type} {svc : SoxService Addr} {addr : Addr} {env : Env} {c : Client} {i : ℕ}

/-- The timeout in seconds that a hello asks for. -/
def Client.timeout (c : Client) : ℤ :=
  if c.receiveTimeout > -1 ∧ c.receiveTimeout ≠ 30000 then c.receiveTimeout / 1000 % 65536 else 30

theorem Client.foldl_put (c : Client) (h : Hello) (hmax : h.remoteIdealMax = 512)
    (htimeout : h.remoteTimeout = 30) :
    (c.helloFields.foldl Hello.put h).version = 0x0100 ∧
      (c.helloFields.foldl Hello.put h).remoteId = c.id.toNat ∧
      (c.helloFields.foldl Hello.put h).remoteIdealMax = 512 ∧
      (c.helloFields.foldl Hello.put h).remoteTimeout = c.timeout := by
  have hid : (c.id.toNat : ℤ) % 65536 = c.id.toNat := by omega
  unfold helloFields timeout
  split_ifs
  all_goals
    refine ⟨rfl, hid, hmax, ?_⟩
    first
    | rfl
    | exact htimeout

theorem Client.length_helloFields (c : Client) : c.helloFields.length < 16 := by
  unfold helloFields
  split_ifs <;> exact Nat.le_of_ble_eq_true rfl

theorem Client.u2_helloFields (c : Client) : ∀ f ∈ c.helloFields, f.1.byte &&& 3 = 1 := by
  unfold helloFields
  split_ifs <;> simp [HeaderId.byte]

/-- The session after the hello of a client. -/
structure Greeted (c : Client) (svc : SoxService Addr) (addr : Addr) (s : SoxSession Addr) :
    Prop where
  closed : s.closed = false
  addr : s.addr = addr
  remoteId : s.remoteId = c.id
  idealMax : s.idealMax = BitVec.ofInt 16 (max svc.idealMaxVal.toNat 512)
  receiveTimeout : s.receiveTimeout = BitVec.ofInt 16 (max 5 c.timeout)
  receiveWindow : ∃ w, s.receiveWindow = Dasp.Device.init w c.curSeqNum.toNat

theorem toNat_typeByte {n : ℕ} (hn : n < 16) :
    ((0x10 ||| BitVec.ofNat 8 n : BitVec 8).toNat : ℤ) = 16 + n := by
  have h : ∀ m : Fin 16, ((0x10 ||| BitVec.ofNat 8 m.val : BitVec 8).toNat : ℤ) = 16 + m.val := by
    decide
  exact h ⟨n, hn⟩

/-- The configuration of the service. -/
def SoxService.config (svc : SoxService Addr) : BitVec 8 × Option (List User) × BitVec 16 :=
  (svc.receiveMax, svc.users, svc.idealMaxVal)

theorem openSession_eq (addr : Addr) (env : Env) (hfree : ∃ s ∈ svc.sessions, s.watched = false) :
    ∃ i svc', svc.openSession addr env = some (i, svc') ∧ i < svc.sessions.length ∧
      svc'.config = svc.config ∧
      ∃ s, svc'.sessions[i]? = some s ∧ s.closed = false ∧ s.addr = addr := by
  obtain ⟨t, ht, hwatched⟩ := hfree
  obtain ⟨i, hi⟩ : ∃ i, svc.sessions.findIdx? (fun s => !s.watched) = some i := by
    rw [← Option.isSome_iff_exists, List.findIdx?_isSome, List.any_eq_true]
    exact ⟨t, ht, by rw [hwatched]; rfl⟩
  have hlt : i < svc.sessions.length := (List.findIdx?_eq_some_iff_findIdx_eq.mp hi).1
  unfold SoxService.openSession SoxService.openWatch
  rw [hi]
  refine ⟨i, _, rfl, hlt, rfl, ?_⟩
  dsimp only
  rw [getElem?_modify_self, getElem?_modify_self, List.getElem?_eq_getElem hlt]
  exact ⟨_, rfl, rfl, rfl⟩

variable [DecidableEq Addr]

theorem config_closeDup (svc : SoxService Addr) (i : ℕ) (s : SoxSession Addr) :
    (svc.closeDup i s).config = svc.config := by
  obtain ⟨heq, -⟩ | ⟨j, t, heq, -⟩ := closeDup_cases svc i s <;> rw [heq]
  rfl

/-- `SoxSession.challenge` for the hello of a client. -/
theorem challenge_hello (env : Env) {s : SoxSession Addr} {input : BufInStream}
    (hs : svc.sessions[i]? = some s)
    (hin : input.Holds (u2Wire c.helloFields)) :
    ∃ s' svc', svc.challenge i c.helloFields.length input env = (s'.challengeMsg i, svc') ∧
      svc'.sessions[i]? = some s' ∧ svc'.config = svc.config ∧
      s' = { s with
        remoteId := c.id
        idealMax := BitVec.ofInt 16 (max svc.idealMaxVal.toNat 512)
        receiveTimeout := BitVec.ofInt 16 (max 5 c.timeout)
        nonce := env.nonce } := by
  have hparse := parse_headers (h := { idealMax := s.idealMax }) c.u2_helloFields hin
  obtain ⟨hversion, hid, hmax, htimeout⟩ := c.foldl_put { idealMax := s.idealMax } rfl rfl
  rw [← hparse] at hversion hid hmax htimeout
  unfold SoxService.challenge
  rw [hs]
  dsimp only
  rcases hrun : (parseHello c.helloFields.length { idealMax := s.idealMax }).run input with ⟨h, rest⟩
  rw [hrun] at hversion hid hmax htimeout
  have hremote : BitVec.ofInt 16 c.id.toNat = c.id := by
    rw [BitVec.ofInt_natCast, BitVec.ofNat_toNat, BitVec.setWidth_eq]
  dsimp only at hversion hid hmax htimeout ⊢
  rw [hversion, hid, hmax, htimeout, hremote, if_neg (not_not_intro rfl)]
  generalize ht : ({ s with
    remoteId := c.id
    idealMax := BitVec.ofInt 16 (max svc.idealMaxVal.toNat 512)
    receiveTimeout := BitVec.ofInt 16 (max 5 c.timeout) } : SoxSession Addr) = t
  have hself := closeDup_self (svc.modify i fun _ => t) i t
  rw [getElem?_modify_self, hs] at hself
  have hseq : s.seqNum = t.seqNum := by rw [← ht]
  rw [hseq]
  refine ⟨{ t with nonce := env.nonce }, _, rfl, ?_, ?_, ?_⟩
  · rw [getElem?_modify_self, hself]
    rfl
  · exact config_closeDup (svc.modify i fun _ => t) i t
  · rw [← ht]

open BufInStream.Holds in
/-- The device answers the hello of a client with a challenge. -/
theorem dispatch_hello (sha1 : List (BitVec 8) → List (BitVec 8)) (addr : Addr) (env : Env)
    (c : Client)
    (hfree : ∃ s ∈ svc.sessions, s.watched = false) :
    ∃ i s svc', i < svc.sessions.length ∧
      svc.dispatch sha1 addr (packet c.helloBytes) env = (s.challengeMsg i, svc') ∧
      svc'.sessions[i]? = some s ∧ svc'.config = svc.config ∧ Greeted c svc addr s := by
  obtain ⟨i, svc₁, hopen, hlt, hconfig, s₁, hs₁, hclosed, haddr⟩ :=
    openSession_eq addr env hfree
  have hlen := c.length_helloFields
  have hseq : (c.curSeqNum.toNat : ℤ) % 65536 = c.curSeqNum.toNat := by omega
  obtain ⟨hheader, hin⟩ : SoxService.parseHeader.run (packet c.helloBytes) =
      (_, skipped (packet c.helloBytes) 5) ∧ (skipped (packet c.helloBytes) 5).Holds _ :=
    parse_packet (by decide) hseq
  rw [toNat_typeByte hlen] at hheader
  have htype : (16 + (c.helloFields.length : ℤ)) / 16 % 16 = 1 := by omega
  have hfields : ((16 + (c.helloFields.length : ℤ)) % 16).toNat = c.helloFields.length := by omega
  have hs₂ : (svc₁.modify i fun s => { s with lastReceiveTicks := env.ticks }).sessions[i]? =
      some { s₁ with lastReceiveTicks := env.ticks } := by
    rw [getElem?_modify_self, hs₁]
    rfl
  obtain ⟨s', svc', hchallenge, hs', hconfig', heq⟩ := challenge_hello env hs₂ hin
  refine ⟨i, { s' with receiveWindow := Dasp.Device.init s'.receiveWindow c.curSeqNum.toNat },
    svc'.modify i fun s =>
      { s with receiveWindow := Dasp.Device.init s.receiveWindow c.curSeqNum.toNat },
    hlt, ?_, ?_, hconfig'.trans hconfig, ?_⟩
  · unfold SoxService.dispatch
    rw [hheader]
    dsimp only
    rw [htype, hfields, if_pos (.inl rfl), hopen]
    dsimp only
    rw [if_pos rfl, hchallenge]
    rfl
  · rw [getElem?_modify_self, hs']
    rfl
  · rw [heq]
    have hmax : svc₁.idealMaxVal = svc.idealMaxVal := congrArg (·.2.2) hconfig
    exact
      { closed := hclosed
        addr := haddr
        remoteId := rfl
        idealMax := by rw [← hmax]; rfl
        receiveTimeout := rfl
        receiveWindow := ⟨s₁.receiveWindow, rfl⟩ }

/-! ### The answer to a challenge -/

/-- The bytes of an authenticate message. -/
def Client.authBytes (c : Client) (digest : List (BitVec 8)) : List (BitVec 8) :=
  u2 c.remoteId ++ u2 c.curSeqNum.toNat ++ [0x32] ++
    (0x16 :: (utf8 c.user ++ 0 :: 0x1b :: 20 :: digest))

theorem Client.toBytes_auth {digest : List (BitVec 8)} (hplain : Plain c.user)
    (hlen : digest.length = 20) : (c.auth digest).toBytes = some (c.authBytes digest) := by
  have hstr : str c.user = some (utf8 c.user ++ [0]) := by
    rw [utf8_of_plain hplain]
    refine if_pos ?_
    rw [List.all_eq_true]
    exact fun d hd => decide_eq_true (hplain d hd).2
  have husername : Field.encode ⟨.username, .str c.user⟩ = some (0x16 :: (utf8 c.user ++ [0])) := by
    change (str c.user).map _ = _
    rw [hstr]
    rfl
  have hdigest : Field.encode ⟨.digest, .bytes digest⟩ = some (0x1b :: 20 :: digest) := by
    change some (_ :: BitVec.ofNat 8 digest.length :: digest) = _
    rw [hlen]
    rfl
  have hfields : (c.auth digest).fields = [⟨.username, .str c.user⟩, ⟨.digest, .bytes digest⟩] := rfl
  have hencode : (c.auth digest).fields.mapM Field.encode =
      some [0x16 :: (utf8 c.user ++ [0]), 0x1b :: 20 :: digest] := by
    rw [hfields, List.mapM_cons, husername, List.mapM_cons, hdigest]
    rfl
  unfold DaspMsg.toBytes authBytes
  rw [hencode, hfields]
  simp [auth]

theorem get_eq (s : BufInStream) : (get : StateM BufInStream BufInStream) s = (s, s) := rfl

open BufInStream.Holds in
theorem parse_username {input : BufInStream} {name bs : List (BitVec 8)} {n : ℕ} {a : Authenticate}
    (hname : 0 ∉ name) (hin : input.Holds (0x16 :: (name ++ 0 :: bs))) :
    parseAuthenticate (n + 1) a input =
        parseAuthenticate n { a with username := some name } (skipped input (name.length + 2)) ∧
      (skipped input (name.length + 2)).Holds bs := by
  obtain ⟨hid, h₁⟩ := hin.read
  have hsize := h₁.size
  simp only [List.length_append, List.length_cons] at hsize
  obtain ⟨hstr, h₂⟩ := readStrInPlace_of_holds
    (n := (skipped input 1).size - (skipped input 1).pos + 1) hname h₁ (by omega)
  have hrest := bind_of_eq (f := fun username => parseAuthenticate n { a with username }) hstr
  have hskip : skipped (skipped input 1) (name.length + 1) = skipped input (name.length + 2) := by
    simp only [skipped, Nat.add_assoc, Nat.add_comm 1]
  rw [hskip] at hrest h₂
  exact ⟨(bind_of_eq hid).trans hrest, h₂⟩

open BufInStream.Holds in
theorem parse_digest {input : BufInStream} {digest : List (BitVec 8)} {a : Authenticate}
    (hlen : digest.length = 20) (hin : input.Holds (0x1b :: 20 :: digest)) :
    parseAuthenticate 1 a input =
      ({ a with digestLen := 20, digestOff := input.pos + 2 }, skipped input 22) ∧
      ∀ (k : ℕ) (hk : k < digest.length), input.bytes (input.pos + 2 + k) = digest[k] := by
  obtain ⟨hid, h₁⟩ := hin.read
  obtain ⟨hblen, h₂⟩ := h₁.read
  have htwenty : (((20 : BitVec 8).toNat : ℕ) : ℤ) = 20 := by decide
  rw [htwenty] at hblen
  have hskip := h₂.skip hlen
  have hpos : skipped (skipped (skipped input 1) 1) 20 = skipped input 22 := rfl
  rw [Nat.cast_ofNat, hpos] at hskip
  refine ⟨?_, fun k hk => h₂.bytes k hk⟩
  have hlast := bind_of_eq (f := fun _ => parseAuthenticate 0
    { a with digestLen := 20, digestOff := input.pos + 2 }) hskip
  exact (bind_of_eq hid).trans ((bind_of_eq hblen).trans ((bind_of_eq (get_eq _)).trans hlast))

/-- The device reads the name and where the digest is. -/
theorem parse_authenticate {input : BufInStream} {name digest : List (BitVec 8)}
    (hname : 0 ∉ name) (hlen : digest.length = 20)
    (hin : input.Holds (0x16 :: (name ++ 0 :: 0x1b :: 20 :: digest))) :
    ∃ a rest, (parseAuthenticate 2 {}).run input = (a, rest) ∧ a.username = some name ∧
      a.digestLen = 20 ∧ (List.range 20).map (fun k => input.bytes (a.digestOff + k)) = digest := by
  obtain ⟨hfirst, h₁⟩ := parse_username (n := 1) (a := {}) hname hin
  obtain ⟨hsecond, hbytes⟩ := parse_digest (a := { username := some name }) hlen h₁
  refine ⟨_, _, hfirst.trans hsecond, rfl, rfl, ?_⟩
  refine List.ext_getElem (by rw [List.length_map, List.length_range, hlen]) fun k hk hk' => ?_
  rw [List.getElem_map, List.getElem_range]
  exact hbytes k hk'

/-! ### The welcome -/

section

variable {Addr : Type} {svc : SoxService Addr} {addr : Addr} {env : Env} {c : Client} {i : ℕ}
  {s : SoxSession Addr} {sha1 : List (BitVec 8) → List (BitVec 8)}

/-- The welcome of a session. -/
def SoxSession.welcomeMsg (s : SoxSession Addr) (svc : SoxService Addr) : List (BitVec 8) :=
  s.message 4 (s.seqNum.setWidth 32) 3
    (OutStream.write (0x07#32 <<< 2 ||| 1) ++ OutStream.writeI2 (svc.idealMaxVal.setWidth 32) ++
      (OutStream.write (0x0b#32 <<< 2 ||| 1) ++ OutStream.writeI2 (svc.receiveMax.setWidth 32)) ++
      (OutStream.write (0x0c#32 <<< 2 ||| 1) ++ OutStream.writeI2 (s.receiveTimeout.setWidth 32)))

/-- What the client makes of the welcome. -/
theorem decode_welcomeMsg (malformed : List (BitVec 8) → String) (s : SoxSession Addr)
    (svc : SoxService Addr) :
    decode malformed (s.welcomeMsg svc) (s.welcomeMsg svc).length =
      some { sessionId := s.remoteId.toNat, seqNum := s.seqNum.toNat, msgType := 4,
             idealMax := svc.idealMaxVal.toNat, receiveMax := svc.receiveMax.toNat,
             receiveTimeout := (s.receiveTimeout.toNat : ℤ) * 1000 } := by
  have hbody : OutStream.write (0x07#32 <<< 2 ||| 1) ++
        OutStream.writeI2 (svc.idealMaxVal.setWidth 32) ++
        (OutStream.write (0x0b#32 <<< 2 ||| 1) ++ OutStream.writeI2 (svc.receiveMax.setWidth 32)) ++
        (OutStream.write (0x0c#32 <<< 2 ||| 1) ++
          OutStream.writeI2 (s.receiveTimeout.setWidth 32)) =
      [HeaderId.idealMax.byte :: u2 svc.idealMaxVal.toNat,
        HeaderId.receiveMax.byte :: u2 svc.receiveMax.toNat,
        HeaderId.receiveTimeout.byte :: u2 s.receiveTimeout.toNat].flatten := by
    rw [writeI2_setWidth _ (by decide), writeI2_setWidth _ (by decide),
      writeI2_setWidth _ (by decide)]
    rfl
  unfold SoxSession.welcomeMsg
  rw [hbody]
  refine decode_message (t := 4) [⟨.idealMax, .u2 svc.idealMaxVal.toNat⟩,
    ⟨.receiveMax, .u2 svc.receiveMax.toNat⟩, ⟨.receiveTimeout, .u2 s.receiveTimeout.toNat⟩]
    (by decide) (Nat.le_of_ble_eq_true rfl) ?_ rfl
  intro f hf
  simp only [List.mem_cons, List.not_mem_nil, or_false] at hf
  rcases hf with rfl | rfl | rfl
  · exact ⟨(by decide : HeaderId.idealMax.byte &&& 3 = 1), by omega, by omega⟩
  · exact ⟨(by decide : HeaderId.receiveMax.byte &&& 3 = 1), by omega, by omega⟩
  · exact ⟨(by decide : HeaderId.receiveTimeout.byte &&& 3 = 1), by omega, by omega⟩

/-- A user of the service, whose credentials are those of the client. -/
def Known (sha1 : List (BitVec 8) → List (BitVec 8)) (c : Client) (users : Option (List User)) :
    Prop :=
  ∃ user, (users.bind fun users => users.find? (·.name = utf8 c.user)) = some user ∧
    user.cred = sha1 (utf8 (c.user ++ ":" ++ c.pass))

/-- The digest with which a client answers a challenge. -/
def Client.digest (sha1 : List (BitVec 8) → List (BitVec 8)) (c : Client) (nonce : BitVec 64) :
    List (BitVec 8) :=
  sha1 (sha1 (utf8 (c.user ++ ":" ++ c.pass)) ++ OutStream.writeI8 nonce)

theorem authenticate_eq (hknown : Known sha1 c svc.users) (nonce : BitVec 64) :
    ∃ user, svc.authenticate sha1 nonce (utf8 c.user) (c.digest sha1 nonce) = (some user, true) := by
  obtain ⟨user, hfind, hcred⟩ := hknown
  refine ⟨user, ?_⟩
  unfold SoxService.authenticate
  rw [hfind]
  dsimp only
  rw [hcred]
  exact congrArg _ (decide_eq_true rfl)

theorem session_id (hi : i < 256) (hs : svc.sessions[i]? = some s) (hopen : s.closed = false) :
    svc.session (s.id i).toNat = some i := by
  have hslot : ((((s.id i).toNat : ℕ) : ℤ) % 256).toNat = i := by
    rw [toNat_id s hi]
    omega
  unfold SoxService.session
  dsimp only
  rw [hslot, hs]
  exact if_pos ⟨rfl, by rw [hopen]; rfl⟩

/-- `SoxSession.welcome` for the answer of a client that the device knows. -/
theorem welcome_eq {input : BufInStream} (hsha1 : ∀ bs, (sha1 bs).length = 20)
    (hplain : Plain c.user) (hknown : Known sha1 c svc.users) (hs : svc.sessions[i]? = some s)
    (hin : input.Holds (0x16 :: (utf8 c.user ++ 0 :: 0x1b :: 20 :: c.digest sha1 s.nonce))) :
    ∃ user, svc.welcome sha1 i 2 input =
      (s.welcomeMsg svc, svc.modify i fun s => { s with user := some user }) := by
  obtain ⟨user, hauth⟩ := authenticate_eq hknown s.nonce
  have htwenty : (c.digest sha1 s.nonce).length = 20 := hsha1 _
  obtain ⟨a, rest, hparse, hname, hlen, hdigest⟩ :=
    parse_authenticate (zero_notMem_utf8 hplain) htwenty hin
  refine ⟨user, ?_⟩
  unfold SoxService.welcome
  rw [hs]
  dsimp only
  rw [hparse]
  dsimp only
  rw [hname]
  dsimp only
  rw [if_neg (not_not_intro hlen), hdigest, hauth]
  rfl

variable [DecidableEq Addr]

open BufInStream.Holds in
/-- The device welcomes a client that it knows. -/
theorem dispatch_auth (addr : Addr) (env : Env) (hsha1 : ∀ bs, (sha1 bs).length = 20) (hplain : Plain c.user)
    (hknown : Known sha1 c svc.users) (hi : i < 256) (hs : svc.sessions[i]? = some s)
    (hopen : s.closed = false) (hid : c.remoteId = (s.id i).toNat) :
    ∃ user svc', svc.dispatch sha1 addr (packet (c.authBytes (c.digest sha1 s.nonce))) env =
        (s.welcomeMsg svc, svc') ∧
      svc'.sessions[i]? = some { s with lastReceiveTicks := env.ticks, user := some user } := by
  have hseq : (c.curSeqNum.toNat : ℤ) % 65536 = c.curSeqNum.toNat := by omega
  have hsession : c.remoteId % 65536 = c.remoteId := by
    rw [hid, toNat_id s hi]
    omega
  obtain ⟨hheader, hin⟩ : SoxService.parseHeader.run (packet (c.authBytes (c.digest sha1 s.nonce))) =
      (_, skipped (packet (c.authBytes (c.digest sha1 s.nonce))) 5) ∧
        (skipped (packet (c.authBytes (c.digest sha1 s.nonce))) 5).Holds _ :=
    parse_packet hsession hseq
  have hs₁ : (svc.modify i fun s => { s with lastReceiveTicks := env.ticks }).sessions[i]? =
      some { s with lastReceiveTicks := env.ticks } := by
    rw [getElem?_modify_self, hs]
    rfl
  have hknown₁ : Known sha1 c (svc.modify i fun s => { s with lastReceiveTicks := env.ticks }).users :=
    hknown
  obtain ⟨user, hwelcome⟩ := welcome_eq hsha1 hplain hknown₁ hs₁ hin
  refine ⟨user, (svc.modify i fun s => { s with lastReceiveTicks := env.ticks }).modify i fun s =>
    { s with user := some user }, ?_, ?_⟩
  · have hfound : svc.session c.remoteId = some i := by rw [hid, session_id hi hs hopen]
    unfold SoxService.dispatch
    rw [hheader]
    dsimp only
    have htype : (((0x32 : BitVec 8).toNat : ℕ) : ℤ) / 16 % 16 = 3 := by decide
    have hfields : ((((0x32 : BitVec 8).toNat : ℕ) : ℤ) % 16).toNat = 2 := by decide
    rw [htype, hfields, if_neg (by decide), hfound]
    dsimp only [Option.map_some]
    rw [if_neg (by decide), if_pos rfl, hwelcome]
    rfl
  · rw [getElem?_modify_self, hs₁]
    rfl

end

end

/-! ### Both ends -/

section

variable {Addr : Type} {svc : SoxService Addr} {addr : Addr} {env env' : Env} {c : Client}
  {sha1 : List (BitVec 8) → List (BitVec 8)} {malformed : List (BitVec 8) → String}

/-- A slot is free, and the client has the credentials of a user. The name of a user is that of a
component. -/
structure Admits (sha1 : List (BitVec 8) → List (BitVec 8)) (svc : SoxService Addr) (c : Client) :
    Prop where
  length_sha1 (bs : List (BitVec 8)) : (sha1 bs).length = 20
  plain : Plain c.user
  known : Known sha1 c svc.users
  slots : svc.sessions.length = 4
  free : ∃ s ∈ svc.sessions, s.watched = false

/-- The client after the welcome of a session with the id and the timeout. -/
def Client.tuned (c : Client) (svc : SoxService Addr) (remoteId receiveTimeout : ℤ) : Client :=
  { c with
    remoteId
    idealMax := min svc.idealMaxVal.toNat c.idealMax
    absMax := min 512 c.absMax
    receiveTimeout := max (receiveTimeout * 1000) c.receiveTimeout
    sendSize := svc.receiveMax.toNat }

theorem orDefault_of_nonneg {val : ℤ} (default : ℤ) (h : 0 ≤ val) : orDefault val default = val :=
  if_neg (by omega)

theorem Client.tune_welcome {welcome : DaspMsg} {remoteId receiveTimeout : ℕ}
    (hid : c.remoteId = remoteId) (hmax : welcome.idealMax = svc.idealMaxVal.toNat)
    (habs : welcome.absMax = -1) (hreceive : welcome.receiveMax = svc.receiveMax.toNat)
    (htimeout : welcome.receiveTimeout = (receiveTimeout : ℤ) * 1000) :
    c.tune welcome = c.tuned svc remoteId receiveTimeout := by
  have hidealMax : welcome.access.idealMax = svc.idealMaxVal.toNat :=
    (orDefault_of_nonneg _ (by omega)).trans hmax
  have habsMax : welcome.access.absMax = 512 := by
    rw [access, habs]
    rfl
  have hreceiveMax : welcome.access.receiveMax = svc.receiveMax.toNat :=
    (orDefault_of_nonneg _ (by omega)).trans hreceive
  have hreceiveTimeout : welcome.access.receiveTimeout = (receiveTimeout : ℤ) * 1000 :=
    (orDefault_of_nonneg _ (by omega)).trans htimeout
  unfold tune tuned
  rw [hidealMax, habsMax, hreceiveMax, hreceiveTimeout, hid]

variable [DecidableEq Addr]

theorem Client.authenticate_challenge (c : Client) {challenge : DaspMsg} (nonce : BitVec 64)
    (halgorithm : challenge.digestAlgorithm = none)
    (hnonce : challenge.nonce = some (OutStream.writeI8 nonce)) :
    c.authenticate sha1 challenge = some (c.auth (c.digest sha1 nonce)) := by
  unfold authenticate
  rw [halgorithm, hnonce]
  rfl

theorem request_eq {m res : DaspMsg} {svc' : SoxService Addr} {bytes reply : List (BitVec 8)}
    (hbytes : m.toBytes = some bytes)
    (hdispatch : svc.dispatch sha1 addr (packet bytes) env = (reply, svc'))
    (hdecode : decode malformed reply reply.length = some res) :
    request sha1 malformed svc addr env m = some (res, svc') := by
  unfold request
  rw [hbytes]
  dsimp only [Option.bind_eq_bind, Option.bind_some]
  rw [hdispatch]
  dsimp only
  rw [hdecode]
  rfl

/-- **The handshake** of a client that the device knows: a device that names the digest algorithm
is refused. -/
theorem exchange_eq (malformed : List (BitVec 8) → String) (addr : Addr) (env env' : Env)
    (h : Admits sha1 svc c) (digestAlgorithm : Option String) :
    ∃ i s svc', Greeted c svc addr s ∧ svc'.sessions[i]? = some s ∧ s.user.isSome ∧
      svc'.session (s.id i).toNat = some i ∧
      exchange sha1 malformed c svc addr env env' digestAlgorithm =
        if digestAlgorithm.isSome then none
        else some (c.tuned svc (s.id i).toNat s.receiveTimeout.toNat, svc') := by
  obtain ⟨i, s, svc₁, hi, hhello, hs, hconfig, hgreeted⟩ :=
    dispatch_hello sha1 addr env c h.free
  have hi : i < 256 := by rw [h.slots] at hi; omega
  have hknown : Known sha1 c svc₁.users := by
    have husers : svc₁.users = svc.users := congrArg (·.2.1) hconfig
    rw [husers]
    exact h.known
  obtain ⟨c₁, hc₁⟩ : ∃ c₁ : Client, c₁ = { c with remoteId := (s.id i).toNat } := ⟨_, rfl⟩
  have hknown₁ : Known sha1 c₁ svc₁.users := by rw [hc₁]; exact hknown
  have hplain₁ : Plain c₁.user := by rw [hc₁]; exact h.plain
  obtain ⟨user, svc₂, hauth, hs₂⟩ := dispatch_auth addr env' h.length_sha1
    hplain₁ hknown₁ hi hs hgreeted.closed (by rw [hc₁])
  have hfirst : request sha1 malformed svc addr env c.hello = some (_, svc₁) :=
    request_eq c.toBytes_hello hhello (decode_challengeMsg malformed s hi)
  have hsecond : request sha1 malformed svc₁ addr env' (c₁.auth (c₁.digest sha1 s.nonce)) =
      some (_, svc₂) :=
    request_eq (Client.toBytes_auth hplain₁ (h.length_sha1 _)) hauth
      (decode_welcomeMsg malformed s svc₁)
  refine ⟨i, { s with lastReceiveTicks := env'.ticks, user := some user }, svc₂, ?_, hs₂, rfl,
    session_id hi hs₂ hgreeted.closed, ?_⟩
  · obtain ⟨hclosed, haddr, hremote, hmax, htimeout, hwindow⟩ := hgreeted
    exact ⟨hclosed, haddr, hremote, hmax, htimeout, hwindow⟩
  have hremoteId : max (-1) ((s.id i).toNat : ℤ) = (s.id i).toNat := by omega
  unfold exchange
  rw [hfirst]
  dsimp only [Option.bind_eq_bind, Option.bind_some, access]
  rw [if_neg (by decide), if_pos rfl, hremoteId, ← hc₁]
  cases digestAlgorithm with
  | some algorithm => rfl
  | none =>
    rw [c₁.authenticate_challenge s.nonce rfl rfl]
    dsimp only [Option.bind_some]
    rw [hsecond]
    dsimp only [Option.bind_some]
    have hmax : svc₁.idealMaxVal = svc.idealMaxVal := congrArg (·.2.2) hconfig
    have hreceive : svc₁.receiveMax = svc.receiveMax := congrArg (·.1) hconfig
    rw [if_pos rfl, Client.tune_welcome (by rw [hc₁]) (by rw [← hmax]) rfl
      (by rw [← hreceive]) rfl, hc₁]
    rfl

end

/-! ### Agreement -/

/-- The window of the device after a hello takes 31 numbers from that of the hello on. -/
theorem receive_init (w : ReceiveWindow) {num k : ℤ} (hnum : 0 ≤ num ∧ num ≤ 0xffff)
    (hk : 0 ≤ k ∧ k ≤ 31) :
    (Device.receive (Device.init w num) ((num + k) % 65536)).1 = true ↔ k < 31 := by
  have hwell : WellFormed (Device.init w num) :=
    { neg_one_le := by change -1 ≤ num - 1; omega
      le_max := by change num - 1 ≤ 0xffff; omega
      next_unmarked := by change (0x1#32).getLsbD 1 = false; decide }
  have hoffset : offset (Device.init w num) ((num + k) % 65536) = k + 1 := by
    change ((num + k) % 65536 - (num - 1)) % 65536 = k + 1
    omega
  have hreach : 32 ≤ reach Device.max (Device.init w num) := by
    unfold reach Device.max
    split <;> decide
  unfold Device.receive
  rw [receiveWith_eq hwell (by decide) (by omega), hoffset, if_neg (by omega)]
  by_cases hfirst : k + 1 = 1
  · rw [if_pos hfirst]
    exact ⟨fun _ => by omega, fun _ => rfl⟩
  rw [if_neg hfirst]
  change (if (0x1#32).getLsbD ((k + 1) % 32).toNat then _ else _ : Bool × ReceiveWindow).1 = true ↔ _
  by_cases hlast : k = 31
  · rw [hlast, if_pos (by decide)]
    exact ⟨fun h => (by cases h), fun h => absurd h (by decide)⟩
  · have hbit : (0x1#32).getLsbD ((k + 1) % 32).toNat = false := getLsbD_one_eq_false (by omega)
    rw [hbit, if_neg (by decide)]
    exact ⟨fun _ => by omega, fun _ => rfl⟩

section

variable {Addr : Type} {svc : SoxService Addr} {addr : Addr} {env env' : Env} {c : Client}
  {sha1 : List (BitVec 8) → List (BitVec 8)} {malformed : List (BitVec 8) → String}

/-- Both ends hold the minimum of the ideal maxima and the maximum of the timeouts, a header that is
absent meaning the default, and the device takes what the client may send. -/
structure Agree (svc : SoxService Addr) (c c' : Client) (s : SoxSession Addr) : Prop where
  idealMax : c'.idealMax = min (orDefault c.idealMax DaspConst.idealMaxDef) svc.idealMaxVal.toNat
  deviceIdealMax : (s.idealMax.toNat : ℤ) = c'.idealMax
  receiveTimeout : c'.receiveTimeout =
    max (orDefault c.receiveTimeout DaspConst.receiveTimeoutDef) 5000
  deviceReceiveTimeout : (s.receiveTimeout.toNat : ℤ) * 1000 = c'.receiveTimeout
  window (k : ℤ) (hk : 0 ≤ k) (hsize : k < c'.sendSize) :
    (Device.receive s.receiveWindow ((c.curSeqNum.toNat + k) % 65536)).1 = true

/-- The settings for which the ends agree. -/
structure Fits (svc : SoxService Addr) (c : Client) : Prop where
  idealMax : 512 ≤ svc.idealMaxVal.toNat ∧ svc.idealMaxVal.toNat ≤ c.idealMax
  receiveTimeout : c.receiveTimeout ≤ 5000 ∨
    c.receiveTimeout % 1000 = 0 ∧ c.receiveTimeout ≤ 65535000
  receiveMax : svc.receiveMax.toNat ≤ 31

theorem agree_iff {s : SoxSession Addr} (hs : Greeted c svc addr s) (remoteId : ℤ) :
    Agree svc c (c.tuned svc remoteId s.receiveTimeout.toNat) s ↔ Fits svc c := by
  have hd : (s.idealMax.toNat : ℤ) = max svc.idealMaxVal.toNat 512 := by
    rw [hs.idealMax, BitVec.toNat_ofInt]
    omega
  have ht : (s.receiveTimeout.toNat : ℤ) = max 5 c.timeout := by
    have hrange : 0 ≤ c.timeout ∧ c.timeout ≤ 0xffff := by
      unfold Client.timeout
      split <;> omega
    rw [hs.receiveTimeout, BitVec.toNat_ofInt]
    omega
  obtain ⟨w, hw⟩ := hs.receiveWindow
  have hseq : (0 : ℤ) ≤ c.curSeqNum.toNat ∧ (c.curSeqNum.toNat : ℤ) ≤ 0xffff := by omega
  have htuned : (c.tuned svc remoteId s.receiveTimeout.toNat).idealMax =
      min (svc.idealMaxVal.toNat : ℤ) c.idealMax := rfl
  have htunedTimeout : (c.tuned svc remoteId s.receiveTimeout.toNat).receiveTimeout =
      max ((s.receiveTimeout.toNat : ℤ) * 1000) c.receiveTimeout := rfl
  have hsize : (c.tuned svc remoteId s.receiveTimeout.toNat).sendSize = svc.receiveMax.toNat := rfl
  constructor
  · rintro ⟨-, hmax, -, htimeout, hwindow⟩
    rw [htuned, hd] at hmax
    rw [htunedTimeout, ht] at htimeout
    refine ⟨by omega, ?_, ?_⟩
    · unfold Client.timeout at htimeout
      split at htimeout <;> omega
    · by_contra hlarge
      have haccept := hwindow 31 (by decide) (by rw [hsize]; omega)
      rw [hw, receive_init w hseq (by decide)] at haccept
      exact absurd haccept (by decide)
  · rintro ⟨hmax, htimeout, hreceive⟩
    have hcTimeout : max 5 c.timeout * 1000 = max (orDefault c.receiveTimeout 30000) 5000 ∧
        c.receiveTimeout ≤ max 5 c.timeout * 1000 := by
      unfold Client.timeout orDefault
      split <;> split <;> omega
    refine ⟨?_, ?_, ?_, ?_, fun k hk hlt => ?_⟩
    · rw [htuned, orDefault_of_nonneg _ (by omega)]
      omega
    · rw [htuned, hd]
      omega
    · rw [htunedTimeout, ht]
      exact (max_eq_left hcTimeout.2).trans hcTimeout.1
    · rw [htunedTimeout, ht]
      exact (max_eq_left hcTimeout.2).symm
    · rw [hsize] at hlt
      rw [hw, receive_init w hseq (by omega)]
      omega

/-- The handshake completes, and both ends agree on what it tunes. -/
def Completes (sha1 : List (BitVec 8) → List (BitVec 8)) (malformed : List (BitVec 8) → String)
    [DecidableEq Addr] (c : Client) (svc : SoxService Addr) (addr : Addr) (env env' : Env)
    (digestAlgorithm : Option String) : Prop :=
  ∃ c' svc' i s, exchange sha1 malformed c svc addr env env' digestAlgorithm = some (c', svc') ∧
    svc'.session c'.remoteId = some i ∧ svc'.sessions[i]? = some s ∧ s.user.isSome ∧
    Agree svc c c' s

variable [DecidableEq Addr]

/-- **When the handshake tunes both ends alike**: the device takes the larger ideal maximum and
ignores that of the client, the client rejects a header that names the digest algorithm, a timeout is
sent in whole seconds, and the window of the device takes 31 numbers. -/
theorem completes_iff (h : Admits sha1 svc c) (digestAlgorithm : Option String) :
    Completes sha1 malformed c svc addr env env' digestAlgorithm ↔
      digestAlgorithm = none ∧ Fits svc c := by
  obtain ⟨i, s, svc', hgreeted, hs, huser, hsession, hexchange⟩ :=
    exchange_eq malformed addr env env' h digestAlgorithm
  constructor
  · rintro ⟨c', svc'', i', s', hexchange', hsession', hs', -, hagree⟩
    rw [hexchange] at hexchange'
    cases digestAlgorithm with
    | some algorithm => cases hexchange'
    | none =>
      obtain ⟨rfl, rfl⟩ := Prod.mk.inj (Option.some.inj hexchange')
      obtain rfl := Option.some.inj (hsession.symm.trans hsession')
      obtain rfl := Option.some.inj (hs.symm.trans hs')
      exact ⟨rfl, (agree_iff hgreeted _).mp hagree⟩
  · rintro ⟨rfl, hfits⟩
    exact ⟨_, svc', i, s, hexchange, hsession, hs, huser, (agree_iff hgreeted _).mpr hfits⟩

end

namespace TwoEnds

/-- A digest for the example: the length of the input. -/
def digest (bs : List (BitVec 8)) : List (BitVec 8) := List.replicate 20 (BitVec.ofNat 8 bs.length)

theorem length_digest (bs : List (BitVec 8)) : (digest bs).length = 20 := List.length_replicate

def env : Env where
  ticks := 0
  watchRand := 7
  seqRand := 100
  nonce := 42
  receiveWindow := Dasp.Device.fresh
  seqNum := 100

def slot : SoxSession ℕ where
  watched := false
  rand := 0
  closed := true
  addr := 0
  remoteId := 0
  idealMax := 0
  receiveTimeout := 0
  lastReceiveTicks := 0
  nonce := 0
  user := none
  receiveWindow := Dasp.Device.fresh
  seqNum := 0

def client (idealMax : ℤ) : Client where
  id := 5
  user := "admin"
  pass := "pw"
  idealMax
  absMax := 512
  receiveTimeout := 30000
  curSeqNum := 9

def service : SoxService ℕ where
  sessions := List.replicate 4 slot
  receiveMax := 8
  users := some [⟨utf8 "admin", digest (utf8 "admin:pw")⟩]
  idealMaxVal := 512
  platformId := []

theorem admits (idealMax : ℤ) : Admits digest service (client idealMax) where
  length_sha1 := length_digest
  plain := by change Plain "admin"; decide
  known := ⟨⟨utf8 "admin", digest (utf8 "admin:pw")⟩, rfl, rfl⟩
  slots := rfl
  free := ⟨slot, List.mem_replicate.mpr ⟨by decide, rfl⟩, rfl⟩

/-- With the defaults both ends agree. -/
theorem completes_default : Admits digest service (client 512) ∧
    Completes digest (fun _ => "") (client 512) service 1 env env none := by
  refine ⟨admits 512, (completes_iff (admits 512) none).mpr ⟨rfl, ?_⟩⟩
  exact ⟨⟨by decide, by decide⟩, .inr ⟨by decide, by decide⟩, by decide⟩

/-- **A client with an ideal maximum of 256**, the minimum of the two: it ends with 256, and the
device with 512. -/
theorem not_completes :
    Admits digest service (client 256) ∧
    (exchange digest (fun _ => "") (client 256) service 1 env env none).map
      (fun ends => (ends.1.idealMax, ends.2.sessions.map (·.idealMax))) =
        some (256, [512, 0, 0, 0]) ∧
    ¬ Completes digest (fun _ => "") (client 256) service 1 env env none := by
  have hrun : (exchange digest (fun _ => "") (client 256) service 1 env env none).map
      (fun ends => (ends.1.idealMax, ends.2.sessions.map (·.idealMax))) =
        some (256, [512, 0, 0, 0]) := by
    decide +kernel
  refine ⟨admits 256, hrun, ?_⟩
  rintro ⟨c', svc', i, s, hexchange, -, hs, -, hagree⟩
  rw [hexchange] at hrun
  obtain ⟨hmax, hmaxes⟩ := Prod.mk.inj (Option.some.inj hrun)
  have hmem : s.idealMax ∈ svc'.sessions.map (·.idealMax) :=
    List.mem_map_of_mem (List.mem_of_getElem? hs)
  rw [hmaxes] at hmem
  have hdevice := hagree.deviceIdealMax
  rw [hmax] at hdevice
  simp only [List.mem_cons, List.not_mem_nil, or_false] at hmem
  rcases hmem with h | h | h | h <;> rw [h] at hdevice <;> exact absurd hdevice (by decide)

end TwoEnds

end Sedona.Sox
