import Sedona.Dasp.ReceiveWindow
import Sedona.Library.Transition
import Sedona.Dasp.DeviceSendWindow
import Sedona.Sys.Stream

/-!
# Sessions of the SOX Service

`sox::SoxService` and `sox::SoxSession` as far as sessions are opened, authenticated and closed:
the slots of the service, the handshake, and the dispatch of a packet from any address. What a
packet that is not a control message does to the windows of its session is left open.
-/

namespace Sedona.Sox

open OutStream

/-! ### Data -/

/-- `User`. -/
structure User where
  name : Str
  cred : List (BitVec 8)

/-- `SoxSession`. -/
structure SoxSession (Addr : Type) where
  /-- Whether `App.watches` holds the session. -/
  watched : Bool
  rand : BitVec 8
  closed : Bool
  addr : Addr
  remoteId : BitVec 16
  idealMax : BitVec 16
  /-- In seconds. -/
  receiveTimeout : BitVec 16
  lastReceiveTicks : ℤ
  nonce : BitVec 64
  user : Option User
  receiveWindow : Dasp.ReceiveWindow
  /-- The sequence number of the send window. -/
  seqNum : BitVec 16

/-- `SoxService`. -/
structure SoxService (Addr : Type) where
  sessions : List (SoxSession Addr)
  receiveMax : BitVec 8
  /-- The users, if there is a user service. -/
  users : Option (List User)
  /-- `Dasp.IDEAL_MAX_VAL`. -/
  idealMaxVal : BitVec 16
  platformId : Str

/-- What a step gets from outside: the time, the random numbers, and the windows that are left by a
packet that is not a control message. -/
structure Env where
  ticks : ℤ
  watchRand : BitVec 8
  seqRand : BitVec 16
  nonce : BitVec 64
  receiveWindow : Dasp.ReceiveWindow
  seqNum : BitVec 16

variable {Addr : Type} [DecidableEq Addr]

/-- `SoxSession.reset`. -/
def SoxSession.reset (s : SoxSession Addr) (env : Env) : SoxSession Addr :=
  { s with
    lastReceiveTicks := env.ticks
    receiveTimeout := 2
    receiveWindow := { s.receiveWindow with seqNum := -1 }
    seqNum := env.seqRand
    user := none }

namespace SoxService

/-- An assignment to fields of the session in a slot. -/
def modify (svc : SoxService Addr) (i : ℕ) (f : SoxSession Addr → SoxSession Addr) :
    SoxService Addr :=
  { svc with sessions := svc.sessions.modify i f }

/-- `App.openWatch`. -/
def openWatch (svc : SoxService Addr) (env : Env) : Option (ℕ × SoxService Addr) :=
  (svc.sessions.findIdx? fun s => !s.watched).map fun i =>
    (i, svc.modify i fun s =>
      { s with
        watched := true
        closed := false
        rand := if s.rand = env.watchRand then env.watchRand + 1 else env.watchRand })

/-- `SoxService.openSession`. -/
def openSession (svc : SoxService Addr) (addr : Addr) (env : Env) :
    Option (ℕ × SoxService Addr) :=
  (svc.openWatch env).map fun (i, svc) => (i, svc.modify i fun s => { s.reset env with addr })

/-- `SoxService.closeSession`. -/
def closeSession (svc : SoxService Addr) (i : ℕ) : SoxService Addr :=
  svc.modify i fun s => { s with closed := true, watched := false }

end SoxService

/-- `Watch.id`. -/
def SoxSession.id (s : SoxSession Addr) (i : ℕ) : BitVec 32 :=
  s.rand.setWidth 32 <<< 8 ||| BitVec.ofNat 32 i

/-! ### Messages -/

/-- `SoxSession.prepare` with the headers that follow, and how many. -/
def SoxSession.message (s : SoxSession Addr) (msgType seqNum : BitVec 32) (headers : BitVec 8)
    (body : List (BitVec 8)) : List (BitVec 8) :=
  writeI2 (s.remoteId.setWidth 32) ++ writeI2 seqNum ++ [(msgType <<< 4).setWidth 8 ||| headers] ++
    body

/-- The fields of a hello: the locals of `challenge`, and the field that it parses into. -/
structure Hello where
  version : ℤ := -1
  remoteId : ℤ := -1
  remoteIdealMax : ℤ := 512
  remoteTimeout : ℤ := 30
  idealMax : BitVec 16

/-- The loop of `challenge` over the header fields. -/
def parseHello : ℕ → Hello → StateM BufInStream Hello
  | 0, h => pure h
  | n + 1, h => do
      let headerId ← BufInStream.read
      let typeId := headerId % 4
      if headerId / 4 = 0x01 then
        let version ← BufInStream.readU2
        parseHello n { h with version }
      else if headerId / 4 = 0x02 then
        let remoteId ← BufInStream.readU2
        parseHello n { h with remoteId }
      else if headerId / 4 = 0x07 then
        let idealMax ← BufInStream.readU2
        parseHello n { h with idealMax := BitVec.ofInt 16 idealMax }
      else if headerId / 4 = 0x0c then
        let remoteTimeout ← BufInStream.readU2
        parseHello n { h with remoteTimeout }
      else
        Dasp.DeviceSendWindow.skipHeader typeId
        parseHello n h

/-- The fields of an authenticate message. -/
structure Authenticate where
  username : Option Str := none
  digestLen : ℤ := 0
  digestOff : ℕ := 0

/-- `BufInStream.readStrInPlace`: the bytes up to the zero, unless it lies behind the end. -/
def readStrInPlace : ℕ → StateM BufInStream (Option Str)
  | 0 => pure none
  | n + 1 => do
      let s ← get
      let c := s.bytes s.pos
      set { s with pos := s.pos + 1 }
      if c = 0 then pure (some [])
      else if s.size ≤ s.pos + 1 then pure none
      else
        let str ← readStrInPlace n
        pure (str.map (c :: ·))

/-- The loop of `welcome` over the header fields. -/
def parseAuthenticate : ℕ → Authenticate → StateM BufInStream Authenticate
  | 0, a => pure a
  | n + 1, a => do
      let headerId ← BufInStream.read
      let typeId := headerId % 4
      if headerId / 4 = 0x06 then
        let digestLen ← BufInStream.read
        let s ← get
        BufInStream.skip digestLen
        parseAuthenticate n { a with digestLen, digestOff := s.pos }
      else if headerId / 4 = 0x05 then
        let s ← get
        let username ← readStrInPlace (s.size - s.pos + 1)
        parseAuthenticate n { a with username }
      else
        Dasp.DeviceSendWindow.skipHeader typeId
        parseAuthenticate n a

namespace SoxService

variable (sha1 : List (BitVec 8) → List (BitVec 8))

/-- `SoxSession.close`: the close message, and the service. -/
def close (svc : SoxService Addr) (i : ℕ) (s : SoxSession Addr) (errorCode : BitVec 32) :
    List (BitVec 8) × SoxService Addr :=
  (s.message 7 0xffff 1 (write (0x0d#32 <<< 2 ||| 1) ++ writeI2 errorCode), svc.closeSession i)

/-- Closes the first other session, open or not, with the address and the id of the session. -/
def closeDup (svc : SoxService Addr) (i : ℕ) (s : SoxSession Addr) : SoxService Addr :=
  match (svc.sessions.zipIdx).find? fun (t, j) =>
      decide (j ≠ i ∧ t.remoteId = s.remoteId ∧ t.addr = s.addr) with
  | some (_, j) => svc.closeSession j
  | none => svc

/-- `SoxSession.challenge`. -/
def challenge (svc : SoxService Addr) (i numFields : ℕ) (input : BufInStream) (env : Env) :
    List (BitVec 8) × SoxService Addr :=
  match svc.sessions[i]? with
  | none => ([], svc)
  | some s =>
      let (h, _) := (parseHello numFields { idealMax := s.idealMax }).run input
      let s :=
        { s with
          remoteId := BitVec.ofInt 16 h.remoteId
          idealMax := BitVec.ofInt 16 (max svc.idealMaxVal.toNat h.remoteIdealMax)
          receiveTimeout := BitVec.ofInt 16 (max 5 h.remoteTimeout) }
      let svc := svc.modify i fun _ => s
      if h.version ≠ 0x0100 then svc.close i s 0xe1
      else
        let svc := (svc.closeDup i s).modify i fun s => { s with nonce := env.nonce }
        (s.message 2 (s.seqNum.setWidth 32) 2
          (write (0x02#32 <<< 2 ||| 1) ++ writeI2 (s.id i) ++
            (write (0x04#32 <<< 2 ||| 3) ++ write 8 ++ writeI8 env.nonce)), svc)

/-- `SoxSession.authenticate`: the user, and whether the digest is that of its credentials. -/
def authenticate (svc : SoxService Addr) (nonce : BitVec 64) (username : Str)
    (digest : List (BitVec 8)) : Option User × Bool :=
  match svc.users.bind fun users => users.find? (·.name = username) with
  | none => (none, false)
  | some user => (some user, sha1 (user.cred ++ writeI8 nonce) = digest)

/-- `SoxSession.welcome`. -/
def welcome (svc : SoxService Addr) (i numFields : ℕ) (input : BufInStream) :
    List (BitVec 8) × SoxService Addr :=
  match svc.sessions[i]? with
  | none => ([], svc)
  | some s =>
      let (a, _) := (parseAuthenticate numFields {}).run input
      match a.username with
      | none => ([], svc)
      | some username =>
          if a.digestLen ≠ 20 then ([], svc)
          else
            let digest := (List.range 20).map fun k => input.bytes (a.digestOff + k)
            let (user, ok) := svc.authenticate sha1 s.nonce username digest
            let svc := svc.modify i fun s => { s with user }
            if !ok then svc.close i s 0xe4
            else
              (s.message 4 (s.seqNum.setWidth 32) 3
                (write (0x07#32 <<< 2 ||| 1) ++ writeI2 (svc.idealMaxVal.setWidth 32) ++
                  (write (0x0b#32 <<< 2 ||| 1) ++ writeI2 (svc.receiveMax.setWidth 32)) ++
                  (write (0x0c#32 <<< 2 ||| 1) ++ writeI2 (s.receiveTimeout.setWidth 32))), svc)

/-- `SoxSession.discoverResponse`. -/
def discoverResponse (svc : SoxService Addr) (s : SoxSession Addr) : List (BitVec 8) :=
  s.message 0 0xffff 1 (write (0x0e#32 <<< 2 ||| 2) ++ writeStr svc.platformId)

/-! ### Packets -/

/-- `SoxService.session`: the slot of an open session with the id. -/
def session (svc : SoxService Addr) (sessionId : ℤ) : Option ℕ :=
  let i := (sessionId % 256).toNat
  match svc.sessions[i]? with
  | none => none
  | some s => if (s.id i).toNat = sessionId ∧ !s.closed then some i else none

/-- The standard header of a packet. -/
def parseHeader : StateM BufInStream (ℤ × ℤ × ℤ) := do
  let sessionId ← BufInStream.readU2
  let seqNum ← BufInStream.readU2
  let msgType ← BufInStream.read
  pure (sessionId, seqNum, msgType)

/-- `SoxService.dispatch`: the reply, and the service. -/
def dispatch (svc : SoxService Addr) (addr : Addr) (packet : BufInStream) (env : Env) :
    List (BitVec 8) × SoxService Addr :=
  let ((sessionId, seqNum, msgType), input) := parseHeader.run packet
  let numFields := (msgType % 16).toNat
  let msgType := msgType / 16 % 16
  let found :=
    if msgType = 1 ∨ msgType = 0 then svc.openSession addr env
    else (svc.session sessionId).map (·, svc)
  match found with
  | none => ([], svc)
  | some (i, svc) =>
      let svc := svc.modify i fun s => { s with lastReceiveTicks := env.ticks }
      if msgType = 1 then
        let (reply, svc) := svc.challenge i numFields input env
        (reply, svc.modify i fun s =>
          { s with receiveWindow := Dasp.Device.init s.receiveWindow seqNum })
      else if msgType = 3 then svc.welcome sha1 i numFields input
      else if msgType = 7 then ([], svc.closeSession i)
      else if msgType = 0 then
        ((svc.sessions[i]?).elim [] svc.discoverResponse, svc.closeSession i)
      else
        ([], svc.modify i fun s =>
          { s with receiveWindow := env.receiveWindow, seqNum := env.seqNum })

/-- `SoxService.houseKeeping`, of sessions that have timed out. -/
def houseKeeping (svc : SoxService Addr) (now : ℤ) : SoxService Addr :=
  { svc with
    sessions := svc.sessions.map fun s =>
      if !s.closed ∧ (s.receiveTimeout.toNat : ℤ) * 1000000000 < now - s.lastReceiveTicks then
        { s with closed := true, watched := false }
      else s }

end SoxService

/-! ### Runs -/

/-- A packet from any address, or the time. -/
inductive Event (Addr : Type) where
  | receive (addr : Addr) (packet : BufInStream) (env : Env)
  | houseKeeping (now : ℤ)

def SoxService.next (sha1 : List (BitVec 8) → List (BitVec 8)) (svc : SoxService Addr) :
    Event Addr → SoxService Addr
  | .receive addr packet env => (svc.dispatch sha1 addr packet env).2
  | .houseKeeping now => svc.houseKeeping now

open Transition in
/-- The service from its start on, where all sessions are closed. -/
def sessionSystem (sha1 : List (BitVec 8) → List (BitVec 8)) :
    System (SoxService Addr) (Event Addr) where
  init svc := svc.sessions.length = 4 ∧ ∀ s ∈ svc.sessions, s.closed ∧ !s.watched
  step svc e svc' := svc' = svc.next sha1 e

end Sedona.Sox
