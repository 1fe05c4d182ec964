import Sedona.Dasp.AckHeaders
import Sedona.Sox.SoxSession

/-!
# The SOX Service with its Sessions

`sox::SoxService` with everything that a session has: its flags in the components, its windows, its
user and its file transfer. The functions are written over the state of the device, and fail where
the virtual machine would: on a null reference and on a division by zero.

What the commands do with the application and its files beside that is a parameter, `Platform`.
It gets the user of the session, and nothing else of a session.

The time and the random numbers of the device are streams, which every call of `Sys.ticks` and of
`Sys.rand` takes one number off. What is logged is left out.
-/

namespace Sedona.Sox.Slots

open Function OutStream

/-! ### Data -/

abbrev Bytes := List (BitVec 8)

/-- `Watch.max`. -/
def watchMax : ℕ := 4

/-- A component, as far as sessions have a part in it. -/
structure Component (Body : Type) where
  watchFlags : Fin watchMax → BitVec 8
  body : Body

/-- The application, and all that its components can reach. -/
structure App (Body World : Type) where
  comps : List (Option (Component Body))
  world : World

/-- A code of the protocol. -/
def code (c : Char) : BitVec 8 := BitVec.ofNat 8 c.toNat

/-- The commands that change the application and answer with no more than their success. -/
inductive Edit where
  | invoke | write | delete | rename | reorder | link | fileRename

/-- What the service calls, beside the windows and the transfer of the session. -/
structure Platform where
  Body : Type
  World : Type
  User : Type
  Addr : Type
  /-- A `FileStore`, and what it has for an open file. -/
  Store : Type
  Handle : Type
  /-- `SocketAddr.equals`. -/
  addrEquals : Addr → Addr → Bool
  /-- `UserService.lookupByName`, if there is a user service. -/
  lookupByName : App Body World → Str → Option User
  /-- Whether the type of the component is `User.type`. -/
  isUser : App Body World → User → Bool
  /-- `User.cred`. -/
  cred : App Body World → User → Bytes
  /-- `Crypto.sha1`. -/
  sha1 : Bytes → Bytes
  /-- `User.has`, for a component that there is. -/
  has : App Body World → User → ℕ → BitVec 32 → Bool
  /-- `User.canProv`. -/
  canProv : App Body World → User → Str → Bool
  /-- `SoxService.eventsPerSec`. -/
  eventsPerSec : App Body World → ℕ
  /-- `SoxService.receiveMax`. -/
  receiveMax : App Body World → BitVec 8
  /-- `PlatformService.platformId`. -/
  platformId : App Body World → Str
  /-- What `readPropRes` sends behind the header, or its error. -/
  readPropRes : App Body World → Option User → BitVec 16 → BitVec 16 → Option (Except Str Bytes)
  /-- What `writeComp` writes of a component that there is. -/
  writeComp : App Body World → Option User → ℕ → BitVec 16 → Option Bytes
  /-- What `queryRes` sends behind the header, or its error. -/
  queryRes : App Body World → BitVec 16 → BitVec 16 → Except Str Bytes
  /-- What `versionRes` sends behind the header. -/
  versionRes : App Body World → Bytes
  /-- What `versionMoreRes` sends behind the header. -/
  versionMoreRes : App Body World → Bytes
  /-- The handler of a command that edits: its error, the application, and the bytes of the packet,
  which `invokeReq` reuses. -/
  edit : Edit → Option User → BufInStream → App Body World →
    Option (Except Str Unit × App Body World × (ℕ → BitVec 8))
  /-- `addReq`: the id of the component, or the error. -/
  addReq : Option User → BufInStream → App Body World →
    Option (Except Str (BitVec 16) × App Body World)
  /-- `PlatformService.notify` of `sox.put`. -/
  notify : Char → App Body World → App Body World
  /-- `File.size`, by the name of the file. -/
  fileSize : App Body World → Str → BitVec 32
  /-- `File.toStore`. -/
  toStore : App Body World → Str → Store
  /-- `FileStore.open`: the handle, or null. -/
  doOpen : Store → Str → Str → App Body World → Option Handle × App Body World
  /-- `FileStore.close` of a file that is open. -/
  doClose : Store → Handle → App Body World → App Body World
  /-- `File.seek`. -/
  doSeek : Store → Option Handle → BitVec 32 → App Body World → App Body World
  /-- `FileStore.readBytes`: the bytes that are read, at most so many. -/
  doReadBytes : Store → Option Handle → ℕ → App Body World → Bytes × App Body World
  /-- `FileStore.writeBytes`. -/
  doWriteBytes : Store → Option Handle → Bytes → App Body World → App Body World

variable (P : Platform)

/-- The application of the device. -/
abbrev Platform.App := Slots.App P.Body P.World

/-- `sys::File`. The buffer of its output stream is left out: only writes of single bytes fill it,
and the service writes chunks. -/
structure File where
  name : Option Str
  store : P.Store
  fp : Option P.Handle

/-- `FileTransfer.mode`. -/
inductive TransferMode where
  | unused | get | put
deriving DecidableEq

/-- `FileTransfer`. -/
structure FileTransfer where
  mode : TransferMode
  file : File P
  fileSize : BitVec 32
  offset : BitVec 32
  numChunks : BitVec 16
  chunkSize : BitVec 16
  nextChunk : BitVec 16

/-- `SendPacket`. -/
structure SendPacket extends Dasp.SendPacket where
  replyNum : BitVec 8
  refData : Str
  u2Data1 : BitVec 16
  u2Data2 : BitVec 16

/-- `SendWindow.max`. -/
abbrev sendMax : ℕ := 8

/-- `SendWindow`. -/
structure SendWindow where
  seqNum : BitVec 16
  numUnacked : BitVec 8
  packets : Fin sendMax → SendPacket

/-- `SoxSession`. -/
structure SoxSession where
  /-- Whether `App.watches` holds the session. -/
  watched : Bool
  rand : BitVec 8
  closed : Bool
  addr : P.Addr
  remoteId : BitVec 16
  idealMax : BitVec 16
  /-- In seconds. -/
  receiveTimeout : BitVec 16
  lastReceiveTicks : ℤ
  lastSendTicks : ℤ
  allTreeEvents : Bool
  nonce : BitVec 64
  user : Option P.User
  receiveWindow : Dasp.ReceiveWindow
  sendWindow : SendWindow
  transfer : FileTransfer P

/-- What the device has beside the sessions. -/
structure Shared where
  app : P.App
  /-- The bytes of `SoxService.packet`, and what lies behind them. -/
  packet : ℕ → BitVec 8
  /-- What has been written to the packet since it was cleared. -/
  out : Bytes
  /-- The values that `Sys.ticks` will have. -/
  ticks : ℕ → ℤ
  /-- The values that `Sys.rand` will have. -/
  rands : ℕ → BitVec 32
  lastHouseKeeping : ℤ
  lastCompId : BitVec 16
  periodEnd : ℤ
  numEventsThisPeriod : BitVec 16
  /-- The packets that have been sent, and where to. -/
  sent : List (P.Addr × Bytes)

/-- The device. -/
structure Device where
  shared : Shared P
  sessions : Fin watchMax → SoxSession P

/-! ### Access -/

/-- A function of the device. -/
abbrev M := StateT (Device P) Option

variable {P} {α : Type}

/-- A function that no session has a part in. -/
def onShared (x : StateT (Shared P) Option α) : M P α := fun d =>
  (x d.shared).map fun (a, shared) => (a, { d with shared })

/-- The value of a field that the sessions share. -/
def shared (f : Shared P → α) : M P α := onShared fun sh => some (f sh, sh)

/-- An assignment to fields that the sessions share. -/
def assignShared (f : Shared P → Shared P) : M P Unit := onShared fun sh => some ((), f sh)

/-- The value of a field of a session. -/
def field (j : Fin watchMax) (f : SoxSession P → α) : M P α := fun d => some (f (d.sessions j), d)

/-- An assignment to fields of a session. -/
def assign (j : Fin watchMax) (f : SoxSession P → SoxSession P) : M P Unit := fun d =>
  some ((), { d with sessions := update d.sessions j (f (d.sessions j)) })

/-- The object that a reference refers to. -/
def need : Option α → M P α
  | none => failure
  | some a => pure a

/-- `Sys.ticks`. -/
def ticks : M P ℤ :=
  onShared fun sh => some (sh.ticks 0, { sh with ticks := fun n => sh.ticks (n + 1) })

/-- `Sys.rand`. -/
def rand : M P (BitVec 32) :=
  onShared fun sh => some (sh.rands 0, { sh with rands := fun n => sh.rands (n + 1) })

/-- A change of the application. -/
def changeApp (f : P.App → P.App) : M P Unit := assignShared fun sh => { sh with app := f sh.app }

/-- `App.lookup`. -/
def App.lookup {Body World : Type} (app : App Body World) (id : ℤ) : Option (Component Body) :=
  if id < 0 then none else (app.comps[id.toNat]?).join

/-- An assignment to the flags that a component has for a session. -/
def App.modifyFlags {Body World : Type} (app : App Body World) (id : ℕ) (j : Fin watchMax)
    (f : BitVec 8 → BitVec 8) : App Body World :=
  { app with
    comps := app.comps.modify id fun c? => c?.map fun c =>
      { c with watchFlags := update c.watchFlags j (f (c.watchFlags j)) } }

/-- The loop of `App.openWatch` that clears the flags of all components. -/
def App.clearFlags {Body World : Type} (app : App Body World) (j : Fin watchMax) :
    App Body World :=
  { app with
    comps := app.comps.map fun c? => c?.map fun c =>
      { c with watchFlags := update c.watchFlags j 0 } }

/-! ### Packets -/

/-- `Buf.clear` of the packet: the bytes stay. -/
def clear : M P Unit := assignShared fun sh =>
  { sh with packet := fun n => sh.out.getD n (sh.packet n), out := [] }

/-- Writes of `SoxService.out`. -/
def emit (bs : Bytes) : M P Unit := assignShared fun sh => { sh with out := sh.out ++ bs }

/-- The size of `SoxService.packet`. -/
def packetSize : ℕ := 512

/-- `SoxService.send`. -/
def sendPacket (j : Fin watchMax) : M P Unit := do
  let now ← ticks
  assign j fun s => { s with lastSendTicks := now }
  let addr ← field j (·.addr)
  assignShared fun sh => { sh with sent := sh.sent ++ [(addr, sh.out.take packetSize)] }

/-- `SoxSession.prepare`, with the number of headers that follow. -/
def prepare (j : Fin watchMax) (msgType seqNum : BitVec 32) (headers : BitVec 8) : M P Unit := do
  clear
  let remoteId ← field j (·.remoteId)
  emit (writeI2 (remoteId.setWidth 32) ++ writeI2 seqNum ++
    [(msgType <<< 4).setWidth 8 ||| headers])

/-- `ReceiveWindow.setAckHeaders`: the headers, and how many. -/
def setAckHeaders (j : Fin watchMax) : M P (Bytes × ℕ) := do
  let acked ← field j (·.receiveWindow.acked)
  if acked then pure ([], 0)
  else
    let w ← field j (·.receiveWindow)
    assign j fun s => { s with receiveWindow := { s.receiveWindow with acked := true } }
    pure (Dasp.Device.writeAckHeaders w)

/-- `SoxSession.keepAlive`. -/
def keepAlive (j : Fin watchMax) : M P Unit := do
  assign j fun s => { s with receiveWindow := { s.receiveWindow with acked := false } }
  let (headers, n) ← setAckHeaders j
  prepare j 5 0xffff (BitVec.ofNat 8 n)
  emit headers
  sendPacket j

/-! ### Slots -/

/-- `File.close`. -/
def closeFile (j : Fin watchMax) : M P Unit := do
  let fp ← field j (·.transfer.file.fp)
  match fp with
  | none => pure ()
  | some fp =>
      let store ← field j (·.transfer.file.store)
      changeApp (P.doClose store fp)
      assign j fun s =>
        { s with transfer := { s.transfer with file := { s.transfer.file with fp := none } } }

/-- `FileTransfer.reset`. -/
def resetTransfer (j : Fin watchMax) : M P Unit := do
  closeFile j
  assign j fun s => { s with transfer := { s.transfer with mode := .unused } }

/-- `SendWindow.reset`. -/
def SendWindow.reset (w : SendWindow) (rand : BitVec 32) : SendWindow :=
  { seqNum := rand.setWidth 16
    numUnacked := 0
    packets := fun k => { w.packets k with age := 0 } }

/-- `SoxSession.reset`. -/
def reset (j : Fin watchMax) : M P Unit := do
  let now ← ticks
  assign j fun s =>
    { s with
      lastReceiveTicks := now
      lastSendTicks := now
      receiveTimeout := 2
      receiveWindow := { s.receiveWindow with seqNum := -1 } }
  let seqRand ← rand
  assign j fun s => { s with sendWindow := s.sendWindow.reset seqRand }
  resetTransfer j
  assign j fun s => { s with user := none }

/-- The loop of `App.openWatch` over the slots. -/
def freeSlot (d : Device P) : Option (Fin watchMax) :=
  (List.finRange watchMax).find? fun j => !(d.sessions j).watched

/-- `App.openWatch`, of the first slot that is free. -/
def openWatch (j : Fin watchMax) : M P Unit := do
  let watchRand ← rand
  assign j fun s =>
    { s with
      watched := true
      closed := false
      rand := if s.rand = watchRand.setWidth 8 then watchRand.setWidth 8 + 1
        else watchRand.setWidth 8 }
  changeApp (·.clearFlags j)

/-- `SoxService.openSession`. -/
def openSession (addr : P.Addr) : M P (Option (Fin watchMax)) := do
  let slot ← fun d => some (freeSlot d, d)
  match slot with
  | none => pure none
  | some j =>
      openWatch j
      reset j
      assign j fun s => { s with addr }
      pure (some j)

/-- `SoxService.closeSession`. -/
def closeSession (j : Fin watchMax) : M P Unit := do
  assign j fun s => { s with closed := true, watched := false }
  resetTransfer j

/-- `SoxSession.close`. -/
def close (j : Fin watchMax) (errorCode : BitVec 32) : M P Unit := do
  prepare j 7 0xffff 1
  emit (write (0x0d#32 <<< 2 ||| 1) ++ writeI2 errorCode)
  sendPacket j
  closeSession j

/-- `Watch.id`. -/
def watchId (j : Fin watchMax) (rand : BitVec 8) : BitVec 32 :=
  rand.setWidth 32 <<< 8 ||| BitVec.ofNat 32 j

/-! ### The handshake -/

/-- The loop of `challenge` that closes another session of the same client. -/
def closeDup (j : Fin watchMax) : List (Fin watchMax) → M P Unit
  | [] => pure ()
  | l :: ls => do
      let theirId ← field l (·.remoteId)
      let ourId ← field j (·.remoteId)
      let theirAddr ← field l (·.addr)
      let ourAddr ← field j (·.addr)
      if l ≠ j ∧ theirId = ourId ∧ P.addrEquals theirAddr ourAddr then closeSession l
      else closeDup j ls

/-- `Dasp.IDEAL_MAX_VAL`. -/
def idealMaxVal : ℤ := 512

/-- `SoxSession.challenge`. -/
def challenge (j : Fin watchMax) (numFields : ℕ) (input : BufInStream) : M P Unit := do
  -- the tuned size is overwritten below whatever the message says
  let h := ((parseHello numFields { idealMax := 0 }).run input).1
  assign j fun s =>
    { s with
      remoteId := BitVec.ofInt 16 h.remoteId
      idealMax := BitVec.ofInt 16 (max idealMaxVal h.remoteIdealMax)
      receiveTimeout := BitVec.ofInt 16 (max 5 h.remoteTimeout) }
  if h.version ≠ 0x0100 then close j 0xe1
  else
    closeDup j (List.finRange watchMax)
    let high ← rand
    let low ← rand
    let nonce := high.signExtend 64 <<< 32 ||| low.signExtend 64
    assign j fun s => { s with nonce }
    let seqNum ← field j (·.sendWindow.seqNum)
    prepare j 2 (seqNum.setWidth 32) 2
    let rand ← field j (·.rand)
    emit (write (0x02#32 <<< 2 ||| 1) ++ writeI2 (watchId j rand) ++
      (write (0x04#32 <<< 2 ||| 3) ++ write 8 ++ writeI8 nonce))
    sendPacket j

/-- `SoxSession.authenticate`. -/
def authenticate (j : Fin watchMax) (username : Str) (digest : Bytes) : M P Bool := do
  let app ← shared (·.app)
  assign j fun s => { s with user := P.lookupByName app username }
  match P.lookupByName app username with
  | none => pure false
  | some user =>
      if !P.isUser app user then pure false
      else
        let nonce ← field j (·.nonce)
        pure (P.sha1 (P.cred app user ++ writeI8 nonce) = digest)

/-- `SoxSession.welcome`. -/
def welcome (j : Fin watchMax) (numFields : ℕ) (input : BufInStream) : M P Unit := do
  let a := ((parseAuthenticate numFields {}).run input).1
  match a.username with
  | none => pure ()
  | some username =>
      if a.digestLen ≠ 20 then pure ()
      else
        let ok ← authenticate j username
          ((List.range 20).map fun n => input.bytes (a.digestOff + n))
        if !ok then close j 0xe4
        else
          let seqNum ← field j (·.sendWindow.seqNum)
          prepare j 4 (seqNum.setWidth 32) 3
          let receiveMax ← shared fun sh => P.receiveMax sh.app
          let receiveTimeout ← field j (·.receiveTimeout)
          emit (write (0x07#32 <<< 2 ||| 1) ++ writeI2 (BitVec.ofInt 32 idealMaxVal) ++
            (write (0x0b#32 <<< 2 ||| 1) ++ writeI2 (receiveMax.setWidth 32)) ++
            (write (0x0c#32 <<< 2 ||| 1) ++ writeI2 (receiveTimeout.setWidth 32)))
          sendPacket j

/-- `SoxSession.discoverResponse`. -/
def discoverResponse (j : Fin watchMax) : M P Unit := do
  prepare j 0 0xffff 1
  let platformId ← shared fun sh => P.platformId sh.app
  emit (write (0x0e#32 <<< 2 ||| 2) ++ writeStr platformId)
  sendPacket j

end Sedona.Sox.Slots
