import Sedona.Sox.SoxDevice

/-!
# The Commands and the Work of the SOX Service

`sox::SoxCommands` from a request to its response, `sox::FileTransfer`, and a call of
`SoxService.work` with the packet it receives. A packet of the send window is named by the session
and its index there. A call with the port closed does nothing and is left out.
-/

namespace Sedona.Sox.Slots

open Function OutStream BufInStream

variable {P : Platform} {α : Type}

/-! ### The send window -/

/-- An assignment to fields of a packet. -/
def SendWindow.modify (w : SendWindow) (k : Fin sendMax) (f : SendPacket → SendPacket) :
    SendWindow :=
  { w with packets := update w.packets k (f (w.packets k)) }

/-- The first packet that is free. -/
def SendWindow.firstFree (w : SendWindow) : Option (Fin sendMax) :=
  (List.finRange sendMax).find? fun k => (w.packets k).age = 0

/-- What `nextPacket` does with the packet it finds. -/
def SendWindow.take (w : SendWindow) (k : Fin sendMax) : SendWindow :=
  { w.modify k (fun p => { p with cmd := code '?', age := 1, seqNum := w.seqNum }) with
    seqNum := w.seqNum + 1
    numUnacked := w.numUnacked + 1 }

/-- `SendWindow.checkAckHeaders`: the window after it. -/
def SendWindow.acknowledge (w : SendWindow) (input : BufInStream) (numFields : ℕ) : SendWindow :=
  let acked := Dasp.DeviceSendWindow.acks input numFields
  { w with
    numUnacked := w.numUnacked - BitVec.ofNat 8 ((List.finRange sendMax).countP fun k =>
      (w.packets k).age ≠ 0 ∧ acked (w.packets k).seqNum.toNat)
    packets := fun k =>
      { w.packets k with
        toSendPacket := Dasp.DeviceSendWindow.free acked (w.packets k).toSendPacket } }

/-- `SendWindow.nextPacket`. -/
def nextPacket (j : Fin watchMax) : M P (Option (Fin sendMax)) := do
  let free ← field j (·.sendWindow.firstFree)
  match free with
  | none => pure none
  | some k =>
      assign j fun s => { s with sendWindow := s.sendWindow.take k }
      pure (some k)

/-- The value of a field of a packet. -/
def packetField (j : Fin watchMax) (k : Fin sendMax) (f : SendPacket → α) : M P α :=
  field j fun s => f (s.sendWindow.packets k)

/-- An assignment to fields of a packet. -/
def assignPacket (j : Fin watchMax) (k : Fin sendMax) (f : SendPacket → SendPacket) : M P Unit :=
  assign j fun s => { s with sendWindow := s.sendWindow.modify k f }

/-- `SendPacket.error`. -/
def error (j : Fin watchMax) (k : Fin sendMax) (cause : Str) : M P Unit :=
  assignPacket j k fun p => { p with cmd := code '!', refData := cause }

/-- The bytes of a text. -/
def text (s : String) : Str := s.toList.map code

/-! ### Responses -/

/-- `SoxCommands.prepareRes`. -/
def prepareRes (j : Fin watchMax) (k : Fin sendMax) : M P Unit := do
  let (headers, n) ← setAckHeaders j
  let seqNum ← packetField j k (·.seqNum)
  prepare j 6 (seqNum.setWidth 32) (BitVec.ofNat 8 n)
  emit headers
  let cmd ← packetField j k (·.cmd)
  let replyNum ← packetField j k (·.replyNum)
  emit [cmd, replyNum]

/-- A response that is a payload behind the header, or an error. -/
def respond (j : Fin watchMax) (k : Fin sendMax) : Except Str Bytes → M P Unit
  | .error cause => error j k cause
  | .ok payload => do
      prepareRes j k
      emit payload

/-- `SoxCommands.errorRes`. -/
def errorRes (j : Fin watchMax) (k : Fin sendMax) : M P Unit := do
  prepareRes j k
  let refData ← packetField j k (·.refData)
  emit (writeStr refData)

/-- `SoxCommands.readPropRes`. -/
def readPropRes (j : Fin watchMax) (k : Fin sendMax) : M P Unit := do
  let app ← shared (·.app)
  let user ← field j (·.user)
  let compId ← packetField j k (·.u2Data1)
  let propId ← packetField j k (·.u2Data2)
  let res ← need (P.readPropRes app user compId propId)
  respond j k res

/-- `User.or`. -/
def operatorRead : BitVec 32 := 0x01

/-- `SoxCommands.readCompRes`. -/
def readCompRes (j : Fin watchMax) (k : Fin sendMax) : M P Unit := do
  let app ← shared (·.app)
  let compId ← packetField j k (·.u2Data1)
  match app.lookup compId.toNat with
  | none => error j k (text "bad compId")
  | some _ =>
      let user ← field j (·.user)
      let who ← need user
      if !P.has app who compId.toNat operatorRead then error j k (text "denied")
      else
        prepareRes j k
        emit (writeI2 (compId.setWidth 32))
        let what ← packetField j k (·.u2Data2)
        let payload ← need (P.writeComp app user compId.toNat what)
        emit payload

/-- `SoxCommands.subscribeRes`. -/
def subscribeRes (j : Fin watchMax) (k : Fin sendMax) : M P Unit := do
  prepareRes j k
  let numSubscribed ← packetField j k (·.u2Data1)
  emit (write (numSubscribed.setWidth 32))

/-- `SoxCommands.addRes`. -/
def addRes (j : Fin watchMax) (k : Fin sendMax) : M P Unit := do
  prepareRes j k
  let compId ← packetField j k (·.u2Data1)
  emit (writeI2 (compId.setWidth 32))

/-- `SoxCommands.versionRes` and `SoxCommands.versionMoreRes`. -/
def versionRes (j : Fin watchMax) (k : Fin sendMax) (payload : P.App → Bytes) : M P Unit := do
  prepareRes j k
  let app ← shared (·.app)
  emit (payload app)

/-- `SoxCommands.queryRes`. -/
def queryRes (j : Fin watchMax) (k : Fin sendMax) : M P Unit := do
  let app ← shared (·.app)
  let kitId ← packetField j k (·.u2Data1)
  let typeId ← packetField j k (·.u2Data2)
  respond j k (P.queryRes app kitId typeId)

/-- `SoxCommands.fileOpenRes`. -/
def fileOpenRes (j : Fin watchMax) (k : Fin sendMax) : M P Unit := do
  prepareRes j k
  let fileSize ← field j (·.transfer.fileSize)
  let chunkSize ← field j (·.transfer.chunkSize)
  emit (writeI4 fileSize ++ writeI2 (chunkSize.setWidth 32) ++ write 0)

/-- `SoxCommands.eventRes`. -/
def eventRes (j : Fin watchMax) (k : Fin sendMax) : M P Unit := do
  let app ← shared (·.app)
  let compId ← packetField j k (·.u2Data1)
  match app.lookup compId.toNat with
  | none =>
      error j k (text "removed")
      errorRes j k
  | some _ =>
      prepareRes j k
      emit (writeI2 (compId.setWidth 32))
      let user ← field j (·.user)
      let what ← packetField j k (·.u2Data2)
      let payload ← need (P.writeComp app user compId.toNat what)
      emit payload

/-- `SoxCommands.fileSendChunk`. What the file has not enough bytes for is sent as it stands in the
packet. -/
def fileSendChunk (j : Fin watchMax) (k : Fin sendMax) : M P Unit := do
  let chunkNum ← packetField j k (·.u2Data1)
  let chunkSize ← packetField j k (·.u2Data2)
  prepareRes j k
  emit (writeI2 (chunkNum.setWidth 32) ++ writeI2 (chunkSize.setWidth 32))
  let store ← field j (·.transfer.file.store)
  let fp ← field j (·.transfer.file.fp)
  let offset ← field j (·.transfer.offset)
  let step ← field j (·.transfer.chunkSize)
  changeApp (P.doSeek store fp (offset + chunkNum.setWidth 32 * step.setWidth 32))
  let bs ← onShared fun sh =>
    let (bs, app) := P.doReadBytes store fp chunkSize.toNat sh.app
    some (bs, { sh with app })
  let stale ← shared fun sh => fun n => sh.packet (sh.out.length + n)
  emit ((List.range chunkSize.toNat).map fun n => bs.getD n (stale n))

/-- The routing of `SoxCommands.send`: whether the command is known. -/
def route (j : Fin watchMax) (k : Fin sendMax) (cmd : BitVec 8) : M P Bool :=
  if cmd = code 'R' then do readPropRes j k; pure true
  else if cmd = code 'C' then do readCompRes j k; pure true
  else if cmd = code 'S' then do subscribeRes j k; pure true
  else if cmd = code 'A' then do addRes j k; pure true
  else if cmd = code 'V' then do versionRes j k P.versionRes; pure true
  else if cmd = code 'Y' then do versionRes j k P.versionMoreRes; pure true
  else if cmd = code 'Q' then do queryRes j k; pure true
  else if cmd = code 'F' then do fileOpenRes j k; pure true
  else if cmd ∈ ['Z', 'B', 'D', 'I', 'L', 'N', 'O', 'W', 'U', 'z'].map code then do
    prepareRes j k; pure true
  else if cmd = code 'e' then do eventRes j k; pure true
  else if cmd = code 'k' then do fileSendChunk j k; pure true
  else pure (cmd = code '!')

/-- `SoxCommands.send`. -/
def send (j : Fin watchMax) (k : Fin sendMax) : M P Unit := do
  let cmd ← packetField j k (·.cmd)
  let known ← route j k cmd
  if known then
    let cmd ← packetField j k (·.cmd)
    if cmd = code '!' then errorRes j k
    sendPacket j

/-! ### Requests -/

/-- A number of ids, or -1 where the request ends before. -/
def readIds : ℕ → StateM BufInStream (List ℤ)
  | 0 => pure []
  | n + 1 => do
      let id ← readU2
      let ids ← readIds n
      pure (id :: ids)

/-- A byte and what is read behind it. -/
def readPair (x y : StateM BufInStream ℤ) : StateM BufInStream (ℤ × ℤ) := do
  let a ← x
  let b ← y
  pure (a, b)

/-- `readPropReq` and `readCompReq`, which only keep what is asked for. -/
def readReq (j : Fin watchMax) (k : Fin sendMax) (cmd : BitVec 8) (input : BufInStream) :
    M P Unit :=
  let (compId, what) := ((readPair readU2 read).run input).1
  assignPacket j k fun p =>
    { p with cmd, u2Data1 := BitVec.ofInt 16 compId, u2Data2 := BitVec.ofInt 16 what }

/-- The loops of `subscribeReq` and `unsubscribeReq`: how many components there are that the user
may read. -/
def eachComp (j : Fin watchMax) (f : BitVec 8 → BitVec 8) : List ℤ → ℕ → M P ℕ
  | [], n => pure n
  | id :: ids, n => do
      let app ← shared (·.app)
      match app.lookup id with
      | none => eachComp j f ids n
      | some _ =>
          let user ← field j (·.user)
          let who ← need user
          if !P.has app who id.toNat operatorRead then eachComp j f ids n
          else
            changeApp fun app => app.modifyFlags id.toNat j f
            eachComp j f ids (n + 1)

/-- The mask and the number of components of `subscribeReq` and `unsubscribeReq`, and whether they
are about all tree events. -/
def readMask (input : BufInStream) : (ℤ × ℤ) × BufInStream := (readPair read read).run input

/-- `SoxCommands.subscribeReq`. -/
def subscribeReq (j : Fin watchMax) (k : Fin sendMax) (input : BufInStream) : M P Unit := do
  assignPacket j k fun p => { p with cmd := code 'S' }
  let ((whatMask, num), input) := readMask input
  if num = 0 ∧ whatMask = 0xff then assign j fun s => { s with allTreeEvents := true }
  else
    let mask := BitVec.ofInt 8 (whatMask % 16)
    let numSubscribed ← eachComp j (fun flags => flags ||| mask <<< 4 ||| mask)
      ((readIds num.toNat).run input).1 0
    assignPacket j k fun p => { p with u2Data1 := BitVec.ofNat 16 numSubscribed }

/-- `SoxCommands.unsubscribeReq`. -/
def unsubscribeReq (j : Fin watchMax) (k : Fin sendMax) (input : BufInStream) : M P Unit := do
  assignPacket j k fun p => { p with cmd := code 'U' }
  let ((whatMask, num), input) := readMask input
  if num = 0 ∧ whatMask = 0xff then assign j fun s => { s with allTreeEvents := false }
  else
    let mask := BitVec.ofInt 8 (whatMask % 16)
    let _ ← eachComp j (fun flags => flags &&& ~~~(mask <<< 4))
      ((readIds num.toNat).run input).1 0

/-- `SoxCommands.queryReq`. -/
def queryReq (j : Fin watchMax) (k : Fin sendMax) (input : BufInStream) : M P Unit := do
  let (queryType, input) := read.run input
  if queryType ≠ (code 's').toNat then error j k (text "bad query")
  else
    let (kitId, typeId) := ((readPair read read).run input).1
    assignPacket j k fun p =>
      { p with
        cmd := code 'Q'
        u2Data1 := BitVec.ofInt 16 kitId
        u2Data2 := BitVec.ofInt 16 typeId }

/-- The requests that edit: the response, or an error. -/
def editReq (j : Fin watchMax) (k : Fin sendMax) (what : Edit) (cmd : BitVec 8)
    (input : BufInStream) : M P Unit := do
  let user ← field j (·.user)
  let res ← onShared fun sh => (P.edit what user input sh.app).map fun (res, app, packet) =>
    (res, { sh with app, packet })
  match res with
  | .ok () => assignPacket j k fun p => { p with cmd }
  | .error cause => error j k cause

/-- `SoxCommands.addReq`. -/
def addReq (j : Fin watchMax) (k : Fin sendMax) (input : BufInStream) : M P Unit := do
  let user ← field j (·.user)
  let res ← onShared fun sh => (P.addReq user input sh.app).map fun (res, app) =>
    (res, { sh with app })
  match res with
  | .ok compId => assignPacket j k fun p => { p with cmd := code 'A', u2Data1 := compId }
  | .error cause => error j k cause

/-! ### File transfers -/

/-- `InStream.readS4`. -/
def readS4 : StateM BufInStream (BitVec 32) := do
  let a ← read
  let b ← read
  let c ← read
  let d ← read
  pure (if a < 0 ∨ b < 0 ∨ c < 0 ∨ d < 0 then -1
    else BitVec.ofInt 32 (((a * 256 + b) * 256 + c) * 256 + d))

/-- `Str.parseInt`. -/
def parseInt (s : Str) : BitVec 32 :=
  let (neg, digits) := match s with
    | [] => (false, [])
    | c :: cs => if c = code '-' then (true, cs) else (false, c :: cs)
  if digits.isEmpty ∨ ¬digits.all fun c => code '0' ≤ c ∧ c ≤ code '9' then -1
  else
    let val := digits.foldl (fun val c => val * 10 + (c - code '0').setWidth 32) 0
    if neg then -val else val

/-- `Str.get`. -/
def firstChar (s : Str) : BitVec 8 := s.headD 0

/-- The loop of `fileOpenReq` over the headers: the mode and the offset, or the error. Every round
takes a byte of the request at least. -/
def readHeaders : ℕ → Str → BitVec 32 → StateM BufInStream (Except Str (Str × BitVec 32))
  | 0, _, _ => pure (.error (text "invalid headers"))
  | n + 1, openMode, offset => do
      let key ← BufInStream.readStrInPlace
      match key with
      | none => pure (.error (text "invalid headers"))
      | some [] => pure (.ok (openMode, offset))
      | some key =>
          let val ← BufInStream.readStrInPlace
          match val with
          | none => pure (.error (text "bad value"))
          | some val =>
              if key = text "mode" then readHeaders n val offset
              else if key = text "offset" then
                if (parseInt val).slt 0 then pure (.error (text "bad offset"))
                else readHeaders n openMode (parseInt val)
              else readHeaders n openMode offset

/-- What a transfer is opened with. -/
structure Opening where
  mode : TransferMode
  openMode : Str
  fileSize : BitVec 32
  offset : BitVec 32
  chunkSize : BitVec 32

/-- The limit of `fileOpenReq` for the size of a chunk. -/
def limitChunk (chunkSize : BitVec 32) : BitVec 32 :=
  if (512#32).sle (chunkSize + 18) then 512 - 18 else chunkSize

/-- The part of `fileOpenReq` that looks at the method. -/
def openMethod (app : P.App) (method uri openMode : Str) (fileSize offset chunkSize : BitVec 32) :
    Except Str Opening :=
  if firstChar method = code 'g' then
    if (P.fileSize app uri).slt 0 then .error (text "not found")
    else
      let left := P.fileSize app uri - offset
      let maxBytes := if left.slt 0 then 0 else left
      .ok
        { mode := .get
          openMode := text "r"
          fileSize := if fileSize = 0 then maxBytes
            else if fileSize.slt maxBytes then fileSize else maxBytes
          offset := offset
          chunkSize := chunkSize }
  else if firstChar method = code 'p' then
    if firstChar openMode = code 'w' ∨ firstChar openMode = code 'm' then
      .ok
        { mode := .put
          openMode := openMode
          fileSize := fileSize
          offset := offset
          chunkSize := chunkSize }
    else .error (text "bad mode")
  else .error (text "bad method")

/-- The checks of `fileOpenReq` behind the permissions. -/
def checkOpen (app : P.App) (method uri : Str) (fileSize chunkSize : BitVec 32)
    (input : BufInStream) : Except Str Opening :=
  if (limitChunk chunkSize * 0xffff).sle fileSize then .error (text "too big")
  else
    match ((readHeaders (input.size + 1) (text "w") 0).run input).1 with
    | .error cause => .error cause
    | .ok (openMode, offset) =>
        openMethod app method uri openMode fileSize offset (limitChunk chunkSize)

/-- The part of `fileOpenReq` from `file.open` on. -/
def openFile (j : Fin watchMax) (k : Fin sendMax) (uri : Str) (o : Opening) : M P Unit := do
  let store ← shared fun sh => P.toStore sh.app uri
  let fp ← onShared fun sh =>
    let (fp, app) := P.doOpen store uri o.openMode sh.app
    some (fp, { sh with app })
  match fp with
  | none =>
      assign j fun s => { s with transfer.file := { name := some uri, store, fp := none } }
      error j k (text "cannot open")
  | some fp =>
      if o.chunkSize = 0 then failure
      else
        assign j fun s =>
          { s with
            transfer :=
              { mode := o.mode
                file := { name := some uri, store, fp := some fp }
                fileSize := o.fileSize
                offset := o.offset
                numChunks := (o.fileSize.sdiv o.chunkSize).setWidth 16 +
                  if o.fileSize.srem o.chunkSize = 0 then 0 else 1
                chunkSize := o.chunkSize.setWidth 16
                nextChunk := 0 } }
        assignPacket j k fun p => { p with cmd := code 'F' }

/-- The part of `fileOpenReq` that comes after its checks. -/
def openTransfer (j : Fin watchMax) (k : Fin sendMax) (uri : Str) (o : Opening) : M P Unit := do
  if o.mode = .put then changeApp (P.notify 'o')
  openFile j k uri o

/-- What `fileOpenReq` reads before its checks. -/
def readOpen : StateM BufInStream (Option Str × Option Str × BitVec 32 × ℤ) := do
  let method ← BufInStream.readStrInPlace
  let uri ← BufInStream.readStrInPlace
  let fileSize ← readS4
  let chunkSize ← readU2
  pure (method, uri, fileSize, chunkSize)

/-- `SoxCommands.fileOpenReq`. -/
def fileOpenReq (j : Fin watchMax) (k : Fin sendMax) (input : BufInStream) : M P Unit := do
  let ((method, uri, fileSize, chunkSize), input) := readOpen.run input
  let user ← field j (·.user)
  let who ← need user
  let uri ← need uri
  let app ← shared (·.app)
  if !P.canProv app who uri then error j k (text "denied")
  else
    let mode ← field j (·.transfer.mode)
    if mode ≠ .unused then error j k (text "busy")
    else
      assign j fun s => { s with transfer.file.name := some uri }
      let method ← need method
      match checkOpen app method uri fileSize (BitVec.ofInt 32 chunkSize) input with
      | .error cause => error j k cause
      | .ok o => openTransfer j k uri o

/-- `SoxCommands.fileCloseReq`. -/
def fileCloseReq (j : Fin watchMax) (k : Fin sendMax) : M P Unit := do
  assign j fun s => { s with transfer.mode := .unused }
  closeFile j
  assignPacket j k fun p => { p with cmd := code 'Z' }

/-- `SoxCommands.fileReceiveChunk`. -/
def fileReceiveChunk (j : Fin watchMax) (input : BufInStream) : M P Unit := do
  let mode ← field j (·.transfer.mode)
  if mode ≠ .put then pure ()
  else
    let ((chunkNum, chunkSize), input) := (readPair readU2 readU2).run input
    let store ← field j (·.transfer.file.store)
    let fp ← field j (·.transfer.file.fp)
    let offset ← field j (·.transfer.offset)
    let step ← field j (·.transfer.chunkSize)
    changeApp (P.doSeek store fp (offset + BitVec.ofInt 32 chunkNum * step.setWidth 32))
    changeApp (P.doWriteBytes store fp
      ((List.range chunkSize.toNat).map fun n => input.bytes (input.pos + n)))
    assign j fun s => { s with transfer.numChunks := s.transfer.numChunks - 1 }

/-- `FileTransfer.checkGet`. -/
def checkGet (j : Fin watchMax) : M P Bool := do
  let chunkNum ← field j (·.transfer.nextChunk)
  let numChunks ← field j (·.transfer.numChunks)
  if numChunks ≤ chunkNum then pure false
  else
    let free ← nextPacket j
    match free with
    | none => pure false
    | some k =>
        assign j fun s => { s with transfer.nextChunk := s.transfer.nextChunk + 1 }
        let fileSize ← field j (·.transfer.fileSize)
        let chunkSize ← field j (·.transfer.chunkSize)
        if chunkNum + 1 = numChunks ∧ chunkSize = 0 then failure
        else
          let remainder := fileSize.srem (chunkSize.setWidth 32)
          let thisChunkSize := if chunkNum + 1 = numChunks ∧ remainder ≠ 0 then
            remainder.setWidth 16 else chunkSize
          assignPacket j k fun p =>
            { p with
              cmd := code 'k'
              replyNum := 0xff
              u2Data1 := chunkNum
              u2Data2 := thisChunkSize }
          send j k
          pure true

/-- `FileTransfer.checkPut`. -/
def checkPut (j : Fin watchMax) : M P Bool := do
  let numChunks ← field j (·.transfer.numChunks)
  if 0 < numChunks then pure false
  else
    let free ← nextPacket j
    match free with
    | none => pure false
    | some k =>
        closeFile j
        assign j fun s => { s with transfer.mode := .unused }
        changeApp (P.notify 'c')
        assignPacket j k fun p => { p with cmd := code 'z', replyNum := 0xff }
        send j k
        pure true

/-! ### Datagrams -/

/-- The routing of `SoxCommands.process`. -/
def request (j : Fin watchMax) (k : Fin sendMax) (cmd : BitVec 8) (input : BufInStream) :
    M P Unit :=
  if cmd = code 'r' then readReq j k (code 'R') input
  else if cmd = code 'c' then readReq j k (code 'C') input
  else if cmd = code 'i' then editReq j k .invoke (code 'I') input
  else if cmd = code 'w' then editReq j k .write (code 'W') input
  else if cmd = code 's' then subscribeReq j k input
  else if cmd = code 'u' then unsubscribeReq j k input
  else if cmd = code 'a' then addReq j k input
  else if cmd = code 'd' then editReq j k .delete (code 'D') input
  else if cmd = code 'n' then editReq j k .rename (code 'N') input
  else if cmd = code 'o' then editReq j k .reorder (code 'O') input
  else if cmd = code 'l' then editReq j k .link (code 'L') input
  else if cmd = code 'q' then queryReq j k input
  else if cmd = code 'v' then assignPacket j k fun p => { p with cmd := code 'V' }
  else if cmd = code 'y' then assignPacket j k fun p => { p with cmd := code 'Y' }
  else if cmd = code 'f' then fileOpenReq j k input
  else if cmd = code 'z' then fileCloseReq j k
  else if cmd = code 'b' then editReq j k .fileRename (code 'B') input
  else error j k (text "bad cmd")

/-- `SoxCommands.process`, of a request with its command and its reply number. -/
def answer (j : Fin watchMax) (cmd replyNum : ℤ) (input : BufInStream) : M P Unit := do
  if cmd = (code 'k').toNat then fileReceiveChunk j input
  else
    let free ← nextPacket j
    match free with
    | none => failure
    | some k =>
        assignPacket j k fun p => { p with replyNum := BitVec.ofInt 8 replyNum }
        request j k (BitVec.ofInt 8 cmd) input
        send j k

/-- `SoxCommands.process`. -/
def process (j : Fin watchMax) (input : BufInStream) : M P Unit :=
  let header := (readPair read read).run input
  answer j header.1.1 header.1.2 header.2

/-- `SoxService.session`. -/
def session (sessionId : ℤ) : M P (Option (Fin watchMax)) := do
  if h : (sessionId % 256).toNat < watchMax then
    let j : Fin watchMax := ⟨(sessionId % 256).toNat, h⟩
    let rand ← field j (·.rand)
    let closed ← field j (·.closed)
    if (watchId j rand).toNat = sessionId ∧ !closed then
      let now ← ticks
      assign j fun s => { s with lastReceiveTicks := now }
      pure (some j)
    else pure none
  else pure none

/-- The part of `SoxService.dispatch` for messages that are not control messages. -/
def dispatchDatagram (j : Fin watchMax) (seqNum : ℤ) (numFields : ℕ) (msgType : ℤ)
    (input : BufInStream) : M P Unit := do
  assign j fun s => { s with sendWindow := s.sendWindow.acknowledge input numFields }
  let numUnacked ← field j (·.sendWindow.numUnacked)
  if numUnacked.toNat < sendMax ∧ msgType = 6 then
    let accepted ← field j fun s => (Dasp.Device.receive s.receiveWindow seqNum).1
    assign j fun s => { s with receiveWindow := (Dasp.Device.receive s.receiveWindow seqNum).2 }
    if accepted then
      process j ((Dasp.DeviceSendWindow.parseAckHeaders numFields {}).run input).2

/-- The switch of `SoxService.dispatch`, once the session is found. -/
def handleMsg (j : Fin watchMax) (seqNum : ℤ) (numFields : ℕ) (msgType : ℤ) (input : BufInStream) :
    M P Unit := do
  let now ← ticks
  assign j fun s => { s with lastReceiveTicks := now }
  if msgType = 1 then
    challenge j numFields input
    assign j fun s => { s with receiveWindow := Dasp.Device.init s.receiveWindow seqNum }
  else if msgType = 3 then welcome j numFields input
  else if msgType = 7 then closeSession j
  else if msgType = 0 then
    discoverResponse j
    closeSession j
  else dispatchDatagram j seqNum numFields msgType input

/-- `SoxService.dispatch` of a message with its header: the type comes with the number of
fields. -/
def dispatchMsg (addr : P.Addr) (sessionId seqNum typeAndFields : ℤ) (input : BufInStream) :
    M P Unit := do
  let msgType := typeAndFields / 16 % 16
  let found ← if msgType = 1 ∨ msgType = 0 then openSession addr else session sessionId
  match found with
  | none => pure ()
  | some j => handleMsg j seqNum (typeAndFields % 16).toNat msgType input

/-- `SoxService.dispatch` of the message that the packet holds. -/
def dispatch (addr : P.Addr) (size : ℕ) : M P Unit := do
  let packet ← shared (·.packet)
  let header := SoxService.parseHeader.run { bytes := packet, size }
  dispatchMsg addr header.1.1 header.1.2.1 header.1.2.2 header.2

/-! ### House keeping -/

/-- The loop of `SendWindow.sendRetries`. -/
def retry (j : Fin watchMax) (houseKeepingTicks : BitVec 32) (work : Bool) (k : Fin sendMax) :
    M P Bool := do
  let age ← packetField j k (·.age)
  if age = 0 then pure work
  else
    let age := age + houseKeepingTicks.setWidth 8
    assignPacket j k fun p => { p with age }
    if Dasp.DeviceSendWindow.retryTicks < age.toNat then
      send j k
      assignPacket j k fun p => { p with age := 1 }
      pure true
    else pure work

/-- `SendWindow.sendRetries`. -/
def sendRetries (j : Fin watchMax) (houseKeepingTicks : BitVec 32) : M P Bool := do
  let numUnacked ← field j (·.sendWindow.numUnacked)
  if numUnacked = 0 then pure false
  else (List.finRange sendMax).foldlM (retry j houseKeepingTicks) false

/-- `SoxSession.houseKeeping`. -/
def keepSession (now : ℤ) (houseKeepingTicks : BitVec 32) (worked : Bool) (j : Fin watchMax) :
    M P Bool := do
  let closed ← field j (·.closed)
  if closed then pure worked
  else
    let lastReceiveTicks ← field j (·.lastReceiveTicks)
    let receiveTimeout ← field j (·.receiveTimeout)
    if (receiveTimeout.toNat : ℤ) * 1000000000 < now - lastReceiveTicks then
      close j 0xe5
      pure true
    else
      let retried ← sendRetries j houseKeepingTicks
      if retried then pure true
      else
        let acked ← field j (·.receiveWindow.acked)
        let lastSendTicks ← field j (·.lastSendTicks)
        if !acked ∨ 300000000 * (receiveTimeout.toNat : ℤ) < now - lastSendTicks then
          keepAlive j
          pure true
        else pure worked

/-- `SoxService.HOUSE_KEEPING_INTERVAL`. -/
def interval : ℤ := 100

/-- `SoxService.houseKeeping`. -/
def houseKeeping : M P Bool := do
  let now ← ticks
  let lastHouseKeeping ← shared (·.lastHouseKeeping)
  let deltaMs := (BitVec.ofInt 32 ((now - lastHouseKeeping).tdiv 1000000)).toInt
  if deltaMs < interval then pure false
  else
    let houseKeepingTicks :=
      deltaMs / interval + if interval / 2 < deltaMs % interval then 1 else 0
    let worked ← (List.finRange watchMax).foldlM
      (keepSession now (BitVec.ofInt 32 houseKeepingTicks)) false
    assignShared fun sh => { sh with lastHouseKeeping := now }
    pure worked

/-- `SoxService.checkFileTransfers`, for a session. -/
def checkFileTransfer (worked : Bool) (j : Fin watchMax) : M P Bool := do
  let closed ← field j (·.closed)
  if closed then pure worked
  else
    let mode ← field j (·.transfer.mode)
    match mode with
    | .unused => pure worked
    | .get => do
        let did ← checkGet j
        pure (worked || did)
    | .put => do
        let did ← checkPut j
        pure (worked || did)

/-! ### Events -/

/-- `Watch.fromSubBit`, of the subscription bit that belongs to an event bit. -/
def fromEventBit (bit : BitVec 8) : BitVec 8 :=
  if bit = 0x1 then code 't'
  else if bit = 0x2 then code 'c'
  else if bit = 0x4 then code 'r'
  else if bit = 0x8 then code 'l'
  else code '!'

/-- `SoxService.enqueueEvent`, if the event is pending. -/
def enqueueEvent (j : Fin watchMax) (id : ℕ) (events : BitVec 8) (fired : Bool)
    (bit : BitVec 8) : M P Bool := do
  if events &&& bit = 0 then pure fired
  else
    let free ← nextPacket j
    match free with
    | none => pure fired
    | some k =>
        assignPacket j k fun p =>
          { p with
            cmd := code 'e'
            replyNum := 0xff
            u2Data1 := BitVec.ofNat 16 id
            u2Data2 := (fromEventBit bit).setWidth 16 }
        send j k
        changeApp fun app => app.modifyFlags id j fun flags => flags &&& ~~~bit
        pure true

/-- The event bits, in the order they are checked. -/
def eventBits : List (BitVec 8) := [0x1, 0x2, 0x4, 0x8]

/-- The part of `checkForEvents` for a component and a session. -/
def fireEvents (id : ℕ) (fired : Bool) (j : Fin watchMax) : M P Bool := do
  let closed ← field j (·.closed)
  if closed then pure fired
  else
    let flags ← shared fun sh => ((sh.app.lookup id).map (·.watchFlags j)).getD 0
    let allTreeEvents ← field j (·.allTreeEvents)
    let flags := if allTreeEvents then flags ||| 0x10 else flags
    eventBits.foldlM (enqueueEvent j id (flags >>> 4 &&& (flags &&& 0xf))) fired

/-- The loop of `checkForEvents` over the components. -/
def checkComps (off compsLen : ℕ) : List ℕ → M P Bool
  | [] => pure false
  | i :: is => do
      let id := (i + off) % compsLen
      let c ← shared fun sh => (sh.app.lookup id).isSome
      if !c then checkComps off compsLen is
      else
        let fired ← (List.finRange watchMax).foldlM (fireEvents id) false
        if fired then
          assignShared fun sh => { sh with lastCompId := BitVec.ofNat 16 id }
          pure true
        else checkComps off compsLen is

/-- `SoxService.checkForEvents`. -/
def checkForEvents : M P Bool := do
  let compsLen ← shared (·.app.comps.length)
  let off ← shared (·.lastCompId.toNat)
  checkComps (off + 1) compsLen (List.range compsLen)

/-! ### Runs -/

/-- `SoxService.receive`: the bytes of the packet. -/
def receive (bs : Bytes) : M P Unit := do
  clear
  assignShared fun sh => { sh with packet := fun n => bs.getD n (sh.packet n) }

/-- `SoxService.work`, with the packet that has come in. -/
def work (received : Option (P.Addr × Bytes)) : M P Bool := do
  match received with
  | none => pure ()
  | some (addr, bs) =>
      receive bs
      dispatch addr bs.length
  let _ ← houseKeeping
  let worked ← (List.finRange watchMax).foldlM checkFileTransfer false
  if worked then pure true
  else if received.isSome then pure true
  else
    let eventsPerSec ← shared fun sh => P.eventsPerSec sh.app
    let numEvents ← shared (·.numEventsThisPeriod.toNat)
    if numEvents < (if eventsPerSec < 4 then eventsPerSec else eventsPerSec / 4) then
      let fired ← checkForEvents
      if fired then
        assignShared fun sh => { sh with numEventsThisPeriod := sh.numEventsThisPeriod + 1 }
      pure fired
    else pure false

/-- `SoxService.execute`. -/
def execute : M P Unit := do
  let now ← ticks
  assignShared fun sh =>
    if sh.periodEnd ≤ now then
      { sh with numEventsThisPeriod := 0, periodEnd := now + 250000000 }
    else sh

/-- What happens on the device: the service works on a packet of some bytes or on none, it
executes, or another part of the device changes the application. -/
inductive Step (P : Platform) where
  | work (received : Option (P.Addr × Bytes))
  | execute
  | other (f : P.App → P.App)

/-- The program of a step. -/
def Step.program : Step P → M P Unit
  | .work received => do
      let _ ← Slots.work received
  | .execute => Slots.execute
  | .other f => changeApp f

/-- The device after a step, unless the virtual machine fails. -/
def Device.next (d : Device P) (c : Step P) : Option (Device P) := (c.program d).map (·.2)

end Sedona.Sox.Slots
