import Mathlib.Data.List.Basic
import Mathlib.Logic.Function.Basic
import Sedona.Library.Transition

/-!
# The Exchange of Requests and Responses

The client side of SOX, `sedona.sox.SoxExchange`: callers send batches of requests, whose reply
numbers are their indices, and wait for as many responses; receivers store what the device sends.
The steps of the callers, of the receivers and of the device are taken in any order. A caller holds
the monitor of the exchange while it sends, and gives it up while it waits.

DASP takes a message to the other side at most once, or not at all. Every request has a number of
its own, `uid`, and an answer that of its request: they are not sent, and say what the answer is an
answer to. The requests of a batch are different objects.

## Main results

* `inv_next`: what every step keeps.
* `responses_match`: every response that a caller gets answers its request, as long as no caller
  starts while another one waits or while messages are on their way that it could take for its own.
* `not_responses_match`: two callers at once.
-/

namespace Sedona.Sox.Client

open Function Transition

/-! ### Data -/

def code (c : Char) : BitVec 8 := BitVec.ofNat 8 c.toNat

/-- A request of a caller. -/
structure Request where
  uid : ℕ
  cmd : BitVec 8
deriving DecidableEq

/-- A message of the device. -/
structure Message where
  cmd : BitVec 8
  replyNum : ℕ
  /-- The request that it answers. -/
  origin : Option ℕ
deriving DecidableEq

/-- A request on its way to the device, in a session. -/
structure Sent where
  session : ℕ
  req : Request
  replyNum : ℕ
deriving DecidableEq

/-- How far a call of `SoxExchange.request` is. -/
inductive Phase where
  | idle
  /-- Before `checkOpen`. -/
  | called
  /-- Before the monitor. -/
  | admitted
  /-- In the monitor, with so many requests sent. -/
  | sending (sent : ℕ)
  /-- In `wait`. -/
  | waiting
deriving DecidableEq

/-- A thread that calls `SoxExchange.request`. -/
structure Caller where
  phase : Phase
  /-- All requests of the call. -/
  whole : List Request
  /-- The requests of the current chunk. -/
  chunk : List Request
  /-- The requests of later chunks. -/
  rest : List Request
  /-- The responses to earlier chunks. -/
  done : List (Option Message)
deriving DecidableEq

/-- `SoxExchange`, with its callers and receivers and what is on its way. -/
structure SoxExchange where
  session : Option ℕ
  /-- The number of sessions that have been opened. -/
  sessions : ℕ
  requests : Option (List Request)
  responses : Option (List (Option Message))
  /-- The caller that holds the monitor. -/
  monitor : Option ℕ
  callers : ℕ → Caller
  /-- The number of requests that there have been. -/
  uids : ℕ
  toDevice : List Sent
  /-- What the device has sent, up to the receive queue of the client. -/
  toClient : List (ℕ × Message)
  /-- What receivers have taken off the queue. -/
  hands : List Message
  /-- What the calls have returned. -/
  returned : List (List Request × List (Option Message))

/-! ### Codes -/

/-- The response code of a request: its capital. -/
def capital (cmd : BitVec 8) : BitVec 8 := cmd &&& ~~~0x20

/-- The requests that `SoxCommands.process` knows. -/
def commands : List (BitVec 8) :=
  ['r', 'c', 'i', 'w', 's', 'u', 'a', 'd', 'n', 'o', 'l', 'q', 'v', 'y', 'f', 'z', 'b'].map code

/-- The codes that the device can answer a request with. -/
def answers (cmd : BitVec 8) : List (BitVec 8) :=
  if cmd = code 'k' then []
  else if commands.contains cmd then [capital cmd, code '!']
  else [code '!']

/-- The messages that `SoxReceiver.dispatch` takes elsewhere. -/
def isUnsolicited (cmd : BitVec 8) : Bool := cmd = code 'e' || cmd = code 'k' || cmd = code 'z'

/-- Whether `SoxExchange.receive` takes a message for the response to a request. -/
def Request.Accepts (q : Request) (m : Message) : Prop :=
  ¬ isUnsolicited m.cmd ∧ (m.cmd = code '!' ∨ m.cmd = capital q.cmd)

/-- The requests of a larger batch are sent in chunks. -/
def maxBatch : ℕ := 0xff

/-- A caller has set the fields of the exchange, and not got its responses. -/
def Phase.IsActive : Phase → Prop
  | .sending _ | .waiting => True
  | _ => False

/-- Every response answers the request at its place. -/
def Answers (res : List (Option Message)) (req : List Request) : Prop :=
  res.map (·.bind (·.origin)) = req.map fun q => some q.uid

instance (res : List (Option Message)) (req : List Request) : Decidable (Answers res req) :=
  inferInstanceAs (Decidable (_ = _))

/-- The requests of a caller that are in the fields of the exchange. -/
def Caller.current (c : Caller) : List Request :=
  match c.phase with
  | .sending _ | .waiting => c.chunk
  | _ => []

/-- How far a caller is in its requests, with responses to all those before the current ones. -/
structure Caller.Progress (c : Caller) (before : List Request) : Prop where
  whole : c.whole = before ++ c.current ++ c.rest
  done : Answers c.done before
  single (h : c.whole.length ≤ maxBatch) : before = [] ∧ (c.phase.IsActive → c.rest = [])

/-- The array of `chunkRequests` with the responses to one more chunk, unless they are too many
for it. -/
def Caller.copy (c : Caller) (res : List (Option Message)) : Option (List (Option Message)) :=
  if c.chunk.length < res.length then none
  else some (c.done ++ res ++ List.replicate (c.chunk.length - res.length) none)

namespace SoxExchange

variable (s : SoxExchange)

/-! ### Callers -/

/-- An assignment to fields of a caller. -/
def assign (t : ℕ) (f : Caller → Caller) : SoxExchange :=
  { s with callers := update s.callers t (f (s.callers t)) }

/-- The call of a thread ends. -/
def leave (t : ℕ) : SoxExchange :=
  { s.assign t fun c => { c with phase := .idle } with monitor := none }

/-- The chunk that a caller sends next. -/
def nextChunk (t : ℕ) : List Request := (s.callers t).rest.take maxBatch

/-- The part of `SoxExchange.request` in the monitor, up to the first request that is sent. -/
def start (t : ℕ) : SoxExchange :=
  { s.assign t fun c =>
      { c with phase := .sending 0, chunk := c.rest.take maxBatch, rest := c.rest.drop maxBatch } with
    requests := some (s.nextChunk t)
    responses := some (List.replicate (s.nextChunk t).length none)
    monitor := some t }

/-- `SoxExchange.send` of a request of the batch. -/
def send (t n : ℕ) (req : Request) : SoxExchange :=
  match s.session with
  | none => s.leave t
  | some session =>
      { s.assign t fun c => { c with phase := .sending (n + 1) } with
        toDevice := s.toDevice ++ [{ session, req, replyNum := n }] }

/-- The end of a chunk, with its responses. -/
def finish (t : ℕ) (res : List (Option Message)) : SoxExchange :=
  let c := s.callers t
  let s := { s with requests := none, responses := none, monitor := none }
  if c.whole.length ≤ maxBatch then
    { s.leave t with returned := s.returned ++ [(c.whole, res)] }
  else
    match c.copy res with
    | none => s.leave t
    | some done =>
        if c.rest = [] then { s.leave t with returned := s.returned ++ [(c.whole, done)] }
        else s.assign t fun c => { c with phase := .called, done }

/-- The loop of `SoxExchange.request` that looks whether all responses are there. -/
def gather (t : ℕ) : SoxExchange :=
  match s.responses with
  | none => s.leave t
  | some rs =>
      if none ∈ rs then { s.assign t fun c => { c with phase := .waiting } with monitor := none }
      else s.finish t rs

/-! ### Receivers -/

/-- `SoxExchange.receive` of a response. -/
def receive (m : Message) : SoxExchange :=
  match s.requests, s.responses with
  | some requests, some responses =>
      match requests[m.replyNum]? with
      | none => s
      | some req =>
          if m.cmd ≠ code '!' ∧ m.cmd ≠ capital req.cmd then { s with session := none }
          else { s with responses := some (responses.set m.replyNum (some m)) }
  | _, _ => s

/-! ### Steps -/

/-- What happens. -/
inductive Event where
  /-- `SoxExchange.connect`. -/
  | connect
  /-- `SoxExchange.close`, or the loss of the session. -/
  | close
  /-- A thread calls `SoxExchange.request`. -/
  | call (t : ℕ) (cmds : List (BitVec 8))
  /-- It comes to `checkOpen`. -/
  | enter (t : ℕ)
  /-- It gets the monitor. -/
  | start (t : ℕ)
  | send (t : ℕ)
  /-- It is interrupted while it sends. -/
  | interrupt (t : ℕ)
  /-- It looks for its responses, at first or when it is woken. -/
  | check (t : ℕ)
  /-- The device answers a request. -/
  | answer (i : ℕ) (cmd : BitVec 8)
  /-- The device sends a message by itself. -/
  | announce (session : ℕ) (cmd : BitVec 8)
  | loseRequest (i : ℕ)
  | loseMessage (i : ℕ)
  /-- A receiver takes a message of the session off the queue. -/
  | take (i : ℕ)
  /-- It dispatches a message it has taken. -/
  | dispatch (i : ℕ)

/-- The requests of a call. -/
def makeRequests (cmds : List (BitVec 8)) : List Request :=
  cmds.mapIdx fun i cmd => { uid := s.uids + i, cmd }

/-- The state after an event, if it can happen. -/
def next : Event → Option SoxExchange
  | .connect =>
      if s.session.isSome ∨ s.monitor.isSome then none
      else some { s with session := some s.sessions, sessions := s.sessions + 1 }
  | .close => some { s with session := none }
  | .call t cmds =>
      if (s.callers t).phase ≠ .idle then none
      else
        let reqs := s.makeRequests cmds
        some { s.assign t fun _ =>
          { phase := .called, whole := reqs, chunk := [], rest := reqs, done := [] } with
          uids := s.uids + cmds.length }
  | .enter t =>
      if (s.callers t).phase ≠ .called then none
      else if s.session.isNone then some (s.assign t fun c => { c with phase := .idle })
      else some (s.assign t fun c => { c with phase := .admitted })
  | .start t =>
      if (s.callers t).phase ≠ .admitted ∨ s.monitor.isSome then none else some (s.start t)
  | .send t =>
      match (s.callers t).phase with
      | .sending n => ((s.callers t).chunk[n]?).map (s.send t n)
      | _ => none
  | .interrupt t =>
      match (s.callers t).phase with
      | .sending n => if n < (s.callers t).chunk.length then some (s.leave t) else none
      | _ => none
  | .check t =>
      match (s.callers t).phase with
      | .sending n => if n = (s.callers t).chunk.length then some (s.gather t) else none
      | .waiting =>
          if s.monitor.isSome then none
          else if s.session.isNone then some (s.leave t)
          else some (s.gather t)
      | _ => none
  | .answer i cmd =>
      match s.toDevice[i]? with
      | none => none
      | some q =>
          if !(answers q.req.cmd).contains cmd then none
          else some { s with
            toDevice := s.toDevice.eraseIdx i
            toClient := s.toClient ++
              [(q.session, { cmd, replyNum := q.replyNum, origin := some q.req.uid })] }
  | .announce session cmd =>
      if ¬ isUnsolicited cmd ∨ s.sessions ≤ session then none
      else some { s with
        toClient := s.toClient ++ [(session, { cmd, replyNum := 0xff, origin := none })] }
  | .loseRequest i => some { s with toDevice := s.toDevice.eraseIdx i }
  | .loseMessage i => some { s with toClient := s.toClient.eraseIdx i }
  | .take i =>
      match s.toClient[i]? with
      | none => none
      | some (session, m) =>
          if s.session ≠ some session then none
          else some { s with toClient := s.toClient.eraseIdx i, hands := s.hands ++ [m] }
  | .dispatch i =>
      match s.hands[i]? with
      | none => none
      | some m =>
          let s' := { s with hands := s.hands.eraseIdx i }
          if isUnsolicited m.cmd then some s'
          else if s.monitor.isSome then none
          else some (s'.receive m)

/-- Before anything has happened. -/
def initial : SoxExchange where
  session := none
  sessions := 0
  requests := none
  responses := none
  monitor := none
  callers := fun _ => { phase := .idle, whole := [], chunk := [], rest := [], done := [] }
  uids := 0
  toDevice := []
  toClient := []
  hands := []
  returned := []

/-- The runs of the exchange. -/
def system : System SoxExchange Event := .ofNext (· = initial) next

/-! ### The invariant -/

/-- If a message is taken for the response to a request of the batch, it answers this request. -/
def Fits (chunk : List Request) (m : Message) : Prop :=
  ∀ q, chunk[m.replyNum]? = some q → q.Accepts m → m.origin = some q.uid

/-- All answers to a request that is on its way fit the batch. -/
def FitsAll (chunk : List Request) (q : Sent) : Prop :=
  ∀ cmd ∈ answers q.req.cmd, Fits chunk { cmd, replyNum := q.replyNum, origin := some q.req.uid }

/-- Everything that can come to the client from now on fits the batch. -/
structure Clean (s : SoxExchange) (chunk : List Request) : Prop where
  toDevice {q : Sent} (h : q ∈ s.toDevice) (hs : s.session = some q.session) : FitsAll chunk q
  toClient {p : ℕ × Message} (h : p ∈ s.toClient) (hs : s.session = some p.1) : Fits chunk p.2
  hands {m : Message} (h : m ∈ s.hands) : Fits chunk m

/-- The fields of the exchange are those of the batch of a caller. -/
structure Serves (s : SoxExchange) (chunk : List Request) : Prop where
  clean : Clean s chunk
  requests : s.requests = some chunk
  responses : ∃ rs : List (Option Message), s.responses = some rs ∧ rs.length = chunk.length ∧
    ∀ (i : ℕ) (m : Message), rs[i]? = some (some m) →
      ∃ q : Request, chunk[i]? = some q ∧ m.origin = some q.uid

/-- What holds between the steps. -/
structure Inv (s : SoxExchange) : Prop where
  toDevice {q : Sent} (h : q ∈ s.toDevice) : q.session < s.sessions
  toClient {p : ℕ × Message} (h : p ∈ s.toClient) : p.1 < s.sessions
  session {id : ℕ} (h : s.session = some id) : id < s.sessions
  serves {t : ℕ} (h : (s.callers t).phase.IsActive) : Serves s (s.callers t).chunk
  alone {t u : ℕ} (ht : (s.callers t).phase.IsActive) (hu : (s.callers u).phase.IsActive) : t = u
  monitor {t n : ℕ} (h : (s.callers t).phase = .sending n) : s.monitor = some t
  progress {t : ℕ} (h : (s.callers t).phase ≠ .idle) :
    ∃ before : List Request, (s.callers t).Progress before
  returned {p : List Request × List (Option Message)} (h : p ∈ s.returned) : Answers p.2 p.1

/-- While a caller is in the exchange, its chunk is. -/
theorem current_of_active {c : Caller} (h : c.phase.IsActive) : c.current = c.chunk := by
  unfold Caller.current
  split
  case h_1 => rfl
  case h_2 => rfl
  case h_3 hsending hwaiting =>
    cases hphase : c.phase with
    | sending n => exact absurd hphase (hsending n)
    | waiting => exact absurd hphase hwaiting
    | _ =>
      rw [hphase] at h
      exact absurd h not_false

/-! ### Steps that callers do not take part in -/

variable {s} {u : SoxExchange} {t n : ℕ} {chunk : List Request} {m : Message}

theorem Clean.of_subset (h : Clean s chunk) (hdevice : u.toDevice ⊆ s.toDevice)
    (hclient : u.toClient ⊆ s.toClient) (hhands : u.hands ⊆ s.hands)
    (hsession : ∀ id, u.session = some id → s.session = some id) : Clean u chunk where
  toDevice hq hs := h.toDevice (hdevice hq) (hsession _ hs)
  toClient hp hs := h.toClient (hclient hp) (hsession _ hs)
  hands hm := h.hands (hhands hm)

/-- A message that the device sends by itself is not taken for a response. -/
theorem fits_of_unsolicited (h : isUnsolicited m.cmd) : Fits chunk m :=
  fun _ _ haccepts => absurd h haccepts.1

/-- A step that changes only what is on its way. -/
theorem inv_quiet (h : Inv s) (hcallers : u.callers = s.callers)
    (hfields : u.requests = s.requests ∧ u.responses = s.responses ∧ u.monitor = s.monitor ∧
      u.returned = s.returned)
    (hdevice : ∀ q ∈ u.toDevice, q.session < u.sessions)
    (hclient : ∀ p ∈ u.toClient, p.1 < u.sessions)
    (hsession : ∀ id, u.session = some id → id < u.sessions)
    (hclean : ∀ chunk, Clean s chunk → Clean u chunk) : Inv u := by
  obtain ⟨hreq, hres, hmon, hret⟩ := hfields
  constructor
  case toDevice => exact fun hq => hdevice _ hq
  case toClient => exact fun hp => hclient _ hp
  case session => exact fun hid => hsession _ hid
  case serves =>
    intro t ht
    rw [hcallers] at ht ⊢
    have hs := h.serves ht
    exact ⟨hclean _ hs.clean, hreq.trans hs.requests, hres ▸ hs.responses⟩
  case alone =>
    rw [hcallers]
    exact h.alone
  case monitor =>
    rw [hcallers, hmon]
    exact h.monitor
  case progress =>
    rw [hcallers]
    exact h.progress
  case returned =>
    rw [hret]
    exact h.returned

theorem inv_connect (h : Inv s) :
    Inv { s with session := some s.sessions, sessions := s.sessions + 1 } := by
  refine inv_quiet h rfl ⟨rfl, rfl, rfl, rfl⟩ (fun q hq => Nat.lt_succ_of_lt (h.toDevice hq))
    (fun p hp => Nat.lt_succ_of_lt (h.toClient hp)) (fun id hid => ?_) fun chunk hc => ?_
  · exact Option.some.inj hid ▸ Nat.lt_succ_self _
  · -- nothing is on its way in the new session
    exact {
      toDevice := fun hq hs => absurd (h.toDevice hq) (Option.some.inj hs ▸ Nat.lt_irrefl _)
      toClient := fun hp hs => absurd (h.toClient hp) (Option.some.inj hs ▸ Nat.lt_irrefl _)
      hands := hc.hands }

theorem inv_close (h : Inv s) : Inv { s with session := none } :=
  inv_quiet h rfl ⟨rfl, rfl, rfl, rfl⟩ (fun _ hq => h.toDevice hq) (fun _ hp => h.toClient hp)
    (fun _ hid => nomatch hid) fun _ hc => hc.of_subset (List.Subset.refl _) (List.Subset.refl _)
      (List.Subset.refl _) fun _ hid => nomatch hid

theorem inv_answer (h : Inv s) {i : ℕ} {cmd : BitVec 8} {q : Sent} (hq : s.toDevice[i]? = some q)
    (hcmd : cmd ∈ answers q.req.cmd) :
    Inv { s with
      toDevice := s.toDevice.eraseIdx i
      toClient := s.toClient ++
        [(q.session, { cmd, replyNum := q.replyNum, origin := some q.req.uid })] } := by
  have hmem : q ∈ s.toDevice := List.mem_of_getElem? hq
  have hsub : s.toDevice.eraseIdx i ⊆ s.toDevice := (List.eraseIdx_sublist ..).subset
  refine inv_quiet h rfl ⟨rfl, rfl, rfl, rfl⟩ (fun _ hr => h.toDevice (hsub hr)) (fun p hp => ?_)
    (fun _ hid => h.session hid) fun chunk hc => ?_
  · rcases List.mem_append.mp hp with hp | hp
    · exact h.toClient hp
    · rw [List.mem_singleton.mp hp]
      exact h.toDevice hmem
  · refine ⟨fun hr => hc.toDevice (hsub hr), fun hp hs => ?_, hc.hands⟩
    rcases List.mem_append.mp hp with hp | hp
    · exact hc.toClient hp hs
    · rw [List.mem_singleton.mp hp] at hs ⊢
      exact hc.toDevice hmem hs cmd hcmd

theorem inv_announce (h : Inv s) {id : ℕ} {cmd : BitVec 8} (hcmd : isUnsolicited cmd)
    (hid : id < s.sessions) :
    Inv { s with toClient := s.toClient ++ [(id, { cmd, replyNum := 0xff, origin := none })] } := by
  refine inv_quiet h rfl ⟨rfl, rfl, rfl, rfl⟩ (fun _ hq => h.toDevice hq) (fun p hp => ?_)
    (fun _ hid => h.session hid) fun chunk hc => ?_
  · rcases List.mem_append.mp hp with hp | hp
    · exact h.toClient hp
    · rw [List.mem_singleton.mp hp]
      exact hid
  · refine ⟨hc.toDevice, fun hp hs => ?_, hc.hands⟩
    rcases List.mem_append.mp hp with hp | hp
    · exact hc.toClient hp hs
    · rw [List.mem_singleton.mp hp]
      exact fits_of_unsolicited hcmd

/-- What is on its way is lost. -/
theorem inv_lose (h : Inv s) {toDevice : List Sent} {toClient : List (ℕ × Message)}
    {hands : List Message} (hdevice : toDevice ⊆ s.toDevice) (hclient : toClient ⊆ s.toClient)
    (hhands : hands ⊆ s.hands) : Inv { s with toDevice, toClient, hands } :=
  inv_quiet h rfl ⟨rfl, rfl, rfl, rfl⟩ (fun _ hq => h.toDevice (hdevice hq))
    (fun _ hp => h.toClient (hclient hp)) (fun _ hid => h.session hid)
    fun _ hc => hc.of_subset hdevice hclient hhands fun _ hid => hid

theorem inv_take (h : Inv s) {i id : ℕ} (hm : s.toClient[i]? = some (id, m))
    (hsession : s.session = some id) :
    Inv { s with toClient := s.toClient.eraseIdx i, hands := s.hands ++ [m] } := by
  have hsub : s.toClient.eraseIdx i ⊆ s.toClient := (List.eraseIdx_sublist ..).subset
  refine inv_quiet h rfl ⟨rfl, rfl, rfl, rfl⟩ (fun _ hq => h.toDevice hq)
    (fun _ hp => h.toClient (hsub hp)) (fun _ hid => h.session hid) fun chunk hc => ?_
  refine ⟨hc.toDevice, fun hp => hc.toClient (hsub hp), fun hx => ?_⟩
  rcases List.mem_append.mp hx with hx | hx
  · exact hc.hands hx
  · rw [List.mem_singleton.mp hx]
    exact hc.toClient (List.mem_of_getElem? hm) hsession

/-- A response is received, or not taken for one. -/
theorem inv_receive (h : Inv s)
    (hfits : ∀ t, (s.callers t).phase.IsActive → Fits (s.callers t).chunk m)
    (hm : ¬ isUnsolicited m.cmd) : Inv (s.receive m) := by
  unfold receive
  split
  case h_2 => exact h
  case h_1 reqs res hreqs hres =>
    split
    case h_1 => exact h
    case h_2 req hreq =>
      split
      · exact inv_close h
      · rename_i hcmd
        have haccepts : req.Accepts m := by
          refine ⟨hm, ?_⟩
          by_contra hne
          exact hcmd (not_or.mp hne)
        constructor
        case toDevice => exact h.toDevice
        case toClient => exact h.toClient
        case session => exact h.session
        case alone => exact h.alone
        case monitor => exact h.monitor
        case progress => exact h.progress
        case returned => exact h.returned
        case serves =>
          intro t ht
          have hs := h.serves ht
          have hchunk : (s.callers t).chunk = reqs := Option.some.inj (hs.requests.symm.trans hreqs)
          obtain ⟨rs, hrs, hlen, horigin⟩ := hs.responses
          obtain rfl : rs = res := Option.some.inj (hrs.symm.trans hres)
          refine ⟨hs.clean.of_subset (List.Subset.refl _) (List.Subset.refl _)
            (List.Subset.refl _) fun _ hid => hid, hs.requests, _, rfl, ?_, fun i x hx => ?_⟩
          · rw [List.length_set, hlen]
          · rw [List.getElem?_set] at hx
            split at hx
            · rename_i hi
              subst hi
              split at hx
              · obtain rfl : m = x := Option.some.inj (Option.some.inj hx)
                rw [hchunk]
                exact ⟨req, hreq, hfits t ht req (hchunk ▸ hreq) haccepts⟩
              · exact absurd hx (Option.some_ne_none _).symm
            · exact horigin i x hx

/-! ### Steps of the callers -/

/-- A call that is not, or no longer, in the exchange. -/
theorem inv_inactive (h : Inv s) {c : Caller} (hc : ¬ c.phase.IsActive)
    (hcallers : u.callers = update s.callers t c)
    (hway : u.session = s.session ∧ u.sessions = s.sessions ∧ u.toDevice = s.toDevice ∧
      u.toClient = s.toClient ∧ u.hands = s.hands)
    (hfields : (s.callers t).phase.IsActive ∨
      u.requests = s.requests ∧ u.responses = s.responses ∧ u.monitor = s.monitor)
    (hprogress : c.phase ≠ .idle → ∃ before : List Request, c.Progress before)
    (hreturned : ∀ p ∈ u.returned, Answers p.2 p.1) : Inv u := by
  obtain ⟨hsession, hsessions, hdevice, hclient, hhands⟩ := hway
  -- callers that are in the exchange are as before, and the fields are theirs
  have hold : ∀ v, (u.callers v).phase.IsActive → v ≠ t ∧ u.callers v = s.callers v := by
    intro v hv
    rw [hcallers] at hv ⊢
    rcases eq_or_ne v t with rfl | hne
    · exact absurd (by simpa using hv) hc
    · exact ⟨hne, update_of_ne hne ..⟩
  have hsame : ∀ v, (u.callers v).phase.IsActive →
      u.requests = s.requests ∧ u.responses = s.responses ∧ u.monitor = s.monitor := by
    intro v hv
    obtain ⟨hne, heq⟩ := hold v hv
    exact hfields.resolve_left fun ht => hne (h.alone (heq ▸ hv) ht)
  constructor
  case toDevice =>
    rw [hdevice, hsessions]
    exact h.toDevice
  case toClient =>
    rw [hclient, hsessions]
    exact h.toClient
  case session =>
    rw [hsession, hsessions]
    exact h.session
  case serves =>
    intro v hv
    obtain ⟨hreq, hres, -⟩ := hsame v hv
    obtain ⟨-, heq⟩ := hold v hv
    rw [heq] at hv ⊢
    have hs := h.serves hv
    exact ⟨hs.clean.of_subset (hdevice ▸ List.Subset.refl _) (hclient ▸ List.Subset.refl _)
      (hhands ▸ List.Subset.refl _) fun _ hid => hsession ▸ hid, hreq.trans hs.requests,
      hres ▸ hs.responses⟩
  case alone =>
    intro v w hv hw
    exact h.alone ((hold v hv).2 ▸ hv) ((hold w hw).2 ▸ hw)
  case monitor =>
    intro v n hv
    have hactive : (u.callers v).phase.IsActive := hv ▸ trivial
    rw [(hsame v hactive).2.2]
    exact h.monitor ((hold v hactive).2 ▸ hv)
  case progress =>
    intro v hv
    rw [hcallers] at hv ⊢
    rcases eq_or_ne v t with rfl | hne
    · rw [update_self] at hv ⊢
      exact hprogress hv
    · rw [update_of_ne hne] at hv ⊢
      exact h.progress hv
  case returned => exact fun hp => hreturned _ hp

/-- A call fails. -/
theorem inv_leave (h : Inv s) (ht : (s.callers t).phase.IsActive) : Inv (s.leave t) :=
  inv_inactive h (c := { s.callers t with phase := .idle }) not_false rfl
    ⟨rfl, rfl, rfl, rfl, rfl⟩ (.inl ht) (fun hne => absurd rfl hne) fun _ hp => h.returned hp

/-- A caller that has the exchange for itself goes on. -/
theorem inv_active (h : Inv s) (ht : (s.callers t).phase.IsActive) (phase : Phase)
    (hphase : phase.IsActive)
    (hcallers : u.callers = update s.callers t { s.callers t with phase })
    (hmonitor : ∀ n, phase = .sending n → u.monitor = some t)
    (hfields : u.requests = s.requests ∧ u.responses = s.responses ∧ u.returned = s.returned)
    (hway : u.session = s.session ∧ u.sessions = s.sessions ∧ u.toClient = s.toClient ∧
      u.hands = s.hands)
    (hdevice : ∀ q ∈ u.toDevice, q.session < s.sessions)
    (hfits : ∀ q ∈ u.toDevice, s.session = some q.session → FitsAll (s.callers t).chunk q) :
    Inv u := by
  obtain ⟨hsession, hsessions, hclient, hhands⟩ := hway
  obtain ⟨hreq, hres, hret⟩ := hfields
  have hold : ∀ v, (u.callers v).phase.IsActive → v = t := by
    intro v hv
    by_contra hne
    rw [hcallers, update_of_ne hne] at hv
    exact hne (h.alone hv ht)
  have hcaller : u.callers t = { s.callers t with phase } := by rw [hcallers, update_self]
  have hcurrent : (u.callers t).current = (s.callers t).current := by
    rw [current_of_active ht, hcaller]
    exact current_of_active hphase
  constructor
  case toDevice =>
    rw [hsessions]
    exact fun hq => hdevice _ hq
  case toClient =>
    rw [hclient, hsessions]
    exact h.toClient
  case session =>
    rw [hsession, hsessions]
    exact h.session
  case serves =>
    intro v hv
    obtain rfl := hold v hv
    have hs := h.serves ht
    rw [hcaller]
    refine ⟨⟨fun hq hid => hfits _ hq (hsession ▸ hid), ?_, ?_⟩, hreq.trans hs.requests,
      hres ▸ hs.responses⟩
    · rw [hclient, hsession]
      exact hs.clean.toClient
    · rw [hhands]
      exact hs.clean.hands
  case alone => exact fun hv hw => (hold _ hv).trans (hold _ hw).symm
  case monitor =>
    intro v n hv
    obtain rfl := hold v (hv ▸ trivial)
    rw [hcaller] at hv
    exact hmonitor n hv
  case progress =>
    intro v hv
    rcases eq_or_ne v t with rfl | hne
    · obtain ⟨before, hp⟩ := h.progress (t := v) fun hidle => by
        rw [hidle] at ht
        exact ht
      refine ⟨before, ?_, ?_, ?_⟩
      · rw [hcurrent, hcaller]
        exact hp.whole
      · rw [hcaller]
        exact hp.done
      · rw [hcaller]
        exact fun hlen => ⟨(hp.single hlen).1, fun _ => (hp.single hlen).2 ht⟩
    · rw [hcallers, update_of_ne hne] at hv ⊢
      exact h.progress hv
  case returned =>
    rw [hret]
    exact h.returned

/-- A caller gets the monitor, and nothing can be taken for a response to it. -/
theorem inv_start (h : Inv s) (ht : (s.callers t).phase = .admitted)
    (hnone : ∀ v, ¬ (s.callers v).phase.IsActive) (hclean : Clean s (s.nextChunk t)) :
    Inv (s.start t) := by
  have hother : ∀ v, v ≠ t → (s.start t).callers v = s.callers v := fun v hne =>
    update_of_ne hne ..
  have hcaller : (s.start t).callers t = { s.callers t with
      phase := .sending 0, chunk := s.nextChunk t, rest := (s.callers t).rest.drop maxBatch } :=
    update_self ..
  have honly : ∀ v, ((s.start t).callers v).phase.IsActive → v = t := by
    intro v hv
    by_contra hne
    exact hnone v (hother v hne ▸ hv)
  constructor
  case toDevice => exact h.toDevice
  case toClient => exact h.toClient
  case session => exact h.session
  case serves =>
    intro v hv
    obtain rfl := honly v hv
    rw [hcaller]
    refine ⟨⟨hclean.toDevice, hclean.toClient, hclean.hands⟩, rfl, _, rfl, ?_, fun i m hi => ?_⟩
    · exact List.length_replicate
    · exact absurd (List.eq_of_mem_replicate (List.mem_of_getElem? hi)) (Option.some_ne_none _)
  case alone => exact fun hv hw => (honly _ hv).trans (honly _ hw).symm
  case monitor =>
    intro v n hv
    obtain rfl := honly v (hv ▸ trivial)
    rfl
  case progress =>
    intro v hv
    rcases eq_or_ne v t with rfl | hne
    · obtain ⟨before, hp⟩ := h.progress (t := v) (ht ▸ Phase.noConfusion)
      have hwhole : (s.callers v).whole = before ++ (s.callers v).rest := by
        have hcurrent : (s.callers v).current = [] := by rw [Caller.current, ht]
        simpa [hcurrent] using hp.whole
      rw [hcaller]
      refine ⟨before, ?_, hp.done, fun hlen => ?_⟩
      · rw [current_of_active (c := { s.callers v with
          phase := .sending 0, chunk := s.nextChunk v, rest := _ }) trivial, List.append_assoc,
          nextChunk, List.take_append_drop]
        exact hwhole
      · obtain ⟨rfl, -⟩ := hp.single hlen
        refine ⟨rfl, fun _ => List.drop_eq_nil_of_le ?_⟩
        rw [← List.nil_append (s.callers v).rest, ← hwhole]
        exact hlen
    · rw [hother v hne] at hv ⊢
      exact h.progress hv
  case returned => exact h.returned

/-- The next request of the batch is sent. -/
theorem inv_send (h : Inv s) (ht : (s.callers t).phase = .sending n) {req : Request}
    (hreq : (s.callers t).chunk[n]? = some req) : Inv (s.send t n req) := by
  have hactive : (s.callers t).phase.IsActive := ht ▸ trivial
  unfold send
  split
  case h_1 => exact inv_leave h hactive
  case h_2 id hid =>
    refine inv_active h hactive (.sending (n + 1)) trivial rfl
      (fun _ _ => h.monitor ht) ⟨rfl, rfl, rfl⟩ ⟨rfl, rfl, rfl, rfl⟩ (fun q hq => ?_)
      fun q hq hs => ?_
    · rcases List.mem_append.mp hq with hq | hq
      · exact h.toDevice hq
      · rw [List.mem_singleton.mp hq]
        exact h.session hid
    · rcases List.mem_append.mp hq with hq | hq
      · exact (h.serves hactive).clean.toDevice hq hs
      · -- the answers to the request itself fit
        obtain rfl := List.mem_singleton.mp hq
        intro cmd _ q' hq' _
        exact congrArg (fun q => some q.uid) (Option.some.inj (hreq.symm.trans hq'))

/-- All responses are there. -/
theorem inv_finish (h : Inv s) (ht : (s.callers t).phase.IsActive)
    {res : List (Option Message)} (hres : Answers res (s.callers t).chunk) :
    Inv (s.finish t res) := by
  obtain ⟨before, hp⟩ := h.progress (t := t) fun hidle => by
    rw [hidle] at ht
    exact ht
  have hwhole := hp.whole
  rw [current_of_active ht] at hwhole
  have hlen : res.length = (s.callers t).chunk.length := by
    simpa using congrArg List.length hres
  have hdone : Answers ((s.callers t).done ++ res) (before ++ (s.callers t).chunk) := by
    unfold Answers
    rw [List.map_append, List.map_append, hp.done, hres]
  unfold finish
  dsimp only
  split
  case isTrue hsmall =>
    obtain ⟨rfl, hrest⟩ := hp.single hsmall
    refine inv_inactive h (c := { s.callers t with phase := .idle }) not_false rfl
      ⟨rfl, rfl, rfl, rfl, rfl⟩ (.inl ht) (fun hne => absurd rfl hne) fun p hmem => ?_
    rcases List.mem_append.mp hmem with hmem | hmem
    · exact h.returned hmem
    · rw [List.mem_singleton.mp hmem, hwhole, hrest ht, List.append_nil]
      exact hres
  case isFalse hlarge =>
    have hcopy : (s.callers t).copy res = some ((s.callers t).done ++ res) := by
      simp [Caller.copy, hlen]
    rw [hcopy]
    dsimp only
    by_cases hrest : (s.callers t).rest = []
    · rw [if_pos hrest]
      refine inv_inactive h (c := { s.callers t with phase := .idle }) not_false rfl
        ⟨rfl, rfl, rfl, rfl, rfl⟩ (.inl ht) (fun hne => absurd rfl hne) fun p hmem => ?_
      rcases List.mem_append.mp hmem with hmem | hmem
      · exact h.returned hmem
      · rw [List.mem_singleton.mp hmem, hwhole, hrest, List.append_nil]
        exact hdone
    · rw [if_neg hrest]
      refine inv_inactive h (c := { s.callers t with phase := .called, done := _ }) not_false rfl
        ⟨rfl, rfl, rfl, rfl, rfl⟩ (.inl ht) (fun _ => ⟨_, ?_, hdone, ?_⟩)
        fun _ hmem => h.returned hmem
      · rw [Caller.current, List.append_nil]
        exact hwhole
      · exact fun hsmall => absurd hsmall hlarge

/-- A caller looks for its responses. -/
theorem inv_gather (h : Inv s) (ht : (s.callers t).phase.IsActive) : Inv (s.gather t) := by
  have hs := h.serves ht
  obtain ⟨rs, hrs, hlen, horigin⟩ := hs.responses
  rw [gather, hrs]
  dsimp only
  split
  · exact inv_active h ht .waiting trivial rfl (fun _ hne => Phase.noConfusion hne)
      ⟨rfl, rfl, rfl⟩ ⟨rfl, rfl, rfl, rfl⟩ (fun _ hq => h.toDevice hq)
      fun _ hq hid => hs.clean.toDevice hq hid
  · rename_i hall
    refine inv_finish h ht (List.ext_getElem? fun i => ?_)
    rw [List.getElem?_map, List.getElem?_map]
    cases hi : rs[i]? with
    | none =>
        have hout : (s.callers t).chunk[i]? = none :=
          List.getElem?_eq_none (hlen ▸ List.getElem?_eq_none_iff.mp hi)
        rw [hout]
        rfl
    | some r =>
        cases r with
        | none => exact absurd (List.mem_of_getElem? hi) hall
        | some m =>
            obtain ⟨q, hq, hm⟩ := horigin i m hi
            rw [hq]
            exact congrArg some hm

/-- A thread calls. -/
theorem inv_call (h : Inv s) {c : Caller} {uids : ℕ} {reqs : List Request}
    (hc : c = { phase := .called, whole := reqs, chunk := [], rest := reqs, done := [] }) :
    Inv { s.assign t fun _ => c with uids } := by
  have hphase : c.phase = .called := hc ▸ rfl
  have hnot : ¬ c.phase.IsActive := by
    rw [hphase]
    exact not_false
  refine inv_inactive h (c := c) hnot rfl ⟨rfl, rfl, rfl, rfl, rfl⟩ (.inr ⟨rfl, rfl, rfl⟩)
    (fun _ => ⟨[], ?_, ?_, ?_⟩) fun _ hp => h.returned hp
  · subst hc
    exact (List.nil_append _).symm
  · subst hc
    rfl
  · exact fun _ => ⟨rfl, fun hactive => absurd hactive hnot⟩

/-- A caller that has called passes `checkOpen`, or fails there. -/
theorem inv_enter (h : Inv s) (ht : (s.callers t).phase = .called) {phase : Phase}
    (hphase : phase = .idle ∨ phase = .admitted) :
    Inv (s.assign t fun c => { c with phase }) := by
  have hnot : ¬ phase.IsActive := by
    rcases hphase with rfl | rfl <;> exact not_false
  refine inv_inactive h (c := { s.callers t with phase }) hnot rfl ⟨rfl, rfl, rfl, rfl, rfl⟩
    (.inr ⟨rfl, rfl, rfl⟩) (fun _ => ?_) fun _ hp => h.returned hp
  obtain ⟨before, hp⟩ := h.progress (t := t) (ht ▸ Phase.noConfusion)
  refine ⟨before, ?_, hp.done, fun hlen => ⟨(hp.single hlen).1, fun hactive => absurd hactive hnot⟩⟩
  have hcurrent : (s.callers t).current = [] := by rw [Caller.current, ht]
  have hcurrent' : Caller.current { s.callers t with phase } = [] := by
    rcases hphase with rfl | rfl <;> rfl
  rw [hcurrent', ← hcurrent]
  exact hp.whole

/-! ### Runs -/

/-- A caller starts only when no other one waits, and when nothing is on its way that could be
taken for a response to it. -/
def Careful (s : SoxExchange) (e : Event) : Prop :=
  ∀ t, e = .start t → (∀ v, ¬ (s.callers v).phase.IsActive) ∧ Clean s (s.nextChunk t)

theorem inv_initial : Inv initial where
  toDevice hq := absurd hq List.not_mem_nil
  toClient hp := absurd hp List.not_mem_nil
  session hid := absurd hid (Option.some_ne_none _).symm
  serves ht := absurd ht not_false
  alone ht := absurd ht not_false
  monitor hn := Phase.noConfusion hn
  progress hne := absurd rfl hne
  returned hp := absurd hp List.not_mem_nil

/-- **What every step keeps.** -/
theorem inv_next (h : Inv s) {e : Event} (hcareful : Careful s e) (hstep : s.next e = some u) :
    Inv u := by
  cases e with
  | connect =>
      obtain ⟨-, hu⟩ := Option.ite_none_left_eq_some.mp hstep
      exact Option.some.inj hu ▸ inv_connect h
  | close => exact Option.some.inj hstep ▸ inv_close h
  | call t cmds =>
      obtain ⟨-, hu⟩ := Option.ite_none_left_eq_some.mp hstep
      exact Option.some.inj hu ▸ inv_call h rfl
  | enter t =>
      obtain ⟨hcalled, hu⟩ := Option.ite_none_left_eq_some.mp hstep
      split at hu
      · exact Option.some.inj hu ▸ inv_enter h (not_not.mp hcalled) (.inl rfl)
      · exact Option.some.inj hu ▸ inv_enter h (not_not.mp hcalled) (.inr rfl)
  | start t =>
      obtain ⟨hadmitted, hu⟩ := Option.ite_none_left_eq_some.mp hstep
      obtain ⟨hnone, hclean⟩ := hcareful t rfl
      exact Option.some.inj hu ▸ inv_start h (not_not.mp (not_or.mp hadmitted).1) hnone hclean
  | send t =>
      rw [next] at hstep
      split at hstep
      · rename_i n hn
        obtain ⟨req, hreq, hu⟩ := Option.map_eq_some_iff.mp hstep
        exact hu ▸ inv_send h hn hreq
      · exact absurd hstep.symm (Option.some_ne_none _)
  | interrupt t =>
      rw [next] at hstep
      split at hstep
      · rename_i n hn
        obtain ⟨-, hu⟩ := Option.ite_none_right_eq_some.mp hstep
        exact Option.some.inj hu ▸ inv_leave h (hn ▸ trivial)
      · exact absurd hstep.symm (Option.some_ne_none _)
  | check t =>
      rw [next] at hstep
      split at hstep
      · rename_i n hn
        obtain ⟨-, hu⟩ := Option.ite_none_right_eq_some.mp hstep
        exact Option.some.inj hu ▸ inv_gather h (hn ▸ trivial)
      · rename_i hwaiting
        have hactive : (s.callers t).phase.IsActive := hwaiting ▸ trivial
        obtain ⟨-, hu⟩ := Option.ite_none_left_eq_some.mp hstep
        split at hu
        · exact Option.some.inj hu ▸ inv_leave h hactive
        · exact Option.some.inj hu ▸ inv_gather h hactive
      · exact absurd hstep.symm (Option.some_ne_none _)
  | answer i cmd =>
      rw [next] at hstep
      split at hstep
      · exact absurd hstep.symm (Option.some_ne_none _)
      · rename_i q hq
        obtain ⟨hcmd, hu⟩ := Option.ite_none_left_eq_some.mp hstep
        exact Option.some.inj hu ▸ inv_answer h hq (by simpa using hcmd)
  | announce id cmd =>
      obtain ⟨hnot, hu⟩ := Option.ite_none_left_eq_some.mp hstep
      obtain ⟨hcmd, hid⟩ := not_or.mp hnot
      exact Option.some.inj hu ▸ inv_announce h (not_not.mp hcmd) (Nat.not_le.mp hid)
  | loseRequest i =>
      exact Option.some.inj hstep ▸ inv_lose h (List.eraseIdx_sublist ..).subset
        (List.Subset.refl _) (List.Subset.refl _)
  | loseMessage i =>
      exact Option.some.inj hstep ▸ inv_lose h (List.Subset.refl _)
        (List.eraseIdx_sublist ..).subset (List.Subset.refl _)
  | take i =>
      rw [next] at hstep
      split at hstep
      · exact absurd hstep.symm (Option.some_ne_none _)
      · rename_i id m hm
        obtain ⟨hsession, hu⟩ := Option.ite_none_left_eq_some.mp hstep
        exact Option.some.inj hu ▸ inv_take h hm (not_not.mp hsession)
  | dispatch i =>
      rw [next] at hstep
      split at hstep
      · exact absurd hstep.symm (Option.some_ne_none _)
      · rename_i m hm
        have hrest : Inv { s with hands := s.hands.eraseIdx i } :=
          inv_lose h (List.Subset.refl _) (List.Subset.refl _) (List.eraseIdx_sublist ..).subset
        dsimp only at hstep
        split at hstep
        · exact Option.some.inj hstep ▸ hrest
        · rename_i hcmd
          obtain ⟨-, hu⟩ := Option.ite_none_left_eq_some.mp hstep
          exact Option.some.inj hu ▸ inv_receive hrest
            (fun t ht => (h.serves ht).clean.hands (List.mem_of_getElem? hm)) hcmd

theorem inv_of_reachable (h : (system.restrict Careful).Reachable s) : Inv s := by
  refine h.invariant (I := Inv) ?_ ?_
  · rintro _ rfl
    exact inv_initial
  · rintro v e w hv ⟨hcareful, hstep⟩
    exact inv_next hv hcareful hstep

/-- **Responses answer their requests**, in every run in which each caller starts when no other
one waits and when nothing on its way could be taken for a response to it. -/
theorem responses_match (h : (system.restrict Careful).Reachable s) {req : List Request}
    {res : List (Option Message)} (hreturned : (req, res) ∈ s.returned) : Answers res req :=
  (inv_of_reachable h).returned hreturned

/-! ### Two runs -/

/-- A caller asks for the version, and is answered. -/
def asked : List Event :=
  [.connect, .call 0 [code 'v'], .enter 0, .start 0, .send 0, .check 0, .answer 0 (code 'V'),
    .take 0, .dispatch 0, .check 0]

/-- The first of two callers waits in its batch when the second one starts. -/
def overtaken : List Event :=
  [.connect, .call 0 [code 'v'], .enter 0, .start 0, .send 0, .check 0,
    .call 1 [code 'v'], .enter 1, .start 1, .send 1, .check 1,
    .answer 0 (code 'V'), .take 0, .dispatch 0, .check 1]

/-- Steps that are not starts are careful. -/
theorem reachable_of_run (tr : List Event) (h : (system.restrict Careful).Reachable s)
    (hrun : run next s tr = some u) (hcareful : ∀ s, ∀ e ∈ tr, Careful s e) :
    (system.restrict Careful).Reachable u := by
  induction tr generalizing s with
  | nil =>
      obtain rfl : s = u := Option.some.inj hrun
      exact h
  | cons e tr ih =>
      obtain ⟨v, hstep, hrest⟩ := Option.bind_eq_some_iff.mp hrun
      exact ih (h.tail ⟨hcareful s e List.mem_cons_self, hstep⟩) hrest
        fun s e he => hcareful s e (List.mem_cons_of_mem _ he)

/-- What a run leads to. -/
def after (tr : List Event) : SoxExchange := (run next initial tr).getD initial

theorem asked_reachable : (system.restrict Careful).Reachable (after asked) := by
  have hquiet : ∀ tr : List Event, (∀ e ∈ tr, ∀ t, e ≠ .start t) →
      ∀ s, ∀ e ∈ tr, Careful s e := fun tr htr s e he t hstart => absurd hstart (htr e he t)
  have hbefore : (system.restrict Careful).Reachable (after (asked.take 3)) :=
    reachable_of_run (asked.take 3) (.start rfl) rfl (hquiet _ (by simp [asked]))
  have hstart : (system.restrict Careful).Reachable (after (asked.take 4)) := by
    refine hbefore.tail (a := .start 0) ⟨fun t _ => ⟨fun v => ?_, ?_⟩, rfl⟩
    · rcases eq_or_ne v 0 with rfl | hne
      · exact not_false
      · have hidle : ((after (asked.take 3)).callers v) = initial.callers v :=
          (update_of_ne hne ..).trans (update_of_ne hne ..)
        rw [hidle]
        exact not_false
    · exact ⟨fun hq => absurd hq List.not_mem_nil, fun hp => absurd hp List.not_mem_nil,
        fun hm => absurd hm List.not_mem_nil⟩
  exact reachable_of_run (asked.drop 4) hstart rfl (hquiet _ (by simp [asked]))

theorem responses_match_asked :
    Answers [some { cmd := code 'V', replyNum := 0, origin := some 0 }]
      [{ uid := 0, cmd := code 'v' }] :=
  responses_match asked_reachable (List.mem_singleton.mpr rfl)

/-- The second caller is given the answer to the first one. -/
theorem not_responses_match :
    ¬ ∀ s : SoxExchange, system.Reachable s →
      ∀ (req : List Request) (res : List (Option Message)),
        (req, res) ∈ s.returned → Answers res req := by
  intro h
  have hrun : run next initial overtaken = some (after overtaken) := rfl
  have hreach : system.Reachable (after overtaken) := .of_run (.start rfl) hrun
  exact absurd (h _ hreach [{ uid := 1, cmd := code 'v' }]
    [some { cmd := code 'V', replyNum := 0, origin := some 0 }] (List.mem_singleton.mpr rfl))
    (by decide)

end SoxExchange

end Sedona.Sox.Client
