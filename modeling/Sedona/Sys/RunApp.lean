import Sedona.Sys.AppInv

/-!
# The Scan Engine

`App.resumeApp`: cycles in which the tree is executed and the services work, until the app is
stopped, hibernates or yields. What components, services, the platform and the clock do is a
parameter: a callback may change the application's `data` and `running`, its settings, and
`runStatus`, and it may depend on everything that has happened before. It does not edit the tree.

Every call is entered in a log, and so is the point where a cycle, or a part of one, begins or ends.
-/

namespace Sedona

variable {δ : Type}

/-! ### Data -/

/-- `Err.yield`. -/
def yieldStatus : ℕ := 253

/-- `Err.hibernate`. -/
def hibernateStatus : ℕ := 255

/-- The properties of the app, and what `isSteadyState` keeps. -/
structure Settings where
  scanPeriod : Int32
  guardTime : Int32
  timeToSteadyState : Int32
  hibernationResetsSteadyState : Bool
  atSteadyState : Bool

/-- The virtual methods that answer. -/
inductive Question where
  | allowChildExecute (c : Ref)
  | work (s : Ref)
  | canHibernate (s : Ref)
  | workDuringFreeTime (ns : Int64)
  | yieldRequired
deriving DecidableEq

/-- The methods that do not. -/
inductive Notice where
  | propagate (link : Ref)
  | execute (c : Ref)
  | onHibernate (s : Ref)
  | onUnhibernate (s : Ref)
  | yield (ns : Int64)
deriving DecidableEq

/-- What a callback assigns: the flag `running`, and `runStatus`, if at all. -/
structure Control where
  running : Bool
  runStatus : Option ℕ
deriving DecidableEq

/-- An entry of the log. -/
inductive Event where
  | asked (q : Question) (answer : Bool) (control : Control)
  | told (n : Notice) (control : Control)
  /-- `resumeApp` starts to run. -/
  | resume
  /-- A cycle begins. -/
  | cycle
  /-- All services have had a turn. -/
  | pass
  /-- The work of the cycle is over. -/
  | endWork
deriving DecidableEq

/-- What a callback leaves. -/
structure Edit (δ : Type) extends Control where
  data : δ
  settings : Settings

/-- The application with the fields that the scan engine uses. -/
structure Engine (δ : Type) where
  app : App δ
  settings : Settings
  runStatus : ℕ
  steadyAt : Int64
  cycleCount : Int64
  lastStartExec : Int64
  newStartExec : Int64
  lastStartWork : Int64
  lastEndWork : Int64
  log : List Event

/-- The code behind the callbacks, and the clock. -/
structure World (δ : Type) where
  ask : Question → Engine δ → Bool × Edit δ
  tell : Notice → Engine δ → Edit δ
  ticks : Engine δ → Int64
  sleep : Int64 → Engine δ → δ

/-- Milliseconds in nanoseconds. -/
def nanos (ms : Int32) : Int64 := ms.toInt64 * 1000000

namespace Engine

variable (w : World δ) (e : Engine δ)

/-- A mark in the log. -/
def mark (ev : Event) : Engine δ := { e with log := e.log ++ [ev] }

/-- What a callback has assigned. -/
def edit (d : Edit δ) : Engine δ :=
  { e with
    app := { e.app with data := d.data, running := d.running }
    settings := d.settings
    runStatus := d.runStatus.getD e.runStatus }

/-- Invoke a method that answers. -/
def ask (q : Question) : Bool × Engine δ :=
  let (answer, d) := w.ask q e
  (answer, (e.edit d).mark (.asked q answer d.toControl))

/-- Invoke a method that does not. -/
def tell (n : Notice) : Engine δ :=
  let d := w.tell n e
  (e.edit d).mark (.told n d.toControl)

/-! ### Loops -/

/-- Enough for all lists of an application. -/
def loopFuel : ℕ := nullId + 1

/-- `for (x = first; x != null; x = next) body`. -/
def forEach (next : App δ → Ref → Option Ref) (body : Ref → Engine δ → Option (Engine δ)) :
    ℕ → Ref → Engine δ → Option (Engine δ)
  | 0, _, _ => none
  | n + 1, x, e =>
      if x = 0 then some e
      else do
        let e ← body x e
        let y ← next e.app x
        forEach next body n y e

/-- `lookup(kid.nextSibling)`. -/
def nextKid (a : App δ) (kid : Ref) : Option Ref := (a.objs kid).map fun c => a.lookup c.nextSibling

/-- `Component.propagateLinksTo`. -/
def propagateLinksTo (c : Ref) (e : Engine δ) : Option (Engine δ) := do
  let obj ← e.app.objs c
  forEach (App.nextOn · .into) (fun link e => some (e.tell w (.propagate link))) loopFuel obj.linksTo e

/-- `App.executeTree`. -/
def executeTree : ℕ → Ref → Engine δ → Option (Engine δ)
  | 0, _, _ => none
  | n + 1, c, e => do
      let obj ← e.app.objs c
      let e ←
        (if obj.children = nullId then some e
        else
          let (allow, e) := e.ask w (.allowChildExecute c)
          if allow then forEach nextKid (executeTree n) loopFuel (e.app.lookup obj.children) e
          else some e)
      let e ← propagateLinksTo w c e
      some (e.tell w (.execute c))

/-- Tell all services. -/
def tellServices (n : Ref → Notice) (e : Engine δ) : Option (Engine δ) :=
  forEach App.svcNext (fun s e => some (e.tell w (n s))) loopFuel e.app.services e

/-- A turn of all services: `more` and `canHibernate`. -/
def turns : ℕ → Ref → Bool → Bool → Engine δ → Option (Bool × Bool × Engine δ)
  | 0, _, _, _, _ => none
  | n + 1, s, more, canHibernate, e =>
      if s = 0 then some (more, canHibernate, e)
      else do
        let (pending, e) := e.ask w (.work s)
        let (can, e) := e.ask w (.canHibernate s)
        let t ← e.app.svcNext s
        turns n t (more || pending) (canHibernate && can) e

/-- A round of work: every service gets a chance to do some, and to override any requests for
hibernation. It results in `more`, `canHibernate` and `nsUntilDeadline`. -/
def round (deadline : Int64) (canHibernate : Bool) (e : Engine δ) :
    Option (Bool × Bool × Int64 × Engine δ) := do
  let (more, canHibernate, e) ← turns w loopFuel e.app.services false canHibernate e
  let e := e.mark .pass
  let e := if canHibernate then { e with runStatus := hibernateStatus } else e
  some (more, canHibernate, deadline - w.ticks e, e)

/-- The loop of `resumeApp` in which the services work. It results in `nsUntilDeadline`, or in
nothing yet. -/
def workLoop (deadline : Int64) :
    ℕ → Bool → Bool → Int64 → Engine δ → Option (Option Int64 × Engine δ)
  | n, more, canHibernate, ns, e =>
      if more && e.app.running then do
        let (more, canHibernate, ns, e) ← round w deadline canHibernate e
        if ns < nanos e.settings.guardTime then some (some ns, e)
        else
          let (free, e) := e.ask w (.workDuringFreeTime ns)
          match n with
          | 0 => some (none, e)
          | n + 1 => workLoop deadline n (free || more) canHibernate ns e
      else some (some ns, e)

/-- The part of a cycle behind the work. It results in the status to return, if any. -/
def endCycle (ns : Int64) (e : Engine δ) : Option (Option ℕ × Engine δ) := do
  let e := { e with lastEndWork := w.ticks e }
  if e.runStatus = hibernateStatus then
    let e ← tellServices w .onHibernate e
    some (some e.runStatus, e)
  else
    let (yields, e) := e.ask w .yieldRequired
    if yields then
      let e := e.tell w (.yield ns)
      some (some yieldStatus, { e with runStatus := yieldStatus })
    else some (none, { e with app := { e.app with data := w.sleep ns e } })

/-- The loop of `resumeApp`. It results in the status that is returned, or in nothing yet: the app
runs on, or the services of a cycle do. -/
def runLoop (m : ℕ) : ℕ → Int64 → Int64 → Engine δ → Option (Option ℕ × Engine δ)
  | 0, _, _, e => some (none, e)
  | n + 1, deadline, ns, e =>
      if !e.app.running then some (some e.runStatus, e)
      else do
        let e := { e.mark .cycle with cycleCount := e.cycleCount + 1, lastStartExec := e.newStartExec }
        let e := { e with newStartExec := w.ticks e }
        let deadline := deadline + nanos e.settings.scanPeriod
        let e ← executeTree w loopFuel e.app.self e
        let e := { e with lastStartWork := w.ticks e }
        let (done, e) ← workLoop w deadline m true true ns e
        match done with
        | none => some (none, e)
        | some ns =>
            let (status, e) ← endCycle w ns (e.mark .endWork)
            match status with
            | some status => some (some status, e)
            | none => runLoop m n deadline ns e

/-- `App.resumeApp`, with up to `n` cycles and `m` more rounds of work in each. -/
def resumeApp (m n : ℕ) (e : Engine δ) : Option (Option ℕ × Engine δ) := do
  let e ←
    (if e.runStatus = hibernateStatus then
      let e :=
        if e.settings.hibernationResetsSteadyState then
          { e with
            settings := { e.settings with atSteadyState := false }
            steadyAt := w.ticks e + nanos e.settings.timeToSteadyState }
        else e
      tellServices w .onUnhibernate e
    else some e)
  let e := { e.mark .resume with app := { e.app with running := true }, runStatus := 0 }
  let deadline := w.ticks e
  let e := { e with lastEndWork := deadline }
  runLoop w m n deadline 0 e

end Engine

end Sedona
