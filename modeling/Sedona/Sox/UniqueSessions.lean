import Sedona.Sox.SoxSession

/-!
# One Open Session per Client

A hello opens a session and closes another one of the same client. The search for it also finds
sessions that have been closed before, and stops at the first one.

## Main results

* `unique_of_runs`: no two open sessions are those of the same client, in every run whose hellos
  find the open session first.
* `not_unique`: a run after which two sessions of one client are open.
-/

namespace Sedona.Sox

open Transition

variable {Addr : Type} {svc svc' svc'' : SoxService Addr} {addr : Addr} {i : ℕ} {env : Env}
  {sha1 : List (BitVec 8) → List (BitVec 8)}

/-- The client of a session: its address and its session id. -/
def SoxSession.client (s : SoxSession Addr) : Addr × BitVec 16 := (s.addr, s.remoteId)

/-- No two open sessions have the same client. -/
def Unique (svc : SoxService Addr) : Prop :=
  ∀ (i j : ℕ) (s t : SoxSession Addr), svc.sessions[i]? = some s → svc.sessions[j]? = some t →
    i ≠ j → s.closed = false → t.closed = false → s.client ≠ t.client

/-- A closed session of the client does not lie before an open one, the slot `i` left out. -/
def OpenFirst (svc : SoxService Addr) (i : ℕ) (client : Addr × BitVec 16) : Prop :=
  ∀ (j k : ℕ) (t u : SoxSession Addr), svc.sessions[j]? = some t → svc.sessions[k]? = some u →
    j ≠ i → k ≠ i → t.client = client → u.client = client → t.closed = false → k < j →
    u.closed = false

/-- If the message is a hello of the right version, a closed session of its client does not lie
before an open one, other than in the slot that it opens. -/
def HelloMeets (svc : SoxService Addr) (addr : Addr) (msgType : ℤ) (input : BufInStream) : Prop :=
  ∀ (i : ℕ) (s : SoxSession Addr), svc.sessions.findIdx? (fun s => !s.watched) = some i →
    svc.sessions[i]? = some s → msgType / 16 % 16 = 1 →
    ((parseHello (msgType % 16).toNat { idealMax := s.idealMax }).run input).1.version = 0x0100 →
    OpenFirst svc i (addr, BitVec.ofInt 16
      ((parseHello (msgType % 16).toNat { idealMax := s.idealMax }).run input).1.remoteId)

def Meets (svc : SoxService Addr) : Event Addr → Prop
  | .houseKeeping _ => True
  | .receive addr packet _ =>
      HelloMeets svc addr (SoxService.parseHeader.run packet).1.2.2
        (SoxService.parseHeader.run packet).2

/-! ### Steps that open nothing -/

/-- The open sessions have been open before, for the same client. -/
def Shrinks (svc svc' : SoxService Addr) : Prop :=
  ∀ (j : ℕ) (t' : SoxSession Addr), svc'.sessions[j]? = some t' → t'.closed = false →
    ∃ t, svc.sessions[j]? = some t ∧ t.closed = false ∧ t.client = t'.client

theorem Shrinks.refl (svc : SoxService Addr) : Shrinks svc svc :=
  fun _ t h hopen => ⟨t, h, hopen, rfl⟩

theorem Shrinks.trans (h : Shrinks svc svc') (h' : Shrinks svc' svc'') : Shrinks svc svc'' := by
  intro j t'' hj hopen
  obtain ⟨t', hj', hopen', hclient'⟩ := h' j t'' hj hopen
  obtain ⟨t, hj, hopen, hclient⟩ := h j t' hj' hopen'
  exact ⟨t, hj, hopen, hclient.trans hclient'⟩

theorem Unique.shrinks (h : Unique svc) (hshrinks : Shrinks svc svc') : Unique svc' := by
  intro i j s' t' hi hj hne hs' ht'
  obtain ⟨s, hi, hs, hclient⟩ := hshrinks i s' hi hs'
  obtain ⟨t, hj, ht, hclient'⟩ := hshrinks j t' hj ht'
  rw [← hclient, ← hclient']
  exact h i j s t hi hj hne hs ht

theorem getElem?_modify_self (svc : SoxService Addr) (i : ℕ) (f : SoxSession Addr → SoxSession Addr) :
    (svc.modify i f).sessions[i]? = svc.sessions[i]?.map f := by
  simp [SoxService.modify]

theorem getElem?_modify_of_ne {j : ℕ} (h : j ≠ i) (f : SoxSession Addr → SoxSession Addr) :
    (svc.modify i f).sessions[j]? = svc.sessions[j]? := by
  simp [SoxService.modify, h.symm]

theorem shrinks_modify {f : SoxSession Addr → SoxSession Addr}
    (hopen : ∀ s, (f s).closed = false → s.closed = false) (hclient : ∀ s, (f s).client = s.client) :
    Shrinks svc (svc.modify i f) := by
  intro j t' hj ht'
  by_cases hne : j = i
  · subst hne
    rw [getElem?_modify_self] at hj
    obtain ⟨t, ht, rfl⟩ := Option.map_eq_some_iff.mp hj
    exact ⟨t, ht, hopen t ht', (hclient t).symm⟩
  · rw [getElem?_modify_of_ne hne] at hj
    exact ⟨t', hj, ht', rfl⟩

theorem shrinks_closeSession : Shrinks svc (svc.closeSession i) :=
  shrinks_modify (fun _ h => by cases h) fun _ => rfl

theorem shrinks_houseKeeping (now : ℤ) : Shrinks svc (svc.houseKeeping now) := by
  intro j t' hj ht'
  rw [SoxService.houseKeeping, List.getElem?_map] at hj
  obtain ⟨t, ht, rfl⟩ := Option.map_eq_some_iff.mp hj
  refine ⟨t, ht, ?_⟩
  split at ht'
  · cases ht'
  · next hlate =>
    rw [if_neg hlate]
    exact ⟨ht', rfl⟩

theorem shrinks_welcome (numFields : ℕ) (input : BufInStream) :
    Shrinks svc (svc.welcome sha1 i numFields input).2 := by
  have huser : ∀ user, Shrinks svc (svc.modify i fun s => { s with user }) := fun user =>
    shrinks_modify (fun _ h => h) fun _ => rfl
  unfold SoxService.welcome
  split
  · exact .refl svc
  · split
    split
    · exact .refl svc
    · split
      · exact .refl svc
      · dsimp only
        split
        · exact (huser _).trans shrinks_closeSession
        · exact huser _

/-! ### A hello -/

/-- What is known after a slot has been opened: the other sessions are those of before. -/
structure Opened (svc : SoxService Addr) (i : ℕ) (svc' : SoxService Addr) : Prop where
  others {j : ℕ} (h : j ≠ i) : svc'.sessions[j]? = svc.sessions[j]?

theorem Opened.modify (h : Opened svc i svc') (f : SoxSession Addr → SoxSession Addr) :
    Opened svc i (svc'.modify i f) where
  others hj := (getElem?_modify_of_ne hj f).trans (h.others hj)

theorem opened_openSession {found : ℕ × SoxService Addr}
    (h : svc.openSession addr env = some found) : Opened svc found.1 found.2 ∧
      svc.sessions.findIdx? (fun s => !s.watched) = some found.1 ∧
      found.2.sessions[found.1]?.map (fun s => (s.addr, s.idealMax)) =
        svc.sessions[found.1]?.map (fun s => (addr, s.idealMax)) := by
  unfold SoxService.openSession SoxService.openWatch at h
  rw [Option.map_map] at h
  obtain ⟨i, hi, rfl⟩ := Option.map_eq_some_iff.mp h
  refine ⟨⟨fun hj => ?_⟩, hi, ?_⟩
  · exact (getElem?_modify_of_ne hj _).trans (getElem?_modify_of_ne hj _)
  · dsimp only [Function.comp_apply]
    rw [getElem?_modify_self, getElem?_modify_self, Option.map_map, Option.map_map]
    rfl

/-- If the slot is closed again then nothing has been opened. -/
theorem Opened.shrinks (h : Opened svc i svc')
    (hclosed : ∀ s, svc'.sessions[i]? = some s → s.closed = true) : Shrinks svc svc' := by
  intro j t' hj ht'
  by_cases hne : j = i
  · subst hne
    rw [hclosed t' hj] at ht'
    cases ht'
  · exact ⟨t', (h.others hne).symm.trans hj, ht', rfl⟩

theorem closed_closeSession {s : SoxSession Addr} (h : (svc.closeSession i).sessions[i]? = some s) :
    s.closed = true := by
  rw [SoxService.closeSession, getElem?_modify_self] at h
  obtain ⟨t, -, rfl⟩ := Option.map_eq_some_iff.mp h
  rfl

/-- Only the slot that has been opened can have the new client. -/
theorem Unique.opened (h : Unique svc) (i : ℕ) (client : Addr × BitVec 16)
    (hothers : ∀ j t, j ≠ i → svc'.sessions[j]? = some t → t.closed = false →
      t.client ≠ client ∧ svc.sessions[j]? = some t)
    (hself : ∀ s, svc'.sessions[i]? = some s → s.client = client) : Unique svc' := by
  intro j k t u hj hk hne ht hu
  by_cases hji : j = i
  · subst hji
    rw [hself t hj]
    exact (hothers k u hne.symm hk hu).1.symm
  by_cases hki : k = i
  · subst hki
    rw [hself u hk]
    exact (hothers j t hji hj ht).1
  · exact h j k t u (hothers j t hji hj ht).2 (hothers k u hki hk hu).2 hne ht hu

variable [DecidableEq Addr]

/-- The first other session of the client is closed. -/
theorem closeDup_cases (svc : SoxService Addr) (i : ℕ) (s : SoxSession Addr) :
    (svc.closeDup i s = svc ∧ ∀ j t, svc.sessions[j]? = some t → j ≠ i → t.client ≠ s.client) ∨
    ∃ j t, svc.closeDup i s = svc.closeSession j ∧ svc.sessions[j]? = some t ∧ j ≠ i ∧
      t.client = s.client ∧
      ∀ k u, svc.sessions[k]? = some u → k ≠ i → k < j → u.client ≠ s.client := by
  unfold SoxService.closeDup
  have hmatch : ∀ (t : SoxSession Addr) (j : ℕ),
      (decide (j ≠ i ∧ t.remoteId = s.remoteId ∧ t.addr = s.addr) = true) ↔
        j ≠ i ∧ t.client = s.client := by
    intro t j
    simp only [decide_eq_true_eq, SoxSession.client, Prod.mk.injEq, and_comm (a := t.addr = _)]
  have hget : ∀ (k : ℕ) (u : SoxSession Addr), svc.sessions[k]? = some u →
      svc.sessions.zipIdx[k]? = some (u, k) := by
    intro k u hk
    rw [List.getElem?_zipIdx, hk, Nat.zero_add]
    rfl
  split
  · next t j hfind =>
    obtain ⟨hp, k, hk, heq, hbefore⟩ := List.find?_eq_some_iff_getElem.mp hfind
    obtain ⟨hne, hclient⟩ := (hmatch t j).mp hp
    have hlen : k < svc.sessions.length := by rwa [List.length_zipIdx] at hk
    rw [List.getElem_zipIdx, Nat.zero_add, Prod.mk.injEq] at heq
    obtain ⟨rfl, rfl⟩ := heq
    refine .inr ⟨k, _, rfl, List.getElem?_eq_getElem hlen, hne, hclient, ?_⟩
    intro l u hl hne' hlt hclient'
    have hnot := hbefore l hlt
    have hu := hget l u hl
    rw [List.getElem?_eq_getElem (hlt.trans hk), Option.some.injEq] at hu
    rw [hu] at hnot
    simp only [(hmatch u l).mpr ⟨hne', hclient'⟩, Bool.not_true, Bool.false_eq_true] at hnot
  · next hfind =>
    refine .inl ⟨rfl, fun j t hj hne hclient => ?_⟩
    have hnot := List.find?_eq_none.mp hfind (t, j) (List.mem_of_getElem? (hget j t hj))
    exact hnot ((hmatch t j).mpr ⟨hne, hclient⟩)

/-- No other open session of the client is left, if an open one comes first. -/
theorem client_ne_of_closeDup {s : SoxSession Addr} (h : Unique svc) (hfirst : OpenFirst svc i s.client)
    (hopened : Opened svc i svc') {j : ℕ} {t : SoxSession Addr} (hne : j ≠ i)
    (hj : (svc'.closeDup i s).sessions[j]? = some t) (ht : t.closed = false) :
    t.client ≠ s.client ∧ svc.sessions[j]? = some t := by
  obtain ⟨heq, hnone⟩ | ⟨k, u, heq, hk, hk', hclient, hbefore⟩ := closeDup_cases svc' i s
  · rw [heq] at hj
    exact ⟨hnone j t hj hne, (hopened.others hne).symm.trans hj⟩
  rw [heq] at hj
  by_cases hjk : j = k
  · rw [hjk] at hj
    rw [closed_closeSession hj] at ht
    cases ht
  rw [SoxService.closeSession, getElem?_modify_of_ne hjk] at hj
  have hj' := (hopened.others hne).symm.trans hj
  refine ⟨fun hsame => ?_, hj'⟩
  -- The session that was found is an earlier one, hence open: there were two before.
  have hlt : k < j := by
    by_contra hle
    exact hbefore j t hj hne (by omega) hsame
  have hk'' := (hopened.others hk').symm.trans hk
  have hopen := hfirst j k t u hj' hk'' hne hk' hsame hclient ht hlt
  exact h j k t u hj' hk'' hjk ht hopen (hsame.trans hclient.symm)

theorem closeDup_self (svc : SoxService Addr) (i : ℕ) (s : SoxSession Addr) :
    (svc.closeDup i s).sessions[i]? = svc.sessions[i]? := by
  obtain ⟨heq, -⟩ | ⟨j, t, heq, -, hne, -⟩ := closeDup_cases svc i s
  · rw [heq]
  · rw [heq]
    exact getElem?_modify_of_ne hne.symm _

/-- The session of the hello has its client. -/
theorem Unique.challenge (h : Unique svc) (hopened : Opened svc i svc')
    {s : SoxSession Addr} (hs : svc'.sessions[i]? = some s) (numFields : ℕ) (input : BufInStream)
    (hfirst : ((parseHello numFields { idealMax := s.idealMax }).run input).1.version = 0x0100 →
      OpenFirst svc i (s.addr, BitVec.ofInt 16
        ((parseHello numFields { idealMax := s.idealMax }).run input).1.remoteId)) :
    Unique (svc'.challenge i numFields input env).2 := by
  unfold SoxService.challenge
  rw [hs]
  dsimp only
  generalize (parseHello numFields { idealMax := s.idealMax }).run input = parsed at hfirst ⊢
  obtain ⟨hello, rest⟩ := parsed
  dsimp only at hfirst ⊢
  split
  · exact h.shrinks (((hopened.modify _).modify _).shrinks fun _ => closed_closeSession)
  · next hversion =>
    rw [Decidable.not_not] at hversion
    refine Unique.opened h i (s.addr, BitVec.ofInt 16 hello.remoteId) ?_ ?_
    · intro j t hne hj ht
      rw [getElem?_modify_of_ne hne] at hj
      exact client_ne_of_closeDup h (hfirst hversion) (hopened.modify _) hne hj ht
    · intro t hi
      rw [getElem?_modify_self, closeDup_self, getElem?_modify_self, hs] at hi
      obtain rfl := Option.some.inj hi
      rfl

theorem Unique.dispatch (h : Unique svc) {packet : BufInStream}
    (hmeets : Meets svc (.receive addr packet env)) :
    Unique (svc.dispatch sha1 addr packet env).2 := by
  rcases hparsed : SoxService.parseHeader.run packet with ⟨⟨sessionId, seqNum, msgType⟩, input⟩
  have hmeets : HelloMeets svc addr msgType input := by
    rwa [Meets, hparsed] at hmeets
  simp only [SoxService.dispatch, hparsed]
  split
  · exact h
  next i svc₁ hfound =>
  split at hfound
  · next hopens =>
    obtain ⟨hopened, hslot, haddr⟩ := opened_openSession hfound
    dsimp only at hopened hslot haddr
    have hopened' := hopened.modify fun s => { s with lastReceiveTicks := env.ticks }
    split
    · next hhello =>
      obtain ⟨hlt, -⟩ := List.findIdx?_eq_some_iff_getElem.mp hslot
      have hs₀ := List.getElem?_eq_getElem hlt
      rw [hs₀] at haddr
      obtain ⟨s₁, hs₁, heq⟩ := Option.map_eq_some_iff.mp haddr
      obtain ⟨haddr, hidealMax⟩ := Prod.mk.inj heq
      have hs : (svc₁.modify i fun s => { s with lastReceiveTicks := env.ticks }).sessions[i]? =
          some { s₁ with lastReceiveTicks := env.ticks } := by
        rw [getElem?_modify_self, hs₁]
        rfl
      have hfirst := hmeets i _ hslot hs₀ hhello
      rw [← hidealMax, ← haddr] at hfirst
      refine Unique.shrinks ?_ (shrinks_modify (fun _ h => h) fun _ => rfl)
      exact h.challenge hopened' hs _ _ hfirst
    · next hhello =>
      have hdiscover : msgType / 16 % 16 = 0 := hopens.resolve_left hhello
      rw [if_neg (by omega), if_neg (by omega), if_pos hdiscover]
      exact h.shrinks ((hopened'.modify _).shrinks fun _ => closed_closeSession)
  · next hopens =>
    obtain ⟨j, hj, heq⟩ := Option.map_eq_some_iff.mp hfound
    obtain ⟨rfl, rfl⟩ := Prod.mk.inj heq
    have hticks : Shrinks svc (svc.modify j fun s => { s with lastReceiveTicks := env.ticks }) :=
      shrinks_modify (fun _ h => h) fun _ => rfl
    rw [if_neg fun h => hopens (.inl h)]
    refine h.shrinks (hticks.trans ?_)
    split_ifs
    · exact shrinks_welcome _ _
    · exact shrinks_closeSession
    · exact shrinks_closeSession
    · exact shrinks_modify (fun _ h => h) fun _ => rfl

/-- In every run whose hellos find an open session of their client before the closed ones, no two
open sessions have the same client. -/
theorem unique_of_runs (sha1 : List (BitVec 8) → List (BitVec 8))
    (h : ((sessionSystem sha1).restrict Meets).Reachable svc) : Unique svc := by
  refine h.invariant (I := Unique) ?_ ?_
  · intro svc hinit i j s t hi _ _ hs
    have hclosed := (hinit.2 s (List.mem_of_getElem? hi)).1
    rw [hs] at hclosed
    cases hclosed
  · rintro svc e svc' h ⟨hmeets, rfl⟩
    cases e with
    | receive addr packet env => exact h.dispatch hmeets
    | houseKeeping now => exact h.shrinks (shrinks_houseKeeping now)

/-! ### An example -/

namespace StaleSlot

/-- A closed session of the client 5 at the address 1. -/
def session : SoxSession ℕ where
  watched := false
  rand := 0
  closed := true
  addr := 0
  remoteId := 0
  idealMax := 0
  receiveTimeout := 0
  lastReceiveTicks := 0
  nonce := 0
  user := none
  receiveWindow := Dasp.Device.fresh
  seqNum := 0

def service : SoxService ℕ where
  sessions := List.replicate 4 session
  receiveMax := 8
  users := none
  idealMaxVal := 512
  platformId := []

def random : Env where
  ticks := 0
  watchRand := 7
  seqRand := 0
  nonce := 0
  receiveWindow := Dasp.Device.fresh
  seqNum := 0

def packet (bytes : List (BitVec 8)) : BufInStream where
  bytes i := bytes.getD i 0
  size := bytes.length

/-- A hello with a session id of the client. -/
def hello (remoteId : BitVec 8) : BufInStream :=
  packet [0xff, 0xff, 0, 0, 0x12, 0x05, 0x01, 0x00, 0x09, 0x00, remoteId]

/-- A close message for a session of the device. -/
def close (index : BitVec 8) : BufInStream := packet [7, index, 0xff, 0xff, 0x70]

/-- A client opens a session, opens another one twice, closes the first one, and opens the other one
again. -/
def events : List (Event ℕ) :=
  [.receive 1 (hello 4) random, .receive 1 (hello 5) random, .receive 1 (hello 5) random,
    .receive 1 (close 0) random, .receive 1 (hello 5) random]

def system : System (SoxService ℕ) (Event ℕ) := sessionSystem fun _ => []

def next (svc : SoxService ℕ) (e : Event ℕ) : SoxService ℕ := svc.next (fun _ => []) e

theorem reachable_events : system.Reachable (events.foldl next service) := by
  have hstart : system.Reachable service := .start ⟨rfl, by decide⟩
  generalize service = svc at hstart
  induction events generalizing svc with
  | nil => exact hstart
  | cons e es ih => exact ih _ (hstart.tail rfl)

/-- Two sessions of the client are open: the closed session has been found instead of the second
one. -/
theorem not_unique : ¬∀ svc : SoxService ℕ, system.Reachable svc → Unique svc := by
  intro h
  have hopen : ∀ i ∈ [0, 2], ∃ s, (events.foldl next service).sessions[i]? = some s ∧
      (s.closed, s.client) = (false, 1, 5) := by
    intro i hi
    refine Option.map_eq_some_iff.mp ?_
    revert i
    decide +kernel
  obtain ⟨s, hs, hs'⟩ := hopen 0 (by decide)
  obtain ⟨t, ht, ht'⟩ := hopen 2 (by decide)
  obtain ⟨hsopen, hsclient⟩ := Prod.mk.inj hs'
  obtain ⟨htopen, htclient⟩ := Prod.mk.inj ht'
  exact h _ reachable_events 0 2 s t hs ht (by decide) hsopen htopen
    (hsclient.trans htclient.symm)

/-- No open session has the client of the hello. -/
theorem meets_hello {svc : SoxService ℕ} {packet : BufInStream} {i : ℕ} {s : SoxSession ℕ}
    {remoteId : BitVec 16} (hslot : svc.sessions.findIdx? (fun s => !s.watched) = some i)
    (hs : svc.sessions[i]? = some s)
    (hid : BitVec.ofInt 16 ((parseHello ((SoxService.parseHeader.run packet).1.2.2 % 16).toNat
      { idealMax := s.idealMax }).run (SoxService.parseHeader.run packet).2).1.remoteId = remoteId)
    (hnone : ∀ t ∈ svc.sessions, t.closed = false → t.client ≠ (1, remoteId)) :
    Meets svc (.receive 1 packet random) := by
  intro j t hj ht _ _ k l u v hk _ _ _ hclient _ hopen
  obtain rfl := Option.some.inj (hslot.symm.trans hj)
  obtain rfl := Option.some.inj (hs.symm.trans ht)
  rw [hid] at hclient
  exact absurd hclient (hnone u (List.mem_of_getElem? hk) hopen)

/-- The first two hellos. -/
theorem unique_second :
    Unique (next (next service (.receive 1 (hello 4) random)) (.receive 1 (hello 5) random)) := by
  refine unique_of_runs (fun _ => []) ?_
  have hstart : (system.restrict Meets).Reachable service := .start ⟨rfl, by decide⟩
  refine (hstart.tail ⟨?_, rfl⟩).tail ⟨?_, rfl⟩
  · exact meets_hello rfl rfl rfl (by decide)
  · exact meets_hello rfl rfl rfl (by decide +kernel)

end StaleSlot

end Sedona.Sox
