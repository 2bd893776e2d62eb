import Offshoot.Lib.Concurrent
import Offshoot.Lib.Maps
import Offshoot.Daemon.History

/-!
# The session slots of the daemon

`opOpen`, `opClose`, `closeSlot` and `Shutdown` of `internal/daemon/server.go`.  A region
under `s.mu` is one action, and so is the end of a wait: a wait for a channel or for
`openWG` ends when it is closed, or when a deadline passes, which may be at any time.
`session.Open` and `Session.Close` run outside the mutex, on the rest of the state, and
are whatever programs they are (`Sessions`).

A session is known by the thread of the `opOpen` that opened it.  `newSessionID` draws
128 random bits; here it draws an id that was not drawn before.  What the daemon only
words its refusals with (`s.orphaned`) is left out.
-/

namespace Offshoot.Daemon

open Conc Maps

/-- A closing slot: the session, its id, and the channel closed when the branch is let
go. -/
structure Marker where
  sess : Nat
  id : Nat
  done : Nat
  deriving DecidableEq, Repr

inductive Slot
  | reserved
  | serving (sess id : Nat)
  | closing (m : Marker)
  deriving DecidableEq, Repr

/-- What the daemon keeps under `s.mu`.  `dones` has the channels that are closed, each
with the error its marker recorded.  `goroutines` are the calls of `closeSlot` that
`Shutdown` has started and that have not run yet.  `log` is the history. -/
structure Server where
  closing : Bool
  sessions : Map Key Slot
  openWG : Nat
  dones : Map Nat (Option String)
  shutdownDone : Option Outcome
  goroutines : List (Key × Marker)
  nextID : Nat
  nextDone : Nat
  log : List Event

def Server.empty : Server := ⟨false, ∅, 0, ∅, none, [], 0, 0, []⟩

/-- The daemon, and the store, checkouts and sessions it works on. -/
structure State (σ : Type) where
  server : Server
  rest : σ

/-- `session.Open`, `Session.Close` and the wording of a failed open.  A session is named
by the thread that opens it. -/
structure Sessions (σ ω : Type) where
  openSession : Nat → String → String → Prog σ ω (Except String Unit)
  closeSession : Nat → Prog σ ω (Option String)
  openRefusal : String → String → String → Prog σ ω String

structure Request where
  db : String
  branch : String
  sessionID : Option Nat

def Request.branchOrMain (r : Request) : String := if r.branch = "" then "main" else r.branch

def key (db branch : String) : Key := db ++ "@" ++ branch

def Request.key (r : Request) : Key := Daemon.key r.db r.branchOrMain

structure Response where
  ok : Bool
  error : String
  sessionID : Option Nat
  deriving DecidableEq, Repr

def errResp (error : String) : Response := ⟨false, error, none⟩

def okResp : Response := ⟨true, "", none⟩

/-! ## Regions under the mutex -/

inductive Reservation
  | shuttingDown
  | alreadyOpen
  | closing (done : Nat)
  | reserved
  deriving DecidableEq, Repr

namespace Server

def note (s : Server) (e : Event) : Server := { s with log := e :: s.log }

/-- The head of `opOpen`'s loop, with the reservation that ends it. -/
def reserve (s : Server) (k : Key) (i : Nat) : Server × Reservation :=
  if s.closing then (s, .shuttingDown)
  else
    match s.sessions.lookup k with
    | none =>
      ({ s with
          sessions := s.sessions.insert k .reserved
          openWG := s.openWG + 1
          log := .reserved k i :: s.log }, .reserved)
    | some (.closing m) => (s, .closing m.done)
    | some _ => (s, .alreadyOpen)

def unreserve (s : Server) (k : Key) (i : Nat) : Server :=
  { s with
    sessions := s.sessions.erase k
    openWG := s.openWG - 1
    log := .refused k i :: s.log }

/-- The open succeeded: the session goes into the map, unless the daemon is shutting
down. -/
def install (s : Server) (k : Key) (i : Nat) : Server × Option Nat :=
  if s.closing then
    ({ s with sessions := s.sessions.erase k, log := .dropped k i :: s.log }, none)
  else
    ({ s with
        sessions := s.sessions.insert k (.serving i s.nextID)
        nextID := s.nextID + 1
        openWG := s.openWG - 1
        log := .installed k i s.nextID :: s.log }, some s.nextID)

/-- `openWG.Done` after a session was closed without ever being in the map. -/
def openDone (s : Server) (k : Key) (i : Nat) : Server :=
  { s with openWG := s.openWG - 1, log := .released k i :: s.log }

/-- `markClosingLocked`.  `i` is the thread that closes the session, if it is known. -/
def markClosing (s : Server) (k : Key) (i : Option Nat) (sess id : Nat) : Server × Marker :=
  let m : Marker := ⟨sess, id, s.nextDone⟩
  ({ s with
      sessions := s.sessions.insert k (.closing m)
      nextDone := s.nextDone + 1
      log := .marked k i sess id m.done :: s.log }, m)

/-- The deferred region of `closeSlot`. -/
def freeSlot (s : Server) (k : Key) (m : Marker) (i : Nat) (err : Option String) : Server :=
  { s with
    sessions := if s.sessions.lookup k = some (.closing m) then s.sessions.erase k else s.sessions
    dones := s.dones.insert m.done err
    log := .sessionClosed k i m.sess m.done :: s.log }

end Server

inductive Closable
  | notOpen
  | closing (done : Nat)
  | marked (m : Marker)
  deriving DecidableEq, Repr

namespace Server

/-- The region of `opClose`. A close that carries an id acts only on that session. -/
def beginClose (s : Server) (k : Key) (i : Nat) (sessionID : Option Nat) : Server × Closable :=
  match s.sessions.lookup k with
  | none | some .reserved => (s, .notOpen)
  | some (.serving sess id) =>
    if sessionID = none ∨ sessionID = some id then
      let r := s.markClosing k (some i) sess id
      (r.1, .marked r.2)
    else (s, .notOpen)
  | some (.closing m) =>
    if sessionID = none ∨ sessionID = some m.id then (s, .closing m.done) else (s, .notOpen)

/-- The slot is marked and a goroutine is started to close it. -/
def startClose (s : Server) (k : Key) (sess id : Nat) : Server × Marker :=
  let r := s.markClosing k none sess id
  ({ r.1 with goroutines := (k, r.2) :: r.1.goroutines }, r.2)

/-- `Shutdown`'s region over the map: every open slot becomes a marker with a goroutine to
close it.  The markers it found are waited for as well. -/
def markAll : List Key → Server → Server × List Marker
  | [], s => (s, [])
  | k :: ks, s =>
    match s.sessions.lookup k with
    | some (.closing m) =>
      let r := markAll ks s
      (r.1, m :: r.2)
    | some (.serving sess id) =>
      let r := s.startClose k sess id
      let r' := markAll ks r.1
      (r'.1, r.2 :: r'.2)
    | _ => markAll ks s

def takeJob (s : Server) (n i : Nat) : Server × Option (Key × Marker) :=
  match s.goroutines[n]? with
  | none => (s, none)
  | some job =>
    ({ s with
        goroutines := s.goroutines.filter (· ≠ job)
        log := .taken job.1 i job.2.done :: s.log }, some job)

def beginShutdown (s : Server) : Server × Bool :=
  if s.closing then (s, false) else ({ s with closing := true }, true)

end Server

/-! ## Requests -/

section

variable {σ ω α : Type}

def locked (f : ω → Server → Server × α) : Prog (State σ) ω α :=
  .step fun o d => (⟨(f o d.server).1, d.rest⟩, (f o d.server).2)

def outside (p : Prog σ ω α) : Prog (State σ) ω α :=
  p.within State.rest fun r d => ⟨d.server, r⟩

def note (e : Event) : Prog (State σ) ω Unit := locked fun _ s => (s.note e, ())

variable (late : ω → Bool) (S : Sessions σ ω)

/-- Wait for the channel, and read the error its marker recorded; nothing if the deadline
comes first. -/
def waitClosed (done : Nat) : Prog (State σ) ω (Option (Option String)) :=
  locked fun o s => (s, if late o then none else s.dones.lookup done)

def stillClosing (k : Key) : String := s!"daemon: {k} is still closing; retry"

/-- `opOpen`'s loop; its deadline allows so many rounds. -/
def claimSlot (i : Nat) (k : Key) : Nat → Prog (State σ) ω (Except String Unit)
  | 0 => return .error (stillClosing k)
  | n + 1 => do
    match ← locked fun _ s => s.reserve k i with
    | .shuttingDown => return .error "daemon: shutting down"
    | .alreadyOpen => return .error s!"daemon: {k} is already open here"
    | .closing done =>
      match ← waitClosed late done with
      | none => return .error (stillClosing k)
      | some _ => claimSlot i k n
    | .reserved => return .ok ()

def closeSession (k : Key) (i sess : Nat) : Prog (State σ) ω (Option String) := do
  note (.closeCalled k i sess)
  let err ← outside (S.closeSession sess)
  note (.closeReturned k i sess)
  return err

def opOpen (i : Nat) (req : Request) (rounds : Nat) : Prog (State σ) ω Response := do
  match ← claimSlot late i req.key rounds with
  | .error e => return errResp e
  | .ok () =>
    match ← outside (S.openSession i req.db req.branchOrMain) with
    | .error e =>
      let refusal ← outside (S.openRefusal req.db req.branchOrMain e)
      locked fun _ s => (s.unreserve req.key i, ())
      return errResp refusal
    | .ok () =>
      note (.opened req.key i)
      match ← locked fun _ s => s.install req.key i with
      | some id => return ⟨true, "", some id⟩
      | none =>
        let _ ← closeSession S req.key i i
        note (.discarded req.key i)
        locked fun _ s => (s.openDone req.key i, ())
        return errResp "daemon: shutting down"

def closeSlot (k : Key) (m : Marker) (i : Nat) : Prog (State σ) ω (Option String) := do
  let err ← closeSession S k i m.sess
  locked fun _ s => (s.freeSlot k m i err, err)

def notOpen (req : Request) : String :=
  match req.sessionID with
  | some id => "daemon: session " ++ toString id ++ " on " ++ req.key ++ " is not open"
  | none => "daemon: " ++ req.key ++ " is not open"

def opClose (i : Nat) (req : Request) : Prog (State σ) ω Response := do
  match ← locked fun _ s => s.beginClose req.key i req.sessionID with
  | .notOpen => return errResp (notOpen req)
  | .closing done =>
    match ← waitClosed late done with
    | none => return errResp (stillClosing req.key)
    | some (some err) => return errResp err
    | some none => return okResp
  | .marked m =>
    match ← closeSlot S req.key m i with
    | some err => return errResp err
    | none => return okResp

/-- The wait for the markers, in turn; nothing if the deadline comes first. -/
def waitAll : List Marker → Prog (State σ) ω (Option (List (Option String)))
  | [] => return some []
  | m :: ms => do
    match ← waitClosed late m.done with
    | none => return none
    | some err =>
      match ← waitAll ms with
      | none => return none
      | some errs => return some (err :: errs)

def janitorRunning : String :=
  "daemon: shutdown: janitor pass still running after half the budget; sessions closed without " ++
    "waiting for it"

/-- `shutdown`, without the listeners and connections it closes first. -/
def shutdown : Prog (State σ) ω Outcome := do
  let janitorErr ← locked fun o s => (s, if late o then some janitorRunning else none)
  if ← locked fun o s => (s, decide (s.openWG = 0) && !late o) then
    let waits ← locked fun _ s => Server.markAll s.sessions.keys s
    match ← waitAll late waits with
    | none => return .timedOut "daemon: shutdown: timed out closing sessions"
    | some errs => return .finished (janitorErr <|> errs.findSome? id)
  else return .timedOut "daemon: shutdown: timed out waiting for in-flight opens"

def waitShutdown : Prog (State σ) ω Outcome :=
  locked fun o s => (s, if late o then
      .timedOut "daemon: shutdown: timed out waiting for shutdown to finish"
    else s.shutdownDone.getD
      (.timedOut "daemon: shutdown: timed out waiting for shutdown to finish"))

def serverShutdown (i : Nat) : Prog (State σ) ω Outcome := do
  if ← locked fun _ s => s.beginShutdown then
    let r ← shutdown late
    locked fun _ s => ({ s with shutdownDone := some r }, ())
    note (.shutdown i r)
    return r
  else
    let r ← waitShutdown late
    note (.shutdown i r)
    return r

def goroutine (i n : Nat) : Prog (State σ) ω Unit := do
  match ← locked fun _ s => s.takeJob n i with
  | none => return ()
  | some (k, m) => do
    let _ ← closeSlot S k m i
    return ()

/-- What the daemon runs: the requests on sessions, `Shutdown` with its goroutines, and
other requests. -/
inductive Op (ρ : Type)
  | opOpen (req : Request) (rounds : Nat)
  | opClose (req : Request)
  | shutdown
  | goroutine (n : Nat)
  | other (r : ρ)

variable {ρ : Type} (other : Nat → ρ → Prog (State σ) ω Unit)

def Op.prog (i : Nat) : Op ρ → Prog (State σ) ω Unit
  | .opOpen req rounds => do
    let _ ← Daemon.opOpen late S i req rounds
    return ()
  | .opClose req => do
    let _ ← Daemon.opClose late S i req
    return ()
  | .shutdown => do
    let _ ← serverShutdown late i
    return ()
  | .goroutine n => Daemon.goroutine S i n
  | .other r => other i r

/-- The daemon.  A thread that stops for good keeps what it has. -/
def daemon : System (State σ) ω (Op ρ) := ⟨Op.prog late S other, fun _ => True, fun _ d => d⟩

end

end Offshoot.Daemon
