import Offshoot.Ops.Checkout

/-!
# The flush of a session

A flush makes the replica durable as the next txid of the branch: it uploads one
object, a snapshot of the replica or a segment of the pages changed since the last
flush, and then moves the head by a compare-and-swap of the ref.  The lock over
the session's memory is held while it decides and encodes, and not while it
uploads and commits, so transactions and rebases go on in the meantime.

An attempt that fails after encoding has used up the page set; until an attempt is
confirmed, the next one is a snapshot.

A session runs in a thread of its own, and the thread's id is its holder.
-/

namespace Offshoot

open Conc Maps

structure Encoded where
  snapshot : Bool
  obj : Obj
  checksum : Checksum
  rebaseGen : Nat
  appliedGen : Nat

namespace Session

/-- Snapshot or segment?  Whether the pending pages are a large fraction of the
database is left to the environment. -/
def wantsSnapshot (env : Env) (s : Session) (txid : Nat) (largeFraction : Bool) : Bool :=
  txid = 1 || env.snapshotEvery - 1 ≤ s.flushesSinceSnapshot || s.forceSnapshot ||
    largeFraction || s.pageSize = 0

def encodeObj (s : Session) (txid : Nat) (snapshot : Bool) : Result Obj :=
  if snapshot then
    match s.replica with
    | none => .error .notFound
    | some img =>
      match encodeSnapshot img txid with
      | .error e => .error (.encode e)
      | .ok snap => .ok (.snapshot snap)
  else
    match encodeSegment s.pageSize s.commit txid txid s.flushChecksum s.checksum s.pending with
    | .error e => .error (.encode e)
    | .ok seg => .ok (.segment seg)

/-- The critical section of a flush: drain the page set and encode. -/
def encode (env : Env) (s : Session) (txid : Nat) (largeFraction fail : Bool) :
    Session × Result Encoded :=
  let snapshot := s.wantsSnapshot env txid largeFraction
  ({ s with pages := ∅, forceSnapshot := true },
    if fail then .error .backend
    else match s.encodeObj txid snapshot with
      | .error e => .error e
      | .ok obj => .ok ⟨snapshot, obj, s.checksum, s.rebaseGen, s.appliedGen⟩)

/-- A confirmed flush becomes the new baseline, unless a rebase has replaced it in
the meantime. -/
def confirm (s : Session) (txid : Nat) (enc : Encoded) : Session :=
  let s := if s.rebaseGen = enc.rebaseGen then
      { s with flushChecksum := enc.checksum, forceSnapshot := false,
               flushedRebaseGen := enc.rebaseGen }
    else s
  { s with
    flushedGen := enc.appliedGen
    flushesSinceSnapshot := if enc.snapshot then 0 else s.flushesSinceSnapshot + 1
    durable := txid
    lastFlushOK := true }

end Session

variable (env : Env) (i : Nat)

/-- Wait until the replica has caught up.  Only an engine that has finished its
startup, or has stopped, answers. -/
def drainNow : M (Result Unit) := .step fun o w =>
  (w, if o.fail || (w.sessions i).engine = .starting then .error .backend else .ok ())

def trailing (members : List (ChainMember DataKey)) : Nat :=
  (members.reverse.takeWhile (!·.snapshot)).length

/-- Before a session's first segment, carry the snapshot cadence over from the
chain at the head. -/
def seedDivergence (ref : Ref) (fuel : Nat) : M Unit := do
  let s ← getSession i
  if s.divergenceSeeded then return ()
  else if ref.headTXID = 0 || s.forceSnapshot then
    withSession i fun s => ({ s with divergenceSeeded := true }, ())
  else if s.pageSize = 0 then return ()
  else
    let members ← chainAt fuel ref.lineage ref.headTXID
    withSession i fun s => ({ s with
      divergenceSeeded := true
      flushesSinceSnapshot := match members with
        | .ok members => trailing members
        | .error _ => env.snapshotEvery - 1 }, ())

def encodeFlush (txid : Nat) : M (Result Encoded) := .step fun o w =>
  let (s, r) := (w.sessions i).encode env txid o.yes o.fail
  (w.setSession i s, r)

/-- Create the object, or replace the orphan an earlier attempt left at its key. -/
def uploadFlush (key : DataKey) (obj : Obj) : M (Result Unit) := do
  match ← putIf env key obj with
  | .error .cas => put env key obj
  | r => return r

def flushKey (ref : Ref) (epoch txid : Nat) (snapshot : Bool) : DataKey :=
  if snapshot then .snapshot ref.lineage epoch txid else .segment ref.lineage epoch txid txid

/-- After a lost compare-and-swap the uploaded object is removed only if the ref
read back does not reference it. -/
def cleanupFlush (b : BranchId) (ref : Ref) (txid : Nat) (key : DataKey) : M Unit := do
  match ← getRef b with
  | .error _ => return ()
  | .ok cur =>
    if cur.lineage ≠ ref.lineage ∨ cur.headTXID < txid then
      let _ ← deleteObj key
      return ()
    else return ()

/-- Is the ref still where the flush found it, but for its bookkeeping? -/
def samePremise (epoch : Nat) (ref cur : Ref) (txid : Nat) : Bool :=
  cur.leaseHolder = some i && cur.epoch = epoch && cur.lineage = ref.lineage &&
    cur.headTXID + 1 = txid

def reread (b : BranchId) (withinBudget : Bool) : M (Result Ref) :=
  if withinBudget then getRef b else pure (.error .cas)

/-- Move the head.  A conflict with a write that left the flush's premise alone,
such as the session's own renewal, is retried on the ref read back. -/
def commitFlush (env : Env) (i : Nat) (b : BranchId) (epoch txid : Nat)
    (key : DataKey) (name : Option String) : Nat → Ref → M (Result Unit)
  | 0, _ => pure (.error .stalled)
  | attempts + 1, ref => do
    let createdAt ← now env
    let touched ← now env
    let c : HeadCommit := ⟨i, epoch, ref.lineage, txid, key, name, createdAt, touched⟩
    match ← putRef env i b (.edit (.flush c)) (c.flushed ref) (some ref) with
    | .ok () => return .ok ()
    | .error .cas =>
      let withinBudget ← ask
      match ← reread b withinBudget with
      | .ok cur =>
        if samePremise i epoch ref cur txid then
          commitFlush env i b epoch txid key name attempts cur
        else
          cleanupFlush b ref txid key
          return .error .cas
      | .error _ =>
        cleanupFlush b ref txid key
        return .error .cas
    | .error e => return .error e

def flushFrom (b : BranchId) (name : Option String) (fuel : Nat) (epoch : Nat)
    (ref : Ref) : M (Result Nat) := do
  seedDivergence env i ref fuel
  let txid := ref.headTXID + 1
  match ← encodeFlush env i txid with
  | .error e => return .error e
  | .ok enc =>
    let key := flushKey ref epoch txid enc.snapshot
    match ← uploadFlush env key enc.obj with
    | .error e => return .error e
    | .ok () =>
      match ← commitFlush env i b epoch txid key name fuel ref with
      | .error e => return .error e
      | .ok () =>
        withSession i fun s => (s.confirm txid enc, ())
        return .ok txid

def flush (b : BranchId) (name : Option String) (fuel : Nat) : M (Result Nat) := do
  let dead ← ask
  if dead then return .error .refused
  else
    match ← drainNow i with
    | .error e => return .error e
    | .ok () =>
      let epoch := (← getSession i).lease.epoch
      match ← getRef b with
      | .error e => return .error e
      | .ok ref =>
        if ref.leaseHolder ≠ some i ∨ ref.epoch ≠ epoch then return .error .leaseLost
        else if (name.bind ref.checkpoints.lookup).isSome then return .error .refused
        else flushFrom env i b name fuel epoch ref

/-! ## Opening and closing -/

/-- Take the lease, adopting an acquire that landed though it reported failure. -/
def openLease (b : BranchId) (ttl : Nat) : M (Result Lease) := do
  match ← acquireLease env i b i ttl with
  | .ok lease => return .ok lease
  | .error e =>
    match ← settleAcquire i b i with
    | .ok (some lease, _) => return .ok lease
    | _ => return .error e

/-- Open a session.  With `resume`, its replica survived an earlier process of the
same directory and becomes the baseline once the engine is ready. -/
def openSession (host : Nat) (b : BranchId) (ttl fuel : Nat)
    (resume : Option Image) : M (Result Unit) := do
  match ← openLease env i b ttl with
  | .error e => return .error e
  | .ok lease =>
    match ← checkoutProven host b fuel with
    | .error e =>
      let _ ← releaseLease env i b lease
      return .error e
    | .ok res =>
      withSession i fun _ => ({ Session.empty with
        lease := lease
        replica := resume
        engine := if resume.isSome then .ready else .starting
        cleanAtOpen := res.clean
        headPostApplyChecksum := res.postApplyChecksum }, ())
      if resume.isSome then
        match ← withSession i fun s => (s.rebaseline.getD s, s.rebaseline.isSome) with
        | true => return .ok ()
        | false =>
          withSession i fun s => ({ s with engine := .stopped }, ())
          let _ ← releaseLease env i b lease
          return .error .backend
      else return .ok ()

/-- May the sidecar be stamped with what the last flush made durable? -/
def Session.refreshEligible (s : Session) : Bool :=
  s.idle && s.rebaseGen = 1 && s.lastFlushOK && 0 < s.durable

/-- At a clean close, stamp the checkout with the durable head.  The engine's
shutdown decides whether its state is clean. -/
def commitSidecarRefresh (host : Nat) (b : BranchId) : M Unit := do
  let s ← getSession i
  let clean ← ask
  if !(s.refreshEligible && clean) then return ()
  else
    let file := (← getCheckout host b).file
    match ← getRef b with
    | .error _ => return ()
    | .ok ref =>
      if ref.leaseHolder ≠ some i ∨ ref.epoch ≠ s.lease.epoch then return ()
      else if ref.headTXID ≠ s.durable ∨ ref.headEpoch ≠ s.lease.epoch then return ()
      else
        setCheckout host b fun c => { c with
          sum := some ⟨file, ref.lineage, ref.headEpoch, ref.headTXID, some s.flushChecksum,
            false, []⟩ }
        refreshShadow host b

def refreshAtClose (host : Nat) (b : BranchId) (drained : Result Unit) (eligible : Bool) : M Unit :=
  match drained with
  | .ok () => if eligible then commitSidecarRefresh i host b else pure ()
  | .error _ => pure ()

def closeSession (host : Nat) (b : BranchId) : M (Result Unit) := do
  let drained ← drainNow i
  let eligible := (← getSession i).refreshEligible
  withSession i fun s => ({ s with engine := .stopped }, ())
  refreshAtClose i host b drained eligible
  releaseLease env i b (← getSession i).lease

/-! ## The capture engine -/

def captureRebase (img : Image) : M Unit :=
  withSession i fun s => (s.onRebase img, ())

def captureApply (txn : Txn) : M Unit := withSession i fun s => (s.onApply txn, ())

def captureStop : M Unit :=
  withSession i fun s => ({ s with engine := .stopped }, ())

end Offshoot
