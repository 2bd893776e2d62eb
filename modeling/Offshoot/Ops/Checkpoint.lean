import Offshoot.Ops.Checkout

/-!
# The at-rest checkpoint

A checkpoint of a checkout no session has open takes the branch's lease itself,
under a holder of its own, uploads one object and moves the head, giving the lease
back in the same write.  The object is a segment when the checkout's shadow still
is the head's content, and a snapshot otherwise.
-/

namespace Offshoot

open Conc Maps
open scoped symmDiff

/-- Does a live lease, or a removal under way, keep an operation from the branch?
A forced one goes ahead over a lease. -/
def refuseIfHeld (ref : Ref) (now : Nat) (force : Bool) : Result Unit :=
  if ref.deleting then .error .deleting
  else if ref.reaping then .error .reaping
  else if leaseLive ref now && !force then .error .leaseHeld
  else .ok ()

structure CheckpointOptions where
  snapshot : Bool
  force : Bool
  leaseTTL : Nat
  deriving DecidableEq

def checkpointPreconditions (name : String) (c : Checkout) (ref : Ref)
    (opts : CheckpointOptions) : Result Unit :=
  if (ref.checkpoints.lookup name).isSome then .error .refused
  else if c.file.isNone then .error .refused
  else match c.sum with
    | none => .ok ()
    | some rec =>
      if rec.lineage ≠ ref.lineage ∧ !opts.force then .error .refused else .ok ()

variable (env : Env) (i : Nat)

/-- What a checkpoint checks of the ref it reads, its own lease apart. -/
def checkpointCheck (host : Nat) (b : BranchId) (name : String) (opts : CheckpointOptions)
    (ref : Ref) : M (Result Unit) := do
  let now ← now env
  let guard := if ref.leaseHolder = some i then
    { ref with leaseHolder := none, leaseExpiry := none } else ref
  match refuseIfHeld guard now false with
  | .error e => return .error e
  | .ok () => return checkpointPreconditions name (← getCheckout host b) ref opts

/-- Give the lease back, up to three times, unless the branch is going away. -/
def releaseCheckpointLease (env : Env) (i : Nat) (b : BranchId) (l : Lease) : Nat → M Unit
  | 0 => pure ()
  | attempts + 1 => do
    match ← getRef b with
    | .ok ref =>
      if ref.deleting || ref.reaping then return ()
      else
        match ← releaseLease env i b l with
        | .error .cas => releaseCheckpointLease env i b l attempts
        | _ => return ()
    | .error _ =>
      match ← releaseLease env i b l with
      | .error .cas => releaseCheckpointLease env i b l attempts
      | _ => return ()

/-- Give back a lease an earlier attempt of this checkpoint left on the ref. -/
def releaseIfOurs (b : BranchId) (read : Ref) : M Unit :=
  if read.leaseHolder = some i then releaseCheckpointLease env i b (leaseOn i read) 3
  else pure ()

/-- Take the lease.  A failed acquire is settled by re-reading the ref, and tried
once more if it only lost a race to bookkeeping. -/
def acquireCheckpointLease (env : Env) (i : Nat) (b : BranchId) (ttl : Nat)
    (check : Ref → M (Result Unit)) : Nat → M (Result (Lease × Ref))
  | 0 => pure (.error .leaseHeld)
  | attempts + 1 => do
    let started ← now env
    match ← acquireLeaseRefIf env i b i ttl started check with
    | .granted lease ref => return .ok (lease, ref)
    | .refused read e =>
      releaseIfOurs env i b read
      return .error e
    | .failed none e => return .error e
    | .failed (some read) e =>
      match ← settleAcquire i b i with
      | .error _ => return .error e
      | .ok (some lease, cur) =>
        match ← check cur with
        | .error e =>
          releaseCheckpointLease env i b lease 3
          return .error e
        | .ok () => return .ok (lease, cur)
      | .ok (none, cur) =>
        let now ← now env
        match refuseIfHeld cur now false with
        | .error e => return .error e
        | .ok () =>
          if e ≠ .leaseHeld then return .error e
          else if cur.epoch ≠ read.epoch ∨ cur.lineage ≠ read.lineage then
            return .error .leaseHeld
          else acquireCheckpointLease env i b ttl check attempts

/-! ## Planning a segment from the shadow -/

structure SegmentDelta where
  pages : List Page
  commit : Nat
  pageSize : Nat
  pre : Checksum
  post : Checksum
  deriving DecidableEq

/-- One page of the comparison: the pages to carry, and the checksums of the
result and of the shadow so far. -/
def diffPage (cur shadow : Image) (acc : List Page × Checksum × Checksum) (pgno : Nat) :
    List Page × Checksum × Checksum :=
  let (pages, post, shadowSum) := acc
  if pgno = lockPgno cur.pageSize then acc
  else
    let old := shadow.page? pgno
    let shadowSum := updateChecksum shadowSum pgno none old
    match cur.page? pgno with
    | none => (pages, updateChecksum post pgno old none, shadowSum)
    | some data =>
      if old = some data then (pages, post, shadowSum)
      else (pages ++ [⟨pgno, data⟩], updateChecksum post pgno old (some data), shadowSum)

/-- The pages of `cur` that differ from `shadow`, provided the shadow has the
checksum it was recorded with. -/
def diffPages (cur shadow : Image) (pre : Checksum) : Option SegmentDelta :=
  if cur.pages = [] ∨ shadow.pages = [] ∨ shadow.pageSize ≠ cur.pageSize then none
  else
    let (pages, post, shadowSum) :=
      (List.range' 1 (max cur.commit shadow.commit)).foldl (diffPage cur shadow) ([], pre, ∅)
    if shadowSum ≠ pre then none
    else some ⟨pages, cur.commit, cur.pageSize, pre, post⟩

/-- The recorded checksum and the shadow, if the sidecar recorded them for the
ref's head. -/
def segmentShadow (c : Checkout) (ref : Ref) (opts : CheckpointOptions) :
    Option (Checksum × Image) :=
  if opts.snapshot ∨ ref.headTXID = 0 then none
  else match c.sum, c.shadow with
    | some rec, some shadow =>
      if rec.shadow && rec.isHead ref then rec.postApplyChecksum.map (·, shadow) else none
    | _, _ => none

/-- Plan a segment, or nothing if the checkpoint has to be a snapshot.  Whether
the change is too large a fraction of the database is left to the environment. -/
def planSegment (c : Checkout) (ref : Ref) (members : List (ChainMember DataKey))
    (opts : CheckpointOptions) (largeFraction : Bool) : Option SegmentDelta :=
  match segmentShadow c ref opts, c.file with
  | some (pre, shadow), some cur =>
    if members = [] ∨ env.shareBound ≤ members.length ∨ largeFraction then none
    else diffPages cur shadow pre
  | _, _ => none

/-! ## Encoding, uploading, committing -/

/-- What a checkpoint uploads: its key, the object, the checksum of the content,
and the chain it extends. -/
structure Upload where
  key : DataKey
  obj : Obj
  checksum : Checksum
  chain : List DataKey

/-- The chain a segment would extend; none if there is no shadow to plan from, or
the chain cannot be read. -/
def planChain (host : Nat) (b : BranchId) (ref : Ref) (fuel : Nat) (opts : CheckpointOptions) :
    M (List (ChainMember DataKey)) := do
  if (segmentShadow (← getCheckout host b) ref opts).isSome then
    match ← headChain host b ref fuel with
    | .ok members => return members
    | .error _ => return []
  else return []

def encodeCheckpoint (host : Nat) (b : BranchId) (ref : Ref) (epoch fuel : Nat)
    (opts : CheckpointOptions) : M (Result Upload) := do
  let txid := ref.headTXID + 1
  let members ← planChain host b ref fuel opts
  let largeFraction ← ask
  match planSegment env (← getCheckout host b) ref members opts largeFraction with
  | some d =>
    match encodeSegment d.pageSize d.commit txid txid d.pre d.post d.pages with
    | .error e => return .error (.encode e)
    | .ok seg =>
      let key := DataKey.segment ref.lineage epoch txid txid
      return .ok ⟨key, .segment seg, d.post, members.map (·.key) ++ [key]⟩
  | none =>
    match (← getCheckout host b).file with
    | none => return .error .notFound
    | some img =>
      match encodeSnapshot img txid with
      | .error e => return .error (.encode e)
      | .ok snap =>
        let key := DataKey.snapshot ref.lineage epoch txid
        return .ok ⟨key, .snapshot snap, img.checksum, [key]⟩

/-- Create the object.  A key that is taken is fine if it already holds these very
bytes: an earlier attempt of the same put. -/
def putCheckpointObject (key : DataKey) (obj : Obj) : M (Result Unit) := do
  match ← putIf env key obj with
  | .ok () => return .ok ()
  | .error .cas =>
    match ← getObj key with
    | .ok got => return if got = obj then .ok () else .error .cas
    | .error e => return .error e
  | .error e =>
    let _ ← deleteObj key
    return .error e

namespace HeadCommit

def premise (c : HeadCommit) (cur : Ref) : Bool := c.ours cur && !cur.deleting && !cur.reaping

/-- The head moved at or past the txid under the checkpoint's own epoch. -/
def headUnderOurEpoch (c : HeadCommit) (cur : Ref) : Bool :=
  cur.lineage = c.lineage && cur.headEpoch = c.epoch && c.txid ≤ cur.headTXID

def landed (c : HeadCommit) (cur : Ref) : Bool :=
  match c.name.bind cur.checkpoints.lookup with
  | none => false
  | some cp => cur.lineage = c.lineage && cp.txid = c.txid && cp.epoch = c.epoch

def unreferenced (c : HeadCommit) (cur : Ref) : Bool :=
  cur.lineage = c.lineage && cur.headTXID < c.txid

/-- May the object be removed when the ref read back no longer fits? -/
def deletable (c : HeadCommit) (attempted : Bool) (cur : Ref) : Bool :=
  if !attempted then !c.headUnderOurEpoch cur
  else !c.ours cur && c.unreferenced cur

end HeadCommit

/-- What the ref read back decides before a head write: that the checkpoint is
recorded, that its premise is gone (and whether its object may then be removed),
or nothing, and the write goes ahead. -/
def commitVerdict (c : HeadCommit) (attempted : Bool) (cur : Ref) :
    Option (Except (Err × Bool) Ref) :=
  if attempted && c.landed cur then some (.ok cur)
  else if !c.premise cur then some (.error (.leaseLost, c.deletable attempted cur))
  else none

/-- The head write of a checkpoint: at most three, each on a fresh read that still
shows the premise.  The error says whether the object may be removed. -/
def commitCheckpoint (env : Env) (i : Nat) (b : BranchId) (c : HeadCommit) :
    Bool → Nat → M (Except (Err × Bool) Ref)
  | attempted, 0 => do
    match ← getRef b with
    | .error e => return .error (e, !attempted)
    | .ok cur => return (commitVerdict c attempted cur).getD (.error (.cas, false))
  | attempted, left + 1 => do
    match ← getRef b with
    | .error e => return .error (e, !attempted)
    | .ok cur =>
      match commitVerdict c attempted cur with
      | some r => return r
      | none =>
        let createdAt ← now env
        let touched ← now env
        let next := { c with createdAt := createdAt, now := touched }
        match ← putRef env i b (.edit (.checkpoint next)) (next.advance cur) (some cur) with
        | .ok () => return .ok (next.advance cur)
        | .error _ => commitCheckpoint env i b c true left

def trailerChecksum : Obj → Option Checksum
  | .snapshot s => some s.image.checksum
  | .segment s => some s.postApplyChecksum
  | .base _ => none

/-- What the committed object holds, as far as can be told. -/
def verifyOwnObject (u : Upload) : M (Option Checksum) := do
  match ← getObj u.key with
  | .error _ => return some u.checksum
  | .ok obj => return if obj = u.obj then some u.checksum else trailerChecksum obj

/-- Stamp the sidecar with the new head if the file still is its content, and with
a record that matches nothing otherwise. -/
def stampCheckpoint (host : Nat) (b : BranchId) (lineage : Lineage) (epoch txid : Nat)
    (headSum : Option Checksum) (chain : List DataKey) : M (Result Bool) := do
  match (← getCheckout host b).file with
  | none => return .error .notFound
  | some file =>
    let undisturbed ← ask
    if undisturbed && headSum = some file.checksum then
      setCheckout host b fun c => { c with
        sum := some ⟨some file, lineage, epoch, txid, headSum, false, chain⟩ }
      return .ok true
    else
      setCheckout host b fun c => { c with
        sum := some ⟨none, lineage, epoch, txid, none, false, []⟩ }
      return .ok false

def settleShadow (host : Nat) (b : BranchId) (trusted : Bool) : M Unit :=
  if trusted then refreshShadow host b else dropShadow host b

def checkpointLeased (host : Nat) (b : BranchId) (name : String) (fuel : Nat)
    (opts : CheckpointOptions) (lease : Lease) (ref : Ref) : M (Result Nat) := do
  let busy ← ask
  if busy then return .error .refused
  else
    match ← encodeCheckpoint env host b ref lease.epoch fuel opts with
    | .error e => return .error e
    | .ok u =>
      let txid := ref.headTXID + 1
      let c : HeadCommit := ⟨i, lease.epoch, ref.lineage, txid, u.key, some name, 0, 0⟩
      let lost ← ask
      if lost then return .error .leaseLost
      else
        match ← putCheckpointObject env u.key u.obj with
        | .error e => return .error e
        | .ok () =>
          let lost ← ask
          if lost then
            let _ ← deleteObj u.key
            return .error .leaseLost
          else
            match ← commitCheckpoint env i b c false 3 with
            | .error (e, deletable) =>
              if deletable then
                let _ ← deleteObj u.key
                return .error e
              else return .error e
            | .ok _ =>
              let headSum ← verifyOwnObject u
              match ← stampCheckpoint host b ref.lineage lease.epoch txid headSum u.chain with
              | .error e => return .error e
              | .ok trusted =>
                settleShadow host b trusted
                return .ok txid

/-- `CheckpointWith`, under the calling thread's own holder. -/
def checkpoint (host : Nat) (b : BranchId) (name : String) (fuel : Nat)
    (opts : CheckpointOptions) : M (Result Nat) := do
  match ← acquireCheckpointLease env i b opts.leaseTTL
      (checkpointCheck env i host b name opts) 2 with
  | .error e => return .error e
  | .ok (lease, ref) =>
    match ← checkpointLeased env i host b name fuel opts lease ref with
    | .ok txid => return .ok txid
    | .error e =>
      releaseCheckpointLease env i b lease 3
      return .error e

end Offshoot
