import Offshoot.Ops.Checkpoint
import Offshoot.Ops.Destroy

/-!
# New lineages: create, fork, rollback, promote, compact

A new branch, or a repointed one, reads a lineage nothing else has written: it is
minted, given its objects, and only then named by a ref write.  It either shares
its history through a base object or starts from snapshots of its own.

A ref write that reports failure is settled by re-reading the ref.  If the ref
still reads the lineage it read before, the write did not land and the new objects
are removed; if it cannot be told, they stay.
-/

namespace Offshoot

open Conc Maps

inductive Verdict where
  | notLanded
  | landed
  | unknown
  deriving DecidableEq, Repr

def settleRepoint (b : BranchId) (lineage : Lineage) (prev : Option Lineage) :
    M (Result Verdict) := do
  match ← getRef b with
  | .error .notFound => return .ok .unknown
  | .error e => return .error e
  | .ok ref =>
    if ref.lineage = lineage then return .ok .landed
    else if prev = some ref.lineage then return .ok .notLanded
    else return .ok .unknown

def deleteObjs : List DataKey → M Unit
  | [] => pure ()
  | k :: ks => do
    let _ ← deleteObj k
    deleteObjs ks

/-! ## A lineage of its own -/

variable (env : Env)

def copySnapshotIntoLineage (members : List (ChainMember DataKey)) (txid : Nat)
    (lineage : Lineage) : M (Result DataKey) := do
  match ← materializeMembers members with
  | .error e => return .error e
  | .ok a =>
    match encodeSnapshot a.image txid with
    | .error e => return .error (.encode e)
    | .ok snap =>
      let key := DataKey.snapshot lineage 1 txid
      match ← putIf env key (.snapshot snap) with
      | .error e => return .error e
      | .ok () => return .ok key

/-- A chain of one snapshot is copied within the backend, where it can, and the
copy checked. -/
def tryFastForkCopy (members : List (ChainMember DataKey)) (txid : Nat) (lineage : Lineage)
    (fuel : Nat) : M (Result Bool) := do
  match members with
  | [m] =>
    if !m.snapshot then return .ok false
    else
      match ← copyObject (.snapshot lineage 1 txid) m.key with
      | .error e => return .error e
      | .ok none => return .ok false
      | .ok (some ()) =>
        match ← chainAt fuel lineage txid with
        | .error e => return .error e
        | .ok _ => return .ok true
  | _ => return .ok false

variable (i : Nat)

def copySnapshotToNewLineage (members : List (ChainMember DataKey))
    (txid fuel : Nat) : M (Result Lineage) := do
  let lineage ← newLineageID i
  match ← tryFastForkCopy members txid lineage fuel with
  | .error e => return .error e
  | .ok true => return .ok lineage
  | .ok false =>
    match ← copySnapshotIntoLineage env members txid lineage with
    | .error e => return .error e
    | .ok _ => return .ok lineage

def materializes (members : List (ChainMember DataKey)) (materialize : Bool) : Bool :=
  materialize || env.shareBound ≤ members.length

/-- A fresh lineage that reads as `src` at `txid`: a copy, or a base pointer to the
lineage that holds `txid`. -/
def newLineageAt (src : Ref) (txid : Nat) (members : List (ChainMember DataKey))
    (materialize : Bool) (fuel : Nat) :
    M (Result (Lineage × Option BasePointer)) := do
  if materializes env members materialize then
    match ← copySnapshotToNewLineage env i members txid fuel with
    | .error e => return .error e
    | .ok lineage => return .ok (lineage, none)
  else
    match (← resolve (collapseBase · src.lineage txid) fuel .empty).1 with
    | .error e => return .error e
    | .ok baseLineage =>
      let lineage ← newLineageID i
      let bp : BasePointer := ⟨baseLineage, txid⟩
      if baseLineage = lineage then return .error .refused
      else
        match ← putIf env (.base lineage) (.base bp) with
        | .error e => return .error e
        | .ok () => return .ok (lineage, some bp)

/-- Copy one snapshot per txid of the checkpoints, past those done.  The keys
copied are returned even when a copy fails. -/
def copyCheckpoints (env : Env) (src : Ref) (lineage : Lineage) (fuel : Nat) :
    List Checkpoint → List Nat → M (Result Unit × List DataKey)
  | [], _ => pure (.ok (), [])
  | cp :: rest, done => do
    if cp.txid ∈ done then copyCheckpoints env src lineage fuel rest done
    else
      match ← chainAt fuel src.lineage cp.txid with
      | .error e => return (.error e, [])
      | .ok members =>
        match ← copySnapshotIntoLineage env members cp.txid lineage with
        | .error e => return (.error e, [])
        | .ok key =>
          let (r, keys) ← copyCheckpoints env src lineage fuel rest (cp.txid :: done)
          return (r, key :: keys)

def refChain (host : Nat) (b : BranchId) (ref : Ref) (txid fuel : Nat) :
    M (Result (List (ChainMember DataKey))) :=
  if txid = ref.headTXID then headChain host b ref fuel else chainAt fuel ref.lineage txid

/-! ## Creating and forking -/

def create (db : String) (img : Image) : M (Result Unit) := do
  match ← listRefs with
  | .error e => return .error e
  | .ok bs =>
    if bs.any (·.db = db) then return .error .refused
    else
      let lineage ← newLineageID i
      match encodeSnapshot img 1 with
      | .error e => return .error (.encode e)
      | .ok snap =>
        match ← putIf env (.snapshot lineage 1 1) (.snapshot snap) with
        | .error e => return .error e
        | .ok () =>
          let createdAt ← now env
          let ref : Ref :=
            { lineage := lineage, epoch := 1, headTXID := 1, headEpoch := 0
              checkpoints := (∅ : Map String Checkpoint).insert "init" ⟨1, 1, createdAt⟩
              isProtected := true, leaseHolder := none, leaseExpiry := none
              ttl := none, touchedAt := none, reaping := false, deleting := false
              deletingAt := none, metadata := ∅, base := none }
          match ← putRef env i ⟨db, "main"⟩ (.create ref) ref none with
          | .ok () => return .ok ()
          | .error e =>
            match ← settleRepoint ⟨db, "main"⟩ lineage none with
            | .error e => return .error e
            | .ok .landed => return .ok ()
            | .ok _ => return .error e

structure ForkOptions where
  /-- A checkpoint of the source; its head if absent. -/
  checkpoint : Option String
  ttl : Nat
  metadata : Map String String
  materialize : Bool
  deriving DecidableEq

def forkPoint (src : Ref) (checkpoint : Option String) : Option Nat :=
  match checkpoint with
  | none => some src.headTXID
  | some name => (src.checkpoints.lookup name).map (·.txid)

/-- A copied fork checks the name first, rather than copy in vain. -/
def forkNameFree (b : BranchId) (check : Bool) : M (Result Unit) := do
  if check then
    match ← getRef b with
    | .ok _ => return .error .refused
    | .error .notFound => return .ok ()
    | .error e => return .error e
  else return .ok ()

def fork (host : Nat) (srcBranch newBranch : BranchId) (opts : ForkOptions)
    (fuel : Nat) : M (Result Nat) := do
  match ← getRef srcBranch with
  | .error e => return .error e
  | .ok src =>
    match forkPoint src opts.checkpoint with
    | none => return .error .refused
    | some txid =>
      match ← refChain host srcBranch src txid fuel with
      | .error e => return .error e
      | .ok members =>
        match ← forkNameFree newBranch (materializes env members opts.materialize) with
        | .error e => return .error e
        | .ok () =>
          match ← newLineageAt env i src txid members opts.materialize fuel with
          | .error e => return .error e
          | .ok (lineage, base) =>
            let touchedAt ← now env
            let createdAt ← now env
            let child : Ref :=
              { lineage := lineage, epoch := 1, headTXID := txid, headEpoch := 1
                checkpoints := (∅ : Map String Checkpoint).insert "fork" ⟨txid, 1, createdAt⟩
                isProtected := false, leaseHolder := none, leaseExpiry := none
                ttl := if opts.ttl = 0 then none else some opts.ttl
                touchedAt := some touchedAt, reaping := false, deleting := false
                deletingAt := none, metadata := opts.metadata, base := base }
            match ← putRef env i newBranch (.create child) child none with
            | .ok () => return .ok txid
            | .error e =>
              match ← settleRepoint newBranch lineage none with
              | .error e => return .error e
              | .ok .landed => return .ok txid
              | .ok _ => return .error e

/-! ## Repointing -/

def repoint (b : BranchId) (ref : Ref) (p : Repoint) (keys : List DataKey) : M (Result Unit) := do
  match ← putRef env i b (.edit (.repoint p)) (p.apply ref) (some ref) with
  | .ok () => return .ok ()
  | .error e =>
    match ← settleRepoint b p.lineage (some ref.lineage) with
    | .error e => return .error e
    | .ok .landed => return .ok ()
    | .ok .notLanded =>
      deleteObjs keys
      return .error e
    | .ok .unknown => return .error e

def refreshAfter (host : Nat) (b : BranchId) (next : Ref) (fuel : Nat) : M (Result Unit) := do
  let busy ← ask
  if busy then return .error .refused else refreshCheckout host b next fuel

/-- Keep the state a repoint discards as a branch of its own, in place of the one
an earlier repoint kept. -/
def safetyFork (host : Nat) (b : BranchId) (suffix metaKey : String) (ttl fuel : Nat)
    (materialize : Bool) : M (Result Unit) := do
  let backup : BranchId := ⟨b.db, b.branch ++ suffix⟩
  let opts : ForkOptions :=
    ⟨none, ttl, (∅ : Map String String).insert metaKey b.branch, materialize⟩
  match ← getRef backup with
  | .error .notFound =>
    match ← fork env i host b backup opts fuel with
    | .error e => return .error e
    | .ok _ => return .ok ()
  | .error e => return .error e
  | .ok existing =>
    if existing.metadata.lookup metaKey ≠ some b.branch then return .error .refused
    else
      match ← destroy env i host backup false with
      | .error e => return .error e
      | .ok () =>
        match ← fork env i host b backup opts fuel with
        | .error e => return .error e
        | .ok _ => return .ok ()

def backUp (host : Nat) (b : BranchId) (suffix metaKey : String) (ttl fuel : Nat)
    (skip : Bool) : M (Result Unit) :=
  if skip then pure (.ok ()) else safetyFork env i host b suffix metaKey ttl fuel false

structure RepointOptions where
  force : Bool
  noBackup : Bool
  backupTTL : Nat
  materialize : Bool
  deriving DecidableEq

def Checkpoint.copied (cp : Checkpoint) : Checkpoint := ⟨cp.txid, 1, cp.createdAt⟩

/-- A rollback once the new lineage is there: copy the kept checkpoints unless the
history is shared, then repoint. -/
def rollbackOnto (host : Nat) (b : BranchId) (ref : Ref) (txid fuel : Nat) (lineage : Lineage)
    (base : Option BasePointer) : M (Result Unit) := do
  let kept := keepIf (fun _ c => c.txid ≤ txid) ref.checkpoints
  match base with
  | some bp =>
    let now ← now env
    let p : Repoint := ⟨lineage, txid, kept, some bp, now⟩
    match ← repoint env i b ref p [.base lineage] with
    | .error e => return .error e
    | .ok () => refreshAfter host b (p.apply ref) fuel
  | none =>
    let head := DataKey.snapshot lineage 1 txid
    let (copied, keys) ← copyCheckpoints env ref lineage fuel (values kept) [txid]
    match copied with
    | .error e =>
      deleteObjs (head :: keys)
      return .error e
    | .ok () =>
      let now ← now env
      let p : Repoint := ⟨lineage, txid, mapVal Checkpoint.copied kept, none, now⟩
      match ← repoint env i b ref p (head :: keys) with
      | .error e => return .error e
      | .ok () => refreshAfter host b (p.apply ref) fuel

def rollback (host : Nat) (b : BranchId) (name : String) (opts : RepointOptions)
    (fuel : Nat) : M (Result Unit) := do
  match ← getRef b with
  | .error e => return .error e
  | .ok ref =>
    let now ← now env
    match refuseIfHeld ref now opts.force with
    | .error e => return .error e
    | .ok () =>
      match ref.checkpoints.lookup name with
      | none => return .error .refused
      | some cp =>
        match ← backUp env i host b "-pre-rollback" "offshoot.pre-rollback" opts.backupTTL fuel
            opts.noBackup with
        | .error e => return .error e
        | .ok () =>
          match ← refChain host b ref cp.txid fuel with
          | .error e => return .error e
          | .ok members =>
            match ← newLineageAt env i ref cp.txid members opts.materialize fuel with
            | .error e => return .error e
            | .ok (lineage, base) => rollbackOnto env i host b ref cp.txid fuel lineage base

/-- The target takes over the source's head, in a lineage of its own. -/
def promoteOnto (host : Nat) (target : BranchId) (src tgt : Ref) (sourceBranch : BranchId)
    (materialize : Bool) (fuel : Nat) : M (Result Nat) := do
  let txid := src.headTXID
  match ← headChain host sourceBranch src fuel with
  | .error e => return .error e
  | .ok members =>
    match ← newLineageAt env i src txid members materialize fuel with
    | .error e => return .error e
    | .ok (lineage, base) =>
      let createdAt ← now env
      let now ← now env
      let p : Repoint := ⟨lineage, txid,
        (∅ : Map String Checkpoint).insert "promote" ⟨txid, 1, createdAt⟩, base, now⟩
      let key := match base with
        | some _ => DataKey.base lineage
        | none => .snapshot lineage 1 txid
      match ← repoint env i target tgt p [key] with
      | .error e => return .error e
      | .ok () =>
        if (← getCheckout host target).file.isSome then
          match ← refreshAfter host target (p.apply tgt) fuel with
          | .error e => return .error e
          | .ok () => return .ok txid
        else return .ok txid

def promote (host : Nat) (db source target : String) (opts : RepointOptions)
    (fuel : Nat) : M (Result Nat) := do
  if source = target then return .error .refused
  else
    match ← getRef ⟨db, source⟩ with
    | .error e => return .error e
    | .ok src =>
      match ← getRef ⟨db, target⟩ with
      | .error e => return .error e
      | .ok tgt =>
        let now ← now env
        match refuseIfHeld tgt now opts.force with
        | .error e => return .error e
        | .ok () =>
          if tgt.isProtected && !opts.force then return .error .refused
          else
            let own := source = target ++ "-pre-promote" ∧
              src.metadata.lookup "offshoot.pre-promote" = some target
            match ← backUp env i host ⟨db, target⟩ "-pre-promote" "offshoot.pre-promote"
                opts.backupTTL fuel (opts.noBackup || own) with
            | .error e => return .error e
            | .ok () =>
              promoteOnto env i host ⟨db, target⟩ src tgt ⟨db, source⟩ opts.materialize fuel

/-- A compact once the head is copied: copy every checkpoint, then repoint. -/
def compactOnto (host : Nat) (b : BranchId) (ref : Ref) (fuel : Nat)
    (lineage : Lineage) : M (Result Nat) := do
  let txid := ref.headTXID
  let head := DataKey.snapshot lineage 1 txid
  let (copied, keys) ← copyCheckpoints env ref lineage fuel (values ref.checkpoints) [txid]
  match copied with
  | .error e =>
    deleteObjs (head :: keys)
    return .error e
  | .ok () =>
    let createdAt ← now env
    let now ← now env
    let kept := mapVal Checkpoint.copied ref.checkpoints
    let kept := if (kept.lookup "compact").isSome then kept
      else kept.insert "compact" ⟨txid, 1, createdAt⟩
    let p : Repoint := ⟨lineage, txid, kept, none, now⟩
    match ← repoint env i b ref p (head :: keys) with
    | .error e => return .error e
    | .ok () =>
      if (← getCheckout host b).file.isSome then
        match ← refreshAfter host b (p.apply ref) fuel with
        | .error e => return .error e
        | .ok () => return .ok txid
      else return .ok txid

def compact (host : Nat) (b : BranchId) (force : Bool) (fuel : Nat) : M (Result Nat) := do
  match ← getRef b with
  | .error e => return .error e
  | .ok ref =>
    let now ← now env
    match refuseIfHeld ref now force with
    | .error e => return .error e
    | .ok () =>
      match (← resolve (baseSpine · ref.lineage) fuel .empty).1 with
      | .error e => return .error e
      | .ok [] => return .ok ref.headTXID
      | .ok _ =>
        match ← chainAt fuel ref.lineage ref.headTXID with
        | .error e => return .error e
        | .ok members =>
          match ← copySnapshotToNewLineage env i members ref.headTXID fuel with
          | .error e => return .error e
          | .ok lineage => compactOnto env i host b ref fuel lineage

end Offshoot
