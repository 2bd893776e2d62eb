import Offshoot.Lib.Concurrent
import Offshoot.Ltx.Materialize

/-!
# The by-chain cache

`materializeFromChain` of `internal/ops/chainid.go` and what it calls, run by any number of
processes of one machine, next to others that evict entries.  An entry is a file named by the
chain it holds, published by a rename and then given a sidecar that says what the entry's
checksum and hash are; a call looks at the sidecar first and at the entry later, and either
may be removed or replaced in between.  The objects of a chain never change.

A call takes one action for each file it opens, renames or removes under a name that others
use.  Staging and temp files have names of their own, so what is in them is a value of the
program, and a call on one of them is an action that only succeeds or fails.
-/

namespace Offshoot.ByChain

open Conc Materialize
open Rolling (Crc parseDBHeader)

/-- What the calls are given: the page checksum, the store's objects, the name of a chain, the
hash of a file, and whether the backend hands out objects as streams. -/
structure Env (κ ι : Type) where
  crc : Crc (List UInt8)
  objects : κ → Option Object
  chainID : List κ → ι
  hash : List UInt8 → String
  streams : Bool

structure SumRecord (ι : Type) where
  hash : String
  postApplyChecksum : UInt64
  chainID : ι
  deriving DecidableEq

inductive Kind where
  | clone
  | cloneSegments
  | materialize
  deriving DecidableEq

structure Placement (ι : Type) where
  kind : Kind
  chainID : ι
  checksum : UInt64
  hash : String
  deriving DecidableEq

inductive Err where
  | io
  | missing
  /-- The directory could not be synced after a rename in it. -/
  | syncDir
  | ltx (e : Materialize.Err)
  deriving DecidableEq

abbrev Path := String

inductive Sibling where
  | wal
  | shm
  deriving DecidableEq

structure EntryName (ι : Type) where
  db : String
  id : ι
  deriving DecidableEq

structure Machine (ι : Type) where
  entries : EntryName ι → Option (List UInt8)
  sidecars : EntryName ι → Option (SumRecord ι)
  files : Path → Option (List UInt8)
  siblings : Path × Sibling → Option (List UInt8)
  returned : Nat → Option (Except Err (Placement ι))

variable {κ ι : Type} [DecidableEq ι]

def Machine.setEntry (m : Machine ι) (name : EntryName ι) (file : Option (List UInt8)) :
    Machine ι :=
  { m with entries := Function.update m.entries name file }

def Machine.setSidecar (m : Machine ι) (name : EntryName ι) (r : Option (SumRecord ι)) :
    Machine ι :=
  { m with sidecars := Function.update m.sidecars name r }

/-- The oracle says whether a call fails. -/
abbrev M (ι : Type) := Prog (Machine ι) Bool

/-! ## Calls on files -/

/-- A call on a file that no other process knows. -/
def attempt : M ι Bool := .step fun fail m => (m, !fail)

variable (env : Env κ ι)

def fetch (key : κ) : M ι (Except Err Object) :=
  .step fun fail m => (m, if fail then .error .io else (env.objects key).elim (.error .missing) .ok)

def readEntry (name : EntryName ι) : M ι (Except Err (List UInt8)) :=
  .step fun fail m => (m, if fail then .error .io else (m.entries name).elim (.error .missing) .ok)

def readSidecar (name : EntryName ι) : M ι (Option (SumRecord ι)) :=
  .step fun fail m => (m, if fail then none else (m.sidecars name).filter (·.hash ≠ ""))

def renameOver (dst : Path) (file : List UInt8) : M ι Bool :=
  .step fun fail m =>
    if fail then (m, false)
    else ({ m with files := Function.update m.files dst (some file) }, true)

def removeSibling (dst : Path) (sib : Sibling) : M ι Unit :=
  .step fun fail m =>
    if fail then (m, ())
    else ({ m with siblings := Function.update m.siblings (dst, sib) none }, ())

def publish (name : EntryName ι) (file : List UInt8) : M ι Bool :=
  .step fun fail m => if fail then (m, false) else (m.setEntry name (some file), true)

def putSidecar (name : EntryName ι) (r : SumRecord ι) : M ι Bool :=
  .step fun fail m => if fail then (m, false) else (m.setSidecar name (some r), true)

def removeEntry (name : EntryName ι) : M ι Bool :=
  .step fun fail m => if fail then (m, false) else (m.setEntry name none, true)

def removeSidecar (name : EntryName ι) : M ι Bool :=
  .step fun fail m => if fail then (m, false) else (m.setSidecar name none, true)

/-! ## From the store -/

/-- Fetch the members one by one, each when the one before it has been applied. -/
def applyMembers (env : Env κ ι) : Bool → State → List κ → M ι (Except Err State)
  | _, s, [] => return .ok s
  | first, s, key :: keys => do
    match ← fetch env key with
    | .error e => return .error e
    | .ok obj =>
      match applyObject env.crc first s obj with
      | .error e => return .error (.ltx e)
      | .ok s => applyMembers env false s keys

def fetchAll (env : Env κ ι) : List κ → M ι (Except Err (List Object))
  | [] => return .ok []
  | key :: keys => do
    match ← fetch env key with
    | .error e => return .error e
    | .ok obj =>
      match ← fetchAll env keys with
      | .error e => return .error e
      | .ok objs => return .ok (obj :: objs)

def materializeStreaming (key : κ) (keys : List κ) : M ι (Except Err State) := do
  match ← fetch env key with
  | .error e => return .error e
  | .ok obj =>
    match decodeSnapshot obj with
    | .error e => return .error (.ltx e)
    | .ok snap => applyMembers env true snap.state keys

def materializeBuffered (key : κ) (keys : List κ) : M ι (Except Err State) := do
  match ← fetch env key with
  | .error e => return .error e
  | .ok obj =>
    match ← fetchAll env keys with
    | .error e => return .error e
    | .ok objs =>
      match Materialize.materializeChain env.crc obj objs with
      | .error e => return .error (.ltx e)
      | .ok s => return .ok s

def materializeMembers : List κ → M ι (Except Err State)
  -- The source indexes the first member; a resolved chain has one.
  | [] => return .error .missing
  | key :: keys =>
    if env.streams then materializeStreaming env key keys else materializeBuffered env key keys

/-- Sync a temp file and rename it over its destination, then sync the directory.  The rename
stands even if that fails. -/
def finalizeDestination (dst : Path) (file : List UInt8) : M ι (Except Err Unit) := do
  if ← renameOver dst file then
    let synced ← attempt
    removeSibling dst .wal
    removeSibling dst .shm
    return if synced then .ok () else .error .syncDir
  else return .error .io

/-- The same where the destination is a staging file. -/
def finalizeStage (_ : List UInt8) : M ι (Except Err Unit) := do
  if ← attempt then return .ok () else return .error .io

def materializeMembersAt (members : List κ)
    (finalize : List UInt8 → M ι (Except Err Unit)) : M ι (Except Err State) := do
  match ← materializeMembers env members with
  | .error e => return .error e
  | .ok s =>
    match ← finalize s.file with
    | .error e => return .error e
    | .ok () => return .ok s

/-! ## Through the cache -/

def byChainEntry (name : EntryName ι) : M ι (Option (SumRecord ι)) := do
  let r ← readSidecar name
  return r.filter fun r => r.chainID = name.id ∧ r.postApplyChecksum ≠ 0

/-- `ApplySegments` from an entry into a staging file: the header and the content are read
through two opens of the entry. -/
def applySegmentsTo (name : EntryName ι) (startChecksum : UInt64)
    (keys : List κ) : M ι (Except Err State) :=
  if keys.isEmpty then return .error (.ltx .noSegments)
  else do
    match ← readEntry name with
    | .error e => return .error e
    | .ok header =>
      match parseDBHeader header with
      | .error e => return .error (.ltx (.header e))
      | .ok h =>
        match ← readEntry name with
        | .error e => return .error e
        | .ok start =>
          match ← applyMembers env true (startState h start startChecksum) keys with
          | .error e => return .error e
          | .ok s =>
            match ← finalizeStage s.file with
            | .error e => return .error e
            | .ok () => return .ok s

/-- The entry of the first `k` members, or of fewer, with the others applied. -/
def applyLongest (env : Env κ ι) (db : String) (members : List κ) : Nat → M ι (Option State)
  | 0 => return none
  | k + 1 => do
    let name := ⟨db, env.chainID (members.take (k + 1))⟩
    match ← byChainEntry name with
    | none => applyLongest env db members k
    | some r =>
      match ← applySegmentsTo env name r.postApplyChecksum (members.drop (k + 1)) with
      | .error _ => return none
      | .ok s => return some s

def applyLongestPrefix (db : String) (members : List κ) : M ι (Option State) :=
  applyLongest env db members (members.length - 1)

/-- Make a staging file the entry of its chain: hash it, rename it, stat it under its new
name and write its sidecar. -/
def stampEntry (name : EntryName ι) (kind : Kind) (s : State) :
    M ι (Except Err (Kind × SumRecord ι)) := do
  if ← attempt then
    if ← publish name s.file then
      match ← readEntry name with
      | .error e => return .error e
      | .ok _ =>
        let r := ⟨env.hash s.file, s.running, name.id⟩
        if ← putSidecar name r then return .ok (kind, r) else return .error .io
    else return .error .io
  else return .error .io

def buildByChainEntry (db : String) (members : List κ) : M ι (Except Err (Kind × SumRecord ι)) := do
  if ← attempt then
    match ← applyLongestPrefix env db members with
    | some s => stampEntry env ⟨db, env.chainID members⟩ .cloneSegments s
    | none =>
      match ← materializeMembersAt env members finalizeStage with
      | .error e => return .error e
      | .ok s => stampEntry env ⟨db, env.chainID members⟩ .materialize s
  else return .error .io

def cloneIntoPlace (name : EntryName ι) (dst : Path) : M ι (Except Err Unit) := do
  match ← readEntry name with
  | .error e => return .error e
  | .ok file =>
    if ← renameOver dst file then
      removeSibling dst .wal
      removeSibling dst .shm
      return .ok ()
    else return .error .io

def materializeDirect (members : List κ) (dst : Path) : M ι (Except Err (Placement ι)) := do
  match ← materializeMembersAt env members (finalizeDestination dst) with
  | .error e => return .error e
  | .ok s => return .ok ⟨.materialize, env.chainID members, s.running, ""⟩

/-- Build the entry and clone it, or else write the destination from the store. -/
def materializeBuilt (db : String) (members : List κ) (dst : Path) :
    M ι (Except Err (Placement ι)) := do
  -- `canCloneByChain` clones a probe file.
  if ← attempt then
    match ← buildByChainEntry env db members with
    | .error _ => materializeDirect env members dst
    | .ok b =>
      match ← cloneIntoPlace ⟨db, env.chainID members⟩ dst with
      | .error _ => materializeDirect env members dst
      | .ok () =>
        return .ok ⟨b.1, env.chainID members, b.2.postApplyChecksum, b.2.hash⟩
  else materializeDirect env members dst

def materializeFromChain (db : String) (members : List κ) (dst : Path) :
    M ι (Except Err (Placement ι)) := do
  match ← byChainEntry ⟨db, env.chainID members⟩ with
  | none => materializeBuilt env db members dst
  | some r =>
    match ← cloneIntoPlace ⟨db, env.chainID members⟩ dst with
    | .error _ => materializeBuilt env db members dst
    | .ok () => return .ok ⟨.clone, env.chainID members, r.postApplyChecksum, r.hash⟩

/-! ## Eviction -/

/-- `pruneByChain`, with the entries it chose. -/
def pruneByChain : List (EntryName ι) → M ι Unit
  | [] => return ()
  | name :: names => do
    if ← removeEntry name then
      let _ ← removeSidecar name
      pruneByChain names
    else pruneByChain names

/-- `EvictROCache`, with the entries it chose. -/
def evictROCache : List (EntryName ι) → M ι Unit
  | [] => return ()
  | name :: names => do
    if ← removeEntry name then
      if ← removeSidecar name then evictROCache names else return ()
    else return ()

/-! ## The machine -/

inductive Job (κ ι : Type) where
  | materialize (db : String) (members : List κ) (dst : Path)
  | prune (names : List (EntryName ι))
  | evict (names : List (EntryName ι))

def Job.dst : Job κ ι → Option Path
  | materialize _ _ dst => some dst
  | _ => none

def recordResult (i : Nat) (r : Except Err (Placement ι)) : M ι Unit :=
  .step fun _ m => ({ m with returned := Function.update m.returned i (some r) }, ())

def Job.run (i : Nat) : Job κ ι → M ι Unit
  | materialize db members dst => do
    let r ← materializeFromChain env db members dst
    recordResult i r
  | prune names => pruneByChain names
  | evict names => evictROCache names

/-- Any number of processes, each with its job.  A crash leaves the files as they are. -/
def machine (job : Nat → Job κ ι) : System (Machine ι) Bool Unit where
  prog i _ := (job i).run env i
  enabled _ := True
  crash _ m := m

end Offshoot.ByChain
