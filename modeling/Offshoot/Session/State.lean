import Offshoot.Store.RefOp

/-!
# A session's memory

A session captures the transactions an application commits to its checkout: each
is applied to a private replica of the database, and the pages it changed wait in
a page set for the next flush.  A rebase replaces the replica as a whole.  The
session keeps the checksum of the replica and the checksum of the content its
last flush made durable; the next segment declares the latter as what it applies
to.

Everything here happens under one lock, so each function is one atomic change.
-/

namespace Offshoot

open Maps

/-- A captured transaction: its frames in commit order and the size of the
database it leaves. -/
structure Txn where
  frames : List Page
  commit : Nat
  deriving DecidableEq

def Txn.latest (txn : Txn) : Map Nat Bytes :=
  txn.frames.foldl (fun m f => m.insert f.pgno f.data) ∅

def Txn.replay (txn : Txn) (img : Image) : Image :=
  (txn.frames.foldl (fun img f => img.writeAt f.pgno f.data) img).truncate txn.commit

/-- Where the capture engine is.  It is ready once it has resumed from a clean
state or has made its startup rebase. -/
inductive Engine where
  | starting
  | ready
  | stopped
  deriving DecidableEq, Repr

structure Session where
  lease : Lease
  replica : Option Image
  engine : Engine
  pages : Map Nat Bytes
  checksum : Checksum
  /-- The checksum of the content the next segment applies to. -/
  flushChecksum : Checksum
  /-- The size and page size of the last transaction applied. -/
  commit : Nat
  pageSize : Nat
  forceSnapshot : Bool
  rebaseGen : Nat
  appliedGen : Nat
  flushedGen : Nat
  flushedRebaseGen : Nat
  flushesSinceSnapshot : Nat
  divergenceSeeded : Bool
  cleanAtOpen : Bool
  /-- The checksum of the head at open, if the checkout was clean against it. -/
  headPostApplyChecksum : Option Checksum
  durable : Nat
  lastFlushOK : Bool

namespace Session

def empty : Session where
  lease := ⟨0, 0, none⟩
  replica := none
  engine := .starting
  pages := ∅
  checksum := ∅
  flushChecksum := ∅
  commit := 0
  pageSize := 0
  forceSnapshot := false
  rebaseGen := 0
  appliedGen := 0
  flushedGen := 0
  flushedRebaseGen := 0
  flushesSinceSnapshot := 0
  divergenceSeeded := false
  cleanAtOpen := false
  headPostApplyChecksum := none
  durable := 0
  lastFlushOK := false

/-- The checksum of the replica after a transaction, kept up page by page. -/
def nextChecksum (s : Session) (img : Image) (txn : Txn) : Checksum :=
  let lock := lockPgno img.pageSize
  let prevCommit := img.commit
  let running := txn.latest.entries.foldl (fun c p =>
    if p.1 = lock then c
    else updateChecksum c p.1 (if p.1 ≤ prevCommit then img.page? p.1 else none)
      (if p.1 ≤ txn.commit then some p.2 else none)) s.checksum
  dropPages img txn.commit prevCommit txn.latest.keys running

/-- Record a captured transaction and apply it to the replica.  A transaction
that grows the database without carrying every page it adds is an error. -/
def recordApply (s : Session) (txn : Txn) : Option Session :=
  match s.replica with
  | none => none
  | some img =>
    if txn.frames = [] ∨ txn.commit = 0 then none
    else if !checkGrowth txn.commit img.commit (lockPgno img.pageSize) txn.latest.keys then none
    else some { s with
      replica := some (txn.replay img)
      checksum := s.nextChecksum img txn
      commit := txn.commit
      pageSize := img.pageSize
      pages := keepIf (fun pgno _ => pgno ≤ txn.commit)
        (txn.frames.foldl (fun m f => m.insert f.pgno f.data) s.pages)
      appliedGen := s.appliedGen + 1 }

/-- Take the replica as the new baseline.  The first time, if the checkout was
clean and still has the checksum of the head, nothing needs to be flushed and the
next flush may be a segment. -/
def rebaseline (s : Session) : Option Session :=
  match s.replica with
  | none => none
  | some img =>
    if img.pages = [] then none
    else
      let sum := img.checksum
      let next := { s with
        checksum := sum
        flushChecksum := sum
        pages := ∅
        forceSnapshot := true
        rebaseGen := s.rebaseGen + 1 }
      if s.rebaseGen = 0 ∧ s.cleanAtOpen ∧ s.headPostApplyChecksum = some sum then
        some { next with forceSnapshot := false, flushedRebaseGen := next.rebaseGen }
      else some next

def rebase (s : Session) (img : Image) : Option Session :=
  ({ s with replica := some img }).rebaseline

def onRebase (s : Session) (img : Image) : Session :=
  if s.engine = .stopped then s
  else match s.rebase img with
    | some s => { s with engine := .ready }
    | none => { s with replica := some img, engine := .stopped }

/-- The engine hands over a transaction; one that cannot be applied stops it. -/
def onApply (s : Session) (txn : Txn) : Session :=
  if s.engine ≠ .ready then s
  else match s.recordApply txn with
    | some s => s
    | none => { s with engine := .stopped }

def pending (s : Session) : List Page :=
  ((s.pages.entries.map fun e => Page.mk e.1 e.2).insertionSort fun a b => a.pgno ≤ b.pgno)

def idle (s : Session) : Bool :=
  s.appliedGen = s.flushedGen && s.rebaseGen = s.flushedRebaseGen

end Session

end Offshoot
