import Mathlib.Data.Finset.SymmDiff
import Mathlib.Data.List.Basic

/-!
# Database images and LTX files

A database is a file of equally long pages, numbered from one.  A snapshot holds
every page of it; a segment holds the pages one flush changed, with the checksum
of the content it applies to and of the content it leaves.

The rolling checksum is the exclusive or of one checksum per page, and the lock
page is left out of it.  Here a checksum is the set of the pages folded into it,
with symmetric difference as the exclusive or: equal checksums then mean equal
pages, which is what the source relies on.  The bytes of a page are a number,
paired with how many there are.
-/

namespace Offshoot

open scoped symmDiff

structure Bytes where
  length : Nat
  value : Nat
  deriving DecidableEq, Repr

structure Page where
  pgno : Nat
  data : Bytes
  deriving DecidableEq, Repr

/-- A database file: its page size and its pages, page `n` at position `n - 1`. -/
structure Image where
  pageSize : Nat
  pages : List Bytes
  deriving DecidableEq, Repr

abbrev Checksum := Finset (Nat × Bytes)

/-- The page that holds the byte at 1 GiB, which no database uses. -/
def lockPgno (pageSize : Nat) : Nat := 0x40000000 / pageSize + 1

def checksumPage (pgno : Nat) (data : Bytes) : Checksum := {(pgno, data)}

/-- Fold a page's old data out of a running checksum and its new data in. -/
def updateChecksum (running : Checksum) (pgno : Nat) (oldData newData : Option Bytes) : Checksum :=
  (running ∆ (oldData.elim ∅ (checksumPage pgno))) ∆ (newData.elim ∅ (checksumPage pgno))

/-- The checksum of pages `pgno, pgno + 1, …`. -/
def foldPages (lock : Nat) : Nat → List Bytes → Checksum
  | _, [] => ∅
  | pgno, data :: rest =>
    (if pgno = lock then ∅ else checksumPage pgno data) ∆ foldPages lock (pgno + 1) rest

namespace Image

def commit (img : Image) : Nat := img.pages.length

def page? (img : Image) (pgno : Nat) : Option Bytes :=
  match pgno with
  | 0 => none
  | n + 1 => img.pages[n]?

def checksum (img : Image) : Checksum := foldPages (lockPgno img.pageSize) 1 img.pages

def zeroPage (pageSize : Nat) : Bytes := ⟨pageSize, 0⟩

def writeAt (img : Image) (pgno : Nat) (data : Bytes) : Image :=
  { img with pages := (img.pages ++
      List.replicate (pgno - img.pages.length) (zeroPage img.pageSize)).set (pgno - 1) data }

def truncate (img : Image) (n : Nat) : Image :=
  { img with pages := (img.pages ++
      List.replicate (n - img.pages.length) (zeroPage img.pageSize)).take n }

/-- The image as a snapshot carries it: without what the lock page holds. -/
def blankLock (img : Image) : Image :=
  { img with pages := img.pages.set (lockPgno img.pageSize - 1) (zeroPage img.pageSize) }

end Image

/-! ## Files -/

structure Segment where
  pageSize : Nat
  commit : Nat
  minTXID : Nat
  maxTXID : Nat
  preApplyChecksum : Checksum
  postApplyChecksum : Checksum
  pages : List Page
  deriving DecidableEq

/-- A decoded snapshot.  Its own checksum is that of the image. -/
structure Snapshot where
  txid : Nat
  image : Image
  deriving DecidableEq

inductive EncodeErr where
  | badRange
  | startsAtOne
  | pageLength
  | notSorted
  | noHeader
  deriving DecidableEq

def encodeSnapshot (img : Image) (txid : Nat) : Except EncodeErr Snapshot :=
  if img.pages = [] then .error .noHeader else .ok ⟨txid, img.blankLock⟩

def sortedPages (pages : List Page) : Bool :=
  (pages.map (·.pgno)).Pairwise (· < ·)

def encodeSegment (pageSize commit minTXID maxTXID : Nat) (pre post : Checksum)
    (pages : List Page) : Except EncodeErr Segment :=
  if minTXID = 0 ∨ maxTXID < minTXID then .error .badRange
  else if minTXID = 1 then .error .startsAtOne
  else if pages.any (·.data.length ≠ pageSize) then .error .pageLength
  else if !sortedPages pages then .error .notSorted
  else .ok
    { pageSize, commit, minTXID, maxTXID
      preApplyChecksum := pre
      postApplyChecksum := post
      pages := pages.filter (·.pgno ≠ lockPgno pageSize) }

/-! ## Reading a chain back -/

inductive MaterializeErr where
  | notASnapshot
  | notASegment
  | pageSizeMismatch
  | txidGap
  | preApplyMismatch
  | uncarriedGrowth
  | postApplyMismatch
  deriving DecidableEq, Repr

/-- A growing commit must carry every page it adds, the lock page apart. -/
def checkGrowth (commit prevCommit lock : Nat) (carried : List Nat) : Bool :=
  if commit ≤ prevCommit then true
  else
    let need := commit - prevCommit - (if prevCommit < lock ∧ lock ≤ commit then 1 else 0)
    let got := carried.dedup.countP fun pgno =>
      prevCommit < pgno && pgno ≤ commit && pgno ≠ lock
    got == need

structure Applied where
  image : Image
  txid : Nat
  running : Checksum
  deriving DecidableEq

def applyPage (commit prevCommit : Nat) (s : Image × Checksum) (p : Page) : Image × Checksum :=
  let lock := lockPgno s.1.pageSize
  let oldData := if p.pgno ≤ prevCommit ∧ p.pgno ≠ lock then s.1.page? p.pgno else none
  let newData := if p.pgno ≤ commit ∧ p.pgno ≠ lock then some p.data else none
  (s.1.writeAt p.pgno p.data, updateChecksum s.2 p.pgno oldData newData)

/-- Fold out the pages a shrinking commit drops without carrying them. -/
def dropPages (img : Image) (commit prevCommit : Nat) (touched : List Nat)
    (running : Checksum) : Checksum :=
  ((List.range' (commit + 1) (prevCommit - commit)).filter
      fun pgno => pgno ≠ lockPgno img.pageSize && pgno ∉ touched).foldl
    (fun c pgno => updateChecksum c pgno (img.page? pgno) none) running

def applySegment (s : Applied) (seg : Segment) : Except MaterializeErr Applied :=
  if seg.minTXID = 1 then .error .notASegment
  else if seg.pageSize ≠ s.image.pageSize then .error .pageSizeMismatch
  else if seg.minTXID ≠ s.txid + 1 then .error .txidGap
  else if seg.preApplyChecksum ≠ s.running then .error .preApplyMismatch
  else
    let prevCommit := s.image.commit
    let touched := seg.pages.map (·.pgno)
    let written := seg.pages.foldl (applyPage seg.commit prevCommit) (s.image, s.running)
    if !checkGrowth seg.commit prevCommit (lockPgno seg.pageSize) touched then
      .error .uncarriedGrowth
    else
      let running := dropPages written.1 seg.commit prevCommit touched written.2
      if running ≠ seg.postApplyChecksum then .error .postApplyMismatch
      else .ok ⟨written.1.truncate seg.commit, seg.maxTXID, running⟩

def applySegments (s : Applied) : List Segment → Except MaterializeErr Applied
  | [] => .ok s
  | seg :: rest =>
    match applySegment s seg with
    | .error e => .error e
    | .ok s => applySegments s rest

def materializeChain (snapshot : Snapshot) (segments : List Segment) :
    Except MaterializeErr Applied :=
  applySegments ⟨snapshot.image, snapshot.txid, snapshot.image.checksum⟩ segments

end Offshoot
