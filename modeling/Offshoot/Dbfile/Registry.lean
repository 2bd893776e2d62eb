import Mathlib.Data.List.Sort
import Offshoot.Lib.Concurrent
import Offshoot.Lib.Counts

/-!
# The registry of descriptors

`internal/dbfile/dbfile.go`: read-only descriptors on database files, cached one per path.
A region under `mu` is one action; so is a call of `os.Stat` and a close of a descriptor,
which run outside it, and so is a change of what a path names.  The order in which a Go map
is walked is up to the oracle.

An inode stands for a file: a number the file system gives away again is a new one.  The
cumulative counts and what only tests look at are left out.
-/

namespace Offshoot.Dbfile

open Conc Counters

abbrev Path := String

structure Inode where
  dev : Nat
  ino : Nat
  deriving DecidableEq, Repr

structure Entry where
  path : Path
  f : Nat
  ino : Inode
  lastUse : Nat
  deriving DecidableEq, Repr

/-- An open `Section`, named by the call of `Reader` that returned it. -/
structure Section where
  id : Nat
  f : Nat
  ino : Inode
  deriving DecidableEq, Repr

/-- An active `Hold`, named by its call.  `seen` are the inodes its path has named since it
became active, with the one it pins; `conns` are the inodes of the connections opened under
it and not closed. -/
structure Hold where
  id : Nat
  path : Path
  ino : Inode
  seen : List Inode
  conns : List Inode
  deriving DecidableEq, Repr

/-- The registry, the file system and what the callers have.  `marked` are the descriptors
each call has decided to close and not closed, `clearing` those it has closed and whose
marks it has not cleared; `closed` is the history of closes. -/
structure World where
  files : Path → Option Inode
  live : List Entry
  orphans : List Entry
  pins : Inode → Nat
  held : Path → Nat
  closingPath : Path → Nat
  closingIno : Inode → Nat
  unidentified : List Nat
  clock : Nat
  nextFd : Nat
  sections : List Section
  holds : List Hold
  marked : List (Nat × Entry)
  clearing : List (Nat × Entry)
  closed : List Entry

def World.start (files : Path → Option Inode) : World :=
  ⟨files, [], [], fun _ => 0, fun _ => 0, fun _ => 0, fun _ => 0, [], 0, 0, [], [], [], [], []⟩

/-- What the system decides in one action: the calls that fail, and the order a map is
walked in. -/
structure Oracle where
  statFails : Bool
  openFails : Bool
  identFails : Bool
  sizeFails : Bool
  order : List Entry → List Entry

def Oracle.fine : Oracle := ⟨false, false, false, false, id⟩

def Oracle.arrange (o : Oracle) (es : List Entry) : List Entry :=
  if (o.order es).Perm es then o.order es else es

/-! ## Regions -/

inductive StatErr
  | notExist
  | other
  deriving DecidableEq, Repr

namespace World

def lookup (w : World) (p : Path) : Option Entry := w.live.find? (·.path = p)

/-- Move the path's cached descriptor, if any, to the orphans. -/
def orphanLocked (w : World) (p : Path) : World :=
  match w.lookup p with
  | none => w
  | some e => { w with live := w.live.erase e, orphans := w.orphans ++ [e] }

def touchLocked (w : World) (e : Entry) : World :=
  { w with
    clock := w.clock + 1
    live := w.live.map fun e' => if e'.f = e.f then { e' with lastUse := w.clock + 1 } else e' }

/-- Open the path and cache the descriptor, under the inode of what was opened. -/
def openLocked (w : World) (o : Oracle) (p : Path) : World × Option Entry :=
  match w.files p with
  | none => (w, none)
  | some ino =>
    if o.openFails then (w, none)
    else if o.identFails then
      ({ w with nextFd := w.nextFd + 1, unidentified := w.unidentified ++ [w.nextFd] }, none)
    else
      let e : Entry := ⟨p, w.nextFd, ino, 0⟩
      ({ w with nextFd := w.nextFd + 1, live := w.live ++ [e] }, some e)

/-- Pin the descriptor for a `Section`. -/
def pinLocked (w : World) (o : Oracle) (i : Nat) (e : Entry) : World :=
  if o.sizeFails then w
  else { w.touchLocked e with
    pins := inc w.pins e.ino
    sections := ⟨i, e.f, e.ino⟩ :: w.sections }

def openAndPin (w : World) (o : Oracle) (i : Nat) (p : Path) : World :=
  match w.openLocked o p with
  | (w, none) => w
  | (w, some e) => w.pinLocked o i e

def readerLocked (w : World) (o : Oracle) (i : Nat) (p : Path) : Except StatErr Inode → World
  | .error .notExist => w.orphanLocked p
  | .error .other => w
  | .ok want =>
    match w.lookup p with
    | some e =>
      if e.ino = want then w.pinLocked o i e else (w.orphanLocked p).openAndPin o i p
    | none => w.openAndPin o i p

/-- `Section.Close`: once. -/
def closeSection (w : World) (i : Nat) : World :=
  match w.sections.find? (·.id = i) with
  | none => w
  | some s => { w with sections := w.sections.erase s, pins := dec w.pins s.ino }

/-- The region of `Hold`: wait while a close of the path or the inode is in flight. -/
def holdLocked (w : World) (i : Nat) (p : Path) (ino : Inode) : World × Bool :=
  if 0 < w.closingPath p ∨ 0 < w.closingIno ino then (w, false)
  else
    let w' := match w.lookup p with
      | some e => if e.ino = ino then w.touchLocked e else w
      | none => w
    ({ w' with
        held := inc w.held p
        pins := inc w.pins ino
        holds := ⟨i, p, ino, ino :: (w.files p).toList, []⟩ :: w.holds }, true)

def release (w : World) (i : Nat) : World :=
  match w.holds.find? (·.id = i) with
  | none => w
  | some h => { w with
    holds := w.holds.erase h
    held := dec w.held h.path
    pins := dec w.pins h.ino }

def markClosingLocked (w : World) (i : Nat) (es : List Entry) : World :=
  { w with
    closingPath := es.foldl (fun m e => inc m e.path) w.closingPath
    closingIno := es.foldl (fun m e => inc m e.ino) w.closingIno
    marked := es.map (i, ·) ++ w.marked }

def closable (w : World) (inside : Path → Bool) (e : Entry) : Bool :=
  w.pins e.ino = 0 && inside e.path && w.held e.path = 0

def takeOrphans (w : World) (o : Oracle) (i : Nat) (inside : Path → Bool) : World × List Entry :=
  let victims := o.arrange (w.orphans.filter (w.closable inside))
  ({ w with orphans := w.orphans.filter fun e => !w.closable inside e }.markClosingLocked i victims,
    victims)

/-- The loop of `evict` that picks at most so many. -/
def pickVictims (w : World) : Nat → List Entry → List Entry
  | 0, _ => []
  | _, [] => []
  | n + 1, e :: es =>
    if 0 < w.pins e.ino ∨ 0 < w.held e.path then w.pickVictims (n + 1) es
    else e :: w.pickVictims n es

def takeExcess (w : World) (o : Oracle) (i keep : Nat) (inside : Path → Bool) :
    World × List Entry :=
  let inScope := o.arrange (w.live.filter fun e => inside e.path)
  let victims := w.pickVictims (inScope.length - keep)
    (inScope.insertionSort fun a b => a.lastUse ≤ b.lastUse)
  ({ w with live := w.live.filter (· ∉ victims) }.markClosingLocked i victims, victims)

def closeFd (w : World) (i : Nat) (e : Entry) : World :=
  { w with
    marked := w.marked.erase (i, e)
    clearing := (i, e) :: w.clearing
    closed := e :: w.closed }

def clearMark (w : World) (i : Nat) (e : Entry) : World :=
  { w with
    clearing := w.clearing.erase (i, e)
    closingPath := dec w.closingPath e.path
    closingIno := dec w.closingIno e.ino }

/-- The region of `sweep` for one stale descriptor: unless it is no longer the cached one. -/
def orphanIfCached (w : World) (e : Entry) : World :=
  match w.lookup e.path with
  | none => w
  | some e' => if e'.f = e.f then w.orphanLocked e.path else w

/-! ## What others do to the files, and connections -/

def rename (w : World) (p : Path) (ino : Inode) : World :=
  { w with
    files := fun p' => if p' = p then some ino else w.files p'
    holds := w.holds.map fun h => if h.path = p then { h with seen := ino :: h.seen } else h }

def remove (w : World) (p : Path) : World :=
  { w with files := fun p' => if p' = p then none else w.files p' }

/-- A connection is opened under the `Hold`, on an inode its path has named. -/
def connect (w : World) (i : Nat) (ino : Inode) : World :=
  { w with holds := w.holds.map fun h =>
      if h.id = i ∧ ino ∈ h.seen then { h with conns := ino :: h.conns } else h }

def disconnect (w : World) (i : Nat) (ino : Inode) : World :=
  { w with holds := w.holds.map fun h =>
      if h.id = i then { h with conns := h.conns.erase ino } else h }

end World

/-! ## Calls -/

abbrev M := Prog World Oracle

def region (f : Oracle → World → World) : M Unit := .step fun o w => (f o w, ())

def stat (p : Path) : M (Except StatErr Inode) := .step fun o w =>
  (w, if o.statFails then .error .other
    else match w.files p with
      | none => .error .notExist
      | some ino => .ok ino)

variable (i : Nat)

def reader (p : Path) : M Unit := do
  let want ← stat p
  region fun o w => w.readerLocked o i p want

/-- The loop of `Hold` around its wait; so many rounds are looked at. -/
def awaitClosed (i : Nat) (p : Path) (ino : Inode) : Nat → M Unit
  | 0 => return ()
  | n + 1 => do
    match ← Prog.step fun _ w => w.holdLocked i p ino with
    | true => return ()
    | false => awaitClosed i p ino n

def hold (p : Path) (rounds : Nat) : M Unit := do
  match ← stat p with
  | .error _ => return ()
  | .ok ino => awaitClosed i p ino rounds

def verify (p : Path) (ino : Inode) : M Bool := do
  match ← stat p with
  | .error _ => return false
  | .ok got => return got = ino

/-- Close what was marked, each outside the mutex, and clear its mark. -/
def closeMarked (i : Nat) : List Entry → M Unit
  | [] => return ()
  | e :: es => do
    region fun _ w => w.closeFd i e
    region fun _ w => w.clearMark i e
    closeMarked i es

def closeOrphans (inside : Path → Bool) : M Nat := do
  let victims ← Prog.step fun o w => w.takeOrphans o i inside
  closeMarked i victims
  return victims.length

/-- Is what is cached for its path another file now, or none? -/
def stale (e : Entry) : Except StatErr Inode → Bool
  | .error .notExist => true
  | .error .other => false
  | .ok ino => ino ≠ e.ino

def sweepEach : List Entry → M Unit
  | [] => return ()
  | e :: es => do
    let found ← stat e.path
    if stale e found then region fun _ w => w.orphanIfCached e
    sweepEach es

def sweep (inside : Path → Bool) : M Unit := do
  let cands ← Prog.step fun o w => (w, o.arrange (w.live.filter fun e => inside e.path))
  sweepEach cands

def evictStranded (inside : Path → Bool) : M Nat := do
  sweep inside
  closeOrphans i inside

def within (root p : Path) : Bool := p.startsWith (root ++ "/")

def evictStrandedAt (roots : List Path) : M Nat := do
  sweep fun p => roots.any fun r => p = r || within r p
  closeOrphans i fun _ => true

def evict (keep : Nat) (inside : Path → Bool) : M Nat := do
  let victims ← Prog.step fun o w => w.takeExcess o i keep inside
  closeMarked i victims
  return victims.length

def evictUnder (dir : Path) : M Nat := do
  let stranded ← evictStranded i (within dir)
  let cached ← evict i 0 (within dir)
  return stranded + cached

/-! ## The system -/

inductive Op
  | reader (p : Path)
  | closeSection (i : Nat)
  | hold (p : Path) (rounds : Nat)
  | release (i : Nat)
  | verify (p : Path) (ino : Inode)
  | evict (keep : Nat)
  | evictStranded
  | evictStrandedAt (roots : List Path)
  | evictUnder (dir : Path)
  | connect (i : Nat) (ino : Inode)
  | disconnect (i : Nat) (ino : Inode)
  | rename (p : Path) (ino : Inode)
  | remove (p : Path)

def discard (p : M α) : M Unit := do
  let _ ← p
  return ()

def Op.prog : Op → M Unit
  | .reader p => Dbfile.reader i p
  | .closeSection j => region fun _ w => w.closeSection j
  | .hold p rounds => Dbfile.hold i p rounds
  | .release j => region fun _ w => w.release j
  | .verify p ino => discard (Dbfile.verify p ino)
  | .evict keep => discard (Dbfile.evict i keep fun _ => true)
  | .evictStranded => discard (Dbfile.evictStranded i fun _ => true)
  | .evictStrandedAt roots => discard (Dbfile.evictStrandedAt i roots)
  | .evictUnder dir => discard (Dbfile.evictUnder i dir)
  | .connect j ino => region fun _ w => w.connect j ino
  | .disconnect j ino => region fun _ w => w.disconnect j ino
  | .rename p ino => region fun _ w => w.rename p ino
  | .remove p => region fun _ w => w.remove p

/-- What is passed to `Reader` and to `Hold`, and the one path each inode is reached
through, of the paths `one`. -/
structure Use where
  reader : Path → Prop
  hold : Path → Prop
  one : Path → Prop
  home : Inode → Path

/-- The files of the paths `one` are where they belong. -/
def Use.names (u : Use) (p : Path) (ino : Inode) : Prop := u.one p → u.home ino = p

def Use.allows (u : Use) : Op → Prop
  | .reader p => u.reader p
  | .hold p _ => u.hold p
  | .rename p ino => u.names p ino
  | _ => True

instance (u : Use) [DecidablePred u.reader] [DecidablePred u.hold] [DecidablePred u.one] :
    DecidablePred u.allows
  | .reader p => inferInstanceAs (Decidable (u.reader p))
  | .hold p _ => inferInstanceAs (Decidable (u.hold p))
  | .rename p ino => inferInstanceAs (Decidable (u.one p → u.home ino = p))
  | .closeSection _ | .release _ | .verify _ _ | .evict _ | .evictStranded | .evictStrandedAt _
  | .evictUnder _ | .connect _ _ | .disconnect _ _ | .remove _ => .isTrue trivial

/-- The process.  A call that stops for good keeps what it has. -/
def system (u : Use) : System World Oracle Op := ⟨Op.prog, u.allows, fun _ w => w⟩

instance (u : Use) [DecidablePred u.reader] [DecidablePred u.hold] [DecidablePred u.one] :
    DecidablePred (system u).enabled := inferInstanceAs (DecidablePred u.allows)

end Offshoot.Dbfile
