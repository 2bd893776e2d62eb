import Offshoot.Lib.Concurrent
import Offshoot.Session.State

/-!
# The world the operations run in

The shared part is the object store: the refs, the data objects and the tombstone
list.  Each session has its memory, and each host a checkout per branch with its
sidecar and shadow.

On a backend whose conditional writes are not settled when they return, a write
that reported failure may still land, later and once, if the key then holds what
the write was sent against; `pending` lists those writes.

The history is not part of any process: it records what happened, so that
statements about runs can refer to it.
-/

namespace Offshoot

open Maps

structure BranchId where
  db : String
  branch : String
  deriving DecidableEq, Repr

/-! ## Checkouts -/

/-- A checkout's sidecar.  `hash` stands for the bytes it was taken over, and is
absent from a record that must match no file. -/
structure SumRecord where
  hash : Option Image
  lineage : Lineage
  epoch : Nat
  txid : Nat
  postApplyChecksum : Option Checksum
  shadow : Bool
  chain : List DataKey
  deriving DecidableEq

/-- What a host has of a branch.  `inode` tells the files apart that were renamed to the
checkout's path one after the other. -/
structure Checkout where
  file : Option Image
  inode : Nat
  sum : Option SumRecord
  shadow : Option Image
  deriving DecidableEq

def Checkout.empty : Checkout := ⟨none, 0, none, none⟩

/-! ## Errors -/

inductive Err where
  | notFound
  | cas
  | backend
  | chain (e : ChainErr DataKey)
  | materialize (e : MaterializeErr)
  | encode (e : EncodeErr)
  | reaping
  | deleting
  | leaseHeld
  | leaseLost
  | holderMismatch
  | refused
  /-- The bound on a loop of the source that has none was reached. -/
  | stalled
  deriving DecidableEq

/-! ## History -/

inductive Call where
  | flush (name : Option String)
  | checkpoint (name : String)
  | prune (opts : PruneOptions)
  | touch (ttl : Option Nat)
  | protect (on : Bool)
  | acquire (holder : Holder)
  | renew (lease : Lease)
  | release (lease : Lease)
  | releaseByHolder (holder : Holder)
  deriving DecidableEq

inductive Outcome where
  | committed (txid : Nat)
  | pruned (names : List String)
  | done
  | failed
  deriving DecidableEq

/-- What happened, newest first in a log.  `wrote` is an operation on a ref taking
effect, with the ref before and after it: when its write lands or, if it finds
nothing to change, when it reads the ref.  `granted` is a lease a caller came to
hold, `stamped` the time a destroy gives its claim of the ref it has read; `marked`
and `unmarked` are a mark that completed and one that failed. -/
inductive Event where
  | minted (i : Nat) (lineage : Lineage)
  | wrote (i : Nat) (b : BranchId) (op : RefOp) (before after : Option Ref)
  | granted (i : Nat) (b : BranchId) (lineage : Lineage) (lease : Lease)
  | stamped (i : Nat) (b : BranchId) (time : Nat) (ref : Ref)
  | called (i : Nat) (b : BranchId) (call : Call)
  | returned (i : Nat) (b : BranchId) (out : Outcome)
  | marked (i : Nat) (time : Nat) (reachable : List DataKey)
  | unmarked (i : Nat) (e : Err)
  | swept (i : Nat) (time : Nat) (key : DataKey)
  deriving DecidableEq

/-- A failed write that may still land. -/
inductive Pending where
  | ref (i : Nat) (b : BranchId) (op : RefOp) (before : Option Ref) (after : Ref)
  | put (key : DataKey) (obj : Obj) (createOnly : Bool)
  | stones (before after : Option (Map DataKey Nat))
  | delete (i : Nat) (b : BranchId)
  deriving DecidableEq

/-- The operations that must not overlap a garbage collection, and those passes. -/
inductive Flight where
  | fork
  | gc
  deriving DecidableEq, Repr

structure World where
  refs : Map BranchId Ref
  objs : Objects
  stones : Option (Map DataKey Nat)
  nextLineage : Lineage
  clock : Nat
  pending : List Pending
  sessions : Nat → Session
  checkouts : Nat → BranchId → Checkout
  inFlight : Nat → Option Flight
  log : List Event

namespace World

def empty : World where
  refs := ∅
  objs := ∅
  stones := none
  nextLineage := 0
  clock := 0
  pending := []
  sessions _ := .empty
  checkouts _ _ := .empty
  inFlight _ := none
  log := []

def setRef (w : World) (b : BranchId) (r : Option Ref) : World :=
  { w with refs := match r with
      | some r => w.refs.insert b r
      | none => w.refs.erase b }

def land (w : World) (i : Nat) (b : BranchId) (op : RefOp) (after : Option Ref) : World :=
  { w.setRef b after with log := .wrote i b op (w.refs.lookup b) after :: w.log }

def setSession (w : World) (i : Nat) (s : Session) : World :=
  { w with sessions := fun j => if j = i then s else w.sessions j }

def setCheckout (w : World) (host : Nat) (b : BranchId) (c : Checkout) : World :=
  { w with checkouts := fun h b' => if h = host ∧ b' = b then c else w.checkouts h b' }

def setFlight (w : World) (i : Nat) (f : Option Flight) : World :=
  { w with inFlight := fun j => if j = i then f else w.inFlight j }

def note (w : World) (e : Event) : World := { w with log := e :: w.log }

def view (w : World) : View DataKey := w.objs.view

end World

/-! ## What the environment decides -/

inductive Fate where
  | lost
  | landed
  | pending
  deriving DecidableEq, Repr

/-- The environment's choices for one action: whether the call fails, whether an
unsettled write then reports a conflict, what becomes of it, a yes or no, and a
number (a clock reading). -/
structure Oracle where
  fail : Bool
  cas : Bool
  fate : Fate
  yes : Bool
  num : Nat
  deriving DecidableEq, Repr

structure Env where
  /-- Failed conditional writes wrote nothing and will write nothing. -/
  settled : Bool
  /-- The backend can delete conditionally. -/
  conditionalDelete : Bool
  /-- All processes read one clock that never goes back. -/
  oneClock : Bool
  /-- How many segments a session writes per snapshot. -/
  snapshotEvery : Nat
  /-- Chains this long are copied rather than shared. -/
  shareBound : Nat
  deriving DecidableEq, Repr

def Oracle.fine : Oracle := ⟨false, false, .lost, false, 0⟩

/-- A local directory read by one clock, with the default bounds. -/
def Env.localDir : Env := ⟨true, true, true, 16, 16⟩

/-- An S3 bucket, which deletes outright, with the default bounds and clocks that
disagree. -/
def Env.bucket : Env := ⟨false, false, false, 16, 16⟩

abbrev M := Conc.Prog World Oracle

end Offshoot
