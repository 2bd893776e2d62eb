import Offshoot.GC.Pass
import Offshoot.Ops.Edit
import Offshoot.Ops.Repoint
import Offshoot.Session.Flush

/-!
# The system

Any number of clients run the operations below, each as a thread: it may start at
any time, and between any two of its calls to the store other threads run.  What
happens on its own is a thread too: an application editing a checkout, a capture
engine at work, the clock, and a write that lands late.

A session is one thread with a script of flushes and perhaps a close; its holder,
like that of a checkpoint, is its own thread id, so no two share one.
-/

namespace Offshoot

open Conc Maps

inductive Command where
  | flush (name : Option String)
  | close
  deriving DecidableEq

inductive Op where
  | acquire (b : BranchId) (holder : Holder) (ttl : Nat)
  | renew (b : BranchId) (lease : Lease) (ttl : Nat)
  | release (b : BranchId) (lease : Lease)
  | releaseByHolder (b : BranchId) (holder : Holder)
  | touch (b : BranchId) (ttl : Option Nat) (now attempts : Nat)
  | protect (b : BranchId) (on : Bool) (attempts : Nat)
  | prune (b : BranchId) (opts : PruneOptions) (attempts : Nat)
  | session (host : Nat) (b : BranchId) (ttl fuel : Nat) (resume : Option Image)
      (script : List Command)
  | checkpoint (host : Nat) (b : BranchId) (name : String) (fuel : Nat) (opts : CheckpointOptions)
  | checkout (host : Nat) (b : BranchId) (fuel : Nat)
  | create (db : String) (img : Image)
  | fork (host : Nat) (src new : BranchId) (opts : ForkOptions) (fuel : Nat)
  | rollback (host : Nat) (b : BranchId) (name : String) (opts : RepointOptions) (fuel : Nat)
  | promote (host : Nat) (db source target : String) (opts : RepointOptions) (fuel : Nat)
  | compact (host : Nat) (b : BranchId) (force : Bool) (fuel : Nat)
  | destroy (host : Nat) (b : BranchId) (force : Bool)
  | reap (host : Nat)
  | clearStale
  | gc (grace fuel : Nat)
  | appWrite (host : Nat) (b : BranchId) (img : Image)
  | captureRebase (session : Nat) (img : Image)
  | captureApply (session : Nat) (txn : Txn)
  | captureStop (session : Nat)
  | land (n : Nat)
  | tick (n : Nat)
  deriving DecidableEq

variable (env : Env) (i : Nat)

/-- Announce a call, make it, and report what it returned. -/
def calling (b : BranchId) (call : Call) (out : α → Outcome) (p : M (Result α)) : M Unit := do
  note (.called i b call)
  report i b out (← p)

/-- An operation that is in flight from its first step to its last. -/
def flying (f : Flight) (p : M α) : M Unit := do
  setFlight i (some f)
  let _ ← p
  setFlight i none

def runScript (env : Env) (i host : Nat) (b : BranchId) (fuel : Nat) : List Command → M Unit
  | [] => pure ()
  | .close :: _ => do
    let _ ← closeSession env i host b
    return ()
  | .flush name :: rest => do
    calling i b (.flush name) .committed (flush env i b name fuel)
    runScript env i host b fuel rest

def session (host : Nat) (b : BranchId) (ttl fuel : Nat) (resume : Option Image)
    (script : List Command) : M Unit := do
  match ← openSession env i host b ttl fuel resume with
  | .error _ => return ()
  | .ok () => runScript env i host b fuel script

def tick (n : Nat) : M Unit := .step fun _ w => ({ w with clock := w.clock + n }, ())

def Op.prog : Op → M Unit
  | acquire b holder ttl => calling i b (.acquire holder) (fun _ => .done)
      (acquireLease env i b holder ttl)
  | renew b lease ttl => calling i b (.renew lease) (fun _ => .done) (renewLease env i b lease ttl)
  | release b lease => calling i b (.release lease) (fun _ => .done) (releaseLease env i b lease)
  | releaseByHolder b holder => calling i b (.releaseByHolder holder) (fun _ => .done)
      (releaseLeaseByHolder env i b holder)
  | touch b ttl now attempts => calling i b (.touch ttl) (fun _ => .done)
      (Offshoot.touch env i b ttl now attempts)
  | protect b on attempts => calling i b (.protect on) (fun _ => .done)
      (setProtected env i b on attempts)
  | prune b opts attempts => calling i b (.prune opts) (.pruned ·.deleted)
      (pruneCheckpoints env i b opts attempts)
  | session host b ttl fuel resume script =>
      Offshoot.session env i host b ttl fuel resume script
  | checkpoint host b name fuel opts => calling i b (.checkpoint name) .committed
      (Offshoot.checkpoint env i host b name fuel opts)
  | checkout host b fuel => do let _ ← checkoutProven host b fuel
  | create db img => flying i .fork (Offshoot.create env i db img)
  | fork host src new opts fuel => flying i .fork (Offshoot.fork env i host src new opts fuel)
  | rollback host b name opts fuel =>
      flying i .fork (Offshoot.rollback env i host b name opts fuel)
  | promote host db source target opts fuel =>
      flying i .fork (Offshoot.promote env i host db source target opts fuel)
  | compact host b force fuel => flying i .fork (Offshoot.compact env i host b force fuel)
  | destroy host b force => do let _ ← Offshoot.destroy env i host b force
  | reap host => Offshoot.reap env i host
  | clearStale => Offshoot.clearStale env i
  | gc grace fuel => flying i .gc (Offshoot.gc env i grace fuel)
  | appWrite host b img => setCheckout host b fun c => { c with file := some img }
  | captureRebase s img => Offshoot.captureRebase s img
  | captureApply s txn => Offshoot.captureApply s txn
  | captureStop s => Offshoot.captureStop s
  | land n => landLate n
  | tick n => Offshoot.tick n

def system (enabled : Op → Prop) : System World Oracle Op where
  prog := Op.prog env
  enabled := enabled
  crash i w := w.setFlight i none

instance {env : Env} {enabled : Op → Prop} [h : DecidablePred enabled] :
    DecidablePred (system env enabled).enabled := h

namespace Op

def forks : Op → Bool
  | create .. | fork .. | rollback .. | promote .. | compact .. => true
  | _ => false

def repoints : Op → Bool
  | rollback .. | promote .. | compact .. => true
  | _ => false

def moves : Op → Bool
  | session .. | checkpoint .. => true
  | _ => false

def collects : Op → Bool
  | gc .. => true
  | _ => false

end Op

end Offshoot
