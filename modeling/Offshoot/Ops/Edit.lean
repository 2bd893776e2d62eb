import Offshoot.Ops.Lease

/-!
# Touch, protect, prune

Three edits of one ref.  Each reads the ref, checks it, and writes it back; when
it loses the compare-and-swap it starts again from a fresh read.  The source
retries without a bound, so each takes the number of attempts it gets.
-/

namespace Offshoot

open Conc Maps

def touch (env : Env) (i : Nat) (b : BranchId) (ttl : Option Nat) (now : Nat) : Nat → M (Result Ref)
  | 0 => pure (.error .stalled)
  | attempts + 1 => do
    match ← getRef b with
    | .error e => return .error e
    | .ok ref =>
      if ref.reaping then return .error .refused
      else
        let next := (ref.setTTL ttl).touch now
        match ← putRef env i b (.edit (.touch ttl now)) next (some ref) with
        | .ok () => return .ok next
        | .error .cas => touch env i b ttl now attempts
        | .error e => return .error e

def setProtected (env : Env) (i : Nat) (b : BranchId) (on : Bool) : Nat → M (Result Ref)
  | 0 => pure (.error .stalled)
  | attempts + 1 => do
    match ← getRefFor i b (.protect on) fun r =>
        !(r.reaping || r.deleting) && r.isProtected = on with
    | .error e => return .error e
    | .ok ref =>
      if ref.reaping || ref.deleting then return .error .refused
      else if ref.isProtected = on then return .ok ref
      else
        let next := { ref with isProtected := on }
        match ← putRef env i b (.edit (.protect on)) next (some ref) with
        | .ok () => return .ok next
        | .error .cas => setProtected env i b on attempts
        | .error e => return .error e

def PruneOptions.valid (opts : PruneOptions) : Bool := opts.keep.isSome != (opts.names != [])

/-- A prune refuses a ref that is going away, and a protected one without force. -/
def pruneRefused (opts : PruneOptions) (r : Ref) : Bool :=
  r.reaping || r.deleting || (r.isProtected && !opts.force)

structure PruneResult where
  deleted : List String
  kept : Nat

def pruneResult (r : Ref) (drop : List String) : PruneResult :=
  ⟨drop.insertionSort (· ≤ ·), (values r.checkpoints).length - drop.length⟩

def pruneLoop (env : Env) (i : Nat) (b : BranchId) (opts : PruneOptions) :
    Nat → M (Result PruneResult)
  | 0 => pure (.error .stalled)
  | attempts + 1 => do
    match ← getRefFor i b (.prune opts) fun r =>
        !pruneRefused opts r && pruneDrop opts r = some [] with
    | .error e => return .error e
    | .ok ref =>
      if pruneRefused opts ref then return .error .refused
      else match pruneDrop opts ref with
        | none => return .error .refused
        | some [] => return .ok (pruneResult ref [])
        | some drop =>
          match ← putRef env i b (.edit (.prune opts)) (dropCheckpoints ref drop) (some ref) with
          | .ok () => return .ok (pruneResult ref drop)
          | .error .cas => pruneLoop env i b opts attempts
          | .error e => return .error e

def pruneCheckpoints (env : Env) (i : Nat) (b : BranchId) (opts : PruneOptions)
    (attempts : Nat) : M (Result PruneResult) :=
  if opts.valid then pruneLoop env i b opts attempts else pure (.error .refused)

end Offshoot
