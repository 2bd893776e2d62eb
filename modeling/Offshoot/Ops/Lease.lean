import Offshoot.System.Backend

/-!
# Leases

A lease is two fields of a ref: its holder and its expiry.  Taking one that is
not live raises the ref's epoch, which fences whoever held it before.  Clocks are
not compared: each process decides by its own whether a lease is live.
-/

namespace Offshoot

open Conc Maps

/-- How an attempt to take a lease ended.  A caller's own check may refuse the ref
it reads. -/
inductive Acquired where
  | granted (lease : Lease) (ref : Ref)
  | refused (read : Ref) (e : Err)
  | failed (read : Option Ref) (e : Err)

variable (env : Env) (i : Nat)

def acquireLeaseRefIf (b : BranchId) (holder : Holder) (ttl : Nat) (now : Nat)
    (check : Ref → M (Result Unit)) : M Acquired := do
  match ← getRef b with
  | .error e => return .failed none e
  | .ok ref =>
    match ← check ref with
    | .error e => return .refused ref e
    | .ok () =>
      if ref.reaping then return .failed (some ref) .reaping
      else if ref.deleting then return .failed (some ref) .deleting
      else if leaseLive ref now && ref.leaseHolder ≠ some holder then
        return .failed (some ref) .leaseHeld
      else
        let next := ref.acquireLease holder ttl now
        let lease : Lease := ⟨holder, next.epoch, next.leaseExpiry⟩
        match ← putLease env i b (.edit (.acquire holder ttl now)) next (some ref) lease with
        | .ok () => return .granted lease next.stored
        | .error .cas => return .failed (some ref) .leaseHeld
        | .error e => return .failed (some ref) e

def acquireLease (b : BranchId) (holder : Holder) (ttl : Nat) : M (Result Lease) := do
  let now ← now env
  match ← acquireLeaseRefIf env i b holder ttl now fun _ => pure (.ok ()) with
  | .granted lease _ => return .ok lease
  | .refused _ e => return .error e
  | .failed _ e => return .error e

/-- Only the expiry moves; the caller must still be the holder at its epoch. -/
def renewLease (b : BranchId) (l : Lease) (ttl : Nat) : M (Result Lease) := do
  let now ← now env
  match ← getRef b with
  | .error e => return .error e
  | .ok ref =>
    if ref.leaseHolder ≠ some l.holder ∨ ref.epoch ≠ l.epoch then return .error .leaseLost
    else
      match ← putRef env i b (.edit (.renew l ttl now)) (ref.renewLease ttl now) (some ref) with
      | .ok () => return .ok { l with expiry := some (now + ttl) }
      | .error e => return .error e

def releaseLease (b : BranchId) (l : Lease) : M (Result Unit) := do
  match ← getRef b with
  | .error e => return .error e
  | .ok ref =>
    if ref.leaseHolder ≠ some l.holder ∨ ref.epoch ≠ l.epoch then return .error .leaseLost
    else
      let now ← now env
      putRef env i b (.edit (.release l now)) (ref.clearLease now) (some ref)

def releaseLeaseByHolder (b : BranchId) (holder : Holder) : M (Result Unit) := do
  match ← getRef b with
  | .error e => return .error e
  | .ok ref =>
    if ref.leaseHolder ≠ some holder then return .error .holderMismatch
    else
      let now ← now env
      putRef env i b (.edit (.releaseByHolder holder now)) (ref.clearLease now) (some ref)

def leaseOn (holder : Holder) (ref : Ref) : Lease := ⟨holder, ref.epoch, ref.leaseExpiry⟩

/-- After an acquire that reported failure, re-read the ref: if it names the
holder, the acquire landed and its lease is adopted. -/
def settleAcquire (b : BranchId) (holder : Holder) : M (Result (Option Lease × Ref)) := do
  match ← getRefHeld i b holder with
  | .error e => return .error e
  | .ok ref =>
    if ref.leaseHolder = some holder then return .ok (some (leaseOn holder ref), ref)
    else return .ok (none, ref)

def report (b : BranchId) (out : α → Outcome) (r : Result α) : M Unit :=
  note (.returned i b (match r with
    | .ok a => out a
    | .error _ => .failed))

end Offshoot
