import Offshoot.Ops.Lease

/-!
# Destroying and reaping branches

A destroy claims the ref first, so that no lease is granted on it any more, then
removes it, and takes the claim back if it cannot.  A claim that its process left
behind goes stale.  Reaping destroys the branches whose time to live has run out,
under a claim of its own.

Times are in milliseconds.
-/

namespace Offshoot

open Conc Maps

def staleDeletingClaimAfter : Nat := 30000

def deleteClaimClockSlack : Nat := 60000

def deleteClaimMargin : Nat := 10000

def deleteClaimFresh (claimedAt now : Nat) : Bool :=
  now < claimedAt + staleDeletingClaimAfter && claimedAt ≤ now + deleteClaimClockSlack

def liveDeleteClaim (ref : Ref) (now : Nat) : Bool :=
  ref.deleting && match ref.deletingAt with
    | none => false
    | some claimedAt => deleteClaimFresh claimedAt now

/-- Is `cur` the claimed ref but for its lease expiry, and for a reaping claim
another process cleared? -/
def onlyRenewed (claimed cur : Ref) : Bool :=
  { cur with
    leaseExpiry := claimed.leaseExpiry
    reaping := claimed.reaping || cur.reaping } = claimed

/-- Take a destroy's claim back, if it still is the one on the ref. -/
def unwindDeletingClaim (env : Env) (i : Nat) (b : BranchId) (claimedAt : Option Nat) : Nat → M Unit
  | 0 => pure ()
  | attempts + 1 => do
    match ← getRef b with
    | .error _ => return ()
    | .ok ref =>
      if !ref.deleting ∨ ref.deletingAt ≠ claimedAt then return ()
      else
        match ← putRef env i b (.edit .unclaimDelete)
            { ref with deleting := false, deletingAt := none } (some ref) with
        | .error .cas => unwindDeletingClaim env i b claimedAt attempts
        | _ => return ()

def destroyDeleteAttempts : Nat := 4

/-- Read the ref until it is no longer what the claim was sent against, a few
times at most. -/
def awaitClaim (b : BranchId) (sent : Ref) : Nat → M (Result Ref)
  | 0 => getRef b
  | n + 1 => do
    match ← getRef b with
    | .ok cur => if cur = sent then awaitClaim b sent n else return .ok cur
    | .error e => return .error e

variable (env : Env) (i : Nat)

/-- After a claim write that reported failure: did it land?  Where writes are
settled it did not. -/
def landedClaim (b : BranchId) (sent claimed : Ref) (force : Bool) : M (Result Ref) := do
  if env.settled then return .error .cas
  else
    match ← awaitClaim b sent 3 with
    | .error e => return .error e
    | .ok cur =>
      if cur = sent ∨ !cur.deleting ∨ cur.deletingAt ≠ claimed.deletingAt then
        return .error .cas
      else if !onlyRenewed claimed cur then
        unwindDeletingClaim env i b claimed.deletingAt destroyDeleteAttempts
        return .error .cas
      else
        let now ← now env
        if !force && leaseLive cur now then
          unwindDeletingClaim env i b claimed.deletingAt destroyDeleteAttempts
          return .error .leaseHeld
        else return .ok cur

/-- Remove the claimed ref; a renewal that got in between is not a conflict. -/
def deleteClaimedRef (env : Env) (i : Nat) (b : BranchId) (claimed : Ref) (force : Bool) :
    Nat → Ref → M (Result Unit)
  | 0, _ => pure (.error .cas)
  | attempts + 1, etag => do
    match ← deleteRefIf env i b etag with
    | .error .cas =>
      if attempts = 0 then return .error .cas
      else
        match ← getRef b with
        | .error _ => return .error .cas
        | .ok cur =>
          if !onlyRenewed claimed cur then return .error .cas
          else
            let now ← now env
            if !force && leaseLive cur now then return .error .leaseHeld
            else deleteClaimedRef env i b claimed force attempts cur
    | r => return r

/-- Under the claim: no connection has the checkout open, the claim is still
fresh, and then the ref goes. -/
def destroyClaimed (host : Nat) (b : BranchId) (claimed : Ref) (force : Bool)
    (etag : Ref) : M (Result Unit) := do
  let busy ← ask
  if busy then
    unwindDeletingClaim env i b claimed.deletingAt destroyDeleteAttempts
    return .error .refused
  else
    let now ← now env
    if !liveDeleteClaim claimed (now + deleteClaimMargin) then
      unwindDeletingClaim env i b claimed.deletingAt destroyDeleteAttempts
      return .error .cas
    else
      match ← deleteClaimedRef env i b claimed force destroyDeleteAttempts etag with
      | .error e =>
        unwindDeletingClaim env i b claimed.deletingAt destroyDeleteAttempts
        return .error e
      | .ok () =>
        setCheckout host b fun _ => .empty
        return .ok ()

def stampClaim (b : BranchId) (ref : Ref) : M Nat := .step fun o w =>
  let time := if env.oneClock then w.clock else o.num
  (w.note (.stamped i b time ref), time)

def destroy (host : Nat) (b : BranchId) (force : Bool) : M (Result Unit) := do
  match ← getRef b with
  | .error e => return .error e
  | .ok ref =>
    let leaseNow ← now env
    let claimNow ← now env
    if ref.isProtected && !force then return .error .refused
    else if !force && leaseLive ref leaseNow then return .error .leaseHeld
    else if liveDeleteClaim ref claimNow then return .error .deleting
    else
      let claimedAt ← stampClaim env i b ref
      let claimed := { ref with deleting := true, deletingAt := some claimedAt }
      match ← putRef env i b (.edit (.claimDelete claimedAt)) claimed (some ref) with
      | .ok () => destroyClaimed env i host b claimed.stored force claimed.stored
      | .error _ =>
        match ← landedClaim env i b ref claimed.stored force with
        | .error e => return .error e
        | .ok cur => destroyClaimed env i host b claimed.stored force cur

def clearStaleDeleteClaims (env : Env) (i : Nat) (now : Nat) : List BranchId → M Unit
  | [] => pure ()
  | b :: rest => do
    match ← getRef b with
    | .error _ => clearStaleDeleteClaims env i now rest
    | .ok ref =>
      match ref.deletingAt with
      | none => clearStaleDeleteClaims env i now rest
      | some claimedAt =>
        if !ref.deleting ∨ deleteClaimFresh claimedAt now then
          clearStaleDeleteClaims env i now rest
        else
          let _ ← putRef env i b (.edit .unclaimDelete)
            { ref with deleting := false, deletingAt := none } (some ref)
          clearStaleDeleteClaims env i now rest

/-! ## Reaping -/

/-- When a branch's time to live runs out: counted from its last activity or the
end of its lease, whichever is later. -/
def reapDeadline (ref : Ref) : Option Nat :=
  match ref.ttl, ref.touchedAt with
  | some ttl, some touchedAt =>
    if ttl = 0 then none
    else some (max touchedAt (ref.leaseExpiry.getD touchedAt) + ttl)
  | _, _ => none

def clearStaleReapingClaim (b : BranchId) (ref : Ref) : M Unit := do
  let _ ← putRef env i b (.edit .unclaimReap) { ref with reaping := false } (some ref)
  return ()

/-- Take the reaping claim back after a destroy that failed. -/
def unreap (b : BranchId) : M Unit := do
  match ← getRef b with
  | .error _ => return ()
  | .ok ref =>
    let now ← now env
    if ref.reaping && !liveDeleteClaim ref now then clearStaleReapingClaim env i b ref
    else return ()

def reapOne (host : Nat) (b : BranchId) (now : Nat) : M Unit := do
  match ← getRef b with
  | .error _ => return ()
  | .ok ref =>
    if ref.ttl = none ∨ ref.isProtected ∨ liveDeleteClaim ref now then return ()
    else
      match reapDeadline ref with
      | none => if ref.reaping then clearStaleReapingClaim env i b ref else return ()
      | some deadline =>
        if now < deadline then
          if ref.reaping then clearStaleReapingClaim env i b ref else return ()
        else
          match ← putRef env i b (.edit .claimReap) { ref with reaping := true } (some ref) with
          | .error _ => return ()
          | .ok () =>
            match ← destroy env i host b false with
            | .ok () => return ()
            | .error _ => unreap env i b

def reapAll (env : Env) (i host : Nat) (now : Nat) : List BranchId → M Unit
  | [] => pure ()
  | b :: rest => do
    reapOne env i host b now
    reapAll env i host now rest

def reap (host : Nat) : M Unit := do
  let now ← now env
  match ← listRefs with
  | .error _ => return ()
  | .ok bs => reapAll env i host now bs

def clearStale : M Unit := do
  let now ← now env
  match ← listRefs with
  | .error _ => return ()
  | .ok bs => clearStaleDeleteClaims env i now bs

end Offshoot
