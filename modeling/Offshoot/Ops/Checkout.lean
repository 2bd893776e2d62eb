import Offshoot.Ops.Lease

/-!
# Checkouts, sidecars and shadows

A checkout is a plain file the application edits.  Its sidecar says which head it
was last stamped against and with which checksum; its shadow is a copy of it made
at that point, from which an at-rest checkpoint computes what changed.

A fingerprint may spare a reading of the file; whether it matches is left to the
environment, so a checkout that was changed may pass for clean here.
-/

namespace Offshoot

open Conc Maps

def refreshRecord (sum : Option SumRecord) (on : Bool) : Option SumRecord :=
  sum.map fun rec => { rec with shadow := on }

/-- Forget the shadow: first in the sidecar, then the file. -/
def dropShadow (host : Nat) (b : BranchId) : M Unit := do
  setCheckout host b fun c => { c with sum := refreshRecord c.sum false }
  setCheckout host b fun c => { c with shadow := none }

/-- Copy the checkout to its shadow and record the shadow in the sidecar.  Both
steps may fail, and then there is no shadow. -/
def refreshShadow (host : Nat) (b : BranchId) : M Unit := do
  let cloned ← ask
  if cloned then
    setCheckout host b fun c => { c with shadow := c.file }
    let recorded ← ask
    if recorded then setCheckout host b fun c => { c with sum := refreshRecord c.sum true }
    else dropShadow host b
  else dropShadow host b

inductive CheckoutState where
  | unknown
  | stale
  | modified
  | clean (postApplyChecksum : Option Checksum)

def SumRecord.isHead (rec : SumRecord) (ref : Ref) : Bool :=
  rec.lineage = ref.lineage && rec.epoch = ref.headEpoch && rec.txid = ref.headTXID

def checkoutState (host : Nat) (b : BranchId) (ref : Ref) : M CheckoutState := do
  match (← getCheckout host b).sum with
  | none => return .unknown
  | some rec =>
    if !rec.isHead ref then return .stale
    else
      let fingerprint ← ask
      if fingerprint then return .clean rec.postApplyChecksum
      else
        let file := (← getCheckout host b).file
        if file.isSome && file = rec.hash then
          setCheckout host b fun c => { c with sum := some rec }
          return .clean rec.postApplyChecksum
        else return .modified

def currentState (host : Nat) (b : BranchId) (ref : Ref) : M CheckoutState := do
  if (← getCheckout host b).file.isSome then checkoutState host b ref else return .unknown

/-- Stamp a checkout as holding `ref`'s head, over the bytes the file has now. -/
def writeSum (host : Nat) (b : BranchId) (ref : Ref) (sum : Checksum) : M Unit := do
  let file := (← getCheckout host b).file
  setCheckout host b fun c => { c with
    sum := some ⟨file, ref.lineage, ref.headEpoch, ref.headTXID, some sum, false, []⟩ }

/-- Materialize a branch's head into a new file, rename it to the checkout's path and
stamp it. -/
def refreshCheckout (host : Nat) (b : BranchId) (ref : Ref) (fuel : Nat) : M (Result Unit) := do
  match ← chainAt fuel ref.lineage ref.headTXID with
  | .error e => return .error e
  | .ok members =>
    match ← materializeMembers members with
    | .error e => return .error e
    | .ok a =>
      setCheckout host b fun c => { c with file := some a.image, inode := c.inode + 1 }
      writeSum host b ref a.running
      refreshShadow host b
      return .ok ()

structure CheckoutResult where
  clean : Bool
  postApplyChecksum : Option Checksum

/-- Bring the checkout to the branch's head, unless it is there already. -/
def checkoutProven (host : Nat) (b : BranchId) (fuel : Nat) : M (Result CheckoutResult) := do
  match ← getRef b with
  | .error e => return .error e
  | .ok ref =>
    let busy ← ask
    if busy then return .error .refused
    else
      match ← currentState host b ref with
      | .clean sum => return .ok ⟨true, sum⟩
      | _ =>
        match ← refreshCheckout host b ref fuel with
        | .error e => return .error e
        | .ok () => return .ok ⟨false, none⟩

/-! ## The chain a sidecar remembers -/

def parseMembers (keys : List DataKey) : Option (List (ChainMember DataKey)) :=
  keys.mapM DataKey.parseMember

/-- Each member a segment that starts right after the one before it. -/
def contiguous : List (ChainMember DataKey) → Bool
  | a :: b :: rest => !b.snapshot && b.minTXID = a.maxTXID + 1 && contiguous (b :: rest)
  | _ => true

/-- The ancestors' members come first, and meet the lineage's own at its base. -/
def seamOK (ref : Ref) (members : List (ChainMember DataKey)) : Bool :=
  let own := fun m : ChainMember DataKey => m.key.lineage = ref.lineage
  let ancestors := members.takeWhile (!own ·)
  let rest := members.dropWhile (!own ·)
  rest.all own && match rest.head?, ancestors.getLast? with
    | none, _ => false
    | some _, none => true
    | some m, some a => match ref.base with
      | none => false
      | some base => a.maxTXID = base.txid && m.minTXID = base.txid + 1 &&
          a.key.lineage = base.lineage && !m.snapshot

/-- The chain of the ref's head, if the sidecar recorded it for that head. -/
def cachedChain (sum : Option SumRecord) (ref : Ref) : Option (List (ChainMember DataKey)) :=
  match sum with
  | none => none
  | some rec =>
    if !rec.isHead ref then none
    else match parseMembers rec.chain with
      | none => none
      | some members =>
        match members.head?, members.getLast? with
        | some first, some last =>
          if seamOK ref members && first.snapshot && last.maxTXID = ref.headTXID &&
            last.epoch = ref.headEpoch && contiguous members then some members
          else none
        | _, _ => none

def headChain (host : Nat) (b : BranchId) (ref : Ref) (fuel : Nat) :
    M (Result (List (ChainMember DataKey))) := do
  match cachedChain (← getCheckout host b).sum ref with
  | some members => return .ok members
  | none => chainAt fuel ref.lineage ref.headTXID

end Offshoot
