import Offshoot.Store.Collapse

/-!
# Resolving a chain

`chain v L t` is the list of members that materialize lineage `L` at txid `t`:
the newest snapshot at or below `t` and the segments after it.  A lineage forked
copy-on-write has a base pointer and borrows everything at or below its fork
point from the lineage the pointer names, so the resolver recurses along base
pointers and joins independently resolved halves at the fork point.

The resolver reads the store through a `View`: the base pointer and the parsed
listing of each lineage it asks for.
-/

namespace Offshoot

variable {κ : Type}

/-- A copy-on-write base pointer: the lineage borrows `(lineage, ≤ txid]`. -/
structure BasePointer where
  lineage : Lineage
  txid : Nat
  deriving DecidableEq, Repr

inductive Read where
  | base (lineage : Lineage)
  | members (lineage : Lineage)
  deriving DecidableEq, Repr

/-- Why a read has no answer: the backend call failed, the base object does not
parse, or the caller works from a cache that does not hold the answer yet. -/
inductive ReadErr where
  | backend
  | malformed
  | uncached
  deriving DecidableEq, Repr

/-- The store as a resolver reads it.  Only finitely many lineages have a base
object, which is what bounds the recursion along base pointers. -/
structure View (κ : Type) where
  base : Lineage → Except ReadErr (Option BasePointer)
  members : Lineage → Except ReadErr (List (ChainMember κ))
  based : List Lineage
  mem_based : ∀ {l b}, base l = .ok (some b) → l ∈ based

inductive ChainErr (κ : Type) where
  | read (r : Read) (e : ReadErr)
  | noSnapshotCoversTarget (lineage : Lineage) (target : Nat)
  | hole (lineage : Lineage) (target : Nat) (key : κ) (expected got : Nat)
  | noContiguousRun (lineage : Lineage) (target stopped : Nat)
  | rangeHole (lineage : Lineage) (lo hi : Nat) (key : κ) (expected got : Nat)
  | rangeNoContiguousRun (lineage : Lineage) (lo hi stopped : Nat)
  | cycle (lineage revisited : Lineage)
  | resolvingBase (lineage : Lineage) (target : Nat) (base : BasePointer) (cause : ChainErr κ)
  | childRun (lineage : Lineage) (target : Nat) (cause : ChainErr κ)
  | seamBroken (lineage : Lineage) (target : Nat) (base : BasePointer) (got : Nat)
  | spineCycle (lineage revisited : Lineage)
  /-- The recursion bound of the model.  `chain` never reports it. -/
  | exhausted
  deriving DecidableEq, Repr

def ChainErr.root : ChainErr κ → ChainErr κ
  | .resolvingBase _ _ _ e => e.root
  | .childRun _ _ e => e.root
  | e => e

/-! ## The walks over one lineage -/

/-- The contiguity walk both resolvers share.  They differ in which segments
they pass over: those at or below `floor prevMax`. -/
def walk (hole : κ → Nat → Nat → ChainErr κ) (short : Nat → ChainErr κ) (floor : Nat → Nat)
    (target : Nat) : Nat → List (ChainMember κ) → Except (ChainErr κ) (List (ChainMember κ))
  | prevMax, [] => .error (short prevMax)
  | prevMax, seg :: rest =>
    if seg.maxTXID ≤ floor prevMax then walk hole short floor target prevMax rest
    else if seg.minTXID ≠ prevMax + 1 then .error (hole seg.key (prevMax + 1) seg.minTXID)
    else if seg.maxTXID = target then .ok [seg]
    else if target < seg.maxTXID then .error (short seg.maxTXID)
    else (walk hole short floor target seg.maxTXID rest).map (seg :: ·)

/-- The newest snapshot at or below the target, then every segment up to it. -/
def resolveSelf (lineage : Lineage) (target : Nat) (snapshots segments : List (ChainMember κ)) :
    Except (ChainErr κ) (List (ChainMember κ)) :=
  match snapshots.reverse.find? (·.maxTXID ≤ target) with
  | none => .error (.noSnapshotCoversTarget lineage target)
  | some base =>
    if base.maxTXID = target then .ok [base]
    else (walk (.hole lineage target) (.noContiguousRun lineage target) id target
      base.maxTXID segments).map (base :: ·)

/-- The lineage's own segments covering `(lo, hi]`, with no snapshot. -/
def resolveRange (lineage : Lineage) (lo hi : Nat) (segments : List (ChainMember κ)) :
    Except (ChainErr κ) (List (ChainMember κ)) :=
  walk (.rangeHole lineage lo hi) (.rangeNoContiguousRun lineage lo hi) (fun _ => lo) hi lo segments

/-! ## The recursion along base pointers -/

def chainSelf (v : View κ) (lineage : Lineage) (target : Nat) :
    Except (ChainErr κ) (List (ChainMember κ)) :=
  match v.members lineage with
  | .error e => .error (.read (.members lineage) e)
  | .ok members => resolveSelf lineage target (listMembers members).1 (listMembers members).2

/-- The recursive body of `chain`.  `seen` holds the lineages visited so far, and
only an absent own snapshot falls through to the base: every other failure of
the lineage's own walk is final. -/
def chainFrom (v : View κ) : Nat → Lineage → Nat → List Lineage →
    Except (ChainErr κ) (List (ChainMember κ))
  | 0, _, _, _ => .error .exhausted
  | fuel + 1, lineage, target, seen =>
    match v.base lineage with
    | .error e => .error (.read (.base lineage) e)
    | .ok none => chainSelf v lineage target
    | .ok (some base) =>
      if base.lineage ∈ seen then .error (.cycle lineage base.lineage)
      else if target ≤ base.txid then
        chainFrom v fuel base.lineage target (base.lineage :: seen)
      else
        match v.members lineage with
        | .error e => .error (.read (.members lineage) e)
        | .ok members =>
          match resolveSelf lineage target (listMembers members).1 (listMembers members).2 with
          | .ok selfChain => .ok selfChain
          | .error (.noSnapshotCoversTarget _ _) =>
            match chainFrom v fuel base.lineage base.txid (base.lineage :: seen) with
            | .error e => .error (.resolvingBase lineage target base e)
            | .ok parentChain =>
              match resolveRange lineage base.txid target (listMembers members).2 with
              | .error e => .error (.childRun lineage target e)
              | .ok childSegs =>
                if parentChain.getLast?.map (·.maxTXID) = some base.txid then
                  .ok (parentChain ++ childSegs)
                else .error (.seamBroken lineage target base
                  ((parentChain.getLast?.map (·.maxTXID)).getD 0))
          | .error e => .error e

def chain (v : View κ) (lineage : Lineage) (target : Nat) :
    Except (ChainErr κ) (List (ChainMember κ)) :=
  chainFrom v (v.based.length + 1) lineage target [lineage]

/-! ## Walking the base pointers alone -/

def baseSpineFrom (v : View κ) (start : Lineage) : Nat → Lineage → List Lineage →
    Except (ChainErr κ) (List Lineage)
  | 0, _, _ => .error .exhausted
  | fuel + 1, cur, seen =>
    match v.base cur with
    | .error e => .error (.read (.base cur) e)
    | .ok none => .ok []
    | .ok (some b) =>
      if b.lineage ∈ seen then .error (.spineCycle start b.lineage)
      else (baseSpineFrom v start fuel b.lineage (b.lineage :: seen)).map (b.lineage :: ·)

/-- Every ancestor lineage along the base pointers, nearest first. -/
def baseSpine (v : View κ) (lineage : Lineage) : Except (ChainErr κ) (List Lineage) :=
  baseSpineFrom v lineage (v.based.length + 1) lineage [lineage]

def collapseBaseFrom (v : View κ) (start : Lineage) (txid : Nat) : Nat → Lineage →
    List Lineage → Except (ChainErr κ) Lineage
  | 0, _, _ => .error .exhausted
  | fuel + 1, cur, seen =>
    match v.base cur with
    | .error e => .error (.read (.base cur) e)
    | .ok none => .ok cur
    | .ok (some b) =>
      if b.txid < txid then .ok cur
      else if b.lineage ∈ seen then .error (.spineCycle start b.lineage)
      else collapseBaseFrom v start txid fuel b.lineage (b.lineage :: seen)

/-- The lineage a new base pointer at `txid` should name: the walk passes every
lineage that contributes nothing at `txid`. -/
def collapseBase (v : View κ) (lineage : Lineage) (txid : Nat) : Except (ChainErr κ) Lineage :=
  collapseBaseFrom v lineage txid (v.based.length + 1) lineage [lineage]

end Offshoot
