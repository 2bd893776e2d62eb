import Offshoot.GC.Mark
import Offshoot.System.Backend

/-!
# A garbage collection pass

A pass marks what the refs reach, writes a tombstone for every other object, and
deletes the objects whose tombstone is older than the grace period, after marking
once more.  What lies above a live ref's head under an epoch not older than the
ref's is left alone: a writer may be about to commit it.

Every read and write of a pass is a step of its own, so passes interleave with
each other and with writers.
-/

namespace Offshoot

open Conc Maps

abbrev Stones := Map DataKey Nat

def World.stone (w : World) (k : DataKey) : Option Nat := (w.stones.getD ∅).lookup k

def loadTombstones : M (Result (Option Stones)) := .step fun o w =>
  (w, if o.fail then .error .backend else .ok w.stones)

variable (env : Env)

def putTombstones (etag : Option Stones) (stones : Stones) : M (Result Unit) :=
  .step fun o w =>
    let hit := w.stones = etag
    let next := { w with stones := some stones }
    if hit ∧ !o.fail then (next, .ok ())
    else
      (if env.settled then w
        else match o.fate with
          | .lost => w
          | .landed => if hit then next else w
          | .pending => { w with pending := .stones etag (some stones) :: w.pending },
        .error (casErr env o))

/-! ## Marking -/

/-- Read every listed ref, skipping those destroyed since the listing. -/
def readRefs : List BranchId → M (Result (List Ref))
  | [] => pure (.ok [])
  | b :: rest => do
    match ← getRef b with
    | .error .notFound => readRefs rest
    | .error e => return .error e
    | .ok r =>
      match ← readRefs rest with
      | .error e => return .error e
      | .ok rs => return .ok (r :: rs)

variable (i : Nat)

def noteMarked (reachable : List DataKey) : M Unit := .step fun o w =>
  (w.note (.marked i (if env.oneClock then w.clock else o.num) reachable), ())

/-- Read all refs first, then list and resolve, each lineage once. -/
def markRefs (fuel : Nat) : M (Result (Marked DataKey)) := do
  match ← listRefs with
  | .error e => return .error e
  | .ok bs =>
    match ← readRefs bs with
    | .error e => return .error e
    | .ok refs =>
      return (← resolve (reachableObjectsAndHeads · .base .empty refs) fuel .empty).1

def mark (fuel : Nat) : M (Result (Marked DataKey)) := do
  match ← markRefs fuel with
  | .error e =>
    note (.unmarked i e)
    return .error e
  | .ok m =>
    noteMarked env i m.reachable
    return .ok m

/-! ## Tombstones -/

def stampNew (env : Env) (reachable : List DataKey) (stones : Stones) :
    List DataKey → M (List (DataKey × Nat))
  | [] => pure []
  | k :: rest => do
    if k ∈ reachable ∨ (stones.lookup k).isSome then stampNew env reachable stones rest
    else
      let t ← now env
      return (k, t) :: (← stampNew env reachable stones rest)

def addStones (stones : Stones) (new : List (DataKey × Nat)) : Stones :=
  new.foldl (fun m s => m.insert s.1 s.2) stones

theorem lookup_addStones {stones : Stones} {new : List (DataKey × Nat)} {k : DataKey} :
    (k ∉ new.map (·.1) → (addStones stones new).lookup k = stones.lookup k) ∧
      (k ∈ new.map (·.1) → ∃ t, (k, t) ∈ new ∧ (addStones stones new).lookup k = some t) := by
  induction new generalizing stones with
  | nil => simp [addStones]
  | cons s new ih =>
    have ih := @ih (stones.insert s.1 s.2)
    have hcons : addStones stones (s :: new) = addStones (stones.insert s.1 s.2) new := rfl
    rw [hcons, List.map_cons, List.mem_cons, not_or]
    constructor
    · rintro ⟨hne, hk⟩
      rw [ih.1 hk, AList.lookup_insert_ne hne]
    · rintro hk
      by_cases hmem : k ∈ new.map (·.1)
      · obtain ⟨t, ht, hlook⟩ := ih.2 hmem
        exact ⟨t, List.mem_cons_of_mem _ ht, hlook⟩
      · obtain rfl := hk.resolve_right hmem
        exact ⟨s.2, List.mem_cons_self, by rw [ih.1 hmem, AList.lookup_insert]⟩

def tombstone (new : List (DataKey × Nat)) : M (Result Unit) := do
  match ← loadTombstones with
  | .error e => return .error e
  | .ok cur => putTombstones env cur (addStones (cur.getD ∅) new)

/-- Remove tombstones from the list as it is now, in at most so many attempts. -/
def pruneTombstones (env : Env) (keys : List DataKey) : Nat → M (Result Unit)
  | 0 => pure (.error .cas)
  | attempts + 1 => do
    if keys = [] then return .ok ()
    else
      match ← loadTombstones with
      | .error e => return .error e
      | .ok cur =>
        let stones := cur.getD ∅
        if keys.all fun k => (stones.lookup k).isNone then return .ok ()
        else
          match ← putTombstones env cur (keepIf (fun k _ => k ∉ keys) stones) with
          | .error .cas => pruneTombstones env keys attempts
          | r => return r

/-! ## Sweeping -/

/-- Above a live head, under an epoch not older than its ref's. -/
def aboveLiveHead (heads : Map Lineage LiveHead) (k : DataKey) : Bool :=
  match k.parseMember, heads.lookup k.lineage with
  | some m, some h => h.txid < m.maxTXID && h.epoch ≤ m.epoch
  | _, _ => false

inductive Sweep where
  | keep
  | prune
  | delete
  deriving DecidableEq, Repr

/-- What becomes of a tombstone older than the grace period. -/
def sweepVerdict (m : Marked DataKey) (existing : List DataKey) (k : DataKey) : Sweep :=
  if k ∈ m.reachable then .prune
  else if k ∉ existing then .prune
  else if aboveLiveHead m.heads k then .keep
  else .delete

def sweepOne (k : DataKey) : M Bool := .step fun o w =>
  let gone := (w.dropObj k).note (.swept i (if env.oneClock then w.clock else o.num) k)
  if !o.fail then (gone, true) else (if o.fate = .landed then gone else w, false)

/-- Delete the keys, giving up early or not when one fails; the keys deleted. -/
def sweepDelete (env : Env) (i : Nat) : List DataKey → M (List DataKey)
  | [] => pure []
  | k :: rest => do
    if ← sweepOne env i k then return k :: (← sweepDelete env i rest)
    else if ← ask then return []
    else sweepDelete env i rest

def expired (stones : Stones) (new : List (DataKey × Nat)) (grace now : Nat) : List DataKey :=
  (stones.entries.filter fun e => e.1 ∉ new.map (·.1) && e.2 + grace < now).map (·.1)

def sweep (grace fuel : Nat) (stones : Stones) (new : List (DataKey × Nat)) : M (Result Unit) := do
  let cutoff ← now env
  let old := expired stones new grace cutoff
  if old = [] then return .ok ()
  else
    match ← mark env i fuel with
    | .error e => return .error e
    | .ok m =>
      match ← listData with
      | .error e => return .error e
      | .ok existing =>
        let toDelete := old.filter (sweepVerdict m existing · = .delete)
        let deleted ← sweepDelete env i toDelete
        pruneTombstones env (old.filter (sweepVerdict m existing · = .prune) ++ deleted) 8

def gc (grace fuel : Nat) : M (Result Unit) := do
  match ← mark env i fuel with
  | .error e => return .error e
  | .ok m =>
    match ← listData with
    | .error e => return .error e
    | .ok all =>
      match ← loadTombstones with
      | .error e => return .error e
      | .ok loaded =>
        let new ← stampNew env m.reachable (loaded.getD ∅) all
        if new = [] then sweep env i grace fuel (loaded.getD ∅) []
        else
          match ← tombstone env new with
          | .error e => return .error e
          | .ok () =>
            match ← loadTombstones with
            | .error e => return .error e
            | .ok stones => sweep env i grace fuel (stones.getD ∅) new

end Offshoot
