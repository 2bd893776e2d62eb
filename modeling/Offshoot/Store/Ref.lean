import Offshoot.Store.Resolve

/-!
# Branch refs

A ref is the small mutable record behind a branch: which lineage it reads, how
far its head has advanced, its named checkpoints, the lease of its current
writer, and the claims that guard its deletion.  Every write of a ref is a
compare-and-swap of the whole record, so the record is compared as one value.

Times are plain numbers, and an absent time stands for an empty stamp as well as
for one that does not parse; the source treats the two alike wherever it reads
a stamp.  The schema number, the checkpoint metadata and kind, and the parent
breadcrumb are not modelled: nothing reads them back.
-/

namespace Offshoot

open Maps

/-- A lease holder.  Sessions and at-rest checkpoints draw their own. -/
abbrev Holder := Nat

structure Checkpoint where
  txid : Nat
  epoch : Nat
  createdAt : Nat
  deriving DecidableEq

structure Ref where
  lineage : Lineage
  /-- The current writer generation of the lineage. -/
  epoch : Nat
  headTXID : Nat
  /-- The generation the head object was written under. -/
  headEpoch : Nat
  checkpoints : Map String Checkpoint
  isProtected : Bool
  leaseHolder : Option Holder
  leaseExpiry : Option Nat
  ttl : Option Nat
  touchedAt : Option Nat
  reaping : Bool
  deleting : Bool
  deletingAt : Option Nat
  metadata : Map String String
  /-- A reporting mirror of the lineage's base object; resolution never reads it. -/
  base : Option BasePointer
  deriving DecidableEq

namespace Ref

def setCheckpoint (r : Ref) (name : String) (cp : Checkpoint) : Ref :=
  { r with checkpoints := r.checkpoints.insert name cp }

def touch (r : Ref) (now : Nat) : Ref := { r with touchedAt := some now }

def txids (r : Ref) : List Nat := r.headTXID :: (values r.checkpoints).map (·.txid)

theorem mem_txids {r : Ref} {t : Nat} :
    t ∈ r.txids ↔ t = r.headTXID ∨ ∃ name cp, r.checkpoints.lookup name = some cp ∧
    cp.txid = t := by
  simp only [txids, List.mem_cons, List.mem_map, mem_values]
  constructor
  · rintro (h | ⟨cp, ⟨name, h⟩, ht⟩)
    · exact .inl h
    · exact .inr ⟨name, cp, h, ht⟩
  · rintro (h | ⟨name, cp, h, ht⟩)
    · exact .inl h
    · exact .inr ⟨cp, ⟨name, h⟩, ht⟩

end Ref

end Offshoot
