import Mathlib.Data.List.Sort
import Offshoot.Lib.KeepBest

/-!
# Chain members and the epoch collapse

A lineage's data objects are snapshots and segments, each written under the
lease epoch of its writer.  Several objects can establish the state at one
txid: a writer uploads, loses its ref write and leaves an orphan, and the next
holder writes the same txid under a higher epoch.  The resolver sees object
keys only, so `keepHighestEpoch` decides from the keys which object is live.

Keys stay abstract here.  A stored key is any spelling that parses to a member,
and nothing below depends on which spellings there are.  Txids and epochs are
`uint64` in the source and `Nat` here: the resolver adds one only to a txid that
lies below another txid of the store, so none of its sums wraps.
-/

namespace Offshoot

open Maps List

/-- A lineage id.  Ids are minted at random and never reused. -/
abbrev Lineage := Nat

/-- One data object of a lineage, as parsed from its key.  A snapshot at `T`
covers everything up to `T` and has `minTXID = 0`. -/
structure ChainMember (κ : Type) where
  key : κ
  snapshot : Bool
  minTXID : Nat
  maxTXID : Nat
  epoch : Nat
  deriving DecidableEq, Repr

variable {κ : Type}

namespace ChainMember

/-- The members that collapse on `maxTXID` alone: snapshots and single-txid
segments, the only shapes a writer produces. -/
def byTXID (m : ChainMember κ) : Bool := m.snapshot || m.minTXID == m.maxTXID

def range (m : ChainMember κ) : Nat × Nat := (m.minTXID, m.maxTXID)

/-- Higher epoch first, then snapshot before segment. -/
def rank (m : ChainMember κ) : Nat := 2 * m.epoch + m.snapshot.toNat

end ChainMember

/-- `moreLive a b`: `a` supersedes `b`, for two members establishing the state at
one txid of one lineage. -/
def moreLive (a b : ChainMember κ) : Bool :=
  if a.epoch ≠ b.epoch then b.epoch < a.epoch else a.snapshot && !b.snapshot

theorem moreLive_iff (a b : ChainMember κ) : moreLive a b = true ↔ b.rank < a.rank := by
  unfold moreLive ChainMember.rank
  by_cases he : a.epoch = b.epoch
  · cases a.snapshot <;> cases b.snapshot <;> simp [he]
  · have ha := a.snapshot.toNat_le
    have hb := b.snapshot.toNat_le
    rw [if_pos he, decide_eq_true_iff]
    omega

/-- The two maps the collapse builds in one pass over a lineage's members. -/
def collapseStep (maps : Map Nat (ChainMember κ) × Map (Nat × Nat) (ChainMember κ))
    (m : ChainMember κ) : Map Nat (ChainMember κ) × Map (Nat × Nat) (ChainMember κ) :=
  if m.byTXID then (KeepBest.keep (·.maxTXID) moreLive maps.1 m, maps.2)
  else (maps.1, KeepBest.keep ChainMember.range (fun a b => b.epoch < a.epoch) maps.2 m)

def keepHighestEpoch (members : List (ChainMember κ)) : List (ChainMember κ) :=
  let maps := members.foldl collapseStep (∅, ∅)
  values maps.1 ++ values maps.2

/-- The live member at a txid: the first of highest rank among the snapshots and
single-txid segments there. -/
def winner (members : List (ChainMember κ)) (t : Nat) : Option (ChainMember κ) :=
  ((members.filter (·.byTXID)).filter (·.maxTXID = t)).argmax ChainMember.rank

def rangeWinner (members : List (ChainMember κ)) (r : Nat × Nat) : Option (ChainMember κ) :=
  ((members.filter (!·.byTXID)).filter (·.range = r)).argmax ChainMember.epoch

theorem foldl_collapseStep (members : List (ChainMember κ))
    (maps : Map Nat (ChainMember κ) × Map (Nat × Nat) (ChainMember κ)) :
    members.foldl collapseStep maps =
      ((members.filter (·.byTXID)).foldl (KeepBest.keep (·.maxTXID) moreLive) maps.1,
        (members.filter (!·.byTXID)).foldl
          (KeepBest.keep ChainMember.range (fun a b => b.epoch < a.epoch)) maps.2) := by
  induction members generalizing maps with
  | nil => rfl
  | cons m members ih =>
    rw [foldl_cons, ih]
    cases hm : m.byTXID <;> simp [collapseStep, hm]

variable {members : List (ChainMember κ)} {m : ChainMember κ}

theorem mem_keepHighestEpoch : m ∈ keepHighestEpoch members ↔
      (∃ t, winner members t = some m) ∨ ∃ r, rangeWinner members r = some m := by
  have hepoch : ∀ a c : ChainMember κ, decide (c.epoch < a.epoch) = true ↔ c.epoch < a.epoch :=
    fun _ _ => decide_eq_true_iff
  rw [keepHighestEpoch, foldl_collapseStep, mem_append, mem_values, mem_values]
  simp only [KeepBest.lookup_foldl_keep_empty moreLive_iff, KeepBest.lookup_foldl_keep_empty hepoch]
  rfl

variable {t : Nat}

theorem winner_mem (h : winner members t = some m) :
    m ∈ members ∧ m.maxTXID = t ∧ m.byTXID = true := by
  have hmem := argmax_mem h
  simpa [mem_filter, and_assoc] using hmem

theorem rank_le_winner {c : ChainMember κ} (h : winner members t = some m) (hc : c ∈ members)
    (hb : c.byTXID = true) (ht : c.maxTXID = t) : c.rank ≤ m.rank :=
  le_of_mem_argmax (by simp [hc, hb, ht]) h

theorem rangeWinner_mem {r : Nat × Nat} (h : rangeWinner members r = some m) :
    m ∈ members ∧ m.range = r ∧ m.byTXID = false := by
  have hmem := argmax_mem h
  simpa [mem_filter, and_assoc] using hmem

theorem epoch_le_rangeWinner {r : Nat × Nat} {c : ChainMember κ}
    (h : rangeWinner members r = some m) (hc : c ∈ members) (hb : c.byTXID = false)
    (hr : c.range = r) : c.epoch ≤ m.epoch :=
  le_of_mem_argmax (by simp [hc, hb, hr]) h

theorem winner_of_top (hm : m ∈ members) (hby : m.byTXID = true) (ht : m.maxTXID = t)
    (htop : ∀ c ∈ members, c.byTXID = true → c.maxTXID = t → c = m ∨ c.rank < m.rank) :
    winner members t = some m := by
  refine KeepBest.argmax_of_top (by simp [hm, hby, ht]) fun c hc => ?_
  obtain ⟨hc, ht, hcb⟩ : c ∈ members ∧ c.maxTXID = t ∧ c.byTXID = true := by simpa using hc
  exact htop c hc hcb ht

theorem rangeWinner_of_top (hm : m ∈ members) (hby : m.byTXID = false)
    (htop : ∀ c ∈ members, c.byTXID = false → c.range = m.range → c = m ∨ c.epoch < m.epoch) :
    rangeWinner members m.range = some m := by
  refine KeepBest.argmax_of_top (by simp [hm, hby]) fun c hc => ?_
  obtain ⟨hc, hr, hcb⟩ : c ∈ members ∧ c.range = m.range ∧ c.byTXID = false := by simpa using hc
  exact htop c hc hcb hr

theorem mem_of_mem_keepHighestEpoch (h : m ∈ keepHighestEpoch members) : m ∈ members := by
  rcases mem_keepHighestEpoch.mp h with ⟨t, hw⟩ | ⟨r, hw⟩
  · exact (winner_mem hw).1
  · exact (rangeWinner_mem hw).1

/-! ## Listing a lineage -/

def segmentLE (a b : ChainMember κ) : Prop :=
  a.maxTXID < b.maxTXID ∨ a.maxTXID = b.maxTXID ∧ a.minTXID ≤ b.minTXID

def snapshotLE (a b : ChainMember κ) : Prop := a.maxTXID ≤ b.maxTXID

instance : DecidableRel (segmentLE (κ := κ)) :=
  fun _ _ => inferInstanceAs (Decidable (_ ∨ _ ∧ _))

instance : DecidableRel (snapshotLE (κ := κ)) :=
  fun _ _ => inferInstanceAs (Decidable (_ ≤ _))

/-- A lineage's parsed listing, collapsed over the combined set and only then
split into snapshots and segments, each in txid order. -/
def listMembers (members : List (ChainMember κ)) : List (ChainMember κ) × List (ChainMember κ) :=
  let live := keepHighestEpoch members
  ((live.filter (·.snapshot)).insertionSort snapshotLE,
    (live.filter (!·.snapshot)).insertionSort segmentLE)

theorem mem_listMembers_fst :
    m ∈ (listMembers members).1 ↔ m ∈ keepHighestEpoch members ∧ m.snapshot = true := by
  simp [listMembers, mem_insertionSort, mem_filter]

theorem mem_listMembers_snd :
    m ∈ (listMembers members).2 ↔ m ∈ keepHighestEpoch members ∧ m.snapshot = false := by
  simp [listMembers, mem_insertionSort, mem_filter]

instance : Std.Total (snapshotLE (κ := κ)) := ⟨fun a b => Nat.le_total a.maxTXID b.maxTXID⟩

instance : IsTrans (ChainMember κ) snapshotLE := ⟨fun _ _ _ => le_trans⟩

instance : Std.Total (segmentLE (κ := κ)) := ⟨fun a b => by unfold segmentLE; omega⟩

instance : IsTrans (ChainMember κ) segmentLE := ⟨fun a b c => by unfold segmentLE; omega⟩

theorem pairwise_listMembers_fst (members : List (ChainMember κ)) :
    (listMembers members).1.Pairwise snapshotLE :=
  pairwise_insertionSort snapshotLE _

theorem pairwise_listMembers_snd (members : List (ChainMember κ)) :
    (listMembers members).2.Pairwise segmentLE :=
  pairwise_insertionSort segmentLE _

end Offshoot
