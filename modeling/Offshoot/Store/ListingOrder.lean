import Offshoot.Lib.SortedList
import Offshoot.Store.Keys

/-!
# Listing order

The source leaves three orders open when it lists a lineage: the one the backend lists keys in,
the one Go walks the two maps of the collapse in, and the one `sort.Slice` leaves equal elements
in.  `ListsMembers` is `listMembers` with all three left open.  What survives the collapse is
described by membership alone (`Live`) as soon as no two members of a slot have one rank, and
canonical keys see to that: a key says the kind, the range and the epoch, and nothing else.
-/

namespace Offshoot

open Maps SortedList List

variable {κ : Type} {members live : List (ChainMember κ)} {m c : ChainMember κ}

namespace ChainMember

/-- What members compete for: a txid, or a range of several. -/
def slot (m : ChainMember κ) : Nat ⊕ Nat × Nat :=
  if m.byTXID then .inl m.maxTXID else .inr m.range

theorem slot_eq_txid (hm : m.byTXID = true) :
    c.slot = m.slot ↔ c.byTXID = true ∧ c.maxTXID = m.maxTXID := by
  cases hc : c.byTXID <;> simp [slot, hm, hc]

theorem slot_eq_range (hm : m.byTXID = false) :
    c.slot = m.slot ↔ c.byTXID = false ∧ c.range = m.range := by
  cases hc : c.byTXID <;> simp [slot, hm, hc]

/-- The range of a segment, and the txid of a snapshot, can be told from the slot. -/
theorem range_of_slot_eq (hkind : c.snapshot = m.snapshot) (hslot : c.slot = m.slot) :
    c.maxTXID = m.maxTXID ∧ (m.snapshot = true ∨ c.minTXID = m.minTXID) := by
  cases hby : m.byTXID with
  | true =>
    obtain ⟨hcb, hmax⟩ := (slot_eq_txid hby).mp hslot
    refine ⟨hmax, ?_⟩
    cases hs : m.snapshot with
    | true => exact .inl rfl
    | false =>
      have hmin : m.minTXID = m.maxTXID := by simpa [byTXID, hs] using hby
      have hcmin : c.minTXID = c.maxTXID := by simpa [byTXID, hkind, hs] using hcb
      exact .inr (hcmin.trans (hmax.trans hmin.symm))
  | false =>
    have hr := Prod.mk.inj ((slot_eq_range hby).mp hslot).2
    exact ⟨hr.2, .inr hr.1⟩

theorem rank_eq_of_range (hm : m.byTXID = false) : m.rank = 2 * m.epoch := by
  have hs : m.snapshot = false := (Bool.or_eq_false_iff.mp hm).1
  simp [rank, hs]

theorem eq_of_rank_eq (h : c.rank = m.rank) : c.snapshot = m.snapshot ∧ c.epoch = m.epoch := by
  unfold rank at h
  cases hc : c.snapshot <;> cases hm : m.snapshot <;> simp [hc, hm] at h ⊢ <;> omega

theorem epoch_le_of_rank_le (h : c.rank ≤ m.rank) : c.epoch ≤ m.epoch := by
  have := m.snapshot.toNat_le
  unfold rank at h
  omega

end ChainMember

def Ranked (members : List (ChainMember κ)) : Prop :=
  ∀ a ∈ members, ∀ b ∈ members, a.slot = b.slot → a.rank = b.rank → a = b

def Live (members : List (ChainMember κ)) (m : ChainMember κ) : Prop :=
  m ∈ members ∧ ∀ c ∈ members, c.slot = m.slot → c.rank ≤ m.rank

theorem Ranked.eq_or_lt (h : Ranked members) (hm : Live members m) (hc : c ∈ members)
    (hslot : c.slot = m.slot) : c = m ∨ c.rank < m.rank :=
  (Nat.eq_or_lt_of_le (hm.2 c hc hslot)).imp_left (h c hc m hm.1 hslot)

theorem Ranked.eq_of_slot (h : Ranked members) (hm : Live members m) (hc : Live members c)
    (hslot : c.slot = m.slot) : c = m :=
  h c hc.1 m hm.1 hslot (le_antisymm (hm.2 c hc.1 hslot) (hc.2 m hm.1 hslot.symm))

theorem Ranked.mem_keepHighestEpoch (h : Ranked members) :
    m ∈ keepHighestEpoch members ↔ Live members m := by
  rw [Offshoot.mem_keepHighestEpoch]
  constructor
  · rintro (⟨t, hw⟩ | ⟨r, hw⟩)
    · obtain ⟨hm, rfl, hby⟩ := winner_mem hw
      refine ⟨hm, fun c hc hslot => ?_⟩
      obtain ⟨hcb, ht⟩ := (ChainMember.slot_eq_txid hby).mp hslot
      exact rank_le_winner hw hc hcb ht
    · obtain ⟨hm, rfl, hby⟩ := rangeWinner_mem hw
      refine ⟨hm, fun c hc hslot => ?_⟩
      obtain ⟨hcb, hr⟩ := (ChainMember.slot_eq_range hby).mp hslot
      rw [ChainMember.rank_eq_of_range hcb, ChainMember.rank_eq_of_range hby]
      have := epoch_le_rangeWinner hw hc hcb hr
      omega
  · intro hm
    cases hby : m.byTXID with
    | true =>
      refine .inl ⟨_, winner_of_top hm.1 hby rfl fun c hc hcb ht => ?_⟩
      exact h.eq_or_lt hm hc ((ChainMember.slot_eq_txid hby).mpr ⟨hcb, ht⟩)
    | false =>
      refine .inr ⟨_, rangeWinner_of_top hm.1 hby fun c hc hcb hr => ?_⟩
      have hlt := h.eq_or_lt hm hc ((ChainMember.slot_eq_range hby).mpr ⟨hcb, hr⟩)
      rw [ChainMember.rank_eq_of_range hcb, ChainMember.rank_eq_of_range hby] at hlt
      exact hlt.imp_right fun hlt => by omega

theorem nodup_keepHighestEpoch : (keepHighestEpoch members).Nodup := by
  rw [keepHighestEpoch, foldl_collapseStep]
  refine nodup_append.mpr ⟨(KeepBest.Filed.empty.foldl_keep _).nodup_map.of_map,
    (KeepBest.Filed.empty.foldl_keep _).nodup_map.of_map, fun a ha b hb hab => ?_⟩
  -- a member of the first map collapses by txid, one of the second does not
  obtain ⟨t, ht⟩ := mem_values.mp ha
  obtain ⟨r, hr⟩ := mem_values.mp hb
  rw [KeepBest.lookup_foldl_keep_empty moreLive_iff] at ht
  rw [KeepBest.lookup_foldl_keep_empty fun _ _ => decide_eq_true_iff] at hr
  have hfalse := (rangeWinner_mem hr).2.2
  rw [← hab, (winner_mem ht).2.2] at hfalse
  cases hfalse

theorem Ranked.of_subset (h : Ranked members) (hsub : live ⊆ members) : Ranked live :=
  fun a ha b hb => h a (hsub ha) b (hsub hb)

/-- The collapse of a listing depends on which members are listed. -/
theorem Ranked.perm_keepHighestEpoch (h : Ranked members) (hsame : ∀ c, c ∈ live ↔ c ∈ members) :
    (keepHighestEpoch live).Perm (keepHighestEpoch members) := by
  refine (perm_ext_iff_of_nodup nodup_keepHighestEpoch nodup_keepHighestEpoch).mpr fun c => ?_
  have hlive := h.of_subset fun c hc => (hsame c).mp hc
  rw [hlive.mem_keepHighestEpoch, h.mem_keepHighestEpoch]
  simp only [Live, hsame]

theorem Ranked.keepHighestEpoch_idem (h : Ranked members)
    (hlive : live.Perm (keepHighestEpoch members)) : (keepHighestEpoch live).Perm live := by
  have hsub : live ⊆ members := fun c hc => mem_of_mem_keepHighestEpoch (hlive.subset hc)
  refine (perm_ext_iff_of_nodup nodup_keepHighestEpoch
    (hlive.nodup_iff.mpr nodup_keepHighestEpoch)).mpr fun c => ?_
  rw [(h.of_subset hsub).mem_keepHighestEpoch]
  refine ⟨And.left, fun hc => ⟨hc, fun d hd hslot => ?_⟩⟩
  exact (h.mem_keepHighestEpoch.mp (hlive.subset hc)).2 d (hsub hd) hslot

theorem exists_live (hm : m ∈ members) : ∃ c, Live members c ∧ c.slot = m.slot := by
  cases hc : (members.filter (·.slot = m.slot)).argmax ChainMember.rank with
  | none =>
    rw [argmax_eq_none, filter_eq_nil_iff] at hc
    exact absurd (decide_eq_true rfl) (hc m hm)
  | some c =>
    obtain ⟨hcm, hslot⟩ : c ∈ members ∧ c.slot = m.slot := by simpa using argmax_mem hc
    refine ⟨c, ⟨hcm, fun d hd hds => ?_⟩, hslot⟩
    exact le_of_mem_argmax (by simp [hd, hds, hslot]) hc

theorem perm_listMembers :
    ((listMembers members).1 ++ (listMembers members).2).Perm (keepHighestEpoch members) :=
  ((perm_insertionSort snapshotLE _).append (perm_insertionSort segmentLE _)).trans
    (filter_append_perm _ _)

/-! ## The orders the source leaves open -/

/-- `keepHighestEpoch`, its maps walked in any order. -/
def CollapsesTo (members live : List (ChainMember κ)) : Prop :=
  ∃ txids ranges, txids.Perm (values (members.foldl collapseStep (∅, ∅)).1) ∧
    ranges.Perm (values (members.foldl collapseStep (∅, ∅)).2) ∧ live = txids ++ ranges

theorem CollapsesTo.perm (h : CollapsesTo members live) : live.Perm (keepHighestEpoch members) := by
  obtain ⟨txids, ranges, htxids, hranges, rfl⟩ := h
  exact htxids.append hranges

theorem collapses_keepHighestEpoch : CollapsesTo members (keepHighestEpoch members) :=
  ⟨_, _, .rfl, .rfl, rfl⟩

theorem Ranked.snapshot_antisymm (h : Ranked members) :
    ∀ a ∈ (keepHighestEpoch members).filter (·.snapshot),
      ∀ b ∈ (keepHighestEpoch members).filter (·.snapshot),
        snapshotLE a b → snapshotLE b a → a = b := by
  intro a ha b hb hab hba
  obtain ⟨ha, hsa⟩ := mem_filter.mp ha
  obtain ⟨hb, hsb⟩ := mem_filter.mp hb
  refine h.eq_of_slot (h.mem_keepHighestEpoch.mp hb) (h.mem_keepHighestEpoch.mp ha) ?_
  have hmax : a.maxTXID = b.maxTXID := le_antisymm hab hba
  simp [ChainMember.slot, ChainMember.byTXID, hsa, hsb, hmax]

theorem Ranked.segment_antisymm (h : Ranked members) :
    ∀ a ∈ (keepHighestEpoch members).filter (!·.snapshot),
      ∀ b ∈ (keepHighestEpoch members).filter (!·.snapshot),
        segmentLE a b → segmentLE b a → a = b := by
  intro a ha b hb hab hba
  obtain ⟨ha, hsa⟩ := mem_filter.mp ha
  obtain ⟨hb, hsb⟩ := mem_filter.mp hb
  refine h.eq_of_slot (h.mem_keepHighestEpoch.mp hb) (h.mem_keepHighestEpoch.mp ha) ?_
  rw [Bool.not_eq_true'] at hsa hsb
  obtain ⟨hmax, hmin⟩ : a.maxTXID = b.maxTXID ∧ a.minTXID = b.minTXID := by
    unfold segmentLE at hab hba
    omega
  simp [ChainMember.slot, ChainMember.byTXID, ChainMember.range, hsa, hsb, hmax, hmin]

namespace Keys

/-- `listMembers` on the keys the backend lists. -/
def ListsMembers (keys : List Text)
    (out : List (ChainMember Text) × List (ChainMember Text)) : Prop :=
  ∃ live, CollapsesTo (keys.filterMap parseMemberKey) live ∧
    Sorts snapshotLE (live.filter (·.snapshot)) out.1 ∧
    Sorts segmentLE (live.filter (!·.snapshot)) out.2

def Member.parsed (lineage : Text) (m : Member) : ChainMember Text :=
  ⟨m.key lineage, m.isSnapshot, m.minTXID.toNat, m.maxTXID.toNat, m.epoch.toNat⟩

theorem Member.minTXID_snapshot {m : Member} (h : m.isSnapshot = true) : m.minTXID = 0 := by
  cases m with
  | snapshot => rfl
  | segment => cases h

/-- A listing of the members `s`: their keys in any order, with any keys that are not of members
among them. -/
structure Listing (lineage : Text) (s : Finset Member) (keys : List Text) : Prop where
  listed : ∀ m ∈ s, m.key lineage ∈ keys
  only : ∀ k ∈ keys, parseMemberKey k = none ∨ ∃ m ∈ s, m.key lineage = k

section

variable {lineage : Text} {s : Finset Member} {keys : List Text}
  (hne : lineage ≠ []) (hslash : '/' ∉ lineage)
include hne hslash

theorem Listing.mem_members (h : Listing lineage s keys) {c : ChainMember Text} :
    c ∈ keys.filterMap parseMemberKey ↔ ∃ m ∈ s, m.parsed lineage = c := by
  rw [mem_filterMap]
  constructor
  · rintro ⟨k, hk, hparse⟩
    rcases h.only k hk with hnone | ⟨m, hm, rfl⟩
    · rw [hnone] at hparse
      cases hparse
    · rw [Member.parse_key hne hslash, Option.some.injEq] at hparse
      exact ⟨m, hm, hparse⟩
  · rintro ⟨m, hm, rfl⟩
    exact ⟨_, h.listed m hm, Member.parse_key hne hslash⟩

/-- A snapshot or single-txid segment is its epoch, kind and txid; any other segment its epoch
and range. -/
theorem Listing.ranked (h : Listing lineage s keys) : Ranked (keys.filterMap parseMemberKey) := by
  intro a ha b hb hslot hrank
  obtain ⟨m, -, rfl⟩ := (h.mem_members hne hslash).mp ha
  obtain ⟨m', -, rfl⟩ := (h.mem_members hne hslash).mp hb
  obtain ⟨hkind, hepoch⟩ := ChainMember.eq_of_rank_eq hrank
  obtain ⟨hmax, hmin⟩ := ChainMember.range_of_slot_eq hkind hslot
  have hmin' : m.minTXID = m'.minTXID := by
    rcases hmin with hsnap | hmin
    · rw [Member.minTXID_snapshot hsnap, Member.minTXID_snapshot (hkind.trans hsnap)]
    · exact UInt64.toNat_inj.mp hmin
  rw [Member.ext hkind (UInt64.toNat_inj.mp hepoch) hmin' (UInt64.toNat_inj.mp hmax)]

/-- Every run of `listMembers` on a listing returns what the model computes from any other. -/
theorem Listing.lists_iff {keys' : List Text} (h : Listing lineage s keys)
    (h' : Listing lineage s keys') {out : List (ChainMember Text) × List (ChainMember Text)} :
    ListsMembers keys' out ↔ out = listMembers (keys.filterMap parseMemberKey) := by
  have hranked := h.ranked hne hslash
  have hperm := hranked.perm_keepHighestEpoch fun c =>
    (h'.mem_members hne hslash).trans (h.mem_members hne hslash).symm
  have hsnaps := sorts_insertionSort (snapshotLE (κ := Text))
  have hsegs := sorts_insertionSort (segmentLE (κ := Text))
  constructor
  · rintro ⟨live, hlive, hsnap, hseg⟩
    have hlive := hlive.perm.trans hperm
    exact Prod.ext (hsnap.eq (hsnaps _) (hlive.filter _) hranked.snapshot_antisymm)
      (hseg.eq (hsegs _) (hlive.filter _) hranked.segment_antisymm)
  · rintro rfl
    refine ⟨_, collapses_keepHighestEpoch, ?_, ?_⟩
    · exact ⟨(hsnaps _).perm.trans (hperm.symm.filter _), (hsnaps _).sorted⟩
    · exact ⟨(hsegs _).perm.trans (hperm.symm.filter _), (hsegs _).sorted⟩

/-- Whatever the three orders are, a lineage is listed as the same two sorted lists, with the
best member of every slot in one of them, and collapsing those again changes nothing. -/
theorem listMembers_order_free (h : Listing lineage s keys) :
    let out := listMembers (keys.filterMap parseMemberKey)
    (∀ keys', Listing lineage s keys' → ∀ out', ListsMembers keys' out' ↔ out' = out) ∧
    out.1.Pairwise (fun a b => a.maxTXID < b.maxTXID) ∧
    out.2.Pairwise (fun a b =>
      a.maxTXID < b.maxTXID ∨ a.maxTXID = b.maxTXID ∧ a.minTXID < b.minTXID) ∧
    (∀ c ∈ out.1, c.snapshot = true) ∧ (∀ c ∈ out.2, c.snapshot = false) ∧
    (∀ m ∈ s, ∃! c, c ∈ out.1 ++ out.2 ∧ c.slot = (m.parsed lineage).slot) ∧
    (∀ c ∈ out.1 ++ out.2, ∃ m ∈ s, m.parsed lineage = c ∧
      ∀ m' ∈ s, (m'.parsed lineage).slot = c.slot → m'.epoch ≤ m.epoch) ∧
    ∀ live, CollapsesTo (out.1 ++ out.2) live → live.Perm (out.1 ++ out.2) := by
  intro out
  have hranked := h.ranked hne hslash
  have hmem {c : ChainMember Text} : c ∈ out.1 ++ out.2 ↔
      Live (keys.filterMap parseMemberKey) c :=
    perm_listMembers.mem_iff.trans hranked.mem_keepHighestEpoch
  have hparsed {m : Member} (hm : m ∈ s) : m.parsed lineage ∈ keys.filterMap parseMemberKey :=
    (h.mem_members hne hslash).mpr ⟨m, hm, rfl⟩
  refine ⟨fun keys' h' out' => h.lists_iff hne hslash h', ?_, ?_,
    fun c hc => (mem_listMembers_fst.mp hc).2, fun c hc => (mem_listMembers_snd.mp hc).2,
    fun m hm => ?_, fun c hc => ?_, fun live hlive => ?_⟩
  · refine ((sorts_insertionSort snapshotLE _).strict (nodup_keepHighestEpoch.filter _)
      hranked.snapshot_antisymm).imp fun hab => ?_
    exact Nat.lt_of_not_le hab.2
  · refine ((sorts_insertionSort segmentLE _).strict (nodup_keepHighestEpoch.filter _)
      hranked.segment_antisymm).imp fun hab => ?_
    unfold segmentLE at hab
    omega
  · obtain ⟨c, hc, hslot⟩ := exists_live (hparsed hm)
    refine ⟨c, ⟨hmem.mpr hc, hslot⟩, fun d hd => ?_⟩
    exact hranked.eq_of_slot hc (hmem.mp hd.1) (hd.2.trans hslot.symm)
  · obtain ⟨hcm, hbest⟩ := hmem.mp hc
    obtain ⟨m, hm, rfl⟩ := (h.mem_members hne hslash).mp hcm
    refine ⟨m, hm, rfl, fun m' hm' hslot => ?_⟩
    exact ChainMember.epoch_le_of_rank_le (hbest _ (hparsed hm') hslot)
  · exact hlive.perm.trans (hranked.keepHighestEpoch_idem perm_listMembers)

end

/-- An orphan snapshot at a txid of a later holder, and a compacted range, listed beside a base
pointer. -/
theorem listMembers_order_free_orphan :
    let s : Finset Member := {.snapshot 1 5, .segment 2 5 5, .segment 1 6 8}
    let keys := [Member.key ['a'] (.snapshot 1 5), baseKey ['a'], Member.key ['a'] (.segment 1 6 8),
      Member.key ['a'] (.segment 2 5 5)]
    Listing ['a'] s keys ∧ ∀ out, ListsMembers keys.reverse out ↔
      out = listMembers (keys.filterMap parseMemberKey) := by
  intro s keys
  have hbase : parseMemberKey (baseKey ['a']) = none := parse_baseKey (by decide)
  have h : Listing ['a'] s keys :=
    ⟨by simp [s, keys], by simp [s, keys, hbase]⟩
  have hrev : Listing ['a'] s keys.reverse :=
    ⟨fun m hm => mem_reverse.mpr (h.listed m hm), fun k hk => h.only k (mem_reverse.mp hk)⟩
  exact ⟨h, (listMembers_order_free (by decide) (by decide) h).1 _ hrev⟩

end Keys

end Offshoot
