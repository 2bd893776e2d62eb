import Offshoot.Data.Runs

/-!
# What a ref resolves to

The history says which object each txid of a lineage was committed with, and the
resolver sees only what objects there are.  They agree: a listed object is outranked
by the committed one at its txid, and base pointers lead to older lineages, so the
resolver ends and finds the committed object at every txid.
-/

namespace Offshoot

open Conc Maps List

variable {env : Env} {w : World}

def pathMembers (ks : List DataKey) : List (ChainMember DataKey) := ks.filterMap DataKey.parseMember

/-! ## The view of a well-kept store -/

variable {l : Lineage}

theorem ObjInv.mem_view (h : ObjInv w) {m : ChainMember DataKey} (hm : m ∈ w.objs.members l) :
    ∃ k e t, w.Has k ∧ k.slot = some (l, e, t) ∧ k.parseMember = some m := by
  obtain ⟨k, o, hk, hkl, hpar⟩ := Objects.mem_members.mp hm
  rcases h.shape hk with ⟨⟨l', e, t⟩, hs⟩ | ⟨l', bp, rfl, -, -⟩
  · obtain rfl : l' = l := (DataKey.lineage_slot hs).symm.trans hkl
    exact ⟨k, e, t, World.has_iff.mpr ⟨o, hk⟩, hs, hpar⟩
  · cases hpar

theorem ObjInv.base_view (h : ObjInv w) (l : Lineage) :
    w.objs.base l = .ok none ∨ ∃ bp, w.objs.base l = .ok (some bp) ∧ bp.lineage < l := by
  cases ho : w.objs.lookup (.base l) with
  | none => exact .inl (Objects.base_ok_none.mpr ho)
  | some o =>
    rcases h.shape ho with ⟨s, hs⟩ | ⟨l', bp, hl', rfl, hlt⟩
    · exact absurd hs DataKey.slot_base
    · obtain rfl : l = l' := by simpa using hl'
      exact .inr ⟨bp, Objects.base_ok_some.mpr ho, hlt⟩

theorem ObjInv.tidy (h : ObjInv w) : Tidy w.view where
  single {l members m} hl hm hs := by
    cases hl
    obtain ⟨k, e, t, -, hslot, hpar⟩ := h.mem_view hm
    have hby := (DataKey.slot_member hslot hpar).2.2.1
    simpa [ChainMember.byTXID, hs] using hby
  above {l members m b} hl hb hm := by
    cases hl
    obtain ⟨k, e, t, hk, hslot, hpar⟩ := h.mem_view hm
    have hbase := Objects.base_ok_some.mp hb
    have hn := h.alone (World.has_iff.mpr ⟨_, hbase⟩) hk hslot
    obtain ⟨bp, hbp, heq⟩ := h.base hn hbase
    obtain rfl : b = bp := by simpa using heq
    rw [(DataKey.slot_member hslot hpar).1]
    exact h.above hbp hk hslot

theorem ObjInv.walkable (h : ObjInv w) {seen : List Lineage}
    (hseen : ∀ s ∈ seen, l ≤ s) : Walkable w.view l seen := by
  induction l using Nat.strong_induction_on generalizing seen with
  | _ l ih =>
    rcases h.base_view l with hb | ⟨bp, hb, hlt⟩
    · exact .stop hb
    refine .step hb (fun hmem => ?_) (ih bp.lineage hlt fun s hs => ?_)
    · exact absurd (hseen _ hmem) (Nat.not_le.mpr hlt)
    · rcases mem_cons.mp hs with rfl | hs
      · exact le_rfl
      · exact hlt.le.trans (hseen s hs)

/-! ## Paths resolve -/

theorem DataInv.own (h : DataInv w) {c : Commit} {m : ChainMember DataKey} (hc : w.Committed c)
    (hk : w.Has c.key) (hm : c.key.parseMember = some m) : Own w.view c.lineage c.txid m := by
  have hslot := h.log.slot hc
  obtain ⟨hmax, hepoch, hby, hsnap⟩ := DataKey.slot_member hslot hm
  refine ⟨⟨w.objs.members c.lineage, rfl, winner_of_top ?_ hby hmax fun m' hm' _ ht' => ?_⟩, ?_⟩
  · obtain ⟨o, ho⟩ := World.has_iff.mp hk
    exact Objects.mem_members.mpr ⟨c.key, o, ho, DataKey.lineage_slot hslot, hm⟩
  · -- Another object at the txid is of an older epoch, or a segment beside a snapshot.
    obtain ⟨k, e, t, hk', hs', hpar'⟩ := h.obj.mem_view hm'
    obtain ⟨hmax', hepoch', -, hsnap'⟩ := DataKey.slot_member hs' hpar'
    obtain rfl : t = c.txid := hmax'.symm.trans ht'
    rcases h.obj.top hc hk' hs' with hlt | rfl | ⟨rfl, hkey⟩
    · have h1 := m.snapshot.toNat_le
      have h2 := m'.snapshot.toNat_le
      refine .inr ?_
      unfold ChainMember.rank
      omega
    · exact .inl (Option.some.inj (hpar'.symm.trans hm))
    · by_cases hs : m'.snapshot = true
      · refine .inl (Option.some.inj ?_)
        rw [← hpar', ← hm, hkey, hsnap'.mp hs]
      · have hsnap := hsnap.mpr hkey
        refine .inr ?_
        simp [ChainMember.rank, hepoch, hepoch', hsnap, hs]
  · rcases h.obj.base_view c.lineage with hb | ⟨bp, hb, -⟩
    · exact ⟨none, hb, by simp⟩
    refine ⟨some bp, hb, fun b hb' => ?_⟩
    cases hb'
    obtain ⟨bp', hbp, heq⟩ := h.obj.base (h.log.named_of_committed hc) (Objects.base_ok_some.mp hb)
    obtain rfl : bp = bp' := by simpa using heq
    exact h.log.base_commit hbp hc rfl

variable {t : Nat}

theorem Path.resolved (hr : RefsInv env w) (h : DataInv w) {ks : List DataKey} (hp : Path w l t ks)
    (hks : ∀ k ∈ ks, w.Has k) : Resolved w.view l t (pathMembers ks) := by
  induction hp with
  | @snapshot l t e hc => exact .snapshot (h.own hc (hks _ mem_cons_self) rfl) rfl
  | @segment l t e ks hc _ ih =>
    have hown := h.own hc (hks _ (by simp)) rfl
    have hstep := Resolved.segment hown rfl (ih fun k hk => hks k (mem_append_left _ hk))
    rw [pathMembers, filterMap_append]
    exact hstep
  | @through l t bp ks hb hle _ ih =>
    obtain ⟨o, ho⟩ := World.has_iff.mp (hks _ mem_cons_self)
    obtain ⟨bp', hbp, rfl⟩ := h.obj.base (hr.named_of_baseOf hb) ho
    obtain rfl := h.log.base_unique hb hbp
    exact .through (Objects.base_ok_some.mpr ho) hle (ih fun k hk => hks k (mem_cons_of_mem _ hk))

theorem Path.chain (hr : RefsInv env w) (h : DataInv w) {ks : List DataKey} (hp : Path w l t ks)
    (hks : ∀ k ∈ ks, w.Has k) : chain w.view l t = .ok (pathMembers ks) :=
  (hp.resolved hr h hks).chain h.obj.tidy (h.obj.walkable (by simp))

/-- A ref resolves at each of its txids, to the members of the path there. -/
theorem DataInv.chain (hr : RefsInv env w) (h : DataInv w) {b : BranchId} {r : Ref}
    (hcur : w.refs.lookup b = some r) (ht : t ∈ r.txids) :
    ∃ ks, Path w r.lineage t ks ∧ (∀ k ∈ ks, w.Has k) ∧
      Offshoot.chain w.view r.lineage t = .ok (pathMembers ks) := by
  obtain ⟨ks, hp⟩ := h.log.path (hr.current hcur) ht
  have hks : ∀ k ∈ ks, w.Has k := fun k hk => h.obj.live ⟨b, r, t, ks, hcur, ht, hp, hk⟩
  exact ⟨ks, hp, hks, hp.chain hr h hks⟩

end Offshoot
