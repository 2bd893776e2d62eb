import Offshoot.System.BasesSound

/-!
# Lease epochs and fencing

In every run, on both kinds of backend and whatever the clocks show: a lineage's
epoch never goes back, two holders never have leases of one epoch, and once a
lease is granted no holder of an earlier epoch moves the head, records a
checkpoint or renews.
-/

namespace Offshoot

open Conc Maps List

variable {env : Env} {w w' : World} {i : Nat}

/-- What an act adds to the history: writes that edit the refs as they stand, and
grants of leases that are on a record in the history. -/
structure Recorded (w w' : World) (news : List Event) : Prop where
  log : w'.log = news ++ w.log
  wrote : ∀ {j b op before after}, Event.wrote j b op before after ∈ news →
    before = w.refs.lookup b ∧ op.apply before = some after
  granted : ∀ {j b l lease}, Event.granted j b l lease ∈ news → w'.Owner l lease.epoch lease.holder

variable {op : RefOp}

theorem World.version_of_land {b : BranchId} {r : Ref} :
    (w.land i b op (some r)).Version b r := ⟨i, op, _, mem_cons_self⟩

theorem recorded_land {b : BranchId} {after : Option Ref}
    (happly : op.apply (w.refs.lookup b) = some after) :
    Recorded w (w.land i b op after) [.wrote i b op (w.refs.lookup b) after] where
  log := rfl
  wrote h := by
    obtain ⟨rfl, rfl, rfl, rfl, rfl⟩ := Event.wrote.inj (mem_singleton.mp h)
    exact ⟨rfl, happly⟩
  granted h := by simp at h

theorem recorded_nil (hlog : w'.log = w.log) : Recorded w w' [] :=
  ⟨hlog, by simp, by simp⟩

variable {a : Act}

theorem RefsInv.recorded (h : RefsInv env w) (hok : a.ok env i w) :
    ∃ news, Recorded w (a.run i w) news := by
  cases a with
  | note e =>
    refine ⟨[e], rfl, fun hm => ?_, fun hm => ?_⟩ <;> obtain rfl := mem_singleton.mp hm <;>
      exact hok.elim
  | mint => exact ⟨[.minted i w.nextLineage], rfl, by simp, by simp⟩
  | sweep time k => exact ⟨[.swept i time k], rfl, by simp, by simp⟩
  | write b op after => exact ⟨_, recorded_land hok.1⟩
  | grant b op after lease =>
    have hland := recorded_land (i := i) hok.1
    refine ⟨_ :: _, congrArg _ hland.log, fun hm => ?_, fun hm => ?_⟩
    · exact hland.wrote (by simpa using hm)
    · obtain ⟨-, -, rfl, rfl⟩ : _ ∧ _ ∧ _ ∧ _ := by simpa using hm
      refine ⟨b, after, ?_, rfl, hok.2.2.2, hok.2.2.1⟩
      exact World.version_of_land.mono (subset_cons_self _ _)
  | adopt b r lease =>
    refine ⟨[.granted i b r.lineage lease], rfl, by simp, fun hm => ?_⟩
    obtain ⟨-, -, rfl, rfl⟩ : _ ∧ _ ∧ _ ∧ _ := by simpa using hm
    exact ⟨b, r, (h.current hok.1).mono (subset_cons_self _ _), rfl, hok.2.2, hok.2.1⟩
  | effect b e r =>
    refine ⟨[.wrote i b (.edit e) (some r) (some r)], rfl, fun hm => ?_, by simp⟩
    obtain ⟨rfl, rfl, rfl, rfl, rfl⟩ := Event.wrote.inj (mem_singleton.mp hm)
    exact ⟨hok.1.symm, by rw [RefOp.apply_edit hok.2.1, h.stored (h.current hok.1)]⟩
  | late n =>
    refine Act.late_elim (fun j b op after hp => ?_) (fun j b _ => ?_)
      (fun _ _ _ _ => ⟨[], recorded_nil rfl⟩) fun _ => ⟨[], recorded_nil rfl⟩
    · have hland := recorded_land (w := { w with pending := w.pending.eraseIdx n }) (i := j)
        (h.sent (mem_of_getElem? hp)).1
      exact ⟨_, hland.log, hland.wrote, hland.granted⟩
    · have hland : Recorded { w with pending := w.pending.eraseIdx n } _
          [.wrote j b .delete (w.refs.lookup b) none] := recorded_land rfl
      exact ⟨_, hland.log, hland.wrote, hland.granted⟩
  | _ => exact ⟨[], recorded_nil rfl⟩

/-- The holder and the epoch a write of a ref is made under: those of the writes that
move the head, record a checkpoint or renew. -/
def RefOp.lease : RefOp → Option (Holder × Nat)
  | .edit (.flush c) | .edit (.checkpoint c) => some (c.holder, c.epoch)
  | .edit (.renew l _ _) => some (l.holder, l.epoch)
  | _ => none

/-- Such a write replaces a record that has this lease. -/
theorem RefOp.lease_on {r : Ref} {after : Option Ref} {x : Holder} {e : Nat}
    (h : op.apply (some r) = some after) (hl : op.lease = some (x, e)) :
    r.leaseHolder = some x ∧ r.epoch = e := by
  cases op with
  | create _ | delete => cases hl
  | edit ed =>
    obtain ⟨r', hr'⟩ : ∃ r', ed.edit r = some r' := by
      cases hed : ed.edit r with
      | none => simp [RefOp.apply, RefEdit.apply, hed] at h
      | some r' => exact ⟨r', rfl⟩
    cases ed with
    | flush c =>
      cases hl
      simp only [RefEdit.edit] at hr'
      split at hr'
      · rename_i hours
        simp only [HeadCommit.ours, Bool.and_eq_true, decide_eq_true_eq] at hours
        exact hours.1.1
      · cases hr'
    | checkpoint c =>
      cases hl
      simp only [RefEdit.edit] at hr'
      split at hr'
      · rename_i hours
        simp only [HeadCommit.ours, Bool.and_eq_true, decide_eq_true_eq] at hours
        exact hours.1.1.1.1
      · cases hr'
    | renew l ttl now =>
      cases hl
      simp only [RefEdit.edit] at hr'
      split at hr'
      · cases hr'
      · rename_i hours
        rw [not_or, not_not, not_not] at hours
        exact hours
    | _ => cases hl

def GrantsOwned (w : World) : Prop :=
  ∀ {j b l lease}, Event.granted j b l lease ∈ w.log → w.Owner l lease.epoch lease.holder

theorem GrantsOwned.run (hg : GrantsOwned w) (h : RefsInv env w) (hok : a.ok env i w) :
    GrantsOwned (a.run i w) := by
  obtain ⟨news, hnews⟩ := h.recorded hok
  intro j b l lease hm
  rw [hnews.log] at hm
  rcases mem_append.mp hm with hm | hm
  · exact hnews.granted hm
  · exact (hg hm).mono a.log_run.subset

/-- Since `w₀`, no write was made under a lease of an earlier epoch than one granted
before `w₀`, nor under one of its epoch by another holder. -/
def FencedSince (w₀ w : World) : Prop :=
  ∃ news, w.log = news ++ w₀.log ∧
    ∀ j b op r after, Event.wrote j b op (some r) after ∈ news → ∀ x e, op.lease = some (x, e) →
      ∀ j' b' lease, Event.granted j' b' r.lineage lease ∈ w₀.log →
        lease.epoch ≤ e ∧ (lease.epoch = e → lease.holder = x)

theorem FencedSince.run {w₀ : World} (hf : FencedSince w₀ w) (hg : GrantsOwned w)
    (h : RefsInv env w) (hok : a.ok env i w) : FencedSince w₀ (a.run i w) := by
  obtain ⟨news, hlog, hf⟩ := hf
  obtain ⟨news', hnews⟩ := h.recorded hok
  refine ⟨news' ++ news, by rw [hnews.log, hlog, append_assoc], ?_⟩
  intro j b op r after hm x e hl j' b' lease hgrant
  rcases mem_append.mp hm with hm | hm
  · -- The write edits the branch's ref, which no record of its lineage is ahead of.
    obtain ⟨hcur, happly⟩ := hnews.wrote hm
    obtain ⟨hx, he⟩ := RefOp.lease_on happly hl
    have howner : w.Owner r.lineage lease.epoch lease.holder :=
      hg (by rw [hlog]; exact mem_append_right _ hgrant)
    obtain ⟨b'', r', hv, hlin, hep, hh⟩ := howner
    refine ⟨?_, fun heq => ?_⟩
    · have := (h.latest hcur.symm hv hlin).1
      omega
    · exact h.owner ⟨b'', r', hv, hlin, hep, hh⟩
        ⟨b, r, h.current hcur.symm, rfl, he.trans heq.symm, hx⟩
  · exact hf j b op r after hm x e hl j' b' lease hgrant

/-- Lease epochs are unique and fencing is final.  `c` is any state of a run and `c'`
any later one. -/
theorem lease_epochs_unique_and_final {enabled : Op → Prop} {c c' : Config World Oracle Op}
    (h : Reach (system env enabled) (.init .empty) c) (h' : Reach (system env enabled) c c') :
    (∀ b b' r r', c.state.refs.lookup b = some r → c'.state.refs.lookup b' = some r' →
      r'.lineage = r.lineage → r.epoch ≤ r'.epoch) ∧
    (∀ j b j' b' l lease lease', Event.granted j b l lease ∈ c'.state.log →
      Event.granted j' b' l lease' ∈ c'.state.log →
      lease.holder ≠ lease'.holder → lease.epoch ≠ lease'.epoch) ∧
    FencedSince c.state c'.state := by
  have hsound := @baseLayer_sound env (fun _ _ => True) enabled
  have hsafe := baseLayer_init.reach hsound (.of_reach baseLayer_all h)
  have hsafe' := hsafe.reach hsound (.of_reach baseLayer_all h')
  have hgrants : GrantsOwned c.state := by
    refine baseLayer_init.preserves (P := GrantsOwned) hsound ?_ (.of_reach baseLayer_all h)
      (fun h => by cases h)
    rintro i w w' hinv ⟨⟨a, hok, -, rfl⟩, -⟩ - hg
    exact hg.run hinv.1 hok
  have hboth : GrantsOwned c'.state ∧ FencedSince c.state c'.state := by
    refine hsafe.preserves (P := fun w => GrantsOwned w ∧ FencedSince c.state w)
      hsound ?_ (.of_reach baseLayer_all h') ⟨hgrants, [], rfl, by simp⟩
    rintro i w w' hinv ⟨⟨a, hok, -, rfl⟩, -⟩ - ⟨hg, hf⟩
    exact ⟨hg.run hinv.1 hok, hf.run hg hinv.1 hok⟩
  have hlog : c.state.log ⊆ c'.state.log := by
    obtain ⟨news, hlog, -⟩ := hboth.2
    rw [hlog]
    exact subset_append_right _ _
  refine ⟨fun b b' r r' hr hr' hl => ?_, fun j b j' b' l lease lease' hm hm' hne heq => ?_,
    hboth.2⟩
  · exact (hsafe'.inv.1.latest hr' ((hsafe.inv.1.current hr).mono hlog) hl.symm).1
  · exact hne (hsafe'.inv.1.owner (hboth.1 hm) (heq ▸ hboth.1 hm'))

def firstHolder : List (Move Oracle Op) :=
  [.start 0 (.create "db" ⟨512, [⟨512, 1⟩]⟩), .run 0 .fine 7,
    .start 1 (.acquire ⟨"db", "main"⟩ 7 5), .run 1 .fine 5]

/-- The lease runs out, another holder takes it, and the first tries to renew. -/
def secondHolder : List (Move Oracle Op) :=
  [.start 2 (.tick 10), .run 2 .fine 1,
    .start 3 (.acquire ⟨"db", "main"⟩ 8 5), .run 3 .fine 5,
    .start 4 (.renew ⟨"db", "main"⟩ ⟨7, 2, some 5⟩ 5), .run 4 .fine 4]

set_option maxRecDepth 4096 in
theorem lease_epochs_unique_and_final_handover : ∃ c c' : Config World Oracle Op,
      Config.play (system .localDir fun _ => True) firstHolder (.init .empty) = some c ∧
      Config.play (system .localDir fun _ => True) secondHolder c = some c' ∧
      (c'.state.refs.lookup ⟨"db", "main"⟩).map (·.epoch) = some 3 ∧
      (c.state.refs.lookup ⟨"db", "main"⟩).map (·.epoch) = some 2 ∧
      FencedSince c.state c'.state := by
  obtain ⟨c, hc, h⟩ := Config.exists_play (c := .init .empty) (m := firstHolder)
    (Q := fun c => (c.play (system .localDir fun _ => True) secondHolder).any fun c' =>
      (c'.state.refs.lookup ⟨"db", "main"⟩).map (·.epoch) = some 3 ∧
        (c.state.refs.lookup ⟨"db", "main"⟩).map (·.epoch) = some 2)
    (s := system .localDir fun _ => True) (by decide)
  obtain ⟨c', hc', h'⟩ := Config.exists_play h
  obtain ⟨h3, h2⟩ : _ ∧ _ := by simpa using h'
  exact ⟨c, c', hc, hc', by simpa using h3, by simpa using h2,
    (lease_epochs_unique_and_final (Config.play_reach hc) (Config.play_reach hc')).2.2⟩

end Offshoot
