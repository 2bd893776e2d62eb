import Offshoot.Data.Layer

/-!
# Writers

A writer holds an epoch of a lineage and has seen a head.  Nobody else commits
under its epoch, so what it uploads above that head is its own: other threads leave
it alone until no head move can commit it.  When its compare-and-swap finds the ref
where it read it, the object is still there and outranks the others.

A session that failed keeps its leftovers in mind: as long as one of its objects
may still be committed, its next flush is a snapshot.
-/

namespace Offshoot

open Conc Maps

variable {env : Env} {gc : Prop}
  {assumed : World → World → Prop} {w w' : World} {i j : Nat} {b : BranchId}

/-- Thread `i` holds epoch `e` of the branch's lineage and has seen head `t`. -/
structure Writer (i : Nat) (b : BranchId) (l : Lineage) (e t : Nat) (w : World) : Prop where
  owner : w.Owner l e i
  head : ∃ r, w.Version b r ∧ r.lineage = l ∧ r.headTXID = t
  above : ∀ c, w.Committed c → c.lineage = l → t < c.txid → e < c.epoch

namespace Writer

variable {l : Lineage} {e t : Nat}

theorem of_current (hr : RefsInv env w) (h : DataInv w) {r : Ref}
    (hcur : w.refs.lookup b = some r) (hh : r.leaseHolder = some i) :
    Writer i b r.lineage r.epoch r.headTXID w where
  owner := ⟨b, r, hr.current hcur, rfl, rfl, hh⟩
  head := ⟨r, hr.current hcur, rfl, rfl⟩
  above c hc hcl hlt := absurd (h.log.le_current hr hcur hc hcl) (by omega)

theorem trans (hw : Writer i b l e t w) (hr : RefsInv env w) (hij : i ≠ j)
    (htr : Trans gc assumed j w w') : Writer i b l e t w' where
  owner := hw.owner.mono htr.log
  head := by
    obtain ⟨r, hv, hx⟩ := hw.head
    exact ⟨r, hv.mono htr.log, hx⟩
  above c hc hcl hlt := by
    rcases htr.committed_of_owner hr hij hw.owner hc hcl with hc | hlt'
    · exact hw.above c hc hcl hlt
    · exact hlt'

theorem same (hw : Writer i b l e t w) (hs : w.SameWrites w') : Writer i b l e t w' := by
  obtain ⟨⟨b', r', hv', hx'⟩, ⟨r, hv, hx⟩, habove⟩ := hw
  exact ⟨⟨b', r', hs.version ▸ hv', hx'⟩, ⟨r, hs.version ▸ hv, hx⟩, hs.committed ▸ habove⟩

theorem putOK (hw : Writer i b l e t w) {k : DataKey} {o : Obj}
    (hs : k.slot = some (l, e, t + 1)) : PutOK i w k o := by
  obtain ⟨r, hv, hrl, hrt⟩ := hw.head
  exact .upload hs hw.owner hv hrl (by omega) fun c hc hcl hct => hw.above c hc hcl (by omega)

theorem dropOK (hw : Writer i b l e t w) (h : DataInv w) {k : DataKey}
    (hs : k.slot = some (l, e, t + 1)) : DropOK i w k := by
  refine .upload hs hw.owner fun c hc hck => ?_
  obtain ⟨hl, he, ht⟩ : c.lineage = l ∧ c.epoch = e ∧ c.txid = t + 1 := by
    simpa [hck, hs, eq_comm] using h.log.slot hc
  have := hw.above c hc hl (by omega)
  omega

end Writer

/-- What the writer is about to upload will outrank what is there, or cannot be
committed any more. -/
def Outranks (w : World) (l : Lineage) (e t : Nat) (k : DataKey) : Prop :=
  k = .snapshot l e t ∨ w.Dead k ∨ ∀ k', w.Has k' → k'.slot = some (l, e, t) → k' = k

theorem Outranks.trans (h : Outranks w l e t k) (hr : RefsInv env w) (hij : i ≠ j)
    (ho : w.Owner l e i) (htr : Trans gc assumed j w w') : Outranks w' l e t k := by
  rcases h with h | h | h
  · exact .inl h
  · exact .inr (.inl (htr.dead h))
  · exact .inr (.inr fun k' hk' hs => h k' (htr.has_of_owner hr hij ho hk' hs) hs)

theorem World.Dead.same (h : w.Dead k) (hs : w.SameWrites w')
    (hrefs : ∀ b, w'.refs.lookup b = w.refs.lookup b) : w'.Dead k := by
  simpa only [World.Dead, hs.version, hs.named, hrefs] using h

theorem World.Dead.of_slot {k' : DataKey} (h : w.Dead k) (hs : k'.slot = k.slot) : w.Dead k' :=
  fun l e t hk => h l e t (hs ▸ hk)

structure Ready (i : Nat) (b : BranchId) (l : Lineage) (e t : Nat) (k : DataKey) (w : World) :
    Prop where
  writer : Writer i b l e t w
  slot : k.slot = some (l, e, t + 1)
  outranks : Outranks w l e (t + 1) k

structure Uploaded (i : Nat) (b : BranchId) (l : Lineage) (e t : Nat) (k : DataKey) (w : World) :
    Prop where
  ready : Ready i b l e t k w
  there : w.Has k ∨ w.Dead k

section

variable {l : Lineage} {e t : Nat} {k : DataKey}

theorem Ready.trans (h : Ready i b l e t k w) (hr : RefsInv env w) (hij : i ≠ j)
    (htr : Trans gc assumed j w w') : Ready i b l e t k w' :=
  ⟨h.writer.trans hr hij htr, h.slot, h.outranks.trans hr hij h.writer.owner htr⟩

theorem Uploaded.trans (h : Uploaded i b l e t k w) (hr : RefsInv env w) (hij : i ≠ j)
    (htr : Trans gc assumed j w w') : Uploaded i b l e t k w' where
  ready := h.ready.trans hr hij htr
  there := h.there.elim (htr.has_or_dead hr hij h.ready.writer.owner · h.ready.slot)
    (.inr <| htr.dead ·)

theorem Ready.put (h : Ready i b l e t k w) {o : Obj} : Uploaded i b l e t k (w.putObj k o) := by
  have hs : w.SameWrites (w.putObj k o) := .of_log rfl
  refine ⟨⟨h.writer.same hs, h.slot, ?_⟩, .inl (World.has_putObj.mpr (.inl rfl))⟩
  rcases h.outranks with hk | hd | honly
  · exact .inl hk
  · exact .inr (.inl (hd.same hs fun _ => rfl))
  · refine .inr (.inr fun k' hk' hs' => ?_)
    exact (World.has_putObj.mp hk').elim id (honly k' · hs')

theorem World.Dead.not_current (hd : w.Dead k) (hr : RefsInv env w) {r : Ref}
    (hcur : w.refs.lookup b = some r) (hh : r.leaseHolder = some i)
    (hs : k.slot = some (r.lineage, r.epoch, r.headTXID + 1)) : False := by
  rcases hd _ _ _ hs with he | ⟨b', r', hv, hrl, hlt⟩ | ⟨-, hgone⟩
  · have := (hr.epoch (hr.current hcur)).2 (by simp [hh])
    omega
  · have := hr.latest hcur hv hrl
    omega
  · exact hgone b r hcur rfl

theorem Uploaded.headOK (h : Uploaded i b l e t k w) (hr : RefsInv env w) {r : Ref} {c : HeadCommit}
    (hcur : w.refs.lookup b = some r) (hours : c.ours r) (hck : c.key = k)
    (hcl : c.lineage = l) (hce : c.epoch = e) (hct : c.txid = t + 1) : HeadOK w c := by
  obtain ⟨hh, hre, hrl, hrt⟩ := HeadCommit.ours_iff.mp hours
  subst hck hcl hce
  have hslot : c.key.slot = some (c.lineage, c.epoch, c.txid) := hct ▸ h.ready.slot
  have halive : ¬ w.Dead c.key := fun hd =>
    hd.not_current hr hcur hh (by rw [hslot, hre, hrl, hrt])
  refine ⟨hslot, h.there.resolve_right halive, fun hk' hs' => ?_⟩
  rcases h.ready.outranks with hsnap | hd | honly
  · exact .inr (hct ▸ hsnap)
  · exact absurd hd halive
  · exact .inl (honly _ hk' (hct ▸ hs'))

end

/-! ## A session's memory -/

namespace Session

variable {s s' : Session}

def Up (s : Session) : Prop := 0 < s.rebaseGen ∨ s.engine = .stopped

def Started (s : Session) : Prop := s.engine = .starting ∨ s.Up

/-- The next flush is a snapshot, whatever the engine does before it. -/
def Forced (s : Session) : Prop := s.forceSnapshot = true ∧ s.Up

theorem rebaseline_gen (h : s.rebaseline = some s') :
    s'.rebaseGen = s.rebaseGen + 1 ∧ (0 < s.rebaseGen → s'.forceSnapshot = true) := by
  unfold rebaseline at h
  split at h
  · cases h
  split at h
  · cases h
  dsimp only at h
  split at h
  · rename_i hfirst
    cases h
    exact ⟨rfl, fun hpos => absurd hfirst.1 (by omega)⟩
  · cases h
    exact ⟨rfl, fun _ => rfl⟩

theorem recordApply_frame {txn : Txn} (h : s.recordApply txn = some s') :
    s'.rebaseGen = s.rebaseGen ∧ s'.forceSnapshot = s.forceSnapshot ∧ s'.engine = s.engine := by
  unfold recordApply at h
  split at h
  · cases h
  split at h
  · cases h
  · split at h
    · cases h
    · cases h
      exact ⟨rfl, rfl, rfl⟩

/-- What the engine does to the flags: nothing, it stops, or it rebases. -/
theorem captured_cases (h : Captured s s') :
    (s'.rebaseGen = s.rebaseGen ∧ s'.forceSnapshot = s.forceSnapshot ∧
      (s'.engine = s.engine ∨ s'.engine = .stopped)) ∨
    s'.rebaseGen = s.rebaseGen + 1 ∧ s.engine ≠ .stopped ∧
      (0 < s.rebaseGen → s'.forceSnapshot = true) := by
  cases h with
  | stop => exact .inl ⟨rfl, rfl, .inr rfl⟩
  | apply txn =>
    unfold onApply
    split
    · exact .inl ⟨rfl, rfl, .inl rfl⟩
    split
    · rename_i s' hs'
      obtain ⟨hg, hf, he⟩ := recordApply_frame hs'
      exact .inl ⟨hg, hf, .inl he⟩
    · exact .inl ⟨rfl, rfl, .inr rfl⟩
  | rebase img =>
    unfold onRebase
    split
    · exact .inl ⟨rfl, rfl, .inl rfl⟩
    rename_i hrun
    split
    · rename_i s' hs'
      obtain ⟨hg, hf⟩ := rebaseline_gen hs'
      exact .inr ⟨hg, hrun, hf⟩
    · exact .inl ⟨rfl, rfl, .inr rfl⟩

theorem Up.captured (hup : s.Up) (h : Captured s s') : s'.Up := by
  rcases captured_cases h with ⟨hg, -, he | he⟩ | ⟨hg, -, -⟩
  · exact hup.imp (hg ▸ ·) (he ▸ ·)
  · exact .inr he
  · exact .inl (by omega)

theorem Started.captured (hst : s.Started) (h : Captured s s') : s'.Started := by
  rcases hst with hst | hup
  · rcases captured_cases h with ⟨-, -, he | he⟩ | ⟨hg, -, -⟩
    · exact .inl (he ▸ hst)
    · exact .inr (.inr he)
    · exact .inr (.inl (by omega))
  · exact .inr (hup.captured h)

theorem Forced.captured (hf : s.Forced) (h : Captured s s') : s'.Forced := by
  refine ⟨?_, hf.2.captured h⟩
  rcases captured_cases h with ⟨-, hsame, -⟩ | ⟨-, hrun, hforce⟩
  · exact hsame.trans hf.1
  · exact hforce (hf.2.resolve_right hrun)

end Session

theorem World.sessions_setSession : (w.setSession i s).sessions i = s := by
  simp [World.setSession]

/-! ## A session between flushes -/

/-- The objects the session has written are of lineages of its branch. -/
def World.Homely (w : World) (i : Nat) (b : BranchId) : Prop :=
  ∀ k l e t, w.Has k → k.slot = some (l, e, t) → w.Owner l e i → ∃ r, w.Version b r ∧ r.lineage = l

structure SessionInv (i : Nat) (b : BranchId) (w : World) : Prop where
  homely : w.Homely i b
  forced : w.Leftover i → (w.sessions i).Forced
  started : (w.sessions i).Started

theorem World.Homely.trans (h : w.Homely i b) (hr : RefsInv env w) (hd : DataInv w) (hij : i ≠ j)
    (htr : Trans gc assumed j w w') : w'.Homely i b := by
  intro k l e t hk hs ho
  obtain ⟨ho, hk⟩ := htr.owned hr hd (.inl hij) ho hk hs
  obtain ⟨r, hv, hrl⟩ := h k l e t hk hs ho
  exact ⟨r, hv.mono htr.log, hrl⟩

theorem Trans.keeps_session {P : Session → Prop} (htr : Trans gc assumed j w w') (hij : i ≠ j)
    (hP : ∀ {s s'}, P s → Captured s s' → P s') (h : P (w.sessions i)) : P (w'.sessions i) := by
  rcases htr.session i hij with heq | hcap
  · exact heq ▸ h
  · exact hP h hcap

theorem SessionInv.trans (h : SessionInv i b w) (hr : RefsInv env w) (hd : DataInv w) (hij : i ≠ j)
    (htr : Trans gc assumed j w w') : SessionInv i b w' where
  homely := h.homely.trans hr hd hij htr
  forced hl := htr.keeps_session hij .captured (h.forced (htr.leftover hr hd (.inl hij) hl))
  started := htr.keeps_session hij .captured h.started

theorem SessionInv.of_unused (hu : w.Unused i) (hst : (w.sessions i).Started) : SessionInv i b w :=
  ⟨fun _ _ _ _ hk hs ho => absurd ho (hu _ _ _ _ hk hs), fun hl => absurd hl hu.not_leftover, hst⟩

/-! ## A session during a flush -/

/-- The session may have leftovers, and its next flush is a snapshot. -/
structure Busy (i : Nat) (b : BranchId) (w : World) : Prop where
  homely : w.Homely i b
  forced : (w.sessions i).Forced

theorem Busy.trans (h : Busy i b w) (hr : RefsInv env w) (hd : DataInv w) (hij : i ≠ j)
    (htr : Trans gc assumed j w w') : Busy i b w' :=
  ⟨h.homely.trans hr hd hij htr, htr.keeps_session hij .captured h.forced⟩

theorem Busy.sessionInv (h : Busy i b w) : SessionInv i b w :=
  ⟨h.homely, fun _ => h.forced, .inr h.forced.2⟩

structure Flushed (i : Nat) (b : BranchId) (w : World) : Prop where
  homely : w.Homely i b
  clean : ¬ w.Leftover i
  up : (w.sessions i).Up

theorem Flushed.trans (h : Flushed i b w) (hr : RefsInv env w) (hd : DataInv w) (hij : i ≠ j)
    (htr : Trans gc assumed j w w') : Flushed i b w' :=
  ⟨h.homely.trans hr hd hij htr, fun hl => h.clean (htr.leftover hr hd (.inl hij) hl),
    htr.keeps_session hij .captured h.up⟩

/-- A head move passes every object the session has left. -/
theorem Busy.commit (h : Busy i b w) (hr : RefsInv env w) (hd : DataInv w) {op : RefOp}
    {c : HeadCommit} {r' : Ref} (hc : op.head = some c)
    (happly : op.apply (w.refs.lookup b) = some (some r'))
    (htr : Trans gc assumed i w (w.land i b op (some r'))) :
    Flushed i b (w.land i b op (some r')) := by
  obtain ⟨r, hcur, hours, hrl', -, hrt', -⟩ := RefOp.head_frame hc happly
  obtain ⟨-, -, -, hrt⟩ := HeadCommit.ours_iff.mp hours
  have hver : (w.land i b op (some r')).Version b r' := World.version_land.mpr (.inl ⟨rfl, rfl⟩)
  refine ⟨fun k l e t hk hs ho => ?_, ?_, h.forced.2⟩
  · obtain ⟨ho, hk⟩ := htr.owned hr hd (.inr rfl) ho hk hs
    obtain ⟨r₁, hv, hrl⟩ := h.homely k l e t hk hs ho
    exact ⟨r₁, hv.mono htr.log, hrl⟩
  · rintro ⟨k, l, e, t, hk, hs, ho, halive⟩
    refine halive fun l' e' t' hs' => ?_
    obtain ⟨rfl, rfl, rfl⟩ : l = l' ∧ e = e' ∧ t = t' := by simpa using hs.symm.trans hs'
    obtain ⟨ho, hk⟩ := htr.owned hr hd (.inr rfl) ho hk hs
    obtain ⟨r₁, hv₁, hrl₁⟩ := h.homely k l e t hk hs ho
    have hn : w.Named l := ⟨b, r₁, hv₁, hrl₁⟩
    refine .inr ?_
    by_cases hl : r.lineage = l
    · -- The objects of the lineage are at most one above the head that was.
      obtain ⟨b₂, r₂, hv₂, hrl₂, hle⟩ := hd.obj.txid hn hk hs
      have := (hr.latest hcur hv₂ (hrl₂.trans hl.symm)).2
      exact .inl ⟨b, r', hver, hrl'.trans hl, .inr (by omega)⟩
    · -- The branch has left the lineage, and no other has it.
      refine .inr ⟨hn.mono htr.log, fun b₂ r₂ hcur₂ hrl₂ => ?_⟩
      rw [World.lookup_land] at hcur₂
      split at hcur₂
      · cases hcur₂
        exact hl (hrl'.symm.trans hrl₂)
      · rename_i hne
        exact hne (hr.branch (hr.current hcur₂) hv₁ (hrl₂.trans hrl₁.symm))

end Offshoot
