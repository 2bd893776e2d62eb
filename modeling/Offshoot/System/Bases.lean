import Offshoot.System.Effects

/-!
# Where base pointers lead

A fork reads the bases of its source from the store, one object at a time, and while
it does the source may be repointed and its objects may go.  Whatever it reads, the
pointer it stores leads to a lineage some ref has named, no further than a head of
it; and so do the pointers that refs carry.  This holds on both kinds of backend.

A thread that prepares a lineage removes objects of that lineage only.  It does so
when it knows that no ref names the lineage: it has not tried the write that would,
or has tried it and then read the ref as it was before.  That knowledge lasts if a
write that was given up does not land after all.
-/

namespace Offshoot

open Conc Maps

variable {env : Env} {assumed : World → World → Prop} {w w' : World} {i j : Nat}
  {b : BranchId}

/-- The pointer leads to a lineage some ref has named, no further than its head. -/
def World.Leads (w : World) (bp : BasePointer) : Prop :=
  ∃ b r, w.Version b r ∧ r.lineage = bp.lineage ∧ bp.txid ≤ r.headTXID

theorem World.Leads.mono {bp : BasePointer} (h : w.Leads bp) (hlog : w.log ⊆ w'.log) :
    w'.Leads bp := by
  obtain ⟨b, r, hv, hr⟩ := h
  exact ⟨b, r, hv.mono hlog, hr⟩

/-- Checkpoints lie at or below the head, and the base leads somewhere. -/
structure Sane (w : World) (r : Ref) : Prop where
  txids : ∀ t ∈ r.txids, t ≤ r.headTXID
  base : ∀ bp, r.base = some bp → w.Leads bp

theorem Sane.mono {r : Ref} (h : Sane w r) (hlog : w.log ⊆ w'.log) : Sane w' r :=
  ⟨h.txids, fun bp hbp => (h.base bp hbp).mono hlog⟩

/-- A write that gives a branch a lineage leaves a sane record. -/
def SaneWrite (w : World) (_ : Nat) (_ : BranchId) (before : Option Ref) (op : RefOp) : Prop :=
  ∀ l r, op.names = some l → op.apply before = some (some r) → Sane w r

/-- A base object holds a base pointer, and it leads somewhere. -/
def BaseOK (w : World) (k : DataKey) (o : Obj) : Prop :=
  ∀ l, k = .base l → ∃ bp, o = .base bp ∧ w.Leads bp

structure BaseInv (w : World) : Prop where
  ref : ∀ {b r}, w.Version b r → Sane w r
  sent : Vouched SaneWrite w
  obj : Laid BaseOK w

theorem BaseInv.empty : BaseInv .empty where
  ref h := by simp [World.empty, World.Version] at h
  sent _ _ _ _ _ h := by simp [World.empty] at h
  obj := ⟨fun h => by simp [World.empty] at h, fun h => by simp [World.empty] at h⟩

variable {op : RefOp}

theorem SaneWrite.apply {before : Option Ref} {r' : Ref} (h : SaneWrite w j b before op)
    (hbefore : ∀ r, before = some r → Sane w r)
    (happly : op.apply before = some (some r')) : Sane w r' := by
  rcases op.plain_or with hplain | ⟨c, hc⟩ | ⟨l, hl⟩
  · obtain ⟨r, rfl, -, hhead, htxids⟩ := RefOp.plain_frame hplain happly
    have hr := hbefore r rfl
    refine ⟨fun t ht => hhead ▸ hr.txids t (htxids t ht), fun bp hbp => hr.base bp ?_⟩
    rw [← RefOp.base_frame (Act.plain_names hplain) happly]
    exact hbp
  · obtain ⟨r, rfl, hours, -, -, hhead, htxids⟩ := RefOp.head_frame hc happly
    have hr := hbefore r rfl
    refine ⟨fun t ht => ?_, fun bp hbp => hr.base bp ?_⟩
    · rw [hhead]
      have htx := (HeadCommit.ours_iff.mp hours).2.2.2
      rcases htxids t ht with rfl | ht
      · exact le_rfl
      · exact (hr.txids t ht).trans (by omega)
    · rw [← RefOp.base_frame (RefOp.head_names hc) happly]
      exact hbp
  · exact h l r' hl happly

variable {a : Act}

theorem BaseInv.run (h : BaseInv w) (hr : RefsInv env w) (hok : a.ok env i w)
    (hv : a.vouched SaneWrite i w) (hl : a.lays BaseOK w) : BaseInv (a.run i w) := by
  have hlog : w.log ⊆ (a.run i w).log := a.log_run.subset
  refine ⟨fun {b r} hver => ?_, h.sent.run hr hok hv ?_, h.obj.run hl ?_⟩
  · rcases h.sent.effects hr hok hv (fun _ _ _ _ _ hl => by cases hl) with
      hun | ⟨j, b', op, after, hw, hsane, -⟩
    · exact (h.ref (hun.version.mp hver)).mono hlog
    · rcases hw.version.mp hver with ⟨rfl, rfl⟩ | hver
      · exact (hsane.apply (fun r hcur => h.ref (hr.current hcur)) hw.apply).mono hlog
      · exact (h.ref hver).mono hlog
  · exact fun _ hP l r hn happly => (hP l r hn happly).mono hlog
  · intro k o hP l hk
    obtain ⟨bp, ho, hbp⟩ := hP l hk
    exact ⟨bp, ho, hbp.mono hlog⟩

def baseLayer (env : Env) (assumed : World → World → Prop) : Layer (refSpec env) where
  inv := BaseInv
  may i w w' := ∃ a : Act, a.ok env i w ∧ (∀ l, a.names = some l → w.Draft i l) ∧
    a.vouched SaneWrite i w ∧ a.lays BaseOK w ∧ a.run i w = w'
  assumed := assumed
  fresh _ _ := True
  inv_may := by
    rintro i w w' hr h - ⟨a, hok, -, hv, hl, rfl⟩ - -
    exact h.run hr hok hv hl
  fresh_may _ _ _ _ _ _ _ _ := trivial

/-! ## Late writes -/

/-- No write that gives a branch the lineage, and was given up, lands. -/
def Punctual (l : Lineage) (w w' : World) : Prop :=
  ∀ j b op after, Wrote w w' j b op (some after) → op.names = some l →
    ∀ before, Pending.ref j b op before after ∉ w.pending

/-- The lineage has been read by a ref and is read by none. -/
def World.Lost (w : World) (l : Lineage) : Prop :=
  w.Named l ∧ ∀ b r, w.refs.lookup b = some r → r.lineage ≠ l

variable {l : Lineage}

theorem Act.names_of_op (hok : a.ok env i w) (hop : a.op = some (b, op))
    (hl : op.names = some l) : a.names = some l := by
  cases a with
  | write _ _ _ | grant _ _ _ _ =>
    obtain ⟨rfl, rfl⟩ : _ = b ∧ _ = op := by simpa [Act.op] using hop
    exact hl
  | effect b' e r =>
    obtain ⟨rfl, rfl⟩ : _ = b ∧ _ = op := by simpa [Act.op] using hop
    rw [Act.plain_names hok.2.2] at hl
    cases hl
  | _ => simp [Act.op] at hop

/-- A write gives a branch a lineage no ref has read, or makes a later record of the
lineage it has. -/
theorem RefsInv.follows_wrote (h : RefsInv env w) (hok : a.ok env i w)
    (hname : ∀ l, a.names = some l → w.Draft i l) {r' : Ref}
    (hw : Wrote w (a.run i w) j b op (some r')) (hsrc : a.Source i w j b op (some r')) :
    op.names = some r'.lineage ∧ ¬ w.Named r'.lineage ∨
      ∃ r, w.refs.lookup b = some r ∧ op.names = none ∧ r.Follows r' := by
  obtain ⟨l, hl, rfl, -, -⟩ | hr := RefOp.apply_cases hw.apply
  · refine .inl ⟨hl, ?_⟩
    rcases hsrc with ⟨rfl, hop⟩ | ⟨r, -, hp⟩ | ⟨rfl, -⟩
    · exact (hname _ (Act.names_of_op hok hop hl)).2.1
    · exact (h.sent_names hp hl).2
    · cases hl
  · exact .inr hr

theorem World.Lost.run (hl : w.Lost l) (h : RefsInv env w) (hok : a.ok env j w)
    (hname : ∀ l, a.names = some l → w.Draft j l) : (a.run j w).Lost l := by
  refine ⟨hl.1.mono a.log_run.subset, fun b r hcur hrl => ?_⟩
  rcases h.effects hok with hun | ⟨j', b', op, after, hw, hsrc⟩
  · exact hl.2 b r (hun.lookup b ▸ hcur) hrl
  rw [hw.lookup] at hcur
  split at hcur
  · subst hcur
    rcases h.follows_wrote hok hname hw hsrc with ⟨-, hnot⟩ | ⟨r₀, hr₀, -, hf⟩
    · exact hnot (hrl ▸ hl.1)
    · exact hl.2 _ r₀ hr₀ (hf.lineage.symm.trans hrl)
  · exact hl.2 b r hcur hrl

/-- Given up writes apart, only its minter names a lineage. -/
theorem RefsInv.not_named_run (h : RefsInv env w) (hok : a.ok env j w)
    (hname : ∀ l, a.names = some l → w.Draft j l) (hm : w.Minted i l) (hn : ¬ w.Named l)
    (hmine : j = i → a.names ≠ some l) (hp : Punctual l w (a.run j w)) : ¬ (a.run j w).Named l := by
  rintro ⟨b, r, hver, rfl⟩
  rcases h.effects hok with hun | ⟨j', b', op, after, hw, hsrc⟩
  · exact hn ⟨b, r, hun.version.mp hver, rfl⟩
  rcases hw.version.mp hver with ⟨rfl, rfl⟩ | hver
  · rcases h.follows_wrote hok hname hw hsrc with ⟨hl, -⟩ | ⟨r₀, hr₀, -, hf⟩
    · rcases hsrc with ⟨rfl, hop⟩ | ⟨r', hr', hpend⟩ | ⟨rfl, -⟩
      · have hnames := Act.names_of_op hok hop hl
        exact hmine (h.minted_unique (hname _ hnames).1 hm) hnames
      · cases hr'
        exact hp j' b op r hw hl _ hpend
      · cases hl
    · exact hn ⟨b, r₀, h.current hr₀, hf.lineage.symm⟩
  · exact hn ⟨b, r, hver, rfl⟩

end Offshoot
