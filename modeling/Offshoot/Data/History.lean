import Offshoot.System.Refs

/-!
# What the history commits

A head move commits one object: the one its writer uploaded for the txid.  A write
that gives a branch a lineage of its own commits one snapshot per txid it names,
and one that gives it a shared lineage commits nothing but a base pointer.  From
these records alone a path leads from every txid a ref names down to a snapshot.

The history only grows, so a path once there stays; and a txid of a lineage is
committed once, so it is the only one.
-/

namespace Offshoot

variable {l : Lineage} {ks : List DataKey}

open Conc Maps

structure Commit where
  lineage : Lineage
  txid : Nat
  epoch : Nat
  key : DataKey
  deriving DecidableEq

def HeadCommit.commit (c : HeadCommit) : Commit := ⟨c.lineage, c.txid, c.epoch, c.key⟩

def Commit.copied (l : Lineage) (t : Nat) : Commit := ⟨l, t, 1, .snapshot l 1 t⟩

inductive Event.Commits : Event → Commit → Prop
  | head {i b op before r c} : op.head = some c → Commits (.wrote i b op before (some r)) c.commit
  | copied {i b op before r l t} : op.names = some l → r.base = none → t ∈ r.txids →
      Commits (.wrote i b op before (some r)) (.copied l t)

namespace RefOp

variable {op : RefOp}

theorem apply_some {before after : Option Ref} (h : op.apply before = some after)
    (hop : op ≠ .delete) : ∃ r', after = some r' := by
  cases op with
  | create r =>
    cases before with
    | some _ => cases h
    | none =>
      simp only [apply] at h
      split at h
      · exact ⟨_, (Option.some.inj h).symm⟩
      · cases h
  | edit e =>
    cases before with
    | none => cases h
    | some r =>
      obtain ⟨r', -, rfl⟩ := RefOp.edit_apply h
      exact ⟨_, rfl⟩
  | delete => exact absurd rfl hop

end RefOp

variable {c : Commit}

namespace World

def Committed (w : World) (c : Commit) : Prop := ∃ e ∈ w.log, e.Commits c

def BaseOf (w : World) (l : Lineage) (bp : BasePointer) : Prop :=
  ∃ i b op before r, Event.wrote i b op before (some r) ∈ w.log ∧ op.names = some l ∧
    r.base = some bp

variable {w w' : World}

theorem Committed.mono (h : w.Committed c) (hlog : w.log ⊆ w'.log) : w'.Committed c := by
  obtain ⟨e, he, hc⟩ := h
  exact ⟨e, hlog he, hc⟩

theorem BaseOf.mono {bp : BasePointer} (h : w.BaseOf l bp) (hlog : w.log ⊆ w'.log) :
    w'.BaseOf l bp := by
  obtain ⟨i, b, op, before, r, hm, hn, hb⟩ := h
  exact ⟨i, b, op, before, r, hlog hm, hn, hb⟩

end World

/-- The keys read to resolve a lineage at a txid, in order: one object per txid from
a snapshot on, and the base object of each lineage passed through. -/
inductive Path (w : World) : Lineage → Nat → List DataKey → Prop
  | snapshot {l t e} : w.Committed ⟨l, t, e, .snapshot l e t⟩ → Path w l t [.snapshot l e t]
  | segment {l t e ks} : w.Committed ⟨l, t + 1, e, .segment l e (t + 1) (t + 1)⟩ →
      Path w l t ks → Path w l (t + 1) (ks ++ [.segment l e (t + 1) (t + 1)])
  | through {l t bp ks} : w.BaseOf l bp → t ≤ bp.txid → Path w bp.lineage t ks →
      Path w l t (.base l :: ks)

theorem Path.mono {t : Nat} (h : Path w l t ks) (hlog : w.log ⊆ w'.log) : Path w' l t ks := by
  induction h with
  | snapshot hc => exact .snapshot (hc.mono hlog)
  | segment hc _ ih => exact .segment (hc.mono hlog) ih
  | through hb hle _ ih => exact .through (hb.mono hlog) hle ih

/-- The same writes are in the histories of the two worlds. -/
def World.SameWrites (w w' : World) : Prop := ∀ i b op before after,
  Event.wrote i b op before after ∈ w'.log ↔ Event.wrote i b op before after ∈ w.log

namespace World.SameWrites

variable {w w' : World}

theorem of_log (h : w'.log = w.log) : w.SameWrites w' := fun _ _ _ _ _ => by rw [h]

theorem symm (h : w.SameWrites w') : w'.SameWrites w := fun _ _ _ _ _ => (h _ _ _ _ _).symm

theorem note {e : Event} (he : ∀ i b op before after, e ≠ .wrote i b op before after) :
    w.SameWrites (w.note e) := by
  intro i b op before after
  simp only [World.note, List.mem_cons, or_iff_right_iff_imp]
  exact fun h => absurd h.symm (he _ _ _ _ _)

section

variable (h : w.SameWrites w')

include h

theorem version : w'.Version = w.Version := by
  funext b r
  simp only [World.Version, h _ _ _ _ _]

theorem named : w'.Named = w.Named := by
  funext l
  simp only [World.Named, h.version]

theorem owner : w'.Owner = w.Owner := by
  funext l e i
  simp only [World.Owner, h.version]

theorem committed : w'.Committed = w.Committed := by
  funext c
  refine propext ⟨?_, ?_⟩ <;> rintro ⟨e, he, hc⟩ <;> refine ⟨e, ?_, hc⟩ <;>
    cases hc <;> first | exact (h _ _ _ _ _).mp he | exact (h _ _ _ _ _).mpr he

theorem baseOf : w'.BaseOf = w.BaseOf := by
  funext l bp
  simp only [World.BaseOf, h _ _ _ _ _]

theorem path_imp {t : Nat} (hp : Path w' l t ks) : Path w l t ks := by
  induction hp with
  | snapshot hc => exact .snapshot (h.committed ▸ hc)
  | segment hc _ ih => exact .segment (h.committed ▸ hc) ih
  | through hb hle _ ih => exact .through (h.baseOf ▸ hb) hle ih

theorem path {t : Nat} : Path w' l t ks ↔ Path w l t ks := ⟨h.path_imp, h.symm.path_imp⟩

end

end World.SameWrites

/-- What the history says about commits. -/
structure LogInv (w : World) : Prop where
  slot : ∀ {c}, w.Committed c → c.key.slot = some (c.lineage, c.epoch, c.txid)
  unique : ∀ {c c'}, w.Committed c → w.Committed c' → c.lineage = c'.lineage →
    c.txid = c'.txid → c = c'
  /-- A commit is at or below some head of its lineage. -/
  head : ∀ {c}, w.Committed c → ∃ b r, w.Version b r ∧ r.lineage = c.lineage ∧ c.txid ≤ r.headTXID
  /-- A head that was passed was passed by one. -/
  next : ∀ {b b' r r'}, w.Version b r → w.Version b' r' → r'.lineage = r.lineage →
    r.headTXID < r'.headTXID → ∃ c, w.Committed c ∧ c.lineage = r.lineage ∧ c.txid = r.headTXID + 1
  epoch : ∀ {b r c}, w.Version b r → w.Committed c → c.lineage = r.lineage →
    r.headTXID < c.txid → r.epoch ≤ c.epoch
  base_unique : ∀ {l bp bp'}, w.BaseOf l bp → w.BaseOf l bp' → bp = bp'
  base_head : ∀ {l bp b r}, w.BaseOf l bp → w.Version b r → r.lineage = l → bp.txid ≤ r.headTXID
  base_commit : ∀ {l bp c}, w.BaseOf l bp → w.Committed c → c.lineage = l → bp.txid < c.txid
  txids : ∀ {b r t}, w.Version b r → t ∈ r.txids → t ≤ r.headTXID
  path : ∀ {b r t}, w.Version b r → t ∈ r.txids → ∃ ks, Path w r.lineage t ks

namespace LogInv

theorem empty : LogInv .empty where
  slot h := by simp [World.Committed, World.empty] at h
  unique h := by simp [World.Committed, World.empty] at h
  head h := by simp [World.Committed, World.empty] at h
  next h := by simp [World.Version, World.empty] at h
  epoch h := by simp [World.Version, World.empty] at h
  base_unique h := by simp [World.BaseOf, World.empty] at h
  base_head h := by simp [World.BaseOf, World.empty] at h
  base_commit h := by simp [World.BaseOf, World.empty] at h
  txids h := by simp [World.Version, World.empty] at h
  path h := by simp [World.Version, World.empty] at h

variable {w w' : World}

theorem path_commit (h : LogInv w) (hc : w.Committed c) (hp : Path w c.lineage c.txid ks) :
    ks = [c.key] ∨ ∃ t ks', c.txid = t + 1 ∧ Path w c.lineage t ks' ∧ ks = ks' ++ [c.key] := by
  obtain ⟨l, t, e, k⟩ := c
  cases hp with
  | snapshot hc' => exact .inl (congrArg (fun c : Commit => [c.key]) (h.unique hc' hc rfl rfl))
  | segment hc' hp =>
    exact .inr ⟨_, _, rfl, hp, congrArg (fun c : Commit => _ ++ [c.key]) (h.unique hc' hc rfl rfl)⟩
  | through hb hle _ => exact absurd (h.base_commit hb hc rfl) (by simpa using hle)

theorem path_unique (h : LogInv w) {t : Nat} {ks' : List DataKey} (hp : Path w l t ks)
    (hp' : Path w l t ks') : ks = ks' := by
  induction hp generalizing ks' with
  | @snapshot l t e hc =>
    cases hp' with
    | snapshot hc' => exact congrArg (fun c : Commit => [c.key]) (h.unique hc hc' rfl rfl)
    | segment hc' _ => exact absurd (congrArg (·.key) (h.unique hc hc' rfl rfl)) (by simp)
    | through hb hle _ => exact absurd (h.base_commit hb hc rfl) (by simpa using hle)
  | @segment l t e ks hc _ ih =>
    cases hp' with
    | snapshot hc' => exact absurd (congrArg (·.key) (h.unique hc hc' rfl rfl)) (by simp)
    | @segment _ _ e' _ hc' hp' =>
      have hkey : DataKey.segment l e (t + 1) (t + 1) = .segment l e' (t + 1) (t + 1) :=
        congrArg Commit.key (h.unique hc hc' rfl rfl)
      rw [ih hp', hkey]
    | through hb hle _ => exact absurd (h.base_commit hb hc rfl) (by simpa using hle)
  | @through l t bp ks hb hle _ ih =>
    cases hp' with
    | snapshot hc' => exact absurd (h.base_commit hb hc' rfl) (by simpa using hle)
    | segment hc' _ => exact absurd (h.base_commit hb hc' rfl) (by simpa using hle)
    | through hb' _ hp' =>
      obtain rfl := h.base_unique hb hb'
      rw [ih hp']

theorem next_committed (h : LogInv w) {b : BranchId} {r : Ref} (hv : w.Version b r)
    (hc : w.Committed c) (hl : c.lineage = r.lineage) (hlt : r.headTXID < c.txid) :
    ∃ c', w.Committed c' ∧ c'.lineage = r.lineage ∧ c'.txid = r.headTXID + 1 := by
  obtain ⟨b', r', hv', hl', hle⟩ := h.head hc
  exact h.next hv hv' (hl'.trans hl) (by omega)

theorem of_same (h : LogInv w) (hs : w.SameWrites w') : LogInv w' := by
  constructor
  case slot => simpa only [hs.committed] using @h.slot
  case unique => simpa only [hs.committed] using @h.unique
  case head => simpa only [hs.committed, hs.version] using @h.head
  case next => simpa only [hs.committed, hs.version] using @h.next
  case epoch => simpa only [hs.committed, hs.version] using @h.epoch
  case base_unique => simpa only [hs.baseOf] using @h.base_unique
  case base_head => simpa only [hs.baseOf, hs.version] using @h.base_head
  case base_commit => simpa only [hs.baseOf, hs.committed] using @h.base_commit
  case txids => simpa only [hs.version] using @h.txids
  case path =>
    intro b r t hv ht
    obtain ⟨ks, hp⟩ := h.path (hs.version ▸ hv) ht
    exact ⟨ks, hs.path.mpr hp⟩

end LogInv

/-! ## A ref write -/

section Land

variable {env : Env} {w : World} {i : Nat} {b : BranchId} {op : RefOp} {after : Option Ref}

theorem World.committed_land : (w.land i b op after).Committed c ↔
    w.Committed c ∨ ∃ r, after = some r ∧ ((∃ h, op.head = some h ∧ c = h.commit) ∨
      ∃ l t, op.names = some l ∧ r.base = none ∧ t ∈ r.txids ∧ c = .copied l t) := by
  simp only [World.Committed, World.land_log, List.mem_cons]
  constructor
  · rintro ⟨e, rfl | he, hc⟩
    · cases hc with
      | head hh => exact .inr ⟨_, rfl, .inl ⟨_, hh, rfl⟩⟩
      | copied hn hb ht => exact .inr ⟨_, rfl, .inr ⟨_, _, hn, hb, ht, rfl⟩⟩
    · exact .inl ⟨e, he, hc⟩
  · rintro (⟨e, he, hc⟩ | ⟨r, rfl, ⟨h, hh, rfl⟩ | ⟨l, t, hn, hb, ht, rfl⟩⟩)
    · exact ⟨e, .inr he, hc⟩
    · exact ⟨_, .inl rfl, .head hh⟩
    · exact ⟨_, .inl rfl, .copied hn hb ht⟩

theorem World.baseOf_land {bp : BasePointer} : (w.land i b op after).BaseOf l bp ↔
    w.BaseOf l bp ∨ ∃ r, after = some r ∧ op.names = some l ∧ r.base = some bp := by
  simp only [World.BaseOf, World.land_log, List.mem_cons]
  constructor
  · rintro ⟨j, b', op', before, r, heq | hm, hn, hb⟩
    · cases heq
      exact .inr ⟨r, rfl, hn, hb⟩
    · exact .inl ⟨j, b', op', before, r, hm, hn, hb⟩
  · rintro (⟨j, b', op', before, r, hm, hn, hb⟩ | ⟨r, rfl, hn, hb⟩)
    · exact ⟨j, b', op', before, r, .inr hm, hn, hb⟩
    · exact ⟨i, b, op, _, r, .inl rfl, hn, hb⟩

theorem World.log_subset_land : w.log ⊆ (w.land i b op after).log := List.subset_cons_self _ _

variable (h : LogInv w) (hr : RefsInv env w)

include h in
theorem LogInv.named_of_committed (hc : w.Committed c) : w.Named c.lineage := by
  obtain ⟨b, r, hv, hl, -⟩ := h.head hc
  exact ⟨b, r, hv, hl⟩

include hr in
theorem RefsInv.named_of_baseOf {bp : BasePointer} (hb : w.BaseOf l bp) : w.Named l := by
  obtain ⟨j, b, op, before, r, hm, hn, -⟩ := hb
  obtain ⟨l', hl', rfl, -, -⟩ | ⟨_, -, hnone, -⟩ := RefOp.apply_cases (hr.wrote hm).1
  · cases hn.symm.trans hl'
    exact ⟨b, r, ⟨j, op, before, hm⟩, rfl⟩
  · rw [hnone] at hn
    cases hn

include h hr in
theorem LogInv.le_current {r : Ref} (hcur : w.refs.lookup b = some r) (hc : w.Committed c)
    (hl : c.lineage = r.lineage) : c.txid ≤ r.headTXID := by
  obtain ⟨b', r', hv, hl', hle⟩ := h.head hc
  exact hle.trans (hr.latest hcur hv (hl'.trans hl)).2

include h hr in
theorem LogInv.land_plain (happly : op.apply (w.refs.lookup b) = some after) (hplain : op.plain) :
    LogInv (w.land i b op after) := by
  have hhead : op.head = none := RefOp.plain_head hplain
  have hcommit : ∀ c, (w.land i b op after).Committed c ↔ w.Committed c := by
    simp [World.committed_land, hhead, Act.plain_names hplain]
  have hbase : ∀ l bp, (w.land i b op after).BaseOf l bp ↔ w.BaseOf l bp := by
    simp [World.baseOf_land, Act.plain_names hplain]
  -- A new record has the lineage and the head of the current one, and its txids.
  have hnew : ∀ {b' r'}, (w.land i b op after).Version b' r' → w.Version b' r' ∨
      ∃ r, w.refs.lookup b = some r ∧ r'.lineage = r.lineage ∧ r'.headTXID = r.headTXID ∧
        ∀ t ∈ r'.txids, t ∈ r.txids := by
    intro b' r' hv
    rcases World.version_land.mp hv with ⟨rfl, rfl⟩ | hv
    · exact .inr (RefOp.plain_frame hplain happly)
    · exact .inl hv
  have hmono : ∀ {l t ks}, Path w l t ks → Path (w.land i b op after) l t ks :=
    fun hp => hp.mono World.log_subset_land
  constructor
  case slot => simpa only [hcommit] using @h.slot
  case unique => simpa only [hcommit] using @h.unique
  case head =>
    intro c hc
    obtain ⟨b', r, hv, hl⟩ := h.head ((hcommit c).mp hc)
    exact ⟨b', r, hv.mono World.log_subset_land, hl⟩
  case next =>
    intro b₁ b₂ r₁ r₂ hv₁ hv₂ hl hlt
    simp only [hcommit]
    rcases hnew hv₁ with hv₁ | ⟨r, hcur, hl₁, hh₁, -⟩
    · rcases hnew hv₂ with hv₂ | ⟨r, hcur, hl₂, hh₂, -⟩
      · exact h.next hv₁ hv₂ hl hlt
      · exact h.next hv₁ (hr.current hcur) (hl₂.symm.trans hl) (by omega)
    · rcases hnew hv₂ with hv₂ | ⟨r', hcur', hl₂, hh₂, -⟩
      · have := (hr.latest hcur hv₂ (hl.trans hl₁)).2
        omega
      · cases hcur.symm.trans hcur'
        omega
  case epoch =>
    intro b' r' c hv hc hl hlt
    simp only [hcommit] at hc
    rcases hnew hv with hv | ⟨r, hcur, hl', hh, -⟩
    · exact h.epoch hv hc hl hlt
    · exact absurd (h.le_current hr hcur hc (hl.trans hl')) (by omega)
  case base_unique => simpa only [hbase] using @h.base_unique
  case base_head =>
    intro l bp b' r' hb hv hl
    rcases hnew hv with hv | ⟨r, hcur, hl', hh, -⟩
    · exact h.base_head ((hbase l bp).mp hb) hv hl
    · have := h.base_head ((hbase l bp).mp hb) (hr.current hcur) (hl'.symm.trans hl)
      omega
  case base_commit => simpa only [hbase, hcommit] using @h.base_commit
  case txids =>
    intro b' r' t hv ht
    rcases hnew hv with hv | ⟨r, hcur, hl', hh, hts⟩
    · exact h.txids hv ht
    · have := h.txids (hr.current hcur) (hts t ht)
      omega
  case path =>
    intro b' r' t hv ht
    rcases hnew hv with hv | ⟨r, hcur, hl', -, hts⟩
    · obtain ⟨ks, hp⟩ := h.path hv ht
      exact ⟨ks, hmono hp⟩
    · obtain ⟨ks, hp⟩ := h.path (hr.current hcur) (hts t ht)
      exact ⟨ks, hl' ▸ hmono hp⟩

include h hr in
theorem LogInv.land_head {c : HeadCommit} (hc : op.head = some c)
    (happly : op.apply (w.refs.lookup b) = some after)
    (hslot : c.key.slot = some (c.lineage, c.epoch, c.txid)) : LogInv (w.land i b op after) := by
  obtain ⟨r', rfl⟩ : ∃ r', after = some r' := RefOp.apply_some happly (by rintro rfl; cases hc)
  obtain ⟨r, hcur, hours, hl', he', hh', hts⟩ := RefOp.head_frame hc happly
  obtain ⟨-, hre, hrl, hrh⟩ := HeadCommit.ours_iff.mp hours
  have hnames : op.names = none := RefOp.head_names hc
  have hcommit : ∀ d, (w.land i b op (some r')).Committed d ↔ w.Committed d ∨ d = c.commit := by
    simp [World.committed_land, hc, hnames]
  have hbase : ∀ l bp, (w.land i b op (some r')).BaseOf l bp ↔ w.BaseOf l bp := by
    simp [World.baseOf_land, hnames]
  have hversion : ∀ b' r'', (w.land i b op (some r')).Version b' r'' ↔
      b' = b ∧ r'' = r' ∨ w.Version b' r'' := by
    simp [World.version_land, eq_comm]
  have hmono : ∀ {l t ks}, Path w l t ks → Path (w.land i b op (some r')) l t ks :=
    fun hp => hp.mono World.log_subset_land
  have hle : ∀ {d}, w.Committed d → d.lineage = r.lineage → d.txid ≤ r.headTXID :=
    fun hd hl => h.le_current hr hcur hd hl
  -- The new head is above every commit and every head of the lineage.
  have hold : ∀ {b' r''}, w.Version b' r'' → r''.lineage = r.lineage →
      r''.headTXID ≤ r.headTXID ∧ r''.epoch ≤ r.epoch := fun hv hl =>
    ⟨(hr.latest hcur hv hl).2, (hr.latest hcur hv hl).1⟩
  constructor
  case slot =>
    intro d hd
    rcases (hcommit d).mp hd with hd | rfl
    · exact h.slot hd
    · exact hslot
  case unique =>
    intro d d' hd hd' hl ht
    rcases (hcommit d).mp hd with hd | rfl <;> rcases (hcommit d').mp hd' with hd' | rfl
    · exact h.unique hd hd' hl ht
    · have := hle hd (hl.trans hrl.symm)
      simp only [HeadCommit.commit] at ht
      omega
    · have := hle hd' (hl.symm.trans hrl.symm)
      simp only [HeadCommit.commit] at ht
      omega
    · rfl
  case head =>
    intro d hd
    rcases (hcommit d).mp hd with hd | rfl
    · obtain ⟨b', r'', hv, hl⟩ := h.head hd
      exact ⟨b', r'', hv.mono World.log_subset_land, hl⟩
    · exact ⟨b, r', (hversion _ _).mpr (.inl ⟨rfl, rfl⟩), hl'.trans hrl, hh'.ge⟩
  case next =>
    intro b₁ b₂ r₁ r₂ hv₁ hv₂ hl hlt
    rcases (hversion _ _).mp hv₁ with ⟨rfl, rfl⟩ | hw₁
    · rcases (hversion _ _).mp hv₂ with ⟨rfl, rfl⟩ | hw₂
      · exact absurd hlt (lt_irrefl _)
      · have := (hold hw₂ (hl.trans hl')).1
        omega
    · have hlift : (∃ d, w.Committed d ∧ d.lineage = r₁.lineage ∧ d.txid = r₁.headTXID + 1) →
          ∃ d, (w.land i b op (some r')).Committed d ∧ d.lineage = r₁.lineage ∧
            d.txid = r₁.headTXID + 1 :=
        Exists.imp fun d hd => ⟨(hcommit d).mpr (.inl hd.1), hd.2⟩
      rcases (hversion _ _).mp hv₂ with ⟨rfl, rfl⟩ | hw₂
      · rcases lt_or_ge r₁.headTXID r.headTXID with hlt' | hge
        · exact hlift (h.next hw₁ (hr.current hcur) (hl'.symm.trans hl) hlt')
        · refine ⟨c.commit, (hcommit _).mpr (.inr rfl), ?_, ?_⟩
          · exact (hrl.symm.trans hl'.symm).trans hl
          · simp only [HeadCommit.commit]
            omega
      · exact hlift (h.next hw₁ hw₂ hl hlt)
  case epoch =>
    intro b' r'' d hv hd hl hlt
    rcases (hcommit d).mp hd with hd' | rfl
    · rcases (hversion _ _).mp hv with ⟨rfl, rfl⟩ | hv
      · have := hle hd' (hl.trans hl')
        omega
      · exact h.epoch hv hd' hl hlt
    · rcases (hversion _ _).mp hv with ⟨rfl, rfl⟩ | hv
      · simp only [HeadCommit.commit] at hlt
        omega
      · have := (hold hv (hl.symm.trans hrl.symm)).2
        simp only [HeadCommit.commit]
        omega
  case base_unique => simpa only [hbase] using @h.base_unique
  case base_head =>
    intro l bp b' r'' hb hv hl
    rcases (hversion _ _).mp hv with ⟨rfl, rfl⟩ | hv
    · have := h.base_head ((hbase l bp).mp hb) (hr.current hcur) (hl'.symm.trans hl)
      omega
    · exact h.base_head ((hbase l bp).mp hb) hv hl
  case base_commit =>
    intro l bp d hb hd hl
    rcases (hcommit d).mp hd with hd | rfl
    · exact h.base_commit ((hbase l bp).mp hb) hd hl
    · have := h.base_head ((hbase l bp).mp hb) (hr.current hcur) (hrl.trans hl)
      simp only [HeadCommit.commit]
      omega
  case txids =>
    intro b' r'' t hv ht
    rcases (hversion _ _).mp hv with ⟨rfl, rfl⟩ | hv
    · rcases hts t ht with rfl | ht
      · exact hh'.ge
      · have := h.txids (hr.current hcur) ht
        omega
    · exact h.txids hv ht
  case path =>
    intro b' r'' t hv ht
    rcases (hversion _ _).mp hv with ⟨rfl, rfl⟩ | hv
    · rw [hl']
      rcases hts t ht with rfl | ht
      · -- The new head: a snapshot stands alone, a segment extends the old head's path.
        have hnew : (w.land i b' op (some r'')).Committed c.commit := (hcommit _).mpr (.inr rfl)
        rw [HeadCommit.commit, ← hrl, ← hrh] at hnew
        rw [← hrl, ← hrh] at hslot
        rw [← hrh]
        cases hkey : c.key with
        | snapshot l e t =>
          obtain ⟨rfl, rfl, rfl⟩ : l = r.lineage ∧ e = c.epoch ∧ t = r.headTXID + 1 := by
            simpa [hkey, DataKey.slot] using hslot
          exact ⟨_, .snapshot (hkey ▸ hnew)⟩
        | segment l e lo hi =>
          obtain ⟨hlo, rfl, rfl, rfl⟩ : lo = hi ∧ l = r.lineage ∧ e = c.epoch ∧
              hi = r.headTXID + 1 := by
            simpa [hkey, DataKey.slot] using hslot
          subst hlo
          obtain ⟨ks, hp⟩ := h.path (hr.current hcur) (Ref.mem_txids.mpr (.inl rfl))
          exact ⟨_, .segment (hkey ▸ hnew) (hmono hp)⟩
        | base l => simp [hkey, DataKey.slot] at hslot
      · obtain ⟨ks, hp⟩ := h.path (hr.current hcur) ht
        exact ⟨ks, hmono hp⟩
    · obtain ⟨ks, hp⟩ := h.path hv ht
      exact ⟨ks, hmono hp⟩

/-- What a write that gives a branch the lineage `l` must have prepared: its txids lie
at or below its head and, if it shares a base, below the fork point, where the base
has a path. -/
def Prepared (w : World) (r : Ref) : Prop :=
  (∀ t ∈ r.txids, t ≤ r.headTXID) ∧
    ∀ bp, r.base = some bp → bp.txid = r.headTXID ∧ ∀ t ∈ r.txids, ∃ ks, Path w bp.lineage t ks

include h hr in
theorem LogInv.land_names (hl : op.names = some l) (hun : ¬ w.Named l)
    (happly : op.apply (w.refs.lookup b) = some after)
    (hprep : ∀ r', after = some r' → Prepared w r') : LogInv (w.land i b op after) := by
  have hhead : op.head = none := RefOp.names_head hl
  obtain ⟨r', rfl⟩ : ∃ r', after = some r' := RefOp.apply_some happly (by rintro rfl; cases hl)
  obtain ⟨hts, hbp⟩ := hprep r' rfl
  have hl' : r'.lineage = l := by
    obtain ⟨l', hn, rfl, -, -⟩ | ⟨_, -, hn, -⟩ := RefOp.apply_cases happly
    · exact Option.some.inj (hn.symm.trans hl)
    · rw [hl] at hn
      cases hn
  have hcommit : ∀ d, (w.land i b op (some r')).Committed d ↔
      w.Committed d ∨ r'.base = none ∧ ∃ t ∈ r'.txids, d = .copied l t := by
    intro d
    simp only [World.committed_land, hhead, hl]
    simp
  have hbase : ∀ l' bp, (w.land i b op (some r')).BaseOf l' bp ↔
      w.BaseOf l' bp ∨ l' = l ∧ r'.base = some bp := by
    simp [World.baseOf_land, hl, eq_comm]
  have hversion : ∀ b' r'', (w.land i b op (some r')).Version b' r'' ↔
      b' = b ∧ r'' = r' ∨ w.Version b' r'' := by
    simp [World.version_land, eq_comm]
  have hmono : ∀ {l t ks}, Path w l t ks → Path (w.land i b op (some r')) l t ks :=
    fun hp => hp.mono World.log_subset_land
  -- The lineage is new: nothing before this write mentions it.
  have hnov : ∀ {b' r''}, w.Version b' r'' → r''.lineage ≠ l := fun hv he => hun ⟨_, _, hv, he⟩
  have hnoc : ∀ {d}, w.Committed d → d.lineage ≠ l := fun hd he =>
    hun (he ▸ h.named_of_committed hd)
  have hnob : ∀ {bp}, ¬ w.BaseOf l bp := fun hb => hun (hr.named_of_baseOf hb)
  constructor
  case slot =>
    intro d hd
    rcases (hcommit d).mp hd with hd | ⟨-, t, -, rfl⟩
    · exact h.slot hd
    · rfl
  case unique =>
    intro d d' hd hd' hdl ht
    rcases (hcommit d).mp hd with hd | ⟨-, t, -, rfl⟩ <;>
      rcases (hcommit d').mp hd' with hd' | ⟨-, t', -, rfl⟩
    · exact h.unique hd hd' hdl ht
    · exact absurd hdl (hnoc hd)
    · exact absurd hdl.symm (hnoc hd')
    · exact congrArg (Commit.copied l) ht
  case head =>
    intro d hd
    rcases (hcommit d).mp hd with hd | ⟨-, t, ht, rfl⟩
    · obtain ⟨b', r'', hv, hx⟩ := h.head hd
      exact ⟨b', r'', hv.mono World.log_subset_land, hx⟩
    · exact ⟨b, r', (hversion _ _).mpr (.inl ⟨rfl, rfl⟩), hl', hts t ht⟩
  case next =>
    intro b₁ b₂ r₁ r₂ hv₁ hv₂ hl₁₂ hlt
    rcases (hversion _ _).mp hv₁ with ⟨rfl, rfl⟩ | hw₁ <;>
      rcases (hversion _ _).mp hv₂ with ⟨rfl, rfl⟩ | hw₂
    · exact absurd hlt (lt_irrefl _)
    · exact absurd (hl₁₂.trans hl') (hnov hw₂)
    · exact absurd (hl₁₂.symm.trans hl') (hnov hw₁)
    · obtain ⟨d, hd, hx⟩ := h.next hw₁ hw₂ hl₁₂ hlt
      exact ⟨d, (hcommit d).mpr (.inl hd), hx⟩
  case epoch =>
    intro b' r'' d hv hd hdl hlt
    rcases (hcommit d).mp hd with hd' | ⟨-, t, ht, rfl⟩ <;>
      rcases (hversion _ _).mp hv with ⟨rfl, rfl⟩ | hv'
    · exact absurd (hdl.trans hl') (hnoc hd')
    · exact h.epoch hv' hd' hdl hlt
    · exact absurd (hts t ht) (by simpa [Commit.copied] using hlt)
    · exact absurd hdl.symm (hnov hv')
  case base_unique =>
    intro l' bp bp' hb hb'
    rcases (hbase _ _).mp hb with hb | ⟨rfl, hb⟩ <;> rcases (hbase _ _).mp hb' with hb'
      | ⟨hl'', hb'⟩
    · exact h.base_unique hb hb'
    · exact absurd (hl'' ▸ hb) hnob
    · exact absurd hb' hnob
    · exact Option.some.inj (hb.symm.trans hb')
  case base_head =>
    intro l' bp b' r'' hb hv hl''
    rcases (hbase _ _).mp hb with hb' | ⟨rfl, hb'⟩ <;>
      rcases (hversion _ _).mp hv with ⟨rfl, rfl⟩ | hv'
    · exact absurd (hl''.symm.trans hl' ▸ hb') hnob
    · exact h.base_head hb' hv' hl''
    · exact (hbp bp hb').1.le
    · exact absurd hl'' (hnov hv')
  case base_commit =>
    intro l' bp d hb hd hdl
    rcases (hbase _ _).mp hb with hb | ⟨rfl, hb⟩ <;>
      rcases (hcommit d).mp hd with hd | ⟨hnone, t, ht, rfl⟩
    · exact h.base_commit hb hd hdl
    · exact absurd (hdl ▸ hb) hnob
    · exact absurd hdl (hnoc hd)
    · rw [hnone] at hb
      cases hb
  case txids =>
    intro b' r'' t hv ht
    rcases (hversion _ _).mp hv with ⟨rfl, rfl⟩ | hv
    · exact hts t ht
    · exact h.txids hv ht
  case path =>
    intro b' r'' t hv ht
    rcases (hversion _ _).mp hv with ⟨rfl, rfl⟩ | hv
    · rw [hl']
      cases hb : r''.base with
      | none => exact ⟨_, .snapshot ((hcommit _).mpr (.inr ⟨hb, t, ht, rfl⟩))⟩
      | some bp =>
        obtain ⟨hhead, hpaths⟩ := hbp bp hb
        obtain ⟨ks, hp⟩ := hpaths t ht
        exact ⟨_, .through ((hbase _ _).mpr (.inr ⟨rfl, hb⟩)) (hhead ▸ hts t ht) (hmono hp)⟩
    · obtain ⟨ks, hp⟩ := h.path hv ht
      exact ⟨ks, hmono hp⟩

end Land

end Offshoot
