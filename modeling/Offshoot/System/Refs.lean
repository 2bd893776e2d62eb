import Offshoot.System.Footprint

/-!
# The refs of every run

Every record a ref has held is in the history.  The invariant here relates them:
a lineage belongs to one branch, the record a branch holds is the latest of its
lineage in epoch and head, and an epoch has at most one holder.  It rests on two
facts about writes: each edits the record it replaces, and a lineage is given to a
branch at most once.  It holds on both kinds of backend.
-/

namespace Offshoot

open List

variable {b : BranchId} {l : Lineage}

open Conc Maps

namespace World

/-- `r` has been the ref of `b`. -/
def Version (w : World) (b : BranchId) (r : Ref) : Prop :=
  ∃ i op before, Event.wrote i b op before (some r) ∈ w.log

/-- A ref has read the lineage. -/
def Named (w : World) (l : Lineage) : Prop := ∃ b r, w.Version b r ∧ r.lineage = l

/-- Holder `h` has had the lineage's lease at epoch `e`. -/
def Owner (w : World) (l : Lineage) (e : Nat) (h : Holder) : Prop :=
  ∃ b r, w.Version b r ∧ r.lineage = l ∧ r.epoch = e ∧ r.leaseHolder = some h

def Minted (w : World) (i : Nat) (l : Lineage) : Prop := Event.minted i l ∈ w.log

theorem lookup_setRef (w : World) (b b' : BranchId) (r : Option Ref) :
    (w.setRef b r).refs.lookup b' = if b' = b then r else w.refs.lookup b' := by
  cases r with
  | none =>
    by_cases h : b' = b
    · subst h
      simp [setRef]
    · simp [setRef, h, AList.lookup_erase_ne h]
  | some r =>
    by_cases h : b' = b
    · subst h
      simp [setRef]
    · simp [setRef, h, AList.lookup_insert_ne h]

theorem lookup_land (w : World) (i : Nat) (b b' : BranchId) (op : RefOp) (r : Option Ref) :
    (w.land i b op r).refs.lookup b' = if b' = b then r else w.refs.lookup b' :=
  w.lookup_setRef b b' r

theorem land_log (w : World) (i : Nat) (b : BranchId) (op : RefOp) (r : Option Ref) :
    (w.land i b op r).log = .wrote i b op (w.refs.lookup b) r :: w.log := rfl

theorem version_land {w : World} {i : Nat} {b' : BranchId} {op : RefOp} {r : Option Ref}
    {r' : Ref} : (w.land i b op r).Version b' r' ↔ b' = b ∧ r = some r' ∨ w.Version b' r' := by
  simp only [Version, land_log, mem_cons, Event.wrote.injEq]
  constructor
  · rintro ⟨j, op', before, ⟨-, rfl, -, -, rfl⟩ | h⟩
    · exact .inl ⟨rfl, rfl⟩
    · exact .inr ⟨j, op', before, h⟩
  · rintro (⟨rfl, rfl⟩ | ⟨j, op', before, h⟩)
    · exact ⟨i, op, _, .inl ⟨rfl, rfl, rfl, rfl, rfl⟩⟩
    · exact ⟨j, op', before, .inr h⟩

end World

def Pending.names : Pending → Option Lineage
  | .ref _ _ op _ _ => op.names
  | _ => none

structure RefsInv (env : Env) (w : World) : Prop where
  /-- Every write edited the record it replaced. -/
  wrote : ∀ {i b op before after}, Event.wrote i b op before after ∈ w.log →
    op.apply before = some after ∧ op.by i
  current : ∀ {b r}, w.refs.lookup b = some r → w.Version b r
  /-- A lineage belongs to one branch. -/
  branch : ∀ {b b' r r'}, w.Version b r → w.Version b' r' → r.lineage = r'.lineage → b = b'
  latest : ∀ {b b' r r'}, w.refs.lookup b = some r → w.Version b' r' → r'.lineage = r.lineage →
    r'.epoch ≤ r.epoch ∧ r'.headTXID ≤ r.headTXID
  /-- An epoch has one holder. -/
  owner : ∀ {l e h h'}, w.Owner l e h → w.Owner l e h' → h = h'
  /-- A lineage starts at epoch one, which has no holder. -/
  epoch : ∀ {b r}, w.Version b r → 1 ≤ r.epoch ∧ (r.leaseHolder ≠ none → 2 ≤ r.epoch)
  minted : ∀ {i l}, w.Minted i l → l < w.nextLineage
  minted_unique : ∀ {i j l}, w.Minted i l → w.Minted j l → i = j
  named : ∀ {l}, w.Named l → ∃ i, w.Minted i l
  sent : ∀ {i b op before after}, Pending.ref i b op before after ∈ w.pending →
    op.apply before = some (some after) ∧ op.by i
  /-- No lineage is about to be given to a second branch. -/
  sent_names : ∀ {p l}, p ∈ w.pending → p.names = some l → (∃ i, w.Minted i l) ∧ ¬ w.Named l
  sent_distinct : w.pending.Pairwise fun p q => ∀ l, p.names = some l → q.names ≠ some l
  settled : env.settled = true → w.pending = []

theorem RefsInv.empty (env : Env) : RefsInv env .empty where
  wrote h := by simp [World.empty] at h
  current h := by simp [World.empty] at h
  branch h := by simp [World.empty, World.Version] at h
  latest h := by simp [World.empty] at h
  owner h := by simp [World.empty, World.Owner, World.Version] at h
  epoch h := by simp [World.empty, World.Version] at h
  minted h := by simp [World.empty, World.Minted] at h
  minted_unique h := by simp [World.empty, World.Minted] at h
  named h := by simp [World.empty, World.Named, World.Version] at h
  sent h := by simp [World.empty] at h
  sent_names h := by simp [World.empty] at h
  sent_distinct := by simp [World.empty]
  settled _ := rfl

variable {env : Env} {w w' : World} {i : Nat}

/-- The invariant reads only the refs, the writes and mints in the history, and the
ref writes pending. -/
theorem RefsInv.of_same (h : RefsInv env w) (hrefs : w'.refs = w.refs)
    (hwrote : ∀ i b op before after,
      Event.wrote i b op before after ∈ w'.log ↔ Event.wrote i b op before after ∈ w.log)
    (hminted : ∀ i l, w'.Minted i l ↔ w.Minted i l) (hnext : w'.nextLineage = w.nextLineage)
    (hpending : w'.pending = w.pending) : RefsInv env w' := by
  have hversion : w'.Version = w.Version := by
    funext b r
    simp only [World.Version, hwrote]
  have hnamed : w'.Named = w.Named := by
    funext l
    simp only [World.Named, hversion]
  have howner : w'.Owner = w.Owner := by
    funext l e h
    simp only [World.Owner, hversion]
  constructor
  case wrote => simpa only [hwrote] using @h.wrote
  case current => simpa only [hrefs, hversion] using @h.current
  case branch => simpa only [hversion] using @h.branch
  case latest => simpa only [hrefs, hversion] using @h.latest
  case owner => simpa only [howner] using @h.owner
  case epoch => simpa only [hversion] using @h.epoch
  case minted => simpa only [hminted, hnext] using @h.minted
  case minted_unique => simpa only [hminted] using @h.minted_unique
  case named => simpa only [hnamed, hminted] using @h.named
  case sent => simpa only [hpending] using @h.sent
  case sent_names => simpa only [hpending, hminted, hnamed] using @h.sent_names
  case sent_distinct => simpa only [hpending] using h.sent_distinct
  case settled => simpa only [hpending] using h.settled

theorem RefsInv.land (h : RefsInv env w) {b : BranchId} {op : RefOp} {after : Option Ref}
    (happly : op.apply (w.refs.lookup b) = some after) (hby : op.by i)
    (hname : ∀ l, op.names = some l →
      (∃ j, w.Minted j l) ∧ ¬ w.Named l ∧ ∀ p ∈ w.pending, p.names ≠ some l) :
    RefsInv env (w.land i b op after) := by
  -- What is known of the record written, if there is one.
  have hnew : ∀ {r'}, after = some r' →
      (op.names = some r'.lineage ∧ r'.epoch = 1 ∧ r'.leaseHolder = none) ∨
        ∃ r, w.refs.lookup b = some r ∧ op.names = none ∧ r.Follows r' := by
    rintro r' rfl
    obtain ⟨l, hl, rfl, he, hh⟩ | hr := RefOp.apply_cases happly
    · exact .inl ⟨hl, he, hh⟩
    · exact .inr hr
  -- No version has a lineage the write gives a branch.
  have hunnamed : ∀ {r' b' r''}, after = some r' → op.names = some r'.lineage →
      w.Version b' r'' → r''.lineage ≠ r'.lineage := fun _ hn hv he =>
    (hname _ hn).2.1 ⟨_, _, hv, he⟩
  have hlog : ∀ l, (w.land i b op after).Named l ↔
      (∃ r', after = some r' ∧ r'.lineage = l) ∨ w.Named l := by
    intro l
    simp only [World.Named, World.version_land]
    constructor
    · rintro ⟨b', r', ⟨rfl, hr'⟩ | hv, hl⟩
      · exact .inl ⟨r', hr', hl⟩
      · exact .inr ⟨b', r', hv, hl⟩
    · rintro (⟨r', hr', hl⟩ | ⟨b', r', hv, hl⟩)
      · exact ⟨b, r', .inl ⟨rfl, hr'⟩, hl⟩
      · exact ⟨b', r', .inr hv, hl⟩
  have hminted : ∀ j l, (w.land i b op after).Minted j l ↔ w.Minted j l := by
    simp [World.Minted, World.land_log]
  constructor
  case wrote =>
    intro j b' op' before after' hmem
    rw [World.land_log, mem_cons] at hmem
    rcases hmem with heq | hmem
    · cases heq
      exact ⟨happly, hby⟩
    · exact h.wrote hmem
  case current =>
    intro b' r hr
    rw [World.lookup_land] at hr
    rw [World.version_land]
    split at hr
    · exact .inl ⟨‹_›, hr⟩
    · exact .inr (h.current hr)
  case branch =>
    intro b₁ b₂ r₁ r₂ h₁ h₂ hl
    rw [World.version_land] at h₁ h₂
    -- A version of the lineage of the record written stands at its branch.
    have hsame : ∀ {b' r' r''}, after = some r' → w.Version b' r'' →
        r''.lineage = r'.lineage → b' = b := by
      intro b' r' r'' hr' hv hl'
      rcases hnew hr' with ⟨hn, -, -⟩ | ⟨r, hr, -, hf⟩
      · exact absurd hl' (hunnamed hr' hn hv)
      · exact h.branch hv (h.current hr) (hl'.trans hf.lineage)
    rcases h₁ with ⟨rfl, ha₁⟩ | hv₁ <;> rcases h₂ with ⟨rfl, ha₂⟩ | hv₂
    · rfl
    · exact (hsame ha₁ hv₂ hl.symm).symm
    · exact hsame ha₂ hv₁ hl
    · exact h.branch hv₁ hv₂ hl
  case latest =>
    intro b₁ b₂ r₁ r₂ h₁ h₂ hl
    rw [World.lookup_land] at h₁
    rw [World.version_land] at h₂
    split at h₁
    · subst_vars
      rcases h₂ with ⟨rfl, ha⟩ | hv
      · cases ha
        exact ⟨le_rfl, le_rfl⟩
      · rcases hnew rfl with ⟨hn, -, -⟩ | ⟨r, hr, -, hf⟩
        · exact absurd hl (hunnamed rfl hn hv)
        · have := h.latest hr hv (hl.trans hf.lineage)
          exact ⟨this.1.trans hf.epoch, this.2.trans hf.head⟩
    · rename_i hne
      rcases h₂ with ⟨rfl, ha⟩ | hv
      · rcases hnew ha with ⟨hn, -, -⟩ | ⟨r, hr, -, hf⟩
        · exact absurd hl.symm (hunnamed ha hn (h.current h₁))
        · exact absurd (h.branch (h.current h₁) (h.current hr) (hl.symm.trans hf.lineage)) hne
      · exact h.latest h₁ hv hl
  case owner =>
    -- The record written against an older owner of its epoch.
    have hold : ∀ {r' h₁ h₂}, after = some r' → r'.leaseHolder = some h₁ →
        w.Owner r'.lineage r'.epoch h₂ → h₁ = h₂ := by
      rintro r' h₁ h₂ ha hh ⟨b', r'', hv, hl, he, hh'⟩
      rcases hnew ha with ⟨-, -, hnone⟩ | ⟨r, hr, -, hf⟩
      · rw [hnone] at hh
        cases hh
      · have hle := (h.latest hr hv (hl.trans hf.lineage)).1
        rcases hf.holder h₁ hh with hlt | ⟨heq, hrh⟩
        · omega
        · exact h.owner ⟨b, r, h.current hr, rfl, rfl, hrh⟩
            ⟨b', r'', hv, hl.trans hf.lineage, by omega, hh'⟩
    rintro l e h₁ h₂ ⟨b₁, r₁, hv₁, rfl, rfl, hh₁⟩ ⟨b₂, r₂, hv₂, hl, he, hh₂⟩
    rw [World.version_land] at hv₁ hv₂
    rcases hv₁ with ⟨rfl, ha₁⟩ | hv₁ <;> rcases hv₂ with ⟨rfl, ha₂⟩ | hv₂
    · obtain rfl : r₁ = r₂ := Option.some.inj (ha₁.symm.trans ha₂)
      exact Option.some.inj (hh₁.symm.trans hh₂)
    · exact hold ha₁ hh₁ ⟨b₂, r₂, hv₂, hl, he, hh₂⟩
    · exact (hold ha₂ hh₂ ⟨b₁, r₁, hv₁, hl.symm, he.symm, hh₁⟩).symm
    · exact h.owner ⟨b₁, r₁, hv₁, rfl, rfl, hh₁⟩ ⟨b₂, r₂, hv₂, hl, he, hh₂⟩
  case epoch =>
    intro b' r' hv
    rw [World.version_land] at hv
    rcases hv with ⟨rfl, ha⟩ | hv
    · rcases hnew ha with ⟨-, he, hh⟩ | ⟨r, hr, -, hf⟩
      · simp [he, hh]
      have hr' := h.epoch (h.current hr)
      refine ⟨hr'.1.trans hf.epoch, fun hne => ?_⟩
      obtain ⟨x, hx⟩ := Option.ne_none_iff_exists'.mp hne
      rcases hf.holder x hx with hlt | ⟨heq, hrh⟩
      · omega
      · have := hr'.2 (by simp [hrh])
        omega
    · exact h.epoch hv
  case minted => exact fun hm => h.minted ((hminted _ _).mp hm)
  case minted_unique => simpa only [hminted] using @h.minted_unique
  case named =>
    intro l hl
    simp only [hminted]
    rcases (hlog l).mp hl with ⟨r', ha, rfl⟩ | hl
    · rcases hnew ha with ⟨hn, -, -⟩ | ⟨r, hr, -, hf⟩
      · exact (hname _ hn).1
      · exact h.named ⟨b, r, h.current hr, hf.lineage.symm⟩
    · exact h.named hl
  case sent => exact @h.sent
  case sent_names =>
    intro p l hp hl
    have hold := h.sent_names hp hl
    simp only [hminted]
    refine ⟨hold.1, fun hn => ?_⟩
    rcases (hlog l).mp hn with ⟨r', ha, rfl⟩ | hn
    · rcases hnew ha with ⟨hn, -, -⟩ | ⟨r, hr, -, hf⟩
      · exact (hname _ hn).2.2 p hp hl
      · exact hold.2 ⟨b, r, h.current hr, hf.lineage.symm⟩
    · exact hold.2 hn
  case sent_distinct => exact h.sent_distinct
  case settled => exact h.settled

/-- Events that are neither a write of a ref nor a mint. -/
def Event.aside : Event → Prop
  | .wrote .. | .minted .. => False
  | _ => True

variable {e : Event}

theorem Event.quiet.aside (h : e.quiet) : e.aside := by
  cases e <;> trivial

theorem RefsInv.note (h : RefsInv env w) (he : e.aside) : RefsInv env (w.note e) := by
  refine h.of_same rfl (fun i b op before after => ?_) (fun i l => ?_) rfl rfl
  · simp only [World.note, mem_cons, or_iff_right_iff_imp]
    rintro rfl
    exact he.elim
  · simp only [World.Minted, World.note, mem_cons, or_iff_right_iff_imp]
    rintro rfl
    exact he.elim

theorem RefsInv.of_eq (h : RefsInv env w) (hrefs : w'.refs = w.refs) (hlog : w'.log = w.log)
    (hnext : w'.nextLineage = w.nextLineage) (hpending : w'.pending = w.pending) : RefsInv env w' :=
  h.of_same hrefs (by simp [hlog]) (by simp [World.Minted, hlog]) hnext hpending

variable {r : Ref}

theorem World.version_note_effect {b' : BranchId} {e : RefEdit} {r' : Ref} (hv : w.Version b r) :
    (w.note (.wrote i b (.edit e) (some r) (some r))).Version b' r' ↔ w.Version b' r' := by
  simp only [World.Version, World.note, mem_cons, Event.wrote.injEq]
  constructor
  · rintro ⟨j, op', before, ⟨-, rfl, -, -, hr⟩ | h⟩
    · cases hr
      exact hv
    · exact ⟨j, op', before, h⟩
  · rintro ⟨j, op', before, h⟩
    exact ⟨j, op', before, .inr h⟩

theorem RefsInv.stored (h : RefsInv env w) (hv : w.Version b r) : r.stored = r := by
  obtain ⟨i, op, before, hmem⟩ := hv
  exact RefOp.apply_stored (h.wrote hmem).1

theorem RefsInv.effect (h : RefsInv env w) {e : RefEdit} (hr : w.refs.lookup b = some r)
    (he : e.edit r = some r) (hplain : RefOp.plain (.edit e)) :
    RefsInv env (w.note (.wrote i b (.edit e) (some r) (some r))) := by
  have hv : ∀ b' r', (w.note (.wrote i b (.edit e) (some r) (some r))).Version b' r' ↔
      w.Version b' r' := fun _ _ => World.version_note_effect (h.current hr)
  have hnamed : ∀ l, (w.note (.wrote i b (.edit e) (some r) (some r))).Named l ↔ w.Named l := by
    simp only [World.Named, hv, implies_true]
  have hminted : ∀ j l, (w.note (.wrote i b (.edit e) (some r) (some r))).Minted j l ↔
      w.Minted j l := by
    simp [World.Minted, World.note]
  constructor
  case wrote =>
    intro j b' op' before after' hmem
    rw [World.note, mem_cons] at hmem
    rcases hmem with heq | hmem
    · cases heq
      exact ⟨by rw [RefOp.apply_edit he, h.stored (h.current hr)], hplain.by⟩
    · exact h.wrote hmem
  case current => exact fun hr' => (hv _ _).mpr (h.current hr')
  case branch => simpa only [hv] using @h.branch
  case latest => exact fun hr' hv' => h.latest hr' ((hv _ _).mp hv')
  case owner => simpa only [World.Owner, hv] using @h.owner
  case epoch => simpa only [hv] using @h.epoch
  case minted => exact fun hm => h.minted ((hminted _ _).mp hm)
  case minted_unique => simpa only [hminted] using @h.minted_unique
  case named => simpa only [hnamed, hminted] using @h.named
  case sent => exact @h.sent
  case sent_names =>
    intro p l hp hl
    simpa only [hnamed, hminted] using h.sent_names hp hl
  case sent_distinct => exact h.sent_distinct
  case settled => exact h.settled

theorem RefsInv.mint (h : RefsInv env w) : RefsInv env (Act.mint.run i w) := by
  have hwrote : ∀ j b op before after, Event.wrote j b op before after ∈ (Act.mint.run i w).log ↔
      Event.wrote j b op before after ∈ w.log := by
    simp [Act.run, World.note]
  have hversion : (Act.mint.run i w).Version = w.Version := by
    funext b r
    simp only [World.Version, hwrote]
  have hnamed : (Act.mint.run i w).Named = w.Named := by
    funext l
    simp only [World.Named, hversion]
  have howner : (Act.mint.run i w).Owner = w.Owner := by
    funext l e h
    simp only [World.Owner, hversion]
  have hminted : ∀ {j l}, (Act.mint.run i w).Minted j l ↔
      (j = i ∧ l = w.nextLineage) ∨ w.Minted j l := by
    simp [World.Minted, Act.run, World.note]
  constructor
  case wrote => simpa only [hwrote] using @h.wrote
  case current => exact fun hr => hversion ▸ h.current hr
  case branch => simpa only [hversion] using @h.branch
  case latest => exact fun hr hv => h.latest hr (hversion ▸ hv)
  case owner => simpa only [howner] using @h.owner
  case epoch => simpa only [hversion] using @h.epoch
  case minted =>
    intro j l hm
    rcases hminted.mp hm with ⟨-, rfl⟩ | hm
    · exact Nat.lt_succ_self _
    · exact (h.minted hm).trans (Nat.lt_succ_self _)
  case minted_unique =>
    intro j k l hj hk
    rcases hminted.mp hj with ⟨hji, hjl⟩ | hj' <;> rcases hminted.mp hk with ⟨hki, hkl⟩ | hk'
    · exact hji.trans hki.symm
    · exact absurd (hjl ▸ h.minted hk') (lt_irrefl _)
    · exact absurd (hkl ▸ h.minted hj') (lt_irrefl _)
    · exact h.minted_unique hj' hk'
  case named =>
    intro l hl
    rw [hnamed] at hl
    obtain ⟨j, hj⟩ := h.named hl
    exact ⟨j, hminted.mpr (.inr hj)⟩
  case sent => exact @h.sent
  case sent_names =>
    intro p l hp hl
    rw [hnamed]
    obtain ⟨⟨j, hj⟩, hn⟩ := h.sent_names hp hl
    exact ⟨⟨j, hminted.mpr (.inr hj)⟩, hn⟩
  case sent_distinct => exact h.sent_distinct
  case settled => exact h.settled

variable {p : Pending}

theorem RefsInv.send (h : RefsInv env w) (hset : env.settled = false)
    (href : ∀ {j b op before after}, p = .ref j b op before after →
      op.apply before = some (some after) ∧ op.by j)
    (hname : ∀ l, p.names = some l → (∃ j, w.Minted j l) ∧ ¬ w.Named l ∧ ∀ q ∈ w.pending,
      q.names ≠ some l) :
    RefsInv env { w with pending := p :: w.pending } where
  wrote := @h.wrote
  current := @h.current
  branch := @h.branch
  latest := @h.latest
  owner := @h.owner
  epoch := @h.epoch
  minted := @h.minted
  minted_unique := @h.minted_unique
  named := @h.named
  sent := by
    intro j b op before after hmem
    rcases mem_cons.mp hmem with heq | hmem
    · exact href heq.symm
    · exact h.sent hmem
  sent_names := by
    intro q l hq hl
    rcases mem_cons.mp hq with rfl | hq
    · exact ⟨(hname l hl).1, (hname l hl).2.1⟩
    · exact h.sent_names hq hl
  sent_distinct := pairwise_cons.mpr ⟨fun q hq l hl => (hname l hl).2.2 q hq, h.sent_distinct⟩
  settled hs := by simp [hset] at hs

variable {n : Nat}

theorem RefsInv.unsend (h : RefsInv env w) :
    RefsInv env { w with pending := w.pending.eraseIdx n } where
  wrote := @h.wrote
  current := @h.current
  branch := @h.branch
  latest := @h.latest
  owner := @h.owner
  epoch := @h.epoch
  minted := @h.minted
  minted_unique := @h.minted_unique
  named := @h.named
  sent hmem := h.sent (mem_of_mem_eraseIdx hmem)
  sent_names hq := h.sent_names (mem_of_mem_eraseIdx hq)
  sent_distinct := h.sent_distinct.sublist (eraseIdx_sublist _ _)
  settled hs := by simp [h.settled hs]

theorem RefsInv.names_eraseIdx (h : RefsInv env w) {q : Pending} (hp : w.pending[n]? = some p)
    (hq : q ∈ w.pending.eraseIdx n) (hl : p.names = some l) : q.names ≠ some l := by
  obtain ⟨hn, rfl⟩ := List.getElem?_eq_some_iff.mp hp
  have hperm := (List.Perm.pairwise_iff (fun hpq l hq hp => hpq l hp hq)
    (getElem_cons_eraseIdx_perm hn)).mpr h.sent_distinct
  exact (pairwise_cons.mp hperm).1 q hq l hl

theorem RefsInv.late (h : RefsInv env w) : RefsInv env ((Act.late n).run i w) := by
  refine Act.late_elim (fun j b op after hp => ?_) (fun _ _ _ => ?_) (fun _ _ _ _ => ?_) fun _ => ?_
  · have hmem := mem_of_getElem? hp
    obtain ⟨happly, hby⟩ := h.sent hmem
    exact h.unsend.land happly hby fun l hl => ⟨(h.sent_names hmem hl).1, (h.sent_names hmem hl).2,
      fun q hq => h.names_eraseIdx hp hq hl⟩
  · exact h.unsend.land rfl trivial fun _ hl => by cases hl
  · exact h.unsend.of_eq rfl rfl rfl rfl
  · exact h.unsend.of_eq rfl rfl rfl rfl

/-! ## The spec of the refs -/

/-- A lineage the thread has minted and not given to a branch. -/
def World.Draft (w : World) (i : Nat) (l : Lineage) : Prop :=
  w.Minted i l ∧ ¬ w.Named l ∧ ∀ p ∈ w.pending, p.names ≠ some l

def Act.names : Act → Option Lineage
  | write _ op _ | grant _ op _ _ | send _ op _ _ => op.names
  | _ => .none

variable {a : Act}

theorem RefsInv.run (h : RefsInv env w) (hok : a.ok env i w)
    (hname : ∀ l, a.names = some l → w.Draft i l) : RefsInv env (a.run i w) := by
  have hname' : ∀ l, a.names = some l →
      (∃ j, w.Minted j l) ∧ ¬ w.Named l ∧ ∀ p ∈ w.pending, p.names ≠ some l := fun l hl =>
    ⟨⟨i, (hname l hl).1⟩, (hname l hl).2⟩
  cases a with
  | none => exact h
  | session _ _ | checkout _ _ _ | clock _ | flight _ | put _ _ | drop _ | stones _ =>
    exact h.of_eq rfl rfl rfl rfl
  | note e => exact h.note (Event.quiet.aside hok)
  | mint => exact h.mint
  | write b op after => exact h.land hok.1 hok.2 hname'
  | grant b op after lease => exact (h.land hok.1 hok.2.1.by hname').note trivial
  | adopt b r lease => exact h.note trivial
  | effect b e r => exact h.effect hok.1 hok.2.1 hok.2.2
  | send b op before after =>
    refine h.send hok.1 (fun heq => ?_) hname'
    cases heq
    exact hok.2
  | sweep time k =>
    have hdrop : RefsInv env (w.dropObj k) := h.of_eq rfl rfl rfl rfl
    exact hdrop.note trivial
  | sendPut k obj co => exact h.send hok (fun h => by cases h) fun _ h => by cases h
  | sendStones before after => exact h.send hok (fun h => by cases h) fun _ h => by cases h
  | sendDelete b => exact h.send hok.1 (fun h => by cases h) fun _ h => by cases h
  | late n => exact h.late

theorem Act.log_run (a : Act) : w.log <:+ (a.run i w).log := by
  cases a with
  | note _ | mint | write _ _ _ | adopt _ _ _ | effect _ _ _ | sweep _ _ =>
    exact suffix_cons _ _
  | grant _ _ _ _ => exact (suffix_cons _ _).trans (suffix_cons _ _)
  | late n =>
    exact Act.late_elim (fun _ _ _ _ _ => suffix_cons _ _) (fun _ _ _ => suffix_cons _ _)
      (fun _ _ _ _ => suffix_rfl) fun _ => suffix_rfl
  | _ => exact suffix_rfl

theorem World.Version.mono (h : w.Version b r) (hlog : w.log ⊆ w'.log) : w'.Version b r := by
  obtain ⟨i, op, before, hmem⟩ := h
  exact ⟨i, op, before, hlog hmem⟩

theorem World.Named.mono (h : w.Named l) (hlog : w.log ⊆ w'.log) : w'.Named l := by
  obtain ⟨b, r, hv, hl⟩ := h
  exact ⟨b, r, hv.mono hlog, hl⟩

theorem World.Owner.mono {e : Nat} {h : Holder} (ho : w.Owner l e h) (hlog : w.log ⊆ w'.log) :
    w'.Owner l e h := by
  obtain ⟨b, r, hv, hr⟩ := ho
  exact ⟨b, r, hv.mono hlog, hr⟩

theorem RefsInv.named_land (h : RefsInv env w) {op : RefOp} {after : Option Ref}
    (happly : op.apply (w.refs.lookup b) = some after) (hl : (w.land i b op after).Named l) :
    w.Named l ∨ op.names = some l := by
  obtain ⟨b', r', hv, rfl⟩ := hl
  rcases World.version_land.mp hv with ⟨rfl, rfl⟩ | hv
  · obtain ⟨l, hl, rfl, -, -⟩ | ⟨r, hr, -, hf⟩ := RefOp.apply_cases happly
    · exact .inr hl
    · exact .inl ⟨b', r, h.current hr, hf.lineage.symm⟩
  · exact .inl ⟨b', r', hv, rfl⟩

theorem World.version_note (he : ∀ i b op before after, e ≠ .wrote i b op before after) :
    (w.note e).Version b r ↔ w.Version b r := by
  simp only [World.Version, World.note, mem_cons]
  constructor
  · rintro ⟨i, op, before, heq | h⟩
    · exact absurd heq.symm (he _ _ _ _ _)
    · exact ⟨i, op, before, h⟩
  · rintro ⟨i, op, before, h⟩
    exact ⟨i, op, before, .inr h⟩

theorem World.named_note (he : ∀ i b op before after, e ≠ .wrote i b op before after) :
    (w.note e).Named l ↔ w.Named l := by
  simp only [World.Named, World.version_note he]

/-- Where a lineage that is named after an act comes from. -/
theorem RefsInv.named_run (h : RefsInv env w) (hok : a.ok env i w) (hl : (a.run i w).Named l) :
    w.Named l ∨ a.names = some l ∨ ∃ p ∈ w.pending, p.names = some l := by
  cases a with
  | note e => exact .inl ((World.named_note (by rintro _ _ _ _ _ rfl; exact hok)).mp hl)
  | mint =>
    have hl' : (w.note (.minted i w.nextLineage)).Named l := hl.mono (List.Subset.refl _)
    exact .inl ((World.named_note (by simp)).mp hl')
  | write b op after => exact (h.named_land hok.1 hl).imp_right .inl
  | grant b op after lease =>
    exact (h.named_land hok.1 ((World.named_note (by simp)).mp hl)).imp_right .inl
  | adopt b r lease => exact .inl ((World.named_note (by simp)).mp hl)
  | effect b e r =>
    obtain ⟨b', r', hv, rfl⟩ := hl
    exact .inl ⟨b', r', (World.version_note_effect (h.current hok.1)).mp hv, rfl⟩
  | sweep time k =>
    have hl' : (w.note (.swept i time k)).Named l := hl.mono (List.Subset.refl _)
    exact .inl ((World.named_note (by simp)).mp hl')
  | late n =>
    revert hl
    refine Act.late_elim (fun j b op after hp hl => ?_) (fun _ _ _ hl => ?_)
      (fun _ _ _ _ hl => .inl hl) fun _ hl => .inl hl
    · have hmem := mem_of_getElem? hp
      exact (h.unsend.named_land (h.sent hmem).1 hl).imp_right fun hl => .inr ⟨_, hmem, hl⟩
    · exact (h.unsend.named_land rfl hl).imp_right fun hl => by cases hl
  | _ => exact .inl hl

def Act.sent (i : Nat) : Act → Option Pending
  | send b op before after => some (.ref i b op before after)
  | sendDelete b => some (.delete i b)
  | sendPut k obj createOnly => some (.put k obj createOnly)
  | sendStones before after => some (.stones before after)
  | _ => .none

theorem Act.pending_run : (a.run i w).pending.Sublist w.pending ∨
    ∃ p, a.sent i = some p ∧ (a.run i w).pending = p :: w.pending := by
  cases a with
  | send _ _ _ _ | sendPut _ _ _ | sendStones _ _ | sendDelete _ => exact .inr ⟨_, rfl, rfl⟩
  | late n =>
    exact .inl (Act.late_elim (fun _ _ _ _ _ => eraseIdx_sublist _ _)
      (fun _ _ _ => eraseIdx_sublist _ _) (fun _ _ _ _ => eraseIdx_sublist _ _)
      fun _ => eraseIdx_sublist _ _)
  | _ => exact .inl (List.Sublist.refl _)

theorem Act.mem_pending (hp : p ∈ (a.run i w).pending) : p ∈ w.pending ∨ a.sent i = some p := by
  rcases Act.pending_run (a := a) (i := i) (w := w) with hsub | ⟨q, hq, heq⟩
  · exact .inl (hsub.subset hp)
  · rw [heq] at hp
    rcases mem_cons.mp hp with rfl | hp
    · exact .inr hq
    · exact .inl hp

theorem Act.names_sent (h : a.sent i = some p) : p.names = a.names := by
  cases a <;> cases h <;> rfl

/-- A draft stays one until its lineage is given away. -/
theorem World.Draft.run {j : Nat} (hd : w.Draft i l) (h : RefsInv env w) (hok : a.ok env j w)
    (hname : a.names ≠ some l) : (a.run j w).Draft i l := by
  refine ⟨a.log_run.subset hd.1, fun hn => ?_, fun p hp hl => ?_⟩
  · rcases h.named_run hok hn with hn | hn | ⟨p, hp, hl⟩
    · exact hd.2.1 hn
    · exact hname hn
    · exact hd.2.2 p hp hl
  · rcases Act.mem_pending hp with hp | hsent
    · exact hd.2.2 p hp hl
    · exact hname (Act.names_sent hsent ▸ hl)

theorem RefsInv.draft_mint (h : RefsInv env w) : (Act.mint.run i w).Draft i w.nextLineage := by
  refine ⟨mem_cons_self, fun hn => ?_, fun p hp hl => ?_⟩
  · rcases h.named_run (a := .mint) (i := i) trivial hn with hn | hn | ⟨p, hp, hl⟩
    · obtain ⟨j, hj⟩ := h.named hn
      exact absurd (h.minted hj) (lt_irrefl _)
    · cases hn
    · obtain ⟨j, hj⟩ := (h.sent_names hp hl).1
      exact absurd (h.minted hj) (lt_irrefl _)
  · obtain ⟨j, hj⟩ := (h.sent_names hp hl).1
    exact absurd (h.minted hj) (lt_irrefl _)

/-- Any act is allowed, if a lineage it gives a branch is a draft of its thread. -/
def refSpec (env : Env) : Spec World where
  inv := RefsInv env
  may i w w' := ∃ a : Act, a.ok env i w ∧ (∀ l, a.names = some l → w.Draft i l) ∧ a.run i w = w'
  assumed _ _ := True
  fresh _ _ := True
  inv_may := by
    rintro i w w' h ⟨a, hok, hname, rfl⟩ -
    exact h.run hok hname
  fresh_may _ _ _ _ _ := trivial

end Offshoot
