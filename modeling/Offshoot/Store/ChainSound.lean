import Mathlib.Data.Finset.Card
import Mathlib.Data.List.Chain
import Offshoot.Store.Resolve

/-!
# Soundness of the resolver on arbitrary stores

Nothing is assumed about the store: base pointers may form cycles or dangle,
several objects may share a txid, and segments may span several txids.  The
recursion bound of `chainFrom` is never reached, a base cycle the resolver walks
into is reported, and a chain it returns is made of contiguous runs, one per
lineage, joined at the fork points.
-/

namespace Offshoot

open List

variable {κ : Type}
variable {hole : κ → Nat → Nat → ChainErr κ} {target fuel : Nat}
  {segments run snapshots members : List (ChainMember κ)} {lineage : Lineage} {v : View κ}
  {seen : List Lineage} {e : ChainErr κ} {m : ChainMember κ}

/-! ## The walks -/

/-- A run of segments that starts right above `lo` and ends at `hi`. -/
structure Segments (segments : List (ChainMember κ)) (lo hi : Nat)
    (run : List (ChainMember κ)) : Prop where
  mem : ∀ m ∈ run, m ∈ segments
  contiguous : run.IsChain fun a b => b.minTXID = a.maxTXID + 1
  head : run.head?.map (·.minTXID) = some (lo + 1)
  last : run.getLast?.map (·.maxTXID) = some hi

variable {prevMax : Nat} {short : Nat → ChainErr κ} {floor : Nat → Nat}

theorem walk_ok (h : walk hole short floor target prevMax segments = .ok run) :
    Segments segments prevMax target run := by
  induction segments generalizing prevMax run with
  | nil => simp [walk] at h
  | cons seg rest ih =>
    rw [walk] at h
    split at h
    · obtain ⟨hmem, hcont, hhead, hlast⟩ := ih h
      exact ⟨fun m hm => mem_cons_of_mem _ (hmem m hm), hcont, hhead, hlast⟩
    split at h
    · simp at h
    rename_i hmin
    split at h
    · rename_i hmax
      have hrun : run = [seg] := by simpa using h.symm
      subst hrun
      exact ⟨by simp, by simp, by simpa using hmin, by simpa using hmax⟩
    split at h
    · simp at h
    cases hrest : walk hole short floor target seg.maxTXID rest with
    | error e => simp [hrest, Except.map] at h
    | ok tail =>
      have hrun : run = seg :: tail := by simpa [hrest, Except.map] using h.symm
      obtain ⟨hmem, hcont, hhead, hlast⟩ := ih hrest
      subst hrun
      cases tail with
      | nil => simp at hhead
      | cons next tail =>
        refine ⟨?_, ?_, by simpa using hmin, by simpa using hlast⟩
        · intro m hm
          rcases mem_cons.mp hm with rfl | hm
          · exact mem_cons_self
          · exact mem_cons_of_mem _ (hmem m hm)
        · exact isChain_cons_cons.mpr ⟨by simpa using hhead, hcont⟩

/-- A run anchored on a snapshot: the snapshot, then contiguous segments. -/
structure Anchored (snapshots segments : List (ChainMember κ)) (target : Nat)
    (run : List (ChainMember κ)) : Prop where
  anchor : ∃ base segs, run = base :: segs ∧ base ∈ snapshots ∧ ∀ m ∈ segs, m ∈ segments
  contiguous : run.IsChain fun a b => b.minTXID = a.maxTXID + 1
  last : run.getLast?.map (·.maxTXID) = some target

theorem resolveSelf_ok (h : resolveSelf lineage target snapshots segments = .ok run) :
    Anchored snapshots segments target run := by
  unfold resolveSelf at h
  split at h
  · simp at h
  rename_i base hbase
  have hmem : base ∈ snapshots := mem_reverse.mp (mem_of_find?_eq_some hbase)
  split at h
  · rename_i hmax
    have hrun : run = [base] := by simpa using h.symm
    subst hrun
    exact ⟨⟨base, [], rfl, hmem, by simp⟩, by simp, by simpa using hmax⟩
  · cases hw : walk (.hole lineage target) (.noContiguousRun lineage target) id target
        base.maxTXID segments with
    | error e => simp [hw, Except.map] at h
    | ok segs =>
      have hrun : run = base :: segs := by simpa [hw, Except.map] using h.symm
      obtain ⟨hsub, hcont, hhead, hlast⟩ := walk_ok hw
      subst hrun
      cases segs with
      | nil => simp at hhead
      | cons seg segs =>
        exact ⟨⟨base, seg :: segs, rfl, hmem, hsub⟩,
          isChain_cons_cons.mpr ⟨by simpa using hhead, hcont⟩, by simpa using hlast⟩

/-! ## The recursion bound -/

/-- The lineages the recursion may still leave through a base pointer. -/
def View.open (v : View κ) (lineage : Lineage) (seen : List Lineage) : Finset Lineage :=
  v.based.toFinset \ (seen.toFinset.erase lineage)

variable {b : BasePointer}

theorem View.open_card_lt (hb : v.base lineage = .ok (some b)) (hseen : lineage ∈ seen)
    (hnew : b.lineage ∉ seen) :
    (v.open b.lineage (b.lineage :: seen)).card < (v.open lineage seen).card := by
  have hset : v.open b.lineage (b.lineage :: seen) = v.based.toFinset \ seen.toFinset := by
    simp [View.open, hnew]
  rw [hset]
  refine Finset.card_lt_card ⟨Finset.sdiff_subset_sdiff le_rfl (Finset.erase_subset _ _), ?_⟩
  intro hsub
  have hopen : lineage ∈ v.open lineage seen := by simp [View.open, v.mem_based hb]
  have := hsub hopen
  simp [hseen] at this

/-- With a bound above the number of open lineages, a larger bound changes
nothing and the bound is never reported. -/
theorem chainFrom_stable (hseen : lineage ∈ seen) (hfuel : (v.open lineage seen).card < fuel)
    (more : Nat) :
    chainFrom v (fuel + more) lineage target seen = chainFrom v fuel lineage target seen := by
  induction fuel generalizing lineage target seen with
  | zero => exact absurd hfuel (Nat.not_lt_zero _)
  | succ fuel ih =>
    rw [show fuel + 1 + more = (fuel + more) + 1 by omega, chainFrom, chainFrom]
    rcases hbase : v.base lineage with e | _ | b
    · rfl
    · rfl
    by_cases hmem : b.lineage ∈ seen
    · simp [hmem]
    have hlt := View.open_card_lt hbase hseen hmem
    have hrec : ∀ t, chainFrom v (fuel + more) b.lineage t (b.lineage :: seen) =
        chainFrom v fuel b.lineage t (b.lineage :: seen) :=
      fun t => ih mem_cons_self (by omega)
    simp only [hmem, if_false, hrec]

theorem walk_error_root (h : walk hole short floor target prevMax segments = .error e) :
    (∃ k x y, e = hole k x y) ∨ ∃ x, e = short x := by
  induction segments generalizing prevMax with
  | nil => exact .inr ⟨_, by simpa [walk] using h.symm⟩
  | cons seg rest ih =>
    rw [walk] at h
    split at h
    · exact ih h
    split at h
    · exact .inl ⟨_, _, _, by simpa using h.symm⟩
    split at h
    · simp at h
    split at h
    · exact .inr ⟨_, by simpa using h.symm⟩
    cases hrest : walk hole short floor target seg.maxTXID rest with
    | error e' =>
      have he : e' = e := by simpa [hrest, Except.map] using h
      subst he
      exact ih hrest
    | ok tail => simp [hrest, Except.map] at h

theorem resolveSelf_error_root (h : resolveSelf lineage target snapshots segments = .error e) :
    e.root ≠ .exhausted := by
  unfold resolveSelf at h
  split at h
  · have he : e = .noSnapshotCoversTarget lineage target := by simpa using h.symm
    simp [he, ChainErr.root]
  split at h
  · simp at h
  cases hw : walk (.hole lineage target) (.noContiguousRun lineage target) id target
      (‹ChainMember κ›).maxTXID segments with
  | ok run => simp [hw, Except.map] at h
  | error e' =>
    have he : e' = e := by simpa [hw, Except.map] using h
    rcases walk_error_root hw with ⟨k, x, y, rfl⟩ | ⟨x, rfl⟩ <;> simp [← he, ChainErr.root]

theorem chainSelf_error_root (h : chainSelf v lineage target = .error e) : e.root ≠ .exhausted := by
  unfold chainSelf at h
  split at h
  · have he := (Except.error.inj h).symm
    simp [he, ChainErr.root]
  · exact resolveSelf_error_root h

theorem resolveRange_error_root {lo hi : Nat} (h : resolveRange lineage lo hi segments = .error e) :
    e.root ≠ .exhausted := by
  rcases walk_error_root h with ⟨k, x, y, rfl⟩ | ⟨x, rfl⟩ <;> simp [ChainErr.root]

theorem chainFrom_error_root (hseen : lineage ∈ seen) (hfuel : (v.open lineage seen).card < fuel)
    (h : chainFrom v fuel lineage target seen = .error e) : e.root ≠ .exhausted := by
  induction fuel generalizing lineage target seen e with
  | zero => exact absurd hfuel (Nat.not_lt_zero _)
  | succ fuel ih =>
    rw [chainFrom] at h
    split at h
    · simp [← Except.error.inj h, ChainErr.root]
    · exact chainSelf_error_root h
    rename_i b hbase
    split at h
    · simp [← Except.error.inj h, ChainErr.root]
    rename_i hnew
    have hlt := View.open_card_lt hbase hseen hnew
    have hrec : ∀ {t e}, chainFrom v fuel b.lineage t (b.lineage :: seen) = .error e →
        e.root ≠ .exhausted := fun h => ih mem_cons_self (by omega) h
    split at h
    · exact hrec h
    split at h
    · simp [← Except.error.inj h, ChainErr.root]
    split at h
    · cases h
    · split at h
      · rename_i hparent
        rw [← Except.error.inj h, ChainErr.root]
        exact hrec hparent
      split at h
      · rename_i hrange
        rw [← Except.error.inj h, ChainErr.root]
        exact resolveRange_error_root hrange
      split at h
      · cases h
      · simp [← Except.error.inj h, ChainErr.root]
    · rename_i hself
      rw [← Except.error.inj h]
      exact resolveSelf_error_root hself

theorem View.open_singleton_card_lt (v : View κ) (lineage : Lineage) :
    (v.open lineage [lineage]).card < v.based.length + 1 := by
  have hle : (v.open lineage [lineage]).card ≤ v.based.toFinset.card :=
    Finset.card_le_card Finset.sdiff_subset
  have := v.based.toFinset_card_le
  omega

theorem chainFrom_of_le (hfuel : v.based.length + 1 ≤ fuel) :
    chainFrom v fuel lineage target [lineage] = chain v lineage target := by
  obtain ⟨more, rfl⟩ := Nat.exists_eq_add_of_le hfuel
  exact chainFrom_stable mem_cons_self (v.open_singleton_card_lt lineage) more

theorem chain_congr {v' : View κ} (hbase : ∀ l, v'.base l = v.base l)
    (hmembers : ∀ l, v'.members l = v.members l) (lineage : Lineage) (target : Nat) :
    chain v' lineage target = chain v lineage target := by
  have hfrom (fuel : Nat) (l : Lineage) (t : Nat) (seen : List Lineage) :
      chainFrom v' fuel l t seen = chainFrom v fuel l t seen := by
    induction fuel generalizing l t seen with
    | zero => rfl
    | succ fuel ih => simp only [chainFrom, chainSelf, hbase, hmembers, ih]
  rw [← chainFrom_of_le (le_max_left (v'.based.length + 1) (v.based.length + 1)),
    ← chainFrom_of_le (v := v) (le_max_right (v'.based.length + 1) (v.based.length + 1))]
  exact hfrom _ _ _ _

/-! The walks along base pointers alone are bounded in the same way. -/

theorem baseSpineFrom_stable {start : Lineage} (hseen : lineage ∈ seen)
    (hfuel : (v.open lineage seen).card < fuel) (more : Nat) :
    baseSpineFrom v start (fuel + more) lineage seen = baseSpineFrom v start fuel lineage seen := by
  induction fuel generalizing lineage seen with
  | zero => exact absurd hfuel (Nat.not_lt_zero _)
  | succ fuel ih =>
    rw [show fuel + 1 + more = (fuel + more) + 1 by omega, baseSpineFrom, baseSpineFrom]
    rcases hbase : v.base lineage with e | _ | b
    · rfl
    · rfl
    by_cases hmem : b.lineage ∈ seen
    · simp [hmem]
    have hlt := View.open_card_lt hbase hseen hmem
    have hrec : baseSpineFrom v start (fuel + more) b.lineage (b.lineage :: seen) =
        baseSpineFrom v start fuel b.lineage (b.lineage :: seen) :=
      ih mem_cons_self (by omega)
    simp only [hmem, if_false, hrec]

theorem baseSpineFrom_of_le (hfuel : v.based.length + 1 ≤ fuel) :
    baseSpineFrom v lineage fuel lineage [lineage] = baseSpine v lineage := by
  obtain ⟨more, rfl⟩ := Nat.exists_eq_add_of_le hfuel
  exact baseSpineFrom_stable mem_cons_self (v.open_singleton_card_lt lineage) more

theorem baseSpine_congr {v' : View κ} (hbase : ∀ l, v'.base l = v.base l) (lineage : Lineage) :
    baseSpine v' lineage = baseSpine v lineage := by
  have hfrom (fuel : Nat) (start l : Lineage) (seen : List Lineage) :
      baseSpineFrom v' start fuel l seen = baseSpineFrom v start fuel l seen := by
    induction fuel generalizing l seen with
    | zero => rfl
    | succ fuel ih => simp only [baseSpineFrom, hbase, ih]
  rw [← baseSpineFrom_of_le (le_max_left (v'.based.length + 1) (v.based.length + 1)),
    ← baseSpineFrom_of_le (v := v) (le_max_right (v'.based.length + 1) (v.based.length + 1))]
  exact hfrom _ _ _ _

/-! ## Base cycles -/

/-- `Visits v L t seen l u`: resolving `(L, t)` comes to resolve `(l, u)`, having
visited the lineages `seen`. -/
inductive Visits (v : View κ) (lineage : Lineage) (target : Nat) :
    List Lineage → Lineage → Nat → Prop
  | start : Visits v lineage target [lineage] lineage target
  | through {seen l u b} : Visits v lineage target seen l u → v.base l = .ok (some b) →
      b.lineage ∉ seen → u ≤ b.txid → Visits v lineage target (b.lineage :: seen) b.lineage u
  | seam {seen l u b members x y} : Visits v lineage target seen l u →
      v.base l = .ok (some b) → b.lineage ∉ seen → b.txid < u → v.members l = .ok members →
      resolveSelf l u (listMembers members).1 (listMembers members).2 =
        .error (.noSnapshotCoversTarget x y) →
      Visits v lineage target (b.lineage :: seen) b.lineage b.txid

/-- A failure at a visited lineage is a failure of the whole resolution, with the
same innermost error. -/
theorem Visits.error {l : Lineage} {u : Nat} (hv : Visits v lineage target seen l u)
    (h : chainFrom v fuel l u seen = .error e) :
    ∃ e', chainFrom v (fuel + (seen.length - 1)) lineage target [lineage] = .error e' ∧
      e'.root = e.root := by
  induction hv generalizing fuel e with
  | start => exact ⟨e, h, rfl⟩
  | @through seen l u b hv hbase hnew hle ih =>
    have hstep : chainFrom v (fuel + 1) l u seen = .error e := by
      rw [chainFrom, hbase]
      simp only [hnew, if_false, hle, if_true, h]
    obtain ⟨e', he', hroot⟩ := ih hstep
    refine ⟨e', ?_, hroot⟩
    rwa [show fuel + ((b.lineage :: seen).length - 1) = fuel + 1 + (seen.length - 1) by
      cases hv <;> simp <;> omega]
  | @seam seen l u b members x y hv hbase hnew hlt hmembers hself ih =>
    have hstep : chainFrom v (fuel + 1) l u seen = .error (.resolvingBase l u b e) := by
      rw [chainFrom, hbase]
      simp only [hnew, if_false, Nat.not_le.mpr hlt, hmembers, hself, h]
    obtain ⟨e', he', hroot⟩ := ih hstep
    refine ⟨e', ?_, by rw [hroot, ChainErr.root]⟩
    rwa [show fuel + ((b.lineage :: seen).length - 1) = fuel + 1 + (seen.length - 1) by
      cases hv <;> simp <;> omega]

theorem chain_cycle {l : Lineage} {u : Nat} (hv : Visits v lineage target seen l u)
    (hbase : v.base l = .ok (some b)) (hcycle : b.lineage ∈ seen) :
    ∃ e, chain v lineage target = .error e ∧ e.root = .cycle l b.lineage := by
  have hstep : chainFrom v (v.based.length + 1) l u seen = .error (.cycle l b.lineage) := by
    rw [chainFrom, hbase]
    simp only [hcycle, if_true]
  obtain ⟨e, he, hroot⟩ := hv.error hstep
  refine ⟨e, ?_, hroot⟩
  rwa [chainFrom_of_le (by omega)] at he

/-! ## Runs -/

/-- The part of a chain that comes from one lineage. -/
structure Run (κ : Type) where
  lineage : Lineage
  members : List (ChainMember κ)

/-- `Through v L t l`: at txid `t`, `L` borrows from `l` through lineages that
contribute nothing there. -/
inductive Through (v : View κ) : Lineage → Nat → Lineage → Prop
  | refl (l : Lineage) (t : Nat) : Through v l t l
  | step {l t b l'} : v.base l = .ok (some b) → t ≤ b.txid → Through v b.lineage t l' →
      Through v l t l'

/-- Two consecutive runs: the second lineage's base pointer leads to the first,
and the runs meet at the base txid. -/
def Seam (v : View κ) (parent child : Run κ) : Prop :=
  ∃ b, v.base child.lineage = .ok (some b) ∧ Through v b.lineage b.txid parent.lineage ∧
    parent.members.getLast?.map (·.maxTXID) = some b.txid ∧
    child.members.head?.map (·.minTXID) = some (b.txid + 1)

def Collides (a b : ChainMember κ) : Prop :=
  a.byTXID = b.byTXID ∧ a.maxTXID = b.maxTXID ∧ (a.byTXID = false → a.minTXID = b.minTXID)

def Run.Winners (v : View κ) (r : Run κ) : Prop :=
  ∃ members, v.members r.lineage = .ok members ∧ ∀ m ∈ r.members,
    m ∈ keepHighestEpoch members ∧ ∀ c ∈ members, Collides c m → moreLive c m = false

/-- The runs a resolution of `(L, t)` is made of. -/
structure Spine (v : View κ) (lineage : Lineage) (target : Nat) (runs : List (Run κ)) :
    Prop where
  winners : ∀ r ∈ runs, r.members ≠ [] ∧ r.Winners v
  seams : runs.IsChain (Seam v)
  top : ∃ r, runs.getLast? = some r ∧ Through v lineage target r.lineage

/-- A chain in apply order: a snapshot, then segments without a hole, ending at
the target. -/
structure Contiguous (target : Nat) (members : List (ChainMember κ)) : Prop where
  anchor : ∃ base segs, members = base :: segs ∧ base.snapshot = true ∧
    ∀ m ∈ segs, m.snapshot = false
  contiguous : members.IsChain fun a b => b.minTXID = a.maxTXID + 1
  last : members.getLast?.map (·.maxTXID) = some target

theorem moreLive_of_mem_keepHighestEpoch {c : ChainMember κ} (hm : m ∈ keepHighestEpoch members)
    (hc : c ∈ members) (hcm : Collides c m) : moreLive c m = false := by
  rw [Bool.eq_false_iff, Ne, moreLive_iff, not_lt]
  obtain ⟨hby, hmax, hmin⟩ := hcm
  rcases mem_keepHighestEpoch.mp hm with ⟨t, hw⟩ | ⟨r, hw⟩
  · obtain ⟨-, ht, hb⟩ := winner_mem hw
    exact rank_le_winner hw hc (hby.trans hb) (hmax.trans ht)
  · obtain ⟨-, hr, hb⟩ := rangeWinner_mem hw
    have hcb : c.byTXID = false := hby.trans hb
    have hle := epoch_le_rangeWinner hw hc hcb
      (by rw [← hr, ChainMember.range, ChainMember.range, hmin hcb, hmax])
    have hsnap : ∀ {x : ChainMember κ}, x.byTXID = false → x.snapshot = false := by
      intro x hx
      simpa using (Bool.or_eq_false_iff.mp hx).1
    simp only [ChainMember.rank, hsnap hcb, hsnap hb, Bool.toNat_false]
    omega

theorem winners_of_mem (hv : v.members lineage = .ok members)
    (hrun : ∀ m ∈ run, m ∈ keepHighestEpoch members) : (Run.mk lineage run).Winners v :=
  ⟨members, hv, fun m hm => ⟨hrun m hm, fun _ hc hcm =>
    moreLive_of_mem_keepHighestEpoch (hrun m hm) hc hcm⟩⟩

theorem Anchored.spine (hv : v.members lineage = .ok members)
    (h : Anchored (listMembers members).1 (listMembers members).2 target run) :
    Contiguous target run ∧ Spine v lineage target [⟨lineage, run⟩] := by
  obtain ⟨⟨base, segs, rfl, hbase, hsegs⟩, hcont, hlast⟩ := h
  have hb := mem_listMembers_fst.mp hbase
  have hs := fun m hm => mem_listMembers_snd.mp (hsegs m hm)
  refine ⟨⟨⟨base, segs, rfl, hb.2, fun m hm => (hs m hm).2⟩, hcont, hlast⟩, ?_, by simp,
    ⟨_, rfl, .refl _ _⟩⟩
  simp only [mem_singleton, forall_eq]
  refine ⟨by simp, winners_of_mem hv fun m hm => ?_⟩
  rcases mem_cons.mp hm with rfl | hm
  · exact hb.1
  · exact (hs m hm).1

theorem Spine.through {runs : List (Run κ)} (hbase : v.base lineage = .ok (some b))
    (hle : target ≤ b.txid) (h : Spine v b.lineage target runs) : Spine v lineage target runs := by
  obtain ⟨r, hr, hthrough⟩ := h.top
  exact ⟨h.winners, h.seams, r, hr, .step hbase hle hthrough⟩

/-- Joining the base half and the child's own segments at the fork point. -/
theorem Spine.seam {runs : List (Run κ)} {parent segs : List (ChainMember κ)}
    (hbase : v.base lineage = .ok (some b)) (hv : v.members lineage = .ok members)
    (hparent : Contiguous b.txid parent) (h : Spine v b.lineage b.txid runs)
    (hflat : runs.flatMap (·.members) = parent)
    (hsegs : Segments (listMembers members).2 b.txid target segs) :
    Contiguous target (parent ++ segs) ∧ Spine v lineage target (runs ++ [⟨lineage, segs⟩]) := by
  obtain ⟨hmem, hcont, hhead, hlast⟩ := hsegs
  have hs := fun m hm => mem_listMembers_snd.mp (hmem m hm)
  have hne : segs ≠ [] := by rintro rfl; simp at hhead
  obtain ⟨base, psegs, hp, hsnap, hpsegs⟩ := hparent.anchor
  refine ⟨⟨⟨base, psegs ++ segs, by rw [hp]; rfl, hsnap, ?_⟩, ?_, ?_⟩, ?_, ?_, ?_⟩
  · intro m hm
    rcases mem_append.mp hm with hm | hm
    · exact hpsegs m hm
    · exact (hs m hm).2
  · refine isChain_append.mpr ⟨hparent.contiguous, hcont, ?_⟩
    intro x hx y hy
    have hxmax : x.maxTXID = b.txid := by simpa [Option.mem_def.mp hx] using hparent.last
    have hymin : y.minTXID = b.txid + 1 := by simpa [Option.mem_def.mp hy] using hhead
    omega
  · rw [List.getLast?_append_of_ne_nil _ hne, hlast]
  · intro r hr
    rcases mem_append.mp hr with hr | hr
    · exact h.winners r hr
    · rw [mem_singleton.mp hr]
      exact ⟨hne, winners_of_mem hv fun m hm => (hs m hm).1⟩
  · refine isChain_append.mpr ⟨h.seams, by simp, ?_⟩
    intro r hr c hc
    obtain ⟨r', hr', hthrough⟩ := h.top
    have hrr : r' = r := by rw [Option.mem_def, hr'] at hr; exact Option.some.inj hr
    subst hrr
    have hcc : c = ⟨lineage, segs⟩ := by simpa using hc.symm
    subst hcc
    refine ⟨b, hbase, hthrough, ?_, hhead⟩
    -- the last run ends where the parent chain ends
    have hrun := (h.winners r' (mem_of_getLast? hr')).1
    have hsplit : runs = runs.dropLast ++ [r'] := by
      rw [← dropLast_append_getLast? r' hr']
      simp
    rw [← hparent.last, ← hflat, hsplit, flatMap_append, flatMap_singleton,
      List.getLast?_append_of_ne_nil _ hrun]
  · exact ⟨⟨lineage, segs⟩, by simp, .refl _ _⟩

/-- What `chainFrom` returns.  The lineages behind it are the one it starts in
and lineages not seen before, which is what keeps a chain that is anchored in
`lineage` itself from leaving it. -/
theorem chainFrom_ok {c : List (ChainMember κ)} (hseen : lineage ∈ seen)
    (h : chainFrom v fuel lineage target seen = .ok c) :
    ∃ runs : List (Run κ), c = runs.flatMap (·.members) ∧ Contiguous target c ∧
      Spine v lineage target runs ∧ (∀ r ∈ runs, r.lineage = lineage ∨ r.lineage ∉ seen) ∧
      (∀ r, runs.head? = some r → r.lineage = lineage → runs = [r]) := by
  induction fuel generalizing lineage target seen c with
  | zero => cases h
  | succ fuel ih =>
    have hown : ∀ {members}, v.members lineage = .ok members →
        resolveSelf lineage target (listMembers members).1 (listMembers members).2 = .ok c →
        ∃ runs : List (Run κ), c = runs.flatMap (·.members) ∧ Contiguous target c ∧
          Spine v lineage target runs ∧ (∀ r ∈ runs, r.lineage = lineage ∨ r.lineage ∉ seen) ∧
          (∀ r, runs.head? = some r → r.lineage = lineage → runs = [r]) := by
      intro members hv hself
      obtain ⟨hcont, hspine⟩ := (resolveSelf_ok hself).spine hv
      exact ⟨[⟨lineage, c⟩], by simp, hcont, hspine, by simp, by simp +contextual⟩
    rw [chainFrom] at h
    split at h
    · cases h
    · unfold chainSelf at h
      split at h
      · cases h
      · exact hown ‹_› h
    rename_i b hbase
    split at h
    · cases h
    -- a base half never comes back to this lineage
    have hfresh : ∀ {r : Run κ}, r.lineage = b.lineage ∨ r.lineage ∉ b.lineage :: seen →
        r.lineage ∉ seen := by
      rintro r (hr | hr)
      · rwa [hr]
      · exact fun hmem => hr (mem_cons_of_mem _ hmem)
    split at h
    · rename_i hle
      obtain ⟨runs, hflat, hcont, hspine, hlin, -⟩ := ih mem_cons_self h
      refine ⟨runs, hflat, hcont, hspine.through hbase hle, fun r hr => .inr (hfresh (hlin r hr)),
        fun r hr hrl => ?_⟩
      exact absurd hseen (hrl ▸ hfresh (hlin r (mem_of_mem_head? hr)))
    split at h
    · cases h
    rename_i members hmembers
    split at h
    · rename_i hself
      rw [← Except.ok.inj h] at hown
      exact Except.ok.inj h ▸ hown hmembers hself
    · split at h
      · cases h
      rename_i parent hparent
      split at h
      · cases h
      rename_i segs hsegs
      split at h
      · obtain ⟨runs, hflat, hcont, hspine, hlin, -⟩ := ih mem_cons_self hparent
        obtain ⟨hcont', hspine'⟩ := hspine.seam hbase hmembers hcont hflat.symm (walk_ok hsegs)
        rw [← Except.ok.inj h]
        refine ⟨runs ++ [⟨lineage, segs⟩], by simp [hflat], hcont', hspine', ?_, ?_⟩
        · intro r hr
          rcases mem_append.mp hr with hr | hr
          · exact .inr (hfresh (hlin r hr))
          · exact .inl (by rw [mem_singleton.mp hr])
        · intro r hr hrl
          cases runs with
          | nil => simpa using hr
          | cons r' runs =>
            have hrr : r' = r := by simpa using hr
            exact absurd hseen (hrl ▸ hfresh (hlin r (by simp [hrr])))
      · cases h
    · cases h

/-! ## Where the members of a chain are read -/

theorem walk_le (h : walk hole short floor target prevMax segments = .ok run) (hm : m ∈ run) :
    m.maxTXID ≤ target := by
  induction segments generalizing prevMax run with
  | nil => cases h
  | cons seg rest ih =>
    rw [walk] at h
    split at h
    · exact ih h hm
    split at h
    · cases h
    split at h
    · rename_i heq
      cases h
      rw [mem_singleton.mp hm]
      exact heq.le
    split at h
    · cases h
    rename_i hlt
    cases hrest : walk hole short floor target seg.maxTXID rest with
    | error e => simp [hrest, Except.map] at h
    | ok tail =>
      obtain rfl : seg :: tail = run := by simpa [hrest, Except.map] using h
      rcases mem_cons.mp hm with rfl | hm
      · exact Nat.le_of_not_lt hlt
      · exact ih hrest hm

theorem resolveSelf_le (h : resolveSelf lineage target snapshots segments = .ok run)
    (hm : m ∈ run) : m.maxTXID ≤ target := by
  unfold resolveSelf at h
  split at h
  · cases h
  rename_i base hbase
  have hle : base.maxTXID ≤ target := by simpa using List.find?_some hbase
  split at h
  · cases h
    rw [mem_singleton.mp hm]
    exact hle
  · cases hw : walk (.hole lineage target) (.noContiguousRun lineage target) id target
        base.maxTXID segments with
    | error e => simp [hw, Except.map] at h
    | ok segs =>
      obtain rfl : base :: segs = run := by simpa [hw, Except.map] using h
      rcases mem_cons.mp hm with rfl | hm
      · exact hle
      · exact walk_le hw hm

/-- Whatever holds of the start of a resolution and of every base pointer, downwards,
holds of every lineage a chain reads from and the txids it reads there; and each member
is live in its lineage. -/
theorem chainFrom_mem {P : Lineage → Nat → Prop} (hdown : ∀ {l t t'}, P l t → t' ≤ t → P l t')
    (hbase : ∀ {l b}, v.base l = .ok (some b) → P b.lineage b.txid) {c : List (ChainMember κ)}
    (hP : P lineage target) (h : chainFrom v fuel lineage target seen = .ok c) (hm : m ∈ c) :
    ∃ l members, v.members l = .ok members ∧ m ∈ keepHighestEpoch members ∧ P l m.maxTXID := by
  induction fuel generalizing lineage target seen c with
  | zero => cases h
  | succ fuel ih =>
    have hown {members c : List (ChainMember κ)} (hv : v.members lineage = .ok members)
        (hself : resolveSelf lineage target (listMembers members).1 (listMembers members).2 = .ok c)
        (hm : m ∈ c) :
        ∃ l members, v.members l = .ok members ∧ m ∈ keepHighestEpoch members ∧ P l m.maxTXID := by
      refine ⟨lineage, members, hv, ?_, hdown hP (resolveSelf_le hself hm)⟩
      obtain ⟨base, segs, rfl, hb, hsegs⟩ := (resolveSelf_ok hself).anchor
      rcases mem_cons.mp hm with rfl | hm
      · exact (mem_listMembers_fst.mp hb).1
      · exact (mem_listMembers_snd.mp (hsegs m hm)).1
    rw [chainFrom] at h
    split at h
    · cases h
    · unfold chainSelf at h
      split at h
      · cases h
      · exact hown ‹_› h hm
    rename_i b hb
    split at h
    · cases h
    split at h
    · rename_i hle
      exact ih (hdown (hbase hb) hle) h hm
    split at h
    · cases h
    rename_i members hmembers
    split at h
    · rename_i hself
      exact hown hmembers (hself.trans h) hm
    · split at h
      · cases h
      rename_i parent hparent
      split at h
      · cases h
      rename_i segs hsegs
      split at h
      · cases h
        rcases mem_append.mp hm with hm | hm
        · exact ih (hbase hb) hparent hm
        · refine ⟨lineage, members, hmembers, ?_, hdown hP (walk_le hsegs hm)⟩
          exact (mem_listMembers_snd.mp ((walk_ok hsegs).mem m hm)).1
      · cases h
    · cases h

/-- The resolver on an arbitrary store.  It terminates: its recursion bound is
never reported and a larger one changes nothing.  A base cycle it walks into is
an error.  A chain it returns is contiguous, is anchored on a snapshot, ends at
the target, is made of collapse winners, and splits into one run per lineage
along the base pointers, joined at the fork points; if its first run is the
lineage's own then it is the only one. -/
theorem chain_sound (v : View κ) (lineage : Lineage) (target : Nat) :
    (∀ e, chain v lineage target = .error e → e.root ≠ .exhausted) ∧
    (∀ fuel, v.based.length + 1 ≤ fuel →
      chainFrom v fuel lineage target [lineage] = chain v lineage target) ∧
    (∀ seen l u b, Visits v lineage target seen l u → v.base l = .ok (some b) →
      b.lineage ∈ seen → ∃ e, chain v lineage target = .error e ∧ e.root = .cycle l b.lineage) ∧
    ∀ c, chain v lineage target = .ok c →
      ∃ runs : List (Run κ), c = runs.flatMap (·.members) ∧ Contiguous target c ∧
        Spine v lineage target runs ∧
        ∀ r, runs.head? = some r → r.lineage = lineage → runs = [r] := by
  refine ⟨fun e he => chainFrom_error_root mem_cons_self (v.open_singleton_card_lt lineage) he,
    fun fuel hfuel => chainFrom_of_le hfuel, fun seen l u b => chain_cycle, fun c hc => ?_⟩
  obtain ⟨runs, hflat, hcont, hspine, -, hown⟩ := chainFrom_ok mem_cons_self hc
  exact ⟨runs, hflat, hcont, hspine, hown⟩

end Offshoot
