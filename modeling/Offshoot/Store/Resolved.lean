import Offshoot.Lib.SortedList
import Offshoot.Store.ChainSound

/-!
# Resolution as a relation

On the stores the writers produce, every segment covers one txid and a forked
lineage holds nothing at or below its fork point.  There `chain` has a simple
meaning, one txid at a time: the chain at `t` ends with the live member at `t`,
which stands alone if it is a snapshot and extends the chain at `t - 1` if it is
a segment, and at or below the fork point it is the base's chain.  `Resolved` is
that relation, and `chain` computes it in both directions.

The relation mentions the winner of each txid it passes and nothing else, so
objects that win elsewhere, or do not win, cannot matter to it.
-/

namespace Offshoot

open List

variable {κ : Type}

/-- The shape of a store no writer departs from. -/
structure Tidy (v : View κ) : Prop where
  single : ∀ {l members m}, v.members l = .ok members → m ∈ members → m.snapshot = false →
    m.minTXID = m.maxTXID
  above : ∀ {l members m b}, v.members l = .ok members → v.base l = .ok (some b) → m ∈ members →
    b.txid < m.maxTXID

/-- The live member of a lineage at a txid of its own, above its fork point. -/
structure Own (v : View κ) (l : Lineage) (t : Nat) (m : ChainMember κ) : Prop where
  live : ∃ members, v.members l = .ok members ∧ winner members t = some m
  above : ∃ base, v.base l = .ok base ∧ ∀ b, base = some b → b.txid < t

/-- `Resolved v l t c`: the chain of `l` at `t` is `c`. -/
inductive Resolved (v : View κ) : Lineage → Nat → List (ChainMember κ) → Prop
  | snapshot {l t m} : Own v l t m → m.snapshot = true → Resolved v l t [m]
  | segment {l t m c} : Own v l (t + 1) m → m.snapshot = false → Resolved v l t c →
      Resolved v l (t + 1) (c ++ [m])
  | through {l t b c} : v.base l = .ok (some b) → t ≤ b.txid → Resolved v b.lineage t c →
      Resolved v l t c

/-- The walk along base pointers out of `l` ends, meeting no lineage of `seen`. -/
inductive Walkable (v : View κ) : Lineage → List Lineage → Prop
  | stop {l seen} : v.base l = .ok none → Walkable v l seen
  | step {l seen b} : v.base l = .ok (some b) → b.lineage ∉ seen →
      Walkable v b.lineage (b.lineage :: seen) → Walkable v l seen

/-! ## One lineage -/

def Single (members : List (ChainMember κ)) : Prop :=
  ∀ m ∈ members, m.snapshot = false → m.minTXID = m.maxTXID

variable {m : ChainMember κ} {members : List (ChainMember κ)}

theorem Single.byTXID (h : Single members) (hm : m ∈ members) : m.byTXID = true := by
  cases hs : m.snapshot with
  | true => simp [ChainMember.byTXID, hs]
  | false => simp [ChainMember.byTXID, h m hm hs]

theorem Single.mem_live (h : Single members) :
    m ∈ keepHighestEpoch members ↔ winner members m.maxTXID = some m := by
  rw [mem_keepHighestEpoch]
  constructor
  · rintro (⟨t, hw⟩ | ⟨r, hw⟩)
    · rwa [(winner_mem hw).2.1]
    · obtain ⟨hmem, -, hby⟩ := rangeWinner_mem hw
      rw [h.byTXID hmem] at hby
      cases hby
  · exact fun hw => .inl ⟨_, hw⟩

theorem Single.nodup_live (h : Single members) :
    ((keepHighestEpoch members).map (·.maxTXID)).Nodup := by
  have hnone : members.filter (!·.byTXID) = [] := by
    refine filter_eq_nil_iff.mpr fun m hm => ?_
    simp [h.byTXID hm]
  have hfold : KeepBest.Filed (·.maxTXID) ((members.filter (·.byTXID)).foldl
      (KeepBest.keep (·.maxTXID) moreLive) ∅) := KeepBest.Filed.empty.foldl_keep _
  rw [keepHighestEpoch, foldl_collapseStep, hnone]
  simpa [Maps.values] using hfold.nodup_map

theorem Single.snapshots_sorted (h : Single members) :
    (listMembers members).1.Pairwise fun a b => a.maxTXID < b.maxTXID := by
  refine SortedList.pairwise_lt (fun a b hab => hab) (pairwise_listMembers_fst members) ?_
  rw [listMembers, ((perm_insertionSort snapshotLE _).map _).nodup_iff]
  exact h.nodup_live.sublist (filter_sublist.map _)

theorem Single.segments_sorted (h : Single members) :
    (listMembers members).2.Pairwise fun a b => a.maxTXID < b.maxTXID := by
  refine SortedList.pairwise_lt (r := segmentLE) (fun a b hab => ?_)
    (pairwise_listMembers_snd members) ?_
  · rcases hab with hab | hab <;> omega
  · rw [listMembers, ((perm_insertionSort segmentLE _).map _).nodup_iff]
    exact h.nodup_live.sublist (filter_sublist.map _)

/-- `SegRun members lo run`: `run` lists the live members at `lo + 1, lo + 2, …`,
all of them segments. -/
def SegRun (members : List (ChainMember κ)) : Nat → List (ChainMember κ) → Prop
  | _, [] => True
  | lo, m :: run => winner members (lo + 1) = some m ∧ m.snapshot = false ∧
      SegRun members (lo + 1) run

variable {run : List (ChainMember κ)} {lo : Nat}

theorem SegRun.append (h : SegRun members lo run)
    (hw : winner members (lo + run.length + 1) = some m) (hs : m.snapshot = false) :
    SegRun members lo (run ++ [m]) := by
  induction run generalizing lo with
  | nil => exact ⟨by simpa using hw, hs, trivial⟩
  | cons a run ih =>
    obtain ⟨ha, has, hrun⟩ := h
    refine ⟨ha, has, ih hrun ?_⟩
    rwa [show lo + 1 + run.length + 1 = lo + (a :: run).length + 1 by simp; omega]

theorem SegRun.lt_maxTXID (h : SegRun members lo run) (hm : m ∈ run) : lo < m.maxTXID := by
  induction run generalizing lo with
  | nil => simp at hm
  | cons a run ih =>
    obtain ⟨ha, -, hrun⟩ := h
    rcases mem_cons.mp hm with rfl | hm
    · have := (winner_mem ha).2.1
      omega
    · have := ih hrun hm
      omega

theorem SegRun.mem_segments (hrun : SegRun members lo run)
    (hm : m ∈ run) : m ∈ (listMembers members).2 := by
  induction run generalizing lo with
  | nil => simp at hm
  | cons a run ih =>
    obtain ⟨ha, has, hrun⟩ := hrun
    rcases mem_cons.mp hm with rfl | hm
    · exact mem_listMembers_snd.mpr ⟨mem_keepHighestEpoch.mpr (.inl ⟨_, ha⟩), has⟩
    · exact ih hrun hm

theorem walk_segRun {hole : κ → Nat → Nat → ChainErr κ}
    {short : Nat → ChainErr κ} {floor : Nat → Nat} {segments : List (ChainMember κ)}
    (hsingle : ∀ m ∈ segments, m.minTXID = m.maxTXID)
    (hsorted : segments.Pairwise fun a b => a.maxTXID < b.maxTXID) (hrun : SegRun members lo run)
    (hsub : ∀ m ∈ run, m ∈ segments) (hne : run ≠ []) (hfloor : ∀ p, lo ≤ p → floor p ≤ p)
    (hskip : ∀ m ∈ segments, m.maxTXID ≤ lo → m.maxTXID ≤ floor lo) :
    walk hole short floor (lo + run.length) lo segments = .ok run := by
  induction segments generalizing lo run with
  | nil =>
    cases run with
    | nil => exact absurd rfl hne
    | cons m run => simpa using hsub m
  | cons seg rest ih =>
    cases run with
    | nil => exact absurd rfl hne
    | cons m run =>
      have hw := hrun.1
      have hmax : m.maxTXID = lo + 1 := (winner_mem hw).2.1
      have hfl := hfloor lo le_rfl
      have hsingle' : ∀ m ∈ rest, m.minTXID = m.maxTXID :=
        fun x hx => hsingle x (mem_cons_of_mem _ hx)
      rw [walk]
      by_cases hle : seg.maxTXID ≤ lo
      · -- at or below the walk: passed over
        have hrest : ∀ x ∈ m :: run, x ∈ rest := by
          intro x hx
          have hlt := hrun.lt_maxTXID hx
          rcases mem_cons.mp (hsub x hx) with rfl | hx
          · omega
          · exact hx
        rw [if_pos (hskip seg mem_cons_self hle)]
        exact ih hsingle' hsorted.of_cons hrun hrest hne hfloor
          fun x hx => hskip x (mem_cons_of_mem _ hx)
      · -- the first segment above the walk is the live one at the next txid
        have hseg : m = seg := SortedList.eq_head_of_mem hsorted (Nat.lt_of_not_le hle)
          (hsub m mem_cons_self) hmax
        subst hseg
        have hmin : m.minTXID = lo + 1 := (hsingle m mem_cons_self).trans hmax
        rw [if_neg (by omega), if_neg (by simpa using hmin)]
        cases run with
        | nil => simp [hmax]
        | cons next run =>
          have hgt : ∀ x ∈ rest, m.maxTXID < x.maxTXID :=
            fun x hx => rel_of_pairwise_cons hsorted hx
          have hrest : ∀ x ∈ next :: run, x ∈ rest := by
            intro x hx
            have hlt := hrun.2.2.lt_maxTXID hx
            rcases mem_cons.mp (hsub x (mem_cons_of_mem _ hx)) with rfl | hx
            · omega
            · exact hx
          have hrec := ih hsingle' hsorted.of_cons hrun.2.2 hrest (by simp)
            (fun p hp => hfloor p (by omega)) (fun x hx hxle => by have := hgt x hx; omega)
          rw [show lo + 1 + (next :: run).length = lo + (m :: next :: run).length by simp; omega]
            at hrec
          rw [if_neg (by simp [hmax]), if_neg (by simp [hmax]), hmax, hrec]
          rfl

theorem Single.segment_single (h : Single members)
    (hm : m ∈ (listMembers members).2) : m.minTXID = m.maxTXID := by
  obtain ⟨hlive, hs⟩ := mem_listMembers_snd.mp hm
  exact h m (winner_mem (h.mem_live.mp hlive)).1 hs

theorem SegRun.snapshot_le (h : SegRun members lo run)
    (hw : winner members m.maxTXID = some m) (hs : m.snapshot = true)
    (hle : m.maxTXID ≤ lo + run.length) : m.maxTXID ≤ lo := by
  induction run generalizing lo with
  | nil => simpa using hle
  | cons a run ih =>
    obtain ⟨ha, has, hrun⟩ := h
    have hnext := ih hrun (by simp at hle; omega)
    rcases lt_or_ge lo m.maxTXID with hlt | hge
    · have heq : m.maxTXID = lo + 1 := by omega
      rw [heq, ha, Option.some.injEq] at hw
      rw [hw, hs] at has
      cases has
    · exact hge

variable {l : Lineage}

theorem resolveSelf_segRun (h : Single members)
    {base : ChainMember κ} (hw : winner members base.maxTXID = some base)
    (hs : base.snapshot = true) (hrun : SegRun members base.maxTXID run) :
    resolveSelf l (base.maxTXID + run.length) (listMembers members).1 (listMembers members).2 =
      .ok (base :: run) := by
  have hfind : (listMembers members).1.reverse.find?
      (·.maxTXID ≤ base.maxTXID + run.length) = some base := by
    refine SortedList.find?_reverse h.snapshots_sorted
      (mem_listMembers_fst.mpr ⟨h.mem_live.mpr hw, hs⟩) (Nat.le_add_right _ _) fun x hx hle => ?_
    obtain ⟨hx, hxs⟩ := mem_listMembers_fst.mp hx
    exact hrun.snapshot_le (h.mem_live.mp hx) hxs hle
  rw [resolveSelf, hfind]
  cases run with
  | nil => simp
  | cons m run =>
    have hwalk : walk (.hole l (base.maxTXID + (m :: run).length))
        (.noContiguousRun l (base.maxTXID + (m :: run).length)) id
        (base.maxTXID + (m :: run).length) base.maxTXID (listMembers members).2 =
        .ok (m :: run) := walk_segRun (fun x hx => h.segment_single hx) h.segments_sorted hrun
      (fun x hx => hrun.mem_segments hx) (by simp) (fun p _ => le_rfl) (fun x _ hx => hx)
    dsimp only
    rw [if_neg (by simp), hwalk]
    rfl

/-- Live segments right above a fork point, with no member at or below it. -/
theorem resolveRange_segRun (h : Single members)
    (habove : ∀ m ∈ members, lo < m.maxTXID) (hrun : SegRun members lo run) (hne : run ≠ []) :
    resolveSelf l (lo + run.length) (listMembers members).1 (listMembers members).2 =
        .error (.noSnapshotCoversTarget l (lo + run.length)) ∧
      resolveRange l lo (lo + run.length) (listMembers members).2 = .ok run := by
  constructor
  · have hfind : (listMembers members).1.reverse.find? (·.maxTXID ≤ lo + run.length) = none := by
      refine List.find?_eq_none.mpr fun x hx => ?_
      obtain ⟨hx, hxs⟩ := mem_listMembers_fst.mp (mem_reverse.mp hx)
      have hw := h.mem_live.mp hx
      have hlo := habove x (winner_mem hw).1
      intro hle
      have := hrun.snapshot_le hw hxs (by simpa using hle)
      omega
    rw [resolveSelf, hfind]
  · exact walk_segRun (fun x hx => h.segment_single hx) h.segments_sorted hrun
      (fun x hx => hrun.mem_segments hx) hne (fun p hp => hp)
      (fun x hx hxle => hxle)

/-! ## From the relation to the resolver -/

variable {v : View κ} {t : Nat} {c : List (ChainMember κ)}

theorem Resolved.of_le_base {b : BasePointer} (h : Resolved v l t c)
    (hbase : v.base l = .ok (some b)) (hle : t ≤ b.txid) : Resolved v b.lineage t c := by
  have hown : ∀ {t m}, Own v l t m → b.txid < t := by
    intro t m hown
    obtain ⟨base, hb, hlt⟩ := hown.above
    exact hlt b (by rw [hbase] at hb; exact (Except.ok.inj hb).symm)
  cases h with
  | snapshot ho _ => exact absurd (hown ho) (by omega)
  | segment ho _ _ => exact absurd (hown ho) (by omega)
  | through hb _ hres =>
    rw [hbase, Except.ok.injEq, Option.some.injEq] at hb
    exact hb ▸ hres

variable {base : Option BasePointer}

/-- A resolution above the fork point, split at the lineage's own last snapshot
or, when it has none, at the fork point. -/
theorem Resolved.split (hv : v.members l = .ok members)
    (h : Resolved v l t c) (hbase : v.base l = .ok base)
    (habove : ∀ b, base = some b → b.txid < t) :
    (∃ m run, c = m :: run ∧ m.snapshot = true ∧ winner members m.maxTXID = some m ∧
        SegRun members m.maxTXID run ∧ t = m.maxTXID + run.length) ∨
      ∃ b parent run, base = some b ∧ c = parent ++ run ∧ run ≠ [] ∧
        Resolved v b.lineage b.txid parent ∧ SegRun members b.txid run ∧
        t = b.txid + run.length := by
  induction h with
  | @snapshot l t m hown hs =>
    obtain ⟨⟨members', hv', hw⟩, -⟩ := hown
    obtain rfl : members' = members := by rw [hv] at hv'; exact (Except.ok.inj hv').symm
    have hmax := (winner_mem hw).2.1
    exact .inl ⟨m, [], rfl, hs, by rwa [hmax], trivial, by simp [hmax]⟩
  | @segment l t m c hown hs hprev ih =>
    obtain ⟨⟨members', hv', hw⟩, -⟩ := hown
    obtain rfl : members' = members := by rw [hv] at hv'; exact (Except.ok.inj hv').symm
    by_cases hfork : ∃ b, base = some b ∧ b.txid = t
    · -- the first segment above the fork point
      obtain ⟨b, rfl, rfl⟩ := hfork
      exact .inr ⟨b, c, [m], rfl, rfl, by simp, hprev.of_le_base hbase le_rfl,
        ⟨hw, hs, trivial⟩, by simp⟩
    · have habove' : ∀ b, base = some b → b.txid < t := by
        intro b hb
        have := habove b hb
        rcases lt_or_ge b.txid t with hlt | hge
        · exact hlt
        · exact absurd ⟨b, hb, by omega⟩ hfork
      rcases ih hv hbase habove' with
        ⟨a, run, rfl, has, haw, hrun, ht⟩ | ⟨b, parent, run, hb, rfl, hne, hres, hrun, ht⟩
      · exact .inl ⟨a, run ++ [m], rfl, has, haw, hrun.append (ht ▸ hw) hs, by simp [ht]; omega⟩
      · exact .inr ⟨b, parent, run ++ [m], hb, by simp, by simp, hres,
          hrun.append (ht ▸ hw) hs, by simp [ht]; omega⟩
  | @through l t b c hb hle hres ih =>
    rw [hbase, Except.ok.injEq] at hb
    exact absurd (habove b hb) (by omega)

theorem Tidy.isSingle (hv : Tidy v) (h : v.members l = .ok members) : Single members :=
  fun _ hm hs => hv.single h hm hs

theorem Resolved.exists_members (h : Resolved v l t c)
    (habove : ∀ b, v.base l = .ok (some b) → b.txid < t) :
    ∃ members, v.members l = .ok members := by
  cases h with
  | snapshot ho _ => exact ⟨_, ho.live.choose_spec.1⟩
  | segment ho _ _ => exact ⟨_, ho.live.choose_spec.1⟩
  | through hb hle _ => exact absurd (habove _ hb) (by omega)

theorem Resolved.getLast? (h : Resolved v l t c) : c.getLast?.map (·.maxTXID) = some t := by
  induction h with
  | snapshot ho _ =>
    obtain ⟨_, _, hw⟩ := ho.live
    simp [(winner_mem hw).2.1]
  | segment ho _ _ _ =>
    obtain ⟨_, _, hw⟩ := ho.live
    simp [(winner_mem hw).2.1]
  | through _ _ _ ih => exact ih

variable {seen : List Lineage}

/-- The resolver finds every resolution, along a base walk that ends. -/
theorem Resolved.chainFrom (hv : Tidy v) (hw : Walkable v l seen) (h : Resolved v l t c) :
    ∃ n, ∀ fuel, n ≤ fuel → chainFrom v fuel l t seen = .ok c := by
  induction hw generalizing t c with
  | @stop l seen hbase =>
    obtain ⟨members, hm⟩ := h.exists_members (by simp [hbase])
    rcases h.split hm hbase (by simp) with ⟨m, run, rfl, hs, hwin, hrun, rfl⟩ | ⟨b, _, _, hb, _⟩
    · refine ⟨1, fun fuel hfuel => ?_⟩
      obtain ⟨fuel, rfl⟩ := Nat.exists_eq_add_of_le' hfuel
      simp only [Offshoot.chainFrom, hbase, chainSelf, hm]
      exact resolveSelf_segRun (hv.isSingle hm) hwin hs hrun
    · cases hb
  | @step l seen b hbase hnew hw ih =>
    by_cases hle : t ≤ b.txid
    · obtain ⟨n, hn⟩ := ih (h.of_le_base hbase hle)
      refine ⟨n + 1, fun fuel hfuel => ?_⟩
      obtain ⟨fuel, rfl⟩ := Nat.exists_eq_add_of_le' (le_trans (Nat.le_add_left 1 n) hfuel)
      simp only [Offshoot.chainFrom, hbase, hnew, if_false, hle, if_true]
      exact hn fuel (by omega)
    · have habove : ∀ b', some b = some b' → b'.txid < t := by
        rintro _ ⟨rfl⟩
        omega
      obtain ⟨members, hm⟩ := h.exists_members (by
        intro b' hb'
        exact habove b' (by rw [hbase] at hb'; exact Except.ok.inj hb'))
      rcases h.split hm hbase habove with ⟨m, run, rfl, hs, hwin, hrun, rfl⟩ |
        ⟨b', parent, run, hb', rfl, hne, hparent, hrun, rfl⟩
      · refine ⟨1, fun fuel hfuel => ?_⟩
        obtain ⟨fuel, rfl⟩ := Nat.exists_eq_add_of_le' hfuel
        simp only [Offshoot.chainFrom, hbase, hnew, if_false, hle, hm,
          resolveSelf_segRun (hv.isSingle hm) hwin hs hrun]
      · obtain rfl : b = b' := Option.some.inj hb'
        obtain ⟨n, hn⟩ := ih hparent
        obtain ⟨hself, hrange⟩ := resolveRange_segRun (l := l) (hv.isSingle hm)
          (fun m hmem => hv.above hm hbase hmem) hrun hne
        refine ⟨n + 1, fun fuel hfuel => ?_⟩
        obtain ⟨fuel, rfl⟩ := Nat.exists_eq_add_of_le' (le_trans (Nat.le_add_left 1 n) hfuel)
        simp only [Offshoot.chainFrom, hbase, hnew, if_false, hle, hm, hself, hrange,
          hn fuel (by omega), hparent.getLast?, if_true]

theorem Resolved.chain (hv : Tidy v) (hw : Walkable v l [l]) (h : Resolved v l t c) :
    chain v l t = .ok c := by
  obtain ⟨n, hn⟩ := h.chainFrom hv hw
  rw [← chainFrom_of_le (le_max_left (v.based.length + 1) n)]
  exact hn _ (le_max_right _ _)

/-! ## From the resolver to the relation -/

theorem Segments.segRun (h : Single members) {hi : Nat}
    (hrun : Segments (listMembers members).2 lo hi run) :
    SegRun members lo run ∧ hi = lo + run.length := by
  obtain ⟨hmem, hcont, hhead, hlast⟩ := hrun
  induction run generalizing lo with
  | nil => simp at hhead
  | cons m run ih =>
    obtain ⟨hlive, hs⟩ := mem_listMembers_snd.mp (hmem m mem_cons_self)
    have hmax : m.maxTXID = lo + 1 := by
      rw [← h.segment_single (hmem m mem_cons_self)]
      simpa using hhead
    have hw : winner members (lo + 1) = some m := hmax ▸ h.mem_live.mp hlive
    cases run with
    | nil => exact ⟨⟨hw, hs, trivial⟩, by simpa [hmax] using hlast.symm⟩
    | cons next run =>
      obtain ⟨hnext, hcont'⟩ := isChain_cons_cons.mp hcont
      have hhead' : (next :: run).head?.map (·.minTXID) = some (lo + 1 + 1) := by
        simp [hnext, hmax]
      obtain ⟨hrun, hhi⟩ := ih (fun x hx => hmem x (mem_cons_of_mem _ hx)) hcont' hhead'
        (by simpa using hlast)
      exact ⟨⟨hw, hs, hrun⟩, by simp at hhi ⊢; omega⟩

theorem Resolved.append (hm : v.members l = .ok members)
    (hbase : v.base l = .ok base) (habove : ∀ b, base = some b → b.txid ≤ t) (h : Resolved v l t c)
    (hrun : SegRun members t run) : Resolved v l (t + run.length) (c ++ run) := by
  induction run generalizing t c with
  | nil => simpa using h
  | cons m run ih =>
    obtain ⟨hw, hs, hrun⟩ := hrun
    have hstep : Resolved v l (t + 1) (c ++ [m]) :=
      .segment ⟨⟨members, hm, hw⟩, base, hbase, fun b hb => Nat.lt_succ_of_le (habove b hb)⟩ hs h
    have := ih (fun b hb => Nat.le_succ_of_le (habove b hb)) hstep hrun
    rw [show t + (m :: run).length = t + 1 + run.length by simp; omega]
    simpa using this

theorem Resolved.of_resolveSelf (hv : Tidy v)
    (hm : v.members l = .ok members) (hbase : v.base l = .ok base)
    (h : resolveSelf l t (listMembers members).1 (listMembers members).2 = .ok c) :
    Resolved v l t c := by
  obtain ⟨⟨m, segs, rfl, hmem, hsegs⟩, hcont, hlast⟩ := resolveSelf_ok h
  obtain ⟨hlive, hs⟩ := mem_listMembers_fst.mp hmem
  have hw := (hv.isSingle hm).mem_live.mp hlive
  have habove : ∀ b, base = some b → b.txid < m.maxTXID := fun b hb =>
    hv.above hm (hb ▸ hbase) (winner_mem hw).1
  have hanchor : Resolved v l m.maxTXID [m] := .snapshot ⟨⟨members, hm, hw⟩, base, hbase, habove⟩ hs
  cases segs with
  | nil =>
    obtain rfl : m.maxTXID = t := by simpa using hlast
    exact hanchor
  | cons seg segs =>
    obtain ⟨hnext, hcont'⟩ := isChain_cons_cons.mp hcont
    obtain ⟨hrun, rfl⟩ := Segments.segRun (hv.isSingle hm)
      ⟨hsegs, hcont', by simpa using hnext, by simpa using hlast⟩
    exact hanchor.append hm hbase (fun b hb => (habove b hb).le) hrun

variable {fuel : Nat}

theorem Resolved.of_chainFrom (hv : Tidy v) (h : Offshoot.chainFrom v fuel l t seen = .ok c) :
    Resolved v l t c := by
  induction fuel generalizing l t seen c with
  | zero => cases h
  | succ fuel ih =>
    rw [Offshoot.chainFrom] at h
    split at h
    · cases h
    · rename_i hbase
      unfold chainSelf at h
      split at h
      · cases h
      · exact .of_resolveSelf hv ‹_› hbase h
    rename_i b hbase
    split at h
    · cases h
    split at h
    · exact .through hbase ‹_› (ih h)
    split at h
    · cases h
    rename_i members hm
    split at h
    · rename_i hself
      exact Except.ok.inj h ▸ .of_resolveSelf hv hm hbase hself
    · split at h
      · cases h
      rename_i parent hparent
      split at h
      · cases h
      rename_i segs hsegs
      split at h
      · obtain ⟨hrun, rfl⟩ := (walk_ok hsegs).segRun (hv.isSingle hm)
        have hfork : Resolved v l b.txid parent := .through hbase le_rfl (ih hparent)
        exact Except.ok.inj h ▸ hfork.append hm hbase (by rintro _ ⟨rfl⟩; exact le_rfl) hrun
      · cases h
    · cases h

theorem Resolved.of_chain (hv : Tidy v) (h : Offshoot.chain v l t = .ok c) : Resolved v l t c :=
  .of_chainFrom hv h

/-- A resolution carries over to a view that agrees on the base pointers of the
lineages it can reach and on the live members it uses. -/
theorem Resolved.transfer {v' : View κ} {reach : Lineage → Prop}
    (hclosed : ∀ l b, reach l → v.base l = .ok (some b) → reach b.lineage)
    (hbase : ∀ l, reach l → v'.base l = v.base l) (h : Resolved v l t c) (hl : reach l)
    (hown : ∀ l t m, reach l → m ∈ c → Own v l t m → Own v' l t m) : Resolved v' l t c := by
  induction h with
  | snapshot ho hs => exact .snapshot (hown _ _ _ hl mem_cons_self ho) hs
  | segment ho hs _ ih =>
    exact .segment (hown _ _ _ hl (by simp) ho) hs
      (ih hl fun l t m hr hm => hown l t m hr (mem_append_left _ hm))
  | through hb hle _ ih =>
    exact .through ((hbase _ hl).trans hb) hle (ih (hclosed _ _ hl hb) hown)

theorem Walkable.transfer {v' : View κ} {reach : Lineage → Prop}
    (hclosed : ∀ l b, reach l → v.base l = .ok (some b) → reach b.lineage)
    (hbase : ∀ l, reach l → v'.base l = v.base l) (h : Walkable v l seen) (hl : reach l) :
    Walkable v' l seen := by
  induction h with
  | stop hb => exact .stop ((hbase _ hl).trans hb)
  | step hb hnew _ ih => exact .step ((hbase _ hl).trans hb) hnew (ih (hclosed _ _ hl hb))

/-! ## The base walk -/

/-- Induction along the spine that a base walk returns. -/
theorem baseSpineFrom_induction {start : Lineage} {spine : List Lineage}
    {motive : Lineage → List Lineage → List Lineage → Prop}
    (stop : ∀ l seen, v.base l = .ok none → motive l seen [])
    (step : ∀ l seen b rest, v.base l = .ok (some b) → b.lineage ∉ seen →
      motive b.lineage (b.lineage :: seen) rest → motive l seen (b.lineage :: rest))
    (h : baseSpineFrom v start fuel l seen = .ok spine) : motive l seen spine := by
  induction fuel generalizing l seen spine with
  | zero => cases h
  | succ fuel ih =>
    rw [baseSpineFrom] at h
    split at h
    · cases h
    · cases h
      exact stop _ _ ‹_›
    rename_i b hbase
    split at h
    · cases h
    cases hrest : baseSpineFrom v start fuel b.lineage (b.lineage :: seen) with
    | error e => simp [hrest, Except.map] at h
    | ok rest =>
      obtain rfl : b.lineage :: rest = spine := by simpa [hrest, Except.map] using h
      exact step _ _ b rest hbase ‹_› (ih hrest)

theorem walkable_of_baseSpineFrom {start : Lineage} {spine : List Lineage}
    (h : baseSpineFrom v start fuel l seen = .ok spine) : Walkable v l seen :=
  baseSpineFrom_induction (motive := fun l seen _ => Walkable v l seen) (fun _ _ => .stop)
    (fun _ _ _ _ => .step) h

theorem Walkable.baseSpineFrom {start : Lineage} (hw : Walkable v l seen) (hseen : l ∈ seen)
    (hfuel : (v.open l seen).card < fuel) :
    ∃ spine, Offshoot.baseSpineFrom v start fuel l seen = .ok spine := by
  induction hw generalizing fuel with
  | @stop l seen hbase =>
    obtain ⟨fuel, rfl⟩ := Nat.exists_eq_add_of_le' (lt_of_le_of_lt (Nat.zero_le _) hfuel)
    exact ⟨[], by simp [Offshoot.baseSpineFrom, hbase]⟩
  | @step l seen b hbase hnew hw ih =>
    obtain ⟨fuel, rfl⟩ := Nat.exists_eq_add_of_le' (lt_of_le_of_lt (Nat.zero_le _) hfuel)
    have hlt := View.open_card_lt hbase hseen hnew
    have hfuel' : (v.open b.lineage (b.lineage :: seen)).card < fuel := by omega
    obtain ⟨spine, hspine⟩ := ih mem_cons_self hfuel'
    exact ⟨b.lineage :: spine, by simp [Offshoot.baseSpineFrom, hbase, hnew, hspine, Except.map]⟩

theorem baseSpine_ok_iff : (∃ spine, baseSpine v l = .ok spine) ↔ Walkable v l [l] :=
  ⟨fun h => walkable_of_baseSpineFrom h.choose_spec,
    fun h => h.baseSpineFrom mem_cons_self (v.open_singleton_card_lt l)⟩

end Offshoot
