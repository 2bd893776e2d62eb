import Offshoot.Data.Readers
import Offshoot.System.BasesSound

/-!
# The history as a ledger

Refs are registers: the writes of a branch that took effect are all that made its ref what
it is, each having edited the result of the one before, and a head counts the commits of
its lineage.  This holds on both kinds of backend.

Where failed writes wrote nothing and nothing is collected, the history is also a ledger of
the objects: what any ref has named still resolves, whatever became of the branch, and a
ref's base is the base object of its lineage.
-/

namespace Offshoot

open Conc Maps List

variable {env : Env} {w w' : World} {i j : Nat} {b : BranchId} {r : Ref} {t : Nat}
variable {enabled : Op → Prop} {c c' : Config World Oracle Op}

/-! ## Refs are registers -/

def Event.writeTo (b : BranchId) : Event → Option RefOp
  | .wrote _ b' op _ _ => if b' = b then some op else none
  | _ => none

def World.writes (w : World) (b : BranchId) : List RefOp := w.log.filterMap (Event.writeTo b)

def replay : List RefOp → Option (Option Ref)
  | [] => some none
  | op :: ops => (replay ops).bind op.apply

theorem Unwritten.writes (h : Unwritten w w') : w'.writes b = w.writes b := by
  obtain ⟨news, hlog, hnews⟩ := h.log
  have hnone : news.filterMap (Event.writeTo b) = [] := by
    refine filterMap_eq_nil_iff.mpr fun e he => ?_
    cases e with
    | wrote j b' op before after => exact absurd rfl (hnews _ he j b' op before after)
    | _ => rfl
  rw [World.writes, hlog, filterMap_append, hnone, nil_append, World.writes]

variable {op : RefOp}

theorem Wrote.writes {b' : BranchId} {after : Option Ref} (h : Wrote w w' j b' op after) :
    w'.writes b = if b' = b then op :: w.writes b else w.writes b := by
  obtain ⟨news, hlog, hnews⟩ := h.log
  have hnone : news.filterMap (Event.writeTo b) = [] := by
    refine filterMap_eq_nil_iff.mpr fun e he => ?_
    obtain ⟨_, _, _, _, rfl⟩ := hnews e he
    rfl
  rw [World.writes, hlog, filterMap_append, hnone, nil_append, filterMap_cons,
    Event.writeTo, World.writes]
  split <;> simp_all

/-- What every action keeps, whether or not a write takes effect in it, a run keeps. -/
theorem preserves_of_effects {P : World → Prop} (hun : ∀ {w w'}, Unwritten w w' → P w → P w')
    (hwrote : ∀ w w' j b op after, Wrote w w' j b op after →
      (∀ l, op.names = some l → ¬ w.Named l) → P w → P w')
    (h : Reach (system env enabled) (.init .empty) c) (h' : Reach (system env enabled) c c')
    (hP : P c.state) : P c'.state := by
  have hsafe := baseLayer_init.reach baseLayer_sound (.of_reach baseLayer_all h)
  refine hsafe.preserves (P := P) baseLayer_sound ?_ (.of_reach baseLayer_all h') hP
  rintro i w w' hinv ⟨⟨a, hok, hname, rfl⟩, -⟩ - hP
  rcases hinv.1.effects hok with hu | ⟨j, b, op, after, hw, hfrom⟩
  · exact hun hu hP
  refine hwrote _ _ j b op after hw (fun l hl => ?_) hP
  rcases hfrom with ⟨rfl, hop⟩ | ⟨r, rfl, hmem⟩ | ⟨rfl, -⟩
  · exact (hname l (Act.names_of_op hok hop hl)).2.1
  · exact (hinv.1.sent_names hmem hl).2
  · cases hl

/-- No update of a ref is lost.  The ref of a branch is what the writes that took effect
make of it, one after the other: each edited what the one before had left, and nothing else
changed it. -/
theorem ref_replays_writes (h : Reach (system env enabled) (.init .empty) c)
    (b : BranchId) : replay (c.state.writes b) = some (c.state.refs.lookup b) := by
  refine preserves_of_effects (P := fun w => ∀ b, replay (w.writes b) = some (w.refs.lookup b))
    (fun hu hP b => ?_) (fun w w' j b' op after hw _ hP b => ?_) .refl h (fun _ => rfl) b
  · rw [hu.writes, hu.lookup]
    exact hP b
  · rw [hw.writes, hw.lookup]
    by_cases hb : b = b'
    · subst hb
      rw [if_pos rfl, if_pos rfl, replay, hP, Option.bind_some, hw.apply]
    · rw [if_neg (Ne.symm hb), if_neg hb]
      exact hP b

theorem exists_created {m : List (Move Oracle Op)} {Q : Config World Oracle Op → Ref → Bool}
    (h : (Config.play (system .localDir Op.keepsAll) (lateUpload.take 2) (.init .empty)).any
      fun c => (c.play (system .localDir Op.keepsAll) m).any fun c' =>
        (c.state.refs.lookup ⟨"db", "main"⟩).any (Q c')) :
    ∃ c c' r, Reach (system .localDir Op.keepsAll) (.init .empty) c ∧
      Reach (system .localDir Op.keepsAll) c c' ∧
      c.state.refs.lookup ⟨"db", "main"⟩ = some r ∧ Q c' r := by
  obtain ⟨c, hc, h⟩ := (Option.any_eq_true _ _).mp h
  obtain ⟨c', hc', h⟩ := (Option.any_eq_true _ _).mp h
  obtain ⟨r, hr, h⟩ := (Option.any_eq_true _ _).mp h
  exact ⟨c, c', r, Config.play_reach hc, Config.play_reach hc', hr, h⟩

set_option maxRecDepth 4096 in
theorem ref_replays_writes_late_upload : ∃ c : Config World Oracle Op,
    (c.state.writes ⟨"db", "main"⟩).length = 4 ∧
      replay (c.state.writes ⟨"db", "main"⟩) = some (c.state.refs.lookup ⟨"db", "main"⟩) := by
  obtain ⟨c, c', -, hc, hc', -, h⟩ := exists_created (m := lateUpload.drop 2)
    (Q := fun c _ => (c.state.writes ⟨"db", "main"⟩).length = 4) (by decide)
  exact ⟨c', of_decide_eq_true h, ref_replays_writes (hc.trans hc') _⟩

def commits (ops : List RefOp) : Nat := ops.countP (·.head.isSome)

theorem RefOp.head_of_unnamed {before : Option Ref} (hn : op.names = none)
    (h : op.apply before = some (some r)) :
    ∃ r₀, before = some r₀ ∧ r.lineage = r₀.lineage ∧ r.headTXID = r₀.headTXID + commits [op] := by
  rcases op.plain_or with hplain | ⟨c, hc⟩ | ⟨l, hl⟩
  · obtain ⟨r₀, rfl, hl, hhead, -⟩ := RefOp.plain_frame hplain h
    exact ⟨r₀, rfl, hl, by simp [commits, RefOp.plain_head hplain, hhead]⟩
  · obtain ⟨r₀, rfl, hours, hl, -, hhead, -⟩ := RefOp.head_frame hc h
    have htx := (HeadCommit.ours_iff.mp hours).2.2.2
    exact ⟨r₀, rfl, hl, by simp [commits, hc, hhead, htx]⟩
  · rw [hn] at hl
    cases hl

/-- A head counts commits.  For as long as a branch keeps its lineage, its head goes up by
one with every flush or checkpoint of it that takes effect, and by nothing else. -/
theorem head_counts_commits {r' : Ref} (h : Reach (system env enabled) (.init .empty) c)
    (h' : Reach (system env enabled) c c') (hr : c.state.refs.lookup b = some r)
    (hr' : c'.state.refs.lookup b = some r') (hl : r'.lineage = r.lineage) :
    r'.headTXID + commits (c.state.writes b) = r.headTXID + commits (c'.state.writes b) := by
  have hsafe := baseLayer_init.reach baseLayer_sound (.of_reach baseLayer_all h)
  refine (preserves_of_effects (P := fun w => w.Named r.lineage ∧
    ∀ r', w.refs.lookup b = some r' → r'.lineage = r.lineage →
      r'.headTXID + commits (c.state.writes b) = r.headTXID + commits (w.writes b))
    (fun hu hP => ?_) (fun w w' j b' op after hw hname hP => ?_) h h' ⟨?_, ?_⟩).2 r' hr' hl
  · obtain ⟨⟨b₀, r₀, hv, hl₀⟩, hP⟩ := hP
    refine ⟨⟨b₀, r₀, hu.version.mpr hv, hl₀⟩, fun r' hr' hl => ?_⟩
    rw [hu.writes]
    exact hP r' (hu.lookup b ▸ hr') hl
  · obtain ⟨hnamed, hP⟩ := hP
    obtain ⟨b₀, r₀, hv, hl₀⟩ := id hnamed
    refine ⟨⟨b₀, r₀, hw.version.mpr (.inr hv), hl₀⟩, fun r' hr' hl => ?_⟩
    rw [hw.lookup] at hr'
    rw [hw.writes]
    by_cases hb : b = b'
    · subst hb
      rw [if_pos rfl] at hr' ⊢
      subst hr'
      -- The lineage has been named, so the write does not give it to the branch.
      cases hn : op.names with
      | some l =>
        obtain ⟨l', hl', rfl, -, -⟩ | ⟨_, -, hnone, -⟩ := RefOp.apply_cases hw.apply
        · exact absurd (hl ▸ hnamed) (hname _ hl')
        · rw [hn] at hnone
          cases hnone
      | none =>
        obtain ⟨r₁, hr₁, hl₁, hhead⟩ := RefOp.head_of_unnamed hn hw.apply
        have := hP r₁ hr₁ (hl₁.symm.trans hl)
        simp only [commits, countP_cons, countP_nil] at this hhead ⊢
        omega
    · rw [if_neg hb] at hr'
      rw [if_neg (Ne.symm hb)]
      exact hP r' hr' hl
  · exact ⟨b, r, hsafe.inv.1.current hr, rfl⟩
  · rintro r' hr' -
    cases hr.symm.trans hr'
    rfl

set_option maxRecDepth 4096 in
theorem head_counts_commits_late_upload : ∃ (c c' : Config World Oracle Op) (r r' : Ref),
    c.state.refs.lookup ⟨"db", "main"⟩ = some r ∧
      c'.state.refs.lookup ⟨"db", "main"⟩ = some r' ∧ r'.headTXID = 2 ∧
      2 + commits (c.state.writes ⟨"db", "main"⟩) =
        r.headTXID + commits (c'.state.writes ⟨"db", "main"⟩) := by
  obtain ⟨c, c', r, hc, hc', hr, h⟩ := exists_created (m := lateUpload.drop 2)
    (Q := fun c r => (c.state.refs.lookup ⟨"db", "main"⟩).any fun r' =>
      r'.headTXID = 2 ∧ r'.lineage = r.lineage) (by decide)
  obtain ⟨r', hr', h⟩ := (Option.any_eq_true _ _).mp h
  obtain ⟨hhead, hl⟩ := of_decide_eq_true h
  exact ⟨c, c', r, r', hr, hr', hhead, hhead ▸ head_counts_commits hc hc' hr hr' hl⟩

/-- A lineage belongs to one branch, for ever, and once no ref reads it none ever will. -/
theorem lineage_owned_for_good (h : Reach (system env enabled) (.init .empty) c)
    (h' : Reach (system env enabled) c c') (hv : c.state.Version b r) :
    (∀ b' r', c'.state.Version b' r' → r'.lineage = r.lineage → b' = b) ∧
      (c.state.Lost r.lineage → c'.state.Lost r.lineage) := by
  have hsafe := baseLayer_init.reach baseLayer_sound (.of_reach baseLayer_all h)
  refine ⟨fun b' r' hv' hl => ?_, fun hlost => ?_⟩
  · have hlog : c.state.log ⊆ c'.state.log := by
      refine hsafe.preserves (P := fun w => c.state.log ⊆ w.log) baseLayer_sound ?_
        (.of_reach baseLayer_all h') (List.Subset.refl _)
      rintro i w w' - ⟨⟨a, -, -, rfl⟩, -⟩ - hlog
      exact List.Subset.trans hlog a.log_run.subset
    have hinv := (hsafe.reach baseLayer_sound (.of_reach baseLayer_all h')).inv
    exact hinv.1.branch hv' (hv.mono hlog) hl
  · refine hsafe.preserves (P := fun w => w.Lost r.lineage) baseLayer_sound ?_
      (.of_reach baseLayer_all h') hlost
    rintro i w w' hinv ⟨⟨a, hok, hname, rfl⟩, -⟩ - hlost
    exact hlost.run hinv.1 hok hname

set_option maxRecDepth 4096 in
theorem lineage_owned_for_good_destroyed : ∃ (c : Config World Oracle Op) (r : Ref),
    c.state.refs.lookup ⟨"db", "main"⟩ = none ∧
      ∀ b' r', c.state.Version b' r' → r'.lineage = r.lineage → b' = ⟨"db", "main"⟩ := by
  obtain ⟨c, c', r, hc, hc', hr, h⟩ := exists_created
    (m := [.start 1 (.destroy 0 ⟨"db", "main"⟩ true), .run 1 .fine 9])
    (Q := fun c _ => c.state.refs.lookup ⟨"db", "main"⟩ = none) (by decide)
  have hsafe := baseLayer_init.reach baseLayer_sound (.of_reach baseLayer_all hc)
  exact ⟨c', r, of_decide_eq_true h, (lineage_owned_for_good hc hc' (hsafe.inv.1.current hr)).1⟩

/-! ## Bases lead back -/

/-- Every checkpoint of a ref lies at or below its head, and the base of a ref or of a
lineage in the store leads to a lineage that some ref has named, no further than a head that
lineage has had.  This holds beside collections and late writes. -/
theorem bases_lead_to_heads (h : Reach (system env enabled) (.init .empty) c) :
    (∀ b r, c.state.refs.lookup b = some r → (∀ t ∈ r.txids, t ≤ r.headTXID) ∧
      ∀ bp, r.base = some bp → c.state.Leads bp) ∧
    ∀ l o, c.state.objs.lookup (.base l) = some o → ∃ bp, o = .base bp ∧ c.state.Leads bp := by
  have hsafe := baseLayer_init.reach baseLayer_sound (.of_reach baseLayer_all h)
  refine ⟨fun b r hr => ?_, fun l o ho => hsafe.inv.2.obj.1 ho l rfl⟩
  have hsane := hsafe.inv.2.ref (hsafe.inv.1.current hr)
  exact ⟨hsane.txids, hsane.base⟩

set_option maxRecDepth 4096 in
theorem exists_forked_child : ∃ (c : Config World Oracle Op) (r : Ref) (bp : BasePointer),
    Config.play (system .localDir Op.keepsAll) forkedParent (.init .empty) = some c ∧
      c.state.refs.lookup ⟨"db", "child"⟩ = some r ∧ r.base = some bp := by
  obtain ⟨c, hc, h⟩ := Config.exists_play (c := .init .empty) (m := forkedParent)
    (Q := fun c => (c.state.refs.lookup ⟨"db", "child"⟩).any fun r => r.base.isSome)
    (s := system .localDir Op.keepsAll) (by decide)
  obtain ⟨r, hr, h⟩ := (Option.any_eq_true _ _).mp h
  obtain ⟨bp, hbp⟩ := Option.isSome_iff_exists.mp h
  exact ⟨c, r, bp, hc, hr, hbp⟩

theorem bases_lead_to_heads_child : ∃ (c : Config World Oracle Op) (r : Ref) (bp : BasePointer),
    c.state.refs.lookup ⟨"db", "child"⟩ = some r ∧ r.base = some bp ∧ c.state.Leads bp := by
  obtain ⟨c, r, bp, hc, hr, hbp⟩ := exists_forked_child
  exact ⟨c, r, bp, hr, hbp, ((bases_lead_to_heads (Config.play_reach hc)).1 _ r hr).2 bp hbp⟩

/-! ## Nothing named is lost -/

/-- What the history says the store holds, it holds. -/
structure Mirrored (w : World) : Prop where
  base : ∀ {b r bp}, w.Version b r → (r.base = some bp ↔ w.BaseOf r.lineage bp)
  leads : ∀ {l bp}, w.BaseOf l bp → ∃ ks, Path w bp.lineage bp.txid ks
  kept : ∀ {k}, w.Frozen k → w.Has k

theorem Mirrored.empty : Mirrored .empty where
  base h := by simp [World.Version, World.empty] at h
  leads h := by simp [World.BaseOf, World.empty] at h
  kept h := by simp [World.Frozen, World.Committed, World.BaseOf, World.empty] at h

theorem Mirrored.of_same (h : Mirrored w) (hs : w.SameWrites w')
    (hkept : ∀ {k}, w.Frozen k → w'.Has k) : Mirrored w' where
  base hv := by
    rw [hs.baseOf]
    exact h.base (hs.version ▸ hv)
  leads hb := by
    obtain ⟨ks, hp⟩ := h.leads (hs.baseOf ▸ hb)
    exact ⟨ks, hs.path.mpr hp⟩
  kept hk := hkept (by simpa only [World.Frozen, hs.committed, hs.baseOf] using hk)

theorem Mirrored.land (h : Mirrored w) (hr : RefsInv env w) {after : Option Ref}
    (happly : op.apply (w.refs.lookup b) = some after) (hhead : ∀ c, op.head = some c → HeadOK w c)
    (hnames : ∀ l, op.names = some l → w.Draft i l ∧ ∀ r, after = some r → Prepared w r ∧
      Stocked w l r) : Mirrored (w.land i b op after) := by
  constructor
  case base =>
    intro b' r bp hv
    rw [World.baseOf_land]
    rcases World.version_land.mp hv with ⟨rfl, rfl⟩ | hv
    · cases hn : op.names with
      | none =>
        obtain ⟨l', hl', -⟩ | ⟨r₀, hr₀, -, hf⟩ := RefOp.apply_cases happly
        · rw [hn] at hl'
          cases hl'
        have hbase := RefOp.base_frame hn (hr₀ ▸ happly)
        rw [hbase, h.base (hr.current hr₀), hf.lineage]
        simp
      | some l =>
        obtain ⟨l', hl', rfl, -⟩ | ⟨_, -, hnone, -⟩ := RefOp.apply_cases happly
        · have hun : ¬ w.BaseOf r.lineage bp := fun hb =>
            (hnames _ hl').1.2.1 (hr.named_of_baseOf hb)
          simp [hun, ← hl', hn]
        · rw [hn] at hnone
          cases hnone
    · -- A record of old keeps its lineage, which the write does not give to a branch.
      rw [h.base hv, iff_self_or]
      rintro ⟨r', -, hn, -⟩
      exact absurd ⟨b', r, hv, rfl⟩ (hnames _ hn).1.2.1
  case leads =>
    intro l bp hb
    obtain ⟨ks, hp⟩ : ∃ ks, Path w bp.lineage bp.txid ks := by
      rcases World.baseOf_land.mp hb with hb | ⟨r, hafter, hn, hbp⟩
      · exact h.leads hb
      · obtain ⟨htx, hpath⟩ := ((hnames l hn).2 r hafter).1.2 bp hbp
        exact htx ▸ hpath _ (Ref.mem_txids.mpr (.inl rfl))
    exact ⟨ks, hp.mono World.log_subset_land⟩
  case kept =>
    rintro k (⟨c, hc, rfl⟩ | ⟨l, bp, hb, rfl⟩)
    · obtain hc | ⟨r, hafter, ⟨hc', hh, rfl⟩ | ⟨l, t, hn, hbase, ht, rfl⟩⟩ :=
        World.committed_land.mp hc
      · exact h.kept (.inl ⟨c, hc, rfl⟩)
      · exact (hhead hc' hh).has
      · exact (((hnames l hn).2 r hafter).2.own hbase).1 t ht
    · rcases World.baseOf_land.mp hb with hb | ⟨r, hafter, hn, hbp⟩
      · exact h.kept (.inr ⟨l, bp, hb, rfl⟩)
      · exact World.has_iff.mpr ⟨_, (((hnames l hn).2 r hafter).2.shared bp hbp).1⟩

theorem Mirrored.step (h : Mirrored w) (hr : RefsInv env w) (hd : DataInv w)
    {assumed : World → World → Prop} (htr : Trans False assumed i w w') : Mirrored w' := by
  have hkept : ∀ {k}, w.Frozen k → w'.Has k := fun hk => by
    rw [World.Has, (htr.frozen hr hd hk).resolve_right (·.1)]
    exact h.kept hk
  cases htr.data with
  | still hs | put _ hs | drop _ hs => exact h.of_same hs hkept
  | wrote happly _ hhead hnames hs _ hobjs =>
    have hland := h.land hr happly hhead hnames
    refine hland.of_same hs fun hk => ?_
    rw [World.Has, hobjs]
    exact hland.kept hk

theorem mirrored_of_reach (hset : env.settled = true) (hgc : ∀ op, enabled op → op.collects = false)
    (h : Reach (system env enabled) (.init .empty) c) : Mirrored c.state := by
  refine (dataInv_of_reach hset hgc .refl).preserves (P := Mirrored) (dataLayer_sound hgc) ?_
    (Spec.Reach.of_reach (fun _ _ => by exact ⟨trivial, trivial⟩) h) .empty
  rintro i w w' ⟨hr, hd⟩ ⟨-, a, hok, hname, hg, rfl⟩ has hmir
  exact hmir.step hr hd (a.trans hset hr hok hname hg has.2)

/-- Nothing a ref has named is lost.  Without collections, the state a ref names at its head
or at a checkpoint resolves to the same objects ever after, with the same content, also when
the checkpoint is pruned, the branch rolled back or compacted, or its ref removed. -/
theorem named_states_stay (hsettled : env.settled = true)
    (hgc : ∀ op, enabled op → op.collects = false)
    (h : Reach (system env enabled) (.init .empty) c) (h' : Reach (system env enabled) c c')
    (hcur : c.state.refs.lookup b = some r) (ht : t ∈ r.txids) :
    ∃ members, chain c.state.view r.lineage t = .ok members ∧
      chain c'.state.view r.lineage t = .ok members ∧
      ∀ m ∈ members, c'.state.objs.lookup m.key = c.state.objs.lookup m.key := by
  have hsafe := dataInv_of_reach hsettled hgc h
  have hsafe' := dataInv_of_reach hsettled hgc (h.trans h')
  have hlater := Safe.later hgc hsafe h'
  obtain ⟨ks, hp, -, hchain⟩ := hsafe.inv.2.chain hsafe.inv.1 hcur ht
  have hp' := hp.mono hlater.log
  refine ⟨pathMembers ks, hchain, hp'.chain hsafe'.inv.1 hsafe'.inv.2 fun k hk => ?_,
    fun m hm => hlater.frozen _ (hp.frozen (pathMembers_key hm))⟩
  exact (mirrored_of_reach hsettled hgc (h.trans h')).kept (hp'.frozen hk)

set_option maxRecDepth 4096 in
theorem named_states_stay_destroyed : ∃ (c c' : Config World Oracle Op) (r : Ref)
    (members : List (ChainMember DataKey)), c.state.refs.lookup ⟨"db", "main"⟩ = some r ∧
      c'.state.refs.lookup ⟨"db", "main"⟩ = none ∧
      chain c.state.view r.lineage r.headTXID = .ok members ∧
      chain c'.state.view r.lineage r.headTXID = .ok members := by
  obtain ⟨c, c', r, hc, hc', hr, h⟩ := exists_created
    (m := [.start 1 (.destroy 0 ⟨"db", "main"⟩ true), .run 1 .fine 9])
    (Q := fun c _ => c.state.refs.lookup ⟨"db", "main"⟩ = none) (by decide)
  obtain ⟨members, hchain, hchain', -⟩ := named_states_stay (by rfl) (fun _ hop => hop) hc hc' hr
    (Ref.mem_txids.mpr (.inl rfl))
  exact ⟨c, c', r, members, hr, of_decide_eq_true h, hchain, hchain'⟩

/-- Bases are in order.  Without collections, a ref's base is the pointer in the base object
of its lineage, if there is one; it points to an older lineage, so bases never form a cycle,
at a txid that resolves there. -/
theorem base_is_base_object (hsettled : env.settled = true)
    (hgc : ∀ op, enabled op → op.collects = false) (h : Reach (system env enabled) (.init .empty) c)
    (hcur : c.state.refs.lookup b = some r) (bp : BasePointer) :
    (r.base = some bp ↔ c.state.objs.lookup (.base r.lineage) = some (.base bp)) ∧
      (r.base = some bp → bp.lineage < r.lineage ∧
        ∃ members, chain c.state.view bp.lineage bp.txid = .ok members) := by
  have hmir := mirrored_of_reach hsettled hgc h
  obtain ⟨hr, hd⟩ := (dataInv_of_reach hsettled hgc h).inv
  have hv := hr.current hcur
  have hobj : ∀ bp, c.state.BaseOf r.lineage bp →
      c.state.objs.lookup (.base r.lineage) = some (.base bp) := fun bp hb => by
    obtain ⟨o, ho⟩ := World.has_iff.mp (hmir.kept (.inr ⟨_, bp, hb, rfl⟩))
    obtain ⟨bp', hb', rfl⟩ := hd.obj.base ⟨b, r, hv, rfl⟩ ho
    rw [ho, hd.log.base_unique hb hb']
  rw [hmir.base hv]
  refine ⟨⟨hobj bp, fun ho => ?_⟩, fun hb => ⟨?_, ?_⟩⟩
  · obtain ⟨bp', hb', heq⟩ := hd.obj.base ⟨b, r, hv, rfl⟩ ho
    obtain rfl : bp = bp' := by simpa using heq
    exact hb'
  · rcases hd.obj.shape (hobj bp hb) with ⟨s, hs⟩ | ⟨l, bp', hl, heq, hlt⟩
    · exact absurd hs DataKey.slot_base
    · obtain ⟨rfl, rfl⟩ : r.lineage = l ∧ bp = bp' := by simpa using And.intro hl heq
      exact hlt
  · obtain ⟨ks, hp⟩ := hmir.leads hb
    exact ⟨_, hp.chain hr hd fun k hk => hmir.kept (hp.frozen hk)⟩

theorem base_is_base_object_child : ∃ (c : Config World Oracle Op) (r : Ref) (bp : BasePointer),
    c.state.refs.lookup ⟨"db", "child"⟩ = some r ∧
      c.state.objs.lookup (.base r.lineage) = some (.base bp) ∧ bp.lineage < r.lineage := by
  obtain ⟨c, r, bp, hc, hr, hbp⟩ := exists_forked_child
  have hbase := base_is_base_object (by rfl) (fun _ hop => hop) (Config.play_reach hc) hr bp
  exact ⟨c, r, bp, hr, hbase.1.mp hbp, (hbase.2 hbp).1⟩

end Offshoot
