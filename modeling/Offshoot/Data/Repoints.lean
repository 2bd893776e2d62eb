import Offshoot.Data.Lineages

/-!
# Naming a lineage

Create, fork, rollback, promote and compact end in one ref write that gives a
branch the lineage they prepared.  At that write the lineage has an object for each
txid the ref names, or its base pointer leads to a lineage where those resolve.

A safety fork runs inside a rollback or a promote, so each program below keeps
whatever its caller carries.
-/

namespace Offshoot

open Conc Maps List

variable {env : Env} {hset : env.settled = true} {gc : Prop}
  {assumed : World → World → Prop} {w w₀ : World} {i : Nat} {b : BranchId}
  {P S : World → Prop} {l : Lineage} {src r : Ref} {bp : BasePointer} {ts : List Nat} {t : Nat}

/-! ## The ref a program starts from -/

/-- `src` is what the branch named when it was read. -/
structure Origin (env : Env) (b : BranchId) (src : Ref) (w₀ : World) : Prop where
  refs : RefsInv env w₀
  data : DataInv w₀
  current : w₀.refs.lookup b = some src

theorem Origin.path (h : Origin env b src w₀) (ht : t ∈ src.txids) :
    ∃ ks, Path w₀ src.lineage t ks :=
  h.data.log.path (h.refs.current h.current) ht

theorem Origin.le_head (h : Origin env b src w₀) (ht : t ∈ src.txids) : t ≤ src.headTXID :=
  h.data.log.txids (h.refs.current h.current) ht

theorem getRef_origin (hP : Carried env gc assumed i P) (hw : P w) : DataOk hset gc assumed i
      (fun r w => P w ∧ ∀ src, r = .ok src → Origin env b src w ∧ Source i w src w)
      (getRef b) w := by
  refine read_ok hP.stable hw (fun _ _ => rfl) fun o w hr h hw src hok => ?_
  split at hok
  · cases hok
  split at hok
  · rename_i hcur
    cases hok
    exact ⟨⟨hr, h, hcur⟩, .of_current h (hP.flying hw) hcur⟩
  · cases hok

/-! ## The naming write -/

theorem Drafting.ready (h : Drafting i l ts w) (hbase : r.base = none)
    (hts : ∀ t, t ∈ r.txids ↔ t ∈ ts) (hle : ∀ t ∈ r.txids, t ≤ r.headTXID) :
    Prepared w r ∧ Stocked w l r := by
  refine ⟨⟨hle, fun bp hb => ?_⟩, fun _ => ⟨fun t ht => ?_, fun k hk hkl => ?_⟩, fun bp hb => ?_⟩
  · rw [hbase] at hb
    cases hb
  · exact h.has ((hts t).mp ht)
  · obtain ⟨t, ht, rfl⟩ := h.only hk hkl
    exact ⟨t, (hts t).mpr ht, rfl⟩
  · rw [hbase] at hb
    cases hb

theorem Sharing.ready (h : Sharing i l bp w) (hlog : LogInv w) (horigin : Origin env b src w₀)
    (hsrc : Source i w₀ src w) (hcol : Collapsed w₀ src.lineage bp.lineage bp.txid)
    (hbase : r.base = some bp) (hhead : bp.txid = r.headTXID)
    (hts : ∀ t ∈ r.txids, t ∈ src.txids ∧ t ≤ bp.txid) : Prepared w r ∧ Stocked w l r := by
  -- Each txid resolves from the base, by keys the source holds.
  have hpath : ∀ t ∈ r.txids, ∃ ks, Path w bp.lineage t ks ∧ ∀ k ∈ ks, w.Has k := by
    intro t ht
    obtain ⟨hmem, hle⟩ := hts t ht
    obtain ⟨ks, hp⟩ := horigin.path hmem
    obtain ⟨ls, ks', hp', rfl⟩ := hcol t ks hle hp
    exact ⟨ks', hp'.mono hsrc.since.log, fun k hk => hsrc.held hmem hp (mem_append_right _ hk)⟩
  refine ⟨⟨fun t ht => hhead ▸ (hts t ht).2, fun bp' hb => ?_⟩, fun hb => ?_, fun bp' hb => ?_⟩
  · cases hbase.symm.trans hb
    refine ⟨hhead, fun t ht => ?_⟩
    obtain ⟨ks, hp, -⟩ := hpath t ht
    exact ⟨ks, hp⟩
  · rw [hbase] at hb
    cases hb
  · cases hbase.symm.trans hb
    refine ⟨h.base, fun k hk hkl => h.only hk hkl, fun t ht ks hp k hk => ?_⟩
    obtain ⟨ks', hp', hheld⟩ := hpath t ht
    rw [hlog.path_unique hp hp'] at hk
    exact hheld k hk

variable {base : Option BasePointer}

/-- A ref that names nothing but the txid its lineage was made at. -/
theorem NewLineage.ready (h : NewLineage i w₀ src t l base w) (hlog : LogInv w)
    (horigin : Origin env b src w₀) (hsrc : Source i w₀ src w) (ht : t ∈ src.txids)
    (hbase : r.base = base) (hhead : r.headTXID = t)
    (hts : ∀ t' ∈ r.txids, t' = t) : w.Draft i l ∧ Prepared w r ∧ Stocked w l r := by
  cases base with
  | none =>
    have hd := h.own rfl
    refine ⟨hd.draft, hd.ready hbase (fun t' => ⟨fun ht' => ?_, fun ht' => ?_⟩) fun t' ht' => ?_⟩
    · simp [hts t' ht']
    · rw [mem_singleton.mp ht', Ref.mem_txids]
      exact .inl hhead.symm
    · rw [hts t' ht', hhead]
  | some bp =>
    obtain ⟨hs, hbp, hcol⟩ := h.shared rfl
    refine ⟨hs.draft, hs.ready hlog horigin hsrc (hbp ▸ hcol) hbase (hbp.trans hhead.symm)
      fun t' ht' => ?_⟩
    rw [hts t' ht']
    exact ⟨ht, hbp.ge⟩

/-- The write that names a prepared lineage: it lands, or the lineage is still a
draft. -/
theorem putRef_ready {op : RefOp} {etag : Option Ref} (hP : Carried env gc assumed i P)
    (hstable : DataStable hset gc assumed i fun w => P w ∧ S w)
    (hw : P w ∧ S w) (happly : op.apply etag = some (some r.stored)) (hby : op.by i)
    (hn : op.names = some l)
    (hready : ∀ w, LogInv w → P w → S w → w.Draft i l ∧ Prepared w r.stored ∧
      Stocked w l r.stored) :
    DataOk hset gc assumed i
      (fun res w => (res = .ok () → P w ∧ w.refs.lookup b = some r.stored ∧
          Event.wrote i b op etag (some r.stored) ∈ w.log) ∧
        ∀ e, res = .error e → P w ∧ S w)
      (putRef env i b op r etag) w := by
  refine putRef_ok (Q := fun w => P w ∧ w.refs.lookup b = some r.stored ∧
    Event.wrote i b op etag (some r.stored) ∈ w.log) hstable hw happly hby fun w hr h hw hit => ?_
  obtain ⟨hd, hprep⟩ := hready w h.log hw.1 hw.2
  refine ⟨fun l' hl' => ?_, ⟨fun c hc => ?_, fun l' r' hl' hr' => ?_⟩,
    fun htr => ⟨hP.of_objs hr h htr rfl hw.1, ?_, ?_⟩⟩
  · cases hn.symm.trans hl'
    exact hd
  · rw [RefOp.names_head hn] at hc
    cases hc
  · cases hn.symm.trans hl'
    cases hr'
    exact hprep
  · rw [World.lookup_land, if_pos rfl]
  · rw [← hit]
    exact mem_cons_self

/-! ## Creating and forking -/

variable {srcBranch : BranchId}

section Programs

variable {host fuel : Nat}

/-- No ref reads a draft, so a re-read does not find that its write has landed. -/
theorem settleRepoint_draft {prev : Option Lineage} (hstable : DataStable hset gc assumed i P)
    (hdraft : ∀ w, LogInv w → P w → w.Draft i l) (hw : P w) :
    DataOk hset gc assumed i (fun v w => P w ∧ v ≠ .ok .landed) (settleRepoint b l prev) w := by
  have hread : DataOk hset gc assumed i
      (fun r w => P w ∧ ∀ ref, r = .ok ref → ref.lineage ≠ l) (getRef b) w := by
    refine read_ok hstable hw (fun _ _ => rfl) fun o w hr h hw ref hok hl => ?_
    split at hok
    · cases hok
    split at hok
    · rename_i hcur
      cases hok
      exact (hdraft w h.log hw).2.1 ⟨b, _, hr.current hcur, hl⟩
    · cases hok
  refine hread.bind fun r w hw => ?_
  split
  · exact ⟨hw.1, by simp⟩
  · exact ⟨hw.1, by simp⟩
  · rename_i ref
    split
    · exact absurd ‹_› (hw.2 ref rfl)
    · split <;> exact ⟨hw.1, by simp⟩

/-- A write of a new branch, and the re-read that settles one that failed. -/
theorem created {op : RefOp} {etag : Option Ref} {a : α} (hP : Carried env gc assumed i P)
    (hstable : DataStable hset gc assumed i fun w => P w ∧ S w)
    (hw : P w ∧ S w) (happly : op.apply etag = some (some r.stored)) (hby : op.by i)
    (hn : op.names = some l)
    (hready : ∀ w, LogInv w → P w → S w → w.Draft i l ∧ Prepared w r.stored ∧
      Stocked w l r.stored) :
    DataOk hset gc assumed i
      (fun res w => P w ∧ ∀ a', res = .ok a' → a' = a ∧ w.refs.lookup b = some r.stored ∧
        Event.wrote i b op etag (some r.stored) ∈ w.log)
      (do
        match ← putRef env i b op r etag with
        | .ok () => return .ok a
        | .error e =>
          match ← settleRepoint b l none with
          | .error e => return .error e
          | .ok .landed => return .ok a
          | .ok _ => return .error e : M (Result α)) w := by
  refine (putRef_ready hP hstable hw happly hby hn hready).bind fun res w hw => ?_
  cases res with
  | ok u =>
    obtain ⟨hw, hland⟩ := hw.1 rfl
    exact ⟨hw, fun a' ha => ⟨(Except.ok.inj ha).symm, hland⟩⟩
  | error e =>
    refine (settleRepoint_draft hstable (fun w hlog hw => (hready w hlog hw.1 hw.2).1)
      (hw.2 e rfl)).bind fun v w hw => ?_
    split
    · exact ⟨hw.1.1, by simp⟩
    · exact absurd rfl hw.2
    · exact ⟨hw.1.1, by simp⟩

theorem create_data {db : String} {img : Image} (hP : Carried env gc assumed i P) (hw : P w) :
    DataOk hset gc assumed i ⊤ (create env i db img) w := by
  refine ((listRefs_does rfl).reads hP.stable hw).bindOk .ret fun bs w hw => ?_
  dsimp only
  split
  · exact trivial
  refine (newLineageID_ok hP hw).bind fun l w hw => ?_
  split
  · exact trivial
  refine (putIf_ok (Q := fun w => P w ∧ Drafting i l [1] w) hP.drafting ⟨hw.1, hw.2.1⟩
    fun _ hr h hw => Drafting.put_step hP hr h hw).bindOk .ret fun u w hw => ?_
  refine ((now_does rfl).reads hP.drafting (hw.1 rfl)).bind fun createdAt w hw => ?_
  refine (created hP hP.drafting hw (by rfl) (by trivial) (by rfl)
    fun w _ _ hd => ⟨hd.draft, hd.ready ?_ ?_ ?_⟩).mono fun _ _ _ => trivial
  · simp
  · simp [Ref.txids, values]
  · simp [Ref.txids, values]

theorem forkPoint_mem {checkpoint : Option String} (h : forkPoint src checkpoint = some t) :
    t ∈ src.txids := by
  rw [Ref.mem_txids]
  cases checkpoint with
  | none => exact .inl (Option.some.inj h).symm
  | some name =>
    obtain ⟨cp, hcp, ht⟩ := Option.map_eq_some_iff.mp h
    exact .inr ⟨name, cp, hcp, ht⟩

/-- A fork that succeeded: what it read, and the branch it has made of it. -/
structure Forked (env : Env) (i : Nat) (srcBranch b : BranchId) (src child : Ref) (t : Nat)
    (w₁ w : World) : Prop where
  origin : Origin env srcBranch src w₁
  since : Since w₁ w
  current : w.refs.lookup b = some child.stored
  wrote : Event.wrote i b (.create child) none (some child.stored) ∈ w.log
  head : child.headTXID = t
  shared : ∀ {bp}, child.base = some bp → bp.txid = t ∧ Collapsed w₁ src.lineage bp.lineage t

section

variable (hP : Carried env gc assumed i P)

include hP

theorem fork_forked {opts : ForkOptions} (hw : P w) : DataOk hset gc assumed i
      (fun r w => ∀ t, r = .ok t → P w ∧ ∃ src child w₁, P w₁ ∧
        forkPoint src opts.checkpoint = some t ∧ Forked env i srcBranch b src child t w₁ w)
      (fork env i host srcBranch b opts fuel) w := by
  refine (getRef_origin hP hw).bind fun r w hw => ?_
  obtain ⟨hw, hread⟩ := hw
  cases r with
  | error e => exact fun _ h => by cases h
  | ok src =>
    obtain ⟨horigin, hsrc⟩ := hread src rfl
    have hw₀ := hw
    have hP' := hP.source w src
    replace hw := And.intro hw hsrc
    generalize w = w₀ at horigin hP' hw hw₀
    dsimp only
    split
    · exact fun _ h => by cases h
    rename_i t ht
    have hmem := forkPoint_mem ht
    obtain ⟨ks, hp⟩ := horigin.path hmem
    refine (refChain_reads.reads hP'.stable hw).bindOk
      (fun _ _ _ => fun _ h => by cases h) fun members w hw => ?_
    refine (forkNameFree_reads.reads hP'.stable hw).bindOk
      (fun _ _ _ => fun _ h => by cases h) fun u w hw => ?_
    refine (newLineageAt_ok hP' horigin.data.log horigin.refs hp (fun h => h.2.since)
      hw).bind fun r w hw => ?_
    split
    · exact fun _ h => by cases h
    rename_i l base
    have hshared : ∀ {bp}, base = some bp → bp.txid = t ∧ Collapsed w₀ src.lineage bp.lineage t :=
      fun hb => ((hw l base rfl).2.shared hb).2
    refine ((now_does rfl).reads hP'.newLineage (hw l base rfl)).bind fun _ w hw => ?_
    refine ((now_does rfl).reads hP'.newLineage hw).bind fun _ w hw => ?_
    refine (created hP' hP'.newLineage hw (by rfl) (by trivial) (by rfl)
      fun w hlog hw hn => hn.ready hlog horigin hw.2 hmem ?_ ?_ ?_).mono
      fun res w h t' hres => ?_
    · simp
    · simp
    · simp [Ref.txids, values]
    · obtain ⟨rfl, hcur, hwrote⟩ := h.2 t' hres
      exact ⟨h.1.1, src, _, w₀, hw₀, ht, horigin, h.1.2.since, hcur, hwrote, rfl, hshared⟩

theorem fork_data {opts : ForkOptions} (hw : P w) :
    DataOk hset gc assumed i (fun r w => ∀ t, r = .ok t → P w)
      (fork env i host srcBranch b opts fuel) w :=
  (fork_forked hP hw).mono fun _ _ h t ht => (h t ht).1

/-! ## Repointing -/

theorem safetyFork_forked {suffix metaKey : String} {ttl : Nat} {materialize : Bool} (hw : P w) :
    DataOk hset gc assumed i
      (fun r w => ∀ u, r = .ok u → P w ∧ ∃ src child w₁, P w₁ ∧
        Forked env i b ⟨b.db, b.branch ++ suffix⟩ src child src.headTXID w₁ w)
      (safetyFork env i host b suffix metaKey ttl fuel materialize) w := by
  have hfork {w : World} (hw : P w) {opts : ForkOptions} (hopts : opts.checkpoint = none) :
      DataOk hset gc assumed i
        (fun r w => ∀ t, r = .ok t → P w ∧ ∃ src child w₁, P w₁ ∧
          Forked env i b ⟨b.db, b.branch ++ suffix⟩ src child src.headTXID w₁ w)
        (fork env i host b ⟨b.db, b.branch ++ suffix⟩ opts fuel) w := by
    refine (fork_forked hP hw).mono fun r w h t ht => ?_
    obtain ⟨hw, src, child, w₁, hw₁, hpoint, hforked⟩ := h t ht
    rw [hopts] at hpoint
    cases hpoint
    exact ⟨hw, src, child, w₁, hw₁, hforked⟩
  refine ((getRef_does rfl).reads hP.stable hw).bind fun r w hw => ?_
  split
  · refine (hfork hw rfl).bindOk (fun _ _ _ => fun _ h => by cases h) fun t w hw => ?_
    exact fun _ _ => hw t rfl
  · exact fun _ h => by cases h
  · split
    · exact fun _ h => by cases h
    · refine ((destroy_calm (W := ⊤) fun _ _ => trivial).carried (fun _ h => h.tame)
        hP hw).bindOk (fun _ _ _ => fun _ h => by cases h) fun u w hw => ?_
      refine (hfork hw rfl).bindOk (fun _ _ _ => fun _ h => by cases h) fun t w hw => ?_
      exact fun _ _ => hw t rfl

theorem backUp_data {suffix metaKey : String} {ttl : Nat} {skip : Bool} (hw : P w) :
    DataOk hset gc assumed i (fun r w => ∀ u, r = .ok u → P w)
      (backUp env i host b suffix metaKey ttl fuel skip) w := by
  unfold backUp
  split
  · exact fun _ _ => hw
  · exact (safetyFork_forked hP hw).mono fun _ _ h u hu => (h u hu).1

theorem repoint_data {p : Repoint} {keys : List DataKey}
    (hstable : DataStable hset gc assumed i fun w => P w ∧ S w) (hw : P w ∧ S w)
    (hkeys : ∀ k ∈ keys, k.lineage = p.lineage)
    (hready : ∀ w, LogInv w → P w → S w → w.Draft i p.lineage ∧ Prepared w (p.apply r).stored ∧
      Stocked w p.lineage (p.apply r).stored)
    (hdraft : ∀ w, S w → w.Draft i p.lineage) :
    DataOk hset gc assumed i ⊤ (repoint env i b r p keys) w := by
  refine (putRef_ready hP hstable hw (RefOp.apply_edit rfl) (by trivial) (by rfl) hready).bind
    fun res w hw => ?_
  cases res with
  | ok u => exact trivial
  | error e =>
    refine (settleRepoint_reads.reads hstable (hw.2 e rfl)).bind fun v w hw => ?_
    split
    · exact trivial
    · exact trivial
    · exact (deleteObjs_ok hkeys (hdraft w hw.2)).bind .ret
    · exact trivial

end

theorem Does.freeLocal {p : M α} (h : Does env i Act.Local p) : DataOk hset gc assumed i ⊤ p w :=
  h.free fun _ h => h.still.tame

/-- A lineage that shares its history keeps the checkpoints it can reach. -/
theorem Sharing.ready_rollback {now : Nat} (h : Sharing i l bp w) (hlog : LogInv w)
    (horigin : Origin env b src w₀) (hsrc : Source i w₀ src w)
    (hcol : Collapsed w₀ src.lineage bp.lineage t) (hbp : bp.txid = t) (ht : t ∈ src.txids) :
    let r := (Repoint.apply ⟨l, t, keepIf (fun _ c => c.txid ≤ t) src.checkpoints, some bp, now⟩
      src).stored
    Prepared w r ∧ Stocked w l r := by
  refine h.ready hlog horigin hsrc (hbp ▸ hcol) (by simp [Repoint.apply, Ref.touch])
    (by simpa [Repoint.apply, Ref.touch] using hbp) fun t' ht' => ?_
  rw [Ref.txids_stored, Ref.mem_txids] at ht'
  rcases ht' with rfl | ⟨name, cp, hcp, rfl⟩
  · exact ⟨ht, hbp.ge⟩
  · simp only [Repoint.apply, Ref.touch, lookup_keepIf, Option.filter_eq_some_iff,
      decide_eq_true_eq] at hcp
    exact ⟨Ref.mem_txids.mpr (.inr ⟨name, cp, hcp.1, rfl⟩), hbp ▸ hcp.2⟩

/-- A lineage of copies keeps the checkpoints that were copied. -/
theorem Drafting.ready_copied {now : Nat} {cps cps' : Map String Checkpoint}
    (h : Drafting i l ts w) (hts : ∀ t', t' ∈ ts ↔ t' ∈ [t] ∨ ∃ cp ∈ values cps, cp.txid = t')
    (hcps : ∀ t', (∃ name cp, cps'.lookup name = some cp ∧ cp.txid = t') →
      t' = t ∨ ∃ cp ∈ values cps, cp.txid = t')
    (hcps' : ∀ cp ∈ values cps, ∃ name cp', cps'.lookup name = some cp' ∧ cp'.txid = cp.txid)
    (hle : ∀ cp ∈ values cps, cp.txid ≤ t) :
    let r := (Repoint.apply ⟨l, t, cps', none, now⟩ src).stored
    Prepared w r ∧ Stocked w l r := by
  refine h.ready (by simp [Repoint.apply, Ref.touch]) (fun t' => ?_) fun t' ht' => ?_
  · rw [Ref.txids_stored, Ref.mem_txids, hts, mem_singleton]
    constructor
    · rintro (h | h)
      · exact .inl h
      · exact hcps t' h
    · rintro (h | ⟨cp, hcp, rfl⟩)
      · exact .inl h
      · exact .inr (hcps' cp hcp)
  · rw [Ref.txids_stored, Ref.mem_txids] at ht'
    rcases ht' with rfl | h
    · exact le_rfl
    · rcases hcps t' h with rfl | ⟨cp, hcp, rfl⟩
      · exact le_rfl
      · exact hle cp hcp

theorem rollbackOnto_data (hP : Carried env gc assumed i P) (horigin : Origin env b src w₀)
    (hsrc : ∀ {w}, P w → Source i w₀ src w) (ht : t ∈ src.txids)
    (hw : P w ∧ NewLineage i w₀ src t l base w) :
    DataOk hset gc assumed i ⊤ (rollbackOnto env i host b src t fuel l base) w := by
  unfold rollbackOnto
  split
  · rename_i bp
    obtain ⟨hw, hn⟩ := hw
    obtain ⟨hs, hbp, hcol⟩ := hn.shared rfl
    refine ((now_does rfl).reads hP.sharing ⟨hw, hs⟩).bind fun now w hw => ?_
    refine (repoint_data (S := Sharing i l bp) hP hP.sharing hw (by simp [DataKey.lineage])
      (fun w hlog hw hs => ⟨hs.draft, hs.ready_rollback hlog horigin (hsrc hw) hcol hbp ht⟩)
      fun w hs => hs.draft).bindOk .ret fun u w _ => ?_
    exact refreshAfter_local.freeLocal
  · refine (copyCheckpoints_ok hP ⟨hw.1, hw.2.own rfl⟩).bind fun r w hw => ?_
    obtain ⟨copied, keys⟩ := r
    obtain ⟨hd, hkeys, hcopied⟩ := hw
    have hmine : ∀ k ∈ DataKey.snapshot l 1 t :: keys, k.lineage = l := by
      intro k hk
      rcases mem_cons.mp hk with rfl | hk
      · rfl
      · exact hkeys k hk
    cases copied with
    | error e =>
      refine Spec.Holds.bind (deleteObjs_ok hmine hd) fun _ _ _ => ?_
      exact trivial
    | ok u =>
      obtain ⟨hw, ts, hdraft, hts⟩ := hcopied rfl
      refine ((now_does rfl).reads hP.drafting ⟨hw, hdraft⟩).bind fun now w hw => ?_
      refine (repoint_data (S := Drafting i l ts) hP hP.drafting hw hmine
        (fun w _ _ hd => ⟨hd.draft, hd.ready_copied hts ?_ ?_ ?_⟩) fun w hd => hd.draft).bind
        fun r w _ => ?_
      · rintro t' ⟨name, cp, hcp, rfl⟩
        rw [lookup_mapVal, Option.map_eq_some_iff] at hcp
        obtain ⟨cp', hcp', rfl⟩ := hcp
        exact .inr ⟨cp', mem_values.mpr ⟨name, hcp'⟩, rfl⟩
      · intro cp hcp
        obtain ⟨name, hcp⟩ := mem_values.mp hcp
        exact ⟨name, cp.copied, by rw [lookup_mapVal, hcp]; rfl, rfl⟩
      · intro cp hcp
        obtain ⟨name, hcp⟩ := mem_values.mp hcp
        rw [lookup_keepIf, Option.filter_eq_some_iff] at hcp
        simpa using hcp.2
      · cases r with
        | error e => exact trivial
        | ok u => exact refreshAfter_local.freeLocal

theorem rollback_data {name : String} {opts : RepointOptions} (hP : Carried env gc assumed i P)
    (hw : P w) : DataOk hset gc assumed i ⊤ (rollback env i host b name opts fuel) w := by
  refine (getRef_origin hP hw).bindOk .ret fun src w hw => ?_
  obtain ⟨hw, hread⟩ := hw
  obtain ⟨horigin, hsrc⟩ := hread src rfl
  have hP' := hP.source w src
  replace hw := And.intro hw hsrc
  generalize w = w₀ at horigin hP' hw
  refine ((now_does rfl).reads hP'.stable hw).bind fun now w hw => ?_
  split
  · exact trivial
  split
  · exact trivial
  rename_i cp hcp
  have hmem : cp.txid ∈ src.txids := Ref.mem_txids.mpr (.inr ⟨name, cp, hcp, rfl⟩)
  obtain ⟨ks, hp⟩ := horigin.path hmem
  refine (backUp_data hP' hw).bindOk .ret fun u w hw => ?_
  refine (refChain_reads.reads hP'.stable (hw u rfl)).bindOk .ret fun members w hw => ?_
  refine (newLineageAt_ok hP' horigin.data.log horigin.refs hp (fun h => h.2.since)
    hw).bind fun r w hw => ?_
  split
  · exact trivial
  · exact rollbackOnto_data hP' horigin (fun h => h.2) hmem (hw _ _ rfl)

theorem NewLineage.draft (h : NewLineage i w₀ src t l base w) : w.Draft i l := by
  cases base with
  | none => exact (h.own rfl).draft
  | some bp => exact (h.shared rfl).1.draft

section

variable (hP : Carried env gc assumed i P)

include hP

theorem promoteOnto_data {tgt : Ref} {source : BranchId} {materialize : Bool}
    (horigin : Origin env source src w₀) (hsrc : ∀ {w}, P w → Source i w₀ src w) (hw : P w) :
    DataOk hset gc assumed i ⊤ (promoteOnto env i host b src tgt srcBranch materialize fuel) w := by
  have hmem : src.headTXID ∈ src.txids := Ref.mem_txids.mpr (.inl rfl)
  obtain ⟨ks, hp⟩ := horigin.path hmem
  refine (headChain_reads.reads hP.stable hw).bindOk .ret fun members w hw => ?_
  refine (newLineageAt_ok hP horigin.data.log horigin.refs hp (fun h => (hsrc h).since)
    hw).bind fun r w hw => ?_
  split
  · exact trivial
  rename_i l base
  refine ((now_does rfl).reads hP.newLineage (hw l base rfl)).bind fun _ w hw => ?_
  refine ((now_does rfl).reads hP.newLineage hw).bind fun _ w hw => ?_
  refine (repoint_data (S := NewLineage i w₀ src src.headTXID l base) hP hP.newLineage hw ?_
    (fun w hlog hw hn => hn.ready hlog horigin (hsrc hw) hmem ?_ ?_ ?_)
    fun w hn => hn.draft).bind fun r w _ => ?_
  · cases base <;> simp [DataKey.lineage]
  · simp [Repoint.apply, Ref.touch]
  · simp [Repoint.apply, Ref.touch]
  · simp [Repoint.apply, Ref.touch, Ref.txids, values]
  · cases r with
    | error e => exact trivial
    | ok u => exact refreshIfAny_local.freeLocal

theorem promote_data {db source target : String} {opts : RepointOptions} (hw : P w) :
    DataOk hset gc assumed i ⊤ (promote env i host db source target opts fuel) w := by
  unfold promote
  split
  · exact trivial
  refine (getRef_origin hP hw).bindOk .ret fun src w hw => ?_
  obtain ⟨hw, hread⟩ := hw
  obtain ⟨horigin, hsrc⟩ := hread src rfl
  have hP' := hP.source w src
  replace hw := And.intro hw hsrc
  generalize w = w₀ at horigin hP' hw
  refine ((getRef_does rfl).reads hP'.stable hw).bindOk .ret fun tgt w hw => ?_
  refine ((now_does rfl).reads hP'.stable hw).bind fun now w hw => ?_
  split
  · exact trivial
  split
  · exact trivial
  · refine (backUp_data hP' hw).bindOk .ret fun u w hw => ?_
    exact promoteOnto_data hP' horigin (fun h => h.2) (hw u rfl)

theorem compactOnto_data (horigin : Origin env b src w₀)
    (hw : P w ∧ Drafting i l [src.headTXID] w) :
    DataOk hset gc assumed i ⊤ (compactOnto env i host b src fuel l) w := by
  refine (copyCheckpoints_ok hP hw).bind fun r w hw => ?_
  obtain ⟨copied, keys⟩ := r
  obtain ⟨hd, hkeys, hcopied⟩ := hw
  have hmine : ∀ k ∈ DataKey.snapshot l 1 src.headTXID :: keys, k.lineage = l := by
    intro k hk
    rcases mem_cons.mp hk with rfl | hk
    · rfl
    · exact hkeys k hk
  cases copied with
  | error e =>
    refine Spec.Holds.bind (deleteObjs_ok hmine hd) fun _ _ _ => ?_
    exact trivial
  | ok u =>
    obtain ⟨hw, ts, hdraft, hts⟩ := hcopied rfl
    refine ((now_does rfl).reads hP.drafting ⟨hw, hdraft⟩).bind fun createdAt w hw => ?_
    refine ((now_does rfl).reads hP.drafting hw).bind fun now w hw => ?_
    -- The checkpoint of the compact itself is at the head.
    have hkept (n : String) : AList.lookup n
        (if ((mapVal Checkpoint.copied src.checkpoints).lookup "compact").isSome then
          mapVal Checkpoint.copied src.checkpoints
        else (mapVal Checkpoint.copied src.checkpoints).insert "compact"
          ⟨src.headTXID, 1, createdAt⟩) =
        if n = "compact" ∧ src.checkpoints.lookup n = none then
          some ⟨src.headTXID, 1, createdAt⟩
        else (src.checkpoints.lookup n).map Checkpoint.copied := by
      rw [lookup_mapVal, Option.isSome_map]
      by_cases hn : n = "compact"
      · subst hn
        cases hlook : src.checkpoints.lookup "compact" with
        | none => simp
        | some cp => simp [lookup_mapVal, hlook]
      · split <;> simp [hn, lookup_mapVal, AList.lookup_insert_ne hn]
    refine (repoint_data (S := Drafting i l ts) hP hP.drafting hw hmine
      (fun w _ _ hd => ⟨hd.draft, hd.ready_copied hts ?_ ?_ ?_⟩) fun w hd => hd.draft).bind
      fun r w _ => ?_
    · rintro t' ⟨name, cp, hcp, rfl⟩
      rw [hkept] at hcp
      split at hcp
      · cases hcp
        exact .inl rfl
      · obtain ⟨cp', hcp', rfl⟩ := Option.map_eq_some_iff.mp hcp
        exact .inr ⟨cp', mem_values.mpr ⟨name, hcp'⟩, rfl⟩
    · intro cp hcp
      obtain ⟨name, hcp⟩ := mem_values.mp hcp
      exact ⟨name, cp.copied, by rw [hkept, hcp]; simp, rfl⟩
    · intro cp hcp
      obtain ⟨name, hcp⟩ := mem_values.mp hcp
      exact horigin.le_head (Ref.mem_txids.mpr (.inr ⟨name, cp, hcp, rfl⟩))
    · cases r with
      | error e => exact trivial
      | ok u => exact refreshIfAny_local.freeLocal

theorem compact_data {force : Bool} (hw : P w) :
    DataOk hset gc assumed i ⊤ (compact env i host b force fuel) w := by
  refine (getRef_origin hP hw).bindOk .ret fun src w hw => ?_
  obtain ⟨hw, hread⟩ := hw
  obtain ⟨horigin, -⟩ := hread src rfl
  generalize w = w₀ at horigin hw
  refine ((now_does rfl).reads hP.stable hw).bind fun now w hw => ?_
  split
  · exact trivial
  refine ((resolve_does rfl).reads hP.stable hw).bind fun r w hw => ?_
  split
  · exact trivial
  · exact trivial
  · refine ((chainAt_does rfl).reads hP.stable hw).bindOk .ret fun members w hw => ?_
    refine (copySnapshotToNewLineage_ok hP hw).bindOk .ret fun l w hw => ?_
    exact compactOnto_data hP horigin (hw l rfl)

end

end Programs

end Offshoot
