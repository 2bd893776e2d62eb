import Offshoot.System.Prepare

/-!
# Every operation keeps the bases in order

The operations that mint no lineage make no base pointer.  Those that do are shown to
prepare their lineage as they should, one after the other.
-/

namespace Offshoot

open Conc Maps

variable {env : Env} {assumed : World → World → Prop} {w w' : World} {i : Nat}
  {b : BranchId} {P Q : World → Prop} {host fuel t : Nat} {src : Ref} {l : Lineage}

theorem getRef_prepares (hP : Kept env assumed i P) (hw : P w) : Preparing env assumed i
      (fun r w => P w ∧ ∀ ref, r = .ok ref → w.Version b ref ∧ Sane w ref) (getRef b) w := by
  refine Spec.Holds.read (fun _ => .refl) (fun _ _ => rfl) hP.stable hw
    fun w o hinv hw => ⟨hw, fun ref hres => ?_⟩
  split at hres
  · cases hres
  split at hres
  · rename_i r hcur
    cases hres
    have hv := hinv.1.current hcur
    exact ⟨hv, hinv.2.ref hv⟩
  · cases hres

theorem Sane.of_stored {r : Ref}
    (hcps : ∀ name cp, r.checkpoints.lookup name = some cp → cp.txid ≤ r.headTXID)
    (hbase : ∀ bp, r.base = some bp → w.Leads bp) : Sane w r.stored where
  txids t ht := by
    rw [Ref.txids_stored, Ref.mem_txids] at ht
    rw [Ref.stored_headTXID]
    rcases ht with rfl | ⟨name, cp, hcp, rfl⟩
    · exact le_rfl
    · exact hcps name cp hcp
  base bp hbp := hbase bp (by rwa [Ref.stored_base] at hbp)

theorem lookup_one {n name : String} {cp cp' : Checkpoint}
    (h : ((∅ : Map String Checkpoint).insert n cp).lookup name = some cp') : cp' = cp := by
  by_cases hn : name = n
  · subst hn
    rw [AList.lookup_insert] at h
    exact (Option.some.inj h).symm
  · rw [AList.lookup_insert_ne hn] at h
    cases h

theorem repoint_prepares {p : Repoint} {keys : List DataKey} (hP : Kept env assumed i P)
    (hkeys : ∀ k ∈ keys, k.lineage = p.lineage) (hsane : ∀ {w}, P w → Sane w (p.apply src).stored)
    (hw : P w ∧ w.Draft i p.lineage) :
    Preparing env assumed i ⊤ (repoint env i b src p keys) w := by
  refine (putRef_prepares hP hw (by rfl) (by trivial) (RefOp.apply_edit rfl) hsane).bind
    fun r w hw => ?_
  cases r with
  | ok u => exact trivial
  | error e =>
    have hw' : Unnamed assumed i p.lineage w ∨ w.Lost src.lineage :=
      hw.2.imp (fun hn _ => ⟨hw.1, hn⟩) fun hlost => hlost src rfl
    refine (settleRepoint_prepares hw').bind fun r w hw => ?_
    split
    · exact trivial
    · exact trivial
    · exact (deleteObjs_prepares hkeys (hw rfl)).bind .ret
    · exact trivial

theorem now_local : Does env i Act.Local (now env) := now_does trivial

theorem create_prepares {db : String} {img : Image} :
    Preparing env assumed i ⊤ (create env i db img) w := by
  have hlist : Does env i Act.Local listRefs := listRefs_does trivial
  refine (hlist.local Kept.true trivial).bindOk .ret fun ks w _ => ?_
  dsimp only
  split
  · exact trivial
  refine (newLineageID_prepares Kept.true trivial).bind fun l w hw => ?_
  split
  · exact trivial
  rename_i snap _
  have hput : Does env i Act.Copies (putIf env (.snapshot l 1 1) (.snapshot snap)) :=
    putIf_does ⟨trivial, trivial⟩ ⟨trivial, (fun _ h => by cases h)⟩
      ⟨trivial, (fun _ h => by cases h)⟩
  refine (hput.copies (Kept.true.and .draft) hw).bindOk .ret fun u w hw => ?_
  refine (now_local.local (Kept.true.and .draft) hw).bind fun t w hw => ?_
  refine (putRef_prepares Kept.true hw (by rfl) (by trivial) (by rfl)
    fun _ => .of_stored (fun _ _ h => (congrArg (·.txid) (lookup_one h)).le)
      (by simp)).bind fun r w _ => ?_
  cases r with
  | ok u => exact trivial
  | error e =>
    refine (settleRepoint_local.local Kept.true trivial).bind fun r w _ => ?_
    split <;> exact trivial

theorem forkPoint_le {checkpoint : Option String} (hsane : Sane w src)
    (h : forkPoint src checkpoint = some t) : t ≤ src.headTXID := by
  cases checkpoint with
  | none => exact (Option.some.inj h).ge
  | some name =>
    obtain ⟨cp, hcp, rfl⟩ := Option.map_eq_some_iff.mp h
    exact hsane.txids _ (Ref.mem_txids.mpr (.inr ⟨name, cp, hcp, rfl⟩))

theorem fork_prepares {srcBranch new : BranchId} {opts : ForkOptions} :
    Preparing env assumed i ⊤ (fork env i host srcBranch new opts fuel) w := by
  refine (getRef_prepares (b := srcBranch) Kept.true trivial).bindOk .ret fun src w hw => ?_
  obtain ⟨hv, hsane⟩ := hw.2 src rfl
  have hsrc : Kept env assumed i fun w => w.Version srcBranch src := .version
  dsimp only
  split
  · exact trivial
  rename_i txid hpoint
  have ht := forkPoint_le hsane hpoint
  refine (refChain_local.local hsrc hv).bindOk .ret fun members w hw => ?_
  refine (forkNameFree_local.local hsrc hw).bindOk .ret fun u w hw => ?_
  refine (newLineageAt_prepares hsrc id ht hw).bind fun r w hw => ?_
  split
  · exact trivial
  rename_i l base
  have hfresh := hw.2 l base rfl
  refine (now_local.local Fresh.kept hfresh).bind fun _ w hw => ?_
  refine (now_local.local Fresh.kept hw).bind fun _ w hw => ?_
  refine (putRef_prepares (P := Fresh i l base) Fresh.kept ⟨hw, hw.1⟩ (by rfl)
    (by trivial) (by rfl) fun h =>
      .of_stored (fun _ _ hcp => (congrArg (·.txid) (lookup_one hcp)).le) h.2).bind fun r w _ => ?_
  cases r with
  | ok u => exact trivial
  | error e =>
    refine (settleRepoint_local.local Kept.true trivial).bind fun r w _ => ?_
    split <;> exact trivial

theorem safetyFork_prepares {suffix metaKey : String} {ttl : Nat} {materialize : Bool} :
    Preparing env assumed i ⊤ (safetyFork env i host b suffix metaKey ttl fuel materialize) w := by
  refine (getRef_prepares Kept.true trivial).bind fun r w _ => ?_
  split
  · exact fork_prepares.bindOk .ret .ret
  · exact trivial
  · split
    · exact trivial
    have hdestroy : Does env i (Act.Calm fun _ _ => True)
        (destroy env i host ⟨b.db, b.branch ++ suffix⟩ false) := destroy_calm fun _ _ => trivial
    refine (hdestroy.plain (fun _ h => ⟨h.keeps.2, h.grows.2⟩) Kept.true trivial).bindOk .ret
      fun u w _ => ?_
    exact fork_prepares.bindOk .ret .ret

variable {p : M α}

theorem Spec.Holds.recalls {Q : α → World → Prop} (h : Preparing env assumed i Q p w)
    (hP : ∀ {w w'}, w.log ⊆ w'.log → P w → P w') (hw : P w) :
    Preparing env assumed i (fun a w => Q a w ∧ P w) p w :=
  h.carry (Kept.of_log hP).stable (fun _ _ hstep => hP hstep.log) hw

theorem backUp_prepares {suffix metaKey : String} {ttl : Nat} {skip : Bool} :
    Preparing env assumed i ⊤ (backUp env i host b suffix metaKey ttl fuel skip) w := by
  unfold backUp
  split
  · exact trivial
  · exact safetyFork_prepares

theorem rollbackOnto_prepares {base : Option BasePointer} (hw : Fresh i l base w) :
    Preparing env assumed i ⊤ (rollbackOnto env i host b src t fuel l base) w := by
  have hrepoint {w : World} {cps : Map String Checkpoint} {now : Nat} {keys : List DataKey}
      (hcps : ∀ name cp, cps.lookup name = some cp → cp.txid ≤ t)
      (hkeys : ∀ k ∈ keys, k.lineage = l) (hw : Fresh i l base w) :
      Preparing env assumed i ⊤ (repoint env i b src ⟨l, t, cps, base, now⟩ keys) w := by
    have hsane {w : World} (h : Fresh i l base w) :
        Sane w (Repoint.apply ⟨l, t, cps, base, now⟩ src).stored := .of_stored hcps h.2
    exact (repoint_prepares Fresh.kept hkeys hsane ⟨hw, hw.1⟩).mono fun _ _ _ => trivial
  have hafter {w : World} {next : Ref} :
      Preparing env assumed i ⊤
        (refreshAfter host b next fuel) w := refreshAfter_local.local Kept.true trivial
  have hkept : ∀ name cp, (keepIf (fun _ c => decide (c.txid ≤ t)) src.checkpoints).lookup name =
      some cp → cp.txid ≤ t := by
    intro name cp hcp
    rw [lookup_keepIf, Option.filter_eq_some_iff] at hcp
    simpa using hcp.2
  unfold rollbackOnto
  dsimp only
  split
  · refine (now_local.local Fresh.kept hw).bind fun now w hw => ?_
    refine (hrepoint hkept (by simp [DataKey.lineage]) hw).bindOk .ret fun u w _ => ?_
    exact hafter
  · refine ((copyCheckpoints_copies.copies Fresh.kept hw).returns copyCheckpoints_keys).bind
      fun r w hw => ?_
    have hmine : ∀ k ∈ DataKey.snapshot l 1 t :: r.2, k.lineage = l :=
      fun k hk => (initial_head hw.2 k hk).lineage
    split
    · exact (deleteObjs_prepares hmine fun _ => ⟨hw.1.1.1, hw.1.1.2.1⟩).bind .ret
    refine (now_local.local Fresh.kept hw.1).bind fun now w hw => ?_
    refine (hrepoint (fun name cp hcp => ?_) hmine hw).bind fun r w _ => ?_
    · rw [lookup_mapVal, Option.map_eq_some_iff] at hcp
      obtain ⟨cp', hcp', rfl⟩ := hcp
      exact hkept name cp' hcp'
    · cases r with
      | error e => exact trivial
      | ok u => exact hafter

theorem rollback_prepares {name : String} {opts : RepointOptions} :
    Preparing env assumed i ⊤ (rollback env i host b name opts fuel) w := by
  refine (getRef_prepares (b := b) Kept.true trivial).bindOk .ret fun src w hw => ?_
  obtain ⟨hv, hsane⟩ := hw.2 src rfl
  have hsrc : Kept env assumed i fun w => w.Version b src := .version
  refine (now_local.local hsrc hv).bind fun now w hv => ?_
  split
  · exact trivial
  split
  · exact trivial
  rename_i cp hcp
  have ht : cp.txid ≤ src.headTXID :=
    hsane.txids _ (Ref.mem_txids.mpr (.inr ⟨name, cp, hcp, rfl⟩))
  refine (Spec.Holds.recalls (P := fun w => w.Version b src) backUp_prepares
    (fun hlog h => h.mono hlog) hv).bindOk .ret fun u w hw => ?_
  refine (refChain_local.local hsrc hw.2).bindOk .ret fun members w hv => ?_
  refine (newLineageAt_prepares hsrc id ht hv).bind fun r w hw => ?_
  split
  · exact trivial
  · exact rollbackOnto_prepares (hw.2 _ _ rfl)

theorem promoteOnto_prepares {tgt : Ref} {source srcBranch : BranchId} {materialize : Bool}
    (hv : w.Version srcBranch src) :
    Preparing env assumed i ⊤ (promoteOnto env i host b src tgt source materialize fuel) w := by
  have hsrc : Kept env assumed i fun w => w.Version srcBranch src := .version
  refine (headChain_local.local hsrc hv).bindOk .ret fun members w hv => ?_
  refine (newLineageAt_prepares hsrc id le_rfl hv).bind fun r w hw => ?_
  split
  · exact trivial
  rename_i l base
  refine (now_local.local Fresh.kept (hw.2 l base rfl)).bind fun _ w hw => ?_
  refine (now_local.local Fresh.kept hw).bind fun _ w hw => ?_
  refine (repoint_prepares (P := Fresh i l base) Fresh.kept ?_ ?_ ⟨hw, hw.1⟩).bind fun r w _ => ?_
  · cases base <;> simp [DataKey.lineage]
  · exact fun h => .of_stored (fun _ _ hcp => (congrArg (·.txid) (lookup_one hcp)).le) h.2
  · cases r with
    | error e => exact trivial
    | ok u => exact refreshIfAny_local.local Kept.true trivial

theorem promote_prepares {db source target : String} {opts : RepointOptions} :
    Preparing env assumed i ⊤ (promote env i host db source target opts fuel) w := by
  unfold promote
  split
  · exact trivial
  refine (getRef_prepares (b := ⟨db, source⟩) Kept.true trivial).bindOk .ret fun src w hw => ?_
  have hv := (hw.2 src rfl).1
  have hsrc : Kept env assumed i fun w => w.Version ⟨db, source⟩ src := .version
  refine (getRef_prepares (b := ⟨db, target⟩) hsrc hv).bindOk .ret fun tgt w hw => ?_
  refine (now_local.local hsrc hw.1).bind fun now w hv => ?_
  split
  · exact trivial
  split
  · exact trivial
  · refine (Spec.Holds.recalls (P := fun w => w.Version ⟨db, source⟩ src) backUp_prepares
      (fun hlog h => h.mono hlog) hv).bindOk .ret fun u w hw => ?_
    exact promoteOnto_prepares hw.2

theorem compactOnto_prepares (hsane : Sane w' src) (hw : w.Draft i l) :
    Preparing env assumed i ⊤ (compactOnto env i host b src fuel l) w := by
  have hdraft : Kept env assumed i fun w => w.Draft i l := .draft
  refine ((copyCheckpoints_copies.copies hdraft hw).returns copyCheckpoints_keys).bind
    fun r w hw => ?_
  obtain ⟨copied, keys⟩ := r
  have hmine : ∀ k ∈ DataKey.snapshot l 1 src.headTXID :: keys, k.lineage = l :=
    fun k hk => (initial_head hw.2 k hk).lineage
  cases copied with
  | error e =>
    refine Spec.Holds.bind (deleteObjs_prepares hmine fun _ => ⟨hw.1.1, hw.1.2.1⟩) fun _ _ _ => ?_
    exact trivial
  | ok u =>
    refine (now_local.local hdraft hw.1).bind fun createdAt w hw => ?_
    refine (now_local.local hdraft hw).bind fun now w hw => ?_
    refine (repoint_prepares (P := fun w => w.Draft i l) hdraft hmine
      (fun _ => .of_stored (fun name cp hcp => ?_) fun _ h => by cases h) ⟨hw, hw⟩).bind
      fun r w _ => ?_
    · have hcopied : ∀ name cp, (mapVal Checkpoint.copied src.checkpoints).lookup name = some cp →
          cp.txid ≤ src.headTXID := by
        intro name cp hcp
        rw [lookup_mapVal, Option.map_eq_some_iff] at hcp
        obtain ⟨cp', hcp', rfl⟩ := hcp
        exact hsane.txids _ (Ref.mem_txids.mpr (.inr ⟨name, cp', hcp', rfl⟩))
      simp only [Repoint.apply, Ref.touch] at hcp ⊢
      split at hcp
      · exact hcopied name cp hcp
      by_cases hn : name = "compact"
      · subst hn
        cases hcp
        exact le_rfl
      · rw [AList.lookup_insert_ne hn] at hcp
        exact hcopied name cp hcp
    · cases r with
      | error e => exact trivial
      | ok u => exact refreshIfAny_local.local Kept.true trivial

theorem compact_prepares {force : Bool} :
    Preparing env assumed i ⊤ (compact env i host b force fuel) w := by
  refine (getRef_prepares (b := b) Kept.true trivial).bindOk .ret fun src w hw => ?_
  have hsane := (hw.2 src rfl).2
  refine (now_local.local Kept.true trivial).bind fun now w _ => ?_
  split
  · exact trivial
  have hspine : Does env i Act.Local (resolve (baseSpine · src.lineage) fuel .empty) :=
    resolve_does trivial
  refine (hspine.local Kept.true trivial).bind fun r w _ => ?_
  split
  · exact trivial
  · exact trivial
  have hchain : Does env i Act.Local (chainAt fuel src.lineage src.headTXID) :=
    chainAt_does trivial
  refine (hchain.local Kept.true trivial).bindOk .ret fun members w _ => ?_
  refine (copySnapshotToNewLineage_prepares Kept.true trivial).bindOk .ret fun l w hw => ?_
  exact compactOnto_prepares hsane (hw.2 l rfl)

/-! ## All operations -/

theorem flying_prepares {f : Flight} (hp : ∀ w, Preparing env assumed i ⊤ p w) :
    Preparing env assumed i ⊤ (flying i f p) w := by
  have hflight (f : Option Flight) : Does env i (fun a => a = .flight f) (setFlight i f) :=
    setFlight_does rfl
  have hset (f : Option Flight) {w : World} :
      Preparing env assumed i ⊤ (setFlight i f) w :=
    (hflight f).plain (by rintro _ rfl; exact ⟨trivial, trivial⟩) Kept.true trivial
  exact (hset _).bind fun _ w _ => (hp w).bind fun _ _ _ => hset _

theorem Op.prog_prepares {op : Op} (hop : op.forks = true) :
    Preparing env assumed i ⊤ (op.prog env i) w := by
  cases op with
  | create db img => exact flying_prepares fun _ => create_prepares
  | fork host src new opts fuel => exact flying_prepares fun _ => fork_prepares
  | rollback host b name opts fuel => exact flying_prepares fun _ => rollback_prepares
  | promote host db source target opts fuel => exact flying_prepares fun _ => promote_prepares
  | compact host b force fuel => exact flying_prepares fun _ => compact_prepares
  | _ => cases hop

theorem Does.bases {A : Act → Prop} (h : Does env i A p) (hA : ∀ a, A a → a.nameless) :
    (baseLayer env assumed).Ok i ⊤ p w := by
  refine Prog.All.holds (Prog.All.mono ?_ h)
  rintro w w' ⟨a, ha, hok, hrun⟩ - -
  obtain ⟨hn, hv, hl⟩ := (hA a ha).sane hok
  exact ⟨a, hok, by simp [hn], hv, hl, hrun⟩

theorem Op.prog_bases (op : Op) : (baseLayer env assumed).Ok i ⊤ (op.prog env i) w := by
  by_cases hland : ∃ n, op = .land n
  · obtain ⟨n, rfl⟩ := hland
    exact Spec.Holds.step (Spec.Stable.const True) trivial fun w o _ _ _ =>
      ⟨⟨.late n, trivial, (fun _ h => by cases h), trivial, trivial, rfl⟩, trivial⟩
  · rw [not_exists] at hland
    cases hforks : op.forks with
    | true => exact (Op.prog_prepares hforks).weaken fun _ _ h => h.may
    | false =>
      cases hgc : op.collects with
      | false => exact (op.prog_keeps hforks hgc hland).bases fun _ h => h.2
      | true =>
        cases op with
        | gc grace fuel =>
          refine (flying_collects gc_collects).bases fun a h => ?_
          cases a <;> first | exact h.elim | trivial
        | _ => cases hgc

theorem baseLayer_refs (h : (baseLayer env assumed).may i w w') : (refSpec env).may i w w' := by
  obtain ⟨a, hok, hname, -, -, hrun⟩ := h
  exact ⟨a, hok, hname, hrun⟩

theorem baseLayer_sound {enabled : Op → Prop} :
    (baseLayer env assumed).spec.Sound (system env enabled) :=
  Layer.sound_of_may (fun _ _ _ => baseLayer_refs) (fun _ op _ _ _ _ => op.prog_bases)
    fun _ _ _ => ⟨.flight none, trivial, (fun _ h => by cases h), trivial, trivial, rfl⟩

theorem baseLayer_init {ι : Type} : Safe (baseLayer env assumed).spec
    (.init .empty : Config World Oracle ι) :=
  Safe.init ⟨.empty env, .empty⟩ fun _ => ⟨trivial, trivial⟩

theorem baseLayer_all (w w' : World) : (baseLayer env fun _ _ => True).spec.assumed w w' :=
  ⟨trivial, trivial⟩

end Offshoot
