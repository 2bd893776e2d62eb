import Offshoot.Data.Chains

/-!
# Safety forks

A rollback or a promote first forks the branch it is about to repoint, under a name
that an earlier one may have used, whose fork it then replaces.  The repointing
write is conditional on the ref the call read, so the head it abandons is the one
the fork was made of; but nothing ties it to the fork itself, which another such
call may have removed meanwhile.
-/

namespace Offshoot

open Conc Maps

variable {env : Env} {hset : env.settled = true} {gc : Prop}
  {assumed : World → World → Prop} {w w' w₀ w₁ : World} {i j host fuel : Nat} {b B : BranchId}
  {P : World → Prop} {ref src child : Ref}

/-- While the call that made the branch `B` is in flight, `B` stays, with its head, its
lineage and its base. -/
def Undisturbed (B : BranchId) (w w' : World) : Prop :=
  ∀ i child before after r, Event.wrote i B (.create child) before after ∈ w.log →
    w.inFlight i = some .fork → w.refs.lookup B = some r →
    ∃ r', w'.refs.lookup B = some r' ∧ r'.lineage = r.lineage ∧ r'.headTXID = r.headTXID ∧
      r'.base = r.base

/-- There is a branch `B`, and if it shares its history rather than copying it, its head
resolves to the members of the head of `b`. -/
def BacksUp (w : World) (b B : BranchId) : Prop :=
  ∃ r r', w.refs.lookup b = some r ∧ w.refs.lookup B = some r' ∧
    (r'.base.isSome → ∃ members, chain w.view r.lineage r.headTXID = .ok members ∧
      chain w.view r'.lineage r'.headTXID = .ok members)

/-! ## What a call knows of its fork -/

/-- A call that has read `ref` and then forked `src` keeps the fork. -/
structure Backed (env : Env) (i : Nat) (b B : BranchId) (ref src child : Ref) (w₁ w : World) :
    Prop where
  flying : w.inFlight i = some .fork
  origin : Origin env b src w₁
  read : w₁.Version b ref
  since : Since w₁ w
  wrote : Event.wrote i B (.create child) none (some child.stored) ∈ w.log
  current : ∃ r, w.refs.lookup B = some r ∧ r.lineage = child.lineage ∧
    r.headTXID = child.headTXID ∧ r.base = child.base
  head : child.headTXID = src.headTXID
  shared : ∀ {bp}, child.base = some bp →
    bp.txid = src.headTXID ∧ Collapsed w₁ src.lineage bp.lineage src.headTXID

theorem Backed.carried : Carried env gc (Undisturbed B) i (Backed env i b B ref src child w₁) where
  flying h := h.flying
  step hr h htr hf hb := by
    obtain ⟨r, hcur, hl, ht, hbase⟩ := hb.current
    obtain ⟨r', hcur', hl', ht', hbase'⟩ := htr.assumed _ _ _ _ r hb.wrote hb.flying hcur
    exact ⟨hf, hb.origin, hb.read, hb.since.trans htr, htr.log hb.wrote,
      ⟨r', hcur', hl'.trans hl, ht'.trans ht, hbase'.trans hbase⟩, hb.head, hb.shared⟩

theorem Forked.backed (h : Forked env i b B src child src.headTXID w₁ w)
    (hf : w.inFlight i = some .fork) (hread : w₁.Version b ref) :
    Backed env i b B ref src child w₁ w where
  flying := hf
  origin := h.origin
  read := hread
  since := h.since
  wrote := h.wrote
  current := ⟨child.stored, h.current, by simp, by simp, by simp⟩
  head := h.head
  shared := h.shared

theorem Backed.same (h : Backed env i b B ref src child w₁ w) (hr : RefsInv env w)
    (hcur : w.refs.lookup b = some ref) :
    ref.lineage = src.lineage ∧ ref.headTXID = src.headTXID := by
  have hnamed : w₁.Named ref.lineage := ⟨b, ref, h.read, rfl⟩
  obtain ⟨b', r', hcur', hl'⟩ := h.since.current hcur hnamed
  have hrefs := h.origin.refs
  obtain rfl := hrefs.branch (hrefs.current hcur') h.read hl'
  cases hcur'.symm.trans h.origin.current
  have hle := (hrefs.latest h.origin.current h.read hl'.symm).2
  have hge := (hr.latest hcur ((hrefs.current h.origin.current).mono h.since.log) hl').2
  exact ⟨hl'.symm, le_antisymm hle hge⟩

theorem pathMembers_base (ls : List Lineage) (ks : List DataKey) :
    pathMembers (ls.map DataKey.base ++ ks) = pathMembers ks := by
  induction ls with
  | nil => rfl
  | cons l ls ih => exact ih

theorem Backed.backsUp (h : Backed env i b B ref src child w₁ w) (hr : RefsInv env w)
    (hd : DataInv w) (hcur : w.refs.lookup b = some ref) : BacksUp w b B := by
  obtain ⟨r, hB, hl, ht, hbase⟩ := h.current
  refine ⟨ref, r, hcur, hB, fun hshared => ?_⟩
  obtain ⟨bp, hbp⟩ := Option.isSome_iff_exists.mp hshared
  obtain ⟨hlineage, hhead⟩ := h.same hr hcur
  obtain ⟨ks, hp, -, hchain⟩ := hd.chain hr hcur (Ref.mem_txids.mpr (.inl rfl))
  obtain ⟨ksB, hpB, -, hchainB⟩ := hd.chain hr hB (Ref.mem_txids.mpr (.inl rfl))
  obtain ⟨htxid, hcol⟩ := h.shared (hbase.symm.trans hbp)
  have hbaseOf : w.BaseOf r.lineage bp :=
    ⟨i, B, _, _, child.stored, h.wrote, by rw [hl]; rfl, by simpa using hbase.symm.trans hbp⟩
  -- The fork's path goes through its base, to a path of the head that was forked.
  have hle : r.headTXID ≤ bp.txid := by
    rw [ht, h.head, htxid]
  obtain ⟨ks', hp', rfl⟩ := hd.log.path_through hbaseOf hle hpB
  obtain ⟨ks₁, hp₁⟩ := h.origin.path (Ref.mem_txids.mpr (.inl rfl))
  obtain ⟨ls, ks₂, hp₂, rfl⟩ := hcol _ ks₁ le_rfl hp₁
  have hsrc : ks = ls.map DataKey.base ++ ks₂ := by
    refine hd.log.path_unique hp ?_
    rw [hlineage, hhead]
    exact hp₁.mono h.since.log
  have hfork : ks' = ks₂ := by
    refine hd.log.path_unique hp' ?_
    rw [ht, h.head]
    exact hp₂.mono h.since.log
  refine ⟨pathMembers ks, hchain, ?_⟩
  rw [hchainB, hsrc, pathMembers_base, hfork]
  rfl

/-! ## The repointing write -/

/-- Thread `i` repoints `b` only when `B` backs it up. -/
def Backs (i : Nat) (b B : BranchId) (w w' : World) : Prop :=
  ∀ p after, Wrote w w' i b (.edit (.repoint p)) after → BacksUp w b B

abbrev BacksOk (hset : env.settled = true) (gc : Prop) (assumed : World → World → Prop) (i : Nat)
    (b B : BranchId) (Q : α → World → Prop) (p : M α) (w : World) : Prop :=
  (dataLayer env hset gc assumed).spec.Holds (Backs i b B) i Q p w

def OtherKinds (_ : BranchId) (k : RefOp.Kind) : Prop := k ≠ .repoint

variable {p : M α}

theorem Does.backs (h : Does env i (Act.In OtherKinds) p) :
    BacksOk hset gc assumed i b B ⊤ p w := by
  refine Prog.All.holds (Prog.All.mono ?_ h)
  rintro w _ ⟨a, ha, hok, rfl⟩ ⟨hr, -⟩ - q after hwrote
  rcases hr.effects hok with hun | ⟨j, b', op, after', hw, hsrc⟩
  · exact absurd hwrote hun.not_wrote
  obtain ⟨rfl, rfl, rfl, rfl⟩ := hw.unique hwrote
  rcases hsrc with ⟨-, hop⟩ | ⟨r, -, hp⟩ | ⟨heq, -⟩
  · cases a <;> simp only [Act.op, Option.some.injEq, Prod.mk.injEq, reduceCtorEq] at hop
    case effect =>
      rw [RefOp.edit.inj hop.2] at ha
      exact absurd rfl ha
    all_goals
      rw [Act.In, hop.2] at ha
      exact absurd rfl ha
  · rw [hr.settled hset] at hp
    cases hp
  · cases heq

theorem Spec.Ok.backs {Q : α → World → Prop} (h : DataOk hset gc assumed i Q p w)
    (hp : Does env i (Act.In OtherKinds) p) :
    BacksOk hset gc assumed i b B Q p w :=
  ((h.and hp.backs).weaken fun _ _ h => h.2).mono fun _ _ h => h.1

theorem Does.readsBacks (h : Does env i (Eq .none) p)
    (hstable : DataStable hset gc assumed i P) (hw : P w) :
    BacksOk hset gc assumed i b B (fun _ w => P w) p w :=
  Spec.Ok.backs (h.reads hstable hw) (h.of_reads trivial)

theorem repoint_backs {p : Repoint} {keys : List DataKey}
    (hstable : DataStable hset gc assumed i P) (hw : P w)
    (hback : ∀ w, RefsInv env w → DataInv w → P w → w.refs.lookup b = some ref → BacksUp w b B) :
    BacksOk hset gc assumed i b B ⊤ (repoint env i b ref p keys) w := by
  refine Spec.Holds.bind (Q := fun _ _ => True) (putRef_holds hstable hw (RefOp.apply_edit rfl)
    trivial fun w a res hinv hw hputs hok _ _ => ⟨?_, trivial⟩) fun r w _ => ?_
  · intro q after hwrote
    rcases hputs with rfl | ⟨rfl, hit⟩ | rfl
    · exact absurd hwrote (Unwritten.of_eq rfl rfl).not_wrote
    · exact hback w hinv.1 hinv.2 hw hit
    · have hun := hok.1
      rw [hset] at hun
      cases hun
  · cases r with
    | ok u => exact trivial
    | error e =>
      refine Does.backs (.bind settleRepoint_local.withinLocal fun v => ?_)
      split
      · exact .pure _
      · exact .pure _
      · exact .bind deleteObjs_keeps.within .ret
      · exact .pure _

theorem refreshAfter_backs {next : Ref} : BacksOk hset gc assumed i b B ⊤
      (refreshAfter host b next fuel) w := refreshAfter_local.withinLocal.backs

section Programs

variable {t : Nat} {l : Lineage}

theorem rollbackOnto_backs {base : Option BasePointer} (hP : Carried env gc assumed i P)
    (hback : ∀ w, RefsInv env w → DataInv w → P w → w.refs.lookup b = some ref → BacksUp w b B)
    (hw : P w ∧ NewLineage i w₀ ref t l base w) :
    BacksOk hset gc assumed i b B ⊤
      (rollbackOnto env i host b ref t fuel l base) w := by
  unfold rollbackOnto
  split
  · refine (Does.readsBacks (now_does rfl) hP.stable hw.1).bind fun now w hw => ?_
    refine (repoint_backs hP.stable hw hback).bindOk .ret fun u w _ => ?_
    exact refreshAfter_backs
  · refine (Spec.Ok.backs (copyCheckpoints_ok hP ⟨hw.1, hw.2.own rfl⟩)
      copyCheckpoints_copies.builds.withinBuilds).bind fun r w hw => ?_
    obtain ⟨copied, keys⟩ := r
    obtain ⟨-, -, hcopied⟩ := hw
    cases copied with
    | error e =>
      refine Spec.Holds.bind (Does.backs deleteObjs_keeps.within) fun _ _ _ => ?_
      exact trivial
    | ok u =>
      refine (Does.readsBacks (now_does rfl) hP.stable (hcopied rfl).1).bind fun now w hw => ?_
      refine (repoint_backs hP.stable hw hback).bindOk .ret fun u w _ => ?_
      exact refreshAfter_backs

theorem backUp_backs {suffix metaKey : String} {ttl : Nat} (hP : Carried env gc assumed i P)
    (hw : P w) :
    BacksOk hset gc assumed i b B
      (fun r w => ∀ u, r = .ok u → P w ∧ ∃ src child w₁, P w₁ ∧
        Forked env i b ⟨b.db, b.branch ++ suffix⟩ src child src.headTXID w₁ w)
      (backUp env i host b suffix metaKey ttl fuel false) w :=
  Spec.Ok.backs (safetyFork_forked hP hw)
    (Does.withinGrows <| safetyFork_grows (by simp [OtherKinds]) fun k hk => by
    rintro rfl
    exact hk)

theorem rollback_backs {name : String} {opts : RepointOptions} (hnb : opts.noBackup = false)
    (hw : w.inFlight i = some .fork) :
    BacksOk hset gc (Undisturbed ⟨b.db, b.branch ++ "-pre-rollback"⟩) i b
      ⟨b.db, b.branch ++ "-pre-rollback"⟩ ⊤
      (rollback env i host b name opts fuel) w := by
  refine (Spec.Ok.backs (getRef_origin Carried.flight hw) (getRef_does trivial)).bindOk .ret
    fun ref w hw => ?_
  obtain ⟨horigin, hsrc⟩ := hw.2 ref rfl
  generalize w = w₀ at horigin hsrc
  refine (Does.readsBacks (now_does rfl) Source.carried.stable hsrc).bind fun now w hsrc => ?_
  split
  · exact trivial
  split
  · exact trivial
  rename_i cp hcp
  have hmem : cp.txid ∈ ref.txids := Ref.mem_txids.mpr (.inr ⟨name, cp, hcp, rfl⟩)
  obtain ⟨ks, hp⟩ := horigin.path hmem
  rw [hnb]
  refine (backUp_backs Source.carried hsrc).bindOk .ret fun u w hw => ?_
  obtain ⟨hsrc, src, child, w₁, hsrc₁, hforked⟩ := hw u rfl
  have hread : w₁.Version b ref :=
    (horigin.refs.current horigin.current).mono hsrc₁.since.log
  -- The fork is kept from here on.
  have hP : Carried env gc (Undisturbed ⟨b.db, b.branch ++ "-pre-rollback"⟩) i fun w =>
      Source i w₀ ref w ∧ Backed env i b ⟨b.db, b.branch ++ "-pre-rollback"⟩ ref src child w₁ w :=
    Source.carried.and Backed.carried
  refine (refChain_reads.readsBacks hP.stable
    ⟨hsrc, hforked.backed hsrc.flying hread⟩).bindOk .ret fun members w hw => ?_
  refine (Spec.Ok.backs (newLineageAt_ok hP horigin.data.log horigin.refs hp
    (fun h => h.1.since) hw) newLineageAt_builds.withinBuilds).bind fun r w hw => ?_
  split
  · exact trivial
  · exact rollbackOnto_backs hP (fun w hr hd hw hcur => hw.2.backsUp hr hd hcur) (hw _ _ rfl)

theorem promoteOnto_backs {tgt : Ref} {source srcBranch : BranchId} {materialize : Bool}
    (hP : Carried env gc assumed i P) (horigin : Origin env source src w₀)
    (hsrc : ∀ {w}, P w → Source i w₀ src w)
    (hback : ∀ w, RefsInv env w → DataInv w → P w → w.refs.lookup b = some tgt → BacksUp w b B)
    (hw : P w) :
    BacksOk hset gc assumed i b B ⊤
      (promoteOnto env i host b src tgt srcBranch materialize fuel) w := by
  obtain ⟨ks, hp⟩ := horigin.path (Ref.mem_txids.mpr (.inl rfl))
  refine (headChain_reads.readsBacks hP.stable hw).bindOk .ret fun members w hw => ?_
  refine (Spec.Ok.backs (newLineageAt_ok hP horigin.data.log horigin.refs hp
    (fun h => (hsrc h).since) hw) newLineageAt_builds.withinBuilds).bind fun r w hw => ?_
  split
  · exact trivial
  rename_i l base
  refine (Does.readsBacks (now_does rfl) hP.stable (hw l base rfl).1).bind fun _ w hw => ?_
  refine (Does.readsBacks (now_does rfl) hP.stable hw).bind fun _ w hw => ?_
  refine (repoint_backs hP.stable hw hback).bindOk .ret fun u w _ => ?_
  exact refreshIfAny_local.withinLocal.backs

theorem promote_backs {db source target : String} {opts : RepointOptions}
    (hnb : opts.noBackup = false) (hown : source ≠ target ++ "-pre-promote")
    (hw : w.inFlight i = some .fork) :
    BacksOk hset gc (Undisturbed ⟨db, target ++ "-pre-promote"⟩) i ⟨db, target⟩
      ⟨db, target ++ "-pre-promote"⟩ ⊤
      (promote env i host db source target opts fuel) w := by
  unfold promote
  split
  · exact trivial
  refine (Spec.Ok.backs (getRef_origin Carried.flight hw) (getRef_does trivial)).bindOk .ret
    fun src w hw => ?_
  obtain ⟨horigin, hsrc⟩ := hw.2 src rfl
  generalize w = w₀ at horigin hsrc
  refine (Spec.Ok.backs (getRef_origin Source.carried hsrc) (getRef_does trivial)).bindOk .ret
    fun tgt w hw => ?_
  obtain ⟨hsrc, hread⟩ := hw
  obtain ⟨htorigin, htgt⟩ := hread tgt rfl
  have hP : Carried env gc (Undisturbed ⟨db, target ++ "-pre-promote"⟩) i fun w' =>
      Source i w₀ src w' ∧ Source i w tgt w' := Source.carried.source w tgt
  replace hsrc := And.intro hsrc htgt
  generalize w = w₂ at htorigin hsrc hP
  refine (Does.readsBacks (now_does rfl) hP.stable hsrc).bind fun now w hw => ?_
  split
  · exact trivial
  split
  · exact trivial
  have hskip : (opts.noBackup || decide (source = target ++ "-pre-promote" ∧
      src.metadata.lookup "offshoot.pre-promote" = some target)) = false := by
    simp [hnb, hown]
  dsimp only
  rw [hskip]
  refine (backUp_backs (b := ⟨db, target⟩) hP hw).bindOk .ret fun u w hw => ?_
  obtain ⟨hsrc, src', child, w₁, hsrc₁, hforked⟩ := hw u rfl
  have hread : w₁.Version ⟨db, target⟩ tgt :=
    (htorigin.refs.current htorigin.current).mono hsrc₁.2.since.log
  have hP' : Carried env gc (Undisturbed ⟨db, target ++ "-pre-promote"⟩) i fun w =>
      (Source i w₀ src w ∧ Source i w₂ tgt w) ∧
        Backed env i ⟨db, target⟩ ⟨db, target ++ "-pre-promote"⟩ tgt src' child w₁ w :=
    hP.and Backed.carried
  exact promoteOnto_backs hP' horigin (fun h => h.1.1)
    (fun w hr hd hw hcur => hw.2.backsUp hr hd hcur)
    ⟨hsrc, hforked.backed hsrc.1.flying hread⟩

end Programs

/-! ## Runs -/

/-- The branch an operation repoints and the one it backs it up as. -/
def Op.backsUp : Op → Option (BranchId × BranchId)
  | .rollback _ b _ opts _ =>
    if opts.noBackup then none else some (b, ⟨b.db, b.branch ++ "-pre-rollback"⟩)
  | .promote _ db source target opts _ =>
    if opts.noBackup ∨ source = target ++ "-pre-promote" then none
    else some (⟨db, target⟩, ⟨db, target ++ "-pre-promote"⟩)
  | _ => none

theorem flying_backs {f : Flight} (hp : ∀ w, w.inFlight i = some f →
      BacksOk hset gc assumed i b B ⊤ p w) :
    BacksOk hset gc assumed i b B ⊤ (flying i f p) w := by
  have hflight (f' : Option Flight) {w : World} :
      BacksOk hset gc assumed i b B
        (fun _ w => w.inFlight i = f') (setFlight i f') w := by
    refine Spec.Holds.step (Spec.Stable.const True) trivial fun w _ _ _ _ =>
      ⟨fun _ _ hwrote => ?_, ?_⟩
    · have hun : Unwritten w (w.setFlight i f') := .of_eq rfl rfl
      exact absurd hwrote hun.not_wrote
    · simp [World.setFlight]
  exact (hflight (some f)).bind fun _ w hw => (hp w hw).bind fun _ w _ =>
    (hflight none).mono fun _ _ _ => trivial

theorem Op.prog_backs {op : Op} (hop : op.backsUp = some (b, B)) :
    BacksOk hset gc (Undisturbed B) i b B ⊤ (op.prog env i) w := by
  cases op with
  | rollback host b name opts fuel =>
    simp only [Op.backsUp] at hop
    split at hop
    · cases hop
    · rename_i hnb
      cases hop
      exact flying_backs fun w hw => rollback_backs (by simpa using hnb) hw
  | promote host db source target opts fuel =>
    simp only [Op.backsUp] at hop
    split at hop
    · cases hop
    · rename_i hnb
      rw [not_or] at hnb
      cases hop
      exact flying_backs fun w hw => promote_backs (by simpa using hnb.1) hnb.2 hw
  | _ => cases hop

/-- A safety fork holds the head that is abandoned.  In a run that does not disturb the
backup `B` while the call that made it is in flight: when a rollback or a promote
with backup repoints its branch, `B` is there, and resolves to the members of the
head it abandons unless it was made by copying. -/
theorem safety_fork_holds_abandoned_head {enabled : Op → Prop} {c c' : Config World Oracle Op}
    {op : Op} {p : Repoint} {after : Option Ref} (hsettled : env.settled = true)
    (hgc : ∀ op, enabled op → op.collects = false) (hop : op.backsUp = some (b, B))
    (h : ReachIf (Undisturbed B) (system env enabled) (.init .empty) c)
    (hstep : StepBy (system env enabled) i op c c') (hun : Undisturbed B c.state c'.state)
    (hwrote : Wrote c.state c'.state i b (.edit (.repoint p)) after) :
    ∃ r r', c.state.refs.lookup b = some r ∧ c.state.refs.lookup B = some r' ∧
      (r'.base.isSome → ∃ members, chain c.state.view r.lineage r.headTXID = .ok members ∧
        chain c.state.view r'.lineage r'.headTXID = .ok members) := by
  have hreach : (dataLayer env hsettled False (Undisturbed B)).spec.Reach (system env enabled)
      (.init .empty) c :=
    Spec.Reach.of_reachIf (S := (dataLayer env hsettled False (Undisturbed B)).spec)
      (fun _ _ h => ⟨trivial, h⟩) h
  have hprog (i : Nat) (op : Op) (w : World) :
      (dataLayer env hsettled False (Undisturbed B)).spec.Holds
        (fun w w' => op.backsUp = some (b, B) → Backs i b B w w') i (fun _ _ => True)
        (op.prog env i) w := by
    by_cases hback : op.backsUp = some (b, B)
    · exact (Op.prog_backs hback).weaken fun _ _ h _ => h
    · exact Spec.Holds.any.weaken fun _ _ _ h => absurd h hback
  rcases Safe.step_guarantee (dataLayer_sound hgc) .refl (fun i op w _ _ _ => hprog i op w)
    dataLayer_init hreach hstep ⟨trivial, hun⟩ with heq | heq | hbacks
  · have hsame : Unwritten c.state c'.state := .of_eq (congrArg _ heq) (congrArg _ heq)
    exact absurd hwrote hsame.not_wrote
  · have hsame : Unwritten c.state c'.state := by
      rw [heq]
      exact .of_eq rfl rfl
    exact absurd hwrote hsame.not_wrote
  · exact hbacks hop p after hwrote

def World.undisturbed (B : BranchId) (w w' : World) : Bool :=
  (w.refs.lookup B).all fun r =>
    ((w'.refs.lookup B).any fun r' =>
      r'.lineage = r.lineage ∧ r'.headTXID = r.headTXID ∧ r'.base = r.base) ||
    w.log.all fun
      | .wrote i b (.create _) _ _ => !decide (b = B ∧ w.inFlight i = some .fork)
      | _ => true

theorem World.undisturbed_sound (h : World.undisturbed B w w' = true) : Undisturbed B w w' := by
  intro i child before after r hcreated hflying hr
  rw [World.undisturbed, hr, Option.all_some, Bool.or_eq_true] at h
  rcases h with h | h
  · obtain ⟨r', hr', h⟩ := (Option.any_eq_true _ _).mp h
    exact ⟨r', hr', of_decide_eq_true h⟩
  · have hnot := List.all_eq_true.mp h _ hcreated
    simp [hflying] at hnot

/-- A rollback of the main branch to its first checkpoint, with the default options. -/
def rollbackToInit : Op :=
  .rollback 0 ⟨"db", "main"⟩ "init" ⟨false, false, 0, false⟩ 9

/-- The new state that such a rollback gives the branch, on the second lineage minted
after the first. -/
def initRepoint : Repoint :=
  ⟨2, 1, (∅ : Map String Checkpoint).insert "init" ⟨1, 1, 0⟩, some ⟨0, 1⟩, 0⟩

def backedUp : List (Move Oracle Op) :=
  [.start 0 (.create "db" ⟨512, [⟨512, 1⟩]⟩), .run 0 .fine 7, .start 1 rollbackToInit,
    .run 1 .fine 21]

def World.repointed (w : World) (b : BranchId) (p : Repoint) : Option Ref :=
  (w.refs.lookup b).map fun r => (p.apply r).stored

set_option maxRecDepth 8192 in
theorem safety_fork_holds_abandoned_head_of_rollback :
    ∃ (c c' : Config World Oracle Op) (r r' : Ref),
      Config.playIf (system .localDir (·.collects = false))
        (World.undisturbed ⟨"db", "main-pre-rollback"⟩) backedUp (.init .empty) = some c ∧
      c.runs 1 .fine 1 = some c' ∧
      Wrote c.state c'.state 1 ⟨"db", "main"⟩ (.edit (.repoint initRepoint))
        (c.state.repointed ⟨"db", "main"⟩ initRepoint) ∧
      c.state.refs.lookup ⟨"db", "main"⟩ = some r ∧
      c.state.refs.lookup ⟨"db", "main-pre-rollback"⟩ = some r' ∧
      ∃ members, chain c.state.view r.lineage r.headTXID = .ok members ∧
        chain c.state.view r'.lineage r'.headTXID = .ok members := by
  obtain ⟨c, hc, h⟩ := (Option.any_eq_true (fun c : Config World Oracle Op =>
      (c.runs 1 .fine 1).any fun c' =>
        (c.threads 1).map (·.1) = some rollbackToInit ∧
        World.undisturbed ⟨"db", "main-pre-rollback"⟩ c.state c'.state ∧
        (RefOp.edit (.repoint initRepoint)).apply (c.state.refs.lookup ⟨"db", "main"⟩) =
          some (c.state.repointed ⟨"db", "main"⟩ initRepoint) ∧
        c'.state.refs = (c.state.setRef ⟨"db", "main"⟩
          (c.state.repointed ⟨"db", "main"⟩ initRepoint)).refs ∧
        c'.state.log = .wrote 1 ⟨"db", "main"⟩ (.edit (.repoint initRepoint))
          (c.state.refs.lookup ⟨"db", "main"⟩)
          (c.state.repointed ⟨"db", "main"⟩ initRepoint) :: c.state.log ∧
        ((c.state.refs.lookup ⟨"db", "main-pre-rollback"⟩).all (·.base.isSome)) = true)
    (Config.playIf (system .localDir (·.collects = false))
      (World.undisturbed ⟨"db", "main-pre-rollback"⟩) backedUp (.init .empty))).mp (by decide)
  obtain ⟨c', hc', h⟩ := (Option.any_eq_true _ _).mp h
  obtain ⟨hop, hun, happly, hrefs, hlog, hbase⟩ := of_decide_eq_true h
  have hw := Wrote.of_eq happly hrefs hlog
  obtain ⟨r, r', hr, hr', hsame⟩ := safety_fork_holds_abandoned_head
    (rfl : Env.localDir.settled = true) (fun _ h => h) rfl
    (Config.playIf_reachIf (fun _ _ => World.undisturbed_sound) hc) (Config.runs_one hc' hop)
    (World.undisturbed_sound hun) hw
  rw [hr'] at hbase
  exact ⟨c, c', r, r', hc, hc', hw, hr, hr', hsame hbase⟩

/-- Between the safety fork of the first rollback and its ref write, a second one destroys
the fork, to make its own. -/
def backupReplaced : List (Move Oracle Op) :=
  backedUp ++ [.start 2 rollbackToInit, .run 2 .fine 12]

set_option maxRecDepth 8192 in
/-- A rollback can repoint its branch when the backup it made is gone, though nothing but
rollbacks with that backup writes it. -/
theorem rollback_lands_without_backup :
    ¬ ∀ (env : Env) (enabled : Op → Prop) (c c' : Config World Oracle Op) (i : Nat) (op : Op)
      (b B : BranchId) (p : Repoint) (after : Option Ref), env.settled = true →
      (∀ op, enabled op → op.collects = false) →
      (∀ op k, enabled op → op.writes B k → op.backsUp = some (b, B)) →
      op.backsUp = some (b, B) → Reach (system env enabled) (.init .empty) c →
      StepBy (system env enabled) i op c c' →
      Wrote c.state c'.state i b (.edit (.repoint p)) after →
      ∃ r r', c.state.refs.lookup b = some r ∧ c.state.refs.lookup B = some r' ∧
        ∃ members, chain c.state.view r.lineage r.headTXID = .ok members ∧
          chain c.state.view r'.lineage r'.headTXID = .ok members := by
  intro hall
  let parties (op : Op) : Prop := op = .create "db" ⟨512, [⟨512, 1⟩]⟩ ∨ op = rollbackToInit
  obtain ⟨c, hc, h⟩ := Config.exists_play (c := .init .empty) (m := backupReplaced)
    (Q := fun c => (c.runs 1 .fine 1).any fun c' =>
      (c.threads 1).map (·.1) = some rollbackToInit ∧
      (RefOp.edit (.repoint initRepoint)).apply (c.state.refs.lookup ⟨"db", "main"⟩) =
        some (c.state.repointed ⟨"db", "main"⟩ initRepoint) ∧
      c'.state.refs = (c.state.setRef ⟨"db", "main"⟩
        (c.state.repointed ⟨"db", "main"⟩ initRepoint)).refs ∧
      c'.state.log = .wrote 1 ⟨"db", "main"⟩ (.edit (.repoint initRepoint))
        (c.state.refs.lookup ⟨"db", "main"⟩)
        (c.state.repointed ⟨"db", "main"⟩ initRepoint) :: c.state.log ∧
      c.state.refs.lookup ⟨"db", "main-pre-rollback"⟩ = none)
    (s := system .localDir parties) (by decide)
  obtain ⟨c', hc', h⟩ := (Option.any_eq_true _ _).mp h
  obtain ⟨hop, happly, hrefs, hlog, hgone⟩ := of_decide_eq_true h
  obtain ⟨r, r', -, hr', -⟩ := hall .localDir parties c c' 1 rollbackToInit ⟨"db", "main"⟩
    ⟨"db", "main-pre-rollback"⟩ initRepoint _ rfl
    (by rintro _ (rfl | rfl) <;> rfl)
    (by
      rintro _ k (rfl | rfl) hw
      · exact absurd hw.1 (by decide)
      · rfl)
    rfl (Config.play_reach hc) (Config.runs_one hc' hop) (Wrote.of_eq happly hrefs hlog)
  rw [hgone] at hr'
  cases hr'

end Offshoot
