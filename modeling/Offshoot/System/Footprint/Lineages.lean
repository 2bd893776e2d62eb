import Offshoot.System.Footprint.Writers

/-!
# What the operations that name lineages do

These mint lineages and put objects in them, and write the ref of the branch they
give one to.  A safety fork also destroys the backup it replaces.
-/

namespace Offshoot

open Conc Maps List

variable {env : Env} {i : Nat} {b : BranchId} {W : BranchId → RefOp.Kind → Prop}

/-! ## New lineages -/

variable {materialize : Bool} {src ref : Ref}

section Repoint

variable {host : Nat}
variable {p : M α} {l : Lineage} {members : List (ChainMember DataKey)} {t fuel : Nat}

theorem Does.within (h : Does env i (Act.Keeps W) p) : Does env i (Act.In W) p :=
  h.mono fun _ ha => ha.1

theorem Does.withinLocal (h : Does env i Act.Local p) : Does env i (Act.In W) p :=
  h.mono fun _ ha => ha.keeps.1

theorem Does.withinBuilds (h : Does env i Act.Builds p) : Does env i (Act.In W) p :=
  h.mono fun _ ha => ha.grows.1

theorem Does.withinGrows (h : Does env i (Act.Grows W) p) : Does env i (Act.In W) p :=
  h.mono fun _ ha => ha.1

theorem Does.remakes (h : Does env i (Act.Grows W) p) : Does env i (Act.Remakes W) p :=
  h.mono fun _ ha => ha.remakes

theorem Does.remakesLocal (h : Does env i Act.Local p) :
    Does env i (Act.Remakes W) p := h.mono fun _ ha => ha.grows.remakes

theorem Does.remakesBuilds (h : Does env i Act.Builds p) :
    Does env i (Act.Remakes W) p := h.mono fun _ ha => ha.grows.remakes

theorem Does.builds (h : Does env i Act.Copies p) : Does env i Act.Builds p :=
  h.mono fun _ ha => ha.1

theorem Does.growsLocal (h : Does env i Act.Local p) : Does env i (Act.Grows W) p :=
  h.mono fun _ ha => ha.grows

theorem settleRepoint_reads {prev : Option Lineage} :
    Does env i (Eq .none) (settleRepoint b l prev) := by
  refine .bind (getRef_does rfl) fun r => ?_
  split
  · exact .pure _
  · exact .pure _
  · split
    · exact .pure _
    · split <;> exact .pure _

theorem settleRepoint_local {prev : Option Lineage} :
    Does env i Act.Local (settleRepoint b l prev) := settleRepoint_reads.of_reads trivial

theorem deleteObjs_keeps {ks : List DataKey} : Does env i (Act.Keeps W) (deleteObjs ks) := by
  induction ks with
  | nil => exact .pure _
  | cons k ks ih => exact .bind (deleteObj_does Act.keeps_none ⟨trivial, trivial⟩) fun _ => ih

theorem deleteObjs_remakes {ks : List DataKey} (hks : ∀ k ∈ ks, k.initial l) :
    Does env i (Act.Remakes W) (deleteObjs ks) := by
  induction ks with
  | nil => exact .pure _
  | cons k ks ih =>
    refine .bind (deleteObj_does ⟨trivial, trivial⟩ ⟨trivial, l, hks k mem_cons_self⟩) fun _ => ?_
    exact ih fun k hk => hks k (mem_cons_of_mem _ hk)

theorem copySnapshotIntoLineage_copies :
    Does env i Act.Copies (copySnapshotIntoLineage env members t l) := by
  refine .bindOk (materializeMembers_does ⟨trivial, trivial⟩) .ret fun a => ?_
  dsimp only
  split
  · exact .pure _
  · exact .bindOk (putIf_does ⟨trivial, trivial⟩ ⟨trivial, fun _ h => by cases h⟩
      ⟨trivial, fun _ h => by cases h⟩) .ret .ret

theorem tryFastForkCopy_copies : Does env i Act.Copies (tryFastForkCopy members t l fuel) := by
  unfold tryFastForkCopy
  split
  · split
    · exact .pure _
    refine .bind (copyObject_does ⟨trivial, trivial⟩ fun _ => ⟨trivial, (fun _ h => by cases h)⟩)
      fun r => ?_
    split
    · exact .pure _
    · exact .pure _
    · exact .bindOk (chainAt_does ⟨trivial, trivial⟩) .ret .ret
  · exact .pure _

theorem copySnapshotToNewLineage_copies :
    Does env i Act.Copies (copySnapshotToNewLineage env i members t fuel) := by
  refine .bind (newLineageID_does ⟨trivial, trivial⟩) fun l => .bind tryFastForkCopy_copies
    fun r => ?_
  split
  · exact .pure _
  · exact .pure _
  · exact .bindOk copySnapshotIntoLineage_copies .ret .ret

theorem newLineageAt_builds :
    Does env i Act.Builds (newLineageAt env i src t members materialize fuel) := by
  unfold newLineageAt
  split
  · exact .bindOk copySnapshotToNewLineage_copies.builds .ret .ret
  · refine .bind (resolve_does trivial) fun r => ?_
    split
    · exact .pure _
    refine .bind (newLineageID_does trivial) fun l => ?_
    split
    · exact .pure _
    · exact .bindOk (putIf_does trivial trivial trivial) .ret .ret

theorem copyCheckpoints_copies {cps : List Checkpoint} {done : List Nat} :
    Does env i Act.Copies (copyCheckpoints env src l fuel cps done) := by
  induction cps generalizing done with
  | nil => exact .pure _
  | cons cp rest ih =>
    rw [copyCheckpoints]
    split
    · exact ih
    · refine .bindOk (chainAt_does ⟨trivial, trivial⟩) .ret fun members => ?_
      refine .bindOk copySnapshotIntoLineage_copies .ret fun key => ?_
      exact .bind ih .ret

theorem copySnapshotIntoLineage_key :
    (copySnapshotIntoLineage env members t l).Returns fun r => ∀ k, r = .ok k → k.initial l := by
  refine .bind .any fun r _ => ?_
  cases r with
  | error e => exact fun _ h => by cases h
  | ok a =>
    dsimp only
    split
    · exact fun _ h => by cases h
    · refine .bind .any fun r _ => ?_
      cases r with
      | error e => exact fun _ h => by cases h
      | ok u => exact fun k h => by rw [← Except.ok.inj h]; exact ⟨rfl, rfl⟩

theorem copyCheckpoints_keys {cps : List Checkpoint} {done : List Nat} :
    (copyCheckpoints env src l fuel cps done).Returns fun r => ∀ k ∈ r.2, k.initial l := by
  induction cps generalizing done with
  | nil => exact fun _ h => by cases h
  | cons cp rest ih =>
    rw [copyCheckpoints]
    split
    · exact ih
    refine .bind .any fun r _ => ?_
    cases r with
    | error e => exact fun _ h => by cases h
    | ok members =>
      refine .bind copySnapshotIntoLineage_key fun r hkey => ?_
      cases r with
      | error e => exact fun _ h => by cases h
      | ok key =>
        refine .bind ih fun r hkeys => ?_
        intro k hk
        rcases mem_cons.mp hk with rfl | hk
        · exact hkey k rfl
        · exact hkeys k hk

theorem initial_head {keys : List DataKey} (h : ∀ k ∈ keys, k.initial l) :
    ∀ k ∈ DataKey.snapshot l 1 t :: keys, k.initial l := by
  intro k hk
  rcases mem_cons.mp hk with rfl | hk
  · exact ⟨rfl, rfl⟩
  · exact h k hk

theorem refChain_reads : Does env i (Eq .none) (refChain host b ref t fuel) := by
  unfold refChain
  split
  · exact headChain_reads
  · exact chainAt_does rfl

theorem refChain_local : Does env i Act.Local (refChain host b ref t fuel) :=
  refChain_reads.of_reads trivial

theorem Act.grows_apart : Act.Apart (Act.Grows W) .none := ⟨⟨trivial, trivial⟩, trivial⟩

theorem putRef_apart {op : RefOp} {r : Ref} {etag : Option Ref} (hW : W b op.kind) (hby : op.by i)
    (h : op.apply etag = some (some r.stored)) :
    Does env i (Act.Apart (Act.Grows W)) (putRef env i b op r etag) :=
  putRef_does Act.grows_apart (fun _ => ⟨⟨hW, trivial⟩, trivial⟩)
    (fun _ _ => ⟨⟨hW, trivial⟩, trivial⟩) h hby

theorem create_apart {db : String} {img : Image} (hW : W ⟨db, "main"⟩ .create) :
    Does env i (Act.Apart (Act.Grows W)) (create env i db img) := by
  refine .bindOk (listRefs_does Act.grows_apart) .ret fun ks => ?_
  dsimp only
  split
  · exact .pure _
  refine .bind (newLineageID_does ⟨⟨trivial, trivial⟩, trivial⟩) fun l => ?_
  split
  · exact .pure _
  refine .bindOk (putIf_does Act.grows_apart ⟨⟨trivial, trivial⟩, trivial⟩
    ⟨⟨trivial, trivial⟩, trivial⟩) .ret fun u => ?_
  refine .bind (now_does Act.grows_apart) fun t =>
    .bind (putRef_apart hW trivial (by rfl)) fun r => ?_
  cases r with
  | ok u => exact .pure _
  | error e =>
    exact .bind (settleRepoint_reads.of_reads Act.grows_apart) fun _ => by split <;> exact .pure _

theorem forkNameFree_reads {check : Bool} : Does env i (Eq .none) (forkNameFree b check) := by
  unfold forkNameFree
  split
  · exact .bind (getRef_does rfl) fun _ => by split <;> exact .pure _
  · exact .pure _

theorem forkNameFree_local {check : Bool} : Does env i Act.Local (forkNameFree b check) :=
  forkNameFree_reads.of_reads trivial

theorem newLineageAt_apart :
    Does env i (Act.Apart (Act.Grows W)) (newLineageAt env i src t members materialize fuel) :=
  newLineageAt_builds.mono fun a ha => ⟨ha.grows, by cases a <;> trivial⟩

theorem fork_apart {src : BranchId} {opts : ForkOptions} (hW : W b .create) :
    Does env i (Act.Apart (Act.Grows W)) (fork env i host src b opts fuel) := by
  refine .bindOk (getRef_does Act.grows_apart) .ret fun ref => ?_
  dsimp only
  split
  · exact .pure _
  refine .bindOk (refChain_reads.of_reads Act.grows_apart) .ret fun members => ?_
  refine .bindOk (forkNameFree_reads.of_reads Act.grows_apart) .ret fun u => ?_
  refine .bind newLineageAt_apart fun r => ?_
  split
  · exact .pure _
  refine .bind (now_does Act.grows_apart) fun _ => .bind (now_does Act.grows_apart) fun _ =>
    .bind (putRef_apart hW trivial (by rfl)) fun r => ?_
  cases r with
  | ok u => exact .pure _
  | error e =>
    exact .bind (settleRepoint_reads.of_reads Act.grows_apart) fun _ => by split <;> exact .pure _

theorem fork_grows {src : BranchId} {opts : ForkOptions} (hW : W b .create) :
    Does env i (Act.Grows W) (fork env i host src b opts fuel) :=
  (fork_apart hW).mono fun _ => And.left

theorem repoint_remakes {p : Repoint} {keys : List DataKey}
    (hkeys : ∀ k ∈ keys, k.initial p.lineage) (hW : W b .repoint) :
    Does env i (Act.Remakes W) (repoint env i b ref p keys) := by
  have hput : Does env i (Act.Apart (Act.Grows W))
      (putRef env i b (.edit (.repoint p)) (p.apply ref) (some ref)) :=
    putRef_apart hW trivial (RefOp.apply_edit rfl)
  refine .bind (hput.mono fun _ ha => ha.1.remakes) fun r => ?_
  cases r with
  | ok u => exact .pure _
  | error e =>
    refine .bind settleRepoint_local.remakesLocal fun r => ?_
    split
    · exact .pure _
    · exact .pure _
    · exact .bind (deleteObjs_remakes hkeys) .ret
    · exact .pure _

theorem refreshAfter_local {next : Ref} : Does env i Act.Local (refreshAfter host b next fuel) := by
  refine .bind (ask_does trivial) fun busy => ?_
  split
  · exact .pure _
  · exact refreshCheckout_local

/-- What follows a repoint that also brings a checkout along, if there is one. -/
theorem refreshIfAny_local {next : Ref} : Does env i Act.Local (do
    if (← getCheckout host b).file.isSome then
      match ← refreshAfter host b next fuel with
      | .error e => return .error e
      | .ok () => return .ok t
    else return .ok t : M (Result Nat)) := by
  refine .bind (getCheckout_does trivial) fun c => ?_
  split
  · exact .bindOk refreshAfter_local .ret .ret
  · exact .pure _

theorem safetyFork_grows {suffix metaKey : String} {ttl : Nat}
    (hc : W ⟨b.db, b.branch ++ suffix⟩ .create)
    (hd : ∀ k, k.destroys → W ⟨b.db, b.branch ++ suffix⟩ k) :
    Does env i (Act.Grows W) (safetyFork env i host b suffix metaKey ttl fuel materialize) := by
  refine .bind (getRef_does ⟨trivial, trivial⟩) fun r => ?_
  split
  · exact .bindOk (fork_grows hc) .ret .ret
  · exact .pure _
  · split
    · exact .pure _
    · refine .bindOk ((destroy_calm hd).mono fun _ => Act.Calm.grows) .ret fun u => ?_
      exact .bindOk (fork_grows hc) .ret .ret

theorem backUp_grows {suffix metaKey : String} {ttl : Nat} {skip : Bool}
    (hc : W ⟨b.db, b.branch ++ suffix⟩ .create)
    (hd : ∀ k, k.destroys → W ⟨b.db, b.branch ++ suffix⟩ k) :
    Does env i (Act.Grows W) (backUp env i host b suffix metaKey ttl fuel skip) := by
  unfold backUp
  split
  · exact .pure _
  · exact safetyFork_grows hc hd

theorem rollbackOnto_remakes {base : Option BasePointer} (hW : W b .repoint) :
    Does env i (Act.Remakes W) (rollbackOnto env i host b ref t fuel l base) := by
  have hnow : Does env i (Act.Remakes W) (now env) := now_does ⟨trivial, trivial⟩
  have hafter {next : Ref} : Does env i (Act.Remakes W) (refreshAfter host b next fuel) :=
    refreshAfter_local.remakesLocal
  unfold rollbackOnto
  dsimp only
  split
  · refine .bind hnow fun t => .bind (repoint_remakes (fun k hk => ?_) hW) fun r => ?_
    · rw [mem_singleton.mp hk]
      rfl
    · cases r with
      | error e => exact .pure _
      | ok u => exact hafter
  · refine .bind_returns copyCheckpoints_copies.builds.remakesBuilds copyCheckpoints_keys
      fun r hkeys => ?_
    split
    · exact .bind (deleteObjs_remakes (initial_head hkeys)) .ret
    · refine .bind hnow fun t => .bindOk (repoint_remakes (initial_head hkeys) hW) .ret fun u => ?_
      exact hafter

theorem rollback_remakes {name : String} {opts : RepointOptions} (hW : W b .repoint)
    (hc : W ⟨b.db, b.branch ++ "-pre-rollback"⟩ .create)
    (hd : ∀ k, k.destroys → W ⟨b.db, b.branch ++ "-pre-rollback"⟩ k) :
    Does env i (Act.Remakes W) (rollback env i host b name opts fuel) := by
  refine .bindOk (getRef_does ⟨trivial, trivial⟩) .ret fun ref => ?_
  refine .bind (now_does ⟨trivial, trivial⟩) fun t => ?_
  split
  · exact .pure _
  split
  · exact .pure _
  refine .bindOk (backUp_grows hc hd).remakes .ret fun u => ?_
  refine .bindOk refChain_local.remakesLocal .ret fun members => ?_
  refine .bind newLineageAt_builds.remakesBuilds fun r => ?_
  split
  · exact .pure _
  · exact rollbackOnto_remakes hW

theorem promoteOnto_remakes {tgt : Ref} {source : BranchId} (hW : W b .repoint) :
    Does env i (Act.Remakes W) (promoteOnto env i host b src tgt source materialize fuel) := by
  refine .bindOk headChain_local.remakesLocal .ret fun members => ?_
  refine .bind newLineageAt_builds.remakesBuilds fun r => ?_
  split
  · exact .pure _
  refine .bind (now_does ⟨trivial, trivial⟩) fun _ => .bind (now_does ⟨trivial, trivial⟩) fun _ =>
    .bind (repoint_remakes (fun k hk => ?_) hW) fun r => ?_
  · rw [mem_singleton.mp hk]
    split
    · rfl
    · exact ⟨rfl, rfl⟩
  · cases r with
    | error e => exact .pure _
    | ok u =>
      exact refreshIfAny_local.remakesLocal

theorem promote_remakes {db source target : String} {opts : RepointOptions}
    (hW : W ⟨db, target⟩ .repoint) (hc : W ⟨db, target ++ "-pre-promote"⟩ .create)
    (hd : ∀ k, k.destroys → W ⟨db, target ++ "-pre-promote"⟩ k) :
    Does env i (Act.Remakes W) (promote env i host db source target opts fuel) := by
  unfold promote
  split
  · exact .pure _
  refine .bindOk (getRef_does ⟨trivial, trivial⟩) .ret fun src => ?_
  refine .bindOk (getRef_does ⟨trivial, trivial⟩) .ret fun tgt => ?_
  refine .bind (now_does ⟨trivial, trivial⟩) fun t => ?_
  split
  · exact .pure _
  split
  · exact .pure _
  · refine .bindOk (backUp_grows hc hd).remakes .ret fun u => ?_
    exact promoteOnto_remakes hW

theorem compactOnto_remakes (hW : W b .repoint) :
    Does env i (Act.Remakes W) (compactOnto env i host b ref fuel l) := by
  refine .bind_returns copyCheckpoints_copies.builds.remakesBuilds copyCheckpoints_keys
    fun r hkeys => ?_
  obtain ⟨copied, keys⟩ := r
  have hkeys := initial_head (t := ref.headTXID) hkeys
  dsimp only
  split
  · exact .bind (deleteObjs_remakes hkeys) .ret
  refine .bind (now_does ⟨trivial, trivial⟩) fun _ => .bind (now_does ⟨trivial, trivial⟩) fun _ =>
    .bindOk (repoint_remakes hkeys hW) .ret fun u => ?_
  exact refreshIfAny_local.remakesLocal

theorem compact_remakes {force : Bool} (hW : W b .repoint) :
    Does env i (Act.Remakes W) (compact env i host b force fuel) := by
  refine .bindOk (getRef_does ⟨trivial, trivial⟩) .ret fun ref => ?_
  refine .bind (now_does ⟨trivial, trivial⟩) fun t => ?_
  split
  · exact .pure _
  refine .bind (resolve_does ⟨trivial, trivial⟩) fun r => ?_
  split
  · exact .pure _
  · exact .pure _
  · refine .bindOk (chainAt_does ⟨trivial, trivial⟩) .ret fun members => ?_
    refine .bindOk copySnapshotToNewLineage_copies.builds.remakesBuilds .ret fun l => ?_
    exact compactOnto_remakes hW

end Repoint

end Offshoot
