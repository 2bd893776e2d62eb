import Offshoot.System.Footprint

/-!
# Whose checkouts an operation replaces

A checkout's file is replaced when a new one is renamed to its path, and removed with its
branch.  Everything else an operation does to a checkout, it does to its sidecar and its
shadow.  `P` has the branches whose files the program may replace or remove.
-/

namespace Offshoot

variable {fuel : Nat} {ref : Ref}

open Conc Maps

/-- Another file was renamed to the checkout's path, or the file there was removed. -/
def Checkout.Pulled (c c' : Checkout) : Prop := c'.inode ≠ c.inode ∨ c'.file.isSome ≠ c.file.isSome

/-- The files of all other branches stay. -/
def ReplacesOnly (P : BranchId → Prop) (w w' : World) : Prop :=
  ∀ host b, ¬ P b → ¬ (w.checkouts host b).Pulled (w'.checkouts host b)

abbrev Replaces (P : BranchId → Prop) (p : M α) : Prop := p.All (ReplacesOnly P)

variable {env : Env} {i host : Nat} {b : BranchId} {P : BranchId → Prop} {w w' : World}
  {A : Act → Prop}

theorem Checkout.not_pulled {c c' : Checkout} (hinode : c'.inode = c.inode)
    (hfile : c'.file = c.file) : ¬ c.Pulled c' := by
  rintro (h | h)
  · exact h hinode
  · exact h (by rw [hfile])

theorem ReplacesOnly.of_checkouts (h : w'.checkouts = w.checkouts) : ReplacesOnly P w w' := by
  intro host b _
  rw [h]
  exact Checkout.not_pulled rfl rfl

theorem Act.run_checkouts {a : Act} (h : a.off) : (a.run i w).checkouts = w.checkouts := by
  cases a with
  | checkout _ _ _ | late _ => exact h.elim
  | _ => rfl

variable {p : M α}

theorem Does.replaces (h : Does env i A p) (hA : ∀ a, A a → a.off) : Replaces P p := by
  refine Prog.All.mono (fun w w' hc => ?_) h
  obtain ⟨a, ha, -, rfl⟩ := hc
  exact .of_checkouts (Act.run_checkouts (hA a ha))

theorem Does.replaces_writes {W : BranchId → RefOp.Kind → Prop}
    (h : Does env i (Act.Writes W) p) : Replaces P p :=
  h.replaces fun a ha => by cases a <;> trivial

theorem Does.replaces_edits {W : BranchId → RefOp.Kind → Prop}
    (h : Does env i (Act.Edits W) p) : Replaces P p :=
  h.replaces fun a ha => by cases a <;> trivial

theorem Does.replaces_builds (h : Does env i Act.Builds p) : Replaces P p :=
  h.replaces fun a ha => by cases a <;> trivial

theorem Does.replaces_apart (h : Does env i (Act.Apart A) p) : Replaces P p :=
  h.replaces fun _ => And.right

/-- What is read the same everywhere is shown for any one environment. -/
theorem Does.replaces_off (h : Does .localDir 0 Act.off p) : Replaces P p :=
  h.replaces fun _ ha => ha

theorem Does.replaces_reads (h : Does .localDir 0 (Eq .none) p) : Replaces P p :=
  (h.of_reads trivial).replaces_off

/-! ## Calls -/

theorem read_replaces {f : Oracle → World → World × α} (h : ∀ o w, (f o w).1 = w) :
    Replaces P (.step f) :=
  Prog.All.step fun o w => .of_checkouts (by rw [h])

theorem getRef_replaces : Replaces P (getRef b) := read_replaces fun _ _ => rfl

theorem ask_replaces : Replaces P ask := read_replaces fun _ _ => rfl

theorem now_replaces : Replaces P (now env) := read_replaces fun _ _ => rfl

theorem getCheckout_replaces : Replaces P (getCheckout host b) := read_replaces fun _ _ => rfl

theorem getSession_replaces : Replaces P (getSession i) := read_replaces fun _ _ => rfl

theorem withSession_replaces {f : Session → Session × α} : Replaces P (withSession i f) :=
  Prog.All.step fun _ _ => .of_checkouts rfl

theorem chainAt_replaces {l : Lineage} {t : Nat} : Replaces P (chainAt fuel l t) :=
  (chainAt_does trivial).replaces_off

theorem putRef_replaces {op : RefOp} {r : Ref} {etag : Option Ref} :
    Replaces P (putRef env i b op r etag) := by
  refine Prog.All.step fun o w => .of_checkouts ?_
  simp only [World.tryRef]
  split
  · rfl
  split
  · rfl
  · cases o.fate with
    | landed => dsimp only; split <;> rfl
    | _ => rfl

theorem deleteObjs_replaces {ks : List DataKey} : Replaces P (deleteObjs ks) := by
  induction ks with
  | nil => exact .pure _
  | cons k ks ih => exact .bind (deleteObj_does trivial trivial).replaces_off fun _ => ih

theorem setCheckout_replaces {f : Checkout → Checkout} (hinode : ∀ c, (f c).inode = c.inode)
    (hfile : ∀ c, (f c).file = c.file) : Replaces P (setCheckout host b f) := by
  refine Prog.All.step fun _ w host' b' _ => Checkout.not_pulled ?_ ?_
  · dsimp only [World.setCheckout]
    split
    · rename_i h
      rw [hinode, h.1, h.2]
    · rfl
  · dsimp only [World.setCheckout]
    split
    · rename_i h
      rw [hfile, h.1, h.2]
    · rfl

theorem setCheckout_replaces_own {f : Checkout → Checkout} (hb : P b) :
    Replaces P (setCheckout host b f) := by
  refine Prog.All.step fun _ w host' b' hb' => Checkout.not_pulled ?_ ?_ <;>
    simp only [World.setCheckout, if_neg fun h : host' = host ∧ b' = b => hb' (h.2 ▸ hb)]

/-! ## Checkouts -/

theorem dropShadow_replaces : Replaces P (dropShadow host b) :=
  .bind (setCheckout_replaces (fun _ => rfl) fun _ => rfl) fun _ =>
    setCheckout_replaces (fun _ => rfl) fun _ => rfl

theorem refreshShadow_replaces : Replaces P (refreshShadow host b) := by
  refine .bind ask_replaces fun cloned => ?_
  split
  · refine .bind (setCheckout_replaces (fun _ => rfl) fun _ => rfl) fun _ =>
      .bind ask_replaces fun recorded => ?_
    split
    · exact setCheckout_replaces (fun _ => rfl) fun _ => rfl
    · exact dropShadow_replaces
  · exact dropShadow_replaces

theorem currentState_replaces : Replaces P (currentState host b ref) := by
  refine .bind getCheckout_replaces fun c => ?_
  split
  · refine .bind getCheckout_replaces fun c => ?_
    split
    · exact .pure _
    split
    · exact .pure _
    refine .bind ask_replaces fun fingerprint => ?_
    split
    · exact .pure _
    refine .bind getCheckout_replaces fun c => ?_
    dsimp only
    split
    · exact .bind (setCheckout_replaces (fun _ => rfl) fun _ => rfl) .ret
    · exact .pure _
  · exact .pure _

theorem refreshCheckout_replaces (hb : P b) : Replaces P (refreshCheckout host b ref fuel) := by
  refine .bindOk (chainAt_replaces) .ret fun members => ?_
  refine .bindOk (materializeMembers_does trivial).replaces_off .ret fun a => ?_
  refine .bind (setCheckout_replaces_own hb) fun _ => .bind ?_ fun _ =>
    .bind refreshShadow_replaces .ret
  exact .bind getCheckout_replaces fun _ => setCheckout_replaces (fun _ => rfl) fun _ => rfl

theorem checkoutProven_replaces (hb : P b) : Replaces P (checkoutProven host b fuel) := by
  refine .bindOk getRef_replaces .ret fun ref => ?_
  refine .bind ask_replaces fun busy => ?_
  split
  · exact .pure _
  refine .bind currentState_replaces fun st => ?_
  split
  · exact .pure _
  · exact .bindOk (refreshCheckout_replaces hb) .ret .ret

/-! ## Destroying -/

theorem destroyClaimed_replaces {claimed etag : Ref} {force : Bool} (hb : P b) :
    Replaces P (destroyClaimed env i host b claimed force etag) := by
  have hunwind :
      Replaces P (unwindDeletingClaim env i b claimed.deletingAt destroyDeleteAttempts) :=
    (unwindDeletingClaim_writes (W := ⊤) trivial).replaces_writes
  refine .bind ask_replaces fun busy => ?_
  split
  · exact .bind hunwind .ret
  refine .bind now_replaces fun t => ?_
  split
  · exact .bind hunwind .ret
  · have hdelete : Replaces P (deleteClaimedRef env i b claimed force destroyDeleteAttempts etag) :=
      (deleteClaimedRef_writes (W := ⊤) trivial).replaces_writes
    refine .bindOk hdelete (fun _ => .bind hunwind .ret) fun u => ?_
    exact .bind (setCheckout_replaces_own hb) .ret

theorem destroy_replaces {force : Bool} (hb : P b) : Replaces P (destroy env i host b force) := by
  refine .bindOk getRef_replaces .ret fun ref => ?_
  refine .bind now_replaces fun leaseNow => .bind now_replaces fun claimNow => ?_
  split
  · exact .pure _
  split
  · exact .pure _
  split
  · exact .pure _
  have hstamp : Does env i (Act.Writes fun _ _ => True) (stampClaim env i b ref) :=
    stampClaim_writes
  refine .bind hstamp.replaces_writes fun claimedAt => .bind putRef_replaces fun r => ?_
  cases r with
  | ok u => exact destroyClaimed_replaces hb
  | error e =>
    refine .bindOk (landedClaim_writes (W := ⊤) trivial).replaces_writes
        .ret fun cur => ?_
    exact destroyClaimed_replaces hb

/-! ## Forks and flushes -/

theorem create_replaces {db : String} {img : Image} : Replaces P (create env i db img) :=
  (create_apart (W := ⊤) trivial).replaces_apart

theorem fork_replaces {src : BranchId} {opts : ForkOptions} :
    Replaces P (fork env i host src b opts fuel) :=
  (fork_apart (W := ⊤) trivial).replaces_apart

theorem flush_replaces {name : Option String} : Replaces P (flush env i b name fuel) :=
  (flush_apart (W := ⊤) trivial).replaces_apart

/-! ## Repointing -/

theorem repoint_replaces {p : Repoint} {keys : List DataKey} :
    Replaces P (repoint env i b ref p keys) := by
  refine .bind putRef_replaces fun r => ?_
  cases r with
  | ok u => exact .pure _
  | error e =>
    refine .bind settleRepoint_reads.replaces_reads fun r => ?_
    split
    · exact .pure _
    · exact .pure _
    · exact .bind deleteObjs_replaces .ret
    · exact .pure _

theorem refreshAfter_replaces {next : Ref} (hb : P b) :
    Replaces P (refreshAfter host b next fuel) := by
  refine .bind ask_replaces fun busy => ?_
  split
  · exact .pure _
  · exact refreshCheckout_replaces hb

/-- A safety fork removes the checkout of the backup it replaces. -/
theorem backUp_replaces {suffix metaKey : String} {ttl : Nat} {skip : Bool}
    (hb : skip = false → P ⟨b.db, b.branch ++ suffix⟩) :
    Replaces P (backUp env i host b suffix metaKey ttl fuel skip) := by
  unfold backUp
  split
  · exact .pure _
  rename_i hskip
  refine .bind getRef_replaces fun r => ?_
  split
  · exact .bindOk fork_replaces .ret .ret
  · exact .pure _
  · split
    · exact .pure _
    · refine .bindOk (destroy_replaces (hb (by simpa using hskip))) .ret fun u => ?_
      exact .bindOk fork_replaces .ret .ret

theorem rollbackOnto_replaces {t : Nat} {l : Lineage} {base : Option BasePointer} (hb : P b) :
    Replaces P (rollbackOnto env i host b ref t fuel l base) := by
  unfold rollbackOnto
  dsimp only
  split
  · refine .bind now_replaces fun t => .bindOk repoint_replaces .ret fun u => ?_
    exact refreshAfter_replaces hb
  · refine .bind (copyCheckpoints_copies (i := i)).builds.replaces_builds fun r => ?_
    split
    · exact .bind deleteObjs_replaces .ret
    · refine .bind now_replaces fun t => .bindOk repoint_replaces .ret fun u => ?_
      exact refreshAfter_replaces hb

theorem rollback_replaces {name : String} {opts : RepointOptions} (hb : P b)
    (hbackup : opts.noBackup = false → P ⟨b.db, b.branch ++ "-pre-rollback"⟩) :
    Replaces P (rollback env i host b name opts fuel) := by
  refine .bindOk getRef_replaces .ret fun ref => ?_
  refine .bind now_replaces fun t => ?_
  split
  · exact .pure _
  split
  · exact .pure _
  refine .bindOk (backUp_replaces hbackup) .ret fun u => ?_
  refine .bindOk refChain_reads.replaces_reads .ret fun members => ?_
  refine .bind newLineageAt_builds.replaces_builds fun r => ?_
  split
  · exact .pure _
  · exact rollbackOnto_replaces hb

theorem promoteOnto_replaces {src tgt : Ref} {source : BranchId} {materialize : Bool} (hb : P b) :
    Replaces P (promoteOnto env i host b src tgt source materialize fuel) := by
  refine .bindOk headChain_reads.replaces_reads .ret fun members => ?_
  refine .bind newLineageAt_builds.replaces_builds fun r => ?_
  split
  · exact .pure _
  refine .bind now_replaces fun _ => .bind now_replaces fun _ =>
    .bindOk repoint_replaces .ret fun u => ?_
  refine .bind getCheckout_replaces fun c => ?_
  split
  · exact .bindOk (refreshAfter_replaces hb) .ret .ret
  · exact .pure _

theorem promote_replaces {db source target : String} {opts : RepointOptions} (hb : P ⟨db, target⟩)
    (hbackup : opts.noBackup = false → P ⟨db, target ++ "-pre-promote"⟩) :
    Replaces P (promote env i host db source target opts fuel) := by
  unfold promote
  split
  · exact .pure _
  refine .bindOk getRef_replaces .ret fun src => ?_
  refine .bindOk getRef_replaces .ret fun tgt => ?_
  refine .bind now_replaces fun t => ?_
  split
  · exact .pure _
  split
  · exact .pure _
  · refine .bindOk (backUp_replaces fun hskip => hbackup (by simp_all)) .ret fun u => ?_
    exact promoteOnto_replaces hb

/-! ## Sessions -/

theorem openSession_replaces {ttl : Nat} {resume : Option Image} (hb : P b) :
    Replaces P (openSession env i host b ttl fuel resume) := by
  have hrelease {l : Lease} : Replaces P (releaseLease env i b l) :=
    (releaseLease_edits (W := ⊤) trivial).replaces_edits
  refine .bindOk (openLease_edits (W := ⊤) trivial).replaces_edits
      .ret fun lease => ?_
  refine .bindOk (checkoutProven_replaces hb) (fun _ => .bind hrelease .ret) fun res => ?_
  refine .bind withSession_replaces fun _ => ?_
  split
  · refine .bind withSession_replaces fun ok => ?_
    split
    · exact .pure _
    · exact .bind withSession_replaces fun _ => .bind hrelease .ret
  · exact .pure _

theorem closeSession_replaces : Replaces P (closeSession env i host b) := by
  refine .bind (read_replaces fun _ _ => rfl) fun drained => .bind getSession_replaces fun s =>
    .bind withSession_replaces fun _ => .bind ?_ fun _ => .bind getSession_replaces fun _ =>
      (releaseLease_edits (W := ⊤) trivial).replaces_edits
  unfold refreshAtClose
  split
  · split
    · refine .bind getSession_replaces fun s => .bind ask_replaces fun clean => ?_
      split
      · exact .pure _
      refine .bind getCheckout_replaces fun c => .bindOk getRef_replaces .ret fun ref => ?_
      dsimp only
      split
      · exact .pure _
      split
      · exact .pure _
      · exact .bind (setCheckout_replaces (fun _ => rfl) fun _ => rfl) fun _ =>
          refreshShadow_replaces
    · exact .pure _
  · exact .pure _

end Offshoot
