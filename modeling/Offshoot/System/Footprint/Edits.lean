import Offshoot.System.Act
import Offshoot.System.Operations

/-!
# What the edits of refs and checkouts do

For each program, the class of its acts, whatever state it runs in: which refs it
writes and how, whether it moves a head, gives a branch a lineage or touches data
objects.  `W` is any set of ref writes that has those of the program.

That every ref write edits the record it was computed from is part of every act,
so it is checked here at each place a ref is written.
-/

namespace Offshoot

open Conc Maps

variable {env : Env} {i : Nat} {b : BranchId} {W : BranchId → RefOp.Kind → Prop}
variable {n : Nat} {ref : Ref}

variable {r r' : Ref} {e : RefEdit}

theorem RefOp.apply_edit (h : e.edit r = some r') :
    (RefOp.edit e).apply (some r) = some (some r'.stored) := by
  simp [RefOp.apply, RefEdit.apply, h]

theorem putRef_writes (hW : W b e.kind) (hplain : RefOp.plain (.edit e)) (h : e.edit r = some r') :
    Does env i (Act.Writes W) (putRef env i b (.edit e) r' (some r)) := by
  refine putRef_does trivial (fun _ => ⟨hW, hplain⟩) (fun _ _ => ⟨hW, hplain⟩)
    (RefOp.apply_edit h) ?_
  cases e <;> trivial

variable {p : M α}

theorem Does.edits (h : Does env i (Act.Writes W) p) : Does env i (Act.Edits W) p :=
  h.mono fun _ => Act.Writes.edits

theorem putRef_edits (hW : W b e.kind) (hplain : RefOp.plain (.edit e)) (h : e.edit r = some r') :
    Does env i (Act.Edits W) (putRef env i b (.edit e) r' (some r)) :=
  (putRef_writes hW hplain h).edits

/-! ## Leases -/

variable {holder : Holder} {ttl t : Nat}

theorem acquireLeaseRefIf_edits {check : Ref → M (Result Unit)} (hW : W b .acquire)
    (hcheck : ∀ r, Does env i (Act.Edits W) (check r)) :
    Does env i (Act.Edits W) (acquireLeaseRefIf env i b holder ttl t check) := by
  refine .bindOk (getRef_does trivial) .ret fun ref => ?_
  refine .bindOk (hcheck ref) .ret fun u => ?_
  dsimp only
  split
  · exact .pure _
  split
  · exact .pure _
  split
  · exact .pure _
  rename_i hreap hdel hlive
  refine .bind (putLease_does trivial (fun _ => ⟨hW, trivial⟩) (fun _ _ => ⟨hW, trivial⟩)
    (fun _ _ => ⟨hW, trivial⟩) (RefOp.apply_edit ?_) trivial ?_ (by simp)) fun r => ?_
  · simpa [RefEdit.edit, hreap, hdel] using hlive
  · simp [Lease.on, Ref.acquireLease]
  · split <;> exact .pure _

theorem acquireLease_edits (hW : W b .acquire) :
    Does env i (Act.Edits W) (acquireLease env i b holder ttl) := by
  refine .bind (now_does trivial) fun t => ?_
  exact .bind (acquireLeaseRefIf_edits hW fun _ => .pure _) fun _ => by split <;> exact .pure _

variable {l : Lease}

theorem renewLease_edits (hW : W b .renew) :
    Does env i (Act.Edits W) (renewLease env i b l ttl) := by
  refine .bind (now_does trivial) fun t => ?_
  refine .bindOk (getRef_does trivial) .ret fun ref => ?_
  dsimp only
  split
  · exact .pure _
  · rename_i hours
    exact .bindOk (putRef_edits hW trivial (by simp [RefEdit.edit, hours])) .ret .ret

theorem releaseLease_writes (hW : W b .release) :
    Does env i (Act.Writes W) (releaseLease env i b l) := by
  refine .bindOk (getRef_does trivial) .ret fun ref => ?_
  dsimp only
  split
  · exact .pure _
  · rename_i hours
    refine .bind (now_does trivial) fun t => ?_
    exact putRef_writes hW trivial (by simp [RefEdit.edit, hours])

theorem releaseLease_edits (hW : W b .release) :
    Does env i (Act.Edits W) (releaseLease env i b l) := (releaseLease_writes hW).edits

theorem releaseLeaseByHolder_edits (hW : W b .release) :
    Does env i (Act.Edits W) (releaseLeaseByHolder env i b holder) := by
  refine .bindOk (getRef_does trivial) .ret fun ref => ?_
  dsimp only
  split
  · exact .pure _
  · rename_i hours
    refine .bind (now_does trivial) fun t => ?_
    exact putRef_edits hW trivial (by simp [RefEdit.edit, hours])

theorem settleAcquire_edits : Does env i (Act.Edits W) (settleAcquire i b holder) := by
  refine .bindOk (getRefHeld_does trivial fun _ _ => trivial) .ret fun ref => ?_
  dsimp only
  split <;> exact .pure _

theorem report_edits {out : α → Outcome} {r : Result α} :
    Does env i (Act.Edits W) (report i b out r) := note_does trivial trivial

/-! ## Touch, protect, prune -/

theorem touch_writes {ttl : Option Nat} (hW : W b .touch) :
    Does env i (Act.Writes W) (touch env i b ttl t n) := by
  induction n with
  | zero => exact .pure _
  | succ n ih =>
    refine .bindOk (getRef_does trivial) .ret fun ref => ?_
    dsimp only
    split
    · exact .pure _
    rename_i hreap
    refine .bind (putRef_writes hW trivial (by simp [RefEdit.edit, hreap])) fun r => ?_
    split
    · exact .pure _
    · exact ih
    · exact .pure _

theorem setProtected_edits {on : Bool} (hW : W b .protect) :
    Does env i (Act.Edits W) (setProtected env i b on n) := by
  induction n with
  | zero => exact .pure _
  | succ n ih =>
    refine .bind (getRefFor_does trivial (fun _ => ⟨hW, trivial⟩) trivial fun r hun => ?_)
      fun r => ?_
    · simp only [Bool.and_eq_true, Bool.not_eq_true', decide_eq_true_eq] at hun
      obtain ⟨hgone, rfl⟩ := hun
      simp [RefEdit.edit, hgone]
    cases r with
    | error e => exact .pure _
    | ok ref =>
      dsimp only
      split
      · exact .pure _
      split
      · exact .pure _
      rename_i hgone _
      refine .bind (putRef_edits hW trivial (by simp [RefEdit.edit, hgone])) fun r => ?_
      split
      · exact .pure _
      · exact ih
      · exact .pure _

theorem dropCheckpoints_nil (r : Ref) : dropCheckpoints r [] = r := by
  have h : keepIf (fun n _ => n ∉ ([] : List String)) r.checkpoints = r.checkpoints :=
    AList.ext (by simp [keepIf])
  simp only [dropCheckpoints, h]

variable {opts : PruneOptions}

theorem edit_prune {drop : List String} (href : pruneRefused opts r = false)
    (hdrop : pruneDrop opts r = some drop) :
    (RefEdit.prune opts).edit r = some (dropCheckpoints r drop) := by
  rw [pruneRefused] at href
  simp [RefEdit.edit, href, hdrop]

theorem pruneLoop_edits (hW : W b .prune) :
    Does env i (Act.Edits W) (pruneLoop env i b opts n) := by
  induction n with
  | zero => exact .pure _
  | succ n ih =>
    refine .bind (getRefFor_does trivial (fun _ => ⟨hW, trivial⟩) trivial fun r hun => ?_)
      fun r => ?_
    · simp only [Bool.and_eq_true, Bool.not_eq_true', decide_eq_true_eq] at hun
      rw [edit_prune hun.1 hun.2, dropCheckpoints_nil]
    cases r with
    | error e => exact .pure _
    | ok ref =>
      dsimp only
      split
      · exact .pure _
      rename_i href
      split
      · exact .pure _
      · exact .pure _
      rename_i drop _ hdrop
      refine .bind (putRef_edits hW trivial (edit_prune (by simpa using href) hdrop)) fun r => ?_
      split
      · exact .pure _
      · exact ih
      · exact .pure _

theorem pruneCheckpoints_edits (hW : W b .prune) :
    Does env i (Act.Edits W) (pruneCheckpoints env i b opts n) := by
  unfold pruneCheckpoints
  split
  · exact pruneLoop_edits hW
  · exact .pure _

/-! ## Checkouts -/

variable {fuel : Nat}

section Checkouts

variable {host : Nat}

theorem dropShadow_local : Does env i Act.Local (dropShadow host b) :=
  .bind (setCheckout_does fun _ => trivial) fun _ => setCheckout_does fun _ => trivial

theorem refreshShadow_local : Does env i Act.Local (refreshShadow host b) := by
  refine .bind (ask_does trivial) fun cloned => ?_
  split
  · refine .bind (setCheckout_does fun _ => trivial) fun _ => ?_
    refine .bind (ask_does trivial) fun recorded => ?_
    split
    · exact setCheckout_does fun _ => trivial
    · exact dropShadow_local
  · exact dropShadow_local

theorem checkoutState_local : Does env i Act.Local (checkoutState host b ref) := by
  refine .bind (getCheckout_does trivial) fun c => ?_
  split
  · exact .pure _
  split
  · exact .pure _
  refine .bind (ask_does trivial) fun fingerprint => ?_
  split
  · exact .pure _
  refine .bind (getCheckout_does trivial) fun c => ?_
  dsimp only
  split
  · exact .bind (setCheckout_does fun _ => trivial) .ret
  · exact .pure _

theorem currentState_local : Does env i Act.Local (currentState host b ref) := by
  refine .bind (getCheckout_does trivial) fun c => ?_
  split
  · exact checkoutState_local
  · exact .pure _

theorem writeSum_local {sum : Checksum} : Does env i Act.Local (writeSum host b ref sum) :=
  .bind (getCheckout_does trivial) fun _ => setCheckout_does fun _ => trivial

theorem refreshCheckout_local : Does env i Act.Local (refreshCheckout host b ref fuel) := by
  refine .bindOk (chainAt_does trivial) .ret fun members => ?_
  refine .bindOk (materializeMembers_does trivial) .ret fun a => ?_
  exact .bind (setCheckout_does fun _ => trivial) fun _ =>
    .bind writeSum_local fun _ => .bind refreshShadow_local .ret

theorem checkoutProven_local : Does env i Act.Local (checkoutProven host b fuel) := by
  refine .bindOk (getRef_does trivial) .ret fun ref => ?_
  refine .bind (ask_does trivial) fun busy => ?_
  split
  · exact .pure _
  refine .bind currentState_local fun state => ?_
  cases state
  case clean => exact .pure _
  all_goals
    exact .bindOk refreshCheckout_local (fun _ => .pure _) .ret

theorem Does.of_reads {A : Act → Prop} (h : Does env i (Eq .none) p) (h0 : A .none) :
    Does env i A p := h.mono fun _ ha => ha ▸ h0

theorem headChain_reads : Does env i (Eq .none) (headChain host b ref fuel) := by
  refine .bind (getCheckout_does rfl) fun c => ?_
  split
  · exact .pure _
  · exact chainAt_does rfl

theorem headChain_local : Does env i Act.Local (headChain host b ref fuel) :=
  headChain_reads.of_reads trivial

end Checkouts

/-! ## Destroying and reaping -/

variable {claimed : Ref}

section Destroy

variable {host : Nat}
variable {force : Bool}

theorem unwindDeletingClaim_writes {at? : Option Nat} (hW : W b .unclaimDelete) :
    Does env i (Act.Writes W) (unwindDeletingClaim env i b at? n) := by
  induction n with
  | zero => exact .pure _
  | succ n ih =>
    refine .bindOk (getRef_does trivial) .ret fun ref => ?_
    dsimp only
    split
    · exact .pure _
    · refine .bind (putRef_writes (e := .unclaimDelete) hW trivial rfl) fun r => ?_
      split
      · exact ih
      · exact .pure _

theorem awaitClaim_writes {sent : Ref} : Does env i (Act.Writes W) (awaitClaim b sent n) := by
  induction n with
  | zero => exact getRef_does trivial
  | succ n ih =>
    refine .bindOk (getRef_does trivial) .ret fun cur => ?_
    dsimp only
    split
    · exact ih
    · exact .pure _

theorem landedClaim_writes {sent : Ref} (hW : W b .unclaimDelete) :
    Does env i (Act.Writes W) (landedClaim env i b sent claimed force) := by
  unfold landedClaim
  split
  · exact .pure _
  refine .bindOk awaitClaim_writes .ret fun cur => ?_
  dsimp only
  split
  · exact .pure _
  split
  · exact .bind (unwindDeletingClaim_writes hW) .ret
  · refine .bind (now_does trivial) fun t => ?_
    split
    · exact .bind (unwindDeletingClaim_writes hW) .ret
    · exact .pure _

theorem deleteClaimedRef_writes {etag : Ref} (hW : W b .delete) :
    Does env i (Act.Writes W) (deleteClaimedRef env i b claimed force n etag) := by
  induction n generalizing etag with
  | zero => exact .pure _
  | succ n ih =>
    refine .bind (deleteRefIf_does trivial (fun _ => ⟨hW, trivial⟩) hW) fun r => ?_
    split
    · split
      · exact .pure _
      refine .bindOk (getRef_does trivial) .ret fun cur => ?_
      dsimp only
      split
      · exact .pure _
      · refine .bind (now_does trivial) fun t => ?_
        split
        · exact .pure _
        · exact ih
    · exact .pure _

theorem Does.claims (h : Does env i (Act.Writes W) p) :
    Does env i (Act.Claims W) p := h.mono fun _ => .inl

theorem Does.calm (h : Does env i (Act.Claims W) p) : Does env i (Act.Calm W) p :=
  h.mono fun _ => .imp_left Act.Writes.edits

theorem destroyClaimed_claims {etag : Ref} (hW : ∀ k, k.destroys → W b k) :
    Does env i (Act.Claims W) (destroyClaimed env i host b claimed force etag) := by
  refine .bind (ask_does (.inl trivial)) fun busy => ?_
  split
  · exact .bind (unwindDeletingClaim_writes (hW _ trivial)).claims .ret
  refine .bind (now_does (.inl trivial)) fun t => ?_
  split
  · exact .bind (unwindDeletingClaim_writes (hW _ trivial)).claims .ret
  · refine .bindOk (deleteClaimedRef_writes (hW _ trivial)).claims
      (fun _ => .bind (unwindDeletingClaim_writes (hW _ trivial)).claims .ret)
      fun u => ?_
    exact .bind (setCheckout_does fun _ => .inr trivial) .ret

theorem stampClaim_writes : Does env i (Act.Writes W) (stampClaim env i b ref) :=
  .step fun _ _ => ⟨.note (.stamped i b _ ref), trivial, trivial, rfl⟩

theorem destroy_claims (hW : ∀ k, k.destroys → W b k) :
    Does env i (Act.Claims W) (destroy env i host b force) := by
  refine .bindOk (getRef_does (.inl trivial)) .ret fun ref => ?_
  refine .bind (now_does (.inl trivial)) fun _ => .bind (now_does (.inl trivial)) fun _ => ?_
  split
  · exact .pure _
  split
  · exact .pure _
  split
  · exact .pure _
  refine .bind stampClaim_writes.claims fun claimedAt => ?_
  refine .bind (putRef_writes (e := .claimDelete claimedAt) (hW _ trivial) trivial rfl).claims
    fun r => ?_
  cases r with
  | ok u => exact destroyClaimed_claims hW
  | error e =>
    refine .bindOk (landedClaim_writes (hW _ trivial)).claims .ret fun cur => ?_
    exact destroyClaimed_claims hW

theorem clearStaleDeleteClaims_writes {bs : List BranchId} (hW : ∀ b, W b .unclaimDelete) :
    Does env i (Act.Writes W) (clearStaleDeleteClaims env i t bs) := by
  induction bs with
  | nil => exact .pure _
  | cons b bs ih =>
    refine .bindOk (getRef_does trivial) (fun _ => ih) fun ref => ?_
    dsimp only
    split
    · exact ih
    · split
      · exact ih
      · exact .bind (putRef_writes (e := .unclaimDelete) (hW b) trivial rfl) fun _ => ih

theorem clearStaleReapingClaim_writes (hW : W b .unclaimReap) :
    Does env i (Act.Writes W) (clearStaleReapingClaim env i b ref) :=
  .bind (putRef_writes (e := .unclaimReap) hW trivial rfl) .ret

theorem unreap_writes (hW : W b .unclaimReap) : Does env i (Act.Writes W) (unreap env i b) := by
  refine .bindOk (getRef_does trivial) .ret fun ref => ?_
  refine .bind (now_does trivial) fun t => ?_
  split
  · exact clearStaleReapingClaim_writes hW
  · exact .pure _

def RefOp.Kind.reaps (k : RefOp.Kind) : Prop := k.destroys ∨ k = .claimReap ∨ k = .unclaimReap

theorem reapOne_claims (hW : ∀ k, k.reaps → W b k) :
    Does env i (Act.Claims W) (reapOne env i host b t) := by
  have hunclaim : W b .unclaimReap := hW _ (.inr (.inr rfl))
  refine .bindOk (getRef_does (.inl trivial)) .ret fun ref => ?_
  have hclear : Does env i (Act.Claims W) (if ref.reaping then
      clearStaleReapingClaim env i b ref else pure ()) := by
    split
    · exact (clearStaleReapingClaim_writes hunclaim).claims
    · exact .pure _
  dsimp only
  split
  · exact .pure _
  split
  · exact hclear
  split
  · exact hclear
  refine .bindOk (putRef_writes (e := .claimReap) (hW _ (.inr (.inl rfl))) trivial rfl).claims .ret
    fun u => ?_
  refine .bind (destroy_claims fun k hk => hW k (.inl hk)) fun r => ?_
  cases r with
  | ok u => exact .pure _
  | error e => exact (unreap_writes hunclaim).claims

theorem reapAll_claims {bs : List BranchId} (hW : ∀ b k, k.reaps → W b k) :
    Does env i (Act.Claims W) (reapAll env i host t bs) := by
  induction bs with
  | nil => exact .pure _
  | cons b bs ih =>
    exact .bind (reapOne_claims (hW b)) fun _ => ih

theorem reap_claims (hW : ∀ b k, k.reaps → W b k) :
    Does env i (Act.Claims W) (reap env i host) := by
  refine .bind (now_does (.inl trivial)) fun t => .bindOk (listRefs_does (.inl trivial)) .ret
    fun bs => ?_
  exact reapAll_claims hW

theorem clearStale_writes (hW : ∀ b, W b .unclaimDelete) :
    Does env i (Act.Writes W) (clearStale env i) := by
  refine .bind (now_does trivial) fun t => .bindOk (listRefs_does trivial) .ret fun bs => ?_
  exact clearStaleDeleteClaims_writes hW

theorem destroy_calm (hW : ∀ k, k.destroys → W b k) :
    Does env i (Act.Calm W) (destroy env i host b force) := (destroy_claims hW).calm

end Destroy

end Offshoot
