import Offshoot.System.Footprint.Edits

/-!
# What writers do

A session and an at-rest checkpoint move heads and write objects, and edit the lease
of their branch.
-/

namespace Offshoot

open Conc Maps

variable {env : Env} {i : Nat} {b : BranchId} {W : BranchId → RefOp.Kind → Prop}
variable {ref : Ref} {epoch fuel : Nat}

/-! ## Flushes and sessions -/

variable {k : DataKey} {n ttl : Nat} {resume : Option Image}

section Session

variable {host : Nat}
variable {txid : Nat} {name : Option String}

theorem Does.keeps {p : M α} (h : Does env i (Act.Edits W) p) :
    Does env i (Act.Keeps W) p := h.mono fun _ => Act.Edits.keeps

theorem Does.keepsLocal {p : M α} (h : Does env i Act.Local p) :
    Does env i (Act.Keeps W) p := h.mono fun _ => Act.Local.keeps

theorem Act.keeps_none : Act.Keeps W .none := ⟨trivial, trivial⟩

theorem Act.apart_none : Act.Apart (Act.Keeps W) .none := ⟨Act.keeps_none, trivial⟩

theorem withSession_apart {f : Session → Session × α} :
    Does env i (Act.Apart (Act.Keeps W)) (withSession i f) :=
  withSession_does fun _ => ⟨⟨trivial, trivial⟩, trivial⟩

theorem putHead_apart {e : RefEdit} {r r' : Ref} (hW : W b e.kind)
    (hnames : RefOp.names (.edit e) = none) (hby : RefOp.by i (.edit e)) (h : e.edit r = some r') :
    Does env i (Act.Apart (Act.Keeps W)) (putRef env i b (.edit e) r' (some r)) :=
  putRef_does Act.apart_none (fun _ => ⟨⟨hW, hnames⟩, trivial⟩)
    (fun _ _ => ⟨⟨hW, hnames⟩, trivial⟩) (RefOp.apply_edit h) hby

theorem uploadFlush_apart {obj : Obj} (hk : ∀ l, k ≠ .base l) :
    Does env i (Act.Apart (Act.Keeps W)) (uploadFlush env k obj) := by
  have hput : Act.Apart (Act.Keeps W) (.put k obj) := ⟨⟨trivial, hk⟩, trivial⟩
  have hsend (c : Bool) : Act.Apart (Act.Keeps W) (.sendPut k obj c) := ⟨⟨trivial, hk⟩, trivial⟩
  refine .bind (putIf_does Act.apart_none hput (hsend _)) fun r => ?_
  split
  · exact put_does Act.apart_none hput (hsend _)
  · exact .pure _

theorem flushKey_ne_base {snapshot : Bool} (l : Lineage) :
    flushKey ref epoch txid snapshot ≠ .base l := by
  cases snapshot <;> simp [flushKey]

theorem slot_flushKey {snapshot : Bool} :
    (flushKey ref epoch txid snapshot).slot = some (ref.lineage, epoch, txid) := by
  cases snapshot <;> simp [flushKey, DataKey.slot]

theorem cleanupFlush_apart : Does env i (Act.Apart (Act.Keeps W)) (cleanupFlush b ref txid k) := by
  refine .bindOk (getRef_does Act.apart_none) .ret fun cur => ?_
  dsimp only
  split
  · exact .bind (deleteObj_does Act.apart_none ⟨⟨trivial, trivial⟩, trivial⟩) .ret
  · exact .pure _

theorem seedDivergence_does (hnone : A .none) (hsession : ∀ s, A (.session i s)) :
    Does env i A (seedDivergence env i ref fuel) := by
  refine .bind (getSession_does hnone) fun s => ?_
  split
  · exact .pure _
  split
  · exact withSession_does hsession
  split
  · exact .pure _
  · exact .bind (chainAt_does hnone) fun _ => withSession_does hsession

theorem reread_reads {withinBudget : Bool} : Does env i (Eq .none) (reread b withinBudget) := by
  unfold reread
  split
  · exact getRef_does rfl
  · exact .pure _

theorem samePremise_ours {cur : Ref} (h : samePremise i epoch ref cur txid) {key : DataKey}
    {c t : Nat} : HeadCommit.ours ⟨i, epoch, cur.lineage, txid, key, name, c, t⟩ cur := by
  simp only [samePremise, Bool.and_eq_true, decide_eq_true_eq] at h
  simp [HeadCommit.ours, h]

theorem commitFlush_apart {key : DataKey} (hW : W b .flush)
    (hours : samePremise i epoch ref ref txid) :
    Does env i (Act.Apart (Act.Keeps W)) (commitFlush env i b epoch txid key name n ref) := by
  induction n generalizing ref with
  | zero => exact .pure _
  | succ n ih =>
    refine .bind (now_does Act.apart_none) fun _ => .bind (now_does Act.apart_none) fun _ => ?_
    refine .bind (putHead_apart hW rfl rfl (if_pos (samePremise_ours hours))) fun r => ?_
    split
    · exact .pure _
    · refine .bind (ask_does Act.apart_none) fun _ => .bindOk (reread_reads.of_reads Act.apart_none)
        (fun _ => .bind cleanupFlush_apart .ret) fun cur => ?_
      dsimp only
      split
      · rename_i hsame
        refine ih ?_
        simp only [samePremise, Bool.and_eq_true, decide_eq_true_eq] at hsame ⊢
        simp [hsame]
      · exact .bind cleanupFlush_apart .ret
    · exact .pure _

theorem encodeFlush_does (hsession : ∀ s, A (.session i s)) :
    Does env i A (encodeFlush env i txid) :=
  .step fun _ _ => ⟨.session i _, hsession _, .inl rfl, rfl⟩

theorem flushFrom_apart (hW : W b .flush) (hours : ref.leaseHolder = some i)
    (hepoch : ref.epoch = epoch) :
    Does env i (Act.Apart (Act.Keeps W)) (flushFrom env i b name fuel epoch ref) := by
  have hsession (s : Session) : Act.Apart (Act.Keeps W) (.session i s) :=
    ⟨⟨trivial, trivial⟩, trivial⟩
  refine .bind (seedDivergence_does Act.apart_none hsession) fun _ =>
    .bindOk (encodeFlush_does hsession) .ret fun enc => ?_
  refine .bindOk (uploadFlush_apart flushKey_ne_base) .ret fun u => ?_
  refine .bindOk (commitFlush_apart hW (by simp [samePremise, hours, hepoch])) .ret fun u => ?_
  exact .bind withSession_apart .ret

theorem drainNow_apart : Does env i (Act.Apart (Act.Keeps W)) (drainNow i) :=
  .read Act.apart_none fun _ _ => rfl

theorem flush_apart (hW : W b .flush) :
    Does env i (Act.Apart (Act.Keeps W)) (flush env i b name fuel) := by
  refine .bind (ask_does Act.apart_none) fun dead => ?_
  split
  · exact .pure _
  refine .bindOk drainNow_apart .ret fun u => ?_
  refine .bind (getSession_does Act.apart_none) fun s =>
    .bindOk (getRef_does Act.apart_none) .ret fun ref => ?_
  dsimp only
  split
  · exact .pure _
  rename_i hours
  rw [not_or, not_not, not_not] at hours
  split
  · exact .pure _
  · exact flushFrom_apart hW hours.1 hours.2

theorem openLease_edits (hW : W b .acquire) : Does env i (Act.Edits W) (openLease env i b ttl) := by
  refine .bind (acquireLease_edits hW) fun r => ?_
  cases r with
  | ok lease => exact .pure _
  | error e =>
    exact .bind settleAcquire_edits fun _ => by split <;> exact .pure _

section Class

variable {A : Act → Prop} (hedit : ∀ a : Act, a.Edits W → A a) (hlocal : ∀ a : Act, a.Local → A a)
  (hsession : ∀ s, A (.session i s))

include hedit hlocal hsession

theorem openSession_does (ha : W b .acquire)
    (hr : W b .release) : Does env i A (openSession env i host b ttl fuel resume) := by
  have hrelease {l : Lease} : Does env i A (releaseLease env i b l) :=
    (releaseLease_edits hr).mono hedit
  refine .bindOk ((openLease_edits ha).mono hedit) .ret fun lease => ?_
  refine .bindOk (checkoutProven_local.mono hlocal) (fun _ => .bind hrelease .ret) fun res => ?_
  refine .bind (withSession_does hsession) fun _ => ?_
  split
  · refine .bind (withSession_does hsession) fun ok => ?_
    split
    · exact .pure _
    · exact .bind (withSession_does hsession) fun _ => .bind hrelease .ret
  · exact .pure _

end Class

theorem openSession_keeps (ha : W b .acquire)
    (hr : W b .release) : Does env i (Act.Keeps W) (openSession env i host b ttl fuel resume) :=
  openSession_does (fun _ => Act.Edits.keeps) (fun _ => Act.Local.keeps)
    (fun _ => ⟨trivial, trivial⟩) ha hr

theorem commitSidecarRefresh_local : Does env i Act.Local (commitSidecarRefresh i host b) := by
  refine .bind (getSession_does trivial) fun s => .bind (ask_does trivial) fun c => ?_
  split
  · exact .pure _
  refine .bind (getCheckout_does trivial) fun c => .bindOk (getRef_does trivial) .ret fun ref => ?_
  dsimp only
  split
  · exact .pure _
  split
  · exact .pure _
  · exact .bind (setCheckout_does fun _ => trivial) fun _ => refreshShadow_local

theorem closeSession_does (hedit : ∀ a : Act, a.Edits W → A a) (hlocal : ∀ a : Act, a.Local → A a)
    (hsession : ∀ s, A (.session i s)) (hr : W b .release) :
    Does env i A (closeSession env i host b) := by
  have hnone : A .none := hlocal _ trivial
  refine .bind (Does.read hnone fun _ _ => rfl) fun drained =>
    .bind (getSession_does hnone) fun s => .bind (withSession_does hsession) fun _ =>
    .bind ?_ fun _ =>
      .bind (getSession_does hnone) fun _ => (releaseLease_edits hr).mono hedit
  unfold refreshAtClose
  split
  · split
    · exact commitSidecarRefresh_local.mono hlocal
    · exact .pure _
  · exact .pure _

theorem closeSession_keeps (hr : W b .release) :
    Does env i (Act.Keeps W) (closeSession env i host b) :=
  closeSession_does (fun _ => Act.Edits.keeps) (fun _ => Act.Local.keeps)
    (fun _ => ⟨trivial, trivial⟩) hr

theorem calling_keeps {call : Call} {out : α → Outcome} {p : M (Result α)}
    (hp : Does env i (Act.Keeps W) p) : Does env i (Act.Keeps W) (calling i b call out p) :=
  .bind (note_does ⟨trivial, trivial⟩ trivial) fun _ => .bind hp fun _ => report_edits.keeps

theorem calling_edits {call : Call} {out : α → Outcome} {p : M (Result α)}
    (hp : Does env i (Act.Edits W) p) : Does env i (Act.Edits W) (calling i b call out p) :=
  .bind (note_does trivial trivial) fun _ => .bind hp fun _ => report_edits

theorem runScript_keeps {script : List Command} (hr : W b .release) (hf : W b .flush) :
    Does env i (Act.Keeps W) (runScript env i host b fuel script) := by
  induction script with
  | nil => exact .pure _
  | cons c rest ih =>
    cases c with
    | close => exact .bind (closeSession_keeps hr) .ret
    | flush name =>
      exact .bind (calling_keeps ((flush_apart hf).mono fun _ => And.left)) fun _ => ih

theorem session_keeps {script : List Command} (ha : W b .acquire) (hr : W b .release)
    (hf : W b .flush) : Does env i (Act.Keeps W) (session env i host b ttl fuel resume script) := by
  refine .bindOk (openSession_keeps ha hr) .ret fun u => ?_
  exact runScript_keeps hr hf

end Session

/-! ## At-rest checkpoints -/

section Checkpoint

variable {host : Nat}
variable {opts : CheckpointOptions}

theorem checkpointCheck_reads {name : String} :
    Does env i (Eq .none) (checkpointCheck env i host b name opts ref) := by
  refine .bind (now_does rfl) fun t => ?_
  dsimp only
  split
  · exact .pure _
  · exact .bind (getCheckout_does rfl) .ret

theorem checkpointCheck_edits {name : String} :
    Does env i (Act.Edits W) (checkpointCheck env i host b name opts ref) :=
  checkpointCheck_reads.of_reads trivial

theorem releaseCheckpointLease_writes {l : Lease} (hW : W b .release) :
    Does env i (Act.Writes W) (releaseCheckpointLease env i b l n) := by
  induction n with
  | zero => exact .pure _
  | succ n ih =>
    refine .bind (getRef_does trivial) fun r => ?_
    cases r with
    | error e =>
      refine .bind (releaseLease_writes hW) fun r => ?_
      split
      · exact ih
      · exact .pure _
    | ok ref =>
      dsimp only
      split
      · exact .pure _
      · refine .bind (releaseLease_writes hW) fun r => ?_
        split
        · exact ih
        · exact .pure _

theorem releaseIfOurs_writes {read : Ref} (hW : W b .release) :
    Does env i (Act.Writes W) (releaseIfOurs env i b read) := by
  unfold releaseIfOurs
  split
  · exact releaseCheckpointLease_writes hW
  · exact .pure _

theorem releaseCheckpointLease_edits {l : Lease} (hW : W b .release) :
    Does env i (Act.Edits W) (releaseCheckpointLease env i b l n) :=
  (releaseCheckpointLease_writes hW).edits

theorem releaseIfOurs_edits {read : Ref} (hW : W b .release) :
    Does env i (Act.Edits W) (releaseIfOurs env i b read) := (releaseIfOurs_writes hW).edits

theorem acquireCheckpointLease_edits {check : Ref → M (Result Unit)} (ha : W b .acquire)
    (hr : W b .release) (hcheck : ∀ r, Does env i (Act.Edits W) (check r)) :
    Does env i (Act.Edits W) (acquireCheckpointLease env i b ttl check n) := by
  induction n with
  | zero => exact .pure _
  | succ n ih =>
    refine .bind (now_does trivial) fun t => .bind (acquireLeaseRefIf_edits ha hcheck) fun r => ?_
    split
    · exact .pure _
    · exact .bind (releaseIfOurs_edits hr) .ret
    · exact .pure _
    refine .bind settleAcquire_edits fun r => ?_
    split
    · exact .pure _
    · refine .bindOk (hcheck _) (fun _ => .bind (releaseCheckpointLease_edits hr) .ret) fun u => ?_
      exact .pure _
    · refine .bind (now_does trivial) fun t => ?_
      split
      · exact .pure _
      split
      · exact .pure _
      split
      · exact .pure _
      · exact ih

theorem planChain_local : Does env i Act.Local (planChain host b ref fuel opts) := by
  refine .bind (getCheckout_does trivial) fun c => ?_
  split
  · exact .bindOk headChain_local .ret .ret
  · exact .pure _

theorem encodeCheckpoint_local :
    Does env i Act.Local (encodeCheckpoint env host b ref epoch fuel opts) := by
  refine .bind planChain_local fun members => .bind (ask_does trivial) fun large =>
    .bind (getCheckout_does trivial) fun c => ?_
  split
  · split <;> exact .pure _
  · refine .bind (getCheckout_does trivial) fun c => ?_
    split
    · exact .pure _
    · split <;> exact .pure _

/-- A checkpoint uploads at its lineage, under its epoch, one above the head it read. -/
theorem encodeCheckpoint_key :
    (encodeCheckpoint env host b ref epoch fuel opts).Returns fun r => ∀ u, r = .ok u →
      u.key = .snapshot ref.lineage epoch (ref.headTXID + 1) ∨
        u.key = .segment ref.lineage epoch (ref.headTXID + 1) (ref.headTXID + 1) := by
  refine .bind .any fun members _ => .bind .any fun large _ => .bind .any fun c _ => ?_
  split
  · split
    · exact fun _ h => by cases h
    · exact fun u hu => .inr (by rw [← Except.ok.inj hu])
  · refine .bind .any fun c _ => ?_
    split
    · exact fun _ h => by cases h
    · split
      · exact fun _ h => by cases h
      · exact fun u hu => .inl (by rw [← Except.ok.inj hu])

theorem putCheckpointObject_keeps {obj : Obj} (hk : ∀ l, k ≠ .base l) :
    Does env i (Act.Keeps W) (putCheckpointObject env k obj) := by
  refine .bind (putIf_does Act.keeps_none ⟨trivial, hk⟩ ⟨trivial, hk⟩) fun r => ?_
  split
  · exact .pure _
  · exact .bindOk (getObj_does Act.keeps_none) .ret .ret
  · exact .bindOk (deleteObj_does Act.keeps_none ⟨trivial, trivial⟩) .ret .ret

theorem premise_of_commitVerdict {c : HeadCommit} {attempted : Bool} {cur : Ref}
    (h : commitVerdict c attempted cur = none) : c.premise cur := by
  unfold commitVerdict at h
  split at h
  · cases h
  split at h
  · cases h
  · rename_i hp
    simpa using hp

theorem commitCheckpoint_keeps {c : HeadCommit} (hW : W b .checkpoint) (hc : c.holder = i)
    {attempted : Bool} : Does env i (Act.Keeps W) (commitCheckpoint env i b c attempted n) := by
  induction n generalizing attempted with
  | zero =>
    exact .bindOk (getRef_does Act.keeps_none) .ret .ret
  | succ n ih =>
    refine .bindOk (getRef_does Act.keeps_none) .ret fun cur => ?_
    dsimp only
    split
    · exact .pure _
    rename_i hv
    have hp := premise_of_commitVerdict hv
    refine .bind (now_does Act.keeps_none) fun _ => .bind (now_does Act.keeps_none) fun _ => ?_
    refine .bind (Does.mono (putHead_apart hW rfl hc (if_pos ?_)) fun _ => And.left) fun r => ?_
    · simpa [HeadCommit.premise, HeadCommit.ours] using hp
    · cases r with
      | ok u => exact .pure _
      | error e => exact ih

theorem stampCheckpoint_local {l : Lineage} {e t : Nat} {sum : Option Checksum}
    {ks : List DataKey} : Does env i Act.Local (stampCheckpoint host b l e t sum ks) := by
  refine .bind (getCheckout_does trivial) fun c => ?_
  split
  · exact .pure _
  · refine .bind (ask_does trivial) fun undisturbed => ?_
    split <;> exact .bind (setCheckout_does fun _ => trivial) .ret

theorem settleShadow_local {trusted : Bool} :
    Does env i Act.Local (settleShadow host b trusted) := by
  unfold settleShadow
  split
  · exact refreshShadow_local
  · exact dropShadow_local

theorem verifyOwnObject_reads {u : Upload} : Does env i (Eq .none) (verifyOwnObject u) := by
  exact .bindOk (getObj_does rfl) .ret .ret

theorem checkpointLeased_keeps {name : String} {lease : Lease} (hW : W b .checkpoint) :
    Does env i (Act.Keeps W) (checkpointLeased env i host b name fuel opts lease ref) := by
  have hdrop (k : DataKey) : Does env i (Act.Keeps W) (deleteObj k) :=
    deleteObj_does Act.keeps_none ⟨trivial, trivial⟩
  refine .bind (ask_does Act.keeps_none) fun busy => ?_
  split
  · exact .pure _
  refine .bind_returns encodeCheckpoint_local.keepsLocal encodeCheckpoint_key fun r hkey => ?_
  cases r with
  | error e => exact .pure _
  | ok u =>
    refine .bind (ask_does Act.keeps_none) fun lost => ?_
    split
    · exact .pure _
    have hbase (l : Lineage) : u.key ≠ .base l := by
      rcases hkey u rfl with h | h <;> simp [h]
    refine .bindOk (putCheckpointObject_keeps hbase) .ret fun _ => ?_
    refine .bind (ask_does Act.keeps_none) fun lost => ?_
    split
    · exact .bind (hdrop _) .ret
    refine .bind (commitCheckpoint_keeps hW (by rfl)) fun r => ?_
    split
    · split
      · exact .bind (hdrop _) .ret
      · exact .pure _
    · refine .bind (verifyOwnObject_reads.of_reads Act.keeps_none) fun _ =>
        .bindOk stampCheckpoint_local.keepsLocal .ret fun trusted => ?_
      exact .bind settleShadow_local.keepsLocal .ret

theorem checkpoint_keeps {name : String} (ha : W b .acquire) (hr : W b .release)
    (hc : W b .checkpoint) : Does env i (Act.Keeps W) (checkpoint env i host b name fuel opts) := by
  refine .bindOk (acquireCheckpointLease_edits ha hr fun _ => checkpointCheck_edits).keeps .ret
    fun p => ?_
  refine .bind (checkpointLeased_keeps hc) fun r => ?_
  cases r with
  | ok txid => exact .pure _
  | error e => exact .bind (releaseCheckpointLease_edits hr).keeps .ret

end Checkpoint

end Offshoot
