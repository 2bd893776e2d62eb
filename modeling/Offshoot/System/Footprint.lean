import Offshoot.System.Footprint.Lineages

/-!
# What each operation does

For each operation, the refs it writes and how.  A collection writes no refs, and
nothing else marks or sweeps.
-/

namespace Offshoot

open Conc Maps

variable {env : Env} {i : Nat} {b : BranchId} {W : BranchId → RefOp.Kind → Prop}

/-! ## Garbage collection -/

variable {ks : List DataKey} {fuel : Nat} {stones : Stones}

section GC

variable {A : Act → Prop}

theorem readRefs_does (h0 : A .none) {ks : List BranchId} : Does env i A (readRefs ks) := by
  induction ks with
  | nil => exact .pure _
  | cons b ks ih =>
    refine .bind (getRef_does h0) fun r => ?_
    split
    · exact ih
    · exact .pure _
    · exact .bindOk ih .ret .ret

theorem markRefs_does (h0 : A .none) : Does env i A (markRefs fuel) := by
  refine .bindOk (listRefs_does h0) .ret fun ks => ?_
  refine .bindOk (readRefs_does h0) .ret fun refs => ?_
  exact .bind (resolve_does h0) .ret

theorem noteMarked_collects {reachable : List DataKey} :
    Does env i Act.Collects (noteMarked env i reachable) :=
  .step fun _ _ => ⟨.note (.marked i _ reachable), trivial, trivial, rfl⟩

theorem mark_collects : Does env i Act.Collects (mark env i fuel) := by
  refine .bindOk (markRefs_does trivial)
    (fun _ => .bind (note_does trivial trivial) .ret) fun m => ?_
  exact .bind noteMarked_collects .ret

theorem loadTombstones_collects : Does env i Act.Collects loadTombstones :=
  .read trivial fun _ _ => rfl

theorem putTombstones_collects {etag : Option Stones} :
    Does env i Act.Collects (putTombstones env etag stones) := .step fun o w => by
  have hnone : Change env i Act.Collects w w := ⟨.none, trivial, trivial, rfl⟩
  have hput : Change env i Act.Collects w { w with stones := some stones } :=
    ⟨.stones (some stones), trivial, trivial, rfl⟩
  dsimp only
  split
  · exact hput
  split
  · exact hnone
  rename_i hset
  cases o.fate with
  | lost => exact hnone
  | landed =>
    dsimp only
    split
    · exact hput
    · exact hnone
  | pending =>
    exact ⟨.sendStones etag (some stones), trivial, by simpa [Act.ok] using hset, rfl⟩

theorem stampNew_collects {reachable : List DataKey} :
    Does env i Act.Collects (stampNew env reachable stones ks) := by
  induction ks with
  | nil => exact .pure _
  | cons k ks ih =>
    rw [stampNew]
    split
    · exact ih
    · exact .bind (now_does trivial) fun _ => .bind ih .ret

theorem tombstone_collects {new : List (DataKey × Nat)} :
    Does env i Act.Collects (tombstone env new) := by
  refine .bindOk loadTombstones_collects .ret fun cur => ?_
  exact putTombstones_collects

theorem pruneTombstones_collects {n : Nat} :
    Does env i Act.Collects (pruneTombstones env ks n) := by
  induction n with
  | zero => exact .pure _
  | succ n ih =>
    rw [pruneTombstones]
    split
    · exact .pure _
    refine .bindOk loadTombstones_collects .ret fun cur => ?_
    dsimp only
    split
    · exact .pure _
    · refine .bind putTombstones_collects fun r => ?_
      split
      · exact ih
      · exact .pure _

theorem sweepOne_collects {k : DataKey} : Does env i Act.Collects (sweepOne env i k) :=
  .step fun o w => by
    have hsweep : Change env i Act.Collects w ((w.dropObj k).note
        (.swept i (if env.oneClock then w.clock else o.num) k)) :=
          ⟨.sweep _ k, trivial, trivial, rfl⟩
    dsimp only
    split
    · exact hsweep
    · split
      · exact hsweep
      · exact ⟨.none, trivial, trivial, rfl⟩

theorem sweepDelete_collects : Does env i Act.Collects (sweepDelete env i ks) := by
  induction ks with
  | nil => exact .pure _
  | cons k ks ih =>
    refine .bind sweepOne_collects fun ok => ?_
    split
    · exact .bind ih .ret
    · refine .bind (ask_does trivial) fun stop => ?_
      split
      · exact .pure _
      · exact ih

theorem sweep_collects {grace : Nat} {new : List (DataKey × Nat)} :
    Does env i Act.Collects (sweep env i grace fuel stones new) := by
  refine .bind (now_does trivial) fun cutoff => ?_
  dsimp only
  split
  · exact .pure _
  · refine .bindOk mark_collects .ret fun m => ?_
    refine .bindOk (listData_does trivial) .ret fun existing => ?_
    exact .bind sweepDelete_collects fun _ => pruneTombstones_collects

theorem gc_collects {grace : Nat} : Does env i Act.Collects (gc env i grace fuel) := by
  refine .bindOk mark_collects .ret fun m => ?_
  refine .bindOk (listData_does trivial) .ret fun all => ?_
  refine .bindOk loadTombstones_collects .ret fun loaded => ?_
  refine .bind stampNew_collects fun new => ?_
  split
  · exact sweep_collects
  · refine .bindOk tombstone_collects .ret fun u => ?_
    refine .bindOk loadTombstones_collects .ret fun stones => ?_
    exact sweep_collects

end GC

/-! ## All operations -/

def Op.writes : Op → BranchId → RefOp.Kind → Prop
  | acquire b .. => fun b' k => b' = b ∧ k = .acquire
  | renew b .. => fun b' k => b' = b ∧ k = .renew
  | release b _ | releaseByHolder b _ => fun b' k => b' = b ∧ k = .release
  | touch b .. => fun b' k => b' = b ∧ k = .touch
  | protect b .. => fun b' k => b' = b ∧ k = .protect
  | prune b .. => fun b' k => b' = b ∧ k = .prune
  | session _ b .. => fun b' k => b' = b ∧ (k = .acquire ∨ k = .release ∨ k = .flush)
  | checkpoint _ b .. => fun b' k => b' = b ∧ (k = .acquire ∨ k = .release ∨ k = .checkpoint)
  | create db _ => fun b' k => b' = ⟨db, "main"⟩ ∧ k = .create
  | fork _ _ new .. => fun b' k => b' = new ∧ k = .create
  | rollback _ b .. => fun b' k => b' = b ∧ k = .repoint ∨
      b' = ⟨b.db, b.branch ++ "-pre-rollback"⟩ ∧ (k = .create ∨ k.destroys)
  | promote _ db _ target .. => fun b' k => b' = ⟨db, target⟩ ∧ k = .repoint ∨
      b' = ⟨db, target ++ "-pre-promote"⟩ ∧ (k = .create ∨ k.destroys)
  | compact _ b .. => fun b' k => b' = b ∧ k = .repoint
  | destroy _ b _ => fun b' k => b' = b ∧ k.destroys
  | reap _ => fun _ k => k.reaps
  | clearStale => fun _ k => k = .unclaimDelete
  | land _ => fun _ _ => True
  | checkout .. | gc .. | appWrite .. | captureRebase .. | captureApply .. | captureStop _
  | tick _ => fun _ _ => False

def Op.targets : Op → BranchId → Prop
  | acquire b .. | renew b .. | release b .. | releaseByHolder b .. | touch b .. | protect b ..
  | prune b .. | session _ b .. | checkpoint _ b .. | compact _ b .. | destroy _ b _ => (· = b)
  | create db _ => (· = ⟨db, "main"⟩)
  | fork _ _ new _ _ => (· = new)
  | rollback _ b .. => fun b' => b' = b ∨ b' = ⟨b.db, b.branch ++ "-pre-rollback"⟩
  | promote _ db _ target .. =>
    fun b' => b' = ⟨db, target⟩ ∨ b' = ⟨db, target ++ "-pre-promote"⟩
  | reap _ | clearStale | land _ => fun _ => True
  | checkout .. | gc .. | appWrite .. | captureRebase .. | captureApply .. | captureStop _
  | tick _ => fun _ => False

theorem Op.targets_of_writes {op : Op} {k : RefOp.Kind} (h : op.writes b k) : op.targets b := by
  cases op with
  | rollback _ _ _ _ _ => exact h.imp (·.1) (·.1)
  | promote _ _ _ _ _ _ => exact h.imp (·.1) (·.1)
  | reap _ | clearStale | land _ => trivial
  | _ => first | exact h.1 | exact h

theorem flying_collects {p : M α} {f : Flight} (hp : Does env i Act.Collects p) :
    Does env i Act.Collects (flying i f p) :=
  .bind (setFlight_does trivial) fun _ => .bind hp fun _ => setFlight_does trivial

theorem capture_keeps {j : Nat} {f : Session → Session} (h : ∀ s, Captured s (f s)) :
    Does env i (Act.Keeps W) (withSession j fun s => (f s, ())) :=
  .step fun _ _ => ⟨.session j _, ⟨trivial, trivial⟩, .inr (h _), rfl⟩

variable (op : Op)

/-- An operation that mints no lineage gives no branch one. -/
theorem Op.prog_keeps (hforks : op.forks = false) (hgc : op.collects = false)
    (hland : ∀ n, op ≠ .land n) : Does env i (Act.Keeps op.writes) (op.prog env i) := by
  cases op with
  | acquire b h ttl => exact calling_keeps (acquireLease_edits ⟨rfl, rfl⟩).keeps
  | renew b l ttl => exact calling_keeps (renewLease_edits ⟨rfl, rfl⟩).keeps
  | release b l => exact calling_keeps (releaseLease_edits ⟨rfl, rfl⟩).keeps
  | releaseByHolder b h => exact calling_keeps (releaseLeaseByHolder_edits ⟨rfl, rfl⟩).keeps
  | touch b ttl t n => exact calling_keeps (touch_writes ⟨rfl, rfl⟩).edits.keeps
  | protect b on n => exact calling_keeps (setProtected_edits ⟨rfl, rfl⟩).keeps
  | prune b opts n => exact calling_keeps (pruneCheckpoints_edits ⟨rfl, rfl⟩).keeps
  | session host b ttl fuel resume script =>
    exact session_keeps ⟨rfl, .inl rfl⟩ ⟨rfl, .inr (.inl rfl)⟩ ⟨rfl, .inr (.inr rfl)⟩
  | checkpoint host b name fuel opts =>
    exact calling_keeps
      (checkpoint_keeps ⟨rfl, .inl rfl⟩ ⟨rfl, .inr (.inl rfl)⟩ ⟨rfl, .inr (.inr rfl)⟩)
  | checkout host b fuel => exact .bind checkoutProven_local.keepsLocal .ret
  | destroy host b force =>
    exact .bind ((destroy_calm fun _ hk => ⟨rfl, hk⟩).mono fun _ => Act.Calm.keeps) .ret
  | reap host => exact (reap_claims fun _ _ hk => hk).calm.mono fun _ => Act.Calm.keeps
  | clearStale => exact (clearStale_writes (W := Op.writes .clearStale) fun _ => rfl).edits.keeps
  | gc grace fuel => cases hgc
  | appWrite host b img =>
    exact .step fun _ _ => ⟨.checkout host b _, ⟨trivial, trivial⟩, trivial, rfl⟩
  | captureRebase s img => exact capture_keeps fun _ => .rebase img
  | captureApply s txn => exact capture_keeps fun _ => .apply txn
  | captureStop s => exact capture_keeps fun _ => .stop
  | tick n => exact .step fun _ _ => ⟨.clock n, ⟨trivial, trivial⟩, trivial, rfl⟩
  | land n => exact absurd rfl (hland n)
  | create _ _ | fork _ _ _ _ _ | rollback _ _ _ _ _ | promote _ _ _ _ _ _ | compact _ _ _ _ =>
    cases hforks

/-- An operation that mints lineages removes at most what it prepared them with. -/
theorem Op.prog_remakes (hforks : op.forks = true) :
    Does env i (Act.Remakes op.writes) (op.prog env i) := by
  have hfly {α : Type} {p : M α} (hp : Does env i (Act.Remakes op.writes) p) :
      Does env i (Act.Remakes op.writes) (flying i .fork p) :=
    .bind (setFlight_does ⟨trivial, trivial⟩) fun _ =>
      .bind hp fun _ => setFlight_does ⟨trivial, trivial⟩
  cases op with
  | create db img => exact hfly ((create_apart ⟨rfl, rfl⟩).mono fun _ ha => ha.1.remakes)
  | fork host src new opts fuel => exact hfly (fork_grows ⟨rfl, rfl⟩).remakes
  | rollback host b name opts fuel =>
    exact hfly (rollback_remakes (.inl ⟨rfl, rfl⟩) (.inr ⟨rfl, .inl rfl⟩)
      fun _ hk => .inr ⟨rfl, .inr hk⟩)
  | promote host db source target opts fuel =>
    exact hfly (promote_remakes (.inl ⟨rfl, rfl⟩) (.inr ⟨rfl, .inl rfl⟩)
      fun _ hk => .inr ⟨rfl, .inr hk⟩)
  | compact host b force fuel => exact hfly (compact_remakes ⟨rfl, rfl⟩)
  | _ => cases hforks

/-- Of the operations that mint no lineage, only the ones that move heads and a
collection remove objects. -/
theorem Op.prog_grows (hforks : op.forks = false) (hmoves : op.moves = false)
    (hgc : op.collects = false) (hland : ∀ n, op ≠ .land n) :
    Does env i (Act.Grows op.writes) (op.prog env i) := by
  have hedits {p : M Unit} (h : Does env i (Act.Edits op.writes) p) :
      Does env i (Act.Grows op.writes) p := h.mono fun _ h => h.grows
  have hcapture {j : Nat} {f : Session → Session} (h : ∀ s, Captured s (f s)) :
      Does env i (Act.Grows op.writes) (withSession j fun s => (f s, ())) :=
    .step fun _ _ => ⟨.session j _, ⟨trivial, trivial⟩, .inr (h _), rfl⟩
  cases op with
  | acquire b h ttl => exact hedits (calling_edits (acquireLease_edits ⟨rfl, rfl⟩))
  | renew b l ttl => exact hedits (calling_edits (renewLease_edits ⟨rfl, rfl⟩))
  | release b l => exact hedits (calling_edits (releaseLease_edits ⟨rfl, rfl⟩))
  | releaseByHolder b h => exact hedits (calling_edits (releaseLeaseByHolder_edits ⟨rfl, rfl⟩))
  | touch b ttl t n => exact hedits (calling_edits (touch_writes ⟨rfl, rfl⟩).edits)
  | protect b on n => exact hedits (calling_edits (setProtected_edits ⟨rfl, rfl⟩))
  | prune b opts n => exact hedits (calling_edits (pruneCheckpoints_edits ⟨rfl, rfl⟩))
  | checkout host b fuel => exact .bind checkoutProven_local.growsLocal .ret
  | destroy host b force =>
    exact .bind ((destroy_calm fun _ hk => ⟨rfl, hk⟩).mono fun _ => Act.Calm.grows) .ret
  | reap host => exact (reap_claims fun _ _ hk => hk).calm.mono fun _ => Act.Calm.grows
  | clearStale => exact hedits (clearStale_writes (W := Op.writes .clearStale) fun _ => rfl).edits
  | appWrite host b img =>
    exact .step fun _ _ => ⟨.checkout host b _, ⟨trivial, trivial⟩, trivial, rfl⟩
  | captureRebase s img => exact hcapture fun _ => .rebase img
  | captureApply s txn => exact hcapture fun _ => .apply txn
  | captureStop s => exact hcapture fun _ => .stop
  | tick n => exact .step fun _ _ => ⟨.clock n, ⟨trivial, trivial⟩, trivial, rfl⟩
  | land n => exact absurd rfl (hland n)
  | gc _ _ => cases hgc
  | session _ _ _ _ _ _ | checkpoint _ _ _ _ _ => cases hmoves
  | create _ _ | fork _ _ _ _ _ | rollback _ _ _ _ _ | promote _ _ _ _ _ _ | compact _ _ _ _ =>
    cases hforks

/-- A collection collects, and every other operation writes no refs but its own. -/
theorem Op.prog_within (hland : ∀ n, op ≠ .land n) :
    Does env i (fun a => op.collects = true ∧ a.Collects ∨ a.In op.writes) (op.prog env i) := by
  cases hgc : op.collects with
  | true =>
    cases op with
    | gc grace fuel => exact (flying_collects gc_collects).mono fun _ h => .inl ⟨rfl, h⟩
    | _ => cases hgc
  | false =>
    refine Does.mono ?_ fun _ h => .inr h
    cases hforks : op.forks with
    | false => exact (op.prog_keeps hforks hgc hland).mono fun _ h => h.1
    | true => exact (op.prog_remakes hforks).mono fun _ h => h.1

end Offshoot
