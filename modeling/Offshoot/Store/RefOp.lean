import Mathlib.Data.List.Sort
import Offshoot.Store.Objects
import Offshoot.Store.Ref

/-!
# The ref as a sequential object

Every write of a ref replaces the whole record under a compare-and-swap, so a
write that lands has edited exactly the record it was computed from.  `RefEdit`
lists the edits the code makes and `RefEdit.apply` says what each does to a ref,
and when it is refused: the ref as one object with sequential operations.

The writers compute their new record from the functions below as well; the claim
that a landed write is an edit of the record it replaced is proved about them,
not assumed.
-/

namespace Offshoot

variable {r r' : Ref} {before : Option Ref}

open Maps

structure Lease where
  holder : Holder
  epoch : Nat
  expiry : Option Nat
  deriving DecidableEq

/-- A lease is live at `now` when it has a holder and an expiry after `now`. -/
def leaseLive (r : Ref) (now : Nat) : Bool :=
  match r.leaseExpiry with
  | some expiry => r.leaseHolder.isSome && now < expiry
  | none => false

namespace Ref

def stored (r : Ref) : Ref := if r.headEpoch = 0 then { r with headEpoch := r.epoch } else r

/-- Only a lease that is not live starts a new writer generation. -/
def acquireLease (r : Ref) (holder : Holder) (ttl now : Nat) : Ref :=
  { r with
    epoch := if leaseLive r now then r.epoch else r.epoch + 1
    leaseHolder := some holder
    leaseExpiry := some (now + ttl) }

def renewLease (r : Ref) (ttl now : Nat) : Ref := { r with leaseExpiry := some (now + ttl) }

/-- Releasing keeps the epoch, so that the next acquire still raises it. -/
def clearLease (r : Ref) (now : Nat) : Ref :=
  { r with leaseHolder := none, leaseExpiry := none }.touch now

def setTTL (r : Ref) (ttl : Option Nat) : Ref :=
  match ttl with
  | none => r
  | some 0 => { r with ttl := none }
  | some n => { r with ttl := some n }

end Ref

/-! ## Moving the head -/

/-- A head move: the lease it is made under, the txid it commits and the object
uploaded for it, and the checkpoint it records. -/
structure HeadCommit where
  holder : Holder
  epoch : Nat
  lineage : Lineage
  txid : Nat
  key : DataKey
  name : Option String
  createdAt : Nat
  now : Nat
  deriving DecidableEq

namespace HeadCommit

def ours (c : HeadCommit) (r : Ref) : Bool :=
  r.leaseHolder = some c.holder && r.epoch = c.epoch && r.lineage = c.lineage &&
    r.headTXID + 1 = c.txid

def setHead (c : HeadCommit) (r : Ref) : Ref :=
  let r := { r with headTXID := c.txid, headEpoch := c.epoch }
  match c.name with
  | none => r
  | some name => r.setCheckpoint name ⟨c.txid, c.epoch, c.createdAt⟩

def flushed (c : HeadCommit) (r : Ref) : Ref := (c.setHead r).touch c.now

def advance (c : HeadCommit) (r : Ref) : Ref :=
  { c.setHead r with leaseHolder := none, leaseExpiry := none }.touch c.now

end HeadCommit

/-! ## Pruning checkpoints -/

structure PruneOptions where
  names : List String
  keep : Option Nat
  force : Bool
  deriving DecidableEq

def newerThan (a b : String × Checkpoint) : Prop :=
  b.2.txid < a.2.txid ∨ a.2.txid = b.2.txid ∧
    (b.2.createdAt < a.2.createdAt ∨ a.2.createdAt = b.2.createdAt ∧ a.1 ≤ b.1)

instance : DecidableRel newerThan := fun _ _ => inferInstanceAs (Decidable (_ ∨ _ ∧ (_ ∨ _ ∧ _)))

def newestFirst (cps : Map String Checkpoint) : List String :=
  ((cps.entries.map fun e => (e.1, e.2)).insertionSort newerThan).map (·.1)

/-- The names a prune removes: those it lists, all of which must exist, or those
ranked out by the number to keep. -/
def pruneDrop (opts : PruneOptions) (r : Ref) : Option (List String) :=
  match opts.keep with
  | some keep => some ((newestFirst r.checkpoints).drop keep)
  | none =>
    if opts.names.all fun n => (r.checkpoints.lookup n).isSome then some opts.names.dedup
    else none

def dropCheckpoints (r : Ref) (names : List String) : Ref :=
  { r with checkpoints := keepIf (fun n _ => n ∉ names) r.checkpoints }

/-! ## Edits -/

/-- A repoint gives a branch a fresh lineage and no lease. -/
structure Repoint where
  lineage : Lineage
  txid : Nat
  checkpoints : Map String Checkpoint
  base : Option BasePointer
  now : Nat
  deriving DecidableEq

def Repoint.apply (p : Repoint) (r : Ref) : Ref :=
  { r with
    lineage := p.lineage, epoch := 1, headTXID := p.txid, headEpoch := 1
    checkpoints := p.checkpoints, base := p.base
    leaseHolder := none, leaseExpiry := none }.touch p.now

inductive RefEdit where
  | acquire (holder : Holder) (ttl now : Nat)
  | renew (lease : Lease) (ttl now : Nat)
  | release (lease : Lease) (now : Nat)
  | releaseByHolder (holder : Holder) (now : Nat)
  | flush (c : HeadCommit)
  | checkpoint (c : HeadCommit)
  | touch (ttl : Option Nat) (now : Nat)
  | protect (on : Bool)
  | prune (opts : PruneOptions)
  | claimDelete (now : Nat)
  | unclaimDelete
  | claimReap
  | unclaimReap
  | repoint (p : Repoint)
  deriving DecidableEq

namespace RefEdit

def edit : RefEdit → Ref → Option Ref
  | acquire holder ttl now, r =>
    if r.reaping || r.deleting || (leaseLive r now && r.leaseHolder ≠ some holder) then none
    else some (r.acquireLease holder ttl now)
  | renew lease ttl now, r =>
    if r.leaseHolder ≠ some lease.holder ∨ r.epoch ≠ lease.epoch then none
    else some (r.renewLease ttl now)
  | release lease now, r =>
    if r.leaseHolder ≠ some lease.holder ∨ r.epoch ≠ lease.epoch then none
    else some (r.clearLease now)
  | releaseByHolder holder now, r =>
    if r.leaseHolder ≠ some holder then none else some (r.clearLease now)
  | flush c, r => if c.ours r then some (c.flushed r) else none
  | checkpoint c, r =>
    if c.ours r && !r.deleting && !r.reaping then some (c.advance r) else none
  | touch ttl now, r => if r.reaping then none else some ((r.setTTL ttl).touch now)
  | protect on, r => if r.reaping || r.deleting then none else some { r with isProtected := on }
  | prune opts, r =>
    if r.reaping || r.deleting || (r.isProtected && !opts.force) then none
    else (pruneDrop opts r).map (dropCheckpoints r)
  | claimDelete now, r => some { r with deleting := true, deletingAt := some now }
  | unclaimDelete, r => some { r with deleting := false, deletingAt := none }
  | claimReap, r => some { r with reaping := true }
  | unclaimReap, r => some { r with reaping := false }
  | repoint p, r => some (p.apply r)

def apply (e : RefEdit) (r : Ref) : Option Ref := (e.edit r).map Ref.stored

end RefEdit

inductive RefOp where
  | create (r : Ref)
  | edit (e : RefEdit)
  | delete
  deriving DecidableEq

inductive RefOp.Kind where
  | create
  | acquire
  | renew
  | release
  | flush
  | checkpoint
  | touch
  | protect
  | prune
  | claimDelete
  | unclaimDelete
  | claimReap
  | unclaimReap
  | repoint
  | delete
  deriving DecidableEq, Repr

def RefEdit.kind : RefEdit → RefOp.Kind
  | acquire .. => .acquire
  | renew .. => .renew
  | release .. | releaseByHolder .. => .release
  | flush _ => .flush
  | checkpoint _ => .checkpoint
  | touch .. => .touch
  | protect _ => .protect
  | prune _ => .prune
  | claimDelete _ => .claimDelete
  | unclaimDelete => .unclaimDelete
  | claimReap => .claimReap
  | unclaimReap => .unclaimReap
  | repoint _ => .repoint

def RefOp.kind : RefOp → Kind
  | create _ => .create
  | edit e => e.kind
  | delete => .delete

def RefOp.Kind.destroys : Kind → Prop
  | claimDelete | unclaimDelete | delete => True
  | _ => False

def Ref.unclaimed (r : Ref) : Bool := !r.reaping && !r.deleting && r.deletingAt.isNone

/-- A new branch starts its lineage's first generation, with no writer and no claim. -/
def RefOp.apply : RefOp → Option Ref → Option (Option Ref)
  | create r, none =>
    if r.epoch = 1 ∧ r.leaseHolder = none ∧ r.unclaimed then some (some r.stored) else none
  | create _, some _ => none
  | edit _, none => none
  | edit e, some r => (e.apply r).map some
  | delete, _ => some none

/-! ## What a write changes -/

namespace Ref

@[simp] theorem stored_lineage (r : Ref) : r.stored.lineage = r.lineage := by
  unfold stored
  split <;> rfl

@[simp] theorem stored_epoch (r : Ref) : r.stored.epoch = r.epoch := by
  unfold stored
  split <;> rfl

@[simp] theorem stored_leaseHolder (r : Ref) : r.stored.leaseHolder = r.leaseHolder := by
  unfold stored
  split <;> rfl

@[simp] theorem stored_headTXID (r : Ref) : r.stored.headTXID = r.headTXID := by
  unfold stored
  split <;> rfl

@[simp] theorem stored_checkpoints (r : Ref) : r.stored.checkpoints = r.checkpoints := by
  unfold stored
  split <;> rfl

@[simp] theorem stored_base (r : Ref) : r.stored.base = r.base := by
  unfold stored
  split <;> rfl

theorem stored_idem (r : Ref) : r.stored.stored = r.stored := by
  unfold stored
  split <;> simp_all

theorem stored_eq_self : r.stored = r ↔ (r.headEpoch = 0 → r.epoch = 0) := by
  unfold stored
  split
  · rename_i h0
    exact ⟨fun h _ => (congrArg headEpoch h).trans h0, fun h =>
      congrArg (fun e => { r with headEpoch := e }) ((h h0).trans h0.symm)⟩
  · rename_i h0
    exact ⟨fun _ h => absurd h h0, fun _ => rfl⟩

/-- `r'` is a later record of the same lineage: the epoch and the head have not gone
back, and a holder is either the one before or that of a new generation. -/
structure Follows (r r' : Ref) : Prop where
  lineage : r'.lineage = r.lineage
  epoch : r.epoch ≤ r'.epoch
  head : r.headTXID ≤ r'.headTXID
  holder : ∀ h, r'.leaseHolder = some h →
    r.epoch < r'.epoch ∨ r'.epoch = r.epoch ∧ r.leaseHolder = some h

end Ref

theorem HeadCommit.setHead_fields (c : HeadCommit) (r : Ref) :
    (c.setHead r).lineage = r.lineage ∧ (c.setHead r).epoch = r.epoch ∧
      (c.setHead r).headTXID = c.txid ∧ (c.setHead r).leaseHolder = r.leaseHolder := by
  unfold setHead
  cases c.name <;> exact ⟨rfl, rfl, rfl, rfl⟩

def RefOp.names : RefOp → Option Lineage
  | .create r => some r.lineage
  | .edit (.repoint p) => some p.lineage
  | _ => none

def RefOp.head : RefOp → Option HeadCommit
  | .edit (.flush c) | .edit (.checkpoint c) => some c
  | _ => none

/-- Ref writes that neither move the head nor give the branch a lineage. -/
def RefOp.plain : RefOp → Prop
  | .create _ | .edit (.flush _) | .edit (.checkpoint _) | .edit (.repoint _) => False
  | _ => True

variable {op : RefOp}

theorem RefOp.plain_head (h : op.plain) : op.head = none := by
  cases op with
  | edit e => cases e <;> first | rfl | exact h.elim
  | _ => rfl

theorem RefOp.names_head {l : Lineage} (h : op.names = some l) : op.head = none := by
  cases op with
  | edit e => cases e <;> first | rfl | cases h
  | _ => rfl

variable {c : HeadCommit}

theorem RefOp.head_names (h : op.head = some c) : op.names = none := by
  cases op with
  | edit e => cases e <;> first | rfl | cases h
  | _ => cases h

theorem RefOp.plain_or (op : RefOp) :
    op.plain ∨ (∃ c, op.head = some c) ∨ ∃ l, op.names = some l := by
  cases op with
  | create r => exact .inr (.inr ⟨_, rfl⟩)
  | delete => exact .inl trivial
  | edit e =>
    cases e with
    | flush c | checkpoint c => exact .inr (.inl ⟨_, rfl⟩)
    | repoint p => exact .inr (.inr ⟨_, rfl⟩)
    | _ => exact .inl trivial

variable {e : RefEdit}

theorem RefEdit.follows (hnames : RefOp.names (.edit e) = none)
    (h : e.edit r = some r') : r.Follows r' := by
  cases e with
  | acquire holder ttl now =>
    simp only [edit] at h
    split at h
    · cases h
    cases h
    refine ⟨rfl, ?_, le_rfl, fun h hh => ?_⟩
    · simp only [Ref.acquireLease]
      split <;> omega
    · obtain rfl : holder = h := by simpa [Ref.acquireLease] using hh
      simp only [Ref.acquireLease]
      split
      · exact .inr ⟨rfl, by simp_all⟩
      · exact .inl (by omega)
  | renew lease ttl now =>
    simp only [edit] at h
    split at h
    · cases h
    cases h
    exact ⟨rfl, le_rfl, le_rfl, fun h hh => .inr ⟨rfl, hh⟩⟩
  | release lease now =>
    simp only [edit] at h
    split at h
    · cases h
    cases h
    exact ⟨rfl, le_rfl, le_rfl, fun h hh => by simp [Ref.clearLease, Ref.touch] at hh⟩
  | releaseByHolder holder now =>
    simp only [edit] at h
    split at h
    · cases h
    cases h
    exact ⟨rfl, le_rfl, le_rfl, fun h hh => by simp [Ref.clearLease, Ref.touch] at hh⟩
  | flush c =>
    simp only [edit] at h
    split at h
    · rename_i hours
      cases h
      obtain ⟨h1, h2, h3, h4⟩ := c.setHead_fields r
      simp only [HeadCommit.ours, Bool.and_eq_true, decide_eq_true_eq] at hours
      simp only [HeadCommit.flushed, Ref.touch]
      exact ⟨h1, h2.ge, by simp only [h3]; omega, fun h hh => .inr ⟨h2, by rw [← h4]; exact hh⟩⟩
    · cases h
  | checkpoint c =>
    simp only [edit] at h
    split at h
    · rename_i hours
      cases h
      obtain ⟨h1, h2, h3, h4⟩ := c.setHead_fields r
      simp only [HeadCommit.ours, Bool.and_eq_true, decide_eq_true_eq] at hours
      simp only [HeadCommit.advance, Ref.touch]
      exact ⟨h1, h2.ge, by simp only [h3]; omega, fun h hh => by simp at hh⟩
    · cases h
  | touch ttl now =>
    simp only [edit] at h
    split at h
    · cases h
    cases h
    simp only [Ref.setTTL, Ref.touch]
    split <;> exact ⟨rfl, le_rfl, le_rfl, fun h hh => .inr ⟨rfl, hh⟩⟩
  | prune opts =>
    simp only [edit] at h
    split at h
    · cases h
    obtain ⟨drop, -, rfl⟩ := Option.map_eq_some_iff.mp h
    exact ⟨rfl, le_rfl, le_rfl, fun h hh => .inr ⟨rfl, hh⟩⟩
  | protect on =>
    simp only [edit] at h
    split at h
    · cases h
    cases h
    exact ⟨rfl, le_rfl, le_rfl, fun h hh => .inr ⟨rfl, hh⟩⟩
  | claimDelete _ | unclaimDelete | claimReap | unclaimReap =>
    cases h
    exact ⟨rfl, le_rfl, le_rfl, fun h hh => .inr ⟨rfl, hh⟩⟩
  | repoint p => cases hnames

/-- A write of a ref either gives the branch a lineage, with no writer yet, or makes
a later record of the lineage it has. -/
theorem RefOp.apply_cases (h : op.apply before = some (some r')) :
    (∃ l, op.names = some l ∧ r'.lineage = l ∧ r'.epoch = 1 ∧ r'.leaseHolder = none) ∨
      ∃ r, before = some r ∧ op.names = none ∧ r.Follows r' := by
  cases op with
  | delete => cases h
  | create r =>
    cases before with
    | some _ => cases h
    | none =>
      simp only [apply] at h
      split at h
      · rename_i hnew
        cases Option.some.inj h
        exact .inl ⟨r.lineage, rfl, by simp, by simpa using hnew.1, by simpa using hnew.2.1⟩
      · cases h
  | edit e =>
    cases before with
    | none => cases h
    | some r =>
      simp only [apply, RefEdit.apply, Option.map_map, Option.map_eq_some_iff,
        Function.comp_apply, Option.some.injEq] at h
      obtain ⟨r₁, hr₁, rfl⟩ := h
      cases hnames : RefOp.names (.edit e) with
      | none =>
        have hf := RefEdit.follows hnames hr₁
        exact .inr ⟨r, rfl, rfl, by simpa using hf.lineage, by simpa using hf.epoch,
          by simpa using hf.head, by simpa using hf.holder⟩
      | some l =>
        cases e with
        | repoint p =>
          cases hr₁
          cases hnames
          exact .inl ⟨p.lineage, rfl, by simp [Repoint.apply, Ref.touch],
            by simp [Repoint.apply, Ref.touch], by simp [Repoint.apply, Ref.touch]⟩
        | _ => cases hnames

/-- What an edit leaves of the claims on a ref and of its time to live. -/
structure RefEdit.Flags (e : RefEdit) (r r' : Ref) : Prop where
  deleting : e.kind ≠ .claimDelete → e.kind ≠ .unclaimDelete →
    r'.deleting = r.deleting ∧ r'.deletingAt = r.deletingAt
  reaping : e.kind ≠ .claimReap → e.kind ≠ .unclaimReap → r'.reaping = r.reaping
  unreap : e.kind = .unclaimReap → r'.reaping = false
  activity : e.kind = .claimDelete ∨ e.kind = .unclaimDelete ∨ e.kind = .claimReap ∨
    e.kind = .unclaimReap →
    r'.ttl = r.ttl ∧ r'.touchedAt = r.touchedAt ∧ r'.leaseExpiry = r.leaseExpiry

theorem RefEdit.flags (h : e.edit r = some r') : e.Flags r r' := by
  -- The edits that change none of these leave two equations, true by computation.
  have hsame (hd : r'.deleting = r.deleting ∧ r'.deletingAt = r.deletingAt)
      (hr : r'.reaping = r.reaping) (hk : ¬ (e.kind = .claimDelete ∨ e.kind = .unclaimDelete ∨
        e.kind = .claimReap ∨ e.kind = .unclaimReap)) : e.Flags r r' :=
    ⟨fun _ _ => hd, fun _ _ => hr, fun hu => absurd (.inr (.inr (.inr hu))) hk,
      fun h => absurd h hk⟩
  cases e with
  | claimDelete _ | unclaimDelete =>
    cases h
    exact ⟨fun hc hu => by simp [kind] at hc hu, fun _ _ => rfl, (fun h => by cases h),
      fun _ => ⟨rfl, rfl, rfl⟩⟩
  | claimReap =>
    cases h
    exact ⟨fun _ _ => ⟨rfl, rfl⟩, fun hc => absurd rfl hc, (fun h => by cases h),
      fun _ => ⟨rfl, rfl, rfl⟩⟩
  | unclaimReap =>
    cases h
    exact ⟨fun _ _ => ⟨rfl, rfl⟩, fun _ hu => absurd rfl hu, fun _ => rfl, fun _ => ⟨rfl, rfl, rfl⟩⟩
  | repoint p =>
    cases h
    exact hsame ⟨rfl, rfl⟩ rfl (by simp [kind])
  | prune opts =>
    simp only [edit] at h
    split at h
    · cases h
    · obtain ⟨drop, -, rfl⟩ := Option.map_eq_some_iff.mp h
      exact hsame ⟨rfl, rfl⟩ rfl (by simp [kind])
  | flush c =>
    simp only [edit] at h
    split at h
    · cases h
      refine hsame ?_ ?_ (by simp [kind]) <;> simp only [HeadCommit.flushed, HeadCommit.setHead] <;>
        split <;> first | rfl | exact ⟨rfl, rfl⟩
    · cases h
  | checkpoint c =>
    simp only [edit] at h
    split at h
    · cases h
      refine hsame ?_ ?_ (by simp [kind]) <;> simp only [HeadCommit.advance, HeadCommit.setHead] <;>
        split <;> first | rfl | exact ⟨rfl, rfl⟩
    · cases h
  | touch ttl now =>
    simp only [edit] at h
    split at h
    · cases h
    · cases h
      refine hsame ?_ ?_ (by simp [kind]) <;> simp only [Ref.setTTL] <;>
        split <;> first | rfl | exact ⟨rfl, rfl⟩
  | _ =>
    simp only [edit] at h
    split at h
    · cases h
    · cases h
      exact hsame ⟨rfl, rfl⟩ rfl (by simp [kind])

theorem RefOp.apply_flags (h : op.apply (some r) = some (some r')) :
    ∃ e, op = .edit e ∧ e.Flags r r' := by
  cases op with
  | create _ | delete => cases h
  | edit e =>
    obtain ⟨r₁, hr₁, rfl⟩ : ∃ r₁, e.edit r = some r₁ ∧ r₁.stored = r' := by
      simpa [RefOp.apply, RefEdit.apply] using h
    refine ⟨e, rfl, ?_⟩
    have hf := RefEdit.flags hr₁
    unfold Ref.stored
    split
    · exact ⟨hf.deleting, hf.reaping, hf.unreap, hf.activity⟩
    · exact hf

theorem RefOp.apply_stored (h : op.apply before = some (some r')) : r'.stored = r' := by
  cases op with
  | delete => cases h
  | create r =>
    cases before with
    | some _ => cases h
    | none =>
      simp only [apply] at h
      split at h
      · cases Option.some.inj h
        exact r.stored_idem
      · cases h
  | edit e =>
    cases before with
    | none => cases h
    | some r =>
      simp only [apply, RefEdit.apply, Option.map_map, Option.map_eq_some_iff,
        Function.comp_apply, Option.some.injEq] at h
      obtain ⟨r₁, -, rfl⟩ := h
      exact r₁.stored_idem

theorem RefEdit.holder_of_edit {h : Holder} (he : e.edit r = some r')
    (hh : r'.leaseHolder = some h) :
    (∃ ttl now, e = .acquire h ttl now) ∨ r.leaseHolder = some h := by
  cases e with
  | acquire holder ttl now =>
    simp only [edit] at he
    split at he
    · cases he
    cases he
    obtain rfl : holder = h := by simpa [Ref.acquireLease] using hh
    exact .inl ⟨ttl, now, rfl⟩
  | renew _ _ _ | protect _ =>
    simp only [edit] at he
    split at he
    · cases he
    cases he
    exact .inr hh
  | release _ _ | releaseByHolder _ _ =>
    simp only [edit] at he
    split at he
    · cases he
    cases he
    simp [Ref.clearLease, Ref.touch] at hh
  | flush c =>
    simp only [edit] at he
    split at he
    · cases he
      exact .inr (by rw [← (c.setHead_fields r).2.2.2]; exact hh)
    · cases he
  | checkpoint c =>
    simp only [edit] at he
    split at he
    · cases he
      simp [HeadCommit.advance, Ref.touch] at hh
    · cases he
  | touch ttl now =>
    simp only [edit] at he
    split at he
    · cases he
    cases he
    simp only [Ref.setTTL, Ref.touch] at hh
    split at hh <;> exact .inr hh
  | prune opts =>
    simp only [edit] at he
    split at he
    · cases he
    obtain ⟨names, -, rfl⟩ := Option.map_eq_some_iff.mp he
    exact .inr hh
  | repoint p =>
    cases he
    simp [Repoint.apply, Ref.touch] at hh
  | claimDelete _ | unclaimDelete | claimReap | unclaimReap =>
    cases he
    exact .inr hh

theorem RefOp.holder_of_apply {h : Holder} (happly : op.apply before = some (some r'))
    (hh : r'.leaseHolder = some h) :
    (∃ ttl now, op = .edit (.acquire h ttl now)) ∨ ∃ r, before = some r ∧
    r.leaseHolder = some h := by
  cases op with
  | delete => cases happly
  | create r =>
    obtain ⟨l, hl, -, -, hnone⟩ | ⟨r, -, hnames, -⟩ := apply_cases happly
    · rw [hnone] at hh
      cases hh
    · cases hnames
  | edit e =>
    cases before with
    | none => cases happly
    | some r =>
      simp only [apply, RefEdit.apply, Option.map_map, Option.map_eq_some_iff,
        Function.comp_apply, Option.some.injEq] at happly
      obtain ⟨r₁, hr₁, rfl⟩ := happly
      rw [Ref.stored_leaseHolder] at hh
      obtain ⟨ttl, now, rfl⟩ | hr := RefEdit.holder_of_edit hr₁ hh
      · exact .inl ⟨ttl, now, rfl⟩
      · exact .inr ⟨r, rfl, hr⟩

/-! ### Which txids a write names -/

theorem RefOp.edit_apply {after : Option Ref} (h : (RefOp.edit e).apply (some r) = some after) :
    ∃ r', e.edit r = some r' ∧ after = some r'.stored := by
  simp only [apply, RefEdit.apply, Option.map_map, Option.map_eq_some_iff, Function.comp_apply] at h
  obtain ⟨r', hr', rfl⟩ := h
  exact ⟨r', hr', rfl⟩

theorem Ref.txids_stored (r : Ref) : r.stored.txids = r.txids := by simp [txids]

variable {t : Nat}

theorem dropCheckpoints_txids {names : List String}
    (h : t ∈ (dropCheckpoints r names).txids) : t ∈ r.txids := by
  rw [Ref.mem_txids] at h ⊢
  refine h.imp id ?_
  rintro ⟨name, cp, hcp, rfl⟩
  simp only [dropCheckpoints, lookup_keepIf, Option.filter_eq_some_iff] at hcp
  exact ⟨name, cp, hcp.1, rfl⟩

/-- A plain write keeps the lineage and the head, and names no new txid. -/
theorem RefOp.plain_frame (hp : op.plain) (h : op.apply before = some (some r')) :
    ∃ r, before = some r ∧ r'.lineage = r.lineage ∧ r'.headTXID = r.headTXID ∧
      ∀ t ∈ r'.txids, t ∈ r.txids := by
  cases op with
  | create _ => exact hp.elim
  | delete => cases h
  | edit e =>
    cases before with
    | none => cases h
    | some r =>
      obtain ⟨r₁, hr₁, hr'⟩ := RefOp.edit_apply h
      cases hr'
      refine ⟨r, rfl, ?_⟩
      simp only [Ref.stored_lineage, Ref.stored_headTXID, Ref.txids_stored]
      cases e with
      | prune opts =>
        simp only [RefEdit.edit] at hr₁
        split at hr₁
        · cases hr₁
        obtain ⟨drop, -, rfl⟩ := Option.map_eq_some_iff.mp hr₁
        exact ⟨rfl, rfl, fun t ht => dropCheckpoints_txids ht⟩
      | touch ttl now =>
        simp only [RefEdit.edit, Ref.setTTL, Ref.touch] at hr₁
        split at hr₁
        · cases hr₁
        split at hr₁ <;> obtain rfl := Option.some.inj hr₁ <;> exact ⟨rfl, rfl, fun t ht => ht⟩
      | flush _ | checkpoint _ | repoint _ => exact hp.elim
      | acquire _ _ _ | renew _ _ _ | release _ _ | releaseByHolder _ _ | protect _ =>
        simp only [RefEdit.edit] at hr₁
        split at hr₁
        · cases hr₁
        · cases hr₁
          exact ⟨rfl, rfl, fun t ht => ht⟩
      | claimDelete _ | unclaimDelete | claimReap | unclaimReap =>
        cases hr₁
        exact ⟨rfl, rfl, fun t ht => ht⟩

theorem HeadCommit.setHead_txids (h : t ∈ (c.setHead r).txids) : t = c.txid ∨ t ∈ r.txids := by
  rw [Ref.mem_txids] at h
  rw [Ref.mem_txids]
  rcases h with h | ⟨name, cp, hcp, rfl⟩
  · exact .inl (h.trans (c.setHead_fields r).2.2.1)
  unfold setHead at hcp
  cases hname : c.name with
  | none =>
    simp only [hname] at hcp
    exact .inr (.inr ⟨name, cp, hcp, rfl⟩)
  | some n =>
    simp only [hname, Ref.setCheckpoint] at hcp
    by_cases hn : name = n
    · subst hn
      rw [AList.lookup_insert] at hcp
      cases hcp
      exact .inl rfl
    · rw [AList.lookup_insert_ne hn] at hcp
      exact .inr (.inr ⟨name, cp, hcp, rfl⟩)

/-- A head move is made on the ref its premise describes, and names its own txid
besides those of that ref. -/
theorem RefOp.head_frame (hc : op.head = some c) (h : op.apply before = some (some r')) :
    ∃ r, before = some r ∧ c.ours r ∧ r'.lineage = r.lineage ∧ r'.epoch = r.epoch ∧
      r'.headTXID = c.txid ∧ ∀ t ∈ r'.txids, t = c.txid ∨ t ∈ r.txids := by
  cases op with
  | create _ | delete => cases hc
  | edit e =>
    cases before with
    | none => cases h
    | some r =>
      obtain ⟨r₁, hr₁, hr'⟩ := RefOp.edit_apply h
      cases hr'
      obtain ⟨h1, h2, h3, -⟩ := c.setHead_fields r
      refine ⟨r, rfl, ?_⟩
      simp only [Ref.stored_lineage, Ref.stored_epoch, Ref.stored_headTXID, Ref.txids_stored]
      cases e with
      | flush c' =>
        cases hc
        simp only [RefEdit.edit] at hr₁
        split at hr₁
        · cases hr₁
          exact ⟨‹_›, h1, h2, h3, fun t ht => HeadCommit.setHead_txids ht⟩
        · cases hr₁
      | checkpoint c' =>
        cases hc
        simp only [RefEdit.edit] at hr₁
        split at hr₁
        · rename_i hours
          simp only [Bool.and_eq_true] at hours
          cases hr₁
          exact ⟨hours.1.1, h1, h2, h3, fun t ht => HeadCommit.setHead_txids ht⟩
        · cases hr₁
      | _ => cases hc

/-- The base changes with the lineage only. -/
theorem RefOp.base_frame (hn : op.names = none) (h : op.apply (some r) = some (some r')) :
    r'.base = r.base := by
  cases op with
  | create _ | delete => cases h
  | edit e =>
    obtain ⟨r₁, hr₁, hr'⟩ := RefOp.edit_apply h
    cases hr'
    rw [Ref.stored_base]
    cases e with
    | prune opts =>
      simp only [RefEdit.edit] at hr₁
      split at hr₁
      · cases hr₁
      obtain ⟨drop, -, rfl⟩ := Option.map_eq_some_iff.mp hr₁
      rfl
    | touch ttl now =>
      simp only [RefEdit.edit, Ref.setTTL, Ref.touch] at hr₁
      split at hr₁
      · cases hr₁
      split at hr₁ <;> obtain rfl := Option.some.inj hr₁ <;> rfl
    | repoint _ => cases hn
    | flush c | checkpoint c =>
      simp only [RefEdit.edit] at hr₁
      split at hr₁
      · cases hr₁
        simp only [HeadCommit.flushed, HeadCommit.advance, HeadCommit.setHead, Ref.touch]
        cases c.name <;> rfl
      · cases hr₁
    | acquire _ _ _ | renew _ _ _ | release _ _ | releaseByHolder _ _ | protect _ =>
      simp only [RefEdit.edit] at hr₁
      split at hr₁
      · cases hr₁
      · cases hr₁
        rfl
    | claimDelete _ | unclaimDelete | claimReap | unclaimReap =>
      cases hr₁
      rfl

/-! ### Which heads and checkpoints a write leaves -/

/-- A head or a checkpoint of the ref: its txid, and the epoch it was written under. -/
def Ref.Point (r : Ref) (t e : Nat) : Prop :=
  t = r.headTXID ∧ e = r.headEpoch ∨
    ∃ name cp, r.checkpoints.lookup name = some cp ∧ cp.txid = t ∧ cp.epoch = e

theorem Ref.Point.mem_txids {e : Nat} (h : r.Point t e) : t ∈ r.txids := by
  rw [Ref.mem_txids]
  refine h.imp (·.1) ?_
  rintro ⟨name, cp, hcp, ht, -⟩
  exact ⟨name, cp, hcp, ht⟩

/-- A plain edit keeps the head, and adds and changes no checkpoint. -/
theorem RefEdit.plain_point (hp : RefOp.plain (.edit e)) (h : e.edit r = some r') :
    r'.headTXID = r.headTXID ∧ r'.headEpoch = r.headEpoch ∧
      ∀ name cp, r'.checkpoints.lookup name = some cp → r.checkpoints.lookup name = some cp := by
  cases e with
  | prune opts =>
    simp only [edit] at h
    split at h
    · cases h
    obtain ⟨drop, -, rfl⟩ := Option.map_eq_some_iff.mp h
    refine ⟨rfl, rfl, fun name cp hcp => ?_⟩
    simp only [dropCheckpoints, lookup_keepIf, Option.filter_eq_some_iff] at hcp
    exact hcp.1
  | touch ttl now =>
    simp only [edit, Ref.setTTL, Ref.touch] at h
    split at h
    · cases h
    split at h <;> obtain rfl := Option.some.inj h <;> exact ⟨rfl, rfl, fun _ _ hcp => hcp⟩
  | flush _ | checkpoint _ | repoint _ => exact hp.elim
  | acquire _ _ _ | renew _ _ _ | release _ _ | releaseByHolder _ _ | protect _ =>
    simp only [edit] at h
    split at h
    · cases h
    · cases h
      exact ⟨rfl, rfl, fun _ _ hcp => hcp⟩
  | claimDelete _ | unclaimDelete | claimReap | unclaimReap =>
    cases h
    exact ⟨rfl, rfl, fun _ _ hcp => hcp⟩

theorem RefOp.plain_point {e : Nat} (hp : op.plain) (hepoch : r.headEpoch ≠ 0)
    (h : op.apply (some r) = some (some r')) (ht : r'.Point t e) : r.Point t e := by
  cases op with
  | create _ | delete => cases h
  | edit ed =>
    obtain ⟨r₁, hr₁, hr'⟩ := RefOp.edit_apply h
    obtain ⟨hhead, hep, hcps⟩ := RefEdit.plain_point hp hr₁
    have hstored : r₁.stored = r₁ := by
      unfold Ref.stored
      rw [if_neg (hep ▸ hepoch)]
    obtain rfl : r' = r₁ := by rw [← hstored]; exact Option.some.inj hr'
    rcases ht with ⟨rfl, rfl⟩ | ⟨name, cp, hcp, hx⟩
    · exact .inl ⟨hhead, hep⟩
    · exact .inr ⟨name, cp, hcps name cp hcp, hx⟩

theorem HeadCommit.setHead_point {e : Nat} (h : (c.setHead r).Point t e) :
    t = c.txid ∧ e = c.epoch ∨ r.Point t e := by
  rcases h with ⟨rfl, rfl⟩ | ⟨name, cp, hcp, rfl, rfl⟩
  · refine .inl ⟨(c.setHead_fields r).2.2.1, ?_⟩
    unfold setHead
    cases c.name <;> rfl
  · unfold setHead at hcp
    cases hname : c.name with
    | none =>
      simp only [hname] at hcp
      exact .inr (.inr ⟨name, cp, hcp, rfl, rfl⟩)
    | some n =>
      simp only [hname, Ref.setCheckpoint] at hcp
      by_cases hn : name = n
      · subst hn
        rw [AList.lookup_insert] at hcp
        cases hcp
        exact .inl ⟨rfl, rfl⟩
      · rw [AList.lookup_insert_ne hn] at hcp
        exact .inr (.inr ⟨name, cp, hcp, rfl, rfl⟩)

theorem HeadCommit.ours_iff :
    c.ours r ↔ r.leaseHolder = some c.holder ∧ r.epoch = c.epoch ∧ r.lineage = c.lineage ∧
      r.headTXID + 1 = c.txid := by
  simp [ours, and_assoc]

/-- A head move under a lease leaves its own head, and perhaps its own checkpoint,
besides the checkpoints there were. -/
theorem RefOp.head_point {e : Nat} (hc : op.head = some c) (hepoch : c.epoch ≠ 0)
    (h : op.apply (some r) = some (some r')) (ht : r'.Point t e) :
    t = c.txid ∧ e = c.epoch ∨ r.Point t e := by
  have hstored (r₁ : Ref) (h₁ : r₁.headEpoch = c.epoch) (hp : r₁.stored.Point t e) :
      r₁.Point t e := by
    unfold Ref.stored at hp
    rwa [if_neg (h₁ ▸ hepoch)] at hp
  have hset : (c.setHead r).headEpoch = c.epoch := by
    unfold HeadCommit.setHead
    cases c.name <;> rfl
  cases op with
  | create _ | delete => cases hc
  | edit ed =>
    obtain ⟨r₁, hr₁, hr'⟩ := RefOp.edit_apply h
    obtain rfl := Option.some.inj hr'
    cases ed with
    | flush c' =>
      obtain rfl := Option.some.inj hc
      simp only [RefEdit.edit] at hr₁
      split at hr₁
      · obtain rfl := Option.some.inj hr₁
        exact HeadCommit.setHead_point (hstored (c'.flushed r) hset ht)
      · cases hr₁
    | checkpoint c' =>
      obtain rfl := Option.some.inj hc
      simp only [RefEdit.edit] at hr₁
      split at hr₁
      · obtain rfl := Option.some.inj hr₁
        exact HeadCommit.setHead_point (hstored (c'.advance r) hset ht)
      · cases hr₁
    | _ => cases hc

end Offshoot
