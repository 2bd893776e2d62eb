import Offshoot.System.Effects

/-!
# Delete claims

A destroy stamps its claim, writes it on the ref, and removes the ref under it.
While a claim is on a ref no acquire of the branch takes effect.  Where the backend
deletes outright, the claim has to be there still when the ref is removed, also by a
delete that lands late, and whether it is depends on who may take it off.
-/

namespace Offshoot

open Conc Maps List

variable {env : Env} {w w' : World} {i j : Nat} {b : BranchId}
variable {op : RefOp}

/-- A destroy of `b` by thread `i` read the ref `r₀` and has stamped its claim `t`. -/
def World.StampedFor (w : World) (i : Nat) (b : BranchId) (t : Nat) (r₀ : Ref) : Prop :=
  Event.stamped i b t r₀ ∈ w.log

def World.Stamped (w : World) (i : Nat) (b : BranchId) (t : Nat) : Prop :=
  ∃ r₀, w.StampedFor i b t r₀

variable {t : Nat}

theorem World.Stamped.mono (h : w.Stamped i b t) (hlog : w.log ⊆ w'.log) : w'.Stamped i b t := by
  obtain ⟨r₀, hst⟩ := h
  exact ⟨r₀, hlog hst⟩

def World.Claim (w : World) (b : BranchId) (t : Nat) : Prop :=
  ∃ r, w.refs.lookup b = some r ∧ r.deleting = true ∧ r.deletingAt = some t

def Event.acquires (b : BranchId) : Event → Prop
  | .wrote _ b' op _ _ => b' = b ∧ op.kind = .acquire
  | _ => False

/-- Thread `j` claimed `b` with stamp `t`, and no lease has been granted on it since. -/
def World.HeldOff (w : World) (j : Nat) (b : BranchId) (t : Nat) : Prop :=
  ∃ news old before after, w.log = news ++ .wrote j b (.edit (.claimDelete t)) before after :: old ∧
    ∀ e ∈ news, ¬ e.acquires b

/-- The ref of `b` is `r₀`, but for the claim stamped `t` and the lease's expiry; it is
not protected and its lease is not live. -/
def World.Spared (w : World) (b : BranchId) (t : Nat) (r₀ : Ref) : Prop :=
  ∃ r, w.refs.lookup b = some r ∧ w.Version b r₀ ∧ r.isProtected = false ∧
    leaseLive r w.clock = false ∧
    r = { r₀ with deleting := true, deletingAt := some t, leaseExpiry := r.leaseExpiry }

/-! ## Claims and the other edits -/

variable {r r' : Ref}

theorem RefOp.apply_claim (h : op.apply (some r) = some (some r')) (hc : op.kind ≠ .claimDelete)
    (hu : op.kind ≠ .unclaimDelete) : r'.deleting = r.deleting ∧ r'.deletingAt = r.deletingAt := by
  obtain ⟨e, rfl, hf⟩ := RefOp.apply_flags h
  exact hf.deleting hc hu

theorem RefOp.apply_acquire {after : Option Ref} (h : op.apply (some r) = some after)
    (hk : op.kind = .acquire) : r.deleting = false := by
  cases op with
  | create _ | delete => cases hk
  | edit e =>
    cases e with
    | acquire holder ttl now =>
      by_contra hd
      simp [RefOp.apply, RefEdit.apply, RefEdit.edit, hd] at h
    | _ => cases hk

theorem RefOp.apply_new (h : op.apply none = some (some r)) : r.unclaimed = true := by
  cases op with
  | edit _ | delete => cases h
  | create r₀ =>
    simp only [RefOp.apply] at h
    split at h
    · rename_i hnew
      cases Option.some.inj h
      unfold Ref.stored
      split <;> exact hnew.2.2
    · cases h

variable {before : Option Ref}

theorem RefOp.apply_gone (h : op.apply before = some none) : op = .delete := by
  cases op with
  | delete => rfl
  | create r =>
    cases before with
    | some _ => cases h
    | none =>
      simp only [RefOp.apply] at h
      split at h <;> cases h
  | edit e =>
    cases before with
    | none => cases h
    | some r => simp [RefOp.apply] at h

/-! ## What is asked of the writes -/

/-- On a backend that deletes outright, the claim stands until it is stale. -/
def Under (env : Env) (b : BranchId) (t : Nat) (w : World) : Prop :=
  env.conditionalDelete = false → w.clock < t + staleDeletingClaimAfter → w.Claim b t

/-- Thread `j` may remove `b`: it has claimed it, and where deletes are conditional the
ref is the one it read and claimed. -/
def Removable (env : Env) (w : World) (j : Nat) (b : BranchId) : Prop :=
  ∃ t r₀, w.StampedFor j b t r₀ ∧ Under env b t w ∧ (env.conditionalDelete = true → w.Spared b t r₀)

def OwnClaim (w : World) (j : Nat) (b : BranchId) (r : Option Ref) : Prop :=
  ∃ ref t, r = some ref ∧ ref.deletingAt = some t ∧ w.Stamped j b t

theorem OwnClaim.mono {r : Option Ref} (h : OwnClaim w j b r) (hlog : w.log ⊆ w'.log) :
    OwnClaim w' j b r := by
  obtain ⟨ref, t, hr, ht, hst⟩ := h
  exact ⟨ref, t, hr, ht, hst.mono hlog⟩

/-- A claim is stamped by its thread and replaces no claim that is not stale; a
removal is made under a claim of its thread.  With `strict`, a claim is taken off
only by the thread that stamped it. -/
def ClaimOK (env : Env) (strict : Prop) (w : World) (j : Nat) (b : BranchId)
    (before : Option Ref) : RefOp → Prop
  | .edit (.claimDelete t) => w.Stamped j b t ∧ t ≤ w.clock ∧
      ∀ r t', before = some r → r.deleting = true → r.deletingAt = some t' →
        t' + staleDeletingClaimAfter ≤ w.clock
  | .edit .unclaimDelete => strict → OwnClaim w j b before
  | .edit .claimReap => False
  | .delete => Removable env w j b
  | _ => True

/-- What a thread sees to itself: it sends no delete while one it sent is to land. -/
def ClaimBy (env : Env) (strict : Prop) (w : World) (j : Nat) (b : BranchId)
    (before : Option Ref) (op : RefOp) : Prop :=
  ClaimOK env strict w j b before op ∧ (op = .delete → Pending.delete j b ∉ w.pending)

def Careful (env : Env) (strict : Prop) (i : Nat) (w w' : World) : Prop :=
  ∃ a : Act, a.ok env i w ∧ a.vouched (ClaimBy env strict) i w ∧ a.run i w = w'

variable {s : Prop}

theorem ClaimOK.weaken {s' : Prop} (hs : s' → s)
    (h : ClaimOK env s w j b before op) : ClaimOK env s' w j b before op := by
  cases op with
  | create _ => trivial
  | delete => exact h
  | edit e =>
    cases e with
    | unclaimDelete => exact fun h' => h (hs h')
    | _ => exact h

theorem Careful.weaken {s' : Prop} (hs : s' → s) (h : Careful env s i w w') :
    Careful env s' i w w' := by
  obtain ⟨a, hok, hv, hrun⟩ := h
  refine ⟨a, hok, ?_, hrun⟩
  exact hv.mono fun h => ⟨h.1.weaken hs, h.2⟩

theorem ClaimOK.mono (hop : op ≠ .delete) (hlog : w.log ⊆ w'.log) (hclock : w.clock ≤ w'.clock)
    (h : ClaimOK env s w j b before op) : ClaimOK env s w' j b before op := by
  cases op with
  | create _ => trivial
  | delete => exact absurd rfl hop
  | edit e =>
    cases e with
    | claimDelete t =>
      exact ⟨h.1.mono hlog, h.2.1.trans hclock,
        fun r t' hr hd ht => (h.2.2 r t' hr hd ht).trans hclock⟩
    | unclaimDelete => exact fun hs => (h hs).mono hlog
    | _ => exact h

/-! ## The invariant -/

structure ClaimInv (env : Env) (w : World) : Prop where
  vouched : Vouched (ClaimOK env False) w
  recent : ∀ {b r t}, w.refs.lookup b = some r → r.deletingAt = some t → t ≤ w.clock
  standing : ∀ {b t}, w.Claim b t → ∃ j, w.Stamped j b t ∧ w.HeldOff j b t
  reaping : ∀ {b r}, w.refs.lookup b = some r → r.reaping = false
  late : ∀ {j b}, Pending.delete j b ∈ w.pending →
    env.conditionalDelete = false ∧ Removable env w j b
  once : ∀ j b, w.pending.count (.delete j b) ≤ 1

theorem ClaimInv.empty : ClaimInv env .empty where
  vouched _ _ _ _ _ h := by simp [World.empty] at h
  recent h := by simp [World.empty] at h
  standing h := by simp [World.Claim, World.empty] at h
  reaping h := by simp [World.empty] at h
  late h := by simp [World.empty] at h
  once := by simp [World.empty]

theorem World.HeldOff.extend (news : List Event) (h : w.HeldOff j b t)
    (hlog : w'.log = news ++ w.log) (hnews : ∀ e ∈ news, ¬ e.acquires b) : w'.HeldOff j b t := by
  obtain ⟨news', old, before, after, heq, hne⟩ := h
  refine ⟨news ++ news', old, before, after, by rw [hlog, heq, append_assoc], fun e he => ?_⟩
  rcases mem_append.mp he with he | he
  · exact hnews e he
  · exact hne e he

theorem RefOp.apply_reaping (h : op.apply (some r) = some (some r')) (hk : op.kind ≠ .claimReap)
    (hr : r.reaping = false) : r'.reaping = false := by
  obtain ⟨e, rfl, hf⟩ := RefOp.apply_flags h
  by_cases hu : e.kind = .unclaimReap
  · exact hf.unreap hu
  · rw [hf.reaping hk hu]
    exact hr

theorem ClaimInv.wrote (h : ClaimInv env w) (hw : Wrote w w' j b op (some r'))
    (hop : ClaimOK env s w j b (w.refs.lookup b) op) (hclock : w.clock ≤ w'.clock) :
    (∀ t, r'.deletingAt = some t → t ≤ w'.clock) ∧
    (∀ t, r'.deleting = true → r'.deletingAt = some t →
      ∃ j, w'.Stamped j b t ∧ w'.HeldOff j b t) ∧ r'.reaping = false := by
  obtain ⟨news, hlog, hnews⟩ := hw.log
  have hsub : w.log ⊆ w'.log := by
    rw [hlog]
    exact fun e he => mem_append_right _ (mem_cons_of_mem _ he)
  have hquiet : ∀ e ∈ news, ¬ e.acquires b := by
    intro e he
    obtain ⟨_, _, _, _, rfl⟩ := hnews e he
    exact id
  cases hr : w.refs.lookup b with
  | none =>
    have hnew := RefOp.apply_new (hr ▸ hw.apply)
    simp only [Ref.unclaimed, Bool.and_eq_true, Bool.not_eq_true', Option.isNone_iff_eq_none]
      at hnew
    refine ⟨fun t ht => ?_, fun t hd => ?_, hnew.1.1⟩
    · rw [hnew.2] at ht
      cases ht
    · rw [hnew.1.2] at hd
      cases hd
  | some r =>
    have happly : op.apply (some r) = some (some r') := hr ▸ hw.apply
    have hreap : r'.reaping = false := by
      refine RefOp.apply_reaping happly (fun hk => ?_) (h.reaping hr)
      obtain ⟨e, rfl, -⟩ := RefOp.apply_flags happly
      cases e <;> first | exact hop | cases hk
    by_cases hc : op.kind = .claimDelete
    · obtain ⟨t, rfl⟩ : ∃ t, op = .edit (.claimDelete t) := by
        obtain ⟨e, rfl, -⟩ := RefOp.apply_flags happly
        cases e <;> first | exact ⟨_, rfl⟩ | cases hc
      obtain ⟨hst, hle, -⟩ := hop
      have ht : r'.deletingAt = some t := by
        obtain ⟨r₁, hr₁, rfl⟩ : ∃ r₁, RefEdit.edit (.claimDelete t) r = some r₁ ∧
          r₁.stored = r' := by
          simpa [RefOp.apply, RefEdit.apply] using happly
        cases hr₁
        unfold Ref.stored
        split <;> rfl
      refine ⟨fun t' ht' => ?_, fun t' _ ht' => ?_, hreap⟩ <;>
        cases ht.symm.trans ht'
      · exact hle.trans hclock
      · exact ⟨j, hst.mono hsub, news, w.log, _, _, hlog, hquiet⟩
    by_cases hu : op.kind = .unclaimDelete
    · obtain rfl : op = .edit .unclaimDelete := by
        obtain ⟨e, rfl, -⟩ := RefOp.apply_flags happly
        cases e <;> first | rfl | cases hu
      have hd : r'.deleting = false ∧ r'.deletingAt = none := by
        obtain ⟨r₁, hr₁, rfl⟩ : ∃ r₁, RefEdit.edit .unclaimDelete r = some r₁ ∧ r₁.stored = r' := by
          simpa [RefOp.apply, RefEdit.apply] using happly
        cases hr₁
        unfold Ref.stored
        split <;> exact ⟨rfl, rfl⟩
      refine ⟨fun t' ht' => ?_, fun t' hd' => ?_, hreap⟩
      · rw [hd.2] at ht'
        cases ht'
      · rw [hd.1] at hd'
        cases hd'
    obtain ⟨hdel, hat⟩ := RefOp.apply_claim happly hc hu
    refine ⟨fun t ht => (h.recent hr (hat ▸ ht)).trans hclock, fun t hd ht => ?_, hreap⟩
    -- The claim was there before, so the write is no acquire.
    obtain ⟨j', hst, hheld⟩ := h.standing ⟨r, hr, hdel ▸ hd, hat ▸ ht⟩
    have hnot : op.kind ≠ .acquire := fun hk => by
      rw [hdel, RefOp.apply_acquire happly hk] at hd
      cases hd
    refine ⟨j', hst.mono hsub, hheld.extend (news ++ [_]) (by rw [hlog]; simp; rfl) ?_⟩
    intro e he
    rcases mem_append.mp he with he | he
    · exact hquiet e he
    · obtain rfl := mem_singleton.mp he
      exact fun h => hnot h.2

variable {a : Act}

/-- A write that takes effect is one its thread may make. -/
theorem ClaimInv.effects (h : ClaimInv env w) (hrefs : RefsInv env w) (hok : a.ok env i w)
    (hv : a.vouched (ClaimBy env False) i w) :
    Unwritten w (a.run i w) ∨ ∃ j b op after, Wrote w (a.run i w) j b op after ∧
      ClaimOK env False w j b (w.refs.lookup b) op ∧ a.Source i w j b op after :=
  h.vouched.effects hrefs hok (hv.mono (·.1)) fun _ _ hp => (h.late hp).2

/-! ## Who may take a claim off -/

/-- What is assumed of the destroys where the backend deletes outright. -/
structure Prompt (w w' : World) : Prop where
  /-- A removal takes effect before its claim is old enough to be cleared. -/
  delete : ∀ {j b after}, Wrote w w' j b .delete after → ∀ t, w.Stamped j b t →
    w.clock < t + staleDeletingClaimAfter
  /-- A destroy takes its claim off only when no delete it sent is left to land. -/
  unsent : ∀ {j b after}, Wrote w w' j b (.edit .unclaimDelete) after →
    Pending.delete j b ∉ w.pending
  /-- No two destroys of a branch stamp the same time. -/
  stamps : ∀ {i j b t}, w.Stamped i b t → w.Stamped j b t → i = j

/-- A claim that is not old enough is taken off only by the destroy that stamped it. -/
structure Timely (w w' : World) : Prop extends Prompt w w' where
  unclaim : ∀ {j b after r t}, Wrote w w' j b (.edit .unclaimDelete) after →
    w.refs.lookup b = some r → r.deletingAt = some t → w.clock < t + staleDeletingClaimAfter →
    w.Stamped j b t

/-- A claim on the ref stays there, for as long as it is not stale and its own thread
neither takes it off nor removes the ref. -/
theorem ClaimInv.under_run (h : ClaimInv env w) (hrefs : RefsInv env w) (hok : a.ok env i w)
    (hv : a.vouched (ClaimBy env False) i w)
    (htimely : env.conditionalDelete = false → Timely w (a.run i w)) (hst : w.Stamped j b t)
    (hunder : Under env b t w) : Under env b t (a.run i w) ∨
      ∃ op after, Wrote w (a.run i w) j b op after ∧ (op = .delete ∨ op = .edit .unclaimDelete) ∧
        env.conditionalDelete = false ∧ a.Source i w j b op after := by
  refine or_iff_not_imp_right.mpr fun hnot hcond hfresh => ?_
  replace htimely := htimely hcond
  have hfresh : w.clock < t + staleDeletingClaimAfter := a.clock_run.trans_lt hfresh
  obtain ⟨r, hr, hd, ht⟩ := hunder hcond hfresh
  rcases h.effects hrefs hok hv with hun | ⟨j', b', op, after, hw, hop, hsrc⟩
  · exact ⟨r, hun.lookup b ▸ hr, hd, ht⟩
  by_cases hb : b = b'
  swap
  · exact ⟨r, by rw [hw.lookup, if_neg hb, hr], hd, ht⟩
  subst hb
  have happly := hw.apply
  cases after with
  | none =>
    -- Another destroy removes the branch: its claim is on the ref too, so it is this one.
    obtain rfl := RefOp.apply_gone happly
    obtain ⟨t', r₀, hst', hunder', -⟩ := hop
    obtain ⟨r', hr', -, ht'⟩ := hunder' hcond (htimely.delete hw t' ⟨r₀, hst'⟩)
    cases hr.symm.trans hr'
    cases ht.symm.trans ht'
    obtain rfl := htimely.stamps hst ⟨r₀, hst'⟩
    exact absurd ⟨_, _, hw, .inl rfl, hcond, hsrc⟩ hnot
  | some r' =>
    refine ⟨r', by rw [hw.lookup, if_pos rfl], ?_⟩
    rw [hr] at hop happly
    by_cases hc : op.kind = .claimDelete
    · obtain ⟨e, rfl, -⟩ := RefOp.apply_flags happly
      cases e with
      | claimDelete t' =>
        have := hop.2.2 r t rfl hd ht
        omega
      | _ => cases hc
    by_cases hu : op.kind = .unclaimDelete
    · obtain ⟨e, rfl, -⟩ := RefOp.apply_flags happly
      cases e with
      | unclaimDelete =>
        obtain rfl := htimely.stamps hst (htimely.unclaim hw hr ht hfresh)
        exact absurd ⟨_, _, hw, .inr rfl, hcond, hsrc⟩ hnot
      | _ => cases hu
    obtain ⟨hdel, hat⟩ := RefOp.apply_claim happly hc hu
    exact ⟨hdel ▸ hd, hat ▸ ht⟩

/-! ## Deletes left to land -/

/-- A thread that sends a delete has no other to land. -/
theorem Act.vouched.sent_once (hv : a.vouched (ClaimBy env False) i w)
    (hop : a.op = some (b, .delete) ∨ a = .sendDelete b) : Pending.delete i b ∉ w.pending := by
  rcases hop with hop | rfl
  · cases a <;> simp only [Act.op, Option.some.injEq, Prod.mk.injEq, reduceCtorEq, and_false] at hop
      <;> obtain ⟨rfl, rfl⟩ := hop <;> exact hv.2 rfl
  · exact hv.2 rfl

theorem ClaimInv.once_run (h : ClaimInv env w) (hv : a.vouched (ClaimBy env False) i w) (j : Nat)
    (b : BranchId) : (a.run i w).pending.count (.delete j b) ≤ 1 := by
  rcases Act.pending_run (a := a) (i := i) (w := w) with hsub | ⟨p, hp, heq⟩
  · exact (hsub.count_le _).trans (h.once j b)
  rw [heq, count_cons]
  split
  · rename_i hpd
    obtain rfl := eq_of_beq hpd
    obtain ⟨rfl, rfl⟩ : j = i ∧ a = .sendDelete b := by
      cases a <;> cases hp
      exact ⟨rfl, rfl⟩
    rw [count_eq_zero.mpr (hv.sent_once (.inr rfl))]
  · exact h.once j b

/-- While a delete is left to land, its claim stands. -/
theorem ClaimInv.late_run (h : ClaimInv env w) (hrefs : RefsInv env w) (hok : a.ok env i w)
    (hv : a.vouched (ClaimBy env False) i w)
    (htimely : env.conditionalDelete = false → Timely w (a.run i w))
    (hp : Pending.delete j b ∈ (a.run i w).pending) :
    env.conditionalDelete = false ∧ Removable env (a.run i w) j b := by
  rcases Act.pending_delete hp with hold | ⟨rfl, rfl⟩
  · obtain ⟨hcond, t, r₀, hst, hunder, -⟩ := h.late hold
    refine ⟨hcond, t, r₀, a.log_run.subset hst, ?_, (fun hc => by rw [hcond] at hc; cases hc)⟩
    rcases h.under_run hrefs hok hv htimely ⟨r₀, hst⟩ hunder with hunder |
      ⟨op, after, hw, rfl | rfl, -, hsrc⟩
    · exact hunder
    · exfalso
      rcases hsrc with ⟨rfl, hop⟩ | ⟨r, rfl, -⟩ | ⟨-, hperm⟩
      · exact hv.sent_once (.inl hop) hold
      · cases hw.apply
      · -- the one that lands was the only one
        have hone := h.once j b
        rw [← hperm.count_eq, count_cons_self] at hone
        have := count_pos_iff.mpr hp
        omega
    · exact absurd hold ((htimely hcond).unsent hw)
  · obtain ⟨t, r₀, hst, hunder, -⟩ := hv.1
    exact ⟨hok.2, t, r₀, hst, hunder, fun hc => by rw [hok.2] at hc; cases hc⟩

theorem ClaimInv.run (h : ClaimInv env w) (hrefs : RefsInv env w) (hok : a.ok env i w)
    (hv : a.vouched (ClaimBy env False) i w)
    (htimely : env.conditionalDelete = false → Timely w (a.run i w)) :
    ClaimInv env (a.run i w) := by
  have hclock : w.clock ≤ (a.run i w).clock := a.clock_run
  have hvouched : Vouched (ClaimOK env False) (a.run i w) :=
    h.vouched.run hrefs hok (hv.mono (·.1)) fun hop => ClaimOK.mono hop a.log_run.subset hclock
  rcases h.effects hrefs hok hv with hun | ⟨j, b, op, after, hw, hop, -⟩
  · obtain ⟨news, hlog, hnews⟩ := hun.log
    refine ⟨hvouched, fun hr ht => ?_, fun hc => ?_, fun hr => h.reaping (hun.lookup _ ▸ hr),
      h.late_run hrefs hok hv htimely, h.once_run hv⟩
    · exact (h.recent (hun.lookup _ ▸ hr) ht).trans hclock
    obtain ⟨r, hr, hd, ht⟩ := hc
    obtain ⟨j, hst, hheld⟩ := h.standing ⟨r, hun.lookup _ ▸ hr, hd, ht⟩
    refine ⟨j, hst.mono a.log_run.subset, hheld.extend news hlog fun e he hacq => ?_⟩
    cases e with
    | wrote j' b'' op' before after' => exact hnews _ he _ _ _ _ _ rfl
    | _ => exact hacq
  · obtain ⟨news, hlog, hnews⟩ := hw.log
    refine ⟨hvouched, ?_, ?_, ?_, h.late_run hrefs hok hv htimely, h.once_run hv⟩
    · intro b' r t hr ht
      rw [hw.lookup] at hr
      split at hr
      · subst hr
        exact (h.wrote hw hop hclock).1 t ht
      · exact (h.recent hr ht).trans hclock
    · rintro b' t ⟨r, hr, hd, ht⟩
      rw [hw.lookup] at hr
      split at hr
      · rename_i hb
        subst hr hb
        exact (h.wrote hw hop hclock).2.1 t hd ht
      · rename_i hb
        obtain ⟨j', hst, hheld⟩ := h.standing ⟨r, hr, hd, ht⟩
        refine ⟨j', hst.mono a.log_run.subset, hheld.extend (news ++ [_])
          (by rw [hlog]; simp; rfl) fun e he hacq => ?_⟩
        rcases mem_append.mp he with he | he
        · obtain ⟨_, _, _, _, rfl⟩ := hnews e he
          exact hacq
        · obtain rfl := mem_singleton.mp he
          exact hb hacq.1.symm
    · intro b' r hr
      rw [hw.lookup] at hr
      split at hr
      · subst hr
        exact (h.wrote hw hop hclock).2.2
      · exact h.reaping hr

/-! ## The layer -/

/-- Nothing thread `i` sent that takes off a claim or a ref is left to land. -/
structure World.NoneSent (w : World) (i : Nat) : Prop where
  unclaim : ∀ b before after, Pending.ref i b (.edit .unclaimDelete) before after ∉ w.pending
  delete : ∀ b, Pending.delete i b ∉ w.pending

theorem World.NoneSent.run (h : w.NoneSent i)
    (ha : j = i → (∀ b before after, a ≠ .send b (.edit .unclaimDelete) before after) ∧
      ∀ b, a ≠ .sendDelete b) : (a.run j w).NoneSent i where
  unclaim b before after hp := by
    rcases Act.pending_cases hp with hp | ⟨rfl, rfl⟩
    · exact h.unclaim b before after hp
    · exact (ha rfl).1 _ _ _ rfl
  delete b hp := by
    rcases Act.pending_delete hp with hp | ⟨rfl, rfl⟩
    · exact h.delete b hp
    · exact (ha rfl).2 _ rfl

def claimLayer (env : Env) : Layer (refSpec env) where
  inv := ClaimInv env
  may := Careful env False
  assumed w w' := env.conditionalDelete = false → Timely w w'
  fresh i w := w.NoneSent i
  inv_may := by
    rintro i w w' hrefs h - ⟨a, hok, hv, rfl⟩ - htimely
    exact h.run hrefs hok hv htimely
  fresh_may := by
    rintro i j w w' - - hij h - ⟨a, -, -, rfl⟩ - -
    exact h.run fun heq => absurd heq.symm hij

abbrev claimSpec (env : Env) : Spec World := (claimLayer env).spec.steady

abbrev ClaimsOk (env : Env) (strict : Prop) (i : Nat) (Q : α → World → Prop) (p : M α) (w : World) :
    Prop :=
  (claimSpec env).Holds (Careful env strict i) i Q p w

theorem World.NoneSent.stable : (claimSpec env).Stable i fun w => w.NoneSent i := by
  rintro j w w' hij - h ⟨⟨-, a, -, -, rfl⟩, -⟩ -
  exact h.run fun heq => absurd heq.symm hij

/-- Thread `i` has stamped a claim of `b`, and its claim stands, if it is on the ref. -/
structure Claiming (env : Env) (i : Nat) (b : BranchId) (r₀ : Ref) (t : Nat) (w : World) :
    Prop where
  stamped : w.StampedFor i b t r₀
  under : Under env b t w
  unsent : w.NoneSent i

theorem Claiming.stable {r₀ : Ref} : (claimSpec env).Stable i (Claiming env i b r₀ t) := by
  rintro j w w' hij ⟨hrefs, hinv⟩ h ⟨⟨-, a, hok, hv, rfl⟩, -, htimely⟩ -
  refine ⟨a.log_run.subset h.stamped, ?_, h.unsent.run fun heq => absurd heq.symm hij⟩
  rcases hinv.under_run hrefs hok hv htimely ⟨r₀, h.stamped⟩ h.under with hunder |
    ⟨op, after, -, hop, -, ⟨rfl, -⟩ | ⟨r, -, hp⟩ | ⟨-, hp⟩⟩
  · exact hunder
  · exact absurd rfl hij
  · rcases hop with rfl | rfl
    · cases (hrefs.sent hp).1
    · exact absurd hp (h.unsent.unclaim _ _ _)
  · exact absurd (hp.subset mem_cons_self) (h.unsent.delete _)

end Offshoot
