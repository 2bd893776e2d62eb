import Offshoot.Lifecycle.Claims

/-!
# Destroys and branches in use

An unforced destroy reads a ref that is not protected and whose lease is not live,
and claims it.  Its conditional delete then removes just that ref, renewed at most
and lapsed again; a delete that is not conditional removes the ref while the claim
is on it.
-/

namespace Offshoot

open Conc Maps

variable {env : Env} {w w' : World} {i j host : Nat} {b : BranchId} {s : Prop} {t : Nat}
variable {n : Nat} {r₀ : Ref}

theorem Careful.refl (w : World) : Careful env s i w w := ⟨.none, trivial, trivial, rfl⟩

theorem claimSpec_stable {P : World → Prop}
    (hP : ∀ {j w} {a : Act}, RefsInv env w → a.ok env j w → P w → P (a.run j w)) :
    (claimSpec env).Stable i P := by
  rintro j w w' - ⟨hrefs, -⟩ hw ⟨⟨-, a, hok, -, rfl⟩, -⟩ -
  exact hP hrefs hok hw

theorem stamped_stable : (claimSpec env).Stable i fun w => w.Stamped i b t :=
  claimSpec_stable fun {_ _ a} _ _ h => h.mono a.log_run.subset

theorem leaseLive_mono {r : Ref} {m : Nat} (h : leaseLive r m = false) (hle : m ≤ n) :
    leaseLive r n = false := by
  unfold leaseLive at *
  split
  · rename_i expiry hexp
    simp only [hexp, Bool.and_eq_false_iff, decide_eq_false_iff_not] at h ⊢
    exact h.imp_right fun h => by omega
  · rfl

/-! ## Taking a claim off -/

theorem unwindDeletingClaim_cares (hst : w.Stamped i b t) :
    ClaimsOk env s i ⊤ (unwindDeletingClaim env i b (some t) n) w := by
  induction n generalizing w with
  | zero => exact trivial
  | succ n ih =>
    refine (Spec.Holds.read (Q := fun _ w => w.Stamped i b t) Careful.refl (fun _ _ => rfl)
      stamped_stable hst fun _ _ _ h => h).bindOk (fun _ _ _ => trivial) fun ref w hst => ?_
    dsimp only
    split
    · exact trivial
    rename_i hours
    rw [not_or, not_not] at hours
    refine Spec.Holds.bind (Q := fun _ w => w.Stamped i b t) (putRef_holds stamped_stable hst rfl
      trivial fun w a _ _ hst hputs hok _ _ => ?_) fun r w hst => ?_
    · have hown : ClaimOK env s w i b (some ref) (.edit .unclaimDelete) :=
        fun _ => ⟨ref, t, rfl, hours.2, hst⟩
      exact ⟨⟨a, hok, hputs.vouched ⟨hown, by simp⟩, rfl⟩, hst.mono a.log_run.subset⟩
    · split
      · exact ih hst
      · exact trivial

/-! ## Removing the ref -/

structure Destroying (env : Env) (i : Nat) (b : BranchId) (r₀ : Ref) (t : Nat) (w : World) :
    Prop where
  claiming : Claiming env i b r₀ t w
  version : w.Version b r₀
  unprotected : r₀.isProtected = false
  unreaped : r₀.reaping = false

theorem Destroying.stamped (h : Destroying env i b r₀ t w) : w.Stamped i b t :=
  ⟨r₀, h.claiming.stamped⟩

def claimedRef (r₀ : Ref) (t : Nat) : Ref := { r₀ with deleting := true, deletingAt := some t }

theorem Destroying.stable : (claimSpec env).Stable i (Destroying env i b r₀ t) := by
  intro j w w' hij hinv h hmay has
  obtain ⟨a, hok, -, hrun⟩ := hmay.1.2
  refine ⟨Claiming.stable j w w' hij hinv h.claiming hmay has, ?_, h.unprotected, h.unreaped⟩
  rw [← hrun]
  exact h.version.mono a.log_run.subset

theorem onlyRenewed_eq {cur : Ref} (h : onlyRenewed (claimedRef r₀ t) cur = true)
    (hr : r₀.reaping = false) : cur = { claimedRef r₀ t with leaseExpiry := cur.leaseExpiry } := by
  have heq : { cur with
      leaseExpiry := (claimedRef r₀ t).leaseExpiry
      reaping := (claimedRef r₀ t).reaping || cur.reaping } = claimedRef r₀ t := by
    simpa [onlyRenewed] using h
  have hreap : cur.reaping = false := by
    have := congrArg Ref.reaping heq
    simpa [claimedRef, hr] using this
  cases cur
  simp_all [claimedRef]

/-- The ref a destroy is about to remove: claimed, renewed at most, and not live. -/
structure Removing (env : Env) (i : Nat) (b : BranchId) (r₀ : Ref) (t : Nat) (etag : Ref)
    (w : World) : Prop where
  destroying : Destroying env i b r₀ t w
  lapsed : leaseLive etag w.clock = false
  renewed : onlyRenewed (claimedRef r₀ t) etag = true

variable {etag : Ref}

theorem Removing.stable : (claimSpec env).Stable i (Removing env i b r₀ t etag) := by
  intro j w w' hij hinv h hmay has
  obtain ⟨a, hok, -, hrun⟩ := hmay.1.2
  refine ⟨Destroying.stable j w w' hij hinv h.destroying hmay has, ?_, h.renewed⟩
  rw [← hrun]
  exact leaseLive_mono h.lapsed a.clock_run

theorem Removing.delete (h : Removing env i b r₀ t etag w)
    (hit : env.conditionalDelete = true → w.refs.lookup b = some etag) :
    ClaimBy env s w i b (w.refs.lookup b) .delete := by
  refine ⟨?_, fun _ => h.destroying.claiming.unsent.delete b⟩
  refine ⟨t, r₀, h.destroying.claiming.stamped, h.destroying.claiming.under, fun hc => ?_⟩
  have heq := onlyRenewed_eq h.renewed h.destroying.unreaped
  refine ⟨etag, hit hc, h.destroying.version, ?_, h.lapsed, heq⟩
  rw [heq]
  exact h.destroying.unprotected

theorem deleteRefIf_cares (hw : Removing env i b r₀ t etag w) : ClaimsOk env s i
      (fun r w => w.Stamped i b t ∧ (r = .error .cas → Destroying env i b r₀ t w))
      (deleteRefIf env i b etag) w := by
  refine Spec.Holds.step Removing.stable hw fun w o hinv hw _ => ?_
  have hst := hw.destroying.stamped
  split
  · exact ⟨.refl w, hst, fun _ => hw.destroying⟩
  rename_i hcond
  have hdelete : ClaimBy env s w i b (w.refs.lookup b) .delete := by
    refine hw.delete fun hc => ?_
    simpa [hc] using hcond
  have hland : Careful env s i w (w.land i b .delete none) ∧
      (w.land i b .delete none).Stamped i b t :=
    ⟨⟨.write b .delete none, ⟨rfl, trivial⟩, hdelete, rfl⟩, hst.mono (List.subset_cons_self _ _)⟩
  split
  · split
    · exact ⟨.refl w, hst, by simp⟩
    rename_i hcond
    cases o.fate with
    | lost => exact ⟨.refl w, hst, by simp⟩
    | landed => exact ⟨hland.1, hland.2, by simp⟩
    | pending =>
      dsimp only
      split
      · exact ⟨.refl w, hst, by simp⟩
      · rename_i hset
        refine ⟨⟨.sendDelete b, ⟨?_, ?_⟩, hdelete, rfl⟩, hst, by simp⟩
        · simpa using hset
        · simpa using hcond
  · exact ⟨hland.1, hland.2, by simp⟩

theorem now_cares {P : World → Prop} (hclock : env.oneClock = true)
    (hP : (claimSpec env).Stable i P) (hw : P w) :
    ClaimsOk env s i (fun n w => P w ∧ n = w.clock) (now env) w :=
  Spec.Holds.read .refl (fun _ _ => rfl) hP hw fun w o _ hw => ⟨hw, by simp [hclock]⟩

theorem deleteClaimedRef_cares (hclock : env.oneClock = true) (hw : Removing env i b r₀ t etag w) :
    ClaimsOk env s i (fun _ w => w.Stamped i b t)
      (deleteClaimedRef env i b (claimedRef r₀ t) false n etag) w := by
  induction n generalizing w etag with
  | zero => exact hw.destroying.stamped
  | succ n ih =>
    refine (deleteRefIf_cares hw).bind fun r w hw => ?_
    obtain ⟨hst, hcas⟩ := hw
    split
    · split
      · exact hst
      refine (Spec.Holds.read (Q := fun _ w => Destroying env i b r₀ t w) .refl (fun _ _ => rfl)
        Destroying.stable (hcas rfl) fun _ _ _ h => h).bindOk
        (fun _ _ hw => hw.stamped) fun cur w hw => ?_
      dsimp only
      split
      · exact hw.stamped
      rename_i hrenewed
      refine (now_cares hclock Destroying.stable hw).bind fun now w hw => ?_
      obtain ⟨hw, hnow⟩ := hw
      subst hnow
      split
      · exact hw.stamped
      · rename_i hlive
        exact ih ⟨hw, by simpa using hlive, by simpa using hrenewed⟩
    · exact hst

theorem destroyClaimed_cares (hclock : env.oneClock = true) (hw : Removing env i b r₀ t etag w) :
    ClaimsOk env s i ⊤ (destroyClaimed env i host b (claimedRef r₀ t) false etag) w := by
  have hunwind {e : Err} {w : World} (hst : w.Stamped i b t) :
      ClaimsOk env s i ⊤ (do
        unwindDeletingClaim env i b (claimedRef r₀ t).deletingAt destroyDeleteAttempts
        return (Except.error e : Result Unit)) w := by
    refine Spec.Holds.bind (unwindDeletingClaim_cares hst) fun _ _ _ => ?_
    exact trivial
  refine (Spec.Holds.read (Q := fun _ w => Removing env i b r₀ t etag w) .refl (fun _ _ => rfl)
    Removing.stable hw fun _ _ _ h => h).bind fun busy w hw => ?_
  split
  · exact hunwind hw.destroying.stamped
  refine (now_cares hclock Removing.stable hw).bind fun now w hnow => ?_
  have hw := hnow.1
  generalize liveDeleteClaim _ _ = live
  split
  · exact hunwind hw.destroying.stamped
  refine (deleteClaimedRef_cares hclock hw).bindOk (fun _ _ hst => hunwind hst) fun u w hst => ?_
  refine (Spec.Holds.step (Q := fun _ _ => True) (Spec.Stable.const True) trivial
    fun w o _ _ _ => ?_).bind .ret
  exact ⟨⟨.checkout host b .empty, trivial, trivial, rfl⟩, trivial⟩

/-! ## Claiming the ref -/

/-- A destroy that has read `r₀` and stamped its claim of it `t`, and may not have
written the claim yet. -/
structure Stamping (i : Nat) (b : BranchId) (r₀ : Ref) (t : Nat) (w : World) : Prop where
  stamped : w.StampedFor i b t r₀
  unsent : w.NoneSent i
  version : w.Version b r₀
  unprotected : r₀.isProtected = false
  unreaped : r₀.reaping = false

theorem Stamping.stable : (claimSpec env).Stable i (Stamping i b r₀ t) := by
  rintro j w w' hij hinv h ⟨⟨-, a, hok, -, rfl⟩, -⟩ -
  exact ⟨a.log_run.subset h.stamped, h.unsent.run fun heq => absurd heq.symm hij,
    h.version.mono a.log_run.subset, h.unprotected, h.unreaped⟩

theorem Stamping.destroying (h : Stamping i b r₀ t w) (hclaim : w.Claim b t) :
    Destroying env i b r₀ t w :=
  ⟨⟨h.stamped, fun _ _ => hclaim, h.unsent⟩, h.version, h.unprotected, h.unreaped⟩

theorem getRef_claim (hw : Stamping i b r₀ t w) : ClaimsOk env s i (fun r w => Stamping i b r₀ t w ∧
      ∀ cur, r = .ok cur → cur.deleting = true → cur.deletingAt = some t →
        Destroying env i b r₀ t w) (getRef b) w := by
  refine Spec.Holds.read .refl (fun _ _ => rfl) Stamping.stable hw fun w o _ hw => ⟨hw, ?_⟩
  intro cur hcur hd ht
  refine hw.destroying ⟨cur, ?_, hd, ht⟩
  split at hcur
  · cases hcur
  · split at hcur
    · cases hcur
      assumption
    · cases hcur

theorem awaitClaim_cares {sent : Ref} (hw : Stamping i b r₀ t w) :
    ClaimsOk env s i (fun r w => Stamping i b r₀ t w ∧
      ∀ cur, r = .ok cur → cur.deleting = true → cur.deletingAt = some t →
        Destroying env i b r₀ t w) (awaitClaim b sent n) w := by
  induction n generalizing w with
  | zero => exact getRef_claim hw
  | succ n ih =>
    refine (getRef_claim hw).bindOk (fun _ _ hr => ⟨hr.1, by simp⟩) fun cur w hr => ?_
    dsimp only
    split
    · exact ih hr.1
    · exact ⟨hr.1, fun cur' h => by cases h; exact hr.2 cur rfl⟩

theorem landedClaim_cares (hclock : env.oneClock = true) {sent : Ref} (hw : Stamping i b r₀ t w) :
    ClaimsOk env s i
      (fun r w => ∀ cur, r = .ok cur → Removing env i b r₀ t cur w)
      (landedClaim env i b sent (claimedRef r₀ t) false) w := by
  have hunwind {e : Err} {w : World} (hst : w.Stamped i b t) :
      ClaimsOk env s i
        (fun r w => ∀ cur, r = .ok cur → Removing env i b r₀ t cur w) (do
        unwindDeletingClaim env i b (claimedRef r₀ t).deletingAt destroyDeleteAttempts
        return (Except.error e : Result Ref)) w := by
    refine Spec.Holds.bind (unwindDeletingClaim_cares hst) fun _ _ _ => ?_
    exact fun _ h => by cases h
  unfold landedClaim
  split
  · exact fun _ h => by cases h
  refine (awaitClaim_cares hw).bindOk (fun _ _ _ => fun _ h => by cases h) fun cur w hr => ?_
  dsimp only
  split
  · exact fun _ h => by cases h
  rename_i hours
  simp only [not_or, Bool.not_eq_true', Bool.not_eq_false, not_not] at hours
  have hw := hr.2 cur rfl hours.2.1 hours.2.2
  split
  · exact hunwind hw.stamped
  rename_i hrenewed
  refine (now_cares hclock Destroying.stable hw).bind fun now w hnow => ?_
  obtain ⟨hw, rfl⟩ := hnow
  split
  · exact hunwind hw.stamped
  · rename_i hlive
    intro cur' h
    cases h
    exact ⟨hw, by simpa using hlive, by simpa using hrenewed⟩

structure ReadFor (i : Nat) (b : BranchId) (ref : Ref) (w : World) : Prop where
  unsent : w.NoneSent i
  version : w.Version b ref
  unreaped : ref.reaping = false
  stored : ref.stored = ref
  recent : ∀ t, ref.deletingAt = some t → t ≤ w.clock

variable {ref : Ref}

theorem ReadFor.stable : (claimSpec env).Stable i fun w => ReadFor i b ref w ∧ n ≤ w.clock := by
  rintro j w w' hij hinv ⟨h, hn⟩ ⟨⟨-, a, hok, -, rfl⟩, -⟩ -
  exact ⟨⟨h.unsent.run fun heq => absurd heq.symm hij, h.version.mono a.log_run.subset,
    h.unreaped, h.stored, fun t ht => (h.recent t ht).trans a.clock_run⟩, hn.trans a.clock_run⟩

theorem getRef_readFor (hw : w.NoneSent i) :
    ClaimsOk env s i (fun r w => ∀ ref, r = .ok ref → ReadFor i b ref w) (getRef b) w := by
  refine Spec.Holds.read .refl (fun _ _ => rfl) World.NoneSent.stable hw
    fun w o hinv hw ref href => ?_
  obtain ⟨hrefs, hclaims⟩ := hinv
  have hr : w.refs.lookup b = some ref := by
    split at href
    · cases href
    · split at href
      · cases href
        assumption
      · cases href
  exact ⟨hw, hrefs.current hr, hclaims.reaping hr, hrefs.stored (hrefs.current hr),
    fun t => hclaims.recent hr⟩

theorem claimedRef_stored (h : ref.stored = ref) :
    (claimedRef ref t).stored = claimedRef ref t := by
  rw [Ref.stored_eq_self] at h ⊢
  exact h

theorem stale_of_not_live (h : liveDeleteClaim ref n = false) (hd : ref.deleting = true)
    (ht : ref.deletingAt = some t) (hle : t ≤ n) : t + staleDeletingClaimAfter ≤ n := by
  simp only [liveDeleteClaim, hd, ht, deleteClaimFresh, Bool.true_and, Bool.and_eq_false_iff,
    decide_eq_false_iff_not] at h
  rcases h with h | h <;> omega

theorem putClaim_cares {m : Nat}
    (hw : Stamping i b ref t w ∧ t ≤ w.clock ∧ m ≤ w.clock ∧ n ≤ w.clock)
    (hstored : ref.stored = ref) (hlapsed : leaseLive ref m = false)
    (hstale : ref.deleting = true → ∀ t', ref.deletingAt = some t' →
      t' + staleDeletingClaimAfter ≤ n) :
    ClaimsOk env s i (fun r w => Stamping i b ref t w ∧
        (r = .ok () → Removing env i b ref t (claimedRef ref t) w))
      (putRef env i b (.edit (.claimDelete t)) (claimedRef ref t) (some ref)) w := by
  have hstable : (claimSpec env).Stable i fun w =>
      Stamping i b ref t w ∧ t ≤ w.clock ∧ m ≤ w.clock ∧ n ≤ w.clock := by
    intro j w w' hij hinv h hmay has
    refine ⟨Stamping.stable j w w' hij hinv h.1 hmay has, ?_⟩
    obtain ⟨⟨-, a, -, -, rfl⟩, -⟩ := hmay
    have hclock : w.clock ≤ (a.run j w).clock := a.clock_run
    omega
  have happly : RefOp.apply (.edit (.claimDelete t)) (some ref) =
      some (some (claimedRef ref t).stored) := rfl
  refine putRef_holds hstable hw happly trivial fun w a res hinv hw hputs hok hres _ => ?_
  obtain ⟨hst, ht, hm, hn⟩ := hw
  have hok' : ClaimOK env s w i b (some ref) (.edit (.claimDelete t)) := by
    refine ⟨⟨ref, hst.stamped⟩, ht, fun r t' hr hd ht' => ?_⟩
    cases hr
    exact (hstale hd t' ht').trans hn
  have hst' : Stamping i b ref t (a.run i w) := by
    refine ⟨a.log_run.subset hst.stamped, hst.unsent.run fun _ => ⟨fun b before after heq => ?_,
      fun b heq => ?_⟩, hst.version.mono a.log_run.subset, hst.unprotected, hst.unreaped⟩ <;>
      rcases hputs with rfl | ⟨rfl, -⟩ | rfl <;> cases heq
  refine ⟨⟨a, hok, hputs.vouched ⟨hok', by simp⟩, rfl⟩, hst', fun hres' => ?_⟩
  obtain rfl := hres hres'
  rw [claimedRef_stored hstored] at hst' ⊢
  have hclaim :
      ((Act.write b (.edit (.claimDelete t)) (some (claimedRef ref t))).run i w).Claim b t :=
    ⟨claimedRef ref t, by simp [Act.run, World.lookup_land], rfl, rfl⟩
  refine ⟨hst'.destroying hclaim, ?_, ?_⟩
  · exact leaseLive_mono (r := claimedRef ref t) hlapsed hm
  · simp [onlyRenewed]

theorem stampClaim_cares (hclock : env.oneClock = true) (hprotected : ref.isProtected = false)
    (hw : ReadFor i b ref w ∧ n ≤ w.clock) :
    ClaimsOk env s i
      (fun t w => Stamping i b ref t w ∧ t ≤ w.clock ∧ n ≤ w.clock) (stampClaim env i b ref) w := by
  refine Spec.Holds.step ReadFor.stable hw fun w o _ hw _ => ?_
  obtain ⟨hw, hn⟩ := hw
  simp only [hclock, if_true]
  refine ⟨⟨.note (.stamped i b w.clock ref), trivial, trivial, rfl⟩, ?_, le_rfl, hn⟩
  exact ⟨List.mem_cons_self, ⟨hw.unsent.unclaim, hw.unsent.delete⟩,
    hw.version.mono (List.subset_cons_self _ _), hprotected,
    hw.unreaped⟩

theorem destroy_cares (hclock : env.oneClock = true) (hw : w.NoneSent i) :
    ClaimsOk env s i ⊤ (destroy env i host b false) w := by
  refine (getRef_readFor hw).bindOk .ret fun ref w hr => ?_
  refine (now_cares hclock ReadFor.stable ⟨hr ref rfl, Nat.zero_le _⟩).bind fun m w hm => ?_
  obtain ⟨⟨hw, -⟩, rfl⟩ := hm
  refine (now_cares hclock ReadFor.stable ⟨hw, le_refl w.clock⟩).bind fun n w' hn => ?_
  obtain ⟨⟨hw, hm⟩, rfl⟩ := hn
  generalize w.clock = m at hm
  have hrecent := hw.recent
  split
  · exact trivial
  rename_i hprotected
  split
  · exact trivial
  rename_i hlapsed
  split
  · exact trivial
  rename_i hlive
  simp only [Bool.not_false, Bool.and_true, Bool.true_and, Bool.not_eq_true]
    at hprotected hlapsed hlive
  have hstale : ref.deleting = true → ∀ t', ref.deletingAt = some t' →
      t' + staleDeletingClaimAfter ≤ w'.clock := fun hd t' ht =>
    stale_of_not_live hlive hd ht (hrecent t' ht)
  refine (stampClaim_cares hclock hprotected ⟨hw, le_refl w'.clock⟩).bind fun t w'' ht => ?_
  obtain ⟨hst, ht, hn⟩ := ht
  have hstored : ({ ref with deleting := true, deletingAt := some t } : Ref).stored =
      claimedRef ref t := claimedRef_stored hw.stored
  refine (putClaim_cares ⟨hst, ht, hm.trans hn, hn⟩ hw.stored hlapsed hstale).bind fun r w hr => ?_
  rw [hstored]
  cases r with
  | ok u => exact destroyClaimed_cares hclock (hr.2 rfl)
  | error e =>
    refine (landedClaim_cares hclock hr.1).bindOk .ret fun cur w hr => ?_
    exact destroyClaimed_cares hclock (hr cur rfl)

end Offshoot
