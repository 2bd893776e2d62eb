import Offshoot.Lifecycle.Destroy
import Offshoot.System.BasesSound

/-!
# Every operation is careful with claims

Rollbacks and promotes destroy the backup an earlier one left, unforced; the other
operations that touch delete claims are the destroys themselves and the cleaner of
stale ones.
-/

namespace Offshoot

open Conc Maps List

variable {env : Env} {w w' : World} {i j host : Nat} {b : BranchId} {s : Prop}

def RefOp.Kind.harmless (s : Prop) : RefOp.Kind → Prop
  | claimDelete | claimReap | delete => False
  | unclaimDelete => ¬ s
  | _ => True

theorem ClaimBy.of_harmless {before : Option Ref} {op : RefOp} (h : op.kind.harmless s) :
    ClaimBy env s w j b before op := by
  cases op with
  | create _ => exact ⟨trivial, by simp⟩
  | delete => exact h.elim
  | edit e =>
    refine ⟨?_, by simp⟩
    cases e with
    | claimDelete _ | claimReap => exact h.elim
    | unclaimDelete => exact fun hs => absurd hs h
    | _ => trivial

theorem Does.cares {p : M α} (h : Does env i (Act.In W) p) (hW : ∀ b k, W b k → k.harmless s) :
    ClaimsOk env s i ⊤ p w := by
  refine Prog.All.holds (Prog.All.mono ?_ h)
  rintro w w' ⟨a, ha, hok, hrun⟩ - -
  refine ⟨a, hok, ?_, hrun⟩
  cases a <;> first | trivial | exact ClaimBy.of_harmless (hW _ _ ha)

section Backups

variable {S : Spec World} {G : World → World → Prop} {P : World → Prop}
  {W : BranchId → RefOp.Kind → Prop} {suffix metaKey : String} {ttl fuel : Nat}

theorem safetyFork_holds {materialize : Bool} (hG : ∀ w, G w w) (hP : S.Stable i P)
    (hdoes : ∀ {w} {p : M (Result Nat)}, Does env i (Act.In W) p → S.Holds G i ⊤ p w)
    (hdestroy : ∀ {w}, P w → S.Holds G i ⊤ (destroy env i host ⟨b.db, b.branch ++ suffix⟩ false) w)
    (hc : W ⟨b.db, b.branch ++ suffix⟩ .create) (hw : P w) :
    S.Holds G i ⊤ (safetyFork env i host b suffix metaKey ttl fuel materialize) w := by
  refine (Spec.Holds.read (Q := fun _ w => P w) hG (fun _ _ => rfl) hP hw
    fun _ _ _ h => h).bind fun r w hw => ?_
  split
  · exact (hdoes (fork_grows hc).withinGrows).bindOk .ret .ret
  · exact trivial
  · split
    · exact trivial
    · refine (hdestroy hw).bindOk .ret fun u w _ => ?_
      exact (hdoes (fork_grows hc).withinGrows).bindOk .ret .ret

theorem backUp_holds {skip : Bool} (hG : ∀ w, G w w) (hP : S.Stable i P)
    (hdoes : ∀ {w} {p : M (Result Nat)}, Does env i (Act.In W) p → S.Holds G i ⊤ p w)
    (hdestroy : ∀ {w}, P w → S.Holds G i ⊤ (destroy env i host ⟨b.db, b.branch ++ suffix⟩ false) w)
    (hc : W ⟨b.db, b.branch ++ suffix⟩ .create) (hw : P w) :
    S.Holds G i ⊤ (backUp env i host b suffix metaKey ttl fuel skip) w := by
  unfold backUp
  split
  · exact trivial
  · exact safetyFork_holds hG hP hdoes hdestroy hc hw

end Backups

theorem rollback_cares (hclock : env.oneClock = true) {name : String} {opts : RepointOptions}
    (hw : w.NoneSent i) : ClaimsOk env s i ⊤ (rollback env i host b name opts fuel) w := by
  have hdoes {α : Type} {p : M α} {w : World}
      (h : Does env i (Act.In fun _ k => k = .create ∨ k = .repoint) p) :
      ClaimsOk env s i ⊤ p w :=
    h.cares fun _ _ hk => by rcases hk with rfl | rfl <;> trivial
  refine (Spec.Holds.read (Q := fun _ w => w.NoneSent i) Careful.refl (fun _ _ => rfl)
    World.NoneSent.stable hw fun _ _ _ h => h).bindOk (fun _ _ _ => trivial) fun ref w hw => ?_
  refine (now_cares hclock World.NoneSent.stable hw).bind fun now w hw => ?_
  split
  · exact trivial
  split
  · exact trivial
  refine (backUp_holds Careful.refl World.NoneSent.stable hdoes (destroy_cares hclock)
    (.inl rfl) hw.1).bindOk .ret fun u w _ => ?_
  refine (hdoes refChain_local.withinLocal).bindOk .ret fun members w _ => ?_
  refine (hdoes newLineageAt_builds.withinBuilds).bind fun r w _ => ?_
  split
  · exact trivial
  · exact hdoes ((rollbackOnto_remakes (.inr rfl)).mono fun _ h => h.1)

theorem promote_cares (hclock : env.oneClock = true) {db source target : String}
    {opts : RepointOptions} (hw : w.NoneSent i) :
    ClaimsOk env s i ⊤ (promote env i host db source target opts fuel) w := by
  have hdoes {α : Type} {p : M α} {w : World}
      (h : Does env i (Act.In fun _ k => k = .create ∨ k = .repoint) p) :
      ClaimsOk env s i ⊤ p w :=
    h.cares fun _ _ hk => by rcases hk with rfl | rfl <;> trivial
  have hread {b : BranchId} {w : World} (hw : w.NoneSent i) :
      ClaimsOk env s i (fun _ w => w.NoneSent i) (getRef b) w :=
    Spec.Holds.read Careful.refl (fun _ _ => rfl) World.NoneSent.stable hw fun _ _ _ h => h
  unfold promote
  split
  · exact trivial
  refine (hread hw).bindOk .ret fun src w hw => ?_
  refine (hread hw).bindOk .ret fun tgt w hw => ?_
  refine (now_cares hclock World.NoneSent.stable hw).bind fun now w hw => ?_
  split
  · exact trivial
  split
  · exact trivial
  · refine (backUp_holds Careful.refl World.NoneSent.stable hdoes (destroy_cares hclock)
      (.inl rfl) hw.1).bindOk .ret fun u w _ => ?_
    exact hdoes ((promoteOnto_remakes (.inr rfl)).mono fun _ h => h.1)

/-- The operations considered: no destroy is forced, and no reaper runs. -/
def Op.spares : Op → Bool
  | .destroy _ _ force => !force
  | .reap _ => false
  | _ => true

theorem flying_cares {p : M α} {f : Flight} (hw : w.NoneSent i)
    (hp : ∀ {w}, w.NoneSent i → ClaimsOk env s i ⊤ p w) : ClaimsOk env s i ⊤ (flying i f p) w := by
  have hflight {f : Option Flight} {w : World} (hw : w.NoneSent i) :
      ClaimsOk env s i (fun _ w => w.NoneSent i) (setFlight i f) w :=
    Spec.Holds.step World.NoneSent.stable hw fun w _ _ hw _ =>
      ⟨⟨.flight f, trivial, trivial, rfl⟩, hw.unclaim, hw.delete⟩
  refine (hflight hw).bind fun _ w hw => (hp hw).bind fun _ w _ => ?_
  refine Spec.Holds.step (Spec.Stable.const True) trivial fun w _ _ _ _ => ?_
  exact ⟨⟨.flight none, trivial, trivial, rfl⟩, trivial⟩

/-- Every operation is careful, and all but the cleaner take off no claims but their
own. -/
theorem Op.prog_cares (hclock : env.oneClock = true) (op : Op) (hop : op.spares = true)
    (hw : w.NoneSent i) :
    (claimSpec env).Holds (Careful env (op ≠ .clearStale) i) i ⊤ (op.prog env i) w := by
  by_cases hland : ∃ n, op = .land n
  · obtain ⟨n, rfl⟩ := hland
    refine Spec.Holds.step (Spec.Stable.const True) trivial fun w o _ _ _ => ?_
    exact ⟨⟨.late n, trivial, trivial, rfl⟩, trivial⟩
  rw [not_exists] at hland
  -- What the footprint of an operation says is enough, where it has no destroy in it.
  have hwithin (hW : ∀ b k, op.writes b k → k.harmless (op ≠ .clearStale)) :
      (claimSpec env).Holds (Careful env (op ≠ .clearStale) i) i ⊤ (op.prog env i) w := by
    refine Prog.All.holds (Prog.All.mono ?_ (op.prog_within hland))
    rintro w w' ⟨a, ha, hok, hrun⟩ - -
    refine ⟨a, hok, ?_, hrun⟩
    rcases ha with ⟨-, ha⟩ | ha
    · cases a <;> trivial
    · cases a <;> first | trivial | exact ClaimBy.of_harmless (hW _ _ ha)
  cases op with
  | destroy host b force =>
    obtain rfl : force = false := by simpa [Op.spares] using hop
    exact (destroy_cares hclock hw).bind .ret
  | rollback host b name opts fuel => exact flying_cares hw (rollback_cares hclock)
  | promote host db source target opts fuel => exact flying_cares hw (promote_cares hclock)
  | reap host => cases hop
  | land n => exact absurd rfl (hland n)
  | clearStale =>
    refine hwithin fun b k hk => ?_
    obtain rfl : k = .unclaimDelete := hk
    exact fun h => h rfl
  | session host b ttl fuel resume script =>
    refine hwithin fun b k hk => ?_
    rcases hk.2 with rfl | rfl | rfl <;> trivial
  | checkpoint host b name fuel opts =>
    refine hwithin fun b k hk => ?_
    rcases hk.2 with rfl | rfl | rfl <;> trivial
  | checkout _ _ _ | gc _ _ | appWrite _ _ _ | captureRebase _ _ | captureApply _ _
  | captureStop _ | tick _ => exact hwithin fun _ _ hk => hk.elim
  | _ =>
    refine hwithin fun b k hk => ?_
    obtain rfl := hk.2
    trivial

abbrev claimRuns (env : Env) : Spec World :=
  ((claimLayer env).atop (baseLayer env fun _ _ => True)).spec

theorem claimRuns_within : (claimRuns env).Within (claimSpec env) :=
  ⟨fun h => ⟨h.1.1, h.2⟩, fun h has => ⟨⟨h.1.1, h.2⟩, has.1.1, has.2⟩, fun _ => trivial⟩

theorem claimRuns_sound (hclock : env.oneClock = true)
    (hops : ∀ op, enabled op → op.spares = true) : (claimRuns env).Sound (system env enabled) := by
  refine Layer.sound baseLayer_sound (fun i op w hop _ hfresh => ?_) fun i w _ => ?_
  · exact Layer.holds_atop ((op.prog_cares hclock (hops op hop) hfresh.2).of_steady.weaken
      fun _ _ => Careful.weaken False.elim)
  · exact ⟨.flight none, trivial, trivial, rfl⟩

theorem claimRuns_init : Safe (claimRuns env) (Config.init .empty : Config World Oracle Op) :=
  Safe.init ⟨⟨.empty env, .empty⟩, .empty⟩ fun _ =>
    ⟨⟨trivial, trivial⟩, fun _ _ _ h => by simp [World.empty] at h,
      fun _ h => by simp [World.empty] at h⟩

/-! ## Whole runs -/

/-- The claims that writes left pending would take off belong to their threads, the
cleaner's apart. -/
def OwnUnclaims (c : Config World Oracle Op) : Prop :=
  ∀ j b before after, Pending.ref j b (.edit .unclaimDelete) before after ∈ c.state.pending →
    ∃ op p, c.threads j = some (op, p) ∧ (op = .clearStale ∨ OwnClaim c.state j b before)

variable {enabled : Op → Prop} {c c' : Config World Oracle Op} {op : Op}

theorem OwnUnclaims.step (h : OwnUnclaims c) (hstep : StepBy (system env enabled) i op c c')
    (hcare : Careful env (op ≠ .clearStale) i c.state c'.state) : OwnUnclaims c' := by
  obtain ⟨a, hok, hv, hrun⟩ := hcare
  intro j b before after hp
  rw [← hrun] at hp ⊢
  rcases Act.pending_cases hp with hp | ⟨rfl, rfl⟩
  · obtain ⟨op', p, hj, hown⟩ := h j b before after hp
    obtain ⟨p', hj'⟩ := hstep.keeps_label hj
    exact ⟨op', p', hj', hown.imp_right fun h => h.mono a.log_run.subset⟩
  · obtain ⟨p, hp⟩ := hstep.label
    exact ⟨op, p, hp, or_iff_not_imp_left.mpr hv.1⟩

theorem Careful.unwritten_or (hinv : (claimSpec env).inv w) (h : Careful env s i w w') :
    Unwritten w w' ∨ ∃ j b op after, Wrote w w' j b op after ∧
      ClaimOK env False w j b (w.refs.lookup b) op ∧
      (j = i ∧ ClaimOK env s w j b (w.refs.lookup b) op ∨
        (∃ r, Pending.ref j b op (w.refs.lookup b) r ∈ w.pending) ∨ op = .delete) := by
  obtain ⟨a, hok, hv, rfl⟩ := h
  rcases hinv.2.effects hinv.1 hok (hv.mono fun h => ⟨h.1.weaken False.elim, h.2⟩) with
    hun | ⟨j, b, op, after, hw, hown, hsrc⟩
  · exact .inl hun
  refine .inr ⟨j, b, op, after, hw, hown, ?_⟩
  rcases hsrc with ⟨rfl, hop⟩ | ⟨r, -, hp⟩ | ⟨rfl, -⟩
  · refine .inl ⟨rfl, ?_⟩
    cases a <;> simp only [Act.op, Option.some.injEq, Prod.mk.injEq, reduceCtorEq] at hop <;>
      obtain ⟨rfl, rfl⟩ := hop <;> exact hv.1
  · exact .inr (.inl ⟨r, hp⟩)
  · exact .inr (.inr rfl)

/-- What is assumed of a step where the backend deletes outright. -/
structure InTime (c c' : Config World Oracle Op) : Prop extends Prompt c.state c'.state where
  /-- The cleaner takes off only claims that are old enough. -/
  clear : ∀ {j b after p r t}, Wrote c.state c'.state j b (.edit .unclaimDelete) after →
    c'.threads j = some (.clearStale, p) → c.state.refs.lookup b = some r →
    r.deletingAt = some t → t + staleDeletingClaimAfter ≤ c.state.clock

def TimelyRun (env : Env) (enabled : Op → Prop) :
    Config World Oracle Op → Config World Oracle Op → Prop :=
  Relation.ReflTransGen fun c c' =>
    Step (system env enabled) c c' ∧ (env.conditionalDelete = false → InTime c c')

section Reached

variable (hclock : env.oneClock = true) (hops : ∀ op, enabled op → op.spares = true)
  (hreach : (claimRuns env).Reach (system env enabled) (.init .empty) c)

include hclock hops hreach

theorem claimRuns_careful (hstep : StepBy (system env enabled) i op c c') :
    Careful env (op ≠ .clearStale) i c.state c'.state := by
  rcases claimRuns_init.step_guarantee (claimRuns_sound hclock hops) claimRuns_within
    (G := fun i op => Careful env (op ≠ .clearStale) i)
    (fun _ op _ hop _ hfresh => op.prog_cares hclock (hops op hop) hfresh.2) hreach hstep trivial
    with heq | heq | hcare
  · rw [heq]
    exact .refl _
  · rw [heq]
    exact ⟨.flight none, trivial, trivial, rfl⟩
  · exact hcare

theorem ownUnclaims_of_reach : OwnUnclaims c := by
  induction hreach with
  | refl => exact fun _ _ _ _ hp => by simp [Config.init, World.empty] at hp
  | tail hreach hstep ih =>
    obtain ⟨⟨j, op', hby⟩, -⟩ := hstep
    exact ih.step hby (claimRuns_careful hclock hops hreach hby)

/-- A claim is taken off by the cleaner, or by the thread that stamped it. -/
theorem unclaims_own (hstep : StepBy (system env enabled) i op c c') {after : Option Ref}
    (hw : Wrote c.state c'.state j b (.edit .unclaimDelete) after) :
    ∃ op p, c'.threads j = some (op, p) ∧
      (op = .clearStale ∨ OwnClaim c.state j b (c.state.refs.lookup b)) := by
  have hinv := (claimRuns_init.reach (claimRuns_sound hclock hops) hreach).inv
  rcases (claimRuns_careful hclock hops hreach hstep).unwritten_or ⟨hinv.1.1, hinv.2⟩ with
    hun | ⟨j', b', rop, after', hw', -, hsrc⟩
  · exact absurd hw hun.not_wrote
  obtain ⟨rfl, rfl, rfl, rfl⟩ := hw'.unique hw
  rcases hsrc with ⟨rfl, hstrict⟩ | ⟨r, hp⟩ | hdel
  · obtain ⟨p, hp⟩ := hstep.label
    exact ⟨op, p, hp, or_iff_not_imp_left.mpr hstrict⟩
  · obtain ⟨op', p, hj, hown⟩ := ownUnclaims_of_reach hclock hops hreach _ _ _ _ hp
    obtain ⟨p', hj'⟩ := hstep.keeps_label hj
    exact ⟨op', p', hj', hown⟩
  · cases hdel

theorem InTime.timely (h : InTime c c') (hstep : StepBy (system env enabled) i op c c') :
    Timely c.state c'.state where
  toPrompt := h.toPrompt
  unclaim hw hr ht hfresh := by
    obtain ⟨_, p, hp, rfl | ⟨r', t', hr', ht', hst⟩⟩ := unclaims_own hclock hops hreach hstep hw
    · have := h.clear hw hp hr ht
      omega
    · cases hr.symm.trans hr'
      cases ht.symm.trans ht'
      exact hst

end Reached

theorem TimelyRun.reach (hclock : env.oneClock = true)
    (hops : ∀ op, enabled op → op.spares = true) (h : TimelyRun env enabled (.init .empty) c) :
    (claimRuns env).Reach (system env enabled) (.init .empty) c := by
  induction h with
  | refl => exact .refl
  | tail _ hstep ih =>
    obtain ⟨⟨i, op, hby⟩, hin⟩ := hstep
    exact ih.tail ⟨⟨i, op, hby⟩, ⟨trivial, trivial⟩, fun hcond =>
      (hin hcond).timely hclock hops ih hby⟩

/-- Unforced destroys spare branches in use.  In a run every step of which is in time,
where the backend deletes outright: a ref that is removed, at once or late, was claimed
by the thread that removes it; where the delete is conditional, the ref is the one that
thread read and stamped its claim for, but for the claim and renewals that have lapsed;
where it is not, no lease was granted since the claim.  And no claim is taken off but by
the thread that stamped it, or by the cleaner. -/
theorem destroy_spares_branch_in_use (hclock : env.oneClock = true)
    (hops : ∀ op, enabled op → op.spares = true) (h : TimelyRun env enabled (.init .empty) c)
    (hstep : StepBy (system env enabled) i op c c')
    (htimely : env.conditionalDelete = false → InTime c c') :
    (∀ j b after, Wrote c.state c'.state j b .delete after → ∃ t r₀,
      c.state.StampedFor j b t r₀ ∧ (env.conditionalDelete = true → c.state.Spared b t r₀) ∧
      (env.conditionalDelete = false → c.state.Claim b t ∧ c.state.HeldOff j b t)) ∧
    ∀ j b after, Wrote c.state c'.state j b (.edit .unclaimDelete) after →
      ∃ op p, c'.threads j = some (op, p) ∧
        (op = .clearStale ∨ OwnClaim c.state j b (c.state.refs.lookup b)) := by
  have hreach := h.reach hclock hops
  have hinv := (claimRuns_init.reach (claimRuns_sound hclock hops) hreach).inv
  refine ⟨fun j b after hw => ?_, fun _ _ _ => unclaims_own hclock hops hreach hstep⟩
  rcases (claimRuns_careful hclock hops hreach hstep).unwritten_or ⟨hinv.1.1, hinv.2⟩ with
    hun | ⟨j', b', rop, after', hw', hok, -⟩
  · exact absurd hw hun.not_wrote
  obtain ⟨rfl, rfl, rfl, rfl⟩ := hw'.unique hw
  obtain ⟨t, r₀, hst, hunder, hspared⟩ := hok
  refine ⟨t, r₀, hst, hspared, fun hcond => ?_⟩
  have hclaim := hunder hcond ((htimely hcond).delete hw t ⟨r₀, hst⟩)
  obtain ⟨j, hst', hheld⟩ := hinv.2.standing hclaim
  obtain rfl := (htimely hcond).stamps ⟨r₀, hst⟩ hst'
  exact ⟨hclaim, hheld⟩

/-! ### A destroy in time, and one whose claim was cleared under it -/

def Event.stamps (i : Nat) (b : BranchId) (t : Nat) : Event → Bool
  | .stamped i' b' t' _ => i' = i && b' = b && t' = t
  | _ => false

theorem World.Stamped.of_any {t : Nat} (h : w.log.any (·.stamps i b t) = true) :
    w.Stamped i b t := by
  obtain ⟨e, he, hst⟩ := any_eq_true.mp h
  cases e with
  | stamped i' b' t' r₀ =>
    obtain ⟨⟨rfl, rfl⟩, rfl⟩ : (_ ∧ _) ∧ _ := by simpa [Event.stamps] using hst
    exact ⟨r₀, he⟩
  | _ => cases hst

/-- No claim is taken off, and the step is in time. -/
def World.timely (w w' : World) : Bool :=
  ((World.newsSince w w').all fun
    | .wrote j b .delete _ _ => w.log.all fun
      | .stamped j' b' t _ => !(j' = j && b' = b) || w.clock < t + staleDeletingClaimAfter
      | _ => true
    | .wrote _ _ (.edit .unclaimDelete) _ _ => false
    | _ => true) &&
  w.log.all fun
    | .stamped i b t _ => w.log.all fun
      | .stamped j b' t' _ => !(b' = b && t' = t) || i = j
      | _ => true
    | _ => true

theorem InTime.of_timely (h : c.state.timely c'.state = true) : InTime c c' := by
  simp only [World.timely, Bool.and_eq_true, all_eq_true] at h
  have hnone {j : Nat} {b : BranchId} {after : Option Ref} :
      ¬ Wrote c.state c'.state j b (.edit .unclaimDelete) after := fun hw => by
    cases h.1 _ hw.mem_news
  refine ⟨⟨?_, fun hw => absurd hw hnone, ?_⟩, fun hw => absurd hw hnone⟩
  · rintro j b after hw t ⟨r₀, hst⟩
    have := h.1 _ hw.mem_news
    simp only [all_eq_true] at this
    simpa using this _ hst
  · rintro i j b t ⟨r, hi⟩ ⟨r', hj⟩
    have := h.2 _ hi
    simp only [all_eq_true] at this
    simpa using this _ hj

theorem TimelyRun.of_reachIf
    (h : ReachIf (fun w w' => w.timely w' = true) (system env enabled) c c') :
    TimelyRun env enabled c c' :=
  Relation.ReflTransGen.mono (fun _ _ hstep => ⟨hstep.1, fun _ => .of_timely hstep.2⟩) _ _ h

def Env.bucketOneClock : Env := { Env.bucket with oneClock := true }

/-- A branch is made, its protection is taken off, and it is claimed. -/
def claimedBranch : List (Move Oracle Op) :=
  [.start 0 (.create "db" ⟨512, [⟨512, 1⟩]⟩), .run 0 .fine 7,
    .start 1 (.protect ⟨"db", "main"⟩ false 1), .run 1 .fine 4,
    .start 2 (.destroy 0 ⟨"db", "main"⟩ false), .run 2 .fine 7]

instance : DecidablePred fun op : Op => op.spares = true := fun _ => inferInstance

/-- The branch is claimed, and its destroy has no answer to the delete it sent. -/
def unansweredDelete : List (Move Oracle Op) :=
  claimedBranch ++ [.run 2 { Oracle.fine with fail := true, fate := .pending } 1,
    .start 3 (.land 0)]

/-- In the last step of a timely run, taken by thread `i`, the destroy's delete removes
the branch under its claim. -/
def RemovesClaimed (m : List (Move Oracle Op)) (i : Nat) : Prop :=
  ∃ c c' : Config World Oracle Op,
    Config.playIf (system .bucketOneClock (·.spares = true)) World.timely m (.init .empty) =
      some c ∧
    c.runs i .fine 1 = some c' ∧ Wrote c.state c'.state 2 ⟨"db", "main"⟩ .delete none ∧
    ∃ t, c.state.Claim ⟨"db", "main"⟩ t ∧ c.state.HeldOff 2 ⟨"db", "main"⟩ t

set_option maxRecDepth 8192 in
theorem destroy_spares_branch_in_use_claimed :
    RemovesClaimed claimedBranch 2 ∧ RemovesClaimed unansweredDelete 3 := by
  have hremoves (m : List (Move Oracle Op)) (i : Nat) (op : Op)
      (h : ((Config.playIf (system .bucketOneClock (·.spares = true)) World.timely m
        (.init .empty)).any fun c => (c.runs i .fine 1).any fun c' =>
          (c.threads i).map (·.1) = some op ∧ c.state.timely c'.state ∧
          RefOp.delete.apply (c.state.refs.lookup ⟨"db", "main"⟩) = some none ∧
          c'.state.refs = (c.state.setRef ⟨"db", "main"⟩ none).refs ∧
          c'.state.log = .wrote 2 ⟨"db", "main"⟩ .delete
            (c.state.refs.lookup ⟨"db", "main"⟩) none :: c.state.log) = true) :
      RemovesClaimed m i := by
    obtain ⟨c, hc, h⟩ := (Option.any_eq_true _ _).mp h
    obtain ⟨c', hc', h⟩ := (Option.any_eq_true _ _).mp h
    obtain ⟨hop, htimely, happly, hrefs, hlog⟩ := of_decide_eq_true h
    have hw := Wrote.of_eq happly hrefs hlog
    obtain ⟨t, r₀, -, -, hheld⟩ := (destroy_spares_branch_in_use
      (rfl : Env.bucketOneClock.oneClock = true) (fun _ h => h)
      (.of_reachIf (Config.playIf_reachIf (fun _ _ h => h) hc)) (Config.runs_one hc' hop)
      fun _ => .of_timely htimely).1 2 _ _ hw
    exact ⟨c, c', hc, hc', hw, t, hheld rfl⟩
  exact ⟨hremoves _ _ (.destroy 0 ⟨"db", "main"⟩ false) (by decide),
    hremoves _ _ (.land 0) (by decide)⟩

def Event.claims (b : BranchId) (t : Nat) : Event → Bool
  | .wrote _ b' (.edit (.claimDelete t')) _ _ => b' = b && t' = t
  | _ => false

instance (b : BranchId) : DecidablePred (Event.acquires b) := fun e => by
  delta Event.acquires
  cases e <;> infer_instance

theorem World.HeldOff.not_acquired {t : Nat} (h : w.HeldOff j b t) :
    ∀ e ∈ w.log.takeWhile fun e => !e.claims b t, ¬ e.acquires b := by
  obtain ⟨news, old, before, after, hlog, hnews⟩ := h
  rw [hlog]
  clear hlog
  -- the claim stops the search, so what is found lies in `news`
  induction news with
  | nil => simp [Event.claims]
  | cons e news ih =>
    rw [forall_mem_cons] at hnews
    rw [cons_append, takeWhile_cons]
    split
    · simpa using ⟨hnews.1, ih hnews.2⟩
    · simp

/-- The cleaner reads the clock and lists the refs; more than a minute later a
destroy claims the branch and is about to delete it; the cleaner takes the claim,
which lies ahead of its clock, for one that no destroy has made, and a lease is
granted. -/
def clearedClaim : List (Move Oracle Op) :=
  [.start 0 (.create "db" ⟨512, [⟨512, 1⟩]⟩), .run 0 .fine 7,
    .start 1 (.protect ⟨"db", "main"⟩ false 1), .run 1 .fine 4,
    .start 2 .clearStale, .run 2 .fine 2, .start 3 (.tick 70000), .run 3 .fine 1,
    .start 4 (.destroy 0 ⟨"db", "main"⟩ false), .run 4 .fine 7, .run 2 .fine 2,
    .start 5 (.acquire ⟨"db", "main"⟩ 9 1000), .run 5 .fine 5]

set_option maxRecDepth 8192 in
/-- Where deletes are not conditional, a delete that takes effect before its claim is
stale can remove a branch on which a lease was granted after the claim. -/
theorem destroy_deletes_leased_branch :
    ¬ ∀ (env : Env) (c c' : Config World Oracle Op) (i : Nat) (op : Op) (b : BranchId)
      (after : Option Ref) (t : Nat), env.oneClock = true → env.conditionalDelete = false →
      Reach (system env (·.spares = true)) (.init .empty) c →
      StepBy (system env (·.spares = true)) i op c c' →
      Wrote c.state c'.state i b .delete after → c.state.Stamped i b t →
      c.state.clock < t + staleDeletingClaimAfter →
      c.state.HeldOff i b t ∨
        ∀ r, c.state.refs.lookup b = some r → leaseLive r c.state.clock = false := by
  intro hall
  obtain ⟨c, hc, h⟩ := Config.exists_play (c := .init .empty) (m := clearedClaim)
    (Q := fun c => (c.runs 4 .fine 1).any fun c' =>
      (c.state.refs.lookup ⟨"db", "main"⟩).any fun r =>
        (c.threads 4).map (·.1) = some (.destroy 0 ⟨"db", "main"⟩ false) ∧
        RefOp.delete.apply (c.state.refs.lookup ⟨"db", "main"⟩) = some none ∧
        c'.state.refs = (c.state.setRef ⟨"db", "main"⟩ none).refs ∧
        c'.state.log = .wrote 4 ⟨"db", "main"⟩ .delete
          (c.state.refs.lookup ⟨"db", "main"⟩) none :: c.state.log ∧
        c.state.log.any (·.stamps 4 ⟨"db", "main"⟩ 70000) ∧
        c.state.clock < 70000 + staleDeletingClaimAfter ∧
        (∃ e ∈ c.state.log.takeWhile fun e => !e.claims ⟨"db", "main"⟩ 70000,
          e.acquires ⟨"db", "main"⟩) ∧
        leaseLive r c.state.clock = true)
    (s := system .bucketOneClock (·.spares = true)) (by decide)
  obtain ⟨c', hc', h⟩ := (Option.any_eq_true _ _).mp h
  obtain ⟨r, hr, h⟩ := (Option.any_eq_true _ _).mp h
  obtain ⟨hop, happly, hrefs, hlog, hst, hclock, ⟨e, he, hacq⟩, hlive⟩ := of_decide_eq_true h
  rcases hall .bucketOneClock c c' 4 _ _ none 70000 rfl rfl (Config.play_reach hc)
    (Config.runs_one hc' hop) (Wrote.of_eq happly hrefs hlog)
      (.of_any hst) hclock with hheld | hdead
  · exact hheld.not_acquired e he hacq
  · rw [hdead r hr] at hlive
    cases hlive

end Offshoot
