import Offshoot.System.Acquire
import Offshoot.System.BasesSound

/-!
# The lease of a checkpoint is taken or not taken

Any number of threads take the lease of one branch for a checkpoint, among threads that run
any operations.  When such a call returns a lease it has the lease, and the ref it returns
is the one it last read or wrote.  When it returns an error its holder has no lease, unless
it last read the ref under a claim: it then leaves the ref to whoever is removing the
branch.
-/

namespace Offshoot

open Conc Maps List

namespace Acquiring

variable {env : Env} {i : Nat} {b : BranchId} {w : World} {ttl : Nat}
  {check : Nat → Ref → M (Result Unit)} {past : List (Taken World Oracle)}

def reported (i : Nat) (b : BranchId) (r : Result (Lease × Ref)) (w : World) : World :=
  w.note (.returned i b (if r.isOk then .done else .failed))

/-- Threads that run operations, and threads that take the lease of `b` for a checkpoint. -/
def acquiring (env : Env) (b : BranchId) (ttl : Nat) (check : Nat → Ref → M (Result Unit)) :
    System World Oracle (Option Op) where
  prog i op := op.elim
    (acquireCheckpointLease env i b ttl (check i) 2 >>= Prog.returning (reported i b))
    (Op.prog env i)
  enabled _ := True
  crash i w := w.setFlight i none

instance : DecidablePred (acquiring env b ttl check).enabled := fun _ => isTrue trivial

theorem Aside.does {p : M α} (hp : Aside p) {A : Act → Prop} (hA : A .none) : Does env i A p := by
  induction p with
  | ret a => trivial
  | act f k ih =>
    exact ⟨fun o w => ⟨.none, hA, trivial, (hp.1.1 o w).symm⟩, fun a => ih a (hp.2 a)⟩

theorem acquiring_sound (hcheck : ∀ i r, Aside (check i r)) :
    (baseLayer env fun _ _ => True).spec.Sound (acquiring env b ttl check) := by
  refine Layer.sound_of_may (fun _ _ _ => baseLayer_refs) (fun i op w _ _ _ => ?_) fun _ _ _ => ?_
  · cases op with
    | some op => exact op.prog_bases
    | none =>
      have hcall : Does env i (Act.Edits fun _ _ => True)
          (acquireCheckpointLease env i b ttl (check i) 2 >>= Prog.returning (reported i b)) := by
        refine .bind (acquireCheckpointLease_edits trivial trivial fun r =>
          (hcheck i r).does trivial) fun r => ?_
        exact ⟨fun o w => ⟨.note (.returned i b (if r.isOk then .done else .failed)), trivial,
          trivial, rfl⟩, fun _ => trivial⟩
      exact hcall.keeps.bases fun _ h => h.2
  · exact ⟨.flight none, trivial, (fun _ h => by cases h), trivial, trivial, rfl⟩

/-! ## Leases of other threads' making -/

/-- A lease appears on a ref only by an acquire that takes effect. -/
theorem noLease_run {j : Nat} {a : Act} (h : RefsInv env w) (hok : a.ok env j w)
    (hno : w.NoLease i b) : (a.run j w).NoLease i b ∨
      ∃ k ttl t after, Wrote w (a.run j w) k b (.edit (.acquire i ttl t)) after := by
  obtain hun | ⟨k, b', op, after, hwrote, -⟩ := h.effects hok
  · exact .inl fun r hr => hno r (by rw [← hun.lookup, hr])
  by_cases hb : b = b'
  · subst hb
    by_cases hno' : (a.run j w).NoLease i b
    · exact .inl hno'
    simp only [World.NoLease, not_forall, not_not] at hno'
    obtain ⟨r, hr, hh⟩ := hno'
    rw [hwrote.lookup, if_pos rfl] at hr
    subst hr
    obtain ⟨ttl, t, rfl⟩ | ⟨r₀, hr₀, hh₀⟩ := RefOp.holder_of_apply hwrote.apply hh
    · exact .inr ⟨k, ttl, t, _, hwrote⟩
    · exact absurd hh₀ (hno r₀ hr₀)
  · refine .inl fun r hr => hno r ?_
    rw [hwrote.lookup, if_neg hb] at hr
    exact hr

/-- Thread `i` has written no ref, and will not. -/
structure Silent (i : Nat) (w : World) : Prop where
  log : ∀ b op before after, Event.wrote i b op before after ∉ w.log
  pending : ∀ b op before after, Pending.ref i b op before after ∉ w.pending
  deletes : ∀ b, Pending.delete i b ∉ w.pending

theorem Silent.run {j : Nat} {a : Act} (h : Silent i w) (hinv : RefsInv env w) (hok : a.ok env j w)
    (hij : j ≠ i) : Silent i (a.run j w) where
  log b op before after hmem := by
    obtain hun | ⟨k, b', op', after', hwrote, hby⟩ := hinv.effects hok
    · obtain ⟨news, hlog, hnews⟩ := hun.log
      rw [hlog, mem_append] at hmem
      exact hmem.elim (fun hmem => hnews _ hmem _ _ _ _ _ rfl) (h.log _ _ _ _)
    · obtain ⟨news, hlog, hnews⟩ := hwrote.log
      rw [hlog, mem_append, mem_cons] at hmem
      rcases hmem with hmem | heq | hmem
      · obtain ⟨_, _, _, _, heq⟩ := hnews _ hmem
        cases heq
      · cases heq
        obtain ⟨rfl, -⟩ | ⟨r, -, hmem⟩ | ⟨-, hmem⟩ := hby
        · exact hij rfl
        · exact h.pending _ _ _ _ hmem
        · exact h.deletes _ (hmem.subset mem_cons_self)
      · exact h.log _ _ _ _ hmem
  pending b op before after hmem := by
    obtain hmem | ⟨rfl, -⟩ := Act.pending_cases hmem
    · exact h.pending _ _ _ _ hmem
    · exact hij rfl
  deletes b hmem := by
    obtain hmem | ⟨rfl, -⟩ := Act.pending_delete hmem
    · exact h.deletes _ hmem
    · exact hij rfl

/-! ## Whole runs -/

/-- What is assumed of the call of thread `i`, whose past is `past` when it returns in
state `w`. -/
structure Assumed (env : Env) (i : Nat) (b : BranchId) (past : List (Taken World Oracle))
    (w : World) : Prop where
  rereads : ∀ newer z older, past = newer ++ z :: older → z.thread = i → Rereads i b older z
  /-- Its releases succeed: one that finds the lease takes effect, or is tried again. -/
  releases : ∀ newer z older, past = newer ++ z :: older → z.thread = i → Releasing env i b z →
    ∃ x ∈ newer, x.thread = i ∧ ¬ Idle i b x
  /-- Nothing it wrote lands after its last read. -/
  landed : ∀ newer z older, past = newer ++ z :: older → z.thread = i →
    (∀ x ∈ newer, x.thread = i → ¬ Reads i b x) →
    ∀ x ∈ newer, x.thread ≠ i → ∀ b op after, ¬ Wrote x.before x.after i b op after
  /-- Nobody else takes leases for its holder. -/
  holder : ∀ j ttl t before after,
    Event.wrote j b (.edit (.acquire i ttl t)) before after ∈ w.log → j = i

section Runs

variable {c : Config World Oracle (Option Op)}

section

variable (hcheck : ∀ i r, Aside (check i r))

include hcheck

theorem may_of_traced (h : Traced (acquiring env b ttl check) (.init .empty) past c) :
    ∀ x ∈ past, RefsInv env x.before ∧ (refSpec env).may x.thread x.before x.after := by
  intro x hx
  have hmay := h.may (acquiring_sound hcheck) baseLayer_all baseLayer_init x hx
  exact ⟨hmay.1.1, hmay.2.1⟩

theorem mem_log_of_traced {newer older : List (Taken World Oracle)} {z : Taken World Oracle}
    {e : Event} (h : Traced (acquiring env b ttl check) (.init .empty) (newer ++ z :: older) c)
    (he : e ∈ z.after.log) : e ∈ c.state.log := by
  have hmay := may_of_traced hcheck h
  refine h.since (I := fun w => e ∈ w.log) (fun x hx he => ?_) (fun _ _ he => he) he
  obtain ⟨-, a, -, -, hrun⟩ := hmay x (mem_append_left _ hx)
  exact hrun ▸ a.log_run.subset he

/-- An action of another thread puts no lease of the call's holder on the ref, unless a write
of the call lands in it. -/
theorem noLease_after {newer older : List (Taken World Oracle)} {x : Taken World Oracle}
    (h : Traced (acquiring env b ttl check) (.init .empty) (newer ++ x :: older) c)
    (hholder : ∀ j ttl t before after, Event.wrote j b (.edit (.acquire i ttl t)) before after ∈
      c.state.log → j = i)
    (hno : x.before.NoLease i b) (hlanded : ∀ b op after, ¬ Wrote x.before x.after i b op after) :
    x.after.NoLease i b := by
  obtain ⟨hinv, a, hok, -, hrun⟩ := may_of_traced hcheck h x (by simp)
  obtain hno | ⟨k, ttl, t, after, hwrote⟩ := noLease_run hinv hok hno
  · exact hrun ▸ hno
  rw [hrun] at hwrote
  have hmem : Event.wrote k b (.edit (.acquire i ttl t)) (x.before.refs.lookup b) after ∈
      x.after.log := by
    obtain ⟨news, hlog, -⟩ := hwrote.log
    rw [hlog]
    exact mem_append_right _ mem_cons_self
  obtain rfl := hholder _ _ _ _ _ (mem_log_of_traced hcheck h hmem)
  exact absurd hwrote (hlanded _ _ _)

section

variable (h : Traced (acquiring env b ttl check) (.init .empty) past c)

include h

theorem noLease_of_untouched (huntouched : Untouched i past)
    (hholder : ∀ j ttl t before after, Event.wrote j b (.edit (.acquire i ttl t)) before after ∈
      c.state.log → j = i) :
    c.state.NoLease i b := by
  have hkeep : Silent i c.state ∧ c.state.NoLease i b := by
    refine h.preserves (I := fun w => Silent i w ∧ w.NoLease i b) (fun x hx hI => ?_)
      (fun j w hI => ⟨⟨hI.1.log, hI.1.pending, hI.1.deletes⟩, hI.2⟩) ?_
    · by_cases hi : x.thread = i
      · rw [huntouched x hx hi]
        exact hI
      · obtain ⟨hinv, a, hok, -, hrun⟩ := may_of_traced hcheck h x hx
        have hsilent : Silent i x.after := hrun ▸ hI.1.run hinv hok hi
        refine ⟨hsilent, ?_⟩
        obtain ⟨newer, older, rfl⟩ := append_of_mem hx
        refine noLease_after hcheck h hholder hI.2 fun b op after hwrote => ?_
        obtain ⟨news, hlog, -⟩ := hwrote.log
        refine hsilent.log b op (x.before.refs.lookup b) after ?_
        rw [hlog]
        exact mem_append_right _ mem_cons_self
    · refine ⟨⟨fun _ _ _ _ => not_mem_nil, fun _ _ _ _ => not_mem_nil,
        fun _ => not_mem_nil⟩, fun r hr => ?_⟩
      cases hr
  exact hkeep.2

/-- A call that left no lease at its last access has none when it returns. -/
theorem noLease_of_last (hassumed : Assumed env i b past c.state)
    (hlast : Last i b (fun z => z.after.NoLease i b) past) : c.state.NoLease i b := by
  obtain ⟨newer, z, older, rfl, hz, hno, hidle⟩ := hlast
  have hlanded := hassumed.landed newer z older rfl hz fun x hx hi => (hidle x hx hi).unread
  refine h.since (I := fun w => w.NoLease i b) (fun x hx hno => ?_) (fun _ _ hno => hno) hno
  by_cases hi : x.thread = i
  · exact hno.of_refs (hidle x hx hi).refs
  · obtain ⟨newest, between, rfl⟩ := append_of_mem hx
    rw [append_assoc, cons_append] at h
    exact noLease_after hcheck h hassumed.holder hno (hlanded x hx hi)

theorem owner_of_granted {lease : Lease} {ref : Ref} (hgranted : Granted i b lease ref past)
    {x : Holder} (hx : c.state.Owner ref.lineage ref.epoch x) : x = i := by
  obtain ⟨hholder, hon, newer, z, older, rfl, hz, hcur, -⟩ := hgranted
  obtain ⟨hinv, hmay⟩ := may_of_traced hcheck h z (by simp)
  obtain ⟨j, op, before, hmem⟩ := ((refSpec env).inv_may hinv hmay trivial).current hcur
  have hsafe := baseLayer_init.reach (acquiring_sound hcheck) (.of_reach baseLayer_all h.reach)
  have hversion : c.state.Version b ref := ⟨j, op, before, mem_log_of_traced hcheck h hmem⟩
  exact hsafe.inv.1.owner hx ⟨b, ref, hversion, rfl, rfl, hholder ▸ hon.1⟩

end

end

/-- **A checkpoint's lease is taken or not taken.**  A lease the call returns is on the ref it
returns with it, which is the ref stored when the call last read or wrote it, passed the
check (before the lease was put on it, if the call wrote it), and has an epoch that no
other holder was ever granted.  When the call returns an error no lease of its holder is on
the ref, unless a claim was on it when the call last read it. -/
theorem checkpoint_lease_all_or_nothing {P : Nat → Ref → Prop} (hcheck : ∀ i r, Aside (check i r))
    (hP : ∀ i r, (check i r).Returns fun res => res = .ok () → P i r)
    {y : Taken World Oracle} {r : Result (Lease × Ref)} {q : M Unit}
    (hrun : Traced (acquiring env b ttl check) (.init .empty) (y :: past) c)
    (hcall : c.threads y.thread = some (none, q))
    (hreturns : y.prog = Prog.returning (reported y.thread b) r)
    (hassumed : Assumed env y.thread b past y.before) :
    (∀ lease ref, r = .ok (lease, ref) →
      Granted y.thread b lease ref past ∧ Passed y.thread ttl (P y.thread) ref ∧
      ∀ h, y.before.Owner ref.lineage ref.epoch h → h = y.thread) ∧
    ∀ e, r = .error e → y.before.NoLease y.thread b ∨
      Last y.thread b (fun z => Reads y.thread b z ∧ z.before.Claimed b) past := by
  obtain ⟨c₁, op, β, f, k, hpast, -, -, -, hbefore, -⟩ := hrun.last
  rw [hbefore] at hassumed ⊢
  have htells := hrun.returned (A := Rereads y.thread b)
    (Q := Told env y.thread b ttl (P y.thread)) rfl rfl
    (fun past hfresh => acquireCheckpointLease_tells (hcheck _) (hP _)
      (.inl fun x hx hi => absurd hi (hfresh x hx))) hassumed.rereads hreturns hcall
  obtain ⟨others, older, rfl, hothers, htold⟩ := htells
  refine ⟨fun lease ref hr => ?_, fun e hr => ?_⟩
  · subst hr
    obtain ⟨⟨hholder, hon, hlast⟩, hpassed⟩ := htold
    have hgranted : Granted y.thread b lease ref (others ++ older) :=
      ⟨hholder, hon, hlast.others hothers⟩
    exact ⟨hgranted, hpassed, fun h hh => owner_of_granted hcheck hpast hgranted hh⟩
  · subst hr
    obtain huntouched | hsettled := htold
    · refine .inl (noLease_of_untouched hcheck hpast ?_ hassumed.holder)
      exact Steady.untouched.others (b := b) hothers huntouched
    · obtain ⟨newer, z, older', hsplit, hz, hsettled, hidle⟩ := hsettled.others hothers
      rcases hsettled with hno | hclaimed | hreleasing
      · exact .inl
          (noLease_of_last hcheck hpast hassumed ⟨newer, z, older', hsplit, hz, hno, hidle⟩)
      · exact .inr ⟨newer, z, older', hsplit, hz, hclaimed, hidle⟩
      · obtain ⟨x, hx, hi, hbusy⟩ := hassumed.releases newer z older' hsplit hz hreleasing
        exact absurd (hidle x hx hi) hbusy

/-! ## Runs that can be evaluated -/

def wroteBy (i : Nat) : Event → Bool
  | .wrote j .. => j = i
  | _ => false

def acquires (h : Holder) (b : BranchId) : Event → Bool
  | .wrote _ b' (.edit (.acquire h' _ _)) _ _ => b' = b && h' = h
  | _ => false

/-- The call of thread `i` reads no ref in vain and finds no lease of its own without a claim,
and nothing it wrote lands late. -/
def keeps (i : Nat) (b : BranchId) (x : Taken World Oracle) : Bool :=
  if x.thread = i then
    (!x.oracle.fail || decide (x.after.log.length ≠ x.before.log.length)) &&
      (x.before.refs.lookup b).all fun r => r.leaseHolder ≠ some i || r.deleting || r.reaping
  else (World.newsSince x.before x.after).all fun e => !wroteBy i e

theorem assumed_of_keeps (h : Traced (acquiring env b ttl check) (.init .empty) past c)
    (hkeeps : ∀ x ∈ past, keeps i b x)
    (hholder : c.state.log.all fun e => !acquires i b e || wroteBy i e) :
    Assumed env i b past c.state where
  rereads newer z older hpast hz hread _ := by
    have hz' := hkeeps z (by simp [hpast])
    rw [keeps, if_pos hz, Bool.and_eq_true, Bool.or_eq_true, decide_eq_true_eq] at hz'
    obtain ⟨β, f, k, hprog, hafter⟩ := h.acted z (by simp [hpast])
    cases hfail : z.oracle.fail with
    | false => rfl
    | true =>
      rw [hread.failed hprog hafter hfail, hfail] at hz'
      simp at hz'
  releases newer z older hpast hz hreleasing := by
    have hz' := hkeeps z (by simp [hpast])
    rw [keeps, if_pos hz, Bool.and_eq_true, Option.all_eq_true] at hz'
    obtain ⟨-, hlease, hunclaimed⟩ := hreleasing
    simp only [World.NoLease, not_forall, not_not] at hlease
    obtain ⟨r, hr, hh⟩ := hlease
    refine absurd ⟨r, hr, ?_⟩ hunclaimed
    simpa [hh] using hz'.2 r hr
  landed newer z older hpast _ _ x hx hi b op after hwrote := by
    have hx' := hkeeps x (by simp [hpast, hx])
    rw [keeps, if_neg hi, all_eq_true] at hx'
    simpa [wroteBy] using hx' _ hwrote.mem_news
  holder j ttl t before after hmem := by
    rw [all_eq_true] at hholder
    simpa [acquires, wroteBy] using hholder _ hmem

theorem refuseIfHeld_unclaimed {ref : Ref} {t : Nat} {force : Bool} {u : Unit}
    (h : refuseIfHeld ref t force = .ok u) : ref.deleting = false ∧ ref.reaping = false := by
  unfold refuseIfHeld at h
  split at h
  · cases h
  split at h
  · cases h
  · simp_all

/-- The check of a checkpoint passes only refs that no one is removing and that do not have its
name yet. -/
theorem checkpointCheck_returns {host : Nat} {name : String} {opts : CheckpointOptions} {r : Ref} :
    (checkpointCheck env i host b name opts r).Returns fun res => res = .ok () →
      r.deleting = false ∧ r.reaping = false ∧ r.checkpoints.lookup name = none := by
  refine Prog.Returns.bind .any fun t _ => ?_
  dsimp only
  split
  · exact fun h => by cases h
  rename_i hfree
  refine Prog.Returns.bind .any fun co _ => fun hpass => ?_
  have hclaims : r.deleting = false ∧ r.reaping = false := by
    have hguard := refuseIfHeld_unclaimed hfree
    split at hguard <;> exact hguard
  refine ⟨hclaims.1, hclaims.2, ?_⟩
  unfold checkpointPreconditions at hpass
  split at hpass
  · cases hpass
  · rename_i hname
    exact Option.not_isSome_iff_eq_none.mp hname

end Runs

def branch : BranchId := ⟨"db", "main"⟩

def sampleSystem (env : Env) : System World Oracle (Option Op) :=
  acquiring env branch 60000 fun i => checkpointCheck env i 0 branch "cp" ⟨false, false, 60000⟩

instance (env : Env) : DecidablePred (sampleSystem env).enabled := fun _ => isTrue trivial

def opened : List (Move Oracle (Option Op)) :=
  [.start 0 (some (.create "db" ⟨512, [⟨512, 1⟩]⟩)), .run 0 .fine 7,
    .start 1 (some (.checkout 0 branch 5)), .run 1 .fine 12, .start 2 none, .run 2 .fine 4]

def taken : List (Move Oracle (Option Op)) := opened ++ [.run 2 .fine 1]

/-- The write lands but reports a conflict, and a destroy claims the branch; the call leaves the
lease to the destroy, which then finds the checkout open and takes its claim back. -/
def withdrawn : List (Move Oracle (Option Op)) :=
  opened ++ [.run 2 ⟨true, true, .landed, false, 0⟩ 1,
    .start 3 (some (.destroy 0 branch true)), .run 3 .fine 5, .run 2 .fine 3,
    .run 3 ⟨false, false, .lost, true, 0⟩ 1, .run 3 .fine 2]

def ended (c : Config World Oracle (Option Op)) : Bool :=
  match c.threads 2 with
  | some (none, .ret ()) => true
  | _ => false

/-- The next action of thread 2 ends its call, with outcome `out`. -/
def returnsNext (out : Outcome) (c : Config World Oracle (Option Op)) : Bool :=
  (c.state.log.all fun e => !acquires 2 branch e || wroteBy 2 e) &&
    (c.runs 2 .fine 1).any fun c' =>
      ended c' && decide (c'.state.log.head? = some (.returned 2 branch out))

theorem of_returnsNext {moves : List (Move Oracle (Option Op))} {out : Outcome} {Q : World → Bool}
    (h : ((Config.init World.empty).playTested (sampleSystem env) (keeps 2 branch) moves).any
      fun c => returnsNext out c && Q c.state) :
    ∃ past y c r, Traced (sampleSystem env) (.init .empty) (y :: past) c ∧
      c.threads y.thread = some (none, .ret ()) ∧
      y.prog = Prog.returning (reported y.thread branch) r ∧
      Assumed env y.thread branch past y.before ∧ y.thread = 2 ∧ Q y.before ∧
      out = (if r.isOk then .done else .failed) := by
  obtain ⟨c, hc, h⟩ := (Option.any_eq_true _ _).mp h
  rw [Bool.and_eq_true, returnsNext, Bool.and_eq_true] at h
  obtain ⟨⟨hholder, hnext⟩, hQ⟩ := h
  obtain ⟨c', hc', hnext⟩ := (Option.any_eq_true _ _).mp hnext
  rw [Bool.and_eq_true, decide_eq_true_eq] at hnext
  have hend : c'.threads 2 = some (none, .ret ()) := by
    have hended := hnext.1
    unfold ended at hended
    split at hended
    · assumption
    · cases hended
  obtain ⟨past, htraced, hkeeps⟩ := Traced.start.playTested (by simp) hc
  obtain ⟨y, r, hrun, hy, hprog, hbefore, hstate⟩ := htraced.hands_over rfl rfl hc' hend
  refine ⟨past, y, c', r, hrun, hy ▸ hend, hy ▸ hprog, ?_, hy, hbefore ▸ hQ, ?_⟩
  · rw [hy, hbefore]
    exact assumed_of_keeps htraced hkeeps hholder
  · have hhead := hnext.2
    rw [hstate] at hhead
    simpa [reported, World.note] using hhead.symm

theorem checkpoint_lease_all_or_nothing_taken : ∃ past y c lease ref,
    Traced (sampleSystem .bucket) (.init .empty) (y :: past) c ∧
    y.prog = Prog.returning (reported y.thread branch) (.ok (lease, ref)) ∧
    Granted y.thread branch lease ref past ∧
    Passed y.thread 60000 (fun r => r.deleting = false ∧ r.reaping = false ∧
      r.checkpoints.lookup "cp" = none) ref ∧
    ∀ h, y.before.Owner ref.lineage ref.epoch h → h = y.thread := by
  obtain ⟨past, y, c, r, hrun, hend, hprog, hassumed, -, -, hout⟩ :=
    @of_returnsNext .bucket taken .done (fun _ => true) (by decide +kernel)
  have hboth := checkpoint_lease_all_or_nothing (fun _ _ => checkpointCheck_aside)
    (fun _ _ => checkpointCheck_returns) hrun hend hprog hassumed
  cases r with
  | error e => cases hout
  | ok got => exact ⟨past, y, c, got.1, got.2, hrun, hprog, hboth.1 got.1 got.2 rfl⟩

/-- The claim may be gone by the time the call returns. -/
theorem checkpoint_lease_left_behind : ¬ ∀ (past : List (Taken World Oracle))
    (y : Taken World Oracle) (c : Config World Oracle (Option Op)) (q : M Unit)
    (r : Result (Lease × Ref)),
    Traced (sampleSystem .bucket) (.init .empty) (y :: past) c →
    c.threads y.thread = some (none, q) →
    y.prog = Prog.returning (reported y.thread branch) r →
    Assumed .bucket y.thread branch past y.before →
    ∀ e, r = .error e → y.before.NoLease y.thread branch ∨ y.before.Claimed branch := by
  intro hall
  obtain ⟨past, y, c, r, hrun, hend, hprog, hassumed, hy, hheld, hout⟩ :=
    @of_returnsNext .bucket withdrawn .failed
      (fun w => (w.refs.lookup branch).any fun r =>
        r.leaseHolder = some 2 && !r.deleting && !r.reaping) (by decide +kernel)
  obtain ⟨ref, href, hheld⟩ := (Option.any_eq_true _ _).mp hheld
  simp only [Bool.and_eq_true, decide_eq_true_eq, Bool.not_eq_true'] at hheld
  obtain ⟨⟨hlease, hdeleting⟩, hreaping⟩ := hheld
  cases r with
  | ok got => cases hout
  | error e =>
    obtain hno | ⟨ref', href', hclaim⟩ := hall past y c _ _ hrun hend hprog hassumed e rfl
    · exact hno ref href (hy ▸ hlease)
    · cases href.symm.trans href'
      simp [hdeleting, hreaping] at hclaim

end Acquiring

end Offshoot
