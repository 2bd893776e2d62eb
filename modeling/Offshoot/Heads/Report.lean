import Offshoot.Heads.Flush

/-!
# What a checkpoint reports

`commitCheckpoint` reports an object deletable once the head write that names it has not
landed and cannot.  That keeps every chain away from the object as long as the head write
that took its txid keeps its own: a session that removes the object of a head write that
landed makes the chains fall back on the one reported deletable.
-/

namespace Offshoot

open Conc Maps

variable {env : Env} {w : World} {i host : Nat} {b : BranchId} {l : Lineage} {e t : Nat}
  {enabled : Op → Prop} {name : String} {fuel : Nat} {opts : CheckpointOptions} {lease : Lease}
  {ref : Ref} {u : Upload}

/-- The head layer with no removal assumed away: what a checkpoint's program does in it,
it does whatever the others remove. -/
abbrev headSpec (env : Env) : Spec World := (headLayer env fun _ _ => True).spec

theorem flushLayer_within : (flushLayer env).spec.Within (headSpec env) :=
  ⟨id, fun h _ => h, fun h => ⟨h.1, trivial⟩⟩

theorem headSpec_assumed {w' : World} : (headSpec env).assumed w w' :=
  ⟨⟨trivial, trivial⟩, trivial⟩

/-! ## What sessions remove -/

variable {c c' : Config World Oracle Op}

/-- A run in which what sessions remove is spent: no head write that landed names it, and
none that is on its way can. -/
def SessionsSpare (env : Env) (enabled : Op → Prop) :
    Config World Oracle Op → Config World Oracle Op → Prop :=
  Relation.ReflTransGen fun c c' => ∃ i op, StepBy (system env enabled) i op c c' ∧
    (op.atRest = false → RemovesSpent c.state c'.state)

theorem SessionsSpare.of_reachIf (h : ReachIf RemovesSpent (system env enabled) c c') :
    SessionsSpare env enabled c c' := by
  refine Relation.ReflTransGen.mono (fun _ _ hstep => ?_) _ _ h
  obtain ⟨⟨i, op, hby⟩, hrem⟩ := hstep
  exact ⟨i, op, hby, fun _ => hrem⟩

theorem Act.clears.removesSpent {a : Act} (hcl : a.clears i w) (hr : RefsInv env w)
    (h : HeadInv w) : RemovesSpent w (a.run i w) := by
  intro k hk hgone l e t hs
  rcases Act.mem_objs (i := i) (a := a) hk with hk | rfl | ⟨time, rfl⟩
  · exact absurd hk hgone
  · rcases hcl l e t hs with hle | ⟨-, hspent⟩
    · -- No lease is of the first epoch, so no head is moved under it.
      refine ⟨fun {d} hd _ he => ?_, fun {j b op before after d} hp hd _ he => ?_⟩
      · have := hr.epoch_owner (h.owner hd)
        omega
      · have := hr.epoch_owner (h.sent j b op before after hp d hd).2.1
        omega
    · exact hspent
  · exact hcl.elim

section Runs

variable (hop : ∀ op, enabled op → op.collects = false)

include hop

theorem atRest_removes_spent {op : Op}
    (h : ReachIf RemovesSpent (system env enabled) (.init .empty) c)
    (hstep : StepBy (system env enabled) i op c c') (hrest : op.atRest = true) :
    RemovesSpent c.state c'.state := by
  have hc := flushLayer_init.reach (flushLayer_sound hop) (reachIf_heads h)
  have hguard := flushLayer_init.step_guarantee (flushLayer_sound hop) flushLayer_within
    (G := fun i op w w' => op.atRest = true → HeadStep env (fun _ _ => True) i w w')
    (fun i op w _ _ hfresh => by
      by_cases hrest : op.atRest = true
      · exact Spec.Holds.weaken (fun _ _ h _ => h) (op.prog_atRest hrest hfresh.2)
      · exact Spec.Holds.any.weaken fun _ _ _ h => absurd h hrest)
    (reachIf_heads h) hstep headSpec_assumed
  rcases hguard with heq | heq | hmay
  · exact fun k hk hgone => absurd (heq ▸ hk) hgone
  · exact fun k hk hgone => absurd (heq ▸ hk) hgone
  · obtain ⟨a, -, -, hcl, -, hrun⟩ := hmay hrest
    exact hrun ▸ hcl.removesSpent hc.inv.1.1 hc.inv.2

theorem SessionsSpare.reachIf (h : ReachIf RemovesSpent (system env enabled) (.init .empty) c)
    (hlater : SessionsSpare env enabled c c') :
    ReachIf RemovesSpent (system env enabled) c c' := by
  induction hlater with
  | refl => exact .refl
  | tail _ hstep ih =>
    obtain ⟨i, op, hby, hspare⟩ := hstep
    refine ih.tail ⟨⟨i, op, hby⟩, ?_⟩
    cases hrest : op.atRest with
    | true => exact atRest_removes_spent hop (h.trans ih) hby hrest
    | false => exact hspare hrest

theorem checkpoint_keeps_to (h : ReachIf RemovesSpent (system env enabled) (.init .empty) c)
    {p : M Unit} (hi : c.threads i = some (.checkpoint host b name fuel opts, p)) :
    (headSpec env).Holds (HeadStep env (Reports i b name) i) i ⊤ p c.state := by
  have hall := flushLayer_init.guarantee (flushLayer_sound hop) flushLayer_within
    (G := fun i op w w' => ∀ host b name fuel opts, op = .checkpoint host b name fuel opts →
      HeadStep env (Reports i b name) i w w')
    (fun i op w _ _ hfresh => by
      cases op with
      | checkpoint host b name fuel opts =>
        refine Spec.Holds.weaken ?_ (checkpoint_heads hfresh.2)
        intro w w' hstep host' b' name' fuel' opts' heq
        cases heq
        exact hstep
      | _ => exact Spec.Holds.any.weaken (by simp))
    (reachIf_heads h) hi
  exact hall.weaken fun _ _ h => h _ _ _ _ _ rfl

end Runs

/-! ## The report -/

theorem headLayer_may_silent {a : Act} {j : Nat} (hok : a.ok env j w) (hnames : a.names = none)
    (hsane : a.vouched SaneWrite j w) (hlays : a.lays BaseOK w) (hh : a.headless) :
    (headSpec env).may j w (a.run j w) := by
  have hname : ∀ l, a.names = some l → w.Draft j l := fun l hl => by
    rw [hnames] at hl
    cases hl
  exact ⟨⟨⟨a, hok, hname, rfl⟩, a, hok, hname, hsane, hlays, rfl⟩, a, hok, hh.vouched hok,
    hh.clears, trivial, rfl⟩

theorem ended_of_report {x : Err} (hinv : (headSpec env).inv w) (hs : u.key.slot = some (l, e, t))
    (h : (headSpec env).Holds (HeadStep env (Reports i b name) i) i
      ⊤ (finishCheckpoint env i host b lease ref u (.error (x, true))) w) : Ended i l e t w := by
  -- Were the object not there, another could put one there.
  have hbase (l : Lineage) : u.key ≠ .base l := fun h => DataKey.slot_base (h ▸ hs)
  have hmay : (headSpec env).may (i + 1) w
      (Act.run (i + 1) w (.put u.key u.obj)) :=
    headLayer_may_silent trivial rfl trivial (fun l hl => absurd hl (hbase l)) trivial
  have hinv' := (headSpec env).inv_may hinv hmay headSpec_assumed
  obtain ⟨⟨a, -, -, hcl, hrep, hrun⟩, -⟩ := h _
    (.single ⟨i + 1, by omega, hinv, hmay, headSpec_assumed⟩) hinv' .fine headSpec_assumed
  have hmem : u.key ∈ (Act.run (i + 1) w (.put u.key u.obj)).objs :=
    AList.mem_insert _ |>.mpr (.inl rfl)
  have hgone : u.key ∉ (a.run i (Act.run (i + 1) w (.put u.key u.obj))).objs := by
    rw [hrun]
    show u.key ∉ AList.erase u.key _
    simp
  rcases Act.mem_objs (i := i) (a := a) hmem with hk | rfl | ⟨time, rfl⟩
  · exact absurd hk hgone
  · obtain ⟨hheld, hspent⟩ := hrep.ended _ l e t rfl hs
    exact ⟨hheld, hspent.moved, hspent.sent⟩
  · exact hcl.elim

theorem Act.eq_note_of_run {a : Act} {ev : Event} (hev : ev.call)
    (h : (a.run i w).log = ev :: w.log) : a = .note ev := by
  have hsame (h : w.log = ev :: w.log) : a = .note ev := by
    have := congrArg List.length h
    simp at this
  cases a with
  | note e => exact congrArg Act.note (List.cons.inj h).1
  | mint | write _ _ _ | grant _ _ _ _ | adopt _ _ _ | effect _ _ _ | sweep _ _ =>
    obtain ⟨rfl, -⟩ := List.cons.inj h
    exact hev.elim
  | late n =>
    have hwrote {ev' : Event} (he : ¬ ev'.call) (h : ev' :: w.log = ev :: w.log) :
        Act.late n = .note ev := absurd ((List.cons.inj h).1 ▸ hev) he
    revert h
    exact Act.late_elim (fun _ _ _ _ _ => hwrote id) (fun _ _ _ => hwrote id) (fun _ _ _ _ => hsame)
      fun _ => hsame
  | _ => exact hsame h

theorem carried_of_report {v : Ref} (hinv : (headSpec env).inv w)
    (h : (headSpec env).Holds (HeadStep env (Reports i b name) i) i
      ⊤ (finishCheckpoint env i host b lease ref u (.ok v)) w) :
    w.Carried i b name (ref.headTXID + 1) := by
  have hcheckout {j : Nat} {w : World} (c : Checkout) :
      (headSpec env).may j w (w.setCheckout host b c) :=
    headLayer_may_silent (a := .checkout host b c) trivial rfl trivial trivial trivial
  -- With a file there, what is left can go on to report success without touching a ref.
  obtain ⟨w₁, hw₁⟩ : ∃ w₁, w₁ = w.setCheckout host b ⟨some ⟨0, []⟩, 0, none, none⟩ := ⟨_, rfl⟩
  have hfile :
      w₁.checkouts host b = ⟨some ⟨0, []⟩, 0, none, none⟩ := by simp [hw₁, World.setCheckout]
  have hmay : (headSpec env).may (i + 1) w w₁ := hw₁ ▸ hcheckout _
  have hinv₁ := (headSpec env).inv_may hinv hmay headSpec_assumed
  obtain ⟨-, h⟩ := h w₁ (.single ⟨i + 1, by omega, hinv, hmay, headSpec_assumed⟩) hinv₁
    { Oracle.fine with fail := true } headSpec_assumed
  obtain ⟨-, h⟩ := h w₁ .refl hinv₁ .fine headSpec_assumed
  simp only [hfile] at h
  obtain ⟨-, h⟩ := h w₁ .refl hinv₁ { Oracle.fine with yes := false } headSpec_assumed
  have hinv₂ {w : World} (hinv : (headSpec env).inv w) (c : Checkout) :
      (headSpec env).inv (w.setCheckout host b c) :=
    (headSpec env).inv_may hinv (hcheckout (j := i) c) headSpec_assumed
  have hstamp := hinv₂ hinv₁ { w₁.checkouts host b with
    sum := some ⟨none, ref.lineage, lease.epoch, ref.headTXID + 1, none, false, []⟩ }
  obtain ⟨-, h⟩ := h w₁ .refl hinv₁ .fine headSpec_assumed
  obtain ⟨-, h⟩ := h _ .refl hstamp .fine headSpec_assumed
  obtain ⟨-, h⟩ := h _ .refl (hinv₂ hstamp _) .fine headSpec_assumed
  obtain ⟨⟨a, -, -, -, hrep, hrun⟩, -⟩ :=
    h _ .refl (hinv₂ (hinv₂ hstamp _) _) .fine headSpec_assumed
  have hnote : a = .note (.returned i b (.committed (ref.headTXID + 1))) :=
    Act.eq_note_of_run trivial (congrArg World.log hrun)
  obtain ⟨r, cp, hcp⟩ := hrep.carried _ hnote
  subst hw₁
  exact ⟨r, cp, hcp⟩

theorem finishCheckpoint_moveless {x : Err} {deletable : Bool} : Does env i Act.moveless
    (finishCheckpoint env i host b lease ref u (.error (x, deletable))) := by
  have hrelease : Does env i Act.moveless (releaseCheckpointLease env i b lease 3) :=
    (releaseCheckpointLease_writes (W := ⊤) trivial).mono
      fun _ h => h.edits.headless.moveless
  refine .bind (.bind ?_ fun r => ?_) fun r => note_does trivial trivial
  · unfold afterCommit
    dsimp only
    split
    · exact .bind (deleteObj_does trivial trivial) .ret
    · exact .pure _
  · cases r with
    | ok txid => exact .pure _
    | error e => exact .bind hrelease .ret

/-- Once the move of a slot can no longer be made and its thread moves no head, it is
not made later. -/
theorem Ended.later (hop : ∀ op, enabled op → op.collects = false)
    (hc : Safe (flushLayer env).spec c) (h : Ended i l e t c.state)
    (hi : ∃ op p, c.threads i = some (op, p) ∧ Does env i Act.moveless p)
    (hlater : ReachIf RemovesSpent (system env enabled) c c') :
    Ended i l e t c'.state ∧ Safe (flushLayer env).spec c' := by
  suffices hall : Ended i l e t c'.state ∧ Safe (flushLayer env).spec c' ∧
      ∃ op p, c'.threads i = some (op, p) ∧ Does env i Act.moveless p from ⟨hall.1, hall.2.1⟩
  induction hlater with
  | refl => exact ⟨h, hc, hi⟩
  | @tail c₁ c₂ _ hstep ih =>
    obtain ⟨h, hc, hi⟩ := ih
    obtain ⟨⟨j, op, hby⟩, hrem⟩ := hstep
    have has : (flushLayer env).spec.assumed c₁.state c₂.state := ⟨⟨trivial, trivial⟩, hrem⟩
    refine ⟨?_, hc.step (flushLayer_sound hop) ⟨j, op, hby⟩ has, hby.keeps_all hi⟩
    have hrun {a : Act} (hok : a.ok env j c₁.state) (hv : a.vouched HeadReady j c₁.state)
        (hm : j = i → a.moveless) : Ended i l e t (a.run j c₁.state) :=
      h.run hc.inv.1.1 hc.inv.2 hok hv hm
    by_cases hij : j = i
    · -- Its own thread: what is left of it moves no head.
      subst hij
      obtain ⟨op', p, hp, hdoes⟩ := hi
      cases hby with
      | spawn hnone _ => simp [hnone] at hp
      | run o hj =>
        cases hj.symm.trans hp
        obtain ⟨a, ha, hok, heq⟩ := hdoes.1 o c₁.state
        rw [← heq]
        exact hrun hok (ha.vouched hok) fun _ => ha
      | crash _ => exact hrun (a := .flight none) trivial trivial fun _ => trivial
    · rcases hc.may (flushLayer_sound hop) hby has with heq | hmay
      · exact heq ▸ h
      · obtain ⟨-, a, hok, hv, -, -, heq⟩ := hmay
        rw [← heq]
        exact hrun hok hv fun hji => absurd hji hij

/-- If what sessions remove is only objects whose head write has not landed and cannot
land any more: when `commitCheckpoint` reports the object deletable, no ref is or will be
at its lineage, epoch and txid, and no chain reads it or will; when it reports success, a
record of the branch has carried the checkpoint. -/
theorem commitCheckpoint_report {env : Env} {enabled : Op → Prop}
    (hop : ∀ op, enabled op → op.collects = false) {c : Config World Oracle Op}
    (h : SessionsSpare env enabled (.init .empty) c) {i host : Nat} {b : BranchId}
    {name : String} {fuel : Nat} {opts : CheckpointOptions} {lease : Lease} {ref : Ref} {u : Upload}
    {res : Except (Err × Bool) Ref} (hi : c.threads i = some (.checkpoint host b name fuel opts,
      finishCheckpoint env i host b lease ref u res)) :
    (∀ x, res = .error (x, true) → ∀ l e t, u.key.slot = some (l, e, t) →
      ∀ c', SessionsSpare env enabled c c' →
        ∀ b' r, c'.state.refs.lookup b' = some r →
        (r.lineage = l → ¬ r.Point t e) ∧
        ∀ t' ∈ r.txids, ∀ ms, chain c'.state.view r.lineage t' = .ok ms → ∀ m ∈ ms, m.key ≠ u.key) ∧
    ∀ v, res = .ok v → c.state.Carried i b name (ref.headTXID + 1) := by
  replace h := h.reachIf hop .refl
  have hc := flushLayer_init.reach (flushLayer_sound hop) (reachIf_heads h)
  have hkeeps := checkpoint_keeps_to hop h hi
  constructor
  · rintro x rfl l e t hs c' hlater b' r hcur
    have hend := ended_of_report hc.inv hs hkeeps
    obtain ⟨hend', hc'⟩ := hend.later hop hc ⟨_, _, hi, finishCheckpoint_moveless⟩
      (hlater.reachIf hop h)
    have hv := hc'.inv.1.1.current hcur
    exact ⟨hend'.not_point hc'.inv.2 hv, fun t' ht' ms hms =>
      hend'.held.not_read hend'.spent.moved hc'.inv.1.2 hc'.inv.2 hs hv ht' hms⟩
  · rintro v rfl
    exact carried_of_report hc.inv hkeeps

def atRestCheckpoint : Op := .checkpoint 0 ⟨"db", "main"⟩ "one" 9 ⟨true, false, 5⟩

def uploadedCheckpoint : List (Move Oracle Op) :=
  [.start 0 (.create "db" ⟨512, [⟨512, 1⟩]⟩), .run 0 .fine 7,
    .start 1 (.checkout 0 ⟨"db", "main"⟩ 9), .run 1 .fine 12,
    .start 2 atRestCheckpoint, .run 2 .fine 13]

def lapsed : Oracle := { Oracle.fine with num := 6 }

/-- A session of another host takes the lapsed lease over and uploads its own object for
the txid. -/
def takenOver : List (Move Oracle Op) :=
  uploadedCheckpoint ++ [.start 3 (.session 1 ⟨"db", "main"⟩ 100 9 none [.flush none]),
    .run 3 lapsed 16,
    .start 4 (.captureRebase 3 ⟨512, [⟨512, 2⟩]⟩), .run 4 .fine 1, .run 3 lapsed 11]

/-- The session's head write lands before the read that precedes the checkpoint's. -/
def outrun : List (Move Oracle Op) := takenOver ++ [.run 3 lapsed 1, .run 2 .fine 2]

/-- The checkpoint's head write fails though it landed, and the ref read back shows it. -/
def landedUnseen : List (Move Oracle Op) :=
  uploadedCheckpoint ++ [.run 2 .fine 4, .run 2 ⟨true, true, .landed, false, 0⟩ 1, .run 2 .fine 1]

/-- The session's head write lands though it is reported lost; the branch is forked and
moved away, and the session removes its object. -/
def removedUnder : List (Move Oracle Op) :=
  takenOver ++ [.run 3 ⟨true, true, .landed, false, 6⟩ 1,
    .start 5 (.fork 0 ⟨"db", "main"⟩ ⟨"db", "child"⟩ ⟨none, 0, ∅, false⟩ 9), .run 5 .fine 12,
    .start 6 forcedRollback, .run 6 .fine 11, .run 3 lapsed 3, .run 2 .fine 2]

def heldRef : Ref :=
  { lineage := 0, epoch := 2, headTXID := 1, headEpoch := 0
    checkpoints := (∅ : Map String Checkpoint).insert "init" ⟨1, 1, 0⟩
    isProtected := true, leaseHolder := some 2, leaseExpiry := some 5
    ttl := none, touchedAt := some 0, reaping := false, deleting := false
    deletingAt := none, metadata := ∅, base := none }

def firstUpload : Upload :=
  ⟨.snapshot 0 2 2, .snapshot ⟨2, ⟨512, [⟨512, 1⟩]⟩⟩, Image.checksum ⟨512, [⟨512, 1⟩]⟩,
    [.snapshot 0 2 2]⟩

set_option maxRecDepth 8192 in
theorem commitCheckpoint_report_deletable_and_recorded :
    (∃ c, Config.playIf (system .bucket fun op => op.collects = false) World.removesFirst outrun
        (.init .empty) = some c ∧ firstUpload.key ∈ c.state.objs ∧
      ∀ b r, c.state.refs.lookup b = some r → r.lineage = 0 → ¬ r.Point 2 2) ∧
    ∃ c, Config.playIf (system .bucket fun op => op.collects = false) World.removesFirst
        landedUnseen (.init .empty) = some c ∧ c.state.Carried 2 ⟨"db", "main"⟩ "one" 2 := by
  have hfirst : ∀ w w', World.removesFirst w w' = true → RemovesSpent w w' :=
    fun _ _ => World.removesFirst_sound
  constructor
  · obtain ⟨c, hc, hk, hi⟩ : ∃ c : Config World Oracle Op,
        Config.playIf (system .bucket fun op => op.collects = false) World.removesFirst outrun
          (.init .empty) = some c ∧ decide (firstUpload.key ∈ c.state.objs) = true ∧
        c.threads 2 = some (atRestCheckpoint, finishCheckpoint .bucket 2 0 ⟨"db", "main"⟩
          ⟨2, 2, some 5⟩ heldRef firstUpload (.error (.leaseLost, true))) := ⟨_, rfl, rfl, rfl⟩
    have hrep := commitCheckpoint_report (fun _ h => h)
      (.of_reachIf (Config.playIf_reachIf hfirst hc)) hi
    exact ⟨c, hc, of_decide_eq_true hk, fun b r hr =>
      (hrep.1 _ rfl 0 2 2 rfl c .refl b r hr).1⟩
  · obtain ⟨c, hc, hi⟩ : ∃ c : Config World Oracle Op,
        Config.playIf (system .bucket fun op => op.collects = false) World.removesFirst
          landedUnseen (.init .empty) = some c ∧
        c.threads 2 = some (atRestCheckpoint, finishCheckpoint .bucket 2 0 ⟨"db", "main"⟩
          ⟨2, 2, some 5⟩ heldRef firstUpload (.ok heldRef)) := ⟨_, rfl, rfl⟩
    exact ⟨c, hc, (commitCheckpoint_report (fun _ h => h)
      (.of_reachIf (Config.playIf_reachIf hfirst hc)) hi).2 heldRef rfl⟩

set_option maxRecDepth 8192 in
/-- The object is reported deletable while the fork's head reads it. -/
theorem commitCheckpoint_reports_what_a_fork_reads :
    ¬ ∀ (env : Env) (enabled : Op → Prop) (c : Config World Oracle Op) (i host : Nat)
      (b : BranchId) (name : String) (fuel : Nat) (opts : CheckpointOptions) (lease : Lease)
      (ref : Ref) (u : Upload) (x : Err), (∀ op, enabled op → op.collects = false) →
      Reach (system env enabled) (.init .empty) c →
      c.threads i = some (.checkpoint host b name fuel opts,
        finishCheckpoint env i host b lease ref u (.error (x, true))) →
      ∀ b' r, c.state.refs.lookup b' = some r → ∀ t ∈ r.txids, ∀ ms,
        chain c.state.view r.lineage t = .ok ms → ∀ m ∈ ms, m.key ≠ u.key := by
  intro hall
  obtain ⟨c, hc, hi⟩ : ∃ c : Config World Oracle Op,
      Config.play (system .bucket fun op => op.collects = false) removedUnder (.init .empty) =
        some c ∧
      c.threads 2 = some (atRestCheckpoint, finishCheckpoint .bucket 2 0 ⟨"db", "main"⟩
        ⟨2, 2, some 5⟩ heldRef firstUpload (.error (.leaseLost, true))) := ⟨_, rfl, rfl⟩
  obtain ⟨c', hc', h⟩ := Config.exists_play (c := .init .empty) (m := removedUnder)
    (Q := fun c => (c.state.refs.lookup ⟨"db", "child"⟩).any fun r =>
      (chain c.state.view r.lineage r.headTXID).toOption.any fun ms =>
        ms.any (·.key = firstUpload.key))
    (s := system .bucket fun op => op.collects = false) (by decide +kernel)
  obtain rfl : c = c' := Option.some.inj (hc.symm.trans hc')
  obtain ⟨r, hr, h⟩ := (Option.any_eq_true _ _).mp h
  obtain ⟨ms, hms, h⟩ := (Option.any_eq_true _ _).mp h
  obtain ⟨m, hm, hkey⟩ := List.any_eq_true.mp h
  exact hall .bucket _ c 2 0 ⟨"db", "main"⟩ "one" 9 ⟨true, false, 5⟩ _ _ firstUpload _
    (fun _ h => h) (Config.play_reach hc) hi _ r hr r.headTXID (Ref.mem_txids.mpr (.inl rfl)) ms
    (chain_ok_of_toOption hms) m hm (of_decide_eq_true hkey)

end Offshoot
