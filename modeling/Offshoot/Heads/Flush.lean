import Offshoot.Heads.Removals

/-!
# Sessions and the moves

A flush that loses its ref write reads the ref once more and, if that shows another
lineage or the head still below, removes the object it uploaded.  On a backend that may
apply a write it has reported as lost, this reading does not say that the write was not
applied: the branch may have moved on since.  What the removal needs is that no head
write for the slot has landed, and that those still on their way come too late.
-/

namespace Offshoot

open Conc Maps

variable {env : Env} {w w' : World} {i host : Nat} {b : BranchId} {l : Lineage} {e t : Nat}
  {k : DataKey} {P : World → Prop} {W : BranchId → RefOp.Kind → Prop} {enabled : Op → Prop}

/-- No object removed is named by a head write that has landed, or that can still. -/
def RemovesSpent (w w' : World) : Prop :=
  ∀ k ∈ w.objs, k ∉ w'.objs → ∀ l e t, k.slot = some (l, e, t) → w.Spent l e t

/-- The thread removes only objects it has uploaded under a lease of its own. -/
def OwnRemovals (i : Nat) (w : World) (a : Act) : Prop :=
  ∀ k, a = .drop k → ∃ l e t, k.slot = some (l, e, t) ∧ w.Held i l e t

theorem OwnRemovals.silent : Silent (OwnRemovals i) := by
  rintro w a ha k rfl
  exact ha.elim

theorem World.dropObj_of_not_mem (h : k ∉ w.objs) : w.dropObj k = w := by
  have : w.objs.erase k = w.objs := AList.ext (List.kerase_of_notMem_keys h)
  simp [World.dropObj, this]

abbrev flushLayer (env : Env) : Layer (baseLayer env fun _ _ => True).spec :=
  headLayer env RemovesSpent

abbrev FlushOk (env : Env) (i : Nat) (Q : α → World → Prop) (p : M α) (w : World) : Prop :=
  HeadOk env RemovesSpent (OwnRemovals i) i Q p w

/-! ## A flush -/

theorem deleteObj_flushed (hs : k.slot = some (l, e, t)) (hw : w.Held i l e t) :
    FlushOk env i ⊤ (deleteObj k) w := by
  refine Spec.Holds.step Lasts.held.stable hw fun w o _ hw has => ⟨?_, trivial⟩
  have hnone : HeadStep env (OwnRemovals i) i w w := .refl (OwnRemovals.silent w _ trivial)
  have hdrop (has : RemovesSpent w (w.dropObj k)) :
      HeadStep env (OwnRemovals i) i w (w.dropObj k) := by
    by_cases hk : k ∈ w.objs
    · have hspent := has k hk (by simp [World.dropObj]) l e t hs
      refine ⟨.drop k, trivial, trivial, fun l' e' t' hs' => .inr ?_, fun k' hk' => ?_, rfl⟩
      · obtain ⟨rfl, rfl, rfl⟩ : l = l' ∧ e = e' ∧ t = t' := by simpa using hs.symm.trans hs'
        exact ⟨hw, hspent⟩
      · obtain rfl := Act.drop.inj hk'
        exact ⟨l, e, t, hs, hw⟩
    · rw [World.dropObj_of_not_mem hk]
      exact hnone
  replace has := has.2
  cases hf : o.fail with
  | false => exact hdrop (by simpa [hf, headLayer] using has)
  | true =>
    simp only [hf, Bool.not_true, Bool.false_eq_true, if_false] at has ⊢
    split
    · rename_i hfate
      simp only [hfate, if_true] at has
      exact hdrop has
    · exact hnone

variable {ref : Ref} {key : DataKey} {name : Option String} {txid fuel : Nat}

theorem cleanupFlush_heads (hs : key.slot = some (l, e, t)) (hw : w.Held i l e t) :
    FlushOk env i ⊤ (cleanupFlush b ref txid key) w := by
  refine ((getRef_does rfl).reading OwnRemovals.silent Lasts.held hw).bindOk .ret fun cur w hw => ?_
  dsimp only
  split
  · exact (deleteObj_flushed hs hw).bind .ret
  · exact trivial

theorem commitFlush_heads {n : Nat} (hs : key.slot = some (l, e, txid)) (hl : ref.lineage = l)
    (hours : samePremise i e ref ref txid) (hw : Has i l e txid key w) :
    FlushOk env i ⊤ (commitFlush env i b e txid key name n ref) w := by
  have hX : Silent (OwnRemovals i) := OwnRemovals.silent
  have hlasts : Lasts env i (Has i l e txid key) := Has.lasts hs
  induction n generalizing ref w with
  | zero => exact trivial
  | succ n ih =>
    refine ((now_does rfl).reading hX hlasts hw).bind fun createdAt w hw => ?_
    refine ((now_does rfl).reading hX hlasts hw).bind fun touched w hw => ?_
    subst hl
    have happly := RefOp.apply_edit (show RefEdit.edit (.flush ⟨i, e, ref.lineage, txid, key, name,
      createdAt, touched⟩) ref = some (HeadCommit.flushed ⟨i, e, ref.lineage, txid, key, name,
      createdAt, touched⟩ ref) from if_pos (samePremise_ours hours))
    have hhead (c : HeadCommit) : RefOp.head (.edit (.flush c)) = some c := rfl
    refine (putRef_moves hX hs rfl (hhead ⟨i, e, ref.lineage, txid, key, name, createdAt, touched⟩)
      rfl happly hw).bind fun r w hw => ?_
    have hgiveUp {w : World} (hw : Has i ref.lineage e txid key w) :
        FlushOk env i ⊤ (do cleanupFlush b ref txid key; return (.error .cas : Result Unit)) w :=
      (cleanupFlush_heads hs hw.held).bind .ret
    split
    · exact trivial
    · refine ((ask_does rfl).reading hX hlasts hw.1).bind fun budget w hw => ?_
      refine (reread_reads.reading hX hlasts hw).bindOk
        (fun _ _ hw => hgiveUp hw) fun cur w hw => ?_
      dsimp only
      split
      · rename_i hsame
        simp only [samePremise, Bool.and_eq_true, decide_eq_true_eq] at hsame
        exact ih hsame.1.2 (by simp [samePremise, hsame]) hw
      · exact hgiveUp hw
    · exact trivial

theorem uploadFlush_heads {obj : Obj} (hw : w.Held i l e t) :
    FlushOk env i (fun res w => res = .ok () → Has i l e t key w) (uploadFlush env key obj) w := by
  have hX : Silent (OwnRemovals i) := OwnRemovals.silent
  refine (putIf_heads hX Lasts.held hw).bind fun r w hw => ?_
  split
  · exact (put_heads hX Lasts.held hw.1).mono fun r w hw h => ⟨hw.1, hw.2 h⟩
  · exact fun h => ⟨hw.1, hw.2 h⟩

/-- What a session does besides its uploads, head writes and removals. -/
def Act.aside : Act → Prop
  | drop _ => False
  | a => a.headless

theorem Act.Edits.aside {a : Act} (h : a.Edits W) : a.aside := by
  cases a with
  | drop _ => exact h.elim
  | _ => exact h.headless

theorem Act.Local.aside {a : Act} (h : a.Local) : a.aside := by
  cases a with
  | none | checkout _ _ _ => trivial
  | _ => exact h.elim

theorem Does.aside {p : M α} (hp : Does env i Act.aside p) (hP : Lasts env i P) (hw : P w) :
    FlushOk env i (fun _ w => P w) p w := by
  refine hp.heads (fun a ha => ?_) hP hw
  cases a with
  | drop _ => exact ha.elim
  | _ => exact ⟨ha, fun _ _ h => by cases h⟩

theorem flushFrom_heads (hours : ref.leaseHolder = some i) (hepoch : ref.epoch = e)
    (hw : w.Version b ref) : FlushOk env i ⊤ (flushFrom env i b name fuel e ref) w := by
  have hheld : w.Held i ref.lineage e (ref.headTXID + 1) := hepoch ▸ World.Held.of_version hw hours
  refine ((seedDivergence_does trivial fun _ => trivial).aside Lasts.held hheld).bind
    fun _ w hw => ?_
  refine ((encodeFlush_does fun _ => trivial).aside Lasts.held hw).bindOk .ret fun enc w hw => ?_
  have hs : (flushKey ref e (ref.headTXID + 1) enc.snapshot).slot = _ := slot_flushKey
  refine (uploadFlush_heads hw).bindOk .ret fun u w hw => ?_
  refine (commitFlush_heads hs rfl (by simp [samePremise, hours, hepoch]) (hw rfl)).bind
    fun r w _ => ?_
  cases r with
  | error x => exact trivial
  | ok u =>
    exact ((withSession_does fun _ => trivial).aside Lasts.true trivial).bind .ret

theorem flush_heads : FlushOk env i ⊤ (flush env i b name fuel) w := by
  have hX : Silent (OwnRemovals i) := OwnRemovals.silent
  refine ((ask_does rfl).reading hX Lasts.true trivial).bind fun dead w _ => ?_
  split
  · exact trivial
  have hdrain : Does env i (Eq .none) (drainNow i) := Does.read rfl fun _ _ => rfl
  refine (hdrain.reading hX Lasts.true trivial).bindOk .ret fun u w _ => ?_
  refine ((getSession_does rfl).reading hX Lasts.true trivial).bind fun s w _ => ?_
  refine (getRef_heads (Q := fun r w => w.Version b r) hX Lasts.true trivial
    (fun _ _ _ => trivial) fun w r hinv _ hcur => hinv.1.1.current hcur).bindOk
        .ret fun ref w hw => ?_
  dsimp only
  split
  · exact trivial
  rename_i hours
  rw [not_or, not_not, not_not] at hours
  split
  · exact trivial
  · exact flushFrom_heads hours.1 hours.2 (hw.2.2 ref rfl)

variable {script : List Command}

theorem runScript_heads : FlushOk env i ⊤ (runScript env i host b fuel script) w := by
  induction script generalizing w with
  | nil => exact trivial
  | cons c rest ih =>
    cases c with
    | close =>
      have hclose : Does env i Act.aside (closeSession env i host b) :=
        closeSession_does (W := ⊤) (fun _ h => h.aside) (fun _ h => h.aside)
          (fun _ => trivial) trivial
      exact (hclose.aside Lasts.true trivial).bind .ret
    | flush name =>
      have hcalled : Does env i Act.aside (note (.called i b (.flush name))) :=
        note_does trivial trivial
      have hreport {r : Result Nat} : Does env i Act.aside (report i b .committed r) :=
        (report_edits (W := ⊤)).mono fun _ h => h.aside
      have hcall : FlushOk env i ⊤
          (calling i b (.flush name) .committed (flush env i b name fuel)) w :=
        (hcalled.aside Lasts.true trivial).bind fun _ _ _ =>
          flush_heads.bind fun _ _ _ => hreport.aside Lasts.true trivial
      exact hcall.bind fun _ _ _ => ih

theorem session_heads {ttl : Nat} {resume : Option Image} :
    FlushOk env i ⊤ (session env i host b ttl fuel resume script) w := by
  have hopen : Does env i Act.aside (openSession env i host b ttl fuel resume) :=
    openSession_does (W := ⊤) (fun _ h => h.aside) (fun _ h => h.aside)
      (fun _ => trivial) trivial trivial
  refine (hopen.aside Lasts.true trivial).bindOk .ret fun u _ _ => ?_
  exact runScript_heads

/-! ## Runs -/

theorem flushLayer_sound (hop : ∀ op, enabled op → op.collects = false) :
    (flushLayer env).spec.Sound (system env enabled) := by
  refine Layer.sound baseLayer_sound (fun i op w hen _ hfresh => ?_) fun _ _ _ => headLayer_crash
  by_cases hrest : op.atRest = true
  · exact op.prog_atRest hrest hfresh.2
  cases op with
  | session host b ttl fuel resume script =>
    refine Spec.Holds.weaken ?_ session_heads
    rintro w w' ⟨a, hok, hv, hcl, -, hrun⟩
    exact ⟨a, hok, hv, hcl, trivial, hrun⟩
  | gc _ _ => cases hop _ hen
  | _ => exact absurd rfl hrest

theorem Unsent.empty : Unsent i .empty where
  moved h := by simp [World.empty, World.Moved] at h
  sent h := by simp [World.empty] at h

theorem flushLayer_init : Safe (flushLayer env).spec (.init .empty : Config World Oracle Op) :=
  Safe.init ⟨⟨.empty env, .empty⟩, .empty⟩ fun _ => ⟨⟨trivial, trivial⟩, .empty⟩

variable {c c' : Config World Oracle Op}

theorem reachIf_heads (h : ReachIf RemovesSpent (system env enabled) c c') :
    (flushLayer env).spec.Reach (system env enabled) c c' :=
  Spec.Reach.of_reachIf (S := (flushLayer env).spec) (fun _ _ h => ⟨⟨trivial, trivial⟩, h⟩) h

theorem log_of_reachIf (hop : ∀ op, enabled op → op.collects = false)
    (hc : Safe (flushLayer env).spec c)
    (h : ReachIf RemovesSpent (system env enabled) c c') : c.state.log ⊆ c'.state.log := by
  induction h with
  | refl => exact fun _ h => h
  | @tail c₁ c₂ hreach hstep ih =>
    obtain ⟨⟨j, op, hby⟩, has⟩ := hstep
    have hc₁ := hc.reach (flushLayer_sound hop) (reachIf_heads hreach)
    refine List.Subset.trans ih ?_
    rcases hc₁.may (flushLayer_sound hop) hby ⟨⟨trivial, trivial⟩, has⟩ with heq | hmay
    · rw [heq]
      exact fun _ h => h
    · obtain ⟨-, a, -, -, -, -, hrun⟩ := hmay
      rw [← hrun]
      exact a.log_run.subset

/-- What a session removes it has uploaded under a lease of its own. -/
theorem session_removes_held (hop : ∀ op, enabled op → op.collects = false)
    (h : ReachIf RemovesSpent (system env enabled) (.init .empty) c) {ttl : Nat}
    {resume : Option Image}
    (hstep : StepBy (system env enabled) i (.session host b ttl fuel resume script) c c')
    (has : RemovesSpent c.state c'.state) (hk : k ∈ c.state.objs) (hgone : k ∉ c'.state.objs) :
    ∃ l e t, k.slot = some (l, e, t) ∧ c.state.Held i l e t := by
  have hguard := flushLayer_init.step_guarantee (flushLayer_sound hop) .refl
    (G := fun i op w w' => op.atRest = false → op.collects = false →
      HeadStep env (OwnRemovals i) i w w')
    (fun i op w _ _ _ => by
      cases op with
      | session host b ttl fuel resume script =>
        exact Spec.Holds.weaken (fun _ _ h _ _ => h) session_heads
      | gc _ _ => exact Spec.Holds.any.weaken fun _ _ _ _ h => by cases h
      | _ => exact Spec.Holds.any.weaken fun _ _ _ h => by cases h)
    (reachIf_heads h) hstep ⟨⟨trivial, trivial⟩, has⟩
  rcases hguard with heq | heq | hhead
  · exact absurd (heq ▸ hk) hgone
  · exact absurd (heq ▸ hk) hgone
  obtain ⟨a, -, -, hcl, hown, hrun⟩ := hhead rfl rfl
  rw [← hrun] at hgone
  rcases Act.mem_objs (i := i) (a := a) hk with hk | rfl | ⟨time, rfl⟩
  · exact absurd hk hgone
  · exact hown k rfl
  · exact hcl.elim

/-- If a session removes only objects whose head write has not landed and cannot land any
more, then no chain of a head or checkpoint reads what it removes, directly or through
base pointers, no head write that ever landed is left without its object, and a chain
that reads the key later does so after a head write to it that landed after the removal. -/
theorem flush_removes_unread {env : Env} {enabled : Op → Prop}
    (hop : ∀ op, enabled op → op.collects = false) {c c' : Config World Oracle Op}
    (h : ReachIf RemovesSpent (system env enabled) (.init .empty) c) {i host ttl fuel : Nat}
    {b : BranchId} {resume : Option Image} {script : List Command} {k : DataKey}
    (hstep : StepBy (system env enabled) i (.session host b ttl fuel resume script) c c')
    (has : RemovesSpent c.state c'.state) (hk : k ∈ c.state.objs) (hgone : k ∉ c'.state.objs) :
    (∀ b' r, c.state.refs.lookup b' = some r → ∀ t ∈ r.txids, ∀ ms,
      chain c.state.view r.lineage t = .ok ms → ∀ m ∈ ms, m.key ≠ k) ∧
    ∀ c'', ReachIf RemovesSpent (system env enabled) c' c'' →
      (∀ hc, c''.state.Moved hc → hc.key ∈ c''.state.objs) ∧
      ∀ b' r, c''.state.refs.lookup b' = some r → ∀ t ∈ r.txids, ∀ ms,
        chain c''.state.view r.lineage t = .ok ms → ∀ m ∈ ms, m.key = k →
          ∃ hc, c''.state.Moved hc ∧ ¬ c.state.Moved hc ∧ hc.key.slot = k.slot := by
  have hc := flushLayer_init.reach (flushLayer_sound hop) (reachIf_heads h)
  obtain ⟨l, e, t, hs, hheld⟩ := session_removes_held hop h hstep has hk hgone
  have hspent := has k hk hgone l e t hs
  constructor
  · intro b' r hcur t' ht' ms hms
    exact hheld.not_read hspent.moved hc.inv.1.2 hc.inv.2 hs (hc.inv.1.1.current hcur) ht' hms
  · intro c'' hlater
    have hafter := Relation.ReflTransGen.head ⟨⟨i, _, hstep⟩, has⟩ hlater
    have hc'' := hc.reach (flushLayer_sound hop) (reachIf_heads hafter)
    refine ⟨fun hc hm => hc''.inv.2.has hm, fun b' r hcur t' ht' ms hms m hm hkey => ?_⟩
    by_contra hnone
    have hheld'' : c''.state.Held i l e t := hheld.mono (log_of_reachIf hop hc hafter)
    refine hheld''.not_read (fun {hc} hmoved hcl hce hct =>
      hnone ⟨hc, hmoved, fun hold => ?_, ?_⟩) hc''.inv.1.2 hc''.inv.2 hs
      (hc''.inv.1.1.current hcur) ht' hms m hm hkey
    · exact hspent.moved hold hcl hce hct
    · rw [hs, hc''.inv.2.slot hmoved, hcl, hce, hct]

/-- Nothing is removed, or no head write has been made. -/
def World.removesFirst (w w' : World) : Bool :=
  w.objs.keys.all (· ∈ w'.objs) ||
    (w.log.all fun
      | .wrote _ _ op _ _ => op.head.isNone
      | _ => true) &&
    w.pending.all fun
      | .ref _ _ op _ _ => op.head.isNone
      | _ => true

theorem World.removesFirst_sound (h : World.removesFirst w w' = true) : RemovesSpent w w' := by
  intro k hk hgone l e t _
  simp only [World.removesFirst, Bool.or_eq_true, Bool.and_eq_true, List.all_eq_true] at h
  rcases h with hkeep | ⟨hlog, hpend⟩
  · exact absurd (of_decide_eq_true (hkeep k (AList.mem_keys.mp hk))) hgone
  constructor
  · rintro c ⟨j, b, op, before, r, hm, hc⟩
    have := hlog _ hm
    simp [hc] at this
  · intro j b op before after c hp hc
    have := hpend _ hp
    simp [hc] at this

theorem chain_ok_of_toOption {r : Ref} {ms : List (ChainMember DataKey)}
    (h : (chain w.view r.lineage t).toOption = some ms) : chain w.view r.lineage t = .ok ms := by
  cases hx : chain w.view r.lineage t with
  | error x => simp [hx, Except.toOption] at h
  | ok ms' => simpa [hx, Except.toOption] using h

def flushingSession : Op := .session 0 ⟨"db", "main"⟩ 100 9 none [.flush none]

/-- A rollback of the main branch to its first checkpoint that spares no lease. -/
def forcedRollback : Op := .rollback 0 ⟨"db", "main"⟩ "init" ⟨true, true, 0, false⟩ 9

def uploadedFlush : List (Move Oracle Op) :=
  [.start 0 (.create "db" ⟨512, [⟨512, 1⟩]⟩), .run 0 .fine 7,
    .start 1 flushingSession, .run 1 .fine 16,
    .start 2 (.captureRebase 1 ⟨512, [⟨512, 2⟩]⟩), .run 2 .fine 1, .run 1 .fine 11]

/-- The branch is moved away before the flush's head write, which is lost. -/
def lostFlush : List (Move Oracle Op) :=
  uploadedFlush ++ [.start 3 forcedRollback, .run 3 .fine 11, .run 1 .fine 3]

/-- The head write lands though it is reported lost; then the branch is forked and moved
away, so that the ref read back shows another lineage. -/
def forkedFlush : List (Move Oracle Op) :=
  uploadedFlush ++ [.run 1 ⟨true, true, .landed, false, 0⟩ 1,
    .start 3 (.fork 0 ⟨"db", "main"⟩ ⟨"db", "child"⟩ ⟨none, 0, ∅, false⟩ 9), .run 3 .fine 12,
    .start 4 forcedRollback, .run 4 .fine 11, .run 1 .fine 2]

set_option maxRecDepth 8192 in
theorem flush_removes_unread_after_rollback : ∃ c c' : Config World Oracle Op,
      Config.playIf (system .bucket fun op => op.collects = false) World.removesFirst lostFlush
        (.init .empty) = some c ∧
      c.runs 1 .fine 1 = some c' ∧ DataKey.snapshot 0 2 2 ∈ c.state.objs ∧
      DataKey.snapshot 0 2 2 ∉ c'.state.objs ∧
      ∀ b r, c.state.refs.lookup b = some r → ∀ t ∈ r.txids, ∀ ms,
        chain c.state.view r.lineage t = .ok ms → ∀ m ∈ ms, m.key ≠ .snapshot 0 2 2 := by
  obtain ⟨c, hc, h⟩ := (Option.any_eq_true (fun c : Config World Oracle Op =>
      (c.runs 1 .fine 1).any fun c' => (c.threads 1).map (·.1) = some flushingSession ∧
        World.removesFirst c.state c'.state ∧ DataKey.snapshot 0 2 2 ∈ c.state.objs ∧
        DataKey.snapshot 0 2 2 ∉ c'.state.objs)
    (Config.playIf (system .bucket fun op => op.collects = false) World.removesFirst lostFlush
      (.init .empty))).mp (by decide)
  obtain ⟨c', hc', h⟩ := (Option.any_eq_true _ _).mp h
  obtain ⟨hop, hfirst, hk, hgone⟩ := of_decide_eq_true h
  have hunread := flush_removes_unread (fun _ h => h)
    (Config.playIf_reachIf (fun _ _ => World.removesFirst_sound) hc) (Config.runs_one hc' hop)
    (World.removesFirst_sound hfirst) hk hgone
  exact ⟨c, c', hc, hc', hk, hgone, hunread.1⟩

set_option maxRecDepth 8192 in
/-- The flush removes the object the fork's head reads. -/
theorem flush_removes_what_a_fork_reads :
    ¬ ∀ (env : Env) (enabled : Op → Prop) (c c' : Config World Oracle Op) (i : Nat)
      (host ttl fuel : Nat) (b : BranchId) (resume : Option Image) (script : List Command)
      (k : DataKey), (∀ op, enabled op → op.collects = false) →
      Reach (system env enabled) (.init .empty) c →
      StepBy (system env enabled) i (.session host b ttl fuel resume script) c c' →
      k ∈ c.state.objs → k ∉ c'.state.objs →
      ∀ b' r, c.state.refs.lookup b' = some r → ∀ t ∈ r.txids, ∀ ms,
        chain c.state.view r.lineage t = .ok ms → ∀ m ∈ ms, m.key ≠ k := by
  intro hall
  obtain ⟨c, hc, h⟩ := Config.exists_play (c := .init .empty) (m := forkedFlush)
    (Q := fun c => (c.runs 1 .fine 1).any fun c' =>
      (c.state.refs.lookup ⟨"db", "child"⟩).any fun r =>
      (chain c.state.view r.lineage r.headTXID).toOption.any fun ms =>
        (c.threads 1).map (·.1) = some flushingSession ∧ DataKey.snapshot 0 2 2 ∈ c.state.objs ∧
        DataKey.snapshot 0 2 2 ∉ c'.state.objs ∧ ∃ m ∈ ms, m.key = .snapshot 0 2 2)
    (s := system .bucket fun op => op.collects = false) (by decide +kernel)
  obtain ⟨c', hc', h⟩ := (Option.any_eq_true _ _).mp h
  obtain ⟨r, hr, h⟩ := (Option.any_eq_true _ _).mp h
  obtain ⟨ms, hms, h⟩ := (Option.any_eq_true _ _).mp h
  obtain ⟨hop, hk, hgone, m, hm, hkey⟩ := of_decide_eq_true h
  exact hall .bucket (fun op => op.collects = false) c c' 1 0 100 9 ⟨"db", "main"⟩ none
    [.flush none] (.snapshot 0 2 2) (fun _ h => h) (Config.play_reach hc)
    (Config.runs_one hc' hop) hk hgone _ r hr r.headTXID (Ref.mem_txids.mpr (.inl rfl)) ms
    (chain_ok_of_toOption hms) m hm hkey

end Offshoot
