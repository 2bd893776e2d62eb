import Offshoot.System.BasesSound

/-!
# What a failed repoint removes

A repoint that fails removes the objects of the lineage it had minted, and gives no
branch a lineage after that.  So if its write, once given up, does not land, no ref and
no base pointer ever leads to a lineage that has lost an object this way.
-/

namespace Offshoot

open Conc Maps

variable {env : Env} {w w' : World} {i j : Nat} {b : BranchId} {host fuel t : Nat}
  {l : Lineage} {enabled : Op → Prop}
variable {c c' : Config World Oracle Op}

/-! ## Nothing is written after a removal -/

def Removes (w w' : World) : Prop := ∃ k, k ∈ w.objs ∧ k ∉ w'.objs

theorem Act.spares.keeps {a : Act} (h : a.spares) : ¬ Removes w (a.run i w) := by
  rintro ⟨k, hk, hgone⟩
  rcases a.objs_run (i := i) (w := w) with hobjs | ⟨k', o, hobjs, -⟩ | ⟨k', -, rfl | ⟨t, rfl⟩⟩
  · exact hgone (hobjs ▸ hk)
  · rw [hobjs, World.putObj, AList.mem_insert] at hgone
    exact hgone (.inr hk)
  · exact h
  · exact h

/-- The program gives no branch a lineage once it has removed an object. -/
abbrev TidiesLast (env : Env) (i : Nat) (p : M α) : Prop :=
  p.Until Removes (Change env i Act.nameless)

variable {p : M α}

theorem Does.tidies {q : α → M β} (hp : Does env i Act.spares p)
    (hq : ∀ a, TidiesLast env i (q a)) : TidiesLast env i (p >>= q) := by
  refine .bind (Prog.All.mono ?_ hp) hq
  rintro w w' ⟨a, ha, -, rfl⟩
  exact ha.keeps

theorem Does.tidiesOk {p : M (Result α)} {q : Result α → M β} (hp : Does env i Act.spares p)
    (herr : ∀ e, TidiesLast env i (q (.error e))) (hok : ∀ a, TidiesLast env i (q (.ok a))) :
    TidiesLast env i (p >>= q) := by
  refine hp.tidies fun r => ?_
  cases r with
  | error e => exact herr e
  | ok a => exact hok a

theorem Does.sparesBuilds (h : Does env i Act.Builds p) : Does env i Act.spares p :=
  h.mono fun _ h => (h.grows (W := ⊤)).2

theorem backUp_spares {suffix metaKey : String} {ttl : Nat} {skip : Bool} :
    Does env i Act.spares (backUp env i host b suffix metaKey ttl fuel skip) :=
  (backUp_grows (W := ⊤) trivial fun _ _ => trivial).mono fun _ h => h.2

theorem Does.namelessLocal (h : Does env i Act.Local p) : Does env i Act.nameless p :=
  h.mono fun _ h => (h.keeps (W := ⊤)).2

theorem deleteObjs_tidiesLast {ks : List DataKey} {a : α} :
    TidiesLast env i (do deleteObjs ks; return a) := by
  refine .of_all (.bind ?_ .ret)
  exact (deleteObjs_keeps (W := ⊤)).mono fun _ h => h.2

variable {ref : Ref}

theorem repoint_tidiesLast {p : Repoint} {keys : List DataKey} :
    TidiesLast env i (repoint env i b ref p keys) := by
  have hput : Does env i Act.spares
      (putRef env i b (.edit (.repoint p)) (p.apply ref) (some ref)) :=
    putRef_does trivial (fun _ => trivial) (fun _ _ => trivial) (RefOp.apply_edit rfl) trivial
  refine hput.tidies fun r => ?_
  cases r with
  | ok u => exact trivial
  | error e =>
    refine (settleRepoint_reads.of_reads trivial).tidies fun r => ?_
    split
    · exact trivial
    · exact trivial
    · exact deleteObjs_tidiesLast
    · exact trivial

theorem now_spares : Does env i Act.spares (now env) := now_does trivial

theorem rollbackOnto_tidiesLast {base : Option BasePointer} :
    TidiesLast env i (rollbackOnto env i host b ref t fuel l base) := by
  unfold rollbackOnto
  dsimp only
  split
  · exact now_spares.tidies fun t => repoint_tidiesLast.thenAll
      .ret fun _ => refreshAfter_local.namelessLocal
  · refine copyCheckpoints_copies.builds.sparesBuilds.tidies fun r => ?_
    split
    · exact deleteObjs_tidiesLast
    · exact now_spares.tidies fun t => repoint_tidiesLast.thenAll
        .ret fun _ => refreshAfter_local.namelessLocal

theorem rollback_tidiesLast {name : String} {opts : RepointOptions} :
    TidiesLast env i (rollback env i host b name opts fuel) := by
  have hget : Does env i Act.spares (getRef b) := getRef_does trivial
  refine hget.tidiesOk (fun _ => trivial) fun ref => now_spares.tidies fun t => ?_
  split
  · exact trivial
  split
  · exact trivial
  refine backUp_spares.tidiesOk (fun _ => trivial) fun u => ?_
  refine (refChain_reads.of_reads trivial).tidiesOk (fun _ => trivial) fun members => ?_
  refine newLineageAt_builds.sparesBuilds.tidies fun r => ?_
  split
  · exact trivial
  · exact rollbackOnto_tidiesLast

theorem promoteOnto_tidiesLast {src tgt : Ref} {source : BranchId} {materialize : Bool} :
    TidiesLast env i (promoteOnto env i host b src tgt source materialize fuel) := by
  refine (headChain_reads.of_reads trivial).tidiesOk (fun _ => trivial) fun members => ?_
  refine newLineageAt_builds.sparesBuilds.tidies fun r => ?_
  split
  · exact trivial
  refine now_spares.tidies fun _ => now_spares.tidies fun _ => ?_
  exact repoint_tidiesLast.thenAll .ret fun _ => refreshIfAny_local.namelessLocal

theorem promote_tidiesLast {db source target : String} {opts : RepointOptions} :
    TidiesLast env i (promote env i host db source target opts fuel) := by
  have hget (b : BranchId) : Does env i Act.spares (getRef b) := getRef_does trivial
  unfold promote
  split
  · exact trivial
  refine (hget _).tidiesOk (fun _ => trivial) fun src => ?_
  refine (hget _).tidiesOk (fun _ => trivial) fun tgt => now_spares.tidies fun t => ?_
  split
  · exact trivial
  split
  · exact trivial
  refine backUp_spares.tidiesOk (fun _ => trivial) fun u => ?_
  exact promoteOnto_tidiesLast

theorem compactOnto_tidiesLast : TidiesLast env i (compactOnto env i host b ref fuel l) := by
  refine copyCheckpoints_copies.builds.sparesBuilds.tidies fun r => ?_
  split
  split
  · exact deleteObjs_tidiesLast
  refine now_spares.tidies fun _ => now_spares.tidies fun _ => ?_
  exact repoint_tidiesLast.thenAll .ret fun _ => refreshIfAny_local.namelessLocal

theorem compact_tidiesLast {force : Bool} : TidiesLast env i (compact env i host b force fuel) := by
  have hget : Does env i Act.spares (getRef b) := getRef_does trivial
  refine hget.tidiesOk (fun _ => trivial) fun ref => now_spares.tidies fun t => ?_
  split
  · exact trivial
  have hspine : Does env i Act.spares (resolve (baseSpine · ref.lineage) fuel .empty) :=
    resolve_does trivial
  refine hspine.tidies fun r => ?_
  split
  · exact trivial
  · exact trivial
  have hchain : Does env i Act.spares (chainAt fuel ref.lineage ref.headTXID) :=
    chainAt_does trivial
  refine hchain.tidiesOk (fun _ => trivial) fun members => ?_
  refine copySnapshotToNewLineage_copies.builds.sparesBuilds.tidiesOk (fun _ => trivial) fun l => ?_
  exact compactOnto_tidiesLast

variable {op : Op}

theorem Op.prog_tidiesLast (hop : op.repoints = true) : TidiesLast env i (op.prog env i) := by
  have hflying {α : Type} {p : M α} {f : Flight} (hp : TidiesLast env i p) :
      TidiesLast env i (flying i f p) := by
    have hset : Does env i Act.spares (setFlight i (some f)) := setFlight_does trivial
    refine hset.tidies fun _ => ?_
    exact hp.bind_all fun _ => setFlight_does trivial
  cases op with
  | rollback host b name opts fuel => exact hflying rollback_tidiesLast
  | promote host db source target opts fuel => exact hflying promote_tidiesLast
  | compact host b force fuel => exact hflying compact_tidiesLast
  | _ => cases hop

/-! ## Runs -/

theorem World.Leads.named {bp : BasePointer} (h : w.Leads bp) : w.Named bp.lineage := by
  obtain ⟨b, r, hv, hl, -⟩ := h
  exact ⟨b, r, hv, hl⟩

theorem BaseInv.unread (h : BaseInv w) (hr : RefsInv env w) (hn : ¬ w.Named l) :
    (∀ b r, w.refs.lookup b = some r → r.lineage ≠ l ∧ ∀ bp, r.base = some bp → bp.lineage ≠ l) ∧
    ∀ l' bp, w.objs.lookup (.base l') = some (.base bp) → bp.lineage ≠ l := by
  refine ⟨fun b r hcur => ⟨?_, fun bp hbp => ?_⟩, fun l' bp hbp => ?_⟩
  · rintro rfl
    exact hn ⟨b, r, hr.current hcur, rfl⟩
  · rintro rfl
    exact hn ((h.ref (hr.current hcur)).base bp hbp).named
  · rintro rfl
    obtain ⟨bp', hbp', hleads⟩ := h.obj.obj hbp l' rfl
    obtain rfl : bp = bp' := by simpa using hbp'
    exact hn hleads.named

/-- A step keeps a lineage unnamed if its minter gives no more branches a lineage. -/
theorem not_named_step (hc : Safe (baseLayer env (Punctual l)).spec c)
    (hstep : StepBy (system env enabled) j op c c') (hpun : Punctual l c.state c'.state)
    (hm : c.state.Minted i l) (hn : ¬ c.state.Named l)
    (hi : ∃ op p, c.threads i = some (op, p) ∧ p.All (Change env i Act.nameless)) :
    c'.state.Minted i l ∧ ¬ c'.state.Named l := by
  have hr : RefsInv env c.state := hc.inv.1
  have hact {a : Act} (hok : a.ok env j c.state)
      (hname : ∀ l, a.names = some l → c.state.Draft j l) (hself : j = i → a.names = none)
      (hpun : Punctual l c.state (a.run j c.state)) :
      (a.run j c.state).Minted i l ∧ ¬ (a.run j c.state).Named l := by
    refine ⟨a.log_run.subset hm, hr.not_named_run hok hname hm hn (fun hij => ?_) hpun⟩
    rw [hself hij]
    simp
  have hquiet {a : Act} (hok : a.ok env j c.state) (hnames : a.names = none)
      (hpun : Punctual l c.state (a.run j c.state)) :
      (a.run j c.state).Minted i l ∧ ¬ (a.run j c.state).Named l :=
    hact hok (fun l h => by rw [hnames] at h; cases h) (fun _ => hnames) hpun
  cases hstep with
  | spawn _ _ => exact ⟨hm, hn⟩
  | crash _ => exact hquiet (a := .flight none) trivial rfl hpun
  | run o hj =>
    by_cases hij : j = i
    · subst hij
      obtain ⟨op', p, hp, hall⟩ := hi
      cases hj.symm.trans hp
      obtain ⟨a, ha, hok, hrun⟩ := hall.1 o c.state
      exact hrun ▸ hquiet hok (ha.sane hok).1 (hrun ▸ hpun)
    · obtain ⟨-, a, hok, hname, -, -, hrun⟩ :=
        (hc.thread j op _ hj c.state .refl hc.inv o ⟨trivial, hpun⟩).1
      exact hrun ▸ hact hok hname (fun h => absurd h hij) (hrun ▸ hpun)

theorem not_named_later (hc : Safe (baseLayer env (Punctual l)).spec c) (hm : c.state.Minted i l)
    (hn : ¬ c.state.Named l)
    (hi : ∃ op p, c.threads i = some (op, p) ∧ p.All (Change env i Act.nameless))
    (hlater : ReachIf (Punctual l) (system env enabled) c c') : ¬ c'.state.Named l := by
  suffices hkept : Safe (baseLayer env (Punctual l)).spec c' ∧ c'.state.Minted i l ∧
      ¬ c'.state.Named l ∧
      ∃ op p, c'.threads i = some (op, p) ∧ p.All (Change env i Act.nameless) from hkept.2.2.1
  induction hlater with
  | refl => exact ⟨hc, hm, hn, hi⟩
  | tail _ hstep ih =>
    obtain ⟨hc, hm, hn, hi⟩ := ih
    obtain ⟨⟨j, op, hby⟩, hpun⟩ := hstep
    obtain ⟨hm', hn'⟩ := not_named_step hc hby hpun hm hn hi
    exact ⟨hc.step baseLayer_sound ⟨j, op, hby⟩ ⟨trivial, hpun⟩, hm', hn', hby.keeps_all hi⟩

theorem reach_of_reachIf {assumed : World → World → Prop}
    (h : ReachIf assumed (system env enabled) c c') :
    (baseLayer env assumed).spec.Reach (system env enabled) c c' :=
  Spec.Reach.of_reachIf (S := (baseLayer env assumed).spec) (fun _ _ h => ⟨trivial, h⟩) h

/-- Once a repoint has removed an object it gives no branch a lineage. -/
theorem removed_retires (hop : op.repoints = true) (h : Reach (system env enabled) (.init .empty) c)
    (hstep : StepBy (system env enabled) i op c c') (hrem : Removes c.state c'.state) :
    ∃ op p, c'.threads i = some (op, p) ∧ p.All (Change env i Act.nameless) := by
  have hnot (w : World) : ¬ Removes w w := by
    rintro ⟨_, hk, hgone⟩
    exact hgone hk
  cases hstep with
  | spawn _ _ => exact absurd hrem (hnot _)
  | crash _ => exact ⟨op, .ret (), by simp [Config.set], trivial⟩
  | run o hi =>
    have hlast := Config.thread_of_reach
      (T := fun i (op : Op) p => op.repoints = true → TidiesLast env i p)
      (fun i op _ hop => op.prog_tidiesLast hop) (fun _ _ _ => trivial)
      (fun _ _ _ _ _ hp o s hop => (hp hop o s).2) h hi hop
    exact ⟨op, _, if_pos rfl, (hlast o c.state).1 hrem⟩

/-- The lineage a repoint removes an object of is its own and unnamed. -/
theorem removed_unnamed {k : DataKey} (hop : op.repoints = true)
    (h : ReachIf (Punctual k.lineage) (system env enabled) (.init .empty) c)
    (hstep : StepBy (system env enabled) i op c c') (hpun : Punctual k.lineage c.state c'.state)
    (hk : k ∈ c.state.objs) (hgone : k ∉ c'.state.objs) :
    c'.state.Minted i k.lineage ∧ ¬ c'.state.Named k.lineage := by
  have hforks {op : Op} (h : op.repoints = true) : op.forks = true := by
    cases op <;> first | rfl | cases h
  have hguard := baseLayer_init.step_guarantee (@baseLayer_sound env _ enabled) .refl
    (G := fun i op w w' => op.repoints = true → Prepares env (Punctual k.lineage) i w w')
    (fun i op w _ _ _ => by
      by_cases hop : op.repoints = true
      · exact (op.prog_prepares (hforks hop)).weaken fun _ _ h _ => h
      · exact Spec.Holds.any.weaken fun _ _ _ h => absurd h hop)
    (reach_of_reachIf h) hstep ⟨trivial, hpun⟩
  rcases hguard with heq | heq | hprep
  · exact absurd (heq ▸ hk) hgone
  · exact absurd (heq ▸ hk) hgone
  obtain ⟨a, -, -, -, -, htidy, hrun⟩ := hprep hop
  rw [← hrun] at hgone ⊢
  rcases a.objs_run (i := i) (w := c.state) with hobjs | ⟨k', o, hobjs, -⟩ | ⟨k', hobjs, hsrc⟩
  · exact absurd (hobjs ▸ hk) hgone
  · rw [hobjs, World.putObj, AList.mem_insert] at hgone
    exact absurd (.inr hk) hgone
  · rw [hobjs, World.dropObj, AList.mem_erase] at hgone
    obtain rfl : k = k' := by_contra fun hne => hgone ⟨hne, hk⟩
    rcases hsrc with rfl | ⟨t, rfl⟩
    · exact htidy fun _ _ h => h
    · exact htidy.elim

/-- If no write that gives a branch a lineage lands after it was given up, then nothing
ever leads to it once a failed repoint has removed an object of it. -/
theorem failed_repoint_never_named {c c' c'' : Config World Oracle Op} {op : Op} {k : DataKey}
    (hop : op.repoints = true)
    (h : ReachIf (Punctual k.lineage) (system env enabled) (.init .empty) c)
    (hstep : StepBy (system env enabled) i op c c') (hpun : Punctual k.lineage c.state c'.state)
    (hk : k ∈ c.state.objs) (hgone : k ∉ c'.state.objs)
    (hlater : ReachIf (Punctual k.lineage) (system env enabled) c' c'') :
    (∀ b r, c''.state.refs.lookup b = some r →
      r.lineage ≠ k.lineage ∧ ∀ bp, r.base = some bp → bp.lineage ≠ k.lineage) ∧
    ∀ l bp, c''.state.objs.lookup (.base l) = some (.base bp) → bp.lineage ≠ k.lineage := by
  have hc := baseLayer_init.reach baseLayer_sound (reach_of_reachIf h)
  have hc' : Safe (baseLayer env (Punctual k.lineage)).spec c' :=
    hc.step baseLayer_sound ⟨i, op, hstep⟩ ⟨trivial, hpun⟩
  have hc'' : Safe (baseLayer env (Punctual k.lineage)).spec c'' :=
    hc'.reach baseLayer_sound (reach_of_reachIf hlater)
  obtain ⟨hm, hn⟩ := removed_unnamed hop h hstep hpun hk hgone
  -- What is left of the call gives no branch a lineage.
  have hi := removed_retires hop (ReachIf.reach h) hstep ⟨k, hk, hgone⟩
  exact hc''.inv.2.unread hc''.inv.1 (not_named_later hc' hm hn hi hlater)

/-- No write that would give a branch a lineage is left pending. -/
def World.punctual (w _ : World) : Bool := w.pending.all fun
  | .ref _ _ op _ _ => op.names.isNone
  | _ => true

theorem World.punctual_sound (h : World.punctual w w' = true) : Punctual l w w' := by
  intro j b op after _ hnames before hpend
  have hnone := List.all_eq_true.mp h _ hpend
  rw [Option.isNone_iff_eq_none] at hnone
  simp [hnone] at hnames

/-- A rollback of the main branch to its first checkpoint that keeps no backup. -/
def bareRollback : Op := .rollback 0 ⟨"db", "main"⟩ "init" ⟨false, true, 0, false⟩ 9

/-- The rollback's ref write fails, with the given fate, and the ref is read again. -/
def repointFailed (fate : Fate) : List (Move Oracle Op) :=
  [.start 0 (.create "db" ⟨512, [⟨512, 1⟩]⟩), .run 0 .fine 7, .start 1 bareRollback,
    .run 1 .fine 10, .run 1 ⟨true, true, fate, false, 0⟩ 1, .run 1 .fine 1]

instance : DecidablePred fun _ : Op => True := fun _ => .isTrue trivial

set_option maxRecDepth 8192 in
theorem failed_repoint_never_named_after_rollback : ∃ c c' : Config World Oracle Op,
      Config.playIf (system .bucket fun _ => True) World.punctual (repointFailed .lost)
        (.init .empty) = some c ∧
      c.runs 1 .fine 1 = some c' ∧ DataKey.base 1 ∈ c.state.objs ∧
      DataKey.base 1 ∉ c'.state.objs ∧
      ∀ b r, c'.state.refs.lookup b = some r → r.lineage ≠ 1 := by
  obtain ⟨c, hc, h⟩ := (Option.any_eq_true (fun c : Config World Oracle Op =>
      (c.runs 1 .fine 1).any fun c' => (c.threads 1).map (·.1) = some bareRollback ∧
        World.punctual c.state c'.state ∧ DataKey.base 1 ∈ c.state.objs ∧
        DataKey.base 1 ∉ c'.state.objs)
    (Config.playIf (system .bucket fun _ => True) World.punctual (repointFailed .lost)
      (.init .empty))).mp (by decide)
  obtain ⟨c', hc', h⟩ := (Option.any_eq_true _ _).mp h
  obtain ⟨hop, hpun, hk, hgone⟩ := of_decide_eq_true h
  have hnever := failed_repoint_never_named (rfl : bareRollback.repoints = true)
    (Config.playIf_reachIf (fun _ _ => World.punctual_sound) hc) (Config.runs_one hc' hop)
    (World.punctual_sound hpun) hk hgone .refl
  exact ⟨c, c', hc, hc', hk, hgone, fun b r hr => (hnever.1 b r hr).1⟩

set_option maxRecDepth 8192 in
/-- The ref read again still reads the old lineage while the failed write is on its way:
the new lineage's base is removed, and then the write lands. -/
theorem removed_lineage_named_late :
    ¬ ∀ (env : Env) (enabled : Op → Prop) (c c' c'' : Config World Oracle Op) (i : Nat) (op : Op)
      (k : DataKey), op.repoints = true → Reach (system env enabled) (.init .empty) c →
      StepBy (system env enabled) i op c c' → k ∈ c.state.objs → k ∉ c'.state.objs →
      Reach (system env enabled) c' c'' →
      (∀ b r, c''.state.refs.lookup b = some r →
        r.lineage ≠ k.lineage ∧ ∀ bp, r.base = some bp → bp.lineage ≠ k.lineage) ∧
      ∀ l bp, c''.state.objs.lookup (.base l) = some (.base bp) → bp.lineage ≠ k.lineage := by
  intro hall
  obtain ⟨c, hc, h⟩ := Config.exists_play (c := .init .empty) (m := repointFailed .pending)
    (Q := fun c => (c.runs 1 .fine 1).any fun c' =>
      (c'.play (system .bucket fun _ => True) [.start 2 (.land 0), .run 2 .fine 1]).any fun c'' =>
        (c.threads 1).map (·.1) = some bareRollback ∧ DataKey.base 1 ∈ c.state.objs ∧
        DataKey.base 1 ∉ c'.state.objs ∧
        (c''.state.refs.lookup ⟨"db", "main"⟩).map (·.lineage) = some 1)
    (s := system .bucket fun _ => True) (by decide)
  obtain ⟨c', hc', h⟩ := (Option.any_eq_true _ _).mp h
  obtain ⟨c'', hc'', h⟩ := (Option.any_eq_true _ _).mp h
  obtain ⟨hop, hk, hgone, hnamed⟩ := of_decide_eq_true h
  obtain ⟨r, hr, hl⟩ := Option.map_eq_some_iff.mp hnamed
  have hnever := hall .bucket (fun _ => True) c c' c'' 1 bareRollback (.base 1) rfl
    (Config.play_reach hc) (Config.runs_one hc' hop) hk hgone (Config.play_reach hc'')
  exact (hnever.1 _ r hr).1 hl

end Offshoot
