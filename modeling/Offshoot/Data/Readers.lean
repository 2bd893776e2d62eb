import Offshoot.Data.Chains

/-!
# What a reader of a branch finds

Whatever the writers of a branch do, a reader resolves its head and its checkpoints
to the committed objects, and to the same ones for as long as a ref names them.
-/

namespace Offshoot

open Conc Maps List

variable {env : Env} {w w' : World} {i : Nat} {b : BranchId} {r : Ref} {t : Nat}
variable {enabled : Op → Prop} {c c' : Config World Oracle Op}

/-! ## Every run without collections -/

theorem dataInv_of_reach (hset : env.settled = true) (hgc : ∀ op, enabled op → op.collects = false)
    (h : Reach (system env enabled) (.init .empty) c) :
    Safe (dataLayer env hset False fun _ _ => True).spec c :=
  dataLayer_init.reach (dataLayer_sound hgc)
    (Spec.Reach.of_reach (fun _ _ => by exact ⟨trivial, trivial⟩) h)

/-- A later state, as a reader compares it with an earlier one. -/
structure Later (w w' : World) : Prop where
  log : w.log ⊆ w'.log
  frozen : ∀ k, w.Frozen k → w'.objs.lookup k = w.objs.lookup k

theorem Later.refl : Later w w := ⟨List.Subset.refl _, fun _ _ => rfl⟩

theorem Later.step {w₀ : World} (h : Later w₀ w) (hr : RefsInv env w) (hd : DataInv w)
    {assumed : World → World → Prop} (htr : Trans False assumed i w w') : Later w₀ w' := by
  refine ⟨List.Subset.trans h.log htr.log, fun k hk => ?_⟩
  rcases htr.frozen hr hd (hk.mono h.log) with hsame | ⟨hgc, -⟩
  · rw [hsame, h.frozen k hk]
  · exact hgc.elim

theorem Safe.later {hset : env.settled = true} (hgc : ∀ op, enabled op → op.collects = false)
    (hsafe : Safe (dataLayer env hset False fun _ _ => True).spec c)
    (h : Reach (system env enabled) c c') : Later c.state c'.state := by
  refine hsafe.preserves (P := Later c.state) (dataLayer_sound hgc) ?_
    (Spec.Reach.of_reach (fun _ _ => by exact ⟨trivial, trivial⟩) h) .refl
  rintro i w w' ⟨hr, hd⟩ ⟨-, a, hok, hname, hg, rfl⟩ has hlater
  exact hlater.step hr hd (a.trans hset hr hok hname hg has.2)

/-! ## Members are committed -/

theorem Path.mem_members (hl : LogInv w) {l : Lineage} {ks : List DataKey} (hp : Path w l t ks)
    {m : ChainMember DataKey} (hm : m ∈ pathMembers ks) :
    ∃ c, w.Committed c ∧ c.lineage = m.key.lineage ∧ c.txid = m.maxTXID ∧ c.key = m.key := by
  have hone {c : Commit} (hc : w.Committed c) (hpar : c.key.parseMember = some m) :
      ∃ c, w.Committed c ∧ c.lineage = m.key.lineage ∧ c.txid = m.maxTXID ∧ c.key = m.key := by
    have hslot := hl.slot hc
    have hkey := DataKey.parseMember_key hpar
    exact ⟨c, hc, by rw [hkey, DataKey.lineage_slot hslot],
      (DataKey.slot_member hslot hpar).1.symm, hkey.symm⟩
  induction hp with
  | snapshot hc =>
    obtain ⟨k, hk, hpar⟩ := mem_filterMap.mp hm
    rw [mem_singleton.mp hk] at hpar
    exact hone hc hpar
  | segment hc _ ih =>
    rw [pathMembers, filterMap_append, mem_append] at hm
    rcases hm with hm | hm
    · exact ih hm
    · obtain ⟨k, hk, hpar⟩ := mem_filterMap.mp hm
      rw [mem_singleton.mp hk] at hpar
      exact hone hc hpar
  | through _ _ _ ih => exact ih hm

/-- Fencing on the read path.  A branch resolves at its head and at each checkpoint,
and the member at each txid is the object whose commit moved a head to that txid,
which is one object; what no write committed is no member. -/
theorem chain_members_committed {enabled : Op → Prop} {c : Config World Oracle Op}
    (hsettled : env.settled = true) (hgc : ∀ op, enabled op → op.collects = false)
    (h : Reach (system env enabled) (.init .empty) c) (hcur : c.state.refs.lookup b = some r)
    (ht : t ∈ r.txids) :
    ∃ members, chain c.state.view r.lineage t = .ok members ∧
      (∀ m ∈ members, ∃ cm, c.state.Committed cm ∧ cm.lineage = m.key.lineage ∧
        cm.txid = m.maxTXID ∧ cm.key = m.key ∧ ∀ cm', c.state.Committed cm' →
          cm'.lineage = cm.lineage → cm'.txid = cm.txid → cm' = cm) ∧
      ∀ k, (∀ cm, c.state.Committed cm → cm.key ≠ k) → ∀ m ∈ members, m.key ≠ k := by
  have hsafe := dataInv_of_reach hsettled hgc h
  obtain ⟨hr, hd⟩ := hsafe.inv
  obtain ⟨ks, hp, -, hchain⟩ := hd.chain hr hcur ht
  have hmem : ∀ m ∈ pathMembers ks, ∃ cm, c.state.Committed cm ∧ cm.lineage = m.key.lineage ∧
      cm.txid = m.maxTXID ∧ cm.key = m.key := fun m hm => hp.mem_members hd.log hm
  refine ⟨pathMembers ks, hchain, fun m hm => ?_, fun k hk m hm heq => ?_⟩
  · obtain ⟨cm, hcm, hl, htx, hkey⟩ := hmem m hm
    exact ⟨cm, hcm, hl, htx, hkey, fun cm' hcm' hl' htx' => hd.log.unique hcm' hcm hl' htx'⟩
  · obtain ⟨cm, hcm, -, -, hkey⟩ := hmem m hm
    exact hk cm hcm (hkey.trans heq)

/-- A checkpoint stalls before its upload, another takes over its lease and commits,
and then the first uploads at the same txid. -/
def lateUpload : List (Move Oracle Op) :=
  [.start 0 (.create "db" ⟨512, [⟨512, 1⟩]⟩), .run 0 .fine 7,
    .start 1 (.checkout 0 ⟨"db", "main"⟩ 9), .run 1 .fine 12,
    .start 2 (.appWrite 0 ⟨"db", "main"⟩ ⟨512, [⟨512, 2⟩]⟩), .run 2 .fine 1,
    .start 3 (.checkpoint 0 ⟨"db", "main"⟩ "a" 9 ⟨true, false, 5⟩), .run 3 .fine 12,
    .start 4 (.tick 10), .run 4 .fine 1,
    .start 5 (.checkpoint 0 ⟨"db", "main"⟩ "b" 9 ⟨true, false, 5⟩), .run 5 .fine 25,
    .run 3 .fine 1]

def Op.keepsAll (op : Op) : Prop := op.collects = false

instance : DecidablePred Op.keepsAll := fun op => inferInstanceAs (Decidable (op.collects = false))

set_option maxRecDepth 4096 in
theorem chain_members_committed_late_upload :
    ∃ (c : Config World Oracle Op) (r : Ref) (members : List (ChainMember DataKey)),
      Config.play (system .localDir Op.keepsAll) lateUpload (.init .empty) = some c ∧
      c.state.refs.lookup ⟨"db", "main"⟩ = some r ∧ r.headTXID = 2 ∧
      (c.state.objs.lookup (.snapshot 0 2 2)).isSome ∧
      chain c.state.view r.lineage 2 = .ok members ∧
      members.map (·.key) = [.snapshot 0 3 2] ∧
      ∀ m ∈ members, ∃ cm, c.state.Committed cm ∧ cm.key = m.key := by
  obtain ⟨c, hc, h⟩ := Config.exists_play (c := .init .empty) (m := lateUpload)
    (Q := fun c => (c.state.refs.lookup ⟨"db", "main"⟩).any fun r =>
      r.headTXID = 2 ∧ (c.state.objs.lookup (.snapshot 0 2 2)).isSome ∧
        (chain c.state.view r.lineage 2).toOption.map (·.map (·.key)) = some [.snapshot 0 3 2])
    (s := system .localDir Op.keepsAll) (by decide)
  obtain ⟨r, hr, h⟩ := (Option.any_eq_true _ _).mp h
  obtain ⟨hhead, hold, hkeys⟩ : _ ∧ _ ∧ _ := by simpa using h
  obtain ⟨members, hchain, hmem, -⟩ := chain_members_committed (by rfl) (fun op hop => hop)
    (Config.play_reach hc) hr (Ref.mem_txids.mpr (.inl hhead.symm))
  refine ⟨c, r, members, hc, hr, hhead, by simpa using hold, hchain, ?_, fun m hm => ?_⟩
  · simpa [hchain, Except.toOption] using hkeys
  · obtain ⟨cm, hcm, -, -, hkey, -⟩ := hmem m hm
    exact ⟨cm, hcm, hkey⟩

/-! ## Committed states never change -/

theorem pathMembers_key {ks : List DataKey} {m : ChainMember DataKey} (hm : m ∈ pathMembers ks) :
    m.key ∈ ks := by
  obtain ⟨k, hk, hpar⟩ := mem_filterMap.mp hm
  rw [DataKey.parseMember_key hpar]
  exact hk

theorem content_congr {l : Lineage} {members : List (ChainMember DataKey)}
    (h : chain w.view l t = .ok members) (h' : chain w'.view l t = .ok members)
    (hobjs : ∀ m ∈ members, w'.objs.lookup m.key = w.objs.lookup m.key) :
    w'.content l t = w.content l t := by
  have hmap : members.mapM (fun m => w'.objs.lookup m.key) =
      members.mapM fun m => w.objs.lookup m.key := by
    clear h h'
    induction members with
    | nil => rfl
    | cons m ms ih =>
      rw [mapM_cons, mapM_cons, hobjs m mem_cons_self,
        ih fun m hm => hobjs m (mem_cons_of_mem _ hm)]
  unfold World.content
  rw [h, h']
  dsimp only
  rw [hmap]

/-- The chain of a txid that two states name is the same in both. -/
theorem Later.chain {b' : BranchId} {r' : Ref} (h : Later w w') (hr : RefsInv env w)
    (hd : DataInv w) (hr' : RefsInv env w') (hd' : DataInv w') (hcur : w.refs.lookup b = some r)
    (ht : t ∈ r.txids) (hcur' : w'.refs.lookup b' = some r') (hl : r'.lineage = r.lineage)
    (ht' : t ∈ r'.txids) :
    ∃ ks, Path w r.lineage t ks ∧ Offshoot.chain w.view r.lineage t = .ok (pathMembers ks) ∧
      Offshoot.chain w'.view r.lineage t = .ok (pathMembers ks) := by
  obtain ⟨ks, hp, -, hchain⟩ := hd.chain hr hcur ht
  obtain ⟨ks', hp', -, hchain'⟩ := hd'.chain hr' hcur' ht'
  rw [hl] at hp' hchain'
  obtain rfl := hd'.log.path_unique hp' (hp.mono h.log)
  exact ⟨_, hp, hchain, hchain'⟩

/-- On a backend whose failed conditional writes wrote nothing, the content at a txid
of a lineage is the same in any two states of a run in which refs name it. -/
theorem committed_content_stable {enabled : Op → Prop} {c c' : Config World Oracle Op}
    {b' : BranchId} {r' : Ref} (hsettled : env.settled = true)
    (hgc : ∀ op, enabled op → op.collects = false) (h : Reach (system env enabled) (.init .empty) c)
    (h' : Reach (system env enabled) c c') (hcur : c.state.refs.lookup b = some r)
    (ht : t ∈ r.txids) (hcur' : c'.state.refs.lookup b' = some r') (hl : r'.lineage = r.lineage)
    (ht' : t ∈ r'.txids) : c'.state.content r.lineage t = c.state.content r.lineage t := by
  have hsafe := dataInv_of_reach hsettled hgc h
  have hsafe' := dataInv_of_reach hsettled hgc (h.trans h')
  have hlater := Safe.later hgc hsafe h'
  obtain ⟨ks, hp, hchain, hchain'⟩ := hlater.chain hsafe.inv.1 hsafe.inv.2 hsafe'.inv.1
    hsafe'.inv.2 hcur ht hcur' hl ht'
  refine content_congr hchain hchain' fun m hm => ?_
  exact hlater.frozen m.key (hp.frozen (pathMembers_key hm))

def openedSession : List (Move Oracle Op) :=
  [.start 0 (.create "db" ⟨512, [⟨512, 1⟩]⟩), .run 0 .fine 7,
    .start 1 (.session 0 ⟨"db", "main"⟩ 100 9 none [.flush none, .flush none]), .run 1 .fine 16,
    .start 2 (.captureRebase 1 ⟨512, [⟨512, 2⟩]⟩), .run 2 .fine 1]

/-- The ref write of its first flush fails, the content changes, and the second flush
commits over the upload of the first. -/
def retriedFlush : List (Move Oracle Op) :=
  [.run 1 .fine 11, .run 1 ⟨true, false, .pending, false, 0⟩ 1, .run 1 .fine 1,
    .start 3 (.captureRebase 1 ⟨512, [⟨512, 3⟩]⟩), .run 3 .fine 1, .run 1 .fine 13]

set_option maxRecDepth 4096 in
theorem committed_content_stable_retry : ∃ (c c' : Config World Oracle Op) (r r' : Ref),
      Config.play (system .localDir Op.keepsAll) openedSession (.init .empty) = some c ∧
      Config.play (system .localDir Op.keepsAll) retriedFlush c = some c' ∧
      c.state.refs.lookup ⟨"db", "main"⟩ = some r ∧ c'.state.refs.lookup ⟨"db", "main"⟩ = some r' ∧
      r.headTXID = 1 ∧ r'.headTXID = 2 ∧ 1 ∈ r'.txids ∧
      c'.state.content r.lineage 1 = c.state.content r.lineage 1 := by
  obtain ⟨c, hc, h⟩ := Config.exists_play (c := .init .empty) (m := openedSession)
    (Q := fun c => (c.play (system .localDir Op.keepsAll) retriedFlush).any fun c' =>
      (c.state.refs.lookup ⟨"db", "main"⟩).any fun r =>
      (c'.state.refs.lookup ⟨"db", "main"⟩).any fun r' =>
        r.headTXID = 1 ∧ r'.headTXID = 2 ∧ r'.lineage = r.lineage ∧ 1 ∈ r'.txids)
    (s := system .localDir Op.keepsAll) (by decide)
  obtain ⟨c', hc', h⟩ := Config.exists_play h
  obtain ⟨r, hr, h⟩ := (Option.any_eq_true _ _).mp h
  obtain ⟨r', hr', h⟩ := (Option.any_eq_true _ _).mp h
  obtain ⟨hhead, hhead', hl, hmem⟩ := of_decide_eq_true h
  exact ⟨c, c', r, r', hc, hc', hr, hr', hhead, hhead', hmem,
    committed_content_stable (by rfl) (fun op hop => hop) (Config.play_reach hc)
      (Config.play_reach hc') hr (Ref.mem_txids.mpr (.inl hhead.symm)) hr' hl hmem⟩

/-- The ref write of its first flush fails without a verdict, the content changes,
and the second flush has read the ref when that write lands. -/
def overtakenRetry : List (Move Oracle Op) :=
  openedSession ++
    [.run 1 .fine 11, .run 1 ⟨true, false, .pending, false, 0⟩ 1, .run 1 .fine 1,
      .start 3 (.captureRebase 1 ⟨512, [⟨512, 3⟩]⟩), .run 3 .fine 1,
      .run 1 .fine 5, .start 4 (.land 0), .run 4 .fine 1]

def overwrite : List (Move Oracle Op) := [.run 1 .fine 4]

set_option maxRecDepth 4096 in
theorem committed_content_changes : ¬ ∀ (env : Env) (c c' : Config World Oracle Op)
    (b b' : BranchId) (r r' : Ref) (t : Nat), Reach (system env Op.keepsAll) (.init .empty) c →
      Reach (system env Op.keepsAll) c c' → c.state.refs.lookup b = some r → t ∈ r.txids →
      c'.state.refs.lookup b' = some r' → r'.lineage = r.lineage → t ∈ r'.txids →
      c'.state.content r.lineage t = c.state.content r.lineage t := by
  intro hall
  obtain ⟨c, hc, h⟩ := Config.exists_play (c := .init .empty) (m := overtakenRetry)
    (Q := fun c => (c.play (system .bucket Op.keepsAll) overwrite).any fun c' =>
      (c.state.refs.lookup ⟨"db", "main"⟩).any fun r =>
      (c'.state.refs.lookup ⟨"db", "main"⟩).any fun r' =>
        r.headTXID = 2 ∧ r'.headTXID = 2 ∧ r'.lineage = r.lineage ∧
          (c'.state.content r.lineage 2).toOption.map (·.image) ≠
            (c.state.content r.lineage 2).toOption.map (·.image))
    (s := system .bucket Op.keepsAll) (by decide)
  obtain ⟨c', hc', h⟩ := Config.exists_play h
  obtain ⟨r, hr, h⟩ := (Option.any_eq_true _ _).mp h
  obtain ⟨r', hr', h⟩ := (Option.any_eq_true _ _).mp h
  obtain ⟨hhead, hhead', hl, hne⟩ := of_decide_eq_true h
  refine hne ?_
  rw [hall .bucket c c' _ _ r r' 2 (Config.play_reach hc) (Config.play_reach hc') hr
    (Ref.mem_txids.mpr (.inl hhead.symm)) hr' hl (Ref.mem_txids.mpr (.inl hhead'.symm))]

/-! ## Branches do not disturb each other -/

theorem Act.lookup_run {W : BranchId → RefOp.Kind → Prop} {a : Act} (h : a.Collects ∨ a.In W)
    (hb : ∀ k, ¬ W b k) : (a.run i w).refs.lookup b = w.refs.lookup b := by
  have hland {b' : BranchId} {op : RefOp} {after : Option Ref} (hb' : W b' op.kind) :
      (w.land i b' op after).refs.lookup b = w.refs.lookup b := by
    rw [World.lookup_land, if_neg]
    rintro rfl
    exact hb _ hb'
  cases a with
  | write b' op after => exact hland (h.resolve_left id)
  | grant b' op after lease =>
    show (w.land i b' op (some after)).refs.lookup b = w.refs.lookup b
    exact hland (h.resolve_left id)
  | late n => exact h.elim False.elim False.elim
  | _ => rfl

/-- An operation that does not target a branch leaves its ref as it is. -/
theorem Op.lookup_step {op : Op} (h : Reach (system env enabled) (.init .empty) c)
    (hb : ¬ op.targets b) (hstep : StepBy (system env enabled) i op c c') :
    c'.state.refs.lookup b = c.state.refs.lookup b := by
  have hprog (j : Nat) (op : Op) (_ : enabled op) : (op.prog env j).All
      fun w w' => ¬ op.targets b → w'.refs.lookup b = w.refs.lookup b := by
    by_cases hland : ∃ n, op = .land n
    · obtain ⟨n, rfl⟩ := hland
      exact Prog.All.step fun _ _ hb => absurd trivial hb
    · rw [not_exists] at hland
      refine Prog.All.mono ?_ (op.prog_within hland : Does env j _ _)
      rintro w w' ⟨a, ha, -, rfl⟩ hb
      exact Act.lookup_run (ha.imp_left (·.2)) fun k hk => hb (Op.targets_of_writes hk)
  cases hstep with
  | spawn _ _ => rfl
  | crash _ => rfl
  | run o hi => exact (Prog.All.of_reach hprog h hi).1 o c.state hb

/-- Steps on other branches: those of operations that do not target `b`, and those
that leave its ref as it is. -/
def Elsewhere (env : Env) (enabled : Op → Prop) (b : BranchId) :
    Config World Oracle Op → Config World Oracle Op → Prop :=
  Relation.ReflTransGen fun c c' => ∃ i op, StepBy (system env enabled) i op c c' ∧
    (¬ op.targets b ∨ c'.state.refs.lookup b = c.state.refs.lookup b)

theorem Elsewhere.reach (h : Elsewhere env enabled b c c') : Reach (system env enabled) c c' := by
  induction h with
  | refl => exact .refl
  | tail _ hstep ih =>
    obtain ⟨i, op, hby, -⟩ := hstep
    exact ih.tail ⟨i, op, hby⟩

theorem Elsewhere.lookup (h : Reach (system env enabled) (.init .empty) c)
    (h' : Elsewhere env enabled b c c') : c'.state.refs.lookup b = c.state.refs.lookup b := by
  induction h' with
  | refl => rfl
  | tail hpre hstep ih =>
    obtain ⟨i, op, hby, hb | hsame⟩ := hstep
    · exact (Op.lookup_step (h.trans (Elsewhere.reach hpre)) hb hby).trans ih
    · exact hsame.trans ih

/-- Branch isolation.  The members a branch resolves to, at its head and at each
checkpoint, are the same after any steps on other branches. -/
theorem branch_isolated {enabled : Op → Prop} {c c' : Config World Oracle Op}
    (hsettled : env.settled = true) (hgc : ∀ op, enabled op → op.collects = false)
    (h : Reach (system env enabled) (.init .empty) c) (h' : Elsewhere env enabled b c c')
    (hcur : c.state.refs.lookup b = some r) :
    c'.state.refs.lookup b = some r ∧ ∀ t ∈ r.txids, ∃ members,
      chain c.state.view r.lineage t = .ok members ∧
      chain c'.state.view r.lineage t = .ok members := by
  have hcur' := (Elsewhere.lookup h h').trans hcur
  have hsafe := dataInv_of_reach hsettled hgc h
  have hsafe' := dataInv_of_reach hsettled hgc (h.trans h'.reach)
  refine ⟨hcur', fun t ht => ?_⟩
  obtain ⟨ks, -, hchain, hchain'⟩ := (Safe.later hgc hsafe h'.reach).chain hsafe.inv.1
    hsafe.inv.2 hsafe'.inv.1 hsafe'.inv.2 hcur ht hcur' rfl ht
  exact ⟨pathMembers ks, hchain, hchain'⟩

/-- A branch is forked, and a checkpoint of its parent is about to upload. -/
def forkedParent : List (Move Oracle Op) :=
  [.start 0 (.create "db" ⟨512, [⟨512, 1⟩]⟩), .run 0 .fine 7,
    .start 1 (.fork 0 ⟨"db", "main"⟩ ⟨"db", "child"⟩ ⟨none, 0, ∅, false⟩ 9), .run 1 .fine 12,
    .start 2 (.checkout 0 ⟨"db", "main"⟩ 9), .run 2 .fine 12,
    .start 3 (.appWrite 0 ⟨"db", "main"⟩ ⟨512, [⟨512, 2⟩]⟩), .run 3 .fine 1,
    .start 4 (.checkpoint 0 ⟨"db", "main"⟩ "a" 9 ⟨true, false, 5⟩), .run 4 .fine 12]

set_option maxRecDepth 4096 in
theorem branch_isolated_child :
    ∃ (c c' : Config World Oracle Op) (r : Ref) (members : List (ChainMember DataKey)),
      Config.play (system .localDir Op.keepsAll) forkedParent (.init .empty) = some c ∧
      c.runs 4 .fine 1 = some c' ∧ c.state.refs.lookup ⟨"db", "child"⟩ = some r ∧
      c.state.objs.lookup (.snapshot 0 2 2) = none ∧
      (c'.state.objs.lookup (.snapshot 0 2 2)).isSome ∧ r.headTXID = 1 ∧
      chain c.state.view r.lineage 1 = .ok members ∧
      chain c'.state.view r.lineage 1 = .ok members ∧
      members.map (·.key) = [.snapshot 0 1 1] := by
  obtain ⟨c, hc, h⟩ := Config.exists_play (c := .init .empty) (m := forkedParent)
    (Q := fun c => (c.runs 4 .fine 1).any fun c' =>
      (c.state.refs.lookup ⟨"db", "child"⟩).any fun r =>
        (c.threads 4).map (·.1) = some (.checkpoint 0 ⟨"db", "main"⟩ "a" 9 ⟨true, false, 5⟩) ∧
        c.state.objs.lookup (.snapshot 0 2 2) = none ∧
        (c'.state.objs.lookup (.snapshot 0 2 2)).isSome ∧ r.headTXID = 1 ∧
        (chain c.state.view r.lineage 1).toOption.map (·.map (·.key)) = some [.snapshot 0 1 1])
    (s := system .localDir Op.keepsAll) (by decide)
  obtain ⟨c', hc', h⟩ := (Option.any_eq_true _ _).mp h
  obtain ⟨r, hr, h⟩ := (Option.any_eq_true _ _).mp h
  obtain ⟨hop, hnone, hsome, hhead, hkeys⟩ := of_decide_eq_true h
  have hstep : Elsewhere .localDir Op.keepsAll ⟨"db", "child"⟩ c c' :=
    .single ⟨4, _, Config.runs_one hc' hop, .inl (by simp [Op.targets])⟩
  obtain ⟨-, hall⟩ := branch_isolated (by rfl) (fun op hop => hop) (Config.play_reach hc) hstep hr
  obtain ⟨members, hchain, hchain'⟩ := hall 1 (Ref.mem_txids.mpr (.inl hhead.symm))
  refine ⟨c, c', r, members, hc, hc', hr, hnone, hsome, hhead, hchain, hchain', ?_⟩
  simpa [hchain, Except.toOption] using hkeys

end Offshoot
