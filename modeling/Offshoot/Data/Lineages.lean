import Offshoot.Data.Layer
import Offshoot.System.Prepare

/-!
# Preparing a lineage

An operation that gives a branch a new lineage is in flight from start to end, and
while it is, nothing is collected.  So the objects of the ref it reads stay, and
the lineage it has minted has the objects it puts there and no others.

What such a thread knows is a predicate it carries: one no step can invalidate,
its own included, as long as it is in flight.
-/

namespace Offshoot

open Conc Maps List

variable {env : Env} {hset : env.settled = true} {gc : Prop}
  {assumed : World → World → Prop} {w w' w₀ : World} {i j : Nat} {b : BranchId}
  {P Q : World → Prop}
variable {src : Ref} {t : Nat} {ks : List DataKey}

/-- What holds throughout a flight. -/
structure Carried (env : Env) (gc : Prop) (assumed : World → World → Prop) (i : Nat)
    (P : World → Prop) : Prop where
  flying : ∀ {w}, P w → w.inFlight i = some .fork
  step : ∀ {j w w'}, RefsInv env w → DataInv w → Trans gc assumed j w w' →
    w'.inFlight i = some .fork → P w → P w'

namespace Carried

theorem stable (hP : Carried env gc assumed i P) : DataStable hset gc assumed i P :=
  dataLayer.stable fun _ _ _ hij hr h htr hw =>
    hP.step hr h htr ((htr.flight i hij).trans (hP.flying hw)) hw

theorem of_objs (hP : Carried env gc assumed i P) (hr : RefsInv env w) (h : DataInv w)
    (htr : Trans gc assumed i w w') (hf : w'.inFlight = w.inFlight) (hw : P w) : P w' :=
  hP.step hr h htr (hf ▸ hP.flying hw) hw

theorem and (hP : Carried env gc assumed i P) (hQ : Carried env gc assumed i Q) :
    Carried env gc assumed i fun w => P w ∧ Q w :=
  ⟨fun h => hP.flying h.1, fun hr hd htr hf h =>
    ⟨hP.step hr hd htr hf h.1, hQ.step hr hd htr hf h.2⟩⟩

theorem flight : Carried env gc assumed i fun w => w.inFlight i = some .fork :=
  ⟨id, fun _ _ _ hf _ => hf⟩

end Carried

theorem Does.carried {A : Act → Prop} {p : M α} (hp : Does env i A p) (hA : ∀ a, A a → a.Tame)
    (hP : Carried env gc assumed i P) (hw : P w) : DataOk hset gc assumed i (fun _ w => P w) p w :=
  hp.tame hA hP.stable
    (fun _ _ hr h ha _ htr hw => hP.of_objs hr h htr ((hA _ ha).inFlight hset hr) hw) hw

/-! ## The ref a lineage is made from -/

/-- `w` comes after `w₀`: the history has grown, lineages named then have the bases
they had, and those no ref read then are not read again. -/
structure Since (w₀ w : World) : Prop where
  log : w₀.log ⊆ w.log
  base : ∀ {l bp}, w₀.Named l → w.BaseOf l bp → w₀.BaseOf l bp
  current : ∀ {b r}, w.refs.lookup b = some r → w₀.Named r.lineage →
    ∃ b' r', w₀.refs.lookup b' = some r' ∧ r'.lineage = r.lineage

theorem Since.refl : Since w w := ⟨List.Subset.refl _, fun _ h => h, fun h _ => ⟨_, _, h, rfl⟩⟩

theorem Since.trans (h : Since w₀ w) (htr : Trans gc assumed j w w') : Since w₀ w' := by
  refine ⟨List.Subset.trans h.log htr.log, fun {l bp} hn hb => h.base hn ?_, fun hcur hn => ?_⟩
  · cases htr.data with
    | still hs _ _ | put _ hs _ _ | drop _ hs _ _ => exact hs.baseOf ▸ hb
    | wrote _ _ _ hnames hs _ _ =>
      rw [hs.baseOf] at hb
      rcases World.baseOf_land.mp hb with hb | ⟨r, -, hl, -⟩
      · exact hb
      · exact absurd (hn.mono h.log) (hnames l hl).1.2.1
  · obtain ⟨b₁, r₁, hcur₁, hl₁⟩ := htr.current hcur (hn.mono h.log)
    obtain ⟨b₀, r₀, hcur₀, hl₀⟩ := h.current hcur₁ (hl₁ ▸ hn)
    exact ⟨b₀, r₀, hcur₀, hl₀.trans hl₁⟩

/-- What the thread knows of a ref it read in `w₀`: the objects its txids resolve to
are there. -/
structure Source (i : Nat) (w₀ : World) (src : Ref) (w : World) : Prop where
  flying : w.inFlight i = some .fork
  since : Since w₀ w
  held : ∀ {t ks k}, t ∈ src.txids → Path w₀ src.lineage t ks → k ∈ ks → w.Has k

theorem Source.of_current (h : DataInv w) (hf : w.inFlight i = some .fork)
    (hcur : w.refs.lookup b = some src) : Source i w src w where
  flying := hf
  since := .refl
  held ht hp hk := h.obj.live ⟨b, src, _, _, hcur, ht, hp, hk⟩

theorem World.Frozen.mono {k : DataKey} (h : w.Frozen k) (hlog : w.log ⊆ w'.log) : w'.Frozen k := by
  rcases h with ⟨c, hc, rfl⟩ | ⟨l, bp, hb, rfl⟩
  · exact .inl ⟨c, hc.mono hlog, rfl⟩
  · exact .inr ⟨l, bp, hb.mono hlog, rfl⟩

theorem Source.carried : Carried env gc assumed i (Source i w₀ src) where
  flying h := h.flying
  step hr h htr hf hs := by
    refine ⟨hf, hs.since.trans htr, fun {t ks k} ht hp hk => ?_⟩
    have hfro := (hp.frozen hk).mono hs.since.log
    rcases htr.frozen hr h hfro with hsame | ⟨-, hswept⟩
    · simpa only [World.Has, hsame] using hs.held ht hp hk
    · exact absurd hs.flying (hswept.idle i)

theorem Carried.source (hP : Carried env gc assumed i P) (w₀ : World) (src : Ref) :
    Carried env gc assumed i fun w => P w ∧ Source i w₀ src w := hP.and Source.carried

/-! ## Resolving from reads -/

section Resolve

variable {B : Lineage → Except ReadErr (Option BasePointer) → Prop}
  {M : Lineage → List (ChainMember DataKey) → Prop}

theorem resolve_ok {f : View DataKey → Except (ChainErr DataKey) α} {c : Cache}
    (hstable : DataStable hset gc assumed i P)
    (hbase : ∀ w l, RefsInv env w → DataInv w → P w → B l (w.objs.base l))
    (hmembers : ∀ w l, RefsInv env w → DataInv w → P w → M l (w.objs.members l)) (hc : c.Good B M)
    (hw : P w) :
    DataOk hset gc assumed i
      (fun r w => P w ∧ (∀ a, r.1 = .ok a → ∃ c : Cache, c.Good B M ∧ f c.view = .ok a) ∧
        ∀ e, r.1 = .error (.chain e) → ∃ c : Cache, c.Good B M ∧ f c.view = .error e ∧
          ∀ rd, e.root ≠ .read rd .uncached)
      (resolve f fuel c) w :=
  resolve_holds (B := fun _ => B) (M := fun _ => M)
    (fun _ => .refl)
      (fun _ => hstable.and (Spec.Stable.const _))
    (fun w l hinv hw => hbase w l hinv.1 hinv.2 hw)
    (fun w l hinv hw => hmembers w l hinv.1 hinv.2 hw) ⟨hw, hc⟩

end Resolve

/-! ## Where a shared lineage points -/

theorem Path.named (hl : LogInv w) (hr : RefsInv env w) (h : Path w l t ks) : w.Named l := by
  cases h with
  | snapshot hc => exact hl.named_of_committed hc
  | segment hc _ => exact hl.named_of_committed hc
  | through hb _ _ => exact hr.named_of_baseOf hb

/-- Below the fork point, a path goes through the base. -/
theorem LogInv.path_through (h : LogInv w) (hb : w.BaseOf l bp) (hle : t ≤ bp.txid)
    (hp : Path w l t ks) : ∃ ks', Path w bp.lineage t ks' ∧ ks = .base l :: ks' := by
  cases hp with
  | snapshot hc => exact absurd (h.base_commit hb hc rfl) (by simpa using hle)
  | segment hc _ => exact absurd (h.base_commit hb hc rfl) (by simpa using hle)
  | through hb' _ hp =>
    obtain rfl := h.base_unique hb hb'
    exact ⟨_, hp, rfl⟩

/-- At or below `t`, what resolves from `l` resolves from `l'`, but for the base
objects in between. -/
def Collapsed (w₀ : World) (l l' : Lineage) (t : Nat) : Prop :=
  ∀ t' ks, t' ≤ t → Path w₀ l t' ks →
    ∃ ls ks', Path w₀ l' t' ks' ∧ ks = List.map DataKey.base ls ++ ks'

theorem Collapsed.refl : Collapsed w₀ l l t :=
  fun _ ks _ hp => ⟨[], ks, hp, rfl⟩

def BaseAnswer (w₀ : World) (l : Lineage) (ans : Except ReadErr (Option BasePointer)) : Prop :=
  w₀.Named l → ans = .ok none ∨ ∃ bp, w₀.BaseOf l bp ∧ ans = .ok (some bp)

theorem collapseBaseFrom_collapsed (hl : LogInv w₀) (hr : RefsInv env w₀) {c : Cache}
    {M : Lineage → List (ChainMember DataKey) → Prop} (hc : c.Good (BaseAnswer w₀) M)
    {start cur l' : Lineage} {fuel : Nat} {seen : List Lineage} (hp : Path w₀ cur t ks)
    (h : collapseBaseFrom c.view start t fuel cur seen = .ok l') : Collapsed w₀ cur l' t := by
  induction fuel generalizing cur seen ks with
  | zero => cases h
  | succ fuel ih =>
    rw [collapseBaseFrom] at h
    split at h
    · cases h
    · cases h
      exact .refl
    · rename_i bp hbase
      split at h
      · cases h
        exact .refl
      · split at h
        · cases h
        -- The cached answer is the base of a lineage on the path.
        obtain hnone | ⟨bp', hb, heq⟩ := hc.of_view hbase (hp.named hl hr)
        · cases hnone
        obtain rfl : bp = bp' := by simpa using heq
        obtain ⟨ks', hp', -⟩ := hl.path_through hb (by omega) hp
        intro t' ks₁ ht' hp₁
        obtain ⟨ks₂, hp₂, rfl⟩ := hl.path_through hb (by omega) hp₁
        obtain ⟨ls, ks₃, hp₃, rfl⟩ := ih hp' h t' ks₂ ht' hp₂
        exact ⟨cur :: ls, ks₃, hp₃, rfl⟩

theorem Since.baseAnswer (hs : Since w₀ w) (h : DataInv w) (l : Lineage) :
    BaseAnswer w₀ l (w.objs.base l) := by
  intro hn
  cases ho : w.objs.lookup (.base l) with
  | none => exact .inl (Objects.base_ok_none.mpr ho)
  | some o =>
    obtain ⟨bp, hb, rfl⟩ := h.obj.base (hn.mono hs.log) ho
    exact .inr ⟨bp, hs.base hn hb, Objects.base_ok_some.mpr ho⟩

theorem collapse_ok (hl : LogInv w₀) (hr₀ : RefsInv env w₀) (hp : Path w₀ src.lineage t ks)
    (hP : Carried env gc assumed i P) (hsrc : ∀ {w}, P w → Since w₀ w) (hw : P w) :
    DataOk hset gc assumed i
      (fun r w => P w ∧ ∀ l', r.1 = .ok l' → Collapsed w₀ src.lineage l' t)
      (resolve (collapseBase · src.lineage t) fuel .empty) w := by
  refine (resolve_ok (B := BaseAnswer w₀) (M := fun _ _ => True) hP.stable
    (fun w l _ h hw => (hsrc hw).baseAnswer h l) (fun _ _ _ _ _ => trivial) .empty hw).mono
    fun r w h => ⟨h.1, fun l' hres => ?_⟩
  obtain ⟨c, hc, hcollapse⟩ := h.2.1 l' hres
  exact collapseBaseFrom_collapsed hl hr₀ hc hp hcollapse

/-! ## A lineage with snapshots of its own -/

/-- The lineage is the thread's draft, and its objects are snapshots at `ts`. -/
structure Drafting (i : Nat) (l : Lineage) (ts : List Nat) (w : World) : Prop where
  draft : w.Draft i l
  only : ∀ {k}, w.Has k → k.lineage = l → ∃ t ∈ ts, k = .snapshot l 1 t
  has : ∀ {t}, t ∈ ts → w.Has (.snapshot l 1 t)

variable {o : Obj}

section Drafting

variable {l : Lineage} {ts : List Nat} {t fuel : Nat} {members : List (ChainMember DataKey)}

theorem Drafting.trans (h : Drafting i l ts w) (hr : RefsInv env w) (hij : i ≠ j)
    (hf : w.inFlight i = some .fork) (htr : Trans gc assumed j w w') : Drafting i l ts w' := by
  have hsame {k : DataKey} (hk : k.lineage = l) : w'.Has k ↔ w.Has k := by
    simp only [World.Has, htr.draft_objs hr hij h.draft hf hk]
  exact ⟨htr.draft hij h.draft, fun hk hl => h.only ((hsame hl).mp hk) hl,
    fun ht => (hsame rfl).mpr (h.has ht)⟩

theorem Carried.drafting (hP : Carried env gc assumed i P) :
    DataStable hset gc assumed i fun w => P w ∧ Drafting i l ts w :=
  dataLayer.stable fun _ _ _ hij hr h htr hw =>
    ⟨hP.step hr h htr ((htr.flight i hij).trans (hP.flying hw.1)) hw.1,
      hw.2.trans hr hij (hP.flying hw.1) htr⟩

theorem Drafting.putOK (h : Drafting i l ts w) (hf : w.inFlight i = some .fork) :
    PutOK i w (.snapshot l 1 t) o := by
  refine .draft h.draft hf fun hb => ?_
  obtain ⟨t, -, hk⟩ := h.only hb rfl
  cases hk

theorem Drafting.put (h : Drafting i l ts w) :
    Drafting i l (t :: ts) (w.putObj (.snapshot l 1 t) o) where
  draft := h.draft
  only hk hl := by
    rcases World.has_putObj.mp hk with rfl | hk
    · exact ⟨t, mem_cons_self, rfl⟩
    · obtain ⟨t', ht', hk'⟩ := h.only hk hl
      exact ⟨t', mem_cons_of_mem _ ht', hk'⟩
  has ht := by
    rcases mem_cons.mp ht with rfl | ht
    · exact World.has_putObj.mpr (.inl rfl)
    · exact World.has_putObj.mpr (.inr (h.has ht))

section

variable (hP : Carried env gc assumed i P)

include hP

theorem Drafting.put_step (hr : RefsInv env w) (h : DataInv w) (hw : P w ∧ Drafting i l ts w) :
    PutOK i w (.snapshot l 1 t) o ∧
      (Trans gc assumed i w (w.putObj (.snapshot l 1 t) o) →
        P (w.putObj (.snapshot l 1 t) o) ∧ Drafting i l (t :: ts) (w.putObj (.snapshot l 1 t) o)) :=
  ⟨hw.2.putOK (hP.flying hw.1), fun htr => ⟨hP.of_objs hr h htr rfl hw.1, hw.2.put⟩⟩

/-- A minted lineage is later than every named one and has no objects. -/
theorem newLineageID_ok (hw : P w) : DataOk hset gc assumed i
      (fun l w => P w ∧ Drafting i l [] w ∧ ∀ l', w.Named l' → l' < l) (newLineageID i) w := by
  refine Spec.Holds.step hP.stable hw fun w o hinv hw has => ?_
  obtain ⟨hr, h⟩ := hinv
  have htr : Trans gc assumed i w (Act.mint.run i w) :=
    Act.trans hset hr trivial (fun _ h => by cases h) trivial has.2
  have hfresh : ∀ j, ¬ w.Minted j w.nextLineage := fun j hj => lt_irrefl _ (hr.minted hj)
  have hnamed {l' : Lineage} (hn : (Act.mint.run i w).Named l') : w.Named l' := by
    rcases hr.named_run (a := .mint) (i := i) trivial hn with hn | hn | ⟨p, hp, hl⟩
    · exact hn
    · cases hn
    · rw [hr.settled hset] at hp
      cases hp
  refine ⟨⟨.mint, trivial, (fun _ h => by cases h), trivial, rfl⟩, hP.of_objs hr h htr rfl hw,
    ?_, ?_⟩
  · refine ⟨⟨mem_cons_self, fun hn => ?_, fun p hp => ?_⟩, fun {k} hk hl => ?_,
      by simp⟩
    · obtain ⟨j, hj⟩ := hr.named (hnamed hn)
      exact hfresh j hj
    · have hp : p ∈ w.pending := hp
      rw [hr.settled hset] at hp
      cases hp
    · obtain ⟨j, hj⟩ := h.obj.minted hk
      have hl : k.lineage = w.nextLineage := hl
      exact absurd (hl ▸ hj) (hfresh j)
  · intro l' hn
    obtain ⟨j, hj⟩ := hr.named (hnamed hn)
    exact hr.minted hj

theorem copySnapshotIntoLineage_ok (hw : P w ∧ Drafting i l ts w) : DataOk hset gc assumed i
      (fun r w => (∀ k, r = .ok k → k = .snapshot l 1 t ∧ P w ∧ Drafting i l (t :: ts) w) ∧
        ∀ x, r = .error x → w.Draft i l)
      (copySnapshotIntoLineage env members t l) w := by
  refine ((materializeMembers_does rfl).reads hP.drafting hw).bindOk
    (fun _ _ hw => ⟨by simp, fun _ _ => hw.2.draft⟩) fun a w hw => ?_
  dsimp only
  split
  · exact ⟨by simp, fun _ _ => hw.2.draft⟩
  refine (putIf_ok (Q := fun w => P w ∧ Drafting i l (t :: ts) w) hP.drafting hw
    fun _ hr h hw => Drafting.put_step hP hr h hw).bindOk
    (fun x _ hw => ⟨by simp, fun _ _ => (hw.2 x rfl).1.2.draft⟩) fun u w hw => ?_
  refine ⟨fun k hk => ?_, by simp⟩
  cases hk
  exact ⟨rfl, hw.1 rfl⟩

theorem tryFastForkCopy_ok (hw : P w ∧ Drafting i l [] w) : DataOk hset gc assumed i
      (fun r w => (r = .ok true → P w ∧ Drafting i l [t] w) ∧
        (r = .ok false → P w ∧ Drafting i l [] w))
      (tryFastForkCopy members t l fuel) w := by
  unfold tryFastForkCopy
  split
  · split
    · exact ⟨by simp, fun _ => hw⟩
    refine (copyObject_ok (Q := fun w => P w ∧ Drafting i l [t] w) hP.drafting hw
      fun _ _ hr h hw => Drafting.put_step hP hr h hw).bind fun r w hw => ?_
    split
    · exact ⟨by simp, by simp⟩
    · exact ⟨by simp, fun _ => hw.2 rfl⟩
    · refine ((chainAt_does rfl).reads hP.drafting (hw.1 rfl)).bindOk
        (fun _ _ _ => ⟨by simp, by simp⟩) fun _ w hw => ?_
      exact ⟨fun _ => hw, by simp⟩
  · exact ⟨by simp, fun _ => hw⟩

theorem copySnapshotToNewLineage_ok (hw : P w) : DataOk hset gc assumed i
      (fun r w => ∀ l, r = .ok l → P w ∧ Drafting i l [t] w)
      (copySnapshotToNewLineage env i members t fuel) w := by
  refine (newLineageID_ok hP hw).bind fun l w hw => ?_
  refine (tryFastForkCopy_ok hP ⟨hw.1, hw.2.1⟩).bind fun r w hw => ?_
  split
  · exact fun _ h => by cases h
  · rintro l' h
    cases h
    exact hw.1 rfl
  · refine (copySnapshotIntoLineage_ok hP (hw.2 rfl)).bindOk
      (fun _ _ _ => fun _ h => by cases h) fun k w hw => ?_
    rintro l' h
    cases h
    exact (hw.1 k rfl).2

/-- What copying checkpoints leaves: one snapshot for each txid done before or among
them. -/
theorem copyCheckpoints_ok {cps : List Checkpoint} (hw : P w ∧ Drafting i l ts w) :
    DataOk hset gc assumed i
      (fun r w => w.Draft i l ∧ (∀ k ∈ r.2, k.lineage = l) ∧ (r.1 = .ok () → P w ∧
        ∃ ts', Drafting i l ts' w ∧ ∀ t, t ∈ ts' ↔ t ∈ ts ∨ ∃ cp ∈ cps, cp.txid = t))
      (copyCheckpoints env src l fuel cps ts) w := by
  induction cps generalizing w ts with
  | nil => exact ⟨hw.2.draft, by simp, fun _ => ⟨hw.1, ts, hw.2, by simp⟩⟩
  | cons cp rest ih =>
    rw [copyCheckpoints]
    split
    · rename_i hdone
      refine (ih hw).mono fun r w h => ⟨h.1, h.2.1, fun hr => ?_⟩
      obtain ⟨hw, ts', hd', hts'⟩ := h.2.2 hr
      refine ⟨hw, ts', hd', fun t => ?_⟩
      rw [hts', exists_mem_cons_iff]
      constructor
      · rintro (ht | hcp)
        · exact .inl ht
        · exact .inr (.inr hcp)
      · rintro (ht | rfl | hcp)
        · exact .inl ht
        · exact .inl hdone
        · exact .inr hcp
    · refine ((chainAt_does rfl).reads hP.drafting hw).bindOk
        (fun _ _ hw => ⟨hw.2.draft, by simp, by simp⟩) fun members w hw => ?_
      refine (copySnapshotIntoLineage_ok hP hw).bindOk
        (fun x _ hw => ⟨hw.2 x rfl, by simp, by simp⟩) fun k w hw => ?_
      obtain ⟨rfl, hcopied⟩ := hw.1 k rfl
      refine (ih hcopied).bind fun r w h => ⟨h.1, ?_, fun hr => ?_⟩
      · simpa using ⟨rfl, h.2.1⟩
      · obtain ⟨hw, ts', hd', hts'⟩ := h.2.2 hr
        refine ⟨hw, ts', hd', fun t => ?_⟩
        rw [hts', mem_cons, exists_mem_cons_iff]
        tauto

end

theorem deleteObjs_ok {keys : List DataKey} (hkeys : ∀ k ∈ keys, k.lineage = l) (hw : w.Draft i l) :
    DataOk hset gc assumed i ⊤ (deleteObjs keys) w := by
  have hstable : DataStable hset gc assumed i fun w => w.Draft i l :=
    dataLayer.stable fun _ _ _ hij _ _ htr hd => htr.draft hij hd
  induction keys generalizing w with
  | nil => exact trivial
  | cons k ks ih =>
    refine (deleteObj_ok hstable hw fun w _ _ hd => ?_).bind fun _ w hw =>
      ih (fun k hk => hkeys k (mem_cons_of_mem _ hk)) hw
    exact ⟨.draft (hkeys k mem_cons_self ▸ hd), fun _ => hd⟩

end Drafting

/-! ## A lineage that shares its history -/

/-- The lineage is the thread's draft, and its only object is its base pointer. -/
structure Sharing (i : Nat) (l : Lineage) (bp : BasePointer) (w : World) : Prop where
  draft : w.Draft i l
  base : w.objs.lookup (.base l) = some (.base bp)
  only : ∀ {k}, w.Has k → k.lineage = l → k = .base l

section Sharing

variable {l : Lineage} {bp : BasePointer}

theorem Sharing.trans (h : Sharing i l bp w) (hr : RefsInv env w) (hij : i ≠ j)
    (hf : w.inFlight i = some .fork) (htr : Trans gc assumed j w w') : Sharing i l bp w' := by
  have hsame {k : DataKey} (hk : k.lineage = l) : w'.objs.lookup k = w.objs.lookup k :=
    htr.draft_objs hr hij h.draft hf hk
  exact ⟨htr.draft hij h.draft, (hsame rfl).trans h.base,
    fun hk hl => h.only (by simpa only [World.Has, hsame hl] using hk) hl⟩

theorem Carried.sharing (hP : Carried env gc assumed i P) :
    DataStable hset gc assumed i fun w => P w ∧ Sharing i l bp w :=
  dataLayer.stable fun _ _ _ hij hr h htr hw =>
    ⟨hP.step hr h htr ((htr.flight i hij).trans (hP.flying hw.1)) hw.1,
      hw.2.trans hr hij (hP.flying hw.1) htr⟩

theorem Drafting.share (h : Drafting i l [] w) :
    Sharing i l bp (w.putObj (.base l) (.base bp)) where
  draft := h.draft
  base := by simp [World.putObj]
  only hk hl := by
    rcases World.has_putObj.mp hk with rfl | hk
    · rfl
    · obtain ⟨t, ht, -⟩ := h.only hk hl
      cases ht

/-- What `newLineageAt` has made: a copy, or a pointer at what `src` resolves to. -/
structure NewLineage (i : Nat) (w₀ : World) (src : Ref) (t : Nat) (l : Lineage)
    (base : Option BasePointer) (w : World) : Prop where
  own : base = none → Drafting i l [t] w
  shared : ∀ {bp}, base = some bp →
    Sharing i l bp w ∧ bp.txid = t ∧ Collapsed w₀ src.lineage bp.lineage t

theorem Carried.newLineage (hP : Carried env gc assumed i P) {base : Option BasePointer} :
    DataStable hset gc assumed i fun w => P w ∧ NewLineage i w₀ src t l base w :=
  dataLayer.stable fun _ _ _ hij hr h htr hw => by
    refine ⟨hP.step hr h htr ((htr.flight i hij).trans (hP.flying hw.1)) hw.1,
      fun hb => (hw.2.own hb).trans hr hij (hP.flying hw.1) htr, fun hb => ?_⟩
    obtain ⟨hs, hx⟩ := hw.2.shared hb
    exact ⟨hs.trans hr hij (hP.flying hw.1) htr, hx⟩

theorem newLineageAt_ok (hP : Carried env gc assumed i P) (hl : LogInv w₀) (hr₀ : RefsInv env w₀)
    (hp : Path w₀ src.lineage t ks) (hsrc : ∀ {w}, P w → Since w₀ w) {materialize : Bool}
    (hw : P w) :
    DataOk hset gc assumed i
      (fun r w => ∀ l base, r = .ok (l, base) → P w ∧ NewLineage i w₀ src t l base w)
      (newLineageAt env i src t members materialize fuel) w := by
  unfold newLineageAt
  split
  · refine (copySnapshotToNewLineage_ok hP hw).bindOk
      (fun _ _ _ => fun _ _ h => by cases h) fun l w hw => ?_
    intro l' base h
    cases h
    obtain ⟨hw, hd⟩ := hw l rfl
    exact ⟨hw, fun _ => hd, by simp⟩
  · refine (collapse_ok hl hr₀ hp hP hsrc hw).bind fun r w hw => ?_
    split
    · exact fun _ _ h => by cases h
    rename_i l' hres
    obtain ⟨hw, hcol⟩ := hw
    replace hcol := hcol l' hres
    refine (newLineageID_ok hP hw).bind fun l w hw => ?_
    obtain ⟨hw, hd, hlt⟩ := hw
    split
    · exact fun _ _ h => by cases h
    -- The lineage pointed at is named, so it is older.
    have holder : l' < l := by
      obtain ⟨-, ks', hp', -⟩ := hcol t ks le_rfl hp
      exact hlt l' ((hp'.named hl hr₀).mono (hsrc hw).log)
    refine (putIf_ok (Q := fun w => P w ∧ Sharing i l ⟨l', t⟩ w) hP.drafting ⟨hw, hd⟩
      fun w hr h hw => ⟨.base hw.2.draft (hP.flying hw.1) holder fun k hk hkl => ?_,
        fun htr => ⟨hP.of_objs hr h htr rfl hw.1, hw.2.share⟩⟩).bind fun r w hw => ?_
    · obtain ⟨t', ht', -⟩ := hw.2.only hk hkl
      cases ht'
    · cases r with
      | error x => exact fun _ _ h => by cases h
      | ok u =>
        intro l₁ base h
        cases h
        obtain ⟨hw, hs⟩ := hw.1 rfl
        refine ⟨hw, by simp, fun {bp} hb => ?_⟩
        cases hb
        exact ⟨hs, rfl, hcol⟩

end Sharing

end Offshoot
