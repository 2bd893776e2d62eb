import Offshoot.Data.Store

/-!
# The objects of every run

On a backend whose failed writes wrote nothing, a step changes the refs and their
history, or one object, or neither.  `Act.guarded` says what it must respect in
doing so: an upload goes above every head its writer can have seen, a head moves
to an object that is there and outranks what else is there, and a lineage gets its
objects before a ref names it.  The history and the objects then stay in order.
-/

namespace Offshoot

open Conc Maps

variable {env : Env} {gc : Prop} {assumed : World → World → Prop} {w w' : World} {i j : Nat}
variable {a : Act} {k : DataKey} {P : World → Prop}

structure DataInv (w : World) : Prop where
  log : LogInv w
  obj : ObjInv w

/-- What an act must respect, besides editing what it replaces.  `gc` says whether
collections run. -/
def Act.guarded (gc : Prop) (i : Nat) (w : World) : Act → Prop
  | write _ op after => (∀ c, op.head = some c → HeadOK w c) ∧
      ∀ l r, op.names = some l → after = some r → Prepared w r ∧ Stocked w l r
  | put k o => PutOK i w k o
  | drop k => DropOK i w k
  | sweep _ k => gc ∧ SweepOK w k
  | _ => True

/-- What a step of thread `i` does to the refs, their history and the objects. -/
inductive DataStep (gc : Prop) (i : Nat) (w w' : World) : Prop
  | still (hs : w.SameWrites w') (hrefs : ∀ b, w'.refs.lookup b = w.refs.lookup b)
      (hobjs : w'.objs = w.objs)
  | wrote {b : BranchId} {op : RefOp} {after : Option Ref}
      (happly : op.apply (w.refs.lookup b) = some after) (hby : op.by i)
      (hhead : ∀ c, op.head = some c → HeadOK w c)
      (hnames : ∀ l, op.names = some l → w.Draft i l ∧
        ∀ r, after = some r → Prepared w r ∧ Stocked w l r)
      (hs : (w.land i b op after).SameWrites w')
      (hrefs : ∀ b', w'.refs.lookup b' = (w.land i b op after).refs.lookup b')
      (hobjs : w'.objs = w.objs)
  | put {k : DataKey} {o : Obj} (hok : PutOK i w k o) (hs : w.SameWrites w')
      (hrefs : ∀ b, w'.refs.lookup b = w.refs.lookup b) (hobjs : w'.objs = (w.putObj k o).objs)
  | drop {k : DataKey} (hok : DropOK i w k ∨ gc ∧ SweepOK w k) (hs : w.SameWrites w')
      (hrefs : ∀ b, w'.refs.lookup b = w.refs.lookup b) (hobjs : w'.objs = (w.dropObj k).objs)

/-- The one step lemma: all that follows about objects is said of `DataStep`. -/
theorem Act.dataStep (hset : env.settled = true) (hr : RefsInv env w) (hok : a.ok env i w)
    (hname : ∀ l, a.names = some l → w.Draft i l) (hg : a.guarded gc i w) :
    DataStep gc i w (a.run i w) := by
  cases a with
  | note e =>
    exact .still (.note (by rintro _ _ _ _ _ rfl; exact hok)) (fun _ => rfl) rfl
  | mint =>
    have hs : w.SameWrites (w.note (.minted i w.nextLineage)) := .note (by simp)
    exact .still (fun _ _ _ _ _ => hs _ _ _ _ _) (fun _ => rfl) rfl
  | adopt b r lease => exact .still (.note (by simp)) (fun _ => rfl) rfl
  | late n =>
    -- Nothing is pending on a settled backend.
    have hrun : Act.run i w (.late n) = w := by simp [Act.run, World.landLate, hr.settled hset]
    rw [hrun]
    exact .still (.of_log rfl) (fun _ => rfl) rfl
  | send b op before after => simp [Act.ok, hset] at hok
  | sendPut k o co => simp [Act.ok, hset] at hok
  | sendStones before after => simp [Act.ok, hset] at hok
  | write b op after =>
    exact .wrote hok.1 hok.2 hg.1 (fun l hl => ⟨hname l hl, fun r hafter => hg.2 l r hl hafter⟩)
      (.of_log rfl) (fun _ => rfl) rfl
  | grant b op after lease =>
    have hhead := RefOp.plain_head hok.2.1
    have hnames := Act.plain_names hok.2.1
    exact .wrote hok.1 hok.2.1.by (by simp [hhead]) (by simp [hnames]) (.note (by simp))
      (fun _ => rfl) rfl
  | effect b e r =>
    have hst : r.stored = r := hr.stored (hr.current hok.1)
    have happly : RefOp.apply (.edit e) (w.refs.lookup b) = some (some r) := by
      simp [hok.1, RefOp.apply, RefEdit.apply, hok.2.1, hst]
    refine .wrote happly hok.2.2.by (by simp [RefOp.plain_head hok.2.2])
      (by simp [Act.plain_names hok.2.2]) (.of_log ?_) (fun b' => ?_) rfl
    · simp [Act.run, World.note, World.land_log, hok.1]
    · rw [World.lookup_land]
      split
      · rename_i hb
        exact hb ▸ hok.1
      · rfl
  | put k o => exact .put hg (.of_log rfl) (fun _ => rfl) rfl
  | drop k => exact .drop (.inl hg) (.of_log rfl) (fun _ => rfl) rfl
  | sweep time k => exact .drop (.inr hg) (.note (by simp)) (fun _ => rfl) rfl
  | _ => exact .still (.of_log rfl) (fun _ => rfl) rfl

theorem DataInv.of_same (h : DataInv w) (hs : w.SameWrites w') (hlog : w.log ⊆ w'.log)
    (hrefs : ∀ b, w'.refs.lookup b = w.refs.lookup b) (hobjs : w'.objs = w.objs) : DataInv w' :=
  ⟨h.log.of_same hs, h.obj.of_same hs hlog hrefs hobjs⟩

theorem DataInv.land (h : DataInv w) (hr : RefsInv env w) {op : RefOp} {after : Option Ref}
    (happly : op.apply (w.refs.lookup b) = some after) (hhead : ∀ c, op.head = some c → HeadOK w c)
    (hnames : ∀ l, op.names = some l → w.Draft i l ∧ ∀ r, after = some r → Prepared w r ∧
      Stocked w l r) : DataInv (w.land i b op after) := by
  rcases op.plain_or with hplain | ⟨c, hc⟩ | ⟨l, hl⟩
  · have hlog : LogInv (w.land i b op after) := h.log.land_plain hr happly hplain
    exact ⟨hlog, h.obj.land_plain h.log hr hlog hplain happly⟩
  · have hok := hhead c hc
    have hlog : LogInv (w.land i b op after) := h.log.land_head hr hc happly hok.slot
    exact ⟨hlog, h.obj.land_head h.log hr hlog hc hok happly⟩
  · obtain ⟨hd, hready⟩ := hnames l hl
    have hlog : LogInv (w.land i b op after) :=
      h.log.land_names hr hl hd.2.1 happly fun r hafter => (hready r hafter).1
    exact ⟨hlog, h.obj.land_names h.log hr hlog hl hd.2.1 hready happly⟩

theorem DataStep.inv (hr : RefsInv env w) (h : DataInv w) (hlog : w.log ⊆ w'.log)
    (hstep : DataStep gc i w w') : DataInv w' := by
  cases hstep with
  | still hs hrefs hobjs => exact h.of_same hs hlog hrefs hobjs
  | wrote happly _ hhead hnames hs hrefs hobjs =>
    have hland := (hs _ _ _ _ _).mpr List.mem_cons_self
    exact (h.land hr happly hhead hnames).of_same hs
      (List.cons_subset.mpr ⟨hland, hlog⟩) hrefs hobjs
  | put hok hs hrefs hobjs =>
    have hput : DataInv (w.putObj _ _) := ⟨h.log.of_same (.of_log rfl), h.obj.put h.log hr hok⟩
    exact hput.of_same hs hlog hrefs hobjs
  | drop hok hs hrefs hobjs =>
    have hdrop : DataInv (w.dropObj _) := ⟨h.log.of_same (.of_log rfl),
      h.obj.dropObj (hok.elim (·.unread h.log hr) (·.2.unread))⟩
    exact hdrop.of_same hs hlog hrefs hobjs

/-! ## What a step leaves alone -/

/-- A step of thread `i` as the others see it. -/
structure Trans (gc : Prop) (assumed : World → World → Prop) (i : Nat) (w w' : World) : Prop where
  log : w.log ⊆ w'.log
  assumed : assumed w w'
  data : DataStep gc i w w'
  flight : ∀ j, j ≠ i → w'.inFlight j = w.inFlight j
  session : ∀ j, j ≠ i → w'.sessions j = w.sessions j ∨ Captured (w.sessions j) (w'.sessions j)
  draft : ∀ {j l}, j ≠ i → w.Draft j l → w'.Draft j l

theorem Act.trans (hset : env.settled = true) (hr : RefsInv env w) (hok : a.ok env i w)
    (hname : ∀ l, a.names = some l → w.Draft i l) (hg : a.guarded gc i w)
    (has : assumed w (a.run i w)) : Trans gc assumed i w (a.run i w) where
  log := a.log_run.subset
  assumed := has
  data := a.dataStep hset hr hok hname hg
  flight j hj := by
    cases a with
    | flight f => simp [Act.run, World.setFlight, hj]
    | late n => simp [Act.run, World.landLate, hr.settled hset]
    | _ => rfl
  session j hj := by
    cases a with
    | session j' s =>
      by_cases hjj : j = j'
      · subst hjj
        exact .inr (by simpa [Act.run, World.setSession] using hok.resolve_left hj)
      · exact .inl (by simp [Act.run, World.setSession, hjj])
    | late n => exact .inl (by simp [Act.run, World.landLate, hr.settled hset])
    | _ => exact .inl rfl
  draft hj hd := hd.run hr hok fun hl => hj (hr.minted_unique hd.1 (hname _ hl).1)

namespace Trans

variable (htr : Trans gc assumed j w w')
variable {l : Lineage}

include htr

theorem inv (hr : RefsInv env w) (h : DataInv w) : DataInv w' := htr.data.inv hr h htr.log

/-- A lineage keeps its branch, and loses it for good. -/
theorem current {b : BranchId} {r : Ref} (hcur : w'.refs.lookup b = some r)
    (hn : w.Named r.lineage) : ∃ b' r', w.refs.lookup b' = some r' ∧ r'.lineage = r.lineage := by
  have hsame (hrefs : ∀ b, w'.refs.lookup b = w.refs.lookup b) :
      ∃ b' r', w.refs.lookup b' = some r' ∧ r'.lineage = r.lineage := ⟨b, r, hrefs b ▸ hcur, rfl⟩
  cases htr.data with
  | still _ hrefs _ | put _ _ hrefs _ | drop _ _ hrefs _ => exact hsame hrefs
  | wrote happly _ _ hnames _ hrefs _ =>
    rw [hrefs, World.lookup_land] at hcur
    split at hcur
    · subst hcur
      obtain ⟨l, hl, rfl, -, -⟩ | ⟨r₀, hr₀, -, hf⟩ := RefOp.apply_cases happly
      · exact absurd hn (hnames _ hl).1.2.1
      · exact ⟨_, r₀, hr₀, hf.lineage.symm⟩
    · exact ⟨b, r, hcur, rfl⟩

theorem dead (hd : w.Dead k) : w'.Dead k := by
  intro l e t hs
  rcases hd l e t hs with he | ⟨b, r, hv, hx⟩ | ⟨hn, hgone⟩
  · exact .inl he
  · exact .inr (.inl ⟨b, r, hv.mono htr.log, hx⟩)
  · refine .inr (.inr ⟨hn.mono htr.log, fun b r hcur hrl => ?_⟩)
    obtain ⟨b', r', hcur', hrl'⟩ := htr.current hcur (hrl ▸ hn)
    exact hgone b' r' hcur' (hrl'.trans hrl)

variable {e : Nat}

/-- A holder is new only with a new epoch. -/
theorem owner (hr : RefsInv env w) {h : Holder} (ho : w'.Owner l e h) :
    w.Owner l e h ∨ w'.objs = w.objs ∧ w.Named l ∧
      ∀ b r, w.Version b r → r.lineage = l → r.epoch < e := by
  obtain ⟨b, r, hv, hrl, hre, hrh⟩ := ho
  have hsame (hs : w.SameWrites w') : w.Owner l e h := ⟨b, r, hs.version ▸ hv, hrl, hre, hrh⟩
  cases htr.data with
  | still hs _ _ | put _ hs _ _ | drop _ hs _ _ => exact .inl (hsame hs)
  | wrote happly _ _ hnames hs _ hobjs =>
    rw [hs.version] at hv
    rcases World.version_land.mp hv with ⟨rfl, rfl⟩ | hv
    · obtain ⟨l', -, -, -, hnone⟩ | ⟨r₀, hr₀, -, hf⟩ := RefOp.apply_cases happly
      · rw [hrh] at hnone
        cases hnone
      · rcases hf.holder h hrh with hlt | ⟨heq, hold⟩
        · have hl₀ := hf.lineage.symm.trans hrl
          refine .inr ⟨hobjs, ⟨_, r₀, hr.current hr₀, hl₀⟩, fun b' r' hv' hrl' => ?_⟩
          have := (hr.latest hr₀ hv' (hrl'.trans hl₀.symm)).1
          omega
        · exact .inl ⟨_, r₀, hr.current hr₀, hf.lineage.symm.trans hrl, heq.symm.trans hre, hold⟩
    · exact .inl ⟨b, r, hv, hrl, hre, hrh⟩

variable {t : Nat}

section

variable (hr : RefsInv env w)

include hr

/-- An epoch's objects come from its holder. -/
theorem has_of_owner (hij : i ≠ j) (ho : w.Owner l e i) (hk : w'.Has k)
    (hs : k.slot = some (l, e, t)) : w.Has k := by
  cases htr.data with
  | still _ _ hobjs => simpa only [World.Has, hobjs] using hk
  | wrote _ _ _ _ _ _ hobjs => simpa only [World.Has, hobjs] using hk
  | drop _ _ _ hobjs =>
    simp only [World.Has, hobjs] at hk
    exact (World.has_dropObj.mp hk).2
  | put hok _ _ hobjs =>
    simp only [World.Has, hobjs] at hk
    rcases World.has_putObj.mp hk with rfl | hk
    · cases hok with
      | draft hd _ _ =>
        obtain ⟨rfl, -, -⟩ : _ = l ∧ 1 = e ∧ _ = t := by simpa [DataKey.slot] using hs
        obtain ⟨b, r, hv, hrl, -⟩ := ho
        exact absurd ⟨b, r, hv, hrl⟩ hd.2.1
      | base _ _ _ _ => exact absurd hs DataKey.slot_base
      | upload hs' ho' _ _ _ _ =>
        obtain ⟨rfl, rfl, rfl⟩ : l = _ ∧ e = _ ∧ t = _ := by simpa using hs.symm.trans hs'
        exact absurd (hr.owner ho ho') hij
    · exact hk

/-- What a thread owns, it owned, unless it has just put it there. -/
theorem owned (h : DataInv w) (hij : i ≠ j ∨ w'.objs = w.objs) (ho : w'.Owner l e i) (hk : w'.Has k)
    (hs : k.slot = some (l, e, t)) : w.Owner l e i ∧ w.Has k := by
  rcases htr.owner hr ho with ho | ⟨hobjs, hn, hlt⟩
  · refine ⟨ho, ?_⟩
    rcases hij with hij | hobjs
    · exact htr.has_of_owner hr hij ho hk hs
    · simpa only [World.Has, hobjs] using hk
  · -- A new epoch has no objects yet.
    have hk : w.Has k := by simpa only [World.Has, hobjs] using hk
    obtain ⟨b, r, hv, hrl, hre⟩ := h.obj.epoch hn hk hs
    exact absurd (hlt b r hv hrl) (by omega)

/-- An epoch's objects are removed by its holder, or once they cannot be committed. -/
theorem has_or_dead (hij : i ≠ j) (ho : w.Owner l e i) (hk : w.Has k)
    (hs : k.slot = some (l, e, t)) : w'.Has k ∨ w'.Dead k := by
  cases hdata : htr.data with
  | still _ _ hobjs => exact .inl (by simpa only [World.Has, hobjs] using hk)
  | wrote _ _ _ _ _ _ hobjs => exact .inl (by simpa only [World.Has, hobjs] using hk)
  | put _ _ _ hobjs =>
    refine .inl ?_
    simp only [World.Has, hobjs]
    exact World.has_putObj.mpr (.inr hk)
  | @drop k' hok _ _ hobjs =>
    by_cases hkk : k = k'
    · subst hkk
      rcases hok with hok | ⟨-, hok⟩
      · cases hok with
        | draft hd =>
          rw [DataKey.lineage_slot hs] at hd
          obtain ⟨b, r, hv, hrl, -⟩ := ho
          exact absurd ⟨b, r, hv, hrl⟩ hd.2.1
        | upload hs' ho' _ =>
          obtain ⟨rfl, rfl, rfl⟩ : l = _ ∧ e = _ ∧ t = _ := by simpa using hs.symm.trans hs'
          exact absurd (hr.owner ho ho') hij
      · exact .inr (htr.dead hok.dead)
    · refine .inl ?_
      simp only [World.Has, hobjs]
      exact World.has_dropObj.mpr ⟨hkk, hk⟩

/-- While another holds an epoch, commits to its lineage are later ones'. -/
theorem committed_of_owner (hij : i ≠ j) {c : Commit} (ho : w.Owner l e i) (hc : w'.Committed c)
    (hcl : c.lineage = l) : w.Committed c ∨ e < c.epoch := by
  cases htr.data with
  | still hs _ _ | put _ hs _ _ | drop _ hs _ _ => exact .inl (hs.committed ▸ hc)
  | wrote happly hby _ hnames hs _ _ =>
    rw [hs.committed] at hc
    obtain ⟨b, r, hv, hrl, hre, -⟩ := id ho
    rcases World.committed_land.mp hc with hc | ⟨r', rfl, ⟨d, hd, rfl⟩ | ⟨l', t, hl', -, -, rfl⟩⟩
    · exact .inl hc
    · obtain ⟨r₀, hcur, hours, -⟩ := RefOp.head_frame hd happly
      obtain ⟨hh₀, he₀, hl₀, -⟩ := HeadCommit.ours_iff.mp hours
      have hle := (hr.latest hcur hv (hrl.trans (hcl.symm.trans hl₀.symm))).1
      refine .inr (lt_of_le_of_ne (hre ▸ hle.trans he₀.le) fun heq => hij ?_)
      have howner : w.Owner l d.epoch j :=
        ⟨_, r₀, hr.current hcur, hl₀.trans hcl, he₀, RefOp.by_head hd hby ▸ hh₀⟩
      exact hr.owner ho (heq ▸ howner)
    · exact absurd ⟨b, r, hv, hrl.trans hcl.symm⟩ (hnames l' hl').1.2.1

/-- What is frozen stays as it is, unless it is collected. -/
theorem frozen (h : DataInv w) (hk : w.Frozen k) :
    w'.objs.lookup k = w.objs.lookup k ∨ gc ∧ SweepOK w k := by
  cases htr.data with
  | still _ _ hobjs => exact .inl (by rw [hobjs])
  | wrote _ _ _ _ _ _ hobjs => exact .inl (by rw [hobjs])
  | @put k' o hok _ _ hobjs =>
    have hne : k ≠ k' := fun heq => hok.not_frozen h.log hr (heq ▸ hk)
    exact .inl (by rw [hobjs, World.putObj, AList.lookup_insert_ne hne])
  | @drop k' hok _ _ hobjs =>
    by_cases hkk : k = k'
    · subst hkk
      exact .inr (hok.resolve_left fun hok => hok.not_frozen h.log hr hk)
    · exact .inl (by rw [hobjs, World.dropObj, AList.lookup_erase_ne hkk])

/-- Nobody else touches the objects of a lineage that is being prepared. -/
theorem draft_objs (hij : i ≠ j) (hd : w.Draft i l) (hf : w.inFlight i = some .fork)
    (hk : k.lineage = l) : w'.objs.lookup k = w.objs.lookup k := by
  have hown {e} : ¬ w.Owner l e j := by
    rintro ⟨b, r, hv, hrl, -⟩
    exact hd.2.1 ⟨b, r, hv, hrl⟩
  have hmine : ¬ w.Draft j l := fun hd' => hij (hr.minted_unique hd.1 hd'.1)
  cases htr.data with
  | still _ _ hobjs => rw [hobjs]
  | wrote _ _ _ _ _ _ hobjs => rw [hobjs]
  | @put k' o hok _ _ hobjs =>
    have hne : k ≠ k' := by
      rintro rfl
      cases hok with
      | draft hd' _ _ | base hd' _ _ _ => exact hmine (hk ▸ hd')
      | upload hs ho _ _ _ _ => exact hown (hk ▸ DataKey.lineage_slot hs ▸ ho)
    rw [hobjs, World.putObj, AList.lookup_insert_ne hne]
  | @drop k' hok _ _ hobjs =>
    have hne : k ≠ k' := by
      rintro rfl
      rcases hok with hok | ⟨-, hok⟩
      · cases hok with
        | draft hd' => exact hmine (hk ▸ hd')
        | upload hs ho _ => exact hown (hk ▸ DataKey.lineage_slot hs ▸ ho)
      · exact hok.idle i hf
    rw [hobjs, World.dropObj, AList.lookup_erase_ne hne]

end

end Trans

/-! ## What a thread may leave behind -/

namespace World

def Unused (w : World) (i : Nat) : Prop :=
  ∀ k l e t, w.Has k → k.slot = some (l, e, t) → ¬ w.Owner l e i

/-- The thread has written an object that a head move may still commit. -/
def Leftover (w : World) (i : Nat) : Prop :=
  ∃ k l e t, w.Has k ∧ k.slot = some (l, e, t) ∧ w.Owner l e i ∧ ¬ w.Dead k

theorem Unused.not_leftover (h : w.Unused i) : ¬ w.Leftover i := by
  rintro ⟨_, _, _, _, hk, hs, ho, -⟩
  exact h _ _ _ _ hk hs ho

end World

namespace Trans

variable (htr : Trans gc assumed j w w') (hr : RefsInv env w) (h : DataInv w)
  (hij : i ≠ j ∨ w'.objs = w.objs)

include htr hr h hij

theorem unused (hu : w.Unused i) : w'.Unused i := by
  intro k l e t hk hs ho
  obtain ⟨ho, hk⟩ := htr.owned hr h hij ho hk hs
  exact hu k l e t hk hs ho

theorem leftover (hl : w'.Leftover i) : w.Leftover i := by
  obtain ⟨k, l, e, t, hk, hs, ho, hd⟩ := hl
  obtain ⟨ho, hk⟩ := htr.owned hr h hij ho hk hs
  exact ⟨k, l, e, t, hk, hs, ho, fun hd' => hd (htr.dead hd')⟩

end Trans

/-! ## The layer -/

abbrev Guarded (env : Env) (gc : Prop) (i : Nat) (w w' : World) : Prop :=
  ∃ a : Act, a.ok env i w ∧ (∀ l, a.names = some l → w.Draft i l) ∧ a.guarded gc i w ∧
    a.run i w = w'

theorem Guarded.of_nameless (hok : a.ok env i w) (hn : a.names = .none) (hg : a.guarded gc i w) :
    Guarded env gc i w (a.run i w) := ⟨a, hok, by simp [hn], hg, rfl⟩

theorem Guarded.refl : Guarded env gc i w w := .of_nameless (a := .none) trivial rfl trivial

/-- Every act is guarded.  A thread starts with no objects of its own. -/
def dataLayer (env : Env) (hset : env.settled = true) (gc : Prop)
    (assumed : World → World → Prop) : Layer (refSpec env) where
  inv := DataInv
  may := Guarded env gc
  assumed := assumed
  fresh i w := w.Unused i
  inv_may := by
    rintro i w w' hr h - ⟨a, hok, hname, hg, rfl⟩ - has
    exact (a.trans hset hr hok hname hg has).inv hr h
  fresh_may := by
    rintro i j w w' hr h hij hu - ⟨a, hok, hname, hg, rfl⟩ - has
    exact (a.trans hset hr hok hname hg has).unused hr h (.inl hij) hu

abbrev DataOk (hset : env.settled = true) (gc : Prop) (assumed : World → World → Prop) (i : Nat)
    (Q : α → World → Prop) (p : M α) (w : World) : Prop :=
  (dataLayer env hset gc assumed).Ok i Q p w

abbrev DataStable (hset : env.settled = true) (gc : Prop) (assumed : World → World → Prop)
    (i : Nat) (P : World → Prop) : Prop :=
  (dataLayer env hset gc assumed).spec.Stable i P

variable {hset : env.settled = true}

theorem dataLayer.stable
    (hP : ∀ j w w', i ≠ j → RefsInv env w → DataInv w → Trans gc assumed j w w' → P w → P w') :
    DataStable hset gc assumed i P := by
  rintro j w w' hij ⟨hr, h⟩ hw ⟨-, a, hok, hname, hg, rfl⟩ ⟨-, has⟩
  exact hP j w _ hij hr h (a.trans hset hr hok hname hg has) hw

def Act.Tame : Act → Prop
  | write _ op _ => op.plain
  | put .. | drop _ | sweep .. | flight _ => False
  | _ => True

def Act.Still : Act → Prop
  | write .. | grant .. | effect .. | put .. | drop _ | sweep .. | flight _ => False
  | _ => True

theorem Act.Still.tame (h : a.Still) : a.Tame := by
  cases a <;> first | exact h | trivial

theorem Act.Local.still (h : a.Local) : a.Still := by
  cases a <;> trivial

theorem Act.Edits.tame {W : BranchId → RefOp.Kind → Prop} (h : a.Edits W) : a.Tame := by
  cases a <;> first | trivial | exact h.2

theorem Act.Calm.tame {W : BranchId → RefOp.Kind → Prop} (h : a.Calm W) : a.Tame :=
  h.elim (·.tame) (·.still.tame)

theorem Act.Tame.guarded (h : a.Tame) : a.guarded gc i w := by
  cases a with
  | write b op after =>
    exact ⟨by simp [RefOp.plain_head h], by simp [Act.plain_names h]⟩
  | put _ _ | drop _ | sweep _ _ => exact h.elim
  | _ => trivial

theorem Act.Tame.names (hok : a.ok env i w) (hset : env.settled = true) (h : a.Tame) :
    a.names = .none := by
  cases a with
  | write b op after => exact Act.plain_names h
  | grant b op after lease => exact Act.plain_names hok.2.1
  | send b op before after => simp [Act.ok, hset] at hok
  | _ => rfl

theorem Act.Tame.objs (hset : env.settled = true) (hr : RefsInv env w) (h : a.Tame) :
    (a.run i w).objs = w.objs := by
  cases a with
  | put _ _ | drop _ | sweep _ _ => exact h.elim
  | late n => simp [Act.run, World.landLate, hr.settled hset]
  | _ => rfl

theorem Act.Tame.inFlight (hset : env.settled = true) (hr : RefsInv env w) (h : a.Tame) :
    (a.run i w).inFlight = w.inFlight := by
  cases a with
  | flight _ => exact h.elim
  | late n => simp [Act.run, World.landLate, hr.settled hset]
  | _ => rfl

variable {A : Act → Prop} {p : M α}

theorem Does.tame (hp : Does env i A p) (hA : ∀ a, A a → a.Tame)
    (hstable : DataStable hset gc assumed i P)
    (hown : ∀ w a, RefsInv env w → DataInv w → A a → a.ok env i w →
      Trans gc assumed i w (a.run i w) → P w → P (a.run i w))
    (hw : P w) : DataOk hset gc assumed i (fun _ w => P w) p w := by
  refine Prog.All.holds_of_stable hstable hw (Prog.All.mono ?_ hp)
  rintro w w' ⟨a, ha, hok, rfl⟩ ⟨hr, h⟩ hw ⟨-, has⟩
  have hname : ∀ l, a.names = some l → w.Draft i l := by
    simp [(hA a ha).names hok hset]
  have hg : a.guarded gc i w := (hA a ha).guarded
  exact ⟨⟨a, hok, hname, hg, rfl⟩, hown w a hr h ha hok (a.trans hset hr hok hname hg has) hw⟩

theorem World.Unused.stable : DataStable hset gc assumed i fun w => w.Unused i :=
  dataLayer.stable fun _ _ _ hij hr h htr hu => htr.unused hr h (.inl hij) hu

theorem Does.unused (hp : Does env i A p) (hA : ∀ a, A a → a.Tame) (hw : w.Unused i) :
    DataOk hset gc assumed i (fun _ w => w.Unused i) p w :=
  hp.tame hA World.Unused.stable
    (fun _ _ hr h ha _ htr hu => htr.unused hr h (.inr ((hA _ ha).objs hset hr)) hu) hw

theorem Does.reads (hp : Does env i (Eq .none) p) (hstable : DataStable hset gc assumed i P)
    (hw : P w) : DataOk hset gc assumed i (fun _ w => P w) p w := by
  refine hp.tame ?_ hstable ?_ hw
  · rintro a rfl
    trivial
  · rintro w a - - rfl - - hw
    exact hw

theorem Does.checkouts (hp : Does env i Act.Local p) (hstable : DataStable hset gc assumed i P)
    (hP : ∀ w host b c, P w → P (w.setCheckout host b c)) (hw : P w) :
    DataOk hset gc assumed i (fun _ w => P w) p w := by
  refine hp.tame (fun _ h => h.still.tame) hstable ?_ hw
  intro w a _ _ ha _ _ hw
  cases a with
  | none => exact hw
  | checkout host b c => exact hP w host b c hw
  | _ => exact ha.elim

theorem Does.free (hp : Does env i A p) (hA : ∀ a, A a → a.Tame) : DataOk hset gc assumed i ⊤ p w :=
  hp.tame hA (Spec.Stable.const True) (fun _ _ _ _ _ _ _ _ => trivial) trivial

/-- A call announced and reported: the notes in the history change nothing. -/
theorem calling_ok {call : Call} {out : α → Outcome} {p : M (Result α)}
    (hstable : DataStable hset gc assumed i P) (hnote : ∀ {w e}, Event.quiet e → P w → P (w.note e))
    (hw : P w) (hp : ∀ w, P w → DataOk hset gc assumed i (fun _ w => P w) p w) :
    DataOk hset gc assumed i (fun _ w => P w) (calling i b call out p) w := by
  have hstep {e : Event} (he : e.quiet) {w : World} (hw : P w) :
      DataOk hset gc assumed i (fun _ w => P w) (Offshoot.note e) w :=
    Spec.Holds.step hstable hw fun w _ _ hw _ =>
      ⟨⟨.note e, he, (fun _ h => by cases h), trivial, rfl⟩, hnote he hw⟩
  exact (hstep (by trivial) hw).bind fun _ w hw =>
    (hp w hw).bind fun _ w hw => hstep (by trivial) hw

/-! ### Single calls -/

section Calls

variable {P Q : World → Prop} {b : BranchId}

section

variable (hstable : DataStable hset gc assumed i P) (hw : P w)

include hstable hw

theorem read_ok {R : α → World → Prop} {f : Oracle → World → World × α}
    (hread : ∀ o w, (f o w).1 = w) (h : ∀ o w, RefsInv env w → DataInv w → P w → R (f o w).2 w) :
    DataOk hset gc assumed i (fun a w => P w ∧ R a w) (.step f) w := by
  refine Spec.Holds.step hstable hw fun w o hinv hw _ => ?_
  rw [hread o w]
  exact ⟨.refl, hw, h o w hinv.1 hinv.2 hw⟩

theorem withSession_ok {R : α → World → Prop} {f : Session → Session × α}
    (h : ∀ w, RefsInv env w → DataInv w → P w →
      R (f (w.sessions i)).2 (w.setSession i (f (w.sessions i)).1)) :
    DataOk hset gc assumed i R (withSession i f) w := by
  refine Spec.Holds.step hstable hw fun w o hinv hw _ => ?_
  exact ⟨⟨.session i _, .inl rfl, (fun _ h => by cases h), trivial, rfl⟩, h w hinv.1 hinv.2 hw⟩

theorem putRef_ok {op : RefOp} {r : Ref} {etag : Option Ref}
    (happly : op.apply etag = some (some r.stored)) (hby : op.by i)
    (h : ∀ w, RefsInv env w → DataInv w → P w → w.refs.lookup b = etag →
      (∀ l, op.names = some l → w.Draft i l) ∧ Act.guarded gc i w (.write b op (some r.stored)) ∧
    (Trans gc assumed i w (w.land i b op (some r.stored)) → Q (w.land i b op (some r.stored)))) :
    DataOk hset gc assumed i
      (fun res w => (res = .ok () → Q w) ∧ ∀ e, res = .error e → P w)
      (putRef env i b op r etag) w := by
  refine Spec.Holds.step hstable hw fun w o hinv hw has => ?_
  replace has := has.2
  simp only [World.tryRef, hset, if_true] at has ⊢
  split
  · rename_i hhit
    obtain ⟨hname, hg, hQ⟩ := h w hinv.1 hinv.2 hw hhit.1
    have hok : Act.ok env i w (.write b op (some r.stored)) := ⟨hhit.1 ▸ happly, hby⟩
    exact ⟨⟨.write b op (some r.stored), hok, hname, hg, rfl⟩,
      fun _ => hQ (Act.trans hset hinv.1 hok hname hg (by rwa [if_pos hhit] at has)), by simp⟩
  · exact ⟨.refl, fun h => (by cases h), fun _ _ => hw⟩

theorem putIf_ok {o : Obj} (h : ∀ w, RefsInv env w → DataInv w → P w → PutOK i w k o ∧
      (Trans gc assumed i w (w.putObj k o) → Q (w.putObj k o))) :
    DataOk hset gc assumed i
      (fun res w => (res = .ok () → Q w) ∧ ∀ e, res = .error e → P w ∧ (e = .cas → w.Has k))
      (putIf env k o) w := by
  refine Spec.Holds.step hstable hw fun w o' hinv hw has => ?_
  replace has := has.2
  simp only [hset, if_true] at has ⊢
  split
  · rename_i hhit
    obtain ⟨hput, hQ⟩ := h w hinv.1 hinv.2 hw
    rw [if_pos hhit] at has
    exact ⟨⟨.put k o, trivial, (fun _ h => by cases h), hput, rfl⟩,
      fun _ => hQ (Act.trans (a := .put k o) hset hinv.1 trivial (fun _ h => by cases h) hput has),
        (fun _ h => by cases h)⟩
  · rename_i hhit
    refine ⟨.refl, fun h => (by cases h), fun e he => ⟨hw, ?_⟩⟩
    rintro rfl
    cases hfail : o'.fail with
    | true => simp [casErr, hfail, hset] at he
    | false =>
      rw [World.has_iff]
      exact Option.ne_none_iff_exists'.mp fun hnone => hhit (by simp [hnone, hfail])

/-- An overwriting write may have landed even if it fails. -/
theorem put_ok {o : Obj} (h : ∀ w, RefsInv env w → DataInv w → P w → PutOK i w k o ∧
      (Trans gc assumed i w (w.putObj k o) → Q (w.putObj k o))) :
    DataOk hset gc assumed i
      (fun res w => (res = .ok () → Q w) ∧ ∀ e, res = .error e → P w ∨ Q w)
      (put env k o) w := by
  refine Spec.Holds.step hstable hw fun w o' hinv hw has => ?_
  obtain ⟨hput, hQ⟩ := h w hinv.1 hinv.2 hw
  replace hQ :=
    fun has => hQ (Act.trans (a := .put k o) hset hinv.1 trivial (fun _ h => by cases h) hput has)
  replace has := has.2
  have hmay : Guarded env gc i w (w.putObj k o) :=
    .of_nameless (a := .put k o) trivial rfl hput
  revert has
  split
  · exact fun has => ⟨hmay, fun _ => hQ has, by simp⟩
  · cases o'.fate with
    | lost | pending => exact fun _ => ⟨.refl, by simp, fun _ _ => .inl hw⟩
    | landed => exact fun has => ⟨hmay, by simp, fun _ _ => .inr (hQ has)⟩

/-- A copy that failed may have been made. -/
theorem copyObject_ok {dst src : DataKey}
    (h : ∀ w o, RefsInv env w → DataInv w → P w → PutOK i w dst o ∧
      (Trans gc assumed i w (w.putObj dst o) → Q (w.putObj dst o))) :
    DataOk hset gc assumed i
      (fun res w => (res = .ok (some ()) → Q w) ∧ (res = .ok none → P w))
      (copyObject dst src) w := by
  refine Spec.Holds.step hstable hw fun w o hinv hw has => ?_
  replace has := has.2
  revert has
  cases w.objs.lookup src with
  | none => exact fun _ => ⟨.refl, by simp, by simp⟩
  | some obj =>
    obtain ⟨hput, hQ⟩ := h w obj hinv.1 hinv.2 hw
    replace hQ := fun has =>
      hQ (Act.trans (a := .put dst obj) hset hinv.1 trivial (fun _ h => by cases h) hput has)
    have hmay : Guarded env gc i w (w.putObj dst obj) :=
      .of_nameless (a := .put dst obj) trivial rfl hput
    dsimp only
    split
    · split
      · exact fun _ => ⟨hmay, by simp, by simp⟩
      · exact fun _ => ⟨.refl, by simp, by simp⟩
    · split
      · exact fun _ => ⟨.refl, by simp, fun _ => hw⟩
      · exact fun has => ⟨hmay, fun _ => hQ has, by simp⟩

/-- A delete takes effect or not, whatever it reports. -/
theorem deleteObj_ok (h : ∀ w, RefsInv env w → DataInv w → P w → DropOK i w k ∧
      (Trans gc assumed i w (w.dropObj k) → P (w.dropObj k))) :
    DataOk hset gc assumed i (fun _ w => P w) (deleteObj k) w := by
  refine Spec.Holds.step hstable hw fun w o hinv hw has => ?_
  replace has := has.2
  obtain ⟨hdrop, hP⟩ := h w hinv.1 hinv.2 hw
  replace hP :=
    fun has => hP (Act.trans (a := .drop k) hset hinv.1 trivial (fun _ h => by cases h) hdrop has)
  have hmay : Guarded env gc i w (w.dropObj k) :=
    .of_nameless (a := .drop k) trivial rfl hdrop
  revert has
  split
  · exact fun has => ⟨hmay, hP has⟩
  · split
    · exact fun has => ⟨hmay, hP has⟩
    · exact fun _ => ⟨.refl, hw⟩

end

end Calls

end Offshoot
