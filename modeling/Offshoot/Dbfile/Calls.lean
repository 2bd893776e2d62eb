import Offshoot.Dbfile.Closes

/-!
# The calls of the registry

A call that has marked descriptors is the only one to close them and to clear their marks,
so they are still marked when it gets to them.  Everything else a call does leaves the marks
and the closes alone.
-/

namespace Offshoot.Dbfile

open Conc Counters List

def World.closes (w : World) : List (Nat × Entry) × List (Nat × Entry) × List Entry :=
  (w.marked, w.clearing, w.closed)

section Closes

variable {u : Use} {w : World} {i : Nat} {p : Path} {e : Entry} {o : Oracle} {ino : Inode}

namespace World

theorem orphanLocked_closes : (w.orphanLocked p).closes = w.closes := by
  unfold orphanLocked
  split <;> rfl

theorem orphanIfCached_closes : (w.orphanIfCached e).closes = w.closes := by
  unfold orphanIfCached
  split
  · rfl
  · split
    · exact orphanLocked_closes
    · rfl

theorem openLocked_closes : (w.openLocked o p).1.closes = w.closes := by
  unfold openLocked
  split
  · rfl
  · split
    · rfl
    · split <;> rfl

theorem pinLocked_closes : (w.pinLocked o i e).closes = w.closes := by
  unfold pinLocked
  split <;> rfl

theorem openAndPin_closes : (w.openAndPin o i p).closes = w.closes := by
  have hopen := openLocked_closes (w := w) (o := o) (p := p)
  unfold openAndPin
  generalize w.openLocked o p = r at hopen
  obtain ⟨w', e⟩ := r
  cases e with
  | none => exact hopen
  | some e => exact pinLocked_closes.trans hopen

theorem readerLocked_closes {want : Except StatErr Inode} :
    (w.readerLocked o i p want).closes = w.closes := by
  unfold readerLocked
  split
  · exact orphanLocked_closes
  · rfl
  split
  · split
    · exact pinLocked_closes
    · exact openAndPin_closes.trans orphanLocked_closes
  · exact openAndPin_closes

theorem closeSection_closes : (w.closeSection i).closes = w.closes := by
  unfold closeSection
  split <;> rfl

theorem holdLocked_closes : (w.holdLocked i p ino).1.closes = w.closes := by
  unfold holdLocked
  split
  · rfl
  · split
    · split <;> rfl
    · rfl

theorem release_closes : (w.release i).closes = w.closes := by
  unfold release
  split <;> rfl

end World

end Closes

/-! ## What a call may do -/

/-- One action of call `i`: it clears and closes only what it marked. -/
structure Acts (i : Nat) (w w' : World) : Prop where
  marked : ∀ m ∈ w.marked, m.1 ≠ i → m ∈ w'.marked
  clearing : ∀ m ∈ w.clearing, m.1 ≠ i → m ∈ w'.clearing
  closed : w'.closed = w.closed ∨ ∃ e, (i, e) ∈ w.marked ∧ w'.closed = e :: w.closed

theorem Acts.of_closes {w' : World} (h : w'.closes = w.closes) : Acts i w w' := by
  obtain ⟨hm, hrest⟩ := Prod.mk.inj h
  obtain ⟨hc, hd⟩ := Prod.mk.inj hrest
  exact ⟨fun m h _ => hm ▸ h, fun m h _ => hc ▸ h, .inl hd⟩

variable {es : List Entry}

theorem Acts.markClosingLocked {w' : World}
    (h : w'.closes = w.closes) : Acts i w (w'.markClosingLocked i es) := by
  have ha : Acts i w w' := .of_closes h
  exact ⟨fun m hm hne => mem_append_right _ (ha.marked m hm hne), ha.clearing, ha.closed⟩

theorem Acts.closeFd (he : (i, e) ∈ w.marked) : Acts i w (w.closeFd i e) where
  marked m hm hne := by
    refine (mem_erase_of_ne ?_).mpr hm
    exact fun heq => hne (congrArg Prod.fst heq)
  clearing m hm _ := mem_cons_of_mem _ hm
  closed := .inr ⟨e, he, rfl⟩

theorem Acts.clearMark : Acts i w (w.clearMark i e) where
  marked m hm _ := hm
  clearing m hm hne := by
    refine (mem_erase_of_ne ?_).mpr hm
    exact fun heq => hne (congrArg Prod.fst heq)
  closed := .inl rfl

def registry (u : Use) : Spec World where
  inv := Inv u
  may i w w' := Inv u w' ∧ Acts i w w'
  assumed _ _ := True
  fresh _ _ := True
  inv_may _ h _ := h.1
  fresh_may _ _ _ _ _ := trivial

structure Owns (i : Nat) (marked clearing : List Entry) (w : World) : Prop where
  marked : ∀ e ∈ marked, (i, e) ∈ w.marked
  clearing : ∀ e ∈ clearing, (i, e) ∈ w.clearing

section Calls

variable {u : Use} {i : Nat} {p : Path} {w : World}
variable {inside : Path → Bool}

theorem owns_stable {es' : List Entry} : (registry u).Stable i (Owns i es es') := by
  intro j w w' hne _ h hmay _
  exact ⟨fun e he => hmay.2.marked _ (h.marked e he) hne,
    fun e he => hmay.2.clearing _ (h.clearing e he) hne⟩

/-- The program leaves the marks and the closes alone. -/
abbrev Tame (u : Use) : M α → Prop :=
  Prog.All fun w w' => Inv u w → Inv u w' ∧ w'.closes = w.closes

theorem Tame.holds {q : M α} (h : Tame u q) : (registry u).Ok i ⊤ q w := by
  refine (h.mono fun w w' hstep hinv _ => ?_).holds
  exact ⟨(hstep hinv).1, .of_closes (hstep hinv).2⟩

theorem tame_region {f : Oracle → World → World} (h : ∀ o w, Inv u w → Inv u (f o w))
    (hcloses : ∀ o w, (f o w).closes = w.closes) : Tame u (region f) :=
  .step fun o w hinv => ⟨h o w hinv, hcloses o w⟩

theorem tame_stat : Tame u (stat p) := .step fun _ _ hinv => ⟨hinv, rfl⟩

theorem stat_ok (hp : u.one p) : (registry u).Ok i
    (fun r _ => ∀ ino, r = .ok ino → u.home ino = p) (stat p) w := by
  refine Spec.Holds.step (.const True) trivial fun w o hinv _ _ => ⟨⟨hinv, .of_closes rfl⟩, ?_⟩
  intro ino hok
  split at hok
  · cases hok
  split at hok
  · cases hok
  · rename_i ino' hfile
    obtain rfl := Except.ok.inj hok
    exact hinv.names p ino' hfile hp

theorem tame_reader (hp : u.one p) : Tame u (reader i p) :=
  tame_stat.bind fun _ => tame_region (fun _ _ hinv => hinv.readerLocked hp)
    fun _ _ => World.readerLocked_closes

theorem tame_awaitClosed (hp : u.hold p) (hone : u.one p) (hino : u.home ino = p)
    (rounds : Nat) : Tame u (awaitClosed i p ino rounds) := by
  induction rounds with
  | zero => exact .pure _
  | succ n ih =>
    refine (Prog.All.step fun o w hinv => ?_).bind fun r => ?_
    · exact ⟨hinv.holdLocked hp hone hino, World.holdLocked_closes⟩
    · cases r with
      | true => exact .pure _
      | false => exact ih

theorem hold_ok (hp : u.hold p) (hone : u.one p) (rounds : Nat) :
    (registry u).Ok i ⊤ (hold i p rounds) w := by
  refine (stat_ok hone).bind fun r w hr => ?_
  cases r with
  | error e => trivial
  | ok ino => exact (tame_awaitClosed hp hone (hr ino rfl) rounds).holds

theorem tame_verify : Tame u (verify p ino) :=
  tame_stat.bind fun r => by cases r <;> exact .pure _

theorem tame_sweepEach (es : List Entry) : Tame u (sweepEach es) := by
  induction es with
  | nil => exact .pure _
  | cons e es ih =>
    refine tame_stat.bind fun found => ?_
    split
    · refine (tame_region (fun _ _ hinv => hinv.orphanIfCached) fun _ _ => ?_).bind fun _ => ih
      exact World.orphanIfCached_closes
    · exact ih

theorem tame_sweep : Tame u (sweep inside) :=
  (Prog.All.step fun _ _ hinv => ⟨hinv, rfl⟩).bind tame_sweepEach

/-! ## Closing what was marked -/

theorem closeMarked_ok (hes : es.Nodup) (hw : Owns i es [] w) :
    (registry u).Ok i ⊤ (closeMarked i es) w := by
  induction es generalizing w with
  | nil => trivial
  | cons e es ih =>
    obtain ⟨hnew, hes⟩ := nodup_cons.mp hes
    -- The descriptor is still marked, and those that remain stay so.
    have hclose : (registry u).Ok i (fun _ => Owns i es [e])
        (region fun _ w => w.closeFd i e) w := by
      refine Spec.Holds.step owns_stable hw fun w o hinv hw _ => ?_
      have he := hw.marked e mem_cons_self
      refine ⟨⟨hinv.closeFd he, .closeFd he⟩, fun e' he' => ?_, fun e' he' => ?_⟩
      · have hne : (i, e') ≠ (i, e) := fun heq => hnew ((Prod.mk.inj heq).2 ▸ he')
        exact (mem_erase_of_ne hne).mpr (hw.marked e' (mem_cons_of_mem _ he'))
      · obtain rfl := mem_singleton.mp he'
        exact mem_cons_self
    have hclear (w : World) (hw : Owns i es [e] w) : (registry u).Ok i (fun _ => Owns i es [])
        (region fun _ w => w.clearMark i e) w := by
      refine Spec.Holds.step owns_stable hw fun w o hinv hw _ => ?_
      have he := hw.clearing e mem_cons_self
      exact ⟨⟨hinv.clearMark he, .clearMark⟩, hw.marked, by simp⟩
    exact hclose.bind fun _ w hw => (hclear w hw).bind fun _ _ hw => ih hes hw

theorem take_ok {take : Oracle → World → World × List Entry}
    (hinv : ∀ o w, Inv u w → Inv u (take o w).1) (htake : ∀ o w, ∃ live orphans, (take o w).1 =
      { w with live := live, orphans := orphans }.markClosingLocked i (take o w).2) :
    (registry u).Ok i (fun es w => es.Nodup ∧ Owns i es [] w) (Prog.step take) w := by
  refine Spec.Holds.step (.const True) trivial fun w o hw _ _ => ?_
  have hafter := hinv o w hw
  obtain ⟨live, orphans, heq⟩ := htake o w
  generalize hes : (take o w).2 = es at heq
  rw [heq] at hafter ⊢
  refine ⟨⟨hafter, .markClosingLocked rfl⟩, ?_, fun e he => ?_, by simp⟩
  · have hdistinct := hafter.distinct.of_map
    have hmarked := (nodup_append.mp (nodup_append.mp hdistinct).2.1).1.of_map
    exact (nodup_append.mp hmarked).1.of_map
  · exact mem_append_left _ (mem_map_of_mem he)

theorem closeOrphans_ok : (registry u).Ok i ⊤ (closeOrphans i inside) w := by
  have htake : (registry u).Ok i (fun es w => es.Nodup ∧ Owns i es [] w)
      (Prog.step fun o w => w.takeOrphans o i inside) w :=
    take_ok (fun _ _ hinv => hinv.takeOrphans) fun _ _ => ⟨_, _, rfl⟩
  exact htake.bind fun es _ hes => (closeMarked_ok hes.1 hes.2).bind .ret

theorem evict_ok {keep : Nat} : (registry u).Ok i ⊤ (evict i keep inside) w := by
  have htake : (registry u).Ok i (fun es w => es.Nodup ∧ Owns i es [] w)
      (Prog.step fun o w => w.takeExcess o i keep inside) w :=
    take_ok (fun _ _ hinv => hinv.takeExcess) fun _ _ => ⟨_, _, rfl⟩
  exact htake.bind fun es _ hes => (closeMarked_ok hes.1 hes.2).bind .ret

theorem evictStranded_ok : (registry u).Ok i ⊤ (evictStranded i inside) w :=
  tame_sweep.holds.bind fun _ _ _ => closeOrphans_ok

theorem evictUnder_ok {dir : Path} : (registry u).Ok i ⊤ (evictUnder i dir) w :=
  evictStranded_ok.bind fun _ _ _ => evict_ok.bind .ret

theorem discard_ok {q : M α} (hq : (registry u).Ok i ⊤ q w) :
    (registry u).Ok i ⊤ (discard q) w := hq.bind .ret

/-! ## Runs -/

/-- The paths passed to `Reader` or to `Hold` are among those an inode has one of. -/
structure Use.Covers (u : Use) : Prop where
  reader : ∀ p, u.reader p → u.one p
  hold : ∀ p, u.hold p → u.one p

theorem prog_ok (hu : u.Covers) {op : Op} (hop : u.allows op) :
    (registry u).Ok i ⊤ (op.prog i) w := by
  cases op with
  | reader p => exact (tame_reader (hu.reader p hop)).holds
  | closeSection j =>
    exact (tame_region (fun _ _ h => h.closeSection) fun _ _ => World.closeSection_closes).holds
  | hold p rounds => exact hold_ok hop (hu.hold p hop) rounds
  | release j => exact (tame_region (fun _ _ h => h.release) fun _ _ => World.release_closes).holds
  | verify p ino => exact discard_ok tame_verify.holds
  | evict keep => exact discard_ok evict_ok
  | evictStranded => exact discard_ok evictStranded_ok
  | evictStrandedAt roots =>
    exact discard_ok (tame_sweep.holds.bind fun _ _ _ => closeOrphans_ok)
  | evictUnder dir => exact discard_ok evictUnder_ok
  | connect j ino => exact (tame_region (fun _ _ h => h.connect) fun _ _ => rfl).holds
  | disconnect j ino => exact (tame_region (fun _ _ h => h.disconnect) fun _ _ => rfl).holds
  | rename p ino =>
    exact (tame_region (fun _ _ h => h.rename hu.hold hop) fun _ _ => rfl).holds
  | remove p => exact (tame_region (fun _ _ h => h.remove) fun _ _ => rfl).holds

theorem registry_sound (hu : u.Covers) : (registry u).Sound (system u) where
  prog _ _ _ hop _ _ := prog_ok hu hop
  crash _ _ hinv := ⟨hinv, .of_closes rfl⟩

theorem Inv.start {files : Path → Option Inode}
    (hfiles : ∀ p ino, files p = some ino → u.names p ino) : Inv u (.start files) where
  distinct := .nil
  fresh _ he := by cases he
  home _ he := by cases he
  names := hfiles
  pins _ := rfl
  held _ := rfl
  closing _ := rfl
  sections _ hs := by cases hs
  paths _ hh := by cases hh
  seen _ hh := by cases hh
  conns _ hh := by cases hh
  unheld _ hh := by cases hh

end Calls

def Closes (w w' : World) (e : Entry) : Prop := w'.closed = e :: w.closed

/-- Of a descriptor: no `Section` is open over it, and no connection that was opened under
an active `Hold` is on its inode. -/
def Unused (w : World) (e : Entry) : Prop :=
  (∀ s ∈ w.sections, s.f ≠ e.f) ∧ ∀ h ∈ w.holds, e.ino ∉ h.conns

def staged (one : Path → Prop) : Use :=
  ⟨(· = "stage"), (· = "final"), one, fun ino => if ino = ⟨0, 2⟩ then "stage" else "final"⟩

instance (one : Path → Prop) : DecidablePred (staged one).reader :=
  inferInstanceAs (DecidablePred (· = "stage"))

instance (one : Path → Prop) : DecidablePred (staged one).hold :=
  inferInstanceAs (DecidablePred (· = "final"))

instance (one : Path → Prop) [DecidablePred one] : DecidablePred (staged one).one :=
  inferInstanceAs (DecidablePred one)

def stagedFiles (p : Path) : Option Inode :=
  if p = "stage" then some ⟨0, 2⟩ else if p = "final" then some ⟨0, 1⟩ else none

theorem stagedFiles_names {one : Path → Prop}
    (h : stagedFiles p = some ino) : (staged one).names p ino := by
  intro _
  unfold stagedFiles at h
  split at h
  · rename_i hp
    cases h
    exact hp.symm
  · split at h
    · rename_i hp
      cases h
      exact hp.symm
    · cases h

/-- The staged file is read and renamed over the held path, a connection lands on it, and
the descriptor it was read by is up for its close. -/
def renamedOver : List (Move Oracle Op) :=
  [.start 0 (.reader "stage"), .run 0 .fine 2, .start 1 (.closeSection 0), .run 1 .fine 1,
    .start 2 (.hold "final" 1), .run 2 .fine 2, .start 3 (.rename "final" ⟨0, 2⟩), .run 3 .fine 1,
    .start 4 (.remove "stage"), .run 4 .fine 1, .start 5 (.connect 2 ⟨0, 2⟩), .run 5 .fine 1,
    .start 6 .evictStranded, .run 6 .fine 4]

def removedOnly : List (Move Oracle Op) :=
  [.start 0 (.reader "stage"), .run 0 .fine 2, .start 1 (.closeSection 0), .run 1 .fine 1,
    .start 2 (.hold "final" 1), .run 2 .fine 2, .start 3 (.remove "stage"), .run 3 .fine 1,
    .start 4 (.connect 2 ⟨0, 1⟩), .run 4 .fine 1, .start 6 .evictStranded, .run 6 .fine 4]

def stagedEntry : Entry := ⟨"stage", 0, ⟨0, 2⟩, 1⟩

/-- Call 6 closes the staged file's descriptor next, with a connection on the inode. -/
def closesWith (ino : Inode) (c : Config World Oracle Op) : Bool :=
  (c.state.holds.any fun h => decide (ino ∈ h.conns)) && ((c.threads 6).map (·.1)).isSome &&
    (c.runs 6 .fine 1).any fun c' => decide (c'.state.closed = stagedEntry :: c.state.closed)

theorem closesWith_sound {c : Config World Oracle Op} (h : closesWith ino c = true) :
    (∃ hd ∈ c.state.holds, ino ∈ hd.conns) ∧ ∃ c' op, c.runs 6 .fine 1 = some c' ∧
      (c.threads 6).map (·.1) = some op ∧ Closes c.state c'.state stagedEntry := by
  simp only [closesWith, Bool.and_eq_true] at h
  obtain ⟨⟨hconn, hop⟩, hrun⟩ := h
  obtain ⟨hd, hhd, hconn⟩ := any_eq_true.mp hconn
  obtain ⟨op, hop⟩ := Option.isSome_iff_exists.mp hop
  obtain ⟨c', hc', hclose⟩ := (Option.any_eq_true _ _).mp hrun
  have hclosed : c'.state.closed = stagedEntry :: c.state.closed := of_decide_eq_true hclose
  exact ⟨⟨hd, hhd, of_decide_eq_true hconn⟩, c', op, hc', hop, hclosed⟩

end Offshoot.Dbfile
