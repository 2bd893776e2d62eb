import Offshoot.Dbfile.Registry

/-!
# What the registry closes

A descriptor that a call has marked for closing has no `Section` over it, and no `Hold` is
active on its path; both stay so until it is closed, because a `Section` is taken only over
what is still in the registry and a `Hold` waits for the closes of its path.  A connection
under a `Hold` is on an inode of the `Hold`'s path, and so is every descriptor on that
inode: an inode has one path.
-/

namespace Offshoot.Dbfile

open Conc Counters List

def World.descriptors (w : World) : List Entry :=
  w.live ++ w.orphans ++ (w.marked.map (·.2) ++ w.closed)

structure Inv (u : Use) (w : World) : Prop where
  distinct : (w.descriptors.map Entry.f).Nodup
  fresh : ∀ e ∈ w.descriptors, e.f < w.nextFd
  home : ∀ e ∈ w.descriptors, u.home e.ino = e.path
  names : ∀ p ino, w.files p = some ino → u.names p ino
  pins : Counts w.pins (w.sections.map Section.ino ++ w.holds.map Hold.ino)
  held : Counts w.held (w.holds.map Hold.path)
  closing : Counts w.closingPath ((w.marked ++ w.clearing).map (·.2.path))
  sections : ∀ s ∈ w.sections, ∃ e ∈ w.live ++ w.orphans, e.f = s.f ∧ e.ino = s.ino
  paths : ∀ h ∈ w.holds, u.hold h.path
  seen : ∀ h ∈ w.holds, ∀ ino ∈ h.seen, u.home ino = h.path
  conns : ∀ h ∈ w.holds, ∀ ino ∈ h.conns, ino ∈ h.seen
  unheld : ∀ h ∈ w.holds, ∀ m ∈ w.marked, m.2.path ≠ h.path

variable {u : Use} {w : World} {i : Nat} {p : Path} {e : Entry} {o : Oracle}

/-- What a marked descriptor's close disturbs: nobody. -/
theorem Inv.quiet (h : Inv u w) (he : (i, e) ∈ w.marked) :
    e.f ∉ w.closed.map Entry.f ∧ (∀ s ∈ w.sections, s.f ≠ e.f) ∧
      ∀ hd ∈ w.holds, e.ino ∉ hd.conns := by
  have hmem : e ∈ w.marked.map (·.2) := mem_map.mpr ⟨(i, e), he, rfl⟩
  have hdistinct := h.distinct
  rw [World.descriptors, map_append, nodup_append] at hdistinct
  obtain ⟨-, hgone, hapart⟩ := hdistinct
  refine ⟨fun hclosed => ?_, fun s hs heq => ?_, fun hd hhd hconn => ?_⟩
  · rw [map_append, nodup_append] at hgone
    exact hgone.2.2 e.f (mem_map_of_mem hmem) e.f hclosed rfl
  · obtain ⟨e', he', hf, -⟩ := h.sections s hs
    refine hapart e'.f (mem_map_of_mem he') e.f ?_ (hf.trans heq)
    exact mem_map_of_mem (mem_append_left _ hmem)
  · refine h.unheld hd hhd (i, e) he ?_
    rw [← h.seen hd hhd e.ino (h.conns hd hhd e.ino hconn)]
    exact (h.home e (mem_append_right _ (mem_append_left _ hmem))).symm

/-! ## The registry -/

variable {es : List Entry}

theorem Inv.mark {live orphans : List Entry} (h : Inv u w)
    (hperm : (w.live ++ w.orphans).Perm (es ++ (live ++ orphans)))
    (hpins : ∀ e ∈ es, w.pins e.ino = 0) (hheld : ∀ e ∈ es, w.held e.path = 0) :
    Inv u ({ w with live := live, orphans := orphans }.markClosingLocked i es) := by
  have hall : w.descriptors.Perm
      ({ w with live := live, orphans := orphans }.markClosingLocked i es).descriptors := by
    have hmap : (es.map (i, ·) ++ w.marked).map (·.2) = es ++ w.marked.map (·.2) := by
      rw [map_append, map_map]
      exact congrArg (· ++ _) (map_id es)
    show (w.live ++ w.orphans ++ (w.marked.map (·.2) ++ w.closed)).Perm
      (live ++ orphans ++ ((es.map (i, ·) ++ w.marked).map (·.2) ++ w.closed))
    rw [hmap, append_assoc es]
    refine (hperm.append_right _).trans ?_
    rw [append_assoc es]
    exact perm_append_comm_assoc _ _ _
  refine ⟨(hall.map _).nodup_iff.mp h.distinct, fun e he => h.fresh e (hall.mem_iff.mpr he),
    fun e he => h.home e (hall.mem_iff.mpr he), h.names, h.pins, h.held, ?_, fun s hs => ?_,
    h.paths, h.seen, h.conns, fun hd hhd m hm => ?_⟩
  · show Counts _ ((es.map (i, ·) ++ w.marked ++ w.clearing).map (·.2.path))
    rw [append_assoc, map_append, map_map]
    exact h.closing.foldl es
  · obtain ⟨e, he, hf, hino⟩ := h.sections s hs
    rcases mem_append.mp (hperm.mem_iff.mp he) with hes | hkept
    · refine absurd (mem_append_left _ (mem_map_of_mem hs)) (h.pins.not_mem ?_)
      rw [← hino]
      exact hpins e hes
    · exact ⟨e, hkept, hf, hino⟩
  · rcases mem_append.mp hm with hes | hm
    · obtain ⟨e, he, rfl⟩ := mem_map.mp hes
      intro heq
      exact h.held.not_mem (hheld e he) (heq ▸ mem_map_of_mem hhd)
    · exact h.unheld hd hhd m hm

theorem World.mem_of_lookup (h : w.lookup p = some e) : e ∈ w.live ∧ e.path = p :=
  ⟨mem_of_find?_eq_some h, by simpa using List.find?_some h⟩

theorem Inv.orphanLocked (h : Inv u w) : Inv u (w.orphanLocked p) := by
  unfold World.orphanLocked
  cases he : w.lookup p with
  | none => exact h
  | some e =>
    have hperm : (w.live ++ w.orphans).Perm ([] ++ (w.live.erase e ++ (w.orphans ++ [e]))) := by
      refine ((perm_cons_erase (World.mem_of_lookup he).1).append_right _).trans ?_
      rw [nil_append, ← append_assoc]
      exact perm_append_singleton e _ |>.symm
    have hmark : Inv u ({ w with live := w.live.erase e, orphans := w.orphans ++ [e]
        }.markClosingLocked 0 []) :=
      h.mark hperm (by simp) (by simp)
    exact hmark

theorem Inv.orphanIfCached (h : Inv u w) : Inv u (w.orphanIfCached e) := by
  unfold World.orphanIfCached
  split
  · exact h
  · split
    · exact h.orphanLocked
    · exact h

/-- What the registry knows of a descriptor besides its last use. -/
def Entry.facts (e : Entry) : Nat × Inode × Path := (e.f, e.ino, e.path)

theorem Inv.touchLocked (h : Inv u w) : Inv u (w.touchLocked e) := by
  have hfacts : (w.touchLocked e).live.map Entry.facts = w.live.map Entry.facts := by
    show (w.live.map _).map Entry.facts = _
    rw [map_map]
    refine map_congr_left fun e' _ => ?_
    show Entry.facts (if e'.f = e.f then _ else e') = _
    split <;> rfl
  have hmap : (w.touchLocked e).descriptors.map Entry.facts = w.descriptors.map Entry.facts := by
    show ((w.touchLocked e).live ++ w.orphans ++ (w.marked.map (·.2) ++ w.closed)).map _ = _
    rw [World.descriptors, map_append, map_append, hfacts, ← map_append, ← map_append]
  have hof {l l' : List Entry} (hl : l'.map Entry.facts = l.map Entry.facts) {e' : Entry}
      (he' : e' ∈ l') : ∃ e ∈ l, e.facts = e'.facts :=
    mem_map.mp (hl ▸ mem_map_of_mem he')
  refine { h with
    distinct := ?_
    fresh := fun e' he' => ?_
    home := fun e' he' => ?_
    sections := fun s hs => ?_ }
  · have hf := congrArg (List.map Prod.fst) hmap
    rw [map_map, map_map] at hf
    exact hf ▸ h.distinct
  · obtain ⟨e'', he'', hfacts⟩ := hof hmap he'
    have hf : e''.f = e'.f := congrArg Prod.fst hfacts
    rw [← hf]
    exact h.fresh e'' he''
  · obtain ⟨e'', he'', hfacts⟩ := hof hmap he'
    have hino : e''.ino = e'.ino := congrArg (·.2.1) hfacts
    have hpath : e''.path = e'.path := congrArg (·.2.2) hfacts
    rw [← hino, ← hpath]
    exact h.home e'' he''
  · obtain ⟨e', he', hf, hino⟩ := h.sections s hs
    have hl : (w.live ++ w.orphans).map Entry.facts =
        ((w.touchLocked e).live ++ w.orphans).map Entry.facts := by
      rw [map_append, map_append, hfacts]
    obtain ⟨e'', he'', hfacts'⟩ := hof hl he'
    exact ⟨e'', he'', (congrArg Prod.fst hfacts').trans hf, (congrArg (·.2.1) hfacts').trans hino⟩

theorem Inv.openLocked (h : Inv u w) (hp : u.one p) :
    Inv u (w.openLocked o p).1 ∧ ∀ e, (w.openLocked o p).2 = some e →
    e ∈ (w.openLocked o p).1.live := by
  unfold World.openLocked
  cases hino : w.files p with
  | none => exact ⟨h, by simp⟩
  | some ino =>
    dsimp only
    split
    · exact ⟨h, by simp⟩
    split
    · refine ⟨{ h with fresh := fun e he => ?_ }, by simp⟩
      exact Nat.lt_succ_of_lt (h.fresh e he)
    · have hperm : (World.descriptors { w with
          nextFd := w.nextFd + 1, live := w.live ++ [⟨p, w.nextFd, ino, 0⟩] }).Perm
          (⟨p, w.nextFd, ino, 0⟩ :: w.descriptors) := by
        show (w.live ++ [_] ++ w.orphans ++ _).Perm _
        rw [append_assoc w.live]
        exact (perm_middle.append_right _)
      refine ⟨{ h with
        distinct := ?_
        fresh := fun e he => ?_
        home := fun e he => ?_
        sections := fun s hs => ?_ }, fun e he => ?_⟩
      · rw [(hperm.map _).nodup_iff, map_cons, nodup_cons]
        refine ⟨fun hmem => ?_, h.distinct⟩
        obtain ⟨e, he, hf⟩ := mem_map.mp hmem
        exact absurd hf (Nat.ne_of_lt (h.fresh e he))
      · rcases mem_cons.mp (hperm.mem_iff.mp he) with rfl | he
        · exact Nat.lt_succ_self _
        · exact Nat.lt_succ_of_lt (h.fresh e he)
      · rcases mem_cons.mp (hperm.mem_iff.mp he) with rfl | he
        · exact h.names p ino hino hp
        · exact h.home e he
      · obtain ⟨e, he, hf, hi⟩ := h.sections s hs
        refine ⟨e, ?_, hf, hi⟩
        rcases mem_append.mp he with he | he
        · exact mem_append_left _ (mem_append_left _ he)
        · exact mem_append_right _ he
      · cases he
        exact mem_append_right _ mem_cons_self

theorem Inv.pinLocked (h : Inv u w) (he : e ∈ w.live) : Inv u (w.pinLocked o i e) := by
  unfold World.pinLocked
  split
  · exact h
  have ht := h.touchLocked (e := e)
  refine { ht with pins := ht.pins.inc, sections := fun s hs => ?_ }
  rcases mem_cons.mp hs with rfl | hs
  · refine ⟨if e.f = e.f then { e with lastUse := w.clock + 1 } else e, ?_, ?_⟩
    · exact mem_append_left _ (mem_map_of_mem he)
    · rw [if_pos rfl]
      exact ⟨rfl, rfl⟩
  · exact ht.sections s hs

theorem Inv.openAndPin (h : Inv u w) (hp : u.one p) : Inv u (w.openAndPin o i p) := by
  obtain ⟨hinv, hmem⟩ := h.openLocked (o := o) hp
  unfold World.openAndPin
  generalize w.openLocked o p = r at hinv hmem
  obtain ⟨w', e⟩ := r
  cases e with
  | none => exact hinv
  | some e => exact hinv.pinLocked (hmem e rfl)

theorem Inv.readerLocked (h : Inv u w) (hp : u.one p) {want : Except StatErr Inode} :
    Inv u (w.readerLocked o i p want) := by
  unfold World.readerLocked
  split
  · exact h.orphanLocked
  · exact h
  split
  · rename_i e he
    split
    · exact h.pinLocked (World.mem_of_lookup he).1
    · exact h.orphanLocked.openAndPin hp
  · exact h.openAndPin hp

theorem Inv.closeSection (h : Inv u w) : Inv u (w.closeSection i) := by
  unfold World.closeSection
  cases hs : w.sections.find? (·.id = i) with
  | none => exact h
  | some s =>
    have hmem := mem_of_find?_eq_some hs
    have hperm : (w.sections.map Section.ino ++ w.holds.map Hold.ino).Perm
        (s.ino :: ((w.sections.erase s).map Section.ino ++ w.holds.map Hold.ino)) :=
      ((perm_cons_erase hmem).map _).append_right _
    exact { h with
      pins := (h.pins.perm hperm).dec
      sections := fun s' hs' => h.sections s' (mem_of_mem_erase hs') }

/-! ## Holds -/

variable {ino : Inode}

section

variable (h : Inv u w)

include h

/-- A `Hold` becomes active when no close of its path is in flight. -/
theorem Inv.activate (hp : u.hold p) (hone : u.one p) (hino : u.home ino = p)
    (hclosing : w.closingPath p = 0) :
    Inv u { w with
      held := inc w.held p
      pins := inc w.pins ino
      holds := ⟨i, p, ino, ino :: (w.files p).toList, []⟩ :: w.holds } := by
  have hnew {P : Hold → Prop} (hnew : P ⟨i, p, ino, ino :: (w.files p).toList, []⟩)
      (hold : ∀ hd ∈ w.holds, P hd) (hd : Hold)
      (hhd : hd ∈ (⟨i, p, ino, ino :: (w.files p).toList, []⟩ :: w.holds : List Hold)) : P hd :=
    (mem_cons.mp hhd).elim (fun heq => heq ▸ hnew) (hold hd)
  refine { h with
    pins := h.pins.inc.perm perm_middle.symm
    held := h.held.inc
    paths := hnew hp h.paths
    seen := hnew (fun ino' hino' => ?_) h.seen
    conns := hnew (by simp) h.conns
    unheld := hnew (fun m hm heq => ?_) h.unheld }
  · rcases mem_cons.mp hino' with rfl | hino'
    · exact hino
    · exact h.names p ino' (Option.mem_toList.mp hino') hone
  · refine h.closing.not_mem hclosing ?_
    have hpath : m.2.path = p := heq
    rw [← hpath]
    exact mem_map_of_mem (mem_append_left _ hm)

theorem Inv.holdLocked (hp : u.hold p) (hone : u.one p) (hino : u.home ino = p) :
    Inv u (w.holdLocked i p ino).1 := by
  unfold World.holdLocked
  split
  · exact h
  have hzero : w.closingPath p = 0 := by omega
  split
  · split
    · exact (h.touchLocked.activate hp hone hino hzero :)
    · exact h.activate hp hone hino hzero
  · exact h.activate hp hone hino hzero

theorem Inv.release : Inv u (w.release i) := by
  unfold World.release
  cases hhd : w.holds.find? (·.id = i) with
  | none => exact h
  | some hd =>
    have hperm := perm_cons_erase (mem_of_find?_eq_some hhd)
    have hmem {hd' : Hold} (h' : hd' ∈ w.holds.erase hd) : hd' ∈ w.holds := mem_of_mem_erase h'
    have hpins : (w.sections.map Section.ino ++ w.holds.map Hold.ino).Perm
        (hd.ino :: (w.sections.map Section.ino ++ (w.holds.erase hd).map Hold.ino)) :=
      ((hperm.map _).append_left _).trans perm_middle
    exact { h with
      pins := (h.pins.perm hpins).dec
      held := (h.held.perm (hperm.map _)).dec
      paths := fun hd' h' => h.paths hd' (hmem h')
      seen := fun hd' h' => h.seen hd' (hmem h')
      conns := fun hd' h' => h.conns hd' (hmem h')
      unheld := fun hd' h' => h.unheld hd' (hmem h') }

theorem Inv.mapHolds {f : Hold → Hold} (hpath : ∀ hd, (f hd).path = hd.path)
    (hino : ∀ hd, (f hd).ino = hd.ino)
    (hseen : ∀ hd ∈ w.holds, ∀ ino ∈ (f hd).seen, u.home ino = hd.path)
    (hconns : ∀ hd ∈ w.holds, ∀ ino ∈ (f hd).conns, ino ∈ (f hd).seen) :
    Inv u { w with holds := w.holds.map f } := by
  have hall {P : Hold → Prop} (hP : ∀ hd ∈ w.holds, P (f hd)) (hd : Hold)
      (hhd : hd ∈ w.holds.map f) : P hd := by
    obtain ⟨hd', hhd', rfl⟩ := mem_map.mp hhd
    exact hP hd' hhd'
  have hpaths : (w.holds.map f).map Hold.path = w.holds.map Hold.path := by
    rw [map_map]
    exact map_congr_left fun hd _ => hpath hd
  have hinos : (w.holds.map f).map Hold.ino = w.holds.map Hold.ino := by
    rw [map_map]
    exact map_congr_left fun hd _ => hino hd
  exact { h with
    pins := hinos ▸ h.pins
    held := hpaths ▸ h.held
    paths := hall fun hd hhd => hpath hd ▸ h.paths hd hhd
    seen := hall fun hd hhd => hpath hd ▸ hseen hd hhd
    conns := hall hconns
    unheld := hall fun hd hhd => hpath hd ▸ h.unheld hd hhd }

theorem Inv.connect : Inv u (w.connect i ino) := by
  refine h.mapHolds (fun hd => ?_) (fun hd => ?_) (fun hd hhd ino' hino' => ?_)
    fun hd hhd ino' hino' => ?_
  · split <;> rfl
  · split <;> rfl
  · refine h.seen hd hhd ino' ?_
    split at hino' <;> exact hino'
  · split at hino'
    · rename_i hc
      rw [if_pos hc]
      rcases mem_cons.mp hino' with rfl | hino'
      · exact hc.2
      · exact h.conns hd hhd ino' hino'
    · rename_i hc
      rw [if_neg hc]
      exact h.conns hd hhd ino' hino'

theorem Inv.disconnect : Inv u (w.disconnect i ino) := by
  refine h.mapHolds (fun hd => ?_) (fun hd => ?_) (fun hd hhd ino' hino' => ?_)
    fun hd hhd ino' hino' => ?_
  · split <;> rfl
  · split <;> rfl
  · refine h.seen hd hhd ino' ?_
    split at hino' <;> exact hino'
  · by_cases hc : hd.id = i
    · rw [if_pos hc] at hino' ⊢
      exact h.conns hd hhd ino' (mem_of_mem_erase hino')
    · rw [if_neg hc] at hino' ⊢
      exact h.conns hd hhd ino' hino'

/-! ## The files -/

theorem Inv.setFile {ino : Option Inode} (hino : ∀ i, ino = some i → u.names p i) :
    Inv u { w with files := fun p' => if p' = p then ino else w.files p' } := by
  refine { h with names := fun p' ino' hino' => ?_ }
  dsimp only at hino'
  split at hino'
  · rename_i heq
    rw [heq]
    exact hino ino' hino'
  · exact h.names p' ino' hino'

theorem Inv.rename (hone : ∀ p, u.hold p → u.one p) (hino : u.names p ino) :
    Inv u (w.rename p ino) := by
  have hfile : ∀ i, some ino = some i → u.names p i := fun i hi => Option.some.inj hi ▸ hino
  refine (h.setFile hfile).mapHolds (fun hd => ?_) (fun hd => ?_) (fun hd hhd ino' hino' => ?_)
    fun hd hhd ino' hino' => ?_
  · split <;> rfl
  · split <;> rfl
  · by_cases hc : hd.path = p
    · rw [if_pos hc] at hino'
      rcases mem_cons.mp hino' with rfl | hino'
      · exact (hino (hc ▸ hone hd.path (h.paths hd hhd))).trans hc.symm
      · exact h.seen hd hhd ino' hino'
    · rw [if_neg hc] at hino'
      exact h.seen hd hhd ino' hino'
  · by_cases hc : hd.path = p
    · rw [if_pos hc] at hino' ⊢
      exact mem_cons_of_mem _ (h.conns hd hhd ino' hino')
    · rw [if_neg hc] at hino' ⊢
      exact h.conns hd hhd ino' hino'

theorem Inv.remove : Inv u (w.remove p) :=
  h.setFile (by simp)

end

/-! ## Closes -/

theorem Oracle.arrange_perm : (o.arrange es).Perm es := by
  unfold Oracle.arrange
  split
  · assumption
  · exact .refl _

theorem Inv.takeOrphans {inside : Path → Bool} (h : Inv u w) :
    Inv u (w.takeOrphans o i inside).1 := by
  have hvictim {e : Entry} (he : e ∈ o.arrange (w.orphans.filter (w.closable inside))) :
      w.closable inside e = true := (mem_filter.mp (Oracle.arrange_perm.mem_iff.mp he)).2
  refine h.mark ?_ (fun e he => ?_) fun e he => ?_
  · refine ((filter_append_perm (w.closable inside) w.orphans).symm.append_left _).trans ?_
    refine perm_append_comm_assoc _ _ _ |>.trans ?_
    exact Oracle.arrange_perm.symm.append_right _
  · have hc := hvictim he
    simp only [World.closable, Bool.and_eq_true, decide_eq_true_eq] at hc
    exact hc.1.1
  · have hc := hvictim he
    simp only [World.closable, Bool.and_eq_true, decide_eq_true_eq] at hc
    exact hc.2

theorem pickVictims_sublist {n : Nat} : (w.pickVictims n es).Sublist es := by
  induction es generalizing n with
  | nil => cases n <;> exact .refl _
  | cons e es ih =>
    cases n with
    | zero => exact nil_sublist _
    | succ n =>
      rw [World.pickVictims]
      split
      · exact ih.cons e
      · exact ih.cons_cons e

theorem pickVictims_unpinned {n : Nat} (he : e ∈ w.pickVictims n es) :
    w.pins e.ino = 0 ∧ w.held e.path = 0 := by
  induction es generalizing n with
  | nil => cases n <;> cases he
  | cons e' es ih =>
    cases n with
    | zero => cases he
    | succ n =>
      rw [World.pickVictims] at he
      split at he
      · exact ih he
      · rcases mem_cons.mp he with rfl | he
        · omega
        · exact ih he

theorem Inv.takeExcess {inside : Path → Bool} {keep : Nat} (h : Inv u w) :
    Inv u (w.takeExcess o i keep inside).1 := by
  have hlive : w.live.Nodup := by
    have hd := h.distinct
    rw [World.descriptors, map_append, map_append] at hd
    exact (nodup_append.mp (nodup_append.mp hd).1).1.of_map
  unfold World.takeExcess
  dsimp only
  generalize hs : (o.arrange (w.live.filter fun e => inside e.path)).insertionSort
    (fun a b => a.lastUse ≤ b.lastUse) = sorted
  have hsorted : sorted.Perm (w.live.filter fun e => inside e.path) := by
    rw [← hs]
    exact (perm_insertionSort _ _).trans Oracle.arrange_perm
  generalize hn : (o.arrange (w.live.filter fun e => inside e.path)).length - keep = n
  have hvictims : (w.pickVictims n sorted).Perm (w.live.filter (· ∈ w.pickVictims n sorted)) := by
    refine (perm_ext_iff_of_nodup ?_ (hlive.filter _)).mpr fun e => ?_
    · exact pickVictims_sublist.nodup (hsorted.nodup_iff.mpr (hlive.filter _))
    · rw [mem_filter, decide_eq_true_eq]
      refine ⟨fun he => ⟨?_, he⟩, fun he => he.2⟩
      exact (mem_filter.mp (hsorted.mem_iff.mp (pickVictims_sublist.subset he))).1
  refine h.mark ?_ (fun e he => (pickVictims_unpinned he).1) fun e he => (pickVictims_unpinned he).2
  rw [← append_assoc]
  refine List.Perm.append_right _ ?_
  refine (filter_append_perm (· ∈ w.pickVictims n sorted) w.live).symm.trans ?_
  simpa using hvictims.symm.append_right _

theorem Inv.closeFd (h : Inv u w) (he : (i, e) ∈ w.marked) : Inv u (w.closeFd i e) := by
  have hmarked := perm_cons_erase he
  have hperm : w.descriptors.Perm (w.closeFd i e).descriptors := by
    refine List.Perm.append_left _ ?_
    exact ((hmarked.map _).append_right _).trans perm_middle.symm
  exact { h with
    distinct := (hperm.map _).nodup_iff.mp h.distinct
    fresh := fun e' he' => h.fresh e' (hperm.mem_iff.mpr he')
    home := fun e' he' => h.home e' (hperm.mem_iff.mpr he')
    closing := h.closing.perm (((hmarked.append_right _).trans perm_middle.symm).map _)
    unheld := fun hd hhd m hm => h.unheld hd hhd m (mem_of_mem_erase hm) }

theorem Inv.clearMark (h : Inv u w) (he : (i, e) ∈ w.clearing) : Inv u (w.clearMark i e) := by
  have hperm : (w.marked ++ w.clearing).Perm ((i, e) :: (w.marked ++ w.clearing.erase (i, e))) :=
    ((perm_cons_erase he).append_left _).trans perm_middle
  have hcounts := h.closing.perm (hperm.map _)
  exact { h with closing := hcounts.dec }

end Offshoot.Dbfile
