import Offshoot.Ltx.Rolling

/-!
# Applying segments

The loop `applySegments` of `internal/ltxio/segment.go`, with its checksums as words.  A
segment's pages are written one after the other, and each is folded into the running
checksum in place of the page it overwrites, as far as the sizes before and after the
segment say that the one was and the other is a page of the database.  Where the segment
carries twice a page that it adds or drops, what the earlier entry wrote is taken for a page
of the database when it is not one, or not taken for one when it is: the checksum is off by
the checksums of just these entries.
-/

namespace Offshoot

open List
open scoped symmDiff

/-! ## The pages of one segment -/

/-- What the running checksum covers when the pages `touched` have been written: a page
that was written counts by the new size, another by the old size. -/
def counted (lock prevCommit commit : Nat) (touched : List Nat) (read : Nat → Option Bytes)
    (n : Nat) : Option Bytes :=
  if n = lock then none
  else if n ≤ (if n ∈ touched then commit else prevCommit) then read n else none

section Counted

variable {lock commit prevCommit n : Nat} {touched : List Nat} {read : Nat → Option Bytes}

theorem counted_lock : counted lock prevCommit commit touched read lock = none := if_pos rfl

theorem counted_of_mem (hlock : n ≠ lock) (h : n ∈ touched) :
    counted lock prevCommit commit touched read n = if n ≤ commit then read n else none := by
  rw [counted, if_neg hlock, if_pos h]

theorem counted_of_not_mem (hlock : n ≠ lock) (h : n ∉ touched) :
    counted lock prevCommit commit touched read n = if n ≤ prevCommit then read n else none := by
  rw [counted, if_neg hlock, if_neg h]

end Counted

/-- The state of the loop over a segment's pages. -/
structure Folded (commit prevCommit : Nat) (touched : List Nat) (img : Image) (c : Checksum) :
    Prop where
  covers : Covers c (counted (lockPgno img.pageSize) prevCommit commit touched img.page?)
  prev_le : prevCommit ≤ img.commit
  touched_le : ∀ n ∈ touched, n ≤ img.commit

variable {commit prevCommit : Nat} {touched : List Nat} {img : Image} {c : Checksum} {p : Page}

/-- The page as the running checksum counts it, by the size before the segment. -/
theorem counted_old (hnew : p.pgno ∉ touched) :
    counted (lockPgno img.pageSize) prevCommit commit touched img.page? p.pgno =
      if p.pgno ≤ prevCommit ∧ p.pgno ≠ lockPgno img.pageSize then img.page? p.pgno else none := by
  by_cases hlock : p.pgno = lockPgno img.pageSize
  · rw [if_neg fun h => h.2 hlock, hlock, counted_lock]
  · rw [counted_of_not_mem hlock hnew]
    simp only [ne_eq, hlock, not_false_eq_true, and_true]

/-- The page counts by the new size once its last entry is written. -/
theorem counted_new (hp : 0 < p.pgno) :
    counted (lockPgno img.pageSize) prevCommit commit (p.pgno :: touched)
        (img.writeAt p.pgno p.data).page? p.pgno =
      if p.pgno ≤ commit ∧ p.pgno ≠ lockPgno img.pageSize then some p.data else none := by
  by_cases hlock : p.pgno = lockPgno img.pageSize
  · rw [if_neg fun h => h.2 hlock, hlock, counted_lock]
  · rw [counted_of_mem hlock mem_cons_self, Image.page?_writeAt_self hp]
    simp only [ne_eq, hlock, not_false_eq_true, and_true]

section

variable (h : Folded commit prevCommit touched img c) (hp : 0 < p.pgno)

include h hp

theorem Folded.counted_other {touched' : List Nat} (hn : n ≠ p.pgno)
    (hmem' : n ∈ touched' ↔ n ∈ touched) :
    counted (lockPgno img.pageSize) prevCommit commit touched' (img.writeAt p.pgno p.data).page? n =
      counted (lockPgno img.pageSize) prevCommit commit touched img.page? n := by
  by_cases hlock : n = lockPgno img.pageSize
  · rw [hlock, counted_lock, counted_lock]
  by_cases hmem : n ∈ touched
  · rw [counted_of_mem hlock hmem, counted_of_mem hlock (hmem'.mpr hmem),
      Image.page?_writeAt_ne hp hn (h.touched_le n hmem)]
  · rw [counted_of_not_mem hlock hmem, counted_of_not_mem hlock (mt hmem'.mp hmem)]
    by_cases hle : n ≤ prevCommit
    · rw [if_pos hle, if_pos hle, Image.page?_writeAt_ne hp hn (le_trans hle h.prev_le)]
    · rw [if_neg hle, if_neg hle]

/-- Writing a page replaces, in what the checksum covers, the page as it counted before by
the page as it counts after. -/
theorem Folded.write (touched' : List Nat) (hother : ∀ n, n ≠ p.pgno →
      (n ∈ touched' ↔ n ∈ touched)) :
    Folded commit prevCommit touched' (img.writeAt p.pgno p.data)
      (updateChecksum c p.pgno
        (counted (lockPgno img.pageSize) prevCommit commit touched img.page? p.pgno)
        (counted (lockPgno img.pageSize) prevCommit commit touched'
          (img.writeAt p.pgno p.data).page? p.pgno)) := by
  have hcommit : (img.writeAt p.pgno p.data).commit = max img.commit p.pgno := Image.commit_writeAt
  refine ⟨(h.covers.update p.pgno _).congr fun n => ?_, ?_, fun n hn => ?_⟩
  · by_cases hn : n = p.pgno
    · rw [hn, Function.update_self]
      rfl
    · rw [Function.update_of_ne hn]
      exact (h.counted_other hp hn (hother n hn)).symm
  · have := h.prev_le
    omega
  · by_cases heq : n = p.pgno
    · omega
    · have := h.touched_le n ((hother n heq).mp hn)
      omega

/-- The last entry of a page is folded in place of the page as it was. -/
theorem Folded.applyPage (hnew : p.pgno ∉ touched) :
    Folded commit prevCommit (p.pgno :: touched) (Offshoot.applyPage commit prevCommit (img, c) p).1
      (Offshoot.applyPage commit prevCommit (img, c) p).2 := by
  have hfold := h.write (p := p) hp (p.pgno :: touched) fun n hn => by
    rw [mem_cons, or_iff_right hn]
  rw [counted_old hnew, counted_new hp] at hfold
  exact hfold

end

abbrev Straddles (lock prevCommit commit pgno : Nat) : Prop :=
  pgno ≠ lock ∧ ¬ (pgno ≤ commit ↔ pgno ≤ prevCommit)

/-- Counting a page by the one size or the other makes a difference if it is added or
dropped. -/
theorem elim_straddles (commit : Nat) {d : Bytes} :
    (if n ≤ prevCommit ∧ n ≠ lock then some d else none).elim ∅ (checksumPage n) =
      (if n ≤ commit ∧ n ≠ lock then some d else none).elim ∅ (checksumPage n) ∆
        if Straddles lock prevCommit commit n then checksumPage n d else ∅ := by
  by_cases hlock : n = lock
  · simp [Straddles, hlock]
  · by_cases hle : n ≤ commit <;> by_cases hprev : n ≤ prevCommit <;>
      simp [Straddles, hlock, hle, hprev, symmDiff_def]

theorem Folded.congr_touched {touched' : List Nat} (h : Folded commit prevCommit touched img c)
    (heq : ∀ n, n ∈ touched ↔ n ∈ touched') : Folded commit prevCommit touched' img c := by
  refine ⟨h.covers.congr fun n => ?_, h.prev_le, fun n hn => h.touched_le n ((heq n).mpr hn)⟩
  simp only [counted, heq n]

variable {d : Checksum}

theorem updateChecksum_symmDiff {x y : Option Bytes} :
    updateChecksum (c ∆ d) n x y = updateChecksum c n x y ∆ d := by
  simp only [updateChecksum, symmDiff_assoc, symmDiff_comm d]

/-- An entry that a later one overwrites leaves the page as it counted before, but for the
entry's own checksum if the page is added or dropped. -/
theorem Folded.applyPage_superseded (h : Folded commit prevCommit touched img c)
    (hp : 0 < p.pgno) (hnew : p.pgno ∉ touched) :
    Folded commit prevCommit touched (Offshoot.applyPage commit prevCommit (img, c) p).1
      ((Offshoot.applyPage commit prevCommit (img, c) p).2 ∆
        if Straddles (lockPgno img.pageSize) prevCommit commit p.pgno then
          checksumPage p.pgno p.data else ∅) := by
  have hfold := h.write (p := p) hp touched fun _ _ => Iff.rfl
  have hcounts : counted (lockPgno img.pageSize) prevCommit commit touched
      (img.writeAt p.pgno p.data).page? p.pgno =
        if p.pgno ≤ prevCommit ∧ p.pgno ≠ lockPgno img.pageSize then some p.data else none := by
    have hold : counted (lockPgno (img.writeAt p.pgno p.data).pageSize) prevCommit commit touched
        (img.writeAt p.pgno p.data).page? p.pgno = _ := counted_old hnew
    rwa [Image.page?_writeAt_self hp] at hold
  rw [counted_old hnew, hcounts] at hfold
  rw [updateChecksum, elim_straddles commit, ← symmDiff_assoc] at hfold
  exact hfold

/-- The entries, of pages that the segment adds or drops, that a later entry of the segment
overwrites. -/
def superseded (lock prevCommit commit : Nat) : List Page → List Page
  | [] => []
  | p :: ps =>
    if Straddles lock prevCommit commit p.pgno ∧ p.pgno ∈ ps.map (·.pgno) then
      p :: superseded lock prevCommit commit ps
    else superseded lock prevCommit commit ps

variable {ps : List Page}

theorem superseded_of_nodup (h : (ps.map (·.pgno)).Nodup) :
    superseded lock prevCommit commit ps = [] := by
  induction ps with
  | nil => rfl
  | cons p ps ih =>
    obtain ⟨hp, hps⟩ := nodup_cons.mp h
    rw [superseded, if_neg fun h => hp h.2, ih hps]

def checksumEntries (ps : List Page) : Checksum :=
  ps.foldr (fun p c => updateChecksum c p.pgno none (some p.data)) ∅

theorem checksumEntries_cons :
    checksumEntries (p :: ps) = checksumPage p.pgno p.data ∆ checksumEntries ps := by
  show updateChecksum (checksumEntries ps) p.pgno none (some p.data) = _
  rw [updateChecksum, symmDiff_comm]
  exact congrArg _ (symmDiff_bot _)

theorem checksumEntries_append {qs : List Page} :
    checksumEntries (ps ++ qs) = checksumEntries ps ∆ checksumEntries qs := by
  induction ps with
  | nil => exact (bot_symmDiff _).symm
  | cons p ps ih => rw [cons_append, checksumEntries_cons, checksumEntries_cons, ih,
      symmDiff_assoc]

theorem foldl_applyPage_symmDiff (ps : List Page) :
    (ps.foldl (applyPage commit prevCommit) (img, c ∆ d)).2 =
      (ps.foldl (applyPage commit prevCommit) (img, c)).2 ∆ d := by
  induction ps generalizing img c with
  | nil => rfl
  | cons p ps ih =>
    rw [foldl_cons, foldl_cons, ← ih]
    simp only [applyPage, updateChecksum_symmDiff]

theorem dropPages_symmDiff : dropPages img commit prevCommit touched (c ∆ d) =
      dropPages img commit prevCommit touched c ∆ d := by
  have hfold (ns : List Nat) (c : Checksum) :
      ns.foldl (fun c n => updateChecksum c n (img.page? n) none) (c ∆ d) =
        ns.foldl (fun c n => updateChecksum c n (img.page? n) none) c ∆ d := by
    induction ns generalizing c with
    | nil => rfl
    | cons n ns ih => rw [foldl_cons, foldl_cons, updateChecksum_symmDiff, ih]
  exact hfold _ c

theorem foldl_applyPage_fst (ps : List Page) :
    (ps.foldl (applyPage commit prevCommit) (img, c)).1 = img.writePages ps := by
  induction ps generalizing img c with
  | nil => rfl
  | cons p ps ih => exact ih

/-- Over the pages of a segment the loop covers what it should, but for the entries it has
superseded: a page counts by the new size from its last entry on. -/
theorem Folded.applyPages (ps : List Page) (h : Folded commit prevCommit touched img c)
    (hps : ∀ p ∈ ps, 0 < p.pgno) (hnew : ∀ n ∈ touched, n ∉ ps.map (·.pgno)) :
    Folded commit prevCommit (ps.map (·.pgno) ++ touched) (img.writePages ps)
      ((ps.foldl (Offshoot.applyPage commit prevCommit) (img, c)).2 ∆
        checksumEntries (superseded (lockPgno img.pageSize) prevCommit commit ps)) := by
  induction ps generalizing touched img c with
  | nil => exact (symmDiff_bot c).symm ▸ h
  | cons p ps ih =>
    have hp := hps p mem_cons_self
    have hps' : ∀ q ∈ ps, 0 < q.pgno := fun q hq => hps q (mem_cons_of_mem _ hq)
    have hrest : ∀ n ∈ touched, n ∉ ps.map (·.pgno) := fun n hn hmem =>
      hnew n hn (mem_cons_of_mem _ hmem)
    have hpnew : p.pgno ∉ touched := fun hmem => hnew _ hmem mem_cons_self
    rw [superseded, foldl_cons]
    by_cases hlast : p.pgno ∈ ps.map (·.pgno)
    · have hfold := ih (h.applyPage_superseded hp hpnew) hps' hrest
      rw [foldl_applyPage_symmDiff, symmDiff_assoc] at hfold
      refine (cast (congrArg _ (congrArg _ ?_)) hfold).congr_touched fun n => ?_
      · by_cases hstr : Straddles (lockPgno img.pageSize) prevCommit commit p.pgno
        · rw [if_pos hstr, if_pos ⟨hstr, hlast⟩, checksumEntries_cons]
          rfl
        · rw [if_neg hstr, if_neg fun h => hstr h.1]
          exact bot_symmDiff _
      · simp only [map_cons, mem_append, mem_cons]
        exact ⟨fun h => h.imp_left .inr, fun h => h.imp_left fun h => h.elim (· ▸ hlast) id⟩
    · rw [if_neg fun h => hlast h.2]
      refine (ih (h.applyPage hp hpnew) hps' fun n hn hin => ?_).congr_touched fun n => ?_
      · rcases mem_cons.mp hn with rfl | hn
        · exact hlast hin
        · exact hrest n hn hin
      · simp only [map_cons, mem_append, mem_cons]
        tauto

theorem Covers.dropAll {g : Nat → Option Bytes} {read : Nat → Option Bytes} (ns : List Nat)
    (h : Covers c g) (hns : ns.Nodup) (hread : ∀ n ∈ ns, read n = g n) :
    Covers (ns.foldl (fun c n => updateChecksum c n (read n) none) c)
      fun n => if n ∈ ns then none else g n := by
  induction ns generalizing c g with
  | nil => exact h.congr fun n => by simp
  | cons n ns ih =>
    obtain ⟨hnew, hns⟩ := nodup_cons.mp hns
    rw [foldl_cons, hread n mem_cons_self]
    refine (ih (h.update n none) hns fun m hm => ?_).congr fun m => ?_
    · rw [hread m (mem_cons_of_mem _ hm), Function.update_of_ne]
      exact fun heq => hnew (heq ▸ hm)
    · by_cases hm : m = n
      · simp [hm]
      · simp [hm, Function.update_of_ne]

/-- When every page a segment adds is carried and every page it drops is folded out, the
checksum covers the pages of the new size. -/
theorem Folded.finish (h : Folded commit prevCommit touched img c)
    (hgrow : ∀ n, prevCommit < n → n ≤ commit → n ≠ lockPgno img.pageSize → n ∈ touched) :
    Covers (dropPages img commit prevCommit touched c) fun n =>
      if n = lockPgno img.pageSize ∨ commit < n then none else img.page? n := by
  have hdropped {n : Nat} : n ∈ (range' (commit + 1) (prevCommit - commit)).filter
      (fun pgno => pgno ≠ lockPgno img.pageSize && pgno ∉ touched) ↔
      (commit < n ∧ n ≤ prevCommit) ∧ n ≠ lockPgno img.pageSize ∧ n ∉ touched := by
    rw [mem_filter, mem_range'_1, Bool.and_eq_true, decide_eq_true_eq, decide_eq_true_eq]
    exact and_congr_left fun _ => ⟨by omega, by omega⟩
  refine (h.covers.dropAll _ (List.Nodup.filter _ (nodup_range' ..)) fun n hn => ?_).congr
    fun n => ?_
  · obtain ⟨hrange, hlock, hmem⟩ := hdropped.mp hn
    rw [counted_of_not_mem hlock hmem, if_pos hrange.2]
  · by_cases hlock : n = lockPgno img.pageSize
    · rw [if_neg fun hn => (hdropped.mp hn).2.1 hlock, hlock, counted_lock, if_pos (.inl rfl)]
    by_cases hmem : n ∈ touched
    · rw [if_neg fun hn => (hdropped.mp hn).2.2 hmem, counted_of_mem hlock hmem]
      by_cases hle : n ≤ commit
      · rw [if_pos hle, if_neg (by omega)]
      · rw [if_neg hle, if_pos (by omega)]
    · -- Not carried: dropped, or in the database before and after.
      by_cases hle : n ≤ commit
      · have hprev : n ≤ prevCommit := by
          by_contra hgt
          exact hmem (hgrow n (by omega) hle hlock)
        rw [if_neg fun hn => by have := (hdropped.mp hn).1; omega, counted_of_not_mem hlock hmem,
          if_pos hprev, if_neg (by omega)]
      · rw [if_pos (show n = lockPgno img.pageSize ∨ commit < n by omega)]
        by_cases hprev : n ≤ prevCommit
        · rw [if_pos (hdropped.mpr ⟨by omega, hlock, hmem⟩)]
        · rw [if_neg fun hn => hprev (hdropped.mp hn).1.2, counted_of_not_mem hlock hmem,
            if_neg hprev]

theorem ite_error_eq_ok {ε α : Type} {b : Prop} [Decidable b] {e : ε} {x : Except ε α} {a : α} :
    (if b then .error e else x) = .ok a ↔ ¬ b ∧ x = .ok a := by
  split <;> simp [*]

theorem bind_eq_ok {ε α β : Type} {x : Except ε α} {f : α → Except ε β} {b : β} :
    x >>= f = .ok b ↔ ∃ a, x = .ok a ∧ f a = .ok b := by
  cases x with
  | error e => exact ⟨fun h => (by cases h), fun h => (by obtain ⟨a, h, -⟩ := h; cases h)⟩
  | ok a => exact ⟨fun h => ⟨a, rfl, h⟩, fun h => (by obtain ⟨a', h, h'⟩ := h; cases h; exact h')⟩

theorem applySegment_eq_ok {s s' : Applied} :
    applySegment s seg = .ok s' ↔ seg.minTXID ≠ 1 ∧ seg.pageSize = s.image.pageSize ∧
      seg.minTXID = s.txid + 1 ∧ seg.preApplyChecksum = s.running ∧
      checkGrowth seg.commit s.image.commit (lockPgno seg.pageSize)
        (seg.pages.map (·.pgno)) = true ∧
      dropPages (s.image.writePages seg.pages) seg.commit s.image.commit (seg.pages.map (·.pgno))
        (seg.pages.foldl (applyPage seg.commit s.image.commit) (s.image, s.running)).2 =
          seg.postApplyChecksum ∧
      s' = ⟨(s.image.writePages seg.pages).truncate seg.commit, seg.maxTXID,
        seg.postApplyChecksum⟩ := by
  unfold applySegment
  rw [ite_error_eq_ok, ite_error_eq_ok, ite_error_eq_ok, ite_error_eq_ok]
  rw [ite_error_eq_ok, ite_error_eq_ok, foldl_applyPage_fst, Except.ok.injEq, not_not, not_not,
    not_not, not_not, Bool.not_eq_true', Bool.not_eq_false]
  refine and_congr_right fun _ => and_congr_right fun _ => and_congr_right fun _ =>
    and_congr_right fun _ => and_congr_right fun _ => and_congr_right fun hpost => ?_
  rw [hpost, eq_comm]

/-! ## Words -/

namespace Rolling

structure Segment where
  pageSize : Nat
  commit : Nat
  minTXID : Nat
  maxTXID : Nat
  preApplyChecksum : UInt64
  postApplyChecksum : UInt64
  pages : List Page
  deriving DecidableEq

/-- The file, and what is known of it: the txid it is at, zero if unknown, its size and its
checksum. -/
structure State where
  image : Image
  txid : Nat
  commit : Nat
  running : UInt64
  deriving DecidableEq

def applyPage (crc : Crc Bytes) (commit prevCommit : Nat) (s : Image × UInt64) (p : Page) :
    Image × UInt64 :=
  let lock := lockPgno s.1.pageSize
  let oldData := if p.pgno ≤ prevCommit ∧ p.pgno ≠ lock then s.1.page? p.pgno else none
  let newData := if p.pgno ≤ commit ∧ p.pgno ≠ lock then some p.data else none
  (s.1.writeAt p.pgno p.data, updateChecksum crc s.2 p.pgno oldData newData)

def dropPages (crc : Crc Bytes) (img : Image) (commit prevCommit : Nat) (touched : List Nat)
    (running : UInt64) : UInt64 :=
  ((range' (commit + 1) (prevCommit - commit)).filter
      fun pgno => pgno ≠ lockPgno img.pageSize && pgno ∉ touched).foldl
    (fun c pgno => updateChecksum crc c pgno (img.page? pgno) none) running

/-- One round of the loop.  The first takes a segment at any txid if the file's is unknown. -/
def applySegment (crc : Crc Bytes) (first : Bool) (s : State) (seg : Segment) :
    Except MaterializeErr State :=
  if seg.minTXID = 1 then .error .notASegment
  else if seg.pageSize ≠ s.image.pageSize then .error .pageSizeMismatch
  else if ¬ (first ∧ s.txid = 0) ∧ seg.minTXID ≠ s.txid + 1 then .error .txidGap
  else if seg.preApplyChecksum ≠ s.running then .error .preApplyMismatch
  else
    let touched := seg.pages.map (·.pgno)
    let written := seg.pages.foldl (applyPage crc seg.commit s.commit) (s.image, s.running)
    if !checkGrowth seg.commit s.commit (lockPgno seg.pageSize) touched then
      .error .uncarriedGrowth
    else
      let running := dropPages crc written.1 seg.commit s.commit touched written.2
      if running ≠ seg.postApplyChecksum then .error .postApplyMismatch
      else .ok ⟨written.1.truncate seg.commit, seg.maxTXID, seg.commit, running⟩

def applyFrom (crc : Crc Bytes) : Bool → State → List Segment → Except MaterializeErr State
  | _, s, [] => .ok s
  | first, s, seg :: segs =>
    match applySegment crc first s seg with
    | .error e => .error e
    | .ok s => applyFrom crc false s segs

def applySegments (crc : Crc Bytes) (s : State) (segs : List Segment) :
    Except MaterializeErr State := applyFrom crc true s segs

variable {crc : Crc Bytes}

theorem applySegments_singleton
    (h : applySegment crc true s seg = .ok s') : applySegments crc s [seg] = .ok s' := by
  rw [applySegments, applyFrom, h]
  rfl

theorem applySegment_eq_ok :
    applySegment crc first s seg = .ok s' ↔ seg.minTXID ≠ 1 ∧ seg.pageSize = s.image.pageSize ∧
      ((first = true ∧ s.txid = 0) ∨ seg.minTXID = s.txid + 1) ∧
      seg.preApplyChecksum = s.running ∧
      checkGrowth seg.commit s.commit (lockPgno seg.pageSize) (seg.pages.map (·.pgno)) = true ∧
      dropPages crc (seg.pages.foldl (applyPage crc seg.commit s.commit) (s.image, s.running)).1
        seg.commit s.commit (seg.pages.map (·.pgno))
        (seg.pages.foldl (applyPage crc seg.commit s.commit) (s.image, s.running)).2 =
          seg.postApplyChecksum ∧
      s' = ⟨((seg.pages.foldl (applyPage crc seg.commit s.commit) (s.image, s.running)).1).truncate
        seg.commit, seg.maxTXID, seg.commit, seg.postApplyChecksum⟩ := by
  unfold applySegment
  rw [ite_error_eq_ok, ite_error_eq_ok, ite_error_eq_ok, ite_error_eq_ok]
  rw [ite_error_eq_ok, ite_error_eq_ok, Except.ok.injEq, not_not, not_and_or, not_not, not_not,
    not_not, not_not, Bool.not_eq_true', Bool.not_eq_false]
  refine and_congr_right fun _ => and_congr_right fun _ => and_congr_right fun _ =>
    and_congr_right fun _ => and_congr_right fun _ => and_congr_right fun hpost => ?_
  rw [hpost, eq_comm]

theorem foldl_applyPage_digest (ps : List Page) :
    ps.foldl (applyPage crc commit prevCommit) (img, digest crc c) =
      ((ps.foldl (Offshoot.applyPage commit prevCommit) (img, c)).1,
        digest crc (ps.foldl (Offshoot.applyPage commit prevCommit) (img, c)).2) := by
  induction ps generalizing img c with
  | nil => rfl
  | cons p ps ih =>
    rw [foldl_cons, foldl_cons, applyPage, updateChecksum_digest]
    exact ih

theorem dropPages_digest : dropPages crc img commit prevCommit touched (digest crc c) =
      digest crc (Offshoot.dropPages img commit prevCommit touched c) := by
  have hfold (ns : List Nat) (c : Checksum) :
      ns.foldl (fun c pgno => updateChecksum crc c pgno (img.page? pgno) none) (digest crc c) =
        digest crc (ns.foldl (fun c pgno =>
          Offshoot.updateChecksum c pgno (img.page? pgno) none) c) := by
    induction ns generalizing c with
    | nil => rfl
    | cons n ns ih => rw [foldl_cons, foldl_cons, updateChecksum_digest, ih]
  exact hfold _ c

/-! ### Chains whose checksums are sets -/

def Segment.of (crc : Crc Bytes) (seg : Offshoot.Segment) : Segment :=
  ⟨seg.pageSize, seg.commit, seg.minTXID, seg.maxTXID, digest crc seg.preApplyChecksum,
    digest crc seg.postApplyChecksum, seg.pages⟩

def State.of (crc : Crc Bytes) (s : Applied) : State :=
  ⟨s.image, s.txid, s.image.commit, digest crc s.running⟩

theorem applySegment_of {s s' : Applied} {seg : Offshoot.Segment}
    (h : Offshoot.applySegment s seg = .ok s') :
    applySegment crc first (.of crc s) (.of crc seg) = .ok (.of crc s') := by
  obtain ⟨hmin, hsize, htxid, hpre, hgrow, hpost, rfl⟩ := Offshoot.applySegment_eq_ok.mp h
  have hrun : dropPages crc (seg.pages.foldl (applyPage crc seg.commit s.image.commit)
      (s.image, digest crc s.running)).1 seg.commit s.image.commit (seg.pages.map (·.pgno))
      (seg.pages.foldl (applyPage crc seg.commit s.image.commit)
        (s.image, digest crc s.running)).2 = digest crc seg.postApplyChecksum := by
    rw [foldl_applyPage_digest, dropPages_digest, foldl_applyPage_fst, hpost]
  refine applySegment_eq_ok.mpr
    ⟨hmin, hsize, .inr htxid, congrArg (digest crc) hpre, hgrow, hrun, ?_⟩
  rw [State.of, Image.commit_truncate, ← foldl_applyPage_fst seg.pages]
  dsimp only [State.of, Segment.of]
  rw [foldl_applyPage_digest]

/-- A chain that is read back with sets is read back the same with words. -/
theorem applySegments_of {s s' : Applied} {segs : List Offshoot.Segment}
    (h : Offshoot.applySegments s segs = .ok s') :
    applySegments crc (.of crc s) (segs.map (.of crc)) = .ok (.of crc s') := by
  have hfrom (first : Bool) (segs : List Offshoot.Segment) (s : Applied)
      (h : Offshoot.applySegments s segs = .ok s') :
      applyFrom crc first (.of crc s) (segs.map (.of crc)) = .ok (.of crc s') := by
    induction segs generalizing first s with
    | nil =>
      rw [← Except.ok.inj h]
      rfl
    | cons seg segs ih =>
      rw [Offshoot.applySegments] at h
      split at h
      · cases h
      · rename_i s₁ hs₁
        rw [map_cons, applyFrom, applySegment_of hs₁]
        exact ih false s₁ h
  exact hfrom true segs s h

theorem applySegments_of_grown : let crc : Crc Bytes := fun _ d => UInt64.ofNat d.value
    let s : Applied := ⟨⟨512, [⟨512, 1⟩]⟩, 7, {(1, ⟨512, 1⟩)}⟩
    let seg : Offshoot.Segment := ⟨512, 2, 8, 8, s.running, {(1, ⟨512, 1⟩), (2, ⟨512, 3⟩)},
      [⟨2, ⟨512, 3⟩⟩]⟩
    ∃ s', Offshoot.applySegments s [seg] = .ok s' ∧
      applySegments crc (.of crc s) [.of crc seg] = .ok (.of crc s') := by
  intro crc s seg
  have h : Offshoot.applySegments s [seg] =
      .ok ⟨⟨512, [⟨512, 1⟩, ⟨512, 3⟩]⟩, 8, seg.postApplyChecksum⟩ := by decide
  exact ⟨_, h, applySegments_of h⟩

/-! ### The true checksum -/

/-- The file has the pages it is said to have, and their checksum. -/
structure State.Sound (crc : Crc Bytes) (s : State) : Prop where
  pages : s.commit ≤ s.image.commit
  sum : checksumPages crc (lockPgno s.image.pageSize) s.image.page? s.commit = some s.running

/-- The file has the pages it is said to have, and the checksum is theirs but for that of
some entries that are not in the file. -/
structure State.Off (crc : Crc Bytes) (s : State) (ps : List Page) : Prop where
  pages : s.commit ≤ s.image.commit
  sum : ∃ c, s.running = digest crc (c ∆ Offshoot.checksumEntries ps) ∧
    Covers c (firstPages (lockPgno s.image.pageSize) s.commit s.image.page?)

def checksumEntries (crc : Crc Bytes) (ps : List Page) : UInt64 :=
  ps.foldr (fun p c => updateChecksum crc c p.pgno none (some p.data)) checksumFlag

theorem digest_checksumEntries (ps : List Page) :
    digest crc (Offshoot.checksumEntries ps) = checksumEntries crc ps := by
  induction ps with
  | nil => exact digest_empty
  | cons p ps ih =>
    rw [checksumEntries, foldr_cons, ← checksumEntries, ← ih, updateChecksum_digest]
    rfl

theorem flag_or_xor_eq {a b : UInt64} :
    checksumFlag ||| (a ^^^ b) = checksumFlag ||| a ↔ checksumFlag ||| b = checksumFlag := by
  simp only [← UInt64.toBitVec_inj, UInt64.toBitVec_or, UInt64.toBitVec_xor,
    BitVec.eq_of_getLsbD_eq_iff, BitVec.getLsbD_or, BitVec.getLsbD_xor]
  refine forall₂_congr fun i _ => ?_
  cases checksumFlag.toBitVec.getLsbD i <;> cases a.toBitVec.getLsbD i <;> simp

theorem digest_symmDiff_eq {d : Checksum} :
    digest crc (c ∆ d) = digest crc c ↔ digest crc d = checksumFlag := by
  rw [digest, digest, XorFold.xorSum_symmDiff, flag_or_xor_eq, digest]

variable {s s' : State} {seg : Segment} {segs : List Segment} {first : Bool} {es : List Page}

theorem State.Sound.off (h : s.Sound crc) : s.Off crc [] := by
  obtain ⟨c, hsum, hc⟩ : ∃ c, checksumPages crc (lockPgno s.image.pageSize) s.image.page? s.commit =
      some (digest crc c) ∧ Covers c (firstPages (lockPgno s.image.pageSize) s.commit
        s.image.page?) :=
    checksumPages_covers s.commit fun m h0 hm _ =>
      Image.page?_isSome.mpr ⟨h0, le_trans hm h.pages⟩
  rw [h.sum] at hsum
  refine ⟨h.pages, c, ?_, hc⟩
  rw [Option.some.inj hsum]
  exact congrArg _ (symmDiff_bot c).symm

/-- The checksum is the file's exactly if the entries it is off by fold to nothing. -/
theorem State.Off.sum_iff (h : s.Off crc es) :
    checksumPages crc (lockPgno s.image.pageSize) s.image.page? s.commit = some s.running ↔
      checksumEntries crc es = checksumFlag := by
  obtain ⟨c, hrun, hc⟩ := h.sum
  have hread (m : Nat) (h0 : 0 < m) (hm : m ≤ s.commit) (_ : m ≠ lockPgno s.image.pageSize) :
      (s.image.page? m).isSome := Image.page?_isSome.mpr ⟨h0, le_trans hm h.pages⟩
  rw [checksumPages_eq hread hc, Option.some.injEq, hrun, eq_comm, digest_symmDiff_eq,
    digest_checksumEntries]

theorem Folded.of_firstPages (hc : Covers c (firstPages (lockPgno img.pageSize) prevCommit
    img.page?)) (hle : prevCommit ≤ img.commit) : Folded commit prevCommit [] img c := by
  refine ⟨hc.congr fun n => ?_, hle, by simp⟩
  by_cases hlock : n = lockPgno img.pageSize
  · rw [hlock, counted_lock, firstPages, if_pos (.inr (.inl rfl))]
  rw [counted_of_not_mem hlock (not_mem_nil), firstPages]
  by_cases h0 : n = 0
  · rw [if_pos (.inl h0), h0, if_pos (Nat.zero_le _), Image.page?_zero]
  · by_cases hle : n ≤ prevCommit
    · rw [if_neg (by omega), if_pos hle]
    · rw [if_pos (by omega), if_neg hle]

/-- What is in the file when a segment's pages were written and it was cut: pages of before
and pages of the segment, whose checksum the loop has computed but for the entries that were
superseded. -/
theorem State.Off.written (hs : s.Off crc es) (hps : ∀ p ∈ seg.pages, 0 < p.pgno)
    (hgrow : ∀ n, s.commit < n → n ≤ seg.commit → n ≠ lockPgno s.image.pageSize →
      n ∈ seg.pages.map (·.pgno)) :
    (seg.pages.foldl (applyPage crc seg.commit s.commit) (s.image, s.running)).1 =
        s.image.writePages seg.pages ∧
      (∃ c, dropPages crc (s.image.writePages seg.pages) seg.commit s.commit
          (seg.pages.map (·.pgno))
          (seg.pages.foldl (applyPage crc seg.commit s.commit) (s.image, s.running)).2 =
          digest crc (c ∆ Offshoot.checksumEntries (es ++ Offshoot.superseded
            (lockPgno s.image.pageSize) s.commit seg.commit seg.pages)) ∧
        Covers c (firstPages (lockPgno s.image.pageSize) seg.commit
          ((s.image.writePages seg.pages).truncate seg.commit).page?)) ∧
      ∀ n, n ≠ lockPgno s.image.pageSize → n ≤ seg.commit →
        (n ≤ s.commit ∨ n ∈ seg.pages.map (·.pgno)) ∧
        ((s.image.writePages seg.pages).truncate seg.commit).page? n =
          Image.lastWrite n (s.image.page? n) seg.pages := by
  obtain ⟨c, hrun, hc⟩ := hs.sum
  rw [hrun, foldl_applyPage_digest, foldl_applyPage_fst, dropPages_digest]
  have hstart : Folded seg.commit s.commit [] s.image c :=
    Folded.of_firstPages hc hs.pages
  have hwritten := hstart.applyPages seg.pages hps fun _ hn => absurd hn not_mem_nil
  rw [append_nil] at hwritten
  have hpageSize : (s.image.writePages seg.pages).pageSize = s.image.pageSize :=
    Image.pageSize_writePages
  -- A page of the new size is in the file before it is cut.
  have hin (n : Nat) (hlock : n ≠ lockPgno s.image.pageSize) (hn : n ≤ seg.commit) :
      n ≤ s.commit ∨ n ∈ seg.pages.map (·.pgno) := by
    by_cases hle : n ≤ s.commit
    · exact .inl hle
    · exact .inr (hgrow n (by omega) hn hlock)
  have hlen (n : Nat) (hlock : n ≠ lockPgno s.image.pageSize) (hn : n ≤ seg.commit) :
      n ≤ (s.image.writePages seg.pages).commit := by
    rcases hin n hlock hn with hle | hmem
    · exact le_trans (le_trans hle hs.pages) Image.commit_le_writePages
    · exact Image.le_commit_writePages hmem
  have hcut (n : Nat) (hlock : n ≠ lockPgno s.image.pageSize) (hn : n ≤ seg.commit) :
      ((s.image.writePages seg.pages).truncate seg.commit).page? n =
        (s.image.writePages seg.pages).page? n :=
    Image.page?_truncate hn (hlen n hlock hn)
  refine ⟨rfl, ⟨_, ?_, (hwritten.finish ?_).congr fun n => ?_⟩,
    fun n hlock hn => ⟨hin n hlock hn, ?_⟩⟩
  · -- Both errors go through the rest of the loop unchanged, and the second is folded twice.
    rw [foldl_applyPage_symmDiff, dropPages_symmDiff, dropPages_symmDiff, checksumEntries_append,
      symmDiff_assoc, ← symmDiff_assoc, symmDiff_comm (Offshoot.checksumEntries es),
      symmDiff_assoc, symmDiff_symmDiff_cancel_left]
  · rw [hpageSize]
    exact hgrow
  · rw [hpageSize]
    show _ = firstPages (lockPgno s.image.pageSize) seg.commit
      ((s.image.writePages seg.pages).truncate seg.commit).page? n
    by_cases h0 : n = 0
    · rw [h0, Image.page?_zero, ite_self]
      exact (if_pos (.inl rfl)).symm
    · by_cases hlock : n = lockPgno s.image.pageSize ∨ seg.commit < n
      · rw [if_pos hlock, firstPages, if_pos (.inr hlock)]
      · rw [if_neg hlock, firstPages, if_neg (by omega), hcut n (by omega) (by omega)]
  · rw [hcut n hlock hn]
    refine Image.page?_writePages hps ((hin n hlock hn).imp_left fun hle => ?_)
    exact le_trans hle hs.pages

/-- What a round leaves: a file of exactly the new size, whose pages are those before the
round and those of the segment, and a checksum that is off by the superseded entries too. -/
theorem applySegment_off (hs : s.Off crc es) (hps : ∀ p ∈ seg.pages, 0 < p.pgno)
    (h : applySegment crc first s seg = .ok s') :
    s'.Off crc (es ++ Offshoot.superseded (lockPgno s.image.pageSize) s.commit seg.commit
        seg.pages) ∧
      s'.image.commit = s'.commit ∧ s'.commit = seg.commit ∧
      s'.image.pageSize = s.image.pageSize ∧
      ∀ n, n ≠ lockPgno s.image.pageSize → n ≤ seg.commit →
        (n ≤ s.commit ∨ n ∈ seg.pages.map (·.pgno)) ∧
        s'.image.page? n = Image.lastWrite n (s.image.page? n) seg.pages := by
  obtain ⟨-, hsize, -, -, hgrow, hpost, rfl⟩ := applySegment_eq_ok.mp h
  rw [hsize] at hgrow
  obtain ⟨himage, hsum, hpages⟩ := hs.written hps (checkGrowth_iff.mp hgrow)
  rw [himage] at hpost ⊢
  rw [hpost] at hsum
  have hpageSize : (s.image.writePages seg.pages).pageSize = s.image.pageSize :=
    Image.pageSize_writePages
  refine ⟨⟨le_of_eq Image.commit_truncate.symm, ?_⟩, Image.commit_truncate, rfl, hpageSize,
    hpages⟩
  rw [Image.pageSize_truncate, hpageSize]
  exact hsum

/-- A segment whose pages turn one file into another, and which declares the checksums of
both, is applied and leaves the other. -/
theorem applySegment_reaches {t : Image} (hs : s.Sound crc) (hps : ∀ p ∈ seg.pages, 0 < p.pgno)
    (hnodup : (seg.pages.map (·.pgno)).Nodup) (hmin : seg.minTXID ≠ 1)
    (htxid : (first = true ∧ s.txid = 0) ∨ seg.minTXID = s.txid + 1)
    (hsize : seg.pageSize = s.image.pageSize) (hpre : seg.preApplyChecksum = s.running)
    (hgrow : ∀ n, s.commit < n → n ≤ seg.commit → n ≠ lockPgno s.image.pageSize →
      n ∈ seg.pages.map (·.pgno)) (hcommit : t.commit = seg.commit)
    (ht : ∀ n, n ≠ lockPgno s.image.pageSize → n ≤ seg.commit →
      t.page? n = Image.lastWrite n (s.image.page? n) seg.pages)
    (hpost : checksumPages crc (lockPgno s.image.pageSize) t.page? t.commit =
      some seg.postApplyChecksum) :
    ∃ s', applySegment crc first s seg = .ok s' ∧ s'.image.commit = t.commit ∧
      s'.image.pageSize = s.image.pageSize ∧
      ∀ n, n ≠ lockPgno s.image.pageSize → s'.image.page? n = t.page? n := by
  obtain ⟨himage, ⟨c, hsum, hc⟩, hpages⟩ := hs.off.written hps hgrow
  rw [superseded_of_nodup hnodup] at hsum
  have hpage (n : Nat) (hlock : n ≠ lockPgno s.image.pageSize) :
      ((s.image.writePages seg.pages).truncate seg.commit).page? n = t.page? n := by
    by_cases hn : n ≤ seg.commit
    · rw [(hpages n hlock hn).2, ht n hlock hn]
    · rw [Image.page?_eq_none.mpr (.inr (by rw [Image.commit_truncate]; omega)),
        Image.page?_eq_none.mpr (.inr (by omega))]
  have hrun : dropPages crc (s.image.writePages seg.pages) seg.commit s.commit
      (seg.pages.map (·.pgno))
      (seg.pages.foldl (applyPage crc seg.commit s.commit) (s.image, s.running)).2 =
      seg.postApplyChecksum := by
    have hread (m : Nat) (h0 : 0 < m) (hm : m ≤ seg.commit)
        (_ : m ≠ lockPgno s.image.pageSize) :
        (((s.image.writePages seg.pages).truncate seg.commit).page? m).isSome :=
      Image.page?_isSome.mpr ⟨h0, le_trans hm (le_of_eq Image.commit_truncate.symm)⟩
    rw [hcommit, ← checksumPages_congr fun n hlock _ => hpage n hlock, checksumPages_eq hread hc]
      at hpost
    rw [hsum, ← Option.some.inj hpost]
    exact congrArg _ (symmDiff_bot c)
  refine ⟨_, applySegment_eq_ok.mpr ⟨hmin, hsize, htxid, hpre, ?_, ?_, rfl⟩, ?_, ?_, ?_⟩
  · rw [hsize]
    exact checkGrowth_iff.mpr hgrow
  · rw [himage]
    exact hrun
  · rw [Image.commit_truncate, hcommit]
  · rw [Image.pageSize_truncate, himage, Image.pageSize_writePages]
  · rw [himage]
    exact hpage

def superseded (lock : Nat) : Nat → List Segment → List Page
  | _, [] => []
  | prevCommit, seg :: segs =>
    Offshoot.superseded lock prevCommit seg.commit seg.pages ++ superseded lock seg.commit segs

theorem applyFrom_off (hs : s.Off crc es) (hps : ∀ seg ∈ segs, ∀ p ∈ seg.pages, 0 < p.pgno)
    (h : applyFrom crc first s segs = .ok s') :
    s'.Off crc (es ++ superseded (lockPgno s.image.pageSize) s.commit segs) ∧
      (segs ≠ [] → s'.image.commit = s'.commit) ∧
      ∀ n, n ≠ lockPgno s.image.pageSize → n ≤ s'.commit →
        (n ≤ s.commit ∨ n ∈ (segs.flatMap (·.pages)).map (·.pgno)) ∧
        s'.image.page? n = Image.lastWrite n (s.image.page? n) (segs.flatMap (·.pages)) := by
  induction segs generalizing s first es with
  | nil =>
    cases h
    exact ⟨(append_nil es).symm ▸ hs, fun hne => absurd rfl hne, fun n _ hn => ⟨.inl hn, rfl⟩⟩
  | cons seg segs ih =>
    rw [applyFrom] at h
    split at h
    · cases h
    rename_i s₁ hs₁
    obtain ⟨hoff, hexact, hcommit, hsize, hpage⟩ :=
      applySegment_off hs (hps seg mem_cons_self) hs₁
    rw [← hcommit] at hpage
    obtain ⟨hoff', hexact', hpage'⟩ :=
      ih hoff (fun seg hseg => hps seg (mem_cons_of_mem _ hseg)) h
    rw [hsize, hcommit, append_assoc] at hoff'
    refine ⟨hoff', fun _ => ?_, fun n hlock hn => ?_⟩
    · cases segs with
      | nil =>
        cases h
        exact hexact
      | cons seg' segs => exact hexact' (cons_ne_nil _ _)
    · rw [hsize] at hpage'
      obtain ⟨hin', hlast'⟩ := hpage' n hlock hn
      rw [flatMap_cons, Image.lastWrite_append, hlast', map_append, mem_append]
      by_cases hmem : n ∈ (segs.flatMap (·.pages)).map (·.pgno)
      · exact ⟨.inr (.inr hmem), Image.lastWrite_of_mem hmem⟩
      · -- Not written again, it has been there since this round.
        obtain ⟨hin, hlast⟩ := hpage n hlock (hin'.resolve_right hmem)
        rw [hlast]
        exact ⟨hin.imp_right .inl, rfl⟩

/-- The checksum `applySegments` returns is that of the file it leaves exactly if the
superseded entries fold to the checksum of nothing; and every page of that file is from the
start or from the last entry that wrote it. -/
theorem applySegments_checksum (hs : s.Sound crc)
    (hps : ∀ seg ∈ segs, ∀ p ∈ seg.pages, 0 < p.pgno) (h : applySegments crc s segs = .ok s') :
    (checksumPages crc (lockPgno s'.image.pageSize) s'.image.page? s'.commit = some s'.running ↔
      checksumEntries crc (superseded (lockPgno s.image.pageSize) s.commit segs) = checksumFlag) ∧
      (segs ≠ [] → s'.image.commit = s'.commit) ∧
      ∀ n, n ≠ lockPgno s.image.pageSize → n ≤ s'.commit →
        s'.image.page? n = Image.lastWrite n (s.image.page? n) (segs.flatMap (·.pages)) := by
  obtain ⟨hoff, hexact, hpage⟩ := applyFrom_off hs.off hps h
  exact ⟨hoff.sum_iff, hexact, fun n hlock hn => (hpage n hlock hn).2⟩

def onePage : State := ⟨⟨512, [⟨512, 1⟩]⟩, 7, 1, checksumFlag ||| 1⟩

def valueCrc : Crc Bytes := fun pgno data => UInt64.ofNat (data.value + 16 * (pgno - 1))

def twice : Segment := ⟨512, 2, 8, 8, checksumFlag ||| 1,
  checksumFlag ||| (1 ^^^ (2 + 16) ^^^ (3 + 16)), [⟨2, ⟨512, 2⟩⟩, ⟨2, ⟨512, 3⟩⟩]⟩

def grown : Segment := ⟨512, 2, 8, 8, checksumFlag ||| 1, checksumFlag ||| (1 ^^^ (3 + 16)),
  [⟨2, ⟨512, 3⟩⟩]⟩

/-- `grown` after two entries for the page that undo each other. -/
def thrice : Segment := { grown with pages := [⟨2, ⟨512, 2⟩⟩, ⟨2, ⟨512, 2⟩⟩] ++ grown.pages }

theorem onePage_sound : onePage.Sound valueCrc := ⟨by decide, by decide⟩

/-- A page carried twice can leave a checksum that is not the file's. -/
theorem applySegments_checksum_false : ¬ ∀ (crc : Crc Bytes) (s s' : State) (segs : List Segment),
    s.Sound crc → (∀ seg ∈ segs, ∀ p ∈ seg.pages, 0 < p.pgno) →
    applySegments crc s segs = .ok s' →
    checksumPages crc (lockPgno s'.image.pageSize) s'.image.page? s'.commit = some s'.running ∧
      (segs ≠ [] → s'.image.commit = s'.commit) ∧
      ∀ n, n ≠ lockPgno s.image.pageSize → n ≤ s'.commit →
        s'.image.page? n = Image.lastWrite n (s.image.page? n) (segs.flatMap (·.pages)) := by
  intro hall
  have hsum := (hall valueCrc onePage ⟨⟨512, [⟨512, 1⟩, ⟨512, 3⟩]⟩, 8, 2, twice.postApplyChecksum⟩
    [twice] onePage_sound (by decide) (by decide)).1
  exact absurd hsum (by decide)

theorem applySegments_checksum_thrice : applySegments valueCrc onePage [thrice] =
      .ok ⟨⟨512, [⟨512, 1⟩, ⟨512, 3⟩]⟩, 8, 2, thrice.postApplyChecksum⟩ ∧
    checksumPages valueCrc (lockPgno 512) (Image.page? ⟨512, [⟨512, 1⟩, ⟨512, 3⟩]⟩) 2 =
      some thrice.postApplyChecksum := by
  have happly : applySegments valueCrc onePage [thrice] =
      .ok ⟨⟨512, [⟨512, 1⟩, ⟨512, 3⟩]⟩, 8, 2, thrice.postApplyChecksum⟩ := by decide
  exact ⟨happly, (applySegments_checksum onePage_sound (by decide) happly).1.mpr (by decide)⟩

end Rolling

end Offshoot
