import Mathlib.Data.Finset.Interval
import Mathlib.Order.Interval.Finset.Nat
import Offshoot.Ltx.Image

/-!
# What a running checksum covers

A rolling checksum folds in one page per page number, so it is the graph of a partial
function from page numbers to pages.  Folding a page out and another in changes that
function at one point, provided the page folded out is the one that is in.
-/

namespace Offshoot

open List

variable {x : Option Bytes}

open scoped symmDiff

/-- The checksum covers page `n` with the data `g n`. -/
def Covers (c : Checksum) (g : Nat → Option Bytes) : Prop := ∀ n d, (n, d) ∈ c ↔ g n = some d

namespace Covers

variable {c c' : Checksum} {g g' : Nat → Option Bytes}

theorem unique (h : Covers c g) (h' : Covers c' g) : c = c' := by
  ext ⟨n, d⟩
  rw [h n d, h' n d]

theorem congr (h : Covers c g) (hg : ∀ n, g n = g' n) : Covers c g' := fun n d => by
  rw [h n d, hg n]

theorem empty : Covers ∅ fun _ => none := fun n d => by simp

theorem mem_elim {n m : Nat} {d : Bytes} :
    (m, d) ∈ x.elim ∅ (checksumPage n) ↔ m = n ∧ x = some d := by
  cases x with
  | none => simp
  | some e =>
    simp only [Option.elim, checksumPage, Finset.mem_singleton, Prod.mk.injEq, Option.some.injEq]
    rw [eq_comm (a := e)]

theorem update (h : Covers c g) (n : Nat) (x : Option Bytes) :
    Covers (updateChecksum c n (g n) x) (Function.update g n x) := fun m d => by
  rw [updateChecksum, Finset.mem_symmDiff, Finset.mem_symmDiff, mem_elim, mem_elim, h m d]
  by_cases hm : m = n
  · rw [hm, Function.update_self]
    tauto
  · rw [Function.update_of_ne hm]
    tauto

end Covers

/-! ## Images -/

namespace Image

variable {img : Image} {n m k : Nat} {d : Bytes}
variable {ps : List Page}

theorem page?_zero : img.page? 0 = none := rfl

theorem page?_succ : img.page? (n + 1) = img.pages[n]? := rfl

theorem page?_eq_none : img.page? n = none ↔ n = 0 ∨ img.commit < n := by
  cases n with
  | zero => simp [page?_zero]
  | succ n =>
    rw [page?_succ, List.getElem?_eq_none_iff, commit]
    omega

theorem page?_isSome : (img.page? n).isSome ↔ 0 < n ∧ n ≤ img.commit := by
  rw [Option.isSome_iff_ne_none, ne_eq, page?_eq_none]
  omega

theorem mem_pages (h : img.page? n = some d) : d ∈ img.pages := by
  cases n with
  | zero => cases h
  | succ n => exact mem_of_getElem? h

theorem pageSize_truncate : (img.truncate k).pageSize = img.pageSize := rfl

theorem commit_writeAt : (img.writeAt n d).commit = max img.commit n := by
  simp only [commit, writeAt, length_set, length_append, length_replicate]
  omega

theorem commit_truncate : (img.truncate k).commit = k := by
  simp only [commit, truncate, length_take, length_append, length_replicate]
  omega

theorem page?_writeAt_self (hn : 0 < n) : (img.writeAt n d).page? n = some d := by
  obtain ⟨n, rfl⟩ := Nat.exists_eq_succ_of_ne_zero (Nat.ne_of_gt hn)
  rw [page?_succ, writeAt, Nat.succ_sub_one, List.getElem?_set_self]
  simp only [length_append, length_replicate]
  omega

theorem page?_writeAt_ne (hn : 0 < n) (hm : m ≠ n) (hle : m ≤ img.commit) :
    (img.writeAt n d).page? m = img.page? m := by
  cases m with
  | zero => rfl
  | succ m =>
    rw [page?_succ, page?_succ, writeAt, List.getElem?_set_ne (by omega)]
    exact List.getElem?_append_left hle

theorem page?_truncate (hm : m ≤ k) (hle : m ≤ img.commit) :
    (img.truncate k).page? m = img.page? m := by
  cases m with
  | zero => rfl
  | succ m =>
    rw [page?_succ, page?_succ, truncate, List.getElem?_take_of_lt hm]
    exact List.getElem?_append_left hle

/-! ### Writing a list of pages -/

/-- The data of the last of the pages with this number, `x` if there is none. -/
def lastWrite (n : Nat) (x : Option Bytes) (ps : List Page) : Option Bytes :=
  ps.foldl (fun x p => if p.pgno = n then some p.data else x) x

theorem lastWrite_append {qs : List Page} :
    lastWrite n x (ps ++ qs) = lastWrite n (lastWrite n x ps) qs := foldl_append

theorem lastWrite_of_not_mem (h : n ∉ ps.map (·.pgno)) : lastWrite n x ps = x := by
  induction ps generalizing x with
  | nil => rfl
  | cons p ps ih =>
    rw [map_cons, mem_cons, not_or] at h
    show lastWrite n (if p.pgno = n then some p.data else x) ps = x
    rw [if_neg (Ne.symm h.1), ih h.2]

theorem lastWrite_of_mem {y : Option Bytes} (h : n ∈ ps.map (·.pgno)) :
    lastWrite n x ps = lastWrite n y ps := by
  induction ps generalizing x y with
  | nil => cases h
  | cons p ps ih =>
    show lastWrite n (if p.pgno = n then some p.data else x) ps =
      lastWrite n (if p.pgno = n then some p.data else y) ps
    by_cases hp : p.pgno = n
    · rw [if_pos hp, if_pos hp]
    · refine ih ?_
      rw [map_cons, mem_cons] at h
      exact h.resolve_left (Ne.symm hp)

theorem lastWrite_mem (h : n ∈ ps.map (·.pgno)) :
    ∃ p ∈ ps, p.pgno = n ∧ lastWrite n x ps = some p.data := by
  induction ps generalizing x with
  | nil => cases h
  | cons q ps ih =>
    show ∃ p ∈ q :: ps, p.pgno = n ∧
      lastWrite n (if q.pgno = n then some q.data else x) ps = some p.data
    by_cases hmem : n ∈ ps.map (·.pgno)
    · obtain ⟨p, hp, hn, hlast⟩ := ih hmem
      exact ⟨p, mem_cons_of_mem _ hp, hn, hlast⟩
    · rw [map_cons, mem_cons] at h
      have hq := h.resolve_right hmem
      exact ⟨q, mem_cons_self, hq.symm, by rw [if_pos hq.symm, lastWrite_of_not_mem hmem]⟩

theorem lastWrite_of_nodup {p : Page} (hps : (ps.map (·.pgno)).Nodup) (hp : p ∈ ps) :
    lastWrite p.pgno x ps = some p.data := by
  induction ps generalizing x with
  | nil => cases hp
  | cons q ps ih =>
    obtain ⟨hnew, hps⟩ := nodup_cons.mp hps
    show lastWrite p.pgno (if q.pgno = p.pgno then some q.data else x) ps = some p.data
    rcases mem_cons.mp hp with rfl | hp
    · rw [if_pos rfl, lastWrite_of_not_mem hnew]
    · exact ih hps hp

theorem lastWrite_filter (h : n ≠ m) :
    lastWrite n x (ps.filter (·.pgno ≠ m)) = lastWrite n x ps := by
  induction ps generalizing x with
  | nil => rfl
  | cons p ps ih =>
    by_cases hp : p.pgno = m
    · have hne : p.pgno ≠ n := fun heq => h (heq.symm.trans hp)
      rw [filter_cons_of_neg (by simpa using hp), ih]
      show _ = lastWrite n (if p.pgno = n then some p.data else x) ps
      rw [if_neg hne]
    · rw [filter_cons_of_pos (by simpa using hp)]
      exact ih

def writePages (img : Image) (ps : List Page) : Image :=
  ps.foldl (fun img p => img.writeAt p.pgno p.data) img

theorem pageSize_writePages : (img.writePages ps).pageSize = img.pageSize := by
  induction ps generalizing img with
  | nil => rfl
  | cons p ps ih => exact ih

theorem commit_le_writePages : img.commit ≤ (img.writePages ps).commit := by
  induction ps generalizing img with
  | nil => exact Nat.le_refl _
  | cons p ps ih =>
    have hw : img.commit ≤ (img.writeAt p.pgno p.data).commit := by
      rw [commit_writeAt]
      exact le_max_left _ _
    exact le_trans hw ih

theorem le_commit_writePages (h : n ∈ ps.map (·.pgno)) : n ≤ (img.writePages ps).commit := by
  induction ps generalizing img with
  | nil => cases h
  | cons p ps ih =>
    rw [map_cons, mem_cons] at h
    rcases h with rfl | h
    · have hw : p.pgno ≤ (img.writeAt p.pgno p.data).commit := by
        rw [commit_writeAt]
        exact le_max_right _ _
      exact le_trans hw commit_le_writePages
    · exact ih h

theorem page?_writePages (hps : ∀ p ∈ ps, 0 < p.pgno) (hn : n ≤ img.commit ∨ n ∈ ps.map (·.pgno)) :
    (img.writePages ps).page? n = lastWrite n (img.page? n) ps := by
  induction ps generalizing img with
  | nil => rfl
  | cons p ps ih =>
    have hp := hps p mem_cons_self
    have hps := fun q hq => hps q (mem_cons_of_mem _ hq)
    show ((img.writeAt p.pgno p.data).writePages ps).page? n =
      lastWrite n (if p.pgno = n then some p.data else img.page? n) ps
    by_cases heq : p.pgno = n
    · have hw : n ≤ (img.writeAt p.pgno p.data).commit := by
        rw [commit_writeAt, heq]
        exact le_max_right _ _
      rw [if_pos heq, ih hps (.inl hw), ← heq, page?_writeAt_self hp]
    · rw [if_neg heq]
      by_cases hmem : n ∈ ps.map (·.pgno)
      · rw [ih hps (.inr hmem), lastWrite_of_mem hmem]
      have hle : n ≤ img.commit := hn.resolve_right fun h => by
        rw [map_cons, mem_cons] at h
        exact h.elim (Ne.symm heq) hmem
      have hw : n ≤ (img.writeAt p.pgno p.data).commit := by
        rw [commit_writeAt]
        exact le_trans hle (le_max_left _ _)
      rw [ih hps (.inl hw), page?_writeAt_ne hp (Ne.symm heq) hle]

end Image

/-! ## The growth check -/

theorem checkGrowth_iff {commit prevCommit lock : Nat} {carried : List Nat} :
    checkGrowth commit prevCommit lock carried = true ↔
      ∀ n, prevCommit < n → n ≤ commit → n ≠ lock → n ∈ carried := by
  unfold checkGrowth
  split
  · simp only [true_iff]
    intro n hn hn'
    omega
  · -- What is needed and what there is, as sets.
    have hneed : ((Finset.Ioc prevCommit commit).erase lock).card =
        commit - prevCommit - (if prevCommit < lock ∧ lock ≤ commit then 1 else 0) := by
      rw [Finset.card_erase_eq_ite, Nat.card_Ioc]
      simp only [Finset.mem_Ioc]
      split <;> rfl
    have hgot : (carried.dedup.countP fun pgno =>
        prevCommit < pgno && pgno ≤ commit && pgno ≠ lock) =
        ((Finset.Ioc prevCommit commit).erase lock ∩ carried.toFinset).card := by
      have hset : (Finset.Ioc prevCommit commit).erase lock ∩ carried.toFinset =
          (carried.dedup.filter fun pgno =>
            prevCommit < pgno && pgno ≤ commit && pgno ≠ lock).toFinset := by
        ext n
        simp only [Finset.mem_inter, Finset.mem_erase, Finset.mem_Ioc, mem_toFinset,
          mem_filter, mem_dedup, Bool.and_eq_true, decide_eq_true_eq]
        tauto
      rw [hset, toFinset_card_of_nodup ((nodup_dedup _).filter _), countP_eq_length_filter]
    rw [beq_iff_eq, hgot, ← hneed]
    constructor
    · intro hcard n hlo hhi hne
      have heq := Finset.eq_of_subset_of_card_le Finset.inter_subset_left hcard.ge
      have hn : n ∈ (Finset.Ioc prevCommit commit).erase lock :=
        Finset.mem_erase.mpr ⟨hne, Finset.mem_Ioc.mpr ⟨hlo, hhi⟩⟩
      rw [← heq] at hn
      exact mem_toFinset.mp (Finset.mem_inter.mp hn).2
    · intro hall
      rw [Finset.inter_eq_left.mpr]
      intro n hn
      obtain ⟨hne, hn⟩ := Finset.mem_erase.mp hn
      obtain ⟨hlo, hhi⟩ := Finset.mem_Ioc.mp hn
      exact mem_toFinset.mpr (hall n hlo hhi hne)

end Offshoot
