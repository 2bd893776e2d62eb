import Mathlib.Data.String.Basic
import Offshoot.Store.RefOp

/-!
# What a prune removes

`newestFirst` sorts by the comparison of `internal/ops/prune.go`, which is a strict total order
on the checkpoints of one ref: names break the ties that equal txids and equal stamps leave.  So
the rank of a checkpoint, the number of those before it, decides what a number to keep removes.

Stamps are strings in the source and compared as such.  Only their order is read here.
-/

namespace Offshoot

open Maps List

def ranksBefore (a b : String × Checkpoint) : Bool :=
  if a.2.txid ≠ b.2.txid then b.2.txid < a.2.txid
  else if a.2.createdAt ≠ b.2.createdAt then b.2.createdAt < a.2.createdAt
  else a.1 < b.1

theorem ranksBefore_iff {a b : String × Checkpoint} : ranksBefore a b = true ↔
    b.2.txid < a.2.txid ∨ a.2.txid = b.2.txid ∧
      (b.2.createdAt < a.2.createdAt ∨ a.2.createdAt = b.2.createdAt ∧ a.1 < b.1) := by
  rw [ranksBefore]
  split
  · rw [decide_eq_true_iff]
    omega
  · split
    · rw [decide_eq_true_iff]
      omega
    · simp_all

theorem ranksBefore_irrefl (a : String × Checkpoint) : ¬ ranksBefore a a = true := by
  rw [ranksBefore_iff]
  rintro (h | ⟨-, h | ⟨-, h⟩⟩)
  · exact lt_irrefl _ h
  · exact lt_irrefl _ h
  · exact lt_irrefl _ h

theorem ranksBefore_trans {a b c : String × Checkpoint} (hab : ranksBefore a b = true)
    (hbc : ranksBefore b c = true) : ranksBefore a c = true := by
  rw [ranksBefore_iff] at hab hbc ⊢
  rcases hab with hab | ⟨hab, hab' | ⟨hab', hname⟩⟩ <;>
    rcases hbc with hbc | ⟨hbc, hbc' | ⟨hbc', hname'⟩⟩ <;> try omega
  exact .inr ⟨hab.trans hbc, .inr ⟨hab'.trans hbc', lt_trans hname hname'⟩⟩

theorem ranksBefore_total {a b : String × Checkpoint} (hne : a.1 ≠ b.1) :
    ranksBefore a b = true ∨ ranksBefore b a = true := by
  rw [ranksBefore_iff, ranksBefore_iff]
  rcases lt_trichotomy a.2.txid b.2.txid with h | h | h
  · exact .inr (.inl h)
  · rcases lt_trichotomy a.2.createdAt b.2.createdAt with h' | h' | h'
    · exact .inr (.inr ⟨h.symm, .inl h'⟩)
    · rcases lt_or_gt_of_ne hne with hlt | hgt
      · exact .inl (.inr ⟨h, .inr ⟨h', hlt⟩⟩)
      · exact .inr (.inr ⟨h.symm, .inr ⟨h'.symm, hgt⟩⟩)
    · exact .inl (.inr ⟨h, .inl h'⟩)
  · exact .inl (.inl h)

/-! ## Ranks -/

theorem newerThan_iff {a b : String × Checkpoint} (hne : a.1 ≠ b.1) :
    newerThan a b ↔ ranksBefore a b = true := by
  rw [ranksBefore_iff, newerThan, le_iff_lt_or_eq (a := a.1), or_iff_left hne]

instance : Std.Total newerThan where
  total a b := by
    rw [newerThan, newerThan]
    have hnames := le_total a.1 b.1
    grind

instance : IsTrans (String × Checkpoint) newerThan where
  trans a b c hab hbc := by
    rw [newerThan] at *
    have hnames : a.1 ≤ b.1 → b.1 ≤ c.1 → a.1 ≤ c.1 := le_trans
    grind

variable {cps : Map String Checkpoint} {n : String} {cp : Checkpoint}

def named (cps : Map String Checkpoint) : List (String × Checkpoint) :=
  cps.entries.map fun e => (e.1, e.2)

theorem mem_named : (n, cp) ∈ named cps ↔ cps.lookup n = some cp := by
  rw [← Option.mem_def, AList.mem_lookup_iff]
  simp [named]

def rank (cps : Map String Checkpoint) (p : String × Checkpoint) : Nat :=
  (named cps).countP (ranksBefore · p)

theorem names_distinct : (named cps).Pairwise fun a b => a.1 ≠ b.1 := by
  rw [named, pairwise_map]
  exact pairwise_map.mp cps.nodupKeys

theorem sorted_named : ((named cps).insertionSort newerThan).Pairwise (ranksBefore · ·) := by
  have hsorted := pairwise_insertionSort newerThan (named cps)
  have hnames : ((named cps).insertionSort newerThan).Pairwise fun a b => a.1 ≠ b.1 :=
    (perm_insertionSort newerThan _).pairwise_iff Ne.symm |>.mpr names_distinct
  exact hsorted.imp₂ (fun a b h hne => (newerThan_iff hne).mp h) hnames

theorem mem_drop_newestFirst {keep : Nat} : n ∈ (newestFirst cps).drop keep ↔
    ∃ cp, cps.lookup n = some cp ∧ keep ≤ rank cps (n, cp) := by
  have hperm := perm_insertionSort newerThan (named cps)
  have hmem (cp : Checkpoint) : (n, cp) ∈ ((named cps).insertionSort newerThan).drop keep ↔
      cps.lookup n = some cp ∧ keep ≤ rank cps (n, cp) := by
    rw [SortedList.mem_drop_iff (fun a h => ranksBefore_irrefl a h)
      (fun a b hab hba => ranksBefore_irrefl a (ranksBefore_trans hab hba)) sorted_named,
      hperm.mem_iff, mem_named, hperm.countP_eq]
    simp only [rank, Bool.decide_eq_true]
  rw [newestFirst, ← named, ← map_drop, mem_map]
  constructor
  · rintro ⟨⟨n', cp⟩, h, rfl⟩
    exact ⟨cp, (hmem cp).mp h⟩
  · rintro ⟨cp, h⟩
    exact ⟨(n, cp), (hmem cp).mpr h, rfl⟩

/-- The names a prune is to remove from a ref: those it lists, which must all be there, or
those with as many before them as it keeps. -/
structure ToRemove (opts : PruneOptions) (r : Ref) (names : List String) : Prop where
  listed : opts.keep = none → (∀ n ∈ opts.names, (r.checkpoints.lookup n).isSome = true) ∧
    ∀ n, n ∈ names ↔ n ∈ opts.names
  ranked : ∀ keep, opts.keep = some keep → ∀ n, n ∈ names ↔
    ∃ cp, r.checkpoints.lookup n = some cp ∧ keep ≤ rank r.checkpoints (n, cp)

theorem toRemove_of_pruneDrop {opts : PruneOptions} {r : Ref} {names : List String}
    (h : pruneDrop opts r = some names) : ToRemove opts r names := by
  rw [pruneDrop] at h
  cases hkeep : opts.keep with
  | some keep =>
    rw [hkeep] at h
    cases h
    refine ⟨fun hnone => absurd (hkeep.symm.trans hnone) (Option.some_ne_none keep),
      fun keep' hkeep' n => ?_⟩
    cases hkeep.symm.trans hkeep'
    exact mem_drop_newestFirst
  | none =>
    rw [hkeep] at h
    simp only at h
    split at h
    · rename_i hall
      cases h
      exact ⟨fun _ => ⟨all_eq_true.mp hall, fun n => mem_dedup⟩,
        fun keep hsome => absurd (hsome.symm.trans hkeep) (Option.some_ne_none keep)⟩
    · cases h

theorem ToRemove.congr {opts : PruneOptions} {r : Ref} {names names' : List String}
    (h : ToRemove opts r names) (hmem : ∀ n, n ∈ names' ↔ n ∈ names) : ToRemove opts r names' :=
  ⟨fun hnone => ⟨(h.listed hnone).1, fun n => (hmem n).trans ((h.listed hnone).2 n)⟩,
    fun keep hkeep n => (hmem n).trans (h.ranked keep hkeep n)⟩

structure Pruned (r : Ref) (names : List String) (r' : Ref) : Prop where
  lookup : ∀ n, r'.checkpoints.lookup n = if n ∈ names then none else r.checkpoints.lookup n
  rest : r' = { r with checkpoints := r'.checkpoints }

theorem pruned_dropCheckpoints {r : Ref} {names names' : List String}
    (hmem : ∀ n, n ∈ names' ↔ n ∈ names) : Pruned r names' (dropCheckpoints r names) := by
  refine ⟨fun n => ?_, rfl⟩
  rw [dropCheckpoints, lookup_keepIf]
  by_cases hn : n ∈ names
  · rw [if_pos ((hmem n).mpr hn)]
    exact Option.filter_eq_none_iff.mpr fun _ _ h => of_decide_eq_true h hn
  · rw [if_neg fun h => hn ((hmem n).mp h)]
    cases r.checkpoints.lookup n <;> simp [hn]

theorem Pruned.stored {r r' : Ref} {names : List String} (h : Pruned r names r')
    (hr : r.stored = r) : r'.stored = r' := by
  rw [Ref.stored_eq_self] at hr
  have hsame : ({ r with checkpoints := r'.checkpoints } : Ref).stored = _ :=
    Ref.stored_eq_self.mpr hr
  rwa [← h.rest] at hsame

end Offshoot
