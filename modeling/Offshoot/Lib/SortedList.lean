import Mathlib.Data.List.Induction
import Mathlib.Data.List.Sort

/-!
# Lists sorted by a key

Facts about a list whose elements have distinct keys and come in key order.
-/

namespace SortedList

open List

variable {α : Type} {key : α → Nat}

variable {l : List α} {r : α → α → Prop}

theorem pairwise_lt (hr : ∀ a b, r a b → key a ≤ key b) (hsorted : l.Pairwise r)
    (hnodup : (l.map key).Nodup) : l.Pairwise fun a b => key a < key b := by
  have hne : l.Pairwise fun a b => key a ≠ key b := pairwise_map.mp hnodup
  exact hsorted.imp₂ (fun a b hab hne => Nat.lt_of_le_of_ne (hr a b hab) hne) hne

/-- `out` is what sorting `l` may return when elements that tie come in any order. -/
structure Sorts (r : α → α → Prop) (l out : List α) : Prop where
  perm : out.Perm l
  sorted : out.Pairwise r

/-- Where no two elements tie, sorting has one outcome for all arrangements of a list. -/
theorem Sorts.eq {l' out out' : List α} (h : Sorts r l out) (h' : Sorts r l' out')
    (hperm : l.Perm l') (hanti : ∀ a ∈ l', ∀ b ∈ l', r a b → r b a → a = b) : out = out' := by
  have hout := h.perm.trans hperm
  refine List.Perm.eq_of_pairwise (fun a b ha hb => ?_) h.sorted h'.sorted (hout.trans h'.perm.symm)
  exact hanti a (hout.subset ha) b (h'.perm.subset hb)

theorem Sorts.strict {out : List α} (h : Sorts r l out) (hnodup : l.Nodup)
    (hanti : ∀ a ∈ l, ∀ b ∈ l, r a b → r b a → a = b) :
    out.Pairwise fun a b => r a b ∧ ¬ r b a := by
  refine (h.sorted.and (h.perm.nodup_iff.mpr hnodup)).imp_of_mem fun ha hb hab => ?_
  refine ⟨hab.1, fun hba => hab.2 ?_⟩
  exact hanti _ (h.perm.subset ha) _ (h.perm.subset hb) hab.1 hba

theorem sorts_insertionSort (r : α → α → Prop) [DecidableRel r] [Std.Total r] [IsTrans α r]
    (l : List α) : Sorts r l (l.insertionSort r) :=
  ⟨perm_insertionSort r l, pairwise_insertionSort r l⟩

/-- In a strictly sorted list an element at the least key above `lo` comes first
among those above `lo`. -/
theorem eq_head_of_mem {a c : α} {lo : Nat} (hsorted : (a :: l).Pairwise fun a b => key a < key b)
    (ha : lo < key a) (hc : c ∈ a :: l) (hkey : key c = lo + 1) : c = a := by
  rcases mem_cons.mp hc with rfl | hc
  · rfl
  · have := rel_of_pairwise_cons hsorted hc
    omega

/-- Searching a strictly sorted list from its end finds the largest key at or
below the bound. -/
theorem find?_reverse (hsorted : l.Pairwise fun a b => key a < key b) {w : α} {t : Nat} (hw : w ∈ l)
    (hle : key w ≤ t) (hmax : ∀ x ∈ l, key x ≤ t → key x ≤ key w) :
    l.reverse.find? (key · ≤ t) = some w := by
  induction l using List.reverseRecOn with
  | nil => simp at hw
  | append_singleton l a ih =>
    rw [reverse_append, reverse_singleton, singleton_append, List.find?_cons]
    obtain ⟨hl, -, hla⟩ := pairwise_append.mp hsorted
    by_cases ha : key a ≤ t
    · have hwa : w = a := by
        rcases mem_append.mp hw with hw | hw
        · have hlt := hla w hw a (mem_singleton_self a)
          have hge := hmax a (by simp) ha
          omega
        · exact mem_singleton.mp hw
      simp [hwa, ha]
    · have hwl : w ∈ l := by
        rcases mem_append.mp hw with hw | hw
        · exact hw
        · exact absurd (mem_singleton.mp hw ▸ hle) ha
      simp only [ha, decide_false]
      exact ih hl hwl fun x hx => hmax x (mem_append_left _ hx)

/-- What is dropped from a sorted list are the elements with many before them. -/
theorem mem_drop_iff [DecidableRel r] (hirrefl : ∀ a, ¬ r a a) (hasymm : ∀ a b, r a b → ¬ r b a)
    (hsorted : l.Pairwise r) {x : α} {k : Nat} : x ∈ l.drop k ↔ x ∈ l ∧ k ≤ l.countP (r · x) := by
  induction l generalizing k with
  | nil => simp
  | cons a l ih =>
    obtain ⟨ha, hl⟩ := pairwise_cons.mp hsorted
    cases k with
    | zero => simp
    | succ k =>
      have hself : l.countP (r · a) = 0 :=
        countP_eq_zero.mpr fun b hb h => hasymm a b (ha b hb) (of_decide_eq_true h)
      rw [drop_succ_cons, ih hl, mem_cons, countP_cons]
      by_cases hx : x ∈ l
      · simp [hx, ha x hx]
      · by_cases heq : x = a
        · subst heq
          simp [hx, hself, hirrefl]
        · simp [hx, heq]

end SortedList
