import Mathlib.Data.List.Induction
import Mathlib.Data.List.MinMax
import Offshoot.Lib.Maps

/-!
# Keeping the best element of every bucket

A single pass over a list that keeps one element per bucket in a map: an element
replaces the one its bucket holds only when it is strictly better.  The map
the pass ends with holds, at each bucket, the first element of maximal rank
among the elements of that bucket, which is `List.argmax` of the filtered list.
-/

namespace KeepBest

open Maps List

variable {α β ρ : Type} [DecidableEq β]

def keep (bucket : α → β) (better : α → α → Bool) (s : Map β α) (a : α) : Map β α :=
  match s.lookup (bucket a) with
  | none => s.insert (bucket a) a
  | some cur => if better a cur then s.insert (bucket a) a else s

def Filed (bucket : α → β) (s : Map β α) : Prop :=
  ∀ b a, s.lookup b = some a → bucket a = b

variable {s : Map β α}

theorem Filed.keep (hs : Filed bucket s) (a : α) : Filed bucket (keep bucket better s a) := by
  have hinsert : Filed bucket (s.insert (bucket a) a) := by
    intro b c hc
    by_cases hb : b = bucket a
    · rw [hb, AList.lookup_insert, Option.some.injEq] at hc
      rw [hb, hc]
    · rw [AList.lookup_insert_ne hb] at hc
      exact hs b c hc
  unfold KeepBest.keep
  split
  · exact hinsert
  · split
    · exact hinsert
    · exact hs

theorem Filed.foldl_keep (hs : Filed bucket s)
    (l : List α) : Filed bucket (l.foldl (KeepBest.keep bucket better) s) := by
  induction l generalizing s with
  | nil => exact hs
  | cons a l ih => exact ih (hs.keep a)

theorem Filed.empty {bucket : α → β} : Filed bucket ∅ := by
  intro b a h
  cases h

theorem Filed.nodup_map (hs : Filed bucket s) : ((values s).map bucket).Nodup := by
  have hkeys : (values s).map bucket = s.keys := by
    rw [values, map_map, AList.keys, List.keys]
    refine map_congr_left fun e he => ?_
    exact hs e.1 e.2 (AList.mem_lookup_iff.mpr he)
  rw [hkeys]
  exact AList.keys_nodup s

section Rank

variable [LinearOrder ρ] {bucket : α → β} {better : α → α → Bool} {rank : α → ρ}

section

variable (hrank : ∀ a c, better a c = true ↔ rank c < rank a)

include hrank

theorem lookup_keep (s : Map β α) (a : α) (b : β) : (keep bucket better s a).lookup b =
      if bucket a = b then List.argAux (fun b c => rank c < rank b) (s.lookup b) a
      else s.lookup b := by
  by_cases hb : bucket a = b
  · subst hb
    rw [if_pos rfl, keep]
    cases hcur : s.lookup (bucket a) with
    | none => simp [List.argAux]
    | some cur =>
      by_cases hlt : rank cur < rank a
      · simp [List.argAux, hlt, (hrank a cur).mpr hlt]
      · have hbet : better a cur = false := by
          rw [Bool.eq_false_iff, Ne, hrank]
          exact hlt
        simp [List.argAux, hlt, hbet, hcur]
  · have hne : b ≠ bucket a := fun e => hb e.symm
    rw [if_neg hb, keep]
    split
    · rw [AList.lookup_insert_ne hne]
    · split
      · rw [AList.lookup_insert_ne hne]
      · rfl

/-- The pass, started anywhere, folds each bucket on its own. -/
theorem lookup_foldl_keep (l : List α) (s : Map β α) (b : β) :
    (l.foldl (keep bucket better) s).lookup b =
      (l.filter (bucket · = b)).foldl (List.argAux fun b c => rank c < rank b) (s.lookup b) := by
  induction l generalizing s with
  | nil => rfl
  | cons a l ih =>
    rw [foldl_cons, ih, lookup_keep hrank]
    by_cases hb : bucket a = b <;> simp [hb]

/-- At each bucket the pass keeps the first element of maximal rank. -/
theorem lookup_foldl_keep_empty (l : List α) (b : β) :
    (l.foldl (keep bucket better) ∅).lookup b = (l.filter (bucket · = b)).argmax rank := by
  rw [lookup_foldl_keep hrank, AList.lookup_empty]
  rfl

end

end Rank

theorem argmax_of_top [LinearOrder ρ] {rank : α → ρ} {l : List α} {w : α} (hw : w ∈ l)
    (htop : ∀ a ∈ l, a = w ∨ rank a < rank w) : l.argmax rank = some w := by
  cases hc : l.argmax rank with
  | none =>
    rw [argmax_eq_none.mp hc] at hw
    cases hw
  | some c =>
    rcases htop c (argmax_mem hc) with rfl | hlt
    · rfl
    · exact absurd hlt (not_lt_of_ge (le_of_mem_argmax hw hc))

/-- Deleting elements other than the best of a list leaves the best in place. -/
theorem argmax_filter [LinearOrder ρ] {rank : α → ρ} {p : α → Bool} {l : List α} {w : α}
    (hw : l.argmax rank = some w) (hp : p w = true) : (l.filter p).argmax rank = some w := by
  induction l using List.reverseRecOn with
  | nil => simp at hw
  | append_singleton l a ih =>
    rw [argmax_concat] at hw
    cases hc : l.argmax rank with
    | none =>
      have hl : l = [] := argmax_eq_none.mp hc
      have haw : a = w := by simpa [hc] using hw
      subst hl haw
      simp [hp]
    | some c =>
      by_cases hlt : rank c < rank a
      · -- the last element is the best, and it beats whatever is left before it
        have haw : a = w := by simpa [hc, hlt] using hw
        subst haw
        rw [filter_append, filter_singleton, hp, cond_true, argmax_concat]
        cases hf : (l.filter p).argmax rank with
        | none => rfl
        | some d =>
          have hd : d ∈ l := (mem_filter.mp (argmax_mem hf)).1
          have hdc : rank d ≤ rank c := le_of_mem_argmax hd hc
          simp [lt_of_le_of_lt hdc hlt]
      · have hcw : c = w := by simpa [hc, hlt] using hw
        subst hcw
        rw [filter_append, filter_singleton]
        cases hpa : p a with
        | false => simpa using ih hc
        | true => rw [cond_true, argmax_concat, ih hc]; simp [hlt]

end KeepBest
