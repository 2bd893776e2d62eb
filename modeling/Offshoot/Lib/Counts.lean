import Mathlib.Data.List.Perm.Basic
import Mathlib.Data.List.Count

/-!
# Counters

A counter per key, raised and lowered one at a time, and the list it counts.
-/

namespace Counters

open List

variable {κ α : Type} [DecidableEq κ]

def inc (m : κ → Nat) (k : κ) : κ → Nat := fun k' => if k' = k then m k + 1 else m k'

def dec (m : κ → Nat) (k : κ) : κ → Nat := fun k' =>
  if k' = k then (if m k ≤ 1 then 0 else m k - 1) else m k'

def Counts (m : κ → Nat) (ks : List κ) : Prop := ∀ k, m k = ks.count k

variable {m : κ → Nat} {k : κ} {ks ks' : List κ}

theorem Counts.perm (h : Counts m ks) (hp : ks.Perm ks') : Counts m ks' := fun k => by
  rw [h k, hp.count_eq]

theorem Counts.not_mem (h : Counts m ks) (hk : m k = 0) : k ∉ ks := by
  rw [h k] at hk
  exact count_eq_zero.mp hk

theorem Counts.inc (h : Counts m ks) : Counts (inc m k) (k :: ks) := fun k' => by
  unfold Counters.inc
  by_cases hk : k' = k
  · subst hk
    rw [if_pos rfl, h k', count_cons_self]
  · rw [if_neg hk, h k', count_cons_of_ne (Ne.symm hk)]

theorem Counts.dec (h : Counts m (k :: ks)) : Counts (dec m k) ks := fun k' => by
  unfold Counters.dec
  by_cases hk : k' = k
  · subst hk
    have hcount := h k'
    rw [count_cons_self] at hcount
    rw [if_pos rfl]
    split <;> omega
  · rw [if_neg hk, h k', count_cons_of_ne (Ne.symm hk)]

theorem Counts.foldl {key : α → κ} (h : Counts m ks) (l : List α) :
    Counts (l.foldl (fun m a => Counters.inc m (key a)) m) (l.map key ++ ks) := by
  induction l generalizing m ks with
  | nil => exact h
  | cons a l ih => exact (ih h.inc).perm perm_middle

end Counters
