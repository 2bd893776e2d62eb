import Mathlib.Data.Finset.Fold
import Mathlib.Data.Finset.SymmDiff

/-!
# Exclusive or over a finite set

The exclusive or of one word for each member of a set.  It turns the symmetric difference of
two sets into the exclusive or of two words, so a sum can be kept up as members come and go.
-/

namespace XorFold

open scoped symmDiff

variable {α : Type}

def xorSum (f : α → UInt64) (s : Finset α) : UInt64 := s.fold (· ^^^ ·) 0 f

variable {f : α → UInt64} {s t : Finset α}

theorem xorSum_empty : xorSum f ∅ = 0 := rfl

theorem xorSum_singleton (a : α) : xorSum f {a} = f a := by
  rw [xorSum, Finset.fold_singleton, UInt64.xor_zero]

variable [DecidableEq α]

theorem xorSum_union (h : Disjoint s t) : xorSum f (s ∪ t) = xorSum f s ^^^ xorSum f t := by
  have hsum : xorSum f (s ∪ t) ^^^ xorSum f (s ∩ t) = xorSum f s ^^^ xorSum f t :=
    Finset.fold_union_inter
  rw [Finset.disjoint_iff_inter_eq_empty.mp h, xorSum_empty, UInt64.xor_zero] at hsum
  exact hsum

theorem xorSum_symmDiff : xorSum f (s ∆ t) = xorSum f s ^^^ xorSum f t := by
  have hparts {u v : Finset α} : xorSum f u = xorSum f (u \ v) ^^^ xorSum f (u ∩ v) := by
    rw [← xorSum_union (Finset.disjoint_sdiff_inter u v), Finset.sdiff_union_inter]
  have hdiff : xorSum f (s ∆ t) = xorSum f (s \ t) ^^^ xorSum f (t \ s) :=
    xorSum_union disjoint_sdiff_sdiff
  calc xorSum f (s ∆ t)
      = xorSum f (s \ t) ^^^ xorSum f (t \ s) := hdiff
    _ = (xorSum f (s \ t) ^^^ xorSum f (s ∩ t)) ^^^ (xorSum f (t \ s) ^^^ xorSum f (s ∩ t)) := by
        rw [UInt64.xor_assoc, UInt64.xor_comm (xorSum f (t \ s)),
          ← UInt64.xor_assoc (xorSum f (s ∩ t)), UInt64.xor_self, UInt64.zero_xor]
    _ = xorSum f s ^^^ xorSum f t := by
        rw [← hparts, Finset.inter_comm s t, ← hparts]

end XorFold
