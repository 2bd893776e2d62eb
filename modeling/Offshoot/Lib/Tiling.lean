import Mathlib.Data.Nat.Basic

/-!
# Tiles of one width

A length cut into tiles of one width, the last of them as long as what is left.
-/

namespace Tiling

def count (width size : Nat) : Nat := (size + width - 1) / width

def length (width size i : Nat) : Nat := min width (size - i * width)

variable {width size i b : Nat}

section

variable (hw : 0 < width)

include hw

theorem lt_count_iff : i < count width size ↔ i * width < size := by
  rw [count, ← Nat.succ_le_iff, Nat.le_div_iff_mul_le hw, Nat.succ_mul]
  omega

theorem count_le {bound : Nat} (h : size ≤ bound * width) : count width size ≤ bound := by
  rw [← not_lt, lt_count_iff hw]
  omega

theorem length_pos (hi : i < count width size) : 0 < length width size i := by
  have := (lt_count_iff hw).mp hi
  rw [length]
  omega

theorem length_of_succ_lt (hi : i + 1 < count width size) : length width size i = width := by
  have h := (lt_count_iff hw).mp hi
  rw [Nat.succ_mul] at h
  rw [length]
  omega

theorem end_le (hi : i < count width size) : i * width + length width size i ≤ size := by
  have := (lt_count_iff hw).mp hi
  rw [length]
  omega

theorem mem_iff (hb : b < size) :
    i * width ≤ b ∧ b < i * width + length width size i ↔ i = b / width := by
  have hdiv : i * width ≤ b ∧ b < (i + 1) * width ↔ i = b / width := by
    rw [← Nat.le_div_iff_mul_le hw, ← Nat.div_lt_iff_lt_mul hw]
    omega
  rw [← hdiv, Nat.succ_mul, length]
  omega

theorem div_lt_count (hb : b < size) : b / width < count width size := by
  rw [lt_count_iff hw]
  exact lt_of_le_of_lt (Nat.div_mul_le_self b width) hb

end

end Tiling
