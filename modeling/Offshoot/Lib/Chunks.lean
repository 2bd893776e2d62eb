import Mathlib.Data.List.Basic

/-!
# Reading from a source in chunks

A source hands out its content in chunks of its own choosing: one read gives the next chunk,
or as much of it as there is room for.  Reading until a buffer is full gives the same
whatever the chunks are.
-/

namespace Chunks

open List

variable {α : Type}

abbrev Source (α : Type) := List (List α)

/-- One read into room for `n`: what it gives, whether the source was at its end, and what is
left. -/
def read (n : Nat) : Source α → List α × Bool × Source α
  | [] => ([], true, [])
  | c :: cs => if c.length ≤ n then (c, false, cs) else (c.take n, false, c.drop n :: cs)

/-- Read until there are `n`: what there is, whether the source ended before, and what is
left. -/
def readFull (n : Nat) : Source α → List α × Bool × Source α
  | [] => ([], n ≠ 0, [])
  | c :: cs =>
    if n = 0 then ([], false, c :: cs)
    else if c.length ≤ n then
      (c ++ (readFull (n - c.length) cs).1, (readFull (n - c.length) cs).2)
    else (c.take n, false, c.drop n :: cs)

variable {n : Nat} {cs : Source α}

theorem read_append : (read n cs).1 ++ (read n cs).2.2.flatten = cs.flatten := by
  cases cs with
  | nil => rfl
  | cons c cs =>
    rw [read]
    split
    · rfl
    · rw [flatten_cons, flatten_cons, ← append_assoc, take_append_drop]

theorem length_read_le : (read n cs).1.length ≤ n := by
  cases cs with
  | nil => exact Nat.zero_le n
  | cons c cs =>
    rw [read]
    split
    · assumption
    · exact length_take_le n c

theorem read_lt (hn : 0 < n) (hend : (read n cs).2.1 = false) :
    (read n cs).2.2.flatten.length + (read n cs).2.2.length < cs.flatten.length + cs.length := by
  cases cs with
  | nil => cases hend
  | cons c cs =>
    rw [read, flatten_cons, length_append, length_cons]
    split
    · show cs.flatten.length + cs.length < _
      omega
    · rw [flatten_cons, length_append, length_cons, length_drop]
      omega

theorem read_le : (read n cs).2.2.flatten.length + (read n cs).2.2.length ≤
    cs.flatten.length + cs.length := by
  cases cs with
  | nil => exact Nat.le_refl _
  | cons c cs =>
    rw [read, flatten_cons, length_append, length_cons]
    split
    · show cs.flatten.length + cs.length ≤ _
      omega
    · rw [flatten_cons, length_append, length_cons, length_drop]
      omega

theorem read_end (hend : (read n cs).2.1 = true) : (read n cs).2.2 = [] := by
  cases cs with
  | nil => rfl
  | cons c cs =>
    rw [read] at hend
    split at hend <;> cases hend

theorem readFull_spec (n : Nat) (cs : Source α) : (readFull n cs).1 = cs.flatten.take n ∧
    (readFull n cs).2.1 = decide (cs.flatten.length < n) ∧
    (readFull n cs).2.2.flatten = cs.flatten.drop n := by
  induction cs generalizing n with
  | nil =>
    rw [readFull, flatten_nil, take_nil, drop_nil, length_nil]
    exact ⟨rfl, decide_eq_decide.mpr (by omega), rfl⟩
  | cons c cs ih =>
    rw [readFull, flatten_cons, take_append, drop_append, length_append]
    by_cases hn : n = 0
    · rw [if_pos hn, hn]
      exact ⟨by simp, by simp, by simp⟩
    · rw [if_neg hn]
      by_cases hc : c.length ≤ n
      · obtain ⟨hread, hend, hrest⟩ := ih (n - c.length)
        rw [if_pos hc, hread, hend, hrest, take_of_length_le hc, drop_of_length_le hc]
        exact ⟨rfl, decide_eq_decide.mpr (by omega), rfl⟩
      · have hsub : n - c.length = 0 := by omega
        rw [if_neg hc, hsub, take_zero, append_nil, drop_zero]
        exact ⟨rfl, (decide_eq_false (by omega)).symm, rfl⟩

theorem length_readFull : (readFull n cs).1.length = min n cs.flatten.length := by
  rw [(readFull_spec n cs).1, length_take]

theorem length_readFull_rest : (readFull n cs).2.2.length ≤ cs.length := by
  induction cs generalizing n with
  | nil => exact Nat.le_refl _
  | cons c cs ih =>
    rw [readFull]
    split
    · exact Nat.le_refl _
    · split
      · exact Nat.le_succ_of_le ih
      · exact Nat.le_refl _

/-! ## Parts of a list -/

def slice (l : List α) (i n : Nat) : List α := (l.drop i).take n

theorem slice_slice {l : List α} {a i m : Nat} (h : i + m ≤ n) :
    slice (slice l a n) i m = slice l (a + i) m := by
  rw [slice, slice, slice, drop_take, drop_drop, take_take, Nat.min_eq_left (by omega)]

theorem slice_take {l : List α} {i m : Nat} (h : i + n ≤ m) :
    slice (l.take m) i n = slice l i n := by
  rw [slice, slice, drop_take, take_take, Nat.min_eq_left (by omega)]

end Chunks
