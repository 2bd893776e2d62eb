import Mathlib.Algebra.Ring.Int.Defs
import Offshoot.Lib.Tiling

/-!
# The parts of a multipart transfer

`partSizeFor`, `partLen` and the three loops over parts of `internal/store/s3_multipart.go`:
the sequential upload, the part a worker of the concurrent upload takes, and the server-side
copy with its inclusive ranges.  Numbers are `int64` and `int32` in the source.  Here every
sum, difference and product is checked, so a result says that none of them left its range.
-/

namespace Offshoot.Multipart

open List

/-- A value of an `int64` expression, none if it would wrap. -/
def int64 (x : Int) : Option Int := if -2 ^ 63 ≤ x ∧ x < 2 ^ 63 then some x else none

def int32 (x : Int) : Option Int := if -2 ^ 31 ≤ x ∧ x < 2 ^ 31 then some x else none

theorem int64_eq {x : Int} (hlo : 0 ≤ x) (hhi : x < 2 ^ 63) : int64 x = some x :=
  if_pos ⟨by omega, hhi⟩

theorem int32_eq {x : Int} (hlo : 0 ≤ x) (hhi : x < 2 ^ 31) : int32 x = some x :=
  if_pos ⟨by omega, hhi⟩

-- Only `int64_eq` and `int32_eq` are used: unfolded, a bound would be counted down to.
attribute [irreducible] int64 int32

variable {β : Type}

theorem bind_eq {α : Type} {x : Option α} {f : α → Option β} {a : α} {b : β} (hx : x = some a)
    (hf : f a = some b) : x >>= f = some b := by
  rw [hx]
  exact hf

/-! ## Sizes -/

def minPartSize : Int := 5 * 1024 * 1024
def defaultPartSize : Int := 64 * 1024 * 1024
def maxParts : Int := 10000

def maxObjectSize : Int := 5 * 1024 ^ 4

def partSizeFor (size : Int) : Option Int := do
  let sum ← int64 (size + maxParts)
  let sum ← int64 (sum - 1)
  let need := sum.tdiv maxParts
  let ps := if defaultPartSize < need then need else defaultPartSize
  return if ps < minPartSize then minPartSize else ps

def partLen (size offset partSize : Int) : Option Int := do
  let remain ← int64 (size - offset)
  return if remain < partSize then remain else partSize

/-! ## The loops -/

structure Part where
  num : Int
  offset : Int
  len : Int
  deriving DecidableEq

/-- The loop of the sequential upload and of the copy, which make of each part what they send.
It is cut off after `fuel` rounds. -/
def partLoop {β : Type} (send : Part → Option β) (size partSize : Int) :
    Nat → Int → Int → Option (List β)
  | 0, _, _ => none
  | fuel + 1, partNum, offset =>
    if offset < size then do
      let n ← partLen size offset partSize
      let sent ← send ⟨partNum, offset, n⟩
      let partNum ← int32 (partNum + 1)
      let offset ← int64 (offset + partSize)
      let rest ← partLoop send size partSize fuel partNum offset
      return sent :: rest
    else return []

/-- `putMultipart` from a reader without random access. -/
def sequentialParts (size : Int) : Option (List Part) := do
  let partSize ← partSizeFor size
  partLoop some size partSize (size.toNat + 1) 1 0

/-- `CopySourceRange`: both ends are part of the range. -/
structure CopyRange where
  num : Int
  start : Int
  last : Int
  deriving DecidableEq

def copyRange (p : Part) : Option CopyRange := do
  let stop ← int64 (p.offset + p.len)
  let last ← int64 (stop - 1)
  return ⟨p.num, p.offset, last⟩

def copyParts (size : Int) : Option (List CopyRange) := do
  let partSize ← partSizeFor size
  partLoop copyRange size partSize (size.toNat + 1) 1 0

def numParts (size partSize : Int) : Option Int := do
  let sum ← int64 (size + partSize)
  let sum ← int64 (sum - 1)
  int32 (sum.tdiv partSize)

/-- What a worker of `concurrentPartUpload` does with a part number, where `base` is the
reader's position at the start. -/
def poolPart (base size partSize partNum : Int) : Option (Part × Int) := do
  let index ← int32 (partNum - 1)
  let offset ← int64 (index * partSize)
  let n ← partLen size offset partSize
  let position ← int64 (base + offset)
  return (⟨partNum, offset, n⟩, position)

/-! ## What they compute -/

variable {size width i : Nat}

def part (width size i : Nat) : Part := ⟨i + 1, i * width, Tiling.length width size i⟩

theorem part_offset : (part width size i).offset = (i * width : Nat) := (Int.natCast_mul ..).symm

theorem part_len : (part width size i).len = Tiling.length width size i := rfl

structure Fits (width size : Nat) : Prop where
  pos : 0 < size
  le : (size : Int) ≤ maxObjectSize
  lower : minPartSize ≤ width
  upper : (width : Int) < 2 ^ 40
  count : Tiling.count width size ≤ 10000

section

variable (h : Fits width size)

include h

theorem Fits.width_pos : 0 < width := by
  have := h.lower
  rw [minPartSize] at this
  omega

theorem partLen_eq (hi : i < Tiling.count width size) :
    partLen size (i * width : Nat) width = some ((Tiling.length width size i : Nat) : Int) := by
  have hlt := (Tiling.lt_count_iff h.width_pos).mp hi
  have hle := h.le
  rw [maxObjectSize] at hle
  have hremain :
      int64 ((size : Int) - (i * width : Nat)) = some ((size : Int) - (i * width : Nat)) :=
    int64_eq (by omega) (by omega)
  refine bind_eq hremain (congrArg some ?_)
  rw [Tiling.length]
  split <;> omega

theorem partLoop_eq {send : Part → Option β} {sent : Part → β}
    (hsend : ∀ i, i < Tiling.count width size →
      send (part width size i) = some (sent (part width size i)))
    (k fuel : Nat) (hfuel : k < fuel) (hk : i + k = Tiling.count width size) :
    partLoop send size width fuel (i + 1) (i * width : Nat) =
      some ((List.range' i k).map fun j => sent (part width size j)) := by
  have hw := h.width_pos
  have hcount := h.count
  induction k generalizing i fuel with
  | zero =>
    have hge : ¬ i * width < size := by
      rw [← Tiling.lt_count_iff hw]
      omega
    obtain ⟨fuel, rfl⟩ : ∃ f, fuel = f + 1 := ⟨fuel - 1, by omega⟩
    rw [partLoop, if_neg (by omega)]
    rfl
  | succ k ih =>
    have hi : i < Tiling.count width size := by omega
    have hlt := (Tiling.lt_count_iff hw).mp hi
    have hle := h.le
    have hupper := h.upper
    rw [maxObjectSize] at hle
    obtain ⟨fuel, rfl⟩ : ∃ f, fuel = f + 1 := ⟨fuel - 1, by omega⟩
    have hrest := ih (i := i + 1) fuel (by omega) (by omega)
    have hnext : ((i * width : Nat) : Int) + width = ((i + 1) * width : Nat) := by
      rw [Nat.succ_mul, Int.natCast_add]
    have hpart : (⟨i + 1, (i * width : Nat), (Tiling.length width size i : Nat)⟩ : Part) =
        part width size i := by
      rw [part, Int.natCast_mul]
    have hnum : int32 ((i : Int) + 1 + 1) = some (((i + 1 : Nat) : Int) + 1) :=
      int32_eq (by omega) (by omega)
    have hoffset :
        int64 ((i * width : Nat) + (width : Int)) = some (((i + 1) * width : Nat) : Int) := by
      rw [← hnext]
      exact int64_eq (by omega) (by omega)
    rw [partLoop, if_pos (by omega), List.range'_succ, map_cons]
    refine bind_eq (partLen_eq h hi) ?_
    exact bind_eq (hsend i hi) (bind_eq hnum (bind_eq hoffset (bind_eq hrest rfl)))

theorem copyRange_part (hi : i < Tiling.count width size) :
    copyRange (part width size i) = some ⟨i + 1, (i * width : Nat),
      ((i * width + Tiling.length width size i : Nat) : Int) - 1⟩ := by
  have hend := Tiling.end_le h.width_pos hi
  have hpos := Tiling.length_pos h.width_pos hi
  have hle := h.le
  rw [maxObjectSize] at hle
  have hstop : int64 (((i * width : Nat) : Int) + Tiling.length width size i) =
      some ((i * width + Tiling.length width size i : Nat) : Int) := by
    exact int64_eq (by omega) (by omega)
  have hlast : int64 (((i * width + Tiling.length width size i : Nat) : Int) - 1) =
      some (((i * width + Tiling.length width size i : Nat) : Int) - 1) :=
    int64_eq (by omega) (by omega)
  exact bind_eq hstop (bind_eq hlast rfl)

theorem poolPart_eq {base : Int} (hbase : 0 ≤ base) (hread : base + size < 2 ^ 63)
    (hi : i < Tiling.count width size) :
    poolPart base size width (i + 1) =
      some (part width size i, base + ((i * width : Nat) : Int)) := by
  have hlt := (Tiling.lt_count_iff h.width_pos).mp hi
  have hcount := h.count
  have hle := h.le
  have hindex : int32 ((i : Int) + 1 - 1) = some (i : Int) := by
    rw [Int.add_sub_cancel]
    exact int32_eq (by omega) (by omega)
  have hoffset : int64 ((i : Int) * width) = some ((i * width : Nat) : Int) := by
    exact int64_eq (by omega) (by omega)
  have hposition : int64 (base + ((i * width : Nat) : Int)) =
      some (base + ((i * width : Nat) : Int)) := int64_eq (by omega) (by omega)
  exact bind_eq hindex (bind_eq hoffset (bind_eq (partLen_eq h hi) (bind_eq hposition rfl)))

theorem numParts_eq : numParts size width = some ((Tiling.count width size : Nat) : Int) := by
  have hw := h.width_pos
  have hle := h.le
  have hupper := h.upper
  have hcount := h.count
  rw [maxObjectSize] at hle
  have hsum : int64 ((size : Int) + width) = some ((size + width : Nat) : Int) := by
    exact int64_eq (by omega) (by omega)
  have hless :
      int64 (((size + width : Nat) : Int) - 1) = some ((size + width - 1 : Nat) : Int) := by
    rw [show ((size + width : Nat) : Int) - 1 = ((size + width - 1 : Nat) : Int) by omega]
    exact int64_eq (by omega) (by omega)
  have hdiv : int32 (((size + width - 1 : Nat) : Int).tdiv width) =
      some ((Tiling.count width size : Nat) : Int) := by
    rw [← Int.ofNat_tdiv, ← Tiling.count]
    exact int32_eq (by omega) (by omega)
  exact bind_eq hsum (bind_eq hless hdiv)

end

/-- The part size of an object: the default, or as much as keeps the number of parts down. -/
def widthFor (size : Nat) : Nat := max (64 * 1024 * 1024) ((size + 9999) / 10000)

theorem partSizeFor_eq (hle : (size : Int) ≤ maxObjectSize) :
    partSizeFor size = some ((widthFor size : Nat) : Int) := by
  rw [maxObjectSize] at hle
  have hsum : int64 ((size : Int) + maxParts) = some ((size + 10000 : Nat) : Int) := by
    rw [maxParts, show (size : Int) + 10000 = ((size + 10000 : Nat) : Int) by omega]
    exact int64_eq (by omega) (by omega)
  have hless : int64 (((size + 10000 : Nat) : Int) - 1) = some ((size + 9999 : Nat) : Int) := by
    rw [show ((size + 10000 : Nat) : Int) - 1 = ((size + 9999 : Nat) : Int) by omega]
    exact int64_eq (by omega) (by omega)
  have hdiv : ((size + 9999 : Nat) : Int).tdiv maxParts = (((size + 9999) / 10000 : Nat) : Int) :=
    (Int.ofNat_tdiv ..).symm
  refine bind_eq hsum (bind_eq hless (congrArg some ?_))
  rw [hdiv, widthFor, defaultPartSize, minPartSize]
  split <;> split <;> omega

theorem fits (hpos : 0 < size) (hle : (size : Int) ≤ maxObjectSize) :
    Fits (widthFor size) size := by
  have hdefault : 64 * 1024 * 1024 ≤ widthFor size := Nat.le_max_left ..
  have hneed : (size + 9999) / 10000 ≤ widthFor size := Nat.le_max_right ..
  refine ⟨hpos, hle, ?_, ?_, ?_⟩
  · rw [minPartSize]
    omega
  · rw [maxObjectSize] at hle
    rw [widthFor]
    omega
  · refine Tiling.count_le (by omega) ?_
    omega

/-! ## Tiling -/

/-- How parts cover an object: they are numbered from one, each byte is in one of them, and
all but the last are of the size S3 asks for. -/
structure Covers (size : Int) (parts : List Part) : Prop where
  nums : parts.map (·.num) = (List.range parts.length).map fun i : Nat => (i : Int) + 1
  inside : ∀ p ∈ parts, 0 ≤ p.offset ∧ 0 < p.len ∧ p.offset + p.len ≤ size
  once : ∀ b, 0 ≤ b → b < size → ∃ p ∈ parts, (p.offset ≤ b ∧ b < p.offset + p.len) ∧
    ∀ q ∈ parts, q.offset ≤ b → b < q.offset + q.len → q = p
  count : parts.length ≤ 10000
  large : ∀ p ∈ parts.dropLast, minPartSize ≤ p.len

def plan (size : Nat) : List Part :=
  (List.range (Tiling.count (widthFor size) size)).map (part (widthFor size) size)

theorem length_plan : (plan size).length = Tiling.count (widthFor size) size := by
  rw [plan, length_map, length_range]

theorem mem_plan {p : Part} : p ∈ plan size ↔
    ∃ i, i < Tiling.count (widthFor size) size ∧ part (widthFor size) size i = p := by
  simp only [plan, mem_map, mem_range]

theorem mem_part_iff {b : Nat} (hw : 0 < width) (hb : b < size) : (part width size i).offset ≤ b ∧
      (b : Int) < (part width size i).offset + (part width size i).len ↔ i = b / width := by
  rw [← Tiling.mem_iff hw hb, part_offset, part_len]
  omega

theorem plan_covers (h : Fits (widthFor size) size) : Covers size (plan size) where
  nums := by
    rw [length_plan, plan, map_map]
    exact map_congr_left fun i _ => rfl
  inside := by
    intro p hp
    obtain ⟨i, hi, rfl⟩ := mem_plan.mp hp
    have hpos := Tiling.length_pos h.width_pos hi
    have hend := Tiling.end_le h.width_pos hi
    rw [part_offset, part_len]
    omega
  once := by
    intro b hlo hhi
    obtain ⟨b, rfl⟩ := Int.eq_ofNat_of_zero_le hlo
    have hb : b < size := Int.ofNat_lt.mp hhi
    have hw := h.width_pos
    refine ⟨part (widthFor size) size (b / widthFor size),
      mem_plan.mpr ⟨_, Tiling.div_lt_count hw hb, rfl⟩, (mem_part_iff hw hb).mpr rfl, ?_⟩
    intro q hq hle hlt
    obtain ⟨i, _, rfl⟩ := mem_plan.mp hq
    rw [(mem_part_iff hw hb).mp ⟨hle, hlt⟩]
  count := by
    rw [length_plan]
    exact h.count
  large := by
    intro p hp
    rw [plan, ← map_dropLast, dropLast_eq_take, take_range, length_range] at hp
    obtain ⟨i, hi, rfl⟩ := mem_map.mp hp
    rw [mem_range] at hi
    have hfull : Tiling.length (widthFor size) size i = widthFor size :=
      Tiling.length_of_succ_lt h.width_pos (by omega)
    rw [part_len, hfull]
    exact h.lower

def CopyRange.part (r : CopyRange) : Part := ⟨r.num, r.start, r.last - r.start + 1⟩

def Part.range (p : Part) : CopyRange := ⟨p.num, p.offset, p.offset + p.len - 1⟩

theorem Part.part_range (p : Part) : p.range.part = p := by
  rw [Part.range, CopyRange.part, show p.offset + p.len - 1 - p.offset + 1 = p.len by omega]

theorem partLoop_plan {send : Part → Option β} {sent : Part → β} (h : Fits (widthFor size) size)
    (hsend : ∀ p ∈ plan size, send p = some (sent p)) :
    partLoop send size (widthFor size) (size + 1) 1 0 = some ((plan size).map sent) := by
  have hw := h.width_pos
  have hfuel : Tiling.count (widthFor size) size < size + 1 :=
    Nat.lt_succ_of_le (Tiling.count_le hw (Nat.le_mul_of_pos_right size hw))
  have hloop := partLoop_eq (i := 0) h
    (fun i hi => hsend _ (mem_plan.mpr ⟨i, hi, rfl⟩)) _ _ hfuel (Nat.zero_add _)
  rw [plan, map_map, range_eq_range']
  rw [Nat.zero_mul] at hloop
  exact hloop

theorem sequentialParts_eq (h : Fits (widthFor size) size) :
    sequentialParts size = some (plan size) := by
  have hloop : _ = some ((plan size).map id) := partLoop_plan h fun _ _ => rfl
  rw [map_id] at hloop
  exact bind_eq (partSizeFor_eq h.le) hloop

theorem copyParts_eq (h : Fits (widthFor size) size) :
    copyParts size = some ((plan size).map Part.range) := by
  refine bind_eq (partSizeFor_eq h.le) (partLoop_plan h fun p hp => ?_)
  obtain ⟨i, hi, rfl⟩ := mem_plan.mp hp
  rw [copyRange_part h hi, Part.range, part, Int.natCast_add, Int.natCast_mul]

end Offshoot.Multipart
