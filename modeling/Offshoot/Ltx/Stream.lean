import Offshoot.Lib.Chunks
import Offshoot.Lib.Endian
import Offshoot.Ltx.Encode

/-!
# The checksum of a stream

`StreamChecksum` of `internal/ltxio/segment.go` reads a database in blocks, hands every block
on, and folds the pages of each block in two halves that know nothing of each other.  Each
half starts from zero and leaves out the flag, which the sum of the two gets back.  The
result is the checksum of the pages taken one after the other.
-/

namespace Offshoot.Rolling

open Chunks List

section Words

variable {β : Type} {crc : Crc β} {lock : Nat}

theorem checksumFlag_or_self (a : UInt64) :
    checksumFlag ||| (checksumFlag ||| a) = checksumFlag ||| a := by
  rw [← UInt64.or_assoc, UInt64.or_self]

theorem checksumPages_flag {read : Nat → Option β} {sum : UInt64}
    (h : checksumPages crc lock read nPages = some sum) : checksumFlag ||| sum = sum := by
  have hfold (ns : List Nat) (c : UInt64) (hc : checksumFlag ||| c = c)
      (h : ns.foldlM (checksumNext crc lock read) c = some sum) : checksumFlag ||| sum = sum := by
    induction ns generalizing c with
    | nil =>
      rw [← Option.some.inj h]
      exact hc
    | cons n ns ih =>
      rw [foldlM_cons, Option.bind_eq_bind, Option.bind_eq_some_iff] at h
      obtain ⟨c₁, hnext, hrest⟩ := h
      refine ih c₁ ?_ hrest
      rw [checksumNext] at hnext
      split at hnext
      · rw [← Option.some.inj hnext]
        exact hc
      · obtain ⟨d, -, rfl⟩ := Option.map_eq_some_iff.mp hnext
        exact checksumFlag_or_self _
  exact hfold _ checksumFlag (UInt64.or_self) h

def xorPages (crc : Crc β) (lock : Nat) (page : Nat → β) (acc : UInt64) (ns : List Nat) : UInt64 :=
  ns.foldl (fun acc n => if n = lock then acc else acc ^^^ checksumPage crc n (page n)) acc

theorem xorPages_zero {page : Nat → β} (acc : UInt64) (ns : List Nat) :
    xorPages crc lock page acc ns = acc ^^^ xorPages crc lock page 0 ns := by
  induction ns generalizing acc with
  | nil => exact UInt64.xor_zero.symm
  | cons n ns ih =>
    show xorPages crc lock page (if n = lock then acc else acc ^^^ checksumPage crc n (page n)) ns =
      acc ^^^ xorPages crc lock page (if n = lock then 0 else 0 ^^^ checksumPage crc n (page n)) ns
    by_cases hlock : n = lock
    · rw [if_pos hlock, if_pos hlock, ih]
    · rw [if_neg hlock, if_neg hlock, ih, ih (0 ^^^ _), UInt64.zero_xor, UInt64.xor_assoc]

theorem xorPages_append {page : Nat → β} (ms ns : List Nat) : xorPages crc lock page 0 (ms ++ ns) =
      xorPages crc lock page 0 ms ^^^ xorPages crc lock page 0 ns := by
  rw [xorPages, foldl_append]
  exact xorPages_zero _ ns

theorem foldlM_checksumNext {read : Nat → Option β} {page : Nat → β} {ns : List Nat} {c : UInt64}
    (hread : ∀ n ∈ ns, n ≠ lock → read n = some (page n)) (hc : checksumFlag ||| c = c) :
    ns.foldlM (checksumNext crc lock read) c =
      some (checksumFlag ||| (c ^^^ xorPages crc lock page 0 ns)) := by
  induction ns generalizing c with
  | nil => exact congrArg some (by rw [xorPages, foldl_nil, UInt64.xor_zero, hc])
  | cons n ns ih =>
    have hrest := fun m hm => hread m (mem_cons_of_mem _ hm)
    rw [foldlM_cons, checksumNext]
    show _ = some (checksumFlag ||| (c ^^^ xorPages crc lock page
      (if n = lock then 0 else 0 ^^^ checksumPage crc n (page n)) ns))
    by_cases hlock : n = lock
    · rw [if_pos hlock, if_pos hlock]
      exact ih hrest hc
    · rw [if_neg hlock, if_neg hlock, hread n mem_cons_self hlock]
      show List.foldlM _ (checksumFlag ||| (c ^^^ checksumPage crc n (page n))) ns = _
      rw [ih hrest (checksumFlag_or_self _), flag_or_xor, UInt64.zero_xor,
        xorPages_zero (checksumPage crc n (page n)), UInt64.xor_assoc]

end Words

/-! ## The loop over blocks -/

def dbHeaderMagic : List UInt8 :=
  [0x53, 0x51, 0x4c, 0x69, 0x74, 0x65, 0x20, 0x66, 0x6f, 0x72, 0x6d, 0x61, 0x74, 0x20, 0x33, 0x00]

inductive HeaderErr where
  | short (n : Nat)
  | magic
  | pageSize (pageSize : Nat)
  deriving DecidableEq, Repr

/-- The page size and the page count in the first 100 bytes. -/
def parseDBHeader (block : List UInt8) : Except HeaderErr (Nat × Nat) :=
  if block.length < 100 then .error (.short block.length)
  else
    let raw := Endian.big (slice block 16 2)
    let pageSize := if raw = 1 then 65536 else raw
    if slice block 0 16 ≠ dbHeaderMagic then .error .magic
    else if validPageSize pageSize = false then .error (.pageSize pageSize)
    else .ok (pageSize, Endian.big (slice block 28 4))

/-- The pages of a block at positions `lo` to `hi`, of which the first is page `firstPgno`. -/
def foldPages (crc : Crc (List UInt8)) (block : List UInt8) (pageSize firstPgno lock lo hi : Nat) :
    UInt64 :=
  (List.range' lo (hi - lo)).foldl (fun acc i =>
    let pgno := firstPgno + (i - lo)
    if pgno = lock then acc
    else acc ^^^ checksumPage crc pgno (slice block (i * pageSize) pageSize)) 0

/-- The header once it was read, the checksum and the bytes folded into it so far, the bytes
read so far, and what was handed on. -/
structure Streamed where
  header : Option (Except HeaderErr (Nat × Nat))
  chksum : UInt64
  folded : Nat
  seen : Nat
  tee : List UInt8
  deriving DecidableEq

def foldBlock (crc : Crc (List UInt8)) (s : Streamed) (block : List UInt8)
    (pageSize nPages : Nat) : UInt64 × Nat :=
  let limit := nPages * pageSize
  let k := min (block.length / pageSize) ((limit - s.seen) / pageSize)
  if 0 < k then
    let lock := lockPgno pageSize
    let firstPgno := s.seen / pageSize + 1
    let mid := k / 2
    let upper := foldPages crc block pageSize (firstPgno + mid) lock mid k
    let lower := foldPages crc block pageSize firstPgno lock 0 mid
    (checksumFlag ||| (s.chksum ^^^ lower ^^^ upper), s.folded + k * pageSize)
  else (s.chksum, s.folded)

def streamBlock (crc : Crc (List UInt8)) (s : Streamed) (block : List UInt8) : Streamed :=
  match s.header.getD (parseDBHeader block) with
  | .error e => ⟨some (.error e), s.chksum, s.folded, s.seen + block.length, s.tee ++ block⟩
  | .ok (pageSize, nPages) =>
    let sum := foldBlock crc s block pageSize nPages
    ⟨some (.ok (pageSize, nPages)), sum.1, sum.2, s.seen + block.length, s.tee ++ block⟩

def streamLoop (crc : Crc (List UInt8)) (blockSize : Nat) :
    Nat → Streamed → Source UInt8 → Option Streamed
  | 0, _, _ => none
  | fuel + 1, s, r =>
    let read := readFull blockSize r
    let s := streamBlock crc s read.1
    if read.2.1 then some s else streamLoop crc blockSize fuel s read.2.2

inductive StreamErr where
  | header (e : HeaderErr)
  | truncated (seen nPages pageSize : Nat)
  deriving DecidableEq, Repr

def streamVerdict (s : Streamed) : Except StreamErr UInt64 :=
  match s.header with
  | none => .ok s.chksum
  | some (.error e) => .error (.header e)
  | some (.ok (pageSize, nPages)) =>
    if s.folded < nPages * pageSize then .error (.truncated s.seen nPages pageSize)
    else .ok s.chksum

/-- The verdict on a stream and what was handed on of it. -/
def streamChecksum (crc : Crc (List UInt8)) (blockSize : Nat) (r : Source UInt8) :
    Option (Except StreamErr UInt64 × List UInt8) :=
  (streamLoop crc blockSize (r.flatten.length + 1) ⟨none, checksumFlag, 0, 0, []⟩ r).map fun s =>
    (streamVerdict s, s.tee)

/-- Page `pgno` of a file, none if the file ends before it does. -/
def pageAt (file : List UInt8) (pageSize pgno : Nat) : Option (List UInt8) :=
  if pgno = 0 ∨ file.length < pgno * pageSize then none
  else some (slice file ((pgno - 1) * pageSize) pageSize)

/-! ## The header -/

variable {crc : Crc (List UInt8)} {file block : List UInt8} {pageSize nPages blockSize : Nat}

theorem parseDBHeader_eq_ok : parseDBHeader block = .ok (pageSize, nPages) ↔
    100 ≤ block.length ∧ slice block 0 16 = dbHeaderMagic ∧ validPageSize pageSize = true ∧
      (if Endian.big (slice block 16 2) = 1 then 65536 else Endian.big (slice block 16 2)) =
        pageSize ∧ Endian.big (slice block 28 4) = nPages := by
  rw [parseDBHeader, ite_error_eq_ok]
  rw [ite_error_eq_ok, ite_error_eq_ok, not_lt, not_not, Bool.not_eq_false, Except.ok.injEq,
    Prod.mk.injEq]
  refine and_congr_right fun _ => and_congr_right fun _ => ?_
  constructor
  · rintro ⟨hvalid, hsize, hn⟩
    exact ⟨hsize ▸ hvalid, hsize, hn⟩
  · rintro ⟨hvalid, hsize, hn⟩
    exact ⟨hsize ▸ hvalid, hsize, hn⟩

theorem parseDBHeader_take {m : Nat} : parseDBHeader (file.take m) = .ok (pageSize, nPages) ↔
    100 ≤ m ∧ parseDBHeader file = .ok (pageSize, nPages) := by
  rw [parseDBHeader_eq_ok, parseDBHeader_eq_ok, length_take, Nat.le_min, and_assoc]
  refine and_congr_right fun hm => and_congr_right fun _ => ?_
  rw [slice_take (by omega), slice_take (by omega), slice_take (by omega)]

/-! ## Blocks -/

theorem foldPages_eq {a hi : Nat} (lo : Nat)
    (hhi : hi * pageSize ≤ (slice file (a * pageSize) blockSize).length) :
    foldPages crc (slice file (a * pageSize) blockSize) pageSize (a + 1 + lo) (lockPgno pageSize)
        lo hi =
      xorPages crc (lockPgno pageSize) (fun n => slice file ((n - 1) * pageSize) pageSize) 0
        (List.range' (a + 1 + lo) (hi - lo)) := by
  have hblock : (slice file (a * pageSize) blockSize).length ≤ blockSize := length_take_le _ _
  rw [xorPages, ← map_add_range', foldl_map, foldPages]
  refine foldl_ext _ _ _ fun acc i hi' => ?_
  obtain ⟨hlo, hlt⟩ := mem_range'_1.mp hi'
  have hpage : (i + 1) * pageSize ≤ hi * pageSize := Nat.mul_le_mul_right _ (by omega)
  rw [add_mul, one_mul] at hpage
  have hpgno : a + 1 + lo + (i - lo) = a + 1 + i := by omega
  have hpos : a + 1 + i - 1 = a + i := by omega
  rw [hpgno, slice_slice (by omega), hpos, add_mul]

theorem pageAt_eq_some {n : Nat} (hn : 0 < n) (hle : n * pageSize ≤ file.length) :
    pageAt file pageSize n = some (slice file ((n - 1) * pageSize) pageSize) :=
  if_neg (by omega)

theorem checksumPages_add {m k : Nat} {sum : UInt64}
    (hsum : checksumPages crc (lockPgno pageSize) (pageAt file pageSize) m = some sum)
    (hle : (m + k) * pageSize ≤ file.length) :
    checksumPages crc (lockPgno pageSize) (pageAt file pageSize) (m + k) =
      some (checksumFlag ||| (sum ^^^ xorPages crc (lockPgno pageSize)
        (fun n => slice file ((n - 1) * pageSize) pageSize) 0 (List.range' (m + 1) k))) := by
  have hsplit : List.range' 1 (m + k) = List.range' 1 m ++ List.range' (m + 1) k := by
    rw [add_comm m 1, ← List.range'_append_1]
  have hread (n : Nat) (hn : n ∈ List.range' (m + 1) k) (_ : n ≠ lockPgno pageSize) :
      pageAt file pageSize n = some (slice file ((n - 1) * pageSize) pageSize) := by
    have hmem := mem_range'_1.mp hn
    refine pageAt_eq_some (by omega) (le_trans (Nat.mul_le_mul_right _ ?_) hle)
    omega
  rw [checksumPages] at hsum ⊢
  rw [hsplit, foldlM_append, hsum]
  exact foldlM_checksumNext hread (checksumPages_flag hsum)

theorem foldBlock_eq {a : Nat} (hsize : 0 < pageSize) (hseen : s.seen = a * pageSize)
    (hblock : block = slice file (a * pageSize) blockSize)
    (hfolded : s.folded = min a nPages * pageSize)
    (hsum : checksumPages crc (lockPgno pageSize) (pageAt file pageSize) (min a nPages) =
      some s.chksum) :
    (foldBlock crc s block pageSize nPages).2 =
        min ((s.seen + block.length) / pageSize) nPages * pageSize ∧
      checksumPages crc (lockPgno pageSize) (pageAt file pageSize)
        (min ((s.seen + block.length) / pageSize) nPages) =
        some (foldBlock crc s block pageSize nPages).1 := by
  have hpages : (s.seen + block.length) / pageSize = a + block.length / pageSize := by
    rw [hseen, add_comm, Nat.add_mul_div_right _ _ hsize, add_comm]
  have hleft : (nPages * pageSize - s.seen) / pageSize = nPages - a := by
    rw [hseen, ← Nat.sub_mul, Nat.mul_div_cancel _ hsize]
  rw [hpages, foldBlock, hleft]
  dsimp only
  by_cases hk : 0 < min (block.length / pageSize) (nPages - a)
  · have hm : min a nPages = a := by omega
    have hnew : min (a + block.length / pageSize) nPages =
        a + min (block.length / pageSize) (nPages - a) := by omega
    rw [if_pos hk, hnew]
    rw [hm] at hsum hfolded
    generalize hkeq : min (block.length / pageSize) (nPages - a) = k at *
    have hlen : k * pageSize ≤ block.length := by
      refine le_trans (Nat.mul_le_mul_right _ ?_) (Nat.div_mul_le_self _ pageSize)
      omega
    have hfirst : s.seen / pageSize = a := by rw [hseen, Nat.mul_div_cancel _ hsize]
    have hmid : k / 2 * pageSize ≤ k * pageSize := Nat.mul_le_mul_right _ (Nat.div_le_self k 2)
    have hend : (a + k) * pageSize ≤ file.length := by
      rw [add_mul]
      have : block.length ≤ file.length - a * pageSize := by
        rw [hblock, slice, length_take, length_drop]
        exact min_le_right _ _
      by_cases hin : a * pageSize ≤ file.length
      · omega
      · have hpos : pageSize ≤ k * pageSize := Nat.le_mul_of_pos_left _ hk
        omega
    subst hblock
    refine ⟨by rw [hfolded, add_mul], ?_⟩
    have hupper : foldPages crc (slice file (a * pageSize) blockSize) pageSize (a + 1 + k / 2)
        (lockPgno pageSize) (k / 2) k = xorPages crc (lockPgno pageSize)
          (fun n => slice file ((n - 1) * pageSize) pageSize) 0
          (List.range' (a + 1 + k / 2) (k - k / 2)) := foldPages_eq (k / 2) hlen
    have hlower : foldPages crc (slice file (a * pageSize) blockSize) pageSize (a + 1)
        (lockPgno pageSize) 0 (k / 2) = xorPages crc (lockPgno pageSize)
          (fun n => slice file ((n - 1) * pageSize) pageSize) 0 (List.range' (a + 1) (k / 2)) :=
      foldPages_eq 0 (le_trans hmid hlen)
    have hsplit : List.range' (a + 1) k =
        List.range' (a + 1) (k / 2) ++ List.range' (a + 1 + k / 2) (k - k / 2) := by
      rw [List.range'_append_1, Nat.add_sub_cancel' (Nat.div_le_self k 2)]
    rw [hfirst, hupper, hlower, checksumPages_add hsum hend, hsplit, xorPages_append,
      UInt64.xor_assoc]
  · have hsame : min (a + block.length / pageSize) nPages = min a nPages := by
      generalize block.length / pageSize = q at hk
      omega
    rw [if_neg hk, hsame]
    exact ⟨hfolded, hsum⟩

/-- What is known between two blocks: what was handed on, and the pages folded in so far. -/
structure Streamed.At (crc : Crc (List UInt8)) (file : List UInt8)
    (header : Except HeaderErr (Nat × Nat)) (s : Streamed) : Prop where
  seen : s.seen ≤ file.length
  tee : s.tee = file.take s.seen
  parsed : s.header = some header
  pages : ∀ pageSize nPages, header = .ok (pageSize, nPages) →
    s.folded = min (s.seen / pageSize) nPages * pageSize ∧
      checksumPages crc (lockPgno pageSize) (pageAt file pageSize)
        (min (s.seen / pageSize) nPages) = some s.chksum

variable {header : Except HeaderErr (Nat × Nat)} {s s' : Streamed}

theorem Streamed.At.next (h : s.At crc file header)
    (hvalid : ∀ pageSize nPages, header = .ok (pageSize, nPages) →
      0 < pageSize ∧ pageSize ∣ s.seen) :
    (streamBlock crc s (slice file s.seen blockSize)).At crc file header ∧
      (streamBlock crc s (slice file s.seen blockSize)).seen =
        s.seen + (slice file s.seen blockSize).length := by
  have hlen : s.seen + (slice file s.seen blockSize).length ≤ file.length := by
    have := h.seen
    rw [slice, length_take, length_drop]
    omega
  have htee : s.tee ++ slice file s.seen blockSize =
      file.take (s.seen + (slice file s.seen blockSize).length) := by
    rw [h.tee, take_add, slice, length_take]
    exact congrArg _ (take_eq_take_iff.mpr (by omega))
  rw [streamBlock, h.parsed, Option.getD_some]
  cases header with
  | error e => exact ⟨⟨hlen, htee, rfl, by simp⟩, rfl⟩
  | ok hdr =>
    obtain ⟨pageSize, nPages⟩ := hdr
    obtain ⟨hpos, a, ha⟩ := hvalid pageSize nPages rfl
    rw [mul_comm] at ha
    obtain ⟨hfolded, hsum⟩ := h.pages pageSize nPages rfl
    have hfirst : s.seen / pageSize = a := by rw [ha, Nat.mul_div_cancel _ hpos]
    have hblock : slice file s.seen blockSize = slice file (a * pageSize) blockSize := by rw [ha]
    rw [hfirst] at hfolded hsum
    have hnew := foldBlock_eq hpos ha hblock hfolded hsum
    refine ⟨⟨hlen, htee, rfl, fun pageSize' nPages' heq => ?_⟩, rfl⟩
    cases heq
    exact hnew

/-- The loop ends, with everything handed on and every page folded in that there is. -/
theorem streamLoop_eq {fuel : Nat} {r : Source UInt8} (h : s.At crc file header)
    (hvalid : ∀ pageSize nPages, header = .ok (pageSize, nPages) →
      0 < pageSize ∧ pageSize ∣ s.seen ∧ pageSize ∣ blockSize)
    (hpos : 0 < blockSize) (hr : r.flatten = file.drop s.seen) (hfuel : r.flatten.length < fuel) :
    ∃ s', streamLoop crc blockSize fuel s r = some s' ∧ s'.At crc file header ∧
      s'.seen = file.length := by
  induction fuel generalizing s r with
  | zero => omega
  | succ fuel ih =>
    obtain ⟨hread, hended, hrest⟩ := readFull_spec blockSize r
    have hblock : (readFull blockSize r).1 = slice file s.seen blockSize := by
      rw [hread, hr, slice]
    have hlen : (slice file s.seen blockSize).length = min blockSize r.flatten.length := by
      rw [← hblock, length_readFull]
    have hleft : r.flatten.length = file.length - s.seen := by rw [hr, length_drop]
    obtain ⟨hnext, hseen⟩ : (streamBlock crc s (slice file s.seen blockSize)).At crc file header ∧
        (streamBlock crc s (slice file s.seen blockSize)).seen =
          s.seen + (slice file s.seen blockSize).length :=
      h.next fun pageSize nPages heq =>
        ⟨(hvalid pageSize nPages heq).1, (hvalid pageSize nPages heq).2.1⟩
    have hle := h.seen
    rw [streamLoop, hblock, hended]
    by_cases hend : r.flatten.length < blockSize
    · rw [if_pos (decide_eq_true hend)]
      exact ⟨_, rfl, hnext, by omega⟩
    · -- A full block leaves the next one at a page of its own.
      have hfull : (streamBlock crc s (slice file s.seen blockSize)).seen =
          s.seen + blockSize := by omega
      rw [if_neg (by simpa using hend)]
      refine ih hnext (fun pageSize nPages heq => ?_) ?_ ?_
      · obtain ⟨hsize, hdvd, hdvd'⟩ := hvalid pageSize nPages heq
        exact ⟨hsize, hfull ▸ Nat.dvd_add hdvd hdvd', hdvd'⟩
      · rw [hrest, hr, drop_drop, hfull]
      · rw [hrest, length_drop]
        omega

theorem validPageSize_le (h : validPageSize pageSize = true) : 512 ≤ pageSize := by
  rw [validPageSize, Bool.and_eq_true, Bool.and_eq_true, decide_eq_true_eq] at h
  exact h.1.1

theorem streamLoop_start {fuel : Nat} {r : Source UInt8} (hpos : 0 < blockSize)
    (hdvd : ∀ pageSize nPages, parseDBHeader r.flatten = .ok (pageSize, nPages) →
      pageSize ∣ blockSize) (hfuel : r.flatten.length < fuel) :
    ∃ s', streamLoop crc blockSize fuel ⟨none, checksumFlag, 0, 0, []⟩ r = some s' ∧
      s'.At crc r.flatten (parseDBHeader (r.flatten.take blockSize)) ∧
      s'.seen = r.flatten.length := by
  have hsame : streamLoop crc blockSize fuel ⟨none, checksumFlag, 0, 0, []⟩ r =
      streamLoop crc blockSize fuel
        ⟨some (parseDBHeader (r.flatten.take blockSize)), checksumFlag, 0, 0, []⟩ r := by
    cases fuel with
    | zero => rfl
    | succ fuel =>
      have hblock : (readFull blockSize r).1 = r.flatten.take blockSize := (readFull_spec _ _).1
      rw [streamLoop, streamLoop, hblock, streamBlock, streamBlock]
      rfl
  rw [hsame]
  refine streamLoop_eq ⟨Nat.zero_le _, rfl, rfl, fun pageSize nPages _ => ?_⟩
    (fun pageSize nPages heq => ?_) hpos rfl hfuel
  · rw [Nat.zero_div, Nat.zero_min, zero_mul]
    exact ⟨rfl, rfl⟩
  · obtain ⟨-, hok⟩ := parseDBHeader_take.mp heq
    have hsize := validPageSize_le (parseDBHeader_eq_ok.mp hok).2.2.1
    exact ⟨by omega, Nat.dvd_zero _, hdvd pageSize nPages hok⟩

theorem checksumPages_take :
    checksumPages crc (lockPgno pageSize) (pageAt (file.take (nPages * pageSize)) pageSize) nPages =
      checksumPages crc (lockPgno pageSize) (pageAt file pageSize) nPages := by
  refine checksumPages_congr fun n _ hn => ?_
  have hle : n * pageSize ≤ nPages * pageSize := Nat.mul_le_mul_right _ hn
  rw [pageAt, pageAt, length_take]
  by_cases h0 : n = 0
  · rw [if_pos (.inl h0), if_pos (.inl h0)]
  have hend : (n - 1) * pageSize + pageSize = n * pageSize := by
    rw [← Nat.succ_mul, Nat.succ_eq_add_one, Nat.sub_add_cancel (by omega)]
  rw [slice_take (by omega)]
  congr 1
  exact propext ⟨by omega, by omega⟩

/-- A stream is reported to be no whole database exactly when its header is no database's or
it ends before its last page.  Otherwise the result is the checksum of its pages, of which
what follows them is no part.  In either case all of it was handed on. -/
theorem streamChecksum_eq {r : Source UInt8} (hpos : 0 < blockSize)
    (hdvd : ∀ pageSize nPages, parseDBHeader r.flatten = .ok (pageSize, nPages) →
      pageSize ∣ blockSize) :
    ∃ out, streamChecksum crc blockSize r = some (out, r.flatten) ∧
      ((∃ e, out = .error e) ↔ ¬ ∃ pageSize nPages,
        parseDBHeader r.flatten = .ok (pageSize, nPages) ∧ nPages * pageSize ≤ r.flatten.length) ∧
      ∀ pageSize nPages, parseDBHeader r.flatten = .ok (pageSize, nPages) →
        nPages * pageSize ≤ r.flatten.length → ∃ sum, out = .ok sum ∧
          checksumPages crc (lockPgno pageSize)
            (pageAt (r.flatten.take (nPages * pageSize)) pageSize) nPages = some sum := by
  obtain ⟨s, hloop, hs, hseen⟩ : ∃ s, streamLoop crc blockSize (r.flatten.length + 1)
      ⟨none, checksumFlag, 0, 0, []⟩ r = some s ∧
      s.At crc r.flatten (parseDBHeader (r.flatten.take blockSize)) ∧
      s.seen = r.flatten.length := streamLoop_start hpos hdvd (Nat.lt_succ_self _)
  have htee : s.tee = r.flatten := by rw [hs.tee, hseen, take_length]
  refine ⟨streamVerdict s, by rw [streamChecksum, hloop, Option.map_some, htee], ?_⟩
  have hparsed := hs.parsed
  cases hheader : parseDBHeader r.flatten with
  | error e =>
    -- What the first block holds is no header either.
    have hfirst : ∃ e', parseDBHeader (r.flatten.take blockSize) = .error e' := by
      cases hblock : parseDBHeader (r.flatten.take blockSize) with
      | error e' => exact ⟨e', rfl⟩
      | ok hdr =>
        rw [(parseDBHeader_take.mp hblock).2] at hheader
        cases hheader
    obtain ⟨e', he'⟩ := hfirst
    rw [streamVerdict, hparsed, he']
    refine ⟨⟨fun _ h => ?_, fun _ => ⟨_, rfl⟩⟩, by simp⟩
    obtain ⟨_, _, h, -⟩ := h
    cases h
  | ok hdr =>
    obtain ⟨pageSize, nPages⟩ := hdr
    have hsize := validPageSize_le (parseDBHeader_eq_ok.mp hheader).2.2.1
    have hblock := Nat.le_of_dvd hpos (hdvd pageSize nPages hheader)
    have hfirst : parseDBHeader (r.flatten.take blockSize) = .ok (pageSize, nPages) :=
      parseDBHeader_take.mpr ⟨by omega, hheader⟩
    obtain ⟨hfolded, hsum⟩ := hs.pages pageSize nPages hfirst
    rw [hseen] at hfolded hsum
    have hwhole : s.folded < nPages * pageSize ↔ r.flatten.length < nPages * pageSize := by
      rw [hfolded, Nat.mul_lt_mul_right (by omega), ← Nat.div_lt_iff_lt_mul (by omega)]
      omega
    rw [streamVerdict, hparsed, hfirst]
    dsimp only
    by_cases hend : r.flatten.length < nPages * pageSize
    · rw [if_pos (hwhole.mpr hend)]
      refine ⟨⟨fun _ h => ?_, fun _ => ⟨_, rfl⟩⟩, fun pageSize' nPages' h hle => ?_⟩
      · obtain ⟨_, _, h, hle⟩ := h
        cases h
        omega
      · cases h
        omega
    · have hall : min (r.flatten.length / pageSize) nPages = nPages := by
        rw [Nat.min_eq_right]
        exact (Nat.le_div_iff_mul_le (by omega)).mpr (Nat.not_lt.mp hend)
      rw [hall] at hsum
      rw [if_neg (mt hwhole.mp hend)]
      refine ⟨⟨fun h => ?_, fun h => ?_⟩, fun pageSize' nPages' h _ => ?_⟩
      · obtain ⟨_, h⟩ := h
        cases h
      · exact absurd ⟨pageSize, nPages, rfl, Nat.not_lt.mp hend⟩ h
      · cases h
        exact ⟨s.chksum, rfl, checksumPages_take.trans hsum⟩

/-- A page checksum that looks at the number and the first byte only. -/
def headCrc : Crc (List UInt8) := fun pgno data => UInt64.ofNat pgno + (data.headD 0).toUInt64

/-- Three pages of 512 bytes, and 30 bytes after them: in blocks of 1024 bytes, one page in
each half of the first block and one in the second. -/
def twoBlocks : List UInt8 :=
  dbHeaderMagic ++ [2, 0] ++ List.replicate 10 0 ++ [0, 0, 0, 3] ++ List.replicate 1534 7

/-- A header that tells of 16386 pages of 64 KiB, and zeros: the last page but one is the
lock page. -/
def pastLockPage (zeros : Nat) : List UInt8 :=
  dbHeaderMagic ++ [0, 1] ++ List.replicate 10 0 ++ [0, 0, 64, 2] ++ List.replicate zeros 0

theorem parseDBHeader_pastLockPage {zeros : Nat} (h : 68 ≤ zeros) :
    parseDBHeader (pastLockPage zeros) = .ok (65536, 16386) := by
  -- the first hundred bytes are enough
  have hfirst : parseDBHeader ((pastLockPage zeros).take 100) = .ok (65536, 16386) := by
    rw [pastLockPage, take_append, take_replicate, Nat.min_eq_left (le_trans (by decide) h)]
    decide +kernel
  exact (parseDBHeader_take.mp hfirst).2

/-- The verdict on the file, handed out in two pieces, is the checksum of its pages. -/
def Checksummed (blockSize pageSize nPages : Nat) (file : List UInt8) : Prop :=
  parseDBHeader file = .ok (pageSize, nPages) ∧
  ∃ sum, streamChecksum headCrc blockSize [file.take 3, [], file.drop 3] = some (.ok sum, file) ∧
    checksumPages headCrc (lockPgno pageSize) (pageAt (file.take (nPages * pageSize)) pageSize)
      nPages = some sum

theorem streamChecksum_pastLockPage : Checksummed 1024 512 3 twoBlocks ∧
    Checksummed 131072 65536 16386 (pastLockPage (16386 * 65536 - 32)) ∧
    lockPgno 65536 = 16385 := by
  have hall (blockSize pageSize nPages : Nat) (file : List UInt8) (hpos : 0 < blockSize)
      (hdvd : pageSize ∣ blockSize) (hlen : nPages * pageSize ≤ file.length)
      (hheader : parseDBHeader file = .ok (pageSize, nPages)) :
      Checksummed blockSize pageSize nPages file := by
    have hflat : [file.take 3, [], file.drop 3].flatten = file := by
      rw [flatten_cons, flatten_cons, flatten_singleton, nil_append, take_append_drop]
    obtain ⟨out, hout, -, hpages⟩ := @streamChecksum_eq headCrc blockSize
      [file.take 3, [], file.drop 3] hpos fun pageSize' nPages' h => by
        rw [hflat, hheader] at h
        cases h
        exact hdvd
    rw [hflat] at hout hpages
    obtain ⟨sum, hok, hsum⟩ := hpages pageSize nPages hheader hlen
    rw [hok] at hout
    exact ⟨hheader, sum, hout, hsum⟩
  refine ⟨hall _ _ _ _ (by decide) (by decide) (by decide +kernel) (by decide +kernel),
    hall _ _ _ _ (by decide) (by decide) ?_ (parseDBHeader_pastLockPage (by decide)), by decide⟩
  rw [pastLockPage, length_append, length_replicate]
  decide

end Offshoot.Rolling
