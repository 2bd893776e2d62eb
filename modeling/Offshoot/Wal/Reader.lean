import Offshoot.Lib.Chunks
import Offshoot.Lib.Endian

/-!
# Reading a write-ahead log

`internal/wal`: the log has a header with two salts, and frames that repeat the salts and
carry a checksum cumulated from the header on.  A frame is valid if it and all frames before
it check out; a valid frame with a commit size ends a transaction.  The reader remembers the
offset after the last transaction it returned and the checksum there, and scans on from that
point with every call.
-/

namespace Offshoot.Wal

open Chunks List

def headerSize : Nat := 32

def frameHeaderSize : Nat := 24

structure Header where
  bigEndian : Bool
  pageSize : Nat
  salt1 : UInt32
  salt2 : UInt32
  cksum1 : UInt32
  cksum2 : UInt32
  deriving DecidableEq, Repr

structure FrameHeader where
  pgno : UInt32
  commitSize : UInt32
  salt1 : UInt32
  salt2 : UInt32
  cksum1 : UInt32
  cksum2 : UInt32
  deriving DecidableEq, Repr

structure Frame where
  header : FrameHeader
  data : List UInt8
  deriving DecidableEq, Repr

def big32 (b : List UInt8) : UInt32 := UInt32.ofNat (Endian.big b)

/-- A checksum word in the byte order of the log. -/
def word (bigEndian : Bool) (b : List UInt8) : UInt32 :=
  if bigEndian then big32 b else UInt32.ofNat (Endian.little b)

/-- The cumulative checksum, eight bytes at a time. -/
def checksum (bigEndian : Bool) (s1 s2 : UInt32) : List UInt8 → UInt32 × UInt32
  | b₀ :: b₁ :: b₂ :: b₃ :: b₄ :: b₅ :: b₆ :: b₇ :: rest =>
    let s1 := s1 + (word bigEndian [b₀, b₁, b₂, b₃] + s2)
    let s2 := s2 + (word bigEndian [b₄, b₅, b₆, b₇] + s1)
    checksum bigEndian s1 s2 rest
  | _ => (s1, s2)

inductive HeaderErr where
  | badMagic
  | badVersion
  | checksum
  deriving DecidableEq, Repr

def parseHeader (b : List UInt8) : Except HeaderErr Header :=
  let magic := Endian.big (slice b 0 4)
  if magic ≠ 0x377f0682 ∧ magic ≠ 0x377f0683 then .error .badMagic
  else if Endian.big (slice b 4 4) ≠ 3007000 then .error .badVersion
  else
    let bigEndian : Bool := magic = 0x377f0683
    let cksum1 := big32 (slice b 24 4)
    let cksum2 := big32 (slice b 28 4)
    if checksum bigEndian 0 0 (slice b 0 24) ≠ (cksum1, cksum2) then .error .checksum
    else .ok ⟨bigEndian, Endian.big (slice b 8 4), big32 (slice b 16 4), big32 (slice b 20 4),
      cksum1, cksum2⟩

def parseFrameHeader (b : List UInt8) : FrameHeader :=
  ⟨big32 (slice b 0 4), big32 (slice b 4 4), big32 (slice b 8 4), big32 (slice b 12 4),
    big32 (slice b 16 4), big32 (slice b 20 4)⟩

def Header.frameSize (h : Header) : Nat := frameHeaderSize + h.pageSize

structure Pos where
  off : Nat
  s1 : UInt32
  s2 : UInt32
  deriving DecidableEq, Repr

def Header.start (h : Header) : Pos := ⟨headerSize, h.cksum1, h.cksum2⟩

/-- The frame at a position, if there is a whole one that checks out, and the position after
it. -/
def readFrame (hdr : Header) (file : List UInt8) (p : Pos) : Option (Frame × Pos) :=
  if file.length < p.off + hdr.frameSize then none
  else
    let buf := slice file p.off hdr.frameSize
    let fh := parseFrameHeader buf
    if fh.salt1 ≠ hdr.salt1 ∨ fh.salt2 ≠ hdr.salt2 then none
    else
      let s := checksum hdr.bigEndian p.s1 p.s2 (slice buf 0 8)
      let s := checksum hdr.bigEndian s.1 s.2 (buf.drop frameHeaderSize)
      if s.1 ≠ fh.cksum1 ∨ s.2 ≠ fh.cksum2 then none
      else some (⟨fh, buf.drop frameHeaderSize⟩, ⟨p.off + hdr.frameSize, s.1, s.2⟩)

/-! ## The reader -/

structure Reader where
  bound : Bool
  needSeed : Bool
  pos : Pos
  salt1 : UInt32
  salt2 : UInt32
  deriving DecidableEq

def newReader : Reader := ⟨false, false, ⟨0, 0, 0⟩, 0, 0⟩

/-- Start at an offset with the checksum still to be taken from the header. -/
def Reader.bind (r : Reader) (off : Nat) (salt1 salt2 : UInt32) : Reader :=
  { r with bound := true, needSeed := true, pos := { r.pos with off }, salt1, salt2 }

/-- The header of a log, if it is there and not torn. -/
def header (file : List UInt8) : Option Header :=
  if file.length < headerSize then none
  else (parseHeader (slice file 0 headerSize)).toOption

/-- The loop of `Next`: frames up to one that commits. -/
def readTxn (hdr : Header) (file : List UInt8) : Nat → Pos → Option (List Frame × Pos)
  | 0, _ => none
  | fuel + 1, p =>
    match readFrame hdr file p with
    | none => none
    | some (frame, p) =>
      if frame.header.commitSize ≠ 0 then some ([frame], p)
      else (readTxn hdr file fuel p).map fun t => (frame :: t.1, t.2)

inductive NextErr where
  | walRestarted
  deriving DecidableEq, Repr

/-- Take what is missing from the header. -/
def Reader.seed (r : Reader) (hdr : Header) : Reader :=
  if r.bound = false then
    { r with bound := true, pos := hdr.start, salt1 := hdr.salt1, salt2 := hdr.salt2 }
  else if r.needSeed then
    { r with needSeed := false, pos := ⟨r.pos.off, hdr.cksum1, hdr.cksum2⟩ }
  else r

def Reader.next (r : Reader) (file : Option (List UInt8)) : Reader × Except NextErr (List Frame) :=
  match file with
  | none => (r, .ok [])
  | some file =>
    match header file with
    | none => (r, .ok [])
    | some hdr =>
      if r.bound ∧ (hdr.salt1 ≠ r.salt1 ∨ hdr.salt2 ≠ r.salt2) then (r, .error .walRestarted)
      else
        let r := r.seed hdr
        match readTxn hdr file (file.length + 1) r.pos with
        | none => (r, .ok [])
        | some (frames, pos) => ({ r with pos }, .ok frames)

def Reader.run (r : Reader) :
    List (Option (List UInt8)) → Reader × List (Except NextErr (List Frame))
  | [] => (r, [])
  | file :: files =>
    let next := r.next file
    let rest := next.1.run files
    (rest.1, next.2 :: rest.2)

/-! ## A single pass

What a log holds by SQLite's file format, said of the whole file and not of a reader: the
checksum of a frame is folded from zero over the header and all frames up to it, and a frame
counts only if every frame before it does. -/

def numAt (file : List UInt8) (off : Nat) : UInt32 := UInt32.ofNat (Endian.big (slice file off 4))

def wordAt (bigEndian : Bool) (file : List UInt8) (off : Nat) : UInt32 :=
  UInt32.ofNat
    (if bigEndian then Endian.big (slice file off 4) else Endian.little (slice file off 4))

def pairsAt (bigEndian : Bool) (file : List UInt8) (off n : Nat) : List (UInt32 × UInt32) :=
  (List.range n).map fun i =>
    (wordAt bigEndian file (off + 8 * i), wordAt bigEndian file (off + 8 * i + 4))

def cumulate (s x : UInt32 × UInt32) : UInt32 × UInt32 :=
  (s.1 + x.1 + s.2, s.2 + x.2 + (s.1 + x.1 + s.2))

/-- The header of a log: the magic number, which gives the byte order, the version, and the
checksum over the 24 bytes before it. -/
def walHeader (file : List UInt8) : Option Header :=
  let magic := Endian.big (slice file 0 4)
  let bigEndian : Bool := magic = 0x377f0683
  if 32 ≤ file.length ∧ (magic = 0x377f0682 ∨ magic = 0x377f0683) ∧
      Endian.big (slice file 4 4) = 3007000 ∧
      (pairsAt bigEndian file 0 3).foldl cumulate (0, 0) = (numAt file 24, numAt file 28) then
    some ⟨bigEndian, Endian.big (slice file 8 4), numAt file 16, numAt file 20, numAt file 24,
      numAt file 28⟩
  else none

def Header.frameOff (h : Header) (k : Nat) : Nat := 32 + k * (24 + h.pageSize)

def frameAt (hdr : Header) (file : List UInt8) (k : Nat) : Frame :=
  let off := hdr.frameOff k
  ⟨⟨numAt file off, numAt file (off + 4), numAt file (off + 8), numAt file (off + 12),
    numAt file (off + 16), numAt file (off + 20)⟩, slice file (off + 24) hdr.pageSize⟩

/-- What the checksum before frame `k` is taken over: the start of the log's header and, of
every frame before, the first eight bytes of its header and its page. -/
def summed (hdr : Header) (file : List UInt8) (k : Nat) : List (UInt32 × UInt32) :=
  pairsAt hdr.bigEndian file 0 3 ++ (List.range k).flatMap fun j =>
    pairsAt hdr.bigEndian file (hdr.frameOff j) 1 ++
      pairsAt hdr.bigEndian file (hdr.frameOff j + 24) (hdr.pageSize / 8)

def cumulated (hdr : Header) (file : List UInt8) (k : Nat) : UInt32 × UInt32 :=
  (summed hdr file k).foldl cumulate (0, 0)

/-- Frame `k` is there, has the header's salts, and carries the checksum up to its end. -/
def Counts (hdr : Header) (file : List UInt8) (k : Nat) : Prop :=
  hdr.frameOff (k + 1) ≤ file.length ∧ (frameAt hdr file k).header.salt1 = hdr.salt1 ∧
    (frameAt hdr file k).header.salt2 = hdr.salt2 ∧
    cumulated hdr file (k + 1) =
      ((frameAt hdr file k).header.cksum1, (frameAt hdr file k).header.cksum2)

instance (hdr : Header) (file : List UInt8) : DecidablePred (Counts hdr file) :=
  fun _ => inferInstanceAs (Decidable (_ ∧ _))

/-- The frames of the log; there are no more of them than bytes. -/
def validFrames (hdr : Header) (file : List UInt8) : List Frame :=
  ((List.range file.length).takeWhile fun k => Counts hdr file k).map (frameAt hdr file)

/-- Cut after every commit; what is left is not committed. -/
def transactions (txn : List Frame) : List Frame → List (List Frame)
  | [] => []
  | frame :: frames =>
    if frame.header.commitSize ≠ 0 then (txn ++ [frame]) :: transactions [] frames
    else transactions (txn ++ [frame]) frames

def committed (file : List UInt8) : List (List Frame) :=
  match walHeader file with
  | none => []
  | some hdr => transactions [] (validFrames hdr file)

def committedEnd (file : List UInt8) : Nat :=
  match walHeader file with
  | none => 0
  | some hdr => if committed file = [] then 0 else hdr.frameOff (committed file).flatten.length

/-! ## The reader's checks are those of the pass -/

variable {hdr : Header} {file file' : List UInt8} {p q : Pos} {frame : Frame}
  {frames : List Frame} {fuel k : Nat} {be : Bool} {s : UInt32 × UInt32}

theorem word_slice (off : Nat) : word be (slice file off 4) = wordAt be file off := by
  rw [word, wordAt]
  split <;> rfl

theorem pairsAt_slice {off len n : Nat} (h : 8 * n ≤ len) :
    pairsAt be (slice file off len) 0 n = pairsAt be file off n := by
  refine map_congr_left fun i hi => ?_
  have hi := mem_range.mp hi
  rw [wordAt, wordAt, slice_slice (by omega), slice_slice (by omega), Nat.zero_add, ← Nat.add_assoc]
  rfl

theorem pairsAt_succ {off n : Nat} : pairsAt be file off (n + 1) =
    (wordAt be file off, wordAt be file (off + 4)) :: pairsAt be file (off + 8) n := by
  rw [pairsAt, range_succ_eq_map, map_cons, map_map]
  refine congrArg (_ :: ·) (map_congr_left fun i _ => ?_)
  rw [Function.comp, Nat.mul_succ, ← Nat.add_assoc, Nat.add_right_comm]

/-- Eight bytes at a time, the checksum is the fold over the pairs of words. -/
theorem checksum_eq (s1 s2 : UInt32) (b : List UInt8) :
    checksum be s1 s2 b = (pairsAt be b 0 (b.length / 8)).foldl cumulate (s1, s2) := by
  fun_induction checksum be s1 s2 b with
  | case1 s1 s2 b₀ b₁ b₂ b₃ b₄ b₅ b₆ b₇ rest s1' s2' ih =>
    have hlen : (b₀ :: b₁ :: b₂ :: b₃ :: b₄ :: b₅ :: b₆ :: b₇ :: rest).length / 8 =
        rest.length / 8 + 1 := by
      simp only [length_cons]
      omega
    have hfirst : (s1', s2') =
        cumulate (s1, s2) (word be [b₀, b₁, b₂, b₃], word be [b₄, b₅, b₆, b₇]) := by
      show (s1 + (_ + s2), s2 + (_ + (s1 + (_ + s2)))) = (s1 + _ + s2, s2 + _ + (s1 + _ + s2))
      rw [UInt32.add_assoc, UInt32.add_assoc]
    rw [ih, hlen, pairsAt_succ, foldl_cons, hfirst, ← word_slice, ← word_slice]
    refine congrArg (List.foldl _ _) (map_congr_left fun i _ => ?_)
    rw [Nat.add_right_comm 0 8]
    rfl
  | case2 b s1 s2 h =>
    rcases b with _ | ⟨_, _ | ⟨_, _ | ⟨_, _ | ⟨_, _ | ⟨_, _ | ⟨_, _ | ⟨_, _ | ⟨_, b⟩⟩⟩⟩⟩⟩⟩⟩
    case case2.cons.cons.cons.cons.cons.cons.cons.cons => exact (h _ _ _ _ _ _ _ _ _ rfl).elim
    all_goals simp [pairsAt]

theorem checksum_slice {off len : Nat} {s1 s2 : UInt32} (h : off + len ≤ file.length) :
    checksum be s1 s2 (slice file off len) =
      (pairsAt be file off (len / 8)).foldl cumulate (s1, s2) := by
  have hlen : (slice file off len).length = len := by
    rw [slice, length_take, length_drop]
    omega
  rw [checksum_eq, hlen, pairsAt_slice (Nat.mul_div_le len 8)]

theorem header_eq (file : List UInt8) : header file = walHeader file := by
  rw [header]
  split
  · rename_i hlt
    exact (if_neg fun h => absurd hlt (Nat.not_lt.mpr h.1)).symm
  rename_i hlen
  have hlen : 32 ≤ file.length := Nat.not_lt.mp hlen
  have hslice {i m : Nat} (h : i + m ≤ 32) :
      slice (slice file 0 headerSize) i m = slice file i m := by
    rw [headerSize, slice_slice h, Nat.zero_add]
  simp only [parseHeader, hslice (by decide : 0 + 4 ≤ 32), hslice (by decide : 4 + 4 ≤ 32),
    hslice (by decide : 8 + 4 ≤ 32), hslice (by decide : 16 + 4 ≤ 32),
    hslice (by decide : 20 + 4 ≤ 32), hslice (by decide : 24 + 4 ≤ 32),
    hslice (by decide : 28 + 4 ≤ 32), hslice (by decide : 0 + 24 ≤ 32)]
  rw [checksum_slice (by omega), walHeader]
  split
  · rename_i hmagic
    exact (if_neg fun h => h.2.1.elim hmagic.1 hmagic.2).symm
  rename_i hmagic
  rw [not_and_or, not_not, not_not] at hmagic
  split
  · rename_i hversion
    exact (if_neg fun h => hversion h.2.2.1).symm
  rename_i hversion
  split
  · rename_i hsum
    exact (if_neg fun h => hsum h.2.2.2).symm
  · rename_i hsum
    exact (if_pos ⟨hlen, hmagic, not_not.mp hversion, not_not.mp hsum⟩).symm

def Header.posAt (hdr : Header) (file : List UInt8) (k : Nat) : Pos :=
  ⟨hdr.frameOff k, (cumulated hdr file k).1, (cumulated hdr file k).2⟩

theorem Header.frameOff_succ : hdr.frameOff (k + 1) = hdr.frameOff k + hdr.frameSize := by
  show 32 + (k + 1) * hdr.frameSize = 32 + k * hdr.frameSize + hdr.frameSize
  rw [Nat.succ_mul, Nat.add_assoc]

theorem posAt_zero (h : walHeader file = some hdr) : hdr.posAt file 0 = hdr.start := by
  obtain ⟨hok, heq⟩ := Option.ite_none_right_eq_some.mp h
  cases heq
  rw [Header.posAt, cumulated, summed, range_zero, flatMap_nil, append_nil,
    hok.2.2.2, Header.frameOff, Nat.zero_mul]
  rfl

theorem cumulated_succ : cumulated hdr file (k + 1) =
    (pairsAt hdr.bigEndian file (hdr.frameOff k + 24) (hdr.pageSize / 8)).foldl cumulate
      ((pairsAt hdr.bigEndian file (hdr.frameOff k) 1).foldl cumulate (cumulated hdr file k)) := by
  rw [cumulated, cumulated, summed, summed, range_succ, flatMap_append,
    flatMap_singleton, ← append_assoc, foldl_append, foldl_append]

theorem readFrame_posAt : readFrame hdr file (hdr.posAt file k) =
    if Counts hdr file k then some (frameAt hdr file k, hdr.posAt file (k + 1)) else none := by
  by_cases hfit : hdr.frameOff (k + 1) ≤ file.length
  swap
  · rw [readFrame, if_pos (by rwa [Header.frameOff_succ, Nat.not_le] at hfit),
      if_neg fun h => hfit h.1]
  have hlen : hdr.frameOff k + (24 + hdr.pageSize) ≤ file.length := by
    rwa [Header.frameOff_succ] at hfit
  have hslice {i m : Nat} (h : i + m ≤ hdr.frameSize) :
      slice (slice file (hdr.frameOff k) hdr.frameSize) i m = slice file (hdr.frameOff k + i) m :=
    slice_slice h
  have hhdr : parseFrameHeader (slice file (hdr.frameOff k) hdr.frameSize) =
      (frameAt hdr file k).header := by
    have hsize : 24 ≤ hdr.frameSize := Nat.le_add_right _ _
    rw [parseFrameHeader, hslice (by omega), hslice (by omega), hslice (by omega),
      hslice (by omega), hslice (by omega), hslice (by omega)]
    rfl
  have hdata : (slice file (hdr.frameOff k) hdr.frameSize).drop frameHeaderSize =
      slice file (hdr.frameOff k + 24) hdr.pageSize := by
    rw [slice, drop_take, drop_drop, Header.frameSize, Nat.add_sub_cancel_left]
    rfl
  have hsum : checksum hdr.bigEndian (cumulated hdr file k).1 (cumulated hdr file k).2
        (slice (slice file (hdr.frameOff k) hdr.frameSize) 0 8) =
      (pairsAt hdr.bigEndian file (hdr.frameOff k) 1).foldl cumulate (cumulated hdr file k) := by
    rw [hslice (Nat.le_add_right_of_le (by decide)), checksum_slice (by omega)]
    rfl
  simp only [readFrame, Header.posAt, hsum, hhdr, hdata]
  rw [if_neg (by rwa [Nat.not_lt, ← Header.frameOff_succ]), checksum_slice (by omega),
    Prod.eta, ← cumulated_succ, ← Header.frameOff_succ]
  split
  · rename_i hsalt
    exact (if_neg fun h => hsalt.elim (· h.2.1) (· h.2.2.1)).symm
  rename_i hsalt
  rw [not_or, not_not, not_not] at hsalt
  split
  · rename_i hsums
    exact (if_neg fun h => hsums.elim (· (Prod.ext_iff.mp h.2.2.2).1)
      (· (Prod.ext_iff.mp h.2.2.2).2)).symm
  · rename_i hsums
    rw [not_or, not_not, not_not] at hsums
    exact (if_pos ⟨hfit, hsalt.1, hsalt.2, Prod.ext hsums.1 hsums.2⟩).symm

def validFrom (hdr : Header) (file : List UInt8) (k : Nat) : List Frame :=
  ((List.range' k (file.length - k)).takeWhile fun k => Counts hdr file k).map (frameAt hdr file)

theorem validFrames_eq : validFrames hdr file = validFrom hdr file 0 := by
  rw [validFrames, validFrom, range_eq_range', Nat.sub_zero]

theorem validFrom_eq : validFrom hdr file k =
    if Counts hdr file k then frameAt hdr file k :: validFrom hdr file (k + 1) else [] := by
  by_cases hlt : k < file.length
  · obtain ⟨n, hn⟩ : ∃ n, file.length - k = n + 1 := ⟨file.length - k - 1, by omega⟩
    have hn' : file.length - (k + 1) = n := by omega
    rw [validFrom, validFrom, hn, hn', List.range'_succ, takeWhile_cons]
    split
    · rename_i h
      rw [if_pos (of_decide_eq_true h), map_cons]
    · rename_i h
      rw [if_neg fun h' => h (decide_eq_true h'), map_nil]
  · have hfit : ¬ Counts hdr file k := fun h => by
      have hle : (k + 1) * 1 ≤ (k + 1) * (24 + hdr.pageSize) := Nat.mul_le_mul_left _ (by omega)
      have := h.1
      rw [Header.frameOff] at this
      omega
    rw [if_neg hfit, validFrom, Nat.sub_eq_zero_of_le (Nat.not_lt.mp hlt)]
    rfl

theorem readFrame_none (h : readFrame hdr file (hdr.posAt file k) = none) :
    validFrom hdr file k = [] := by
  rw [readFrame_posAt] at h
  rw [validFrom_eq, if_neg fun hc => by rw [if_pos hc] at h; cases h]

theorem readFrame_some (h : readFrame hdr file (hdr.posAt file k) = some (frame, q)) :
    validFrom hdr file k = frame :: validFrom hdr file (k + 1) ∧ q = hdr.posAt file (k + 1) := by
  rw [readFrame_posAt, Option.ite_none_right_eq_some] at h
  obtain ⟨hc, h⟩ := h
  cases h
  exact ⟨by rw [validFrom_eq, if_pos hc], rfl⟩

/-! ## Frames that follow one another -/

theorem readFrame_eq_some (h : readFrame hdr file p = some (frame, q)) :
    p.off + hdr.frameSize ≤ file.length ∧ q.off = p.off + hdr.frameSize ∧
      frame.header.salt1 = hdr.salt1 ∧ frame.header.salt2 = hdr.salt2 := by
  rw [readFrame, Option.ite_none_left_eq_some] at h
  rw [Option.ite_none_left_eq_some, Option.ite_none_left_eq_some] at h
  obtain ⟨hlen, hsalt, -, h⟩ := h
  rw [not_or, not_not, not_not] at hsalt
  cases h
  exact ⟨Nat.not_lt.mp hlen, rfl, hsalt⟩

theorem readFrame_local (hlen : p.off + hdr.frameSize ≤ file.length)
    (h : file'.take (p.off + hdr.frameSize) = file.take (p.off + hdr.frameSize)) :
    readFrame hdr file' p = readFrame hdr file p := by
  have hlen' : p.off + hdr.frameSize ≤ file'.length := by
    have htake := congrArg List.length h
    rw [length_take, length_take] at htake
    omega
  have hslice : slice file' p.off hdr.frameSize = slice file p.off hdr.frameSize := by
    rw [← slice_take (Nat.le_refl _), h, slice_take (Nat.le_refl _)]
  rw [readFrame, readFrame, if_neg (Nat.not_lt.mpr hlen), if_neg (Nat.not_lt.mpr hlen'), hslice]

inductive Frames (hdr : Header) (file : List UInt8) : Pos → List Frame → Pos → Prop where
  | nil {p : Pos} : Frames hdr file p [] p
  | cons {p q r : Pos} {frame : Frame} {frames : List Frame} :
    readFrame hdr file p = some (frame, q) → Frames hdr file q frames r →
      Frames hdr file p (frame :: frames) r

theorem Frames.off (h : Frames hdr file p frames q) :
    q.off = p.off + frames.length * hdr.frameSize := by
  induction h with
  | nil => rw [length_nil, Nat.zero_mul, Nat.add_zero]
  | cons hframe _ ih =>
    rw [ih, (readFrame_eq_some hframe).2.1, length_cons, Nat.succ_mul]
    omega

theorem Frames.pos (h : Frames hdr file (hdr.posAt file k) frames q) :
    q = hdr.posAt file (k + frames.length) := by
  generalize hp : hdr.posAt file k = p at h
  induction h generalizing k with
  | nil => exact hp.symm
  | cons hframe _ ih =>
    subst hp
    rw [length_cons, Nat.add_comm _ 1, ← Nat.add_assoc]
    exact ih (readFrame_some hframe).2.symm

theorem Frames.of_take (h : Frames hdr file p frames q)
    (heq : file'.take q.off = file.take q.off) : Frames hdr file' p frames q := by
  induction h with
  | nil => exact .nil
  | @cons p q r frame frames hframe hrest ih =>
    obtain ⟨hlen, hoff, -⟩ := readFrame_eq_some hframe
    have hle : p.off + hdr.frameSize ≤ r.off := by
      rw [← hoff, hrest.off]
      exact Nat.le_add_right _ _
    refine .cons ?_ (ih heq)
    rw [readFrame_local hlen, hframe]
    rw [← Nat.min_eq_left hle, ← take_take, heq, take_take]

theorem Frames.salts (h : Frames hdr file p frames q) :
    ∀ f ∈ frames, f.header.salt1 = hdr.salt1 ∧ f.header.salt2 = hdr.salt2 := by
  induction h with
  | nil => simp
  | cons hframe _ ih =>
    rw [forall_mem_cons]
    exact ⟨(readFrame_eq_some hframe).2.2, ih⟩

/-- Frames of which the last one commits, and no other. -/
inductive IsTxn : List Frame → Prop where
  | last {frame : Frame} : frame.header.commitSize ≠ 0 → IsTxn [frame]
  | more {frame : Frame} {frames : List Frame} :
    frame.header.commitSize = 0 → IsTxn frames → IsTxn (frame :: frames)

theorem IsTxn.ne_nil (h : IsTxn frames) : frames ≠ [] := by
  cases h <;> exact cons_ne_nil _ _

/-! ### The reader's loop -/

theorem readTxn_eq_some (h : readTxn hdr file fuel p = some (frames, q)) :
    Frames hdr file p frames q ∧ IsTxn frames := by
  induction fuel generalizing p frames with
  | zero => cases h
  | succ fuel ih =>
    rw [readTxn] at h
    cases hframe : readFrame hdr file p with
    | none =>
      rw [hframe] at h
      cases h
    | some t =>
      obtain ⟨frame, p₁⟩ := t
      rw [hframe] at h
      dsimp only at h
      by_cases hcommit : frame.header.commitSize = 0
      · rw [if_neg (not_not.mpr hcommit), Option.map_eq_some_iff] at h
        obtain ⟨⟨frames', q'⟩, hrest, h⟩ := h
        cases h
        obtain ⟨hframes, htxn⟩ := ih hrest
        exact ⟨.cons hframe hframes, .more hcommit htxn⟩
      · rw [if_pos hcommit] at h
        cases h
        exact ⟨.cons hframe .nil, .last hcommit⟩

/-! ### The pass -/

theorem transactions_txn {txn : List Frame} (h : Frames hdr file (hdr.posAt file k) frames q)
    (htxn : IsTxn frames) : transactions txn (validFrom hdr file k) =
      (txn ++ frames) :: transactions [] (validFrom hdr file (k + frames.length)) := by
  induction htxn generalizing k txn with
  | last hcommit =>
    cases h with
    | cons hframe hrest =>
      rw [(readFrame_some hframe).1, transactions, if_pos hcommit]
      rfl
  | more hcommit _ ih =>
    cases h with
    | cons hframe hrest =>
      obtain ⟨hvalid, rfl⟩ := readFrame_some hframe
      rw [hvalid, transactions, if_neg (not_not.mpr hcommit), ih hrest, append_assoc,
        length_cons, Nat.add_right_comm, Nat.add_assoc]
      rfl

theorem transactions_none {txn : List Frame} (h : readTxn hdr file fuel (hdr.posAt file k) = none)
    (hfuel : file.length < k + fuel) : transactions txn (validFrom hdr file k) = [] := by
  induction fuel generalizing k txn with
  | zero =>
    have hend : file.length - k = 0 := Nat.sub_eq_zero_of_le (Nat.le_of_lt hfuel)
    rw [validFrom, hend]
    rfl
  | succ fuel ih =>
    rw [readTxn] at h
    cases hframe : readFrame hdr file (hdr.posAt file k) with
    | none =>
      rw [readFrame_none hframe]
      rfl
    | some t =>
      obtain ⟨frame, q⟩ := t
      obtain ⟨hvalid, rfl⟩ := readFrame_some hframe
      rw [hframe] at h
      dsimp only at h
      rw [hvalid]
      by_cases hcommit : frame.header.commitSize = 0
      · rw [if_neg (not_not.mpr hcommit), Option.map_eq_none_iff] at h
        rw [transactions, if_neg (not_not.mpr hcommit), ih h (by omega)]
      · rw [if_pos hcommit] at h
        cases h

/-! ### What has been read -/

/-- The transactions from the header up to a position. -/
inductive Reads (hdr : Header) (file : List UInt8) : List (List Frame) → Pos → Prop where
  | start : Reads hdr file [] hdr.start
  | txn {got : List (List Frame)} {p q : Pos} {frames : List Frame} :
    Reads hdr file got p → Frames hdr file p frames q → IsTxn frames →
      Reads hdr file (got ++ [frames]) q

variable {got : List (List Frame)}

section

variable (h : Reads hdr file got p)

include h

theorem Reads.off : p.off = hdr.frameOff got.flatten.length := by
  induction h with
  | start => rw [flatten_nil, length_nil, Header.frameOff, Nat.zero_mul]; rfl
  | txn _ hframes _ ih =>
    rw [hframes.off, ih, flatten_append, flatten_singleton, length_append,
      Header.frameOff, Header.frameOff, Nat.add_mul, Nat.add_assoc]
    rfl

/-- The checksum the reader carries is the one folded from the start of the log. -/
theorem Reads.pos (hhdr : walHeader file = some hdr) : p = hdr.posAt file got.flatten.length := by
  induction h with
  | start => exact (posAt_zero hhdr).symm
  | txn _ hframes _ ih =>
    rw [flatten_append, flatten_singleton, length_append]
    exact (ih ▸ hframes).pos

theorem Reads.of_take (heq : got ≠ [] → file'.take p.off = file.take p.off) :
    Reads hdr file' got p := by
  induction h with
  | start => exact .start
  | @txn got p q frames _ hframes htxn ih =>
    have heq := heq (append_ne_nil_of_right_ne_nil _ (cons_ne_nil _ _))
    have hle : p.off ≤ q.off := by
      rw [hframes.off]
      exact Nat.le_add_right _ _
    refine .txn (ih fun _ => ?_) (hframes.of_take heq) htxn
    rw [← Nat.min_eq_left hle, ← take_take, heq, take_take]

theorem Reads.committed (hhdr : walHeader file = some hdr) :
    committed file = got ++ transactions [] (validFrom hdr file got.flatten.length) := by
  induction h with
  | start =>
    rw [Wal.committed, hhdr, nil_append]
    exact congrArg _ validFrames_eq
  | txn hreads hframes htxn ih =>
    rw [ih, transactions_txn (hreads.pos hhdr ▸ hframes) htxn, append_assoc,
      flatten_append, flatten_singleton, length_append]
    rfl

theorem Reads.off_le (hhdr : walHeader file = some hdr) (hne : got ≠ []) :
    p.off ≤ committedEnd file := by
  have hall := h.committed hhdr
  have hsome : Wal.committed file ≠ [] := by
    rw [hall]
    exact append_ne_nil_of_left_ne_nil hne _
  rw [committedEnd, hhdr]
  dsimp only
  rw [if_neg hsome, h.off, hall, flatten_append, length_append, Header.frameOff,
    Header.frameOff, Nat.add_mul]
  omega

theorem Reads.salts :
    ∀ txn ∈ got, ∀ f ∈ txn, f.header.salt1 = hdr.salt1 ∧ f.header.salt2 = hdr.salt2 := by
  induction h with
  | start => simp
  | txn _ hframes _ ih =>
    intro txn ht
    rcases mem_append.mp ht with ht | ht
    · exact ih txn ht
    · rw [mem_singleton.mp ht]
      exact hframes.salts

end

theorem header_of_take (hhdr : walHeader file = some hdr)
    (heq : file'.take headerSize = file.take headerSize) : walHeader file' = some hdr := by
  rw [← header_eq] at hhdr ⊢
  have hlen : headerSize ≤ file.length := by
    by_contra hlt
    rw [header, if_pos (Nat.lt_of_not_le hlt)] at hhdr
    cases hhdr
  have hlen' : headerSize ≤ file'.length := by
    have htake := congrArg List.length heq
    rw [length_take, length_take] at htake
    omega
  have hslice : slice file' 0 headerSize = slice file 0 headerSize := heq
  rw [header, if_neg (Nat.not_lt.mpr hlen)] at hhdr
  rw [header, if_neg (Nat.not_lt.mpr hlen'), hslice, hhdr]

/-! ## Calls of `Next` while the log grows -/

def content (file : Option (List UInt8)) : List UInt8 := file.getD []

/-- What is committed stays; anything may follow it. -/
def Grows (file file' : Option (List UInt8)) : Prop :=
  (content file').take (committedEnd (content file)) =
    (content file).take (committedEnd (content file))

instance : DecidableRel Grows := fun _ _ => inferInstanceAs (Decidable (_ = _))

/-- A log with this header, or one whose header is not written yet. -/
def OfGeneration (hdr : Header) (file : Option (List UInt8)) : Prop :=
  ∀ h, walHeader (content file) = some h → h = hdr

/-- A reader that has returned the transactions `got`. -/
inductive Reader.At (hdr : Header) (file : List UInt8) : List (List Frame) → Reader → Prop where
  | unbound {r : Reader} : r.bound = false → r.needSeed = false → Reader.At hdr file [] r
  | unseeded {r : Reader} : r.bound = true → r.needSeed = true → r.pos.off = headerSize →
    r.salt1 = hdr.salt1 → r.salt2 = hdr.salt2 → Reader.At hdr file [] r
  | reads {r : Reader} {got : List (List Frame)} : r.bound = true → r.needSeed = false →
    r.salt1 = hdr.salt1 → r.salt2 = hdr.salt2 → Reads hdr file got r.pos →
    (got ≠ [] → walHeader file = some hdr) → Reader.At hdr file got r

variable {r : Reader}

theorem Reader.At.grows {file file' : Option (List UInt8)} (h : Reader.At hdr (content file) got r)
    (hgrows : Grows file file') : Reader.At hdr (content file') got r := by
  cases h with
  | unbound hb hs => exact .unbound hb hs
  | unseeded hb hs hoff h1 h2 => exact .unseeded hb hs hoff h1 h2
  | reads hb hs h1 h2 hreads hhdr =>
    have heq (hne : got ≠ []) (n : Nat) (hn : n ≤ r.pos.off) :
        (content file').take n = (content file).take n := by
      have hle := Nat.le_trans hn (hreads.off_le (hhdr hne) hne)
      rw [← Nat.min_eq_left hle, ← take_take, hgrows, take_take]
    refine .reads hb hs h1 h2 (hreads.of_take fun hne => heq hne _ (Nat.le_refl _)) fun hne => ?_
    refine header_of_take (hhdr hne) (heq hne _ ?_)
    rw [hreads.off]
    exact Nat.le_add_right _ _

theorem Reader.At.le_committed (h : Reader.At hdr file got r) : got <+: committed file := by
  cases h with
  | unbound => exact nil_prefix
  | unseeded => exact nil_prefix
  | reads _ _ _ _ hreads hhdr =>
    by_cases hne : got = []
    · rw [hne]
      exact nil_prefix
    · rw [hreads.committed (hhdr hne)]
      exact prefix_append _ _

theorem Reader.At.salts (h : Reader.At hdr file got r) :
    ∀ txn ∈ got, ∀ f ∈ txn, f.header.salt1 = hdr.salt1 ∧ f.header.salt2 = hdr.salt2 := by
  cases h with
  | unbound => simp
  | unseeded => simp
  | reads _ _ _ _ hreads => exact hreads.salts

theorem Reader.At.seed (h : Reader.At hdr file got r) :
    (r.bound = true → hdr.salt1 = r.salt1 ∧ hdr.salt2 = r.salt2) ∧
      Reads hdr file got (r.seed hdr).pos ∧ (r.seed hdr).bound = true ∧
      (r.seed hdr).needSeed = false ∧ (r.seed hdr).salt1 = hdr.salt1 ∧
      (r.seed hdr).salt2 = hdr.salt2 := by
  cases h with
  | unbound hb hs =>
    rw [Reader.seed, if_pos hb]
    refine ⟨fun h => ?_, .start, rfl, hs, rfl, rfl⟩
    rw [hb] at h
    cases h
  | unseeded hb hs hoff h1 h2 =>
    have hpos : Pos.mk r.pos.off hdr.cksum1 hdr.cksum2 = hdr.start := by rw [hoff]; rfl
    rw [Reader.seed, if_neg (by rw [hb]; decide), if_pos hs, hpos]
    exact ⟨fun _ => ⟨h1.symm, h2.symm⟩, .start, hb, rfl, h1, h2⟩
  | reads hb hs h1 h2 hreads =>
    rw [Reader.seed, if_neg (by rw [hb]; decide), if_neg (by rw [hs]; decide)]
    exact ⟨fun _ => ⟨h1.symm, h2.symm⟩, hreads, hb, hs, h1, h2⟩

/-- A call on a log of the generation returns the next committed transaction, if there is
one. -/
theorem Reader.At.next {file : Option (List UInt8)} (h : Reader.At hdr (content file) got r)
    (hgen : OfGeneration hdr file) :
    ∃ frames, (r.next file).2 = .ok frames ∧
      Reader.At hdr (content file) (if frames = [] then got else got ++ [frames]) (r.next file).1 ∧
      (frames = [] → got = committed (content file)) ∧
      (r.bound = true ∨ walHeader (content file) ≠ none → (r.next file).1.bound = true) := by
  cases hhdr : walHeader (content file) with
  | none =>
    have hnext : r.next file = (r, .ok []) := by
      cases file with
      | none => rfl
      | some f =>
        have hf : walHeader f = none := hhdr
        rw [Reader.next, header_eq, hf]
    have hnil : committed (content file) = [] := by rw [committed, hhdr]
    have hgot := h.le_committed
    rw [hnil] at hgot ⊢
    rw [hnext]
    exact ⟨[], rfl, h, fun _ => prefix_nil.mp hgot, fun hb => hb.resolve_right fun hne => hne rfl⟩
  | some hdr' =>
    obtain rfl := hgen hdr' hhdr
    obtain ⟨hsalts, hreads, hb, hs, h1, h2⟩ := h.seed
    cases file with
    | none => cases hhdr
    | some f =>
      have hf : walHeader f = some hdr' := hhdr
      have hsame : ¬ (r.bound = true ∧ (hdr'.salt1 ≠ r.salt1 ∨ hdr'.salt2 ≠ r.salt2)) := by
        rintro ⟨hbound, hne⟩
        obtain ⟨h1', h2'⟩ := hsalts hbound
        exact hne.elim (fun hne => hne h1') fun hne => hne h2'
      rw [Reader.next, header_eq, hf]
      dsimp only
      rw [if_neg hsame]
      cases htxn : readTxn hdr' f (f.length + 1) (r.seed hdr').pos with
      | none =>
        refine ⟨[], rfl, .reads hb hs h1 h2 hreads fun _ => hf, fun _ => ?_, fun _ => hb⟩
        rw [hreads.pos hhdr] at htxn
        rw [hreads.committed hhdr]
        show got = got ++ transactions [] (validFrom hdr' f _)
        rw [transactions_none htxn (by omega), append_nil]
      | some t =>
        obtain ⟨frames, pos⟩ := t
        obtain ⟨hframes, hcommits⟩ := readTxn_eq_some htxn
        have hne := hcommits.ne_nil
        refine ⟨frames, rfl, ?_, fun h => absurd h hne, fun _ => hb⟩
        rw [if_neg hne]
        exact .reads hb hs h1 h2 (.txn hreads hframes hcommits) fun _ => hf

theorem Reader.At.next_restarted (h : Reader.At hdr file got r) (hb : r.bound = true)
    {f : List UInt8} {hdr' : Header} (hhdr : walHeader f = some hdr')
    (hsalt : hdr'.salt1 ≠ hdr.salt1 ∨ hdr'.salt2 ≠ hdr.salt2) :
    r.next (some f) = (r, .error .walRestarted) := by
  have hsame : r.salt1 = hdr.salt1 ∧ r.salt2 = hdr.salt2 := by
    cases h with
    | unbound hb' =>
      rw [hb] at hb'
      cases hb'
    | unseeded _ _ _ h1 h2 => exact ⟨h1, h2⟩
    | reads _ _ h1 h2 => exact ⟨h1, h2⟩
  rw [Reader.next, header_eq, hhdr]
  dsimp only
  rw [if_pos ⟨hb, by rw [hsame.1, hsame.2]; exact hsalt⟩]

/-! ### Whole runs -/

def returned : Except NextErr (List Frame) → Option (List Frame)
  | .ok [] => none
  | .ok frames => some frames
  | .error _ => none

theorem Reader.At.run {file : Option (List UInt8)} {files : List (Option (List UInt8))}
    (h : Reader.At hdr (content file) got r) (hgen : ∀ f ∈ files, OfGeneration hdr f)
    (hgrows : (file :: files).IsChain Grows) :
    Reader.At hdr (content ((file :: files).getLast (cons_ne_nil _ _)))
        (got ++ (r.run files).2.filterMap returned) (r.run files).1 ∧
      (∀ out ∈ (r.run files).2, ∃ frames, out = .ok frames) ∧
      ((r.run files).2.getLast? = some (.ok []) →
        got ++ (r.run files).2.filterMap returned =
          committed (content ((file :: files).getLast (cons_ne_nil _ _)))) ∧
      ((r.bound = true ∨ ∃ f ∈ files, walHeader (content f) ≠ none) →
        (r.run files).1.bound = true) := by
  induction files generalizing file got r with
  | nil =>
    rw [Reader.run, filterMap_nil, append_nil]
    refine ⟨h, by simp, by simp, fun hb => hb.elim id ?_⟩
    rintro ⟨_, hf, -⟩
    cases hf
  | cons f files ih =>
    obtain ⟨hfirst, hrest⟩ := isChain_cons_cons.mp hgrows
    obtain ⟨frames, hout, hat, hall, hbound⟩ := (h.grows hfirst).next (hgen f mem_cons_self)
    obtain ⟨hat', houts, hall', hbound'⟩ :=
      ih hat (fun f' hf' => hgen f' (mem_cons_of_mem _ hf')) hrest
    have happend : (if frames = [] then got else got ++ [frames]) ++
        ((r.next f).1.run files).2.filterMap returned =
        got ++ (r.run (f :: files)).2.filterMap returned := by
      rw [Reader.run, hout]
      cases frames with
      | nil => rw [if_pos rfl, filterMap_cons_none rfl]
      | cons fr frs =>
        have hsome : returned (.ok (fr :: frs)) = some (fr :: frs) := rfl
        rw [if_neg (cons_ne_nil _ _), filterMap_cons_some hsome, append_assoc]
        rfl
    rw [happend] at hat' hall'
    refine ⟨hat', fun out ho => ?_, fun hlast => ?_, fun hb => hbound' ?_⟩
    · rcases mem_cons.mp ho with rfl | ho
      · exact ⟨frames, hout⟩
      · exact houts out ho
    · cases files with
      | nil =>
        rw [← happend]
        have hnil : (r.next f).2 = .ok [] := Option.some.inj hlast
        rw [hout] at hnil
        have hframes := Except.ok.inj hnil
        rw [if_pos hframes, Reader.run, filterMap_nil, append_nil]
        exact hall hframes
      | cons f' files => exact hall' hlast
    · by_cases hf : walHeader (content f) = none
      · refine hb.imp (fun hb => hbound (.inl hb)) ?_
        rintro ⟨f', hf', hne⟩
        rcases mem_cons.mp hf' with rfl | hf'
        · exact absurd hf hne
        · exact ⟨f', hf', hne⟩
      · exact .inl (hbound (.inr hf))

/-- The transactions that calls of `Next` return while the log grows are those a single pass
over it finds by the salts and the cumulative checksum: at any time the first ones, and all
of them when a call returns nothing.  All are of the reader's generation; once that has been
seen, a header with other salts is reported, and nothing else changes. -/
theorem next_incremental {files : List (Option (List UInt8))} (hne : files ≠ [])
    (hstart : r = newReader ∨ r = newReader.bind headerSize hdr.salt1 hdr.salt2)
    (hgen : ∀ f ∈ files, OfGeneration hdr f) (hgrows : files.IsChain Grows) :
    (∀ out ∈ (r.run files).2, ∃ frames, out = .ok frames) ∧
      (r.run files).2.filterMap returned <+: committed (content (files.getLast hne)) ∧
      ((r.run files).2.getLast? = some (.ok []) →
        (r.run files).2.filterMap returned = committed (content (files.getLast hne))) ∧
      (∀ txn ∈ (r.run files).2.filterMap returned, ∀ f ∈ txn,
        f.header.salt1 = hdr.salt1 ∧ f.header.salt2 = hdr.salt2) ∧
      ((∃ f ∈ files, walHeader (content f) ≠ none) → ∀ f hdr', walHeader f = some hdr' →
        hdr'.salt1 ≠ hdr.salt1 ∨ hdr'.salt2 ≠ hdr.salt2 →
        (r.run files).1.next (some f) = ((r.run files).1, .error .walRestarted)) := by
  have hfresh : Reader.At hdr (content none) [] r := by
    rcases hstart with rfl | rfl
    · exact .unbound rfl rfl
    · exact .unseeded rfl rfl rfl rfl rfl
  obtain ⟨f, files, rfl⟩ := exists_cons_of_ne_nil hne
  have hchain : (none :: f :: files).IsChain Grows := isChain_cons_cons.mpr ⟨rfl, hgrows⟩
  obtain ⟨hat, houts, hall, hbound⟩ := hfresh.run hgen hchain
  refine ⟨houts, hat.le_committed, hall, hat.salts, fun hseen f' hdr' hhdr hsalt => ?_⟩
  exact hat.next_restarted (hbound (.inr hseen)) hhdr hsalt

def bytes32 (x : UInt32) : List UInt8 :=
  [(x >>> 24).toUInt8, (x >>> 16).toUInt8, (x >>> 8).toUInt8, x.toUInt8]

def sampleHeader : List UInt8 :=
  let b := [0x377f0683, 3007000, 8, 0, 11, 22].flatMap bytes32
  b ++ bytes32 (checksum true 0 0 b).1 ++ bytes32 (checksum true 0 0 b).2

def sampleHdr : Header :=
  ⟨true, 8, 11, 22, (checksum true 0 0 (slice sampleHeader 0 24)).1,
    (checksum true 0 0 (slice sampleHeader 0 24)).2⟩

def sampleFrame (p : Pos) (pgno commitSize : UInt32) (data : List UInt8) : List UInt8 :=
  let b := bytes32 pgno ++ bytes32 commitSize
  let s := checksum true p.s1 p.s2 b
  let s := checksum true s.1 s.2 data
  b ++ bytes32 11 ++ bytes32 22 ++ bytes32 s.1 ++ bytes32 s.2 ++ data

def sampleOpen : List UInt8 :=
  sampleHeader ++ sampleFrame sampleHdr.start 1 0 [1, 2, 3, 4, 5, 6, 7, 8]

/-- With a second frame, which commits, and a torn one. -/
def sampleLog : List UInt8 :=
  sampleOpen ++ sampleFrame ⟨64, big32 (slice sampleOpen 48 4), big32 (slice sampleOpen 52 4)⟩ 2 2
    [8, 7, 6, 5, 4, 3, 2, 1] ++ List.replicate 40 9

set_option maxRecDepth 4096 in
theorem next_incremental_sample : (committed sampleLog).map (·.map (·.header.pgno)) = [[1, 2]] ∧
    (newReader.run [none, some sampleOpen, some sampleLog, some sampleLog]).2.filterMap returned =
      committed sampleLog := by
  have hgen : ∀ f ∈ [none, some sampleOpen, some sampleLog, some sampleLog],
      OfGeneration sampleHdr f := by
    have hopen : walHeader sampleOpen = some sampleHdr := by decide +kernel
    have hlog : walHeader sampleLog = some sampleHdr := by decide +kernel
    simp only [mem_cons, not_mem_nil, or_false, forall_eq_or_imp, forall_eq]
    refine ⟨fun h heq => ?_, fun h heq => ?_, fun h heq => ?_, fun h heq => ?_⟩
    · cases heq
    · exact Option.some.inj (heq.symm.trans hopen)
    · exact Option.some.inj (heq.symm.trans hlog)
    · exact Option.some.inj (heq.symm.trans hlog)
  have hgrows : [none, some sampleOpen, some sampleLog, some sampleLog].IsChain Grows := by
    decide +kernel
  exact ⟨by decide +kernel, (next_incremental (cons_ne_nil _ _) (.inl rfl) hgen hgrows).2.2.1
    (by decide +kernel)⟩

end Offshoot.Wal
