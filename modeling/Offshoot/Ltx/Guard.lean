import Offshoot.Lib.Chunks
import Offshoot.Lib.Endian
import Offshoot.Ltx.Encode

/-!
# The frame guard

`internal/ltxio/guard.go`: a parser between the bytes of an object, which nobody has checked
yet, and the decoder, which trusts their sizes.  It hands the bytes on as they are, a
structural field only when it has all of it and the field passes its check.  Page data are
counted, not looked at, and may be handed on in pieces.
-/

namespace Offshoot.Guard

open Chunks List

/-- What the `ltx` and `lz4` packages give: the page size and the commit of an object's
header, the flag of a page in the block format, and how many bytes a block decompresses to in
a buffer of the given size. -/
structure Codec where
  header : List UInt8 → Option (Nat × Nat)
  flagSize : Nat
  uncompressBlock : List UInt8 → Nat → Option Nat

def headerSize : Nat := 100

def pageHeaderSize : Nat := 6

def maxCommit : Nat := 0xFFFFFFFE

/-- The largest compressed size of `n` bytes. -/
def lz4BlockBound (n : Nat) : Nat := n + n / 255 + 16

inductive GuardState where
  | header
  | pageHeader
  | blockSize
  | frameHeader
  | frameBlock
  | frameEnd
  | rest
  deriving DecidableEq, Repr

inductive GuardErr where
  | eof
  | unexpectedEOF
  | decodeHeader
  | pageSize (pageSize : Nat)
  | commitTooLarge (commit : Nat)
  | compressedSize (size : Nat)
  | magic (magic : Nat)
  | descriptor
  | noBlock
  | storedSize (size : Nat)
  | frameSize (size : Nat)
  | notOnePage
  | moreBlocks (next : Nat)
  deriving DecidableEq, Repr

structure Mode where
  state : GuardState
  pageSize : Nat
  payload : Nat
  deriving DecidableEq, Repr

structure FrameGuard extends Mode where
  src : Source UInt8
  pending : List UInt8
  err : Option GuardErr
  deriving DecidableEq

def newFrameGuard (src : Source UInt8) : FrameGuard := ⟨⟨.header, 0, 0⟩, src, [], none⟩

/-! ## The checks -/

def checkHeader (c : Codec) (m : Mode) (b : List UInt8) : Except GuardErr Mode :=
  match c.header b with
  | none => .error .decodeHeader
  | some (pageSize, commit) =>
    if validPageSize pageSize = false then .error (.pageSize pageSize)
    else if maxCommit < commit then .error (.commitTooLarge commit)
    else .ok { m with state := .pageHeader, pageSize }

def checkPageHeader (c : Codec) (m : Mode) (b : List UInt8) : Except GuardErr Mode :=
  if b = List.replicate pageHeaderSize 0 then .ok { m with state := .rest }
  else if Endian.big (slice b 4 2) &&& c.flagSize ≠ 0 then .ok { m with state := .blockSize }
  else .ok { m with state := .frameHeader }

def checkBlockSize (m : Mode) (b : List UInt8) : Except GuardErr Mode :=
  let size := Endian.big b
  if lz4BlockBound m.pageSize < size then .error (.compressedSize size)
  else .ok { m with state := .pageHeader, payload := size }

/-- Exactly the descriptor that `ltx` v0.5.1 wrote. -/
def checkFrameHeader (m : Mode) (b : List UInt8) : Except GuardErr Mode :=
  let magic := Endian.little (slice b 0 4)
  if magic ≠ 0x184D2204 then .error (.magic magic)
  else if slice b 4 2 ≠ [0x64, 0x40] then .error .descriptor
  else .ok { m with state := .frameBlock }

def checkFrameEnd (m : Mode) (b : List UInt8) : Except GuardErr Mode :=
  let next := Endian.little (slice b 0 4)
  if next ≠ 0 then .error (.moreBlocks next) else .ok { m with state := .pageHeader }

def stored (raw : Nat) : Bool := raw / 2 ^ 31 % 2 = 1

def checkFrameSize (m : Mode) (b : List UInt8) : Except GuardErr Nat :=
  let raw := Endian.little b
  let size := raw % 2 ^ 31
  if raw = 0 then .error .noBlock
  else if stored raw ∧ size ≠ m.pageSize then .error (.storedSize size)
  else if 64 * 1024 < size then .error (.frameSize size)
  else .ok size

def checkFrameData (c : Codec) (m : Mode) (b data : List UInt8) : Except GuardErr Mode :=
  if stored (Endian.little b) = false ∧ c.uncompressBlock data m.pageSize ≠ some m.pageSize then
    .error .notOnePage
  else .ok { m with state := .frameEnd }

/-! ## Steps -/

def endErr (b : List UInt8) : GuardErr := if b = [] then .eof else .unexpectedEOF

def FrameGuard.field (g : FrameGuard) (n : Nat) (check : Mode → List UInt8 → Except GuardErr Mode) :
    FrameGuard :=
  let read := readFull n g.src
  if read.2.1 then { g with src := read.2.2, pending := read.1, err := some (endErr read.1) }
  else match check g.toMode read.1 with
    | .error e => { g with src := read.2.2, err := some e }
    | .ok m => { g with toMode := m, src := read.2.2, pending := read.1 }

def FrameGuard.frameBlock (c : Codec) (g : FrameGuard) : FrameGuard :=
  let read := readFull 4 g.src
  if read.2.1 then { g with src := read.2.2, pending := read.1, err := some (endErr read.1) }
  else match checkFrameSize g.toMode read.1 with
    | .error e => { g with src := read.2.2, err := some e }
    | .ok size =>
      let data := readFull size read.2.2
      if data.2.1 then
        { g with src := data.2.2, pending := read.1 ++ data.1, err := some (endErr data.1) }
      else match checkFrameData c g.toMode read.1 data.1 with
        | .error e => { g with src := data.2.2, err := some e }
        | .ok m => { g with toMode := m, src := data.2.2, pending := read.1 ++ data.1 }

def FrameGuard.step (c : Codec) (g : FrameGuard) : FrameGuard :=
  match g.state with
  | .header => g.field headerSize (checkHeader c)
  | .pageHeader => g.field pageHeaderSize (checkPageHeader c)
  | .blockSize => g.field 4 checkBlockSize
  | .frameHeader => g.field 7 checkFrameHeader
  | .frameBlock => g.frameBlock c
  | .frameEnd => g.field 8 checkFrameEnd
  | .rest => g

/-- The loop of `Read` with a buffer of `n` bytes: what it hands out, and its error. -/
def FrameGuard.read (c : Codec) (n : Nat) :
    Nat → FrameGuard → Option (FrameGuard × List UInt8 × Option GuardErr)
  | 0, _ => none
  | fuel + 1, g =>
    if g.pending ≠ [] then some ({ g with pending := g.pending.drop n }, g.pending.take n, none)
    else match g.err with
      | some e => some (g, [], some e)
      | none =>
        if g.state = .rest then
          let read := Chunks.read n g.src
          some ({ g with src := read.2.2 }, read.1, if read.2.1 then some .eof else none)
        else if 0 < g.payload then
          let read := Chunks.read (min n g.payload) g.src
          some ({ g with src := read.2.2, payload := g.payload - read.1.length }, read.1,
            if read.2.1 then some .eof else none)
        else (g.step c).read c n fuel

/-! ## What is handed on -/

/-- The block of a frame is one page, stored or compressed, of at most 64 KiB. -/
structure OnePage (c : Codec) (pageSize raw : Nat) (data : List UInt8) : Prop where
  some_block : raw ≠ 0
  size : data.length = raw % 2 ^ 31
  bound : data.length ≤ 64 * 1024
  of_stored : stored raw = true → data.length = pageSize
  of_compressed : stored raw = false → c.uncompressBlock data pageSize = some pageSize

/-- A structural field that passes its check, and where the guard is after it. -/
inductive Field (c : Codec) (m : Mode) : List UInt8 → Mode → Prop where
  | header {b : List UInt8} {pageSize commit : Nat} : m.state = .header → b.length = headerSize →
    c.header b = some (pageSize, commit) → validPageSize pageSize = true → commit ≤ maxCommit →
    Field c m b { m with state := .pageHeader, pageSize }
  | lastPage : m.state = .pageHeader →
    Field c m (List.replicate pageHeaderSize 0) { m with state := .rest }
  | blockPage {b : List UInt8} : m.state = .pageHeader → b.length = pageHeaderSize →
    b ≠ List.replicate pageHeaderSize 0 → Endian.big (slice b 4 2) &&& c.flagSize ≠ 0 →
    Field c m b { m with state := .blockSize }
  | framePage {b : List UInt8} : m.state = .pageHeader → b.length = pageHeaderSize →
    b ≠ List.replicate pageHeaderSize 0 → Endian.big (slice b 4 2) &&& c.flagSize = 0 →
    Field c m b { m with state := .frameHeader }
  | blockSize {b : List UInt8} : m.state = .blockSize → b.length = 4 →
    Endian.big b ≤ lz4BlockBound m.pageSize →
    Field c m b { m with state := .pageHeader, payload := Endian.big b }
  | frameHeader {b : List UInt8} : m.state = .frameHeader → b.length = 7 →
    Endian.little (slice b 0 4) = 0x184D2204 → slice b 4 2 = [0x64, 0x40] →
    Field c m b { m with state := .frameBlock }
  | frameBlock {b data : List UInt8} : m.state = .frameBlock → b.length = 4 →
    OnePage c m.pageSize (Endian.little b) data →
    Field c m (b ++ data) { m with state := .frameEnd }
  | frameEnd {b : List UInt8} : m.state = .frameEnd → b.length = 8 →
    Endian.little (slice b 0 4) = 0 → Field c m b { m with state := .pageHeader }

/-- The bytes end within a field; the size of a frame's block, if they hold it, was checked. -/
inductive Truncated (m : Mode) (bs : List UInt8) : Prop where
  | header : m.state = .header → bs.length < headerSize → Truncated m bs
  | pageHeader : m.state = .pageHeader → bs.length < pageHeaderSize → Truncated m bs
  | blockSize : m.state = .blockSize → bs.length < 4 → Truncated m bs
  | frameHeader : m.state = .frameHeader → bs.length < 7 → Truncated m bs
  | frameSize : m.state = .frameBlock → bs.length < 4 → Truncated m bs
  | frameBlock {size : Nat} : m.state = .frameBlock → 4 ≤ bs.length →
    checkFrameSize m (bs.take 4) = .ok size → bs.length < 4 + size → Truncated m bs
  | frameEnd : m.state = .frameEnd → bs.length < 8 → Truncated m bs

/-- What a step can do: hand on the rest of an input that ends within a field, refuse a
field, or hand a field on. -/
inductive StepTo (c : Codec) (g g' : FrameGuard) : Prop where
  | ended {e : GuardErr} : g'.err = some e → g'.toMode = g.toMode →
    g'.pending = g.src.flatten → g'.src.flatten = [] → Truncated g.toMode g.src.flatten →
    StepTo c g g'
  | refused {e : GuardErr} : g'.err = some e → g'.toMode = g.toMode → g'.pending = g.pending →
    g'.src.flatten <:+ g.src.flatten → StepTo c g g'
  | passed : g'.err = g.err → g'.pending ≠ [] → g'.pending ++ g'.src.flatten = g.src.flatten →
    Field c g.toMode g'.pending g'.toMode → StepTo c g g'

variable {c : Codec} {g : FrameGuard} {m : Mode} {b data : List UInt8}
variable {m' : Mode}

theorem checkHeader_ok (hstate : m.state = .header) (hlen : b.length = headerSize)
    (h : checkHeader c m b = .ok m') : Field c m b m' := by
  rw [checkHeader] at h
  cases hhdr : c.header b with
  | none =>
    rw [hhdr] at h
    cases h
  | some t =>
    obtain ⟨pageSize, commit⟩ := t
    rw [hhdr] at h
    rw [ite_error_eq_ok, ite_error_eq_ok, Bool.not_eq_false, not_lt] at h
    obtain ⟨hsize, hcommit, h⟩ := h
    rw [← Except.ok.inj h]
    exact .header hstate hlen hhdr hsize hcommit

theorem checkPageHeader_ok (hstate : m.state = .pageHeader) (hlen : b.length = pageHeaderSize)
    (h : checkPageHeader c m b = .ok m') : Field c m b m' := by
  rw [checkPageHeader] at h
  by_cases hzero : b = List.replicate pageHeaderSize 0
  · rw [if_pos hzero] at h
    rw [← Except.ok.inj h, hzero]
    exact .lastPage hstate
  · rw [if_neg hzero] at h
    by_cases hflag : Endian.big (slice b 4 2) &&& c.flagSize = 0
    · rw [if_neg (not_not.mpr hflag)] at h
      rw [← Except.ok.inj h]
      exact .framePage hstate hlen hzero hflag
    · rw [if_pos hflag] at h
      rw [← Except.ok.inj h]
      exact .blockPage hstate hlen hzero hflag

theorem checkBlockSize_ok (hstate : m.state = .blockSize) (hlen : b.length = 4)
    (h : checkBlockSize m b = .ok m') : Field c m b m' := by
  rw [checkBlockSize, ite_error_eq_ok, not_lt] at h
  rw [← Except.ok.inj h.2]
  exact .blockSize hstate hlen h.1

theorem checkFrameHeader_ok (hstate : m.state = .frameHeader) (hlen : b.length = 7)
    (h : checkFrameHeader m b = .ok m') : Field c m b m' := by
  rw [checkFrameHeader, ite_error_eq_ok, ite_error_eq_ok, not_not, not_not] at h
  rw [← Except.ok.inj h.2.2]
  exact .frameHeader hstate hlen h.1 h.2.1

theorem checkFrameEnd_ok (hstate : m.state = .frameEnd) (hlen : b.length = 8)
    (h : checkFrameEnd m b = .ok m') : Field c m b m' := by
  rw [checkFrameEnd, ite_error_eq_ok, not_not] at h
  rw [← Except.ok.inj h.2]
  exact .frameEnd hstate hlen h.1

theorem checkFrame_ok {size : Nat} (hstate : m.state = .frameBlock) (hlen : b.length = 4)
    (hsize : checkFrameSize m b = .ok size) (hdata : data.length = size)
    (h : checkFrameData c m b data = .ok m') : Field c m (b ++ data) m' := by
  rw [checkFrameSize, ite_error_eq_ok, ite_error_eq_ok, ite_error_eq_ok, not_lt] at hsize
  obtain ⟨hsome, hstored, hbound, heq⟩ := hsize
  rw [checkFrameData, ite_error_eq_ok] at h
  rw [← Except.ok.inj h.2]
  have heq : Endian.little b % 2 ^ 31 = data.length := (Except.ok.inj heq).trans hdata.symm
  rw [heq] at hstored hbound
  refine .frameBlock hstate hlen ⟨hsome, heq.symm, hbound, fun hst => ?_, fun hst => ?_⟩
  · by_contra hne
    exact hstored ⟨hst, hne⟩
  · by_contra hne
    exact h.1 ⟨hst, hne⟩

theorem field_stepTo {check : Mode → List UInt8 → Except GuardErr Mode} (hn : 0 < n)
    (htrunc : g.src.flatten.length < n → Truncated g.toMode g.src.flatten)
    (hcheck : ∀ b m', b.length = n → check g.toMode b = .ok m' → Field c g.toMode b m') :
    StepTo c g (g.field n check) := by
  obtain ⟨hread, hended, hrest⟩ := readFull_spec n g.src
  rw [FrameGuard.field]
  by_cases hshort : g.src.flatten.length < n
  · rw [if_pos (hended.trans (decide_eq_true hshort))]
    refine .ended rfl rfl ?_ ?_ (htrunc hshort)
    · exact hread.trans (take_of_length_le (le_of_lt hshort))
    · exact hrest.trans (drop_of_length_le (le_of_lt hshort))
  · have hlen : (readFull n g.src).1.length = n := by
      rw [length_readFull]
      omega
    rw [if_neg (by rw [hended]; simpa using hshort)]
    cases hm : check g.toMode (readFull n g.src).1 with
    | error e =>
      refine .refused rfl rfl rfl ?_
      rw [hrest]
      exact drop_suffix _ _
    | ok m' =>
      refine .passed rfl (fun hnil => ?_) ?_ (hcheck _ _ hlen hm)
      · have hzero := congrArg List.length hnil
        rw [hlen] at hzero
        exact Nat.ne_of_gt hn hzero
      · show (readFull n g.src).1 ++ (readFull n g.src).2.2.flatten = g.src.flatten
        rw [hread, hrest, take_append_drop]

theorem frameBlock_stepTo (hstate : g.state = .frameBlock) : StepTo c g (g.frameBlock c) := by
  obtain ⟨hread, hended, hrest⟩ := readFull_spec 4 g.src
  rw [FrameGuard.frameBlock]
  by_cases hshort : g.src.flatten.length < 4
  · rw [if_pos (hended.trans (decide_eq_true hshort))]
    refine .ended rfl rfl ?_ ?_ (.frameSize hstate hshort)
    · exact hread.trans (take_of_length_le (le_of_lt hshort))
    · exact hrest.trans (drop_of_length_le (le_of_lt hshort))
  · have hlen : (readFull 4 g.src).1.length = 4 := by
      rw [length_readFull]
      omega
    rw [if_neg (by rw [hended]; simpa using hshort)]
    cases hsize : checkFrameSize g.toMode (readFull 4 g.src).1 with
    | error e =>
      refine .refused rfl rfl rfl ?_
      rw [hrest]
      exact drop_suffix _ _
    | ok size =>
      obtain ⟨hdata, hcut, hleft⟩ := readFull_spec size (readFull 4 g.src).2.2
      have hall : (readFull 4 g.src).1 ++ (readFull 4 g.src).2.2.flatten = g.src.flatten := by
        rw [hread, hrest, take_append_drop]
      have hsum : 4 + (readFull 4 g.src).2.2.flatten.length = g.src.flatten.length := by
        rw [← hall, length_append, hlen]
      dsimp only
      by_cases hlost : (readFull 4 g.src).2.2.flatten.length < size
      · rw [if_pos (hcut.trans (decide_eq_true hlost))]
        rw [take_of_length_le (le_of_lt hlost)] at hdata
        refine .ended rfl rfl ?_ ?_ (.frameBlock hstate (by omega) (hread ▸ hsize) (by omega))
        · show (readFull 4 g.src).1 ++ (readFull size (readFull 4 g.src).2.2).1 = g.src.flatten
          rw [hdata, hall]
        · exact hleft.trans (drop_of_length_le (le_of_lt hlost))
      · have hdlen : (readFull size (readFull 4 g.src).2.2).1.length = size := by
          rw [length_readFull]
          omega
        rw [if_neg (by rw [hcut]; simpa using hlost)]
        cases hm : checkFrameData c g.toMode (readFull 4 g.src).1
            (readFull size (readFull 4 g.src).2.2).1 with
        | error e =>
          refine .refused rfl rfl rfl ?_
          rw [hleft, hrest, drop_drop]
          exact drop_suffix _ _
        | ok m' =>
          refine .passed rfl (fun hnil => ?_) ?_ (checkFrame_ok hstate hlen hsize hdlen hm)
          · rw [(append_eq_nil_iff.mp hnil).1] at hlen
            cases hlen
          · show _ ++ _ ++ (readFull size (readFull 4 g.src).2.2).2.2.flatten = g.src.flatten
            rw [append_assoc, hdata, hleft, take_append_drop, hall]

theorem step_stepTo (hstate : g.state ≠ .rest) : StepTo c g (g.step c) := by
  rw [FrameGuard.step]
  cases hs : g.state with
  | header =>
    exact field_stepTo (by decide) (.header hs) fun b m' => checkHeader_ok hs
  | pageHeader =>
    exact field_stepTo (by decide) (.pageHeader hs) fun b m' => checkPageHeader_ok hs
  | blockSize => exact field_stepTo (by decide) (.blockSize hs) fun b m' => checkBlockSize_ok hs
  | frameHeader =>
    exact field_stepTo (by decide) (.frameHeader hs) fun b m' => checkFrameHeader_ok hs
  | frameBlock => exact frameBlock_stepTo hs
  | frameEnd => exact field_stepTo (by decide) (.frameEnd hs) fun b m' => checkFrameEnd_ok hs
  | rest => exact absurd hs hstate

/-! ## A field that passes its check is handed on -/

structure Handed (g : FrameGuard) (b : List UInt8) (m : Mode) (rest : List UInt8)
    (g' : FrameGuard) : Prop where
  mode : g'.toMode = m
  pending : g'.pending = b
  src : g'.src.flatten = rest
  err : g'.err = g.err

variable {m' : Mode} {rest : List UInt8}

theorem readFull_append {src : Source UInt8} (h : src.flatten = b ++ rest) :
    (readFull b.length src).1 = b ∧ (readFull b.length src).2.1 = false ∧
      (readFull b.length src).2.2.flatten = rest := by
  obtain ⟨hread, hended, hrest⟩ := readFull_spec b.length src
  rw [h] at hread hended hrest
  rw [take_left] at hread
  rw [drop_left] at hrest
  refine ⟨hread, hended.trans (decide_eq_false ?_), hrest⟩
  rw [length_append]
  omega

theorem field_handed {check : Mode → List UInt8 → Except GuardErr Mode} (hlen : b.length = n)
    (hsrc : g.src.flatten = b ++ rest) (hcheck : check g.toMode b = .ok m') :
    Handed g b m' rest (g.field n check) := by
  obtain ⟨hread, hended, hrest⟩ := readFull_append hsrc
  rw [hlen] at hread hended hrest
  rw [FrameGuard.field, hread, hended, if_neg Bool.false_ne_true, hcheck]
  exact ⟨rfl, rfl, hrest, rfl⟩

theorem frameBlock_handed (hlen : b.length = 4) (hsrc : g.src.flatten = b ++ data ++ rest)
    (hpage : OnePage c g.pageSize (Endian.little b) data) :
    Handed g (b ++ data) { g.toMode with state := .frameEnd } rest (g.frameBlock c) := by
  rw [append_assoc] at hsrc
  obtain ⟨hread, hended, hleft⟩ := readFull_append hsrc
  obtain ⟨hdata, hcut, hrest⟩ := readFull_append hleft
  rw [hlen] at hread hended hdata hcut hrest
  have hsize : checkFrameSize g.toMode b = .ok data.length := by
    rw [checkFrameSize, ite_error_eq_ok, ite_error_eq_ok, ite_error_eq_ok, ← hpage.size, not_lt]
    exact ⟨hpage.some_block, fun h => h.2 (hpage.of_stored h.1), hpage.bound, rfl⟩
  have hcheck : checkFrameData c g.toMode b data = .ok { g.toMode with state := .frameEnd } := by
    rw [checkFrameData, ite_error_eq_ok]
    exact ⟨fun h => h.2 (hpage.of_compressed h.1), rfl⟩
  rw [FrameGuard.frameBlock, hread, hended, if_neg Bool.false_ne_true, hsize]
  dsimp only
  rw [hdata, hcut, if_neg Bool.false_ne_true, hcheck]
  exact ⟨rfl, rfl, hrest, rfl⟩

theorem step_handed (h : Field c g.toMode b m') (hsrc : g.src.flatten = b ++ rest) :
    Handed g b m' rest (g.step c) := by
  rw [FrameGuard.step]
  cases h with
  | header hs hlen hhdr hsize hcommit =>
    rw [hs]
    refine field_handed hlen hsrc ?_
    rw [checkHeader, hhdr]
    rw [ite_error_eq_ok, ite_error_eq_ok, Bool.not_eq_false, not_lt]
    exact ⟨hsize, hcommit, rfl⟩
  | lastPage hs =>
    rw [hs]
    exact field_handed (length_replicate ..) hsrc (by rw [checkPageHeader, if_pos rfl])
  | blockPage hs hlen hzero hflag =>
    rw [hs]
    exact field_handed hlen hsrc (by rw [checkPageHeader, if_neg hzero, if_pos hflag])
  | framePage hs hlen hzero hflag =>
    rw [hs]
    refine field_handed hlen hsrc ?_
    rw [checkPageHeader, if_neg hzero, if_neg (not_not.mpr hflag)]
  | blockSize hs hlen hbound =>
    rw [hs]
    exact field_handed hlen hsrc (by rw [checkBlockSize, if_neg (Nat.not_lt.mpr hbound)])
  | frameHeader hs hlen hmagic hdesc =>
    rw [hs]
    refine field_handed hlen hsrc ?_
    rw [checkFrameHeader, if_neg (not_not.mpr hmagic), if_neg (not_not.mpr hdesc)]
  | frameBlock hs hlen hpage =>
    rw [hs]
    exact frameBlock_handed hlen hsrc hpage
  | frameEnd hs hlen hend =>
    rw [hs]
    exact field_handed hlen hsrc (by rw [checkFrameEnd, if_neg (not_not.mpr hend)])

/-! ## One call of `Read` -/

/-- What one call can do: hand out pending bytes, repeat its error, or hand on what one read
of the source gave. -/
inductive ReadTo (n : Nat) (g g' : FrameGuard) : List UInt8 → Option GuardErr → Prop where
  | pending : g.pending ≠ [] → g' = { g with pending := g.pending.drop n } →
    ReadTo n g g' (g.pending.take n) none
  | failed {e : GuardErr} : g.pending = [] → g.err = some e → g' = g → ReadTo n g g' [] (some e)
  | rest : g.pending = [] → g.err = none → g.state = .rest →
    g' = { g with src := (read n g.src).2.2 } →
    ReadTo n g g' (read n g.src).1 (if (read n g.src).2.1 then some .eof else none)
  | payload : g.pending = [] → g.err = none → g.state ≠ .rest → 0 < g.payload →
    g' = { g with
      src := (read (min n g.payload) g.src).2.2
      payload := g.payload - (read (min n g.payload) g.src).1.length } →
    ReadTo n g g' (read (min n g.payload) g.src).1
      (if (read (min n g.payload) g.src).2.1 then some .eof else none)

structure Due (g : FrameGuard) : Prop where
  pending : g.pending = []
  err : g.err = none
  state : g.state ≠ .rest
  payload : g.payload = 0

theorem step_not_due (h : Due g) : ¬ Due (g.step c) := by
  intro hdue
  cases step_stepTo (c := c) h.state with
  | ended herr => exact absurd (herr.symm.trans hdue.err) (Option.some_ne_none _)
  | refused herr => exact absurd (herr.symm.trans hdue.err) (Option.some_ne_none _)
  | passed herr hpending => exact hpending hdue.pending

variable {n fuel : Nat}

theorem read_not_due (c : Codec) (n fuel : Nat) (h : ¬ Due g) :
    ∃ g' out e, g.read c n (fuel + 1) = some (g', out, e) ∧ ReadTo n g g' out e := by
  rw [FrameGuard.read]
  by_cases hpending : g.pending = []
  · rw [if_neg (not_not.mpr hpending)]
    cases herr : g.err with
    | some e => exact ⟨_, _, _, rfl, .failed hpending herr rfl⟩
    | none =>
      by_cases hstate : g.state = .rest
      · rw [if_pos hstate]
        exact ⟨_, _, _, rfl, .rest hpending herr hstate (by rw [herr])⟩
      · rw [if_neg hstate]
        by_cases hpayload : 0 < g.payload
        · rw [if_pos hpayload]
          exact ⟨_, _, _, rfl, .payload hpending herr hstate hpayload (by rw [herr])⟩
        · exact absurd ⟨hpending, herr, hstate, Nat.eq_zero_of_not_pos hpayload⟩ h
  · rw [if_pos hpending]
    exact ⟨_, _, _, rfl, .pending hpending rfl⟩

theorem read_fuel (h : ¬ Due g) : g.read c n (fuel + 1) = g.read c n 1 := by
  rw [FrameGuard.read, FrameGuard.read]
  by_cases hpending : g.pending = []
  · rw [if_neg (not_not.mpr hpending), if_neg (not_not.mpr hpending)]
    cases herr : g.err with
    | some e => rfl
    | none =>
      by_cases hstate : g.state = .rest
      · rw [if_pos hstate, if_pos hstate]
      · rw [if_neg hstate, if_neg hstate]
        by_cases hpayload : 0 < g.payload
        · rw [if_pos hpayload, if_pos hpayload]
        · exact absurd ⟨hpending, herr, hstate, Nat.eq_zero_of_not_pos hpayload⟩ h
  · rw [if_pos hpending, if_pos hpending]

theorem read_due (h : Due g) : g.read c n (fuel + 1) = (g.step c).read c n fuel := by
  rw [FrameGuard.read, if_neg (not_not.mpr h.pending), h.err]
  rw [if_neg h.state, h.payload, if_neg (lt_irrefl 0)]

def FrameGuard.ready (c : Codec) (g : FrameGuard) : FrameGuard :=
  if g.pending = [] ∧ g.err = none ∧ g.state ≠ .rest ∧ g.payload = 0 then g.step c else g

theorem ready_due (h : Due g) : g.ready c = g.step c :=
  if_pos ⟨h.pending, h.err, h.state, h.payload⟩

theorem ready_not_due (h : ¬ Due g) : g.ready c = g :=
  if_neg fun hdue => h ⟨hdue.1, hdue.2.1, hdue.2.2.1, hdue.2.2.2⟩

/-- A call returns after at most one step. -/
theorem read_spec (c : Codec) (n : Nat) (g : FrameGuard) : ∃ g' out e,
    (∀ fuel, g.read c n (fuel + 2) = some (g', out, e)) ∧ ReadTo n (g.ready c) g' out e := by
  by_cases h : Due g
  · have hstep := step_not_due (c := c) h
    obtain ⟨g', out, e, hread, hto⟩ := read_not_due c n 0 hstep
    refine ⟨g', out, e, fun fuel => ?_, ready_due h ▸ hto⟩
    rw [read_due h, read_fuel hstep, hread]
  · obtain ⟨g', out, e, hread, hto⟩ := read_not_due c n 0 h
    exact ⟨g', out, e, fun fuel => (read_fuel h).trans hread, (ready_not_due h).symm ▸ hto⟩

end Offshoot.Guard
