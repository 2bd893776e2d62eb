import Offshoot.Ltx.Encode
import Offshoot.Ops.Checkpoint

/-!
# A checkout against its shadow

`diffPages` of `internal/ops/checkpoint_delta.go`, with its checksums as words and the files
as they are read: a header that says how many pages there are, and the pages.
-/

namespace Offshoot

open List

variable {acc : List Page × Checksum × Checksum}

/-! ## The comparison of two images -/

section Images

variable {cur shadow : Image} {n k : Nat} {p : Page}

def carriedPage (cur shadow : Image) (pgno : Nat) : Option Page :=
  if pgno = lockPgno cur.pageSize ∨ shadow.page? pgno = cur.page? pgno then none
  else (cur.page? pgno).map (Page.mk pgno)

def carriedPages (cur shadow : Image) (n : Nat) : List Page :=
  (List.range' 1 n).filterMap (carriedPage cur shadow)

theorem carriedPage_eq_some : carriedPage cur shadow n = some p ↔
    n ≠ lockPgno cur.pageSize ∧ shadow.page? n ≠ cur.page? n ∧ p.pgno = n ∧
      cur.page? n = some p.data := by
  rw [carriedPage]
  split
  · rename_i h
    simp only [reduceCtorEq, false_iff, not_and]
    intro hlock hne
    exact absurd h (not_or.mpr ⟨hlock, hne⟩)
  · rename_i h
    rw [not_or] at h
    rw [Option.map_eq_some_iff]
    constructor
    · rintro ⟨d, hd, rfl⟩
      exact ⟨h.1, h.2, rfl, hd⟩
    · rintro ⟨-, -, rfl, hd⟩
      exact ⟨p.data, hd, rfl⟩

theorem mem_carriedPages : p ∈ carriedPages cur shadow k ↔ p.pgno ≤ k ∧
    p.pgno ≠ lockPgno cur.pageSize ∧ shadow.page? p.pgno ≠ cur.page? p.pgno ∧
      cur.page? p.pgno = some p.data := by
  rw [carriedPages, mem_filterMap]
  constructor
  · rintro ⟨n, hn, hp⟩
    obtain ⟨hlock, hne, rfl, hd⟩ := carriedPage_eq_some.mp hp
    have := mem_range'_1.mp hn
    exact ⟨by omega, hlock, hne, hd⟩
  · rintro ⟨hk, hlock, hne, hd⟩
    refine ⟨p.pgno, mem_range'_1.mpr ?_, carriedPage_eq_some.mpr ⟨hlock, hne, rfl, hd⟩⟩
    have := Image.page?_isSome.mp (Option.isSome_of_eq_some hd)
    omega

theorem carriedPages_sorted : ((carriedPages cur shadow k).map (·.pgno)).Pairwise (· < ·) := by
  rw [pairwise_map, carriedPages, pairwise_filterMap]
  refine (pairwise_lt_range' (s := 1) (n := k)).imp fun hlt p hp q hq => ?_
  obtain ⟨-, -, hp, -⟩ := carriedPage_eq_some.mp hp
  obtain ⟨-, -, hq, -⟩ := carriedPage_eq_some.mp hq
  omega

theorem carriedPages_nodup : ((carriedPages cur shadow k).map (·.pgno)).Nodup :=
  carriedPages_sorted.imp fun hlt => Nat.ne_of_lt hlt

theorem page?_of_not_carried (hlock : n ≠ lockPgno cur.pageSize) (hk : n ≤ k) (hn : n ≤ cur.commit)
    (hmem : n ∉ (carriedPages cur shadow k).map (·.pgno)) : shadow.page? n = cur.page? n := by
  by_contra hne
  cases hd : cur.page? n with
  | none =>
    have hgt := Image.page?_eq_none.mp hd
    exact hne (by rw [show n = 0 by omega]; rfl)
  | some d => exact hmem (mem_map.mpr ⟨⟨n, d⟩, mem_carriedPages.mpr ⟨hk, hlock, hne, hd⟩, rfl⟩)

theorem lastWrite_carriedPages (hlock : n ≠ lockPgno cur.pageSize) (hk : n ≤ k)
    (hn : n ≤ cur.commit) :
    Image.lastWrite n (shadow.page? n) (carriedPages cur shadow k) = cur.page? n := by
  by_cases hmem : n ∈ (carriedPages cur shadow k).map (·.pgno)
  · obtain ⟨p, hp, rfl⟩ := mem_map.mp hmem
    rw [Image.lastWrite_of_nodup carriedPages_nodup hp, (mem_carriedPages.mp hp).2.2.2]
  · rw [Image.lastWrite_of_not_mem hmem, page?_of_not_carried hlock hk hn hmem]

theorem updateChecksum_same {c : Checksum} {x : Option Bytes} : updateChecksum c n x x = c := by
  rw [updateChecksum, symmDiff_symmDiff_cancel_right]

theorem diffPage_eq {pages : List Page} {post sum : Checksum} (hlock : n ≠ lockPgno cur.pageSize) :
    diffPage cur shadow (pages, post, sum) n = (pages ++ (carriedPage cur shadow n).toList,
      updateChecksum post n (shadow.page? n) (cur.page? n),
      updateChecksum sum n none (shadow.page? n)) := by
  rw [diffPage, if_neg hlock, carriedPage]
  cases hd : cur.page? n with
  | none => simp
  | some d =>
    by_cases hold : shadow.page? n = some d
    · simp [hold, updateChecksum_same]
    · simp [hold, hlock]

theorem diffPage_lock :
    diffPage cur shadow acc (lockPgno cur.pageSize) = acc := by rw [diffPage, if_pos rfl]

/-- The current file as far as it has been compared, and the shadow from there on. -/
def compared (cur shadow : Image) (k n : Nat) : Option Bytes :=
  if n = lockPgno cur.pageSize then none else if n ≤ k then cur.page? n else shadow.page? n

theorem compared_all (hcur : cur.commit ≤ k) (hshadow : shadow.commit ≤ k) :
    compared cur shadow k n = if n = lockPgno cur.pageSize then none else cur.page? n := by
  rw [compared]
  by_cases hn : n ≤ k
  · rw [if_pos hn]
  · rw [if_neg hn, Image.page?_eq_none.mpr (.inr (by omega)),
      Image.page?_eq_none.mpr (.inr (by omega))]

theorem foldl_diffPage {pre : Checksum} (hpre : Covers pre (compared cur shadow 0)) (k : Nat) :
    ((List.range' 1 k).foldl (diffPage cur shadow) ([], pre, ∅)).1 = carriedPages cur shadow k ∧
      Covers ((List.range' 1 k).foldl (diffPage cur shadow) ([], pre, ∅)).2.1
        (compared cur shadow k) := by
  induction k with
  | zero => exact ⟨rfl, hpre⟩
  | succ k ih =>
    obtain ⟨hpages, hpost⟩ := ih
    rw [carriedPages] at hpages ⊢
    rw [List.range'_1_concat, foldl_append, filterMap_append, add_comm 1 k,
      foldl_cons, foldl_nil]
    generalize (List.range' 1 k).foldl (diffPage cur shadow) ([], pre, ∅) = acc at *
    have hlast : [k + 1].filterMap (carriedPage cur shadow) =
        (carriedPage cur shadow (k + 1)).toList := by
      cases hp : carriedPage cur shadow (k + 1) <;> simp [hp]
    rw [hlast]
    have hother {n : Nat} (hn : n ≠ k + 1) :
        compared cur shadow k n = compared cur shadow (k + 1) n := by
      have hiff : n ≤ k ↔ n ≤ k + 1 := by omega
      simp only [compared, hiff]
    by_cases hlock : k + 1 = lockPgno cur.pageSize
    · have hnone : carriedPage cur shadow (lockPgno cur.pageSize) = none := if_pos (.inl rfl)
      rw [hlock, diffPage_lock, hpages, hnone]
      refine ⟨(append_nil _).symm, hpost.congr fun n => ?_⟩
      by_cases hn : n = k + 1
      · rw [hn, compared, compared, if_pos hlock, if_pos hlock]
      · rw [hother hn, hlock]
    · have hacc : acc = (acc.1, acc.2.1, acc.2.2) := rfl
      rw [hacc, diffPage_eq hlock, hpages]
      refine ⟨rfl, ?_⟩
      have hold : compared cur shadow k (k + 1) = shadow.page? (k + 1) := by
        rw [compared, if_neg hlock, if_neg (by omega)]
      have hnew := hpost.update (k + 1) (cur.page? (k + 1))
      rw [hold] at hnew
      refine hnew.congr fun n => ?_
      by_cases hn : n = k + 1
      · rw [hn, Function.update_self, compared, if_neg hlock, if_pos (Nat.le_refl _)]
      · rw [Function.update_of_ne hn]
        exact hother hn

end Images

/-! ## Files -/

namespace Rolling

structure Database where
  image : Image
  nPages : Nat
  deriving DecidableEq

/-- The header tells the truth about the file, whose pages are whole. -/
structure Database.WellFormed (f : Database) : Prop where
  size : f.nPages = f.image.commit
  nonempty : 0 < f.nPages
  pageSize : validPageSize f.image.pageSize = true
  whole : ∀ d ∈ f.image.pages, d.length = f.image.pageSize

inductive DiffErr where
  | header
  | pageSizeChanged
  | readPage (pgno : Nat)
  | shadowDiverged
  deriving DecidableEq, Repr

def readDBHeader (f : Database) : Except DiffErr (Nat × Nat) :=
  if f.image.pages = [] ∨ validPageSize f.image.pageSize = false then .error .header
  else .ok (f.image.pageSize, f.nPages)

def Database.readPage (f : Database) (pgno : Nat) : Except DiffErr (Option Bytes) :=
  if pgno ≤ f.nPages then
    match f.image.page? pgno with
    | none => .error (.readPage pgno)
    | some data => .ok (some data)
  else .ok none

/-- The pages to carry, and the checksums of the result and of the shadow so far. -/
structure Diff where
  pages : List Page
  post : UInt64
  shadowSum : UInt64
  deriving DecidableEq

def comparePage (crc : Crc Bytes) (lock : Nat) (acc : Diff) (pgno : Nat)
    (curPage oldPage : Option Bytes) : Diff :=
  if pgno = lock then acc
  else
    let shadowSum :=
      if oldPage = none then acc.shadowSum
      else updateChecksum crc acc.shadowSum pgno none oldPage
    match curPage with
    | none => ⟨acc.pages, updateChecksum crc acc.post pgno oldPage none, shadowSum⟩
    | some data =>
      if oldPage = some data then ⟨acc.pages, acc.post, shadowSum⟩
      else ⟨acc.pages ++ [⟨pgno, data⟩], updateChecksum crc acc.post pgno oldPage (some data),
        shadowSum⟩

def diffPage (crc : Crc Bytes) (cur shadow : Database) (acc : Diff) (pgno : Nat) :
    Except DiffErr Diff := do
  let curPage ← cur.readPage pgno
  let oldPage ← shadow.readPage pgno
  return comparePage crc (lockPgno cur.image.pageSize) acc pgno curPage oldPage

structure SegmentDelta where
  pages : List Page
  commit : Nat
  pageSize : Nat
  post : UInt64
  deriving DecidableEq

def diffPages (crc : Crc Bytes) (cur shadow : Database) (pre : UInt64) :
    Except DiffErr SegmentDelta := do
  let (pageSize, commit) ← readDBHeader cur
  let (shadowSize, shadowCommit) ← readDBHeader shadow
  if shadowSize ≠ pageSize then .error .pageSizeChanged
  else
    let acc ←
      (List.range' 1 (max commit shadowCommit)).foldlM (diffPage crc cur shadow) ⟨[], pre, 0⟩
    if acc.shadowSum ≠ pre then .error .shadowDiverged
    else return ⟨acc.pages, commit, pageSize, acc.post⟩

/-! ## The loop over files is the one over images -/

variable {crc : Crc Bytes} {cur shadow : Database} {n : Nat}

def Diff.of (crc : Crc Bytes) (acc : List Page × Checksum × Checksum) : Diff :=
  ⟨acc.1, digest crc acc.2.1, digest crc acc.2.2⟩

theorem Database.WellFormed.readPage (h : cur.WellFormed) (hn : 0 < n) :
    cur.readPage n = .ok (cur.image.page? n) := by
  rw [Database.readPage, h.size]
  by_cases hle : n ≤ cur.image.commit
  · obtain ⟨d, hd⟩ := Option.isSome_iff_exists.mp (Image.page?_isSome.mpr ⟨hn, hle⟩)
    rw [if_pos hle, hd]
  · rw [if_neg hle, Image.page?_eq_none.mpr (.inr (by omega))]

theorem Database.WellFormed.readDBHeader (h : cur.WellFormed) :
    readDBHeader cur = .ok (cur.image.pageSize, cur.nPages) := by
  have hpages : cur.image.pages ≠ [] := fun hnil => by
    have hpos := h.nonempty
    rw [h.size, Image.commit, hnil] at hpos
    exact lt_irrefl _ hpos
  rw [Rolling.readDBHeader, if_neg (by simp [hpages, h.pageSize])]

theorem comparePage_of {cur shadow : Image} :
    comparePage crc (lockPgno cur.pageSize) (.of crc acc) n (cur.page? n) (shadow.page? n) =
      .of crc (Offshoot.diffPage cur shadow acc n) := by
  rw [comparePage, Offshoot.diffPage]
  by_cases hlock : n = lockPgno cur.pageSize
  · rw [if_pos hlock, if_pos hlock]
  rw [if_neg hlock, if_neg hlock]
  have hsum : (if shadow.page? n = none then digest crc acc.2.2
      else updateChecksum crc (digest crc acc.2.2) n none (shadow.page? n)) =
      digest crc (Offshoot.updateChecksum acc.2.2 n none (shadow.page? n)) := by
    by_cases hold : shadow.page? n = none
    · rw [if_pos hold, hold, updateChecksum_same]
    · rw [if_neg hold, updateChecksum_digest]
  dsimp only [Diff.of]
  rw [hsum]
  cases cur.page? n with
  | none =>
    rw [updateChecksum_digest]
  | some d =>
    dsimp only
    by_cases hold : shadow.page? n = some d
    · rw [if_pos hold, if_pos hold]
    · rw [if_neg hold, if_neg hold, updateChecksum_digest]

section

variable (hcur : cur.WellFormed) (hshadow : shadow.WellFormed)

include hcur hshadow

theorem diffPage_eq {acc : Diff} (hn : 0 < n) : diffPage crc cur shadow acc n = .ok (comparePage crc
      (lockPgno cur.image.pageSize) acc n (cur.image.page? n) (shadow.image.page? n)) := by
  rw [diffPage, hcur.readPage hn, hshadow.readPage hn]
  rfl

theorem diffPage_of (hn : 0 < n) : diffPage crc cur shadow (.of crc acc) n =
      .ok (.of crc (Offshoot.diffPage cur.image shadow.image acc n)) := by
  rw [diffPage_eq hcur hshadow hn, comparePage_of]

theorem foldlM_diffPage_of (ns : List Nat) (hns : ∀ n ∈ ns, 0 < n)
    (acc : List Page × Checksum × Checksum) :
    ns.foldlM (diffPage crc cur shadow) (.of crc acc) =
      .ok (.of crc (ns.foldl (Offshoot.diffPage cur.image shadow.image) acc)) := by
  induction ns generalizing acc with
  | nil => rfl
  | cons n ns ih =>
    rw [foldlM_cons, diffPage_of hcur hshadow (hns n mem_cons_self), foldl_cons]
    exact ih (fun m hm => hns m (mem_cons_of_mem _ hm)) _

end

theorem lockPgno_ne_one {pageSize : Nat} (h : validPageSize pageSize = true) :
    lockPgno pageSize ≠ 1 := by
  rw [validPageSize, Bool.and_eq_true, Bool.and_eq_true, decide_eq_true_eq, decide_eq_true_eq] at h
  have hpos : 0 < 0x40000000 / pageSize := Nat.div_pos (by omega) (by omega)
  rw [lockPgno]
  omega

/-- The whole loop.  The checksum of the shadow starts at zero, without its flag, which page
one sets. -/
theorem foldlM_diffPage (hcur : cur.WellFormed) (hshadow : shadow.WellFormed) {pre : Checksum}
    (hn : 0 < n) :
    (List.range' 1 n).foldlM (diffPage crc cur shadow) ⟨[], digest crc pre, 0⟩ =
      .ok (.of crc ((List.range' 1 n).foldl (Offshoot.diffPage cur.image shadow.image)
        ([], pre, ∅))) := by
  obtain ⟨n, rfl⟩ := Nat.exists_eq_succ_of_ne_zero (Nat.ne_of_gt hn)
  obtain ⟨d, hd⟩ := Option.isSome_iff_exists.mp
    (Image.page?_isSome.mpr ⟨Nat.one_pos, Nat.lt_of_lt_of_eq hshadow.nonempty hshadow.size⟩)
  have hlock : 1 ≠ lockPgno cur.image.pageSize := (lockPgno_ne_one hcur.pageSize).symm
  have hfirst : diffPage crc cur shadow ⟨[], digest crc pre, 0⟩ 1 =
      diffPage crc cur shadow (.of crc ([], pre, ∅)) 1 := by
    rw [diffPage_eq hcur hshadow Nat.one_pos, diffPage_eq hcur hshadow Nat.one_pos, hd]
    have hflag : updateChecksum crc (digest crc ∅) 1 none (some d) =
        updateChecksum crc 0 1 none (some d) := updateChecksum_flag
    simp only [comparePage, hlock, if_false, Diff.of, hflag, reduceCtorEq]
  rw [Nat.succ_eq_add_one, List.range'_succ, foldlM_cons, hfirst,
    diffPage_of hcur hshadow Nat.one_pos, foldl_cons]
  refine foldlM_diffPage_of hcur hshadow _ (fun m hm => ?_) _
  have := mem_range'_1.mp hm
  omega

theorem diffPages_eq (hcur : cur.WellFormed) (hshadow : shadow.WellFormed) {pre : Checksum} :
    diffPages crc cur shadow (digest crc pre) =
      if shadow.image.pageSize ≠ cur.image.pageSize then .error .pageSizeChanged
      else if digest crc ((List.range' 1 (max cur.nPages shadow.nPages)).foldl
          (Offshoot.diffPage cur.image shadow.image) ([], pre, ∅)).2.2 ≠ digest crc pre then
        .error .shadowDiverged
      else .ok ⟨((List.range' 1 (max cur.nPages shadow.nPages)).foldl
          (Offshoot.diffPage cur.image shadow.image) ([], pre, ∅)).1, cur.nPages,
        cur.image.pageSize, digest crc ((List.range' 1 (max cur.nPages shadow.nPages)).foldl
          (Offshoot.diffPage cur.image shadow.image) ([], pre, ∅)).2.1⟩ := by
  have hpos : 0 < max cur.nPages shadow.nPages :=
    lt_of_lt_of_le hcur.nonempty (le_max_left _ _)
  rw [diffPages, hcur.readDBHeader, hshadow.readDBHeader]
  by_cases hsize : shadow.image.pageSize ≠ cur.image.pageSize
  · rw [if_pos hsize]
    exact if_pos hsize
  · rw [if_neg hsize]
    refine (if_neg hsize).trans ?_
    rw [foldlM_diffPage hcur hshadow hpos]
    rfl

/-- A comparison that succeeds with sets succeeds with words. -/
theorem diffPages_of (hcur : cur.WellFormed) (hshadow : shadow.WellFormed) {pre : Checksum}
    {d : Offshoot.SegmentDelta} (h : Offshoot.diffPages cur.image shadow.image pre = some d) :
    diffPages crc cur shadow (digest crc pre) =
      .ok ⟨d.pages, d.commit, d.pageSize, digest crc d.post⟩ := by
  rw [diffPages_eq hcur hshadow, hcur.size, hshadow.size]
  unfold Offshoot.diffPages at h
  split at h
  · cases h
  rename_i hok
  rw [not_or, not_or, not_not] at hok
  rw [if_neg (not_not.mpr hok.2.2)]
  generalize (List.range' 1 (max cur.image.commit shadow.image.commit)).foldl
    (Offshoot.diffPage cur.image shadow.image) ([], pre, ∅) = acc at h
  obtain ⟨pages, post, sum⟩ := acc
  dsimp only at h ⊢
  by_cases hsum : sum = pre
  · rw [if_neg (not_not.mpr hsum)] at h
    rw [if_neg (not_not.mpr (congrArg (digest crc) hsum)), ← Option.some.inj h]
  · rw [if_pos hsum] at h
    cases h

theorem diffPages_of_shrunk : let cur : Image := ⟨512, [⟨512, 5⟩]⟩
    let shadow : Image := ⟨512, [⟨512, 1⟩, ⟨512, 3⟩]⟩
    ∃ d, Offshoot.diffPages cur shadow shadow.checksum = some d ∧
      diffPages valueCrc ⟨cur, 1⟩ ⟨shadow, 2⟩ (digest valueCrc shadow.checksum) =
        .ok ⟨d.pages, d.commit, d.pageSize, digest valueCrc d.post⟩ := by
  intro cur shadow
  obtain ⟨d, hd⟩ : ∃ d, Offshoot.diffPages cur shadow shadow.checksum = some d :=
    Option.isSome_iff_exists.mp (by decide)
  exact ⟨d, hd, diffPages_of ⟨by decide, by decide, by decide, by decide⟩
    ⟨by decide, by decide, by decide, by decide⟩ hd⟩

/-- What a comparison gives that succeeds from the true checksum of the shadow. -/
theorem diffPages_eq_ok {c : Checksum} {d : SegmentDelta} (hcur : cur.WellFormed)
    (hshadow : shadow.WellFormed)
    (hc : Covers c fun n => if n = lockPgno shadow.image.pageSize then none
      else shadow.image.page? n)
    (h : diffPages crc cur shadow (digest crc c) = .ok d) :
    shadow.image.pageSize = cur.image.pageSize ∧ d.commit = cur.nPages ∧
      d.pageSize = cur.image.pageSize ∧
      d.pages = carriedPages cur.image shadow.image (max cur.nPages shadow.nPages) ∧
      ∃ c', d.post = digest crc c' ∧ Covers c' fun n =>
        if n = lockPgno cur.image.pageSize then none else cur.image.page? n := by
  rw [diffPages_eq hcur hshadow, ite_error_eq_ok, not_not, ite_error_eq_ok] at h
  obtain ⟨hsize, -, h⟩ := h
  have hcovers : Covers c (compared cur.image shadow.image 0) := hc.congr fun n => by
    rw [compared, hsize]
    by_cases hn : n ≤ 0
    · rw [if_pos hn, Nat.le_zero.mp hn, Image.page?_zero, Image.page?_zero]
    · rw [if_neg hn]
  obtain ⟨hpages, hpost⟩ := foldl_diffPage hcovers (max cur.nPages shadow.nPages)
  rw [hpages] at h
  cases h
  have hcurLe : cur.image.commit ≤ max cur.nPages shadow.nPages :=
    le_trans (le_of_eq hcur.size.symm) (le_max_left _ _)
  have hshadowLe : shadow.image.commit ≤ max cur.nPages shadow.nPages :=
    le_trans (le_of_eq hshadow.size.symm) (le_max_right _ _)
  exact ⟨hsize, rfl, rfl, rfl, _, rfl, hpost.congr fun n => compared_all hcurLe hshadowLe⟩

/-- A comparison that succeeds gives a segment that is encoded, can be applied to the
shadow, and turns it into the current file; and the checksum of that file.  No page is
carried that both files have in common. -/
theorem diffPages_roundTrip {pre : UInt64} {d : SegmentDelta} {txid minTXID maxTXID : Nat}
    (hcur : cur.WellFormed) (hshadow : shadow.WellFormed)
    (hpre : checksumPages crc (lockPgno shadow.image.pageSize) shadow.image.page? shadow.nPages =
      some pre) (h : diffPages crc cur shadow pre = .ok d) (hmin : 2 ≤ minTXID)
    (hmax : minTXID ≤ maxTXID) (htxid : txid = 0 ∨ minTXID = txid + 1) :
    (∃ seg s', encodeSegment d.pageSize d.commit minTXID maxTXID pre d.post d.pages = .ok seg ∧
      checkGrowth seg.commit shadow.nPages (lockPgno seg.pageSize) (seg.pages.map (·.pgno)) = true ∧
      applySegments crc ⟨shadow.image, txid, shadow.nPages, pre⟩ [seg] = .ok s' ∧
      s'.image.commit = cur.image.commit ∧ s'.image.pageSize = cur.image.pageSize ∧
      ∀ n, n ≠ lockPgno cur.image.pageSize → s'.image.page? n = cur.image.page? n) ∧
    checksumPages crc (lockPgno cur.image.pageSize) cur.image.page? cur.nPages = some d.post ∧
    ∀ p ∈ d.pages, p.pgno ≤ cur.nPages → p.pgno ≤ shadow.nPages →
      cur.image.page? p.pgno ≠ shadow.image.page? p.pgno := by
  have hs : State.Sound crc ⟨shadow.image, txid, shadow.nPages, pre⟩ :=
    ⟨le_of_eq hshadow.size, hpre⟩
  obtain ⟨c, rfl, hc⟩ : ∃ c, pre = digest crc c ∧ Covers c fun n =>
      if n = lockPgno shadow.image.pageSize then none else shadow.image.page? n := by
    rw [hshadow.size] at hpre
    exact covers_checksumPages hpre
  obtain ⟨hsize, hcommit, hpageSize, hpages, c', hpost, hc'⟩ := diffPages_eq_ok hcur hshadow hc h
  have hcurLe : cur.image.commit ≤ max cur.nPages shadow.nPages :=
    le_trans (le_of_eq hcur.size.symm) (le_max_left _ _)
  generalize max cur.nPages shadow.nPages = k at *
  have hsum : checksumPages crc (lockPgno cur.image.pageSize) cur.image.page? cur.image.commit =
      some (digest crc c') := checksumPages_image hc'
  have hmem (p : Page) (hp : p ∈ carriedPages cur.image shadow.image k) :
      cur.image.page? p.pgno = some p.data := (mem_carriedPages.mp hp).2.2.2
  rw [hcommit, hpageSize, hpages, hpost, hcur.size]
  refine ⟨?_, hsum, fun p hp _ _ => (mem_carriedPages.mp hp).2.2.1.symm⟩
  rw [← hsize]
  refine encodeSegment_reaches hs hshadow.pageSize hmin hmax htxid (fun p hp => ?_)
    carriedPages_sorted (fun p hp => ?_) (fun n hlo hhi hne => ?_) (fun n hne hn => ?_) ?_
  · rw [hsize]
    exact hcur.whole _ (Image.mem_pages (hmem p hp))
  · exact Image.page?_isSome.mp (Option.isSome_of_eq_some (hmem p hp))
  · -- A page the shadow does not have is not a page both have in common.
    rw [hsize] at hne
    by_contra hout
    have hsame := page?_of_not_carried hne (le_trans hhi hcurLe) hhi hout
    rw [hshadow.size] at hlo
    rw [Image.page?_eq_none.mpr (.inr hlo)] at hsame
    have := Image.page?_eq_none.mp hsame.symm
    omega
  · rw [hsize] at hne
    exact (lastWrite_carriedPages hne (le_trans hn hcurLe) hn).symm
  · rw [hsize]
    exact hsum

theorem diffPages_roundTrip_shrunk :
    diffPages valueCrc ⟨⟨512, [⟨512, 5⟩]⟩, 1⟩ ⟨⟨512, [⟨512, 1⟩, ⟨512, 3⟩]⟩, 2⟩
        grown.postApplyChecksum = .ok ⟨[⟨1, ⟨512, 5⟩⟩], 1, 512, checksumFlag ||| 5⟩ ∧
      checksumPages valueCrc (lockPgno 512) (Image.page? ⟨512, [⟨512, 5⟩]⟩) 1 =
        some (checksumFlag ||| 5) := by
  have hdiff : diffPages valueCrc ⟨⟨512, [⟨512, 5⟩]⟩, 1⟩ ⟨⟨512, [⟨512, 1⟩, ⟨512, 3⟩]⟩, 2⟩
      grown.postApplyChecksum = .ok ⟨[⟨1, ⟨512, 5⟩⟩], 1, 512, checksumFlag ||| 5⟩ := by decide
  have hmin : 2 ≤ 9 := by decide
  exact ⟨hdiff, (diffPages_roundTrip ⟨by decide, by decide, by decide, by decide⟩
    ⟨by decide, by decide, by decide, by decide⟩ (by decide) hdiff hmin (Nat.le_refl 9)
    (.inl rfl)).2.1⟩

end Rolling

end Offshoot
