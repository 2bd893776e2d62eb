import Offshoot.Ltx.Apply

/-!
# Encoding a segment

`EncodeSegment` of `internal/ltxio/segment.go` with its checksums as words, and with what the
`ltx` encoder behind it refuses: a page size that is no database's, a checksum without its
flag, and a page that is not one of the database.
-/

namespace Offshoot

open List

def validPageSize (pageSize : Nat) : Bool :=
  512 ≤ pageSize && pageSize ≤ 65536 && pageSize &&& (pageSize - 1) == 0

namespace Rolling

inductive EncodeErr where
  | badRange
  | startsAtOne
  | pageLength (pgno : Nat)
  | notSorted (pgno : Nat)
  | noPreApply
  | noPostApply
  | header
  | pageNumber
  | trailer
  deriving DecidableEq, Repr

/-- The loop over the pages: each of the page size, and each above the one before. -/
def checkPages (pageSize : Nat) : Option Nat → List Page → Except EncodeErr Unit
  | _, [] => .ok ()
  | prev, p :: ps =>
    if p.data.length ≠ pageSize then .error (.pageLength p.pgno)
    else if prev.any (p.pgno ≤ ·) then .error (.notSorted p.pgno)
    else checkPages pageSize (some p.pgno) ps

def encodeSegment (pageSize commit minTXID maxTXID : Nat) (preApply postApply : UInt64)
    (pages : List Page) : Except EncodeErr Segment :=
  if minTXID = 0 ∨ maxTXID < minTXID then .error .badRange
  else if minTXID = 1 then .error .startsAtOne
  else match checkPages pageSize none pages with
    | .error e => .error e
    | .ok () =>
      if preApply = 0 then .error .noPreApply
      else if postApply = 0 then .error .noPostApply
      else if validPageSize pageSize = false ∨ preApply &&& checksumFlag = 0 then .error .header
      else
        -- The lock page carries no data and is left out.
        let carried := pages.filter (·.pgno ≠ lockPgno pageSize)
        if carried.any fun p => p.pgno = 0 || commit < p.pgno then .error .pageNumber
        else if postApply &&& checksumFlag = 0 then .error .trailer
        else .ok ⟨pageSize, commit, minTXID, maxTXID, preApply, postApply, carried⟩

theorem flag_and (a : UInt64) : (checksumFlag ||| a) &&& checksumFlag = checksumFlag := by
  rw [← UInt64.toBitVec_inj]
  refine BitVec.eq_of_getLsbD_eq fun i hi => ?_
  simp only [UInt64.toBitVec_or, UInt64.toBitVec_and, BitVec.getLsbD_or, BitVec.getLsbD_and]
  cases checksumFlag.toBitVec.getLsbD i <;> simp

variable {crc : Crc Bytes}

theorem digest_and_flag {c : Checksum} : digest crc c &&& checksumFlag ≠ 0 := by
  rw [digest, flag_and]
  decide

theorem checkPages_eq_ok {pageSize : Nat} {prev : Option Nat} {ps : List Page} :
    checkPages pageSize prev ps = .ok () ↔ (∀ p ∈ ps, p.data.length = pageSize) ∧
      (prev.toList ++ ps.map (·.pgno)).Pairwise (· < ·) := by
  induction ps generalizing prev with
  | nil => cases prev <;> simp [checkPages]
  | cons p ps ih =>
    rw [checkPages, ite_error_eq_ok, ite_error_eq_ok, ih, forall_mem_cons, not_not]
    cases prev with
    | none => simp [and_assoc]
    | some m =>
      simp only [Option.any_some, decide_eq_true_eq, not_le, Option.toList_some,
        map_cons, singleton_append, pairwise_cons, mem_cons,
        forall_eq_or_imp]
      constructor
      · rintro ⟨hlen, hlt, hall, hp, hps⟩
        exact ⟨⟨hlen, hall⟩, ⟨hlt, fun n hn => Nat.lt_trans hlt (hp n hn)⟩, hp, hps⟩
      · rintro ⟨⟨hlen, hall⟩, ⟨hlt, -⟩, hp, hps⟩
        exact ⟨hlen, hlt, hall, hp, hps⟩

/-- Pages in order, of the page size and of the database, are encoded as they are, the lock
page apart. -/
theorem encodeSegment_ok {c c' : Checksum} {pageSize commit minTXID maxTXID : Nat}
    {pages : List Page} (hmin : 2 ≤ minTXID) (hmax : minTXID ≤ maxTXID)
    (hsize : validPageSize pageSize = true) (hlen : ∀ p ∈ pages, p.data.length = pageSize)
    (hsorted : (pages.map (·.pgno)).Pairwise (· < ·))
    (hpgno : ∀ p ∈ pages, 0 < p.pgno ∧ p.pgno ≤ commit) :
    encodeSegment pageSize commit minTXID maxTXID (digest crc c) (digest crc c') pages =
      .ok ⟨pageSize, commit, minTXID, maxTXID, digest crc c, digest crc c',
        pages.filter (·.pgno ≠ lockPgno pageSize)⟩ := by
  have hzero (c : Checksum) : digest crc c ≠ 0 := fun h =>
    absurd (show digest crc c &&& checksumFlag = 0 by rw [h, UInt64.zero_and]) digest_and_flag
  have hcheck : checkPages pageSize none pages = .ok () := checkPages_eq_ok.mpr ⟨hlen, hsorted⟩
  have hcarried : (pages.filter (·.pgno ≠ lockPgno pageSize)).any
      (fun p => p.pgno = 0 || commit < p.pgno) = false := by
    rw [any_eq_false]
    intro p hp hbad
    obtain ⟨hpos, hle⟩ := hpgno p (mem_of_mem_filter hp)
    rw [Bool.or_eq_true, decide_eq_true_eq, decide_eq_true_eq] at hbad
    omega
  rw [encodeSegment, if_neg (by omega), if_neg (by omega), hcheck]
  dsimp only
  rw [if_neg (hzero c), if_neg (hzero c'), if_neg (by simp [hsize, digest_and_flag]), hcarried,
    if_neg (by decide), if_neg digest_and_flag]

/-- Pages in order that turn one file into another are encoded as a segment, which is then
applied to the one and leaves the other. -/
theorem encodeSegment_reaches {c' : Checksum} {s : State} {t : Image} {minTXID maxTXID : Nat}
    {pages : List Page} (hs : s.Sound crc) (hsize : validPageSize s.image.pageSize = true)
    (hmin : 2 ≤ minTXID) (hmax : minTXID ≤ maxTXID) (htxid : s.txid = 0 ∨ minTXID = s.txid + 1)
    (hlen : ∀ p ∈ pages, p.data.length = s.image.pageSize)
    (hsorted : (pages.map (·.pgno)).Pairwise (· < ·))
    (hpgno : ∀ p ∈ pages, 0 < p.pgno ∧ p.pgno ≤ t.commit)
    (hgrow : ∀ n, s.commit < n → n ≤ t.commit → n ≠ lockPgno s.image.pageSize →
      n ∈ pages.map (·.pgno))
    (ht : ∀ n, n ≠ lockPgno s.image.pageSize → n ≤ t.commit →
      t.page? n = Image.lastWrite n (s.image.page? n) pages)
    (hpost : checksumPages crc (lockPgno s.image.pageSize) t.page? t.commit =
      some (digest crc c')) :
    ∃ seg s', encodeSegment s.image.pageSize t.commit minTXID maxTXID s.running (digest crc c')
        pages = .ok seg ∧
      checkGrowth seg.commit s.commit (lockPgno seg.pageSize) (seg.pages.map (·.pgno)) = true ∧
      applySegments crc s [seg] = .ok s' ∧ s'.image.commit = t.commit ∧
      s'.image.pageSize = s.image.pageSize ∧
      ∀ n, n ≠ lockPgno s.image.pageSize → s'.image.page? n = t.page? n := by
  obtain ⟨c, hrun, -⟩ := hs.off.sum
  have henc : encodeSegment s.image.pageSize t.commit minTXID maxTXID s.running (digest crc c')
      pages = .ok ⟨s.image.pageSize, t.commit, minTXID, maxTXID, s.running, digest crc c',
        pages.filter (·.pgno ≠ lockPgno s.image.pageSize)⟩ := by
    rw [hrun]
    exact encodeSegment_ok hmin hmax hsize hlen hsorted hpgno
  have hnodup : ((pages.filter (·.pgno ≠ lockPgno s.image.pageSize)).map (·.pgno)).Nodup :=
    (hsorted.imp fun hlt => Nat.ne_of_lt hlt).sublist (filter_sublist.map _)
  have hcarried (n : Nat) (hlo : s.commit < n) (hhi : n ≤ t.commit)
      (hne : n ≠ lockPgno s.image.pageSize) :
      n ∈ (pages.filter (·.pgno ≠ lockPgno s.image.pageSize)).map (·.pgno) := by
    obtain ⟨p, hp, rfl⟩ := mem_map.mp (hgrow n hlo hhi hne)
    exact mem_map.mpr ⟨p, mem_filter.mpr ⟨hp, decide_eq_true hne⟩, rfl⟩
  have hlast (n : Nat) (hne : n ≠ lockPgno s.image.pageSize) (hn : n ≤ t.commit) :
      t.page? n = Image.lastWrite n (s.image.page? n)
        (pages.filter (·.pgno ≠ lockPgno s.image.pageSize)) := by
    rw [ht n hne hn, Image.lastWrite_filter hne]
  obtain ⟨s', happly, hleft⟩ : ∃ s', applySegment crc true s ⟨s.image.pageSize, t.commit, minTXID,
      maxTXID, s.running, digest crc c', pages.filter (·.pgno ≠ lockPgno s.image.pageSize)⟩ =
        .ok s' ∧ s'.image.commit = t.commit ∧ s'.image.pageSize = s.image.pageSize ∧
      ∀ n, n ≠ lockPgno s.image.pageSize → s'.image.page? n = t.page? n :=
    applySegment_reaches hs (fun p hp => (hpgno p (mem_of_mem_filter hp)).1) hnodup
      (Nat.ne_of_gt hmin) (htxid.imp_left fun h => ⟨rfl, h⟩) rfl rfl hcarried rfl hlast hpost
  exact ⟨_, s', henc, checkGrowth_iff.mpr hcarried, applySegments_singleton happly, hleft⟩

end Rolling

end Offshoot
