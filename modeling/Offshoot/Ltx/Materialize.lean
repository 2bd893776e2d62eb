import Offshoot.Ltx.Stream

/-!
# Chains of objects as files

`MaterializeChain` and `ApplySegments` of `internal/ltxio/segment.go` over the bytes of a
file.  Both end in the same loop.  `MaterializeChain` enters it with the content of a snapshot
and with what the snapshot's header and trailer say of it; `ApplySegments` enters it with a
file that was materialized before, the checksum noted for it then, and the page size and page
count its own database header records.  What the loop writes does not depend on the size it
starts from, and what it returns for the checksum is what the last segment declares, so the
two agree wherever both succeed.
-/

namespace Offshoot.Materialize

open Chunks Rolling List

/-! ## Files -/

def truncate (file : List UInt8) (n : Nat) : List UInt8 :=
  file.take n ++ List.replicate (n - file.length) 0

def writeAt (file : List UInt8) (off : Nat) (data : List UInt8) : List UInt8 :=
  truncate file off ++ data ++ file.drop (off + data.length)

structure Page where
  pgno : Nat
  data : List UInt8
  deriving DecidableEq

structure Segment where
  pageSize : Nat
  commit : Nat
  minTXID : UInt64
  maxTXID : UInt64
  preApplyChecksum : UInt64
  postApplyChecksum : UInt64
  pages : List Page
  deriving DecidableEq

structure Snapshot where
  pageSize : Nat
  commit : Nat
  maxTXID : UInt64
  postApplyChecksum : UInt64
  content : List UInt8
  deriving DecidableEq

inductive Object where
  | snapshot (s : Snapshot)
  | segment (s : Segment)
  | damaged
  deriving DecidableEq

inductive Err where
  | decode
  | notASnapshot
  | notASegment
  | pageSizeMismatch
  | txidGap
  | preApplyMismatch
  | readOld (pgno : Nat)
  | uncarriedGrowth
  | readDropped (pgno : Nat)
  | postApplyMismatch
  | noSegments
  | header (e : HeaderErr)
  deriving DecidableEq

/-- The working copy and what is known of it: its page size, the txid it is at, zero if
unknown, its page count and its checksum. -/
structure State where
  file : List UInt8
  pageSize : Nat
  txid : UInt64
  commit : Nat
  running : UInt64
  deriving DecidableEq

/-! ## The loop -/

/-- What is folded out of the checksum for a page: the page as it was, if it was one of the
database. -/
def oldPage (pageSize lock prevCommit pgno : Nat) (file : List UInt8) :
    Except Err (Option (List UInt8)) :=
  if pgno ≤ prevCommit ∧ pgno ≠ lock then
    match pageAt file pageSize pgno with
    | none => .error (.readOld pgno)
    | some data => .ok (some data)
  else .ok none

def applyPage (crc : Crc (List UInt8)) (pageSize lock commit prevCommit : Nat)
    (s : List UInt8 × UInt64) (p : Page) : Except Err (List UInt8 × UInt64) := do
  let oldData ← oldPage pageSize lock prevCommit p.pgno s.1
  let newData := if p.pgno ≤ commit ∧ p.pgno ≠ lock then some p.data else none
  .ok (writeAt s.1 ((p.pgno - 1) * pageSize) p.data,
    Rolling.updateChecksum crc s.2 p.pgno oldData newData)

def dropPage (crc : Crc (List UInt8)) (pageSize : Nat) (file : List UInt8) (running : UInt64)
    (pgno : Nat) : Except Err UInt64 :=
  match pageAt file pageSize pgno with
  | none => .error (.readDropped pgno)
  | some data => .ok (Rolling.updateChecksum crc running pgno (some data) none)

def dropPages (crc : Crc (List UInt8)) (pageSize lock commit prevCommit : Nat)
    (touched : List Nat) (file : List UInt8) (running : UInt64) : Except Err UInt64 :=
  ((List.range' (commit + 1) (prevCommit - commit)).filter
    fun pgno => pgno ≠ lock && pgno ∉ touched).foldlM (dropPage crc pageSize file) running

/-- One round.  The first takes a segment at any txid if the file's is unknown. -/
def applySegment (crc : Crc (List UInt8)) (first : Bool) (s : State) (seg : Segment) :
    Except Err State :=
  if seg.minTXID = 1 then .error .notASegment
  else if seg.pageSize ≠ s.pageSize then .error .pageSizeMismatch
  else
    let prevMaxTXID := if first ∧ s.txid = 0 then seg.minTXID - 1 else s.txid
    if seg.minTXID ≠ prevMaxTXID + 1 then .error .txidGap
    else if seg.preApplyChecksum ≠ s.running then .error .preApplyMismatch
    else do
      let lock := lockPgno seg.pageSize
      let touched := seg.pages.map (·.pgno)
      let written ← seg.pages.foldlM (applyPage crc s.pageSize lock seg.commit s.commit)
        (s.file, s.running)
      if !checkGrowth seg.commit s.commit lock touched then .error .uncarriedGrowth
      else do
        let running ← dropPages crc s.pageSize lock seg.commit s.commit touched written.1 written.2
        if running ≠ seg.postApplyChecksum then .error .postApplyMismatch
        else .ok ⟨truncate written.1 (seg.commit * s.pageSize), s.pageSize, seg.maxTXID, seg.commit,
          running⟩

def decodeSegment : Object → Except Err Segment
  | .segment s => .ok s
  | .snapshot _ => .error .notASegment
  | .damaged => .error .decode

def decodeSnapshot : Object → Except Err Snapshot
  | .snapshot s => .ok s
  | .segment _ => .error .notASnapshot
  | .damaged => .error .decode

def applyObject (crc : Crc (List UInt8)) (first : Bool) (s : State) (obj : Object) :
    Except Err State := do
  let seg ← decodeSegment obj
  applySegment crc first s seg

def applyFrom (crc : Crc (List UInt8)) : Bool → State → List Object → Except Err State
  | _, s, [] => .ok s
  | first, s, obj :: objs => do
    let s ← applyObject crc first s obj
    applyFrom crc false s objs

def Snapshot.state (s : Snapshot) : State :=
  ⟨s.content, s.pageSize, s.maxTXID, s.commit, s.postApplyChecksum⟩

def materializeChain (crc : Crc (List UInt8)) (snapshot : Object) (segments : List Object) :
    Except Err State := do
  let snap ← decodeSnapshot snapshot
  applyFrom crc true snap.state segments

/-- Where `ApplySegments` starts: a file, with what its header says of it. -/
def startState (header : Nat × Nat) (start : List UInt8) (startChecksum : UInt64) : State :=
  ⟨start, header.1, 0, header.2, startChecksum⟩

def applySegments (crc : Crc (List UInt8)) (start : List UInt8) (startChecksum : UInt64)
    (segments : List Object) : Except Err State :=
  if segments = [] then .error .noSegments
  else
    match parseDBHeader start with
    | .error e => .error (.header e)
    | .ok header => applyFrom crc true (startState header start startChecksum) segments

/-! ## One round -/

variable {crc : Crc (List UInt8)} {first first' : Bool} {s s' t t' : State} {seg : Segment}
  {obj : Object} {objs : List Object}

def writePages (pageSize : Nat) (file : List UInt8) (ps : List Page) : List UInt8 :=
  ps.foldl (fun file p => writeAt file ((p.pgno - 1) * pageSize) p.data) file

theorem foldlM_applyPage_fst {pageSize lock commit prevCommit : Nat} (ps : List Page)
    {r r' : List UInt8 × UInt64}
    (h : ps.foldlM (applyPage crc pageSize lock commit prevCommit) r = .ok r') :
    r'.1 = writePages pageSize r.1 ps := by
  induction ps generalizing r with
  | nil => exact congrArg Prod.fst (Except.ok.inj h).symm
  | cons p ps ih =>
    rw [foldlM_cons, bind_eq_ok] at h
    obtain ⟨r₁, hpage, hrest⟩ := h
    rw [applyPage, bind_eq_ok] at hpage
    obtain ⟨oldData, -, hpage⟩ := hpage
    rw [ih hrest, ← Except.ok.inj hpage]
    rfl

/-- The rounds that succeed, and what they lead to. -/
theorem applySegment_eq_ok (h : applySegment crc first s seg = .ok s') : seg.pageSize = s.pageSize ∧
      s' = ⟨truncate (writePages seg.pageSize s.file seg.pages) (seg.commit * seg.pageSize),
        seg.pageSize, seg.maxTXID, seg.commit, seg.postApplyChecksum⟩ := by
  rw [applySegment, ite_error_eq_ok, ite_error_eq_ok] at h
  rw [ite_error_eq_ok, ite_error_eq_ok, not_not, not_not, not_not, bind_eq_ok] at h
  obtain ⟨-, hsize, -, -, written, hwritten, h⟩ := h
  rw [ite_error_eq_ok, bind_eq_ok] at h
  obtain ⟨-, running, -, h⟩ := h
  rw [ite_error_eq_ok, not_not] at h
  obtain ⟨hpost, h⟩ := h
  refine ⟨hsize, ?_⟩
  rw [← Except.ok.inj h, hpost, foldlM_applyPage_fst _ hwritten, hsize]

/-- Two successful rounds from one file end in one state, whatever they start out believing
of it. -/
theorem applySegment_agree (hfile : s.file = t.file) (hs : applySegment crc first s seg = .ok s')
    (ht : applySegment crc first' t seg = .ok t') : s' = t' := by
  rw [(applySegment_eq_ok hs).2, (applySegment_eq_ok ht).2, hfile]

theorem applySegment_unknown (h : applySegment crc first s seg = .ok s') :
    applySegment crc true { s with txid := 0 } seg = .ok s' := by
  rw [applySegment, ite_error_eq_ok, ite_error_eq_ok] at h ⊢
  obtain ⟨hseg, hsize, h⟩ := h
  refine ⟨hseg, hsize, ?_⟩
  rw [ite_error_eq_ok] at h
  rw [if_neg]
  · exact h.2
  · rw [if_pos ⟨rfl, rfl⟩, not_not, UInt64.sub_add_cancel]

theorem applyObject_eq_ok : applyObject crc first s obj = .ok s' ↔
    ∃ seg, decodeSegment obj = .ok seg ∧ applySegment crc first s seg = .ok s' := bind_eq_ok

theorem applyObject_agree (hfile : s.file = t.file) (hs : applyObject crc first s obj = .ok s')
    (ht : applyObject crc first' t obj = .ok t') : s' = t' := by
  obtain ⟨seg, hseg, hs⟩ := applyObject_eq_ok.mp hs
  obtain ⟨seg', hseg', ht⟩ := applyObject_eq_ok.mp ht
  cases hseg.symm.trans hseg'
  exact applySegment_agree hfile hs ht

/-! ## The whole loop -/

theorem applyFrom_cons : applyFrom crc first s (obj :: objs) = .ok s' ↔
    ∃ s₁, applyObject crc first s obj = .ok s₁ ∧ applyFrom crc false s₁ objs = .ok s' := bind_eq_ok

/-- A chain is applied in two parts.  Only a first part without any member leaves the second
to begin the loop. -/
theorem applyFrom_append {objs' : List Object} : applyFrom crc first s (objs ++ objs') = .ok s' ↔
    ∃ s₁, applyFrom crc first s objs = .ok s₁ ∧
      applyFrom crc (first && objs.isEmpty) s₁ objs' = .ok s' := by
  induction objs generalizing first s with
  | nil =>
    rw [nil_append, isEmpty_nil, Bool.and_true]
    constructor
    · intro h
      exact ⟨s, rfl, h⟩
    · rintro ⟨s₁, hs₁, h⟩
      cases hs₁
      exact h
  | cons obj objs ih =>
    rw [cons_append, applyFrom_cons, isEmpty_cons, Bool.and_false]
    constructor
    · rintro ⟨s₁, hs₁, h⟩
      obtain ⟨s₂, hs₂, h⟩ := ih.mp h
      exact ⟨s₂, applyFrom_cons.mpr ⟨s₁, hs₁, hs₂⟩, h⟩
    · rintro ⟨s₂, hs₂, h⟩
      obtain ⟨s₁, hs₁, hs₂⟩ := applyFrom_cons.mp hs₂
      exact ⟨s₁, hs₁, ih.mpr ⟨s₂, hs₂, h⟩⟩

/-- After one round the two loops are in the same state, and go on as one. -/
theorem applyFrom_agree (hne : objs ≠ []) (hfile : s.file = t.file)
    (hs : applyFrom crc first s objs = .ok s') (ht : applyFrom crc first' t objs = .ok t') :
    s' = t' := by
  cases objs with
  | nil => exact absurd rfl hne
  | cons obj objs =>
    obtain ⟨s₁, hs₁, hs⟩ := applyFrom_cons.mp hs
    obtain ⟨t₁, ht₁, ht⟩ := applyFrom_cons.mp ht
    rw [applyObject_agree hfile hs₁ ht₁] at hs
    exact Except.ok.inj (hs.symm.trans ht)

theorem applyFrom_unknown (hne : objs ≠ []) (h : applyFrom crc first s objs = .ok s') :
    applyFrom crc true { s with txid := 0 } objs = .ok s' := by
  cases objs with
  | nil => exact absurd rfl hne
  | cons obj objs =>
    obtain ⟨s₁, hs₁, h⟩ := applyFrom_cons.mp h
    obtain ⟨seg, hseg, hs₁⟩ := applyObject_eq_ok.mp hs₁
    exact applyFrom_cons.mpr ⟨s₁, applyObject_eq_ok.mpr ⟨seg, hseg, applySegment_unknown hs₁⟩, h⟩

/-! ## A chain in two parts -/

variable {snap : Object} {xs ys : List Object} {a b r : State}

theorem materializeChain_eq_ok : materializeChain crc snap xs = .ok a ↔
    ∃ sn, decodeSnapshot snap = .ok sn ∧ applyFrom crc true sn.state xs = .ok a := bind_eq_ok

/-- A chain that can be materialized can be up to each of its members, and the rest is applied
to what that gives. -/
theorem materializeChain_append : materializeChain crc snap (xs ++ ys) = .ok a ↔
    ∃ b, materializeChain crc snap xs = .ok b ∧ applyFrom crc xs.isEmpty b ys = .ok a := by
  simp only [materializeChain_eq_ok, applyFrom_append, Bool.true_and]
  constructor
  · rintro ⟨sn, hsn, b, hb, ha⟩
    exact ⟨b, ⟨sn, hsn, hb⟩, ha⟩
  · rintro ⟨b, ⟨sn, hsn, hb⟩, ha⟩
    exact ⟨sn, hsn, b, hb, ha⟩

theorem applySegments_eq_ok {start : List UInt8} {sum : UInt64} :
    applySegments crc start sum ys = .ok r ↔ ys ≠ [] ∧ ∃ header, parseDBHeader start = .ok header ∧
      applyFrom crc true (startState header start sum) ys = .ok r := by
  rw [applySegments, ite_error_eq_ok]
  refine and_congr_right fun _ => ?_
  cases parseDBHeader start with
  | error e => simp
  | ok header => simp

/-- The loop entered at a file that was materialized, with any header and any txid. -/
theorem applyFrom_rest (hys : ys ≠ []) (hall : materializeChain crc snap (xs ++ ys) = .ok a)
    (hpre : materializeChain crc snap xs = .ok b) (hfile : s.file = b.file)
    (h : applyFrom crc true s ys = .ok r) : r = a := by
  obtain ⟨b', hb', ha⟩ := materializeChain_append.mp hall
  cases hpre.symm.trans hb'
  exact applyFrom_agree hys hfile h ha

/-- A file of the first members, with the rest applied, is the file of all of them. -/
theorem applySegments_rest (hall : materializeChain crc snap (xs ++ ys) = .ok a)
    (hpre : materializeChain crc snap xs = .ok b)
    (h : applySegments crc b.file b.running ys = .ok r) : r = a := by
  obtain ⟨hys, header, -, h⟩ := applySegments_eq_ok.mp h
  have hfile : (startState header b.file b.running).file = b.file := rfl
  exact applyFrom_rest hys hall hpre hfile h

/-- They can be applied if the file's own header is right about it. -/
theorem applySegments_of_header (hys : ys ≠ [])
    (hall : materializeChain crc snap (xs ++ ys) = .ok a)
    (hpre : materializeChain crc snap xs = .ok b)
    (hheader : parseDBHeader b.file = .ok (b.pageSize, b.commit)) :
    applySegments crc b.file b.running ys = .ok a := by
  obtain ⟨b', hb', ha⟩ := materializeChain_append.mp hall
  cases hpre.symm.trans hb'
  exact applySegments_eq_ok.mpr ⟨hys, _, hheader, applyFrom_unknown hys ha⟩

end Offshoot.Materialize
