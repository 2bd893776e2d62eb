import Offshoot.Ltx.Encode
import Offshoot.Session.State

/-!
# Recording transactions

`recordApply` of `internal/session/session.go` with its checksum as a word, the page set of
`internal/session/pages.go`, and `Apply` of `internal/replay/replay.go`.  A transaction is
recorded before it is written to the replica, so what the checksum folds out is what the
replica held before it.
-/

namespace Offshoot

open List

variable {n : Nat}

open Maps

/-! ## The pages of a transaction -/

theorem lookup_foldl_insert (frames : List Page) (m : Map Nat Bytes) (n : Nat) :
    (frames.foldl (fun m f => m.insert f.pgno f.data) m).lookup n =
      Image.lastWrite n (m.lookup n) frames := by
  induction frames generalizing m with
  | nil => rfl
  | cons f frames ih =>
    rw [foldl_cons, ih]
    show _ = Image.lastWrite n (if f.pgno = n then some f.data else m.lookup n) frames
    by_cases hn : f.pgno = n
    · rw [if_pos hn, ← hn, AList.lookup_insert]
    · rw [if_neg hn, AList.lookup_insert_ne (Ne.symm hn)]

/-- What the checksum covers when the pages `ns` of a transaction have been recorded. -/
def recorded (img : Image) (txn : Txn) (ns : List Nat) (n : Nat) : Option Bytes :=
  if n = lockPgno img.pageSize then none
  else if n ∈ ns then (if n ≤ txn.commit then txn.latest.lookup n else none)
  else img.page? n

def recordPage (img : Image) (txn : Txn) (c : Checksum) (pgno : Nat) : Checksum :=
  if pgno = lockPgno img.pageSize then c
  else updateChecksum c pgno (if pgno ≤ img.commit then img.page? pgno else none)
    (if pgno ≤ txn.commit then txn.latest.lookup pgno else none)

variable {img : Image} {txn : Txn} {c : Checksum}

theorem foldl_recordPage (ns done : List Nat) (h : Covers c (recorded img txn done))
    (hns : ns.Nodup) (hdone : ∀ n ∈ ns, n ∉ done) :
    Covers (ns.foldl (recordPage img txn) c) (recorded img txn (ns ++ done)) := by
  induction ns generalizing done c with
  | nil => exact h
  | cons n ns ih =>
    obtain ⟨hnew, hns⟩ := nodup_cons.mp hns
    have hstep : Covers (recordPage img txn c n) (recorded img txn (n :: done)) := by
      by_cases hlock : n = lockPgno img.pageSize
      · rw [recordPage, if_pos hlock]
        refine h.congr fun m => ?_
        by_cases hm : m = lockPgno img.pageSize
        · rw [recorded, recorded, if_pos hm, if_pos hm]
        · have hmem : m ∈ n :: done ↔ m ∈ done := by
            rw [mem_cons]
            exact or_iff_right fun heq => hm (heq.trans hlock)
          simp only [recorded, hmem]
      · have hold : (if n ≤ img.commit then img.page? n else none) =
            recorded img txn done n := by
          rw [recorded, if_neg hlock, if_neg (hdone n mem_cons_self)]
          by_cases hle : n ≤ img.commit
          · rw [if_pos hle]
          · rw [if_neg hle, Image.page?_eq_none.mpr (.inr (by omega))]
        rw [recordPage, if_neg hlock, hold]
        refine (h.update n _).congr fun m => ?_
        by_cases hm : m = n
        · rw [hm, Function.update_self, recorded, if_neg hlock, if_pos mem_cons_self]
        have hmem : m ∈ n :: done ↔ m ∈ done := by
          rw [mem_cons]
          exact or_iff_right hm
        rw [Function.update_of_ne hm]
        simp only [recorded, hmem]
    refine (ih (n :: done) hstep hns fun m hm => ?_).congr fun m => ?_
    · rw [mem_cons, not_or]
      exact ⟨fun heq => hnew (heq ▸ hm), hdone m (mem_cons_of_mem _ hm)⟩
    · have hmem : m ∈ ns ++ n :: done ↔ m ∈ n :: ns ++ done := by
        simp only [mem_append, mem_cons]
        tauto
      simp only [recorded, hmem]

theorem pageSize_replay : (txn.replay img).pageSize = img.pageSize := Image.pageSize_writePages

theorem commit_replay : (txn.replay img).commit = txn.commit := Image.commit_truncate

theorem page?_replay (hpos : ∀ f ∈ txn.frames, 0 < f.pgno) (hn : n ≤ txn.commit)
    (hin : n ≤ img.commit ∨ n ∈ txn.frames.map (·.pgno)) :
    (txn.replay img).page? n = Image.lastWrite n (img.page? n) txn.frames := by
  have hlen : n ≤ (img.writePages txn.frames).commit := by
    rcases hin with hle | hmem
    · exact le_trans hle Image.commit_le_writePages
    · exact Image.le_commit_writePages hmem
  have hcut : (txn.replay img).page? n = (img.writePages txn.frames).page? n :=
    Image.page?_truncate hn hlen
  rw [hcut, Image.page?_writePages hpos hin]

theorem covers_replay {ns : List Nat} (hpos : ∀ f ∈ txn.frames, 0 < f.pgno)
    (hns : ∀ n, n ∈ ns ↔ n ∈ txn.frames.map (·.pgno))
    (hgrow : ∀ n, img.commit < n → n ≤ txn.commit → n ≠ lockPgno img.pageSize → n ∈ ns)
    (h : Covers c (recorded img txn ns)) :
    Covers (dropPages img txn.commit img.commit ns c) fun n =>
      if n = lockPgno img.pageSize then none else (txn.replay img).page? n := by
  have hdropped {n : Nat} : n ∈ (List.range' (txn.commit + 1) (img.commit - txn.commit)).filter
      (fun pgno => pgno ≠ lockPgno img.pageSize && pgno ∉ ns) ↔
      (txn.commit < n ∧ n ≤ img.commit) ∧ n ≠ lockPgno img.pageSize ∧ n ∉ ns := by
    rw [mem_filter, mem_range'_1, Bool.and_eq_true, decide_eq_true_eq, decide_eq_true_eq]
    exact and_congr_left fun _ => ⟨by omega, by omega⟩
  have hpast {n : Nat} (hn : txn.commit < n) : (txn.replay img).page? n = none :=
    Image.page?_eq_none.mpr (.inr (by rw [commit_replay]; exact hn))
  refine (h.dropAll _ (List.Nodup.filter _ (nodup_range' ..)) fun n hn => ?_).congr
    fun n => ?_
  · obtain ⟨-, hlock, hmem⟩ := hdropped.mp hn
    rw [recorded, if_neg hlock, if_neg hmem]
  · by_cases hlock : n = lockPgno img.pageSize
    · rw [if_neg fun hn => (hdropped.mp hn).2.1 hlock, recorded, if_pos hlock, if_pos hlock]
    rw [if_neg hlock]
    by_cases hmem : n ∈ ns
    · rw [if_neg fun hn => (hdropped.mp hn).2.2 hmem, recorded, if_neg hlock, if_pos hmem]
      by_cases hle : n ≤ txn.commit
      · rw [if_pos hle, page?_replay hpos hle (.inr ((hns n).mp hmem)), Txn.latest,
          lookup_foldl_insert, Image.lastWrite_of_mem ((hns n).mp hmem)]
      · rw [if_neg hle, hpast (by omega)]
    · -- Not in the transaction: dropped, or in the database before and after.
      by_cases hle : n ≤ txn.commit
      · have hprev : n ≤ img.commit := by
          by_contra hgt
          exact hmem (hgrow n (by omega) hle hlock)
        have hnot : n ∉ txn.frames.map (·.pgno) := fun hn => hmem ((hns n).mpr hn)
        rw [if_neg fun hn => by have := (hdropped.mp hn).1; omega, recorded, if_neg hlock,
          if_neg hmem, page?_replay hpos hle (.inl hprev), Image.lastWrite_of_not_mem hnot]
      · rw [hpast (by omega)]
        by_cases hprev : n ≤ img.commit
        · rw [if_pos (hdropped.mpr ⟨by omega, hlock, hmem⟩)]
        · rw [if_neg fun hn => hprev (hdropped.mp hn).1.2, recorded, if_neg hlock, if_neg hmem,
            Image.page?_eq_none.mpr (.inr (by omega))]

/-! ## The page set -/

def record (pages : Map Nat Bytes) (frames : List Page) : Map Nat Bytes :=
  frames.foldl (fun m f => m.insert f.pgno f.data) pages

def dropAbove (pages : Map Nat Bytes) (commit : Nat) : Map Nat Bytes :=
  keepIf (fun pgno _ => pgno ≤ commit) pages

def drain (pages : Map Nat Bytes) : List Page :=
  (pages.entries.map fun e => Page.mk e.1 e.2).insertionSort fun a b => a.pgno ≤ b.pgno

variable {pages : Map Nat Bytes} {p : Page}

theorem lookup_record {frames : List Page} :
    (record pages frames).lookup n = Image.lastWrite n (pages.lookup n) frames :=
  lookup_foldl_insert frames pages n

theorem lookup_dropAbove {commit : Nat} :
    (dropAbove pages commit).lookup n = if n ≤ commit then pages.lookup n else none := by
  rw [dropAbove, lookup_keepIf]
  by_cases hn : n ≤ commit
  · rw [if_pos hn]
    cases pages.lookup n <;> simp [hn]
  · rw [if_neg hn]
    cases pages.lookup n <;> simp [hn]

theorem mem_drain : p ∈ drain pages ↔ pages.lookup p.pgno = some p.data := by
  rw [drain, mem_insertionSort, mem_map, ← Option.mem_def, AList.mem_lookup_iff]
  constructor
  · rintro ⟨e, he, rfl⟩
    exact he
  · intro he
    exact ⟨_, he, rfl⟩

theorem mem_drain_pgno : n ∈ (drain pages).map (·.pgno) ↔ pages.lookup n ≠ none := by
  rw [mem_map]
  constructor
  · rintro ⟨p, hp, rfl⟩
    rw [mem_drain.mp hp]
    exact Option.some_ne_none _
  · intro hne
    obtain ⟨d, hd⟩ := Option.ne_none_iff_exists'.mp hne
    exact ⟨⟨n, d⟩, mem_drain.mpr hd, rfl⟩

theorem drain_sorted : ((drain pages).map (·.pgno)).Pairwise (· < ·) := by
  have : Std.Total fun a b : Page => a.pgno ≤ b.pgno := ⟨fun a b => Nat.le_total a.pgno b.pgno⟩
  have : IsTrans Page fun a b => a.pgno ≤ b.pgno := ⟨fun _ _ _ => le_trans⟩
  have hle : ((drain pages).map (·.pgno)).Pairwise (· ≤ ·) :=
    pairwise_map.mpr (pairwise_insertionSort _ _)
  have hnodup : ((drain pages).map (·.pgno)).Nodup := by
    rw [drain, ((perm_insertionSort _ _).map _).nodup_iff, map_map]
    exact pages.nodupKeys
  exact (hle.and hnodup).imp fun h => Nat.lt_of_le_of_ne h.1 h.2

/-! ## Words -/

namespace Rolling

/-- What a session keeps of the transactions since its last flush, and its replica. -/
structure Capture where
  replica : Image
  pages : Map Nat Bytes
  checksum : UInt64
  commit : Nat
  deriving DecidableEq

inductive CaptureErr where
  | readPage (pgno : Nat)
  | uncarriedGrowth
  | emptyTransaction
  | noCommitFrame
  deriving DecidableEq, Repr

def touched (frames : List Page) : List Nat :=
  frames.foldl (fun ns f => if f.pgno ∈ ns then ns else ns ++ [f.pgno]) []

def recordPage (crc : Crc Bytes) (img : Image) (txn : Txn) (running : UInt64) (pgno : Nat) :
    Except CaptureErr UInt64 :=
  if pgno = lockPgno img.pageSize then .ok running
  else
    let newData := if pgno ≤ txn.commit then txn.latest.lookup pgno else none
    if pgno ≤ img.commit then
      match img.page? pgno with
      | none => .error (.readPage pgno)
      | some oldData => .ok (updateChecksum crc running pgno (some oldData) newData)
    else .ok (updateChecksum crc running pgno none newData)

def Capture.recordApply (crc : Crc Bytes) (s : Capture) (txn : Txn) : Except CaptureErr Capture :=
  if txn.frames = [] then .ok s
  else do
    let seen := touched txn.frames
    let running ← seen.foldlM (recordPage crc s.replica txn) s.checksum
    let running := dropPages crc s.replica txn.commit s.replica.commit seen running
    if checkGrowth txn.commit s.replica.commit (lockPgno s.replica.pageSize) seen = false then
      .error .uncarriedGrowth
    else
      return { s with
        checksum := running
        commit := txn.commit
        pages := dropAbove (record s.pages txn.frames) txn.commit }

def Capture.apply (s : Capture) (txn : Txn) : Except CaptureErr Capture :=
  if txn.frames = [] then .error .emptyTransaction
  else if txn.commit = 0 then .error .noCommitFrame
  else .ok { s with replica := txn.replay s.replica }

def Capture.onApply (crc : Crc Bytes) (s : Capture) (txn : Txn) : Except CaptureErr Capture := do
  let s ← s.recordApply crc txn
  s.apply txn

variable {crc : Crc Bytes}

theorem mem_touched {frames : List Page} : n ∈ touched frames ↔ n ∈ frames.map (·.pgno) := by
  have hfold (ns : List Nat) : n ∈ frames.foldl
      (fun ns f => if f.pgno ∈ ns then ns else ns ++ [f.pgno]) ns ↔
      n ∈ ns ∨ n ∈ frames.map (·.pgno) := by
    induction frames generalizing ns with
    | nil => simp
    | cons f frames ih =>
      rw [foldl_cons, ih, map_cons, mem_cons]
      by_cases hf : f.pgno ∈ ns
      · rw [if_pos hf]
        constructor
        · exact fun h => h.imp_right .inr
        · rintro (h | rfl | h)
          · exact .inl h
          · exact .inl hf
          · exact .inr h
      · rw [if_neg hf, mem_append, mem_singleton, or_assoc]
  rw [touched, hfold]
  simp

theorem nodup_touched {frames : List Page} : (touched frames).Nodup := by
  have hfold (ns : List Nat) (h : ns.Nodup) : (frames.foldl
      (fun ns f => if f.pgno ∈ ns then ns else ns ++ [f.pgno]) ns).Nodup := by
    induction frames generalizing ns with
    | nil => exact h
    | cons f frames ih =>
      rw [foldl_cons]
      refine ih _ ?_
      by_cases hf : f.pgno ∈ ns
      · rw [if_pos hf]
        exact h
      · rw [if_neg hf]
        exact nodup_append.mpr ⟨h, nodup_singleton _, fun a ha b hb heq => by
          rw [mem_singleton] at hb
          exact hf (hb ▸ heq ▸ ha)⟩
  exact hfold [] nodup_nil

theorem recordPage_of : recordPage crc img txn (digest crc c) n =
      if n = 0 then .error (.readPage 0)
      else .ok (digest crc (Offshoot.recordPage img txn c n)) := by
  rw [recordPage, Offshoot.recordPage]
  by_cases h0 : n = 0
  · have hlock : 0 ≠ lockPgno img.pageSize := (Nat.succ_ne_zero _).symm
    rw [if_pos h0, h0, if_neg hlock, if_pos (Nat.zero_le _), Image.page?_zero]
  · rw [if_neg h0]
    by_cases hlock : n = lockPgno img.pageSize
    · rw [if_pos hlock, if_pos hlock]
    rw [if_neg hlock, if_neg hlock, ← updateChecksum_digest]
    by_cases hle : n ≤ img.commit
    · obtain ⟨d, hd⟩ := Option.isSome_iff_exists.mp (Image.page?_isSome.mpr ⟨by omega, hle⟩)
      rw [if_pos hle, if_pos hle, hd]
    · rw [if_neg hle, if_neg hle]

theorem foldlM_recordPage {ns : List Nat} {running : UInt64} :
    ns.foldlM (recordPage crc img txn) (digest crc c) = .ok running ↔
      (∀ n ∈ ns, 0 < n) ∧ running = digest crc (ns.foldl (Offshoot.recordPage img txn) c) := by
  induction ns generalizing c with
  | nil =>
    constructor
    · exact fun h => ⟨by simp, (Except.ok.inj h).symm⟩
    · exact fun h => congrArg _ h.2.symm
  | cons n ns ih =>
    rw [foldlM_cons, recordPage_of, forall_mem_cons, foldl_cons]
    by_cases h0 : n = 0
    · rw [if_pos h0]
      constructor
      · intro h
        cases h
      · intro h
        omega
    · rw [if_neg h0, and_assoc, and_iff_right (by omega : 0 < n)]
      exact ih

theorem Capture.recordApply_eq_ok {s s' : Capture} (hne : txn.frames ≠ [])
    (hc : s.checksum = digest crc c) :
    s.recordApply crc txn = .ok s' ↔ (∀ f ∈ txn.frames, 0 < f.pgno) ∧
      checkGrowth txn.commit s.replica.commit (lockPgno s.replica.pageSize)
        (touched txn.frames) = true ∧
      s' = ⟨s.replica, dropAbove (record s.pages txn.frames) txn.commit,
        digest crc (Offshoot.dropPages s.replica txn.commit s.replica.commit (touched txn.frames)
          ((touched txn.frames).foldl (Offshoot.recordPage s.replica txn) c)), txn.commit⟩ := by
  rw [Capture.recordApply, if_neg hne, hc, bind_eq_ok]
  have hpos : (∀ n ∈ touched txn.frames, 0 < n) ↔ ∀ f ∈ txn.frames, 0 < f.pgno := by
    simp only [mem_touched, forall_mem_map]
  simp only [foldlM_recordPage, hpos, ite_error_eq_ok, Bool.not_eq_false]
  constructor
  · rintro ⟨running, ⟨hframes, rfl⟩, hgrow, h⟩
    rw [dropPages_digest] at h
    exact ⟨hframes, hgrow, (Except.ok.inj h).symm⟩
  · rintro ⟨hframes, hgrow, rfl⟩
    refine ⟨_, ⟨hframes, rfl⟩, hgrow, ?_⟩
    rw [dropPages_digest]
    rfl

/-- What the session knows of its replica and of what has changed in it since `base`. -/
structure Capture.Tracks (crc : Crc Bytes) (base : Image) (s : Capture) : Prop where
  pageSize : s.replica.pageSize = base.pageSize
  sum : ∃ c, s.checksum = digest crc c ∧
    Covers c fun n => if n = lockPgno base.pageSize then none else s.replica.page? n
  data : ∀ n d, s.pages.lookup n = some d → s.replica.page? n = some d ∧ d.length = base.pageSize
  rest : ∀ n, n ≠ lockPgno base.pageSize → n ≤ s.replica.commit → s.pages.lookup n = none →
    n ≤ base.commit ∧ s.replica.page? n = base.page? n

variable {base : Image} {s s' : Capture}

theorem Capture.Tracks.onApply (h : s.Tracks crc base)
    (hlen : ∀ f ∈ txn.frames, f.data.length = base.pageSize) (hok : s.onApply crc txn = .ok s') :
    s'.Tracks crc base ∧ s'.commit = s'.replica.commit := by
  obtain ⟨c, hc, hcovers⟩ := h.sum
  rw [Capture.onApply, bind_eq_ok] at hok
  obtain ⟨s₁, hrecord, happly⟩ := hok
  rw [Capture.apply, ite_error_eq_ok, ite_error_eq_ok] at happly
  obtain ⟨hne, -, happly⟩ := happly
  obtain ⟨hpos, hgrow, rfl⟩ := (Capture.recordApply_eq_ok hne hc).mp hrecord
  cases happly
  rw [h.pageSize] at hgrow
  have hgrow := checkGrowth_iff.mp hgrow
  have hpage {n : Nat} (hlock : n ≠ lockPgno base.pageSize) (hn : n ≤ txn.commit) :
      (n ≤ s.replica.commit ∨ n ∈ txn.frames.map (·.pgno)) := by
    by_cases hle : n ≤ s.replica.commit
    · exact .inl hle
    · exact .inr (mem_touched.mp (hgrow n (by omega) hn hlock))
  refine ⟨⟨pageSize_replay.trans h.pageSize, ⟨_, rfl, ?_⟩, fun n d hd => ?_,
    fun n hlock hn hnone => ?_⟩, commit_replay.symm⟩
  · have hstart : Covers c (recorded s.replica txn []) := hcovers.congr fun n => by
      rw [recorded, h.pageSize, if_neg not_mem_nil]
    have hall := foldl_recordPage (touched txn.frames) [] hstart nodup_touched
      fun n _ => not_mem_nil
    rw [append_nil] at hall
    refine (covers_replay hpos (fun n => mem_touched) ?_ hall).congr fun n => ?_
    · rw [h.pageSize]
      exact hgrow
    · rw [h.pageSize]
  · rw [lookup_dropAbove] at hd
    split at hd
    · rename_i hle
      rw [lookup_record] at hd
      by_cases hmem : n ∈ txn.frames.map (·.pgno)
      · obtain ⟨f, hf, -, hlast⟩ := Image.lastWrite_mem (x := s.pages.lookup n) hmem
        rw [hd] at hlast
        cases hlast
        refine ⟨?_, hlen f hf⟩
        rw [page?_replay hpos hle (.inr hmem), ← hd]
        exact Image.lastWrite_of_mem hmem
      · rw [Image.lastWrite_of_not_mem hmem] at hd
        obtain ⟨hold, hlen'⟩ := h.data n d hd
        refine ⟨?_, hlen'⟩
        have hin := (Image.page?_isSome.mp (Option.isSome_of_eq_some hold)).2
        rw [page?_replay hpos hle (.inl hin), Image.lastWrite_of_not_mem hmem, hold]
    · cases hd
  · rw [commit_replay] at hn
    rw [lookup_dropAbove, if_pos hn, lookup_record] at hnone
    have hmem : n ∉ txn.frames.map (·.pgno) := fun hmem => by
      obtain ⟨f, -, -, hlast⟩ := Image.lastWrite_mem (x := s.pages.lookup n) hmem
      rw [hnone] at hlast
      cases hlast
    rw [Image.lastWrite_of_not_mem hmem] at hnone
    have hin := (hpage hlock hn).resolve_right hmem
    obtain ⟨hbase, hsame⟩ := h.rest n hlock hin hnone
    rw [page?_replay hpos hn (.inl hin), Image.lastWrite_of_not_mem hmem]
    exact ⟨hbase, hsame⟩

theorem Capture.Tracks.run {txns : List Txn} (h : s.Tracks crc base)
    (hlen : ∀ txn ∈ txns, ∀ f ∈ txn.frames, f.data.length = base.pageSize)
    (hok : txns.foldlM (Capture.onApply crc) s = .ok s') :
    s'.Tracks crc base ∧ (txns ≠ [] → s'.commit = s'.replica.commit) := by
  induction txns generalizing s with
  | nil =>
    cases hok
    exact ⟨h, fun hne => absurd rfl hne⟩
  | cons txn txns ih =>
    rw [foldlM_cons, bind_eq_ok] at hok
    obtain ⟨s₁, hfirst, hrest⟩ := hok
    obtain ⟨h₁, hcommit⟩ := h.onApply (hlen txn mem_cons_self) hfirst
    obtain ⟨h', hcommit'⟩ := ih h₁ (fun t ht => hlen t (mem_cons_of_mem _ ht)) hrest
    refine ⟨h', fun _ => ?_⟩
    cases txns with
    | nil =>
      cases hrest
      exact hcommit
    | cons t ts => exact hcommit' (cons_ne_nil _ _)

theorem Capture.Tracks.start {checksum : UInt64} {commit : Nat}
    (hsum : checksumPages crc (lockPgno base.pageSize) base.page? base.commit = some checksum) :
    Capture.Tracks crc base ⟨base, ∅, checksum, commit⟩ where
  pageSize := rfl
  sum := covers_checksumPages hsum
  data := fun n d hd => by cases hd
  rest := fun n _ hn _ => ⟨hn, rfl⟩

/-- Written over the base, the pages that wait to be flushed give the replica. -/
theorem Capture.Tracks.lastWrite (h : s.Tracks crc base) (hlock : n ≠ lockPgno base.pageSize)
    (hn : n ≤ s.replica.commit) :
    s.replica.page? n = Image.lastWrite n (base.page? n) (drain s.pages) := by
  cases hd : s.pages.lookup n with
  | none =>
    have hmem : n ∉ (drain s.pages).map (·.pgno) := fun hmem => mem_drain_pgno.mp hmem hd
    rw [Image.lastWrite_of_not_mem hmem]
    exact (h.rest n hlock hn hd).2
  | some d =>
    have hp : Page.mk n d ∈ drain s.pages := mem_drain.mpr hd
    rw [Image.lastWrite_of_nodup (drain_sorted.imp fun hlt => Nat.ne_of_lt hlt) hp]
    exact (h.data n d hd).1

/-- What transactions leave to be flushed is one segment: it is encoded, applies to the file
before the first transaction and gives the replica; and the checksum is the replica's. -/
theorem captured_segment {txns : List Txn} {checksum : UInt64} {commit txid minTXID maxTXID : Nat}
    (hsize : validPageSize base.pageSize = true)
    (hsum : checksumPages crc (lockPgno base.pageSize) base.page? base.commit = some checksum)
    (hlen : ∀ txn ∈ txns, ∀ f ∈ txn.frames, f.data.length = base.pageSize) (hne : txns ≠ [])
    (hok : txns.foldlM (Capture.onApply crc) ⟨base, ∅, checksum, commit⟩ = .ok s)
    (hmin : 2 ≤ minTXID) (hmax : minTXID ≤ maxTXID) (htxid : txid = 0 ∨ minTXID = txid + 1) :
    (∃ seg s', encodeSegment base.pageSize s.commit minTXID maxTXID checksum s.checksum
        (drain s.pages) = .ok seg ∧
      checkGrowth seg.commit base.commit (lockPgno seg.pageSize) (seg.pages.map (·.pgno)) = true ∧
      applySegments crc ⟨base, txid, base.commit, checksum⟩ [seg] = .ok s' ∧
      s'.image.commit = s.replica.commit ∧ s'.image.pageSize = base.pageSize ∧
      ∀ n, n ≠ lockPgno base.pageSize → s'.image.page? n = s.replica.page? n) ∧
    checksumPages crc (lockPgno s.replica.pageSize) s.replica.page? s.replica.commit =
      some s.checksum := by
  obtain ⟨h, hcommit⟩ := (Capture.Tracks.start hsum).run hlen hok
  obtain ⟨c', hrun, hcovers⟩ := h.sum
  have hpost : checksumPages crc (lockPgno base.pageSize) s.replica.page? s.replica.commit =
      some (digest crc c') := checksumPages_image hcovers
  rw [hcommit hne, hrun, h.pageSize]
  refine ⟨?_, hpost⟩
  have hs : State.Sound crc ⟨base, txid, base.commit, checksum⟩ := ⟨Nat.le_refl _, hsum⟩
  refine encodeSegment_reaches hs hsize hmin hmax htxid (fun p hp => ?_) drain_sorted
    (fun p hp => ?_) (fun n hlo hhi hlock => ?_) (fun n hlock hn => h.lastWrite hlock hn) hpost
  · exact (h.data _ _ (mem_drain.mp hp)).2
  · have hd := (h.data _ _ (mem_drain.mp hp)).1
    exact Image.page?_isSome.mp (Option.isSome_of_eq_some hd)
  · refine mem_drain_pgno.mpr fun hnone => ?_
    have hle : n ≤ base.commit := (h.rest n hlock hhi hnone).1
    exact absurd hle (Nat.not_le.mpr hlo)

def regrown : List Txn :=
  [⟨[⟨2, ⟨512, 2⟩⟩, ⟨3, ⟨512, 4⟩⟩, ⟨2, ⟨512, 6⟩⟩], 3⟩, ⟨[⟨1, ⟨512, 7⟩⟩, ⟨3, ⟨512, 5⟩⟩], 1⟩,
    ⟨[⟨2, ⟨512, 3⟩⟩], 2⟩]

theorem captured_segment_regrown :
    (regrown.foldlM (Capture.onApply valueCrc) ⟨onePage.image, ∅, onePage.running, 0⟩).map
        (fun s => (s.replica, drain s.pages, s.checksum, s.commit)) =
      .ok (⟨512, [⟨512, 7⟩, ⟨512, 3⟩]⟩, [⟨1, ⟨512, 7⟩⟩, ⟨2, ⟨512, 3⟩⟩],
        checksumFlag ||| (7 ^^^ (3 + 16)), 2) ∧
    ∃ s, regrown.foldlM (Capture.onApply valueCrc) ⟨onePage.image, ∅, onePage.running, 0⟩ =
        .ok s ∧
      checksumPages valueCrc (lockPgno s.replica.pageSize) s.replica.page? s.replica.commit =
        some s.checksum := by
  refine ⟨by decide, ?_⟩
  have hok : (regrown.foldlM (Capture.onApply valueCrc)
      ⟨onePage.image, ∅, onePage.running, 0⟩).isOk = true := by decide
  obtain ⟨s, hs⟩ : ∃ s, regrown.foldlM (Capture.onApply valueCrc)
      ⟨onePage.image, ∅, onePage.running, 0⟩ = .ok s := by
    cases h : regrown.foldlM (Capture.onApply valueCrc) ⟨onePage.image, ∅, onePage.running, 0⟩ with
    | error e =>
      rw [h] at hok
      cases hok
    | ok s => exact ⟨s, rfl⟩
  have hmin : 2 ≤ 8 := by decide
  exact ⟨s, hs, (captured_segment (by decide) (by decide) (by decide) (by decide) hs hmin
    (Nat.le_refl 8) (.inl rfl)).2⟩

/-! ## Sessions whose checksums are sets -/

/-- What a session keeps, with its checksum as a word. -/
def Capture.of (crc : Crc Bytes) (img : Image) (s : Session) : Capture :=
  ⟨img, s.pages, digest crc s.checksum, s.commit⟩

theorem mem_keys_latest : n ∈ txn.latest.keys ↔ n ∈ txn.frames.map (·.pgno) := by
  rw [← AList.mem_keys, ← AList.lookup_isSome, Txn.latest, lookup_foldl_insert, AList.lookup_empty]
  constructor
  · intro hsome
    by_contra hmem
    rw [Image.lastWrite_of_not_mem hmem] at hsome
    cases hsome
  · intro hmem
    obtain ⟨f, -, -, hlast⟩ := Image.lastWrite_mem (x := none) hmem
    rw [hlast]
    rfl

theorem nextChecksum_eq {s : Session} : s.nextChecksum img txn =
    Offshoot.dropPages img txn.commit img.commit txn.latest.keys
      (txn.latest.keys.foldl (Offshoot.recordPage img txn) s.checksum) := by
  rw [Session.nextChecksum, AList.keys, List.keys, foldl_map]
  congr 1
  refine foldl_ext _ _ _ fun c e he => ?_
  rw [Offshoot.recordPage, AList.mem_lookup_iff.mpr he]

/-- The pages of a transaction, folded in once each, make the checksum cover its outcome. -/
theorem covers_recorded {ns : List Nat}
    (hsum : Covers c fun n => if n = lockPgno img.pageSize then none else img.page? n)
    (hpos : ∀ f ∈ txn.frames, 0 < f.pgno)
    (hgrow : checkGrowth txn.commit img.commit (lockPgno img.pageSize) txn.latest.keys = true)
    (hnodup : ns.Nodup) (hns : ∀ n, n ∈ ns ↔ n ∈ txn.frames.map (·.pgno)) :
    Covers (Offshoot.dropPages img txn.commit img.commit ns
      (ns.foldl (Offshoot.recordPage img txn) c)) fun n =>
        if n = lockPgno img.pageSize then none else (txn.replay img).page? n := by
  have hstart : Covers c (recorded img txn []) := hsum.congr fun n => by
    rw [recorded, if_neg not_mem_nil]
  have hall := foldl_recordPage ns [] hstart hnodup fun n _ => not_mem_nil
  rw [append_nil] at hall
  refine covers_replay hpos hns (fun n hlo hhi hlock => ?_) hall
  exact (hns n).mpr (mem_keys_latest.mp (checkGrowth_iff.mp hgrow n hlo hhi hlock))

theorem Capture.onApply_of (crc : Crc Bytes) {s s' : Session} (hreplica : s.replica = some img)
    (hsum : Covers s.checksum fun n => if n = lockPgno img.pageSize then none else img.page? n)
    (hpos : ∀ f ∈ txn.frames, 0 < f.pgno) (h : s.recordApply txn = some s') :
    (Capture.of crc img s).onApply crc txn = .ok (.of crc (txn.replay img) s') ∧
      s'.replica = some (txn.replay img) ∧ Covers s'.checksum fun n =>
        if n = lockPgno img.pageSize then none else (txn.replay img).page? n := by
  rw [Session.recordApply, hreplica] at h
  rw [Option.ite_none_left_eq_some, Option.ite_none_left_eq_some, not_or, Bool.not_eq_true',
    Bool.not_eq_false] at h
  obtain ⟨⟨hne, hzero⟩, hgrow, h⟩ := h
  have hcovers := covers_recorded hsum hpos hgrow (AList.keys_nodup _) fun n => mem_keys_latest
  -- Both checksums cover the replica after the transaction, so they are the same.
  have hsame := (covers_recorded hsum hpos hgrow nodup_touched fun n => mem_touched).unique hcovers
  have hcarried := checkGrowth_iff.mpr fun n hlo hhi hlock =>
    (mem_touched.trans mem_keys_latest.symm).mpr (checkGrowth_iff.mp hgrow n hlo hhi hlock)
  have hrecord : (Capture.of crc img s).recordApply crc txn =
      .ok ⟨img, dropAbove (record s.pages txn.frames) txn.commit,
        digest crc (s.nextChecksum img txn), txn.commit⟩ := by
    rw [nextChecksum_eq, ← hsame]
    exact (Capture.recordApply_eq_ok hne rfl).mpr ⟨hpos, hcarried, rfl⟩
  rw [← nextChecksum_eq] at hcovers
  rw [Capture.onApply, bind_eq_ok, ← Option.some.inj h]
  refine ⟨⟨_, hrecord, ?_⟩, rfl, hcovers⟩
  rw [Capture.apply, if_neg hne, if_neg hzero]
  rfl

/-- What a session records with sets it records with words, over any number of transactions:
its word is the digest of a set that covers the pages of its replica. -/
theorem Capture.records_of {s s' : Session} {txns : List Txn} (hreplica : s.replica = some img)
    (hsum : Covers s.checksum fun n => if n = lockPgno img.pageSize then none else img.page? n)
    (hpos : ∀ txn ∈ txns, ∀ f ∈ txn.frames, 0 < f.pgno)
    (h : txns.foldlM Session.recordApply s = some s') :
    ∃ img', s'.replica = some img' ∧
      txns.foldlM (Capture.onApply crc) (.of crc img s) = .ok (.of crc img' s') ∧
      Covers s'.checksum fun n => if n = lockPgno img.pageSize then none else img'.page? n := by
  induction txns generalizing s img with
  | nil =>
    cases h
    exact ⟨img, hreplica, rfl, hsum⟩
  | cons txn txns ih =>
    obtain ⟨s₁, hs₁, h⟩ := Option.bind_eq_some_iff.mp h
    obtain ⟨hone, hreplica₁, hsum₁⟩ := onApply_of crc hreplica hsum (hpos txn mem_cons_self) hs₁
    have hsize : (txn.replay img).pageSize = img.pageSize := pageSize_replay
    rw [← hsize] at hsum₁
    obtain ⟨img', hreplica', hrest, hsum'⟩ := ih hreplica₁ hsum₁
      (fun t ht => hpos t (mem_cons_of_mem _ ht)) h
    refine ⟨img', hreplica', ?_, hsize ▸ hsum'⟩
    rw [foldlM_cons, hone]
    exact hrest

theorem Capture.records_of_regrown :
    let s : Session := { Session.empty with replica := some ⟨512, []⟩ }
    ∃ s' img', (⟨[⟨1, ⟨512, 9⟩⟩], 1⟩ :: regrown).foldlM Session.recordApply s = some s' ∧
      (⟨[⟨1, ⟨512, 9⟩⟩], 1⟩ :: regrown).foldlM (Capture.onApply valueCrc)
        (.of valueCrc ⟨512, []⟩ s) = .ok (.of valueCrc img' s') := by
  intro s
  obtain ⟨s', hs'⟩ : ∃ s', (⟨[⟨1, ⟨512, 9⟩⟩], 1⟩ :: regrown).foldlM Session.recordApply s =
      some s' := Option.isSome_iff_exists.mp (by decide)
  have hpage (n : Nat) : Image.page? ⟨512, []⟩ n = none :=
    Image.page?_eq_none.mpr (Nat.eq_zero_or_pos n)
  have hcovers : Covers s.checksum fun n =>
      if n = lockPgno 512 then none else Image.page? ⟨512, []⟩ n := fun n d => by
    simp [s, Session.empty, hpage]
  obtain ⟨img', -, hfold, -⟩ := records_of rfl hcovers (by decide) hs'
  exact ⟨s', img', hs', hfold⟩

end Rolling

end Offshoot
