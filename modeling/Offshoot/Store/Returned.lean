import Offshoot.Store.Wire

/-!
# Refs that are handed out

`AcquireLeaseRefIf` of `internal/store/lease.go` and `commitCheckpoint` of
`internal/ops/checkpoint_lease.go` return the ref they wrote without reading it again.  It is what
a later read returns.
-/

namespace Offshoot.Wire

variable {r : Ref}

open Json

structure Lease where
  holder : String
  epoch : UInt64
  expiry : Int

inductive ReadError
  | notFound
  | failed
  | decode (e : DecodeError)

def ReadError.gone : ReadError → Bool
  | .notFound => true
  | _ => false

def getRef : Except ReadError Json → Except ReadError Ref
  | .error e => .error e
  | .ok doc =>
    match decodeRef doc with
    | .error e => .error (.decode e)
    | .ok r => .ok r

inductive AcquireError
  | unnamed
  | read (e : ReadError)
  | refused
  | reaping
  | deleting
  | held
  | put

section Acquire

variable (parse : String → Option Int) (format : Int → String)

def parseExpiry (s : String) : Option Int := if s = "" then none else parse s

def leaseLive (r : Ref) (now : Int) : Bool :=
  match parseExpiry parse r.leaseExpiry with
  | some exp => r.leaseHolder != "" && now < exp
  | none => false

def leased (r : Ref) (holder : String) (ttl now : Int) : Ref :=
  { r with
    epoch := if leaseLive parse r now then r.epoch else r.epoch + 1
    leaseHolder := holder
    leaseExpiry := format (now + ttl) }

/-- `AcquireLeaseRefIf` once it has read the ref.  `swapped` tells whether the write went
through. -/
def acquireOn (holder : String) (ttl now : Int) (check : Ref → Bool) (swapped : Bool) (ref : Ref) :
    Except AcquireError (Lease × Ref × Json) :=
  if !check ref then .error .refused
  else if ref.reaping then .error .reaping
  else if ref.deleting then .error .deleting
  else if leaseLive parse ref now && ref.leaseHolder != holder then .error .held
  else if !swapped then .error .put
  else
    let next := leased parse format ref holder ttl now
    -- `PutRef` encodes a copy; the same is done to the ref that is returned.
    .ok (⟨holder, next.epoch, now + ttl⟩, prepare next, putRef next)

/-- `AcquireLeaseRefIf`.  It returns the lease and the ref; the document it wrote stands beside
them. -/
def acquireLeaseRefIf (answer : Except ReadError Json) (holder : String) (ttl now : Int)
    (check : Ref → Bool) (swapped : Bool) : Except AcquireError (Lease × Ref × Json) :=
  if holder = "" then .error .unnamed
  else ((getRef answer).mapError .read).bind (acquireOn parse format holder ttl now check swapped)

end Acquire

theorem complete_prepare (r : Ref) : Complete (prepare r) := by
  refine ⟨rfl, ?_⟩
  show (if r.headEpoch = 0 then r.epoch else r.headEpoch) = 0 → r.epoch = 0
  intro hzero
  by_cases hhead : r.headEpoch = 0
  · rw [if_pos hhead] at hzero
    exact hzero
  · rw [if_neg hhead] at hzero
    exact absurd hzero hhead

theorem putRef_prepare (r : Ref) : putRef (prepare r) = putRef r :=
  congrArg Ref.marshal (complete_prepare r).prepare

theorem acquireOn_eq_ok {parse : String → Option Int} {format : Int → String} {holder : String}
    {ttl now : Int} {check : Ref → Bool} {swapped : Bool} {ref : Ref} {lease : Lease} {doc : Json}
    (h : acquireOn parse format holder ttl now check swapped ref = .ok (lease, r, doc)) :
    Complete r ∧ doc = putRef r := by
  rw [acquireOn] at h
  -- Every branch but the last returns an error.
  split at h
  · cases h
  split at h
  · cases h
  split at h
  · cases h
  split at h
  · cases h
  split at h
  · cases h
  cases h
  exact ⟨complete_prepare _, (putRef_prepare _).symm⟩

theorem acquireLeaseRefIf_eq_ok {parse : String → Option Int} {format : Int → String}
    {answer : Except ReadError Json} {holder : String} {ttl now : Int} {check : Ref → Bool}
    {swapped : Bool} {lease : Lease} {doc : Json}
    (h : acquireLeaseRefIf parse format answer holder ttl now check swapped = .ok (lease, r, doc)) :
    Complete r ∧ doc = putRef r := by
  rw [acquireLeaseRefIf] at h
  split at h
  · cases h
  cases hread : getRef answer with
  | error e =>
    rw [hread] at h
    cases h
  | ok ref =>
    rw [hread] at h
    exact acquireOn_eq_ok h

structure CheckpointCommit where
  name : String
  metadata : GoMap String
  kind : String
  lease : Lease
  lineage : String
  txid : UInt64

namespace CheckpointCommit

variable (c : CheckpointCommit)

/-- Our holder and epoch, our lineage, and the head one below ours. -/
def ours (cur : Ref) : Bool :=
  cur.leaseHolder == c.lease.holder && cur.epoch == c.lease.epoch && cur.lineage == c.lineage &&
    cur.headTXID == c.txid - 1

def premise (cur : Ref) : Bool := c.ours cur && !cur.deleting && !cur.reaping

def headUnderOurEpoch (cur : Ref) : Bool :=
  cur.lineage == c.lineage && cur.headEpoch == c.lease.epoch && decide (cur.headTXID ≥ c.txid)

def landed (cur : Ref) : Bool :=
  match (cur.checkpoints.getD ∅).lookup c.name with
  | none => false
  | some cp => cur.lineage == c.lineage && cp.txid == c.txid && cp.epoch == c.lease.epoch

def unreferenced (cur : Ref) : Bool :=
  cur.lineage == c.lineage && decide (cur.headTXID < c.txid)

/-- The ref with the head moved, the checkpoint recorded and the lease released.  `createdAt` and
`touchedAt` are the stamps. -/
def advance (cur : Ref) (createdAt touchedAt : String) : Ref :=
  let next : Ref := { cur with headTXID := c.txid, headEpoch := c.lease.epoch }
  let next := next.setCheckpoint c.name ⟨c.txid, c.lease.epoch, createdAt, c.metadata, c.kind⟩
  { next with leaseHolder := "", leaseExpiry := "", touchedAt := touchedAt }

end CheckpointCommit

inductive Written
  | ok
  | cas
  | failed

structure Round where
  read : Except ReadError Json
  written : Written
  createdAt : String
  touchedAt : String

inductive CommitError
  | unconfirmed
  | mayHaveCommitted
  | headKept
  | lostTo
  | claimedAfterWrite
  | exhausted

/-- What a round does with the ref it has read: end with an error and whether the object may be
deleted, end with the ref it found, or go on to write. -/
inductive Verdict
  | fail (e : CommitError) (deletable : Bool)
  | landed (cur : Ref)
  | write (cur : Ref)

def CheckpointCommit.judge (c : CheckpointCommit) (attempts : Nat) : Except ReadError Ref → Verdict
  | .error e =>
    if attempts = 0 || e.gone then .fail .unconfirmed (attempts == 0)
    else .fail .mayHaveCommitted false
  | .ok cur =>
    if attempts > 0 && c.landed cur then .landed cur
    else if c.premise cur then .write cur
    else if attempts = 0 && c.headUnderOurEpoch cur then .fail .headKept false
    else if attempts = 0 then .fail .lostTo true
    else if c.ours cur then .fail .claimedAfterWrite false
    else if c.unreferenced cur then .fail .lostTo true
    else .fail .mayHaveCommitted false

def checkpointCommitAttempts : Nat := 3

abbrev Committed := Except (CommitError × Bool) (Ref × Except ReadError Json)

def Verdict.elseWrite (read : Except ReadError Json) (write : Ref → Committed) : Verdict → Committed
  | .fail e deletable => .error (e, deletable)
  | .landed cur => .ok (cur, read)
  | .write cur => write cur

/-- The loop of `commitCheckpoint` with so many attempts left.  It returns the ref; the document
that holds it stands beside it. -/
def CheckpointCommit.commitFrom (c : CheckpointCommit) (rounds : Nat → Round) :
    Nat → Bool → Committed
  | 0, unsettled =>
    let round := rounds checkpointCommitAttempts
    (c.judge checkpointCommitAttempts (getRef round.read)).elseWrite round.read fun _ =>
      .error (if unsettled then .mayHaveCommitted else .exhausted, false)
  | left + 1, unsettled =>
    let attempts := checkpointCommitAttempts - (left + 1)
    let round := rounds attempts
    (c.judge attempts (getRef round.read)).elseWrite round.read fun cur =>
      let next := c.advance cur round.createdAt round.touchedAt
      match round.written with
      | .ok => .ok (next, .ok (putRef next))
      | .cas => CheckpointCommit.commitFrom c rounds left unsettled
      | .failed => CheckpointCommit.commitFrom c rounds left true

def CheckpointCommit.commitCheckpoint (c : CheckpointCommit) (rounds : Nat → Round) : Committed :=
  c.commitFrom rounds checkpointCommitAttempts false

theorem getRef_eq_ok {answer : Except ReadError Json} (h : getRef answer = .ok r) :
    ∃ doc, answer = .ok doc ∧ decodeRef doc = .ok r := by
  cases answer with
  | error e => cases h
  | ok doc =>
    refine ⟨doc, rfl, ?_⟩
    rw [getRef] at h
    cases hdoc : decodeRef doc with
    | error e =>
      rw [hdoc] at h
      cases h
    | ok r' =>
      rw [hdoc] at h
      cases h
      rfl

/-- A round writes or ends well only with the ref it has read; it writes only on its premise. -/
theorem CheckpointCommit.judge_spec (c : CheckpointCommit) (attempts : Nat)
    (read : Except ReadError Ref) :
    (∀ cur, c.judge attempts read = .landed cur → read = .ok cur) ∧
      (∀ cur, c.judge attempts read = .write cur → read = .ok cur ∧ c.premise cur = true) := by
  cases read with
  | error e =>
    rw [judge]
    constructor <;> intro cur h <;> split at h <;> cases h
  | ok cur' =>
    rw [judge]
    constructor
    · intro cur h
      split at h
      · cases h
        rfl
      · repeat' split at h
        all_goals cases h
    · intro cur h
      split at h
      · cases h
      split at h
      · rename_i hpremise
        cases h
        exact ⟨rfl, hpremise⟩
      · repeat' split at h
        all_goals cases h

variable {c : CheckpointCommit}

theorem CheckpointCommit.premise_epoch {cur : Ref} (h : c.premise cur = true) :
    cur.epoch = c.lease.epoch := by
  simp only [premise, ours, Bool.and_eq_true, beq_iff_eq] at h
  exact h.1.1.1.1.2

/-- The ref a commit writes is complete: its head stands under the epoch of the lease, which is
that of the ref. -/
theorem CheckpointCommit.complete_advance {cur : Ref} (h : Complete cur)
    (hpremise : c.premise cur = true) (createdAt touchedAt : String) :
    Complete (c.advance cur createdAt touchedAt) :=
  ⟨h.schema, fun hzero => (premise_epoch hpremise).trans hzero⟩

def Holds (stored : Except ReadError Json) (r : Ref) : Prop :=
  ∃ doc, stored = .ok doc ∧ (decodeRef doc = .ok r ∨ (Complete r ∧ doc = putRef r))

variable {stored : Except ReadError Json}

theorem CheckpointCommit.elseWrite_eq_ok {c : CheckpointCommit} {attempts : Nat}
    {read : Except ReadError Json} {write : Ref → Committed}
    (h : (c.judge attempts (getRef read)).elseWrite read write = .ok (r, stored))
    (hwrite : ∀ cur, Complete cur → c.premise cur = true → write cur = .ok (r, stored) →
      Holds stored r) : Holds stored r := by
  obtain ⟨hlanded, hgo⟩ := c.judge_spec attempts (getRef read)
  cases hj : c.judge attempts (getRef read) with
  | fail e deletable =>
    rw [hj] at h
    cases h
  | landed cur =>
    rw [hj] at h
    cases h
    obtain ⟨doc, hdoc, hdec⟩ := getRef_eq_ok (hlanded _ hj)
    exact ⟨doc, hdoc, .inl hdec⟩
  | write cur =>
    rw [hj] at h
    obtain ⟨hread, hpremise⟩ := hgo _ hj
    obtain ⟨doc, -, hdec⟩ := getRef_eq_ok hread
    exact hwrite cur (decodeRef_kept hdec).1 hpremise h

/-- A commit that succeeds hands out a complete ref it has written, or one it has read. -/
theorem CheckpointCommit.commitFrom_eq_ok {rounds : Nat → Round} {left : Nat} {unsettled : Bool}
    (h : c.commitFrom rounds left unsettled = .ok (r, stored)) : Holds stored r := by
  induction left generalizing unsettled with
  | zero =>
    refine elseWrite_eq_ok h ?_
    intro cur _ _ hw
    cases hw
  | succ left ih =>
    refine elseWrite_eq_ok h ?_
    intro cur hcomplete hpremise hw
    cases hwritten : (rounds (checkpointCommitAttempts - (left + 1))).written with
    | ok =>
      simp only [hwritten] at hw
      cases hw
      exact ⟨_, rfl, .inr ⟨complete_advance hcomplete hpremise _ _, rfl⟩⟩
    | cas =>
      simp only [hwritten] at hw
      exact ih hw
    | failed =>
      simp only [hwritten] at hw
      exact ih hw

/-- A function of a ref that does not see its maps has one value on both. -/
theorem Same.field {r' : Ref} (h : Same r r') {α : Type} (f : Ref → α)
    (hf : ∀ r, f (filled r) = f r) : f r = f r' := by
  rw [← hf r, ← hf r', h]

/-- The premises computed from a ref do not see whether its maps are nil. -/
theorem Same.premises {r' : Ref} (h : Same r r') (c : CheckpointCommit) :
    c.ours r = c.ours r' ∧ c.premise r = c.premise r' ∧
      c.headUnderOurEpoch r = c.headUnderOurEpoch r' ∧ c.landed r = c.landed r' ∧
      c.unreferenced r = c.unreferenced r' := by
  have hlineage : r.lineage = r'.lineage := h.field (·.lineage) fun _ => rfl
  have hepoch : r.epoch = r'.epoch := h.field (·.epoch) fun _ => rfl
  have hhead : r.headTXID = r'.headTXID := h.field (·.headTXID) fun _ => rfl
  have hheadEpoch : r.headEpoch = r'.headEpoch := h.field (·.headEpoch) fun _ => rfl
  have hholder : r.leaseHolder = r'.leaseHolder := h.field (·.leaseHolder) fun _ => rfl
  have hreap : r.reaping = r'.reaping := h.field (·.reaping) fun _ => rfl
  have hdel : r.deleting = r'.deleting := h.field (·.deleting) fun _ => rfl
  have hcps : mapVal Checkpoint.filled (r.checkpoints.getD ∅) =
      mapVal Checkpoint.filled (r'.checkpoints.getD ∅) :=
    Option.some.inj (congrArg RefOf.checkpoints h)
  have hours : c.ours r = c.ours r' := by
    rw [CheckpointCommit.ours, CheckpointCommit.ours, hholder, hepoch, hlineage, hhead]
  have hlook := congrArg (Finmap.lookup c.name) hcps
  rw [lookup_mapVal, lookup_mapVal] at hlook
  refine ⟨hours, ?_, ?_, ?_, ?_⟩
  · rw [CheckpointCommit.premise, CheckpointCommit.premise, hours, hreap, hdel]
  · rw [CheckpointCommit.headUnderOurEpoch, CheckpointCommit.headUnderOurEpoch, hlineage,
      hheadEpoch, hhead]
  · rw [CheckpointCommit.landed, CheckpointCommit.landed, hlineage]
    cases hl : (r.checkpoints.getD ∅).lookup c.name with
    | none =>
      rw [hl] at hlook
      rw [Option.map_eq_none_iff.mp hlook.symm]
    | some cp =>
      rw [hl] at hlook
      obtain ⟨cp', hl', heq⟩ := Option.map_eq_some_iff.mp hlook.symm
      rw [hl']
      have htxid : cp'.filled.txid = cp.filled.txid := congrArg Checkpoint.txid heq
      have hcpEpoch : cp'.filled.epoch = cp.filled.epoch := congrArg Checkpoint.epoch heq
      show _ = (r'.lineage == c.lineage && cp'.filled.txid == c.txid &&
        cp'.filled.epoch == c.lease.epoch)
      rw [htxid, hcpEpoch]
      rfl
  · rw [CheckpointCommit.unreferenced, CheckpointCommit.unreferenced, hlineage, hhead]

/-- A ref that is handed out is what a later read of it returns, and a later commit judges both
alike. -/
theorem Holds.read_back (h : Holds stored r) (htxids : NonzeroTxids r) :
    ∃ r', getRef stored = .ok r' ∧ Same r' r ∧
      ∀ c : CheckpointCommit, c.premise r' = c.premise r ∧ c.landed r' = c.landed r := by
  obtain ⟨doc, hdoc, hheld⟩ := h
  have hback : ∃ r', decodeRef doc = .ok r' ∧ Same r' r := by
    cases hheld with
    | inl hdec => exact ⟨r, hdec, rfl⟩
    | inr hput =>
      rw [hput.2]
      exact hput.1.read_back htxids
  obtain ⟨r', hdec, hsame⟩ := hback
  refine ⟨r', ?_, hsame, ?_⟩
  · rw [hdoc, getRef, hdec]
  · intro c
    obtain ⟨-, hpremise, -, hlanded, -⟩ := hsame.premises c
    exact ⟨hpremise, hlanded⟩

/-- What is written is read back: a ref up to the schema that `PutRef` sets, what was read from a
document of any age, and the refs that an acquire and a commit hand out. -/
theorem ref_round_trips : (∀ r : Ref, r.headEpoch ≠ 0 → NonzeroTxids r →
      ∃ r', decodeRef (putRef r) = .ok r' ∧ Same r' { r with schema := refSchema }) ∧
    (∀ doc r, decodeRef doc = .ok r → NonzeroTxids r →
      (∃ w, RefWire.unmarshal doc .zero = some w ∧ Kept w r) ∧
      ∃ r', decodeRef (putRef r) = .ok r' ∧ Same r' r) ∧
    (∀ parse format answer holder ttl now check swapped lease r doc,
      acquireLeaseRefIf parse format answer holder ttl now check swapped = .ok (lease, r, doc) →
      NonzeroTxids r →
      ∃ r', getRef (.ok doc) = .ok r' ∧ Same r' r ∧
        ∀ c : CheckpointCommit, c.premise r' = c.premise r ∧ c.landed r' = c.landed r) ∧
    (∀ (c : CheckpointCommit) rounds r stored, c.commitCheckpoint rounds = .ok (r, stored) →
      NonzeroTxids r →
      ∃ r', getRef stored = .ok r' ∧ Same r' r ∧
        ∀ c : CheckpointCommit, c.premise r' = c.premise r ∧ c.landed r' = c.landed r) := by
  refine ⟨?_, ?_, ?_, ?_⟩
  · intro r hhead htxids
    have hcomplete : Complete { r with schema := refSchema } := ⟨rfl, fun h => absurd h hhead⟩
    exact hcomplete.read_back htxids
  · intro doc r hdec htxids
    obtain ⟨hcomplete, hkept⟩ := decodeRef_kept hdec
    exact ⟨hkept, hcomplete.read_back htxids⟩
  · intro parse format answer holder ttl now check swapped lease r doc h htxids
    have hheld : Holds (.ok doc) r := ⟨doc, rfl, .inr (acquireLeaseRefIf_eq_ok h)⟩
    exact hheld.read_back htxids
  · intro c rounds r stored h htxids
    exact (CheckpointCommit.commitFrom_eq_ok h).read_back htxids

theorem NonzeroTxids.setCheckpoint (h : NonzeroTxids r) {name : String} {cp : Checkpoint}
    (hcp : cp.txid ≠ 0) : NonzeroTxids (r.setCheckpoint name cp) := by
  intro name' cp' hl
  rw [Ref.setCheckpoint, Option.getD_some] at hl
  by_cases hname : name' = name
  · subst hname
    rw [Finmap.lookup_insert] at hl
    cases hl
    exact hcp
  · rw [Finmap.lookup_insert_of_ne _ hname] at hl
    exact h name' cp' hl

theorem nonzeroTxids_none (h : r.checkpoints = none) : NonzeroTxids r := by
  intro name cp hl
  rw [h, Option.getD_none, Finmap.lookup_empty] at hl
  cases hl

def checkpointed : Ref :=
  Ref.setCheckpoint { (RefOf.zero : Ref) with schema := refSchema, epoch := 3, headEpoch := 3 }
    "init" { Checkpoint.zero with txid := 1, epoch := 3, metadata := some ∅ }

theorem nonzeroTxids_checkpointed : NonzeroTxids checkpointed :=
  (nonzeroTxids_none rfl).setCheckpoint (by decide)

/-- A document of the first schema: no head epoch, and a checkpoint that is a bare number. -/
def firstDoc : Json :=
  .obj [("schema", .int false 1), ("lineage", .str "l"), ("epoch", .int false 3),
    ("head_txid", .int false 2), ("checkpoints", .obj [("init", .int false 1)]),
    ("lease_holder", .str "h"), ("lease_expiry", .str "9")]

def firstRef : Ref :=
  Ref.setCheckpoint { (RefOf.zero : Ref) with
      schema := refSchema
      lineage := "l"
      epoch := 3
      headTXID := 2
      headEpoch := 3
      leaseHolder := "h"
      leaseExpiry := "9" }
    "init" { Checkpoint.zero with txid := 1, epoch := 3 }

theorem decodeRef_firstDoc : decodeRef firstDoc = .ok firstRef := by
  have hread : RefWire.unmarshal firstDoc .zero = some { (RefOf.zero : RefWire) with
      schema := 1
      lineage := "l"
      epoch := 3
      headTXID := 2
      leaseHolder := "h"
      leaseExpiry := "9"
      checkpoints := some ((∅ : Finmap _).insert "init" (.int false 1)) } := rfl
  rw [decodeRef, hread]
  dsimp only
  rw [RefWire.raws, Option.getD_some, entries_insert_empty]
  rfl

theorem nonzeroTxids_firstRef : NonzeroTxids firstRef :=
  (nonzeroTxids_none rfl).setCheckpoint (by decide)

def secondCommit : CheckpointCommit := ⟨"second", none, "", ⟨"h", 3, 9⟩, "l", 3⟩

theorem ref_round_trips_firstDoc : (∃ r', decodeRef (putRef checkpointed) = .ok r' ∧
      Same r' { checkpointed with schema := refSchema }) ∧
    (∃ r r', decodeRef firstDoc = .ok r ∧ decodeRef (putRef r) = .ok r' ∧ Same r' r) ∧
    (∃ lease r doc r', acquireLeaseRefIf (fun _ => some 9) (fun _ => "15") (.ok firstDoc) "h" 10 5
        (fun _ => true) true = .ok (lease, r, doc) ∧ getRef (.ok doc) = .ok r' ∧ Same r' r) ∧
    ∃ r stored r', secondCommit.commitCheckpoint
        (fun _ => ⟨.ok firstDoc, .ok, "now", "now"⟩) = .ok (r, stored) ∧
      getRef stored = .ok r' ∧ Same r' r := by
  have hget : getRef (.ok firstDoc) = .ok firstRef := by rw [getRef, decodeRef_firstDoc]
  refine ⟨ref_round_trips.1 checkpointed (by decide) nonzeroTxids_checkpointed, ?_, ?_, ?_⟩
  · obtain ⟨-, r', hback, hsame⟩ :=
      ref_round_trips.2.1 firstDoc firstRef decodeRef_firstDoc nonzeroTxids_firstRef
    exact ⟨firstRef, r', decodeRef_firstDoc, hback, hsame⟩
  · obtain ⟨next, hnext⟩ :
        ∃ next, next = leased (fun _ => some 9) (fun _ => "15") firstRef "h" 10 5 := ⟨_, rfl⟩
    have hacq : acquireLeaseRefIf (fun _ => some 9) (fun _ => "15") (.ok firstDoc) "h" 10 5
        (fun _ => true) true = .ok (⟨"h", next.epoch, 15⟩, prepare next, putRef next) := by
      rw [acquireLeaseRefIf, hget, hnext]
      rfl
    have hr : NonzeroTxids (prepare next) := hnext ▸ nonzeroTxids_firstRef
    obtain ⟨r', hback, hsame, -⟩ := ref_round_trips.2.2.1 _ _ _ _ _ _ _ _ _ _ _ hacq hr
    exact ⟨_, _, _, r', hacq, hback, hsame⟩
  · obtain ⟨next, hnext⟩ : ∃ next, next = secondCommit.advance firstRef "now" "now" := ⟨_, rfl⟩
    have hcommit : secondCommit.commitCheckpoint (fun _ => ⟨.ok firstDoc, .ok, "now", "now"⟩) =
        .ok (next, .ok (putRef next)) := by
      rw [CheckpointCommit.commitCheckpoint, checkpointCommitAttempts, CheckpointCommit.commitFrom]
      rw [hget, hnext]
      rfl
    have hr : NonzeroTxids next :=
      hnext ▸ nonzeroTxids_firstRef.setCheckpoint (fun h => by cases h)
    obtain ⟨r', hback, hsame, -⟩ := ref_round_trips.2.2.2 _ _ _ _ hcommit hr
    exact ⟨_, _, r', hcommit, hback, hsame⟩

/-- The schema of a ref does not come back: `PutRef` writes its own. -/
theorem putRef_sets_schema : ¬ ∀ r : Ref, r.headEpoch ≠ 0 → NonzeroTxids r →
      ∃ r', decodeRef (putRef r) = .ok r' ∧ Same r' r := by
  intro hall
  have htxids : NonzeroTxids { checkpointed with schema := 1 } := nonzeroTxids_checkpointed
  obtain ⟨r', hdec, hsame⟩ := hall { checkpointed with schema := 1 } (by decide) htxids
  rw [decodeRef_putRef htxids] at hdec
  cases hdec
  have hschema : refSchema = 1 := hsame.field (·.schema) fun _ => rfl
  cases hschema

end Offshoot.Wire
