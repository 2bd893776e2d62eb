import Offshoot.Lib.Json

/-!
# The document of a ref

`Ref`, `refWire`, `decodeRef` and `PutRef` of `internal/store/store.go`.  A document is a JSON
value; its text is the standard library's.
-/

namespace Offshoot.Wire

open Json List

/-- The newest schema this version reads, and the only one it writes. -/
def refSchema : Int := 2

structure Checkpoint where
  txid : UInt64
  epoch : UInt64
  createdAt : String
  metadata : GoMap String
  kind : String

structure BasePointer where
  lineage : String
  txid : UInt64

/-- The fields that `Ref` and `refWire` share.  Their checkpoints differ. -/
@[ext] structure RefOf (κ : Type) where
  schema : Int
  lineage : String
  epoch : UInt64
  headTXID : UInt64
  headEpoch : UInt64
  checkpoints : GoMap κ
  parent : String
  isProtected : Bool
  leaseHolder : String
  leaseExpiry : String
  ttl : String
  touchedAt : String
  reaping : Bool
  deleting : Bool
  deletingAt : String
  metadata : GoMap String
  base : Option BasePointer

abbrev Ref := RefOf Checkpoint

/-- `refWire`: checkpoints are numbers or objects. -/
abbrev RefWire := RefOf Json

def Checkpoint.zero : Checkpoint := ⟨0, 0, "", none, ""⟩

def BasePointer.zero : BasePointer := ⟨"", 0⟩

def RefOf.zero {κ : Type} : RefOf κ where
  schema := 0
  lineage := ""
  epoch := 0
  headTXID := 0
  headEpoch := 0
  checkpoints := none
  parent := ""
  isProtected := false
  leaseHolder := ""
  leaseExpiry := ""
  ttl := ""
  touchedAt := ""
  reaping := false
  deleting := false
  deletingAt := ""
  metadata := none
  base := none

/-! ## Checkpoints -/

namespace Checkpoint

inductive Field
  | txid | epoch | createdAt | metadata | kind
  deriving DecidableEq

def Field.name : Field → String
  | .txid => "txid"
  | .epoch => "epoch"
  | .createdAt => "created_at"
  | .metadata => "meta"
  | .kind => "kind"

def Field.all : List Field := [.txid, .epoch, .createdAt, .metadata, .kind]

def Field.decoder : Field → Decoder Checkpoint
  | .txid => part (·.txid) (fun cp x => { cp with txid := x }) uint64
  | .epoch => part (·.epoch) (fun cp x => { cp with epoch := x }) uint64
  | .createdAt => part (·.createdAt) (fun cp x => { cp with createdAt := x }) text
  | .metadata => part (·.metadata) (fun cp x => { cp with metadata := x }) (mapOf "" text)
  | .kind => part (·.kind) (fun cp x => { cp with kind := x }) text

def field (key : String) : Option (Decoder Checkpoint) :=
  (Field.all.find? fun f => foldName f.name == foldName key).map Field.decoder

def unmarshal : Decoder Checkpoint := struct field

def member (cp : Checkpoint) (f : Field) : List (String × Json) :=
  match f with
  | .txid => [(f.name, ofUInt64 cp.txid)]
  | .epoch => [(f.name, ofUInt64 cp.epoch)]
  | .createdAt => omitempty (cp.createdAt == "") f.name (.str cp.createdAt)
  | .metadata => omitempty (len cp.metadata == 0) f.name (ofMap .str cp.metadata)
  | .kind => omitempty (cp.kind == "") f.name (.str cp.kind)

def marshal (cp : Checkpoint) : Json := .obj (Field.all.flatMap cp.member)

def normal (cp : Checkpoint) : Checkpoint := { cp with metadata := dropEmpty cp.metadata }

theorem setField_name (f : Field) (v : Json) (cp : Checkpoint) :
    setField field cp (f.name, v) = f.decoder v cp := by
  have hfind : (Field.all.find? fun g => foldName g.name == foldName f.name) = some f := by
    cases f <;> decide +kernel
  rw [setField, field, hfind]
  rfl

def put (cp s : Checkpoint) : Field → Checkpoint
  | .txid => { s with txid := cp.txid }
  | .epoch => { s with epoch := cp.epoch }
  | .createdAt => { s with createdAt := cp.createdAt }
  | .metadata => { s with metadata := dropEmpty cp.metadata }
  | .kind => { s with kind := cp.kind }

def Blank (s : Checkpoint) : Field → Prop
  | .txid => True
  | .epoch => True
  | .createdAt => s.createdAt = ""
  | .metadata => s.metadata = none
  | .kind => s.kind = ""

variable (cp : Checkpoint)

theorem foldlM_member (s : Checkpoint) (f : Field) (hblank : Blank s f) :
    (cp.member f).foldlM (setField field) s = some (cp.put s f) := by
  -- A member that is always there.
  have hone : ∀ v, f.decoder v s = some (cp.put s f) →
      [(f.name, v)].foldlM (setField field) s = some (cp.put s f) := by
    intro v hv
    show (setField field s (f.name, v) >>= some) = _
    rw [setField_name, hv]
    rfl
  cases f with
  | txid | epoch =>
    apply hone
    rw [Field.decoder, part, uint64_ofUInt64]
    rfl
  | createdAt | kind =>
    refine foldlM_omitempty (fun _ => setField_name _ _ s) fun hempty => ?_
    rw [put, eq_of_beq hempty, ← hblank]
  | metadata =>
    refine foldlM_omit_map (fun m => { s with metadata := m }) ?_ hblank rfl
    intro m
    refine (setField_name .metadata _ s).trans ?_
    show Option.map _ (mapOf "" text _ s.metadata) = _
    rw [hblank, mapOf_ofMap (fun t => rfl : ∀ t, _ = some (id t)), mapVal_id]
    rfl

theorem Blank.put {s : Checkpoint} {f g : Field} (hne : f ≠ g)
    (h : Blank s g) : Blank (cp.put s f) g := by
  cases f <;> cases g <;> first | exact absurd rfl hne | exact h

theorem unmarshal_marshal : unmarshal cp.marshal zero = some cp.normal := by
  show (Field.all.flatMap cp.member).foldlM (setField field) zero = _
  have hblank : ∀ f ∈ Field.all, Blank zero f := by
    intro f _
    cases f <;> first | exact rfl | exact trivial
  rw [foldlM_fields (foldlM_member cp) (fun _ _ _ hne h => h.put cp hne) (by decide) hblank]
  rfl

end Checkpoint

/-! ## Refs -/

namespace BasePointer

def field (key : String) : Option (Decoder BasePointer) :=
  if foldName key = foldName "lineage" then
    some (part (·.lineage) (fun b x => { b with lineage := x }) text)
  else if foldName key = foldName "txid" then
    some (part (·.txid) (fun b x => { b with txid := x }) uint64)
  else none

def unmarshal : Decoder BasePointer := struct field

def marshal (b : BasePointer) : Json :=
  .obj [("lineage", .str b.lineage), ("txid", ofUInt64 b.txid)]

theorem unmarshal_marshal (b : BasePointer) : unmarshal b.marshal zero = some b := by
  have htxid : foldName "txid" ≠ foldName "lineage" := by decide +kernel
  show (setField field zero ("lineage", .str b.lineage) >>= fun s =>
    setField field s ("txid", ofUInt64 b.txid) >>= fun s => some s) = _
  rw [setField, field, if_pos rfl]
  show (setField field { zero with lineage := b.lineage } ("txid", ofUInt64 b.txid) >>= some) = _
  rw [setField, field, if_neg htxid, if_pos rfl]
  show (Option.map _ (uint64 (ofUInt64 b.txid) 0) >>= some) = _
  rw [uint64_ofUInt64]
  rfl

end BasePointer

namespace RefOf

inductive Field
  | schema | lineage | epoch | headTXID | headEpoch | checkpoints | parent | isProtected
  | leaseHolder | leaseExpiry | ttl | touchedAt | reaping | deleting | deletingAt | metadata | base
  deriving DecidableEq

def Field.name : Field → String
  | .schema => "schema"
  | .lineage => "lineage"
  | .epoch => "epoch"
  | .headTXID => "head_txid"
  | .headEpoch => "head_epoch"
  | .checkpoints => "checkpoints"
  | .parent => "parent"
  | .isProtected => "protected"
  | .leaseHolder => "lease_holder"
  | .leaseExpiry => "lease_expiry"
  | .ttl => "ttl"
  | .touchedAt => "touched_at"
  | .reaping => "reaping"
  | .deleting => "deleting"
  | .deletingAt => "deleting_at"
  | .metadata => "meta"
  | .base => "base"

def Field.all : List Field :=
  [.schema, .lineage, .epoch, .headTXID, .headEpoch, .checkpoints, .parent, .isProtected,
    .leaseHolder, .leaseExpiry, .ttl, .touchedAt, .reaping, .deleting, .deletingAt, .metadata,
    .base]

end RefOf

namespace RefWire

open RefOf (Field)

def decoder : Field → Decoder RefWire
  | .schema => part (·.schema) (fun w x => { w with schema := x }) int64
  | .lineage => part (·.lineage) (fun w x => { w with lineage := x }) text
  | .epoch => part (·.epoch) (fun w x => { w with epoch := x }) uint64
  | .headTXID => part (·.headTXID) (fun w x => { w with headTXID := x }) uint64
  | .headEpoch => part (·.headEpoch) (fun w x => { w with headEpoch := x }) uint64
  | .checkpoints =>
    part (·.checkpoints) (fun w x => { w with checkpoints := x }) (mapOf .null raw)
  | .parent => part (·.parent) (fun w x => { w with parent := x }) text
  | .isProtected => part (·.isProtected) (fun w x => { w with isProtected := x }) flag
  | .leaseHolder => part (·.leaseHolder) (fun w x => { w with leaseHolder := x }) text
  | .leaseExpiry => part (·.leaseExpiry) (fun w x => { w with leaseExpiry := x }) text
  | .ttl => part (·.ttl) (fun w x => { w with ttl := x }) text
  | .touchedAt => part (·.touchedAt) (fun w x => { w with touchedAt := x }) text
  | .reaping => part (·.reaping) (fun w x => { w with reaping := x }) flag
  | .deleting => part (·.deleting) (fun w x => { w with deleting := x }) flag
  | .deletingAt => part (·.deletingAt) (fun w x => { w with deletingAt := x }) text
  | .metadata => part (·.metadata) (fun w x => { w with metadata := x }) (mapOf "" text)
  | .base =>
    part (·.base) (fun w x => { w with base := x }) (pointer .zero BasePointer.unmarshal)

def field (key : String) : Option (Decoder RefWire) :=
  (Field.all.find? fun f => foldName f.name == foldName key).map decoder

def unmarshal : Decoder RefWire := struct field

theorem setField_name (f : Field) (v : Json) (w : RefWire) :
    setField field w (f.name, v) = decoder f v w := by
  have hfind : (Field.all.find? fun g => foldName g.name == foldName f.name) = some f := by
    cases f <;> decide +kernel
  rw [setField, field, hfind]
  rfl

end RefWire

variable {r : Ref}

namespace Ref

open RefOf (Field)

def member (r : Ref) (f : Field) : List (String × Json) :=
  match f with
  | .schema => [(f.name, ofInt r.schema)]
  | .lineage => [(f.name, .str r.lineage)]
  | .epoch => [(f.name, ofUInt64 r.epoch)]
  | .headTXID => [(f.name, ofUInt64 r.headTXID)]
  | .headEpoch => [(f.name, ofUInt64 r.headEpoch)]
  | .checkpoints => [(f.name, ofMap Checkpoint.marshal r.checkpoints)]
  | .parent => omitempty (r.parent == "") f.name (.str r.parent)
  | .isProtected => [(f.name, .bool r.isProtected)]
  | .leaseHolder => omitempty (r.leaseHolder == "") f.name (.str r.leaseHolder)
  | .leaseExpiry => omitempty (r.leaseExpiry == "") f.name (.str r.leaseExpiry)
  | .ttl => omitempty (r.ttl == "") f.name (.str r.ttl)
  | .touchedAt => omitempty (r.touchedAt == "") f.name (.str r.touchedAt)
  | .reaping => omitempty (!r.reaping) f.name (.bool r.reaping)
  | .deleting => omitempty (!r.deleting) f.name (.bool r.deleting)
  | .deletingAt => omitempty (r.deletingAt == "") f.name (.str r.deletingAt)
  | .metadata => omitempty (len r.metadata == 0) f.name (ofMap .str r.metadata)
  | .base => omitempty r.base.isNone f.name ((r.base.map BasePointer.marshal).getD .null)

def marshal (r : Ref) : Json := .obj (Field.all.flatMap r.member)

def put (r : Ref) (w : RefWire) : Field → RefWire
  | .schema => { w with schema := r.schema }
  | .lineage => { w with lineage := r.lineage }
  | .epoch => { w with epoch := r.epoch }
  | .headTXID => { w with headTXID := r.headTXID }
  | .headEpoch => { w with headEpoch := r.headEpoch }
  | .checkpoints => { w with checkpoints := r.checkpoints.map (mapVal Checkpoint.marshal) }
  | .parent => { w with parent := r.parent }
  | .isProtected => { w with isProtected := r.isProtected }
  | .leaseHolder => { w with leaseHolder := r.leaseHolder }
  | .leaseExpiry => { w with leaseExpiry := r.leaseExpiry }
  | .ttl => { w with ttl := r.ttl }
  | .touchedAt => { w with touchedAt := r.touchedAt }
  | .reaping => { w with reaping := r.reaping }
  | .deleting => { w with deleting := r.deleting }
  | .deletingAt => { w with deletingAt := r.deletingAt }
  | .metadata => { w with metadata := dropEmpty r.metadata }
  | .base => { w with base := r.base }

def Blank (w : RefWire) : Field → Prop
  | .checkpoints => w.checkpoints = none
  | .parent => w.parent = ""
  | .leaseHolder => w.leaseHolder = ""
  | .leaseExpiry => w.leaseExpiry = ""
  | .ttl => w.ttl = ""
  | .touchedAt => w.touchedAt = ""
  | .reaping => w.reaping = false
  | .deleting => w.deleting = false
  | .deletingAt => w.deletingAt = ""
  | .metadata => w.metadata = none
  | .base => w.base = none
  | _ => True

theorem foldlM_member (hschema : r.schema = refSchema) (w : RefWire) (f : Field)
    (hblank : Blank w f) : (r.member f).foldlM (setField RefWire.field) w = some (r.put w f) := by
  -- A member that is always there.
  have hone : ∀ v, RefWire.decoder f v w = some (r.put w f) →
      [(f.name, v)].foldlM (setField RefWire.field) w = some (r.put w f) := by
    intro v hv
    show (setField RefWire.field w (f.name, v) >>= some) = _
    rw [RefWire.setField_name, hv]
    rfl
  cases f with
  | schema =>
    apply hone
    rw [hschema]
    show some { w with schema := refSchema } = some { w with schema := r.schema }
    rw [hschema]
  | lineage | isProtected => exact hone _ rfl
  | epoch | headTXID | headEpoch =>
    apply hone
    rw [RefWire.decoder, part, uint64_ofUInt64]
    rfl
  | checkpoints =>
    apply hone
    show Option.map _ (mapOf .null raw _ w.checkpoints) = _
    rw [hblank, put]
    cases r.checkpoints with
    | none => rfl
    | some m =>
      rw [mapOf_ofMap (fun cp => rfl : ∀ cp, _ = some (Checkpoint.marshal cp))]
      rfl
  | parent | leaseHolder | leaseExpiry | ttl | touchedAt | deletingAt =>
    refine foldlM_omitempty (fun _ => RefWire.setField_name _ _ w) fun hempty => ?_
    rw [put, eq_of_beq hempty, ← hblank]
  | reaping | deleting =>
    refine foldlM_omitempty (fun _ => RefWire.setField_name _ _ w) fun hempty => ?_
    rw [Bool.not_eq_true'] at hempty
    rw [put, hempty, ← hblank]
  | metadata =>
    refine foldlM_omit_map (fun m => { w with metadata := m }) ?_ hblank rfl
    intro m
    refine (RefWire.setField_name .metadata _ w).trans ?_
    show Option.map _ (mapOf "" text _ w.metadata) = _
    rw [hblank, mapOf_ofMap (fun t => rfl : ∀ t, _ = some (id t)), mapVal_id]
    rfl
  | base =>
    apply foldlM_omitempty
    · intro hsome
      refine (RefWire.setField_name .base _ w).trans ?_
      show Option.map _ (pointer .zero BasePointer.unmarshal _ w.base) = _
      rw [hblank, put]
      cases hbase : r.base with
      | none => rw [hbase] at hsome; cases hsome
      | some b =>
        show Option.map _ (Option.map some (BasePointer.unmarshal b.marshal .zero)) = _
        rw [BasePointer.unmarshal_marshal]
        rfl
    · intro hnone
      have heq : r.base = w.base := (Option.isNone_iff_eq_none.mp hnone).trans hblank.symm
      rw [put, heq]

theorem Blank.put {w : RefWire} {f g : Field} (r : Ref) (hne : f ≠ g) (h : Blank w g) :
    Blank (r.put w f) g := by
  cases f <;> cases g <;> first | exact absurd rfl hne | exact h

def toWire (r : Ref) : RefWire :=
  { r with
    checkpoints := r.checkpoints.map (mapVal Checkpoint.marshal)
    metadata := dropEmpty r.metadata }

theorem unmarshal_marshal (hschema : r.schema = refSchema) :
    RefWire.unmarshal r.marshal .zero = some r.toWire := by
  show (Field.all.flatMap r.member).foldlM (setField RefWire.field) .zero = _
  have hblank : ∀ f ∈ Field.all, Blank .zero f := by
    intro f _
    cases f <;> first | exact rfl | exact trivial
  rw [foldlM_fields (foldlM_member hschema) (fun _ _ _ hne h => h.put r hne) (by decide) hblank]
  rfl

def setCheckpoint (r : Ref) (name : String) (cp : Checkpoint) : Ref :=
  { r with checkpoints := some ((r.checkpoints.getD ∅).insert name cp) }

end Ref

/-! ## Reading and writing a ref -/

inductive DecodeError
  | unmarshal
  /-- The schema is newer than this version supports. -/
  | schema (n : Int)
  /-- A checkpoint is bad.  Which one is named depends on the order a map is gone through. -/
  | checkpoint

/-- One round of the loop of `decodeRef`.  A bare number is a checkpoint of the first schema. -/
def decodeCheckpoint (epoch : UInt64) (value : Json) : Option Checkpoint :=
  let bare := (uint64 value 0).map fun txid => { Checkpoint.zero with txid := txid, epoch := epoch }
  if value.isNull then none
  else
    match Checkpoint.unmarshal value .zero with
    | some cp => if cp.txid ≠ 0 then some cp else bare
    | none => bare

def decodeCheckpoints (epoch : UInt64) (r : Ref) (checkpoints : List (String × Json)) :
    Option Ref :=
  checkpoints.foldlM
    (fun r p => (decodeCheckpoint epoch p.2).map fun cp => r.setCheckpoint p.1 cp) r

def RefWire.copied (w : RefWire) : Ref :=
  { w with
    schema := refSchema
    checkpoints := none
    headEpoch := if w.headEpoch = 0 then w.epoch else w.headEpoch }

def RefWire.raws (w : RefWire) : List (String × Json) := entries (w.checkpoints.getD ∅)

def decodeRef (doc : Json) : Except DecodeError Ref :=
  match RefWire.unmarshal doc .zero with
  | none => .error .unmarshal
  | some w =>
    if w.schema > refSchema then .error (.schema w.schema)
    else
      match decodeCheckpoints w.epoch (RefWire.copied w) (RefWire.raws w) with
      | none => .error .checkpoint
      | some r => .ok r

def prepare (r : Ref) : Ref :=
  { r with
    schema := refSchema
    headEpoch := if r.headEpoch = 0 then r.epoch else r.headEpoch }

def putRef (r : Ref) : Json := (prepare r).marshal

/-! ## What was written is read -/

/-- No checkpoint stands at txid zero, which an object may not. -/
def NonzeroTxids (r : Ref) : Prop :=
  ∀ name cp, (r.checkpoints.getD ∅).lookup name = some cp → cp.txid ≠ 0

def normal (r : Ref) : Ref :=
  { prepare r with
    checkpoints := dropEmpty (r.checkpoints.map (mapVal Checkpoint.normal))
    metadata := dropEmpty r.metadata }

theorem decodeCheckpoint_marshal (epoch : UInt64) {cp : Checkpoint} (h : cp.txid ≠ 0) :
    decodeCheckpoint epoch cp.marshal = some cp.normal := by
  have htxid : cp.normal.txid ≠ 0 := h
  rw [decodeCheckpoint, Checkpoint.unmarshal_marshal]
  show (if cp.normal.txid ≠ 0 then some cp.normal else _) = _
  rw [if_pos htxid]

theorem foldl_setCheckpoint (cps : List (String × Checkpoint)) (r : Ref) :
    cps.foldl (fun r p => r.setCheckpoint p.1 p.2) r =
      { r with
        checkpoints :=
          if cps = [] then r.checkpoints
          else some (cps.foldl (fun m p => m.insert p.1 p.2) (r.checkpoints.getD ∅)) } := by
  induction cps generalizing r with
  | nil => rfl
  | cons p cps ih =>
    rw [foldl_cons, ih, if_neg (cons_ne_nil p cps)]
    by_cases hnil : cps = []
    · rw [if_pos hnil, hnil]
      rfl
    · rw [if_neg hnil]
      rfl

theorem decodeCheckpoints_marshal (epoch : UInt64) (cps : List (String × Checkpoint)) (r : Ref)
    (h : ∀ p ∈ cps, p.2.txid ≠ 0) :
    decodeCheckpoints epoch r (cps.map fun p => (p.1, p.2.marshal)) =
      some ((cps.map fun p => (p.1, p.2.normal)).foldl (fun r p => r.setCheckpoint p.1 p.2) r) := by
  rw [decodeCheckpoints]
  induction cps generalizing r with
  | nil => rfl
  | cons p cps ih =>
    rw [map_cons, foldlM_cons, decodeCheckpoint_marshal epoch (h p mem_cons_self)]
    exact ih _ (fun q hq => h q (mem_cons_of_mem _ hq))

theorem raws_toWire (r : Ref) :
    RefWire.raws r.toWire = (entries (r.checkpoints.getD ∅)).map fun p => (p.1, p.2.marshal) := by
  rw [RefWire.raws, ← entries_mapVal, ← getD_map_mapVal]
  rfl

theorem decodeRef_putRef (h : NonzeroTxids r) : decodeRef (putRef r) = .ok (normal r) := by
  have hread : RefWire.unmarshal (putRef r) .zero = some (prepare r).toWire :=
    Ref.unmarshal_marshal rfl
  have hepoch : (if (prepare r).headEpoch = 0 then r.epoch else (prepare r).headEpoch) =
      (prepare r).headEpoch := by
    rw [prepare]
    by_cases hzero : r.headEpoch = 0
    · simp [hzero]
    · simp [hzero]
  have hcps : decodeCheckpoints (prepare r).toWire.epoch (RefWire.copied (prepare r).toWire)
      (RefWire.raws (prepare r).toWire) = some (normal r) := by
    have htxids : ∀ p ∈ entries (r.checkpoints.getD ∅), p.2.txid ≠ 0 :=
      fun p hp => h p.1 p.2 (mem_entries.mp hp)
    rw [raws_toWire]
    show decodeCheckpoints _ _ ((entries (r.checkpoints.getD ∅)).map _) = _
    rw [decodeCheckpoints_marshal _ _ _ htxids, foldl_setCheckpoint]
    refine congrArg some (RefOf.ext rfl rfl rfl rfl hepoch ?_ rfl rfl rfl rfl rfl rfl rfl rfl rfl
      rfl rfl)
    show (if _ then none else some _) = dropEmpty _
    rw [dropEmpty_map, foldl_map]
    simp only [map_eq_nil_iff]
    rfl
  rw [decodeRef, hread]
  show (if (refSchema : Int) > refSchema then _ else _) = _
  rw [if_neg (Int.lt_irrefl _), hcps]

/-! ## Refs that differ in nil maps only -/

def Checkpoint.filled (cp : Checkpoint) : Checkpoint :=
  { cp with metadata := some (cp.metadata.getD ∅) }

def filled (r : Ref) : Ref :=
  { r with
    checkpoints := some (mapVal Checkpoint.filled (r.checkpoints.getD ∅))
    metadata := some (r.metadata.getD ∅) }

def Same (r r' : Ref) : Prop := filled r = filled r'

theorem filled_normal (r : Ref) : filled (normal r) = filled (prepare r) := by
  refine RefOf.ext rfl rfl rfl rfl rfl ?_ rfl rfl rfl rfl rfl rfl rfl rfl rfl ?_ rfl
  · have hcp : Checkpoint.filled ∘ Checkpoint.normal = Checkpoint.filled := by
      funext cp
      show { cp with metadata := some ((dropEmpty cp.metadata).getD ∅) } = Checkpoint.filled cp
      rw [getD_dropEmpty]
      rfl
    show some (mapVal _ ((dropEmpty (r.checkpoints.map (mapVal Checkpoint.normal))).getD ∅)) = _
    rw [getD_dropEmpty, getD_map_mapVal, mapVal_mapVal, hcp]
    rfl
  · exact congrArg some (getD_dropEmpty r.metadata)

/-- A ref that was read or completed as `PutRef` completes it. -/
structure Complete (r : Ref) : Prop where
  schema : r.schema = refSchema
  headEpoch : r.headEpoch = 0 → r.epoch = 0

theorem Complete.prepare (h : Complete r) : prepare r = r := by
  refine RefOf.ext h.schema.symm rfl rfl rfl ?_ rfl rfl rfl rfl rfl rfl rfl rfl rfl rfl rfl rfl
  show (if r.headEpoch = 0 then r.epoch else r.headEpoch) = r.headEpoch
  by_cases hzero : r.headEpoch = 0
  · rw [if_pos hzero, hzero, h.headEpoch hzero]
  · rw [if_neg hzero]

theorem Complete.read_back (h : Complete r) (htxids : NonzeroTxids r) :
    ∃ r', decodeRef (putRef r) = .ok r' ∧ Same r' r := by
  refine ⟨normal r, decodeRef_putRef htxids, ?_⟩
  rw [Same, filled_normal, h.prepare]

/-! ## What is read of a document -/

/-- A ref holds what the document it was read from says.  Checkpoints of the first schema stand
under the epoch of the ref. -/
structure Kept (w : RefWire) (r : Ref) : Prop where
  lineage : r.lineage = w.lineage
  epoch : r.epoch = w.epoch
  headTXID : r.headTXID = w.headTXID
  lease : r.leaseHolder = w.leaseHolder ∧ r.leaseExpiry = w.leaseExpiry
  base : r.base = w.base
  ttl : r.ttl = w.ttl ∧ r.touchedAt = w.touchedAt
  claims : r.reaping = w.reaping ∧ r.deleting = w.deleting ∧ r.deletingAt = w.deletingAt
  rest : r.parent = w.parent ∧ r.isProtected = w.isProtected ∧ r.metadata = w.metadata
  checkpoints : ∀ name value, (w.checkpoints.getD ∅).lookup name = some value →
    ∃ cp, decodeCheckpoint w.epoch value = some cp ∧ (r.checkpoints.getD ∅).lookup name = some cp
  names : ∀ name cp, (r.checkpoints.getD ∅).lookup name = some cp →
    ∃ value, (w.checkpoints.getD ∅).lookup name = some value

theorem decodeCheckpoints_eq_some {epoch : UInt64} {raws : List (String × Json)} {r' : Ref}
    (h : decodeCheckpoints epoch r raws = some r') :
    ∃ cps : List (String × Checkpoint),
      raws.map (fun p => (p.1, decodeCheckpoint epoch p.2)) = cps.map (fun p => (p.1, some p.2)) ∧
      r' = cps.foldl (fun r p => r.setCheckpoint p.1 p.2) r := by
  rw [decodeCheckpoints] at h
  induction raws generalizing r with
  | nil => exact ⟨[], rfl, (Option.some.inj h).symm⟩
  | cons p raws ih =>
    rw [foldlM_cons] at h
    cases hcp : decodeCheckpoint epoch p.2 with
    | none =>
      rw [hcp] at h
      cases h
    | some cp =>
      rw [hcp] at h
      obtain ⟨cps, hmap, hfold⟩ := ih h
      refine ⟨(p.1, cp) :: cps, ?_, hfold⟩
      rw [map_cons, map_cons, hcp, hmap]

theorem decodeRef_eq_ok {doc : Json} (h : decodeRef doc = .ok r) :
    ∃ w, RefWire.unmarshal doc .zero = some w ∧
      decodeCheckpoints w.epoch (RefWire.copied w) (RefWire.raws w) = some r := by
  rw [decodeRef] at h
  cases hw : RefWire.unmarshal doc .zero with
  | none =>
    rw [hw] at h
    cases h
  | some w =>
    rw [hw] at h
    refine ⟨w, rfl, ?_⟩
    change (if w.schema > refSchema then _ else _) = _ at h
    by_cases hschema : w.schema > refSchema
    · rw [if_pos hschema] at h
      cases h
    · rw [if_neg hschema] at h
      cases hcps : decodeCheckpoints w.epoch (RefWire.copied w) (RefWire.raws w) with
      | none =>
        rw [hcps] at h
        cases h
      | some r' =>
        rw [hcps] at h
        cases h
        rfl

theorem decodeRef_kept {doc : Json} (h : decodeRef doc = .ok r) :
    Complete r ∧ ∃ w, RefWire.unmarshal doc .zero = some w ∧ Kept w r := by
  obtain ⟨w, hw, hcps⟩ := decodeRef_eq_ok h
  obtain ⟨cps, hmap, hr⟩ := decodeCheckpoints_eq_some hcps
  rw [foldl_setCheckpoint] at hr
  -- The checkpoints of the ref and of the document agree name by name.
  have hlook : ∀ name, (r.checkpoints.getD ∅).lookup name =
      ((w.checkpoints.getD ∅).lookup name).bind (decodeCheckpoint w.epoch) := by
    intro name
    have hagree : ∀ p ∈ cps,
        ((w.checkpoints.getD ∅).lookup p.1).bind (decodeCheckpoint w.epoch) = some p.2 := by
      intro p hp
      have hmem : (p.1, some p.2) ∈ cps.map fun p => (p.1, some p.2) :=
        mem_map.mpr ⟨p, hp, rfl⟩
      rw [← hmap] at hmem
      obtain ⟨q, hq, heq⟩ := mem_map.mp hmem
      rw [← (Prod.mk.inj heq).1, mem_entries.mp hq]
      exact (Prod.mk.inj heq).2
    have hnames : cps.map (·.1) = (RefWire.raws w).map (·.1) := by
      have hfst := congrArg (List.map (·.1)) hmap
      rw [map_map, map_map] at hfst
      exact hfst.symm
    have hget : r.checkpoints.getD ∅ = cps.foldl (fun m p => m.insert p.1 p.2) ∅ := by
      rw [hr]
      by_cases hnil : cps = []
      · rw [hnil]
        rfl
      · show (if cps = [] then _ else _ : GoMap Checkpoint).getD ∅ = _
        rw [if_neg hnil]
        rfl
    rw [hget, Json.lookup_foldl_insert
      (fun name => ((w.checkpoints.getD ∅).lookup name).bind (decodeCheckpoint w.epoch)) name cps ∅
      hagree, hnames]
    cases hwire : (w.checkpoints.getD ∅).lookup name with
    | none => rw [Option.bind_none, Finmap.lookup_empty, ite_self]
    | some value =>
      rw [if_pos]
      exact mem_map.mpr ⟨(name, value), mem_entries.mpr hwire, rfl⟩
  have hcomplete : Complete r := by
    rw [hr]
    refine ⟨rfl, ?_⟩
    show (if w.headEpoch = 0 then w.epoch else w.headEpoch) = 0 → w.epoch = 0
    intro hzero
    by_cases hhead : w.headEpoch = 0
    · rw [if_pos hhead] at hzero
      exact hzero
    · rw [if_neg hhead] at hzero
      exact absurd hzero hhead
  refine ⟨hcomplete, w, hw, ?_⟩
  refine {
    lineage := by rw [hr]; rfl
    epoch := by rw [hr]; rfl
    headTXID := by rw [hr]; rfl
    lease := by rw [hr]; exact ⟨rfl, rfl⟩
    base := by rw [hr]; rfl
    ttl := by rw [hr]; exact ⟨rfl, rfl⟩
    claims := by rw [hr]; exact ⟨rfl, rfl, rfl⟩
    rest := by rw [hr]; exact ⟨rfl, rfl, rfl⟩
    checkpoints := ?_
    names := ?_ }
  · intro name value hvalue
    have hmem : (name, value) ∈ RefWire.raws w := mem_entries.mpr hvalue
    have hin : (name, decodeCheckpoint w.epoch value) ∈
        (RefWire.raws w).map fun p => (p.1, decodeCheckpoint w.epoch p.2) :=
      mem_map.mpr ⟨_, hmem, rfl⟩
    rw [hmap] at hin
    obtain ⟨p, -, heq⟩ := mem_map.mp hin
    have hcp : decodeCheckpoint w.epoch value = some p.2 := (Prod.mk.inj heq).2.symm
    refine ⟨p.2, hcp, ?_⟩
    rw [hlook, hvalue]
    exact hcp
  · intro name cp hcp
    rw [hlook] at hcp
    obtain ⟨value, hvalue, -⟩ := Option.bind_eq_some_iff.mp hcp
    exact ⟨value, hvalue⟩

end Offshoot.Wire
