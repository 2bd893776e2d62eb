import Offshoot.System.World

/-!
# Calls to the backend

Each call of the store is one atomic action.  A read may fail.  A conditional
write succeeds if the key holds what the caller last read and the call does not
fail; a failed one has written nothing on a settled backend, and otherwise may
have landed or may land later, whatever error it reports.  Content decides a
match: an etag stands for the content it was read with.

A resolution reads base objects and listings one call at a time, each at most
once.  It is the pure resolver run against what has been read so far, which says
what to read next until it has its answer.
-/

namespace Offshoot

open Conc Maps

abbrev Result (α : Type) := Except Err α

/-! ## Clocks, history and process memory -/

variable (env : Env)

def now : M Nat :=
  .step fun o w => (w, if env.oneClock then w.clock else o.num)

/-- An answer that depends on things outside the model. -/
def ask : M Bool := .step fun o w => (w, o.yes)

def note (e : Event) : M Unit := .step fun _ w => (w.note e, ())

variable (i : Nat)

def getSession : M Session := .step fun _ w => (w, w.sessions i)

/-- Change a session's memory in one critical section. -/
def withSession (f : Session → Session × α) : M α :=
  .step fun _ w => (w.setSession i (f (w.sessions i)).1, (f (w.sessions i)).2)

def getCheckout (host : Nat) (b : BranchId) : M Checkout :=
  .step fun _ w => (w, w.checkouts host b)

def setCheckout (host : Nat) (b : BranchId) (f : Checkout → Checkout) : M Unit :=
  .step fun _ w => (w.setCheckout host b (f (w.checkouts host b)), ())

def setFlight (f : Option Flight) : M Unit := .step fun _ w => (w.setFlight i f, ())

def newLineageID : M Lineage := .step fun _ w =>
  ({ w.note (.minted i w.nextLineage) with nextLineage := w.nextLineage + 1 }, w.nextLineage)

/-! ## Refs -/

def getRef (b : BranchId) : M (Result Ref) := .step fun o w =>
  (w, if o.fail then .error .backend
    else match w.refs.lookup b with
      | some r => .ok r
      | none => .error .notFound)

/-- Read a ref for an edit that may find nothing to change, in which case it takes
effect with the read. -/
def getRefFor (b : BranchId) (e : RefEdit) (unchanged : Ref → Bool) : M (Result Ref) :=
  .step fun o w =>
    if o.fail then (w, .error .backend)
    else match w.refs.lookup b with
      | none => (w, .error .notFound)
      | some r =>
        (if unchanged r then w.note (.wrote i b (.edit e) (some r) (some r)) else w, .ok r)

def casErr (o : Oracle) : Err :=
  if o.fail && (env.settled || !o.cas) then .backend else .cas

/-- A write of a ref against the record it was computed from.  `op` names the edit
for the history. -/
def World.tryRef (w : World) (env : Env) (o : Oracle) (i : Nat) (b : BranchId) (op : RefOp)
    (r : Ref) (etag : Option Ref) : World × Result Unit :=
  let hit := w.refs.lookup b = etag
  if hit ∧ !o.fail then (w.land i b op (some r.stored), .ok ())
  else
    (if env.settled then w
      else match o.fate with
        | .lost => w
        | .landed => if hit then w.land i b op (some r.stored) else w
        | .pending => { w with pending := .ref i b op etag r.stored :: w.pending },
      .error (casErr env o))

def putRef (b : BranchId) (op : RefOp) (r : Ref) (etag : Option Ref) :
    M (Result Unit) := .step fun o w => w.tryRef env o i b op r etag

def putLease (b : BranchId) (op : RefOp) (r : Ref) (etag : Option Ref)
    (lease : Lease) : M (Result Unit) := .step fun o w =>
  match w.tryRef env o i b op r etag with
  | (w, .ok ()) => (w.note (.granted i b r.lineage lease), .ok ())
  | failed => failed

/-- Read a ref, and adopt the lease it grants if it names the holder. -/
def getRefHeld (b : BranchId) (holder : Holder) : M (Result Ref) := .step fun o w =>
  if o.fail then (w, .error .backend)
  else match w.refs.lookup b with
    | none => (w, .error .notFound)
    | some r =>
      (if r.leaseHolder = some holder then
          w.note (.granted i b r.lineage ⟨holder, r.epoch, r.leaseExpiry⟩)
        else w, .ok r)

/-- Remove a ref: conditionally where the backend can, outright where not.  An outright
delete that fails may have taken effect, or may where writes are not settled. -/
def deleteRefIf (b : BranchId) (etag : Ref) : M (Result Unit) :=
  .step fun o w =>
    if env.conditionalDelete && w.refs.lookup b ≠ some etag then
      (w, .error (if o.fail then .backend else .cas))
    else if o.fail then
      (if env.conditionalDelete then w
        else match o.fate with
          | .lost => w
          | .landed => w.land i b .delete none
          | .pending => if env.settled then w
              else { w with pending := .delete i b :: w.pending },
        .error .backend)
    else (w.land i b .delete none, .ok ())

def listRefs : M (Result (List BranchId)) := .step fun o w =>
  (w, if o.fail then .error .backend else .ok w.refs.keys)

/-! ## Data objects -/

def getObj (k : DataKey) : M (Result Obj) := .step fun o w =>
  (w, if o.fail then .error .backend
    else match w.objs.lookup k with
      | some obj => .ok obj
      | none => .error .notFound)

def World.putObj (w : World) (k : DataKey) (obj : Obj) : World :=
  { w with objs := w.objs.insert k obj }

def World.dropObj (w : World) (k : DataKey) : World := { w with objs := w.objs.erase k }

/-- Create an object; a key that is taken is a conflict. -/
def putIf (k : DataKey) (obj : Obj) : M (Result Unit) := .step fun o w =>
  let hit := w.objs.lookup k = none
  if hit ∧ !o.fail then (w.putObj k obj, .ok ())
  else
    (if env.settled then w
      else match o.fate with
        | .lost => w
        | .landed => if hit then w.putObj k obj else w
        | .pending => { w with pending := .put k obj true :: w.pending },
      .error (casErr env o))

def put (k : DataKey) (obj : Obj) : M (Result Unit) := .step fun o w =>
  if !o.fail then (w.putObj k obj, .ok ())
  else
    (match o.fate with
      | .lost => w
      | .landed => w.putObj k obj
      | .pending => if env.settled then w
          else { w with pending := .put k obj false :: w.pending },
      .error .backend)

/-- Delete an object.  A failed delete may have taken effect. -/
def deleteObj (k : DataKey) : M (Result Unit) := .step fun o w =>
  if !o.fail then (w.dropObj k, .ok ())
  else (if o.fate = .landed then w.dropObj k else w, .error .backend)

/-- Copy an object within the backend; `none` if the backend cannot copy it. -/
def copyObject (dst src : DataKey) : M (Result (Option Unit)) := .step fun o w =>
  match w.objs.lookup src with
  | none => (w, .error (if o.fail then .backend else .notFound))
  | some obj =>
    if o.fail then (if o.fate = .landed then w.putObj dst obj else w, .error .backend)
    else if o.yes then (w, .ok none)
    else (w.putObj dst obj, .ok (some ()))

def listData : M (Result (List DataKey)) := .step fun o w =>
  (w, if o.fail then .error .backend else .ok w.objs.keys)

/-! ## Writes that land late -/

/-- A write that was given up lands after all, if its key holds what it was sent
against; a delete, if there still is something. -/
def World.landPending (w : World) : Pending → World
  | .ref i b op before after =>
    if w.refs.lookup b = before then w.land i b op (some after) else w
  | .put k obj createOnly =>
    if createOnly ∧ (w.objs.lookup k).isSome then w else w.putObj k obj
  | .stones before after => if w.stones = before then { w with stones := after } else w
  | .delete i b => if (w.refs.lookup b).isSome then w.land i b .delete none else w

def World.landLate (w : World) (n : Nat) : World :=
  match w.pending[n]? with
  | none => w
  | some p => { w with pending := w.pending.eraseIdx n }.landPending p

def landLate (n : Nat) : M Unit := .step fun _ w => (w.landLate n, ())

/-! ## Resolving from reads -/

structure Cache where
  bases : Map Lineage (Except ReadErr (Option BasePointer))
  members : Map Lineage (List (ChainMember DataKey))

def Cache.empty : Cache := ⟨∅, ∅⟩

def Cache.view (c : Cache) : View DataKey where
  base l := (c.bases.lookup l).getD (.error .uncached)
  members l := match c.members.lookup l with
    | some ms => .ok ms
    | none => .error .uncached
  based := c.bases.keys
  mem_based := by
    intro l b h
    cases hl : c.bases.lookup l with
    | none => simp [hl] at h
    | some _ => exact AList.mem_keys.mp (AList.lookup_isSome.mp (by simp [hl]))

def fetch (c : Cache) (r : Read) : M (Result Cache) := .step fun o w =>
  (w, if o.fail then .error .backend
    else .ok (match r with
      | .base l => { c with bases := c.bases.insert l (w.objs.base l) }
      | .members l => { c with members := c.members.insert l (w.objs.members l) }))

/-- Run a resolution, reading what it asks for, for at most `fuel` reads. -/
def resolve (f : View DataKey → Except (ChainErr DataKey) α) : Nat → Cache → M (Result α × Cache)
  | 0, c => pure (.error .stalled, c)
  | fuel + 1, c =>
    match f c.view with
    | .ok a => pure (.ok a, c)
    | .error e =>
      match e.root with
      | .read r .uncached => do
        match ← fetch c r with
        | .error e => pure (.error e, c)
        | .ok c => resolve f fuel c
      | _ => pure (.error (.chain e), c)

def chainAt (fuel : Nat) (l : Lineage) (t : Nat) : M (Result (List (ChainMember DataKey))) := do
  return (← resolve (chain · l t) fuel .empty).1

/-! ## Reading a chain back -/

def segmentsOf : List Obj → Except MaterializeErr (List Segment)
  | [] => .ok []
  | .segment s :: rest => (segmentsOf rest).map (s :: ·)
  | _ :: _ => .error .notASegment

def materializeObjs : List Obj → Except MaterializeErr Applied
  | .snapshot s :: rest =>
    match segmentsOf rest with
    | .error e => .error e
    | .ok segs => materializeChain s segs
  | _ => .error .notASnapshot

def getObjs : List DataKey → M (Result (List Obj))
  | [] => pure (.ok [])
  | k :: ks => do
    match ← getObj k with
    | .error e => pure (.error e)
    | .ok obj =>
      match ← getObjs ks with
      | .error e => pure (.error e)
      | .ok objs => pure (.ok (obj :: objs))

def materializeMembers (members : List (ChainMember DataKey)) : M (Result Applied) := do
  match ← getObjs (members.map (·.key)) with
  | .error e => return .error e
  | .ok objs =>
    match materializeObjs objs with
    | .error e => return .error (.materialize e)
    | .ok a => return .ok a

/-- The database content of lineage `l` at `t`, as a reader of this state finds
it. -/
def World.content (w : World) (l : Lineage) (t : Nat) : Result Applied :=
  match chain w.view l t with
  | .error e => .error (.chain e)
  | .ok members =>
    match members.mapM fun m => w.objs.lookup m.key with
    | none => .error .notFound
    | some objs =>
      match materializeObjs objs with
      | .error e => .error (.materialize e)
      | .ok a => .ok a

end Offshoot
