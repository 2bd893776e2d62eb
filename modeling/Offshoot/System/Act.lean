import Offshoot.System.Backend

/-!
# What one action can do

Every action of every program is one of the acts below, whatever the state it is
taken in.  The acts are data, so that a class of acts is a predicate on them, and
what a program may do is said by a class.
-/

namespace Offshoot

variable {op : RefOp}

open Conc Maps

inductive Act where
  | none
  | session (j : Nat) (s : Session)
  | checkout (host : Nat) (b : BranchId) (c : Checkout)
  | clock (n : Nat)
  | flight (f : Option Flight)
  | note (e : Event)
  | mint
  | write (b : BranchId) (op : RefOp) (after : Option Ref)
  /-- A ref write that grants a lease. -/
  | grant (b : BranchId) (op : RefOp) (after : Ref) (lease : Lease)
  /-- A lease found on the ref. -/
  | adopt (b : BranchId) (r : Ref) (lease : Lease)
  /-- An edit that finds nothing to change. -/
  | effect (b : BranchId) (e : RefEdit) (r : Ref)
  | send (b : BranchId) (op : RefOp) (before : Option Ref) (after : Ref)
  | put (k : DataKey) (obj : Obj)
  | drop (k : DataKey)
  | sweep (time : Nat) (k : DataKey)
  | sendPut (k : DataKey) (obj : Obj) (createOnly : Bool)
  | stones (s : Option (Map DataKey Nat))
  | sendStones (before after : Option (Map DataKey Nat))
  | sendDelete (b : BranchId)
  | late (n : Nat)

namespace Act

def run (i : Nat) (w : World) : Act → World
  | none => w
  | session j s => w.setSession j s
  | checkout host b c => w.setCheckout host b c
  | clock n => { w with clock := w.clock + n }
  | flight f => w.setFlight i f
  | note e => w.note e
  | mint => { w.note (.minted i w.nextLineage) with nextLineage := w.nextLineage + 1 }
  | write b op after => w.land i b op after
  | grant b op after lease =>
    (w.land i b op (some after)).note (.granted i b after.lineage lease)
  | adopt b r lease => w.note (.granted i b r.lineage lease)
  | effect b e r => w.note (.wrote i b (.edit e) (some r) (some r))
  | send b op before after => { w with pending := .ref i b op before after :: w.pending }
  | put k obj => w.putObj k obj
  | drop k => w.dropObj k
  | sweep time k => (w.dropObj k).note (.swept i time k)
  | sendPut k obj createOnly => { w with pending := .put k obj createOnly :: w.pending }
  | stones s => { w with stones := s }
  | sendStones before after => { w with pending := .stones before after :: w.pending }
  | sendDelete b => { w with pending := .delete i b :: w.pending }
  | late n => w.landLate n

/-- What landing late comes to: a write of a ref takes effect, an object is there, or
neither. -/
@[elab_as_elim]
theorem late_elim {motive : World → Prop} {w : World} {n : Nat}
    (ref : ∀ j b op after, w.pending[n]? = some (.ref j b op (w.refs.lookup b) after) →
      motive ({ w with pending := w.pending.eraseIdx n }.land j b op (some after)))
    (delete : ∀ j b, w.pending[n]? = some (.delete j b) →
      motive ({ w with pending := w.pending.eraseIdx n }.land j b .delete .none))
    (put : ∀ k o co, w.pending[n]? = some (.put k o co) →
      motive ({ w with pending := w.pending.eraseIdx n }.putObj k o))
    (still : ∀ stones, motive { w with pending := w.pending.eraseIdx n, stones }) :
    motive ((late n).run i w) := by
  rw [run, World.landLate]
  split
  · rename_i hp
    have hall := List.eraseIdx_of_length_le (List.getElem?_eq_none_iff.mp hp)
    exact cast (by rw [hall]) (still w.stones)
  rename_i p hp
  cases p <;> rw [World.landPending] <;> split
  case ref.isTrue hit => exact ref _ _ _ _ (hit ▸ hp)
  case delete.isTrue => exact delete _ _ hp
  case put.isFalse => exact put _ _ _ hp
  all_goals exact still _

end Act

/-- Events that record no change of a ref, no new lineage, no lease and no
deletion. -/
def Event.quiet : Event → Prop
  | .called .. | .returned .. | .stamped .. | .marked .. | .unmarked .. => True
  | _ => False

/-- The head is moved only under the thread's own holder. -/
def RefOp.by (i : Nat) : RefOp → Prop
  | .edit (.flush c) => c.holder = i
  | .edit (.checkpoint c) => c.holder = i
  | _ => True

theorem RefOp.plain.by (h : op.plain) : op.by i := by
  cases op with
  | create _ => exact h.elim
  | delete => trivial
  | edit e => cases e <;> trivial

theorem RefOp.by_head {c : HeadCommit} (h : op.head = some c) (hby : op.by i) : c.holder = i := by
  cases op with
  | edit e =>
    cases e with
    | flush _ | checkpoint _ =>
      cases h
      exact hby
    | _ => cases h
  | _ => cases h

def Lease.on (l : Lease) (r : Ref) : Prop := r.leaseHolder = some l.holder ∧ r.epoch = l.epoch

inductive Captured (s : Session) : Session → Prop
  | rebase (img : Image) : Captured s (s.onRebase img)
  | apply (txn : Txn) : Captured s (s.onApply txn)
  | stop : Captured s { s with engine := .stopped }

/-- What every act satisfies by itself: a ref write edits the record it replaces,
and only writes that are not settled are left pending. -/
def Act.ok (env : Env) (i : Nat) (w : World) : Act → Prop
  | session j s => j = i ∨ Captured (w.sessions j) s
  | note e => e.quiet
  | write b op after => op.apply (w.refs.lookup b) = some after ∧ op.by i
  | grant b op after lease =>
    op.apply (w.refs.lookup b) = some (some after) ∧ op.plain ∧ lease.on after
  | adopt b r lease => w.refs.lookup b = some r ∧ lease.on r
  | effect b e r => w.refs.lookup b = some r ∧ e.edit r = some r ∧ RefOp.plain (.edit e)
  | send _ op before after =>
    env.settled = false ∧ op.apply before = some (some after) ∧ op.by i
  | sendPut .. | sendStones .. => env.settled = false
  | sendDelete _ => env.settled = false ∧ env.conditionalDelete = false
  | _ => True

def Change (env : Env) (i : Nat) (A : Act → Prop) (w w' : World) : Prop :=
  ∃ a : Act, A a ∧ a.ok env i w ∧ a.run i w = w'

abbrev Does (env : Env) (i : Nat) (A : Act → Prop) (p : M α) : Prop := p.All (Change env i A)

variable {env : Env} {i : Nat} {A B : Act → Prop}

theorem Does.mono {p : M α} (h : Does env i A p) (hAB : ∀ a, A a → B a) : Does env i B p := by
  refine Prog.All.mono (fun _ _ hc => ?_) h
  obtain ⟨a, ha, hok, hrun⟩ := hc
  exact ⟨a, hAB a ha, hok, hrun⟩

theorem Does.step {f : Oracle → World → World × α} (h : ∀ o w, Change env i A w (f o w).1) :
    Does env i A (.step f) := Prog.All.step h

theorem Does.read {f : Oracle → World → World × α} (hA : A .none) (h : ∀ o w, (f o w).1 = w) :
    Does env i A (.step f) := .step fun o w => ⟨.none, hA, trivial, (h o w).symm⟩

/-! ## Classes -/

/-- Notes of calls made and answered, and of claims stamped. -/
def Event.call : Event → Prop
  | .called .. | .returned .. | .stamped .. => True
  | _ => False

namespace Act

/-- Acts that write no refs but those of `W`, and do not collect. -/
def In (W : BranchId → RefOp.Kind → Prop) : Act → Prop
  | write b op _ | grant b op _ _ | send b op _ _ => W b op.kind
  | effect b e _ => W b e.kind
  | sendDelete b => W b .delete
  | note e => e.call
  | late _ | sweep .. | stones _ | sendStones .. => False
  | _ => True

/-- Acts that give no branch a lineage and no lineage a base. -/
def nameless : Act → Prop
  | write _ op _ | grant _ op _ _ | send _ op _ _ => op.names = .none
  | late _ => False
  | put k _ | sendPut k _ _ => ∀ l, k ≠ .base l
  | _ => True

/-- Acts that remove no object, late writes apart. -/
def spares : Act → Prop
  | drop _ | sweep .. | late _ => False
  | _ => True

/-- Acts that remove at most what a lineage was prepared with. -/
def tidy : Act → Prop
  | drop k => ∃ l, k.initial l
  | sweep .. => False
  | _ => True

/-- Acts that leave the checkouts alone, late writes apart. -/
def off : Act → Prop
  | checkout .. | late _ => False
  | _ => True

def Apart (A : Act → Prop) (a : Act) : Prop := A a ∧ a.off

def Edits (W : BranchId → RefOp.Kind → Prop) : Act → Prop
  | none | adopt .. => True
  | note e => e.call
  | write b op _ | grant b op _ _ | send b op _ _ => W b op.kind ∧ op.plain
  | effect b e _ => W b e.kind ∧ RefOp.plain (.edit e)
  | sendDelete b => W b .delete
  | _ => False

/-- Plain writes of refs, and the stamping of claims. -/
def Writes (W : BranchId → RefOp.Kind → Prop) : Act → Prop
  | none | note (.stamped ..) => True
  | write b op _ | send b op _ _ => W b op.kind ∧ op.plain
  | sendDelete b => W b .delete
  | _ => False

def Local : Act → Prop
  | none | checkout .. => True
  | _ => False

def Claims (W : BranchId → RefOp.Kind → Prop) (a : Act) : Prop := a.Writes W ∨ a.Local

def Calm (W : BranchId → RefOp.Kind → Prop) (a : Act) : Prop := a.Edits W ∨ a.Local

/-- Any act but a collection's or one that gives a branch a lineage or a lineage a
base; refs only of `W`. -/
def Keeps (W : BranchId → RefOp.Kind → Prop) (a : Act) : Prop := a.In W ∧ a.nameless

/-- What goes into a new lineage before a ref names it. -/
def Builds : Act → Prop
  | none | mint | put .. | sendPut .. => True
  | _ => False

/-- What is copied into a new lineage: anything but a base. -/
def Copies (a : Act) : Prop := a.Builds ∧ a.nameless

/-- Acts that write no refs but those of `W`, and remove nothing. -/
def Grows (W : BranchId → RefOp.Kind → Prop) (a : Act) : Prop := a.In W ∧ a.spares

/-- Acts that write no refs but those of `W`, and remove at most what a lineage was
prepared with. -/
def Remakes (W : BranchId → RefOp.Kind → Prop) (a : Act) : Prop := a.In W ∧ a.tidy

def Collects : Act → Prop
  | none | sweep .. | stones _ | sendStones .. | flight _ => True
  | note (.marked ..) | note (.unmarked ..) => True
  | _ => False

theorem plain_names (h : op.plain) : op.names = .none := by
  cases op with
  | create _ => exact h.elim
  | delete => rfl
  | edit e => cases e <;> first | rfl | exact h.elim

variable {W : BranchId → RefOp.Kind → Prop} {a : Act}

theorem Edits.keeps (h : a.Edits W) : a.Keeps W := by
  cases a <;> simp_all [Edits, Keeps, In, nameless, plain_names]

theorem Writes.edits (h : a.Writes W) : a.Edits W := by
  cases a with
  | note e => cases e <;> first | exact h | exact h.elim
  | _ => first | exact h | exact h.elim

theorem Local.keeps (h : a.Local) : a.Keeps W := by
  cases a <;> simp_all [Local, Keeps, In, nameless]

theorem Calm.keeps (h : a.Calm W) : a.Keeps W := h.elim Edits.keeps Local.keeps

theorem Edits.grows (h : a.Edits W) : a.Grows W := by
  cases a <;> simp_all [Edits, Grows, In, spares]

theorem Local.grows (h : a.Local) : a.Grows W := by
  cases a <;> simp_all [Local, Grows, In, spares]

theorem Calm.grows (h : a.Calm W) : a.Grows W := h.elim Edits.grows Local.grows

theorem Builds.grows (h : a.Builds) : a.Grows W := by
  cases a <;> simp_all [Builds, Grows, In, spares]

theorem Grows.remakes (h : a.Grows W) : a.Remakes W := by
  refine ⟨h.1, ?_⟩
  cases a with
  | drop _ | sweep _ _ => exact h.2.elim
  | _ => trivial

end Act

/-! ## The acts of the backend calls -/

variable {etag : Option Ref} {r : Ref}

section Calls

variable {b : BranchId} (h0 : A .none)

include h0

theorem Change.refl {w : World} : Change env i A w w := ⟨.none, h0, trivial, rfl⟩

theorem getRef_does : Does env i A (getRef b) := .read h0 fun _ _ => rfl

theorem listRefs_does : Does env i A listRefs := .read h0 fun _ _ => rfl

theorem now_does : Does env i A (now env) := .read h0 fun _ _ => rfl

theorem ask_does : Does env i A ask := .read h0 fun _ _ => rfl

theorem getObj_does : Does env i A (getObj k) := .read h0 fun _ _ => rfl

theorem listData_does : Does env i A listData := .read h0 fun _ _ => rfl

theorem getCheckout_does {host : Nat} : Does env i A (getCheckout host b) :=
  .read h0 fun _ _ => rfl

theorem getSession_does {j : Nat} : Does env i A (getSession j) := .read h0 fun _ _ => rfl

section

variable (hw : ∀ after, A (.write b op after)) (hs : ∀ before after, A (.send b op before after))

include hw hs

theorem tryRef_does (happly : op.apply etag = some (some r.stored)) (hby : op.by i) (o : Oracle)
    (w : World) : Change env i A w (w.tryRef env o i b op r etag).1 := by
  have hland (hit : w.refs.lookup b = etag) :
      Change env i A w (w.land i b op (some r.stored)) :=
    ⟨.write b op (some r.stored), hw _, ⟨by rw [hit]; exact happly, hby⟩, rfl⟩
  simp only [World.tryRef]
  split
  · rename_i h
    exact hland h.1
  · split
    · exact .refl h0
    rename_i hset
    cases o.fate with
    | lost => exact .refl h0
    | landed =>
      dsimp only
      split
      · rename_i hit
        exact hland hit
      · exact .refl h0
    | pending => exact ⟨.send b op etag r.stored, hs _ _, ⟨by simpa using hset, happly, hby⟩, rfl⟩

theorem putRef_does (happly : op.apply etag = some (some r.stored)) (hby : op.by i) :
    Does env i A (putRef env i b op r etag) := .step fun o w => tryRef_does h0 hw hs happly hby o w

theorem putLease_does {lease : Lease} (hg : ∀ after lease, A (.grant b op after lease))
    (happly : op.apply etag = some (some r.stored)) (hplain : op.plain) (hon : lease.on r.stored)
    (hlineage : r.stored.lineage = r.lineage) :
    Does env i A (putLease env i b op r etag lease) := .step fun o w => by
  by_cases hhit : w.refs.lookup b = etag ∧ !o.fail
  · refine ⟨.grant b op r.stored lease, hg _ _, ⟨by rw [hhit.1]; exact happly, hplain, hon⟩, ?_⟩
    simp only [World.tryRef, hhit, and_self, if_true, Act.run, hlineage]
  · have htry : Change env i A w (w.tryRef env o i b op r etag).1 :=
      tryRef_does h0 hw hs happly hplain.by o w
    simp only [World.tryRef, hhit, if_false] at htry ⊢
    exact htry

end

theorem getRefHeld_does {holder : Holder} (hg : ∀ r lease, A (.adopt b r lease)) :
    Does env i A (getRefHeld i b holder) := .step fun o w => by
  split
  · exact .refl h0
  cases hr : w.refs.lookup b with
  | none => exact .refl h0
  | some r =>
    dsimp only
    split
    · rename_i hheld
      exact ⟨.adopt b r ⟨holder, r.epoch, r.leaseExpiry⟩, hg _ _, ⟨hr, hheld, rfl⟩, rfl⟩
    · exact .refl h0

theorem getRefFor_does {e : RefEdit} {unchanged : Ref → Bool} (he : ∀ r, A (.effect b e r))
    (hplain : RefOp.plain (.edit e)) (hsame : ∀ r, unchanged r → e.edit r = some r) :
    Does env i A (getRefFor i b e unchanged) := .step fun o w => by
  split
  · exact .refl h0
  cases hr : w.refs.lookup b with
  | none => exact .refl h0
  | some r =>
    dsimp only
    split
    · rename_i hun
      exact ⟨.effect b e r, he r, ⟨hr, hsame r hun, hplain⟩, rfl⟩
    · exact .refl h0

theorem deleteRefIf_does {etag : Ref} (hw : ∀ after, A (.write b .delete after))
    (hs : A (.sendDelete b)) : Does env i A (deleteRefIf env i b etag) := .step fun o w => by
  have hland : Change env i A w (w.land i b .delete none) :=
    ⟨.write b .delete none, hw _, ⟨rfl, trivial⟩, rfl⟩
  split
  · exact .refl h0
  split
  · split
    · exact .refl h0
    rename_i hcond
    cases o.fate with
    | lost => exact .refl h0
    | landed => exact hland
    | pending =>
      dsimp only
      split
      · exact .refl h0
      · rename_i hset
        exact ⟨.sendDelete b, hs, ⟨by simpa using hset, by simpa using hcond⟩, rfl⟩
  · exact hland

section Data

variable {k : DataKey}

theorem putIf_does {obj : Obj} (hp : A (.put k obj)) (hs : A (.sendPut k obj true)) :
    Does env i A (putIf env k obj) := .step fun o w => by
  have hput : Change env i A w (w.putObj k obj) :=
    ⟨.put k obj, hp, trivial, rfl⟩
  dsimp only
  split
  · exact hput
  split
  · exact .refl h0
  rename_i hset
  cases o.fate with
  | lost => exact .refl h0
  | landed =>
    dsimp only
    split
    · exact hput
    · exact .refl h0
  | pending => exact ⟨.sendPut k obj true, hs, by simpa [Act.ok] using hset, rfl⟩

theorem put_does {obj : Obj} (hp : A (.put k obj)) (hs : A (.sendPut k obj false)) :
    Does env i A (put env k obj) := .step fun o w => by
  have hput : Change env i A w (w.putObj k obj) :=
    ⟨.put k obj, hp, trivial, rfl⟩
  split
  · exact hput
  cases o.fate with
  | lost => exact .refl h0
  | landed => exact hput
  | pending =>
    dsimp only
    split
    · exact .refl h0
    · rename_i hset
      exact ⟨.sendPut k obj false, hs, by simpa [Act.ok] using hset, rfl⟩

theorem deleteObj_does (hd : A (.drop k)) : Does env i A (deleteObj k) := .step fun o w => by
  have hdrop : Change env i A w (w.dropObj k) :=
    ⟨.drop k, hd, trivial, rfl⟩
  split
  · exact hdrop
  · split
    · exact hdrop
    · exact .refl h0

theorem copyObject_does {src : DataKey} (hp : ∀ obj, A (.put k obj)) :
    Does env i A (copyObject k src) := .step fun o w => by
  cases w.objs.lookup src with
  | none => exact .refl h0
  | some obj =>
    have hput : Change env i A w (w.putObj k obj) :=
      ⟨.put k obj, hp obj, trivial, rfl⟩
    dsimp only
    split
    · split
      · exact hput
      · exact .refl h0
    · split
      · exact .refl h0
      · exact hput

end Data

theorem resolve_does {f : View DataKey → Except (ChainErr DataKey) α} {fuel : Nat} {c : Cache} :
    Does env i A (resolve f fuel c) := by
  induction fuel generalizing c with
  | zero => exact .pure _
  | succ fuel ih =>
    rw [resolve]
    split
    · exact .pure _
    · split
      · refine .bindOk (Does.read h0 fun _ _ => rfl) .ret fun c => ?_
        exact ih
      · exact .pure _

theorem chainAt_does {fuel : Nat} {l : Lineage} {t : Nat} : Does env i A (chainAt fuel l t) :=
  .bind (resolve_does h0) .ret

theorem getObjs_does {ks : List DataKey} : Does env i A (getObjs ks) := by
  induction ks with
  | nil => exact .pure _
  | cons k ks ih =>
    refine .bindOk (getObj_does h0) .ret fun obj => ?_
    exact .bindOk ih .ret .ret

theorem materializeMembers_does {members : List (ChainMember DataKey)} :
    Does env i A (materializeMembers members) := by
  refine .bindOk (getObjs_does h0) .ret fun objs => ?_
  dsimp only
  split <;> exact .pure _

end Calls

theorem note_does {e : Event} (hA : A (.note e)) (he : e.quiet) : Does env i A (note e) :=
  .step fun _ _ => ⟨.note e, hA, he, rfl⟩

theorem newLineageID_does (hA : A .mint) : Does env i A (newLineageID i) :=
  .step fun _ _ => ⟨.mint, hA, trivial, rfl⟩

theorem setFlight_does {f : Option Flight} (hA : A (.flight f)) : Does env i A (setFlight i f) :=
  .step fun _ _ => ⟨.flight f, hA, trivial, rfl⟩

theorem withSession_does {f : Session → Session × α} (hA : ∀ s, A (.session i s)) :
    Does env i A (withSession i f) := .step fun _ _ => ⟨.session i _, hA _, .inl rfl, rfl⟩

theorem setCheckout_does {host : Nat} {f : Checkout → Checkout}
    (hA : ∀ c, A (.checkout host b c)) : Does env i A (setCheckout host b f) :=
  .step fun _ _ => ⟨.checkout host b _, hA _, trivial, rfl⟩

end Offshoot
