import Offshoot.Lib.Trace
import Offshoot.System.Refs

/-!
# Taking the lease of a checkpoint

A checkpoint takes its branch's lease under a holder of its own.  The write that takes it
may land although it reports a failure, so the call reads the ref again, adopts the lease
it finds there, or gives it back when the ref no longer passes the caller's check.

What the call knows of the ref it knows from its last access: the last of its actions that
read the ref or changed one.  The facts below are about the past of a run as the call sees
it, and hold whatever the other threads do in between.
-/

namespace Offshoot

open Conc Maps List

def World.NoLease (w : World) (h : Holder) (b : BranchId) : Prop :=
  ∀ r, w.refs.lookup b = some r → r.leaseHolder ≠ some h

theorem World.NoLease.of_refs {w w' : World} {h : Holder} {b : BranchId} (hno : w.NoLease h b)
    (hrefs : w'.refs = w.refs) : w'.NoLease h b := by
  intro r hr
  exact hno r (by rw [← hrefs, hr])

def World.Claimed (w : World) (b : BranchId) : Prop :=
  ∃ r, w.refs.lookup b = some r ∧ (r.deleting = true ∨ r.reaping = true)

namespace Acquiring

variable {env : Env} {i : Nat} {b : BranchId} {z : Taken World Oracle}
  {past : List (Taken World Oracle)}

/-! ## Accesses -/

def Reads (i : Nat) (b : BranchId) (z : Taken World Oracle) : Prop :=
  z.prog.first = (getRef b).first ∨ z.prog.first = (getRefHeld i b i).first

/-- The action neither reads the ref nor changes one. -/
structure Idle (i : Nat) (b : BranchId) (z : Taken World Oracle) : Prop where
  refs : z.after.refs = z.before.refs
  unread : ¬ Reads i b z

/-- Thread `i` has accessed the refs, and `P` holds of the last action that did. -/
def Last (i : Nat) (b : BranchId) (P : Taken World Oracle → Prop)
    (past : List (Taken World Oracle)) : Prop :=
  ∃ newer z older, past = newer ++ z :: older ∧ z.thread = i ∧ P z ∧
    ∀ x ∈ newer, x.thread = i → Idle i b x

def Seen (i : Nat) (b : BranchId) (past : List (Taken World Oracle)) : Prop :=
  ∃ x ∈ past, x.thread = i ∧ Reads i b x

def Untouched (i : Nat) (past : List (Taken World Oracle)) : Prop :=
  ∀ x ∈ past, x.thread = i → x.after = x.before

/-- Only the first read of the ref may fail. -/
def Rereads (i : Nat) (b : BranchId) (past : List (Taken World Oracle))
    (z : Taken World Oracle) : Prop :=
  Reads i b z → Seen i b past → z.oracle.fail = false

/-! ## Actions that are no accesses -/

/-- Such an action changes nothing, and its answer does not depend on the refs. -/
def Blind (a : Action World Oracle) : Prop :=
  (∀ o w, (a.2 o w).1 = w) ∧ ∀ o w refs, (a.2 o { w with refs := refs }).2 = (a.2 o w).2

/-- Such a program sees no ref but those it is given. -/
def Aside : M α → Prop
  | .ret _ => True
  | .act f k => Blind ⟨_, f⟩ ∧ ∀ a, Aside (k a)

theorem Aside.bind {p : M α} {k : α → M β} (hp : Aside p) (hk : ∀ a, Aside (k a)) :
    Aside (p >>= k) := by
  induction p with
  | ret a => exact hk a
  | act f k' ih => exact ⟨hp.1, fun a => ih a (hp.2 a)⟩

theorem now_aside : Aside (now env) := ⟨⟨fun _ _ => rfl, fun _ _ _ => rfl⟩, fun _ => trivial⟩

theorem getCheckout_aside {host : Nat} : Aside (getCheckout host b) :=
  ⟨⟨fun _ _ => rfl, fun _ _ _ => rfl⟩, fun _ => trivial⟩

theorem checkpointCheck_aside {host : Nat} {name : String} {opts : CheckpointOptions} {r : Ref} :
    Aside (checkpointCheck env i host b name opts r) := by
  refine .bind now_aside fun t => ?_
  dsimp only
  split
  · exact trivial
  · exact .bind getCheckout_aside fun _ => trivial

theorem Reads.not_blind {a : Action World Oracle} (h : Reads i b z) (ha : z.prog.first = some a) :
    ¬ Blind a := by
  intro hblind
  have hanswer := hblind.2 .fine .empty (World.empty.setRef b (some
    ⟨0, 1, 0, 0, ∅, false, none, none, none, none, false, false, none, ∅, none⟩)).refs
  rw [Reads, ha] at h
  obtain h | h := h
  · cases h
    simp [Oracle.fine, World.lookup_setRef, World.empty] at hanswer
  · cases h
    simp [Oracle.fine, World.lookup_setRef, World.empty] at hanswer

theorem Reads.silent {a : Action World Oracle} (h : Reads i b z) (ha : z.prog.first = some a)
    {o : Oracle} {w : World} {j : Nat} {b' : BranchId} {op : RefOp} {before after : Option Ref}
    (hmem : Event.wrote j b' op before after ∈ (a.2 o w).1.log) :
    Event.wrote j b' op before after ∈ w.log := by
  rw [Reads, ha] at h
  obtain h | h := h
  · cases h
    exact hmem
  · cases h
    simp only at hmem
    split at hmem
    · exact hmem
    split at hmem
    · exact hmem
    · split at hmem
      · simpa [World.note] using hmem
      · exact hmem

theorem Reads.failed {f : Oracle → World → World × α} {k : α → M Unit} (h : Reads i b z)
    (hz : z.prog = .act f k) (hafter : z.after = (f z.oracle z.before).1)
    (hfail : z.oracle.fail = true) : z.after = z.before := by
  rw [Reads, hz] at h
  rw [hafter]
  obtain h | h := h
  · injection Option.some.inj h with hα hf
    subst hα
    obtain rfl := eq_of_heq hf
    rfl
  · injection Option.some.inj h with hα hf
    subst hα
    obtain rfl := eq_of_heq hf
    simp [hfail]

/-! ## Facts about the past -/

namespace Last

variable {P Q : Taken World Oracle → Prop}

theorem now (hz : z.thread = i) (h : P z) : Last i b P (z :: past) :=
  ⟨[], z, past, rfl, hz, h, by simp⟩

theorem others {others : List (Taken World Oracle)} (hothers : ∀ x ∈ others, x.thread ≠ i)
    (h : Last i b P past) : Last i b P (others ++ past) := by
  obtain ⟨newer, z, older, rfl, hz, hP, hidle⟩ := h
  refine ⟨others ++ newer, z, older, by simp, hz, hP, fun x hx hi => ?_⟩
  rcases mem_append.mp hx with hx | hx
  · exact absurd hi (hothers x hx)
  · exact hidle x hx hi

theorem idle (hz : Idle i b z) (h : Last i b P past) : Last i b P (z :: past) := by
  obtain ⟨newer, z', older, rfl, hz', hP, hidle⟩ := h
  refine ⟨z :: newer, z', older, rfl, hz', hP, fun x hx hi => ?_⟩
  rcases mem_cons.mp hx with rfl | hx
  · exact hz
  · exact hidle x hx hi

theorem mono (h : Last i b P past) (hPQ : ∀ z, P z → Q z) : Last i b Q past := by
  obtain ⟨newer, z, older, hpast, hz, hP, hidle⟩ := h
  exact ⟨newer, z, older, hpast, hz, hPQ z hP, hidle⟩

end Last

/-- Facts that other threads cannot end, nor actions that are no accesses. -/
structure Steady (i : Nat) (b : BranchId) (Q : List (Taken World Oracle) → Prop) : Prop where
  others : ∀ {others past}, (∀ x ∈ others, x.thread ≠ i) → Q past → Q (others ++ past)
  aside : ∀ {x : Taken World Oracle} {past}, x.after = x.before → ¬ Reads i b x → Q past →
    Q (x :: past)

theorem Steady.last {P : Taken World Oracle → Prop} : Steady i b (Last i b P) where
  others := Last.others
  aside hsame hread := .idle ⟨by rw [hsame], hread⟩

theorem Seen.cons (h : Seen i b past) : Seen i b (z :: past) := by
  obtain ⟨x, hx, hseen⟩ := h
  exact ⟨x, mem_cons_of_mem _ hx, hseen⟩

theorem Steady.seen : Steady i b (Seen i b) where
  others := by
    rintro others past - ⟨x, hx, hseen⟩
    exact ⟨x, mem_append_right _ hx, hseen⟩
  aside _ _ := Seen.cons

theorem Steady.untouched : Steady i b (Untouched i) where
  others := by
    intro others past hothers h x hx hi
    rcases mem_append.mp hx with hx | hx
    · exact absurd hi (hothers x hx)
    · exact h x hx hi
  aside := by
    intro x past hsame _ h
    rw [Untouched, forall_mem_cons]
    exact ⟨fun _ => hsame, h⟩

theorem Steady.and {Q Q' : List (Taken World Oracle) → Prop} (h : Steady i b Q)
    (h' : Steady i b Q') : Steady i b fun past => Q past ∧ Q' past where
  others hothers hQ := ⟨h.others hothers hQ.1, h'.others hothers hQ.2⟩
  aside hsame hread hQ := ⟨h.aside hsame hread hQ.1, h'.aside hsame hread hQ.2⟩

theorem Steady.or {Q Q' : List (Taken World Oracle) → Prop} (h : Steady i b Q)
    (h' : Steady i b Q') : Steady i b fun past => Q past ∨ Q' past where
  others hothers := Or.imp (h.others hothers) (h'.others hothers)
  aside hsame hread := Or.imp (h.aside hsame hread) (h'.aside hsame hread)

/-! ## Single actions -/

section Actions

variable {A : List (Taken World Oracle) → Taken World Oracle → Prop}
  {Q : List (Taken World Oracle) → Prop}

theorem Aside.tells {p : M α} {K : α → M Unit} (hp : Aside p) (hQ : Steady i b Q) (h : Q past) :
    p.Tells i A K (fun past _ => Q past) past := by
  induction p generalizing past with
  | ret a => exact h
  | act f k ih =>
    intro others o s hothers _
    refine ih _ (hp.2 _) (hQ.aside (hp.1.1 o s) (fun hread => ?_) (hQ.others hothers h))
    exact hread.not_blind rfl hp.1

def looked (b : BranchId) (w : World) : Result Ref :=
  match w.refs.lookup b with
  | some r => .ok r
  | none => .error .notFound

/-- The last action was a read of the ref by `p`, with `Q` before it, that answered `r`. -/
def Read (i : Nat) (b : BranchId) (Q : List (Taken World Oracle) → Prop) (p : M Unit)
    (r : Result Ref) (past : List (Taken World Oracle)) : Prop :=
  ∃ z older, past = z :: older ∧ z.thread = i ∧ Q older ∧ Reads i b z ∧ z.prog = p ∧
    z.after.refs = z.before.refs ∧
    (r = looked b z.before ∨ (∃ e, r = .error e) ∧ z.after = z.before ∧ ¬ Seen i b older)

theorem read_tells {f : Oracle → World → World × Result Ref} {K : Result Ref → M Unit}
    (hfirst : (Prog.step f).first = (getRef b).first ∨
      (Prog.step f).first = (getRefHeld i b i).first) (hrefs : ∀ o w, (f o w).1.refs = w.refs)
    (hok : ∀ o w, o.fail = false → (f o w).2 = looked b w)
    (hfail : ∀ o w, o.fail = true → f o w = (w, .error .backend)) (hQ : Steady i b Q) (h : Q past) :
    (Prog.step f).Tells i (Rereads i b) K (fun past r => Read i b Q (.act f K) r past) past := by
  intro others o w hothers hA
  have hread : Reads i b ⟨i, .act f K, o, w, (f o w).1⟩ := hfirst
  refine ⟨_, others ++ past, rfl, rfl, hQ.others hothers h, hread, rfl, hrefs o w, ?_⟩
  cases ho : o.fail with
  | false => exact .inl (hok o w ho)
  | true =>
    rw [hfail o w ho]
    refine .inr ⟨⟨_, rfl⟩, rfl, fun hseen => ?_⟩
    have hfalse : o.fail = false := hA hread hseen
    rw [ho] at hfalse
    cases hfalse

theorem getRef_tells {K : Result Ref → M Unit} (hQ : Steady i b Q) (h : Q past) :
    (getRef b).Tells i (Rereads i b) K (fun past r => Read i b Q (getRef b >>= K) r past) past :=
  read_tells (.inl rfl) (fun _ _ => rfl)
    (fun o w ho => by
      simp only [ho, looked]
      cases w.refs.lookup b <;> rfl)
    (fun _ _ ho => by simp [ho]) hQ h

theorem getRefHeld_tells {K : Result Ref → M Unit} (hQ : Steady i b Q) (h : Q past) :
    (getRefHeld i b i).Tells i (Rereads i b) K
      (fun past r => Read i b Q (getRefHeld i b i >>= K) r past) past := by
  refine read_tells (.inr rfl) (fun o w => ?_) (fun o w ho => ?_) (fun _ _ ho => by simp [ho]) hQ h
  · split
    · rfl
    split
    · rfl
    · split <;> rfl
  · simp only [ho, looked]
    cases w.refs.lookup b <;> rfl

def Put (i : Nat) (b : BranchId) (Q : List (Taken World Oracle) → Prop) (next : Ref)
    (res : Result Unit) (past : List (Taken World Oracle)) : Prop :=
  ∃ z older, past = z :: older ∧ z.thread = i ∧ Q older ∧ ¬ Reads i b z ∧
    (z.after.refs.lookup b = some next ∨ z.after.refs = z.before.refs ∧ ∀ u, res ≠ .ok u)

theorem tryRef_refs {w : World} {o : Oracle} {op : RefOp} {r : Ref} {etag : Option Ref} :
    (w.tryRef env o i b op r etag).1.refs.lookup b = some r.stored ∨
      (w.tryRef env o i b op r etag).1.refs = w.refs ∧
        ∀ u, (w.tryRef env o i b op r etag).2 ≠ .ok u := by
  have hland : (w.land i b op (some r.stored)).refs.lookup b = some r.stored := by
    rw [World.lookup_land, if_pos rfl]
  simp only [World.tryRef]
  split
  · exact .inl hland
  split
  · exact .inr ⟨rfl, by simp⟩
  split
  · exact .inr ⟨rfl, by simp⟩
  · split
    · exact .inl hland
    · exact .inr ⟨rfl, by simp⟩
  · exact .inr ⟨rfl, by simp⟩

theorem tryRef_hit {w : World} {op : RefOp} {r : Ref} {etag : Option Ref}
    (hit : w.refs.lookup b = etag) :
    w.tryRef env .fine i b op r etag = (w.land i b op (some r.stored), .ok ()) := by
  simp [World.tryRef, hit, Oracle.fine]

theorem write_tells {f : Oracle → World → World × Result Unit} {K : Result Unit → M Unit}
    {next : Ref} (etag : Option Ref) (op : RefOp)
    (hrefs : ∀ o w, (f o w).1.refs.lookup b = some next ∨
      (f o w).1.refs = w.refs ∧ ∀ u, (f o w).2 ≠ .ok u)
    (hlog : ∀ w, w.refs.lookup b = etag → Event.wrote i b op etag (some next) ∈ (f .fine w).1.log)
    (hQ : Steady i b Q) (h : Q past) :
    (Prog.step f).Tells i A K (fun past res => Put i b Q next res past) past := by
  intro others o w hothers _
  refine ⟨_, others ++ past, rfl, rfl, hQ.others hothers h, fun hread => ?_, hrefs o w⟩
  have hmem := hlog (World.empty.setRef b etag) (by rw [World.lookup_setRef, if_pos rfl])
  have hold := hread.silent rfl hmem
  cases etag <;> cases hold

theorem putRef_tells {op : RefOp} {r : Ref} {etag : Option Ref} {K : Result Unit → M Unit}
    (hQ : Steady i b Q) (h : Q past) :
    (putRef env i b op r etag).Tells i A K (fun past res => Put i b Q r.stored res past) past := by
  refine write_tells etag op (fun _ _ => tryRef_refs) (fun w hw => ?_) hQ h
  rw [tryRef_hit hw, World.land_log, hw]
  exact mem_cons_self

theorem putLease_tells {op : RefOp} {r : Ref} {etag : Option Ref} {lease : Lease}
    {K : Result Unit → M Unit} (hQ : Steady i b Q) (h : Q past) :
    (putLease env i b op r etag lease).Tells i A K
      (fun past res => Put i b Q r.stored res past) past := by
  refine write_tells etag op (fun o w => ?_) (fun w hw => ?_) hQ h
  · have hrefs := @tryRef_refs env i b w o op r etag
    generalize w.tryRef env o i b op r etag = res at hrefs
    obtain ⟨w', res⟩ := res
    cases res with
    | error e => exact hrefs
    | ok u => exact hrefs.imp_right fun hsame => absurd rfl (hsame.2 u)
  · rw [tryRef_hit hw]
    refine mem_cons_of_mem _ ?_
    rw [World.land_log, hw]
    exact mem_cons_self

end Actions

/-! ## Giving the lease back -/

/-- A release finds the lease, unclaimed. -/
def Releasing (env : Env) (i : Nat) (b : BranchId) (z : Taken World Oracle) : Prop :=
  (∃ l K, z.prog = (releaseLease env i b l >>= K)) ∧ ¬ z.before.NoLease i b ∧ ¬ z.before.Claimed b

/-- At its last access the call left no lease or found a claim, unless a release of it did not
take effect. -/
def Settled (env : Env) (i : Nat) (b : BranchId) : List (Taken World Oracle) → Prop :=
  Last i b fun z => z.after.NoLease i b ∨ Reads i b z ∧ z.before.Claimed b ∨ Releasing env i b z

theorem noLease_of_looked {w : World} {e : Err} (h : looked b w = .error e) : w.NoLease i b := by
  intro r hr
  simp [looked, hr] at h

theorem lookup_of_looked {w : World} {r : Ref} (h : looked b w = .ok r) :
    w.refs.lookup b = some r := by
  unfold looked at h
  split at h
  · rename_i hr
    rw [hr, Except.ok.inj h]
  · cases h

theorem releaseLease_tells {l : Lease} {K : Result Unit → M Unit} (h : Seen i b past) :
    (releaseLease env i b l).Tells i (Rereads i b) K
      (fun past _ => Seen i b past ∧ Settled env i b past) past := by
  refine .bind (getRef_tells .seen h) fun r past hr => ?_
  obtain ⟨z, older, rfl, hz, hseen, hread, hprog, hrefs, hr | ⟨-, -, hunseen⟩⟩ := hr
  case inr => exact absurd hseen hunseen
  have hseen' : Seen i b (z :: older) := ⟨z, mem_cons_self, hz, hread⟩
  subst hr
  cases hlook : looked b z.before with
  | error e =>
    exact ⟨hseen', .now hz (.inl ((noLease_of_looked hlook).of_refs hrefs))⟩
  | ok ref =>
    have hcur := lookup_of_looked hlook
    have hset : Settled env i b (z :: older) := by
      refine .now hz ?_
      by_cases hno : z.before.NoLease i b
      · exact .inl (hno.of_refs hrefs)
      · by_cases hclaimed : z.before.Claimed b
        · exact .inr (.inl ⟨hread, hclaimed⟩)
        · exact .inr (.inr ⟨⟨l, K, hprog⟩, hno, hclaimed⟩)
    dsimp only
    split
    · exact ⟨hseen', hset⟩
    refine .bind (Aside.tells now_aside (Steady.seen.and .last) ⟨hseen', hset⟩) fun t past h => ?_
    refine (putRef_tells (Steady.seen.and .last) h).mono fun past res hres => ?_
    obtain ⟨z', older', rfl, hz', ⟨hseen, hset⟩, hunread, hlanded | ⟨hsame, -⟩⟩ := hres
    · refine ⟨hseen.cons, .now hz' (.inl fun r hr => ?_)⟩
      cases hlanded.symm.trans hr
      simp [Ref.clearLease, Ref.touch]
    · exact ⟨hseen.cons, hset.idle ⟨hsame, hunread⟩⟩

theorem releaseCheckpointLease_tells {l : Lease} {K : Unit → M Unit} {n : Nat}
    (hseen : Seen i b past) (h : n = 0 → Settled env i b past) :
    (releaseCheckpointLease env i b l n).Tells i (Rereads i b) K
      (fun past _ => Settled env i b past) past := by
  induction n generalizing past with
  | zero => exact h rfl
  | succ n ih =>
    refine .bind (getRef_tells .seen hseen) fun r past hr => ?_
    obtain ⟨z, older, rfl, hz, hseen, hread, -, hrefs, hr | ⟨-, -, hunseen⟩⟩ := hr
    case inr => exact absurd hseen hunseen
    have hseen' : Seen i b (z :: older) := ⟨z, mem_cons_self, hz, hread⟩
    subst hr
    cases hlook : looked b z.before
    case ok ref =>
      dsimp only
      split
      · rename_i hclaim
        rw [Bool.or_eq_true] at hclaim
        exact .now hz (.inr (.inl ⟨hread, ref, lookup_of_looked hlook, hclaim⟩))
      refine .bind (releaseLease_tells hseen') fun r past h => ?_
      split
      · exact ih h.1 fun _ => h.2
      · exact h.2
    case error e =>
      refine .bind (releaseLease_tells hseen') fun r past h => ?_
      split
      · exact ih h.1 fun _ => h.2
      · exact h.2

theorem releaseIfOurs_tells {read : Ref} {K : Unit → M Unit} (hseen : Seen i b past)
    (h : Last i b (fun z => z.after.refs.lookup b = some read) past) :
    (releaseIfOurs env i b read).Tells i (Rereads i b) K (fun past _ => Settled env i b past)
      past := by
  unfold releaseIfOurs
  split
  · exact releaseCheckpointLease_tells hseen (by simp)
  · rename_i hne
    refine h.mono fun z hz => .inl fun r hr => ?_
    cases hz.symm.trans hr
    exact hne

/-! ## Taking it -/

/-- The call has the lease: at its last access the ref granted it. -/
def Granted (i : Nat) (b : BranchId) (lease : Lease) (ref : Ref)
    (past : List (Taken World Oracle)) :
    Prop :=
  lease.holder = i ∧ lease.on ref ∧ Last i b (fun z => z.after.refs.lookup b = some ref) past

/-- Before an attempt: the call has done nothing yet, or it has read the ref and left no lease. -/
def Ready (i : Nat) (b : BranchId) (past : List (Taken World Oracle)) : Prop :=
  Untouched i past ∨ Seen i b past ∧ Last i b (fun z => z.after.NoLease i b) past

/-- The ref passed the check, or is one that did with the lease put on it. -/
def Passed (i ttl : Nat) (P : Ref → Prop) (ref : Ref) : Prop :=
  ∃ read, P read ∧ (ref = read ∨ ∃ t, ref = (read.acquireLease i ttl t).stored)

section Taking

variable {ttl : Nat} {check : Ref → M (Result Unit)} {P : Ref → Prop}

def Attempted (env : Env) (i : Nat) (b : BranchId) (ttl : Nat) (P : Ref → Prop)
    (past : List (Taken World Oracle)) : Acquired → Prop
  | .granted lease ref => Granted i b lease ref past ∧ Passed i ttl P ref
  | .refused read _ => Seen i b past ∧ Last i b (fun z => z.after.refs.lookup b = some read) past
  | .failed none _ => Untouched i past ∨ Settled env i b past
  | .failed (some _) _ => Seen i b past

theorem acquireLeaseRefIf_tells {t : Nat} {K : Acquired → M Unit} (hcheck : ∀ r, Aside (check r))
    (hP : ∀ r, (check r).Returns fun res => res = .ok () → P r) (h : Ready i b past) :
    (acquireLeaseRefIf env i b i ttl t check).Tells i (Rereads i b) K
      (Attempted env i b ttl P) past := by
  have hsteady : Steady i b (Ready i b) := .or .untouched (.and .seen .last)
  refine .bind (getRef_tells hsteady h) fun r past hr => ?_
  obtain ⟨z, older, rfl, hz, hready, hread, -, hrefs, hr⟩ := hr
  have hseen : Seen i b (z :: older) := ⟨z, mem_cons_self, hz, hread⟩
  obtain rfl | ⟨⟨e, rfl⟩, hsame, hunseen⟩ := hr
  case inr =>
    -- Only the first read may fail, and it changes nothing.
    refine .inl ?_
    rw [Untouched, forall_mem_cons]
    exact ⟨fun _ => hsame, hready.resolve_right fun h => hunseen h.1⟩
  cases hlook : looked b z.before with
  | error e => exact .inr (.now hz (.inl ((noLease_of_looked hlook).of_refs hrefs)))
  | ok ref =>
    have hcur : Last i b (fun z => z.after.refs.lookup b = some ref) (z :: older) :=
      .now hz (by rw [hrefs, lookup_of_looked hlook])
    refine .bind (((hcheck ref).tells (.and .seen .last) ⟨hseen, hcur⟩).returns (hP ref))
      fun res past h => ?_
    obtain ⟨⟨hseen, hcur⟩, hpass⟩ := h
    cases res with
    | error e => exact ⟨hseen, hcur⟩
    | ok u =>
      dsimp only
      split
      · exact hseen
      split
      · exact hseen
      split
      · exact hseen
      refine .bind (putLease_tells .seen hseen) fun res past hres => ?_
      obtain ⟨z, older, rfl, hz, hseen, -, hlanded⟩ := hres
      cases res with
      | ok u =>
        have hstored := hlanded.resolve_right fun h => h.2 u rfl
        have hon : (⟨i, (ref.acquireLease i ttl t).epoch, (ref.acquireLease i ttl t).leaseExpiry⟩ :
            Lease).on (ref.acquireLease i ttl t).stored := by
          simp [Lease.on, Ref.acquireLease]
        exact ⟨⟨rfl, hon, .now hz hstored⟩, ref, hpass rfl, .inr ⟨t, rfl⟩⟩
      | error e =>
        cases e <;> exact hseen.cons

def Reread (i : Nat) (b : BranchId) (past : List (Taken World Oracle)) :
    Result (Option Lease × Ref) → Prop
  | .error _ => Last i b (fun z => z.after.NoLease i b) past
  | .ok (some lease, ref) => Seen i b past ∧ Granted i b lease ref past
  | .ok (none, _) => Seen i b past ∧ Last i b (fun z => z.after.NoLease i b) past

theorem settleAcquire_tells {K : Result (Option Lease × Ref) → M Unit} (h : Seen i b past) :
    (settleAcquire i b i).Tells i (Rereads i b) K (Reread i b) past := by
  refine .bind (getRefHeld_tells .seen h) fun r past hr => ?_
  obtain ⟨z, older, rfl, hz, hseen, hread, -, hrefs, rfl | ⟨-, -, hunseen⟩⟩ := hr
  case inr => exact absurd hseen hunseen
  have hseen' : Seen i b (z :: older) := ⟨z, mem_cons_self, hz, hread⟩
  cases hlook : looked b z.before with
  | error e => exact .now hz ((noLease_of_looked hlook).of_refs hrefs)
  | ok ref =>
    have hcur : z.after.refs.lookup b = some ref := by rw [hrefs, lookup_of_looked hlook]
    dsimp only
    split
    · rename_i hours
      exact ⟨hseen', rfl, ⟨hours, rfl⟩, .now hz hcur⟩
    · rename_i hours
      refine ⟨hseen', .now hz fun r hr => ?_⟩
      cases hcur.symm.trans hr
      exact hours

def Told (env : Env) (i : Nat) (b : BranchId) (ttl : Nat) (P : Ref → Prop)
    (past : List (Taken World Oracle)) : Result (Lease × Ref) → Prop
  | .ok (lease, ref) => Granted i b lease ref past ∧ Passed i ttl P ref
  | .error _ => Untouched i past ∨ Settled env i b past

theorem Ready.told (h : Ready i b past) {e : Err} : Told env i b ttl P past (.error e) :=
  h.imp_right fun h => h.2.mono fun _ hno => .inl hno

theorem acquireCheckpointLease_tells {n : Nat} {K : Result (Lease × Ref) → M Unit}
    (hcheck : ∀ r, Aside (check r)) (hP : ∀ r, (check r).Returns fun res => res = .ok () → P r)
    (h : Ready i b past) :
    (acquireCheckpointLease env i b ttl check n).Tells i (Rereads i b) K (Told env i b ttl P)
      past := by
  have hsteady : Steady i b (Ready i b) := .or .untouched (.and .seen .last)
  induction n generalizing past with
  | zero => exact h.told
  | succ n ih =>
    refine .bind (now_aside.tells hsteady h) fun t past h => ?_
    refine .bind (acquireLeaseRefIf_tells hcheck hP h) fun r past hr => ?_
    split
    · exact hr
    · refine .bind (releaseIfOurs_tells hr.1 hr.2) fun _ past h => ?_
      exact .inr h
    · exact hr
    · refine .bind (settleAcquire_tells hr) fun r past hr => ?_
      split
      · exact .inr (hr.mono fun _ hno => .inl hno)
      · -- The acquire landed: the ref found is checked in its turn.
        rename_i lease cur
        obtain ⟨hseen, hholder, hon, hcur⟩ := hr
        refine .bind (((hcheck cur).tells (.and .seen .last) ⟨hseen, hcur⟩).returns (hP cur))
          fun res past h => ?_
        obtain ⟨⟨hseen, hcur⟩, hpass⟩ := h
        cases res with
        | error e =>
          refine .bind (releaseCheckpointLease_tells hseen (by simp)) fun _ past h => ?_
          exact .inr h
        | ok u => exact ⟨⟨hholder, hon, hcur⟩, cur, hpass rfl, .inl rfl⟩
      · refine .bind (now_aside.tells (.and .seen .last) hr) fun t past hr => ?_
        split
        · exact Ready.told (.inr hr)
        split
        · exact Ready.told (.inr hr)
        split
        · exact Ready.told (.inr hr)
        · exact ih (.inr hr)

end Taking

end Acquiring

end Offshoot
