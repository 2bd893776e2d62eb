import Offshoot.Lifecycle.Claims

/-!
# Touching and reaping

A reaper claims a branch whose time to live has run out and then destroys it.  While
the claim is on the ref no touch takes effect, so the time stays run out; but every
reaper that has claimed a branch relies on the one flag, and any of them may take it
off.  Where none takes it off under another, a branch is destroyed only when the
deadline of every touch of it has passed.
-/

namespace Offshoot

open Conc Maps List

variable {env : Env} {w w' : World} {i j host : Nat} {b : BranchId}
variable {t : Nat} {op : RefOp} {after : Option Ref}

def Ref.dueBy (r : Ref) (t : Nat) : Prop := ∃ d ∈ reapDeadline r, d ≤ t

instance (r : Ref) (t : Nat) : Decidable (r.dueBy t) :=
  inferInstanceAs (Decidable (∃ d ∈ reapDeadline r, d ≤ t))

variable {r : Ref}

theorem Ref.dueBy.mono {t' : Nat} (h : r.dueBy t) (hle : t ≤ t') : r.dueBy t' := by
  obtain ⟨d, hd, hdt⟩ := h
  exact ⟨d, hd, hdt.trans hle⟩

/-- The reapers that have claimed a branch, after one more event. -/
def reapersAfter (b : BranchId) : Event → List Nat → List Nat
  | .wrote i b' (.edit .claimReap) _ _, rs => if b' = b then i :: rs else rs
  | .wrote _ b' (.edit .unclaimReap) _ _, rs => if b' = b then [] else rs
  | _, rs => rs

/-- The reapers that have claimed `b` since the claim was last taken off. -/
def World.reapers (w : World) (b : BranchId) : List Nat := w.log.foldr (reapersAfter b) []

def World.Touched (w : World) (i : Nat) (b : BranchId) (r : Ref) : Prop :=
  ∃ ttl now before, Event.wrote i b (.edit (.touch ttl now)) before (some r) ∈ w.log

/-! ## What is asked of each write -/

/-- A reaper claims a branch whose time has run out, and a branch is removed by a
reaper that has claimed it. -/
def ReapOK (i : Nat) (w : World) (b : BranchId) : RefOp → Prop
  | .edit .claimReap => ∀ r, w.refs.lookup b = some r → r.dueBy w.clock
  | .delete => i ∈ w.reapers b
  | .edit (.touch ..) | .edit .unclaimReap | .edit (.claimDelete _) | .edit .unclaimDelete => True
  | _ => False

/-- What touches and reapers do; a touch reports success when it has taken effect. -/
def Act.orderly (i : Nat) (w : World) : Act → Prop
  | none | checkout .. | clock _ | flight _ | note (.stamped ..) | note (.called ..) => True
  | note (.returned j b out) => out = .done → ∃ r, w.Touched j b r
  | write b op _ => ReapOK i w b op
  | _ => False

def Orderly (env : Env) (i : Nat) (w w' : World) : Prop :=
  ∃ a : Act, a.ok env i w ∧ a.orderly i w ∧ a.run i w = w'

structure Apart (w w' : World) : Prop where
  /-- A reap claim is taken off only when no other reaper has claimed the branch too. -/
  unclaim : ∀ {j b after}, Wrote w w' j b (.edit .unclaimReap) after → ∀ i ∈ w.reapers b, i = j
  /-- A touch does not bring forward the deadline an earlier touch has set. -/
  touch : ∀ {j b ttl now r'}, Wrote w w' j b (.edit (.touch ttl now)) (some r') →
    ∀ {i r}, w.Touched i b r → ∀ d ∈ reapDeadline r', r.dueBy d

/-! ## The invariant -/

structure ReapInv (w : World) : Prop where
  /-- A branch that a reaper has claimed stays claimed, and its time has run out. -/
  due : ∀ {b r}, w.refs.lookup b = some r → w.reapers b ≠ [] → r.reaping = true ∧ r.dueBy w.clock
  /-- A branch is not due before the deadline of any touch of it. -/
  touched : ∀ {i b r' r}, w.Touched i b r' → w.refs.lookup b = some r → ∀ d ∈ reapDeadline r,
    r'.dueBy d
  /-- When a branch is gone those deadlines have passed. -/
  gone : ∀ {i b r'}, w.Touched i b r' → w.refs.lookup b = none → r'.dueBy w.clock
  answered : ∀ {i b}, Event.returned i b .done ∈ w.log → ∃ r, w.Touched i b r

theorem ReapInv.init (hlog : w.log = []) : ReapInv w where
  due _ h := by simp [World.reapers, hlog] at h
  touched h := by
    obtain ⟨_, _, _, h⟩ := h
    simp [hlog] at h
  gone h := by
    obtain ⟨_, _, _, h⟩ := h
    simp [hlog] at h
  answered h := by simp [hlog] at h

variable {rs : List Nat}

theorem reapersAfter_of_not_wrote {e : Event}
    (he : ∀ j b op before after, e ≠ .wrote j b op before after) : reapersAfter b e rs = rs := by
  cases e with
  | wrote j b' op before after => exact absurd rfl (he _ _ _ _ _)
  | _ => rfl

theorem foldr_reapersAfter {news : List Event}
    (h : ∀ e ∈ news, ∀ j b op before after, e ≠ Event.wrote j b op before after) :
    news.foldr (reapersAfter b) rs = rs := by
  induction news with
  | nil => rfl
  | cons e news ih =>
    rw [forall_mem_cons] at h
    rw [foldr_cons, ih h.2, reapersAfter_of_not_wrote h.1]

theorem Unwritten.reapers (h : Unwritten w w') (b : BranchId) : w'.reapers b = w.reapers b := by
  obtain ⟨news, hlog, hnews⟩ := h.log
  rw [World.reapers, hlog, foldr_append, foldr_reapersAfter hnews]
  rfl

variable {b' : BranchId}

theorem Wrote.reapers (h : Wrote w w' j b' op after) (b : BranchId) :
    w'.reapers b = reapersAfter b (.wrote j b' op (w.refs.lookup b') after) (w.reapers b) := by
  obtain ⟨news, hlog, hnews⟩ := h.log
  rw [World.reapers, hlog, foldr_append, foldr_reapersAfter]
  · rfl
  · intro e he
    obtain ⟨_, _, _, _, rfl⟩ := hnews e he
    simp

theorem Unwritten.touched (h : Unwritten w w') (ht : w'.Touched i b r) : w.Touched i b r := by
  obtain ⟨news, hlog, hnews⟩ := h.log
  obtain ⟨ttl, now, before, ht⟩ := ht
  rw [hlog, mem_append] at ht
  exact ⟨ttl, now, before, ht.resolve_left fun h => hnews _ h _ _ _ _ _ rfl⟩

theorem Wrote.touched (h : Wrote w w' j b' op after) (ht : w'.Touched i b r) :
    w.Touched i b r ∨ b' = b ∧ after = some r ∧ ∃ ttl now, op = .edit (.touch ttl now) := by
  obtain ⟨news, hlog, hnews⟩ := h.log
  obtain ⟨ttl, now, before, ht⟩ := ht
  rw [hlog, mem_append, mem_cons] at ht
  rcases ht with ht | ht | ht
  · obtain ⟨_, _, _, _, heq⟩ := hnews _ ht
    cases heq
  · cases ht
    exact .inr ⟨rfl, rfl, ttl, now, rfl⟩
  · exact .inl ⟨ttl, now, before, ht⟩

variable {a : Act}

/-- An orderly act writes one ref or none. -/
theorem Act.orderly.cases (h : a.orderly i w) (hok : a.ok env i w) :
    Unwritten w (a.run i w) ∨ ∃ b op after, Wrote w (a.run i w) i b op after ∧ ReapOK i w b op := by
  cases a with
  | write b op after => exact .inr ⟨b, op, after, wrote_land hok.1, h⟩
  | none | checkout _ _ _ | clock _ | flight _ => exact .inl (.of_eq rfl rfl)
  | note e => exact .inl (.of_cons rfl rfl (Event.quiet.not_wrote hok))
  | _ => exact h.elim

theorem reapDeadline_congr {r' : Ref}
    (h : r'.ttl = r.ttl ∧ r'.touchedAt = r.touchedAt ∧ r'.leaseExpiry = r.leaseExpiry) :
    reapDeadline r' = reapDeadline r := by
  unfold reapDeadline
  rw [h.1, h.2.1, h.2.2]

theorem World.Touched.mono (h : w.Touched i b r) (hlog : w.log ⊆ w'.log) : w'.Touched i b r := by
  obtain ⟨ttl, now, before, h⟩ := h
  exact ⟨ttl, now, before, hlog h⟩

theorem Act.orderly.answered (h : a.orderly i w) (he : Event.returned j b .done ∈ (a.run i w).log) :
    Event.returned j b .done ∈ w.log ∨ ∃ r, w.Touched j b r := by
  cases a with
  | none | checkout _ _ _ | clock _ | flight _ => exact .inl he
  | note e =>
    rcases mem_cons.mp he with rfl | he
    · exact .inr (h rfl)
    · exact .inl he
  | write b' op after =>
    rcases mem_cons.mp he with heq | he
    · cases heq
    · exact .inl he
  | _ => exact h.elim

/-- The writes a reaper and a touch make, by what they do to the claim and to the
deadline. -/
theorem ReapOK.cases (hok : ReapOK i w b op) (happly : op.apply (some r) = some after) :
    (∃ ttl now r', op = .edit (.touch ttl now) ∧ after = some r' ∧ r.reaping = false) ∨
    (op = .delete ∧ after = none) ∨
    ∃ r', after = some r' ∧ reapDeadline r' = reapDeadline r ∧
      (op = .edit .claimReap ∧ r'.reaping = true ∨ op = .edit .unclaimReap ∨
        op.kind.destroys ∧ r'.reaping = r.reaping) := by
  cases op with
  | create _ => exact hok.elim
  | delete =>
    cases happly
    exact .inr (.inl ⟨rfl, rfl⟩)
  | edit e =>
    obtain ⟨r₁, hr₁, rfl⟩ := RefOp.edit_apply happly
    obtain ⟨e', he', hf⟩ := RefOp.apply_flags happly
    obtain rfl := RefOp.edit.inj he'
    cases e with
    | touch ttl now =>
      refine .inl ⟨ttl, now, r₁.stored, rfl, rfl, ?_⟩
      simp only [RefEdit.edit] at hr₁
      split at hr₁
      · cases hr₁
      · rename_i hreap
        simpa using hreap
    | claimReap =>
      refine .inr (.inr ⟨r₁.stored, rfl, reapDeadline_congr (hf.activity (by simp [RefEdit.kind])),
        .inl ⟨rfl, ?_⟩⟩)
      cases hr₁
      unfold Ref.stored
      split <;> rfl
    | unclaimReap =>
      exact .inr (.inr ⟨r₁.stored, rfl, reapDeadline_congr (hf.activity (by simp [RefEdit.kind])),
        .inr (.inl rfl)⟩)
    | claimDelete _ | unclaimDelete =>
      exact .inr (.inr ⟨r₁.stored, rfl, reapDeadline_congr (hf.activity (by simp [RefEdit.kind])),
        .inr (.inr ⟨trivial, hf.reaping (by simp [RefEdit.kind]) (by simp [RefEdit.kind])⟩)⟩)
    | _ => exact hok.elim

theorem RefOp.apply_none (hok : ReapOK i w b op) (happly : op.apply none = some after) :
    op = .delete ∧ after = none := by
  cases op with
  | create _ => exact hok.elim
  | delete => exact ⟨rfl, (Option.some.inj happly).symm⟩
  | edit e => cases happly

theorem reapersAfter_ne {before : Option Ref} (hb : b' ≠ b) :
    reapersAfter b (.wrote j b' op before after) rs = rs := by
  cases op with
  | edit e => cases e <;> simp [reapersAfter, hb]
  | _ => rfl

theorem reapersAfter_other {before : Option Ref} (hc : op ≠ .edit .claimReap)
    (hu : op ≠ .edit .unclaimReap) : reapersAfter b (.wrote j b' op before after) rs = rs := by
  cases op with
  | edit e =>
    cases e with
    | claimReap => exact absurd rfl hc
    | unclaimReap => exact absurd rfl hu
    | _ => rfl
  | _ => rfl

theorem RefOp.Kind.destroys.ne_reap (h : op.kind.destroys) :
    op ≠ .edit .claimReap ∧ op ≠ .edit .unclaimReap := by
  constructor <;> rintro rfl <;> exact h

theorem ReapInv.wrote (h : ReapInv w) (hw : Wrote w w' i b op after) (hok : ReapOK i w b op)
    (hap : Apart w w') (hclock : w.clock ≤ w'.clock) :
    (∀ r, after = some r → w'.reapers b ≠ [] → r.reaping = true ∧ r.dueBy w'.clock) ∧
    (∀ j r' r, w'.Touched j b r' → after = some r → ∀ d ∈ reapDeadline r, r'.dueBy d) ∧
    ∀ j r', w'.Touched j b r' → after = none → r'.dueBy w'.clock := by
  have hreapers := hw.reapers b
  cases hr : w.refs.lookup b with
  | none =>
    obtain ⟨rfl, rfl⟩ := RefOp.apply_none hok (hr ▸ hw.apply)
    refine ⟨fun _ h => absurd h.symm (Option.some_ne_none _),
      fun _ _ _ _ h => absurd h.symm (Option.some_ne_none _), fun j r' ht _ => ?_⟩
    rcases hw.touched ht with ht | ⟨-, hnone, -⟩
    · exact (h.gone ht hr).mono hclock
    · cases hnone
  | some r =>
    rcases hok.cases (hr ▸ hw.apply) with ⟨ttl, now, r', rfl, rfl, hreap⟩ | ⟨rfl, rfl⟩ |
      ⟨r', rfl, hsame, hkind⟩
    · -- A touch: nobody has claimed the branch.
      refine ⟨fun _ _ hne => ?_, fun j r'' _ ht heq d hd => ?_,
        fun _ _ _ h => absurd h (Option.some_ne_none _)⟩
      · rw [hreapers, reapersAfter_other (by simp) (by simp)] at hne
        rw [(h.due hr hne).1] at hreap
        cases hreap
      · cases heq
        rcases hw.touched ht with ht | ⟨-, heq, -⟩
        · exact hap.touch hw ht d hd
        · cases heq
          exact ⟨d, hd, le_rfl⟩
    · refine ⟨fun _ h => absurd h.symm (Option.some_ne_none _),
      fun _ _ _ _ h => absurd h.symm (Option.some_ne_none _), fun j r' ht _ => ?_⟩
      rcases hw.touched ht with ht | ⟨-, hnone, -⟩
      · obtain ⟨-, d, hd, hle⟩ := h.due hr (ne_nil_of_mem hok)
        exact (h.touched ht hr d hd).mono (hle.trans hclock)
      · cases hnone
    · have htouched : ∀ j r'' r, w'.Touched j b r'' → some r' = some r →
          ∀ d ∈ reapDeadline r, r''.dueBy d := by
        intro j r'' _ ht heq d hd
        cases heq
        rcases hw.touched ht with ht | ⟨-, -, ttl, now, rfl⟩
        · exact h.touched ht hr d (hsame ▸ hd)
        · rcases hkind with ⟨heq, -⟩ | heq | ⟨hk, -⟩
          · cases heq
          · cases heq
          · exact hk.elim
      refine ⟨fun _ heq hne => ?_, htouched, fun _ _ _ h => absurd h (Option.some_ne_none _)⟩
      cases heq
      have hdue {t : Nat} (hd : r.dueBy t) : r'.dueBy t := by
        unfold Ref.dueBy
        rw [hsame]
        exact hd
      rcases hkind with ⟨rfl, hreap⟩ | rfl | ⟨hk, hreap⟩
      · exact ⟨hreap, (hdue (hok r hr)).mono hclock⟩
      · simp [hreapers, reapersAfter] at hne
      · rw [hreapers, reapersAfter_other hk.ne_reap.1 hk.ne_reap.2] at hne
        obtain ⟨hreap', hd⟩ := h.due hr hne
        exact ⟨hreap.trans hreap', (hdue hd).mono hclock⟩

theorem ReapInv.run (h : ReapInv w) (hok : a.ok env i w) (ha : a.orderly i w)
    (hap : Apart w (a.run i w)) : ReapInv (a.run i w) := by
  have hclock : w.clock ≤ (a.run i w).clock := a.clock_run
  have hanswered {j : Nat} {b : BranchId} (he : Event.returned j b .done ∈ (a.run i w).log) :
      ∃ r, (a.run i w).Touched j b r := by
    obtain ⟨r, hr⟩ := (ha.answered he).elim h.answered id
    exact ⟨r, hr.mono a.log_run.subset⟩
  rcases ha.cases hok with hun | ⟨b, op, after, hw, hop⟩
  · refine ⟨fun hr hne => ?_, fun ht hr => ?_, fun ht hr => ?_, hanswered⟩
    · rw [hun.lookup] at hr
      rw [hun.reapers] at hne
      exact ⟨(h.due hr hne).1, (h.due hr hne).2.mono hclock⟩
    · exact h.touched (hun.touched ht) (hun.lookup _ ▸ hr)
    · exact (h.gone (hun.touched ht) (hun.lookup _ ▸ hr)).mono hclock
  · obtain ⟨hdue, htouched, hgone⟩ := h.wrote hw hop hap hclock
    have hother {b' : BranchId} (hb : b' ≠ b) {j : Nat} {r : Ref}
      (ht : (a.run i w).Touched j b' r) :
        w.Touched j b' r := (hw.touched ht).resolve_right fun ht => hb ht.1.symm
    refine ⟨?_, ?_, ?_, hanswered⟩
    · intro b' r hr hne
      rw [hw.lookup] at hr
      split at hr
      · rename_i hb
        subst hb
        exact hdue r hr hne
      · rename_i hb
        rw [hw.reapers, reapersAfter_ne (Ne.symm hb)] at hne
        exact ⟨(h.due hr hne).1, (h.due hr hne).2.mono hclock⟩
    · intro j b' r' r ht hr
      rw [hw.lookup] at hr
      split at hr
      · rename_i hb
        subst hb
        exact htouched j r' r ht hr
      · rename_i hb
        exact h.touched (hother hb ht) hr
    · intro j b' r' ht hr
      rw [hw.lookup] at hr
      split at hr
      · rename_i hb
        subst hb
        exact hgone j r' ht hr
      · rename_i hb
        exact (h.gone (hother hb ht) hr).mono hclock

def reapSpec (env : Env) : Spec World where
  inv := ReapInv
  may := Orderly env
  assumed := Apart
  fresh _ _ := True
  inv_may := by
    rintro i w w' h ⟨a, hok, ha, rfl⟩ hap
    exact h.run hok ha hap
  fresh_may _ _ _ _ _ := trivial

/-- The reapers that have claimed a branch stay so unless the claim is taken off. -/
theorem Act.orderly.mem_reapers (ha : a.orderly j w) (hok : a.ok env j w) (h : i ∈ w.reapers b)
    (hu : ∀ after, a ≠ .write b (.edit .unclaimReap) after) : i ∈ (a.run j w).reapers b := by
  cases a with
  | write b' op after =>
    have hw : Wrote w (w.land j b' op after) j b' op after := wrote_land hok.1
    show i ∈ (w.land j b' op after).reapers b
    rw [hw.reapers]
    by_cases hb : b' = b
    · subst hb
      by_cases hc : op = .edit .claimReap
      · subst hc
        simp [reapersAfter, h]
      · rw [reapersAfter_other hc]
        · exact h
        · rintro rfl
          exact hu after rfl
    · rw [reapersAfter_ne hb]
      exact h
  | none | checkout _ _ _ | clock _ | flight _ => exact h
  | note e =>
    have hun : Unwritten w ((Act.note e).run j w) :=
      .of_cons rfl rfl (Event.quiet.not_wrote hok)
    rw [hun.reapers]
    exact h
  | _ => exact ha.elim

/-- A reaper that has claimed a branch relies on no other taking the claim off. -/
theorem mem_reapers_stable : (reapSpec env).Stable i fun w => i ∈ w.reapers b := by
  rintro j w w' hij - h ⟨a, hok, ha, rfl⟩ hap
  refine ha.mem_reapers hok h fun after heq => ?_
  subst heq
  exact hij (hap.unclaim (wrote_land hok.1) i h)

theorem clock_stable : (reapSpec env).Stable i fun w => t ≤ w.clock := by
  rintro j w w' - - h ⟨a, -, -, rfl⟩ -
  exact h.trans a.clock_run

/-! ## The programs -/

theorem Orderly.refl (w : World) : Orderly env i w w := ⟨.none, trivial, trivial, rfl⟩

variable {P : World → Prop}

theorem Does.orderly {A : Act → Prop} {p : M α} (h : Does env i A p)
    (hP : (reapSpec env).Stable i P) (hw : P w)
    (hA : ∀ {w a}, A a → a.ok env i w → P w → a.orderly i w ∧ P (a.run i w)) :
    (reapSpec env).Ok i (fun _ w => P w) p w := by
  refine Prog.All.holds_of_stable hP hw (Prog.All.mono ?_ h)
  rintro w _ ⟨a, ha, hok, rfl⟩ - hw -
  exact ⟨⟨a, hok, (hA ha hok hw).1, rfl⟩, (hA ha hok hw).2⟩

theorem Act.Writes.orderly {W : BranchId → RefOp.Kind → Prop} (hsettled : env.settled = true)
    (h : a.Writes W) (hok : a.ok env i w)
    (hW : ∀ b op, W b op.kind → ReapOK i w b op) : a.orderly i w := by
  cases a with
  | none => trivial
  | write b op after => exact hW b op h.1
  | send _ _ _ _ | sendDelete _ =>
    have hun := hok.1
    rw [hsettled] at hun
    cases hun
  | note e => cases e <;> first | exact h.elim | trivial
  | _ => exact h.elim

def RefOp.Kind.free (k : RefOp.Kind) : Prop := k = .touch ∨ k = .unclaimReap ∨ k = .unclaimDelete

theorem ReapOK.of_free (h : op.kind.free) : ReapOK i w b op := by
  cases op with
  | create _ | delete => simp [RefOp.Kind.free, RefOp.kind] at h
  | edit e => cases e <;> first | trivial | simp [RefOp.Kind.free, RefOp.kind, RefEdit.kind] at h

theorem ReapOK.of_destroys (h : op.kind.destroys) (hi : i ∈ w.reapers b) : ReapOK i w b op := by
  cases op with
  | create _ => exact h.elim
  | delete => exact hi
  | edit e => cases e <;> trivial

theorem Does.reapFree {p : M α} (hsettled : env.settled = true)
    (h : Does env i (Act.Writes fun _ => RefOp.Kind.free) p) (ht : t ≤ w.clock) :
    (reapSpec env).Ok i (fun _ w => t ≤ w.clock) p w :=
  h.orderly clock_stable ht fun {_ a} ha hok ht =>
    ⟨ha.orderly hsettled hok fun _ _ => ReapOK.of_free, ht.trans a.clock_run⟩

theorem getRef_orderly (hP : (reapSpec env).Stable i P) (hw : P w) :
    (reapSpec env).Ok i (fun _ w => P w) (getRef b) w :=
  Spec.Holds.read Orderly.refl (fun _ _ => rfl) hP hw fun _ _ _ h => h

section

variable (hsettled : env.settled = true)

include hsettled

theorem destroy_orderly {force : Bool} (ht : t ≤ w.clock) (hi : i ∈ w.reapers b) :
    (reapSpec env).Ok i (fun _ w => t ≤ w.clock ∧ i ∈ w.reapers b)
      (destroy env i host b force) w := by
  refine (destroy_claims (W := fun b' k => b' = b ∧ k.destroys) fun k hk => ⟨rfl, hk⟩).orderly
    (clock_stable.and mem_reapers_stable) ⟨ht, hi⟩ ?_
  rintro w a ha hok ⟨ht, hi⟩
  have hor : a.orderly i w := by
    rcases ha with ha | ha
    · refine ha.orderly hsettled hok ?_
      rintro b' op ⟨rfl, hk⟩
      exact .of_destroys hk hi
    · cases a <;> trivial
  refine ⟨hor, ht.trans a.clock_run, hor.mem_reapers hok hi ?_⟩
  rintro after rfl
  rcases ha with ha | ha
  · exact ha.1.2
  · exact ha

theorem reapOne_orderly (ht : t ≤ w.clock) :
    (reapSpec env).Ok i (fun _ w => t ≤ w.clock) (reapOne env i host b t) w := by
  refine (getRef_orderly clock_stable ht).bindOk (fun _ _ ht => ht) fun ref w ht => ?_
  have hclear : (reapSpec env).Ok i (fun _ w => t ≤ w.clock)
      (if ref.reaping then clearStaleReapingClaim env i b ref else pure ()) w := by
    split
    · exact (clearStaleReapingClaim_writes (.inr (.inl rfl))).reapFree hsettled ht
    · exact ht
  dsimp only
  split
  · exact ht
  split
  · exact hclear
  rename_i deadline hdeadline
  split
  · exact hclear
  refine Spec.Holds.bind (Q := fun r w => t ≤ w.clock ∧ (r = .ok () → i ∈ w.reapers b))
    (putRef_holds clock_stable ht rfl trivial fun w a res _ ht hputs hok hres _ => ?_)
    fun r w h => ?_
  · -- The claim lands on the ref whose deadline was checked.
    have hor : a.orderly i w := by
      rcases hputs with rfl | ⟨rfl, hit⟩ | rfl
      · trivial
      · intro r hr
        cases hr.symm.trans hit
        exact ⟨deadline, hdeadline, by omega⟩
      · have hun := hok.1
        rw [hsettled] at hun
        cases hun
    refine ⟨⟨a, hok, hor, rfl⟩, ht.trans a.clock_run, fun h => ?_⟩
    obtain rfl := hres h
    have hw : Wrote w (w.land i b (.edit .claimReap) _) i b (.edit .claimReap) _ :=
      wrote_land hok.1
    show i ∈ (w.land i b (.edit .claimReap) _).reapers b
    rw [hw.reapers]
    simp [reapersAfter]
  · cases r with
    | error e => exact h.1
    | ok u =>
      refine (destroy_orderly hsettled h.1 (h.2 rfl)).bind fun r w h => ?_
      cases r with
      | ok u => exact h.1
      | error e => exact (unreap_writes (.inr (.inl rfl))).reapFree hsettled h.1

theorem reapAll_orderly {bs : List BranchId} (ht : t ≤ w.clock) :
    (reapSpec env).Ok i (fun _ w => t ≤ w.clock) (reapAll env i host t bs) w := by
  induction bs generalizing w with
  | nil => exact ht
  | cons b bs ih => exact (reapOne_orderly hsettled ht).bind fun _ _ ht => ih ht

theorem reap_orderly (hclock : env.oneClock = true) :
    (reapSpec env).Ok i ⊤ (reap env i host) w := by
  refine Spec.Holds.bind (Q := fun t w => t ≤ w.clock) ?_ fun t w ht => ?_
  · refine Spec.Holds.read (P := fun _ => True) Orderly.refl (fun _ _ => rfl) (Spec.Stable.const _)
      trivial fun w o _ _ => ?_
    simp [hclock]
  · refine Spec.Holds.bind (Q := fun _ w => t ≤ w.clock) ?_ fun r w ht => ?_
    · exact Spec.Holds.read Orderly.refl (fun _ _ => rfl) clock_stable ht fun _ _ _ h => h
    · cases r with
      | error e => trivial
      | ok bs => exact (reapAll_orderly hsettled ht).mono fun _ _ _ => trivial

/-- A touch that succeeds has left its ref. -/
theorem touch_orderly {ttl : Option Nat} {n : Nat} :
    (reapSpec env).Ok i (fun r w => ∀ next, r = .ok next → ∃ r', w.Touched i b r')
      (touch env i b ttl t n) w := by
  induction n generalizing w with
  | zero => exact fun _ h => by cases h
  | succ n ih =>
    refine (getRef_orderly (Spec.Stable.const True) trivial).bindOk
      (fun _ _ _ => fun _ h => by cases h) fun ref w _ => ?_
    dsimp only
    split
    · exact fun _ h => by cases h
    rename_i hreap
    refine Spec.Holds.bind (Q := fun r w => r = .ok () → ∃ r', w.Touched i b r')
      (putRef_holds (Spec.Stable.const True) trivial (RefOp.apply_edit (by
        simp [RefEdit.edit, hreap])) trivial fun w a res _ _ hputs hok hres _ => ?_)
      fun r w h => ?_
    · have hor : a.orderly i w := by
        rcases hputs with rfl | ⟨rfl, -⟩ | rfl
        · trivial
        · trivial
        · have hun := hok.1
          rw [hsettled] at hun
          cases hun
      refine ⟨⟨a, hok, hor, rfl⟩, fun h => ?_⟩
      obtain rfl := hres h
      exact ⟨_, _, _, _, mem_cons_self⟩
    · split
      · exact fun _ _ => h rfl
      · exact ih
      · exact fun _ h => by cases h

end

theorem note_orderly {e : Event} {Q : Unit → World → Prop} (hP : (reapSpec env).Stable i P)
    (hw : P w) (he : e.quiet) (h : ∀ w, P w → (Act.note e).orderly i w ∧ Q () (w.note e)) :
    (reapSpec env).Ok i Q (note e) w :=
  Spec.Holds.step hP hw fun w _ _ hw _ => ⟨⟨.note e, he, (h w hw).1, rfl⟩, (h w hw).2⟩

/-- Reapers, touches of branches, the cleaner of delete claims, and the clock. -/
def Op.reapsOrTouches : Op → Bool
  | .reap _ | .touch .. | .clearStale | .tick _ => true
  | _ => false

theorem touched_stable : (reapSpec env).Stable i fun w => ∃ r, w.Touched i b r := by
  rintro j w w' - - ⟨r, h⟩ ⟨a, -, -, rfl⟩ -
  exact ⟨r, h.mono a.log_run.subset⟩

theorem Op.prog_orderly (hsettled : env.settled = true) (hclock : env.oneClock = true) {op : Op}
    (hop : op.reapsOrTouches = true) : (reapSpec env).Ok i ⊤ (op.prog env i) w := by
  cases op with
  | reap host => exact reap_orderly hsettled hclock
  | clearStale =>
    have hdoes : Does env i (Act.Writes fun _ => RefOp.Kind.free) (Offshoot.clearStale env i) :=
      clearStale_writes fun _ => .inr (.inr rfl)
    exact (hdoes.reapFree hsettled (Nat.zero_le _)).mono fun _ _ _ => trivial
  | tick n =>
    exact Spec.Holds.step (Spec.Stable.const True) trivial fun w _ _ _ _ =>
      ⟨⟨.clock n, trivial, trivial, rfl⟩, trivial⟩
  | touch b ttl t n =>
    have hcalled : (reapSpec env).Ok i ⊤ (note (.called i b (.touch ttl))) w :=
      note_orderly (Spec.Stable.const True) trivial trivial fun _ _ => ⟨trivial, trivial⟩
    refine hcalled.bind fun _ w _ => (touch_orderly hsettled).bind fun r w h => ?_
    cases r with
    | error e =>
      exact note_orderly (Spec.Stable.const True) trivial trivial fun _ _ =>
        ⟨(fun h => by cases h), trivial⟩
    | ok next =>
      exact note_orderly touched_stable (h next rfl) trivial fun _ h => ⟨fun _ => h, trivial⟩
  | _ => cases hop

theorem reapSpec_sound {enabled : Op → Prop} (hsettled : env.settled = true)
    (hclock : env.oneClock = true) (hops : ∀ op, enabled op → op.reapsOrTouches = true) :
    (reapSpec env).Sound (system env enabled) where
  prog _ op _ hop _ _ := Op.prog_orderly hsettled hclock (hops op hop)
  crash _ _ _ := ⟨.flight none, trivial, trivial, rfl⟩

/-- Touch and reap have one winner.  In a run of touches and reapers in which no reap
claim is taken off under another reaper, and no touch brings a deadline forward:
when a branch is removed, the deadline every touch of it has set has passed; and a
touch that has returned success has set one. -/
theorem touch_and_reap_one_winner {enabled : Op → Prop} {c c' : Config World Oracle Op} {w₀ : World}
    {op : Op} {after : Option Ref} (hsettled : env.settled = true) (hclock : env.oneClock = true)
    (hops : ∀ op, enabled op → op.reapsOrTouches = true) (hlog : w₀.log = [])
    (h : ReachIf Apart (system env enabled) (.init w₀) c)
    (hstep : StepBy (system env enabled) i op c c') (hap : Apart c.state c'.state)
    (hdel : Wrote c.state c'.state j b .delete after) :
    (∀ k r, c.state.Touched k b r → ∃ d, reapDeadline r = some d ∧ d ≤ c.state.clock) ∧
    ∀ k, Event.returned k b .done ∈ c.state.log → ∃ r, c.state.Touched k b r := by
  have hsafe : Safe (reapSpec env) c :=
    (Safe.init (ReapInv.init hlog) fun _ => trivial).reach (reapSpec_sound hsettled hclock hops)
      (Spec.Reach.of_reachIf (fun _ _ h => h) h)
  have hinv : ReapInv c.state := hsafe.inv
  refine ⟨fun k r ht => ?_, fun k => hinv.answered⟩
  rcases hsafe.may (reapSpec_sound hsettled hclock hops) hstep hap with heq | ⟨a, hok, ha, hrun⟩
  · exact absurd hdel (Unwritten.of_eq (congrArg _ heq) (congrArg _ heq)).not_wrote
  rw [← hrun] at hdel
  rcases ha.cases hok with hun | ⟨b', op', after', hw, hown⟩
  · exact absurd hdel hun.not_wrote
  obtain ⟨rfl, rfl, rfl, rfl⟩ := hw.unique hdel
  cases hr : c.state.refs.lookup b with
  | none => exact hinv.gone ht hr
  | some r₀ =>
    obtain ⟨-, d, hd, hle⟩ := hinv.due hr (ne_nil_of_mem hown)
    exact (hinv.touched ht hr d hd).mono hle

/-! ### A branch reaped in time, and one reaped after a touch -/

def World.apart (w w' : World) : Bool :=
  (World.newsSince w w').all fun
    | .wrote j b (.edit .unclaimReap) _ _ => (w.reapers b).all (· = j)
    | .wrote _ b (.edit (.touch ..)) _ (some r') => w.log.all fun
      | .wrote _ b' (.edit (.touch ..)) _ (some r) =>
        b' ≠ b || (reapDeadline r').all fun d => r.dueBy d
      | _ => true
    | _ => true

theorem World.apart_sound (h : w.apart w' = true) : Apart w w' := by
  simp only [World.apart, all_eq_true] at h
  constructor
  · intro j b after hw i hi
    have := h _ hw.mem_news
    simp only [all_eq_true] at this
    simpa using this i hi
  · intro j b ttl now r' hw i r ht d hd
    obtain ⟨ttl', now', before, ht⟩ := ht
    have := h _ hw.mem_news
    simp only [all_eq_true] at this
    have := this _ ht
    simp only [Option.mem_def.mp hd] at this
    simpa using this

def expiring : World := World.empty.setRef ⟨"db", "main"⟩ <| some
  { lineage := 0, epoch := 1, headTXID := 1, headEpoch := 1, checkpoints := ∅, isProtected := false
    leaseHolder := none, leaseExpiry := none, ttl := some 10, touchedAt := some 0
    reaping := false, deleting := false, deletingAt := none, metadata := ∅, base := none }

def reapedInTime : List (Move Oracle Op) :=
  [.start 0 (.touch ⟨"db", "main"⟩ none 20 1), .run 0 .fine 4, .start 1 (.tick 40), .run 1 .fine 1,
    .start 2 (.reap 0), .run 2 .fine 11]

instance : DecidablePred fun op : Op => op.reapsOrTouches = true := fun _ => inferInstance

set_option maxRecDepth 8192 in
theorem touch_and_reap_one_winner_in_time : ∃ c c' : Config World Oracle Op,
    Config.playIf (system .localDir (·.reapsOrTouches = true)) World.apart reapedInTime
      (.init expiring) = some c ∧
    c.runs 2 .fine 1 = some c' ∧ Wrote c.state c'.state 2 ⟨"db", "main"⟩ .delete none ∧
    ∃ r, c.state.Touched 0 ⟨"db", "main"⟩ r ∧ ∃ d, reapDeadline r = some d ∧ d ≤ c.state.clock := by
  obtain ⟨c, hc, h⟩ := (Option.any_eq_true (fun c : Config World Oracle Op =>
      (c.runs 2 .fine 1).any fun c' =>
        (c.threads 2).map (·.1) = some (.reap 0) ∧ c.state.apart c'.state ∧
        RefOp.delete.apply (c.state.refs.lookup ⟨"db", "main"⟩) = some none ∧
        c'.state.refs = (c.state.setRef ⟨"db", "main"⟩ none).refs ∧
        c'.state.log = .wrote 2 ⟨"db", "main"⟩ .delete
          (c.state.refs.lookup ⟨"db", "main"⟩) none :: c.state.log ∧
        .returned 0 ⟨"db", "main"⟩ .done ∈ c.state.log)
    (Config.playIf (system .localDir (·.reapsOrTouches = true)) World.apart reapedInTime
      (.init expiring))).mp (by decide)
  obtain ⟨c', hc', h⟩ := (Option.any_eq_true _ _).mp h
  obtain ⟨hop, hapart, happly, hrefs, hlog, hret⟩ := of_decide_eq_true h
  have hw := Wrote.of_eq happly hrefs hlog
  obtain ⟨hpassed, hset⟩ := touch_and_reap_one_winner (rfl : Env.localDir.settled = true) rfl
    (fun _ h => h) rfl (Config.playIf_reachIf (fun _ _ => World.apart_sound) hc)
    (Config.runs_one hc' hop) (World.apart_sound hapart) hw
  obtain ⟨r, hr⟩ := hset 0 hret
  exact ⟨c, c', hc, hc', hw, r, hr, hpassed 0 r hr⟩

/-- Two reapers claim the branch; the destroy of the second finds a connection open, so
it takes the claim off; a touch sets the deadline to 30; and the first goes on to
delete the branch at 20. -/
def reapedTouched : List (Move Oracle Op) :=
  [.start 0 (.tick 20), .run 0 .fine 1, .start 1 (.reap 0), .run 1 .fine 4,
    .start 2 (.reap 0), .run 2 .fine 9, .run 2 { Oracle.fine with yes := true } 1, .run 2 .fine 5,
    .start 3 (.touch ⟨"db", "main"⟩ none 20 1), .run 3 .fine 4, .run 1 .fine 7]

/-- What a touch of the thread wrote, if this is one, is not due at the time. -/
def Event.touchedBefore (e : Event) (i clock : Nat) : Bool :=
  match e with
  | .wrote j _ (.edit (.touch ..)) _ (some r) => j ≠ i || !decide (r.dueBy clock)
  | _ => true

set_option maxRecDepth 8192 in
/-- A reaper can delete a branch before the deadline of a touch that returned
success. -/
theorem reap_deletes_touched_branch :
    ¬ ∀ (env : Env) (w₀ : World) (c c' : Config World Oracle Op) (i : Nat) (op : Op) (j : Nat)
      (b : BranchId) (after : Option Ref), env.settled = true → env.oneClock = true →
      env.conditionalDelete = true → w₀.log = [] →
      Reach (system env (·.reapsOrTouches = true)) (.init w₀) c →
      StepBy (system env (·.reapsOrTouches = true)) i op c c' →
      Wrote c.state c'.state j b .delete after →
      ∀ k, Event.returned k b .done ∈ c.state.log →
        ∃ r, c.state.Touched k b r ∧ ∃ d, reapDeadline r = some d ∧ d ≤ c.state.clock := by
  intro hall
  obtain ⟨c, hc, h⟩ := Config.exists_play (c := .init expiring) (m := reapedTouched)
    (Q := fun c => (c.runs 1 .fine 1).any fun c' =>
      (c.threads 1).map (·.1) = some (.reap 0) ∧
      RefOp.delete.apply (c.state.refs.lookup ⟨"db", "main"⟩) = some none ∧
      c'.state.refs = (c.state.setRef ⟨"db", "main"⟩ none).refs ∧
      c'.state.log = .wrote 1 ⟨"db", "main"⟩ .delete
        (c.state.refs.lookup ⟨"db", "main"⟩) none :: c.state.log ∧
      .returned 3 ⟨"db", "main"⟩ .done ∈ c.state.log ∧
      c.state.log.all (·.touchedBefore 3 c.state.clock))
    (s := system .localDir (·.reapsOrTouches = true)) (by decide)
  obtain ⟨c', hc', h⟩ := (Option.any_eq_true _ _).mp h
  obtain ⟨hop, happly, hrefs, hlog, hret, hearly⟩ := of_decide_eq_true h
  obtain ⟨r, ⟨ttl, now, before, ht⟩, hdue⟩ := hall .localDir expiring c c' 1 _ 1 _ none rfl rfl rfl
    rfl (Config.play_reach hc) (Config.runs_one hc' hop) (Wrote.of_eq happly hrefs hlog) 3 hret
  have hnot := all_eq_true.mp hearly _ ht
  simp only [Event.touchedBefore, ne_eq, not_true_eq_false, decide_false, Bool.false_or,
    Bool.not_eq_true', decide_eq_false_iff_not] at hnot
  exact hnot hdue

end Offshoot
