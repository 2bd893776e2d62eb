import Offshoot.Lib.Trace
import Offshoot.System.Footprint

/-!
# The tombstone list under concurrent passes

A pass decides what to add and what to remove from copies of the list it loaded earlier, and
applies it by compare-and-swap to whatever the list is then.  What it removes it has itself
found gone, reachable again or deleted.  What it adds carries the time at which it was found
unreachable, and replaces the entry of a pass that was faster.
-/

namespace Offshoot

open Conc Maps List

/-- By this action pass `i` finds the object gone from a listing, reachable by a mark, or
deletes it. -/
inductive Found (k : DataKey) (i : Nat) (a : Option (Action World Oracle)) (w w' : World) : Prop
  | gone : a = listData.first → w.objs.lookup k = none → Found k i a w w'
  | reachable {time : Nat} {reachable : List DataKey} :
      w'.log = .marked i time reachable :: w.log → k ∈ reachable → Found k i a w w'
  | deleted {time : Nat} : w'.log = .swept i time k :: w.log → Found k i a w w'

variable {env : Env} {i : Nat}

/-! ## Acts on the list -/

def Act.still : Act → Prop
  | stones _ | late _ => False
  | _ => True

def Still (w w' : World) : Prop := w'.stones = w.stones

theorem Act.still.run {a : Act} (h : a.still) (w : World) : Still w (a.run i w) := by
  cases a with
  | stones s => exact h.elim
  | late n => exact h.elim
  | write b op after => cases after <;> rfl
  | _ => rfl

variable {α : Type} {p : M α}

theorem Does.still (h : Does env i Act.still p) : p.All Still := by
  refine Prog.All.mono (fun w w' hc => ?_) h
  obtain ⟨a, ha, -, rfl⟩ := hc
  exact ha.run w

theorem Act.In.still {W : BranchId → RefOp.Kind → Prop} {a : Act} (h : a.In W) : a.still := by
  cases a with
  | stones s => exact h
  | late n => exact h
  | _ => trivial

variable {fuel : Nat}

theorem markRefs_still : (markRefs fuel).All Still := by
  have h : Does .localDir 0 Act.still (markRefs fuel) := markRefs_does trivial
  exact h.still

theorem mark_still : (mark env i fuel).All Still := by
  refine .bindOk markRefs_still (fun _ => .bind (.step fun _ _ => rfl) .ret) fun m => ?_
  exact .bind (.step fun _ _ => rfl) .ret

theorem listData_still : listData.All Still := .step fun _ _ => rfl

theorem setFlight_still {f : Option Flight} : (setFlight i f).All Still := .step fun _ _ => rfl

theorem sweepOne_still (k : DataKey) : (sweepOne env i k).All Still := by
  refine .step fun o w => ?_
  dsimp only
  split
  · rfl
  · split <;> rfl

/-! ## A pass -/

def collect (env : Env) (i : Nat) (grace fuel : Nat) (m : Marked DataKey) (all : List DataKey) :
    M (Result Unit) := do
  match ← loadTombstones with
  | .error e => return .error e
  | .ok loaded =>
    let new ← stampNew env m.reachable (loaded.getD ∅) all
    if new = [] then sweep env i grace fuel (loaded.getD ∅) []
    else
      match ← tombstone env new with
      | .error e => return .error e
      | .ok () =>
        match ← loadTombstones with
        | .error e => return .error e
        | .ok stones => sweep env i grace fuel (stones.getD ∅) new

/-- Transitions a pass keeps to as long as its actions satisfy `A`: what it adds has a time
in `Stamp`, and what it removes is in `Prunes`. -/
structure PassKeeps (env : Env) (i : Nat) (A : Action World Oracle → World → World → Prop)
    (R : World → World → Prop) (Stamp : Nat → Prop) (Prunes : DataKey → Prop) : Prop where
  settled : env.settled = true
  still : ∀ w w', Still w w' → R w w'
  add : ∀ (w : World) (new : List (DataKey × Nat)), (∀ s ∈ new, Stamp s.2) →
    R w { w with stones := some (addStones (w.stones.getD ∅) new) }
  prune : ∀ (w : World) (keys : List DataKey), (∀ k ∈ keys, Prunes k) →
    R w { w with stones := some (keepIf (fun k _ => decide (k ∉ keys)) (w.stones.getD ∅)) }
  stamp : (now env).From A R Stamp
  mark : ∀ fuel, (mark env i fuel).From A R fun r => ∀ m, r = .ok m → ∀ k ∈ m.reachable, Prunes k
  list : listData.From A R fun r => ∀ ks, r = .ok ks → ∀ k, k ∉ ks → Prunes k
  delete : ∀ k, (sweepOne env i k).From A R fun gone => gone = true → Prunes k

namespace PassKeeps

variable {A : Action World Oracle → World → World → Prop} {R : World → World → Prop}
  {Stamp : Nat → Prop} {Prunes : DataKey → Prop} (h : PassKeeps env i A R Stamp Prunes)

include h

theorem of_still {α : Type} {p : M α} (hp : p.All Still) : p.From A R fun _ => True :=
  .of_all hp fun _ _ _ _ hstill => h.still _ _ hstill

theorem load : loadTombstones.From A R fun _ => True := h.of_still (.step fun _ _ => rfl)

variable {stones : Stones}

theorem put {etag : Option Stones}
    (hput : ∀ w : World, w.stones = etag → R w { w with stones := some stones }) :
    (putTombstones env etag stones).From A R fun _ => True := by
  have hset := h.settled
  refine .step fun o w _ => ⟨?_, trivial⟩
  dsimp only
  split
  · rename_i hhit
    exact hput w hhit.1
  · exact h.still _ _ (by rw [Still])

theorem stampNew {reachable : List DataKey} {ks : List DataKey} :
    (stampNew env reachable stones ks).From A R fun new => ∀ s ∈ new, Stamp s.2 := by
  induction ks with
  | nil => exact .pure (by simp)
  | cons k ks ih =>
    rw [Offshoot.stampNew]
    split
    · exact ih
    · refine .bind h.stamp fun t ht => .bind ih fun new hnew => .pure ?_
      rw [forall_mem_cons]
      exact ⟨ht, hnew⟩

theorem tombstone {new : List (DataKey × Nat)} (hnew : ∀ s ∈ new, Stamp s.2) :
    (tombstone env new).From A R fun _ => True := by
  refine .bindOk h.load (fun _ _ => .pure trivial) fun cur _ => ?_
  refine h.put fun w hw => ?_
  rw [← hw]
  exact h.add w new hnew

theorem pruneTombstones {keys : List DataKey} (hkeys : ∀ k ∈ keys, Prunes k) {n : Nat} :
    (pruneTombstones env keys n).From A R fun _ => True := by
  induction n with
  | zero => exact .pure trivial
  | succ n ih =>
    rw [Offshoot.pruneTombstones]
    split
    · exact .pure trivial
    refine .bindOk h.load (fun _ _ => .pure trivial) fun cur _ => ?_
    dsimp only
    split
    · exact .pure trivial
    refine .bind (h.put fun w hw => ?_) fun r _ => ?_
    · rw [← hw]
      exact h.prune w keys hkeys
    · split
      · exact ih
      · exact .pure trivial

theorem sweepDelete {ks : List DataKey} :
    (sweepDelete env i ks).From A R fun deleted => ∀ k ∈ deleted, Prunes k := by
  have hask : ask.From A R fun _ => True := h.of_still (.step fun _ _ => rfl)
  induction ks with
  | nil => exact .pure (by simp)
  | cons k ks ih =>
    refine .bind (h.delete k) fun gone hgone => ?_
    split
    · rename_i htrue
      refine .bind ih fun deleted hdeleted => .pure ?_
      rw [forall_mem_cons]
      exact ⟨hgone htrue, hdeleted⟩
    · refine .bind hask fun stop _ => ?_
      split
      · exact .pure (by simp)
      · exact ih

variable {grace fuel : Nat}

theorem sweep {new : List (DataKey × Nat)} :
    (sweep env i grace fuel stones new).From A R fun _ => True := by
  refine .bind h.stamp fun cutoff _ => ?_
  dsimp only
  split
  · exact .pure trivial
  refine .bindOk (h.mark fuel) (fun _ _ => .pure trivial) fun m hreach => ?_
  refine .bindOk h.list (fun _ _ => .pure trivial) fun existing hgone => ?_
  refine .bind h.sweepDelete fun deleted hdeleted => ?_
  refine h.pruneTombstones fun k hk => ?_
  obtain hk | hk := mem_append.mp hk
  · -- a verdict to prune is for a key of the mark or one that the listing lacks
    have hverdict : sweepVerdict m existing k = .prune := by
      simpa using (mem_filter.mp hk).2
    rw [sweepVerdict] at hverdict
    by_cases hin : k ∈ m.reachable
    · exact hreach m rfl k hin
    · by_cases hex : k ∈ existing
      · rw [if_neg hin, if_neg (not_not.mpr hex)] at hverdict
        split at hverdict <;> cases hverdict
      · exact hgone existing rfl k hex
  · exact hdeleted k hk

theorem collect {m : Marked DataKey} {all : List DataKey} :
    (collect env i grace fuel m all).From A R fun _ => True := by
  refine .bindOk h.load (fun _ _ => .pure trivial) fun loaded _ => ?_
  refine .bind h.stampNew fun new hnew => ?_
  split
  · exact h.sweep
  · refine .bindOk (h.tombstone hnew) (fun _ _ => .pure trivial) fun u _ => ?_
    refine .bindOk h.load (fun _ _ => .pure trivial) fun stones _ => ?_
    exact h.sweep

theorem gc : (flying i .gc (gc env i grace fuel)).From A R fun _ => True := by
  refine .bind (h.of_still setFlight_still) fun _ _ => ?_
  refine .bind (Q := fun _ => True) ?_ fun _ _ => h.of_still setFlight_still
  refine .bindOk (h.mark fuel) (fun _ _ => .pure trivial) fun m _ => ?_
  refine .bindOk h.list (fun _ _ => .pure trivial) fun all _ => ?_
  exact h.collect

end PassKeeps

/-! ## All operations -/

variable (op : Op)

/-- With nothing pending every action of every operation is one of its acts. -/
theorem Op.prog_acts : (op.prog env i).All fun w w' => w.pending = [] →
    Change env i (fun a => op.collects = true ∧ a.Collects ∨ a.In op.writes) w w' := by
  by_cases hland : ∃ n, op = .land n
  · obtain ⟨n, rfl⟩ := hland
    refine .step fun _ w hpending => ⟨.none, .inr trivial, trivial, ?_⟩
    rw [World.landLate, hpending]
    rfl
  · refine Prog.All.mono (fun w w' h _ => ?_) (op.prog_within fun n hn => hland ⟨n, hn⟩)
    exact h

theorem Op.prog_still {op : Op} (hgc : op.collects = false) :
    (op.prog env i).All fun w w' => w.pending = [] → Still w w' := by
  refine op.prog_acts.mono fun w w' h hpending => ?_
  obtain ⟨a, ha, -, rfl⟩ := h hpending
  obtain ⟨hcollects, -⟩ | ha := ha
  · rw [hgc] at hcollects
    cases hcollects
  · exact ha.still.run w

/-- The clock does not go back, nothing becomes pending, and a change of the list is all that
an action does. -/
structure Settled (w w' : World) : Prop where
  pending : w'.pending = []
  clock : w.clock ≤ w'.clock
  log : ¬ Still w w' → w'.log = w.log

theorem Op.prog_settled (hset : env.settled = true) (op : Op) :
    (op.prog env i).All fun w w' => w.pending = [] → Settled w w' := by
  refine op.prog_acts.mono fun w w' h hpending => ?_
  obtain ⟨a, ha, hok, rfl⟩ := h hpending
  have hno : env.settled ≠ false := by
    rw [hset]
    exact Bool.noConfusion
  cases a with
  | stones s => exact ⟨hpending, Nat.le_refl _, fun _ => rfl⟩
  | clock n => exact ⟨hpending, Nat.le_add_right _ _, fun h => absurd rfl h⟩
  | send _ _ _ _ | sendDelete _ => exact absurd hok.1 hno
  | sendPut k obj createOnly => exact absurd hok hno
  | sendStones before after => exact absurd hok hno
  | late n => exact (ha.elim (fun h => h.2) (fun h => h)).elim
  | write b op after =>
    cases after <;> exact ⟨hpending, Nat.le_refl _, fun h => absurd rfl h⟩
  | _ => exact ⟨hpending, Nat.le_refl _, fun h => absurd rfl h⟩

variable {τ : Nat}

/-- What holds of a run from a state with nothing pending, at any time `τ` of it. -/
theorem settled_run (hset : env.settled = true) {enabled : Op → Prop}
    {c₀ c : Config World Oracle Op} {past : List (Taken World Oracle)}
    (h : Traced (system env enabled) c₀ past c)
    (hthread : ∀ i op p, c₀.threads i = some (op, p) → p.All fun w w' => w.pending = [] →
      Settled w w')
    (hpending : c₀.state.pending = []) (hτ : τ ≤ c₀.state.clock) :
    (∀ y ∈ past, (y.before.pending = [] ∧ τ ≤ y.before.clock) ∧ Settled y.before y.after) ∧
      ∀ i op p, c.threads i = some (op, p) → p.All fun w w' => w.pending = [] → Settled w w' := by
  obtain ⟨-, hpast, hthreads⟩ := h.keeps (I := fun w : World => w.pending = [] ∧ τ ≤ w.clock)
    (fun i op _ => op.prog_settled hset) hthread
    (fun w w' hR hI => ⟨(hR hI.1).pending, le_trans hI.2 (hR hI.1).clock⟩)
    (fun _ _ hI => hI) ⟨hpending, hτ⟩
  exact ⟨fun y hy => ⟨(hpast y hy).1, (hpast y hy).2 (hpast y hy).1.1⟩, hthreads⟩

/-! ## The times of new tombstones -/

/-- The list changes only by removals and by tombstones from `τ` on. -/
def AddsFrom (τ : Nat) (w w' : World) : Prop :=
  ∀ k t, w'.stone k = some t → w.stone k = some t ∨ τ ≤ t

def AtOrAfter (τ : Nat) (_ : Action World Oracle) (w _ : World) : Prop :=
  w.pending = [] ∧ τ ≤ w.clock

variable {w w' : World}

theorem Still.addsFrom (h : Still w w') : AddsFrom τ w w' := by
  intro k t ht
  rw [World.stone, h] at ht
  exact .inl ht

/-- What is left of a program adds no tombstones from before its next action. -/
def Undated (p : M Unit) : Prop := ∀ τ, p.From (AtOrAfter τ) (AddsFrom τ) fun _ => True

theorem Undated.bind {k : α → M Unit} (hp : p.All Still)
    (hk : ∀ a, Undated (k a)) : Undated (p >>= k) := fun τ =>
  .bind (.of_all hp fun _ _ _ _ h => h.addsFrom) fun a _ => hk a τ

theorem undated_before {D : Action World Oracle → Prop} {k : α → M Unit} (hp : p.All Still)
    (hk : ∀ a, (k a).Before D Undated) : (p >>= k).Before D Undated :=
  .bind hp (fun _ hq => Undated.bind hq fun a => (hk a).now) hk

section Times

variable (hset : env.settled = true) (hclock : env.oneClock = true)

include hset hclock

theorem passKeeps_addsFrom : PassKeeps env i (AtOrAfter τ) (AddsFrom τ) (τ ≤ ·) fun _ => True where
  settled := hset
  still _ _ := Still.addsFrom
  add w new hnew k t ht := by
    by_cases hk : k ∈ new.map (·.1)
    · obtain ⟨t', hmem, hlookup⟩ := lookup_addStones.2 hk
      cases hlookup.symm.trans ht
      exact .inr (hnew _ hmem)
    · exact .inl ((lookup_addStones.1 hk).symm.trans ht)
  prune w keys _ k t ht := by
    rw [World.stone, Option.getD_some, lookup_keepIf, Option.filter_eq_some_iff] at ht
    exact .inl ht.1
  stamp := by
    refine .step fun o w hnow => ⟨Still.addsFrom rfl, ?_⟩
    rw [if_pos hclock]
    exact hnow.2
  mark fuel := (Prog.From.of_all mark_still fun _ _ _ _ h => h.addsFrom).mono
    fun _ _ _ _ _ _ => trivial
  list := (Prog.From.of_all listData_still fun _ _ _ _ h => h.addsFrom).mono
    fun _ _ _ _ _ _ => trivial
  delete k := (Prog.From.of_all (sweepOne_still k) fun _ _ _ _ h => h.addsFrom).mono
    fun _ _ _ => trivial

/-- As long as it is `τ` or later, an operation adds no earlier tombstones. -/
theorem Op.prog_addsFrom : (op.prog env i).From (AtOrAfter τ) (AddsFrom τ) fun _ => True := by
  cases hgc : op.collects with
  | false => exact .of_all (op.prog_still hgc) fun _ _ _ hsince h => (h hsince.1).addsFrom
  | true =>
    cases op with
    | gc grace fuel => exact (passKeeps_addsFrom hset hclock).gc
    | _ => cases hgc

/-- Until it loads the list for the first time, a pass can still take any time. -/
theorem gc_undated {grace : Nat} :
    (flying i .gc (gc env i grace fuel)).Before (some · = loadTombstones.first) Undated := by
  have hland : ∀ r : Result Unit, ((pure r : M (Result Unit)) >>= fun _ => setFlight i none).Before
      (some · = loadTombstones.first) Undated := fun _ =>
    .of_all (fun p hp τ => .of_all hp fun _ _ _ _ h => Still.addsFrom h) setFlight_still
  refine undated_before setFlight_still fun _ => ?_
  rw [gc, Prog.bind_assoc]
  refine undated_before mark_still fun r => ?_
  cases r with
  | error e => exact hland _
  | ok m =>
    rw [Prog.bind_assoc]
    refine undated_before listData_still fun r => ?_
    cases r with
    | error e => exact hland _
    | ok all =>
      have hkeeps := fun τ => passKeeps_addsFrom (i := i) (τ := τ) hset hclock
      refine .of_first rfl rfl fun τ => .bind (hkeeps τ).collect fun _ _ => ?_
      exact .of_all setFlight_still fun _ _ _ _ h => h.addsFrom

theorem Op.prog_undated : (op.prog env i).Before (some · = loadTombstones.first) Undated := by
  cases hgc : op.collects with
  | false =>
    refine .of_all (fun p hp τ => ?_) (op.prog_still hgc)
    exact .of_all hp fun _ _ _ hsince h => (h hsince.1).addsFrom
  | true =>
    cases op with
    | gc grace fuel => exact gc_undated hset hclock
    | _ => cases hgc

end Times

/-! ## What a pass removes -/

def Stays (k : DataKey) (w w' : World) : Prop := w.stone k ≠ none → w'.stone k ≠ none

def Unfound (k : DataKey) (i : Nat) (a : Action World Oracle) (w w' : World) : Prop :=
  w.pending = [] ∧ ¬ Found k i (some a) w w'

variable {k : DataKey}

theorem Still.stays (h : Still w w') : Stays k w w' := by
  intro hk
  rwa [World.stone, h]

theorem passKeeps_stays (hset : env.settled = true) :
    PassKeeps env i (Unfound k i) (Stays k) (fun _ => True) (· ≠ k) where
  settled := hset
  still _ _ := Still.stays
  add w new _ hk := by
    rw [World.stone, Option.getD_some]
    by_cases hin : k ∈ new.map (·.1)
    · obtain ⟨t, -, hlookup⟩ := lookup_addStones.2 hin
      rw [hlookup]
      exact Option.some_ne_none t
    · rwa [lookup_addStones.1 hin]
  prune w keys hkeys hk := by
    have hkeep : k ∉ keys := fun hin => hkeys k hin rfl
    rw [World.stone, Option.getD_some, lookup_keepIf]
    obtain ⟨t, ht⟩ := Option.ne_none_iff_exists'.mp hk
    rw [World.stone] at ht
    rw [ht, Option.filter_some_pos (by simpa using hkeep)]
    exact Option.some_ne_none t
  stamp := by
    have hstill : (now env).All Still := .step fun _ _ => rfl
    exact .of_all hstill fun _ _ _ _ h => h.stays
  mark fuel := by
    have hstill : (markRefs fuel).From (Unfound k i) (Stays k) fun _ => True :=
      .of_all markRefs_still fun _ _ _ _ h => h.stays
    refine .bind hstill fun r _ => ?_
    cases r with
    | error e =>
      refine .bind (Q := fun _ => True) (.step fun _ _ _ => ⟨Still.stays rfl, trivial⟩)
        fun _ _ => ?_
      exact .pure fun m hm => by cases hm
    | ok m =>
      refine .bind (Q := fun _ => k ∉ m.reachable) (.step fun o w hun => ⟨Still.stays rfl, ?_⟩)
        fun _ hk => ?_
      · exact fun hin => hun.2 (.reachable rfl hin)
      · refine .pure fun m' hm' k' hin => ?_
        cases hm'
        exact fun hkk => hk (hkk ▸ hin)
  list := by
    refine .step fun o w hun => ⟨Still.stays rfl, fun ks hks k' hk' hkk => ?_⟩
    subst hkk
    cases hfail : o.fail with
    | true =>
      simp only [hfail] at hks
      cases hks
    | false =>
      simp only [hfail] at hks
      cases hks
      exact hun.2 (.gone rfl (AList.lookup_eq_none.mpr hk'))
  delete k' := by
    refine .step fun o w hun => ?_
    dsimp only at hun ⊢
    split
    · rename_i hfail
      rw [if_pos hfail] at hun
      exact ⟨Still.stays rfl, fun _ hkk => hun.2 (hkk ▸ .deleted rfl)⟩
    · refine ⟨?_, by simp⟩
      split <;> exact Still.stays rfl

/-- An operation that has not found the object keeps its tombstone. -/
theorem Op.prog_stays (hset : env.settled = true) (op : Op) :
    (op.prog env i).From (Unfound k i) (Stays k) fun _ => True := by
  cases hgc : op.collects with
  | false => exact .of_all (op.prog_still hgc) fun _ _ _ hun h => (h hun.1).stays
  | true =>
    cases op with
    | gc grace fuel => exact (passKeeps_stays hset).gc
    | _ => cases hgc

theorem Found.still {a : Option (Action World Oracle)} (h : Found k i a w w')
    (hset : Settled w w') (hlist : a = listData.first → Still w w') : Still w w' := by
  cases h with
  | gone hfirst => exact hlist hfirst
  | reachable hlog _ =>
    by_contra hne
    rw [hset.log hne] at hlog
    exact cons_ne_self _ _ hlog.symm
  | deleted hlog =>
    by_contra hne
    rw [hset.log hne] at hlog
    exact cons_ne_self _ _ hlog.symm

/-! ## Whole runs -/

theorem taken_list_still {sys : System World Oracle Op} {c₀ c : Config World Oracle Op}
    {past : List (Taken World Oracle)} {y : Taken World Oracle} (h : Traced sys c₀ (y :: past) c)
    (hfirst : y.prog.first = listData.first) : Still y.before y.after := by
  obtain ⟨c₁, op, β, f, k, -, -, -, hprog, -, hafter⟩ := h.last
  rw [hprog] at hfirst
  obtain ⟨rfl, hf⟩ := Sigma.mk.inj (Option.some.inj hfirst)
  obtain rfl := eq_of_heq hf
  rw [hafter]
  rfl

/-- However passes interleave: when a tombstone for `k` is written, its time is not earlier
than that of any earlier write or removal of a tombstone for `k`, if the pass had not loaded
the list before that; and a pass removes a tombstone only if it has itself found the object
gone or reachable, or deleted it. -/
theorem tombstones_ordered {env : Env} {enabled : Op → Prop} {w : World}
    {c : Config World Oracle Op} {past : List (Taken World Oracle)} {y : Taken World Oracle}
    (hsettled : env.settled = true) (hclock : env.oneClock = true) (hpending : w.pending = [])
    (h : Traced (system env enabled) (.init w) (y :: past) c) (k : DataKey) :
    (∀ t, y.after.stone k = some t → y.before.stone k ≠ some t →
      ∀ newer x older, past = newer ++ x :: older → x.after.stone k ≠ x.before.stone k →
        (∀ z ∈ older, z.thread = y.thread → z.prog.first ≠ loadTombstones.first) →
        x.before.clock ≤ t) ∧
    (y.before.stone k ≠ none → y.after.stone k = none →
      ∃ z ∈ past, z.thread = y.thread ∧ Found k z.thread z.prog.first z.before z.after) := by
  have hinit : ∀ i op p, (Config.init w : Config World Oracle Op).threads i = some (op, p) →
      p.All fun w w' => w.pending = [] → Settled w w' := fun _ _ _ hi => by cases hi
  have hall := (settled_run hsettled h hinit hpending (Nat.zero_le _)).1
  constructor
  · intro t hwrite hnew newer x older hpast _ hload
    subst hpast
    -- the run from the point at which the earlier change was made
    have hrun : Traced (system env enabled) (.init w) (y :: newer ++ x :: older) c := h
    obtain ⟨c₂, hx, hy⟩ := hrun.split
    obtain ⟨c₁, op, β, f, p, holder, hx, -, -, hbefore, -⟩ := hx.last
    have hrun : Traced (system env enabled) c₁ (y :: (newer ++ [x])) c := hx.trans hy
    have hpending₁ : c₁.state.pending = [] := by
      rw [← hbefore]
      exact (hall x (by simp)).1.1
    have hthreads := (settled_run hsettled holder hinit hpending (Nat.zero_le _)).2
    have hsince := (settled_run hsettled hrun hthreads hpending₁ (Nat.le_refl _)).1
    have hadds : AddsFrom c₁.state.clock y.before y.after := by
      refine hrun.guarantee (A := AtOrAfter c₁.state.clock)
        (fun op _ => op.prog_addsFrom hsettled hclock) (fun op p hi => ?_)
        fun z hz _ _ _ => (hsince z hz).1
      obtain ⟨z, hz, hthread, a, ha, hfirst⟩ | hbefore :=
        holder.before (fun op _ => op.prog_undated hsettled hclock) (fun _ => trivial) rfl hi
      · exact absurd (ha.trans hfirst) (hload z hz hthread)
      · exact hbefore.now _
    rw [hbefore]
    exact (hadds k t hwrite).resolve_left hnew
  · intro hthere hgone
    by_contra hnone
    have hy := hall y mem_cons_self
    refine h.guarantee (A := Unfound k y.thread) (R := Stays k)
      (fun op _ => op.prog_stays hsettled) (fun _ _ hi => by cases hi)
      (fun z hz hthread a ha => ⟨(hall z hz).1.1, fun hfound => ?_⟩) hthere hgone
    rw [← ha, ← hthread] at hfound
    obtain rfl | hz := mem_cons.mp hz
    · have hstill := hfound.still hy.2 (taken_list_still h)
      rw [World.stone, hstill] at hgone
      exact hthere hgone
    · exact hnone ⟨z, hz, hthread, hfound⟩

/-- A new object is tombstoned at 1, found reachable once its branch is there, and tombstoned
again after the branch was destroyed. -/
def stonedTwice : List (Move Oracle Op) :=
  [.start 0 (.create "db" ⟨512, [⟨512, 1⟩]⟩), .run 0 .fine 4, .start 1 (.tick 1), .run 1 .fine 1,
    .start 2 (.gc 0 5), .run 2 .fine 11, .run 0 .fine 3, .start 3 (.tick 1), .run 3 .fine 1,
    .start 4 (.gc 0 5), .run 4 .fine 16]

def stonedAgain : List (Move Oracle Op) :=
  [.start 5 (.destroy 0 ⟨"db", "main"⟩ true), .run 5 .fine 8, .start 6 (.tick 1), .run 6 .fine 1,
    .start 7 (.gc 0 5), .run 7 .fine 7]

/-- The pass of thread 4 removes the tombstone at 2, and the pass of thread 7, not started
yet, writes it at 3. -/
def stonedTest (c₁ : Config World Oracle Op) : Bool :=
  (c₁.threads 7).isNone && decide (c₁.state.stone (.snapshot 0 1 1) = some 1) &&
    decide (c₁.state.clock = 2) && (c₁.runs 4 .fine 1).any fun c₂ =>
      decide (c₂.state.stone (.snapshot 0 1 1) = none) &&
        (c₂.play (system .localDir fun _ => True) stonedAgain).any fun c₃ =>
          (c₃.runs 7 .fine 1).any fun c₄ => decide (c₃.state.stone (.snapshot 0 1 1) = none) &&
            decide (c₄.state.stone (.snapshot 0 1 1) = some 3)

set_option maxRecDepth 8192 in
theorem tombstones_ordered_twice : ∃ (c₁ c₂ c₃ c₄ : Config World Oracle Op),
    c₁.state.stone (.snapshot 0 1 1) = some 1 ∧ c₂.state.stone (.snapshot 0 1 1) = none ∧
    c₃.state.stone (.snapshot 0 1 1) = none ∧ c₄.state.stone (.snapshot 0 1 1) = some 3 ∧
    ∃ newer x older y, Traced (system .localDir fun _ => True) (.init .empty)
      (y :: (newer ++ x :: older)) c₄ ∧
      (∃ z ∈ older, z.thread = 4 ∧ Found (.snapshot 0 1 1) 4 z.prog.first z.before z.after) ∧
      x.before = c₁.state ∧ x.before.clock ≤ 3 := by
  obtain ⟨c₁, h₁, h⟩ := Config.exists_play (s := system .localDir fun _ => True)
    (c := .init .empty) (m := stonedTwice) (Q := stonedTest) (by decide +kernel)
  rw [stonedTest, Bool.and_eq_true, Bool.and_eq_true, Bool.and_eq_true] at h
  obtain ⟨⟨⟨hnone, hs₁⟩, hc₁⟩, h⟩ := h
  obtain ⟨c₂, h₂, h⟩ := (Option.any_eq_true _ _).mp h
  rw [Bool.and_eq_true] at h
  obtain ⟨hs₂, h⟩ := h
  obtain ⟨c₃, h₃, h⟩ := (Option.any_eq_true _ _).mp h
  obtain ⟨c₄, h₄, h⟩ := (Option.any_eq_true _ _).mp h
  rw [Bool.and_eq_true] at h
  have hs₁ := of_decide_eq_true hs₁
  have hs₂ := of_decide_eq_true hs₂
  have hs₃ := of_decide_eq_true h.1
  have hs₄ := of_decide_eq_true h.2
  obtain ⟨older, holder⟩ := Traced.start.of_reach (Config.play_reach h₁)
  rw [append_nil] at holder
  obtain ⟨x, hx, hxi, hxb, hxa⟩ := holder.runs_one h₂
  obtain ⟨newer, hnewer⟩ := hx.of_reach (Config.play_reach h₃)
  obtain ⟨y, hy, hyi, hyb, hya⟩ := hnewer.runs_one h₄
  refine ⟨c₁, c₂, c₃, c₄, hs₁, hs₂, hs₃, hs₄, newer, x, older, y, hy, ?_, hxb, ?_⟩
  · obtain ⟨z, hz, hzi, hfound⟩ := (tombstones_ordered rfl rfl rfl hx (.snapshot 0 1 1)).2
      (by rw [hxb, hs₁]; exact Option.some_ne_none _) (by rw [hxa, hs₂])
    rw [hzi, hxi] at hfound
    exact ⟨z, hz, hzi.trans hxi, hfound⟩
  · refine (tombstones_ordered rfl rfl rfl hy (.snapshot 0 1 1)).1 3 (by rw [hya, hs₄])
      (by rw [hyb, hs₃]; decide) newer x older rfl
      (by rw [hxa, hxb, hs₁, hs₂]; decide) fun z hz hzi => ?_
    exact absurd (hzi.trans hyi) (holder.started (Option.isNone_iff_eq_none.mp hnone) z hz)

def raced : List (Move Oracle Op) :=
  [.start 0 (.create "db" ⟨512, [⟨512, 1⟩]⟩), .run 0 .fine 4, .start 1 (.tick 1), .run 1 .fine 1,
    .start 2 (.gc 10 5), .run 2 .fine 6, .start 3 (.tick 1), .run 3 .fine 1,
    .start 4 (.gc 10 5), .run 4 .fine 7]

/-- The second pass writes the time 2, and the first puts the time 1 in its place. -/
def racedTest (c₁ : Config World Oracle Op) : Bool :=
  decide (c₁.state.stone (.snapshot 0 1 1) = none) && decide (c₁.state.clock = 2) &&
    (c₁.runs 4 .fine 1).any fun c₂ => decide (c₂.state.stone (.snapshot 0 1 1) = some 2) &&
      (c₂.runs 2 .fine 1).any fun c₃ => decide (c₃.state.stone (.snapshot 0 1 1) = some 2) &&
        (c₃.runs 2 .fine 1).any fun c₄ => decide (c₄.state.stone (.snapshot 0 1 1) = some 1)

/-- A pass can replace a tombstone by one with an earlier time. -/
theorem tombstones_ordered_false : ¬ ∀ (env : Env) (w : World) (c : Config World Oracle Op)
    (newer older : List (Taken World Oracle)) (x y : Taken World Oracle) (k : DataKey) (t : Nat),
    env.settled = true → env.oneClock = true → w.pending = [] →
    Traced (system env fun _ => True) (.init w) (y :: (newer ++ x :: older)) c →
    y.after.stone k = some t → y.before.stone k ≠ some t →
    x.after.stone k ≠ x.before.stone k → x.before.clock ≤ t := by
  intro hall
  obtain ⟨c₁, h₁, h⟩ := Config.exists_play (s := system .localDir fun _ => True)
    (c := .init .empty) (m := raced) (Q := racedTest) (by decide +kernel)
  rw [racedTest, Bool.and_eq_true, Bool.and_eq_true] at h
  obtain ⟨⟨hs₁, hc₁⟩, h⟩ := h
  obtain ⟨c₂, h₂, h⟩ := (Option.any_eq_true _ _).mp h
  rw [Bool.and_eq_true] at h
  obtain ⟨hs₂, h⟩ := h
  obtain ⟨c₃, h₃, h⟩ := (Option.any_eq_true _ _).mp h
  rw [Bool.and_eq_true] at h
  obtain ⟨hs₃, h⟩ := h
  obtain ⟨c₄, h₄, h⟩ := (Option.any_eq_true _ _).mp h
  have hs₁ := of_decide_eq_true hs₁
  have hs₂ := of_decide_eq_true hs₂
  have hs₃ := of_decide_eq_true hs₃
  have hs₄ := of_decide_eq_true h
  obtain ⟨older, holder⟩ := Traced.start.of_reach (Config.play_reach h₁)
  obtain ⟨x, hx, -, hxb, hxa⟩ := holder.runs_one h₂
  obtain ⟨z, hz, -⟩ := hx.runs_one h₃
  obtain ⟨y, hy, -, hyb, hya⟩ := hz.runs_one h₄
  have hle := hall .localDir .empty c₄ [z] _ x y (.snapshot 0 1 1) 1 rfl rfl rfl hy
    (by rw [hya, hs₄]) (by rw [hyb, hs₃]; decide) (by rw [hxa, hxb, hs₁, hs₂]; decide)
  rw [hxb, of_decide_eq_true hc₁] at hle
  exact absurd hle (by decide)

end Offshoot
