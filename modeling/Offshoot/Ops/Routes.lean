import Offshoot.Ops.ByChain

/-!
# Every route writes the same file

The cache is honest: what stands under the name of a chain that can be materialized is what
the chain materializes to, and what its sidecar says is right.  Every process keeps it so,
whatever it read before and whatever others did since, because an entry is only ever named
after the chain it was made from.  So a call writes the same bytes whichever way it takes, and
it writes its destination once, by a rename that is its last act but for the sync of the
directory.
-/

namespace Offshoot.ByChain

open Conc Materialize List
open Rolling (parseDBHeader)

variable {κ ι : Type}
variable {r : Except Err (Placement ι)}

/-! ## The content of a chain -/

def Env.materialize (env : Env κ ι) (members : List κ) : Except Err State :=
  match members.mapM env.objects with
  | some (snapshot :: segments) =>
    (Materialize.materializeChain env.crc snapshot segments).mapError .ltx
  | _ => .error .missing

section Content

variable {env : Env κ ι} {members keys pre : List κ} {key : κ} {a b s : State} {first : Bool}

theorem mapError_eq_ok {ε ε' : Type} {f : ε → ε'} {x : Except ε α} {a : α} :
    x.mapError f = .ok a ↔ x = .ok a := by
  cases x with
  | error e => exact ⟨fun h => (by cases h), fun h => (by cases h)⟩
  | ok b => exact ⟨fun h => (by cases h; rfl), fun h => (by cases h; rfl)⟩

theorem Env.materialize_eq_ok : env.materialize members = .ok a ↔
    ∃ snapshot segments, members.mapM env.objects = some (snapshot :: segments) ∧
      Materialize.materializeChain env.crc snapshot segments = .ok a := by
  rw [Env.materialize]
  constructor
  · intro h
    split at h
    · rename_i snapshot segments hobjs
      exact ⟨snapshot, segments, hobjs, mapError_eq_ok.mp h⟩
    · cases h
  · rintro ⟨snapshot, segments, hobjs, hs⟩
    rw [hobjs]
    exact mapError_eq_ok.mpr hs

theorem mapM_cons_eq_some {objs : List Object} : (key :: keys).mapM env.objects = some objs ↔
    ∃ obj rest, env.objects key = some obj ∧ keys.mapM env.objects = some rest ∧
      objs = obj :: rest := by
  rw [mapM_cons]
  simp only [Option.pure_def, Option.bind_eq_bind, Option.bind_eq_some_iff, Option.some.injEq]
  constructor
  · rintro ⟨obj, hobj, rest, hrest, rfl⟩
    exact ⟨obj, rest, hobj, hrest, rfl⟩
  · rintro ⟨obj, rest, hobj, hrest, rfl⟩
    exact ⟨obj, hobj, rest, hrest, rfl⟩

theorem mapM_ne_nil {objs : List Object} (hkeys : keys ≠ [])
    (h : keys.mapM env.objects = some objs) : objs ≠ [] := by
  rintro rfl
  obtain ⟨key, keys, rfl⟩ := exists_cons_of_ne_nil hkeys
  obtain ⟨obj, rest, -, -, hcons⟩ := mapM_cons_eq_some.mp h
  cases hcons

/-- A chain that can be materialized is a snapshot, and the first members of it are too. -/
theorem Env.materialize_append (hpre : pre ≠ []) (h : env.materialize (pre ++ keys) = .ok a) :
    ∃ snapshot xs ys b, env.materialize pre = .ok b ∧ keys.mapM env.objects = some ys ∧
      Materialize.materializeChain env.crc snapshot xs = .ok b ∧
      Materialize.materializeChain env.crc snapshot (xs ++ ys) = .ok a := by
  obtain ⟨snapshot, segments, hobjs, ha⟩ := Env.materialize_eq_ok.mp h
  rw [mapM_append] at hobjs
  simp only [Option.pure_def, Option.bind_eq_bind, Option.bind_eq_some_iff,
    Option.some.injEq] at hobjs
  obtain ⟨zs, hzs, ys, hys, hsplit⟩ := hobjs
  obtain ⟨key, pre, rfl⟩ := exists_cons_of_ne_nil hpre
  obtain ⟨obj, xs, hobj, hxs, rfl⟩ := mapM_cons_eq_some.mp hzs
  obtain ⟨rfl, rfl⟩ := List.cons.inj hsplit
  obtain ⟨b, hb, -⟩ := materializeChain_append.mp ha
  exact ⟨obj, xs, ys, b, Env.materialize_eq_ok.mpr ⟨obj, xs, hzs, hb⟩, hys, hb, ha⟩

theorem Env.materialize_rest (hpre : pre ≠ []) (hkeys : keys ≠ [])
    (ha : env.materialize (pre ++ keys) = .ok a) {ys : List Object}
    (hys : keys.mapM env.objects = some ys) {t r : State}
    (hfile : ∀ b, env.materialize pre = .ok b → t.file = b.file)
    (h : applyFrom env.crc true t ys = .ok r) : r = a := by
  obtain ⟨snapshot, xs, ys', b, hb, hys', hchain, hall⟩ := Env.materialize_append hpre ha
  cases hys.symm.trans hys'
  exact applyFrom_rest (mapM_ne_nil hkeys hys) hall hchain (hfile b hb) h

end Content

/-! ## What holds of the machine -/

structure Honest (env : Env κ ι) (m : Machine ι) : Prop where
  entry : ∀ {db members a file}, env.materialize members = .ok a →
    m.entries ⟨db, env.chainID members⟩ = some file → file = a.file
  sidecar : ∀ {db members a r}, env.materialize members = .ok a →
    m.sidecars ⟨db, env.chainID members⟩ = some r →
      r.postApplyChecksum = a.running ∧ r.hash = env.hash a.file

/-- No other job writes the destination. -/
def Alone (job : Nat → Job κ ι) (i : Nat) (dst : Path) : Prop :=
  ∀ j, i ≠ j → (job j).dst ≠ some dst

/-- The destination before a call, what the call returned, and the destination then. -/
structure Settled (env : Env κ ι) (members : List κ) (before : Option (List UInt8))
    (r : Except Err (Placement ι)) (after : Option (List UInt8)) : Prop where
  placed : ∀ {p a}, r = .ok p → env.materialize members = .ok a → after = some a.file ∧
    p.chainID = env.chainID members ∧ p.checksum = a.running ∧
      (p.hash = "" ∨ p.hash = env.hash a.file)
  unsynced : ∀ {a}, r = .error .syncDir → env.materialize members = .ok a → after = some a.file
  failed : ∀ {e}, r = .error e → e ≠ .syncDir → after = before

/-- How a call stands: settled once it has returned, and until then either not done or done. -/
structure Outcome (env : Env κ ι) (job : Nat → Job κ ι) (files : Path → Option (List UInt8))
    (i : Nat) (m : Machine ι) : Prop where
  settled : ∀ {db members dst r}, job i = .materialize db members dst → Alone job i dst →
    m.returned i = some r → Settled env members (files dst) r (m.files dst)
  pending : ∀ {db members dst a}, job i = .materialize db members dst → Alone job i dst →
    m.returned i = none → env.materialize members = .ok a →
      m.files dst = files dst ∨ m.files dst = some a.file

structure May (env : Env κ ι) (job : Nat → Job κ ι) (files : Path → Option (List UInt8))
    (i : Nat) (m m' : Machine ι) : Prop where
  honest : Honest env m → Honest env m'
  outcome : Outcome env job files i m → Outcome env job files i m'
  files : ∀ p, (job i).dst ≠ some p → m'.files p = m.files p
  returned : ∀ j, i ≠ j → m'.returned j = m.returned j

/-- A call that has not returned, with its destination as `files` has it. -/
structure At (job : Nat → Job κ ι) (files : Path → Option (List UInt8)) (i : Nat)
    (m : Machine ι) : Prop where
  returned : m.returned i = none
  dst : ∀ {dst}, (job i).dst = some dst → Alone job i dst → m.files dst = files dst

variable {env : Env κ ι} {job : Nat → Job κ ι} {files files' : Path → Option (List UInt8)}
  {i j : Nat} {m m' : Machine ι}

theorem At.may (h : At job files' i m) (hij : i ≠ j) (hmay : May env job files j m m') :
    At job files' i m' where
  returned := (hmay.returned i (Ne.symm hij)).trans h.returned
  dst hdst halone := (hmay.files _ (halone j hij)).trans (h.dst hdst halone)

theorem Outcome.may (h : Outcome env job files i m) (hij : i ≠ j)
    (hmay : May env job files j m m') : Outcome env job files i m' where
  settled hjob halone hr := by
    rw [hmay.files _ (halone j hij)]
    exact h.settled hjob halone ((hmay.returned i (Ne.symm hij)).symm.trans hr)
  pending hjob halone hr ha := by
    rw [hmay.files _ (halone j hij)]
    exact h.pending hjob halone ((hmay.returned i (Ne.symm hij)).symm.trans hr) ha

def routes (env : Env κ ι) (job : Nat → Job κ ι) (files : Path → Option (List UInt8)) :
    Spec (Machine ι) where
  inv m := Honest env m ∧ ∀ i, Outcome env job files i m
  may := May env job files
  assumed _ _ := True
  fresh := At job files
  inv_may := by
    intro i m m' hinv hmay _
    refine ⟨hmay.honest hinv.1, fun j => ?_⟩
    by_cases hij : j = i
    · subst hij
      exact hmay.outcome (hinv.2 j)
    · exact (hinv.2 j).may hij hmay
  fresh_may _ hij h hmay _ := h.may hij hmay

theorem at_stable : (routes env job files).Stable i (At job files' i) :=
  fun _ _ _ hij _ h hmay _ => h.may hij hmay

/-! ## Actions on the cache -/

variable {members keys pre : List κ} {key : κ} {db : String} {dst : Path}
  {name : EntryName ι} {first : Bool} {s : State}

/-- Transitions that leave the destinations and the results alone. -/
structure Tends (env : Env κ ι) (m m' : Machine ι) : Prop where
  honest : Honest env m → Honest env m'
  files : m'.files = m.files
  returned : m'.returned = m.returned

theorem Tends.refl : Tends env m m := ⟨fun h => h, rfl, rfl⟩

theorem Tends.may (h : Tends env m m') : May env job files i m m' where
  honest := h.honest
  outcome ho := by
    refine ⟨fun hjob halone hr => ?_, fun hjob halone hr ha => ?_⟩
    · rw [h.files]
      exact ho.settled hjob halone (h.returned ▸ hr)
    · rw [h.files]
      exact ho.pending hjob halone (h.returned ▸ hr) ha
  files _ _ := congrFun h.files _
  returned _ _ := congrFun h.returned _

theorem Tends.at (h : Tends env m m') (hat : At job files' i m) : At job files' i m' where
  returned := (congrFun h.returned i).trans hat.returned
  dst hdst halone := (congrFun h.files _).trans (hat.dst hdst halone)

/-- Run by process `i`, a program only tends the cache and returns what satisfies `Q`. -/
abbrev Tend (env : Env κ ι) (job : Nat → Job κ ι) (files : Path → Option (List UInt8)) (i : Nat)
    {α : Type} (Q : α → Prop) (p : M ι α) (m : Machine ι) : Prop :=
  (routes env job files).Holds (Tends env) i (fun r _ => Q r) p m

theorem tend_at {p : M ι α} (hp : Tend env job files i Q p m) (hat : At job files' i m) :
    (routes env job files).Ok i (fun r m => Q r ∧ At job files' i m) p m :=
  (hp.carry at_stable (fun _ _ h hat => h.at hat) hat).weaken fun _ _ h => h.may

theorem tend_read {f : Bool → Machine ι → Machine ι × α} (hf : ∀ o m, (f o m).1 = m)
    (hQ : ∀ o m, Honest env m → Q (f o m).2) : Tend env job files i Q (.step f) m :=
  Spec.Holds.read (fun _ => .refl) hf (Spec.Stable.const True) trivial
    fun m o hinv _ => hQ o m hinv.1

theorem tend_step {f : Bool → Machine ι → Machine ι × α}
    (hf : ∀ o m, Tends env m (f o m).1) : Tend env job files i (fun _ => True) (.step f) m :=
  Spec.Holds.step (Spec.Stable.const True) trivial fun m o _ _ _ => ⟨hf o m, trivial⟩

theorem tend_write {f : Machine ι → Machine ι} (hf : ∀ m, Tends env m (f m)) :
    Tend env job files i (fun _ => True)
      (.step fun fail m => if fail then (m, false) else (f m, true)) m := by
  refine tend_step fun o m => ?_
  cases o with
  | true => exact .refl
  | false => exact hf m

theorem tend_attempt : Tend env job files i (fun _ => True) attempt m :=
  tend_read (fun _ _ => rfl) fun _ _ _ => trivial

/-- What a read of the store gives, and an error that is not about a directory. -/
structure Fetched {α : Type} (Q : α → Prop) (r : Except Err α) : Prop where
  ok : ∀ a, r = .ok a → Q a
  error : r ≠ .error .syncDir

namespace Fetched

variable {α β : Type} {Q : α → Prop} {Q' : β → Prop}

theorem of_error {e : Err} (h : Fetched Q (.error e)) : Fetched Q' (.error e) where
  ok _ h := by cases h
  error he := h.error (by rw [Except.error.inj he])

theorem refused {e : Err} (he : e ≠ .syncDir) : Fetched Q (.error e) where
  ok _ h := by cases h
  error h := he (Except.error.inj h)

theorem ltx {e : Materialize.Err} : Fetched Q (.error (.ltx e)) := refused (by simp)

theorem of_ok {a : α} (h : Q a) : Fetched Q (.ok a) where
  ok _ ha := Except.ok.inj ha ▸ h
  error he := by cases he

end Fetched

theorem tend_fetch : Tend env job files i (Fetched fun obj => env.objects key = some obj)
    (fetch env key) m := by
  refine tend_read (fun _ _ => rfl) fun o m _ => ?_
  split
  · exact .refused (by simp)
  · cases env.objects key with
    | none => exact .refused (by simp)
    | some obj => exact .of_ok rfl

theorem tend_readEntry : Tend env job files i
    (fun r => ∀ file a, r = .ok file → env.materialize members = .ok a → file = a.file)
    (readEntry ⟨db, env.chainID members⟩) m := by
  refine tend_read (fun _ _ => rfl) fun o m hm file a hfile ha => ?_
  split at hfile
  · cases hfile
  cases hentry : m.entries ⟨db, env.chainID members⟩ with
  | none =>
    rw [hentry] at hfile
    cases hfile
  | some file' =>
    rw [hentry] at hfile
    rw [← Except.ok.inj hfile]
    exact hm.entry ha hentry

/-! ## Reading the store -/

theorem tend_applyMembers : Tend env job files i (Fetched fun s' =>
      ∃ objs, keys.mapM env.objects = some objs ∧ applyFrom env.crc first s objs = .ok s')
    (applyMembers env first s keys) m := by
  induction keys generalizing first s m with
  | nil => exact .of_ok ⟨[], rfl, rfl⟩
  | cons key keys ih =>
    refine tend_fetch.bindOk (fun _ _ hr => hr.of_error) fun obj m hr => ?_
    dsimp only
    split
    · exact .ltx
    rename_i s₁ hs₁
    refine ih.mono fun r _ hrest => ⟨fun s' hs' => ?_, hrest.error⟩
    obtain ⟨objs, hobjs, hs'⟩ := hrest.ok s' hs'
    exact ⟨obj :: objs, mapM_cons_eq_some.mpr ⟨obj, objs, hr.ok obj rfl, hobjs, rfl⟩,
      applyFrom_cons.mpr ⟨s₁, hs₁, hs'⟩⟩

theorem tend_fetchAll : Tend env job files i
    (Fetched fun objs => keys.mapM env.objects = some objs) (fetchAll env keys) m := by
  induction keys generalizing m with
  | nil => exact .of_ok rfl
  | cons key keys ih =>
    refine tend_fetch.bindOk (fun _ _ hr => hr.of_error) fun obj m hr => ?_
    refine ih.bindOk (fun _ _ hrest => hrest.of_error) fun objs m hrest => ?_
    exact .of_ok (mapM_cons_eq_some.mpr ⟨obj, objs, hr.ok obj rfl, hrest.ok objs rfl, rfl⟩)

theorem tend_materializeMembers : Tend env job files i
    (Fetched fun s => env.materialize members = .ok s) (materializeMembers env members) m := by
  cases members with
  | nil => exact .refused (by simp)
  | cons key keys =>
    rw [materializeMembers]
    split
    · refine tend_fetch.bindOk (fun _ _ hr => hr.of_error) fun obj m hr => ?_
      dsimp only
      split
      · exact .ltx
      rename_i snap hsnap
      refine tend_applyMembers.mono fun r _ hrest => ⟨fun s hs => ?_, hrest.error⟩
      obtain ⟨objs, hobjs, hs⟩ := hrest.ok s hs
      exact Env.materialize_eq_ok.mpr ⟨obj, objs,
        mapM_cons_eq_some.mpr ⟨obj, objs, hr.ok obj rfl, hobjs, rfl⟩,
        materializeChain_eq_ok.mpr ⟨snap, hsnap, hs⟩⟩
    · refine tend_fetch.bindOk (fun _ _ hr => hr.of_error) fun obj m hr => ?_
      refine tend_fetchAll.bindOk (fun _ _ hrest => hrest.of_error) fun objs m hrest => ?_
      dsimp only
      split
      · exact .ltx
      · rename_i s hs
        exact .of_ok (Env.materialize_eq_ok.mpr ⟨obj, objs,
          mapM_cons_eq_some.mpr ⟨obj, objs, hr.ok obj rfl, hrest.ok objs rfl, rfl⟩, hs⟩)

theorem tend_removeSibling {sib : Sibling} :
    Tend env job files i (fun _ => True) (removeSibling dst sib) m := by
  refine tend_step fun o m => ?_
  cases o with
  | true => exact .refl
  | false => exact ⟨fun h => ⟨h.entry, h.sidecar⟩, rfl, rfl⟩

variable {file : List UInt8}

theorem tend_finalizeStage : Tend env job files i (fun _ => True) (finalizeStage file) m := by
  refine tend_attempt.bind fun r m _ => ?_
  cases r <;> trivial

/-! ## How a call ends -/

/-- A call that has renamed a file of its chain over its destination. -/
def Placed (env : Env κ ι) (job : Nat → Job κ ι) (i : Nat) (members : List κ) (m : Machine ι) :
    Prop :=
  ∃ file, (∀ a, env.materialize members = .ok a → file = a.file) ∧ At job (fun _ => some file) i m

/-- What a call is about to return, and how its destination stands then. -/
structure Ended (env : Env κ ι) (job : Nat → Job κ ι) (files : Path → Option (List UInt8))
    (i : Nat) (members : List κ) (r : Except Err (Placement ι)) (m : Machine ι) : Prop where
  placed : ∀ {p}, r = .ok p → Placed env job i members m ∧ p.chainID = env.chainID members ∧
    ∀ a, env.materialize members = .ok a →
      p.checksum = a.running ∧ (p.hash = "" ∨ p.hash = env.hash a.file)
  unsynced : r = .error .syncDir → Placed env job i members m
  failed : ∀ {e}, r = .error e → e ≠ .syncDir → At job files i m

theorem Placed.may (h : Placed env job i members m) (hij : i ≠ j)
    (hmay : May env job files j m m') : Placed env job i members m' := by
  obtain ⟨file, hfile, hat⟩ := h
  exact ⟨file, hfile, hat.may hij hmay⟩

theorem Ended.may (h : Ended env job files i members r m) (hij : i ≠ j)
    (hmay : May env job files j m m') : Ended env job files i members r m' where
  placed hp := ⟨(h.placed hp).1.may hij hmay, (h.placed hp).2⟩
  unsynced hr := (h.unsynced hr).may hij hmay
  failed he hne := (h.failed he hne).may hij hmay

theorem Placed.tend {p : M ι α} (h : Placed env job i members m)
    (hp : ∀ m, Tend env job files i Q p m) :
    (routes env job files).Ok i (fun r m => Q r ∧ Placed env job i members m) p m := by
  obtain ⟨file, hfile, hat⟩ := h
  exact (tend_at (hp m) hat).mono fun r m h => ⟨h.1, file, hfile, h.2⟩

theorem renameOver_ok (hjob : job i = .materialize db members dst)
    (hfile : ∀ a, env.materialize members = .ok a → file = a.file) (hat : At job files i m) :
    (routes env job files).Ok i (fun r m => (r = true → Placed env job i members m) ∧
      (r = false → At job files i m)) (renameOver dst file) m := by
  refine Spec.Holds.step at_stable hat fun m o _ hat _ => ?_
  cases o with
  | true => exact ⟨Tends.refl.may, by simp, fun _ => hat⟩
  | false =>
    have hdst : (job i).dst = some dst := by rw [hjob]; rfl
    refine ⟨⟨fun h => ⟨h.entry, h.sidecar⟩, fun h => ⟨?_, ?_⟩, fun p hp => ?_, fun _ _ => rfl⟩,
      fun _ => ⟨file, hfile, hat.returned, ?_⟩, by simp⟩
    · intro db' members' dst' r _ _ hr
      exact absurd (hat.returned.symm.trans hr) (by simp)
    · intro db' members' dst' a hjob' _ _ ha
      obtain ⟨rfl, rfl, rfl⟩ := Job.materialize.inj (hjob.symm.trans hjob')
      refine .inr ?_
      rw [← hfile a ha]
      exact Function.update_self ..
    · refine Function.update_of_ne (fun heq => hp ?_) ..
      rw [heq, hdst]
    · intro dst' hdst' _
      cases hdst.symm.trans hdst'
      exact Function.update_self ..

def RightRecord (env : Env κ ι) (members : List κ) (r : SumRecord ι) : Prop :=
  ∀ a, env.materialize members = .ok a → r.postApplyChecksum = a.running ∧ r.hash = env.hash a.file

theorem Placed.ended (h : Placed env job i members m) {r : SumRecord ι}
    (hr : RightRecord env members r) {kind : Kind} : Ended env job files i members
      (.ok ⟨kind, env.chainID members, r.postApplyChecksum, r.hash⟩) m where
  placed hp := by
    rw [← Except.ok.inj hp]
    exact ⟨h, rfl, fun a ha => ⟨(hr a ha).1, .inr (hr a ha).2⟩⟩
  unsynced h := by cases h
  failed h := by cases h

theorem Ended.settled (h : Ended env job files i members r m) (hdst : (job i).dst = some dst)
    (halone : Alone job i dst) : Settled env members (files dst) r (m.files dst) := by
  have hplaced (h : Placed env job i members m) {a : State} (ha : env.materialize members = .ok a) :
      m.files dst = some a.file := by
    obtain ⟨file, hfile, hat⟩ := h
    rw [hat.dst hdst halone, hfile a ha]
  refine ⟨fun hp ha => ?_, fun hr ha => hplaced (h.unsynced hr) ha, fun he hne => ?_⟩
  · obtain ⟨hp, hchain, hright⟩ := h.placed hp
    exact ⟨hplaced hp ha, hchain, hright _ ha⟩
  · exact (h.failed he hne).dst hdst halone

section

variable (hjob : job i = .materialize db members dst)

include hjob

theorem cloneIntoPlace_ok (hat : At job files i m) :
    (routes env job files).Ok i (fun r m => (r = .ok () → Placed env job i members m) ∧
      (∀ e, r = .error e → At job files i m)) (cloneIntoPlace ⟨db, env.chainID members⟩ dst) m := by
  refine (tend_at tend_readEntry hat).bindOk
    (fun _ _ hr => ⟨by simp, fun _ _ => hr.2⟩) fun file m hr => ?_
  refine (renameOver_ok hjob (fun a ha => hr.1 file a rfl ha) hr.2).bind fun r m hr => ?_
  cases r with
  | false => exact ⟨by simp, fun _ _ => hr.2 rfl⟩
  | true =>
    refine ((hr.1 rfl).tend fun _ => tend_removeSibling).bind fun _ m hr => ?_
    refine (hr.2.tend fun _ => tend_removeSibling).bind fun _ m hr => ?_
    exact ⟨fun _ => hr.2, by simp⟩

/-- The rename, and the sync of the directory that may fail after it. -/
theorem finalizeDestination_ok (hfile : ∀ a, env.materialize members = .ok a → file = a.file)
    (hat : At job files i m) :
    (routes env job files).Ok i (fun r m =>
      (r = .ok () ∨ r = .error .syncDir → Placed env job i members m) ∧
      (∀ e, r = .error e → e ≠ .syncDir → At job files i m)) (finalizeDestination dst file) m := by
  refine (renameOver_ok hjob hfile hat).bind fun r m hr => ?_
  cases r with
  | false =>
    refine ⟨fun h => ?_, fun _ _ _ => hr.2 rfl⟩
    rcases h with h | h <;> cases h
  | true =>
    refine ((hr.1 rfl).tend fun _ => tend_attempt).bind fun synced m hr => ?_
    refine (hr.2.tend fun _ => tend_removeSibling).bind fun _ m hr => ?_
    refine (hr.2.tend fun _ => tend_removeSibling).bind fun _ m hr => ?_
    refine ⟨fun _ => hr.2, fun e he hne => ?_⟩
    cases synced with
    | true => cases he
    | false => exact absurd (Except.error.inj he).symm hne

theorem materializeDirect_ok (hat : At job files i m) :
    (routes env job files).Ok i (Ended env job files i members)
      (materializeDirect env members dst) m := by
  have hstore : (routes env job files).Ok i (fun r m =>
      (∀ s, r = .ok s → env.materialize members = .ok s ∧ Placed env job i members m) ∧
      (r = .error .syncDir → Placed env job i members m) ∧
      (∀ e, r = .error e → e ≠ .syncDir → At job files i m))
      (materializeMembersAt env members (finalizeDestination dst)) m := by
    refine (tend_at tend_materializeMembers hat).bind fun r m hr => ?_
    cases r with
    | error e =>
      refine ⟨fun s h => (by cases h), fun h => ?_, fun _ _ _ => hr.2⟩
      exact absurd (congrArg Except.error (Except.error.inj h)) hr.1.error
    | ok s =>
      have hs := hr.1.ok s rfl
      refine (finalizeDestination_ok hjob (fun a ha => ?_) hr.2).bind fun r m hr => ?_
      · rw [Except.ok.inj (hs.symm.trans ha)]
      cases r with
      | error e =>
        refine ⟨fun s h => (by cases h), fun h => hr.1 (.inr ?_), fun e' he' hne => ?_⟩
        · rw [Except.error.inj h]
        · exact hr.2 e rfl (Except.error.inj he' ▸ hne)
      | ok _ =>
        refine ⟨fun s' hs' => ⟨?_, hr.1 (.inl rfl)⟩, by simp, by simp⟩
        rw [← Except.ok.inj hs']
        exact hs
  refine hstore.bind fun r m hr => ?_
  cases r with
  | error e =>
    refine ⟨by simp, fun h => hr.2.1 ?_, fun he hne => hr.2.2 e rfl ?_⟩
    · rw [Except.error.inj h]
    · exact Except.error.inj he ▸ hne
  | ok s =>
    obtain ⟨hs, hplaced⟩ := hr.1 s rfl
    refine ⟨fun hp => ?_, by simp, by simp⟩
    rw [← Except.ok.inj hp]
    refine ⟨hplaced, rfl, fun a ha => ⟨?_, .inl rfl⟩⟩
    rw [Except.ok.inj (hs.symm.trans ha)]

theorem recordResult_ok (h : Ended env job files i members r m) :
    (routes env job files).Ok i ⊤ (recordResult i r) m := by
  have hstable : (routes env job files).Stable i (Ended env job files i members r) :=
    fun _ _ _ hij _ h hmay _ => h.may hij hmay
  have hdst : (job i).dst = some dst := by rw [hjob]; rfl
  refine Spec.Holds.step hstable h fun m o _ h _ => ?_
  have hself : Function.update m.returned i (some r) i = some r := Function.update_self ..
  refine ⟨⟨fun hm => ⟨hm.entry, hm.sidecar⟩,
    fun _ => ⟨?_, ?_⟩, fun _ _ => rfl, fun j hij => ?_⟩, trivial⟩
  · intro db' members' dst' r' hjob' halone hr'
    obtain ⟨rfl, rfl, rfl⟩ := Job.materialize.inj (hjob.symm.trans hjob')
    cases hself.symm.trans hr'
    exact h.settled hdst halone
  · intro db' members' dst' a _ _ hr _
    exact absurd (hself.symm.trans hr) (by simp)
  · exact Function.update_of_ne (Ne.symm hij) ..

end

/-! ## Building an entry -/

theorem tend_applySegmentsTo {startChecksum : UInt64} : Tend env job files i
    (fun r => ∀ s a, r = .ok s → pre ≠ [] → env.materialize (pre ++ keys) = .ok a → s = a)
    (applySegmentsTo env ⟨db, env.chainID pre⟩ startChecksum keys) m := by
  rw [applySegmentsTo]
  split
  · exact fun s a hs => by cases hs
  rename_i hkeys
  refine tend_readEntry.bindOk (fun _ _ _ => fun s a hs => by cases hs) fun header m hheader => ?_
  dsimp only
  split
  · exact fun s a hs => by cases hs
  refine tend_readEntry.bindOk (fun _ _ _ => fun s a hs => by cases hs) fun start m hstart => ?_
  refine tend_applyMembers.bindOk (fun _ _ _ => fun s a hs => by cases hs) fun s₁ m happlied => ?_
  refine tend_finalizeStage.bindOk (fun _ _ _ => fun s a hs => by cases hs) fun _ m _ => ?_
  intro s a hs hpre ha
  obtain ⟨objs, hobjs, hs₁⟩ := happlied.ok s₁ rfl
  rw [← Except.ok.inj hs]
  refine Env.materialize_rest hpre (fun h => hkeys (by rw [h]; rfl)) ha hobjs (fun b hb => ?_) hs₁
  exact hstart start b rfl hb

variable [DecidableEq ι]

theorem tend_byChainEntry : Tend env job files i (fun r => ∀ rec, r = some rec →
      RightRecord env members rec) (byChainEntry ⟨db, env.chainID members⟩) m := by
  have hread : Tend env job files i (fun r => ∀ rec, r = some rec → RightRecord env members rec)
      (readSidecar ⟨db, env.chainID members⟩) m := by
    refine tend_read (fun _ _ => rfl) fun o m hm rec hrec a ha => ?_
    split at hrec
    · cases hrec
    · exact hm.sidecar ha (Option.filter_eq_some_iff.mp hrec).1
  refine hread.bind fun r m hr rec hrec => ?_
  exact hr rec (Option.filter_eq_some_iff.mp hrec).1

theorem tend_applyLongest {k : Nat} : Tend env job files i
    (fun r => ∀ s a, r = some s → env.materialize members = .ok a → s = a)
    (applyLongest env db members k) m := by
  induction k generalizing m with
  | zero => exact fun s a hs => by cases hs
  | succ k ih =>
    refine tend_byChainEntry.bind fun r m _ => ?_
    cases r with
    | none => exact ih
    | some rec =>
      have happlied : Tend env job files i (fun r => ∀ s a, r = .ok s →
          members.take (k + 1) ≠ [] →
          env.materialize (members.take (k + 1) ++ members.drop (k + 1)) = .ok a → s = a)
          (applySegmentsTo env ⟨db, env.chainID (members.take (k + 1))⟩ rec.postApplyChecksum
            (members.drop (k + 1))) m := tend_applySegmentsTo
      refine happlied.bindOk (fun _ _ _ => fun s a hs => by cases hs) fun s₁ m hr => ?_
      intro s a hs ha
      rw [← Option.some.inj hs]
      refine hr s₁ a rfl ?_ ?_
      · rw [ne_eq, take_eq_nil_iff, not_or]
        refine ⟨Nat.succ_ne_zero k, fun hmembers => ?_⟩
        rw [hmembers] at ha
        cases ha
      · rw [take_append_drop]
        exact ha

theorem Machine.setEntry_entries {v : Option (List UInt8)} :
    (m.setEntry name v).entries = Function.update m.entries name v := rfl

theorem Machine.setSidecar_sidecars {v : Option (SumRecord ι)} :
    (m.setSidecar name v).sidecars = Function.update m.sidecars name v := rfl

theorem Honest.setEntry (h : Honest env m) {v : Option (List UInt8)}
    (hv : ∀ file members a, v = some file → env.chainID members = name.id →
      env.materialize members = .ok a → file = a.file) : Honest env (m.setEntry name v) where
  entry := by
    intro db members a file ha hentry
    by_cases hname : (⟨db, env.chainID members⟩ : EntryName ι) = name
    · rw [hname, Machine.setEntry_entries, Function.update_self] at hentry
      exact hv file members a hentry (congrArg EntryName.id hname) ha
    · rw [Machine.setEntry_entries, Function.update_of_ne hname] at hentry
      exact h.entry ha hentry
  sidecar := h.sidecar

theorem Honest.setSidecar (h : Honest env m) {v : Option (SumRecord ι)}
    (hv : ∀ r members, v = some r → env.chainID members = name.id → RightRecord env members r) :
    Honest env (m.setSidecar name v) where
  entry := h.entry
  sidecar := by
    intro db members a r ha hrec
    by_cases hname : (⟨db, env.chainID members⟩ : EntryName ι) = name
    · rw [hname, Machine.setSidecar_sidecars, Function.update_self] at hrec
      exact hv r members hrec (congrArg EntryName.id hname) a ha
    · rw [Machine.setSidecar_sidecars, Function.update_of_ne hname] at hrec
      exact h.sidecar ha hrec

theorem tend_removeEntry : Tend env job files i (fun _ => True) (removeEntry name) m :=
  tend_write fun _ => ⟨fun h => h.setEntry (by simp), rfl, rfl⟩

theorem tend_removeSidecar : Tend env job files i (fun _ => True) (removeSidecar name) m :=
  tend_write fun _ => ⟨fun h => h.setSidecar (by simp), rfl, rfl⟩

theorem tend_stampEntry (hid : Function.Injective env.chainID) {kind : Kind}
    (hs : ∀ a, env.materialize members = .ok a → s = a) : Tend env job files i
    (fun r => ∀ b, r = .ok b → RightRecord env members b.2)
    (stampEntry env ⟨db, env.chainID members⟩ kind s) m := by
  have hright : RightRecord env members ⟨env.hash s.file, s.running, env.chainID members⟩ :=
    fun a ha => by rw [hs a ha]; exact ⟨rfl, rfl⟩
  refine tend_attempt.bind fun r m _ => ?_
  cases r with
  | false => exact fun b hb => by cases hb
  | true =>
    have hpublish : Tend env job files i (fun _ => True)
        (publish ⟨db, env.chainID members⟩ s.file) m := by
      refine tend_write fun m => ⟨fun h => h.setEntry fun file members' a hv hname ha => ?_,
        rfl, rfl⟩
      rw [hid hname] at ha
      rw [← Option.some.inj hv, hs a ha]
    refine hpublish.bind fun r m _ => ?_
    cases r with
    | false => exact fun b hb => by cases hb
    | true =>
      have hstat : Tend env job files i (fun _ => True)
          (readEntry ⟨db, env.chainID members⟩) m :=
        tend_read (fun _ _ => rfl) fun _ _ _ => trivial
      refine hstat.bindOk (fun _ _ _ => fun b hb => by cases hb) fun _ m _ => ?_
      have hput : Tend env job files i (fun _ => True) (putSidecar ⟨db, env.chainID members⟩
          ⟨env.hash s.file, s.running, env.chainID members⟩) m := by
        refine tend_write fun m => ⟨fun h => h.setSidecar fun r members' hv hname => ?_, rfl, rfl⟩
        rw [hid hname, ← Option.some.inj hv]
        exact hright
      refine hput.bind fun r m _ => ?_
      cases r with
      | false => exact fun b hb => by cases hb
      | true =>
        intro b hb
        rw [← Except.ok.inj hb]
        exact hright

theorem tend_buildByChainEntry (hid : Function.Injective env.chainID) : Tend env job files i
    (fun r => ∀ b, r = .ok b → RightRecord env members b.2)
    (buildByChainEntry env db members) m := by
  refine tend_attempt.bind fun r m _ => ?_
  cases r with
  | false => exact fun b hb => by cases hb
  | true =>
    have hlongest : Tend env job files i
        (fun r => ∀ s a, r = some s → env.materialize members = .ok a → s = a)
        (applyLongestPrefix env db members) m := tend_applyLongest
    refine hlongest.bind fun r m hr => ?_
    cases r with
    | some s => exact tend_stampEntry hid fun a ha => hr s a rfl ha
    | none =>
      have hstore : Tend env job files i (fun r => ∀ s, r = .ok s → env.materialize members = .ok s)
          (materializeMembersAt env members finalizeStage) m := by
        refine tend_materializeMembers.bindOk
          (fun _ _ _ => fun s hs => by cases hs) fun s m hr => ?_
        refine tend_finalizeStage.bindOk (fun _ _ _ => fun s hs => by cases hs) fun _ m _ => ?_
        intro s' hs'
        rw [← Except.ok.inj hs']
        exact hr.ok s rfl
      refine hstore.bindOk (fun _ _ _ => fun b hb => by cases hb) fun s m hr => ?_
      refine tend_stampEntry hid fun a ha => ?_
      exact Except.ok.inj ((hr s rfl).symm.trans ha)

/-! ## Eviction -/

theorem tend_pruneByChain {names : List (EntryName ι)} :
    Tend env job files i (fun _ => True) (pruneByChain names) m := by
  induction names generalizing m with
  | nil => trivial
  | cons name names ih =>
    refine tend_removeEntry.bind fun r m _ => ?_
    cases r with
    | false => exact ih
    | true => exact tend_removeSidecar.bind fun _ m _ => ih

theorem tend_evictROCache {names : List (EntryName ι)} :
    Tend env job files i (fun _ => True) (evictROCache names) m := by
  induction names generalizing m with
  | nil => trivial
  | cons name names ih =>
    refine tend_removeEntry.bind fun r m _ => ?_
    cases r with
    | false => trivial
    | true =>
      refine tend_removeSidecar.bind fun r m _ => ?_
      cases r with
      | false => trivial
      | true => exact ih

/-! ## The call -/

theorem materializeBuilt_ok (hid : Function.Injective env.chainID)
    (hjob : job i = .materialize db members dst) (hat : At job files i m) :
    (routes env job files).Ok i (Ended env job files i members)
      (materializeBuilt env db members dst) m := by
  refine (tend_at tend_attempt hat).bind fun r m hr => ?_
  cases r with
  | false => exact materializeDirect_ok hjob hr.2
  | true =>
    refine (tend_at (tend_buildByChainEntry hid) hr.2).bindOk
      (fun _ _ hr => materializeDirect_ok hjob hr.2) fun b m hr => ?_
    have hright := hr.1 b rfl
    refine (cloneIntoPlace_ok hjob hr.2).bindOk
      (fun e _ hr => materializeDirect_ok hjob (hr.2 e rfl)) fun _ m hr => ?_
    exact (hr.1 rfl).ended hright

theorem materializeFromChain_ok (hid : Function.Injective env.chainID)
    (hjob : job i = .materialize db members dst) (hat : At job files i m) :
    (routes env job files).Ok i (Ended env job files i members)
      (materializeFromChain env db members dst) m := by
  refine (tend_at tend_byChainEntry hat).bind fun r m hr => ?_
  cases r with
  | none => exact materializeBuilt_ok hid hjob hr.2
  | some rec =>
    have hright := hr.1 rec rfl
    refine (cloneIntoPlace_ok hjob hr.2).bindOk
      (fun e _ hr => materializeBuilt_ok hid hjob (hr.2 e rfl)) fun _ m hr => ?_
    exact (hr.1 rfl).ended hright

/-! ## Whole runs -/

theorem routes_sound (hid : Function.Injective env.chainID) :
    (routes env job files).Sound (machine env job) where
  prog i _ m _ _ hfresh := by
    show (routes env job files).Ok i _ ((job i).run env i) m
    cases hjob : job i with
    | materialize db members dst =>
      exact (materializeFromChain_ok hid hjob hfresh).bind fun r m hr => recordResult_ok hjob hr
    | prune names => exact (tend_pruneByChain.weaken fun _ _ h => h.may).mono fun _ _ _ => trivial
    | evict names => exact (tend_evictROCache.weaken fun _ _ h => h.may).mono fun _ _ _ => trivial
  crash i m _ := Tends.refl.may

/-- The remaining members of a chain applied to a file, from the store. -/
def Env.applySegments (env : Env κ ι) (start : List UInt8) (startChecksum : UInt64)
    (keys : List κ) : Except Err State :=
  match keys.mapM env.objects with
  | some segments => (Materialize.applySegments env.crc start startChecksum segments).mapError .ltx
  | none => .error .missing

omit [DecidableEq ι] in
/-- A chain cut anywhere: its first members can be materialized, and the others, applied to
that file, give the file of the whole chain. -/
theorem Env.applySegments_drop (ha : env.materialize members = .ok a) {k : Nat} (hk : 0 < k)
    (hlt : k < members.length) :
    ∃ b, env.materialize (members.take k) = .ok b ∧
      (∀ r, env.applySegments b.file b.running (members.drop k) = .ok r → r = a) ∧
      (parseDBHeader b.file = .ok (b.pageSize, b.commit) →
        env.applySegments b.file b.running (members.drop k) = .ok a) := by
  have hpre : members.take k ≠ [] := by
    rw [ne_eq, ← length_eq_zero_iff, length_take]
    omega
  have hdrop : members.drop k ≠ [] := by
    rw [ne_eq, ← length_eq_zero_iff, length_drop]
    omega
  rw [← take_append_drop k members] at ha
  obtain ⟨snapshot, xs, ys, b, hb, hys, hchain, hall⟩ := Env.materialize_append hpre ha
  have hne : ys ≠ [] := mapM_ne_nil hdrop hys
  refine ⟨b, hb, fun r hr => ?_, fun hheader => ?_⟩
  · rw [Env.applySegments, hys] at hr
    exact applySegments_rest hall hchain (mapError_eq_ok.mp hr)
  · rw [Env.applySegments, hys]
    exact mapError_eq_ok.mpr (applySegments_of_header hne hall hchain hheader)

structure Machine.Fresh (m : Machine ι) : Prop where
  entries : ∀ name, m.entries name = none
  sidecars : ∀ name, m.sidecars name = none
  returned : ∀ i, m.returned i = none

omit [DecidableEq ι] in
theorem Machine.Fresh.safe (hm : m.Fresh) :
    Safe (routes env job m.files) (.init m : Config (Machine ι) Bool Unit) := by
  refine .init ⟨⟨fun _ h => ?_, fun _ h => ?_⟩, fun i => ⟨fun _ _ h => ?_, fun _ _ _ _ => .inl rfl⟩⟩
    fun i => ⟨hm.returned i, fun _ _ => rfl⟩
  · exact absurd ((hm.entries _).symm.trans h) (by simp)
  · exact absurd ((hm.sidecars _).symm.trans h) (by simp)
  · exact absurd ((hm.returned i).symm.trans h) (by simp)

/-- Whatever way a call takes, next to whatever builders and evictors: the file it leaves and
the checksum it returns are those of the chain.  A call that fails leaves its destination
alone, unless all that failed is the sync of the directory after the rename. -/
theorem materialize_routes_agree (hid : Function.Injective env.chainID) (hm : m.Fresh)
    {c : Config (Machine ι) Bool Unit} (hc : Reach (machine env job) (.init m) c)
    (hjob : job i = .materialize db members dst) (halone : Alone job i dst) {a : State}
    (ha : env.materialize members = .ok a) :
    (∀ p, c.state.returned i = some (.ok p) → c.state.files dst = some a.file ∧
      p.chainID = env.chainID members ∧ p.checksum = a.running ∧
        (p.hash = "" ∨ p.hash = env.hash a.file)) ∧
    (c.state.returned i = some (.error .syncDir) → c.state.files dst = some a.file) ∧
    (∀ e, c.state.returned i = some (.error e) → e ≠ .syncDir → c.state.files dst = m.files dst) ∧
    (c.state.returned i = none →
      c.state.files dst = m.files dst ∨ c.state.files dst = some a.file) ∧
    ∀ k, 0 < k → k < members.length → ∃ b, env.materialize (members.take k) = .ok b ∧
      (∀ r, env.applySegments b.file b.running (members.drop k) = .ok r → r = a) ∧
      (parseDBHeader b.file = .ok (b.pageSize, b.commit) →
        env.applySegments b.file b.running (members.drop k) = .ok a) := by
  have houtcome := (hm.safe.reach (routes_sound hid) (.of_reach (fun _ _ => trivial) hc)).inv.2 i
  refine ⟨fun p hp => ?_, fun hr => ?_, fun e he hne => ?_, fun hr => ?_, fun k hk hlt => ?_⟩
  · exact (houtcome.settled hjob halone hp).placed rfl ha
  · exact (houtcome.settled hjob halone hr).unsynced rfl ha
  · exact (houtcome.settled hjob halone he).failed rfl hne
  · exact houtcome.pending hjob halone hr ha
  · exact Env.applySegments_drop ha hk hlt

/-! ### A snapshot and a segment -/

/-- A database of one page of 512 bytes, with a header and one more byte. -/
def sampleFile (x : UInt8) : List UInt8 :=
  Rolling.dbHeaderMagic ++ [2, 0] ++ List.replicate 10 0 ++ [0, 0, 0, 1] ++ List.replicate 479 0 ++
    [x]

def sampleObjects : Nat → Option Object
  | 0 => some (.snapshot ⟨512, 1, 1, Rolling.checksumFlag, sampleFile 0⟩)
  | 1 => some (.segment ⟨512, 1, 2, 2, Rolling.checksumFlag, Rolling.checksumFlag,
      [⟨1, sampleFile 1⟩]⟩)
  | _ => none

/-- Two members, a page checksum that is always zero, and chains that name themselves. -/
def sampleEnv : Env Nat (List Nat) :=
  ⟨fun _ _ => 0, sampleObjects, fun ks => ks, fun _ => "h", true⟩

/-- The snapshot is checked out at `a`, both members at `b`. -/
def sampleJob : Nat → Job Nat (List Nat)
  | 0 => .materialize "db" [0] "a"
  | 1 => .materialize "db" [0, 1] "b"
  | _ => .prune []

def sampleMachine : Machine (List Nat) :=
  ⟨fun _ => none, fun _ => none, fun _ => none, fun _ => none, fun _ => none⟩

theorem sampleMachine_fresh : sampleMachine.Fresh := ⟨fun _ => rfl, fun _ => rfl, fun _ => rfl⟩

theorem sampleJob_alone : Alone sampleJob 0 "a" ∧ Alone sampleJob 1 "b" := by
  constructor
  · intro j hij
    rcases j with _ | _ | j
    · exact absurd rfl hij
    · simp [sampleJob, Job.dst]
    · simp [sampleJob, Job.dst]
  · intro j hij
    rcases j with _ | _ | j
    · simp [sampleJob, Job.dst]
    · exact absurd rfl hij
    · simp [sampleJob, Job.dst]

instance : DecidablePred (machine sampleEnv sampleJob).enabled :=
  fun _ => inferInstanceAs (Decidable True)

/-- The first call builds the entry of the snapshot and clones it; the second finds it, applies
the segment to it, and clones what it made of it. -/
theorem materialize_routes_agree_segments : ∃ (c : Config (Machine (List Nat)) Bool Unit)
    (a : State) (p : Placement (List Nat)),
    Reach (machine sampleEnv sampleJob) (.init sampleMachine) c ∧
      sampleEnv.materialize [0, 1] = .ok a ∧ c.state.returned 1 = some (.ok p) ∧
      p.kind = .cloneSegments ∧ c.state.files "b" = some a.file ∧ p.checksum = a.running := by
  have hplay : ((Config.init sampleMachine).play (machine sampleEnv sampleJob)
      [.start 0 (), .run 0 false 14, .start 1 (), .run 1 false 17]).any fun c =>
        c.state.returned 1 = some (.ok ⟨.cloneSegments, [0, 1], Rolling.checksumFlag, "h"⟩) := by
    decide +kernel
  have hmaterialize : (sampleEnv.materialize [0, 1]).isOk = true := by decide +kernel
  obtain ⟨c, hc, hreturned⟩ := Config.exists_play hplay
  have hreturned := of_decide_eq_true hreturned
  cases ha : sampleEnv.materialize [0, 1] with
  | error e =>
    rw [ha] at hmaterialize
    cases hmaterialize
  | ok a =>
    have hagree := materialize_routes_agree (fun _ _ h => h) sampleMachine_fresh
      (Config.play_reach hc) (rfl : sampleJob 1 = .materialize "db" [0, 1] "b")
      sampleJob_alone.2 ha
    obtain ⟨hfile, -, hsum, -⟩ := hagree.1 _ hreturned
    exact ⟨c, a, _, Config.play_reach hc, rfl, hreturned, rfl, hfile, hsum⟩

/-- The destination is renamed over from the store, and then its directory cannot be synced:
the call fails and the destination is a new file. -/
theorem failed_call_replaces_destination : ¬ ∀ (env : Env Nat (List Nat))
    (job : Nat → Job Nat (List Nat)) (m : Machine (List Nat))
    (c : Config (Machine (List Nat)) Bool Unit) (i : Nat) (db : String) (members : List Nat)
    (dst : Path) (a : State) (e : Err), Function.Injective env.chainID → m.Fresh →
    Reach (machine env job) (.init m) c → job i = .materialize db members dst →
    Alone job i dst → env.materialize members = .ok a →
    c.state.returned i = some (.error e) → c.state.files dst = m.files dst := by
  intro hclaim
  have hplay : ((Config.init sampleMachine).play (machine sampleEnv sampleJob)
      [.start 0 (), .run 0 false 1, .run 0 true 1, .run 0 false 2, .run 0 true 1,
        .run 0 false 3]).any fun c =>
        c.state.returned 0 = some (.error .syncDir) ∧ (c.state.files "a").isSome = true := by
    decide +kernel
  obtain ⟨c, hc, hend⟩ := Config.exists_play hplay
  obtain ⟨hreturned, hfile⟩ := of_decide_eq_true hend
  have ha : sampleEnv.materialize [0] = .ok ⟨sampleFile 0, 512, 1, 1, Rolling.checksumFlag⟩ := rfl
  have hsame := hclaim sampleEnv sampleJob sampleMachine c 0 "db" [0] "a" _ _ (fun _ _ h => h)
    sampleMachine_fresh (Config.play_reach hc) rfl sampleJob_alone.1 ha hreturned
  rw [hsame] at hfile
  cases hfile

end Offshoot.ByChain
