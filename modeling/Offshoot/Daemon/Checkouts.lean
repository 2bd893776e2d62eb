import Offshoot.Daemon.Requests
import Offshoot.System.Footprint.Files

/-!
# Requests that rewrite checkouts, beside sessions

A checkout, a rollback, a promote and a destroy refuse a branch the daemon has a session
on, and then run without the mutex: whether there is a session is asked once, before an
operation that replaces the checkout's file near its end.  An open that comes in between
finds nothing in its way.  As long as none does, no request replaces or removes the file a
session captures.

The daemon's shutdown is left out here.
-/

namespace Offshoot.Daemon

open List

variable {ks : List Key}

open Conc Maps

structure Setup where
  env : Env
  host : Nat
  ttl : Nat
  fuel : Nat

/-- What the daemon works on, with the branch of each session.  `flights` has the branches
each request has found without a session, until it returns. -/
structure Host where
  world : World
  branchOf : Nat → BranchId
  flights : List (Nat × Key)

namespace Host

def init (w : World) : Host := ⟨w, fun _ => ⟨"", ""⟩, []⟩

def setBranch (h : Host) (t : Nat) (b : BranchId) : Host :=
  { h with branchOf := fun t' => if t' = t then b else h.branchOf t' }

def run (p : M α) : Prog Host Oracle α := p.within Host.world fun w h => { h with world := w }

end Host

/-! ## Sessions -/

def openError : String := "session: open failed"

def closeError : String := "session: close failed"

/-- `session.Open` and `Session.Close`; the wording of what the store reports is left
out. -/
def sessions (u : Setup) : Sessions Host Oracle where
  openSession t db branch := do
    Prog.step fun _ h => (h.setBranch t ⟨db, branch⟩, ())
    match ← Host.run (Offshoot.openSession u.env t u.host ⟨db, branch⟩ u.ttl u.fuel none) with
    | .error _ => return .error openError
    | .ok () => return .ok ()
  closeSession t := do
    let b ← Prog.step fun _ h => (h, h.branchOf t)
    match ← Host.run (Offshoot.closeSession u.env t u.host b) with
    | .error _ => return some closeError
    | .ok () => return none
  openRefusal _ _ e := return e

/-! ## Requests at rest -/

inductive Reply
  | refused (msg : String)
  | failed (e : Err)
  | done
  deriving DecidableEq

def Reply.ofResult : Result α → Reply
  | .ok _ => .done
  | .error e => .failed e

def errClosing (k : Key) : String := s!"daemon: {k} is closing; retry when the close finishes"

def errOpen (k : Key) : String := s!"daemon: {k} is open here; close the session first"

def refuseIfClaimed (i : Nat) (k : Key) : Prog (State Host) Oracle (Option String) :=
  .step fun _ d =>
    match d.server.sessions.lookup k with
    | none => (⟨d.server, { d.rest with flights := (i, k) :: d.rest.flights }⟩, none)
    | some (.closing _) => (d, some (errClosing k))
    | some _ => (d, some (errOpen k))

def refuseIfAnyClaimed (i : Nat) : List Key → Prog (State Host) Oracle (Option String)
  | [] => return none
  | k :: ks => do
    match ← refuseIfClaimed i k with
    | some msg => return some msg
    | none => refuseIfAnyClaimed i ks

def land (i : Nat) : Prog (State Host) Oracle Unit :=
  .step fun _ d =>
    (⟨d.server, { d.rest with flights := d.rest.flights.filter (·.1 ≠ i) }⟩, ())

def atStore (p : M (Result α)) : Prog (State Host) Oracle Reply := do
  return .ofResult (← outside (Host.run p))

def atRest (i : Nat) (keys : List Key) (p : Prog (State Host) Oracle Reply) :
    Prog (State Host) Oracle Reply := do
  match ← refuseIfAnyClaimed i keys with
  | some msg =>
    land i
    return .refused msg
  | none =>
    let r ← p
    land i
    return r

def flushIfOpen (u : Setup) (db branch : String) : Prog (State Host) Oracle Reply := do
  match ← Prog.step fun _ d => (d, d.server.sessions.lookup (key db branch)) with
  | none => return .done
  | some (.serving t _) => atStore (flush u.env t ⟨db, branch⟩ none u.fuel)
  | some .reserved => return .refused (errOpen (key db branch))
  | some (.closing _) => return .refused (errClosing (key db branch))

def afterFlush (u : Setup) (db source : String) (p : Prog (State Host) Oracle Reply) :
    Prog (State Host) Oracle Reply := do
  match ← flushIfOpen u db source with
  | .done => p
  | r => return r

def orMain (branch : String) : String := if branch = "" then "main" else branch

def opCreate (u : Setup) (i : Nat) (db : String) (img : Image) : Prog (State Host) Oracle Reply :=
  atStore (create u.env i db img)

def opFork (u : Setup) (i : Nat) (db branch name : String) (opts : ForkOptions) :
    Prog (State Host) Oracle Reply :=
  afterFlush u db (orMain branch)
    (atStore (fork u.env i u.host ⟨db, orMain branch⟩ ⟨db, name⟩ opts u.fuel))

def opCheckoutAtRest (u : Setup) (i : Nat) (db branch : String) : Prog (State Host) Oracle Reply :=
  atRest i [key db (orMain branch)] (atStore (checkoutProven u.host ⟨db, orMain branch⟩ u.fuel))

def opDestroy (u : Setup) (i : Nat) (db branch : String) (force : Bool) :
    Prog (State Host) Oracle Reply :=
  atRest i [key db (orMain branch)] (atStore (destroy u.env i u.host ⟨db, orMain branch⟩ force))

/-- The branch a repoint asks for, and its safety fork if it makes one. -/
def repointKeys (db branch suffix : String) (opts : RepointOptions) : List Key :=
  if opts.noBackup then [key db branch] else [key db branch, key db (branch ++ suffix)]

/-- A rollback is never forced here. -/
def opRollback (u : Setup) (i : Nat) (db branch name : String) (opts : RepointOptions) :
    Prog (State Host) Oracle Reply :=
  atRest i (repointKeys db (orMain branch) "-pre-rollback" opts)
    (atStore (rollback u.env i u.host ⟨db, orMain branch⟩ name { opts with force := false } u.fuel))

/-- The target is not defaulted. -/
def opPromote (u : Setup) (i : Nat) (db branch name : String) (opts : RepointOptions) :
    Prog (State Host) Oracle Reply :=
  atRest i (repointKeys db name "-pre-promote" opts) (afterFlush u db (orMain branch)
    (atStore (promote u.env i u.host db (orMain branch) name opts u.fuel)))

inductive AtRest
  | create (db : String) (img : Image)
  | fork (db branch name : String) (opts : ForkOptions)
  | checkout (db branch : String)
  | destroy (db branch : String) (force : Bool)
  | rollback (db branch name : String) (opts : RepointOptions)
  | promote (db branch name : String) (opts : RepointOptions)

def AtRest.prog (u : Setup) (i : Nat) : AtRest → Prog (State Host) Oracle Reply
  | .create db img => opCreate u i db img
  | .fork db branch name opts => opFork u i db branch name opts
  | .checkout db branch => opCheckoutAtRest u i db branch
  | .destroy db branch force => opDestroy u i db branch force
  | .rollback db branch name opts => opRollback u i db branch name opts
  | .promote db branch name opts => opPromote u i db branch name opts

/-- Requests, as opposed to what the daemon does of itself. -/
def Op.request : Op ρ → Bool
  | .opOpen _ _ | .opClose _ | .other _ => true
  | .shutdown | .goroutine _ => false

def requests (u : Setup) : System (State Host) Oracle (Op AtRest) where
  prog := Op.prog Oracle.yes (sessions u) fun i r => do
    let _ ← r.prog u i
    return ()
  enabled op := op.request
  crash _ d := d

instance (u : Setup) : DecidablePred (requests u).enabled := fun op =>
  inferInstanceAs (Decidable (op.request = true))

/-! ## Captures -/

/-- Session `t` captures the checkout of the branch: its engine was started, and its `Close`
has not returned. -/
def Captures (d : State Host) (b : BranchId) (t : Nat) : Prop :=
  Pending d.server.log (key b.db b.branch) t ∧ (d.rest.world.sessions t).lease ≠ Session.empty.lease

/-- A branch that is reserved is on no request's list. -/
def Apart (d d' : State Host) : Prop := ∀ k, d.server.sessions.lookup k = none →
  d'.server.sessions.lookup k ≠ none → ∀ i, (i, k) ∉ d.rest.flights

/-- The checkouts thread `i` replaces are those it has found without a session, and those
it is opening. -/
def Pulls (u : Setup) (i : Nat) (d d' : State Host) : Prop := ∀ b,
  (d.rest.world.checkouts u.host b).Pulled (d'.rest.world.checkouts u.host b) →
    (i, key b.db b.branch) ∈ d.rest.flights ∨ claim (key b.db b.branch) d.server.log = .opening i

variable {u : Setup} {i : Nat} {k : Key} {d d' : State Host}

theorem Pulls.of_checkouts (h : d'.rest.world.checkouts = d.rest.world.checkouts) :
    Pulls u i d d' := by
  intro b hb
  rw [h] at hb
  exact absurd hb (Checkout.not_pulled rfl rfl)

theorem Host.run_all {R : Host → Host → Prop} {P : World → World → Prop} {p : M α}
    (h : ∀ h w, P h.world w → R h { h with world := w }) (hp : p.All P) : (Host.run p).All R :=
  Prog.All.within h hp

theorem sessions_conduct : Conduct (Pulls u) (sessions u) where
  locked _ _ _ := .of_checkouts rfl
  openSession i db branch := by
    refine .bind (.step fun _ h s _ => .of_checkouts rfl) fun _ => .bind ?_ fun r => ?_
    · refine Host.run_all (fun h w hw s hclaim b hb => ?_)
        (openSession_replaces (P := (· = ⟨db, branch⟩)) rfl)
      by_cases hown : b = ⟨db, branch⟩
      · rw [hown]
        exact .inr hclaim
      · exact absurd hb (hw u.host b hown)
    · cases r <;> exact .pure _
  openRefusal _ _ _ _ := .pure _
  closeSession i t := by
    refine .bind (.step fun _ h s => .of_checkouts rfl) fun b => .bind ?_ fun r => ?_
    · exact Host.run_all (fun h w hw s b hb => absurd hb (hw u.host b id))
        (closeSession_replaces (P := fun _ => False))
    · cases r <;> exact .pure _

/-! ## Flights -/

/-- What a request does to the flights: it changes its own, and adds only branches without
a session. -/
structure Flies (i : Nat) (d d' : State Host) : Prop where
  closing : d'.server.closing = d.server.closing
  others : ∀ j, j ≠ i → ∀ k, (j, k) ∈ d'.rest.flights ↔ (j, k) ∈ d.rest.flights
  own : ∀ k, (i, k) ∈ d'.rest.flights → (i, k) ∈ d.rest.flights ∨ d'.server.sessions.lookup k = none

theorem Flies.of_flights (hclosing : d'.server.closing = d.server.closing)
    (h : d'.rest.flights = d.rest.flights) : Flies i d d' :=
  ⟨hclosing, fun j _ k => by rw [h], fun k hk => .inl (by rwa [h] at hk)⟩

/-- The branches of the flights have no session, as long as none is opened on them. -/
def flightLayer : Layer (slotSpec Host) where
  inv d := d.server.closing = false ∧
    ∀ i k, (i, k) ∈ d.rest.flights → d.server.sessions.lookup k = none
  may := Flies
  assumed := Apart
  fresh _ _ := True
  inv_may := by
    intro i d d' _ h _ hm _ hapart
    refine ⟨hm.closing.trans h.1, fun j k hk => ?_⟩
    have hkeep (hk : (j, k) ∈ d.rest.flights) : d'.server.sessions.lookup k = none := by
      by_contra hne
      exact hapart k (h.2 j k hk) hne j hk
    by_cases hij : j = i
    · subst hij
      exact (hm.own k hk).elim hkeep id
    · exact hkeep ((hm.others j hij k).mp hk)
  fresh_may := fun _ _ _ _ _ _ _ _ => trivial

theorem locked_flies {f : Oracle → Server → Server × α} (h : ∀ o s, (f o s).1.closing = s.closing) :
    (locked f : Prog (State Host) Oracle α).All (Flies i) :=
  .step fun o d => .of_flights (h o d.server) rfl

theorem outside_flies {p : Prog Host Oracle α} (hp : p.All fun h h' => h'.flights = h.flights) :
    (outside p).All (Flies i) :=
  .within (fun _ _ h => .of_flights rfl h) hp

theorem Host.run_flights {p : M α} : (Host.run p).All fun h h' => h'.flights = h.flights :=
  Host.run_all (fun _ _ _ => rfl) (.any (fun _ _ => trivial) p)

theorem note_flies {e : Event} : (note e : Prog (State Host) Oracle Unit).All (Flies i) :=
  locked_flies fun _ _ => rfl

variable {s : Server}

theorem reserve_closing : (s.reserve k i).1.closing = s.closing := by
  unfold Server.reserve
  split
  · rfl
  · split <;> rfl

theorem install_closing : (s.install k i).1.closing = s.closing := by
  unfold Server.install
  split <;> rfl

theorem beginClose_closing {id : Option Nat} : (s.beginClose k i id).1.closing = s.closing := by
  unfold Server.beginClose
  split
  · rfl
  · rfl
  · split <;> rfl
  · split <;> rfl

variable {late : Oracle → Bool}

theorem claimSlot_flies {n : Nat} :
    (claimSlot late i k n : Prog (State Host) Oracle _).All (Flies i) := by
  induction n with
  | zero => exact .pure _
  | succ n ih =>
    refine .bind (locked_flies fun _ _ => reserve_closing) fun r => ?_
    cases r with
    | closing done =>
      refine .bind (locked_flies fun _ _ => rfl) fun r => ?_
      cases r with
      | none => exact .pure _
      | some err => exact ih
    | _ => exact .pure _

variable {t : Nat} {db : String}

theorem openSession_flies {branch : String} :
    (outside ((sessions u).openSession t db branch)).All (Flies i) := by
  refine outside_flies (.bind (.step fun _ _ => rfl) fun _ => .bind Host.run_flights fun r => ?_)
  cases r <;> exact .pure _

theorem closeSession_flies : (closeSession (sessions u) k i t).All (Flies i) := by
  refine .bind note_flies fun _ => .bind (outside_flies ?_) fun _ => .bind note_flies fun _ =>
    .pure _
  refine .bind (.step fun _ _ => rfl) fun b => .bind Host.run_flights fun r => ?_
  cases r <;> exact .pure _

theorem opOpen_flies {req : Request} {n : Nat} :
    (opOpen late (sessions u) i req n).All (Flies i) := by
  refine .bindOk claimSlot_flies .ret fun _ => ?_
  refine .bind openSession_flies fun r => ?_
  cases r with
  | error e =>
    exact .bind (outside_flies (.pure _)) fun _ => .bind (locked_flies fun _ _ => rfl) .ret
  | ok _ =>
    refine .bind note_flies fun _ => .bind (locked_flies fun _ _ => install_closing) fun r => ?_
    cases r with
    | some id => exact .pure _
    | none =>
      exact .bind closeSession_flies fun _ => .bind note_flies fun _ =>
        .bind (locked_flies fun _ _ => rfl) .ret

theorem opClose_flies {req : Request} : (opClose late (sessions u) i req).All (Flies i) := by
  refine .bind (locked_flies fun _ _ => beginClose_closing) fun r => ?_
  cases r with
  | notOpen => exact .pure _
  | closing done =>
    refine .bind (locked_flies fun _ _ => rfl) fun r => ?_
    rcases r with _ | _ | err <;> exact .pure _
  | marked m =>
    exact .bind (.bind closeSession_flies fun _ => locked_flies fun _ _ => rfl)
        fun _ => by split <;> exact .pure _

/-! ## Requests at rest -/

/-- A request that only reads the slots, and keeps to the flights. -/
def Grounded (i : Nat) (d d' : State Host) : Prop := d'.server = d.server ∧ Flies i d d'

theorem run_grounded {p : M α} : (outside (Host.run p)).All (Grounded i) :=
  Prog.All.within (fun _ _ h => ⟨rfl, .of_flights rfl h⟩) Host.run_flights

theorem refuseIfClaimed_grounded : (refuseIfClaimed i k).All (Grounded i) := by
  refine .step fun _ d => ?_
  cases hslot : d.server.sessions.lookup k with
  | none =>
    refine ⟨rfl, rfl, fun j hj k' => ?_, fun k' hk' => ?_⟩
    · simp [hj]
    · rcases mem_cons.mp hk' with heq | hk'
      · rw [(Prod.mk.inj heq).2]
        exact .inr hslot
      · exact .inl hk'
  | some sl => cases sl <;> exact ⟨rfl, .of_flights rfl rfl⟩

theorem refuseIfAnyClaimed_grounded : (refuseIfAnyClaimed i ks).All (Grounded i) := by
  induction ks with
  | nil => exact .pure _
  | cons k ks ih =>
    refine .bind refuseIfClaimed_grounded fun r => ?_
    cases r with
    | some msg => exact .pure _
    | none => exact ih

theorem land_grounded : (land i).All (Grounded i) :=
  .step fun _ d => ⟨rfl, rfl, fun j hj k => by simp [hj], fun k hk => by simp at hk⟩

variable {p : Prog (State Host) Oracle Reply}

theorem atRest_grounded (hp : p.All (Grounded i)) : (atRest i ks p).All (Grounded i) := by
  refine .bind refuseIfAnyClaimed_grounded fun r => ?_
  cases r with
  | some msg => exact .bind land_grounded .ret
  | none => exact .bind hp fun _ => .bind land_grounded .ret

theorem atStore_grounded {p : M (Result α)} : (atStore p).All (Grounded i) :=
  .bind run_grounded .ret

theorem afterFlush_grounded {source : String} (hp : p.All (Grounded i)) :
    (afterFlush u db source p).All (Grounded i) := by
  refine .bind ?_ fun r => ?_
  · refine .bind (.step fun _ _ => ⟨rfl, .of_flights rfl rfl⟩) fun sl => ?_
    rcases sl with _ | _ | _ | _
    · exact .pure _
    · exact .pure _
    · exact atStore_grounded
    · exact .pure _
  · cases r with
    | done => exact hp
    | _ => exact .pure _

theorem AtRest.prog_grounded (r : AtRest) : (r.prog u i).All (Grounded i) := by
  cases r with
  | create _ _ => exact atStore_grounded
  | fork _ _ _ _ => exact afterFlush_grounded atStore_grounded
  | checkout _ _ => exact atRest_grounded atStore_grounded
  | destroy _ _ _ => exact atRest_grounded atStore_grounded
  | rollback _ _ _ _ => exact atRest_grounded atStore_grounded
  | promote _ _ _ _ => exact atRest_grounded (afterFlush_grounded atStore_grounded)

def Found (i : Nat) (ks : List Key) (d : State Host) : Prop := ∀ k ∈ ks, (i, k) ∈ d.rest.flights

theorem Found.stable : flightLayer.spec.Stable i (Found i ks) := by
  intro j d d' hij _ hfound hmay _ k hk
  exact (hmay.2.others i hij k).mpr (hfound k hk)

/-- Run by thread `i`, the program replaces no checkouts but those found without a session. -/
abbrev Asks (u : Setup) (i : Nat) (Q : α → State Host → Prop) (p : Prog (State Host) Oracle α)
    (d : State Host) : Prop := flightLayer.spec.Holds (Pulls u i) i Q p d

theorem refuseIfAnyClaimed_asks {found : List Key} (hd : Found i found d) :
    Asks u i (fun r d => r = none → Found i found d ∧ Found i ks d)
    (refuseIfAnyClaimed i ks) d := by
  induction ks generalizing found d with
  | nil => exact fun _ => ⟨hd, fun _ h => by cases h⟩
  | cons k ks ih =>
    refine Spec.Holds.bind (Q := fun r d => r = none → Found i (k :: found) d) ?_ fun r d hd => ?_
    · refine Spec.Holds.step Found.stable hd fun d _ _ hd _ => ?_
      cases hslot : d.server.sessions.lookup k with
      | none =>
        refine ⟨.of_checkouts rfl, fun _ k' hk' => ?_⟩
        rcases mem_cons.mp hk' with rfl | hk'
        · exact mem_cons_self
        · exact mem_cons_of_mem _ (hd k' hk')
      | some sl => cases sl <;> exact ⟨.of_checkouts rfl, by simp⟩
    · cases r with
      | some msg => exact fun h => by cases h
      | none =>
        refine (ih (hd rfl)).mono fun r d h hr => ?_
        obtain ⟨hfound, hks⟩ := h hr
        refine ⟨fun k' hk' => hfound k' (mem_cons_of_mem _ hk'), fun k' hk' => ?_⟩
        rcases mem_cons.mp hk' with rfl | hk'
        · exact hfound _ mem_cons_self
        · exact hks k' hk'

theorem atStore_asks {P : BranchId → Prop} {p : M (Result α)} (hp : Replaces P p)
    (hks : ∀ b, P b → key b.db b.branch ∈ ks) (hd : Found i ks d) :
    Asks u i (fun _ d => Found i ks d) (atStore p) d := by
  refine Spec.Holds.bind (Q := fun _ d => Found i ks d) ?_ fun _ _ hd => hd
  have hrun : (Host.run p).All fun h h' => ReplacesOnly P h.world h'.world ∧
    h'.flights = h.flights :=
    Host.run_all (fun _ _ hw => ⟨hw, rfl⟩) hp
  refine Prog.All.holds_of_stable Found.stable hd (hrun.within fun d h hh _ hfound _ => ⟨?_, ?_⟩)
  · intro b hb
    by_cases hP : P b
    · exact .inl (hfound _ (hks b hP))
    · exact absurd hb (hh.1 u.host b hP)
  · intro k hk
    rw [hh.2]
    exact hfound k hk

theorem afterFlush_asks {source : String} (hd : Found i ks d)
    (hp : ∀ d, Found i ks d → Asks u i ⊤ p d) : Asks u i ⊤ (afterFlush u db source p) d := by
  refine Spec.Holds.bind (Q := fun _ d => Found i ks d) ?_ fun r d hd => ?_
  · refine Spec.Holds.bind (Q := fun _ d => Found i ks d) ?_ fun sl d hd => ?_
    · exact Spec.Holds.step Found.stable hd fun _ _ _ hd _ => ⟨.of_checkouts rfl, hd⟩
    rcases sl with _ | _ | _ | _
    · exact hd
    · exact hd
    · exact atStore_asks (flush_replaces (P := fun _ => False)) (fun _ h => h.elim) hd
    · exact hd
  · cases r with
    | done => exact hp d hd
    | _ => trivial

theorem atRest_asks (hp : ∀ d, Found i ks d → Asks u i ⊤ p d) : Asks u i ⊤ (atRest i ks p) d := by
  have hland {d : State Host} : Asks u i ⊤ (land i) d :=
    Prog.All.holds (.step fun _ _ _ _ => .of_checkouts rfl)
  have hnone : Found i [] d := fun _ h => by cases h
  refine (refuseIfAnyClaimed_asks hnone).bind fun r d hd => ?_
  cases r with
  | some msg => exact hland.bind .ret
  | none => exact (hp d (hd rfl).2).bind fun _ _ _ => hland.bind .ret

theorem mem_repointKeys {branch suffix : String} {opts : RepointOptions} {b : BranchId}
    (h : b = ⟨db, branch⟩ ∨ opts.noBackup = false ∧ b = ⟨db, branch ++ suffix⟩) :
    key b.db b.branch ∈ repointKeys db branch suffix opts := by
  unfold repointKeys
  rcases h with rfl | ⟨hbackup, rfl⟩
  · split <;> exact mem_cons_self
  · rw [hbackup]
    exact mem_cons_of_mem _ mem_cons_self

theorem AtRest.prog_asks (r : AtRest) : Asks u i ⊤ (r.prog u i) d := by
  have hnone {d : State Host} : Found i [] d := fun _ h => by cases h
  have hstore {α : Type} {ks : List Key} {P : BranchId → Prop} {p : M (Result α)}
      (hp : Replaces P p) (hks : ∀ b, P b → key b.db b.branch ∈ ks) (d : State Host)
      (hd : Found i ks d) : Asks u i ⊤ (atStore p) d :=
    (atStore_asks hp hks hd).mono fun _ _ _ => trivial
  cases r with
  | create db img =>
    exact hstore (create_replaces (P := fun _ => False)) (fun _ h => h.elim) d hnone
  | fork db branch name opts =>
    exact afterFlush_asks hnone (hstore (fork_replaces (P := fun _ => False)) fun _ h => h.elim)
  | checkout db branch =>
    refine atRest_asks (hstore (checkoutProven_replaces (P := (· = ⟨db, orMain branch⟩)) rfl) ?_)
    rintro _ rfl
    exact mem_cons_self
  | destroy db branch force =>
    refine atRest_asks (hstore (destroy_replaces (P := (· = ⟨db, orMain branch⟩)) rfl) ?_)
    rintro _ rfl
    exact mem_cons_self
  | rollback db branch name opts =>
    exact atRest_asks (hstore (rollback_replaces (.inl rfl) fun h => .inr ⟨h, rfl⟩)
      fun _ => mem_repointKeys)
  | promote db branch name opts =>
    exact atRest_asks fun d hd => afterFlush_asks hd (hstore
      (promote_replaces (.inl rfl) fun h => .inr ⟨h, rfl⟩) fun _ => mem_repointKeys)

/-! ## Runs -/

theorem requests_sound : flightLayer.spec.Sound (requests u) := by
  have hother (i : Nat) (r : AtRest) :
      (do let _ ← r.prog u i; return () : Prog (State Host) Oracle Unit).All (Grounded i) :=
    .bind r.prog_grounded .ret
  have hslots : (slotSpec Host).Sound (requests u) :=
    ⟨fun i op d _ _ hd => (Op.prog_serves (fun i r => (hother i r).mono fun _ _ h => h.1)
      hd).weaken fun _ _ h => h.1.1, fun _ _ _ => .refl⟩
  refine Layer.sound hslots (fun i op d hop _ _ => ?_) fun _ _ _ => .of_flights rfl rfl
  have hall {p : Prog (State Host) Oracle Unit} (hp : p.All (Flies i)) :
      flightLayer.Ok i ⊤ p d := Prog.All.holds (hp.mono fun _ _ h _ _ => h)
  cases op with
  | opOpen req n => exact hall (.bind opOpen_flies .ret)
  | opClose req => exact hall (.bind opClose_flies .ret)
  | other r => exact hall ((hother i r).mono fun _ _ h => h.2)
  | shutdown => cases hop
  | goroutine n => cases hop

theorem requests_pulls {op : Op AtRest} (hop : op.request = true) (hd : Fresh i d.server) :
    Asks u i ⊤ ((requests u).prog i op) d := by
  cases op with
  | opOpen req n =>
    have hopen : Asks u i ⊤ (opOpen Oracle.yes (sessions u) i req n) d :=
      Layer.holds_base ((opOpen_serves sessions_conduct hd).weaken fun _ _ h => h.2)
    exact hopen.bind .ret
  | opClose req =>
    have hclose : Asks u i ⊤ (opClose Oracle.yes (sessions u) i req) d :=
      Layer.holds_base ((opClose_serves sessions_conduct).weaken fun _ _ h => h.2)
    exact hclose.bind .ret
  | other r => exact r.prog_asks.bind .ret
  | shutdown => cases hop
  | goroutine n => cases hop

theorem Inv.slot_of_pending (hinv : Inv s) (hclosing : s.closing = false)
    (ht : (claim k s.log).pending = some t) : s.sessions.lookup k ≠ none := by
  intro hnone
  rw [hinv.slot] at hnone
  rcases hinv.away k hnone with hfree | hc
  · rw [hfree] at ht
    cases ht
  · rw [hclosing] at hc
    cases hc

/-- When no branch is opened that a request has found without a session and not yet
returned from, no request but the one that opened it replaces or removes the checkout a
session captures. -/
theorem captured_checkout_stays {w : World} {c c' : Config (State Host) Oracle (Op AtRest)}
    {op : Op AtRest} {b : BranchId} {j t : Nat}
    (h : ReachIf Apart (requests u) (.init ⟨.empty, .init w⟩) c)
    (hstep : StepBy (requests u) j op c c') (hapart : Apart c.state c'.state)
    (ht : Captures c.state b t) (hj : j ≠ t) :
    ¬ (c.state.rest.world.checkouts u.host b).Pulled (c'.state.rest.world.checkouts u.host b) := by
  intro hpulled
  have hinit : Safe flightLayer.spec
      (.init ⟨.empty, .init w⟩ : Config (State Host) Oracle (Op AtRest)) :=
    Safe.init ⟨Inv.empty, rfl, fun _ _ h => by cases h⟩ fun _ => ⟨(fun _ h => by cases h), trivial⟩
  have hassumed (d d' : State Host) (h : Apart d d') : flightLayer.spec.assumed d d' := ⟨trivial, h⟩
  have hreach : flightLayer.spec.Reach (requests u) (.init ⟨.empty, .init w⟩) c :=
    Spec.Reach.of_reachIf hassumed h
  obtain ⟨hinv, hclosing, hflights⟩ := (hinit.reach requests_sound hreach).inv
  have hpending := hinv.legal.claim_of_pending ht.1
  have hsame {d : State Host} (heq : d = c.state) :
      ¬ (c.state.rest.world.checkouts u.host b).Pulled (d.rest.world.checkouts u.host b) := by
    rw [heq]
    exact Checkout.not_pulled rfl rfl
  rcases hinit.step_guarantee requests_sound .refl (G := fun i _ => Pulls u i)
      (fun i op d hop _ hd => requests_pulls hop hd.1) hreach hstep (hassumed _ _ hapart)
    with heq | heq | hpulls
  · exact hsame heq hpulled
  · exact hsame heq hpulled
  · rcases hpulls b hpulled with hflight | hopening
    · exact hinv.slot_of_pending hclosing hpending (hflights j _ hflight)
    · rw [hopening] at hpending
      exact hj (Option.some.inj hpending)

def localSetup : Setup := ⟨.localDir, 0, 60000, 8⟩

def createDB : Op AtRest := .other (.create "db" ⟨512, [⟨512, 1⟩]⟩)

def rollbackMain : Op AtRest := .other (.rollback "db" "" "init" ⟨false, true, 0, false⟩)

def openMain : Op AtRest := .opOpen ⟨"db", "", none⟩ 1

/-- A rollback has repointed its branch and found nobody on the checkout; now the branch is
opened, and the rollback goes on up to the new file. -/
def openedBetween : List (Move Oracle (Op AtRest)) :=
  [.start 0 createDB, .run 0 .fine 5, .start 1 rollbackMain, .run 1 .fine 13,
    .start 2 openMain, .run 2 .fine 21, .run 1 .fine 3]

/-- The branch is opened after the rollback, and another rollback is refused. -/
def openedAfter : List (Move Oracle (Op AtRest)) :=
  [.start 0 createDB, .run 0 .fine 5, .start 1 rollbackMain, .run 1 .fine 23,
    .start 2 openMain, .run 2 .fine 15, .start 3 rollbackMain]

/-- The branches that are opened are on no request's list. -/
def apart (d d' : State Host) : Bool := d'.server.sessions.keys.all fun k =>
  (d.server.sessions.lookup k).isSome || d.rest.flights.all (·.2 ≠ k)

theorem apart_sound (h : apart d d' = true) : Apart d d' := by
  intro k hnone hsome i hik
  have hmem : k ∈ d'.server.sessions.keys :=
    AList.mem_keys.mp (AList.lookup_isSome.mp (Option.isSome_iff_ne_none.mpr hsome))
  have hk := all_eq_true.mp h k hmem
  rw [hnone, Option.isSome_none, Bool.false_or] at hk
  simpa using all_eq_true.mp hk (i, k) hik

def captures (d : State Host) (b : BranchId) (t : Nat) : Bool :=
  d.server.log = [.installed (key b.db b.branch) t 0, .opened (key b.db b.branch) t,
    .reserved (key b.db b.branch) t] &&
  (d.rest.world.sessions t).lease ≠ Session.empty.lease

theorem captures_sound {b : BranchId} (h : captures d b t = true) : Captures d b t := by
  simp only [captures, Bool.and_eq_true, decide_eq_true_eq] at h
  exact ⟨by simp [Pending, h.1], h.2⟩

set_option maxRecDepth 8192 in
/-- Not every run keeps the checkout a session captures. -/
theorem captured_checkout_pulled : ¬ ∀ (u : Setup) (w : World)
    (c c' : Config (State Host) Oracle (Op AtRest)) (op : Op AtRest) (b : BranchId) (j t : Nat),
    Reach (requests u) (.init ⟨.empty, .init w⟩) c → StepBy (requests u) j op c c' →
    Captures c.state b t → j ≠ t →
    ¬ (c.state.rest.world.checkouts u.host b).Pulled (c'.state.rest.world.checkouts u.host b) := by
  intro hall
  obtain ⟨c, hc, h⟩ := Config.exists_play (s := requests localSetup)
    (c := .init ⟨.empty, .init .empty⟩) (m := openedBetween)
    (Q := fun c => captures c.state ⟨"db", "main"⟩ 2 && ((c.threads 1).map (·.1)).isSome &&
      (c.runs 1 .fine 1).any fun c' =>
        (c'.state.rest.world.checkouts 0 ⟨"db", "main"⟩).inode ≠
          (c.state.rest.world.checkouts 0 ⟨"db", "main"⟩).inode) (by decide)
  simp only [Bool.and_eq_true] at h
  obtain ⟨⟨hcap, hop⟩, hrun⟩ := h
  obtain ⟨op, hop⟩ := Option.isSome_iff_exists.mp hop
  obtain ⟨c', hc', hinode⟩ := (Option.any_eq_true _ _).mp hrun
  exact hall localSetup .empty c c' op ⟨"db", "main"⟩ 1 2 (Config.play_reach hc)
    (Config.runs_one hc' hop) (captures_sound hcap) (by decide) (.inl (of_decide_eq_true hinode))

set_option maxRecDepth 8192 in
theorem captured_checkout_stays_opened : ∃ c c' : Config (State Host) Oracle (Op AtRest),
    ReachIf Apart (requests localSetup) (.init ⟨.empty, .init .empty⟩) c ∧
    c.runs 3 .fine 1 = some c' ∧ Captures c.state ⟨"db", "main"⟩ 2 ∧
    ¬ (c.state.rest.world.checkouts 0 ⟨"db", "main"⟩).Pulled
      (c'.state.rest.world.checkouts 0 ⟨"db", "main"⟩) := by
  obtain ⟨c, hc, h⟩ := (Option.any_eq_true
    (fun c : Config (State Host) Oracle (Op AtRest) => captures c.state ⟨"db", "main"⟩ 2 &&
      ((c.threads 3).map (·.1)).isSome && (c.runs 3 .fine 1).any fun c' => apart c.state c'.state)
    (Config.playIf (requests localSetup) apart openedAfter (.init ⟨.empty, .init .empty⟩))).mp
    (by decide)
  simp only [Bool.and_eq_true] at h
  obtain ⟨⟨hcap, hop⟩, hrun⟩ := h
  obtain ⟨op, hop⟩ := Option.isSome_iff_exists.mp hop
  obtain ⟨c', hc', hapart⟩ := (Option.any_eq_true _ _).mp hrun
  have hreach := Config.playIf_reachIf (fun _ _ => apart_sound) hc
  exact ⟨c, c', hreach, hc', captures_sound hcap, captured_checkout_stays hreach
    (Config.runs_one hc' hop) (apart_sound hapart) (captures_sound hcap) (by decide)⟩

end Offshoot.Daemon
