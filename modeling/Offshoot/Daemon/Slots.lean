import Offshoot.Daemon.Server

/-!
# The slots follow the history

Every region under the mutex does what one event of the history says, and the map of
sessions, the count of opens in flight and the channels are at every moment what the
history makes of them.  So the histories of the daemon are legal, and what holds of legal
histories holds of its sessions.
-/

namespace Offshoot.Daemon

open Conc Maps List

variable {k k' : Key} {i j : Nat} {e : Event} {s s' : Server}

/-! ## What a region does -/

def Claim.slot : Claim → Option Slot
  | free | discarding _ _ | leaving _ => none
  | opening _ | opened _ => some .reserved
  | serving s id => some (.serving s id)
  | closing _ s id done _ => some (.closing ⟨s, id, done⟩)

/-- Nothing is reserved or put into the map once the daemon shuts down; nothing is
dropped and no `Shutdown` finishes before. -/
def Event.fits (closing : Bool) : Event → Prop
  | .reserved _ _ | .installed _ _ _ => closing = false
  | .dropped _ _ | .shutdown _ (.finished _) => closing = true
  | _ => True

structure Effect (s s' : Server) (e : Event) : Prop where
  log : s'.log = e :: s.log
  legal : e.legal s.log
  closing : s'.closing = s.closing
  fits : e.fits s.closing
  slot : ∀ k, s'.sessions.lookup k =
    if e.key = some k then ((claim k s.log).next e).slot else s.sessions.lookup k
  openWG : s'.openWG = (opens (e :: s.log)).length
  ids : s.nextID ≤ s'.nextID ∧ ∀ k s id, e = .installed k s id → id < s'.nextID
  marks : s.nextDone ≤ s'.nextDone ∧ ∀ k i s id done, e = .marked k i s id done → done < s'.nextDone
  dones : ∀ done, done ∈ s'.dones ↔ done ∈ s.dones ∨ ∃ k i s, e = .sessionClosed k i s done
  jobs : ∀ job ∈ s'.goroutines, (job ∈ s.goroutines ∧ ∀ i, e ≠ .taken job.1 i job.2.done) ∨
    e = .marked job.1 none job.2.sess job.2.id job.2.done
  shutdownDone : s'.shutdownDone = s.shutdownDone

def Event.by (i : Nat) : Event → Prop
  | .reserved _ s | .refused _ s | .opened _ s | .installed _ s _ | .dropped _ s
  | .discarded _ s | .released _ s => s = i
  | .marked _ j _ _ _ => j = some i ∨ j = none
  | .taken _ j _ | .closeCalled _ j _ | .closeReturned _ j _ | .sessionClosed _ j _ _
  | .shutdown j _ => j = i

/-- One event of thread `i`, or a step that the history does not show. -/
inductive One (i : Nat) (s : Server) : Server → Prop
  | event {s' : Server} (e : Event) : e.by i → Effect s s' e → One i s s'
  | close : One i s { s with closing := true }
  | report (r : Outcome) : (∀ err, r = .finished err →
      s.closing = true ∧ ∀ k, claim k s.log = .free) → One i s { s with shutdownDone := some r }

def May (i : Nat) : Server → Server → Prop := Relation.ReflTransGen (One i)

/-! ## The invariant -/

structure Inv (s : Server) : Prop where
  legal : Legal s.log
  slot : ∀ k, s.sessions.lookup k = (claim k s.log).slot
  openWG : s.openWG = (opens s.log).length
  /-- What is not in the map is free, or was dropped. -/
  away : ∀ k, (claim k s.log).slot = none → claim k s.log = .free ∨ s.closing = true
  ids : ∀ k i id, .installed k i id ∈ s.log → id < s.nextID
  marks : ∀ k i t id done, .marked k i t id done ∈ s.log → done < s.nextDone
  closed : ∀ done ∈ s.dones, ∃ k i t id, .marked k i t id done ∈ s.log
  /-- The channel of a marker is open. -/
  undone : ∀ k done, (claim k s.log).waits = some done → done ∉ s.dones
  jobs : ∀ job ∈ s.goroutines, claim job.1 s.log = .closing none job.2.sess job.2.id job.2.done .due
  finished : ∀ err, s.shutdownDone = some (.finished err) →
    s.closing = true ∧ ∀ k, claim k s.log = .free
  ended : ∀ i err, .shutdown i (.finished err) ∈ s.log → s.closing = true

theorem Inv.empty : Inv .empty where
  legal := trivial
  slot _ := rfl
  openWG := rfl
  away _ _ := .inl rfl
  ids _ _ _ h := by cases h
  marks _ _ _ _ _ h := by cases h
  closed _ h := by cases h
  undone _ _ h := by cases h
  jobs _ h := by cases h
  finished _ h := by cases h
  ended _ _ h := by cases h

variable {done : Nat}

theorem Legal.marked_of_waits {log : List Event} (h : Legal log)
    (hw : (claim k log).waits = some done) : ∃ i s id, .marked k i s id done ∈ log := by
  induction log with
  | nil => cases hw
  | cons e log ih =>
    have hold (hw : (claim k log).waits = some done) :
        ∃ i s id, .marked k i s id done ∈ e :: log := by
      obtain ⟨i, s, id, hm⟩ := ih h.2 hw
      exact ⟨i, s, id, mem_cons_of_mem _ hm⟩
    rcases h.turn k with ht | ⟨-, heq⟩
    · generalize claim k log = c at ht hold
      generalize claim k (e :: log) = c' at ht hw
      cases ht <;> cases hw <;> first | exact hold rfl | exact ⟨_, _, _, mem_cons_self⟩
    · exact hold (heq ▸ hw)

variable {t id : Nat}

theorem Legal.marked_unique {log : List Event} {i i' : Option Nat} {t' id' : Nat} (h : Legal log)
    (hm : .marked k i t id done ∈ log) (hm' : .marked k' i' t' id' done ∈ log) : k' = k := by
  induction log with
  | nil => cases hm
  | cons e log ih =>
    rcases mem_cons.mp hm with rfl | hm₁ <;> rcases mem_cons.mp hm' with heq | hm₁'
    · exact (Event.marked.inj heq).1
    · exact absurd hm₁' (h.1.2 _ _ _ _)
    · rw [← heq] at h
      exact absurd hm₁ (h.1.2 _ _ _ _)
    · exact ih h.2 hm₁ hm₁'

theorem Effect.claim_ne (h : Effect s s' e) (hk : e.key ≠ some k) :
    claim k s'.log = claim k s.log := by
  rw [h.log, claim_cons_ne hk]

theorem Effect.turn (h : Effect s s' e) (k : Key) :
    Turn k (claim k s.log) e (claim k s'.log) ∨ e.key ≠ some k ∧
    claim k s'.log = claim k s.log := by
  by_cases hk : e.key = some k
  · rw [h.log, claim_cons_self hk]
    exact .inl (h.legal.1 k hk)
  · exact .inr ⟨hk, h.claim_ne hk⟩

variable {c' : Claim}

/-- A free branch is claimed only by a reservation. -/
theorem Turn.of_free (h : Turn k .free e c') : ∃ t, e = .reserved k t := by
  cases h
  exact ⟨_, rfl⟩

theorem Effect.free (h : Effect s s' e) (hclosing : s.closing = true)
    (hfree : claim k s.log = .free) : claim k s'.log = .free := by
  rcases h.turn k with ht | ⟨-, heq⟩
  · rw [hfree] at ht
    obtain ⟨t, rfl⟩ := ht.of_free
    exact absurd (hclosing.symm.trans h.fits) (by simp)
  · rw [heq, hfree]

theorem Turn.closing_of_closed {c : Claim}
    (h : Turn k c (.sessionClosed k i t done) c') : c.waits = some done := by
  cases h
  rfl

theorem Inv.undone_effect (h : Inv s) (he : Effect s s' e)
    (hw : (claim k s'.log).waits = some done) : done ∉ s'.dones := by
  intro hd
  rcases (he.dones done).mp hd with hd | ⟨k', i, t, rfl⟩
  · rcases he.turn k with ht | ⟨-, heq⟩
    · have hundone := h.undone k done
      have hfresh := he.legal.2
      generalize claim k s.log = c at ht hundone
      generalize claim k s'.log = c' at ht hw
      cases ht <;> cases hw <;> first
        | exact hundone rfl hd
        | (obtain ⟨k', i, t, id, hm⟩ := h.closed _ hd
           exact hfresh _ _ _ _ hm)
    · exact h.undone k done (heq ▸ hw) hd
  · have hclosing := (he.legal.1 k' rfl).closing_of_closed
    rcases he.turn k with ht | ⟨hk, heq⟩
    · generalize claim k s.log = c at ht
      generalize claim k s'.log = c' at ht hw
      cases ht
      cases hw
    · obtain ⟨i₁, t₁, id₁, hm₁⟩ := h.legal.marked_of_waits (heq ▸ hw)
      obtain ⟨i₂, t₂, id₂, hm₂⟩ := h.legal.marked_of_waits hclosing
      exact hk (congrArg some (h.legal.marked_unique hm₁ hm₂))

theorem Inv.effect (h : Inv s) (he : Effect s s' e) : Inv s' := by
  have hlegal : Legal s'.log := by
    rw [he.log]
    exact ⟨he.legal, h.legal⟩
  refine ⟨hlegal, fun k => ?_, by rw [he.openWG, he.log], fun k hk => ?_, fun k i id hin => ?_,
    fun k i t id done hin => ?_, fun done hd => ?_, fun k done hw hd => ?_, fun job hjob => ?_,
    fun err herr => ?_, fun i err hin => ?_⟩
  · rw [he.slot, h.slot, he.log]
    split
    · rename_i hk
      rw [claim_cons_self hk]
    · rename_i hk
      rw [claim_cons_ne hk]
  · rw [he.closing]
    rcases he.turn k with ht | ⟨-, heq⟩
    · have haway := h.away k
      have hfits := he.fits
      generalize claim k s.log = c at ht haway
      generalize claim k s'.log = c' at ht hk ⊢
      cases ht <;> first
        | exact .inl rfl
        | exact .inr hfits
        | exact absurd hk (Option.some_ne_none _)
        | exact .inr ((haway rfl).resolve_left Claim.noConfusion)
    · rw [heq] at hk ⊢
      exact h.away k hk
  · rw [he.log] at hin
    rcases mem_cons.mp hin with heq | hin
    · exact he.ids.2 k i id heq.symm
    · exact (h.ids k i id hin).trans_le he.ids.1
  · rw [he.log] at hin
    rcases mem_cons.mp hin with heq | hin
    · exact he.marks.2 k i t id done heq.symm
    · exact (h.marks k i t id done hin).trans_le he.marks.1
  · rw [he.log]
    rcases (he.dones done).mp hd with hd | ⟨k, i, t, rfl⟩
    · obtain ⟨k, i, t, id, hm⟩ := h.closed done hd
      exact ⟨k, i, t, id, mem_cons_of_mem _ hm⟩
    · obtain ⟨i, t, id, hm⟩ := h.legal.marked_of_waits (he.legal.1 k rfl).closing_of_closed
      exact ⟨k, i, t, id, mem_cons_of_mem _ hm⟩
  · exact h.undone_effect he hw hd
  · rcases he.jobs job hjob with ⟨hjob, htaken⟩ | rfl
    · rcases he.turn job.1 with ht | ⟨-, heq⟩
      · rw [h.jobs job hjob] at ht
        generalize claim job.1 s'.log = c' at ht
        cases ht
        exact absurd rfl (htaken _)
      · rw [heq, h.jobs job hjob]
    · rw [he.log, claim_cons_self rfl]
      rfl
  · rw [he.shutdownDone] at herr
    obtain ⟨hclosing, hfree⟩ := h.finished err herr
    exact ⟨he.closing.trans hclosing, fun k => he.free hclosing (hfree k)⟩
  · rw [he.closing]
    rw [he.log] at hin
    rcases mem_cons.mp hin with heq | hin
    · have hfits := he.fits
      rwa [← heq] at hfits
    · exact h.ended i err hin

theorem Inv.one (h : Inv s) (hs : One i s s') : Inv s' := by
  cases hs with
  | event e _ he => exact h.effect he
  | close =>
    exact { h with
      away := fun k hk => .inr rfl
      finished := fun err herr => ⟨rfl, (h.finished err herr).2⟩
      ended := fun _ _ _ => rfl }
  | report r hr => exact { h with finished := fun err herr => hr err (Option.some.inj herr) }

theorem Inv.may (h : Inv s) (hs : May i s s') : Inv s' := by
  induction hs with
  | refl => exact h
  | tail _ hone ih => exact ih.one hone

/-! ## What the others leave alone -/

theorem Turn.by_owner {c : Claim} (h : Turn k c e c') (hown : c.owner = some i)
    (hby : e.by j) : j = i := by
  cases h <;> cases hown <;> exact hby.symm

theorem May.claim_owned (h : May j s s') (hij : i ≠ j) (hown : (claim k s.log).owner = some i) :
    claim k s'.log = claim k s.log := by
  induction h with
  | refl => rfl
  | @tail s₁ s₂ _ hone ih =>
    rw [← ih]
    rw [← ih] at hown
    cases hone with
    | event e hby he =>
      rcases he.turn k with ht | ⟨-, heq⟩
      · exact absurd (ht.by_owner hown hby).symm hij
      · exact heq
    | close => rfl
    | report r _ => rfl

theorem May.closing (h : May j s s') (hclosing : s.closing = true) : s'.closing = true := by
  induction h with
  | refl => exact hclosing
  | tail _ hone ih =>
    cases hone with
    | event e hby he => exact he.closing.trans ih
    | close => rfl
    | report r _ => exact ih

theorem May.mem_log (h : May j s s') (he : e ∈ s.log) : e ∈ s'.log := by
  induction h with
  | refl => exact he
  | tail _ hone ih =>
    cases hone with
    | event e' hby he' =>
      rw [he'.log]
      exact mem_cons_of_mem _ ih
    | close => exact ih
    | report r _ => exact ih

def Fresh (i : Nat) (s : Server) : Prop := ∀ k, .reserved k i ∉ s.log

theorem May.fresh (h : May j s s') (hij : i ≠ j) (hfresh : Fresh i s) : Fresh i s' := by
  induction h with
  | refl => exact hfresh
  | tail _ hone ih =>
    cases hone with
    | event e hby he =>
      intro k hk
      rw [he.log] at hk
      rcases mem_cons.mp hk with rfl | hk
      · exact hij hby
      · exact ih k hk
    | close => exact ih
    | report r _ => exact ih

/-- Every branch is free, or is being closed by one that is waited for. -/
def Closing (waits : List Marker) (s : Server) : Prop :=
  s.closing = true ∧ ∀ k, claim k s.log = .free ∨ ∃ m ∈ waits, (claim k s.log).waits = some m.done

theorem May.closingAll {waits : List Marker} (h : May j s s') (hc : Closing waits s) :
    Closing waits s' := by
  refine ⟨h.closing hc.1, ?_⟩
  induction h with
  | refl => exact hc.2
  | tail hsteps hone ih =>
    intro k
    cases hone with
    | event e hby he =>
      have hclosing := May.closing hsteps hc.1
      rcases ih k with hfree | ⟨m, hm, hw⟩
      · exact .inl (he.free hclosing hfree)
      rcases he.turn k with ht | ⟨-, heq⟩
      · generalize claim k _ = c at ht hw
        generalize claim k _ = c' at ht ⊢
        cases ht <;> cases hw <;> first
          | exact .inl rfl
          | exact .inr ⟨m, hm, rfl⟩
      · rw [heq]
        exact .inr ⟨m, hm, hw⟩
    | close => exact ih k
    | report r _ => exact ih k

theorem May.dones (h : May j s s') (hd : done ∈ s.dones) : done ∈ s'.dones := by
  induction h with
  | refl => exact hd
  | tail _ hone ih =>
    cases hone with
    | event e hby he => exact (he.dones done).mpr (.inl ih)
    | close => exact ih
    | report r _ => exact ih

/-! ## The regions -/

/-- The events whose region does nothing but record them. -/
def Event.noted : Event → Prop
  | .opened _ _ | .closeCalled _ _ _ | .closeReturned _ _ _ | .discarded _ _ | .shutdown _ _ => True
  | _ => False

theorem Inv.note (h : Inv s) (hnoted : e.noted) (hlegal : e.legal s.log)
    (hfits : e.fits s.closing) : Effect s (s.note e) e where
  log := rfl
  legal := hlegal
  closing := rfl
  fits := hfits
  slot k := by
    show s.sessions.lookup k = _
    split
    · rename_i hk
      rw [h.slot]
      have ht := hlegal.1 k hk
      generalize claim k s.log = c at ht ⊢
      generalize Claim.next c e = c' at ht ⊢
      cases ht <;> first | rfl | exact hnoted.elim
    · rfl
  openWG := by
    show s.openWG = _
    rw [h.openWG]
    cases e <;> first | rfl | exact hnoted.elim
  ids := ⟨le_rfl, fun _ _ _ heq => by rw [heq] at hnoted; exact hnoted.elim⟩
  marks := ⟨le_rfl, fun _ _ _ _ _ heq => by rw [heq] at hnoted; exact hnoted.elim⟩
  dones done := by
    refine ⟨.inl, fun hd => hd.resolve_right ?_⟩
    rintro ⟨_, _, _, rfl⟩
    exact hnoted
  jobs job hjob := .inl ⟨hjob, fun _ heq => by rw [heq] at hnoted; exact hnoted⟩
  shutdownDone := rfl

theorem lookup_insert_next {v : Slot} (hkey : e.key = some k)
    (hv : ((claim k s.log).next e).slot = some v) (k' : Key) : (s.sessions.insert k v).lookup k' =
      if e.key = some k' then ((claim k' s.log).next e).slot else s.sessions.lookup k' := by
  by_cases hk : k' = k
  · subst hk
    rw [AList.lookup_insert, if_pos hkey, hv]
  · rw [AList.lookup_insert_ne hk, if_neg (by simpa [hkey] using Ne.symm hk)]

theorem lookup_erase_next (hkey : e.key = some k)
    (hv : ((claim k s.log).next e).slot = none) (k' : Key) : (s.sessions.erase k).lookup k' =
      if e.key = some k' then ((claim k' s.log).next e).slot else s.sessions.lookup k' := by
  by_cases hk : k' = k
  · subst hk
    rw [AList.lookup_erase, if_pos hkey, hv]
  · rw [AList.lookup_erase_ne hk, if_neg (by simpa [hkey] using Ne.symm hk)]

section

variable (h : Inv s)

include h

theorem Inv.reserve (hclosing : s.closing = false) (hnone : s.sessions.lookup k = none)
    (hfresh : Fresh i s) : Effect s (s.reserve k i).1 (.reserved k i) := by
  have hfree : claim k s.log = .free :=
    (h.away k (by rw [← h.slot, hnone])).resolve_right (by simp [hclosing])
  rw [Server.reserve, if_neg (by simp [hclosing]), hnone]
  exact {
    log := rfl
    legal := by
      refine ⟨fun k' hk' => ?_, hfresh, fun j err hin => ?_⟩
      · obtain rfl : k = k' := Option.some.inj hk'
        rw [hfree]
        exact .reserved
      · exact absurd (h.ended j err hin) (by simp [hclosing])
    closing := rfl
    fits := hclosing
    slot := lookup_insert_next rfl rfl
    openWG := by simp [opens, h.openWG]
    ids := ⟨le_rfl, by simp⟩
    marks := ⟨le_rfl, by simp⟩
    dones := by simp
    jobs := fun job hjob => .inl ⟨hjob, by simp⟩
    shutdownDone := rfl }

theorem Inv.openWG_erase (hc : (claim k s.log).counted = true) :
    s.openWG - 1 = ((opens s.log).erase k).length := by
  rw [h.openWG, length_erase_of_mem ((h.legal.mem_opens.2 k).mpr hc)]

theorem Inv.unreserve (hc : claim k s.log = .opening i) :
    Effect s (s.unreserve k i) (.refused k i) where
  log := rfl
  legal := by
    refine ⟨fun k' hk' => ?_, trivial⟩
    obtain rfl : k = k' := Option.some.inj hk'
    rw [hc]
    exact .refused
  closing := rfl
  fits := trivial
  slot := lookup_erase_next rfl rfl
  openWG := h.openWG_erase (by rw [hc]; rfl)
  ids := ⟨le_rfl, by simp⟩
  marks := ⟨le_rfl, by simp⟩
  dones := by simp [Server.unreserve]
  jobs job hjob := .inl ⟨hjob, by simp⟩
  shutdownDone := rfl

theorem Inv.installed (hc : claim k s.log = .opened i) (hclosing : s.closing = false) :
    Effect s (s.install k i).1 (.installed k i s.nextID) := by
  rw [Server.install, if_neg (by simp [hclosing])]
  exact {
    log := rfl
    legal := by
      refine ⟨fun k' hk' => ?_, fun k' t hin => absurd (h.ids k' t _ hin) (lt_irrefl _)⟩
      obtain rfl : k = k' := Option.some.inj hk'
      rw [hc]
      exact .installed
    closing := rfl
    fits := hclosing
    slot := lookup_insert_next rfl rfl
    openWG := h.openWG_erase (by rw [hc]; rfl)
    ids := ⟨Nat.le_succ _, fun _ _ _ heq => (Event.installed.inj heq).2.2 ▸ Nat.lt_succ_self _⟩
    marks := ⟨le_rfl, by simp⟩
    dones := by simp
    jobs := fun job hjob => .inl ⟨hjob, by simp⟩
    shutdownDone := rfl }

theorem Inv.dropped (hc : claim k s.log = .opened i) (hclosing : s.closing = true) :
    Effect s (s.install k i).1 (.dropped k i) := by
  rw [Server.install, if_pos hclosing]
  exact {
    log := rfl
    legal := by
      refine ⟨fun k' hk' => ?_, trivial⟩
      obtain rfl : k = k' := Option.some.inj hk'
      rw [hc]
      exact .dropped
    closing := rfl
    fits := hclosing
    slot := lookup_erase_next rfl rfl
    openWG := h.openWG
    ids := ⟨le_rfl, by simp⟩
    marks := ⟨le_rfl, by simp⟩
    dones := by simp
    jobs := fun job hjob => .inl ⟨hjob, by simp⟩
    shutdownDone := rfl }

theorem Inv.openDone (hc : claim k s.log = .leaving i) :
    Effect s (s.openDone k i) (.released k i) where
  log := rfl
  legal := by
    refine ⟨fun k' hk' => ?_, trivial⟩
    obtain rfl : k = k' := Option.some.inj hk'
    rw [hc]
    exact .released
  closing := rfl
  fits := trivial
  slot k' := by
    show s.sessions.lookup k' = _
    split
    · rename_i hk'
      obtain rfl : k = k' := Option.some.inj hk'
      rw [h.slot, hc]
      rfl
    · rfl
  openWG := h.openWG_erase (by rw [hc]; rfl)
  ids := ⟨le_rfl, by simp⟩
  marks := ⟨le_rfl, by simp⟩
  dones := by simp [Server.openDone]
  jobs job hjob := .inl ⟨hjob, by simp⟩
  shutdownDone := rfl

/-- A slot becomes a marker, and a goroutine is started for it if no thread has it. -/
theorem Inv.mark {o : Option Nat} (hc : claim k s.log = .serving t id) {jobs : List (Key × Marker)}
    (hjobs : ∀ job ∈ jobs, job ∈ s.goroutines ∨ o = none ∧ job = (k, (s.markClosing k o t id).2)) :
    Effect s { (s.markClosing k o t id).1 with goroutines := jobs }
      (.marked k o t id s.nextDone) where
  log := rfl
  legal := by
    refine ⟨fun k' hk' => ?_, fun _ _ _ _ hin => absurd (h.marks _ _ _ _ _ hin) (lt_irrefl _)⟩
    obtain rfl : k = k' := Option.some.inj hk'
    rw [hc]
    exact .marked
  closing := rfl
  fits := trivial
  slot := lookup_insert_next rfl rfl
  openWG := h.openWG
  ids := ⟨le_rfl, by simp⟩
  marks := ⟨Nat.le_succ _, fun _ _ _ _ _ heq =>
    (Event.marked.inj heq).2.2.2.2 ▸ Nat.lt_succ_self _⟩
  dones := by simp [Server.markClosing]
  jobs job hjob := by
    rcases hjobs job hjob with hold | ⟨rfl, rfl⟩
    · exact .inl ⟨hold, by simp⟩
    · exact .inr rfl
  shutdownDone := rfl

theorem Inv.startClose (hc : claim k s.log = .serving t id) :
    Effect s (s.startClose k t id).1 (.marked k none t id s.nextDone) := by
  refine h.mark hc fun job hjob => ?_
  rcases mem_cons.mp hjob with rfl | hjob
  · exact .inr ⟨rfl, rfl⟩
  · exact .inl hjob

theorem Inv.takeJob {n : Nat} {job : Key × Marker} (hjob : s.goroutines[n]? = some job) :
    Effect s (s.takeJob n i).1 (.taken job.1 i job.2.done) := by
  have hc := h.jobs job (mem_of_getElem? hjob)
  rw [Server.takeJob, hjob]
  dsimp only
  exact {
    log := rfl
    legal := by
      refine ⟨fun k' hk' => ?_, trivial⟩
      obtain rfl : job.1 = k' := Option.some.inj hk'
      rw [hc]
      exact .taken
    closing := rfl
    fits := trivial
    slot := fun k' => by
      split
      · rename_i hk'
        obtain rfl : job.1 = k' := Option.some.inj hk'
        rw [h.slot, hc]
        rfl
      · rfl
    openWG := h.openWG
    ids := ⟨le_rfl, by simp⟩
    marks := ⟨le_rfl, by simp⟩
    dones := by simp
    jobs := fun job' hjob' => by
      -- Two jobs of one branch have the same marker.
      obtain ⟨hold, hne⟩ := mem_filter.mp hjob'
      refine .inl ⟨hold, fun j heq => of_decide_eq_true hne ?_⟩
      obtain ⟨hk, -, -⟩ := Event.taken.inj heq
      have hc' := h.jobs job' hold
      rw [← hk, hc] at hc'
      obtain ⟨-, hsess, hid, hdone, -⟩ := Claim.closing.inj hc'
      obtain ⟨_, ⟨⟩⟩ := job
      obtain ⟨_, ⟨⟩⟩ := job'
      simp_all
    shutdownDone := rfl }

theorem Inv.freeSlot {m : Marker} {err : Option String}
    (hc : claim k s.log = .closing (some i) m.sess m.id m.done .returned) :
    Effect s (s.freeSlot k m i err) (.sessionClosed k i m.sess m.done) := by
  have hslot : s.sessions.lookup k = some (.closing m) := by
    rw [h.slot, hc]
    rfl
  rw [Server.freeSlot, if_pos hslot]
  exact {
    log := rfl
    legal := by
      refine ⟨fun k' hk' => ?_, trivial⟩
      obtain rfl : k = k' := Option.some.inj hk'
      rw [hc]
      exact .closed
    closing := rfl
    fits := trivial
    slot := lookup_erase_next rfl rfl
    openWG := h.openWG
    ids := ⟨le_rfl, by simp⟩
    marks := ⟨le_rfl, by simp⟩
    dones := fun done => by
      simp only [AList.mem_insert, Event.sessionClosed.injEq]
      constructor
      · rintro (rfl | hd)
        · exact .inr ⟨_, _, _, rfl, rfl, rfl, rfl⟩
        · exact .inl hd
      · rintro (hd | ⟨_, _, _, -, -, -, rfl⟩)
        · exact .inr hd
        · exact .inl rfl
    jobs := fun job hjob => .inl ⟨hjob, by simp⟩
    shutdownDone := rfl }

end

end Offshoot.Daemon
