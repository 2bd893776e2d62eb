import Mathlib.Data.List.Basic
import Mathlib.Data.List.Chain
import Mathlib.Data.List.Nodup

/-!
# The sessions of a branch, as a history

What the daemon does to the sessions of its branches, event by event, without the map
that it keeps them in.  A branch passes from one stage of a session's life to the next
(`Claim`), and an event is legal only from the stage it belongs to.  All that the daemon
promises about sessions holds of every legal history; `Daemon.Slots` shows that its
histories are legal.

A session is named by the request that opens it: a request opens one session at most.
Histories are lists with the latest event first.
-/

namespace Offshoot.Daemon

open List

abbrev Key := String

/-- What `Shutdown` returns: the error of a wait that ran out of time, or the first error
of what it waited for. -/
inductive Outcome
  | timedOut (msg : String)
  | finished (err : Option String)
  deriving DecidableEq, Repr

inductive Event
  /-- The request has reserved the slot of the branch. -/
  | reserved (k : Key) (s : Nat)
  /-- Its `session.Open` failed and the reservation is released. -/
  | refused (k : Key) (s : Nat)
  /-- Its `session.Open` returned, and `session_opened` is published. -/
  | opened (k : Key) (s : Nat)
  /-- The session is in the map, under a new id. -/
  | installed (k : Key) (s id : Nat)
  /-- The daemon is shutting down: the reservation is released instead. -/
  | dropped (k : Key) (s : Nat)
  /-- The slot is now a closing marker. `i` will close it, or a goroutine if there is
  none. -/
  | marked (k : Key) (i : Option Nat) (s id done : Nat)
  /-- The goroutine started for the marker runs as thread `i`. -/
  | taken (k : Key) (i done : Nat)
  | closeCalled (k : Key) (i s : Nat)
  | closeReturned (k : Key) (i s : Nat)
  /-- The marker is gone and `session_closed` is published. -/
  | sessionClosed (k : Key) (i s done : Nat)
  /-- `session_closed` is published for a session that was never in the map. -/
  | discarded (k : Key) (s : Nat)
  /-- The request that dropped its session is no longer counted. -/
  | released (k : Key) (s : Nat)
  /-- A call of `Shutdown` returned. -/
  | shutdown (i : Nat) (r : Outcome)
  deriving DecidableEq, Repr

def Event.key : Event → Option Key
  | .reserved k _ | .refused k _ | .opened k _ | .installed k _ _ | .dropped k _
  | .marked k _ _ _ _ | .taken k _ _ | .closeCalled k _ _ | .closeReturned k _ _
  | .sessionClosed k _ _ _ | .discarded k _ | .released k _ => some k
  | .shutdown _ _ => none

/-! ## The life of a session -/

inductive Stage
  | due
  | called
  | returned
  deriving DecidableEq, Repr

inductive Claim
  | free
  | opening (s : Nat)
  | opened (s : Nat)
  | serving (s id : Nat)
  | closing (i : Option Nat) (s id done : Nat) (stage : Stage)
  | discarding (s : Nat) (stage : Stage)
  | leaving (s : Nat)
  deriving DecidableEq, Repr

namespace Claim

/-- The thread the next event of the branch is up to. -/
def owner : Claim → Option Nat
  | free | serving _ _ | closing none _ _ _ _ => none
  | opening s | opened s | discarding s _ | leaving s => some s
  | closing (some i) _ _ _ _ => some i

/-- The session that is being opened, is open or is not yet fully closed. -/
def pending : Claim → Option Nat
  | opening s | opened s | serving s _ => some s
  | closing _ _ _ _ .returned | discarding _ .returned => none
  | closing _ s _ _ _ | discarding s _ => some s
  | free | leaving _ => none

/-- The session that was opened and is not yet fully closed. -/
def live : Claim → Option Nat
  | opening _ => none
  | c => c.pending

/-- The session whose close is still to be called. -/
def unclosed : Claim → Option Nat
  | opening s | opened s | serving s _ | closing _ s _ _ .due | discarding s .due => some s
  | _ => none

/-- The session `session_opened` was last published for, if `session_closed` has not
been since. -/
def announced : Claim → Bool
  | free | opening _ | leaving _ => false
  | _ => true

/-- The reservation of the branch is counted as in flight. -/
def counted : Claim → Bool
  | opening _ | opened _ | discarding _ _ | leaving _ => true
  | _ => false

def session : Claim → Option Nat
  | free => none
  | opening s | opened s | serving s _ | closing _ s _ _ _ | discarding s _ | leaving s => some s

def named : Claim → Option (Nat × Nat)
  | serving s id | closing _ s id _ _ => some (s, id)
  | _ => none

def waits : Claim → Option Nat
  | closing _ _ _ done _ => some done
  | _ => none

def reach (stage : Stage) : Claim → Claim
  | closing i s id done _ => closing i s id done stage
  | discarding s _ => discarding s stage
  | c => c

def handTo (i : Nat) : Claim → Claim
  | closing _ s id done stage => closing (some i) s id done stage
  | c => c

def next (c : Claim) : Event → Claim
  | .reserved _ s => opening s
  | .refused _ _ => free
  | .opened _ s => opened s
  | .installed _ s id => serving s id
  | .dropped _ s => discarding s .due
  | .marked _ i s id done => closing i s id done .due
  | .taken _ i _ => c.handTo i
  | .closeCalled _ _ _ => c.reach .called
  | .closeReturned _ _ _ => c.reach .returned
  | .sessionClosed _ _ _ _ => free
  | .discarded _ s => leaving s
  | .released _ _ => free
  | .shutdown _ _ => c

end Claim

def claim (k : Key) : List Event → Claim
  | [] => .free
  | e :: log => if e.key = some k then (claim k log).next e else claim k log

/-- The events of a branch, each with the stage it belongs to and the one it leads to. -/
inductive Turn (k : Key) : Claim → Event → Claim → Prop
  | reserved {s : Nat} : Turn k .free (.reserved k s) (.opening s)
  | refused {s : Nat} : Turn k (.opening s) (.refused k s) .free
  | opened {s : Nat} : Turn k (.opening s) (.opened k s) (.opened s)
  | installed {s id : Nat} : Turn k (.opened s) (.installed k s id) (.serving s id)
  | dropped {s : Nat} : Turn k (.opened s) (.dropped k s) (.discarding s .due)
  | marked {i : Option Nat} {s id done : Nat} :
      Turn k (.serving s id) (.marked k i s id done) (.closing i s id done .due)
  | taken {i s id done : Nat} : Turn k (.closing none s id done .due) (.taken k i done)
      (.closing (some i) s id done .due)
  | called {i s id done : Nat} : Turn k (.closing (some i) s id done .due) (.closeCalled k i s)
      (.closing (some i) s id done .called)
  | returned {i s id done : Nat} : Turn k (.closing (some i) s id done .called)
      (.closeReturned k i s) (.closing (some i) s id done .returned)
  | closed {i s id done : Nat} : Turn k (.closing (some i) s id done .returned)
      (.sessionClosed k i s done) .free
  | calledOwn {s : Nat} : Turn k (.discarding s .due) (.closeCalled k s s) (.discarding s .called)
  | returnedOwn {s : Nat} :
      Turn k (.discarding s .called) (.closeReturned k s s) (.discarding s .returned)
  | discarded {s : Nat} : Turn k (.discarding s .returned) (.discarded k s) (.leaving s)
  | released {s : Nat} : Turn k (.leaving s) (.released k s) .free

/-- What an event brings is new, and nothing is reserved once a `Shutdown` has finished. -/
def Event.fresh (log : List Event) : Event → Prop
  | .reserved _ s => (∀ k, .reserved k s ∉ log) ∧ ∀ i err, .shutdown i (.finished err) ∉ log
  | .installed _ _ id => ∀ k s, .installed k s id ∉ log
  | .marked _ _ _ _ done => ∀ k i s id, .marked k i s id done ∉ log
  | .shutdown _ (.finished _) => ∀ k, claim k log = .free
  | _ => True

def Event.legal (log : List Event) (e : Event) : Prop :=
  (∀ k, e.key = some k → Turn k (claim k log) e ((claim k log).next e)) ∧ e.fresh log

def Legal : List Event → Prop
  | [] => True
  | e :: log => e.legal log ∧ Legal log

variable {k k' : Key} {i s s' id : Nat} {e : Event} {log : List Event}

theorem claim_cons_self (h : e.key = some k) : claim k (e :: log) = (claim k log).next e := by
  rw [claim, if_pos h]

theorem claim_cons_ne (h : e.key ≠ some k) : claim k (e :: log) = claim k log := by
  rw [claim, if_neg h]

theorem Legal.turn (h : Legal (e :: log)) (k : Key) : Turn k (claim k log) e (claim k (e :: log)) ∨
      e.key ≠ some k ∧ claim k (e :: log) = claim k log := by
  by_cases hk : e.key = some k
  · rw [claim_cons_self hk]
    exact .inl (h.1.1 k hk)
  · exact .inr ⟨hk, claim_cons_ne hk⟩

/-! ## One session at a time -/

theorem Legal.reserved_of_session (h : Legal log) (hs : (claim k log).session = some s) :
    .reserved k s ∈ log := by
  induction log with
  | nil => cases hs
  | cons e log ih =>
    rcases h.turn k with ht | ⟨-, heq⟩
    · rw [mem_cons]
      generalize hc : claim k log = c at ht ih
      generalize claim k (e :: log) = c' at ht hs
      cases ht <;> cases hs <;> first | exact .inl rfl | exact .inr (ih h.2 rfl)
    · rw [heq] at hs
      exact mem_cons_of_mem _ (ih h.2 hs)

theorem Legal.reserved_unique (h : Legal log) (hs : .reserved k s ∈ log)
    (hs' : .reserved k' s ∈ log) : k' = k := by
  induction log with
  | nil => cases hs
  | cons e log ih =>
    rcases mem_cons.mp hs with rfl | hs₁ <;> rcases mem_cons.mp hs' with heq | hs₁'
    · exact (Event.reserved.inj heq).1
    · exact absurd hs₁' (h.1.2.1 _)
    · rw [← heq] at h
      exact absurd hs₁ (h.1.2.1 _)
    · exact ih h.2 hs₁ hs₁'

theorem Legal.pending_of_reserved (h : Legal log) (hs : .reserved k s ∈ log) :
    .refused k s ∈ log ∨ (∃ i, .closeReturned k i s ∈ log) ∨ (claim k log).pending = some s := by
  induction log with
  | nil => cases hs
  | cons e log ih =>
    rcases h.turn k with ht | ⟨hk, heq⟩
    · rcases mem_cons.mp hs with rfl | hs
      · rw [claim_cons_self rfl]
        exact .inr (.inr rfl)
      rcases ih h.2 hs with hr | ⟨i, hi⟩ | hp
      · exact .inl (mem_cons_of_mem _ hr)
      · exact .inr (.inl ⟨i, mem_cons_of_mem _ hi⟩)
      generalize claim k log = c at ht hp
      generalize claim k (e :: log) = c' at ht ⊢
      cases ht <;> cases hp <;> first
        | exact .inr (.inr rfl)
        | exact .inl mem_cons_self
        | exact .inr (.inl ⟨_, mem_cons_self⟩)
    · rcases mem_cons.mp hs with rfl | hs
      · exact absurd rfl hk
      rw [heq]
      rcases ih h.2 hs with hr | ⟨i, hi⟩ | hp
      · exact .inl (mem_cons_of_mem _ hr)
      · exact .inr (.inl ⟨i, mem_cons_of_mem _ hi⟩)
      · exact .inr (.inr hp)

theorem Legal.live_of_opened (h : Legal log) (hs : .opened k s ∈ log) :
    (∃ i, .closeReturned k i s ∈ log) ∨ (claim k log).live = some s := by
  induction log with
  | nil => cases hs
  | cons e log ih =>
    rcases h.turn k with ht | ⟨hk, heq⟩
    · rcases mem_cons.mp hs with rfl | hs
      · rw [claim_cons_self rfl]
        exact .inr rfl
      rcases ih h.2 hs with ⟨i, hi⟩ | hp
      · exact .inl ⟨i, mem_cons_of_mem _ hi⟩
      generalize claim k log = c at ht hp
      generalize claim k (e :: log) = c' at ht ⊢
      cases ht <;> cases hp <;> first
        | exact .inr rfl
        | exact .inl ⟨_, mem_cons_self⟩
    · rcases mem_cons.mp hs with rfl | hs
      · exact absurd rfl hk
      rw [heq]
      rcases ih h.2 hs with ⟨i, hi⟩ | hp
      · exact .inl ⟨i, mem_cons_of_mem _ hi⟩
      · exact .inr hp

def Pending (log : List Event) (k : Key) (s : Nat) : Prop :=
  .reserved k s ∈ log ∧ .refused k s ∉ log ∧ ∀ i, .closeReturned k i s ∉ log

theorem Legal.claim_of_pending (h : Legal log) (hs : Pending log k s) :
    (claim k log).pending = some s := by
  rcases h.pending_of_reserved hs.1 with hr | ⟨i, hi⟩ | hp
  · exact absurd hr hs.2.1
  · exact absurd hi (hs.2.2 i)
  · exact hp

theorem Legal.pending_unique (h : Legal log) (hs : Pending log k s) (hs' : Pending log k s') :
    s' = s := Option.some.inj ((h.claim_of_pending hs').symm.trans (h.claim_of_pending hs))

/-! ## One close -/

def Event.calls (s : Nat) : Event → Bool
  | .closeCalled _ _ t => t = s
  | _ => false

theorem Event.calls_iff : e.calls s = true ↔ ∃ k i, e = .closeCalled k i s := by
  cases e <;> simp [Event.calls]

theorem Claim.session_of_unclosed {c : Claim} (h : c.unclosed = some s) : c.session = some s := by
  rcases c with _ | _ | _ | _ | ⟨_, _, _, _, _ | _ | _⟩ | ⟨_, _ | _ | _⟩ | _ <;>
    first | exact h | cases h

theorem Legal.reserved_of_called (h : Legal log) (hs : .closeCalled k i s ∈ log) :
    .reserved k s ∈ log := by
  induction log with
  | nil => cases hs
  | cons e log ih =>
    rcases mem_cons.mp hs with rfl | hs
    · have ht := h.1.1 k rfl
      refine mem_cons_of_mem _ (h.2.reserved_of_session ?_)
      generalize claim k log = c at ht
      cases ht <;> rfl
    · exact mem_cons_of_mem _ (ih h.2 hs)

theorem Legal.not_called (h : Legal log) (hs : (claim k log).unclosed = some s) :
    .closeCalled k' i s ∉ log := by
  induction log with
  | nil => exact not_mem_nil
  | cons e log ih =>
    intro hmem
    have hres := h.reserved_of_session (Claim.session_of_unclosed hs)
    obtain rfl := h.reserved_unique hres (h.reserved_of_called hmem)
    rcases h.turn k' with ht | ⟨hk, heq⟩
    · generalize hc : claim k' log = c at ht ih
      generalize claim k' (e :: log) = c' at ht hs
      rcases mem_cons.mp hmem with rfl | hold
      · cases ht <;> cases hs
      · cases ht <;> cases hs <;> first
          | exact ih h.2 rfl hold
          | exact h.1.2.1 _ (h.2.reserved_of_called hold)
    · rw [heq] at hs
      rcases mem_cons.mp hmem with rfl | hmem
      · exact hk rfl
      · exact ih h.2 hs hmem

theorem Legal.called_once (h : Legal log) : log.countP (Event.calls s) ≤ 1 := by
  induction log with
  | nil => exact Nat.zero_le 1
  | cons e log ih =>
    rw [countP_cons]
    split
    · rename_i hcalls
      obtain ⟨k, i, rfl⟩ := Event.calls_iff.mp hcalls
      have hdue : (claim k log).unclosed = some s := by
        have ht := h.1.1 k rfl
        generalize claim k log = c at ht
        cases ht <;> rfl
      have hnone : log.countP (Event.calls s) = 0 := by
        rw [countP_eq_zero]
        intro e' he' hcalls'
        obtain ⟨k', i', rfl⟩ := Event.calls_iff.mp hcalls'
        exact h.2.not_called hdue he'
      omega
    · exact ih h.2

/-! ## Ids -/

theorem Legal.installed_unique (h : Legal log) (hs : .installed k s id ∈ log)
    (hs' : .installed k' s' id ∈ log) : s' = s := by
  induction log with
  | nil => cases hs
  | cons e log ih =>
    rcases mem_cons.mp hs with rfl | hs₁ <;> rcases mem_cons.mp hs' with heq | hs₁'
    · exact (Event.installed.inj heq).2.1
    · exact absurd hs₁' (h.1.2 _ _)
    · rw [← heq] at h
      exact absurd hs₁ (h.1.2 _ _)
    · exact ih h.2 hs₁ hs₁'

theorem Legal.installed_of_named (h : Legal log) (hs : (claim k log).named = some (s, id)) :
    .installed k s id ∈ log := by
  induction log with
  | nil => cases hs
  | cons e log ih =>
    rcases h.turn k with ht | ⟨-, heq⟩
    · rw [mem_cons]
      generalize hc : claim k log = c at ht ih
      generalize claim k (e :: log) = c' at ht hs
      cases ht <;> cases hs <;> first | exact .inl rfl | exact .inr (ih h.2 rfl)
    · rw [heq] at hs
      exact mem_cons_of_mem _ (ih h.2 hs)

/-! ## What is published -/

inductive Announcement
  | sessionOpened
  | sessionClosed
  deriving DecidableEq, Repr

def Event.publishes (k : Key) : Event → Option Announcement
  | .opened k' _ => if k' = k then some .sessionOpened else none
  | .sessionClosed k' _ _ _ | .discarded k' _ => if k' = k then some .sessionClosed else none
  | _ => none

def announcements (k : Key) (log : List Event) : List Announcement :=
  log.reverse.filterMap (Event.publishes k)

/-- The announcements alternate, and the first says that a session was opened. -/
def Alternates (l : List Announcement) : Prop :=
  l.IsChain (· ≠ ·) ∧ l.head? ≠ some .sessionClosed

theorem Event.publishes_ne (h : e.key ≠ some k) : e.publishes k = none := by
  cases e <;> first
    | rfl
    | exact if_neg fun heq => h (congrArg some heq)

theorem announcements_cons_none (h : e.publishes k = none) :
    announcements k (e :: log) = announcements k log := by
  simp [announcements, h]

theorem announcements_cons_some {a : Announcement} (h : e.publishes k = some a) :
    announcements k (e :: log) = announcements k log ++ [a] := by
  simp [announcements, h]

theorem Alternates.append {l : List Announcement} {a : Announcement} (h : Alternates l)
    (hlast : l.getLast? = none ∧ a = .sessionOpened ∨ ∃ b, l.getLast? = some b ∧ b ≠ a) :
    Alternates (l ++ [a]) := by
  rcases hlast with ⟨hnone, rfl⟩ | ⟨b, hb, hne⟩
  · obtain rfl := List.getLast?_eq_none_iff.mp hnone
    exact ⟨isChain_singleton _, by simp⟩
  · refine ⟨isChain_append.mpr ⟨h.1, isChain_singleton _, ?_⟩, ?_⟩
    · intro x hx y hy
      obtain rfl : b = x := by simpa [hb] using hx
      obtain rfl : a = y := by simpa using hy
      exact hne
    · have hl : l ≠ [] := by
        rintro rfl
        cases hb
      rw [List.head?_append_of_ne_nil _ hl]
      exact h.2

/-- A session is announced when it opens and when it closes, and not otherwise. -/
theorem Turn.publishes {c c' : Claim} (h : Turn k c e c') :
    e.publishes k = none ∧ c'.announced = c.announced ∨
      e.publishes k = some .sessionOpened ∧ c.announced = false ∧ c'.announced = true ∨
      e.publishes k = some .sessionClosed ∧ c.announced = true ∧ c'.announced = false := by
  cases h <;> simp [Event.publishes, Claim.announced]

/-- The last announcement says whether the branch is on an opened session. -/
theorem Legal.alternates (h : Legal log) : Alternates (announcements k log) ∧
    ((announcements k log).getLast? = some .sessionOpened ↔ (claim k log).announced = true) := by
  induction log with
  | nil => exact ⟨⟨isChain_nil, by simp [announcements]⟩, by simp [announcements, claim,
      Claim.announced]⟩
  | cons e log ih =>
    obtain ⟨halt, hlast⟩ := ih h.2
    rcases h.turn k with ht | ⟨hk, heq⟩
    · rcases ht.publishes with ⟨hp, ha⟩ | ⟨hp, ha, ha'⟩ | ⟨hp, ha, ha'⟩
      · rw [announcements_cons_none hp, ha]
        exact ⟨halt, hlast⟩
      · rw [announcements_cons_some hp, ha', List.getLast?_concat]
        refine ⟨halt.append ?_, by simp⟩
        cases hl : (announcements k log).getLast? with
        | none => exact .inl ⟨rfl, rfl⟩
        | some a =>
          refine .inr ⟨a, rfl, fun heq => ?_⟩
          rw [hl, heq, ha] at hlast
          exact absurd (hlast.mp rfl) (by simp)
      · rw [announcements_cons_some hp, ha', List.getLast?_concat]
        exact ⟨halt.append (.inr ⟨_, hlast.mpr ha, by simp⟩), by simp⟩
    · rw [announcements_cons_none (Event.publishes_ne hk), heq]
      exact ⟨halt, hlast⟩

/-! ## Shutdown -/

/-- After a `Shutdown` has finished nothing happens but that others return. -/
theorem Legal.after_shutdown {err : Option String} {pre post : List Event}
    (h : Legal (post ++ .shutdown i (.finished err) :: pre)) :
    (∀ k, claim k (post ++ .shutdown i (.finished err) :: pre) = .free) ∧
      ∀ e ∈ post, e.key = none := by
  induction post with
  | nil =>
    refine ⟨fun k => ?_, fun e he => by cases he⟩
    exact h.1.2 k
  | cons e post ih =>
    obtain ⟨hfree, hnone⟩ := ih h.2
    have hkey : e.key = none := by
      cases hk : e.key with
      | none => rfl
      | some k =>
        have ht : Turn k (claim k (post ++ .shutdown i (.finished err) :: pre)) e _ := h.1.1 k hk
        have hlate : ∀ s, e ≠ .reserved k s := by
          rintro s rfl
          exact h.1.2.2 i err (by simp)
        rw [hfree k] at ht
        generalize Claim.next _ e = c' at ht
        cases ht
        exact absurd rfl (hlate _)
    refine ⟨fun k => ?_, fun e' he' => ?_⟩
    · rw [cons_append, claim_cons_ne (by simp [hkey])]
      exact hfree k
    · rcases mem_cons.mp he' with rfl | he'
      · exact hkey
      · exact hnone e' he'

/-- Then every session ever opened is fully closed, and none is opened any more. -/
theorem Legal.shutdown_closed {err : Option String} {pre post : List Event}
    (h : Legal (post ++ .shutdown i (.finished err) :: pre)) :
    (∀ k s, .opened k s ∈ pre → ∃ j, .closeReturned k j s ∈ pre) ∧ ∀ k s, .opened k s ∉ post := by
  have hpre : Legal (.shutdown i (.finished err) :: pre) := by
    induction post with
    | nil => exact h
    | cons e post ih => exact ih h.2
  refine ⟨fun k s hs => ?_, fun k s hs => ?_⟩
  · rcases hpre.2.live_of_opened hs with hclosed | hlive
    · exact hclosed
    · rw [hpre.1.2 k] at hlive
      cases hlive
  · have hkey := h.after_shutdown.2 _ hs
    cases hkey

/-! ## Opens in flight -/

def opens : List Event → List Key
  | [] => []
  | e :: log =>
    match e with
    | .reserved k _ => k :: opens log
    | .refused k _ | .installed k _ _ | .released k _ => (opens log).erase k
    | _ => opens log

theorem Legal.mem_opens (h : Legal log) :
    (opens log).Nodup ∧ ∀ k, k ∈ opens log ↔ (claim k log).counted = true := by
  induction log with
  | nil => exact ⟨nodup_nil, by simp [opens, claim, Claim.counted]⟩
  | cons e log ih =>
    obtain ⟨hnodup, hmem⟩ := ih h.2
    cases hkey : e.key with
    | none =>
      have hopens : opens (e :: log) = opens log := by
        cases e <;> first | rfl | cases hkey
      refine ⟨hopens ▸ hnodup, fun k => ?_⟩
      rw [hopens, claim_cons_ne (by simp [hkey])]
      exact hmem k
    | some k₀ =>
      have hother {k : Key} (hk : k ≠ k₀) : claim k (e :: log) = claim k log :=
        claim_cons_ne (by simpa [hkey] using hk.symm)
      have hsame (hopens : opens (e :: log) = opens log)
          (hc : (claim k₀ (e :: log)).counted = (claim k₀ log).counted) :
          (opens (e :: log)).Nodup ∧
            ∀ k, k ∈ opens (e :: log) ↔ (claim k (e :: log)).counted = true := by
        refine ⟨hopens ▸ hnodup, fun k => ?_⟩
        rw [hopens, hmem]
        by_cases hk : k = k₀
        · rw [hk, hc]
        · rw [hother hk]
      have herase (hopens : opens (e :: log) = (opens log).erase k₀)
          (hc : (claim k₀ (e :: log)).counted = false) :
          (opens (e :: log)).Nodup ∧
            ∀ k, k ∈ opens (e :: log) ↔ (claim k (e :: log)).counted = true := by
        refine ⟨hopens ▸ hnodup.erase _, fun k => ?_⟩
        rw [hopens, hnodup.mem_erase_iff, hmem]
        by_cases hk : k = k₀
        · simp [hk, hc]
        · simp [hk, hother hk]
      have ht := h.1.1 k₀ hkey
      rw [← claim_cons_self hkey] at ht
      cases e with
      | reserved k s =>
        obtain rfl : k = k₀ := Option.some.inj hkey
        have hfree : (claim k log).counted = false := by
          generalize claim k log = c at ht
          generalize claim k _ = c' at ht
          cases ht
          rfl
        refine ⟨nodup_cons.mpr ⟨fun hk => ?_, hnodup⟩, fun k' => ?_⟩
        · rw [hmem, hfree] at hk
          cases hk
        · rw [opens, mem_cons, hmem]
          by_cases hk : k' = k
          · subst hk
            rw [claim_cons_self rfl]
            simp [Claim.next, Claim.counted]
          · simp [hk, hother hk]
      | refused k s | installed k s id | released k s =>
        obtain rfl : k = k₀ := Option.some.inj hkey
        exact herase rfl (by rw [claim_cons_self rfl]; rfl)
      | shutdown i r => cases hkey
      | _ =>
        refine hsame rfl ?_
        generalize claim k₀ log = c at ht ⊢
        generalize claim k₀ _ = c' at ht ⊢
        cases ht <;> rfl

end Offshoot.Daemon
