import Offshoot.Daemon.Slots

/-!
# The requests keep to the history

Each request of the daemon, run among any others, does in each region what its place in
the history allows.  What a request knows between two regions is the claim on its branch:
as long as the next event is up to it, no other request changes it.
-/

namespace Offshoot.Daemon

open Conc Maps List

variable {σ ω α β ρ : Type} {k : Key} {i : Nat} {e : Event} {s s' : Server}
variable {c : Claim}

def slotSpec (σ : Type) : Spec (State σ) where
  inv d := Inv d.server
  may i d d' := May i d.server d'.server
  assumed _ _ := True
  fresh i d := Fresh i d.server
  inv_may h hm _ := h.may hm
  fresh_may _ hij hf hm _ := hm.fresh hij hf

/-- What a request does that carries `r` as the id of a session: it calls `Close` of no
other. -/
def Serves (r : Option Nat) (i : Nat) (s s' : Server) : Prop :=
  May i s s' ∧ ∀ k t id, r = some id → s'.log = .closeCalled k i t :: s.log →
    .installed k t id ∈ s.log

/-- What sessions do outside the mutex, each under the claim of its request, is `G`. -/
structure Conduct (G : Nat → State σ → State σ → Prop) (S : Sessions σ ω) : Prop where
  locked : ∀ i d s, G i d ⟨s, d.rest⟩
  openSession : ∀ i db branch, (S.openSession i db branch).All fun w w' => ∀ s,
    claim (key db branch) s.log = .opening i → G i ⟨s, w⟩ ⟨s, w'⟩
  openRefusal : ∀ i db branch e, (S.openRefusal db branch e).All fun w w' => ∀ s, G i ⟨s, w⟩ ⟨s, w'⟩
  closeSession : ∀ i t, (S.closeSession t).All fun w w' => ∀ s, G i ⟨s, w⟩ ⟨s, w'⟩

variable {G : Nat → State σ → State σ → Prop}

/-- Run by thread `i`, the program serves a request that carries `r`, and does `G` to the
state. -/
def Serving (G : Nat → State σ → State σ → Prop) (r : Option Nat) (i : Nat)
    (Q : α → Server → Prop) (p : Prog (State σ) ω α) (d : State σ) : Prop :=
  (slotSpec σ).Holds (fun d d' => Serves r i d.server d'.server ∧ G i d d') i
    (fun a d => Q a d.server) p d

theorem Serving.bind {Q : α → Server → Prop} {R : β → Server → Prop} {p : Prog (State σ) ω α}
    {f : α → Prog (State σ) ω β} (hp : Serving G r i Q p d)
    (hf : ∀ a d, Q a d.server → Serving G r i R (f a) d) :
    Serving G r i R (p >>= f) d := Spec.Holds.bind hp hf

def Steady (i : Nat) (P : Server → Prop) : Prop :=
  ∀ j s s', i ≠ j → May j s s' → P s → P s'

variable {r : Option Nat} {P : Server → Prop} {d : State σ}

theorem Steady.stable (h : Steady i P) : (slotSpec σ).Stable i fun d => P d.server :=
  fun j _ _ hij _ hs hmay _ => h j _ _ hij hmay hs

theorem Steady.and {Q : Server → Prop} (hP : Steady i P) (hQ : Steady i Q) :
    Steady i fun s => P s ∧ Q s := fun j s s' hij hmay hs =>
  ⟨hP j s s' hij hmay hs.1, hQ j s s' hij hmay hs.2⟩

theorem Steady.true : Steady i fun _ => True := fun _ _ _ _ _ _ => trivial

theorem Steady.claim (hc : c.owner = some i) :
    Steady i fun s => Daemon.claim k s.log = c := fun j s s' hij hmay hs => by
  have hown : (Daemon.claim k s.log).owner = some i := hs ▸ hc
  exact (hmay.claim_owned hij hown).trans hs

theorem Serves.refl : Serves r i s s :=
  ⟨.refl, fun _ _ _ _ heq => absurd heq.symm (cons_ne_self _ _)⟩

theorem Effect.serves (he : Effect s s' e) (hby : e.by i)
    (hcall : ∀ k t id, e = .closeCalled k i t → r = some id → .installed k t id ∈ s.log) :
    Serves r i s s' := by
  refine ⟨.single (.event e hby he), fun k t id hr hlog => ?_⟩
  rw [he.log] at hlog
  exact hcall k t id (List.cons.inj hlog).1 hr

variable {S : Sessions σ ω} {late : ω → Bool}

theorem locked_serves (hG : Conduct G S) {Q : α → Server → Prop} {f : ω → Server → Server × α}
    (hP : Steady i P)
    (hd : P d.server) (h : ∀ o s, Inv s → P s → Serves r i s (f o s).1 ∧ Q (f o s).2 (f o s).1) :
    Serving G r i Q (locked f) d :=
  Spec.Holds.step hP.stable hd fun d o hinv hd _ =>
    ⟨⟨(h o d.server hinv hd).1, hG.locked i d _⟩, (h o d.server hinv hd).2⟩

theorem outside_serves {p : Prog σ ω α} (hP : Steady i P) (hd : P d.server)
    (hp : p.All fun w w' => ∀ s, P s → G i ⟨s, w⟩ ⟨s, w'⟩) :
    Serving G r i (fun _ s => P s) (outside p) d :=
  Prog.All.holds_of_stable hP.stable hd
    (Prog.All.within (fun d _ hw _ hs _ => ⟨⟨.refl, hw d.server hs⟩, hs⟩) hp)

variable {c' : Claim}

theorem Turn.next (h : Turn k c e c') : c' = c.next e := by
  cases h <;> rfl

theorem Turn.key (h : Turn k c e c') : e.key = some k := by
  cases h <;> rfl

/-- An event of the branch is legal when it is its turn. -/
theorem Turn.legal (h : Turn k c e c') {log : List Event} (hc : claim k log = c)
    (hfresh : e.fresh log) : e.legal log := by
  refine ⟨fun k' hk' => ?_, hfresh⟩
  obtain rfl : k = k' := Option.some.inj (h.key.symm.trans hk')
  rw [hc, ← h.next]
  exact h

theorem Turn.claim (h : Turn k c e c') (hc : claim k s.log = c) (he : Effect s s' e) :
    Daemon.claim k s'.log = c' := by
  rw [he.log, claim_cons_self h.key, hc, h.next]

theorem note_serves (hG : Conduct G S) (ht : Turn k c e c') (hown : c.owner = some i)
    (hnoted : e.noted) (hby : e.by i) (hP : Steady i P) (hd : claim k d.server.log = c ∧ P d.server)
    (hkeep : ∀ s, P s → P (s.note e))
    (hcall : ∀ k t id s, P s → e = .closeCalled k i t → r = some id → .installed k t id ∈ s.log) :
    Serving G r i (fun _ s => claim k s.log = c' ∧ P s) (note e : Prog (State σ) ω Unit) d := by
  refine locked_serves hG ((Steady.claim hown).and hP) hd fun _ s hinv hs => ?_
  have hfresh : e.fresh s.log := by cases ht <;> trivial
  have hfits : e.fits s.closing := by cases ht <;> trivial
  have he := hinv.note hnoted (ht.legal hs.1 hfresh) hfits
  exact ⟨he.serves hby fun k t id => hcall k t id s hs.2, ht.claim hs.1 he, hkeep s hs.2⟩

/-! ## Opening -/

variable {n : Nat}

theorem claimSlot_serves (hG : Conduct G S) (hd : Fresh i d.server) :
    Serving G none i (fun r s => r = .ok () → claim k s.log = .opening i)
      (claimSlot late i k n) d := by
  induction n generalizing d with
  | zero => exact fun h => by cases h
  | succ n ih =>
    have hfresh : Steady i (Fresh i) := fun j s s' hij hmay hs => hmay.fresh hij hs
    refine Serving.bind (Q := fun res s =>
      (res = .reserved → claim k s.log = .opening i) ∧ (res ≠ .reserved → Fresh i s)) ?_
        fun res d hd => ?_
    · refine locked_serves hG hfresh hd fun _ s hinv hs => ?_
      by_cases hclosing : s.closing = true
      · rw [Server.reserve, if_pos hclosing]
        exact ⟨.refl, by simp, fun _ => hs⟩
      cases hslot : s.sessions.lookup k with
      | none =>
        have he := hinv.reserve (by simpa using hclosing) hslot hs
        refine ⟨he.serves rfl (by simp), fun _ => ?_, fun hne => absurd ?_ hne⟩
        · rw [he.log, claim_cons_self rfl]
          rfl
        · rw [Server.reserve, if_neg hclosing, hslot]
      | some sl =>
        rw [Server.reserve, if_neg hclosing, hslot]
        cases sl <;> exact ⟨.refl, by simp, fun _ => hs⟩
    · cases res with
      | shuttingDown => exact fun h => by cases h
      | alreadyOpen => exact fun h => by cases h
      | reserved => exact fun _ => hd.1 rfl
      | closing done =>
        refine Serving.bind (Q := fun _ s => Fresh i s) ?_ fun res d hd => ?_
        · exact locked_serves hG hfresh (hd.2 (by simp)) fun _ _ _ hs => ⟨.refl, hs⟩
        · cases res with
          | none => exact fun h => by cases h
          | some err => exact ih hd

theorem closeSession_serves (hG : Conduct G S) {c₁ c₂ : Claim} {t : Nat}
    (h₁ : Turn k c (.closeCalled k i t) c₁) (h₂ : Turn k c₁ (.closeReturned k i t) c₂)
    (hd : claim k d.server.log = c) (hr : ∀ id, r = some id → .installed k t id ∈ d.server.log) :
    Serving G r i (fun _ s => claim k s.log = c₂) (closeSession S k i t) d := by
  have hown : c.owner = some i ∧ c₁.owner = some i := by cases h₁ <;> exact ⟨rfl, rfl⟩
  have hmem : Steady i fun s => ∀ id, r = some id → .installed k t id ∈ s.log :=
    fun j s s' hij hmay hs id hid => hmay.mem_log (hs id hid)
  refine (note_serves hG h₁ hown.1 trivial rfl hmem ⟨hd, hr⟩
    (fun s hs id hid => mem_cons_of_mem _ (hs id hid))
    fun k' t' id s hs heq hid => ?_).bind fun _ d hd => ?_
  · cases heq
    exact hs id hid
  refine (outside_serves ((Steady.claim hown.2).and hmem) hd
    ((hG.closeSession i t).mono fun _ _ h s _ => h s)).bind fun err d hd => ?_
  refine (note_serves hG h₂ hown.2 trivial rfl Steady.true ⟨hd.1, trivial⟩
    (fun _ _ => trivial) (by simp)).bind fun _ d hd => ?_
  exact hd.1

theorem opOpen_serves (hG : Conduct G S) {req : Request} (hd : Fresh i d.server) :
    Serving G none i (fun _ _ => True) (opOpen late S i req n) d := by
  refine (claimSlot_serves hG hd).bind fun res d hd => ?_
  cases res with
  | error e => exact trivial
  | ok u =>
    have hd := hd rfl
    refine (outside_serves (Steady.claim rfl) hd (hG.openSession i _ _)).bind fun res d hd => ?_
    cases res with
    | error e =>
      refine (outside_serves (Steady.claim rfl) hd
        ((hG.openRefusal i _ _ _).mono fun _ _ h s _ => h s)).bind fun refusal d hd => ?_
      refine Serving.bind (Q := fun _ _ => True) ?_ fun _ d _ => trivial
      exact locked_serves hG (Steady.claim rfl) hd fun _ s hinv hs =>
        ⟨(hinv.unreserve hs).serves rfl (by simp), trivial⟩
    | ok u =>
      refine (note_serves hG .opened rfl trivial rfl Steady.true ⟨hd, trivial⟩ (fun _ _ => trivial)
        (by simp)).bind fun _ d hd => ?_
      refine Serving.bind (Q := fun res s =>
        res = none → claim req.key s.log = .discarding i .due) ?_ fun res d hd => ?_
      · refine locked_serves hG (Steady.claim rfl) hd.1 fun _ s hinv hs => ?_
        by_cases hclosing : s.closing = true
        · have he := hinv.dropped hs hclosing
          exact ⟨he.serves rfl (by simp), fun _ => Turn.dropped.claim hs he⟩
        · have he := hinv.installed hs (by simpa using hclosing)
          refine ⟨he.serves rfl (by simp), fun hnone => ?_⟩
          rw [Server.install, if_neg hclosing] at hnone
          cases hnone
      · cases res with
        | some id => exact trivial
        | none =>
          refine (closeSession_serves hG .calledOwn .returnedOwn (hd rfl) (by simp)).bind
            fun _ d hd => ?_
          refine (note_serves hG .discarded rfl trivial rfl Steady.true ⟨hd, trivial⟩
            (fun _ _ => trivial) (by simp)).bind fun _ d hd => ?_
          refine Serving.bind (Q := fun _ _ => True) ?_ fun _ d _ => trivial
          exact locked_serves hG (Steady.claim rfl) hd.1 fun _ s hinv hs =>
            ⟨(hinv.openDone hs).serves rfl (by simp), trivial⟩

/-! ## Closing -/

variable {m : Marker}

theorem closeSlot_serves (hG : Conduct G S)
    (hd : claim k d.server.log = .closing (some i) m.sess m.id m.done .due)
    (hr : ∀ id, r = some id → .installed k m.sess id ∈ d.server.log) :
    Serving G r i (fun _ _ => True) (closeSlot S k m i) d := by
  refine (closeSession_serves hG .called .returned hd hr).bind fun err d hd => ?_
  exact locked_serves hG (Steady.claim rfl) hd fun _ s hinv hs =>
    ⟨(hinv.freeSlot hs).serves rfl (by simp), trivial⟩

theorem Claim.serving_of_slot {t id : Nat} (h : c.slot = some (.serving t id)) :
    c = .serving t id := by
  cases c <;> simp_all [Claim.slot]

theorem Claim.waits_of_slot (h : c.slot = some (.closing m)) : c.waits = some m.done := by
  cases c <;> simp_all [Claim.slot, Claim.waits]
  rw [← h]

theorem opClose_serves (hG : Conduct G S) {req : Request} :
    Serving G req.sessionID i (fun _ _ => True) (opClose late S i req) d := by
  refine Serving.bind (Q := fun res s => ∀ m, res = .marked m →
    claim req.key s.log = .closing (some i) m.sess m.id m.done .due ∧
      ∀ id, req.sessionID = some id → .installed req.key m.sess id ∈ s.log) ?_
    fun res d hd => ?_
  · refine locked_serves hG Steady.true trivial fun _ s hinv _ => ?_
    rw [Server.beginClose]
    have hslot := hinv.slot req.key
    rcases hlook : s.sessions.lookup req.key with _ | _ | ⟨t, id⟩ | m
    · exact ⟨.refl, by simp⟩
    · exact ⟨.refl, by simp⟩
    · dsimp only
      rw [hlook] at hslot
      have hc := Claim.serving_of_slot hslot.symm
      split
      · rename_i hid
        have he := hinv.mark (o := some i) hc fun job hjob => .inl hjob
        refine ⟨he.serves (.inl rfl) (by simp), fun m hm => ?_⟩
        obtain rfl := Closable.marked.inj hm
        refine ⟨Turn.marked.claim hc he, fun id' hid' => ?_⟩
        have hin : .installed req.key t id ∈ s.log :=
          hinv.legal.installed_of_named (by rw [hc]; rfl)
        rcases hid with hnone | hsome
        · rw [hnone] at hid'
          cases hid'
        · cases hsome.symm.trans hid'
          exact mem_cons_of_mem _ hin
      · exact ⟨.refl, by simp⟩
    · dsimp only
      split <;> exact ⟨.refl, by simp⟩
  · cases res with
    | notOpen => exact trivial
    | closing done =>
      refine Serving.bind (Q := fun _ _ => True) ?_ fun res d _ => ?_
      · exact locked_serves hG Steady.true trivial fun _ _ _ _ => ⟨.refl, trivial⟩
      · rcases res with _ | _ | err <;> exact trivial
    | marked m =>
      obtain ⟨hc, hin⟩ := hd m rfl
      exact (closeSlot_serves hG hc hin).bind fun _ _ _ => by split <;> trivial

theorem goroutine_serves (hG : Conduct G S) :
    Serving G none i (fun _ _ => True) (goroutine S i n) d := by
  refine Serving.bind (Q := fun res s => ∀ job, res = some job →
    claim job.1 s.log = .closing (some i) job.2.sess job.2.id job.2.done .due) ?_
    fun res d hd => ?_
  · refine locked_serves hG Steady.true trivial fun _ s hinv _ => ?_
    cases hjob : s.goroutines[n]? with
    | none =>
      rw [Server.takeJob, hjob]
      exact ⟨.refl, by simp⟩
    | some job =>
      have he := hinv.takeJob (i := i) hjob
      have hc := hinv.jobs job (mem_of_getElem? hjob)
      refine ⟨he.serves rfl (by simp), fun job' hjob' => ?_⟩
      rw [Server.takeJob, hjob] at hjob'
      cases hjob'
      exact Turn.taken.claim hc he
  · cases res with
    | none => exact trivial
    | some job => exact (closeSlot_serves hG (hd job rfl) (by simp)).bind .ret

/-! ## Shutting down -/

def Quiet (s : Server) : Prop := s.closing = true ∧ ∀ k, (claim k s.log).counted = false

theorem May.quiet {j : Nat} (h : May j s s') (hq : Quiet s) : Quiet s' := by
  refine ⟨h.closing hq.1, ?_⟩
  induction h with
  | refl => exact hq.2
  | tail hsteps hone ih =>
    intro k
    cases hone with
    | event e hby he =>
      rcases he.turn k with ht | ⟨-, heq⟩
      · have hk := ih k
        have hclosing := May.closing hsteps hq.1
        have hfits := he.fits
        generalize claim k _ = c at ht hk
        generalize claim k _ = c' at ht ⊢
        cases ht <;> first
          | rfl
          | exact Bool.noConfusion hk
          | exact Bool.noConfusion (hclosing.symm.trans hfits)
      · rw [heq]
        exact ih k
    | close => exact ih k
    | report r _ => exact ih k

def Waited (waits : List Marker) (s : Server) (k : Key) : Prop :=
  ∃ m ∈ waits, (claim k s.log).waits = some m.done

theorem Waited.cons {waits : List Marker} (h : Waited waits s k) : Waited (m :: waits) s k := by
  obtain ⟨m', hm', hw⟩ := h
  exact ⟨m', mem_cons_of_mem _ hm', hw⟩

theorem markAll_waits {ks : List Key} (h : Inv s) : May i s (Server.markAll ks s).1 ∧ ∀ k,
      (claim k (Server.markAll ks s).1.log = claim k s.log ∨
        Waited (Server.markAll ks s).2 (Server.markAll ks s).1 k) ∧
      ∀ sl, k ∈ ks → s.sessions.lookup k = some sl → sl ≠ .reserved →
        Waited (Server.markAll ks s).2 (Server.markAll ks s).1 k := by
  induction ks generalizing s with
  | nil => exact ⟨.refl, fun k => ⟨.inl rfl, by simp⟩⟩
  | cons k₀ ks ih =>
    -- What is neither open nor closing is passed over.
    have hskip (hsl : ∀ sl, s.sessions.lookup k₀ = some sl → sl = .reserved) (k : Key) (sl : Slot)
        (hk : k ∈ k₀ :: ks) (hlook : s.sessions.lookup k = some sl) (hne : sl ≠ .reserved) :
        Waited (Server.markAll ks s).2 (Server.markAll ks s).1 k := by
      rcases mem_cons.mp hk with rfl | hk
      · exact absurd (hsl sl hlook) hne
      · exact ((ih h).2 k).2 sl hk hlook hne
    have hslot := h.slot k₀
    rw [Server.markAll]
    rcases hlook : s.sessions.lookup k₀ with _ | _ | ⟨t, id⟩ | m₀
    · exact ⟨(ih h).1, fun k => ⟨((ih h).2 k).1, hskip (by simp [hlook]) k⟩⟩
    · exact ⟨(ih h).1, fun k => ⟨((ih h).2 k).1, hskip (by simp [hlook]) k⟩⟩
    · -- An open slot is marked.
      rw [hlook] at hslot
      have hc := Claim.serving_of_slot hslot.symm
      have he := h.startClose hc
      obtain ⟨hmay, hall⟩ := ih (h.effect he)
      have hby : Event.by i (.marked k₀ none t id s.nextDone) := .inr rfl
      refine ⟨.head (.event _ hby he) hmay, fun k => ?_⟩
      by_cases hk₀ : k = k₀
      · subst hk₀
        suffices hw : Waited _ _ k from ⟨.inr hw, fun _ _ _ _ => hw⟩
        rcases (hall k).1 with heq | hw
        · exact ⟨_, mem_cons_self, by rw [heq, Turn.marked.claim hc he]; rfl⟩
        · exact hw.cons
      · have hkey : (Event.marked k₀ none t id s.nextDone).key ≠ some k := by
          simpa [Event.key] using Ne.symm hk₀
        refine ⟨?_, fun sl hk hsl hne => ?_⟩
        · rcases (hall k).1 with heq | hw
          · exact .inl (heq.trans (he.claim_ne hkey))
          · exact .inr hw.cons
        · have hk := (mem_cons.mp hk).resolve_left hk₀
          refine ((hall k).2 sl hk ?_ hne).cons
          rw [he.slot, if_neg hkey, hsl]
    · -- A marker stays as it is.
      rw [hlook] at hslot
      obtain ⟨hmay, hall⟩ := ih h
      refine ⟨hmay, fun k => ?_⟩
      by_cases hk₀ : k = k₀
      · subst hk₀
        suffices hw : Waited _ _ k from ⟨.inr hw, fun _ _ _ _ => hw⟩
        rcases (hall k).1 with heq | hw
        · exact ⟨m₀, mem_cons_self, by rw [heq]; exact Claim.waits_of_slot hslot.symm⟩
        · exact hw.cons
      · refine ⟨(hall k).1.imp id Waited.cons, fun sl hk hsl hne => ?_⟩
        exact ((hall k).2 sl ((mem_cons.mp hk).resolve_left hk₀) hsl hne).cons

/-- A branch no open in flight has is free, open or closing. -/
theorem Claim.free_or_slot (h : c.counted = false) :
    c = .free ∨ ∃ sl, c.slot = some sl ∧ sl ≠ .reserved := by
  cases c with
  | free => exact .inl rfl
  | serving t id => exact .inr ⟨_, rfl, by simp⟩
  | closing o t id done stage => exact .inr ⟨_, rfl, by simp⟩
  | opening t | opened t | leaving t => cases h
  | discarding t stage => cases h

theorem markAll_closing (h : Inv s) (hq : Quiet s) :
    Closing (Server.markAll s.sessions.keys s).2 (Server.markAll s.sessions.keys s).1 := by
  obtain ⟨hmay, hall⟩ : May 0 s (Server.markAll s.sessions.keys s).1 ∧ _ := markAll_waits h
  refine ⟨hmay.closing hq.1, fun k => ?_⟩
  rcases Claim.free_or_slot (hq.2 k) with hfree | ⟨sl, hsl, hne⟩
  · rcases (hall k).1 with heq | hw
    · exact .inl (heq.trans hfree)
    · exact .inr hw
  · rw [← h.slot] at hsl
    have hk : k ∈ s.sessions.keys := AList.mem_keys.mp (AList.lookup_isSome.mp (by simp [hsl]))
    exact .inr ((hall k).2 sl hk hsl hne)

theorem Closing.steady {waits : List Marker} : Steady i (Closing waits) :=
  fun _ _ _ _ hmay hs => hmay.closingAll hs

theorem waitAll_serves (hG : Conduct G S) {ms : List Marker} (hP : Steady i P) (hd : P d.server) :
    Serving G none i (fun r s => P s ∧ (r ≠ none → ∀ m ∈ ms, m.done ∈ s.dones))
      (waitAll late ms : Prog (State σ) ω _) d := by
  induction ms generalizing d P with
  | nil => exact ⟨hd, by simp⟩
  | cons m ms ih =>
    refine Serving.bind (Q := fun r s => P s ∧ (r ≠ none → m.done ∈ s.dones)) ?_ fun r d hd => ?_
    · refine locked_serves hG hP hd fun o s _ hs => ⟨.refl, hs, fun hne => ?_⟩
      split at hne
      · exact absurd rfl hne
      · exact AList.lookup_isSome.mp (Option.isSome_iff_ne_none.mpr hne)
    · cases r with
      | none => exact ⟨hd.1, fun h => absurd rfl h⟩
      | some err =>
        have hdone : Steady i fun s => m.done ∈ s.dones := fun _ _ _ _ hmay hs => hmay.dones hs
        refine (ih (hP.and hdone) ⟨hd.1, hd.2 (by simp)⟩).bind fun r d hd => ?_
        cases r with
        | none => exact ⟨hd.1.1, fun h => absurd rfl h⟩
        | some errs =>
          refine ⟨hd.1.1, fun _ m' hm' => ?_⟩
          rcases mem_cons.mp hm' with rfl | hm'
          · exact hd.1.2
          · exact hd.2 (by simp) m' hm'

def Done (s : Server) : Prop :=
  ∃ waits, Closing waits s ∧ ∀ m ∈ waits, m.done ∈ s.dones

theorem Done.steady : Steady i Done := fun _ _ _ _ hmay hs => by
  obtain ⟨waits, hc, hdone⟩ := hs
  exact ⟨waits, hmay.closingAll hc, fun m hm => hmay.dones (hdone m hm)⟩

theorem Done.free (h : Done s) (hinv : Inv s) : Closing [] s := by
  obtain ⟨waits, ⟨hclosing, hall⟩, hdone⟩ := h
  refine ⟨hclosing, fun k => .inl ?_⟩
  rcases hall k with hfree | ⟨m, hm, hw⟩
  · exact hfree
  · exact absurd (hdone m hm) (hinv.undone k _ hw)

theorem shutdown_serves (hG : Conduct G S) (hd : d.server.closing = true) :
    Serving G none i (fun r s => ∀ err, r = .finished err → Done s)
      (shutdown late : Prog (State σ) ω _) d := by
  have hclosing : Steady i fun s => s.closing = true := fun _ _ _ _ hmay hs => hmay.closing hs
  have hquiet : Steady i Quiet := fun _ _ _ _ hmay hs => hmay.quiet hs
  refine Serving.bind (Q := fun _ s => s.closing = true) ?_ fun janitorErr d hd => ?_
  · exact locked_serves hG hclosing hd fun _ _ _ hs => ⟨.refl, hs⟩
  refine Serving.bind (Q := fun b s => b = true → Quiet s) ?_ fun b d hd => ?_
  · refine locked_serves hG hclosing hd fun o s hinv hs => ⟨.refl, fun hb => ⟨hs, fun k => ?_⟩⟩
    have hzero : (opens s.log).length = 0 := by
      rw [← hinv.openWG]
      simpa using ((Bool.and_eq_true _ _).mp hb).1
    by_contra hcount
    have hk := (hinv.legal.mem_opens.2 k).mpr (by simpa using hcount)
    rw [length_eq_zero_iff.mp hzero] at hk
    cases hk
  cases b with
  | false => exact fun err h => by cases h
  | true =>
    refine Serving.bind (Q := Closing) ?_ fun waits d hd => ?_
    · exact locked_serves hG hquiet (hd rfl) fun _ s hinv hs =>
        ⟨⟨(markAll_waits hinv).1, by simp⟩, markAll_closing hinv hs⟩
    · refine (waitAll_serves hG Closing.steady hd).bind fun r d hd => ?_
      cases r with
      | none => exact fun err h => by cases h
      | some errs => exact fun err _ => ⟨waits, hd.1, hd.2 (by simp)⟩

theorem noteShutdown_serves (hG : Conduct G S) {r : Outcome}
    (hd : ∀ err, r = .finished err → Closing [] d.server) :
    Serving G none i (fun _ _ => True) (note (.shutdown i r) : Prog (State σ) ω Unit) d := by
  have hsteady : Steady i fun s => ∀ err, r = .finished err → Closing [] s :=
    fun j s s' hij hmay hs err herr => Closing.steady j s s' hij hmay (hs err herr)
  refine locked_serves hG hsteady hd fun _ s hinv hs => ?_
  have hfree {err : Option String} (herr : r = .finished err) (k : Key) : claim k s.log = .free :=
    ((hs err herr).2 k).resolve_right fun h => by
      obtain ⟨m, hm, -⟩ := h
      cases hm
  have he : Effect s (s.note (.shutdown i r)) (.shutdown i r) := by
    refine hinv.note trivial ⟨fun k hk => (by cases hk), ?_⟩ ?_
    · cases r with
      | timedOut msg => exact trivial
      | finished err => exact hfree rfl
    · cases r with
      | timedOut msg => exact trivial
      | finished err => exact (hs err rfl).1
  exact ⟨he.serves rfl (by simp), trivial⟩

theorem serverShutdown_serves (hG : Conduct G S) :
    Serving G none i (fun _ _ => True) (serverShutdown late i : Prog (State σ) ω _) d := by
  refine Serving.bind (Q := fun b s => b = true → s.closing = true) ?_ fun b d hd => ?_
  · refine locked_serves hG Steady.true trivial fun _ s _ _ => ?_
    rw [Server.beginShutdown]
    split
    · exact ⟨.refl, by simp⟩
    · exact ⟨⟨.single .close, by simp⟩, fun _ => rfl⟩
  cases b with
  | true =>
    refine (shutdown_serves hG (hd rfl)).bind fun r d hd => ?_
    refine Serving.bind (Q := fun _ s => ∀ err, r = .finished err → Closing [] s) ?_
      fun _ d hd => ?_
    · refine locked_serves hG (P := fun s => ∀ err, r = .finished err → Done s)
        (fun j s s' hij hmay hs err herr => Done.steady j s s' hij hmay (hs err herr)) hd
        fun _ s hinv hs => ?_
      have hfree (err : Option String) (herr : r = .finished err) := (hs err herr).free hinv
      refine ⟨⟨.single (.report r fun err herr => ?_), by simp⟩, hfree⟩
      refine ⟨(hfree err herr).1, fun k => ((hfree err herr).2 k).resolve_right fun h => ?_⟩
      obtain ⟨m, hm, -⟩ := h
      cases hm
    · exact (noteShutdown_serves hG hd).bind .ret
  | false =>
    refine Serving.bind (Q := fun r s => ∀ err, r = .finished err → Closing [] s) ?_
      fun r d hd => ?_
    · refine locked_serves hG Steady.true trivial fun o s hinv _ => ⟨.refl, fun err herr => ?_⟩
      split at herr
      · cases herr
      cases hdone : s.shutdownDone with
      | none =>
        rw [hdone] at herr
        cases herr
      | some r =>
        rw [hdone] at herr
        obtain ⟨hclosing, hfree⟩ := hinv.finished err (by rw [hdone]; exact congrArg some herr)
        exact ⟨hclosing, fun k => .inl (hfree k)⟩
    · exact (noteShutdown_serves hG hd).bind .ret

/-! ## Runs -/

def Op.carries : Op ρ → Option Nat
  | .opClose req => req.sessionID
  | _ => none

def Reader (p : Prog (State σ) ω α) : Prop := p.All fun d d' => d'.server = d.server

variable {other : Nat → ρ → Prog (State σ) ω Unit}

theorem Conduct.any : Conduct (fun _ _ _ => True) S where
  locked _ _ _ := trivial
  openSession _ _ _ := .any (fun _ _ _ _ => trivial) _
  openRefusal _ _ _ _ := .any (fun _ _ _ => trivial) _
  closeSession _ _ := .any (fun _ _ _ => trivial) _

theorem Op.prog_serves (hother : ∀ i r, Reader (other i r)) {op : Op ρ} (hd : Fresh i d.server) :
    Serving (fun _ _ _ => True) op.carries i (fun _ _ => True) (op.prog late S other i) d := by
  cases op with
  | opOpen req n => exact (opOpen_serves .any hd).bind .ret
  | opClose req => exact (opClose_serves .any).bind .ret
  | shutdown => exact (serverShutdown_serves (S := S) .any).bind .ret
  | goroutine n => exact goroutine_serves .any
  | other r =>
    refine Prog.All.holds ((hother i r).mono fun d d' heq _ _ => ?_)
    rw [heq]
    exact ⟨.refl, trivial⟩

theorem slotSpec_sound (hother : ∀ i r, Reader (other i r)) :
    (slotSpec σ).Sound (daemon late S other) where
  prog _ _ _ _ _ hd := (Op.prog_serves hother hd).weaken fun _ _ h => h.1.1
  crash _ _ _ := .refl

theorem slotSpec_init {w : σ} : Safe (slotSpec σ) (.init ⟨.empty, w⟩ : Config (State σ) ω (Op ρ)) :=
  Safe.init Inv.empty fun _ _ h => by cases h

/-- Sessions of the daemon, whatever other requests it serves that do not write its
slots.  A branch has one session at a time that is being opened, is open or is not yet
fully closed.  `Close` of a session is called once at most, and by a close that carries an
id only if it is the id of that session, which no other session has.  The announcements of
a branch alternate.  When a `Shutdown` returns and did not run out of time, every session
opened so far is fully closed, and none is opened after that. -/
theorem session_slots (hother : ∀ i r, Reader (other i r)) {w : σ} {c : Config (State σ) ω (Op ρ)}
    (h : Reach (daemon late S other) (.init ⟨.empty, w⟩) c) :
    (∀ k t t', Pending c.state.server.log k t → Pending c.state.server.log k t' → t' = t) ∧
    (∀ t, c.state.server.log.countP (Event.calls t) ≤ 1) ∧
    (∀ j req id k t c', StepBy (daemon late S other) j (.opClose req) c c' →
      req.sessionID = some id → c'.state.server.log = .closeCalled k j t :: c.state.server.log →
      .installed k t id ∈ c.state.server.log ∧
        ∀ k' t', .installed k' t' id ∈ c.state.server.log → t' = t) ∧
    (∀ k, Alternates (announcements k c.state.server.log)) ∧
    ∀ pre post j err, c.state.server.log = post ++ .shutdown j (.finished err) :: pre →
      (∀ k t, .opened k t ∈ pre → ∃ i, .closeReturned k i t ∈ pre) ∧ ∀ k t, .opened k t ∉ post := by
  have hreach : (slotSpec σ).Reach (daemon late S other) (.init ⟨.empty, w⟩) c :=
    Spec.Reach.of_reach (fun _ _ => trivial) h
  have hsound : (slotSpec σ).Sound (daemon late S other) := slotSpec_sound hother
  have hlegal : Legal c.state.server.log := (slotSpec_init.reach hsound hreach).inv.legal
  refine ⟨fun k t t' => hlegal.pending_unique, fun t => hlegal.called_once, ?_,
    fun k => hlegal.alternates.1, fun pre post j err heq => ?_⟩
  · intro j req id k t c' hstep hid hlog
    have hin : .installed k t id ∈ c.state.server.log := by
      rcases slotSpec_init.step_guarantee hsound .refl (G := fun i op d d' =>
          Serves op.carries i d.server d'.server)
          (fun i op d _ _ hd => (Op.prog_serves hother hd).weaken fun _ _ h => h.1) hreach hstep
          trivial with heq | heq | hs
      · rw [heq] at hlog
        exact absurd hlog.symm (cons_ne_self _ _)
      · rw [heq] at hlog
        exact absurd hlog.symm (cons_ne_self _ _)
      · exact hs.2 k t id hid hlog
    exact ⟨hin, fun k' t' hin' => hlegal.installed_unique hin hin'⟩
  · exact (heq ▸ hlegal).shutdown_closed

instance : DecidablePred (daemon late S other).enabled := fun _ => .isTrue trivial

def promptSessions : Sessions Unit Bool := ⟨fun _ _ _ => pure (.ok ()), fun _ => pure none,
  fun _ _ e => pure e⟩

abbrev promptDaemon : System (State Unit) Bool (Op Empty) :=
  daemon id promptSessions fun _ r => r.elim

/-- A session is opened and closed, the next is closed by `Shutdown`. -/
def reopened : List (Move Bool (Op Empty)) :=
  [.start 0 (.opOpen ⟨"db", "", none⟩ 1), .run 0 false 3,
    .start 1 (.opClose ⟨"db", "main", some 0⟩), .run 1 false 4,
    .start 2 (.opOpen ⟨"db", "main", none⟩ 1), .run 2 false 3,
    .start 3 .shutdown, .run 3 false 4, .start 4 (.goroutine 0), .run 4 false 4, .run 3 false 3]

set_option maxRecDepth 8192 in
theorem session_slots_shut_down : ∃ c pre, Reach promptDaemon (.init ⟨.empty, ()⟩) c ∧
    c.state.server.log = .shutdown 3 (.finished none) :: pre ∧ .opened "db@main" 2 ∈ pre ∧
    (∀ k t, .opened k t ∈ pre → ∃ i, .closeReturned k i t ∈ pre) ∧
    Alternates (announcements "db@main" c.state.server.log) := by
  obtain ⟨c, hc, h⟩ := Config.exists_play (c := .init ⟨.empty, ()⟩) (m := reopened)
    (Q := fun c => c.state.server.log.head? = some (.shutdown 3 (.finished none)) ∧
      .opened "db@main" 2 ∈ c.state.server.log.tail) (s := promptDaemon) (by decide)
  obtain ⟨hhead, hopened⟩ := of_decide_eq_true h
  obtain ⟨pre, hlog⟩ := List.head?_eq_some_iff.mp hhead
  rw [hlog] at hopened
  obtain ⟨-, -, -, halt, hshut⟩ := session_slots (fun _ r => r.elim) (Config.play_reach hc)
  exact ⟨c, pre, Config.play_reach hc, hlog, hopened, (hshut pre [] 3 none hlog).1, halt _⟩

end Offshoot.Daemon
