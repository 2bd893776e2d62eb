import Mathlib.Logic.Relation

/-!
# Interleaved programs over a shared state

A program is a sequence of atomic actions on a shared state.  An action may
depend on an oracle value, which stands for everything the environment decides:
whether a call fails, what a clock shows, which fresh name is drawn.  A
configuration is a state with any number of threads, each running a program;
threads start at any time, take their actions in any order, and may stall
forever or crash between any two actions.

The second half is a rely-guarantee argument.  A `Spec` gives a global invariant,
the transitions each thread may make, and the transitions that are taken into
account; the others are assumed away.  A program is `Ok` when, whatever the other
threads do in between, each of its actions is an allowed transition.  If every
program that can be started is `Ok`, the invariant holds in every configuration
reached.  A `Layer` adds an invariant and further restrictions on the transitions
to a spec, and leaves only those restrictions to be shown of the programs.
-/

namespace Conc

/-- A program over states `σ` with oracle values `ω`, returning an `α`. -/
inductive Prog (σ ω α : Type) : Type 1
  | ret (a : α) : Prog σ ω α
  | act {β : Type} (f : ω → σ → σ × β) (k : β → Prog σ ω α) : Prog σ ω α

variable {σ ω α β ι : Type}

namespace Prog

def bind (p : Prog σ ω α) (k : α → Prog σ ω β) : Prog σ ω β :=
  match p with
  | ret a => k a
  | act f k' => act f fun b => (k' b).bind k

instance : Monad (Prog σ ω) where
  pure := ret
  bind := bind

def step (f : ω → σ → σ × β) : Prog σ ω β := act f ret

def within {τ : Type} (get : τ → σ) (put : σ → τ → τ) : Prog σ ω α → Prog τ ω α
  | ret a => ret a
  | act f k => act (fun o t => (put (f o (get t)).1 t, (f o (get t)).2)) fun b =>
      (k b).within get put

theorem bind_assoc {γ : Type} (p : Prog σ ω α) (k : α → Prog σ ω β) (k' : β → Prog σ ω γ) :
    (p >>= k >>= k') = p >>= fun a => k a >>= k' := by
  induction p with
  | ret a => rfl
  | act f k'' ih => exact congrArg (act f) (funext ih)

end Prog

/-! ## Configurations and runs -/

/-- A state and the threads over it.  `ι` labels what a thread was started as. -/
structure Config (σ ω ι : Type) : Type 1 where
  state : σ
  threads : Nat → Option (ι × Prog σ ω Unit)

/-- The programs that may be started: one per label, for the labels enabled.
`crash i` is what a crash of thread `i` does to the state: what lives in that
thread's memory is gone. -/
structure System (σ ω ι : Type) : Type 1 where
  prog : Nat → ι → Prog σ ω Unit
  enabled : ι → Prop
  crash : Nat → σ → σ

def Config.set (c : Config σ ω ι) (s : σ) (i : Nat) (op : ι) (p : Prog σ ω Unit) : Config σ ω ι :=
  ⟨s, fun j => if j = i then some (op, p) else c.threads j⟩

/-- One step of thread `i`, started as `op`: it starts, takes its next action or
crashes. -/
inductive StepBy (sys : System σ ω ι) (i : Nat) (op : ι) :
    Config σ ω ι → Config σ ω ι → Prop
  | spawn {c : Config σ ω ι} : c.threads i = none → sys.enabled op →
      StepBy sys i op c (c.set c.state i op (sys.prog i op))
  | run {c : Config σ ω ι} {β} {f : ω → σ → σ × β} {k} (o : ω) :
      c.threads i = some (op, .act f k) →
      StepBy sys i op c (c.set (f o c.state).1 i op (k (f o c.state).2))
  | crash {c : Config σ ω ι} {p} : c.threads i = some (op, p) →
      StepBy sys i op c (c.set (sys.crash i c.state) i op (.ret ()))

variable {op : ι}

theorem StepBy.label (h : StepBy sys i op c c') : ∃ p, c'.threads i = some (op, p) := by
  cases h <;> exact ⟨_, by simp [Config.set]; rfl⟩

theorem StepBy.keeps_label {j : Nat} {op' : ι} (h : StepBy sys i op c c') {p : Prog σ ω Unit}
    (hj : c.threads j = some (op', p)) : ∃ p', c'.threads j = some (op', p') := by
  by_cases hij : j = i
  · subst hij
    cases h with
    | spawn hnone _ => simp [hnone] at hj
    | run o hi =>
      cases hi.symm.trans hj
      exact ⟨_, by simp [Config.set]; rfl⟩
    | crash hi =>
      cases hi.symm.trans hj
      exact ⟨_, by simp [Config.set]; rfl⟩
  · cases h <;> exact ⟨p, by simp [Config.set, hij, hj]⟩

def Step (sys : System σ ω ι) (c c' : Config σ ω ι) : Prop := ∃ i op, StepBy sys i op c c'

def Reach (sys : System σ ω ι) : Config σ ω ι → Config σ ω ι → Prop :=
  Relation.ReflTransGen (Step sys)

def ReachIf (A : σ → σ → Prop) (sys : System σ ω ι) : Config σ ω ι → Config σ ω ι → Prop :=
  Relation.ReflTransGen fun c c' => Step sys c c' ∧ A c.state c'.state

variable {sys : System σ ω ι} {c c' : Config σ ω ι}

theorem ReachIf.reach {A : σ → σ → Prop} (h : ReachIf A sys c c') : Reach sys c c' := by
  induction h with
  | refl => exact .refl
  | tail _ hstep ih => exact ih.tail hstep.1

def Config.init (s : σ) : Config σ ω ι := ⟨s, fun _ => none⟩

/-! ### Schedules -/

/-- A choice of a scheduler: start a thread, let one take so many actions with the
same oracle value, or crash one. -/
inductive Move (ω ι : Type)
  | start (i : Nat) (op : ι)
  | run (i : Nat) (o : ω) (n : Nat)
  | crash (i : Nat)

def Config.runs (c : Config σ ω ι) (i : Nat) (o : ω) : Nat → Option (Config σ ω ι)
  | 0 => some c
  | n + 1 =>
    match c.threads i with
    | some (op, .act f k) => (c.set (f o c.state).1 i op (k (f o c.state).2)).runs i o n
    | _ => none

def Config.move (sys : System σ ω ι) [DecidablePred sys.enabled] (c : Config σ ω ι) :
    Move ω ι → Option (Config σ ω ι)
  | .start i op =>
    match c.threads i with
    | none => if sys.enabled op then some (c.set c.state i op (sys.prog i op)) else none
    | some _ => none
  | .run i o n => c.runs i o n
  | .crash i =>
    match c.threads i with
    | some (op, _) => some (c.set (sys.crash i c.state) i op (.ret ()))
    | none => none

def Config.play (sys : System σ ω ι) [DecidablePred sys.enabled] :
    List (Move ω ι) → Config σ ω ι → Option (Config σ ω ι)
  | [], c => some c
  | m :: ms, c =>
    match c.move sys m with
    | none => none
    | some c => c.play sys ms

theorem Config.runs_reach {o : ω} {n : Nat} (h : c.runs i o n = some c') : Reach sys c c' := by
  induction n generalizing c with
  | zero =>
    cases h
    exact .refl
  | succ n ih =>
    rw [runs] at h
    split at h
    · rename_i op β f k hi
      exact .head ⟨i, op, .run o hi⟩ (ih h)
    · cases h

theorem Config.move_reach [DecidablePred sys.enabled] {m : Move ω ι} (h : c.move sys m = some c') :
    Reach sys c c' := by
  cases m with
  | start i op =>
    simp only [move] at h
    split at h
    · rename_i hi
      split at h
      · rename_i hop
        cases h
        exact .single ⟨i, op, .spawn hi hop⟩
      · cases h
    · cases h
  | run i o n => exact runs_reach h
  | crash i =>
    simp only [move] at h
    split at h
    · rename_i op p hi
      cases h
      exact .single ⟨i, op, .crash hi⟩
    · cases h

theorem Config.play_reach [DecidablePred sys.enabled] {ms : List (Move ω ι)}
    (h : c.play sys ms = some c') : Reach sys c c' := by
  induction ms generalizing c with
  | nil =>
    cases h
    exact .refl
  | cons m ms ih =>
    rw [play] at h
    split at h
    · cases h
    · rename_i c₁ hc₁
      exact (move_reach hc₁).trans (ih h)

theorem Config.runs_one {s : System σ ω ι} {o : ω} {a : ι} (h : c.runs i o 1 = some c')
    (ha : (c.threads i).map (·.1) = some a) : StepBy s i a c c' := by
  rw [runs] at h
  split at h
  · rename_i op β f k hi
    obtain rfl : op = a := by simpa [hi] using ha
    cases h
    exact .run o hi
  · cases h

theorem Config.exists_play {s : System σ ω ι} [DecidablePred s.enabled] {m : List (Move ω ι)}
    {Q : Config σ ω ι → Bool} (h : (c.play s m).any Q) : ∃ c', c.play s m = some c' ∧ Q c' := by
  cases hc : c.play s m with
  | none => simp [hc] at h
  | some c' => exact ⟨c', rfl, by simpa [hc] using h⟩

def Move.singles : Move ω ι → List (Move ω ι)
  | .run i o n => List.replicate n (.run i o 1)
  | m => [m]

def Config.follow (sys : System σ ω ι) [DecidablePred sys.enabled] (A : σ → σ → Bool) :
    List (Move ω ι) → Config σ ω ι → Option (Config σ ω ι)
  | [], c => some c
  | m :: ms, c =>
    match c.move sys m with
    | none => none
    | some c' => if A c.state c'.state then c'.follow sys A ms else none

/-- The configuration a schedule leads to, if it can be followed and every step of it
passes the test. -/
def Config.playIf (sys : System σ ω ι) [DecidablePred sys.enabled] (A : σ → σ → Bool)
    (ms : List (Move ω ι)) (c : Config σ ω ι) : Option (Config σ ω ι) :=
  c.follow sys A (ms.flatMap Move.singles)

theorem Config.move_single [DecidablePred sys.enabled] {m m' : Move ω ι} (hm : m ∈ m'.singles)
    (h : c.move sys m = some c') : Step sys c c' := by
  cases m with
  | start i op =>
    simp only [move] at h
    split at h
    · rename_i hi
      split at h
      · rename_i hop
        cases h
        exact ⟨i, op, .spawn hi hop⟩
      · cases h
    · cases h
  | crash i =>
    simp only [move] at h
    split at h
    · rename_i op p hi
      cases h
      exact ⟨i, op, .crash hi⟩
    · cases h
  | run i o n =>
    obtain rfl : n = 1 := by
      cases m' <;> simp_all [Move.singles]
    simp only [move, runs] at h
    split at h
    · rename_i op β f k hi
      cases h
      exact ⟨i, op, .run o hi⟩
    · cases h

/-- A schedule that can be followed is a run whose steps all pass the test. -/
theorem Config.playIf_reachIf [DecidablePred sys.enabled] {A : σ → σ → Bool} {B : σ → σ → Prop}
    (hA : ∀ s s', A s s' = true → B s s') {ms : List (Move ω ι)} (h : c.playIf sys A ms = some c') :
    ReachIf B sys c c' := by
  have hsingle : ∀ m ∈ ms.flatMap Move.singles, ∃ m' : Move ω ι, m ∈ m'.singles := fun m hm => by
    obtain ⟨m', -, hm⟩ := List.mem_flatMap.mp hm
    exact ⟨m', hm⟩
  unfold playIf at h
  generalize ms.flatMap Move.singles = ms at h hsingle
  induction ms generalizing c with
  | nil =>
    cases h
    exact .refl
  | cons m ms ih =>
    rw [follow] at h
    split at h
    · cases h
    rename_i c₁ hc₁
    split at h
    · rename_i hA₁
      obtain ⟨m', hm⟩ := hsingle m List.mem_cons_self
      exact .head ⟨move_single hm hc₁, hA _ _ hA₁⟩
        (ih h fun m hm => hsingle m (List.mem_cons_of_mem _ hm))
    · cases h

/-! ## Rely and guarantee -/

structure Spec (σ : Type) where
  inv : σ → Prop
  may : Nat → σ → σ → Prop
  /-- The transitions that are taken into account; others are assumed away. -/
  assumed : σ → σ → Prop
  fresh : Nat → σ → Prop
  inv_may : ∀ {i s s'}, inv s → may i s s' → assumed s s' → inv s'
  fresh_may : ∀ {i j s s'}, inv s → i ≠ j → fresh i s → may j s s' → assumed s s' → fresh i s'

namespace Spec

variable (S : Spec σ)

/-- What other threads may do between two actions of thread `i`. -/
def Rely (i : Nat) : σ → σ → Prop :=
  Relation.ReflTransGen fun s s' => ∃ j, i ≠ j ∧ S.inv s ∧ S.may j s s' ∧ S.assumed s s'

/-- Run by thread `i` from `s`, every action of `p` is a `G` transition, and a
result and final state satisfy `Q`. -/
def Holds (G : σ → σ → Prop) (i : Nat) (Q : α → σ → Prop) : Prog σ ω α → σ → Prop
  | .ret a, s => Q a s
  | .act f k, s => ∀ s', S.Rely i s s' → S.inv s' → ∀ o, S.assumed s' (f o s').1 →
      G s' (f o s').1 ∧ Holds G i Q (k (f o s').2) (f o s').1

abbrev Ok (i : Nat) (Q : α → σ → Prop) (p : Prog σ ω α) (s : σ) : Prop :=
  S.Holds (S.may i) i Q p s

/-- A predicate no other thread can invalidate. -/
def Stable (i : Nat) (P : σ → Prop) : Prop :=
  ∀ j s s', i ≠ j → S.inv s → P s → S.may j s s' → S.assumed s s' → P s'

/-- The spec in which what is assumed is assumed of the other threads only. -/
def steady : Spec σ where
  inv := S.inv
  may i s s' := S.may i s s' ∧ S.assumed s s'
  assumed _ _ := True
  fresh := S.fresh
  inv_may h hmay _ := S.inv_may h hmay.1 hmay.2
  fresh_may h hne hf hmay _ := S.fresh_may h hne hf hmay.1 hmay.2

variable {S} {G : σ → σ → Prop} {i : Nat}

variable {P : σ → Prop}

theorem Stable.and {Q : σ → Prop} (hP : S.Stable i P) (hQ : S.Stable i Q) :
    S.Stable i fun s => P s ∧ Q s := fun j s s' hne hinv h hmay has =>
  ⟨hP j s s' hne hinv h.1 hmay has, hQ j s s' hne hinv h.2 hmay has⟩

theorem Stable.const (P : Prop) : S.Stable i fun _ => P := fun _ _ _ _ _ h _ _ => h

variable {s : σ}

theorem Rely.stable (hP : S.Stable i P) {s' : σ} (h : S.Rely i s s') (hs : P s) : P s' := by
  induction h with
  | refl => exact hs
  | tail _ hstep ih =>
    obtain ⟨j, hne, hinv, hmay, has⟩ := hstep
    exact hP j _ _ hne hinv ih hmay has

theorem Holds.rely {p : Prog σ ω Unit} {s' : σ} (h : S.Holds G i (fun _ _ => True) p s)
    (hrely : S.Rely i s s') : S.Holds G i (fun _ _ => True) p s' := by
  cases p with
  | ret a => trivial
  | act f k => exact fun s'' h'' => h s'' (hrely.trans h'')

variable {Q : α → σ → Prop}

theorem Holds.bind {R : β → σ → Prop} {k : α → Prog σ ω β} (hp : S.Holds G i Q p s)
    (hk : ∀ a s, Q a s → S.Holds G i R (k a) s) : S.Holds G i R (p >>= k) s := by
  induction p generalizing s with
  | ret a => exact hk a s hp
  | act f k' ih =>
    intro s' hrely hinv o has
    obtain ⟨hg, hok⟩ := hp s' hrely hinv o has
    exact ⟨hg, ih _ hok⟩

theorem Holds.bindOk {ε : Type} {Q : Except ε α → σ → Prop} {R : β → σ → Prop}
    {p : Prog σ ω (Except ε α)} {k : Except ε α → Prog σ ω β} (hp : S.Holds G i Q p s)
    (herr : ∀ e s, Q (.error e) s → S.Holds G i R (k (.error e)) s)
    (hok : ∀ a s, Q (.ok a) s → S.Holds G i R (k (.ok a)) s) : S.Holds G i R (p >>= k) s := by
  refine hp.bind fun r w hw => ?_
  cases r with
  | error e => exact herr e w hw
  | ok a => exact hok a w hw

theorem Holds.ret {f : α → β} (a : α) (s : σ) (_ : Q a s) :
    S.Holds G i (fun _ _ => True) (.ret (f a) : Prog σ ω β) s := trivial

theorem Holds.mono {R : α → σ → Prop} (hp : S.Holds G i Q p s)
    (hQ : ∀ a s, Q a s → R a s) : S.Holds G i R p s := by
  induction p generalizing s with
  | ret a => exact hQ a s hp
  | act f k ih =>
    intro s' hrely hinv o has
    obtain ⟨hg, hok⟩ := hp s' hrely hinv o has
    exact ⟨hg, ih _ hok⟩

theorem Holds.weaken {G' : σ → σ → Prop} (hG : ∀ s s', G s s' → G' s s') (hp : S.Holds G i Q p s) :
    S.Holds G' i Q p s := by
  induction p generalizing s with
  | ret a => exact hp
  | act f k ih =>
    intro s' hrely hinv o has
    obtain ⟨hg, hok⟩ := hp s' hrely hinv o has
    exact ⟨hG _ _ hg, ih _ hok⟩

theorem Holds.of_steady (hp : S.steady.Holds G i Q p s) : S.Holds G i Q p s := by
  induction p generalizing s with
  | ret a => exact hp
  | act f k ih =>
    intro s' hrely hinv o _
    have hrely : S.steady.Rely i s s' := by
      refine Relation.ReflTransGen.mono (fun _ _ hstep => ?_) _ _ hrely
      obtain ⟨j, hne, hinv, hmay, has⟩ := hstep
      exact ⟨j, hne, hinv, ⟨hmay, has⟩, trivial⟩
    obtain ⟨hg, hok⟩ := hp s' hrely hinv o trivial
    exact ⟨hg, ih _ hok⟩

theorem Holds.any : S.Holds (fun _ _ => True) i (fun _ _ => True) p s := by
  induction p generalizing s with
  | ret a => trivial
  | act f k ih => exact fun _ _ _ _ _ => ⟨trivial, ih _⟩

theorem Holds.and {G' : σ → σ → Prop} {R : α → σ → Prop} (h : S.Holds G i Q p s)
    (h' : S.Holds G' i R p s) :
    S.Holds (fun s s' => G s s' ∧ G' s s') i (fun a s => Q a s ∧ R a s) p s := by
  induction p generalizing s with
  | ret a => exact ⟨h, h'⟩
  | act f k ih =>
    intro s' hrely hinv o has
    obtain ⟨hg, hok⟩ := h s' hrely hinv o has
    obtain ⟨hg', hok'⟩ := h' s' hrely hinv o has
    exact ⟨⟨hg, hg'⟩, ih _ hok hok'⟩

/-- What neither the others nor the program itself can invalidate still holds at the
end. -/
theorem Holds.carry (h : S.Holds G i Q p s) (hP : S.Stable i P) (hG : ∀ s s', G s s' → P s → P s')
    (hs : P s) : S.Holds G i (fun a s => Q a s ∧ P s) p s := by
  induction p generalizing s with
  | ret a => exact ⟨h, hs⟩
  | act f k ih =>
    intro s' hrely hinv o has
    obtain ⟨hg, hok⟩ := h s' hrely hinv o has
    exact ⟨hg, ih _ hok (hG _ _ hg (hrely.stable hP hs))⟩

/-- One action, from a state described by a stable predicate. -/
theorem Holds.step {Q : β → σ → Prop} {f : ω → σ → σ × β} (hP : S.Stable i P) (hs : P s)
    (h : ∀ s o, S.inv s → P s → S.assumed s (f o s).1 → G s (f o s).1 ∧ Q (f o s).2 (f o s).1) :
    S.Holds G i Q (Prog.step f) s := by
  intro s' hrely hinv o has
  exact h s' o hinv (hrely.stable hP hs) has

theorem Holds.read {Q : β → σ → Prop} {f : ω → σ → σ × β} (hG : ∀ s, G s s)
    (hf : ∀ o s, (f o s).1 = s) (hP : S.Stable i P) (hs : P s)
    (hQ : ∀ s o, S.inv s → P s → Q (f o s).2 s) : S.Holds G i Q (Prog.step f) s :=
  Holds.step hP hs fun s o hinv hs _ => by
    rw [hf]
    exact ⟨hG s, hQ s o hinv hs⟩

end Spec

/-! ### Programs that are safe action by action -/

def Prog.All (R : σ → σ → Prop) : Prog σ ω α → Prop
  | .ret _ => True
  | .act f k => (∀ o s, R s (f o s).1) ∧ ∀ b, (k b).All R

/-- Whatever its actions answer, the program returns only what satisfies `Q`. -/
def Prog.Returns (Q : α → Prop) : Prog σ ω α → Prop
  | .ret a => Q a
  | .act _ k => ∀ b, (k b).Returns Q

theorem Prog.Returns.bind {Q : α → Prop} {Q' : β → Prop} {k : α → Prog σ ω β} (hp : p.Returns Q)
    (hk : ∀ a, Q a → (k a).Returns Q') : (p >>= k).Returns Q' := by
  induction p with
  | ret a => exact hk a hp
  | act f k' ih => exact fun b => ih b (hp b)

theorem Prog.Returns.any {p : Prog σ ω α} : p.Returns fun _ => True := by
  induction p with
  | ret a => trivial
  | act f k ih => exact fun b => ih b

variable {s : σ}

theorem Spec.Holds.returns {S : Spec σ} {Q : α → σ → Prop} {R : α → Prop} (hp : S.Holds G i Q p s)
    (hR : p.Returns R) : S.Holds G i (fun a s => Q a s ∧ R a) p s := by
  induction p generalizing s with
  | ret a => exact ⟨hp, hR⟩
  | act f k ih =>
    intro s' hrely hinv o has
    obtain ⟨hg, hok⟩ := hp s' hrely hinv o has
    exact ⟨hg, ih _ hok (hR _)⟩

variable {p : Prog σ ω α}

namespace Prog.All

variable {R : σ → σ → Prop}

theorem pure (a : α) : (Pure.pure a : Prog σ ω α).All R := trivial

theorem ret {f : α → β} (a : α) : (.ret (f a) : Prog σ ω β).All R := trivial

theorem step {f : ω → σ → σ × β} (h : ∀ o s, R s (f o s).1) : (Prog.step f).All R :=
  ⟨h, fun _ => trivial⟩

theorem bind {k : α → Prog σ ω β} (hp : p.All R) (hk : ∀ a, (k a).All R) : (p >>= k).All R := by
  induction p with
  | ret a => exact hk a
  | act f k' ih => exact ⟨hp.1, fun b => ih b (hp.2 b)⟩

theorem bindOk {ε : Type} {p : Prog σ ω (Except ε α)} {k : Except ε α → Prog σ ω β} (hp : p.All R)
    (herr : ∀ e, (k (.error e)).All R) (hok : ∀ a, (k (.ok a)).All R) : (p >>= k).All R := by
  refine bind hp fun r => ?_
  cases r with
  | error e => exact herr e
  | ok a => exact hok a

theorem bind_returns {Q : α → Prop} {k : α → Prog σ ω β} (hp : p.All R) (hQ : p.Returns Q)
    (hk : ∀ a, Q a → (k a).All R) : (p >>= k).All R := by
  induction p with
  | ret a => exact hk a hQ
  | act f k' ih => exact ⟨hp.1, fun b => ih b (hp.2 b) (hQ b)⟩

theorem mono {R' : σ → σ → Prop} (hR : ∀ s s', R s s' → R' s s') (hp : p.All R) : p.All R' := by
  induction p with
  | ret a => trivial
  | act f k ih => exact ⟨fun o s => hR _ _ (hp.1 o s), fun b => ih b (hp.2 b)⟩

theorem any (h : ∀ s s', R s s') (p : Prog σ ω α) : p.All R := by
  induction p with
  | ret a => trivial
  | act f k ih => exact ⟨fun _ _ => h _ _, fun b => ih b⟩

theorem within {τ : Type} {get : τ → σ} {put : σ → τ → τ} {R' : τ → τ → Prop}
    (h : ∀ t s, R (get t) s → R' t (put s t)) (hp : p.All R) : (p.within get put).All R' := by
  induction p with
  | ret a => trivial
  | act f k ih => exact ⟨fun _ _ => h _ _ (hp.1 _ _), fun b => ih b (hp.2 b)⟩

theorem holds {S : Spec σ} {G : σ → σ → Prop} {i : Nat} {p : Prog σ ω α} {s : σ}
    (hp : p.All fun s s' => S.inv s → S.assumed s s' → G s s') :
    S.Holds G i (fun _ _ => True) p s := by
  induction p generalizing s with
  | ret a => trivial
  | act f k ih => exact fun s' _ hinv o has => ⟨hp.1 o s' hinv has, ih _ (hp.2 _)⟩

theorem holds_of_stable {S : Spec σ} {G : σ → σ → Prop} {i : Nat} {P : σ → Prop}
    (hP : S.Stable i P) {p : Prog σ ω α} {s : σ} (hs : P s)
    (hp : p.All fun s s' => S.inv s → P s → S.assumed s s' → G s s' ∧ P s') :
    S.Holds G i (fun _ s => P s) p s := by
  induction p generalizing s with
  | ret a => exact hs
  | act f k ih =>
    intro s' hrely hinv o has
    obtain ⟨hg, hs'⟩ := hp.1 o s' hinv (hrely.stable hP hs) has
    exact ⟨hg, ih _ hs' (hp.2 _)⟩

end Prog.All

/-- Once an action of the program is a `D` transition, all that follow are `R`
transitions. -/
def Prog.Until (D R : σ → σ → Prop) : Prog σ ω α → Prop
  | .ret _ => True
  | .act f k => ∀ o s, (D s (f o s).1 → (k (f o s).2).All R) ∧ (k (f o s).2).Until D R

namespace Prog.Until

variable {D R : σ → σ → Prop}

theorem of_all (hp : p.All R) : p.Until D R := by
  induction p with
  | ret a => trivial
  | act f k ih => exact fun o s => ⟨fun _ => hp.2 _, ih _ (hp.2 _)⟩

theorem bind {k : α → Prog σ ω β} (hp : p.All fun s s' => ¬ D s s')
    (hk : ∀ a, (k a).Until D R) : (p >>= k).Until D R := by
  induction p with
  | ret a => exact hk a
  | act f k' ih => exact fun o s => ⟨fun hd => absurd hd (hp.1 o s), ih _ (hp.2 _)⟩

theorem bind_all {k : α → Prog σ ω β} (hp : p.Until D R) (hk : ∀ a, (k a).All R) :
    (p >>= k).Until D R := by
  induction p with
  | ret a => exact of_all (hk a)
  | act f k' ih => exact fun o s => ⟨fun hd => ((hp o s).1 hd).bind hk, ih _ (hp o s).2⟩

theorem thenAll {ε : Type} {p : Prog σ ω (Except ε α)} {k : Except ε α → Prog σ ω β}
    (hp : p.Until D R) (herr : ∀ e, (k (.error e)).All R) (hok : ∀ a, (k (.ok a)).All R) :
    (p >>= k).Until D R := by
  refine hp.bind_all fun r => ?_
  cases r with
  | error e => exact herr e
  | ok a => exact hok a

end Prog.Until

theorem StepBy.keeps_all {j : Nat} (h : StepBy sys j op c c')
    (hi : ∃ op p, c.threads i = some (op, p) ∧ p.All R) :
    ∃ op p, c'.threads i = some (op, p) ∧ p.All R := by
  obtain ⟨op', p, hp, hall⟩ := hi
  by_cases hij : i = j
  · subst hij
    cases h with
    | spawn hnone _ => simp [hnone] at hp
    | run o hj =>
      cases hj.symm.trans hp
      exact ⟨op, _, by simp [Config.set]; rfl, hall.2 _⟩
    | crash _ => exact ⟨op, .ret (), by simp [Config.set], trivial⟩
  · cases h <;> exact ⟨op', p, by simp [Config.set, hij, hp], hall⟩

/-- What holds of every program and of what is left of it after an action holds of
every thread. -/
theorem Config.thread_of_reach {T : Nat → ι → Prog σ ω Unit → Prop}
    (hprog : ∀ i op, sys.enabled op → T i op (sys.prog i op)) (hret : ∀ i op, T i op (.ret ()))
    (hact : ∀ i op {β : Type} {f : ω → σ → σ × β} {k}, T i op (.act f k) →
      ∀ o s, T i op (k (f o s).2))
    (h : Reach sys (.init s) c) {p : Prog σ ω Unit}
    (hi : c.threads i = some (op, p)) : T i op p := by
  induction h generalizing i op p with
  | refl => simp [Config.init] at hi
  | tail _ hstep ih =>
    have hset {c : Config σ ω ι} {s : σ} {j : Nat} {op' : ι} {p' : Prog σ ω Unit}
        (hold : ∀ {i op p}, c.threads i = some (op, p) → T i op p) (hp' : T j op' p')
        (hi : (c.set s j op' p').threads i = some (op, p)) : T i op p := by
      by_cases hij : i = j
      · subst hij
        obtain ⟨rfl, rfl⟩ : op' = op ∧ p' = p := by simpa [Config.set] using hi
        exact hp'
      · exact hold (by simpa [Config.set, hij] using hi)
    obtain ⟨j, op', hby⟩ := hstep
    cases hby with
    | spawn _ hop => exact hset ih (hprog j op' hop) hi
    | run o hj => exact hset ih (hact _ _ (ih hj) o _) hi
    | crash hj => exact hset ih (hret _ _) hi

/-- What every program does action by action, every thread still does. -/
theorem Prog.All.of_reach {R : Nat → ι → σ → σ → Prop}
    (hprog : ∀ i op, sys.enabled op → (sys.prog i op).All (R i op)) (h : Reach sys (.init s) c)
    {p : Prog σ ω Unit} (hi : c.threads i = some (op, p)) : p.All (R i op) :=
  Config.thread_of_reach (T := fun i op p => p.All (R i op)) hprog (fun _ _ => trivial)
    (fun _ _ _ _ _ h _ _ => h.2 _) h hi

/-! ### Whole runs -/

/-- Every thread of the configuration is safe and the invariant holds. -/
structure Safe (S : Spec σ) (c : Config σ ω ι) : Prop where
  inv : S.inv c.state
  thread : ∀ i op p, c.threads i = some (op, p) → S.Ok i (fun _ _ => True) p c.state
  fresh : ∀ i, c.threads i = none → S.fresh i c.state

def Spec.Reach (S : Spec σ) (sys : System σ ω ι) : Config σ ω ι → Config σ ω ι → Prop :=
  Relation.ReflTransGen fun c c' => Step sys c c' ∧ S.assumed c.state c'.state

/-- Every program that can be started is safe, and so is a crash. -/
structure Spec.Sound (S : Spec σ) (sys : System σ ω ι) : Prop where
  prog : ∀ i op s, sys.enabled op → S.inv s → S.fresh i s →
    S.Ok i (fun _ _ => True) (sys.prog i op) s
  crash : ∀ i s, S.inv s → S.may i s (sys.crash i s)

variable {S : Spec σ} {sys : System σ ω ι}

/-- Every step of a safe configuration is one its thread may make. -/
theorem Safe.may (hsound : S.Sound sys) (hc : Safe S c) (hstep : StepBy sys i op c c')
    (has : S.assumed c.state c'.state) : c'.state = c.state ∨ S.may i c.state c'.state := by
  cases hstep with
  | spawn _ _ => exact .inl rfl
  | run o hi => exact .inr (hc.thread _ _ _ hi c.state .refl hc.inv o has).1
  | crash _ => exact .inr (hsound.crash _ _ hc.inv)

theorem Safe.set (hc : Safe S c) {p : Prog σ ω Unit} (hinv : S.inv s)
    (hok : S.Ok i (fun _ _ => True) p s) (hrely : ∀ j, j ≠ i → S.Rely j c.state s)
    (hfresh : ∀ j, j ≠ i → S.fresh j c.state → S.fresh j s) : Safe S (c.set s i op p) := by
  refine ⟨hinv, fun j op' p' hj => ?_, fun j hj => ?_⟩
  · by_cases hij : j = i
    · subst hij
      obtain ⟨-, rfl⟩ : op = op' ∧ p = p' := by simpa [Config.set] using hj
      exact hok
    · have hj' : c.threads j = some (op', p') := by simpa [Config.set, hij] using hj
      exact (hc.thread j op' p' hj').rely (hrely j hij)
  · by_cases hij : j = i
    · simp [Config.set, hij] at hj
    · have hj' : c.threads j = none := by simpa [Config.set, hij] using hj
      exact hfresh j hij (hc.fresh j hj')

theorem Safe.move (hc : Safe S c) {p : Prog σ ω Unit} (hmay : S.may i c.state s)
    (has : S.assumed c.state s) (hok : S.Ok i (fun _ _ => True) p s) : Safe S (c.set s i op p) :=
  hc.set (S.inv_may hc.inv hmay has) hok (fun _ hj => .single ⟨i, hj, hc.inv, hmay, has⟩)
    (fun _ hj hfresh => S.fresh_may hc.inv hj hfresh hmay has)

theorem Safe.step (hsound : S.Sound sys) (hc : Safe S c) (hstep : Step sys c c')
    (has : S.assumed c.state c'.state) : Safe S c' := by
  obtain ⟨i, op, hstep⟩ := hstep
  cases hstep with
  | spawn hnone hop =>
    exact hc.set hc.inv (hsound.prog _ _ _ hop hc.inv (hc.fresh _ hnone)) (fun _ _ => .refl)
      (fun _ _ h => h)
  | run o hi =>
    obtain ⟨hmay, hok⟩ := hc.thread i op _ hi c.state .refl hc.inv o has
    exact hc.move hmay has hok
  | crash hi => exact hc.move (hsound.crash i _ hc.inv) has trivial

theorem Safe.reach (hsound : S.Sound sys) (hc : Safe S c) (hreach : S.Reach sys c c') :
    Safe S c' := by
  induction hreach with
  | refl => exact hc
  | tail _ hstep ih => exact ih.step hsound hstep.1 hstep.2

theorem Safe.preserves (hsound : S.Sound sys) {P : σ → Prop}
    (hP : ∀ i s s', S.inv s → S.may i s s' → S.assumed s s' → P s → P s') (hc : Safe S c)
    (hreach : S.Reach sys c c') (hs : P c.state) : P c'.state := by
  induction hreach with
  | refl => exact hs
  | tail hreach hstep ih =>
    obtain ⟨⟨i, op, hby⟩, has⟩ := hstep
    have hmid := hc.reach hsound hreach
    rcases hmid.may hsound hby has with heq | hmay
    · exact heq ▸ ih
    · exact hP i _ _ hmid.inv hmay has ih

theorem Safe.init (hinv : S.inv s) (hfresh : ∀ i, S.fresh i s) :
    Safe S (Config.init s : Config σ ω ι) :=
  ⟨hinv, fun _ _ _ h => by simp [Config.init] at h, fun i _ => hfresh i⟩

/-- Whatever the first spec allows and takes into account, so does the second. -/
structure Spec.Within (S S' : Spec σ) : Prop where
  inv : ∀ {s}, S.inv s → S'.inv s
  may : ∀ {i s s'}, S.may i s s' → S.assumed s s' → S'.may i s s'
  assumed : ∀ {s s'}, S.assumed s s' → S'.assumed s s'

theorem Spec.Within.refl : S.Within S := ⟨id, fun h _ => h, id⟩

/-- What the programs keep to besides, label by label, every thread still keeps to; it
may be proved where more is taken into account than on the run. -/
theorem Safe.guarantee {S' : Spec σ} (hsound : S.Sound sys) (hsub : S.Within S')
    {G : Nat → ι → σ → σ → Prop}
    (hprog : ∀ i op s, sys.enabled op → S.inv s → S.fresh i s →
      S'.Holds (G i op) i (fun _ _ => True) (sys.prog i op) s)
    (hinit : Safe S (Config.init s : Config σ ω ι)) (hreach : S.Reach sys (.init s) c)
    {p : Prog σ ω Unit}
    (hi : c.threads i = some (op, p)) : S'.Holds (G i op) i (fun _ _ => True) p c.state := by
  induction hreach generalizing i op p with
  | refl => simp [Config.init] at hi
  | @tail c c' hreach hstep ih =>
    obtain ⟨⟨j, op', hby⟩, has⟩ := hstep
    have hc := hinit.reach hsound hreach
    -- A thread that did not move has seen one transition of another.
    have hother {s' : σ} {p' : Prog σ ω Unit} (hij : i ≠ j)
        (hi : (c.set s' j op' p').threads i = some (op, p)) (hrely : S'.Rely i c.state s') :
        S'.Holds (G i op) i (fun _ _ => True) p s' :=
      (ih (by simpa [Config.set, hij] using hi)).rely hrely
    have hself {s' : σ} {p' : Prog σ ω Unit} (hij : i = j)
        (hi : (c.set s' j op' p').threads i = some (op, p)) : op' = op ∧ p' = p := by
      simpa [Config.set, hij] using hi
    have hmoved {s' : σ} (hij : i ≠ j) (hmay : S.may j c.state s') (has : S.assumed c.state s') :
        S'.Rely i c.state s' :=
      .single ⟨j, hij, hsub.inv hc.inv, hsub.may hmay has, hsub.assumed has⟩
    cases hby with
    | spawn hnone hop =>
      by_cases hij : i = j
      · obtain ⟨rfl, rfl⟩ := hself hij hi
        subst hij
        exact hprog i op' _ hop hc.inv (hc.fresh i hnone)
      · exact hother hij hi .refl
    | run o hj =>
      by_cases hij : i = j
      · obtain ⟨rfl, rfl⟩ := hself hij hi
        subst hij
        exact (ih hj _ .refl (hsub.inv hc.inv) o (hsub.assumed has)).2
      · exact hother hij hi (hmoved hij (hc.thread j op' _ hj _ .refl hc.inv o has).1 has)
    | crash hj =>
      by_cases hij : i = j
      · obtain ⟨rfl, rfl⟩ := hself hij hi
        trivial
      · exact hother hij hi (hmoved hij (hsound.crash j _ hc.inv) has)

/-- Every step of a run keeps to what its thread's program does, spawns and crashes
apart. -/
theorem Safe.step_guarantee {S' : Spec σ} (hsound : S.Sound sys) (hsub : S.Within S')
    {G : Nat → ι → σ → σ → Prop}
    (hprog : ∀ i op s, sys.enabled op → S.inv s → S.fresh i s →
      S'.Holds (G i op) i (fun _ _ => True) (sys.prog i op) s)
    (hinit : Safe S (Config.init s : Config σ ω ι)) (hreach : S.Reach sys (.init s) c)
    (hstep : StepBy sys i op c c') (has : S'.assumed c.state c'.state) :
    c'.state = c.state ∨ c'.state = sys.crash i c.state ∨ G i op c.state c'.state := by
  cases hstep with
  | spawn _ _ => exact .inl rfl
  | crash _ => exact .inr (.inl rfl)
  | run o hi =>
    have hinv := hsub.inv (hinit.reach hsound hreach).inv
    exact .inr (.inr (hinit.guarantee hsound hsub hprog hreach hi c.state .refl hinv o has).1)

theorem Spec.Reach.of_reachIf {A : σ → σ → Prop} (hA : ∀ s s', A s s' → S.assumed s s')
    (h : ReachIf A sys c c') : S.Reach sys c c' := by
  induction h with
  | refl => exact .refl
  | tail _ hstep ih => exact ih.tail ⟨hstep.1, hA _ _ hstep.2⟩

/-- When nothing is assumed away, every run counts. -/
theorem Spec.Reach.of_reach (hall : ∀ s s', S.assumed s s')
    (h : Conc.Reach sys c c') : S.Reach sys c c' := by
  induction h with
  | refl => exact .refl
  | tail _ hstep ih => exact ih.tail ⟨hstep, hall _ _⟩

/-! ### Layers -/

/-- A further invariant and further restrictions, on top of a spec. -/
structure Layer (S : Spec σ) where
  inv : σ → Prop
  may : Nat → σ → σ → Prop
  assumed : σ → σ → Prop
  fresh : Nat → σ → Prop
  inv_may : ∀ {i s s'}, S.inv s → inv s → S.may i s s' → may i s s' → S.assumed s s' →
    assumed s s' → inv s'
  fresh_may : ∀ {i j s s'}, S.inv s → inv s → i ≠ j → fresh i s → S.may j s s' → may j s s' →
    S.assumed s s' → assumed s s' → fresh i s'

namespace Layer

variable (L : Layer S)

def spec : Spec σ where
  inv s := S.inv s ∧ L.inv s
  may i s s' := S.may i s s' ∧ L.may i s s'
  assumed s s' := S.assumed s s' ∧ L.assumed s s'
  fresh i s := S.fresh i s ∧ L.fresh i s
  inv_may h hm ha := ⟨S.inv_may h.1 hm.1 ha.1, L.inv_may h.1 h.2 hm.1 hm.2 ha.1 ha.2⟩
  fresh_may h hne hf hm ha := ⟨S.fresh_may h.1 hne hf.1 hm.1 ha.1,
    L.fresh_may h.1 h.2 hne hf.2 hm.1 hm.2 ha.1 ha.2⟩

/-- What a program has to satisfy besides being `Ok` for the spec below. -/
abbrev Ok (i : Nat) (Q : α → σ → Prop) (p : Prog σ ω α) (s : σ) : Prop :=
  L.spec.Holds (L.may i) i Q p s

variable {L} {i : Nat}

variable {s : σ}

theorem rely_base {s' : σ} (h : L.spec.Rely i s s') : S.Rely i s s' := by
  induction h with
  | refl => exact .refl
  | tail _ hstep ih =>
    obtain ⟨j, hne, hinv, hmay, has⟩ := hstep
    exact ih.tail ⟨j, hne, hinv.1, hmay.1, has.1⟩

variable {Q : α → σ → Prop}

theorem Ok.spec {R : α → σ → Prop} (hbase : S.Ok i Q p s) (h : L.Ok i R p s) :
    L.spec.Ok i (fun a s => Q a s ∧ R a s) p s := by
  induction p generalizing s with
  | ret a => exact ⟨hbase, h⟩
  | act f k ih =>
    intro s' hrely hinv o has
    obtain ⟨hmay, hok⟩ := hbase s' (rely_base hrely) hinv.1 o has.1
    obtain ⟨hmay', hok'⟩ := h s' hrely hinv o has
    exact ⟨⟨hmay, hmay'⟩, ih _ hok hok'⟩

theorem holds_base {G : σ → σ → Prop} (h : S.Holds G i Q p s) : L.spec.Holds G i Q p s := by
  induction p generalizing s with
  | ret a => exact h
  | act f k ih =>
    intro s' hrely hinv o has
    obtain ⟨hg, hok⟩ := h s' (rely_base hrely) hinv.1 o has.1
    exact ⟨hg, ih _ hok⟩

/-- A layer whose transitions are all transitions of the spec below. -/
theorem sound_of_may (hmay : ∀ i s s', L.may i s s' → S.may i s s')
    (hprog : ∀ i op s, sys.enabled op → L.spec.inv s → L.spec.fresh i s →
      L.Ok i (fun _ _ => True) (sys.prog i op) s)
    (hcrash : ∀ i s, L.spec.inv s → L.may i s (sys.crash i s)) : L.spec.Sound sys where
  prog i op s hop hinv hfresh :=
    (hprog i op s hop hinv hfresh).weaken fun _ _ h => ⟨hmay _ _ _ h, h⟩
  crash i s hinv := ⟨hmay _ _ _ (hcrash i s hinv), hcrash i s hinv⟩

def atop (L B : Layer S) : Layer B.spec where
  inv := L.inv
  may := L.may
  assumed := L.assumed
  fresh := L.fresh
  inv_may hs hi hm hm' ha ha' := L.inv_may hs.1 hi hm.1 hm' ha.1 ha'
  fresh_may hs hi hij hf hm hm' ha ha' := L.fresh_may hs.1 hi hij hf hm.1 hm' ha.1 ha'

theorem rely_atop {B : Layer S} {s' : σ} (h : (L.atop B).spec.Rely i s s') :
    L.spec.Rely i s s' := by
  induction h with
  | refl => exact .refl
  | tail _ hstep ih =>
    obtain ⟨j, hne, hinv, hmay, has⟩ := hstep
    exact ih.tail ⟨j, hne, ⟨hinv.1.1, hinv.2⟩, ⟨hmay.1.1, hmay.2⟩, has.1.1, has.2⟩

theorem holds_atop {B : Layer S} {G : σ → σ → Prop}
    (h : L.spec.Holds G i Q p s) : (L.atop B).spec.Holds G i Q p s := by
  induction p generalizing s with
  | ret a => exact h
  | act f k ih =>
    intro s' hrely hinv o has
    obtain ⟨hg, hok⟩ := h s' (rely_atop hrely) ⟨hinv.1.1, hinv.2⟩ o ⟨has.1.1, has.2⟩
    exact ⟨hg, ih _ hok⟩

theorem sound (hbase : S.Sound sys)
    (hprog : ∀ i op s, sys.enabled op → L.spec.inv s → L.spec.fresh i s →
      L.Ok i (fun _ _ => True) (sys.prog i op) s)
    (hcrash : ∀ i s, L.spec.inv s → L.may i s (sys.crash i s)) : L.spec.Sound sys where
  prog i op s hop hinv hfresh :=
    (Ok.spec (hbase.prog i op s hop hinv.1 hfresh.1) (hprog i op s hop hinv hfresh)).mono
      fun _ _ _ => trivial
  crash i s hinv := ⟨hbase.crash i s hinv.1, hcrash i s hinv⟩

end Layer

end Conc
