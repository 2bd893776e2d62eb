import Offshoot.Lib.Concurrent

/-!
# Runs with their past

A run together with the actions taken in it, newest first.  Threads that start or crash take
no action.

`Prog.From` says what a program does as long as its own actions keep to an assumption, and
what it then returns.  `Prog.Before` says what is left of a program until it takes an action
of some kind.
-/

namespace Conc

open List

variable {σ ω α β ι : Type}
variable {i : Nat} {p : Prog σ ω α} {R : σ → σ → Prop}

abbrev Action (σ ω : Type) : Type 1 := Σ β : Type, (ω → σ → σ × β)

def Prog.first : Prog σ ω α → Option (Action σ ω)
  | .ret _ => none
  | .act f _ => some ⟨_, f⟩

/-- An action that was taken: by which thread, what was left of its program, what the
environment decided, and the states before and after. -/
structure Taken (σ ω : Type) : Type 1 where
  thread : Nat
  prog : Prog σ ω Unit
  oracle : ω
  before : σ
  after : σ

inductive Traced (sys : System σ ω ι) (c₀ : Config σ ω ι) :
    List (Taken σ ω) → Config σ ω ι → Prop
  | start : Traced sys c₀ [] c₀
  | spawn {past : List (Taken σ ω)} {c : Config σ ω ι} {i : Nat} {op : ι} : Traced sys c₀ past c →
      c.threads i = none → sys.enabled op →
      Traced sys c₀ past (c.set c.state i op (sys.prog i op))
  | run {past : List (Taken σ ω)} {c : Config σ ω ι} {i : Nat} {op : ι} {β : Type}
      {f : ω → σ → σ × β} {k : β → Prog σ ω Unit} (o : ω) : Traced sys c₀ past c →
      c.threads i = some (op, .act f k) →
      Traced sys c₀ (⟨i, .act f k, o, c.state, (f o c.state).1⟩ :: past)
        (c.set (f o c.state).1 i op (k (f o c.state).2))
  | crash {past : List (Taken σ ω)} {c : Config σ ω ι} {i : Nat} {op : ι} {p : Prog σ ω Unit} :
      Traced sys c₀ past c → c.threads i = some (op, p) →
      Traced sys c₀ past (c.set (sys.crash i c.state) i op (.ret ()))

variable {sys : System σ ω ι} {c₀ c c' : Config σ ω ι} {past : List (Taken σ ω)}

theorem Traced.reach (h : Traced sys c₀ past c) : Reach sys c₀ c := by
  induction h with
  | start => exact .refl
  | spawn _ hnone hop ih => exact ih.tail ⟨_, _, .spawn hnone hop⟩
  | run o _ hi ih => exact ih.tail ⟨_, _, .run o hi⟩
  | crash _ hi ih => exact ih.tail ⟨_, _, .crash hi⟩

theorem Traced.of_reach (h : Traced sys c₀ past c) (hreach : Reach sys c c') :
    ∃ newer, Traced sys c₀ (newer ++ past) c' := by
  induction hreach with
  | refl => exact ⟨[], h⟩
  | tail _ hstep ih =>
    obtain ⟨newer, ih⟩ := ih
    obtain ⟨i, op, hstep⟩ := hstep
    cases hstep with
    | spawn hnone hop => exact ⟨newer, .spawn ih hnone hop⟩
    | run o hi => exact ⟨_ :: newer, .run o ih hi⟩
    | crash hi => exact ⟨newer, .crash ih hi⟩

variable {newer : List (Taken σ ω)}

theorem Traced.split (h : Traced sys c₀ (newer ++ past) c) :
    ∃ c₁, Traced sys c₀ past c₁ ∧ Traced sys c₁ newer c := by
  generalize hall : newer ++ past = all at h
  induction h generalizing newer with
  | start =>
    obtain ⟨rfl, rfl⟩ := append_eq_nil_iff.mp hall
    exact ⟨c₀, .start, .start⟩
  | spawn _ hnone hop ih =>
    obtain ⟨c₁, hpast, hnewer⟩ := ih hall
    exact ⟨c₁, hpast, .spawn hnewer hnone hop⟩
  | @run all c i op β f k o hrun hi ih =>
    cases newer with
    | nil =>
      obtain rfl : past = _ := hall
      exact ⟨_, .run o hrun hi, .start⟩
    | cons y newer =>
      obtain ⟨hy, hall⟩ := List.cons.inj hall
      obtain ⟨c₁, hpast, hnewer⟩ := ih hall
      exact ⟨c₁, hpast, hy ▸ .run o hnewer hi⟩
  | crash _ hi ih =>
    obtain ⟨c₁, hpast, hnewer⟩ := ih hall
    exact ⟨c₁, hpast, .crash hnewer hi⟩

theorem Traced.trans {c₁ : Config σ ω ι} (h : Traced sys c₀ past c₁)
    (h' : Traced sys c₁ newer c) : Traced sys c₀ (newer ++ past) c := by
  induction h' with
  | start => exact h
  | spawn _ hnone hop ih => exact .spawn ih hnone hop
  | run o _ hi ih => exact .run o ih hi
  | crash _ hi ih => exact .crash ih hi

variable {y : Taken σ ω}

theorem Traced.last (h : Traced sys c₀ (y :: past) c) :
    ∃ c₁ op, ∃ β : Type, ∃ (f : ω → σ → σ × β) (k : β → Prog σ ω Unit),
      Traced sys c₀ past c₁ ∧ Traced sys c₁ [y] c ∧ c₁.threads y.thread = some (op, y.prog) ∧
      y.prog = .act f k ∧ y.before = c₁.state ∧ y.after = (f y.oracle y.before).1 := by
  generalize hall : y :: past = all at h
  induction h with
  | start => cases hall
  | spawn _ hnone hop ih =>
    obtain ⟨c₁, op, β, f, k, hpast, hy, hrest⟩ := ih hall
    exact ⟨c₁, op, β, f, k, hpast, .spawn hy hnone hop, hrest⟩
  | @run all c i op β f k o hrun hi =>
    cases hall
    exact ⟨c, op, β, f, k, hrun, .run o .start hi, hi, rfl, rfl, rfl⟩
  | crash _ hi ih =>
    obtain ⟨c₁, op, β, f, k, hpast, hy, hrest⟩ := ih hall
    exact ⟨c₁, op, β, f, k, hpast, .crash hy hi, hrest⟩

variable {o : ω}

theorem Traced.runs_one (h : Traced sys c₀ past c) (hrun : c.runs i o 1 = some c') :
    ∃ y : Taken σ ω, Traced sys c₀ (y :: past) c' ∧
      y.thread = i ∧ y.before = c.state ∧ y.after = c'.state := by
  rw [Config.runs] at hrun
  split at hrun
  · rename_i op β f k hi
    cases hrun
    exact ⟨_, .run o h hi, rfl, rfl, rfl⟩
  · cases hrun

/-! ## What every thread does -/

variable {op : ι}

theorem Config.set_threads {s : σ} {j : Nat} {op' : ι} {p p' : Prog σ ω Unit}
    (h : (c.set s j op' p').threads i = some (op, p)) :
    i = j ∧ op' = op ∧ p' = p ∨ i ≠ j ∧ c.threads i = some (op, p) := by
  by_cases hij : i = j
  · exact .inl ⟨hij, by simpa [Config.set, hij] using h⟩
  · exact .inr ⟨hij, by simpa [Config.set, hij] using h⟩

theorem Traced.started (h : Traced sys c₀ past c) (hi : c.threads i = none) :
    ∀ y ∈ past, y.thread ≠ i := by
  have hset {c : Config σ ω ι} {s : σ} {j : Nat} {op : ι} {p : Prog σ ω Unit}
      (hi : (c.set s j op p).threads i = none) : j ≠ i ∧ c.threads i = none := by
    by_cases hij : i = j
    · simp [Config.set, hij] at hi
    · exact ⟨Ne.symm hij, by simpa [Config.set, hij] using hi⟩
  induction h with
  | start => simp
  | spawn _ _ _ ih => exact ih (hset hi).2
  | run o _ _ ih =>
    rw [forall_mem_cons]
    exact ⟨(hset hi).1, ih (hset hi).2⟩
  | crash _ _ ih => exact ih (hset hi).2

variable {I : σ → Prop}

/-- What every action of every thread keeps, and every crash, holds throughout a run. -/
theorem Traced.keeps (h : Traced sys c₀ past c)
    (hprog : ∀ i op, sys.enabled op → (sys.prog i op).All R)
    (hthread : ∀ i op p, c₀.threads i = some (op, p) → p.All R) (hR : ∀ s s', R s s' → I s → I s')
    (hcrash : ∀ i s, I s → I (sys.crash i s)) (hI : I c₀.state) :
    I c.state ∧ (∀ y ∈ past, I y.before ∧ R y.before y.after) ∧
      ∀ i op p, c.threads i = some (op, p) → p.All R := by
  have hset {c : Config σ ω ι} {s : σ} {j : Nat} {op' : ι} {p' : Prog σ ω Unit}
      (hold : ∀ i op p, c.threads i = some (op, p) → p.All R) (hp' : p'.All R) (i : Nat) (op : ι)
      (p : Prog σ ω Unit) (hi : (c.set s j op' p').threads i = some (op, p)) : p.All R := by
    obtain ⟨-, -, rfl⟩ | ⟨-, hi⟩ := Config.set_threads hi
    · exact hp'
    · exact hold i op p hi
  induction h with
  | start => exact ⟨hI, by simp, hthread⟩
  | spawn _ _ hop ih => exact ⟨ih.1, ih.2.1, hset ih.2.2 (hprog _ _ hop)⟩
  | run o _ hi ih =>
    obtain ⟨hact, hrest⟩ := ih.2.2 _ _ _ hi
    refine ⟨hR _ _ (hact o _) ih.1, ?_, hset ih.2.2 (hrest _)⟩
    rw [forall_mem_cons]
    exact ⟨⟨ih.1, hact o _⟩, ih.2.1⟩
  | crash _ _ ih => exact ⟨hcrash _ _ ih.1, ih.2.1, hset ih.2.2 trivial⟩

/-! ## Programs whose own actions keep to an assumption -/

/-- As long as its actions satisfy `A` they are `R` transitions, and a result satisfies
`Q`. -/
def Prog.From (A : Action σ ω → σ → σ → Prop) (R : σ → σ → Prop) (Q : α → Prop) : Prog σ ω α → Prop
  | .ret a => Q a
  | .act f k => ∀ o s, A ⟨_, f⟩ s (f o s).1 → R s (f o s).1 ∧ (k (f o s).2).From A R Q

namespace Prog.From

variable {A : Action σ ω → σ → σ → Prop} {R : σ → σ → Prop} {Q : α → Prop}

theorem pure {a : α} (h : Q a) : (Pure.pure a : Prog σ ω α).From A R Q := h

theorem step {f : ω → σ → σ × α} (h : ∀ o s, A ⟨_, f⟩ s (f o s).1 → R s (f o s).1 ∧ Q (f o s).2) :
    (Prog.step f).From A R Q := h

theorem bind {Q' : β → Prop} {k : α → Prog σ ω β} (hp : p.From A R Q)
    (hk : ∀ a, Q a → (k a).From A R Q') : (p >>= k).From A R Q' := by
  induction p with
  | ret a => exact hk a hp
  | act f k' ih => exact fun o s ha => ⟨(hp o s ha).1, ih _ (hp o s ha).2⟩

theorem bindOk {ε : Type} {Q : Except ε α → Prop} {Q' : β → Prop}
    {p : Prog σ ω (Except ε α)} {k : Except ε α → Prog σ ω β} (hp : p.From A R Q)
    (herr : ∀ e, Q (.error e) → (k (.error e)).From A R Q')
    (hok : ∀ a, Q (.ok a) → (k (.ok a)).From A R Q') : (p >>= k).From A R Q' := by
  refine bind hp fun r hr => ?_
  cases r with
  | error e => exact herr e hr
  | ok a => exact hok a hr

theorem of_all {R' : σ → σ → Prop} (hp : p.All R') (h : ∀ a s s', A a s s' → R' s s' → R s s') :
    p.From A R fun _ => True := by
  induction p with
  | ret a => trivial
  | act f k ih => exact fun o s ha => ⟨h _ _ _ ha (hp.1 o s), ih _ (hp.2 _)⟩

theorem mono {Q' : α → Prop} (hp : p.From A R Q) (hQ : ∀ a, Q a → Q' a) : p.From A R Q' := by
  induction p with
  | ret a => exact hQ a hp
  | act f k ih => exact fun o s ha => ⟨(hp o s ha).1, ih _ (hp o s ha).2⟩

end Prog.From

/-- A thread whose actions have kept to the assumption goes on as its program says. -/
theorem Traced.goes_on {A : Action σ ω → σ → σ → Prop} (h : Traced sys c₀ past c)
    (hprog : ∀ op, sys.enabled op → (sys.prog i op).From A R fun _ => True)
    (hthread : ∀ op p, c₀.threads i = some (op, p) → p.From A R fun _ => True)
    (hA : ∀ y ∈ past, y.thread = i → ∀ a, y.prog.first = some a → A a y.before y.after)
    {p : Prog σ ω Unit} (hi : c.threads i = some (op, p)) : p.From A R fun _ => True := by
  induction h generalizing op p with
  | start => exact hthread op p hi
  | spawn _ _ hop ih =>
    obtain ⟨rfl, rfl, rfl⟩ | ⟨-, hi⟩ := Config.set_threads hi
    · exact hprog _ hop
    · exact ih hA hi
  | run o _ hj ih =>
    rw [forall_mem_cons] at hA
    obtain ⟨rfl, rfl, rfl⟩ | ⟨-, hi⟩ := Config.set_threads hi
    · exact (ih hA.2 hj o _ (hA.1 rfl _ rfl)).2
    · exact ih hA.2 hi
  | crash _ _ ih =>
    obtain ⟨rfl, rfl, rfl⟩ | ⟨-, hi⟩ := Config.set_threads hi
    · trivial
    · exact ih hA hi

/-- The newest action of a run in which its thread kept to the assumption. -/
theorem Traced.guarantee {A : Action σ ω → σ → σ → Prop} (h : Traced sys c₀ (y :: past) c)
    (hprog : ∀ op, sys.enabled op → (sys.prog y.thread op).From A R fun _ => True)
    (hthread : ∀ op p, c₀.threads y.thread = some (op, p) → p.From A R fun _ => True)
    (hA : ∀ z ∈ y :: past, z.thread = y.thread → ∀ a, z.prog.first = some a →
      A a z.before z.after) : R y.before y.after := by
  rw [forall_mem_cons] at hA
  obtain ⟨c₁, op, β, f, k, hpast, -, hi, hprog', -, hafter⟩ := h.last
  have hfrom := hpast.goes_on hprog hthread hA.2 hi
  have hy := hA.1 rfl
  rw [hprog'] at hfrom hy
  rw [hafter] at hy ⊢
  exact (hfrom y.oracle y.before (hy _ rfl)).1

/-! ## Programs until an action of some kind -/

/-- `P` holds of what is left of the program until it has taken an action in `D`. -/
def Prog.Before (D : Action σ ω → Prop) (P : Prog σ ω Unit → Prop) : Prog σ ω Unit → Prop
  | .ret a => P (.ret a)
  | .act f k => P (.act f k) ∧ (¬ D ⟨_, f⟩ → ∀ o s, (k (f o s).2).Before D P)

namespace Prog.Before

variable {D : Action σ ω → Prop} {P : Prog σ ω Unit → Prop}

theorem now {p : Prog σ ω Unit} (h : p.Before D P) : P p := by
  cases p with
  | ret a => exact h
  | act f k => exact h.1

theorem of_first {p : Prog σ ω Unit} {a : Action σ ω} (hp : p.first = some a) (hD : D a)
    (hP : P p) : p.Before D P := by
  cases p with
  | ret _ => cases hp
  | act f k =>
    cases hp
    exact ⟨hP, fun h => absurd hD h⟩

theorem bind {k : α → Prog σ ω Unit} (hp : p.All R) (hP : ∀ q : Prog σ ω α, q.All R → P (q >>= k))
    (hk : ∀ a, (k a).Before D P) : (p >>= k).Before D P := by
  induction p with
  | ret a => exact hk a
  | act f k' ih => exact ⟨hP (.act f k') hp, fun _ o s => ih _ (hp.2 _)⟩

theorem of_all (hP : ∀ p : Prog σ ω Unit, p.All R → P p) {p : Prog σ ω Unit} (hp : p.All R) :
    p.Before D P := by
  induction p with
  | ret a => exact hP _ hp
  | act f k ih => exact ⟨hP _ hp, fun _ o s => ih _ (hp.2 _)⟩

end Prog.Before

/-- A thread has taken such an action, or is still before it. -/
theorem Traced.before (h : Traced sys c₀ past c)
    (hprog : ∀ op, sys.enabled op → (sys.prog i op).Before D P) (hret : P (.ret ()))
    (hthread : c₀.threads i = none) {p : Prog σ ω Unit} (hi : c.threads i = some (op, p)) :
    (∃ y ∈ past, y.thread = i ∧ ∃ a, y.prog.first = some a ∧ D a) ∨ p.Before D P := by
  induction h generalizing op p with
  | start =>
    rw [hthread] at hi
    cases hi
  | spawn _ _ hop ih =>
    obtain ⟨rfl, rfl, rfl⟩ | ⟨-, hi⟩ := Config.set_threads hi
    · exact .inr (hprog _ hop)
    · exact ih hi
  | @run past c j op' β f k o _ hj ih =>
    have hold {x : Taken σ ω} {op : ι} {p : Prog σ ω Unit} (hi : c.threads i = some (op, p)) :
        (∃ y ∈ x :: past, y.thread = i ∧ ∃ a, y.prog.first = some a ∧ D a) ∨ p.Before D P := by
      refine (ih hi).imp_left fun hy => ?_
      obtain ⟨y, hy, hD⟩ := hy
      exact ⟨y, mem_cons_of_mem _ hy, hD⟩
    obtain ⟨rfl, rfl, rfl⟩ | ⟨-, hi⟩ := Config.set_threads hi
    · by_cases hD : D ⟨β, f⟩
      · exact .inl ⟨_, mem_cons_self, rfl, _, rfl, hD⟩
      · exact (hold hj).imp_right fun hbefore => hbefore.2 hD o _
    · exact hold hi
  | crash _ _ ih =>
    obtain ⟨rfl, rfl, rfl⟩ | ⟨-, hi⟩ := Config.set_threads hi
    · exact .inr hret
    · exact ih hi

/-! ## Calls and what they return -/

/-- The last action of a call hands its result to the caller, which `mark` makes visible. -/
def Prog.returning (mark : α → σ → σ) (r : α) : Prog σ ω Unit :=
  .act (fun _ s => (mark r s, r)) fun _ => .ret ()

variable {p₀ : Prog σ ω α}

section Calls

variable {mark : α → σ → σ}

theorem Prog.bind_returning_ne_ret : (p >>= returning mark) ≠ .ret () := by
  cases p with
  | ret a => exact fun h => by cases h
  | act f k => exact fun h => by cases h

theorem Prog.eq_of_returning {r : α} (o : ω) (s : σ)
    (h : (p >>= returning mark) = returning mark r) : p = .ret r := by
  cases p with
  | ret a =>
    injection h with _ hf
    have hpair := congrFun (congrFun hf o) s
    rw [(Prod.mk.inj hpair).2]
  | act f k =>
    injection h with hβ _ hk
    subst hβ
    exact absurd (congrFun (eq_of_heq hk) r) bind_returning_ne_ret

/-- As long as the actions of a part of thread `i`'s program satisfy `A` with what happened
before, it ends with a past and a result that satisfy `Q`.  `K` is what follows the part. -/
def Prog.Tells (i : Nat) (A : List (Taken σ ω) → Taken σ ω → Prop) (K : α → Prog σ ω Unit)
    (Q : List (Taken σ ω) → α → Prop) : List (Taken σ ω) → Prog σ ω α → Prop
  | past, .ret a => Q past a
  | past, .act f k => ∀ others o s, (∀ x ∈ others, x.thread ≠ i) →
      A (others ++ past) ⟨i, .act f k >>= K, o, s, (f o s).1⟩ →
      (k (f o s).2).Tells i A K Q (⟨i, .act f k >>= K, o, s, (f o s).1⟩ :: (others ++ past))

namespace Prog.Tells

variable {i : Nat} {A : List (Taken σ ω) → Taken σ ω → Prop} {Q : List (Taken σ ω) → α → Prop}

theorem bind {K : β → Prog σ ω Unit} {Q' : List (Taken σ ω) → β → Prop} {k : α → Prog σ ω β}
    (hp : p.Tells i A (fun a => k a >>= K) Q past)
    (hk : ∀ a past, Q past a → (k a).Tells i A K Q' past) : (p >>= k).Tells i A K Q' past := by
  induction p generalizing past with
  | ret a => exact hk a past hp
  | act f k' ih =>
    intro others o s hothers hA
    have heq : (Prog.act f k' >>= k >>= K) = (Prog.act f k' >>= fun a => k a >>= K) :=
      Prog.bind_assoc _ _ _
    have hA : A (others ++ past) ⟨i, Prog.act f k' >>= k >>= K, o, s, (f o s).1⟩ := hA
    rw [heq] at hA
    have htells := ih _ (hp others o s hothers hA)
    rw [← heq] at htells
    exact htells

variable {K : α → Prog σ ω Unit}

theorem mono {Q' : List (Taken σ ω) → α → Prop} (hp : p.Tells i A K Q past)
    (hQ : ∀ past a, Q past a → Q' past a) : p.Tells i A K Q' past := by
  induction p generalizing past with
  | ret a => exact hQ _ a hp
  | act f k ih => exact fun others o s hothers hA => ih _ (hp others o s hothers hA)

theorem returns {R : α → Prop} (hp : p.Tells i A K Q past)
    (hR : p.Returns R) : p.Tells i A K (fun past a => Q past a ∧ R a) past := by
  induction p generalizing past with
  | ret a => exact ⟨hp, hR⟩
  | act f k ih => exact fun others o s hothers hA => ih _ (hp others o s hothers hA) (hR _)

theorem any : p.Tells i A K (fun _ _ => True) past := by
  induction p generalizing past with
  | ret a => trivial
  | act f k ih => exact fun _ _ _ _ _ => ih _

end Prog.Tells

theorem Traced.tells {A : List (Taken σ ω) → Taken σ ω → Prop} {Q : List (Taken σ ω) → α → Prop}
    (hprog : sys.prog i op = p₀ >>= Prog.returning mark)
    (htells : ∀ past, (∀ x ∈ past, x.thread ≠ i) → p₀.Tells i A (.returning mark) Q past)
    (h : Traced sys c₀ past c) (hnone : c₀.threads i = none)
    (hA : ∀ newer z older, past = newer ++ z :: older → z.thread = i → A older z)
    {p : Prog σ ω Unit} (hi : c.threads i = some (op, p)) :
    p = .ret () ∨ ∃ others older q, past = others ++ older ∧ (∀ x ∈ others, x.thread ≠ i) ∧
      p = q >>= Prog.returning mark ∧ q.Tells i A (.returning mark) Q older := by
  induction h generalizing p with
  | start =>
    rw [hnone] at hi
    cases hi
  | @spawn past c j op' hrun hj hop ih =>
    obtain ⟨rfl, rfl, rfl⟩ | ⟨-, hi⟩ := Config.set_threads hi
    · exact .inr ⟨[], past, p₀, rfl, by simp, hprog, htells past (hrun.started hj)⟩
    · exact ih hA hi
  | @run past c j op' β f k o hrun hj ih =>
    have hA' : ∀ newer z older, past = newer ++ z :: older → z.thread = i → A older z :=
      fun newer z older hpast => hA (_ :: newer) z older (congrArg _ hpast)
    obtain ⟨rfl, rfl, rfl⟩ | ⟨hij, hi⟩ := Config.set_threads hi
    · obtain hret | ⟨others, older, q, rfl, hothers, hq, hq'⟩ := ih hA' hj
      · cases hret
      cases q with
      | ret a =>
        injection hq with hβ hf hk
        subst hβ
        exact .inl (congrFun (eq_of_heq hk) _)
      | act f' k' =>
        injection hq with hβ hf hk
        subst hβ
        obtain rfl := eq_of_heq hf
        obtain rfl := eq_of_heq hk
        exact .inr ⟨[], _, k' (f o c.state).2, rfl, by simp, rfl,
          hq' others o c.state hothers (hA [] _ _ rfl rfl)⟩
    · refine (ih hA' hi).imp_right ?_
      rintro ⟨others, older, q, rfl, hothers, hq⟩
      refine ⟨_ :: others, older, q, rfl, ?_, hq⟩
      rw [forall_mem_cons]
      exact ⟨hij.symm, hothers⟩
  | crash _ hj ih =>
    obtain ⟨rfl, rfl, rfl⟩ | ⟨-, hi⟩ := Config.set_threads hi
    · exact .inl rfl
    · exact ih hA hi

theorem Traced.keeps_label {p : Prog σ ω Unit} (h : Traced sys c₀ past c)
    (hi : c₀.threads i = some (op, p)) : ∃ q, c.threads i = some (op, q) := by
  have hreach := h.reach
  clear h
  induction hreach with
  | refl => exact ⟨p, hi⟩
  | tail _ hstep ih =>
    obtain ⟨q, hq⟩ := ih
    obtain ⟨j, op', hstep⟩ := hstep
    exact hstep.keeps_label hq

theorem Traced.returned {A : List (Taken σ ω) → Taken σ ω → Prop} {Q : List (Taken σ ω) → α → Prop}
    {q : Prog σ ω Unit} {r : α} (h : Traced sys c₀ (y :: past) c)
    (hnone : c₀.threads y.thread = none) (hprog : sys.prog y.thread op = p₀ >>= Prog.returning mark)
    (htells : ∀ past, (∀ x ∈ past, x.thread ≠ y.thread) →
      p₀.Tells y.thread A (.returning mark) Q past)
    (hA : ∀ newer z older, past = newer ++ z :: older → z.thread = y.thread → A older z)
    (hy : y.prog = Prog.returning mark r) (hop : c.threads y.thread = some (op, q)) :
    ∃ others older, past = others ++ older ∧ (∀ x ∈ others, x.thread ≠ y.thread) ∧ Q older r := by
  obtain ⟨c₁, op', β, f, k, hpast, hlast, hi, -⟩ := h.last
  obtain ⟨q', hq'⟩ := hlast.keeps_label hi
  cases hq'.symm.trans hop
  rw [hy] at hi
  obtain hret | ⟨others, older, q, rfl, hothers, hq, hq'⟩ := hpast.tells hprog htells hnone hA hi
  · cases hret
  · obtain rfl := Prog.eq_of_returning y.oracle y.before hq.symm
    exact ⟨others, older, rfl, hothers, hq'⟩

theorem Traced.hands_over (h : Traced sys c₀ past c) (hnone : c₀.threads i = none)
    (hprog : sys.prog i op = p₀ >>= Prog.returning mark) (hrun : c.runs i o 1 = some c')
    (hend : c'.threads i = some (op, .ret ())) :
    ∃ (y : Taken σ ω) (r : α), Traced sys c₀ (y :: past) c' ∧ y.thread = i ∧
      y.prog = Prog.returning mark r ∧ y.before = c.state ∧ c'.state = mark r c.state := by
  rw [Config.runs] at hrun
  split at hrun
  · rename_i op' β f k hi
    cases hrun
    obtain ⟨rfl, hk⟩ : op' = op ∧ k (f o c.state).2 = .ret () := by
      simpa [Config.set] using hend
    have htells := h.tells (A := fun _ _ => True) (Q := fun _ _ => True) hprog
      (fun _ _ => .any) hnone (fun _ _ _ _ _ => trivial) hi
    obtain hret | ⟨others, older, q, rfl, hothers, hq, -⟩ := htells
    · cases hret
    cases q with
    | ret r =>
      refine ⟨_, r, .run o h hi, rfl, hq, rfl, ?_⟩
      injection hq with hβ hf hk
      subst hβ
      obtain rfl := eq_of_heq hf
      rfl
    | act f' k' =>
      injection hq with hβ hf hk'
      subst hβ
      obtain rfl := eq_of_heq hk'
      exact absurd hk Prog.bind_returning_ne_ret
  · cases hrun

end Calls

/-! ## States along a run -/

/-- Every action of a sound system is one its thread may take. -/
theorem Traced.may {S : Spec σ} (h : Traced sys c₀ past c) (hsound : S.Sound sys)
    (hall : ∀ s s', S.assumed s s') (hinit : Safe S c₀) :
    ∀ x ∈ past, S.inv x.before ∧ S.may x.thread x.before x.after := by
  induction h with
  | start => simp
  | spawn _ _ _ ih => exact ih
  | run o hrun hi ih =>
    have hsafe := hinit.reach hsound (.of_reach hall hrun.reach)
    rw [forall_mem_cons]
    exact ⟨⟨hsafe.inv, (hsafe.thread _ _ _ hi _ .refl hsafe.inv o (hall _ _)).1⟩, ih⟩
  | crash _ _ ih => exact ih

theorem Traced.acted (h : Traced sys c₀ past c) : ∀ x ∈ past, ∃ β : Type,
    ∃ (f : ω → σ → σ × β) (k : β → Prog σ ω Unit), x.prog = .act f k ∧
      x.after = (f x.oracle x.before).1 := by
  induction h with
  | start => simp
  | spawn _ _ _ ih => exact ih
  | run o _ _ ih =>
    rw [forall_mem_cons]
    exact ⟨⟨_, _, _, rfl, rfl⟩, ih⟩
  | crash _ _ ih => exact ih

theorem Traced.preserves (h : Traced sys c₀ past c) (hstep : ∀ x ∈ past, I x.before → I x.after)
    (hcrash : ∀ i s, I s → I (sys.crash i s)) (hI : I c₀.state) : I c.state := by
  induction h with
  | start => exact hI
  | spawn _ _ _ ih => exact ih hstep
  | run o _ _ ih =>
    rw [forall_mem_cons] at hstep
    exact hstep.1 (ih hstep.2)
  | crash _ _ ih => exact hcrash _ _ (ih hstep)

theorem Traced.since {z : Taken σ ω} (h : Traced sys c₀ (newer ++ z :: past) c)
    (hstep : ∀ x ∈ newer, I x.before → I x.after) (hcrash : ∀ i s, I s → I (sys.crash i s))
    (hI : I z.after) : I c.state := by
  generalize hall : newer ++ z :: past = all at h
  induction h generalizing newer with
  | start => simp at hall
  | spawn _ _ _ ih => exact ih hstep hall
  | run o _ _ ih =>
    cases newer with
    | nil =>
      cases hall
      exact hI
    | cons x newer =>
      obtain ⟨rfl, hrest⟩ := List.cons.inj hall
      rw [forall_mem_cons] at hstep
      exact hstep.1 (ih hstep.2 hrest)
  | crash _ _ ih => exact hcrash _ _ (ih hstep hall)

/-! ## Schedules whose actions pass a test -/

def Config.tested (c : Config σ ω ι) (test : Taken σ ω → Bool) (i : Nat) (o : ω) :
    Nat → Option (Config σ ω ι)
  | 0 => some c
  | n + 1 =>
    match c.threads i with
    | some (op, .act f k) =>
      if test ⟨i, .act f k, o, c.state, (f o c.state).1⟩ then
        (c.set (f o c.state).1 i op (k (f o c.state).2)).tested test i o n
      else none
    | _ => none

def Config.moveTested (sys : System σ ω ι) [DecidablePred sys.enabled] (test : Taken σ ω → Bool)
    (c : Config σ ω ι) : Move ω ι → Option (Config σ ω ι)
  | .run i o n => c.tested test i o n
  | .start i op => c.move sys (.start i op)
  | .crash i => c.move sys (.crash i)

/-- The configuration a schedule leads to, if it can be followed and every action of it passes
the test. -/
def Config.playTested (sys : System σ ω ι) [DecidablePred sys.enabled] (test : Taken σ ω → Bool) :
    List (Move ω ι) → Config σ ω ι → Option (Config σ ω ι)
  | [], c => some c
  | m :: ms, c =>
    match c.moveTested sys test m with
    | none => none
    | some c => c.playTested sys test ms

variable {test : Taken σ ω → Bool}

section

variable (h : Traced sys c₀ past c) (hpast : ∀ x ∈ past, test x)

include h hpast

theorem Traced.tested {n : Nat} (hrun : c.tested test i o n = some c') :
    ∃ past', Traced sys c₀ past' c' ∧ ∀ x ∈ past', test x := by
  induction n generalizing c past with
  | zero =>
    cases hrun
    exact ⟨past, h, hpast⟩
  | succ n ih =>
    rw [Config.tested] at hrun
    split at hrun
    · rename_i op β f k hi
      split at hrun
      · rename_i htest
        refine ih (.run o h hi) ?_ hrun
        rw [forall_mem_cons]
        exact ⟨htest, hpast⟩
      · cases hrun
    · cases hrun

theorem Traced.moveTested [DecidablePred sys.enabled] {m : Move ω ι}
    (hmove : c.moveTested sys test m = some c') :
    ∃ past', Traced sys c₀ past' c' ∧ ∀ x ∈ past', test x := by
  cases m with
  | run i o n => exact h.tested hpast hmove
  | start i op =>
    simp only [Config.moveTested, Config.move] at hmove
    split at hmove
    · rename_i hi
      split at hmove
      · rename_i hop
        cases hmove
        exact ⟨past, .spawn h hi hop, hpast⟩
      · cases hmove
    · cases hmove
  | crash i =>
    simp only [Config.moveTested, Config.move] at hmove
    split at hmove
    · rename_i op p hi
      cases hmove
      exact ⟨past, .crash h hi, hpast⟩
    · cases hmove

theorem Traced.playTested [DecidablePred sys.enabled] {ms : List (Move ω ι)}
    (hrun : c.playTested sys test ms = some c') :
    ∃ past', Traced sys c₀ past' c' ∧ ∀ x ∈ past', test x := by
  induction ms generalizing c past with
  | nil =>
    cases hrun
    exact ⟨past, h, hpast⟩
  | cons m ms ih =>
    rw [Config.playTested] at hrun
    split at hrun
    · cases hrun
    · rename_i c₁ hc₁
      obtain ⟨past', h', hpast'⟩ := h.moveTested hpast hc₁
      exact ih h' hpast' hrun

end

end Conc
