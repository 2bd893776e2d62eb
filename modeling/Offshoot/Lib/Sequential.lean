import Offshoot.Lib.Concurrent

/-!
# Programs run alone

A program run with nothing in between has one state at a time.  `Alone A Q p s` says
that, started in `s` and answered only as `A` allows, `p` ends with `Q`: a program always
ends, so this is what the run returns and leaves, not what it would if it ended.
-/

namespace Conc.Prog

variable {σ ω α β : Type} {A : ω → σ → Prop} {Q R : α → σ → Prop} {s : σ}

/-- However the environment answers within `A`, the program ends with `Q`. -/
def Alone (A : ω → σ → Prop) (Q : α → σ → Prop) : Prog σ ω α → σ → Prop
  | ret a, s => Q a s
  | act f k, s => ∀ o, A o s → (k (f o s).2).Alone A Q (f o s).1

namespace Alone

variable {p : Prog σ ω α}

theorem intro (h : ∀ a s, Q a s) : p.Alone A Q s := by
  induction p generalizing s with
  | ret a => exact h a s
  | act f k ih => exact fun o _ => ih _

theorem step {f : ω → σ → σ × β} {Q : β → σ → Prop} (h : ∀ o, A o s → Q (f o s).2 (f o s).1) :
    (Prog.step f).Alone A Q s := h

theorem mono (hp : p.Alone A Q s) (h : ∀ a s, Q a s → R a s) : p.Alone A R s := by
  induction p generalizing s with
  | ret a => exact h a s hp
  | act f k ih => exact fun o ho => ih _ (hp o ho)

theorem bind {k : α → Prog σ ω β} {R : β → σ → Prop} (hp : p.Alone A Q s)
    (hk : ∀ a s, Q a s → (k a).Alone A R s) : (p >>= k).Alone A R s := by
  induction p generalizing s with
  | ret a => exact hk a s hp
  | act f k' ih => exact fun o ho => ih _ (hp o ho)

end Alone

def exec (o : ω) : Prog σ ω α → σ → α × σ
  | ret a, s => (a, s)
  | act f k, s => (k (f o s).2).exec o (f o s).1

theorem Alone.exec {o : ω} (ho : ∀ s, A o s) {p : Prog σ ω α} (h : p.Alone A Q s) :
    Q (p.exec o s).1 (p.exec o s).2 := by
  induction p generalizing s with
  | ret a => exact h
  | act f k ih => exact ih _ (h o (ho s))

end Conc.Prog
