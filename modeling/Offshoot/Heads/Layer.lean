import Offshoot.Heads.Moves
import Offshoot.System.BasesSound

/-!
# The layer of the moves

A thread moves a head only to an object it has uploaded, under a lease it has had, and
removes the object only when the move is not made and can no longer be.  What it knows
in between is kept by every act of the others, since an epoch has one holder.
-/

namespace Offshoot

open Conc Maps

variable {env : Env} {assumed : World → World → Prop} {w w' : World} {i j : Nat}
  {b : BranchId} {l : Lineage} {e t : Nat} {k : DataKey} {P Q : World → Prop}
variable {a : Act}

def Act.headless : Act → Prop
  | write _ op _ | grant _ op _ _ | send _ op _ _ => op.head = .none
  | drop k => ∃ l, k.initial l
  | sweep .. => False
  | _ => True

/-- Acts that make no move, whatever they remove. -/
def Act.moveless : Act → Prop
  | write _ op _ | grant _ op _ _ | send _ op _ _ => op.head = .none
  | _ => True

theorem Act.headless.moveless (h : a.headless) : a.moveless := by
  cases a <;> trivial

theorem Act.moveless.vouched (h : a.moveless) (hok : a.ok env i w) : a.vouched HeadReady i w := by
  cases a with
  | write _ op _ | grant _ op _ _ | send _ op _ _ =>
    intro c hc
    rw [show op.head = Option.none from h] at hc
    cases hc
  | effect b e r =>
    intro c hc
    rw [RefOp.plain_head hok.2.2] at hc
    cases hc
  | sendDelete _ => exact fun _ hc => by cases hc
  | _ => trivial

theorem Act.headless.vouched (h : a.headless) (hok : a.ok env i w) :
    a.vouched HeadReady i w := h.moveless.vouched hok

theorem Act.headless.clears (h : a.headless) : a.clears i w := by
  cases a with
  | drop k =>
    intro l' e t hs
    obtain ⟨l, hk⟩ := h
    exact .inl (hk.epoch hs).le
  | sweep _ _ => exact h.elim
  | _ => trivial

def HeadStep (env : Env) (X : World → Act → Prop) (i : Nat) (w w' : World) : Prop :=
  ∃ a : Act, a.ok env i w ∧ a.vouched HeadReady i w ∧ a.clears i w ∧ X w a ∧ a.run i w = w'

/-! ## Knowledge -/

/-- A predicate every act keeps but the moves and removals of thread `i`. -/
structure Lasts (env : Env) (i : Nat) (P : World → Prop) : Prop where
  step : ∀ {j : Nat} {w : World} {a : Act}, RefsInv env w → HeadInv w → a.ok env j w →
    a.vouched HeadReady j w → a.clears j w → (j = i → a.headless) → P w → P (a.run j w)

theorem Lasts.of_log (hP : ∀ {w w'}, w.log ⊆ w'.log → P w → P w') : Lasts env i P :=
  ⟨fun {_ _ a} _ _ _ _ _ _ hw => hP a.log_run.subset hw⟩

theorem Lasts.true : Lasts env i fun _ => True := ⟨fun _ _ _ _ _ _ _ => trivial⟩

theorem Lasts.held : Lasts env i fun w => w.Held i l e t :=
  .of_log fun hlog (h : World.Held _ i l e t) => h.mono hlog

/-- A write of thread `j` itself moves a head only as its holder. -/
theorem Act.head_by (hok : a.ok env j w) (hv : a.vouched HeadReady j w) {op : RefOp}
    {c : HeadCommit} (hop : a.op = some (b, op)) (hc : op.head = some c) :
    c.holder = j ∧ w.Owner c.lineage c.epoch j ∧ ¬ a.moveless := by
  cases a with
  | write b' op' after =>
    obtain ⟨rfl, rfl⟩ : b' = b ∧ op' = op := by simpa [Act.op] using hop
    have hh := RefOp.by_head hc hok.2
    refine ⟨hh, hh ▸ (hv c hc).2.1, fun h => ?_⟩
    rw [show op'.head = Option.none from h] at hc
    cases hc
  | grant b' op' _ _ =>
    obtain ⟨rfl, rfl⟩ : b' = b ∧ op' = op := by simpa [Act.op] using hop
    rw [RefOp.plain_head hok.2.1] at hc
    cases hc
  | effect b' e _ =>
    obtain ⟨rfl, rfl⟩ : b' = b ∧ .edit e = op := by simpa [Act.op] using hop
    rw [RefOp.plain_head hok.2.2] at hc
    cases hc
  | _ => simp [Act.op] at hop

/-- The moves that land with an act: one its thread makes, or one that was pending. -/
theorem RefsInv.moved_run (hr : RefsInv env w) (hok : a.ok env j w) {c : HeadCommit}
    (hc : (a.run j w).Moved c) : w.Moved c ∨ ∃ b op r, op.head = some c ∧
      op.apply (w.refs.lookup b) = some (some r) ∧
      (a.op = some (b, op) ∨ ∃ j', Pending.ref j' b op (w.refs.lookup b) r ∈ w.pending) := by
  rcases hr.effects hok with hun | ⟨j', b, op, after, hw, hsrc⟩
  · exact .inl (hun.moved.mp hc)
  cases after with
  | none => exact .inl (hw.moved_none.mp hc)
  | some r =>
    rcases hw.moved.mp hc with hc | hc
    · refine .inr ⟨b, op, r, hc, hw.apply, ?_⟩
      rcases hsrc with ⟨-, hop⟩ | ⟨r', hr', hp⟩ | ⟨rfl, -⟩
      · exact .inl hop
      · cases hr'
        exact .inr ⟨j', hp⟩
      · cases hc
    · exact .inl hc

theorem Unsent.lasts : Lasts env i (Unsent i) := by
  refine ⟨fun {j w a} hr _ hok hv _ hi h =>
    ⟨fun {c} hc => ?_, fun {j' b op before after c} hp hc => ?_⟩⟩
  · rcases hr.moved_run hok hc with hc | ⟨b, op, r, hop, -, hsrc | ⟨j', hp⟩⟩
    · exact h.moved hc
    · obtain ⟨hh, -, hhead⟩ := Act.head_by hok hv hsrc hop
      exact fun hci => hhead (hi (hh.symm.trans hci)).moveless
    · exact h.sent hp hop
  · rcases Act.pending_cases hp with hp | ⟨rfl, rfl⟩
    · exact h.sent hp hc
    · intro hci
      have hhead : op.head = none := hi ((RefOp.by_head hc hok.2.2).symm.trans hci)
      rw [hhead] at hc
      cases hc

structure Has (i : Nat) (l : Lineage) (e t : Nat) (k : DataKey) (w : World) : Prop where
  held : w.Held i l e t
  mem : k ∈ w.objs

theorem Has.lasts (hs : k.slot = some (l, e, t)) : Lasts env i (Has i l e t k) := by
  refine ⟨fun {j w a} hr _ hok _ hcl hi h => ⟨Lasts.held.step hr ‹_› hok ‹_› hcl hi h.held, ?_⟩⟩
  have he := hr.epoch_owner h.held.owner
  rcases Act.mem_objs (i := j) (a := a) h.mem with hk | rfl | ⟨t, rfl⟩
  · exact hk
  · rcases hcl l e t hs with hle | ⟨hheld, -⟩
    · omega
    · obtain ⟨l', hk⟩ := hi (hr.owner hheld.owner h.held.owner)
      have := hk.epoch hs
      omega
  · exact hcl.elim

/-- The thread has had the lease, and no move to the txid is made or can be. -/
structure Ended (i : Nat) (l : Lineage) (e t : Nat) (w : World) : Prop where
  held : w.Held i l e t
  spent : w.Spent l e t

theorem Ended.run (he : Ended i l e t w) (hr : RefsInv env w) (h : HeadInv w) (hok : a.ok env j w)
    (hv : a.vouched HeadReady j w) (hi : j = i → a.moveless) : Ended i l e t (a.run j w) := by
  have hlog : w.log ⊆ (a.run j w).log := a.log_run.subset
  have hmine {x : Holder} (ho : w.Owner l e x) : x = i := hr.owner ho he.held.owner
  refine ⟨he.held.mono hlog, fun {c} hc hcl hce hct => ?_,
    fun {j' b op before after c} hp hc hcl hce hct => ?_⟩
  · subst hcl hce hct
    rcases hr.moved_run hok hc with hc | ⟨b, op, r, hop, happly, hsrc | ⟨j', hp⟩⟩
    · exact he.spent.moved hc rfl rfl rfl
    · obtain ⟨-, ho, hhead⟩ := Act.head_by hok hv hsrc hop
      exact hhead (hi (hmine ho))
    · -- It would land on a record with the lease, which is over.
      obtain ⟨r₀, hr₀, hours, -⟩ := RefOp.head_frame hop happly
      obtain ⟨hh, hre, hrl, -⟩ := HeadCommit.ours_iff.mp hours
      refine h.fence hr₀ (by simp [hh]) ?_
      rw [hre, hrl]
      exact he.spent.sent hp hop rfl rfl rfl
  · rcases Act.pending_cases hp with hp | ⟨rfl, rfl⟩
    · exact (he.spent.sent hp hc hcl hce hct).mono hlog
    subst hcl hce hct
    obtain ⟨-, ho, -⟩ := hv c hc
    have hhead : op.head = none := hi ((RefOp.by_head hc hok.2.2).symm.trans (hmine ho))
    rw [hhead] at hc
    cases hc

theorem Ended.lasts : Lasts env i (Ended i l e t) :=
  ⟨fun hr h hok hv _ hi he => he.run hr h hok hv fun hj => (hi hj).moveless⟩

theorem Unsent.spent (h : Unsent i w) (hr : RefsInv env w) (hh : HeadInv w)
    (hheld : w.Held i l e t) : Ended i l e t w := by
  refine ⟨hheld, fun {c} hc hcl hce _ => ?_, fun {j b op before after c} hp hc hcl hce _ => ?_⟩
  · subst hcl hce
    exact h.moved hc (hr.owner (hh.owner hc) hheld.owner)
  · subst hcl hce
    exact absurd (hr.owner (hh.sent _ _ _ _ _ hp c hc).2.1 hheld.owner) (h.sent hp hc)

/-! ## The layer -/

def headLayer (env : Env) (assumed : World → World → Prop) :
    Layer (baseLayer env fun _ _ => True).spec where
  inv := HeadInv
  may := HeadStep env fun _ _ => True
  assumed := assumed
  fresh := Unsent
  inv_may := by
    rintro i w w' hinv h hmay ⟨a, hok, hv, hcl, -, rfl⟩ has -
    obtain ⟨hr', hb'⟩ := (baseLayer env fun _ _ => True).spec.inv_may hinv hmay has
    exact h.run hinv.1 hr' hb' hok (fun hw => follows_of_may hinv.1 hmay.1 hw) hv hcl
  fresh_may := by
    rintro i j w w' hinv h hne hf - ⟨a, hok, hv, hcl, -, rfl⟩ - -
    exact Unsent.lasts.step hinv.1 h hok hv hcl (fun hji => absurd hji.symm hne) hf

abbrev HeadOk (env : Env) (assumed : World → World → Prop) (X : World → Act → Prop) (i : Nat)
    (Q : α → World → Prop) (p : M α) (w : World) : Prop :=
  (headLayer env assumed).spec.Holds (HeadStep env X i) i Q p w

theorem Lasts.stable (hP : Lasts env i P) : (headLayer env assumed).spec.Stable i P := by
  rintro j w w' hne hinv hw ⟨-, a, hok, hv, hcl, -, rfl⟩ -
  exact hP.step hinv.1.1 hinv.2 hok hv hcl (fun h => absurd h.symm hne) hw

variable {X : World → Act → Prop}

theorem HeadStep.refl (hX : X w .none) : HeadStep env X i w w :=
  ⟨.none, trivial, trivial, trivial, hX, rfl⟩

theorem Does.heads {A : Act → Prop} {p : M α} (hp : Does env i A p)
    (hA : ∀ a, A a → a.headless ∧ ∀ w, X w a) (hP : Lasts env i P) (hw : P w) :
    HeadOk env assumed X i (fun _ w => P w) p w := by
  refine Prog.All.holds_of_stable hP.stable hw (Prog.All.mono ?_ hp)
  rintro w w' ⟨a, ha, hok, rfl⟩ hinv hw -
  obtain ⟨hh, hX⟩ := hA a ha
  exact ⟨⟨a, hok, hh.vouched hok, hh.clears, hX w, rfl⟩,
    hP.step hinv.1.1 hinv.2 hok (hh.vouched hok) hh.clears (fun _ => hh) hw⟩

end Offshoot
