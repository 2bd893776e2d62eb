import Offshoot.Store.ChainSound

/-!
# Resolving from reads

A resolution reads the store as it goes: it is run on the answers it has, and when it
needs one it does not have it stops there and asks.  Run on part of the answers, it either
waits for one of the others or ends as it would on the whole store.
-/

namespace Offshoot

variable {κ α : Type} {v v' : View κ} {l start : Lineage} {t fuel : Nat}
  {seen : List Lineage} {S : Lineage → Prop}

def Read.lineage : Read → Lineage
  | .base l | .members l => l

/-- `v` has some of the answers of `v'` and waits for the others. -/
structure View.Part (v v' : View κ) : Prop where
  base : ∀ l, v.base l = .error .uncached ∨ v.base l = v'.base l
  members : ∀ l, v.members l = .error .uncached ∨ v.members l = v'.members l

def View.Lacks (v : View κ) : Read → Prop
  | .base l => v.base l = .error .uncached
  | .members l => v.members l = .error .uncached

/-- A set of lineages closed under base pointers. -/
def View.Closed (v : View κ) (S : Lineage → Prop) : Prop :=
  ∀ {l b}, S l → v.base l = .ok (some b) → S b.lineage

/-- The resolution has stopped at a read, of a lineage of `S`, that is not there yet. -/
def Waits (v : View κ) (S : Lineage → Prop) (x : Except (ChainErr κ) α) : Prop :=
  ∃ e rd, x = .error e ∧ e.root = .read rd .uncached ∧ v.Lacks rd ∧ S rd.lineage

theorem Waits.map {β : Type} {f : α → β} {x : Except (ChainErr κ) α} (h : Waits v S x) :
    Waits v S (x.map f) := by
  obtain ⟨e, rd, rfl, h⟩ := h
  exact ⟨e, rd, rfl, h⟩

theorem Waits.base (hl : S l) (h : v.base l = .error .uncached) :
    Waits v S (.error (.read (.base l) .uncached) : Except (ChainErr κ) α) :=
  ⟨_, .base l, rfl, rfl, h, hl⟩

theorem Waits.members (hl : S l) (h : v.members l = .error .uncached) :
    Waits v S (.error (.read (.members l) .uncached) : Except (ChainErr κ) α) :=
  ⟨_, .members l, rfl, rfl, h, hl⟩

section Part

variable (h : v.Part v') (hS : v'.Closed S) (hl : S l)

include h hS hl

theorem chainFrom_part : Waits v S (chainFrom v fuel l t seen) ∨
    chainFrom v fuel l t seen = chainFrom v' fuel l t seen := by
  induction fuel generalizing l t seen with
  | zero => exact .inr rfl
  | succ fuel ih =>
    rcases h.base l with hb | hb
    · rw [chainFrom, hb]
      exact .inl (.base hl hb)
    rw [chainFrom, chainFrom, hb]
    rcases hbase : v'.base l with e | _ | b
    · exact .inr rfl
    · rcases h.members l with hm | hm
      · simp only [chainSelf, hm]
        exact .inl (.members hl hm)
      · exact .inr (by simp only [chainSelf, hm])
    by_cases hmem : b.lineage ∈ seen
    · exact .inr (by simp only [hmem, if_true])
    by_cases hle : t ≤ b.txid
    · simp only [hmem, if_false, hle, if_true]
      exact ih (hS hl hbase)
    simp only [hmem, hle, if_false]
    rcases h.members l with hm | hm
    · rw [hm]
      exact .inl (.members hl hm)
    rw [hm]
    cases hmembers : v'.members l with
    | error e => exact .inr rfl
    | ok members =>
      dsimp only
      split
      · exact .inr rfl
      · -- Only the base half can wait.
        rcases @ih b.lineage b.txid (b.lineage :: seen) (hS hl hbase) with hw | heq
        · obtain ⟨e, rd, he, hroot, hlacks, hrd⟩ := hw
          rw [he]
          exact .inl ⟨_, rd, rfl, hroot, hlacks, hrd⟩
        · rw [heq]
          exact .inr rfl
      · exact .inr rfl

theorem baseSpineFrom_part : Waits v S (baseSpineFrom v start fuel l seen) ∨
    baseSpineFrom v start fuel l seen = baseSpineFrom v' start fuel l seen := by
  induction fuel generalizing l seen with
  | zero => exact .inr rfl
  | succ fuel ih =>
    rcases h.base l with hb | hb
    · rw [baseSpineFrom, hb]
      exact .inl (.base hl hb)
    rw [baseSpineFrom, baseSpineFrom, hb]
    rcases hbase : v'.base l with e | _ | b
    · exact .inr rfl
    · exact .inr rfl
    by_cases hmem : b.lineage ∈ seen
    · exact .inr (by simp only [hmem, if_true])
    simp only [hmem, if_false]
    rcases @ih b.lineage (b.lineage :: seen) (hS hl hbase) with hw | heq
    · exact .inl hw.map
    · exact .inr (by rw [heq])

theorem chain_part : Waits v S (chain v l t) ∨ chain v l t = chain v' l t := by
  rw [← chainFrom_of_le (le_max_left (v.based.length + 1) (v'.based.length + 1)),
    ← chainFrom_of_le (v := v') (le_max_right (v.based.length + 1) (v'.based.length + 1))]
  exact chainFrom_part h hS hl

theorem baseSpine_part : Waits v S (baseSpine v l) ∨ baseSpine v l = baseSpine v' l := by
  rw [← baseSpineFrom_of_le (le_max_left (v.based.length + 1) (v'.based.length + 1)),
    ← baseSpineFrom_of_le (v := v') (le_max_right (v.based.length + 1) (v'.based.length + 1))]
  exact baseSpineFrom_part h hS hl

end Part

end Offshoot
