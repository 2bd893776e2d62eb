import Offshoot.Ltx.Image
import Offshoot.Store.Resolved

/-!
# Data objects

The objects under `data/`: snapshots and segments, named by lineage, epoch and
txids, and one base object per lineage forked copy-on-write.  Writers spell a key
in one way only, so a key is the tuple it encodes.
-/

namespace Offshoot

open List

variable {l : Lineage}

open Maps

inductive DataKey where
  | snapshot (lineage : Lineage) (epoch txid : Nat)
  | segment (lineage : Lineage) (epoch minTXID maxTXID : Nat)
  | base (lineage : Lineage)
  deriving DecidableEq, Repr

inductive Obj where
  | snapshot (s : Snapshot)
  | segment (s : Segment)
  | base (b : BasePointer)
  deriving DecidableEq

variable {k : DataKey}

namespace DataKey

def lineage : DataKey → Lineage
  | snapshot l _ _ => l
  | segment l _ _ _ => l
  | base l => l

def parseMember (k : DataKey) : Option (ChainMember DataKey) :=
  match k with
  | snapshot _ e t =>
    some { key := k, snapshot := true, minTXID := 0, maxTXID := t, epoch := e }
  | segment _ e lo hi =>
    some { key := k, snapshot := false, minTXID := lo, maxTXID := hi, epoch := e }
  | base _ => none

theorem parseMember_key {m : ChainMember DataKey} (h : k.parseMember = some m) : m.key = k := by
  cases k <;> simp only [parseMember, Option.some.injEq, reduceCtorEq] at h <;> subst h <;> rfl

/-- The lineage, epoch and txid an object's key is for, if it is for one txid. -/
def slot : DataKey → Option (Lineage × Nat × Nat)
  | .snapshot l e t => some (l, e, t)
  | .segment l e lo hi => if lo = hi then some (l, e, hi) else none
  | .base _ => none

/-- The keys a lineage is prepared with: its base, or copies under its first epoch. -/
def initial (l : Lineage) : DataKey → Prop
  | .snapshot l' e _ => l' = l ∧ e = 1
  | .segment .. => False
  | .base l' => l' = l

theorem initial.lineage (h : k.initial l) : k.lineage = l := by
  cases k with
  | snapshot _ _ _ => exact h.1
  | segment _ _ _ _ => exact h.elim
  | base _ => exact h

variable {e t : Nat}

theorem initial.epoch {l' : Lineage} (h : k.initial l) (hs : k.slot = some (l', e, t)) : e = 1 := by
  cases k with
  | snapshot _ _ _ =>
    obtain ⟨-, rfl, -⟩ : _ ∧ _ = e ∧ _ := by simpa [slot] using hs
    exact h.2
  | segment _ _ _ _ => exact h.elim
  | base _ => cases hs

theorem slot_base {s : Lineage × Nat × Nat} : (base l).slot ≠ some s := by simp [slot]

theorem lineage_slot (h : k.slot = some (l, e, t)) : k.lineage = l := by
  cases k with
  | snapshot l' e' t' =>
    obtain ⟨rfl, -, -⟩ : l' = l ∧ e' = e ∧ t' = t := by simpa [slot] using h
    rfl
  | segment l' e' lo hi =>
    obtain ⟨-, rfl, -, -⟩ : lo = hi ∧ l' = l ∧ e' = e ∧ hi = t := by simpa [slot] using h
    rfl
  | base _ => simp [slot] at h

theorem slot_member {m : ChainMember DataKey} (hs : k.slot = some (l, e, t))
    (hm : k.parseMember = some m) :
    m.maxTXID = t ∧ m.epoch = e ∧ m.byTXID = true ∧ (m.snapshot = true ↔ k = .snapshot l e t) := by
  cases k with
  | snapshot l' e' t' =>
    obtain ⟨rfl, rfl, rfl⟩ : l' = l ∧ e' = e ∧ t' = t := by simpa [slot] using hs
    cases hm
    simp [ChainMember.byTXID]
  | segment l' e' lo hi =>
    simp only [slot] at hs
    split at hs
    · rename_i hlo
      obtain ⟨rfl, rfl, rfl⟩ : l' = l ∧ e' = e ∧ hi = t := by simpa using hs
      cases hm
      simp [ChainMember.byTXID, hlo]
    · cases hs
  | base _ => cases hm

end DataKey

abbrev Objects := Map DataKey Obj

namespace Objects

def members (objs : Objects) (l : Lineage) : List (ChainMember DataKey) :=
  (objs.keys.filter (·.lineage = l)).filterMap DataKey.parseMember

def base (objs : Objects) (l : Lineage) : Except ReadErr (Option BasePointer) :=
  match objs.lookup (.base l) with
  | none => .ok none
  | some (.base b) => .ok (some b)
  | some _ => .error .malformed

variable {objs : Objects}

theorem mem_members {m : ChainMember DataKey} : m ∈ members objs l ↔
      ∃ k obj, objs.lookup k = some obj ∧ k.lineage = l ∧ k.parseMember = some m := by
  simp only [members, mem_filterMap, mem_filter, decide_eq_true_eq]
  constructor
  · rintro ⟨k, ⟨hk, hl⟩, hm⟩
    obtain ⟨obj, hobj⟩ := Option.isSome_iff_exists.mp (AList.lookup_isSome.mpr hk)
    exact ⟨k, obj, hobj, hl, hm⟩
  · rintro ⟨k, obj, hobj, hl, hm⟩
    exact ⟨k, ⟨AList.lookup_isSome.mp (by simp [hobj]), hl⟩, hm⟩

theorem base_ok_some {b : BasePointer} :
    base objs l = .ok (some b) ↔ objs.lookup (.base l) = some (.base b) := by
  unfold base
  split <;> simp_all

theorem base_ok_none : base objs l = .ok none ↔ objs.lookup (.base l) = none := by
  unfold base
  split <;> simp_all

theorem members_erase : members (objs.erase k) l = (members objs l).filter (·.key ≠ k) := by
  have hkeys : (objs.erase k).keys = objs.keys.filter (· ≠ k) := by
    rw [AList.keys_erase, objs.keys_nodup.erase_eq_filter]
    exact filter_congr fun x _ => by by_cases hx : x = k <;> simp [bne, hx]
  rw [members, members, hkeys, filter_filterMap, filter_filter, filterMap_filter, filterMap_filter]
  refine filterMap_congr fun x _ => ?_
  cases hm : x.parseMember with
  | none => simp
  | some m =>
    obtain rfl := DataKey.parseMember_key hm
    by_cases hx : m.key = k <;> by_cases hl : m.key.lineage = l <;> simp [hx, hl, Option.filter]

def view (objs : Objects) : View DataKey where
  base := base objs
  members l := .ok (members objs l)
  based := objs.keys.filterMap fun
    | .base l => some l
    | _ => none
  mem_based := by
    intro l b h
    have hmem : DataKey.base l ∈ objs.keys :=
      AList.mem_keys.mp (AList.lookup_isSome.mp (by simp [base_ok_some.mp h]))
    exact mem_filterMap.mpr ⟨_, hmem, rfl⟩

end Objects

end Offshoot
