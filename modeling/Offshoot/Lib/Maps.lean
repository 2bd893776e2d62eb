import Mathlib.Data.List.AList

/-!
# Finite maps

Small additions to `AList`: equality of maps that the kernel can decide, and the
submap of the entries whose value satisfies a predicate.
-/

namespace Maps

variable {α β : Type} [DecidableEq α]

abbrev Map (α β : Type) := AList fun _ : α => β

instance (priority := high) [DecidableEq β] : DecidableEq (Map α β) :=
  fun s t => decidable_of_iff (s.entries = t.entries) AList.ext_iff.symm

def keepIf (p : α → β → Bool) (s : Map α β) : Map α β where
  entries := s.entries.filter fun e => p e.1 e.2
  nodupKeys := List.NodupKeys.sublist List.filter_sublist s.nodupKeys

theorem lookup_keepIf (p : α → β → Bool) (s : Map α β) (a : α) :
    (keepIf p s).lookup a = (s.lookup a).filter (p a) := by
  ext b
  rw [Option.filter_eq_some_iff, ← Option.mem_def, ← Option.mem_def, AList.mem_lookup_iff,
    AList.mem_lookup_iff]
  simp [keepIf]

def mapVal {γ : Type} (f : β → γ) (s : Map α β) : Map α γ where
  entries := s.entries.map fun e => ⟨e.1, f e.2⟩
  nodupKeys := by
    have h := s.nodupKeys
    rw [List.NodupKeys, List.keys, List.map_map] at *
    exact h

theorem lookup_mapVal {γ : Type} (f : β → γ) (s : Map α β) (a : α) :
    (mapVal f s).lookup a = (s.lookup a).map f := by
  ext c
  rw [Option.map_eq_some_iff, ← Option.mem_def, AList.mem_lookup_iff]
  simp only [mapVal, List.mem_map, Sigma.exists, Sigma.mk.injEq, heq_eq_eq]
  constructor
  · rintro ⟨a', b, h, rfl, rfl⟩
    exact ⟨b, AList.mem_lookup_iff.mpr h, rfl⟩
  · rintro ⟨b, h, rfl⟩
    exact ⟨a, b, AList.mem_lookup_iff.mp h, rfl, rfl⟩

def values (s : Map α β) : List β := s.entries.map (·.2)

theorem mem_values {s : Map α β} {b : β} : b ∈ values s ↔ ∃ a, s.lookup a = some b := by
  simp only [values, List.mem_map, Sigma.exists, exists_eq_right]
  exact exists_congr fun a => AList.mem_lookup_iff.symm

end Maps
