import Mathlib.Data.Finmap
import Mathlib.Data.Finset.Sort
import Mathlib.Data.String.Basic

/-!
# JSON values and the variables they are decoded into

Values as `encoding/json` writes and reads them.  A decoder gets a value and what the variable
holds already: `null` leaves most variables alone, a later member of an object wins over an
earlier one, and two objects decoded into one map are put together.
-/

namespace Offshoot

open List

inductive Json
  | null
  | bool (b : Bool)
  | int (negative : Bool) (digits : Nat)
  | float
  | str (s : String)
  | arr (items : List Json)
  | obj (members : List (String × Json))

/-- A map from strings that may be nil. -/
abbrev GoMap (β : Type) := Option (Finmap fun _ : String => β)

namespace Json

variable {key : String} {γ : Type}

def isNull : Json → Bool
  | .null => true
  | _ => false

/-! ## Decoding -/

abbrev Decoder (α : Type) := Json → α → Option α

def text : Decoder String
  | .null, s => some s
  | .str s, _ => some s
  | _, _ => none

def flag : Decoder Bool
  | .null, b => some b
  | .bool b, _ => some b
  | _, _ => none

def uint64 : Decoder UInt64
  | .null, n => some n
  | .int false n, _ => if n < 2 ^ 64 then some (.ofNat n) else none
  | _, _ => none

def int64 : Decoder Int
  | .null, n => some n
  | .int false n, _ => if n < 2 ^ 63 then some n else none
  | .int true n, _ => if n ≤ 2 ^ 63 then some (-n) else none
  | _, _ => none

def raw : Decoder Json := fun v _ => some v

variable {α β σ : Type}

def part (get : σ → α) (set : σ → α → σ) (d : Decoder α) : Decoder σ :=
  fun v s => (d v (get s)).map (set s)

/-- A pointer to a variable whose zero value is given. -/
def pointer (zero : α) (d : Decoder α) : Decoder (Option α)
  | .null, _ => some none
  | v, p => (d v (p.getD zero)).map some

def insertInto (zero : β) (d : Decoder β) (m : Finmap fun _ : String => β)
    (member : String × Json) : Option (Finmap fun _ : String => β) :=
  (d member.2 zero).map fun b => m.insert member.1 b

def mapOf (zero : β) (d : Decoder β) : Decoder (GoMap β)
  | .null, _ => some none
  | .obj members, m => (members.foldlM (insertInto zero d) (m.getD ∅)).map some
  | _, _ => none

def setField (field : String → Option (Decoder σ)) (s : σ) (member : String × Json) : Option σ :=
  match field member.1 with
  | some d => d member.2 s
  | none => some s

/-- A struct.  Members that name no field are left out. -/
def struct (field : String → Option (Decoder σ)) : Decoder σ
  | .null, s => some s
  | .obj members, s => members.foldlM (setField field) s
  | _, _ => none

/-- The rune that stands for all that differ from it in case.  Only those that stand for an ASCII
one count here, since the names of fields are ASCII. -/
def foldRune (c : Char) : Char :=
  if c = 'ſ' then 'S' else if c = 'K' then 'K' else c.toUpper

def foldName (s : String) : List Char := s.toList.map foldRune

/-! ## Encoding -/

def ofUInt64 (n : UInt64) : Json := .int false n.toNat

def ofInt (n : Int) : Json := .int (n < 0) n.natAbs

/-- The members of a map in the order of their keys. -/
def entries (m : Finmap fun _ : String => β) : List (String × β) :=
  (m.keys.sort (· ≤ ·)).filterMap fun key => (m.lookup key).map fun b => (key, b)

def ofMap (f : β → Json) : GoMap β → Json
  | none => .null
  | some m => .obj ((entries m).map fun p => (p.1, f p.2))

def omitempty (empty : Bool) (key : String) (v : Json) : List (String × Json) :=
  if empty then [] else [(key, v)]

/-! ## What was encoded is decoded -/

theorem uint64_ofUInt64 (n m : UInt64) : uint64 (ofUInt64 n) m = some n := by
  have hlt : n.toNat < 2 ^ 64 := n.toNat_lt
  rw [ofUInt64, uint64, if_pos hlt, UInt64.ofNat_toNat]

theorem mem_entries {m : Finmap fun _ : String => β} {b : β} :
    (key, b) ∈ entries m ↔ m.lookup key = some b := by
  rw [entries, mem_filterMap]
  constructor
  · intro h
    obtain ⟨key', _, h⟩ := h
    obtain ⟨b', hb', heq⟩ := Option.map_eq_some_iff.mp h
    cases heq
    exact hb'
  · intro h
    refine ⟨key, ?_, by rw [h]; rfl⟩
    rw [Finset.mem_sort, Finmap.mem_keys]
    exact Finmap.mem_of_lookup_eq_some h

/-- A map filled with members that agree with a function agrees with it at their keys. -/
theorem lookup_foldl_insert (f : String → Option β) (key : String) (members : List (String × β))
    (m : Finmap fun _ : String => β) (h : ∀ p ∈ members, f p.1 = some p.2) :
    (members.foldl (fun m p => m.insert p.1 p.2) m).lookup key =
      if key ∈ members.map (·.1) then f key else m.lookup key := by
  induction members generalizing m with
  | nil => rfl
  | cons p members ih =>
    have hp := h p mem_cons_self
    rw [foldl_cons, ih _ (fun q hq => h q (mem_cons_of_mem _ hq)), map_cons]
    by_cases hkey : key = p.1
    · subst hkey
      rw [Finmap.lookup_insert, hp, ite_self, if_pos mem_cons_self]
    · rw [Finmap.lookup_insert_of_ne _ hkey]
      simp only [mem_cons, hkey, false_or]

theorem entries_insert_empty (key : String) (b : β) :
    entries ((∅ : Finmap fun _ : String => β).insert key b) = [(key, b)] := by
  have hkeys : ((∅ : Finmap fun _ : String => β).insert key b).keys = {key} := by
    ext key'
    rw [Finmap.mem_keys, Finmap.mem_insert, Finset.mem_singleton]
    exact or_iff_left (Finmap.notMem_empty)
  rw [entries, hkeys, Finset.sort_singleton]
  simp

variable (f : β → γ) (m : Finmap fun _ : String => β)

theorem foldl_entries : (entries m).foldl (fun m p => m.insert p.1 p.2) ∅ = m := by
  apply Finmap.ext_lookup
  intro key
  rw [lookup_foldl_insert m.lookup key _ _ (fun p hp => mem_entries.mp hp)]
  cases hlook : m.lookup key with
  | some b =>
    rw [if_pos]
    exact mem_map.mpr ⟨(key, b), mem_entries.mpr hlook, rfl⟩
  | none =>
    rw [Finmap.lookup_empty, ite_self]

def mapVal {γ : Type} (f : β → γ) (m : Finmap fun _ : String => β) : Finmap fun _ : String => γ :=
  (entries m).foldl (fun m p => m.insert p.1 (f p.2)) ∅

theorem lookup_mapVal (key : String) : (mapVal f m).lookup key = (m.lookup key).map f := by
  have hfold : mapVal f m =
      ((entries m).map fun p => (p.1, f p.2)).foldl (fun m p => m.insert p.1 p.2) ∅ := by
    rw [foldl_map]
    rfl
  rw [hfold, lookup_foldl_insert (fun key => (m.lookup key).map f)]
  · cases hlook : m.lookup key with
    | some b =>
      rw [if_pos]
      rw [map_map]
      exact mem_map.mpr ⟨(key, b), mem_entries.mpr hlook, rfl⟩
    | none => rw [Option.map_none, Finmap.lookup_empty, ite_self]
  · intro p hp
    obtain ⟨q, hq, heq⟩ := mem_map.mp hp
    cases heq
    rw [mem_entries.mp hq]
    rfl

theorem mapVal_id : mapVal id m = m :=
  foldl_entries m

theorem keys_mapVal : (mapVal f m).keys = m.keys := by
  ext key
  rw [Finmap.mem_keys, Finmap.mem_keys, ← Finmap.lookup_isSome, ← Finmap.lookup_isSome,
    lookup_mapVal, Option.isSome_map]

theorem entries_mapVal : entries (mapVal f m) = (entries m).map fun p => (p.1, f p.2) := by
  rw [entries, entries, keys_mapVal, map_filterMap]
  apply filterMap_congr
  intro key _
  rw [lookup_mapVal]
  cases m.lookup key with
  | none => rfl
  | some b => rfl

theorem mapVal_mapVal {δ : Type} (f : γ → δ) (g : β → γ) (m : Finmap fun _ : String => β) :
    mapVal f (mapVal g m) = mapVal (f ∘ g) m := by
  apply Finmap.ext_lookup
  intro key
  rw [lookup_mapVal, lookup_mapVal, lookup_mapVal, Option.map_map]

theorem mapOf_ofMap {zero : γ} {d : Decoder γ} {f : β → Json} {g : β → γ}
    (h : ∀ b, d (f b) zero = some (g b)) (m : Finmap fun _ : String => β) :
    mapOf zero d (ofMap f (some m)) none = some (some (mapVal g m)) := by
  have hfold : ∀ (members : List (String × β)) (acc : Finmap fun _ : String => γ),
      (members.map fun p => (p.1, f p.2)).foldlM (insertInto zero d) acc =
        some (members.foldl (fun m p => m.insert p.1 (g p.2)) acc) := by
    intro members
    induction members with
    | nil => exact fun _ => rfl
    | cons p members ih =>
      intro acc
      rw [map_cons, foldlM_cons]
      have hone : insertInto zero d acc (p.1, f p.2) = some (acc.insert p.1 (g p.2)) := by
        rw [insertInto, h]
        rfl
      rw [hone]
      exact ih _
  show Option.map some (List.foldlM _ _ _) = _
  rw [hfold]
  rfl

def len : GoMap β → Nat
  | none => 0
  | some m => m.keys.card

/-- What is left of a map whose member is left out when it is empty. -/
def dropEmpty (m : GoMap β) : GoMap β := if len m = 0 then none else m

theorem entries_eq_nil {m : Finmap fun _ : String => β} : entries m = [] ↔ len (some m) = 0 := by
  show _ ↔ m.keys.card = 0
  rw [Finset.card_eq_zero]
  constructor
  · intro hnil
    rw [Finset.eq_empty_iff_forall_notMem]
    intro key hkey
    obtain ⟨b, hb⟩ := Finmap.mem_iff.mp (Finmap.mem_keys.mp hkey)
    have hmem := mem_entries.mpr hb
    rw [hnil] at hmem
    cases hmem
  · intro hkeys
    rw [entries, hkeys, Finset.sort_empty]
    rfl

theorem mapVal_empty : mapVal f ∅ = ∅ := by
  apply Finmap.ext_lookup
  intro key
  rw [lookup_mapVal, Finmap.lookup_empty, Finmap.lookup_empty]
  rfl

theorem getD_map_mapVal (m : GoMap β) : (m.map (mapVal f)).getD ∅ = mapVal f (m.getD ∅) := by
  cases m with
  | none => exact (mapVal_empty f).symm
  | some m => rfl

theorem dropEmpty_map (m : GoMap β) : dropEmpty (m.map (mapVal f)) =
      if entries (m.getD ∅) = [] then none else some (mapVal f (m.getD ∅)) := by
  rw [dropEmpty]
  cases m with
  | none =>
    have hnil : entries ((none : GoMap β).getD ∅) = [] := entries_eq_nil.mpr rfl
    rw [if_pos hnil]
    rfl
  | some m =>
    have hlen : len (Option.map (mapVal f) (some m)) = len (some m) :=
      congrArg Finset.card (keys_mapVal f m)
    simp only [hlen, Option.getD_some, entries_eq_nil]
    rfl

theorem getD_dropEmpty (m : GoMap β) : (dropEmpty m).getD ∅ = m.getD ∅ := by
  rw [dropEmpty]
  by_cases hlen : len m = 0
  · rw [if_pos hlen]
    cases m with
    | none => rfl
    | some m =>
      rw [← foldl_entries m, entries_eq_nil.mpr hlen]
      rfl
  · rw [if_neg hlen]

theorem dropEmpty_of_len {m : GoMap β} (h : len m = 0) : dropEmpty m = none := if_pos h

variable {field : String → Option (Decoder σ)}

variable {s : σ}

/-- A member with `omitempty` sets its variable, or is left out and there is nothing to set. -/
theorem foldlM_omitempty {empty : Bool} {v : Json} {s' : σ}
    (hset : empty = false → setField field s (key, v) = some s') (hempty : empty = true → s' = s) :
    (omitempty empty key v).foldlM (setField field) s = some s' := by
  cases empty with
  | true => exact congrArg some (hempty rfl).symm
  | false =>
    show (setField field s (key, v) >>= fun s => some s) = some s'
    rw [hset rfl]
    rfl

theorem foldlM_omit_map {f : β → Json} {m old : GoMap β} (set : GoMap β → σ)
    (hset : ∀ m', setField field s (key, ofMap f (some m')) = some (set (some m')))
    (hold : old = none) (hself : set old = s) :
    (omitempty (len m == 0) key (ofMap f m)).foldlM (setField field) s =
      some (set (dropEmpty m)) := by
  apply foldlM_omitempty
  · intro hlen
    have hne : len m ≠ 0 := fun h => by rw [h] at hlen; cases hlen
    cases m with
    | none => exact absurd rfl hne
    | some m =>
      rw [dropEmpty, if_neg hne]
      exact hset m
  · intro hlen
    rw [dropEmpty_of_len (eq_of_beq hlen), ← hold, hself]

/-- An object made of the members of one field after another sets one field after another.  `Blank`
says that a field was not set, which is what a member left out relies on. -/
theorem foldlM_fields {F : Type} {member : F → List (String × Json)} {put : σ → F → σ}
    {Blank : σ → F → Prop}
    (hmember : ∀ s f, Blank s f → (member f).foldlM (setField field) s = some (put s f))
    (hput : ∀ s f g, f ≠ g → Blank s g → Blank (put s f) g) {fields : List F}
    (hnodup : fields.Nodup) (hblank : ∀ f ∈ fields, Blank s f) :
    (fields.flatMap member).foldlM (setField field) s = some (fields.foldl put s) := by
  induction fields generalizing s with
  | nil => rfl
  | cons f fields ih =>
    obtain ⟨hnot, hrest⟩ := nodup_cons.mp hnodup
    rw [flatMap_cons, foldlM_append, hmember s f (hblank f mem_cons_self)]
    apply ih hrest
    intro g hg
    exact hput s f g (fun heq => hnot (heq ▸ hg)) (hblank g (mem_cons_of_mem _ hg))

end Json

end Offshoot
