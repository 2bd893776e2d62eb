import Mathlib.Data.List.Nodup
import Mathlib.Data.List.Perm.Basic

/-!
# Comparing two keyed lists

Two lists of elements with a key and a value, the value telling the key, and no key twice in
either.  Elements whose value is missing on the other side have a key that is missing there, or
one that has another value there.  Counts made with coarser keys and values, which take some that
differ for equal, are right exactly if they take none of one side for another of the other.
-/

namespace Keyed

open List

variable {α κ β : Type} {key : α → κ} {val : α → β} {l r : List α}

theorem nodup_val (hkey : ∀ a b, val a = val b → key a = key b) (hl : (l.map key).Nodup) :
    (l.map val).Nodup := by
  rw [List.Nodup, pairwise_map] at hl ⊢
  exact hl.imp fun hne hval => hne (hkey _ _ hval)

/-- How many elements of `l` have a key, or a value, that none of `r` has. -/
def only [DecidableEq κ] (key : α → κ) (l r : List α) : Nat := l.countP fun a => key a ∉ r.map key

/-- How many elements of `l` have a key that one of `r` has with another value. -/
def changed [DecidableEq κ] [DecidableEq β] (key : α → κ) (val : α → β) (l r : List α) : Nat :=
  l.countP fun a => ∃ x ∈ r, key x = key a ∧ val x ≠ val a

section Keys

variable [DecidableEq κ]

theorem countP_eq_only {p : α → Bool} (hp : ∀ a ∈ l, p a = true ↔ key a ∉ r.map key) :
    l.countP p = only key l r :=
  countP_congr fun a ha => by rw [hp a ha, decide_eq_true_iff]

/-- As many elements of one side have a key in common with the other as the other way round. -/
theorem countP_shared (hl : (l.map key).Nodup) (hr : (r.map key).Nodup) :
    l.countP (fun a => key a ∈ r.map key) = r.countP (fun a => key a ∈ l.map key) := by
  have hkeys (l r : List α) : l.countP (fun a => key a ∈ r.map key) =
      ((l.map key).filter (· ∈ r.map key)).length := by
    rw [← countP_eq_length_filter, countP_map]
    rfl
  rw [hkeys, hkeys]
  refine List.Perm.length_eq ?_
  refine (perm_ext_iff_of_nodup (hl.filter _) (hr.filter _)).mpr fun k => ?_
  simp only [mem_filter, decide_eq_true_eq, and_comm]

theorem length_sub_onlyLeft (hl : (l.map key).Nodup) (hr : (r.map key).Nodup) :
    l.length - only key l r = r.length - only key r l := by
  have hsplit (l r : List α) :
      l.length = l.countP (fun a => key a ∈ r.map key) + only key l r := by
    rw [length_eq_countP_add_countP fun a => decide (key a ∈ r.map key), only]
    simp only [decide_not, decide_eq_true_eq]
  have h := countP_shared hl hr
  have h₁ := hsplit l r
  have h₂ := hsplit r l
  omega

end Keys

variable [DecidableEq κ] [DecidableEq β] (hkey : ∀ a b, val a = val b → key a = key b)
include hkey

theorem only_val (hr : (r.map key).Nodup) : only val l r = only key l r + changed key val l r := by
  have hpartner (a : α) : val a ∉ r.map val ↔
      key a ∉ r.map key ∨ ∃ x ∈ r, key x = key a ∧ val x ≠ val a := by
    constructor
    · intro hv
      by_cases hk : key a ∈ r.map key
      · obtain ⟨x, hx, hxa⟩ := mem_map.mp hk
        exact .inr ⟨x, hx, hxa, fun heq => hv (mem_map.mpr ⟨x, hx, heq⟩)⟩
      · exact .inl hk
    · intro h hv
      obtain ⟨y, hy, hya⟩ := mem_map.mp hv
      rcases h with hk | ⟨x, hx, hxa, hne⟩
      · exact hk (mem_map.mpr ⟨y, hy, hkey _ _ hya⟩)
      · rw [← inj_on_of_nodup_map hr hy hx ((hkey _ _ hya).trans hxa.symm)] at hne
        exact hne hya
  rw [only, only, changed]
  induction l with
  | nil => rfl
  | cons a l ih =>
    rw [countP_cons, countP_cons, countP_cons, ih]
    simp only [decide_eq_true_eq, hpartner a]
    by_cases hk : key a ∈ r.map key
    · simp only [hk, not_true_eq_false, false_or, if_false]
      omega
    · have hnone : ¬ ∃ x ∈ r, key x = key a ∧ val x ≠ val a := by
        rintro ⟨x, hx, hxa, -⟩
        exact hk (mem_map.mpr ⟨x, hx, hxa⟩)
      simp only [hk, hnone, not_false_eq_true, true_or, if_true, if_false]
      omega

/-- Where nothing is missing on either side, both hold the same values. -/
theorem perm_of_none (hl : (l.map key).Nodup) (hr : (r.map key).Nodup)
    (hmissing : only val l r = 0) (honly : only key r l = 0) : (l.map val).Perm (r.map val) := by
  rw [only, countP_eq_zero] at hmissing honly
  have hsub : ∀ a ∈ l, val a ∈ r.map val := fun a ha => by simpa using hmissing a ha
  refine (perm_ext_iff_of_nodup (nodup_val hkey hl) (nodup_val hkey hr)).mpr fun v => ?_
  constructor
  · intro hv
    obtain ⟨a, ha, rfl⟩ := mem_map.mp hv
    exact hsub a ha
  · intro hv
    obtain ⟨x, hx, rfl⟩ := mem_map.mp hv
    obtain ⟨a, ha, hax⟩ : ∃ a ∈ l, key a = key x := by simpa using honly x hx
    obtain ⟨y, hy, hya⟩ := mem_map.mp (hsub a ha)
    obtain rfl : y = x := inj_on_of_nodup_map hr hy hx ((hkey _ _ hya).trans hax)
    exact mem_map.mpr ⟨a, ha, hya.symm⟩

omit hkey

/-! ## Coarser keys -/

variable {γ δ : Type} [DecidableEq γ] [DecidableEq δ] {c kl kr : α → γ} {cv : α → δ}

omit [DecidableEq κ] [DecidableEq β] [DecidableEq γ] [DecidableEq δ] in
theorem countP_eq_iff {p q : α → Bool} (h : ∀ a ∈ l, p a = true → q a = true) :
    l.countP p = l.countP q ↔ ∀ a ∈ l, q a = true → p a = true := by
  induction l with
  | nil => simp
  | cons a l ih =>
    have hle : l.countP p ≤ l.countP q :=
      countP_mono_left fun b hb => h b (mem_cons_of_mem _ hb)
    have hrest := ih fun b hb => h b (mem_cons_of_mem _ hb)
    have ha := h a mem_cons_self
    rw [forall_mem_cons, ← hrest, countP_cons, countP_cons]
    cases hp : p a <;> cases hq : q a
    · simp
    · simp
      omega
    · simp [hp, hq] at ha
    · simp

omit [DecidableEq β] [DecidableEq δ] in
theorem only_coarse (hc : ∀ a b, key a = key b → c a = c b)
    (hone : ∀ a ∈ l, ∀ x ∈ r, ∀ y ∈ r, c a = c x → c a = c y → key x = key y) :
    only c l r = only key l r ↔ ∀ a ∈ l, ∀ x ∈ r, c a = c x → key a = key x := by
  rw [only, only, countP_eq_iff]
  · refine forall₂_congr fun a ha => ?_
    simp only [decide_eq_true_eq, mem_map, not_exists, not_and]
    constructor
    · intro h x hx hax
      by_contra hne
      -- Some element of `r` has the key of `a`, and only one is taken for it.
      by_cases hmem : ∃ y ∈ r, key y = key a
      · obtain ⟨y, hy, hya⟩ := hmem
        exact hne (((hone a ha x hx y hy hax (hc _ _ hya.symm)).trans hya).symm)
      · exact h (fun y hy hya => hmem ⟨y, hy, hya⟩) x hx hax.symm
    · exact fun h hkey x hx hxa => hkey x hx (h x hx hxa.symm).symm
  · intro a _
    simp only [decide_eq_true_eq, mem_map, not_exists, not_and]
    exact fun h x hx hxa => h x hx (hc _ _ hxa)

include hkey in
/-- Where `kl` tells the keys of `l` apart and `kr` those of `r`, the counts made with them and
with `cv` are right exactly if they take no key, and no value, of one side for another of the
other. -/
theorem counts_coarse (hl : (l.map kl).Nodup) (hr : (r.map kr).Nodup)
    (hkl : ∀ a b, key a = key b → kl a = kl b) (hkr : ∀ a b, key a = key b → kr a = kr b)
    (hcv : ∀ a b, val a = val b → cv a = cv b) (hck : ∀ a b, cv a = cv b → kl a = kl b) :
    (only kr l r = only key l r ∧ only kl r l = only key r l ∧
      only cv l r - only kr l r = changed key val l r) ↔
    ∀ a ∈ l, ∀ x ∈ r, (kl a = kl x ∨ kr a = kr x → key a = key x) ∧
      (cv a = cv x → val a = val x) := by
  have hinj {x y : α} (hx : x ∈ r) (hy : y ∈ r) (h : key x = key y) : x = y :=
    inj_on_of_nodup_map hr hx hy (hkr _ _ h)
  have hright := only_coarse (l := l) (r := r) hkr fun a _ x hx y hy hax hay =>
    congrArg key (inj_on_of_nodup_map hr hx hy (hax.symm.trans hay))
  have hleft := only_coarse (l := r) (r := l) hkl fun a _ x hx y hy hax hay =>
    congrArg key (inj_on_of_nodup_map hl hx hy (hax.symm.trans hay))
  have hval := only_val (l := l) hkey (nodup_val hkr hr)
  -- Once the keys are right, an element of `r` is taken for one of `l` by at most one value.
  have hvals (hk : ∀ x ∈ r, ∀ a ∈ l, kl x = kl a → key x = key a) :=
    only_coarse (l := l) (r := r) hcv fun a ha x hx y hy hax hay => by
      have hxa := hk x hx a ha (hck _ _ hax).symm
      exact congrArg val (hinj hx hy (hxa.trans (hk y hy a ha (hck _ _ hay).symm).symm))
  have hmissing (hk : ∀ x ∈ r, ∀ a ∈ l, kl x = kl a → key x = key a) :
      only key l r ≤ only cv l r := by
    refine countP_mono_left fun a ha => ?_
    simp only [decide_eq_true_eq, mem_map, not_exists, not_and]
    exact fun h x hx hxa => h x hx (hk x hx a ha (hck _ _ hxa))
  constructor
  · rintro ⟨hrem, hadd, hchanged⟩
    have hk := hleft.mp hadd
    have hle := hmissing hk
    have hsame : only cv l r = only val l r := by omega
    intro a ha x hx
    refine ⟨?_, (hvals hk).mp hsame a ha x hx⟩
    rintro (h | h)
    · exact (hk x hx a ha h.symm).symm
    · exact hright.mp hrem a ha x hx h
  · intro h
    have hk : ∀ x ∈ r, ∀ a ∈ l, kl x = kl a → key x = key a := fun x hx a ha hxa =>
      ((h a ha x hx).1 (.inl hxa.symm)).symm
    have hrem := hright.mpr fun a ha x hx hax => (h a ha x hx).1 (.inr hax)
    have hsame := (hvals hk).mpr fun a ha x hx => (h a ha x hx).2
    exact ⟨hrem, hleft.mpr hk, by omega⟩

end Keyed
