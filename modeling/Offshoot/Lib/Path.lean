import Mathlib.Data.List.Basic

/-!
# Lexical paths

Paths as lists of symbols, of which one separates elements and one is the dot: what is left
of a path when empty elements, `.` and `..` are resolved without looking at any file.
-/

namespace Path

open List

variable {α : Type} [DecidableEq α] {sep dot : α}
variable {e : List α} {es st : List (List α)} {r : Bool}

def rooted (sep : α) (path : List α) : Bool := decide (path.head? = some sep)

/-- The stack after `..`, the last element on top. -/
def above (dot : α) (rooted : Bool) : List (List α) → List (List α)
  | [] => if rooted then [] else [[dot, dot]]
  | top :: rest => if top = [dot, dot] then [dot, dot] :: top :: rest else rest

def push (dot : α) (rooted : Bool) (stack : List (List α)) (e : List α) : List (List α) :=
  if e = [] ∨ e = [dot] then stack
  else if e = [dot, dot] then above dot rooted stack
  else e :: stack

/-- The elements that are left, the last first. -/
def stack (sep dot : α) (path : List α) : List (List α) :=
  (path.splitOn sep).foldl (push dot (rooted sep path)) []

def elements (sep dot : α) (path : List α) : List (List α) := (stack sep dot path).reverse

def render (sep dot : α) (rooted : Bool) (es : List (List α)) : List α :=
  if rooted then sep :: [sep].intercalate es
  else if es = [] then [dot] else [sep].intercalate es

/-- The shortest path with the same elements. -/
def clean (sep dot : α) (path : List α) : List α :=
  render sep dot (rooted sep path) (elements sep dot path)

/-! ## Elements -/

/-- A stack that pushing built: elements that count, with `..` at the bottom only. -/
def Settled (sep dot : α) (r : Bool) : List (List α) → Prop
  | [] => True
  | e :: rest => e ≠ [] ∧ e ≠ [dot] ∧ sep ∉ e ∧
      (e = [dot, dot] → r = false ∧ ∀ top ∈ rest.head?, top = [dot, dot]) ∧ Settled sep dot r rest

theorem Settled.above (h : Settled sep dot r st) (hsep : sep ≠ dot) :
    Settled sep dot r (above dot r st) := by
  have hdots : sep ∉ [dot, dot] := by simp [hsep]
  cases st with
  | nil =>
    cases r with
    | true => exact h
    | false =>
      exact ⟨by simp, by simp, hdots, fun _ => ⟨rfl, by simp⟩, trivial⟩
  | cons top rest =>
    obtain ⟨h1, h2, h3, h4, h5⟩ := h
    rw [Path.above]
    split
    · rename_i htop
      refine ⟨by simp, by simp, hdots, fun _ => ⟨(h4 htop).1, fun t ht => ?_⟩, h1, h2, h3, h4, h5⟩
      cases ht
      exact htop
    · exact h5

theorem Settled.push (h : Settled sep dot r st) (hsep : sep ≠ dot) (he : sep ∉ e) :
    Settled sep dot r (push dot r st e) := by
  rw [Path.push]
  split
  · exact h
  rename_i hne
  rw [not_or] at hne
  split
  · exact h.above hsep
  · rename_i hdots
    exact ⟨hne.1, hne.2, he, fun h' => absurd h' hdots, h⟩

variable {path : List α}

theorem not_mem_of_mem_splitOn (h : e ∈ path.splitOn sep) : sep ∉ e := by
  induction path generalizing e with
  | nil =>
    rw [splitOn_nil, mem_singleton] at h
    rw [h]
    exact not_mem_nil
  | cons c path ih =>
    rw [splitOn_cons_eq_if_modifyHead] at h
    split at h
    · obtain rfl | hmem := mem_cons.mp h
      · exact not_mem_nil
      · exact ih hmem
    · rename_i hc
      cases hsplit : path.splitOn sep with
      | nil => exact absurd hsplit (splitOn_ne_nil sep path)
      | cons first rest =>
        rw [hsplit] at h ih
        obtain rfl | hmem := mem_cons.mp h
        · intro hsep
          obtain rfl | hfirst := mem_cons.mp hsep
          · exact hc BEq.rfl
          · exact ih mem_cons_self hfirst
        · exact ih (mem_cons_of_mem first hmem)

theorem settled_foldl (hsep : sep ≠ dot) (hes : ∀ e ∈ es, sep ∉ e) (h : Settled sep dot r st) :
    Settled sep dot r (es.foldl (push dot r) st) := by
  induction es generalizing st with
  | nil => exact h
  | cons e es ih =>
    exact ih (fun e' he' => hes e' (mem_cons_of_mem e he')) (h.push hsep (hes e mem_cons_self))

theorem settled_stack (hsep : sep ≠ dot) (path : List α) :
    Settled sep dot (rooted sep path) (stack sep dot path) :=
  settled_foldl hsep (fun _ he => not_mem_of_mem_splitOn he) trivial

omit [DecidableEq α] in
theorem Settled.mem (h : Settled sep dot r st) (he : e ∈ st) : e ≠ [] ∧ sep ∉ e := by
  induction st with
  | nil => cases he
  | cons top rest ih =>
    obtain rfl | hmem := mem_cons.mp he
    · exact ⟨h.1, h.2.2.1⟩
    · exact ih h.2.2.2.2 hmem

/-! ## Cleaning -/

omit [DecidableEq α] in
theorem head?_intercalate (h : e ≠ []) : ([sep].intercalate (e :: es)).head? = e.head? := by
  cases e with
  | nil => exact absurd rfl h
  | cons c e => rw [intercalate_cons_cons_left]; rfl

omit [DecidableEq α] in
theorem head_ne_sep (h : Settled sep dot r st) :
    ([sep].intercalate st.reverse).head? ≠ some sep := by
  cases hst : st.reverse with
  | nil => simp
  | cons e es =>
    have he : e ∈ st := mem_reverse.mp (hst ▸ mem_cons_self)
    rw [head?_intercalate (h.mem he).1]
    exact fun h' => (h.mem he).2 (mem_of_head? h')

variable {c : α}

omit [DecidableEq α] in
theorem mem_intercalate (h : c ∈ [sep].intercalate es) : c = sep ∨ ∃ e ∈ es, c ∈ e := by
  induction es with
  | nil => cases h
  | cons e es ih =>
    cases es with
    | nil =>
      rw [intercalate_singleton] at h
      exact .inr ⟨e, mem_cons_self, h⟩
    | cons e' es =>
      rw [intercalate_cons_cons, append_assoc, mem_append, singleton_append, mem_cons] at h
      obtain hhead | hsep | hrest := h
      · exact .inr ⟨e, mem_cons_self, hhead⟩
      · exact .inl hsep
      · refine (ih hrest).imp_right fun hmem => ?_
        obtain ⟨f, hf, hc⟩ := hmem
        exact ⟨f, mem_cons_of_mem e hf, hc⟩

theorem mem_of_mem_splitOn (he : e ∈ path.splitOn sep) (hc : c ∈ e) : c ∈ path := by
  induction path generalizing e with
  | nil =>
    rw [splitOn_nil, mem_singleton] at he
    rw [he] at hc
    cases hc
  | cons d path ih =>
    rw [splitOn_cons_eq_if_modifyHead] at he
    split at he
    · obtain rfl | hmem := mem_cons.mp he
      · cases hc
      · exact mem_cons_of_mem d (ih hmem hc)
    · cases hsplit : path.splitOn sep with
      | nil => exact absurd hsplit (splitOn_ne_nil sep path)
      | cons first rest =>
        rw [hsplit] at he ih
        obtain rfl | hmem := mem_cons.mp he
        · obtain rfl | hfirst := mem_cons.mp hc
          · exact mem_cons_self
          · exact mem_cons_of_mem d (ih mem_cons_self hfirst)
        · exact mem_cons_of_mem d (ih (mem_cons_of_mem first hmem) hc)

theorem mem_push {f : List α} (h : f ∈ push dot r st e) : f ∈ st ∨ f = e := by
  rw [push] at h
  split at h
  · exact .inl h
  split at h
  · rename_i he
    rw [he]
    cases st with
    | nil =>
      cases r with
      | true => exact .inl h
      | false => exact .inr (mem_singleton.mp h)
    | cons top rest =>
      rw [above] at h
      split at h
      · exact (mem_cons.mp h).symm
      · exact .inl (mem_cons_of_mem top h)
  · exact (mem_cons.mp h).symm

theorem mem_foldl_push {f : List α} (h : f ∈ es.foldl (push dot r) st) : f ∈ st ∨ f ∈ es := by
  induction es generalizing st with
  | nil => exact .inl h
  | cons e es ih =>
    obtain hst | hes := ih h
    · obtain hmem | rfl := mem_push hst
      · exact .inl hmem
      · exact .inr mem_cons_self
    · exact .inr (mem_cons_of_mem e hes)

theorem mem_of_mem_clean (h : c ∈ clean sep dot path) : c = sep ∨ c = dot ∨ c ∈ path := by
  have helements (h' : c ∈ [sep].intercalate (elements sep dot path)) : c = sep ∨ c ∈ path := by
    refine (mem_intercalate h').imp_right fun hmem => ?_
    obtain ⟨e, he, hc⟩ := hmem
    have hsplit := (mem_foldl_push (mem_reverse.mp he)).resolve_left not_mem_nil
    exact mem_of_mem_splitOn hsplit hc
  rw [clean, render] at h
  split at h
  · obtain hsep | hrest := mem_cons.mp h
    · exact .inl hsep
    · exact (helements hrest).imp_right .inr
  · split at h
    · exact .inr (.inl (mem_singleton.mp h))
    · exact (helements h).imp_right .inr

end Path
