import Mathlib.Data.Nat.Digits.Lemmas

/-!
# Numerals

A number as a list of digits, most significant first: as short as possible, or filled up with
zeros to a width.  Reading either back gives the number, and between numerals of one width the
order of the texts is the order of the numbers.
-/

namespace Numeral

open List

/-! ## Digits -/

def value (b : Nat) (ds : List Nat) : Nat := ds.foldl (fun n d => n * b + d) 0

def plain (b n : Nat) : List Nat := if n = 0 then [0] else (Nat.digits b n).reverse

/-- The digits of a number, with zeros before them up to the width. -/
def fixed (b width n : Nat) : List Nat := (Nat.digitsAppend b width n).reverse

variable {b width n m : Nat} {ds es : List Nat}

theorem value_eq : value b ds = Nat.ofDigits b ds.reverse := by
  rw [value, Nat.ofDigits_eq_foldr, foldr_reverse]
  simp only [Nat.cast_id, mul_comm, add_comm]

variable {d : Nat}

theorem value_cons : value b (d :: ds) = d * b ^ ds.length + value b ds := by
  rw [value_eq, value_eq, reverse_cons, Nat.ofDigits_append, Nat.ofDigits_singleton,
    length_reverse, mul_comm, add_comm]

theorem value_lt (hb : 1 < b) (hds : ∀ d ∈ ds, d < b) : value b ds < b ^ ds.length := by
  rw [value_eq, ← length_reverse]
  exact Nat.ofDigits_lt_base_pow_length hb fun d hd => hds d (mem_reverse.mp hd)

theorem value_plain : value b (plain b n) = n := by
  rw [plain]
  split
  · rename_i hn
    rw [hn, value_eq, reverse_singleton, Nat.ofDigits_singleton]
  · rw [value_eq, reverse_reverse, Nat.ofDigits_digits]

theorem plain_ne_nil : plain b n ≠ [] := by
  rw [plain]
  split
  · exact cons_ne_nil 0 []
  · rwa [ne_eq, reverse_eq_nil_iff, Nat.digits_eq_nil_iff_eq_zero]

theorem lt_of_mem_plain (hb : 1 < b) (hd : d ∈ plain b n) : d < b := by
  rw [plain] at hd
  split at hd
  · rw [mem_singleton] at hd
    omega
  · exact Nat.digits_lt_base hb (mem_reverse.mp hd)

theorem value_fixed : value b (fixed b width n) = n := by
  rw [value_eq, fixed, reverse_reverse, Nat.digitsAppend, Nat.ofDigits_append_replicate_zero,
    Nat.ofDigits_digits]

theorem length_fixed (hb : 1 < b) (hn : n < b ^ width) : (fixed b width n).length = width := by
  rw [fixed, length_reverse, Nat.length_digitsAppend hb width hn]

theorem lt_of_mem_fixed (hb : 1 < b) (hd : d ∈ fixed b width n) : d < b :=
  Nat.lt_of_mem_digitsAppend hb width d (mem_reverse.mp hd)

/-- Numerals of one length are ordered as the numbers are. -/
theorem lt_iff_value_lt (hb : 1 < b) (hlen : ds.length = es.length) (hds : ∀ d ∈ ds, d < b)
    (hes : ∀ d ∈ es, d < b) : ds < es ↔ value b ds < value b es := by
  induction ds generalizing es with
  | nil =>
    obtain rfl := eq_nil_of_length_eq_zero hlen.symm
    exact ⟨fun h => absurd h (lt_irrefl []), fun h => absurd h (lt_irrefl _)⟩
  | cons d ds ih =>
    cases es with
    | nil => cases hlen
    | cons e es =>
      have hlen := Nat.succ.inj hlen
      have hds' := fun x hx => hds x (mem_cons_of_mem _ hx)
      have hes' := fun x hx => hes x (mem_cons_of_mem _ hx)
      have hd := value_lt hb hds'
      have he := value_lt hb hes'
      rw [cons_lt_cons_iff, ih hlen hds' hes', value_cons, value_cons, hlen]
      rw [hlen] at hd
      -- The first digit decides unless the first digits are equal.
      rcases Nat.lt_trichotomy d e with hlt | heq | hgt
      · have hmul : (d + 1) * b ^ es.length ≤ e * b ^ es.length := Nat.mul_le_mul_right _ hlt
        rw [add_mul, one_mul] at hmul
        exact ⟨fun _ => by omega, fun _ => .inl hlt⟩
      · subst heq
        exact ⟨fun h => by omega, fun h => .inr ⟨rfl, by omega⟩⟩
      · have hmul : (e + 1) * b ^ es.length ≤ d * b ^ es.length := Nat.mul_le_mul_right _ hgt
        rw [add_mul, one_mul] at hmul
        exact ⟨fun h => by omega, fun h => by omega⟩

/-! ## Order of texts -/

section Order

variable {α : Type} [LT α] {a a' s t : List α}

theorem append_lt_append_iff (hlen : a.length = a'.length) :
    a ++ s < a' ++ t ↔ a < a' ∨ a = a' ∧ s < t := by
  induction a generalizing a' with
  | nil =>
    obtain rfl := eq_nil_of_length_eq_zero hlen.symm
    exact ⟨fun h => .inr ⟨rfl, h⟩, fun h => h.elim (fun h => absurd h (not_lt_nil _)) And.right⟩
  | cons x a ih =>
    cases a' with
    | nil => cases hlen
    | cons y a' =>
      rw [cons_append, cons_append, cons_lt_cons_iff, cons_lt_cons_iff,
        ih (Nat.succ.inj hlen), List.cons.injEq]
      tauto

theorem append_left_lt_iff [Std.Irrefl (α := α) (· < ·)] : a ++ s < a ++ t ↔ s < t := by
  rw [append_lt_append_iff rfl]
  exact ⟨fun h => h.elim (fun h => absurd h (List.lt_irrefl a)) And.right, fun h => .inr ⟨rfl, h⟩⟩

end Order

/-! ## Characters -/

/-- The digit a character stands for, in bases up to 36 and in either case. -/
def digitValue (c : Char) : Option Nat :=
  if '0' ≤ c ∧ c ≤ '9' then some (c.toNat - '0'.toNat)
  else if 'a' ≤ c ∧ c ≤ 'z' then some (c.toNat - 'a'.toNat + 10)
  else if 'A' ≤ c ∧ c ≤ 'Z' then some (c.toNat - 'A'.toNat + 10)
  else none

def parseUint (b bits : Nat) (text : List Char) : Option Nat :=
  if text = [] then none
  else
    match text.mapM digitValue with
    | none => none
    | some ds => if (∀ d ∈ ds, d < b) ∧ value b ds < 2 ^ bits then some (value b ds) else none

def text (ds : List Nat) : List Char := ds.map Nat.digitChar

theorem digitValue_digitChar (hd : d < 16) : digitValue d.digitChar = some d := by
  have hall : ∀ d : Fin 16, digitValue d.val.digitChar = some d.val := by decide
  exact hall ⟨d, hd⟩

theorem digitChar_lt_iff {e : Nat} (hd : d < 16) (he : e < 16) :
    d.digitChar < e.digitChar ↔ d < e := by
  have hall : ∀ d e : Fin 16, d.val.digitChar < e.val.digitChar ↔ d.val < e.val := by decide
  exact hall ⟨d, hd⟩ ⟨e, he⟩

theorem digitChar_inj {e : Nat} (hd : d < 16) (he : e < 16)
    (h : d.digitChar = e.digitChar) : d = e := by
  have heq := (digitValue_digitChar hd).symm.trans ((congrArg digitValue h).trans
    (digitValue_digitChar he))
  exact Option.some.inj heq

theorem mapM_text (hds : ∀ d ∈ ds, d < 16) : (text ds).mapM digitValue = some ds := by
  induction ds with
  | nil => rfl
  | cons d ds ih =>
    rw [text, map_cons, mapM_cons, digitValue_digitChar (hds d mem_cons_self)]
    have hrest := ih fun x hx => hds x (mem_cons_of_mem _ hx)
    rw [text] at hrest
    rw [hrest]
    rfl

theorem parseUint_text {bits : Nat} (hb : b ≤ 16) (hne : ds ≠ []) (hds : ∀ d ∈ ds, d < b)
    (hv : value b ds < 2 ^ bits) : parseUint b bits (text ds) = some (value b ds) := by
  have htext : text ds ≠ [] := fun h => hne (map_eq_nil_iff.mp h)
  rw [parseUint, if_neg htext, mapM_text fun d hd => lt_of_lt_of_le (hds d hd) hb]
  exact if_pos ⟨hds, hv⟩

theorem text_lt_iff (hds : ∀ d ∈ ds, d < 16) (hes : ∀ d ∈ es, d < 16) :
    text ds < text es ↔ ds < es := by
  induction ds generalizing es with
  | nil =>
    cases es with
    | nil => exact ⟨fun h => absurd h (List.lt_irrefl _), fun h => absurd h (List.lt_irrefl _)⟩
    | cons e es => exact ⟨fun _ => List.nil_lt_cons e es, fun _ => List.nil_lt_cons _ _⟩
  | cons d ds ih =>
    cases es with
    | nil => exact ⟨fun h => absurd h (List.not_lt_nil _), fun h => absurd h (List.not_lt_nil _)⟩
    | cons e es =>
      have hd := hds d List.mem_cons_self
      have he := hes e List.mem_cons_self
      have hrest := ih (fun x hx => hds x (List.mem_cons_of_mem _ hx))
        (fun x hx => hes x (List.mem_cons_of_mem _ hx))
      have hinj : d.digitChar = e.digitChar ↔ d = e :=
        ⟨fun h => digitChar_inj hd he h, fun h => congrArg Nat.digitChar h⟩
      rw [text, text] at hrest ⊢
      rw [List.map_cons, List.map_cons, List.cons_lt_cons_iff, List.cons_lt_cons_iff,
        digitChar_lt_iff hd he, hinj, hrest]

theorem text_fixed_lt_iff (hb : 1 < b) (hb' : b ≤ 16) (hn : n < b ^ width) (hm : m < b ^ width) :
    text (fixed b width n) < text (fixed b width m) ↔ n < m := by
  have hdigit {k : Nat} (d : Nat) (hd : d ∈ fixed b width k) : d < b := lt_of_mem_fixed hb hd
  rw [text_lt_iff (fun d hd => lt_of_lt_of_le (hdigit d hd) hb')
    (fun d hd => lt_of_lt_of_le (hdigit d hd) hb'),
    lt_iff_value_lt hb ((length_fixed hb hn).trans (length_fixed hb hm).symm) hdigit hdigit,
    value_fixed, value_fixed]

theorem text_fixed_inj (hb : 1 < b) (hb' : b ≤ 16)
    (h : text (fixed b width n) = text (fixed b width m)) : n = m := by
  have hdigit {k : Nat} (d : Nat) (hd : d ∈ fixed b width k) : d < 16 :=
    lt_of_lt_of_le (lt_of_mem_fixed hb hd) hb'
  have hds := (mapM_text hdigit).symm.trans ((congrArg (List.mapM digitValue) h).trans
    (mapM_text hdigit))
  have hvalue : value b (fixed b width n) = value b (fixed b width m) :=
    congrArg (value b) (Option.some.inj hds)
  rwa [value_fixed, value_fixed] at hvalue

theorem not_mem_text {c : Char} (hc : digitValue c = none) (hds : ∀ d ∈ ds, d < 16) :
    c ∉ text ds := by
  intro hmem
  obtain ⟨d, hd, rfl⟩ := mem_map.mp hmem
  rw [digitValue_digitChar (hds d hd)] at hc
  cases hc

end Numeral
