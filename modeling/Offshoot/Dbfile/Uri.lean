import Mathlib.Data.List.TakeWhile
import Offshoot.Lib.Path

/-!
# The URIs that open a database

The builders of `file:` URIs in `internal/dbfile/dbfile.go` (`uriDSN`) and
`internal/ops/diff.go` (`roDSN`, `TableRowCounts`), against the rules by which SQLite reads such
a URI.  Paths and URIs are byte strings.
-/

namespace Offshoot.Uri

open List

abbrev Bytes := List UInt8

def ascii (text : List Char) : Bytes := text.map Char.toUInt8

def slash : UInt8 := 47
def dot : UInt8 := 46
def percent : UInt8 := 37
def question : UInt8 := 63
def hash : UInt8 := 35
def ampersand : UInt8 := 38
def equals : UInt8 := 61

def fileColon : Bytes := ascii ['f', 'i', 'l', 'e', ':']

/-! ## What SQLite reads -/

def hexValue (c : UInt8) : Option UInt8 :=
  if 48 ≤ c ∧ c ≤ 57 then some (c - 48)
  else if 65 ≤ c ∧ c ≤ 70 then some (c - 55)
  else if 97 ≤ c ∧ c ≤ 102 then some (c - 87)
  else none

/-- The byte that `c` and the bytes after it stand for as an escape. -/
def escapedByte (c : UInt8) : Bytes → Option UInt8
  | a :: b :: _ =>
    if c = percent then do
      let x ← hexValue a
      let y ← hexValue b
      return 16 * x + y
    else none
  | _ => none

/-- Decodes after the next `skip` bytes, which belong to an escape already read. -/
def decodeFrom : Nat → Bytes → Bytes
  | _, [] => []
  | skip + 1, _ :: rest => decodeFrom skip rest
  | 0, c :: rest =>
    match escapedByte c rest with
    | some b => b :: decodeFrom 2 rest
    | none => c :: decodeFrom 0 rest

def decode (text : Bytes) : Bytes := (decodeFrom 0 text).takeWhile (· ≠ 0)

structure Target where
  path : Bytes
  options : List (Bytes × Bytes)
  deriving DecidableEq

/-- The text before the first `c`, and the one after it. -/
def cut (c : UInt8) (text : Bytes) : Bytes × Bytes :=
  (text.takeWhile (· ≠ c), (text.dropWhile (· ≠ c)).drop 1)

def parseOption (text : Bytes) : Bytes × Bytes :=
  (decode (cut equals text).1, decode (cut equals text).2)

/-- The `key=value` pairs of a query.  One without a key is ignored. -/
def parseOptions (query : Bytes) : List (Bytes × Bytes) :=
  ((query.splitOn ampersand).map parseOption).filter (·.1 ≠ [])

/-- The path and query, without an authority.  Only an empty one and `localhost` are accepted. -/
def dropAuthority : Bytes → Option Bytes
  | a :: b :: rest =>
    if a = slash ∧ b = slash then
      let authority := rest.takeWhile (· ≠ slash)
      if authority = [] ∨ authority = ascii ['l', 'o', 'c', 'a', 'l', 'h', 'o', 's', 't'] then
        some (rest.dropWhile (· ≠ slash))
      else none
    else some (a :: b :: rest)
  | rest => some rest

/-- A path up to the first `?`, and options from there to the first `#`. -/
def target (rest : Bytes) : Target :=
  ⟨decode (cut question (cut hash rest).1).1, parseOptions (cut question (cut hash rest).1).2⟩

def parseUri (uri : Bytes) : Option Target :=
  (((uri.takeWhile (· ≠ 0)).dropPrefix? fileColon).bind dropAuthority).map target

/-! ## What the program builds -/

def hexDigit (n : UInt8) : UInt8 := if n < 10 then 48 + n else 55 + n

/-- `fmt.Fprintf(&b, "%%%02X", c)`. -/
def escape (c : UInt8) : Bytes := [percent, hexDigit (c / 16), hexDigit (c % 16)]

/-- The loop of `uriDSN` from byte `i` on, where `first` is the first byte of the path. -/
def escapeFrom (first : Option UInt8) : Nat → Bytes → Bytes
  | _, [] => []
  | i, c :: rest =>
    (if c = percent ∨ c = question ∨ c = hash ∨ (i = 1 ∧ c = slash ∧ first = some slash)
      then escape c else [c]) ++ escapeFrom first (i + 1) rest

def query (mode params : Bytes) : Bytes :=
  ascii ['m', 'o', 'd', 'e', '='] ++ mode ++ if params ≠ [] then ampersand :: params else []

def uriDSN (path mode params : Bytes) : Bytes :=
  fileColon ++ escapeFrom path.head? 0 path ++ question :: query mode params

def noCreateDSN (path params : Bytes) : Bytes := uriDSN path (ascii ['r', 'w']) params

def readOnlyDSN (path params : Bytes) : Bytes := uriDSN path (ascii ['r', 'o']) params

def absPath (path : Bytes) : Bytes := Path.clean slash dot path

def roQuery : Bytes := ascii ['m', 'o', 'd', 'e', '=', 'r', 'o', '&',
  'i', 'm', 'm', 'u', 't', 'a', 'b', 'l', 'e', '=', '1']

def roDSN (path : Bytes) : Bytes := fileColon ++ absPath path ++ question :: roQuery

def tableRowCountsDSN (path : Bytes) : Bytes := fileColon ++ absPath path ++ question :: roQuery

def mode : Bytes := ascii ['m', 'o', 'd', 'e']

def busyTimeoutKey : Bytes :=
  ascii ['_', 'b', 'u', 's', 'y', '_', 't', 'i', 'm', 'e', 'o', 'u', 't']

def busyTimeout (ms : List Char) : Bytes := busyTimeoutKey ++ equals :: ascii ms

def journalModeWAL : Bytes :=
  ascii ['_', 'j', 'o', 'u', 'r', 'n', 'a', 'l', '_', 'm', 'o', 'd', 'e', '=', 'W', 'A', 'L']

/-- The places of the internal packages where a database is opened by URI. -/
inductive Opening
  | quiesce | capture | importFrom | diff | rowCounts
  deriving DecidableEq

namespace Opening

def dsn (path : Bytes) : Opening → Bytes
  | quiesce => noCreateDSN path (busyTimeout ['3', '0', '0', '0'])
  | capture => noCreateDSN path (busyTimeout ['5', '0', '0', '0'] ++ ampersand :: journalModeWAL)
  | importFrom => readOnlyDSN path (busyTimeout ['5', '0', '0', '0'])
  | diff => roDSN path
  | rowCounts => tableRowCountsDSN path

def named (path : Bytes) : Opening → Bytes
  | quiesce | capture | importFrom => path
  | diff | rowCounts => absPath path

def intended : Opening → List (Bytes × Bytes)
  | quiesce => [(mode, ascii ['r', 'w']), (busyTimeoutKey, ascii ['3', '0', '0', '0'])]
  | capture => [(mode, ascii ['r', 'w']), (busyTimeoutKey, ascii ['5', '0', '0', '0']),
      (ascii ['_', 'j', 'o', 'u', 'r', 'n', 'a', 'l', '_', 'm', 'o', 'd', 'e'],
        ascii ['W', 'A', 'L'])]
  | importFrom => [(mode, ascii ['r', 'o']), (busyTimeoutKey, ascii ['5', '0', '0', '0'])]
  | diff | rowCounts => [(mode, ascii ['r', 'o']),
      (ascii ['i', 'm', 'm', 'u', 't', 'a', 'b', 'l', 'e'], ascii ['1'])]

def escapes : Opening → Bool
  | quiesce | capture | importFrom => true
  | diff | rowCounts => false

end Opening

/-! ## Decoding -/

variable {c : UInt8} {text p q path : Bytes}

variable {rest : Bytes}

theorem decodeFrom_escape {b : UInt8} (h : escapedByte c rest = some b) :
    decodeFrom 0 (c :: rest) = b :: decodeFrom 2 rest := by
  rw [decodeFrom, h]

theorem decodeFrom_none (h : escapedByte c rest = none) :
    decodeFrom 0 (c :: rest) = c :: decodeFrom 0 rest := by
  rw [decodeFrom, h]

theorem length_decodeFrom (skip : Nat) (text : Bytes) :
    (decodeFrom skip text).length ≤ text.length - skip := by
  induction text generalizing skip with
  | nil =>
    exact Nat.zero_le _
  | cons c rest ih =>
    cases skip with
    | succ skip =>
      have := ih skip
      rw [decodeFrom, length_cons]
      omega
    | zero =>
      cases h : escapedByte c rest with
      | some b =>
        have := ih 2
        rw [decodeFrom_escape h, length_cons, length_cons]
        omega
      | none =>
        have := ih 0
        rw [decodeFrom_none h, length_cons, length_cons]
        omega

theorem length_decode_le : (decode text).length ≤ text.length :=
  le_trans (List.takeWhile_prefix _).length_le (length_decodeFrom 0 text)

/-- No percent sign has two hexadecimal digits after it. -/
def NoEscape : Bytes → Prop
  | [] => True
  | c :: rest => escapedByte c rest = none ∧ NoEscape rest

instance decidableNoEscape : (text : Bytes) → Decidable (NoEscape text)
  | [] => .isTrue trivial
  | _ :: rest =>
    have := decidableNoEscape rest
    inferInstanceAs (Decidable (_ ∧ _))

theorem decodeFrom_eq_self_iff : decodeFrom 0 text = text ↔ NoEscape text := by
  induction text with
  | nil => exact ⟨fun _ => trivial, fun _ => decodeFrom.eq_1 0⟩
  | cons c rest ih =>
    rw [NoEscape, ← ih]
    cases h : escapedByte c rest with
    | some b =>
      refine ⟨fun heq => ?_, fun hnone => by cases hnone.1⟩
      -- An escape makes the text shorter.
      have hlen := congrArg List.length heq
      have := length_decodeFrom 2 rest
      have hpos : 0 < rest.length := by
        cases rest with
        | nil => cases h
        | cons a rest => exact Nat.succ_pos _
      rw [decodeFrom_escape h, length_cons, length_cons] at hlen
      omega
    | none =>
      rw [decodeFrom_none h, List.cons.injEq]
      exact ⟨fun heq => ⟨rfl, heq.2⟩, fun heq => ⟨rfl, heq.2⟩⟩

theorem takeWhile_eq_self (h : 0 ∉ text) : text.takeWhile (· ≠ 0) = text :=
  takeWhile_eq_self_iff.mpr fun _ hc => decide_eq_true fun h0 => h (h0 ▸ hc)

theorem decode_eq_self_iff (hnul : 0 ∉ text) : decode text = text ↔ NoEscape text := by
  rw [← decodeFrom_eq_self_iff, decode]
  constructor
  · intro h
    have hpre : (decodeFrom 0 text).takeWhile (· ≠ 0) <+: decodeFrom 0 text := takeWhile_prefix _
    rw [h] at hpre
    exact (hpre.eq_of_length_le (length_decodeFrom 0 text)).symm
  · intro h
    rw [h]
    exact takeWhile_eq_self hnul

/-! ## Escaping -/

theorem escapedByte_escape (h : c = percent ∨ c = question ∨ c = hash ∨ c = slash) :
    escapedByte percent (hexDigit (c / 16) :: hexDigit (c % 16) :: rest) = some c := by
  obtain rfl | rfl | rfl | rfl := h <;> rfl

theorem escapedByte_of_ne (h : c ≠ percent) : escapedByte c rest = none := by
  cases rest with
  | nil => rfl
  | cons a rest =>
    cases rest with
    | nil => rfl
    | cons b rest => exact if_neg h

theorem decodeFrom_escapeFrom (first : Option UInt8) (i : Nat) (path : Bytes) :
    decodeFrom 0 (escapeFrom first i path) = path := by
  induction path generalizing i with
  | nil => rfl
  | cons c rest ih =>
    rw [escapeFrom]
    split
    · rename_i h
      have hc : c = percent ∨ c = question ∨ c = hash ∨ c = slash :=
        h.imp_right (Or.imp_right (Or.imp_right fun hslash => hslash.2.1))
      refine (decodeFrom_escape (escapedByte_escape hc)).trans ?_
      exact congrArg (c :: ·) (ih (i + 1))
    · rename_i h
      refine (decodeFrom_none (escapedByte_of_ne fun hc => h (.inl hc))).trans ?_
      exact congrArg (c :: ·) (ih (i + 1))

theorem mem_escape (h : c = percent ∨ c = question ∨ c = hash ∨ c = slash) {d : UInt8}
    (hd : d ∈ escape c) : d ≠ question ∧ d ≠ hash ∧ d ≠ 0 := by
  rw [escape, mem_cons, mem_cons, mem_singleton] at hd
  obtain rfl | rfl | rfl | rfl := h <;> obtain rfl | rfl | rfl := hd <;> decide

theorem mem_escapeFrom {first : Option UInt8} {i : Nat} (hnul : 0 ∉ path) {d : UInt8}
    (hd : d ∈ escapeFrom first i path) : d ≠ question ∧ d ≠ hash ∧ d ≠ 0 := by
  induction path generalizing i with
  | nil => cases hd
  | cons c rest ih =>
    obtain hhead | hrest := mem_append.mp hd
    · split at hhead
      · rename_i h
        exact mem_escape (h.imp_right (Or.imp_right (Or.imp_right fun hslash => hslash.2.1))) hhead
      · rename_i h
        obtain rfl := mem_singleton.mp hhead
        exact ⟨fun hc => h (.inr (.inl hc)), fun hc => h (.inr (.inr (.inl hc))),
          fun hc => hnul (hc ▸ mem_cons_self)⟩
    · exact ih (fun h => hnul (mem_cons_of_mem c h)) hrest

/-- The text of a path that no authority can be read from. -/
structure Rooted (p : Bytes) : Prop where
  first : p.head? = some slash
  second : p.tail.head? ≠ some slash

theorem rooted_escapeFrom (h : path.head? = some slash) :
    Rooted (escapeFrom path.head? 0 path) := by
  obtain ⟨rest, rfl⟩ := List.head?_eq_some_iff.mp h
  have hfirst : escapeFrom (some slash) 0 (slash :: rest) =
      slash :: escapeFrom (some slash) 1 rest := by
    rfl
  refine ⟨rfl, ?_⟩
  show (escapeFrom (some slash) 1 rest).head? ≠ some slash
  cases rest with
  | nil => exact fun h => by cases h
  | cons c rest =>
    rw [escapeFrom]
    split
    · exact fun h => absurd (Option.some.inj h) (by decide)
    · rename_i hc
      exact fun h => hc (.inr (.inr (.inr ⟨rfl, Option.some.inj h, rfl⟩)))

theorem rooted_absPath (h : path.head? = some slash) : Rooted (absPath path) := by
  have hroot : Path.rooted slash path = true := decide_eq_true h
  have habs : absPath path = slash :: [slash].intercalate (Path.elements slash dot path) := by
    rw [absPath, Path.clean, hroot]
    rfl
  rw [habs]
  exact ⟨rfl, Path.head_ne_sep (Path.settled_stack (by decide) path)⟩

/-! ## Parsing -/

/-- The bytes the path of a URI goes on over. -/
def stays (c : UInt8) : Bool := decide (c ≠ question ∧ c ≠ hash)

theorem takeWhile_stays_append : (p ++ question :: q).takeWhile stays = p.takeWhile stays := by
  induction p with
  | nil => rfl
  | cons c p ih =>
    rw [cons_append, takeWhile_cons, takeWhile_cons, ih]

theorem cut_path : (cut question (cut hash (p ++ question :: q)).1).1 = p.takeWhile stays := by
  rw [← takeWhile_stays_append (q := q)]
  simp only [cut, takeWhile_takeWhile, decide_eq_true_eq]
  rfl

theorem cut_query (hp : p.takeWhile stays = p) (hq : hash ∉ q) :
    (cut question (cut hash (p ++ question :: q)).1).2 = q := by
  have hmem : ∀ c ∈ p, c ≠ question ∧ c ≠ hash := fun c hc =>
    of_decide_eq_true (takeWhile_eq_self_iff.mp hp c hc)
  have hall : (p ++ question :: q).takeWhile (· ≠ hash) = p ++ question :: q := by
    refine takeWhile_eq_self_iff.mpr fun c hc => decide_eq_true fun heq => ?_
    subst heq
    obtain hc | hc | hc := (mem_append.mp hc).imp_right mem_cons.mp
    · exact (hmem _ hc).2 rfl
    · exact absurd hc (by decide)
    · exact hq hc
  show (((p ++ question :: q).takeWhile (· ≠ hash)).dropWhile (· ≠ question)).drop 1 = q
  rw [hall, dropWhile_append_of_pos fun c hc => decide_eq_true (hmem c hc).1]
  rfl

theorem dropAuthority_eq (h : Rooted p) :
    dropAuthority (p ++ question :: q) = some (p ++ question :: q) := by
  obtain ⟨rest, rfl⟩ := List.head?_eq_some_iff.mp h.first
  have hsecond := h.second
  cases rest with
  | nil => rfl
  | cons c rest => exact if_neg fun hc => hsecond (congrArg some hc.2)

theorem parseUri_eq (h : Rooted p) (hp : 0 ∉ p) (hq : 0 ∉ q) :
    parseUri (fileColon ++ p ++ question :: q) = some ⟨decode (p.takeWhile stays),
      parseOptions (cut question (cut hash (p ++ question :: q)).1).2⟩ := by
  have hnul : 0 ∉ fileColon ++ (p ++ question :: q) := by
    rw [mem_append, mem_append, mem_cons]
    rintro (h0 | h0 | h0 | h0)
    · revert h0
      decide
    · exact hp h0
    · exact absurd h0 (by decide)
    · exact hq h0
  rw [parseUri, append_assoc, takeWhile_eq_self hnul, List.dropPrefix?_append_of_beq _ BEq.rfl,
    Option.bind_some, dropAuthority_eq h, Option.map_some, target, cut_path]

/-! ## Openings -/

/-- A path that stands for itself in a URI. -/
structure Literal (p : Bytes) : Prop where
  no_end : ∀ c ∈ p, c ≠ question ∧ c ≠ hash
  no_escape : NoEscape p

theorem takeWhile_stays_iff : p.takeWhile stays = p ↔ ∀ c ∈ p, c ≠ question ∧ c ≠ hash :=
  takeWhile_eq_self_iff.trans (forall₂_congr fun _ _ => decide_eq_true_iff)

instance : Decidable (Literal p) :=
  decidable_of_iff (p.takeWhile stays = p ∧ NoEscape p)
    ⟨fun h => ⟨takeWhile_stays_iff.mp h.1, h.2⟩,
      fun h => ⟨takeWhile_stays_iff.mpr h.no_end, h.no_escape⟩⟩

/-- A path put into a URI as it is comes back only if it stands for itself. -/
theorem decode_takeWhile_eq_iff (hp : 0 ∉ p) : decode (p.takeWhile stays) = p ↔ Literal p := by
  constructor
  · intro h
    have hall : p.takeWhile stays = p := by
      refine (List.takeWhile_prefix _).eq_of_length_le ?_
      calc p.length = (decode (p.takeWhile stays)).length := by rw [h]
        _ ≤ (p.takeWhile stays).length := length_decode_le
    rw [hall] at h
    exact ⟨takeWhile_stays_iff.mp hall, (decode_eq_self_iff hp).mp h⟩
  · intro h
    rw [takeWhile_stays_iff.mpr h.no_end]
    exact (decode_eq_self_iff hp).mpr h.no_escape

/-- An escaped path comes back, whatever it is. -/
theorem parseUri_uriDSN (habs : path.head? = some slash) (hnul : 0 ∉ path) {mode params : Bytes}
    (hquery : hash ∉ query mode params ∧ 0 ∉ query mode params) :
    parseUri (uriDSN path mode params) = some ⟨path, parseOptions (query mode params)⟩ := by
  have hmem {d : UInt8} (hd : d ∈ escapeFrom path.head? 0 path) := mem_escapeFrom hnul hd
  have hall : (escapeFrom path.head? 0 path).takeWhile stays = escapeFrom path.head? 0 path :=
    takeWhile_stays_iff.mpr fun d hd => ⟨(hmem hd).1, (hmem hd).2.1⟩
  rw [uriDSN, parseUri_eq (rooted_escapeFrom habs) (fun h => (hmem h).2.2 rfl) hquery.2,
    cut_query hall hquery.1, hall, decode, decodeFrom_escapeFrom, takeWhile_eq_self hnul]

theorem parseUri_unescaped (h : Rooted p) (hp : 0 ∉ p) :
    parseUri (fileColon ++ p ++ question :: roQuery) = some ⟨p, parseOptions roQuery⟩ ↔
    Literal p := by
  rw [parseUri_eq h hp (by decide), ← decode_takeWhile_eq_iff hp, Option.some.injEq,
    Target.mk.injEq,
    and_iff_left_iff_imp]
  intro heq
  rw [cut_query (takeWhile_stays_iff.mpr ((decode_takeWhile_eq_iff hp).mp heq).no_end) (by decide)]

theorem zero_not_mem_absPath (hnul : 0 ∉ path) : 0 ∉ absPath path := by
  intro h
  obtain hslash | hdot | hmem := Path.mem_of_mem_clean h
  · exact absurd hslash (by decide)
  · exact absurd hdot (by decide)
  · exact hnul hmem

/-- An opening reads back exactly the path it is for, with its options, if it escapes the path
or the path stands for itself, and in no other case. -/
theorem opens_iff (o : Opening) (habs : path.head? = some slash) (hnul : 0 ∉ path) :
    parseUri (o.dsn path) = some ⟨o.named path, o.intended⟩ ↔
      o.escapes = true ∨ Literal (o.named path) := by
  have hescaped (mode params : Bytes) (options : List (Bytes × Bytes))
      (hquery : hash ∉ query mode params ∧ 0 ∉ query mode params)
      (hoptions : parseOptions (query mode params) = options) :
      parseUri (uriDSN path mode params) = some ⟨path, options⟩ := by
    rw [parseUri_uriDSN habs hnul hquery, hoptions]
  have hro := parseUri_unescaped (rooted_absPath habs) (zero_not_mem_absPath hnul)
  cases o with
  | quiesce => exact iff_of_true (hescaped _ _ _ (by decide) (by decide +kernel)) (.inl rfl)
  | capture => exact iff_of_true (hescaped _ _ _ (by decide) (by decide +kernel)) (.inl rfl)
  | importFrom => exact iff_of_true (hescaped _ _ _ (by decide) (by decide +kernel)) (.inl rfl)
  | diff => exact hro.trans (or_iff_right Bool.false_ne_true).symm
  | rowCounts => exact hro.trans (or_iff_right Bool.false_ne_true).symm

/-- The path `/w %.db` of a diff. -/
theorem opens_iff_spaced : parseUri (Opening.diff.dsn (ascii ['/', 'w', ' ', '%', '.', 'd', 'b'])) =
    some ⟨ascii ['/', 'w', ' ', '%', '.', 'd', 'b'], Opening.diff.intended⟩ :=
  (opens_iff .diff rfl (by decide)).mpr (.inr (by decide +kernel))

/-- The path `/a%41` of a diff is opened as `/aA`. -/
theorem diff_opens_another : ¬ ∀ (o : Opening) (path : Bytes), path.head? = some slash → 0 ∉ path →
    parseUri (o.dsn path) = some ⟨o.named path, o.intended⟩ := by
  intro h
  have hsame : parseUri (Opening.diff.dsn (ascii ['/', 'a', '%', '4', '1'])) =
      some ⟨ascii ['/', 'a', 'A'], Opening.diff.intended⟩ := by decide +kernel
  have hpath := hsame.symm.trans (h .diff _ rfl (by decide))
  exact absurd hpath (by decide +kernel)

end Offshoot.Uri
