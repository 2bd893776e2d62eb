import Mathlib.Data.Char
import Mathlib.Data.List.Dedup
import Mathlib.Data.List.Lex
import Offshoot.Lib.Keyed

/-!
# Diff summary

`DiffSummary` of `internal/ops/diff.go`: how the rows of a table differ between two databases, by
the counts of generated statements.  `Sqlite` has what the evaluation of those depends on.  `IS`,
`EXCEPT` and `GROUP BY` compare by the collation of a column, take an integer and a real of the
same value as equal, and a NULL as equal to a NULL; before an `IS` each side takes on the affinity
of the other.  An alias of the rowid is the rowid unless a column has its name, be it a generated
one that `table_info` does not list.
-/

namespace Offshoot.Summary

open List

abbrev Text := List Char

inductive Value (ρ : Type)
  | null
  | int (n : Int)
  | real (x : ρ)
  | text (bytes : List UInt8)
  | blob (bytes : List UInt8)
  deriving DecidableEq

inductive Collation
  | binary
  | nocase
  | rtrim

/-- SQLite's `UpperToLower`. -/
def upperToLower (b : UInt8) : UInt8 := if 65 ≤ b ∧ b ≤ 90 then b + 32 else b

/-- Texts that a collation takes as equal are folded to the same.  `NOCASE` compares the letters
up to a zero byte, and then the lengths. -/
def Collation.fold : Collation → List UInt8 → List UInt8
  | binary, s => s
  | nocase, s =>
    (s.takeWhile (· ≠ 0)).map upperToLower ++ List.replicate (s.dropWhile (· ≠ 0)).length 0
  | rtrim, s => (s.reverse.dropWhile (· = 32)).reverse

inductive Affinity
  | numeric
  | text
  | blob
  deriving DecidableEq

structure Column where
  name : Text
  collation : Collation
  affinity : Affinity

inductive Field
  | rowid
  | col (i : Nat)
  | generated (i : Nat)

structure Row (ρ : Type) where
  rowid : Int
  values : List (Value ρ)
  generated : List (Value ρ)

def Row.field {ρ : Type} (row : Row ρ) : Field → Value ρ
  | .rowid => .int row.rowid
  | .col i => row.values.getD i .null
  | .generated i => row.generated.getD i .null

def Row.fields {ρ : Type} (row : Row ρ) (fs : List Field) : List (Value ρ) := fs.map row.field

/-- A table as `table_info` and `sqlite_master` describe it, its generated columns, which
`table_info` leaves out, and its rows. -/
structure Table (ρ : Type) where
  cols : List Column
  generated : List Column
  pk : List Nat
  definition : Text
  withoutRowid : Bool
  rows : List (Row ρ)
  pk_lt : ∀ i ∈ pk, i < cols.length
  rowids : (rows.map (·.rowid)).Nodup

variable {ρ : Type}

def Table.column (t : Table ρ) : Field → Column
  | .rowid => ⟨[], .binary, .numeric⟩
  | .col i => t.cols.getD i ⟨[], .binary, .blob⟩
  | .generated i => t.generated.getD i ⟨[], .binary, .blob⟩

def Table.names (t : Table ρ) : List Text := t.cols.map (·.name)

/-- A name in a generated statement: an alias of the rowid that is not among the names of
`table_info`, or one of those. -/
inductive Name
  | rowidAs (name : Text)
  | col (i : Nat)

/-- What a name stands for in a table; none if the statement fails. -/
def Table.resolve (t : Table ρ) : Name → Option Field
  | .col i => some (.col i)
  | .rowidAs name =>
    match t.generated.findIdx? fun c => c.name.map Char.toLower = name with
    | some i => some (.generated i)
    | none => if t.withoutRowid then none else some .rowid

def isSpace (c : Char) : Bool :=
  c ∈ ['\t', '\n', '\x0b', '\x0c', '\r', ' ', '\u0085', '\u00a0', '\u1680', '\u2028', '\u2029',
    '\u202f', '\u205f', '\u3000'] || ('\u2000' ≤ c && c ≤ '\u200a')

/-- `strings.Join(strings.Fields(sql), " ")`. -/
def Table.schema (t : Table ρ) : Text :=
  [' '].intercalate ((t.definition.splitOnP isSpace).filter (· ≠ []))

/-! ## Comparing values -/

structure Sqlite (ρ : Type) where
  whole : ρ → Option Int
  toNumeric : Value ρ → Value ρ
  toText : Value ρ → Value ρ

/-- Equal values are folded to the same. -/
def Sqlite.fold (env : Sqlite ρ) (c : Collation) : Value ρ → Value ρ
  | .real x => (env.whole x).elim (.real x) .int
  | .text s => .text (c.fold s)
  | v => v

/-- A value of a column of affinity `own`, compared with one of affinity `other`. -/
def Sqlite.against (env : Sqlite ρ) (own other : Affinity) (v : Value ρ) : Value ρ :=
  if other = .numeric ∧ own ≠ .numeric then env.toNumeric v
  else if other = .text ∧ own = .blob then env.toText v
  else v

/-- `x IS l`, by the collation of the column on the left. -/
def Sqlite.is [DecidableEq ρ] (env : Sqlite ρ) (x l : Column) (v w : Value ρ) : Bool :=
  env.fold x.collation (env.against x.affinity l.affinity v) =
    env.fold x.collation (env.against l.affinity x.affinity w)

/-! ## The summary -/

inductive KeyKind
  | pk
  | rowid
  deriving DecidableEq

inductive Status
  | same
  | changed
  | added
  | removed
  deriving DecidableEq

structure TableDiff where
  left : Nat
  right : Nat
  added : Nat := 0
  removed : Nat := 0
  changed : Nat := 0
  schemaChanged : Bool := false
  comparable : Bool := false
  key : Option KeyKind := none
  status : Status
  deriving DecidableEq

def rowidAlias (cols : List Text) : Option Text :=
  ["rowid".toList, "oid".toList, "_rowid_".toList].find? fun name =>
    name ∉ cols.map (·.map Char.toLower)

variable [DecidableEq ρ] (env : Sqlite ρ)

/-- Fields of a row, as `GROUP BY` compares them. -/
def Table.folded (t : Table ρ) (fs : List Field) (row : Row ρ) : List (Value ρ) :=
  fs.map fun f => env.fold (t.column f).collation (row.field f)

def isKeyUnique (t : Table ρ) (key : List Field) : Bool :=
  decide (t.rows.map (t.folded env key)).Nodup

/-- The key of the rows, and what it is called. -/
def rowIdentity (l r : Table ρ) : Option (KeyKind × List Name) :=
  if l.pk ≠ [] ∧ isKeyUnique env l (l.pk.map .col) ∧ isKeyUnique env r (l.pk.map .col) then
    some (.pk, l.pk.map .col)
  else (rowidAlias l.names).map fun name => (.rowid, [.rowidAs name])

def selectList (t : Table ρ) : KeyKind → List Name → List Name
  | .pk, _ => (List.range t.cols.length).map .col
  | .rowid, key => key ++ (List.range t.cols.length).map .col

/-- The rows of `l` without one in `x` that has the same key, which is `lkey` in the one and
`xkey` in the other. -/
def antiJoin (l x : Table ρ) (lkey xkey : List Field) : Nat :=
  l.rows.countP fun row => !x.rows.any fun other =>
    (List.zipWith (fun f g => env.is (x.column g) (l.column f) (other.field g) (row.field f))
      lkey xkey).all id

/-- The rows of `l` that `r` has not, compared by the collations of `l`. -/
def except (l r : Table ρ) (lsel rsel : List Field) : Nat :=
  ((l.rows.map (l.folded env lsel)).dedup.filter (· ∉ r.rows.map fun row =>
    List.zipWith (fun f g => env.fold (l.column f).collation (row.field g)) lsel rsel)).length

def compareRows (l r : Table ρ) (kind : KeyKind) (lkey rkey lsel rsel : List Field) : TableDiff :=
  let schemaChanged := decide (l.schema ≠ r.schema)
  let removed := antiJoin env l r lkey rkey
  let added := antiJoin env r l rkey lkey
  let changed := except env l r lsel rsel - removed
  let status := if 0 < added + removed + changed || schemaChanged then .changed else .same
  { left := l.rows.length, right := r.rows.length, added, removed, changed, schemaChanged,
    comparable := true, key := some kind, status }

/-- A table on both sides.  It fails if a name of a statement stands for nothing. -/
def diffTable (l r : Table ρ) : Option TableDiff :=
  let schemaChanged := decide (l.schema ≠ r.schema)
  let left := l.rows.length
  let right := r.rows.length
  if l.names ≠ r.names then some { left, right, schemaChanged, status := .changed }
  else
    match rowIdentity env l r with
    | none =>
      some { left, right, schemaChanged, status := if left ≠ right then .changed else .same }
    | some (kind, key) => do
      let select := selectList l kind key
      return compareRows env l r kind (← key.mapM l.resolve) (← key.mapM r.resolve)
        (← select.mapM l.resolve) (← select.mapM r.resolve)

def diffNamed : Option (Table ρ) → Option (Table ρ) → Option TableDiff
  | some l, some r => diffTable env l r
  | some l, none => some { left := l.rows.length, right := 0, status := .removed }
  | none, some r => some { left := 0, right := r.rows.length, status := .added }
  | none, none => none

abbrev Database (ρ : Type) := List (Text × Table ρ)

def diffSummary (l r : Database ρ) : Option (List (Text × TableDiff)) :=
  (((l ++ r).map (·.1)).dedup.mergeSort (· ≤ ·)).mapM fun name =>
    (diffNamed env (l.lookup name) (r.lookup name)).map (name, ·)

/-! ## What it should say -/

/-- What identifies a row: the values of its primary key, or its rowid. -/
def KeyKind.key (t : Table ρ) : KeyKind → List Field
  | pk => t.pk.map .col
  | rowid => [.rowid]

/-- What rows are compared by: the values of all columns, and the key. -/
def KeyKind.content (t : Table ρ) : KeyKind → List Field
  | pk => (List.range t.cols.length).map .col
  | rowid => .rowid :: (List.range t.cols.length).map .col

/-- The counts and the status of a table of which no key occurs twice, with `key` and `fields`
compared value for value and type for type. -/
structure TableDiff.Right (d : TableDiff) (l r : Table ρ) (key fields : List Field) : Prop where
  unique : (l.rows.map (·.fields key)).Nodup ∧ (r.rows.map (·.fields key)).Nodup
  removed : d.removed = Keyed.only (·.fields key) l.rows r.rows
  added : d.added = Keyed.only (·.fields key) r.rows l.rows
  changed : d.changed = Keyed.changed (·.fields key) (·.fields fields) l.rows r.rows
  balance : d.left - d.removed = d.right - d.added
  same : d.status = .same → l.definition = r.definition ∧
    (l.rows.map (·.fields fields)).Perm (r.rows.map (·.fields fields))

/-- The key reads the same in both tables: the columns of a primary key have the same affinities,
and no generated column has the name that the rowid is called by. -/
def KeyKind.Plain (l r : Table ρ) : KeyKind → Prop
  | pk => ∀ i ∈ l.pk, (l.column (.col i)).affinity = (r.column (.col i)).affinity
  | rowid => ∀ c ∈ l.generated ++ r.generated, rowidAlias l.names ≠ some (c.name.map Char.toLower)

/-- SQLite takes no key, and no row, of one side for another of the other side, and tables that
are reported the same have the same definition. -/
structure Exact (l r : Table ρ) (kind : KeyKind) (status : Status) : Prop where
  rows : ∀ a ∈ l.rows, ∀ b ∈ r.rows,
    (l.folded env (kind.key l) a = l.folded env (kind.key l) b ∨
      r.folded env (kind.key l) a = r.folded env (kind.key l) b →
        a.fields (kind.key l) = b.fields (kind.key l)) ∧
    (l.folded env (kind.content l) a = l.folded env (kind.content l) b →
      a.fields (kind.content l) = b.fields (kind.content l))
  definition : status = .same → l.definition = r.definition

variable {env} {l r : Table ρ} {fs key : List Field} {a b : Row ρ} {kind : KeyKind}

/-! ### The names of the statements -/

variable {t : Table ρ}

omit [DecidableEq ρ] in
theorem mapM_resolve_col (is : List Nat) :
    (is.map Name.col).mapM t.resolve = some (is.map .col) := by
  induction is with
  | nil => rfl
  | cons i is ih =>
    rw [map_cons, mapM_cons, ih]
    rfl

variable {name : Text}

omit [DecidableEq ρ] in
theorem resolve_rowidAs {f : Field} (hplain : ∀ c ∈ t.generated, name ≠ c.name.map Char.toLower)
    (h : t.resolve (.rowidAs name) = some f) : f = .rowid := by
  have hnone : (t.generated.findIdx? fun c => c.name.map Char.toLower = name) = none := by
    rw [List.findIdx?_eq_none_iff]
    exact fun c hc => decide_eq_false fun heq => hplain c hc heq.symm
  rw [Table.resolve, hnone] at h
  dsimp only at h
  split at h
  · cases h
  · exact (Option.some.inj h).symm

omit [DecidableEq ρ] in
theorem mapM_resolve_rowidAs (is : List Nat)
    (hplain : ∀ c ∈ t.generated, name ≠ c.name.map Char.toLower)
    (h : (Name.rowidAs name :: is.map .col).mapM t.resolve = some fs) :
    fs = .rowid :: is.map .col := by
  rw [mapM_cons] at h
  obtain ⟨f, hf, h⟩ := Option.bind_eq_some_iff.mp h
  rw [mapM_resolve_col] at h
  obtain rfl := resolve_rowidAs hplain hf
  exact (Option.some.inj h).symm

variable {d : TableDiff}

theorem diffTable_comparable (h : diffTable env l r = some d) (hcomparable : d.comparable = true) :
    ∃ kind, d.key = some kind ∧ (kind.Plain l r →
      d = compareRows env l r kind (kind.key l) (kind.key l) (kind.content l) (kind.content l)) ∧
      (kind = .pk → isKeyUnique env l (l.pk.map .col) ∧ isKeyUnique env r (l.pk.map .col)) := by
  simp only [diffTable] at h
  split at h
  · rw [← Option.some.inj h] at hcomparable
    cases hcomparable
  split at h
  · rw [← Option.some.inj h] at hcomparable
    cases hcomparable
  rename_i kind names hidentity
  obtain ⟨lkey, hlkey, h⟩ := Option.bind_eq_some_iff.mp h
  obtain ⟨rkey, hrkey, h⟩ := Option.bind_eq_some_iff.mp h
  obtain ⟨lsel, hlsel, h⟩ := Option.bind_eq_some_iff.mp h
  obtain ⟨rsel, hrsel, h⟩ := Option.bind_eq_some_iff.mp h
  cases h
  rw [rowIdentity] at hidentity
  split at hidentity
  · rename_i hpk
    cases hidentity
    rw [mapM_resolve_col] at hlkey hrkey
    rw [selectList, mapM_resolve_col] at hlsel hrsel
    cases hlkey
    cases hrkey
    cases hlsel
    cases hrsel
    exact ⟨.pk, rfl, fun _ => rfl, fun _ => hpk.2⟩
  · obtain ⟨name, hname, heq⟩ := Option.map_eq_some_iff.mp hidentity
    cases heq
    refine ⟨.rowid, rfl, fun hplain => ?_, by simp⟩
    -- On both sides the name stands for the rowid.
    have hleft : ∀ c ∈ l.generated, name ≠ c.name.map Char.toLower := fun c hc heq =>
      hplain c (mem_append_left _ hc) (hname.trans (congrArg some heq))
    have hright : ∀ c ∈ r.generated, name ≠ c.name.map Char.toLower := fun c hc heq =>
      hplain c (mem_append_right _ hc) (hname.trans (congrArg some heq))
    obtain rfl := mapM_resolve_rowidAs [] hleft hlkey
    obtain rfl := mapM_resolve_rowidAs [] hright hrkey
    obtain rfl := mapM_resolve_rowidAs _ hleft hlsel
    obtain rfl := mapM_resolve_rowidAs _ hright hrsel
    rfl

/-! ### The counts -/

omit [DecidableEq ρ] in
theorem folded_of_fields (h : a.fields fs = b.fields fs) :
    t.folded env fs a = t.folded env fs b := by
  rw [Row.fields, Row.fields, map_inj_left] at h
  exact map_congr_left fun f hf => by rw [h f hf]

omit [DecidableEq ρ] in
theorem key_subset_content : kind.key l ⊆ kind.content l := by
  cases kind with
  | pk =>
    intro f hf
    obtain ⟨i, hi, rfl⟩ := mem_map.mp hf
    exact mem_map.mpr ⟨i, mem_range.mpr (l.pk_lt i hi), rfl⟩
  | rowid => exact fun f hf => mem_singleton.mp hf ▸ mem_cons_self

theorem antiJoin_eq (haff : ∀ f ∈ key, (l.column f).affinity = (r.column f).affinity) :
    antiJoin env l r key key = Keyed.only (r.folded env key) l.rows r.rows := by
  have hself (own : Affinity) (v : Value ρ) : env.against own own v = v := by
    cases own <;> simp [Sqlite.against]
  refine Keyed.countP_eq_only fun b _ => ?_
  rw [Bool.not_eq_true', ← Bool.not_eq_true, any_eq_true, not_iff_not, mem_map]
  refine exists_congr fun a => and_congr_right fun _ => ?_
  rw [zipWith_self, all_map, all_eq_true, Table.folded, Table.folded, map_inj_left]
  refine forall₂_congr fun f hf => ?_
  rw [Function.comp, id, Sqlite.is, decide_eq_true_iff, haff f hf, hself, hself]

theorem except_eq (hnodup : (l.rows.map (l.folded env fs)).Nodup) :
    except env l r fs fs = Keyed.only (l.folded env fs) l.rows r.rows := by
  simp only [except, zipWith_self]
  rw [hnodup.dedup, ← countP_eq_length_filter, countP_map]
  refine Keyed.countP_eq_only fun b _ => ?_
  rw [Function.comp, decide_eq_true_iff]
  rfl

/-- A key is unique on both sides, also to SQLite. -/
theorem nodup_folded
    (hpk : kind = .pk → isKeyUnique env l (l.pk.map .col) ∧ isKeyUnique env r (l.pk.map .col)) :
    (l.rows.map (l.folded env (kind.key l))).Nodup ∧
      (r.rows.map (r.folded env (kind.key l))).Nodup := by
  cases kind with
  | pk => exact ⟨of_decide_eq_true (hpk rfl).1, of_decide_eq_true (hpk rfl).2⟩
  | rowid =>
    have hrowid (t : Table ρ) : (t.rows.map (t.folded env [.rowid])).Nodup := by
      have ht := t.rowids
      rw [List.Nodup, pairwise_map] at ht ⊢
      exact ht.imp fun hne heq => hne (by
        simpa [Table.folded, Table.column, Row.field, Sqlite.fold] using heq)
    exact ⟨hrowid l, hrowid r⟩

theorem compareRows_right (hplain : kind.Plain l r)
    (hpk : kind = .pk → isKeyUnique env l (l.pk.map .col) ∧ isKeyUnique env r (l.pk.map .col))
    (hd : d = compareRows env l r kind (kind.key l) (kind.key l) (kind.content l)
      (kind.content l)) :
    d.Right l r (kind.key l) (kind.content l) ↔ Exact env l r kind d.status := by
  obtain ⟨hl, hr⟩ := nodup_folded hpk
  have hkey (a b : Row ρ) (h : a.fields (kind.content l) = b.fields (kind.content l)) :
      a.fields (kind.key l) = b.fields (kind.key l) := by
    rw [Row.fields, Row.fields, map_inj_left] at h ⊢
    exact fun f hf => h f (key_subset_content hf)
  have hck (a b : Row ρ)
      (h : l.folded env (kind.content l) a = l.folded env (kind.content l) b) :
      l.folded env (kind.key l) a = l.folded env (kind.key l) b := by
    rw [Table.folded, Table.folded, map_inj_left] at h ⊢
    exact fun f hf => h f (key_subset_content hf)
  have haff : ∀ f ∈ kind.key l, (l.column f).affinity = (r.column f).affinity := by
    intro f hf
    cases kind with
    | pk =>
      obtain ⟨i, hi, rfl⟩ := mem_map.mp hf
      exact hplain i hi
    | rowid =>
      obtain rfl := mem_singleton.mp hf
      rfl
  have hremoved : d.removed = Keyed.only (r.folded env (kind.key l)) l.rows r.rows := by
    rw [hd]
    exact antiJoin_eq haff
  have hadded : d.added = Keyed.only (l.folded env (kind.key l)) r.rows l.rows := by
    rw [hd]
    exact antiJoin_eq fun f hf => (haff f hf).symm
  have hchanged : d.changed =
      Keyed.only (l.folded env (kind.content l)) l.rows r.rows - d.removed := by
    rw [hd]
    exact congrArg (· - _) (except_eq (Keyed.nodup_val hck hl))
  have hnodupl := Keyed.nodup_val (fun a b => folded_of_fields (a := a) (b := b)) hl
  have hnodupr := Keyed.nodup_val (fun a b => folded_of_fields (a := a) (b := b)) hr
  have hcounts := Keyed.counts_coarse (l := l.rows) (r := r.rows) hkey hl hr
    (fun _ _ => folded_of_fields) (fun _ _ => folded_of_fields) (fun _ _ => folded_of_fields) hck
  rw [← hremoved, ← hadded, ← hchanged] at hcounts
  constructor
  · intro h
    exact ⟨hcounts.mp ⟨h.removed, h.added, h.changed⟩, fun hsame => (h.same hsame).1⟩
  · intro h
    obtain ⟨hrem, hadd, hch⟩ := hcounts.mpr h.rows
    refine ⟨⟨hnodupl, hnodupr⟩, hrem, hadd, hch, ?_, fun hsame => ⟨h.definition hsame, ?_⟩⟩
    · rw [hrem, hadd, hd]
      exact Keyed.length_sub_onlyLeft hnodupl hnodupr
    · have hnone : d.added + d.removed + d.changed = 0 := by
        rw [hd] at hsame ⊢
        dsimp only [compareRows] at hsame ⊢
        split at hsame
        · cases hsame
        · rename_i hnot
          simp only [Bool.or_eq_true, decide_eq_true_eq, not_or] at hnot
          omega
      have hval := Keyed.only_val (l := l.rows) hkey hnodupr
      refine Keyed.perm_of_none hkey hnodupl hnodupr ?_ ?_
      · rw [hval]
        omega
      · omega

theorem mem_diffSummary {l r : Database ρ} {out : List (Text × TableDiff)}
    (h : diffSummary env l r = some out) (hmem : (name, d) ∈ out) :
    diffNamed env (l.lookup name) (r.lookup name) = some d := by
  rw [diffSummary] at h
  generalize ((l ++ r).map (·.1)).dedup.mergeSort (· ≤ ·) = names at h
  induction names generalizing out with
  | nil =>
    cases h
    cases hmem
  | cons n names ih =>
    rw [mapM_cons] at h
    obtain ⟨e, he, h⟩ := Option.bind_eq_some_iff.mp h
    obtain ⟨rest, hrest, h⟩ := Option.bind_eq_some_iff.mp h
    cases h
    rcases mem_cons.mp hmem with rfl | hmem
    · obtain ⟨d', hd', heq⟩ := Option.map_eq_some_iff.mp he
      cases heq
      exact hd'
    · exact ih hmem hrest

def plainSqlite : Sqlite Empty := ⟨fun _ => none, id, id⟩

def person (id : Int) (name : List UInt8) : Row Empty := ⟨id, [.int id, .text name], []⟩

def people (rows : List (Row Empty)) (h : (rows.map (·.rowid)).Nodup) : Table Empty where
  cols := [⟨['i', 'd'], .binary, .numeric⟩, ⟨['n'], .nocase, .text⟩]
  generated := []
  pk := [0]
  definition := "create table people (id integer primary key, n text collate nocase)".toList
  withoutRowid := false
  rows
  pk_lt := by decide
  rowids := h

theorem diffSummary_people {l r : Table Empty} (h : diffTable plainSqlite l r = some d) :
    diffSummary plainSqlite [(['p'], l)] [(['p'], r)] = some [(['p'], d)] := by
  have hnames : (([(['p'], l)] ++ [(['p'], r)]).map (·.1)).dedup = [['p']] := by
    show [['p'], ['p']].dedup = [['p']]
    decide
  rw [diffSummary, hnames, mergeSort_singleton, mapM_cons]
  show ((diffTable plainSqlite l r).map _).bind _ = _
  rw [h]
  rfl

def namesakes : Table Empty := people [person 1 [97], person 2 [65]] (by decide)

end Offshoot.Summary
